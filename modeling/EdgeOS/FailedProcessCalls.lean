import EdgeOS.OpenDescriptors
import EdgeOS.ProcessCalls

namespace EdgeOS

open Lib TaskTable Function ProcFds

/-!
Process-control calls that return an error: what they leave behind, and when that is nothing.
-/

/-! ## What is to stay -/

/-- The same live processes and zombies, with the same numbers and links. -/
structure SameProcesses (s s' : TaskTable) : Prop where
  live : ∀ u, Live s' u ↔ Live s u
  zombie : ∀ u, (s'.task u).state = .zombie ↔ (s.task u).state = .zombie
  pid : ∀ u, Live s u → (s'.task u).pid = (s.task u).pid
  ppid : ∀ u, Live s u → (s'.task u).ppid = (s.task u).ppid
  tree : ∀ u, Live s u → (s'.task u).tree = (s.task u).tree

theorem SameProcesses.refl (s : TaskTable) : SameProcesses s s :=
  ⟨fun _ => Iff.rfl, fun _ => Iff.rfl, fun _ _ => rfl, fun _ _ => rfl, fun _ _ => rfl⟩

/-- The caller's memory, descriptors, image, handlers and argument buffers are as they were. -/
structure ExecSys.CallerKept (c c' : ExecSys) : Prop where
  mem : c'.procs.sys.proc.mem = c.procs.sys.proc.mem
  fds : c'.procs.fds.fdsOf c.procs.pid = c.procs.fds.fdsOf c.procs.pid
  image : (c'.procs.sys.proc.tab.task c.current).image = (c.procs.sys.proc.tab.task c.current).image
  sig : (c'.procs.sys.proc.tab.task c.current).sig = (c.procs.sys.proc.tab.task c.current).sig
  argbuf : c'.argbuf c.current = c.argbuf c.current
  envbuf : c'.envbuf c.current = c.envbuf c.current

def ProcCall.isExec : ProcCall → Bool
  | .execve .. | .execveat .. => true
  | _ => false

def ExecSys.FailsClean (L : KernelLayout) (c : ExecSys) (pc : ProcCall) : Prop :=
  ∀ e, (c.call L pc).2 = .error e → if pc.isExec then c.CallerKept (c.call L pc).1
    else SameProcesses c.procs.sys.proc.tab (c.call L pc).1.procs.sys.proc.tab

/-! ## When it does -/

namespace ProcFds

variable (L : KernelLayout) (k : ProcFds)

/-- Whoever asks for a pidfd and gets a child gets a descriptor for it, and it can be returned. -/
def Clone3Ok (mem : Memory) (args size : UInt64) (tf : TrapFrame) (cbs : FdIdx → List ℕ) : Prop :=
  ∀ ca, readCloneArgs mem args size = .ok ca → ca.wantsPidfd = true → 0 < (processFork L k.sys.proc (some tf)).2 →
      userRangeOk ca.pidfd 4 = true ∧
        (allocSpecialFd (k.doSysFork L tf cbs).fds k.pid .pidfd (processFork L k.sys.proc (some tf)).2
          linuxOCloexec).2 ≠ none

def zombieFor (pid : ℤ) : Option TaskRef :=
  let s := k.sys.proc.tab
  (waitScan s k.sys.current (.pid pid) listFuel (s.task k.sys.current).tree.firstChild false).2

/-- If there is a zombie for the wait, its status can be returned. -/
def Wait4Ok (pid : ℤ) (status : UInt64) (options : BitVec 32) : Prop :=
  hasFlag options (~~~(linuxWnohang ||| linuxWuntraced ||| linuxWcontinued)) = false → status ≠ 0 →
    ∀ t, k.zombieFor pid = some t → 0 < (k.sys.proc.tab.task t).pid → userRangeOk status 4 = true

def WaitidOk (idtype : ℤ) (id info : UInt64) (options : BitVec 32) : Prop :=
  hasFlag options linuxWexited = true → hasFlag options linuxWnowait = false → info ≠ 0 →
    ∀ pid, waitidPid idtype id = some pid → k.zombieFor pid ≠ none → userRangeOk info waitidInfoSize = true

/-- The memory that `elf_loader_exec` finds in a new slot. -/
def spawnMem (L : KernelLayout) (s : ProcState) (parent child : Fin procMaxTasks) : UserMem :=
  let d := s.pd parent
  let m := taskClearUserRegions L d s.mem child (Region.heap.base + Region.heap.size)
  let m := m.clear L d .heapExt child 0 Region.heapExt.size
  m.clear L d .bigpie child 0 Region.bigpie.size

/-- The caller's first child is first in the list of the caller's children, unless the program can be
loaded. -/
def SpawnOk (L : KernelLayout) (mem : Memory) (path argv : UInt64) (elf : UserMem → UserMem × Bool) : Prop :=
  ∀ kpath argc, readKpath mem path = .ok kpath → scanArgs mem argv = .ok argc →
    ∀ p c, k.sys.current = .slot p → taskAlloc k.sys.proc.tab = some c →
      (elf (spawnMem L k.sys.proc p c)).2 = false → p ≠ c →
        ∀ f, (k.sys.proc.tab.task (.slot p)).tree.firstChild = some f → Live k.sys.proc.tab f →
          (k.sys.proc.tab.task f).tree.siblingPrev = none

end ProcFds

namespace ExecSys

variable (c : ExecSys)

def NoCloexec : Prop :=
  ∀ i, (c.procs.fds.fdsOf c.procs.pid i).used = true → (c.procs.fds.fdsOf c.procs.pid i).cloexec = false

def HasImage : Prop := ∃ i : Fin procMaxTasks, c.current = .slot i ∧ i.val < userAsMaxTasks

def CopiesNothing (mem : Memory) (argv envp : UInt64) (argc envc : ℕ) : Prop :=
  (c.copyIn mem argv envp argc envc).1.argbuf c.current = c.argbuf c.current ∧
    (c.copyIn mem argv envp argc envc).1.envbuf c.current = c.envbuf c.current

def SameName (name : String) : Prop := (c.procs.sys.proc.tab.task c.current).image.name = name

/-- An exec that gets as far as the arguments enters the program, or what it would write by then is
what is there. -/
def ExecveOk (mem : Memory) (path argv envp : UInt64) (file : Bytes → ExecFile) : Prop :=
  ∀ kpath argc envc, readExecArgs mem path argv envp = .ok (kpath, argc, envc) →
    match (c.copyIn mem argv envp argc envc).2 with
    | none => c.CopiesNothing mem argv envp argc envc
    | some argc' =>
      (file kpath).check = none ∧ c.HasImage ∨ c.CopiesNothing mem argv envp argc envc ∧
          c.SameName (execName kpath argc' ((c.copyIn mem argv envp argc envc).1.argbuf c.current 0)) ∧
          ((file kpath).check = none → c.NoCloexec)

def StdioThere : Prop :=
  (∀ i : FdIdx, i.val ≤ 2 → (c.procs.fds.fdsOf c.procs.pid i).used = true) ∨
    (fileRefAlloc c.procs.fds).2 = 0 ∨ findProc c.procs.fds c.procs.pid = none ∧ findProc c.procs.fds 0 = none

def ExecveatOk (mem : Memory) (dirfd : ℤ) (path argv envp : UInt64) (flags : BitVec 32)
    (file : Bytes → ExecFile) : Prop :=
  hasFlag flags (~~~(linuxAtEmptyPath ||| linuxAtSymlinkNofollow)) = false → path ≠ 0 →
    ∀ b, copyUserCstr mem (zeros 256) path = (b, true) →
      if hasFlag flags linuxAtEmptyPath ∧ rd8 b 0 = 0 then c.StdioThere
      else dirfd = -100 ∨ rd8 b 0 = 47 → c.ExecveOk mem path argv envp file

def CallOk (L : KernelLayout) : ProcCall → Prop
  | .clone3 mem args size tf cbs _ => c.procs.Clone3Ok L mem args size tf cbs
  | .wait4 pid status options _ => c.procs.Wait4Ok pid status options
  | .waitid idtype id info options _ => c.procs.WaitidOk idtype id info options
  | .spawn mem path argv elf => c.procs.SpawnOk L mem path argv elf
  | .execve mem path argv envp file _ => c.ExecveOk mem path argv envp file
  | .execveat mem dirfd path argv envp flags file _ => c.ExecveatOk mem dirfd path argv envp flags file

end ExecSys

/-! ## Forks -/

section Fork

variable {L : KernelLayout} {k : ProcFds}

/-- A fork that returns a pid has made a live process of a free slot. -/
theorem processFork_live {s : ProcState} (h : WellNumbered s.tab) (tf : TrapFrame) :
    processFork L s (some tf) = (s, -1) ∨ 0 < (processFork L s (some tf)).2 ∧
      ∃ c, (s.tab.task (.slot c)).state = .unused ∧ Live (processFork L s (some tf)).1.tab (.slot c) := by
  unfold processFork
  split
  · rename_i p tf _ _
    split
    · exact .inl rfl
    rename_i c halloc
    split_ifs
    · exact .inl rfl
    · have hchild := forkTable_child (h.slots c) (.slot p) tf
      refine .inr ⟨?_, c, (taskAlloc_some halloc).2, hchild.2.1⟩
      dsimp only
      rw [hchild.1]
      exact h.nextPid
  · exact .inl rfl

theorem setRunnable_live {s : TaskTable} {u : TaskRef} (h : Live s u) (pid : ℤ) :
    Live (processSetRunnable s pid) u := by
  unfold processSetRunnable
  split
  · exact h
  unfold Live
  rw [makeRunnable_state]
  split_ifs
  · simp
  · exact h

/-- A fork leaves everything as it was and fails, or makes a process. -/
theorem doSysFork_cases (h : WellNumbered k.sys.proc.tab) (tf : TrapFrame) (cbs : FdIdx → List ℕ) :
    (processFork L k.sys.proc (some tf)).2 = -1 ∧ (k.doSysFork L tf cbs).sys.proc.tab = k.sys.proc.tab ∨
      0 < (processFork L k.sys.proc (some tf)).2 ∧
        ¬ SameProcesses k.sys.proc.tab (k.doSysFork L tf cbs).sys.proc.tab := by
  unfold doSysFork
  rcases processFork_live (L := L) h tf with heq | ⟨hpid, c, hfree, hlive⟩
  · left
    rw [heq]
    exact ⟨rfl, rfl⟩
  refine .inr ⟨hpid, fun hsame => ?_⟩
  dsimp only at hsame
  rw [if_pos hpid] at hsame
  have hlive' := (hsame.live (.slot c)).mp (setRunnable_live hlive _)
  exact hlive' hfree

theorem clone3_fails_clean (h : WellNumbered k.sys.proc.tab) (mem : Memory) (args size : UInt64)
    (tf : TrapFrame) (cbs : FdIdx → List ℕ) (window : ℕ → List ℕ) :
    (∀ e, (k.doSysClone3 L mem args size tf cbs window).2 = .error e →
      SameProcesses k.sys.proc.tab (k.doSysClone3 L mem args size tf cbs window).1.sys.proc.tab) ↔
    k.Clone3Ok L mem args size tf cbs := by
  unfold doSysClone3 ProcFds.Clone3Ok
  cases hca : readCloneArgs mem args size with
  | error e =>
    constructor
    · intro _ ca hca'
      simp at hca'
    · intro _ e' _
      exact .refl _
  | ok ca =>
    dsimp only
    rcases doSysFork_cases (L := L) h tf cbs with ⟨hret, htab⟩ | ⟨hret, hnew⟩
    · rw [if_pos (by omega), hret]
      constructor
      · intro _ ca' _ _ hpos
        omega
      · intro _ e _
        dsimp only
        rw [htab]
        exact .refl _
    rw [if_neg (by omega)]
    by_cases hwants : ca.wantsPidfd = true
    · rw [if_pos ⟨hret, hwants⟩]
      generalize allocSpecialFd (k.doSysFork L tf cbs).fds k.pid .pidfd
        (processFork L k.sys.proc (some tf)).2 linuxOCloexec = out
      rcases out with ⟨fds, _ | i⟩
      · constructor
        · intro hclean
          exact absurd (hclean .enomem rfl) hnew
        · intro hok
          exact absurd rfl (hok ca rfl hwants hret).2
      dsimp only
      split_ifs with hwrite
      · constructor
        · intro _ ca' hca' _ _
          rw [← Except.ok.inj hca']
          exact ⟨hwrite, by simp⟩
        · intro _ e he
          simp at he
      · constructor
        · intro hclean
          exact absurd (hclean .efault rfl) hnew
        · intro hok
          exact absurd (hok ca rfl hwants hret).1 hwrite
    · rw [if_neg (by tauto)]
      constructor
      · intro _ ca' hca' hwants'
        rw [← Except.ok.inj hca'] at hwants'
        exact absurd hwants' hwants
      · intro _ e he
        simp at he

end Fork

/-! ## Waits -/

section Wait

variable {k : ProcFds}

theorem waitScan_zombie {s : TaskTable} {parent t : TaskRef} {w : WaitFor} {n : ℕ} {l : Option TaskRef}
    {b found : Bool} (h : waitScan s parent w n l b = (found, some t)) : (s.task t).state = .zombie := by
  induction n generalizing l b with
  | zero => simp [waitScan] at h
  | succ n ih =>
    cases l with
    | none => simp [waitScan] at h
    | some u =>
      unfold waitScan at h
      split_ifs at h with hmatch hz
      · exact ih h
      · rw [Prod.mk.injEq, Option.some.injEq] at h
        rw [← h.2]
        exact hz
      · exact ih h

/-- A round that finds a zombie takes it and returns its pid; another one leaves all processes where
they are, if it returns at all. -/
theorem waitPid_cases (k : ProcFds) (pid : ℤ) (nohang : Bool) (window : ℕ → List ℕ) :
    (∃ t, k.zombieFor pid = some t ∧ (k.waitPid pid nohang window).2 = some (k.sys.proc.tab.task t).pid ∧
      ¬ SameProcesses k.sys.proc.tab (k.waitPid pid nohang window).1.sys.proc.tab) ∨
    k.zombieFor pid = none ∧ ∀ rc, (k.waitPid pid nohang window).2 = some rc →
      (rc = -1 ∨ rc = 0) ∧ (k.waitPid pid nohang window).1.sys.proc.tab = k.sys.proc.tab := by
  unfold waitPid zombieFor ProcSys.waitStep ProcSys.current waitRound
  dsimp only
  generalize hscan : waitScan k.sys.proc.tab (schedulerCurrentTask k.sys.proc.tab) (.pid pid) listFuel
    (k.sys.proc.tab.task (schedulerCurrentTask k.sys.proc.tab)).tree.firstChild false = out
  rcases out with ⟨found, _ | t⟩
  · right
    refine ⟨rfl, fun rc hrc => ?_⟩
    cases found with
    | false =>
      dsimp only at hrc ⊢
      rw [Option.some.injEq] at hrc
      exact ⟨.inl hrc.symm, rfl⟩
    | true =>
      cases nohang with
      | true =>
        dsimp only at hrc ⊢
        rw [if_pos rfl] at hrc ⊢
        rw [Option.some.injEq] at hrc
        exact ⟨.inr hrc.symm, rfl⟩
      | false =>
        dsimp only at hrc
        rw [if_neg (by simp)] at hrc
        simp at hrc
  · left
    refine ⟨t, rfl, rfl, fun hsame => ?_⟩
    have hzombie := waitScan_zombie hscan
    have hlive : Live k.sys.proc.tab t := by
      unfold Live
      rw [hzombie]
      simp
    exact (hsame.live t).mpr hlive (reap_freed k.sys.proc.tab t).self

theorem wait4_fails_clean (h : WellNumbered k.sys.proc.tab) (pid : ℤ) (status : UInt64)
    (options : BitVec 32) (window : ℕ → List ℕ) :
    (∀ e, (k.doSysWait4 pid status options window).2 = .error e →
      SameProcesses k.sys.proc.tab (k.doSysWait4 pid status options window).1.sys.proc.tab) ↔
    k.Wait4Ok pid status options := by
  unfold doSysWait4 ProcFds.Wait4Ok
  by_cases hopt : hasFlag options (~~~(linuxWnohang ||| linuxWuntraced ||| linuxWcontinued)) = true
  · rw [if_pos hopt]
    constructor
    · intro _ hopt'
      rw [hopt] at hopt'
      simp at hopt'
    · intro _ e _
      exact .refl _
  rw [if_neg hopt]
  rw [Bool.not_eq_true] at hopt
  have hcases := waitPid_cases k pid (hasFlag options linuxWnohang) window
  generalize k.waitPid pid (hasFlag options linuxWnohang) window = out at hcases ⊢
  obtain ⟨k', rc⟩ := out
  rcases hcases with ⟨t, hz, rfl, hnew⟩ | ⟨hz, hkept⟩
  · have hpid := h.pids t
    dsimp only
    rw [if_neg (by omega)]
    split_ifs with hfault
    · obtain ⟨hstatus, hpos, hbad⟩ := hfault
      constructor
      · intro hclean
        exact absurd (hclean .efault rfl) hnew
      · intro hok
        have hok := hok hopt hstatus t hz hpos
        rw [hok] at hbad
        simp at hbad
    constructor
    · intro _ _ hstatus t' hz' hpos
      rw [hz, Option.some.injEq] at hz'
      rw [← hz'] at hpos
      by_contra hbad
      exact hfault ⟨hstatus, hpos, by simpa using hbad⟩
    · intro _ e he
      simp at he
  · constructor
    · intro _ _ _ t ht
      rw [hz] at ht
      simp at ht
    · intro _ e he
      cases rc with
      | none => simp at he
      | some rc =>
        obtain ⟨hrc, htab⟩ := hkept rc rfl
        have hsame : SameProcesses k.sys.proc.tab k'.sys.proc.tab := by
          dsimp only at htab
          rw [htab]
          exact .refl _
        dsimp only
        split_ifs <;> exact hsame

theorem waitid_fails_clean (h : WellNumbered k.sys.proc.tab) (idtype : ℤ) (id info : UInt64)
    (options : BitVec 32) (window : ℕ → List ℕ) :
    (∀ e, (k.doSysWaitid idtype id info options window).2 = .error e →
      SameProcesses k.sys.proc.tab (k.doSysWaitid idtype id info options window).1.sys.proc.tab) ↔
    k.WaitidOk idtype id info options := by
  unfold doSysWaitid ProcFds.WaitidOk
  by_cases hexited : hasFlag options linuxWexited = true
  swap
  · rw [Bool.not_eq_true] at hexited
    rw [if_pos (by rw [hexited]; rfl)]
    constructor
    · intro _ hexited'
      rw [hexited] at hexited'
      simp at hexited'
    · intro _ e _
      exact .refl _
  rw [if_neg (by rw [hexited]; simp)]
  by_cases hnowait : hasFlag options linuxWnowait = true
  · rw [if_pos hnowait]
    constructor
    · intro _ _ hnowait'
      rw [hnowait] at hnowait'
      simp at hnowait'
    · intro _ e _
      exact .refl _
  rw [if_neg hnowait]
  rw [Bool.not_eq_true] at hnowait
  cases hwho : waitidPid idtype id with
  | none =>
    constructor
    · intro _ _ _ _ pid hpid
      simp at hpid
    · intro _ e _
      exact .refl _
  | some pid =>
    dsimp only
    have hcases := waitPid_cases k pid (hasFlag options linuxWnohang) window
    generalize k.waitPid pid (hasFlag options linuxWnohang) window = out at hcases ⊢
    obtain ⟨k', rc⟩ := out
    rcases hcases with ⟨t, hz, rfl, hnew⟩ | ⟨hz, hkept⟩
    · have hpid := h.pids t
      dsimp only
      rw [if_neg (by omega)]
      split_ifs with hfault
      · obtain ⟨hinfo, hbad⟩ := hfault
        constructor
        · intro hclean
          exact absurd (hclean .efault rfl) hnew
        · intro hok
          have hok := hok hexited hnowait hinfo pid rfl (by rw [hz]; simp)
          rw [hok] at hbad
          simp at hbad
      · constructor
        · intro _ _ _ hinfo pid' _ _
          by_contra hbad
          exact hfault ⟨hinfo, by simpa using hbad⟩
        · intro _ e he
          simp at he
    · constructor
      · intro _ _ _ _ pid' hpid' hz'
        rw [← Option.some.inj hpid'] at hz'
        exact absurd hz hz'
      · intro _ e he
        cases rc with
        | none => simp at he
        | some rc =>
          obtain ⟨hrc, htab⟩ := hkept rc rfl
          have hsame : SameProcesses k.sys.proc.tab k'.sys.proc.tab := by
            dsimp only at htab
            rw [htab]
            exact .refl _
          dsimp only
          split_ifs <;> exact hsame

end Wait

/-! ## Spawns -/

section Spawn

variable {s : TaskTable} {p c : TaskRef}

/-- Unlinking a task whose links lead to itself touches nobody else. -/
theorem unlink_self_tree (hprev : (s.task c).tree.siblingPrev = none ∧ (s.task c).tree.parent = some c ∨
      (s.task c).tree.siblingPrev = some c)
    (hnext : (s.task c).tree.siblingNext = none ∨ (s.task c).tree.siblingNext = some c) {u : TaskRef}
    (hu : u ≠ c) : ((taskChildUnlink s c).task u).tree = (s.task u).tree := by
  unfold taskChildUnlink
  rcases hprev with ⟨hprev, hpar⟩ | hprev <;> rcases hnext with hnext | hnext
  · simp [modifyTree_tree, hprev, hpar, hnext, hu]
  · simp [modifyTree_tree, hprev, hpar, hnext, hu]
  · simp [modifyTree_tree, hprev, hnext, hu]
  · simp [modifyTree_tree, hprev, hnext, hu]

/-- Linking a task without links as first child and unlinking it again: the old first child loses its
link to a previous sibling. -/
theorem link_unlink_tree (hc : (s.task c).tree = {}) {u : TaskRef} (hu : u ≠ c) :
    ((taskChildUnlink (taskChildLink s (some p) c) c).task u).tree =
      if p ≠ c ∧ (s.task p).tree.firstChild = some u then { (s.task u).tree with siblingPrev := none }
      else (s.task u).tree := by
  have hfree : ∀ v, ((taskChildUnlink s c).task v).tree = (s.task v).tree := by
    intro v
    rw [taskChildUnlink_tree (by rw [hc]; simp) (by rw [hc]; simp) (by rw [hc]; simp), hc]
    by_cases hv : v = c
    · simp [hv, hc]
    · simp [hv]
  by_cases hfirst : (s.task p).tree.firstChild = some c
  · -- The parent has a stale link to the record: the links of the child end up at itself.
    have hpc : p ≠ c := by
      intro he
      rw [he, hc] at hfirst
      simp at hfirst
    have hcp := Ne.symm hpc
    have hlink : ∀ v, ((taskChildLink s (some p) c).task v).tree =
        if v = c then { parent := some p, siblingPrev := some c, siblingNext := some c }
        else (s.task v).tree := by
      intro v
      unfold taskChildLink
      have hcu := hfree c
      rw [hc] at hcu
      have hpu := hfree p
      have hvu := hfree v
      generalize taskChildUnlink s c = s1 at hcu hpu hvu ⊢
      dsimp only
      refine Eq.trans (modify_proj _ _ _ _ Task.tree ?_) ?_
      · intro x
        rfl
      rw [← hpu] at hfirst
      by_cases hv : v = c
      · simp [modifyTree_tree, hv, hcp, hpc, hfirst, hcu]
      by_cases hvp : v = p
      · subst hvp
        simp only [modifyTree_tree, hv, hfirst, ← hvu, if_false, if_true]
        exact TreeLinks.ext rfl hfirst.symm rfl rfl
      · simp [modifyTree_tree, hv, hvp, hpc, hfirst, hvu]
    have hself := hlink c
    rw [if_pos rfl] at hself
    rw [unlink_self_tree (.inr (by rw [hself])) (.inr (by rw [hself])) hu, hlink, if_neg hu, hfirst,
      if_neg (by simp [Ne.symm hu])]
  have hlink := taskChildLink_some_tree (s := s) (c := c) p (by rw [hfree]; exact hfirst)
  simp only [hfree] at hlink
  generalize taskChildLink s (some p) c = s2 at hlink ⊢
  by_cases hpc : p = c
  · subst hpc
    have hself : (s2.task p).tree = { parent := some p, firstChild := some p } := by
      rw [hlink, hc]
      simp
    rw [unlink_self_tree (.inl (by rw [hself]; exact ⟨rfl, rfl⟩)) (.inl (by rw [hself])) hu, hlink, hc]
    simp [hu]
  have hcp := Ne.symm hpc
  have hself : (s2.task c).tree = { parent := some p, siblingNext := (s.task p).tree.firstChild } := by
    rw [hlink, hc]
    simp [hfirst, hcp]
  rw [taskChildUnlink_tree (by rw [hself]; simp) (by rw [hself]; exact hfirst)
    (by rw [hself]; simpa using hpc), hself, hlink]
  by_cases hup : u = p
  · subst hup
    by_cases hfu : (s.task u).tree.firstChild = some u
    · simp [hu, hfu]
    · simp [hu, hfu]
  by_cases hfu : (s.task p).tree.firstChild = some u
  · simp [hu, hup, hpc, hfu, Ne.symm hup]
  · simp [hu, hup, hfu, Ne.symm hup]

/-- What a spawn leaves behind that could not load its program. -/
theorem spawnTable_failed_task (s : TaskTable) (p c : TaskRef) (name : String) {u : TaskRef} (hu : u ≠ c) :
    let x := (spawnTable s p c name false).task u
    x.state = (s.task u).state ∧ x.pid = (s.task u).pid ∧ x.ppid = (s.task u).ppid ∧
      x.tree = if p ≠ c ∧ (s.task p).tree.firstChild = some u then { (s.task u).tree with siblingPrev := none }
        else (s.task u).tree := by
  have hother : ∀ v, v ≠ c → (spawnPrepare s p c name).task v = s.task v := fun v hv =>
    modify_task_ne s (fun _ => spawnFields (s.task p) s.nextPid name) hv
  have hself : ((spawnPrepare s p c name).task c).tree = {} := by
    show ((s.modify c fun _ => spawnFields (s.task p) s.nextPid name).task c).tree = _
    rw [modify_task_self]
    rfl
  unfold spawnTable taskRelease schedulerTaskSetUnused
  generalize spawnPrepare s p c name = s1 at hother hself ⊢
  have htree := link_unlink_tree (p := p) hself hu
  have hlink := TreeMoves.link s1 (some p) c
  have hppid := taskChildLink_ppid s1 c (some p) (u := u)
  have hunlink := TreeMoves.unlink (taskChildLink s1 (some p) c) c
  have hppid' := taskChildUnlink_ppid (taskChildLink s1 (some p) c) c u
  simp only [Bool.false_eq_true, if_false]
  have hsched := SchedMoves.setState .unused (fun _ => -1) (taskChildUnlink (taskChildLink s1 (some p) c) c) c
  rw [modify_task_ne _ _ hu, hsched.pid, hsched.ppid, hsched.tree, setState_state, if_neg fun h => hu h.1,
    hunlink.state, hlink.state, hunlink.pid, hlink.pid, hppid', hppid, if_neg hu, htree, hother u hu]
  refine ⟨rfl, rfl, rfl, ?_⟩
  by_cases hpc : p = c
  · simp [hpc]
  · rw [hother p hpc]

theorem spawnTable_failed (hfree : (s.task c).state = .unused) (name : String) :
    SameProcesses s (spawnTable s p c name false) ↔ (p ≠ c → ∀ f, (s.task p).tree.firstChild = some f →
      Live s f → (s.task f).tree.siblingPrev = none) := by
  have hwiped : ((spawnTable s p c name false).task c).state = .unused := by
    unfold spawnTable taskRelease
    simp only [Bool.false_eq_true, if_false]
    rw [modify_task_self]
  have hne : ∀ u, Live s u → u ≠ c := by
    rintro u hu rfl
    exact hu hfree
  constructor
  · intro hsame hp f hf hlive
    have htree := hsame.tree f hlive
    rw [(spawnTable_failed_task s p c name (hne f hlive)).2.2.2, if_pos ⟨hp, hf⟩] at htree
    rw [← htree]
  · intro hok
    have htask := fun u hu => spawnTable_failed_task s p c name (u := u) hu
    refine ⟨fun u => ?_, fun u => ?_, fun u hu => (htask u (hne u hu)).2.1,
      fun u hu => (htask u (hne u hu)).2.2.1, fun u hu => ?_⟩
    · by_cases hu : u = c
      · subst hu
        unfold Live
        rw [hwiped, hfree]
      · unfold Live
        rw [(htask u hu).1]
    · by_cases hu : u = c
      · subst hu
        rw [hwiped, hfree]
      · rw [(htask u hu).1]
    · rw [(htask u (hne u hu)).2.2.2]
      split_ifs with hf
      · exact TreeLinks.ext rfl rfl (hok hf.1 u hf.2 hu).symm rfl
      · rfl

/-- What `process_spawn_exec` comes to: nothing without a caller or a slot; a process if the program can be
loaded, and otherwise what is left of one. -/
theorem processSpawnExec_cases (L : KernelLayout) {s : ProcState} (h : WellNumbered s.tab) (name : String)
    (elf : UserMem → UserMem × Bool) :
    processSpawnExec L s name elf = (s, -1) ∧ (∀ p c, schedulerCurrentTask s.tab = .slot p → taskAlloc s.tab ≠ some c) ∨
    ∃ p c, schedulerCurrentTask s.tab = .slot p ∧ taskAlloc s.tab = some c ∧
      (if (elf (spawnMem L s p c)).2 = true then 0 < (processSpawnExec L s name elf).2
      else (processSpawnExec L s name elf).2 = -1 ∧
        (processSpawnExec L s name elf).1.tab = spawnTable s.tab (.slot p) (.slot c) name false) := by
  cases hcur : schedulerCurrentTask s.tab with
  | idle q =>
    left
    unfold processSpawnExec
    rw [hcur]
    exact ⟨rfl, fun p c hp => by simp at hp⟩
  | slot p =>
    cases halloc : taskAlloc s.tab with
    | none =>
      left
      unfold processSpawnExec
      rw [hcur, halloc]
      exact ⟨rfl, fun p c _ hc => by simp at hc⟩
    | some c =>
      refine .inr ⟨p, c, rfl, rfl, ?_⟩
      obtain ⟨b, hwho, -⟩ := (spawnTable_begets s.tab (.slot p) (.slot c) name true).child
      have hpid : ((spawnTable s.tab (.slot p) (.slot c) name true).task (.slot c)).pid = s.tab.nextPid :=
        congrArg (fun w => w.1) hwho
      have hnext := h.nextPid
      unfold processSpawnExec
      simp only [hcur, halloc]
      change if (elf (spawnMem L s p c)).2 = true then
        0 < (if (elf (spawnMem L s p c)).2 = true then
          ((spawnTable s.tab (.slot p) (.slot c) name (elf (spawnMem L s p c)).2).task (.slot c)).pid else -1)
        else (if (elf (spawnMem L s p c)).2 = true then
          ((spawnTable s.tab (.slot p) (.slot c) name (elf (spawnMem L s p c)).2).task (.slot c)).pid else -1) =
            -1 ∧ spawnTable s.tab (.slot p) (.slot c) name (elf (spawnMem L s p c)).2 = _
      generalize (elf (spawnMem L s p c)).2 = loaded
      cases loaded with
      | true =>
        rw [if_pos rfl, if_pos rfl, hpid]
        exact hnext
      | false =>
        rw [if_neg (by simp), if_neg (by simp)]
        exact ⟨rfl, rfl⟩

theorem spawn_fails_clean {L : KernelLayout} {k : ProcFds} (h : WellNumbered k.sys.proc.tab) (mem : Memory)
    (path argv : UInt64) (elf : UserMem → UserMem × Bool) :
    (∀ e, (k.doSysSpawn L mem path argv elf).2 = .error e →
      SameProcesses k.sys.proc.tab (k.doSysSpawn L mem path argv elf).1.sys.proc.tab) ↔
    k.SpawnOk L mem path argv elf := by
  unfold doSysSpawn ProcFds.SpawnOk ProcSys.current
  cases readKpath mem path with
  | error e =>
    constructor
    · intro _ kpath _ hk
      simp at hk
    · intro _ e' _
      exact .refl _
  | ok kpath =>
    cases scanArgs mem argv with
    | error e =>
      constructor
      · intro _ kpath' _ _ ha
        simp at ha
      · intro _ e' _
        exact .refl _
    | ok argc =>
      dsimp only
      rcases processSpawnExec_cases L h (nameOf (baseName kpath)) elf with
        ⟨heq, hnone⟩ | ⟨p, c, hcur, halloc, hload⟩
      · rw [heq]
        constructor
        · intro _ _ _ _ _ p c hp hc
          exact absurd hc (hnone p c hp)
        · intro _ e _
          exact .refl _
      have hfailed := spawnTable_failed (p := .slot p) (taskAlloc_some halloc).2 (nameOf (baseName kpath))
      split_ifs at hload with hbad
      · rw [if_neg (by omega)]
        constructor
        · intro _ _ _ _ _ p' c' hp hc hbad'
          rw [halloc, Option.some.injEq] at hc
          rw [hcur, TaskRef.slot.injEq] at hp
          rw [← hc, ← hp, hbad] at hbad'
          simp at hbad'
        · intro _ e he
          simp at he
      · rw [hload.2, hload.1, if_pos (by decide)]
        rw [Bool.not_eq_true] at hbad
        constructor
        · intro hclean _ _ _ _ p' c' hp hc _ hpc f hf hlive
          rw [hcur, TaskRef.slot.injEq] at hp
          rw [halloc, Option.some.injEq] at hc
          rw [← hp] at hf hpc
          rw [← hc] at hpc
          exact hfailed.mp (hclean .eperm rfl) (fun he => hpc (TaskRef.slot.inj he)) f hf hlive
        · intro hok e _
          refine hfailed.mpr fun hpc f hf hlive => ?_
          exact hok kpath argc rfl rfl p c hcur halloc hbad (fun he => hpc (congrArg _ he)) f hf hlive

end Spawn

/-! ## Execs -/

section Exec

variable {L : KernelLayout} {c : ExecSys}

/-- The caller right after it was given its new name, with the descriptors `fds` and other buffers. -/
theorem named_kept {name : String} {fds : FdState} {args envs : TaskRef → ArgBufs} :
    c.CallerKept ⟨⟨c.procs.sys.withTab (setName c.procs.sys.proc.tab name), fds⟩, args, envs⟩ ↔
      (args c.current = c.argbuf c.current ∧ envs c.current = c.envbuf c.current) ∧ c.SameName name ∧
        fds.fdsOf c.procs.pid = c.procs.fds.fdsOf c.procs.pid := by
  have htask : ((c.procs.sys.withTab (setName c.procs.sys.proc.tab name)).proc.tab.task c.current) =
      { c.procs.sys.proc.tab.task c.current with
        image := { (c.procs.sys.proc.tab.task c.current).image with name := name } } :=
    modify_task_self c.procs.sys.proc.tab c.current fun x => { x with image := { x.image with name := name } }
  constructor
  · intro h
    refine ⟨⟨h.argbuf, h.envbuf⟩, ?_, h.fds⟩
    have himage := h.image
    dsimp only at himage
    rw [htask] at himage
    exact (congrArg UserImage.name himage).symm
  · rintro ⟨⟨hargs, henvs⟩, hname, hfds⟩
    refine ⟨rfl, hfds, ?_, ?_, hargs, henvs⟩
    · dsimp only
      rw [htask]
      unfold ExecSys.SameName at hname
      rw [← hname]
    · dsimp only
      rw [htask]

/-- Only a caller without memory of its own is refused by `process_prepare_exec_current`. -/
theorem prepareExec_none (s : ProcState) : processPrepareExecCurrent L s = none ↔
    ¬ ∃ i : Fin procMaxTasks, schedulerCurrentTask s.tab = .slot i ∧ i.val < userAsMaxTasks := by
  unfold processPrepareExecCurrent
  cases hcur : schedulerCurrentTask s.tab with
  | idle q => simp
  | slot i =>
    dsimp only
    split_ifs with hi
    · simp only [true_iff, TaskRef.slot.injEq]
      rintro ⟨j, rfl, hj⟩
      omega
    · simp only [false_iff, not_not, TaskRef.slot.injEq]
      exact ⟨i, rfl, by omega⟩

theorem execNamed_fails_clean {c1 : ExecSys} (hprocs : c1.procs = c.procs) (name : String) (f : ExecFile)
    (window : ℕ → List ℕ) :
    (∀ e, (c1.execNamed L name f window).2 = .error e → c.CallerKept (c1.execNamed L name f window).1) ↔
    f.check = none ∧ c.HasImage ∨
      (c1.argbuf c.current = c.argbuf c.current ∧ c1.envbuf c.current = c.envbuf c.current) ∧
        c.SameName name ∧ (f.check = none → c.NoCloexec) := by
  obtain ⟨procs, args, envs⟩ := c1
  dsimp only at hprocs ⊢
  subst hprocs
  unfold ExecSys.execNamed execProcess
  dsimp only
  cases hcheck : f.check with
  | some e =>
    rw [if_neg (by simp)]
    dsimp only
    constructor
    · intro hclean
      have hkept := named_kept.mp (hclean e rfl)
      exact .inr ⟨hkept.1, hkept.2.1, fun h => by simp at h⟩
    · rintro (⟨h, -⟩ | ⟨hbufs, hname, -⟩) e' _
      · simp at h
      · exact named_kept.mpr ⟨hbufs, hname, rfl⟩
  | none =>
    rw [if_pos rfl]
    cases hprep : processPrepareExecCurrent L
        (c.procs.sys.withTab (setName c.procs.sys.proc.tab name)).proc with
    | none =>
      have himage : ¬ c.HasImage := by
        rintro ⟨i, hi⟩
        exact (prepareExec_none (L := L) _).mp hprep ⟨i, hi⟩
      have hentries := execCloseFds_fdsOf window c.procs.fds c.procs.pid
      dsimp only
      constructor
      · intro hclean
        obtain ⟨hbufs, hname, hfds⟩ := named_kept.mp (hclean .einval rfl)
        refine .inr ⟨hbufs, hname, fun _ i => ?_⟩
        have hentry := (hentries i).symm.trans (congrFun hfds i)
        exact execEntry_eq.mp hentry
      · rintro (⟨-, h⟩ | ⟨hbufs, hname, hcloexec⟩) e' _
        · exact absurd h himage
        · refine named_kept.mpr ⟨hbufs, hname, funext fun i => ?_⟩
          rw [← execEntry_eq.mpr (hcloexec rfl i)]
          exact hentries i
    | some proc =>
      have himage : c.HasImage := by
        by_contra h
        have hnone := (prepareExec_none (L := L) (c.procs.sys.withTab (setName c.procs.sys.proc.tab name)).proc).mpr h
        rw [hprep] at hnone
        simp at hnone
      dsimp only
      refine ⟨fun _ => .inl ⟨rfl, himage⟩, fun _ e he => ?_⟩
      exfalso
      revert he
      generalize (f.load proc.mem).2.bind _ = room
      cases room with
      | none => simp
      | some m => simp

theorem copyIn_procs (mem : Memory) (argv envp : UInt64) (argc envc : ℕ) :
    (c.copyIn mem argv envp argc envc).1.procs = c.procs := by
  unfold ExecSys.copyIn
  split <;> rfl

theorem execve_fails_clean (mem : Memory) (path argv envp : UInt64) (file : Bytes → ExecFile) (window : ℕ → List ℕ) :
    (∀ e, (c.doSysExecve L mem path argv envp file window).2 = .error e →
      c.CallerKept (c.doSysExecve L mem path argv envp file window).1) ↔ c.ExecveOk mem path argv envp file := by
  unfold ExecSys.doSysExecve ExecSys.ExecveOk
  have hself : c.CallerKept c := ⟨rfl, rfl, rfl, rfl, rfl, rfl⟩
  cases readExecArgs mem path argv envp with
  | error e =>
    constructor
    · intro _ _ _ _ hargs
      simp at hargs
    · intro _ _ _
      exact hself
  | ok args =>
    obtain ⟨kpath, argc, envc⟩ := args
    have hprocs := copyIn_procs (c := c) mem argv envp argc envc
    have hshape : (∀ kpath' argc' envc', (Except.ok (kpath, argc, envc) : Except Errno _) = .ok (kpath', argc', envc') →
        match (c.copyIn mem argv envp argc' envc').2 with
        | none => c.CopiesNothing mem argv envp argc' envc'
        | some n =>
          (file kpath').check = none ∧ c.HasImage ∨ c.CopiesNothing mem argv envp argc' envc' ∧
              c.SameName (execName kpath' n ((c.copyIn mem argv envp argc' envc').1.argbuf c.current 0)) ∧
              ((file kpath').check = none → c.NoCloexec)) ↔
        match (c.copyIn mem argv envp argc envc).2 with
        | none => c.CopiesNothing mem argv envp argc envc
        | some n =>
          (file kpath).check = none ∧ c.HasImage ∨ c.CopiesNothing mem argv envp argc envc ∧
              c.SameName (execName kpath n ((c.copyIn mem argv envp argc envc).1.argbuf c.current 0)) ∧
              ((file kpath).check = none → c.NoCloexec) := by
      constructor
      · intro h
        exact h kpath argc envc rfl
      · intro h kpath' argc' envc' heq
        rw [Except.ok.injEq, Prod.mk.injEq, Prod.mk.injEq] at heq
        rw [← heq.1, ← heq.2.1, ← heq.2.2]
        exact h
    rw [hshape]
    unfold ExecSys.CopiesNothing
    dsimp only
    generalize c.copyIn mem argv envp argc envc = out at hprocs ⊢
    obtain ⟨c1, _ | argc'⟩ := out
    · dsimp only at hprocs
      constructor
      · intro hclean
        have hkept := hclean .efault rfl
        exact ⟨hkept.argbuf, hkept.envbuf⟩
      · intro hbufs e _
        refine ⟨?_, ?_, ?_, ?_, hbufs.1, hbufs.2⟩ <;> rw [hprocs]
    · have hcur : c1.current = c.current := by
        unfold ExecSys.current
        dsimp only at hprocs
        rw [hprocs]
      dsimp only at hprocs ⊢
      rw [hcur]
      exact execNamed_fails_clean hprocs _ _ window

/-! ## Standard descriptors -/

theorem fdEnsureStdio_fdsOf {s : FdState} {pid : ℤ} {p : FdProcIdx} (hp : findProc s pid = some p) :
    (fdEnsureStdio s p).fdsOf pid = s.fdsOf pid ↔
      (∀ i : FdIdx, i.val ≤ 2 → (s.fdsOf pid i).used = true) ∨ (fileRefAlloc s).2 = 0 := by
  have hpid : (fdEnsureStdio s p).procPid = s.procPid := (fdEnsureStdio_frame (findProc_some hp)).2.1
  have hp' : findProc (fdEnsureStdio s p) pid = some p := by
    rw [← hp]
    unfold findProc
    rw [hpid]
  have hbefore : s.fdsOf pid = fun i => s.fds (p, i) := by
    unfold FdState.fdsOf
    rw [hp]
  have hafter : (fdEnsureStdio s p).fdsOf pid = fun i => (fdEnsureStdio s p).fds (p, i) := by
    unfold FdState.fdsOf
    rw [hp']
  have hthree : ∀ i : FdIdx, i ∈ ([0, 1, 2] : List FdIdx) ↔ i.val ≤ 2 := by
    intro i
    simp only [List.mem_cons, List.not_mem_nil, or_false, Fin.ext_iff]
    show i.val = 0 ∨ i.val = 1 ∨ i.val = 2 ↔ _
    omega
  rw [hbefore, hafter]
  rcases ensureStdio_cases p [0, 1, 2] s with ⟨hwhy, hsame⟩ | ⟨href, i, hi, hclosed, hopen⟩
  · constructor
    · intro _
      exact hwhy.imp_left fun hall i hi => hall i ((hthree i).mpr hi)
    · intro _
      unfold fdEnsureStdio
      rw [hsame]
  constructor
  · intro heq
    have hi' := congrArg FdEntry.used (congrFun heq i)
    unfold fdEnsureStdio at hi'
    rw [hopen, hclosed] at hi'
    simp at hi'
  · rintro (hall | h0)
    · have hi' := hall i ((hthree i).mp hi)
      rw [hclosed] at hi'
      simp at hi'
    · exact absurd h0 href

/-- `fd_proc_with_stdio` leaves the caller's descriptors alone exactly when the standard ones are open, or
cannot be opened. -/
theorem fdProcWithStdio_fdsOf : (fdProcWithStdio c.procs.fds c.procs.pid).1.fdsOf c.procs.pid =
    c.procs.fds.fdsOf c.procs.pid ↔ c.StdioThere := by
  unfold ExecSys.StdioThere
  generalize c.procs.fds = s
  generalize c.procs.pid = pid
  unfold fdProcWithStdio fdProcForPid
  cases hp : findProc s pid with
  | some p =>
    dsimp only
    rw [fdEnsureStdio_fdsOf hp]
    simp
  | none =>
    have hnone : s.fdsOf pid = fun _ => {} := by
      unfold FdState.fdsOf
      rw [hp]
    cases hq : findProc s 0 with
    | none => simp
    | some q =>
      -- The first free table becomes the caller's, with nothing in it.
      dsimp only
      have href : (fileRefAlloc (s.clearProc q pid)).2 = (fileRefAlloc s).2 := fileRefAlloc_congr _ _ rfl
      have hpid : (s.clearProc q pid).procPid q = pid := update_self _ _ _
      have hblank : ∀ i, (s.clearProc q pid).fds (q, i) = {} := fun i => if_pos rfl
      have hother : ∀ r, r ≠ q → (s.clearProc q pid).procPid r ≠ pid := fun r hr => by
        show update s.procPid q pid r ≠ pid
        rw [update_of_ne hr]
        exact findProc_none hp r
      generalize s.clearProc q pid = s1 at href hpid hblank hother ⊢
      have hfound : ∀ s2 : FdState, s2.procPid = s1.procPid → findProc s2 pid = some q := by
        intro s2 hs2
        cases hf : findProc s2 pid with
        | none => exact absurd (by rw [hs2]; exact hpid) (findProc_none hf q)
        | some r =>
          by_contra hr
          have hr' := findProc_some hf
          rw [hs2] at hr'
          exact hother r (fun he => hr (congrArg some he)) hr'
      have hprocs1 := (fdEnsureStdio_frame hpid).2.1
      have hpid1 : (fdEnsureStdio s1 q).procPid q = pid := by
        rw [hprocs1]
        exact hpid
      have hprocs2 := (fdEnsureStdio_frame hpid1).2.1
      have hafter : (fdEnsureStdio (fdEnsureStdio s1 q) q).fdsOf pid =
          fun i => (fdEnsureStdio (fdEnsureStdio s1 q) q).fds (q, i) := by
        unfold FdState.fdsOf
        rw [hfound _ (hprocs2.trans hprocs1)]
      rw [hafter, hnone]
      rcases ensureStdio_cases q [0, 1, 2] s1 with ⟨hwhy, hsame⟩ | ⟨hfree, i, hi, -, hopen⟩
      · have hsame : fdEnsureStdio s1 q = s1 := hsame
        have hzero : (fileRefAlloc s).2 = 0 := by
          rcases hwhy with hall | hzero
          · have h0 := hall 0 (by simp)
            rw [hblank] at h0
            simp at h0
          · rw [← href]
            exact hzero
        rw [hsame, hsame]
        exact ⟨fun _ => .inr (.inl hzero), fun _ => funext hblank⟩
      · have hopen : ((fdEnsureStdio (fdEnsureStdio s1 q) q).fds (q, i)).used = true :=
          ensureStdio_used q i [0, 1, 2] (fdEnsureStdio s1 q) true hopen
        constructor
        · intro heq
          have hi' := congrArg FdEntry.used (congrFun heq i)
          dsimp only at hi'
          rw [hopen] at hi'
          simp at hi'
        · rintro (hall | hzero | ⟨-, hno⟩)
          · have h0 := hall 0 (by decide)
            simp at h0
          · rw [href] at hfree
            exact absurd hzero hfree
          · simp at hno

theorem execveat_fails_clean (mem : Memory) (dirfd : ℤ) (path argv envp : UInt64) (flags : BitVec 32)
    (file : Bytes → ExecFile) (window : ℕ → List ℕ) :
    (∀ e, (c.doSysExecveat L mem dirfd path argv envp flags file window).2 = .error e →
      c.CallerKept (c.doSysExecveat L mem dirfd path argv envp flags file window).1) ↔
    c.ExecveatOk mem dirfd path argv envp flags file := by
  have hself : c.CallerKept c := ⟨rfl, rfl, rfl, rfl, rfl, rfl⟩
  unfold ExecSys.doSysExecveat ExecSys.ExecveatOk
  by_cases hflags : hasFlag flags (~~~(linuxAtEmptyPath ||| linuxAtSymlinkNofollow)) = true
  · rw [if_pos hflags]
    constructor
    · intro _ hflags'
      rw [hflags] at hflags'
      simp at hflags'
    · intro _ _ _
      exact hself
  rw [if_neg hflags]
  rw [Bool.not_eq_true] at hflags
  by_cases hpath : path = 0
  · rw [if_pos hpath]
    constructor
    · intro _ _ hpath'
      exact absurd hpath hpath'
    · intro _ _ _
      exact hself
  rw [if_neg hpath]
  generalize copyUserCstr mem (zeros 256) path = out
  obtain ⟨b, ok⟩ := out
  cases ok with
  | false =>
    constructor
    · intro _ _ _ b' hb
      simp at hb
    · intro _ _ _
      exact hself
  | true =>
    have hshape : (hasFlag flags (~~~(linuxAtEmptyPath ||| linuxAtSymlinkNofollow)) = false → path ≠ 0 →
        ∀ b', (b, true) = (b', true) → if hasFlag flags linuxAtEmptyPath ∧ rd8 b' 0 = 0 then c.StdioThere
          else dirfd = -100 ∨ rd8 b' 0 = 47 → c.ExecveOk mem path argv envp file) ↔
        if hasFlag flags linuxAtEmptyPath ∧ rd8 b 0 = 0 then c.StdioThere
        else dirfd = -100 ∨ rd8 b 0 = 47 → c.ExecveOk mem path argv envp file := by
      constructor
      · intro h
        exact h hflags hpath b rfl
      · intro h _ _ b' hb
        rw [← (Prod.mk.inj hb).1]
        exact h
    rw [hshape]
    dsimp only
    by_cases hempty : hasFlag flags linuxAtEmptyPath = true ∧ rd8 b 0 = 0
    · rw [if_pos hempty, if_pos hempty]
      have hstdio := fdProcWithStdio_fdsOf (c := c)
      generalize fdProcWithStdio c.procs.fds c.procs.pid = out at hstdio ⊢
      obtain ⟨fds, p⟩ := out
      dsimp only at hstdio ⊢
      generalize (p.bind fun p => (fdGet fds p dirfd).map fun i => fds.fds (p, i)) = found
      rw [← hstdio]
      constructor
      · intro hclean
        cases found with
        | none => exact (hclean _ rfl).fds
        | some e =>
          dsimp only at hclean
          split_ifs at hclean
          · exact (hclean _ rfl).fds
          · exact (hclean _ rfl).fds
      · intro hfds _ _
        exact ⟨rfl, hfds, rfl, rfl, rfl, rfl⟩
    · rw [if_neg hempty, if_neg hempty]
      by_cases hrel : dirfd ≠ -100 ∧ rd8 b 0 ≠ 47
      · rw [if_pos hrel]
        constructor
        · rintro _ (h | h)
          · exact absurd h hrel.1
          · exact absurd h hrel.2
        · intro _ _ _
          exact hself
      · rw [if_neg hrel, execve_fails_clean]
        have habs : dirfd = -100 ∨ rd8 b 0 = 47 := by tauto
        exact ⟨fun h _ => h, fun h => h habs⟩

end Exec

/-! ## Every call in every reachable state -/

/-- What can happen to processes, descriptors and argument buffers. -/
inductive ExecEvent
  | procs (e : ProcFdEvent)
  | call (pc : ProcCall)

namespace ExecSys

variable {L : KernelLayout} {c : ExecSys}

def boot (L : KernelLayout) : ExecSys := { procs := .boot L }

def step (L : KernelLayout) (c : ExecSys) : ExecEvent → ExecSys
  | .procs e => { c with procs := c.procs.step L e }
  | .call pc => if c.procs.sys.free then (c.call L pc).1 else c

theorem wellNumbered_doSysFork {k : ProcFds} (h : WellNumbered k.sys.proc.tab) (tf : TrapFrame)
    (cbs : FdIdx → List ℕ) : WellNumbered (k.doSysFork L tf cbs).sys.proc.tab := by
  have hfork := h.fork L (some tf)
  unfold doSysFork
  generalize processFork L k.sys.proc (some tf) = out at hfork ⊢
  obtain ⟨proc, child⟩ := out
  dsimp only at hfork ⊢
  split_ifs
  · exact WellNumbered.step hfork _
  · exact hfork

theorem wellNumbered_procs {k : ProcFds} (h : WellNumbered k.sys.proc.tab) (e : ProcFdEvent) :
    WellNumbered (k.step L e).sys.proc.tab := by
  have hkill : ∀ code, WellNumbered (k.killCurrentAndYield L code).proc.tab := fun code => (h.step _).step _
  cases e with
  | call cur call =>
    unfold ProcFds.step
    dsimp only
    split
    · split
      · exact h
      · exact hkill 127
      · exact h
    · exact h
  | transfer fd op interrupted =>
    unfold ProcFds.step
    dsimp only
    split <;> exact h
  | fork tf cbs =>
    unfold ProcFds.step
    dsimp only
    split
    · exact wellNumbered_doSysFork h tf cbs
    · exact h
  | exit code window =>
    unfold ProcFds.step
    dsimp only
    split
    · exact hkill code
    · exact h
  | fault code =>
    unfold ProcFds.step
    dsimp only
    split
    · exact hkill code
    · exact h
  | wait w nohang window => exact h.step _
  | resumeWait window => exact h.step _
  | other e =>
    unfold ProcFds.step
    dsimp only
    split
    · exact h.step e
    · exact h
  | acceptCb l => exact h

theorem wellNumbered_waitPid {k : ProcFds} (h : WellNumbered k.sys.proc.tab) (pid : ℤ) (nohang : Bool)
    (window : ℕ → List ℕ) : WellNumbered (k.waitPid pid nohang window).1.sys.proc.tab :=
  h.waitStep _ nohang

theorem wellNumbered_clone3 {k : ProcFds} (h : WellNumbered k.sys.proc.tab) (mem : Memory) (args size : UInt64)
    (tf : TrapFrame) (cbs : FdIdx → List ℕ) (window : ℕ → List ℕ) :
    WellNumbered (k.doSysClone3 L mem args size tf cbs window).1.sys.proc.tab := by
  have hfork := wellNumbered_doSysFork (L := L) h tf cbs
  unfold doSysClone3
  cases readCloneArgs mem args size with
  | error e => exact h
  | ok ca =>
    dsimp only
    split
    · exact hfork
    split
    · generalize allocSpecialFd _ _ _ _ _ = out
      obtain ⟨fds, _ | i⟩ := out
      · exact hfork
      · dsimp only
        split <;> exact hfork
    · exact hfork

theorem wellNumbered_execve (h : WellNumbered c.procs.sys.proc.tab) (mem : Memory) (path argv envp : UInt64)
    (file : Bytes → ExecFile) (window : ℕ → List ℕ) :
    WellNumbered (c.doSysExecve L mem path argv envp file window).1.procs.sys.proc.tab := by
  unfold doSysExecve
  cases readExecArgs mem path argv envp with
  | error e => exact h
  | ok args =>
    obtain ⟨kpath, argc, envc⟩ := args
    have hprocs := copyIn_procs (c := c) mem argv envp argc envc
    dsimp only
    generalize c.copyIn mem argv envp argc envc = out at hprocs ⊢
    obtain ⟨c1, _ | argc'⟩ := out
    · dsimp only at hprocs ⊢
      rw [hprocs]
      exact h
    · dsimp only at hprocs
      rw [← hprocs] at h
      exact h.same (execProcess_sameWho _ _)

theorem wellNumbered_call (h : WellNumbered c.procs.sys.proc.tab) (pc : ProcCall) :
    WellNumbered (c.call L pc).1.procs.sys.proc.tab := by
  cases pc with
  | clone3 mem args size tf cbs window => exact wellNumbered_clone3 h mem args size tf cbs window
  | wait4 pid status options window =>
    show WellNumbered (c.procs.doSysWait4 pid status options window).1.sys.proc.tab
    unfold doSysWait4
    split
    · exact h
    have hwait := wellNumbered_waitPid h pid (hasFlag options linuxWnohang) window
    generalize c.procs.waitPid pid (hasFlag options linuxWnohang) window = out at hwait ⊢
    obtain ⟨k, _ | rc⟩ := out
    · exact hwait
    · dsimp only
      split_ifs <;> exact hwait
  | waitid idtype id info options window =>
    show WellNumbered (c.procs.doSysWaitid idtype id info options window).1.sys.proc.tab
    unfold doSysWaitid
    split
    · exact h
    split
    · exact h
    cases waitidPid idtype id with
    | none => exact h
    | some pid =>
      have hwait := wellNumbered_waitPid h pid (hasFlag options linuxWnohang) window
      dsimp only
      generalize c.procs.waitPid pid (hasFlag options linuxWnohang) window = out at hwait ⊢
      obtain ⟨k, _ | rc⟩ := out
      · exact hwait
      · dsimp only
        split_ifs <;> exact hwait
  | spawn mem path argv elf =>
    show WellNumbered (c.procs.doSysSpawn L mem path argv elf).1.sys.proc.tab
    unfold doSysSpawn
    cases readKpath mem path with
    | error e => exact h
    | ok kpath =>
      cases scanArgs mem argv with
      | error e => exact h
      | ok argc => exact h.spawnExec L _ elf
  | execve mem path argv envp file window => exact wellNumbered_execve h mem path argv envp file window
  | execveat mem dirfd path argv envp flags file window =>
    show WellNumbered (c.doSysExecveat L mem dirfd path argv envp flags file window).1.procs.sys.proc.tab
    unfold doSysExecveat
    split
    · exact h
    split
    · exact h
    split
    · exact h
    split
    · exact h
    split
    · exact h
    · exact wellNumbered_execve h mem path argv envp file window

theorem wellNumbered_step (h : WellNumbered c.procs.sys.proc.tab) (e : ExecEvent) :
    WellNumbered (c.step L e).procs.sys.proc.tab := by
  cases e with
  | procs e => exact wellNumbered_procs h e
  | call pc =>
    unfold step
    dsimp only
    split
    · exact wellNumbered_call h pc
    · exact h

theorem wellNumbered_run (L : KernelLayout) (es : List ExecEvent) :
    WellNumbered (run (step L) (boot L) es).procs.sys.proc.tab := by
  have hstep : ∀ (c : ExecSys) (e : ExecEvent), WellNumbered c.procs.sys.proc.tab → True →
      WellNumbered (c.step L e).procs.sys.proc.tab := fun c e h _ => wellNumbered_step h e
  exact run_invariant (I := fun c : ExecSys => WellNumbered c.procs.sys.proc.tab) hstep (wellNumbered_boot L)
    (meets_of_forall (fun _ _ => trivial) _ es)

/-- In every reachable state, a process-control call that returns an error has had no effect exactly when
it meets its condition: `clone3` has done its forking by the time the pidfd fails, `wait4` and `waitid`
have reaped by the time the status cannot be copied out, `execve` has copied its arguments and renamed
the task by the time the file is looked at. -/
theorem process_calls_fail_clean (L : KernelLayout) (es : List ExecEvent) (pc : ProcCall) :
    (run (step L) (boot L) es).FailsClean L pc ↔ (run (step L) (boot L) es).CallOk L pc := by
  have h := wellNumbered_run L es
  generalize run (step L) (boot L) es = c at h ⊢
  cases pc with
  | clone3 mem args size tf cbs window => exact clone3_fails_clean h mem args size tf cbs window
  | wait4 pid status options window => exact wait4_fails_clean h pid status options window
  | waitid idtype id info options window => exact waitid_fails_clean h idtype id info options window
  | spawn mem path argv elf => exact spawn_fails_clean h mem path argv elf
  | execve mem path argv envp file window => exact execve_fails_clean mem path argv envp file window
  | execveat mem dirfd path argv envp flags file window =>
    unfold FailsClean CallOk
    simp only [ProcCall.isExec, if_true, call]
    exact execveat_fails_clean mem dirfd path argv envp flags file window

/-- The path `/x` at address 0x2000. -/
def shortPath : Memory := fun a => if a = 0x2000 then 47 else if a = 0x2001 then 120 else 0

def execNothing : ProcCall :=
  .execve shortPath 0x2000 0 0 (fun _ => { resolved := none, probe := false, load := fun m => (m, none) })
    fun _ => []

/-- It fails with `ENOENT`, and the task has a new name. -/
theorem failed_exec_renames : ¬ ∀ (L : KernelLayout) (es : List ExecEvent) (pc : ProcCall),
    (run (step L) (boot L) es).FailsClean L pc := by
  intro h
  have hkept := h { kernelEnd := 0x10000000 } [] execNothing .enoent (by decide)
  have himage := hkept.image
  have hname := congrArg UserImage.name himage
  revert hname
  decide

end ExecSys

end EdgeOS
