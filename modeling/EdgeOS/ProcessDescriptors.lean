import EdgeOS.ExitStatus
import EdgeOS.PipeSystem

namespace EdgeOS

open Lib TaskTable Function

/-!
Processes and their descriptors together. A process that exits by itself gives its descriptors
back first; one that is killed, or dies of a fault, keeps them until it is reaped.
-/

/-- A call on a pipe, up to where it returns or waits. A call that waits looks again when its
process next runs. -/
def PipeOp.perform (s : FdState) (pid fd : ℤ) (op : PipeOp) (interrupted : Bool) : FdState :=
  match op.enter s pid fd with
  | (s, .inl _) => s
  | (s, .inr c) =>
    let nonblock := hasFlag (s.fds c.slot).flags linuxONonblock
    let pipe := match c.op with
      | .read len b => (pipeRead (s.objs.pipes c.pipe) nonblock interrupted len b).1
      | .write data => (pipeWrite (s.objs.pipes c.pipe) nonblock interrupted data).1
    { s with objs := s.objs.setPipe c.pipe pipe }

structure ProcFds where
  sys : ProcSys
  fds : FdState := {}

/-- What can happen: a call of the running process on its descriptors, the events that touch
both layers, other events of the process layer, an accept callback. `exit` is `exit`,
`exit_group` and the delivery of a fatal signal; `fault` is a fatal exception in user mode. -/
inductive ProcFdEvent
  | call (cur : Caller) (c : FdCall)
  | transfer (fd : ℤ) (op : PipeOp) (interrupted : Bool)
  | fork (tf : TrapFrame) (cbs : FdIdx → List ℕ)
  | exit (code : ℤ) (window : ℕ → List ℕ)
  | fault (code : ℤ)
  | wait (w : WaitFor) (nohang : Bool) (window : ℕ → List ℕ)
  | resumeWait (window : ℕ → List ℕ)
  | other (e : ProcEvent)
  | acceptCb (l : ℕ)

/-- The events of the process layer that leave the descriptors alone. -/
def ProcEvent.fdFree : ProcEvent → Bool
  | .fork _ | .exitCurrent _ | .wait _ _ | .resumeWait => false
  | _ => true

namespace ProcFds

variable (L : KernelLayout) (k : ProcFds)

def pid : ℤ := (k.sys.proc.tab.task k.sys.current).pid

def killCurrentAndYield (code : ℤ) : ProcSys :=
  (k.sys.step L (.exitCurrent code)).step L .yield

/-- `do_sys_fork_compat`. -/
def doSysFork (tf : TrapFrame) (cbs : FdIdx → List ℕ) : ProcFds :=
  match processFork L k.sys.proc (some tf) with
  | (proc, child) =>
    if 0 < child then
      { sys := ({ k.sys with proc := proc }).step L (.setRunnable child)
        fds := fdCloneAfterFork k.fds k.pid child cbs }
    else { k with sys := { k.sys with proc := proc } }

def reapFds (e : ProcEvent) (window : ℕ → List ℕ) : FdState :=
  match k.sys.collects e with
  | some (pid, _) => fdProcRelease window k.fds pid
  | none => k.fds

def step : ProcFdEvent → ProcFds
  | .call cur c =>
    if k.sys.free ∧ cur.pid = k.pid then
      match c with
      | .release _ => k
      | .execve false window =>
        { sys := k.killCurrentAndYield L 127, fds := doSysExecve window k.fds cur.pid false }
      | c => { k with fds := c.apply k.fds cur }
    else k
  | .transfer fd op interrupted =>
    if k.sys.free then { k with fds := op.perform k.fds k.pid fd interrupted } else k
  | .fork tf cbs => if k.sys.free then k.doSysFork L tf cbs else k
  | .exit code window =>
    if k.sys.free then
      { sys := k.killCurrentAndYield L code, fds := fdProcRelease window k.fds k.pid }
    else k
  | .fault code => if k.sys.free then { k with sys := k.killCurrentAndYield L code } else k
  | .wait w nohang window =>
    { sys := k.sys.step L (.wait w nohang), fds := k.reapFds (.wait w nohang) window }
  | .resumeWait window => { sys := k.sys.step L .resumeWait, fds := k.reapFds .resumeWait window }
  | .other e => if e.fdFree then { k with sys := k.sys.step L e } else k
  | .acceptCb l => { k with fds := { k.fds with objs := edgeTcpAcceptCb k.fds.objs l } }

def boot : ProcFds := { sys := .boot L }

end ProcFds

def ProcEvent.ends (x : Task) : ProcEvent → Prop
  | .killPid pid _ => x.pid = pid ∧ x.pid ≠ 1
  | .killPgid pgid _ => (killPgidGroup pgid).kills x
  | .sendSignal pid sig => SignalKills sig x ∧ x.pid = pid
  | .sendSignalPgid pgid sig => (signalPgidGroup pgid sig).kills x
  | _ => False

def FdState.Bare (s : FdState) (pid : ℤ) : Prop :=
  ∀ p i, s.procPid p = pid → (s.fds (p, i)).used = false

namespace ProcFds

variable (k : ProcFds)

def Alive (pid : ℤ) : Prop :=
  ∃ i : Fin procMaxTasks, (k.sys.proc.tab.task (.slot i)).pid = pid ∧ (k.sys.proc.tab.task (.slot i)).state ≠ .unused ∧
    (k.sys.proc.tab.task (.slot i)).state ≠ .zombie

instance (pid : ℤ) : Decidable (k.Alive pid) :=
  inferInstanceAs (Decidable (∃ i : Fin procMaxTasks, (k.sys.proc.tab.task (.slot i)).pid = pid ∧
    (k.sys.proc.tab.task (.slot i)).state ≠ .unused ∧
    (k.sys.proc.tab.task (.slot i)).state ≠ .zombie))

def liveSlots : Holders :=
  fun kind i => ∑ x, if k.Alive (k.fds.procPid x.1) then (k.fds.fds x).key kind i else 0

/-- The dead own nothing: zombies have no descriptors, pipes and terminals count live holders
only, and a read from an empty pipe without live writers returns 0 at once. -/
structure DeadOwnNothing : Prop where
  zombies : ∀ i, (k.sys.proc.tab.task (.slot i)).state = .zombie → k.fds.Bare (k.sys.proc.tab.task (.slot i)).pid
  pipes : ∀ i, (k.fds.objs.pipes i).used = true → (k.fds.objs.pipes i).readers = k.liveSlots .pipeR i ∧
      (k.fds.objs.pipes i).writers = k.liveSlots .pipeW i
  ptys : ∀ i, (k.fds.objs.ptys i).used = true → (k.fds.objs.ptys i).refsMaster = k.liveSlots .ptyMaster i ∧
      (k.fds.objs.ptys i).refsSlave = k.liveSlots .ptySlave i
  eof : ∀ i, (k.fds.objs.pipes i).used = true → (k.fds.objs.pipes i).ring.count = 0 →
    k.liveSlots .pipeW i = 0 → ∀ nonblock interrupted len b,
      (pipeRead (k.fds.objs.pipes i) nonblock interrupted len b).2 = .ret (.ok [])

/-- Nobody dies holding descriptors in another way than by its own exit: whoever faults or is
killed holds none. Zombies make no calls, and a direct adoption is as in `treeStepOk`. -/
def Releases : ProcFdEvent → Prop
  | .call _ _ | .transfer _ _ _ | .fork _ _ =>
    (k.sys.proc.tab.task k.sys.current).state ≠ .zombie
  | .fault _ => k.pid = 1 ∨ k.fds.Bare k.pid
  | .other e => k.sys.treeStepOk e ∧
      ∀ i, e.ends (k.sys.proc.tab.task (.slot i)) → k.fds.Bare (k.sys.proc.tab.task (.slot i)).pid
  | _ => True

end ProcFds

/-! ## Transfers and releases -/

section Descriptors

variable {R : Prop} {N : ℤ} {F : Holders} {G : ℕ → ℕ} {s : FdState} {pid : ℤ}

theorem pipeRead_counts (p : Pipe) (nonblock interrupted : Bool) (len : ℕ) (b : Bounce) :
    (pipeRead p nonblock interrupted len b).1.readers = p.readers ∧
      (pipeRead p nonblock interrupted len b).1.writers = p.writers := by
  unfold pipeRead
  split
  · split
    · exact ⟨rfl, rfl⟩
    split
    · exact ⟨rfl, rfl⟩
    split <;> exact ⟨rfl, rfl⟩
  · exact ⟨rfl, rfl⟩

theorem pipeWrite_counts (p : Pipe) (nonblock interrupted : Bool) (data : List UInt8) :
    (pipeWrite p nonblock interrupted data).1.readers = p.readers ∧
      (pipeWrite p nonblock interrupted data).1.writers = p.writers := by
  unfold pipeWrite
  split
  · split
    · exact ⟨rfl, rfl⟩
    split
    · exact ⟨rfl, rfl⟩
    split <;> exact ⟨rfl, rfl⟩
  · exact ⟨rfl, rfl⟩

/-- A transfer sets up the caller's table and writes one ring. -/
theorem PipeOp.perform_cases (s : FdState) (pid fd : ℤ) (op : PipeOp) (interrupted : Bool) :
    ∃ s1, (s1 = s ∨ ∃ q, fdProcWithStdio s pid = (s1, q)) ∧
      (op.perform s pid fd interrupted = s1 ∨ ∃ j x, j < edgeMaxPipes ∧
        x.used = (s1.objs.pipes j).used ∧ x.readers = (s1.objs.pipes j).readers ∧
        x.writers = (s1.objs.pipes j).writers ∧
        op.perform s pid fd interrupted = { s1 with objs := s1.objs.setPipe j x }) := by
  unfold PipeOp.perform
  split
  · rename_i s1 r he
    exact ⟨s1, (PipeOp.enter_spec he).1, .inl rfl⟩
  rename_i s1 c he
  obtain ⟨htab, hidx⟩ := PipeOp.enter_spec he
  dsimp only
  generalize hasFlag (s1.fds c.slot).flags linuxONonblock = nonblock
  refine ⟨s1, htab, .inr ⟨c.pipe, _, hidx c rfl, ?_, ?_, ?_, rfl⟩⟩
  all_goals split
  · exact pipeRead_used _ _ _ _ _
  · exact pipeWrite_used _ _ _ _
  · exact (pipeRead_counts _ _ _ _ _).1
  · exact (pipeWrite_counts _ _ _ _).1
  · exact (pipeRead_counts _ _ _ _ _).2
  · exact (pipeWrite_counts _ _ _ _).2

theorem FdInv.perform (h : FdInv R N F G s) (hpos : 0 < pid) (hN : pid < N) (fd : ℤ) (op : PipeOp)
    (interrupted : Bool) : FdInv R N F G (op.perform s pid fd interrupted) := by
  obtain ⟨s1, htab, hres⟩ := op.perform_cases s pid fd interrupted
  have h1 : FdInv R N F G s1 := by
    rcases htab with rfl | ⟨q, hq⟩
    · exact h
    · exact (h.fdProcWithStdio hpos hN hq).1
  rcases hres with heq | ⟨j, x, hj, hu, hr, hw, heq⟩
  · rw [heq]
    exact h1
  rw [heq]
  refine ⟨h1.objs.setPipe hj ?_ fun _ _ _ => rfl, h1.files, h1.formed, h1.owned, h1.known⟩
  have hx := (h1.objs.pipes j).1
  unfold Pipe.Holds at hx ⊢
  rw [hu, hr, hw]
  exact hx

theorem PipeOp.perform_others (fd : ℤ) (op : PipeOp) (interrupted : Bool) :
    s.Others pid (op.perform s pid fd interrupted) := by
  obtain ⟨s1, htab, hres⟩ := op.perform_cases s pid fd interrupted
  have h1 : s.Others pid s1 := by
    rcases htab with rfl | ⟨q, hq⟩
    · exact .of_fds rfl rfl
    · exact (fdProcWithStdio_frame hq).1.others
  rcases hres with heq | ⟨j, x, -, -, -, -, heq⟩
  · rw [heq]
    exact h1
  · rw [heq]
    exact h1.trans (.of_fds rfl rfl)

theorem FdState.OneTable.release (h : s.OneTable) (window : ℕ → List ℕ) (h0 : pid ≠ 0) :
    (fdProcRelease window s pid).Bare pid := by
  intro q i hq
  exfalso
  revert hq
  unfold fdProcRelease
  generalize List.finRange edgeMaxFd = l
  split
  · rename_i hf
    exact findProc_none hf q
  rename_i p hp
  have hp := findProc_some hp
  have hkeep := (CallFrame.closeUsed window l hp).2
  intro hq
  by_cases hqp : q = p
  · rw [hqp] at hq
    exact h0 (hq.symm.trans (update_self _ _ _))
  have hold : s.procPid q = pid := by
    rw [← congrFun hkeep q, ← hq]
    exact (update_of_ne hqp _ _).symm
  exact hqp (h q p (hold.trans hp.symm) (by rw [hold]; exact h0))

end Descriptors

/-! ## The invariant -/

namespace ProcFds

/-- The process tree and the accounting, and every descriptor belongs to a live process. -/
structure LiveOwners (k : ProcFds) : Prop where
  sys : k.sys.TreeKept
  acc : ∃ G, FdInv False k.sys.proc.tab.nextPid 0 G k.fds
  one : k.fds.OneTable
  held : ∀ x, (k.fds.fds x).used = true → k.Alive (k.fds.procPid x.1)

variable {L : KernelLayout} {k k' : ProcFds} {pid : ℤ}

/-- A step that touches the table of one process. Others that do not survive it hold nothing. -/
theorem LiveOwners.of_others (h : k.LiveOwners) (hsys : k'.sys.TreeKept)
    (hacc : ∃ G, FdInv False k'.sys.proc.tab.nextPid 0 G k'.fds) (ho : k.fds.Others pid k'.fds)
    (hself : k'.Alive pid ∨ k'.fds.Bare pid)
    (halive : ∀ q, q ≠ pid → k.Alive q → k'.Alive q ∨ k.fds.Bare q) : k'.LiveOwners := by
  refine ⟨hsys, hacc, ho.oneTable h.one, ?_⟩
  rintro ⟨p, i⟩ hu
  dsimp only
  by_cases hp : k'.fds.procPid p = pid
  · rcases hself with hl | hb
    · rw [hp]
      exact hl
    · exact absurd hu (by simp [hb p i hp])
  have h0 : k'.fds.procPid p ≠ 0 := by
    intro h0
    obtain ⟨G, hG⟩ := hacc
    exact absurd hu (by simp [hG.owned (p, i) h0])
  obtain ⟨hpid, hfds⟩ := ho.kept p hp h0
  rw [hfds i] at hu
  rw [hpid] at hp ⊢
  rcases halive _ hp (h.held (p, i) hu) with hl | hb
  · exact hl
  · exact absurd hu (by simp [hb p i rfl])

theorem LiveOwners.of_sys (h : k.LiveOwners) {σ : ProcSys} (hsys : σ.TreeKept) (hnext : k.sys.proc.tab.nextPid ≤ σ.proc.tab.nextPid)
    (halive : ∀ q, k.Alive q → ({ k with sys := σ } : ProcFds).Alive q ∨ k.fds.Bare q) :
    ({ k with sys := σ } : ProcFds).LiveOwners := by
  obtain ⟨G, hG⟩ := h.acc
  have ho : k.fds.Others 0 k.fds := .of_fds rfl rfl
  refine h.of_others hsys ⟨G, hG.mono hnext⟩ ho (.inr ?_) fun q _ => halive q
  intro p i hp
  exact hG.owned (p, i) hp

theorem LiveOwners.pid_bounds (h : k.LiveOwners) (hcur : IsSlot k.sys.current) : 0 < k.pid ∧ k.pid < k.sys.proc.tab.nextPid := by
  obtain ⟨i, hi⟩ := hcur
  have hl := h.sys.tree.1.current
  have hb := h.sys.tree.1.pids i
  rw [← hi] at hb
  exact hb hl

theorem LiveOwners.alive_current (h : k.LiveOwners) (hcur : IsSlot k.sys.current)
    (hz : (k.sys.proc.tab.task k.sys.current).state ≠ .zombie) : k.Alive k.pid := by
  obtain ⟨i, hi⟩ := hcur
  refine ⟨i, ?_, ?_, ?_⟩ <;> rw [← hi]
  · rfl
  · exact h.sys.tree.1.current
  · exact hz

/-- Whoever is alive survives, unless the step ends its task. -/
theorem alive_of_ends {P : Task → Prop} (h : Ends P k.sys.proc.tab k'.sys.proc.tab)
    (hP : ∀ i, P (k.sys.proc.tab.task (.slot i)) → k.fds.Bare (k.sys.proc.tab.task (.slot i)).pid)
    {q : ℤ} (hq : k.Alive q) : k'.Alive q ∨ k.fds.Bare q := by
  obtain ⟨i, rfl, hu, hz⟩ := hq
  by_cases hz' : (k'.sys.proc.tab.task (.slot i)).state = .zombie
  · rcases h.zombie _ hz' with hold | hp
    · exact absurd hold hz
    · exact .inr (hP i hp)
  · exact .inl ⟨i, h.pid _, fun hf => hu ((h.unused _).mp hf), hz'⟩

theorem alive_of_births (h : Births k.sys.proc.tab k'.sys.proc.tab) {q : ℤ} (hq : k.Alive q) : k'.Alive q := by
  obtain ⟨i, rfl, hu, hz⟩ := hq
  obtain ⟨⟨j, hfree, hother, -⟩, -⟩ := h
  have hne : TaskRef.slot i ≠ .slot j := by
    intro hij
    exact hu (hij ▸ hfree)
  have hl := hother _ hne
  exact ⟨i, Task.life_pid hl, fun hf => hu ((Task.life_unused hl).mp hf), fun hf => hz ((Task.life_zombie hl).mp hf)⟩

theorem alive_of_freed {t : TaskRef} (h : Freed t k.sys.proc.tab k'.sys.proc.tab)
    (ht : (k.sys.proc.tab.task t).state = .zombie) {q : ℤ} (hq : k.Alive q) : k'.Alive q := by
  obtain ⟨i, rfl, hu, hz⟩ := hq
  have hne : TaskRef.slot i ≠ t := by
    rintro rfl
    exact hz ht
  have hl := h.other _ hne
  exact ⟨i, Task.life_pid hl, fun hf => hu ((Task.life_unused hl).mp hf), fun hf => hz ((Task.life_zombie hl).mp hf)⟩

/-! ## Steps -/

theorem LiveOwners.killCurrentAndYield (h : k.LiveOwners) (hfree : k.sys.free = true) (code : ℤ) :
    (k.killCurrentAndYield L code).TreeKept ∧ Ends (fun x => x.pid = k.pid ∧ x.pid ≠ 1) k.sys.proc.tab
        (k.killCurrentAndYield L code).proc.tab := by
  obtain ⟨i, hi, -⟩ := ProcSys.free_slot hfree
  have h1 : (k.sys.step L (.exitCurrent code)).TreeKept := h.sys.step _ trivial
  have htab : (k.sys.step L (.exitCurrent code)).proc.tab = processExitCurrent k.sys.proc.tab code := by
    unfold ProcSys.step
    dsimp only
    rw [if_pos hfree]
    rfl
  have he := exitCurrent_ends h.sys.tree ⟨i, hi⟩ code
  rw [← htab] at he
  exact ⟨h1.step _ trivial, he.trans h1.tree.yield_unharmed.ends fun u hu => by
    rw [he.pid u] at hu
    exact hu⟩

theorem LiveOwners.exit (h : k.LiveOwners) (hfree : k.sys.free = true) (code : ℤ) {fds' : FdState}
    (hacc : ∃ G, FdInv False k.sys.proc.tab.nextPid 0 G fds') (ho : k.fds.Others k.pid fds')
    (hb : fds'.Bare k.pid) :
    ({ sys := k.killCurrentAndYield L code, fds := fds' } : ProcFds).LiveOwners := by
  obtain ⟨h1, he⟩ := h.killCurrentAndYield (L := L) hfree code
  refine h.of_others h1 ?_ ho (.inr hb) fun q hq hl => ?_
  · rw [he.nextPid]
    exact hacc
  · obtain ⟨i, rfl, hu, hz⟩ := hl
    refine .inl ⟨i, he.pid _, fun hf => hu ((he.unused _).mp hf), fun hf => ?_⟩
    rcases he.zombie _ hf with hold | ⟨hp, -⟩
    · exact hz hold
    · exact hq hp

theorem LiveOwners.fault (h : k.LiveOwners) (hfree : k.sys.free = true) (code : ℤ) (hok : k.pid = 1 ∨ k.fds.Bare k.pid) :
    ({ k with sys := k.killCurrentAndYield L code } : ProcFds).LiveOwners := by
  obtain ⟨h1, he⟩ := h.killCurrentAndYield (L := L) hfree code
  refine h.of_sys h1 he.nextPid.ge fun q => alive_of_ends he fun i hi => ?_
  rcases hok with hone | hb
  · exact absurd (hi.1.trans hone) hi.2
  · rw [hi.1]
    exact hb

theorem LiveOwners.own (h : k.LiveOwners) (hcur : IsSlot k.sys.current)
    (hz : (k.sys.proc.tab.task k.sys.current).state ≠ .zombie) {fds' : FdState}
    (hacc : ∃ G, FdInv False k.sys.proc.tab.nextPid 0 G fds') (ho : k.fds.Others k.pid fds') :
    ({ k with fds := fds' } : ProcFds).LiveOwners :=
  h.of_others h.sys hacc ho (.inl (h.alive_current hcur hz)) fun _ _ hl => .inl hl

theorem LiveOwners.call (h : k.LiveOwners) (cur : Caller) (c : FdCall)
    (hz : (k.sys.proc.tab.task k.sys.current).state ≠ .zombie) : (k.step L (.call cur c)).LiveOwners := by
  unfold step
  dsimp only
  split_ifs with hif
  swap
  · exact h
  obtain ⟨hfree, hpid⟩ := hif
  obtain ⟨i, hi, -⟩ := ProcSys.free_slot hfree
  obtain ⟨hpos, hN⟩ := h.pid_bounds ⟨i, hi⟩
  have hpos' : 0 < cur.pid := by omega
  have hN' : cur.pid < k.sys.proc.tab.nextPid := by omega
  have hcall : ∀ c : FdCall, ∃ G, FdInv False k.sys.proc.tab.nextPid 0 G (c.apply k.fds cur) := by
    intro c
    obtain ⟨G, hG⟩ := h.acc
    obtain ⟨G', hG', -⟩ := hG.call hpos' hN' c fun hf => hf.elim
    exact ⟨G', hG'⟩
  have ho : ∀ c : FdCall, k.fds.Others k.pid (c.apply k.fds cur) :=
    fun c => hpid ▸ (FdCall.frame k.fds cur c).2.1
  split
  · exact h
  · rename_i window
    refine h.exit hfree 127 (hcall (.execve false window)) (ho (.execve false window)) ?_
    -- A failing execve closes what is marked, then releases the rest.
    have hone : (execCloseFds window k.fds cur.pid).OneTable :=
      (CallFrame.execCloseFds window).others.oneTable h.one
    have h0 : cur.pid ≠ 0 := by omega
    rw [← hpid]
    exact hone.release window h0
  · exact h.own ⟨i, hi⟩ hz (hcall _) (ho _)

theorem LiveOwners.transfer (h : k.LiveOwners) (fd : ℤ) (op : PipeOp) (interrupted : Bool)
    (hz : (k.sys.proc.tab.task k.sys.current).state ≠ .zombie) :
    (k.step L (.transfer fd op interrupted)).LiveOwners := by
  unfold step
  dsimp only
  split_ifs with hfree
  · obtain ⟨i, hi, -⟩ := ProcSys.free_slot hfree
    obtain ⟨hpos, hN⟩ := h.pid_bounds ⟨i, hi⟩
    obtain ⟨G, hG⟩ := h.acc
    exact h.own ⟨i, hi⟩ hz ⟨G, hG.perform hpos hN fd op interrupted⟩
      (op.perform_others fd interrupted)
  · exact h

theorem LiveOwners.doSysFork (h : k.LiveOwners) (tf : TrapFrame) (cbs : FdIdx → List ℕ)
    (hz : (k.sys.proc.tab.task k.sys.current).state ≠ .zombie) :
    (k.doSysFork L tf cbs).LiveOwners := by
  have hfork : TreeInv (processFork L k.sys.proc (some tf)).1.tab := h.sys.fork hz (some tf)
  have hcases := processFork_births (L := L) h.sys.tree (some tf)
  unfold ProcFds.doSysFork
  split
  rename_i proc child hp
  rw [hp] at hfork hcases
  rcases hcases with hnone | ⟨hb, hpid, i, hchild, hu, hzc⟩
  · obtain ⟨rfl, rfl⟩ := Prod.mk.inj hnone
    rw [if_neg (by omega)]
    exact h
  dsimp only at hb hpid hchild hu hzc hfork
  have hN := h.sys.tree.1.nextPid
  obtain ⟨G, hG⟩ := h.acc
  obtain ⟨G', hG', -⟩ := hG.fdCloneAfterFork (by omega) k.pid cbs
  have hnew : ({ k.sys with proc := proc } : ProcSys).TreeKept := ⟨hfork, h.sys.waiters⟩
  have hr := setRunnable_ends (P := fun _ => False) proc.tab child
  have hkeep : ∀ q, ({ k with sys := { k.sys with proc := proc } } : ProcFds).Alive q →
      ({ sys := ({ k.sys with proc := proc } : ProcSys).step L (.setRunnable child)
         fds := fdCloneAfterFork k.fds k.pid child cbs } : ProcFds).Alive q := by
    rintro q ⟨j, rfl, hju, hjz⟩
    refine ⟨j, hr.pid _, fun hf => hju ((hr.unused _).mp hf), fun hf => hjz ?_⟩
    exact (hr.zombie _ hf).resolve_right id
  rw [if_pos (by omega)]
  subst hpid
  refine h.of_others (hnew.step (L := L) (.setRunnable _) trivial) ⟨G', ?_⟩
    (CallFrame.fdCloneAfterFork k.pid cbs).others (.inl ?_) fun q _ hq => .inl ?_
  · have hnext : (processSetRunnable proc.tab k.sys.proc.tab.nextPid).nextPid =
        k.sys.proc.tab.nextPid + 1 := hr.nextPid.trans hb.nextPid
    exact hnext ▸ hG'
  · exact hkeep _ ⟨i, hchild, hu, hzc⟩
  · exact hkeep q (alive_of_births hb hq)

/-- A round of a wait loop, with the release of the child it reaps. -/
theorem LiveOwners.waitStep (h : k.LiveOwners) (hcur : IsSlot k.sys.current) (w : WaitFor) (nohang : Bool)
    {e : ProcEvent} (window : ℕ → List ℕ)
    (hc : k.sys.collects e = (waitRound k.sys.proc.tab k.sys.current w nohang).2.1.reapedPid) :
    ({ sys := k.sys.waitStep w nohang, fds := k.reapFds e window } : ProcFds).LiveOwners := by
  have hsys : (k.sys.waitStep w nohang).TreeKept := h.sys.waitStep hcur w nohang
  have htab : (k.sys.waitStep w nohang).proc.tab = (waitRound k.sys.proc.tab k.sys.current w nohang).1 := rfl
  unfold reapFds
  rcases waitRound_cases h.sys.tree hcur w nohang with ⟨t, hp, hz, heq⟩ | ⟨hu, hno⟩
  · have heq' : waitRound k.sys.proc.tab k.sys.current w nohang = _ := heq
    rw [heq'] at hc htab
    rw [hc]
    obtain ⟨i, rfl⟩ : IsSlot t := (h.sys.tree.1.linked t _ hp).1
    have hfreed : Freed (.slot i) k.sys.proc.tab (k.sys.waitStep w nohang).proc.tab := by
      rw [htab]
      exact reap_freed _ _
    have hpos : (k.sys.proc.tab.task (.slot i)).pid ≠ 0 := by
      have hl : Live k.sys.proc.tab (.slot i) := by
        unfold Live
        rw [hz]
        simp
      have := (h.sys.tree.1.pids i hl).1
      omega
    obtain ⟨G, hG⟩ := h.acc
    refine h.of_others hsys ⟨G, ?_⟩ (CallFrame.fdProcRelease window).others
      (.inr (h.one.release window hpos)) fun q _ hq => .inl (alive_of_freed hfreed hz hq)
    rw [hfreed.nextPid]
    exact hG.fdProcRelease (by have := h.sys.tree.1.nextPid; omega) fun hf => hf.elim
  · have hnone : k.sys.collects e = none := hc.trans (WaitResult.reapedPid_none hno)
    rw [hnone]
    have hends : Ends (fun _ => False) k.sys.proc.tab (k.sys.waitStep w nohang).proc.tab :=
      hu.ends
    exact h.of_sys hsys hends.nextPid.ge fun q => alive_of_ends hends fun _ hf => hf.elim

theorem LiveOwners.other (h : k.LiveOwners) {e : ProcEvent} (hfree : e.fdFree = true)
    (hok : k.Releases (.other e)) : ({ k with sys := k.sys.step L e } : ProcFds).LiveOwners := by
  obtain ⟨htree, hbare⟩ := hok
  have hsys : (k.sys.step L e).TreeKept := h.sys.step e htree
  -- Every event but a birth is described by the tasks it ends.
  have hends : Ends (fun x => e.ends x) k.sys.proc.tab (k.sys.step L e).proc.tab →
      ({ k with sys := k.sys.step L e } : ProcFds).LiveOwners := by
    intro he
    exact h.of_sys hsys he.nextPid.ge fun q => alive_of_ends he hbare
  have hsame : k.sys.step L e = k.sys → ({ k with sys := k.sys.step L e } : ProcFds).LiveOwners := by
    intro heq
    rw [heq]
    exact h
  cases e with
  | fork _ | exitCurrent _ | wait _ _ | resumeWait => simp [ProcEvent.fdFree] at hfree
  | spawnExec name elf =>
    by_cases hf : k.sys.free = true
    · have hstep : k.sys.step L (.spawnExec name elf) =
          { k.sys with proc := (processSpawnExec L k.sys.proc name elf).1 } := if_pos hf
      rw [hstep] at hsys hends ⊢
      rcases processSpawnExec_births (L := L) h.sys.tree name elf with heq | hb
      · apply hends
        rw [heq]
        exact (Unharmed.refl _).ends
      · refine h.of_sys hsys ?_ fun q hq => .inl (alive_of_births hb hq)
        exact hb.nextPid.ge.trans' (by omega)
    · exact hsame (if_neg hf)
  | killPid pid code => exact hends (killPid_ends h.sys.tree pid code)
  | killPgid pgid code => exact hends (killPgid_ends h.sys.tree pgid code)
  | sendSignal pid sig => exact hends (sendSignal_ends h.sys.tree pid sig)
  | sendSignalPgid pgid sig => exact hends (sendSignalPgid_ends h.sys.tree pgid sig)
  | adoptOrphans fromPpid toPpid =>
    exact hends (processAdoptOrphans_moves _ fromPpid toPpid).unharmed.ends
  | setRunnable pid => exact hends (setRunnable_ends _ pid)
  | sigaction sig handler =>
    by_cases hf : k.sys.free = true
    · refine hends ?_
      simp only [ProcSys.step, if_pos hf]
      exact (rtSigaction_unharmed _ sig handler).ends
    · exact hsame (if_neg hf)
  | setpgid pid pgid =>
    by_cases hf : k.sys.free = true
    · refine hends ?_
      simp only [ProcSys.step, if_pos hf]
      exact (setpgid_unharmed _ pid pgid).ends
    · exact hsame (if_neg hf)
  | setsid =>
    by_cases hf : k.sys.free = true
    · refine hends ?_
      simp only [ProcSys.step, if_pos hf]
      exact (setsid_unharmed _).ends
    · exact hsame (if_neg hf)
  | yield => exact hends h.sys.tree.yield_unharmed.ends

theorem LiveOwners.step (h : k.LiveOwners) (e : ProcFdEvent) (hok : k.Releases e) : (k.step L e).LiveOwners := by
  cases e with
  | call cur c => exact h.call cur c hok
  | transfer fd op interrupted => exact h.transfer fd op interrupted hok
  | fork tf cbs =>
    unfold ProcFds.step
    dsimp only
    split_ifs
    · exact h.doSysFork tf cbs hok
    · exact h
  | exit code window =>
    unfold ProcFds.step
    dsimp only
    split_ifs with hfree
    · obtain ⟨i, hi, -⟩ := ProcSys.free_slot hfree
      obtain ⟨hpos, hN⟩ := h.pid_bounds ⟨i, hi⟩
      obtain ⟨G, hG⟩ := h.acc
      exact h.exit hfree code ⟨G, hG.fdProcRelease (by omega) fun hf => hf.elim⟩
        (CallFrame.fdProcRelease window).others (h.one.release window (by omega))
    · exact h
  | fault code =>
    unfold ProcFds.step
    dsimp only
    split_ifs with hfree
    · exact h.fault hfree code hok
    · exact h
  | wait w nohang window =>
    by_cases hfree : k.sys.free = true
    · obtain ⟨i, hi, -⟩ := ProcSys.free_slot hfree
      have hstep : k.sys.step L (.wait w nohang) = k.sys.waitStep w nohang := if_pos hfree
      unfold ProcFds.step
      dsimp only
      rw [hstep]
      exact h.waitStep ⟨i, hi⟩ w nohang window (if_pos hfree)
    have hstep : k.step L (.wait w nohang window) = k := by
      have hc : k.sys.collects (.wait w nohang) = none := if_neg hfree
      have hs : k.sys.step L (.wait w nohang) = k.sys := if_neg hfree
      simp only [ProcFds.step, reapFds, hc, hs]
    rw [hstep]
    exact h
  | resumeWait window =>
    rcases hw : k.sys.waiting k.sys.current with _ | w
    · simp only [ProcFds.step, reapFds, ProcSys.collects, ProcSys.step, hw]
      exact h
    have hstep : k.sys.step L .resumeWait = k.sys.waitStep w false := by
      simp only [ProcSys.step, hw]
    unfold ProcFds.step
    dsimp only
    rw [hstep]
    refine h.waitStep (h.sys.waiters _ _ hw) w false window ?_
    simp only [ProcSys.collects, hw]
  | other e =>
    unfold ProcFds.step
    dsimp only
    split_ifs with hfree
    · exact h.other hfree hok
    · exact h
  | acceptCb l =>
    obtain ⟨G, hG⟩ := h.acc
    have ho : k.fds.Others 0 { k.fds with objs := edgeTcpAcceptCb k.fds.objs l } :=
      .of_fds rfl rfl
    refine h.of_others h.sys ⟨G, hG.acceptCbs [l]⟩ ho (.inr ?_) fun _ _ hl => .inl hl
    intro p i hp
    exact hG.owned (p, i) hp

theorem boot_inv : (boot L).LiveOwners where
  sys := ProcSys.boot_inv
  acc := ⟨0, fdInv_boot⟩
  one := fun p q _ h0 => absurd rfl h0
  held := fun x hu => by simp [boot] at hu

end ProcFds

/-! ## Runs -/

namespace ProcFds

variable {L : KernelLayout} {k : ProcFds}

theorem LiveOwners.zombie_bare (h : k.LiveOwners) {i : Fin procMaxTasks} (hz : (k.sys.proc.tab.task (.slot i)).state = .zombie) :
    k.fds.Bare (k.sys.proc.tab.task (.slot i)).pid := by
  intro p j hp
  by_contra hu
  obtain ⟨i', hpid, hl', hz'⟩ := h.held (p, j) (by simpa using hu)
  have hl : Live k.sys.proc.tab (.slot i) := by
    unfold Live
    rw [hz]
    simp
  have hii : i' = i := h.sys.tree.1.distinct i' i hl' hl (hpid.trans hp)
  exact hz' (hii ▸ hz)

theorem LiveOwners.liveSlots_eq (h : k.LiveOwners) : k.liveSlots = slots k.fds := by
  funext kind i
  refine Finset.sum_congr rfl fun x _ => ?_
  split_ifs with hl
  · rfl
  have hu : (k.fds.fds x).used = false := by
    by_contra hu
    exact hl (h.held x (by simpa using hu))
  simp [FdEntry.key, hu]

theorem LiveOwners.deadOwnNothing (h : k.LiveOwners) : k.DeadOwnNothing := by
  obtain ⟨G, hG⟩ := h.acc
  have hobjs : ObjInv False (slots k.fds) k.fds.objs := by
    have := hG.objs
    rw [add_zero] at this
    exact this
  have hpipes : ∀ i, (k.fds.objs.pipes i).used = true → (k.fds.objs.pipes i).readers = k.liveSlots .pipeR i ∧
        (k.fds.objs.pipes i).writers = k.liveSlots .pipeW i := by
    intro i hu
    rw [h.liveSlots_eq]
    rcases (hobjs.pipes i).1 with ⟨-, hr, hw, -⟩ | ⟨hf, -⟩
    · exact ⟨hr, hw⟩
    · exact absurd hu (by simp [hf])
  refine ⟨fun i hz => h.zombie_bare hz, hpipes, fun i hu => ?_, fun i hu hc hno _ _ _ _ => ?_⟩
  · rw [h.liveSlots_eq]
    rcases (hobjs.ptys i).1 with ⟨-, hm, hs, -⟩ | ⟨hf, -⟩
    · exact ⟨hm, hs⟩
    · exact absurd hu (by simp [hf])
  · have hw : (k.fds.objs.pipes i).writers = 0 := (hpipes i hu).2.trans hno
    unfold pipeRead
    rw [if_pos hc, if_pos hw]

end ProcFds

/-- In every run in which whoever faults or is killed holds no descriptors, the dead own
nothing. -/
theorem dead_own_nothing (L : KernelLayout) (es : List ProcFdEvent)
    (hok : Meets (ProcFds.step L) ProcFds.Releases (ProcFds.boot L) es) :
    (run (ProcFds.step L) (ProcFds.boot L) es).DeadOwnNothing := by
  have h : (run (ProcFds.step L) (ProcFds.boot L) es).LiveOwners :=
    run_invariant (I := ProcFds.LiveOwners) (fun _ e h hok => h.step e hok) ProcFds.boot_inv hok
  exact h.deadOwnNothing

def pipeToChild : List ProcFdEvent :=
  [.call { pid := 1 } (.pipe 0 true), .fork {} fun _ => [], .call { pid := 1 } (.close 4 fun _ => [])]

/-- The child writes a byte and exits; init reads it, then the end of the file. -/
def writerExits : List ProcFdEvent :=
  pipeToChild ++ [.other .yield, .transfer 4 (.write [7]) false, .exit 0 fun _ => [],
    .transfer 3 (.read 1 blankBounce) false]

def layout0 : KernelLayout := { kernelEnd := 0x48000000 }

theorem writerExits_eof : Meets (ProcFds.step layout0) ProcFds.Releases (ProcFds.boot layout0) writerExits ∧
      (run (ProcFds.step layout0) (ProcFds.boot layout0) writerExits).DeadOwnNothing := by
  have h : Meets (ProcFds.step layout0) ProcFds.Releases (ProcFds.boot layout0) writerExits := by
    refine ⟨?_, ?_, ?_, ⟨trivial, ?_⟩, ?_, trivial, ?_, trivial⟩
    · show (TaskTable.task _ _).state ≠ .zombie
      decide +kernel
    · show (TaskTable.task _ _).state ≠ .zombie
      decide +kernel
    · show (TaskTable.task _ _).state ≠ .zombie
      decide +kernel
    · exact fun _ hf => hf.elim
    · show (TaskTable.task _ _).state ≠ .zombie
      decide +kernel
    · show (TaskTable.task _ _).state ≠ .zombie
      decide +kernel
  exact ⟨h, dead_own_nothing _ _ h⟩

def writerKilled : List ProcFdEvent :=
  pipeToChild ++ [.other (.sendSignal 2 9)]

/-- The zombie keeps the only writing end. Init, which reads up to the end of the file before
it reaps its child, waits for ever. -/
theorem killedWriter_blocks_reader : let k := run (ProcFds.step layout0) (ProcFds.boot layout0) writerKilled
    ((k.sys.proc.tab.task (.slot 1)).state = .zombie ∧ (k.sys.proc.tab.task (.slot 1)).pid = 2 ∧ ¬ k.fds.Bare 2) ∧
      (∀ p, k.fds.procPid p = if p = 0 then 1 else if p = 1 then 2 else 0) ∧
      (∀ i, (k.fds.fds (0, i)).used = true → (k.fds.fds (0, i)).kind ≠ .pipeW) ∧
      (k.fds.objs.pipes 0).writers = 1 ∧
      (pipeRead (k.fds.objs.pipes 0) false false 1 blankBounce).2.waits = true ∧
      ¬ k.DeadOwnNothing := by
  intro k
  have hz : (k.sys.proc.tab.task (.slot 1)).state = .zombie ∧
      (k.sys.proc.tab.task (.slot 1)).pid = 2 := by decide +kernel
  have hb : ¬ k.fds.Bare 2 := by
    intro hb
    exact absurd (hb 1 4 (by decide +kernel)) (by decide +kernel)
  refine ⟨⟨hz.1, hz.2, hb⟩, by decide +kernel, by decide +kernel, by decide +kernel, by decide +kernel, fun h => ?_⟩
  have := h.zombies 1 hz.1
  rw [hz.2] at this
  exact hb this

end EdgeOS
