import EdgeOS.OpenDescriptors
import EdgeOS.ProcessRuns

namespace EdgeOS

open Lib Function List FdEntry FdCall ProcFds
open Prod (fst snd ext)

/-!
The hold that descriptors of `/dev/fb0` put on the text console: a counter that `do_sys_openat` and
`do_sys_close` keep, over runs of processes and their descriptors.
-/

/-! ## The counter -/

/-- `g_fb_console_hold_count`, and `present_enabled` of the framebuffer console. -/
structure FbConsole where
  hold : ℕ := 0
  present : Bool := true
  deriving DecidableEq, Repr

namespace FbConsole

/-- The end of `do_sys_openat`. -/
def opened (con : FbConsole) (path : String) : FbConsole :=
  if path = "/dev/fb0" then ⟨con.hold + 1, if con.hold = 0 then false else con.present⟩ else con

/-- What `do_sys_close` does to the console when it closes `e`. -/
def closed (con : FbConsole) (e : FdEntry) : FbConsole :=
  if e.kind = .vfs ∧ e.path = "/dev/fb0" then
    if 0 < con.hold then ⟨con.hold - 1, if con.hold - 1 = 0 then true else con.present⟩ else con
  else con

end FbConsole

/-- The inode number of device node `dev`, and the inode that `/dev/fb0` resolves to. -/
def devnodeIno (dev : ℕ) : ℕ := 0xD0000000 + dev

def fb0Inode (dev : ℕ) : VfsInode := { ino := devnodeIno dev, mode := 0x21B0 }

/-- The descriptor refers to the framebuffer; `dev` is the place of `fb0` in `g_devnodes`. -/
def FdEntry.isFb0 (dev : ℕ) (e : FdEntry) : Bool :=
  e.used ∧ e.kind = .vfs ∧ e.sb = none ∧ e.inode.ino = devnodeIno dev

/-- The descriptor has the path that `do_sys_close` looks for. -/
def FdEntry.namesFb0 (e : FdEntry) : Bool := e.used ∧ e.kind = .vfs ∧ e.path = "/dev/fb0"

/-- How many used descriptors of all processes refer to the framebuffer. -/
def FdState.fb0Slots (dev : ℕ) (s : FdState) : ℕ := ∑ x, if (s.fds x).isFb0 dev then 1 else 0

/-! ## What the calls do to it -/

/-- `do_sys_close`. -/
def FbConsole.close (con : FbConsole) (s : FdState) (pid fd : ℤ) : FbConsole :=
  match findProc s pid with
  | none => con
  | some p =>
    match fdGet s p fd with
    | none => con
    | some i => con.closed (s.fds (p, i))

/-- `do_sys_dup2` closes the descriptor it replaces. -/
def FbConsole.dup2 (con : FbConsole) (s : FdState) (pid oldfd newfd : ℤ) : FbConsole :=
  match fdProcWithStdio s pid with
  | (_, none) => con
  | (s, some p) =>
    match fdGet s p oldfd, (List.finRange edgeMaxFd).find? fun j => (j.val : ℤ) = newfd with
    | some i, some j => if i = j then con else if (s.fds (p, j)).used then con.closed (s.fds (p, j)) else con
    | _, _ => con

/-- A round of the loop of `do_sys_execve` that closes descriptors. -/
def execCloseFd (window : ℕ → List ℕ) (p : FdProcIdx) (acc : FdState × FbConsole) (i : FdIdx) : FdState × FbConsole :=
  let (s, con) := acc
  let e := s.fds (p, i)
  if !e.used ∨ !e.cloexec then (s, con)
  else if i.val ≤ 2 then (s.setFd p i { e with cloexec := false }, con)
  else (closeFd window s p i, con.closed e)

/-- `do_sys_execve`. -/
def FbConsole.execve (con : FbConsole) (window : ℕ → List ℕ) (s : FdState) (pid : ℤ) : FbConsole :=
  match findProc s pid with
  | none => con
  | some p => ((List.finRange edgeMaxFd).foldl (execCloseFd window p) (s, con)).2

/-- The calls that open or close files. Failures of `pipe` and `accept` close no file. -/
def FdCall.console (s : FdState) (cur : Caller) (con : FbConsole) : FdCall → FbConsole
  | .openat flags path resolved =>
    match path, (doSysOpenat s cur flags path resolved).2 with
    | .ok name, .ok _ => con.opened name
    | _, _ => con
  | .close fd _ => con.close s cur.pid fd
  | .dup2 oldfd newfd _ => con.dup2 s cur.pid oldfd newfd
  | .dup3 oldfd newfd flags _ =>
    if hasFlag flags (~~~linuxOCloexec) ∨ oldfd = newfd then con else con.dup2 s cur.pid oldfd newfd
  | .execve _ window => con.execve window s cur.pid
  | _ => con

/-- The answer of the file system: `/dev/fb0` is in the table of device nodes. -/
def FdCall.found (dev : ℕ) : FdCall → FdCall
  | .openat flags (.ok name) resolved =>
    .openat flags (.ok name) (if name = "/dev/fb0" then some (fb0Inode dev, none) else resolved)
  | c => c

def FdState.HasFb0 (dev : ℕ) (s : FdState) (pid : ℤ) : Prop := ∃ i, (s.fdsOf pid i).isFb0 dev = true

/-- Descriptor `fd` of the process is one of the framebuffer. -/
def FdState.AtFb0 (dev : ℕ) (s : FdState) (pid fd : ℤ) : Prop :=
  ∃ i : FdIdx, (i.val : ℤ) = fd ∧ (s.fdsOf pid i).isFb0 dev = true

/-- The call opens the framebuffer under its name only, and copies none of its descriptors. An exec
that fails is left with none. -/
def FdCall.Counted (dev : ℕ) (s : FdState) (pid : ℤ) : FdCall → Prop
  | .openat _ (.ok name) (some (inode, none)) => inode.ino = devnodeIno dev → name = "/dev/fb0"
  | .dupfd fd _ _ => ¬ s.AtFb0 dev pid fd
  | .dup2 oldfd newfd _ | .dup3 oldfd newfd _ _ => oldfd = newfd ∨ ¬ s.AtFb0 dev pid oldfd
  | .execve false _ => ∀ i, (s.fdsOf pid i).isFb0 dev = true → (s.fdsOf pid i).cloexec = true ∧ 2 < i.val
  | _ => True

/-! ## The system -/

/-- Processes with their descriptors, and the console. -/
structure HoldSys where
  procs : ProcFds
  con : FbConsole := {}

namespace HoldSys

variable (L : KernelLayout) (dev : ℕ) (k : HoldSys)

/-- The process layer acts, and the calls that open or close files move the counter. -/
def step : ProcFdEvent → HoldSys
  | .call cur c =>
    { procs := k.procs.act L (.call cur (c.found dev))
      con := if k.procs.hasPid ∧ k.procs.sys.free ∧ cur.pid = k.procs.pid then
          (c.found dev).console k.procs.fds cur k.con
        else k.con }
  | e => { k with procs := k.procs.act L e }

def boot : HoldSys := { procs := .boot L }

/-- The counter is the number of descriptors, and the text console is shown when there are none. -/
def Exact : Prop :=
  k.con.hold = k.procs.fds.fb0Slots dev ∧ (k.con.present = true ↔ k.procs.fds.fb0Slots dev = 0)

/-- Descriptors of the framebuffer come from `openat` under the name `/dev/fb0` and go by `close`:
none is copied, inherited, or given back by exit, by a wait or by an exec that fails. -/
def Counted : ProcFdEvent → Prop
  | .call cur c => c.Counted dev k.procs.fds cur.pid
  | .fork tf _ =>
    0 < (processFork L k.procs.sys.proc (some tf)).2 → ¬ k.procs.fds.HasFb0 dev k.procs.pid
  | .exit _ _ => ¬ k.procs.fds.HasFb0 dev k.procs.pid
  | .wait w nohang _ =>
    ∀ pid code, k.procs.sys.collects (.wait w nohang) = some (pid, code) → ¬ k.procs.fds.HasFb0 dev pid
  | .resumeWait _ =>
    ∀ pid code, k.procs.sys.collects .resumeWait = some (pid, code) → ¬ k.procs.fds.HasFb0 dev pid
  | _ => True

end HoldSys

/-! ## The invariant -/

section Console

variable {dev : ℕ} {s s' s'' : FdState} {con : FbConsole} {x : FdProcIdx × FdIdx}

/-- What the counter depends on: is it the framebuffer, and is it closed as one? -/
def FdEntry.fbView (dev : ℕ) (e : FdEntry) : Bool × Bool := (e.isFb0 dev, e.namesFb0)

theorem fbView_unused {e : FdEntry} (h : e.used = false) : e.fbView dev = (false, false) := by
  simp [fbView, isFb0, namesFb0, h]

theorem fbView_plain {e : FdEntry} (h : e.kind ≠ .vfs) : e.fbView dev = (false, false) := by
  simp [fbView, isFb0, namesFb0, h]

theorem fbView_object {e e' : FdEntry} (hu : e'.used = e.used) (ho : e'.object = e.object) :
    e'.fbView dev = e.fbView dev := by
  simp only [object, Prod.mk.injEq] at ho
  obtain ⟨hk, -, hi, hs, hp⟩ := ho
  simp only [fbView, isFb0, namesFb0, hu, hk, hi, hs, hp]

/-- No descriptor begins or ceases to be one of the framebuffer. -/
def FdState.SameFb (dev : ℕ) (s s' : FdState) : Prop :=
  ∀ x, (s'.fds x).fbView dev = (s.fds x).fbView dev

theorem FdState.SameFb.trans (h : s.SameFb dev s') (h' : s'.SameFb dev s'') : s.SameFb dev s'' :=
  fun x => (h' x).trans (h x)

theorem FdState.SameFb.of_fds (h : s'.fds = s.fds) : s.SameFb dev s' := fun x => by rw [h]

theorem FdState.OnlyAdds.sameFb (h : s.OnlyAdds (fun _ => True) s') : s.SameFb dev s' := by
  intro x
  cases hu : (s.fds x).used with
  | true =>
    obtain ⟨hu', ho⟩ := h.kept x hu
    exact fbView_object (hu'.trans hu.symm) ho
  | false =>
    rw [fbView_unused hu]
    cases hu' : (s'.fds x).used with
    | true => exact fbView_plain (h.fresh x hu hu').1
    | false => exact fbView_unused hu'

theorem FdState.SameFb.write {e : FdEntry} (hfds : s'.fds = update s.fds x e)
    (he : e.fbView dev = (s.fds x).fbView dev) : s.SameFb dev s' := by
  intro y
  rw [hfds]
  by_cases hy : y = x
  · rw [hy, update_self]
    exact he
  · rw [update_of_ne hy]

/-- A write moves the number of framebuffer descriptors by what it writes and what was there. -/
theorem fb0Slots_write (hother : ∀ y, y ≠ x → (s'.fds y).isFb0 dev = (s.fds y).isFb0 dev) :
    s'.fb0Slots dev + (if (s.fds x).isFb0 dev then 1 else 0) =
      s.fb0Slots dev + (if (s'.fds x).isFb0 dev then 1 else 0) := by
  have hwrite : (fun y => (s'.fds y).isFb0 dev) = update (fun y => (s.fds y).isFb0 dev) x ((s'.fds x).isFb0 dev) := by
    funext y
    by_cases hy : y = x
    · rw [hy, update_self]
    · rw [update_of_ne hy]
      exact hother y hy
  have hsum := sum_write_add Finset.univ (fun y => (s.fds y).isFb0 dev) (Finset.mem_univ x)
    ((s'.fds x).isFb0 dev) fun b => if b = true then 1 else 0
  rw [← hwrite] at hsum
  exact hsum

theorem fb0Slots_pos (hx : (s.fds x).isFb0 dev = true) : 0 < s.fb0Slots dev := by
  unfold FdState.fb0Slots
  rw [← Finset.add_sum_erase _ _ (Finset.mem_univ x), if_pos hx]
  omega

/-- The counter counts, and the path that `do_sys_close` looks for is the path of the framebuffer. -/
structure Held (dev : ℕ) (s : FdState) (con : FbConsole) : Prop where
  named : ∀ x, (s.fds x).isFb0 dev = (s.fds x).namesFb0
  count : con.hold = s.fb0Slots dev
  shown : con.present = true ↔ con.hold = 0

namespace Held

theorem same (h : Held dev s con) (hs : s.SameFb dev s') : Held dev s' con := by
  have hfb : ∀ x, (s'.fds x).isFb0 dev = (s.fds x).isFb0 dev := fun x => congrArg fst (hs x)
  refine ⟨fun x => ?_, ?_, h.shown⟩
  · rw [hfb x, h.named x]
    exact (congrArg snd (hs x)).symm
  · rw [h.count]
    unfold FdState.fb0Slots
    simp only [hfb]

/-- What is not one of the framebuffer has nothing to do with the counter. -/
theorem view_of_not (h : Held dev s con) (hx : ¬ (s.fds x).isFb0 dev = true) :
    (s.fds x).fbView dev = (false, false) := by
  have hfalse : (s.fds x).isFb0 dev = false := by simpa using hx
  have hname := h.named x
  rw [hfalse] at hname
  simp only [fbView, hfalse, ← hname]

/-- `do_sys_openat` opens a file; its name is `/dev/fb0` if and only if it is the framebuffer. -/
theorem opened (h : Held dev s con) {name : String} {inode : VfsInode} {sb : Option ℕ}
    (ho : s.Opens (fun _ => True) name inode sb x s') (hname : sb = none ∧ inode.ino = devnodeIno dev ↔ name = "/dev/fb0") :
    Held dev s' (con.opened name) := by
  obtain ⟨s1, hadds, hother⟩ := ho.others
  have hsame : ∀ y, y ≠ x → (s'.fds y).fbView dev = (s.fds y).fbView dev := by
    intro y hy
    rw [hother y hy]
    exact hadds.sameFb y
  have hview : (s.fds x).fbView dev = (false, false) := fbView_unused ho.free
  have hold : (s.fds x).isFb0 dev = false := congrArg fst hview
  have hnew : (s'.fds x).isFb0 dev = decide (name = "/dev/fb0") := by
    unfold isFb0
    rw [ho.used, ho.kind, ho.sb, ho.ino]
    simp only [true_and]
    exact decide_eq_decide.mpr hname
  have hnames : (s'.fds x).namesFb0 = decide (name = "/dev/fb0") := by
    unfold namesFb0
    rw [ho.used, ho.kind, ho.path]
    simp only [true_and]
  have hcount := fb0Slots_write (x := x) fun y hy => congrArg fst (hsame y hy)
  rw [hold, hnew] at hcount
  refine ⟨fun y => ?_, ?_, ?_⟩
  · by_cases hy : y = x
    · rw [hy, hnew, hnames]
    · have hv := hsame y hy
      rw [show (s'.fds y).isFb0 dev = (s.fds y).isFb0 dev from congrArg fst hv, h.named y]
      exact (congrArg snd hv).symm
  · have hc := h.count
    unfold FbConsole.opened
    by_cases hn : name = "/dev/fb0"
    · rw [if_pos hn]
      simp only [hn, decide_true, if_true] at hcount
      dsimp only
      simp at hcount
      omega
    · rw [if_neg hn]
      simp [hn] at hcount
      omega
  · have hs := h.shown
    unfold FbConsole.opened
    by_cases hn : name = "/dev/fb0"
    · rw [if_pos hn]
      dsimp only
      constructor
      · intro hp
        split_ifs at hp with h0
        exact absurd (hs.mp hp) h0
      · intro h0
        omega
    · rw [if_neg hn]
      exact hs

theorem closed (h : Held dev s con) (hu : (s.fds x).used = true)
    (hfds : s'.fds = update s.fds x {}) : Held dev s' (con.closed (s.fds x)) := by
  have hself : s'.fds x = {} := by
    rw [hfds, update_self]
  have hother : ∀ y, y ≠ x → s'.fds y = s.fds y := by
    intro y hy
    rw [hfds, update_of_ne hy]
  have hsame : ∀ y, y ≠ x → (s'.fds y).isFb0 dev = (s.fds y).isFb0 dev :=
    fun y hy => by rw [hother y hy]
  have hcount := fb0Slots_write hsame
  have hnone : (s'.fds x).isFb0 dev = false := by
    rw [hself]
    rfl
  rw [hnone] at hcount
  have hnamed : ∀ y, (s'.fds y).isFb0 dev = (s'.fds y).namesFb0 := by
    intro y
    by_cases hy : y = x
    · rw [hy, hself]
      rfl
    · rw [hother y hy]
      exact h.named y
  have hc := h.count
  have hs := h.shown
  have hx := h.named x
  unfold FbConsole.closed
  by_cases hfb : (s.fds x).kind = .vfs ∧ (s.fds x).path = "/dev/fb0"
  · have htrue : (s.fds x).namesFb0 = true := by simp [namesFb0, hu, hfb]
    rw [hx, htrue] at hcount
    simp at hcount
    rw [if_pos hfb, if_pos (by omega)]
    refine ⟨hnamed, ?_, ?_⟩
    · dsimp only
      omega
    · dsimp only
      constructor
      · intro hp
        split_ifs at hp with h0
        · exact h0
        · have := hs.mp hp
          omega
      · intro h0
        rw [if_pos h0]
  · have hfalse : (s.fds x).namesFb0 = false := by
      simp only [namesFb0, hu, true_and]
      exact decide_eq_false hfb
    rw [hx, hfalse] at hcount
    simp at hcount
    rw [if_neg hfb]
    exact ⟨hnamed, by omega, hs⟩

end Held

/-! ## The calls keep it -/

section Calls

variable {p : FdProcIdx} {i : FdIdx} {pid : ℤ}

/-- Setting up a table: whose it is, and that it changes no view. -/
theorem fdsOf_withStdio (hown : s.Owned) (hf : fdProcWithStdio s pid = (s', some p)) (i : FdIdx) :
    (s'.fds (p, i)).fbView dev = (s.fdsOf pid i).fbView dev := by
  have hsame : (s'.fds (p, i)).fbView dev = (s.fds (p, i)).fbView dev :=
    (fdProcWithStdio_adds hown hf).sameFb (p, i)
  unfold FdState.fdsOf
  rcases fdProcWithStdio_table hf with hp | ⟨hp, h0⟩
  · rw [hp]
    exact hsame
  · rw [hp, hsame]
    exact fbView_unused (hown (p, i) (findProc_some h0))

theorem fdGet_val {fd : ℤ} (h : fdGet s p fd = some i) : (i.val : ℤ) = fd := by
  unfold fdGet at h
  split at h
  · rename_i j hj
    split_ifs at h
    rw [← Option.some.inj h]
    simpa using find?_some hj
  · simp at h

theorem Held.close (h : Held dev s con) (window : ℕ → List ℕ) (fd : ℤ) :
    Held dev (doSysClose window s pid fd).1 (con.close s pid fd) := by
  unfold doSysClose FbConsole.close
  rcases findProc s pid with _ | p
  · exact h
  dsimp only
  rcases hg : fdGet s p fd with _ | i
  · exact h
  · exact h.closed (fdGet_some hg) (closeFd_fds window s p i)

theorem sameFb_dupInto {e : FdEntry} (hfree : (s.fds (p, i)).fbView dev = (false, false))
    (he : e.fbView dev = (false, false)) (cloexec : Bool) :
    s.SameFb dev (dupInto s p i e cloexec).1 := by
  obtain ⟨e', hfds, hcopy⟩ := dupInto_fds s p i e cloexec
  apply FdState.SameFb.write hfds
  rw [hfree]
  rcases hcopy with rfl | rfl
  · rfl
  · rw [← he]
    exact fbView_object rfl rfl

theorem Held.dupfd (h : Held dev s con) (hown : s.Owned) {fd : ℤ} (minfd : ℤ) (cloexec : Bool)
    (hfb : ∀ i : FdIdx, (i.val : ℤ) = fd → ¬ (s.fdsOf pid i).isFb0 dev = true) :
    Held dev (doSysFcntlDupfd s pid fd minfd cloexec).1 con := by
  unfold doSysFcntlDupfd
  split
  · rename_i hf
    exact h.same (fdProcWithStdio_adds hown hf).sameFb
  rename_i s1 p hf
  have h1 := h.same (fdProcWithStdio_adds hown hf).sameFb
  split
  · exact h1
  rename_i i hg
  have hview : (s1.fds (p, i)).fbView dev = (s.fdsOf pid i).fbView dev := fdsOf_withStdio hown hf i
  have hsrc : (s1.fds (p, i)).fbView dev = (false, false) := by
    apply h1.view_of_not
    rw [show (s1.fds (p, i)).isFb0 dev = (s.fdsOf pid i).isFb0 dev from congrArg fst hview]
    exact hfb i (fdGet_val hg)
  split
  · rename_i ha
    exact h1.same (fdAlloc_adds ha).1.sameFb
  rename_i s2 j ha
  obtain ⟨hadds, hfree⟩ := fdAlloc_adds ha
  have h2 := h1.same hadds.sameFb
  have hj : (s2.fds (p, j)).fbView dev = (false, false) := by
    rw [hadds.sameFb (p, j)]
    exact fbView_unused (hfree j rfl)
  have hi : (s2.fds (p, i)).fbView dev = (false, false) := (hadds.sameFb (p, i)).trans hsrc
  exact h2.same (sameFb_dupInto hj hi cloexec)

theorem Held.dup2 (h : Held dev s con) (hown : s.Owned) (window : ℕ → List ℕ) {oldfd newfd : ℤ}
    (hfb : oldfd = newfd ∨ ∀ i : FdIdx, (i.val : ℤ) = oldfd → ¬ (s.fdsOf pid i).isFb0 dev = true) :
    Held dev (doSysDup2 window s pid oldfd newfd).1 (con.dup2 s pid oldfd newfd) := by
  unfold doSysDup2 FbConsole.dup2
  rcases hf : fdProcWithStdio s pid with ⟨s1, _ | p⟩
  · exact h.same (fdProcWithStdio_adds hown hf).sameFb
  have h1 := h.same (fdProcWithStdio_adds hown hf).sameFb
  dsimp only
  rcases hg : fdGet s1 p oldfd with _ | i
  · exact h1
  generalize hj : find? _ (finRange edgeMaxFd) = r
  rcases r with _ | j
  · exact h1
  have hj : (j.val : ℤ) = newfd := by simpa using find?_some hj
  dsimp only
  by_cases hij : i = j
  · rw [if_pos hij, if_pos hij]
    exact h1
  rw [if_neg hij, if_neg hij]
  have hsrc : (s1.fds (p, i)).fbView dev = (false, false) := by
    rcases hfb with heq | hfb
    · have hi := fdGet_val hg
      exact absurd (Fin.ext (by omega)) hij
    apply h1.view_of_not
    have hview : (s1.fds (p, i)).fbView dev = (s.fdsOf pid i).fbView dev := fdsOf_withStdio hown hf i
    rw [show (s1.fds (p, i)).isFb0 dev = (s.fdsOf pid i).isFb0 dev from congrArg fst hview]
    exact hfb i (fdGet_val hg)
  by_cases hu : (s1.fds (p, j)).used = true
  · rw [if_pos hu, if_pos hu]
    have h2 := h1.closed hu (closeFd_fds window s1 p j)
    have hne : (p, i) ≠ (p, j) := fun he => hij (congrArg snd he)
    refine h2.same (sameFb_dupInto ?_ ?_ false)
    · rw [closeFd_fds, update_self]
      rfl
    · rw [closeFd_fds, update_of_ne hne]
      exact hsrc
  · rw [if_neg hu, if_neg hu]
    exact h1.same (sameFb_dupInto (fbView_unused (by simpa using hu)) hsrc false)

/-- The rounds of an exec, with the console beside the descriptors. -/
theorem Held.execRounds (h : Held dev s con) (window : ℕ → List ℕ) (p : FdProcIdx) (l : List FdIdx) :
    Held dev (l.foldl (execCloseFd window p) (s, con)).1 (l.foldl (execCloseFd window p) (s, con)).2 := by
  induction l generalizing s con with
  | nil => exact h
  | cons i l ih =>
    have hround : Held dev (execCloseFd window p (s, con) i).1 (execCloseFd window p (s, con) i).2 := by
      unfold execCloseFd
      dsimp only
      split_ifs with hskip hlow
      · exact h
      · exact h.same (.write rfl (fbView_object rfl rfl))
      · have hu : (s.fds (p, i)).used = true := by
          by_contra hu
          exact hskip (.inl (by simpa using hu))
        exact h.closed hu (closeFd_fds window s p i)
    exact ih hround

theorem execRounds_fst (window : ℕ → List ℕ) (s : FdState) (con : FbConsole) (p : FdProcIdx)
    (hp : findProc s pid = some p) :
    ((finRange edgeMaxFd).foldl (execCloseFd window p) (s, con)).1 = execCloseFds window s pid := by
  unfold execCloseFds
  rw [hp]
  refine (foldl_hom fst ?_).symm
  rintro ⟨t, con⟩ i
  unfold execCloseFd
  dsimp only
  split_ifs <;> rfl

theorem Held.execClose (h : Held dev s con) (window : ℕ → List ℕ) :
    Held dev (execCloseFds window s pid) (con.execve window s pid) := by
  unfold FbConsole.execve
  rcases hp : findProc s pid with _ | p
  · have hsame : execCloseFds window s pid = s := by
      unfold execCloseFds
      rw [hp]
    rw [hsame]
    exact h
  · have hrounds := h.execRounds window p (finRange edgeMaxFd)
    rw [execRounds_fst window s con p hp] at hrounds
    exact hrounds

/-- A table without framebuffer descriptors is given back. -/
theorem Held.release (h : Held dev s con) (window : ℕ → List ℕ)
    (hfb : ∀ i, ¬ (s.fdsOf pid i).isFb0 dev = true) : Held dev (fdProcRelease window s pid) con := by
  apply h.same
  unfold fdProcRelease
  rcases hp : findProc s pid with _ | p
  · exact .of_fds rfl
  have hnone : ∀ i, (s.fds (p, i)).fbView dev = (false, false) := by
    intro i
    apply h.view_of_not
    rw [← fdsOf_of_find hp i]
    exact hfb i
  have hloop : ∀ (l : List FdIdx) (t : FdState), s.SameFb dev t →
      s.SameFb dev (l.foldl (fun s i => if (s.fds (p, i)).used then closeFd window s p i else s) t) := by
    intro l
    induction l with
    | nil => exact fun t ht => ht
    | cons i l ih =>
      intro t ht
      rw [foldl_cons]
      apply ih
      split_ifs
      · refine ht.trans (.write (closeFd_fds window t p i) ?_)
        rw [ht (p, i), hnone i]
        rfl
      · exact ht
  have hsame := hloop (finRange edgeMaxFd) s (.of_fds rfl)
  dsimp only
  generalize (finRange edgeMaxFd).foldl _ s = t at hsame ⊢
  intro x
  by_cases hx : x.1 = p
  · have hself : (t.clearProc p 0).fds x = {} := if_pos hx
    have hxp : x = (p, x.2) := ext hx rfl
    rw [hself, hxp, hnone x.2]
    rfl
  have hother : (t.clearProc p 0).fds x = t.fds x := if_neg hx
  rw [hother]
  exact hsame x

/-- An exec that fails gives back what it has not closed. -/
theorem Held.execve (h : Held dev s con) (window : ℕ → List ℕ) (loaded : Bool)
    (hfb : loaded = false → ∀ i, (s.fdsOf pid i).isFb0 dev = true → (s.fdsOf pid i).cloexec = true ∧ 2 < i.val) :
    Held dev (doSysExecve window s pid loaded) (con.execve window s pid) := by
  have h1 : Held dev (execCloseFds window s pid) (con.execve window s pid) := h.execClose window
  unfold doSysExecve
  dsimp only
  split_ifs with hl
  · exact h1
  refine h1.release window fun i hi => ?_
  rw [execCloseFds_fdsOf] at hi
  unfold execEntry at hi
  have hclose := hfb (by simpa using hl) i
  split_ifs at hi with hskip hlow
  · have hc := (hclose hi).1
    rw [hc] at hskip
    have hu : (s.fdsOf pid i).used = true := by
      simp only [isFb0, decide_eq_true_eq] at hi
      exact hi.1
    rw [hu] at hskip
    simp at hskip
  · have hi' : (s.fdsOf pid i).isFb0 dev = true := hi
    have hlow' := (hclose hi').2
    omega
  · simp [isFb0] at hi

/-- A table without framebuffer descriptors is inherited. -/
theorem Held.fork (h : Held dev s con) (hown : s.Owned) {child : ℤ} (cbs : FdIdx → List ℕ)
    (hnew : ∀ q, s.procPid q ≠ child) (hfb : ∀ i, ¬ (s.fdsOf pid i).isFb0 dev = true) :
    Held dev (fdCloneAfterFork s pid child cbs) con := by
  apply h.same
  unfold fdCloneAfterFork
  rcases hp : findProc s pid with _ | parent
  · exact .of_fds rfl
  have hnone : ∀ i, (s.fds (parent, i)).fbView dev = (false, false) := by
    intro i
    apply h.view_of_not
    rw [← fdsOf_of_find hp i]
    exact hfb i
  dsimp only
  split_ifs
  · exact .of_fds rfl
  rcases hc : fdProcForPid s child with ⟨s1, _ | c⟩
  · exact (fdProcForPid_adds hown hc).sameFb
  have h1 : s.SameFb dev s1 := (fdProcForPid_adds hown hc).sameFb
  have hempty : ∀ i, (s.fds (c, i)).used = false := by
    intro i
    unfold fdProcForPid at hc
    split at hc
    · rename_i q hq
      exact absurd (findProc_some hq) (hnew q)
    split at hc
    · simp at hc
    rename_i q hq
    have hqc : q = c := Option.some.inj (Prod.mk.inj hc).2
    rw [← hqc]
    exact hown (q, i) (findProc_some hq)
  have hloop : ∀ (l : List FdIdx) (t : FdState), s.SameFb dev t → s.SameFb dev (l.foldl (cloneFd parent c cbs) t) := by
    intro l
    induction l with
    | nil => exact fun t ht => ht
    | cons i l ih =>
      intro t ht
      rw [foldl_cons]
      apply ih
      rcases cloneFd_fds parent c cbs t i with heq | ⟨e, heq, he⟩
      · exact ht.trans (.of_fds heq)
      refine ht.trans (.write heq ?_)
      rw [ht (c, i), fbView_unused (hempty i)]
      rcases he with rfl | rfl
      · rfl
      · rw [ht (parent, i), hnone i]
  dsimp only
  apply hloop
  intro x
  by_cases hx : x.1 = c
  · have hself : (s1.clearProc c child).fds x = {} := if_pos hx
    have hxc : x = (c, x.2) := ext hx rfl
    rw [hself, hxc, fbView_unused (hempty x.2)]
    rfl
  have hother : (s1.clearProc c child).fds x = s1.fds x := if_neg hx
  rw [hother]
  exact h1 x

theorem Held.openat (h : Held dev s con) (hown : s.Owned) (cur : Caller) (flags : BitVec 32)
    (path : Except Errno String) (resolved : Option (VfsInode × Option ℕ))
    (hname : ∀ name inode sb, path = .ok name → resolved = some (inode, sb) →
      (sb = none ∧ inode.ino = devnodeIno dev ↔ name = "/dev/fb0")) :
    Held dev (doSysOpenat s cur flags path resolved).1 (console s cur con (.openat flags path resolved)) := by
  rcases doSysOpenat_opens (E := fun _ => True) hown cur flags path resolved with
    ⟨hadds, ⟨e, herr⟩ | ⟨name, rfl, htty⟩⟩ | ⟨name, inode, sb, x, rfl, hres, ⟨n, hok⟩, hopens⟩
  · have hcon : console s cur con (.openat flags path resolved) = con := by
      simp only [console, herr]
    rw [hcon]
    exact h.same hadds.sameFb
  · have hne : name ≠ "/dev/fb0" := by
      rintro rfl
      rcases htty with hn | hn | hn
      · exact absurd hn (by decide)
      · exact absurd hn (by decide)
      · exact absurd hn (by decide)
    have hcon : console s cur con (.openat flags (.ok name) resolved) = con := by
      unfold console
      dsimp only
      split
      · rename_i hn _
        rw [← Except.ok.inj hn]
        exact if_neg hne
      · rfl
    rw [hcon]
    exact h.same hadds.sameFb
  · have hcon : console s cur con (.openat flags (.ok name) resolved) = con.opened name := by
      simp only [console, hok]
    rw [hcon]
    exact h.opened hopens (hname name inode sb rfl hres)

theorem Held.call {N : ℤ} {G : ℕ → ℕ} {cur : Caller} (h : Held dev s con)
    (hinv : FdInv False N 0 G s) (hpos : 0 < cur.pid) (hN : cur.pid < N) (c : FdCall)
    (hok : c.Counted dev s cur.pid) (hc : ∀ window, c ≠ .release window) :
    Held dev ((c.found dev).apply s cur) ((c.found dev).console s cur con) := by
  have hown : s.Owned := hinv.owned
  have same : ∀ {s' : FdState}, s.OnlyAdds (fun _ => True) s' → Held dev s' con := fun hs => h.same hs.sameFb
  cases c with
  | openat flags path resolved =>
    cases path with
    | error err =>
      refine h.openat hown cur flags (.error err) resolved fun name inode sb hp => ?_
      simp at hp
    | ok name =>
      refine h.openat hown cur flags (.ok name) _ fun name' inode sb hp hres => ?_
      rw [← Except.ok.inj hp]
      by_cases hn : name = "/dev/fb0"
      · rw [if_pos hn, Option.some.injEq, Prod.mk.injEq] at hres
        rw [← hres.1, ← hres.2]
        exact iff_of_true ⟨rfl, rfl⟩ hn
      rw [if_neg hn] at hres
      refine iff_of_false ?_ hn
      rintro ⟨rfl, hino⟩
      rw [hres] at hok
      exact hn (hok hino)
  | pipe flags copied => exact same (.doSysPipe hown flags copied)
  | socket => exact same (.doSysSocket hown _ _ _ _ _ _ _ _)
  | socketpair => exact same (.doSysSocketpair hown _ _ _ _ _ _)
  | listen fd backlog granted => exact same (.doSysListen hown fd backlog granted)
  | accept fd copied later => exact same (.doSysAccept hown fd copied later)
  | accept4 fd flags copied later => exact same (.doSysAccept4 hinv hpos hN fd flags copied later)
  | eventfd2 flags =>
    apply same
    simp only [found, apply, doSysEventfd2]
    split
    · exact .refl s
    · exact .createSpecial hown _ _ fun _ _ _ _ => trivial
  | timerfdCreate clockid flags =>
    apply same
    simp only [found, apply, doSysTimerfdCreate]
    split
    · exact .refl s
    · exact .createSpecial hown _ _ fun _ _ _ _ => trivial
  | epollCreate1 flags =>
    apply same
    simp only [found, apply, doSysEpollCreate1]
    split
    · exact .refl s
    · exact .createSpecial hown _ _ fun _ _ _ _ => trivial
  | signalfd4 fd flags => exact same (.doSysSignalfd4 hinv hpos hN fd flags)
  | dupfd fd minfd cloexec =>
    exact h.dupfd hown minfd cloexec fun i hi hfb => hok ⟨i, hi, hfb⟩
  | setfd fd cloexec => exact same (.doSysFcntlSetfd hown fd cloexec)
  | setfl fd arg => exact same (.doSysFcntlSetfl hown fd arg)
  | dup2 oldfd newfd window =>
    exact h.dup2 hown window (hok.imp id fun hno i hi hfb => hno ⟨i, hi, hfb⟩)
  | dup3 oldfd newfd flags window =>
    have h2 : Held dev (doSysDup2 window s cur.pid oldfd newfd).1 (con.dup2 s cur.pid oldfd newfd) :=
      h.dup2 hown window (hok.imp id fun hno i hi hfb => hno ⟨i, hi, hfb⟩)
    have hinv2 : FdInv False N 0 G (doSysDup2 window s cur.pid oldfd newfd).1 :=
      hinv.doSysDup2 hpos hN (fun hf => hf.elim) oldfd newfd
    simp only [found, apply, console, doSysDup3]
    by_cases hbad : hasFlag flags (~~~linuxOCloexec) ∨ oldfd = newfd
    · rw [if_pos hbad, if_pos hbad]
      exact h
    rw [if_neg hbad, if_neg hbad]
    generalize doSysDup2 window s cur.pid oldfd newfd = out at h2 hinv2 ⊢
    rcases out with ⟨s2, err | n⟩
    · exact h2
    dsimp only
    split_ifs
    · exact h2.same (FdState.OnlyAdds.doSysFcntlSetfd hinv2.owned n true).sameFb
    · exact h2
  | close fd window => exact h.close window fd
  | ptyLock fd lock => exact same (.ioctlPtyLock hown fd lock)
  | execve loaded window =>
    refine h.execve window loaded fun hl => ?_
    rw [hl] at hok
    exact hok
  | release window => exact absurd rfl (hc window)

end Calls

end Console

/-! ## Runs -/

namespace HoldSys

variable {L : KernelLayout} {dev : ℕ} {k : HoldSys}

/-- The accounting of the descriptors, and the counter. -/
structure Counts (dev : ℕ) (k : HoldSys) : Prop where
  acc : k.procs.Accounted
  held : Held dev k.procs.fds k.con

theorem Counts.exact (h : k.Counts dev) : k.Exact dev := by
  have hc := h.held.count
  refine ⟨hc, ?_⟩
  rw [← hc]
  exact h.held.shown

theorem held_call (h : k.Counts dev) (cur : Caller) (c : FdCall) (hok : c.Counted dev k.procs.fds cur.pid) :
    Held dev (k.step L dev (.call cur c)).procs.fds (k.step L dev (.call cur c)).con := by
  unfold step
  dsimp only
  cases hpid : k.procs.hasPid with
  | false =>
    rw [ProcFds.act_of_no_pid hpid rfl, if_neg (by simp)]
    exact h.held
  | true =>
    rw [ProcFds.act_of_hasPid hpid]
    obtain ⟨hpos, hN⟩ := ProcFds.hasPid_bounds hpid
    dsimp only [ProcFds.step]
    by_cases hown : k.procs.sys.free = true ∧ cur.pid = k.procs.pid
    swap
    · rw [if_neg hown, if_neg (fun hf => hown hf.2)]
      exact h.held
    rw [if_pos hown, if_pos ⟨rfl, hown⟩]
    have hpos' : 0 < cur.pid := by omega
    have hN' : cur.pid < k.procs.sys.proc.tab.nextPid := by omega
    obtain ⟨G, hG⟩ := h.acc.acc
    have hheld : (∀ window, c ≠ .release window) →
        Held dev ((c.found dev).apply k.procs.fds cur) ((c.found dev).console k.procs.fds cur k.con) :=
      h.held.call hG hpos' hN' c hok
    cases c with
    | release window => exact h.held
    | execve loaded window =>
      have hh := hheld (by simp)
      cases loaded <;> exact hh
    | openat flags path resolved =>
      cases path with
      | error err => exact hheld (by simp)
      | ok name => exact hheld (by simp)
    | _ => exact hheld (by simp)

theorem held_fork (h : k.Counts dev) (tf : TrapFrame) (cbs : FdIdx → List ℕ)
    (hok : 0 < (processFork L k.procs.sys.proc (some tf)).2 → ¬ k.procs.fds.HasFb0 dev k.procs.pid) :
    Held dev (k.procs.doSysFork L tf cbs).fds k.con := by
  obtain ⟨G, hG⟩ := h.acc.acc
  have hpos := h.acc.pos
  have hfork := processFork_pid L k.procs.sys.proc (some tf)
  unfold doSysFork
  generalize processFork L k.procs.sys.proc (some tf) = out at hfork hok ⊢
  obtain ⟨proc, child⟩ := out
  dsimp only at hfork hok ⊢
  split_ifs with hchild
  · refine h.held.fork hG.owned cbs (fun q => ?_) fun i hi => hok hchild ⟨i, hi⟩
    have hknown := hG.known q
    rcases hfork with hnone | ⟨hnext, -⟩
    · have := (Prod.mk.inj hnone).2
      omega
    · omega
  · exact h.held

/-- A wait gives back the descriptors of the child it reaps. -/
theorem held_reap (h : k.Counts dev) (e : ProcEvent) (window : ℕ → List ℕ)
    (hok : ∀ pid code, k.procs.sys.collects e = some (pid, code) → ¬ k.procs.fds.HasFb0 dev pid) :
    Held dev (k.procs.reapFds e window) k.con := by
  unfold reapFds
  split
  · rename_i pid code hc
    exact h.held.release window fun i hi => hok pid code hc ⟨i, hi⟩
  · exact h.held

/-- Every event that meets the condition keeps the counter exact. -/
theorem Counts.step (h : k.Counts dev) (e : ProcFdEvent) (hok : k.Counted L dev e) : (k.step L dev e).Counts dev := by
  have hheld : ∀ e, Held dev (k.procs.step L e).fds k.con → Held dev (k.procs.act L e).fds k.con := by
    intro e he
    unfold ProcFds.act
    split_ifs
    · exact h.held
    · exact he
  obtain ⟨G, hG⟩ := h.acc.acc
  cases e with
  | call cur c => exact ⟨h.acc.act _, held_call h cur c hok⟩
  | transfer fd op interrupted =>
    refine ⟨h.acc.act _, hheld _ ?_⟩
    dsimp only [ProcFds.step]
    split_ifs
    · obtain ⟨s1, htab, hres⟩ := op.perform_cases k.procs.fds k.procs.pid fd interrupted
      have h1 : Held dev s1 k.con := by
        rcases htab with rfl | ⟨q, hq⟩
        · exact h.held
        · exact h.held.same (fdProcWithStdio_adds hG.owned hq).sameFb
      rcases hres with heq | ⟨j, x, -, -, -, -, heq⟩
      · rw [heq]
        exact h1
      · rw [heq]
        exact h1.same (.of_fds rfl)
    · exact h.held
  | fork tf cbs =>
    refine ⟨h.acc.act _, hheld _ ?_⟩
    dsimp only [ProcFds.step]
    split_ifs
    · exact held_fork h tf cbs hok
    · exact h.held
  | exit code window =>
    refine ⟨h.acc.act _, hheld _ ?_⟩
    dsimp only [ProcFds.step]
    split_ifs
    · exact h.held.release window fun i hi => hok ⟨i, hi⟩
    · exact h.held
  | fault code =>
    refine ⟨h.acc.act _, hheld _ ?_⟩
    dsimp only [ProcFds.step]
    split_ifs <;> exact h.held
  | wait w nohang window => exact ⟨h.acc.act (.wait w nohang window), hheld _ (held_reap h _ window hok)⟩
  | resumeWait window => exact ⟨h.acc.act (.resumeWait window), hheld _ (held_reap h _ window hok)⟩
  | other e =>
    refine ⟨h.acc.act (.other e), hheld _ ?_⟩
    dsimp only [ProcFds.step]
    split_ifs <;> exact h.held
  | acceptCb l => exact ⟨h.acc.act (L := L) (.acceptCb l), hheld _ (h.held.same (.of_fds rfl))⟩

theorem boot_inv (L : KernelLayout) (dev : ℕ) : (boot L).Counts dev where
  acc := accounted_boot L
  held := by
    have hcount : FdState.fb0Slots dev {} = 0 := Finset.sum_eq_zero fun _ _ => rfl
    exact ⟨fun _ => rfl, hcount.symm, iff_of_true rfl rfl⟩

/-- As long as descriptors of the framebuffer are only opened by name and closed one by one, the
console is held exactly while there are some. -/
theorem console_held_exactly (L : KernelLayout) (dev : ℕ) (es : List ProcFdEvent)
    (hes : Meets (step L dev) (fun k e => k.Counted L dev e) (boot L) es) :
    (run (step L dev) (boot L) es).Exact dev := by
  have hstep : ∀ (k : HoldSys) e, k.Counts dev → k.Counted L dev e → (k.step L dev e).Counts dev :=
    fun _ e h hok => h.step e hok
  have hinv := run_invariant hstep (boot_inv L dev) hes
  exact hinv.exact

/-- init opens the framebuffer, copies its standard input and closes the framebuffer. -/
def fbOnce : List ProcFdEvent :=
  [.call { pid := 1 } (.openat linuxORdwr (.ok "/dev/fb0") none), .call { pid := 1 } (.dupfd 0 0 false),
    .call { pid := 1 } (.close 3 fun _ => [])]

theorem fbOnce_exact : Meets (step layout0 9) (fun k e => k.Counted layout0 9 e) (boot layout0) fbOnce ∧
      (run (step layout0 9) (boot layout0) fbOnce).Exact 9 := by
  have hes : Meets (step layout0 9) (fun k e => k.Counted layout0 9 e) (boot layout0) fbOnce := by
    refine ⟨trivial, ?_, trivial, trivial⟩
    show ¬ ∃ i : FdIdx, _
    decide +kernel
  exact ⟨hes, console_held_exactly layout0 9 fbOnce hes⟩

/-- init opens the framebuffer, copies the descriptor and closes one of the two. -/
def fbTwice : List ProcFdEvent :=
  [.call { pid := 1 } (.openat linuxORdwr (.ok "/dev/fb0") none), .call { pid := 1 } (.dupfd 3 0 false),
    .call { pid := 1 } (.close 3 fun _ => [])]

/-- The counter is back at 0 and the text console is shown, but descriptor 4 is still open. -/
theorem copied_framebuffer_not_counted : ¬ ∀ (L : KernelLayout) (dev : ℕ) (es : List ProcFdEvent),
    (run (step L dev) (boot L) es).Exact dev := by
  intro h
  obtain ⟨hcount, -⟩ := h layout0 9 fbTwice
  have hhold : (run (step layout0 9) (boot layout0) fbTwice).con.hold = 0 := by decide +kernel
  have hslot : ((run (step layout0 9) (boot layout0) fbTwice).procs.fds.fds (0, 4)).isFb0 9 = true := by
    decide +kernel
  have hpos := fb0Slots_pos hslot
  omega

end HoldSys

end EdgeOS
