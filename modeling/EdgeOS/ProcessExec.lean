import EdgeOS.MemoryMap
import EdgeOS.TaskIds

namespace EdgeOS

open Lib TaskTable

/-!
What `do_sys_execve` does to a process: its name, its image and its signal state. Copying the arguments
in and closing descriptors is left to the callers of this layer.
-/

def execHandler (handler : ℕ) : ℕ := if handler ≠ linuxSigIgn then linuxSigDfl else handler

/-- What `process_prepare_exec_current` does to the record of the caller. -/
def Task.prepareExec (x : Task) : Task :=
  { x with
    image := { freshImage x.image.name with
      forkTf := x.image.forkTf, cwd := x.image.cwd, startPending := x.image.startPending }
    sig :=
      { sigintHandler := execHandler x.sig.sigintHandler
        sigalrmHandler := execHandler x.sig.sigalrmHandler
        sigtermHandler := execHandler x.sig.sigtermHandler
        sigchldHandler := execHandler x.sig.sigchldHandler
        sigaltstackFlags := 2 } }

/-- `process_prepare_exec_current`; nothing when it fails. -/
def processPrepareExecCurrent (L : KernelLayout) (s : ProcState) : Option ProcState :=
  match schedulerCurrentTask s.tab with
  | .slot i =>
    if i.val ≥ userAsMaxTasks then none
    else
      let d := s.pd i
      let mem := taskClearUserRegions L d s.mem i (s.tab.task (.slot i)).image.userHeapLimit
      let mem := mem.clear L d .heapExt i 0 Region.heapExt.size
      some { s with
        tab := s.tab.modify (.slot i) Task.prepareExec
        mem := mem.clear L d .bigpie i 0 Region.bigpie.size }
  | .idle _ => none

/-- What the path of an exec names: the inode (whether it is a directory, and its size), what
`elf_loader_probe` says of it, and what `elf_loader_exec` writes and returns (`main_load_hi`). -/
structure ExecFile where
  resolved : Option (Bool × UInt64)
  probe : Bool
  load : UserMem → UserMem × Option UInt64

/-- An exec returns an error to its caller, kills it, or enters the new image. -/
inductive ExecEnd
  | error (e : Errno)
  | killed
  | runs
  deriving DecidableEq, Repr

/-- The checks of `do_sys_execve` on the file, before it closes descriptors. -/
def ExecFile.check (f : ExecFile) : Option Errno :=
  match f.resolved with
  | none => some .enoent
  | some (dir, _) => if dir then some .eacces else if !f.probe then some .enoexec else none

/-- `strncpy` into `cur->name`. -/
def setName (s : TaskTable) (name : String) : TaskTable :=
  s.modify (schedulerCurrentTask s) fun x => { x with image := { x.image with name := name } }

def Task.startExec (m : UserMap) (x : Task) : Task :=
  { x with image := { x.image with
    userHeapBase := m.userHeapBase, userBrk := m.userBrk, userHeapLimit := m.userHeapLimit
    userMmapNext := m.userMmapNext } }

/-- `scheduler_kill_current_and_yield`. -/
def ProcSys.killAndYield (L : KernelLayout) (σ : ProcSys) (code : ℤ) : ProcSys :=
  (σ.step L (.exitCurrent code)).step L .yield

/-- `do_sys_execve` from where it sets the name. -/
def execProcess (L : KernelLayout) (σ : ProcSys) (name : String) (f : ExecFile) : ProcSys × ExecEnd :=
  let σ := σ.withTab (setName σ.proc.tab name)
  match f.check with
  | some e => (σ, .error e)
  | none =>
    match processPrepareExecCurrent L σ.proc with
    | none => (σ, .error .einval)
    | some proc =>
      let (mem, hi) := f.load proc.mem
      let size := (f.resolved.map Prod.snd).getD 0
      match hi.bind fun hi => execMap hi size with
      | none => (({ σ with proc := { proc with mem := mem } }).killAndYield L 127, .killed)
      | some m =>
        let tab := proc.tab.modify (schedulerCurrentTask proc.tab) (Task.startExec m)
        ({ σ with proc := { proc with tab := tab, mem := mem } }, .runs)

section Who

variable {L : KernelLayout} {σ : ProcSys}

theorem killAndYield_sameWho (code : ℤ) : SameWho σ.proc.tab (σ.killAndYield L code).proc.tab := by
  have hexit : SameWho σ.proc.tab (σ.step L (.exitCurrent code)).proc.tab := step_sameWho L σ rfl
  exact hexit.trans (step_sameWho L _ rfl)

theorem processPrepareExecCurrent_sameWho {s s' : ProcState} (h : processPrepareExecCurrent L s = some s') :
    SameWho s.tab s'.tab := by
  unfold processPrepareExecCurrent at h
  split at h
  · split at h
    · simp at h
    · simp only [Option.some.injEq] at h
      rw [← h]
      apply SameWho.modify
      intro x
      rfl
  · simp at h

theorem execProcess_sameWho (name : String) (f : ExecFile) :
    SameWho σ.proc.tab (execProcess L σ name f).1.proc.tab := by
  have hname : SameWho σ.proc.tab (setName σ.proc.tab name) := by
    unfold setName
    apply SameWho.modify
    intro x
    rfl
  unfold execProcess
  dsimp only
  split
  · exact hname
  split
  · exact hname
  rename_i proc hproc
  have hprep := hname.trans (processPrepareExecCurrent_sameWho hproc)
  have hkill := fun mem => @killAndYield_sameWho L ⟨{ proc with mem := mem }, σ.waiting⟩ 127
  split
  · apply hprep.trans
    exact hkill (f.load proc.mem).1
  apply hprep.trans
  apply SameWho.modify
  intro x
  rfl

end Who

end EdgeOS
