import EdgeOS.ProcessLifecycle

namespace EdgeOS

open Lib TaskTable

/-! ## Runs of the process layer -/

/-- The process side of the kernel, and for each task the wait call it is inside of. -/
structure ProcSys where
  proc : ProcState
  waiting : TaskRef → Option WaitFor

/-- What can happen: a call by the running task, a call made on behalf of another one
or from an interrupt, a task switch. -/
inductive ProcEvent
  | fork (tf : Option TrapFrame)
  | spawnExec (name : String) (elfLoaderExec : UserMem → UserMem × Bool)
  | exitCurrent (code : ℤ)
  | wait (w : WaitFor) (nohang : Bool)
  | resumeWait
  | killPid (pid code : ℤ)
  | killPgid (pgid code : ℤ)
  | sendSignal (pid sig : ℤ)
  | sendSignalPgid (pgid sig : ℤ)
  | adoptOrphans (fromPpid toPpid : ℤ)
  | setRunnable (pid : ℤ)
  | sigaction (sig handler : ℕ)
  | setpgid (pid pgid : ℤ)
  | setsid
  | yield

namespace ProcSys

def current (σ : ProcSys) : TaskRef := schedulerCurrentTask σ.proc.tab

/-- The running task is a process outside any wait call: idle tasks make no calls, and a
task inside a wait loop only goes on with it. -/
def free (σ : ProcSys) : Bool :=
  match σ.current with
  | .slot i => (σ.waiting (.slot i)).isNone
  | .idle _ => false

def withTab (σ : ProcSys) (tab : TaskTable) : ProcSys :=
  { σ with proc := { σ.proc with tab := tab } }

/-- One round of the running task's wait loop. A task that blocks stays inside the call;
a reaped slot is nobody's call any more. -/
def waitStep (σ : ProcSys) (w : WaitFor) (nohang : Bool) : ProcSys :=
  let (tab, res, reaped) := waitRound σ.proc.tab σ.current w nohang
  { proc := { σ.proc with tab := tab }
    waiting := fun t =>
      if t = σ.current then (if res = .blocked then some w else none)
      else if reaped = some t then none
      else σ.waiting t }

def step (L : KernelLayout) (σ : ProcSys) : ProcEvent → ProcSys
  | .fork tf => if σ.free then { σ with proc := (processFork L σ.proc tf).1 } else σ
  | .spawnExec name elf =>
    if σ.free then { σ with proc := (processSpawnExec L σ.proc name elf).1 } else σ
  | .exitCurrent code =>
    if σ.free then σ.withTab (processExitCurrent σ.proc.tab code) else σ
  | .wait w nohang => if σ.free then σ.waitStep w nohang else σ
  | .resumeWait =>
    match σ.waiting σ.current with
    | some w => σ.waitStep w false
    | none => σ
  | .killPid pid code => σ.withTab (processKillPid σ.proc.tab pid code).1
  | .killPgid pgid code => σ.withTab (processKillPgid σ.proc.tab pgid code).1
  | .sendSignal pid sig => σ.withTab (processSendSignal σ.proc.tab pid sig).1
  | .sendSignalPgid pgid sig => σ.withTab (processSendSignalPgid σ.proc.tab pgid sig).1
  | .adoptOrphans fromPpid toPpid =>
    σ.withTab (processAdoptOrphans σ.proc.tab fromPpid toPpid).1
  | .setRunnable pid => σ.withTab (processSetRunnable σ.proc.tab pid)
  | .sigaction sig handler =>
    if σ.free then σ.withTab (rtSigaction σ.proc.tab sig handler) else σ
  | .setpgid pid pgid => if σ.free then σ.withTab (processSetpgid σ.proc.tab pid pgid).1 else σ
  | .setsid => if σ.free then σ.withTab (processSetsid σ.proc.tab).1 else σ
  | .yield => σ.withTab (schedulerYield σ.proc.tab)

/-- The state after `process_init`. -/
def boot (L : KernelLayout) : ProcSys where
  proc := { tab := processInitTable
            pd := fun idx => taskBuildAddressSpace L idx true
            mem := fun _ _ _ => 0 }
  waiting _ := none

/-- What a step has to meet: no zombie creates a process, and a direct adoption does not
hand tasks to a zombie or to their own descendant. -/
def treeStepOk (σ : ProcSys) : ProcEvent → Prop
  | .fork _ | .spawnExec _ _ => (σ.proc.tab.task σ.current).state ≠ .zombie
  | .adoptOrphans fromPpid toPpid => AdoptOk σ.proc.tab fromPpid toPpid
  | _ => True

end ProcSys

/-! ## The process tree -/

/-- The process tree invariant: children lists are well formed and list exactly the tasks
with that parent, parent pids agree, the parent relation has no cycle, live tasks have
distinct positive pids, and no link leads to an unused slot. -/
def ProcessTreeInvariant (s : TaskTable) : Prop :=
  ∃ ch : TaskRef → List TaskRef,
    (∀ p, IsQueue (fun u => (s.task u).tree.siblingNext) (fun u => (s.task u).tree.siblingPrev)
      (s.task p).tree.firstChild (ch p).getLast? (ch p)) ∧
    (∀ p c, c ∈ ch p ↔ (s.task c).tree.parent = some p) ∧
    (∀ p c, c ∈ ch p → (s.task c).ppid = (s.task p).pid) ∧
    Acyclic (fun u => (s.task u).tree.parent) ∧
    (∀ i, Live s (.slot i) → 0 < (s.task (.slot i)).pid) ∧
    (∀ i j, Live s (.slot i) → Live s (.slot j) → (s.task (.slot i)).pid = (s.task (.slot j)).pid → i = j) ∧
    (∀ t u, (s.task t).tree.parent = some u ∨ (s.task t).tree.firstChild = some u ∨
      (s.task t).tree.siblingPrev = some u ∨ (s.task t).tree.siblingNext = some u → Live s u)

theorem TreeInv.processTreeInvariant {s : TaskTable} (h : TreeInv s) : ProcessTreeInvariant s := by
  obtain ⟨hf, ch, hch⟩ := h
  refine ⟨ch, hch.children, hch.mem_iff, fun p c hc => ?_, hch.acyclic,
    fun i hi => (hf.pids i hi).1, hf.distinct, fun t u hu => ?_⟩
  · have hp : (s.task c).tree.parent = some p := (hch.mem_iff p c).mp hc
    rw [hf.ppid c, hp]
    rfl
  · rcases hu with hu | hu | hu | hu
    · exact (hf.linked t u hu).2.2.live
    · have hmem : u ∈ ch t := List.mem_of_head? ((hch.first_eq t).symm.trans hu)
      exact (hf.linked u t ((hch.mem_iff t u).mp hmem)).2.1
    · obtain ⟨p, -, hp, -⟩ := hch.sibling_parent (c := t) (.inl hu)
      exact (hf.linked u p hp).2.1
    · obtain ⟨p, -, hp, -⟩ := hch.sibling_parent (c := t) (.inr hu)
      exact (hf.linked u p hp).2.1

theorem processInitTable_slot (i : Fin procMaxTasks) (hi : i ≠ 0) : processInitTable.task (.slot i) = {} := by
  have hne : TaskRef.slot i ≠ .slot bootSlot := fun he => hi (TaskRef.slot.inj he)
  simp [processInitTable, schedulerSetBootCurrent, schedulerInit, TaskTable.modify, hne, TaskTable.modifyCpu]

theorem processInitTable_idle (c : CpuId) : processInitTable.task (.idle c) =
      { state := .running, isIdle := true, assignedCpu := c.val } := by
  simp [processInitTable, schedulerSetBootCurrent, schedulerInit, TaskTable.modify, TaskTable.modifyCpu]

theorem processInitTable_init :
    (processInitTable.task (.slot 0)).state = .running ∧ (processInitTable.task (.slot 0)).pid = 1 ∧
    (processInitTable.task (.slot 0)).ppid = 0 ∧ (processInitTable.task (.slot 0)).tree = {} ∧
    (processInitTable.task (.slot 0)).isIdle = false := by
  decide

theorem processInitTable_tree (u : TaskRef) : (processInitTable.task u).tree = {} := by
  rcases u with i | c
  · rcases eq_or_ne i 0 with rfl | hi
    · exact processInitTable_init.2.2.2.1
    · rw [processInitTable_slot i hi]
  · rw [processInitTable_idle]

theorem processInitTable_live {i : Fin procMaxTasks} (h : Live processInitTable (.slot i)) : i = 0 := by
  by_contra hi
  apply h
  rw [processInitTable_slot i hi]

theorem processInitTable_treeInv : TreeInv processInitTable := by
  obtain ⟨hstate, hpid, hppid, htree, hidle⟩ := processInitTable_init
  refine ⟨⟨fun c => ?_, fun c p hp => ?_, fun i hi => ?_, fun i j hi hj _ => ?_, fun i hi _ => ?_,
    by decide, fun i => ?_, fun c => ?_, fun c => ?_, ?_⟩, fun _ => [], ?_⟩
  · rw [processInitTable_tree]
    rcases c with i | c
    · rcases eq_or_ne i 0 with rfl | hi
      · exact hppid
      · rw [processInitTable_slot i hi]
        rfl
    · rw [processInitTable_idle]
      rfl
  · rw [processInitTable_tree] at hp
    simp at hp
  · obtain rfl := processInitTable_live hi
    rw [hpid]
    exact ⟨by decide, by decide⟩
  · rw [processInitTable_live hi, processInitTable_live hj]
  · obtain rfl := processInitTable_live hi
    rw [hstate, htree]
    simp
  · rcases eq_or_ne i 0 with rfl | hi
    · exact hidle
    · rw [processInitTable_slot i hi]
  · rw [processInitTable_idle]
    simp [TaskState.Active]
  · refine ⟨c, ?_⟩
    revert c
    decide
  · show (processInitTable.task (schedulerCurrentTask processInitTable)).state ≠ .unused
    decide
  · exact IsForest.empty (fun u => by rw [processInitTable_tree])
      (fun u => by rw [processInitTable_tree]) (fun u => by rw [processInitTable_tree])
      fun u => by rw [processInitTable_tree]

theorem taskAlloc_some {s : TaskTable} {i : Fin procMaxTasks} (h : taskAlloc s = some i) :
    i.val < userAsMaxTasks ∧ (s.task (.slot i)).state = .unused := by
  simpa using List.find?_some h

namespace ProcSys

/-- What every step keeps: the tree invariant, and only processes are inside a wait. -/
structure TreeKept (σ : ProcSys) : Prop where
  tree : TreeInv σ.proc.tab
  waiters : ∀ t w, σ.waiting t = some w → IsSlot t

variable {L : KernelLayout} {σ : ProcSys}

theorem free_slot (h : σ.free = true) : ∃ i, σ.current = .slot i ∧ σ.waiting (.slot i) = none := by
  unfold free at h
  split at h
  · exact ⟨_, ‹_›, by simpa using h⟩
  · simp at h

/-- A running process that is no zombie can be made a parent. -/
theorem TreeKept.canParent (h : σ.TreeKept) {i : Fin procMaxTasks} (hi : σ.current = .slot i)
    (hz : (σ.proc.tab.task σ.current).state ≠ .zombie) : CanParent σ.proc.tab (.slot i) := by
  refine ⟨⟨i, rfl⟩, ?_, hi ▸ hz⟩
  rw [← hi]
  exact h.tree.1.current

theorem TreeKept.fork (h : σ.TreeKept) (hz : (σ.proc.tab.task σ.current).state ≠ .zombie)
    (tf : Option TrapFrame) : TreeInv (processFork L σ.proc tf).1.tab := by
  unfold processFork
  split
  · rename_i parent tf hcur
    split
    · exact h.tree
    rename_i child halloc
    split_ifs
    · exact h.tree
    · exact h.tree.forkTable (taskAlloc_some halloc).2 (h.canParent hcur hz) tf
  · exact h.tree

theorem TreeKept.spawnExec (h : σ.TreeKept) (hz : (σ.proc.tab.task σ.current).state ≠ .zombie)
    (name : String) (elf : UserMem → UserMem × Bool) :
    TreeInv (processSpawnExec L σ.proc name elf).1.tab := by
  unfold processSpawnExec
  split
  · rename_i parent hcur
    split
    · exact h.tree
    · rename_i child halloc
      exact h.tree.spawnTable (taskAlloc_some halloc).2 (h.canParent hcur hz) name _
  · exact h.tree

theorem TreeKept.waitStep (h : σ.TreeKept) (hcur : IsSlot σ.current) (w : WaitFor) (nohang : Bool) :
    (σ.waitStep w nohang).TreeKept := by
  refine ⟨h.tree.waitRound hcur w nohang, fun t w' ht => ?_⟩
  unfold ProcSys.waitStep at ht
  dsimp only at ht
  split_ifs at ht with h1 h2 h3
  · exact h1 ▸ hcur
  · exact h.waiters t w' ht

theorem TreeKept.withTab (h : σ.TreeKept) {tab : TaskTable} (ht : TreeInv tab) : (σ.withTab tab).TreeKept :=
  ⟨ht, h.waiters⟩

theorem TreeKept.step (h : σ.TreeKept) (e : ProcEvent) (hok : σ.treeStepOk e) : (σ.step L e).TreeKept := by
  cases e with
  | fork tf =>
    unfold ProcSys.step
    split_ifs
    · exact ⟨h.fork hok tf, h.waiters⟩
    · exact h
  | spawnExec name elf =>
    unfold ProcSys.step
    split_ifs
    · exact ⟨h.spawnExec hok name elf, h.waiters⟩
    · exact h
  | exitCurrent code =>
    unfold ProcSys.step
    split_ifs with hfree
    · obtain ⟨i, hi, -⟩ := free_slot hfree
      exact h.withTab (h.tree.exitCurrent ⟨i, hi⟩ code)
    · exact h
  | wait w nohang =>
    unfold ProcSys.step
    split_ifs with hfree
    · obtain ⟨i, hi, -⟩ := free_slot hfree
      exact h.waitStep ⟨i, hi⟩ w nohang
    · exact h
  | resumeWait =>
    rcases hw : σ.waiting σ.current with _ | w
    · simp only [ProcSys.step, hw]
      exact h
    · simp only [ProcSys.step, hw]
      exact h.waitStep (h.waiters _ _ hw) w false
  | killPid pid code => exact h.withTab (h.tree.killPid pid code)
  | killPgid pgid code => exact h.withTab (h.tree.killPgid pgid code)
  | sendSignal pid sig => exact h.withTab (h.tree.sendSignal pid sig)
  | sendSignalPgid pgid sig => exact h.withTab (h.tree.sendSignalPgid pgid sig)
  | adoptOrphans fromPpid toPpid => exact h.withTab (h.tree.adoptOrphans_spec hok).1
  | setRunnable pid => exact h.withTab (h.tree.setRunnable pid)
  | sigaction sig handler =>
    unfold ProcSys.step
    split_ifs
    · apply h.withTab
      apply h.tree.modify
      exact fun _ => ⟨rfl, rfl, rfl, rfl, rfl⟩
    · exact h
  | setpgid pid pgid =>
    unfold ProcSys.step
    split_ifs
    · exact h.withTab (h.tree.setpgid pid pgid)
    · exact h
  | setsid =>
    unfold ProcSys.step
    split_ifs
    · exact h.withTab h.tree.setsid
    · exact h
  | yield => exact h.withTab h.tree.yield

theorem boot_inv : (boot L).TreeKept := ⟨processInitTable_treeInv, fun _ _ h => by simp [boot] at h⟩

end ProcSys

/-- The process tree invariant holds after every run in which no zombie forks or spawns
and no adoption hands tasks to a zombie or to their own descendant. -/
theorem process_tree_invariant (L : KernelLayout) (es : List ProcEvent)
    (hok : Meets (ProcSys.step L) ProcSys.treeStepOk (ProcSys.boot L) es) :
    ProcessTreeInvariant (run (ProcSys.step L) (ProcSys.boot L) es).proc.tab := by
  have h : (run (ProcSys.step L) (ProcSys.boot L) es).TreeKept :=
    run_invariant (I := ProcSys.TreeKept) (fun _ e h hok => h.step e hok) ProcSys.boot_inv hok
  exact h.tree.processTreeInvariant

/-- A child forks and exits; init adopts the grandchild and reaps the child. -/
def orphanRun : List ProcEvent :=
  [.spawnExec "sh" fun m => (m, true), .yield, .fork (some {}), .setRunnable 3, .exitCurrent 0,
    .yield, .wait .any false]

theorem orphanRun_tree : Meets (ProcSys.step { kernelEnd := 0x48000000 }) ProcSys.treeStepOk
        (ProcSys.boot { kernelEnd := 0x48000000 }) orphanRun ∧
      ProcessTreeInvariant (run (ProcSys.step { kernelEnd := 0x48000000 })
        (ProcSys.boot { kernelEnd := 0x48000000 }) orphanRun).proc.tab := by
  have h : Meets (ProcSys.step { kernelEnd := 0x48000000 }) ProcSys.treeStepOk
      (ProcSys.boot { kernelEnd := 0x48000000 }) orphanRun := by
    refine ⟨?_, trivial, ?_, trivial, trivial, trivial, trivial, trivial⟩
    · show (TaskTable.task _ _).state ≠ .zombie
      decide +kernel
    · show (TaskTable.task _ _).state ≠ .zombie
      decide +kernel
  exact ⟨h, process_tree_invariant _ _ h⟩

/-- A task killed by a signal it sends to itself stays current until it yields; its fork
then makes a child of a zombie, and reaping the zombie leaves the child's link behind. -/
def zombieForkRun : List ProcEvent :=
  [.spawnExec "sh" fun m => (m, true), .yield, .sendSignal 2 9, .fork (some {}), .yield,
    .wait .any false]

theorem zombieFork_breaks_tree : ¬ ProcessTreeInvariant
    (run (ProcSys.step { kernelEnd := 0x48000000 }) (ProcSys.boot { kernelEnd := 0x48000000 })
      zombieForkRun).proc.tab := by
  rintro ⟨-, -, -, -, -, -, -, hlive⟩
  refine hlive (.slot 2) (.slot 1) (.inl ?_) ?_ <;> decide +kernel

end EdgeOS
