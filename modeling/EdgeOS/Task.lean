import Mathlib.Data.Fintype.List
import Mathlib.Data.Fintype.Sum
import Mathlib.Data.List.FinRange
import Mathlib.Logic.Function.Basic

namespace EdgeOS

/-!
The task table: `task_t` of `include/sys/process.h`, `scheduler_cpu_t` of
`include/sys/scheduler.h`, and the static tables that hold them (`g_tasks`,
`g_idle_tasks`, `g_sched_cpus`, `g_local_cpu_id`, `g_next_pid`).
-/

open Function

abbrev procMaxTasks : ℕ := 64

abbrev schedMaxCpus : ℕ := 8

abbrev CpuId := Fin schedMaxCpus

theorem procMaxTasks_pos : 0 < procMaxTasks := by decide

theorem procMaxTasks_gt_one : 1 < procMaxTasks := by decide

theorem schedMaxCpus_pos : 0 < schedMaxCpus := by decide

def bootSlot : Fin procMaxTasks := ⟨0, procMaxTasks_pos⟩

def secondSlot : Fin procMaxTasks := ⟨1, procMaxTasks_gt_one⟩

def bootCpu : CpuId := ⟨0, schedMaxCpus_pos⟩

/-- `task_state_t`. -/
inductive TaskState
  | unused | runnable | running | blocked | zombie
  deriving DecidableEq, Repr

/-- A `task_t *` that is not null: a slot of `g_tasks`, or one of `g_idle_tasks`. -/
inductive TaskRef
  | slot (i : Fin procMaxTasks)
  | idle (c : CpuId)
  deriving DecidableEq, Repr

/-- No list without repetition has more nodes than there are task records. -/
theorem TaskRef.length_le {l : List TaskRef} (h : l.Nodup) : l.length ≤ procMaxTasks + schedMaxCpus := by
  let f : TaskRef → Fin procMaxTasks ⊕ CpuId
    | .slot i => .inl i
    | .idle c => .inr c
  have hf : Function.Injective f := by
    intro a b hab
    cases a <;> cases b <;> simp_all [f]
  have hle := (h.map hf).length_le_card
  rw [List.length_map] at hle
  refine hle.trans (le_of_eq ?_)
  rw [Fintype.card_sum, Fintype.card_fin, Fintype.card_fin]

/-- The fields of `edge_trap_frame_t` that `process_fork` touches; `rest` stands for
the registers it copies unread. -/
structure TrapFrame where
  rax : ℕ := 0
  rflags : ℕ := 0
  rest : List ℕ := []
  deriving DecidableEq, Repr

/-- `edge_user_vma_t`. -/
structure UserVma where
  start : ℕ := 0
  stop : ℕ := 0
  prot : ℕ := 0
  flags : ℕ := 0
  deriving DecidableEq, Repr

structure RqLinks where
  onRunqueue : Bool := false
  prev : Option TaskRef := none
  next : Option TaskRef := none
  deriving DecidableEq, Repr

@[ext] structure TreeLinks where
  parent : Option TaskRef := none
  firstChild : Option TaskRef := none
  siblingPrev : Option TaskRef := none
  siblingNext : Option TaskRef := none
  deriving DecidableEq, Repr

/-- `uid`, `gid`, `euid`, `egid` and `umask`. -/
structure Cred where
  uid : ℕ := 0
  gid : ℕ := 0
  euid : ℕ := 0
  egid : ℕ := 0
  umask : ℕ := 0
  deriving DecidableEq, Repr

/-- Signal handlers, pending flags and the alternate stack. -/
structure Signals where
  sigintHandler : ℕ := 0
  sigalrmHandler : ℕ := 0
  sigtermHandler : ℕ := 0
  sigchldHandler : ℕ := 0
  sigintPending : Bool := false
  sigalrmPending : Bool := false
  sigtermPending : Bool := false
  sigchldPending : Bool := false
  sigaltstackSp : ℕ := 0
  sigaltstackSize : ℕ := 0
  sigaltstackFlags : ℕ := 0
  deriving DecidableEq, Repr

/-- The user image: name, heap and stack bounds, mappings, the saved frame of a fork. -/
structure UserImage where
  name : String := ""
  forkTf : TrapFrame := {}
  userStackTop : ℕ := 0
  userHeapBase : ℕ := 0
  userBrk : ℕ := 0
  userHeapLimit : ℕ := 0
  userMmapNext : ℕ := 0
  userVmas : List UserVma := []
  fsBase : ℕ := 0
  cwd : String := ""
  startPending : Bool := false
  deriving DecidableEq, Repr

/-- `task_t`, its fields grouped by who writes them. A default value is the all-zero
record that `memset` leaves. -/
structure Task where
  pid : ℤ := 0
  ppid : ℤ := 0
  exitCode : ℤ := 0
  state : TaskState := .unused
  pgid : ℤ := 0
  sid : ℤ := 0
  cttyKind : ℤ := 0
  cttyId : ℤ := 0
  image : UserImage := {}
  cred : Cred := {}
  sig : Signals := {}
  needResched : Bool := false
  isIdle : Bool := false
  assignedCpu : ℤ := 0
  rq : RqLinks := {}
  tree : TreeLinks := {}
  deriving DecidableEq, Repr

/-- `scheduler_cpu_t`, less the lock: every operation below is atomic under it. -/
structure SchedulerCpu where
  current : Option TaskRef := none
  idle : Option TaskRef := none
  rqHead : Option TaskRef := none
  rqTail : Option TaskRef := none
  deriving DecidableEq, Repr

structure TaskTable where
  task : TaskRef → Task
  cpu : CpuId → SchedulerCpu
  localCpuId : ℕ
  nextPid : ℤ

namespace TaskTable

def modify (s : TaskTable) (t : TaskRef) (f : Task → Task) : TaskTable :=
  { s with task := Function.update s.task t (f (s.task t)) }

def modifyRq (s : TaskTable) (t : TaskRef) (f : RqLinks → RqLinks) : TaskTable :=
  s.modify t fun x => { x with rq := f x.rq }

def modifyTree (s : TaskTable) (t : TaskRef) (f : TreeLinks → TreeLinks) : TaskTable :=
  s.modify t fun x => { x with tree := f x.tree }

def modifyCpu (s : TaskTable) (c : CpuId) (f : SchedulerCpu → SchedulerCpu) : TaskTable :=
  { s with cpu := Function.update s.cpu c (f (s.cpu c)) }

variable (s : TaskTable) (t u : TaskRef) (f : Task → Task) (c d : CpuId)
  (g : SchedulerCpu → SchedulerCpu)

theorem modify_task : (s.modify t f).task u = if u = t then f (s.task t) else s.task u := by
  simp [modify, update_apply]

@[simp] theorem modify_task_self : (s.modify t f).task t = f (s.task t) := by simp [modify]

variable {t u} in
@[simp] theorem modify_task_ne (h : u ≠ t) : (s.modify t f).task u = s.task u := by
  simp [modify, h]

@[simp] theorem modify_cpu : (s.modify t f).cpu = s.cpu := rfl
@[simp] theorem modify_localCpuId : (s.modify t f).localCpuId = s.localCpuId := rfl
@[simp] theorem modify_nextPid : (s.modify t f).nextPid = s.nextPid := rfl
@[simp] theorem modifyCpu_task : (s.modifyCpu c g).task = s.task := rfl
@[simp] theorem modifyCpu_localCpuId : (s.modifyCpu c g).localCpuId = s.localCpuId := rfl
@[simp] theorem modifyCpu_nextPid : (s.modifyCpu c g).nextPid = s.nextPid := rfl

theorem modifyCpu_cpu : (s.modifyCpu c g).cpu d = if d = c then g (s.cpu c) else s.cpu d := by
  simp [modifyCpu, update_apply]

@[simp] theorem modifyCpu_cpu_self : (s.modifyCpu c g).cpu c = g (s.cpu c) := by simp [modifyCpu]

variable {c d} in
@[simp] theorem modifyCpu_cpu_ne (h : d ≠ c) : (s.modifyCpu c g).cpu d = s.cpu d := by
  simp [modifyCpu, h]

/-- A write that leaves a projection of the task alone is not seen through it. -/
theorem modify_proj {α : Type*} (p : Task → α) (h : ∀ x, p (f x) = p x) : p ((s.modify t f).task u) = p (s.task u) := by
  rw [modify_task]
  split_ifs with hu
  · rw [hu, h]
  · rfl

@[simp] theorem modifyRq_cpu (h : RqLinks → RqLinks) : (s.modifyRq t h).cpu = s.cpu := rfl

theorem modifyRq_rq (h : RqLinks → RqLinks) :
    ((s.modifyRq t h).task u).rq = if u = t then h (s.task t).rq else (s.task u).rq := by
  rw [modifyRq, modify_task]
  split_ifs <;> rfl

@[simp] theorem modifyTree_cpu (h : TreeLinks → TreeLinks) : (s.modifyTree t h).cpu = s.cpu := rfl

theorem modifyTree_tree (h : TreeLinks → TreeLinks) :
    ((s.modifyTree t h).task u).tree = if u = t then h (s.task t).tree else (s.task u).tree := by
  rw [modifyTree, modify_task]
  split_ifs <;> rfl

/-- The slots of `g_tasks` in index order, searched for the first match. -/
def findSlot (p : Task → Bool) : Option (Fin procMaxTasks) :=
  (List.finRange procMaxTasks).find? fun i => p (s.task (.slot i))

theorem findSlot_some {p : Task → Bool} {i : Fin procMaxTasks} (h : s.findSlot p = some i) :
    p (s.task (.slot i)) = true := by
  simpa using List.find?_some h

theorem findSlot_none {p : Task → Bool} (h : s.findSlot p = none) (i : Fin procMaxTasks) :
    p (s.task (.slot i)) = false := by
  have := List.find?_eq_none.mp h i (List.mem_finRange i)
  simpa using this

end TaskTable

end EdgeOS
