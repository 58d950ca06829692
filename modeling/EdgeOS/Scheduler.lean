import EdgeOS.Task

namespace EdgeOS

/-! The scheduler, `src/sys/scheduler.c`. -/

open TaskTable

def cpuById (id : ℕ) : CpuId := if h : id < schedMaxCpus then ⟨id, h⟩ else 0

def schedulerCpuId (s : TaskTable) : CpuId := cpuById s.localCpuId

def rqPopHeadLocked (s : TaskTable) (c : CpuId) : TaskTable × Option TaskRef :=
  match (s.cpu c).rqHead with
  | none => (s, none)
  | some t =>
    let s := s.modifyCpu c fun x => { x with rqHead := (s.task t).rq.next }
    let s := match (s.cpu c).rqHead with
      | some h => s.modifyRq h fun x => { x with prev := none }
      | none => s.modifyCpu c fun x => { x with rqTail := none }
    (s.modifyRq t fun _ => { next := none, prev := none, onRunqueue := false }, some t)

/-- `rq_push_tail_locked`. A task already queued is only reported. -/
def rqPushTailLocked (s : TaskTable) (c : CpuId) (t : TaskRef) : TaskTable :=
  if (s.task t).rq.onRunqueue then s else
  let s := s.modifyRq t fun x => { x with prev := (s.cpu c).rqTail, next := none }
  let s := match (s.cpu c).rqTail with
    | some u => s.modifyRq u fun x => { x with next := some t }
    | none => s.modifyCpu c fun x => { x with rqHead := some t }
  let s := s.modifyCpu c fun x => { x with rqTail := some t }
  s.modifyRq t fun x => { x with onRunqueue := true }

/-- `rq_remove_locked`. The caller picks the queue; nothing checks that `t` is on it. -/
def rqRemoveLocked (s : TaskTable) (c : CpuId) (t : TaskRef) : TaskTable :=
  if !(s.task t).rq.onRunqueue then s else
  let s := match (s.task t).rq.prev with
    | some p => s.modifyRq p fun x => { x with next := (s.task t).rq.next }
    | none => s.modifyCpu c fun x => { x with rqHead := (s.task t).rq.next }
  let s := match (s.task t).rq.next with
    | some n => s.modifyRq n fun x => { x with prev := (s.task t).rq.prev }
    | none => s.modifyCpu c fun x => { x with rqTail := (s.task t).rq.prev }
  s.modifyRq t fun _ => { prev := none, next := none, onRunqueue := false }

/-- The loop of `pick_next_runnable_locked`. Every pop clears a link, so more rounds
than there are tasks are never needed. -/
def pickNextLoop : ℕ → TaskTable → CpuId → TaskTable × Option TaskRef
  | 0, s, c => (s, (s.cpu c).idle)
  | n + 1, s, c =>
    match rqPopHeadLocked s c with
    | (s, none) => (s, (s.cpu c).idle)
    | (s, some t) =>
      if (s.task t).state = .runnable then (s, some t) else pickNextLoop n s c

def pickNextRunnableLocked (s : TaskTable) (c : CpuId) : TaskTable × Option TaskRef :=
  pickNextLoop (procMaxTasks + schedMaxCpus + 2) s c

/-- The tables as `scheduler_init` leaves them at boot. -/
def schedulerInit : TaskTable where
  task
    | .slot _ => {}
    | .idle c => { state := .running, isIdle := true, assignedCpu := c.val }
  cpu c := { current := some (.idle c), idle := some (.idle c) }
  localCpuId := 0
  nextPid := 0

def schedulerCurrentTask (s : TaskTable) : TaskRef :=
  let cpu := s.cpu (schedulerCpuId s)
  (cpu.current.or cpu.idle).getD (.idle 0)

def schedulerSetBootCurrent (s : TaskTable) (t : TaskRef) : TaskTable :=
  let c := schedulerCpuId s
  let s := if (s.task t).rq.onRunqueue then rqRemoveLocked s c t else s
  let s := s.modify t fun x => { x with assignedCpu := c.val, state := .running }
  s.modifyCpu c fun x => { x with current := some t }

def schedulerTaskMakeRunnable (s : TaskTable) (t : TaskRef) (cpuId : ℕ) : TaskTable :=
  if (s.task t).isIdle then s else
  let cpuId := if schedMaxCpus ≤ cpuId then 0 else cpuId
  let oldCpuId := if 0 ≤ (s.task t).assignedCpu then (s.task t).assignedCpu.toNat else cpuId
  let s := if (s.task t).rq.onRunqueue ∧ oldCpuId ≠ cpuId then
      rqRemoveLocked s (cpuById oldCpuId) t else s
  let c := cpuById cpuId
  let s := s.modify t fun x => { x with assignedCpu := cpuId }
  let s := if (s.task t).rq.onRunqueue then rqRemoveLocked s c t else s
  let s := s.modify t fun x => { x with state := .runnable }
  rqPushTailLocked s c t

/-- The common body of the four functions below: take `t` off the queue of the cpu it
is assigned to, then set its state and assignment. -/
def schedulerTaskSetState (st : TaskState) (acpu : ℕ → ℤ) (s : TaskTable) (t : TaskRef) : TaskTable :=
  if (s.task t).isIdle then s else
  let cpuId := if 0 ≤ (s.task t).assignedCpu then (s.task t).assignedCpu.toNat
    else (schedulerCpuId s).val
  let s := if (s.task t).rq.onRunqueue then rqRemoveLocked s (cpuById cpuId) t else s
  s.modify t fun x => { x with assignedCpu := acpu cpuId, state := st }

def schedulerTaskSetBlocked := schedulerTaskSetState .blocked Nat.cast

def schedulerTaskSetZombie := schedulerTaskSetState .zombie Nat.cast

def schedulerTaskSetUnused := schedulerTaskSetState .unused fun _ => -1

def schedulerTaskSetRunning := schedulerTaskSetState .running Nat.cast

/-- Does `schedule_common` put the outgoing task back on the local queue? -/
def requeues (s : TaskTable) (prev : TaskRef) (tickMode : Bool) : Bool :=
  !(s.task prev).isIdle &&
    ((s.task prev).state = .running || (tickMode && (s.task prev).state = .runnable))

/-- `schedule_common`. The queue position of `prev` is the local cpu's, whatever its
`assigned_cpu` says. -/
def scheduleCommon (s : TaskTable) (tickMode : Bool) : TaskTable :=
  let c := schedulerCpuId s
  match (s.cpu c).current.or (s.cpu c).idle with
  | none => s
  | some prev =>
    let s := if requeues s prev tickMode then
        rqPushTailLocked (s.modify prev fun x => { x with state := .runnable }) c prev else s
    let (s, next) := pickNextRunnableLocked s c
    let s := match next with
      | some n =>
        if (s.task n).isIdle then s
        else s.modify n fun x =>
          { x with assignedCpu := c.val, state := .running, needResched := false }
      | none => s
    s.modifyCpu c fun x => { x with current := next.or x.idle }

def schedulerYield (s : TaskTable) : TaskTable := scheduleCommon s false

end EdgeOS
