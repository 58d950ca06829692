import Mathlib.Algebra.BigOperators.Fin
import EdgeOS.RunQueue
import EdgeOS.UserCopy

namespace EdgeOS

open Lib TaskTable Function List EdgeOS.Task SchedulerCpu

/-! ## `sched_setaffinity` and the interleavings of scheduler operations -/

/-- `(int)` of a 64-bit argument. -/
def toCInt (x : UInt64) : ℤ := (BitVec.ofNat 32 x.toNat).toInt

def leValue : List UInt8 → ℕ
  | [] => 0
  | b :: bs => b.toNat + 256 * leValue bs

def taskByPidMutableLocal (s : TaskTable) (pid : ℤ) : Option TaskRef :=
  if pid ≤ 0 then some (schedulerCurrentTask s)
  else (s.findSlot fun t => t.state ≠ .unused ∧ t.pid = pid).map .slot

/-- The loop over the mask in `do_sys_sched_setaffinity`: the lowest set bit, or `64`. -/
def lowestBit (m : ℕ) : ℕ := ((List.range 64).find? fun i => m.testBit i).getD 64

/-- The task and the cpu `do_sys_sched_setaffinity` writes, when it gets that far. -/
def affinityTarget (s : TaskTable) (mem : Memory) (pidU cpusetsizeU maskU : UInt64) : Except ℤ (TaskRef × ℕ) :=
  let t := taskByPidMutableLocal s (toCInt pidU)
  if maskU = 0 ∨ cpusetsizeU = 0 then .error (-22)
  else match t with
    | none => .error (-3)
    | some t =>
      let n := if cpusetsizeU > 8 then 8 else cpusetsizeU
      match copyFromUser mem maskU n with
      | none => .error (-14)
      | some bytes =>
        let m := leValue bytes
        if m = 0 then .error (-22)
        else
          let cpu := lowestBit m
          .ok (t, if cpu ≥ schedMaxCpus then 0 else cpu)

/-- `do_sys_sched_setaffinity`. Only the field is written: the task stays where it is
queued. -/
def doSysSchedSetaffinity (s : TaskTable) (mem : Memory) (pidU cpusetsizeU maskU : UInt64) : TaskTable × ℤ :=
  match affinityTarget s mem pidU cpusetsizeU maskU with
  | .error e => (s, e)
  | .ok (t, cpu) => (s.modify t fun x => { x with assignedCpu := cpu }, 0)

/-- The operations the scheduler offers, with their arguments. `assignPid` is the process
layer naming a slot: `sched_setaffinity` looks tasks up by pid. -/
inductive SchedOp
  | assignPid (t : TaskRef) (pid : ℤ)
  | makeRunnable (t : TaskRef) (cpuId : ℕ)
  | setBlocked (t : TaskRef)
  | setZombie (t : TaskRef)
  | setUnused (t : TaskRef)
  | setRunning (t : TaskRef)
  | setBootCurrent (t : TaskRef)
  | schedule (tickMode : Bool)
  | setaffinity (mem : Memory) (pidU cpusetsizeU maskU : UInt64)

/-- An operation together with the cpu that runs it. -/
structure SchedEvent where
  cpu : CpuId
  op : SchedOp

def SchedOp.apply (s : TaskTable) : SchedOp → TaskTable
  | .assignPid t pid => s.modify t fun x => { x with pid := pid }
  | .makeRunnable t cpuId => schedulerTaskMakeRunnable s t cpuId
  | .setBlocked t => schedulerTaskSetBlocked s t
  | .setZombie t => schedulerTaskSetZombie s t
  | .setUnused t => schedulerTaskSetUnused s t
  | .setRunning t => schedulerTaskSetRunning s t
  | .setBootCurrent t => schedulerSetBootCurrent s t
  | .schedule tickMode => scheduleCommon s tickMode
  | .setaffinity mem pidU cpusetsizeU maskU =>
    (doSysSchedSetaffinity s mem pidU cpusetsizeU maskU).1

/-- The cpu that executes the operation sees its own id in `g_local_cpu_id`. -/
def schedStep (s : TaskTable) (e : SchedEvent) : TaskTable :=
  e.op.apply { s with localCpuId := e.cpu.val }

/-! ## The invariant -/

/-- What the queue code relies on, for the lists `q`, less the owner of a queue. -/
structure RqBase (q : CpuId → List TaskRef) (s : TaskTable) : Prop extends Queues q s where
  runnable : ∀ c, ∀ t ∈ q c, (s.task t).state = .runnable
  idle : ∀ c, ∃ t, (s.cpu c).idle = some t ∧ (s.task t).isIdle = true
  current : ∀ c, (s.cpu c).current ≠ none

/-- A queued task is on the queue of the cpu it is assigned to. -/
structure RqInv (q : CpuId → List TaskRef) (s : TaskTable) : Prop extends RqBase q s where
  owner : ∀ c, ∀ t ∈ q c, (s.task t).assignedCpu = c.val

/-- The run-queue invariant: every queue is a well-formed doubly linked list; a task is
flagged iff it occurs exactly once in all queues together, on the queue of its
`assigned_cpu`; every queued task is runnable; no `current` is null. -/
def RunQueueInvariant (s : TaskTable) : Prop :=
  ∃ q : CpuId → List TaskRef, (∀ c, IsQueue (fun t => (s.task t).rq.next) (fun t => (s.task t).rq.prev)
      (s.cpu c).rqHead (s.cpu c).rqTail (q c)) ∧
    (∀ t, (s.task t).rq.onRunqueue = true ↔ (∑ c, (q c).count t = 1 ∧ ∀ c, t ∈ q c → (s.task t).assignedCpu = c.val)) ∧
    (∀ t, (s.task t).rq.onRunqueue = false → ∀ c, t ∉ q c) ∧
    (∀ c, ∀ t ∈ q c, (s.task t).state = .runnable) ∧
    (∀ c, (s.cpu c).current ≠ none)

/-- What an operation has to meet, in the state before it: `sched_setaffinity` must not
move a queued task, `scheduler_set_boot_current` must not unlink the end of another
cpu's queue, and a task that goes back on a nonempty local queue must be assigned to it. -/
def SchedOp.Ok (s : TaskTable) : SchedOp → Prop
  | .setaffinity mem pidU cpusetsizeU maskU =>
    ∀ p ∈ (affinityTarget s mem pidU cpusetsizeU maskU).toOption,
      (s.task p.1).rq.onRunqueue = true → (s.task p.1).assignedCpu = p.2
  | .setBootCurrent t =>
    (s.task t).rq.onRunqueue = true → (s.task t).assignedCpu = (schedulerCpuId s).val ∨
      (s.task t).rq.prev ≠ none ∧ (s.task t).rq.next ≠ none
  | .schedule tickMode =>
    let c := schedulerCpuId s
    ∀ prev ∈ (s.cpu c).current.or (s.cpu c).idle, requeues s prev tickMode = true →
      (s.task prev).rq.onRunqueue = false →
      (s.task prev).assignedCpu = c.val ∨ (s.cpu c).rqHead = none
  | _ => True

instance SchedOp.Ok.decidable (s : TaskTable) : (op : SchedOp) → Decidable (op.Ok s)
  | .setaffinity mem pidU cpusetsizeU maskU => inferInstanceAs (Decidable
      (∀ p ∈ (affinityTarget s mem pidU cpusetsizeU maskU).toOption,
        (s.task p.1).rq.onRunqueue = true → (s.task p.1).assignedCpu = p.2))
  | .setBootCurrent t => inferInstanceAs (Decidable ((s.task t).rq.onRunqueue = true →
      (s.task t).assignedCpu = (schedulerCpuId s).val ∨ (s.task t).rq.prev ≠ none ∧ (s.task t).rq.next ≠ none))
  | .schedule tickMode => inferInstanceAs (Decidable
      (∀ prev ∈ (s.cpu (schedulerCpuId s)).current.or (s.cpu (schedulerCpuId s)).idle,
        requeues s prev tickMode = true → (s.task prev).rq.onRunqueue = false →
        (s.task prev).assignedCpu = (schedulerCpuId s).val ∨ (s.cpu (schedulerCpuId s)).rqHead = none))
  | .assignPid _ _ | .makeRunnable _ _ | .setBlocked _ | .setZombie _ | .setUnused _
  | .setRunning _ => inferInstanceAs (Decidable True)

def schedStepOk (s : TaskTable) (e : SchedEvent) : Prop :=
  e.op.Ok { s with localCpuId := e.cpu.val }

instance (s : TaskTable) (e : SchedEvent) : Decidable (schedStepOk s e) :=
  SchedOp.Ok.decidable _ e.op

/-- Whenever `t` is on a queue, it stays there and no more tasks come before it. -/
def Closer (t : TaskRef) (q q' : CpuId → List TaskRef) : Prop :=
  ∀ c l r, q c = l ++ t :: r → ∃ l' r', q' c = l' ++ t :: r' ∧ l'.length ≤ l.length

/-- No other task loses its place to `t`. -/
def Moves (t : TaskRef) (q q' : CpuId → List TaskRef) : Prop := ∀ u, u ≠ t → Closer u q q'

theorem Closer.refl (t : TaskRef) (q : CpuId → List TaskRef) : Closer t q q := fun _ l r h => ⟨l, r, h, le_rfl⟩

theorem Closer.trans {t : TaskRef} {q q' q'' : CpuId → List TaskRef} (h : Closer t q q') (h' : Closer t q' q'') :
    Closer t q q'' := by
  intro c l r hl
  obtain ⟨l', r', hl', hle⟩ := h c l r hl
  obtain ⟨l'', r'', hl'', hle'⟩ := h' c l' r' hl'
  exact ⟨l'', r'', hl'', hle'.trans hle⟩

theorem Closer.push (t : TaskRef) (d : CpuId) (q : CpuId → List TaskRef) (u : TaskRef) :
    Closer t q (update q d (q d ++ [u])) := by
  intro c l r hl
  by_cases hc : c = d
  · subst hc
    exact ⟨l, r ++ [u], by rw [update_self, hl, append_assoc, cons_append], le_rfl⟩
  · exact ⟨l, r, by rw [update_of_ne hc, hl], le_rfl⟩

theorem Moves.refl (t : TaskRef) (q : CpuId → List TaskRef) : Moves t q q := fun u _ => .refl u q

theorem Moves.trans {t : TaskRef} {q q' q'' : CpuId → List TaskRef} (h : Moves t q q') (h' : Moves t q' q'') :
    Moves t q q'' := fun u hu => (h u hu).trans (h' u hu)

theorem Moves.erase (t : TaskRef) (d : CpuId) {q : CpuId → List TaskRef} : Moves t q (update q d ((q d).erase t)) := by
  intro u hu c l r hl
  by_cases hc : c = d
  · subst hc
    rw [update_self, hl, erase_append]
    split_ifs with ht
    · exact ⟨l.erase t, r, rfl, length_erase_le⟩
    · exact ⟨l, r.erase t, by rw [erase_cons_tail (by simpa using hu)], le_rfl⟩
  · exact ⟨l, r, by rw [update_of_ne hc, hl], le_rfl⟩

theorem RqInv.runQueueInvariant {q : CpuId → List TaskRef} {s : TaskTable} (h : RqInv q s) : RunQueueInvariant s := by
  refine ⟨q, h.queue, fun t => ?_, fun t hoff => h.not_mem hoff, h.runnable, h.current⟩
  rw [h.queued t]
  constructor
  · rintro ⟨c, hc⟩
    refine ⟨?_, fun d hd => h.owner d t hd⟩
    rw [Finset.sum_eq_single c]
    · exact count_eq_one_of_mem (h.queue c).nodup hc
    · intro d _ hd
      exact count_eq_zero.mpr fun hm => hd (h.disjoint t d c hm hc)
    · simp
  · rintro ⟨hsum, _⟩
    by_contra hno
    push Not at hno
    rw [Finset.sum_eq_zero fun c _ => count_eq_zero.mpr (hno c)] at hsum
    exact absurd hsum (by simp)

theorem schedulerInit_rqInv : RqInv (fun _ => []) schedulerInit where
  queue _ := isQueue_nil
  queued t := by cases t <;> simp [schedulerInit]
  disjoint t c d h _ := by simp at h
  owner c t h := by simp at h
  runnable c t h := by simp at h
  idle c := by simp [schedulerInit]
  current c := by simp [schedulerInit]

theorem rqRemoveLocked_idle {s : TaskTable} {c d : CpuId} {t : TaskRef}
    (h : ∃ u, (s.cpu d).idle = some u ∧ (s.task u).isIdle = true) :
    ∃ u, ((rqRemoveLocked s c t).cpu d).idle = some u ∧ ((rqRemoveLocked s c t).task u).isIdle = true := by
  obtain ⟨u, hu, hi⟩ := h
  have h1 := congrArg idle (rqRemoveLocked_cpu_noRq s c d t)
  have h2 := congrArg isIdle (rqRemoveLocked_noRq s c t u)
  exact ⟨u, h1.trans hu, h2.trans hi⟩

namespace RqInv

variable {q : CpuId → List TaskRef} {s : TaskTable} {c : CpuId} {t : TaskRef}

/-- Writing a task outside its links: a queued task must keep its cpu and its state. -/
theorem modify (h : RqInv q s) {f : Task → Task} (hrq : ∀ x, (f x).rq = x.rq) (hidle : ∀ x, (f x).isIdle = x.isIdle)
    (hq : ∀ c, t ∈ q c → (f (s.task t)).assignedCpu = (s.task t).assignedCpu ∧
      (f (s.task t)).state = (s.task t).state) : RqInv q (s.modify t f) where
  toQueues := h.toQueues.congr (fun u => modify_proj s t u f rq hrq) (fun _ => rfl)
    (fun _ => rfl)
  owner c u hu := by
    rw [modify_task]
    split_ifs with hut
    · subst hut
      rw [(hq c hu).1]
      exact h.owner c u hu
    · exact h.owner c u hu
  runnable c u hu := by
    rw [modify_task]
    split_ifs with hut
    · subst hut
      rw [(hq c hu).2]
      exact h.runnable c u hu
    · exact h.runnable c u hu
  idle c := by
    obtain ⟨u, hu, hi⟩ := h.idle c
    exact ⟨u, hu, (modify_proj s t u f isIdle hidle).trans hi⟩
  current := h.current

theorem setCurrent (h : RqInv q s) (u : Option TaskRef) (hu : u ≠ none) :
    RqInv q (s.modifyCpu c fun x => { x with current := u }) where
  toQueues := h.toQueues.congr (fun _ => rfl) (fun d => by by_cases hd : d = c <;> simp [hd])
    (fun d => by by_cases hd : d = c <;> simp [hd])
  owner := h.owner
  runnable := h.runnable
  idle d := by
    obtain ⟨v, hv, hi⟩ := h.idle d
    refine ⟨v, ?_, hi⟩
    rw [← hv]
    by_cases hd : d = c <;> simp [hd]
  current d := by
    by_cases hd : d = c
    · simpa [hd] using hu
    · simpa [hd] using h.current d

/-- Unlinking a task through its own cpu, or from the inside of any queue. -/
theorem remove (h : RqInv q s) (hc : (s.task t).rq.onRunqueue = true →
      (s.task t).assignedCpu = c.val ∨ (s.task t).rq.prev ≠ none ∧ (s.task t).rq.next ≠ none) :
    ∃ q', RqInv q' (rqRemoveLocked s c t) ∧ (∀ d, t ∉ q' d) ∧ Moves t q q' := by
  cases hon : (s.task t).rq.onRunqueue with
  | false =>
    rw [rqRemoveLocked_of_off s c t hon]
    exact ⟨q, h, h.not_mem hon, .refl t q⟩
  | true =>
    obtain ⟨d, hd⟩ := (h.queued t).mp hon
    have hcd : c = d ∨ (s.task t).rq.prev ≠ none ∧ (s.task t).rq.next ≠ none := by
      refine (hc hon).imp (fun ha => ?_) id
      have hd' := h.owner d t hd
      exact Fin.ext (by omega)
    refine ⟨_, ⟨⟨h.toQueues.remove hd hcd, ?_, fun d => rqRemoveLocked_idle (h.idle d), ?_⟩, ?_⟩, ?_, .erase t d⟩
    · intro e u hu
      have h1 := congrArg state (rqRemoveLocked_noRq s c t u)
      exact h1.trans (h.runnable e u (mem_of_mem_erased hu))
    · intro e
      have h1 := congrArg current (rqRemoveLocked_cpu_noRq s c e t)
      exact h1.trans_ne (h.current e)
    · intro e u hu
      have h1 := congrArg assignedCpu (rqRemoveLocked_noRq s c t u)
      exact h1.trans (h.owner e u (mem_of_mem_erased hu))
    · intro e he
      by_cases hed : e = d
      · subst hed
        rw [update_self] at he
        exact List.Nodup.not_mem_erase (h.queue e).nodup he
      · exact hed (h.disjoint t e d (mem_of_mem_erased he) hd)

theorem base_push (h : RqBase q s) (hoff : (s.task t).rq.onRunqueue = false) (hst : (s.task t).state = .runnable) :
    RqBase (update q c (q c ++ [t])) (rqPushTailLocked s c t) where
  toQueues := h.toQueues.push hoff
  runnable e u hu := by
    have h1 := congrArg state (rqPushTailLocked_noRq s c t u)
    refine h1.trans ?_
    rcases mem_pushed hu with hu' | ⟨rfl, rfl⟩
    · exact h.runnable e u hu'
    · exact hst
  idle d := by
    obtain ⟨u, hu, hi⟩ := h.idle d
    have h1 := congrArg idle (rqPushTailLocked_cpu_noRq s c d t)
    have h2 := congrArg isIdle (rqPushTailLocked_noRq s c t u)
    exact ⟨u, h1.trans hu, h2.trans hi⟩
  current d := by
    have h1 := congrArg current (rqPushTailLocked_cpu_noRq s c d t)
    exact h1.trans_ne (h.current d)

/-- Queueing a task that is off, runnable and assigned to the cpu. -/
theorem push (h : RqInv q s) (hoff : (s.task t).rq.onRunqueue = false)
    (hcpu : (s.task t).assignedCpu = c.val) (hst : (s.task t).state = .runnable) :
    RqInv (update q c (q c ++ [t])) (rqPushTailLocked s c t) where
  toRqBase := base_push h.toRqBase hoff hst
  owner e u hu := by
    have h1 := congrArg assignedCpu (rqPushTailLocked_noRq s c t u)
    refine h1.trans ?_
    rcases mem_pushed hu with hu' | ⟨rfl, rfl⟩
    · exact h.owner e u hu'
    · exact hcpu

theorem assigned_toNat (h : RqInv q s) (hon : (s.task t).rq.onRunqueue = true) : 0 ≤ (s.task t).assignedCpu ∧
      (s.task t).assignedCpu = (cpuById (s.task t).assignedCpu.toNat).val := by
  obtain ⟨d, hd⟩ := (h.queued t).mp hon
  have hlt : d.val < schedMaxCpus := d.isLt
  rw [h.owner d t hd]
  simp [cpuById, hlt]

theorem setState (h : RqInv q s) (st : TaskState) (acpu : ℕ → ℤ) (t : TaskRef) :
    ∃ q', RqInv q' (schedulerTaskSetState st acpu s t) ∧ Moves t q q' := by
  unfold schedulerTaskSetState
  by_cases hi : (s.task t).isIdle = true
  · rw [if_pos hi]
    exact ⟨q, h, .refl t q⟩
  rw [if_neg hi]
  simp only [ite_rqRemoveLocked]
  obtain ⟨q', h', ht, hmoves⟩ := h.remove (t := t)
    (c := cpuById (if 0 ≤ (s.task t).assignedCpu then (s.task t).assignedCpu.toNat
      else (schedulerCpuId s).val)) (by
      intro hon
      obtain ⟨h0, h1⟩ := h.assigned_toNat hon
      rw [if_pos h0]
      exact .inl h1)
  exact ⟨q', h'.modify (fun _ => rfl) (fun _ => rfl) fun c hc => absurd hc (ht c), hmoves⟩

theorem setBootCurrent (h : RqInv q s) (t : TaskRef) (hok : SchedOp.Ok s (.setBootCurrent t)) :
    ∃ q', RqInv q' (schedulerSetBootCurrent s t) ∧ Moves t q q' := by
  unfold schedulerSetBootCurrent
  simp only [ite_rqRemoveLocked]
  obtain ⟨q', h', ht, hmoves⟩ := h.remove (c := schedulerCpuId s) hok
  have h2 := h'.modify (t := t)
    (f := fun x => { x with assignedCpu := (schedulerCpuId s).val, state := .running })
    (fun _ => rfl) (fun _ => rfl) fun c hc => absurd hc (ht c)
  exact ⟨q', h2.setCurrent (some t) (by simp), hmoves⟩

theorem off_of_not_mem (h : RqInv q s) (ht : ∀ d, t ∉ q d) : (s.task t).rq.onRunqueue = false := by
  by_contra hon
  obtain ⟨d, hd⟩ := (h.queued t).mp (by simpa using hon)
  exact ht d hd

theorem makeRunnable (h : RqInv q s) (t : TaskRef) (cpuId : ℕ) :
    ∃ q', RqInv q' (schedulerTaskMakeRunnable s t cpuId) ∧ Moves t q q' := by
  unfold schedulerTaskMakeRunnable
  by_cases hi : (s.task t).isIdle = true
  · rw [if_pos hi]
    exact ⟨q, h, .refl t q⟩
  rw [if_neg hi]
  simp only [ite_rqRemoveLocked]
  generalize hid : (if schedMaxCpus ≤ cpuId then 0 else cpuId) = id
  have hlt : id < schedMaxCpus := by
    rw [← hid]
    split_ifs with hle
    · exact Nat.succ_pos 7
    · exact Nat.lt_of_not_le hle
  have hc : (cpuById id).val = id := by simp [cpuById, hlt]
  generalize hold : (if 0 ≤ (s.task t).assignedCpu then (s.task t).assignedCpu.toNat else id) = old
  generalize hs1 : (if (s.task t).rq.onRunqueue = true ∧ old ≠ id then
    rqRemoveLocked s (cpuById old) t else s) = s1
  -- After the first step the task is off, or it is queued on the cpu asked for.
  have h1 : ∃ q1, RqInv q1 s1 ∧ (∀ d, t ∈ q1 d → (s1.task t).assignedCpu = id) ∧ Moves t q q1 := by
    rw [← hs1]
    split_ifs with hrem
    · obtain ⟨h0, h1⟩ := h.assigned_toNat hrem.1
      rw [if_pos h0] at hold
      obtain ⟨q', h', ht, hmoves⟩ := h.remove (t := t) (c := cpuById old) fun _ => .inl (hold ▸ h1)
      exact ⟨q', h', fun d hd => absurd hd (ht d), hmoves⟩
    refine ⟨q, h, fun d hd => ?_, .refl t q⟩
    have hon := (h.queued t).mpr ⟨d, hd⟩
    obtain ⟨h0, -⟩ := h.assigned_toNat hon
    rw [if_pos h0] at hold
    have : old = id := by
      by_contra hne
      exact hrem ⟨hon, hne⟩
    omega
  obtain ⟨q1, h1, hown, hmoves⟩ := h1
  have h2 := h1.modify (t := t) (f := fun x => { x with assignedCpu := id })
    (fun _ => rfl) (fun _ => rfl) fun d hd => ⟨(hown d hd).symm, rfl⟩
  obtain ⟨q3, h3, ht, hmoves'⟩ := h2.remove (t := t) (c := cpuById id) fun _ => .inl (by simp [hc])
  have h4 := h3.modify (t := t) (f := fun x => { x with state := .runnable })
    (fun _ => rfl) (fun _ => rfl) fun d hd => absurd hd (ht d)
  refine ⟨_, h4.push (h4.off_of_not_mem ht) ?_ (by simp), (hmoves.trans hmoves').trans fun u _ => .push u _ q3 t⟩
  have ha := congrArg assignedCpu (rqRemoveLocked_noRq
    (s1.modify t fun x => { x with assignedCpu := id }) (cpuById id) t t)
  rw [modify_task_self]
  refine ha.trans ?_
  rw [modify_task_self, hc]
  rfl

end RqInv

/-! ## Picking the next task -/

/-- Every queued task is runnable, so the loop stops at the first pop. -/
theorem pickNextRunnableLocked_cases {q : CpuId → List TaskRef} {s : TaskTable}
    (h : Queues q s) (c : CpuId) (hr : ∀ t ∈ q c, (s.task t).state = .runnable) :
    q c = [] ∧ pickNextRunnableLocked s c = (s, (s.cpu c).idle) ∨
    ∃ t l, q c = t :: l ∧ pickNextRunnableLocked s c = (rqRemoveLocked s c t, some t) ∧
      Queues (update q c l) (rqRemoveLocked s c t) := by
  unfold pickNextRunnableLocked
  rw [pickNextLoop]
  rcases h.pop_cases c with ⟨hq, hpop⟩ | ⟨t, l, hq, hpop, h'⟩
  · rw [hpop]
    exact .inl ⟨hq, rfl⟩
  have hst := congrArg state (rqRemoveLocked_noRq s c t t)
  rw [hpop]
  refine .inr ⟨t, l, hq, if_pos ?_, h'⟩
  exact hst.trans (hr t (by simp [hq]))

/-- The cpu has taken the first task of its queue, if there is one. -/
def PicksHead (c : CpuId) (q q' : CpuId → List TaskRef) (s : TaskTable) : Prop :=
  q c = [] ∧ q' = q ∨ ∃ t l, q c = t :: l ∧ q' = Function.update q c l ∧ (s.cpu c).current = some t

/-- The part of `schedule_common` from the choice of the next task on. A lone task may
sit on the local queue without being assigned to it: it is the one taken. -/
theorem RqInv.pick {q : CpuId → List TaskRef} {s s' : TaskTable} {c : CpuId} (h : RqBase q s)
    (hown : ∀ d, ∀ t ∈ q d, (s.task t).assignedCpu = d.val ∨ d = c ∧ q c = [t])
    (hs : s' = let (s, next) := pickNextRunnableLocked s c
      let s := match next with
        | some n =>
          if (s.task n).isIdle then s
          else s.modify n fun x =>
            { x with assignedCpu := c.val, state := .running, needResched := false }
        | none => s
      s.modifyCpu c fun x => { x with current := next.or x.idle }) :
    ∃ q', RqInv q' s' ∧ PicksHead c q q' s' := by
  subst hs
  rcases pickNextRunnableLocked_cases h.toQueues c (h.runnable c) with ⟨hq, hpick⟩ | ⟨t, l, hq, hpick, h'⟩
  · obtain ⟨u, hu, hui⟩ := h.idle c
    have h1 : RqInv q s := by
      refine ⟨h, fun d t ht => ?_⟩
      rcases hown d t ht with ho | ⟨rfl, ho⟩
      · exact ho
      · rw [hq] at ho
        exact absurd ho (by simp)
    rw [hpick]
    simp only [hu, hui, if_true]
    exact ⟨q, h1.setCurrent _ (by simp), .inl ⟨hq, rfl⟩⟩
  · have hsub : ∀ d u, u ∈ update q c l d → u ∈ q d := by
      intro d u hu
      by_cases hd : d = c
      · subst hd
        rw [update_self] at hu
        simp [hq, hu]
      · rwa [update_of_ne hd] at hu
    have hnt : ∀ d, t ∉ update q c l d := by
      intro d hd
      by_cases hdc : d = c
      · subst hdc
        rw [update_self] at hd
        have hnd := (h.queue d).nodup
        rw [hq] at hnd
        exact (nodup_cons.mp hnd).1 hd
      · exact hdc (h.disjoint t d c (hsub d t hd) (by simp [hq]))
    have h1 : RqInv (update q c l) (rqRemoveLocked s c t) := by
      refine ⟨⟨h', fun d u hu => ?_, fun d => rqRemoveLocked_idle (h.idle d), fun d => ?_⟩, fun d u hu => ?_⟩
      · have ha := congrArg state (rqRemoveLocked_noRq s c t u)
        exact ha.trans (h.runnable d u (hsub d u hu))
      · have ha := congrArg current (rqRemoveLocked_cpu_noRq s c d t)
        exact ha.trans_ne (h.current d)
      · have ha := congrArg assignedCpu (rqRemoveLocked_noRq s c t u)
        refine ha.trans ?_
        rcases hown d u (hsub d u hu) with ho | ⟨rfl, ho⟩
        · exact ho
        rw [hq] at ho
        obtain ⟨rfl, rfl⟩ := cons.inj ho
        simp at hu
    rw [hpick]
    dsimp only
    split_ifs
    · exact ⟨_, h1.setCurrent (some t) (by simp), .inr ⟨t, l, hq, rfl, by simp⟩⟩
    · have h2 := h1.modify (t := t)
        (f := fun x => { x with assignedCpu := c.val, state := .running, needResched := false })
        (fun _ => rfl) (fun _ => rfl) fun d hd => absurd hd (hnt d)
      exact ⟨_, h2.setCurrent (some t) (by simp), .inr ⟨t, l, hq, rfl, by simp⟩⟩

/-- The outgoing task goes to the tail, if it goes anywhere, and then the head is taken. -/
theorem RqInv.schedule {q : CpuId → List TaskRef} {s : TaskTable} (h : RqInv q s)
    (tickMode : Bool) (hok : SchedOp.Ok s (.schedule tickMode)) :
    ∃ q₁ q', RqInv q' (scheduleCommon s tickMode) ∧ (∀ t, Closer t q q₁) ∧
      PicksHead (schedulerCpuId s) q₁ q' (scheduleCommon s tickMode) := by
  unfold scheduleCommon
  obtain ⟨cur, hcur⟩ := Option.ne_none_iff_exists'.mp (h.current (schedulerCpuId s))
  simp only [hcur, Option.some_or]
  by_cases hre : requeues s cur tickMode = true
  · rw [if_pos hre]
    set c := schedulerCpuId s
    have hst : ∀ d, cur ∈ q d → TaskState.runnable = (s.task cur).state := fun d hd =>
      (h.runnable d cur hd).symm
    have h1 := h.modify (t := cur) (f := fun x => { x with state := .runnable })
      (fun _ => rfl) (fun _ => rfl) fun d hd => ⟨rfl, hst d hd⟩
    cases hon : (s.task cur).rq.onRunqueue with
    | true =>
      -- Already queued: the push reports and returns.
      have hpush : rqPushTailLocked (s.modify cur fun x => { x with state := .runnable }) c cur =
          s.modify cur fun x => { x with state := .runnable } := by
        unfold rqPushTailLocked
        rw [if_pos]
        simpa using hon
      rw [hpush]
      obtain ⟨q', h', htakes⟩ := RqInv.pick h1.toRqBase (fun d t ht => .inl (h1.owner d t ht)) rfl
      exact ⟨q, q', h', fun t => .refl t q, htakes⟩
    | false =>
      have hoff : ((s.modify cur fun x => { x with state := .runnable }).task
          cur).rq.onRunqueue = false := by simpa using hon
      rcases hok cur (by simp [hcur, c]) hre hon with ha | hempty
      · have h2 := h1.push (c := c) hoff (by simpa using ha) (by simp)
        obtain ⟨q', h', htakes⟩ := RqInv.pick h2.toRqBase (fun d t ht => .inl (h2.owner d t ht)) rfl
        exact ⟨_, q', h', fun t => .push t c q cur, htakes⟩
      have hq : q c = [] := by
        have hh := (h.queue c).head_eq
        rw [hempty] at hh
        exact head?_eq_none_iff.mp hh.symm
      have hbase := RqInv.base_push (c := c) h1.toRqBase hoff (by simp)
      obtain ⟨q', h', htakes⟩ := RqInv.pick hbase (fun d t ht => by
        rcases mem_pushed ht with ht' | ⟨rfl, rfl⟩
        · have ha := congrArg assignedCpu (rqPushTailLocked_noRq
            (s.modify cur fun x => { x with state := .runnable }) c cur t)
          exact .inl (ha.trans (h1.owner d t ht'))
        · exact .inr ⟨rfl, by simp [hq]⟩) rfl
      exact ⟨_, q', h', fun t => .push t c q cur, htakes⟩
  · rw [if_neg hre]
    obtain ⟨q', h', htakes⟩ := RqInv.pick h.toRqBase (fun d t ht => .inl (h.owner d t ht)) rfl
    exact ⟨q, q', h', fun t => .refl t q, htakes⟩

theorem RqInv.setaffinity {q : CpuId → List TaskRef} {s : TaskTable} (h : RqInv q s)
    (mem : Memory) (pidU cpusetsizeU maskU : UInt64)
    (hok : SchedOp.Ok s (.setaffinity mem pidU cpusetsizeU maskU)) :
    RqInv q (doSysSchedSetaffinity s mem pidU cpusetsizeU maskU).1 := by
  unfold doSysSchedSetaffinity
  rcases ha : affinityTarget s mem pidU cpusetsizeU maskU with e | ⟨t, cpu⟩
  · exact h
  refine RqInv.modify (f := fun x => { x with assignedCpu := cpu }) h (fun _ => rfl)
    (fun _ => rfl) fun c hc => ⟨?_, rfl⟩
  exact (hok (t, cpu) (by simp [ha, Except.toOption]) ((h.queued t).mpr ⟨c, hc⟩)).symm

/-- The operation takes the task off its queue, or moves it to the tail of one. -/
def SchedOp.task? : SchedOp → Option TaskRef
  | .makeRunnable t _ | .setBlocked t | .setZombie t | .setUnused t | .setRunning t | .setBootCurrent t => some t
  | .assignPid _ _ | .schedule _ | .setaffinity _ _ _ _ => none

def SchedEvent.picksFor (c : CpuId) (e : SchedEvent) : Bool :=
  match e.op with
  | .schedule _ => e.cpu = c
  | _ => false

/-- What an event makes of the queues: a task that it does not name stays where it is or comes closer to the head, and
then the cpu that schedules takes its head. -/
def SchedEvent.Reorders (e : SchedEvent) (q q' : CpuId → List TaskRef) (s' : TaskTable) : Prop :=
  ∃ q₁, (∀ t, e.op.task? ≠ some t → Closer t q q₁) ∧ if e.picksFor e.cpu = true then PicksHead e.cpu q₁ q' s' else q' = q₁

theorem RqInv.step_reorders {q : CpuId → List TaskRef} {s : TaskTable} (h : RqInv q s) (e : SchedEvent)
    (hok : schedStepOk s e) : ∃ q', RqInv q' (schedStep s e) ∧ e.Reorders q q' (schedStep s e) := by
  have h' : RqInv q { s with localCpuId := e.cpu.val } :=
    ⟨⟨h.toQueues.congr (fun _ => rfl) (fun _ => rfl) (fun _ => rfl), h.runnable, h.idle, h.current⟩, h.owner⟩
  have hmoves : ∀ {t : TaskRef} {s' : TaskTable}, e.op.task? = some t → e.picksFor e.cpu = false →
      (∃ q', RqInv q' s' ∧ Moves t q q') → ∃ q', RqInv q' s' ∧ e.Reorders q q' s' := by
    rintro t s' htask hno ⟨q', hq', hm⟩
    refine ⟨q', hq', q', fun u hu => hm u fun heq => hu (heq ▸ htask), ?_⟩
    rw [if_neg (by simp [hno])]
  have hstays : ∀ {s' : TaskTable}, e.picksFor e.cpu = false → RqInv q s' →
      ∃ q', RqInv q' s' ∧ e.Reorders q q' s' := fun hno hq =>
    ⟨q, hq, q, fun t _ => .refl t q, by rw [if_neg (by simp [hno])]⟩
  obtain ⟨cpu, op⟩ := e
  unfold schedStep
  unfold schedStepOk at hok
  cases op with
  | assignPid t pid =>
    exact hstays rfl (h'.modify (t := t) (f := fun x => { x with pid := pid }) (fun _ => rfl)
      (fun _ => rfl) fun _ _ => ⟨rfl, rfl⟩)
  | makeRunnable t cpuId => exact hmoves rfl rfl (h'.makeRunnable t cpuId)
  | setBlocked t => exact hmoves rfl rfl (h'.setState .blocked Nat.cast t)
  | setZombie t => exact hmoves rfl rfl (h'.setState .zombie Nat.cast t)
  | setUnused t => exact hmoves rfl rfl (h'.setState .unused (fun _ => -1) t)
  | setRunning t => exact hmoves rfl rfl (h'.setState .running Nat.cast t)
  | setBootCurrent t => exact hmoves rfl rfl (h'.setBootCurrent t hok)
  | schedule tickMode =>
    obtain ⟨q₁, q', hq', hcloser, htakes⟩ := h'.schedule tickMode hok
    refine ⟨q', hq', q₁, fun t _ => hcloser t, ?_⟩
    rw [if_pos (by simp [SchedEvent.picksFor])]
    have hcpu : schedulerCpuId { s with localCpuId := cpu.val } = cpu := by simp [schedulerCpuId, cpuById]
    rwa [hcpu] at htakes
  | setaffinity mem pidU cpusetsizeU maskU => exact hstays rfl (h'.setaffinity mem pidU cpusetsizeU maskU hok)

theorem RqInv.step {q : CpuId → List TaskRef} {s : TaskTable} (h : RqInv q s) (e : SchedEvent)
    (hok : schedStepOk s e) : ∃ q', RqInv q' (schedStep s e) := by
  obtain ⟨q', h', -⟩ := h.step_reorders e hok
  exact ⟨q', h'⟩

/-- Every state that an interleaving of admitted operations reaches from
`scheduler_init` satisfies the run-queue invariant. -/
theorem run_queue_invariant (es : List SchedEvent) (hok : Meets schedStep schedStepOk schedulerInit es) :
    RunQueueInvariant (run schedStep schedulerInit es) := by
  have h := run_invariant (I := fun s => ∃ q, RqInv q s)
    (fun s e ⟨_, h⟩ hok => h.step e hok) ⟨_, schedulerInit_rqInv⟩ hok
  obtain ⟨q, hq⟩ := h
  exact hq.runQueueInvariant

theorem run_queue_invariant_two_cpus :
    let es : List SchedEvent := [⟨0, .makeRunnable (.slot 0) 1⟩, ⟨0, .makeRunnable (.slot 1) 1⟩,
      ⟨1, .schedule false⟩, ⟨1, .schedule false⟩, ⟨0, .setBlocked (.slot 0)⟩]
    Meets schedStep schedStepOk schedulerInit es ∧ RunQueueInvariant (run schedStep schedulerInit es) :=
  have hok : Meets schedStep schedStepOk schedulerInit
      [⟨0, .makeRunnable (.slot 0) 1⟩, ⟨0, .makeRunnable (.slot 1) 1⟩,
        ⟨1, .schedule false⟩, ⟨1, .schedule false⟩, ⟨0, .setBlocked (.slot 0)⟩] := by decide +kernel
  ⟨hok, run_queue_invariant _ hok⟩

/-- Task 2 waits on the queue of cpu 1 when the task running on cpu 0 calls
`sched_setaffinity(2, 8, {cpu 0})`. -/
def affinityRun : List SchedEvent :=
  [⟨bootCpu, .setBootCurrent (.slot bootSlot)⟩, ⟨bootCpu, .assignPid (.slot secondSlot) 2⟩,
    ⟨bootCpu, .makeRunnable (.slot secondSlot) 1⟩,
    ⟨bootCpu, .setaffinity (fun a => if a = 0x20001000 then 1 else 0) 2 8 0x20001000⟩]

theorem affinityRun_breaks_invariant : ¬ RunQueueInvariant (run schedStep schedulerInit affinityRun) := by
  rintro ⟨q, hq, hon, -⟩
  have hhead : ((run schedStep schedulerInit affinityRun).cpu 1).rqHead = some (.slot 1) := by
    decide +kernel
  have hmem : TaskRef.slot 1 ∈ q 1 := by
    have h := (hq 1).head_eq
    rw [hhead] at h
    exact List.mem_of_head? h.symm
  have howner := ((hon (.slot 1)).mp (by decide +kernel)).2 1 hmem
  exact absurd howner (by decide +kernel)

end EdgeOS
