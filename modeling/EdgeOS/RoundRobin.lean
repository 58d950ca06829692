import EdgeOS.RunQueueInvariant

namespace EdgeOS

/-!
Turns. A task that waits on a queue becomes the current one of its cpu after at most as many picks as there are tasks
before it, and one more, whatever other cpus and other tasks do in between.
-/

open Lib Function List SchedEvent

/-- Cpu `c` has the tasks `l` on its queue before `t`. -/
def WaitsBehind (s : TaskTable) (c : CpuId) (l : List TaskRef) (t : TaskRef) : Prop :=
  ∃ r, IsQueue (fun t => (s.task t).rq.next) (fun t => (s.task t).rq.prev) (s.cpu c).rqHead (s.cpu c).rqTail
    (l ++ t :: r)

section Turns

variable {q q' : CpuId → List TaskRef} {s s' : TaskTable} {c : CpuId} {t : TaskRef} {l r : List TaskRef} {e : SchedEvent}

theorem SchedEvent.picksFor_iff : e.picksFor c = true ↔ e.picksFor e.cpu = true ∧ e.cpu = c := by
  unfold picksFor
  split <;> simp

theorem SchedEvent.Reorders.picked (h : e.Reorders q q' s') (hq : q c = l ++ t :: r) (ht : e.op.task? ≠ some t)
    (hpick : e.picksFor c = true) :
    (s'.cpu c).current = some t ∨ ∃ l' r', q' c = l' ++ t :: r' ∧ l'.length < l.length := by
  obtain ⟨q₁, hcloser, htakes⟩ := h
  obtain ⟨l₁, r₁, hq₁, hle⟩ := hcloser t ht c l r hq
  obtain ⟨hown, rfl⟩ := picksFor_iff.mp hpick
  rw [if_pos hown] at htakes
  rcases htakes with ⟨hnil, -⟩ | ⟨u, m, hcons, rfl, hcur⟩
  · rw [hnil] at hq₁
    exact absurd hq₁.symm (by simp)
  rw [hcons] at hq₁
  cases l₁ with
  | nil =>
    rw [(cons.inj hq₁).1] at hcur
    exact .inl hcur
  | cons v l₂ =>
    refine .inr ⟨l₂, r₁, ?_, hle⟩
    rw [update_self]
    exact (cons.inj hq₁).2

/-- Without a pick of its cpu the task stays where it is or comes closer. -/
theorem SchedEvent.Reorders.waits (h : e.Reorders q q' s') (hq : q c = l ++ t :: r) (ht : e.op.task? ≠ some t)
    (hpick : ¬ e.picksFor c = true) : ∃ l' r', q' c = l' ++ t :: r' ∧ l'.length ≤ l.length := by
  obtain ⟨q₁, hcloser, htakes⟩ := h
  obtain ⟨l₁, r₁, hq₁, hle⟩ := hcloser t ht c l r hq
  refine ⟨l₁, r₁, ?_, hle⟩
  split_ifs at htakes with hown
  · have hother : c ≠ e.cpu := fun hc => hpick (picksFor_iff.mpr ⟨hown, hc.symm⟩)
    rcases htakes with ⟨-, rfl⟩ | ⟨u, m, -, rfl, -⟩
    · exact hq₁
    · rw [update_of_ne hother]
      exact hq₁
  · rw [htakes]
    exact hq₁

theorem RqInv.runs_in_turn (h : RqInv q s) (hq : q c = l ++ t :: r) {es : List SchedEvent}
    (hok : Meets schedStep schedStepOk s es) (ht : ∀ e ∈ es, e.op.task? ≠ some t)
    (hpicks : l.length < es.countP (picksFor c)) :
    ∃ es₁ es₂, es = es₁ ++ es₂ ∧ es₁.countP (picksFor c) ≤ l.length + 1 ∧
      ((run schedStep s es₁).cpu c).current = some t := by
  induction es generalizing q s l r with
  | nil => exact absurd hpicks (Nat.not_lt_zero _)
  | cons e es ih =>
    obtain ⟨q', h', horder⟩ := h.step_reorders e hok.1
    have hte := ht e mem_cons_self
    have ih := fun {l' r'} hq' => @ih q' (schedStep s e) l' r' h' hq' hok.2 fun e' he' => ht e' (mem_cons_of_mem e he')
    by_cases hpick : e.picksFor c = true
    · rw [countP_cons_of_pos hpick] at hpicks
      rcases horder.picked hq hte hpick with hcur | ⟨l', r', hq', hlt⟩
      · refine ⟨[e], es, rfl, ?_, hcur⟩
        rw [countP_cons_of_pos hpick, countP_nil]
        omega
      obtain ⟨es₁, es₂, rfl, hcount, hcur⟩ := ih hq' (by omega)
      refine ⟨e :: es₁, es₂, rfl, ?_, hcur⟩
      rw [countP_cons_of_pos hpick]
      omega
    · rw [countP_cons_of_neg hpick] at hpicks
      obtain ⟨l', r', hq', hle⟩ := horder.waits hq hte hpick
      obtain ⟨es₁, es₂, rfl, hcount, hcur⟩ := ih hq' (by omega)
      refine ⟨e :: es₁, es₂, rfl, ?_, hcur⟩
      rw [countP_cons_of_neg hpick]
      omega

end Turns

/-- Nobody starves: in every run, a task that is left on its queue runs when its cpu has picked as often as there are
tasks before it, and once more, or earlier. -/
theorem turns_come (es es' : List SchedEvent) (hok : Meets schedStep schedStepOk schedulerInit (es ++ es'))
    (c : CpuId) (l : List TaskRef) (t : TaskRef) (hwaits : WaitsBehind (run schedStep schedulerInit es) c l t)
    (ht : ∀ e ∈ es', e.op.task? ≠ some t) (hpicks : l.length < es'.countP (picksFor c)) :
    ∃ es₁ es₂, es' = es₁ ++ es₂ ∧ es₁.countP (picksFor c) ≤ l.length + 1 ∧
      ((run schedStep schedulerInit (es ++ es₁)).cpu c).current = some t := by
  obtain ⟨hok, hok'⟩ := meets_append.mp hok
  obtain ⟨q, h⟩ := run_invariant (I := fun s => ∃ q, RqInv q s) (fun s e ⟨_, h⟩ hok => h.step e hok)
    ⟨_, schedulerInit_rqInv⟩ hok
  obtain ⟨r, hqueue⟩ := hwaits
  obtain ⟨es₁, es₂, hes, hcount, hcur⟩ := h.runs_in_turn ((h.queue c).unique hqueue) hok' ht hpicks
  refine ⟨es₁, es₂, hes, hcount, ?_⟩
  unfold run at hcur ⊢
  rw [foldl_append]
  exact hcur

/-- Two tasks wait on cpu 1, which picks twice. -/
theorem turns_come_two :
    ∃ es₁ es₂, [⟨1, .schedule false⟩, ⟨1, .schedule false⟩] = es₁ ++ es₂ ∧ es₁.countP (picksFor 1) ≤ 2 ∧
      ((run schedStep schedulerInit ([⟨0, .makeRunnable (.slot 0) 1⟩, ⟨0, .makeRunnable (.slot 1) 1⟩] ++ es₁)).cpu
        1).current = some (.slot 1) :=
  turns_come [⟨0, .makeRunnable (.slot 0) 1⟩, ⟨0, .makeRunnable (.slot 1) 1⟩] _ (by decide +kernel) 1 [.slot 0] (.slot 1)
    ⟨[], by decide, by decide, ⟨by decide, by decide, by decide, by decide, trivial⟩, by decide⟩ (by decide) (by decide)

end EdgeOS
