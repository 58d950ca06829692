import EdgeOS.Lib.IntrusiveList
import EdgeOS.Lib.Runs
import EdgeOS.Scheduler

namespace EdgeOS

open Lib TaskTable Function List

/-! ## What the queue operations leave alone -/

def Task.noRq (x : Task) : Task := { x with rq := {} }

def SchedulerCpu.noRq (x : SchedulerCpu) : SchedulerCpu := { x with rqHead := none, rqTail := none }

section Frame

variable (s : TaskTable) (c d : CpuId) (t u : TaskRef)

@[simp] theorem modifyRq_noRq (f : RqLinks → RqLinks) : ((s.modifyRq t f).task u).noRq = (s.task u).noRq :=
  modify_proj s t u _ Task.noRq fun _ => rfl

theorem rqRemoveLocked_noRq : ((rqRemoveLocked s c t).task u).noRq = (s.task u).noRq := by
  simp only [rqRemoveLocked]
  split
  · rfl
  · split <;> split <;> simp only [modifyRq_noRq, modifyCpu_task]

theorem rqPushTailLocked_noRq : ((rqPushTailLocked s c t).task u).noRq = (s.task u).noRq := by
  simp only [rqPushTailLocked]
  split
  · rfl
  · split <;> simp only [modifyRq_noRq, modifyCpu_task]

theorem rqPopHeadLocked_noRq : ((rqPopHeadLocked s c).1.task u).noRq = (s.task u).noRq := by
  simp only [rqPopHeadLocked]
  split
  · rfl
  · split <;> simp only [modifyRq_noRq, modifyCpu_task]

@[simp] theorem modifyCpu_rqHead_noRq (h : Option TaskRef) :
    ((s.modifyCpu c fun x => { x with rqHead := h }).cpu d).noRq = (s.cpu d).noRq := by
  by_cases hd : d = c <;> simp [hd, SchedulerCpu.noRq]

@[simp] theorem modifyCpu_rqTail_noRq (h : Option TaskRef) :
    ((s.modifyCpu c fun x => { x with rqTail := h }).cpu d).noRq = (s.cpu d).noRq := by
  by_cases hd : d = c <;> simp [hd, SchedulerCpu.noRq]

theorem rqRemoveLocked_cpu_noRq : ((rqRemoveLocked s c t).cpu d).noRq = (s.cpu d).noRq := by
  simp only [rqRemoveLocked]
  split
  · rfl
  · split <;> split <;> simp

theorem rqPushTailLocked_cpu_noRq : ((rqPushTailLocked s c t).cpu d).noRq = (s.cpu d).noRq := by
  simp only [rqPushTailLocked]
  split
  · rfl
  · split <;> simp

theorem rqRemoveLocked_of_off (hoff : (s.task t).rq.onRunqueue = false) : rqRemoveLocked s c t = s := by
  unfold rqRemoveLocked
  rw [if_pos (by simp [hoff])]

/-- The callers' own test before an unlink adds nothing to the one inside. -/
theorem ite_rqRemoveLocked : (if (s.task t).rq.onRunqueue then rqRemoveLocked s c t else s) = rqRemoveLocked s c t := by
  split_ifs with h
  · rfl
  · rw [rqRemoveLocked_of_off s c t (by simpa using h)]

end Frame

/-! ## The effect of the queue operations on the links -/

section Effect

variable {s : TaskTable} {c : CpuId} {t : TaskRef}

theorem rqRemoveLocked_rq (hon : (s.task t).rq.onRunqueue = true)
    (hp : (s.task t).rq.prev ≠ some t) (hn : (s.task t).rq.next ≠ some t) (u : TaskRef) :
    ((rqRemoveLocked s c t).task u).rq = if u = t then {} else
        { (s.task u).rq with
          next := if (s.task t).rq.prev = some u then (s.task t).rq.next else (s.task u).rq.next
          prev := if (s.task t).rq.next = some u then (s.task t).rq.prev
            else (s.task u).rq.prev } := by
  unfold rqRemoveLocked
  rw [if_neg (by simp [hon])]
  by_cases hu : u = t
  · rw [hu, modifyRq_rq, if_pos rfl, if_pos rfl]
  rw [modifyRq_rq, if_neg hu, if_neg hu]
  rcases hp' : (s.task t).rq.prev with _ | p
  · rcases hn' : (s.task t).rq.next with _ | n
    · simp [hn']
    · have : n ≠ t := by rintro rfl; exact hn hn'
      by_cases hun : u = n <;> simp [modifyRq_rq, hp', hn', hun, eq_comm]
  have hpt : t ≠ p := by rintro rfl; exact hp hp'
  rcases hn' : (s.task t).rq.next with _ | n
  · by_cases hup : u = p <;> simp [modifyRq_rq, hp', hn', hup, hpt, eq_comm]
  simp only [modifyRq_rq, hp', hn', hpt, if_false, Option.some.injEq]
  by_cases hnp : n = p
  · by_cases hun : u = n <;> simp [hun, hnp, hnp ▸ hun, eq_comm]
  have hpn : p ≠ n := Ne.symm hnp
  by_cases hun : u = n
  · simp [hun, hnp, hpn]
  · by_cases hup : u = p <;> simp [hun, hup, hpn, eq_comm]

theorem rqRemoveLocked_cpu (hon : (s.task t).rq.onRunqueue = true) (hp : (s.task t).rq.prev ≠ some t) (d : CpuId) :
    (rqRemoveLocked s c t).cpu d = if d = c then
        { s.cpu c with
          rqHead := if (s.task t).rq.prev = none then (s.task t).rq.next else (s.cpu c).rqHead
          rqTail := if (s.task t).rq.next = none then (s.task t).rq.prev else (s.cpu c).rqTail }
      else s.cpu d := by
  unfold rqRemoveLocked
  rw [if_neg (by simp [hon])]
  rcases hp' : (s.task t).rq.prev with _ | p
  · rcases hn' : (s.task t).rq.next with _ | n <;> by_cases hd : d = c <;> simp [hp', hn', hd]
  · have hpt : t ≠ p := by rintro rfl; exact hp hp'
    rcases hn' : (s.task t).rq.next with _ | n <;> by_cases hd : d = c <;> simp [modifyRq_rq, hp', hn', hpt, hd]

theorem rqPushTailLocked_rq (hoff : (s.task t).rq.onRunqueue = false) (ht : (s.cpu c).rqTail ≠ some t) (u : TaskRef) :
    ((rqPushTailLocked s c t).task u).rq =
      if u = t then { onRunqueue := true, prev := (s.cpu c).rqTail, next := none } else
        { (s.task u).rq with
          next := if (s.cpu c).rqTail = some u then some t else (s.task u).rq.next } := by
  unfold rqPushTailLocked
  rw [if_neg (by simp [hoff])]
  rcases ht' : (s.cpu c).rqTail with _ | v
  · by_cases hu : u = t <;> simp [modifyRq_rq, ht', hu]
  have hvt : t ≠ v := by rintro rfl; exact ht ht'
  by_cases hu : u = t
  · simp [modifyRq_rq, ht', hu, hvt]
  · by_cases huv : u = v <;> simp [modifyRq_rq, ht', hu, huv, hvt.symm, eq_comm]

theorem rqPushTailLocked_cpu (hoff : (s.task t).rq.onRunqueue = false) (d : CpuId) : (rqPushTailLocked s c t).cpu d =
      if d = c then
        { s.cpu c with
          rqHead := if (s.cpu c).rqTail = none then some t else (s.cpu c).rqHead
          rqTail := some t }
      else s.cpu d := by
  unfold rqPushTailLocked
  rw [if_neg (by simp [hoff])]
  rcases ht' : (s.cpu c).rqTail with _ | v <;> by_cases hd : d = c <;> simp [ht', hd]

theorem rqPopHeadLocked_eq_remove (hh : (s.cpu c).rqHead = some t)
    (hon : (s.task t).rq.onRunqueue = true) (hp : (s.task t).rq.prev = none) :
    rqPopHeadLocked s c = (rqRemoveLocked s c t, some t) := by
  unfold rqPopHeadLocked rqRemoveLocked
  rw [if_neg (by simp [hon]), hh]
  rcases hn : (s.task t).rq.next with _ | n <;> simp [hp, hn]

theorem rqPopHeadLocked_none (hh : (s.cpu c).rqHead = none) : rqPopHeadLocked s c = (s, none) := by
  unfold rqPopHeadLocked
  rw [hh]

end Effect

/-! ## The queues as lists -/

/-- The links and the `on_runqueue` flags describe the lists `q`, one for each cpu. -/
structure Queues (q : CpuId → List TaskRef) (s : TaskTable) : Prop where
  queue : ∀ c, IsQueue (fun t => (s.task t).rq.next) (fun t => (s.task t).rq.prev)
    (s.cpu c).rqHead (s.cpu c).rqTail (q c)
  queued : ∀ t, (s.task t).rq.onRunqueue = true ↔ ∃ c, t ∈ q c
  disjoint : ∀ t c d, t ∈ q c → t ∈ q d → c = d

/-- A member of the queues after a push was there before, or is the task pushed. -/
theorem mem_pushed {q : CpuId → List TaskRef} {c d : CpuId} {t u : TaskRef}
    (h : u ∈ update q c (q c ++ [t]) d) : u ∈ q d ∨ u = t ∧ d = c := by
  by_cases hd : d = c
  · subst hd
    simpa using h
  · rw [update_of_ne hd] at h
    exact .inl h

theorem mem_of_mem_erased {q : CpuId → List TaskRef} {c d : CpuId} {t u : TaskRef}
    (h : u ∈ update q c ((q c).erase t) d) : u ∈ q d := by
  by_cases hd : d = c
  · subst hd
    rw [update_self] at h
    exact mem_of_mem_erase h
  · rwa [update_of_ne hd] at h

namespace Queues

variable {q : CpuId → List TaskRef} {s s' : TaskTable} {c : CpuId} {t : TaskRef}

theorem congr (h : Queues q s) (hrq : ∀ t, (s'.task t).rq = (s.task t).rq)
    (hh : ∀ c, (s'.cpu c).rqHead = (s.cpu c).rqHead)
    (ht : ∀ c, (s'.cpu c).rqTail = (s.cpu c).rqTail) : Queues q s' where
  queue c := by
    simp only [hrq, hh, ht]
    exact h.queue c
  queued t := by rw [hrq]; exact h.queued t
  disjoint := h.disjoint

theorem not_mem (h : Queues q s) (hoff : (s.task t).rq.onRunqueue = false) (c : CpuId) : t ∉ q c := by
  intro hmem
  rw [(h.queued t).mpr ⟨c, hmem⟩] at hoff
  exact absurd hoff (by simp)

/-- A queued task with both neighbours may be unlinked through any cpu; an end of the
list only through its own. -/
theorem remove (h : Queues q s) {d : CpuId} (hmem : t ∈ q d)
    (hc : c = d ∨ (s.task t).rq.prev ≠ none ∧ (s.task t).rq.next ≠ none) :
    Queues (update q d ((q d).erase t)) (rqRemoveLocked s c t) := by
  have hon := (h.queued t).mpr ⟨d, hmem⟩
  obtain ⟨l₁, l₂, hl⟩ := append_of_mem hmem
  have hq := h.queue d
  rw [hl] at hq
  have hnd := hq.nodup
  have herase : (q d).erase t = l₁ ++ l₂ := by
    have ht : t ∉ l₁ := fun h1 => (nodup_append.mp hnd).2.2 t h1 t (by simp) rfl
    rw [hl, erase_append_right _ ht, erase_cons_head]
  have hother : ∀ e, e ≠ d → ∀ u ∈ q e, u ∉ q d := fun e he u hu hu' =>
    he (h.disjoint u e d hu hu')
  have hprev := hq.prev_eq
  have hnext := hq.next_eq
  have ht1 : t ∉ l₁ ++ l₂ := by
    rw [← herase]
    exact List.Nodup.not_mem_erase (h.queue d).nodup
  have hp : (s.task t).rq.prev ≠ some t := by
    rw [hprev]
    exact fun he => ht1 (mem_append_left _ (mem_of_getLast? he))
  have hn : (s.task t).rq.next ≠ some t := by
    rw [hnext]
    exact fun he => ht1 (mem_append_right _ (mem_of_head? he))
  have hcpu : ∀ e, ((rqRemoveLocked s c t).cpu e).rqHead =
        (if e = d then if (s.task t).rq.prev = none then (s.task t).rq.next
          else (s.cpu d).rqHead else (s.cpu e).rqHead) ∧
      ((rqRemoveLocked s c t).cpu e).rqTail = (if e = d then if (s.task t).rq.next = none then (s.task t).rq.prev
          else (s.cpu d).rqTail else (s.cpu e).rqTail) := by
    intro e
    rw [rqRemoveLocked_cpu hon hp]
    rcases hc with rfl | ⟨hp0, hn0⟩
    · split_ifs <;> exact ⟨rfl, rfl⟩
    · simp only [hp0, hn0, if_false]
      constructor <;> split_ifs <;> simp_all
  refine ⟨fun e => ?_, fun u => ?_, fun u e f he hf => ?_⟩
  · rw [(hcpu e).1, (hcpu e).2]
    by_cases he : e = d
    · subst he
      rw [if_pos rfl, if_pos rfl, update_self, herase]
      refine hq.remove (fun u hu => ?_) (fun u hu => ?_) <;>
        rw [rqRemoveLocked_rq hon hp hn, if_neg (fun (hut : u = t) => ht1 (hut ▸ hu))]
    rw [if_neg he, if_neg he, update_of_ne he]
    refine (h.queue e).congr (fun u hu => ?_) (fun u hu => ?_) <;> have hud := hother e he u hu <;>
      rw [rqRemoveLocked_rq hon hp hn, if_neg (fun (hut : u = t) => hud (hut ▸ hmem))]
    · refine if_neg fun hl' => hud ?_
      rw [hl]
      exact mem_append_left _ (mem_of_getLast? (hprev ▸ hl'))
    · refine if_neg fun hl' => hud ?_
      rw [hl]
      exact mem_append_right _ (mem_cons_of_mem t (mem_of_head? (hnext ▸ hl')))
  · rw [rqRemoveLocked_rq hon hp hn]
    by_cases hut : u = t
    · subst hut
      simp only [if_true, Bool.false_eq_true, false_iff, not_exists]
      intro e
      by_cases he : e = d
      · subst he
        rw [update_self, herase]
        exact ht1
      · rw [update_of_ne he]
        exact fun hu => hother e he u hu hmem
    · rw [if_neg hut]
      refine (h.queued u).trans (exists_congr fun e => ?_)
      by_cases he : e = d
      · subst he
        rw [update_self, mem_erase_of_ne hut]
      · rw [update_of_ne he]
  · exact h.disjoint u e f (mem_of_mem_erased he) (mem_of_mem_erased hf)

theorem push (h : Queues q s) (hoff : (s.task t).rq.onRunqueue = false) :
    Queues (update q c (q c ++ [t])) (rqPushTailLocked s c t) := by
  have hnm := h.not_mem hoff
  have htail : (s.cpu c).rqTail ≠ some t := by
    rw [(h.queue c).tail_eq]
    exact fun he => hnm c (mem_of_getLast? he)
  have hrq := rqPushTailLocked_rq hoff htail
  have hcpu := rqPushTailLocked_cpu (c := c) hoff
  refine ⟨fun e => ?_, fun u => ?_, fun u e f he hf => ?_⟩
  · by_cases he : e = c
    · subst he
      rw [hcpu e, if_pos rfl, update_self]
      refine (h.queue e).push (hnm e) (fun u hu => ?_) (fun u hu => ?_) ?_ ?_
      · rw [hrq, if_neg (fun (hut : u = t) => hnm e (hut ▸ hu))]
      · rw [hrq, if_neg (fun (hut : u = t) => hnm e (hut ▸ hu))]
      · rw [hrq, if_pos rfl]
      · rw [hrq, if_pos rfl]
    · rw [hcpu e, if_neg he, update_of_ne he]
      refine (h.queue e).congr (fun u hu => ?_) (fun u hu => ?_) <;>
        rw [hrq, if_neg (fun (hut : u = t) => hnm e (hut ▸ hu))]
      rw [(h.queue c).tail_eq, if_neg]
      exact fun hl => he (h.disjoint u e c hu (mem_of_getLast? hl))
  · rw [hrq]
    by_cases hut : u = t
    · subst hut
      simp only [if_true, true_iff]
      exact ⟨c, by simp⟩
    rw [if_neg hut]
    refine (h.queued u).trans (exists_congr fun e => ?_)
    by_cases he : e = c
    · subst he
      simp [hut]
    · rw [update_of_ne he]
  · rcases mem_pushed he with he' | ⟨rfl, rfl⟩ <;> rcases mem_pushed hf with hf' | ⟨hu, hf'⟩
    · exact h.disjoint u e f he' hf'
    · exact absurd (hu ▸ he') (hnm e)
    · exact absurd hf' (hnm f)
    · exact hf'.symm

/-- Popping an empty queue does nothing; otherwise the head is unlinked. -/
theorem pop_cases (h : Queues q s) (c : CpuId) : q c = [] ∧ rqPopHeadLocked s c = (s, none) ∨
    ∃ t l, q c = t :: l ∧ rqPopHeadLocked s c = (rqRemoveLocked s c t, some t) ∧
      Queues (update q c l) (rqRemoveLocked s c t) := by
  have hq := h.queue c
  rcases hqc : q c with _ | ⟨t, l⟩
  · refine .inl ⟨rfl, rqPopHeadLocked_none ?_⟩
    rw [hq.head_eq, hqc]
    rfl
  refine .inr ⟨t, l, rfl, rqPopHeadLocked_eq_remove ?_ ?_ ?_, ?_⟩
  · rw [hq.head_eq, hqc]
    rfl
  · exact (h.queued t).mpr ⟨c, by simp [hqc]⟩
  · have hq' := hq
    rw [hqc, ← nil_append (t :: l)] at hq'
    exact hq'.prev_eq
  · have := h.remove (d := c) (t := t) (by simp [hqc]) (.inl rfl)
    simpa [hqc] using this

end Queues

end EdgeOS
