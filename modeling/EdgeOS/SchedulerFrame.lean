import EdgeOS.RunQueue

namespace EdgeOS

open TaskTable EdgeOS.Task

/-! What the scheduler never touches, and how it moves task states. -/

def Task.noSched (x : Task) : Task :=
  { x with state := .unused, rq := {}, assignedCpu := 0, needResched := false }

/-- The scheduler took `s` to `s'`: only states, queues and current tasks may differ. -/
structure SchedMoves (s s' : TaskTable) : Prop where
  noSched : ∀ u, (s'.task u).noSched = (s.task u).noSched
  nextPid : s'.nextPid = s.nextPid
  localCpuId : s'.localCpuId = s.localCpuId
  idle : ∀ c, (s'.cpu c).idle = (s.cpu c).idle

namespace SchedMoves

variable {s s' s'' : TaskTable}

theorem refl (s : TaskTable) : SchedMoves s s := ⟨fun _ => rfl, rfl, rfl, fun _ => rfl⟩

theorem trans (h : SchedMoves s s') (h' : SchedMoves s' s'') : SchedMoves s s'' where
  noSched u := (h'.noSched u).trans (h.noSched u)
  nextPid := h'.nextPid.trans h.nextPid
  localCpuId := h'.localCpuId.trans h.localCpuId
  idle c := (h'.idle c).trans (h.idle c)

theorem ite {p : Prop} [Decidable p] {a b : TaskTable} (ha : SchedMoves s a)
    (hb : SchedMoves s b) : SchedMoves s (if p then a else b) := by
  split_ifs
  · exact ha
  · exact hb

theorem tree (h : SchedMoves s s') (u : TaskRef) : (s'.task u).tree = (s.task u).tree := by
  have h1 := congrArg Task.tree (h.noSched u)
  exact h1

theorem pid (h : SchedMoves s s') (u : TaskRef) : (s'.task u).pid = (s.task u).pid := by
  have h1 := congrArg Task.pid (h.noSched u)
  exact h1

theorem ppid (h : SchedMoves s s') (u : TaskRef) : (s'.task u).ppid = (s.task u).ppid := by
  have h1 := congrArg Task.ppid (h.noSched u)
  exact h1

theorem pgid (h : SchedMoves s s') (u : TaskRef) : (s'.task u).pgid = (s.task u).pgid := by
  have h1 := congrArg Task.pgid (h.noSched u)
  exact h1

theorem isIdle (h : SchedMoves s s') (u : TaskRef) : (s'.task u).isIdle = (s.task u).isIdle := by
  have h1 := congrArg Task.isIdle (h.noSched u)
  exact h1

theorem modify (s : TaskTable) (t : TaskRef) {f : Task → Task}
    (hf : ∀ x, (f x).noSched = x.noSched) : SchedMoves s (s.modify t f) where
  noSched u := modify_proj s t u f Task.noSched hf
  nextPid := rfl
  localCpuId := rfl
  idle _ := rfl

theorem modifyRq (s : TaskTable) (t : TaskRef) (f : RqLinks → RqLinks) :
    SchedMoves s (s.modifyRq t f) := modify s t fun _ => rfl

theorem modifyCpu (s : TaskTable) (c : CpuId) {g : SchedulerCpu → SchedulerCpu}
    (hg : ∀ x, (g x).idle = x.idle) : SchedMoves s (s.modifyCpu c g) where
  noSched _ := rfl
  nextPid := rfl
  localCpuId := rfl
  idle d := by
    rw [modifyCpu_cpu]
    split_ifs with hd
    · rw [hd, hg]
    · rfl

theorem rqRemoveLocked (s : TaskTable) (c : CpuId) (t : TaskRef) : SchedMoves s (rqRemoveLocked s c t) := by
  unfold EdgeOS.rqRemoveLocked
  split_ifs
  · exact refl s
  · refine trans ?_ (modifyRq _ _ _)
    split <;> split
    · exact trans (modifyRq _ _ _) (modifyRq _ _ _)
    · refine trans ?_ (modifyRq _ _ _)
      exact modifyCpu _ _ fun _ => rfl
    · refine trans ?_ (modifyCpu _ _ fun _ => rfl)
      exact modifyRq _ _ _
    · refine trans ?_ (modifyCpu _ _ fun _ => rfl)
      exact modifyCpu _ _ fun _ => rfl

theorem rqPushTailLocked (s : TaskTable) (c : CpuId) (t : TaskRef) : SchedMoves s (rqPushTailLocked s c t) := by
  unfold EdgeOS.rqPushTailLocked
  split_ifs
  · exact refl s
  · dsimp only
    refine trans ?_ (modifyRq _ _ _)
    refine trans ?_ (modifyCpu _ _ fun _ => rfl)
    split
    · exact trans (modifyRq s t _) (modifyRq _ _ _)
    · refine trans ?_ (modifyCpu _ _ fun _ => rfl)
      exact modifyRq s t _

theorem rqPopHeadLocked (s : TaskTable) (c : CpuId) : SchedMoves s (rqPopHeadLocked s c).1 := by
  unfold EdgeOS.rqPopHeadLocked
  split
  · exact refl s
  rename_i t _
  have h1 : SchedMoves s (s.modifyCpu c fun x => { x with rqHead := (s.task t).rq.next }) :=
    modifyCpu _ _ fun _ => rfl
  dsimp only
  refine trans (trans h1 ?_) (modifyRq _ _ _)
  split
  · exact modifyRq _ _ _
  · exact modifyCpu _ _ fun _ => rfl

theorem pickNextLoop (n : ℕ) (s : TaskTable) (c : CpuId) : SchedMoves s (pickNextLoop n s c).1 := by
  induction n generalizing s with
  | zero => exact refl s
  | succ n ih =>
    unfold EdgeOS.pickNextLoop
    have hpop := rqPopHeadLocked s c
    rcases hp : EdgeOS.rqPopHeadLocked s c with ⟨s1, _ | t⟩
    · rw [hp] at hpop
      exact hpop
    rw [hp] at hpop
    dsimp only at hpop ⊢
    split_ifs
    · exact hpop
    · exact hpop.trans (ih s1)

theorem setState (st : TaskState) (acpu : ℕ → ℤ) (s : TaskTable) (t : TaskRef) :
    SchedMoves s (schedulerTaskSetState st acpu s t) := by
  unfold schedulerTaskSetState
  by_cases hi : (s.task t).isIdle = true
  · rw [if_pos hi]
    exact refl s
  rw [if_neg hi]
  simp only [ite_rqRemoveLocked]
  refine trans ?_ (modify _ _ fun _ => rfl)
  exact rqRemoveLocked s _ t

theorem makeRunnable (s : TaskTable) (t : TaskRef) (cpuId : ℕ) :
    SchedMoves s (schedulerTaskMakeRunnable s t cpuId) := by
  unfold schedulerTaskMakeRunnable
  by_cases hi : (s.task t).isIdle = true
  · rw [if_pos hi]
    exact refl s
  rw [if_neg hi]
  simp only [ite_rqRemoveLocked]
  refine trans ?_ (rqPushTailLocked _ _ _)
  refine trans ?_ (modify _ _ fun _ => rfl)
  refine trans ?_ (rqRemoveLocked _ _ _)
  refine trans ?_ (modify _ _ fun _ => rfl)
  exact ite (rqRemoveLocked s _ t) (refl s)

theorem scheduleCommon (s : TaskTable) (tickMode : Bool) : SchedMoves s (scheduleCommon s tickMode) := by
  unfold EdgeOS.scheduleCommon
  dsimp only
  split
  · exact refl s
  rename_i prev _
  refine trans ?_ (modifyCpu _ _ fun _ => rfl)
  have h1 : SchedMoves s (if requeues s prev tickMode = true then
      EdgeOS.rqPushTailLocked (s.modify prev fun x => { x with state := .runnable })
        (schedulerCpuId s) prev else s) := by
    refine ite (trans ?_ (rqPushTailLocked _ _ _)) (refl s)
    exact modify s prev fun _ => rfl
  generalize (if requeues s prev tickMode = true then
      EdgeOS.rqPushTailLocked (s.modify prev fun x => { x with state := .runnable })
        (schedulerCpuId s) prev else s) = s1 at h1 ⊢
  have h2 : SchedMoves s1 (pickNextRunnableLocked s1 (schedulerCpuId s)).1 :=
    pickNextLoop _ s1 _
  refine h1.trans (h2.trans ?_)
  generalize pickNextRunnableLocked s1 (schedulerCpuId s) = r
  rcases r with ⟨s2, _ | n⟩
  · exact refl s2
  · exact ite (refl s2) (modify s2 n fun _ => rfl)

end SchedMoves

/-! ## States -/

section States

variable (s : TaskTable) (c : CpuId) (t u : TaskRef)

theorem rqRemoveLocked_state : ((rqRemoveLocked s c t).task u).state = (s.task u).state := by
  have h := congrArg state (rqRemoveLocked_noRq s c t u)
  exact h

theorem rqPushTailLocked_state : ((rqPushTailLocked s c t).task u).state = (s.task u).state := by
  have h := congrArg state (rqPushTailLocked_noRq s c t u)
  exact h

theorem setState_state (st : TaskState) (acpu : ℕ → ℤ) : ((schedulerTaskSetState st acpu s t).task u).state =
      if u = t ∧ (s.task t).isIdle = false then st else (s.task u).state := by
  unfold schedulerTaskSetState
  by_cases hi : (s.task t).isIdle = true
  · rw [if_pos hi, if_neg (by simp [hi])]
  rw [if_neg hi]
  simp only [ite_rqRemoveLocked]
  have hi' : (s.task t).isIdle = false := by simpa using hi
  by_cases hu : u = t
  · have hc : t = t ∧ (s.task t).isIdle = false := ⟨rfl, hi'⟩
    rw [hu, if_pos hc, modify_task_self]
  · have hc : ¬ (u = t ∧ (s.task t).isIdle = false) := fun h => hu h.1
    rw [if_neg hc, modify_task_ne _ _ hu, rqRemoveLocked_state]

theorem makeRunnable_state (cpuId : ℕ) : ((schedulerTaskMakeRunnable s t cpuId).task u).state =
      if u = t ∧ (s.task t).isIdle = false then .runnable else (s.task u).state := by
  unfold schedulerTaskMakeRunnable
  by_cases hi : (s.task t).isIdle = true
  · rw [if_pos hi, if_neg (by simp [hi])]
  rw [if_neg hi]
  simp only [ite_rqRemoveLocked]
  have hi' : (s.task t).isIdle = false := by simpa using hi
  rw [rqPushTailLocked_state]
  by_cases hu : u = t
  · have hc : t = t ∧ (s.task t).isIdle = false := ⟨rfl, hi'⟩
    rw [hu, if_pos hc, modify_task_self]
  have hc : ¬ (u = t ∧ (s.task t).isIdle = false) := fun h => hu h.1
  rw [if_neg hc, modify_task_ne _ _ hu, rqRemoveLocked_state, modify_task_ne _ _ hu,
    apply_ite (fun x : TaskTable => (x.task u).state), rqRemoveLocked_state, ite_self]

variable {s} in
theorem schedulerCurrentTask_congr {s' : TaskTable} (hcpu : ∀ c, (s'.cpu c).noRq = (s.cpu c).noRq)
    (hid : s'.localCpuId = s.localCpuId) : schedulerCurrentTask s' = schedulerCurrentTask s := by
  have h1 : ∀ c, (s'.cpu c).current = (s.cpu c).current := by
    intro c
    have h := congrArg SchedulerCpu.current (hcpu c)
    exact h
  have h2 : ∀ c, (s'.cpu c).idle = (s.cpu c).idle := by
    intro c
    have h := congrArg SchedulerCpu.idle (hcpu c)
    exact h
  unfold schedulerCurrentTask schedulerCpuId
  dsimp only
  rw [hid, h1, h2]

theorem setState_current (st : TaskState) (acpu : ℕ → ℤ) :
    schedulerCurrentTask (schedulerTaskSetState st acpu s t) = schedulerCurrentTask s := by
  refine schedulerCurrentTask_congr (fun c => ?_) (SchedMoves.setState st acpu s t).localCpuId
  unfold schedulerTaskSetState
  by_cases hi : (s.task t).isIdle = true
  · rw [if_pos hi]
  rw [if_neg hi]
  simp only [ite_rqRemoveLocked, modify_cpu]
  exact rqRemoveLocked_cpu_noRq _ _ _ _

theorem makeRunnable_current (cpuId : ℕ) :
    schedulerCurrentTask (schedulerTaskMakeRunnable s t cpuId) = schedulerCurrentTask s := by
  refine schedulerCurrentTask_congr (fun c => ?_) (SchedMoves.makeRunnable s t cpuId).localCpuId
  unfold schedulerTaskMakeRunnable
  by_cases hi : (s.task t).isIdle = true
  · rw [if_pos hi]
  rw [if_neg hi]
  simp only [ite_rqRemoveLocked]
  rw [rqPushTailLocked_cpu_noRq, modify_cpu, rqRemoveLocked_cpu_noRq, modify_cpu,
    apply_ite (fun x : TaskTable => (x.cpu c).noRq), rqRemoveLocked_cpu_noRq, ite_self]

end States

/-- The scheduler only moves a task between these two states. -/
def TaskState.Active (st : TaskState) : Prop := st = .running ∨ st = .runnable

/-- The loop of `pick_next_runnable_locked` keeps all states, and returns a runnable
task or the idle one. -/
theorem pickNextLoop_state (n : ℕ) (s : TaskTable) (c : CpuId) :
    (∀ u, ((pickNextLoop n s c).1.task u).state = (s.task u).state) ∧ ((pickNextLoop n s c).2 = (s.cpu c).idle ∨
        ∃ t, (pickNextLoop n s c).2 = some t ∧ (s.task t).state = .runnable) := by
  induction n generalizing s with
  | zero => exact ⟨fun _ => rfl, .inl rfl⟩
  | succ n ih =>
    unfold pickNextLoop
    have hst : ∀ u, ((rqPopHeadLocked s c).1.task u).state = (s.task u).state := by
      intro u
      have h := congrArg state (rqPopHeadLocked_noRq s c u)
      exact h
    have hidle := (SchedMoves.rqPopHeadLocked s c).idle c
    rcases hp : rqPopHeadLocked s c with ⟨s1, _ | t⟩
    · rw [hp] at hst hidle
      exact ⟨hst, .inl hidle⟩
    rw [hp] at hst hidle
    dsimp only at hst hidle ⊢
    split_ifs with ht
    · exact ⟨hst, .inr ⟨t, rfl, (hst t).symm.trans ht⟩⟩
    obtain ⟨h1, h2⟩ := ih s1
    refine ⟨fun u => (h1 u).trans (hst u), ?_⟩
    rcases h2 with h2 | ⟨t', h2, h3⟩
    · exact .inl (h2.trans hidle)
    · exact .inr ⟨t', h2, (hst t').symm.trans h3⟩

/-- One call of `schedule_common`: states move between running and runnable only, and
the new current task is active or idle. -/
theorem scheduleCommon_state (s : TaskTable) (tickMode : Bool) {i : TaskRef}
    (hi : (s.cpu (schedulerCpuId s)).idle = some i) (hii : (s.task i).isIdle = true) :
    (∀ u, ((scheduleCommon s tickMode).task u).state = (s.task u).state ∨
      (s.task u).state.Active ∧ ((scheduleCommon s tickMode).task u).state.Active) ∧
    ∃ t, ((scheduleCommon s tickMode).cpu (schedulerCpuId s)).current = some t ∧
      (t = i ∨ ((scheduleCommon s tickMode).task t).state.Active) := by
  unfold scheduleCommon
  set c := schedulerCpuId s
  dsimp only
  have hcur : ∃ prev, (s.cpu c).current.or (s.cpu c).idle = some prev := by
    rw [hi]
    cases (s.cpu c).current <;> simp
  obtain ⟨prev, hprev⟩ := hcur
  rw [hprev]
  dsimp only
  generalize hs1 : (if requeues s prev tickMode = true then
      rqPushTailLocked (s.modify prev fun x => { x with state := .runnable }) c prev else s) = s1
  have h1 : ∀ u, (s1.task u).state = (s.task u).state ∨ (s.task u).state.Active ∧ (s1.task u).state.Active := by
    intro u
    rw [← hs1]
    split_ifs with hre
    · rw [rqPushTailLocked_state]
      by_cases hu : u = prev
      · right
        rw [hu, modify_task_self]
        unfold requeues at hre
        simp only [Bool.and_eq_true, Bool.or_eq_true, decide_eq_true_eq] at hre
        exact ⟨hre.2.imp id And.right, .inr rfl⟩
      · left
        rw [modify_task_ne _ _ hu]
    · exact .inl rfl
  have hidle1 : (s1.cpu c).idle = some i := by
    rw [← hs1, ← hi]
    split_ifs
    · have h := congrArg SchedulerCpu.idle (rqPushTailLocked_cpu_noRq
        (s.modify prev fun x => { x with state := .runnable }) c c prev)
      exact h
    · rfl
  have h2 := pickNextLoop_state (procMaxTasks + schedMaxCpus + 2) s1 c
  have h3 := SchedMoves.pickNextLoop (procMaxTasks + schedMaxCpus + 2) s1 c
  have hpick : pickNextRunnableLocked s1 c = pickNextLoop (procMaxTasks + schedMaxCpus + 2) s1 c := rfl
  rw [hpick]
  generalize pickNextLoop (procMaxTasks + schedMaxCpus + 2) s1 c = r at h2 h3 ⊢
  obtain ⟨s2, next⟩ := r
  dsimp only at h2 h3 ⊢
  obtain ⟨hst, hnext⟩ := h2
  have hmoves : ∀ u, (s2.task u).state = (s.task u).state ∨ (s.task u).state.Active ∧ (s2.task u).state.Active := by
    intro u
    rw [hst u]
    exact h1 u
  rcases hnext with hnext | ⟨t, hnext, ht⟩
  · -- The idle task is left alone.
    have hii2 : (s2.task i).isIdle = true := by
      have hs1i : (s1.task i).isIdle = (s.task i).isIdle := by
        rw [← hs1]
        split_ifs
        · rw [(SchedMoves.rqPushTailLocked _ c prev).isIdle i]
          exact modify_proj s prev i _ isIdle fun _ => rfl
        · rfl
      rw [h3.isIdle i, hs1i, hii]
    rw [hnext, hidle1]
    dsimp only
    rw [if_pos hii2]
    exact ⟨hmoves, i, by simp, .inl rfl⟩
  · rw [hnext]
    dsimp only
    by_cases hti : (s2.task t).isIdle = true
    · rw [if_pos hti]
      refine ⟨hmoves, t, by simp, .inr (.inr ?_)⟩
      exact (hst t).trans ht
    rw [if_neg hti]
    refine ⟨fun u => ?_, t, by simp, .inr (.inl ?_)⟩
    · by_cases hu : u = t
      · right
        have hact : (s.task t).state.Active := by
          rcases h1 t with h | ⟨h, -⟩
          · exact .inr (h.symm.trans ht)
          · exact h
        rw [hu]
        refine ⟨hact, .inl ?_⟩
        rw [modifyCpu_task, modify_task_self]
      · rw [modifyCpu_task, modify_task_ne _ _ hu]
        exact hmoves u
    · rw [modifyCpu_task, modify_task_self]

end EdgeOS
