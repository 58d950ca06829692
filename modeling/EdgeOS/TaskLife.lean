import EdgeOS.GroupKill

namespace EdgeOS

open Lib TaskTable List TreeMoves EdgeOS.Task SchedMoves

/-!
Births and deaths of tasks: what each function of `src/sys/process.c` does to the pid, the exit
code and the state of every task, as far as a waiting parent can see it.
-/

/-- What a parent sees of a task: its pid and exit code, whether the slot is free and whether
the task is a zombie. -/
def Task.life (x : Task) : ℤ × ℤ × Bool × Bool :=
  (x.pid, x.exitCode, x.state = .unused, x.state = .zombie)

theorem Task.life_eq {x y : Task} (hpid : x.pid = y.pid) (hcode : x.exitCode = y.exitCode)
    (hu : x.state = .unused ↔ y.state = .unused) (hz : x.state = .zombie ↔ y.state = .zombie) :
    x.life = y.life := by
  unfold life
  rw [hpid, hcode]
  simp only [hu, hz]

section Fields

variable {x y : Task} (h : x.life = y.life)

include h

theorem Task.life_pid : x.pid = y.pid := congrArg (fun l => l.1) h

theorem Task.life_exitCode : x.exitCode = y.exitCode := congrArg (fun l => l.2.1) h

theorem Task.life_unused : x.state = .unused ↔ y.state = .unused := by
  have hu : decide (x.state = .unused) = decide (y.state = .unused) := congrArg (fun l => l.2.2.1) h
  simpa using hu

theorem Task.life_zombie : x.state = .zombie ↔ y.state = .zombie := by
  have hz : decide (x.state = .zombie) = decide (y.state = .zombie) := congrArg (fun l => l.2.2.2) h
  simpa using hz

end Fields

/-- Nobody is born and nobody dies between `s` and `s'`. -/
structure Unharmed (s s' : TaskTable) : Prop where
  life : ∀ u, (s'.task u).life = (s.task u).life
  nextPid : s'.nextPid = s.nextPid

/-- `t` dies with exit code `code`, nobody else does. -/
structure Dies (t : TaskRef) (code : ℤ) (s s' : TaskTable) : Prop where
  other : ∀ u, u ≠ t → (s'.task u).life = (s.task u).life
  self : (s'.task t).pid = (s.task t).pid ∧ (s'.task t).exitCode = code ∧ (s'.task t).state = .zombie
  pgid : ∀ u, (s'.task u).pgid = (s.task u).pgid
  nextPid : s'.nextPid = s.nextPid

section Moves

variable {s s' s'' : TaskTable} {t : TaskRef} {code : ℤ}

theorem Unharmed.refl (s : TaskTable) : Unharmed s s := ⟨fun _ => rfl, rfl⟩

theorem Unharmed.trans (h : Unharmed s s') (h' : Unharmed s' s'') : Unharmed s s'' :=
  ⟨fun u => (h'.life u).trans (h.life u), h'.nextPid.trans h.nextPid⟩

theorem Unharmed.modify (s : TaskTable) (t : TaskRef) {f : Task → Task}
    (hf : ∀ x, (f x).life = x.life) : Unharmed s (s.modify t f) :=
  ⟨fun u => modify_proj s t u f Task.life hf, rfl⟩

theorem TreeMoves.unharmed (h : TreeMoves s s') : Unharmed s s' := by
  refine ⟨fun u => ?_, h.nextPid⟩
  have h1 := congrArg life (h.noTree u)
  exact h1

theorem SchedMoves.exitCode (h : SchedMoves s s') (u : TaskRef) : (s'.task u).exitCode = (s.task u).exitCode := by
  have h1 := congrArg Task.exitCode (h.noSched u)
  exact h1

theorem SchedMoves.unharmed (h : SchedMoves s s') (hu : ∀ u, (s'.task u).state = .unused ↔ (s.task u).state = .unused)
    (hz : ∀ u, (s'.task u).state = .zombie ↔ (s.task u).state = .zombie) : Unharmed s s' :=
  ⟨fun u => life_eq (h.pid u) (h.exitCode u) (hu u) (hz u), h.nextPid⟩

theorem wakeIfBlocked_unharmed (s : TaskTable) (t : TaskRef) : Unharmed s (wakeIfBlocked s t) := by
  have hq := wakeIfBlocked_quiet s t
  unfold wakeIfBlocked at hq ⊢
  split_ifs at hq ⊢
  · exact (makeRunnable s t _).unharmed hq.unused hq.zombie
  · exact .refl s

theorem notify_unharmed (s : TaskTable) (par : Option TaskRef) : Unharmed s (processNotifyParentSigchld s par) := by
  rcases par with _ | p
  · exact .refl s
  unfold processNotifyParentSigchld
  dsimp only
  split_ifs
  · exact .refl s
  · refine Unharmed.trans ?_ (wakeIfBlocked_unharmed _ p)
    exact .modify s p fun _ => rfl
  · exact wakeIfBlocked_unharmed s p

theorem TreeInv.yield_unharmed (h : TreeInv s) : Unharmed s (schedulerYield s) := by
  have hq := h.yield_quiet
  exact (SchedMoves.scheduleCommon s false).unharmed hq.unused hq.zombie

theorem rtSigaction_unharmed (s : TaskTable) (sig handler : ℕ) : Unharmed s (rtSigaction s sig handler) := by
  unfold rtSigaction
  apply Unharmed.modify
  intro x
  rfl

theorem setpgid_unharmed (s : TaskTable) (pid pgid : ℤ) : Unharmed s (processSetpgid s pid pgid).1 := by
  rcases processSetpgid_cases s pid pgid with heq | ⟨t, g, -, heq⟩
  · rw [heq]
    exact .refl s
  rw [heq]
  apply Unharmed.modify
  intro x
  rfl

theorem setsid_unharmed (s : TaskTable) : Unharmed s (processSetsid s).1 := by
  unfold processSetsid
  dsimp only
  split
  · exact .refl s
  dsimp only
  apply Unharmed.modify
  intro x
  rfl

/-! ## Adoption -/

theorem adoptList_moves (dst : Option TaskRef) (n : ℕ) (s : TaskTable) (c : Option TaskRef)
    (moved : ℕ) : TreeMoves s (adoptList dst n s c moved).1 := by
  induction n generalizing s c moved with
  | zero => exact .refl s
  | succ n ih =>
    cases c with
    | none => exact .refl s
    | some c => exact (link s dst c).trans (ih _ _ _)

theorem adoptTable_moves (fromPpid : ℤ) (dst : Option TaskRef) (s : TaskTable)
    (l : List (Fin procMaxTasks)) (moved : ℕ) :
    TreeMoves s (l.foldl (adoptTable fromPpid dst) (s, moved)).1 := by
  induction l generalizing s moved with
  | nil => exact .refl s
  | cons i l ih =>
    rw [foldl_cons]
    unfold adoptTable
    dsimp only
    split_ifs
    · exact ih s moved
    · exact (link s dst (.slot i)).trans (ih _ _)

theorem processAdoptOrphans_moves (s : TaskTable) (fromPpid toPpid : ℤ) :
    TreeMoves s (processAdoptOrphans s fromPpid toPpid).1 := by
  unfold processAdoptOrphans
  dsimp only
  split
  · exact adoptList_moves _ _ _ _ _
  · exact adoptTable_moves _ _ _ _ _

/-! ## Death -/

theorem Dies.right (h : Dies t code s s') (h' : Unharmed s' s'')
    (hp : ∀ u, (s''.task u).pgid = (s'.task u).pgid) : Dies t code s s'' where
  other u hu := (h'.life u).trans (h.other u hu)
  self := ⟨(life_pid (h'.life t)).trans h.self.1,
    (life_exitCode (h'.life t)).trans h.self.2.1, (life_zombie (h'.life t)).mpr h.self.2.2⟩
  pgid u := (hp u).trans (h.pgid u)
  nextPid := h'.nextPid.trans h.nextPid

/-- The core of a death: the exit code is written, then the family moves, then the task
becomes a zombie. -/
theorem dies_of_zombie {s1 : TaskTable} (hi : (s.task t).isIdle = false)
    (hm : TreeMoves (s.modify t fun x => { x with exitCode := code }) s1) :
    Dies t code s (schedulerTaskSetZombie s1 t) := by
  have hz : SchedMoves s1 (schedulerTaskSetZombie s1 t) := setState _ _ s1 t
  have hidle : (s1.task t).isIdle = false := by
    rw [hm.isIdle, modify_task_self]
    exact hi
  have hstate : ∀ u, ((schedulerTaskSetZombie s1 t).task u).state = if u = t then .zombie else (s1.task u).state := by
    intro u
    unfold schedulerTaskSetZombie
    rw [setState_state]
    simp only [hidle, and_true]
  refine ⟨fun u hu => ?_, ⟨?_, ?_, ?_⟩, fun u => ?_, ?_⟩
  · have hlife : (s1.task u).life = (s.task u).life := by
      rw [hm.unharmed.life u, modify_task_ne _ _ hu]
    rw [← hlife]
    apply life_eq (hz.pid u) (hz.exitCode u)
    · rw [hstate, if_neg hu]
    · rw [hstate, if_neg hu]
  · rw [hz.pid, hm.pid, modify_task_self]
  · rw [hz.exitCode, life_exitCode (hm.unharmed.life t), modify_task_self]
  · rw [hstate, if_pos rfl]
  · rw [hz.pgid, hm.pgid]
    exact modify_proj s t u _ pgid fun _ => rfl
  · rw [hz.nextPid, hm.nextPid, modify_nextPid]

theorem notify_pgid (s : TaskTable) (par : Option TaskRef) (u : TaskRef) :
    ((processNotifyParentSigchld s par).task u).pgid = (s.task u).pgid := by
  have h := (notify_quiet s par).ident u
  simp only [Task.ident, Prod.mk.injEq] at h
  exact h.2.1

/-- `process_exit_current` and `process_kill_pid`, past their tests. -/
theorem terminate_dies (hi : (s.task t).isIdle = false) (code : ℤ) : Dies t code s (terminate s t code) := by
  unfold terminate
  dsimp only
  have hm := processAdoptOrphans_moves (s.modify t fun x => { x with exitCode := code })
    ((s.modify t fun x => { x with exitCode := code }).task t).pid 1
  generalize (processAdoptOrphans (s.modify t fun x => { x with exitCode := code })
    ((s.modify t fun x => { x with exitCode := code }).task t).pid 1).1 = s1 at hm ⊢
  have hnotify : ∀ {s2 : TaskTable} (par : Option TaskRef), Dies t code s s2 →
      Dies t code s (processNotifyParentSigchld s2 par) :=
    fun par h => h.right (notify_unharmed _ par) (notify_pgid _ par)
  split
  · rename_i p init _ _
    split_ifs
    · have hm2 := hm.trans ((unlink s1 t).trans (link _ (some init) t))
      exact hnotify _ (dies_of_zombie hi hm2)
    · exact hnotify _ (dies_of_zombie hi hm)
  · exact hnotify _ (dies_of_zombie hi hm)

/-- A round of `process_kill_pgid` on a task of the group. -/
theorem killPgidStep_dies {pgid : ℤ} (code : ℤ) (killed : ℕ) {i : Fin procMaxTasks}
    (hi : (s.task (.slot i)).isIdle = false)
    (hin : ¬ ((s.task (.slot i)).state = .unused ∨ (s.task (.slot i)).pid = 1 ∨ (s.task (.slot i)).pgid ≠ pgid)) :
    Dies (.slot i) code s (killPgidStep pgid code (s, killed) i).1 := by
  unfold killPgidStep
  dsimp only
  rw [if_neg hin]
  have hm := processAdoptOrphans_moves (s.modify (.slot i) fun x => { x with exitCode := code })
    (s.task (.slot i)).pid 1
  generalize (processAdoptOrphans (s.modify (.slot i) fun x => { x with exitCode := code })
    (s.task (.slot i)).pid 1).1 = s1 at hm ⊢
  have hz := dies_of_zombie hi hm
  dsimp only
  split
  · rename_i p _
    refine hz.right (wakeIfBlocked_unharmed _ p) fun u => ?_
    have h := (wakeIfBlocked_quiet (schedulerTaskSetZombie s1 (.slot i)) p).ident u
    simp only [Task.ident, Prod.mk.injEq] at h
    exact h.2.1
  · exact hz

/-- Some tasks die between `s` and `s'`, all with exit code `code`; no zombie changes. -/
structure Deaths (code : ℤ) (s s' : TaskTable) : Prop where
  life : ∀ u, (s'.task u).life = (s.task u).life ∨
    (s.task u).state ≠ .unused ∧ (s.task u).state ≠ .zombie ∧ (s'.task u).pid = (s.task u).pid ∧
      (s'.task u).exitCode = code ∧ (s'.task u).state = .zombie
  nextPid : s'.nextPid = s.nextPid

theorem Unharmed.deaths (h : Unharmed s s') (code : ℤ) : Deaths code s s' :=
  ⟨fun u => .inl (h.life u), h.nextPid⟩

theorem Dies.deaths (h : Dies t code s s') (hl : Live s t) (hz : (s.task t).state ≠ .zombie) : Deaths code s s' := by
  refine ⟨fun u => ?_, h.nextPid⟩
  by_cases hu : u = t
  · subst hu
    exact .inr ⟨hl, hz, h.self⟩
  · exact .inl (h.other u hu)

theorem Deaths.trans (h : Deaths code s s') (h' : Deaths code s' s'') : Deaths code s s'' := by
  refine ⟨fun u => ?_, h'.nextPid.trans h.nextPid⟩
  rcases h.life u with h1 | ⟨hl, hz, hpid, hcode, hzombie⟩
  · rcases h'.life u with h2 | ⟨hl, hz, hpid, hcode, hzombie⟩
    · exact .inl (h2.trans h1)
    · refine .inr ⟨fun hu => ?_, fun hz' => ?_, hpid.trans (life_pid h1), hcode, hzombie⟩
      · exact hl ((life_unused h1).mpr hu)
      · exact hz ((life_zombie h1).mpr hz')
  right
  -- A zombie stays as it is.
  have h2 : (s''.task u).life = (s'.task u).life := by
    rcases h'.life u with h2 | ⟨-, hnz, -⟩
    · exact h2
    · exact absurd hzombie hnz
  exact ⟨hl, hz, (life_pid h2).trans hpid, (life_exitCode h2).trans hcode, (life_zombie h2).mpr hzombie⟩

theorem exitCurrent_deaths (h : TreeInv s) (hcur : IsSlot (schedulerCurrentTask s)) (code : ℤ)
    (hz : (s.task (schedulerCurrentTask s)).state ≠ .zombie) :
    Deaths code s (processExitCurrent s code) := by
  unfold processExitCurrent
  dsimp only
  split_ifs
  · exact (Unharmed.refl s).deaths code
  · exact (terminate_dies (h.not_isIdle hcur) code).deaths h.1.current hz

theorem killPid_deaths (h : TreeInv s) (pid code : ℤ)
    (hz : ∀ t, taskFindByPid s pid = some t → (s.task t).state ≠ .zombie) :
    Deaths code s (processKillPid s pid code).1 := by
  unfold processKillPid
  split
  · exact (Unharmed.refl s).deaths code
  rename_i t ht
  obtain ⟨h1, h2, -⟩ := taskFindByPid_some ht
  split_ifs
  · exact (Unharmed.refl s).deaths code
  · exact (terminate_dies (h.not_isIdle h1) code).deaths h2 (hz t ht)

/-- The loop of `process_kill_pgid`: the tasks it has not come to are as they were. -/
theorem killPgid_fold (h : TreeInv s) (pgid code : ℤ) (l : List (Fin procMaxTasks)) (hl : l.Nodup)
    (hz : ∀ i ∈ l, (s.task (.slot i)).pgid = pgid → (s.task (.slot i)).state ≠ .zombie)
    (killed : ℕ) : Deaths code s (l.foldl (killPgidStep pgid code) (s, killed)).1 := by
  induction l generalizing s killed with
  | nil => exact (Unharmed.refl s).deaths code
  | cons i l ih =>
    obtain ⟨hni, hl⟩ := nodup_cons.mp hl
    rw [foldl_cons]
    by_cases hin : (s.task (.slot i)).state = .unused ∨ (s.task (.slot i)).pid = 1 ∨ (s.task (.slot i)).pgid ≠ pgid
    · have hskip : killPgidStep pgid code (s, killed) i = (s, killed) := if_pos hin
      rw [hskip]
      exact ih h hl (fun j hj => hz j (mem_cons_of_mem i hj)) killed
    have hstep := killPgidStep_dies code killed (h.1.slots i) hin
    have hinv := h.killPgidStep pgid code killed i
    push Not at hin
    refine (hstep.deaths hin.1 (hz i mem_cons_self hin.2.2)).trans
      (ih hinv hl (fun j hj => ?_) (killPgidStep pgid code (s, killed) i).2)
    have hji : TaskRef.slot j ≠ .slot i := by
      intro he
      exact hni (TaskRef.slot.inj he ▸ hj)
    rw [hstep.pgid, ne_eq, life_zombie (hstep.other _ hji)]
    exact hz j (mem_cons_of_mem i hj)

theorem killPgid_deaths (h : TreeInv s) (pgid code : ℤ)
    (hz : ∀ i, (s.task (.slot i)).pgid = pgid → (s.task (.slot i)).state ≠ .zombie) :
    Deaths code s (processKillPgid s pgid code).1 := by
  unfold processKillPgid
  split_ifs
  · exact (Unharmed.refl s).deaths code
  · have hfold := killPgid_fold h pgid code (finRange procMaxTasks)
      (nodup_finRange procMaxTasks) (fun i _ => hz i) 0
    generalize (finRange procMaxTasks).foldl (killPgidStep pgid code) (s, 0) = r at hfold ⊢
    exact hfold

/-- A signal to a task that is no zombie: it dies, or is told. -/
theorem signalOne_deaths (h : TreeInv s) (ht : IsSlot t) (sig : ℤ) :
    Deaths (128 + sig) s (processSignalOne s t sig).1 := by
  have hnone := (Unharmed.refl s).deaths (128 + sig)
  unfold processSignalOne
  dsimp only
  by_cases hgone : (s.task t).state = .unused ∨ (s.task t).state = .zombie
  · rw [if_pos hgone]
    exact hnone
  rw [if_neg hgone]
  push Not at hgone
  have hkill : Deaths (128 + sig) s (processKillPid s (s.task t).pid (128 + sig)).1 := by
    refine killPid_deaths h _ _ fun t' ht' => ?_
    rw [h.1.find_self ht hgone.1] at ht'
    exact Option.some.inj ht' ▸ hgone.2
  have htold : ∀ f : Task → Task, (∀ x, (f x).life = x.life) →
      Deaths (128 + sig) s (wakeIfBlocked (s.modify t f) t) := by
    intro f hf
    exact ((Unharmed.modify s t hf).trans (wakeIfBlocked_unharmed _ t)).deaths _
  split_ifs
  · exact hnone
  · exact hkill
  · exact hnone
  · exact hnone
  · exact hnone
  · exact hkill
  · exact htold _ fun _ => rfl
  · exact hnone
  · exact hnone
  · exact hkill
  · exact htold _ fun _ => rfl

theorem sendSignal_deaths (h : TreeInv s) (pid sig : ℤ) : Deaths (128 + sig) s (processSendSignal s pid sig).1 := by
  unfold processSendSignal
  split_ifs
  · exact (Unharmed.refl s).deaths _
  · split
    · exact (Unharmed.refl s).deaths _
    · rename_i t ht
      exact signalOne_deaths h (taskFindByPid_some ht).1 sig

theorem sendSignalPgid_deaths (h : TreeInv s) (pgid sig : ℤ) :
    Deaths (128 + sig) s (processSendSignalPgid s pgid sig).1 := by
  unfold processSendSignalPgid
  split_ifs
  · exact (Unharmed.refl s).deaths _
  · have hfold := foldl_slots_inv (I := fun s' => TreeInv s' ∧ Deaths (128 + sig) s s')
      (g := signalPgidStep pgid sig) (fun s' k i hs => ⟨hs.1.signalPgidStep pgid sig k i, ?_⟩)
      (finRange procMaxTasks) 0 ⟨h, (Unharmed.refl s).deaths _⟩
    · generalize (finRange procMaxTasks).foldl (signalPgidStep pgid sig) (s, 0) = r at hfold ⊢
      exact hfold.2
    · refine hs.2.trans ?_
      unfold signalPgidStep
      dsimp only
      split_ifs
      · exact (Unharmed.refl s').deaths _
      · exact signalOne_deaths hs.1 ⟨i, rfl⟩ sig
      · exact signalOne_deaths hs.1 ⟨i, rfl⟩ sig

theorem setRunnable_unharmed {pid : ℤ} (hz : ∀ t, taskFindByPid s pid = some t → (s.task t).state ≠ .zombie) :
    Unharmed s (processSetRunnable s pid) := by
  unfold processSetRunnable
  split
  · exact .refl s
  rename_i t ht
  have hl := (taskFindByPid_some ht).2.1
  refine (makeRunnable s t _).unharmed (fun u => ?_) fun u => ?_
  · rw [makeRunnable_state]
    split_ifs with hu
    · rw [hu.1]
      exact ⟨fun hf => by simp at hf, fun hf => absurd hf hl⟩
    · exact Iff.rfl
  · rw [makeRunnable_state]
    split_ifs with hu
    · rw [hu.1]
      exact ⟨fun hf => by simp at hf, fun hf => absurd hf (hz t ht)⟩
    · exact Iff.rfl

/-! ## Birth -/

/-- A process is born with the next pid; if its image does not load, only the pid is gone. -/
structure Births (s s' : TaskTable) : Prop where
  life : ∃ i : Fin procMaxTasks, (s.task (.slot i)).state = .unused ∧
    (∀ u, u ≠ .slot i → (s'.task u).life = (s.task u).life) ∧
    ((s'.task (.slot i)).state = .unused ∨ (s'.task (.slot i)).pid = s.nextPid ∧
      (s'.task (.slot i)).state ≠ .unused ∧ (s'.task (.slot i)).state ≠ .zombie)
  nextPid : s'.nextPid = s.nextPid + 1

theorem FreshChild.births {s₁ : TaskTable} {i : Fin procMaxTasks} {p : TaskRef}
    (hfree : (s.task (.slot i)).state = .unused) (hB : FreshChild s s₁ i)
    (hlife : ∀ u, u ≠ .slot i → (s'.task u).life = ((taskChildLink s₁ (some p) (.slot i)).task u).life)
    (hchild : (s'.task (.slot i)).state = .unused ∨ (s'.task (.slot i)).pid = s.nextPid ∧
      (s'.task (.slot i)).state ≠ .unused ∧ (s'.task (.slot i)).state ≠ .zombie)
    (hnext : s'.nextPid = (taskChildLink s₁ (some p) (.slot i)).nextPid) : Births s s' := by
  have hm := link s₁ (some p) (.slot i)
  refine ⟨⟨i, hfree, fun u hu => ?_, hchild⟩, ?_⟩
  · rw [hlife u hu, hm.unharmed.life u, hB.other u hu]
  · rw [hnext, hm.nextPid, hB.nextPid]

theorem forkTable_child {i : Fin procMaxTasks} (h : (s.task (.slot i)).isIdle = false) (p : TaskRef) (tf : TrapFrame) :
    ((forkTable s p (.slot i) tf).task (.slot i)).pid = s.nextPid ∧
      ((forkTable s p (.slot i) tf).task (.slot i)).state ≠ .unused ∧
      ((forkTable s p (.slot i) tf).task (.slot i)).state ≠ .zombie := by
  have hB := forkPrepare_fresh h (p := p)
  have hm := link (forkPrepare s p (.slot i)) (some p) (.slot i)
  have hidle : ((taskChildLink (forkPrepare s p (.slot i)) (some p) (.slot i)).task
      (.slot i)).isIdle = false := by
    rw [hm.isIdle, hB.isIdle]
  have hpid : ((taskChildLink (forkPrepare s p (.slot i)) (some p) (.slot i)).task
      (.slot i)).pid = s.nextPid := by
    rw [hm.pid, hB.pid]
  unfold forkTable schedulerTaskSetBlocked
  dsimp only
  generalize taskChildLink (forkPrepare s p (.slot i)) (some p) (.slot i) = s2 at hidle hpid ⊢
  have hi : ((s2.modify (.slot i) (forkFrame tf)).task (.slot i)).isIdle = false := by
    rw [modify_task_self]
    exact hidle
  rw [setState_state, if_pos ⟨rfl, hi⟩, (setState .blocked Nat.cast _ _).pid, modify_task_self]
  exact ⟨hpid, by simp, by simp⟩

theorem forkTable_births (h : TreeInv s) {i : Fin procMaxTasks} {p : TaskRef}
    (hfree : (s.task (.slot i)).state = .unused) (tf : TrapFrame) :
    Births s (forkTable s p (.slot i) tf) := by
  have hB := forkPrepare_fresh (i := i) (p := p) (h.1.slots i)
  refine FreshChild.births (p := p) hfree hB (fun u hu => ?_) (.inr (forkTable_child (h.1.slots i) p tf)) ?_ <;>
    unfold forkTable schedulerTaskSetBlocked <;> dsimp only <;>
    generalize taskChildLink (forkPrepare s p (.slot i)) (some p) (.slot i) = s2
  · have hmv := setState .blocked Nat.cast (s2.modify (.slot i) (forkFrame tf)) (.slot i)
    have hst : ∀ v, v ≠ .slot i → ((schedulerTaskSetState .blocked Nat.cast
        (s2.modify (.slot i) (forkFrame tf)) (.slot i)).task v).state = (s2.task v).state := by
      intro v hv
      rw [setState_state, if_neg fun hc => hv hc.1, modify_task_ne _ _ hv]
    apply life_eq
    · rw [hmv.pid, modify_task_ne _ _ hu]
    · rw [hmv.exitCode, modify_task_ne _ _ hu]
    · rw [hst u hu]
    · rw [hst u hu]
  · exact (setState .blocked Nat.cast _ _).nextPid

/-! ## Giving slots back -/

/-- The slot `t` is given back, nobody else is touched. -/
structure Freed (t : TaskRef) (s s' : TaskTable) : Prop where
  other : ∀ u, u ≠ t → (s'.task u).life = (s.task u).life
  self : (s'.task t).state = .unused
  nextPid : s'.nextPid = s.nextPid

theorem taskRelease_freed (s : TaskTable) (t : TaskRef) : Freed t s (taskRelease s t) := by
  have hmv : SchedMoves s (schedulerTaskSetUnused s t) := setState _ _ s t
  unfold taskRelease
  refine ⟨fun u hu => ?_, ?_, hmv.nextPid⟩
  · have hst : ((schedulerTaskSetUnused s t).task u).state = (s.task u).state := by
      unfold schedulerTaskSetUnused
      rw [setState_state, if_neg fun hc => hu hc.1]
    rw [modify_task_ne _ _ hu]
    apply life_eq (hmv.pid u) (hmv.exitCode u)
    · rw [hst]
    · rw [hst]
  · rw [modify_task_self]

theorem Freed.left (h : Unharmed s s') (h' : Freed t s' s'') : Freed t s s'' :=
  ⟨fun u hu => (h'.other u hu).trans (h.life u), h'.self, h'.nextPid.trans h.nextPid⟩

theorem reap_freed (s : TaskTable) (t : TaskRef) : Freed t s (reap s t) :=
  Freed.left (unlink s t).unharmed (taskRelease_freed _ t)

theorem spawnTable_births (h : TreeInv s) {i : Fin procMaxTasks} {p : TaskRef}
    (hfree : (s.task (.slot i)).state = .unused) (name : String) (loaded : Bool) :
    Births s (spawnTable s p (.slot i) name loaded) := by
  have hB := spawnPrepare_fresh h (p := p) hfree name
  have hm := link (spawnPrepare s p (.slot i) name) (some p) (.slot i)
  have hidle : ((taskChildLink (spawnPrepare s p (.slot i) name) (some p) (.slot i)).task
      (.slot i)).isIdle = false := by
    rw [hm.isIdle, hB.isIdle]
  have hpid : ((taskChildLink (spawnPrepare s p (.slot i) name) (some p) (.slot i)).task
      (.slot i)).pid = s.nextPid := by
    rw [hm.pid, hB.pid]
  unfold spawnTable
  dsimp only
  cases loaded with
  | true =>
    rw [if_pos rfl]
    refine FreshChild.births (p := p) hfree hB (fun u hu => ?_) (.inr ?_) ?_ <;>
      generalize taskChildLink (spawnPrepare s p (.slot i) name) (some p) (.slot i) = s2
        at hidle hpid ⊢ <;>
      generalize hs3 : (s2.modify (.slot i)
        fun x => { x with image := { x.image with startPending := true } }) = s3 <;>
      have hb : SchedMoves s3 (schedulerTaskSetBlocked s3 (.slot i)) := setState _ _ _ _ <;>
      have hr := makeRunnable (schedulerTaskSetBlocked s3 (.slot i)) (.slot i)
        (schedulerCpuId (schedulerTaskSetBlocked s3 (.slot i))).val
    · have h3 : s3.task u = s2.task u := by rw [← hs3, modify_task_ne _ _ hu]
      have hst : ((schedulerTaskMakeRunnable (schedulerTaskSetBlocked s3 (.slot i)) (.slot i)
          (schedulerCpuId (schedulerTaskSetBlocked s3 (.slot i))).val).task u).state =
          (s2.task u).state := by
        rw [makeRunnable_state, if_neg fun hc => hu hc.1]
        unfold schedulerTaskSetBlocked
        rw [setState_state, if_neg fun hc => hu hc.1, h3]
      apply life_eq
      · rw [hr.pid, hb.pid, h3]
      · rw [hr.exitCode, hb.exitCode, h3]
      · rw [hst]
      · rw [hst]
    · have h3 : (s3.task (.slot i)).isIdle = false ∧ (s3.task (.slot i)).pid = s.nextPid := by
        rw [← hs3, modify_task_self]
        exact ⟨hidle, hpid⟩
      rw [makeRunnable_state, hb.isIdle, if_pos ⟨rfl, h3.1⟩, hr.pid, hb.pid]
      exact ⟨h3.2, by simp, by simp⟩
    · rw [hr.nextPid, hb.nextPid, ← hs3, modify_nextPid]
  | false =>
    rw [if_neg (by simp)]
    have hf := Freed.left (unlink (taskChildLink (spawnPrepare s p (.slot i) name)
      (some p) (.slot i)) (.slot i)).unharmed (taskRelease_freed _ (.slot i))
    exact FreshChild.births (p := p) hfree hB hf.other (.inl hf.self) hf.nextPid

theorem TreeInv.notZombie_of_child (h : TreeInv s) {p c : TaskRef}
    (hc : (s.task p).tree.firstChild = some c) : (s.task p).state ≠ .zombie := by
  obtain ⟨hf, ch, hch⟩ := h
  have hmem : c ∈ ch p := mem_of_head? ((hch.first_eq p).symm.trans hc)
  exact (hf.linked c p ((hch.mem_iff p c).mp hmem)).2.2.notZombie

theorem TreeInv.sleep_unharmed (h : TreeInv s) (hcur : IsSlot (schedulerCurrentTask s))
    (hz : (s.task (schedulerCurrentTask s)).state ≠ .zombie) :
    Unharmed s (schedulerYield (schedulerTaskSetBlocked s (schedulerCurrentTask s))) := by
  have hb : TreeInv (schedulerTaskSetBlocked s (schedulerCurrentTask s)) :=
    h.setState hcur h.1.current (by simp) (by simp)
  refine Unharmed.trans (SchedMoves.unharmed (SchedMoves.setState _ _ _ _) (fun u => ?_)
    fun u => ?_) hb.yield_unharmed
  · rw [setState_state]
    split_ifs with hu
    · rw [hu.1]
      exact ⟨fun hf => by simp at hf, fun hf => absurd hf h.1.current⟩
    · exact Iff.rfl
  · rw [setState_state]
    split_ifs with hu
    · rw [hu.1]
      exact ⟨fun hf => by simp at hf, fun hf => absurd hf hz⟩
    · exact Iff.rfl

/-- One round of a wait loop: it takes a zombie child and gives its slot back, or changes
nobody's life. -/
theorem waitRound_cases (h : TreeInv s) (hcur : IsSlot (schedulerCurrentTask s)) (w : WaitFor) (nohang : Bool) :
    (∃ t, (s.task t).tree.parent = some (schedulerCurrentTask s) ∧ (s.task t).state = .zombie ∧
      waitRound s (schedulerCurrentTask s) w nohang = (reap s t,
        .reaped (s.task t).pid ((s.task t).exitCode % 256 * 256), some t)) ∨
    Unharmed s (waitRound s (schedulerCurrentTask s) w nohang).1 ∧
      ∀ pid status, (waitRound s (schedulerCurrentTask s) w nohang).2.1 ≠ .reaped pid status := by
  have hscan := (waitScan_children h (schedulerCurrentTask s) w).1
  have hfound : (waitScan s (schedulerCurrentTask s) w listFuel
      (s.task (schedulerCurrentTask s)).tree.firstChild false).1 = true →
      (s.task (schedulerCurrentTask s)).state ≠ .zombie := by
    intro hf
    cases hc : (s.task (schedulerCurrentTask s)).tree.firstChild with
    | none =>
      rw [hc] at hf
      simp [waitScan, listFuel] at hf
    | some c => exact h.notZombie_of_child hc
  unfold waitRound
  generalize waitScan s (schedulerCurrentTask s) w listFuel
    (s.task (schedulerCurrentTask s)).tree.firstChild false = r at hscan hfound ⊢
  rcases r with ⟨found, _ | t⟩
  · right
    cases found with
    | false => exact ⟨.refl s, by simp⟩
    | true =>
      dsimp only
      split_ifs
      · exact ⟨.refl s, by simp⟩
      · exact ⟨h.sleep_unharmed hcur (hfound rfl), by simp⟩
  · left
    obtain ⟨hp, hz, -⟩ := hscan t rfl
    exact ⟨t, hp, hz, by cases found <;> rfl⟩

/-! ## Who dies -/

/-- Only tasks with `P` die between `s` and `s'`, and no slot is taken or given back. Exit codes
may change. -/
structure Ends (P : Task → Prop) (s s' : TaskTable) : Prop where
  pid : ∀ u, (s'.task u).pid = (s.task u).pid
  unused : ∀ u, (s'.task u).state = .unused ↔ (s.task u).state = .unused
  zombie : ∀ u, (s'.task u).state = .zombie → (s.task u).state = .zombie ∨ P (s.task u)
  nextPid : s'.nextPid = s.nextPid

variable {P : Task → Prop}

theorem Unharmed.ends (h : Unharmed s s') : Ends P s s' where
  pid u := life_pid (h.life u)
  unused u := life_unused (h.life u)
  zombie u hz := .inl ((life_zombie (h.life u)).mp hz)
  nextPid := h.nextPid

theorem Quiet.ends (h : Quiet s s') (hn : s'.nextPid = s.nextPid) : Ends P s s' where
  pid u := ident_pid (h.ident u)
  unused := h.unused
  zombie u hz := .inl ((h.zombie u).mp hz)
  nextPid := hn

theorem Dies.ends (h : Dies t code s s') (hl : Live s t) (hP : P (s.task t)) : Ends P s s' := by
  refine ⟨fun u => ?_, fun u => ?_, fun u hz => ?_, h.nextPid⟩
  all_goals by_cases hu : u = t
  · rw [hu, h.self.1]
  · exact life_pid (h.other u hu)
  · rw [hu, h.self.2.2]
    exact ⟨fun hf => by simp at hf, fun hf => absurd hf hl⟩
  · exact life_unused (h.other u hu)
  · exact .inr (hu ▸ hP)
  · exact .inl ((life_zombie (h.other u hu)).mp hz)

theorem Ends.trans (h : Ends P s s') (h' : Ends P s' s'') (hP : ∀ u, P (s'.task u) → P (s.task u)) : Ends P s s'' where
  pid u := (h'.pid u).trans (h.pid u)
  unused u := (h'.unused u).trans (h.unused u)
  zombie u hz := by
    rcases h'.zombie u hz with hz' | hp
    · exact h.zombie u hz'
    · exact .inr (hP u hp)
  nextPid := h'.nextPid.trans h.nextPid

theorem exitCurrent_ends (h : TreeInv s) (hcur : IsSlot (schedulerCurrentTask s)) (code : ℤ) :
    Ends (fun x => x.pid = (s.task (schedulerCurrentTask s)).pid ∧ x.pid ≠ 1) s (processExitCurrent s code) := by
  unfold processExitCurrent
  dsimp only
  split_ifs with hpid
  · exact (Unharmed.refl s).ends
  · exact (terminate_dies (h.not_isIdle hcur) code).ends h.1.current ⟨rfl, hpid⟩

theorem killPid_ends (h : TreeInv s) (pid code : ℤ) :
    Ends (fun x => x.pid = pid ∧ x.pid ≠ 1) s (processKillPid s pid code).1 := by
  unfold processKillPid
  split
  · exact (Unharmed.refl s).ends
  rename_i t ht
  obtain ⟨h1, h2, h3⟩ := taskFindByPid_some ht
  split_ifs with hpid
  · exact (Unharmed.refl s).ends
  · exact (terminate_dies (h.not_isIdle h1) code).ends h2 ⟨h3, by rw [h3]; exact hpid⟩

theorem GroupKill.foldl_ends {G : GroupKill} {g : TaskTable × ℕ → Fin procMaxTasks → TaskTable × ℕ}
    (hinv : ∀ s k i, TreeInv s → TreeInv (g (s, k) i).1)
    (hkill : ∀ s k i, TreeInv s → G.kills (s.task (.slot i)) → Live s (.slot i) ∧
      ∃ code, Dies (.slot i) code s (g (s, k) i).1 ∧ ∀ u, ((g (s, k) i).1.task u).ident = (s.task u).ident)
    (hquiet : ∀ s k i, TreeInv s → ¬ G.kills (s.task (.slot i)) →
      Quiet s (g (s, k) i).1 ∧ (g (s, k) i).1.nextPid = s.nextPid)
    (h : TreeInv s) (l : List (Fin procMaxTasks)) (k : ℕ) :
    Ends G.kills s (l.foldl g (s, k)).1 := by
  induction l generalizing s k with
  | nil => exact (Unharmed.refl s).ends
  | cons i l ih =>
    rw [foldl_cons]
    have hrest := ih (hinv s k i h) (g (s, k) i).2
    by_cases hk : G.kills (s.task (.slot i))
    · obtain ⟨hl, code, hdies, hident⟩ := hkill s k i h hk
      refine (hdies.ends hl hk).trans hrest fun u hu => ?_
      by_cases hui : u = .slot i
      · exact hui ▸ hk
      · exact G.kills_congr (hident u) (life_unused (hdies.other u hui))
          (life_zombie (hdies.other u hui)) hu
    · obtain ⟨hq, hn⟩ := hquiet s k i h hk
      exact (hq.ends hn).trans hrest fun u hu =>
        G.kills_congr (hq.ident u) (hq.unused u) (hq.zombie u) hu

theorem killPgid_ends (h : TreeInv s) (pgid code : ℤ) :
    Ends (killPgidGroup pgid).kills s (processKillPgid s pgid code).1 := by
  have hin : ∀ (s : TaskTable) i, (killPgidGroup pgid).kills (s.task (.slot i)) →
      ¬ ((s.task (.slot i)).state = .unused ∨ (s.task (.slot i)).pid = 1 ∨ (s.task (.slot i)).pgid ≠ pgid) := by
    rintro s i ⟨hl, hpid, hpgid⟩ (hu | h1 | hg)
    · exact hl hu
    · exact hpid h1
    · exact hg hpgid
  have hfold := GroupKill.foldl_ends (G := killPgidGroup pgid) (g := killPgidStep pgid code)
    (fun s k i hs => hs.killPgidStep pgid code k i)
    (fun s k i hs hk => ⟨hk.1, code, killPgidStep_dies code k (hs.1.slots i) (hin s i hk),
      (hs.killPgidStep_killed code k hk.1 hk.2.1 hk.2.2).ident⟩)
    (fun s k i hs hk => by
      have hskip : killPgidStep pgid code (s, k) i = (s, k) := by
        apply if_pos
        by_contra hc
        push Not at hc
        exact hk hc
      rw [hskip]
      exact ⟨Quiet.refl s, rfl⟩)
    h (finRange procMaxTasks) 0
  unfold processKillPgid
  split_ifs
  · exact (Unharmed.refl s).ends
  · generalize (finRange procMaxTasks).foldl (killPgidStep pgid code) (s, 0) = r at hfold ⊢
    exact hfold

theorem sendSignal_ends (h : TreeInv s) (pid sig : ℤ) :
    Ends (fun x => SignalKills sig x ∧ x.pid = pid) s (processSendSignal s pid sig).1 := by
  unfold processSendSignal
  split_ifs
  · exact (Unharmed.refl s).ends
  · split
    · exact (Unharmed.refl s).ends
    · rename_i t ht
      obtain ⟨h1, h2, h3⟩ := taskFindByPid_some ht
      by_cases hk : SignalKills sig (s.task t)
      · rw [h.signalOne_kills h1 hk]
        exact (terminate_dies (h.not_isIdle h1) _).ends h2 ⟨hk, h3⟩
      · exact (signalOne_quiet s t hk).ends (signalOne_deaths h h1 sig).nextPid

theorem sendSignalPgid_ends (h : TreeInv s) (pgid sig : ℤ) :
    Ends (signalPgidGroup pgid sig).kills s (processSendSignalPgid s pgid sig).1 := by
  have hnext : ∀ (s : TaskTable) k i, TreeInv s → (signalPgidStep pgid sig (s, k) i).1.nextPid = s.nextPid := by
    intro s k i hs
    rw [signalPgidStep_fst]
    split_ifs
    · rfl
    · exact (signalOne_deaths hs ⟨i, rfl⟩ sig).nextPid
  have hfold := GroupKill.foldl_ends (G := signalPgidGroup pgid sig) (g := signalPgidStep pgid sig)
    (fun s k i hs => hs.signalPgidStep pgid sig k i)
    (fun s k i hs hk => by
      rw [hs.signalPgidStep_kills k hk]
      exact ⟨hk.1.1, _, terminate_dies (hs.1.slots i) _, (hs.terminate_killed ⟨i, rfl⟩ hk.1.1 hk.1.2.2.1 _).ident⟩)
    (fun s k i hs hk => ⟨signalPgidStep_quiet s k hk, hnext s k i hs⟩)
    h (finRange procMaxTasks) 0
  unfold processSendSignalPgid
  split_ifs
  · exact (Unharmed.refl s).ends
  · generalize (finRange procMaxTasks).foldl (signalPgidStep pgid sig) (s, 0) = r at hfold ⊢
    exact hfold

/-- Making a task runnable ends nobody; it would even bring a zombie back. -/
theorem setRunnable_ends (s : TaskTable) (pid : ℤ) : Ends P s (processSetRunnable s pid) := by
  unfold processSetRunnable
  split
  · exact (Unharmed.refl s).ends
  rename_i t ht
  have hl := (taskFindByPid_some ht).2.1
  have hm := makeRunnable s t (wakeCpu s t)
  refine ⟨hm.pid, fun u => ?_, fun u hz => .inl ?_, hm.nextPid⟩
  · rw [makeRunnable_state]
    split_ifs with hu
    · rw [hu.1]
      exact ⟨fun hf => by simp at hf, fun hf => absurd hf hl⟩
    · exact Iff.rfl
  · rw [makeRunnable_state] at hz
    split_ifs at hz
    exact hz

end Moves

end EdgeOS
