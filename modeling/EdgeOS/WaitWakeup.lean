import EdgeOS.ProcessSystem

namespace EdgeOS

open Lib TaskTable EdgeOS.Task

/-! ## What a waiter depends on -/

/-- What the wait and signal code reads of a task beside its state and its links. -/
def Task.ident (x : Task) : ℤ × ℤ × ℕ × ℕ × ℕ :=
  (x.pid, x.pgid, x.sig.sigintHandler, x.sig.sigtermHandler, x.sig.sigchldHandler)

theorem Task.ident_pid {x y : Task} (h : x.ident = y.ident) : x.pid = y.pid :=
  congrArg Prod.fst h

theorem WaitFor.matches_of_ids (w : WaitFor) {p p' c c' : Task} (hp : p'.pgid = p.pgid)
    (hc : c'.pid = c.pid) (hg : c'.pgid = c.pgid) : w.matches p' c' = w.matches p c := by
  cases w with
  | any => rfl
  | pid n => simp only [WaitFor.matches, hp, hc, hg]

theorem WaitFor.matches_congr (w : WaitFor) {p p' c c' : Task} (hp : p'.ident = p.ident)
    (hc : c'.ident = c.ident) : w.matches p' c' = w.matches p c := by
  simp only [ident, Prod.mk.injEq] at hp hc
  exact w.matches_of_ids hp.2.1 hc.1 hc.2.1

/-- `p` is blocked inside a wait that `c` counts for. -/
def Awaits (W : TaskRef → Option WaitFor) (s : TaskTable) (p c : TaskRef) : Prop :=
  (s.task p).state = .blocked ∧ ∃ w, W p = some w ∧ w.matches (s.task p) (s.task c) = true

/-- `p` sleeps in a wait although its child `c` is a zombie it waits for. -/
def LostWakeup (W : TaskRef → Option WaitFor) (s : TaskTable) (p c : TaskRef) : Prop :=
  (s.task c).tree.parent = some p ∧ (s.task c).state = .zombie ∧ Awaits W s p c

/-- Between `s` and `s'` tasks may have been woken, and nothing else that a waiter sees
has changed. -/
structure Quiet (s s' : TaskTable) : Prop where
  parent : ∀ c, (s'.task c).tree.parent = (s.task c).tree.parent
  ident : ∀ c, (s'.task c).ident = (s.task c).ident
  unused : ∀ c, (s'.task c).state = .unused ↔ (s.task c).state = .unused
  zombie : ∀ c, (s'.task c).state = .zombie ↔ (s.task c).state = .zombie
  blocked : ∀ c, (s'.task c).state = .blocked → (s.task c).state = .blocked

variable {W : TaskRef → Option WaitFor} {s s' s'' : TaskTable}

theorem Awaits.of_move {p c : TaskRef} (h : Awaits W s' p c)
    (hp : (s'.task p).ident = (s.task p).ident) (hc : (s'.task c).ident = (s.task c).ident)
    (hb : (s'.task p).state = .blocked → (s.task p).state = .blocked) : Awaits W s p c := by
  obtain ⟨h1, w, h2, h3⟩ := h
  rw [w.matches_congr hp hc] at h3
  exact ⟨hb h1, w, h2, h3⟩

namespace Quiet

theorem refl (s : TaskTable) : Quiet s s :=
  ⟨fun _ => rfl, fun _ => rfl, fun _ => Iff.rfl, fun _ => Iff.rfl, fun _ h => h⟩

theorem trans (h : Quiet s s') (h' : Quiet s' s'') : Quiet s s'' where
  parent c := (h'.parent c).trans (h.parent c)
  ident c := (h'.ident c).trans (h.ident c)
  unused c := (h'.unused c).trans (h.unused c)
  zombie c := (h'.zombie c).trans (h.zombie c)
  blocked c hc := h.blocked c (h'.blocked c hc)

theorem modify (s : TaskTable) (t : TaskRef) {f : Task → Task}
    (hf : ∀ x, (f x).tree.parent = x.tree.parent ∧ (f x).ident = x.ident ∧
      (f x).state = x.state) : Quiet s (s.modify t f) := by
  have hst : ∀ c, ((s.modify t f).task c).state = (s.task c).state := fun c =>
    modify_proj s t c f Task.state fun x => (hf x).2.2
  refine ⟨fun c => modify_proj s t c f (fun x => x.tree.parent) fun x => (hf x).1,
    fun c => modify_proj s t c f Task.ident fun x => (hf x).2.1, fun c => ?_, fun c => ?_,
    fun c => ?_⟩ <;> rw [hst]
  exact id

theorem find (h : Quiet s s') (pid : ℤ) : taskFindByPid s' pid = taskFindByPid s pid := by
  unfold taskFindByPid findSlot
  congr 2
  funext i
  simp only [ident_pid (h.ident _), ne_eq, h.unused]

theorem lost (h : Quiet s s') {p c : TaskRef} (hl : LostWakeup W s' p c) : LostWakeup W s p c := by
  obtain ⟨h1, h2, h3⟩ := hl
  exact ⟨(h.parent c).symm.trans h1, (h.zombie c).mp h2, h3.of_move (h.ident p) (h.ident c) (h.blocked p)⟩

end Quiet

theorem SchedMoves.ident (h : SchedMoves s s') (u : TaskRef) : (s'.task u).ident = (s.task u).ident := by
  have h1 := congrArg Task.ident (h.noSched u)
  exact h1

theorem TreeMoves.ident (h : TreeMoves s s') (u : TaskRef) : (s'.task u).ident = (s.task u).ident := by
  have h1 := congrArg Task.ident (h.noTree u)
  exact h1

theorem wakeIfBlocked_quiet (s : TaskTable) (t : TaskRef) : Quiet s (wakeIfBlocked s t) := by
  unfold wakeIfBlocked
  split_ifs with hb
  · have hm := SchedMoves.makeRunnable s t (wakeCpu s t)
    have hst := fun u => makeRunnable_state s t u (wakeCpu s t)
    refine ⟨fun c => by rw [hm.tree], hm.ident, fun c => ?_, fun c => ?_, fun c => ?_⟩ <;>
      rw [hst] <;> split_ifs with hc <;> simp [*]
  · exact Quiet.refl s

theorem wakeIfBlocked_self (s : TaskTable) {t : TaskRef} (hi : (s.task t).isIdle = false) :
    ((wakeIfBlocked s t).task t).state ≠ .blocked := by
  unfold wakeIfBlocked
  split_ifs with hb
  · rw [makeRunnable_state, if_pos ⟨rfl, hi⟩]
    simp
  · exact hb

theorem notify_quiet (s : TaskTable) (par : Option TaskRef) : Quiet s (processNotifyParentSigchld s par) := by
  rcases par with _ | p
  · exact Quiet.refl s
  unfold processNotifyParentSigchld
  dsimp only
  split_ifs
  · exact Quiet.refl s
  · refine Quiet.trans ?_ (wakeIfBlocked_quiet _ p)
    exact Quiet.modify s p fun _ => ⟨rfl, rfl, rfl⟩
  · exact wakeIfBlocked_quiet s p

theorem notify_self (s : TaskTable) {p : TaskRef} (hi : (s.task p).isIdle = false) :
    ((processNotifyParentSigchld s (some p)).task p).state ≠ .blocked := by
  unfold processNotifyParentSigchld
  dsimp only
  split_ifs with h1
  · rcases h1 with h1 | h1 <;> simp [h1]
  · apply wakeIfBlocked_self
    rw [modify_task_self]
    exact hi
  · exact wakeIfBlocked_self s hi

theorem TreeInv.yield_quiet (h : TreeInv s) : Quiet s (schedulerYield s) := by
  obtain ⟨d, hd⟩ := h.1.cpuIdle (schedulerCpuId s)
  have hst := (scheduleCommon_state s false hd (h.1.idles d).1).1
  have hm := SchedMoves.scheduleCommon s false
  refine ⟨fun c => by rw [schedulerYield, hm.tree], hm.ident, fun c => ?_, fun c => ?_,
    fun c => ?_⟩ <;> rcases hst c with hc | ⟨hc, hc'⟩
  all_goals unfold schedulerYield
  · rw [hc]
  · rcases hc with hc | hc <;> rcases hc' with hc' | hc' <;> simp [hc, hc']
  · rw [hc]
  · rcases hc with hc | hc <;> rcases hc' with hc' | hc' <;> simp [hc, hc']
  · rw [hc]
    exact id
  · rcases hc with hc | hc <;> rcases hc' with hc' | hc' <;> simp [hc, hc']

/-! ## A task dies -/

/-- `t` became a zombie under the parent `heir`, its children went to `init`, and `heir`
is awake. -/
structure Killed (s s' : TaskTable) (t : TaskRef) (init heir : Option TaskRef) : Prop where
  parent : ∀ c, c ≠ t → (s'.task c).tree.parent =
    if (s.task c).tree.parent = some t then init else (s.task c).tree.parent
  self : (s'.task t).tree.parent = heir
  ident : ∀ c, (s'.task c).ident = (s.task c).ident
  unused : ∀ c, c ≠ t → ((s'.task c).state = .unused ↔ (s.task c).state = .unused)
  zombie : ∀ c, c ≠ t → ((s'.task c).state = .zombie ↔ (s.task c).state = .zombie)
  blocked : ∀ c, (s'.task c).state = .blocked → (s.task c).state = .blocked
  woken : ∀ p, heir = some p → (s'.task p).state ≠ .blocked

namespace Killed

variable {t : TaskRef} {init heir : Option TaskRef}

theorem quiet_left (hq : Quiet s s') (h : Killed s' s'' t init heir) : Killed s s'' t init heir where
  parent c hc := by
    rw [h.parent c hc, hq.parent]
  self := h.self
  ident c := (h.ident c).trans (hq.ident c)
  unused c hc := (h.unused c hc).trans (hq.unused c)
  zombie c hc := (h.zombie c hc).trans (hq.zombie c)
  blocked c hb := hq.blocked c (h.blocked c hb)
  woken := h.woken

/-- A wakeup lost after the death was lost before it, or a zombie child of `t` went to a
waiting init that is not the heir. -/
theorem lost (h : Killed s s' t init heir) {p c : TaskRef} (hl : LostWakeup W s' p c) :
    heir ≠ some p ∧ (LostWakeup W s p c ∨
      (s.task c).tree.parent = some t ∧ init = some p ∧ c ≠ t ∧ (s.task c).state = .zombie ∧ Awaits W s p c) := by
  obtain ⟨h1, h2, h3⟩ := hl
  have hheir : heir ≠ some p := fun he => h.woken p he h3.1
  have h4 : Awaits W s p c := h3.of_move (h.ident p) (h.ident c) (h.blocked p)
  have hct : c ≠ t := by
    rintro rfl
    exact hheir (h.self.symm.trans h1)
  refine ⟨hheir, ?_⟩
  rw [h.parent c hct] at h1
  rw [h.zombie c hct] at h2
  split_ifs at h1 with hpt
  · exact .inr ⟨hpt, h1, hct, h2, h4⟩
  · exact .inl ⟨h1, h2, h4⟩

theorem find_one (h : Killed s s' t init heir) (hpid : (s.task t).pid ≠ 1) :
    taskFindByPid s' 1 = taskFindByPid s 1 := by
  unfold taskFindByPid findSlot
  congr 2
  funext i
  by_cases hi : .slot i = t
  · subst hi
    simp [ident_pid (h.ident _), hpid]
  · simp only [ident_pid (h.ident _), ne_eq, h.unused _ hi]

end Killed

/-- The children of `t` have gone to init and `t` is made a zombie; then its parent is
woken in the way `wake` does. -/
theorem TreeInv.killed_zombie {s s1 : TaskTable} (h : TreeInv s1) {t : TaskRef}
    {init : Option TaskRef} (hm : TreeMoves s s1) (ht : IsSlot t)
    (hpar : ∀ c, c ≠ t → (s1.task c).tree.parent =
      if (s.task c).tree.parent = some t then init else (s.task c).tree.parent)
    {wake : TaskTable → TaskTable} (hq : ∀ s, Quiet s (wake s))
    (hwoken : ∀ p, (s1.task t).tree.parent = some p → ∀ s2 : TaskTable,
      (s2.task p).isIdle = false → ((wake s2).task p).state ≠ .blocked) :
    Killed s (wake (schedulerTaskSetZombie s1 t)) t init (s1.task t).tree.parent := by
  have hi := h.not_isIdle ht
  have hz := SchedMoves.setState .zombie Nat.cast s1 t
  have hst : ∀ u, ((schedulerTaskSetZombie s1 t).task u).state = if u = t then .zombie else (s.task u).state := by
    intro u
    unfold schedulerTaskSetZombie
    rw [setState_state, hm.state]
    simp only [hi, and_true]
  have hquiet := hq (schedulerTaskSetZombie s1 t)
  refine ⟨fun c hc => ?_, ?_, fun c => ?_, fun c hc => ?_, fun c hc => ?_, fun c hc => ?_, fun p hp => ?_⟩
  · rw [hquiet.parent, schedulerTaskSetZombie, hz.tree, hpar c hc]
  · rw [hquiet.parent, schedulerTaskSetZombie, hz.tree]
  · rw [hquiet.ident, schedulerTaskSetZombie, hz.ident, hm.ident]
  · rw [hquiet.unused, hst, if_neg hc]
  · rw [hquiet.zombie, hst, if_neg hc]
  · have hb := hquiet.blocked c hc
    rw [hst] at hb
    split_ifs at hb
    exact hb
  · obtain ⟨-, -, hcp⟩ := h.1.linked t p hp
    apply hwoken p hp
    rw [schedulerTaskSetZombie, hz.isIdle]
    exact h.not_isIdle hcp.slot

/-- The parent a dying task ends up with: init if its own parent ignores `SIGCHLD`. -/
def deathParent (s : TaskTable) (t : TaskRef) : Option TaskRef :=
  match (s.task t).tree.parent, taskFindByPid s 1 with
  | some p, some i => if (s.task p).sig.sigchldHandler = linuxSigIgn then some i else some p
  | par, _ => par

theorem Task.ident_sigchld {x y : Task} (h : x.ident = y.ident) : x.sig.sigchldHandler = y.sig.sigchldHandler := by
  simp only [ident, Prod.mk.injEq] at h
  exact h.2.2.2.2

/-- `process_exit_current` and `process_kill_pid`, past their tests. -/
theorem TreeInv.terminate_killed (h : TreeInv s) {t : TaskRef} (ht : IsSlot t) (hl : Live s t)
    (hpid : (s.task t).pid ≠ 1) (code : ℤ) :
    Killed s (EdgeOS.terminate s t code) t (taskFindByPid s 1) (deathParent s t) := by
  unfold EdgeOS.terminate
  dsimp only
  have hq : Quiet s (s.modify t fun x => { x with exitCode := code }) := by
    apply Quiet.modify
    exact fun _ => ⟨rfl, rfl, rfl⟩
  have h0 : TreeInv (s.modify t fun x => { x with exitCode := code }) := by
    apply h.modify
    exact fun _ => ⟨rfl, rfl, rfl, rfl, rfl⟩
  have hl0 : Live (s.modify t fun x => { x with exitCode := code }) t := by
    unfold Live
    rw [ne_eq, hq.unused]
    exact hl
  rw [← hq.find]
  generalize (s.modify t fun x => { x with exitCode := code }) = s0 at hq h0 hl0 ⊢
  apply Killed.quiet_left hq
  obtain ⟨h1, hm, hpar⟩ := h0.adopt_to_init ht hl0
  generalize (processAdoptOrphans s0 (s0.task t).pid 1).1 = s1 at h1 hm hpar ⊢
  have hself : (s1.task t).tree.parent = (s.task t).tree.parent := by
    rw [hpar, if_neg fun hc => h0.child_ne hc rfl, hq.parent]
  have hfind : taskFindByPid s1 1 = taskFindByPid s 1 :=
    (taskFindByPid_congr hm 1).trans (hq.find 1)
  have hident : ∀ u, (s1.task u).ident = (s.task u).ident := fun u =>
    (hm.ident u).trans (hq.ident u)
  have hwoken : ∀ par p, par = some p → ∀ s2 : TaskTable, (s2.task p).isIdle = false →
      ((processNotifyParentSigchld s2 par).task p).state ≠ .blocked := by
    rintro _ p rfl s2 hi
    exact notify_self s2 hi
  have hkeep : Killed s0 (processNotifyParentSigchld (schedulerTaskSetZombie s1 t)
      (s1.task t).tree.parent) t (taskFindByPid s0 1) (s1.task t).tree.parent :=
    h1.killed_zombie hm ht (fun c _ => hpar c) (fun s => notify_quiet s _) fun q => hwoken _ q
  unfold deathParent
  rw [← hself, ← hfind]
  rcases hp : (s1.task t).tree.parent with _ | p
  · rw [hp] at hkeep
    exact hkeep
  rcases hi : taskFindByPid s1 1 with _ | i
  · rw [hp] at hkeep
    exact hkeep
  dsimp only
  rw [← ident_sigchld (hident p)]
  split_ifs
  · obtain ⟨h2, hm2, hpar2⟩ := h1.handover ht (by unfold Live; rw [hm.state]; exact hl0)
      (by rw [ident_pid (hident t)]; exact hpid) hi
    have hk := h2.killed_zombie (hm.trans hm2) ht
      (fun c hc => by rw [hpar2, if_neg hc, hpar]) (fun s => notify_quiet s (some i))
      (fun p hp => hwoken _ p (by rw [hpar2, if_pos rfl] at hp; exact hp))
    rwa [hpar2, if_pos rfl] at hk
  · rw [hp] at hkeep
    exact hkeep

theorem TreeInv.killPgidStep_killed (h : TreeInv s) {pgid : ℤ} (code : ℤ) (killed : ℕ)
    {i : Fin procMaxTasks} (hl : Live s (.slot i)) (hpid : (s.task (.slot i)).pid ≠ 1)
    (hpgid : (s.task (.slot i)).pgid = pgid) :
    Killed s (EdgeOS.killPgidStep pgid code (s, killed) i).1 (.slot i) (taskFindByPid s 1)
      (s.task (.slot i)).tree.parent := by
  unfold EdgeOS.killPgidStep
  dsimp only
  rw [if_neg (by simp [hpid, hpgid]; exact hl)]
  have hq : Quiet s (s.modify (.slot i) fun x => { x with exitCode := code }) := by
    apply Quiet.modify
    exact fun _ => ⟨rfl, rfl, rfl⟩
  have h0 : TreeInv (s.modify (.slot i) fun x => { x with exitCode := code }) := by
    apply h.modify
    exact fun _ => ⟨rfl, rfl, rfl, rfl, rfl⟩
  have hl0 : Live (s.modify (.slot i) fun x => { x with exitCode := code }) (.slot i) := by
    unfold Live
    rw [ne_eq, hq.unused]
    exact hl
  rw [← hq.find, ← hq.parent, ← ident_pid (hq.ident (.slot i))]
  generalize (s.modify (.slot i) fun x => { x with exitCode := code }) = s0 at hq h0 hl0 ⊢
  apply Killed.quiet_left hq
  obtain ⟨h1, hm, hpar⟩ := h0.adopt_to_init ⟨i, rfl⟩ hl0
  generalize (processAdoptOrphans s0 (s0.task (.slot i)).pid 1).1 = s1 at h1 hm hpar ⊢
  have hself : (s1.task (.slot i)).tree.parent = (s0.task (.slot i)).tree.parent := by
    rw [hpar, if_neg fun hc => h0.child_ne hc rfl]
  have hz := (SchedMoves.setState .zombie Nat.cast s1 (.slot i)).tree (.slot i)
  rw [schedulerTaskSetZombie, hz, ← hself]
  rcases hp : (s1.task (.slot i)).tree.parent with _ | p
  · have hk := h1.killed_zombie hm ⟨i, rfl⟩ (fun c _ => hpar c) Quiet.refl
      (by rw [hp]; simp)
    rw [hp] at hk
    exact hk
  have hk := h1.killed_zombie hm ⟨i, rfl⟩ (fun c _ => hpar c)
    (fun s => wakeIfBlocked_quiet s p) (by
      rintro q hq s2 hi
      obtain rfl := Option.some.inj (hp.symm.trans hq)
      exact wakeIfBlocked_self s2 hi)
  rw [hp] at hk
  exact hk

end EdgeOS
