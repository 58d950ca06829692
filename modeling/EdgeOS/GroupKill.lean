import EdgeOS.WaitWakeup

namespace EdgeOS

open Lib TaskTable List Quiet

/-!
The loops of `process_kill_pgid` and `process_send_signal_pgid` over the task table: which
tasks a loop kills, and when init, who inherits their children, is woken on the way.
-/

/-- What one of the two loops does to a task, read from its record. With `hands` a parent
that ignores `SIGCHLD` hands the zombie to init. -/
structure GroupKill where
  kills : Task → Prop
  wakes : Task → Prop
  hands : Bool
  kills_congr : ∀ {x y : Task}, x.ident = y.ident →
    (x.state = .unused ↔ y.state = .unused) → (x.state = .zombie ↔ y.state = .zombie) →
    kills x → kills y
  wakes_congr : ∀ {x y : Task}, x.ident = y.ident →
    (x.state = .unused ↔ y.state = .unused) → (x.state = .zombie ↔ y.state = .zombie) →
    wakes x → wakes y
  kills_pid : ∀ {x : Task}, kills x → x.pid ≠ 1

namespace GroupKill

variable (G : GroupKill) {W : TaskRef → Option WaitFor} {s s' : TaskTable}

def heir (s : TaskTable) (t : TaskRef) : Option TaskRef :=
  if G.hands then deathParent s t else (s.task t).tree.parent

/-- The slot `m` is killed under a waiting init, or under a task killed before it whose
children init has got by then, or is init itself and gets a signal: init is woken. -/
def WakesInit (s : TaskTable) (init : TaskRef) (rest : List (Fin procMaxTasks))
    (m : Fin procMaxTasks) : Prop :=
  G.kills (s.task (.slot m)) ∧ (G.heir s (.slot m) = some init ∨ ∃ q ∈ rest, q < m ∧ G.kills (s.task (.slot q)) ∧
        (s.task (.slot m)).tree.parent = some (.slot q)) ∨
    init = .slot m ∧ G.wakes (s.task (.slot m))

/-- No child of a killed task that counts for the wait `w` of init is a zombie when it is
adopted: none is one now, and none is killed before its parent. -/
def Clean (s : TaskTable) (init : TaskRef) (w : WaitFor) (rest : List (Fin procMaxTasks)) : Prop :=
  ∀ t ∈ rest, G.kills (s.task (.slot t)) → ∀ c, (s.task c).tree.parent = some (.slot t) →
    w.matches (s.task init) (s.task c) = true → (s.task c).state ≠ .zombie ∧
      ∀ q ∈ rest, q < t → G.kills (s.task (.slot q)) → c ≠ .slot q

/-- What the loop over `rest` needs: a waiting init is woken, or inherits no zombie it
waits for. -/
def LoopOk (W : TaskRef → Option WaitFor) (s : TaskTable) (rest : List (Fin procMaxTasks)) : Prop :=
  ∀ init w, taskFindByPid s 1 = some init → (s.task init).state = .blocked →
    W init = some w → (∃ m ∈ rest, G.WakesInit s init rest m) ∨ G.Clean s init w rest

/-- The invariant of the loop: only init can be asleep over a zombie, and then it will
be woken. -/
structure LoopInv (W : TaskRef → Option WaitFor) (s : TaskTable)
    (rest : List (Fin procMaxTasks)) : Prop where
  tree : TreeInv s
  others : ∀ p c, LostWakeup W s p c → taskFindByPid s 1 = some p
  init : ∀ init w, taskFindByPid s 1 = some init → (s.task init).state = .blocked →
    W init = some w → (∃ m ∈ rest, G.WakesInit s init rest m) ∨ G.Clean s init w rest ∧ ∀ c, ¬ LostWakeup W s init c

variable {G}

theorem heir_of_parent {t i : TaskRef} (hp : (s.task t).tree.parent = some i)
    (hi : taskFindByPid s 1 = some i) : G.heir s t = some i := by
  unfold heir deathParent
  rw [hp, hi]
  split_ifs <;> simp

theorem heir_congr {t : TaskRef} (hp : (s'.task t).tree.parent = (s.task t).tree.parent)
    (hident : ∀ u, (s'.task u).ident = (s.task u).ident)
    (hfind : taskFindByPid s' 1 = taskFindByPid s 1) : G.heir s' t = G.heir s t := by
  unfold heir deathParent
  rw [hp, hfind]
  split_ifs
  · rcases (s.task t).tree.parent with _ | p
    · rfl
    · rcases taskFindByPid s 1 with _ | i
      · rfl
      · dsimp only
        rw [Task.ident_sigchld (hident p)]
  · rfl


theorem heir_cases {t p : TaskRef} (h : G.heir s t = some p) :
    (s.task t).tree.parent = some p ∨ taskFindByPid s 1 = some p := by
  unfold heir deathParent at h
  split_ifs at h
  · split at h
    · split_ifs at h
      · exact .inr (‹taskFindByPid s 1 = _›.trans h)
      · exact .inl (‹(s.task t).tree.parent = _›.trans h)
    · exact .inl h
  · exact .inl h

variable {rest : List (Fin procMaxTasks)} {j : Fin procMaxTasks}

/-- Whether init is still to be woken after a round of the loop that did not wake it. -/
theorem WakesInit.step {init : TaskRef} {m : Fin procMaxTasks} (h : G.WakesInit s init (j :: rest) m) (hm : m ∈ rest)
    (hident : ∀ u, (s'.task u).ident = (s.task u).ident)
    (hunused : ∀ i ∈ rest, (s.task (.slot i)).state = .unused ↔ (s'.task (.slot i)).state = .unused)
    (hzombie : ∀ i ∈ rest, (s.task (.slot i)).state = .zombie ↔ (s'.task (.slot i)).state = .zombie)
    (hfind : taskFindByPid s' 1 = taskFindByPid s 1) (hinit : taskFindByPid s 1 = some init)
    (hpar : (s'.task (.slot m)).tree.parent = (s.task (.slot m)).tree.parent ∨
      (s'.task (.slot m)).tree.parent = some init)
    (hmoved : (s.task (.slot m)).tree.parent = some (.slot j) → G.kills (s.task (.slot j)) →
      (s'.task (.slot m)).tree.parent = some init) : G.WakesInit s' init rest m := by
  have hk : ∀ i ∈ rest, G.kills (s.task (.slot i)) → G.kills (s'.task (.slot i)) := fun i hi =>
    G.kills_congr (hident _).symm (hunused i hi) (hzombie i hi)
  have hadopted : (s'.task (.slot m)).tree.parent = some init → G.heir s' (.slot m) = some init :=
    fun hp => heir_of_parent hp (hfind.trans hinit)
  rcases h with ⟨hkill, h⟩ | ⟨he, hw⟩
  · refine .inl ⟨hk m hm hkill, ?_⟩
    rcases hpar with hpar | hpar
    · rcases h with h | ⟨q, hq, hlt, hkq, hp⟩
      · exact .inl ((heir_congr hpar hident hfind).trans h)
      · rcases mem_cons.mp hq with rfl | hq
        · exact .inl (hadopted (hmoved hp hkq))
        · exact .inr ⟨q, hq, hlt, hk q hq hkq, hpar.trans hp⟩
    · exact .inl (hadopted hpar)
  · exact .inr ⟨he, G.wakes_congr (hident _).symm (hunused m hm) (hzombie m hm) hw⟩

theorem LoopInv.killed (h : G.LoopInv W s (j :: rest)) (hs : (j :: rest).Pairwise (· < ·))
    (hkj : G.kills (s.task (.slot j))) (hs' : TreeInv s')
    (hk : Killed s s' (.slot j) (taskFindByPid s 1) (G.heir s (.slot j))) :
    G.LoopInv W s' rest := by
  have hpid := G.kills_pid hkj
  have hfind := hk.find_one hpid
  have hlt : ∀ i ∈ rest, j < i := fun i hi => rel_of_pairwise_cons hs hi
  have hne : ∀ i ∈ rest, TaskRef.slot i ≠ .slot j := fun i hi he =>
    (hlt i hi).ne' (TaskRef.slot.inj he)
  refine ⟨hs', fun p c hl => ?_, fun init w hinit hb hw => ?_⟩
  · rw [hfind]
    rcases (hk.lost hl).2 with hl | ⟨-, hp, -⟩
    · exact h.others p c hl
    · exact hp
  rw [hfind] at hinit
  have hinitj : init ≠ .slot j := by
    rintro rfl
    exact hpid (taskFindByPid_some hinit).2.2
  rcases h.init init w hinit (hk.blocked init hb) hw with ⟨m, hm, hwake⟩ | ⟨hclean, hno⟩
  · left
    rcases mem_cons.mp hm with rfl | hm
    · -- Killing `j` itself wakes init, but init still sleeps.
      rcases hwake with ⟨-, hheir | ⟨q, hq, hqj, -⟩⟩ | ⟨he, -⟩
      · exact absurd hb (hk.woken init hheir)
      · rcases mem_cons.mp hq with rfl | hq
        · exact absurd hqj (lt_irrefl _)
        · exact absurd hqj (hlt q hq).not_gt
      · exact absurd he hinitj
    have hpar := hk.parent _ (hne m hm)
    refine ⟨m, hm, hwake.step hm hk.ident (fun i hi => (hk.unused _ (hne i hi)).symm)
      (fun i hi => (hk.zombie _ (hne i hi)).symm) hfind hinit ?_ fun hp _ => ?_⟩
    · rw [hpar, hinit]
      split_ifs
      · exact .inr rfl
      · exact .inl rfl
    · rw [hpar, if_pos hp, hinit]
  · refine .inr ⟨fun t ht hkt c hc hmatch => ?_, fun c hl => ?_⟩
    · have hident := hk.ident (.slot t)
      have hkt' : G.kills (s.task (.slot t)) :=
        G.kills_congr hident (hk.unused _ (hne t ht)) (hk.zombie _ (hne t ht)) hkt
      -- A killed task is not init, so it has adopted nobody.
      have hinitt : taskFindByPid s 1 ≠ some (.slot t) := fun he =>
        G.kills_pid hkt' (taskFindByPid_some he).2.2
      rw [w.matches_congr (hk.ident init) (hk.ident c)] at hmatch
      have hpar : (s.task c).tree.parent = some (.slot t) := by
        by_cases hcj : c = .slot j
        · rw [hcj, hk.self] at hc
          rw [hcj]
          exact (heir_cases hc).resolve_right hinitt
        rw [hk.parent c hcj] at hc
        split_ifs at hc
        · exact absurd hc hinitt
        · exact hc
      obtain ⟨hz, hq⟩ := hclean t (mem_cons_of_mem _ ht) hkt' c hpar hmatch
      have hcj := hq j mem_cons_self (hlt t ht) hkj
      refine ⟨fun hz' => hz ((hk.zombie c hcj).mp hz'), fun q hqr hqt hkq => ?_⟩
      refine hq q (mem_cons_of_mem _ hqr) hqt ?_
      exact G.kills_congr (hk.ident _) (hk.unused _ (hne q hqr)) (hk.zombie _ (hne q hqr)) hkq
    · rcases (hk.lost hl).2 with hl | ⟨hp, -, -, hz, -, w', hw', hmatch⟩
      · exact hno c hl
      · obtain rfl := Option.some.inj (hw.symm.trans hw')
        exact (hclean j mem_cons_self hkj c hp hmatch).1 hz

theorem LoopInv.quiet (h : G.LoopInv W s (j :: rest)) (hkj : ¬ G.kills (s.task (.slot j)))
    (hs' : TreeInv s') (hq : Quiet s s')
    (hwake : G.wakes (s.task (.slot j)) → (s'.task (.slot j)).state ≠ .blocked) :
    G.LoopInv W s' rest := by
  have hfind := hq.find 1
  have hkills : ∀ t, G.kills (s'.task t) → G.kills (s.task t) := fun t =>
    G.kills_congr (hq.ident t) (hq.unused t) (hq.zombie t)
  refine ⟨hs', fun p c hl => ?_, fun init w hinit hb hw => ?_⟩
  · rw [hfind]
    exact h.others p c (hq.lost hl)
  rw [hfind] at hinit
  rcases h.init init w hinit (hq.blocked init hb) hw with ⟨m, hm, hwk⟩ | ⟨hclean, hno⟩
  · left
    rcases mem_cons.mp hm with rfl | hm
    · rcases hwk with ⟨hk, -⟩ | ⟨rfl, hsig⟩
      · exact absurd hk hkj
      · exact absurd hb (hwake hsig)
    · exact ⟨m, hm, hwk.step hm hq.ident (fun i _ => (hq.unused _).symm)
        (fun i _ => (hq.zombie _).symm) hfind hinit (.inl (hq.parent _)) fun _ hk => absurd hk hkj⟩
  · refine .inr ⟨fun t ht hkt c hc hmatch => ?_, fun c hl => hno c (hq.lost hl)⟩
    rw [hq.parent] at hc
    rw [w.matches_congr (hq.ident init) (hq.ident c)] at hmatch
    obtain ⟨h1, h2⟩ := hclean t (mem_cons_of_mem _ ht) (hkills _ hkt) c hc hmatch
    exact ⟨fun hz => h1 ((hq.zombie c).mp hz), fun q hqr hqt hkq =>
      h2 q (mem_cons_of_mem _ hqr) hqt (hkills _ hkq)⟩

/-- The whole loop: no wakeup is lost if none was lost before and the loop is fit for
the waiting init. -/
theorem foldl_noLost {g : TaskTable × ℕ → Fin procMaxTasks → TaskTable × ℕ}
    (htree : ∀ s k i, TreeInv s → TreeInv (g (s, k) i).1)
    (hkill : ∀ s k i, TreeInv s → G.kills (s.task (.slot i)) →
      Killed s (g (s, k) i).1 (.slot i) (taskFindByPid s 1) (G.heir s (.slot i)))
    (hquiet : ∀ s k i, TreeInv s → ¬ G.kills (s.task (.slot i)) → Quiet s (g (s, k) i).1 ∧
      (G.wakes (s.task (.slot i)) → ((g (s, k) i).1.task (.slot i)).state ≠ .blocked))
    (h : TreeInv s) (hno : ∀ p c, ¬ LostWakeup W s p c) (k : ℕ)
    (hok : G.LoopOk W s (finRange procMaxTasks)) (p c : TaskRef) :
    ¬ LostWakeup W ((finRange procMaxTasks).foldl g (s, k)).1 p c := by
  have hinv : G.LoopInv W s (finRange procMaxTasks) := by
    refine ⟨h, fun p c hl => absurd hl (hno p c), fun init w hinit hb hw => ?_⟩
    rcases hok init w hinit hb hw with hwake | hclean
    · exact .inl hwake
    · exact .inr ⟨hclean, hno init⟩
  have hloop : ∀ (l : List (Fin procMaxTasks)) (s : TaskTable) (k : ℕ), l.Pairwise (· < ·) →
      G.LoopInv W s l → G.LoopInv W (l.foldl g (s, k)).1 [] := by
    intro l
    induction l with
    | nil => exact fun _ _ _ hi => hi
    | cons i l ih =>
      intro s k hs hi
      rw [foldl_cons]
      refine ih _ (g (s, k) i).2 (pairwise_cons.mp hs).2 ?_
      by_cases hk : G.kills (s.task (.slot i))
      · exact hi.killed hs hk (htree s k i hi.tree) (hkill s k i hi.tree hk)
      · obtain ⟨h1, h2⟩ := hquiet s k i hi.tree hk
        exact hi.quiet hk (htree s k i hi.tree) h1 h2
  have hend := hloop _ s k (pairwise_lt_finRange _) hinv
  generalize (List.foldl g (s, k) (finRange procMaxTasks)).1 = s' at hend ⊢
  intro hl
  have hl' := hl
  obtain ⟨-, -, hb, w, hw, -⟩ := hl'
  rcases hend.init p w (hend.others p c hl) hb hw with ⟨m, hm, -⟩ | ⟨-, hno⟩
  · simp at hm
  · exact hno c hl

end GroupKill

/-! ## The two loops -/

def SignalKills (sig : ℤ) (x : Task) : Prop :=
  x.state ≠ .unused ∧ x.state ≠ .zombie ∧ x.pid ≠ 1 ∧ (sig = 9 ∨ sig = 2 ∧ x.sig.sigintHandler = linuxSigDfl ∨
      sig = 15 ∧ x.sig.sigtermHandler = linuxSigDfl)

def SignalCaught (sig : ℤ) (x : Task) : Prop :=
  x.state ≠ .unused ∧ x.state ≠ .zombie ∧
    (sig = 2 ∧ x.sig.sigintHandler ≠ linuxSigDfl ∧ x.sig.sigintHandler ≠ linuxSigIgn ∨
      sig = 15 ∧ x.sig.sigtermHandler ≠ linuxSigDfl ∧ x.sig.sigtermHandler ≠ linuxSigIgn)

/-- `process_kill_pgid`: the group, less init. -/
def killPgidGroup (pgid : ℤ) : GroupKill where
  kills x := x.state ≠ .unused ∧ x.pid ≠ 1 ∧ x.pgid = pgid
  wakes _ := False
  hands := false
  kills_congr := by
    intro x y hi hu _ h
    simp only [Task.ident, Prod.mk.injEq] at hi
    rw [ne_eq, ← hu, ← hi.1, ← hi.2.1]
    exact h
  wakes_congr _ _ _ h := h
  kills_pid h := h.2.1

/-- `process_send_signal_pgid`: the members that the signal kills. -/
def signalPgidGroup (pgid sig : ℤ) : GroupKill where
  kills x := SignalKills sig x ∧ x.pgid = pgid
  wakes x := SignalCaught sig x ∧ x.pgid = pgid
  hands := true
  kills_congr := by
    intro x y hi hu hz h
    simp only [Task.ident, Prod.mk.injEq] at hi
    unfold SignalKills at h ⊢
    rw [ne_eq, ne_eq, ← hu, ← hz, ← hi.1, ← hi.2.1, ← hi.2.2.1, ← hi.2.2.2.1]
    exact h
  wakes_congr := by
    intro x y hi hu hz h
    simp only [Task.ident, Prod.mk.injEq] at hi
    unfold SignalCaught at h ⊢
    rw [ne_eq, ne_eq, ← hu, ← hz, ← hi.2.1, ← hi.2.2.1, ← hi.2.2.2.1]
    exact h
  kills_pid h := h.1.2.2.1

variable {W : TaskRef → Option WaitFor} {s : TaskTable}

theorem TreeInv.killPgid_noLost (h : TreeInv s) (hno : ∀ p c, ¬ LostWakeup W s p c) (pgid code : ℤ)
    (hok : 0 < pgid → (killPgidGroup pgid).LoopOk W s (finRange procMaxTasks))
    (p c : TaskRef) : ¬ LostWakeup W (processKillPgid s pgid code).1 p c := by
  unfold processKillPgid
  split_ifs with hpgid
  · exact hno p c
  have hfold := GroupKill.foldl_noLost (G := killPgidGroup pgid)
    (g := EdgeOS.killPgidStep pgid code) (fun s k i hs => hs.killPgidStep pgid code k i)
    (fun s k i hs hk => hs.killPgidStep_killed code k hk.1 hk.2.1 hk.2.2)
    (fun s k i hs hk => ⟨by
      unfold EdgeOS.killPgidStep
      dsimp only
      rw [if_pos]
      · exact refl s
      · by_contra hc
        push Not at hc
        exact hk hc, False.elim⟩)
    h hno 0 (hok (by omega)) p c
  generalize (finRange procMaxTasks).foldl (EdgeOS.killPgidStep pgid code) (s, 0) = r
    at hfold ⊢
  exact hfold

theorem TreeInv.signalOne_kills (h : TreeInv s) {t : TaskRef} (ht : IsSlot t) {sig : ℤ}
    (hk : SignalKills sig (s.task t)) :
    (processSignalOne s t sig).1 = EdgeOS.terminate s t (128 + sig) := by
  obtain ⟨h1, h2, h3, h4⟩ := hk
  have hkill : ∀ code, processKillPid s (s.task t).pid code = (EdgeOS.terminate s t code, 0) := by
    intro code
    unfold processKillPid
    rw [h.1.find_self ht h1]
    dsimp only
    rw [if_neg h3]
  unfold processSignalOne
  dsimp only
  rw [if_neg (by simp [h1, h2])]
  rcases h4 with rfl | ⟨rfl, h4⟩ | ⟨rfl, h4⟩
  · rw [if_pos rfl, if_neg h3, hkill]
  · simp [h4, h3, hkill, linuxSigDfl, linuxSigIgn]
  · simp [h4, h3, hkill, linuxSigDfl, linuxSigIgn]

theorem signalOne_quiet (s : TaskTable) (t : TaskRef) {sig : ℤ}
    (hk : ¬ SignalKills sig (s.task t)) : Quiet s (processSignalOne s t sig).1 := by
  unfold processSignalOne
  dsimp only
  by_cases hdead : (s.task t).state = .unused ∨ (s.task t).state = .zombie
  · rw [if_pos hdead]
    exact refl s
  rw [if_neg hdead]
  push Not at hdead
  have hpid : (sig = 9 ∨ sig = 2 ∧ (s.task t).sig.sigintHandler = linuxSigDfl ∨
      sig = 15 ∧ (s.task t).sig.sigtermHandler = linuxSigDfl) → (s.task t).pid = 1 := fun hd => by
    by_contra hpid
    exact hk ⟨hdead.1, hdead.2, hpid, hd⟩
  by_cases h9 : sig = 9
  · rw [if_pos h9, if_pos (hpid (.inl h9))]
    exact refl s
  rw [if_neg h9]
  by_cases hsig : sig ≠ 2 ∧ sig ≠ 15
  · rw [if_pos hsig]
    exact refl s
  rw [if_neg hsig]
  generalize hh : (if sig = 2 then (s.task t).sig.sigintHandler
    else (s.task t).sig.sigtermHandler) = handler
  by_cases hign : handler = linuxSigIgn
  · rw [if_pos hign]
    exact refl s
  rw [if_neg hign]
  by_cases hdfl : handler = linuxSigDfl
  · have hinit : (s.task t).pid = 1 := by
      apply hpid
      rw [hdfl] at hh
      split_ifs at hh with h2
      · exact .inr (.inl ⟨h2, hh⟩)
      · exact .inr (.inr ⟨by tauto, hh⟩)
    rw [if_pos hdfl, if_pos hinit]
    exact refl s
  · rw [if_neg hdfl]
    refine trans (modify s t fun x => ?_) (wakeIfBlocked_quiet _ t)
    split_ifs <;> exact ⟨rfl, rfl, rfl⟩

theorem signalOne_caught (s : TaskTable) {t : TaskRef} (hi : (s.task t).isIdle = false) {sig : ℤ}
    (hc : SignalCaught sig (s.task t)) : ((processSignalOne s t sig).1.task t).state ≠ .blocked := by
  obtain ⟨h1, h2, h3⟩ := hc
  have hwake : ∀ f : Task → Task, (∀ x, (f x).isIdle = x.isIdle) →
      ((wakeIfBlocked (s.modify t f) t).task t).state ≠ .blocked := fun f hf =>
    wakeIfBlocked_self _ (by rw [modify_task_self, hf, hi])
  unfold processSignalOne
  dsimp only
  rw [if_neg (by simp [h1, h2])]
  rcases h3 with ⟨rfl, h3, h4⟩ | ⟨rfl, h3, h4⟩
  · rw [if_neg (by decide), if_neg (by decide)]
    simp only [if_true, h3, h4, if_false]
    exact hwake _ fun _ => rfl
  rw [if_neg (by decide), if_neg (by decide), if_neg (show ¬ (15 : ℤ) = 2 by decide)]
  simp only [h3, h4, if_false]
  exact hwake _ fun x => by split_ifs <;> rfl

theorem signalPgidStep_fst (s : TaskTable) (pgid sig : ℤ) (k : ℕ) (i : Fin procMaxTasks) :
    (signalPgidStep pgid sig (s, k) i).1 = if (s.task (.slot i)).state = .unused ∨ (s.task (.slot i)).state = .zombie ∨
        (s.task (.slot i)).pgid ≠ pgid then s else (processSignalOne s (.slot i) sig).1 := by
  unfold signalPgidStep
  dsimp only
  split_ifs <;> rfl

theorem TreeInv.signalPgidStep_kills (h : TreeInv s) {pgid sig : ℤ} (k : ℕ) {i : Fin procMaxTasks}
    (hk : (signalPgidGroup pgid sig).kills (s.task (.slot i))) :
    (EdgeOS.signalPgidStep pgid sig (s, k) i).1 = EdgeOS.terminate s (.slot i) (128 + sig) := by
  obtain ⟨hk, hg⟩ := hk
  rw [signalPgidStep_fst, if_neg (by simp [hk.1, hk.2.1, hg]), h.signalOne_kills ⟨i, rfl⟩ hk]

theorem signalPgidStep_quiet (s : TaskTable) {pgid sig : ℤ} (k : ℕ) {i : Fin procMaxTasks}
    (hk : ¬ (signalPgidGroup pgid sig).kills (s.task (.slot i))) :
    Quiet s (signalPgidStep pgid sig (s, k) i).1 := by
  rw [signalPgidStep_fst]
  split_ifs with hskip
  · exact refl s
  · push Not at hskip
    exact signalOne_quiet s _ fun hc => hk ⟨hc, hskip.2.2⟩

theorem TreeInv.sendSignalPgid_noLost (h : TreeInv s) (hno : ∀ p c, ¬ LostWakeup W s p c) (pgid sig : ℤ)
    (hok : 0 < pgid → (signalPgidGroup pgid sig).LoopOk W s (finRange procMaxTasks))
    (p c : TaskRef) : ¬ LostWakeup W (processSendSignalPgid s pgid sig).1 p c := by
  unfold processSendSignalPgid
  split_ifs with hpgid
  · exact hno p c
  have hfold := GroupKill.foldl_noLost (G := signalPgidGroup pgid sig)
    (g := EdgeOS.signalPgidStep pgid sig) (fun s k i hs => hs.signalPgidStep pgid sig k i)
    (fun s k i hs hk => by
      rw [hs.signalPgidStep_kills k hk]
      exact hs.terminate_killed ⟨i, rfl⟩ hk.1.1 hk.1.2.2.1 _)
    (fun s k i hs hk => by
      refine ⟨signalPgidStep_quiet s k hk, fun hc => ?_⟩
      obtain ⟨hc, hg⟩ := hc
      rw [signalPgidStep_fst, if_neg (by simp [hc.1, hc.2.1, hg])]
      exact signalOne_caught s (hs.1.slots i) hc)
    h hno 0 (hok (by omega)) p c
  generalize (finRange procMaxTasks).foldl (EdgeOS.signalPgidStep pgid sig) (s, 0) = r
    at hfold ⊢
  exact hfold

end EdgeOS
