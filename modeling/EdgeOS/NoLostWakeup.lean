import EdgeOS.GroupKill

namespace EdgeOS

open Lib TaskTable

variable {W : TaskRef → Option WaitFor} {s s' s'' : TaskTable}

/-! ## Steps that touch one task -/

/-- Outside the record of `x`, nothing that a waiter sees has changed. -/
structure Outside (x : TaskRef) (s s' : TaskTable) : Prop where
  parent : ∀ u, u ≠ x → (s'.task u).tree.parent = (s.task u).tree.parent
  ident : ∀ u, u ≠ x → (s'.task u).ident = (s.task u).ident
  state : ∀ u, u ≠ x → (s'.task u).state = (s.task u).state

namespace Outside

variable {x : TaskRef}

theorem trans (h : Outside x s s') (h' : Outside x s' s'') : Outside x s s'' where
  parent u hu := (h'.parent u hu).trans (h.parent u hu)
  ident u hu := (h'.ident u hu).trans (h.ident u hu)
  state u hu := (h'.state u hu).trans (h.state u hu)

theorem modify (s : TaskTable) (x : TaskRef) (f : Task → Task) : Outside x s (s.modify x f) := by
  refine ⟨fun u hu => ?_, fun u hu => ?_, fun u hu => ?_⟩ <;> rw [modify_task_ne _ _ hu]

theorem setState (s : TaskTable) (x : TaskRef) (st : TaskState) (acpu : ℕ → ℤ) :
    Outside x s (schedulerTaskSetState st acpu s x) := by
  have hm := SchedMoves.setState st acpu s x
  refine ⟨fun u _ => by rw [hm.tree], fun u _ => hm.ident u, fun u hu => ?_⟩
  rw [setState_state, if_neg fun hc => hu hc.1]

theorem makeRunnable (s : TaskTable) (x : TaskRef) (cpuId : ℕ) : Outside x s (schedulerTaskMakeRunnable s x cpuId) := by
  have hm := SchedMoves.makeRunnable s x cpuId
  refine ⟨fun u _ => by rw [hm.tree], fun u _ => hm.ident u, fun u hu => ?_⟩
  rw [makeRunnable_state, if_neg fun hc => hu hc.1]

theorem unlink {ch : TaskRef → List TaskRef} (h : TreeOf s ch) (x : TaskRef) : Outside x s (taskChildUnlink s x) := by
  have hm := TreeMoves.unlink s x
  refine ⟨fun u hu => ?_, fun u _ => hm.ident u, fun u _ => hm.state u⟩
  rw [h.unlink_parent, if_neg hu]

theorem release {ch : TaskRef → List TaskRef} (h : TreeOf s ch) (x : TaskRef) :
    Outside x s (taskRelease (taskChildUnlink s x) x) :=
  ((unlink h x).trans (setState _ x _ _)).trans (modify _ x _)

theorem linkFresh (h : TreeInv s) {i : Fin procMaxTasks} {p : TaskRef}
    (hfree : (s.task (.slot i)).state = .unused) (hp : CanParent s p) (hB : FreshChild s s' i) :
    Outside (.slot i) s (taskChildLink s' (some p) (.slot i)) := by
  have hm := TreeMoves.link s' (some p) (.slot i)
  obtain ⟨-, hpar⟩ := FreshChild.forest h hfree hp hB
  refine ⟨fun u hu => ?_, fun u hu => ?_, fun u hu => ?_⟩
  · rw [hpar, if_neg hu]
  · rw [hm.ident, hB.other u hu]
  · rw [hm.state, hB.other u hu]

theorem lost (h : Outside x s s') (hz : (s'.task x).state ≠ .zombie)
    (hx : ∀ c, c ≠ x → ¬ LostWakeup W s' x c) {p c : TaskRef} (hl : LostWakeup W s' p c) :
    LostWakeup W s p c := by
  have hc : c ≠ x := by
    rintro rfl
    exact hz hl.2.1
  have hp : p ≠ x := by
    rintro rfl
    exact hx c hc hl
  obtain ⟨h1, h2, h3⟩ := hl
  refine ⟨(h.parent c hc).symm.trans h1, (h.state c hc).symm.trans h2, ?_⟩
  exact h3.of_move (h.ident p hp) (h.ident c hc) fun hb => (h.state p hp).symm.trans hb

/-- What is lost elsewhere was lost before, when `x` was and is nobody's parent. -/
theorem lost_fresh (h : Outside x s s') (hz : (s'.task x).state ≠ .zombie)
    (hx : ∀ c, (s.task c).tree.parent ≠ some x) {p c : TaskRef} (hl : LostWakeup W s' p c) :
    LostWakeup W s p c := by
  refine h.lost hz (fun c hc hl => hx c ?_) hl
  rw [← h.parent c hc]
  exact hl.1

end Outside

theorem TreeInv.childless_unused (h : TreeInv s) {x : TaskRef} (hx : (s.task x).state = .unused)
    (c : TaskRef) : (s.task c).tree.parent ≠ some x := fun hc =>
  (h.1.linked c x hc).2.2.live hx

theorem TreeInv.forkTable_lost (h : TreeInv s) {i : Fin procMaxTasks} {p : TaskRef}
    (hfree : (s.task (.slot i)).state = .unused) (hp : CanParent s p) (tf : TrapFrame)
    {q c : TaskRef} (hl : LostWakeup W (EdgeOS.forkTable s p (.slot i) tf) q c) :
    LostWakeup W s q c := by
  have hB := forkPrepare_fresh (i := i) (p := p) (h.1.slots i)
  refine (((Outside.linkFresh h hfree hp hB).trans (Outside.modify _ _ (forkFrame tf))).trans
    (Outside.setState _ _ _ _)).lost_fresh ?_ (h.childless_unused hfree) hl
  rw [setState_state]
  split_ifs
  · simp
  · rw [modify_task_self]
    show ((taskChildLink _ _ _).task _).state ≠ _
    rw [(TreeMoves.link _ _ _).state]
    simp [forkPrepare, TaskTable.modify, forkFields]

theorem TreeInv.spawnTable_lost (h : TreeInv s) {i : Fin procMaxTasks} {p : TaskRef}
    (hfree : (s.task (.slot i)).state = .unused) (hp : CanParent s p) (name : String)
    (loaded : Bool) {q c : TaskRef}
    (hl : LostWakeup W (EdgeOS.spawnTable s p (.slot i) name loaded) q c) :
    LostWakeup W s q c := by
  have hB := spawnPrepare_fresh h (p := p) hfree name
  have hout := Outside.linkFresh h hfree hp hB
  obtain ⟨⟨ch, hch⟩, -⟩ := FreshChild.forest h hfree hp hB
  have hidle : ((taskChildLink (spawnPrepare s p (.slot i) name) (some p) (.slot i)).task
      (.slot i)).isIdle = false := by
    rw [(TreeMoves.link _ _ _).isIdle, hB.isIdle]
  unfold EdgeOS.spawnTable at hl
  dsimp only at hl
  generalize taskChildLink (spawnPrepare s p (.slot i) name) (some p) (.slot i) = s2
    at hout hch hidle hl
  split_ifs at hl
  · refine ((hout.trans (Outside.modify _ _ _)).trans ((Outside.setState _ _ _ _).trans
      (Outside.makeRunnable _ _ _))).lost_fresh ?_ (h.childless_unused hfree) hl
    rw [makeRunnable_state, if_pos]
    · simp
    · refine ⟨rfl, ?_⟩
      rw [(SchedMoves.setState _ _ _ _).isIdle, modify_task_self]
      exact hidle
  · refine (hout.trans (Outside.release hch _)).lost_fresh ?_ (h.childless_unused hfree) hl
    unfold taskRelease
    rw [modify_task_self]
    simp

/-! ## Exit, kill, adoption -/

/-- What the death of `t` needs: init does not sleep in a wait that a zombie child of `t`
counts for, or `t` itself ends up as init's child. -/
def DeathOk (W : TaskRef → Option WaitFor) (s : TaskTable) (t : TaskRef) : Prop :=
  ∀ i, taskFindByPid s 1 = some i → deathParent s t = some i ∨
    ∀ c, (s.task c).tree.parent = some t → (s.task c).state = .zombie → ¬ Awaits W s i c

theorem Killed.lost_of_ok {t : TaskRef} (hk : Killed s s' t (taskFindByPid s 1) (deathParent s t)) (hok : DeathOk W s t)
    {p c : TaskRef} (hl : LostWakeup W s' p c) : LostWakeup W s p c := by
  obtain ⟨hheir, hl | ⟨hp, hi, -, hz, ha⟩⟩ := hk.lost hl
  · exact hl
  · rcases hok p hi with he | hno
    · exact absurd he hheir
    · exact absurd ha (hno c hp hz)

theorem TreeInv.killPid_lost (h : TreeInv s) (pid code : ℤ)
    (hok : ∀ t, taskFindByPid s pid = some t → DeathOk W s t) {p c : TaskRef}
    (hl : LostWakeup W (processKillPid s pid code).1 p c) : LostWakeup W s p c := by
  unfold processKillPid at hl
  rcases hfind : taskFindByPid s pid with _ | t
  · rw [hfind] at hl
    exact hl
  obtain ⟨h1, h2, h3⟩ := taskFindByPid_some hfind
  rw [hfind] at hl
  dsimp only at hl
  split_ifs at hl with hpid
  · exact hl
  · exact (h.terminate_killed h1 h2 (by rw [h3]; exact hpid) code).lost_of_ok (hok t hfind) hl

theorem TreeInv.exitCurrent_lost (h : TreeInv s) (hcur : IsSlot (schedulerCurrentTask s))
    (code : ℤ) (hok : DeathOk W s (schedulerCurrentTask s)) {p c : TaskRef}
    (hl : LostWakeup W (processExitCurrent s code) p c) : LostWakeup W s p c := by
  unfold processExitCurrent at hl
  dsimp only at hl
  split_ifs at hl with hpid
  · exact hl
  · exact (h.terminate_killed hcur h.1.current hpid code).lost_of_ok hok hl

theorem TreeInv.sendSignal_lost (h : TreeInv s) (pid sig : ℤ)
    (hok : ∀ t, taskFindByPid s pid = some t → SignalKills sig (s.task t) → DeathOk W s t)
    {p c : TaskRef} (hl : LostWakeup W (processSendSignal s pid sig).1 p c) :
    LostWakeup W s p c := by
  unfold processSendSignal at hl
  split_ifs at hl
  · exact hl
  rcases hfind : taskFindByPid s pid with _ | t
  · rw [hfind] at hl
    exact hl
  rw [hfind] at hl
  dsimp only at hl
  by_cases hk : SignalKills sig (s.task t)
  · have ht := (taskFindByPid_some hfind).1
    rw [h.signalOne_kills ht hk] at hl
    exact (h.terminate_killed ht hk.1 hk.2.2.1 _).lost_of_ok (hok t hfind hk) hl
  · exact (signalOne_quiet s t hk).lost hl

theorem TreeInv.adoptOrphans_lost (h : TreeInv s) {fromPpid toPpid : ℤ} (hadopt : AdoptOk s fromPpid toPpid)
    (hok : ∀ d f c, taskFindByPid s toPpid = some d → taskFindByPid s fromPpid = some f →
      (s.task c).tree.parent = some f → (s.task c).state = .zombie → ¬ Awaits W s d c)
    {p c : TaskRef} (hl : LostWakeup W (processAdoptOrphans s fromPpid toPpid).1 p c) :
    LostWakeup W s p c := by
  obtain ⟨-, hm, hpar⟩ := h.adoptOrphans_spec hadopt
  obtain ⟨h1, h2, h3⟩ := hl
  rw [hm.state] at h2
  have h4 : Awaits W s p c := h3.of_move (hm.ident p) (hm.ident c) fun hb => by
    rw [← hm.state]
    exact hb
  rcases hpar c p h1 with hp | ⟨hd, f, hf, hp⟩
  · exact ⟨hp, h2, h4⟩
  · exact absurd h4 (hok p f c hd hf hp h2)

/-! ## Waiting -/

theorem LostWakeup.of_waiting {W' : TaskRef → Option WaitFor} {p c : TaskRef}
    (hl : LostWakeup W' s p c) (hW : ∀ w, W' p = some w → W p = some w) : LostWakeup W s p c := by
  obtain ⟨h1, h2, h3, w, hw, h4⟩ := hl
  exact ⟨h1, h2, h3, w, hW w hw, h4⟩

/-- The running task goes to sleep in a wait, and no child it waits for is a zombie. -/
theorem TreeInv.block_lost (h : TreeInv s) {t : TaskRef} (ht : IsSlot t) (hlive : Live s t)
    {w : WaitFor} (hscan : ∀ c, (s.task c).tree.parent = some t →
      w.matches (s.task t) (s.task c) = true → (s.task c).state ≠ .zombie)
    {W' : TaskRef → Option WaitFor} (hself : W' t = some w)
    (hother : ∀ p, p ≠ t → ∀ w, W' p = some w → W p = some w) {p c : TaskRef}
    (hl : LostWakeup W' (schedulerYield (schedulerTaskSetBlocked s t)) p c) :
    LostWakeup W s p c := by
  have hs1 : TreeInv (schedulerTaskSetBlocked s t) := h.setState ht hlive (by simp) (by simp)
  have hl1 := hs1.yield_quiet.lost hl
  have hout : Outside t s (schedulerTaskSetBlocked s t) := Outside.setState s t _ _
  have hm : SchedMoves s (schedulerTaskSetBlocked s t) := SchedMoves.setState _ _ s t
  have hst : ((schedulerTaskSetBlocked s t).task t).state = .blocked := by
    unfold schedulerTaskSetBlocked
    rw [setState_state, if_pos ⟨rfl, h.not_isIdle ht⟩]
  have hnot : ∀ c, c ≠ t → ¬ LostWakeup W' (schedulerTaskSetBlocked s t) t c := by
    rintro c hc ⟨h1, h2, -, w', hw', h3⟩
    obtain rfl := Option.some.inj (hself.symm.trans hw')
    rw [hout.parent c hc] at h1
    rw [hout.state c hc] at h2
    rw [w.matches_congr (hm.ident t) (hm.ident c)] at h3
    exact hscan c h1 h3 h2
  have hp : p ≠ t := by
    rintro rfl
    refine hnot c ?_ hl1
    rintro rfl
    exact absurd (hl1.2.1.symm.trans hst) (by simp)
  exact (hout.lost (by rw [hst]; simp) hnot hl1).of_waiting (hother p hp)

namespace ProcSys

variable {L : KernelLayout} {σ : ProcSys}

/-- What a step has to meet beside `treeStepOk`: no zombie passes to a task that sleeps in
a wait for it without that task being woken, and no group of a zombie or of a sleeping
waiter changes. -/
def waitStepOk (σ : ProcSys) : ProcEvent → Prop
  | .exitCurrent _ => DeathOk σ.waiting σ.proc.tab σ.current
  | .killPid pid _ => ∀ t, taskFindByPid σ.proc.tab pid = some t → DeathOk σ.waiting σ.proc.tab t
  | .sendSignal pid sig => ∀ t, taskFindByPid σ.proc.tab pid = some t →
      SignalKills sig (σ.proc.tab.task t) → DeathOk σ.waiting σ.proc.tab t
  | .killPgid pgid _ => 0 < pgid → (killPgidGroup pgid).LoopOk σ.waiting σ.proc.tab (List.finRange procMaxTasks)
  | .sendSignalPgid pgid sig => 0 < pgid →
      (signalPgidGroup pgid sig).LoopOk σ.waiting σ.proc.tab (List.finRange procMaxTasks)
  | .adoptOrphans fromPpid toPpid => ∀ d f c, taskFindByPid σ.proc.tab toPpid = some d →
      taskFindByPid σ.proc.tab fromPpid = some f → (σ.proc.tab.task c).tree.parent = some f →
      (σ.proc.tab.task c).state = .zombie → ¬ Awaits σ.waiting σ.proc.tab d c
  | .setpgid pid _ => ∀ t, taskFindByPid σ.proc.tab
        (if pid = 0 then (σ.proc.tab.task σ.current).pid else pid) = some t →
      (σ.proc.tab.task t).state ≠ .zombie ∧ ((σ.proc.tab.task t).state = .blocked → σ.waiting t = none)
  | .setsid => (σ.proc.tab.task σ.current).state ≠ .zombie
  | _ => True

/-- No task sleeps in a wait although one of the children it waits for is a zombie. -/
def NoLostWakeup (σ : ProcSys) : Prop := ∀ p c, ¬ LostWakeup σ.waiting σ.proc.tab p c

/-- One round of a wait loop: the running task blocks only if no child it waits for is a
zombie. -/
theorem NoLostWakeup.waitStep (hno : σ.NoLostWakeup) (h : σ.TreeKept) (hcur : IsSlot σ.current)
    (w : WaitFor) (nohang : Bool) : (σ.waitStep w nohang).NoLostWakeup := by
  intro p c hl
  have hscan := waitScan_children h.tree σ.current w
  unfold ProcSys.waitStep waitRound at hl
  generalize waitScan σ.proc.tab σ.current w listFuel
    (σ.proc.tab.task σ.current).tree.firstChild false = r at hscan hl
  -- Every way out of the round but the last leaves the task outside the wait.
  have hout : ∀ (t : Option TaskRef) (u : TaskRef) (w' : WaitFor),
      (if u = σ.current then none else if t = some u then none else σ.waiting u) = some w' →
      σ.waiting u = some w' := by
    intro t u w' hu
    split_ifs at hu
    exact hu
  rcases r with ⟨m, _ | t⟩
  · cases m with
    | false => exact hno p c (hl.of_waiting (hout none p))
    | true =>
      cases nohang with
      | true => exact hno p c (hl.of_waiting (hout none p))
      | false =>
        change LostWakeup (fun t => if t = σ.current then some w
          else if none = some t then none else σ.waiting t)
          (schedulerYield (schedulerTaskSetBlocked σ.proc.tab σ.current)) p c at hl
        refine hno p c (h.tree.block_lost hcur h.tree.1.current (hscan.2 rfl) (if_pos rfl) ?_ hl)
        intro q hq w' hw'
        rw [if_neg hq, if_neg (by simp)] at hw'
        exact hw'
  · obtain ⟨hp, hz, -⟩ := hscan.1 t rfl
    have hl' : LostWakeup σ.waiting (reap σ.proc.tab t) p c := by
      cases m <;> exact hl.of_waiting (hout (some t) p)
    obtain ⟨-, ch, hch⟩ := h.tree
    have hfree : ((reap σ.proc.tab t).task t).state = .unused := by
      unfold reap taskRelease
      rw [modify_task_self]
    refine hno p c ((Outside.release hch t).lost ?_ (fun c _ hc => ?_) hl')
    · show ((reap σ.proc.tab t).task t).state ≠ .zombie
      rw [hfree]
      simp
    · have hb : ((reap σ.proc.tab t).task t).state = .blocked := hc.2.2.1
      rw [hfree] at hb
      simp at hb

/-- Nothing is lost in a step that only changes the task table, if nothing is lost there. -/
theorem NoLostWakeup.withTab {tab : TaskTable} (hno : σ.NoLostWakeup)
    (h : ∀ p c, LostWakeup σ.waiting tab p c → LostWakeup σ.waiting σ.proc.tab p c) :
    (σ.withTab tab).NoLostWakeup := fun p c hl => hno p c (h p c hl)

theorem NoLostWakeup.setRunnable (hno : σ.NoLostWakeup) (h : σ.TreeKept) (pid : ℤ) :
    (σ.withTab (processSetRunnable σ.proc.tab pid)).NoLostWakeup := by
  refine hno.withTab fun p c hl => ?_
  unfold processSetRunnable at hl
  rcases hfind : taskFindByPid σ.proc.tab pid with _ | t
  · rw [hfind] at hl
    exact hl
  rw [hfind] at hl
  have hidle := h.tree.not_isIdle (taskFindByPid_some hfind).1
  have hst := makeRunnable_state σ.proc.tab t t (wakeCpu σ.proc.tab t)
  rw [if_pos ⟨rfl, hidle⟩] at hst
  refine (Outside.makeRunnable σ.proc.tab t _).lost ?_ (fun c _ hc => ?_) hl
  · rw [hst]
    simp
  · exact absurd (hst.symm.trans hc.2.2.1) (by simp)

theorem NoLostWakeup.modify (hno : σ.NoLostWakeup) (t : TaskRef) {f : Task → Task}
    (hf : ∀ x, (f x).tree = x.tree ∧ (f x).state = x.state ∧ (f x).pid = x.pid ∧
      (f x).pgid = x.pgid) : (σ.withTab (σ.proc.tab.modify t f)).NoLostWakeup := by
  rintro p c ⟨h1, h2, h3, w, hw, h4⟩
  have htree := modify_proj σ.proc.tab t c f Task.tree fun x => (hf x).1
  have hstate := fun u => modify_proj σ.proc.tab t u f Task.state fun x => (hf x).2.1
  have hpid := modify_proj σ.proc.tab t c f Task.pid fun x => (hf x).2.2.1
  have hpgid := fun u => modify_proj σ.proc.tab t u f Task.pgid fun x => (hf x).2.2.2
  refine hno p c ⟨?_, (hstate c).symm.trans h2, (hstate p).symm.trans h3, w, hw, ?_⟩
  · rw [← htree]
    exact h1
  · rw [← w.matches_of_ids (hpgid p) hpid (hpgid c)]
    exact h4

/-- A new group for one task that is no zombie and sleeps in no wait. -/
theorem NoLostWakeup.regroup (hno : σ.NoLostWakeup) {t : TaskRef} (hz : (σ.proc.tab.task t).state ≠ .zombie)
    (hb : (σ.proc.tab.task t).state = .blocked → σ.waiting t = none) {f : Task → Task}
    (hf : ∀ x, (f x).state = x.state) : (σ.withTab (σ.proc.tab.modify t f)).NoLostWakeup := by
  have hst : ((σ.proc.tab.modify t f).task t).state = (σ.proc.tab.task t).state := by
    rw [modify_task_self, hf]
  refine hno.withTab fun p c hl =>
    (Outside.modify σ.proc.tab t f).lost (by rw [hst]; exact hz) (fun c _ hc => ?_) hl
  obtain ⟨-, -, hblocked, w, hw, -⟩ := hc
  rw [hst] at hblocked
  exact absurd ((hb hblocked).symm.trans hw) (by simp)

theorem NoLostWakeup.step (hno : σ.NoLostWakeup) (h : σ.TreeKept) (e : ProcEvent)
    (htree : σ.treeStepOk e) (hok : σ.waitStepOk e) : (σ.step L e).NoLostWakeup := by
  cases e with
  | fork tf =>
    unfold ProcSys.step
    split_ifs
    · intro p c hl
      refine hno p c ?_
      dsimp only at hl
      unfold processFork at hl
      split at hl
      · rename_i parent tf hcur
        split at hl
        · exact hl
        rename_i child halloc
        split_ifs at hl
        · exact hl
        · exact h.tree.forkTable_lost (taskAlloc_some halloc).2 (h.canParent hcur htree) tf hl
      · exact hl
    · exact hno
  | spawnExec name elf =>
    unfold ProcSys.step
    split_ifs
    · intro p c hl
      refine hno p c ?_
      dsimp only at hl
      unfold processSpawnExec at hl
      split at hl
      · rename_i parent hcur
        split at hl
        · exact hl
        · rename_i child halloc
          exact h.tree.spawnTable_lost (taskAlloc_some halloc).2 (h.canParent hcur htree) name _ hl
      · exact hl
    · exact hno
  | exitCurrent code =>
    unfold ProcSys.step
    split_ifs with hfree
    · obtain ⟨i, hi, -⟩ := free_slot hfree
      exact hno.withTab fun p c hl => h.tree.exitCurrent_lost ⟨i, hi⟩ code hok hl
    · exact hno
  | wait w nohang =>
    unfold ProcSys.step
    split_ifs with hfree
    · obtain ⟨i, hi, -⟩ := free_slot hfree
      exact hno.waitStep h ⟨i, hi⟩ w nohang
    · exact hno
  | resumeWait =>
    rcases hw : σ.waiting σ.current with _ | w
    · simp only [ProcSys.step, hw]
      exact hno
    · simp only [ProcSys.step, hw]
      exact hno.waitStep h (h.waiters _ _ hw) w false
  | killPid pid code => exact hno.withTab fun p c hl => h.tree.killPid_lost pid code hok hl
  | killPgid pgid code => exact h.tree.killPgid_noLost hno pgid code hok
  | sendSignal pid sig => exact hno.withTab fun p c hl => h.tree.sendSignal_lost pid sig hok hl
  | sendSignalPgid pgid sig => exact h.tree.sendSignalPgid_noLost hno pgid sig hok
  | adoptOrphans fromPpid toPpid =>
    exact hno.withTab fun p c hl => h.tree.adoptOrphans_lost htree hok hl
  | setRunnable pid => exact hno.setRunnable h pid
  | sigaction sig handler =>
    unfold ProcSys.step
    split_ifs
    · apply hno.modify
      exact fun _ => ⟨rfl, rfl, rfl, rfl⟩
    · exact hno
  | setpgid pid pgid =>
    unfold ProcSys.step
    split_ifs
    · show (σ.withTab (processSetpgid σ.proc.tab pid pgid).1).NoLostWakeup
      rcases processSetpgid_cases σ.proc.tab pid pgid with he | ⟨t, g, ht, he⟩
      · rw [he]
        exact hno
      rw [he]
      obtain ⟨hz, hb⟩ := hok t ht
      apply hno.regroup hz hb
      exact fun _ => rfl
    · exact hno
  | setsid =>
    unfold ProcSys.step
    split_ifs with hfree
    · obtain ⟨i, hi, hw⟩ := free_slot hfree
      show (σ.withTab (processSetsid σ.proc.tab).1).NoLostWakeup
      unfold processSetsid
      dsimp only
      split
      · exact hno
      dsimp only
      refine hno.regroup hok (fun _ => ?_) fun _ => rfl
      exact hi ▸ hw
    · exact hno
  | yield => exact hno.withTab fun p c hl => h.tree.yield_quiet.lost hl

end ProcSys

/-- In every run in which no zombie forks, and no zombie passes unannounced to a sleeping
waiter, no task sleeps in a wait that one of its zombie children would end. -/
theorem no_lost_wakeup (L : KernelLayout) (es : List ProcEvent)
    (hok : Meets (ProcSys.step L) (fun σ e => σ.treeStepOk e ∧ σ.waitStepOk e) (ProcSys.boot L) es) :
    (run (ProcSys.step L) (ProcSys.boot L) es).NoLostWakeup := by
  have h : ∀ σ e, (ProcSys.TreeKept σ ∧ σ.NoLostWakeup) → σ.treeStepOk e ∧ σ.waitStepOk e →
      ProcSys.TreeKept (σ.step L e) ∧ (σ.step L e).NoLostWakeup := fun σ e hσ hok =>
    ⟨hσ.1.step e hok.1, hσ.2.step hσ.1 e hok.1 hok.2⟩
  refine (run_invariant (I := fun σ => ProcSys.TreeKept σ ∧ σ.NoLostWakeup) h
    ⟨ProcSys.boot_inv, fun p c hl => ?_⟩ hok).2
  obtain ⟨-, -, -, w, hw, -⟩ := hl
  simp [ProcSys.boot] at hw

/-- Init sleeps in a wait until its child exits, then reaps it. -/
def waitRun : List ProcEvent :=
  [.spawnExec "sh" fun m => (m, true), .wait .any false, .exitCurrent 0, .yield, .resumeWait]

theorem waitRun_noLostWakeup :
    Meets (ProcSys.step { kernelEnd := 0x48000000 }) (fun σ e => σ.treeStepOk e ∧ σ.waitStepOk e)
        (ProcSys.boot { kernelEnd := 0x48000000 }) waitRun ∧
      (run (ProcSys.step { kernelEnd := 0x48000000 }) (ProcSys.boot { kernelEnd := 0x48000000 })
        waitRun).NoLostWakeup := by
  have h : Meets (ProcSys.step { kernelEnd := 0x48000000 })
      (fun σ e => σ.treeStepOk e ∧ σ.waitStepOk e)
      (ProcSys.boot { kernelEnd := 0x48000000 }) waitRun := by
    refine ⟨⟨?_, trivial⟩, ⟨trivial, trivial⟩, ⟨trivial, ?_⟩, ⟨trivial, trivial⟩, ⟨trivial, trivial⟩, trivial⟩
    · show (TaskTable.task _ _).state ≠ .zombie
      decide +kernel
    · intro i hi
      refine .inl (Eq.trans ?_ hi)
      decide +kernel
  exact ⟨h, no_lost_wakeup _ _ h⟩

/-- Init sleeps in a wait for any child. Its grandchild, whose own child is a zombie,
exits: the zombie becomes init's, but only the grandchild's parent is woken. -/
def adoptedZombieRun : List ProcEvent :=
  [.spawnExec "sh" fun m => (m, true), .yield, .fork (some {}), .setRunnable 3, .yield,
    .wait .any false, .fork (some {}), .killPid 4 0, .exitCurrent 0]

theorem adoptedZombie_loses_wakeup :
    ¬ (run (ProcSys.step { kernelEnd := 0x48000000 }) (ProcSys.boot { kernelEnd := 0x48000000 })
      adoptedZombieRun).NoLostWakeup := by
  intro h
  refine h (.slot 0) (.slot 3) ⟨?_, ?_, ?_, .any, ?_, rfl⟩ <;> decide +kernel

end EdgeOS
