import EdgeOS.ProcessTree

namespace EdgeOS

open Lib TaskTable List TreeMoves

/-! ## The state beside the links -/

def Live (s : TaskTable) (t : TaskRef) : Prop := (s.task t).state ≠ .unused

def IsSlot (t : TaskRef) : Prop := ∃ i, t = .slot i

/-- `t` can be a parent: a live task of the table that is not a zombie. -/
structure CanParent (s : TaskTable) (t : TaskRef) : Prop where
  slot : IsSlot t
  live : Live s t
  notZombie : (s.task t).state ≠ .zombie

/-- What holds of the family fields beside the shape of the lists. -/
structure FamilyInv (s : TaskTable) : Prop where
  ppid : ∀ c, (s.task c).ppid = parentPid s (s.task c).tree.parent
  linked : ∀ c p, (s.task c).tree.parent = some p → IsSlot c ∧ Live s c ∧ CanParent s p
  pids : ∀ i, Live s (.slot i) → 0 < (s.task (.slot i)).pid ∧ (s.task (.slot i)).pid < s.nextPid
  distinct : ∀ i j, Live s (.slot i) → Live s (.slot j) → (s.task (.slot i)).pid = (s.task (.slot j)).pid → i = j
  initTask : ∀ i, Live s (.slot i) → (s.task (.slot i)).pid = 1 →
    (s.task (.slot i)).state ≠ .zombie ∧ (s.task (.slot i)).tree.parent = none
  nextPid : 1 < s.nextPid
  slots : ∀ i, (s.task (.slot i)).isIdle = false
  idles : ∀ c, (s.task (.idle c)).isIdle = true ∧ (s.task (.idle c)).state.Active
  cpuIdle : ∀ c, ∃ d, (s.cpu c).idle = some (.idle d)
  current : Live s (schedulerCurrentTask s)

def TreeInv (s : TaskTable) : Prop := FamilyInv s ∧ ∃ ch, TreeOf s ch

variable {s s' : TaskTable}

theorem parentPid_congr (hpid : ∀ u, (s'.task u).pid = (s.task u).pid)
    (par : Option TaskRef) : parentPid s' par = parentPid s par := by
  cases par with
  | none => rfl
  | some p => exact hpid p

/-- Rebuilding the invariant when the family fields are unchanged and states moved in a
way the links allow. -/
theorem FamilyInv.of_states (h : FamilyInv s)
    (htree : ∀ u, (s'.task u).tree = (s.task u).tree) (hpid : ∀ u, (s'.task u).pid = (s.task u).pid)
    (hppid : ∀ u, (s'.task u).ppid = (s.task u).ppid)
    (hidle : ∀ u, (s'.task u).isIdle = (s.task u).isIdle) (hnext : s'.nextPid = s.nextPid)
    (hcpu : ∀ c, (s'.cpu c).idle = (s.cpu c).idle)
    (hlive : ∀ u, Live s' u ↔ Live s u)
    (hzombie : ∀ u, (s'.task u).state = .zombie → (s.task u).state = .zombie ∨
      (∀ c, (s.task c).tree.parent ≠ some u) ∧ (s.task u).pid ≠ 1)
    (hrun : ∀ c, (s'.task (.idle c)).state.Active)
    (hcur : Live s (schedulerCurrentTask s')) : FamilyInv s' where
  ppid c := by
    rw [hppid, htree, h.ppid c, parentPid_congr hpid]
  linked c p hp := by
    rw [htree] at hp
    obtain ⟨h1, h2, h3⟩ := h.linked c p hp
    refine ⟨h1, (hlive c).mpr h2, h3.slot, (hlive p).mpr h3.live, fun hz => ?_⟩
    rcases hzombie p hz with hz' | ⟨hno, -⟩
    · exact h3.notZombie hz'
    · exact hno c hp
  pids i hi := by
    rw [hpid, hnext]
    exact h.pids i ((hlive _).mp hi)
  distinct i j hi hj he := by
    rw [hpid, hpid] at he
    exact h.distinct i j ((hlive _).mp hi) ((hlive _).mp hj) he
  initTask i hi he := by
    rw [hpid] at he
    obtain ⟨h1, h2⟩ := h.initTask i ((hlive _).mp hi) he
    refine ⟨fun hz => ?_, by rw [htree]; exact h2⟩
    rcases hzombie _ hz with hz' | ⟨-, hne⟩
    · exact h1 hz'
    · exact hne he
  nextPid := by rw [hnext]; exact h.nextPid
  slots i := by rw [hidle]; exact h.slots i
  idles c := ⟨by rw [hidle]; exact (h.idles c).1, hrun c⟩
  cpuIdle c := by rw [hcpu]; exact h.cpuIdle c
  current := (hlive _).mpr hcur

theorem FamilyInv.relink (h : FamilyInv s) (hm : TreeMoves s s') (c : TaskRef) (par : Option TaskRef)
    (hpar : ∀ u, (s'.task u).tree.parent = if u = c then par else (s.task u).tree.parent)
    (hppid : ∀ u, (s'.task u).ppid = if u = c then parentPid s par else (s.task u).ppid)
    (hok : ∀ p ∈ par, CanParent s p ∧ IsSlot c ∧ Live s c ∧ (s.task c).pid ≠ 1) :
    FamilyInv s' := by
  have hlive : ∀ u, Live s' u ↔ Live s u := fun u => by unfold Live; rw [hm.state]
  refine ⟨fun u => ?_, fun u p hp => ?_, fun i hi => ?_, fun i j hi hj he => ?_, fun i hi he => ?_,
    ?_, fun i => ?_, fun c => ?_, fun c => ?_, ?_⟩
  · rw [hppid, hpar, parentPid_congr hm.pid]
    split_ifs
    · rfl
    · exact h.ppid u
  · have hcp : ∀ {p}, CanParent s p → CanParent s' p := fun hcp =>
      ⟨hcp.slot, (hlive _).mpr hcp.live, by rw [hm.state]; exact hcp.notZombie⟩
    rw [hpar] at hp
    split_ifs at hp with hu
    · obtain ⟨h1, h2, h3, -⟩ := hok p hp
      exact ⟨hu ▸ h2, (hlive u).mpr (hu ▸ h3), hcp h1⟩
    · obtain ⟨h1, h2, h3⟩ := h.linked u p hp
      exact ⟨h1, (hlive u).mpr h2, hcp h3⟩
  · rw [hm.pid, hm.nextPid]
    exact h.pids i ((hlive _).mp hi)
  · rw [hm.pid, hm.pid] at he
    exact h.distinct i j ((hlive _).mp hi) ((hlive _).mp hj) he
  · rw [hm.pid] at he
    obtain ⟨h1, h2⟩ := h.initTask i ((hlive _).mp hi) he
    rw [hm.state, hpar]
    refine ⟨h1, ?_⟩
    split_ifs with hc
    · rcases par with _ | p
      · rfl
      · exact absurd (hc ▸ he) (hok p rfl).2.2.2
    · exact h2
  · rw [hm.nextPid]
    exact h.nextPid
  · rw [hm.isIdle]
    exact h.slots i
  · rw [hm.isIdle, hm.state]
    exact h.idles c
  · rw [hm.cpu]
    exact h.cpuIdle c
  · have hcur : schedulerCurrentTask s' = schedulerCurrentTask s := by
      unfold schedulerCurrentTask schedulerCpuId
      rw [hm.cpu, hm.localCpuId]
    rw [hcur]
    exact (hlive _).mpr h.current

/-! ## Scheduler operations -/

namespace TreeInv

variable {s s' : TaskTable} {t : TaskRef}

/-- The scheduler moved, with states that the links allow. -/
theorem sched (h : TreeInv s) (hm : SchedMoves s s') (hlive : ∀ u, Live s' u ↔ Live s u)
    (hzombie : ∀ u, (s'.task u).state = .zombie → (s.task u).state = .zombie ∨
      (∀ c, (s.task c).tree.parent ≠ some u) ∧ (s.task u).pid ≠ 1)
    (hrun : ∀ c, (s'.task (.idle c)).state.Active)
    (hcur : Live s (schedulerCurrentTask s')) : TreeInv s' := by
  obtain ⟨hf, ch, hch⟩ := h
  exact ⟨hf.of_states hm.tree hm.pid hm.ppid hm.isIdle hm.nextPid hm.idle hlive hzombie hrun hcur,
    ch, hch.congr hm.tree⟩

theorem not_isIdle (h : TreeInv s) (ht : IsSlot t) : (s.task t).isIdle = false := by
  obtain ⟨i, rfl⟩ := ht
  exact h.1.slots i

/-- Writing fields of one task that the invariant does not read. -/
theorem modify (h : TreeInv s) (t : TaskRef) {f : Task → Task}
    (hf : ∀ x, (f x).tree = x.tree ∧ (f x).pid = x.pid ∧ (f x).ppid = x.ppid ∧
      (f x).isIdle = x.isIdle ∧ (f x).state = x.state) : TreeInv (s.modify t f) := by
  have hst : ∀ u, ((s.modify t f).task u).state = (s.task u).state := fun u =>
    modify_proj s t u f Task.state fun x => (hf x).2.2.2.2
  have htree : ∀ u, ((s.modify t f).task u).tree = (s.task u).tree := fun u =>
    modify_proj s t u f Task.tree fun x => (hf x).1
  obtain ⟨hi, ch, hch⟩ := h
  refine ⟨hi.of_states htree (fun u => modify_proj s t u f Task.pid fun x => (hf x).2.1)
    (fun u => modify_proj s t u f Task.ppid fun x => (hf x).2.2.1)
    (fun u => modify_proj s t u f Task.isIdle fun x => (hf x).2.2.2.1) rfl (fun _ => rfl)
    (fun u => by unfold Live; rw [hst]) (fun u hz => .inl ((hst u).symm.trans hz))
    (fun c => by rw [hst]; exact (hi.idles c).2) hi.current, ch, hch.congr htree⟩

theorem setState (h : TreeInv s) (ht : IsSlot t) (htl : Live s t) {st : TaskState} {acpu : ℕ → ℤ} (hst : st ≠ .unused)
    (hz : st = .zombie → (∀ c, (s.task c).tree.parent ≠ some t) ∧ (s.task t).pid ≠ 1) :
    TreeInv (schedulerTaskSetState st acpu s t) := by
  have hi := h.not_isIdle ht
  have hstate := fun u => setState_state s t u st acpu
  refine h.sched (SchedMoves.setState st acpu s t) (fun u => ?_) (fun u hu => ?_) (fun c => ?_) ?_
  · unfold Live
    rw [hstate]
    by_cases hu : u = t
    · subst hu
      simp only [hi, and_self, if_true, hst, ne_eq, not_false_eq_true, true_iff]
      exact htl
    · rw [if_neg fun h => hu h.1]
  · rw [hstate] at hu
    split_ifs at hu with hc
    · exact .inr (hc.1 ▸ hz hu)
    · exact .inl hu
  · rw [hstate, if_neg]
    · exact (h.1.idles c).2
    · rintro ⟨rfl, -⟩
      obtain ⟨j, hj⟩ := ht
      cases hj
  · rw [setState_current]
    exact h.1.current

theorem makeRunnable (h : TreeInv s) (htl : Live s t) (cpuId : ℕ) : TreeInv (schedulerTaskMakeRunnable s t cpuId) := by
  have hstate := fun u => makeRunnable_state s t u cpuId
  refine h.sched (SchedMoves.makeRunnable s t cpuId) (fun u => ?_) (fun u hu => ?_) (fun c => ?_) ?_
  · unfold Live
    rw [hstate]
    split_ifs with hc
    · simp only [ne_eq, reduceCtorEq, not_false_eq_true, true_iff]
      exact hc.1 ▸ htl
    · rfl
  · rw [hstate] at hu
    split_ifs at hu with hc
    exact .inl hu
  · rw [hstate, if_neg]
    · exact (h.1.idles c).2
    · rintro ⟨rfl, hc⟩
      rw [(h.1.idles c).1] at hc
      exact absurd hc (by simp)
  · rw [makeRunnable_current]
    exact h.1.current

theorem yield (h : TreeInv s) : TreeInv (schedulerYield s) := by
  obtain ⟨d, hd⟩ := h.1.cpuIdle (schedulerCpuId s)
  obtain ⟨hst, t, ht, hact⟩ := scheduleCommon_state s false hd (h.1.idles d).1
  have hm := SchedMoves.scheduleCommon s false
  have hlive : ∀ u, Live (schedulerYield s) u ↔ Live s u := by
    intro u
    unfold Live schedulerYield
    rcases hst u with he | ⟨h1, h2⟩
    · rw [he]
    · rcases h1 with h1 | h1 <;> rcases h2 with h2 | h2 <;> rw [h1, h2] <;> simp
  refine h.sched hm hlive (fun u hu => ?_) (fun c => ?_) ?_
  · left
    rcases hst u with he | ⟨-, h2⟩
    · exact he.symm.trans hu
    · rcases h2 with h2 | h2 <;> exact absurd (h2.symm.trans hu) (by simp)
  · rcases hst (.idle c) with he | ⟨-, h2⟩
    · unfold schedulerYield
      rw [he]
      exact (h.1.idles c).2
    · exact h2
  · have hcur : schedulerCurrentTask (schedulerYield s) = t := by
      unfold schedulerCurrentTask schedulerYield
      dsimp only
      have hc : schedulerCpuId (scheduleCommon s false) = schedulerCpuId s := by
        unfold schedulerCpuId
        rw [hm.localCpuId]
      rw [hc, ht]
      rfl
    rw [hcur, ← hlive]
    rcases hact with rfl | hact
    · rw [hlive]
      unfold Live
      rcases (h.1.idles d).2 with h1 | h1 <;> rw [h1] <;> simp
    · unfold Live schedulerYield
      rcases hact with h1 | h1 <;> rw [h1] <;> simp

end TreeInv

/-! ## Adoption -/

theorem TreeInv.link {ch : TaskRef → List TaskRef} (hf : FamilyInv s)
    (ht : TreeOf s ch) (c : TaskRef) (dst : Option TaskRef)
    (hok : ∀ d ∈ dst, CanParent s d ∧ IsSlot c ∧ Live s c ∧ (s.task c).pid ≠ 1 ∧
      ¬ AncestorOrSelf (fun u => (s.task u).tree.parent) d c) :
    FamilyInv (taskChildLink s dst c) ∧ ∃ ch', TreeOf (taskChildLink s dst c) ch' ∧
      (∀ u, ((taskChildLink s dst c).task u).tree.parent = if u = c then dst else (s.task u).tree.parent) ∧
      ∀ u, ch' u = if dst = some u then c :: (ch u).erase c else (ch u).erase c := by
  have hm := TreeMoves.link s dst c
  have hppid := fun u => taskChildLink_ppid s c u dst
  have hlinked : ∃ ch', TreeOf (taskChildLink s dst c) ch' ∧ (∀ u, ((taskChildLink s dst c).task u).tree.parent =
        if u = c then dst else (s.task u).tree.parent) ∧
      ∀ u, ch' u = if dst = some u then c :: (ch u).erase c else (ch u).erase c := by
    rcases dst with _ | d
    · obtain ⟨ch', h1, h2, h3⟩ := ht.link_none c
      exact ⟨ch', h1, h2, fun u => by rw [h3, if_neg (by simp)]⟩
    obtain ⟨ch', h1, h2, h3⟩ := ht.link_some (hok d rfl).2.2.2.2
    refine ⟨ch', h1, h2, fun u => ?_⟩
    rw [h3]
    by_cases hu : u = d
    · rw [if_pos hu, if_pos (by rw [hu])]
    · rw [if_neg hu, if_neg fun he => hu (Option.some.inj he).symm]
  obtain ⟨ch', h1, h2, h3⟩ := hlinked
  refine ⟨hf.relink hm c dst h2 hppid fun d hd => ?_, ch', h1, h2, h3⟩
  obtain ⟨h4, h5, h6, h7, -⟩ := hok d hd
  exact ⟨h4, h5, h6, h7⟩

theorem CanParent.of_moves (hm : TreeMoves s s') {d : TaskRef} (h : CanParent s d) : CanParent s' d where
  slot := h.slot
  live := by
    unfold Live
    rw [hm.state]
    exact h.live
  notZombie := by
    rw [hm.state]
    exact h.notZombie

/-- The list walk of `process_adopt_orphans` from the tail `rest` of `f`'s children: all
of `rest` moves to `dst`, nothing else does. -/
theorem adoptList_inv (f : TaskRef) (dst : Option TaskRef) :
    ∀ (n : ℕ) (s : TaskTable) (ch : TaskRef → List TaskRef) (pre rest : List TaskRef) (moved : ℕ),
      FamilyInv s → TreeOf s ch → ch f = pre ++ rest → rest.length ≤ n →
      (∀ d ∈ dst, CanParent s d ∧ ∀ c ∈ rest, ¬ AncestorOrSelf (fun u => (s.task u).tree.parent) d c) →
      FamilyInv (adoptList dst n s rest.head? moved).1 ∧
      TreeMoves s (adoptList dst n s rest.head? moved).1 ∧
      (∃ ch', TreeOf (adoptList dst n s rest.head? moved).1 ch') ∧
      ∀ u, ((adoptList dst n s rest.head? moved).1.task u).tree.parent =
        if u ∈ rest then dst else (s.task u).tree.parent := by
  intro n
  induction n with
  | zero =>
    intro s ch pre rest moved hf ht _ hlen _
    have hnil : rest = [] := length_eq_zero_iff.mp (Nat.le_zero.mp hlen)
    subst hnil
    exact ⟨hf, refl s, ⟨ch, ht⟩, fun u => by simp [adoptList]⟩
  | succ n ih =>
    intro s ch pre rest moved hf ht hch hlen hdst
    rcases rest with _ | ⟨c, rest⟩
    · exact ⟨hf, refl s, ⟨ch, ht⟩, fun u => by simp [adoptList]⟩
    have hq := ht.children f
    rw [hch] at hq
    have hnext : (s.task c).tree.siblingNext = rest.head? := hq.next_eq
    have hnd := hq.nodup
    obtain ⟨hnd1, hnd2, hdis⟩ := nodup_append.mp hnd
    obtain ⟨hcrest, -⟩ := nodup_cons.mp hnd2
    have hcpre : c ∉ pre := fun hm => hdis c hm c (by simp) rfl
    have hcf : (s.task c).tree.parent = some f := (ht.mem_iff f c).mp (by simp [hch])
    obtain ⟨hcs, hcl, -⟩ := hf.linked c f hcf
    have hcpid : (s.task c).pid ≠ 1 := by
      obtain ⟨i, rfl⟩ := hcs
      intro he
      have hroot := (hf.initTask i hcl he).2
      exact absurd (hroot.symm.trans hcf) (by simp)
    obtain ⟨hf1, ch1, ht1, hpar1, hch1⟩ := TreeInv.link hf ht c dst fun d hd =>
      ⟨(hdst d hd).1, hcs, hcl, hcpid, (hdst d hd).2 c (by simp)⟩
    have hm1 := link s dst c
    have herase : (ch f).erase c = pre ++ rest := by
      rw [hch, erase_append_right _ hcpre, erase_cons_head]
    have hpre1 : ∃ pre1, ch1 f = pre1 ++ rest := by
      rw [hch1, herase]
      split_ifs
      · exact ⟨c :: pre, rfl⟩
      · exact ⟨pre, rfl⟩
    obtain ⟨pre1, hpre1⟩ := hpre1
    have hdst1 : ∀ d ∈ dst, CanParent (taskChildLink s dst c) d ∧ ∀ x ∈ rest,
        ¬ AncestorOrSelf (fun u => ((taskChildLink s dst c).task u).tree.parent) d x := by
      intro d hd
      refine ⟨(hdst d hd).1.of_moves hm1, fun x hx ha => ?_⟩
      have hdc := (hdst d hd).2 c (by simp)
      exact (hdst d hd).2 x (by simp [hx]) (ha.of_redirect hpar1 hdc)
    obtain ⟨h1, h2, h3, h4⟩ := ih (taskChildLink s dst c) ch1 pre1 rest (moved + 1) hf1 ht1 hpre1
      (by simpa using hlen) hdst1
    have hstep : adoptList dst (n + 1) s (c :: rest).head? moved =
        adoptList dst n (taskChildLink s dst c) rest.head? (moved + 1) := by
      rw [head?_cons, adoptList, hnext]
    rw [hstep]
    refine ⟨h1, hm1.trans h2, h3, fun u => ?_⟩
    rw [h4, hpar1]
    by_cases hu : u = c
    · simp [hu, hcrest]
    · simp [hu]

section Find

variable {s : TaskTable} {t : TaskRef} {pid : ℤ}

theorem taskFindByPid_some (h : taskFindByPid s pid = some t) : IsSlot t ∧ Live s t ∧ (s.task t).pid = pid := by
  unfold taskFindByPid at h
  obtain ⟨i, hi, rfl⟩ := Option.map_eq_some_iff.mp h
  have hp := s.findSlot_some hi
  simp only [decide_eq_true_eq] at hp
  exact ⟨⟨i, rfl⟩, hp.1, hp.2⟩

theorem taskFindByPid_none (h : taskFindByPid s pid = none) {i : Fin procMaxTasks}
    (hi : Live s (.slot i)) : (s.task (.slot i)).pid ≠ pid := by
  unfold taskFindByPid at h
  have hp := s.findSlot_none (Option.map_eq_none_iff.mp h) i
  simp only [decide_eq_false_iff_not, not_and] at hp
  exact hp hi

theorem FamilyInv.eq_of_pid (h : FamilyInv s) {u : TaskRef} (ht : IsSlot t) (hu : IsSlot u)
    (htl : Live s t) (hul : Live s u) (he : (s.task t).pid = (s.task u).pid) : t = u := by
  obtain ⟨i, rfl⟩ := ht
  obtain ⟨j, rfl⟩ := hu
  rw [h.distinct i j htl hul he]

theorem FamilyInv.find_self (h : FamilyInv s) (ht : IsSlot t) (hl : Live s t) :
    taskFindByPid s (s.task t).pid = some t := by
  rcases hfind : taskFindByPid s (s.task t).pid with _ | u
  · obtain ⟨i, rfl⟩ := ht
    exact absurd rfl (taskFindByPid_none hfind hl)
  · obtain ⟨h1, h2, h3⟩ := taskFindByPid_some hfind
    rw [h.eq_of_pid h1 ht h2 hl h3]

theorem taskFindByPid_congr {s' : TaskTable} (hm : TreeMoves s s') (pid : ℤ) :
    taskFindByPid s' pid = taskFindByPid s pid := by
  unfold taskFindByPid TaskTable.findSlot
  simp only [hm.state, hm.pid]

end Find

/-- What `process_adopt_orphans` needs: the new parent, if there is one, is no zombie and
does not descend from a task it is given. -/
def AdoptOk (s : TaskTable) (fromPpid toPpid : ℤ) : Prop :=
  ∀ d, taskFindByPid s toPpid = some d → (s.task d).state ≠ .zombie ∧
    (∀ f, taskFindByPid s fromPpid = some f → ∀ c, (s.task c).tree.parent = some f →
      ¬ AncestorOrSelf (fun u => (s.task u).tree.parent) d c) ∧
    (taskFindByPid s fromPpid = none → ∀ i, Live s (.slot i) → (s.task (.slot i)).ppid ≠ fromPpid)

/-- The table walk of `process_adopt_orphans`: nobody gets a new parent. -/
theorem adoptTable_inv {fromPpid : ℤ} {dst : Option TaskRef} (h : TreeInv s)
    (hok : ∀ d ∈ dst, ∀ i, Live s (.slot i) → (s.task (.slot i)).ppid ≠ fromPpid)
    (l : List (Fin procMaxTasks)) (moved : ℕ) :
    let s' := (l.foldl (adoptTable fromPpid dst) (s, moved)).1
    TreeInv s' ∧ TreeMoves s s' ∧ ∀ u p, (s'.task u).tree.parent = some p → (s.task u).tree.parent = some p := by
  induction l generalizing s moved with
  | nil => exact ⟨h, refl s, fun _ _ hp => hp⟩
  | cons i l ih =>
    rw [foldl_cons]
    unfold adoptTable
    dsimp only
    split_ifs with hskip
    · exact ih h hok moved
    push Not at hskip
    rcases dst with _ | d
    · obtain ⟨hf, ch, ht⟩ := h
      obtain ⟨hf', ch', ht', hpar, -⟩ := TreeInv.link hf ht (.slot i) none (by simp)
      obtain ⟨h1, h2, h3⟩ := ih ⟨hf', ch', ht'⟩ (by simp) (moved + 1)
      refine ⟨h1, (link s none (.slot i)).trans h2, fun u p hp => ?_⟩
      have hp' := h3 u p hp
      rw [hpar] at hp'
      split_ifs at hp'
      exact hp'
    · exact absurd hskip.2 (hok d rfl i hskip.1)

/-- `process_adopt_orphans` called directly: only children of `from` get the new parent. -/
theorem TreeInv.adoptOrphans_spec (h : TreeInv s) {fromPpid toPpid : ℤ} (hok : AdoptOk s fromPpid toPpid) :
    let s' := (processAdoptOrphans s fromPpid toPpid).1
    TreeInv s' ∧ TreeMoves s s' ∧ ∀ u p, (s'.task u).tree.parent = some p →
      (s.task u).tree.parent = some p ∨ taskFindByPid s toPpid = some p ∧
        ∃ f, taskFindByPid s fromPpid = some f ∧ (s.task u).tree.parent = some f := by
  unfold processAdoptOrphans
  dsimp only
  rcases hfrom : taskFindByPid s fromPpid with _ | f
  · have hwalk := adoptTable_inv h (fun d hd i => (hok d hd).2.2 hfrom i)
      (finRange procMaxTasks) 0
    dsimp only at hwalk
    generalize (finRange procMaxTasks).foldl
      (adoptTable fromPpid (taskFindByPid s toPpid)) (s, 0) = r at hwalk ⊢
    exact ⟨hwalk.1, hwalk.2.1, fun u p hp => .inl (hwalk.2.2 u p hp)⟩
  obtain ⟨hf, ch, ht⟩ := h
  obtain ⟨h1, h2, h3, h4⟩ := adoptList_inv f (taskFindByPid s toPpid) listFuel s ch [] (ch f) 0
    hf ht rfl (TaskRef.length_le (ht.children f).nodup) fun d hd => by
      obtain ⟨hs, hl, -⟩ := taskFindByPid_some hd
      refine ⟨⟨hs, hl, (hok d hd).1⟩, fun c hc => ?_⟩
      exact (hok d hd).2.1 f hfrom c ((ht.mem_iff f c).mp hc)
  dsimp only
  rw [show (s.task f).tree.firstChild = (ch f).head? from ht.first_eq f]
  refine ⟨⟨h1, h3⟩, h2, fun u p hp => ?_⟩
  rw [h4] at hp
  split_ifs at hp with hu
  · exact .inr ⟨hp, f, rfl, (ht.mem_iff f u).mp hu⟩
  · exact .inl hp

variable {t : TaskRef}

/-- The adoption inside an exit: the children of `t` go to the init task, or are left
without a parent. -/
theorem TreeInv.adopt_to_init (h : TreeInv s) (ht : IsSlot t) (hl : Live s t) :
    let s' := (processAdoptOrphans s (s.task t).pid 1).1
    TreeInv s' ∧ TreeMoves s s' ∧ ∀ u, (s'.task u).tree.parent =
      if (s.task u).tree.parent = some t then taskFindByPid s 1 else (s.task u).tree.parent := by
  obtain ⟨hf, ch, hch⟩ := h
  have hdst : ∀ d ∈ taskFindByPid s 1, CanParent s d ∧ ∀ c ∈ ch t,
      ¬ AncestorOrSelf (fun u => (s.task u).tree.parent) d c := by
    intro d hd
    obtain ⟨⟨i, rfl⟩, h2, h3⟩ := taskFindByPid_some hd
    obtain ⟨h4, h5⟩ := hf.initTask i h2 h3
    refine ⟨⟨⟨i, rfl⟩, h2, h4⟩, fun c hc ha => ?_⟩
    -- The init task has no parent, so only itself is above it.
    have hcd : .slot i = c := ha.eq_of_root h5
    have hpar := (hch.mem_iff t c).mp hc
    rw [← hcd] at hpar
    exact absurd (hpar.symm.trans h5) (by simp)
  obtain ⟨h1, h2, h3, h4⟩ := adoptList_inv t (taskFindByPid s 1) listFuel s ch [] (ch t) 0 hf hch
    rfl (TaskRef.length_le (hch.children t).nodup) hdst
  unfold processAdoptOrphans
  dsimp only
  rw [hf.find_self ht hl]
  dsimp only
  rw [show (s.task t).tree.firstChild = (ch t).head? from hch.first_eq t]
  refine ⟨⟨h1, h3⟩, h2, fun u => ?_⟩
  rw [h4]
  exact if_congr (hch.mem_iff t u) rfl rfl

/-! ## Exit and kill -/

theorem wakeIfBlocked_inv (h : TreeInv s) (t : TaskRef) : TreeInv (wakeIfBlocked s t) := by
  unfold wakeIfBlocked
  split_ifs with hb
  · exact h.makeRunnable (by unfold Live; rw [hb]; simp) _
  · exact h

theorem notify_inv (h : TreeInv s) (par : Option TaskRef) : TreeInv (processNotifyParentSigchld s par) := by
  rcases par with _ | p
  · exact h
  unfold processNotifyParentSigchld
  dsimp only
  split_ifs
  · exact h
  · apply wakeIfBlocked_inv
    exact h.modify p fun _ => ⟨rfl, rfl, rfl, rfl, rfl⟩
  · exact wakeIfBlocked_inv h p

/-- A task other than init whose children have been adopted may become a zombie. -/
theorem TreeInv.setZombie (h : TreeInv s) (ht : IsSlot t)
    (hl : Live s t) (hno : ∀ c, (s.task c).tree.parent ≠ some t) (hpid : (s.task t).pid ≠ 1) :
    TreeInv (schedulerTaskSetZombie s t) :=
  h.setState ht hl (by simp) fun _ => ⟨hno, hpid⟩

/-- Handing a task over to init, as a parent that ignores `SIGCHLD` makes happen. -/
theorem TreeInv.handover (h : TreeInv s) {i : TaskRef} (ht : IsSlot t)
    (hl : Live s t) (hpid : (s.task t).pid ≠ 1) (hi : taskFindByPid s 1 = some i) :
    TreeInv (taskChildLink (taskChildUnlink s t) (some i) t) ∧
      TreeMoves s (taskChildLink (taskChildUnlink s t) (some i) t) ∧
      ∀ u, ((taskChildLink (taskChildUnlink s t) (some i) t).task u).tree.parent =
        if u = t then some i else (s.task u).tree.parent := by
  obtain ⟨hf, ch, hch⟩ := h
  obtain ⟨hs, hil, hip⟩ := taskFindByPid_some hi
  obtain ⟨j, rfl⟩ := hs
  obtain ⟨hz, hroot⟩ := hf.initTask j hil hip
  obtain ⟨ch1, hch1, -⟩ := hch.unlink t
  have hpar1 := hch.unlink_parent t
  have hne : TaskRef.slot j ≠ t := by
    rintro rfl
    exact hpid hip
  have hanc : ¬ AncestorOrSelf (fun u => ((taskChildUnlink s t).task u).tree.parent)
      (.slot j) t := by
    intro ha
    refine hne (ha.eq_of_root ?_)
    rw [hpar1, if_neg hne]
    exact hroot
  obtain ⟨ch2, hch2, hpar2, -⟩ := hch1.link_some hanc
  have hm : TreeMoves s (taskChildLink (taskChildUnlink s t) (some (.slot j)) t) :=
    (TreeMoves.unlink s t).trans (TreeMoves.link _ _ _)
  have hpar : ∀ u, ((taskChildLink (taskChildUnlink s t) (some (.slot j)) t).task u).tree.parent =
      if u = t then some (.slot j) else (s.task u).tree.parent := by
    intro u
    rw [hpar2, hpar1]
    split_ifs <;> rfl
  refine ⟨⟨hf.relink hm t (some (.slot j)) hpar (fun u => ?_) fun p hp => ?_, ch2, hch2⟩, hm, hpar⟩
  · rw [taskChildLink_ppid, taskChildUnlink_ppid, parentPid_congr (TreeMoves.unlink s t).pid]
  · obtain rfl := Option.some.inj hp
    exact ⟨⟨⟨j, rfl⟩, hil, hz⟩, ht, hl, hpid⟩

theorem TreeInv.terminate (h : TreeInv s) (ht : IsSlot t)
    (hl : Live s t) (hpid : (s.task t).pid ≠ 1) (code : ℤ) : TreeInv (terminate s t code) := by
  unfold EdgeOS.terminate
  dsimp only
  have h0 := h.modify t (f := fun x => { x with exitCode := code })
    fun _ => ⟨rfl, rfl, rfl, rfl, rfl⟩
  have hl0 : Live (s.modify t fun x => { x with exitCode := code }) t := by
    unfold Live
    rw [modify_task_self]
    exact hl
  have hpid0 : ((s.modify t fun x => { x with exitCode := code }).task t).pid ≠ 1 := by
    rw [modify_task_self]
    exact hpid
  generalize (s.modify t fun x => { x with exitCode := code }) = s0 at h0 hl0 hpid0 ⊢
  obtain ⟨h1, hm, hpar⟩ := h0.adopt_to_init ht hl0
  generalize (processAdoptOrphans s0 (s0.task t).pid 1).1 = s1 at h1 hm hpar ⊢
  have hl1 : Live s1 t := by
    unfold Live
    rw [hm.state]
    exact hl0
  have hpid1 : (s1.task t).pid ≠ 1 := by
    rw [hm.pid]
    exact hpid0
  have hno1 : ∀ c, (s1.task c).tree.parent ≠ some t := by
    intro c hc
    rw [hpar] at hc
    split_ifs at hc with hct
    · obtain ⟨-, -, h3⟩ := taskFindByPid_some hc
      exact hpid0 h3
    · exact hct hc
  split
  · rename_i p i hp hi
    split_ifs
    · obtain ⟨h2, hm2, hpar2⟩ := h1.handover ht hl1 hpid1 hi
      refine notify_inv (h2.setZombie ht ?_ (fun c hc => ?_) ?_) _
      · unfold Live
        rw [hm2.state]
        exact hl1
      · rw [hpar2] at hc
        split_ifs at hc with hct
        · obtain ⟨-, -, h3⟩ := taskFindByPid_some hi
          obtain rfl := Option.some.inj hc
          exact hpid1 h3
        · exact hno1 c hc
      · rw [hm2.pid]
        exact hpid1
    · exact notify_inv (h1.setZombie ht hl1 hno1 hpid1) _
  · exact notify_inv (h1.setZombie ht hl1 hno1 hpid1) _

theorem TreeInv.exitCurrent (h : TreeInv s)
    (hcur : IsSlot (schedulerCurrentTask s)) (code : ℤ) : TreeInv (processExitCurrent s code) := by
  unfold processExitCurrent
  dsimp only
  split_ifs with hpid
  · exact h
  · exact h.terminate hcur h.1.current hpid code

theorem TreeInv.killPid (h : TreeInv s) (pid code : ℤ) : TreeInv (processKillPid s pid code).1 := by
  unfold processKillPid
  rcases hfind : taskFindByPid s pid with _ | t
  · exact h
  obtain ⟨h1, h2, h3⟩ := taskFindByPid_some hfind
  dsimp only
  split_ifs with hpid
  · exact h
  · exact h.terminate h1 h2 (by rw [h3]; exact hpid) code

theorem TreeInv.killPgidStep (h : TreeInv s) (pgid code : ℤ) (killed : ℕ)
    (i : Fin procMaxTasks) : TreeInv (killPgidStep pgid code (s, killed) i).1 := by
  unfold EdgeOS.killPgidStep
  dsimp only
  split_ifs with hskip
  · exact h
  push Not at hskip
  obtain ⟨hl, hpid, -⟩ := hskip
  have h0 := h.modify (.slot i) (f := fun x => { x with exitCode := code })
    fun _ => ⟨rfl, rfl, rfl, rfl, rfl⟩
  have hl0 : Live (s.modify (.slot i) fun x => { x with exitCode := code }) (.slot i) := by
    unfold Live
    rw [modify_task_self]
    exact hl
  have hpid0 : ((s.modify (.slot i) fun x => { x with exitCode := code }).task (.slot i)).pid =
      (s.task (.slot i)).pid := by
    rw [modify_task_self]
  rw [← hpid0] at hpid ⊢
  generalize (s.modify (.slot i) fun x => { x with exitCode := code }) = s0 at h0 hl0 hpid ⊢
  obtain ⟨h1, hm, hpar⟩ := h0.adopt_to_init ⟨i, rfl⟩ hl0
  generalize (processAdoptOrphans s0 (s0.task (.slot i)).pid 1).1 = s1 at h1 hm hpar ⊢
  have hz : TreeInv (schedulerTaskSetZombie s1 (.slot i)) := by
    refine h1.setZombie ⟨i, rfl⟩ ?_ (fun c hc => ?_) ?_
    · unfold Live
      rw [hm.state]
      exact hl0
    · rw [hpar] at hc
      split_ifs at hc with hct
      · exact hpid (taskFindByPid_some hc).2.2
      · exact hct hc
    · rw [hm.pid]
      exact hpid
  split
  · exact wakeIfBlocked_inv hz _
  · exact hz

theorem foldl_slots_inv {I : TaskTable → Prop} {g : TaskTable × ℕ → Fin procMaxTasks → TaskTable × ℕ}
    (hg : ∀ s k i, I s → I (g (s, k) i).1) (l : List (Fin procMaxTasks)) (k : ℕ)
    (h : I s) : I (l.foldl g (s, k)).1 := by
  induction l generalizing s k with
  | nil => exact h
  | cons i l ih =>
    rw [foldl_cons]
    exact ih (g (s, k) i).2 (hg s k i h)

theorem TreeInv.killPgid (h : TreeInv s) (pgid code : ℤ) : TreeInv (processKillPgid s pgid code).1 := by
  unfold processKillPgid
  split_ifs
  · exact h
  · have hfold := foldl_slots_inv (I := TreeInv) (g := EdgeOS.killPgidStep pgid code)
      (fun s k i hs => hs.killPgidStep pgid code k i) (finRange procMaxTasks) 0 h
    generalize (finRange procMaxTasks).foldl (EdgeOS.killPgidStep pgid code) (s, 0) = r
      at hfold ⊢
    exact hfold

theorem TreeInv.signalOne (h : TreeInv s) (t : TaskRef) (sig : ℤ) : TreeInv (processSignalOne s t sig).1 := by
  unfold processSignalOne
  dsimp only
  split_ifs
  all_goals first
    | exact h
    | exact h.killPid _ _
    | skip
  all_goals
    apply wakeIfBlocked_inv
    exact h.modify t fun _ => ⟨rfl, rfl, rfl, rfl, rfl⟩

theorem TreeInv.sendSignal (h : TreeInv s) (pid sig : ℤ) : TreeInv (processSendSignal s pid sig).1 := by
  unfold processSendSignal
  split_ifs
  · exact h
  · split
    · exact h
    · exact h.signalOne _ _

theorem TreeInv.signalPgidStep (h : TreeInv s) (pgid sig : ℤ) (k : ℕ)
    (i : Fin procMaxTasks) : TreeInv (signalPgidStep pgid sig (s, k) i).1 := by
  unfold EdgeOS.signalPgidStep
  dsimp only
  split_ifs
  · exact h
  · exact h.signalOne _ _
  · exact h.signalOne _ _

theorem TreeInv.sendSignalPgid (h : TreeInv s) (pgid sig : ℤ) : TreeInv (processSendSignalPgid s pgid sig).1 := by
  unfold processSendSignalPgid
  split_ifs
  · exact h
  · have hfold := foldl_slots_inv (I := TreeInv) (g := EdgeOS.signalPgidStep pgid sig)
      (fun s k i hs => hs.signalPgidStep pgid sig k i) (finRange procMaxTasks) 0 h
    generalize (finRange procMaxTasks).foldl (EdgeOS.signalPgidStep pgid sig) (s, 0) = r
      at hfold ⊢
    exact hfold

theorem TreeInv.setRunnable (h : TreeInv s) (pid : ℤ) : TreeInv (processSetRunnable s pid) := by
  unfold processSetRunnable
  split
  · exact h
  · rename_i t ht
    exact h.makeRunnable (taskFindByPid_some ht).2.1 _

/-- `process_setpgid` changes nothing, or the group of the task it names. -/
theorem processSetpgid_cases (s : TaskTable) (pid pgid : ℤ) : (processSetpgid s pid pgid).1 = s ∨ ∃ t g,
      taskFindByPid s (if pid = 0 then (s.task (schedulerCurrentTask s)).pid else pid) = some t ∧
      (processSetpgid s pid pgid).1 = s.modify t fun x => { x with pgid := g } := by
  unfold processSetpgid
  dsimp only
  split
  · exact .inl rfl
  rename_i t ht
  generalize (if pgid = 0 then (s.task t).pid else pgid) = g
  by_cases hsid : (s.task t).sid ≠ (s.task (schedulerCurrentTask s)).sid
  · rw [if_pos hsid]
    exact .inl rfl
  rw [if_neg hsid]
  split
  · exact .inr ⟨t, g, ht, rfl⟩
  · exact .inl rfl

theorem TreeInv.setpgid (h : TreeInv s) (pid pgid : ℤ) : TreeInv (processSetpgid s pid pgid).1 := by
  rcases processSetpgid_cases s pid pgid with he | ⟨t, g, -, he⟩
  · rw [he]
    exact h
  rw [he]
  apply h.modify
  exact fun _ => ⟨rfl, rfl, rfl, rfl, rfl⟩

theorem TreeInv.setsid (h : TreeInv s) : TreeInv (processSetsid s).1 := by
  unfold processSetsid
  dsimp only
  split
  · exact h
  dsimp only
  apply h.modify
  exact fun _ => ⟨rfl, rfl, rfl, rfl, rfl⟩

end EdgeOS
