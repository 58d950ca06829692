import EdgeOS.ProcessTreeInvariant

namespace EdgeOS

open Lib TaskTable TaskRef

/-! ## Reaping -/

variable {s : TaskTable} {t : TaskRef}

/-- `t` is zeroed and out of its list, and the other tasks are as before. -/
structure Erased (s s' : TaskTable) (t : TaskRef) : Prop where
  self : s'.task t = {}
  state : ∀ u, u ≠ t → (s'.task u).state = (s.task u).state
  pid : ∀ u, u ≠ t → (s'.task u).pid = (s.task u).pid
  ppid : ∀ u, u ≠ t → (s'.task u).ppid = (s.task u).ppid
  isIdle : ∀ u, u ≠ t → (s'.task u).isIdle = (s.task u).isIdle
  parent : ∀ u, (s'.task u).tree.parent = if u = t then none else (s.task u).tree.parent
  nextPid : s'.nextPid = s.nextPid
  idle : ∀ c, (s'.cpu c).idle = (s.cpu c).idle
  current : schedulerCurrentTask s' = schedulerCurrentTask s

/-- A task without children is taken out of its list and zeroed. -/
theorem release_erased {ch : TaskRef → List TaskRef} (hch : TreeOf s ch)
    (hno : ∀ c, (s.task c).tree.parent ≠ some t) :
    Erased s (taskRelease (taskChildUnlink s t) t) t ∧ ∃ ch1, TreeOf (taskRelease (taskChildUnlink s t) t) ch1 := by
  obtain ⟨ch1, hch1, -⟩ := hch.unlink t
  have hpar1 := hch.unlink_parent t
  have hm1 := TreeMoves.unlink s t
  have hppid1 := taskChildUnlink_ppid s t
  generalize taskChildUnlink s t = s1 at hch1 hpar1 hm1 hppid1 ⊢
  have hsched := SchedMoves.setState .unused (fun _ => -1) s1 t
  have hstate := fun u => setState_state s1 t u .unused fun _ => -1
  have hcur2 := setState_current s1 t .unused fun _ => -1
  unfold taskRelease schedulerTaskSetUnused
  generalize schedulerTaskSetState .unused (fun _ => -1) s1 t = s2 at hsched hstate hcur2 ⊢
  -- The unlinked task carries no links, so zeroing it changes none.
  have htree0 : (s1.task t).tree = {} := by
    have hp : (s1.task t).tree.parent = none := by rw [hpar1, if_pos rfl]
    obtain ⟨hr1, hr2⟩ := hch1.root t hp
    have hnil : ch1 t = [] := by
      rw [List.eq_nil_iff_forall_not_mem]
      intro c hc
      have hc' : (s1.task c).tree.parent = some t := (hch1.mem_iff t c).mp hc
      rw [hpar1] at hc'
      split_ifs at hc'
      exact hno c hc'
    have hfirst : (s1.task t).tree.firstChild = none := by
      have h1 : (s1.task t).tree.firstChild = (ch1 t).head? := hch1.first_eq t
      rw [h1, hnil]
      rfl
    exact TreeLinks.ext hp hfirst hr1 hr2
  have htree : ∀ u, ((s2.modify t fun _ => {}).task u).tree = (s1.task u).tree := by
    intro u
    by_cases hu : u = t
    · rw [hu, modify_task_self, htree0]
    · rw [modify_task_ne _ _ hu, hsched.tree]
  have hne : ∀ u, u ≠ t → (s2.modify t fun _ => {}).task u = s2.task u := fun u hu =>
    modify_task_ne _ _ hu
  refine ⟨⟨modify_task_self _ _ _, fun u hu => ?_, fun u hu => ?_, fun u hu => ?_, fun u hu => ?_, fun u => ?_,
    hsched.nextPid.trans hm1.nextPid, fun c => ?_, ?_⟩, ch1, hch1.congr htree⟩
  · rw [hne u hu, hstate, if_neg (fun h => hu h.1), hm1.state]
  · rw [hne u hu, hsched.pid, hm1.pid]
  · rw [hne u hu, hsched.ppid, hppid1]
  · rw [hne u hu, hsched.isIdle, hm1.isIdle]
  · rw [htree, hpar1]
  · rw [modify_cpu, hsched.idle, hm1.cpu]
  · have h1 : schedulerCurrentTask s1 = schedulerCurrentTask s := by
      unfold schedulerCurrentTask schedulerCpuId
      rw [hm1.cpu, hm1.localCpuId]
    exact hcur2.trans h1

theorem FamilyInv.erased (hf : FamilyInv s) {s' : TaskTable} (he : Erased s s' t) (ht : IsSlot t)
    (hno : ∀ c, (s.task c).tree.parent ≠ some t) (hcur : t ≠ schedulerCurrentTask s) : FamilyInv s' := by
  have hlive : ∀ u, Live s' u → u ≠ t ∧ Live s u := by
    intro u hu
    have hut : u ≠ t := by
      rintro rfl
      unfold Live at hu
      rw [he.self] at hu
      exact hu rfl
    refine ⟨hut, ?_⟩
    unfold Live at *
    rwa [he.state u hut] at hu
  have hlive' : ∀ u, u ≠ t → Live s u → Live s' u := by
    intro u hut hu
    unfold Live at *
    rwa [he.state u hut]
  refine ⟨fun u => ?_, fun u p hp => ?_, fun i hi => ?_, fun i j hi hj heq => ?_, fun i hi heq => ?_,
    he.nextPid ▸ hf.nextPid, fun i => ?_, fun c => ?_, fun c => ?_, ?_⟩
  · by_cases hu : u = t
    · rw [he.parent, if_pos hu, hu, he.self]
      rfl
    · rw [he.parent, if_neg hu, he.ppid u hu, hf.ppid u]
      rcases hp : (s.task u).tree.parent with _ | p
      · rfl
      have hpt : p ≠ t := by
        rintro rfl
        exact hno u hp
      exact (he.pid p hpt).symm
  · rw [he.parent] at hp
    split_ifs at hp with hu
    have hpt : p ≠ t := by
      rintro rfl
      exact hno u hp
    obtain ⟨h1, h2, h3⟩ := hf.linked u p hp
    exact ⟨h1, hlive' u hu h2, h3.slot, hlive' p hpt h3.live, by rw [he.state p hpt]; exact h3.notZombie⟩
  · obtain ⟨hu, hl⟩ := hlive _ hi
    rw [he.pid _ hu, he.nextPid]
    exact hf.pids i hl
  · obtain ⟨hu, hl⟩ := hlive _ hi
    obtain ⟨hv, hl'⟩ := hlive _ hj
    rw [he.pid _ hu, he.pid _ hv] at heq
    exact hf.distinct i j hl hl' heq
  · obtain ⟨hu, hl⟩ := hlive _ hi
    rw [he.pid _ hu] at heq
    rw [he.state _ hu, he.parent, if_neg hu]
    exact hf.initTask i hl heq
  · by_cases hu : slot i = t
    · rw [hu, he.self]
    · rw [he.isIdle _ hu]
      exact hf.slots i
  · have hu : idle c ≠ t := by
      rintro rfl
      obtain ⟨j, hj⟩ := ht
      cases hj
    rw [he.state _ hu, he.isIdle _ hu]
    exact hf.idles c
  · rw [he.idle]
    exact hf.cpuIdle c
  · rw [he.current]
    exact hlive' _ hcur.symm hf.current

theorem TreeInv.release (h : TreeInv s) (ht : IsSlot t)
    (hno : ∀ c, (s.task c).tree.parent ≠ some t) (hcur : t ≠ schedulerCurrentTask s) :
    TreeInv (taskRelease (taskChildUnlink s t) t) := by
  obtain ⟨hf, ch, hch⟩ := h
  obtain ⟨he, ch1, hch1⟩ := release_erased hch hno
  exact ⟨hf.erased he ht hno hcur, ch1, hch1⟩

/-- The scan of a wait loop over the tail `rest` of the children: it returns a matching
zombie, and only if there is none does it return nothing. -/
theorem waitScan_spec {ch : TaskRef → List TaskRef} (ht : TreeOf s ch) (parent : TaskRef) (w : WaitFor) :
    ∀ (n : ℕ) (pre rest : List TaskRef) (b : Bool), ch parent = pre ++ rest → rest.length ≤ n →
      (∀ t, (waitScan s parent w n rest.head? b).2 = some t →
        t ∈ rest ∧ (s.task t).state = .zombie ∧ w.matches (s.task parent) (s.task t) = true) ∧
      ((waitScan s parent w n rest.head? b).2 = none → ∀ t ∈ rest,
        w.matches (s.task parent) (s.task t) = true → (s.task t).state ≠ .zombie) := by
  intro n
  induction n with
  | zero =>
    intro pre rest b _ hlen
    have hnil : rest = [] := List.length_eq_zero_iff.mp (Nat.le_zero.mp hlen)
    subst hnil
    simp [waitScan]
  | succ n ih =>
    intro pre rest b hch hlen
    rcases rest with _ | ⟨c, rest⟩
    · simp [waitScan]
    have hq := ht.children parent
    rw [hch] at hq
    have hnext : (s.task c).tree.siblingNext = rest.head? := hq.next_eq
    have hch' : ch parent = (pre ++ [c]) ++ rest := by simp [hch]
    have hlen' : rest.length ≤ n := by simpa using hlen
    rw [List.head?_cons, waitScan]
    by_cases hmatch : w.matches (s.task parent) (s.task c) = true
    · by_cases hz : (s.task c).state = .zombie
      · rw [if_neg (by simp [hmatch]), if_pos hz]
        refine ⟨fun t he => ?_, fun he => by simp at he⟩
        obtain rfl := Option.some.inj he
        exact ⟨by simp, hz, hmatch⟩
      · rw [if_neg (by simp [hmatch]), if_neg hz, hnext]
        obtain ⟨h1, h2⟩ := ih (pre ++ [c]) rest true hch' hlen'
        refine ⟨fun t he => ?_, fun he t hmem hm => ?_⟩
        · obtain ⟨h3, h4⟩ := h1 t he
          exact ⟨by simp [h3], h4⟩
        · rcases List.mem_cons.mp hmem with rfl | hmem
          · exact hz
          · exact h2 he t hmem hm
    · rw [if_pos (by simp [hmatch]), hnext]
      obtain ⟨h1, h2⟩ := ih (pre ++ [c]) rest b hch' hlen'
      refine ⟨fun t he => ?_, fun he t hmem hm => ?_⟩
      · obtain ⟨h3, h4⟩ := h1 t he
        exact ⟨by simp [h3], h4⟩
      · rcases List.mem_cons.mp hmem with rfl | hmem
        · exact absurd hm hmatch
        · exact h2 he t hmem hm

/-- The scan of one round of a wait loop, over all children. -/
theorem waitScan_children (h : TreeInv s) (parent : TaskRef) (w : WaitFor) :
    let r := (waitScan s parent w listFuel (s.task parent).tree.firstChild false).2
    (∀ t, r = some t → (s.task t).tree.parent = some parent ∧ (s.task t).state = .zombie ∧
      w.matches (s.task parent) (s.task t) = true) ∧
    (r = none → ∀ t, (s.task t).tree.parent = some parent →
      w.matches (s.task parent) (s.task t) = true → (s.task t).state ≠ .zombie) := by
  obtain ⟨-, ch, hch⟩ := h
  have hspec := waitScan_spec hch parent w listFuel [] (ch parent) false rfl
    (length_le (hch.children parent).nodup)
  have hfirst : (s.task parent).tree.firstChild = (ch parent).head? := hch.first_eq parent
  rw [hfirst]
  refine ⟨fun t ht => ?_, fun hn t ht => ?_⟩
  · obtain ⟨h1, h2⟩ := hspec.1 t ht
    exact ⟨(hch.mem_iff parent t).mp h1, h2⟩
  · exact hspec.2 hn t ((hch.mem_iff parent t).mpr ht)

variable {p : TaskRef}

theorem TreeInv.reap (h : TreeInv s) (hp : (s.task t).tree.parent = some p) (hz : (s.task t).state = .zombie)
    (hcur : t ≠ schedulerCurrentTask s) : TreeInv (reap s t) := by
  obtain ⟨h1, -, -⟩ := h.1.linked t p hp
  refine h.release h1 (fun c hc => ?_) hcur
  exact (h.1.linked c t hc).2.2.notZombie hz

theorem TreeInv.child_ne (h : TreeInv s) (hp : (s.task t).tree.parent = some p) : t ≠ p := by
  obtain ⟨-, ch, hch⟩ := h
  rintro rfl
  exact hch.parent_ne_self hp

theorem TreeInv.waitRound (h : TreeInv s) (hcur : IsSlot (schedulerCurrentTask s)) (w : WaitFor) (nohang : Bool) :
    TreeInv (waitRound s (schedulerCurrentTask s) w nohang).1 := by
  unfold EdgeOS.waitRound
  have hscan := (waitScan_children h (schedulerCurrentTask s) w).1
  generalize waitScan s (schedulerCurrentTask s) w listFuel
    (s.task (schedulerCurrentTask s)).tree.firstChild false = r at hscan ⊢
  rcases r with ⟨_ | _, _ | t⟩
  · exact h
  · obtain ⟨hp, hz, -⟩ := hscan t rfl
    exact h.reap hp hz (h.child_ne hp)
  · dsimp only
    split_ifs
    · exact h
    · exact TreeInv.yield (h.setState hcur h.1.current (by simp) (by simp))
  · obtain ⟨hp, hz, -⟩ := hscan t rfl
    exact h.reap hp hz (h.child_ne hp)

/-! ## New processes -/

variable {c : TaskRef}

theorem TreeInv.not_ancestor_unused (h : TreeInv s) (hp : Live s p) (hc : (s.task c).state = .unused) :
    ¬ AncestorOrSelf (fun u => (s.task u).tree.parent) p c := by
  intro ha
  rcases ha.cases_tail with rfl | ⟨b, -, hb⟩
  · exact hp hc
  · exact (h.1.linked b c hb).2.2.live hc

theorem TreeInv.tree_unused (h : TreeInv s) (hc : (s.task c).state = .unused) : (s.task c).tree = {} := by
  obtain ⟨hf, ch, hch⟩ := h
  have hp : (s.task c).tree.parent = none := by
    by_contra hne
    obtain ⟨p, hp⟩ := Option.ne_none_iff_exists'.mp hne
    exact (hf.linked c p hp).2.1 hc
  obtain ⟨h1, h2⟩ := hch.root c hp
  have hnil : ch c = [] := by
    rw [List.eq_nil_iff_forall_not_mem]
    intro d hd
    exact (hf.linked d c ((hch.mem_iff c d).mp hd)).2.2.live hc
  have hfirst : (s.task c).tree.firstChild = none := by
    have hh : (s.task c).tree.firstChild = (ch c).head? := hch.first_eq c
    rw [hh, hnil]
    rfl
  exact TreeLinks.ext hp hfirst h1 h2

variable {s' : TaskTable} {i : Fin procMaxTasks}

/-- A free slot becomes the child of `p`, with the next pid. -/
theorem TreeInv.addChild (h : TreeInv s) (hfree : (s.task (.slot i)).state = .unused) (hp : CanParent s p)
    (hforest : ∃ ch, TreeOf s' ch)
    (hpar : ∀ u, (s'.task u).tree.parent = if u = .slot i then some p else (s.task u).tree.parent)
    (hpid : ∀ u, (s'.task u).pid = if u = .slot i then s.nextPid else (s.task u).pid)
    (hppid : ∀ u, (s'.task u).ppid = if u = .slot i then (s.task p).pid else (s.task u).ppid)
    (hidle : ∀ u, (s'.task u).isIdle = (s.task u).isIdle)
    (hstate : ∀ u, u ≠ .slot i → (s'.task u).state = (s.task u).state)
    (hchild : (s'.task (.slot i)).state ≠ .unused ∧ (s'.task (.slot i)).state ≠ .zombie)
    (hnext : s'.nextPid = s.nextPid + 1) (hcpu : ∀ c, (s'.cpu c).idle = (s.cpu c).idle)
    (hcur : schedulerCurrentTask s' = schedulerCurrentTask s) : TreeInv s' := by
  have hf := h.1
  have hpne : p ≠ .slot i := by
    rintro rfl
    exact hp.live hfree
  have hlive : ∀ u, u ≠ .slot i → (Live s' u ↔ Live s u) := fun u hu => by
    unfold Live
    rw [hstate u hu]
  have hchildless : ∀ u, (s.task u).tree.parent ≠ some (.slot i) := fun u hu =>
    (hf.linked u _ hu).2.2.live hfree
  have hcan : ∀ {q}, q ≠ .slot i → CanParent s q → CanParent s' q := fun hq hcp =>
    ⟨hcp.slot, (hlive _ hq).mpr hcp.live, by rw [hstate _ hq]; exact hcp.notZombie⟩
  refine ⟨⟨fun u => ?_, fun u q hq => ?_, fun j hj => ?_, fun j k hj hk he => ?_, fun j hj he => ?_,
    ?_, fun j => ?_, fun c => ?_, fun c => ?_, ?_⟩, hforest⟩
  · rw [hppid, hpar]
    by_cases hu : u = .slot i
    · rw [if_pos hu, if_pos hu, parentPid, hpid, if_neg hpne]
    rw [if_neg hu, if_neg hu, hf.ppid u]
    rcases hq : (s.task u).tree.parent with _ | q
    · rfl
    · have hqi : q ≠ .slot i := fun he => hchildless u (he ▸ hq)
      rw [parentPid, parentPid, hpid, if_neg hqi]
  · rw [hpar] at hq
    by_cases hu : u = .slot i
    · rw [if_pos hu] at hq
      obtain rfl := Option.some.inj hq
      exact ⟨⟨i, hu⟩, by unfold Live; rw [hu]; exact hchild.1, hcan hpne hp⟩
    rw [if_neg hu] at hq
    obtain ⟨h1, h2, h3⟩ := hf.linked u q hq
    exact ⟨h1, (hlive u hu).mpr h2, hcan (fun he => hchildless u (he ▸ hq)) h3⟩
  · rw [hpid, hnext]
    split_ifs with hu
    · have := hf.nextPid
      omega
    · have := hf.pids j ((hlive _ hu).mp hj)
      omega
  · rw [hpid, hpid] at he
    by_cases hj' : slot j = .slot i
    · by_cases hk' : slot k = .slot i
      · cases hj'
        cases hk'
        rfl
      · rw [if_pos hj', if_neg hk'] at he
        have := hf.pids k ((hlive _ hk').mp hk)
        omega
    · by_cases hk' : slot k = .slot i
      · rw [if_neg hj', if_pos hk'] at he
        have := hf.pids j ((hlive _ hj').mp hj)
        omega
      · rw [if_neg hj', if_neg hk'] at he
        exact hf.distinct j k ((hlive _ hj').mp hj) ((hlive _ hk').mp hk) he
  · rw [hpid] at he
    have hnp := hf.nextPid
    by_cases hj' : slot j = .slot i
    · rw [if_pos hj'] at he
      omega
    rw [if_neg hj'] at he
    rw [hstate _ hj', hpar, if_neg hj']
    exact hf.initTask j ((hlive _ hj').mp hj) he
  · have := hf.nextPid
    omega
  · rw [hidle]
    exact hf.slots j
  · rw [hidle, hstate _ (by simp)]
    exact hf.idles c
  · rw [hcpu]
    exact hf.cpuIdle c
  · rw [hcur]
    have hne : schedulerCurrentTask s ≠ .slot i := fun he => hf.current (he ▸ hfree)
    exact (hlive _ hne).mpr hf.current

/-- `s₁` is `s` with a free slot prepared for a new child: it has its pid, no link yet. -/
structure FreshChild (s s₁ : TaskTable) (i : Fin procMaxTasks) : Prop where
  other : ∀ u, u ≠ .slot i → s₁.task u = s.task u
  tree : (s₁.task (.slot i)).tree = (s.task (.slot i)).tree
  pid : (s₁.task (.slot i)).pid = s.nextPid
  isIdle : (s₁.task (.slot i)).isIdle = false
  cpu : s₁.cpu = s.cpu
  localCpuId : s₁.localCpuId = s.localCpuId
  nextPid : s₁.nextPid = s.nextPid + 1

variable {s₁ : TaskTable}

theorem FreshChild.tree_eq (hB : FreshChild s s₁ i) (u : TaskRef) : (s₁.task u).tree = (s.task u).tree := by
  by_cases hu : u = .slot i
  · rw [hu, hB.tree]
  · rw [hB.other u hu]

theorem FreshChild.current (hB : FreshChild s s₁ i) (par : Option TaskRef) :
    schedulerCurrentTask (taskChildLink s₁ par (.slot i)) = schedulerCurrentTask s := by
  have hm := TreeMoves.link s₁ par (.slot i)
  unfold schedulerCurrentTask schedulerCpuId
  rw [hm.cpu, hm.localCpuId, hB.cpu, hB.localCpuId]

theorem FreshChild.forest (h : TreeInv s) (hfree : (s.task (.slot i)).state = .unused) (hp : CanParent s p)
    (hB : FreshChild s s₁ i) :
    (∃ ch, TreeOf (taskChildLink s₁ (some p) (.slot i)) ch) ∧
      ∀ u, ((taskChildLink s₁ (some p) (.slot i)).task u).tree.parent =
        if u = .slot i then some p else (s.task u).tree.parent := by
  obtain ⟨ch, hch⟩ := h.2
  have hanc := h.not_ancestor_unused hp.live hfree
  have hanc1 : ¬ AncestorOrSelf (fun u => (s₁.task u).tree.parent) p (.slot i) := by
    simp only [hB.tree_eq]
    exact hanc
  obtain ⟨ch', hch', hpar, -⟩ := (hch.congr hB.tree_eq).link_some hanc1
  refine ⟨⟨ch', hch'⟩, fun u => ?_⟩
  rw [hpar, hB.tree_eq]

/-- Linking a prepared child and making it live, in whichever way. -/
theorem TreeInv.linkFresh (h : TreeInv s) (hfree : (s.task (.slot i)).state = .unused) (hp : CanParent s p)
    (hB : FreshChild s s₁ i)
    (hfam : ∀ u, (s'.task u).tree = ((taskChildLink s₁ (some p) (.slot i)).task u).tree ∧
      (s'.task u).pid = ((taskChildLink s₁ (some p) (.slot i)).task u).pid ∧
      (s'.task u).ppid = ((taskChildLink s₁ (some p) (.slot i)).task u).ppid ∧
      (s'.task u).isIdle = ((taskChildLink s₁ (some p) (.slot i)).task u).isIdle)
    (hstate : ∀ u, u ≠ .slot i → (s'.task u).state = ((taskChildLink s₁ (some p) (.slot i)).task u).state)
    (hchild : (s'.task (.slot i)).state ≠ .unused ∧ (s'.task (.slot i)).state ≠ .zombie)
    (hnext : s'.nextPid = (taskChildLink s₁ (some p) (.slot i)).nextPid)
    (hcpu : ∀ c, (s'.cpu c).idle = ((taskChildLink s₁ (some p) (.slot i)).cpu c).idle)
    (hcur : schedulerCurrentTask s' = schedulerCurrentTask (taskChildLink s₁ (some p) (.slot i))) :
    TreeInv s' := by
  have hpne : p ≠ .slot i := by
    rintro rfl
    exact hp.live hfree
  have hm := TreeMoves.link s₁ (some p) (.slot i)
  have hppid := fun u => taskChildLink_ppid s₁ (.slot i) u (some p)
  obtain ⟨⟨ch', hch'⟩, hpar⟩ := FreshChild.forest h hfree hp hB
  refine h.addChild hfree hp ⟨ch', hch'.congr fun u => (hfam u).1⟩ (fun u => ?_)
    (fun u => ?_) (fun u => ?_) (fun u => ?_) (fun u hu => ?_) hchild ?_ (fun c => ?_)
    (hcur.trans (hB.current _))
  · rw [(hfam u).1, hpar]
  · rw [(hfam u).2.1, hm.pid]
    split_ifs with hu
    · rw [hu, hB.pid]
    · rw [hB.other u hu]
  · rw [(hfam u).2.2.1, hppid, parentPid, hB.other p hpne]
    split_ifs with hu
    · rfl
    · rw [hB.other u hu]
  · rw [(hfam u).2.2.2, hm.isIdle]
    by_cases hu : u = .slot i
    · rw [hu, hB.isIdle, h.1.slots i]
    · rw [hB.other u hu]
  · rw [hstate u hu, hm.state, hB.other u hu]
  · rw [hnext, hm.nextPid, hB.nextPid]
  · rw [hcpu, hm.cpu, hB.cpu]

theorem forkPrepare_fresh (hi : (s.task (.slot i)).isIdle = false) : FreshChild s (forkPrepare s p (.slot i)) i where
  other u hu := by simp [forkPrepare, TaskTable.modify, hu]
  tree := by simp [forkPrepare, TaskTable.modify, forkFields]
  pid := by simp [forkPrepare, TaskTable.modify, forkFields]
  isIdle := by simp [forkPrepare, TaskTable.modify, forkFields, hi]
  cpu := rfl
  localCpuId := rfl
  nextPid := rfl

theorem spawnPrepare_fresh (h : TreeInv s) (hfree : (s.task (.slot i)).state = .unused) (name : String) :
    FreshChild s (spawnPrepare s p (.slot i) name) i where
  other u hu := by simp [spawnPrepare, TaskTable.modify, hu]
  tree := by
    rw [h.tree_unused hfree]
    simp [spawnPrepare, TaskTable.modify, spawnFields]
  pid := by simp [spawnPrepare, TaskTable.modify, spawnFields]
  isIdle := by simp [spawnPrepare, TaskTable.modify, spawnFields]
  cpu := rfl
  localCpuId := rfl
  nextPid := rfl

theorem TreeInv.forkTable (h : TreeInv s)
    (hfree : (s.task (.slot i)).state = .unused) (hp : CanParent s p) (tf : TrapFrame) :
    TreeInv (forkTable s p (.slot i) tf) := by
  unfold EdgeOS.forkTable schedulerTaskSetBlocked
  dsimp only
  have hB := forkPrepare_fresh (i := i) (p := p) (h.1.slots i)
  have hm := TreeMoves.link (forkPrepare s p (.slot i)) (some p) (.slot i)
  have hidle : ((taskChildLink (forkPrepare s p (.slot i)) (some p) (.slot i)).task
      (.slot i)).isIdle = false := by
    rw [hm.isIdle, hB.isIdle]
  refine h.linkFresh hfree hp hB ?_ ?_ ?_ ?_ ?_ ?_ <;>
    generalize taskChildLink (forkPrepare s p (.slot i)) (some p) (.slot i) = s2 at hidle ⊢
  · intro u
    have hmv := SchedMoves.setState .blocked Nat.cast (s2.modify (.slot i) (forkFrame tf)) (.slot i)
    rw [hmv.tree, hmv.pid, hmv.ppid, hmv.isIdle]
    exact ⟨modify_proj _ _ _ _ Task.tree fun _ => rfl, modify_proj _ _ _ _ Task.pid fun _ => rfl,
      modify_proj _ _ _ _ Task.ppid fun _ => rfl, modify_proj _ _ _ _ Task.isIdle fun _ => rfl⟩
  · intro u hu
    rw [setState_state, if_neg fun hc => hu hc.1]
    exact modify_proj _ _ _ _ Task.state fun _ => rfl
  · have hi : ((s2.modify (.slot i) (forkFrame tf)).task (.slot i)).isIdle = false := by
      rw [modify_task_self]
      exact hidle
    rw [setState_state, if_pos ⟨rfl, hi⟩]
    exact ⟨by simp, by simp⟩
  · exact (SchedMoves.setState .blocked Nat.cast _ _).nextPid
  · intro c
    exact (SchedMoves.setState .blocked Nat.cast _ _).idle c
  · rw [setState_current]
    rfl

/-- `process_spawn_exec` on the task table: the child is linked as a blocked task, and
unlinked and zeroed again if its image does not load. -/
theorem TreeInv.spawnTable (h : TreeInv s)
    (hfree : (s.task (.slot i)).state = .unused) (hp : CanParent s p) (name : String)
    (loaded : Bool) : TreeInv (spawnTable s p (.slot i) name loaded) := by
  have hB := spawnPrepare_fresh h (p := p) hfree name
  have hm := TreeMoves.link (spawnPrepare s p (.slot i) name) (some p) (.slot i)
  have hst : (spawnPrepare s p (.slot i) name).task (.slot i) = spawnFields (s.task p) s.nextPid name := by
    simp [spawnPrepare, TaskTable.modify]
  have h1 : TreeInv (taskChildLink (spawnPrepare s p (.slot i) name) (some p) (.slot i)) := by
    refine h.linkFresh hfree hp hB (fun _ => ⟨rfl, rfl, rfl, rfl⟩) (fun _ _ => rfl) ?_ rfl
      (fun _ => rfl) rfl
    rw [hm.state, hst]
    exact ⟨by simp [spawnFields], by simp [spawnFields]⟩
  have hl : Live (taskChildLink (spawnPrepare s p (.slot i) name) (some p) (.slot i)) (.slot i) := by
    unfold Live
    rw [hm.state, hst]
    simp [spawnFields]
  obtain ⟨-, hpar⟩ := FreshChild.forest h hfree hp hB
  have hcur := hB.current (some p)
  unfold EdgeOS.spawnTable
  dsimp only
  generalize taskChildLink (spawnPrepare s p (.slot i) name) (some p) (.slot i) = s2
    at h1 hl hpar hcur ⊢
  split_ifs
  · have h2 := h1.modify (.slot i)
      (f := fun x => { x with image := { x.image with startPending := true } })
      fun _ => ⟨rfl, rfl, rfl, rfl, rfl⟩
    have hl2 : Live (s2.modify (.slot i)
        fun x => { x with image := { x.image with startPending := true } }) (.slot i) := by
      unfold Live
      rw [modify_task_self]
      exact hl
    have h3 : TreeInv (schedulerTaskSetBlocked (s2.modify (.slot i)
        fun x => { x with image := { x.image with startPending := true } }) (.slot i)) :=
      h2.setState ⟨i, rfl⟩ hl2 (by simp) (by simp)
    refine h3.makeRunnable ?_ _
    unfold Live schedulerTaskSetBlocked
    rw [setState_state, if_pos ⟨rfl, h2.not_isIdle ⟨i, rfl⟩⟩]
    simp
  · refine h1.release ⟨i, rfl⟩ (fun c hc => ?_) (fun he => ?_)
    · rw [hpar] at hc
      split_ifs at hc with hci
      · obtain rfl := Option.some.inj hc
        exact hp.live hfree
      · exact (h.1.linked c _ hc).2.2.live hfree
    · rw [hcur] at he
      exact h.1.current (he ▸ hfree)

end EdgeOS
