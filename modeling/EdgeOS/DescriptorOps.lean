import EdgeOS.DescriptorInvariant

namespace EdgeOS

open Lib Function FdEntry

/-! The operations on descriptor tables keep the accounting. -/

variable {R : Prop} {N : ℤ} {F : Holders} {G : ℕ → ℕ} {s s' : FdState}
variable {p : FdProcIdx} {i : FdIdx}

/-! ## Tables -/

/-- The file references that clearing the table of `p` would lose. -/
def lostRefs (s : FdState) (p : FdProcIdx) : ℕ → ℕ :=
  fun j => ∑ x, if x.1 = p then (s.fds x).ref j else 0

/-- Clearing a table without counted descriptors; its file references are lost. -/
theorem FdInv.clearProc (h : FdInv R N F G s) {N' pid : ℤ} (hN : N ≤ N') (hpid : pid < N')
    (hk : ∀ i, (s.fds (p, i)).used = true → (s.fds (p, i)).kind.counted = false) :
    FdInv R N' F (G + lostRefs s p) (s.clearProc p pid) where
  objs := by
    refine h.objs.congr fun k j hc => ?_
    have hslots : slots (s.clearProc p pid) k j = slots s k j := by
      refine Finset.sum_congr rfl fun x _ => ?_
      by_cases hx : x.1 = p
      · have hblank : (s.fds x).key k j = 0 := by
          unfold key
          split_ifs with hu
          · refine if_neg ?_
            rintro ⟨rfl, -⟩
            have := hk x.2 (by rw [← hx]; exact hu)
            rw [← hx] at this
            rw [this] at hc
            simp at hc
          · rfl
        simp only [FdState.clearProc, if_pos hx, hblank]
        rfl
      · simp only [FdState.clearProc, if_neg hx]
    rw [Pi.add_apply, Pi.add_apply, Pi.add_apply, Pi.add_apply, hslots]
  files j hj := by
    have hrefs : refSlots (s.clearProc p pid) j + lostRefs s p j = refSlots s j := by
      unfold refSlots lostRefs
      rw [← Finset.sum_add_distrib]
      refine Finset.sum_congr rfl fun x _ => ?_
      by_cases hx : x.1 = p
      · simp only [FdState.clearProc, if_pos hx]
        exact Nat.zero_add _
      · simp only [FdState.clearProc, if_neg hx]
        exact Nat.add_zero _
    rw [Pi.add_apply, Nat.add_left_comm, hrefs, Nat.add_comm]
    exact h.files j hj
  formed x hu := by
    unfold FdState.clearProc at hu ⊢
    dsimp only at hu ⊢
    split_ifs at hu ⊢ with hx
    exact h.formed x hu
  owned x h0 := by
    unfold FdState.clearProc at h0 ⊢
    dsimp only at h0 ⊢
    split_ifs with hx
    · rfl
    · rw [update_of_ne hx] at h0
      exact h.owned x h0
  known q := by
    refine forall_write (P := fun _ (y : ℤ) => y < N') (fun q _ => ?_) hpid q
    exact lt_of_lt_of_le (h.known q) hN

theorem lostRefs_empty (hk : ∀ i, (s.fds (p, i)).used = false) : lostRefs s p = 0 := by
  funext j
  refine Finset.sum_eq_zero fun x _ => ?_
  split_ifs with hx
  · have hu := hk x.2
    rw [← hx] at hu
    have hzero : (s.fds x).ref = 0 := if_neg (by simpa using hu)
    rw [hzero]
    rfl
  · rfl

theorem FdInv.clearEmpty (h : FdInv R N F G s) {N' pid : ℤ} (hN : N ≤ N') (hpid : pid < N')
    (hk : ∀ i, (s.fds (p, i)).used = false) : FdInv R N' F G (s.clearProc p pid) := by
  have h' := h.clearProc hN hpid fun i hu => by
    rw [hk i] at hu
    simp at hu
  rwa [lostRefs_empty hk, add_zero] at h'

/-- A round of `fd_ensure_stdio` changes nothing, or puts the console into an unused
descriptor. -/
theorem ensureStdioFd_cases (s : FdState) (p : FdProcIdx) (go : Bool) (i : FdIdx) : (ensureStdioFd p (s, go) i).1 = s ∨
    ∃ j e, 1 ≤ j ∧ j < edgeMaxFileRefs ∧ (s.fileRefs j).used = false ∧ (fileRefAlloc s).2 = j ∧
      (s.fds (p, i)).used = false ∧ e.used = true ∧ e.kind = .console ∧ e.fileRef = j ∧
      (ensureStdioFd p (s, go) i).1 = (s.setFileRef j { used := true, refs := 1 }).setFd p i e := by
  unfold ensureStdioFd
  dsimp only
  by_cases hskip : !go ∨ (s.fds (p, i)).used
  · rw [if_pos hskip]
    exact .inl rfl
  rw [if_neg hskip]
  have hunused : (s.fds (p, i)).used = false := by
    by_contra hu
    exact hskip (.inr (by simpa using hu))
  rcases fileRefAlloc_cases s with ha | ⟨j, hj, hlt, hfree, ha⟩
  · rw [ha]
    exact .inl rfl
  rw [ha]
  cases j with
  | zero => omega
  | succ j => exact .inr ⟨j + 1, _, hj, hlt, hfree, rfl, hunused, rfl, rfl, rfl, rfl⟩

theorem FdInv.ensureStdioFd (h : FdInv R N F G s) (hp : s.procPid p ≠ 0) (go : Bool) (i : FdIdx) :
    FdInv R N F G (EdgeOS.ensureStdioFd p (s, go) i).1 := by
  rcases ensureStdioFd_cases s p go i with
    heq | ⟨j, e, hj, hlt, hfree, -, hunused, hu, hk, hr, heq⟩
  · rw [heq]
    exact h
  rw [heq]
  exact (h.refAlloc hj hlt hfree).installPlain hp (blank_unused hunused) hu
    (by rw [hk]; rfl) hr (.of_plain (by rw [hk]; rfl) (by simp [hk]))

theorem ensureStdioFd_frame (go : Bool) (i : FdIdx) : (ensureStdioFd p (s, go) i).1.objs = s.objs ∧
      (ensureStdioFd p (s, go) i).1.procPid = s.procPid := by
  rcases ensureStdioFd_cases s p go i with heq | ⟨j, e, -, -, -, -, -, -, -, -, heq⟩
  all_goals
    rw [heq]
    exact ⟨rfl, rfl⟩

theorem FdInv.stdioRounds (h : FdInv R N F G s) (hp : s.procPid p ≠ 0) (go : Bool) (l : List FdIdx) :
    FdInv R N F G (l.foldl (EdgeOS.ensureStdioFd p) (s, go)).1 ∧
      (l.foldl (EdgeOS.ensureStdioFd p) (s, go)).1.objs = s.objs ∧
      (l.foldl (EdgeOS.ensureStdioFd p) (s, go)).1.procPid = s.procPid := by
  induction l generalizing s go with
  | nil => exact ⟨h, rfl, rfl⟩
  | cons i l ih =>
    obtain ⟨ho, hq⟩ := ensureStdioFd_frame (s := s) (p := p) go i
    obtain ⟨h1, h2, h3⟩ := ih (h.ensureStdioFd hp go i) (by rw [hq]; exact hp)
      (EdgeOS.ensureStdioFd p (s, go) i).2
    exact ⟨h1, h2.trans ho, h3.trans hq⟩

theorem findProc_some {pid : ℤ} (hf : findProc s pid = some p) : s.procPid p = pid := by
  simpa using List.find?_some hf

theorem findProc_none {pid : ℤ} (hf : findProc s pid = none) (q : FdProcIdx) : s.procPid q ≠ pid := by
  simpa using List.find?_eq_none.mp hf q (List.mem_finRange q)

theorem FdInv.fdProcForPid (h : FdInv R N F G s) {pid : ℤ} (hpos : 0 < pid) (hN : pid < N)
    {r : Option FdProcIdx} (hr : EdgeOS.fdProcForPid s pid = (s', r)) :
    FdInv R N F G s' ∧ s'.objs = s.objs ∧ ∀ p, r = some p → s'.procPid p ≠ 0 := by
  unfold EdgeOS.fdProcForPid at hr
  split at hr
  · rename_i q hq
    obtain ⟨rfl, rfl⟩ := Prod.mk.inj hr
    refine ⟨h, rfl, fun p hp => ?_⟩
    obtain rfl := Option.some.inj hp
    rw [findProc_some hq]
    omega
  split at hr
  · obtain ⟨rfl, rfl⟩ := Prod.mk.inj hr
    exact ⟨h, rfl, fun p hp => by simp at hp⟩
  rename_i q hq
  obtain ⟨rfl, rfl⟩ := Prod.mk.inj hr
  have hempty := h.clearEmpty (p := q) le_rfl hN fun i => h.owned (q, i) (findProc_some hq)
  have hself : (s.clearProc q pid).procPid q = pid := update_self ..
  have hq0 : (s.clearProc q pid).procPid q ≠ 0 := by
    rw [hself]
    omega
  obtain ⟨h1, h2, h3⟩ := hempty.stdioRounds hq0 true [0, 1, 2]
  refine ⟨h1, h2, fun p hp => ?_⟩
  obtain rfl := Option.some.inj hp
  exact h3 ▸ hq0

theorem FdInv.fdProcWithStdio (h : FdInv R N F G s) {pid : ℤ} (hpos : 0 < pid) (hN : pid < N)
    {r : Option FdProcIdx} (hr : EdgeOS.fdProcWithStdio s pid = (s', r)) :
    FdInv R N F G s' ∧ s'.objs = s.objs ∧ ∀ p, r = some p → s'.procPid p ≠ 0 := by
  unfold EdgeOS.fdProcWithStdio at hr
  split at hr
  · rename_i s1 q hq
    obtain ⟨h1, h2, h3⟩ := h.fdProcForPid hpos hN hq
    obtain ⟨rfl, rfl⟩ := Prod.mk.inj hr
    obtain ⟨h4, h5, h6⟩ := h1.stdioRounds (h3 q rfl) true [0, 1, 2]
    refine ⟨h4, h5.trans h2, fun p hp => ?_⟩
    obtain rfl := Option.some.inj hp
    exact h6 ▸ h3 q rfl
  · rename_i s1 hq
    obtain ⟨h1, h2, -⟩ := h.fdProcForPid hpos hN hq
    obtain ⟨rfl, rfl⟩ := Prod.mk.inj hr
    exact ⟨h1, h2, fun p hp => by simp at hp⟩

/-! ## Descriptors -/

theorem fdAlloc_some {m : ℤ} (ha : fdAlloc s p m = (s', some i)) :
    s' = s.setFd p i { used := true } ∧ (s.fds (p, i)).used = false := by
  unfold fdAlloc at ha
  split at ha
  · rename_i j hj
    obtain ⟨rfl, hij⟩ := Prod.mk.inj ha
    obtain rfl := Option.some.inj hij
    have := List.find?_some hj
    exact ⟨rfl, by simp_all⟩
  · simp at ha

theorem fdAlloc_none {m : ℤ} (ha : fdAlloc s p m = (s', none)) : s' = s := by
  unfold fdAlloc at ha
  split at ha
  · simp at ha
  · exact (Prod.mk.inj ha).1.symm

theorem FdInv.fdAlloc (h : FdInv R N F G s) (hp : s.procPid p ≠ 0) {m : ℤ} (ha : EdgeOS.fdAlloc s p m = (s', some i)) :
    FdInv R N F G s' ∧ (s'.fds (p, i)).Blank ∧ s'.objs = s.objs ∧ s'.procPid = s.procPid ∧
      ∀ j, (s.fds (p, j)).used = true → i ≠ j ∧ s'.fds (p, j) = s.fds (p, j) := by
  obtain ⟨rfl, hfree⟩ := fdAlloc_some ha
  refine ⟨h.blank (blank_unused hfree) blank_marked fun _ => hp, ?_, rfl, rfl, fun j hj => ?_⟩
  · have hself : (s.setFd p i { used := true }).fds (p, i) = { used := true } :=
      update_self ..
    rw [hself]
    exact blank_marked
  · have hne : i ≠ j := by
      rintro rfl
      rw [hj] at hfree
      simp at hfree
    exact ⟨hne, update_of_ne (by simp [hne.symm]) ..⟩

theorem fdGet_some {fd : ℤ} (hg : fdGet s p fd = some i) : (s.fds (p, i)).used = true := by
  unfold fdGet at hg
  split at hg
  · split_ifs at hg with hu
    obtain rfl := Option.some.inj hg
    exact hu
  · simp at hg

theorem FdInv.clearBlank (h : FdInv R N F G s) (hb : (s.fds (p, i)).Blank) : FdInv R N F G (s.setFd p i {}) :=
  h.blank hb (blank_unused rfl) fun hu => by simp at hu

/-- `fdInstall` puts an object in hand into a marked descriptor, or clears the descriptor and
leaves the object in hand. -/
theorem FdInv.fdInstall {k : FdKind} {l : ℕ} (h : FdInv R N (F + oneRef k l) G s)
    (hp : s.procPid p ≠ 0) (hb : (s.fds (p, i)).Blank) {e : FdEntry} {done : Bool}
    (ha : EdgeOS.fdInstall s p i e = (s', done)) (hk : e.kind = k) (hl : e.pipeId.toNat = l)
    (hformed : e.WellFormed) :
    FdInv R N (if done then F else F + oneRef k l) G s' ∧ s'.objs = s.objs ∧ s'.procPid = s.procPid ∧
      (∀ j, j ≠ i → s'.fds (p, j) = s.fds (p, j)) ∧
      (done = true → ∃ ref, 1 ≤ ref ∧ s'.fds (p, i) = { e with used := true, fileRef := ref }) := by
  subst hk hl
  unfold EdgeOS.fdInstall at ha
  have hother : ∀ (t : FdState) (e : FdEntry) (j : FdIdx), j ≠ i → t.fds = s.fds →
      (t.setFd p i e).fds (p, j) = s.fds (p, j) := by
    intro t e j hj ht
    rw [← ht]
    exact update_of_ne (by simp [hj]) ..
  rcases fileRefAlloc_cases s with hf | ⟨j, hj, hlt, hfree, hf⟩
  · rw [hf] at ha
    obtain ⟨rfl, rfl⟩ := Prod.mk.inj ha
    exact ⟨h.clearBlank hb, rfl, rfl, fun j hj => hother s _ j hj rfl, fun hd => by simp at hd⟩
  rw [hf] at ha
  cases j with
  | zero => omega
  | succ j =>
    obtain ⟨rfl, rfl⟩ := Prod.mk.inj ha
    refine ⟨?_, rfl, rfl, fun l hl => hother _ _ l hl rfl, fun _ => ⟨j + 1, hj, ?_⟩⟩
    · exact (h.refAlloc hj hlt hfree).install hp hb rfl rfl rfl rfl ⟨hformed.named, hformed.opened⟩
    · exact update_self ..

/-! ## Closing -/

theorem closeFd_eq (window : ℕ → List ℕ) (s : FdState) (p : FdProcIdx) (i : FdIdx) : closeFd window s p i =
      { fileRefPut (s.setFd p i {}) (s.fds (p, i)).fileRef with
        objs := fdDropRef window s.objs (s.fds (p, i)).kind (s.fds (p, i)).pipeId } := by
  unfold closeFd
  rw [fileRefPut_setFd]
  dsimp only
  split_ifs with h0
  · rw [fileRefPut_objs]
    rfl
  obtain h0 : (s.fds (p, i)).fileRef = 0 := by omega
  rw [h0, fileRefPut_zero]
  rfl

theorem FdInv.closeFd (h : FdInv R N F G s) {window : ℕ → List ℕ} (hw : R → ∀ i, i ∉ window i)
    (hu : (s.fds (p, i)).used = true) : FdInv R N F G (EdgeOS.closeFd window s p i) := by
  rw [closeFd_eq]
  have hrel := h.release (p := p) (i := i) (e := {}) (blank_unused rfl) fun hf => by
    simp at hf
  rw [key_used hu, ref_used hu] at hrel
  have hput := hrel.refPut
  refine ⟨?_, hput.files, hput.formed, hput.owned, hput.known⟩
  have hobjs := hput.objs
  rw [fileRefPut_objs, ← add_assoc] at hobjs
  exact hobjs.dropRef (h.formed (p, i) hu).named hw

@[simp] theorem closeFd_fds (window : ℕ → List ℕ) (s : FdState) (p : FdProcIdx) (i : FdIdx) :
    (closeFd window s p i).fds = update s.fds (p, i) {} := by
  rw [closeFd_eq]
  exact fileRefPut_fds _ _

@[simp] theorem closeFd_procPid (window : ℕ → List ℕ) (s : FdState) (p : FdProcIdx) (i : FdIdx) :
    (closeFd window s p i).procPid = s.procPid := by
  rw [closeFd_eq]
  exact fileRefPut_procPid _ _

/-! ## Duplicating -/

/-- One more reference to the object of a used descriptor, in hand. -/
theorem FdInv.addRefOf (h : FdInv R N F G s) {e : FdEntry} (he : s.fds (p, i) = e) (hu : e.used = true) :
    FdInv R N (F + oneRef e.kind e.pipeId.toNat) G { s with objs := fdAddRef s.objs e.kind e.pipeId } := by
  subst he
  refine h.setObjs fun ho => ?_
  rw [← add_assoc]
  refine ho.addRef (h.formed (p, i) hu).named fun _ => ?_
  exact Nat.lt_of_lt_of_le (slots_pos hu) (Nat.le_add_right _ _)

/-- A copy of the used descriptor `i` in the blank descriptor `j`. -/
theorem FdInv.dupInto (h : FdInv R N F G s) (hp : s.procPid p ≠ 0) {j : FdIdx}
    (hu : (s.fds (p, i)).used = true) (hb : (s.fds (p, j)).Blank) (cloexec : Bool) :
    FdInv R N F G (EdgeOS.dupInto s p j (s.fds (p, i)) cloexec).1 := by
  unfold EdgeOS.dupInto
  split
  · exact h.clearBlank hb
  rename_i s1 hg
  have hg : fileRefGet s (s.fds (p, i)).fileRef = some s1 := by
    split_ifs at hg
    exact hg
  obtain ⟨hfds, hobjs, hpid⟩ := fileRefGet_frame hg
  have hadd := (h.refGet hg).addRefOf (congrFun hfds (p, i)) hu
  dsimp only
  have hformed := h.formed (p, i) hu
  refine hadd.install ?_ ?_ hu rfl rfl rfl ⟨hformed.named, hformed.opened⟩
  · rw [hpid]
    exact hp
  · rw [hfds]
    exact hb

end EdgeOS
