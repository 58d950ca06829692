import EdgeOS.MemoryMap
import Mathlib.Data.Fintype.Card

namespace EdgeOS

/-!
What `user_vma_remove_range` of `src/sys/syscall.c` leaves of a table of mappings, address by address: also in a
table without a free entry, where a mapping that is cut in two loses its upper part.
-/

open Function List

namespace UserMap

/-! ## What a table says of an address -/

/-- Exactly one entry has the address, with this protection and these flags. -/
def Maps (t : UserMap) (a prot flags : ℕ) : Prop :=
  ∃ i, (∀ j, (t.userVmas j).Has a ↔ j = i) ∧ (t.userVmas i).prot = prot ∧ (t.userVmas i).flags = flags

def Touched (t : UserMap) (start stop : ℕ) : Prop := ∃ a, start ≤ a ∧ a < stop ∧ t.Covers a

/-- Behind the range, in a mapping that the range cuts in two while every entry is in use. -/
def Forgotten (t : UserMap) (start stop a : ℕ) : Prop :=
  start < stop ∧ (∀ i, (t.userVmas i).Used) ∧ ∃ i, Cuts start stop (t.userVmas i) ∧ stop ≤ a ∧ (t.userVmas i).Has a

/-- `user_vma_count` is the number of entries in use. -/
def Counted (t : UserMap) : Prop :=
  t.userVmaCount = (Finset.univ.filter fun i => (t.userVmas i).Used).card

def InWindow (t : UserMap) (i : VmaIdx) : Prop :=
  (t.userVmas i).Used ∧ userHeapBaseAddr ≤ (t.userVmas i).start ∧ (t.userVmas i).start < t.userHeapLimit

/-- `user_mmap_next` is the lowest start in the heap window, or its end when there is none. -/
def Hinted (t : UserMap) : Prop :=
  (∀ i, t.InWindow i → t.userMmapNext ≤ (t.userVmas i).start) ∧
    (t.userMmapNext = t.userHeapLimit ∧ (∀ i, ¬ t.InWindow i) ∨
      ∃ i, t.InWindow i ∧ (t.userVmas i).start = t.userMmapNext)

variable {t t' : UserMap} {start stop a prot flags : ℕ}

theorem counted_recount (t : UserMap) : t.recount.refreshMmapHint.Counted :=
  countP_eq_length_filter

/-- The loop of `user_vma_refresh_mmap_hint` over a part of the table. -/
theorem hint_lowest (t : UserMap) (l : List VmaIdx) (hint next : ℕ) (hnext : next = l.foldl (fun hint i =>
      let v := t.userVmas i
      if ¬ v.Used then hint
      else if v.start < userHeapBaseAddr ∨ v.start ≥ t.userHeapLimit then hint
      else min hint v.start) hint) :
    next ≤ hint ∧ (∀ i ∈ l, t.InWindow i → next ≤ (t.userVmas i).start) ∧
      (next = hint ∨ ∃ i ∈ l, t.InWindow i ∧ (t.userVmas i).start = next) := by
  induction l generalizing hint with
  | nil => exact ⟨hnext.le, fun i hi => absurd hi not_mem_nil, .inl hnext⟩
  | cons i l ih =>
    simp only [foldl_cons] at hnext
    by_cases hin : t.InWindow i
    · obtain ⟨hused, hlo, hhi⟩ := hin
      rw [if_neg (not_not.mpr hused), if_neg (by omega)] at hnext
      obtain ⟨hle, hall, hfrom⟩ := ih (min hint (t.userVmas i).start) hnext
      refine ⟨hle.trans (Nat.min_le_left _ _), ?_, ?_⟩
      · intro j hj hwin
        cases mem_cons.mp hj with
        | inl heq => exact heq ▸ hle.trans (Nat.min_le_right _ _)
        | inr hmem => exact hall j hmem hwin
      · cases hfrom with
        | inr hsome =>
          obtain ⟨j, hj, hrest⟩ := hsome
          exact .inr ⟨j, mem_cons_of_mem _ hj, hrest⟩
        | inl heq =>
          rcases Nat.le_total hint (t.userVmas i).start with hmin | hmin
          · exact .inl (heq.trans (Nat.min_eq_left hmin))
          · exact .inr ⟨i, mem_cons_self, ⟨hused, hlo, hhi⟩, (heq.trans (Nat.min_eq_right hmin)).symm⟩
    · have hskip : ∀ m : ℕ, (if ¬ (t.userVmas i).Used then hint
          else if (t.userVmas i).start < userHeapBaseAddr ∨ (t.userVmas i).start ≥ t.userHeapLimit then hint
          else m) = hint := by
        intro m
        by_cases hused : (t.userVmas i).Used
        · rw [if_neg (not_not.mpr hused), if_pos]
          by_contra hwin
          exact hin ⟨hused, by omega, by omega⟩
        · rw [if_pos hused]
      rw [hskip] at hnext
      obtain ⟨hle, hall, hfrom⟩ := ih hint hnext
      refine ⟨hle, ?_, ?_⟩
      · intro j hj hwin
        cases mem_cons.mp hj with
        | inl heq => exact absurd (heq ▸ hwin) hin
        | inr hmem => exact hall j hmem hwin
      · cases hfrom with
        | inl heq => exact .inl heq
        | inr hsome =>
          obtain ⟨j, hj, hrest⟩ := hsome
          exact .inr ⟨j, mem_cons_of_mem _ hj, hrest⟩

theorem hinted_refresh (t : UserMap) : t.refreshMmapHint.Hinted := by
  obtain ⟨-, hall, hfrom⟩ := t.hint_lowest (finRange processUserVmaMax) t.userHeapLimit
    t.refreshMmapHint.userMmapNext (by simp only [refreshMmapHint])
  refine ⟨fun i hi => hall i (mem_finRange i) hi, ?_⟩
  cases hfrom with
  | inr hsome =>
    obtain ⟨i, -, hrest⟩ := hsome
    exact .inr ⟨i, hrest⟩
  | inl heq =>
    -- an entry in the window would be below the limit
    refine .inl ⟨heq, fun i hi => ?_⟩
    have hle := hall i (mem_finRange i) hi
    have hlt := hi.2.2
    rw [heq] at hle
    change (t.userVmas i).start < t.userHeapLimit at hlt
    omega

/-! ## Where the entries come from -/

/-- Whatever an entry has afterwards, an entry with the same protection and flags had before. -/
def From (t t' : UserMap) : Prop :=
  ∀ j a, (t'.userVmas j).Has a → ∃ i, (t.userVmas i).Has a ∧ (t.userVmas i).prot = (t'.userVmas j).prot ∧
    (t.userVmas i).flags = (t'.userVmas j).flags

theorem From.refl (t : UserMap) : From t t := fun j _ hj => ⟨j, hj, rfl, rfl⟩

theorem From.trans {t'' : UserMap} (h : From t t') (h' : From t' t'') : From t t'' := by
  intro j a hj
  obtain ⟨i, hi, hprot, hflags⟩ := h' j a hj
  obtain ⟨k, hk, hprot', hflags'⟩ := h i a hi
  exact ⟨k, hk, hprot'.trans hprot, hflags'.trans hflags⟩

theorem from_setVma (t : UserMap) (i j : VmaIdx) {v : UserVma} (hsub : ∀ a, v.Has a → (t.userVmas i).Has a)
    (hattrs : (∃ a, v.Has a) → (t.userVmas i).prot = v.prot ∧ (t.userVmas i).flags = v.flags) :
    From t (t.setVma j v) := by
  intro k a hk
  by_cases hkj : k = j
  · subst hkj
    rw [setVma_self] at hk ⊢
    exact ⟨i, hsub a hk, hattrs ⟨a, hk⟩⟩
  · rw [setVma_of_ne t v hkj] at hk ⊢
    exact ⟨k, hk, rfl, rfl⟩

theorem removeStep_from (hlt : start < stop) (t : UserMap) (changed : Bool) (i : VmaIdx) :
    From t (removeStep start stop (t, changed) i).1 := by
  unfold removeStep
  dsimp only
  split
  · exact .refl t
  split
  · exact .refl t
  split
  · refine from_setVma t i i ?_ ?_
    · exact fun a ha => absurd (Nat.lt_of_le_of_lt ha.1 ha.2) (Nat.lt_irrefl 0)
    · rintro ⟨a, ha⟩
      exact absurd (Nat.lt_of_le_of_lt ha.1 ha.2) (Nat.lt_irrefl 0)
  split
  · refine from_setVma t i i (fun a ha => ⟨?_, ha.2⟩) fun _ => ⟨rfl, rfl⟩
    have hlow : stop ≤ a := ha.1
    omega
  split
  · refine from_setVma t i i (fun a ha => ⟨ha.1, ?_⟩) fun _ => ⟨rfl, rfl⟩
    have hhigh : a < start := ha.2
    omega
  rename_i hlow hhigh
  have hlower : ∀ u : UserMap, u.userVmas i = t.userVmas i →
      From u (u.setVma i { t.userVmas i with stop := start }) := by
    intro u hu
    refine from_setVma u i i (fun a ha => ?_) fun _ => by rw [hu]; exact ⟨rfl, rfl⟩
    have hcut : a < start := ha.2
    rw [hu]
    exact ⟨ha.1, by omega⟩
  split
  · rename_i j hj
    have hne : i ≠ j := fun heq => findFreeSlot_some hj (by
      rw [← heq]
      unfold UserVma.Used
      omega)
    have hupper : From t (t.setVma j { t.userVmas i with start := stop }) := by
      refine from_setVma t i j (fun a ha => ⟨?_, ha.2⟩) fun _ => ⟨rfl, rfl⟩
      have hcut : stop ≤ a := ha.1
      omega
    exact hupper.trans (hlower _ (setVma_of_ne t _ hne))
  · exact hlower t rfl

theorem removeRange_from (t : UserMap) (start stop : ℕ) : From t (t.removeRange start stop) := by
  by_cases hlt : start < stop
  · have hloop : ∀ (l : List VmaIdx) (u : UserMap) (changed : Bool),
        From u (l.foldl (removeStep start stop) (u, changed)).1 := by
      intro l
      induction l with
      | nil => exact fun u _ => .refl u
      | cons i l ih => exact fun u changed => (removeStep_from hlt u changed i).trans (ih _ _)
    have h := hloop (finRange processUserVmaMax) t false
    unfold removeRange
    rw [if_neg (by omega)]
    split
    · rename_i heq
      rw [heq] at h
      exact h
    rename_i heq
    rw [heq] at h
    exact h
  · unfold removeRange
    rw [if_pos (by omega)]
    exact .refl t

/-! ## What is left -/

/-- What the call leaves of the addresses. -/
structure Left (start stop : ℕ) (t t' : UserMap) : Prop where
  separate : t'.Separate
  covers : ∀ a, t'.Covers a ↔ t.Covers a ∧ ¬ (start ≤ a ∧ a < stop) ∧ ¬ t.Forgotten start stop a

/-- A mapping that is cut while every entry is in use: it keeps its lower part, and nothing else changes. -/
theorem removeRange_cut (hs : t.Separate) (hlt : start < stop) (hfull : ∀ i, (t.userVmas i).Used) {i : VmaIdx}
    (hcut : Cuts start stop (t.userVmas i)) :
    (t.removeRange start stop).userVmas = update t.userVmas i { t.userVmas i with stop := start } := by
  obtain ⟨hlo, hhi⟩ := hcut
  have hnone : t.findFreeSlot = none := by
    cases hfind : t.findFreeSlot with
    | none => rfl
    | some j => exact absurd (hfull j) (findFreeSlot_some hfind)
  have hstep : removeStep start stop (t, false) i = (t.setVma i { t.userVmas i with stop := start }, true) := by
    unfold removeStep
    dsimp only
    rw [if_neg (not_not.mpr (hfull i)), if_neg (by omega), if_neg (by omega), if_neg (by omega), if_neg (by omega),
      hnone]
  have hother : ∀ j, j ≠ i → ∀ a, start ≤ a → a < stop → ¬ (t.userVmas j).Has a :=
    fun j hj a h1 h2 ha => hj (hs j i a ha ⟨by omega, by omega⟩)
  rw [removeRange_single hlt hother, hstep]
  · rfl
  · rw [hstep]
    rintro a h1 h2 ⟨j, hj⟩
    by_cases hji : j = i
    · subst hji
      rw [setVma_self] at hj
      have hhigh : a < start := hj.2
      omega
    · rw [setVma_of_ne t _ hji] at hj
      exact hother j hji a h1 h2 hj

theorem left_of_cut (hs : t.Separate) (hlt : start < stop) (hfull : ∀ i, (t.userVmas i).Used) {i : VmaIdx}
    (hcut : Cuts start stop (t.userVmas i)) : Left start stop t (t.removeRange start stop) := by
  have htable := removeRange_cut hs hlt hfull hcut
  obtain ⟨hlo, hhi⟩ := hcut
  have hhas : ∀ j a, ((t.removeRange start stop).userVmas j).Has a ↔ (t.userVmas j).Has a ∧ (j = i → a < start) := by
    intro j a
    rw [htable]
    by_cases hji : j = i
    · subst hji
      rw [update_self]
      constructor
      · rintro ⟨h1, h2⟩
        have hhigh : a < start := h2
        exact ⟨⟨h1, by omega⟩, fun _ => hhigh⟩
      · exact fun h => ⟨h.1.1, h.2 rfl⟩
    · rw [update_of_ne hji]
      exact ⟨fun h => ⟨h, fun heq => absurd heq hji⟩, And.left⟩
  constructor
  · exact fun j k a hj hk => hs j k a ((hhas j a).mp hj).1 ((hhas k a).mp hk).1
  · intro a
    constructor
    · rintro ⟨j, hj⟩
      obtain ⟨hold, hlow⟩ := (hhas j a).mp hj
      refine ⟨⟨j, hold⟩, fun hin => ?_, ?_⟩
      · have hji := hs j i a hold ⟨by omega, by omega⟩
        exact absurd (hlow hji) (by omega)
      · rintro ⟨-, -, k, hkcut, hge, hk⟩
        -- only one mapping is cut: both have the first address of the range
        have hki : k = i := hs k i start ⟨le_of_lt hkcut.1, lt_trans hlt hkcut.2⟩ ⟨le_of_lt hlo, lt_trans hlt hhi⟩
        have hjk := hs j k a hold hk
        exact absurd (hlow (hjk.trans hki)) (by omega)
    · rintro ⟨⟨j, hj⟩, hout, hkept⟩
      refine ⟨j, (hhas j a).mpr ⟨hj, ?_⟩⟩
      rintro rfl
      by_contra hge
      exact hkept ⟨hlt, hfull, j, ⟨hlo, hhi⟩, by omega, hj⟩

theorem removeRange_left (hs : t.Separate) (start stop : ℕ) : Left start stop t (t.removeRange start stop) := by
  by_cases hlt : start < stop
  · by_cases hroom : t.Room start stop
    · obtain ⟨hseparate, hcovers⟩ := removeRange_spec hs hroom
      refine ⟨hseparate, fun a => (hcovers a).trans ?_⟩
      have hkept : ¬ t.Forgotten start stop a := by
        rintro ⟨-, hfull, i, hcut, -⟩
        rcases hroom with ⟨j, hfree⟩ | hno
        · exact hfree (hfull j)
        · exact hno i hcut
      exact ⟨fun h => ⟨h.1, h.2, hkept⟩, fun h => ⟨h.1, h.2.1⟩⟩
    · unfold Room at hroom
      push Not at hroom
      obtain ⟨hfull, i, hcut⟩ := hroom
      exact left_of_cut hs hlt hfull hcut
  · have hsame : t.removeRange start stop = t := by
      unfold removeRange
      rw [if_pos (by omega)]
    rw [hsame]
    exact ⟨hs, fun a => ⟨fun h => ⟨h, by omega, fun hf => hlt hf.1⟩, fun h => h.1⟩⟩

/-- With separate entries, an address is mapped as its one entry says. -/
theorem Separate.maps (hs : t.Separate) {i : VmaIdx} (hi : (t.userVmas i).Has a) :
    t.Maps a (t.userVmas i).prot (t.userVmas i).flags :=
  ⟨i, fun j => ⟨fun hj => hs j i a hj hi, fun heq => heq ▸ hi⟩, rfl, rfl⟩

theorem Maps.covers (h : t.Maps a prot flags) : t.Covers a := by
  obtain ⟨i, hall, -⟩ := h
  exact ⟨i, (hall i).mpr rfl⟩

/-- What an address that stays is mapped as does not change. -/
theorem Left.maps_iff (h : Left start stop t t') (hs : t.Separate) (hfrom : From t t') : t'.Maps a prot flags ↔
      t.Maps a prot flags ∧ ¬ (start ≤ a ∧ a < stop) ∧ ¬ t.Forgotten start stop a := by
  constructor
  · intro hmaps
    refine ⟨?_, ((h.covers a).mp hmaps.covers).2⟩
    obtain ⟨j, hj, hprot, hflags⟩ := hmaps
    obtain ⟨i, hi, hprot', hflags'⟩ := hfrom j a ((hj j).mpr rfl)
    rw [← hprot, ← hflags, ← hprot', ← hflags']
    exact hs.maps hi
  · rintro ⟨⟨i, hi, hprot, hflags⟩, hstays⟩
    obtain ⟨j, hj⟩ := (h.covers a).mpr ⟨⟨i, (hi i).mpr rfl⟩, hstays⟩
    obtain ⟨k, hk, hprot', hflags'⟩ := hfrom j a hj
    have hki := (hi k).mp hk
    rw [← hprot, ← hflags, ← hki, hprot', hflags']
    exact h.separate.maps hj

/-! ## The count and the hint -/

/-- A loop that found nothing to change has changed nothing. -/
theorem removeLoop_quiet (l : List VmaIdx) (st : UserMap × Bool)
    (h : (l.foldl (removeStep start stop) st).2 = false) : l.foldl (removeStep start stop) st = st := by
  have hstep : ∀ st i, (removeStep start stop st i).2 = false → removeStep start stop st i = st := by
    intro st i hquiet
    unfold removeStep at hquiet ⊢
    dsimp only at hquiet ⊢
    split_ifs at hquiet ⊢ <;> rfl
  induction l generalizing st with
  | nil => rfl
  | cons i l ih =>
    rw [foldl_cons] at h ⊢
    have hrest := ih (removeStep start stop st i) h
    rw [hrest] at h ⊢
    exact hstep st i h

/-- When the range has an address of a mapping, the count and the hint are made anew. -/
theorem removeRange_touched (hs : t.Separate) (h : t.Touched start stop) :
    ∃ u : UserMap, t.removeRange start stop = u.recount.refreshMmapHint := by
  obtain ⟨a, hlo, hhi, ha⟩ := h
  have hgone := fun hcovers => (((removeRange_left hs start stop).covers a).mp hcovers).2.1 ⟨hlo, hhi⟩
  generalize hres : t.removeRange start stop = t' at hgone ⊢
  unfold removeRange at hres
  rw [if_neg (by omega)] at hres
  split at hres
  · exact ⟨_, hres.symm⟩
  rename_i u heq
  have hquiet := removeLoop_quiet (finRange processUserVmaMax) (t, false) (by rw [heq])
  rw [heq] at hquiet
  obtain ⟨rfl, -⟩ := Prod.mk.inj hquiet
  exact absurd (hres ▸ ha) hgone

theorem removeRange_untouched (h : ¬ t.Touched start stop) : t.removeRange start stop = t :=
  removeRange_of_free fun a hlo hhi ha => h ⟨a, hlo, hhi, ha⟩

/-- Every address outside of the range that was mapped is mapped as before, except for the part behind the range of a
mapping that is cut while every entry is in use; nothing else is mapped. The count and the hint are right when the
range has an address of a mapping or they were. -/
theorem removeRange_exact (t : UserMap) (start stop : ℕ) (hs : t.Separate) : (t.removeRange start stop).Separate ∧
      (∀ a, start ≤ a → a < stop → ¬ (t.removeRange start stop).Covers a) ∧
      (∀ a prot flags, ¬ (start ≤ a ∧ a < stop) →
        ((t.removeRange start stop).Maps a prot flags ↔ t.Maps a prot flags ∧ ¬ t.Forgotten start stop a)) ∧
      (t.Touched start stop ∨ t.Counted → (t.removeRange start stop).Counted) ∧
      (t.Touched start stop ∨ t.Hinted → (t.removeRange start stop).Hinted) := by
  have hleft := removeRange_left hs start stop
  refine ⟨hleft.separate, fun a hlo hhi ha => ((hleft.covers a).mp ha).2.1 ⟨hlo, hhi⟩, ?_, ?_, ?_⟩
  · intro a prot flags hout
    rw [hleft.maps_iff hs (removeRange_from t start stop)]
    exact and_congr_right fun _ => and_iff_right hout
  · intro h
    by_cases ht : t.Touched start stop
    · obtain ⟨u, hu⟩ := removeRange_touched hs ht
      rw [hu]
      exact u.counted_recount
    · rw [removeRange_untouched ht]
      exact h.resolve_left ht
  · intro h
    by_cases ht : t.Touched start stop
    · obtain ⟨u, hu⟩ := removeRange_touched hs ht
      rw [hu]
      exact u.recount.hinted_refresh
    · rw [removeRange_untouched ht]
      exact h.resolve_left ht

/-- Every entry is in use: mappings of three pages, four pages apart. -/
def crowded : UserMap where
  userHeapBase := userHeapBaseAddr
  userBrk := userHeapBaseAddr
  userHeapLimit := userHeapBaseAddr + 0x2000000
  userMmapNext := userHeapBaseAddr
  userVmaCount := processUserVmaMax
  userVmas i := ⟨userHeapBaseAddr + i.val * 0x4000, userHeapBaseAddr + i.val * 0x4000 + 0x3000, 3, 0x22⟩

theorem crowded_has {i : VmaIdx} {a : ℕ} : (crowded.userVmas i).Has a ↔
    userHeapBaseAddr + i.val * 0x4000 ≤ a ∧ a < userHeapBaseAddr + i.val * 0x4000 + 0x3000 := Iff.rfl

theorem crowded_separate : crowded.Separate := by
  intro i j a hi hj
  rw [crowded_has] at hi hj
  apply Fin.ext
  omega

theorem crowded_used (i : VmaIdx) : (crowded.userVmas i).Used := Nat.lt_add_of_pos_right (by decide)

/-- The middle page of the first mapping is removed: its last page is not mapped any more. -/
theorem crowded_forgets :
    ¬ (crowded.removeRange 0x20401000 0x20402000).Covers 0x20402000 ∧ crowded.Maps 0x20402000 3 0x22 := by
  have hfirst : (crowded.userVmas 0).Has 0x20402000 := by
    rw [crowded_has]
    decide
  have hcut : Cuts 0x20401000 0x20402000 (crowded.userVmas 0) := ⟨by decide, by decide⟩
  refine ⟨fun h => ?_, crowded_separate.maps hfirst⟩
  have hleft := removeRange_left crowded_separate 0x20401000 0x20402000
  exact ((hleft.covers _).mp h).2.2 ⟨by decide, crowded_used, 0, hcut, Nat.le_refl _, hfirst⟩

theorem crowded_exact : (crowded.removeRange 0x20401000 0x20402000).Separate ∧
    (crowded.removeRange 0x20401000 0x20402000).Counted := by
  have h := removeRange_exact crowded 0x20401000 0x20402000 crowded_separate
  have htouched : crowded.Touched 0x20401000 0x20402000 :=
    ⟨0x20401000, Nat.le_refl _, by decide, 0, by rw [crowded_has]; decide⟩
  exact ⟨h.1, h.2.2.2.1 (.inl htouched)⟩

theorem crowded_inexact : ¬ ∀ t : UserMap, t.Separate → t.Counted → t.Hinted → ∀ start stop a prot flags,
    ¬ (start ≤ a ∧ a < stop) → t.Maps a prot flags → (t.removeRange start stop).Maps a prot flags := by
  intro hall
  obtain ⟨hgone, hmapped⟩ := crowded_forgets
  have hcounted : crowded.Counted := by
    unfold Counted
    rw [Finset.filter_true_of_mem fun i _ => crowded_used i, Finset.card_univ, Fintype.card_fin]
    rfl
  have hhinted : crowded.Hinted := by
    refine ⟨fun i hi => hi.2.1, .inr ⟨0, ⟨crowded_used 0, Nat.le_refl _, by decide⟩, rfl⟩⟩
  exact hgone (hall crowded crowded_separate hcounted hhinted 0x20401000 0x20402000 0x20402000 3 0x22
    (fun h => absurd h.2 (Nat.lt_irrefl _)) hmapped).covers

end UserMap

end EdgeOS
