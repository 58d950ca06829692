import EdgeOS.ExtentFormat

namespace EdgeOS

/-!
Insertion into a root of extents (`extent_map_insert_local` in `src/fs/ext4/ext4.c`), as the format sees it.
-/

open List Extent
open UInt32 (toNat_inj toNat_add)

namespace Extent

variable (e : Extent) (l p : ℕ)

def Grows : Prop := e.len % 0x8000 ≠ 0 ∧ l = (e.block + e.len % 0x8000) % 2 ^ 32 ∧
  p = (e.start + e.len % 0x8000) % 2 ^ 32 ∧ e.len % 0x8000 < 0x7FFF

instance : Decidable (e.Grows l p) := inferInstanceAs (Decidable (_ ∧ _))

def grown : Extent := { e with len := e.len % 0x8000 + 1 }

def single (l p : ℕ) : Extent := ⟨l, 1, p⟩

def Extends : Prop := l = e.block + e.len ∧ p = e.start + e.len ∧ e.len < 0x8000

instance : Decidable (e.Extends l p) := inferInstanceAs (Decidable (_ ∧ _))

structure Initialised : Prop where
  pos : 1 ≤ e.len
  max : e.len ≤ 0x8000
  ends : e.block + e.len ≤ 2 ^ 32

variable {e : Extent} {l p : ℕ}

theorem Initialised.blocks_eq (h : e.Initialised) : e.blocks = e.len := if_pos h.max

theorem Initialised.seen_iff (h : e.Initialised) :
    e.Seen l ↔ e.len < 0x8000 ∧ e.block + e.len < 2 ^ 32 ∧ e.block ≤ l ∧ l < e.block + e.len := by
  obtain ⟨hpos, hmax, hends⟩ := h
  unfold Seen
  rcases hmax.lt_or_eq with hlt | hlimit
  · rw [Nat.mod_eq_of_lt hlt]
    omega
  · rw [hlimit]
    omega

theorem Initialised.seen_covers (h : e.Initialised) (hseen : e.Seen l) : e.Covers l := by
  obtain ⟨-, -, hlo, hhi⟩ := h.seen_iff.mp hseen
  unfold Covers
  rw [h.blocks_eq]
  exact ⟨hlo, hhi⟩

theorem Initialised.grows_iff (h : e.Initialised) : e.Grows l p ↔
    l = (e.block + e.len) % 2 ^ 32 ∧ p = (e.start + e.len) % 2 ^ 32 ∧ e.len < 0x7FFF := by
  obtain ⟨hpos, hmax, -⟩ := h
  unfold Grows
  rcases hmax.lt_or_eq with hlt | hlimit
  · rw [Nat.mod_eq_of_lt hlt]
    omega
  · rw [hlimit]
    omega

theorem Initialised.grown_len (h : e.Initialised) (hgrows : e.Grows l p) : e.grown = { e with len := e.len + 1 } := by
  have hlt := (h.grows_iff.mp hgrows).2.2
  unfold grown
  rw [Nat.mod_eq_of_lt (by omega)]

end Extent

/-! ## Lists of extents -/

/-- A map of extents as every reader of the format requires it. -/
structure ExtentMap (es : List Extent) : Prop where
  sorted : es.Pairwise Extent.Before
  initialised : ∀ e ∈ es, e.Initialised

def seenPhys (es : List Extent) (l : ℕ) : Option ℕ := (es.find? fun e => e.Seen l).map (·.seenPhys l)

section Lists

variable {es : List Extent} {l p : ℕ}

theorem find?_modify {α β : Type} {q : α → Bool} {g : α → β} {f : α → α} {xs : List α} {j : ℕ} (hj : j < xs.length)
    (hq : q (f xs[j]) = q xs[j]) (hg : g (f xs[j]) = g xs[j]) :
    ((xs.modify j f).find? q).map g = (xs.find? q).map g := by
  induction xs generalizing j with
  | nil => exact absurd hj (Nat.not_lt_zero j)
  | cons x xs ih =>
    cases j with
    | zero =>
      rw [modify_zero_cons, find?_cons, find?_cons]
      change q (f x) = q x at hq
      rw [hq]
      cases q x with
      | true => exact congrArg some hg
      | false => rfl
    | succ j =>
      rw [modify_succ_cons, find?_cons, find?_cons]
      cases q x with
      | true => rfl
      | false => exact ih (Nat.lt_of_succ_lt_succ hj) hq hg

theorem find?_eq_of_only {α : Type} {q : α → Bool} {xs : List α} {x : α} (hx : x ∈ xs) (hq : q x = true)
    (honly : ∀ y ∈ xs, q y = true → y = x) : xs.find? q = some x := by
  cases hfind : xs.find? q with
  | none => exact absurd hq (find?_eq_none.mp hfind x hx)
  | some y => rw [honly y (mem_of_find?_eq_some hfind) (find?_some hfind)]

theorem mem_modify {α : Type} {f : α → α} {xs : List α} {j : ℕ} (hj : j < xs.length) {x : α}
    (hx : x ∈ xs.modify j f) : x = f xs[j] ∨ x ∈ xs := by
  obtain ⟨i, hi, rfl⟩ := mem_iff_getElem.mp hx
  rw [getElem_modify]
  split
  · rename_i hij
    subst hij
    exact Or.inl rfl
  · exact Or.inr (getElem_mem _)

/-- The map after an extent has grown by a block that no extent holds. -/
theorem ExtentMap.grown (h : ExtentMap es) (hfree : ∀ e ∈ es, ¬ e.Covers l) {j : ℕ} (hj : j < es.length)
    (hgrows : es[j].Grows l p) (hend : l = es[j].block + es[j].len) (hl : l + 1 < 2 ^ 32) :
    ExtentMap (es.modify j Extent.grown) ∧ seenPhys (es.modify j Extent.grown) l = some p ∧
      ∀ l', l' ≠ l → seenPhys (es.modify j Extent.grown) l' = seenPhys es l' := by
  have hmem : es[j] ∈ es := getElem_mem hj
  have hinit := h.initialised _ hmem
  have hlen := hinit.grown_len hgrows
  obtain ⟨-, hp, hshort⟩ := hinit.grows_iff.mp hgrows
  have hpos := hinit.pos
  have hgrown : es[j].grown.Initialised := by
    rw [hlen]
    exact ⟨Nat.le_add_left 1 _, Nat.succ_le_of_lt (hshort.trans (by decide)), by dsimp only; omega⟩
  have hall : ∀ e ∈ es.modify j Extent.grown, e.Initialised := by
    intro e he
    rcases mem_modify hj he with rfl | hold
    · exact hgrown
    · exact h.initialised e hold
  have hseen : es[j].grown.Seen l := by
    rw [hgrown.seen_iff, hlen]
    dsimp only
    omega
  refine ⟨⟨?_, hall⟩, ?_, ?_⟩
  · rw [pairwise_iff_getElem]
    intro a b ha hb hab
    rw [length_modify] at ha hb
    have hbefore := pairwise_iff_getElem.mp h.sorted a b ha hb hab
    rw [getElem_modify, getElem_modify]
    unfold Extent.Before at *
    by_cases hja : j = a
    · subst hja
      rw [if_pos rfl, if_neg (by omega), hgrown.blocks_eq, hlen]
      rw [hinit.blocks_eq] at hbefore
      -- the next extent does not begin with the block
      have hnext := hfree es[b] (getElem_mem hb)
      have hposb := (h.initialised es[b] (getElem_mem hb)).pos
      unfold Extent.Covers at hnext
      rw [(h.initialised es[b] (getElem_mem hb)).blocks_eq] at hnext
      dsimp only
      omega
    · rw [if_neg hja]
      by_cases hjb : j = b
      · subst hjb
        rw [if_pos rfl, hlen]
        exact hbefore
      · rw [if_neg hjb]
        exact hbefore
  · have hin : es[j].grown ∈ es.modify j Extent.grown := by
      have hbound : j < (es.modify j Extent.grown).length := by rwa [length_modify]
      have hget : (es.modify j Extent.grown)[j] = es[j].grown := by
        rw [getElem_modify, if_pos rfl]
      rw [← hget]
      exact getElem_mem _
    unfold EdgeOS.seenPhys
    rw [find?_eq_of_only hin (decide_eq_true hseen), Option.map_some, hlen]
    · unfold Extent.seenPhys
      dsimp only
      rw [hp]
      congr 2
      omega
    · intro e he htrue
      have hother := of_decide_eq_true htrue
      rcases mem_modify hj he with rfl | hold
      · rfl
      · exact absurd ((h.initialised e hold).seen_covers hother) (hfree e hold)
  · intro l' hl'
    apply find?_modify hj
    · rw [decide_eq_decide, hgrown.seen_iff, hinit.seen_iff, hlen]
      dsimp only
      omega
    · rw [hlen]
      rfl

theorem ExtentMap.added (h : ExtentMap es) (hfree : ∀ e ∈ es, ¬ e.Covers l) (hl : l + 1 < 2 ^ 32) (hp : p < 2 ^ 32)
    (hbehind : ∀ e ∈ es, e.block + e.len ≤ l) :
    ExtentMap (es ++ [.single l p]) ∧ seenPhys (es ++ [.single l p]) l = some p ∧
      ∀ l', l' ≠ l → seenPhys (es ++ [.single l p]) l' = seenPhys es l' := by
  have hnew : (Extent.single l p).Initialised := ⟨le_rfl, Nat.le_of_ble_eq_true rfl, hl.le⟩
  have hnone : es.find? (fun e => e.Seen l) = none := by
    rw [find?_eq_none]
    intro e he htrue
    exact hfree e he ((h.initialised e he).seen_covers (of_decide_eq_true htrue))
  refine ⟨⟨?_, ?_⟩, ?_, ?_⟩
  · rw [pairwise_append]
    refine ⟨h.sorted, pairwise_singleton _ _, ?_⟩
    intro e he e' he'
    rw [mem_singleton.mp he']
    unfold Extent.Before
    rw [(h.initialised e he).blocks_eq]
    exact hbehind e he
  · intro e he
    rcases mem_append.mp he with hold | hlast
    · exact h.initialised e hold
    · rw [mem_singleton.mp hlast]
      exact hnew
  · have hseen : (Extent.single l p).Seen l := by
      rw [hnew.seen_iff]
      unfold Extent.single
      dsimp only
      omega
    unfold seenPhys
    rw [find?_append, hnone, Option.none_or, find?_singleton, if_pos (decide_eq_true hseen), Option.map_some]
    unfold Extent.seenPhys Extent.single
    dsimp only
    rw [Nat.sub_self, Nat.add_zero, Nat.mod_eq_of_lt hp]
  · intro l' hl'
    have hnot : ¬ (Extent.single l p).Seen l' := by
      rw [hnew.seen_iff]
      unfold Extent.single
      dsimp only
      omega
    unfold seenPhys
    rw [find?_append, find?_singleton, if_neg (by rwa [decide_eq_true_eq]), Option.or_none]

end Lists

/-! ## Roots -/

structure RootNode (raw : Bytes) : Prop where
  len : raw.length = 128
  header : NodeHeader (bytesAt raw 40 60) 0

def rootExtent (raw : Bytes) (j : ℕ) : Extent := extentEntry (bytesAt raw 40 60) j

def rootExtents (raw : Bytes) : List Extent := leafExtents (bytesAt raw 40 60)

section Roots

variable {raw raw' : Bytes} {l p : UInt32}

theorem rootExtents_eq : rootExtents raw = (range (rd16le raw 42).toNat).map (rootExtent raw) := by
  unfold rootExtents leafExtents nodeEntries
  rw [rd16le_bytesAt (by omega)]
  rfl

theorem length_rootExtents : (rootExtents raw).length = (rd16le raw 42).toNat := by
  rw [rootExtents_eq, length_map, length_range]

theorem getElem_rootExtents {j : ℕ} (hj : j < (rootExtents raw).length) : (rootExtents raw)[j] = rootExtent raw j := by
  simp only [rootExtents_eq, getElem_map, getElem_range]

namespace RootNode

theorem magic (h : RootNode raw) : rd16le raw 40 = ext4ExtMagic := by
  have hmagic := h.header.magic
  rwa [rd16le_bytesAt (by omega)] at hmagic

theorem depth (h : RootNode raw) : rd16le raw 46 = 0 := by
  have hdepth := h.header.depth
  rw [rd16le_bytesAt (by omega)] at hdepth
  exact UInt16.toNat.inj hdepth

theorem entries (h : RootNode raw) : (rd16le raw 42).toNat ≤ (rd16le raw 44).toNat := by
  have hmax := h.header.max
  unfold nodeEntries at hmax
  rwa [rd16le_bytesAt (by omega), rd16le_bytesAt (by omega)] at hmax

theorem max (h : RootNode raw) : (rd16le raw 44).toNat ≤ 4 := by
  have hroom := h.header.room
  have hlen : (bytesAt raw 40 60).length = 60 := length_bytesAt (by rw [h.len]; decide)
  rw [rd16le_bytesAt (by omega), hlen] at hroom
  change 12 + 12 * (rd16le raw 44).toNat ≤ 60 at hroom
  omega

/-- A root stays one when its header does, but for the number of its entries. -/
theorem congr (h : RootNode raw) (hlen : raw'.length = raw.length)
    (hhead : ∀ i, 40 ≤ i → i < 42 ∨ 44 ≤ i → i < 52 → rd8 raw' i = rd8 raw i)
    (hentries : (rd16le raw' 42).toNat ≤ (rd16le raw 44).toNat) : RootNode raw' := by
  have hword : ∀ i, 40 ≤ i → i + 2 ≤ 42 ∨ 44 ≤ i → i + 2 ≤ 52 → rd16le raw' i = rd16le raw i := fun i hlo hmid hhi =>
    rd16le_congr fun k hk hk' => hhead k (by omega) (by omega) (by omega)
  have hlen' : (bytesAt raw' 40 60).length = 60 := length_bytesAt (by rw [hlen, h.len]; decide)
  have hmax := h.max
  refine ⟨hlen.trans h.len, ⟨?_, ?_, ?_, ?_⟩⟩
  · rw [rd16le_bytesAt (by omega)]
    exact (hword 40 (by omega) (by omega) (by omega)).trans h.magic
  · rw [rd16le_bytesAt (by omega)]
    exact congrArg UInt16.toNat ((hword 46 (by omega) (by omega) (by omega)).trans h.depth)
  · unfold nodeEntries
    rw [rd16le_bytesAt (by omega), rd16le_bytesAt (by omega), hword 44 (by omega) (by omega) (by omega)]
    exact hentries
  · rw [rd16le_bytesAt (by omega), hword 44 (by omega) (by omega) (by omega), hlen']
    omega

theorem find (h : RootNode raw) (fs : Ext4Fs) (l : UInt32) :
    (fs.extentFindPhysFromNode l (2 ^ 32) (bytesAt raw 40 60)).map UInt32.toNat = seenPhys (rootExtents raw) l.toNat :=
  Ext4Fs.leaf_find h.header l (by decide)

end RootNode

/-- The extent `i` of an inode with its extents in the root: the first block, the length, the start. -/
def rootBlock (raw : Bytes) (i : ℕ) : UInt32 := rd32le raw (52 + 12 * i)
def rootLen (raw : Bytes) (i : ℕ) : UInt32 := (rd16le raw (52 + 12 * i + 4)).toUInt32 &&& 0x7FFF
def rootStart (raw : Bytes) (i : ℕ) : UInt32 := rd32le raw (52 + 12 * i + 8)

/-- Extent `i` holds the block. -/
def RootCovers (raw : Bytes) (lblock : UInt32) (i : ℕ) : Prop :=
  rootLen raw i ≠ 0 ∧ rootBlock raw i ≤ lblock ∧ lblock < rootBlock raw i + rootLen raw i

theorem rootExtent_words {j : ℕ} (hj : j < 4) : (rootExtent raw j).block = (rootBlock raw j).toNat ∧
    (rootExtent raw j).len % 0x8000 = (rootLen raw j).toNat ∧
    (rootExtent raw j).start % 2 ^ 32 = (rootStart raw j).toNat := by
  unfold rootExtent extentEntry rootBlock rootLen rootStart
  dsimp only
  rw [rd32le_bytesAt (by omega), rd16le_bytesAt (by omega), rd16le_bytesAt (by omega), rd32le_bytesAt (by omega),
    show 40 + (12 + 12 * j) = 52 + 12 * j by omega, show 40 + (12 + 12 * j + 4) = 52 + 12 * j + 4 by omega,
    show 40 + (12 + 12 * j + 8) = 52 + 12 * j + 8 by omega]
  refine ⟨rfl, ?_, ?_⟩
  · rw [UInt32.toNat_and, UInt16.toNat_toUInt32]
    exact (Nat.and_two_pow_sub_one_eq_mod _ 15).symm
  · rw [Nat.mul_add_mod_of_lt (UInt32.toNat_lt _)]

theorem rootExtent_congr {j : ℕ} (hj : j < 4)
    (h : ∀ i, 52 + 12 * j ≤ i → i < 64 + 12 * j → rd8 raw' i = rd8 raw i) : rootExtent raw' j = rootExtent raw j := by
  have hword16 : ∀ k, 12 + 12 * j ≤ k → k + 2 ≤ 24 + 12 * j →
      rd16le (bytesAt raw' 40 60) k = rd16le (bytesAt raw 40 60) k := by
    intro k hlo hhi
    rw [rd16le_bytesAt (by omega), rd16le_bytesAt (by omega)]
    exact rd16le_congr fun i hi hi' => h i (by omega) (by omega)
  have hword32 : ∀ k, 12 + 12 * j ≤ k → k + 4 ≤ 24 + 12 * j →
      rd32le (bytesAt raw' 40 60) k = rd32le (bytesAt raw 40 60) k := by
    intro k hlo hhi
    rw [rd32le_bytesAt (by omega), rd32le_bytesAt (by omega)]
    exact rd32le_congr fun i hi hi' => h i (by omega) (by omega)
  unfold rootExtent extentEntry
  rw [hword32 _ (by omega) (by omega), hword16 _ (by omega) (by omega), hword16 _ (by omega) (by omega),
    hword32 _ (by omega) (by omega)]

theorem rootCovers_iff {j : ℕ} (hj : j < 4) : RootCovers raw l j ↔ (rootExtent raw j).Seen l.toNat := by
  obtain ⟨hblock, hlen, -⟩ := @rootExtent_words raw j hj
  unfold RootCovers Extent.Seen
  rw [hblock, hlen, ne_eq, ← toNat_inj, UInt32.le_iff_toNat_le, UInt32.lt_iff_toNat_lt, toNat_add]
  rfl

theorem rootGrows_iff {j : ℕ} (hj : j < 4) : (rootLen raw j ≠ 0 ∧ l = rootBlock raw j + rootLen raw j ∧
    p = rootStart raw j + rootLen raw j ∧ rootLen raw j < 0x7FFF) ↔
    (rootExtent raw j).Grows l.toNat p.toNat := by
  obtain ⟨hblock, hlen, hstart⟩ := @rootExtent_words raw j hj
  unfold Extent.Grows
  rw [Nat.add_mod (rootExtent raw j).start, hstart, hblock, hlen, ne_eq, ← toNat_inj, ← toNat_inj,
    ← toNat_inj, toNat_add, toNat_add, UInt32.lt_iff_toNat_lt, Nat.add_mod_mod]
  rfl

/-- The loop over the root, as a search for an extent that grows. -/
theorem growExtent_find (n i : ℕ) (hn : i + n ≤ 4) (hfree : ∀ j < i + n, ¬ (rootExtent raw j).Seen l.toNat) :
    growExtent raw l p n i = ((range' i n).find? fun j => (rootExtent raw j).Grows l.toNat p.toNat).map fun j =>
      put16 raw (52 + 12 * j + 4) (rootLen raw j + 1).toUInt16 := by
  induction n generalizing i with
  | zero => rfl
  | succ n ih =>
    have hnot : ¬ RootCovers raw l i := mt (rootCovers_iff (by omega)).mp (hfree i (by omega))
    have hgrows := @rootGrows_iff raw l p i (by omega)
    have hrest := ih (i + 1) (by omega) fun j hj => hfree j (by omega)
    unfold growExtent
    change (if rootLen raw i = 0 then _ else if rootBlock raw i ≤ l ∧ l < rootBlock raw i + rootLen raw i then _ else
      if l = rootBlock raw i + rootLen raw i ∧ p = rootStart raw i + rootLen raw i ∧ rootLen raw i < 0x7FFF then _
      else _) = _
    rw [range'_succ, find?_cons]
    by_cases hzero : rootLen raw i = 0
    · rw [if_pos hzero, decide_eq_false fun h => (hgrows.mpr h).1 hzero]
      exact hrest
    rw [if_neg hzero, if_neg fun h => hnot ⟨hzero, h⟩]
    by_cases h : (rootExtent raw i).Grows l.toNat p.toNat
    · rw [if_pos (hgrows.mpr h).2, decide_eq_true h]
      rfl
    · rw [if_neg fun h' => h (hgrows.mp ⟨hzero, h'⟩), decide_eq_false h]
      exact hrest

theorem put_grown (h : RootNode raw) {j : ℕ} (hj : j < (rd16le raw 42).toNat)
    (hgrows : (rootExtent raw j).Grows l.toNat p.toNat) :
    RootNode (put16 raw (52 + 12 * j + 4) (rootLen raw j + 1).toUInt16) ∧
      rootExtents (put16 raw (52 + 12 * j + 4) (rootLen raw j + 1).toUInt16) =
        (rootExtents raw).modify j grown := by
  have hentries := h.entries
  have hfour := h.max
  have hsize := h.len
  have hroom : 52 + 12 * j + 4 + 2 ≤ raw.length := by omega
  obtain ⟨hblock, hlen, hstart⟩ := @rootExtent_words raw j (by omega)
  have hshort := hgrows.2.2.2
  rw [hlen] at hshort
  have hword : (rootLen raw j + 1).toUInt16.toNat = (rootLen raw j).toNat + 1 := by
    rw [UInt32.toNat_toUInt16, toNat_add]
    change ((rootLen raw j).toNat + 1) % 2 ^ 32 % 2 ^ 16 = _
    omega
  generalize hraw' : put16 raw (52 + 12 * j + 4) (rootLen raw j + 1).toUInt16 = raw'
  have hbytes : ∀ i, i < 52 + 12 * j + 4 ∨ 52 + 12 * j + 4 + 2 ≤ i → rd8 raw' i = rd8 raw i := by
    intro i hi
    rw [← hraw']
    exact rd8_put16_other hroom hi
  have hcount : rd16le raw' 42 = rd16le raw 42 := rd16le_congr fun k hlo hhi => hbytes k (by omega)
  have hroot : RootNode raw' := by
    apply h.congr
    · rw [← hraw', length_put16 hroom]
    · intro i hlo hmid hhi
      exact hbytes i (by omega)
    · rwa [hcount]
  refine ⟨hroot, ?_⟩
  apply ext_getElem
  · rw [length_modify, length_rootExtents, length_rootExtents, hcount]
  intro i hi hi'
  rw [length_modify, length_rootExtents] at hi'
  rw [getElem_rootExtents, getElem_modify, getElem_rootExtents]
  by_cases hij : j = i
  · subst hij
    rw [if_pos rfl]
    have hword16 : ∀ k, 12 + 12 * j ≤ k → k + 2 ≤ 16 + 12 * j ∨ 18 + 12 * j ≤ k → k + 2 ≤ 24 + 12 * j →
        rd16le (bytesAt raw' 40 60) k = rd16le (bytesAt raw 40 60) k := by
      intro k hlo hmid hhi
      rw [rd16le_bytesAt (by omega), rd16le_bytesAt (by omega)]
      exact rd16le_congr fun i hi hi' => hbytes i (by omega)
    have hword32 : ∀ k, 12 + 12 * j ≤ k → k + 4 ≤ 16 + 12 * j ∨ 18 + 12 * j ≤ k → k + 4 ≤ 24 + 12 * j →
        rd32le (bytesAt raw' 40 60) k = rd32le (bytesAt raw 40 60) k := by
      intro k hlo hmid hhi
      rw [rd32le_bytesAt (by omega), rd32le_bytesAt (by omega)]
      exact rd32le_congr fun i hi hi' => hbytes i (by omega)
    have hnew : rd16le (bytesAt raw' 40 60) (12 + 12 * j + 4) = (rootLen raw j + 1).toUInt16 := by
      rw [rd16le_bytesAt (by omega), show 40 + (12 + 12 * j + 4) = 52 + 12 * j + 4 by omega, ← hraw',
        rd16le_put16 hroom]
    unfold grown
    rw [hlen]
    unfold rootExtent extentEntry
    rw [hword32 _ (by omega) (by omega) (by omega), hnew, hword, hword16 _ (by omega) (by omega) (by omega),
      hword32 _ (by omega) (by omega) (by omega)]
  · rw [if_neg hij]
    exact rootExtent_congr (by omega) fun k hlo hhi => hbytes k (by omega)

theorem put_added (h : RootNode raw) (hroom : (rd16le raw 42).toNat < (rd16le raw 44).toNat) :
    RootNode (addExtent raw l p) ∧
      rootExtents (addExtent raw l p) = rootExtents raw ++ [single l.toNat p.toNat] := by
  have hsize := h.len
  have hfour := h.max
  generalize hk : (rd16le raw 42).toNat = k at *
  have hput : 42 + 2 ≤ raw.length := by omega
  have hlenput : (put16 raw 42 (rd16le raw 42 + 1)).length = 128 := by rw [length_put16 hput, hsize]
  have hext : (le32 l ++ le16 1 ++ le16 0 ++ le32 p).length = 12 := rfl
  have hpatch : 52 + 12 * k + (le32 l ++ le16 1 ++ le16 0 ++ le32 p).length ≤
      (put16 raw 42 (rd16le raw 42 + 1)).length := by omega
  generalize hraw' : addExtent raw l p = raw'
  have hunfold : raw' = patch (put16 raw 42 (rd16le raw 42 + 1)) (52 + 12 * k)
      (le32 l ++ le16 1 ++ le16 0 ++ le32 p) := by
    rw [← hraw', ← hk]
    rfl
  have hbytes : ∀ i, (i < 42 ∨ 44 ≤ i) → (i < 52 + 12 * k ∨ 64 + 12 * k ≤ i) → rd8 raw' i = rd8 raw i := by
    intro i hcount hext'
    rw [hunfold, rd8_patch_other hpatch (by rw [hext]; omega), rd8_put16_other hput (by omega)]
  have hcount : (rd16le raw' 42).toNat = k + 1 := by
    have hword : rd16le raw' 42 = rd16le raw 42 + 1 := by
      rw [hunfold, rd16le_patch_other hpatch (by omega), rd16le_put16 hput]
    rw [hword, UInt16.toNat_add, hk, show (1 : UInt16).toNat = 1 from rfl]
    omega
  have hroot : RootNode raw' := by
    apply h.congr
    · rw [hunfold, length_patch hpatch, hlenput, hsize]
    · intro i hlo hmid hhi
      exact hbytes i (by omega) (by omega)
    · rw [hcount]
      exact hroom
  refine ⟨hroot, ?_⟩
  have hlast : rootExtent raw' k = single l.toNat p.toNat := by
    have hword16 : ∀ i, i + 2 ≤ 12 → rd16le (bytesAt raw' 40 60) (12 + 12 * k + i) =
        rd16le (le32 l ++ le16 1 ++ le16 0 ++ le32 p) i := by
      intro i hi
      rw [rd16le_bytesAt (by omega), show 40 + (12 + 12 * k + i) = 52 + 12 * k + i by omega, hunfold,
        rd16le_patch_same hpatch (by rw [hext]; omega)]
    have hword32 : ∀ i, i + 4 ≤ 12 → rd32le (bytesAt raw' 40 60) (12 + 12 * k + i) =
        rd32le (le32 l ++ le16 1 ++ le16 0 ++ le32 p) i := by
      intro i hi
      rw [rd32le_bytesAt (by omega), show 40 + (12 + 12 * k + i) = 52 + 12 * k + i by omega, hunfold,
        rd32le_patch_same hpatch (by rw [hext]; omega)]
    have hblock : rd32le (le32 l ++ le16 1 ++ le16 0 ++ le32 p) 0 = l := rd32le_le32 l
    have hlen : rd16le (le32 l ++ le16 1 ++ le16 0 ++ le32 p) 4 = 1 := rd16le_le16 1
    have hhigh : rd16le (le32 l ++ le16 1 ++ le16 0 ++ le32 p) 6 = 0 := rd16le_le16 0
    have hstart : rd32le (le32 l ++ le16 1 ++ le16 0 ++ le32 p) 8 = p := rd32le_le32 p
    have hfirst := hword32 0 (by omega)
    rw [Nat.add_zero] at hfirst
    unfold rootExtent extentEntry
    rw [hfirst, hword16 4 (by omega), hword16 6 (by omega), hword32 8 (by omega), hblock, hlen, hhigh, hstart,
      show (0 : UInt16).toNat = 0 from rfl, Nat.zero_mul, Nat.zero_add]
    rfl
  rw [rootExtents_eq, rootExtents_eq, hcount, hk, range_succ, map_append, map_singleton, hlast]
  congr 1
  apply map_congr_left
  intro i hi
  have hi := mem_range.mp hi
  exact rootExtent_congr (by omega) fun m hlo hhi => hbytes m (by omega) (by omega)

/-- What an insertion does: an extent grows, or there is a new one behind the others, or it is refused. -/
theorem insert_cases (h : RootNode raw) (hfree : ∀ e ∈ rootExtents raw, ¬ e.Seen l.toNat) :
    (∃ (j : ℕ) (hj : j < (rootExtents raw).length) (raw' : Bytes), (rootExtents raw)[j].Grows l.toNat p.toNat ∧
      extentMapInsertLocal raw l p = some raw' ∧ RootNode raw' ∧
      rootExtents raw' = (rootExtents raw).modify j grown) ∨
    (∀ e ∈ rootExtents raw, ¬ e.Grows l.toNat p.toNat) ∧
      ((rd16le raw 42).toNat < (rd16le raw 44).toNat ∧ (∃ raw', extentMapInsertLocal raw l p = some raw' ∧
        RootNode raw' ∧ rootExtents raw' = rootExtents raw ++ [single l.toNat p.toNat]) ∨
      rd16le raw 42 = rd16le raw 44 ∧ extentMapInsertLocal raw l p = none) := by
  have hentries := h.entries
  have hfour := h.max
  have hmem : ∀ j < (rd16le raw 42).toNat, rootExtent raw j ∈ rootExtents raw := by
    intro j hj
    rw [rootExtents_eq]
    exact mem_map_of_mem (mem_range.mpr hj)
  have hgrow := @growExtent_find raw l p (rd16le raw 42).toNat 0 (by omega) fun j hj => hfree _ (hmem j (by omega))
  have haccepted : ¬ (rd16le raw 40 ≠ ext4ExtMagic ∨ rd16le raw 44 < rd16le raw 42 ∨ rd16le raw 46 ≠ 0) := by
    rintro (hmagic | hlt | hdepth)
    · exact hmagic h.magic
    · exact absurd (UInt16.lt_iff_toNat_lt.mp hlt) (by omega)
    · exact hdepth h.depth
  rw [← range_eq_range'] at hgrow
  unfold extentMapInsertLocal
  rw [if_neg haccepted, hgrow]
  cases hfind : (range (rd16le raw 42).toNat).find? fun j => decide ((rootExtent raw j).Grows l.toNat p.toNat) with
  | some j =>
    have hj := mem_range.mp (mem_of_find?_eq_some hfind)
    have hgrows : (rootExtent raw j).Grows l.toNat p.toNat := by
      have htrue := find?_some hfind
      exact of_decide_eq_true htrue
    obtain ⟨hroot, heq⟩ := put_grown h hj hgrows
    refine Or.inl ⟨j, by rwa [length_rootExtents], _, ?_, rfl, hroot, heq⟩
    rwa [getElem_rootExtents]
  | none =>
    refine Or.inr ⟨?_, ?_⟩
    · intro e he hgrows
      rw [rootExtents_eq] at he
      obtain ⟨j, hj, rfl⟩ := mem_map.mp he
      exact find?_eq_none.mp hfind j hj (decide_eq_true hgrows)
    · rw [Option.map_none]
      dsimp only
      rcases hentries.lt_or_eq with hroom | hfull
      · obtain ⟨hroot, heq⟩ := @put_added raw l p h hroom
        rw [if_neg (by rw [UInt16.le_iff_toNat_le]; omega)]
        exact Or.inl ⟨hroom, _, rfl, hroot, heq⟩
      have hsame := UInt16.toNat.inj hfull
      rw [hsame, if_pos (UInt16.le_iff_toNat_le.mpr le_rfl)]
      exact Or.inr ⟨rfl, rfl⟩

structure RootMap (raw : Bytes) : Prop extends RootNode raw where
  map : ExtentMap (rootExtents raw)

/-- What an insertion is to do: the block is found and the others as before, the map stays one for every reader, and it
is refused only by a full root. -/
def InsertRight (fs : Ext4Fs) (raw : Bytes) (l p : UInt32) : Prop :=
  match extentMapInsertLocal raw l p with
  | some raw' => fs.extentFindPhysFromNode l (2 ^ 32) (bytesAt raw' 40 60) = some p ∧
      (∀ l', l' ≠ l → fs.extentFindPhysFromNode l' (2 ^ 32) (bytesAt raw' 40 60) =
        fs.extentFindPhysFromNode l' (2 ^ 32) (bytesAt raw 40 60)) ∧ RootMap raw'
  | none => rd16le raw 42 = rd16le raw 44 ∧ ∀ e ∈ rootExtents raw, ¬ e.Extends l.toNat p.toNat

/-- The last block number is not used, nor is an extent taken for one that ends before block 0; a new extent lies behind
all others; and where the root is full, no extent would grow to 0x8000 blocks. -/
def InsertsInOrder (raw : Bytes) (l p : ℕ) : Prop :=
  if ∃ e ∈ rootExtents raw, e.Grows l p then 0 < l ∧ l + 1 < 2 ^ 32
  else if rd16le raw 42 ≠ rd16le raw 44 then l + 1 < 2 ^ 32 ∧ ∀ e ∈ rootExtents raw, e.block + e.len ≤ l
  else ∀ e ∈ rootExtents raw, e.len = 0x7FFF → ¬ e.Extends l p

instance (raw : Bytes) (l p : ℕ) : Decidable (InsertsInOrder raw l p) := by
  unfold InsertsInOrder
  infer_instance

/-- The search in a root after an insertion, as searches in its extents. -/
theorem found_iff (h : RootNode raw) (h' : RootNode raw') (fs : Ext4Fs) :
    (fs.extentFindPhysFromNode l (2 ^ 32) (bytesAt raw' 40 60) = some p ∧
      ∀ l', l' ≠ l → fs.extentFindPhysFromNode l' (2 ^ 32) (bytesAt raw' 40 60) =
        fs.extentFindPhysFromNode l' (2 ^ 32) (bytesAt raw 40 60)) ↔
    seenPhys (rootExtents raw') l.toNat = some p.toNat ∧
      ∀ l' : UInt32, l' ≠ l → seenPhys (rootExtents raw') l'.toNat = seenPhys (rootExtents raw) l'.toNat := by
  have hinj : Function.Injective (Option.map UInt32.toNat) := Option.map_injective fun _ _ => toNat_inj.mp
  constructor
  · rintro ⟨hfound, hkept⟩
    refine ⟨?_, fun l' hl' => ?_⟩
    · rw [← h'.find fs l, hfound]
      rfl
    · rw [← h'.find fs l', ← h.find fs l', hkept l' hl']
  · rintro ⟨hfound, hkept⟩
    refine ⟨hinj ?_, fun l' hl' => hinj ?_⟩
    · rw [h'.find fs l, hfound]
      rfl
    · rw [h'.find fs l', h.find fs l', hkept l' hl']

end Roots

/-- An insertion does what it is to exactly in this order. -/
theorem extent_insertion_exact (fs : Ext4Fs) (raw : Bytes) (l p : UInt32) (h : RootMap raw)
    (hfree : ∀ e ∈ rootExtents raw, ¬ e.Covers l.toNat) :
    InsertRight fs raw l p ↔ InsertsInOrder raw l.toNat p.toNat := by
  have hnode := h.toRootNode
  have hp := p.toNat_lt
  have hl := l.toNat_lt
  have hunseen : ∀ e ∈ rootExtents raw, ¬ e.Seen l.toNat := fun e he hseen =>
    hfree e he ((h.map.initialised e he).seen_covers hseen)
  have hpast : ∀ e : Extent, e.Initialised → e.block + e.len ≤ 2 ^ 32 := fun e he => he.ends
  unfold InsertRight InsertsInOrder
  rcases @insert_cases raw l p hnode hunseen with ⟨j, hj, raw', hgrows, hsome, hnode', heq⟩ | ⟨hnot, hrest⟩
  · have hmem : (rootExtents raw)[j] ∈ rootExtents raw := List.getElem_mem hj
    have hinit := h.map.initialised _ hmem
    have hlen := hinit.grown_len hgrows
    obtain ⟨hlEq, -, hshort⟩ := hinit.grows_iff.mp hgrows
    have hpos := hinit.pos
    have hends := hinit.ends
    rw [hsome, if_pos ⟨_, hmem, hgrows⟩]
    dsimp only
    rw [← and_assoc, found_iff hnode hnode' fs, heq]
    constructor
    · rintro ⟨⟨hfound, -⟩, hmap⟩
      have hin : (rootExtents raw)[j].grown ∈ rootExtents raw' := by
        have hlt : j < ((rootExtents raw).modify j Extent.grown).length := by rwa [List.length_modify]
        have hget : ((rootExtents raw).modify j Extent.grown)[j] = (rootExtents raw)[j].grown := by
          rw [List.getElem_modify, if_pos rfl]
        rw [heq, ← hget]
        exact List.getElem_mem _
      have hgrown := hmap.map.initialised _ hin
      have hbound := hgrown.ends
      rw [hlen] at hbound
      dsimp only at hbound
      refine ⟨by omega, ?_⟩
      -- the driver does not see the last block number
      by_contra hlast
      obtain ⟨e, he, -⟩ := Option.map_eq_some_iff.mp hfound
      obtain ⟨hmem', hseen⟩ := find?_holds he
      rcases mem_modify hj hmem' with rfl | hold
      · obtain ⟨-, hwrap, -⟩ := hgrown.seen_iff.mp hseen
        rw [hlen] at hwrap
        dsimp only at hwrap
        omega
      · exact hunseen e hold hseen
    · rintro ⟨hzero, hlast⟩
      obtain ⟨hmap, hfound, hkept⟩ := h.map.grown hfree hj hgrows (by omega) hlast
      refine ⟨⟨hfound, fun l' hl' => hkept _ (UInt32.toNat_inj.not.mpr hl')⟩, hnode', ?_⟩
      rwa [heq]
  · have hnone : ¬ ∃ e ∈ rootExtents raw, e.Grows l.toNat p.toNat := by
      rintro ⟨e, he, hgrows⟩
      exact hnot e he hgrows
    rw [if_neg hnone]
    rcases hrest with ⟨hroom, raw', hsome, hnode', heq⟩ | ⟨hfull, hrefused⟩
    · have hne : rd16le raw 42 ≠ rd16le raw 44 := fun hsame => by
        rw [hsame] at hroom
        exact lt_irrefl _ hroom
      rw [hsome, if_pos hne]
      dsimp only
      rw [← and_assoc, found_iff hnode hnode' fs, heq]
      constructor
      · rintro ⟨⟨hfound, -⟩, hmap⟩
        have hsorted := hmap.map.sorted
        rw [heq, List.pairwise_append] at hsorted
        refine ⟨?_, fun e he => ?_⟩
        · by_contra hlast
          obtain ⟨e, he, -⟩ := Option.map_eq_some_iff.mp hfound
          obtain ⟨hmem', hseen⟩ := find?_holds he
          rcases List.mem_append.mp hmem' with hold | hnew
          · exact hunseen e hold hseen
          rw [List.mem_singleton.mp hnew] at hseen
          unfold Extent.Seen Extent.single at hseen
          dsimp only at hseen
          omega
        · have hbefore := hsorted.2.2 e he _ (List.mem_singleton_self _)
          unfold Extent.Before at hbefore
          rwa [(h.map.initialised e he).blocks_eq] at hbefore
      · rintro ⟨hlast, hbehind⟩
        obtain ⟨hmap, hfound, hkept⟩ := h.map.added hfree hlast hp hbehind
        refine ⟨⟨hfound, fun l' hl' => hkept _ (UInt32.toNat_inj.not.mpr hl')⟩, hnode', ?_⟩
        rwa [heq]
    · rw [hrefused, if_neg (not_not.mpr hfull)]
      dsimp only
      rw [and_iff_right hfull]
      constructor
      · intro hnone' e he _
        exact hnone' e he
      · intro hlimit e he hextends
        have hinit := h.map.initialised e he
        obtain ⟨hlEq, hpEq, hshort⟩ := id hextends
        apply hlimit e he _ hextends
        by_contra hne
        refine hnot e he (hinit.grows_iff.mpr ⟨?_, ?_, by omega⟩)
        · rw [← hlEq, Nat.mod_eq_of_lt hl]
        · rw [← hpEq, Nat.mod_eq_of_lt hp]

def sparseRaw : Bytes :=
  zeros 34 ++ [8] ++ zeros 5 ++ [0x0A, 0xF3, 1, 0, 4] ++ zeros 7 ++ [4, 0, 0, 0, 1, 0, 0, 0, 30] ++ zeros 67

theorem sparse_extents : rootExtents sparseRaw = [⟨4, 1, 30⟩] := by decide +kernel

theorem sparse_map : RootMap sparseRaw := by
  refine ⟨⟨by decide +kernel, by decide, by decide, by decide, by decide⟩, ?_, ?_⟩
  · rw [sparse_extents]
    exact pairwise_singleton _ _
  · rw [sparse_extents]
    intro e he
    rw [mem_singleton.mp he]
    exact ⟨by decide, by decide, by decide⟩

theorem sparse_free {l : ℕ} (hl : l ≠ 4) : ∀ e ∈ rootExtents sparseRaw, ¬ e.Covers l := by
  rw [sparse_extents]
  intro e he
  rw [mem_singleton.mp he]
  unfold Extent.Covers
  change ¬ (4 ≤ l ∧ l < 4 + 1)
  omega

def missingFs : Ext4Fs where
  bdev := { sectorSize := 512, sector := fun _ => none }
  inodesCount := 0
  firstDataBlock := 0
  inodesPerGroup := 0
  inodeSize := 0
  blockSize := 1024

/-- A block behind the extent is inserted. -/
theorem block_behind_inserted : InsertRight missingFs sparseRaw 9 7 :=
  (extent_insertion_exact missingFs sparseRaw 9 7 sparse_map (sparse_free (by decide))).mpr (by decide +kernel)

/-- A block before the extent is put behind it. -/
theorem block_before_misplaced : ¬ ∀ (fs : Ext4Fs) (raw : Bytes) (l p : UInt32), RootMap raw →
    (∀ e ∈ rootExtents raw, ¬ e.Covers l.toNat) → InsertRight fs raw l p := by
  intro hclaim
  have hright := hclaim missingFs sparseRaw 0 7 sparse_map (sparse_free (by decide))
  have hsome : extentMapInsertLocal sparseRaw 0 7 = some (addExtent sparseRaw 0 7) := by decide +kernel
  have hextents : rootExtents (addExtent sparseRaw 0 7) = [⟨4, 1, 30⟩, ⟨0, 1, 7⟩] := by decide +kernel
  unfold InsertRight at hright
  rw [hsome] at hright
  dsimp only at hright
  obtain ⟨-, -, hmap⟩ := hright
  have hsorted := hmap.map.sorted
  rw [hextents, List.pairwise_pair] at hsorted
  exact absurd hsorted (by unfold Extent.Before; decide)

end EdgeOS
