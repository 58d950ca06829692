import Mathlib.Data.List.GetD
import EdgeOS.Ext4

namespace EdgeOS

/-!
Buffers that are written: bytes copied into a buffer, and little-endian words of it that are set.
-/

open List

/-- `memcpy` into a buffer. -/
def patch (b : Bytes) (off : ℕ) (xs : Bytes) : Bytes := b.take off ++ xs ++ b.drop (off + xs.length)

def le16 (v : UInt16) : Bytes := [v.toUInt8, (v >>> 8).toUInt8]

def le32 (v : UInt32) : Bytes := [v.toUInt8, (v >>> 8).toUInt8, (v >>> 16).toUInt8, (v >>> 24).toUInt8]

def put16 (b : Bytes) (off : ℕ) (v : UInt16) : Bytes := patch b off (le16 v)

def zeros (n : ℕ) : Bytes := List.replicate n 0

section Patch

variable {b xs : Bytes} {off i : ℕ}

theorem length_patch (h : off + xs.length ≤ b.length) : (patch b off xs).length = b.length := by
  unfold patch
  rw [length_append, length_append, length_take, length_drop]
  omega

theorem rd8_patch (h : off + xs.length ≤ b.length) :
    rd8 (patch b off xs) i = if off ≤ i ∧ i < off + xs.length then rd8 xs (i - off) else rd8 b i := by
  have htake : (b.take off).length = off := by
    rw [length_take]
    omega
  unfold patch rd8
  by_cases hlo : i < off
  · rw [if_neg (by omega), append_assoc, getD_append _ _ _ _ (by omega), getD_eq_getElem?_getD,
      getElem?_take, if_pos hlo, getD_eq_getElem?_getD]
  by_cases hhi : i < off + xs.length
  · rw [if_pos ⟨by omega, hhi⟩, getD_append _ _ _ _ (by rw [length_append]; omega),
      getD_append_right _ _ _ _ (by omega), htake]
  rw [if_neg (by omega), getD_append_right _ _ _ _ (by rw [length_append]; omega),
    length_append, htake, getD_eq_getElem?_getD, getElem?_drop, getD_eq_getElem?_getD]
  congr 2
  omega

theorem rd8_patch_other (h : off + xs.length ≤ b.length) (hi : i < off ∨ off + xs.length ≤ i) :
    rd8 (patch b off xs) i = rd8 b i := by
  rw [rd8_patch h, if_neg (by omega)]

theorem rd8_patch_same (h : off + xs.length ≤ b.length) (hi : i < xs.length) :
    rd8 (patch b off xs) (off + i) = rd8 xs i := by
  rw [rd8_patch h, if_pos (by omega), Nat.add_sub_cancel_left]

theorem rd16le_patch_same (h : off + xs.length ≤ b.length) (hi : i + 2 ≤ xs.length) :
    rd16le (patch b off xs) (off + i) = rd16le xs i := by
  unfold rd16le
  rw [Nat.add_assoc, rd8_patch_same h (by omega), rd8_patch_same h (by omega)]

theorem rd32le_patch_same (h : off + xs.length ≤ b.length) (hi : i + 4 ≤ xs.length) :
    rd32le (patch b off xs) (off + i) = rd32le xs i := by
  unfold rd32le
  rw [Nat.add_assoc, Nat.add_assoc, Nat.add_assoc, rd8_patch_same h (by omega), rd8_patch_same h (by omega),
    rd8_patch_same h (by omega), rd8_patch_same h (by omega)]

theorem rd16le_congr {b b' : Bytes} (h : ∀ j, i ≤ j → j < i + 2 → rd8 b' j = rd8 b j) : rd16le b' i = rd16le b i := by
  unfold rd16le
  rw [h i (by omega) (by omega), h (i + 1) (by omega) (by omega)]

theorem rd32le_congr {b b' : Bytes} (h : ∀ j, i ≤ j → j < i + 4 → rd8 b' j = rd8 b j) : rd32le b' i = rd32le b i := by
  unfold rd32le
  rw [h i (by omega) (by omega), h (i + 1) (by omega) (by omega), h (i + 2) (by omega) (by omega),
    h (i + 3) (by omega) (by omega)]

theorem rd16le_patch_other (h : off + xs.length ≤ b.length) (hi : i + 2 ≤ off ∨ off + xs.length ≤ i) :
    rd16le (patch b off xs) i = rd16le b i := by
  exact rd16le_congr fun j hlo hhi => rd8_patch_other h (by omega)

theorem rd8_append_left {a b : Bytes} (hi : i < a.length) : rd8 (a ++ b) i = rd8 a i :=
  getD_append _ _ _ _ hi

theorem rd8_append_right {a b : Bytes} (hi : a.length ≤ i) : rd8 (a ++ b) i = rd8 b (i - a.length) :=
  getD_append_right _ _ _ _ hi

theorem rd8_take {k : ℕ} (hi : i < k) : rd8 (b.take k) i = rd8 b i := by
  unfold rd8
  rw [getD_eq_getElem?_getD, getElem?_take, if_pos hi, getD_eq_getElem?_getD]

theorem rd8_drop (b : Bytes) (k i : ℕ) : rd8 (b.drop k) i = rd8 b (k + i) := by
  unfold rd8
  rw [getD_eq_getElem?_getD, getElem?_drop, getD_eq_getElem?_getD]

theorem rd8_bytesAt {n : ℕ} (hi : i < n) : rd8 (bytesAt b off n) i = rd8 b (off + i) := by
  unfold bytesAt
  rw [rd8_take hi, rd8_drop]

theorem length_bytesAt {n : ℕ} (h : off + n ≤ b.length) : (bytesAt b off n).length = n := by
  unfold bytesAt
  rw [length_take, length_drop]
  omega

theorem rd16le_bytesAt {b : Bytes} {off n i : ℕ} (hi : i + 2 ≤ n) : rd16le (bytesAt b off n) i = rd16le b (off + i) := by
  unfold rd16le
  rw [rd8_bytesAt (by omega), rd8_bytesAt (by omega), Nat.add_assoc]

theorem rd32le_bytesAt {b : Bytes} {off n i : ℕ} (hi : i + 4 ≤ n) : rd32le (bytesAt b off n) i = rd32le b (off + i) := by
  unfold rd32le
  rw [rd8_bytesAt (by omega), rd8_bytesAt (by omega), rd8_bytesAt (by omega), rd8_bytesAt (by omega), Nat.add_assoc,
    Nat.add_assoc, Nat.add_assoc]

theorem rd8_zeros (n i : ℕ) : rd8 (zeros n) i = 0 := by
  unfold zeros rd8
  rw [getD_eq_getElem?_getD, getElem?_replicate]
  split
  · rfl
  · rfl

theorem rd8_map_range {n : ℕ} (f : ℕ → UInt8) (hi : i < n) : rd8 ((List.range n).map f) i = f i := by
  unfold rd8
  rw [getD_eq_getElem _ _ (by rwa [length_map, length_range]), getElem_map, getElem_range]

theorem ext_rd8 {b b' : Bytes} (hlen : b.length = b'.length) (h : ∀ i < b.length, rd8 b i = rd8 b' i) : b = b' := by
  apply ext_getElem hlen
  intro i hi hi'
  have hb := h i hi
  unfold rd8 at hb
  rwa [getD_eq_getElem _ _ hi, getD_eq_getElem _ _ hi'] at hb

end Patch

/-! ## Words -/

section Words

variable {b : Bytes} {off i : ℕ}

theorem le16_length (v : UInt16) : (le16 v).length = 2 := rfl

theorem le32_length (v : UInt32) : (le32 v).length = 4 := rfl

theorem rd16le_le16 (v : UInt16) : rd16le (le16 v) 0 = v := by
  apply UInt16.toBitVec_inj.mp
  change (v.toBitVec.setWidth 8).setWidth 16 ||| ((v.toBitVec >>> 8).setWidth 8).setWidth 16 <<< 8 = v.toBitVec
  ext k hk
  simp only [BitVec.getElem_or, BitVec.getElem_setWidth, BitVec.getElem_shiftLeft, BitVec.getLsbD_setWidth]
  by_cases hlo : k < 8
  · simp [hlo, BitVec.getLsbD_eq_getElem hk]
  · simp [hlo, show k - 8 < 8 by omega, show 8 + (k - 8) = k by omega, BitVec.getLsbD_eq_getElem hk]

theorem rd32le_le32 (v : UInt32) : rd32le (le32 v) 0 = v := by
  apply UInt32.toBitVec_inj.mp
  change (v.toBitVec.setWidth 8).setWidth 32 ||| ((v.toBitVec >>> 8).setWidth 8).setWidth 32 <<< 8 |||
    ((v.toBitVec >>> 16).setWidth 8).setWidth 32 <<< 16 ||| ((v.toBitVec >>> 24).setWidth 8).setWidth 32 <<< 24 =
      v.toBitVec
  ext k hk
  simp only [BitVec.getElem_or, BitVec.getElem_setWidth, BitVec.getElem_shiftLeft, BitVec.getLsbD_setWidth]
  have hbit := BitVec.getLsbD_eq_getElem (x := v.toBitVec) hk
  -- one byte after the other
  rcases Nat.lt_or_ge k 8 with h8 | h8
  · simp [h8, hbit, show k < 16 by omega, show k < 24 by omega]
  rcases Nat.lt_or_ge k 16 with h16 | h16
  · simp [show ¬ k < 8 by omega, h16, show k < 24 by omega, show k - 8 < 8 by omega, show 8 + (k - 8) = k by omega,
      hbit]
  rcases Nat.lt_or_ge k 24 with h24 | h24
  · simp [show ¬ k < 8 by omega, show ¬ k < 16 by omega, h24, show ¬ k - 8 < 8 by omega, show k - 16 < 8 by omega,
      show 16 + (k - 16) = k by omega, hbit]
  · simp [show ¬ k < 8 by omega, show ¬ k < 16 by omega, show ¬ k < 24 by omega, show ¬ k - 8 < 8 by omega,
      show ¬ k - 16 < 8 by omega, show k - 24 < 8 by omega, show 24 + (k - 24) = k by omega, hbit]

theorem length_put16 {v : UInt16} (h : off + 2 ≤ b.length) : (put16 b off v).length = b.length := length_patch h

theorem rd16le_put16 {v : UInt16} (h : off + 2 ≤ b.length) : rd16le (put16 b off v) off = v :=
  (@rd16le_patch_same b (le16 v) off 0 h (Nat.le_refl 2)).trans (rd16le_le16 v)

theorem rd8_put16_other {v : UInt16} (h : off + 2 ≤ b.length) (hi : i < off ∨ off + 2 ≤ i) :
    rd8 (put16 b off v) i = rd8 b i := rd8_patch_other h hi

end Words

end EdgeOS
