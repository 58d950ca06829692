import EdgeOS.Buffer
import EdgeOS.ElfLoader

namespace EdgeOS

/-!
Bytes in the memory of a task: what is read after a store, words as their bytes, and stores side by side.
-/

open List Memory
open UInt64 (sub_eq_add_neg toNat_ofNat')

/-- The `n` bytes from an address on. -/
def Memory.bytes (m : Memory) (addr : UInt64) (n : ℕ) : Bytes := (List.range n).map fun i => m (addr + i.toUInt64)

/-- The `n` words from an address on. -/
def Memory.words (m : Memory) (addr : UInt64) (n : ℕ) : List UInt64 :=
  (List.range n).map fun i => m.word (addr + (8 * i).toUInt64)

/-! ## Parts of a buffer -/

theorem bytesAt_zero (b : Bytes) (off : ℕ) : bytesAt b off 0 = [] := take_zero

theorem bytesAt_add (b : Bytes) (off n k : ℕ) : bytesAt b off (n + k) = bytesAt b off n ++ bytesAt b (off + n) k := by
  unfold bytesAt
  rw [take_add, drop_drop]

theorem bytesAt_all (b : Bytes) : bytesAt b 0 b.length = b := by
  unfold bytesAt
  rw [drop_zero, take_length]

/-! ## Addresses -/

theorem add_toUInt64 (addr : UInt64) (m n : ℕ) : addr + (m + n).toUInt64 = addr + m.toUInt64 + n.toUInt64 := by
  rw [UInt64.add_assoc]
  exact congrArg (addr + ·) (UInt64.ofNat_add _ _)

theorem sub_toUInt64 (addr : UInt64) (m n : ℕ) : addr - (m + n).toUInt64 = addr - m.toUInt64 - n.toUInt64 := by
  rw [show (m + n).toUInt64 = m.toUInt64 + n.toUInt64 from UInt64.ofNat_add _ _, sub_eq_add_neg,
    UInt64.neg_add, sub_eq_add_neg, sub_eq_add_neg, sub_eq_add_neg, UInt64.add_assoc]

theorem toNat_add_of_fit {a : UInt64} {n : ℕ} (h : a.toNat + n < 2 ^ 64) : (a + n.toUInt64).toNat = a.toNat + n := by
  rw [UInt64.toNat_add, Nat.toUInt64_eq, toNat_ofNat', Nat.mod_eq_of_lt (show n < 2 ^ 64 by omega),
    Nat.mod_eq_of_lt h]

theorem toNat_sub_of_fit {a : UInt64} {n : ℕ} (h : n ≤ a.toNat) : (a - n.toUInt64).toNat = a.toNat - n := by
  have hlt := a.toNat_lt
  have hn : n.toUInt64.toNat = n := by
    rw [Nat.toUInt64_eq, toNat_ofNat', Nat.mod_eq_of_lt (by omega)]
  rw [UInt64.toNat_sub_of_le _ _ (UInt64.le_iff_toNat_le.mpr (by rwa [hn])), hn]

theorem sub_add_toNat (a addr : UInt64) {n : ℕ} (hn : n < 2 ^ 64) :
    (a - (addr + n.toUInt64)).toNat = (2 ^ 64 - n + (a - addr).toNat) % 2 ^ 64 := by
  have hback : a - (addr + n.toUInt64) = a - addr - n.toUInt64 := by
    rw [sub_eq_add_neg, UInt64.neg_add, sub_eq_add_neg, sub_eq_add_neg, sub_eq_add_neg,
      UInt64.add_assoc]
  rw [hback, UInt64.toNat_sub, Nat.toUInt64_eq, toNat_ofNat', Nat.mod_eq_of_lt hn]

/-! ## Stores -/

section Stores

variable (m : Memory) (addr : UInt64)

theorem stored_nil : m.stored addr [] = m := by
  funext a
  exact if_neg (Nat.not_lt_zero _)

theorem stored_append {xs ys : Bytes} (h : xs.length + ys.length ≤ 2 ^ 64) :
    (m.stored addr xs).stored (addr + xs.length.toUInt64) ys = m.stored addr (xs ++ ys) := by
  funext a
  have ha := (a - addr).toNat_lt
  by_cases hys : ys = []
  · rw [hys, stored_nil, append_nil]
  have hpos := length_pos_of_ne_nil hys
  unfold stored rd8
  rw [sub_add_toNat a addr (show xs.length < 2 ^ 64 by omega), length_append]
  by_cases hx : (a - addr).toNat < xs.length
  · rw [if_neg (by omega), if_pos hx, if_pos (by omega), getD_append _ _ _ _ hx]
  have hi : (2 ^ 64 - xs.length + (a - addr).toNat) % 2 ^ 64 = (a - addr).toNat - xs.length := by omega
  rw [hi, if_neg hx, getD_append_right _ _ _ _ (by omega)]
  by_cases hy : (a - addr).toNat - xs.length < ys.length
  · rw [if_pos hy, if_pos (by omega)]
  · rw [if_neg hy, if_neg (by omega)]

theorem stored_below {xs ys : Bytes} (h : xs.length + ys.length ≤ 2 ^ 64) :
    (m.stored (addr + xs.length.toUInt64) ys).stored addr xs = m.stored addr (xs ++ ys) := by
  rw [← stored_append m addr h]
  funext a
  have ha := (a - addr).toNat_lt
  by_cases hys : ys = []
  · rw [hys, stored_nil, stored_nil]
  have hpos := length_pos_of_ne_nil hys
  unfold stored
  rw [sub_add_toNat a addr (show xs.length < 2 ^ 64 by omega)]
  by_cases hx : (a - addr).toNat < xs.length
  · rw [if_pos hx, if_neg (by omega), if_pos hx]
  · rw [if_neg hx, if_neg hx]

end Stores

/-! ## Reads -/

section Reads

variable (m : Memory) (addr : UInt64)

theorem bytes_length (n : ℕ) : (m.bytes addr n).length = n := by
  unfold bytes
  rw [length_map, length_range]

theorem getElem_bytes {n i : ℕ} (h : i < (m.bytes addr n).length) : (m.bytes addr n)[i] = m (addr + i.toUInt64) := by
  simp only [bytes, getElem_map, getElem_range]

theorem bytes_add (n k : ℕ) : m.bytes addr (n + k) = m.bytes addr n ++ m.bytes (addr + n.toUInt64) k := by
  unfold bytes
  rw [range_add, map_append, map_map]
  congr 2
  funext i
  exact congrArg m (add_toUInt64 addr n i)

theorem bytes_stored {xs : Bytes} {k n : ℕ} (h : k + n ≤ xs.length) (hlen : xs.length ≤ 2 ^ 64) :
    (m.stored addr xs).bytes (addr + k.toUInt64) n = bytesAt xs k n := by
  have hat : (bytesAt xs k n).length = n := by
    unfold bytesAt
    rw [length_take, length_drop]
    omega
  apply ext_getElem
  · rw [bytes_length, hat]
  · intro i hi hi'
    have hin : i < n := by rwa [hat] at hi'
    have hoff : (addr + k.toUInt64 + i.toUInt64 - addr).toNat = k + i := by
      rw [← add_toUInt64, UInt64.add_comm, UInt64.add_sub_cancel, Nat.toUInt64_eq, toNat_ofNat',
        Nat.mod_eq_of_lt (by omega)]
    rw [getElem_bytes]
    unfold stored
    rw [hoff, if_pos (by omega)]
    unfold rd8
    simp only [bytesAt, getElem_take, getElem_drop]
    exact getD_eq_getElem _ _ (by omega)

theorem bytes_stored_all {xs : Bytes} (hlen : xs.length ≤ 2 ^ 64) : (m.stored addr xs).bytes addr xs.length = xs := by
  have h : (m.stored addr xs).bytes (addr + Nat.toUInt64 0) xs.length = bytesAt xs 0 xs.length :=
    bytes_stored m addr (by omega) hlen
  rwa [bytesAt_all, show Nat.toUInt64 0 = 0 from rfl, UInt64.add_zero] at h

theorem stored_apart {a : UInt64} {xs : Bytes} (hend : addr.toNat + xs.length ≤ 2 ^ 64)
    (h : a.toNat < addr.toNat ∨ addr.toNat + xs.length ≤ a.toNat) : m.stored addr xs a = m a := by
  have ha := a.toNat_lt
  have haddr := addr.toNat_lt
  unfold stored
  rw [UInt64.toNat_sub, if_neg (by omega)]

theorem bytes_stored_apart {a : UInt64} {n : ℕ} {xs : Bytes} (hend : addr.toNat + xs.length ≤ 2 ^ 64)
    (hn : a.toNat + n ≤ 2 ^ 64) (h : a.toNat + n ≤ addr.toNat ∨ addr.toNat + xs.length ≤ a.toNat) :
    (m.stored addr xs).bytes a n = m.bytes a n := by
  unfold bytes
  apply map_congr_left
  intro i hi
  have hin := mem_range.mp hi
  apply stored_apart m addr hend
  rw [toNat_add_of_fit (by omega)]
  omega

end Reads

/-! ## Words -/

theorem wordBytes_length (v : UInt64) : (wordBytes v).length = 8 := by
  unfold wordBytes
  rw [length_map, length_range]

theorem words_length (vs : List UInt64) : (vs.flatMap wordBytes).length = 8 * vs.length := by
  induction vs with
  | nil => rfl
  | cons v vs ih =>
    rw [flatMap_cons, length_append, wordBytes_length, ih, length_cons]
    omega

theorem setWidth_byte (x : BitVec 64) {n : ℕ} (hn : n ≤ 24) :
    (x >>> n).setWidth 8 = ((x.setWidth 32) >>> n).setWidth 8 := by
  ext k hk
  simp only [BitVec.getElem_setWidth, BitVec.getLsbD_ushiftRight, BitVec.getLsbD_setWidth,
    show n + k < 32 by omega, decide_true, Bool.true_and]

theorem wordBytes_halves (v : UInt64) : wordBytes v = le32 v.toUInt32 ++ le32 (v >>> 32).toUInt32 := by
  have hlow : ∀ n ≤ 24, (v.toBitVec >>> n).setWidth 8 = ((v.toBitVec.setWidth 32) >>> n).setWidth 8 :=
    fun n hn => setWidth_byte _ hn
  have hhigh : ∀ n ≤ 24, (v.toBitVec >>> (32 + n)).setWidth 8 =
      (((v.toBitVec >>> 32).setWidth 32) >>> n).setWidth 8 := by
    intro n hn
    rw [BitVec.shiftRight_add]
    exact setWidth_byte _ hn
  have hbyte : ∀ {a b : UInt8}, a.toBitVec = b.toBitVec → a = b := UInt8.toBitVec_inj.mp
  change [_, _, _, _, _, _, _, _] = [_, _, _, _, _, _, _, _]
  simp only [cons.injEq]
  exact ⟨hbyte (hlow 0 (by omega)), hbyte (hlow 8 (by omega)), hbyte (hlow 16 (by omega)), hbyte (hlow 24 (by omega)),
    hbyte (hhigh 0 (by omega)), hbyte (hhigh 8 (by omega)), hbyte (hhigh 16 (by omega)), hbyte (hhigh 24 (by omega)),
    trivial⟩

theorem rd64le_wordBytes (v : UInt64) : rd64le (wordBytes v) 0 = v := by
  have hlow : rd32le (le32 v.toUInt32 ++ le32 (v >>> 32).toUInt32) 0 = v.toUInt32 := rd32le_le32 v.toUInt32
  have hhigh : rd32le (le32 v.toUInt32 ++ le32 (v >>> 32).toUInt32) 4 = (v >>> 32).toUInt32 :=
    rd32le_le32 (v >>> 32).toUInt32
  unfold rd64le
  rw [wordBytes_halves, Nat.zero_add, hlow, hhigh]
  apply UInt64.toBitVec_inj.mp
  change (v.toBitVec.setWidth 32).setWidth 64 ||| ((v.toBitVec >>> 32).setWidth 32).setWidth 64 <<< 32 = v.toBitVec
  ext k hk
  simp only [BitVec.getElem_or, BitVec.getElem_setWidth, BitVec.getElem_shiftLeft, BitVec.getLsbD_setWidth]
  have hbit := BitVec.getLsbD_eq_getElem (x := v.toBitVec) hk
  by_cases hlo : k < 32
  · simp [hlo, hbit]
  · simp [hlo, show k - 32 < 32 by omega, show 32 + (k - 32) = k by omega, hbit]

theorem word_eq_bytes (m : Memory) (addr : UInt64) : m.word addr = rd64le (m.bytes addr 8) 0 := rfl

theorem words_cons (m : Memory) (addr : UInt64) (n : ℕ) : m.words addr (n + 1) = m.word addr :: m.words (addr + 8) n := by
  unfold words
  rw [range_succ_eq_map, map_cons, map_map]
  congr 1
  · exact congrArg m.word (UInt64.add_zero addr)
  · apply map_congr_left
    intro i _
    change m.word (addr + (8 * (i + 1)).toUInt64) = m.word (addr + 8 + (8 * i).toUInt64)
    rw [show 8 * (i + 1) = 8 + 8 * i by omega, add_toUInt64]
    rfl

theorem words_of_bytes (m : Memory) : ∀ (vs : List UInt64) (addr : UInt64),
    m.bytes addr (8 * vs.length) = vs.flatMap wordBytes → m.words addr vs.length = vs := by
  intro vs
  induction vs with
  | nil =>
    intro addr _
    rfl
  | cons v vs ih =>
    intro addr h
    rw [length_cons, show 8 * (vs.length + 1) = 8 + 8 * vs.length by omega, bytes_add, flatMap_cons] at h
    obtain ⟨hword, hrest⟩ := append_inj h (by rw [bytes_length, wordBytes_length])
    rw [length_cons, words_cons, word_eq_bytes, hword, rd64le_wordBytes, ih (addr + 8) hrest]

end EdgeOS
