import Mathlib.Data.List.Basic
import Mathlib.Data.List.GetD

namespace EdgeOS

/-! Copies between kernel and user memory, `user_range_ok` and its callers in `syscall.c`. -/

open List

abbrev userMinAddr : UInt64 := 0x1000

abbrev userMaxAddr : UInt64 := 0x40000000

/-- `user_range_ok`. The sum `addr + len` wraps as it does in C. -/
def userRangeOk (addr len : UInt64) : Bool :=
  if addr < userMinAddr then false
  else if addr ≥ userMaxAddr then false
  else if len = 0 then true
  else if addr + len < addr then false
  else if addr + len > userMaxAddr then false
  else true

abbrev Memory := UInt64 → UInt8

/-- The addresses a `memcpy` of `(uint32_t)len` bytes at `addr` touches. -/
def copyAddrs (addr len : UInt64) : List UInt64 :=
  (List.range len.toUInt32.toNat).map fun i => addr + UInt64.ofNat i

/-- `copy_from_user`: the bytes read, or nothing when the range is refused. -/
def copyFromUser (mem : Memory) (srcU len : UInt64) : Option (List UInt8) :=
  if userRangeOk srcU len then some ((copyAddrs srcU len).map mem) else none

def copyToUser (mem : Memory) (dstU : UInt64) (src : List UInt8) (len : UInt64) : Option Memory :=
  if userRangeOk dstU len then
    some fun a =>
      match ((copyAddrs dstU len).zip src).find? fun p => p.1 == a with
      | some p => p.2
      | none => mem a
  else none

theorem userRangeOk_iff (addr len : UInt64) : userRangeOk addr len = true ↔
      0x1000 ≤ addr.toNat ∧ addr.toNat < 0x40000000 ∧ addr.toNat + len.toNat ≤ 0x40000000 := by
  have h1 := addr.toNat_lt
  have h2 := len.toNat_lt
  have hlen : len = 0 ↔ len.toNat = 0 := by
    rw [← UInt64.toNat_inj]
    rfl
  have hmin : userMinAddr.toNat = 0x1000 := rfl
  have hmax : userMaxAddr.toNat = 0x40000000 := rfl
  unfold userRangeOk
  simp only [UInt64.lt_iff_toNat_lt, UInt64.le_iff_toNat_le, ge_iff_le, gt_iff_lt, hlen, UInt64.toNat_add, hmin, hmax]
  split_ifs <;> simp <;> omega

def Memory.put (mem : Memory) (dst : UInt64) (src : List UInt8) : Memory := fun a =>
  if dst ≤ a ∧ a.toNat < dst.toNat + src.length then src.getD (a.toNat - dst.toNat) 0 else mem a

theorem Memory.put_of_ge (mem : Memory) {dst a : UInt64} (src : List UInt8) (h : dst.toNat + src.length ≤ a.toNat) :
    mem.put dst src a = mem a :=
  if_neg fun hc => absurd hc.2 (Nat.not_lt.mpr h)

theorem zip_copyAddrs {dst len : UInt64} {src : List UInt8} (hlen : src.length = len.toUInt32.toNat) :
    (copyAddrs dst len).zip src = (List.range src.length).map fun i => (dst + UInt64.ofNat i, src.getD i 0) := by
  unfold copyAddrs
  apply ext_getElem
  · simp [hlen]
  · intro i hi hi'
    have hlt : i < src.length := by simpa using hi'
    rw [getElem_zip, getElem_map, getElem_map, getElem_range, getElem_range,
      getD_eq_getElem _ _ hlt]

theorem copyToUser_eq (mem : Memory) {dst len : UInt64} {src : List UInt8} (hlen : src.length = len.toNat)
    (hok : userRangeOk dst len = true) : copyToUser mem dst src len = some (mem.put dst src) := by
  obtain ⟨_, _, hend⟩ := (userRangeOk_iff dst len).mp hok
  have hlen' : src.length = len.toUInt32.toNat := by
    rw [UInt64.toNat_toUInt32]
    omega
  unfold copyToUser
  rw [if_pos hok, zip_copyAddrs hlen']
  congr 1
  funext a
  have hat : ∀ i, i < src.length → (dst + UInt64.ofNat i = a ↔ dst.toNat + i = a.toNat) := by
    intro i hi
    rw [← UInt64.toNat_inj, UInt64.toNat_add, UInt64.toNat_ofNat']
    have : (dst.toNat + i % 2 ^ 64) % 2 ^ 64 = dst.toNat + i := by omega
    rw [this]
  rw [find?_map]
  unfold Memory.put
  by_cases ha : dst ≤ a ∧ a.toNat < dst.toNat + src.length
  · have hle := UInt64.le_iff_toNat_le.mp ha.1
    have hfind : find? ((fun p : UInt64 × UInt8 => p.1 == a) ∘ fun i => (dst + UInt64.ofNat i, src.getD i 0))
        (List.range src.length) = some (a.toNat - dst.toNat) := by
      rw [find?_range_eq_some]
      refine ⟨?_, mem_range.mpr (by omega), fun j hj => ?_⟩
      · exact beq_iff_eq.mpr ((hat _ (by omega)).mpr (by omega))
      · have hne : dst + UInt64.ofNat j ≠ a := mt (hat j (by omega)).mp (by omega)
        simp [hne]
    rw [hfind, if_pos ha]
    rfl
  · have hfind : find? ((fun p : UInt64 × UInt8 => p.1 == a) ∘ fun i => (dst + UInt64.ofNat i, src.getD i 0))
        (List.range src.length) = none := by
      rw [find?_range_eq_none]
      intro j hj
      have hne : dst + UInt64.ofNat j ≠ a := fun he => by
        have := (hat j hj).mp he
        exact ha ⟨UInt64.le_iff_toNat_le.mpr (by omega), by omega⟩
      simp [hne]
    rw [hfind, if_neg ha]
    rfl

end EdgeOS
