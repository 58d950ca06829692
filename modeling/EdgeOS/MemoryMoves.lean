import Mathlib.Data.List.Range
import Mathlib.Logic.Function.Basic
import Mathlib.Tactic.SplitIfs

namespace EdgeOS

/-! `memcpy` and `memmove` of `src/string.c`, and what they leave where the two ranges overlap. -/

open Function List

/-- A pass of one of the loops. No object reaches past the last address. -/
def copyPass (dst src : ℕ) (m : ℕ → UInt8) (i : ℕ) : ℕ → UInt8 := update m (dst + i) (m (src + i))

def memcpy (m : ℕ → UInt8) (dst src : ℕ) (n : UInt32) : ℕ → UInt8 := (List.range n.toNat).foldl (copyPass dst src) m

def memmove (m : ℕ → UInt8) (dst src : ℕ) (n : UInt32) : ℕ → UInt8 :=
  if dst = src ∨ n = 0 then m
  else if dst < src then memcpy m dst src n
  else (List.range n.toNat).reverse.foldl (copyPass dst src) m

/-- The bytes of the source as they were, in the place of the destination. -/
def moved (m : ℕ → UInt8) (dst src : ℕ) (n : UInt32) : ℕ → UInt8 :=
  fun a => if dst ≤ a ∧ a < dst + n.toNat then m (src + (a - dst)) else m a

variable {dst src : ℕ} {n : UInt32} {l : List ℕ} {m : ℕ → UInt8}

theorem passes_other {a : ℕ} (h : ∀ i ∈ l, a ≠ dst + i) : l.foldl (copyPass dst src) m a = m a := by
  induction l generalizing m with
  | nil => rfl
  | cons i l ih =>
    rw [foldl_cons, ih fun j hj => h j (mem_cons_of_mem _ hj)]
    exact update_of_ne (h i mem_cons_self) _ _

theorem passes (h : l.Pairwise fun i j => dst + i ≠ src + j ∧ i ≠ j) {i : ℕ} (hi : i ∈ l) :
    l.foldl (copyPass dst src) m (dst + i) = m (src + i) := by
  induction l generalizing m with
  | nil => cases hi
  | cons j l ih =>
    obtain ⟨hj, hl⟩ := pairwise_cons.mp h
    rw [foldl_cons]
    rcases mem_cons.mp hi with rfl | hi
    · rw [passes_other fun k hk => (Nat.add_right_inj.not.mpr (hj k hk).2)]
      exact update_self ..
    · rw [ih hl hi]
      exact update_of_ne (hj i hi).1.symm _ _

theorem moved_of_pairwise (hl : ∀ i, i ∈ l ↔ i < n.toNat) (h : l.Pairwise fun i j => dst + i ≠ src + j ∧ i ≠ j) :
    l.foldl (copyPass dst src) m = moved m dst src n := by
  funext a
  unfold moved
  split_ifs with hin
  · have ha := passes (m := m) h ((hl (a - dst)).mpr (by omega))
    rwa [Nat.add_sub_cancel' hin.1] at ha
  · exact passes_other fun i hi heq => hin (by have := (hl i).mp hi; omega)

theorem memcpy_moved (h : dst ≤ src ∨ src + n.toNat ≤ dst) (m : ℕ → UInt8) : memcpy m dst src n = moved m dst src n := by
  refine moved_of_pairwise (fun i => mem_range) (pairwise_lt_range.imp_of_mem fun {i j} _ hj hij => ?_)
  have hj := mem_range.mp hj
  omega

theorem memmove_moved (dst src : ℕ) (n : UInt32) (m : ℕ → UInt8) : memmove m dst src n = moved m dst src n := by
  unfold memmove
  split_ifs with hnone hlt
  · funext a
    unfold moved
    split_ifs with hin
    · rcases hnone with rfl | rfl
      · rw [Nat.add_sub_cancel' hin.1]
      · exact absurd hin (by simp)
    · rfl
  · exact memcpy_moved (.inl hlt.le) m
  · exact moved_of_pairwise (fun i => mem_reverse.trans mem_range)
      (pairwise_reverse.mpr (pairwise_lt_range.imp fun hij => by omega))

/-- A byte that the loop wrote and read again as the source's. -/
theorem memcpy_overlap (src : ℕ) {k : ℕ} (hk : 0 < k) (hkn : k < n.toNat) :
    memcpy m (src + k) src n (src + k + k) = m src := by
  have hfirst : (List.range k).foldl (copyPass (src + k) src) m (src + k + 0) = m (src + 0) := passes
    (pairwise_lt_range.imp_of_mem fun _ hj hij => by have := mem_range.mp hj; omega) (mem_range.mpr hk)
  unfold memcpy
  rw [show n.toNat = k + 1 + (n.toNat - (k + 1)) by omega, range_add, foldl_append, passes_other, range_succ, foldl_append]
  · exact (update_self ..).trans hfirst
  · intro j hj
    obtain ⟨i, -, rfl⟩ := mem_map.mp hj
    omega

/-- `memmove` puts the source's bytes in place however the ranges overlap, `memcpy` exactly when the destination does not
start within the source. -/
theorem moves_exact (dst src : ℕ) (n : UInt32) : (∀ m, memmove m dst src n = moved m dst src n) ∧
    ((∀ m, memcpy m dst src n = moved m dst src n) ↔ dst ≤ src ∨ src + n.toNat ≤ dst) := by
  refine ⟨memmove_moved dst src n, fun h => ?_, memcpy_moved⟩
  by_contra hnot
  obtain ⟨k, rfl⟩ := Nat.exists_eq_add_of_le (not_le.mp fun hle => hnot (.inl hle)).le
  have hlate := memcpy_overlap src (n := n) (m := update (fun _ => 0) src 1) (show 0 < k by omega) (by omega)
  rw [h, moved, if_pos (by omega), update_self, update_of_ne (by omega)] at hlate
  exact absurd hlate (by decide)

end EdgeOS
