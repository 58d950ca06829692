import Mathlib.Data.ENat.Basic
import Mathlib.Data.List.Pairwise

namespace EdgeOS.Lib

/-!
Waits that end by a test on a clock that never goes back. The clock is a machine word; what is due is a natural number,
or never.
-/

/-- From `start` on, no reading passes the test before `due`. -/
def NotBefore (test : UInt64 → Bool) (start : UInt64) (due : ℕ∞) : Prop :=
  ∀ now, start ≤ now → test now = true → due ≤ (now.toNat : ℕ∞)

variable {test : UInt64 → Bool} {start : UInt64}

/-- A wait over any readings ends in the first one that passes. -/
theorem find?_due_iff (due : ℕ∞) :
    (∀ readings : List UInt64, (start :: readings).Pairwise (· ≤ ·) → ∀ t, readings.find? test = some t →
      due ≤ (t.toNat : ℕ∞)) ↔ NotBefore test start due := by
  constructor
  · intro h now hle hpass
    refine h [now] (by simp [hle]) now ?_
    rw [List.find?_cons_of_pos hpass]
  · intro h readings hsorted t ht
    exact h t ((List.pairwise_cons.mp hsorted).1 t (List.mem_of_find?_eq_some ht)) (List.find?_some ht)

theorem notBefore_atOnce (h : ∀ now, test now = true) (due : ℕ∞) :
    NotBefore test start due ↔ due ≤ (start.toNat : ℕ∞) := by
  constructor
  · intro hdue
    exact hdue start (UInt64.le_refl _) (h start)
  · intro hdue now hle _
    exact hdue.trans (Nat.cast_le.mpr (UInt64.le_iff_toNat_le.mp hle))

theorem notBefore_nat (due : ℕ) :
    NotBefore test start due ↔ ∀ now, start ≤ now → test now = true → due ≤ now.toNat := by
  unfold NotBefore
  simp only [Nat.cast_le]

theorem notBefore_elapsed (span : UInt64) (due : ℕ) : NotBefore (fun now => span ≤ now - start) start due ↔
      due ≤ start.toNat + span.toNat ∨ 2 ^ 64 ≤ start.toNat + span.toNat := by
  have hsub : ∀ now, start ≤ now → (decide (span ≤ now - start) = true ↔ start.toNat + span.toNat ≤ now.toNat) := by
    intro now hle
    have hle' := UInt64.le_iff_toNat_le.mp hle
    rw [decide_eq_true_iff, UInt64.le_iff_toNat_le, UInt64.toNat_sub_of_le _ _ hle]
    omega
  rw [notBefore_nat]
  constructor
  · intro h
    by_cases hend : 2 ^ 64 ≤ start.toNat + span.toNat
    · exact Or.inr hend
    have hsum : (start + span).toNat = start.toNat + span.toNat := by
      rw [UInt64.toNat_add]
      exact Nat.mod_eq_of_lt (by omega)
    have hle : start ≤ start + span := by
      rw [UInt64.le_iff_toNat_le, hsum]
      omega
    refine Or.inl ?_
    rw [← hsum]
    exact h _ hle ((hsub _ hle).mpr (Nat.le_of_eq hsum.symm))
  · intro h now hle hpass
    have hlt := now.toNat_lt
    have := (hsub now hle).mp hpass
    omega

theorem notBefore_deadline (deadline : UInt64) (due : ℕ) :
    NotBefore (fun now => deadline ≤ now) start due ↔ due ≤ max start.toNat deadline.toNat := by
  rw [notBefore_nat]
  constructor
  · intro h
    by_cases hle : start ≤ deadline
    · rw [max_eq_right (UInt64.le_iff_toNat_le.mp hle)]
      exact h _ hle (decide_eq_true (UInt64.le_refl _))
    have hlt : deadline ≤ start := UInt64.le_of_lt (UInt64.not_le.mp hle)
    rw [max_eq_left (UInt64.le_iff_toNat_le.mp hlt)]
    exact h _ (UInt64.le_refl _) (decide_eq_true hlt)
  · intro h now hle hpass
    rw [decide_eq_true_iff] at hpass
    exact h.trans (max_le (UInt64.le_iff_toNat_le.mp hle) (UInt64.le_iff_toNat_le.mp hpass))

end EdgeOS.Lib
