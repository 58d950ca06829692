import Mathlib.Algebra.BigOperators.Group.Finset.Basic
import Mathlib.Algebra.Order.BigOperators.Group.Finset

namespace EdgeOS.Lib

/-!
Counting over a table. A count is a sum of a per-entry weight; writing one entry moves the
sum by the difference of the weights.
-/

open Function

variable {ι α : Type*} [DecidableEq ι]

theorem sum_write_add (S : Finset ι) (t : ι → α) {i : ι} (hi : i ∈ S) (x : α) (f : α → ℕ) :
    ∑ l ∈ S, f (update t i x l) + f (t i) = ∑ l ∈ S, f (t l) + f x := by
  have hrest : ∑ l ∈ S.erase i, f (update t i x l) = ∑ l ∈ S.erase i, f (t l) := by
    refine Finset.sum_congr rfl fun l hl => ?_
    rw [update_of_ne (Finset.ne_of_mem_erase hl)]
  rw [← Finset.add_sum_erase S _ hi, ← Finset.add_sum_erase S (fun l => f (t l)) hi, hrest, update_self]
  omega

theorem sum_write_eq (S : Finset ι) (t : ι → α) (i : ι) (x : α) (f : α → ℕ)
    (h : f x = f (t i)) : ∑ l ∈ S, f (update t i x l) = ∑ l ∈ S, f (t l) := by
  refine Finset.sum_congr rfl fun l _ => ?_
  by_cases hl : l = i
  · rw [hl, update_self, h]
  · rw [update_of_ne hl]

/-- A property of every entry survives a write of an entry that has it. -/
theorem forall_write {P : ι → α → Prop} {t : ι → α} {i : ι} {x : α}
    (h : ∀ l, l ≠ i → P l (t l)) (hx : P i x) (l : ι) : P l (update t i x l) := by
  by_cases hl : l = i
  · rw [hl, update_self]
    exact hx
  · rw [update_of_ne hl]
    exact h l hl

/-- What two tests count together: each entry once, and those that both accept once more. -/
theorem countP_add_countP {β : Type*} (l : List β) (p q : β → Bool) :
    l.countP p + l.countP q = (l.countP fun a => p a || q a) + l.countP fun a => p a && q a := by
  induction l with
  | nil => rfl
  | cons a l ih =>
    rw [List.countP_cons, List.countP_cons, List.countP_cons, List.countP_cons]
    cases p a <;> cases q a <;> simp <;> omega

end EdgeOS.Lib
