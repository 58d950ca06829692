import Mathlib.Data.Set.Card
import Mathlib.Order.Interval.Set.Nat
import Mathlib.Order.Bounds.Basic

namespace EdgeOS.Lib

/-!
The ticks of a clock that goes off at `a` and then again every `i`: how many there are up to a time, and which one
comes next.
-/

/-- The ticks `a`, `a + i`, `a + 2 * i` and so on up to `t`. -/
def ticks (a i t : ℕ) : ℕ := if t < a then 0 else (t - a) / i + 1

/-- The first tick after `t`. -/
def nextTick (a i t : ℕ) : ℕ := a + ticks a i t * i

variable {a i t : ℕ}

theorem tick_le_iff (hi : 0 < i) (k : ℕ) : a + k * i ≤ t ↔ k < ticks a i t := by
  unfold ticks
  split_ifs with h
  · exact iff_of_false (by omega) (Nat.not_lt_zero k)
  · rw [Nat.lt_succ_iff, Nat.le_div_iff_mul_le hi]
    omega

theorem ncard_ticks (hi : 0 < i) : {k | a + k * i ≤ t}.ncard = ticks a i t := by
  have hset : {k | a + k * i ≤ t} = Set.Iio (ticks a i t) := by
    ext k
    exact tick_le_iff hi k
  rw [hset, Set.ncard_eq_toFinset_card', Set.toFinset_Iio, Nat.card_Iio]

theorem ticks_of_lt (h : t < a) : ticks a i t = 0 := if_pos h

theorem nextTick_of_lt (h : t < a) : nextTick a i t = a := by
  unfold nextTick
  rw [ticks_of_lt h, Nat.zero_mul, Nat.add_zero]

theorem isLeast_nextTick (hi : 0 < i) : IsLeast {x | t < x ∧ ∃ k, x = a + k * i} (nextTick a i t) := by
  refine ⟨⟨?_, _, rfl⟩, ?_⟩
  · have := (tick_le_iff (a := a) (t := t) hi (ticks a i t)).not.mpr (Nat.lt_irrefl _)
    exact Nat.lt_of_not_le this
  · rintro x ⟨hx, k, rfl⟩
    have hk : ticks a i t ≤ k := by
      have := (tick_le_iff hi k).not.mp (Nat.not_le_of_lt hx)
      omega
    exact Nat.add_le_add_left (Nat.mul_le_mul_right i hk) a

/-- The clock has gone off `m` times by some earlier time. -/
theorem ticks_add (hi : 0 < i) {m : ℕ} (hm : m ≤ ticks a i t) : ticks a i t = m + ticks (a + m * i) i t := by
  have hk : ∀ k, k < ticks (a + m * i) i t ↔ m + k < ticks a i t := by
    intro k
    rw [← tick_le_iff hi, ← tick_le_iff hi, Nat.add_mul, Nat.add_assoc]
  have h1 := hk (ticks (a + m * i) i t)
  have h2 := hk (ticks a i t - m)
  have h3 := hk (ticks (a + m * i) i t - 1)
  omega

theorem nextTick_add (hi : 0 < i) {m : ℕ} (hm : m ≤ ticks a i t) : nextTick (a + m * i) i t = nextTick a i t := by
  unfold nextTick
  rw [ticks_add hi hm, Nat.add_mul, Nat.add_assoc]

theorem ticks_mono (hi : 0 < i) {t' : ℕ} (h : t ≤ t') : ticks a i t ≤ ticks a i t' := by
  by_contra hlt
  have hk := (tick_le_iff (a := a) hi (ticks a i t')).mpr (Nat.lt_of_not_le hlt)
  exact absurd ((tick_le_iff hi _).mp (hk.trans h)) (Nat.lt_irrefl _)

theorem ticks_pos (h : a ≤ t) : 0 < ticks a i t := by
  unfold ticks
  rw [if_neg (by omega)]
  exact Nat.succ_pos _

end EdgeOS.Lib
