import Mathlib.Data.List.Basic
import Mathlib.Logic.Function.Basic

/-!
A ring that has no count: each cell carries a bit that is flipped on every turn, and the consumer knows a cell
is new when its bit is the one of the consumer's own turn. The producer's history is a list, its entries
numbered from 0, and entry `k` goes to the cell `k % n`.
-/

namespace EdgeOS.Lib

open Function

variable {α : Type*} {n : ℕ} {cells : ℕ → Bool × α} {log : List α} {t : ℕ}

/-- The bit of the turn in which entry `k` is written. -/
def lapBit (n k : ℕ) : Bool := k / n % 2 == 0

theorem lapBit_add (hn : 0 < n) (k : ℕ) : lapBit n (k + n) = !lapBit n k := by
  unfold lapBit
  rw [Nat.add_div_right k hn]
  rcases Nat.mod_two_eq_zero_or_one (k / n) with h | h
  · rw [h, show (k / n).succ % 2 = 1 by omega]
    rfl
  · rw [h, show (k / n).succ % 2 = 0 by omega]
    rfl

/-- A consumer goes to the next cell and flips its bit at the end of the ring. -/
theorem lap_next (hn : 0 < n) (k : ℕ) : (k + 1) % n = (if k % n + 1 ≥ n then 0 else k % n + 1) ∧
    lapBit n (k + 1) = if k % n + 1 ≥ n then !lapBit n k else lapBit n k := by
  have hk := Nat.div_add_mod k n
  have hlt := Nat.mod_lt k hn
  by_cases h : k % n + 1 ≥ n
  · have he : k + 1 = n * (k / n + 1) := by
      rw [Nat.mul_add]
      omega
    have hd : (k + 1) / n = k / n + 1 := by
      rw [he]
      exact Nat.mul_div_cancel_left _ hn
    rw [if_pos h, if_pos h]
    constructor
    · rw [he]
      exact Nat.mul_mod_right _ _
    · rw [← lapBit_add hn k]
      unfold lapBit
      rw [hd, Nat.add_div_right k hn]
  · have he : k + 1 = k % n + 1 + n * (k / n) := by omega
    have hd : (k + 1) / n = k / n := by
      rw [he, Nat.add_mul_div_left _ _ hn, Nat.div_eq_of_lt (by omega), Nat.zero_add]
    rw [if_neg h, if_neg h]
    constructor
    · rw [he, Nat.add_mul_mod_self_left]
      exact Nat.mod_eq_of_lt (by omega)
    · unfold lapBit
      rw [hd]

/-- The cells hold what was written and not taken yet, and every other cell has the bit of an earlier turn. -/
structure LapRing (n : ℕ) (cells : ℕ → Bool × α) (log : List α) (t : ℕ) : Prop where
  size : 0 < n
  taken : t ≤ log.length
  room : log.length ≤ t + n
  fresh : ∀ k, t ≤ k → ∀ x ∈ log[k]?, cells (k % n) = (lapBit n k, x)
  stale : ∀ k, log.length ≤ k → k < t + n → (cells (k % n)).1 ≠ lapBit n k

theorem LapRing.empty (hn : 0 < n) (x : α) : LapRing n (fun _ => (false, x)) [] 0 where
  size := hn
  taken := Nat.le_refl 0
  room := Nat.zero_le _
  fresh k _ y hy := nomatch hy
  stale k _ hk := by
    have h : k / n = 0 := Nat.div_eq_of_lt (by omega)
    simp [lapBit, h]

theorem mod_ne_of_lt_add {k j : ℕ} (h : k < j) (hj : j < k + n) : k % n ≠ j % n := by
  intro he
  have hd := Nat.sub_mod_eq_zero_of_mod_eq he.symm
  rw [Nat.mod_eq_of_lt (by omega)] at hd
  omega

theorem LapRing.push (h : LapRing n cells log t) (hroom : log.length < t + n) (x : α) :
    LapRing n (update cells (log.length % n) (lapBit n log.length, x)) (log ++ [x]) t where
  size := h.size
  taken := by
    rw [List.length_append]
    have := h.taken
    omega
  room := by
    rw [List.length_append]
    exact hroom
  fresh k hk y hy := by
    rcases Nat.lt_trichotomy k log.length with hl | rfl | hl
    · rw [update_of_ne (mod_ne_of_lt_add hl (by omega))]
      rw [List.getElem?_append_left hl] at hy
      exact h.fresh k hk y hy
    · rw [update_self]
      simp only [List.getElem?_concat_length, Option.mem_def, Option.some.injEq] at hy
      rw [hy]
    · rw [List.getElem?_eq_none (by simp; omega)] at hy
      simp at hy
  stale k hk hb := by
    have hl : log.length < k := by
      rw [List.length_append] at hk
      exact hk
    have ht := h.taken
    rw [update_of_ne (mod_ne_of_lt_add hl (by omega)).symm]
    exact h.stale k (by omega) hb

theorem LapRing.outside {cells' : ℕ → Bool × α} (h : LapRing n cells log t) (hcells : ∀ i < n, cells' i = cells i) :
    LapRing n cells' log t where
  size := h.size
  taken := h.taken
  room := h.room
  fresh k hk x hx := by
    rw [hcells _ (Nat.mod_lt k h.size)]
    exact h.fresh k hk x hx
  stale k hk hb := by
    rw [hcells _ (Nat.mod_lt k h.size)]
    exact h.stale k hk hb

/-- While the bit stays as it is, the producer writes what it likes into the next cell. -/
theorem LapRing.prepare (h : LapRing n cells log t) (hroom : log.length < t + n) (x : α) :
    LapRing n (update cells (log.length % n) ((cells (log.length % n)).1, x)) log t where
  size := h.size
  taken := h.taken
  room := h.room
  fresh k hk y hy := by
    have hl : k < log.length := (List.getElem?_eq_some_iff.1 hy).1
    rw [update_of_ne (mod_ne_of_lt_add hl (by omega))]
    exact h.fresh k hk y hy
  stale k hk hb := by
    rcases Nat.eq_or_lt_of_le hk with rfl | hl
    · rw [update_self]
      exact h.stale _ hk hb
    have ht := h.taken
    rw [update_of_ne (mod_ne_of_lt_add hl (by omega)).symm]
    exact h.stale k hk hb

theorem LapRing.read (h : LapRing n cells log t) (ht : t < log.length) : cells (t % n) = (lapBit n t, log[t]) :=
  h.fresh t (Nat.le_refl t) _ (List.getElem?_eq_getElem ht)

/-- A consumer that finds the bit of its turn finds the next entry. -/
theorem LapRing.next (h : LapRing n cells log t) (hb : (cells (t % n)).1 = lapBit n t) :
    ∃ ht : t < log.length, (cells (t % n)).2 = log[t] := by
  have ht : t < log.length := by
    by_contra hl
    exact h.stale t (by omega) (by have := h.size; omega) hb
  exact ⟨ht, by rw [h.read ht]⟩

theorem LapRing.none (h : LapRing n cells log t) (hb : (cells (t % n)).1 ≠ lapBit n t) : t = log.length := by
  by_contra hl
  have ht := h.taken
  exact hb (by rw [h.read (by omega)])

theorem LapRing.pop (h : LapRing n cells log t) (ht : t < log.length) : LapRing n cells log (t + 1) where
  size := h.size
  taken := ht
  room := by
    have := h.room
    omega
  fresh k hk := h.fresh k (by omega)
  stale k hk hb := by
    by_cases he : k < t + n
    · exact h.stale k hk he
    obtain rfl : k = t + n := by omega
    rw [Nat.add_mod_right, h.read ht, lapBit_add h.size]
    simp

end EdgeOS.Lib
