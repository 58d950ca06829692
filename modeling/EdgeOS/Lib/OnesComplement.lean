import Mathlib.Data.Nat.ModEq
import Mathlib.Data.Int.ModEq
import Mathlib.Algebra.BigOperators.Group.List.Basic
import Mathlib.Tactic.Ring
import Mathlib.Tactic.Linarith

namespace EdgeOS.Lib

/-!
One's-complement sums. Words below `B` are added and the carry comes back in, so that a sum is taken modulo `B - 1`.
A message that carries the complement of the sum of its other words sums up to `B - 1`.
-/

open List

def onesAdd (B a b : ℕ) : ℕ := (a + b) % B + (a + b) / B

def onesSum (B : ℕ) (ws : List ℕ) : ℕ := ws.foldl (onesAdd B) 0

/-- `r` is the word that stands for the number `n`. Zero stands for zero alone. -/
structure Residue (B n r : ℕ) : Prop where
  lt : r < B
  modEq : r ≡ n [MOD B - 1]
  zero : r = 0 ↔ n = 0

section Residue

variable {B n m r s : ℕ}

theorem residue_zero (hB : 0 < B) : Residue B 0 0 := ⟨hB, rfl, Iff.rfl⟩

theorem residue_self (h : n < B) : Residue B n n := ⟨h, rfl, Iff.rfl⟩

theorem Residue.eq_max (h : Residue B n r) (hB : 1 < B) : r = B - 1 ↔ n ≠ 0 ∧ B - 1 ∣ n := by
  constructor
  · intro hr
    refine ⟨fun hn => ?_, (Nat.modEq_zero_iff_dvd).mp ?_⟩
    · have := h.zero.mpr hn
      omega
    · apply h.modEq.symm.trans
      rw [hr]
      exact (Nat.modEq_zero_iff_dvd).mpr dvd_rfl
  · rintro ⟨hn, hdvd⟩
    have hr : B - 1 ∣ r := (Nat.modEq_zero_iff_dvd).mp (h.modEq.trans ((Nat.modEq_zero_iff_dvd).mpr hdvd))
    have hpos : r ≠ 0 := fun h0 => hn (h.zero.mp h0)
    have := Nat.le_of_dvd (Nat.pos_of_ne_zero hpos) hr
    have := h.lt
    omega

theorem mod_add_div_modEq (hB : 0 < B) (n : ℕ) : n % B + n / B ≡ n [MOD B - 1] := by
  have hone : B ≡ 1 [MOD B - 1] := by
    have hself : B - 1 + 1 ≡ 0 + 1 [MOD B - 1] :=
      Nat.ModEq.add_right 1 ((Nat.modEq_zero_iff_dvd).mpr dvd_rfl)
    rwa [Nat.sub_add_cancel hB] at hself
  calc
    n % B + n / B = n % B + 1 * (n / B) := by rw [one_mul]
    _ ≡ n % B + B * (n / B) [MOD B - 1] := Nat.ModEq.add_left _ (hone.symm.mul_right _)
    _ = n := Nat.mod_add_div n B

theorem mod_add_div_eq_zero : n % B + n / B = 0 ↔ n = 0 := by
  constructor
  · intro h
    obtain ⟨hmod, hdiv⟩ := Nat.add_eq_zero_iff.mp h
    rw [← Nat.mod_add_div n B, hmod, hdiv, Nat.mul_zero]
  · rintro rfl
    rw [Nat.zero_mod, Nat.zero_div]

theorem Residue.onesAdd (h : Residue B n r) (h' : Residue B m s) : Residue B (n + m) (onesAdd B r s) := by
  have hlt := h.lt
  have hlt' := h'.lt
  unfold Lib.onesAdd
  refine ⟨?_, (mod_add_div_modEq (by omega) _).trans (h.modEq.add h'.modEq), ?_⟩
  · have hdiv : (r + s) / B < 2 := Nat.div_lt_of_lt_mul (by omega)
    have hparts := Nat.mod_add_div (r + s) B
    have hmod := Nat.mod_lt (r + s) (show 0 < B by omega)
    rcases Nat.lt_succ_iff_lt_or_eq.mp hdiv with hzero | hone
    · rw [Nat.lt_one_iff.mp hzero] at hparts ⊢
      omega
    · rw [hone] at hparts ⊢
      omega
  · rw [mod_add_div_eq_zero, Nat.add_eq_zero_iff, Nat.add_eq_zero_iff, h.zero, h'.zero]

theorem onesSum_residue {ws : List ℕ} (hB : 0 < B) (hws : ∀ w ∈ ws, w < B) : Residue B ws.sum (onesSum B ws) := by
  have hfold : ∀ {ws : List ℕ} {n r : ℕ}, (∀ w ∈ ws, w < B) → Residue B n r →
      Residue B (n + ws.sum) (ws.foldl (Lib.onesAdd B) r) := by
    intro ws
    induction ws with
    | nil => exact fun _ h => h
    | cons w ws ih =>
      intro n r hws h
      rw [sum_cons, ← Nat.add_assoc]
      exact ih (fun v hv => hws v (mem_cons_of_mem w hv))
        (h.onesAdd (residue_self (hws w mem_cons_self)))
  have h := hfold hws (residue_zero hB)
  rwa [Nat.zero_add] at h

/-- A message whose words sum up to `B - 1` is one whose plain sum is a positive multiple of it. -/
theorem onesSum_eq_max {ws : List ℕ} (hB : 1 < B) (hws : ∀ w ∈ ws, w < B) :
    onesSum B ws = B - 1 ↔ ws.sum ≠ 0 ∧ B - 1 ∣ ws.sum :=
  (onesSum_residue (by omega) hws).eq_max hB

theorem Residue.complement (h : Residue B n r) (hB : 1 < B) : n + (B - 1 - r) ≠ 0 ∧ B - 1 ∣ n + (B - 1 - r) := by
  have hlt := h.lt
  constructor
  · intro hzero
    have hn : n = 0 := by omega
    have := h.zero.mpr hn
    omega
  · apply (Nat.modEq_zero_iff_dvd).mp
    calc
      n + (B - 1 - r) ≡ r + (B - 1 - r) [MOD B - 1] := h.modEq.symm.add_right _
      _ = B - 1 := by omega
      _ ≡ 0 [MOD B - 1] := (Nat.modEq_zero_iff_dvd).mpr dvd_rfl

end Residue

/-! ## The halves exchanged -/

/-- A word of two digits below `b` with its digits exchanged. -/
def swapDigits (b x : ℕ) : ℕ := x % b * b + x / b

theorem swapDigits_modEq (b x : ℕ) (hb : 0 < b) : swapDigits b x ≡ b * x [MOD b * b - 1] := by
  have hmul : b * x = x % b * b + b * b * (x / b) := by
    conv_lhs => rw [← Nat.mod_add_div x b]
    ring
  have hone : b * b ≡ 1 [MOD b * b - 1] := by
    have hself : b * b - 1 + 1 ≡ 0 + 1 [MOD b * b - 1] :=
      Nat.ModEq.add_right 1 ((Nat.modEq_zero_iff_dvd).mpr dvd_rfl)
    rwa [Nat.sub_add_cancel (Nat.mul_pos hb hb)] at hself
  unfold swapDigits
  calc
    x % b * b + x / b = x % b * b + 1 * (x / b) := by rw [one_mul]
    _ ≡ x % b * b + b * b * (x / b) [MOD b * b - 1] := Nat.ModEq.add_left _ (hone.symm.mul_right _)
    _ = b * x := hmul.symm

theorem swapDigits_eq_zero {b x : ℕ} (hb : 0 < b) : swapDigits b x = 0 ↔ x = 0 := by
  unfold swapDigits
  constructor
  · intro h
    obtain ⟨hprod, hdiv⟩ := Nat.add_eq_zero_iff.mp h
    have hmod : x % b = 0 := (Nat.mul_eq_zero.mp hprod).resolve_right (by omega)
    rw [← Nat.mod_add_div x b, hmod, hdiv, Nat.mul_zero]
  · rintro rfl
    rw [Nat.zero_mod, Nat.zero_div, Nat.zero_mul]

/-- A complement with its digits exchanged makes the sum full exactly when `b + 1` divides the sum of the other words. -/
theorem Residue.swapped {b n r : ℕ} (h : Residue (b * b) n r) (hb : 1 < b) :
    (n + swapDigits b (b * b - 1 - r) ≠ 0 ∧ b * b - 1 ∣ n + swapDigits b (b * b - 1 - r)) ↔ b + 1 ∣ n := by
  have hsquare : 1 < b * b := by nlinarith
  have hlt := h.lt
  have hpos : n + swapDigits b (b * b - 1 - r) ≠ 0 := by
    intro hzero
    have hn : n = 0 := by omega
    have hr := h.zero.mpr hn
    have hswap : swapDigits b (b * b - 1 - r) = 0 := by omega
    have := (swapDigits_eq_zero (by omega)).mp hswap
    omega
  -- modulo `b * b - 1` the exchanged complement is `b` times the complement
  have hmod : n + swapDigits b (b * b - 1 - r) + (b - 1) * n ≡ 0 [MOD b * b - 1] := by
    have hcomp := h.complement hsquare
    calc
      n + swapDigits b (b * b - 1 - r) + (b - 1) * n
          ≡ n + b * (b * b - 1 - r) + (b - 1) * n [MOD b * b - 1] :=
        Nat.ModEq.add_right _ (Nat.ModEq.add_left _ (swapDigits_modEq b _ (by omega)))
      _ = b * (n + (b * b - 1 - r)) := by
        obtain ⟨c, rfl⟩ : ∃ c, b = c + 1 := ⟨b - 1, by omega⟩
        rw [Nat.add_sub_cancel]
        ring
      _ ≡ 0 [MOD b * b - 1] := (Nat.modEq_zero_iff_dvd).mpr (hcomp.2.mul_left b)
  have hfactor : b * b - 1 = (b - 1) * (b + 1) := by
    obtain ⟨c, rfl⟩ : ∃ c, b = c + 1 := ⟨b - 1, by omega⟩
    rw [Nat.add_sub_cancel]
    have hexpand : (c + 1) * (c + 1) = c * (c + 1 + 1) + 1 := by ring
    omega
  have hcancel : b * b - 1 ∣ (b - 1) * n ↔ b + 1 ∣ n := by
    rw [hfactor]
    exact Nat.mul_dvd_mul_iff_left (by omega)
  rw [and_iff_right hpos, ← hcancel]
  have hsum := (Nat.modEq_zero_iff_dvd).mp hmod
  exact ⟨fun hd => (Nat.dvd_add_right hd).mp hsum, fun hd => (Nat.dvd_add_left hd).mp hsum⟩

/-! ## Words of bytes -/

/-- The 16-bit words of a string of bytes, the first byte the higher one. An odd last byte is padded with zero. -/
def words16 : List UInt8 → List ℕ
  | [] => []
  | [a] => [a.toNat * 256]
  | a :: b :: bs => (a.toNat * 256 + b.toNat) :: words16 bs

theorem words16_lt : ∀ (bs : List UInt8), ∀ w ∈ words16 bs, w < 256 * 256
  | [] => fun w hw => absurd hw not_mem_nil
  | [a] => by
    intro w hw
    have ha := a.toNat_lt
    rw [words16, mem_singleton] at hw
    omega
  | a :: b :: bs => by
    intro w hw
    have ha := a.toNat_lt
    have hb := b.toNat_lt
    rcases mem_cons.mp hw with heq | htail
    · omega
    · exact words16_lt bs w htail

theorem words16_append {bs cs : List UInt8} (h : bs.length % 2 = 0) : words16 (bs ++ cs) = words16 bs ++ words16 cs := by
  induction bs using words16.induct with
  | case1 => rfl
  | case2 a =>
    rw [length_singleton] at h
    omega
  | case3 a b bs ih =>
    have heven : bs.length % 2 = 0 := by
      rw [length_cons, length_cons] at h
      omega
    rw [cons_append, cons_append, words16, words16, ih heven, cons_append]

theorem words16_sum_le : ∀ (bs : List UInt8), (words16 bs).sum ≤ (bs.length + 1) / 2 * 65535
  | [] => Nat.zero_le _
  | [a] => by
    have ha := a.toNat_lt
    rw [words16, sum_singleton, length_singleton]
    omega
  | a :: b :: bs => by
    have ha := a.toNat_lt
    have hb := b.toNat_lt
    have ih := words16_sum_le bs
    rw [words16, sum_cons, length_cons, length_cons]
    omega

theorem words16_middle {front back : List UInt8} (h : front.length % 2 = 0) (a b : UInt8) :
    (words16 (front ++ a :: b :: back)).sum = (words16 (front ++ 0 :: 0 :: back)).sum + (a.toNat * 256 + b.toNat) := by
  have hzero : (0 : UInt8).toNat = 0 := rfl
  rw [words16_append h, words16_append h, words16, words16, sum_append, sum_append, sum_cons,
    sum_cons, hzero]
  omega

def Checks (bs : List UInt8) : Prop := onesSum (256 * 256) (words16 bs) = 0xFFFF

instance (bs : List UInt8) : Decidable (Checks bs) := inferInstanceAs (Decidable (_ = _))

theorem checks_iff {bs : List UInt8} : Checks bs ↔ (words16 bs).sum ≠ 0 ∧ 256 * 256 - 1 ∣ (words16 bs).sum :=
  onesSum_eq_max (by decide) (words16_lt bs)

end EdgeOS.Lib
