import Mathlib.Algebra.BigOperators.Group.List.Basic
import Mathlib.Data.Nat.Basic
import Mathlib.Logic.Function.Iterate
import Mathlib.Tactic.IntervalCases
import Mathlib.Tactic.SplitIfs

namespace EdgeOS

/-!
The real-time clock that is read once at boot (`rtc_unix_seconds` in `src/sys/boottime.c`), and what its registers show
as the calendar goes on.
-/

/-! ## The code -/

/-- The registers that are read, 0x00 to 0x0B. -/
structure RtcRegs where
  sec : UInt8
  min : UInt8
  hour : UInt8
  day : UInt8
  mon : UInt8
  year : UInt8
  regb : UInt8

def bcdToBin (v : UInt8) : UInt8 := (v &&& (0x0F : UInt8)) + (v >>> (4 : UInt8)) * 10

def isLeap (y : ℕ) : Bool := y % 4 = 0 ∧ y % 100 ≠ 0 ∨ y % 400 = 0

def mdays : List ℕ := [31, 28, 31, 30, 31, 30, 31, 31, 30, 31, 30, 31]

/-- The days that the loop over months adds for month `mm`. -/
def monthDays (y mm : ℕ) : ℕ := mdays.getD (mm - 1) 0 + if mm = 2 ∧ isLeap y then 1 else 0

/-- `ymd_hms_to_unix`, with its loops as sums over 1970 .. `y` - 1 and 1 .. `mon` - 1. -/
def ymdHmsToUnix (y mon day h m s : ℕ) : ℕ :=
  let days := ((List.range' 1970 (y - 1970)).map fun yy => if isLeap yy then 366 else 365).sum +
    ((List.range' 1 (mon - 1)).map (monthDays y)).sum + (day - 1)
  days * 86400 + h * 3600 + m * 60 + s

def rtcUnixSeconds (r : RtcRegs) : ℕ :=
  let bin := fun v : UInt8 => if r.regb &&& 0x04 = 0 then bcdToBin v else v
  let mon := (bin r.mon).toNat
  let day := (bin r.day).toNat
  ymdHmsToUnix (2000 + (bin r.year).toNat) (if mon = 0 then 1 else mon) (if day = 0 then 1 else day)
    (bin (r.hour &&& 0x7F)).toNat (bin r.min).toNat (bin r.sec).toNat

/-! ## The calendar -/

structure CivilTime where
  year : ℕ
  mon : ℕ
  day : ℕ
  hour : ℕ
  min : ℕ
  sec : ℕ
  deriving DecidableEq

namespace CivilTime

def lastDay (y mon : ℕ) : ℕ :=
  if mon = 2 then if 4 ∣ y ∧ (¬100 ∣ y ∨ 400 ∣ y) then 29 else 28 else if mon ∈ [4, 6, 9, 11] then 30 else 31

def tick (c : CivilTime) : CivilTime :=
  if c.sec < 59 then { c with sec := c.sec + 1 }
  else if c.min < 59 then { c with min := c.min + 1, sec := 0 }
  else if c.hour < 23 then { c with hour := c.hour + 1, min := 0, sec := 0 }
  else if c.day < lastDay c.year c.mon then { c with day := c.day + 1, hour := 0, min := 0, sec := 0 }
  else if c.mon < 12 then { c with mon := c.mon + 1, day := 1, hour := 0, min := 0, sec := 0 }
  else ⟨c.year + 1, 1, 1, 0, 0, 0⟩

structure Valid (c : CivilTime) : Prop where
  year : 1970 ≤ c.year
  mon : 1 ≤ c.mon ∧ c.mon ≤ 12
  day : 1 ≤ c.day ∧ c.day ≤ lastDay c.year c.mon
  hour : c.hour ≤ 23
  min : c.min ≤ 59
  sec : c.sec ≤ 59

def digits (regb : UInt8) (n : ℕ) : UInt8 := (if regb &&& 0x04 = 0 then n / 10 * 16 + n % 10 else n).toUInt8

/-- The registers of a clock that shows the time, with 24 hours a day. -/
def registers (c : CivilTime) (regb : UInt8) : RtcRegs :=
  ⟨digits regb c.sec, digits regb c.min, digits regb c.hour, digits regb c.day, digits regb c.mon,
    digits regb (c.year % 100), regb⟩

def unix (c : CivilTime) : ℕ := ymdHmsToUnix c.year c.mon c.day c.hour c.min c.sec

variable {c : CivilTime}

theorem year_days (y : ℕ) : ((List.range' 1 11).map (monthDays y)).sum + 31 = if isLeap y then 366 else 365 := by
  cases h : isLeap y <;> simp [monthDays, mdays, h, List.range']

theorem monthDays_eq {y mon : ℕ} (h : 1 ≤ mon ∧ mon ≤ 12) : monthDays y mon = lastDay y mon := by
  have hleap : isLeap y = decide (4 ∣ y ∧ (¬100 ∣ y ∨ 400 ∣ y)) := by
    unfold isLeap
    exact decide_eq_decide.mpr (by omega)
  obtain ⟨hlo, hhi⟩ := h
  by_cases hy : 4 ∣ y ∧ (¬100 ∣ y ∨ 400 ∣ y) <;> interval_cases mon <;> simp [monthDays, mdays, lastDay, hleap, hy]

theorem lastDay_range (y mon : ℕ) : 1 ≤ lastDay y mon ∧ lastDay y mon ≤ 31 := by
  unfold lastDay
  split_ifs <;> decide

theorem tick_valid (h : c.Valid) : c.tick.Valid := by
  obtain ⟨hyear, hmon, hday, hhour, hmin, hsec⟩ := h
  unfold tick
  split_ifs with hs hm hh hd hn
  · exact ⟨hyear, hmon, hday, hhour, hmin, hs⟩
  · exact ⟨hyear, hmon, hday, hhour, hm, Nat.zero_le _⟩
  · exact ⟨hyear, hmon, hday, hh, Nat.zero_le _, Nat.zero_le _⟩
  · exact ⟨hyear, hmon, ⟨Nat.le_add_left _ _, hd⟩, Nat.zero_le _, Nat.zero_le _, Nat.zero_le _⟩
  · have hnext : 1 ≤ c.mon + 1 ∧ c.mon + 1 ≤ 12 := ⟨Nat.le_add_left _ _, hn⟩
    exact ⟨hyear, hnext, ⟨le_rfl, (lastDay_range _ _).1⟩, Nat.zero_le _, Nat.zero_le _, Nat.zero_le _⟩
  · have hfirst : 1 ≤ 1 ∧ 1 ≤ 12 := by decide
    exact ⟨Nat.le_succ_of_le hyear, hfirst, ⟨le_rfl, (lastDay_range _ _).1⟩, Nat.zero_le _, Nat.zero_le _, Nat.zero_le _⟩

theorem tick_year (c : CivilTime) : c.year ≤ c.tick.year := by
  unfold tick
  split_ifs <;> simp

theorem unix_tick (h : c.Valid) : c.tick.unix = c.unix + 1 := by
  obtain ⟨hyear, hmon, hday, hhour, hmin, hsec⟩ := h
  have hmonth := monthDays_eq (y := c.year) hmon
  unfold tick
  split_ifs with hs hm hh hd hn
  all_goals unfold unix ymdHmsToUnix
  all_goals dsimp only
  · omega
  · omega
  · omega
  · omega
  · -- the month that ends is the next one of the sum
    have hlast : c.mon + 1 - 1 = c.mon - 1 + 1 := by omega
    rw [hlast, List.range'_1_concat, List.map_append, List.sum_append, List.map_singleton, List.sum_singleton,
      Nat.add_sub_cancel' hmon.1]
    omega
  · have hlast : c.year + 1 - 1970 = c.year - 1970 + 1 := by omega
    have hmon : c.mon = 12 := by omega
    have hyears := year_days c.year
    rw [hmon] at hday hd ⊢
    have hdec : lastDay c.year 12 = 31 := rfl
    rw [hlast, List.range'_1_concat, List.map_append, List.sum_append, List.map_singleton, List.sum_singleton,
      Nat.add_sub_cancel' hyear, ← hyears]
    simp only [Nat.sub_self, Nat.reduceSub, List.range'_zero, List.map_nil, List.sum_nil]
    omega

theorem iterate_tick (h : c.Valid) (n : ℕ) : (tick^[n] c).Valid ∧ c.year ≤ (tick^[n] c).year ∧
    (tick^[n] c).unix = c.unix + n := by
  induction n with
  | zero => exact ⟨h, le_rfl, (Nat.add_zero _).symm⟩
  | succ n ih =>
    obtain ⟨hvalid, hyear, hunix⟩ := ih
    rw [Function.iterate_succ_apply']
    exact ⟨tick_valid hvalid, hyear.trans (tick_year _), by rw [unix_tick hvalid, hunix, Nat.add_assoc]⟩

theorem bin_digits {n : ℕ} (hn : n ≤ 99) (regb : UInt8) :
    (if regb &&& 0x04 = 0 then bcdToBin (digits regb n) else digits regb n).toNat = n := by
  have hbcd : ∀ n : Fin 100, (bcdToBin (n.val / 10 * 16 + n.val % 10).toUInt8).toNat = n.val := by decide
  unfold digits
  split_ifs
  · exact hbcd ⟨n, Nat.lt_succ_of_le hn⟩
  · exact Nat.mod_eq_of_lt (hn.trans_lt (by decide))

theorem hour_digits {n : ℕ} (hn : n ≤ 23) (regb : UInt8) : digits regb n &&& 0x7F = digits regb n := by
  have hmask : ∀ n : Fin 24, (n.val / 10 * 16 + n.val % 10).toUInt8 &&& 0x7F = (n.val / 10 * 16 + n.val % 10).toUInt8 ∧
    n.val.toUInt8 &&& 0x7F = n.val.toUInt8 := by decide
  unfold digits
  split_ifs
  · exact (hmask ⟨n, Nat.lt_succ_of_le hn⟩).1
  · exact (hmask ⟨n, Nat.lt_succ_of_le hn⟩).2

theorem rtcUnixSeconds_registers (h : c.Valid) (hyear : 2000 ≤ c.year ∧ c.year < 2100) (regb : UInt8) :
    rtcUnixSeconds (c.registers regb) = c.unix := by
  obtain ⟨-, hmon, hday, hhour, hmin, hsec⟩ := h
  have hmax := (lastDay_range c.year c.mon).2
  unfold rtcUnixSeconds registers unix
  dsimp only
  rw [hour_digits hhour, bin_digits (by omega), bin_digits (by omega), bin_digits (by omega), bin_digits (by omega),
    bin_digits (by omega), bin_digits (by omega), if_neg (by omega), if_neg (by omega)]
  congr 1
  omega

end CivilTime

open CivilTime

/-- While the century lasts, the code reads `n` more `n` seconds later, in either kind of digits. -/
theorem rtc_follows_calendar (c : CivilTime) (n : ℕ) (regb regb' : UInt8) (h : c.Valid) (hfirst : 2000 ≤ c.year)
    (hlast : (tick^[n] c).year < 2100) :
    rtcUnixSeconds ((tick^[n] c).registers regb') = rtcUnixSeconds (c.registers regb) + n := by
  obtain ⟨hvalid, hyear, hunix⟩ := iterate_tick h n
  rw [rtcUnixSeconds_registers hvalid ⟨hfirst.trans hyear, hlast⟩,
    rtcUnixSeconds_registers h ⟨hfirst, hyear.trans_lt hlast⟩, hunix]

/-- From the last second of a leap day on. -/
theorem rtc_follows_leap_day : rtcUnixSeconds ⟨0x59, 0x59, 0x23, 0x29, 0x02, 0x24, 2⟩ = 1709251199 ∧
    rtcUnixSeconds (CivilTime.registers ⟨2024, 3, 1, 0, 0, 0⟩ 6) =
      rtcUnixSeconds (CivilTime.registers ⟨2024, 2, 29, 23, 59, 59⟩ 2) + 1 :=
  ⟨by decide, rtc_follows_calendar ⟨2024, 2, 29, 23, 59, 59⟩ 1 2 6
    ⟨by decide, by decide, by decide, by decide, by decide, by decide⟩ (by decide) (by decide)⟩

end EdgeOS
