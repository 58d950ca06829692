import Mathlib.Data.List.Pairwise
import Mathlib.Data.List.Range
import Mathlib.Tactic.Ring
import Mathlib.Tactic.NormNum

namespace EdgeOS

/-!
The boot clock: calibration of the time stamp counter against the interval timer, and the
monotonic microsecond clock that every timeout of the kernel reads. Counter values are the
machine's own words, so the products wrap where the code's do.
-/

open List

def pitHzNum : UInt64 := 1193182

structure Boottime where
  bootRealtimeUs : UInt64
  lastMonotonicUs : UInt64
  lastPitCounter : UInt16
  fallbackPitCounts : UInt64
  bootTsc : UInt64
  tscHz : UInt64
  tscReady : Bool
deriving DecidableEq, Repr

/-- What the hardware answers while the clock is set up. `polls` are the timer readings of the
calibration loop, in order. -/
structure BootReadings where
  initPit : UInt16
  rtcSeconds : UInt64
  startPit : UInt16
  startTsc : UInt64
  polls : ℕ → UInt16
  endTsc : UInt64
  bootTsc : UInt64

/-- The calibration loop from `spins` on: the elapsed count at which it leaves, or none when
it has spun too often. -/
def pollPit (start : UInt16) (polls : ℕ → UInt16) : ℕ → ℕ → Option UInt16
  | 0, _ => none
  | left + 1, spins =>
    let elapsed := start - polls spins
    if elapsed ≥ 40000 then some elapsed
    else if spins + 1 > 10000000 then none
    else pollPit start polls left (spins + 1)

/-- The frequency found and whether the calibration succeeded. The frequency is stored before
its last check, so a failed calibration may leave one behind. -/
def boottimeCalibrateTsc (r : BootReadings) : Option UInt64 × Bool :=
  match pollPit r.startPit r.polls 10000001 0 with
  | none => (none, false)
  | some elapsed =>
    if r.endTsc ≤ r.startTsc ∨ elapsed = 0 then (none, false)
    else
      let hz := (r.endTsc - r.startTsc) * pitHzNum / elapsed.toUInt64
      if hz < 1000000 then (some hz, false) else (some hz, true)

/-- `prev` is the value of the static boot counter, which a failed calibration leaves alone. -/
def boottimeInit (prev : UInt64) (r : BootReadings) : Boottime :=
  let calibrated := boottimeCalibrateTsc r
  { bootRealtimeUs := r.rtcSeconds * 1000000
    lastMonotonicUs := 0
    lastPitCounter := r.initPit
    fallbackPitCounts := 0
    bootTsc := if calibrated.2 then r.bootTsc else prev
    tscHz := calibrated.1.getD 0
    tscReady := calibrated.2 }

/-- The last step of a reading: a value below the last one returned is replaced by it. -/
def Boottime.clamp (s : Boottime) (nowUs : UInt64) : UInt64 × Boottime :=
  if nowUs < s.lastMonotonicUs then (s.lastMonotonicUs, s)
  else (nowUs, { s with lastMonotonicUs := nowUs })

/-- One reading of the clock; `tsc` and `pit` are what the two counters show. -/
def boottimeMonotonicUs (s : Boottime) (tsc : UInt64) (pit : UInt16) : UInt64 × Boottime :=
  if s.tscReady ∧ s.tscHz > 0 then
    let delta := tsc - s.bootTsc
    s.clamp (delta * 1000000 / s.tscHz)
  else
    let delta := s.lastPitCounter - pit
    let counts := s.fallbackPitCounts + delta.toUInt64
    { s with lastPitCounter := pit, fallbackPitCounts := counts }.clamp
      (counts * 1000000 / pitHzNum)

def monotonicReadings (s : Boottime) : List (UInt64 × UInt16) → List UInt64
  | [] => []
  | r :: rs =>
    let now := boottimeMonotonicUs s r.1 r.2
    now.1 :: monotonicReadings now.2 rs

/-- The clock as its callers use it: `deltas` are the cycles since boot at each reading,
`results` what the readings returned. -/
structure MonotonicClock (hz : ℕ) (deltas results : List ℕ) : Prop where
  exact : results = deltas.map fun d => d * 1000000 / hz
  nondecreasing : results.Pairwise (· ≤ ·)
  second : ∀ i j d e : ℕ, deltas[i]? = some d → deltas[j]? = some (d + hz) →
    results[i]? = some e → results[j]? = some (e + 1000000)

/-- A clock set up by a calibration that succeeded and not read since. -/
structure Calibrated (s : Boottime) : Prop where
  ready : s.tscReady = true
  hz : 1000000 ≤ s.tscHz.toNat
  fresh : s.lastMonotonicUs = 0

theorem boottimeInit_calibrated (prev : UInt64) (r : BootReadings)
    (h : (boottimeCalibrateTsc r).2 = true) : Calibrated (boottimeInit prev r) := by
  refine ⟨h, ?_, rfl⟩
  change 1000000 ≤ ((boottimeCalibrateTsc r).1.getD 0).toNat
  unfold boottimeCalibrateTsc at h ⊢
  split at h
  · exact absurd h (by simp)
  split at h
  · exact absurd h (by simp)
  dsimp only at h
  split at h
  · exact absurd h (by simp)
  rename_i hp hn hlt
  dsimp only
  rw [if_neg hn, if_neg hlt, Option.getD_some]
  exact UInt64.le_iff_toNat_le.mp (UInt64.not_lt.mp hlt)

def deltas (s : Boottime) (rs : List (UInt64 × UInt16)) : List ℕ :=
  rs.map fun r => r.1.toNat - s.bootTsc.toNat

/-- A reading is within range when its product with 10^6 fits a word, or when it falls into
the microsecond of the reading before it. The first argument is the reading before. -/
def InRange (hz : ℕ) : ℕ → List ℕ → Prop
  | _, [] => True
  | prev, d :: ds =>
    (d * 1000000 < 2 ^ 64 ∨ d * 1000000 / hz = prev * 1000000 / hz) ∧ InRange hz d ds

instance InRange.decidable (hz : ℕ) : ∀ prev ds, Decidable (InRange hz prev ds)
  | _, [] => inferInstanceAs (Decidable True)
  | prev, d :: ds =>
    have := InRange.decidable hz d ds
    inferInstanceAs (Decidable
      ((d * 1000000 < 2 ^ 64 ∨ d * 1000000 / hz = prev * 1000000 / hz) ∧ InRange hz d ds))

theorem clamp_toNat (s : Boottime) (u : UInt64) : (s.clamp u).1.toNat = max s.lastMonotonicUs.toNat u.toNat := by
  unfold Boottime.clamp
  split
  · rename_i h
    exact (max_eq_left (UInt64.lt_iff_toNat_lt.mp h).le).symm
  rename_i h
  have := UInt64.le_iff_toNat_le.mp (UInt64.not_lt.mp h)
  exact (max_eq_right this).symm

theorem clamp_snd (s : Boottime) (u : UInt64) : (s.clamp u).2 = { s with lastMonotonicUs := (s.clamp u).1 } := by
  unfold Boottime.clamp
  split <;> rfl

theorem tscHz_pos {hz : UInt64} (h : 1000000 ≤ hz.toNat) : hz > 0 := by
  apply UInt64.lt_iff_toNat_lt.mpr
  rw [UInt64.toNat_zero]
  omega

theorem boottimeMonotonicUs_ready {s : Boottime} (tsc : UInt64) (pit : UInt16)
    (hr : s.tscReady = true) (hz : 1000000 ≤ s.tscHz.toNat) :
    boottimeMonotonicUs s tsc pit = s.clamp ((tsc - s.bootTsc) * 1000000 / s.tscHz) := by
  have hpos := tscHz_pos hz
  simp only [boottimeMonotonicUs, hr, hpos, and_self, if_true]

/-- A calibrated reading returns the larger of the last value and the wrapped quotient. -/
theorem boottimeMonotonicUs_toNat {s : Boottime} {tsc : UInt64} (pit : UInt16)
    (hr : s.tscReady = true) (hz : 1000000 ≤ s.tscHz.toNat)
    (hle : s.bootTsc.toNat ≤ tsc.toNat) :
    (boottimeMonotonicUs s tsc pit).1.toNat = max s.lastMonotonicUs.toNat
        ((tsc.toNat - s.bootTsc.toNat) * 1000000 % 2 ^ 64 / s.tscHz.toNat) := by
  have hlit : (1000000 : UInt64).toNat = 1000000 := by decide
  rw [boottimeMonotonicUs_ready tsc pit hr hz, clamp_toNat, UInt64.toNat_div, UInt64.toNat_mul,
    UInt64.toNat_sub_of_le _ _ (UInt64.le_iff_toNat_le.mpr hle), hlit]

theorem boottimeMonotonicUs_snd {s : Boottime} {tsc : UInt64} {pit : UInt16}
    (hr : s.tscReady = true) (hz : 1000000 ≤ s.tscHz.toNat) :
    (boottimeMonotonicUs s tsc pit).2 = { s with lastMonotonicUs := (boottimeMonotonicUs s tsc pit).1 } := by
  rw [boottimeMonotonicUs_ready tsc pit hr hz]
  exact clamp_snd s _

/-- A wrapped product falls short by at least a whole word, which is more than one
microsecond whatever the frequency. -/
theorem wrapped_lt {p hz : ℕ} (h0 : 0 < hz) (h64 : hz < 2 ^ 64) (hp : 2 ^ 64 ≤ p) : p % 2 ^ 64 / hz < p / hz := by
  have hsum : p % 2 ^ 64 + hz ≤ p := by
    have := Nat.mod_lt p (show 0 < 2 ^ 64 by norm_num)
    have hdiv := Nat.div_add_mod p (2 ^ 64)
    have hq : 1 ≤ p / 2 ^ 64 := (Nat.one_le_div_iff (by norm_num)).mpr hp
    omega
  calc p % 2 ^ 64 / hz < p % 2 ^ 64 / hz + 1 := Nat.lt_succ_self _
    _ = (p % 2 ^ 64 + hz) / hz := (Nat.add_div_right _ h0).symm
    _ ≤ p / hz := Nat.div_le_div_right hsum

/-- One reading is exact if and only if its product fits, or the value before it was already
the right one. -/
theorem clamped_exact_iff {p last hz : ℕ} (h0 : 0 < hz) (h64 : hz < 2 ^ 64) (hlast : last ≤ p / hz) :
    max last (p % 2 ^ 64 / hz) = p / hz ↔ p < 2 ^ 64 ∨ p / hz = last := by
  rcases Nat.lt_or_ge p (2 ^ 64) with hp | hp
  · rw [Nat.mod_eq_of_lt hp, max_eq_right hlast]
    exact ⟨fun _ => Or.inl hp, fun _ => rfl⟩
  have hw := wrapped_lt h0 h64 hp
  constructor
  · intro h
    right
    rcases max_choice last (p % 2 ^ 64 / hz) with hm | hm <;> omega
  · intro h
    have : last = p / hz := by omega
    omega

/-- Readings after `prev` cycles, when the clock shows the exact value for `prev`. -/
theorem readings_exact_iff (rs : List (UInt64 × UInt16)) {s : Boottime} {prev : ℕ}
    (hr : s.tscReady = true) (hz : 1000000 ≤ s.tscHz.toNat)
    (hlast : s.lastMonotonicUs.toNat = prev * 1000000 / s.tscHz.toNat)
    (hmono : ((s.bootTsc.toNat + prev) :: rs.map fun r => r.1.toNat).Pairwise (· ≤ ·)) :
    (monotonicReadings s rs).map UInt64.toNat = (deltas s rs).map (fun d => d * 1000000 / s.tscHz.toNat) ↔
      InRange s.tscHz.toNat prev (deltas s rs) := by
  -- induction on the readings; `prev` and the stored value move along together
  induction rs generalizing s prev with
  | nil => simp [monotonicReadings, deltas, InRange]
  | cons r rs ih =>
    simp only [map_cons, pairwise_cons, mem_cons, forall_eq_or_imp] at hmono
    obtain ⟨⟨hle, -⟩, hmono⟩ := hmono
    have hboot : s.bootTsc.toNat ≤ r.1.toNat := by omega
    have hlast' : s.lastMonotonicUs.toNat ≤ (r.1.toNat - s.bootTsc.toNat) * 1000000 / s.tscHz.toNat := by
      rw [hlast]
      apply Nat.div_le_div_right
      omega
    have hiff := clamped_exact_iff (lt_of_lt_of_le (by norm_num) hz) s.tscHz.toNat_lt hlast'
    rw [← boottimeMonotonicUs_toNat r.2 hr hz hboot, hlast] at hiff
    simp only [monotonicReadings, deltas, map_cons, cons.injEq, InRange]
    rw [hiff]
    apply and_congr_right
    intro hin
    have hval := hiff.mpr hin
    have hback : s.bootTsc.toNat + (r.1.toNat - s.bootTsc.toNat) = r.1.toNat := by omega
    rw [boottimeMonotonicUs_snd hr hz]
    apply ih (s := { s with lastMonotonicUs := (boottimeMonotonicUs s r.1 r.2).1 }) hr hz hval
    change ((s.bootTsc.toNat + (r.1.toNat - s.bootTsc.toNat)) :: _).Pairwise _
    rw [hback]
    exact pairwise_cons.mpr hmono

/-- Exact values are non-decreasing and advance by a second every `hz` cycles. -/
theorem monotonicClock_iff_exact {hz : ℕ} (h0 : 0 < hz) {ds results : List ℕ} (hmono : ds.Pairwise (· ≤ ·)) :
    MonotonicClock hz ds results ↔ results = ds.map fun d => d * 1000000 / hz := by
  refine ⟨fun h => h.exact, fun h => ⟨h, ?_, ?_⟩⟩
  · rw [h, pairwise_map]
    apply hmono.imp
    intro a b hab
    exact Nat.div_le_div_right (Nat.mul_le_mul_right _ hab)
  · intro i j d e hi hj he
    rw [h, getElem?_map, hi] at he
    rw [h, getElem?_map, hj]
    simp only [Option.map_some, Option.some.injEq] at he ⊢
    rw [← he, Nat.add_mul, Nat.add_mul_div_left _ _ h0]

/-- Over every sequence of readings of a counter that never goes back, the clock is exact, and
so non-decreasing and in step with the counter, if and only if every reading is in range. -/
theorem monotonic_clock_iff (s : Boottime) (rs : List (UInt64 × UInt16)) (hc : Calibrated s)
    (hmono : (s.bootTsc :: rs.map Prod.fst).Pairwise (· ≤ ·)) :
    MonotonicClock s.tscHz.toNat (deltas s rs) ((monotonicReadings s rs).map UInt64.toNat) ↔
      InRange s.tscHz.toNat 0 (deltas s rs) := by
  have hnat : ((s.bootTsc.toNat + 0) :: rs.map fun r => r.1.toNat).Pairwise (· ≤ ·) := by
    have h := hmono.map UInt64.toNat fun a b hab => UInt64.le_iff_toNat_le.mp hab
    rw [List.map_cons, List.map_map] at h
    exact h
  have hd : (deltas s rs).Pairwise (· ≤ ·) := by
    rw [deltas, List.pairwise_map]
    rw [List.pairwise_cons, List.pairwise_map] at hnat
    apply hnat.2.imp
    intro a b hab
    exact Nat.sub_le_sub_right hab _
  have h0 : 0 < s.tscHz.toNat := lt_of_lt_of_le (by norm_num) hc.hz
  rw [monotonicClock_iff_exact h0 hd]
  apply readings_exact_iff rs hc.ready hc.hz _ hnat
  rw [hc.fresh]
  simp

def bootAt3GHz : BootReadings where
  initPit := 0
  rtcSeconds := 0
  startPit := 50000
  startTsc := 0
  polls := fun _ => 10000
  endTsc := 100571414
  bootTsc := 1000

/-- A reading at once, one after a second and one after half an hour. -/
def firstHalfHour : List (UInt64 × UInt16) :=
  [(1000, 0), (3000001022, 0), (5400000001000, 0)]

theorem firstHalfHour_exact : (monotonicReadings (boottimeInit 0 bootAt3GHz) firstHalfHour).map UInt64.toNat =
        [0, 1000000, 1799999986] ∧
      MonotonicClock (boottimeInit 0 bootAt3GHz).tscHz.toNat (deltas (boottimeInit 0 bootAt3GHz) firstHalfHour)
        ((monotonicReadings (boottimeInit 0 bootAt3GHz) firstHalfHour).map UInt64.toNat) := by
  have hc : Calibrated (boottimeInit 0 bootAt3GHz) :=
    boottimeInit_calibrated 0 bootAt3GHz (by decide +kernel)
  refine ⟨by decide +kernel, ?_⟩
  exact (monotonic_clock_iff (boottimeInit 0 bootAt3GHz) firstHalfHour hc
    (by decide +kernel)).mpr (by decide +kernel)

/-- Two hours after boot the product has wrapped: the clock shows a quarter of an hour. -/
theorem twoHours_wrapped : Calibrated (boottimeInit 0 bootAt3GHz) ∧
      deltas (boottimeInit 0 bootAt3GHz) [(21600000001000, 0)] = [21600000000000] ∧
      21600000000000 < 2 ^ 63 / 10 ^ 3 ∧
      (monotonicReadings (boottimeInit 0 bootAt3GHz) [(21600000001000, 0)]).map UInt64.toNat = [1051085301] ∧
      ¬ MonotonicClock (boottimeInit 0 bootAt3GHz).tscHz.toNat [21600000000000]
        ((monotonicReadings (boottimeInit 0 bootAt3GHz) [(21600000001000, 0)]).map UInt64.toNat) := by
  refine ⟨boottimeInit_calibrated 0 bootAt3GHz (by decide +kernel), by decide +kernel,
    by norm_num, by decide +kernel, ?_⟩
  intro h
  exact absurd h.exact (by decide +kernel)

end EdgeOS
