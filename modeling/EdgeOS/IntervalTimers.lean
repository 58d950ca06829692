import EdgeOS.Lib.Runs
import EdgeOS.Lib.Ticks
import EdgeOS.SpecialTransfer

namespace EdgeOS

open Lib

/-!
Timers that go off again and again: the timer of a task, which `task_timer_poll` moves past the clock in a loop, and
the timer behind a descriptor, whose expirations a read counts with a division.
-/

/-! ## The timer of a task -/

/-- `itimer_real_active`, `itimer_real_next_us` and `itimer_real_interval_us`. -/
structure RealTimer where
  active : Bool := false
  nextUs : UInt64 := 0
  intervalUs : UInt64 := 0
  deriving DecidableEq, Repr

/-- The loop of `task_timer_poll`, if it ends after that many turns. -/
def RealTimer.catchUp (interval now : UInt64) : ℕ → UInt64 → Option UInt64
  | 0, _ => none
  | n + 1, next => if next + interval ≤ now then catchUp interval now n (next + interval) else some (next + interval)

/-- `task_timer_poll`: the timer, and whether SIGALRM is pending from now on. The loop comes back to a value it had
before within `2 ^ 64` turns, so it does not end if it has not ended by then. -/
def RealTimer.poll (tm : RealTimer) (now : UInt64) : Option (RealTimer × Bool) :=
  if !tm.active then some (tm, false)
  else if now < tm.nextUs then some (tm, false)
  else if tm.intervalUs > 0 then
    (catchUp tm.intervalUs now (2 ^ 64) tm.nextUs).map fun next => ({ tm with nextUs := next }, true)
  else some ({ tm with active := false, nextUs := 0 }, true)

/-- The part of `do_sys_setitimer` and `do_sys_alarm` that arms the timer. -/
def RealTimer.set (now val interval : UInt64) : RealTimer where
  active := val ≠ 0
  nextUs := if val = 0 then 0 else now + val
  intervalUs := interval

namespace RealTimer

/-- One turn of the loop: the sum does not wrap, and the ticks that are left are those after it. -/
theorem turn {interval now next : UInt64} (hi : 0 < interval.toNat)
    (hfits : nextTick next.toNat interval.toNat now.toNat < 2 ^ 64) (hle : next ≤ now) :
    ticks next.toNat interval.toNat now.toNat = 1 + ticks (next + interval).toNat interval.toNat now.toNat ∧
      nextTick (next + interval).toNat interval.toNat now.toNat = nextTick next.toNat interval.toNat now.toNat := by
  have hpos : 1 ≤ ticks next.toNat interval.toNat now.toNat := ticks_pos (UInt64.le_iff_toNat_le.mp hle)
  have hmul : interval.toNat ≤ ticks next.toNat interval.toNat now.toNat * interval.toNat :=
    Nat.le_mul_of_pos_left _ hpos
  have hsum : (next + interval).toNat = next.toNat + 1 * interval.toNat := by
    unfold nextTick at hfits
    rw [UInt64.toNat_add]
    omega
  rw [hsum]
  exact ⟨ticks_add hi hpos, nextTick_add hi hpos⟩

theorem catchUp_eq {interval now next : UInt64} {fuel : ℕ} (hi : 0 < interval.toNat)
    (hfits : nextTick next.toNat interval.toNat now.toNat < 2 ^ 64) (hle : next ≤ now)
    (hfuel : ticks next.toNat interval.toNat now.toNat ≤ fuel) :
    ∃ x, catchUp interval now fuel next = some x ∧ x.toNat = nextTick next.toNat interval.toNat now.toNat := by
  induction fuel generalizing next with
  | zero => exact absurd (ticks_pos (i := interval.toNat) (UInt64.le_iff_toNat_le.mp hle)) (by omega)
  | succ fuel ih =>
    obtain ⟨hticks, hnext⟩ := turn hi hfits hle
    unfold catchUp
    split_ifs with h
    · obtain ⟨x, hx, he⟩ := ih (hnext ▸ hfits) h (by omega)
      exact ⟨x, hx, he.trans hnext⟩
    refine ⟨_, rfl, ?_⟩
    rw [← hnext, nextTick_of_lt]
    exact Nat.lt_of_not_le (mt UInt64.le_iff_toNat_le.mpr h)

/-- One poll of an interval timer ends, and the timer is past the clock. -/
theorem poll_eq {tm : RealTimer} {now : UInt64} (hactive : tm.active = true) (hi : 0 < tm.intervalUs.toNat)
    (hfits : nextTick tm.nextUs.toNat tm.intervalUs.toNat now.toNat < 2 ^ 64) :
    ∃ x rang, tm.poll now = some ({ tm with nextUs := x }, rang) ∧
      x.toNat = nextTick tm.nextUs.toNat tm.intervalUs.toNat now.toNat := by
  unfold poll
  rw [if_neg (by simp [hactive])]
  split_ifs with hlt hint
  · exact ⟨tm.nextUs, false, rfl, (nextTick_of_lt (UInt64.lt_iff_toNat_lt.mp hlt)).symm⟩
  · have hle : tm.nextUs ≤ now := UInt64.not_lt.mp hlt
    -- every turn adds at least one, so there are fewer than `2 ^ 64` of them
    have hfuel : ticks tm.nextUs.toNat tm.intervalUs.toNat now.toNat ≤ 2 ^ 64 := by
      have := Nat.le_mul_of_pos_right (ticks tm.nextUs.toNat tm.intervalUs.toNat now.toNat) hi
      unfold nextTick at hfits
      omega
    obtain ⟨x, hx, he⟩ := catchUp_eq hi hfits hle hfuel
    exact ⟨x, true, by rw [hx]; rfl, he⟩
  · refine absurd ?_ hint
    rw [gt_iff_lt, UInt64.lt_iff_toNat_lt]
    exact hi

def polls (tm : RealTimer) (nows : List UInt64) : Option RealTimer :=
  nows.foldlM (fun tm now => (tm.poll now).map (·.1)) tm

/-- The clock never goes back along the polls, and the timer is always past it. -/
theorem polls_eq {tm : RealTimer} (hactive : tm.active = true) (hi : 0 < tm.intervalUs.toNat) {nows : List UInt64}
    {now : UInt64} (hsorted : (nows ++ [now]).Pairwise (· ≤ ·))
    (hfits : nextTick tm.nextUs.toNat tm.intervalUs.toNat now.toNat < 2 ^ 64) :
    ∃ x, tm.polls (nows ++ [now]) = some { tm with nextUs := x } ∧
      x.toNat = nextTick tm.nextUs.toNat tm.intervalUs.toNat now.toNat := by
  induction nows generalizing tm with
  | nil =>
    obtain ⟨x, rang, hp, hx⟩ := poll_eq hactive hi hfits
    refine ⟨x, ?_, hx⟩
    unfold polls
    rw [List.nil_append, List.foldlM_cons, hp]
    rfl
  | cons n nows ih =>
    rw [List.cons_append] at hsorted
    obtain ⟨hle, hsorted⟩ := List.pairwise_cons.mp hsorted
    have hn : n.toNat ≤ now.toNat :=
      UInt64.le_iff_toNat_le.mp (hle now (List.mem_append_right _ (List.mem_singleton_self now)))
    have hticks := ticks_mono (a := tm.nextUs.toNat) hi hn
    have hfits' : nextTick tm.nextUs.toNat tm.intervalUs.toNat n.toNat < 2 ^ 64 := by
      have := Nat.mul_le_mul_right tm.intervalUs.toNat hticks
      unfold nextTick at hfits ⊢
      omega
    obtain ⟨x, rang, hp, hx⟩ := poll_eq hactive hi hfits'
    have hsame : nextTick x.toNat tm.intervalUs.toNat now.toNat =
        nextTick tm.nextUs.toNat tm.intervalUs.toNat now.toNat := by
      rw [hx]
      exact nextTick_add hi hticks
    obtain ⟨y, hy, he⟩ := @ih { tm with nextUs := x } hactive hi hsorted (hsame.trans_lt hfits)
    refine ⟨y, ?_, he.trans hsame⟩
    unfold polls at hy ⊢
    rw [List.cons_append, List.foldlM_cons, hp]
    exact hy

end RealTimer

/-! ## The timer behind a descriptor -/

/-- The part of `do_sys_timerfd_settime` that arms the timer; `abstime` is `LINUX_TFD_TIMER_ABSTIME`. -/
def TimerFd.settime (tf : TimerFd) (now : UInt64) (abstime : Bool) (val interval : UInt64) : TimerFd :=
  if val = 0 then { tf with intervalUs := interval, active := false, nextUs := 0 }
  else { tf with intervalUs := interval, active := true, nextUs := if abstime then val else now + val }

/-- A timer with its clock at the last call, the clock at the last read that came to the timer, and the sum of what
the reads returned. -/
structure TimerRun where
  tf : TimerFd
  clock : UInt64 := 0
  lastRead : Option UInt64 := none
  returned : ℕ := 0

inductive TimerCall
  | read (now : UInt64) (nonblock interrupted : Bool) (buf : ReadBuf)
  | poll (now : UInt64)

def TimerCall.time : TimerCall → UInt64
  | .read now _ _ _ => now
  | .poll now => now

def readValue : Outcome UInt64 → ℕ
  | .ret (.ok v) => v.toNat
  | _ => 0

namespace TimerRun

/-- The checks of `do_sys_fd_read` before the timer let the buffer through. -/
def Reaches (buf : ReadBuf) : Prop := buf.null = false ∧ 8 ≤ buf.len

instance (buf : ReadBuf) : Decidable (Reaches buf) := inferInstanceAs (Decidable (_ ∧ _))

def step (s : TimerRun) : TimerCall → TimerRun
  | .read now nonblock interrupted buf =>
    if Reaches buf then
      let out := timerfdRead s.tf now nonblock interrupted buf
      ⟨out.1, now, some now, s.returned + readValue out.2⟩
    else { s with clock := now }
  | .poll now => { s with tf := (timerfdExpireCount s.tf now false).1, clock := now }

/-- The clock does not go back, and the first expiration after it has a time. -/
def InTime (a i : ℕ) (s : TimerRun) (e : TimerCall) : Prop :=
  s.clock ≤ e.time ∧ nextTick a i e.time.toNat < 2 ^ 64

instance (a i : ℕ) (s : TimerRun) (e : TimerCall) : Decidable (InTime a i s e) := inferInstanceAs (Decidable (_ ∧ _))

/-- After the call the reads have returned the expirations up to the last read, and a poll has changed nothing. -/
def Counted (a i : ℕ) (s : TimerRun) (e : TimerCall) : Prop :=
  (∀ t, (s.step e).lastRead = some t → (s.step e).returned = {k | a + k * i ≤ t.toNat}.ncard) ∧
    ∀ now, e = .poll now → (s.step e).tf = s.tf

/-- The read is refused before it comes to the timer, or finds no expiration, or its bytes are copied. -/
def Copies (s : TimerRun) : TimerCall → Prop
  | .read now _ _ buf => ¬ Reaches buf ∨ now < s.tf.nextUs ∨ buf.copied 0 8 = true
  | .poll _ => True

instance (s : TimerRun) : ∀ e, Decidable (Copies s e)
  | .read now _ _ buf => inferInstanceAs (Decidable (¬ Reaches buf ∨ now < s.tf.nextUs ∨ buf.copied 0 8 = true))
  | .poll _ => inferInstanceAs (Decidable True)

/-- The timer after its expirations up to some time were returned. -/
structure ReadUpTo (a i : ℕ) (s : TimerRun) : Prop where
  used : s.tf.used = true
  active : s.tf.active = true
  interval : s.tf.intervalUs.toNat = i
  next : s.tf.nextUs.toNat = a + s.returned * i
  past : s.returned ≤ ticks a i s.clock.toNat
  counted : ∀ t, s.lastRead = some t → s.returned = ticks a i t.toNat

end TimerRun

/-- The count of an interval timer, and where a read leaves it. -/
theorem timerfdExpireCount_ticks {tf : TimerFd} {now : UInt64} (hused : tf.used = true) (hactive : tf.active = true)
    (hi : 0 < tf.intervalUs.toNat) (hfits : nextTick tf.nextUs.toNat tf.intervalUs.toNat now.toNat < 2 ^ 64) :
    (timerfdExpireCount tf now true).2.toNat = ticks tf.nextUs.toNat tf.intervalUs.toNat now.toNat ∧
      ∃ x, (timerfdExpireCount tf now true).1 = { tf with nextUs := x } ∧
        x.toNat = nextTick tf.nextUs.toNat tf.intervalUs.toNat now.toNat := by
  unfold timerfdExpireCount
  rw [if_neg (by simp [hused, hactive])]
  by_cases hlt : now < tf.nextUs
  · rw [if_pos hlt]
    have hlt' := UInt64.lt_iff_toNat_lt.mp hlt
    exact ⟨(ticks_of_lt hlt').symm, tf.nextUs, rfl, (nextTick_of_lt hlt').symm⟩
  have hint : tf.intervalUs > 0 := by
    rw [gt_iff_lt, UInt64.lt_iff_toNat_lt]
    exact hi
  have hle : tf.nextUs.toNat ≤ now.toNat := UInt64.le_iff_toNat_le.mp (UInt64.not_lt.mp hlt)
  have hticks : ticks tf.nextUs.toNat tf.intervalUs.toNat now.toNat =
      (now.toNat - tf.nextUs.toNat) / tf.intervalUs.toNat + 1 := if_neg (by omega)
  rw [if_neg hlt, if_pos hint]
  have hle' := Nat.le_mul_of_pos_right (ticks tf.nextUs.toNat tf.intervalUs.toNat now.toNat) hi
  have hcnt : (if now > tf.nextUs then 1 + (now - tf.nextUs) / tf.intervalUs else 1).toNat =
      ticks tf.nextUs.toNat tf.intervalUs.toNat now.toNat := by
    unfold nextTick at hfits
    split_ifs with hgt
    · rw [UInt64.toNat_add, UInt64.toNat_div, UInt64.toNat_sub_of_le _ _ (UInt64.not_lt.mp hlt)]
      change (1 + (now.toNat - tf.nextUs.toNat) / tf.intervalUs.toNat) % 2 ^ 64 = _
      omega
    have he : now.toNat ≤ tf.nextUs.toNat := UInt64.le_iff_toNat_le.mp (UInt64.not_lt.mp hgt)
    rw [hticks, Nat.sub_eq_zero_of_le he, Nat.zero_div]
    rfl
  refine ⟨hcnt, _, rfl, ?_⟩
  unfold nextTick at hfits ⊢
  rw [UInt64.toNat_add, UInt64.toNat_mul, hcnt]
  omega

/-- A read that comes to an interval timer, with the copy of its bytes or without. -/
theorem timerfdRead_ticks {tf : TimerFd} {now : UInt64} (nonblock interrupted : Bool) {buf : ReadBuf}
    (hused : tf.used = true) (hactive : tf.active = true) (hi : 0 < tf.intervalUs.toNat) (hlen : 8 ≤ buf.len)
    (hfits : nextTick tf.nextUs.toNat tf.intervalUs.toNat now.toNat < 2 ^ 64) :
    readValue (timerfdRead tf now nonblock interrupted buf).2 =
        (if buf.copied 0 8 then ticks tf.nextUs.toNat tf.intervalUs.toNat now.toNat else 0) ∧
      ∃ x, (timerfdRead tf now nonblock interrupted buf).1 = { tf with nextUs := x } ∧
        x.toNat = nextTick tf.nextUs.toNat tf.intervalUs.toNat now.toNat := by
  obtain ⟨hcnt, x, hx, hnext⟩ := timerfdExpireCount_ticks hused hactive hi hfits
  unfold timerfdRead
  rw [if_neg (by omega), if_neg (by simp [hused])]
  dsimp only
  by_cases hz : (timerfdExpireCount tf now true).2 = 0
  · rw [if_pos hz]
    rw [hz] at hcnt
    refine ⟨?_, x, hx, hnext⟩
    rw [← hcnt]
    unfold missing
    split_ifs <;> rfl
  · rw [if_neg hz]
    refine ⟨?_, x, hx, hnext⟩
    split_ifs
    · exact hcnt
    · rfl

namespace TimerRun

variable {a i : ℕ} {s : TimerRun}

theorem inv_start {tf : TimerFd} (hused : tf.used = true) (hactive : tf.active = true) :
    ReadUpTo tf.nextUs.toNat tf.intervalUs.toNat ⟨tf, 0, none, 0⟩ :=
  ⟨hused, hactive, rfl, by rw [Nat.zero_mul, Nat.add_zero], Nat.zero_le _, by simp⟩

/-- The expirations at a time are those that were returned and those that the timer still counts. -/
theorem ReadUpTo.ticks_eq (hI : ReadUpTo a i s) (hi : 0 < i) {now : UInt64} (h : s.clock ≤ now) :
    ticks a i now.toNat = s.returned + ticks s.tf.nextUs.toNat s.tf.intervalUs.toNat now.toNat ∧
      nextTick s.tf.nextUs.toNat s.tf.intervalUs.toNat now.toNat = nextTick a i now.toNat := by
  have hm := hI.past.trans (ticks_mono hi (UInt64.le_iff_toNat_le.mp h))
  rw [hI.next, hI.interval]
  exact ⟨ticks_add hi hm, nextTick_add hi hm⟩

theorem ticks_eq_zero_iff {t : ℕ} : ticks a i t = 0 ↔ t < a := by
  constructor
  · intro h
    by_contra hle
    have := ticks_pos (i := i) (Nat.le_of_not_lt hle)
    omega
  · exact ticks_of_lt

theorem step_poll_tf (s : TimerRun) (now : UInt64) : (s.step (.poll now)).tf = s.tf := by
  unfold step timerfdExpireCount
  simp only [Bool.false_eq_true, if_false]
  split_ifs <;> rfl

theorem ReadUpTo.clock_le (hI : ReadUpTo a i s) (hi : 0 < i) {e : TimerCall} (h : InTime a i s e) :
    s.returned ≤ ticks a i e.time.toNat :=
  hI.past.trans (ticks_mono hi (UInt64.le_iff_toNat_le.mp h.1))

/-- A read that comes to the timer: what the reads have returned is right iff the copy is. -/
theorem ReadUpTo.read (hI : ReadUpTo a i s) (hi : 0 < i) {now : UInt64} {nonblock interrupted : Bool} {buf : ReadBuf}
    (ht : InTime a i s (.read now nonblock interrupted buf)) (hr : Reaches buf) :
    (s.step (.read now nonblock interrupted buf)).lastRead = some now ∧
      (s.step (.read now nonblock interrupted buf)).returned =
        s.returned + (if buf.copied 0 8 then ticks s.tf.nextUs.toNat s.tf.intervalUs.toNat now.toNat else 0) ∧
      ∃ x, (s.step (.read now nonblock interrupted buf)).tf = { s.tf with nextUs := x } ∧
        x.toNat = nextTick a i now.toNat := by
  obtain ⟨_, hnext⟩ := hI.ticks_eq hi (show s.clock ≤ now from ht.1)
  have hi' : 0 < s.tf.intervalUs.toNat := hI.interval ▸ hi
  obtain ⟨hv, x, hx, he⟩ := timerfdRead_ticks nonblock interrupted hI.used hI.active hi' hr.2
    (hnext.trans_lt ht.2)
  unfold step
  dsimp only
  rw [if_pos hr, hv]
  exact ⟨rfl, rfl, x, hx, he.trans hnext⟩

theorem ReadUpTo.counted_iff (hI : ReadUpTo a i s) (hi : 0 < i) {e : TimerCall} (ht : InTime a i s e) :
    Copies s e ↔ Counted a i s e := by
  unfold Counted
  simp only [ncard_ticks hi]
  cases e with
  | poll now =>
    refine iff_of_true trivial ⟨hI.counted, fun n hn => ?_⟩
    exact step_poll_tf s now
  | read now nonblock interrupted buf =>
    rw [and_iff_left (fun n hn => absurd hn (by simp))]
    by_cases hr : Reaches buf
    · obtain ⟨hlast, hret, _⟩ := hI.read hi ht hr
      obtain ⟨hticks, _⟩ := hI.ticks_eq hi (show s.clock ≤ now from ht.1)
      have hz := ticks_eq_zero_iff (a := s.tf.nextUs.toNat) (i := s.tf.intervalUs.toNat) (t := now.toNat)
      rw [hlast, hret]
      change (¬ Reaches buf ∨ now < s.tf.nextUs ∨ buf.copied 0 8 = true) ↔ _
      rw [UInt64.lt_iff_toNat_lt, ← hz]
      by_cases hc : buf.copied 0 8 = true
      · rw [if_pos hc]
        refine iff_of_true (.inr (.inr hc)) fun t he => ?_
        rw [← Option.some.inj he]
        exact hticks.symm
      rw [if_neg hc]
      constructor
      · rintro (h | h | h)
        · exact absurd hr h
        · intro t he
          rw [← Option.some.inj he, hticks, h]
        · exact absurd h hc
      · intro h
        have := h now rfl
        exact .inr (.inl (by omega))
    · have hstep : s.step (.read now nonblock interrupted buf) = { s with clock := now } := if_neg hr
      rw [hstep]
      exact iff_of_true (.inl hr) hI.counted

theorem ReadUpTo.step (hI : ReadUpTo a i s) (hi : 0 < i) {e : TimerCall} (ht : InTime a i s e) (hc : Copies s e) :
    ReadUpTo a i (s.step e) := by
  have hle := hI.clock_le hi ht
  cases e with
  | poll now =>
    have htf := step_poll_tf s now
    exact ⟨htf ▸ hI.used, htf ▸ hI.active, htf ▸ hI.interval, htf ▸ hI.next, hle, hI.counted⟩
  | read now nonblock interrupted buf =>
    by_cases hr : Reaches buf
    · obtain ⟨hlast, _, x, hx, he⟩ := hI.read hi ht hr
      have hcount := ((hI.counted_iff hi ht).mp hc).1 now hlast
      rw [ncard_ticks hi] at hcount
      have hclock : (s.step (.read now nonblock interrupted buf)).clock = now := by
        unfold TimerRun.step
        dsimp only
        rw [if_pos hr]
      refine ⟨?_, ?_, ?_, ?_, ?_, fun t h => ?_⟩
      · rw [hx]
        exact hI.used
      · rw [hx]
        exact hI.active
      · rw [hx]
        exact hI.interval
      · rw [hx, hcount]
        exact he
      · rw [hclock]
        exact hcount.le
      · rw [hlast] at h
        rw [← Option.some.inj h]
        exact hcount
    · have hstep : s.step (.read now nonblock interrupted buf) = { s with clock := now } := if_neg hr
      rw [hstep]
      exact ⟨hI.used, hI.active, hI.interval, hI.next, hle, hI.counted⟩

end TimerRun

/-- The reads of an interval timer return its expirations in exactly those runs in which the bytes of every read are
copied; the timer of a task is always left at its first expiration after the clock. -/
theorem expirations_counted (tf : TimerFd) (tm : RealTimer) :
    (tf.used = true → tf.active = true → 0 < tf.intervalUs.toNat → ∀ es : List TimerCall,
      Meets TimerRun.step (TimerRun.InTime tf.nextUs.toNat tf.intervalUs.toNat) ⟨tf, 0, none, 0⟩ es →
        (Meets TimerRun.step (TimerRun.Counted tf.nextUs.toNat tf.intervalUs.toNat) ⟨tf, 0, none, 0⟩ es ↔
          Meets TimerRun.step TimerRun.Copies ⟨tf, 0, none, 0⟩ es)) ∧
      (tm.active = true → 0 < tm.intervalUs.toNat → ∀ (nows : List UInt64) (now : UInt64),
        (nows ++ [now]).Pairwise (· ≤ ·) → nextTick tm.nextUs.toNat tm.intervalUs.toNat now.toNat < 2 ^ 64 →
          ∃ x, tm.polls (nows ++ [now]) = some { tm with nextUs := x } ∧
            IsLeast {y | now.toNat < y ∧ ∃ k, y = tm.nextUs.toNat + k * tm.intervalUs.toNat} x.toNat) := by
  constructor
  · intro hused hactive hi es ht
    exact (meets_iff_within (fun s e (h : TimerRun.ReadUpTo _ _ s) ht hc => h.step hi ht hc)
      (fun s e h ht => h.counted_iff hi ht) (TimerRun.inv_start hused hactive) ht).symm
  · intro hactive hi nows now hsorted hfits
    obtain ⟨x, hx, he⟩ := RealTimer.polls_eq hactive hi hsorted hfits
    refine ⟨x, hx, ?_⟩
    rw [he]
    exact isLeast_nextTick hi

def fiveTimer : TimerFd := TimerFd.settime {} 5 false 5 5

theorem fiveTimer_counted : (Meets TimerRun.step (TimerRun.Counted 10 5) ⟨fiveTimer, 0, none, 0⟩
      [.read 9 true false ⟨false, 8, fun _ _ => true⟩, .poll 15, .read 22 true false ⟨false, 8, fun _ _ => true⟩]) ∧
      ∃ x, RealTimer.polls ⟨true, 10, 5⟩ ([12] ++ [25]) = some ⟨true, x, 5⟩ ∧
        IsLeast {y | 25 < y ∧ ∃ k, y = 10 + k * 5} x.toNat :=
  ⟨((expirations_counted fiveTimer {}).1 rfl rfl (by decide) _ (by decide)).mpr (by decide),
    (expirations_counted {} ⟨true, 10, 5⟩).2 rfl (by decide) [12] 25 (by decide) (by decide)⟩

/-- The eight bytes of the read cannot be copied. -/
theorem fiveTimer_lost : ¬ Meets TimerRun.step (TimerRun.Counted 10 5) ⟨fiveTimer, 0, none, 0⟩
      [.read 22 true false ⟨false, 8, fun _ _ => false⟩] := by
  rintro ⟨⟨h, _⟩, _⟩
  have := h 22 (by decide)
  rw [ncard_ticks (by decide)] at this
  exact absurd this (by decide)

end EdgeOS
