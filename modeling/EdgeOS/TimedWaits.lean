import EdgeOS.Lib.ClockWait
import EdgeOS.PollSelect

namespace EdgeOS

open Lib UserTime
open UInt64 (ofNat toNat_mul toNat_ofNat' toNat_add)

/-!
Calls with a timeout: `nanosleep`, `clock_nanosleep`, `poll`, `ppoll`, `select`, `pselect6`, `epoll_wait` and the wait
on a futex. Each turns what it is asked for into microseconds in its own way and then looks at the clock in a loop.
-/

/-! ## Waiting -/

/-- What one turn of a loop finds: the clock, whether a signal is pending, and whether something has happened that the
call waits for. -/
structure WaitLook where
  now : UInt64
  interrupted : Bool := false
  woken : Bool := false

inductive WaitEnd
  | expired
  | interrupted
  | woken
  deriving DecidableEq, Repr

/-- A call behind its checks: it fails, it returns when the clock shows `now`, or it goes into a loop. -/
inductive TimedCall
  | failed (e : Errno)
  | done (e : WaitEnd) (now : UInt64)
  | loop (turn : WaitLook → Option WaitEnd)

def TimedCall.waitLoop (turn : WaitLook → Option WaitEnd) : List WaitLook → Option (WaitEnd × UInt64)
  | [] => none
  | l :: looks =>
    match turn l with
    | some e => some (e, l.now)
    | none => waitLoop turn looks

/-- How a call that does not fail ends, and what the clock shows then. -/
def TimedCall.run (c : TimedCall) (looks : List WaitLook) : Option (WaitEnd × UInt64) :=
  match c with
  | .failed _ => none
  | .done e now => some (e, now)
  | .loop turn => waitLoop turn looks

/-- `do_sys_sleep`; `woken` says that the task is a zombie. -/
def doSysSleep (start ms : UInt64) : TimedCall :=
  if ms = 0 then .done .expired start
  else .loop fun l =>
    if ms * 1000 ≤ l.now - start then some .expired
    else if l.interrupted then some .interrupted
    else if l.woken then some .interrupted
    else none

def timespecToUsChecked (t : UserTime) : Option UInt64 :=
  if t.sec < 0 ∨ t.frac < 0 ∨ 1000000000 ≤ t.frac then none
  else some (.ofNat t.sec.toNat * 1000000 + .ofNat (t.frac.toNat / 1000))

def doSysNanosleep (start : UInt64) (req : Option UserTime) : TimedCall :=
  match req with
  | none => .failed .einval
  | some t =>
    if !t.readable then .failed .efault
    else if t.sec < 0 ∨ t.frac < 0 then .failed .einval
    else doSysSleep start (.ofNat t.sec.toNat * 1000 + .ofNat (t.frac.toNat / 1000000))

def clockRealtime : UInt64 := 0
def clockMonotonic : UInt64 := 1
def timerAbstime : UInt64 := 1

/-- The readings of the clock before a loop: the one that an absolute time is compared with, and the one that the wait
counts from. -/
structure WaitClocks where
  bootRealtimeUs : UInt64
  entry : UInt64
  start : UInt64
  ordered : entry ≤ start

/-- `base_now`. -/
def WaitClocks.base (k : WaitClocks) (clk : UInt64) : UInt64 :=
  if clk = clockRealtime then k.bootRealtimeUs + k.entry else k.entry

/-- The loop of `do_sys_clock_nanosleep`. -/
def sleepUntil (target : UInt64) : TimedCall :=
  .loop fun l => if target ≤ l.now then some .expired else if l.interrupted then some .interrupted else none

def doSysClockNanosleep (k : WaitClocks) (clk flags : UInt64) (req : Option UserTime) : TimedCall :=
  if flags &&& ~~~timerAbstime ≠ 0 then .failed .einval
  else if clk ≠ clockRealtime ∧ clk ≠ clockMonotonic then .failed .einval
  else
    match req with
    | none => .failed .einval
    | some t =>
      if !t.readable then .failed .efault
      else
        match timespecToUsChecked t with
        | none => .failed .einval
        | some us =>
          if flags &&& timerAbstime ≠ 0 then
            if us ≤ k.base clk then .done .expired k.entry else sleepUntil (k.start + (us - k.base clk))
          else sleepUntil (k.start + us)

/-- The wait of `do_sys_futex`. `same` says whether the word has the expected value at first; `absolute` whether the
command is `FUTEX_WAIT_BITSET` on the time of day. -/
def futexWait (k : WaitClocks) (check : Except Errno Unit) (same absolute : Bool) (timeout : Option UserTime) :
    TimedCall :=
  let wait (deadline : UInt64) : TimedCall := .loop fun l =>
    if l.woken then some .woken
    else if l.interrupted then some .interrupted
    else if deadline ≠ 0 ∧ deadline ≤ l.now then some .expired
    else none
  match check with
  | .error e => .failed e
  | .ok () =>
    if !same then .failed .eagain
    else
      match timeout with
      | none => wait 0
      | some t =>
        if !t.readable then .failed .efault
        else
          match timespecToUsChecked t with
          | none => .failed .einval
          | some us =>
            if absolute then
              if us ≤ k.base clockRealtime then .done .expired k.entry
              else wait (k.start + (us - k.base clockRealtime))
            else wait (k.start + us)

def timeoutPassed (start : UInt64) (ms : ℤ) (now : UInt64) : Bool :=
  ms = 0 ∨ 0 < ms ∧ UInt64.ofNat ms.toNat * 1000 ≤ now - start

/-- The loops of `do_sys_poll`, `do_sys_select` and `do_sys_pselect6`. -/
def pollLoop (start : UInt64) (ms : ℤ) : TimedCall :=
  .loop fun l =>
    if l.interrupted then some .interrupted
    else if l.woken then some .woken
    else if timeoutPassed start ms l.now then some .expired
    else none

/-- `(int)`. -/
def toInt (x : UInt64) : ℤ := (x.toNat : ℤ).bmod (2 ^ 32)

/-- `do_sys_poll`; `null` and `copied` say whether there are descriptors and whether they can be read. -/
def doSysPoll (start : UInt64) (null copied : Bool) (nfdsU timeoutU : UInt64) : TimedCall :=
  let nfds := toInt nfdsU
  let timeout := toInt timeoutU
  if null then .failed .einval
  else if nfds < 0 ∨ 64 < nfds then .failed .einval
  else if nfds = 0 then
    if 0 < timeout then
      -- what the sleep returns is not looked at
      match doSysSleep start (.ofNat timeout.toNat) with
      | .loop turn => .loop fun l => (turn l).map fun _ => .expired
      | _ => .done .expired start
    else .done .expired start
  else if !copied then .failed .efault
  else pollLoop start timeout

def doSysPpoll (start : UInt64) (null copied : Bool) (nfdsU : UInt64) (timeout : Option UserTime) : TimedCall :=
  match selectTimeoutMs 1000000 timeout with
  | .error e => .failed e
  | .ok ms => doSysPoll start null copied nfdsU (.ofInt ms)

/-- The wait of `do_sys_select` and of `do_sys_pselect6` behind the checks of the other arguments. -/
def selectWait (start : UInt64) (check : Except Errno Unit) (perMs : ℤ) (timeout : Option UserTime) : TimedCall :=
  match check with
  | .error e => .failed e
  | .ok () =>
    match selectTimeoutMs perMs timeout with
    | .error e => .failed e
    | .ok ms => pollLoop start ms

/-- The wait of `do_sys_epoll_wait` behind the checks of the other arguments. -/
def epollWait (start : UInt64) (check : Except Errno Unit) (timeoutU : UInt64) : TimedCall :=
  match check with
  | .error e => .failed e
  | .ok () => .loop fun l =>
    if l.woken then some .woken
    else if timeoutPassed start (toInt timeoutU) l.now then some .expired
    else if l.interrupted then some .interrupted
    else none

/-! ## What is asked for -/

inductive TimedRequest
  | nanosleep (req : Option UserTime)
  | clockNanosleep (clk flags : UInt64) (req : Option UserTime)
  | poll (null copied : Bool) (nfdsU timeoutU : UInt64)
  | ppoll (null copied : Bool) (nfdsU : UInt64) (timeout : Option UserTime)
  | select (check : Except Errno Unit) (timeout : Option UserTime)
  | pselect6 (check : Except Errno Unit) (timeout : Option UserTime)
  | futexWait (check : Except Errno Unit) (same : Bool) (timeout : Option UserTime)
  | epollWait (check : Except Errno Unit) (timeoutU : UInt64)

/-- The time in microseconds, rounded up; a microsecond has `perUs` of the units of the fraction. -/
def UserTime.us (perUs : ℕ) (t : UserTime) : ℕ := t.sec.toNat * 1000000 + (t.frac.toNat + (perUs - 1)) / perUs

/-- When a wait for an `int` of milliseconds is over. -/
def dueMs (start : UInt64) (ms : ℤ) : ℕ∞ := if ms < 0 then ⊤ else (start.toNat + ms.toNat * 1000 : ℕ)

/-- When a wait for a time is over; without a time it never is. -/
def dueTime (start : UInt64) (perUs : ℕ) : Option UserTime → ℕ∞
  | none => ⊤
  | some t => (start.toNat + t.us perUs : ℕ)

namespace TimedRequest

variable (k : WaitClocks)

def call : TimedRequest → TimedCall
  | .nanosleep req => doSysNanosleep k.start req
  | .clockNanosleep clk flags req => doSysClockNanosleep k clk flags req
  | .poll null copied nfdsU timeoutU => doSysPoll k.start null copied nfdsU timeoutU
  | .ppoll null copied nfdsU timeout => doSysPpoll k.start null copied nfdsU timeout
  | .select check timeout => selectWait k.start check 1000 timeout
  | .pselect6 check timeout => selectWait k.start check 1000000 timeout
  | .futexWait check same timeout => EdgeOS.futexWait k check same false timeout
  | .epollWait check timeoutU => EdgeOS.epollWait k.start check timeoutU

def due : TimedRequest → ℕ∞
  | .nanosleep req => dueTime k.start 1000 req
  | .clockNanosleep clk flags req =>
    if flags &&& timerAbstime = 0 then dueTime k.start 1000 req
    else
      match req with
      | none => ⊤
      | some t => (k.entry.toNat + (t.us 1000 - (k.base clk).toNat) : ℕ)
  | .poll _ _ _ timeoutU => dueMs k.start (toInt timeoutU)
  | .ppoll _ _ _ timeout => dueTime k.start 1000 timeout
  | .select _ timeout => dueTime k.start 1 timeout
  | .pselect6 _ timeout => dueTime k.start 1000 timeout
  | .futexWait _ _ timeout => dueTime k.start 1000 timeout
  | .epollWait _ timeoutU => dueMs k.start (toInt timeoutU)

def Accepted (q : TimedRequest) : Prop := ∀ e, q.call k ≠ .failed e

end TimedRequest

/-- Over any readings of the clock, with nothing else happening, the call reports that its time has passed only once
`due` has come. -/
def TimedCall.NeverBefore (c : TimedCall) (start : UInt64) (due : ℕ∞) : Prop :=
  ∀ readings : List UInt64, (start :: readings).Pairwise (· ≤ ·) →
    ∀ t, c.run (readings.map fun now => { now := now }) = some (.expired, t) → due ≤ (t.toNat : ℕ∞)

/-! ## Waits in a loop -/

namespace TimedCall

variable {start : UInt64} {due : ℕ∞}

theorem neverBefore_done (now : UInt64) : (TimedCall.done .expired now).NeverBefore start due ↔ due ≤ now.toNat := by
  constructor
  · intro h
    exact h [] (List.pairwise_singleton _ _) now rfl
  · rintro h readings - t ht
    rw [← (Prod.mk.inj (Option.some.inj ht)).2]
    exact h

variable {turn : WaitLook → Option WaitEnd}

theorem waitLoop_idle {test : UInt64 → Bool}
    (hturn : ∀ now, turn { now := now } = if test now = true then some .expired else none) (readings : List UInt64) :
    waitLoop turn (readings.map fun now => { now := now }) = (readings.find? test).map fun t => (.expired, t) := by
  induction readings with
  | nil => rfl
  | cons now readings ih =>
    rw [List.map_cons, waitLoop, hturn, List.find?_cons]
    cases test now with
    | false => exact ih
    | true => rfl

theorem neverBefore_loop (test : UInt64 → Bool)
    (hturn : ∀ now, turn { now := now } = if test now = true then some .expired else none) :
    (TimedCall.loop turn).NeverBefore start due ↔ NotBefore test start due := by
  rw [← find?_due_iff]
  unfold NeverBefore run
  simp only [waitLoop_idle hturn, Option.map_eq_some_iff, Prod.mk.injEq, true_and, exists_eq_right]

end TimedCall

variable {start : UInt64} {n : ℕ}

theorem doSysSleep_loop {ms : UInt64} (hms : ms ≠ 0) : doSysSleep start ms = .loop fun l =>
      if ms * 1000 ≤ l.now - start then some .expired
      else if l.interrupted then some .interrupted
      else if l.woken then some .interrupted
      else none :=
  if_neg hms

theorem doSysSleep_neverBefore (ms : UInt64) : (doSysSleep start ms).NeverBefore start n ↔
      n ≤ start.toNat + (ms * 1000).toNat ∨ 2 ^ 64 ≤ start.toNat + (ms * 1000).toNat := by
  unfold doSysSleep
  split_ifs with h
  · have hlt := start.toNat_lt
    have hzero : (ms * 1000).toNat = 0 := by rw [h]; rfl
    rw [TimedCall.neverBefore_done, Nat.cast_le, hzero]
    omega
  · rw [TimedCall.neverBefore_loop (fun now => ms * 1000 ≤ now - start) (fun now => by simp), notBefore_elapsed]

theorem sleepUntil_neverBefore (target : UInt64) :
    (sleepUntil target).NeverBefore start n ↔ n ≤ max start.toNat target.toNat := by
  unfold sleepUntil
  rw [TimedCall.neverBefore_loop (fun now => target ≤ now) (fun now => by simp), notBefore_deadline]

theorem timeoutPassed_neg {ms : ℤ} (hms : ms < 0) (due : ℕ∞) : NotBefore (timeoutPassed start ms) start due := by
  intro now _ hpass
  unfold timeoutPassed at hpass
  rw [decide_eq_true_iff] at hpass
  omega

theorem timeoutPassed_notBefore {ms : ℤ} (hms : 0 ≤ ms) (hlt : ms < 2 ^ 32) :
    NotBefore (timeoutPassed start ms) start n ↔
      n ≤ start.toNat + ms.toNat * 1000 ∨ 2 ^ 64 ≤ start.toNat + ms.toNat * 1000 := by
  have hspan : (ofNat ms.toNat * 1000).toNat = ms.toNat * 1000 := by
    have hthousand : (1000 : UInt64).toNat = 1000 := rfl
    rw [toNat_mul, toNat_ofNat', hthousand]
    omega
  rw [← hspan, ← notBefore_elapsed]
  have htest : ∀ now, start ≤ now →
      (timeoutPassed start ms now = true ↔ decide (ofNat ms.toNat * 1000 ≤ now - start) = true) := by
    intro now _
    unfold timeoutPassed
    rw [decide_eq_true_iff, decide_eq_true_iff]
    by_cases h0 : ms = 0
    · subst h0
      simp [UInt64.le_iff_toNat_le]
    · have : 0 < ms := by omega
      simp [h0, this]
  unfold NotBefore
  exact forall_congr' fun now => forall_congr' fun hle => by rw [htest now hle]

theorem pollLoop_neverBefore (ms : ℤ) (due : ℕ∞) :
    (pollLoop start ms).NeverBefore start due ↔ NotBefore (timeoutPassed start ms) start due :=
  TimedCall.neverBefore_loop _ fun now => by simp

theorem epollWait_neverBefore (timeoutU : UInt64) (due : ℕ∞) :
    (epollWait start (.ok ()) timeoutU).NeverBefore start due ↔
      NotBefore (timeoutPassed start (toInt timeoutU)) start due :=
  TimedCall.neverBefore_loop _ fun now => by simp

/-! ## When a call waits long enough -/

def UserTime.cutMs (perMs : ℕ) (t : UserTime) : ℕ :=
  if 2147483 < t.sec then 2147483647 else t.sec.toNat * 1000 + t.frac.toNat / perMs

/-- Nothing is cut off, or the clock ends before the cut time has passed. -/
def UserTime.WholeMs (start : UInt64) (perMs : ℕ) (t : UserTime) : Prop :=
  t.sec ≤ 2147483 ∧ t.frac.toNat % perMs = 0 ∨ 2 ^ 64 ≤ start.toNat + t.cutMs perMs * 1000

namespace TimedRequest

def LongEnough (k : WaitClocks) : TimedRequest → Prop
  | .nanosleep none => True
  | .nanosleep (some t) =>
    t.frac.toNat % 1000000 = 0 ∧ t.us 1000 < 2 ^ 64 ∨
      2 ^ 64 ≤ k.start.toNat + (t.sec.toNat * 1000 + t.frac.toNat / 1000000) * 1000 % 2 ^ 64
  | .clockNanosleep _ _ none => True
  | .clockNanosleep clk flags (some t) =>
    if flags &&& timerAbstime = 0 then t.frac.toNat % 1000 = 0 ∧ k.start.toNat + t.us 1000 < 2 ^ 64
    else
      -- the time that the code compares, cut down to a microsecond
      let us := t.sec.toNat * 1000000 + t.frac.toNat / 1000
      let base := (k.base clk).toNat
      us < 2 ^ 64 ∧ if us ≤ base then t.us 1000 ≤ base
        else if k.start.toNat + (us - base) < 2 ^ 64 then t.frac.toNat % 1000 = 0 ∨ k.entry < k.start
        else k.entry.toNat + (t.us 1000 - base) ≤ k.start.toNat
  | .poll _ _ nfdsU timeoutU => toInt nfdsU ≠ 0 ∨ 0 ≤ toInt timeoutU
  | .ppoll _ _ nfdsU none => toInt nfdsU ≠ 0
  | .ppoll _ _ nfdsU (some t) =>
    if 2 ^ 31 ≤ t.cutMs 1000000 then toInt nfdsU ≠ 0 else t.WholeMs k.start 1000000
  | .select _ none => True
  | .select _ (some t) => t.WholeMs k.start 1000
  | .pselect6 _ none => True
  | .pselect6 _ (some t) => t.WholeMs k.start 1000000
  | .futexWait _ _ none => True
  | .futexWait _ _ (some t) =>
    (k.start.toNat + t.sec.toNat * 1000000 + t.frac.toNat / 1000) % 2 ^ 64 = 0 ∨
      t.frac.toNat % 1000 = 0 ∧ k.start.toNat + t.us 1000 < 2 ^ 64
  | .epollWait _ _ => True

end TimedRequest

variable {t : UserTime} {perUs perMs : ℕ}

theorem UserTime.us_le_cutMs (h : perUs = 1 ∧ perMs = 1000 ∨ perUs = 1000 ∧ perMs = 1000000) :
    t.us perUs ≤ t.cutMs perMs * 1000 ↔ t.sec ≤ 2147483 ∧ t.frac.toNat % perMs = 0 := by
  unfold us cutMs
  rcases h with ⟨rfl, rfl⟩ | ⟨rfl, rfl⟩
  · split_ifs <;> omega
  · split_ifs <;> omega

theorem selectTimeoutMs_some {ms : ℤ} (h : selectTimeoutMs perMs (some t) = .ok ms) :
    0 ≤ t.sec ∧ 0 ≤ t.frac ∧ t.frac < perMs * 1000 ∧ ms = t.cutMs perMs := by
  unfold selectTimeoutMs at h
  unfold cutMs
  dsimp only at h
  split_ifs at h with hr hneg hcap
  · obtain rfl := Except.ok.inj h
    refine ⟨by omega, by omega, by omega, ?_⟩
    rw [if_pos (by omega)]
    rfl
  · obtain rfl := Except.ok.inj h
    refine ⟨by omega, by omega, by omega, ?_⟩
    rw [if_neg (by omega)]
    have hsec : ((t.sec.toNat : ℕ) : ℤ) = t.sec := Int.toNat_of_nonneg (by omega)
    have hfrac : ((t.frac.toNat : ℕ) : ℤ) = t.frac := Int.toNat_of_nonneg (by omega)
    rw [Nat.cast_add, Nat.cast_mul, Int.natCast_ediv, hsec, hfrac]
    rfl

theorem UserTime.cutMs_lt (hpos : 0 < perMs) (hfrac : t.frac < perMs * 1000) : t.cutMs perMs < 2 ^ 32 := by
  unfold cutMs
  have hdiv : t.frac.toNat / perMs ≤ 1000 := by
    rw [Nat.div_le_iff_le_mul_add_pred hpos]
    have : (t.frac.toNat : ℤ) ≤ perMs * 1000 := by omega
    omega
  split_ifs <;> omega

variable {check : Except Errno Unit} {timeout : Option UserTime}

theorem selectWait_neverBefore (h : perUs = 1 ∧ perMs = 1000 ∨ perUs = 1000 ∧ perMs = 1000000)
    (hok : ∀ e, selectWait start check perMs timeout ≠ .failed e) :
    (selectWait start check perMs timeout).NeverBefore start (dueTime start perUs timeout) ↔
      ∀ t ∈ timeout, t.WholeMs start perMs := by
  unfold selectWait at hok ⊢
  cases check with
  | error e => exact absurd rfl (hok e)
  | ok u =>
    dsimp only at hok ⊢
    cases hms : selectTimeoutMs perMs timeout with
    | error e =>
      rw [hms] at hok
      exact absurd rfl (hok e)
    | ok ms =>
      rw [pollLoop_neverBefore]
      cases timeout with
      | none =>
        obtain rfl := Except.ok.inj hms
        exact iff_of_true (timeoutPassed_neg (by decide) _) (by simp)
      | some t =>
        obtain ⟨hsec, hfrac, hlt, rfl⟩ := selectTimeoutMs_some hms
        have hcut := cutMs_lt (by omega) hlt
        unfold dueTime
        rw [timeoutPassed_notBefore (by omega) (by exact_mod_cast hcut), Int.toNat_natCast]
        simp only [Option.mem_some_iff, forall_eq']
        unfold UserTime.WholeMs
        rw [← us_le_cutMs h]
        omega

theorem doSysNanosleep_neverBefore (hok : ∀ e, doSysNanosleep start (some t) ≠ .failed e) :
    (doSysNanosleep start (some t)).NeverBefore start (dueTime start 1000 (some t)) ↔
      t.frac.toNat % 1000000 = 0 ∧ t.us 1000 < 2 ^ 64 ∨
        2 ^ 64 ≤ start.toNat + (t.sec.toNat * 1000 + t.frac.toNat / 1000000) * 1000 % 2 ^ 64 := by
  unfold doSysNanosleep at hok ⊢
  dsimp only at hok ⊢
  split_ifs at hok ⊢ with hr hneg
  · exact absurd rfl (hok _)
  · exact absurd rfl (hok _)
  · have hspan : ((ofNat t.sec.toNat * 1000 + ofNat (t.frac.toNat / 1000000)) * 1000).toNat =
        (t.sec.toNat * 1000 + t.frac.toNat / 1000000) * 1000 % 2 ^ 64 := by
      have hthousand : (1000 : UInt64).toNat = 1000 := rfl
      rw [toNat_mul, toNat_add, toNat_mul, toNat_ofNat', toNat_ofNat', hthousand]
      omega
    unfold dueTime us
    rw [doSysSleep_neverBefore, hspan]
    omega

theorem timespecToUsChecked_some {us : UInt64} (h : timespecToUsChecked t = some us) :
    us.toNat = (t.sec.toNat * 1000000 + t.frac.toNat / 1000) % 2 ^ 64 := by
  have hmillion : (1000000 : UInt64).toNat = 1000000 := rfl
  unfold timespecToUsChecked at h
  split_ifs at h
  rw [← Option.some.inj h, toNat_add, toNat_mul, toNat_ofNat', toNat_ofNat', hmillion]
  omega

variable {k : WaitClocks}

theorem doSysClockNanosleep_neverBefore {clk flags : UInt64}
    (hok : ∀ e, doSysClockNanosleep k clk flags (some t) ≠ .failed e) :
    (doSysClockNanosleep k clk flags (some t)).NeverBefore k.start
        ((TimedRequest.clockNanosleep clk flags (some t)).due k) ↔
      (TimedRequest.clockNanosleep clk flags (some t)).LongEnough k := by
  have hentry := UInt64.le_iff_toNat_le.mp k.ordered
  have hstart := k.start.toNat_lt
  have hbase := (k.base clk).toNat_lt
  unfold doSysClockNanosleep at hok ⊢
  dsimp only at hok ⊢
  split_ifs at hok ⊢ with hflags hclk hr habs
  · exact absurd rfl (hok _)
  · exact absurd rfl (hok _)
  · exact absurd rfl (hok _)
  · cases hus : timespecToUsChecked t with
    | none =>
      rw [hus] at hok
      exact absurd rfl (hok _)
    | some us =>
      have husNat := timespecToUsChecked_some hus
      unfold TimedRequest.due TimedRequest.LongEnough UserTime.us
      dsimp only
      rw [if_neg habs, if_neg habs]
      by_cases hpast : us ≤ k.base clk
      · have hpast' := UInt64.le_iff_toNat_le.mp hpast
        rw [if_pos hpast, TimedCall.neverBefore_done, Nat.cast_le]
        split_ifs <;> omega
      have hpast' : (k.base clk).toNat < us.toNat := by
        rw [← UInt64.lt_iff_toNat_lt]
        exact UInt64.not_le.mp hpast
      have hleft : (us - k.base clk).toNat = us.toNat - (k.base clk).toNat :=
        UInt64.toNat_sub_of_le _ _ (UInt64.le_iff_toNat_le.mpr (Nat.le_of_lt hpast'))
      have htarget : (k.start + (us - k.base clk)).toNat =
          (k.start.toNat + (us.toNat - (k.base clk).toNat)) % 2 ^ 64 := by
        rw [toNat_add, hleft]
      have hlt : k.entry < k.start ↔ k.entry.toNat < k.start.toNat := UInt64.lt_iff_toNat_lt
      rw [if_neg hpast, sleepUntil_neverBefore, htarget, hlt]
      split_ifs <;> omega
  · rw [not_ne_iff] at habs
    cases hus : timespecToUsChecked t with
    | none =>
      rw [hus] at hok
      exact absurd rfl (hok _)
    | some us =>
      have husNat := timespecToUsChecked_some hus
      have htarget : (k.start + us).toNat = (k.start.toNat + us.toNat) % 2 ^ 64 := toNat_add _ _
      unfold TimedRequest.due TimedRequest.LongEnough dueTime UserTime.us
      dsimp only
      rw [if_pos habs, if_pos habs, sleepUntil_neverBefore, htarget, husNat]
      omega

theorem futexWait_neverBefore {same : Bool} (hok : ∀ e, futexWait k check same false timeout ≠ .failed e) :
    (futexWait k check same false timeout).NeverBefore k.start (dueTime k.start 1000 timeout) ↔
      (TimedRequest.futexWait check same timeout).LongEnough k := by
  have hwait : ∀ (deadline : UInt64) (due : ℕ∞), (TimedCall.loop fun l =>
        if l.woken then some .woken
        else if l.interrupted then some .interrupted
        else if deadline ≠ 0 ∧ deadline ≤ l.now then some .expired
        else none).NeverBefore k.start due ↔ NotBefore (fun now => deadline ≠ 0 ∧ deadline ≤ now) k.start due :=
    fun deadline due => TimedCall.neverBefore_loop _ fun now => by simp
  have hstart := k.start.toNat_lt
  unfold futexWait at hok ⊢
  cases check with
  | error e => exact absurd rfl (hok e)
  | ok u =>
    cases same with
    | false => exact absurd rfl (hok _)
    | true =>
      dsimp only at hok ⊢
      rw [if_neg (by decide)] at hok ⊢
      cases timeout with
      | none =>
        refine iff_of_true ((hwait 0 _).mpr fun now _ hpass => ?_) trivial
        exact absurd hpass (by simp)
      | some t =>
        dsimp only at hok ⊢
        by_cases hr : t.readable = true
        · rw [hr, if_neg (by decide)] at hok ⊢
          cases hus : timespecToUsChecked t with
          | none =>
            rw [hus] at hok
            exact absurd rfl (hok _)
          | some us =>
            have husNat := timespecToUsChecked_some hus
            have htarget : (k.start + us).toNat = (k.start.toNat + us.toNat) % 2 ^ 64 := toNat_add _ _
            dsimp only
            rw [if_neg Bool.false_ne_true, hwait]
            unfold TimedRequest.LongEnough dueTime UserTime.us
            dsimp only
            by_cases hzero : k.start + us = 0
            · have hzero' : (k.start + us).toNat = 0 := by rw [hzero]; rfl
              refine iff_of_true (fun now _ hpass => ?_) (Or.inl (by omega))
              rw [decide_eq_true_iff] at hpass
              exact absurd hzero hpass.1
            have hpos : (k.start + us).toNat ≠ 0 := fun h => hzero (UInt64.toNat_inj.mp h)
            have htest : (fun now : UInt64 => decide (k.start + us ≠ 0 ∧ k.start + us ≤ now)) =
                fun now => decide (k.start + us ≤ now) := by
              funext now
              simp [hzero]
            rw [htest, notBefore_deadline, htarget, husNat]
            omega
        · rw [Bool.not_eq_true] at hr
          rw [hr] at hok
          exact absurd rfl (hok _)

theorem toInt_range (x : UInt64) : -2 ^ 31 ≤ toInt x ∧ toInt x < 2 ^ 31 := by
  unfold toInt
  constructor
  · exact Int.le_bmod (by decide)
  · exact Int.bmod_lt (by decide)

variable {null copied : Bool} {nfdsU timeoutU : UInt64}

theorem doSysPoll_neverBefore {due : ℕ∞} (hok : ∀ e, doSysPoll start null copied nfdsU timeoutU ≠ .failed e) :
    (doSysPoll start null copied nfdsU timeoutU).NeverBefore start due ↔
      if toInt nfdsU = 0 ∧ toInt timeoutU < 0 then due ≤ start.toNat
      else NotBefore (timeoutPassed start (toInt timeoutU)) start due := by
  unfold doSysPoll at hok ⊢
  dsimp only at hok ⊢
  by_cases hnull : null = true
  · rw [if_pos hnull] at hok
    exact absurd rfl (hok _)
  by_cases hn : toInt nfdsU < 0 ∨ 64 < toInt nfdsU
  · rw [if_neg hnull, if_pos hn] at hok
    exact absurd rfl (hok _)
  rw [if_neg hnull, if_neg hn] at hok ⊢
  by_cases hzero : toInt nfdsU = 0
  · rw [if_pos hzero]
    by_cases hpos : 0 < toInt timeoutU
    · have hms : ofNat (toInt timeoutU).toNat ≠ 0 := by
        obtain ⟨-, hhigh⟩ := toInt_range timeoutU
        intro h
        have hnat := congrArg UInt64.toNat h
        rw [toNat_ofNat', UInt64.toNat_zero] at hnat
        omega
      have htest : (fun now => decide (ofNat (toInt timeoutU).toNat * 1000 ≤ now - start)) =
          timeoutPassed start (toInt timeoutU) := by
        funext now
        unfold timeoutPassed
        simp [hpos, ne_of_gt hpos]
      rw [if_pos hpos, doSysSleep_loop hms, if_neg (by omega), ← htest]
      exact TimedCall.neverBefore_loop _ fun now => by simp [apply_ite]
    · rw [if_neg hpos, TimedCall.neverBefore_done]
      by_cases hneg : toInt timeoutU < 0
      · rw [if_pos ⟨hzero, hneg⟩]
      have hnow : toInt timeoutU = 0 := by omega
      rw [if_neg (by omega), notBefore_atOnce]
      intro now
      unfold timeoutPassed
      simp [hnow]
  · rw [if_neg hzero] at hok ⊢
    by_cases hcopied : copied = true
    · rw [hcopied, if_neg (by decide), if_neg (by omega), pollLoop_neverBefore]
    rw [Bool.not_eq_true] at hcopied
    rw [hcopied] at hok
    exact absurd rfl (hok _)

/-- A wait for an `int` of milliseconds is as long as it should be. -/
theorem timeoutPassed_dueMs {ms : ℤ} (hlt : ms < 2 ^ 31) :
    NotBefore (timeoutPassed start ms) start (dueMs start ms) := by
  unfold dueMs
  split_ifs with hneg
  · exact timeoutPassed_neg hneg _
  · exact (timeoutPassed_notBefore (by omega) (by omega)).mpr (Or.inl (Nat.le_refl _))

theorem toInt_ofInt {ms : ℤ} (hlow : -2 ^ 31 ≤ ms) (hhigh : ms < 2 ^ 32) :
    toInt (.ofInt ms) = if ms < 2 ^ 31 then ms else ms - 2 ^ 32 := by
  have hnat : ((UInt64.ofInt ms).toNat : ℤ) = ms % 2 ^ 64 := by
    unfold UInt64.ofInt
    rw [toNat_ofNat']
    omega
  have hpow : ((2 ^ 32 : ℕ) : ℤ) = 4294967296 := rfl
  unfold toInt Int.bmod
  rw [hnat, hpow]
  dsimp only
  split_ifs <;> omega

theorem doSysPoll_due_iff (hok : ∀ e, doSysPoll k.start null copied nfdsU timeoutU ≠ .failed e) :
    (doSysPoll k.start null copied nfdsU timeoutU).NeverBefore k.start (dueMs k.start (toInt timeoutU)) ↔
      (TimedRequest.poll null copied nfdsU timeoutU).LongEnough k := by
  unfold TimedRequest.LongEnough
  rw [doSysPoll_neverBefore hok]
  split_ifs with h
  · refine iff_of_false (fun hle => ?_) (by omega)
    unfold dueMs at hle
    rw [if_pos h.2, top_le_iff] at hle
    exact ENat.natCast_ne_top _ hle
  · exact iff_of_true (timeoutPassed_dueMs (toInt_range timeoutU).2) (by omega)

theorem doSysPpoll_due_iff (hok : ∀ e, doSysPpoll k.start null copied nfdsU timeout ≠ .failed e) :
    (doSysPpoll k.start null copied nfdsU timeout).NeverBefore k.start (dueTime k.start 1000 timeout) ↔
      (TimedRequest.ppoll null copied nfdsU timeout).LongEnough k := by
  unfold doSysPpoll at hok ⊢
  cases hms : selectTimeoutMs 1000000 timeout with
  | error e =>
    rw [hms] at hok
    exact absurd rfl (hok e)
  | ok ms =>
    rw [hms] at hok
    dsimp only at hok ⊢
    rw [doSysPoll_neverBefore hok]
    cases timeout with
    | none =>
      obtain rfl := Except.ok.inj hms
      have hneg : toInt (.ofInt (-1)) = -1 := toInt_ofInt (by decide) (by decide)
      unfold TimedRequest.LongEnough dueTime
      rw [hneg]
      split_ifs with h
      · refine iff_of_false (fun hle => ?_) (not_not_intro h.1)
        exact ENat.natCast_ne_top _ (top_le_iff.mp hle)
      · exact iff_of_true (timeoutPassed_neg (by decide) _) (by omega)
    | some t =>
      have hthousand : ((1000000 : ℕ) : ℤ) = 1000000 := rfl
      obtain ⟨hsec, hfrac, hlt, rfl⟩ := selectTimeoutMs_some (hthousand ▸ hms)
      have hcut := cutMs_lt (by decide) hlt
      have hint := @toInt_ofInt (t.cutMs 1000000) (by omega) (by omega)
      have hpos : 2 ^ 31 ≤ t.cutMs 1000000 → 0 < t.us 1000 := by
        unfold us cutMs
        split_ifs <;> omega
      unfold TimedRequest.LongEnough dueTime
      dsimp only
      by_cases hbig : 2 ^ 31 ≤ t.cutMs 1000000
      · rw [if_neg (by omega)] at hint
        rw [if_pos hbig, hint]
        split_ifs with h
        · rw [Nat.cast_le]
          have := hpos hbig
          exact iff_of_false (by omega) (not_not_intro h.1)
        · exact iff_of_true (timeoutPassed_neg (by omega) _) (by omega)
      · rw [if_pos (by omega)] at hint
        rw [if_neg hbig, hint, if_neg (by omega), timeoutPassed_notBefore (by omega) (by omega), Int.toNat_natCast]
        unfold UserTime.WholeMs
        rw [← us_le_cutMs (Or.inr ⟨rfl, rfl⟩)]
        omega

theorem doSysClockNanosleep_none (k : WaitClocks) (clk flags : UInt64) :
    doSysClockNanosleep k clk flags none = .failed .einval := by
  unfold doSysClockNanosleep
  split_ifs <;> rfl

/-- A call that is accepted reports that its time has passed only once it has, over any readings of the clock, exactly
when nothing that counts was cut off or has wrapped. -/
theorem waits_long_enough_iff {k : WaitClocks} {q : TimedRequest} (hok : q.Accepted k) :
    (q.call k).NeverBefore k.start (q.due k) ↔ q.LongEnough k := by
  cases q with
  | nanosleep req =>
    cases req with
    | none => exact absurd rfl (hok _)
    | some t => exact doSysNanosleep_neverBefore hok
  | clockNanosleep clk flags req =>
    cases req with
    | none => exact absurd (doSysClockNanosleep_none k clk flags) (hok _)
    | some t => exact doSysClockNanosleep_neverBefore hok
  | poll null copied nfdsU timeoutU =>
    unfold TimedRequest.Accepted TimedRequest.call at hok
    unfold TimedRequest.call TimedRequest.due
    exact doSysPoll_due_iff hok
  | ppoll null copied nfdsU timeout =>
    unfold TimedRequest.Accepted TimedRequest.call at hok
    unfold TimedRequest.call TimedRequest.due
    exact doSysPpoll_due_iff hok
  | select check timeout =>
    refine (selectWait_neverBefore (Or.inl ⟨rfl, rfl⟩) hok).trans ?_
    cases timeout with
    | none => exact iff_of_true (by simp) trivial
    | some t => simp [TimedRequest.LongEnough]
  | pselect6 check timeout =>
    refine (selectWait_neverBefore (Or.inr ⟨rfl, rfl⟩) hok).trans ?_
    cases timeout with
    | none => exact iff_of_true (by simp) trivial
    | some t => simp [TimedRequest.LongEnough]
  | futexWait check same timeout => exact futexWait_neverBefore hok
  | epollWait check timeoutU =>
    cases check with
    | error e => exact absurd rfl (hok e)
    | ok u =>
      exact iff_of_true ((epollWait_neverBefore timeoutU _).mpr (timeoutPassed_dueMs (toInt_range timeoutU).2)) trivial

def freshClocks : WaitClocks where
  bootRealtimeUs := 0
  entry := 0
  start := 0
  ordered := UInt64.le_refl _

/-- A second and a half. -/
theorem nanosleep_long_enough :
    (TimedRequest.call freshClocks (.nanosleep (some { sec := 1, frac := 500000000 }))).NeverBefore freshClocks.start
      (TimedRequest.due freshClocks (.nanosleep (some { sec := 1, frac := 500000000 }))) := by
  have hok : TimedRequest.Accepted freshClocks (.nanosleep (some { sec := 1, frac := 500000000 })) := by
    intro e h
    have hsleep : TimedRequest.call freshClocks (.nanosleep (some { sec := 1, frac := 500000000 })) =
        doSysSleep 0 1500 := rfl
    rw [hsleep, doSysSleep_loop (by decide)] at h
    cases h
  exact (waits_long_enough_iff hok).mpr (Or.inl (by simp [UserTime.us]))

/-- A sleep of half a millisecond returns at once. -/
theorem nanosleep_early :
    ¬ ∀ (k : WaitClocks) (q : TimedRequest), q.Accepted k → (q.call k).NeverBefore k.start (q.due k) := by
  intro h
  have hdone : TimedRequest.call freshClocks (.nanosleep (some { sec := 0, frac := 500000 })) = .done .expired 0 := rfl
  have hearly := h freshClocks (.nanosleep (some { sec := 0, frac := 500000 })) fun e he => by
    rw [hdone] at he
    exact absurd he (by simp)
  rw [hdone, TimedCall.neverBefore_done] at hearly
  exact absurd hearly (by decide)

end EdgeOS
