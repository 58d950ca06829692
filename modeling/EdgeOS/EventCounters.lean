import EdgeOS.Lib.Runs
import EdgeOS.SpecialTransfer

namespace EdgeOS

open Lib

/-!
An event counter over the reads and writes of any processes. A call that waits looks again later, so each look is an
event of its own; the value of a write stays the one it copied in first.
-/

/-- `eventfd_alloc_obj` with the `uint32_t` that `do_sys_eventfd2` passes on. -/
def EventFd.alloc (initval : UInt32) (semaphore : Bool) : EventFd where
  counter := initval.toUInt64
  semaphore := semaphore

inductive CounterCall
  | read (nonblock interrupted : Bool) (buf : ReadBuf)
  | write (nonblock interrupted : Bool) (buf : UserBuf)

def writtenValue (buf : UserBuf) : UInt64 := wordOf (buf.data.take 8)

/-- A counter, and the sums of the values that were written to it and read from it. -/
structure CounterRun where
  ev : EventFd
  written : ℕ := 0
  returned : ℕ := 0

namespace CounterRun

def step (s : CounterRun) : CounterCall → CounterRun
  | .read nonblock interrupted buf =>
    let out := eventfdRead s.ev nonblock interrupted buf
    match out.2 with
    | .ret (.ok v) => { s with ev := out.1, returned := s.returned + v.toNat }
    | _ => { s with ev := out.1 }
  | .write nonblock interrupted buf =>
    let out := eventfdWrite s.ev nonblock interrupted buf
    match out.2 with
    | .ret (.ok _) => { s with ev := out.1, written := s.written + (writtenValue buf).toNat }
    | _ => { s with ev := out.1 }

def Valid (_ : CounterRun) : CounterCall → Prop
  | .read _ _ buf => 8 ≤ buf.len ∧ buf.copied 0 8 = true
  | .write _ _ buf => 8 ≤ buf.data.length ∧ buf.rangeOk 0 8 = true

/-- When a call that does not block is told to come again, and what a read returns: 1 in semaphore mode, and else the
whole counter. -/
def Answers (s : CounterRun) : CounterCall → Prop
  | .read nonblock interrupted buf =>
    (nonblock = true →
      ((eventfdRead s.ev nonblock interrupted buf).2 = .ret (.error .eagain) ↔ s.ev.counter.toNat = 0)) ∧
    ∀ v, (eventfdRead s.ev nonblock interrupted buf).2 = .ret (.ok v) →
      v.toNat = if s.ev.semaphore = true then 1 else s.ev.counter.toNat
  | .write nonblock interrupted buf => nonblock = true → if (writtenValue buf).toNat = 2 ^ 64 - 1 then
        (eventfdWrite s.ev nonblock interrupted buf).2 = .ret (.error .einval)
      else
        ((eventfdWrite s.ev nonblock interrupted buf).2 = .ret (.error .eagain) ↔
          2 ^ 64 - 2 < s.ev.counter.toNat + (writtenValue buf).toNat)

/-- The machine's numbers are the numbers: the room that a write computes, the sum that it stores and the
difference that a read leaves. -/
def NoWrap (s : CounterRun) : CounterCall → Prop
  | .read nonblock interrupted buf =>
    ∀ v, (eventfdRead s.ev nonblock interrupted buf).2 = .ret (.ok v) →
      (eventfdRead s.ev nonblock interrupted buf).1.counter.toNat + v.toNat = s.ev.counter.toNat
  | .write nonblock interrupted buf =>
    (uint64Max - 1 - s.ev.counter).toNat + s.ev.counter.toNat = 2 ^ 64 - 2 ∧
      ∀ n, (eventfdWrite s.ev nonblock interrupted buf).2 = .ret (.ok n) →
        (eventfdWrite s.ev nonblock interrupted buf).1.counter.toNat = s.ev.counter.toNat + (writtenValue buf).toNat

structure Conserved (init : ℕ) (semaphore : Bool) (s : CounterRun) : Prop where
  used : s.ev.used = true
  mode : s.ev.semaphore = semaphore
  bound : s.ev.counter.toNat ≤ 2 ^ 64 - 2
  sum : init + s.written = s.returned + s.ev.counter.toNat

variable {s : CounterRun} {init : ℕ} {semaphore : Bool}

theorem room_toNat (h : s.ev.counter.toNat ≤ 2 ^ 64 - 2) :
    (uint64Max - 1 - s.ev.counter).toNat = 2 ^ 64 - 2 - s.ev.counter.toNat := by
  have hle : s.ev.counter ≤ uint64Max - 1 := UInt64.le_iff_toNat_le.mpr h
  rw [UInt64.toNat_sub_of_le _ _ hle]
  rfl

/-- A look of a read: there is nothing, or it takes its part off the counter. -/
theorem read_cases (hused : s.ev.used = true) {buf : ReadBuf} (hv : 8 ≤ buf.len ∧ buf.copied 0 8 = true)
    (nonblock interrupted : Bool) :
    s.ev.counter.toNat = 0 ∧ eventfdRead s.ev nonblock interrupted buf = (s.ev, missing nonblock interrupted) ∨
      0 < s.ev.counter.toNat ∧ ∃ ev v, eventfdRead s.ev nonblock interrupted buf = (ev, .ret (.ok v)) ∧
        ev.used = true ∧ ev.semaphore = s.ev.semaphore ∧ ev.counter.toNat + v.toNat = s.ev.counter.toNat ∧
        v.toNat = if s.ev.semaphore = true then 1 else s.ev.counter.toNat := by
  unfold eventfdRead
  rw [if_neg (by omega), if_neg (by simp [hused]), hv.2, if_pos rfl]
  by_cases hz : s.ev.counter = 0
  · rw [if_pos hz]
    exact .inl ⟨by rw [hz]; rfl, rfl⟩
  rw [if_neg hz]
  have hpos : 0 < s.ev.counter.toNat := UInt64.lt_iff_toNat_lt.mp (UInt64.pos_iff_ne_zero.mpr hz)
  refine .inr ⟨hpos, _, _, rfl, ?_⟩
  unfold EventFd.take
  split_ifs
  · have hone : (1 : UInt64) ≤ s.ev.counter := UInt64.le_iff_toNat_le.mpr hpos
    refine ⟨hused, rfl, ?_, rfl⟩
    dsimp only
    rw [UInt64.toNat_sub_of_le _ _ hone]
    exact Nat.sub_add_cancel hpos
  · exact ⟨hused, rfl, Nat.zero_add _, rfl⟩

/-- A look of a write: the value is refused, or there is no room, or it goes on the counter. -/
theorem write_cases (hused : s.ev.used = true) (hbound : s.ev.counter.toNat ≤ 2 ^ 64 - 2) {buf : UserBuf}
    (hv : 8 ≤ buf.data.length ∧ buf.rangeOk 0 8 = true) (nonblock interrupted : Bool) :
    (writtenValue buf).toNat = 2 ^ 64 - 1 ∧ eventfdWrite s.ev nonblock interrupted buf = (s.ev, .ret (.error .einval)) ∨
      (writtenValue buf).toNat ≠ 2 ^ 64 - 1 ∧ 2 ^ 64 - 2 < s.ev.counter.toNat + (writtenValue buf).toNat ∧
        eventfdWrite s.ev nonblock interrupted buf = (s.ev, missing nonblock interrupted) ∨
      (writtenValue buf).toNat ≠ 2 ^ 64 - 1 ∧ s.ev.counter.toNat + (writtenValue buf).toNat ≤ 2 ^ 64 - 2 ∧
        ∃ ev, eventfdWrite s.ev nonblock interrupted buf = (ev, .ret (.ok 8)) ∧ ev.used = true ∧
          ev.semaphore = s.ev.semaphore ∧ ev.counter.toNat = s.ev.counter.toNat + (writtenValue buf).toNat := by
  have hmax : writtenValue buf = uint64Max ↔ (writtenValue buf).toNat = 2 ^ 64 - 1 := UInt64.toNat_inj.symm
  have hwrite : eventfdWrite s.ev nonblock interrupted buf =
      if writtenValue buf = uint64Max then (s.ev, .ret (.error .einval))
      else if uint64Max - 1 - s.ev.counter < writtenValue buf then (s.ev, missing nonblock interrupted)
      else ({ s.ev with counter := s.ev.counter + writtenValue buf }, .ret (.ok 8)) := by
    unfold eventfdWrite
    rw [if_neg (by omega), if_neg (by simp [hused]), if_neg (by simp [hv.2])]
    rfl
  rw [hwrite]
  by_cases hv : writtenValue buf = uint64Max
  · rw [if_pos hv]
    exact .inl ⟨hmax.mp hv, rfl⟩
  have hne := mt hmax.mpr hv
  have hroom := room_toNat hbound
  rw [if_neg hv]
  by_cases hlt : uint64Max - 1 - s.ev.counter < writtenValue buf
  · rw [if_pos hlt]
    have := UInt64.lt_iff_toNat_lt.mp hlt
    exact .inr (.inl ⟨hne, by omega, rfl⟩)
  rw [if_neg hlt]
  have hle : (writtenValue buf).toNat ≤ (uint64Max - 1 - s.ev.counter).toNat :=
    UInt64.le_iff_toNat_le.mp (UInt64.not_lt.mp hlt)
  refine .inr (.inr ⟨hne, by omega, _, rfl, hused, rfl, ?_⟩)
  dsimp only
  rw [UInt64.toNat_add]
  omega

theorem missing_ne_ok {α : Type} (nonblock interrupted : Bool) (v : α) :
    missing nonblock interrupted ≠ .ret (.ok v) := by
  unfold missing
  split_ifs <;> simp

theorem conserved_alloc (initval : UInt32) (semaphore : Bool) :
    Conserved initval.toNat semaphore ⟨EventFd.alloc initval semaphore, 0, 0⟩ := by
  have hc : (EventFd.alloc initval semaphore).counter.toNat = initval.toNat := rfl
  have := initval.toNat_lt
  refine ⟨rfl, rfl, ?_, ?_⟩
  · dsimp only
    omega
  · dsimp only
    omega

theorem Conserved.step (hI : Conserved init semaphore s) {e : CounterCall} (hv : Valid s e) :
    Conserved init semaphore (s.step e) := by
  have hsum := hI.sum
  cases e with
  | read nonblock interrupted buf =>
    unfold CounterRun.step
    dsimp only
    rcases read_cases hI.used hv nonblock interrupted with ⟨_, h⟩ | ⟨_, ev, v, h, hused, hmode, hev, _⟩
    · rw [h]
      dsimp only
      split
      · rename_i v hm
        exact absurd hm (missing_ne_ok _ _ v)
      · exact hI
    rw [h]
    refine ⟨hused, hmode.trans hI.mode, ?_, ?_⟩
    · have := hI.bound
      dsimp only
      omega
    · dsimp only
      omega
  | write nonblock interrupted buf =>
    unfold CounterRun.step
    dsimp only
    rcases write_cases hI.used hI.bound hv nonblock interrupted with
      ⟨_, h⟩ | ⟨_, _, h⟩ | ⟨_, hroom, ev, h, hused, hmode, hev⟩
    · rw [h]
      exact hI
    · rw [h]
      split
      · rename_i v hm
        exact absurd hm (missing_ne_ok _ _ v)
      · exact hI
    · rw [h]
      refine ⟨hused, hmode.trans hI.mode, ?_, ?_⟩
      · dsimp only
        omega
      · dsimp only
        omega

theorem Conserved.answers (hI : Conserved init semaphore s) {e : CounterCall} (hv : Valid s e) : Answers s e ∧ NoWrap s e := by
  cases e with
  | read nonblock interrupted buf =>
    refine ⟨⟨fun hn => ?_, fun v hok => ?_⟩, fun v hok => ?_⟩
    · subst hn
      rcases read_cases hI.used hv true interrupted with ⟨hz, h⟩ | ⟨hpos, ev, v, h, _⟩
      · rw [h]
        exact iff_of_true rfl hz
      · rw [h]
        exact iff_of_false (by simp) (by omega)
    · rcases read_cases hI.used hv nonblock interrupted with ⟨_, h⟩ | ⟨_, ev, w, h, _, _, _, hw⟩
      · rw [h] at hok
        exact absurd hok (missing_ne_ok _ _ v)
      rw [h] at hok
      obtain rfl := Except.ok.inj (Outcome.ret.inj hok)
      exact hw
    · rcases read_cases hI.used hv nonblock interrupted with ⟨_, h⟩ | ⟨_, ev, w, h, _, _, hev, _⟩
      · rw [h] at hok
        exact absurd hok (missing_ne_ok _ _ v)
      rw [h] at hok ⊢
      obtain rfl := Except.ok.inj (Outcome.ret.inj hok)
      exact hev
  | write nonblock interrupted buf =>
    constructor
    · intro hn
      subst hn
      rcases write_cases hI.used hI.bound hv true interrupted with ⟨hmax, h⟩ | ⟨hne, hlt, h⟩ | ⟨hne, hle, ev, h, _, _⟩
      · rw [if_pos hmax, h]
      · rw [if_neg hne, h]
        exact iff_of_true rfl hlt
      · rw [if_neg hne, h]
        exact iff_of_false (by simp) (by omega)
    · refine ⟨by rw [room_toNat hI.bound]; exact Nat.sub_add_cancel hI.bound, fun n hok => ?_⟩
      rcases write_cases hI.used hI.bound hv nonblock interrupted with ⟨_, h⟩ | ⟨_, _, h⟩ | ⟨_, _, ev, h, _, _, hev⟩
      · rw [h] at hok
        exact absurd hok (by simp)
      · rw [h] at hok
        exact absurd hok (missing_ne_ok _ _ n)
      · rw [h]
        exact hev

/-- Over any interleaving of reads and writes with good buffers nothing is lost, nothing wraps, a read in semaphore mode
takes 1, and a call that does not block is told to come again just where it has to wait; the value `2 ^ 64 - 1` is
refused. -/
theorem counter_conserved (initval : UInt32) (semaphore : Bool) (es : List CounterCall)
    (hv : Meets step Valid ⟨EventFd.alloc initval semaphore, 0, 0⟩ es) :
    let s := run step ⟨EventFd.alloc initval semaphore, 0, 0⟩ es
    s.ev.semaphore = semaphore ∧ s.ev.counter.toNat ≤ 2 ^ 64 - 2 ∧
      initval.toNat + s.written = s.returned + s.ev.counter.toNat ∧
      Meets step (fun s e => Answers s e ∧ NoWrap s e) ⟨EventFd.alloc initval semaphore, 0, 0⟩ es := by
  have hI := run_invariant (fun s e (h : Conserved _ semaphore s) hv => h.step hv)
    (conserved_alloc initval semaphore) hv
  exact ⟨hI.mode, hI.bound, hI.sum, meets_of_invariant (fun s e (h : Conserved _ semaphore s) hv => h.step hv)
      (fun s e h hv => h.answers hv) (conserved_alloc initval semaphore) hv⟩

def eightBytes (v : List UInt8) : UserBuf where
  data := v

/-- A counter of single steps at 1: a write of 2, two reads, and one more read and write that are refused. -/
def singleSteps : List CounterCall :=
  [.write true false (eightBytes [2, 0, 0, 0, 0, 0, 0, 0]), .read true false ⟨false, 8, fun _ _ => true⟩,
    .read false true ⟨false, 8, fun _ _ => true⟩,
    .write true false (eightBytes [254, 255, 255, 255, 255, 255, 255, 255])]

theorem singleSteps_conserved : let s := run step ⟨EventFd.alloc 1 true, 0, 0⟩ singleSteps
    s.ev.semaphore = true ∧ s.ev.counter.toNat ≤ 2 ^ 64 - 2 ∧ (1 : UInt32).toNat + s.written = s.returned + s.ev.counter.toNat ∧
      Meets step (fun s e => Answers s e ∧ NoWrap s e) ⟨EventFd.alloc 1 true, 0, 0⟩ singleSteps :=
  counter_conserved 1 true singleSteps
    ⟨⟨by decide, rfl⟩, ⟨by decide, rfl⟩, ⟨by decide, rfl⟩, ⟨by decide, rfl⟩, trivial⟩

/-- The value `2 ^ 64 - 1` never fits, and yet the call is not told to come again. -/
theorem maxValue_einval :
    (2 ^ 64 - 2 < (EventFd.alloc 0 false).counter.toNat + (writtenValue (eightBytes (List.replicate 8 255))).toNat) ∧
      (eventfdWrite (EventFd.alloc 0 false) true false (eightBytes (List.replicate 8 255))).2 ≠
        .ret (.error .eagain) := by
  refine ⟨by decide, ?_⟩
  have h : (eventfdWrite (EventFd.alloc 0 false) true false (eightBytes (List.replicate 8 255))).2 =
      .ret (.error .einval) := rfl
  rw [h]
  simp

end CounterRun

end EdgeOS
