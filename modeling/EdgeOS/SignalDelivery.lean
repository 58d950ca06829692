import EdgeOS.DirListing
import EdgeOS.IntervalTimers
import EdgeOS.ProcessExec
import EdgeOS.UserCopy

namespace EdgeOS

open Lib List Memory
open UInt64 (ofNat toNat_add toNat_ofNat' lt_iff_toNat_lt toNat_sub_of_le)

/-!
Signals of a task and their delivery when a system call returns: the frame that `maybe_deliver_signal_on_sysret` builds
below the stack pointer, the handler, and the trampoline through which the handler returns.
-/

/-! ## The machine of the user -/

/-- The registers of `REGISTERS` that belong to the user. -/
structure Registers where
  rax : UInt64 := 0
  rbx : UInt64 := 0
  rcx : UInt64 := 0
  rdx : UInt64 := 0
  rbp : UInt64 := 0
  rdi : UInt64 := 0
  rsi : UInt64 := 0
  r8 : UInt64 := 0
  r9 : UInt64 := 0
  r10 : UInt64 := 0
  r11 : UInt64 := 0
  r12 : UInt64 := 0
  r13 : UInt64 := 0
  r14 : UInt64 := 0
  r15 : UInt64 := 0
  rip : UInt64 := 0
  rflags : UInt64 := 0
  rsp : UInt64 := 0
  deriving DecidableEq, Repr

structure UserState where
  regs : Registers
  mem : Memory

def Memory.qword (mem : Memory) (a : UInt64) : UInt64 := wordOf ((List.range 8).map fun i => mem (a + UInt64.ofNat i))

namespace UserState

/-- The instruction `pop rax`. -/
def popRax (u : UserState) : UserState :=
  { u with regs := { u.regs with
      rax := u.mem.qword u.regs.rsp, rsp := u.regs.rsp + 8, rip := u.regs.rip + 1 } }

/-- The instruction `ret`. -/
def ret (u : UserState) : UserState :=
  { u with regs := { u.regs with rip := u.mem.qword u.regs.rsp, rsp := u.regs.rsp + 8 } }

/-- The two instructions at `rip`, if they are the code of the trampoline. -/
def trampoline (u : UserState) : Option UserState :=
  if u.mem u.regs.rip = 0x58 ∧ u.mem (u.regs.rip + 1) = 0xC3 then some u.popRax.ret else none

end UserState

/-- A function that obeys the calling convention: it returns to its caller, keeps the registers of the caller and
writes only below the stack pointer that it was entered with. -/
structure SysVFunction where
  run : UserState → UserState
  rip : ∀ u, (run u).regs.rip = u.mem.qword u.regs.rsp
  rsp : ∀ u, (run u).regs.rsp = u.regs.rsp + 8
  rbx : ∀ u, (run u).regs.rbx = u.regs.rbx
  rbp : ∀ u, (run u).regs.rbp = u.regs.rbp
  r12 : ∀ u, (run u).regs.r12 = u.regs.r12
  r13 : ∀ u, (run u).regs.r13 = u.regs.r13
  r14 : ∀ u, (run u).regs.r14 = u.regs.r14
  r15 : ∀ u, (run u).regs.r15 = u.regs.r15
  mem : ∀ u a, u.regs.rsp ≤ a → (run u).mem a = u.mem a

/-! ## The signals of a task -/

inductive Signal
  | sigint
  | sigterm
  | sigalrm
  | sigchld
  deriving DecidableEq, Repr

def Signal.number : Signal → ℕ
  | .sigint => linuxSigInt
  | .sigterm => linuxSigTerm
  | .sigalrm => linuxSigAlrm
  | .sigchld => linuxSigChld

namespace Signals

def pending (s : Signals) : Signal → Bool
  | .sigint => s.sigintPending
  | .sigterm => s.sigtermPending
  | .sigalrm => s.sigalrmPending
  | .sigchld => s.sigchldPending

def handler (s : Signals) : Signal → ℕ
  | .sigint => s.sigintHandler
  | .sigterm => s.sigtermHandler
  | .sigalrm => s.sigalrmHandler
  | .sigchld => s.sigchldHandler

def setPending (s : Signals) (b : Bool) : Signal → Signals
  | .sigint => { s with sigintPending := b }
  | .sigterm => { s with sigtermPending := b }
  | .sigalrm => { s with sigalrmPending := b }
  | .sigchld => { s with sigchldPending := b }

def setHandler (s : Signals) (h : ℕ) : Signal → Signals
  | .sigint => { s with sigintHandler := h }
  | .sigterm => { s with sigtermHandler := h }
  | .sigalrm => { s with sigalrmHandler := h }
  | .sigchld => { s with sigchldHandler := h }

@[simp] theorem pending_setPending_self (s : Signals) (b : Bool) (sig : Signal) :
    (s.setPending b sig).pending sig = b := by
  cases sig <;> rfl

theorem pending_setPending_of_ne (s : Signals) (b : Bool) {sig sig' : Signal} (h : sig' ≠ sig) :
    (s.setPending b sig).pending sig' = s.pending sig' := by
  cases sig <;> cases sig' <;> first | rfl | exact absurd rfl h

end Signals

def edgeSigtrampAddr : UInt64 := 0x7FF000

structure SigTask where
  sigs : Signals := {}
  sigmask : BitVec 64 := 0
  sigStubInstalled : Bool := false
  timer : RealTimer := {}

namespace SigTask

def timerPoll (t : SigTask) (now : UInt64) : Option SigTask :=
  (t.timer.poll now).map fun out =>
    { t with timer := out.1, sigs := if out.2 then t.sigs.setPending true .sigalrm else t.sigs }

def firstPending (t : SigTask) : Option Signal :=
  [.sigint, .sigterm, .sigalrm, .sigchld].find? fun sig => t.sigs.pending sig && !t.sigmask.getLsbD (sig.number - 1)

/-- The bytes of `pop rax; ret`. -/
def stubCode : List UInt8 := [0x58, 0xC3]

def installUserSigStub (t : SigTask) (mem : Memory) : Option (SigTask × Memory) :=
  if t.sigStubInstalled then some (t, mem)
  else (copyToUser mem edgeSigtrampAddr stubCode 2).map fun mem' => ({ t with sigStubInstalled := true }, mem')

end SigTask

/-- `frame`: the trampoline, `rax` and `rip`. -/
def signalFrame (r : Registers) : List UInt8 :=
  leBytes 8 edgeSigtrampAddr.toNat ++ leBytes 8 r.rax.toNat ++ leBytes 8 r.rip.toNat

/-- The task and the user after `maybe_deliver_signal_on_sysret`, the signal whose handler is called, and the exit
code with which the task is killed. -/
structure Delivery where
  task : SigTask
  user : UserState
  called : Option Signal := none
  killed : Option ℕ := none

/-- The part of `maybe_deliver_signal_on_sysret` after the choice of the signal. -/
def deliverSignal (t : SigTask) (u : UserState) (sig : Signal) : Delivery :=
  let handler := t.sigs.handler sig
  let cleared : SigTask := { t with sigs := t.sigs.setPending false sig }
  if handler = linuxSigIgn then ⟨cleared, u, none, none⟩
  else if handler = linuxSigDfl then
    ⟨cleared, u, none, if sig = .sigint ∨ sig = .sigterm then some (128 + sig.number) else none⟩
  else if !userRangeOk (UInt64.ofNat handler) 1 then ⟨t, u, none, none⟩
  else
    match t.installUserSigStub u.mem with
    | none => ⟨t, u, none, none⟩
    | some (t', mem) =>
      let oldRsp := u.regs.rsp
      if oldRsp < userMinAddr + 24 ∨ oldRsp > userMaxAddr then ⟨t', { u with mem := mem }, none, none⟩
      else if !userRangeOk (oldRsp - 24) 24 then ⟨t', { u with mem := mem }, none, none⟩
      else
        match copyToUser mem (oldRsp - 24) (signalFrame u.regs) 24 with
        | none => ⟨t', { u with mem := mem }, none, none⟩
        | some mem' =>
          ⟨{ t' with sigs := t'.sigs.setPending false sig },
            ⟨{ u.regs with rsp := oldRsp - 24, rip := UInt64.ofNat handler, rdi := UInt64.ofNat sig.number }, mem'⟩,
            some sig, none⟩

/-- `maybe_deliver_signal_on_sysret`; it does not come back where the loop of the timer does not end. -/
def maybeDeliverSignalOnSysret (t : SigTask) (u : UserState) (now : UInt64) : Option Delivery :=
  (t.timerPoll now).map fun t =>
    match t.firstPending with
    | none => ⟨t, u, none, none⟩
    | some sig => deliverSignal t u sig

/-! ## The handler's call -/

section Words

variable {mem mem' : Memory} {a : UInt64}

theorem Memory.qword_congr (h : ∀ i < 8, mem' (a + ofNat i) = mem (a + ofNat i)) :
    mem'.qword a = mem.qword a := by
  unfold qword
  congr 1
  apply map_congr_left
  intro i hi
  exact h i (mem_range.mp hi)

theorem wordOf_toNat_cons (b : UInt8) (l : List UInt8) :
    (wordOf (b :: l)).toNat = ((wordOf l).toNat * 256 + b.toNat) % 2 ^ 64 := by
  change (wordOf l * 256 + b.toUInt64).toNat = _
  rw [toNat_add, UInt64.toNat_mul]
  simp

theorem wordOf_leBytes (w : UInt64) : wordOf (leBytes 8 w.toNat) = w := by
  have hw := w.toNat_lt
  have hlist : leBytes 8 w.toNat = [(w.toNat % 256).toUInt8, (w.toNat / 256 % 256).toUInt8,
      (w.toNat / 65536 % 256).toUInt8, (w.toNat / 16777216 % 256).toUInt8, (w.toNat / 4294967296 % 256).toUInt8,
      (w.toNat / 1099511627776 % 256).toUInt8, (w.toNat / 281474976710656 % 256).toUInt8,
      (w.toNat / 72057594037927936 % 256).toUInt8] := by
    simp [leBytes, range_succ]
  have hbyte : ∀ n : ℕ, (n % 256).toUInt8.toNat = n % 256 := by
    intro n
    simp
  rw [← UInt64.toNat_inj, hlist]
  simp only [wordOf_toNat_cons, hbyte]
  have hnil : (wordOf []).toNat = 0 := rfl
  rw [hnil]
  omega

theorem Memory.qword_put (mem : Memory) (dst : UInt64) {src : List UInt8} {k : ℕ} (hk : k + 8 ≤ src.length)
    (hend : dst.toNat + src.length < 2 ^ 64) :
    (mem.put dst src).qword (dst + ofNat k) = wordOf ((src.drop k).take 8) := by
  unfold qword
  congr 1
  apply ext_getElem
  · simp
    omega
  · intro i hi hi'
    have hi8 : i < 8 := by simpa using hi
    have hat : (dst + ofNat k + ofNat i).toNat = dst.toNat + (k + i) := by
      rw [toNat_add, toNat_add, toNat_ofNat', toNat_ofNat']
      omega
    rw [getElem_map, getElem_range, getElem_take, getElem_drop]
    unfold put
    rw [if_pos ⟨UInt64.le_iff_toNat_le.mpr (by omega), by omega⟩, hat, Nat.add_sub_cancel_left,
      getD_eq_getElem _ _ (by omega)]

end Words

theorem length_signalFrame (r : Registers) : (signalFrame r).length = 24 := by
  simp [signalFrame, leBytes]

theorem signalFrame_words (r : Registers) : wordOf (((signalFrame r).drop 0).take 8) = edgeSigtrampAddr ∧
      wordOf (((signalFrame r).drop 8).take 8) = r.rax ∧ wordOf (((signalFrame r).drop 16).take 8) = r.rip := by
  unfold signalFrame
  refine ⟨?_, ?_, ?_⟩
  · rw [drop_zero, append_assoc, take_left' (length_leBytes 8 _), wordOf_leBytes]
  · rw [append_assoc, drop_left' (length_leBytes 8 _), take_left' (length_leBytes 8 _), wordOf_leBytes]
  · rw [drop_left' (by rw [length_append, length_leBytes, length_leBytes]),
      take_of_length_le (length_leBytes 8 _).le, wordOf_leBytes]

/-- The signal has a handler, and the handler and the frame are in the memory of the user. -/
def Handles (t : SigTask) (u : UserState) (sig : Signal) : Prop :=
  t.sigs.handler sig ≠ linuxSigIgn ∧ t.sigs.handler sig ≠ linuxSigDfl ∧
    userRangeOk (UInt64.ofNat (t.sigs.handler sig)) 1 = true ∧ 0x1018 ≤ u.regs.rsp.toNat ∧ u.regs.rsp.toNat ≤ 0x40000000

def SigTask.stubbed (t : SigTask) (mem : Memory) : Memory :=
  if t.sigStubInstalled then mem else mem.put edgeSigtrampAddr SigTask.stubCode

def calledUser (t : SigTask) (u : UserState) (sig : Signal) : UserState where
  regs := { u.regs with
    rsp := u.regs.rsp - 24, rip := UInt64.ofNat (t.sigs.handler sig), rdi := UInt64.ofNat sig.number }
  mem := (t.stubbed u.mem).put (u.regs.rsp - 24) (signalFrame u.regs)

theorem installUserSigStub_eq (t : SigTask) (mem : Memory) :
    t.installUserSigStub mem = some ({ t with sigStubInstalled := true }, t.stubbed mem) := by
  unfold SigTask.installUserSigStub SigTask.stubbed
  split_ifs with h
  · congr 2
    cases t
    simp_all
  · rw [copyToUser_eq mem rfl (by decide)]
    rfl

/-- What the delivery does, whatever the signal: it calls the handler, or it leaves the registers alone. -/
theorem deliverSignal_cases (t : SigTask) (u : UserState) (sig : Signal) : (Handles t u sig ∧ deliverSignal t u sig =
        ⟨{ t with sigStubInstalled := true, sigs := t.sigs.setPending false sig }, calledUser t u sig, some sig, none⟩) ∨
      (¬ Handles t u sig ∧ (deliverSignal t u sig).called = none ∧
        ∀ sig', (deliverSignal t u sig).task.sigs.pending sig' = true → t.sigs.pending sig' = true) := by
  have hclear : ∀ sig', (t.sigs.setPending false sig).pending sig' = true → t.sigs.pending sig' = true := by
    intro sig' h
    by_cases he : sig' = sig
    · rw [he, Signals.pending_setPending_self] at h
      exact absurd h (by decide)
    · rwa [Signals.pending_setPending_of_ne _ _ he] at h
  have hmin : (userMinAddr + 24).toNat = 0x1018 := rfl
  have hmax : userMaxAddr.toNat = 0x40000000 := rfl
  unfold deliverSignal
  dsimp only
  by_cases hign : t.sigs.handler sig = linuxSigIgn
  · rw [if_pos hign]
    exact .inr ⟨fun h => h.1 hign, rfl, hclear⟩
  rw [if_neg hign]
  by_cases hdfl : t.sigs.handler sig = linuxSigDfl
  · rw [if_pos hdfl]
    exact .inr ⟨fun h => h.2.1 hdfl, rfl, hclear⟩
  rw [if_neg hdfl]
  by_cases hok : userRangeOk (ofNat (t.sigs.handler sig)) 1 = true
  swap
  · rw [if_pos (by simp [hok])]
    exact .inr ⟨fun h => hok h.2.2.1, rfl, fun _ h => h⟩
  rw [if_neg (by simp [hok]), installUserSigStub_eq]
  dsimp only
  by_cases hrsp : u.regs.rsp < userMinAddr + 24 ∨ u.regs.rsp > userMaxAddr
  · rw [if_pos hrsp]
    refine .inr ⟨fun h => ?_, rfl, fun _ h => h⟩
    have h4 := h.2.2.2
    rw [gt_iff_lt, lt_iff_toNat_lt, lt_iff_toNat_lt, hmin, hmax] at hrsp
    omega
  rw [if_neg hrsp]
  rw [gt_iff_lt, lt_iff_toNat_lt, lt_iff_toNat_lt, hmin, hmax, not_or, Nat.not_lt, Nat.not_lt] at hrsp
  have hsub : (u.regs.rsp - 24).toNat = u.regs.rsp.toNat - 24 :=
    toNat_sub_of_le _ _ (UInt64.le_iff_toNat_le.mpr (by change 24 ≤ _; omega))
  have hlen : (24 : UInt64).toNat = 24 := rfl
  have hframe : userRangeOk (u.regs.rsp - 24) 24 = true := by
    rw [userRangeOk_iff, hsub, hlen]
    omega
  rw [if_neg (by simp [hframe]), copyToUser_eq _ (length_signalFrame _) hframe]
  exact .inl ⟨⟨hign, hdfl, hok, hrsp⟩, rfl⟩

/-- The user goes on as if nothing had been delivered: `rip`, `rsp`, `rax`, what a system call keeps, and the memory
from the red zone up. -/
structure Resumes (u u' : UserState) : Prop where
  rip : u'.regs.rip = u.regs.rip
  rsp : u'.regs.rsp = u.regs.rsp
  rax : u'.regs.rax = u.regs.rax
  rbx : u'.regs.rbx = u.regs.rbx
  rbp : u'.regs.rbp = u.regs.rbp
  r12 : u'.regs.r12 = u.regs.r12
  r13 : u'.regs.r13 = u.regs.r13
  r14 : u'.regs.r14 = u.regs.r14
  r15 : u'.regs.r15 = u.regs.r15
  rdx : u'.regs.rdx = u.regs.rdx
  rsi : u'.regs.rsi = u.regs.rsi
  rdi : u'.regs.rdi = u.regs.rdi
  r8 : u'.regs.r8 = u.regs.r8
  r9 : u'.regs.r9 = u.regs.r9
  r10 : u'.regs.r10 = u.regs.r10
  rflags : u'.regs.rflags = u.regs.rflags
  mem : ∀ a, u.regs.rsp - 128 ≤ a → u'.mem a = u.mem a

/-- What the handler leaves alone, of the things that nobody else restores, and what was in memory before. -/
structure Harmless (t : SigTask) (u : UserState) (v : UserState) : Prop where
  code : v.mem edgeSigtrampAddr = 0x58 ∧ v.mem (edgeSigtrampAddr + 1) = 0xC3
  rdx : v.regs.rdx = u.regs.rdx
  rsi : v.regs.rsi = u.regs.rsi
  rdi : v.regs.rdi = u.regs.rdi
  r8 : v.regs.r8 = u.regs.r8
  r9 : v.regs.r9 = u.regs.r9
  r10 : v.regs.r10 = u.regs.r10
  rflags : v.regs.rflags = u.regs.rflags
  redZone : ∀ a, u.regs.rsp - 128 ≤ a → a < u.regs.rsp - 24 → v.mem a = u.mem a
  frame : ∀ a, u.regs.rsp - 24 ≤ a → a < u.regs.rsp → u.mem.put (u.regs.rsp - 24) (signalFrame u.regs) a = u.mem a
  stub : ∀ a, u.regs.rsp ≤ a → t.stubbed u.mem a = u.mem a

section Return

variable {t : SigTask} {u : UserState} {sig : Signal}

theorem frame_toNat (hlow : 0x1018 ≤ u.regs.rsp.toNat) :
    (u.regs.rsp - 24).toNat = u.regs.rsp.toNat - 24 ∧ (u.regs.rsp - 128).toNat = u.regs.rsp.toNat - 128 :=
  ⟨toNat_sub_of_le _ _ (UInt64.le_iff_toNat_le.mpr (le_trans (by decide) hlow)),
    toNat_sub_of_le _ _ (UInt64.le_iff_toNat_le.mpr (le_trans (by decide) hlow))⟩

/-- The words that the handler and the trampoline take off the stack. -/
theorem calledUser_words (hlow : 0x1018 ≤ u.regs.rsp.toNat) {mem : Memory}
    (hmem : ∀ a, u.regs.rsp - 24 ≤ a → mem a = (calledUser t u sig).mem a) :
    mem.qword (u.regs.rsp - 24) = edgeSigtrampAddr ∧ mem.qword (u.regs.rsp - 24 + 8) = u.regs.rax ∧
      mem.qword (u.regs.rsp - 24 + 8 + 8) = u.regs.rip := by
  obtain ⟨hsub, _⟩ := frame_toNat hlow
  have hlt := u.regs.rsp.toNat_lt
  have hword : ∀ k, k + 8 ≤ 24 → mem.qword (u.regs.rsp - 24 + ofNat k) =
      wordOf (((signalFrame u.regs).drop k).take 8) := by
    intro k hk
    have hlen := length_signalFrame u.regs
    rw [← qword_put (t.stubbed u.mem) (u.regs.rsp - 24) (by omega) (by omega)]
    apply qword_congr
    intro i hi
    apply hmem
    rw [UInt64.le_iff_toNat_le, toNat_add, toNat_add, toNat_ofNat', toNat_ofNat']
    omega
  obtain ⟨h0, h8, h16⟩ := signalFrame_words u.regs
  refine ⟨?_, (hword 8 (by decide)).trans h8, ?_⟩
  · have hzero : u.regs.rsp - 24 + ofNat 0 = u.regs.rsp - 24 := UInt64.add_zero _
    exact hzero ▸ (hword 0 (by decide)).trans h0
  · have hsum : u.regs.rsp - 24 + ofNat 16 = u.regs.rsp - 24 + 8 + 8 := (UInt64.add_assoc _ 8 8).symm
    exact hsum ▸ (hword 16 (by decide)).trans h16

variable (t sig) in
/-- The state after the trampoline, if its code is there: the words of the frame are in `rax` and `rip`, and `rsp` is
where it was. -/
theorem trampoline_eq (h : SysVFunction) (hlow : 0x1018 ≤ u.regs.rsp.toNat) : let v := h.run (calledUser t u sig)
    v.trampoline = if v.mem edgeSigtrampAddr = 0x58 ∧ v.mem (edgeSigtrampAddr + 1) = 0xC3 then
        some ⟨{ v.regs with rax := u.regs.rax, rip := u.regs.rip, rsp := u.regs.rsp }, v.mem⟩
      else none := by
  intro v
  have hmem : ∀ a, u.regs.rsp - 24 ≤ a → v.mem a = (calledUser t u sig).mem a := h.mem (calledUser t u sig)
  obtain ⟨htramp, hrax, hrip⟩ := calledUser_words hlow hmem
  have hvrip : v.regs.rip = edgeSigtrampAddr :=
    (h.rip _).trans (calledUser_words hlow fun a _ => rfl).1
  have hvrsp : v.regs.rsp = u.regs.rsp - 24 + 8 := h.rsp _
  have hend : u.regs.rsp - 24 + 8 + 8 + 8 = u.regs.rsp := by
    rw [UInt64.add_assoc, UInt64.add_assoc]
    exact UInt64.sub_add_cancel _ _
  unfold UserState.trampoline UserState.ret UserState.popRax
  dsimp only
  rw [hvrip, hvrsp, hrax, hrip, hend]

theorem resumes_iff (h : SysVFunction) (hlow : 0x1018 ≤ u.regs.rsp.toNat) :
    (∃ u', (h.run (calledUser t u sig)).trampoline = some u' ∧ Resumes u u') ↔
      Harmless t u (h.run (calledUser t u sig)) := by
  obtain ⟨hsub, hsub'⟩ := frame_toNat hlow
  have htramp := trampoline_eq t sig h hlow
  have hmem : ∀ a, u.regs.rsp - 24 ≤ a →
      (h.run (calledUser t u sig)).mem a = (t.stubbed u.mem).put (u.regs.rsp - 24) (signalFrame u.regs) a :=
    h.mem (calledUser t u sig)
  have hlen := length_signalFrame u.regs
  generalize hv : h.run (calledUser t u sig) = v at htramp hmem
  dsimp only at htramp
  have habove : ∀ a, u.regs.rsp ≤ a → v.mem a = t.stubbed u.mem a := by
    intro a ha
    have ha' := UInt64.le_iff_toNat_le.mp ha
    rw [hmem a (UInt64.le_iff_toNat_le.mpr (by omega)), put_of_ge _ _ (by omega)]
  have hframe : ∀ a, u.regs.rsp - 24 ≤ a → a < u.regs.rsp →
      v.mem a = u.mem.put (u.regs.rsp - 24) (signalFrame u.regs) a := by
    intro a ha hlt
    rw [hmem a ha]
    have ha' := UInt64.le_iff_toNat_le.mp ha
    have hlt' := lt_iff_toNat_lt.mp hlt
    unfold put
    rw [if_pos ⟨ha, by omega⟩, if_pos ⟨ha, by omega⟩]
  rw [htramp]
  constructor
  · rintro ⟨u', hu', hres⟩
    split_ifs at hu' with hcode
    obtain rfl := Option.some.inj hu'
    refine ⟨hcode, hres.rdx, hres.rsi, hres.rdi, hres.r8, hres.r9, hres.r10, hres.rflags, fun a ha _ => hres.mem a ha,
      fun a ha hlt => ?_, fun a ha => ?_⟩
    · rw [← hframe a ha hlt]
      exact hres.mem a (UInt64.le_iff_toNat_le.mpr (by have := UInt64.le_iff_toNat_le.mp ha; omega))
    · rw [← habove a ha]
      exact hres.mem a (UInt64.le_iff_toNat_le.mpr (by have := UInt64.le_iff_toNat_le.mp ha; omega))
  · intro hh
    have hkeep : ∀ field : Registers → UInt64, (∀ w, field (h.run w).regs = field w.regs) →
        field (calledUser t u sig).regs = field u.regs → field v.regs = field u.regs := fun field hf hc => by
      rw [← hv, hf, hc]
    refine ⟨_, if_pos hh.code, rfl, rfl, rfl, hkeep _ h.rbx rfl, hkeep _ h.rbp rfl, hkeep _ h.r12 rfl,
      hkeep _ h.r13 rfl, hkeep _ h.r14 rfl, hkeep _ h.r15 rfl, hh.rdx, hh.rsi, hh.rdi, hh.r8, hh.r9, hh.r10, hh.rflags,
      fun a ha => ?_⟩
    change v.mem a = u.mem a
    by_cases h1 : a < u.regs.rsp - 24
    · exact hh.redZone a ha h1
    have h1' := UInt64.not_lt.mp h1
    by_cases h2 : a < u.regs.rsp
    · rw [hframe a h1' h2]
      exact hh.frame a h1' h2
    · rw [habove a (UInt64.not_lt.mp h2)]
      exact hh.stub a (UInt64.not_lt.mp h2)

end Return

/-! ## Runs -/

/-- `signal_pending_interrupt` on the flags: signals that would be ignored are dropped, in order, up to the first one
that counts. -/
def Signals.dropIgnored : List Signal → Signals → Signals
  | [], s => s
  | sig :: rest, s =>
    if s.pending sig then
      if s.handler sig = linuxSigIgn ∨ sig = .sigchld ∧ s.handler sig = linuxSigDfl then
        dropIgnored rest (s.setPending false sig)
      else s
    else dropIgnored rest s

/-- The signals after `process_prepare_exec_current`: handlers that are not `SIG_IGN` go back to the default. -/
def Signals.execReset (s : Signals) : Signals :=
  { sigintHandler := execHandler s.sigintHandler, sigalrmHandler := execHandler s.sigalrmHandler
    sigtermHandler := execHandler s.sigtermHandler, sigchldHandler := execHandler s.sigchldHandler
    sigaltstackFlags := 2 }

/-- A task in user mode, how often each of its flags was raised from clear, and how often a handler was called. -/
structure SigSys where
  task : SigTask := {}
  user : UserState
  stopped : Bool := false
  raised : Signal → ℕ := fun _ => 0
  calls : Signal → ℕ := fun _ => 0

inductive SigEvent
  | user (u : UserState)
  | kill (sig : Signal)
  | childExits
  | sigaction (sig : Signal) (handler : UInt64)
  | setitimer (now val interval : UInt64)
  | interrupt (now : UInt64)
  | signalfd (sf : SignalFd)
  | exec (u : UserState)
  | sysret (now : UInt64) (h : SysVFunction)

namespace SigSys

/-- The task changes, and flags that were clear may be raised. -/
def put (s : SigSys) (t : SigTask) : SigSys :=
  { s with
    task := t
    raised := fun sig => s.raised sig + if t.sigs.pending sig && !s.task.sigs.pending sig then 1 else 0 }

def putSigs (s : SigSys) (sigs : Signals) : SigSys := s.put { s.task with sigs := sigs }

/-- `process_send_signal_task` for `SIGINT` and `SIGTERM`. -/
def sendSignal (s : SigSys) (sig : Signal) : SigSys :=
  if sig = .sigint ∨ sig = .sigterm then
    if s.task.sigs.handler sig = linuxSigIgn then s
    else if s.task.sigs.handler sig = linuxSigDfl then { s with stopped := true }
    else s.putSigs (s.task.sigs.setPending true sig)
  else s

def after (s : SigSys) (d : Delivery) : SigSys :=
  { s with
    task := d.task, user := d.user, stopped := d.killed.isSome
    calls := fun sig => s.calls sig + if d.called = some sig then 1 else 0 }

/-- The rest of a return from a system call once the timer has been polled. -/
def deliver (s : SigSys) : SigSys :=
  match s.task.firstPending with
  | none => s
  | some sig => s.after (deliverSignal s.task s.user sig)

def step (s : SigSys) (e : SigEvent) : SigSys :=
  if s.stopped then s
  else
    match e with
    | .user u => { s with user := u }
    | .kill sig => s.sendSignal sig
    | .childExits =>
      if s.task.sigs.sigchldHandler = linuxSigIgn then s else s.putSigs (s.task.sigs.setPending true .sigchld)
    | .sigaction sig handler => s.putSigs (s.task.sigs.setHandler handler.toNat sig)
    | .setitimer now val interval =>
      s.put { s.task with timer := .set now val interval, sigs := s.task.sigs.setPending false .sigalrm }
    | .interrupt now =>
      match s.task.timerPoll now with
      | none => { s with stopped := true }
      | some t => (s.put t).putSigs (Signals.dropIgnored [.sigint, .sigterm, .sigchld, .sigalrm] t.sigs)
    | .signalfd sf =>
      match sf.peek s.task.sigs with
      | none => s
      | some (_, sigs) => s.putSigs sigs
    | .exec u => { s.put { s.task with sigs := s.task.sigs.execReset, sigStubInstalled := false } with user := u }
    | .sysret now _ =>
      match s.task.timerPoll now with
      | none => { s with stopped := true }
      | some t => (s.put t).deliver

def OneCall (s : SigSys) : Prop :=
  ∀ sig, s.calls sig + (if s.task.sigs.pending sig then 1 else 0) ≤ s.raised sig

theorem OneCall.put {s : SigSys} (h : s.OneCall) (t : SigTask) : (s.put t).OneCall := by
  intro sig
  have := h sig
  unfold SigSys.put
  dsimp only
  cases hp : t.sigs.pending sig <;> cases hq : s.task.sigs.pending sig <;> simp [hq] at this ⊢ <;> omega

theorem firstPending_pending {t : SigTask} {sig : Signal} (h : t.firstPending = some sig) :
    t.sigs.pending sig = true := by
  have := find?_some h
  rw [Bool.and_eq_true] at this
  exact this.1

theorem OneCall.called {s : SigSys} (h : s.OneCall) {d : Delivery} {sig : Signal} {sigs : Signals}
    (hcalled : d.called = some sig) (hp : sigs.pending sig = true) (hs : s.task.sigs = sigs)
    (hd : d.task.sigs = sigs.setPending false sig) : (s.after d).OneCall := by
  intro sig'
  have hone := h sig'
  unfold SigSys.after
  dsimp only
  rw [hcalled, hd]
  rw [hs] at hone
  by_cases he : sig' = sig
  · rw [he, hp] at hone
    rw [he, Signals.pending_setPending_self]
    simpa using hone
  · rw [Signals.pending_setPending_of_ne _ _ he, if_neg (fun hc => he (Option.some.inj hc).symm)]
    exact hone

theorem OneCall.notCalled {s : SigSys} (h : s.OneCall) {d : Delivery} (hcalled : d.called = none)
    (hd : ∀ sig, d.task.sigs.pending sig = true → s.task.sigs.pending sig = true) : (s.after d).OneCall := by
  intro sig
  have hone := h sig
  unfold SigSys.after
  dsimp only
  rw [hcalled]
  have hle : (if d.task.sigs.pending sig = true then 1 else 0) ≤ if s.task.sigs.pending sig = true then 1 else 0 := by
    split_ifs with h1 h2
    · exact le_rfl
    · exact absurd (hd sig h1) h2
    · exact Nat.zero_le _
    · exact le_rfl
  simp only [reduceCtorEq, if_false]
  omega

theorem OneCall.deliver {s : SigSys} (h : s.OneCall) : s.deliver.OneCall := by
  unfold SigSys.deliver
  cases hf : s.task.firstPending with
  | none => exact h
  | some sig =>
    dsimp only
    rcases deliverSignal_cases s.task s.user sig with ⟨_, hd⟩ | ⟨_, hcalled, hpend⟩
    · rw [hd]
      exact h.called rfl (firstPending_pending hf) rfl rfl
    · exact h.notCalled hcalled hpend

/-- Whatever happens to the task, a flag that is raised leads to one call at most. -/
theorem OneCall.step {s : SigSys} (h : s.OneCall) (e : SigEvent) : (s.step e).OneCall := by
  unfold SigSys.step
  by_cases hs : s.stopped = true
  · rw [if_pos hs]
    exact h
  rw [if_neg hs]
  cases e with
  | user u => exact h
  | kill sig =>
    dsimp only
    unfold sendSignal
    split_ifs
    · exact h
    · exact h
    · exact h.put _
    · exact h
  | childExits =>
    dsimp only
    split_ifs
    · exact h
    · exact h.put _
  | sigaction sig handler => exact h.put _
  | setitimer now val interval => exact h.put _
  | interrupt now =>
    dsimp only
    cases s.task.timerPoll now with
    | none => exact h
    | some t => exact (h.put t).put _
  | signalfd sf =>
    dsimp only
    cases sf.peek s.task.sigs with
    | none => exact h
    | some p => exact h.put _
  | exec u => exact h.put _
  | sysret now f =>
    dsimp only
    cases s.task.timerPoll now with
    | none => exact h
    | some t => exact (h.put t).deliver

/-- Where a return calls a handler, the user goes on as if it had not been called. -/
def Transparent (s : SigSys) : SigEvent → Prop
  | .sysret now h => ∀ d sig, maybeDeliverSignalOnSysret s.task s.user now = some d → d.called = some sig →
      ∃ u', (h.run d.user).trampoline = some u' ∧ Resumes s.user u'
  | _ => True

/-- Where a return calls a handler, the handler leaves alone what the kernel does not restore, and the frame and the
trampoline overwrite nothing of the user. -/
def HandlersHarmless (s : SigSys) : SigEvent → Prop
  | .sysret now h => ∀ t sig, s.task.timerPoll now = some t → t.firstPending = some sig → Handles t s.user sig →
      Harmless t s.user (h.run (calledUser t s.user sig))
  | _ => True

theorem transparent_iff (s : SigSys) (e : SigEvent) : s.HandlersHarmless e ↔ s.Transparent e := by
  cases e with
  | sysret now h =>
    unfold Transparent HandlersHarmless maybeDeliverSignalOnSysret
    constructor
    · intro hc d sig hd hcalled
      obtain ⟨t, ht, rfl⟩ := Option.map_eq_some_iff.mp hd
      cases hf : t.firstPending with
      | none =>
        rw [hf] at hcalled
        exact absurd hcalled (by simp)
      | some sig' =>
        rw [hf] at hcalled
        dsimp only at hcalled ⊢
        rcases deliverSignal_cases t s.user sig' with ⟨hh, hd⟩ | ⟨_, hnone, _⟩
        · rw [hd]
          exact (resumes_iff h hh.2.2.2.1).mpr (hc t sig' ht hf hh)
        · rw [hnone] at hcalled
          exact absurd hcalled (by simp)
    · intro hc t sig ht hf hh
      rcases deliverSignal_cases t s.user sig with ⟨_, hd⟩ | ⟨hno, _⟩
      · have hreturn := hc _ sig (Option.map_eq_some_iff.mpr ⟨t, ht, rfl⟩)
        rw [hf] at hreturn
        dsimp only at hreturn
        rw [hd] at hreturn
        exact (resumes_iff h hh.2.2.2.1).mp (hreturn rfl)
      · exact absurd hh hno
  | _ => exact Iff.rfl

/-- Deliveries are transparent in exactly those runs in which each handler and the memory under the stack pointer meet
the condition; a flag that is raised leads to one call at most in every run. -/
theorem deliveries_transparent_iff (u : UserState) (sigmask : BitVec 64) (es : List SigEvent) :
    (Meets step Transparent { task := { sigmask := sigmask }, user := u } es ↔
        Meets step HandlersHarmless { task := { sigmask := sigmask }, user := u } es) ∧
      ∀ sig, (run step { task := { sigmask := sigmask }, user := u } es).calls sig +
          (if (run step { task := { sigmask := sigmask }, user := u } es).task.sigs.pending sig then 1 else 0) ≤
        (run step { task := { sigmask := sigmask }, user := u } es).raised sig := by
  constructor
  · exact (meets_iff (I := fun _ => True) (fun _ _ _ _ => trivial) (fun s e _ => transparent_iff s e) trivial).symm
  · have h0 : OneCall { task := { sigmask := sigmask }, user := u } := by
      intro sig
      cases sig <;> exact le_rfl
    exact run_invariant (fun s e (h : OneCall s) _ => h.step e) h0 (meets_of_forall (fun _ _ => trivial) _ _)

def emptyHandler : SysVFunction where
  run u := ⟨{ u.regs with rip := u.mem.qword u.regs.rsp, rsp := u.regs.rsp + 8 }, u.mem⟩
  rip _ := rfl
  rsp _ := rfl
  rbx _ := rfl
  rbp _ := rfl
  r12 _ := rfl
  r13 _ := rfl
  r14 _ := rfl
  r15 _ := rfl
  mem _ _ _ := rfl

def zeroUser : UserState where
  regs := { rsp := 0x30000000 }
  mem _ := 0

/-- The number of the signal is left in `rdi`. -/
theorem emptyHandler_not_transparent : ¬ Meets step Transparent { task := { sigmask := 0 }, user := zeroUser }
      [.sigaction .sigint 0x400000, .kill .sigint, .sysret 0 emptyHandler] := by
  rintro ⟨_, _, h, _⟩
  obtain ⟨u', htramp, hres⟩ := h _ .sigint rfl rfl
  unfold UserState.trampoline at htramp
  split_ifs at htramp
  have hrdi := hres.rdi
  rw [← Option.some.inj htramp] at hrdi
  exact absurd hrdi (by decide)

end SigSys

end EdgeOS
