import EdgeOS.Lib.CycleRing
import EdgeOS.Lib.Runs
import EdgeOS.XhciDriver
import Mathlib.Data.List.Nodup

namespace EdgeOS

open Lib List

/-!
The event ring of the xHCI driver. `xhci_consume_events` handles an event before it moves on, and what it calls
may wait for a command, which polls the ring again: the driver is a stack of frames. The controller posts events
at any time, the timer polls while `xhci_init_controller` still enumerates, and each step runs the top frame up
to its next access.
-/

abbrev evtRingSize : ℕ := 256
abbrev cmdRingSlots : ℕ := 63
abbrev eventBudget : ℕ := 128
abbrev xhciWaitSpinCmd : ℕ := 600000
abbrev xhciWaitSpinShort : ℕ := 200000

/-- What the driver reads of an event TRB. A command completion tells the TRB of its command, which has the place
`id % cmdRingSlots` in the command ring; `id` counts the commands that were submitted. -/
inductive XhciEvent
  | portStatus (port : UInt8)
  | command (id : ℕ) (cc slot : UInt8)
  | transfer (ptr : ℕ) (cc slot ep : UInt8) (rem : ℕ)
  | other
  deriving DecidableEq, Repr

def XhciEvent.completes : XhciEvent → Option ℕ
  | .command id _ _ => some id
  | _ => none

/-- A call that is under way. Bodies that change state are programs; `advance` is the end of the loop's body in
`xhci_consume_events`, `scan` and `scanAck` are in `xhci_poll_controller`, `rootPorts` in `xhci_init_controller`. -/
inductive XhciFrame
  | act (a : XhciAct)
  | consume (budget : ℕ)
  | advance (budget : ℕ)
  | commandWait (id i : ℕ) (k : Option UInt8 → XhciAct)
  | transferWait (i len : ℕ) (k : Option (List UInt8) → XhciAct)
  | rootPorts (p : UInt8)
  | scan (p : UInt8)
  | scanAck (p : UInt8) (ch : UInt32)

namespace XhciFrame

/-- The frame is one of `xhci_consume_events`. -/
def consumes : XhciFrame → Bool
  | .consume _ => true
  | .advance _ => true
  | _ => false

/-- The frame is one of `xhci_consume_events` that has read an event and not moved on. -/
def advances : XhciFrame → Bool
  | .advance _ => true
  | _ => false

/-- The frame is one of `xhci_cmd_submit_wait` or `xhci_wait_transfer`. -/
def waits : XhciFrame → Bool
  | .commandWait _ _ _ => true
  | .transferWait _ _ _ => true
  | _ => false

/-- The frame is one of `xhci_poll_controller` or `xhci_init_controller`. -/
def outer : XhciFrame → Bool
  | .rootPorts _ => true
  | .scan _ => true
  | .scanAck _ _ => true
  | _ => false

def submits : XhciFrame → Bool
  | .act (.command _ _) => true
  | _ => false

def transfers : XhciFrame → Bool
  | .act (.transfer _ _ _ _ _) => true
  | _ => false

/-- The command that a frame of `xhci_cmd_submit_wait` waits for. -/
def command : XhciFrame → Option ℕ
  | .commandWait id _ _ => some id
  | _ => none

/-- The program the frame runs, or goes on with, keeps inside the tables. -/
def Safe (maxPorts : UInt8) : XhciFrame → Prop
  | .act a => a.Safe maxPorts
  | .commandWait _ _ k => ∀ r, (k r).Safe maxPorts
  | .transferWait _ _ k => ∀ r, (k r).Safe maxPorts
  | _ => True

/-- The frame is one of `xhci_poll_controller`. -/
def polls : XhciFrame → Bool
  | .scan _ => true
  | .scanAck _ _ => true
  | _ => false

end XhciFrame

/-- The fields `cmd_wait_*` of `xhci_controller_t`, one set for all calls. -/
structure CmdWait where
  ptr : Option ℕ := none
  done : Bool := false
  cc : UInt8 := 0
  slot : UInt8 := 0
  deriving DecidableEq, Repr

/-- The fields `xfer_wait_*` of `xhci_controller_t`. -/
structure XferWait where
  ptr : Option ℕ := none
  done : Bool := false
  cc : UInt8 := 0
  slot : UInt8 := 0
  ep : UInt8 := 0
  deriving DecidableEq, Repr

/-- The event ring from both sides. `posted` is what the controller has written, `taken` how often `evt_deq` has
moved on, `erdp` the count that ERDP was last set to, `handled` the events that were handled. -/
structure EventRing where
  trbs : ℕ → Bool × XhciEvent := fun _ => (false, .other)
  deq : ℕ := 0
  ccs : Bool := true
  posted : List XhciEvent := []
  taken : ℕ := 0
  erdp : ℕ := 0
  handled : List XhciEvent := []

/-- The driver and the controller. `submitted` counts commands, and `returned` holds those whose
`xhci_cmd_submit_wait` returned 0, with the slot it reported. -/
structure XhciSys where
  ctl : XhciCtl := {}
  cmd : CmdWait := {}
  xfer : XferWait := {}
  evt : EventRing := {}
  submitted : ℕ := 0
  stack : List XhciFrame := [.rootPorts 1]
  returned : List (ℕ × UInt8) := []

/-- `post` is the controller writing an event, `portChange` a change of a port's register, `poll` the timer, `run`
a step of the driver with what the buffer for control data holds. -/
inductive XhciInput
  | post (e : XhciEvent)
  | portChange (p : UInt8) (v : UInt32)
  | poll
  | run (ctrl : ℕ → UInt8)

/-- The controller writes `e` at its enqueue pointer. -/
def EventRing.post (r : EventRing) (e : XhciEvent) : EventRing :=
  { r with
    trbs := Function.update r.trbs (r.posted.length % evtRingSize) (lapBit evtRingSize r.posted.length, e)
    posted := r.posted ++ [e] }

/-- `evt_deq` moves on at the end of the loop's body in `xhci_consume_events`. -/
def EventRing.advance (r : EventRing) : EventRing :=
  { r with
    deq := if r.deq + 1 ≥ evtRingSize then 0 else r.deq + 1
    ccs := if r.deq + 1 ≥ evtRingSize then !r.ccs else r.ccs
    taken := r.taken + 1 }

namespace XhciSys

variable (maxPorts : UInt8) (ctx : ℕ) (a : XhciSys)

def awaited (ptr : ℕ) (cc slot ep : UInt8) : Prop :=
  a.xfer.ptr.isSome ∧ slot = a.xfer.slot ∧ ep = a.xfer.ep ∧ (a.xfer.ptr = some ptr ∨ cc ≠ 1)

instance (ptr : ℕ) (cc slot ep : UInt8) : Decidable (a.awaited ptr cc slot ep) :=
  inferInstanceAs (Decidable (_ ∧ _))

def handleTransferEvent (ptr : ℕ) (cc slot ep : UInt8) : XhciSys :=
  if a.awaited ptr cc slot ep then { a with xfer := { a.xfer with done := true, cc := cc, slot := slot, ep := ep } }
  else if slot = 0 ∨ slot > xhciMaxTrackedSlots then a
  else
    { a with ctl := a.ctl.setSlot slot fun sl =>
        if sl.hidReady ∧ ep = sl.hid.epDci ∧ sl.intrPendingTrb = some ptr then hidRearmInterrupt sl else sl }

/-- The case of a command completion in `xhci_consume_events`. -/
def handleCompletion (id : ℕ) (cc slot : UInt8) : XhciSys :=
  if a.cmd.ptr = some (id % cmdRingSlots) then { a with cmd := { a.cmd with done := true, cc := cc, slot := slot } }
  else a

def portProgram (port : UInt8) : Option XhciAct :=
  if port = 0 then none
  else if a.ctl.portsc port &&& portscCcs = 0 then some (.markPortDisconnected maxPorts port)
  else if a.ctl.portsc port &&& (portscCsc ||| portscPrc) ≠ 0 then some (.enumerateRootPort maxPorts ctx port)
  else none

/-- What `xhci_consume_events` does with an event it has read. -/
def handleEvent (e : XhciEvent) : XhciSys :=
  match e with
  | .portStatus port =>
    match a.portProgram maxPorts ctx port with
    | some p => { a with stack := .act p :: a.stack }
    | none => a
  | .command id cc slot => a.handleCompletion id cc slot
  | .transfer ptr cc slot ep _ => a.handleTransferEvent ptr cc slot ep
  | .other => a

/-- The end of `xhci_consume_events`. -/
def writeErdp (rest : List XhciFrame) : XhciSys :=
  { a with evt := { a.evt with erdp := a.evt.taken }, stack := rest }

/-- The loop of `xhci_consume_events` with `budget` iterations left. -/
def consumeEvents (budget : ℕ) (rest : List XhciFrame) : XhciSys :=
  match budget with
  | 0 => a.writeErdp rest
  | b + 1 =>
    let t := a.evt.trbs a.evt.deq
    if t.1 ≠ a.evt.ccs then a.writeErdp rest
    else
      handleEvent maxPorts ctx
        { a with evt := { a.evt with handled := a.evt.handled ++ [t.2] }, stack := .advance b :: rest } t.2

def pollEvents (rest : List XhciFrame) : XhciSys := { a with stack := .consume eventBudget :: rest }

/-- `xhci_cmd_submit_wait` up to its first poll. -/
def cmdSubmit (k : Option UInt8 → XhciAct) (rest : List XhciFrame) : XhciSys :=
  pollEvents { a with submitted := a.submitted + 1, cmd := { ptr := some (a.submitted % cmdRingSlots) } }
    (.commandWait a.submitted 0 k :: rest)

/-- `xhci_cmd_submit_wait` after its poll number `i`. -/
def cmdWait (id i : ℕ) (k : Option UInt8 → XhciAct) (rest : List XhciFrame) : XhciSys :=
  if a.cmd.done = false ∧ i + 1 < xhciWaitSpinCmd then a.pollEvents (.commandWait id (i + 1) k :: rest)
  else if a.cmd.done = true ∧ a.cmd.cc = 1 then
    { a with
      cmd := { a.cmd with ptr := none }
      returned := a.returned ++ [(id, a.cmd.slot)]
      stack := .act (k (some a.cmd.slot)) :: rest }
  else { a with cmd := { a.cmd with ptr := none }, stack := .act (k none) :: rest }

/-- `xhci_wait_transfer` up to its first poll. -/
def xferSubmit (ptr : ℕ) (s ep : UInt8) (len : ℕ) (k : Option (List UInt8) → XhciAct)
    (rest : List XhciFrame) : XhciSys :=
  pollEvents { a with xfer := { ptr := some ptr, slot := s, ep := ep } } (.transferWait 0 len k :: rest)

/-- `xhci_wait_transfer` after its poll number `i`, and what `xhci_control_transfer` does with the data. -/
def xferWait (ctrl : ℕ → UInt8) (i len : ℕ) (k : Option (List UInt8) → XhciAct)
    (rest : List XhciFrame) : XhciSys :=
  if a.xfer.done = false ∧ i + 1 < xhciWaitSpinShort then a.pollEvents (.transferWait (i + 1) len k :: rest)
  else
    let data := if a.xfer.done = true ∧ a.xfer.cc = 1 then some ((List.range len).map ctrl) else none
    { a with xfer := { a.xfer with ptr := none }, stack := .act (k data) :: rest }

/-- The loop of `xhci_enumerate_root_ports` at port `p`. -/
def rootPort (p : UInt8) (rest : List XhciFrame) : XhciSys :=
  if p ≤ maxPorts then
    { a with stack := .act (.enumerateRootPort maxPorts ctx p) :: .rootPorts (p + 1) :: rest }
  else { a with stack := rest }

/-- The program that `xhci_poll_controller` runs for port `p + 1`, whose register reads `v`. -/
def scanProgram (p : UInt8) (v : UInt32) : XhciAct :=
  if v &&& portscCcs = 0 then
    .getPortSlot (p + 1) fun s => if s ≠ 0 then .markPortDisconnected maxPorts (p + 1) else .ret
  else if v &&& portscRw1c &&& (portscCsc ||| portscPrc) ≠ 0 then .enumerateRootPort maxPorts ctx (p + 1)
  else .ret

/-- The loop of `xhci_poll_controller` at port `p + 1`. -/
def scanPort (p : UInt8) (rest : List XhciFrame) : XhciSys :=
  if p < maxPorts then
    let v := a.ctl.portsc (p + 1)
    { a with stack := .act (scanProgram maxPorts ctx p v) :: .scanAck p (v &&& portscRw1c) :: rest }
  else { a with stack := rest }

/-- The change bits that were read are written back, which clears them. -/
def ackPort (p : UInt8) (ch : UInt32) (rest : List XhciFrame) : XhciSys :=
  { a with
    ctl := { a.ctl with portsc := Function.update a.ctl.portsc (p + 1) (a.ctl.portsc (p + 1) &&& ~~~ch) }
    stack := .scan (p + 1) :: rest }

def runAct (p : XhciAct) (rest : List XhciFrame) : XhciSys :=
  match p with
  | .ret => { a with stack := rest }
  | .command _ k => a.cmdSubmit k rest
  | .transfer ptr s ep len k => a.xferSubmit ptr s ep len k rest
  | p => { a with ctl := (p.access a.ctl).1, stack := .act (p.access a.ctl).2 :: rest }

def runTop (ctrl : ℕ → UInt8) : XhciSys :=
  match a.stack with
  | [] => a
  | .act p :: rest => a.runAct p rest
  | .consume b :: rest => a.consumeEvents maxPorts ctx b rest
  | .advance b :: rest => { a with evt := a.evt.advance, stack := .consume b :: rest }
  | .commandWait id i k :: rest => a.cmdWait id i k rest
  | .transferWait i len k :: rest => a.xferWait ctrl i len k rest
  | .rootPorts p :: rest => a.rootPort maxPorts ctx p rest
  | .scan p :: rest => a.scanPort maxPorts ctx p rest
  | .scanAck p ch :: rest => a.ackPort p ch rest

/-- The controller may post `e`: the ring has room ahead of ERDP, and a completion is the only one of a command
that was submitted. -/
def MayPost (e : XhciEvent) : Prop :=
  a.evt.posted.length < a.evt.erdp + (evtRingSize - 1) ∧
    ∀ id ∈ e.completes, id < a.submitted ∧ id ∉ a.evt.posted.filterMap XhciEvent.completes

instance (e : XhciEvent) : Decidable (a.MayPost e) := inferInstanceAs (Decidable (_ ∧ _))

def step : XhciInput → XhciSys
  | .post e => if a.MayPost e then { a with evt := a.evt.post e } else a
  | .portChange p v => { a with ctl := { a.ctl with portsc := Function.update a.ctl.portsc p v } }
  | .poll => if a.stack.any XhciFrame.polls then a else a.pollEvents (.scan 0 :: a.stack)
  | .run ctrl => a.runTop maxPorts ctx ctrl

/-- Each posted event is handled once and in order, a poll that finds none has none left, calls of
`xhci_consume_events` do not nest, a command that returns 0 reports the slot of its own completion, whose code is
success, and the tables are indexed inside their bounds. -/
structure Exact : Prop where
  once : a.evt.handled <+: a.evt.posted
  all : ∀ b rest, a.stack = .consume (b + 1) :: rest → (a.evt.trbs a.evt.deq).1 ≠ a.evt.ccs →
    a.evt.handled = a.evt.posted
  nesting : (a.stack.filter XhciFrame.consumes).length ≤ 1 ∧ a.stack.length ≤ 4
  own : ∀ r ∈ a.returned, .command r.1 1 r.2 ∈ a.evt.posted
  bounds : a.ctl.InBounds maxPorts

/-- The condition on a step. The timer polls only when no call is under way; an event that is being handled starts
no command and no transfer; a command is submitted only when every earlier one that had its place in the ring has
its completion handled. -/
def Sound : XhciInput → Prop
  | .poll => a.stack.length = 0
  | .run _ => ∀ f ∈ a.stack.head?, (f.submits = true ∨ f.transfers = true → ∀ g ∈ a.stack.tail, g.consumes = false) ∧
      (f.submits = true → ∀ id < a.submitted, id % cmdRingSlots = a.submitted % cmdRingSlots →
        some id ∈ a.evt.handled.map XhciEvent.completes)
  | _ => True

instance : ∀ e, Decidable (a.Sound e)
  | .post _ => inferInstanceAs (Decidable True)
  | .portChange _ _ => inferInstanceAs (Decidable True)
  | .poll => inferInstanceAs (Decidable (_ = _))
  | .run _ => inferInstanceAs (Decidable (∀ f ∈ a.stack.head?, _ ∧ _))

end XhciSys

/-- The ring while `n` calls of `xhci_consume_events` have read an event and not moved on. -/
structure EventRing.Ahead (r : EventRing) (n : ℕ) : Prop where
  ring : LapRing evtRingSize r.trbs r.posted r.taken
  deq : r.deq = r.taken % evtRingSize
  ccs : r.ccs = lapBit evtRingSize r.taken
  erdp : r.erdp ≤ r.taken
  ahead : r.taken + n ≤ r.posted.length
  handled : r.handled = r.posted.take (r.taken + n)

namespace EventRing.Ahead

variable {r : EventRing} {n : ℕ}

theorem init : Ahead {} 0 := by
  refine ⟨LapRing.empty (by decide) _, rfl, rfl, ?_, ?_, rfl⟩
  · exact Nat.le_refl 0
  · exact Nat.le_refl 0

theorem post (h : Ahead r n) (hroom : r.posted.length < r.erdp + (evtRingSize - 1)) (e : XhciEvent) :
    Ahead (r.post e) n where
  ring := by
    apply h.ring.push
    have := h.erdp
    omega
  deq := h.deq
  ccs := h.ccs
  erdp := h.erdp
  ahead := by
    have := h.ahead
    simp only [EventRing.post, length_append, length_singleton]
    omega
  handled := by
    rw [EventRing.post, take_append_of_le_length h.ahead]
    exact h.handled

theorem writeErdp (h : Ahead r n) : Ahead { r with erdp := r.taken } n :=
  ⟨h.ring, h.deq, h.ccs, Nat.le_refl _, h.ahead, h.handled⟩

/-- An event the driver sees is the next one that was posted. -/
theorem visible (h : Ahead r 0) (hc : (r.trbs r.deq).1 = r.ccs) :
    ∃ ht : r.taken < r.posted.length, (r.trbs r.deq).2 = r.posted[r.taken] := by
  rw [h.deq] at hc ⊢
  rw [h.ccs] at hc
  exact h.ring.next hc

theorem handle (h : Ahead r 0) (hc : (r.trbs r.deq).1 = r.ccs) :
    Ahead { r with handled := r.handled ++ [(r.trbs r.deq).2] } 1 := by
  obtain ⟨ht, he⟩ := h.visible hc
  refine ⟨h.ring, h.deq, h.ccs, h.erdp, ht, ?_⟩
  change r.handled ++ [(r.trbs r.deq).2] = r.posted.take (r.taken + 1)
  rw [h.handled, he, take_succ_eq_append_getElem ht]
  rfl

theorem advance (h : Ahead r 1) : Ahead r.advance 0 := by
  have hn := lap_next (n := evtRingSize) (by decide) r.taken
  refine ⟨h.ring.pop h.ahead, ?_, ?_, Nat.le_succ_of_le h.erdp, h.ahead, h.handled⟩
  · change (if r.deq + 1 ≥ evtRingSize then 0 else r.deq + 1) = (r.taken + 1) % evtRingSize
    rw [hn.1, h.deq]
  · change (if r.deq + 1 ≥ evtRingSize then !r.ccs else r.ccs) = lapBit evtRingSize (r.taken + 1)
    rw [hn.2, h.deq, h.ccs]

/-- When the driver sees no event, it has handled all of them. -/
theorem none_left (h : Ahead r 0) (hc : (r.trbs r.deq).1 ≠ r.ccs) : r.handled = r.posted := by
  rw [h.deq, h.ccs] at hc
  have ht : r.taken = r.posted.length := h.ring.none hc
  rw [h.handled, ht]
  exact take_length

theorem once (h : Ahead r n) : r.handled <+: r.posted := by
  rw [h.handled]
  exact take_prefix _ _

end EventRing.Ahead

namespace XhciSys

/-- The bottom of a stack: no call, or one of the two that poll. -/
inductive Resting : List XhciFrame → Prop
  | idle : Resting []
  | outer (f : XhciFrame) (hf : f.outer = true) : Resting [f]

/-- What a call of `xhci_consume_events` stands on. -/
inductive Below : List XhciFrame → Prop
  | rest {r : List XhciFrame} (h : Resting r) : Below r
  | wait {r : List XhciFrame} (f : XhciFrame) (hf : f.waits = true) (h : Resting r) : Below (f :: r)

/-- The stacks that there are when no event starts a command while it is handled. -/
inductive Shape : List XhciFrame → Prop
  | below {r : List XhciFrame} (h : Below r) : Shape r
  | act {r : List XhciFrame} (p : XhciAct) (h : Resting r) : Shape (.act p :: r)
  | consume {r : List XhciFrame} (b : ℕ) (h : Below r) : Shape (.consume b :: r)
  | advance {r : List XhciFrame} (b : ℕ) (h : Below r) : Shape (.advance b :: r)
  | handler {r : List XhciFrame} (p : XhciAct) (b : ℕ) (h : Below r) : Shape (.act p :: .advance b :: r)

variable {l r : List XhciFrame} {f : XhciFrame} {p : XhciAct} {b : ℕ}

theorem outer_plain (h : f.outer = true) : f.consumes = false ∧ f.waits = false := by
  cases f with
  | rootPorts p => exact ⟨rfl, rfl⟩
  | scan p => exact ⟨rfl, rfl⟩
  | scanAck p ch => exact ⟨rfl, rfl⟩
  | act a => cases h
  | consume b => cases h
  | advance b => cases h
  | commandWait id i k => cases h
  | transferWait i len k => cases h

theorem waits_plain (h : f.waits = true) : f.consumes = false := by
  cases f with
  | commandWait id i k => rfl
  | transferWait i len k => rfl
  | consume b => cases h
  | advance b => cases h
  | act a => cases h
  | rootPorts p => cases h
  | scan p => cases h
  | scanAck p ch => cases h

theorem Resting.plain (h : Resting l) (hf : f ∈ l) : f.consumes = false ∧ f.waits = false := by
  cases h with
  | idle => cases hf
  | outer g hg =>
    obtain rfl := mem_singleton.mp hf
    exact outer_plain hg

theorem Below.consumes (h : Below l) : ∀ f ∈ l, f.consumes = false := by
  intro f hf
  cases h with
  | rest h => exact (h.plain hf).1
  | wait g hg h =>
    rcases mem_cons.mp hf with rfl | hf
    · exact waits_plain hg
    · exact (h.plain hf).1

theorem advances_of_consumes (h : f.consumes = false) : f.advances = false := by
  cases f <;> first | rfl | cases h

/-- How many calls of `xhci_consume_events` have read an event and not moved on. -/
def reading (l : List XhciFrame) : ℕ := (l.filter XhciFrame.advances).length

theorem reading_of_consumes (h : ∀ f ∈ l, f.consumes = false) : reading l = 0 := by
  unfold reading
  rw [filter_eq_nil_iff.mpr]
  · rfl
  · intro f hf
    rw [advances_of_consumes (h f hf)]
    exact Bool.false_ne_true

theorem reading_cons (h : f.advances = false) : reading (f :: l) = reading l := by
  unfold reading
  rw [filter_cons_of_neg (by rw [h]; exact Bool.false_ne_true)]

theorem reading_advance (h : Below l) : reading (.advance b :: l) = 1 := by
  unfold reading
  rw [filter_cons_of_pos rfl, length_cons]
  exact congrArg Nat.succ (reading_of_consumes h.consumes)

theorem Resting.length_le (h : Resting l) : l.length ≤ 1 := by
  cases h with
  | idle => exact Nat.zero_le 1
  | outer f _ => exact Nat.le_refl 1

theorem Below.length_le (h : Below l) : l.length ≤ 2 := by
  cases h with
  | rest h => exact Nat.le_succ_of_le h.length_le
  | wait f _ h => exact Nat.succ_le_succ h.length_le

theorem consumes_none (h : ∀ f ∈ l, f.consumes = false) : (l.filter XhciFrame.consumes).length = 0 := by
  rw [filter_eq_nil_iff.mpr]
  · rfl
  · intro f hf
    rw [h f hf]
    exact Bool.false_ne_true

theorem Shape.nesting (h : Shape l) : (l.filter XhciFrame.consumes).length ≤ 1 ∧ l.length ≤ 4 := by
  cases h with
  | below h =>
    have hl := h.length_le
    have hc := consumes_none h.consumes
    omega
  | act p h =>
    have hl := h.length_le
    have hc := consumes_none (Below.rest h).consumes
    rw [filter_cons_of_neg (by exact Bool.false_ne_true), length_cons]
    omega
  | consume b h =>
    have hl := h.length_le
    have hc := consumes_none h.consumes
    rw [filter_cons_of_pos rfl, length_cons, length_cons]
    omega
  | advance b h =>
    have hl := h.length_le
    have hc := consumes_none h.consumes
    rw [filter_cons_of_pos rfl, length_cons, length_cons]
    omega
  | handler p b h =>
    have hl := h.length_le
    have hc := consumes_none h.consumes
    rw [filter_cons_of_neg (by exact Bool.false_ne_true), filter_cons_of_pos rfl, length_cons, length_cons, length_cons]
    omega

/-- A program runs for a call that polls, or for an event that is being handled. -/
theorem Shape.act_cases (h : Shape (.act p :: l)) : Resting l ∨ ∃ b r, l = .advance b :: r ∧ Below r := by
  cases h with
  | below h =>
    cases h with
    | rest h =>
      cases h with
      | outer _ hf => cases hf
    | wait _ hf _ => cases hf
  | act _ h => exact Or.inl h
  | handler _ b h => exact Or.inr ⟨b, _, rfl, h⟩

theorem Shape.act_pop (h : Shape (.act p :: l)) : Shape l := by
  rcases h.act_cases with hr | ⟨b, r, rfl, hr⟩
  · exact .below (.rest hr)
  · exact .advance b hr

theorem Shape.act_next (h : Shape (.act p :: l)) (q : XhciAct) : Shape (.act q :: l) := by
  rcases h.act_cases with hr | ⟨b, r, rfl, hr⟩
  · exact .act q hr
  · exact .handler q b hr

theorem Shape.act_resting (h : Shape (.act p :: l)) (hl : ∀ f ∈ l, f.consumes = false) : Resting l := by
  rcases h.act_cases with hr | ⟨b, r, rfl, hr⟩
  · exact hr
  · exact absurd (hl _ mem_cons_self) (by exact nofun)

theorem Shape.consume_below (h : Shape (f :: l)) (hf : f.consumes = true) : Below l := by
  cases h with
  | below h => exact absurd hf (by rw [h.consumes f mem_cons_self]; exact Bool.false_ne_true)
  | act p _ => cases hf
  | consume b h => exact h
  | advance b h => exact h
  | handler p b h => cases hf

theorem Shape.wait_resting (h : Shape (f :: l)) (hf : f.waits = true) : Resting l := by
  cases h with
  | below h =>
    cases h with
    | rest h => exact absurd hf (by rw [(h.plain mem_cons_self).2]; exact Bool.false_ne_true)
    | wait _ _ h => exact h
  | act p _ => cases hf
  | consume b h => cases hf
  | advance b h => cases hf
  | handler p b h => cases hf

theorem Shape.outer_empty (h : Shape (f :: l)) (hf : f.outer = true) : l = [] := by
  cases h with
  | below h =>
    cases h with
    | rest h =>
      cases h with
      | outer f _ => rfl
    | wait f hw _ => exact absurd hw (by rw [(outer_plain hf).2]; exact Bool.false_ne_true)
  | act p _ => cases hf
  | consume b h => cases hf
  | advance b h => cases hf
  | handler p b h => cases hf

theorem command_none (h : f.waits = false) : f.command = none := by
  cases f <;> first | rfl | cases h

/-- `xhci_cmd_submit_wait` waits for command `id` with the fields `c`, after `n` commands and the events in
`handled`: every other command with its place in the ring is through. -/
structure Waiting (c : CmdWait) (n : ℕ) (handled : List XhciEvent) (id : ℕ) : Prop where
  known : id < n
  ptr : c.ptr = some (id % cmdRingSlots)
  older : ∀ j < n, j % cmdRingSlots = id % cmdRingSlots → j ≠ id → some j ∈ handled.map XhciEvent.completes
  told : c.done = true → .command id c.cc c.slot ∈ handled

theorem Waiting.mono {c : CmdWait} {n id : ℕ} {handled : List XhciEvent} (h : Waiting c n handled id)
    (e : XhciEvent) : Waiting c n (handled ++ [e]) id where
  known := h.known
  ptr := h.ptr
  older j hj hm hne := by
    rw [map_append]
    exact mem_append_left _ (h.older j hj hm hne)
  told hd := mem_append_left _ (h.told hd)

/-- The frame keeps inside the tables, and the command it waits for is told apart. -/
def FrameOk (maxPorts : UInt8) (c : CmdWait) (n : ℕ) (handled : List XhciEvent) (f : XhciFrame) : Prop :=
  f.Safe maxPorts ∧ ∀ id ∈ f.command, Waiting c n handled id

variable {maxPorts : UInt8} {ctx : ℕ} {a : XhciSys}

structure EventsHandled (maxPorts : UInt8) (a : XhciSys) : Prop where
  ring : a.evt.Ahead (reading a.stack)
  once : (a.evt.posted.filterMap XhciEvent.completes).Nodup
  known : ∀ id ∈ a.evt.posted.filterMap XhciEvent.completes, id < a.submitted
  shape : Shape a.stack
  frames : ∀ f ∈ a.stack, FrameOk maxPorts a.cmd a.submitted a.evt.handled f
  own : ∀ r ∈ a.returned, .command r.1 1 r.2 ∈ a.evt.posted
  bounds : a.ctl.InBounds maxPorts

namespace EventsHandled

theorem init : EventsHandled maxPorts {} where
  ring := EventRing.Ahead.init
  once := nodup_nil
  known _ h := nomatch h
  shape := .below (.rest (.outer _ rfl))
  frames f hf := by
    obtain rfl := mem_singleton.mp hf
    exact ⟨trivial, fun _ h => nomatch h⟩
  own _ h := nomatch h
  bounds := ⟨fun _ h => absurd h not_mem_nil, fun _ h => absurd h not_mem_nil⟩

/-- A step that leaves the ring and the command fields alone. -/
theorem update (h : EventsHandled maxPorts a) {ctl : XhciCtl} {xfer : XferWait} {stack : List XhciFrame}
    (hread : reading stack = reading a.stack) (hshape : Shape stack)
    (hframes : ∀ f ∈ stack, FrameOk maxPorts a.cmd a.submitted a.evt.handled f) (hb : ctl.InBounds maxPorts) :
    EventsHandled maxPorts { a with ctl := ctl, xfer := xfer, stack := stack } where
  ring := by
    change a.evt.Ahead (reading stack)
    rw [hread]
    exact h.ring
  once := h.once
  known := h.known
  shape := hshape
  frames := hframes
  own := h.own
  bounds := hb

theorem tail (h : EventsHandled maxPorts a) (hs : a.stack = f :: l) :
    ∀ f ∈ l, FrameOk maxPorts a.cmd a.submitted a.evt.handled f :=
  fun g hg => h.frames g (hs ▸ mem_cons_of_mem _ hg)

theorem head (h : EventsHandled maxPorts a) (hs : a.stack = f :: l) : FrameOk maxPorts a.cmd a.submitted a.evt.handled f :=
  h.frames f (hs ▸ mem_cons_self)

theorem post (h : EventsHandled maxPorts a) {e : XhciEvent} (he : a.MayPost e) : EventsHandled maxPorts { a with evt := a.evt.post e } where
  ring := h.ring.post he.1 e
  once := by
    rw [EventRing.post, filterMap_append]
    cases hc : e.completes with
    | none =>
      rw [filterMap_cons_none hc, filterMap_nil, append_nil]
      exact h.once
    | some id =>
      rw [filterMap_cons_some hc, filterMap_nil, ← concat_eq_append]
      exact h.once.concat (he.2 id hc).2
  known id hid := by
    rw [EventRing.post, filterMap_append] at hid
    rcases mem_append.mp hid with hid | hid
    · exact h.known id hid
    obtain ⟨g, hg, hgid⟩ := mem_filterMap.mp hid
    obtain rfl := mem_singleton.mp hg
    exact (he.2 id hgid).1
  shape := h.shape
  frames := h.frames
  own r hr := mem_append_left _ (h.own r hr)
  bounds := h.bounds

theorem poll (h : EventsHandled maxPorts a) (hs : a.stack = []) : EventsHandled maxPorts (a.pollEvents (.scan 0 :: a.stack)) := by
  apply h.update _ _ _ h.bounds
  · rw [hs]
    rfl
  · rw [hs]
    exact .consume _ (.rest (.outer _ rfl))
  · rw [hs]
    intro f hf
    rcases mem_cons.mp hf with rfl | hf
    · exact ⟨trivial, fun _ h => nomatch h⟩
    · obtain rfl := mem_singleton.mp hf
      exact ⟨trivial, fun _ h => nomatch h⟩

/-- A frame that waits for no command and keeps inside the tables is put on top. -/
theorem push (h : ∀ f ∈ l, FrameOk maxPorts a.cmd a.submitted a.evt.handled f) (hf : f.Safe maxPorts)
    (hc : f.command = none) : ∀ g ∈ f :: l, FrameOk maxPorts a.cmd a.submitted a.evt.handled g := by
  intro g hg
  rcases mem_cons.mp hg with rfl | hg
  · exact ⟨hf, fun _ hid => absurd hid (by rw [hc]; exact nofun)⟩
  · exact h g hg

theorem runAct (h : EventsHandled maxPorts a) (hs : a.stack = .act p :: l) (hsound : ∀ ctrl, a.Sound (.run ctrl)) :
    EventsHandled maxPorts (a.runAct p l) := by
  have hsafe : p.Safe maxPorts := (h.head hs).1
  have hshape : Shape (.act p :: l) := hs ▸ h.shape
  have hread : reading a.stack = reading l := by
    rw [hs]
    exact reading_cons rfl
  have haccess : EventsHandled maxPorts { a with ctl := (p.access a.ctl).1, stack := .act (p.access a.ctl).2 :: l } := by
    have hp := hsafe.access h.bounds
    apply h.update _ (hshape.act_next _) (push (h.tail hs) hp.2 rfl) hp.1
    rw [hread]
    exact reading_cons rfl
  cases p with
  | ret => exact h.update hread.symm hshape.act_pop (h.tail hs) h.bounds
  | command c k =>
    have hc := hsound fun _ => 0
    unfold Sound at hc
    rw [hs] at hc
    have hc := hc _ rfl
    have hrest := hshape.act_resting (hc.1 (Or.inl rfl))
    have hwait : Shape (.consume eventBudget :: .commandWait a.submitted 0 k :: l) := .consume _ (.wait _ rfl hrest)
    refine ⟨?_, h.once, fun id hid => Nat.lt_succ_of_lt (h.known id hid), hwait, ?_, h.own, h.bounds⟩
    · change a.evt.Ahead (reading (.consume eventBudget :: .commandWait a.submitted 0 k :: l))
      rw [reading_cons rfl, reading_cons rfl, ← hread]
      exact h.ring
    · intro f hf
      rcases mem_cons.mp hf with rfl | hf
      · exact ⟨trivial, fun _ hid => nomatch hid⟩
      rcases mem_cons.mp hf with rfl | hf
      · refine ⟨hsafe, fun id hid => ?_⟩
        obtain rfl : a.submitted = id := Option.some.inj hid
        refine ⟨Nat.lt_succ_self _, rfl, fun j hj hm hne => ?_, fun hd => nomatch hd⟩
        exact hc.2 rfl j (Nat.lt_of_le_of_ne (Nat.le_of_lt_succ hj) hne) hm
      refine ⟨(h.tail hs f hf).1, fun id hid => ?_⟩
      rw [command_none (hrest.plain hf).2] at hid
      exact nomatch hid
  | transfer ptr s ep len k =>
    have hc := hsound fun _ => 0
    unfold Sound at hc
    rw [hs] at hc
    have hrest := hshape.act_resting ((hc _ rfl).1 (Or.inr rfl))
    apply h.update _ (.consume _ (.wait _ rfl hrest)) _ h.bounds
    · rw [hread, reading_cons rfl, reading_cons rfl]
    · exact push (push (h.tail hs) hsafe rfl) trivial rfl
  | readPort p k => exact haccess
  | getPortSlot p k => exact haccess
  | setPortSlot p s k => exact haccess
  | getSlot s k => exact haccess
  | setSlot s f k => exact haccess
  | alloc size align k => exact haccess

theorem writeErdp (h : EventsHandled maxPorts a) (hs : a.stack = .consume b :: l) : EventsHandled maxPorts (a.writeErdp l) where
  ring := by
    have hr := h.ring.writeErdp
    rw [hs, reading_cons rfl] at hr
    exact hr
  once := h.once
  known := h.known
  shape := .below ((hs ▸ h.shape).consume_below rfl)
  frames := h.tail hs
  own := h.own
  bounds := h.bounds

theorem readEvent (h : EventsHandled maxPorts a) (hs : a.stack = .consume (b + 1) :: l)
    (hc : (a.evt.trbs a.evt.deq).1 = a.evt.ccs) :
    EventsHandled maxPorts { a with
        evt := { a.evt with handled := a.evt.handled ++ [(a.evt.trbs a.evt.deq).2] }, stack := .advance b :: l } := by
  have hbelow : Below l := (hs ▸ h.shape).consume_below rfl
  have hr := h.ring
  rw [hs, reading_cons rfl, reading_of_consumes hbelow.consumes] at hr
  refine ⟨?_, h.once, h.known, .advance b hbelow, ?_, h.own, h.bounds⟩
  · change EventRing.Ahead _ (reading (.advance b :: l))
    rw [reading_advance hbelow]
    exact hr.handle hc
  · intro f hf
    rcases mem_cons.mp hf with rfl | hf
    · exact ⟨trivial, fun _ hid => nomatch hid⟩
    · exact ⟨(h.tail hs f hf).1, fun id hid => ((h.tail hs f hf).2 id hid).mono _⟩

/-- The completion that ends a wait is the one of the command that is waited for. -/
theorem completion (h : EventsHandled maxPorts a) (hs : a.stack = .consume (b + 1) :: l)
    (hc : (a.evt.trbs a.evt.deq).1 = a.evt.ccs) {id : ℕ} {cc slot : UInt8}
    (he : (a.evt.trbs a.evt.deq).2 = .command id cc slot) {i : ℕ}
    (hw : Waiting a.cmd a.submitted a.evt.handled i) (hm : id % cmdRingSlots = i % cmdRingSlots) : id = i := by
  have hnext := (h.readEvent hs hc).ring.once
  change a.evt.handled ++ [(a.evt.trbs a.evt.deq).2] <+: a.evt.posted at hnext
  rw [he] at hnext
  have hposted : .command id cc slot ∈ a.evt.posted :=
    hnext.subset (mem_append_right _ (mem_singleton.mpr rfl))
  have hknown : id < a.submitted := h.known id (mem_filterMap.mpr ⟨_, hposted, rfl⟩)
  by_contra hne
  obtain ⟨e, hmem, hid⟩ := mem_map.mp (hw.older id hknown hm hne)
  have hnodup := (hnext.sublist.filterMap XhciEvent.completes).nodup h.once
  rw [filterMap_append] at hnodup
  exact disjoint_of_nodup_append hnodup (mem_filterMap.mpr ⟨e, hmem, hid⟩) (mem_singleton.mpr rfl)

theorem handleCompletion (h : EventsHandled maxPorts a) (hs : a.stack = .consume (b + 1) :: l)
    (hc : (a.evt.trbs a.evt.deq).1 = a.evt.ccs) {id : ℕ} {cc slot : UInt8}
    (he : (a.evt.trbs a.evt.deq).2 = .command id cc slot) :
    EventsHandled maxPorts (XhciSys.handleCompletion { a with
          evt := { a.evt with handled := a.evt.handled ++ [.command id cc slot] }, stack := .advance b :: l }
        id cc slot) := by
  have hread := h.readEvent hs hc
  rw [he] at hread
  unfold XhciSys.handleCompletion
  split
  · next hptr =>
    refine ⟨hread.ring, hread.once, hread.known, hread.shape, fun f hf => ⟨(hread.frames f hf).1, ?_⟩, hread.own,
      hread.bounds⟩
    intro i hi
    have hw := (hread.frames f hf).2 i hi
    have hl : f ∈ l := by
      rcases mem_cons.mp hf with rfl | hf
      · exact nomatch hi
      · exact hf
    have hm : id % cmdRingSlots = i % cmdRingSlots := Option.some.inj (hptr.symm.trans hw.ptr)
    obtain rfl := h.completion hs hc he ((h.tail hs f hl).2 i hi) hm
    exact ⟨hw.known, hw.ptr, hw.older, fun _ => mem_append_right _ (mem_singleton.mpr rfl)⟩
  · exact hread

theorem handleTransferEvent (h : EventsHandled maxPorts a) (ptr : ℕ) (cc slot ep : UInt8) :
    EventsHandled maxPorts (a.handleTransferEvent ptr cc slot ep) := by
  unfold XhciSys.handleTransferEvent
  split
  · exact h.update rfl h.shape h.frames h.bounds
  split
  · exact h
  next hslot =>
  have hin : 1 ≤ slot ∧ slot ≤ xhciMaxTrackedSlots := by grind
  exact h.update rfl h.shape h.frames (h.bounds.addSlot hin)

theorem portProgram_safe (port : UInt8) : ∀ p ∈ a.portProgram maxPorts ctx port, p.Safe maxPorts := by
  intro p hp
  unfold portProgram at hp
  split at hp
  · cases hp
  split at hp
  · cases hp
    exact XhciAct.markPortDisconnected_safe
  split at hp
  · cases hp
    exact XhciAct.enumerateRootPort_safe
  · cases hp

theorem consumeEvents (h : EventsHandled maxPorts a) (hs : a.stack = .consume b :: l) :
    EventsHandled maxPorts (a.consumeEvents maxPorts ctx b l) := by
  cases b with
  | zero => exact h.writeErdp hs
  | succ b =>
    unfold XhciSys.consumeEvents
    dsimp only
    split
    · exact h.writeErdp hs
    next hc =>
    have hc := not_not.mp hc
    have hbelow : Below l := (hs ▸ h.shape).consume_below rfl
    have hread := h.readEvent hs hc
    unfold XhciSys.handleEvent
    cases he : (a.evt.trbs a.evt.deq).2 with
    | portStatus port =>
      rw [he] at hread
      dsimp only
      split
      · next p hp =>
        apply hread.update _ (.handler p b hbelow) (push hread.frames (portProgram_safe port p hp) rfl) hread.bounds
        exact reading_cons rfl
      · exact hread
    | command id cc slot => exact h.handleCompletion hs hc he
    | transfer ptr cc slot ep rem =>
      rw [he] at hread
      exact hread.handleTransferEvent ptr cc slot ep
    | other =>
      rw [he] at hread
      exact hread

theorem advance (h : EventsHandled maxPorts a) (hs : a.stack = .advance b :: l) :
    EventsHandled maxPorts { a with evt := a.evt.advance, stack := .consume b :: l } := by
  have hbelow : Below l := (hs ▸ h.shape).consume_below rfl
  have hr := h.ring
  rw [hs, reading_advance hbelow] at hr
  refine ⟨?_, h.once, h.known, .consume b hbelow, push (h.tail hs) trivial rfl, h.own, h.bounds⟩
  change EventRing.Ahead _ (reading (.consume b :: l))
  rw [reading_cons rfl, reading_of_consumes hbelow.consumes]
  exact hr.advance

theorem cmdWait (h : EventsHandled maxPorts a) {id i : ℕ} {k : Option UInt8 → XhciAct}
    (hs : a.stack = .commandWait id i k :: l) : EventsHandled maxPorts (a.cmdWait id i k l) := by
  have hrest : Resting l := (hs ▸ h.shape).wait_resting rfl
  have hok := h.head hs
  have hw : Waiting a.cmd a.submitted a.evt.handled id := hok.2 id rfl
  have hread : reading a.stack = reading l := by
    rw [hs]
    exact reading_cons rfl
  have hring : ∀ q, a.evt.Ahead (reading (.act q :: l)) := by
    intro q
    rw [reading_cons rfl, ← hread]
    exact h.ring
  have hframes : ∀ q : XhciAct, q.Safe maxPorts → ∀ f ∈ XhciFrame.act q :: l,
      FrameOk maxPorts { a.cmd with ptr := none } a.submitted a.evt.handled f := by
    intro q hq f hf
    rcases mem_cons.mp hf with rfl | hf
    · exact ⟨hq, fun _ hid => nomatch hid⟩
    refine ⟨(h.tail hs f hf).1, fun j hj => ?_⟩
    rw [command_none (hrest.plain hf).2] at hj
    exact nomatch hj
  unfold XhciSys.cmdWait
  split
  · apply h.update _ (.consume _ (.wait _ rfl hrest)) _ h.bounds
    · rw [hread, reading_cons rfl, reading_cons rfl]
    · refine push (f := .consume _) ?_ trivial rfl
      intro f hf
      rcases mem_cons.mp hf with rfl | hf
      · exact hok
      · exact h.tail hs f hf
  split
  · next hd =>
    refine ⟨hring _, h.once, h.known, .act _ hrest, hframes _ (hok.1 _), ?_, h.bounds⟩
    intro r hr
    rcases mem_append.mp hr with hr | hr
    · exact h.own r hr
    obtain rfl := mem_singleton.mp hr
    have htold := hw.told hd.1
    rw [hd.2] at htold
    exact h.ring.once.subset htold
  · exact ⟨hring _, h.once, h.known, .act _ hrest, hframes _ (hok.1 _), h.own, h.bounds⟩

theorem xferWait (h : EventsHandled maxPorts a) {ctrl : ℕ → UInt8} {i len : ℕ} {k : Option (List UInt8) → XhciAct}
    (hs : a.stack = .transferWait i len k :: l) : EventsHandled maxPorts (a.xferWait ctrl i len k l) := by
  have hrest : Resting l := (hs ▸ h.shape).wait_resting rfl
  have hsafe : ∀ r, (k r).Safe maxPorts := (h.head hs).1
  have hread : reading a.stack = reading l := by
    rw [hs]
    exact reading_cons rfl
  unfold XhciSys.xferWait
  split
  · apply h.update _ (.consume _ (.wait _ rfl hrest)) _ h.bounds
    · rw [hread, reading_cons rfl, reading_cons rfl]
    · exact push (push (h.tail hs) hsafe rfl) trivial rfl
  apply h.update _ (.act _ hrest) (push (h.tail hs) (hsafe _) rfl) h.bounds
  rw [hread]
  exact reading_cons rfl

theorem rootPort (h : EventsHandled maxPorts a) {p : UInt8} (hs : a.stack = .rootPorts p :: l) :
    EventsHandled maxPorts (a.rootPort maxPorts ctx p l) := by
  obtain rfl : l = [] := (hs ▸ h.shape).outer_empty rfl
  unfold XhciSys.rootPort
  split
  · apply h.update _ (.act _ (.outer _ rfl)) _ h.bounds
    · rw [hs]
      rfl
    · exact push (push (h.tail hs) trivial rfl) XhciAct.enumerateRootPort_safe rfl
  apply h.update _ (.below (.rest .idle)) (h.tail hs) h.bounds
  rw [hs]
  rfl

theorem scanProgram_safe {p : UInt8} (hp : p < maxPorts) (v : UInt32) :
    (scanProgram maxPorts ctx p v).Safe maxPorts := by
  unfold scanProgram
  split
  · refine ⟨by grind, fun s => ?_⟩
    dsimp only
    split
    · exact XhciAct.markPortDisconnected_safe
    · trivial
  split
  · exact XhciAct.enumerateRootPort_safe
  · trivial

theorem scanPort (h : EventsHandled maxPorts a) {p : UInt8} (hs : a.stack = .scan p :: l) :
    EventsHandled maxPorts (a.scanPort maxPorts ctx p l) := by
  obtain rfl : l = [] := (hs ▸ h.shape).outer_empty rfl
  unfold XhciSys.scanPort
  split
  · next hp =>
    apply h.update _ (.act _ (.outer _ rfl)) _ h.bounds
    · rw [hs]
      rfl
    · exact push (push (h.tail hs) trivial rfl) (scanProgram_safe hp _) rfl
  · apply h.update _ (.below (.rest .idle)) (h.tail hs) h.bounds
    rw [hs]
    rfl

theorem ackPort (h : EventsHandled maxPorts a) {p : UInt8} {ch : UInt32} (hs : a.stack = .scanAck p ch :: l) :
    EventsHandled maxPorts (a.ackPort p ch l) := by
  obtain rfl : l = [] := (hs ▸ h.shape).outer_empty rfl
  unfold XhciSys.ackPort
  apply h.update _ (.below (.rest (.outer _ rfl)))
  · exact push (h.tail hs) trivial rfl
  · exact ⟨h.bounds.ports, h.bounds.slots⟩
  · rw [hs]
    rfl

theorem runTop (h : EventsHandled maxPorts a) (hsound : ∀ ctrl, a.Sound (.run ctrl)) (ctrl : ℕ → UInt8) :
    EventsHandled maxPorts (a.runTop maxPorts ctx ctrl) := by
  unfold XhciSys.runTop
  split
  · exact h
  · next hs => exact h.runAct hs hsound
  · next hs => exact h.consumeEvents hs
  · next hs => exact h.advance hs
  · next hs => exact h.cmdWait hs
  · next hs => exact h.xferWait hs
  · next hs => exact h.rootPort hs
  · next hs => exact h.scanPort hs
  · next hs => exact h.ackPort hs

theorem step {e : XhciInput} (h : EventsHandled maxPorts a) (hsound : a.Sound e) : EventsHandled maxPorts (a.step maxPorts ctx e) := by
  cases e with
  | post e =>
    unfold XhciSys.step
    dsimp only
    split
    · next he => exact h.post he
    · exact h
  | portChange p v => exact h.update rfl h.shape h.frames ⟨h.bounds.ports, h.bounds.slots⟩
  | poll =>
    unfold XhciSys.step
    dsimp only
    split
    · exact h
    · exact h.poll (length_eq_zero_iff.mp hsound)
  | run ctrl => exact h.runTop (fun _ => hsound) ctrl

theorem exact (h : EventsHandled maxPorts a) : a.Exact maxPorts where
  once := h.ring.once
  all b rest hs hc := by
    have hbelow : Below rest := (hs ▸ h.shape).consume_below rfl
    have hr := h.ring
    rw [hs, reading_cons rfl, reading_of_consumes hbelow.consumes] at hr
    exact hr.none_left hc
  nesting := h.shape.nesting
  own := h.own
  bounds := h.bounds

end EventsHandled

end XhciSys

end EdgeOS
