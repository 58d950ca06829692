import EdgeOS.Lib.CycleRing
import EdgeOS.Lib.Runs
import EdgeOS.XhciDriver

/-!
The rings on which `src/drivers/usb/xhci.c` hands TRBs to the controller: `xhci_ring_init`,
`xhci_ring_enqueue` with each of its stores to the ring, the functions that call it, and a
controller that looks at its dequeue pointer at any moment, or never.
-/

namespace EdgeOS

open Lib Function List

/-- A word of a TRB, with the number of the `xhci_ring_enqueue` that wrote it, which nothing reads. -/
structure TrbWord where
  value : UInt32 := 0
  writer : Option ℕ := none
  deriving DecidableEq, Repr

/-- `xhci_trb_t`. -/
structure Trb where
  lo : TrbWord := {}
  hi : TrbWord := {}
  status : TrbWord := {}
  control : TrbWord := {}
  deriving DecidableEq, Repr

namespace Trb

/-- `XHCI_TRB_CYCLE`, `XHCI_TRB_TC` and the type of a TRB. -/
def cycle (t : Trb) : Bool := t.control.value &&& 1 ≠ 0
def toggles (t : Trb) : Bool := t.control.value &&& 2 ≠ 0
def kind (t : Trb) : UInt32 := t.control.value >>> 10 &&& 0x3F

def target (t : Trb) : ℕ := (t.hi.value.toBitVec ++ t.lo.value.toBitVec).toNat

end Trb

abbrev trbTypeNormal : UInt32 := 1
abbrev trbTypeSetupStage : UInt32 := 2
abbrev trbTypeDataStage : UInt32 := 3
abbrev trbTypeStatusStage : UInt32 := 4
abbrev trbTypeLink : UInt32 := 6
abbrev trbTypeEnableSlot : UInt32 := 9
abbrev trbTypeDisableSlot : UInt32 := 10
abbrev trbTypeAddressDevice : UInt32 := 11
abbrev trbTypeConfigureEp : UInt32 := 12

/-- `XHCI_TRB_IOC`, `XHCI_TRB_IDT`, `XHCI_TRB_DIR`. -/
abbrev trbIoc : UInt32 := 0x20
abbrev trbIdt : UInt32 := 0x40
abbrev trbDir : UInt32 := 0x10000

def cycleWord (ccs : Bool) : UInt32 := if ccs then 1 else 0

def linkControl (ccs : Bool) : UInt32 := trbTypeLink <<< 10 ||| 2 ||| cycleWord ccs

/-- The arguments of `xhci_ring_enqueue` behind the ring. -/
structure TrbArgs where
  lo : UInt32
  hi : UInt32
  st : UInt32
  ctrl : UInt32
  deriving DecidableEq, Repr

/-- The TRB that call `k` of `xhci_ring_enqueue` is to write. -/
def TrbArgs.trb (a : TrbArgs) (k : ℕ) (ccs : Bool) : Trb where
  lo := ⟨a.lo, some k⟩
  hi := ⟨a.hi, some k⟩
  status := ⟨a.st, some k⟩
  control := ⟨a.ctrl &&& ~~~1 ||| cycleWord ccs, some k⟩

/-! ## The callers -/

/-- What `xhci_cmd_submit_wait` is called with; `ctx` is the address of the input context. -/
def XhciCommand.args (ctx : UInt32) : XhciCommand → TrbArgs
  | .enableSlot => ⟨0, 0, 0, trbTypeEnableSlot <<< 10⟩
  | .disableSlot s => ⟨0, 0, 0, trbTypeDisableSlot <<< 10 ||| s.toUInt32 <<< 24⟩
  | .addressDevice s => ⟨ctx, 0, 0, trbTypeAddressDevice <<< 10 ||| s.toUInt32 <<< 24⟩
  | .configureEp s => ⟨ctx, 0, 0, trbTypeConfigureEp <<< 10 ||| s.toUInt32 <<< 24⟩

/-- The calls of `xhci_control_transfer`; `buf` is the address of `ctrl_buf`. -/
def controlArgs (buf : UInt32) (bmRequestType bRequest : UInt8) (wValue wIndex len : UInt16) : List TrbArgs :=
  let dirIn := bmRequestType &&& 0x80 ≠ 0
  let setup : TrbArgs :=
    { lo := bmRequestType.toUInt32 ||| bRequest.toUInt32 <<< 8 ||| wValue.toUInt32 <<< 16
      hi := wIndex.toUInt32 ||| len.toUInt32 <<< 16
      st := 8
      ctrl := trbTypeSetupStage <<< 10 ||| trbIdt ||| if len = 0 then 0 else if dirIn then 0x30000 else 0x20000 }
  let data : TrbArgs := ⟨buf, 0, len.toUInt32, trbTypeDataStage <<< 10 ||| if dirIn then trbDir else 0⟩
  let status : TrbArgs := ⟨0, 0, 0, trbTypeStatusStage <<< 10 ||| trbIoc ||| if dirIn then 0 else trbDir⟩
  setup :: (if 0 < len then [data] else []) ++ [status]

/-- The call of `xhci_hid_rearm_interrupt`; `buf` is the address of `intr_buf`. -/
def rearmArgs (buf : UInt32) (maxPacket : UInt16) : TrbArgs :=
  ⟨buf, 0, maxPacket.toUInt32, trbTypeNormal <<< 10 ||| trbIoc⟩

/-- A call of one of the functions that enqueue. -/
inductive RingRequest
  | command (ctx : UInt32) (c : XhciCommand)
  | control (buf : UInt32) (bmRequestType bRequest : UInt8) (wValue wIndex len : UInt16)
  | rearm (buf : UInt32) (maxPacket : UInt16)
  deriving DecidableEq, Repr

def RingRequest.args : RingRequest → List TrbArgs
  | .command ctx c => [c.args ctx]
  | .control buf bmRequestType bRequest wValue wIndex len =>
    controlArgs buf bmRequestType bRequest wValue wIndex len
  | .rearm buf maxPacket => [rearmArgs buf maxPacket]

/-! ## The ring -/

/-- The next store of `xhci_ring_enqueue`. -/
inductive RingStore
  | lo
  | hi
  | status
  | control
  | link
  deriving DecidableEq, Repr

/-- A call of `xhci_ring_enqueue` that has not returned. -/
structure RingCall where
  args : TrbArgs
  idx : ℕ
  next : RingStore
  deriving DecidableEq, Repr

/-- A ring, the calls on it, and the controller at its dequeue pointer `deq`. `enqueued` are the
TRBs of all calls of `xhci_ring_enqueue`, `taken` those that the controller has taken. -/
structure TransferRing where
  trbs : ℕ → Trb
  enq : ℕ := 0
  ccs : Bool := true
  todo : List TrbArgs := []
  call : Option RingCall := none
  enqueued : List Trb := []
  deq : ℕ := 0
  cycleState : Bool := true
  taken : List Trb := []

/-- What happens next: a function that enqueues is called, `xhci_ring_enqueue` is called by it,
a store of `xhci_ring_enqueue` is done, or the controller looks at its dequeue pointer. -/
inductive RingInput
  | request (r : RingRequest)
  | enqueue
  | store
  | take
  deriving DecidableEq, Repr

namespace TransferRing

variable (n : ℕ) (paddr : UInt32)

/-- `xhci_ring_init`. -/
def init : TransferRing where
  trbs := Function.update (fun _ => {}) (n - 1)
    { lo := ⟨paddr, none⟩, control := ⟨linkControl true, none⟩ }

variable (s : TransferRing)

def request (r : RingRequest) : TransferRing :=
  if s.call = none ∧ s.todo = [] then { s with todo := r.args } else s

/-- `xhci_ring_enqueue` up to its first store. -/
def enqueue : TransferRing :=
  match s.call, s.todo with
  | none, a :: todo =>
    { s with
      call := some ⟨a, if s.enq ≥ n - 1 then 0 else s.enq, .lo⟩
      todo := todo
      enqueued := s.enqueued ++ [a.trb s.enqueued.length s.ccs] }
  | _, _ => s

/-- The end of `xhci_ring_enqueue`: its callers go on when it returns an address. -/
def finish (c : RingCall) (enq : ℕ) (ccs : Bool) : TransferRing :=
  { s with
    call := none
    enq := enq % 256
    ccs := ccs
    todo := if paddr.toNat + c.idx * 16 = 0 then [] else s.todo }

/-- The next store of the call `c`, which is call `k`. -/
def storeOf (c : RingCall) (k : ℕ) : TransferRing :=
  let t := s.trbs c.idx
  let new := c.args.trb k s.ccs
  match c.next with
  | .lo =>
    { s with trbs := Function.update s.trbs c.idx { t with lo := new.lo }
             call := some { c with next := .hi } }
  | .hi =>
    { s with trbs := Function.update s.trbs c.idx { t with hi := new.hi }
             call := some { c with next := .status } }
  | .status =>
    { s with trbs := Function.update s.trbs c.idx { t with status := new.status }
             call := some { c with next := .control } }
  | .control =>
    let s := { s with trbs := Function.update s.trbs c.idx { t with control := new.control } }
    if c.idx + 1 ≥ n - 1 then { s with call := some { c with next := .link } }
    else s.finish paddr c (c.idx + 1) s.ccs
  | .link =>
    let link := { s.trbs (n - 1) with control := ⟨linkControl s.ccs, some k⟩ }
    ({ s with trbs := Function.update s.trbs (n - 1) link }).finish paddr c 0 !s.ccs

/-- The next store of `xhci_ring_enqueue`. -/
def store : TransferRing :=
  match s.call with
  | some c => s.storeOf n paddr c (s.enqueued.length - 1)
  | none => s

def take : TransferRing :=
  let t := s.trbs s.deq
  if t.cycle = s.cycleState then
    if t.kind = trbTypeLink then
      { s with deq := (t.target - paddr.toNat) / 16
               cycleState := if t.toggles then !s.cycleState else s.cycleState }
    else { s with deq := s.deq + 1, taken := s.taken ++ [t] }
  else s

def step : RingInput → TransferRing
  | .request r => s.request r
  | .enqueue => s.enqueue n
  | .store => s.store n paddr
  | .take => s.take paddr

def stored : ℕ :=
  match s.call with
  | some c => if c.next = .link then s.enqueued.length else s.enqueued.length - 1
  | none => s.enqueued.length

/-- The controller takes what was enqueued, in order, and what it has not taken yet is in the ring. -/
structure Exact : Prop where
  order : s.taken <+: s.enqueued
  kept : ∀ k, s.taken.length ≤ k → k < s.stored → ∀ t ∈ s.enqueued[k]?, s.trbs (k % (n - 1)) = t

/-- A call of `xhci_ring_enqueue` finds a TRB of the ring that the controller has taken, or never
used, and its index fits a byte. -/
def Room : RingInput → Prop
  | .enqueue => s.call = none → s.todo ≠ [] →
    s.enqueued.length < s.taken.length + (n - 1) ∧ (n ≤ 257 ∨ s.enqueued.length < 256)
  | _ => True

instance (e : RingInput) : Decidable (s.Room n e) := by
  cases e <;> unfold Room <;> infer_instance

end TransferRing

/-! ## The words -/

theorem kind_control (c : UInt32) (ccs : Bool) :
    (c &&& ~~~1 ||| cycleWord ccs) >>> 10 &&& (0x3F : UInt32) = c >>> 10 &&& (0x3F : UInt32) := by
  have hmask : ∀ i : Fin 32, ((4294967294#32).getLsbD (10 + i) && (63#32)[i]) = (63#32)[i] := by
    decide
  apply UInt32.toBitVec_inj.mp
  ext i hi
  have h : ((4294967294#32).getLsbD (10 + i) && (63#32)[i]) = (63#32)[i] := hmask ⟨i, hi⟩
  cases ccs <;> simp [cycleWord, Bool.and_assoc] <;> rw [h]

theorem cycle_control (c : UInt32) (ccs : Bool) : (c &&& ~~~1 ||| cycleWord ccs) &&& 1 = cycleWord ccs := by
  apply UInt32.toBitVec_inj.mp
  ext i hi
  cases ccs
  · simp only [cycleWord, Bool.false_eq_true, if_false]
    simp
    rintro - h rfl
    simp at h
  · simp only [cycleWord, if_true]
    simp
    intro h
    exact Or.inr h

theorem TrbArgs.trb_kind (a : TrbArgs) (k : ℕ) (ccs : Bool) :
    (a.trb k ccs).kind = a.ctrl >>> 10 &&& (0x3F : UInt32) := kind_control a.ctrl ccs

theorem TrbArgs.trb_cycle (a : TrbArgs) (k : ℕ) (ccs : Bool) : (a.trb k ccs).cycle = ccs := by
  unfold Trb.cycle
  change decide ((a.ctrl &&& ~~~1 ||| cycleWord ccs) &&& 1 ≠ 0) = ccs
  rw [cycle_control]
  cases ccs <;> rfl

def TrbArgs.Plain (a : TrbArgs) : Prop := a.ctrl >>> 10 &&& (0x3F : UInt32) ≠ trbTypeLink

theorem kind_slot (kind : UInt32) (s : UInt8) :
    (kind <<< 10 ||| s.toUInt32 <<< 24) >>> 10 &&& (0x3F : UInt32) = kind &&& 0x3F := by
  have hmask : ∀ i : Fin 32, 6 ≤ i.val → (63#32)[i] = false := by decide
  apply UInt32.toBitVec_inj.mp
  ext i hi
  by_cases hlow : i < 6
  · have h : ¬10 + i < 10 ∧ 10 + i < 24 ∧ 10 + i < 32 := by omega
    simp [h]
  · have h : (63#32)[i] = false := hmask ⟨i, hi⟩ (Nat.not_lt.1 hlow)
    simp [h]

theorem RingRequest.plain (r : RingRequest) : ∀ a ∈ r.args, a.Plain := by
  intro a ha
  cases r with
  | command ctx c =>
    obtain rfl := mem_singleton.1 ha
    unfold TrbArgs.Plain
    cases c with
    | enableSlot =>
      change (trbTypeEnableSlot <<< 10) >>> 10 &&& (0x3F : UInt32) ≠ _
      decide
    | disableSlot s =>
      change (trbTypeDisableSlot <<< 10 ||| s.toUInt32 <<< 24) >>> 10 &&& (0x3F : UInt32) ≠ _
      rw [kind_slot]
      decide
    | addressDevice s =>
      change (trbTypeAddressDevice <<< 10 ||| s.toUInt32 <<< 24) >>> 10 &&& (0x3F : UInt32) ≠ _
      rw [kind_slot]
      decide
    | configureEp s =>
      change (trbTypeConfigureEp <<< 10 ||| s.toUInt32 <<< 24) >>> 10 &&& (0x3F : UInt32) ≠ _
      rw [kind_slot]
      decide
  | control buf bmRequestType bRequest wValue wIndex len =>
    simp only [RingRequest.args, controlArgs, cons_append, mem_cons, mem_append, not_mem_nil, or_false] at ha
    unfold TrbArgs.Plain
    rcases ha with rfl | ha | rfl
    · dsimp only
      split_ifs <;> decide
    · by_cases hlen : 0 < len
      · rw [if_pos hlen] at ha
        obtain rfl := mem_singleton.1 ha
        dsimp only
        split_ifs <;> decide
      · rw [if_neg hlen] at ha
        exact absurd ha not_mem_nil
    · dsimp only
      split_ifs <;> decide
  | rearm buf maxPacket =>
    obtain rfl := mem_singleton.1 ha
    change (trbTypeNormal <<< 10 ||| trbIoc) >>> 10 &&& (0x3F : UInt32) ≠ _
    decide

namespace TransferRing

/-! ## What holds in every state -/

def cells (trbs : ℕ → Trb) (i : ℕ) : Bool × Trb := ((trbs i).cycle, trbs i)

/-- Call `k` of `xhci_ring_enqueue` while it runs: the words in front of `next` are written. -/
structure CallInv (n : ℕ) (s : TransferRing) (c : RingCall) (k : ℕ) : Prop where
  count : s.enqueued.length = k + 1
  last : s.enqueued[k]? = some (c.args.trb k s.ccs)
  idx : c.idx = k % (n - 1)
  ccs : s.ccs = lapBit (n - 1) k
  byte : n ≤ 257 ∨ k < 256
  room : k < s.taken.length + (n - 1)
  lo : c.next ≠ .lo → c.next ≠ .link → (s.trbs c.idx).lo = (c.args.trb k s.ccs).lo
  hi : c.next ≠ .lo → c.next ≠ .hi → c.next ≠ .link → (s.trbs c.idx).hi = (c.args.trb k s.ccs).hi
  status : c.next = .control → (s.trbs c.idx).status = (c.args.trb k s.ccs).status
  turn : c.next = .link → c.idx + 1 ≥ n - 1

structure IdleInv (n : ℕ) (s : TransferRing) : Prop where
  enq : n ≤ 257 ∨ s.enqueued.length < 256 → s.enq = s.enqueued.length % (n - 1)
  ccs : s.ccs = lapBit (n - 1) s.enqueued.length

/-- Where the controller is when it has taken `t` TRBs: at the next one, or at the link in front
of it. -/
def Place (n : ℕ) (s : TransferRing) (t : ℕ) : Prop :=
  (s.deq = t % (n - 1) ∧ s.cycleState = lapBit (n - 1) t) ∨
    (s.deq = n - 1 ∧ t % (n - 1) = 0 ∧ s.cycleState = !lapBit (n - 1) t)

structure InLap (n : ℕ) (paddr : UInt32) (s : TransferRing) : Prop where
  ring : LapRing (n - 1) (cells s.trbs) (s.enqueued.take s.stored) s.taken.length
  order : s.taken = s.enqueued.take s.taken.length
  plain : ∀ t ∈ s.enqueued, t.kind ≠ trbTypeLink
  todo : ∀ a ∈ s.todo, a.Plain
  linkKind : (s.trbs (n - 1)).kind = trbTypeLink
  linkTarget : (s.trbs (n - 1)).target = paddr.toNat
  linkToggles : (s.trbs (n - 1)).toggles = true
  place : Place n s s.taken.length
  idle : s.call = none → IdleInv n s
  calling : ∀ c, s.call = some c → CallInv n s c (s.enqueued.length - 1)

variable {n : ℕ} {paddr : UInt32} {s : TransferRing}

theorem linkControl_kind (ccs : Bool) :
    linkControl ccs >>> 10 &&& (0x3F : UInt32) = trbTypeLink ∧ linkControl ccs &&& 2 ≠ 0 := by
  cases ccs <;> decide

@[simp] theorem init_link : (TransferRing.init n paddr).trbs (n - 1) =
    { lo := ⟨paddr, none⟩, control := ⟨linkControl true, none⟩ } := by
  simp [TransferRing.init]

theorem init_cell {i : ℕ} (hi : i < n - 1) : (TransferRing.init n paddr).trbs i = {} := by
  simp [TransferRing.init, Nat.ne_of_lt hi]

theorem InLap.init (hn : 2 ≤ n) : InLap n paddr (init n paddr) where
  ring := by
    have hempty := LapRing.empty (n := n - 1) (by omega) ({} : Trb)
    refine hempty.outside fun i hi => ?_
    unfold cells
    rw [init_cell hi]
    rfl
  order := rfl
  plain := fun t ht => nomatch ht
  todo := fun a ha => nomatch ha
  linkKind := by
    rw [init_link]
    exact (linkControl_kind true).1
  linkTarget := by
    rw [init_link]
    exact (BitVec.toNat_append _ _).trans (by simp)
  linkToggles := by
    rw [init_link]
    exact decide_eq_true (linkControl_kind true).2
  place := Or.inl ⟨(Nat.zero_mod _).symm, by simp [lapBit, TransferRing.init]⟩
  idle := fun _ => ⟨fun _ => (Nat.zero_mod _).symm, by simp [lapBit, TransferRing.init]⟩
  calling := fun c hc => nomatch hc

theorem InLap.exact (h : InLap n paddr s) : s.Exact n where
  order := by
    rw [h.order]
    exact take_prefix _ _
  kept k hk hlt t ht := by
    have hlog : t ∈ (s.enqueued.take s.stored)[k]? := by
      rw [getElem?_take_of_lt hlt]
      exact ht
    exact congrArg Prod.snd (h.ring.fresh k hk t hlog)

theorem InLap.request (h : InLap n paddr s) (r : RingRequest) : InLap n paddr (s.request r) := by
  unfold TransferRing.request
  split
  · exact { h with
      todo := r.plain
      idle := fun hc => ⟨(h.idle hc).enq, (h.idle hc).ccs⟩
      calling := fun c hc => { h.calling c hc with } }
  · exact h

theorem InLap.take (hn : 2 ≤ n) (h : InLap n paddr s) : InLap n paddr (s.take paddr) := by
  unfold TransferRing.take
  by_cases hcycle : (s.trbs s.deq).cycle = s.cycleState
  · simp only [hcycle, if_true]
    rcases h.place with ⟨hdeq, hstate⟩ | ⟨hdeq, hzero, hstate⟩
    · -- the next TRB
      have hnext : (cells s.trbs (s.taken.length % (n - 1))).1 = lapBit (n - 1) s.taken.length := by
        rw [← hdeq, ← hstate]
        exact hcycle
      obtain ⟨hlt, hcell⟩ := h.ring.next hnext
      rw [getElem_take] at hcell
      rw [length_take, Nat.lt_min] at hlt
      have htrb : s.trbs s.deq = s.enqueued[s.taken.length] := by
        rw [hdeq]
        exact hcell
      have hkind : ¬(s.trbs s.deq).kind = trbTypeLink := by
        rw [htrb]
        exact h.plain _ (getElem_mem _)
      have hpop := h.ring.pop (by rw [length_take, Nat.lt_min]; exact hlt)
      rw [if_neg hkind]
      refine { h with
        ring := ?_
        order := ?_
        place := ?_
        idle := fun hc => ⟨(h.idle hc).enq, (h.idle hc).ccs⟩
        calling := fun c hc => ?_ }
      · change LapRing _ _ _ (s.taken ++ [s.trbs s.deq]).length
        rw [length_append]
        exact hpop
      · change s.taken ++ [s.trbs s.deq] = s.enqueued.take (s.taken ++ [s.trbs s.deq]).length
        rw [length_append, length_singleton, take_succ_eq_append_getElem hlt.2, ← h.order, htrb]
      · have hturn := lap_next (n := n - 1) (by omega) s.taken.length
        change Place n _ (s.taken ++ [s.trbs s.deq]).length
        rw [length_append, length_singleton]
        by_cases hend : s.taken.length % (n - 1) + 1 ≥ n - 1
        · rw [if_pos hend, if_pos hend] at hturn
          refine Or.inr ⟨?_, hturn.1, ?_⟩
          · change s.deq + 1 = n - 1
            have := Nat.mod_lt s.taken.length (show 0 < n - 1 by omega)
            omega
          · change s.cycleState = _
            rw [hturn.2, Bool.not_not, hstate]
        · rw [if_neg hend, if_neg hend] at hturn
          refine Or.inl ⟨?_, ?_⟩
          · change s.deq + 1 = _
            rw [hturn.1, hdeq]
          · change s.cycleState = _
            rw [hturn.2, hstate]
      · have hc := h.calling c hc
        refine { hc with room := ?_ }
        change s.enqueued.length - 1 < (s.taken ++ [s.trbs s.deq]).length + (n - 1)
        have := hc.room
        rw [length_append]
        omega
    · -- the link
      have hkind : (s.trbs s.deq).kind = trbTypeLink := by
        rw [hdeq]
        exact h.linkKind
      have htoggles : (s.trbs s.deq).toggles = true := by
        rw [hdeq]
        exact h.linkToggles
      rw [if_pos hkind]
      refine { h with
        place := Or.inl ⟨?_, ?_⟩
        idle := fun hc => ⟨(h.idle hc).enq, (h.idle hc).ccs⟩
        calling := fun c hc => { h.calling c hc with } }
      · change ((s.trbs s.deq).target - paddr.toNat) / 16 = s.taken.length % (n - 1)
        rw [hdeq, h.linkTarget, Nat.sub_self, Nat.zero_div, hzero]
      · change (if (s.trbs s.deq).toggles then !s.cycleState else s.cycleState) = _
        rw [if_pos htoggles, hstate, Bool.not_not]
  · simp only [hcycle, if_false]
    exact h

theorem InLap.enqueue (hn : 2 ≤ n) (h : InLap n paddr s) (hroom : s.Room n .enqueue) : InLap n paddr (s.enqueue n) := by
  unfold TransferRing.enqueue
  split
  next a todo hcall htodo =>
    obtain ⟨hspace, hbyte⟩ := hroom hcall (by rw [htodo]; simp)
    have hidle := h.idle hcall
    have henq := hidle.enq hbyte
    have hstored : s.stored = s.enqueued.length := by
      unfold stored
      rw [hcall]
    have hlt := Nat.mod_lt s.enqueued.length (show 0 < n - 1 by omega)
    have hring := h.ring
    rw [hstored, take_length] at hring
    have hnew : (s.enqueued ++ [a.trb s.enqueued.length s.ccs]).length - 1 = s.enqueued.length := by
      rw [length_append, length_singleton, Nat.add_sub_cancel]
    have ha : a.Plain := h.todo a (by rw [htodo]; exact mem_cons_self)
    refine { h with
      ring := ?_
      order := ?_
      plain := fun t ht => ?_
      todo := fun b hb => h.todo b (by rw [htodo]; exact mem_cons_of_mem a hb)
      idle := fun hc => nomatch hc
      calling := fun c hc => ?_ }
    · change LapRing _ _ ((s.enqueued ++ [a.trb s.enqueued.length s.ccs]).take
        ((s.enqueued ++ [a.trb s.enqueued.length s.ccs]).length - 1)) _
      rw [hnew, take_left]
      exact hring
    · change s.taken = (s.enqueued ++ [a.trb s.enqueued.length s.ccs]).take s.taken.length
      rw [take_append_of_le_length hring.taken]
      exact h.order
    · rcases mem_append.1 ht with ht | ht
      · exact h.plain t ht
      · rw [mem_singleton.1 ht, TrbArgs.trb_kind]
        exact ha
    · obtain rfl := Option.some.inj hc
      change CallInv n _ _ ((s.enqueued ++ [a.trb s.enqueued.length s.ccs]).length - 1)
      rw [hnew]
      exact
        { count := length_append
          last := getElem?_concat_length
          idx := by
            change (if s.enq ≥ n - 1 then 0 else s.enq) = _
            rw [henq, if_neg (by omega)]
          ccs := hidle.ccs
          byte := hbyte
          room := hspace
          lo := fun hne => absurd rfl hne
          hi := fun hne => absurd rfl hne
          status := fun heq => nomatch heq
          turn := fun heq => nomatch heq }
  next => exact h

theorem cells_update (trbs : ℕ → Trb) (i : ℕ) (t : Trb) :
    cells (update trbs i t) = update (cells trbs) i (t.cycle, t) := by
  funext j
  by_cases hj : j = i
  · subst hj
    simp [cells]
  · simp [cells, hj]

theorem InLap.word {c : RingCall} (hn : 2 ≤ n) (h : InLap n paddr s) (hcall : s.call = some c)
    (hnext : c.next ≠ .link) (t : Trb) (ht : t.control = (s.trbs c.idx).control)
    (next : RingStore) (hnext' : next ≠ .link)
    (hlo : next ≠ .lo → t.lo = (c.args.trb (s.enqueued.length - 1) s.ccs).lo)
    (hhi : next ≠ .lo → next ≠ .hi → t.hi = (c.args.trb (s.enqueued.length - 1) s.ccs).hi)
    (hstatus : next = .control → t.status = (c.args.trb (s.enqueued.length - 1) s.ccs).status) :
    InLap n paddr { s with
      trbs := update s.trbs c.idx t
      call := some { c with next := next } } := by
  have hc := h.calling c hcall
  have hlt := Nat.mod_lt (s.enqueued.length - 1) (show 0 < n - 1 by omega)
  have hstored : s.stored = s.enqueued.length - 1 := by
    unfold stored
    rw [hcall]
    exact if_neg hnext
  have hstored' : stored { s with
      trbs := update s.trbs c.idx t
      call := some { c with next := next } } = s.enqueued.length - 1 := if_neg hnext'
  have hlen : (s.enqueued.take (s.enqueued.length - 1)).length = s.enqueued.length - 1 := by
    rw [length_take, Nat.min_eq_left (Nat.sub_le _ _)]
  have hlink : update s.trbs c.idx t (n - 1) = s.trbs (n - 1) := by
    rw [update_of_ne (by rw [hc.idx]; omega)]
  have hcycle : t.cycle = (s.trbs c.idx).cycle := by
    unfold Trb.cycle
    rw [ht]
  refine { h with
    ring := ?_
    linkKind := ?_
    linkTarget := ?_
    linkToggles := ?_
    idle := fun hc => nomatch hc
    calling := fun c' hc' => ?_ }
  · rw [hstored']
    have hring := h.ring
    rw [hstored] at hring
    have hprep := hring.prepare (by rw [hlen]; exact hc.room) t
    rw [hlen, ← hc.idx] at hprep
    change LapRing _ (cells (update s.trbs c.idx t)) _ _
    rw [cells_update, hcycle]
    exact hprep
  · exact (congrArg Trb.kind hlink).trans h.linkKind
  · exact (congrArg Trb.target hlink).trans h.linkTarget
  · exact (congrArg Trb.toggles hlink).trans h.linkToggles
  · obtain rfl := Option.some.inj hc'
    refine { hc with
      lo := fun hne _ => ?_
      hi := fun hne hne' _ => ?_
      status := fun heq => ?_
      turn := fun heq => absurd heq hnext' }
    · change (update s.trbs c.idx t c.idx).lo = _
      rw [update_self]
      exact hlo hne
    · change (update s.trbs c.idx t c.idx).hi = _
      rw [update_self]
      exact hhi hne hne'
    · change (update s.trbs c.idx t c.idx).status = _
      rw [update_self]
      exact hstatus heq

theorem InLap.whole {c : RingCall} (h : InLap n paddr s) (hcall : s.call = some c) (hnext : c.next = .control) :
    { s.trbs c.idx with control := (c.args.trb (s.enqueued.length - 1) s.ccs).control } =
        c.args.trb (s.enqueued.length - 1) s.ccs ∧
      LapRing (n - 1) (cells (update s.trbs c.idx
        (c.args.trb (s.enqueued.length - 1) s.ccs))) s.enqueued s.taken.length := by
  have hc := h.calling c hcall
  have hstored : s.stored = s.enqueued.length - 1 := by
    unfold stored
    rw [hcall]
    exact if_neg (by rw [hnext]; simp)
  have hlen : (s.enqueued.take (s.enqueued.length - 1)).length = s.enqueued.length - 1 := by
    rw [length_take, Nat.min_eq_left (Nat.sub_le _ _)]
  have hlog : s.enqueued.take (s.enqueued.length - 1) ++ [c.args.trb (s.enqueued.length - 1) s.ccs] = s.enqueued := by
    obtain ⟨hlt, hget⟩ := List.getElem?_eq_some_iff.1 hc.last
    rw [← hget, ← take_succ_eq_append_getElem hlt, ← hc.count, take_length]
  constructor
  · have hlo := hc.lo (by rw [hnext]; simp) (by rw [hnext]; simp)
    have hhi := hc.hi (by rw [hnext]; simp) (by rw [hnext]; simp) (by rw [hnext]; simp)
    dsimp only
    rw [hlo, hhi, hc.status hnext]
  · have hring := h.ring
    rw [hstored] at hring
    have hpush := hring.push (by rw [hlen]; exact hc.room)
      (c.args.trb (s.enqueued.length - 1) s.ccs)
    rw [hlog, hlen, ← hc.idx, ← hc.ccs] at hpush
    rw [cells_update, TrbArgs.trb_cycle]
    exact hpush

theorem InLap.ended (h : InLap n paddr s) {trbs : ℕ → Trb} (enq : ℕ) (ccs : Bool)
    {todo : List TrbArgs} (hring : LapRing (n - 1) (cells trbs) s.enqueued s.taken.length)
    (hkind : (trbs (n - 1)).kind = trbTypeLink) (htarget : (trbs (n - 1)).target = paddr.toNat)
    (htoggles : (trbs (n - 1)).toggles = true)
    (henq : n ≤ 257 ∨ s.enqueued.length < 256 → enq = s.enqueued.length % (n - 1))
    (hccs : ccs = lapBit (n - 1) s.enqueued.length) (htodo : ∀ a ∈ todo, a ∈ s.todo) :
    InLap n paddr { s with trbs := trbs, call := none, enq := enq, ccs := ccs, todo := todo } where
  ring := by
    change LapRing _ _ (s.enqueued.take s.enqueued.length) _
    rw [take_length]
    exact hring
  order := h.order
  plain := h.plain
  todo := fun a ha => h.todo a (htodo a ha)
  linkKind := hkind
  linkTarget := htarget
  linkToggles := htoggles
  place := h.place
  idle := fun _ => ⟨henq, hccs⟩
  calling := fun c hc => nomatch hc

theorem finish_todo (c : RingCall) : ∀ a ∈ (if paddr.toNat + c.idx * 16 = 0 then [] else s.todo), a ∈ s.todo := by
  intro a ha
  split at ha
  · exact nomatch ha
  · exact ha

theorem InLap.control {c : RingCall} (hn : 2 ≤ n) (h : InLap n paddr s) (hcall : s.call = some c)
    (hnext : c.next = .control) : InLap n paddr (s.storeOf n paddr c (s.enqueued.length - 1)) := by
  obtain ⟨htrb, hring⟩ := h.whole hcall hnext
  have hc := h.calling c hcall
  have hlt := Nat.mod_lt (s.enqueued.length - 1) (show 0 < n - 1 by omega)
  have hlink : update s.trbs c.idx (c.args.trb (s.enqueued.length - 1) s.ccs) (n - 1) = s.trbs (n - 1) := by
    rw [update_of_ne (by rw [hc.idx]; omega)]
  have hkind := (congrArg Trb.kind hlink).trans h.linkKind
  have htarget := (congrArg Trb.target hlink).trans h.linkTarget
  have htoggles := (congrArg Trb.toggles hlink).trans h.linkToggles
  have hturn := lap_next (n := n - 1) (by omega) (s.enqueued.length - 1)
  have hcount := hc.count
  rw [← hcount, ← hc.idx] at hturn
  unfold storeOf
  rw [hnext]
  simp only [htrb]
  by_cases hend : c.idx + 1 ≥ n - 1
  · rw [if_pos hend]
    refine { h with
      ring := ?_
      linkKind := hkind
      linkTarget := htarget
      linkToggles := htoggles
      idle := fun hc => nomatch hc
      calling := fun c' hc' => ?_ }
    · change LapRing _ _ (s.enqueued.take s.enqueued.length) _
      rw [take_length]
      exact hring
    · obtain rfl := Option.some.inj hc'
      exact { hc with
        lo := fun _ hne => absurd rfl hne
        hi := fun _ _ hne => absurd rfl hne
        status := fun heq => nomatch heq
        turn := fun _ => hend }
  · rw [if_neg hend] at hturn ⊢
    rw [if_neg hend] at hturn
    refine h.ended _ s.ccs hring hkind htarget htoggles (fun hbyte => ?_) ?_ (finish_todo c)
    · rw [hturn.1]
      have hle : c.idx ≤ s.enqueued.length - 1 := by
        rw [hc.idx]
        exact Nat.mod_le _ _
      exact Nat.mod_eq_of_lt (by omega)
    · rw [hturn.2, hc.ccs]

theorem InLap.link {c : RingCall} (hn : 2 ≤ n) (h : InLap n paddr s) (hcall : s.call = some c)
    (hnext : c.next = .link) : InLap n paddr (s.storeOf n paddr c (s.enqueued.length - 1)) := by
  have hc := h.calling c hcall
  have hend := hc.turn hnext
  have hturn := lap_next (n := n - 1) (by omega) (s.enqueued.length - 1)
  rw [← hc.count, ← hc.idx, if_pos hend, if_pos hend] at hturn
  have hstored : s.stored = s.enqueued.length := by
    unfold stored
    rw [hcall]
    exact if_pos hnext
  have hring := h.ring
  rw [hstored, take_length] at hring
  unfold storeOf
  rw [hnext]
  refine h.ended _ (!s.ccs) ?_ ?_ ?_ ?_ (fun _ => ?_) ?_ (finish_todo c)
  · refine hring.outside fun i hi => ?_
    rw [cells_update, update_of_ne (Nat.ne_of_lt hi)]
  · dsimp only
    rw [update_self]
    exact (linkControl_kind s.ccs).1
  · dsimp only
    rw [update_self]
    exact h.linkTarget
  · dsimp only
    rw [update_self]
    exact decide_eq_true (linkControl_kind s.ccs).2
  · rw [hturn.1]
  · rw [hturn.2, hc.ccs]

theorem InLap.store (hn : 2 ≤ n) (h : InLap n paddr s) : InLap n paddr (s.store n paddr) := by
  unfold TransferRing.store
  split
  next c hcall =>
    have hc := h.calling c hcall
    cases hnext : c.next with
    | lo =>
      unfold storeOf
      rw [hnext]
      exact h.word hn hcall (by rw [hnext]; simp)
        { s.trbs c.idx with lo := (c.args.trb (s.enqueued.length - 1) s.ccs).lo } rfl .hi (by simp) (fun _ => rfl)
        (fun _ hne => absurd rfl hne) (fun heq => nomatch heq)
    | hi =>
      unfold storeOf
      rw [hnext]
      exact h.word hn hcall (by rw [hnext]; simp)
        { s.trbs c.idx with hi := (c.args.trb (s.enqueued.length - 1) s.ccs).hi } rfl .status (by simp)
        (fun _ => hc.lo (by rw [hnext]; simp) (by rw [hnext]; simp)) (fun _ _ => rfl)
        (fun heq => nomatch heq)
    | status =>
      unfold storeOf
      rw [hnext]
      exact h.word hn hcall (by rw [hnext]; simp)
        { s.trbs c.idx with status := (c.args.trb (s.enqueued.length - 1) s.ccs).status } rfl .control (by simp)
        (fun _ => hc.lo (by rw [hnext]; simp) (by rw [hnext]; simp))
        (fun _ _ => hc.hi (by rw [hnext]; simp) (by rw [hnext]; simp) (by rw [hnext]; simp))
        (fun _ => rfl)
    | control => exact h.control hn hcall hnext
    | link => exact h.link hn hcall hnext
  next => exact h

theorem InLap.step (hn : 2 ≤ n) {e : RingInput} (h : InLap n paddr s) (hroom : s.Room n e) :
    InLap n paddr (s.step n paddr e) := by
  cases e with
  | request r => exact h.request r
  | enqueue => exact h.enqueue hn hroom
  | store => exact h.store hn
  | take => exact h.take hn

/-- In every run in which the ring is never full at a call of `xhci_ring_enqueue`, the controller
takes what was enqueued in order, and nothing is overwritten before it was taken. -/
theorem transfer_ring_exact (hn : 2 ≤ n) (paddr : UInt32) (es : List RingInput)
    (hroom : Meets (TransferRing.step n paddr) (Room n) (TransferRing.init n paddr) es) :
    (run (TransferRing.step n paddr) (TransferRing.init n paddr) es).Exact n :=
  (run_invariant (fun _ _ h hok => h.step hn hok) (InLap.init hn) hroom).exact

/-- Two commands, the first one taken before the second is enqueued. -/
def answered : List RingInput :=
  [.request (.command 0 (.disableSlot 1)), .enqueue, .store, .store, .store, .take, .store, .store,
    .take, .request (.command 0 (.disableSlot 2)), .take, .enqueue, .store, .store, .store, .store,
    .take, .store]

theorem answered_exact : (run (TransferRing.step 2 0x1000) (TransferRing.init 2 0x1000) answered).Exact 2 :=
  transfer_ring_exact (by decide) 0x1000 answered (by decide)

/-- GET_DESCRIPTOR without data, and the stores of its two TRBs. -/
def transfer : List RingInput :=
  [.request (.control 0 0x80 6 0x100 0 0), .enqueue, .store, .store, .store, .store, .store,
    .enqueue, .store, .store, .store, .store, .store]

/-- A ring of 32 TRBs, and 32 transfers while the controller stands still: the TRB that it finds
then is number 62. -/
theorem unanswered_overwritten : ((run (TransferRing.step 32 0x1000) (TransferRing.init 32 0x1000)
      ((List.replicate 32 transfer).flatten ++ [.take])).taken.map fun t => t.control.writer) = [some 62] ∧
      ¬∀ n, 2 ≤ n → ∀ (paddr : UInt32) es,
        (run (TransferRing.step n paddr) (TransferRing.init n paddr) es).Exact n := by
  refine ⟨by decide +kernel, fun h => ?_⟩
  have horder := (h 32 (by decide) 0x1000 ((List.replicate 32 transfer).flatten ++ [.take])).order
  revert horder
  decide +kernel

end TransferRing

end EdgeOS
