import Mathlib.Data.List.Basic
import Mathlib.Logic.Function.Basic

namespace EdgeOS

/-!
The part of the xHCI driver that plugs devices in and out. A routine that waits for the controller is a program:
what it does up to its next access to the controller's state, and a continuation for the answer. The contents of
contexts and of transfer rings, which only the hardware reads, are left out.
-/

abbrev xhciMaxTrackedSlots : UInt8 := 32

abbrev portscCcs : UInt32 := 0x1
abbrev portscCsc : UInt32 := 0x20000
abbrev portscPrc : UInt32 := 0x200000
abbrev portscRw1c : UInt32 := 0xFE0000

abbrev usbDmaPoolSize : ℕ := 512 * 1024

/-- Memory from the pool, by its offset there. -/
structure DmaBlock where
  paddr : ℕ
  size : ℕ
  deriving DecidableEq, Repr

/-- `align_up32` for the powers of two that `usb_dma_alloc` lets through. -/
def alignUp32 (v a : ℕ) : ℕ := (v + (a - 1)) / a * a

/-- `usb_dma_alloc` on the pool whose first `off` bytes are in use. -/
def usbDmaAlloc (off size align : ℕ) : Option DmaBlock :=
  let a := if align = 0 then 16 else align
  if size = 0 ∨ a &&& (a - 1) ≠ 0 then none
  else if alignUp32 off a + size > usbDmaPoolSize then none
  else some ⟨alignUp32 off a, size⟩

/-- The pool: `g_usb_dma_off`, and the blocks that came from it. -/
structure UsbDma where
  off : ℕ := 0
  blocks : List DmaBlock := []
  deriving DecidableEq, Repr

/-- `usb_dma_alloc`, and the pool after it. -/
def UsbDma.alloc (d : UsbDma) (size align : ℕ) : Option DmaBlock × UsbDma :=
  match usbDmaAlloc d.off size align with
  | none => (none, d)
  | some b => (some b, { off := b.paddr + b.size, blocks := d.blocks ++ [b] })

/-- What `xhci_parse_hid_config` finds: an interrupt IN endpoint of a boot mouse. -/
structure HidEndpoint where
  iface : UInt8 := 0
  epAddr : UInt8 := 0
  epDci : UInt8 := 0
  interval : UInt8 := 0
  maxPacket : UInt16 := 0
  deriving DecidableEq, Repr

/-- The endpoint of the descriptor at the head of `d`, in an interface with number `ifnum`. -/
def hidEndpoint (d : List UInt8) (ifnum : UInt8) : HidEndpoint :=
  let mps := ((d.getD 4 0).toUInt16 ||| (d.getD 5 0).toUInt16 <<< 8) &&& 0x7FF
  { iface := ifnum
    epAddr := d.getD 2 0
    epDci := (d.getD 2 0 &&& 0xF) * 2 + 1
    interval := if d.getD 6 0 = 0 then 10 else d.getD 6 0
    maxPacket := if mps = 0 then 8 else if mps > 64 then 64 else mps }

/-- The loop of `xhci_parse_hid_config`, on the bytes from the current offset on. -/
def parseHidFrom : ℕ → List UInt8 → Bool → UInt8 → Option HidEndpoint
  | 0, _, _, _ => none
  | fuel + 1, d, inHidIf, ifnum =>
    let dlen := (d.getD 0 0).toNat
    let dtype := d.getD 1 0
    if d.length < 2 then none
    else if dlen < 2 ∨ d.length < dlen then none
    else if dtype = 4 ∧ dlen ≥ 9 then
      parseHidFrom fuel (d.drop dlen) (d.getD 5 0 == 3 && d.getD 6 0 == 1 && d.getD 7 0 == 2) (d.getD 2 0)
    else if dtype = 5 ∧ dlen ≥ 7 ∧ inHidIf ∧ d.getD 2 0 &&& 0x80 ≠ 0 ∧ d.getD 3 0 &&& 3 = 3 then
      some (hidEndpoint d ifnum)
    else parseHidFrom fuel (d.drop dlen) inHidIf ifnum

/-- `xhci_parse_hid_config` on the bytes it is given. It clears `hid_ready` when they hold a header. -/
def parseHidConfig (cfg : List UInt8) : Option HidEndpoint :=
  if cfg.length < 9 then none else parseHidFrom (cfg.length + 1) cfg false 0

/-- `xhci_slot_state_t`; a block or a pending TRB that is zero is `none`. -/
structure XhciSlot where
  online : Bool := false
  slotId : UInt8 := 0
  hidReady : Bool := false
  hid : HidEndpoint := {}
  ep0Enq : ℕ := 0
  intrEnq : ℕ := 0
  inputCtx : Option DmaBlock := none
  deviceCtx : Option DmaBlock := none
  ep0Ring : Option DmaBlock := none
  ctrlBuf : Option DmaBlock := none
  intrRing : Option DmaBlock := none
  intrBuf : Option DmaBlock := none
  intrPendingTrb : Option ℕ := none
  deriving DecidableEq, Repr

/-- `xhci_ring_enqueue`, for the address of the TRB and the next index; the last TRB of a ring is a link. -/
def xhciRingEnqueue (ring : Option DmaBlock) (enq : ℕ) : Option (ℕ × ℕ) :=
  match ring with
  | none => none
  | some b =>
    let n := b.size / 16
    if n < 2 then none
    else
      let idx := if enq ≥ n - 1 then 0 else enq
      some (b.paddr + idx * 16, if idx + 1 ≥ n - 1 then 0 else idx + 1)

/-- The TRBs of a control transfer with `len` bytes of data, and the address of its status TRB. -/
def controlEnqueue (slot : XhciSlot) (len : ℕ) : Option ℕ × XhciSlot :=
  match xhciRingEnqueue slot.ep0Ring slot.ep0Enq with
  | none => (none, slot)
  | some (_, e) =>
    match (if len > 0 then xhciRingEnqueue slot.ep0Ring e else some (0, e)) with
    | none => (none, { slot with ep0Enq := e })
    | some (_, e) =>
      match xhciRingEnqueue slot.ep0Ring e with
      | none => (none, { slot with ep0Enq := e })
      | some (ptr, e) => (some ptr, { slot with ep0Enq := e })

def hidRearmInterrupt (slot : XhciSlot) : XhciSlot :=
  if slot.hidReady ∧ slot.intrBuf.isSome then
    match xhciRingEnqueue slot.intrRing slot.intrEnq with
    | none => slot
    | some (ptr, e) => { slot with intrEnq := e, intrPendingTrb := some ptr }
  else slot

inductive XhciCommand
  | enableSlot
  | disableSlot (s : UInt8)
  | addressDevice (s : UInt8)
  | configureEp (s : UInt8)
  deriving DecidableEq, Repr

/-- A program of the driver. A command's answer is the slot `xhci_cmd_submit_wait` reports when it returns 0, a
transfer's answer what `xhci_control_transfer` copies from the buffer. -/
inductive XhciAct
  | ret
  | readPort (p : UInt8) (k : UInt32 → XhciAct)
  | getPortSlot (p : UInt8) (k : UInt8 → XhciAct)
  | setPortSlot (p s : UInt8) (k : XhciAct)
  | getSlot (s : UInt8) (k : XhciSlot → XhciAct)
  | setSlot (s : UInt8) (f : XhciSlot → XhciSlot) (k : XhciAct)
  | alloc (size align : ℕ) (k : Option DmaBlock → XhciAct)
  | command (c : XhciCommand) (k : Option UInt8 → XhciAct)
  | transfer (ptr : ℕ) (s ep : UInt8) (len : ℕ) (k : Option (List UInt8) → XhciAct)

namespace XhciAct

/-- `xhci_control_transfer` on slot `s`. -/
def controlTransfer (s : UInt8) (len : ℕ) (k : Option (List UInt8) → XhciAct) : XhciAct :=
  .getSlot s fun slot =>
    if slot.online then
      .setSlot s (fun slot => (controlEnqueue slot len).2) <| match (controlEnqueue slot len).1 with
        | none => k none
        | some ptr => .transfer ptr slot.slotId 1 len k
    else k none

/-- `usb_dma_alloc_zero` into a field of slot `s`; without memory the rest is `fail`. -/
def allocInto (s : UInt8) (size : ℕ) (put : DmaBlock → XhciSlot → XhciSlot) (fail k : XhciAct) : XhciAct :=
  .alloc size 64 fun
    | none => fail
    | some b => .setSlot s (put b) k

/-- `xhci_configure_hid` once the endpoint is configured. -/
def activateHid (s : UInt8) : XhciAct :=
  controlTransfer s 0 fun
    | none => .ret
    | some _ =>
      controlTransfer s 0 fun _ => controlTransfer s 0 fun _ =>
        .setSlot s (fun slot => { slot with hidReady := true }) (.setSlot s hidRearmInterrupt .ret)

/-- `xhci_configure_hid` from the interrupt ring on. -/
def configureEndpoint (s : UInt8) : XhciAct :=
  .setSlot s (fun slot => { slot with intrEnq := 0 }) <| .command (.configureEp s) fun
      | some _ => activateHid s
      | none =>
        .command (.configureEp s) fun
          | some _ => activateHid s
          | none => .ret

/-- `xhci_configure_hid` once the endpoint is known. -/
def allocHid (s : UInt8) : XhciAct :=
  .getSlot s fun slot =>
    let rest : XhciAct := .getSlot s fun slot =>
      if slot.intrBuf.isSome then configureEndpoint s
      else allocInto s slot.hid.maxPacket.toNat (fun b slot => { slot with intrBuf := some b }) .ret
        (configureEndpoint s)
    if slot.intrRing.isSome then rest
    else allocInto s 512 (fun b slot => { slot with intrRing := some b }) .ret rest

/-- The length of the configuration that the header tells, as far as the buffer goes. -/
def configTotal (hdr : List UInt8) : ℕ :=
  min (max ((hdr.getD 2 0).toNat + 256 * (hdr.getD 3 0).toNat) 9) 256

def configureHid (s : UInt8) : XhciAct :=
  controlTransfer s 18 fun
    | none => .ret
    | some _ => controlTransfer s 9 fun
      | none => .ret
      | some hdr => controlTransfer s (configTotal hdr) fun
        | none => .ret
        | some cfg =>
          .setSlot s (fun slot => { slot with hidReady := false }) <| match parseHidConfig cfg with
            | none => .ret
            | some ep => .setSlot s (fun slot => { slot with hid := ep }) (allocHid s)

variable (maxPorts : UInt8)

/-- `xhci_slot_get`: what is done with the slot, if there is one. -/
def withSlot (s : UInt8) (k none : XhciAct) : XhciAct :=
  if s = 0 ∨ s > xhciMaxTrackedSlots then none else k

def markPortDisconnected (p : UInt8) : XhciAct :=
  if p = 0 ∨ p > maxPorts then .ret
  else .getPortSlot p fun s =>
    if s = 0 then .ret
    else
      let rest : XhciAct := .command (.disableSlot s) fun _ => .setPortSlot p 0 .ret
      withSlot s (.setSlot s (fun slot => { slot with online := false }) rest) rest

/-- The `fail` label of `xhci_enumerate_root_port`. -/
def enumerateFail (p s : UInt8) : XhciAct :=
  .setSlot s (fun slot => { slot with online := false }) <| .setPortSlot p 0 (.command (.disableSlot s) fun _ => .ret)

/-- `xhci_enumerate_root_port` with the slot the controller gave; `ctx` is `xhci_ctx_bytes`. -/
def enumerateSlot (ctx : ℕ) (p s : UInt8) : XhciAct :=
  let fail := enumerateFail p s
  .setSlot s (fun _ => { online := true, slotId := s }) <| .setPortSlot p s <|
    allocInto s (ctx * 64) (fun b slot => { slot with inputCtx := some b }) fail <|
    allocInto s (ctx * 64) (fun b slot => { slot with deviceCtx := some b }) fail <|
    allocInto s 512 (fun b slot => { slot with ep0Ring := some b }) fail <|
    allocInto s 1024 (fun b slot => { slot with ctrlBuf := some b }) fail <|
    .setSlot s (fun slot => { slot with ep0Enq := 0 }) <|
    .command (.addressDevice s) fun
      | none => fail
      | some _ => configureHid s

def enumerateRootPort (ctx : ℕ) (p : UInt8) : XhciAct :=
  if p = 0 ∨ p > maxPorts then .ret
  else .readPort p fun psc =>
    if psc &&& portscCcs = 0 then .ret
    else .getPortSlot p fun s =>
      let enable : XhciAct := .command .enableSlot fun
        | none => .ret
        | some s => withSlot s (enumerateSlot ctx p s) .ret
      if s = 0 then enable
      else withSlot s (.getSlot s fun slot => if slot.online then .ret else enable) enable

end XhciAct

/-- `xhci_controller_t` as far as the programs use it, and the registers of the ports. `portIndices` and
`slotIndices` are the indices that `port_to_slot` and `slots` were used with. -/
structure XhciCtl where
  portsc : UInt8 → UInt32 := fun _ => 0
  portToSlot : UInt8 → UInt8 := fun _ => 0
  slots : UInt8 → XhciSlot := fun _ => {}
  dma : UsbDma := {}
  portIndices : List UInt8 := []
  slotIndices : List UInt8 := []

namespace XhciCtl

def setPortSlot (c : XhciCtl) (p s : UInt8) : XhciCtl :=
  { c with portToSlot := Function.update c.portToSlot p s, portIndices := c.portIndices ++ [p] }

def setSlot (c : XhciCtl) (s : UInt8) (f : XhciSlot → XhciSlot) : XhciCtl :=
  { c with slots := Function.update c.slots s (f (c.slots s)), slotIndices := c.slotIndices ++ [s] }

end XhciCtl

/-- One access of a program that does not wait, and what is left of the program. -/
def XhciAct.access (c : XhciCtl) : XhciAct → XhciCtl × XhciAct
  | .readPort p k => (c, k (c.portsc p))
  | .getPortSlot p k => ({ c with portIndices := c.portIndices ++ [p] }, k (c.portToSlot p))
  | .setPortSlot p s k => (c.setPortSlot p s, k)
  | .getSlot s k => ({ c with slotIndices := c.slotIndices ++ [s] }, k (c.slots s))
  | .setSlot s f k => (c.setSlot s f, k)
  | .alloc size align k => ({ c with dma := (c.dma.alloc size align).2 }, k (c.dma.alloc size align).1)
  | a => (c, a)

/-- Whatever it is answered, the program indexes the tables inside their bounds. -/
def XhciAct.Safe (maxPorts : UInt8) : XhciAct → Prop
  | .ret => True
  | .readPort _ k => ∀ v, (k v).Safe maxPorts
  | .getPortSlot p k => (1 ≤ p ∧ p ≤ maxPorts) ∧ ∀ v, (k v).Safe maxPorts
  | .setPortSlot p _ k => (1 ≤ p ∧ p ≤ maxPorts) ∧ k.Safe maxPorts
  | .getSlot s k => (1 ≤ s ∧ s ≤ xhciMaxTrackedSlots) ∧ ∀ v, (k v).Safe maxPorts
  | .setSlot s _ k => (1 ≤ s ∧ s ≤ xhciMaxTrackedSlots) ∧ k.Safe maxPorts
  | .alloc _ _ k => ∀ b, (k b).Safe maxPorts
  | .command _ k => ∀ r, (k r).Safe maxPorts
  | .transfer _ _ _ _ k => ∀ r, (k r).Safe maxPorts

/-- The indices used so far are inside the bounds. -/
structure XhciCtl.InBounds (maxPorts : UInt8) (c : XhciCtl) : Prop where
  ports : ∀ p ∈ c.portIndices, 1 ≤ p ∧ p ≤ maxPorts
  slots : ∀ s ∈ c.slotIndices, 1 ≤ s ∧ s ≤ xhciMaxTrackedSlots

theorem XhciCtl.InBounds.addPort {maxPorts p : UInt8} {c d : XhciCtl} (h : c.InBounds maxPorts)
    (hp : 1 ≤ p ∧ p ≤ maxPorts) (hport : d.portIndices = c.portIndices ++ [p] := by rfl)
    (hslot : d.slotIndices = c.slotIndices := by rfl) : d.InBounds maxPorts where
  ports := by
    rw [hport]
    exact List.forall_mem_append.mpr ⟨h.ports, List.forall_mem_singleton.mpr hp⟩
  slots := hslot ▸ h.slots

theorem XhciCtl.InBounds.addSlot {maxPorts s : UInt8} {c d : XhciCtl} (h : c.InBounds maxPorts)
    (hs : 1 ≤ s ∧ s ≤ xhciMaxTrackedSlots) (hslot : d.slotIndices = c.slotIndices ++ [s] := by rfl)
    (hport : d.portIndices = c.portIndices := by rfl) : d.InBounds maxPorts where
  ports := hport ▸ h.ports
  slots := by
    rw [hslot]
    exact List.forall_mem_append.mpr ⟨h.slots, List.forall_mem_singleton.mpr hs⟩

namespace XhciAct

variable {maxPorts : UInt8} {ctx : ℕ} {p s : UInt8} {c : XhciCtl} {a k fail : XhciAct}

theorem controlTransfer_safe {len : ℕ} {k : Option (List UInt8) → XhciAct} (hs : 1 ≤ s ∧ s ≤ xhciMaxTrackedSlots)
    (hk : ∀ r, (k r).Safe maxPorts) : (controlTransfer s len k).Safe maxPorts := by
  refine ⟨hs, fun slot => ?_⟩
  dsimp only
  split
  · refine ⟨hs, ?_⟩
    split
    · exact hk none
    · exact hk
  · exact hk none

theorem allocInto_safe {size : ℕ} {put : DmaBlock → XhciSlot → XhciSlot} (hs : 1 ≤ s ∧ s ≤ xhciMaxTrackedSlots)
    (hfail : fail.Safe maxPorts) (hk : k.Safe maxPorts) : (allocInto s size put fail k).Safe maxPorts := by
  intro b
  cases b with
  | none => exact hfail
  | some b => exact ⟨hs, hk⟩

theorem activateHid_safe (hs : 1 ≤ s ∧ s ≤ xhciMaxTrackedSlots) : (activateHid s).Safe maxPorts := by
  apply controlTransfer_safe hs
  intro r
  cases r with
  | none => trivial
  | some _ =>
    apply controlTransfer_safe hs
    intro _
    apply controlTransfer_safe hs
    intro _
    exact ⟨hs, hs, trivial⟩

theorem configureEndpoint_safe (hs : 1 ≤ s ∧ s ≤ xhciMaxTrackedSlots) : (configureEndpoint s).Safe maxPorts := by
  refine ⟨hs, fun r => ?_⟩
  cases r with
  | some _ => exact activateHid_safe hs
  | none =>
    intro r
    cases r with
    | some _ => exact activateHid_safe hs
    | none => trivial

theorem allocHid_safe (hs : 1 ≤ s ∧ s ≤ xhciMaxTrackedSlots) : (allocHid s).Safe maxPorts := by
  refine ⟨hs, fun slot => ?_⟩
  have hrest : (XhciAct.getSlot s fun slot =>
      if slot.intrBuf.isSome then configureEndpoint s
      else allocInto s slot.hid.maxPacket.toNat (fun b slot => { slot with intrBuf := some b }) .ret
        (configureEndpoint s)).Safe maxPorts := by
    refine ⟨hs, fun slot => ?_⟩
    dsimp only
    split
    · exact configureEndpoint_safe hs
    · exact allocInto_safe hs trivial (configureEndpoint_safe hs)
  dsimp only
  split
  · exact hrest
  · exact allocInto_safe hs trivial hrest

theorem configureHid_safe (hs : 1 ≤ s ∧ s ≤ xhciMaxTrackedSlots) : (configureHid s).Safe maxPorts := by
  apply controlTransfer_safe hs
  intro r
  cases r with
  | none => trivial
  | some _ =>
    apply controlTransfer_safe hs
    intro hdr
    cases hdr with
    | none => trivial
    | some hdr =>
      apply controlTransfer_safe hs
      intro cfg
      cases cfg with
      | none => trivial
      | some cfg =>
        refine ⟨hs, ?_⟩
        split
        · trivial
        · exact ⟨hs, allocHid_safe hs⟩

theorem withSlot_safe (hk : 1 ≤ s ∧ s ≤ xhciMaxTrackedSlots → k.Safe maxPorts) (hnone : fail.Safe maxPorts) :
    (withSlot s k fail).Safe maxPorts := by
  unfold withSlot
  split
  · exact hnone
  · apply hk
    grind

theorem markPortDisconnected_safe : (markPortDisconnected maxPorts p).Safe maxPorts := by
  unfold markPortDisconnected
  split
  · trivial
  have hp : 1 ≤ p ∧ p ≤ maxPorts := by grind
  refine ⟨hp, fun s => ?_⟩
  dsimp only
  split
  · trivial
  have hrest : (XhciAct.command (.disableSlot s) fun _ => .setPortSlot p 0 .ret).Safe maxPorts :=
    fun _ => ⟨hp, trivial⟩
  exact withSlot_safe (fun hs => ⟨hs, hrest⟩) hrest

theorem enumerateSlot_safe (hp : 1 ≤ p ∧ p ≤ maxPorts) (hs : 1 ≤ s ∧ s ≤ xhciMaxTrackedSlots) :
    (enumerateSlot ctx p s).Safe maxPorts := by
  have hfail : (enumerateFail p s).Safe maxPorts := ⟨hs, hp, fun _ => trivial⟩
  refine ⟨hs, hp, ?_⟩
  apply allocInto_safe hs hfail
  apply allocInto_safe hs hfail
  apply allocInto_safe hs hfail
  apply allocInto_safe hs hfail
  refine ⟨hs, fun r => ?_⟩
  cases r with
  | none => exact hfail
  | some _ => exact configureHid_safe hs

theorem enumerateRootPort_safe : (enumerateRootPort maxPorts ctx p).Safe maxPorts := by
  unfold enumerateRootPort
  split
  · trivial
  have hp : 1 ≤ p ∧ p ≤ maxPorts := by grind
  intro psc
  dsimp only
  split
  · trivial
  refine ⟨hp, fun s => ?_⟩
  have henable : (XhciAct.command .enableSlot fun
      | none => .ret
      | some s => withSlot s (enumerateSlot ctx p s) .ret).Safe maxPorts := by
    intro r
    cases r with
    | none => trivial
    | some s => exact withSlot_safe (enumerateSlot_safe hp) trivial
  dsimp only
  split
  · exact henable
  apply withSlot_safe _ henable
  intro hs
  refine ⟨hs, fun slot => ?_⟩
  dsimp only
  split
  · trivial
  · exact henable

/-- An access of a safe program is inside the bounds, and what is left of it is safe. -/
theorem Safe.access (ha : a.Safe maxPorts) (hc : c.InBounds maxPorts) :
    (a.access c).1.InBounds maxPorts ∧ (a.access c).2.Safe maxPorts := by
  cases a with
  | ret => exact ⟨hc, trivial⟩
  | readPort p k => exact ⟨hc, ha _⟩
  | getPortSlot p k => exact ⟨hc.addPort ha.1, ha.2 _⟩
  | setPortSlot p s k => exact ⟨hc.addPort ha.1, ha.2⟩
  | getSlot s k => exact ⟨hc.addSlot ha.1, ha.2 _⟩
  | setSlot s f k => exact ⟨hc.addSlot ha.1, ha.2⟩
  | alloc size align k => exact ⟨⟨hc.ports, hc.slots⟩, ha _⟩
  | command _ k => exact ⟨hc, ha⟩
  | transfer _ _ _ _ k => exact ⟨hc, ha⟩

end XhciAct

end EdgeOS
