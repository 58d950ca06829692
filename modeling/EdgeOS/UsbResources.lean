import EdgeOS.Lib.Runs
import EdgeOS.UhciDriver
import Mathlib.Data.List.Perm.Basic
import Mathlib.Data.List.Nodup
import Mathlib.Data.List.Range
import Mathlib.Data.List.ReduceOption

namespace EdgeOS

open Lib Function List XhciAct XhciCtl XhciSlot
open Or (inr inl)

/-!
What the USB drivers take and what is still used. Devices are plugged in and out of an xHCI controller, one after
the other, and control transfers run on a UHCI controller; both take their memory from one pool.
-/

/-- The program to its end. `cmd` are the answers to its commands and `xfer` those to its transfers, in order. -/
def XhciAct.exec : XhciAct → (ℕ → Option UInt8) → (ℕ → Option (List UInt8)) → XhciCtl → XhciCtl
  | .ret, _, _, c => c
  | .readPort p k, cmd, xfer, c => (k (c.portsc p)).exec cmd xfer c
  | .getPortSlot p k, cmd, xfer, c =>
    (k (c.portToSlot p)).exec cmd xfer { c with portIndices := c.portIndices ++ [p] }
  | .setPortSlot p s k, cmd, xfer, c => k.exec cmd xfer (c.setPortSlot p s)
  | .getSlot s k, cmd, xfer, c => (k (c.slots s)).exec cmd xfer { c with slotIndices := c.slotIndices ++ [s] }
  | .setSlot s f k, cmd, xfer, c => k.exec cmd xfer (c.setSlot s f)
  | .alloc size align k, cmd, xfer, c =>
    (k (c.dma.alloc size align).1).exec cmd xfer { c with dma := (c.dma.alloc size align).2 }
  | .command _ k, cmd, xfer, c => (k (cmd 0)).exec (fun n => cmd (n + 1)) xfer c
  | .transfer _ _ _ _ k, cmd, xfer, c => (k (xfer 0)).exec cmd (fun n => xfer (n + 1)) c

def XhciSlot.blocks (s : XhciSlot) : List DmaBlock :=
  [s.inputCtx, s.deviceCtx, s.ep0Ring, s.ctrlBuf, s.intrRing, s.intrBuf].reduceOption

def XhciSlot.live (s : XhciSlot) : List DmaBlock := if s.online then s.blocks else []

def trackedSlots : List UInt8 := (List.range xhciMaxTrackedSlots.toNat).map fun i => UInt8.ofNat (i + 1)

/-- Both controllers. `rings` are the blocks of `xhci_setup_rings`; the pool is in `xhci.dma`. -/
structure UsbSys where
  rings : List DmaBlock := []
  xhci : XhciCtl := {}
  uhci : Uhci := {}

/-- `xhci_setup_rings`: the table of contexts, the command ring, the event ring and its segment table. -/
def xhciSetupRings (d : UsbDma) : List DmaBlock × UsbDma :=
  [2048, 1024, 4096, 16].foldl
    (fun r size => (r.1 ++ (r.2.alloc size 64).1.toList, (r.2.alloc size 64).2)) ([], d)

/-- A step: a port reads `psc` and is enumerated, a port reads that nothing is connected, a control transfer. -/
inductive UsbEvent
  | connect (p : UInt8) (psc : UInt32) (cmd : ℕ → Option UInt8) (xfer : ℕ → Option (List UInt8))
  | disconnect (p : UInt8) (cmd : ℕ → Option UInt8)
  | transfer (req : UhciRequest) (hw : UhciReply)

def xhciCtxBytes (ctxSz64 : Bool) : ℕ := if ctxSz64 then 64 else 32

namespace UsbSys

variable (maxPorts : UInt8) (ctxSz64 : Bool) (s : UsbSys)

/-- `usb_init` with an xHCI and a UHCI controller. -/
def boot : UsbSys :=
  let r := xhciSetupRings {}
  let u := (Uhci.initController r.2).getD {}
  { rings := r.1, xhci := { dma := u.dma }, uhci := u }

def setPort (p : UInt8) (v : UInt32) : XhciCtl :=
  { s.xhci with portsc := Function.update s.xhci.portsc p v }

/-- A step. The controller answers Enable Slot with a slot that is not in use. -/
def step : UsbEvent → UsbSys
  | .connect p psc cmd xfer =>
    if (cmd 0).all (fun t => !(s.xhci.slots t).online) = true then
      { s with xhci := (XhciAct.enumerateRootPort maxPorts (xhciCtxBytes ctxSz64) p).exec cmd xfer (s.setPort p psc) }
    else s
  | .disconnect p cmd =>
    { s with xhci := (XhciAct.markPortDisconnected maxPorts p).exec cmd (fun _ => none) (s.setPort p 0) }
  | .transfer req hw =>
    let u := (Uhci.controlTransfer { s.uhci with dma := s.xhci.dma } req hw).2
    { s with xhci := { s.xhci with dma := u.dma }, uhci := u }

def deviceBlocks (slots : UInt8 → XhciSlot) : List DmaBlock := trackedSlots.flatMap fun i => (slots i).live

def ownBlocks : List DmaBlock :=
  s.rings ++ [s.uhci.frameList, s.uhci.qhPool, s.uhci.tdPool].reduceOption

/-- All that was taken is referred to by a controller or by a device that is online. -/
structure Conserved : Prop where
  dma : s.xhci.dma.blocks.Perm (s.ownBlocks ++ deviceBlocks s.xhci.slots)
  qhs : ∀ i ∈ s.uhci.qhTaken, i = s.uhci.qhScheduleHead
  tds : ∀ t ∈ s.uhci.tdTaken, s.uhci.tdPhys t = (s.uhci.qhs s.uhci.qhScheduleHead).elemPtr

/-- The pool has `n` bytes left from the next multiple of 64 on. -/
def Room (d : UsbDma) (n : ℕ) : Prop := alignUp32 d.off 64 + n ≤ usbDmaPoolSize

instance (d : UsbDma) (n : ℕ) : Decidable (Room d n) := inferInstanceAs (Decidable (_ ≤ _))

/-- The enumeration of port `p` ends before it has a slot. -/
def Refused (p : UInt8) (psc : UInt32) (cmd : ℕ → Option UInt8) : Prop :=
  p = 0 ∨ p > maxPorts ∨ psc &&& portscCcs = 0 ∨ s.xhci.portToSlot p ≠ 0 ∨ ∀ t ∈ cmd 0, t = 0 ∨ t > xhciMaxTrackedSlots

/-- The condition on a step. An enumeration takes nothing, or finds memory for all of a device and has it addressed;
only a port without a device is disconnected; a control transfer is refused for its arguments. -/
def Keeps : UsbEvent → Prop
  | .connect p psc cmd _ =>
    (∃ t ∈ cmd 0, (s.xhci.slots t).online = true) ∨ s.Refused maxPorts p psc cmd ∨
      ¬Room s.xhci.dma (xhciCtxBytes ctxSz64 * 64) ∨
      Room s.xhci.dma (xhciCtxBytes ctxSz64 * 64 * 2 + 512 + 1024) ∧ (cmd 1).isSome
  | .disconnect p _ => p = 0 ∨ p > maxPorts ∨ s.xhci.portToSlot p = 0
  | .transfer req _ => req.length > 0 ∧ req.data.isNone ∨ req.length > 1024

end UsbSys

theorem alignUp32_dvd (v : ℕ) : 64 ∣ alignUp32 v 64 := Nat.dvd_mul_left _ _

theorem alignUp32_of_dvd {v : ℕ} (h : 64 ∣ v) : alignUp32 v 64 = v := by
  obtain ⟨q, rfl⟩ := h
  unfold alignUp32
  omega

/-- The pool after a block of `size` bytes at a multiple of 64. -/
def UsbDma.take (d : UsbDma) (size : ℕ) : DmaBlock × UsbDma :=
  (⟨alignUp32 d.off 64, size⟩, ⟨alignUp32 d.off 64 + size, d.blocks ++ [⟨alignUp32 d.off 64, size⟩]⟩)

theorem UsbDma.alloc_eq (d : UsbDma) {size : ℕ} (h : 0 < size) :
    d.alloc size 64 = if UsbSys.Room d size then (some (d.take size).1, (d.take size).2) else (none, d) := by
  have h1 : ¬(size = 0 ∨ 64 &&& (64 - 1) ≠ 0) := by
    intro hc
    rcases hc with hc | hc
    · omega
    · exact hc (by decide)
  have h2 : usbDmaAlloc d.off size 64 = if UsbSys.Room d size then some (d.take size).1 else none := by
    unfold usbDmaAlloc
    dsimp only
    rw [if_neg (by decide : ¬64 = 0), if_neg h1]
    by_cases hroom : UsbSys.Room d size
    · rw [if_pos hroom, if_neg (Nat.not_lt.mpr hroom)]
      rfl
    · rw [if_neg hroom, if_pos (Nat.not_le.mp hroom)]
  unfold UsbDma.alloc
  rw [h2]
  split_ifs
  · rfl
  · rfl

/-- A block of `size` bytes is put into a field of slot `t`. -/
def XhciCtl.take (c : XhciCtl) (t : UInt8) (size : ℕ) (put : DmaBlock → XhciSlot → XhciSlot) : XhciCtl :=
  XhciCtl.setSlot { c with dma := (c.dma.take size).2 } t (put (c.dma.take size).1)

namespace XhciCtl

variable (c : XhciCtl) (t : UInt8) (f : XhciSlot → XhciSlot)

theorem setSlot_self : (c.setSlot t f).slots t = f (c.slots t) := update_self _ _ _

theorem setSlot_other {i : UInt8} (h : i ≠ t) : (c.setSlot t f).slots i = c.slots i := update_of_ne h _ _

end XhciCtl

section

variable {c : XhciCtl} {t : UInt8} {size : ℕ} {put : DmaBlock → XhciSlot → XhciSlot} {fail k : XhciAct}
  {cmd : ℕ → Option UInt8} {xfer : ℕ → Option (List UInt8)}

theorem exec_allocInto_room (hsize : 0 < size) (h : UsbSys.Room c.dma size) :
    (allocInto t size put fail k).exec cmd xfer c = k.exec cmd xfer (c.take t size put) := by
  unfold allocInto
  rw [exec, UsbDma.alloc_eq _ hsize, if_pos h]
  rfl

theorem exec_allocInto_full (hsize : 0 < size) (h : ¬UsbSys.Room c.dma size) :
    (allocInto t size put fail k).exec cmd xfer c = fail.exec cmd xfer c := by
  unfold allocInto
  rw [exec, UsbDma.alloc_eq _ hsize, if_neg h]

theorem exec_enumerateFail (p : UInt8) : (enumerateFail p t).exec cmd xfer c =
      (c.setSlot t fun slot => { slot with online := false }).setPortSlot p 0 := rfl

end

namespace UsbSys

/-- Slot `t` is in use by a device at port `p`, and what it refers to is all that was taken since `c₀`. -/
structure Live (p t : UInt8) (c₀ c : XhciCtl) : Prop where
  dma : ∃ extra, c.dma.blocks = c₀.dma.blocks ++ extra ∧ extra.Perm (c.slots t).blocks
  online : (c.slots t).online = true
  holds : (c.slots t).blocks ≠ []
  others : ∀ i, i ≠ t → c.slots i = c₀.slots i
  ports : c.portToSlot = Function.update c₀.portToSlot p t

variable {p t : UInt8} {c₀ c : XhciCtl} {cmd : ℕ → Option UInt8} {xfer : ℕ → Option (List UInt8)}

namespace Live

theorem setSlot (h : Live p t c₀ c) {f : XhciSlot → XhciSlot} (hb : (f (c.slots t)).blocks = (c.slots t).blocks)
    (ho : (f (c.slots t)).online = (c.slots t).online) : Live p t c₀ (c.setSlot t f) where
  dma := by
    obtain ⟨extra, he, hp⟩ := h.dma
    refine ⟨extra, he, ?_⟩
    rw [c.setSlot_self, hb]
    exact hp
  online := by
    rw [c.setSlot_self, ho]
    exact h.online
  holds := by
    rw [c.setSlot_self, hb]
    exact h.holds
  others i hi := by
    rw [c.setSlot_other t f hi]
    exact h.others i hi
  ports := h.ports

theorem take (h : Live p t c₀ c) {size : ℕ} {put : DmaBlock → XhciSlot → XhciSlot}
    (hb : ∀ b, (b :: (c.slots t).blocks).Perm (put b (c.slots t)).blocks)
    (ho : ∀ b, (put b (c.slots t)).online = (c.slots t).online) : Live p t c₀ (c.take t size put) where
  dma := by
    obtain ⟨extra, he, hp⟩ := h.dma
    refine ⟨extra ++ [(c.dma.take size).1], ?_, ?_⟩
    · change c.dma.blocks ++ [(c.dma.take size).1] = _
      rw [he, append_assoc]
    · unfold XhciCtl.take
      rw [XhciCtl.setSlot_self]
      exact (perm_append_singleton _ _).trans ((hp.cons _).trans (hb _))
  online := by
    unfold XhciCtl.take
    rw [XhciCtl.setSlot_self, ho]
    exact h.online
  holds := by
    unfold XhciCtl.take
    rw [XhciCtl.setSlot_self]
    intro hnil
    have hl := (hb (c.dma.take size).1).length_eq
    rw [hnil] at hl
    cases hl
  others i hi := by
    unfold XhciCtl.take
    rw [XhciCtl.setSlot_other _ _ _ hi]
    exact h.others i hi
  ports := h.ports

theorem log (h : Live p t c₀ c) (l : List UInt8) : Live p t c₀ { c with slotIndices := l } :=
  ⟨h.dma, h.online, h.holds, h.others, h.ports⟩

theorem controlEnqueue_keeps (slot : XhciSlot) (len : ℕ) :
    (controlEnqueue slot len).2.blocks = slot.blocks ∧ (controlEnqueue slot len).2.online = slot.online := by
  unfold controlEnqueue
  split
  · exact ⟨rfl, rfl⟩
  split
  · exact ⟨rfl, rfl⟩
  split
  · exact ⟨rfl, rfl⟩
  · exact ⟨rfl, rfl⟩

theorem hidRearm_keeps (slot : XhciSlot) :
    (hidRearmInterrupt slot).blocks = slot.blocks ∧ (hidRearmInterrupt slot).online = slot.online := by
  unfold hidRearmInterrupt
  split
  · split
    · exact ⟨rfl, rfl⟩
    · exact ⟨rfl, rfl⟩
  · exact ⟨rfl, rfl⟩

/-- The device stays as it is through the program `a`, whatever the answers. -/
def Through (p t : UInt8) (c₀ : XhciCtl) (a : XhciAct) : Prop :=
  ∀ c cmd xfer, Live p t c₀ c → Live p t c₀ (a.exec cmd xfer c)

theorem through_ret : Through p t c₀ .ret := fun _ _ _ h => h

theorem through_setSlot {f : XhciSlot → XhciSlot} {k : XhciAct} (hb : ∀ slot, (f slot).blocks = slot.blocks)
    (ho : ∀ slot, (f slot).online = slot.online) (hk : Through p t c₀ k) : Through p t c₀ (.setSlot t f k) :=
  fun _ cmd xfer h => hk _ cmd xfer (h.setSlot (hb _) (ho _))

theorem through_command {x : XhciCommand} {k : Option UInt8 → XhciAct} (hk : ∀ r, Through p t c₀ (k r)) :
    Through p t c₀ (.command x k) :=
  fun c _ xfer h => hk _ c _ xfer h

theorem through_controlTransfer {len : ℕ} {k : Option (List UInt8) → XhciAct} (hk : ∀ r, Through p t c₀ (k r)) :
    Through p t c₀ (controlTransfer t len k) := by
  intro c cmd xfer h
  unfold controlTransfer
  rw [exec, if_pos h.online, exec]
  have hs := h.log (c.slotIndices ++ [t]) |>.setSlot (f := fun slot => (controlEnqueue slot len).2)
    (controlEnqueue_keeps _ _).1 (controlEnqueue_keeps _ _).2
  split
  · exact hk _ _ _ _ hs
  · exact hk _ _ _ _ hs

theorem blocks_put (l₁ l₂ : List (Option DmaBlock)) (b : DmaBlock) :
    (b :: (l₁ ++ none :: l₂).reduceOption).Perm (l₁ ++ some b :: l₂).reduceOption := by
  rw [reduceOption_append, reduceOption_append, reduceOption_cons_of_none, reduceOption_cons_of_some]
  exact perm_middle.symm

theorem allocInto (h : Live p t c₀ c) {size : ℕ} {put : DmaBlock → XhciSlot → XhciSlot} {k : XhciAct}
    (hb : ∀ b, (b :: (c.slots t).blocks).Perm (put b (c.slots t)).blocks)
    (ho : ∀ b, (put b (c.slots t)).online = (c.slots t).online) (hk : Through p t c₀ k) :
    Live p t c₀ ((allocInto t size put .ret k).exec cmd xfer c) := by
  rcases Nat.eq_zero_or_pos size with rfl | hsize
  · exact h
  by_cases hroom : Room c.dma size
  · rw [exec_allocInto_room hsize hroom]
    exact hk _ _ _ (h.take hb ho)
  · rw [exec_allocInto_full hsize hroom]
    exact h

theorem through_activateHid : Through p t c₀ (activateHid t) := by
  apply through_controlTransfer
  intro r
  cases r with
  | none => exact through_ret
  | some _ =>
    apply through_controlTransfer
    intro _
    apply through_controlTransfer
    intro _
    refine through_setSlot (fun _ => rfl) (fun _ => rfl) ?_
    exact through_setSlot (fun slot => (hidRearm_keeps slot).1) (fun slot => (hidRearm_keeps slot).2) through_ret

theorem through_configureEndpoint : Through p t c₀ (configureEndpoint t) := by
  unfold configureEndpoint
  refine through_setSlot (fun _ => rfl) (fun _ => rfl) ?_
  apply through_command
  intro r
  cases r with
  | some _ => exact through_activateHid
  | none =>
    apply through_command
    intro r
    cases r with
    | some _ => exact through_activateHid
    | none => exact through_ret

theorem through_allocHid : Through p t c₀ (XhciAct.allocHid t) := by
  have hrest : Through p t c₀ (.getSlot t fun slot =>
      if slot.intrBuf.isSome then XhciAct.configureEndpoint t
      else XhciAct.allocInto t slot.hid.maxPacket.toNat (fun b slot => { slot with intrBuf := some b }) .ret
        (XhciAct.configureEndpoint t)) := by
    intro c cmd xfer h
    rw [XhciAct.exec]
    split
    · exact through_configureEndpoint _ _ _ (h.log _)
    next hnone =>
    have hnone : (c.slots t).intrBuf = none := Option.not_isSome_iff_eq_none.mp hnone
    apply (h.log _).allocInto _ (fun _ => rfl) through_configureEndpoint
    intro b
    unfold blocks
    dsimp only
    rw [hnone]
    exact blocks_put [_, _, _, _, _] [] b
  intro c cmd xfer h
  unfold XhciAct.allocHid
  rw [XhciAct.exec]
  dsimp only
  split
  · exact hrest _ _ _ (h.log _)
  next hnone =>
  have hnone : (c.slots t).intrRing = none := Option.not_isSome_iff_eq_none.mp hnone
  apply (h.log _).allocInto _ (fun _ => rfl) hrest
  intro b
  unfold blocks
  dsimp only
  rw [hnone]
  exact blocks_put [_, _, _, _] [_] b

theorem through_configureHid : Through p t c₀ (configureHid t) := by
  apply through_controlTransfer
  intro r
  cases r with
  | none => exact through_ret
  | some _ =>
    apply through_controlTransfer
    intro hdr
    cases hdr with
    | none => exact through_ret
    | some hdr =>
      apply through_controlTransfer
      intro cfg
      cases cfg with
      | none => exact through_ret
      | some cfg =>
        refine through_setSlot (fun _ => rfl) (fun _ => rfl) ?_
        split
        · exact through_ret
        · exact through_setSlot (fun _ => rfl) (fun _ => rfl) through_allocHid

end Live

/-- Slot `t` is `sl`, with `n` bytes taken since `c₀` from the next multiple of 64 on, all of them in its blocks. -/
structure Stage (p t : UInt8) (c₀ c : XhciCtl) (sl : XhciSlot) (n : ℕ) : Prop where
  dma : c.dma.blocks = c₀.dma.blocks ++ sl.blocks
  base : alignUp32 c.dma.off 64 = alignUp32 c₀.dma.off 64 + n
  slot : c.slots t = sl
  others : ∀ i, i ≠ t → c.slots i = c₀.slots i
  ports : c.portToSlot = Function.update c₀.portToSlot p t

namespace Stage

variable {sl : XhciSlot} {n size : ℕ}

theorem room (h : Stage p t c₀ c sl n) : Room c.dma size ↔ Room c₀.dma (n + size) := by
  unfold Room
  rw [h.base, Nat.add_assoc]

theorem take (h : Stage p t c₀ c sl n) (hsize : 64 ∣ size) {put : DmaBlock → XhciSlot → XhciSlot}
    (hput : ∀ b, (put b sl).blocks = sl.blocks ++ [b]) :
    Stage p t c₀ (c.take t size put) (put (c.dma.take size).1 sl) (n + size) where
  dma := by
    rw [hput, ← append_assoc, ← h.dma]
    rfl
  base := by
    change alignUp32 (alignUp32 c.dma.off 64 + size) 64 = _
    rw [alignUp32_of_dvd (Nat.dvd_add (alignUp32_dvd _) hsize), h.base, Nat.add_assoc]
  slot := by
    unfold XhciCtl.take
    rw [XhciCtl.setSlot_self]
    exact congrArg _ h.slot
  others i hi := by
    unfold XhciCtl.take
    rw [XhciCtl.setSlot_other _ _ _ hi]
    exact h.others i hi
  ports := h.ports

theorem setSlot (h : Stage p t c₀ c sl n) {f : XhciSlot → XhciSlot} (hf : (f sl).blocks = sl.blocks) :
    Stage p t c₀ (c.setSlot t f) (f sl) n where
  dma := by
    rw [hf]
    exact h.dma
  base := h.base
  slot := by
    rw [setSlot_self, h.slot]
  others i hi := by
    rw [setSlot_other _ _ _ hi]
    exact h.others i hi
  ports := h.ports

end Stage

/-- The slot is given up again: `n` blocks are taken that nothing refers to. -/
structure Dropped (p t : UInt8) (c₀ c : XhciCtl) (n : ℕ) : Prop where
  dma : ∃ extra, c.dma.blocks = c₀.dma.blocks ++ extra ∧ extra.length = n
  offline : (c.slots t).online = false
  others : ∀ i, i ≠ t → c.slots i = c₀.slots i
  ports : c.portToSlot = Function.update c₀.portToSlot p 0

theorem Stage.fail {sl : XhciSlot} {n : ℕ} (h : Stage p t c₀ c sl n) :
    Dropped p t c₀ ((enumerateFail p t).exec cmd xfer c) sl.blocks.length where
  dma := ⟨sl.blocks, h.dma, rfl⟩
  offline := by
    rw [exec_enumerateFail]
    exact congrArg online (c.setSlot_self t fun slot => { slot with online := false })
  others i hi := by
    rw [exec_enumerateFail]
    exact (c.setSlot_other t (fun slot => { slot with online := false }) hi).trans (h.others i hi)
  ports := by
    rw [exec_enumerateFail]
    change update c.portToSlot p 0 = _
    rw [h.ports, update_idem]

theorem Room.mono {d : UsbDma} {m n : ℕ} (h : Room d n) (hm : m ≤ n) : Room d m :=
  Nat.le_trans (Nat.add_le_add_left hm _) h

/-- What an enumeration with slot `t` comes to. -/
inductive Enumerated (p t : UInt8) (c₀ c : XhciCtl) (ctx : ℕ) (addressed : Prop) : Prop
  | full (h : ¬Room c₀.dma (ctx * 64)) (hd : Dropped p t c₀ c 0)
  | done (h : Room c₀.dma (ctx * 64 * 2 + 512 + 1024) ∧ addressed) (hl : Live p t c₀ c)
  | leaked (hroom : Room c₀.dma (ctx * 64)) (h : ¬(Room c₀.dma (ctx * 64 * 2 + 512 + 1024) ∧ addressed)) (n : ℕ)
      (hd : Dropped p t c₀ c (n + 1))

/-- One allocation of the enumeration: it fails and the slot is given up, or the block is in the slot. -/
theorem Stage.allocInto {sl : XhciSlot} {n : ℕ} (h : Stage p t c₀ c sl n) {size : ℕ} (hpos : 0 < size)
    (hd : 64 ∣ size) (put : DmaBlock → XhciSlot → XhciSlot) (hput : ∀ b, (put b sl).blocks = sl.blocks ++ [b])
    (k : XhciAct) (cmd : ℕ → Option UInt8) (xfer : ℕ → Option (List UInt8)) :
    (¬Room c₀.dma (n + size) ∧
      Dropped p t c₀ ((allocInto t size put (.enumerateFail p t) k).exec cmd xfer c) sl.blocks.length) ∨
    (Room c₀.dma (n + size) ∧ ∃ c' b, Stage p t c₀ c' (put b sl) (n + size) ∧
      (allocInto t size put (.enumerateFail p t) k).exec cmd xfer c = k.exec cmd xfer c') := by
  by_cases hroom : Room c₀.dma (n + size)
  · refine inr ⟨hroom, _, _, h.take hd hput, ?_⟩
    exact exec_allocInto_room hpos (h.room.mpr hroom)
  refine inl ⟨hroom, ?_⟩
  rw [exec_allocInto_full hpos fun hc => hroom (h.room.mp hc)]
  exact h.fail

theorem Stage.live {sl : XhciSlot} {n : ℕ} (h : Stage p t c₀ c sl n) (ho : sl.online = true)
    (hb : sl.blocks ≠ []) : Live p t c₀ c where
  dma := ⟨sl.blocks, h.dma, by rw [h.slot]⟩
  online := by
    rw [h.slot]
    exact ho
  holds := by
    rw [h.slot]
    exact hb
  others := h.others
  ports := h.ports

theorem enumerateSlot_ends {ctx : ℕ} (hctx : 0 < ctx) (c : XhciCtl) (cmd : ℕ → Option UInt8)
    (xfer : ℕ → Option (List UInt8)) :
    Enumerated p t c ((enumerateSlot ctx p t).exec cmd xfer c) ctx ((cmd 0).isSome) := by
  have hd : 64 ∣ ctx * 64 := Nat.dvd_mul_left _ _
  have hpos : 0 < ctx * 64 := by omega
  have h₀ : Stage p t c ((c.setSlot t fun _ => { online := true, slotId := t }).setPortSlot p t)
      { online := true, slotId := t } 0 :=
    ⟨(append_nil _).symm, rfl, c.setSlot_self t fun _ => { online := true, slotId := t },
      fun i hi => c.setSlot_other t (fun _ => { online := true, slotId := t }) hi, rfl⟩
  unfold enumerateSlot
  dsimp only
  rw [exec, exec]
  rcases h₀.allocInto hpos hd (fun b slot => { slot with inputCtx := some b }) (fun _ => rfl) _ cmd xfer with
    ⟨hr, hf⟩ | ⟨r₁, c₁, b₁, h₁, he⟩
  · exact .full (by rwa [Nat.zero_add] at hr) hf
  rw [Nat.zero_add] at r₁
  rw [he]
  rcases h₁.allocInto hpos hd (fun b slot => { slot with deviceCtx := some b }) (fun _ => rfl) _ cmd xfer with
    ⟨hr, hf⟩ | ⟨-, c₂, b₂, h₂, he⟩
  · exact .leaked r₁ (fun h => hr (h.1.mono (by omega))) 0 hf
  rw [he]
  rcases h₂.allocInto (by decide) ⟨8, rfl⟩ (fun b slot => { slot with ep0Ring := some b }) (fun _ => rfl) _ cmd xfer with
    ⟨hr, hf⟩ | ⟨-, c₃, b₃, h₃, he⟩
  · exact .leaked r₁ (fun h => hr (h.1.mono (by omega))) 1 hf
  rw [he]
  rcases h₃.allocInto (by decide) ⟨16, rfl⟩ (fun b slot => { slot with ctrlBuf := some b }) (fun _ => rfl) _ cmd xfer with
    ⟨hr, hf⟩ | ⟨r₄, c₄, b₄, h₄, he⟩
  · exact .leaked r₁ (fun h => hr (h.1.mono (by omega))) 2 hf
  rw [he, exec, exec]
  have h₅ := h₄.setSlot (f := fun slot => { slot with ep0Enq := 0 }) rfl
  cases hcmd : cmd 0 with
  | none => exact .leaked r₁ (fun h => Bool.false_ne_true h.2) 3 h₅.fail
  | some _ =>
    have hlive := h₅.live rfl (cons_ne_nil _ _)
    exact .done ⟨r₄.mono (by omega), rfl⟩ (Live.through_configureHid _ _ _ hlive)

def Tracked (t : UInt8) : Prop := 1 ≤ t ∧ t ≤ xhciMaxTrackedSlots

theorem mem_trackedSlots (h : Tracked t) : t ∈ trackedSlots := by
  have h1 : 1 ≤ t.toNat := UInt8.le_iff_toNat_le.mp h.1
  have h2 : t.toNat ≤ 32 := UInt8.le_iff_toNat_le.mp h.2
  apply mem_map.mpr
  refine ⟨t.toNat - 1, mem_range.mpr (Nat.lt_of_lt_of_le (by omega) h2), ?_⟩
  rw [Nat.sub_add_cancel h1]
  exact UInt8.ofNat_toNat

theorem nodup_trackedSlots : trackedSlots.Nodup := by decide +kernel

/-- What the devices refer to when slot `t`, which was not in use, has changed. -/
theorem deviceBlocks_perm (ht : Tracked t) {slots slots' : UInt8 → XhciSlot} (hoff : (slots t).online = false)
    (hothers : ∀ i, i ≠ t → slots' i = slots i) :
    (deviceBlocks slots').Perm (deviceBlocks slots ++ (slots' t).live) := by
  have hsplit := perm_cons_erase (mem_trackedSlots ht)
  have hrest : ∀ i ∈ trackedSlots.erase t, (slots' i).live = (slots i).live := by
    intro i hi
    rw [hothers i ((nodup_trackedSlots.mem_erase_iff.mp hi).1)]
  have hlive : (slots t).live = [] := by
    unfold live
    rw [hoff]
    rfl
  have hnew : (deviceBlocks slots').Perm
      ((slots' t).live ++ (trackedSlots.erase t).flatMap fun i => (slots i).live) := by
    have h := hsplit.flatMap_right fun i => (slots' i).live
    rw [flatMap_cons, flatMap_congr hrest] at h
    exact h
  have hold : (deviceBlocks slots).Perm ((trackedSlots.erase t).flatMap fun i => (slots i).live) := by
    have h := hsplit.flatMap_right fun i => (slots i).live
    rw [flatMap_cons, hlive, nil_append] at h
    exact h
  exact hnew.trans (perm_append_comm.trans (hold.symm.append_right _))

/-- Nothing but the records of the indices and the registers of the ports has changed. -/
structure Same (c₀ c : XhciCtl) : Prop where
  dma : c.dma = c₀.dma
  slots : c.slots = c₀.slots
  ports : c.portToSlot = c₀.portToSlot

variable {s : UsbSys} {maxPorts : UInt8} {ctxSz64 : Bool} {psc : UInt32}

theorem Conserved.same (h : s.Conserved) (hs : Same s.xhci c) : Conserved { s with xhci := c } := by
  refine ⟨?_, h.qhs, h.tds⟩
  change c.dma.blocks.Perm (s.ownBlocks ++ deviceBlocks c.slots)
  rw [hs.dma, hs.slots]
  exact h.dma

theorem Conserved.live (h : s.Conserved) (ht : Tracked t) (hoff : (s.xhci.slots t).online = false)
    (hl : Live p t s.xhci c) : Conserved { s with xhci := c } := by
  obtain ⟨extra, he, hp⟩ := hl.dma
  refine ⟨?_, h.qhs, h.tds⟩
  change c.dma.blocks.Perm (s.ownBlocks ++ deviceBlocks c.slots)
  have hlive : (c.slots t).live = (c.slots t).blocks := if_pos hl.online
  have hdev := deviceBlocks_perm ht hoff hl.others
  rw [hlive] at hdev
  rw [he]
  refine (h.dma.append hp).trans ?_
  rw [append_assoc]
  exact (perm_append_left_iff _).mpr hdev.symm

/-- A slot that is given up leaves the blocks behind that were taken for it. -/
theorem Conserved.dropped (h : s.Conserved) (ht : Tracked t) (hoff : (s.xhci.slots t).online = false) {n : ℕ}
    (hd : Dropped p t s.xhci c n) : Conserved { s with xhci := c } ↔ n = 0 := by
  obtain ⟨extra, he, hn⟩ := hd.dma
  have hlive : (c.slots t).live = [] := by
    unfold XhciSlot.live
    rw [hd.offline]
    rfl
  have hdev := deviceBlocks_perm ht hoff hd.others
  rw [hlive, append_nil] at hdev
  have href : (s.ownBlocks ++ deviceBlocks c.slots).Perm s.xhci.dma.blocks :=
    ((perm_append_left_iff _).mpr hdev).trans h.dma.symm
  constructor
  · intro hc
    have hl := (hc.dma.trans href).length_eq
    change c.dma.blocks.length = _ at hl
    rw [he, length_append] at hl
    omega
  · intro hz
    obtain rfl := length_eq_zero_iff.mp (hn.trans hz)
    refine ⟨?_, h.qhs, h.tds⟩
    change c.dma.blocks.Perm (s.ownBlocks ++ deviceBlocks c.slots)
    rw [he, append_nil]
    exact href.symm

def Mapped (c : XhciCtl) : Prop :=
  ∀ q, c.portToSlot q ≠ 0 → Tracked (c.portToSlot q) ∧ (c.slots (c.portToSlot q)).online = true ∧
    (c.slots (c.portToSlot q)).blocks ≠ []

/-- All is conserved, the ports in use have slots in use, and the schedule's queue head is not free. -/
structure SlotsSettled (s : UsbSys) : Prop where
  conserved : s.Conserved
  ports : Mapped s.xhci
  free : s.uhci.qhFreeHead ≠ uhciNoIndex ∧ s.uhci.qhFreeHead ≠ s.uhci.qhScheduleHead

theorem Mapped.same (h : Mapped c₀) (hs : Same c₀ c) : Mapped c := by
  unfold Mapped
  rw [hs.ports, hs.slots]
  exact h

/-- Port `p` is given the slot `u`, and no other port has the slot `t` that has changed. -/
theorem Mapped.update (h : Mapped c₀) (hoff : (c₀.slots t).online = false)
    (hothers : ∀ i, i ≠ t → c.slots i = c₀.slots i) {u : UInt8}
    (hports : c.portToSlot = update c₀.portToSlot p u)
    (hu : u ≠ 0 → Tracked u ∧ (c.slots u).online = true ∧ (c.slots u).blocks ≠ []) : Mapped c := by
  intro q hq
  rw [hports] at hq ⊢
  by_cases hqp : q = p
  · rw [hqp, update_self] at hq ⊢
    exact hu hq
  rw [update_of_ne hqp] at hq ⊢
  obtain ⟨ht, hon, hb⟩ := h q hq
  have hne : c₀.portToSlot q ≠ t := by
    intro he
    rw [he, hoff] at hon
    exact Bool.false_ne_true hon
  rw [hothers _ hne]
  exact ⟨ht, hon, hb⟩

theorem SlotsSettled.same (h : s.SlotsSettled) (hs : Same s.xhci c) : SlotsSettled { s with xhci := c } :=
  ⟨h.conserved.same hs, h.ports.same hs, h.free⟩

theorem SlotsSettled.live (h : s.SlotsSettled) (ht : Tracked t) (hoff : (s.xhci.slots t).online = false)
    (hl : Live p t s.xhci c) : SlotsSettled { s with xhci := c } :=
  ⟨h.conserved.live ht hoff hl, h.ports.update hoff hl.others hl.ports fun _ => ⟨ht, hl.online, hl.holds⟩, h.free⟩

theorem SlotsSettled.dropped (h : s.SlotsSettled) (ht : Tracked t) (hoff : (s.xhci.slots t).online = false)
    (hd : Dropped p t s.xhci c 0) : SlotsSettled { s with xhci := c } :=
  ⟨(h.conserved.dropped ht hoff hd).mpr rfl, h.ports.update hoff hd.others hd.ports fun hz => absurd rfl hz, h.free⟩

theorem Enumerated.of_same {c₁ : XhciCtl} {ctx : ℕ} {addressed : Prop} (hs : Same c₀ c₁)
    (h : Enumerated p t c₁ c ctx addressed) : Enumerated p t c₀ c ctx addressed := by
  have hd : ∀ {n}, Dropped p t c₁ c n → Dropped p t c₀ c n := by
    intro n hd
    have ⟨h1, h2, h3, h4⟩ := hd
    rw [hs.dma] at h1
    rw [hs.slots] at h3
    rw [hs.ports] at h4
    exact ⟨h1, h2, h3, h4⟩
  cases h with
  | full hr h =>
    rw [hs.dma] at hr
    exact .full hr (hd h)
  | done hr h =>
    have ⟨h1, h2, h3, h4, h5⟩ := h
    rw [hs.dma] at hr h1
    rw [hs.slots] at h4
    rw [hs.ports] at h5
    exact .done hr ⟨h1, h2, h3, h4, h5⟩
  | leaked hroom hr n h =>
    rw [hs.dma] at hroom hr
    exact .leaked hroom hr n (hd h)

theorem ctxBytes_pos : 0 < xhciCtxBytes ctxSz64 := by cases ctxSz64 <;> decide

theorem enumerate_cases (maxPorts : UInt8) (ctxSz64 : Bool) (p : UInt8) (psc : UInt32) (h : s.SlotsSettled)
    (hcmd : ∀ t ∈ cmd 0, (s.xhci.slots t).online = false) (xfer : ℕ → Option (List UInt8)) :
    let c := (enumerateRootPort maxPorts (xhciCtxBytes ctxSz64) p).exec cmd xfer (s.setPort p psc)
    s.Refused maxPorts p psc cmd ∧ Same s.xhci c ∨
      ¬s.Refused maxPorts p psc cmd ∧ ∃ t, Tracked t ∧ (s.xhci.slots t).online = false ∧
        Enumerated p t s.xhci c (xhciCtxBytes ctxSz64) ((cmd 1).isSome) := by
  intro c
  have hc : c = (enumerateRootPort maxPorts (xhciCtxBytes ctxSz64) p).exec cmd xfer (s.setPort p psc) := rfl
  unfold enumerateRootPort at hc
  by_cases hp : p = 0 ∨ p > maxPorts
  · rw [if_pos hp] at hc
    exact inl ⟨hp.elim inl fun hp => inr (inl hp), hc ▸ ⟨rfl, rfl, rfl⟩⟩
  rw [if_neg hp, exec] at hc
  have hpsc : (s.setPort p psc).portsc p = psc := update_self _ _ _
  rw [hpsc] at hc
  by_cases hccs : psc &&& portscCcs = 0
  · rw [if_pos hccs] at hc
    exact inl ⟨inr (inr (inl hccs)), hc ▸ ⟨rfl, rfl, rfl⟩⟩
  rw [if_neg hccs, exec] at hc
  have hslot : (s.setPort p psc).portToSlot p = s.xhci.portToSlot p := rfl
  rw [hslot] at hc
  by_cases hport : s.xhci.portToSlot p = 0
  case neg =>
    obtain ⟨ht, hon, -⟩ := h.ports p hport
    refine inl ⟨inr (inr (inr (inl hport))), ?_⟩
    have hin : ¬(s.xhci.portToSlot p = 0 ∨ s.xhci.portToSlot p > xhciMaxTrackedSlots) := by
      have := ht.2
      grind
    dsimp only at hc
    rw [if_neg hport] at hc
    unfold withSlot at hc
    rw [if_neg hin, exec] at hc
    change c = exec (if (s.xhci.slots (s.xhci.portToSlot p)).online = true then _ else _) cmd xfer _ at hc
    rw [if_pos hon] at hc
    exact hc ▸ ⟨rfl, rfl, rfl⟩
  dsimp only at hc
  rw [if_pos hport, exec] at hc
  cases ha : cmd 0 with
  | none =>
    rw [ha] at hc
    refine inl ⟨inr (inr (inr (inr ?_))), hc ▸ ⟨rfl, rfl, rfl⟩⟩
    rw [ha]
    exact nofun
  | some t =>
    rw [ha] at hc
    dsimp only at hc
    unfold withSlot at hc
    by_cases ht : t = 0 ∨ t > xhciMaxTrackedSlots
    · rw [if_pos ht] at hc
      refine inl ⟨inr (inr (inr (inr ?_))), hc ▸ ⟨rfl, rfl, rfl⟩⟩
      rw [ha]
      intro u hu
      cases hu
      exact ht
    rw [if_neg ht] at hc
    refine inr ⟨?_, t, by unfold Tracked; grind, hcmd t ha, ?_⟩
    · rintro (hr | hr | hr | hr | hr)
      · exact hp (inl hr)
      · exact hp (inr hr)
      · exact hccs hr
      · exact hr hport
      · exact ht (hr t ha)
    · have hsame : Same s.xhci
          { s.setPort p psc with portIndices := (s.setPort p psc).portIndices ++ [p] } := ⟨rfl, rfl, rfl⟩
      rw [hc]
      exact Enumerated.of_same hsame (enumerateSlot_ends ctxBytes_pos _ (fun n => cmd (n + 1)) xfer)

theorem connect_iff (h : s.SlotsSettled) (p : UInt8) (psc : UInt32) (cmd : ℕ → Option UInt8) (xfer : ℕ → Option (List UInt8)) :
    (s.Keeps maxPorts ctxSz64 (.connect p psc cmd xfer) ↔
      (s.step maxPorts ctxSz64 (.connect p psc cmd xfer)).Conserved) ∧
    (s.Keeps maxPorts ctxSz64 (.connect p psc cmd xfer) → (s.step maxPorts ctxSz64 (.connect p psc cmd xfer)).SlotsSettled) := by
  unfold UsbSys.step Keeps
  dsimp only
  have hall : (cmd 0).all (fun t => !(s.xhci.slots t).online) = true ↔
      ∀ t ∈ cmd 0, (s.xhci.slots t).online = false := by
    rw [Option.all_eq_true]
    exact forall₂_congr fun t _ => by rw [Bool.not_eq_true']
  by_cases hcmd : ∀ t ∈ cmd 0, (s.xhci.slots t).online = false
  case neg =>
    rw [if_neg (mt hall.mp hcmd)]
    have hon : ∃ t ∈ cmd 0, (s.xhci.slots t).online = true := by
      by_contra hno
      exact hcmd fun t ht => Bool.eq_false_iff.mpr fun hon => hno ⟨t, ht, hon⟩
    exact ⟨⟨fun _ => h.conserved, fun _ => inl hon⟩, fun _ => h⟩
  rw [if_pos (hall.mpr hcmd)]
  have hno : ¬∃ t ∈ cmd 0, (s.xhci.slots t).online = true := by
    rintro ⟨t, ht, hon⟩
    rw [hcmd t ht] at hon
    exact Bool.false_ne_true hon
  rcases enumerate_cases maxPorts ctxSz64 p psc h hcmd xfer with
    ⟨href, hsame⟩ | ⟨href, t, ht, hoff, he⟩
  · exact ⟨⟨fun _ => h.conserved.same hsame, fun _ => inr (inl href)⟩, fun _ => h.same hsame⟩
  cases he with
  | full hr hd =>
    exact ⟨⟨fun _ => (h.conserved.dropped ht hoff hd).mpr rfl, fun _ => inr (inr (inl hr))⟩,
      fun _ => h.dropped ht hoff hd⟩
  | done hr hl =>
    exact ⟨⟨fun _ => h.conserved.live ht hoff hl, fun _ => inr (inr (inr hr))⟩, fun _ => h.live ht hoff hl⟩
  | leaked hroom hr n hd =>
    have hk : ¬((∃ t ∈ cmd 0, (s.xhci.slots t).online = true) ∨ s.Refused maxPorts p psc cmd ∨
        ¬Room s.xhci.dma (xhciCtxBytes ctxSz64 * 64) ∨
        Room s.xhci.dma (xhciCtxBytes ctxSz64 * 64 * 2 + 512 + 1024) ∧ (cmd 1).isSome) := by
      rintro (hk | hk | hk | hk)
      · exact hno hk
      · exact href hk
      · exact hk hroom
      · exact hr hk
    have hn : ¬Conserved { s with xhci := _ } :=
      fun hc => Nat.succ_ne_zero n ((h.conserved.dropped ht hoff hd).mp hc)
    exact ⟨⟨fun hk' => absurd hk' hk, fun hc => absurd hc hn⟩, fun hk' => absurd hk' hk⟩

theorem disconnect_iff (h : s.SlotsSettled) (p : UInt8) (cmd : ℕ → Option UInt8) :
    (s.Keeps maxPorts ctxSz64 (.disconnect p cmd) ↔ (s.step maxPorts ctxSz64 (.disconnect p cmd)).Conserved) ∧
    (s.Keeps maxPorts ctxSz64 (.disconnect p cmd) → (s.step maxPorts ctxSz64 (.disconnect p cmd)).SlotsSettled) := by
  unfold UsbSys.step Keeps
  dsimp only
  generalize hc : (markPortDisconnected maxPorts p).exec cmd (fun _ => none) (s.setPort p 0) = c
  unfold markPortDisconnected at hc
  by_cases hp : p = 0 ∨ p > maxPorts
  · rw [if_pos hp] at hc
    have hsame : Same s.xhci c := hc ▸ ⟨rfl, rfl, rfl⟩
    refine ⟨⟨fun _ => h.conserved.same hsame, fun _ => ?_⟩, fun _ => h.same hsame⟩
    exact hp.elim inl fun hp => inr (inl hp)
  rw [if_neg hp, exec] at hc
  have hslot : (s.setPort p 0).portToSlot p = s.xhci.portToSlot p := rfl
  rw [hslot] at hc
  dsimp only at hc
  by_cases hport : s.xhci.portToSlot p = 0
  · rw [if_pos hport] at hc
    have hsame : Same s.xhci c := hc ▸ ⟨rfl, rfl, rfl⟩
    exact ⟨⟨fun _ => h.conserved.same hsame, fun _ => inr (inr hport)⟩, fun _ => h.same hsame⟩
  rw [if_neg hport] at hc
  obtain ⟨ht, hon, hb⟩ := h.ports p hport
  have hin : ¬(s.xhci.portToSlot p = 0 ∨ s.xhci.portToSlot p > xhciMaxTrackedSlots) := by
    have := ht.2
    grind
  unfold withSlot at hc
  rw [if_neg hin, exec, exec, exec, exec] at hc
  have hk : ¬(p = 0 ∨ p > maxPorts ∨ s.xhci.portToSlot p = 0) := by
    rintro (hk | hk | hk)
    · exact hp (inl hk)
    · exact hp (inr hk)
    · exact hport hk
  have hn : ¬Conserved { s with xhci := c } := by
    intro hcon
    have hoff : (c.slots (s.xhci.portToSlot p)).online = false := by
      rw [← hc]
      exact congrArg online (setSlot_self _ _ fun slot => { slot with online := false })
    have hothers : ∀ i, i ≠ s.xhci.portToSlot p → s.xhci.slots i = c.slots i := by
      intro i hi
      rw [← hc]
      exact (setSlot_other _ _ (fun slot => { slot with online := false }) hi).symm
    have hdma : c.dma = s.xhci.dma := by
      rw [← hc]
      rfl
    have hdev := deviceBlocks_perm ht hoff hothers
    have hlive : (s.xhci.slots (s.xhci.portToSlot p)).live = (s.xhci.slots (s.xhci.portToSlot p)).blocks := if_pos hon
    have hlen := hcon.dma.length_eq
    change c.dma.blocks.length = (s.ownBlocks ++ deviceBlocks c.slots).length at hlen
    have hlen' := h.conserved.dma.length_eq
    have hdevlen := hdev.length_eq
    have hpos := length_pos_iff.mpr hb
    rw [hlive, length_append] at hdevlen
    rw [hdma, length_append] at hlen
    rw [length_append] at hlen'
    omega
  exact ⟨⟨fun hk' => absurd hk' hk, fun hcon => absurd hcon hn⟩, fun hk' => absurd hk' hk⟩

theorem transfer_iff (h : s.SlotsSettled) (req : UhciRequest) (hw : UhciReply) :
    (s.Keeps maxPorts ctxSz64 (.transfer req hw) ↔ (s.step maxPorts ctxSz64 (.transfer req hw)).Conserved) ∧
    (s.Keeps maxPorts ctxSz64 (.transfer req hw) → (s.step maxPorts ctxSz64 (.transfer req hw)).SlotsSettled) := by
  by_cases hreq : req.length > 0 ∧ req.data.isNone ∨ req.length > 1024
  · have hsame : (Uhci.controlTransfer { s.uhci with dma := s.xhci.dma } req hw).2 =
        { s.uhci with dma := s.xhci.dma } := by
      unfold Uhci.controlTransfer
      rw [if_pos hreq]
    have hinv : (s.step maxPorts ctxSz64 (.transfer req hw)).SlotsSettled := by
      unfold UsbSys.step
      dsimp only
      rw [hsame]
      exact ⟨⟨h.conserved.dma, h.conserved.qhs, h.conserved.tds⟩, h.ports, h.free⟩
    exact ⟨⟨fun _ => hinv.conserved, fun _ => hreq⟩, fun _ => hinv⟩
  · have hheads := Uhci.controlTransfer_heads (u := { s.uhci with dma := s.xhci.dma }) req hw hreq h.free.1
    have hn : ¬(s.step maxPorts ctxSz64 (.transfer req hw)).Conserved := by
      intro hc
      have hq := hc.qhs s.uhci.qhFreeHead
      change s.uhci.qhFreeHead ∈ (Uhci.heads (Uhci.controlTransfer { s.uhci with dma := s.xhci.dma } req hw).2).1 →
        s.uhci.qhFreeHead = (Uhci.heads (Uhci.controlTransfer { s.uhci with dma := s.xhci.dma } req hw).2).2 at hq
      rw [hheads] at hq
      exact h.free.2 (hq (mem_append_right _ (mem_singleton.mpr rfl)))
    exact ⟨⟨fun hk => absurd hk hreq, fun hc => absurd hc hn⟩, fun hk => absurd hk hreq⟩

theorem keeps_iff (e : UsbEvent) (h : s.SlotsSettled) : (s.Keeps maxPorts ctxSz64 e ↔ (s.step maxPorts ctxSz64 e).Conserved) ∧
    (s.Keeps maxPorts ctxSz64 e → (s.step maxPorts ctxSz64 e).SlotsSettled) := by
  cases e with
  | connect p psc cmd xfer => exact connect_iff h p psc cmd xfer
  | disconnect p cmd => exact disconnect_iff h p cmd
  | transfer req hw => exact transfer_iff h req hw

theorem inv_boot : SlotsSettled boot where
  conserved := by
    refine ⟨?_, forall_mem_of_all ?_, forall_mem_of_all ?_⟩
    · decide +kernel
    · decide +kernel
    · decide +kernel
  ports q hq := absurd rfl hq
  free := by decide +kernel

/-- All that is taken stays referred to, from the start and after each step of a run, if and only if no step of the
run leaves anything behind: no device goes, no enumeration stops half-way, and no control transfer runs. -/
theorem resources_conserved_iff (maxPorts : UInt8) (ctxSz64 : Bool) (es : List UsbEvent) :
    boot.Conserved ∧ (Meets (step maxPorts ctxSz64) (fun s e => (s.step maxPorts ctxSz64 e).Conserved) boot es ↔
      Meets (step maxPorts ctxSz64) (Keeps maxPorts ctxSz64) boot es) := by
  have hstep : ∀ (s : UsbSys) (e : UsbEvent), s.SlotsSettled → s.Keeps maxPorts ctxSz64 e → (s.step maxPorts ctxSz64 e).SlotsSettled :=
    fun s e hs => (keeps_iff e hs).2
  have hiff : ∀ (s : UsbSys) (e : UsbEvent), s.SlotsSettled →
      (s.Keeps maxPorts ctxSz64 e ↔ (s.step maxPorts ctxSz64 e).Conserved) :=
    fun s e hs => (keeps_iff e hs).1
  exact ⟨inv_boot.conserved, (meets_iff hstep hiff inv_boot).symm⟩

/-- A device is plugged in at port 1, gets slot 1, and is pulled out. -/
def plugCycle : List UsbEvent :=
  [.connect 1 portscCcs (fun _ => some 1) (fun _ => none), .disconnect 1 fun _ => some 0]

theorem plugCycle_leaks : ¬∀ es, Meets (step 1 false) (fun s e => (s.step 1 false e).Conserved) boot es := by
  intro h
  have hlast := (h plugCycle).2.1.dma.length_eq
  revert hlast
  decide +kernel

end UsbSys

end EdgeOS
