import EdgeOS.XhciDriver

namespace EdgeOS

/-!
The UHCI driver: the free lists of queue heads and transfer descriptors, the schedule, and `uhci_control_transfer`
with its early returns. Addresses are offsets in the DMA pool, whose bytes are modelled as far as this driver
writes and reads them.
-/

abbrev uhciQhPoolCount : ℕ := 64
abbrev uhciTdPoolCount : ℕ := 256
abbrev uhciNoIndex : UInt16 := 0xFFFF

abbrev uhciPtrT : UInt32 := 0x1
abbrev uhciPtrQh : UInt32 := 0x2
abbrev uhciTdStatusActive : UInt32 := 0x00800000
abbrev uhciTdStatusIoc : UInt32 := 0x01000000
abbrev uhciTdStatusLs : UInt32 := 0x04000000
abbrev uhciTdStatusCerr3 : UInt32 := 0x18000000
abbrev uhciTdStatusErrors : UInt32 := 0x007F0000

abbrev usbPidOut : UInt32 := 0xE1
abbrev usbPidIn : UInt32 := 0x69
abbrev usbPidSetup : UInt32 := 0x2D

/-- `uhci_qh_hw_t`. -/
structure UhciQh where
  linkPtr : UInt32 := 0
  elemPtr : UInt32 := 0
  deriving DecidableEq, Repr

/-- `uhci_td_hw_t`. -/
structure UhciTd where
  linkPtr : UInt32 := 0
  status : UInt32 := 0
  token : UInt32 := 0
  buffer : UInt32 := 0
  deriving DecidableEq, Repr

/-- `uhci_priv_t` and the pool. `qhTaken` and `tdTaken` are the queue heads and descriptors that were handed out. -/
structure Uhci where
  dma : UsbDma := {}
  mem : ℕ → UInt8 := fun _ => 0
  frameList : Option DmaBlock := none
  qhPool : Option DmaBlock := none
  tdPool : Option DmaBlock := none
  frames : UInt32 := 0
  qhFreeHead : UInt16 := 0
  tdFreeHead : UInt16 := 0
  qhNext : UInt16 → UInt16 := fun i => if i.toNat + 1 < uhciQhPoolCount then i + 1 else uhciNoIndex
  tdNext : UInt16 → UInt16 := fun i => if i.toNat + 1 < uhciTdPoolCount then i + 1 else uhciNoIndex
  qhs : UInt16 → UhciQh := fun _ => {}
  tds : UInt16 → UhciTd := fun _ => {}
  qhScheduleHead : UInt16 := uhciNoIndex
  qhTaken : List UInt16 := []
  tdTaken : List UInt16 := []

/-- A request for `uhci_control_transfer`; `data` is `none` for a null pointer. -/
structure UhciRequest where
  lowSpeed : Bool := false
  devAddr : UInt8 := 0
  requestType : UInt8 := 0
  request : UInt8 := 0
  value : UInt16 := 0
  index : UInt16 := 0
  data : Option (List UInt8) := none
  length : UInt16 := 0
  inDir : Bool := true
  deriving DecidableEq, Repr

/-- What the controller does with a chain: whether every descriptor is inactive in time, the status words it leaves,
and the data it receives. -/
structure UhciReply where
  inTime : Bool := true
  status : UInt16 → UInt32 := fun _ => 0
  data : List UInt8 := []

/-- What `uhci_control_transfer` comes to; `hang` is a walk through the schedule that does not end. -/
inductive UhciResult
  | ok (data : List UInt8)
  | err
  | hang
  deriving DecidableEq, Repr

namespace Uhci

variable (u : Uhci)

def qhPhys (i : UInt16) : UInt32 := UInt32.ofNat ((u.qhPool.map DmaBlock.paddr).getD 0) + i.toUInt32 * 16

def tdPhys (i : UInt16) : UInt32 := UInt32.ofNat ((u.tdPool.map DmaBlock.paddr).getD 0) + i.toUInt32 * 16

def linkQhPtr (phys : UInt32) : UInt32 := phys &&& ~~~0xF ||| uhciPtrQh

def linkTdPtr (phys : UInt32) : UInt32 := phys &&& ~~~0xF

/-- `uhci_qh_alloc`. -/
def qhAlloc : Option UInt16 × Uhci :=
  if u.qhFreeHead = uhciNoIndex then (none, u)
  else
    (some u.qhFreeHead, { u with
        qhFreeHead := u.qhNext u.qhFreeHead
        qhNext := Function.update u.qhNext u.qhFreeHead uhciNoIndex
        qhs := Function.update u.qhs u.qhFreeHead {}
        qhTaken := u.qhTaken ++ [u.qhFreeHead] })

/-- `uhci_td_alloc`. -/
def tdAlloc : Option UInt16 × Uhci :=
  if u.tdFreeHead = uhciNoIndex then (none, u)
  else
    (some u.tdFreeHead, { u with
        tdFreeHead := u.tdNext u.tdFreeHead
        tdNext := Function.update u.tdNext u.tdFreeHead uhciNoIndex
        tds := Function.update u.tds u.tdFreeHead {}
        tdTaken := u.tdTaken ++ [u.tdFreeHead] })

/-- `uhci_td_set`, for an index from `uhci_td_alloc`. -/
def tdSet (i : UInt16) (td : UhciTd) : Uhci := { u with tds := Function.update u.tds i td }

/-- `uhci_qh_set`, for an index from `uhci_qh_alloc`. -/
def qhSet (i : UInt16) (qh : UhciQh) : Uhci := { u with qhs := Function.update u.qhs i qh }

def putBytes (off : ℕ) (bytes : List UInt8) : Uhci :=
  { u with mem := fun i => if off ≤ i ∧ i < off + bytes.length then bytes.getD (i - off) 0 else u.mem i }

def dmaAllocZero (size align : ℕ) : Option DmaBlock × Uhci :=
  match u.dma.alloc size align with
  | (none, _) => (none, u)
  | (some b, d) => (some b, { u with dma := d }.putBytes b.paddr (List.replicate size 0))

/-- `uhci_td_token`. -/
def tdToken (pid : UInt32) (addr : UInt8) (ep dtoggle : UInt32) (len : UInt16) : UInt32 :=
  let maxlen : UInt32 := if len = 0 then 0x7FF else len.toUInt32 - 1
  pid ||| (addr &&& 0x7F).toUInt32 <<< 8 ||| (ep &&& 0xF) <<< 15 ||| (dtoggle &&& 1) <<< 19 ||| maxlen <<< 21

def statusBase (req : UhciRequest) : UInt32 :=
  uhciTdStatusActive ||| uhciTdStatusCerr3 ||| if req.lowSpeed then uhciTdStatusLs else 0

/-- The bytes of `usb_setup_pkt_t`. -/
def setupBytes (req : UhciRequest) : List UInt8 :=
  [req.requestType, req.request, req.value.toUInt8, (req.value >>> 8).toUInt8, req.index.toUInt8,
    (req.index >>> 8).toUInt8, req.length.toUInt8, (req.length >>> 8).toUInt8]

def addTd (status token buffer : UInt32) : Option UInt16 × Uhci :=
  match u.tdAlloc with
  | (none, u) => (none, u)
  | (some t, u) => (some t, u.tdSet t ⟨uhciPtrT, status, token, buffer⟩)

/-- The loop of `uhci_control_transfer` over the data, with the descriptors `tds` built so far. -/
def dataTds (req : UhciRequest) (buf : UInt32) : ℕ → Uhci → (done remaining : ℕ) → (dt : UInt32) → List UInt16 →
    Option (List UInt16) × Uhci
  | 0, u, _, _, _, tds => (some tds, u)
  | fuel + 1, u, done, remaining, dt, tds =>
    if remaining = 0 then (some tds, u)
    else
      let chunk := if remaining > 8 then 8 else remaining
      if tds.length ≥ 31 then (none, u)
      else
        match u.addTd (statusBase req)
            (tdToken (if req.inDir then usbPidIn else usbPidOut) req.devAddr 0 dt (UInt16.ofNat chunk))
            (buf + UInt32.ofNat done) with
        | (none, u) => (none, u)
        | (some t, u) => dataTds req buf fuel u (done + chunk) (remaining - chunk) (dt ^^^ 1) (tds ++ [t])

def linkChain : List UInt16 → Uhci → Uhci
  | t :: t' :: rest, u =>
    linkChain (t' :: rest) (u.tdSet t { u.tds t with linkPtr := linkTdPtr (u.tdPhys t') })
  | _, u => u

/-- The chain of `uhci_control_transfer`: setup, data and status. -/
def controlChain (req : UhciRequest) (setup buf : UInt32) : Option (List UInt16) × Uhci :=
  match u.addTd (statusBase req) (tdToken usbPidSetup req.devAddr 0 0 8) setup with
  | (none, u) => (none, u)
  | (some t, u) =>
    match dataTds req buf req.length.toNat u 0 req.length.toNat 1 [t] with
    | (none, u) => (none, u)
    | (some tds, u) =>
      match u.addTd (statusBase req ||| uhciTdStatusIoc)
          (tdToken (if req.inDir then usbPidOut else usbPidIn) req.devAddr 0 1 0) 0 with
      | (none, u) => (none, u)
      | (some t, u) => (some (tds ++ [t]), linkChain (tds ++ [t]) u)

/-- The walk of `uhci_append_async_qh` from the queue head `i`, for `fuel` steps: the last queue head, or `none` when
a link leads out of the pool. -/
def lastQh : ℕ → UInt16 → Option (Option UInt16)
  | 0, _ => none
  | fuel + 1, i =>
    let lp := (u.qhs i).linkPtr
    if lp &&& uhciPtrT ≠ 0 ∨ lp &&& uhciPtrQh = 0 then some (some i)
    else
      let next := (((lp &&& ~~~0xF) - u.qhPhys 0) / 16).toUInt16
      if next.toNat ≥ uhciQhPoolCount then some none else lastQh fuel next

/-- `uhci_append_async_qh`. A walk that has made more steps than there are queue heads goes in a circle. -/
def appendAsyncQh (i : UInt16) : UhciResult × Uhci :=
  if i.toNat ≥ uhciQhPoolCount ∨ u.qhScheduleHead = uhciNoIndex then (.err, u)
  else
    match u.lastQh (uhciQhPoolCount + 1) u.qhScheduleHead with
    | none => (.hang, u)
    | some none => (.err, u)
    | some (some last) =>
      let u := u.qhSet i { u.qhs i with linkPtr := uhciPtrT }
      (.ok [], u.qhSet last { u.qhs last with linkPtr := linkQhPtr (u.qhPhys i) })

/-- `uhci_control_transfer` from the wait on: the controller has worked on the chain. -/
def finish (req : UhciRequest) (hw : UhciReply) (tds : List UInt16) (buf : DmaBlock) : UhciResult × Uhci :=
  let u := { u with tds := fun i => if i ∈ tds then { u.tds i with status := hw.status i } else u.tds i }
  let u := if req.inDir then u.putBytes buf.paddr (hw.data.take buf.size) else u
  if ¬hw.inTime ∨ tds.any fun i => hw.status i &&& (uhciTdStatusActive ||| uhciTdStatusErrors) ≠ 0 then (.err, u)
  else (.ok ((List.range req.length.toNat).map fun i => u.mem (buf.paddr + i)), u)

/-- `uhci_control_transfer` from the chain on, with the queue head and the blocks it has. -/
def issue (req : UhciRequest) (hw : UhciReply) (qh : UInt16) (setup buf : DmaBlock) : UhciResult × Uhci :=
  match u.controlChain req (UInt32.ofNat setup.paddr) (UInt32.ofNat buf.paddr) with
  | (none, u) => (.err, u)
  | (some tds, u) =>
    let u := u.qhSet qh ⟨uhciPtrT, linkTdPtr (u.tdPhys (tds.headD 0))⟩
    match u.appendAsyncQh qh with
    | (.ok _, u) => u.finish req hw tds buf
    | r => r

def controlTransfer (req : UhciRequest) (hw : UhciReply) : UhciResult × Uhci :=
  if req.length > 0 ∧ req.data.isNone ∨ req.length > 1024 then (.err, u)
  else
    match u.qhAlloc with
    | (none, u) => (.err, u)
    | (some qh, u) =>
      match u.dmaAllocZero 8 16 with
      | (none, u) => (.err, u)
      | (some setup, u) =>
        if req.length > 0 then
          match u.dmaAllocZero req.length.toNat 16 with
          | (none, u) => (.err, u)
          | (some buf, u) =>
            let u := if req.inDir then u else u.putBytes buf.paddr ((req.data.getD []).take req.length.toNat)
            issue (u.putBytes setup.paddr (setupBytes req)) req hw qh setup buf
        else issue (u.putBytes setup.paddr (setupBytes req)) req hw qh setup ⟨0, 0⟩

def buildIdleSchedule : Uhci :=
  match u.qhAlloc with
  | (none, u) => u
  | (some qh, u) =>
    match u.tdAlloc with
    | (none, u) => u
    | (some td, u) =>
      let u := (u.tdSet td ⟨uhciPtrT, 0, 0, 0⟩).qhSet qh ⟨uhciPtrT, u.tdPhys td⟩
      { u with qhScheduleHead := qh, frames := u.qhPhys qh ||| uhciPtrQh }

/-- `uhci_init_controller` on a pool, as far as memory goes. -/
def initController (dma : UsbDma) : Option Uhci :=
  match ({ dma := dma } : Uhci).dmaAllocZero 4096 4096 with
  | (none, _) => none
  | (some fl, u) =>
    match u.dmaAllocZero 1024 16 with
    | (none, _) => none
    | (some qp, u) =>
      match u.dmaAllocZero 4096 16 with
      | (none, _) => none
      | (some tp, u) =>
        some { u with frameList := some fl, qhPool := some qp, tdPool := some tp }.buildIdleSchedule

/-- The queue heads that were handed out, and the one the schedule starts with. -/
def heads : List UInt16 × UInt16 := (u.qhTaken, u.qhScheduleHead)

variable {u}

theorem heads_of {α : Type} {r : α × Uhci} {x : α} {u : Uhci} (h : r = (x, u)) : u.heads = r.2.heads := by
  rw [h]

theorem dmaAllocZero_heads (size align : ℕ) : (u.dmaAllocZero size align).2.heads = u.heads := by
  unfold dmaAllocZero
  split
  · rfl
  · rfl

theorem addTd_heads (status token buffer : UInt32) : (u.addTd status token buffer).2.heads = u.heads := by
  unfold addTd tdAlloc
  split_ifs
  · rfl
  · rfl

theorem dataTds_heads (req : UhciRequest) (buf : UInt32) (fuel : ℕ) (done remaining : ℕ) (dt : UInt32)
    (tds : List UInt16) : (dataTds req buf fuel u done remaining dt tds).2.heads = u.heads := by
  induction fuel generalizing u done remaining dt tds with
  | zero => rfl
  | succ fuel ih =>
    unfold dataTds
    dsimp only
    split
    · rfl
    split
    · rfl
    split
    · next hadd => exact (heads_of hadd).trans (addTd_heads _ _ _)
    · next hadd => exact (ih _ _ _ _).trans ((heads_of hadd).trans (addTd_heads _ _ _))

theorem linkChain_heads (tds : List UInt16) : (linkChain tds u).heads = u.heads := by
  induction tds generalizing u with
  | nil => rfl
  | cons t rest ih =>
    cases rest with
    | nil => rfl
    | cons t' rest => exact ih

theorem controlChain_heads (req : UhciRequest) (setup buf : UInt32) :
    (u.controlChain req setup buf).2.heads = u.heads := by
  unfold controlChain
  split
  · next h1 => exact (heads_of h1).trans (addTd_heads _ _ _)
  next u₁ h1 =>
  have e1 : u₁.heads = u.heads := (heads_of h1).trans (addTd_heads _ _ _)
  split
  · next h2 => exact (heads_of h2).trans ((dataTds_heads _ _ _ _ _ _ _).trans e1)
  next u₂ h2 =>
  have e2 : u₂.heads = u.heads :=
    (heads_of h2).trans ((dataTds_heads _ _ _ _ _ _ _).trans e1)
  split
  · next h3 => exact (heads_of h3).trans ((addTd_heads _ _ _).trans e2)
  · next h3 =>
    exact (linkChain_heads _).trans ((heads_of h3).trans ((addTd_heads _ _ _).trans e2))

theorem appendAsyncQh_heads (i : UInt16) : (u.appendAsyncQh i).2.heads = u.heads := by
  unfold appendAsyncQh
  split_ifs
  · rfl
  split
  · rfl
  · rfl
  · rfl

theorem finish_heads (req : UhciRequest) (hw : UhciReply) (tds : List UInt16) (buf : DmaBlock) :
    (u.finish req hw tds buf).2.heads = u.heads := by
  unfold finish
  cases req.inDir
  · simp only [Bool.false_eq_true, if_false]
    split
    · rfl
    · rfl
  · simp only [if_true]
    split
    · rfl
    · rfl

theorem issue_heads (req : UhciRequest) (hw : UhciReply) (qh : UInt16) (setup buf : DmaBlock) :
    (u.issue req hw qh setup buf).2.heads = u.heads := by
  unfold issue
  split
  · next h1 => exact (heads_of h1).trans (controlChain_heads _ _ _)
  next tds u₁ h1 =>
  have e1 : u₁.heads = u.heads := (heads_of h1).trans (controlChain_heads _ _ _)
  dsimp only
  have happ := appendAsyncQh_heads (u := u₁.qhSet qh ⟨uhciPtrT, linkTdPtr (u₁.tdPhys (tds.headD 0))⟩) qh
  split
  · next h2 =>
    rw [h2] at happ
    exact (finish_heads _ _ _ _).trans (happ.trans e1)
  · exact happ.trans e1

/-- A transfer that is not refused for its arguments keeps the queue head it takes. -/
theorem controlTransfer_heads (req : UhciRequest) (hw : UhciReply)
    (hreq : ¬(req.length > 0 ∧ req.data.isNone ∨ req.length > 1024)) (hfree : u.qhFreeHead ≠ uhciNoIndex) :
    (u.controlTransfer req hw).2.heads = (u.qhTaken ++ [u.qhFreeHead], u.qhScheduleHead) := by
  have hq : u.qhAlloc.2.heads = (u.qhTaken ++ [u.qhFreeHead], u.qhScheduleHead) := by
    unfold qhAlloc
    rw [if_neg hfree]
    rfl
  unfold controlTransfer
  rw [if_neg hreq]
  split
  · next h1 =>
    unfold qhAlloc at h1
    rw [if_neg hfree] at h1
    cases congrArg Prod.fst h1
  next u₁ h1 =>
  rw [h1] at hq
  split
  · next h2 => exact (heads_of h2).trans ((dmaAllocZero_heads _ _).trans hq)
  next u₂ h2 =>
  have e2 : u₂.heads = _ := (heads_of h2).trans ((dmaAllocZero_heads _ _).trans hq)
  split
  · split
    · next h3 => exact (heads_of h3).trans ((dmaAllocZero_heads _ _).trans e2)
    · next u₃ h3 =>
      have e3 : u₃.heads = _ := (heads_of h3).trans ((dmaAllocZero_heads _ _).trans e2)
      dsimp only
      rw [issue_heads]
      cases req.inDir
      · exact e3
      · exact e3
  · exact (issue_heads _ _ _ _ _).trans e2

end Uhci

end EdgeOS
