import EdgeOS.InputQueues

namespace EdgeOS

open Lib List

/-!
Reports of boot mice (`usb_hid_process_boot_report` in `src/drivers/usb/usb.c`), and what a reader of the two mouse
queues makes of the bytes.
-/

/-- A byte as an `int8_t`. -/
def signedByte (b : UInt8) : ℤ := b.toBitVec.toInt

/-- `usb_hid_process_boot_report`: the packet of a report. Four bytes or more whose first two are small are taken to
begin with the number of the report. -/
def usbHidProcessBootReport (report : Bytes) : Option Packet :=
  if report.length < 3 then none
  else
    let off := if 4 ≤ report.length ∧ rd8 report 0 &&& 0xF8 = 0 ∧ rd8 report 1 &&& 0xE0 = 0 then 1 else 0
    if report.length < off + 3 then none
    else
      let wheelPresent := decide (off + 4 ≤ report.length)
      some
        { dx := signedByte (rd8 report (off + 1))
          dy := signedByte (rd8 report (off + 2))
          wheel := if wheelPresent then signedByte (rd8 report (off + 3)) else 0
          buttons := rd8 report off &&& 0x07
          wheelPresent := wheelPresent }

/-! ## What a report says -/

/-- A report of three bytes, or of four with a wheel. -/
structure BootReport where
  buttons : UInt8
  dx : UInt8
  dy : UInt8
  wheel : Option UInt8
  small : buttons.toNat < 8

def BootReport.bytes (r : BootReport) : Bytes := [r.buttons, r.dx, r.dy] ++ r.wheel.toList

structure MouseMove where
  buttons : UInt8
  dx : ℤ
  dy : ℤ
  wheel : Option ℤ
  deriving DecidableEq

structure LinuxEvent where
  type : UInt16
  code : UInt16
  value : ℤ
  deriving DecidableEq

def nineBits (negative : Bool) (b : UInt8) : ℤ := if negative then b.toNat - 256 else b.toNat

def decodePs2 : Bytes → Option MouseMove
  | [head, x, y] => some ⟨head &&& 0x07, nineBits (head &&& 0x10 ≠ 0) x, nineBits (head &&& 0x20 ≠ 0) y, none⟩
  | [head, x, y, z] =>
    some ⟨head &&& 0x07, nineBits (head &&& 0x10 ≠ 0) x, nineBits (head &&& 0x20 ≠ 0) y, some (signedByte z)⟩
  | _ => none

/-- An `edge_linux_input_event_t`, less its time. -/
def decodeEvent (b : Bytes) : Option LinuxEvent :=
  if b.length = 24 then some ⟨rd16le b 16, rd16le b 18, (rd32le b 20).toBitVec.toInt⟩ else none

namespace BootReport

variable (r : BootReport)

def wheelMove : ℤ := signedByte (r.wheel.getD 0)

/-- The packet of a report, with the wheel once one was seen. -/
def move (seen : Bool) : MouseMove where
  buttons := r.buttons
  dx := clampMove (signedByte r.dx)
  dy := clampMove (signedByte r.dy)
  wheel := if seen then some r.wheelMove else none

/-- The movements that are not zero, and the buttons that are not as before. -/
def changes (old : UInt8) : List LinuxEvent :=
  [⟨evRel, relX, signedByte r.dx⟩, ⟨evRel, relY, signedByte r.dy⟩, ⟨evRel, relWheel, r.wheelMove⟩].filter
      (fun e => e.value ≠ 0) ++
    ([(1, btnLeft), (2, btnRight), (4, btnMiddle)].filter fun b => changed b.1 old r.buttons).map fun b =>
      ⟨evKey, b.2, pressed b.1 r.buttons⟩

def events (old : UInt8) : List LinuxEvent :=
  if r.changes old = [] then [] else r.changes old ++ [⟨evSyn, 0, 0⟩]

/-- The report is taken for what it is: it has no wheel; or it moves by something else than 0 to 31 to the right, and
not by -128 on the wheel; or a wheel was seen and it says nothing at all. -/
def Taken (seen : Bool) : Prop :=
  r.wheel = none ∨ (32 ≤ r.dx.toNat ∧ r.wheel ≠ some 0x80) ∨
    seen = true ∧ r.buttons = 0 ∧ r.dx = 0 ∧ r.dy = 0 ∧ r.wheel = some 0

instance (seen : Bool) : Decidable (r.Taken seen) := inferInstanceAs (Decidable (_ ∨ _ ∨ _))

end BootReport

/-- Reports, the latest first: whether one had a wheel, and the buttons of the latest. -/
def wheelSeen (rs : List BootReport) : Bool := rs.any (·.wheel.isSome)

def lastButtons : List BootReport → UInt8
  | [] => 0
  | r :: _ => r.buttons

def moves : List BootReport → List MouseMove
  | [] => []
  | r :: rs => moves rs ++ [r.move (wheelSeen (r :: rs))]

def events : List BootReport → List LinuxEvent
  | [] => []
  | r :: rs => events rs ++ r.events (lastButtons rs)

/-! ## Runs -/

/-- The mouse, the reports that were delivered, the latest first, and the bytes that were read from either queue. -/
structure BootMouse where
  mouse : Mouse := {}
  haveMouse : Bool := false
  reports : List BootReport := []
  packetsRead : Bytes := []
  eventsRead : Bytes := []

/-- A report, and one pass of the loop of either read. -/
inductive BootEvent
  | report (r : BootReport) (clock : ℕ → UInt64)
  | mouseByte
  | eventByte

namespace BootMouse

variable (s : BootMouse)

def step : BootEvent → BootMouse
  | .report r clock =>
    match usbHidProcessBootReport r.bytes with
    | none => { s with reports := r :: s.reports }
    | some p =>
      { s with
        mouse := keyboardMouseEmitPacketEx clock p s.mouse
        haveMouse := true
        reports := r :: s.reports }
  | .mouseByte =>
    match s.mouse.buf.pop mouseBufSize with
    | none => s
    | some (c, buf) => { s with mouse := { s.mouse with buf := buf }, packetsRead := s.packetsRead ++ [c] }
  | .eventByte =>
    match s.mouse.eventBuf.pop mouseEventBufSize with
    | none => s
    | some (c, buf) => { s with mouse := { s.mouse with eventBuf := buf }, eventsRead := s.eventsRead ++ [c] }

/-- The readers keep the queues from filling: what a report queues finds room. -/
def Room : BootEvent → Prop
  | .report r clock => ∀ p ∈ usbHidProcessBootReport r.bytes,
      (s.mouse.packetUnit p).length ≤ s.mouse.buf.room mouseBufSize ∧
      (s.mouse.eventUnits clock (some p)).flatten.length ≤ s.mouse.eventBuf.room mouseEventBufSize
  | _ => True

def Plain : BootEvent → Prop
  | .report r _ => r.Taken (wheelSeen s.reports)
  | _ => True

/-- What was read from either queue, and what is still in it, says what the reports said. -/
structure Faithful : Prop where
  packets : ∃ us : List Bytes, s.packetsRead ++ s.mouse.buf.contents mouseBufSize = us.flatten ∧
    us.map decodePs2 = (moves s.reports).map some
  events : ∃ us : List Bytes, s.eventsRead ++ s.mouse.eventBuf.contents mouseEventBufSize = us.flatten ∧
    us.map decodeEvent = (EdgeOS.events s.reports).map some

end BootMouse

/-! ## Bytes of packets and of events -/

@[elab_as_elim]
theorem byte_cases {motive : UInt8 → Prop} (b : UInt8) (h : ∀ n < 256, motive (UInt8.ofNat n)) : motive b := by
  have hb := h b.toNat b.toNat_lt
  rwa [UInt8.ofNat_toNat] at hb

@[elab_as_elim]
theorem small_cases {motive : UInt8 → Prop} (b : UInt8) (hb : b.toNat < 8) (h : ∀ n < 8, motive (UInt8.ofNat n)) :
    motive b := by
  have hn := h b.toNat hb
  rwa [UInt8.ofNat_toNat] at hn

/-- The facts about one byte that follow, by going through all bytes once. -/
theorem byte_table (b : UInt8) : (-128 ≤ signedByte b ∧ signedByte b ≤ 127) ∧
    nineBits (clampMove (signedByte b) < 0) (moveByte (signedByte b)) = clampMove (signedByte b) ∧
    signedByte (moveByte (signedByte b)) = clampMove (signedByte b) ∧
    (clampMove (signedByte b) = signedByte b ↔ b ≠ 0x80) ∧ (clampMove (signedByte b) = 0 ↔ b = 0) ∧
    (b &&& 0xE0 = 0 ↔ b.toNat < 32) ∧ (b &&& 0x07).toNat < 8 :=
  byte_cases b (by decide +kernel)

theorem signedByte_bounds (b : UInt8) : -128 ≤ signedByte b ∧ signedByte b ≤ 127 := (byte_table b).1

theorem nineBits_moveByte (b : UInt8) :
    nineBits (clampMove (signedByte b) < 0) (moveByte (signedByte b)) = clampMove (signedByte b) := (byte_table b).2.1

theorem signedByte_moveByte (b : UInt8) : signedByte (moveByte (signedByte b)) = clampMove (signedByte b) :=
  (byte_table b).2.2.1

theorem clampMove_eq (b : UInt8) : clampMove (signedByte b) = signedByte b ↔ b ≠ 0x80 := (byte_table b).2.2.2.1

theorem clampMove_zero (b : UInt8) : clampMove (signedByte b) = 0 ↔ b = 0 := (byte_table b).2.2.2.2.1

/-- Whether four bytes are taken to begin with the number of a report. -/
theorem masked_byte (b : UInt8) : b &&& 0xE0 = 0 ↔ b.toNat < 32 := (byte_table b).2.2.2.2.2.1

theorem low_bits (b : UInt8) : (b &&& 0x07).toNat < 8 := (byte_table b).2.2.2.2.2.2

theorem masked_buttons {b : UInt8} (hb : b.toNat < 8) : b &&& 0xF8 = 0 ∧ b &&& 0x07 = b :=
  small_cases b hb (by decide)

theorem ps2Head_fields (dx dy : ℤ) {b : UInt8} (hb : b.toNat < 8) : ps2Head dx dy b &&& 0x07 = b ∧
    (ps2Head dx dy b &&& 0x10 ≠ 0 ↔ clampMove dx < 0) ∧ (ps2Head dx dy b &&& 0x20 ≠ 0 ↔ clampMove dy < 0) := by
  unfold ps2Head
  by_cases hx : clampMove dx < 0
  · by_cases hy : clampMove dy < 0
    · rw [if_pos hx, if_pos hy, iff_true_right hx, iff_true_right hy]
      exact small_cases b hb (by decide)
    · rw [if_pos hx, if_neg hy, iff_true_right hx, iff_false_right hy]
      exact small_cases b hb (by decide)
  by_cases hy : clampMove dy < 0
  · rw [if_neg hx, if_pos hy, iff_false_right hx, iff_true_right hy]
    exact small_cases b hb (by decide)
  · rw [if_neg hx, if_neg hy, iff_false_right hx, iff_false_right hy]
    exact small_cases b hb (by decide)

theorem decode_packetUnit {m : Mouse} {p : Packet} {x y z : UInt8} (hx : p.dx = signedByte x) (hy : p.dy = signedByte y)
    (hz : p.wheel = signedByte z) (hb : p.buttons.toNat < 8) : decodePs2 (m.packetUnit p) =
      some ⟨p.buttons, clampMove p.dx, clampMove p.dy,
        if p.wheelPresent ∨ m.wheelMode then some (clampMove p.wheel) else none⟩ := by
  obtain ⟨hbuttons, hleft, hdown⟩ := ps2Head_fields p.dx p.dy hb
  unfold Mouse.packetUnit
  rw [(masked_buttons hb).2]
  have hxEq := nineBits_moveByte x
  have hyEq := nineBits_moveByte y
  rw [← hx] at hxEq
  rw [← hy] at hyEq
  have hzEq := signedByte_moveByte z
  rw [← hz] at hzEq
  by_cases hmode : (p.wheelPresent ∨ m.wheelMode)
  · rw [if_pos hmode, if_pos hmode]
    change some (MouseMove.mk _ _ _ _) = _
    rw [hbuttons, decide_eq_decide.mpr hleft, decide_eq_decide.mpr hdown, hxEq, hyEq, hzEq]
  rw [if_neg hmode, if_neg hmode]
  change some (MouseMove.mk _ _ _ _) = _
  rw [hbuttons, decide_eq_decide.mpr hleft, decide_eq_decide.mpr hdown, hxEq, hyEq]

theorem decode_inputEvent (us : UInt64) (type code : UInt16) {v : ℤ} (hlo : -2 ^ 31 ≤ v) (hhi : v < 2 ^ 31) :
    decodeEvent (inputEventBytes us type code v) = some ⟨type, code, v⟩ := by
  have hlen : (inputEventBytes us type code v).length = 24 := rfl
  have htype : rd16le (inputEventBytes us type code v) 16 = type := rd16le_le16 type
  have hcode : rd16le (inputEventBytes us type code v) 18 = code := rd16le_le16 code
  have hvalue : rd32le (inputEventBytes us type code v) 20 = UInt32.ofBitVec (BitVec.ofInt 32 v) := rd32le_le32 _
  unfold decodeEvent
  rw [if_pos hlen, htype, hcode, hvalue]
  congr 2
  exact BitVec.toInt_ofInt_eq_self (by decide) hlo hhi

/-! ## What becomes of a report -/

section Reports

variable {r : BootReport} {p : Packet} {m : Mouse} {seen : Bool} {old : UInt8}

structure Packet.Says (p : Packet) (r : BootReport) : Prop where
  dx : p.dx = signedByte r.dx
  dy : p.dy = signedByte r.dy
  buttons : p.buttons = r.buttons
  wheel : p.wheel = r.wheelMove
  still : p.wheelPresent = false → p.wheel = 0

theorem four_packet (b x y z : UInt8) : usbHidProcessBootReport [b, x, y, z] =
    if b &&& 0xF8 = 0 ∧ x &&& 0xE0 = 0 then some ⟨signedByte y, signedByte z, 0, x &&& 0x07, false⟩
    else some ⟨signedByte x, signedByte y, signedByte z, b &&& 0x07, true⟩ := by
  unfold usbHidProcessBootReport
  by_cases h : b &&& 0xF8 = 0 ∧ x &&& 0xE0 = 0
  · have hoff : (if 4 ≤ [b, x, y, z].length ∧ rd8 [b, x, y, z] 0 &&& 0xF8 = 0 ∧ rd8 [b, x, y, z] 1 &&& 0xE0 = 0 then 1
        else 0) = 1 := if_pos ⟨le_rfl, h⟩
    rw [hoff, if_pos h]
    rfl
  have hoff : (if 4 ≤ [b, x, y, z].length ∧ rd8 [b, x, y, z] 0 &&& 0xF8 = 0 ∧ rd8 [b, x, y, z] 1 &&& 0xE0 = 0 then 1
      else 0) = 0 := if_neg fun hall => h hall.2
  rw [hoff, if_neg h]
  rfl

theorem report_packet (r : BootReport) : usbHidProcessBootReport r.bytes = match r.wheel with
    | none => some ⟨signedByte r.dx, signedByte r.dy, 0, r.buttons, false⟩
    | some w =>
      if r.dx.toNat < 32 then some ⟨signedByte r.dy, signedByte w, 0, r.dx &&& 0x07, false⟩
      else some ⟨signedByte r.dx, signedByte r.dy, signedByte w, r.buttons, true⟩ := by
  obtain ⟨buttons, dx, dy, wheel, small⟩ := r
  obtain ⟨hhigh, hlow⟩ := masked_buttons small
  cases wheel with
  | none =>
    change some (Packet.mk (signedByte dx) (signedByte dy) 0 (buttons &&& 0x07) false) = _
    rw [hlow]
  | some w =>
    apply (four_packet buttons dx dy w).trans
    dsimp only
    by_cases hsmall : dx.toNat < 32
    · rw [if_pos ⟨hhigh, (masked_byte dx).mpr hsmall⟩, if_pos hsmall]
    · rw [if_neg fun h => hsmall ((masked_byte dx).mp h.2), if_neg hsmall, hlow]

theorem BootReport.Taken.meaning (h : r.Taken seen) (hp : usbHidProcessBootReport r.bytes = some p) : p.Says r ∧
    (p.wheelPresent = true ∨ seen = true ↔ (r.wheel.isSome || seen) = true) ∧ clampMove p.wheel = p.wheel := by
  rw [report_packet] at hp
  rcases h with hnone | ⟨hlarge, hwheel⟩ | ⟨hseen, hbuttons, hdx, hdy, hzero⟩
  · rw [hnone] at hp
    cases hp
    have hstill : r.wheelMove = 0 := by
      unfold BootReport.wheelMove
      rw [hnone]
      rfl
    refine ⟨⟨rfl, rfl, rfl, hstill.symm, fun _ => rfl⟩, ?_, rfl⟩
    rw [hnone]
    simp
  · cases hw : r.wheel with
    | none =>
      rw [hw] at hp
      cases hp
      have hstill : r.wheelMove = 0 := by
        unfold BootReport.wheelMove
        rw [hw]
        rfl
      exact ⟨⟨rfl, rfl, rfl, hstill.symm, fun _ => rfl⟩, by simp, rfl⟩
    | some w =>
      rw [hw] at hp hwheel
      dsimp only at hp
      rw [if_neg (not_lt.mpr hlarge)] at hp
      cases hp
      have hmove : r.wheelMove = signedByte w := by
        unfold BootReport.wheelMove
        rw [hw]
        rfl
      exact ⟨⟨rfl, rfl, rfl, hmove.symm, nofun⟩, by simp, (clampMove_eq w).mpr fun h => hwheel (congrArg some h)⟩
  · rw [hzero, hbuttons, hdx, hdy] at hp
    cases hp
    refine ⟨⟨?_, ?_, ?_, ?_, fun _ => rfl⟩, ?_, rfl⟩
    · rw [hdx]
    · rw [hdy]
    · exact hbuttons.symm
    · unfold BootReport.wheelMove
      rw [hzero]
      rfl
    · rw [hseen]
      simp

/-- Exactly then the reader of the packet learns what the report says. -/
theorem BootReport.taken_iff (hp : usbHidProcessBootReport r.bytes = some p) (hmode : m.wheelMode = seen) :
    decodePs2 (m.packetUnit p) = some (r.move (r.wheel.isSome || seen)) ↔ r.Taken seen := by
  constructor
  · intro h
    rw [report_packet] at hp
    cases hw : r.wheel with
    | none => exact Or.inl hw
    | some w =>
      rw [hw] at hp
      dsimp only at hp
      by_cases hsmall : r.dx.toNat < 32
      · rw [if_pos hsmall] at hp
        cases hp
        have hlow := low_bits r.dx
        rw [@decode_packetUnit m _ r.dy w 0 rfl rfl rfl hlow, hw, Option.isSome_some, Bool.true_or] at h
        have hmove : r.wheelMove = signedByte w := by
          unfold BootReport.wheelMove
          rw [hw]
          rfl
        unfold BootReport.move at h
        rw [hmove, if_pos rfl] at h
        injection h with h
        injection h with hbuttons hdx hdy hwheel
        have hseen : m.wheelMode = true := by
          by_contra hnot
          rw [if_neg (by simpa using hnot)] at hwheel
          cases hwheel
        rw [if_pos (Or.inr hseen)] at hwheel
        have hzero : w = 0 := by
          rw [← clampMove_zero, ← Option.some.inj hwheel]
          rfl
        have hy : r.dy = 0 := by
          rw [← clampMove_zero, ← hdy, hzero]
          rfl
        have hx : r.dx = 0 := by
          rw [← clampMove_zero, ← hdx, hy]
          rfl
        rw [hx] at hbuttons
        rw [hzero] at hw
        exact Or.inr (Or.inr ⟨hmode ▸ hseen, hbuttons.symm, hx, hy, hw⟩)
      · rw [if_neg hsmall] at hp
        cases hp
        rw [@decode_packetUnit m _ r.dx r.dy w rfl rfl rfl r.small, hw, Option.isSome_some, Bool.true_or] at h
        have hmove : r.wheelMove = signedByte w := by
          unfold BootReport.wheelMove
          rw [hw]
          rfl
        unfold BootReport.move at h
        rw [hmove, if_pos rfl, if_pos (Or.inl rfl)] at h
        injection h with h
        injection h with _ _ _ hwheel
        have hne := (clampMove_eq w).mp (Option.some.inj hwheel)
        exact Or.inr (Or.inl ⟨not_lt.mp hsmall, fun h => hne (Option.some.inj (hw.symm.trans h))⟩)
  · intro h
    obtain ⟨hmeans, hpresent, hclamp⟩ := h.meaning hp
    have hwheel : p.wheel = signedByte (r.wheel.getD 0) := hmeans.wheel
    rw [decode_packetUnit hmeans.dx hmeans.dy hwheel (by rw [hmeans.buttons]; exact r.small), hmeans.buttons, hmeans.dx,
      hmeans.dy, hclamp, hmeans.wheel, hmode]
    unfold BootReport.move
    congr 2
    exact if_congr hpresent rfl rfl

theorem buttons_differ {a b : UInt8} (ha : a.toNat < 8) (hb : b.toNat < 8) :
    a ≠ b ↔ changed 1 a b ∨ changed 2 a b ∨ changed 4 a b := by
  revert hb
  exact small_cases a ha (by
    intro n hn
    exact fun hb => small_cases b hb (by revert n; decide +kernel))

theorem pressed_bounds (mask new : UInt8) : -2 ^ 31 ≤ pressed mask new ∧ pressed mask new < 2 ^ 31 := by
  unfold pressed
  split <;> decide

theorem decode_oneIf {c : Prop} [Decidable c] (us : UInt64) (type code : UInt16) {v : ℤ} (hlo : -2 ^ 31 ≤ v)
    (hhi : v < 2 ^ 31) : (oneIf c (inputEventBytes us type code v)).map decodeEvent =
      (if c then [LinuxEvent.mk type code v] else []).map some := by
  unfold oneIf
  by_cases hc : c
  · rw [if_pos hc, if_pos hc, map_singleton, decode_inputEvent us type code hlo hhi]
    rfl
  · rw [if_neg hc, if_neg hc]
    rfl

theorem filter_cons_if {α : Type} {q : α → Prop} [DecidablePred q] (a : α) (l : List α) :
    (a :: l).filter (fun x => q x) = (if q a then [a] else []) ++ l.filter fun x => q x := by
  rw [filter_cons]
  by_cases h : q a
  · rw [if_pos (decide_eq_true h), if_pos h]
    rfl
  · rw [if_neg (by rwa [decide_eq_true_eq]), if_neg h]
    rfl

theorem map_if {α β : Type} {c : Prop} [Decidable c] (f : α → β) (a : α) :
    (if c then [a] else []).map f = if c then [f a] else [] := by
  by_cases h : c
  · rw [if_pos h, if_pos h]
    rfl
  · rw [if_neg h, if_neg h]
    rfl

theorem if_nil_iff {α : Type} {c : Prop} [Decidable c] (a : α) : (if c then [a] else []) = [] ↔ ¬ c := by
  by_cases h : c
  · rw [if_pos h]
    exact iff_of_false (cons_ne_nil a []) (not_not.mpr h)
  · rw [if_neg h]
    exact iff_of_true rfl h

theorem BootReport.changes_eq (r : BootReport) (old : UInt8) : r.changes old =
    (if signedByte r.dx ≠ 0 then [LinuxEvent.mk evRel relX (signedByte r.dx)] else []) ++
    ((if signedByte r.dy ≠ 0 then [LinuxEvent.mk evRel relY (signedByte r.dy)] else []) ++
    ((if r.wheelMove ≠ 0 then [LinuxEvent.mk evRel relWheel r.wheelMove] else []) ++
    ((if changed 1 old r.buttons then [LinuxEvent.mk evKey btnLeft (pressed 1 r.buttons)] else []) ++
    ((if changed 2 old r.buttons then [LinuxEvent.mk evKey btnRight (pressed 2 r.buttons)] else []) ++
    (if changed 4 old r.buttons then [LinuxEvent.mk evKey btnMiddle (pressed 4 r.buttons)] else []))))) := by
  unfold changes
  rw [filter_cons_if, filter_cons_if, filter_cons_if, filter_cons_if, filter_cons_if, filter_cons_if, filter_nil,
    filter_nil, append_nil, append_nil, map_append, map_append, map_if, map_if, map_if]
  simp only [append_assoc]

theorem BootReport.changes_nil (r : BootReport) (hold : old.toNat < 8) : r.changes old = [] ↔
    ¬ (signedByte r.dx ≠ 0 ∨ signedByte r.dy ≠ 0 ∨ r.wheelMove ≠ 0 ∨ old ≠ r.buttons) := by
  rw [r.changes_eq old]
  simp only [append_eq_nil_iff, if_nil_iff, buttons_differ hold r.small, not_or]

/-- The events of a report: its changes, and a mark behind them. -/
theorem BootReport.events_eq (r : BootReport) (hold : old.toNat < 8) : r.events old = r.changes old ++
    if signedByte r.dx ≠ 0 ∨ signedByte r.dy ≠ 0 ∨ r.wheelMove ≠ 0 ∨ old ≠ r.buttons then [LinuxEvent.mk evSyn 0 0]
    else [] := by
  unfold events
  by_cases h : r.changes old = []
  · rw [if_pos h, if_neg ((r.changes_nil hold).mp h), h]
    rfl
  · rw [if_neg h, if_pos (not_not.mp (mt (r.changes_nil hold).mpr h))]

/-- The events of a packet are those of the report that it says. -/
theorem Packet.Says.events (h : p.Says r) (clock : ℕ → UInt64) (hold : old.toNat < 8) :
    (eventUnits clock p old r.buttons).map decodeEvent = (r.events old).map some := by
  have hxb := signedByte_bounds r.dx
  have hyb := signedByte_bounds r.dy
  have hwb : -128 ≤ r.wheelMove ∧ r.wheelMove ≤ 127 := signedByte_bounds (r.wheel.getD 0)
  have hwheel : p.wheelPresent = true ∧ p.wheel ≠ 0 ↔ r.wheelMove ≠ 0 := by
    rw [← h.wheel]
    refine and_iff_right_of_imp fun hne => ?_
    by_contra hnot
    exact hne (h.still (by simpa using hnot))
  have hmoves : p.moves old r.buttons ↔
      signedByte r.dx ≠ 0 ∨ signedByte r.dy ≠ 0 ∨ r.wheelMove ≠ 0 ∨ old ≠ r.buttons := by
    unfold Packet.moves
    rw [hwheel, h.dx, h.dy]
  unfold eventUnits
  rw [r.events_eq hold, r.changes_eq old]
  simp only [map_append, append_assoc]
  rw [h.dx, h.dy, h.wheel, decode_oneIf _ _ _ (by omega) (by omega), decode_oneIf _ _ _ (by omega) (by omega),
    decode_oneIf _ _ _ (by omega) (by omega), decode_oneIf _ _ _ (pressed_bounds _ _).1 (pressed_bounds _ _).2,
    decode_oneIf _ _ _ (pressed_bounds _ _).1 (pressed_bounds _ _).2,
    decode_oneIf _ _ _ (pressed_bounds _ _).1 (pressed_bounds _ _).2, decode_oneIf _ _ _ (by decide) (by decide)]
  simp only [← h.wheel, hwheel, hmoves]

end Reports

/-! ## Runs of reports and reads -/

theorem lastButtons_small (rs : List BootReport) : (lastButtons rs).toNat < 8 := by
  cases rs with
  | nil => decide
  | cons r rs => exact r.small

theorem wheelSeen_cons (r : BootReport) (rs : List BootReport) :
    wheelSeen (r :: rs) = (r.wheel.isSome || wheelSeen rs) :=
  any_cons

theorem emitPacket_buttons (clock : ℕ → UInt64) (p : Packet) (m : Mouse) :
    (keyboardMouseEmitPacketEx clock p m).buttons = p.buttons &&& 0x07 := rfl

theorem emitPacket_wheelMode (clock : ℕ → UInt64) (p : Packet) (m : Mouse) :
    (keyboardMouseEmitPacketEx clock p m).wheelMode = (p.wheelPresent || m.wheelMode) := by
  change (if p.wheelPresent then true else m.wheelMode) = _
  cases p.wheelPresent <;> rfl

namespace BootMouse

/-- The rings are rings, the mouse is as the reports left it, and the bytes say what the reports said. -/
structure TellsReports (s : BootMouse) : Prop where
  buf : s.mouse.buf.Valid mouseBufSize
  eventBuf : s.mouse.eventBuf.Valid mouseEventBufSize
  buttons : s.mouse.buttons = lastButtons s.reports
  wheelMode : s.mouse.wheelMode = wheelSeen s.reports
  faithful : s.Faithful

theorem inv_init : TellsReports {} := by
  refine ⟨GapRing.valid_empty (by decide) 0, GapRing.valid_empty (by decide) 0, rfl, rfl, ⟨[], ?_, rfl⟩, [], ?_, rfl⟩
  · exact congrArg ([] ++ ·) (GapRing.contents_empty 0)
  · exact congrArg ([] ++ ·) (GapRing.contents_empty 0)

variable {s : BootMouse}

theorem TellsReports.report (h : s.TellsReports) {r : BootReport} {clock : ℕ → UInt64} (hroom : s.Room (.report r clock))
    (htaken : r.Taken (wheelSeen s.reports)) : (s.step (.report r clock)).TellsReports := by
  have hsome : ∃ p, usbHidProcessBootReport r.bytes = some p := by
    rw [report_packet]
    cases r.wheel with
    | none => exact ⟨_, rfl⟩
    | some w =>
      dsimp only
      split
      · exact ⟨_, rfl⟩
      · exact ⟨_, rfl⟩
  obtain ⟨p, hp⟩ := hsome
  obtain ⟨hmeans, hpresent, -⟩ := htaken.meaning hp
  obtain ⟨hpacketRoom, heventRoom⟩ := hroom p hp
  obtain ⟨hvalid, -, hcontents⟩ := h.buf.pushes (s.mouse.packetUnit p)
  obtain ⟨heventValid, -, heventContents⟩ := h.eventBuf.pushes (s.mouse.eventUnits clock (some p)).flatten
  rw [take_of_length_le hpacketRoom] at hcontents
  rw [take_of_length_le heventRoom] at heventContents
  rw [← emitPacket_buf clock p s.mouse] at hvalid hcontents
  rw [← emitPacket_eventBuf clock p s.mouse] at heventValid heventContents
  have hlow : p.buttons &&& 0x07 = r.buttons := by
    rw [hmeans.buttons]
    exact (masked_buttons r.small).2
  obtain ⟨us, hus, hdecoded⟩ := h.faithful.packets
  obtain ⟨vs, hvs, hevents⟩ := h.faithful.events
  have hstep : s.step (.report r clock) = { s with
      mouse := keyboardMouseEmitPacketEx clock p s.mouse
      haveMouse := true
      reports := r :: s.reports } := by
    unfold step
    dsimp only
    rw [hp]
  rw [hstep]
  refine ⟨hvalid, heventValid, ?_, ?_, ⟨us ++ [s.mouse.packetUnit p], ?_, ?_⟩,
    vs ++ s.mouse.eventUnits clock (some p), ?_, ?_⟩
  · exact (emitPacket_buttons clock p s.mouse).trans hlow
  · dsimp only
    rw [emitPacket_wheelMode, wheelSeen_cons, h.wheelMode, Bool.eq_iff_iff, Bool.or_eq_true]
    exact hpresent
  · dsimp only
    rw [hcontents, ← append_assoc, hus, flatten_append, flatten_singleton]
  · dsimp only
    rw [map_append, hdecoded, map_singleton, (BootReport.taken_iff hp h.wheelMode).mpr htaken]
    change _ = (moves s.reports ++ [r.move (wheelSeen (r :: s.reports))]).map some
    rw [map_append, map_singleton, wheelSeen_cons]
  · dsimp only
    rw [heventContents, ← append_assoc, hvs, flatten_append]
  · dsimp only
    have hunits : s.mouse.eventUnits clock (some p) = eventUnits clock p (lastButtons s.reports) r.buttons := by
      unfold Mouse.eventUnits
      rw [Option.toList_some, flatMap_singleton, hlow, h.buttons]
    rw [map_append, hevents, hunits, hmeans.events clock (lastButtons_small _)]
    exact map_append.symm

theorem TellsReports.mouseByte (h : s.TellsReports) : (s.step .mouseByte).TellsReports := by
  unfold step
  dsimp only
  cases hpop : s.mouse.buf.pop mouseBufSize with
  | none => exact h
  | some found =>
    obtain ⟨hvalid, hcontents⟩ := h.buf.pop_some hpop
    obtain ⟨us, hus, hdecoded⟩ := h.faithful.packets
    refine ⟨hvalid, h.eventBuf, h.buttons, h.wheelMode, ⟨us, ?_, hdecoded⟩, h.faithful.events⟩
    rw [← hus, hcontents]
    exact append_assoc _ _ _

theorem TellsReports.eventByte (h : s.TellsReports) : (s.step .eventByte).TellsReports := by
  unfold step
  dsimp only
  cases hpop : s.mouse.eventBuf.pop mouseEventBufSize with
  | none => exact h
  | some found =>
    obtain ⟨hvalid, hcontents⟩ := h.eventBuf.pop_some hpop
    obtain ⟨vs, hvs, hevents⟩ := h.faithful.events
    refine ⟨h.buf, hvalid, h.buttons, h.wheelMode, h.faithful.packets, vs, ?_, hevents⟩
    rw [← hvs, hcontents]
    exact append_assoc _ _ _

theorem TellsReports.step {e : BootEvent} (h : s.TellsReports) (hok : s.Room e ∧ s.Plain e) : (s.step e).TellsReports := by
  cases e with
  | report r clock => exact h.report hok.1 hok.2
  | mouseByte => exact h.mouseByte
  | eventByte => exact h.eventByte

end BootMouse

/-- Reports that are all taken for what they are reach the readers as they were made. -/
theorem boot_mouse_faithful (es : List BootEvent) (h : Meets BootMouse.step (fun s e => s.Room e ∧ s.Plain e) {} es) :
    (run BootMouse.step {} es).Faithful :=
  (run_invariant (fun _ _ => BootMouse.TellsReports.step) BootMouse.inv_init h).faithful

instance (s : BootMouse) (e : BootEvent) : Decidable (s.Room e) :=
  match e with
  | .report r _ => inferInstanceAs (Decidable (∀ p ∈ usbHidProcessBootReport r.bytes, _ ∧ _))
  | .mouseByte => .isTrue trivial
  | .eventByte => .isTrue trivial

instance (s : BootMouse) (e : BootEvent) : Decidable (s.Plain e) :=
  match e with
  | .report r _ => inferInstanceAs (Decidable (r.Taken _))
  | .mouseByte => .isTrue trivial
  | .eventByte => .isTrue trivial

/-- A move to the left, one to the right by a mouse with a wheel, and the first byte of a packet read. -/
def twoReports : List BootEvent :=
  [.report ⟨1, 0xFB, 2, none, by decide⟩ fun _ => 0, .report ⟨0, 40, 3, some 0xFF, by decide⟩ fun _ => 0, .mouseByte]

theorem twoReports_faithful : (run BootMouse.step {} twoReports).Faithful :=
  boot_mouse_faithful twoReports (by decide +kernel)

def slowReport : BootEvent := .report ⟨0, 5, 3, some 0, by decide⟩ fun _ => 0

/-- The slow move is taken to begin with the number of a report. -/
theorem slow_move_misread :
    ¬ ∀ es, Meets BootMouse.step BootMouse.Room {} es → (run BootMouse.step {} es).Faithful := by
  intro hclaim
  obtain ⟨us, hus, hdecoded⟩ := (hclaim [slowReport] (by decide +kernel)).packets
  have hbytes : (run BootMouse.step {} [slowReport]).packetsRead ++
      (run BootMouse.step {} [slowReport]).mouse.buf.contents mouseBufSize = [0x0D, 3, 0] := by decide +kernel
  rw [hbytes] at hus
  obtain ⟨u, hu, hmove⟩ := List.map_eq_singleton_iff.mp hdecoded
  rw [hu, List.flatten_singleton] at hus
  rw [← hus] at hmove
  exact absurd hmove (by decide +kernel)

end EdgeOS
