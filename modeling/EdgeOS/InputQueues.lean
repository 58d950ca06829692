import EdgeOS.Buffer
import EdgeOS.Lib.GapRing
import EdgeOS.Lib.Runs

namespace EdgeOS

open Lib List GapRing

/-!
The queues of `keyboard.c`: characters, mouse packets and input events, which the interrupt handlers write
byte by byte and which a read empties byte by byte.
-/

abbrev kbdBufSize : ℕ := 256
abbrev mouseBufSize : ℕ := 1024
abbrev mouseEventBufSize : ℕ := 8192

/-! ## The keyboard -/

structure Keys where
  capsLock : Bool := false
  shiftPressed : Bool := false
  ctrlPressed : Bool := false
  extended : Bool := false
  ch : UInt8 := 0
  scanCode : UInt8 := 0
  skipIrqScancode : UInt8 := 0
  irqCount : UInt64 := 0
  lastTsc : UInt64 := 0
  sigintPending : UInt32 := 0
  buf : GapRing UInt8 := .empty 0

def kbdBufPushChar (ch : UInt8) (k : Keys) : Keys := { k with buf := k.buf.push kbdBufSize ch }

/-- The `SCAN_CODE_KEY_` constants that the driver looks at. -/
def scanCodeKeyCtrl : UInt8 := 0x1D
def scanCodeKeyLeftShift : UInt8 := 0x2A
def scanCodeKeyRightShift : UInt8 := 0x36
def scanCodeKeyCapsLock : UInt8 := 0x3A
def scanCodeKeyZ : UInt8 := 0x2C
def scanCodeKeyX : UInt8 := 0x2D
def scanCodeKeyC : UInt8 := 0x2E
def scanCodeKeyUp : UInt8 := 0x48
def scanCodeKeyDown : UInt8 := 0x50
def scanCodeKeyLeft : UInt8 := 0x4B
def scanCodeKeyRight : UInt8 := 0x4D

/-- `g_scan_code_chars`, without the zeros at its end. -/
def scanCodeChars : Bytes :=
  [0, 27] ++ ascii "1234567890-=" ++ [8, 9] ++ ascii "qwertyuiop[]" ++ [10, 0] ++ ascii "asdfghjkl;'`" ++
    [0] ++ ascii "\\zxcvbnm,./" ++ [0] ++ ascii "*" ++ [0] ++ ascii " " ++ List.replicate 16 0 ++ ascii "-" ++
    [0, 0, 0] ++ ascii "+"

def alternateChars (ch : UInt8) : UInt8 :=
  (((ascii "`1234567890-=[\\;',./").zip (ascii "~!@#$%^&*()_+\x7b|:\"<>?")).lookup ch).getD ch

def isLower (ch : UInt8) : Prop := 97 ≤ ch ∧ ch ≤ 122
def isUpper (ch : UInt8) : Prop := 65 ≤ ch ∧ ch ≤ 90

instance (ch : UInt8) : Decidable (isLower ch) := inferInstanceAs (Decidable (_ ∧ _))
instance (ch : UInt8) : Decidable (isUpper ch) := inferInstanceAs (Decidable (_ ∧ _))

/-- The character of a key that is pressed without the extended prefix. -/
def plainChar (scancode : UInt8) (k : Keys) : UInt8 :=
  let ch := scanCodeChars.getD scancode.toNat 0
  let ch :=
    if isLower ch then (if k.capsLock ≠ k.shiftPressed then ch - 32 else ch)
    else if k.shiftPressed then alternateChars ch
    else ch
  if k.ctrlPressed ∧ (isUpper ch ∨ isLower ch) then
    (if isUpper ch then ch - 65 + 97 else ch) - 97 + 1
  else ch

/-- `decode_scancode_to_char`. The arrows are 0x80 to 0x83. -/
def decodeScancodeToChar (scancode : UInt8) (k : Keys) : Keys × UInt8 :=
  if scancode = 0 ∨ scancode = 0xE0 then
    (if scancode = 0xE0 then { k with extended := true } else k, 0)
  else if scancode &&& 0x80 ≠ 0 then
    let released := scancode &&& 0x7F
    let k :=
      if released = scanCodeKeyLeftShift ∨ released = scanCodeKeyRightShift then { k with shiftPressed := false }
      else k
    let k := if released = scanCodeKeyCtrl then { k with ctrlPressed := false } else k
    ({ k with extended := false }, 0)
  else if scancode = scanCodeKeyLeftShift ∨ scancode = scanCodeKeyRightShift then
    ({ k with shiftPressed := true }, 0)
  else if scancode = scanCodeKeyCtrl then ({ k with ctrlPressed := true }, 0)
  else if scancode = scanCodeKeyCapsLock then ({ k with capsLock := !k.capsLock }, 0)
  else if k.extended then
    ({ k with extended := false }, if scancode = 0x48 then 0x80
      else if scancode = 0x50 then 0x81
      else if scancode = 0x4B then 0x82
      else if scancode = 0x4D then 0x83
      else 0)
  else (k, plainChar scancode k)

def isArrow (ch : UInt8) : Prop := ch = 0x80 ∨ ch = 0x81 ∨ ch = 0x82 ∨ ch = 0x83

instance (ch : UInt8) : Decidable (isArrow ch) := inferInstanceAs (Decidable (_ ∨ _))

/-- The letter at the end of an arrow's sequence: `A`, `B`, `D` or `C`. -/
def arrowLetter (ch : UInt8) : UInt8 :=
  if ch = 0x80 then 65 else if ch = 0x81 then 66 else if ch = 0x82 then 68 else 67

/-- `keyboard_handler`: a decoded character goes to the tty's buffer. -/
def pushDecoded (ch : UInt8) (k : Keys) : Keys :=
  if ch = 0 then k
  else
    let k := if ch = 3 then { k with sigintPending := k.sigintPending + 1 } else k
    if isArrow ch then
      { kbdBufPushChar (arrowLetter ch) (kbdBufPushChar 91 (kbdBufPushChar 27 k)) with ch := 27 }
    else kbdBufPushChar ch { k with ch := ch }

/-- `keyboard_handler`, after the mouse emulation. -/
def keyPressed (scancode : UInt8) (tsc : UInt64) (k : Keys) : Keys :=
  if k.skipIrqScancode ≠ 0 ∧ scancode = k.skipIrqScancode then { k with skipIrqScancode := 0 }
  else
    let k := { k with scanCode := scancode, irqCount := k.irqCount + 1, lastTsc := tsc }
    let decoded := decodeScancodeToChar scancode k
    pushDecoded decoded.2 decoded.1

/-! ## The mouse -/

structure Mouse where
  buttons : UInt8 := 0
  wheelMode : Bool := false
  extPrefix : Bool := false
  buf : GapRing UInt8 := .empty 0
  eventBuf : GapRing UInt8 := .empty 0

/-- The arguments of `keyboard_mouse_emit_packet_ex`. -/
structure Packet where
  dx : ℤ
  dy : ℤ
  wheel : ℤ
  buttons : UInt8
  wheelPresent : Bool
  deriving DecidableEq

/-- The fields of an `edge_linux_input_event_t`, whose bytes `mouse_event_push` queues. -/
def inputEventBytes (us : UInt64) (type code : UInt16) (value : ℤ) : Bytes :=
  let sec := us / 1000000
  let usec := us % 1000000
  le32 sec.toUInt32 ++ le32 (sec >>> 32).toUInt32 ++ le32 usec.toUInt32 ++ le32 (usec >>> 32).toUInt32 ++
    le16 type ++ le16 code ++ le32 (UInt32.ofBitVec (BitVec.ofInt 32 value))

def mouseEventPush (us : UInt64) (type code : UInt16) (value : ℤ) (r : GapRing UInt8) : GapRing UInt8 :=
  (inputEventBytes us type code value).foldl (GapRing.push mouseEventBufSize) r

def evSyn : UInt16 := 0
def evKey : UInt16 := 1
def evRel : UInt16 := 2
def relX : UInt16 := 0
def relY : UInt16 := 1
def relWheel : UInt16 := 8
def btnLeft : UInt16 := 0x110
def btnRight : UInt16 := 0x111
def btnMiddle : UInt16 := 0x112

/-- Whether the button behind `mask` changes. -/
def changed (mask old new : UInt8) : Prop := old &&& mask ≠ new &&& mask

instance (mask old new : UInt8) : Decidable (changed mask old new) := inferInstanceAs (Decidable (_ ≠ _))

def pressed (mask new : UInt8) : ℤ := if new &&& mask ≠ 0 then 1 else 0

def Packet.moves (p : Packet) (old new : UInt8) : Prop :=
  p.dx ≠ 0 ∨ p.dy ≠ 0 ∨ (p.wheelPresent = true ∧ p.wheel ≠ 0) ∨ old ≠ new

instance (p : Packet) (old new : UInt8) : Decidable (p.moves old new) := inferInstanceAs (Decidable (_ ∨ _))

/-- `mouse_emit_linux_events`; `clock` are the readings of `boottime_monotonic_us`. -/
def mouseEmitLinuxEvents (clock : ℕ → UInt64) (p : Packet) (old new : UInt8) (r : GapRing UInt8) : GapRing UInt8 :=
  let r := if p.dx ≠ 0 then mouseEventPush (clock 0) evRel relX p.dx r else r
  let r := if p.dy ≠ 0 then mouseEventPush (clock 1) evRel relY p.dy r else r
  let r := if p.wheelPresent ∧ p.wheel ≠ 0 then mouseEventPush (clock 2) evRel relWheel p.wheel r else r
  let r := if changed 1 old new then mouseEventPush (clock 3) evKey btnLeft (pressed 1 new) r else r
  let r := if changed 2 old new then mouseEventPush (clock 4) evKey btnRight (pressed 2 new) r else r
  let r := if changed 4 old new then mouseEventPush (clock 5) evKey btnMiddle (pressed 4 new) r else r
  if p.moves old new then mouseEventPush (clock 6) evSyn 0 0 r else r

def clampMove (d : ℤ) : ℤ := max (-127) (min d 127)
def moveByte (d : ℤ) : UInt8 := UInt8.ofBitVec (BitVec.ofInt 8 (clampMove d))

def ps2Head (dx dy : ℤ) (buttons : UInt8) : UInt8 :=
  (0x08 ||| (buttons &&& 0x07)) ||| (if clampMove dx < 0 then 0x10 else 0) ||| (if clampMove dy < 0 then 0x20 else 0)

/-- `mouse_emit_ps2_packet`: once a wheel has been seen, every packet has a fourth byte. -/
def mouseEmitPs2Packet (p : Packet) (buttons : UInt8) (m : Mouse) : Mouse :=
  let buf := m.buf.push mouseBufSize (ps2Head p.dx p.dy buttons)
  let buf := buf.push mouseBufSize (moveByte p.dx)
  let buf := buf.push mouseBufSize (moveByte p.dy)
  let mode := if p.wheelPresent then true else m.wheelMode
  { m with wheelMode := mode, buf := if mode then buf.push mouseBufSize (moveByte p.wheel) else buf }

def keyboardMouseEmitPacketEx (clock : ℕ → UInt64) (p : Packet) (m : Mouse) : Mouse :=
  let old := m.buttons
  let next := p.buttons &&& 0x07
  let m := mouseEmitPs2Packet p next { m with buttons := next }
  { m with eventBuf := mouseEmitLinuxEvents clock p old next m.eventBuf }

/-- The packet that `mouse_emulate_from_scancode` emits: the arrows move, and the keys Z, X and C are buttons. -/
def emulatedPacket (scancode : UInt8) (m : Mouse) : Option Packet :=
  let release := scancode &&& 0x80 ≠ 0
  let key := scancode &&& 0x7F
  if scancode = 0xE0 then none
  else if m.extPrefix then
    if release then none
    else if key = scanCodeKeyUp then some ⟨0, 8, 0, m.buttons, false⟩
    else if key = scanCodeKeyDown then some ⟨0, -8, 0, m.buttons, false⟩
    else if key = scanCodeKeyLeft then some ⟨-8, 0, 0, m.buttons, false⟩
    else if key = scanCodeKeyRight then some ⟨8, 0, 0, m.buttons, false⟩
    else none
  else if key = scanCodeKeyZ ∨ key = scanCodeKeyX ∨ key = scanCodeKeyC then
    let mask : UInt8 := if key = scanCodeKeyZ then 1 else if key = scanCodeKeyX then 2 else 4
    let next := if release then m.buttons &&& ~~~mask else m.buttons ||| mask
    if next ≠ m.buttons then some ⟨0, 0, 0, next, false⟩ else none
  else none

def emitAll (clock : ℕ → UInt64) (p : Option Packet) (m : Mouse) : Mouse :=
  match p with
  | none => m
  | some p => keyboardMouseEmitPacketEx clock p m

def mouseEmulateFromScancode (clock : ℕ → UInt64) (scancode : UInt8) (m : Mouse) : Mouse :=
  if scancode = 0xE0 then { m with extPrefix := true }
  else if m.extPrefix then { emitAll clock (emulatedPacket scancode m) m with extPrefix := false }
  else emitAll clock (emulatedPacket scancode m) m

/-! ## Runs -/

/-- The two devices, with a log for each queue. -/
structure InputSys where
  keys : Keys := {}
  mouse : Mouse := {}
  kbdLog : UnitLog UInt8 := {}
  mouseLog : UnitLog UInt8 := {}
  eventLog : UnitLog UInt8 := {}

/-- A keyboard interrupt with what the port answers, a report of a mouse, and one pass of the loops of
`keyboard_getchar`, `keyboard_mouse_read` and `keyboard_mouse_event_read`. The handlers run with interrupts
disabled, and so does the part of a pass that takes a byte. -/
inductive InputEvent
  | scancode (code : UInt8) (tsc : UInt64) (clock : ℕ → UInt64)
  | packet (p : Packet) (clock : ℕ → UInt64)
  | getchar
  | mouseByte
  | eventByte

def InputSys.emits (s : InputSys) : InputEvent → Option Packet
  | .scancode code _ _ => if code = 0 then none else emulatedPacket code s.mouse
  | .packet p _ => some p
  | _ => none

def charUnits (ch : UInt8) : List Bytes :=
  if ch = 0 then [] else if isArrow ch then [[27, 91, arrowLetter ch]] else [[ch]]

def Keys.units (k : Keys) (code : UInt8) : List Bytes :=
  if k.skipIrqScancode ≠ 0 ∧ code = k.skipIrqScancode then [] else charUnits (decodeScancodeToChar code k).2

def Mouse.packetUnit (m : Mouse) (p : Packet) : Bytes :=
  [ps2Head p.dx p.dy (p.buttons &&& 0x07), moveByte p.dx, moveByte p.dy] ++
    (if p.wheelPresent ∨ m.wheelMode then [moveByte p.wheel] else [])

def oneIf (c : Prop) [Decidable c] (u : Bytes) : List Bytes := if c then [u] else []

def eventUnits (clock : ℕ → UInt64) (p : Packet) (old new : UInt8) : List Bytes :=
  oneIf (p.dx ≠ 0) (inputEventBytes (clock 0) evRel relX p.dx) ++
    (oneIf (p.dy ≠ 0) (inputEventBytes (clock 1) evRel relY p.dy) ++
    (oneIf (p.wheelPresent ∧ p.wheel ≠ 0) (inputEventBytes (clock 2) evRel relWheel p.wheel) ++
    (oneIf (changed 1 old new) (inputEventBytes (clock 3) evKey btnLeft (pressed 1 new)) ++
    (oneIf (changed 2 old new) (inputEventBytes (clock 4) evKey btnRight (pressed 2 new)) ++
    (oneIf (changed 4 old new) (inputEventBytes (clock 5) evKey btnMiddle (pressed 4 new)) ++
    oneIf (p.moves old new) (inputEventBytes (clock 6) evSyn 0 0))))))

def Mouse.packetUnits (m : Mouse) (p : Option Packet) : List Bytes := p.toList.map m.packetUnit

def Mouse.eventUnits (m : Mouse) (clock : ℕ → UInt64) (p : Option Packet) : List Bytes :=
  p.toList.flatMap fun p => EdgeOS.eventUnits clock p m.buttons (p.buttons &&& 0x07)

def InputSys.keyUnits (s : InputSys) : InputEvent → List Bytes
  | .scancode code _ _ => if code = 0 then [] else s.keys.units code
  | _ => []

def InputEvent.clock : InputEvent → ℕ → UInt64
  | .scancode _ _ clock => clock
  | .packet _ clock => clock
  | _ => fun _ => 0

/-- The devices after an event, and what it offers to each queue or takes out of it. -/
def InputSys.step (s : InputSys) (e : InputEvent) : InputSys :=
  match e with
  | .scancode code tsc clock =>
    if code = 0 then s
    else
      { s with
        mouse := mouseEmulateFromScancode clock code s.mouse
        keys := keyPressed code tsc s.keys
        kbdLog := s.kbdLog.offer (s.keyUnits e)
        mouseLog := s.mouseLog.offer (s.mouse.packetUnits (s.emits e))
        eventLog := s.eventLog.offer (s.mouse.eventUnits clock (s.emits e)) }
  | .packet p clock =>
    { s with
      mouse := keyboardMouseEmitPacketEx clock p s.mouse
      mouseLog := s.mouseLog.offer (s.mouse.packetUnits (s.emits e))
      eventLog := s.eventLog.offer (s.mouse.eventUnits clock (s.emits e)) }
  | .getchar =>
    match s.keys.buf.pop kbdBufSize with
    | none => s
    | some (c, buf) => { s with keys := { s.keys with buf := buf }, kbdLog := s.kbdLog.take c }
  | .mouseByte =>
    match s.mouse.buf.pop mouseBufSize with
    | none => s
    | some (c, buf) => { s with mouse := { s.mouse with buf := buf }, mouseLog := s.mouseLog.take c }
  | .eventByte =>
    match s.mouse.eventBuf.pop mouseEventBufSize with
    | none => s
    | some (c, buf) => { s with mouse := { s.mouse with eventBuf := buf }, eventLog := s.eventLog.take c }

/-- What an event offers finds either no byte free or enough of them, in each queue. -/
def InputSys.UnitsFit (s : InputSys) (e : InputEvent) : Prop :=
  Fits (s.keys.buf.room kbdBufSize) ((s.keyUnits e).map List.length) ∧
    Fits (s.mouse.buf.room mouseBufSize) ((s.mouse.packetUnits (s.emits e)).map List.length) ∧
    Fits (s.mouse.eventBuf.room mouseEventBufSize)
      ((s.mouse.eventUnits e.clock (s.emits e)).map List.length)

/-- What was read from each queue, and what is still in it, is made of whole units. -/
structure InputSys.Whole (s : InputSys) : Prop where
  kbd : s.kbdLog.Whole (s.keys.buf.contents kbdBufSize)
  mouse : s.mouseLog.Whole (s.mouse.buf.contents mouseBufSize)
  event : s.eventLog.Whole (s.mouse.eventBuf.contents mouseEventBufSize)

/-! ## What a handler pushes are the units of its event -/

theorem decode_buf (code : UInt8) (k : Keys) : (decodeScancodeToChar code k).1.buf = k.buf := by
  unfold decodeScancodeToChar
  simp only [apply_ite Prod.fst, apply_ite Keys.buf, ite_self]

/-- The statistics of the interrupts have no part in decoding. -/
theorem decode_char (code scanCode : UInt8) (irqCount tsc : UInt64) (k : Keys) :
    (decodeScancodeToChar code { k with scanCode := scanCode, irqCount := irqCount, lastTsc := tsc }).2 =
      (decodeScancodeToChar code k).2 := by
  unfold decodeScancodeToChar
  simp only [apply_ite Prod.snd]
  rfl

theorem pushDecoded_buf (ch : UInt8) (k : Keys) :
    (pushDecoded ch k).buf = (charUnits ch).flatten.foldl (push kbdBufSize) k.buf := by
  unfold pushDecoded charUnits
  split_ifs <;> rfl

theorem keyPressed_buf (code : UInt8) (tsc : UInt64) (k : Keys) :
    (keyPressed code tsc k).buf = (k.units code).flatten.foldl (push kbdBufSize) k.buf := by
  unfold keyPressed Keys.units
  by_cases hskip : k.skipIrqScancode ≠ 0 ∧ code = k.skipIrqScancode
  · rw [if_pos hskip, if_pos hskip]
    rfl
  rw [if_neg hskip, if_neg hskip]
  apply (pushDecoded_buf _ _).trans
  rw [decode_buf, decode_char]

theorem eventPush_oneIf (c : Prop) [Decidable c] (us : UInt64) (type code : UInt16) (value : ℤ) (r : GapRing UInt8) :
    (if c then mouseEventPush us type code value r else r) =
      (oneIf c (inputEventBytes us type code value)).flatten.foldl (push mouseEventBufSize) r := by
  unfold oneIf
  by_cases hc : c
  · rw [if_pos hc, if_pos hc, flatten_singleton]
    rfl
  · rw [if_neg hc, if_neg hc]
    rfl

theorem mouseEmitLinuxEvents_eq (clock : ℕ → UInt64) (p : Packet) (old new : UInt8) (r : GapRing UInt8) :
    mouseEmitLinuxEvents clock p old new r =
      (eventUnits clock p old new).flatten.foldl (push mouseEventBufSize) r := by
  unfold mouseEmitLinuxEvents eventUnits
  simp only [eventPush_oneIf, flatten_append, foldl_append]

theorem emitPacket_buf (clock : ℕ → UInt64) (p : Packet) (m : Mouse) :
    (keyboardMouseEmitPacketEx clock p m).buf = (m.packetUnit p).foldl (push mouseBufSize) m.buf := by
  unfold keyboardMouseEmitPacketEx mouseEmitPs2Packet Mouse.packetUnit
  dsimp only
  rw [foldl_append, foldl_cons, foldl_cons, foldl_cons, foldl_nil]
  by_cases hmode : (p.wheelPresent ∨ m.wheelMode)
  · have hset : (if p.wheelPresent then true else m.wheelMode) = true := by
      cases hmode with
      | inl hp => exact if_pos hp
      | inr hm => rw [hm, ite_self]
    rw [hset, if_pos rfl, if_pos hmode, foldl_cons, foldl_nil]
  · obtain ⟨hp, hm⟩ := not_or.mp hmode
    rw [if_neg hp, if_neg hm, if_neg hmode, foldl_nil]

theorem emitPacket_eventBuf (clock : ℕ → UInt64) (p : Packet) (m : Mouse) :
    (keyboardMouseEmitPacketEx clock p m).eventBuf =
      (m.eventUnits clock (some p)).flatten.foldl (push mouseEventBufSize) m.eventBuf := by
  apply (mouseEmitLinuxEvents_eq clock p m.buttons (p.buttons &&& 0x07) m.eventBuf).trans
  unfold Mouse.eventUnits
  rw [Option.toList_some, flatMap_singleton]

theorem emitAll_buf (clock : ℕ → UInt64) (p : Option Packet) (m : Mouse) :
    (emitAll clock p m).buf = (m.packetUnits p).flatten.foldl (push mouseBufSize) m.buf := by
  cases p with
  | none => rfl
  | some p =>
    apply (emitPacket_buf clock p m).trans
    unfold Mouse.packetUnits
    rw [Option.toList_some, map_singleton, flatten_singleton]

theorem emitAll_eventBuf (clock : ℕ → UInt64) (p : Option Packet) (m : Mouse) : (emitAll clock p m).eventBuf =
      (m.eventUnits clock p).flatten.foldl (push mouseEventBufSize) m.eventBuf := by
  cases p with
  | none => rfl
  | some p => exact emitPacket_eventBuf clock p m

/-- The emulation emits its packet, if it has one, and touches its prefix beside that. -/
theorem emulate_eq (clock : ℕ → UInt64) (code : UInt8) (m : Mouse) : ∃ ext, mouseEmulateFromScancode clock code m =
      { emitAll clock (emulatedPacket code m) m with extPrefix := ext } := by
  unfold mouseEmulateFromScancode
  by_cases hext : code = 0xE0
  · rw [if_pos hext, emulatedPacket, if_pos hext]
    exact ⟨true, rfl⟩
  rw [if_neg hext]
  by_cases hprefix : m.extPrefix
  · exact ⟨false, if_pos hprefix⟩
  · exact ⟨_, if_neg hprefix⟩

/-! ## Units stay whole -/

namespace InputSys

/-- The rings are rings, and their bytes are whole units. -/
structure WholeUnits (s : InputSys) : Prop where
  kbd : s.keys.buf.Valid kbdBufSize
  mouse : s.mouse.buf.Valid mouseBufSize
  event : s.mouse.eventBuf.Valid mouseEventBufSize
  whole : s.Whole

theorem inv_init : WholeUnits {} := by
  refine ⟨valid_empty (by decide) 0, valid_empty (by decide) 0,
    valid_empty (by decide) 0, ?_, ?_, ?_⟩ <;>
  exact ⟨[], List.Sublist.refl [], congrArg ([] ++ ·) (contents_empty 0)⟩

variable {s : InputSys} {e : InputEvent}

/-- A report of a mouse, or a packet that a key stands for. -/
theorem WholeUnits.emit (h : s.WholeUnits) (p : Option Packet) (clock : ℕ → UInt64)
    (hpacket : Fits (s.mouse.buf.room mouseBufSize) ((s.mouse.packetUnits p).map List.length))
    (hevent : Fits (s.mouse.eventBuf.room mouseEventBufSize) ((s.mouse.eventUnits clock p).map List.length)) :
    WholeUnits { s with
      mouse := emitAll clock p s.mouse
      mouseLog := s.mouseLog.offer (s.mouse.packetUnits p)
      eventLog := s.eventLog.offer (s.mouse.eventUnits clock p) } := by
  obtain ⟨hmv, hmw⟩ := h.mouse.whole_pushes _ h.whole.mouse hpacket
  obtain ⟨hev, hew⟩ := h.event.whole_pushes _ h.whole.event hevent
  rw [← emitAll_buf clock p s.mouse] at hmv hmw
  rw [← emitAll_eventBuf clock p s.mouse] at hev hew
  exact ⟨h.kbd, hmv, hev, h.whole.kbd, hmw, hew⟩

theorem WholeUnits.press (h : s.WholeUnits) {code : UInt8} (tsc : UInt64)
    (hfits : Fits (s.keys.buf.room kbdBufSize) ((s.keys.units code).map List.length)) :
    WholeUnits { s with keys := keyPressed code tsc s.keys, kbdLog := s.kbdLog.offer (s.keys.units code) } := by
  obtain ⟨hv, hw⟩ := h.kbd.whole_pushes _ h.whole.kbd hfits
  rw [← keyPressed_buf code tsc s.keys] at hv hw
  exact ⟨hv, h.mouse, h.event, hw, h.whole.mouse, h.whole.event⟩

theorem WholeUnits.getchar (h : s.WholeUnits) : (s.step .getchar).WholeUnits := by
  unfold step
  dsimp only
  cases hpop : s.keys.buf.pop kbdBufSize with
  | none => exact h
  | some found =>
    obtain ⟨hv, hc⟩ := h.kbd.pop_some hpop
    have hw := h.whole.kbd
    rw [hc] at hw
    exact ⟨hv, h.mouse, h.event, hw.take, h.whole.mouse, h.whole.event⟩

theorem WholeUnits.mouseByte (h : s.WholeUnits) : (s.step .mouseByte).WholeUnits := by
  unfold step
  dsimp only
  cases hpop : s.mouse.buf.pop mouseBufSize with
  | none => exact h
  | some found =>
    obtain ⟨hv, hc⟩ := h.mouse.pop_some hpop
    have hw := h.whole.mouse
    rw [hc] at hw
    exact ⟨h.kbd, hv, h.event, h.whole.kbd, hw.take, h.whole.event⟩

theorem WholeUnits.eventByte (h : s.WholeUnits) : (s.step .eventByte).WholeUnits := by
  unfold step
  dsimp only
  cases hpop : s.mouse.eventBuf.pop mouseEventBufSize with
  | none => exact h
  | some found =>
    obtain ⟨hv, hc⟩ := h.event.pop_some hpop
    have hw := h.whole.event
    rw [hc] at hw
    exact ⟨h.kbd, h.mouse, hv, h.whole.kbd, h.whole.mouse, hw.take⟩

theorem WholeUnits.step (h : s.WholeUnits) (hfits : s.UnitsFit e) : (s.step e).WholeUnits := by
  obtain ⟨hkeys, hpacket, hevent⟩ := hfits
  cases e with
  | scancode code tsc clock =>
    by_cases hzero : code = 0
    · rw [show s.step (.scancode code tsc clock) = s from if_pos hzero]
      exact h
    have hemits : s.emits (.scancode code tsc clock) = emulatedPacket code s.mouse := if_neg hzero
    have hunits : s.keyUnits (.scancode code tsc clock) = s.keys.units code := if_neg hzero
    rw [hemits] at hpacket hevent
    rw [hunits] at hkeys
    have hstep := (h.emit _ clock hpacket hevent).press tsc hkeys
    obtain ⟨ext, hext⟩ := emulate_eq clock code s.mouse
    rw [show s.step (.scancode code tsc clock) = _ from if_neg hzero, hemits, hunits, hext]
    exact ⟨hstep.kbd, hstep.mouse, hstep.event, hstep.whole.kbd, hstep.whole.mouse, hstep.whole.event⟩
  | packet p clock => exact h.emit (some p) clock hpacket hevent
  | getchar => exact h.getchar
  | mouseByte => exact h.mouseByte
  | eventByte => exact h.eventByte

instance (s : InputSys) (e : InputEvent) : Decidable (s.UnitsFit e) :=
  inferInstanceAs (Decidable (_ ∧ _))

def typeA : InputEvent := .scancode 0x1E 0 fun _ => 0

/-- `k` keys have been typed and nothing has been read. -/
structure Typed (k : ℕ) (s : InputSys) : Prop where
  caps : s.keys.capsLock = false
  shift : s.keys.shiftPressed = false
  ctrl : s.keys.ctrlPressed = false
  plain : s.keys.extended = false
  skip : s.keys.skipIrqScancode = 0
  valid : s.keys.buf.Valid kbdBufSize
  room : s.keys.buf.room kbdBufSize + k = 255
  contents : s.keys.buf.contents kbdBufSize = List.replicate k 97
  log : s.kbdLog = ⟨List.replicate k [97], []⟩

/-- Without modifiers the key of the letter A is that letter. -/
theorem decode_typeA {k : Keys} (hcaps : k.capsLock = false) (hshift : k.shiftPressed = false)
    (hctrl : k.ctrlPressed = false) (hplain : k.extended = false) : decodeScancodeToChar 0x1E k = (k, 97) := by
  have hchar : plainChar 0x1E k = 97 := by
    unfold plainChar
    rw [hcaps, hshift, hctrl]
    decide
  unfold decodeScancodeToChar
  rw [hchar, hplain, if_neg (by decide), if_neg (by decide), if_neg (by decide), if_neg (by decide),
    if_neg (by decide), if_neg (by decide)]

theorem Typed.step {k : ℕ} {s : InputSys} (h : Typed k s) (hk : k < 255) : Typed (k + 1) (s.step typeA) := by
  have hroom := h.room
  obtain ⟨hv, hr, hc⟩ := h.valid.push_free (by omega) 97
  have hkeys : keyPressed 0x1E 0 s.keys = { s.keys with
      scanCode := 0x1E, irqCount := s.keys.irqCount + 1, lastTsc := 0, ch := 97
      buf := s.keys.buf.push kbdBufSize 97 } := by
    unfold keyPressed
    rw [if_neg fun hskip => hskip.1 h.skip]
    dsimp only
    rw [decode_typeA]
    · rfl
    · exact h.caps
    · exact h.shift
    · exact h.ctrl
    · exact h.plain
  have hunits : s.keys.units 0x1E = [[97]] := by
    unfold Keys.units
    rw [h.skip, if_neg (by decide), decode_typeA h.caps h.shift h.ctrl h.plain]
    rfl
  have hstep : (s.step typeA).keys = keyPressed 0x1E 0 s.keys := rfl
  have hlog : (s.step typeA).kbdLog = s.kbdLog.offer (s.keys.units 0x1E) := rfl
  rw [hkeys] at hstep
  rw [hunits, h.log] at hlog
  constructor
  · rw [hstep]; exact h.caps
  · rw [hstep]; exact h.shift
  · rw [hstep]; exact h.ctrl
  · rw [hstep]; exact h.plain
  · rw [hstep]; exact h.skip
  · rw [hstep]; exact hv
  · rw [hstep]
    change (s.keys.buf.push kbdBufSize 97).room kbdBufSize + (k + 1) = 255
    omega
  · rw [hstep]
    apply hc.trans
    rw [h.contents, replicate_succ']
  · rw [hlog, replicate_succ']
    rfl

theorem Typed.ext {k : ℕ} {s : InputSys} (h : Typed k s) : keyPressed 0xE0 0 s.keys = { s.keys with
      scanCode := 0xE0, irqCount := s.keys.irqCount + 1, lastTsc := 0, extended := true } ∧
      s.keys.units 0xE0 = [] := by
  have hdecode : ∀ k : Keys, decodeScancodeToChar 0xE0 k = ({ k with extended := true }, 0) := by
    intro k
    unfold decodeScancodeToChar
    rw [if_pos (by decide), if_pos rfl]
  unfold keyPressed Keys.units
  have hskip : ¬(s.keys.skipIrqScancode ≠ 0 ∧ 0xE0 = s.keys.skipIrqScancode) := fun hskip => hskip.1 h.skip
  rw [if_neg hskip, if_neg hskip]
  dsimp only
  rw [hdecode, hdecode]
  exact ⟨rfl, rfl⟩

/-- Behind the prefix, the key of the number 8 is an arrow. -/
theorem units_up {k : Keys} (hskip : k.skipIrqScancode = 0) (hext : k.extended = true) :
    k.units 0x48 = [[27, 91, 65]] := by
  unfold Keys.units decodeScancodeToChar
  rw [hskip, hext]
  rfl

/-- An arrow that finds one byte free leaves its first byte there. -/
theorem Typed.arrow {s : InputSys} (h : Typed 254 s) :
    let t := run InputSys.step s [.scancode 0xE0 0 fun _ => 0, .scancode 0x48 0 fun _ => 0]
    t.keys.buf.contents kbdBufSize = List.replicate 254 97 ++ [27] ∧
      t.kbdLog = ⟨List.replicate 254 [97] ++ [[27, 91, 65]], []⟩ := by
  obtain ⟨hkeys, hnone⟩ := h.ext
  have hup := units_up (k := keyPressed 0xE0 0 s.keys) (by rw [hkeys]; exact h.skip) (by rw [hkeys])
  obtain ⟨-, -, hc⟩ := h.valid.pushes [27, 91, 65]
  have hroom : s.keys.buf.room kbdBufSize = 1 := by
    have := h.room
    omega
  constructor
  · change (keyPressed 0x48 0 (keyPressed 0xE0 0 s.keys)).buf.contents kbdBufSize = _
    rw [keyPressed_buf, hup, hkeys]
    apply hc.trans
    rw [hroom, h.contents]
    rfl
  · change (s.kbdLog.offer (s.keys.units 0xE0)).offer ((keyPressed 0xE0 0 s.keys).units 0x48) = _
    rw [hup, hnone, h.log]
    change UnitLog.mk (List.replicate 254 [97] ++ [] ++ [[27, 91, 65]]) [] = _
    rw [append_nil]

end InputSys

end EdgeOS
