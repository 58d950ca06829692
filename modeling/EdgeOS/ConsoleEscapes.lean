import EdgeOS.FbConsole
import EdgeOS.PathWalk
import Mathlib.Data.List.GetD

namespace EdgeOS

/-!
Escape sequences of the console, `console_putchar` of `src/console.c` over the framebuffer. The
numbers of a sequence are `int`s that are added to digit by digit.
-/

open List FbScreen

/-- An `int` after arithmetic that wraps. -/
def int32 (n : ℤ) : ℤ := n.bmod (2 ^ 32)

/-- `n` is an `int`. -/
def IsInt (n : ℤ) : Prop := -2 ^ 31 ≤ n ∧ n < 2 ^ 31

instance (n : ℤ) : Decidable (IsInt n) := inferInstanceAs (Decidable (_ ∧ _))

/-- `g_esc_state`: 0, 1 and 2. -/
inductive EscState
  | text
  | esc
  | csi
  deriving DecidableEq, Repr

/-- The statics of `console.c` with the framebuffer as the backend. `params` holds the first
`g_esc_param_count` numbers. -/
structure ConsoleState where
  fb : FbScreen
  fg : UInt32
  bg : UInt32
  defaultFg : UInt32
  defaultBg : UInt32
  escState : EscState
  qmark : Bool
  params : List ℤ
  cur : ℤ

/-- The length of `g_esc_params`. -/
def escParamMax : ℕ := 8

namespace ConsoleState

variable (s : ConsoleState)

/-- `console_gotoxy`: the coordinates are `uint16_t`. -/
def gotoxy (x y : ℤ) : ConsoleState :=
  { s with fb := s.fb.moveCursor (x % 2 ^ 16).toNat (y % 2 ^ 16).toNat }

/-- `console_emit_raw`. -/
def emitRaw (ch : UInt8) : ConsoleState := { s with fb := s.fb.putchar ch }

/-- `g_be->erase_in_line`. -/
def eraseInLine (mode : ℤ) : ConsoleState := { s with fb := s.fb.eraseInLine mode }

def eraseCharsAtCursor (n : ℤ) : ConsoleState :=
  let x := s.fb.curCol
  let y := s.fb.curRow
  if n ≤ 0 ∨ s.fb.cols ≤ x then s
  else
    let n := if (s.fb.cols : ℤ) - x < n then (s.fb.cols : ℤ) - x else n
    ((List.range n.toNat).foldl (fun s i => (s.gotoxy (x + i) y).emitRaw 32) s).gotoxy x y

/-- `console_gotoxy(0, r)` and `erase_in_line(2)` for each of the rows. -/
def eraseRows (rows : List ℕ) : ConsoleState := rows.foldl (fun s r => (s.gotoxy 0 r).eraseInLine 2) s

def eraseInDisplay (mode : ℤ) : ConsoleState :=
  let x := s.fb.curCol
  let y := if s.fb.rows ≤ s.fb.curRow then s.fb.rows - 1 else s.fb.curRow
  let s' :=
    if mode = 0 then (s.eraseInLine 0).eraseRows (List.range' (y + 1) (s.fb.rows - (y + 1)))
    else if mode = 1 then ((s.eraseRows (List.range y)).gotoxy 0 y).eraseInLine 1
    else if mode = 2 ∨ mode = 3 then s.eraseRows (List.range s.fb.rows)
    else s
  s'.gotoxy x y

def ansiToVgaIdx (idx : ℤ) : UInt32 := [0, 4, 2, 6, 1, 5, 3, 7].getD (idx % 8).toNat 0

def applyColor : ConsoleState := { s with fb := s.fb.setColor s.fg s.bg }

/-- `console_esc_reset`. -/
def escReset : ConsoleState := { s with escState := .text, qmark := false, params := [], cur := -1 }

def escParamOr (idx : ℕ) (defv : ℤ) : ℤ :=
  if idx < s.params.length then (if s.params.getD idx 0 = 0 then defv else s.params.getD idx 0)
  else if idx = s.params.length ∧ 0 ≤ s.cur then (if s.cur = 0 then defv else s.cur)
  else defv

def escFirstParam (defv : ℤ) : ℤ :=
  if 0 < s.params.length then s.params.getD 0 0 else if 0 ≤ s.cur then s.cur else defv

/-- One number of `console_apply_sgr`. -/
def applySgrParam (p : ℤ) : ConsoleState :=
  if p = 0 then { s with fg := s.defaultFg, bg := s.defaultBg }
  else if p = 39 then { s with fg := s.defaultFg }
  else if p = 49 then { s with bg := s.defaultBg }
  else if 30 ≤ p ∧ p ≤ 37 then { s with fg := ansiToVgaIdx (p - 30) }
  else if 40 ≤ p ∧ p ≤ 47 then { s with bg := ansiToVgaIdx (p - 40) }
  else if 90 ≤ p ∧ p ≤ 97 then { s with fg := ansiToVgaIdx (p - 90) ||| 8 }
  else if 100 ≤ p ∧ p ≤ 107 then { s with bg := ansiToVgaIdx (p - 100) ||| 8 }
  else s

/-- `console_apply_sgr`. -/
def applySgr : ConsoleState :=
  let ps := if 0 ≤ s.cur ∧ s.params.length < escParamMax then s.params ++ [s.cur] else s.params
  if ps = [] then { s with fg := s.defaultFg, bg := s.defaultBg }.applyColor
  else (ps.foldl applySgrParam s).applyColor

/-- The row or column of `H`, from the number of the sequence. -/
def cupCoordinate (n : ℤ) (size : ℕ) : ℤ :=
  let n := if n < 1 then 1 else n
  if (size : ℤ) < n then size else n

/-- A coordinate of `A`, `B`, `C` and `D` on the screen. -/
def clampCoordinate (n : ℤ) (size : ℕ) : ℤ :=
  let n := if n < 0 then 0 else n
  if (size : ℤ) ≤ n then (size : ℤ) - 1 else n

/-- `A`, `B`, `C` and `D`. -/
def cursorMove (ch : UInt8) : ConsoleState :=
  let n := if s.escFirstParam 1 < 1 then 1 else s.escFirstParam 1
  let x : ℤ := s.fb.curCol
  let y : ℤ := s.fb.curRow
  let (x, y) :=
    if ch = 65 then (x, int32 (y - n))
    else if ch = 66 then (x, int32 (y + n))
    else if ch = 67 then (int32 (x + n), y)
    else (int32 (x - n), y)
  s.gotoxy (clampCoordinate x s.fb.cols) (clampCoordinate y s.fb.rows)

/-- `console_putchar` behind `ESC [`. -/
def putcharCsi (ch : UInt8) : ConsoleState :=
  if ch = 63 then { s with qmark := true }
  else if isDigit ch then
    let cur := if s.cur < 0 then 0 else s.cur
    { s with cur := int32 (cur * 10 + (ch - 48).toNat) }
  else if ch = 59 then
    { s with
      params := if s.params.length < escParamMax then s.params ++ [if s.cur < 0 then 0 else s.cur] else s.params
      cur := -1 }
  else if ch = 109 then s.applySgr.escReset
  else if ch = 72 ∨ ch = 102 then
    (s.gotoxy (cupCoordinate (s.escParamOr 1 1) s.fb.cols - 1)
      (cupCoordinate (s.escParamOr 0 1) s.fb.rows - 1)).escReset
  else if ch = 65 ∨ ch = 66 ∨ ch = 67 ∨ ch = 68 then (s.cursorMove ch).escReset
  else if ch = 74 then (s.eraseInDisplay (s.escFirstParam 0)).escReset
  else if ch = 75 then (s.eraseInLine (s.escFirstParam 0)).escReset
  else if ch = 80 ∨ ch = 88 then
    (s.eraseCharsAtCursor (if s.escFirstParam 1 < 1 then 1 else s.escFirstParam 1)).escReset
  else s.escReset

/-- `console_putchar`. -/
def putchar (ch : UInt8) : ConsoleState :=
  match s.escState with
  | .text => if ch = 27 then { s with escState := .esc } else s.emitRaw ch
  | .esc =>
    if ch = 91 then { s with escState := .csi, qmark := false, params := [], cur := -1 }
    else ((s.emitRaw 27).emitRaw ch).escReset
  | .csi => s.putcharCsi ch

end ConsoleState

/-! ## The numbers of a sequence -/

/-- Where a stream stands: in text, behind `ESC`, or behind `ESC [` and the bytes of a sequence. -/
inductive EscPhase
  | text
  | esc
  | csi (seq : Bytes)
  deriving DecidableEq, Repr

/-- A byte that continues a sequence: `?`, a digit or `;`. -/
def seqByte (ch : UInt8) : Bool := ch = 63 ∨ isDigit ch ∨ ch = 59

/-- The next phase. A question mark is no part of the numbers. -/
def EscPhase.next : EscPhase → UInt8 → EscPhase
  | .text, ch => if ch = 27 then .esc else .text
  | .esc, ch => if ch = 91 then .csi [] else .text
  | .csi seq, ch => if ch = 63 then .csi seq else if seqByte ch then .csi (seq ++ [ch]) else .text

def field : ℕ → Bytes → Bytes
  | _, [] => []
  | 0, ch :: s => if ch = 59 then [] else ch :: field 0 s
  | i + 1, ch :: s => if ch = 59 then field i s else field (i + 1) s

/-- The mathematical value of a number of the sequence; none written is 0. -/
def paramValue (i : ℕ) (seq : Bytes) : ℕ := decimalValue (field i seq)

def semicolons (seq : Bytes) : ℕ := seq.count 59

section Fields

variable {seq : Bytes} {i : ℕ} {ch : UInt8}

theorem semicolons_cons (c : UInt8) (seq : Bytes) :
    semicolons (c :: seq) = semicolons seq + if c = 59 then 1 else 0 := by
  unfold semicolons
  rw [count_cons]
  simp

theorem semicolons_append (seq : Bytes) (ch : UInt8) :
    semicolons (seq ++ [ch]) = semicolons seq + if ch = 59 then 1 else 0 := by
  unfold semicolons
  rw [count_append, ← Nat.zero_add (if ch = 59 then 1 else 0)]
  exact congrArg _ (semicolons_cons ch [])

theorem field_append (i : ℕ) (seq : Bytes) (ch : UInt8) :
    field i (seq ++ [ch]) = if i = semicolons seq ∧ ch ≠ 59 then field i seq ++ [ch] else field i seq := by
  induction seq generalizing i with
  | nil =>
    have hnone : semicolons [] = 0 := rfl
    rw [hnone]
    cases i with
    | zero => by_cases hch : ch = 59 <;> simp [field, hch]
    | succ i => by_cases hch : ch = 59 <;> cases i <;> simp [field, hch]
  | cons c seq ih =>
    rw [semicolons_cons, cons_append]
    unfold field
    by_cases hc : c = 59
    · rw [if_pos hc]
      cases i with
      | zero => simp [hc]
      | succ i =>
        dsimp only
        rw [if_pos hc, if_pos hc, ih]
        simp
    rw [if_neg hc]
    cases i with
    | zero =>
      dsimp only
      rw [if_neg hc, if_neg hc, ih, Nat.add_zero]
      by_cases hlast : 0 = semicolons seq ∧ ch ≠ 59
      · rw [if_pos hlast, if_pos hlast]
        rfl
      · rw [if_neg hlast, if_neg hlast]
    | succ i =>
      dsimp only
      rw [if_neg hc, if_neg hc, ih]
      rfl

theorem field_behind (h : semicolons seq < i) : field i seq = [] := by
  induction seq generalizing i with
  | nil => cases i <;> rfl
  | cons c seq ih =>
    have hcount := semicolons_cons c seq
    cases i with
    | zero => omega
    | succ i =>
      unfold field
      split
      · rename_i hc
        rw [if_pos hc] at hcount
        exact ih (by omega)
      rename_i hc
      rw [if_neg hc] at hcount
      exact ih (by omega)

theorem decimalValue_append (s : Bytes) (ch : UInt8) :
    decimalValue (s ++ [ch]) = decimalValue s * 10 + (ch - 48).toNat := by
  unfold decimalValue
  rw [foldl_append]
  rfl

end Fields

/-! ## The parser -/

/-- The statics hold the numbers of the bytes behind `ESC [`. -/
structure ParserInv (s : ConsoleState) (seq : Bytes) : Prop where
  state : s.escState = .csi
  count : s.params.length = min escParamMax (semicolons seq)
  params : ∀ i < s.params.length, s.params.getD i 0 = paramValue i seq
  cur : s.cur = if field (semicolons seq) seq = [] then -1 else (paramValue (semicolons seq) seq : ℤ)
  bounded : ∀ i, paramValue i seq < 2 ^ 31

def PhaseInv (s : ConsoleState) : EscPhase → Prop
  | .text => s.escState = .text
  | .esc => s.escState = .esc
  | .csi seq => ParserInv s seq

section Parser

variable {s : ConsoleState} {seq : Bytes} {i : ℕ} {ch : UInt8}

theorem ParserInv.paramOr (h : ParserInv s seq) (hi : i < 2) (d : ℤ) :
    s.escParamOr i d = if paramValue i seq = 0 then d else paramValue i seq := by
  have hcount := h.count
  unfold escParamMax at hcount
  unfold ConsoleState.escParamOr
  rcases Nat.lt_trichotomy i s.params.length with hlt | heq | hgt
  · rw [if_pos hlt, h.params i hlt]
    norm_cast
  · have hlast : semicolons seq = i := by omega
    have hcur := h.cur
    rw [hlast] at hcur
    rw [if_neg (by omega)]
    by_cases hnil : field i seq = []
    · rw [if_pos hnil] at hcur
      rw [if_neg (by omega), if_pos (show paramValue i seq = 0 by unfold paramValue; rw [hnil]; rfl)]
    rw [if_neg hnil] at hcur
    rw [if_pos ⟨heq, by omega⟩, hcur]
    norm_cast
  · have hnil : field i seq = [] := field_behind (by omega)
    rw [if_neg (by omega), if_neg (by omega), if_pos (show paramValue i seq = 0 by unfold paramValue; rw [hnil]; rfl)]

/-- The first number, or the default where there is none. -/
theorem ParserInv.firstParam (h : ParserInv s seq) (d : ℤ) :
    s.escFirstParam d = paramValue 0 seq ∨ (paramValue 0 seq = 0 ∧ s.escFirstParam d = d) := by
  have hcount := h.count
  unfold escParamMax at hcount
  unfold ConsoleState.escFirstParam
  by_cases hpos : 0 < s.params.length
  · rw [if_pos hpos, h.params 0 hpos]
    exact .inl rfl
  have hlast : semicolons seq = 0 := by omega
  have hcur := h.cur
  rw [hlast] at hcur
  rw [if_neg hpos]
  by_cases hnil : field 0 seq = []
  · rw [if_pos hnil] at hcur
    rw [if_neg (by omega)]
    exact .inr ⟨by unfold paramValue; rw [hnil]; rfl, rfl⟩
  rw [if_neg hnil] at hcur
  rw [if_pos (by omega), hcur]
  exact .inl rfl

theorem ParserInv.countParam (h : ParserInv s seq) :
    (if s.escFirstParam 1 < 1 then 1 else s.escFirstParam 1) = max 1 (paramValue 0 seq : ℤ) := by
  rcases h.firstParam 1 with hval | ⟨hzero, hval⟩
  · rw [hval]
    split <;> omega
  · rw [hval, hzero]
    rfl

theorem ParserInv.modeParam (h : ParserInv s seq) : s.escFirstParam 0 = paramValue 0 seq := by
  rcases h.firstParam 0 with hval | ⟨hzero, hval⟩
  · exact hval
  · rw [hval, hzero]
    rfl

/-- A digit keeps the numbers unless its number leaves the `int`s. -/
theorem ParserInv.digit (h : ParserInv s seq) (hch : isDigit ch = true)
    (hfits : paramValue (semicolons seq) (seq ++ [ch]) < 2 ^ 31) :
    ParserInv (s.putcharCsi ch) (seq ++ [ch]) ∧ IsInt ((if s.cur < 0 then 0 else s.cur) * 10 + (ch - 48).toNat) := by
  have hne : ch ≠ 59 ∧ ch ≠ 63 := by
    constructor <;> (rintro rfl; exact absurd hch (by decide))
  have hsemi : semicolons (seq ++ [ch]) = semicolons seq := by
    rw [semicolons_append, if_neg hne.1, Nat.add_zero]
  have hlast : field (semicolons seq) (seq ++ [ch]) = field (semicolons seq) seq ++ [ch] := by
    rw [field_append, if_pos ⟨rfl, hne.1⟩]
  have hval : paramValue (semicolons seq) (seq ++ [ch]) = paramValue (semicolons seq) seq * 10 + (ch - 48).toNat := by
    unfold paramValue
    rw [hlast, decimalValue_append]
  have hcur : ((if s.cur < 0 then 0 else s.cur) * 10 + (ch - 48).toNat : ℤ) =
      paramValue (semicolons seq) (seq ++ [ch]) := by
    rw [hval, h.cur]
    by_cases hnil : field (semicolons seq) seq = []
    · rw [if_pos hnil, if_pos (by omega)]
      unfold paramValue
      rw [hnil]
      simp [decimalValue]
    rw [if_neg hnil, if_neg (by omega)]
    push_cast
    rfl
  have hint : IsInt ((if s.cur < 0 then 0 else s.cur) * 10 + (ch - 48).toNat) := by
    rw [hcur]
    unfold IsInt
    omega
  refine ⟨?_, hint⟩
  unfold ConsoleState.putcharCsi
  rw [if_neg hne.2, if_pos hch]
  have hother : ∀ i, i ≠ semicolons seq → paramValue i (seq ++ [ch]) = paramValue i seq := by
    intro i hi
    unfold paramValue
    rw [field_append, if_neg fun h => hi h.1]
  refine ⟨h.state, ?_, fun i hi => ?_, ?_, fun i => ?_⟩
  · rw [hsemi]
    exact h.count
  · have hcount := h.count
    change i < s.params.length at hi
    rw [hother i (by omega)]
    exact h.params i hi
  · have hsome : field (semicolons seq) seq ++ [ch] ≠ [] := by simp
    rw [hsemi, hlast, if_neg hsome, ← hcur]
    unfold IsInt at hint
    exact Int.bmod_eq_of_le (by omega) (by omega)
  · by_cases hi : i = semicolons seq
    · rw [hi]
      exact hfits
    · rw [hother i hi]
      exact h.bounded i

theorem ParserInv.semicolon (h : ParserInv s seq) : ParserInv (s.putcharCsi 59) (seq ++ [59]) := by
  have hcount := h.count
  have hkeep : ∀ i, paramValue i (seq ++ [59]) = paramValue i seq := by
    intro i
    unfold paramValue
    rw [field_append, if_neg (by simp)]
  have hcur : (if s.cur < 0 then 0 else s.cur : ℤ) = paramValue (semicolons seq) seq := by
    rw [h.cur]
    by_cases hnil : field (semicolons seq) seq = []
    · rw [if_pos hnil, if_pos (by omega)]
      unfold paramValue
      rw [hnil]
      rfl
    · rw [if_neg hnil, if_neg (by omega)]
  unfold ConsoleState.putcharCsi
  rw [if_neg (by decide), if_neg (by decide), if_pos rfl]
  refine ⟨h.state, ?_, fun i hi => ?_, ?_, fun i => hkeep i ▸ h.bounded i⟩
  · rw [semicolons_append, if_pos rfl]
    dsimp only
    unfold escParamMax at *
    split
    · rw [length_append, length_singleton]
      omega
    · omega
  · rw [hkeep]
    dsimp only at hi ⊢
    split at hi
    · rename_i hroom
      rw [if_pos hroom]
      rw [length_append, length_singleton] at hi
      rcases Nat.lt_or_ge i s.params.length with hlt | hge
      · rw [getD_append _ _ _ _ hlt]
        exact h.params i hlt
      have hi' : i = s.params.length := by omega
      have hsemi : semicolons seq = s.params.length := by
        have hroom' : s.params.length < escParamMax := hroom
        omega
      rw [getD_append_right _ _ _ _ hge, hi', Nat.sub_self, ← hsemi]
      exact hcur
    · rename_i hroom
      rw [if_neg hroom]
      exact h.params i hi
  · have hnil : field (semicolons seq + 1) (seq ++ [59]) = [] := by
      rw [field_append, if_neg (by simp), field_behind (by omega)]
    rw [semicolons_append, if_pos rfl, if_pos hnil]

end Parser

/-! ## Erasing -/

namespace ConsoleState

variable {s : ConsoleState} {x y : ℕ} {n mode : ℤ}

/-- Every coordinate of the screen is a `uint16_t`. -/
def Small (s : ConsoleState) : Prop := s.fb.cols ≤ 2 ^ 16 ∧ s.fb.rows ≤ 2 ^ 16

theorem gotoxy_erases (hsmall : s.Small) (hx : x < s.fb.cols) (hy : y < s.fb.rows) :
    Erases s.fb (s.gotoxy x y).fb (fun c r => c = x ∧ r = y) Nowhere ∧ (s.gotoxy x y).fb.curCol = x ∧
      (s.gotoxy x y).fb.curRow = y := by
  obtain ⟨hcols, hrows⟩ := hsmall
  have hx16 : ((x : ℤ) % 2 ^ 16).toNat = x := by omega
  have hy16 : ((y : ℤ) % 2 ^ 16).toNat = y := by omega
  unfold gotoxy
  rw [hx16, hy16]
  exact moveCursor_erases hx hy

theorem Small.of (h : s.Small) {s' : ConsoleState} {T D : ℕ → ℕ → Prop} (hw : Erases s.fb s'.fb T D) : s'.Small :=
  ⟨hw.cols ▸ h.1, hw.rows ▸ h.2⟩

/-- `console_gotoxy(0, y)` and an erasure that begins in column 0. -/
theorem startLine_erases (hsmall : s.Small) (hcols : 0 < s.fb.cols) (hy : y < s.fb.rows) (hmode : mode = 1 ∨ mode = 2) :
    Erases s.fb ((s.gotoxy 0 y).eraseInLine mode).fb Nowhere fun c r => InLine s.fb.cols 0 mode c ∧ r = y := by
  have hstart := gotoxy_erases hsmall hcols hy
  rw [show ((0 : ℕ) : ℤ) = 0 from rfl] at hstart
  obtain ⟨hmove, hcol, hrow⟩ := hstart
  have hline := (FbScreen.eraseInLine_erases (s := (s.gotoxy 0 y).fb) (hcol ▸ hmove.cols ▸ hcols) mode).1
  rw [hcol, hrow, hmove.cols] at hline
  refine (hmove.trans hline).mono (fun c r => by simp) fun c r ht hd => ?_
  refine absurd (.inr ⟨?_, (ht.resolve_right id).2⟩) hd
  rw [(ht.resolve_right id).1]
  unfold InLine
  omega

theorem eraseRows_erases (hsmall : s.Small) (hcols : 0 < s.fb.cols) (l : List ℕ) (hl : ∀ r ∈ l, r < s.fb.rows) :
    Erases s.fb (s.eraseRows l).fb Nowhere fun c r => c < s.fb.cols ∧ r ∈ l := by
  unfold eraseRows
  induction l generalizing s with
  | nil => exact (Erases.refl s.fb).mono (fun c r => by simp) fun _ _ h => h.elim
  | cons r l ih =>
    have hstep := startLine_erases hsmall hcols (hl r mem_cons_self) (.inr rfl)
    have hrest := ih (s := (s.gotoxy 0 r).eraseInLine 2) (hsmall.of hstep) (hstep.cols ▸ hcols)
      fun r' hr' => hstep.rows ▸ hl r' (mem_cons_of_mem _ hr')
    refine (hstep.trans hrest).mono (fun c r' => ?_) fun _ _ h => (h.elim id id).elim
    rw [show ((s.gotoxy 0 r).eraseInLine 2).fb.cols = s.fb.cols from hstep.cols, mem_cons]
    rw [inLine_whole]
    constructor
    · rintro ⟨h, rfl | h'⟩
      · exact .inl ⟨h, rfl⟩
      · exact .inr ⟨h, h'⟩
    · rintro (⟨h, rfl⟩ | ⟨h, h'⟩)
      · exact ⟨h, .inl rfl⟩
      · exact ⟨h, .inr h'⟩

/-- The cells that an erasure of the display with a mode designates. -/
def InDisplay (fb : FbScreen) (mode : ℤ) (c r : ℕ) : Prop :=
  (c < fb.cols ∧ r < fb.rows) ∧ (mode = 0 ∧ (r = fb.curRow ∧ fb.curCol ≤ c ∨ fb.curRow < r) ∨
      mode = 1 ∧ (r = fb.curRow ∧ c ≤ fb.curCol ∨ r < fb.curRow) ∨ mode = 2 ∨ mode = 3)

theorem inDisplay_below {fb : FbScreen} {c r : ℕ} :
    InDisplay fb 0 c r ↔ (c < fb.cols ∧ r < fb.rows) ∧ (r = fb.curRow ∧ fb.curCol ≤ c ∨ fb.curRow < r) := by
  simp [InDisplay]

theorem inDisplay_above {fb : FbScreen} {c r : ℕ} :
    InDisplay fb 1 c r ↔ (c < fb.cols ∧ r < fb.rows) ∧ (r = fb.curRow ∧ c ≤ fb.curCol ∨ r < fb.curRow) := by
  simp [InDisplay]

/-- `J` blanks what its mode designates, except that mode 1 takes the cursor to column 0 first. -/
theorem eraseInDisplay_erases (hsmall : s.Small) (hon : s.fb.OnScreen) (hmode : mode = 1 → s.fb.curCol = 0) :
    Erases s.fb (s.eraseInDisplay mode).fb Nowhere (InDisplay s.fb mode) ∧
      (s.eraseInDisplay mode).fb.curCol = s.fb.curCol ∧ (s.eraseInDisplay mode).fb.curRow = s.fb.curRow := by
  have hcols : 0 < s.fb.cols := Nat.zero_lt_of_lt hon.col
  have hrow := hon.row
  unfold eraseInDisplay
  dsimp only
  rw [if_neg (show ¬ s.fb.rows ≤ s.fb.curRow by omega)]
  have hback : ∀ s' : ConsoleState, Erases s.fb s'.fb Nowhere (InDisplay s.fb mode) →
      Erases s.fb (s'.gotoxy s.fb.curCol s.fb.curRow).fb Nowhere (InDisplay s.fb mode) ∧
        (s'.gotoxy s.fb.curCol s.fb.curRow).fb.curCol = s.fb.curCol ∧
        (s'.gotoxy s.fb.curCol s.fb.curRow).fb.curRow = s.fb.curRow := by
    intro s' hw
    obtain ⟨hmove, hcol, hrow'⟩ := gotoxy_erases (hsmall.of hw) (hw.cols ▸ hon.col) (hw.rows ▸ hrow)
    refine ⟨(hw.trans hmove).mono (fun c r => by simp) fun c r ht _ => .inr ?_, hcol, hrow'⟩
    -- the cursor comes back to where it was
    intro hvis k
    obtain ⟨rfl, rfl⟩ := ht.resolve_left id
    exact if_pos ⟨hvis, rfl, rfl⟩
  apply hback
  by_cases h0 : mode = 0
  · rw [if_pos h0]
    have hline := (FbScreen.eraseInLine_erases hon.col 0).1
    have hrest := eraseRows_erases (s := s.eraseInLine 0) (hsmall.of hline) (hline.cols ▸ hcols)
      (List.range' (s.fb.curRow + 1) (s.fb.rows - (s.fb.curRow + 1))) fun r hr => by
        rw [mem_range'_1] at hr
        rw [show (s.eraseInLine 0).fb.rows = s.fb.rows from hline.rows]
        omega
    refine (hline.trans hrest).mono (fun c r => ?_) fun _ _ h => (h.elim id id).elim
    rw [show (s.eraseInLine 0).fb.cols = s.fb.cols from hline.cols, mem_range'_1]
    rw [h0, inDisplay_below, inLine_right]
    omega
  · rw [if_neg h0]
    by_cases h1 : mode = 1
    · rw [if_pos h1]
      have habove := eraseRows_erases hsmall hcols (List.range s.fb.curRow) fun r hr =>
        Nat.lt_trans (mem_range.mp hr) hrow
      have hline := startLine_erases (s := s.eraseRows (List.range s.fb.curRow)) (y := s.fb.curRow)
        (hsmall.of habove) (habove.cols ▸ hcols) (habove.rows ▸ hrow) (.inl rfl)
      rw [habove.cols] at hline
      refine (habove.trans hline).mono (fun c r => ?_) fun _ _ h => (h.elim id id).elim
      have hzero := hmode h1
      rw [mem_range, h1, inDisplay_above, inLine_left]
      omega
    · rw [if_neg h1]
      by_cases h2 : mode = 2 ∨ mode = 3
      · rw [if_pos h2]
        refine (eraseRows_erases hsmall hcols (List.range s.fb.rows) fun r hr => mem_range.mp hr).mono
          (fun c r => ?_) fun _ _ h => h.elim
        rw [mem_range]
        unfold InDisplay
        omega
      · rw [if_neg h2]
        refine (Erases.refl s.fb).mono (fun c r => iff_of_false ?_ id) fun _ _ h => h.elim
        unfold InDisplay
        omega

/-- The cells that `P` and `X` designate. -/
def InChars (fb : FbScreen) (n : ℤ) (c r : ℕ) : Prop :=
  r = fb.curRow ∧ fb.curCol ≤ c ∧ (c : ℤ) < fb.curCol + n ∧ c < fb.cols

/-- Where the cursor is after `n` spaces, if the last one does not scroll. -/
def afterSpaces (fb : FbScreen) (x y : ℕ) (n : ℤ) : ℕ × ℕ :=
  if x + n < fb.cols then ((x + n).toNat, y) else (0, if fb.rows ≤ y + 1 then fb.rows - 1 else y + 1)

/-- Spaces from a cell on blank the cells behind it, as long as the last one does not scroll. -/
theorem putSpaces_erases (hsmall : s.Small) (hx : x + k ≤ s.fb.cols) (hy : y < s.fb.rows)
    (hfits : x + k < s.fb.cols ∨ y + 1 < s.fb.rows ∨ s.fb.rows ≤ 1) :
    Erases s.fb ((List.range k).foldl (fun s i => (s.gotoxy (x + i) y).emitRaw 32) s).fb
      (fun c r => (c, r) = (x, y) ∨ (c, r) = afterSpaces s.fb x y k) fun c r => r = y ∧ x ≤ c ∧ c < x + k := by
  induction k with
  | zero => exact (Erases.refl s.fb).mono (fun c r => iff_of_false (by omega) id) fun _ _ h => h.elim
  | succ k ih =>
    have ih := ih (by omega) (by omega)
    rw [range_succ, foldl_append, foldl_cons, foldl_nil]
    obtain ⟨s', hs'⟩ : ∃ s', s' = (List.range k).foldl (fun s i => (s.gotoxy (x + i) y).emitRaw 32) s := ⟨_, rfl⟩
    rw [← hs'] at ih ⊢
    obtain ⟨hmove, hcol, hrow⟩ := gotoxy_erases (s := s') (x := x + k) (y := y) (hsmall.of ih)
      (by rw [ih.cols]; omega) (by rw [ih.rows]; exact hy)
    have hthere := ih.trans hmove
    have hspace := (putSpace_erases (s := (s'.gotoxy ((x + k : ℕ) : ℤ) y).fb)
      (by rw [hcol, hrow, hthere.cols, hthere.rows]; omega)).1
    have hafter : (s'.gotoxy ((x + k : ℕ) : ℤ) y).fb.afterSpace = afterSpaces s.fb x y (k + 1 : ℕ) := by
      unfold afterSpace afterSpaces
      rw [hcol, hrow, hthere.cols, hthere.rows]
      by_cases hlast : x + k + 1 < s.fb.cols
      · rw [if_neg (by omega), if_pos (by omega)]
        exact Prod.ext (by dsimp only; omega) rfl
      · rw [if_pos (by omega), if_neg (show ¬ (x : ℤ) + (k + 1 : ℕ) < s.fb.cols by omega)]
    rw [hafter, hcol, hrow] at hspace
    push_cast at hspace
    refine (hthere.trans hspace).mono (fun c r => by simp only [or_false]; omega) fun c r ht hd => .inl ?_
    -- the cell that the cursor was on after `k` spaces is blanked now
    have hbefore : afterSpaces s.fb x y k = (x + k, y) := by
      unfold afterSpaces
      rw [if_pos (by omega)]
      exact Prod.ext (by dsimp only; omega) rfl
    rcases ht with (ht | ht) | ht
    · rcases ht with ht | ht
      · exact .inl ht
      · rw [hbefore, Prod.mk.injEq] at ht
        exact absurd (.inr ⟨ht.1, ht.2⟩) hd
    · exact absurd (.inr ⟨ht.1, ht.2⟩) hd
    · exact .inr ht

end ConsoleState

namespace ConsoleState

variable {s : ConsoleState} {seq : Bytes} {ch : UInt8} {n : ℤ}

/-- The cell that the cursor is on when `P` and `X` have drawn their spaces. -/
def behindChars (fb : FbScreen) (n : ℤ) : ℕ × ℕ := afterSpaces fb fb.curCol fb.curRow n

/-- `P` and `X` blank what they designate, unless the last space would scroll the screen. -/
theorem eraseCharsAtCursor_erases (hsmall : s.Small) (hon : s.fb.OnScreen) (hn : 1 ≤ n)
    (hfits : s.fb.curCol + n < s.fb.cols ∨ s.fb.curRow + 1 < s.fb.rows ∨ s.fb.rows ≤ 1)
    (hbehind : s.fb.Plain (behindChars s.fb n).1 (behindChars s.fb n).2) :
    Erases s.fb (s.eraseCharsAtCursor n).fb Nowhere (InChars s.fb n) ∧
      (s.eraseCharsAtCursor n).fb.curCol = s.fb.curCol ∧ (s.eraseCharsAtCursor n).fb.curRow = s.fb.curRow := by
  have hcol := hon.col
  unfold eraseCharsAtCursor
  dsimp only
  rw [if_neg (by omega)]
  obtain ⟨k, hk⟩ : ∃ k, k = (if (s.fb.cols : ℤ) - s.fb.curCol < n then (s.fb.cols : ℤ) - s.fb.curCol else n).toNat :=
    ⟨_, rfl⟩
  rw [← hk]
  have hkval : (k : ℤ) = min n ((s.fb.cols : ℤ) - s.fb.curCol) := by
    rw [hk]
    split <;> omega
  have hw := putSpaces_erases (k := k) (x := s.fb.curCol) hsmall (by omega) hon.row (by omega)
  have hafter : afterSpaces s.fb s.fb.curCol s.fb.curRow k = behindChars s.fb n := by
    unfold behindChars afterSpaces
    by_cases hlast : s.fb.curCol + n < s.fb.cols
    · rw [if_pos hlast, if_pos (by omega), show (k : ℤ) = n by omega]
    · rw [if_neg hlast, if_neg (by omega)]
  obtain ⟨s', hs'⟩ : ∃ s', s' = (List.range k).foldl
    (fun t i => (t.gotoxy (s.fb.curCol + i) s.fb.curRow).emitRaw 32) s := ⟨_, rfl⟩
  rw [← hs', hafter] at hw
  rw [← hs']
  obtain ⟨hmove, hmcol, hmrow⟩ := gotoxy_erases (s := s') (hsmall.of hw) (hw.cols ▸ hon.col) (hw.rows ▸ hon.row)
  have hhere : s.fb.Plain s.fb.curCol s.fb.curRow := fun hvis k => if_pos ⟨hvis, rfl, rfl⟩
  refine ⟨(hw.trans hmove).mono (fun c r => ?_) fun c r ht _ => .inr ?_, hmcol, hmrow⟩
  · unfold InChars
    simp only [or_false]
    omega
  · rcases ht with (ht | ht) | ⟨rfl, rfl⟩
    · obtain ⟨rfl, rfl⟩ := Prod.mk.inj ht
      exact hhere
    · rw [← ht] at hbehind
      exact hbehind
    · exact hhere

/-! ## Moving -/

def clampTo (n : ℤ) (size : ℕ) : ℕ := (max 0 (min n (size - 1))).toNat

theorem clampTo_lt {size : ℕ} (h : 0 < size) (n : ℤ) : clampTo n size < size := by
  unfold clampTo
  omega

theorem cupCoordinate_eq {size : ℕ} (h : 0 < size) (n : ℤ) :
    cupCoordinate n size - 1 = (clampTo (max 1 n - 1) size : ℤ) := by
  unfold cupCoordinate clampTo
  dsimp only
  split <;> split <;> omega

theorem clampCoordinate_eq {size : ℕ} (h : 0 < size) (n : ℤ) : clampCoordinate n size = (clampTo n size : ℤ) := by
  unfold clampCoordinate clampTo
  dsimp only
  split <;> split <;> omega

/-- The number of `A`, `B`, `C`, `D`, `P` and `X`: one where none or 0 is written. -/
def seqCount (seq : Bytes) : ℤ := max 1 (paramValue 0 seq : ℤ)

def moveTarget (seq : Bytes) (ch : UInt8) (x y : ℕ) : Option (ℤ × ℤ) :=
  if ch = 72 ∨ ch = 102 then some (max 1 (paramValue 1 seq : ℤ) - 1, max 1 (paramValue 0 seq : ℤ) - 1)
  else if ch = 65 then some (x, y - seqCount seq)
  else if ch = 66 then some (x, y + seqCount seq)
  else if ch = 67 then some (x + seqCount seq, y)
  else if ch = 68 then some (x - seqCount seq, y)
  else none

def erasure (fb : FbScreen) (seq : Bytes) (ch : UInt8) : Option (ℕ → ℕ → Prop) :=
  if ch = 74 then some (InDisplay fb (paramValue 0 seq))
  else if ch = 75 then some fun c r => FbScreen.InLine fb.cols fb.curCol (paramValue 0 seq) c ∧ r = fb.curRow
  else if ch = 80 ∨ ch = 88 then some (InChars fb (seqCount seq))
  else none

/-- The arithmetic of one byte behind `ESC [` stays in the `int`s: a digit that is added, and the
coordinate of a move. -/
structure NoOverflow (s : ConsoleState) (ch : UInt8) : Prop where
  digit : isDigit ch = true → IsInt ((if s.cur < 0 then 0 else s.cur) * 10 + (ch - 48).toNat)
  up : ch = 65 → IsInt (s.fb.curRow - if s.escFirstParam 1 < 1 then 1 else s.escFirstParam 1)
  down : ch = 66 → IsInt (s.fb.curRow + if s.escFirstParam 1 < 1 then 1 else s.escFirstParam 1)
  right : ch = 67 → IsInt (s.fb.curCol + if s.escFirstParam 1 < 1 then 1 else s.escFirstParam 1)
  left : ch = 68 → IsInt (s.fb.curCol - if s.escFirstParam 1 < 1 then 1 else s.escFirstParam 1)

/-- What a byte behind `ESC [` does as its sequence says. -/
structure SeqExact (s : ConsoleState) (seq : Bytes) (ch : UInt8) (s' : ConsoleState) : Prop where
  ints : NoOverflow s ch
  moved : ∀ x y, moveTarget seq ch s.fb.curCol s.fb.curRow = some (x, y) →
    s'.fb.curCol = clampTo x s.fb.cols ∧ s'.fb.curRow = clampTo y s.fb.rows
  erased : ∀ D, erasure s.fb seq ch = some D →
    FbScreen.Wiped s.fb s'.fb D ∧ s'.fb.curCol = s.fb.curCol ∧ s'.fb.curRow = s.fb.curRow

/-- The bytes for which the console does so: numbers and sums are `int`s, mode 1 of `J` is used in
column 0, `P` and `X` do not reach the end of the last line, and the cursor leaves no trace in the cell behind what
they blank. -/
structure SeqSound (s : ConsoleState) (seq : Bytes) (ch : UInt8) : Prop where
  small : s.Small
  digit : isDigit ch = true → paramValue (semicolons seq) (seq ++ [ch]) < 2 ^ 31
  down : ch = 66 → s.fb.curRow + seqCount seq < 2 ^ 31
  right : ch = 67 → s.fb.curCol + seqCount seq < 2 ^ 31
  display : ch = 74 → paramValue 0 seq = 1 → s.fb.curCol = 0
  chars : ch = 80 ∨ ch = 88 → s.fb.curCol + seqCount seq < s.fb.cols ∨ s.fb.curRow + 1 < s.fb.rows ∨ s.fb.rows ≤ 1
  behind : ch = 80 ∨ ch = 88 → s.fb.Plain (behindChars s.fb (seqCount seq)).1 (behindChars s.fb (seqCount seq)).2

theorem int32_eq (h : IsInt n) : int32 n = n := by
  unfold IsInt at h
  exact Int.bmod_eq_of_le (by omega) (by omega)

theorem SeqSound.noOverflow (h : SeqSound s seq ch) (hp : ParserInv s seq) (hon : s.fb.OnScreen) : NoOverflow s ch := by
  obtain ⟨hcols, hrows⟩ := h.small
  have hcol := hon.col
  have hrow := hon.row
  have hparam := hp.bounded 0
  have hcount := hp.countParam
  have hdown := h.down
  have hright := h.right
  unfold seqCount at hdown hright
  constructor
  · intro hd
    exact (hp.digit hd (h.digit hd)).2
  · intro _
    rw [hcount]
    unfold IsInt
    omega
  · intro hch
    rw [hcount]
    have := hdown hch
    unfold IsInt
    omega
  · intro hch
    rw [hcount]
    have := hright hch
    unfold IsInt
    omega
  · intro _
    rw [hcount]
    unfold IsInt
    omega

theorem gotoxy_clamp (hsmall : s.Small) (hon : s.fb.OnScreen) (x y : ℤ) :
    (s.gotoxy (clampTo x s.fb.cols) (clampTo y s.fb.rows)).fb.curCol = clampTo x s.fb.cols ∧
      (s.gotoxy (clampTo x s.fb.cols) (clampTo y s.fb.rows)).fb.curRow = clampTo y s.fb.rows :=
  (gotoxy_erases hsmall (clampTo_lt (Nat.zero_lt_of_lt hon.col) x) (clampTo_lt (Nat.zero_lt_of_lt hon.row) y)).2

theorem cursorMove_target (h : SeqSound s seq ch) (hp : ParserInv s seq) (hon : s.fb.OnScreen) {x y : ℤ}
    (hch : ch = 65 ∨ ch = 66 ∨ ch = 67 ∨ ch = 68)
    (htarget : moveTarget seq ch s.fb.curCol s.fb.curRow = some (x, y)) :
    (s.cursorMove ch).fb.curCol = clampTo x s.fb.cols ∧ (s.cursorMove ch).fb.curRow = clampTo y s.fb.rows := by
  have hints := h.noOverflow hp hon
  have hcols : 0 < s.fb.cols := Nat.zero_lt_of_lt hon.col
  have hrows : 0 < s.fb.rows := Nat.zero_lt_of_lt hon.row
  have hcount : (if s.escFirstParam 1 < 1 then 1 else s.escFirstParam 1) = seqCount seq := hp.countParam
  unfold cursorMove
  dsimp only
  rw [hcount]
  rcases hch with rfl | rfl | rfl | rfl
  · have hint := int32_eq (hcount ▸ hints.up rfl)
    have hxy : some ((s.fb.curCol : ℤ), s.fb.curRow - seqCount seq) = some (x, y) := htarget
    rw [if_pos rfl, hint, Option.some.inj hxy, clampCoordinate_eq hcols, clampCoordinate_eq hrows]
    exact gotoxy_clamp h.small hon x y
  · have hint := int32_eq (hcount ▸ hints.down rfl)
    have hxy : some ((s.fb.curCol : ℤ), s.fb.curRow + seqCount seq) = some (x, y) := htarget
    rw [if_neg (by decide), if_pos rfl, hint, Option.some.inj hxy, clampCoordinate_eq hcols, clampCoordinate_eq hrows]
    exact gotoxy_clamp h.small hon x y
  · have hint := int32_eq (hcount ▸ hints.right rfl)
    have hxy : some (s.fb.curCol + seqCount seq, (s.fb.curRow : ℤ)) = some (x, y) := htarget
    rw [if_neg (by decide), if_neg (by decide), if_pos rfl, hint, Option.some.inj hxy, clampCoordinate_eq hcols,
      clampCoordinate_eq hrows]
    exact gotoxy_clamp h.small hon x y
  · have hint := int32_eq (hcount ▸ hints.left rfl)
    have hxy : some (s.fb.curCol - seqCount seq, (s.fb.curRow : ℤ)) = some (x, y) := htarget
    rw [if_neg (by decide), if_neg (by decide), if_neg (by decide), hint, Option.some.inj hxy, clampCoordinate_eq hcols,
      clampCoordinate_eq hrows]
    exact gotoxy_clamp h.small hon x y

theorem cup_target (hp : ParserInv s seq) (hon : s.fb.OnScreen) {x y : ℤ}
    (hch : ch = 72 ∨ ch = 102) (htarget : moveTarget seq ch s.fb.curCol s.fb.curRow = some (x, y)) :
    s.gotoxy (cupCoordinate (s.escParamOr 1 1) s.fb.cols - 1) (cupCoordinate (s.escParamOr 0 1) s.fb.rows - 1) =
      s.gotoxy (clampTo x s.fb.cols) (clampTo y s.fb.rows) := by
  have hcols : 0 < s.fb.cols := Nat.zero_lt_of_lt hon.col
  have hrows : 0 < s.fb.rows := Nat.zero_lt_of_lt hon.row
  have hone : ∀ i < 2, max 1 (s.escParamOr i 1) = max 1 (paramValue i seq : ℤ) := by
    intro i hi
    rw [hp.paramOr hi]
    split <;> omega
  unfold moveTarget at htarget
  rw [if_pos hch, Option.some.injEq, Prod.mk.injEq] at htarget
  rw [cupCoordinate_eq hcols, cupCoordinate_eq hrows, hone 1 (by omega), hone 0 (by omega), htarget.1, htarget.2]

/-- A sound byte behind `ESC [` does what its sequence says. -/
theorem putcharCsi_exact (h : SeqSound s seq ch) (hp : ParserInv s seq) (hon : s.fb.OnScreen) :
    SeqExact s seq ch (s.putcharCsi ch) := by
  refine ⟨h.noOverflow hp hon, fun x y htarget => ?_, fun D hD => ?_⟩
  · by_cases hcup : ch = 72 ∨ ch = 102
    · have hnot : ch ≠ 63 ∧ ¬ isDigit ch = true ∧ ch ≠ 59 ∧ ch ≠ 109 := by
        rcases hcup with rfl | rfl <;> decide
      unfold putcharCsi
      rw [if_neg hnot.1, if_neg hnot.2.1, if_neg hnot.2.2.1, if_neg hnot.2.2.2, if_pos hcup,
        cup_target hp hon hcup htarget]
      exact gotoxy_clamp h.small hon x y
    · have hmove : ch = 65 ∨ ch = 66 ∨ ch = 67 ∨ ch = 68 := by
        unfold moveTarget at htarget
        rw [if_neg hcup] at htarget
        by_contra hnone
        simp only [not_or] at hnone
        rw [if_neg hnone.1, if_neg hnone.2.1, if_neg hnone.2.2.1, if_neg hnone.2.2.2] at htarget
        exact absurd htarget (by simp)
      have hnot : ch ≠ 63 ∧ ¬ isDigit ch = true ∧ ch ≠ 59 ∧ ch ≠ 109 := by
        rcases hmove with rfl | rfl | rfl | rfl <;> decide
      unfold putcharCsi
      rw [if_neg hnot.1, if_neg hnot.2.1, if_neg hnot.2.2.1, if_neg hnot.2.2.2, if_neg hcup, if_pos hmove]
      exact cursorMove_target h hp hon hmove htarget
  · unfold erasure at hD
    split at hD
    · rename_i hJ
      subst hJ
      have hall := @eraseInDisplay_erases s (s.escFirstParam 0) h.small hon fun hone =>
        h.display rfl (by rw [hp.modeParam] at hone; exact_mod_cast hone)
      have hmode := hp.modeParam
      change FbScreen.Wiped s.fb (s.eraseInDisplay (s.escFirstParam 0)).fb _ ∧
        (s.eraseInDisplay (s.escFirstParam 0)).fb.curCol = _ ∧ (s.eraseInDisplay (s.escFirstParam 0)).fb.curRow = _
      rw [hmode] at hall ⊢
      exact Option.some.inj hD ▸ hall.imp_left Erases.wiped
    · split at hD
      · rename_i hK
        subst hK
        have hall := FbScreen.eraseInLine_erases hon.col (s.escFirstParam 0)
        have hmode := hp.modeParam
        change FbScreen.Wiped s.fb (s.fb.eraseInLine (s.escFirstParam 0)) _ ∧
          (s.fb.eraseInLine (s.escFirstParam 0)).curCol = _ ∧ (s.fb.eraseInLine (s.escFirstParam 0)).curRow = _
        rw [hmode] at hall ⊢
        exact Option.some.inj hD ▸ hall.imp_left Erases.wiped
      · split at hD
        · rename_i hPX
          have hcount : (if s.escFirstParam 1 < 1 then 1 else s.escFirstParam 1) = seqCount seq := hp.countParam
          have hall := eraseCharsAtCursor_erases h.small hon (le_max_left 1 (paramValue 0 seq : ℤ)) (h.chars hPX)
            (h.behind hPX)
          have hnot : ch ≠ 63 ∧ ¬ isDigit ch = true ∧ ch ≠ 59 ∧ ch ≠ 109 ∧ ¬ (ch = 72 ∨ ch = 102) ∧
              ¬ (ch = 65 ∨ ch = 66 ∨ ch = 67 ∨ ch = 68) ∧ ch ≠ 74 ∧ ch ≠ 75 := by
            rcases hPX with rfl | rfl <;> decide
          obtain ⟨h1, h2, h3, h4, h5, h6, h7, h8⟩ := hnot
          unfold putcharCsi
          rw [if_neg h1, if_neg h2, if_neg h3, if_neg h4, if_neg h5, if_neg h6, if_neg h7, if_neg h8, if_pos hPX,
            hcount]
          exact Option.some.inj hD ▸ hall.imp_left Erases.wiped
        · exact absurd hD (by simp)

/-! ## Streams -/

/-- What the console is given: a byte, or the blinking of the cursor. -/
inductive Input
  | byte (ch : UInt8)
  | blink
  deriving DecidableEq, Repr

def step (s : ConsoleState) : Input → ConsoleState
  | .byte ch => s.putchar ch
  | .blink => { s with fb := s.fb.blink }

def phaseStep (p : EscPhase) : Input → EscPhase
  | .byte ch => p.next ch
  | .blink => p

def StepExact (s : ConsoleState) : EscPhase → Input → ConsoleState → Prop
  | .csi seq, .byte ch, s' => SeqExact s seq ch s'
  | _, _, _ => True

/-- A byte of a sequence is one for which the console does so. -/
def StepSound (s : ConsoleState) : EscPhase → Input → Prop
  | .csi seq, .byte ch => SeqSound s seq ch
  | _, _ => True

/-- In a stream the cursor is on the screen behind each input. -/
def OnScreenAll (s : ConsoleState) : List Input → Prop
  | [] => s.fb.OnScreen
  | i :: is => s.fb.OnScreen ∧ OnScreenAll (s.step i) is

def Exact (s : ConsoleState) (p : EscPhase) : List Input → Prop
  | [] => True
  | i :: is => StepExact s p i (s.step i) ∧ Exact (s.step i) (phaseStep p i) is

def Sound (s : ConsoleState) (p : EscPhase) : List Input → Prop
  | [] => True
  | i :: is => StepSound s p i ∧ Sound (s.step i) (phaseStep p i) is

theorem gotoxy_onScreen (hon : s.fb.OnScreen) (x y : ℤ) : (s.gotoxy x y).fb.OnScreen := hon.moveCursor _ _

theorem eraseInLine_onScreen (hon : s.fb.OnScreen) (mode : ℤ) : (s.eraseInLine mode).fb.OnScreen :=
  hon.eraseInLine mode

theorem emitRaw_onScreen (hon : s.fb.OnScreen) (ch : UInt8) : (s.emitRaw ch).fb.OnScreen := hon.putchar ch

theorem escReset_onScreen (hon : s.fb.OnScreen) : s.escReset.fb.OnScreen := hon

theorem eraseRows_onScreen (hon : s.fb.OnScreen) (l : List ℕ) : (s.eraseRows l).fb.OnScreen := by
  unfold eraseRows
  induction l generalizing s with
  | nil => exact hon
  | cons r l ih => exact ih (eraseInLine_onScreen (gotoxy_onScreen hon 0 r) 2)

theorem eraseInDisplay_onScreen (hon : s.fb.OnScreen) (mode : ℤ) : (s.eraseInDisplay mode).fb.OnScreen := by
  unfold eraseInDisplay
  dsimp only
  apply gotoxy_onScreen
  split
  · exact eraseRows_onScreen (eraseInLine_onScreen hon 0) _
  split
  · exact eraseInLine_onScreen (gotoxy_onScreen (eraseRows_onScreen hon _) 0 _) 1
  split
  · exact eraseRows_onScreen hon _
  · exact hon

theorem eraseCharsAtCursor_onScreen (hon : s.fb.OnScreen) (n : ℤ) : (s.eraseCharsAtCursor n).fb.OnScreen := by
  unfold eraseCharsAtCursor
  dsimp only
  split
  · exact hon
  rename_i hsome
  apply gotoxy_onScreen
  generalize List.range _ = l
  generalize hx : s.fb.curCol = x
  generalize hy : s.fb.curRow = y
  clear hx hy hsome
  induction l generalizing s with
  | nil => exact hon
  | cons i l ih =>
    exact ih (emitRaw_onScreen (gotoxy_onScreen hon _ _) 32)

theorem applySgr_fb (s : ConsoleState) : s.applySgr.fb.OnScreen ↔ s.fb.OnScreen := by
  have hcolor : ∀ t : ConsoleState, t.applyColor.fb.OnScreen ↔ t.fb.OnScreen :=
    fun t => ⟨fun h => ⟨h.col, h.row⟩, fun h => ⟨h.col, h.row⟩⟩
  have hone : ∀ (t : ConsoleState) (p : ℤ), (t.applySgrParam p).fb = t.fb := by
    intro t p
    unfold applySgrParam
    simp only [apply_ite ConsoleState.fb, ite_self]
  have hall : ∀ (ps : List ℤ) (t : ConsoleState), (ps.foldl applySgrParam t).fb = t.fb := by
    intro ps
    induction ps with
    | nil => exact fun t => rfl
    | cons p ps ih => exact fun t => (ih _).trans (hone t p)
  unfold applySgr
  dsimp only
  generalize (if 0 ≤ s.cur ∧ s.params.length < escParamMax then s.params ++ [s.cur] else s.params) = ps
  split
  · rw [hcolor]
  · rw [hcolor, hall]

theorem ite_onScreen {c : Prop} [Decidable c] {t : ConsoleState} (hs : s.fb.OnScreen) (ht : t.fb.OnScreen) :
    (if c then s else t).fb.OnScreen := by
  split
  · exact hs
  · exact ht

theorem putcharCsi_onScreen (hon : s.fb.OnScreen) (ch : UInt8) : (s.putcharCsi ch).fb.OnScreen := by
  unfold putcharCsi
  refine ite_onScreen (by exact hon) ?_
  refine ite_onScreen (by exact hon) ?_
  refine ite_onScreen (by exact hon) ?_
  apply ite_onScreen (escReset_onScreen ((applySgr_fb s).mpr hon))
  apply ite_onScreen (escReset_onScreen (gotoxy_onScreen hon _ _))
  apply ite_onScreen (escReset_onScreen (gotoxy_onScreen hon _ _))
  apply ite_onScreen (escReset_onScreen (eraseInDisplay_onScreen hon _))
  apply ite_onScreen (escReset_onScreen (eraseInLine_onScreen hon _))
  exact ite_onScreen (escReset_onScreen (eraseCharsAtCursor_onScreen hon _)) (escReset_onScreen hon)

theorem step_onScreen (hon : s.fb.OnScreen) (i : Input) : (s.step i).fb.OnScreen := by
  cases i with
  | blink => exact hon.blink
  | byte ch =>
    unfold step putchar
    dsimp only
    split
    · exact ite_onScreen hon (emitRaw_onScreen hon ch)
    · exact ite_onScreen hon (escReset_onScreen (emitRaw_onScreen (emitRaw_onScreen hon 27) ch))
    · exact putcharCsi_onScreen hon ch

theorem onScreenAll (hon : s.fb.OnScreen) (is : List Input) : s.OnScreenAll is := by
  induction is generalizing s with
  | nil => exact hon
  | cons i is ih => exact ⟨hon, ih (step_onScreen hon i)⟩

theorem putcharCsi_final (hmark : ch ≠ 63) (hch : seqByte ch = false) : (s.putcharCsi ch).escState = .text := by
  unfold seqByte at hch
  simp only [decide_eq_false_iff_not, not_or] at hch
  unfold putcharCsi
  rw [if_neg hmark, if_neg hch.2.1, if_neg hch.2.2]
  split_ifs <;> rfl

/-- The statics follow the phase, as long as the numbers are `int`s. -/
theorem phase_step {p : EscPhase} (hp : PhaseInv s p) (i : Input) (h : s.StepSound p i) :
    PhaseInv (s.step i) (phaseStep p i) := by
  cases i with
  | blink =>
    cases p with
    | text => exact hp
    | esc => exact hp
    | csi seq => exact ⟨hp.state, hp.count, hp.params, hp.cur, hp.bounded⟩
  | byte ch =>
    cases p with
    | text =>
      have hstate : s.escState = .text := hp
      unfold step putchar phaseStep EscPhase.next
      rw [hstate]
      dsimp only
      split
      · rfl
      · exact hstate
    | esc =>
      have hstate : s.escState = .esc := hp
      unfold step putchar phaseStep EscPhase.next
      rw [hstate]
      dsimp only
      split
      · refine ⟨rfl, rfl, fun i hi => absurd hi (Nat.not_lt_zero i), rfl, fun i => ?_⟩
        rw [show paramValue i [] = 0 by cases i <;> rfl]
        decide
      · rfl
    | csi seq =>
      have hstate : s.escState = .csi := ParserInv.state hp
      have hsound : SeqSound s seq ch := h
      have hput : s.step (.byte ch) = s.putcharCsi ch := by
        unfold step putchar
        rw [hstate]
      rw [hput]
      unfold phaseStep EscPhase.next
      dsimp only
      by_cases hmark : ch = 63
      · rw [if_pos hmark]
        unfold putcharCsi
        rw [if_pos hmark]
        exact ⟨hp.state, hp.count, hp.params, hp.cur, hp.bounded⟩
      rw [if_neg hmark]
      cases hbyte : seqByte ch with
      | false => exact putcharCsi_final hmark hbyte
      | true =>
        rw [if_pos rfl]
        by_cases hdigit : isDigit ch = true
        · exact (ParserInv.digit hp hdigit (hsound.digit hdigit)).1
        have hsemi : ch = 59 := by
          unfold seqByte at hbyte
          simp only [decide_eq_true_eq] at hbyte
          exact (hbyte.resolve_left hmark).resolve_left hdigit
        rw [hsemi]
        exact ParserInv.semicolon hp

theorem exact_of_sound {p : EscPhase} (hp : PhaseInv s p) (hon : s.fb.OnScreen) (is : List Input) (h : s.Sound p is) :
    s.Exact p is := by
  induction is generalizing s p with
  | nil => trivial
  | cons i is ih =>
    refine ⟨?_, ih (phase_step hp i h.1) (step_onScreen hon i) h.2⟩
    cases p with
    | text => trivial
    | esc => trivial
    | csi seq =>
      cases i with
      | blink => trivial
      | byte ch =>
        have hput : s.step (.byte ch) = s.putcharCsi ch := by
          unfold step putchar
          rw [ParserInv.state hp]
        rw [hput]
        exact putcharCsi_exact h.1 hp hon

/-- `console_init` with the framebuffer console as the backend. -/
def init (fontPast : UInt8 → UInt8) (cols rows : ℕ) (fg bg : UInt32) : ConsoleState where
  fb := FbScreen.init fontPast cols rows fg bg
  fg := fg
  bg := bg
  defaultFg := fg
  defaultBg := bg
  escState := .text
  qmark := false
  params := []
  cur := -1

/-- On every stream the cursor stays on the screen, and if every byte of its sequences is sound,
every sequence does what it says. -/
theorem escapes_exact (fontPast : UInt8 → UInt8) (cols rows : ℕ) (fg bg : UInt32) (is : List Input) :
    (init fontPast cols rows fg bg).OnScreenAll is ∧
      ((init fontPast cols rows fg bg).Sound .text is → (init fontPast cols rows fg bg).Exact .text is) := by
  have hon : (init fontPast cols rows fg bg).fb.OnScreen := FbScreen.OnScreen.init fontPast cols rows fg bg
  have hphase : PhaseInv (init fontPast cols rows fg bg) .text := show EscState.text = .text from rfl
  exact ⟨onScreenAll hon is, exact_of_sound hphase hon is⟩

instance (s : ConsoleState) : Decidable s.Small := inferInstanceAs (Decidable (_ ∧ _))

def inputs (t : Bytes) : List Input := t.map .byte

/-- On three columns and two rows: `a`, a newline and `ESC[3X` lose the line above; `ab` and `ESC[1J`
leave the `b`; the number of `ESC[2147483648` is no `int`; and `a_`, a return and `ESC[1X` wipe the `_` out. -/
theorem escapes_inexact : ¬ (init (fun _ => 0) 3 2 15 0).Exact .text (inputs [97, 10, 27, 91, 51, 88]) ∧
      ¬ (init (fun _ => 0) 3 2 15 0).Exact .text (inputs [97, 98, 27, 91, 49, 74]) ∧
      ¬ (init (fun _ => 0) 3 2 15 0).Exact .text (inputs [27, 91, 50, 49, 52, 55, 52, 56, 51, 54, 52, 56]) ∧
      ¬ (init (fun _ => 0) 3 2 15 0).Exact .text (inputs [97, 95, 13, 27, 91, 49, 88]) := by
  refine ⟨fun h => ?_, fun h => ?_, fun h => ?_, fun h => ?_⟩
  · obtain ⟨-, -, -, -, -, h, -⟩ := h
    have hkept := (h.erased _ rfl).1.outside 0 0 fun hin => absurd hin.1 (by decide +kernel)
    exact absurd hkept (by decide +kernel)
  · obtain ⟨-, -, -, -, -, h, -⟩ := h
    have hblank := (h.erased _ rfl).1.inside 1 0
      ⟨by decide +kernel, .inr (.inl ⟨by decide +kernel, .inl (by decide +kernel)⟩)⟩
    exact absurd hblank (by decide +kernel)
  · obtain ⟨-, -, -, -, -, -, -, -, -, -, -, h, -⟩ := h
    exact absurd (h.ints.digit (by decide)) (by decide +kernel)
  · obtain ⟨-, -, -, -, -, -, h, -⟩ := h
    have hkept := (h.erased _ rfl).1.outside 1 0 fun hin => absurd hin.2.2.1 (by decide +kernel)
    exact absurd (hkept.2 0) (by decide +kernel)

/-- On the same screen `ESC[2;2H` is as it should be. -/
theorem escapes_exact_plain : (init (fun _ => 0) 3 2 15 0).Exact .text (inputs [27, 91, 50, 59, 50, 72]) := by
  apply (escapes_exact (fun _ => 0) 3 2 15 0 _).2
  refine ⟨trivial, trivial, ?_, ?_, ?_, ?_, trivial⟩ <;> constructor <;> decide +kernel

end ConsoleState

end EdgeOS
