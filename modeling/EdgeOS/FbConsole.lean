import EdgeOS.Ext4
import Mathlib.Data.List.Range

namespace EdgeOS

/-!
The console on the framebuffer, `src/fb_console.c`. A cell is what `draw_cell` draws, a character in
two colours; the cursor is a line over the last row of its pixels.
-/

/-- The last row of `font8x8_basic[ch]`, the one that the cursor's line covers. The array ends behind 127; `past` is
what lies there. -/
def fontLastRow (past : UInt8 → UInt8) (ch : UInt8) : UInt8 :=
  if 128 ≤ ch then past ch
  else if ch = 0x2C ∨ ch = 0x3B then 0x06
  else if ch = 0x5F then 0xFF
  else if ch = 0x67 ∨ ch = 0x79 then 0x1F
  else if ch = 0x6A then 0x1E
  else if ch = 0x70 then 0x0F
  else if ch = 0x71 then 0x78
  else 0

/-- What `draw_cell` draws. -/
structure Glyph where
  ch : UInt8
  fg : UInt32
  bg : UInt32
  deriving DecidableEq, Repr

/-- A cell, and the colour that the cursor has left on its line. -/
structure Cell extends Glyph where
  line : Option UInt32 := none
  deriving DecidableEq, Repr

def vgaRgb (idx : UInt32) : UInt32 :=
  [0xFF000000, 0xFF0000AA, 0xFF00AA00, 0xFF00AAAA, 0xFFAA0000, 0xFFAA00AA, 0xFFAA5500, 0xFFAAAAAA,
   0xFF555555, 0xFF5555FF, 0xFF55FF55, 0xFF55FFFF, 0xFFFF5555, 0xFFFF55FF, 0xFFFFFF55, 0xFFFFFFFF].getD
    (idx &&& 0x0F).toNat 0

/-- The statics of `fb_console.c`; `visible` is `cursor_enabled && cursor_visible`. -/
structure FbScreen where
  fontPast : UInt8 → UInt8
  cols : ℕ
  rows : ℕ
  curCol : ℕ
  curRow : ℕ
  fgIdx : UInt32
  bgIdx : UInt32
  visible : Bool
  cells : ℕ → ℕ → Cell

namespace FbScreen

variable (s : FbScreen)

def setCell (col row : ℕ) (x : Cell) : FbScreen :=
  { s with cells := fun c r => if c = col ∧ r = row then x else s.cells c r }

/-- `draw_cell` in the current colours. -/
def drawCell (col row : ℕ) (ch : UInt8) : FbScreen :=
  s.setCell col row { ch := ch, fg := vgaRgb s.fgIdx, bg := vgaRgb s.bgIdx }

def drawCursor : FbScreen :=
  if s.visible then
    s.setCell s.curCol s.curRow { s.cells s.curCol s.curRow with line := some (vgaRgb s.fgIdx) }
  else s

def eraseCursor : FbScreen :=
  if s.visible then
    s.setCell s.curCol s.curRow { s.cells s.curCol s.curRow with line := some (vgaRgb s.bgIdx) }
  else s

/-- `scroll_up_one_row`: the last row is filled with zero bytes. A screen of one row stays. -/
def scrollUpOneRow : FbScreen :=
  if s.rows ≤ 1 then s
  else
    { s with
      cells := fun c r =>
        if r + 1 < s.rows then s.cells c (r + 1)
        else if r + 1 = s.rows then { ch := 32, fg := 0, bg := 0 }
        else s.cells c r }

def newline : FbScreen :=
  let s := { s with curCol := 0, curRow := s.curRow + 1 }
  if s.rows ≤ s.curRow then { s.scrollUpOneRow with curRow := s.rows - 1 } else s

/-- `be_init` on a framebuffer of that many cells. -/
def init (fontPast : UInt8 → UInt8) (cols rows : ℕ) (fg bg : UInt32) : FbScreen :=
  drawCursor
    { fontPast := fontPast, cols := max cols 1, rows := max rows 1, curCol := 0, curRow := 0, fgIdx := fg &&& 0x0F, bgIdx := bg &&& 0x0F,
      visible := true, cells := fun _ _ => { ch := 32, fg := vgaRgb (bg &&& 0x0F), bg := vgaRgb (bg &&& 0x0F) } }

/-- `be_set_color`. -/
def setColor (fg bg : UInt32) : FbScreen := { s with fgIdx := fg &&& 0x0F, bgIdx := bg &&& 0x0F }

/-- `be_move_cursor` on coordinates that are not negative. -/
def moveCursor (x y : ℕ) : FbScreen :=
  let s := s.eraseCursor
  let s := if x < s.cols then { s with curCol := x } else s
  let s := if y < s.rows then { s with curRow := y } else s
  s.drawCursor

/-- The loop of `be_erase_in_line`. -/
def blankCells (start count : ℕ) : FbScreen :=
  (List.range' start count).foldl (fun s c => s.drawCell c s.curRow 32) s

def eraseInLine (mode : ℤ) : FbScreen :=
  if mode = 0 then (s.eraseCursor.blankCells s.curCol (s.cols - s.curCol)).drawCursor
  else if mode = 1 then (s.eraseCursor.blankCells 0 (min (s.curCol + 1) s.cols)).drawCursor
  else if mode = 2 then (s.eraseCursor.blankCells 0 s.cols).drawCursor
  else s

/-- `be_putchar`. -/
def putchar (ch : UInt8) : FbScreen :=
  let s := s.eraseCursor
  let s :=
    if ch = 10 then s.newline
    else if ch = 13 then { s with curCol := 0 }
    else if ch = 8 then { s with curCol := s.curCol - 1 }
    else
      let s := s.drawCell s.curCol s.curRow ch
      let s := { s with curCol := s.curCol + 1 }
      if s.cols ≤ s.curCol then s.newline else s
  s.drawCursor

/-- `fb_console_tick` after enough ticks. -/
def blink : FbScreen :=
  if s.visible then { s.eraseCursor with visible := false } else drawCursor { s with visible := true }

end FbScreen

/-! ## What the operations change -/

/-- The colour that a pixel shows. -/
def rgb (argb : UInt32) : UInt32 := argb &&& 0xFFFFFF

/-- A pixel of the line that the cursor covers. -/
def Cell.lastLine (past : UInt8 → UInt8) (x : Cell) (k : Fin 8) : UInt32 :=
  rgb (x.line.getD (if (fontLastRow past x.ch).toBitVec.getLsbD k then x.fg else x.bg))

namespace FbScreen

variable {s s' s'' : FbScreen} {T T' D D' : ℕ → ℕ → Prop} {c r col row x y : ℕ} {ch : UInt8}

def glyph (s : FbScreen) (c r : ℕ) : Glyph := (s.cells c r).toGlyph

def blank (s : FbScreen) : Glyph := { ch := 32, fg := vgaRgb s.fgIdx, bg := vgaRgb s.bgIdx }

def ground (s : FbScreen) : UInt32 := rgb (vgaRgb s.bgIdx)

/-- A pixel of the last line of a cell without the cursor, which is taken away before anything is done. -/
def lastLine (s : FbScreen) (c r : ℕ) (k : Fin 8) : UInt32 :=
  if s.visible = true ∧ c = s.curCol ∧ r = s.curRow then s.ground else (s.cells c r).lastLine s.fontPast k

def Blank (s : FbScreen) (c r : ℕ) : Prop := s.glyph c r = s.blank ∧ ∀ k, s.lastLine c r k = s.ground

/-- The cursor may come to this cell and go again without a trace. -/
def Plain (s : FbScreen) (c r : ℕ) : Prop := s.visible = true → ∀ k, s.lastLine c r k = s.ground

instance (s : FbScreen) (c r : ℕ) : Decidable (s.Plain c r) := inferInstanceAs (Decidable (_ → _))

/-- The cells of `D` are blanked and no others; the screen has its size and its colours. -/
structure Wiped (s s' : FbScreen) (D : ℕ → ℕ → Prop) : Prop where
  cols : s'.cols = s.cols
  rows : s'.rows = s.rows
  fgIdx : s'.fgIdx = s.fgIdx
  bgIdx : s'.bgIdx = s.bgIdx
  inside : ∀ c r, D c r → s'.glyph c r = s.blank ∧ ∀ k, s'.lastLine c r k = s.ground
  outside : ∀ c r, ¬ D c r → s'.glyph c r = s.glyph c r ∧ ∀ k, s'.lastLine c r k = s.lastLine c r k

/-- The cells of `D` are blanked, and on the way the cursor has been on those of `T`. -/
structure Erases (s s' : FbScreen) (T D : ℕ → ℕ → Prop) : Prop where
  cols : s'.cols = s.cols
  rows : s'.rows = s.rows
  fgIdx : s'.fgIdx = s.fgIdx
  bgIdx : s'.bgIdx = s.bgIdx
  visible : s'.visible = s.visible
  blank : ∀ c r, s.Blank c r ∨ D c r → s'.Blank c r
  outside : ∀ c r, ¬ D c r → s'.glyph c r = s.glyph c r ∧
    ((∀ k, s'.lastLine c r k = s.lastLine c r k) ∨ T c r ∧ s.visible = true ∧ ∀ k, s'.lastLine c r k = s.ground)

structure OnScreen (s : FbScreen) : Prop where
  col : s.curCol < s.cols
  row : s.curRow < s.rows

abbrev Nowhere : ℕ → ℕ → Prop := fun _ _ => False

theorem Erases.ground_eq (h : Erases s s' T D) : s'.ground = s.ground := by
  unfold ground
  rw [h.bgIdx]

theorem Erases.blank_eq (h : Erases s s' T D) : s'.blank = s.blank := by
  unfold FbScreen.blank
  rw [h.fgIdx, h.bgIdx]

theorem Erases.trans (h : Erases s s' T D) (h' : Erases s' s'' T' D') :
    Erases s s'' (fun c r => T c r ∨ T' c r) fun c r => D c r ∨ D' c r where
  cols := h'.cols.trans h.cols
  rows := h'.rows.trans h.rows
  fgIdx := h'.fgIdx.trans h.fgIdx
  bgIdx := h'.bgIdx.trans h.bgIdx
  visible := h'.visible.trans h.visible
  blank c r hd := h'.blank c r <| hd.elim (fun hb => .inl (h.blank c r (.inl hb)))
    fun hd => hd.imp (fun hd => h.blank c r (.inr hd)) id
  outside c r hd := by
    obtain ⟨hglyph, hline⟩ := h.outside c r fun hin => hd (.inl hin)
    obtain ⟨hglyph', hline'⟩ := h'.outside c r fun hin => hd (.inr hin)
    refine ⟨hglyph'.trans hglyph, ?_⟩
    rcases hline' with hsame' | ⟨ht', hvis', hground'⟩
    · rcases hline with hsame | ⟨ht, hvis, hground⟩
      · exact .inl fun k => (hsame' k).trans (hsame k)
      · exact .inr ⟨.inl ht, hvis, fun k => (hsame' k).trans (hground k)⟩
    · exact .inr ⟨.inr ht', h.visible ▸ hvis', fun k => (hground' k).trans h.ground_eq⟩

/-- Where the cursor comes to blanked or plain cells it leaves no trace. -/
theorem Erases.mono (h : Erases s s' T D) (hD : ∀ c r, D' c r ↔ D c r)
    (hT : ∀ c r, T c r → ¬ D c r → T' c r ∨ s.Plain c r) : Erases s s' T' D' where
  cols := h.cols
  rows := h.rows
  fgIdx := h.fgIdx
  bgIdx := h.bgIdx
  visible := h.visible
  blank c r hd := h.blank c r (hd.imp id (hD c r).mp)
  outside c r hd := by
    have hd' : ¬ D c r := fun hin => hd ((hD c r).mpr hin)
    obtain ⟨hglyph, hline⟩ := h.outside c r hd'
    refine ⟨hglyph, hline.elim .inl fun ⟨ht, hvis, hground⟩ => ?_⟩
    rcases hT c r ht hd' with ht' | hplain
    · exact .inr ⟨ht', hvis, hground⟩
    · exact .inl fun k => (hground k).trans (hplain hvis k).symm

theorem Erases.wiped (h : Erases s s' Nowhere D) : Wiped s s' D where
  cols := h.cols
  rows := h.rows
  fgIdx := h.fgIdx
  bgIdx := h.bgIdx
  inside c r hd := by
    obtain ⟨hglyph, hline⟩ := h.blank c r (.inr hd)
    exact ⟨hglyph.trans h.blank_eq, fun k => (hline k).trans h.ground_eq⟩
  outside c r hd := by
    obtain ⟨hglyph, hline⟩ := h.outside c r hd
    exact ⟨hglyph, hline.resolve_right fun ht => ht.1⟩

theorem Erases.refl (s : FbScreen) : Erases s s Nowhere Nowhere :=
  ⟨rfl, rfl, rfl, rfl, rfl, fun _ _ h => h.resolve_right id, fun _ _ _ => ⟨rfl, .inl fun _ => rfl⟩⟩

/-- A screen whose cells look as before. -/
theorem Erases.of_same (hcols : s'.cols = s.cols) (hrows : s'.rows = s.rows) (hfg : s'.fgIdx = s.fgIdx)
    (hbg : s'.bgIdx = s.bgIdx) (hvis : s'.visible = s.visible)
    (h : ∀ c r, s'.glyph c r = s.glyph c r ∧ ∀ k, s'.lastLine c r k = s.lastLine c r k) :
    Erases s s' Nowhere Nowhere := by
  refine ⟨hcols, hrows, hfg, hbg, hvis, fun c r hb => ?_, fun c r _ => ⟨(h c r).1, .inl (h c r).2⟩⟩
  obtain ⟨hglyph, hline⟩ := hb.resolve_right id
  unfold Blank FbScreen.blank ground at *
  rw [hfg, hbg]
  exact ⟨(h c r).1.trans hglyph, fun k => ((h c r).2 k).trans (hline k)⟩

theorem glyph_setCell (x : Cell) :
    (s.setCell col row x).glyph c r = if c = col ∧ r = row then x.toGlyph else s.glyph c r := by
  unfold setCell glyph
  dsimp only
  split <;> rfl

/-- The cursor's own line is no part of the looks of the screen. -/
theorem setLine_same (hvis : s.visible = true) (line : Option UInt32) :
    Erases s (s.setCell s.curCol s.curRow { s.cells s.curCol s.curRow with line := line }) Nowhere Nowhere := by
  refine Erases.of_same rfl rfl rfl rfl rfl fun c r => ⟨?_, fun k => ?_⟩
  · rw [glyph_setCell]
    split
    · rename_i h
      rw [h.1, h.2]
      rfl
    · rfl
  · unfold lastLine setCell
    dsimp only
    by_cases hat : c = s.curCol ∧ r = s.curRow
    · rw [if_pos ⟨hvis, hat⟩, if_pos ⟨hvis, hat⟩]
      rfl
    · rw [if_neg fun h => hat h.2, if_neg hat, if_neg fun h => hat h.2]

theorem drawCursor_same (s : FbScreen) : Erases s s.drawCursor Nowhere Nowhere ∧
    s.drawCursor.curCol = s.curCol ∧ s.drawCursor.curRow = s.curRow := by
  unfold drawCursor
  split
  · exact ⟨setLine_same (by assumption) _, rfl, rfl⟩
  · exact ⟨Erases.refl s, rfl, rfl⟩

theorem eraseCursor_same (s : FbScreen) : Erases s s.eraseCursor Nowhere Nowhere ∧
    s.eraseCursor.curCol = s.curCol ∧ s.eraseCursor.curRow = s.curRow := by
  unfold eraseCursor
  split
  · exact ⟨setLine_same (by assumption) _, rfl, rfl⟩
  · exact ⟨Erases.refl s, rfl, rfl⟩

/-- The cursor is taken away, so that what is in its cell is what the cell shows. -/
def Lifted (s : FbScreen) : Prop :=
  s.visible = true → ∀ k, (s.cells s.curCol s.curRow).lastLine s.fontPast k = s.ground

theorem eraseCursor_lifted (s : FbScreen) : s.eraseCursor.Lifted := by
  unfold Lifted eraseCursor
  split
  · intro _ k
    simp [setCell, Cell.lastLine, ground]
  · rename_i hvis
    exact fun h => absurd h hvis

/-- From a cell where it is taken away the cursor goes to another one, which it covers. -/
theorem Lifted.moved (h : s.Lifted) (x y : ℕ) :
    Erases s { s with curCol := x, curRow := y } (fun c r => c = x ∧ r = y) Nowhere := by
  have hline : ∀ c r k, lastLine { s with curCol := x, curRow := y } c r k =
      if s.visible = true ∧ c = x ∧ r = y then s.ground else s.lastLine c r k := by
    intro c r k
    unfold lastLine
    dsimp only
    by_cases hnew : s.visible = true ∧ c = x ∧ r = y
    · rw [if_pos hnew, if_pos hnew]
      rfl
    rw [if_neg hnew, if_neg hnew]
    by_cases hold : s.visible = true ∧ c = s.curCol ∧ r = s.curRow
    · rw [if_pos hold, hold.2.1, hold.2.2]
      exact h hold.1 k
    · rw [if_neg hold]
  refine ⟨rfl, rfl, rfl, rfl, rfl, fun c r hb => ⟨(hb.resolve_right id).1, fun k => ?_⟩, fun c r _ => ⟨rfl, ?_⟩⟩
  · rw [hline]
    split
    · rfl
    · exact (hb.resolve_right id).2 k
  · by_cases hnew : s.visible = true ∧ c = x ∧ r = y
    · exact .inr ⟨hnew.2, hnew.1, fun k => by rw [hline, if_pos hnew]⟩
    · exact .inl fun k => by rw [hline, if_neg hnew]

theorem drawCell_space (s : FbScreen) (col row : ℕ) :
    Erases s (s.drawCell col row 32) Nowhere fun c r => c = col ∧ r = row := by
  have hline : ∀ c r k, (s.drawCell col row 32).lastLine c r k =
      if c = col ∧ r = row then s.ground else s.lastLine c r k := by
    intro c r k
    unfold drawCell lastLine setCell
    dsimp only
    by_cases hat : c = col ∧ r = row
    · rw [if_pos hat, if_pos hat]
      split
      · rfl
      · simp [Cell.lastLine, fontLastRow, ground]
    · rw [if_neg hat, if_neg hat]
      rfl
  have hglyph : ∀ c r, (s.drawCell col row 32).glyph c r = if c = col ∧ r = row then s.blank else s.glyph c r :=
    fun c r => glyph_setCell _
  refine ⟨rfl, rfl, rfl, rfl, rfl, fun c r hb => ⟨?_, fun k => ?_⟩, fun c r hd => ⟨?_, .inl fun k => ?_⟩⟩
  · rw [hglyph]
    split
    · rfl
    · rename_i hat
      exact (hb.resolve_right hat).1
  · rw [hline]
    split
    · rfl
    · rename_i hat
      exact (hb.resolve_right hat).2 k
  · rw [hglyph, if_neg hd]
  · rw [hline, if_neg hd]

theorem blankCells_erases (s : FbScreen) (start count : ℕ) :
    Erases s (s.blankCells start count) Nowhere (fun c r => (start ≤ c ∧ c < start + count) ∧ r = s.curRow) ∧
      (s.blankCells start count).curCol = s.curCol ∧ (s.blankCells start count).curRow = s.curRow := by
  unfold blankCells
  induction count generalizing s start with
  | zero =>
    refine ⟨(Erases.refl s).mono (fun c r => iff_of_false (by omega) id) fun _ _ h => h.elim, rfl, rfl⟩
  | succ count ih =>
    obtain ⟨hrest, hcol, hrow⟩ := ih (s.drawCell start s.curRow 32) (start + 1)
    rw [List.range'_succ, List.foldl_cons]
    refine ⟨((drawCell_space s start s.curRow).trans hrest).mono (fun c r => ?_) fun _ _ h => (h.elim id id).elim,
      hcol, hrow⟩
    change _ ↔ c = start ∧ r = s.curRow ∨ (start + 1 ≤ c ∧ c < start + 1 + count) ∧ r = s.curRow
    omega

/-- The cells of a line that an erasure with a mode designates. -/
def InLine (cols col : ℕ) (mode : ℤ) (c : ℕ) : Prop :=
  mode = 0 ∧ col ≤ c ∧ c < cols ∨ mode = 1 ∧ c ≤ col ∧ c < cols ∨ mode = 2 ∧ c < cols

theorem inLine_right {cols : ℕ} : InLine cols col 0 c ↔ col ≤ c ∧ c < cols := by simp [InLine]

theorem inLine_left {cols : ℕ} : InLine cols col 1 c ↔ c ≤ col ∧ c < cols := by simp [InLine]

theorem inLine_whole {cols : ℕ} : InLine cols col 2 c ↔ c < cols := by simp [InLine]

/-- `be_erase_in_line` blanks what the mode designates and leaves the cursor. -/
theorem eraseInLine_erases (hcol : s.curCol < s.cols) (mode : ℤ) :
    Erases s (s.eraseInLine mode) Nowhere (fun c r => InLine s.cols s.curCol mode c ∧ r = s.curRow) ∧
      (s.eraseInLine mode).curCol = s.curCol ∧ (s.eraseInLine mode).curRow = s.curRow := by
  obtain ⟨herase, hecol, herow⟩ := eraseCursor_same s
  have hpart : ∀ start count, (∀ c, InLine s.cols s.curCol mode c ↔ start ≤ c ∧ c < start + count) →
      Erases s (s.eraseCursor.blankCells start count).drawCursor Nowhere
          (fun c r => InLine s.cols s.curCol mode c ∧ r = s.curRow) ∧
        (s.eraseCursor.blankCells start count).drawCursor.curCol = s.curCol ∧
        (s.eraseCursor.blankCells start count).drawCursor.curRow = s.curRow := by
    intro start count hin
    obtain ⟨hcells, hbcol, hbrow⟩ := blankCells_erases s.eraseCursor start count
    obtain ⟨hdraw, hdcol, hdrow⟩ := drawCursor_same (s.eraseCursor.blankCells start count)
    rw [herow] at hcells hbrow
    rw [hecol] at hbcol
    refine ⟨((herase.trans hcells).trans hdraw).mono (fun c r => ?_) fun c r h => ?_, hdcol.trans hbcol,
      hdrow.trans hbrow⟩
    · rw [hin]
      simp
    · exact (h.elim (fun h => h.elim id id) id).elim
  unfold eraseInLine
  by_cases h0 : mode = 0
  · rw [if_pos h0]
    exact hpart s.curCol (s.cols - s.curCol) fun c => by unfold InLine; omega
  rw [if_neg h0]
  by_cases h1 : mode = 1
  · rw [if_pos h1]
    exact hpart 0 (min (s.curCol + 1) s.cols) fun c => by unfold InLine; omega
  rw [if_neg h1]
  by_cases h2 : mode = 2
  · rw [if_pos h2]
    exact hpart 0 s.cols fun c => by unfold InLine; omega
  · rw [if_neg h2]
    refine ⟨(Erases.refl s).mono (fun c r => iff_of_false ?_ id) fun _ _ h => h.elim, rfl, rfl⟩
    unfold InLine
    omega

theorem moveCursor_erases (hx : x < s.cols) (hy : y < s.rows) :
    Erases s (s.moveCursor x y) (fun c r => c = x ∧ r = y) Nowhere ∧
      (s.moveCursor x y).curCol = x ∧ (s.moveCursor x y).curRow = y := by
  obtain ⟨herase, -, -⟩ := eraseCursor_same s
  unfold moveCursor
  dsimp only
  rw [if_pos (show x < s.eraseCursor.cols from herase.cols ▸ hx),
    if_pos (show y < s.eraseCursor.rows from herase.rows ▸ hy)]
  obtain ⟨hdraw, hdcol, hdrow⟩ := drawCursor_same { s.eraseCursor with curCol := x, curRow := y }
  refine ⟨((herase.trans ((eraseCursor_lifted s).moved x y)).trans hdraw).mono (fun c r => ?_) fun c r h _ => ?_,
    hdcol, hdrow⟩
  · simp
  · simpa using Or.inl h

/-- Where the cursor is after a space. -/
def afterSpace (s : FbScreen) : ℕ × ℕ :=
  if s.cols ≤ s.curCol + 1 then (0, if s.rows ≤ s.curRow + 1 then s.rows - 1 else s.curRow + 1)
  else (s.curCol + 1, s.curRow)

/-- A space that does not scroll the screen blanks its cell and takes the cursor to the next one. -/
theorem putSpace_erases (h : s.curCol + 1 < s.cols ∨ s.curRow + 1 < s.rows ∨ s.rows ≤ 1) :
    Erases s (s.putchar 32) (fun c r => (c, r) = s.afterSpace) (fun c r => c = s.curCol ∧ r = s.curRow) ∧
      ((s.putchar 32).curCol, (s.putchar 32).curRow) = s.afterSpace := by
  obtain ⟨herase, hecol, herow⟩ := eraseCursor_same s
  have hcell := drawCell_space s.eraseCursor s.curCol s.curRow
  obtain ⟨e, he⟩ : ∃ e, e = s.eraseCursor.drawCell s.curCol s.curRow 32 := ⟨_, rfl⟩
  have hlifted : e.Lifted := by
    intro _ k
    rw [he]
    simp [drawCell, setCell, hecol, herow, Cell.lastLine, fontLastRow, ground]
  have hput : s.putchar 32 = ({ e with curCol := s.afterSpace.1, curRow := s.afterSpace.2 } : FbScreen).drawCursor := by
    unfold putchar newline scrollUpOneRow afterSpace
    dsimp only
    rw [if_neg (by decide), if_neg (by decide), if_neg (by decide), hecol, herow, ← he]
    have hpos : e.curCol = s.curCol ∧ e.curRow = s.curRow := by rw [he]; exact ⟨hecol, herow⟩
    have hsize : e.cols = s.cols ∧ e.rows = s.rows := by rw [he]; exact ⟨herase.cols, herase.rows⟩
    rw [hpos.1, hpos.2, hsize.1, hsize.2]
    split_ifs <;> first | rfl | omega
  rw [← he] at hcell
  obtain ⟨hdraw, hdcol, hdrow⟩ := drawCursor_same { e with curCol := s.afterSpace.1, curRow := s.afterSpace.2 }
  rw [hput]
  refine ⟨((herase.trans hcell).trans ((hlifted.moved _ _).trans hdraw)).mono (fun c r => by simp) fun c r h _ => ?_,
    Prod.ext hdcol hdrow⟩
  simpa [Prod.ext_iff] using Or.inl h

/-! ## The cursor stays on the screen -/

theorem OnScreen.of (h : s.OnScreen) (hcols : s'.cols = s.cols) (hrows : s'.rows = s.rows)
    (hcol : s'.curCol = s.curCol) (hrow : s'.curRow = s.curRow) : s'.OnScreen :=
  ⟨hcol ▸ hcols ▸ h.col, hrow ▸ hrows ▸ h.row⟩

theorem OnScreen.drawCursor (h : s.OnScreen) : s.drawCursor.OnScreen :=
  have ⟨hsame, hcol, hrow⟩ := drawCursor_same s
  h.of hsame.cols hsame.rows hcol hrow

theorem OnScreen.eraseCursor (h : s.OnScreen) : s.eraseCursor.OnScreen :=
  have ⟨hsame, hcol, hrow⟩ := eraseCursor_same s
  h.of hsame.cols hsame.rows hcol hrow

theorem OnScreen.newline (h : s.OnScreen) : s.newline.OnScreen := by
  have hcols : 0 < s.cols := Nat.zero_lt_of_lt h.col
  have hrow := h.row
  unfold FbScreen.newline
  dsimp only
  split
  · unfold scrollUpOneRow
    split
    · exact ⟨hcols, Nat.sub_one_lt_of_lt hrow⟩
    · exact ⟨hcols, Nat.sub_one_lt_of_lt hrow⟩
  · rename_i hfits
    exact ⟨hcols, Nat.lt_of_not_le hfits⟩

theorem OnScreen.moveCursor (h : s.OnScreen) (x y : ℕ) : (s.moveCursor x y).OnScreen := by
  have he := h.eraseCursor
  unfold FbScreen.moveCursor
  dsimp only
  apply OnScreen.drawCursor
  by_cases hx : x < s.eraseCursor.cols
  · rw [if_pos hx]
    split
    · rename_i hy
      exact ⟨hx, hy⟩
    · exact ⟨hx, he.row⟩
  rw [if_neg hx]
  split
  · rename_i hy
    exact ⟨he.col, hy⟩
  · exact he

theorem OnScreen.eraseInLine (h : s.OnScreen) (mode : ℤ) : (s.eraseInLine mode).OnScreen :=
  have ⟨herases, hcol, hrow⟩ := eraseInLine_erases h.col mode
  h.of herases.cols herases.rows hcol hrow

theorem OnScreen.putchar (h : s.OnScreen) (ch : UInt8) : (s.putchar ch).OnScreen := by
  have he := h.eraseCursor
  unfold FbScreen.putchar
  dsimp only
  apply OnScreen.drawCursor
  split
  · exact he.newline
  split
  · exact ⟨Nat.zero_lt_of_lt he.col, he.row⟩
  split
  · exact ⟨Nat.lt_of_le_of_lt (Nat.sub_le _ _) he.col, he.row⟩
  split
  · -- behind the last column `newline` starts from its own column 0
    exact OnScreen.newline (s := s.eraseCursor.drawCell s.eraseCursor.curCol s.eraseCursor.curRow ch)
      (he.of rfl rfl rfl rfl)
  · rename_i hfits
    exact ⟨Nat.lt_of_not_le hfits, he.row⟩

theorem OnScreen.init (fontPast : UInt8 → UInt8) (cols rows : ℕ) (fg bg : UInt32) :
    (init fontPast cols rows fg bg).OnScreen := by
  apply OnScreen.drawCursor
  exact ⟨Nat.lt_of_lt_of_le Nat.zero_lt_one (le_max_right _ _), Nat.lt_of_lt_of_le Nat.zero_lt_one (le_max_right _ _)⟩

theorem OnScreen.blink (h : s.OnScreen) : s.blink.OnScreen := by
  unfold FbScreen.blink
  split
  · exact h.eraseCursor.of rfl rfl rfl rfl
  · exact OnScreen.drawCursor (h.of rfl rfl rfl rfl)

end FbScreen

end EdgeOS
