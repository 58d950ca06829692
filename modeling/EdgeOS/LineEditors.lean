import EdgeOS.CommandChains
import EdgeOS.Ext4
import Mathlib.Data.List.InsertIdx
import Mathlib.Data.List.Range
import Mathlib.Logic.Function.Basic

namespace EdgeOS

/-!
The line editors of the programs, `sh_readline` of `userspace/esh/main.c` and `readline` of
`userspace/getty/main.c`, against one reference editor. What they print is left out.
-/

open Function List

/-! ## The line in its array -/

/-- `out`, `len` and `cursor`. -/
structure EditLine where
  out : ℕ → UInt8
  len : ℕ
  cursor : ℕ

/-- `for (int i = len; i > cursor; --i) out[i] = out[i - 1]`. -/
def shiftRight (cursor : ℕ) : ℕ → (ℕ → UInt8) → ℕ → UInt8
  | 0, out => out
  | i + 1, out => if cursor < i + 1 then shiftRight cursor i (Function.update out (i + 1) (out i)) else out

/-- `for (int i = cursor; i < len - 1; ++i) out[i] = out[i + 1]`. -/
def shiftLeft (cursor len : ℕ) (out : ℕ → UInt8) : ℕ → UInt8 :=
  (List.range' cursor (len - 1 - cursor)).foldl (fun out i => Function.update out i (out (i + 1))) out

namespace EditLine

variable (b : EditLine)

def empty : EditLine := { out := fun _ => 0, len := 0, cursor := 0 }

def text : Bytes := (List.range b.len).map b.out

def insert (ch : UInt8) : EditLine :=
  if b.cursor = b.len then { out := Function.update b.out b.len ch, len := b.len + 1, cursor := b.cursor + 1 }
  else
    { out := Function.update (shiftRight b.cursor b.len b.out) b.cursor ch
      len := b.len + 1, cursor := b.cursor + 1 }

def erase : EditLine :=
  if 0 < b.cursor then
    { out := shiftLeft (b.cursor - 1) b.len b.out, len := b.len - 1, cursor := b.cursor - 1 }
  else b

def left : EditLine := { b with cursor := b.cursor - 1 }

def right : EditLine := if b.cursor < b.len then { b with cursor := b.cursor + 1 } else b

def terminate : EditLine := { b with out := Function.update b.out b.len 0 }

end EditLine

section Shift

variable {cursor len i j : ℕ} {out : ℕ → UInt8}

theorem shiftRight_apply (cursor i : ℕ) (out : ℕ → UInt8) (j : ℕ) :
    shiftRight cursor i out j = if cursor < j ∧ j ≤ i then out (j - 1) else out j := by
  induction i generalizing out with
  | zero =>
    rw [if_neg (by omega)]
    rfl
  | succ i ih =>
    unfold shiftRight
    by_cases hi : cursor < i + 1
    · rw [if_pos hi, ih]
      by_cases hmoved : cursor < j ∧ j ≤ i
      · rw [if_pos hmoved, if_pos (by omega), update_of_ne (by omega)]
      rw [if_neg hmoved]
      by_cases hj : j = i + 1
      · rw [if_pos (by omega), hj, update_self]
        rfl
      · rw [if_neg (by omega), update_of_ne hj]
    · rw [if_neg hi, if_neg (by omega)]

theorem foldl_shift (start count : ℕ) (out : ℕ → UInt8) (j : ℕ) :
    (List.range' start count).foldl (fun out i => update out i (out (i + 1))) out j =
      if start ≤ j ∧ j < start + count then out (j + 1) else out j := by
  induction count generalizing start out with
  | zero =>
    rw [if_neg (by omega)]
    rfl
  | succ count ih =>
    rw [List.range'_succ, foldl_cons, ih]
    by_cases hmoved : start + 1 ≤ j ∧ j < start + 1 + count
    · rw [if_pos hmoved, if_pos (by omega), update_of_ne (by omega)]
    rw [if_neg hmoved]
    by_cases hj : j = start
    · rw [if_pos (by omega), hj, update_self]
    · rw [if_neg (by omega), update_of_ne hj]

theorem shiftLeft_apply (cursor len : ℕ) (out : ℕ → UInt8) (j : ℕ) :
    shiftLeft cursor len out j = if cursor ≤ j ∧ j < len - 1 then out (j + 1) else out j := by
  unfold shiftLeft
  rw [foldl_shift]
  exact if_congr (by omega) rfl rfl

end Shift

namespace EditLine

variable {b : EditLine} {ch : UInt8} {i : ℕ}

/-- `0 <= cursor <= len`. -/
def Valid (b : EditLine) : Prop := b.cursor ≤ b.len

@[simp] theorem length_text (b : EditLine) : b.text.length = b.len := by simp [text]

theorem getElem?_text (b : EditLine) (i : ℕ) : b.text[i]? = if i < b.len then some (b.out i) else none := by
  unfold text
  rw [getElem?_map]
  split
  · rename_i hi
    rw [getElem?_range hi, Option.map_some]
  · rename_i hi
    rw [getElem?_eq_none (by rw [length_range]; omega), Option.map_none]

theorem insert_len (b : EditLine) (ch : UInt8) :
    (b.insert ch).len = b.len + 1 ∧ (b.insert ch).cursor = b.cursor + 1 := by
  unfold insert
  split <;> exact ⟨rfl, rfl⟩

theorem text_insert (h : b.Valid) (ch : UInt8) : (b.insert ch).text = b.text.insertIdx b.cursor ch := by
  unfold Valid at h
  apply ext_getElem?
  intro i
  rw [getElem?_text, (insert_len b ch).1, getElem?_insertIdx]
  have hout : (b.insert ch).out i =
      if i < b.cursor then b.out i else if i = b.cursor then ch else if i ≤ b.len then b.out (i - 1) else b.out i := by
    unfold insert
    split
    · rename_i hend
      dsimp only
      by_cases hi : i = b.len
      · rw [hi, update_self, if_neg (by omega), if_pos hend.symm]
      · rw [update_of_ne hi]
        split_ifs <;> first | rfl | omega
    · dsimp only
      by_cases hi : i = b.cursor
      · rw [hi, update_self, if_neg (by omega), if_pos rfl]
      · rw [update_of_ne hi, shiftRight_apply]
        split_ifs <;> first | rfl | omega
  rw [hout, getElem?_text, getElem?_text, length_text]
  split_ifs <;> first | rfl | omega

theorem text_erase (h : b.Valid) : b.erase.text = if 0 < b.cursor then b.text.eraseIdx (b.cursor - 1) else b.text := by
  unfold Valid at h
  unfold erase
  split
  · apply ext_getElem?
    intro i
    rw [getElem?_text, getElem?_eraseIdx]
    dsimp only
    rw [getElem?_text, getElem?_text, shiftLeft_apply]
    split_ifs <;> first | rfl | omega
  · rfl

theorem text_terminate (b : EditLine) : b.terminate.text = b.text := by
  apply ext_getElem?
  intro i
  rw [getElem?_text, getElem?_text]
  unfold terminate
  dsimp only
  split
  · rw [update_of_ne (by omega)]
  · rfl

theorem Valid.insert (h : b.Valid) (ch : UInt8) : (b.insert ch).Valid := by
  obtain ⟨hlen, hcursor⟩ := insert_len b ch
  unfold Valid at h ⊢
  omega

theorem Valid.erase (h : b.Valid) : b.erase.Valid := by
  unfold Valid at h ⊢
  unfold EditLine.erase
  split
  · dsimp only
    omega
  · exact h

theorem Valid.left (h : b.Valid) : b.left.Valid := Nat.le_trans (Nat.sub_le _ _) h

theorem Valid.right (h : b.Valid) : b.right.Valid := by
  unfold EditLine.right
  split
  · rename_i hlt
    exact hlt
  · exact h

end EditLine

/-! ## The programs -/

/-- Where an editor waits: for a key, or for one of the two bytes behind `ESC`. -/
inductive EditWait
  | key
  | esc
  | seq (s1 : UInt8)
  deriving DecidableEq, Repr

inductive EditProgress (σ : Type)
  | reading (s : σ)
  | returned (line : Bytes)
  | cancelled

/-- A `read` of one byte, which may give none. -/
abbrev ReadByte := Option UInt8

/-- The call after one more `read`. -/
def EditProgress.advance {σ : Type} (step : σ → ReadByte → EditProgress σ) (p : EditProgress σ) (r : ReadByte) :
    EditProgress σ :=
  match p with
  | .reading s => step s r
  | .returned line => .returned line
  | .cancelled => .cancelled

/-- The locals of `sh_readline`; no `histPos` is -1. -/
structure ShEditor where
  line : EditLine
  histPos : Option ℕ
  wait : EditWait

namespace ShEditor

variable (hist : List Bytes) (maxLen : ℕ) (s : ShEditor)

def setLineFromHist (src : Bytes) : EditLine :=
  let n := if shLineMax ≤ src.length then shLineMax - 1 else src.length
  { out := Function.update (fun i => if i < n then src.getD i 0 else s.line.out i) n 0, len := n, cursor := n }

def clearLine : EditLine := { out := Function.update s.line.out 0 0, len := 0, cursor := 0 }

/-- The arrow up, `g_hist` being `hist`. -/
def up : ShEditor :=
  if 0 < hist.length then
    let pos :=
      match s.histPos with
      | none => hist.length - 1
      | some pos => pos - 1
    { s with line := s.setLineFromHist (hist.getD pos []), histPos := some pos }
  else s

def down : ShEditor :=
  match s.histPos with
  | none => s
  | some pos =>
    if hist.length ≤ pos + 1 then { s with line := s.clearLine, histPos := none }
    else { s with line := s.setLineFromHist (hist.getD (pos + 1) []), histPos := some (pos + 1) }

def left : ShEditor := { s with line := s.line.left }

def right : ShEditor := { s with line := s.line.right }

/-- `while (len + 1 < max_len)`. -/
def head : EditProgress ShEditor :=
  if s.line.len + 1 < maxLen then .reading { s with wait := .key } else .returned s.line.text

def key (ch : UInt8) : EditProgress ShEditor :=
  if ch = 13 ∨ ch = 10 then .returned s.line.text
  else if ch = 3 then .cancelled
  else if ch = 0x80 then (s.up hist).head maxLen
  else if ch = 0x81 then (s.down hist).head maxLen
  else if ch = 0x82 then s.left.head maxLen
  else if ch = 0x83 then s.right.head maxLen
  else if ch = 27 then .reading { s with wait := .esc }
  else
    let s := { s with histPos := none }
    if ch = 8 ∨ ch = 127 then
      head maxLen (if 0 < s.line.cursor then { s with line := s.line.erase.terminate } else s)
    else if ch < 32 then s.head maxLen
    else head maxLen { s with line := (s.line.insert ch).terminate }

/-- The two bytes behind `ESC`. -/
def arrow (s1 s2 : UInt8) : ShEditor :=
  if s1 = 91 ∧ s2 = 65 then s.up hist
  else if s1 = 91 ∧ s2 = 66 then s.down hist
  else if s1 = 91 ∧ s2 = 68 then s.left
  else if s1 = 91 ∧ s2 = 67 then s.right
  else s

/-- One `read` of `sh_readline`. -/
def step (s : ShEditor) (r : ReadByte) : EditProgress ShEditor :=
  match s.wait, r with
  | .key, some ch => s.key hist maxLen ch
  | .esc, some s1 => .reading { s with wait := .seq s1 }
  | .seq s1, some s2 => (s.arrow hist s1 s2).head maxLen
  | _, none => s.head maxLen

/-- `sh_readline` before its first `read`. -/
def start : EditProgress ShEditor := head maxLen { line := EditLine.empty, histPos := none, wait := .key }

end ShEditor

/-- The locals of `readline` of `getty`. -/
structure GettyEditor where
  line : EditLine
  wait : EditWait

namespace GettyEditor

variable (max : ℕ) (s : GettyEditor)

/-- `while (n + 1 < max)`. -/
def head : EditProgress GettyEditor :=
  if s.line.len + 1 < max then .reading { s with wait := .key } else .returned s.line.text

def key (c : UInt8) : EditProgress GettyEditor :=
  if c = 27 then .reading { s with wait := .esc }
  else if c = 13 ∨ c = 10 then .returned s.line.text
  else if c = 127 ∨ c = 8 then head max { s with line := s.line.erase }
  else if c < 32 then s.head max
  else head max { s with line := s.line.insert c }

/-- The two bytes behind `ESC`. -/
def arrow (s1 s2 : UInt8) : GettyEditor :=
  if s1 ≠ 91 then s
  else if s2 = 68 then { s with line := s.line.left }
  else if s2 = 67 then { s with line := s.line.right }
  else s

/-- One `read` of `readline`. -/
def step (s : GettyEditor) (r : ReadByte) : EditProgress GettyEditor :=
  match s.wait, r with
  | .key, some c => s.key max c
  | .esc, some s1 => .reading { s with wait := .seq s1 }
  | .seq s1, some s2 => (s.arrow s1 s2).head max
  | _, none => s.head max

/-- `readline` before its first `read`. -/
def start : EditProgress GettyEditor := head max { line := EditLine.empty, wait := .key }

end GettyEditor

/-! ## The reference editor -/

/-- What a reference editor is given besides the bytes: the length of its array, the history, and
whether the codes 0x80 to 0x83 are arrows and Ctrl-C cancels. -/
structure EditConfig where
  max : ℕ
  hist : List Bytes
  codes : Bool
  cancels : Bool

inductive EditKey
  | insert (ch : UInt8)
  | erase
  | left
  | right
  | up
  | down
  | enter
  | cancel
  | control
  | unknown
  deriving DecidableEq, Repr

/-- Where the reference editor stands in an escape sequence. -/
inductive RefWait
  | key
  | esc
  | csi
  deriving DecidableEq, Repr

/-- The line, the cursor and the chosen entry of the history. -/
structure RefEditor where
  line : Bytes := []
  cursor : ℕ := 0
  entry : Option ℕ := none
  wait : RefWait := .key
  deriving DecidableEq, Repr

namespace EditConfig

variable (cfg : EditConfig) (e : RefEditor)

def keyOf (ch : UInt8) : EditKey :=
  if ch = 13 ∨ ch = 10 then .enter
  else if ch = 3 ∧ cfg.cancels then .cancel
  else if ch = 0x80 ∧ cfg.codes then .up
  else if ch = 0x81 ∧ cfg.codes then .down
  else if ch = 0x82 ∧ cfg.codes then .left
  else if ch = 0x83 ∧ cfg.codes then .right
  else if ch = 8 ∨ ch = 127 then .erase
  else if ch < 32 then .control
  else .insert ch

/-- The key of `ESC [` and a byte. -/
def arrowOf (ch : UInt8) : EditKey :=
  if ch = 65 then .up else if ch = 66 then .down else if ch = 68 then .left else if ch = 67 then .right else .unknown

def recallEntry (pos : ℕ) : RefEditor :=
  let line := (cfg.hist.getD pos []).take (cfg.max - 1)
  { e with line := line, cursor := line.length, entry := some pos }

def press : EditKey → EditProgress RefEditor
  | .insert ch =>
    .reading
      (if e.line.length + 1 < cfg.max then
        { e with line := e.line.insertIdx e.cursor ch, cursor := e.cursor + 1, entry := none }
      else { e with entry := none })
  | .erase =>
    .reading
      (if 0 < e.cursor then { e with line := e.line.eraseIdx (e.cursor - 1), cursor := e.cursor - 1, entry := none }
      else { e with entry := none })
  | .left => .reading { e with cursor := e.cursor - 1 }
  | .right => .reading { e with cursor := min (e.cursor + 1) e.line.length }
  | .up =>
    .reading
      (if cfg.hist = [] then e
      else
        match e.entry with
        | none => cfg.recallEntry e (cfg.hist.length - 1)
        | some pos => cfg.recallEntry e (pos - 1))
  | .down =>
    .reading
      (match e.entry with
      | none => e
      | some pos =>
        if pos + 1 < cfg.hist.length then cfg.recallEntry e (pos + 1)
        else { e with line := [], cursor := 0, entry := none })
  | .enter => .returned e.line
  | .cancel => .cancelled
  | .control => .reading { e with entry := none }
  | .unknown => .reading e

/-- One `read`. An `ESC` that no bracket follows is a control byte. -/
def step (e : RefEditor) (r : ReadByte) : EditProgress RefEditor :=
  match r with
  | none => .reading e
  | some ch =>
    match e.wait with
    | .key => if ch = 27 then .reading { e with wait := .esc } else cfg.press e (cfg.keyOf ch)
    | .esc =>
      if ch = 91 then .reading { e with wait := .csi }
      else if ch = 27 then .reading { e with entry := none }
      else cfg.press { e with entry := none, wait := .key } (cfg.keyOf ch)
    | .csi => cfg.press { e with wait := .key } (arrowOf ch)

end EditConfig

/-! ## The law -/

/-- Both read with the same line and cursor, or both have returned the same. -/
def SameEdit {σ : Type} (line : σ → EditLine) : EditProgress σ → EditProgress RefEditor → Prop
  | .reading s, .reading e => (line s).text = e.line ∧ (line s).cursor = e.cursor
  | .returned l, .returned l' => l = l'
  | .cancelled, .cancelled => True
  | _, _ => False

/-- There is room for one more byte while the line is edited. -/
def HasRoom (max : ℕ) : EditProgress RefEditor → Prop
  | .reading e => e.line.length + 1 < max
  | _ => True

section Law

variable {σ : Type} {line : σ → EditLine} {rel : σ → RefEditor → Prop} {max : ℕ}
  {step : σ → ReadByte → EditProgress σ} {ref : RefEditor → ReadByte → EditProgress RefEditor}
  {p : EditProgress σ} {e : EditProgress RefEditor} {rs : List ReadByte}

/-- An editor and the reference: related with room left, at the same end, or the editor has returned
because the line is full. -/
inductive Linked (rel : σ → RefEditor → Prop) (max : ℕ) : EditProgress σ → EditProgress RefEditor → Prop
  | reading (s : σ) (e : RefEditor) (h : rel s e) (hroom : e.line.length + 1 < max) :
    Linked rel max (.reading s) (.reading e)
  | returned (l : Bytes) : Linked rel max (.returned l) (.returned l)
  | cancelled : Linked rel max .cancelled .cancelled
  | full (l : Bytes) (e : RefEditor) (hfull : ¬ e.line.length + 1 < max) : Linked rel max (.returned l) (.reading e)

theorem Linked.same_iff (hrel : ∀ s e, rel s e → (line s).text = e.line ∧ (line s).cursor = e.cursor)
    (h : Linked rel max p e) : SameEdit line p e ↔ HasRoom max e := by
  cases h with
  | reading s e h hroom => exact iff_of_true (hrel s e h) hroom
  | returned l => exact iff_of_true rfl trivial
  | cancelled => exact iff_of_true trivial trivial
  | full l e hfull => exact iff_of_false id hfull

/-- The editor and the reference ask the same about the byte. -/
theorem Linked.ite {cfg : EditConfig} {e : RefEditor} {c : Prop} [Decidable c] {p p' : EditProgress σ} {k k' : EditKey}
    (h : c → Linked rel max p (cfg.press e k)) (h' : ¬ c → Linked rel max p' (cfg.press e k')) :
    Linked rel max (if c then p else p') (cfg.press e (if c then k else k')) := by
  split_ifs with hc
  · exact h hc
  · exact h' hc

end Law

/-! ## The line of both -/

/-- The two bytes behind `ESC` are waited for in step. -/
def SameWait : EditWait → RefWait → Prop
  | .key, .key => True
  | .esc, .esc => True
  | .seq s1, .csi => s1 = 91
  | _, _ => False

/-- The line of a program is that of the reference. -/
structure EditLine.Shows (b : EditLine) (e : RefEditor) : Prop where
  text : b.text = e.line
  cursor : b.cursor = e.cursor
  valid : b.Valid

namespace EditLine.Shows

variable {b : EditLine} {e : RefEditor}

theorem length (h : b.Shows e) : b.len = e.line.length := by rw [← h.text, length_text]

theorem left (h : b.Shows e) : b.left.Shows { e with cursor := e.cursor - 1 } :=
  ⟨h.text, congrArg (· - 1) h.cursor, h.valid.left⟩

theorem right (h : b.Shows e) : b.right.Shows { e with cursor := min (e.cursor + 1) e.line.length } := by
  have hlen := h.length
  have hcursor := h.cursor
  have hvalid := h.valid
  refine ⟨?_, ?_, h.valid.right⟩
  · refine Eq.trans ?_ h.text
    unfold EditLine.right
    split <;> rfl
  · change b.right.cursor = min (e.cursor + 1) e.line.length
    unfold EditLine.Valid at hvalid
    unfold EditLine.right
    split
    · dsimp only
      omega
    · omega

theorem erase (h : b.Shows e) : b.erase.Shows
      (if 0 < e.cursor then { e with line := e.line.eraseIdx (e.cursor - 1), cursor := e.cursor - 1, entry := none }
      else { e with entry := none }) := by
  have htext := text_erase h.valid
  rw [h.cursor, h.text] at htext
  split
  · rename_i hpos
    refine ⟨htext.trans (if_pos hpos), ?_, h.valid.erase⟩
    unfold EditLine.erase
    rw [if_pos (h.cursor ▸ hpos)]
    exact congrArg (· - 1) h.cursor
  rename_i hpos
  refine ⟨htext.trans (if_neg hpos), ?_, h.valid.erase⟩
  unfold EditLine.erase
  rw [if_neg (h.cursor ▸ hpos)]
  exact h.cursor

theorem insert (h : b.Shows e) (ch : UInt8) :
    (b.insert ch).Shows { e with line := e.line.insertIdx e.cursor ch, cursor := e.cursor + 1, entry := none } := by
  refine ⟨?_, (insert_len b ch).2.trans (congrArg (· + 1) h.cursor), h.valid.insert ch⟩
  rw [text_insert h.valid, h.cursor, h.text]

theorem terminate (h : b.Shows e) : b.terminate.Shows e :=
  ⟨(text_terminate b).trans h.text, h.cursor, h.valid⟩

theorem waits (h : b.Shows e) (wait : RefWait) : b.Shows { e with wait := wait } := ⟨h.text, h.cursor, h.valid⟩

end EditLine.Shows

/-! ## The shell -/

namespace ShEditor

variable {hist : List Bytes} {s : ShEditor} {e : RefEditor} {ch : UInt8}

def config (hist : List Bytes) : EditConfig := { max := shLineMax, hist := hist, codes := true, cancels := true }

/-- The editor and the reference have the same line, cursor and entry. -/
structure SameLine (s : ShEditor) (e : RefEditor) : Prop where
  shows : s.line.Shows e
  entry : s.histPos = e.entry

structure Rel (s : ShEditor) (e : RefEditor) : Prop extends SameLine s e where
  wait : SameWait s.wait e.wait

theorem text_setLineFromHist (s : ShEditor) (src : Bytes) : (s.setLineFromHist src).text = src.take (shLineMax - 1) ∧
      (s.setLineFromHist src).cursor = (src.take (shLineMax - 1)).length ∧ (s.setLineFromHist src).Valid := by
  have hlen : (src.take (shLineMax - 1)).length = (s.setLineFromHist src).len := by
    unfold setLineFromHist shLineMax
    rw [length_take]
    dsimp only
    split <;> omega
  refine ⟨?_, hlen.symm, le_rfl⟩
  apply ext_getElem?
  intro i
  rw [EditLine.getElem?_text]
  split
  · rename_i hi
    rw [← hlen] at hi
    have hsrc : i < src.length := by
      rw [length_take] at hi
      omega
    have hout : (s.setLineFromHist src).out i = src.getD i 0 := by
      rw [hlen] at hi
      unfold setLineFromHist at hi ⊢
      dsimp only at hi ⊢
      rw [update_of_ne (by omega), if_pos hi]
    rw [hout, getElem?_take_of_lt (by rw [length_take] at hi; omega), getD_eq_getElem?_getD,
      getElem?_eq_getElem hsrc, Option.getD_some]
  · rename_i hi
    rw [getElem?_eq_none (by omega)]

/-- Back at the head of the loop the link holds, whether the line is full or not. -/
theorem head_linked (h : SameLine s e) (hwait : e.wait = .key) :
    Linked Rel shLineMax (s.head shLineMax) (.reading e) := by
  have hlen := h.shows.length
  unfold head
  split
  · rename_i hroom
    exact .reading _ _ ⟨⟨h.shows, h.entry⟩, by rw [hwait]; trivial⟩ (hlen ▸ hroom)
  · rename_i hfull
    exact .full _ _ (hlen ▸ hfull)

/-- What the reference editor reads on with behind a key that ends nothing. -/
def Follows (hist : List Bytes) (e : RefEditor) (k : EditKey) (s' : ShEditor) : Prop :=
  ∃ e', (config hist).press e k = .reading e' ∧ SameLine s' e' ∧ e'.wait = e.wait

theorem Follows.linked {k : EditKey} {s' : ShEditor} (h : Follows hist e k s') (hwait : e.wait = .key) :
    Linked Rel shLineMax (s'.head shLineMax) ((config hist).press e k) := by
  obtain ⟨e', hpress, hrel, hkeep⟩ := h
  rw [hpress]
  exact head_linked hrel (hkeep.trans hwait)

def Fits (s : ShEditor) : Prop := s.line.Valid ∧ s.line.len ≤ shLineMax - 1

theorem fits_setLineFromHist (s : ShEditor) (src : Bytes) :
    (s.setLineFromHist src).Valid ∧ (s.setLineFromHist src).len ≤ shLineMax - 1 := by
  refine ⟨(text_setLineFromHist s src).2.2, ?_⟩
  unfold setLineFromHist shLineMax
  dsimp only
  split <;> omega

theorem Fits.up (h : s.Fits) : (s.up hist).Fits := by
  unfold ShEditor.up
  split
  · exact fits_setLineFromHist s _
  · exact h

theorem Fits.down (h : s.Fits) : (s.down hist).Fits := by
  unfold ShEditor.down
  split
  · exact h
  split
  · exact ⟨le_rfl, Nat.zero_le _⟩
  · exact fits_setLineFromHist s _

theorem Fits.left (h : s.Fits) : s.left.Fits := ⟨h.1.left, h.2⟩

theorem Fits.right (h : s.Fits) : s.right.Fits := by
  refine ⟨h.1.right, ?_⟩
  unfold ShEditor.right EditLine.right
  dsimp only
  split <;> exact h.2

theorem Fits.erase (h : s.Fits) :
    Fits (if 0 < s.line.cursor then { s with line := s.line.erase.terminate, histPos := none }
      else { s with histPos := none }) := by
  split
  · rename_i hpos
    refine ⟨EditLine.Valid.erase h.1, ?_⟩
    change s.line.erase.len ≤ shLineMax - 1
    unfold EditLine.erase
    rw [if_pos hpos]
    exact (Nat.sub_le _ _).trans h.2
  · exact h

theorem Fits.insert (h : s.line.Valid) (hroom : s.line.len + 1 < shLineMax) (ch : UInt8) :
    Fits { s with line := (s.line.insert ch).terminate, histPos := none } := by
  refine ⟨EditLine.Valid.insert h ch, ?_⟩
  change (s.line.insert ch).len ≤ shLineMax - 1
  rw [(s.line.insert_len ch).1]
  omega

end ShEditor

/-! ## The login prompt -/

namespace GettyEditor

variable {max : ℕ} {s : GettyEditor} {e : RefEditor} {ch : UInt8}

/-- The reference editor of `getty`: no history, and Ctrl-C is a control byte. -/
def config (max : ℕ) : EditConfig := { max := max, hist := [], codes := false, cancels := false }

/-- The editor and the reference have the same line and cursor, and no entry was chosen. -/
structure SameLine (s : GettyEditor) (e : RefEditor) : Prop where
  shows : s.line.Shows e
  entry : e.entry = none

structure Rel (s : GettyEditor) (e : RefEditor) : Prop extends SameLine s e where
  wait : SameWait s.wait e.wait

/-- Back at the head of the loop the link holds, whether the line is full or not. -/
theorem head_linked (h : SameLine s e) (hwait : e.wait = .key) : Linked Rel max (s.head max) (.reading e) := by
  have hlen := h.shows.length
  unfold head
  split
  · rename_i hroom
    exact .reading _ _ ⟨⟨h.shows, h.entry⟩, by rw [hwait]; trivial⟩ (hlen ▸ hroom)
  · rename_i hfull
    exact .full _ _ (hlen ▸ hfull)

end GettyEditor

/-! ## Both editors -/

end EdgeOS
