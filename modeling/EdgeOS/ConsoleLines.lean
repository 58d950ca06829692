import EdgeOS.Buffer
import EdgeOS.LineEditing

namespace EdgeOS

open Lib List Editor

/-!
Canonical reads of the console (`do_sys_read` in `src/sys/syscall.c`), whose readers share one buffer for a line,
against a reference editor.
-/

/-- What `g_tty_linebuf` holds at most. -/
def ttyLineMax : ℕ := 511

/-- What the readers share: whether `ISIG` is set, the bytes of `g_tty_linebuf` up to `g_tty_line_len`,
`g_tty_line_pos`, and the characters that the keyboard has queued. -/
structure Console where
  isig : Bool
  line : Bytes := []
  pos : ℕ := 0
  keys : Bytes := []

/-- A read with the bytes that it has copied. -/
structure ConsoleCall where
  len : ℕ
  out : Bytes := []

inductive ReadEnd
  | done (bs : Bytes)
  | eintr
  | waits (call : ConsoleCall)

/-- How the inner loop ends, with the keys that are left and the buffer. -/
inductive LineFill
  | waits (keys line : Bytes)
  | interrupted (keys line : Bytes)
  | line (keys line : Bytes)

def fillLine (isig : Bool) : Bytes → Bytes → LineFill
  | [], line => .waits [] line
  | ch :: keys, line =>
    if ch = 0 then .waits keys line
    else
      let ch := if ch = carriageReturn then newline else ch
      if isig = true ∧ ch = 3 then .interrupted keys line
      else if ch = 8 ∨ ch = 127 then fillLine isig keys line.dropLast
      else
        let line := if line.length < ttyLineMax then line ++ [ch] else line
        if ch = newline then .line keys line else fillLine isig keys line

def afterFill (next : Console → Console × ReadEnd) (c : Console) (call : ConsoleCall) : LineFill → Console × ReadEnd
  | .waits keys line => ({ c with keys := keys, line := line }, .waits call)
  | .interrupted keys line => ({ c with keys := keys, line := line }, .eintr)
  | .line keys line => next { c with keys := keys, line := line }

/-- The outer loop. A round copies a byte or fills the buffer. -/
def copyLoop : ℕ → Console → ConsoleCall → Console × ReadEnd
  | 0, c, call => (c, .waits call)
  | fuel + 1, c, call =>
    if call.out.length < call.len then
      if c.pos < c.line.length then
        let b := rd8 c.line c.pos
        let c := { c with pos := c.pos + 1 }
        let call := { call with out := call.out ++ [b] }
        if b = newline then (c, .done call.out) else copyLoop fuel c call
      else
        let c := { c with line := [], pos := 0 }
        afterFill (copyLoop fuel · call) c call (fillLine c.isig c.keys c.line)
    else (c, .done call.out)

/-- Rounds that are enough: every key ends at most one round without a byte. -/
def copyRounds (c : Console) (call : ConsoleCall) : ℕ := 2 * call.len + c.keys.length + 2

/-- `do_sys_read`, up to where it waits for a key. -/
def doSysRead (c : Console) (len : ℕ) : Console × ReadEnd :=
  if len = 0 then (c, .done []) else copyLoop (copyRounds c { len := len }) c { len := len }

def doSysReadWoken (c : Console) (call : ConsoleCall) : Console × ReadEnd :=
  afterFill (copyLoop (copyRounds c call) · call) c call (fillLine c.isig c.keys c.line)

/-! ## The reference editor -/

/-- A key. An interrupt discards the line that is being typed. -/
def Editor.press (isig : Bool) (e : Editor) (ch : UInt8) : Editor :=
  let ch := if ch = carriageReturn then newline else ch
  if isig = true ∧ ch = 3 then { e with current := [] }
  else if ch = 8 ∨ ch = 127 then { e with current := e.current.dropLast }
  else if ch = newline then { lines := e.lines ++ [e.current ++ [newline]], current := [] }
  else { e with current := e.current ++ [ch] }

/-- The key that is pressed when `current` is being typed has room in the buffer, and does not interrupt a line. -/
def KeyFits (isig : Bool) (current : Bytes) (ch : UInt8) : Prop :=
  if isig = true ∧ ch = 3 then current = [] else ch = 8 ∨ ch = 127 ∨ current.length < ttyLineMax

instance (isig : Bool) (current : Bytes) (ch : UInt8) : Decidable (KeyFits isig current ch) := by
  unfold KeyFits
  infer_instance

/-! ## Runs -/

/-- The console with its waiting reads, the editor less what it has delivered, the keys that were pressed and the bytes
that reads have returned. -/
structure ConsoleSys where
  console : Console
  waiting : List ConsoleCall := []
  editor : Editor := {}
  typed : Bytes := []
  returned : Bytes := []

/-- A character from the keyboard, a read, and a read that goes on after it has waited. -/
inductive ConsoleEvent
  | key (ch : UInt8) (some : ch ≠ 0)
  | read (len : ℕ)
  | woken (i : ℕ)

namespace ConsoleSys

variable (s : ConsoleSys)

/-- A read of `len` bytes is over, or waits. -/
def ended (waiting : List ConsoleCall) (len : ℕ) (out : Console × ReadEnd) : ConsoleSys :=
  match out.2 with
  | .done bs =>
    { s with
      console := out.1
      waiting := waiting
      editor := (s.editor.deliver len).1
      returned := s.returned ++ bs }
  | .eintr => { s with console := out.1, waiting := waiting }
  | .waits call => { s with console := out.1, waiting := waiting ++ [call] }

def step : ConsoleEvent → ConsoleSys
  | .key ch _ =>
    { s with
      console := { s.console with keys := s.console.keys ++ [ch] }
      editor := s.editor.press s.console.isig ch
      typed := s.typed ++ [ch] }
  | .read len => s.ended s.waiting len (doSysRead s.console len)
  | .woken i =>
    match s.waiting[i]? with
    | none => s
    | some call => s.ended (s.waiting.eraseIdx i) call.len (doSysReadWoken s.console call)

/-- What a read of `len` bytes is to do: it returns bytes of the oldest line, as many as it has room for; it waits only
while no line is complete; and only an interrupt fails it. -/
def EndsRight (len : ℕ) : ReadEnd → Prop
  | .done bs => bs = (s.editor.deliver len).2 ∧ (len = 0 ∨ s.editor.lines ≠ [])
  | .eintr => s.console.isig = true ∧ 3 ∈ s.console.keys
  | .waits _ => s.editor.lines = []

def Delivers : ConsoleEvent → Prop
  | .key _ _ => True
  | .read len => s.EndsRight len (doSysRead s.console len).2
  | .woken i => ∀ call ∈ s.waiting[i]?, s.EndsRight call.len (doSysReadWoken s.console call).2

/-- No line outgrows the buffer, no interrupt comes into a line, and no read begins while another one waits. -/
def Plain : ConsoleEvent → Prop
  | .key ch _ => KeyFits s.console.isig s.editor.current ch
  | .read _ => s.waiting = []
  | .woken _ => True

instance (e : ConsoleEvent) : Decidable (s.Plain e) :=
  match e with
  | .key ch _ => inferInstanceAs (Decidable (KeyFits s.console.isig s.editor.current ch))
  | .read _ => decidable_of_iff (s.waiting.isEmpty = true) List.isEmpty_iff
  | .woken _ => inferInstanceAs (Decidable True)

/-- What was returned, and then what the editor still has, are the lines of an editor that sees all keys; and every line
that it still has ends with its newline. -/
structure Faithful : Prop where
  bytes : s.returned ++ s.editor.lines.flatten = (s.typed.foldl (Editor.press s.console.isig) {}).lines.flatten
  lines : ∀ l ∈ s.editor.lines, ∃ body, newline ∉ body ∧ l = body ++ [newline]

end ConsoleSys

/-! ## The editor and the inner loop -/

def IsLine (l : Bytes) : Prop := ∃ body, newline ∉ body ∧ l = body ++ [newline]

theorem IsLine.ne_nil {l : Bytes} (h : IsLine l) : l ≠ [] := by
  obtain ⟨body, -, rfl⟩ := h
  exact concat_ne_nil _ _

theorem IsLine.drop {l : Bytes} (h : IsLine l) {k : ℕ} (hk : k < l.length) : IsLine (l.drop k) := by
  obtain ⟨body, hbody, rfl⟩ := h
  rw [length_append, length_singleton] at hk
  refine ⟨body.drop k, fun hmem => hbody (mem_of_mem_drop hmem), ?_⟩
  rw [drop_append_of_le_length (by omega)]

section Editing

variable {isig : Bool} {ls : List Bytes} {cur : Bytes} {ch : UInt8}

theorem press_lines : (mk ls cur).press isig ch =
    { lines := ls ++ ((mk [] cur).press isig ch).lines
      current := ((mk [] cur).press isig ch).current } := by
  unfold press
  dsimp only
  split_ifs <;> simp

theorem foldl_press_lines (keys : Bytes) : keys.foldl (press isig) ⟨ls, cur⟩ =
    { lines := ls ++ (keys.foldl (press isig) ⟨[], cur⟩).lines
      current := (keys.foldl (press isig) ⟨[], cur⟩).current } := by
  induction keys generalizing ls cur with
  | nil => simp
  | cons ch keys ih =>
    rw [foldl_cons, foldl_cons, press_lines, ih]
    generalize ((mk [] cur).press isig ch) = e
    obtain ⟨ls', cur'⟩ := e
    dsimp only
    rw [@ih ls' cur', append_assoc]

def KeysFit (isig : Bool) : Bytes → Bytes → Prop
  | _, [] => True
  | cur, ch :: keys => ch ≠ 0 ∧ KeyFits isig cur ch ∧ KeysFit isig ((Editor.mk [] cur).press isig ch).current keys

theorem keysFit_concat (keys : Bytes) : KeysFit isig cur (keys ++ [ch]) ↔
    KeysFit isig cur keys ∧ ch ≠ 0 ∧ KeyFits isig (keys.foldl (press isig) ⟨[], cur⟩).current ch := by
  induction keys generalizing cur with
  | nil =>
    change (ch ≠ 0 ∧ KeyFits isig cur ch ∧ True) ↔ True ∧ ch ≠ 0 ∧ KeyFits isig cur ch
    rw [and_true, true_and]
  | cons c keys ih =>
    change (c ≠ 0 ∧ KeyFits isig cur c ∧ KeysFit isig ((mk [] cur).press isig c).current (keys ++ [ch])) ↔
      (c ≠ 0 ∧ KeyFits isig cur c ∧ KeysFit isig ((mk [] cur).press isig c).current keys) ∧ _
    rw [ih, foldl_cons]
    generalize (mk [] cur).press isig c = e
    obtain ⟨ls', cur'⟩ := e
    rw [@foldl_press_lines isig ls' cur']
    simp only [and_assoc]

def FillsRight (isig : Bool) (keys cur : Bytes) : LineFill → Prop
  | .waits keys' line => keys' = [] ∧ keys.foldl (Editor.press isig) ⟨[], cur⟩ = ⟨[], line⟩ ∧ newline ∉ line
  | .interrupted keys' line => line = [] ∧ isig = true ∧ 3 ∈ keys ∧ KeysFit isig [] keys' ∧
      keys.foldl (Editor.press isig) ⟨[], cur⟩ = keys'.foldl (Editor.press isig) ⟨[], []⟩
  | .line keys' line => IsLine line ∧ KeysFit isig [] keys' ∧ keys'.length < keys.length ∧
      keys.foldl (Editor.press isig) ⟨[], cur⟩ = keys'.foldl (Editor.press isig) ⟨[line], []⟩

theorem FillsRight.cons {keys cur' : Bytes} (hpress : (mk [] cur).press isig ch = ⟨[], cur'⟩) {f : LineFill}
    (h : FillsRight isig keys cur' f) : FillsRight isig (ch :: keys) cur f := by
  cases f with
  | waits keys' line =>
    obtain ⟨hnil, hfold, hline⟩ := h
    refine ⟨hnil, ?_, hline⟩
    rw [foldl_cons, hpress, hfold]
  | interrupted keys' line =>
    obtain ⟨hnil, hisig, hmem, hfit, hfold⟩ := h
    refine ⟨hnil, hisig, mem_cons_of_mem _ hmem, hfit, ?_⟩
    rw [foldl_cons, hpress, hfold]
  | line keys' line =>
    obtain ⟨hline, hfit, hlen, hfold⟩ := h
    refine ⟨hline, hfit, hlen.trans (Nat.lt_succ_self _), ?_⟩
    rw [foldl_cons, hpress, hfold]

theorem fillLine_right (keys : Bytes) (hfit : KeysFit isig cur keys) (hcur : newline ∉ cur) :
    FillsRight isig keys cur (fillLine isig keys cur) := by
  induction keys generalizing cur with
  | nil => exact ⟨rfl, rfl, hcur⟩
  | cons ch keys ih =>
    obtain ⟨hne, hkey, hrest⟩ := hfit
    unfold fillLine
    rw [if_neg hne]
    dsimp only
    unfold KeyFits at hkey
    by_cases hintr : isig = true ∧ ch = 3
    · obtain ⟨hisig, rfl⟩ := hintr
      rw [if_pos ⟨hisig, rfl⟩] at hkey
      subst hkey
      have hthree : (if (3 : UInt8) = carriageReturn then newline else 3) = 3 := rfl
      have hpress : (mk [] []).press isig 3 = ⟨[], []⟩ := by
        unfold press
        dsimp only
        rw [hthree, if_pos ⟨hisig, rfl⟩]
      rw [hthree, if_pos ⟨hisig, rfl⟩]
      rw [hpress] at hrest
      refine ⟨rfl, hisig, mem_cons_self, hrest, ?_⟩
      rw [foldl_cons, hpress]
    · rw [if_neg hintr] at hkey
      generalize hn : (if ch = carriageReturn then newline else ch) = c
      have hc3 : ¬ (isig = true ∧ c = 3) := by
        rintro ⟨hisig, hc⟩
        rw [hc] at hn
        split at hn
        · exact absurd hn (by decide)
        · exact hintr ⟨hisig, hn⟩
      have herase : c = 8 ∨ c = 127 ↔ ch = 8 ∨ ch = 127 := by
        rw [← hn]
        split
        · rename_i hcr
          rw [hcr]
          decide
        · exact Iff.rfl
      have hpressEq : (mk [] cur).press isig ch =
          if c = 8 ∨ c = 127 then ⟨[], cur.dropLast⟩ else if c = newline then ⟨[cur ++ [newline]], []⟩
          else ⟨[], cur ++ [c]⟩ := by
        unfold press
        dsimp only
        rw [hn, if_neg hc3]
        rfl
      rw [if_neg hc3]
      by_cases hback : c = 8 ∨ c = 127
      · rw [if_pos hback] at hpressEq ⊢
        rw [hpressEq] at hrest
        exact (ih hrest fun hmem => hcur ((dropLast_sublist _).subset hmem)).cons hpressEq
      rw [if_neg hback] at hpressEq ⊢
      have hroom : cur.length < ttyLineMax := by
        rcases hkey with h8 | h127 | hlt
        · exact absurd (herase.mpr (Or.inl h8)) hback
        · exact absurd (herase.mpr (Or.inr h127)) hback
        · exact hlt
      rw [if_pos hroom]
      by_cases hnew : c = newline
      · rw [if_pos hnew] at hpressEq ⊢
        rw [hpressEq] at hrest
        refine ⟨⟨cur, hcur, by rw [hnew]⟩, hrest, Nat.lt_succ_self _, ?_⟩
        rw [foldl_cons, hpressEq, hnew]
      rw [if_neg hnew] at hpressEq ⊢
      rw [hpressEq] at hrest
      refine (ih hrest fun hmem => ?_).cons hpressEq
      rcases mem_append.mp hmem with hold | hlast
      · exact hcur hold
      · exact hnew (mem_singleton.mp hlast).symm

end Editing

/-! ## The outer loop -/

/-- A line that is in the buffer is copied up to its end, or as far as there is room. -/
theorem copyLoop_line {c : Console} {call : ConsoleCall} {fuel : ℕ} (hline : IsLine (c.line.drop c.pos))
    (hlen : call.out.length < call.len) (hfuel : call.len - call.out.length < fuel) :
    copyLoop fuel c call = ({ c with pos := c.pos + min (call.len - call.out.length) (c.line.drop c.pos).length },
        .done (call.out ++ (c.line.drop c.pos).take (call.len - call.out.length))) := by
  induction fuel generalizing c call with
  | zero => omega
  | succ fuel ih =>
    have hpos : c.pos < c.line.length := by
      by_contra hnot
      exact hline.ne_nil (drop_eq_nil_of_le (by omega))
    have hcons := drop_eq_getElem_cons hpos
    have hbyte : rd8 c.line c.pos = c.line[c.pos] := getD_eq_getElem _ _ hpos
    have hrest : (c.line.drop c.pos).length = (c.line.drop (c.pos + 1)).length + 1 := by
      rw [hcons, length_cons]
    unfold copyLoop
    rw [if_pos hlen, if_pos hpos]
    dsimp only
    rw [hbyte]
    obtain ⟨room, hroom⟩ : ∃ room, call.len - call.out.length = room + 1 :=
      ⟨call.len - call.out.length - 1, by omega⟩
    by_cases hnew : c.line[c.pos] = newline
    · have hlast : c.line.drop (c.pos + 1) = [] := by
        obtain ⟨body, hbody, heq⟩ := hline
        rw [hcons] at heq
        cases body with
        | nil => exact (cons.inj heq).2
        | cons b body =>
          have hb : b = newline := by
            rw [← hnew]
            exact (cons.inj heq).1.symm
          exact absurd (hb ▸ mem_cons_self) hbody
      rw [if_pos hnew, hroom, hcons, hlast, take_succ_cons, take_nil, length_singleton,
        Nat.min_eq_right (Nat.le_add_left 1 room)]
    · have htail : IsLine (c.line.drop (c.pos + 1)) := by
        rw [← drop_drop]
        apply hline.drop
        obtain ⟨body, -, heq⟩ := hline
        rw [heq, length_append, length_singleton]
        by_contra hshort
        obtain rfl : body = [] := eq_nil_of_length_eq_zero (by omega)
        rw [hcons] at heq
        exact hnew (cons.inj heq).1
      have hout : (call.out ++ [c.line[c.pos]]).length = call.out.length + 1 := by
        rw [length_append, length_singleton]
      rw [if_neg hnew, hroom, hcons, take_succ_cons, length_cons]
      by_cases hmore : call.out.length + 1 < call.len
      · have hstep := @ih { c with pos := c.pos + 1 } { call with out := call.out ++ [c.line[c.pos]] } htail
          (by rw [hout]; exact hmore) (by rw [hout]; dsimp only; omega)
        rw [hstep, hout]
        dsimp only
        rw [show call.len - (call.out.length + 1) = room by omega, append_assoc, Nat.add_min_add_right,
          Nat.add_right_comm, Nat.add_assoc]
        rfl
      obtain rfl : room = 0 := by omega
      cases fuel with
      | zero => omega
      | succ fuel =>
        unfold copyLoop
        rw [hout]
        dsimp only
        rw [if_neg hmore, take_zero, Nat.add_min_add_right, Nat.zero_min]

/-- No read waits: the buffer holds the rest of the oldest line, if it has been delivered in part. -/
def Idle (c : Console) (e : Editor) : Prop :=
  KeysFit c.isig [] c.keys ∧ (c.line.drop c.pos = [] ∧ e = c.keys.foldl (Editor.press c.isig) ⟨[], []⟩ ∨
      IsLine (c.line.drop c.pos) ∧ e = c.keys.foldl (Editor.press c.isig) ⟨[c.line.drop c.pos], []⟩)

/-- A read waits: the buffer holds the line that is being typed. -/
def Filling (c : Console) (e : Editor) : Prop :=
  c.pos = 0 ∧ newline ∉ c.line ∧ KeysFit c.isig c.line c.keys ∧ e = c.keys.foldl (Editor.press c.isig) ⟨[], c.line⟩

/-- How a read of `len` bytes leaves the console. -/
def LeavesRight (c : Console) (e : Editor) (len : ℕ) (out : Console × ReadEnd) : Prop :=
  out.1.isig = c.isig ∧
  match out.2 with
  | .done bs => bs = (e.deliver len).2 ∧ e.lines ≠ [] ∧ Idle out.1 (e.deliver len).1
  | .eintr => c.isig = true ∧ 3 ∈ c.keys ∧ Idle out.1 e
  | .waits call => call = { len := len } ∧ e.lines = [] ∧ Filling out.1 e

section Reads

variable {c : Console} {e : Editor} {len fuel : ℕ}

theorem copyLoop_right (hfit : KeysFit c.isig [] c.keys) (hline : IsLine (c.line.drop c.pos))
    (he : e = c.keys.foldl (press c.isig) ⟨[c.line.drop c.pos], []⟩) (hlen : 0 < len) (hfuel : len < fuel) :
    LeavesRight c e len (copyLoop fuel c { len := len }) := by
  rw [foldl_press_lines] at he
  have hcopy := @copyLoop_line c { len := len } fuel hline hlen hfuel
  dsimp only at hcopy
  rw [length_nil, Nat.sub_zero, nil_append] at hcopy
  rw [hcopy]
  subst he
  refine ⟨rfl, rfl, cons_ne_nil _ _, hfit, ?_⟩
  unfold deliver
  dsimp only
  rw [singleton_append]
  dsimp only
  rw [← drop_drop]
  by_cases hall : (c.line.drop c.pos).length ≤ len
  · left
    rw [if_pos hall, Nat.min_eq_right hall]
    exact ⟨drop_eq_nil_of_le le_rfl, rfl⟩
  right
  rw [if_neg hall, Nat.min_eq_left (by omega)]
  exact ⟨hline.drop (by omega), (@foldl_press_lines c.isig [_] [] c.keys).symm⟩

theorem afterFill_right (h : Filling c e) (hlen : 0 < len) (hfuel : len < fuel) :
    LeavesRight c e len (afterFill (copyLoop fuel · { len := len }) c { len := len }
      (fillLine c.isig c.keys c.line)) := by
  obtain ⟨hpos, hline, hfit, he⟩ := h
  have hright := fillLine_right c.keys hfit hline
  rw [he]
  generalize fillLine c.isig c.keys c.line = f at hright ⊢
  cases f with
  | waits keys line =>
    obtain ⟨rfl, hfold, hnot⟩ := hright
    rw [hfold]
    exact ⟨rfl, rfl, rfl, hpos, hnot, trivial, rfl⟩
  | interrupted keys line =>
    obtain ⟨rfl, hisig, hmem, hkeys, hfold⟩ := hright
    rw [hfold]
    exact ⟨rfl, hisig, hmem, hkeys, Or.inl ⟨drop_nil, rfl⟩⟩
  | line keys line =>
    obtain ⟨hisline, hkeys, -, hfold⟩ := hright
    rw [hfold]
    have hdrop : line.drop c.pos = line := by rw [hpos, drop_zero]
    have hright := @copyLoop_right { c with keys := keys, line := line }
      (keys.foldl (press c.isig) ⟨[line], []⟩) len fuel hkeys (by rwa [hdrop]) (by rw [hdrop]) hlen hfuel
    have hdone := @copyLoop_line { c with keys := keys, line := line } { len := len } fuel (by rwa [hdrop]) hlen hfuel
    change LeavesRight c _ len (copyLoop fuel { c with keys := keys, line := line } { len := len })
    rw [hdone] at hright ⊢
    exact hright

theorem doSysRead_right (h : Idle c e) (hlen : 0 < len) : LeavesRight c e len (doSysRead c len) := by
  obtain ⟨hfit, hrest⟩ := h
  unfold doSysRead copyRounds
  rw [if_neg (by omega)]
  rcases hrest with ⟨hnil, he⟩ | ⟨hline, he⟩
  · have hpos : ¬ c.pos < c.line.length := by
      intro hlt
      have hlen := congrArg length hnil
      rw [length_drop, length_nil] at hlen
      omega
    have hfill : Filling { c with line := [], pos := 0 } e := ⟨rfl, not_mem_nil, hfit, he⟩
    unfold copyLoop
    rw [if_pos (by exact hlen), if_neg hpos]
    exact afterFill_right hfill hlen (by dsimp only; omega)
  · exact copyLoop_right hfit hline he hlen (by dsimp only; omega)

end Reads

/-! ## What the editor keeps -/

section Keeps

variable {isig : Bool} {e : Editor} {ch : UInt8} {len : ℕ}

theorem press_fresh (h : newline ∉ e.current) : newline ∉ (e.press isig ch).current := by
  unfold press
  dsimp only
  generalize (if ch = carriageReturn then newline else ch) = c
  split
  · exact not_mem_nil
  split
  · exact fun hmem => h ((dropLast_sublist _).subset hmem)
  split
  · exact not_mem_nil
  rename_i hnew
  intro hmem
  rcases mem_append.mp hmem with hold | hlast
  · exact h hold
  · exact hnew (mem_singleton.mp hlast).symm

theorem press_isLine (hlines : ∀ l ∈ e.lines, IsLine l) (h : newline ∉ e.current) :
    ∀ l ∈ (e.press isig ch).lines, IsLine l := by
  unfold press
  dsimp only
  generalize (if ch = carriageReturn then newline else ch) = c
  split
  · exact hlines
  split
  · exact hlines
  split
  · intro l hl
    rcases mem_append.mp hl with hold | hlast
    · exact hlines l hold
    · exact ⟨e.current, h, mem_singleton.mp hlast⟩
  · exact hlines

theorem deliver_lines (hlines : ∀ l ∈ e.lines, IsLine l) : ∀ l ∈ (e.deliver len).1.lines, IsLine l := by
  unfold deliver
  cases hcases : e.lines with
  | nil =>
    dsimp only
    rw [hcases]
    exact fun l hl => absurd hl not_mem_nil
  | cons line ls =>
    rw [hcases] at hlines
    dsimp only
    split
    · exact fun l hl => hlines l (mem_cons_of_mem _ hl)
    rename_i hlong
    intro l hl
    rcases mem_cons.mp hl with rfl | hold
    · exact (hlines line mem_cons_self).drop (by omega)
    · exact hlines l (mem_cons_of_mem _ hold)

theorem deliver_flatten : (e.deliver len).2 ++ (e.deliver len).1.lines.flatten = e.lines.flatten := by
  unfold deliver
  cases hcases : e.lines with
  | nil =>
    dsimp only
    rw [hcases]
    rfl
  | cons line ls =>
    dsimp only
    split
    · rename_i hshort
      rw [take_of_length_le hshort, flatten_cons]
    · rw [flatten_cons, flatten_cons, ← append_assoc, take_append_drop]

theorem deliver_current : (e.deliver len).1.current = e.current := by
  unfold deliver
  cases e.lines with
  | nil => rfl
  | cons line ls => rfl

theorem deliver_zero (hlines : ∀ l ∈ e.lines, IsLine l) : e.deliver 0 = (e, []) := by
  unfold deliver
  cases hcases : e.lines with
  | nil => rfl
  | cons line ls =>
    have hne := (hlines line (by rw [hcases]; exact mem_cons_self)).ne_nil
    have hpos : ¬ line.length ≤ 0 := fun h => hne (eq_nil_of_length_eq_zero (Nat.le_zero.mp h))
    dsimp only
    rw [if_neg hpos, drop_zero, take_zero, ← hcases]

end Keeps

/-! ## Runs of keys and reads -/

namespace ConsoleSys

/-- The editor agrees with one that sees all keys, and the console is at rest or fills its buffer for one read. -/
structure InStep (s : ConsoleSys) : Prop where
  faithful : s.Faithful
  current : s.editor.current = (s.typed.foldl (Editor.press s.console.isig) {}).current
  fresh : newline ∉ s.editor.current
  console : s.waiting = [] ∧ Idle s.console s.editor ∨
    ∃ len, 0 < len ∧ s.waiting = [{ len := len }] ∧ Filling s.console s.editor

theorem inv_init (isig : Bool) : InStep { console := { isig := isig } } := by
  have hidle : Idle { isig := isig } {} := ⟨trivial, Or.inl ⟨rfl, rfl⟩⟩
  exact ⟨⟨rfl, fun l hl => absurd hl not_mem_nil⟩, rfl, not_mem_nil, Or.inl ⟨rfl, hidle⟩⟩

variable {s : ConsoleSys}

theorem InStep.key (h : s.InStep) {ch : UInt8} (hne : ch ≠ 0) (hfits : KeyFits s.console.isig s.editor.current ch) :
    (s.step (.key ch hne)).InStep := by
  have hlines : ∀ l ∈ s.editor.lines, IsLine l := h.faithful.lines
  have htyped : (s.typed ++ [ch]).foldl (Editor.press s.console.isig) {} =
      (s.typed.foldl (Editor.press s.console.isig) {}).press s.console.isig ch := by
    rw [foldl_append]
    rfl
  have hpress : ∀ ls cur, (Editor.mk ls cur).press s.console.isig ch =
      ⟨ls ++ ((Editor.mk [] cur).press s.console.isig ch).lines,
        ((Editor.mk [] cur).press s.console.isig ch).current⟩ :=
    fun ls cur => press_lines
  have hbytes := h.faithful.bytes
  have hcurrent := h.current
  refine ⟨⟨?_, press_isLine hlines h.fresh⟩, ?_, press_fresh h.fresh, ?_⟩
  · dsimp only [step]
    rw [htyped]
    generalize s.typed.foldl (Editor.press s.console.isig) {} = ref at hbytes hcurrent ⊢
    obtain ⟨ls, cur⟩ := ref
    generalize s.editor = e at hbytes hcurrent ⊢
    obtain ⟨ls', cur'⟩ := e
    dsimp only at hbytes hcurrent
    subst hcurrent
    rw [hpress ls, hpress ls']
    dsimp only
    rw [flatten_append, flatten_append, ← append_assoc, hbytes]
  · dsimp only [step]
    rw [htyped]
    generalize s.typed.foldl (Editor.press s.console.isig) {} = ref at hcurrent ⊢
    obtain ⟨ls, cur⟩ := ref
    generalize s.editor = e at hcurrent ⊢
    obtain ⟨ls', cur'⟩ := e
    dsimp only at hcurrent
    subst hcurrent
    rw [hpress ls, hpress ls']
  · have hgrow : ∀ ls cur, KeysFit s.console.isig cur s.console.keys →
        s.editor = s.console.keys.foldl (Editor.press s.console.isig) ⟨ls, cur⟩ →
        KeysFit s.console.isig cur (s.console.keys ++ [ch]) ∧ s.editor.press s.console.isig ch =
            (s.console.keys ++ [ch]).foldl (Editor.press s.console.isig) ⟨ls, cur⟩ := by
      intro ls cur hfit he
      rw [he, foldl_press_lines] at hfits
      refine ⟨(keysFit_concat _).mpr ⟨hfit, hne, hfits⟩, ?_⟩
      rw [foldl_append, ← he]
      rfl
    rcases h.console with ⟨hwaiting, hfit, hidle⟩ | ⟨len, hlen, hwaiting, hpos, hline, hfit, he⟩
    · refine Or.inl ⟨hwaiting, ?_⟩
      rcases hidle with ⟨hnil, he⟩ | ⟨hline, he⟩
      · obtain ⟨hfit', he'⟩ := hgrow _ _ hfit he
        exact ⟨hfit', Or.inl ⟨hnil, he'⟩⟩
      · obtain ⟨hfit', he'⟩ := hgrow _ _ hfit he
        exact ⟨hfit', Or.inr ⟨hline, he'⟩⟩
    · obtain ⟨hfit', he'⟩ := hgrow _ _ hfit he
      exact Or.inr ⟨len, hlen, hwaiting, hpos, hline, hfit', he'⟩

/-- A read ends as it is to, and leaves the console at rest or waits alone. -/
theorem InStep.ended (h : s.InStep) {len : ℕ} (hlen : 0 < len) {out : Console × ReadEnd}
    (hleaves : LeavesRight s.console s.editor len out) :
    s.EndsRight len out.2 ∧ (s.ended [] len out).InStep := by
  obtain ⟨c, r⟩ := out
  obtain ⟨hisig, hcase⟩ := hleaves
  dsimp only at hisig hcase
  have hbytes := h.faithful.bytes
  have hcurrent := h.current
  rw [← hisig] at hbytes hcurrent
  cases r with
  | done bs =>
    obtain ⟨rfl, hne, hidle⟩ := hcase
    refine ⟨⟨rfl, Or.inr hne⟩, ⟨?_, deliver_lines h.faithful.lines⟩, ?_, ?_, Or.inl ⟨rfl, hidle⟩⟩
    · dsimp only [ConsoleSys.ended]
      rw [append_assoc, deliver_flatten]
      exact hbytes
    · dsimp only [ConsoleSys.ended]
      rw [deliver_current]
      exact hcurrent
    · dsimp only [ConsoleSys.ended]
      rw [deliver_current]
      exact h.fresh
  | eintr =>
    obtain ⟨hset, hmem, hidle⟩ := hcase
    exact ⟨⟨hset, hmem⟩, ⟨hbytes, h.faithful.lines⟩, hcurrent, h.fresh, Or.inl ⟨rfl, hidle⟩⟩
  | waits call =>
    obtain ⟨rfl, hnone, hfilling⟩ := hcase
    exact ⟨hnone, ⟨hbytes, h.faithful.lines⟩, hcurrent, h.fresh, Or.inr ⟨len, hlen, rfl, hfilling⟩⟩

theorem InStep.read (h : s.InStep) (len : ℕ) (halone : s.waiting = []) :
    s.Delivers (.read len) ∧ (s.step (.read len)).InStep := by
  have hidle : Idle s.console s.editor := by
    rcases h.console with ⟨-, hidle⟩ | ⟨len', -, hwaiting, -⟩
    · exact hidle
    · rw [halone] at hwaiting
      cases hwaiting
  rcases Nat.eq_zero_or_pos len with rfl | hlen
  · have hzero := deliver_zero h.faithful.lines
    have hsame : s.step (.read 0) = s := by
      change { s with editor := (s.editor.deliver 0).1, returned := s.returned ++ [] } = s
      rw [hzero, append_nil]
    rw [hsame]
    refine ⟨⟨?_, Or.inl rfl⟩, h⟩
    rw [hzero]
  · have hended := h.ended hlen (doSysRead_right hidle hlen)
    rw [← halone] at hended
    exact hended

theorem InStep.woken (h : s.InStep) (i : ℕ) : s.Delivers (.woken i) ∧ (s.step (.woken i)).InStep := by
  cases hcall : s.waiting[i]? with
  | none =>
    have hsame : s.step (.woken i) = s := by
      dsimp only [step]
      rw [hcall]
    rw [hsame]
    refine ⟨fun call hsome => ?_, h⟩
    rw [hcall] at hsome
    cases hsome
  | some call =>
    rcases h.console with ⟨hwaiting, -⟩ | ⟨len, hlen, hwaiting, hfilling⟩
    · rw [hwaiting, getElem?_nil] at hcall
      cases hcall
    have hcall' := hcall
    rw [hwaiting, getElem?_singleton] at hcall'
    obtain ⟨rfl, hsome⟩ := Option.ite_none_right_eq_some.mp hcall'
    obtain rfl := Option.some.inj hsome
    have hrounds : len < copyRounds s.console { len := len } := by
      unfold copyRounds
      dsimp only
      omega
    have hended := h.ended hlen (afterFill_right hfilling hlen hrounds)
    have hstep : s.step (.woken 0) = s.ended [] len (doSysReadWoken s.console { len := len }) := by
      dsimp only [step]
      rw [hcall]
      dsimp only
      rw [hwaiting]
      rfl
    rw [hstep]
    refine ⟨fun call hsome' => ?_, hended.2⟩
    rw [hcall] at hsome'
    obtain rfl := Option.some.inj hsome'
    exact hended.1

theorem InStep.step {e : ConsoleEvent} (h : s.InStep) (hplain : s.Plain e) : s.Delivers e ∧ (s.step e).InStep := by
  cases e with
  | key ch hne => exact ⟨trivial, h.key hne hplain⟩
  | read len => exact h.read len hplain
  | woken i => exact h.woken i

end ConsoleSys

/-- Where no line outgrows the buffer, no interrupt comes into a line and reads do not overlap, every read delivers the
lines of the editor. -/
theorem console_lines_delivered (isig : Bool) (es : List ConsoleEvent)
    (h : Meets ConsoleSys.step ConsoleSys.Plain { console := { isig := isig } } es) :
    Meets ConsoleSys.step ConsoleSys.Delivers { console := { isig := isig } } es ∧
      (run ConsoleSys.step { console := { isig := isig } } es).Faithful := by
  have hstep : ∀ s e, ConsoleSys.InStep s → s.Plain e → (s.step e).InStep := fun s e hs hok => (hs.step hok).2
  have hinv := ConsoleSys.inv_init isig
  exact ⟨meets_of_invariant hstep (fun s e hs hok => (hs.step hok).1) hinv h, (run_invariant hstep hinv h).faithful⟩

/-- A read that waits while a line is typed and corrected, and one that takes what the first has left. -/
def correctedLine : List ConsoleEvent :=
  [.read 2, .key 97 (by decide), .key 98 (by decide), .woken 0, .key 8 (by decide), .key 99 (by decide),
    .key carriageReturn (by decide), .woken 0, .key 3 (by decide), .read 5]

theorem correctedLine_delivered : Meets ConsoleSys.step ConsoleSys.Plain { console := { isig := true } } correctedLine ∧
      Meets ConsoleSys.step ConsoleSys.Delivers { console := { isig := true } } correctedLine ∧
      (run ConsoleSys.step { console := { isig := true } } correctedLine).Faithful := by
  have h : Meets ConsoleSys.step ConsoleSys.Plain { console := { isig := true } } correctedLine := by
    decide +kernel
  exact ⟨h, console_lines_delivered true correctedLine h⟩

def interruptedLine : List ConsoleEvent :=
  [.key 97 (by decide), .key 3 (by decide), .key 98 (by decide), .key newline (by decide), .read 8, .read 8]

/-- The interrupted line is still in the buffer, and the next read hands it out. -/
theorem interruptedLine_returned : ¬ ∀ (isig : Bool) (es : List ConsoleEvent),
    Meets ConsoleSys.step ConsoleSys.Delivers { console := { isig := isig } } es ∧
      (run ConsoleSys.step { console := { isig := isig } } es).Faithful := by
  intro hclaim
  have hbytes := (hclaim true interruptedLine).2.bytes
  revert hbytes
  decide +kernel

end EdgeOS
