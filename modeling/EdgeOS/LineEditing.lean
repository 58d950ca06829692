import EdgeOS.Lib.Runs
import EdgeOS.Terminal

namespace EdgeOS

open Lib List Tty

/-!
Canonical input of a pseudo terminal against a reference editor. The code edits the ring of the
slave in place; the editor keeps the finished lines apart from the one that is being typed.
-/

inductive Key
  | intr | erase | newline | eof | char
  deriving DecidableEq, Repr

def Termios.key (t : Termios) (c : UInt8) : Key :=
  if t.isig ∧ c = t.cc linuxVintr then .intr
  else if c = t.cc linuxVerase then .erase
  else if c = EdgeOS.newline then .newline
  else if c = t.cc linuxVeof then .eof
  else .char

/-- The reference editor: the finished lines, oldest first, less what has been delivered, and
the line that is being typed. -/
structure Editor where
  lines : List (List UInt8) := []
  current : List UInt8 := []

namespace Editor

variable (e : Editor)

def type (t : Termios) (c : UInt8) : Editor :=
  match t.key c with
  | .intr => e
  | .erase => { e with current := e.current.dropLast }
  | .newline => { lines := e.lines ++ [e.current ++ [c]], current := [] }
  | .eof => { lines := e.lines ++ [e.current], current := [] }
  | .char => { e with current := e.current ++ [c] }

/-- A read gets bytes of the oldest line only; the line is done when all of it is delivered. -/
def deliver (len : ℕ) : Editor × List UInt8 :=
  match e.lines with
  | [] => (e, [])
  | line :: lines =>
    ({ e with lines := if line.length ≤ len then lines else line.drop len :: lines }, line.take len)

end Editor

/-- A terminal and the reference editor that sees the same bytes. -/
structure LineTty where
  tty : Tty
  editor : Editor := {}

/-- What can happen: a write to either end, a read of at least one byte from either end. A call
that waited is a later event. -/
inductive LineEvent
  | type (data : List UInt8) (peerRefs : ℕ) (nonblock interrupted : Bool)
  | read (len : ℕ) (peerRefs : ℕ) (nonblock interrupted : Bool) (b : Bounce)
  | print (data : List UInt8) (peerRefs : ℕ) (nonblock interrupted : Bool)
  | watch (len : ℕ) (peerRefs : ℕ) (nonblock interrupted : Bool) (b : Bounce)

namespace LineTty

variable (s : LineTty)

def step : LineEvent → LineTty
  | .type data peerRefs nonblock interrupted =>
    let out := ptyWrite s.tty .master peerRefs nonblock interrupted { data := data }
    { tty := out.1
      editor := (data.take (out.2.value 0)).foldl (Editor.type · s.tty.termios) s.editor }
  | .read len peerRefs nonblock interrupted b =>
    { tty := (ptyRead s.tty .slave peerRefs nonblock interrupted { len := len + 1 } b).1
      editor := (s.editor.deliver (len + 1)).1 }
  | .print data peerRefs nonblock interrupted =>
    { s with tty := (ptyWrite s.tty .slave peerRefs nonblock interrupted { data := data }).1 }
  | .watch len peerRefs nonblock interrupted b =>
    { s with tty := (ptyRead s.tty .master peerRefs nonblock interrupted { len := len + 1 } b).1 }

/-- A read of the slave delivers what the editor delivers, and nothing while no line is
finished. -/
def Delivers : LineEvent → Prop
  | .read len peerRefs nonblock interrupted b =>
    let out := (ptyRead s.tty .slave peerRefs nonblock interrupted { len := len + 1 } b).2
    if s.editor.lines = [] then
      out = if peerRefs = 0 then .ret (.ok []) else if nonblock then .ret (.error .eagain)
        else if interrupted then .ret (.error .eintr) else .wait
    else out = .ret (.ok (s.editor.deliver (len + 1)).2)
  | _ => True

/-- Of the bytes that fit, none is taken for `VEOF`, and with `ISIG` the interrupt key is 3. -/
def PlainKeys : LineEvent → Prop
  | .type data _ _ _ => ∀ c ∈ data.take (edgePtyBufSize - s.tty.m2s.count), s.tty.termios.key c ≠ .eof ∧
      (s.tty.termios.isig = true → (c = 3 ↔ c = s.tty.termios.cc linuxVintr))
  | _ => True

end LineTty

/-! ## What the master's bytes do to the ring -/

section Typing

variable {t : Tty} {c : UInt8}

@[simp] theorem ptyEchoSeqToMaster_m2s (t : Tty) (cs : List UInt8) : (ptyEchoSeqToMaster t cs).m2s = t.m2s := by
  induction cs generalizing t with
  | nil => rfl
  | cons c cs ih =>
    unfold ptyEchoSeqToMaster
    split
    · rfl
    · rw [ih]

@[simp] theorem ptyEchoSeqToMaster_termios (t : Tty) (cs : List UInt8) :
    (ptyEchoSeqToMaster t cs).termios = t.termios := by
  induction cs generalizing t with
  | nil => rfl
  | cons c cs ih =>
    unfold ptyEchoSeqToMaster
    split
    · rfl
    · rw [ih]

@[simp] theorem ptyEchoToMaster_m2s (t : Tty) (c : UInt8) : (ptyEchoToMaster t c).m2s = t.m2s :=
  ptyEchoSeqToMaster_m2s t [c]

@[simp] theorem ptyEchoToMaster_termios (t : Tty) (c : UInt8) :
    (ptyEchoToMaster t c).termios = t.termios := ptyEchoSeqToMaster_termios t [c]

theorem Tty.appendEchoed_m2s (t : Tty) (c : UInt8) : (t.appendEchoed c).m2s = t.m2s.push edgePtyBufSize c := by
  unfold appendEchoed
  dsimp only
  split_ifs <;> simp

theorem Tty.erase_m2s (t : Tty) :
    t.erase.m2s = if t.m2s.count > 0 ∧ t.m2s.buf (t.m2s.prev edgePtyBufSize) ≠ newline then
      t.m2s.unpush edgePtyBufSize else t.m2s := by
  unfold erase
  dsimp only
  split_ifs <;> simp

@[simp] theorem Tty.typeByte_termios (t : Tty) (c : UInt8) : (t.typeByte c).termios = t.termios := by
  unfold typeByte erase appendEchoed
  dsimp only
  split_ifs <;> simp

theorem Tty.typeByte_m2s (t : Tty) (c : UInt8) : (t.typeByte c).m2s = if t.termios.isig ∧ c = 3 then t.m2s
      else if t.termios.icanon ∧ c = t.termios.cc linuxVerase then
        if t.m2s.count > 0 ∧ t.m2s.buf (t.m2s.prev edgePtyBufSize) ≠ newline then
          t.m2s.unpush edgePtyBufSize else t.m2s
      else t.m2s.push edgePtyBufSize c := by
  unfold typeByte
  split
  · split
    · exact ptyEchoSeqToMaster_m2s _ _
    · rfl
  split
  · exact t.erase_m2s
  · exact t.appendEchoed_m2s c

theorem Tty.typeByte_count (t : Tty) (c : UInt8) : (t.typeByte c).m2s.count ≤ t.m2s.count + 1 := by
  rw [typeByte_m2s]
  split
  · omega
  split
  · split
    · change t.m2s.count - 1 ≤ _
      omega
    · omega
  · exact le_rfl

theorem Tty.typeByte_valid (h : t.m2s.Valid edgePtyBufSize) (hroom : t.m2s.count < edgePtyBufSize) :
    (t.typeByte c).m2s.Valid edgePtyBufSize := by
  rw [typeByte_m2s]
  split
  · exact h
  split
  · split
    · rename_i hpos
      exact h.unpush hpos.1
    · exact h
  · exact h.push hroom c

theorem take_min_length {α : Type*} (l : List α) (n : ℕ) : l.take (min l.length n) = l.take n := by
  rw [min_comm]
  exact take_eq_take_min.symm

/-- With a good buffer and room for every byte the loop types them one after the other. -/
theorem ptyWriteLoop_typed (data : List UInt8) (k i : ℕ) (t : Tty) (hk : i + k ≤ data.length)
    (hroom : t.m2s.count + k ≤ edgePtyBufSize) :
    ptyWriteLoop .master { data := data } k t i = (((data.drop i).take k).foldl typeByte t, .ok (i + k)) := by
  induction k generalizing i t with
  | zero => simp [ptyWriteLoop]
  | succ k ih =>
    have hi : i < data.length := by omega
    have hbyte : UserBuf.byte { data := data } i = some data[i] := by
      unfold UserBuf.byte
      simp [hi]
    have hfits : t.writeByte .master data[i] = some (t.typeByte data[i]) := by
      have hslots : t.crlf .master data[i] = false := by simp [crlf]
      unfold writeByte
      rw [hslots, if_neg]
      change ¬ edgePtyBufSize - t.m2s.count < 1
      omega
    have hcount := t.typeByte_count data[i]
    rw [ptyWriteLoop, hbyte]
    dsimp only
    rw [hfits]
    dsimp only
    rw [ih (i + 1) _ (by omega) (by omega), drop_eq_getElem_cons hi, take_succ_cons, foldl_cons]
    congr 2
    omega

theorem ptyWrite_typed {t : Tty} (hroom : t.m2s.count < edgePtyBufSize) (data : List UInt8)
    (peerRefs : ℕ) (nonblock interrupted : Bool) :
    ptyWrite t .master peerRefs nonblock interrupted { data := data } =
      ((data.take (edgePtyBufSize - t.m2s.count)).foldl typeByte t,
        .ret (.ok (min data.length (edgePtyBufSize - t.m2s.count)))) := by
  unfold ptyWrite
  rw [if_neg (by change ¬ t.m2s.count ≥ edgePtyBufSize; omega)]
  have hdest : t.dest .master = t.m2s := rfl
  dsimp only
  rw [hdest, ptyWriteLoop_typed data _ 0 t (by omega) (by omega), drop_zero, Nat.zero_add, take_min_length]

end Typing

/-! ## The ring and the editor -/

/-- The ring holds the finished lines and the current one, and the bytes that end a line are
where the editor has them. -/
structure LineTty.Tracks (s : LineTty) : Prop where
  valid : s.tty.m2s.Valid edgePtyBufSize
  icanon : s.tty.termios.icanon = true
  ring : s.tty.input = s.editor.lines.flatten ++ s.editor.current
  lines : ∀ l ∈ s.editor.lines, ∃ body, l = body ++ [newline] ∧ ∀ c ∈ body, s.tty.termios.isDelim c = false
  current : ∀ c ∈ s.editor.current, s.tty.termios.isDelim c = false

namespace LineTty.Tracks

variable {s : LineTty}

theorem isDelim_newline (t : Termios) : t.isDelim newline = true := by simp [Termios.isDelim]

/-- The last byte of the ring, if the current line is empty. -/
theorem prev_newline (h : s.Tracks) (hcur : s.editor.current = []) (hpos : 0 < s.tty.m2s.count) :
    s.tty.m2s.buf (s.tty.m2s.prev edgePtyBufSize) = newline := by
  have hring := h.ring
  have hun := h.valid.contents_unpush hpos
  rw [hcur, append_nil] at hring
  have hlast : s.editor.lines.flatten.getLast? = some (s.tty.m2s.buf (s.tty.m2s.prev edgePtyBufSize)) := by
    rw [← hring]
    change (s.tty.m2s.contents edgePtyBufSize).getLast? = _
    rw [hun, getLast?_concat]
  rcases eq_nil_or_concat s.editor.lines with hnil | ⟨ls, l, hls⟩
  · rw [hnil] at hlast
    simp at hlast
  rw [concat_eq_append] at hls
  obtain ⟨body, hl, -⟩ := h.lines l (by rw [hls]; simp)
  rw [hls, flatten_append, flatten_singleton, getLast?_append, hl, getLast?_concat] at hlast
  simpa using hlast.symm

/-- With a current line, the last byte of the ring is its last byte. -/
theorem prev_current (h : s.Tracks) {cs : List UInt8} {c : UInt8} (hcur : s.editor.current = cs ++ [c]) :
    0 < s.tty.m2s.count ∧ s.tty.m2s.buf (s.tty.m2s.prev edgePtyBufSize) = c ∧
      (s.tty.m2s.unpush edgePtyBufSize).contents edgePtyBufSize = s.editor.lines.flatten ++ cs := by
  have hring := h.ring
  rw [hcur, ← append_assoc] at hring
  have hpos : 0 < s.tty.m2s.count := by
    have hlen := congrArg List.length hring
    unfold input at hlen
    rw [RingBuffer.length_contents] at hlen
    simp at hlen
    omega
  have hun := h.valid.contents_unpush hpos
  unfold input at hring
  rw [hun] at hring
  obtain ⟨hrest, hlast⟩ := append_inj' hring rfl
  exact ⟨hpos, head_eq_of_cons_eq hlast, hrest⟩

/-- A byte that is neither `VEOF` nor an interrupt key in one sense only does to the ring what
it does to the editor. -/
theorem typeByte (h : s.Tracks) {c : UInt8} (hroom : s.tty.m2s.count < edgePtyBufSize)
    (hkey : s.tty.termios.key c ≠ .eof)
    (hintr : s.tty.termios.isig = true → (c = 3 ↔ c = s.tty.termios.cc linuxVintr)) :
    LineTty.Tracks ⟨s.tty.typeByte c, s.editor.type s.tty.termios c⟩ := by
  have hinput : ∀ {r : RingBuffer UInt8} {l : List UInt8}, (s.tty.typeByte c).m2s = r →
      r.contents edgePtyBufSize = l → (s.tty.typeByte c).input = l := by
    intro r l hr hl
    unfold input
    rw [hr, hl]
  have hvalid := typeByte_valid (c := c) h.valid hroom
  have hterm := s.tty.typeByte_termios c
  have hm2s := s.tty.typeByte_m2s c
  have hpush := h.valid.contents_push hroom c
  have hring : s.tty.m2s.contents edgePtyBufSize = _ := h.ring
  unfold Termios.key at hkey
  unfold Editor.type Termios.key
  by_cases hi : s.tty.termios.isig = true ∧ c = s.tty.termios.cc linuxVintr
  · rw [if_pos ⟨hi.1, (hintr hi.1).mpr hi.2⟩] at hm2s
    rw [if_pos hi]
    exact ⟨hvalid, hterm ▸ h.icanon, hinput hm2s hring, hterm ▸ h.lines, hterm ▸ h.current⟩
  have hi3 : ¬ (s.tty.termios.isig = true ∧ c = 3) := fun h3 => hi ⟨h3.1, (hintr h3.1).mp h3.2⟩
  rw [if_neg hi] at hkey ⊢
  rw [if_neg hi3] at hm2s
  by_cases he : c = s.tty.termios.cc linuxVerase
  · rw [if_pos ⟨h.icanon, he⟩] at hm2s
    rw [if_pos he]
    rcases eq_nil_or_concat s.editor.current with hnil | ⟨cs, d, hcur⟩
    · -- nothing typed since the last line: the ring is empty or ends with a newline
      have hkeep : ¬ (s.tty.m2s.count > 0 ∧ s.tty.m2s.buf (s.tty.m2s.prev edgePtyBufSize) ≠ newline) :=
        fun hp => hp.2 (h.prev_newline hnil hp.1)
      rw [if_neg hkeep] at hm2s
      have hdrop : s.editor.current.dropLast = s.editor.current := by rw [hnil]; rfl
      dsimp only
      rw [hdrop]
      exact ⟨hvalid, hterm ▸ h.icanon, hinput hm2s hring, hterm ▸ h.lines, hterm ▸ h.current⟩
    rw [concat_eq_append] at hcur
    obtain ⟨hpos, hprev, hrest⟩ := h.prev_current hcur
    have hd : s.tty.termios.isDelim d = false := h.current d (by rw [hcur]; simp)
    have hne : d ≠ newline := by
      rintro rfl
      rw [isDelim_newline] at hd
      exact Bool.noConfusion hd
    rw [if_pos ⟨hpos, by rw [hprev]; exact hne⟩] at hm2s
    dsimp only
    rw [hcur, dropLast_concat]
    have hcs : ∀ x ∈ cs, s.tty.termios.isDelim x = false := fun x hx => h.current x (by rw [hcur]; simp [hx])
    exact ⟨hvalid, hterm ▸ h.icanon, hinput hm2s hrest, hterm ▸ h.lines, hterm ▸ hcs⟩
  rw [if_neg he] at hkey ⊢
  rw [if_neg (by simp [he])] at hm2s
  by_cases hn : c = newline
  · rw [if_pos hn]
    refine ⟨hvalid, hterm ▸ h.icanon, ?_, ?_, by simp⟩
    · refine hinput hm2s ?_
      rw [hpush, hring]
      simp
    · intro l hl
      rw [hterm]
      rcases mem_append.mp hl with hl | hl
      · exact h.lines l hl
      · refine ⟨s.editor.current, ?_, h.current⟩
        rw [mem_singleton.mp hl, hn]
  · rw [if_neg hn] at hkey ⊢
    by_cases hf : c = s.tty.termios.cc linuxVeof
    · exact absurd (if_pos hf) hkey
    rw [if_neg hf]
    refine ⟨hvalid, hterm ▸ h.icanon, ?_, hterm ▸ h.lines, ?_⟩
    · refine hinput hm2s ?_
      rw [hpush, hring, append_assoc]
    · intro x hx
      rw [hterm]
      rcases mem_append.mp hx with hx | hx
      · exact h.current x hx
      · rw [mem_singleton.mp hx]
        simp [Termios.isDelim, hn, hf]

theorem typeBytes (h : s.Tracks) (cs : List UInt8) (hroom : s.tty.m2s.count + cs.length ≤ edgePtyBufSize)
    (hkeys : ∀ c ∈ cs, s.tty.termios.key c ≠ .eof ∧
      (s.tty.termios.isig = true → (c = 3 ↔ c = s.tty.termios.cc linuxVintr))) :
    LineTty.Tracks ⟨cs.foldl Tty.typeByte s.tty, cs.foldl (Editor.type · s.tty.termios) s.editor⟩ := by
  induction cs generalizing s with
  | nil => exact h
  | cons c cs ih =>
    rw [length_cons] at hroom
    obtain ⟨hkey, hintr⟩ := hkeys c (by simp)
    have hcount := s.tty.typeByte_count c
    have hterm := s.tty.typeByte_termios c
    have hnext := ih (h.typeByte (by omega) hkey hintr) (by change (s.tty.typeByte c).m2s.count + _ ≤ _; omega)
      (fun x hx => by
        change (s.tty.typeByte c).termios.key x ≠ .eof ∧ ((s.tty.typeByte c).termios.isig = true →
          (x = 3 ↔ x = (s.tty.typeByte c).termios.cc linuxVintr))
        rw [hterm]
        exact hkeys x (by simp [hx]))
    have hfold : cs.foldl (Editor.type · (s.tty.typeByte c).termios) (s.editor.type s.tty.termios c) =
        (c :: cs).foldl (Editor.type · s.tty.termios) s.editor := by
      rw [hterm]
      rfl
    rw [← hfold]
    exact hnext

theorem input_missing (h : s.Tracks) (hlines : s.editor.lines = []) : s.tty.inputMissing .slave = true := by
  have hring := h.ring
  rw [hlines, flatten_nil, nil_append] at hring
  have hnone : ptySlaveInputHaveCanonicalLine s.tty = false := by
    rw [haveCanonicalLine_eq h.valid, hring]
    simpa using h.current
  simp [inputMissing, hnone, h.icanon]

variable {line : List UInt8} {lines : List (List UInt8)}

theorem input_there (h : s.Tracks) (hlines : s.editor.lines = line :: lines) : s.tty.inputMissing .slave = false ∧
      lineLength s.tty.termios.isDelim s.tty.input = line.length := by
  obtain ⟨body, hl, hbody⟩ := h.lines line (by rw [hlines]; simp)
  have hring : s.tty.input = body ++ newline :: (lines.flatten ++ s.editor.current) := by
    rw [h.ring, hlines, hl]
    simp
  have hsome : ptySlaveInputHaveCanonicalLine s.tty = true := by
    rw [haveCanonicalLine_eq h.valid, hring]
    simp [isDelim_newline]
  have hpos : s.tty.m2s.count ≠ 0 := by
    have hlen := congrArg List.length hring
    unfold input at hlen
    rw [RingBuffer.length_contents] at hlen
    simp at hlen
    omega
  constructor
  · simp only [inputMissing, source]
    simp [hsome, hpos]
  · rw [hring, lineLength_append hbody (isDelim_newline _), hl]
    simp

theorem ptyRead (h : s.Tracks) (hlines : s.editor.lines = line :: lines) (len peerRefs : ℕ)
    (nonblock interrupted : Bool) (b : Bounce) :
    (EdgeOS.ptyRead s.tty .slave peerRefs nonblock interrupted { len := len } b).2 = .ret (.ok (line.take len)) ∧
      LineTty.Tracks ⟨(EdgeOS.ptyRead s.tty .slave peerRefs nonblock interrupted { len := len } b).1,
        (s.editor.deliver len).1⟩ := by
  obtain ⟨hthere, hline⟩ := h.input_there hlines
  obtain ⟨body, hl, hbody⟩ := h.lines line (by rw [hlines]; simp)
  have hring : s.tty.m2s.contents edgePtyBufSize = line ++ (lines.flatten ++ s.editor.current) := by
    change s.tty.input = _
    rw [h.ring, hlines, flatten_cons, append_assoc]
  have hsize : s.tty.readSize .slave len = min len line.length := by
    unfold readSize
    dsimp only
    rw [slaveReadLimit_canonical h.valid h.icanon, hline]
  have hle : min len line.length ≤ s.tty.m2s.count := by
    have hlen := congrArg List.length hring
    rw [RingBuffer.length_contents, length_append] at hlen
    omega
  obtain ⟨hvalid, hrest, hout⟩ := drainRing_spec h.valid hle b
  rw [hring] at hrest hout
  have hread : EdgeOS.ptyRead s.tty .slave peerRefs nonblock interrupted { len := len } b =
      ({ s.tty with m2s := (drainRing edgePtyBufSize (min len line.length) s.tty.m2s b).1 },
        .ret (.ok (line.take len))) := by
    unfold EdgeOS.ptyRead
    rw [hthere, if_neg (by simp)]
    dsimp only
    rw [hsize, drainInto_good (by simp)]
    have hbytes : (List.range (min len line.length)).map
        (drainRing edgePtyBufSize (min len line.length) s.tty.m2s b).2.user = line.take len := by
      rw [hout, take_append_of_le_length (by omega), min_comm, take_min_length]
    exact Prod.ext rfl (congrArg (fun bs => Outcome.ret (.ok bs)) hbytes)
  rw [hread]
  refine ⟨rfl, ?_⟩
  have hdeliver : (s.editor.deliver len).1 =
      { s.editor with lines := if line.length ≤ len then lines else line.drop len :: lines } := by
    unfold Editor.deliver
    rw [hlines]
  rw [hdeliver]
  refine ⟨hvalid, h.icanon, ?_, ?_, h.current⟩
  · refine hrest.trans ?_
    dsimp only
    split
    · rename_i hdone
      rw [min_eq_right hdone, drop_left]
    · rename_i hpart
      rw [min_eq_left (by omega), drop_append_of_le_length (by omega), flatten_cons, append_assoc]
  · intro l hmem
    dsimp only at hmem
    split at hmem
    · exact h.lines l (by rw [hlines]; simp [hmem])
    rename_i hpart
    rcases mem_cons.mp hmem with rfl | hmem
    · -- the rest of the line still ends it
      refine ⟨body.drop len, ?_, fun c hc => hbody c (mem_of_mem_drop hc)⟩
      rw [hl, length_append, length_singleton] at hpart
      rw [hl, drop_append_of_le_length (by omega)]
    · exact h.lines l (by rw [hlines]; simp [hmem])

end LineTty.Tracks

/-! ## Runs -/

theorem writeByte_slave {t t' : Tty} {c : UInt8} (h : t.writeByte .slave c = some t') : t' = t.printByte c := by
  unfold writeByte at h
  generalize (if t.crlf .slave c then 2 else 1) = slots at h
  split at h
  · simp at h
  · exact (Option.some.inj h).symm

/-- The slave's writes change neither its input nor the settings. -/
theorem ptyWriteLoop_print (buf : UserBuf) (k i : ℕ) (t : Tty) : (ptyWriteLoop .slave buf k t i).1.m2s = t.m2s ∧
      (ptyWriteLoop .slave buf k t i).1.termios = t.termios := by
  induction k generalizing i t with
  | zero => exact ⟨rfl, rfl⟩
  | succ k ih =>
    unfold ptyWriteLoop
    split
    · exact ⟨rfl, rfl⟩
    split
    · exact ⟨rfl, rfl⟩
    rename_i c _ t' hwrite
    have hsame : t'.m2s = t.m2s ∧ t'.termios = t.termios := by
      obtain rfl := writeByte_slave hwrite
      exact ⟨rfl, rfl⟩
    rw [← hsame.1, ← hsame.2]
    exact ih _ _

theorem ptyWrite_print (t : Tty) (peerRefs : ℕ) (nonblock interrupted : Bool) (buf : UserBuf) :
    (ptyWrite t .slave peerRefs nonblock interrupted buf).1.m2s = t.m2s ∧
      (ptyWrite t .slave peerRefs nonblock interrupted buf).1.termios = t.termios := by
  unfold ptyWrite
  split
  · split_ifs <;> exact ⟨rfl, rfl⟩
  · exact ptyWriteLoop_print _ _ _ _

theorem ptyRead_watch (t : Tty) (peerRefs : ℕ) (nonblock interrupted : Bool) (buf : ReadBuf) (b : Bounce) :
    (ptyRead t .master peerRefs nonblock interrupted buf b).1.m2s = t.m2s ∧
      (ptyRead t .master peerRefs nonblock interrupted buf b).1.termios = t.termios := by
  unfold ptyRead
  split
  · split_ifs <;> exact ⟨rfl, rfl⟩
  · exact ⟨rfl, rfl⟩

namespace LineTty

variable {s : LineTty}

theorem Tracks.congr (h : s.Tracks) {t : Tty} (hm2s : t.m2s = s.tty.m2s)
    (hterm : t.termios = s.tty.termios) : LineTty.Tracks ⟨t, s.editor⟩ := by
  obtain ⟨hvalid, hicanon, hring, hlines, hcurrent⟩ := h
  unfold input at hring
  rw [← hm2s] at hvalid hring
  rw [← hterm] at hicanon hlines hcurrent
  exact ⟨hvalid, hicanon, hring, hlines, hcurrent⟩

theorem Tracks.step (h : s.Tracks) (e : LineEvent) (hok : s.PlainKeys e) : (s.step e).Tracks := by
  cases e with
  | type data peerRefs nonblock interrupted =>
    dsimp only [LineTty.step]
    by_cases hroom : s.tty.m2s.count < edgePtyBufSize
    · rw [ptyWrite_typed hroom]
      dsimp only [Outcome.value]
      rw [take_min_length]
      exact h.typeBytes _ (by rw [length_take]; omega) hok
    have hfull : (s.tty.dest .master).count ≥ edgePtyBufSize := not_lt.mp hroom
    unfold ptyWrite
    rw [if_pos hfull]
    split_ifs <;> exact h
  | read len peerRefs nonblock interrupted b =>
    dsimp only [LineTty.step]
    cases hlines : s.editor.lines with
    | nil =>
      have hkeep : (s.editor.deliver (len + 1)).1 = s.editor := by
        unfold Editor.deliver
        rw [hlines]
      unfold EdgeOS.ptyRead
      rw [if_pos (h.input_missing hlines), hkeep]
      split_ifs <;> exact h
    | cons line lines => exact (h.ptyRead hlines (len + 1) peerRefs nonblock interrupted b).2
  | print data peerRefs nonblock interrupted =>
    obtain ⟨hm2s, hterm⟩ := ptyWrite_print s.tty peerRefs nonblock interrupted { data := data }
    exact h.congr hm2s hterm
  | watch len peerRefs nonblock interrupted b =>
    obtain ⟨hm2s, hterm⟩ := ptyRead_watch s.tty peerRefs nonblock interrupted { len := len + 1 } b
    exact h.congr hm2s hterm

theorem Tracks.delivers (h : s.Tracks) (e : LineEvent) : s.Delivers e := by
  cases e with
  | read len peerRefs nonblock interrupted b =>
    dsimp only [LineTty.Delivers]
    cases hlines : s.editor.lines with
    | nil =>
      rw [if_pos rfl]
      unfold EdgeOS.ptyRead
      rw [if_pos (h.input_missing hlines)]
      split_ifs <;> rfl
    | cons line lines =>
      rw [if_neg (by simp), (h.ptyRead hlines (len + 1) peerRefs nonblock interrupted b).1]
      unfold Editor.deliver
      rw [hlines]
  | _ => trivial

end LineTty

/-- While no byte is taken for `VEOF` and the interrupt key is 3, a terminal in canonical mode
delivers the lines of the reference editor. -/
theorem canonical_lines (t : Termios) (hcanon : t.icanon = true) (es : List LineEvent)
    (hok : Meets LineTty.step LineTty.PlainKeys { tty := { termios := t } } es) :
    Meets LineTty.step LineTty.Delivers { tty := { termios := t } } es :=
  meets_of_invariant (fun _ e (h : LineTty.Tracks _) hok => h.step e hok)
    (fun _ e (h : LineTty.Tracks _) _ => h.delivers e)
    ⟨RingBuffer.valid_empty (by decide) 0, hcanon, rfl, by simp, by simp⟩ hok

def blank : Bounce := ⟨fun _ => 0, fun _ => 0⟩

/-- `"ab"`, an erasure, `"c"` and the end of the line; then two reads. -/
def editedLine : List LineEvent :=
  [.type [97, 98, 127] 1 false false, .read 7 1 false false blank, .type [99, 10] 1 false false,
    .read 1 1 false false blank, .read 7 1 false false blank]

theorem editedLine_delivered : Meets LineTty.step LineTty.PlainKeys { tty := { termios := .sane } } editedLine ∧
      Meets LineTty.step LineTty.Delivers { tty := { termios := .sane } } editedLine := by
  have h : Meets LineTty.step LineTty.PlainKeys { tty := { termios := .sane } } editedLine := by
    refine ⟨?_, trivial, ?_, trivial, trivial, trivial⟩
    · change ∀ c ∈ [97, 98, 127], Termios.sane.key c ≠ .eof ∧ (Termios.sane.isig = true → (c = 3 ↔ c = 3))
      exact forall_mem_of_all (by decide)
    · change ∀ c ∈ [99, 10], Termios.sane.key c ≠ .eof ∧ (Termios.sane.isig = true → (c = 3 ↔ c = 3))
      exact forall_mem_of_all (by decide)
  exact ⟨h, canonical_lines .sane rfl editedLine h⟩

/-- `"a"` and `VEOF`: the read delivers both bytes. -/
theorem eof_delivered : ¬ Meets LineTty.step LineTty.Delivers { tty := { termios := .sane } }
      [.type [97, 4] 1 false false, .read 7 1 false false blank] := by
  rintro ⟨-, h, -⟩
  have hlines : (LineTty.step { tty := { termios := .sane } } (.type [97, 4] 1 false false)).editor.lines =
      [[97]] := by decide +kernel
  have hread := h
  unfold LineTty.Delivers at hread
  dsimp only at hread
  rw [if_neg (by rw [hlines]; simp)] at hread
  have hvalue := congrArg (Outcome.value []) hread
  have hcode : Outcome.value [] (ptyRead (LineTty.step { tty := { termios := .sane } }
      (.type [97, 4] 1 false false)).tty .slave 1 false false { len := 8 } blank).2 = [97, 4] := by
    decide +kernel
  have hspec : ((LineTty.step { tty := { termios := .sane } } (.type [97, 4] 1 false false)).editor.deliver
      8).2 = [97] := by decide +kernel
  have heq : ([97, 4] : List UInt8) = [97] := hcode.symm.trans (hvalue.trans hspec)
  simp at heq

end EdgeOS
