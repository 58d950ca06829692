import EdgeOS.FileRead
import EdgeOS.PipeTransfer

namespace EdgeOS

open Lib RingBuffer

/-!
Reading and writing a pseudo terminal: the branches of `do_sys_fd_read` and `do_sys_fd_write` for
`FD_PTY_MASTER` and `FD_PTY_SLAVE`, with the line editing that a write to the master does on the
ring of the slave.
-/

abbrev edgePtyBufSize : ℕ := 4096

/-- `LINUX_OPOST`, `LINUX_ONLCR` of `c_oflag`; `LINUX_ISIG`, `LINUX_ICANON`, `LINUX_ECHO` of
`c_lflag`. -/
def linuxOpost : BitVec 32 := 1
def linuxOnlcr : BitVec 32 := 4
def linuxIsig : BitVec 32 := 1
def linuxIcanon : BitVec 32 := 2
def linuxEcho : BitVec 32 := 8

/-- `LINUX_VINTR`, `LINUX_VERASE`, `LINUX_VEOF`: places in `c_cc`. -/
def linuxVintr : ℕ := 0
def linuxVerase : ℕ := 2
def linuxVeof : ℕ := 4

/-- `'\n'` and `'\r'`. -/
def newline : UInt8 := 10
def carriageReturn : UInt8 := 13

/-- The fields of `struct edge_termios` that the two calls look at. -/
structure Termios where
  oflag : BitVec 32
  lflag : BitVec 32
  cc : ℕ → UInt8

namespace Termios

variable (t : Termios)

def opost : Bool := hasFlag t.oflag linuxOpost
def onlcr : Bool := hasFlag t.oflag linuxOnlcr
def isig : Bool := hasFlag t.lflag linuxIsig
def icanon : Bool := hasFlag t.lflag linuxIcanon
def echo : Bool := hasFlag t.lflag linuxEcho

/-- `termios_init_sane`. -/
def sane : Termios where
  oflag := linuxOpost ||| linuxOnlcr
  lflag := linuxIcanon ||| linuxEcho ||| linuxIsig
  cc i := if i = linuxVintr then 3 else if i = linuxVerase then 127 else if i = 3 then 21
    else if i = linuxVeof then 4 else if i = 6 then 1 else 0

end Termios

/-- The terminal in an `edge_pty_t`: its settings and its two rings, from the master to the
slave and back. -/
structure Tty where
  termios : Termios := .sane
  m2s : RingBuffer UInt8 := .empty 0
  s2m : RingBuffer UInt8 := .empty 0

inductive PtySide
  | master | slave
  deriving DecidableEq, Repr

namespace Tty

variable (t : Tty)

def source : PtySide → RingBuffer UInt8
  | .master => t.s2m
  | .slave => t.m2s

def dest : PtySide → RingBuffer UInt8
  | .master => t.m2s
  | .slave => t.s2m

def setSource (r : RingBuffer UInt8) : PtySide → Tty
  | .master => { t with s2m := r }
  | .slave => { t with m2s := r }

end Tty

/-! ## Echo -/

/-- `pty_ring_push`, which fails when the ring is full. -/
def ptyRingPush (r : RingBuffer UInt8) (c : UInt8) : RingBuffer UInt8 × Bool :=
  if r.count ≥ edgePtyBufSize then (r, false) else (r.push edgePtyBufSize c, true)

/-- `pty_echo_seq_to_master`: it stops where the ring is full. `pty_echo_to_master` is the case
of one byte. -/
def ptyEchoSeqToMaster : Tty → List UInt8 → Tty
  | t, [] => t
  | t, c :: cs =>
    match ptyRingPush t.s2m c with
    | (_, false) => t
    | (r, true) => ptyEchoSeqToMaster { t with s2m := r } cs

def ptyEchoToMaster (t : Tty) (c : UInt8) : Tty := ptyEchoSeqToMaster t [c]

/-- `"^C\n"`, `"\b \b"` and `"\r\n"`. -/
def interruptEcho : List UInt8 := [94, 67, 10]
def eraseEcho : List UInt8 := [8, 32, 8]
def lineEcho : List UInt8 := [13, 10]

/-! ## Lines -/

/-- The loop of `pty_slave_input_have_canonical_line`. -/
def haveLineLoop (buf : ℕ → UInt8) (eofc : UInt8) : ℕ → ℕ → Bool
  | 0, _ => false
  | cnt + 1, pos =>
    if buf pos = newline ∨ buf pos = eofc then true
    else haveLineLoop buf eofc cnt ((pos + 1) % edgePtyBufSize)

def ptySlaveInputHaveCanonicalLine (t : Tty) : Bool :=
  haveLineLoop t.m2s.buf (t.termios.cc linuxVeof) t.m2s.count t.m2s.rpos

/-- The loop of `pty_slave_read_limit`. -/
def readLimitLoop (buf : ℕ → UInt8) (eofc : UInt8) (req : ℕ) : ℕ → ℕ → ℕ → ℕ
  | 0, _, n => n
  | cnt + 1, pos, n =>
    if n < req then
      if buf pos = newline ∨ buf pos = eofc then n + 1
      else readLimitLoop buf eofc req cnt ((pos + 1) % edgePtyBufSize) (n + 1)
    else n

def ptySlaveReadLimit (t : Tty) (req avail : ℕ) : ℕ :=
  if !t.termios.icanon then min req avail
  else readLimitLoop t.m2s.buf (t.termios.cc linuxVeof) (min req avail) t.m2s.count t.m2s.rpos 0

/-! ## Reading -/

/-- The reading loop from byte `i` on, `k` bytes before its end, into a buffer that
`copy_to_user` may refuse. -/
def drainInto (copied : ℕ → ℕ → Bool) (size n : ℕ) :
    ℕ → RingBuffer UInt8 × Bounce → ℕ → RingBuffer UInt8 × Except Errno Bounce
  | 0, st, _ => (st.1, .ok st.2)
  | k + 1, st, i =>
    if (i % chunkSize = chunkSize - 1 ∨ i + 1 = n) ∧ !copied (i - i % chunkSize) (i % chunkSize + 1) then
      (st.1.pop size, .error .efault)
    else drainInto copied size n k (drainByte size n st i) (i + 1)

def Tty.inputMissing (t : Tty) (side : PtySide) : Bool :=
  (t.source side).count = 0 ∨ side = .slave ∧ t.termios.icanon ∧ !ptySlaveInputHaveCanonicalLine t

def Tty.readSize (t : Tty) (side : PtySide) (len : ℕ) : ℕ :=
  match side with
  | .slave => ptySlaveReadLimit t len t.m2s.count
  | .master => min len t.s2m.count

/-- What the user finds in the buffer, up to the value returned. -/
def filled (n : ℕ) (out : Except Errno Bounce) : Except Errno (List UInt8) :=
  out.map fun b => (List.range n).map b.user

/-- `do_sys_fd_read` on a terminal from its loop on. `peerRefs` are the descriptors of the other
end. -/
def ptyRead (t : Tty) (side : PtySide) (peerRefs : ℕ) (nonblock interrupted : Bool) (buf : ReadBuf)
    (b : Bounce) : Tty × Outcome (List UInt8) :=
  if t.inputMissing side then
    if peerRefs = 0 then (t, .ret (.ok []))
    else if nonblock then (t, .ret (.error .eagain))
    else if interrupted then (t, .ret (.error .eintr))
    else (t, .wait)
  else
    let n := t.readSize side buf.len
    let out := drainInto buf.copied edgePtyBufSize n n (t.source side, b) 0
    (t.setSource out.1 side, .ret (filled n out.2))

/-! ## Writing -/

/-- Does an end write `'\n'` as two bytes? -/
def Tty.crlf (t : Tty) (side : PtySide) (c : UInt8) : Bool :=
  side = .slave ∧ c = newline ∧ t.termios.opost ∧ t.termios.onlcr

/-- A byte that arrives from the master and is no editing key: it is echoed and appended. -/
def Tty.appendEchoed (t : Tty) (c : UInt8) : Tty :=
  let t := if t.termios.echo then
      if c = carriageReturn ∨ c = newline then
        if t.termios.opost ∧ t.termios.onlcr then ptyEchoSeqToMaster t lineEcho
        else ptyEchoToMaster t c
      else ptyEchoToMaster t c
    else t
  { t with m2s := t.m2s.push edgePtyBufSize c }

/-- `VERASE`. -/
def Tty.erase (t : Tty) : Tty :=
  if t.m2s.count > 0 ∧ t.m2s.buf (t.m2s.prev edgePtyBufSize) ≠ newline then
    let t := { t with m2s := t.m2s.unpush edgePtyBufSize }
    if t.termios.echo then ptyEchoSeqToMaster t eraseEcho else t
  else t

/-- One byte from the master. The interrupt key also sends `SIGINT` to the foreground group. -/
def Tty.typeByte (t : Tty) (c : UInt8) : Tty :=
  if t.termios.isig ∧ c = 3 then
    if t.termios.echo then ptyEchoSeqToMaster t interruptEcho else t
  else if t.termios.icanon ∧ c = t.termios.cc linuxVerase then t.erase
  else t.appendEchoed c

def Tty.printByte (t : Tty) (c : UInt8) : Tty :=
  let r := if t.crlf .slave c then t.s2m.push edgePtyBufSize carriageReturn else t.s2m
  { t with s2m := r.push edgePtyBufSize c }

/-- One round of the writing loop; `none` when the byte does not fit. -/
def Tty.writeByte (t : Tty) (side : PtySide) (c : UInt8) : Option Tty :=
  if edgePtyBufSize - (t.dest side).count < (if t.crlf side c then 2 else 1) then none
  else
    match side with
    | .master => some (t.typeByte c)
    | .slave => some (t.printByte c)

/-- `copy_from_user(&c, buf_u + i, 1)`. -/
def UserBuf.byte (buf : UserBuf) (i : ℕ) : Option UInt8 := if buf.rangeOk i 1 then buf.data[i]? else none

/-- The writing loop from byte `i` on, `k` bytes before its end. -/
def ptyWriteLoop (side : PtySide) (buf : UserBuf) : ℕ → Tty → ℕ → Tty × Except Errno ℕ
  | 0, t, i => (t, .ok i)
  | k + 1, t, i =>
    match buf.byte i with
    | none => (t, .error .efault)
    | some c =>
      match t.writeByte side c with
      | none => (t, .ok i)
      | some t => ptyWriteLoop side buf k t (i + 1)

/-- `do_sys_fd_write` on a terminal from its loop on. -/
def ptyWrite (t : Tty) (side : PtySide) (peerRefs : ℕ) (nonblock interrupted : Bool)
    (buf : UserBuf) : Tty × Outcome ℕ :=
  if (t.dest side).count ≥ edgePtyBufSize then
    if peerRefs = 0 then (t, .ret (.error .epipe))
    else if nonblock then (t, .ret (.error .eagain))
    else if interrupted then (t, .ret (.error .eintr))
    else (t, .wait)
  else
    let out := ptyWriteLoop side buf (min buf.data.length (edgePtyBufSize - (t.dest side).count)) t 0
    (out.1, .ret out.2)

/-! ## What the scans find -/

def Termios.isDelim (t : Termios) (c : UInt8) : Bool := c = newline ∨ c = t.cc linuxVeof

def lineLength (delim : UInt8 → Bool) : List UInt8 → ℕ
  | [] => 0
  | c :: cs => if delim c then 1 else lineLength delim cs + 1

theorem lineLength_le (delim : UInt8 → Bool) (l : List UInt8) : lineLength delim l ≤ l.length := by
  induction l with
  | nil => exact le_rfl
  | cons c cs ih =>
    unfold lineLength
    split
    · simp
    · exact Nat.succ_le_succ ih

/-- A list that starts with a line: its first line has the length of that line. -/
theorem lineLength_append {delim : UInt8 → Bool} {l : List UInt8} {d : UInt8} (hl : ∀ c ∈ l, delim c = false)
    (hd : delim d = true) (rest : List UInt8) : lineLength delim (l ++ d :: rest) = l.length + 1 := by
  induction l with
  | nil => simp [lineLength, hd]
  | cons c cs ih =>
    have hc : delim c = false := hl c (by simp)
    rw [List.cons_append, lineLength, hc, List.length_cons]
    simp [ih fun c h => hl c (by simp [h])]

theorem haveLineLoop_eq (t : Termios) (buf : ℕ → UInt8) (cnt pos : ℕ) : haveLineLoop buf (t.cc linuxVeof) cnt pos =
      (walk edgePtyBufSize buf cnt pos).any t.isDelim := by
  induction cnt generalizing pos with
  | zero => rfl
  | succ cnt ih =>
    rw [haveLineLoop, walk, List.any_cons, ih]
    unfold Termios.isDelim
    split <;> simp_all

theorem readLimitLoop_eq (t : Termios) (buf : ℕ → UInt8) (req cnt pos n : ℕ) :
    readLimitLoop buf (t.cc linuxVeof) req cnt pos n =
      n + min (req - n) (lineLength t.isDelim (walk edgePtyBufSize buf cnt pos)) := by
  induction cnt generalizing pos n with
  | zero => simp [readLimitLoop, walk, lineLength]
  | succ cnt ih =>
    rw [readLimitLoop, walk, lineLength]
    split
    · have hdelim : t.isDelim (buf pos) = decide (buf pos = newline ∨ buf pos = t.cc linuxVeof) := rfl
      rw [hdelim]
      split
      · simp_all
        omega
      rw [ih]
      simp_all
      omega
    · omega

def Tty.input (t : Tty) : List UInt8 := t.m2s.contents edgePtyBufSize

theorem haveCanonicalLine_eq {t : Tty} (h : t.m2s.Valid edgePtyBufSize) :
    ptySlaveInputHaveCanonicalLine t = t.input.any t.termios.isDelim := by
  unfold ptySlaveInputHaveCanonicalLine Tty.input
  rw [haveLineLoop_eq, h.walk]

/-- In canonical mode a read takes no more than the first line. -/
theorem slaveReadLimit_canonical {t : Tty} (h : t.m2s.Valid edgePtyBufSize) (hc : t.termios.icanon = true) (len : ℕ) :
    ptySlaveReadLimit t len t.m2s.count = min len (lineLength t.termios.isDelim t.input) := by
  have hle := lineLength_le t.termios.isDelim t.input
  have hlen : t.input.length = t.m2s.count := length_contents
  unfold ptySlaveReadLimit
  rw [if_neg (by simp [hc]), readLimitLoop_eq, h.walk]
  change 0 + min (min len t.m2s.count - 0) (lineLength t.termios.isDelim t.input) = _
  omega

/-! ## Good buffers -/

theorem drainInto_all {copied : ℕ → ℕ → Bool} (hc : ∀ a s, copied a s = true) (size n k i : ℕ)
    (st : RingBuffer UInt8 × Bounce) :
    drainInto copied size n k st i = (((List.range' i k).foldl (drainByte size n) st).1,
      .ok ((List.range' i k).foldl (drainByte size n) st).2) := by
  induction k generalizing i st with
  | zero => rfl
  | succ k ih =>
    rw [drainInto, if_neg (by simp [hc]), ih]
    rfl

theorem drainInto_good {copied : ℕ → ℕ → Bool} (hc : ∀ a s, copied a s = true) (size n : ℕ)
    (r : RingBuffer UInt8) (b : Bounce) :
    drainInto copied size n n (r, b) 0 = ((drainRing size n r b).1, .ok (drainRing size n r b).2) := by
  rw [drainInto_all hc, ← List.range_eq_range']
  rfl

/-! ## Any buffer -/

/-- The loop takes bytes off the ring, at least one if it runs at all, and all of them unless a
copy fails. -/
theorem drainInto_pops (copied : ℕ → ℕ → Bool) (size n k i : ℕ) (st : RingBuffer UInt8 × Bounce) :
    ∃ j, j ≤ k ∧ (0 < k → 0 < j) ∧ (drainInto copied size n k st i).1 = (pop size)^[j] st.1 ∧
      ((drainInto copied size n k st i).2 = .error .efault ∨
        j = k ∧ ∃ b, (drainInto copied size n k st i).2 = .ok b) := by
  induction k generalizing i st with
  | zero => exact ⟨0, le_rfl, by simp, rfl, .inr ⟨rfl, st.2, rfl⟩⟩
  | succ k ih =>
    unfold drainInto
    split
    · exact ⟨1, by omega, by simp, rfl, .inl rfl⟩
    obtain ⟨j, hj, -, hr, hout⟩ := ih (i + 1) (drainByte size n st i)
    refine ⟨j + 1, by omega, by simp, ?_, ?_⟩
    · rw [hr, Function.iterate_succ_apply]
      rfl
    · rcases hout with herr | ⟨rfl, hb⟩
      · exact .inl herr
      · exact .inr ⟨rfl, hb⟩

end EdgeOS
