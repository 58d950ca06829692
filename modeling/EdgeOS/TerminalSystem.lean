import EdgeOS.LineEditing
import EdgeOS.PipeSystem

namespace EdgeOS

open Lib Function List Tty RingBuffer

/-!
Pseudo terminals as a system: processes read and write both ends, change the settings, fork, open
and close in any order. A read waits for a line and a write for room, and the two conditions are
not opposites.
-/

/-- A call on a terminal: what it asks for. -/
inductive PtyOp
  | read (buf : ReadBuf) (b : Bounce)
  | write (buf : UserBuf)

/-- The end of a terminal that a descriptor refers to. -/
structure PtyEnd where
  side : PtySide
  slot : FdProcIdx × FdIdx
  pty : ℕ
  deriving DecidableEq

structure PtyCall where
  op : PtyOp
  target : PtyEnd

/-- The lookup at the start of a call: an early return, or the end it works on. -/
def ptyTarget (s : FdState) (pid fd : ℤ) : FdState × (CallResult ⊕ PtyEnd) :=
  match fdProcWithStdio s pid with
  | (s, none) => (s, .inl (.failed .ebadf))
  | (s, some p) =>
  match fdGet s p fd with
  | none => (s, .inl (.failed .ebadf))
  | some i =>
  let e := s.fds (p, i)
  let found (side : PtySide) : FdState × (CallResult ⊕ PtyEnd) :=
    match tableIndex edgeMaxPtys e.pipeId with
    | none => (s, .inl (.failed .ebadf))
    | some j => if !(s.objs.ptys j).used then (s, .inl (.failed .ebadf)) else (s, .inr ⟨side, (p, i), j⟩)
  match e.kind with
  | .ptyMaster => found .master
  | .ptySlave => found .slave
  | _ => (s, .inl .elsewhere)

/-- What `do_sys_fd_read` and `do_sys_fd_write` answer before they look at the descriptor. -/
def PtyOp.early : PtyOp → Option CallResult
  | .read buf _ => if buf.null then some (.failed .einval) else if buf.len = 0 then some (.bytes []) else none
  | .write buf => if buf.null then some (.failed .einval) else if buf.data = [] then some (.wrote 0) else none

/-- The kernel with its terminals. `blocked` are the calls that wait, by process. -/
structure PtyKernel where
  fd : FdKernel := {}
  ttys : ℕ → Tty := fun _ => {}
  blocked : ℤ → Option PtyCall := fun _ => none

/-- What can happen: any event of the descriptor layer, a call on a terminal, a waiting call that
looks again, `ioctl(TCSETS)`. `arg` are the settings, if they can be read. -/
inductive PtyEvent
  | other (e : FdEvent)
  | call (pid fd : ℤ) (op : PtyOp) (interrupted : Bool)
  | resume (pid : ℤ) (interrupted : Bool)
  | tcsets (pid fd : ℤ) (arg : Except Errno Termios)

namespace PtyKernel

variable (k : PtyKernel)

def pty (i : ℕ) : Pty := k.fd.fds.objs.ptys i

def setFds (s : FdState) : PtyKernel := { k with fd := { k.fd with fds := s } }

def setTty (i : ℕ) (t : Tty) : PtyKernel := { k with ttys := Function.update k.ttys i t }

def setBlocked (pid : ℤ) (c : Option PtyCall) : PtyKernel :=
  { k with blocked := Function.update k.blocked pid c }

def peerRefs (x : PtyEnd) : ℕ :=
  match x.side with
  | .master => (k.pty x.pty).refsSlave
  | .slave => (k.pty x.pty).refsMaster

/-- The loop of a call, from where it starts or wakes up to where it returns or waits. -/
def attempt (pid : ℤ) (c : PtyCall) (interrupted : Bool) : PtyKernel × CallResult :=
  let nonblock := hasFlag (k.fd.fds.fds c.target.slot).flags linuxONonblock
  let x := c.target
  match c.op with
  | .read buf b =>
    let r := ptyRead (k.ttys x.pty) x.side (k.peerRefs x) nonblock interrupted buf b
    ((k.setTty x.pty r.1).setBlocked pid (if r.2.waits then some c else none), r.2.result .bytes)
  | .write buf =>
    let r := ptyWrite (k.ttys x.pty) x.side (k.peerRefs x) nonblock interrupted buf
    ((k.setTty x.pty r.1).setBlocked pid (if r.2.waits then some c else none), r.2.result .wrote)

/-- An event of the descriptor layer. A slot that is not in use holds a terminal as `pty_alloc`
makes it. -/
def other (e : FdEvent) : PtyKernel :=
  if (e.caller.bind k.blocked).isSome then k else
  { fd := k.fd.step e
    ttys := fun i => if ((k.fd.step e).fds.objs.ptys i).used then k.ttys i else {}
    blocked := fun pid => if e.released = some pid then none else k.blocked pid }

def call (pid fd : ℤ) (op : PtyOp) (interrupted : Bool) : PtyKernel × CallResult :=
  match op.early with
  | some r => (k, r)
  | none =>
    match ptyTarget k.fd.fds pid fd with
    | (s, .inl r) => (k.setFds s, r)
    | (s, .inr x) => (k.setFds s).attempt pid ⟨op, x⟩ interrupted

/-- `ioctl(TCSETS)`, which looks the terminal up and copies the settings. -/
def tcsets (pid fd : ℤ) (arg : Except Errno Termios) : PtyKernel :=
  match ptyTarget k.fd.fds pid fd, arg with
  | (s, .inr x), .ok t => (k.setFds s).setTty x.pty { k.ttys x.pty with termios := t }
  | (s, _), _ => k.setFds s

def step : PtyEvent → PtyKernel
  | .other e => k.other e
  | .call pid fd op interrupted =>
    if !k.fd.exists pid ∨ (k.blocked pid).isSome then k else (k.call pid fd op interrupted).1
  | .resume pid interrupted =>
    match k.blocked pid with
    | none => k
    | some c => (k.attempt pid c interrupted).1
  | .tcsets pid fd arg => if !k.fd.exists pid ∨ (k.blocked pid).isSome then k else k.tcsets pid fd arg

end PtyKernel

/-! ## The stuck state -/

/-- The ring is full, and in canonical mode it holds no end of a line. -/
def Tty.Stuck (t : Tty) : Prop :=
  t.m2s.count = edgePtyBufSize ∧ t.termios.icanon = true ∧ ptySlaveInputHaveCanonicalLine t = false

/-- When a ring is full, a read of the slave or a write to the master proceeds. -/
def PtyKernel.NoDeadlock (k : PtyKernel) : Prop :=
  ∀ i, 0 < (k.pty i).refsMaster → 0 < (k.pty i).refsSlave → (k.ttys i).m2s.count = edgePtyBufSize →
    ∀ (buf : ReadBuf) (b : Bounce) (data : UserBuf), 0 < buf.len → data.data ≠ [] →
      (ptyRead (k.ttys i) .slave (k.pty i).refsMaster false false buf b).2.waits = false ∨
        (ptyWrite (k.ttys i) .master (k.pty i).refsSlave false false data).2.waits = false

def Termios.editing (t : Termios) (c : UInt8) : Bool :=
  t.isig ∧ c = 3 ∨ t.icanon ∧ c = t.cc linuxVerase

/-- A write to the master that fills the ring in canonical mode leaves the end of a line in it.
Only bytes that can be read and are no editing keys fill it. -/
def Tty.EndsLine (t : Tty) (buf : UserBuf) : Prop :=
  t.termios.icanon = true → t.m2s.count < edgePtyBufSize → ∀ cs : List UInt8,
    (List.range (edgePtyBufSize - t.m2s.count)).map buf.byte = cs.map some →
    (∀ c ∈ cs, t.termios.editing c = false) → (t.input ++ cs).any t.termios.isDelim = true

def PtyCall.EndsLine (c : PtyCall) (ttys : ℕ → Tty) : Prop :=
  ∀ buf, c.op = .write buf → c.target.side = .master → (ttys c.target.pty).EndsLine buf

/-- No step fills a ring in canonical mode without the end of a line, and no change of the
settings finds one so. -/
def PtyKernel.KeepsLine (k : PtyKernel) : PtyEvent → Prop
  | .other _ => True
  | .call pid fd op _ => ∀ s x, ptyTarget k.fd.fds pid fd = (s, .inr x) → PtyCall.EndsLine ⟨op, x⟩ k.ttys
  | .resume pid _ => ∀ c, k.blocked pid = some c → c.EndsLine k.ttys
  | .tcsets pid fd arg => ∀ s x t, ptyTarget k.fd.fds pid fd = (s, .inr x) → arg = .ok t →
      (k.ttys x.pty).m2s.count = edgePtyBufSize → t.icanon = true → (k.ttys x.pty).input.any t.isDelim = true

/-! ## One terminal -/

section Terminal

variable {t : Tty} {buf : UserBuf}

theorem Tty.typeByte_editing {c : UInt8} (h : t.termios.editing c = true) : (t.typeByte c).m2s.count ≤ t.m2s.count := by
  have hkey : t.termios.isig = true ∧ c = 3 ∨ t.termios.icanon = true ∧ c = t.termios.cc linuxVerase := by
    simpa [Termios.editing] using h
  rw [typeByte_m2s]
  split
  · exact le_rfl
  rename_i hintr
  rw [if_pos (hkey.resolve_left hintr)]
  split
  · exact Nat.sub_le _ _
  · exact le_rfl

theorem Tty.typeByte_plain {c : UInt8} (h : t.termios.editing c = false) :
    (t.typeByte c).m2s = t.m2s.push edgePtyBufSize c := by
  have hkey : ¬ (t.termios.isig = true ∧ c = 3) ∧ ¬ (t.termios.icanon = true ∧ c = t.termios.cc linuxVerase) := by
    simpa [Termios.editing] using h
  rw [typeByte_m2s, if_neg hkey.1, if_neg hkey.2]

/-- What the loop does to the ring of the slave: it appends every byte, or falls behind. -/
theorem ptyWriteLoop_fills (k i : ℕ) (t : Tty) (h : t.m2s.Valid edgePtyBufSize)
    (hroom : t.m2s.count + k ≤ edgePtyBufSize) :
    (ptyWriteLoop .master buf k t i).1.m2s.Valid edgePtyBufSize ∧
      (ptyWriteLoop .master buf k t i).1.termios = t.termios ∧
      ((ptyWriteLoop .master buf k t i).1.m2s.count < t.m2s.count + k ∨
        ∃ cs : List UInt8, (List.range' i k).map buf.byte = cs.map some ∧ (∀ c ∈ cs, t.termios.editing c = false) ∧
          (ptyWriteLoop .master buf k t i).1.input = t.input ++ cs) := by
  induction k generalizing i t with
  | zero => exact ⟨h, rfl, .inr ⟨[], rfl, by simp, by simp [ptyWriteLoop]⟩⟩
  | succ k ih =>
    cases hbyte : buf.byte i with
    | none =>
      rw [ptyWriteLoop, hbyte]
      refine ⟨h, rfl, .inl ?_⟩
      dsimp only
      omega
    | some c =>
      have hfits : t.writeByte .master c = some (t.typeByte c) := by
        have hslots : t.crlf .master c = false := by simp [crlf]
        unfold writeByte
        rw [hslots, if_neg]
        change ¬ edgePtyBufSize - t.m2s.count < 1
        omega
      have hloop : ptyWriteLoop .master buf (k + 1) t i = ptyWriteLoop .master buf k (t.typeByte c) (i + 1) := by
        rw [ptyWriteLoop, hbyte]
        dsimp only
        rw [hfits]
      have hcount := t.typeByte_count c
      obtain ⟨hvalid, hterm, hfill⟩ := ih (i + 1) (t.typeByte c) (typeByte_valid h (by omega)) (by omega)
      rw [hloop]
      refine ⟨hvalid, hterm.trans (t.typeByte_termios c), ?_⟩
      rcases hfill with hless | ⟨cs, hread, hplain, hinput⟩
      · exact .inl (by omega)
      by_cases hkey : t.termios.editing c = true
      · have hkeep := typeByte_editing hkey
        have hlen := congrArg List.length hinput
        have hk : cs.length = k := by
          have := congrArg List.length hread
          simpa using this.symm
        unfold input at hlen
        rw [length_contents, length_append, length_contents] at hlen
        exact .inl (by omega)
      have hkey : t.termios.editing c = false := by simpa using hkey
      rw [t.typeByte_termios] at hplain
      refine .inr ⟨c :: cs, ?_, ?_, ?_⟩
      · rw [List.range'_succ, map_cons, map_cons, hbyte, hread]
      · intro x hx
        rcases mem_cons.mp hx with rfl | hx
        · exact hkey
        · exact hplain x hx
      · rw [hinput]
        unfold input
        rw [typeByte_plain hkey, h.contents_push (by omega), append_assoc, singleton_append]

/-- A write to the master that ends a line does not get the terminal stuck. -/
theorem ptyWrite_notStuck (h : t.m2s.Valid edgePtyBufSize) (hs : ¬ t.Stuck) (hline : t.EndsLine buf)
    (peerRefs : ℕ) (nonblock interrupted : Bool) :
    (ptyWrite t .master peerRefs nonblock interrupted buf).1.m2s.Valid edgePtyBufSize ∧
      ¬ (ptyWrite t .master peerRefs nonblock interrupted buf).1.Stuck := by
  unfold ptyWrite
  split
  · split_ifs <;> exact ⟨h, hs⟩
  rename_i hroom
  have hroom : t.m2s.count < edgePtyBufSize := not_le.mp hroom
  have hdest : t.dest .master = t.m2s := rfl
  dsimp only
  rw [hdest]
  obtain ⟨hvalid, hterm, hfill⟩ := @ptyWriteLoop_fills buf
    (min buf.data.length (edgePtyBufSize - t.m2s.count)) 0 t h (by omega)
  refine ⟨hvalid, ?_⟩
  rintro ⟨hfull, hcanon, hnone⟩
  rw [hterm] at hcanon
  rcases hfill with hless | ⟨cs, hread, hplain, hinput⟩
  · omega
  have hlen := congrArg List.length hinput
  have hk := congrArg List.length hread
  unfold input at hlen
  rw [length_contents, length_append, length_contents] at hlen
  rw [length_map, length_map, length_range'] at hk
  have hall : min buf.data.length (edgePtyBufSize - t.m2s.count) = edgePtyBufSize - t.m2s.count := by omega
  rw [hall, ← range_eq_range'] at hread
  have hdelim := hline hcanon hroom cs hread hplain
  rw [haveCanonicalLine_eq hvalid, hinput, hterm, hdelim] at hnone
  exact Bool.noConfusion hnone

/-- A read of the slave makes room or leaves the terminal as it was. -/
theorem ptyRead_notStuck (h : t.m2s.Valid edgePtyBufSize) (hs : ¬ t.Stuck) (peerRefs : ℕ)
    (nonblock interrupted : Bool) (buf : ReadBuf) (b : Bounce) :
    (ptyRead t .slave peerRefs nonblock interrupted buf b).1.m2s.Valid edgePtyBufSize ∧
      ¬ (ptyRead t .slave peerRefs nonblock interrupted buf b).1.Stuck := by
  unfold ptyRead
  split
  · split_ifs <;> exact ⟨h, hs⟩
  dsimp only
  obtain ⟨j, hj, hpos, hr, -⟩ := drainInto_pops buf.copied edgePtyBufSize (t.readSize .slave buf.len)
    (t.readSize .slave buf.len) 0 (t.source .slave, b)
  have hsize : t.readSize .slave buf.len ≤ t.m2s.count := by
    unfold readSize ptySlaveReadLimit
    dsimp only
    split
    · exact Nat.min_le_right _ _
    rw [readLimitLoop_eq, h.walk]
    have hle := lineLength_le t.termios.isDelim (t.m2s.contents edgePtyBufSize)
    rw [length_contents] at hle
    omega
  obtain ⟨hvalid, hcount, -⟩ := h.pops (hj.trans hsize)
  have hset : ∀ r, t.setSource r .slave = { t with m2s := r } := fun _ => rfl
  have hsource : (t.source .slave, b).1 = t.m2s := rfl
  rw [hset, hr, hsource]
  refine ⟨hvalid, ?_⟩
  have hcap := h.count_le
  by_cases h0 : 0 < t.readSize .slave buf.len
  · rintro ⟨hfull, -, -⟩
    have hfull : ((pop edgePtyBufSize)^[j] t.m2s).count = edgePtyBufSize := hfull
    have := hpos h0
    omega
  · obtain rfl : j = 0 := by omega
    exact hs

theorem Tty.Stuck.congr {t' : Tty} (h : t'.Stuck) (hm2s : t'.m2s = t.m2s) (hterm : t'.termios = t.termios) :
    t.Stuck := by
  obtain ⟨hfull, hcanon, hnone⟩ := h
  unfold ptySlaveInputHaveCanonicalLine at hnone
  rw [hm2s] at hfull hnone
  rw [hterm] at hcanon hnone
  exact ⟨hfull, hcanon, hnone⟩

end Terminal

/-! ## Runs -/

namespace PtyKernel

variable {k : PtyKernel}

def Unstuck (k : PtyKernel) : Prop := ∀ i, (k.ttys i).m2s.Valid edgePtyBufSize ∧ ¬ (k.ttys i).Stuck

theorem Unstuck.setTty (h : k.Unstuck) {i : ℕ} {t : Tty} (hv : t.m2s.Valid edgePtyBufSize)
    (hs : ¬ t.Stuck) : (k.setTty i t).Unstuck := by
  intro j
  change (update k.ttys i t j).m2s.Valid _ ∧ ¬ (update k.ttys i t j).Stuck
  by_cases hj : j = i
  · subst hj
    rw [update_self]
    exact ⟨hv, hs⟩
  · rw [update_of_ne hj]
    exact h j

theorem Unstuck.attempt (h : k.Unstuck) {c : PtyCall} (hline : c.EndsLine k.ttys) (pid : ℤ)
    (interrupted : Bool) : (k.attempt pid c interrupted).1.Unstuck := by
  obtain ⟨hv, hs⟩ := h c.target.pty
  unfold PtyKernel.attempt
  generalize hasFlag (k.fd.fds.fds c.target.slot).flags linuxONonblock = nonblock
  cases hop : c.op with
  | read buf b =>
    dsimp only
    refine h.setTty ?_ ?_
    · cases hside : c.target.side with
      | master =>
        rw [(ptyRead_watch _ _ _ _ _ _).1]
        exact hv
      | slave => exact (ptyRead_notStuck hv hs _ _ _ _ _).1
    · cases hside : c.target.side with
      | master =>
        obtain ⟨hm2s, hterm⟩ := ptyRead_watch (k.ttys c.target.pty) (k.peerRefs c.target) nonblock interrupted buf b
        exact fun hstuck => hs (hstuck.congr hm2s hterm)
      | slave => exact (ptyRead_notStuck hv hs _ _ _ _ _).2
  | write buf =>
    dsimp only
    refine h.setTty ?_ ?_
    · cases hside : c.target.side with
      | master => exact (ptyWrite_notStuck hv hs (hline buf hop hside) _ _ _).1
      | slave =>
        rw [(ptyWrite_print _ _ _ _ _).1]
        exact hv
    · cases hside : c.target.side with
      | master => exact (ptyWrite_notStuck hv hs (hline buf hop hside) _ _ _).2
      | slave =>
        obtain ⟨hm2s, hterm⟩ := ptyWrite_print (k.ttys c.target.pty) (k.peerRefs c.target) nonblock interrupted buf
        exact fun hstuck => hs (hstuck.congr hm2s hterm)

theorem fresh_notStuck : ¬ Tty.Stuck {} := by
  rintro ⟨hfull, -, -⟩
  exact absurd hfull (by decide)

theorem Unstuck.step (h : k.Unstuck) (e : PtyEvent) (hok : k.KeepsLine e) : (k.step e).Unstuck := by
  cases e with
  | other e =>
    dsimp only [PtyKernel.step]
    unfold PtyKernel.other
    split
    · exact h
    intro i
    dsimp only
    split
    · exact h i
    · exact ⟨valid_empty (by decide) 0, fresh_notStuck⟩
  | call pid fd op interrupted =>
    dsimp only [PtyKernel.step]
    split
    · exact h
    unfold PtyKernel.call
    split
    · exact h
    split
    · exact h
    rename_i s x htarget
    have hset : (k.setFds s).Unstuck := h
    exact hset.attempt (hok s x htarget) pid interrupted
  | resume pid interrupted =>
    dsimp only [PtyKernel.step]
    split
    · exact h
    · rename_i c hc
      exact h.attempt (hok c hc) pid interrupted
  | tcsets pid fd arg =>
    dsimp only [PtyKernel.step]
    split
    · exact h
    unfold PtyKernel.tcsets
    split
    · rename_i s x t htarget
      have hset : (k.setFds s).Unstuck := h
      obtain ⟨hv, -⟩ := h x.pty
      refine hset.setTty hv ?_
      rintro ⟨hfull, hcanon, hnone⟩
      have hline := hok s x t htarget rfl hfull hcanon
      have hscan : ptySlaveInputHaveCanonicalLine { k.ttys x.pty with termios := t } =
          (k.ttys x.pty).input.any t.isDelim := haveCanonicalLine_eq hv
      rw [hscan, hline] at hnone
      exact Bool.noConfusion hnone
    · exact h

theorem Unstuck.noDeadlock (h : k.Unstuck) : k.NoDeadlock := by
  intro i _ _ hfull buf b data _ _
  obtain ⟨-, hs⟩ := h i
  left
  have hthere : (k.ttys i).inputMissing .slave = false := by
    have hcount : ((k.ttys i).source .slave).count ≠ 0 := by
      change (k.ttys i).m2s.count ≠ 0
      rw [hfull]
      decide
    by_cases hcanon : (k.ttys i).termios.icanon = true
    · have hline : ptySlaveInputHaveCanonicalLine (k.ttys i) = true := by
        by_contra hnone
        exact hs ⟨hfull, hcanon, by simpa using hnone⟩
      simp [inputMissing, hcount, hline]
    · simp [inputMissing, hcount, hcanon]
  unfold ptyRead
  rw [hthere]
  rfl

/-- Where every full line has its end, no terminal can get stuck. -/
theorem no_deadlock (es : List PtyEvent) (hok : Meets PtyKernel.step KeepsLine {} es) :
    (run PtyKernel.step {} es).NoDeadlock := by
  have hinit : Unstuck {} := fun _ => ⟨RingBuffer.valid_empty (by decide) 0, fresh_notStuck⟩
  have hrun : (run PtyKernel.step {} es).Unstuck :=
    run_invariant (I := Unstuck) (fun _ e h hok => h.step e hok) hinit hok
  exact hrun.noDeadlock

theorem not_noDeadlock {i : ℕ} (hs : (k.ttys i).Stuck) (hm : 0 < (k.pty i).refsMaster)
    (hl : 0 < (k.pty i).refsSlave) : ¬ k.NoDeadlock := by
  intro h
  obtain ⟨hfull, hcanon, hnone⟩ := hs
  rcases h i hm hl hfull { len := 1 } blank { data := [0] } (by decide) (by simp) with hread | hwrite
  · have hmissing : (k.ttys i).inputMissing .slave = true := by simp [inputMissing, hcanon, hnone]
    unfold ptyRead at hread
    rw [if_pos hmissing, if_neg (by omega), if_neg (by simp), if_neg (by simp)] at hread
    exact Bool.noConfusion hread
  have hno : ((k.ttys i).dest .master).count ≥ edgePtyBufSize := hfull.ge
  unfold ptyWrite at hwrite
  rw [if_pos hno, if_neg (by omega), if_neg (by simp), if_neg (by simp)] at hwrite
  exact Bool.noConfusion hwrite

end PtyKernel

theorem typeBytes_plain (cs : List UInt8) (t : Tty) (h : t.m2s.Valid edgePtyBufSize)
    (hroom : t.m2s.count + cs.length ≤ edgePtyBufSize) (hplain : ∀ c ∈ cs, t.termios.editing c = false) :
    (cs.foldl typeByte t).m2s.Valid edgePtyBufSize ∧ (cs.foldl typeByte t).termios = t.termios ∧
      (cs.foldl typeByte t).input = t.input ++ cs := by
  induction cs generalizing t with
  | nil => exact ⟨h, rfl, (append_nil _).symm⟩
  | cons c cs ih =>
    rw [length_cons] at hroom
    have hkey := hplain c (by simp)
    have hterm := t.typeByte_termios c
    have hcount := t.typeByte_count c
    obtain ⟨hvalid, hterms, hinput⟩ := ih (t.typeByte c) (typeByte_valid h (by omega)) (by omega)
      (fun x hx => by
        rw [hterm]
        exact hplain x (by simp [hx]))
    refine ⟨hvalid, hterms.trans hterm, hinput.trans ?_⟩
    unfold input
    rw [typeByte_plain hkey, h.contents_push (by omega), append_assoc, singleton_append]

/-- A fresh terminal that gets a line as long as its ring, without an end. -/
theorem longLine_stuck {data : List UInt8} (hlen : data.length = edgePtyBufSize)
    (ha : ∀ c ∈ data, c = 97) (peerRefs : ℕ) (nonblock interrupted : Bool) :
    (ptyWrite {} .master peerRefs nonblock interrupted { data := data }).1.Stuck := by
  have hvalid : RingBuffer.Valid edgePtyBufSize (m2s {}) := valid_empty (by decide) 0
  have hroom : (m2s {}).count = 0 := rfl
  obtain ⟨hv, hterm, hinput⟩ := typeBytes_plain data {} hvalid (by rw [hroom, hlen, Nat.zero_add]) (by
    intro c hc
    rw [ha c hc]
    decide)
  have hempty : input {} = [] := rfl
  rw [hempty, nil_append] at hinput
  rw [ptyWrite_typed (by decide), hroom, Nat.sub_zero, take_of_length_le hlen.le]
  refine ⟨?_, ?_, ?_⟩
  · have hcount := congrArg List.length hinput
    unfold input at hcount
    rw [length_contents, hlen] at hcount
    exact hcount
  · rw [hterm]
    decide
  · rw [haveCanonicalLine_eq hv, hinput, hterm]
    apply any_eq_false.mpr
    intro c hc
    rw [ha c hc]
    decide

/-- A process opens both ends of a terminal, as descriptors 3 and 4. -/
def openPty : List FdEvent :=
  [.call { pid := 1 } (.openat linuxORdwr (.ok "/dev/ptmx") none),
    .call { pid := 1 } (.ptyLock 3 false),
    .call { pid := 1 } (.openat linuxORdwr (.ok "/dev/pts/0") none)]

def openedPty : PtyKernel := run PtyKernel.step {} (openPty.map .other)

theorem PtyKernel.other_fresh {k : PtyKernel} (h : k.ttys = fun _ => {}) (e : FdEvent) :
    (k.step (.other e)).ttys = fun _ => {} := by
  dsimp only [PtyKernel.step]
  unfold PtyKernel.other
  split
  · exact h
  funext i
  dsimp only
  rw [h]
  split <;> rfl

theorem PtyKernel.others_fresh (es : List FdEvent) {k : PtyKernel} (h : k.ttys = fun _ => {}) :
    (run PtyKernel.step k (es.map .other)).ttys = fun _ => {} := by
  induction es generalizing k with
  | nil => exact h
  | cons e es ih => exact ih (other_fresh h e)

theorem PtyKernel.others_unblocked (es : List FdEvent) {k : PtyKernel} {pid : ℤ} (h : k.blocked pid = none) :
    (run PtyKernel.step k (es.map .other)).blocked pid = none := by
  induction es generalizing k with
  | nil => exact h
  | cons e es ih =>
    refine ih ?_
    dsimp only [PtyKernel.step]
    unfold PtyKernel.other
    split
    · exact h
    dsimp only
    split
    · rfl
    · exact h

theorem PtyKernel.others_keepLine (es : List FdEvent) (k : PtyKernel) :
    Meets PtyKernel.step PtyKernel.KeepsLine k (es.map .other) := by
  induction es generalizing k with
  | nil => trivial
  | cons e es ih => exact ⟨trivial, ih _⟩

theorem openedPty_master : (ptyTarget openedPty.fd.fds 1 3).2.getRight? = some ⟨.master, (0, 3), 0⟩ := by
  decide +kernel

theorem endsLine_short {t : Tty} {data : List UInt8} (h : t.m2s.count + data.length < edgePtyBufSize) :
    t.EndsLine { data := data } := by
  intro _ _ cs hread _
  have hi : data.length < edgePtyBufSize - t.m2s.count := by omega
  have hget := congrArg (fun l => l[data.length]?) hread
  have hnone : UserBuf.byte { data := data } data.length = none := by
    unfold UserBuf.byte
    simp
  rw [getElem?_map, getElem?_range hi, Option.map_some, hnone, getElem?_map] at hget
  cases hcs : cs[data.length]? with
  | none =>
    rw [hcs] at hget
    simp at hget
  | some c =>
    rw [hcs] at hget
    simp at hget

theorem PtyKernel.keepsLine_short {k : PtyKernel} {pid fd : ℤ} {data : List UInt8} {interrupted : Bool}
    (hfresh : k.ttys = fun _ => {}) (h : data.length < edgePtyBufSize) :
    k.KeepsLine (.call pid fd (.write { data := data }) interrupted) := by
  intro s x _ buf hop _
  obtain rfl := PtyOp.write.inj hop
  rw [hfresh]
  have hempty : (m2s {}).count = 0 := rfl
  exact endsLine_short (by rw [hempty, Nat.zero_add]; exact h)

theorem PtyKernel.keepsLine_read {k : PtyKernel} {pid fd : ℤ} {buf : ReadBuf} {b : Bounce} {interrupted : Bool} :
    k.KeepsLine (.call pid fd (.read buf b) interrupted) := by
  intro s x _ buf hop _
  exact PtyOp.noConfusion hop

/-- A short line is written, the process forks, and its child reads the line. -/
def shortLine : List PtyEvent :=
  [.call 1 3 (.write { data := [97, 10] }) false, .other (.fork 1 fun _ => []),
    .call 2 4 (.read { len := 8 } blank) false]

theorem shortLine_read : Meets PtyKernel.step PtyKernel.KeepsLine {} (openPty.map .other ++ shortLine) ∧
      (run PtyKernel.step {} (openPty.map .other ++ shortLine)).NoDeadlock := by
  have hinit : PtyKernel.ttys {} = fun _ => {} := rfl
  have hfresh : openedPty.ttys = fun _ => {} := PtyKernel.others_fresh openPty hinit
  have h : Meets PtyKernel.step PtyKernel.KeepsLine {} (openPty.map .other ++ shortLine) := by
    refine meets_append.mpr ⟨PtyKernel.others_keepLine _ _, ?_, trivial, ?_, trivial⟩
    · exact PtyKernel.keepsLine_short (k := openedPty) hfresh (by decide)
    · exact PtyKernel.keepsLine_read
  exact ⟨h, PtyKernel.no_deadlock _ h⟩

/-- A process that has both ends of a fresh terminal fills it with one line. -/
theorem longLine_stops {k : PtyKernel} {s : FdState} {x : PtyEnd} {data : List UInt8}
    (hfresh : k.ttys = fun _ => {}) (hcalls : k.fd.exists 1 = true ∧ k.blocked 1 = none)
    (htarget : ptyTarget k.fd.fds 1 3 = (s, .inr x)) (hside : x.side = .master)
    (hrefs : 0 < (s.objs.ptys x.pty).refsMaster ∧ 0 < (s.objs.ptys x.pty).refsSlave)
    (hlen : data.length = edgePtyBufSize) (ha : ∀ c ∈ data, c = 97) :
    ¬ (k.step (.call 1 3 (.write { data := data }) false)).NoDeadlock := by
  have hearly : PtyOp.early (.write { data := data }) = none := by
    have hne : data ≠ [] := by
      rintro rfl
      simp at hlen
    unfold PtyOp.early
    simp [hne]
  have hstep : k.step (.call 1 3 (.write { data := data }) false) =
      ((k.setFds s).attempt 1 ⟨.write { data := data }, x⟩ false).1 := by
    unfold PtyKernel.step
    dsimp only
    rw [if_neg (by simp [hcalls])]
    unfold PtyKernel.call
    rw [hearly]
    dsimp only
    rw [htarget]
  rw [hstep]
  refine PtyKernel.not_noDeadlock (i := x.pty) ?_ hrefs.1 hrefs.2
  unfold PtyKernel.attempt
  dsimp only
  change Tty.Stuck (update k.ttys x.pty _ x.pty)
  have htty : (k.setFds s).ttys x.pty = {} := congrFun hfresh x.pty
  rw [update_self, htty, hside]
  exact longLine_stuck hlen ha _ _ _

/-- 4096 letters are written. -/
theorem longLine_deadlock : ¬ (run PtyKernel.step {} (openPty.map .other ++
      [.call 1 3 (.write { data := List.replicate edgePtyBufSize 97 }) false])).NoDeadlock := by
  have hinit : PtyKernel.ttys {} = fun _ => {} := rfl
  have hfresh : openedPty.ttys = fun _ => {} := PtyKernel.others_fresh openPty hinit
  have hcalls : openedPty.fd.exists 1 = true ∧ openedPty.blocked 1 = none := by
    refine ⟨by decide +kernel, ?_⟩
    exact PtyKernel.others_unblocked openPty rfl
  have hmaster := openedPty_master
  have hrefs : 0 < ((ptyTarget openedPty.fd.fds 1 3).1.objs.ptys 0).refsMaster ∧
      0 < ((ptyTarget openedPty.fd.fds 1 3).1.objs.ptys 0).refsSlave := by decide +kernel
  rw [run_concat]
  cases htarget : ptyTarget openedPty.fd.fds 1 3 with
  | mk s r =>
    rw [htarget] at hmaster hrefs
    obtain rfl : r = .inr ⟨.master, (0, 3), 0⟩ := Sum.getRight?_eq_some_iff.mp hmaster
    exact longLine_stops hfresh hcalls htarget rfl hrefs List.length_replicate
      fun c hc => List.eq_of_mem_replicate hc

end EdgeOS
