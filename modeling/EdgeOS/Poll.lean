import EdgeOS.FailedReads

namespace EdgeOS

open Lib WriteKind

/-!
`poll_fd_revents` beside the transfers it announces. Its two halves test each kind of descriptor in
their own words; the transfers decide in other places whether they wait.
-/

/-- `LINUX_POLLIN`, `LINUX_POLLOUT`, `LINUX_POLLERR`, `LINUX_POLLHUP`, `LINUX_POLLNVAL`. -/
def linuxPollin : BitVec 16 := 0x1
def linuxPollout : BitVec 16 := 0x4
def linuxPollerr : BitVec 16 := 0x8
def linuxPollhup : BitVec 16 := 0x10
def linuxPollnval : BitVec 16 := 0x20

/-- One `if (cond) rev |= flag`. -/
def raise (cond : Bool) (flag : BitVec 16) : BitVec 16 := if cond then flag else 0

section Poll

variable {σ : Type}

/-- The input half of `poll_fd_revents`. A socket takes the answer to a ping into its buffer. -/
def pollInput : (k : ReadKind σ) → k.Object → k.Object × BitVec 16
  | .pipe, p =>
    (p, if !p.used then linuxPollnval
      else raise (p.ring.count > 0) linuxPollin ||| raise (p.writers = 0) linuxPollhup)
  | .pty side, (t, peerRefs) =>
    ((t, peerRefs), raise ((t.source side).count > 0) linuxPollin ||| raise (peerRefs = 0) linuxPollhup)
  | .socket s, inc =>
    if !s.used then (inc, linuxPollnval)
    else
      let rx := socketTryFillPingHwReply s inc.rx inc.reply
      ({ inc with rx := rx, reply := if inc.rx = [] then none else inc.reply },
        raise (s.listening ∧ s.pending ≠ []) linuxPollin ||| raise (rx ≠ [] ∨ s.closed) linuxPollin |||
          raise s.closed linuxPollhup)
  | .eventfd, ev => (ev, if !ev.used then linuxPollnval else raise (ev.counter > 0) linuxPollin)
  | .timerfd, (tf, now) =>
    ((tf, now), if !tf.used then linuxPollnval else raise ((timerfdExpireCount tf now false).2 > 0) linuxPollin)
  | .signalfd sf pid uid, t =>
    (t, if !sf.used then linuxPollnval
      else raise (signalfdPeekCurrent sf t pid uid false).2.isSome linuxPollin)
  | .file _, f => (f, linuxPollin)
  | .mouse, queue => (queue, raise (List.length queue > 0) linuxPollin)

/-- The output half of `poll_fd_revents`; `sndbuf` is `tcp_sndbuf` of the control block. -/
def pollOutput (sndbuf : ℕ) : (k : WriteKind σ) → k.Object → BitVec 16
  | .pipe, p =>
    if !p.used then linuxPollnval
    else if p.readers = 0 then linuxPollerr
    else raise (p.ring.count < edgePipeSize) linuxPollout
  | .pty side, (t, peerRefs) =>
    if peerRefs = 0 then linuxPollerr else raise ((t.dest side).count < edgePtyBufSize) linuxPollout
  | .unix, peer =>
    match peer with
    | none => 0
    | some rx => raise (rx.length < rxBufSize) linuxPollout
  | .inet s, _ =>
    if s.inet ∧ s.type = linuxSockStream ∧ s.hasPcb ∧ s.connected ∧ !s.closed then
      raise (sndbuf > 0) linuxPollout
    else linuxPollout
  | .eventfd, ev => if !ev.used then linuxPollnval else raise (ev.counter < uint64Max - 1) linuxPollout
  | .timerfd, _ => linuxPollout
  | .signalfd, _ => linuxPollout
  | .file _, _ => linuxPollout
  | .mouse, _ => linuxPollout

def raised (rev flags : BitVec 16) : Bool := rev &&& flags != 0

/-! ## Input -/

def ReadKind.accepts (len : ℕ) : ReadKind σ → Bool
  | .eventfd => 8 ≤ len
  | .timerfd => 8 ≤ len
  | .signalfd .. => siginfoSize ≤ len
  | _ => 0 < len

/-- A stretch that returns, and not because it would have to wait. -/
def Prompt {ρ : Type} (out : Stretch ρ (Except Errno ℕ)) : Prop :=
  (∀ l, out ≠ .wait l) ∧ out ≠ .ret (.error .eagain)

/-- A read after the poll, with no signal pending and any buffer that the kind accepts, is prompt exactly if
the poll has raised `POLLIN` or `POLLHUP`. Listening sockets are not read. -/
def ReadKind.PollAgrees (k : ReadKind σ) (x : k.Object) : Prop :=
  (∀ s, k = .socket s → s.listening = false) →
  ∀ (nonblock : Bool) (buf : ReadBuf) (b : Bounce), buf.null = false → k.accepts buf.len = true →
    (raised (pollInput k x).2 (linuxPollin ||| linuxPollhup) = true ↔
      Prompt ((k.call nonblock buf b).run () false (pollInput k x).1).2)

/-- The object is in use, as those of open descriptors are; a terminal in canonical mode whose master is open
holds a whole line if it holds anything; a socket that is no stream is not closed while it is empty. -/
def ReadKind.PollExact : (k : ReadKind σ) → k.Object → Prop
  | .pipe, p => p.used = true
  | .pty .master, _ => True
  | .pty .slave, (t, peerRefs) => peerRefs = 0 ∨ t.m2s.count = 0 ∨ t.termios.icanon = false ∨
      ptySlaveInputHaveCanonicalLine t = true
  | .socket s, inc => s.listening = true ∨ s.used = true ∧ (s.closed = false ∨ s.type = linuxSockStream ∨
      socketTryFillPingHwReply s inc.rx inc.reply ≠ [])
  | .eventfd, ev => ev.used = true
  | .timerfd, (tf, _) => tf.used = true
  | .signalfd sf _ _, _ => sf.used = true
  | .file _, _ => True
  | .mouse, _ => True

variable {k : ReadKind σ} {nonblock : Bool} {buf : ReadBuf} {b : Bounce}

@[simp] theorem raised_in (a : Bool) : raised (raise a linuxPollin) (linuxPollin ||| linuxPollhup) = a := by
  cases a <;> rfl

@[simp] theorem raised_in_hup (a c : Bool) :
    raised (raise a linuxPollin ||| raise c linuxPollhup) (linuxPollin ||| linuxPollhup) = (a || c) := by
  cases a <;> cases c <;> rfl

@[simp] theorem raised_socket (a c d : Bool) :
    raised (raise a linuxPollin ||| raise c linuxPollin ||| raise d linuxPollhup) (linuxPollin ||| linuxPollhup) =
      (a || c || d) := by
  cases a <;> cases c <;> cases d <;> rfl

@[simp] theorem raised_nval : raised linuxPollnval (linuxPollin ||| linuxPollhup) = false := rfl

theorem prompt_stretch {α ρ : Type} {count : α → ℕ} {l : ρ} {o : Outcome α} :
    Prompt (o.stretch count l) ↔ o ≠ .wait ∧ o ≠ .ret (.error .eagain) := by
  unfold Prompt
  rcases o with (_ | _) | _ <;> simp [Outcome.stretch, Except.map]

theorem missing_prompt {α : Type} (nonblock : Bool) :
    ¬ (missing (α := α) nonblock false ≠ .wait ∧ missing (α := α) nonblock false ≠ .ret (.error .eagain)) := by
  cases nonblock <;> simp [missing]

/-- A read that the kind accepts gets past the checks on the arguments. -/
theorem read_run (hnull : buf.null = false) (hlen : k.accepts buf.len = true) (interrupted : Bool) (x : k.Object) :
    (k.call nonblock buf b).run () interrupted x = k.stretch buf b nonblock interrupted x := by
  have hne : buf.len ≠ 0 := by
    intro hz
    rw [hz] at hlen
    cases k <;> simp [ReadKind.accepts] at hlen
  unfold ReadKind.call
  dsimp only
  rw [if_neg (by simp [hnull]), if_neg hne]

/-! ### Kind by kind -/

/-- A read that takes bytes off a ring can fail only because of its buffer. -/
theorem drained_ne (copied : ℕ → ℕ → Bool) (size n : ℕ) (st : RingBuffer UInt8 × Bounce) :
    filled n (drainInto copied size n n st 0).2 ≠ .error .eagain := by
  obtain ⟨_, _, _, _, hend⟩ := drainInto_pops copied size n n 0 st
  rcases hend with herr | ⟨_, b, hok⟩
  · rw [herr]
    simp [filled, Except.map]
  · rw [hok]
    simp [filled, Except.map]

theorem pipeReadInto_prompt (p : Pipe) : ((pipeReadInto p nonblock false buf b).2 ≠ .wait ∧
        (pipeReadInto p nonblock false buf b).2 ≠ .ret (.error .eagain)) ↔
      p.used = false ∨ 0 < p.ring.count ∨ p.writers = 0 := by
  unfold pipeReadInto
  split
  · rename_i hu
    exact iff_of_true (by simp) (.inl (by simpa using hu))
  rename_i hu
  have hused : ¬ p.used = false := by simpa using hu
  rw [or_iff_right hused]
  split
  · rename_i hc
    split
    · rename_i hw
      exact iff_of_true (by simp) (.inr hw)
    · rename_i hw
      exact iff_of_false (missing_prompt nonblock) (by omega)
  · rename_i hc
    refine iff_of_true ⟨by simp, ?_⟩ (.inl (by omega))
    exact fun heq => drained_ne _ _ _ _ (Outcome.ret.inj heq)

theorem ptyRead_prompt (t : Tty) (side : PtySide) (peerRefs : ℕ) :
    ((ptyRead t side peerRefs nonblock false buf b).2 ≠ .wait ∧
        (ptyRead t side peerRefs nonblock false buf b).2 ≠ .ret (.error .eagain)) ↔
      t.inputMissing side = false ∨ peerRefs = 0 := by
  unfold ptyRead
  split
  · rename_i hm
    rw [or_iff_right (by simp [hm])]
    split
    · rename_i hp
      exact iff_of_true (by simp) hp
    rename_i hp
    refine iff_of_false ?_ hp
    cases nonblock <;> simp
  · rename_i hm
    refine iff_of_true ⟨by simp, ?_⟩ (.inl (by simpa using hm))
    exact fun heq => drained_ne _ _ _ _ (Outcome.ret.inj heq)

theorem receive_prompt (s : Socket) (inc : Incoming) :
    ((inc.receive s nonblock false buf).2 ≠ .wait ∧ (inc.receive s nonblock false buf).2 ≠ .ret (.error .eagain)) ↔
      s.used = false ∨ socketTryFillPingHwReply s inc.rx inc.reply ≠ [] ∨
        s.type = linuxSockStream ∧ s.closed = true := by
  unfold Incoming.receive doSysRecvfrom
  split
  · rename_i hu
    exact iff_of_true (by simp) (.inl (by simpa using hu))
  rename_i hu
  have hused : ¬ s.used = false := by simpa using hu
  rw [or_iff_right hused]
  dsimp only
  by_cases hend : inc.rx = [] ∧ s.type = linuxSockStream ∧ s.closed = true
  · rw [if_pos hend]
    exact iff_of_true (by simp) (.inr hend.2)
  rw [if_neg hend]
  by_cases hrx : socketTryFillPingHwReply s inc.rx inc.reply = []
  · have hempty : inc.rx = [] := by
      by_contra hne
      rw [tryFill_of_ne hne] at hrx
      exact hne hrx
    rw [if_pos hrx]
    refine iff_of_false ?_ ?_
    · split
      · simp
      split
      · simp
      · simp
    · rintro (hne | hclosed)
      · exact hne hrx
      · exact hend ⟨hempty, hclosed⟩
  · rw [if_neg hrx]
    refine iff_of_true ⟨by simp, ?_⟩ (.inl hrx)
    unfold recvTake
    intro heq
    have hout := Outcome.ret.inj heq
    grind

theorem eventfdRead_prompt (ev : EventFd) (hlen : 8 ≤ buf.len) : ((eventfdRead ev nonblock false buf).2 ≠ .wait ∧
        (eventfdRead ev nonblock false buf).2 ≠ .ret (.error .eagain)) ↔ ev.used = false ∨ ev.counter ≠ 0 := by
  unfold eventfdRead
  rw [if_neg (by omega)]
  split
  · rename_i hu
    exact iff_of_true (by simp) (.inl (by simpa using hu))
  rename_i hu
  have hused : ¬ ev.used = false := by simpa using hu
  rw [or_iff_right hused]
  split
  · rename_i hc
    exact iff_of_false (missing_prompt nonblock) (fun h => h hc)
  rename_i hc
  refine iff_of_true ⟨by simp, ?_⟩ hc
  split <;> simp

theorem timerfdRead_prompt (tf : TimerFd) (now : UInt64) (hlen : 8 ≤ buf.len) :
    ((timerfdRead tf now nonblock false buf).2 ≠ .wait ∧
        (timerfdRead tf now nonblock false buf).2 ≠ .ret (.error .eagain)) ↔
      tf.used = false ∨ (timerfdExpireCount tf now false).2 ≠ 0 := by
  unfold timerfdRead
  rw [if_neg (by omega)]
  split
  · rename_i hu
    exact iff_of_true (by simp) (.inl (by simpa using hu))
  rename_i hu
  have hused : ¬ tf.used = false := by simpa using hu
  rw [or_iff_right hused]
  dsimp only
  rw [(timerfdExpireCount_eq tf now).1]
  split
  · rename_i hc
    exact iff_of_false (missing_prompt nonblock) (fun h => h hc)
  rename_i hc
  refine iff_of_true ⟨by simp, ?_⟩ hc
  split <;> simp

theorem signalfdRead_prompt (sf : SignalFd) (t : Signals) (pid : ℤ) (uid : ℕ) (hlen : siginfoSize ≤ buf.len) :
    ((signalfdRead sf t pid uid nonblock buf).2 ≠ .wait ∧
        (signalfdRead sf t pid uid nonblock buf).2 ≠ .ret (.error .eagain)) ↔
      sf.used = false ∨ (sf.peek t).isSome = true := by
  unfold signalfdRead signalfdPeekCurrent
  rw [if_neg (by omega)]
  split
  · rename_i hu
    exact iff_of_true (by simp) (.inl (by simpa using hu))
  rename_i hu
  have hused : ¬ sf.used = false := by simpa using hu
  rw [or_iff_right hused]
  rcases sf.peek t with _ | ⟨sig, t'⟩
  · exact iff_of_false (missing_prompt nonblock) (by simp)
  refine iff_of_true ⟨by simp, ?_⟩ rfl
  dsimp only
  split <;> simp

theorem mouseRead_prompt (queue : List UInt8) (hlen : 0 < buf.len) :
    ((mouseRead queue nonblock false buf).2 ≠ .wait ∧ (mouseRead queue nonblock false buf).2 ≠ .ret (.error .eagain)) ↔
      queue ≠ [] := by
  unfold mouseRead keyboardMouseRead
  rw [if_neg (by omega)]
  dsimp only
  have hchunk : mouseChunk = 256 := rfl
  split
  · rename_i hnil
    refine iff_of_false (missing_prompt nonblock) ?_
    rcases List.take_eq_nil_iff.mp hnil with hmin | rfl
    · omega
    · simp
  · rename_i hne
    refine iff_of_true ⟨by simp, ?_⟩ fun hq => hne (by rw [hq, List.take_nil])
    split <;> simp

theorem readLoop_ne (reads : VfsReads σ) (fs : σ) (fuel : ℕ) (e : FdEntry) (done : List UInt8) :
    (readLoop reads fs buf fuel e done).2 ≠ .error .eagain := by
  induction fuel generalizing e done with
  | zero => simp [readLoop]
  | succ fuel ih =>
    unfold readLoop
    dsimp only
    split
    · simp
    split
    · simp
    split
    · simp
    split
    · simp
    split
    · simp
    · exact ih _ _

theorem fileRead_ne (reads : VfsReads σ) (f : σ × RegularFile) : (fileRead reads f buf).2 ≠ .error .eagain := by
  unfold fileRead readVfs
  dsimp only
  split
  · simp
  · exact readLoop_ne reads _ _ _ _

/-! ### Any kind -/

theorem peekCurrent_isSome (sf : SignalFd) (t : Signals) (pid : ℤ) (uid : ℕ) (consume : Bool) :
    (signalfdPeekCurrent sf t pid uid consume).2.isSome = (sf.peek t).isSome := by
  unfold signalfdPeekCurrent
  rcases sf.peek t with _ | _ <;> rfl

/-- What the poll has taken from the network stack is what the read finds. -/
theorem tryFill_again (s : Socket) (inc : Incoming) :
    socketTryFillPingHwReply s (socketTryFillPingHwReply s inc.rx inc.reply) (if inc.rx = [] then none else inc.reply) =
      socketTryFillPingHwReply s inc.rx inc.reply := by
  by_cases hrx : socketTryFillPingHwReply s inc.rx inc.reply = []
  · have hempty : inc.rx = [] := by
      by_contra hne
      rw [tryFill_of_ne hne] at hrx
      exact hne hrx
    rw [hrx, if_pos hempty, tryFill_none]
  · exact tryFill_of_ne hrx _

theorem canonical_missing (t : Tty) : t.inputMissing .slave = false ↔
      0 < t.m2s.count ∧ (t.termios.icanon = false ∨ ptySlaveInputHaveCanonicalLine t = true) := by
  have hsource : t.source .slave = t.m2s := rfl
  unfold Tty.inputMissing
  rw [hsource]
  by_cases hc : t.m2s.count = 0 <;> cases t.termios.icanon <;> cases ptySlaveInputHaveCanonicalLine t <;>
    simp [hc] <;> omega

def Incoming.polled (inc : Incoming) (s : Socket) : Incoming × BitVec 16 :=
  ({ inc with
      rx := socketTryFillPingHwReply s inc.rx inc.reply
      reply := if inc.rx = [] then none else inc.reply },
    raise (s.listening ∧ s.pending ≠ []) linuxPollin |||
      raise (socketTryFillPingHwReply s inc.rx inc.reply ≠ [] ∨ s.closed) linuxPollin ||| raise s.closed linuxPollhup)

/-- A receive after the poll: what the poll has taken from the network stack is still there. -/
theorem polled_receive_prompt (s : Socket) (inc : Incoming) :
    ((((if !s.used then (inc, linuxPollnval) else inc.polled s).1).receive s nonblock false buf).2 ≠ .wait ∧
        (((if !s.used then (inc, linuxPollnval) else inc.polled s).1).receive s nonblock false buf).2 ≠
          .ret (.error .eagain)) ↔
      s.used = false ∨ socketTryFillPingHwReply s inc.rx inc.reply ≠ [] ∨
        s.type = linuxSockStream ∧ s.closed = true := by
  rw [receive_prompt]
  cases hu : s.used
  · simp
  · rw [if_neg (by simp)]
    unfold Incoming.polled
    dsimp only
    rw [tryFill_again]

theorem socket_raised {s : Socket} (hl : s.listening = false) (inc : Incoming) :
    (raised (if !s.used then (inc, linuxPollnval) else inc.polled s).2 (linuxPollin ||| linuxPollhup) = true ↔
        s.used = false ∨ socketTryFillPingHwReply s inc.rx inc.reply ≠ [] ∨
          s.type = linuxSockStream ∧ s.closed = true) ↔
      s.used = true ∧ (s.closed = false ∨ s.type = linuxSockStream ∨
        socketTryFillPingHwReply s inc.rx inc.reply ≠ []) := by
  unfold Incoming.polled
  cases hu : s.used
  · simp
  · cases hc : s.closed
    · simp [hl]
    · simp [hl, or_comm]

theorem signalfd_raised (sf : SignalFd) (t : Signals) (pid : ℤ) (uid : ℕ) : (raised (if !sf.used then linuxPollnval
        else raise (signalfdPeekCurrent sf t pid uid false).2.isSome linuxPollin) (linuxPollin ||| linuxPollhup) =
          true ↔ sf.used = false ∨ (sf.peek t).isSome = true) ↔ sf.used = true := by
  cases hu : sf.used
  · simp
  · simp [peekCurrent_isSome]

theorem pollAgrees_iff {x : k.Object} (c : Prop) (hquiet : ∀ s, k = .socket s → s.listening = false)
    (h : ∀ (nonblock : Bool) (buf : ReadBuf) (b : Bounce), k.accepts buf.len = true →
      (Prompt (k.stretch buf b nonblock false (pollInput k x).1).2 ↔ c)) :
    k.PollAgrees x ↔ (raised (pollInput k x).2 (linuxPollin ||| linuxPollhup) = true ↔ c) := by
  constructor
  · intro hagree
    have hlen : k.accepts siginfoSize = true := by cases k <;> rfl
    have hbuf := hagree hquiet false { len := siginfoSize } ⟨fun _ => 0, fun _ => 0⟩ rfl hlen
    rw [read_run rfl hlen, h _ _ _ hlen] at hbuf
    exact hbuf
  · intro hiff _ nonblock buf b hnull hlen
    rw [read_run hnull hlen, h _ _ _ hlen]
    exact hiff

/-- Polling for input agrees with reading, but for the cases that `PollExact` leaves out. -/
theorem poll_agrees_with_read {σ : Type} (k : ReadKind σ) (x : k.Object) : k.PollAgrees x ↔ k.PollExact x := by
  cases k with
  | pipe =>
    refine (pollAgrees_iff (x.used = false ∨ 0 < x.ring.count ∨ x.writers = 0) (by simp) fun nonblock buf b _ => ?_).trans ?_
    · exact prompt_stretch.trans (pipeReadInto_prompt x)
    · unfold pollInput ReadKind.PollExact
      cases hu : x.used <;> simp [hu]
  | pty side =>
    obtain ⟨t, peerRefs⟩ := x
    refine (pollAgrees_iff (t.inputMissing side = false ∨ peerRefs = 0) (by simp) fun nonblock buf b _ => ?_).trans ?_
    · exact prompt_stretch.trans (ptyRead_prompt t side peerRefs)
    · unfold pollInput
      cases side with
      | master =>
        have hmissing : t.inputMissing .master = false ↔ 0 < t.s2m.count := by
          simp [Tty.inputMissing, Tty.source, Nat.pos_iff_ne_zero]
        unfold ReadKind.PollExact
        simp [hmissing, Tty.source]
      | slave =>
        unfold ReadKind.PollExact
        rw [canonical_missing]
        have hpoll : raised (raise (decide ((t.source .slave).count > 0)) linuxPollin |||
            raise (decide (peerRefs = 0)) linuxPollhup) (linuxPollin ||| linuxPollhup) = true ↔
              0 < t.m2s.count ∨ peerRefs = 0 := by
          simp [Tty.source]
        dsimp only
        rw [hpoll]
        by_cases hc : t.m2s.count = 0
        · simp [hc]
        have hpos : 0 < t.m2s.count := by omega
        simp only [hc, hpos, true_and, true_or, true_iff, false_or]
        exact or_comm
  | socket s =>
    by_cases hl : s.listening = true
    · refine iff_of_true (fun hquiet => ?_) (.inl hl)
      have := hquiet s rfl
      rw [hl] at this
      exact Bool.noConfusion this
    have hquiet : ∀ s', (ReadKind.socket s : ReadKind σ) = .socket s' → s'.listening = false := by
      intro s' hs
      obtain rfl := ReadKind.socket.inj hs
      simpa using hl
    refine (pollAgrees_iff (s.used = false ∨ socketTryFillPingHwReply s (Incoming.rx x) (Incoming.reply x) ≠ [] ∨
      s.type = linuxSockStream ∧ s.closed = true) hquiet fun nonblock buf b _ => ?_).trans ?_
    · exact prompt_stretch.trans (polled_receive_prompt s x)
    · refine (socket_raised (by simpa using hl) x).trans ?_
      unfold ReadKind.PollExact
      exact (or_iff_right hl).symm
  | eventfd =>
    refine (pollAgrees_iff (x.used = false ∨ x.counter ≠ 0) (by simp) fun nonblock buf b hlen => ?_).trans ?_
    · exact prompt_stretch.trans (eventfdRead_prompt x (by simpa [ReadKind.accepts] using hlen))
    · unfold pollInput ReadKind.PollExact
      cases hu : x.used <;> simp [hu, UInt64.pos_iff_ne_zero]
  | timerfd =>
    obtain ⟨tf, now⟩ := x
    refine (pollAgrees_iff (tf.used = false ∨ (timerfdExpireCount tf now false).2 ≠ 0) (by simp) fun nonblock buf b hlen => ?_).trans ?_
    · exact prompt_stretch.trans (timerfdRead_prompt tf now (by simpa [ReadKind.accepts] using hlen))
    · unfold pollInput ReadKind.PollExact
      cases hu : tf.used <;> simp [hu, UInt64.pos_iff_ne_zero]
  | signalfd sf pid uid =>
    refine (pollAgrees_iff (sf.used = false ∨ (sf.peek x).isSome = true) (by simp) fun nonblock buf b hlen => ?_).trans ?_
    · exact prompt_stretch.trans (signalfdRead_prompt sf x pid uid (by simpa [ReadKind.accepts] using hlen))
    · exact signalfd_raised sf x pid uid
  | file reads =>
    refine (pollAgrees_iff True (by simp) fun nonblock buf b hlen => ?_).trans ?_
    · change Prompt (.ret ((fileRead reads x buf).2.map List.length)) ↔ True
      refine iff_of_true ⟨fun l => by simp, fun heq => ?_⟩ trivial
      have hret := Stretch.ret.inj heq
      have hne : (fileRead reads x buf).2 ≠ .error .eagain := fileRead_ne reads x
      rcases hout : (fileRead reads x buf).2 with err | bytes
      · rw [hout] at hret hne
        exact hne (congrArg Except.error (Except.error.inj hret))
      · rw [hout] at hret
        cases hret
    · have hin : raised (pollInput (.file reads) x).2 (linuxPollin ||| linuxPollhup) = true := by
        change raised linuxPollin (linuxPollin ||| linuxPollhup) = true
        decide
      exact iff_of_true (iff_of_true hin trivial) trivial
  | mouse =>
    refine (pollAgrees_iff (List.length (x : List UInt8) ≠ 0) (by simp) fun nonblock buf b hlen => ?_).trans ?_
    · refine prompt_stretch.trans ((mouseRead_prompt x (by simpa [ReadKind.accepts] using hlen)).trans ?_)
      exact not_congr List.length_eq_zero_iff.symm
    · unfold pollInput ReadKind.PollExact
      simp [Nat.pos_iff_ne_zero]

/-- A byte typed in canonical mode and not followed by the end of a line: it is announced, and the read waits. -/
theorem unfinished_line_announced : ¬ ReadKind.PollAgrees (.pty .slave : ReadKind Unit) (Tty.typeByte {} 97, 1) := by
  intro h
  have hread := (h (by simp) false { len := 1 } ⟨fun _ => 0, fun _ => 0⟩ rfl rfl).mp (by decide +kernel)
  have hmissing : (Tty.typeByte {} 97).inputMissing .slave = true := by decide +kernel
  refine hread.1 () ?_
  change (ptyRead (Tty.typeByte {} 97) .slave 1 false false { len := 1 } ⟨fun _ => 0, fun _ => 0⟩).2.stretch
    List.length () = .wait ()
  unfold ptyRead
  rw [if_pos hmissing]
  rfl

/-! ## Output -/

def WriteKind.carriesBytes : WriteKind σ → Bool
  | .pipe => true
  | .pty _ => true
  | .unix => true
  | _ => false

/-- The byte is transferred, or the write fails, and not because it would have to wait. -/
def Settles {ρ : Type} (out : Stretch ρ (Except Errno ℕ)) : Prop :=
  out = .ret (.ok 1) ∨ ∃ err, err ≠ .eagain ∧ out = .ret (.error err)

/-- A write of one byte after the poll, with no signal pending, settles exactly if the poll has raised a
flag, and with `POLLOUT` it transfers a byte that can be read. -/
def WriteKind.PollAgrees (sndbuf : ℕ) (k : WriteKind σ) (x : k.Object) : Prop :=
  k.carriesBytes = true → ∀ (nonblock : Bool) (buf : UserBuf), buf.null = false → buf.data.length = 1 →
    (Settles ((k.call nonblock buf).run none false x).2 ↔ pollOutput sndbuf k x ≠ 0) ∧
      (raised (pollOutput sndbuf k x) linuxPollout = true → buf.rangeOk 0 1 = true →
        ((k.call nonblock buf).run none false x).2 = .ret (.ok 1))

/-- A slave that writes the end of a line as two bytes does not have one free place; a Unix stream has
its other end. -/
def WriteKind.PollExact : (k : WriteKind σ) → k.Object → Prop
  | .pty .slave, (t, _) => t.s2m.count + 1 ≠ edgePtyBufSize ∨ t.termios.opost = false ∨ t.termios.onlcr = false
  | .unix, peer => Option.isSome peer = true
  | _, _ => True

variable {data : UserBuf} {t : Tty} {side : PtySide} {peerRefs : ℕ} {c : UInt8}

theorem settles_stretch {ρ : Type} {l : ρ} {o : Outcome ℕ} :
    Settles (o.stretch id l) ↔ o = .ret (.ok 1) ∨ ∃ err, err ≠ .eagain ∧ o = .ret (.error err) := by
  unfold Settles
  rcases o with (_ | _) | _ <;> simp [Outcome.stretch, Except.map]

theorem missing_settles (nonblock : Bool) {ρ : Type} {l : ρ} :
    ¬ Settles ((missing (α := ℕ) nonblock false).stretch id l) := by
  rw [settles_stretch]
  cases nonblock <;> simp [missing]

/-- A write of one byte gets past the checks on the arguments, and its length is not cut. -/
theorem write_run {k : WriteKind σ} (hnull : data.null = false) (hlen : data.data.length = 1) (x : k.Object) :
    (k.call nonblock data).run none false x = k.stretch data nonblock false none x := by
  have hbuffer : k.buffer data = data := by
    have htake : data.data.take (data.data.length % 2 ^ 32) = data.data :=
      List.take_of_length_le (by rw [hlen]; decide)
    unfold buffer
    split
    · rw [htake]
    · rw [htake]
    · rfl
  unfold call
  dsimp only
  rw [if_neg (by simp [hnull]), if_neg (by omega), hbuffer]

theorem write_pollAgrees_iff {sndbuf : ℕ} {k : WriteKind σ} {x : k.Object} :
    k.PollAgrees sndbuf x ↔ (k.carriesBytes = true → ∀ (nonblock : Bool) (buf : UserBuf), buf.null = false →
      buf.data.length = 1 → (Settles (k.stretch buf nonblock false none x).2 ↔ pollOutput sndbuf k x ≠ 0) ∧
        (raised (pollOutput sndbuf k x) linuxPollout = true → buf.rangeOk 0 1 = true →
          (k.stretch buf nonblock false none x).2 = .ret (.ok 1))) := by
  unfold WriteKind.PollAgrees
  constructor
  · intro h hk nonblock buf hnull hlen
    have hrun := h hk nonblock buf hnull hlen
    rw [write_run hnull hlen] at hrun
    exact hrun
  · intro h hk nonblock buf hnull hlen
    rw [write_run hnull hlen]
    exact h hk nonblock buf hnull hlen

/-! ### Pipes -/

theorem pipe_one (p : Pipe) (hlen : data.data.length = 1) (hu : p.used = true) (hr : p.readers ≠ 0)
    (hroom : p.ring.count < edgePipeSize) :
    (pipeWriteFrom p false nonblock false data).2 = .ret (if data.rangeOk 0 1 then .ok 1 else .error .efault) := by
  obtain ⟨c, hc⟩ := List.length_eq_one_iff.mp hlen
  have hbyte : data.byte 0 = if data.rangeOk 0 1 then some c else none := by
    unfold UserBuf.byte
    rw [hc]
    rfl
  have hsize : min data.data.length (edgePipeSize - p.ring.count) = 1 := by omega
  unfold pipeWriteFrom
  rw [if_neg (by simp [hu, hr]), if_neg (by omega), hsize]
  unfold pipeWriteLoop
  rw [hbyte]
  cases data.rangeOk 0 1 <;> rfl

theorem pipe_settles (p : Pipe) (hlen : data.data.length = 1) {ρ : Type} {l : ρ} :
    Settles ((pipeWriteFrom p false nonblock false data).2.stretch id l) ↔
      p.used = false ∨ p.readers = 0 ∨ p.ring.count < edgePipeSize := by
  by_cases hgone : p.used = false ∨ p.readers = 0
  · refine iff_of_true ?_ (by tauto)
    unfold pipeWriteFrom
    rw [if_pos (by simpa using hgone)]
    exact .inr ⟨.epipe, by simp, rfl⟩
  obtain ⟨hu, hr⟩ := not_or.mp hgone
  rw [← or_assoc, or_iff_right hgone]
  by_cases hroom : p.ring.count < edgePipeSize
  · refine iff_of_true (settles_stretch.mpr ?_) hroom
    rw [pipe_one p hlen (by simpa using hu) hr hroom]
    cases data.rangeOk 0 1 <;> simp
  refine iff_of_false ?_ hroom
  unfold pipeWriteFrom
  rw [if_neg (by simpa using hgone), if_pos (by omega), if_neg hr]
  exact missing_settles nonblock

/-! ### Terminals -/

theorem pty_one (hc : data.data = [c]) (hroom : (t.dest side).count < edgePtyBufSize) :
    (ptyWrite t side peerRefs nonblock false data).2 =
      .ret (if data.rangeOk 0 1 then .ok (if (t.writeByte side c).isSome then 1 else 0) else .error .efault) := by
  have hbyte : data.byte 0 = if data.rangeOk 0 1 then some c else none := by
    unfold UserBuf.byte
    rw [hc]
    rfl
  have hsize : min data.data.length (edgePtyBufSize - (t.dest side).count) = 1 := by
    rw [hc, List.length_singleton]
    omega
  unfold ptyWrite
  rw [if_neg (by omega), hsize]
  unfold ptyWriteLoop
  rw [hbyte]
  cases data.rangeOk 0 1
  · rfl
  · rcases hwrite : t.writeByte side c with _ | _ <;> simp [hwrite, ptyWriteLoop]

theorem writeByte_isSome (hroom : (t.dest side).count < edgePtyBufSize) :
    (t.writeByte side c).isSome = true ↔ t.crlf side c = false ∨ (t.dest side).count + 1 ≠ edgePtyBufSize := by
  unfold Tty.writeByte
  cases hcrlf : t.crlf side c
  · rw [if_neg (by simp; omega)]
    cases side <;> simp
  · rw [if_pos rfl]
    split
    · rename_i hfull
      exact iff_of_false (by simp) (by simp; omega)
    rename_i hfull
    refine iff_of_true ?_ (.inr (by omega))
    cases side <;> rfl

theorem pty_settles (hc : data.data = [c]) (hfits : t.crlf side c = false ∨ (t.dest side).count + 1 ≠ edgePtyBufSize)
    {ρ : Type} {l : ρ} :
    Settles ((ptyWrite t side peerRefs nonblock false data).2.stretch id l) ↔
      peerRefs = 0 ∨ (t.dest side).count < edgePtyBufSize := by
  by_cases hroom : (t.dest side).count < edgePtyBufSize
  · refine iff_of_true (settles_stretch.mpr ?_) (.inr hroom)
    rw [pty_one hc hroom, if_pos ((writeByte_isSome hroom).mpr hfits)]
    cases data.rangeOk 0 1 <;> simp
  rw [or_iff_left hroom, settles_stretch]
  unfold ptyWrite
  rw [if_pos (by omega)]
  split
  · rename_i hp
    exact iff_of_true (.inr ⟨.epipe, by simp, rfl⟩) hp
  rename_i hp
  refine iff_of_false ?_ hp
  cases nonblock <;> simp

/-! ### Unix streams -/

theorem copyPieces_one (off : ℕ) : copyPieces data off 1 1 0 = data.rangeOk off 1 := by
  have htcp : min (1 - 0) tcpChunkSize = 1 := rfl
  have hloop : copyPieces data off 1 0 (0 + 1) = true := rfl
  rw [copyPieces, if_pos (by omega)]
  dsimp only
  rw [htcp, hloop, Nat.add_zero]
  cases data.rangeOk off 1 <;> rfl

theorem unix_one (hlen : data.data.length = 1) (rx : List UInt8) :
    (sendLoop data nonblock false (data.data.length - 0 + 1) (some rx) 0).2 =
      if rx.length < rxBufSize then .ret (if data.rangeOk 0 1 then .ok 1 else .error .efault)
      else if nonblock then .ret (.error .eagain) else .wait 0 := by
  rw [hlen]
  unfold sendLoop
  rw [if_pos (by omega)]
  dsimp only
  by_cases hroom : rx.length < rxBufSize
  · have hsize : min (data.data.length - 0) (rxBufSize - rx.length) = 1 := by omega
    rw [if_neg (by omega), if_pos hroom, hsize, copyPieces_one]
    cases data.rangeOk 0 1
    · rfl
    · simp [sendLoop, hlen]
  · rw [if_pos (by omega), if_neg hroom]
    cases nonblock <;> rfl

theorem unix_settles (hlen : data.data.length = 1) (rx : List UInt8) :
    Settles (sendLoop data nonblock false (data.data.length - 0 + 1) (some rx) 0).2.stretch ↔
      rx.length < rxBufSize := by
  rw [unix_one hlen]
  by_cases hroom : rx.length < rxBufSize
  · rw [if_pos hroom]
    refine iff_of_true ?_ hroom
    cases data.rangeOk 0 1
    · exact .inr ⟨.efault, by simp, rfl⟩
    · exact .inl rfl
  rw [if_neg hroom]
  refine iff_of_false ?_ hroom
  rintro (hone | ⟨err, herr, hret⟩)
  · cases nonblock <;> simp [SendOutcome.stretch] at hone
  · cases nonblock <;> simp [SendOutcome.stretch] at hret
    exact herr hret.symm

/-! ### Any kind -/

@[simp] theorem raise_out (a : Bool) : raise a linuxPollout = 0#16 ↔ a = false := by
  cases a <;> decide

@[simp] theorem raised_out (a : Bool) : raised (raise a linuxPollout) linuxPollout = a := by
  cases a <;> rfl

theorem pipe_pollAgrees (sndbuf : ℕ) (p : Pipe) : (pipe : WriteKind σ).PollAgrees sndbuf p := by
  refine write_pollAgrees_iff.mpr fun _ nonblock buf hnull hlen => ?_
  refine ⟨(pipe_settles p hlen).trans ?_, fun hout hread => ?_⟩
  · unfold pollOutput
    cases hu : p.used
    · simp [hu, linuxPollnval]
    · by_cases hr : p.readers = 0
      · simp [hu, hr, linuxPollerr]
      · simp [hu, hr]
  · unfold pollOutput at hout
    cases hu : p.used
    · simp [hu, raised, linuxPollnval, linuxPollout] at hout
    by_cases hr : p.readers = 0
    · simp [hu, hr, raised, linuxPollerr, linuxPollout] at hout
    have hroom : p.ring.count < edgePipeSize := by simpa [hu, hr] using hout
    change (pipeWriteFrom p false nonblock false buf).2.stretch id (some 0) = .ret (.ok 1)
    rw [pipe_one p hlen hu hr hroom, if_pos hread]
    rfl

theorem pty_polled (sndbuf : ℕ) (t : Tty) (side : PtySide) (peerRefs : ℕ) :
    pollOutput sndbuf (.pty side : WriteKind σ) (t, peerRefs) ≠ 0 ↔
      peerRefs = 0 ∨ (t.dest side).count < edgePtyBufSize := by
  unfold pollOutput
  by_cases hp : peerRefs = 0
  · simp [hp, linuxPollerr]
  · simp [hp]

theorem pty_pollAgrees (sndbuf : ℕ) (t : Tty) (side : PtySide) (peerRefs : ℕ) :
    (pty side : WriteKind σ).PollAgrees sndbuf (t, peerRefs) ↔
      ∀ c, t.crlf side c = false ∨ (t.dest side).count + 1 ≠ edgePtyBufSize := by
  constructor
  · intro hagree c
    by_contra hne
    obtain ⟨hcrlf, hfull⟩ := not_or.mp hne
    have hroom : (t.dest side).count < edgePtyBufSize := by omega
    have hsettles := (write_pollAgrees_iff.mp hagree rfl false { data := [c] } rfl rfl).1.mpr
      ((pty_polled sndbuf t side peerRefs).mpr (.inr hroom))
    have hnone : (t.writeByte side c).isSome = false := by
      rw [Bool.eq_false_iff]
      exact fun h => hne ((writeByte_isSome hroom).mp h)
    have hout := settles_stretch.mp hsettles
    rw [pty_one rfl hroom, hnone] at hout
    simp at hout
  · intro hfits
    refine write_pollAgrees_iff.mpr fun _ nonblock buf hnull hlen => ?_
    obtain ⟨c, hc⟩ := List.length_eq_one_iff.mp hlen
    refine ⟨(pty_settles hc (hfits c)).trans (pty_polled sndbuf t side peerRefs).symm, fun hout hread => ?_⟩
    unfold pollOutput at hout
    by_cases hp : peerRefs = 0
    · simp [hp, raised, linuxPollerr, linuxPollout] at hout
    have hroom : (t.dest side).count < edgePtyBufSize := by simpa [hp] using hout
    change (ptyWrite t side peerRefs nonblock false buf).2.stretch id (some 0) = .ret (.ok 1)
    rw [pty_one hc hroom, if_pos hread, if_pos ((writeByte_isSome hroom).mpr (hfits c))]
    rfl

theorem unix_pollAgrees (sndbuf : ℕ) (peer : Option (List UInt8)) :
    (unix : WriteKind σ).PollAgrees sndbuf peer ↔ peer.isSome = true := by
  constructor
  · intro hagree
    rcases peer with _ | rx
    · -- the write fails with `EPIPE`, and nothing is raised
      have hzero := (hagree rfl false { data := [0] } rfl rfl).1.mp (.inr ⟨.epipe, by simp, rfl⟩)
      exact absurd rfl hzero
    · rfl
  · intro hsome
    obtain ⟨rx, rfl⟩ := Option.isSome_iff_exists.mp hsome
    refine write_pollAgrees_iff.mpr fun _ nonblock buf hnull hlen => ?_
    have hstretch : ((unix : WriteKind σ).stretch buf nonblock false none (some rx)).2 =
        (sendLoop buf nonblock false (buf.data.length - 0 + 1) (some rx) 0).2.stretch := by
      unfold stretch
      dsimp only
      rw [if_neg (by omega)]
      rfl
    rw [hstretch]
    refine ⟨(unix_settles hlen rx).trans (by simp [pollOutput]), fun hout hread => ?_⟩
    have hroom : rx.length < rxBufSize := by simpa [pollOutput] using hout
    rw [unix_one hlen, if_pos hroom, if_pos hread]
    rfl

/-- Polling for output agrees with writing one byte, but for a slave with one free place that writes the
end of a line as two bytes, and a Unix stream whose other end is gone. -/
theorem poll_agrees_with_write {σ : Type} (sndbuf : ℕ) (k : WriteKind σ) (x : k.Object) :
    k.PollAgrees sndbuf x ↔ k.PollExact x := by
  cases k with
  | pipe => exact iff_of_true (pipe_pollAgrees sndbuf x) trivial
  | pty side =>
    obtain ⟨t, peerRefs⟩ := x
    refine (pty_pollAgrees sndbuf t side peerRefs).trans ?_
    cases side with
    | master => exact iff_of_true (fun c => .inl rfl) trivial
    | slave =>
      have hdest : t.dest .slave = t.s2m := rfl
      unfold WriteKind.PollExact
      rw [hdest]
      constructor
      · intro h
        have hline := h newline
        simp only [Tty.crlf, true_and, decide_eq_false_iff_not, not_and_or, Bool.not_eq_true] at hline
        tauto
      · intro h c
        simp only [Tty.crlf, true_and, decide_eq_false_iff_not, not_and_or, Bool.not_eq_true]
        tauto
  | unix => exact unix_pollAgrees sndbuf x
  | inet _ => exact iff_of_true (fun h => Bool.noConfusion h) trivial
  | eventfd => exact iff_of_true (fun h => Bool.noConfusion h) trivial
  | timerfd => exact iff_of_true (fun h => Bool.noConfusion h) trivial
  | signalfd => exact iff_of_true (fun h => Bool.noConfusion h) trivial
  | file _ => exact iff_of_true (fun h => Bool.noConfusion h) trivial
  | mouse => exact iff_of_true (fun h => Bool.noConfusion h) trivial

/-- A Unix stream whose other end is closed: the write fails at once, and the poll reports nothing. -/
theorem closed_peer_unreported : ¬ WriteKind.PollAgrees 0 (.unix : WriteKind Unit) none := by
  intro h
  have hzero := (h rfl false { data := [0] } rfl rfl).1.mp (.inr ⟨.epipe, by simp, rfl⟩)
  exact absurd rfl hzero

end Poll

end EdgeOS
