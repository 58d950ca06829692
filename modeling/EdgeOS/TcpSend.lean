import EdgeOS.FailedWrites

namespace EdgeOS

open Lib List BlockingCall

/-!
`do_sys_sendto` on a TCP socket, with or without an address. What `tcp_write` takes during the call
is to be the first `r` bytes of the buffer, where `r` is what the call returns.
-/

/-- `addr_u` and `addrlen_u` of a send that has both. -/
structure SendAddr where
  len : ℕ
  readable : Bool := true

/-- `sizeof(peer)`. -/
abbrev peerAddrSize : ℕ := 28

/-- The sockets that the TCP branch is for, whether or not they still have a pcb. -/
def Socket.isTcp (s : Socket) : Bool :=
  s.inet ∧ s.type = linuxSockStream ∧ (s.protocol = 0 ∨ s.protocol = linuxIpprotoTcp)

/-- `do_sys_sendto` after the branch for Unix streams. With an address only the TCP branch asks
for a connection. -/
def doSysSendtoAddr (s : Socket) (nonblock : Bool) (buf : UserBuf) (addr : Option SendAddr)
    (resume : Option ℕ) (ans : NetAnswers) (net : NetSocket) :
    NetSocket × Stretch (Option ℕ) (Except Errno ℕ) :=
  if resume.isSome then doSysSendto s nonblock buf resume ans net
  else if !s.used then (net, .ret (.error .enotsock))
  else if buf.null ∨ buf.data.length = 0 then (net, .ret (.error .einval))
  else
    match addr with
    | none => doSysSendto s nonblock buf none ans net
    | some a =>
      if a.len % 2 ^ 32 > peerAddrSize then (net, .ret (.error .einval))
      else if !a.readable then (net, .ret (.error .efault))
      else if s.sendsTcp ∧ !s.connected then (net, .ret (.error .enotconn))
      else doSysSendto { s with connected := true } nonblock buf none ans net

/-- The whole call. `nonblock` is that of the descriptor or of the socket at the time of the
stretch; the length is cut to 32 bits. -/
def sendtoCall (s : Socket) (buf : UserBuf) (addr : Option SendAddr) :
    BlockingCall (Option ℕ) (Bool × NetAnswers) NetSocket (Except Errno ℕ) where
  start := none
  run resume look net :=
    doSysSendtoAddr s look.1 { buf with data := buf.data.take (buf.data.length % 2 ^ 32) } addr resume
      look.2 net

/-- The bytes that `tcp_write` takes in these stretches. -/
def queuedIn (effects : List (NetSocket × NetSocket)) : List UInt8 :=
  effects.flatMap fun p => p.2.queued.drop p.1.queued.length

def reported (data : List UInt8) : Except Errno ℕ → List UInt8
  | .ok r => data.take r
  | .error _ => []

/-- The call only appends, and when it returns it has appended what it reports, which is no more
than the length it was given. -/
def SendAccounted (s : Socket) (buf : UserBuf) (addr : Option SendAddr)
    (looks : List ((Bool × NetAnswers) × NetSocket)) : Prop :=
  let call := sendtoCall s buf addr
  (∀ p ∈ call.effects call.start looks, p.1.queued <+: p.2.queued) ∧ ∀ b, call.result call.start looks = some b →
      queuedIn (call.effects call.start looks) = reported buf.data b ∧ ∀ r, b = .ok r → r ≤ buf.data.length % 2 ^ 32

/-! ## The condition -/

/-- The `k` pieces from `off` on are readable and taken. -/
def tcpTaken (buf : UserBuf) (nonblock : Bool) (ans : NetAnswers) (held : Bool) (off k : ℕ) : Prop :=
  ∀ j < k, tcpFault buf nonblock ans (held && j = 0) (off + tcpChunkSize * j) = false ∧
    ans.write ((off + tcpChunkSize * j) / tcpChunkSize) = .ok

/-- The piece at `off` makes the call wait. -/
def tcpParks (buf : UserBuf) (nonblock : Bool) (ans : NetAnswers) (held : Bool) (off : ℕ) : Prop :=
  tcpFault buf nonblock ans held off = false ∧ ans.write (off / tcpChunkSize) = .mem ∧ nonblock = false

/-- In no stretch is a piece behind the first one of the buffer unreadable or met by a signal, when
the pieces in front of it have been taken. A stretch starts where the one before it waits. -/
def sendUncut (buf : UserBuf) : Bool → ℕ → List (Bool × NetAnswers) → Prop
  | _, _, [] => True
  | held, off, (nonblock, ans) :: looks =>
    tcpUncut buf nonblock ans held off ∧
      ∀ k, off + tcpChunkSize * k < buf.data.length → tcpTaken buf nonblock ans held off k →
        tcpParks buf nonblock ans (held && k = 0) (off + tcpChunkSize * k) →
        sendUncut buf true (off + tcpChunkSize * k) looks

/-- The checks on the address refuse the call: there is none and no peer, or it is too long or
unreadable, or it is given to a socket with a pcb that is not connected. -/
def PeerRefused (s : Socket) : Option SendAddr → Prop
  | none => s.connected = false
  | some a => peerAddrSize < a.len % 2 ^ 32 ∨ a.readable = false ∨ s.hasPcb = true ∧ s.connected = false

def SendRefused (s : Socket) (buf : UserBuf) (addr : Option SendAddr) : Prop :=
  s.used = false ∨ buf.null = true ∨ buf.data.length % 2 ^ 32 = 0 ∨ PeerRefused s addr

/-- A TCP send that keeps the account: it is refused, or its socket has a pcb and no error comes
behind bytes that were taken, or its socket has lost the pcb and the buffer is refused. -/
def SendsInOrder (s : Socket) (buf : UserBuf) (addr : Option SendAddr) (looks : List (Bool × NetAnswers)) : Prop :=
  let buf' := { buf with data := buf.data.take (buf.data.length % 2 ^ 32) }
  SendRefused s buf addr ∨ if s.hasPcb then sendUncut buf' false 0 looks
    else looks = [] ∨ txSize < buf'.data.length ∨ buf.rangeOk 0 buf'.data.length = false

/-! ## One stretch -/

section Stretch

variable {buf : UserBuf} {nonblock : Bool} {ans : NetAnswers}

theorem take_glue (data : List UInt8) {off mid r : ℕ} (h1 : off ≤ mid) (h2 : mid ≤ r) :
    (data.drop off).take (mid - off) ++ (data.drop mid).take (r - mid) = (data.drop off).take (r - off) := by
  have hsplit : r - off = (mid - off) + (r - mid) := by omega
  have hmid : mid = off + (mid - off) := by omega
  rw [hsplit, take_add, drop_drop, ← hmid]

/-- A stretch from `off` on queues what lies between `off` and the place where it ends. -/
theorem tcpSendLoop_queues (fuel : ℕ) (held : Bool) (net : NetSocket) (off : ℕ) (hoff : off ≤ buf.data.length) :
    ∃ r, off ≤ r ∧ r ≤ buf.data.length ∧ (tcpSendLoop buf nonblock ans fuel held net off).1 =
        { net with queued := net.queued ++ (buf.data.drop off).take (r - off) } ∧
      (∀ m, (tcpSendLoop buf nonblock ans fuel held net off).2 = .ret (.ok m) → m = r) ∧
      ∀ m, (tcpSendLoop buf nonblock ans fuel held net off).2 = .wait m → m = r := by
  have hstay : net = { net with queued := net.queued ++ (buf.data.drop off).take (off - off) } := by simp
  induction fuel generalizing held net off with
  | zero => exact ⟨off, le_rfl, hoff, hstay, by simp [tcpSendLoop, eq_comm], by simp [tcpSendLoop]⟩
  | succ fuel ih =>
    unfold tcpSendLoop
    by_cases hlt : off < buf.data.length
    swap
    · rw [if_neg hlt]
      exact ⟨off, le_rfl, hoff, hstay, by simp [eq_comm], by simp⟩
    rw [if_pos hlt]
    dsimp only
    split
    · exact ⟨off, le_rfl, hoff, hstay, by simp, by simp⟩
    split
    · -- The stack has no memory.
      refine ⟨off, le_rfl, hoff, ?_⟩
      split
      · refine ⟨hstay, ?_, by simp⟩
        intro m hm
        by_cases h0 : off = 0
        · simp [h0] at hm
        · simpa [h0, eq_comm] using hm
      split
      · exact ⟨hstay, by simp, by simp⟩
      · exact ⟨hstay, by simp, by simp [eq_comm]⟩
    · refine ⟨off, le_rfl, hoff, hstay, ?_, by simp⟩
      intro m hm
      by_cases h0 : off = 0
      · simp [h0] at hm
      · simpa [h0, eq_comm] using hm
    · -- The piece is taken, and the loop goes on behind it.
      have hpos : 0 < tcpChunkSize := by decide
      obtain ⟨r, hle, hlen, hq, hok, hwait⟩ := ih false
        { net with queued := net.queued ++ (buf.data.drop off).take (min (buf.data.length - off) tcpChunkSize) }
        (off + min (buf.data.length - off) tcpChunkSize) (by omega) (by simp)
      refine ⟨r, by omega, hlen, ?_, hok, hwait⟩
      have hglue := take_glue buf.data (Nat.le_add_right off (min (buf.data.length - off) tcpChunkSize)) hle
      rw [Nat.add_sub_cancel_left] at hglue
      rw [hq, append_assoc, hglue]

theorem tcpTaken_zero {held : Bool} {off : ℕ} : tcpTaken buf nonblock ans held off 0 := by
  intro j hj
  omega

theorem tcpTaken_succ {held : Bool} {off k : ℕ} : tcpTaken buf nonblock ans held off (k + 1) ↔
      tcpFault buf nonblock ans held off = false ∧ ans.write (off / tcpChunkSize) = .ok ∧
        tcpTaken buf nonblock ans false (off + tcpChunkSize) k := by
  constructor
  · intro h
    have h0 := h 0 (by omega)
    simp only [Nat.mul_zero, Nat.add_zero, decide_true, Bool.and_true] at h0
    refine ⟨h0.1, h0.2, fun j hj => ?_⟩
    have hj1 := h (j + 1) (by omega)
    rw [piece_succ] at hj1
    simpa using hj1
  · rintro ⟨hfault, hok, hrest⟩ j hj
    rcases j with _ | j
    · simpa using ⟨hfault, hok⟩
    · rw [piece_succ]
      simpa using hrest j (by omega)

/-- A stretch waits at the piece that parks it, behind pieces that were taken. -/
theorem tcpSendLoop_parks (fuel : ℕ) (held : Bool) (net : NetSocket) (off m : ℕ)
    (hfuel : buf.data.length - off < fuel) :
    (tcpSendLoop buf nonblock ans fuel held net off).2 = .wait m ↔
      ∃ k, m = off + tcpChunkSize * k ∧ m < buf.data.length ∧ tcpTaken buf nonblock ans held off k ∧
        tcpParks buf nonblock ans (held && k = 0) m := by
  induction fuel generalizing held net off with
  | zero => omega
  | succ fuel ih =>
    have hpos : tcpChunkSize = 1024 := rfl
    unfold tcpSendLoop
    by_cases hlt : off < buf.data.length
    swap
    · rw [if_neg hlt]
      refine iff_of_false (by simp) ?_
      rintro ⟨k, rfl, hm, -⟩
      omega
    rw [if_pos hlt]
    dsimp only
    by_cases hread : held = false ∧ buf.rangeOk off (min (buf.data.length - off) tcpChunkSize) = false
    · -- The piece cannot be read.
      have hfault : tcpFault buf nonblock ans held off = true := by simp [tcpFault, hread]
      rw [if_pos (by simpa using hread)]
      refine iff_of_false (by simp) ?_
      rintro ⟨k, rfl, -, htaken, hpark⟩
      rcases k with _ | k
      · simp [tcpParks, hfault] at hpark
      · simp [tcpTaken_succ, hfault] at htaken
    have hfault : tcpFault buf nonblock ans held off =
        decide (ans.write (off / tcpChunkSize) = .mem ∧ (!nonblock) = true ∧ ans.interrupted = true) := by
      unfold tcpFault
      exact decide_eq_decide.mpr (or_iff_right (by simpa using hread))
    rw [if_neg (by simpa using hread)]
    rcases hw : ans.write (off / tcpChunkSize) with _ | _ | _
    · -- The piece is taken.
      simp only [hw, reduceCtorEq, false_and, decide_false] at hfault
      rw [ih _ _ _ (by omega)]
      constructor
      · rintro ⟨k, rfl, hm, htaken, hpark⟩
        have hc : min (buf.data.length - off) tcpChunkSize = tcpChunkSize := by omega
        rw [hc] at hm htaken hpark ⊢
        refine ⟨k + 1, (piece_succ off k).symm, hm, tcpTaken_succ.2 ⟨hfault, hw, htaken⟩, ?_⟩
        simpa using hpark
      · rintro ⟨k, rfl, hm, htaken, hpark⟩
        rcases k with _ | k
        · simp [tcpParks, hw] at hpark
        have hc : min (buf.data.length - off) tcpChunkSize = tcpChunkSize := by
          rw [piece_succ] at hm
          omega
        rw [hc]
        refine ⟨k, piece_succ off k, hm, (tcpTaken_succ.1 htaken).2.2, ?_⟩
        simpa using hpark
    · -- The stack has no memory.
      have hfirst : (∃ k, m = off + tcpChunkSize * k ∧ m < buf.data.length ∧
          tcpTaken buf nonblock ans held off k ∧ tcpParks buf nonblock ans (held && k = 0) m) ↔
          m = off ∧ nonblock = false ∧ ans.interrupted = false := by
        constructor
        · rintro ⟨k, rfl, -, htaken, hpark⟩
          rcases k with _ | k
          · have hpark' : tcpParks buf nonblock ans held off := by simpa using hpark
            obtain ⟨hno, -, hnb⟩ := hpark'
            rw [hfault] at hno
            simp only [hw, hnb] at hno
            exact ⟨rfl, hnb, by simpa using hno⟩
          · rw [tcpTaken_succ, hw] at htaken
            simp at htaken
        · rintro ⟨rfl, hnb, hint⟩
          refine ⟨0, rfl, hlt, tcpTaken_zero, ?_⟩
          simpa [tcpParks, hfault, hint] using ⟨hw, hnb⟩
      rw [hfirst]
      cases nonblock <;> cases ans.interrupted <;> simp [eq_comm]
    · refine iff_of_false (by simp) ?_
      rintro ⟨k, rfl, -, htaken, hpark⟩
      rcases k with _ | k
      · simp [tcpParks, hw] at hpark
      · rw [tcpTaken_succ, hw] at htaken
        simp at htaken

end Stretch

/-! ## The whole call -/

section Call

variable {s : Socket} {buf : UserBuf} {addr : Option SendAddr}

theorem queuedIn_cons (p : NetSocket × NetSocket) (effects : List (NetSocket × NetSocket)) :
    queuedIn (p :: effects) = p.2.queued.drop p.1.queued.length ++ queuedIn effects := rfl

theorem drop_queued {net net' : NetSocket} {added : List UInt8} (h : net'.queued = net.queued ++ added) :
    net'.queued.drop net.queued.length = added := by
  rw [h, drop_left]

def loopCall (buf : UserBuf) : BlockingCall (Option ℕ) (Bool × NetAnswers) NetSocket (Except Errno ℕ) where
  start := none
  run resume look net :=
    doSysSendto.waits (tcpSendLoop buf look.1 look.2 (buf.data.length - resume.getD 0 + 1) resume.isSome net
      (resume.getD 0))

/-- The loop keeps the account exactly when no error comes behind taken bytes. -/
theorem loop_accounted (looks : List ((Bool × NetAnswers) × NetSocket)) (resume : Option ℕ) {held : Bool}
    {off : ℕ} (hheld : resume.isSome = held) (hat : resume.getD 0 = off) (hoff : off ≤ buf.data.length) :
    (∀ p ∈ (loopCall buf).effects resume looks, p.1.queued <+: p.2.queued) ∧
      ((∀ b, (loopCall buf).result resume looks = some b →
          buf.data.take off ++ queuedIn ((loopCall buf).effects resume looks) = reported buf.data b ∧
            ∀ r, b = .ok r → r ≤ buf.data.length) ↔
        sendUncut buf held off (looks.map Prod.fst)) := by
  induction looks generalizing resume held off with
  | nil => simp [effects, result, sendUncut]
  | cons look looks ih =>
    obtain ⟨⟨nonblock, ans⟩, net⟩ := look
    obtain ⟨r, hle, hlen, hq, hok, hwait⟩ :=
      @tcpSendLoop_queues buf nonblock ans (buf.data.length - off + 1) held net off hoff
    have hparks := fun m =>
      @tcpSendLoop_parks buf nonblock ans (buf.data.length - off + 1) held net off m (Nat.lt_succ_self _)
    have hclean :=
      @tcpSendLoop_clean nonblock buf ans (buf.data.length - off + 1) held net off (Nat.lt_succ_self _)
    rcases hout : tcpSendLoop buf nonblock ans (buf.data.length - off + 1) held net off with ⟨net', b | m⟩
    · -- The call returns.
      rw [hout] at hq hok hwait hparks hclean
      dsimp only at hq hok
      have hrun : (loopCall buf).run resume (nonblock, ans) net = (net', .ret b) := by
        simp [loopCall, hheld, hat, hout, doSysSendto.waits]
      have hadded : net'.queued = net.queued ++ (buf.data.drop off).take (r - off) := by rw [hq]
      simp only [effects, result, hrun, mem_singleton, forall_eq,
        Option.some.injEq, forall_eq']
      refine ⟨⟨_, hadded.symm⟩, ?_⟩
      rw [queuedIn_cons, drop_queued hadded, queuedIn, flatMap_nil, append_nil, map_cons, sendUncut]
      have hnone : ∀ k, off + tcpChunkSize * k < buf.data.length → tcpTaken buf nonblock ans held off k →
          tcpParks buf nonblock ans (held && k = 0) (off + tcpChunkSize * k) →
          sendUncut buf true (off + tcpChunkSize * k) (looks.map Prod.fst) := by
        intro k hk htaken hpark
        have := (hparks (off + tcpChunkSize * k)).2 ⟨k, rfl, hk, htaken, hpark⟩
        simp at this
      rw [and_iff_left hnone, ← hclean]
      rcases b with err | m
      · -- With an error nothing may have been taken.
        have hnil : buf.data.take off ++ (buf.data.drop off).take (r - off) = [] ↔ off = 0 ∧ r = 0 := by
          rw [← length_eq_zero_iff, length_append, length_take, length_take, length_drop]
          omega
        simp only [reported, reduceCtorEq, false_implies, implies_true, and_true, hnil]
        constructor
        · rintro ⟨rfl, rfl⟩ net'' err' heq
          obtain ⟨rfl, -⟩ := Prod.mk.inj heq
          exact ⟨rfl, by simpa using hq⟩
        · intro h
          obtain ⟨rfl, hsame⟩ := h net' err rfl
          have hlen' := congrArg (fun n => n.queued.length) hsame
          simp only [hadded, length_append, length_take, length_drop] at hlen'
          exact ⟨rfl, by omega⟩
      · obtain rfl := hok m rfl
        refine iff_of_true ⟨?_, ?_⟩ ?_
        · have hsum : m = off + (m - off) := by omega
          rw [reported, ← take_add, ← hsum]
        · intro r hr
          obtain rfl := Except.ok.inj hr
          exact hlen
        · intro net'' err heq
          simp at heq
    · -- The call waits at `m` and goes on there.
      rw [hout] at hq hwait hparks hclean
      dsimp only at hq
      obtain rfl := hwait m rfl
      have hrun : (loopCall buf).run resume (nonblock, ans) net = (net', .wait (some m)) := by
        simp [loopCall, hheld, hat, hout, doSysSendto.waits]
      have hadded : net'.queued = net.queued ++ (buf.data.drop off).take (m - off) := by rw [hq]
      obtain ⟨happends, hrest⟩ := @ih (some m) true m rfl rfl hlen
      simp only [effects, result, hrun, forall_mem_cons]
      refine ⟨⟨⟨_, hadded.symm⟩, happends⟩, ?_⟩
      have hsum : m = off + (m - off) := by omega
      have hjoin : buf.data.take off ++ (buf.data.drop off).take (m - off) = buf.data.take m := by
        rw [← take_add, ← hsum]
      rw [queuedIn_cons, drop_queued hadded, ← append_assoc, hjoin, hrest, map_cons, sendUncut]
      have huncut : tcpUncut buf nonblock ans held off := hclean.1 fun _ _ heq => by simp at heq
      rw [and_iff_right huncut]
      obtain ⟨k, hk, hm, htaken, hpark⟩ := (hparks m).1 rfl
      constructor
      · intro h k' hk' htaken' hpark'
        have hwait' := (hparks (off + tcpChunkSize * k')).2 ⟨k', rfl, hk', htaken', hpark'⟩
        rw [← Stretch.wait.inj hwait']
        exact h
      · intro h
        rw [hk] at hm hpark ⊢
        exact h k hm htaken hpark

theorem sendsTcp_eq (htcp : s.isTcp = true) : s.sendsTcp = s.hasPcb := by
  simp only [Socket.isTcp, decide_eq_true_eq] at htcp
  simp [Socket.sendsTcp, htcp]

theorem isTcp_no_other (htcp : s.isTcp = true) : s.sendsUdp = false ∧ s.sendsPing = false := by
  simp only [Socket.isTcp, decide_eq_true_eq] at htcp
  have hd : ¬ linuxSockStream = linuxSockDgram := by decide
  have hr : ¬ linuxSockStream = linuxSockRaw := by decide
  simp [Socket.sendsUdp, Socket.sendsPing, htcp.2.1, hd, hr]

theorem doSysSendto_tcp {nonblock : Bool} {ans : NetAnswers} {net : NetSocket} (htcp : s.isTcp = true)
    (hused : s.used = true) (hlen : buf.data.length ≠ 0) (hconn : s.connected = true) :
    doSysSendto s nonblock buf none ans net = if s.hasPcb then (loopCall buf).run none (nonblock, ans) net
      else if buf.data.length > txSize then (net, .ret (.error .einval))
      else if !buf.rangeOk 0 buf.data.length then (net, .ret (.error .efault))
      else (net, .ret (.ok buf.data.length)) := by
  obtain ⟨hudp, hping⟩ := isTcp_no_other htcp
  unfold doSysSendto loopCall
  simp [hused, hlen, hconn, hudp, hping, sendsTcp_eq htcp]

theorem sendtoCall_start (htcp : s.isTcp = true) (look : Bool × NetAnswers) (net : NetSocket) :
    let buf' := { buf with data := buf.data.take (buf.data.length % 2 ^ 32) }
    (SendRefused s buf addr → ∃ err, (sendtoCall s buf addr).run none look net = (net, .ret (.error err))) ∧
      (¬ SendRefused s buf addr → (sendtoCall s buf addr).run none look net =
        if s.hasPcb then (loopCall buf').run none look net
        else if buf'.data.length > txSize then (net, .ret (.error .einval))
        else if !buf.rangeOk 0 buf'.data.length then (net, .ret (.error .efault))
        else (net, .ret (.ok buf'.data.length))) := by
  have hcut : (buf.data.take (buf.data.length % 2 ^ 32)).length = buf.data.length % 2 ^ 32 :=
    length_take_of_le (Nat.mod_le _ _)
  unfold SendRefused sendtoCall doSysSendtoAddr
  dsimp only
  rw [hcut, if_neg (by simp)]
  split
  · rename_i hused
    exact ⟨fun _ => ⟨_, rfl⟩, fun h => absurd (.inl (by simpa using hused)) h⟩
  rename_i hused
  have hused' : s.used = true := by simpa using hused
  split
  · rename_i hbuf
    exact ⟨fun _ => ⟨_, rfl⟩, fun h => absurd (.inr (or_assoc.1 (.inl hbuf))) h⟩
  rename_i hbuf
  obtain ⟨hnull, hlen⟩ := not_or.mp hbuf
  rw [or_iff_right (by simp [hused']), or_iff_right hnull, or_iff_right hlen]
  have hlen' : (buf.data.take (buf.data.length % 2 ^ 32)).length ≠ 0 := by rwa [hcut]
  rcases addr with _ | a
  · dsimp only [PeerRefused]
    constructor
    · intro hconn
      unfold doSysSendto
      dsimp only
      rw [hcut, if_neg hused, if_neg hlen, if_pos (by simp [hconn])]
      exact ⟨_, rfl⟩
    · intro hconn
      rw [doSysSendto_tcp htcp hused' hlen' (by simpa using hconn)]
      dsimp only
      rw [hcut]
  · dsimp only [PeerRefused]
    split
    · rename_i hlong
      exact ⟨fun _ => ⟨_, rfl⟩, fun h => absurd (.inl hlong) h⟩
    rename_i hlong
    split
    · rename_i hread
      exact ⟨fun _ => ⟨_, rfl⟩, fun h => absurd (.inr (.inl (by simpa using hread))) h⟩
    rename_i hread
    rw [or_iff_right hlong, or_iff_right (by simpa using hread), sendsTcp_eq htcp]
    split
    · rename_i hconn
      exact ⟨fun _ => ⟨_, rfl⟩, fun h => absurd (by simpa using hconn) h⟩
    rename_i hconn
    refine ⟨fun h => absurd (by simpa using h) hconn, fun _ => ?_⟩
    rw [@doSysSendto_tcp { s with connected := true } _ _ _ _ htcp hused' hlen' rfl]
    dsimp only
    rw [hcut]

theorem sendtoCall_eq (htcp : s.isTcp = true) (hpcb : s.hasPcb = true) (href : ¬ SendRefused s buf addr) :
    sendtoCall s buf addr = loopCall { buf with data := buf.data.take (buf.data.length % 2 ^ 32) } := by
  have hrun : (sendtoCall s buf addr).run =
      (loopCall { buf with data := buf.data.take (buf.data.length % 2 ^ 32) }).run := by
    funext resume look net
    rcases resume with _ | off
    · rw [(sendtoCall_start htcp look net).2 href, if_pos hpcb]
    · rfl
  unfold sendtoCall loopCall at hrun ⊢
  rw [mk.injEq]
  exact ⟨rfl, hrun⟩

theorem accounted_of_returns {look : Bool × NetAnswers} {net : NetSocket} {b : Except Errno ℕ}
    {looks : List ((Bool × NetAnswers) × NetSocket)}
    (h : (sendtoCall s buf addr).run none look net = (net, .ret b)) :
    SendAccounted s buf addr ((look, net) :: looks) ↔
      reported buf.data b = [] ∧ ∀ r, b = .ok r → r ≤ buf.data.length % 2 ^ 32 := by
  unfold SendAccounted
  have hstart : (sendtoCall s buf addr).start = none := rfl
  dsimp only
  simp only [hstart, effects, result, h, mem_singleton, forall_eq,
    Option.some.injEq, forall_eq', prefix_refl, true_and]
  rw [queuedIn_cons, drop_length]
  exact and_congr_left' ⟨fun h => h.symm, fun h => h.symm⟩

theorem reported_take {data : List UInt8} {n : ℕ} {b : Except Errno ℕ} (h : ∀ r, b = .ok r → r ≤ n) :
    reported (data.take n) b = reported data b := by
  rcases b with err | r
  · rfl
  · rw [reported, reported, take_take, min_eq_left (h r rfl)]

theorem accounted_iff_uncut (htcp : s.isTcp = true) (hpcb : s.hasPcb = true) (href : ¬ SendRefused s buf addr)
    (looks : List ((Bool × NetAnswers) × NetSocket)) :
    SendAccounted s buf addr looks ↔
      sendUncut { buf with data := buf.data.take (buf.data.length % 2 ^ 32) } false 0 (looks.map Prod.fst) := by
  have hcut : (buf.data.take (buf.data.length % 2 ^ 32)).length = buf.data.length % 2 ^ 32 :=
    length_take_of_le (Nat.mod_le _ _)
  unfold SendAccounted
  rw [sendtoCall_eq htcp hpcb href]
  obtain ⟨happends, hiff⟩ := @loop_accounted
    { buf with data := buf.data.take (buf.data.length % 2 ^ 32) } looks none false 0 rfl rfl (Nat.zero_le _)
  rw [← hiff]
  refine Iff.trans (and_iff_right happends) (forall₂_congr fun b _ => ?_)
  rw [take_zero, nil_append, hcut]
  refine and_congr_left fun hle => ?_
  rw [reported_take hle]
  exact Iff.rfl

/-- One call of `do_sys_sendto` on a TCP socket queues what it reports, exactly when it meets the
condition. `looks` are the stretches of the call, each with the answers it gets and with the socket
as other processes have left it. -/
theorem tcp_send_accounting (s : Socket) (htcp : s.isTcp = true) (buf : UserBuf) (addr : Option SendAddr)
    (looks : List ((Bool × NetAnswers) × NetSocket)) :
    SendAccounted s buf addr looks ↔ SendsInOrder s buf addr (looks.map Prod.fst) := by
  have hcut : (buf.data.take (buf.data.length % 2 ^ 32)).length = buf.data.length % 2 ^ 32 :=
    List.length_take_of_le (Nat.mod_le _ _)
  unfold SendsInOrder
  dsimp only
  by_cases href : SendRefused s buf addr
  · refine iff_of_true ?_ (.inl href)
    rcases looks with _ | ⟨⟨look, net⟩, looks⟩
    · simp [SendAccounted, BlockingCall.effects, BlockingCall.result]
    obtain ⟨err, hrun⟩ := (sendtoCall_start htcp look net).1 href
    rw [accounted_of_returns hrun]
    exact ⟨rfl, fun r h => by simp at h⟩
  rw [or_iff_right href]
  by_cases hpcb : s.hasPcb = true
  · rw [if_pos hpcb]
    exact accounted_iff_uncut htcp hpcb href looks
  rw [if_neg hpcb]
  rcases looks with _ | ⟨⟨look, net⟩, looks⟩
  · simp [SendAccounted, BlockingCall.effects, BlockingCall.result]
  have hrun := (sendtoCall_start htcp look net).2 href
  dsimp only at hrun
  rw [if_neg hpcb, hcut] at hrun
  rw [hcut]
  by_cases hlong : buf.data.length % 2 ^ 32 > txSize
  · rw [if_pos hlong] at hrun
    rw [accounted_of_returns hrun]
    exact iff_of_true ⟨rfl, fun r h => by simp at h⟩ (.inr (.inl hlong))
  by_cases hread : buf.rangeOk 0 (buf.data.length % 2 ^ 32) = false
  · rw [if_neg hlong, if_pos (by simpa using hread)] at hrun
    rw [accounted_of_returns hrun]
    exact iff_of_true ⟨rfl, fun r h => by simp at h⟩ (.inr (.inr hread))
  -- The call says that it has sent everything.
  rw [if_neg hlong, if_neg (by simpa using hread)] at hrun
  rw [accounted_of_returns hrun]
  have hpos : buf.data.length % 2 ^ 32 ≠ 0 := fun h => href (.inr (.inr (.inl h)))
  have hle := Nat.mod_le buf.data.length (2 ^ 32)
  refine iff_of_false ?_ (not_or.2 ⟨by simp, not_or.2 ⟨hlong, hread⟩⟩)
  rintro ⟨hnil, -⟩
  rw [reported, ← List.length_eq_zero_iff, List.length_take] at hnil
  omega

/-- A blocking connected socket, and 1025 bytes of which the last cannot be read. The first piece is
in the hands of the stack when the call fails with `EFAULT`. -/
theorem tcp_send_fault_behind_queued : let s : Socket :=
      { used := true, domain := linuxAfInet, type := linuxSockStream, connected := true, hasPcb := true }
    let buf : UserBuf := { data := List.replicate 1025 0, rangeOk := fun off _ => off = 0 }
    s.isTcp = true ∧ ¬ SendAccounted s buf none [((false, {}), {})] := by
  intro s buf
  have htcp : s.isTcp = true := by decide
  have hdata : buf.data.length = 1025 := List.length_replicate
  have hrange : buf.rangeOk = fun off _ => decide (off = 0) := rfl
  have hnull : buf.null = false := rfl
  clear_value buf
  have href : ¬ SendRefused s buf none := by simp [SendRefused, PeerRefused, s, hnull, hdata]
  refine ⟨htcp, fun hacc => ?_⟩
  have huncut := ((accounted_iff_uncut htcp rfl href _).1 hacc).1 1
  have hlen : (buf.data.take (buf.data.length % 2 ^ 32)).length = 1025 := by simp [hdata]
  dsimp only at huncut
  rw [hlen] at huncut
  have hfault := huncut (by decide) fun j hj => by
    obtain rfl : j = 0 := by omega
    simp [tcpFault, hrange]
  simp [tcpFault, hrange] at hfault

theorem tcp_send_accounting_example : let s : Socket :=
      { used := true, domain := linuxAfInet, type := linuxSockStream, connected := true, hasPcb := true }
    SendAccounted s { data := [1, 2, 3] } none [((false, {}), {})] ↔
      SendsInOrder s { data := [1, 2, 3] } none [(false, {})] :=
  tcp_send_accounting _ (by decide) _ _ _

end Call

end EdgeOS
