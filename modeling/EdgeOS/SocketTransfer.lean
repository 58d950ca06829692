import EdgeOS.FileRead
import EdgeOS.PipeTransfer

namespace EdgeOS

/-!
Receiving from and sending to sockets: `do_sys_recvfrom`, the branch of `do_sys_sendto` for Unix
streams and the receive callback of TCP sockets. `rx` is `rx_buf[0, rx_len)`.
-/

open List

/-- `sizeof(rx_buf)`, `sizeof(tcp_chunk)`. -/
abbrev rxBufSize : ℕ := 32768
abbrev tcpChunkSize : ℕ := 1024

/-- `LINUX_IPPROTO_ICMP`, `LINUX_IPPROTO_ICMPV6`. -/
def linuxIpprotoIcmp : ℤ := 1
def linuxIpprotoIcmpv6 : ℤ := 58

/-! ## Receiving -/

/-- `socket_try_fill_ping_hw_reply`: `reply` is the ICMP packet that the network stack has for
the socket, if there is one. -/
def socketTryFillPingHwReply (s : Socket) (rx : List UInt8) (reply : Option (List UInt8)) : List UInt8 :=
  if rx ≠ [] then rx
  else if ¬ (s.domain = linuxAfInet ∨ s.domain = linuxAfInet6) then rx
  else if ¬ (s.type = linuxSockRaw ∨ s.type = linuxSockDgram) then rx
  else if s.domain = linuxAfInet ∧ ¬ (s.protocol = 0 ∨ s.protocol = linuxIpprotoIcmp) then rx
  else if s.domain = linuxAfInet6 ∧ ¬ (s.protocol = 0 ∨ s.protocol = linuxIpprotoIcmpv6) then rx
  else reply.getD rx

/-- What the world around a receive says: the descriptor does not block, the receive timeout has
passed, a signal is pending, a ping has been answered, the address of the sender can be stored. -/
structure RecvEnv where
  nonblock : Bool := false
  timedOut : Bool := false
  interrupted : Bool := false
  reply : Option (List UInt8) := none
  addrCopied : Bool := true

/-- The end of `do_sys_recvfrom`: the bytes are copied, then consumed. A datagram that does not
fit loses its rest. -/
def recvTake (s : Socket) (rx : List UInt8) (buf : ReadBuf) (addrCopied : Bool) :
    List UInt8 × Except Errno (List UInt8) :=
  let n := min rx.length buf.len
  if !buf.copied 0 n then (rx, .error .efault)
  else if !addrCopied then (rx, .error .efault)
  else if s.type = linuxSockStream ∧ n < rx.length then (rx.drop n, .ok (rx.take n))
  else ([], .ok (rx.take n))

/-- `do_sys_recvfrom` from its loop on. -/
def doSysRecvfrom (s : Socket) (rx : List UInt8) (buf : ReadBuf) (env : RecvEnv) : List UInt8 × Outcome (List UInt8) :=
  if rx = [] ∧ s.type = linuxSockStream ∧ s.closed then (rx, .ret (.ok []))
  else
    let rx := socketTryFillPingHwReply s rx env.reply
    if rx = [] then
      if env.nonblock ∨ s.nonblock then (rx, .ret (.error .eagain))
      else if env.timedOut then (rx, .ret (.error .eagain))
      else if env.interrupted then (rx, .ret (.error .eintr))
      else (rx, .wait)
    else
      let (rx, r) := recvTake s rx buf env.addrCopied
      (rx, .ret r)

/-! ## Sending on a Unix stream -/

/-- The copying loop of a send: `n` bytes from `off` on, in pieces of at most 1024. -/
def copyPieces (buf : UserBuf) (off n : ℕ) : ℕ → ℕ → Bool
  | 0, _ => true
  | fuel + 1, done =>
    if done < n then
      let chunk := min (n - done) tcpChunkSize
      if buf.rangeOk (off + done) chunk then copyPieces buf off n fuel (done + chunk) else false
    else true

/-- How an attempt of a send ends: it returns, or it waits with `off` bytes delivered. -/
inductive SendOutcome
  | ret (r : Except Errno ℕ)
  | wait (off : ℕ)
  deriving DecidableEq

/-- The loop of `do_sys_sendto` on a Unix stream. `peer` is the receive buffer of the other end,
if there is one. Every round but the last delivers at least one byte. -/
def sendLoop (buf : UserBuf) (nonblock interrupted : Bool) :
    ℕ → Option (List UInt8) → ℕ → Option (List UInt8) × SendOutcome
  | 0, peer, off => (peer, .ret (.ok off))
  | fuel + 1, peer, off =>
    if off < buf.data.length then
      match peer with
      | none => (peer, .ret (.error .epipe))
      | some rx =>
        let room := rxBufSize - rx.length
        if room = 0 then
          if nonblock then (peer, .ret (if off = 0 then .error .eagain else .ok off))
          else if interrupted then (peer, .ret (.error .eintr))
          else (peer, .wait off)
        else
          let n := min (buf.data.length - off) room
          if !copyPieces buf off n n 0 then (peer, .ret (.error .efault))
          else sendLoop buf nonblock interrupted fuel (some (rx ++ (buf.data.drop off).take n)) (off + n)
    else (peer, .ret (.ok off))

/-- `unix_peer_id` as `do_sys_sendto` reads it: the other end, if it is in use. -/
def unixPeer (o : Objects) (s : Socket) : Option ℕ :=
  match tableIndex edgeMaxSockets s.unixPeerId with
  | none => none
  | some j => if (o.sockets j).used then some j else none

/-! ## The TCP receive callback -/

/-- `edge_tcp_recv_cb` on a segment without an error. `room` is a `uint16_t`. The whole segment is
acknowledged, with `tcp_recved`. -/
def edgeTcpRecvCb (rx payload : List UInt8) : List UInt8 :=
  if rx.length < rxBufSize then
    let room := (rxBufSize - rx.length) % 2 ^ 16
    rx ++ payload.take (min payload.length room)
  else rx

/-! ## What they do -/

theorem tryFill_stream {s : Socket} (h : s.type = linuxSockStream) (rx : List UInt8)
    (reply : Option (List UInt8)) : socketTryFillPingHwReply s rx reply = rx := by
  unfold socketTryFillPingHwReply
  split
  · rfl
  split
  · rfl
  rw [if_pos (by rw [h]; decide)]

theorem recvTake_stream {s : Socket} (h : s.type = linuxSockStream) (rx : List UInt8) (buf : ReadBuf)
    (addrCopied : Bool) :
    (∃ n, recvTake s rx buf addrCopied = (rx.drop n, .ok (rx.take n)) ∧ n = min rx.length buf.len) ∨
      recvTake s rx buf addrCopied = (rx, .error .efault) := by
  unfold recvTake
  dsimp only
  split
  · exact .inr rfl
  split
  · exact .inr rfl
  left
  refine ⟨_, ?_, rfl⟩
  split
  · rfl
  rename_i hall
  have hn : ¬ min rx.length buf.len < rx.length := fun hlt => hall ⟨h, hlt⟩
  rw [drop_eq_nil_of_le (by omega)]

/-- A receive takes what it returns off the front, and nothing if it fails or waits. -/
theorem recvfrom_spec {s : Socket} (h : s.type = linuxSockStream) (rx : List UInt8) (buf : ReadBuf) (env : RecvEnv) :
    rx = (doSysRecvfrom s rx buf env).2.value [] ++ (doSysRecvfrom s rx buf env).1 := by
  unfold doSysRecvfrom
  split
  · rfl
  rw [tryFill_stream h]
  dsimp only
  split
  · split
    · rfl
    split
    · rfl
    split <;> rfl
  rcases recvTake_stream h rx buf env.addrCopied with ⟨n, heq, -⟩ | heq
  · rw [heq]
    exact (take_append_drop n rx).symm
  · rw [heq]
    rfl

/-- A receive of at least one byte that returns 0 has found the buffer empty and the other end
closed. -/
theorem recvfrom_zero {s : Socket} (h : s.type = linuxSockStream) {rx : List UInt8} {buf : ReadBuf}
    {env : RecvEnv} (hlen : 0 < buf.len) (hret : (doSysRecvfrom s rx buf env).2 = .ret (.ok [])) :
    rx = [] ∧ s.closed = true := by
  unfold doSysRecvfrom at hret
  split at hret
  · rename_i hend
    exact ⟨hend.1, hend.2.2⟩
  rw [tryFill_stream h] at hret
  dsimp only at hret
  split at hret
  · split at hret
    · simp at hret
    split at hret
    · simp at hret
    split at hret <;> simp at hret
  rename_i hne
  exfalso
  rcases recvTake_stream h rx buf env.addrCopied with ⟨n, heq, hn⟩ | heq
  · rw [heq] at hret
    have htake : rx.take n = [] := by simpa using hret
    have hlen' := congrArg List.length htake
    rw [length_take, length_nil] at hlen'
    have hpos := length_pos_of_ne_nil hne
    omega
  · rw [heq] at hret
    simp at hret

theorem tcpRecvCb_eq {rx : List UInt8} (h : rx.length ≤ rxBufSize) (payload : List UInt8) :
    edgeTcpRecvCb rx payload = rx ++ payload.take (rxBufSize - rx.length) := by
  unfold edgeTcpRecvCb
  split
  · rename_i hlt
    have hroom : (rxBufSize - rx.length) % 2 ^ 16 = rxBufSize - rx.length := by
      apply Nat.mod_eq_of_lt
      have : rxBufSize = 32768 := rfl
      omega
    dsimp only
    rw [hroom, min_comm, ← take_eq_take_min]
  · rename_i hfull
    have hroom : rxBufSize - rx.length = 0 := by omega
    rw [hroom, take_zero, append_nil]

end EdgeOS
