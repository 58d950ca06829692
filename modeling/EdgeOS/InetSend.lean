import EdgeOS.Lib.Blocking
import EdgeOS.SocketTransfer

namespace EdgeOS

open Lib

/-!
`do_sys_sendto` on a socket that is no Unix stream, without an address: the branches for UDP, TCP
and pings. The network stack is outside of the repository; what it answers is part of the input.
-/

/-- `LINUX_IPPROTO_TCP`, `LINUX_IPPROTO_UDP`. -/
def linuxIpprotoTcp : ℤ := 6
def linuxIpprotoUdp : ℤ := 17

/-- `sizeof(tx)`, `sizeof(s->ping_req)`. -/
abbrev txSize : ℕ := 2048
abbrev pingReqSize : ℕ := 256

/-- What a socket has handed over and what its pings are matched by. `queued` are the bytes that
`tcp_write` has taken, `datagrams` the payloads given to UDP and `pings` the requests sent. -/
structure NetSocket where
  queued : List UInt8 := []
  datagrams : List (List UInt8) := []
  pings : List (List UInt8) := []
  pingHw : Bool := false
  pingIdBe : List UInt8 := []
  deriving DecidableEq, Repr

/-- `err_t` as the loop of a TCP send looks at it. `ERR_MEM` and the other errors take nothing. -/
inductive TcpErr
  | ok | mem | other
  deriving DecidableEq, Repr

/-- What the network stack and the signals say to one stretch of a send. `peerOk` says whether
the address of the peer can be parsed, `pbuf` whether `pbuf_alloc` and `pbuf_take` succeed,
`routed` whether `udp_sendto` or the echo request succeeds; `write k` is the answer to
`tcp_write` for the piece at `1024 * k`. -/
structure NetAnswers where
  interrupted : Bool := false
  peerOk : Bool := true
  pbuf : Bool := true
  routed : Bool := true
  write : ℕ → TcpErr := fun _ => .ok

def Socket.inet (s : Socket) : Bool := s.domain = linuxAfInet ∨ s.domain = linuxAfInet6

def Socket.sendsUdp (s : Socket) : Bool :=
  s.inet ∧ s.type = linuxSockDgram ∧ (s.protocol = 0 ∨ s.protocol = linuxIpprotoUdp) ∧ s.hasPcb

def Socket.sendsTcp (s : Socket) : Bool :=
  s.inet ∧ s.type = linuxSockStream ∧ (s.protocol = 0 ∨ s.protocol = linuxIpprotoTcp) ∧ s.hasPcb

def Socket.sendsPing (s : Socket) : Bool :=
  s.domain = linuxAfInet ∧ (s.type = linuxSockRaw ∨ s.type = linuxSockDgram) ∧
      (s.protocol = 0 ∨ s.protocol = linuxIpprotoIcmp) ∨
    s.domain = linuxAfInet6 ∧ (s.type = linuxSockRaw ∨ s.type = linuxSockDgram) ∧
      (s.protocol = 0 ∨ s.protocol = linuxIpprotoIcmpv6)

def udpSend (net : NetSocket) (ans : NetAnswers) (buf : UserBuf) : NetSocket × Except Errno ℕ :=
  if !ans.peerOk then (net, .error .eafnosupport)
  else if buf.data.length > txSize then (net, .error .einval)
  else if !buf.rangeOk 0 buf.data.length then (net, .error .efault)
  else if !ans.pbuf then (net, .error .enomem)
  else if !ans.routed then (net, .error .enetunreach)
  else ({ net with datagrams := net.datagrams ++ [buf.data] }, .ok buf.data.length)

/-- The two branches for pings. The request is recorded before it is sent. -/
def pingSend (net : NetSocket) (ans : NetAnswers) (data : List UInt8) : NetSocket × Except Errno ℕ :=
  if data.length < 8 then (net, .ok data.length)
  else
    let req := data.take pingReqSize
    let net := { net with pingHw := false, pingIdBe := (data.drop 4).take 2 }
    if ans.routed then ({ net with pings := net.pings ++ [req], pingHw := true }, .ok req.length)
    else (net, .error .enetunreach)

/-- The loop of the TCP branch. `held` says that the piece at `off` is in `tcp_chunk` already: a
call that waited goes on there. A stretch that waits leaves its `off`. -/
def tcpSendLoop (buf : UserBuf) (nonblock : Bool) (ans : NetAnswers) :
    ℕ → Bool → NetSocket → ℕ → NetSocket × Stretch ℕ (Except Errno ℕ)
  | 0, _, net, off => (net, .ret (.ok off))
  | fuel + 1, held, net, off =>
    if off < buf.data.length then
      let copied := min (buf.data.length - off) tcpChunkSize
      if !held ∧ !buf.rangeOk off copied then (net, .ret (.error .efault))
      else
        match ans.write (off / tcpChunkSize) with
        | .mem =>
          if nonblock then (net, .ret (if off = 0 then .error .eagain else .ok off))
          else if ans.interrupted then (net, .ret (.error .eintr))
          else (net, .wait off)
        | .other => (net, .ret (if off = 0 then .error .eio else .ok off))
        | .ok =>
          tcpSendLoop buf nonblock ans fuel false
            { net with queued := net.queued ++ (buf.data.drop off).take copied } (off + copied)
    else (net, .ret (.ok off))

/-- `do_sys_sendto` after the branch for Unix streams; `resume` is where a TCP
send that waited goes on. A socket that is not connected never gets to `ENOTCONN`. -/
def doSysSendto (s : Socket) (nonblock : Bool) (buf : UserBuf) (resume : Option ℕ) (ans : NetAnswers)
    (net : NetSocket) : NetSocket × Stretch (Option ℕ) (Except Errno ℕ) :=
  match resume with
  | some off => waits (tcpSendLoop buf nonblock ans (buf.data.length - off + 1) true net off)
  | none =>
    if !s.used then (net, .ret (.error .enotsock))
    else if buf.data.length = 0 then (net, .ret (.error .einval))
    else if !s.connected then (net, .ret (.error .eaddrnotavail))
    else if s.sendsUdp then returns (udpSend net ans buf)
    else if s.sendsTcp then waits (tcpSendLoop buf nonblock ans (buf.data.length + 1) false net 0)
    else if buf.data.length > txSize then (net, .ret (.error .einval))
    else if !buf.rangeOk 0 buf.data.length then (net, .ret (.error .efault))
    else if s.sendsPing then returns (pingSend net ans buf.data)
    else (net, .ret (.ok buf.data.length))
where
  returns (out : NetSocket × Except Errno ℕ) : NetSocket × Stretch (Option ℕ) (Except Errno ℕ) :=
    (out.1, .ret out.2)
  waits : NetSocket × Stretch ℕ (Except Errno ℕ) → NetSocket × Stretch (Option ℕ) (Except Errno ℕ)
    | (net, .ret r) => (net, .ret r)
    | (net, .wait off) => (net, .wait (some off))

end EdgeOS
