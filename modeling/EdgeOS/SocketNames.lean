import EdgeOS.Buffer
import EdgeOS.FileWrite
import EdgeOS.InetSend

namespace EdgeOS

open Lib

/-!
The local name of a network socket: `bind_addr`, `local_port_be` and the port of its lwIP
control block, and the calls of `src/sys/syscall.c` that write them. lwIP is outside of the
repository; what it answers is part of the input.
-/

def edgeBswap16 (v : UInt16) : UInt16 := (v &&& 0x00FF) <<< 8 ||| (v &&& 0xFF00) >>> 8

inductive InetFamily
  | inet | inet6
  deriving DecidableEq, Repr

namespace InetFamily

/-- `LINUX_AF_INET`, `LINUX_AF_INET6`. -/
def domain : InetFamily → ℤ
  | inet => linuxAfInet
  | inet6 => linuxAfInet6

def code : InetFamily → UInt16
  | inet => 2
  | inet6 => 10

/-- `sizeof(struct edge_sockaddr_in)`, `sizeof(struct edge_sockaddr_in6)`. -/
def size : InetFamily → ℕ
  | inet => 16
  | inet6 => 28

end InetFamily

/-- `sin_family` and `sin_port`, which are where `sin6_family` and `sin6_port` are. -/
def sinFamily (b : Bytes) : UInt16 := rd16le b 0
def sinPort (b : Bytes) : UInt16 := rd16le b 2

/-- A host address without its port: `sin_addr`, or `sin6_addr` and `sin6_scope_id`. -/
inductive HostAddr
  | v4 (addr : UInt32)
  | v6 (addr : Fin 16 → UInt8) (scope : UInt32)

/-- The structure that `socket_set_bind_inet` or `socket_set_bind_inet6` fills. -/
def HostAddr.bytes (port : UInt16) : HostAddr → Bytes
  | v4 addr => le16 2 ++ le16 port ++ le32 addr ++ zeros 8
  | v6 addr scope => le16 10 ++ le16 port ++ zeros 4 ++ List.ofFn addr ++ le32 scope

def hostAddr (b : Bytes) : InetFamily → HostAddr
  | .inet => .v4 (rd32le b 4)
  | .inet6 => .v6 (fun i => rd8 b (8 + i)) (rd32le b 24)

/-- The test of `do_sys_connect` for IPv6 addresses that it can reach. -/
def isLocal (b : Bytes) : InetFamily → Bool
  | .inet => true
  | .inet6 =>
    decide ((∀ i ∈ List.range 15, rd8 b (8 + i) = 0) ∧ rd8 b 23 = 1) ||
      decide (rd8 b 8 = 0xfe ∧ rd8 b 9 &&& 0xc0 = 0x80)

/-- What EdgeOS looks at in a `struct udp_pcb` or `struct tcp_pcb`. Port 0 is no port. -/
structure LwipPcb where
  localPort : UInt16 := 0
  deriving DecidableEq, Repr

/-- `edge_socket_t`, as far as names go. -/
structure InetSock where
  used : Bool := false
  domain : ℤ := 0
  type : ℤ := 0
  protocol : ℤ := 0
  nonblock : Bool := false
  connected : Bool := false
  connectInProgress : Bool := false
  connectError : ℤ := 0
  closed : Bool := false
  unixPeerId : ℤ := 0
  bindAddr : Bytes := zeros 28
  bindLen : ℕ := 0
  peerAddr : Bytes := zeros 28
  peerLen : ℕ := 0
  rxPeerLen : ℕ := 0
  lwipPcb : Option LwipPcb := none
  localPortBe : UInt16 := 0
  listening : Bool := false
  backlog : ℤ := 0
  /-- The sockets in `pending_sock_ids`, the oldest first. -/
  pending : List ℕ := []
  deriving DecidableEq

namespace InetSock

variable (s : InetSock)

def family : Option InetFamily :=
  if s.domain = linuxAfInet then some .inet
  else if s.domain = linuxAfInet6 then some .inet6
  else none

/-- The kind of a whole address of `len` bytes. -/
def longAddr (len : ℕ) : Option InetFamily :=
  if s.domain = linuxAfInet ∧ InetFamily.inet.size ≤ len then some .inet
  else if s.domain = linuxAfInet6 ∧ InetFamily.inet6.size ≤ len then some .inet6
  else none

def udp : Bool :=
  s.type = linuxSockDgram ∧ (s.protocol = 0 ∨ s.protocol = linuxIpprotoUdp) ∧ s.lwipPcb.isSome
def tcp : Bool :=
  s.type = linuxSockStream ∧ (s.protocol = 0 ∨ s.protocol = linuxIpprotoTcp) ∧ s.lwipPcb.isSome

/-- `socket_set_bind_inet` and `socket_set_bind_inet6`. -/
def setBind (host : HostAddr) (port : UInt16) : InetSock :=
  { s with
    bindAddr := patch s.bindAddr 0 (host.bytes port)
    bindLen := (host.bytes port).length }

def socketSetBindInet (addr : UInt32) (port : UInt16) : InetSock := s.setBind (.v4 addr) port
def socketSetBindInet6 (addr : Fin 16 → UInt8) (port : UInt16) (scope : UInt32) : InetSock :=
  s.setBind (.v6 addr scope) port

def bindPcb (port : UInt16) : InetSock := { s with lwipPcb := some ⟨port⟩ }

/-- The socket after an automatic bind. UDP binds its control block too, unless lwIP refuses. -/
def autobound (family : InetFamily) (host : HostAddr) (port : UInt16) (bound : Bool) : InetSock :=
  let s := s.setBind host port
  if s.domain = family.domain ∧ s.type = linuxSockDgram ∧ s.lwipPcb.isSome ∧ s.localPortBe = 0 ∧ bound then
    { s.bindPcb (edgeBswap16 (sinPort s.bindAddr)) with localPortBe := sinPort s.bindAddr }
  else s

def choosePort (chosen : UInt16) : InetSock :=
  { s with lwipPcb := s.lwipPcb.map fun p => if p.localPort = 0 then ⟨chosen⟩ else p }

/-- The name that `do_sys_getsockname` gives to a user with room for `outlen` bytes. -/
def sockname (outlen : ℕ) : Except Errno Bytes :=
  if s.domain = linuxAfUnix then .ok ((le16 1).take outlen)
  else if s.domain = linuxAfInet then
    .ok ((if 16 ≤ s.bindLen then s.bindAddr.take 16 else le16 2 ++ zeros 14).take outlen)
  else if s.bindLen = 0 then .error .eaddrnotavail
  else .ok ((s.bindAddr.take s.bindLen).take outlen)

end InetSock

/-- A `connect` that waits for its connection. `kept` says whether the call has left the names
of the sockets alone so far. -/
structure ConnectWait where
  sock : ℕ
  family : InetFamily
  len : ℕ
  kept : Bool := true

/-- `g_sockets`, `g_next_ephemeral_port`, `g_if_eth0.ipv4_addr_be` and the calls that wait. -/
structure NameSys where
  socks : ℕ → InetSock := fun _ => {}
  nextEphemeralPort : UInt16 := 49152
  eth0 : UInt32 := 0
  connects : List ConnectWait := []
  accepts : List ℕ := []

namespace NameSys

variable (k : NameSys)

def setSock (i : ℕ) (s : InetSock) : NameSys := { k with socks := Function.update k.socks i s }

/-- `socket_from_fd`, for a descriptor that names this socket or none. -/
def socketAt (sock : Option ℕ) : Option ℕ := sock.filter fun i => (k.socks i).used

/-- `socket_alloc`, up to the entry. -/
def socketFree : Option ℕ := firstFree edgeMaxSockets fun i => (k.socks i).used

def socketAllocEphemeralPortBe : NameSys × UInt16 :=
  let next := k.nextEphemeralPort + 1
  ({ k with nextEphemeralPort := if next < 49152 then 49152 else next }, edgeBswap16 k.nextEphemeralPort)

def anyAddr : InetFamily → HostAddr
  | .inet => .v4 k.eth0
  | .inet6 => .v6 (fun _ => 0) 0

/-- `socket_autobind_inet` and `socket_autobind_inet6`. `bound` is the answer of `udp_bind`. -/
def autobind (family : InetFamily) (i : ℕ) (bound : Bool) : NameSys :=
  if family.size ≤ (k.socks i).bindLen then k
  else
    let (k', port) := k.socketAllocEphemeralPortBe
    k'.setSock i ((k.socks i).autobound family (k.anyAddr family) port bound)

def socketAutobindInet (i : ℕ) (bound : Bool) : NameSys := k.autobind .inet i bound
def socketAutobindInet6 (i : ℕ) (bound : Bool) : NameSys := k.autobind .inet6 i bound

end NameSys

/-- `len` bytes of a buffer. -/
def UserBuf.bytes (b : UserBuf) (len : ℕ) : Bytes := (List.range len).map (rd8 b.data)

namespace NameSys

/-- `do_sys_bind`. `bound` is the answer of `udp_bind` or `tcp_bind`. -/
def doSysBind (k : NameSys) (sock : Option ℕ) (addr : UserBuf) (len : ℕ) (bound : Bool) : NameSys × FdResult :=
  match k.socketAt sock with
  | none => (k, .error .enotsock)
  | some i =>
    let s := k.socks i
    if addr.null ∨ len = 0 ∨ 28 < len then (k, .error .einval)
    else
      match s.longAddr len with
      | some family =>
        if !addr.rangeOk 0 family.size then (k, .error .efault)
        else if sinFamily addr.data ≠ family.code then (k, .error .eafnosupport)
        else
          let (k, port) :=
            if sinPort addr.data = 0 then k.socketAllocEphemeralPortBe else (k, sinPort addr.data)
          let host := hostAddr addr.data family
          if (s.type = linuxSockDgram ∨ s.type = linuxSockStream) ∧ s.lwipPcb.isSome then
            if !bound then (k, .error .eaddrnotavail)
            else
              let s := { s.bindPcb (edgeBswap16 port) with localPortBe := port }
              (k.setSock i (s.setBind host port), .ok 0)
          else (k.setSock i (s.setBind host port), .ok 0)
      | none =>
        if !addr.rangeOk 0 len then (k, .error .efault)
        else (k.setSock i { s with bindAddr := patch s.bindAddr 0 (addr.bytes len), bindLen := len }, .ok 0)

/-- What a `connect` finds each time it looks at its connection. `localIp` is `local_ip` of the
control block and `stale` what is left of its port once it is gone. -/
structure ConnectLook where
  fdNonblock : Bool := false
  interrupted : Bool := false
  timedOut : Bool := false
  localIp : Fin 16 → UInt8 := fun _ => 0
  stale : UInt16 := 0

def connectedAddr (k : NameSys) (look : ConnectLook) : InetFamily → HostAddr
  | .inet => .v4 k.eth0
  | .inet6 => .v6 look.localIp 0

/-- The loop of `do_sys_connect` from its head on. -/
def connectLoop (k : NameSys) (w : ConnectWait) (look : ConnectLook) : NameSys × Stretch ConnectWait FdResult :=
  let s := k.socks w.sock
  if s.connectInProgress then
    if look.interrupted then (k, .ret (.error .eintr))
    else if look.fdNonblock ∨ s.nonblock then (k, .ret (.error .einprogress))
    else if look.timedOut then (k, .ret (.error .eagain))
    else (k, .wait w)
  else if s.connectError ≠ 0 ∨ !s.connected then (k, .ret (.error .econnrefused))
  else
    let port := edgeBswap16 ((s.lwipPcb.map (·.localPort)).getD look.stale)
    let s := if s.bindLen < w.family.size then { s.setBind (k.connectedAddr look w.family) port with localPortBe := port } else s
    (k.setSock w.sock { s with peerLen := w.len, connected := true }, .ret (.ok 0))

/-- The answers of lwIP to `do_sys_connect`: of `udp_bind`, of `udp_connect` or `tcp_connect`, and
the port it picks for a control block without one, with 0 for none. -/
structure ConnectAnswers where
  bound : Bool := true
  granted : Bool := true
  chosen : UInt16 := 0
  look : ConnectLook := {}

/-- `do_sys_connect` for Unix sockets. -/
def connectUnix (k : NameSys) (i : ℕ) (addr : UserBuf) : NameSys × FdResult :=
  let s := k.socks i
  if s.type ≠ linuxSockStream then (k, .error .eprotonosupport)
  else
    match tableIndex edgeMaxSockets s.unixPeerId with
    | some peer =>
      if !(k.socks peer).used then (k, .error .econnrefused)
      else (k.setSock i { s with connected := true }, .ok 0)
    | none => (k, .error (if sinFamily addr.data ≠ 1 then .eafnosupport else .enoent))

/-- `do_sys_connect` once the address is in `peer_addr`. -/
def connectTo (k : NameSys) (i : ℕ) (addr : UserBuf) (len : ℕ) (ans : ConnectAnswers) :
    NameSys × Stretch ConnectWait FdResult :=
  let s := k.socks i
  let done := (k.setSock i { s with peerLen := len, connected := true }, Stretch.ret (.ok 0))
  match s.longAddr len with
  | none => done
  | some family =>
    if sinFamily addr.data ≠ family.code then (k, .ret (.error .eafnosupport))
    else if !isLocal addr.data family then (k, .ret (.error .enetunreach))
    else if s.udp then
      let s := s.choosePort ans.chosen
      if !ans.granted then (k.setSock i s, .ret (.error .ehostunreach))
      else (k.setSock i { s with peerLen := len, connected := true }, .ret (.ok 0))
    else if s.tcp then
      let s := { s.choosePort ans.chosen with connectError := 0 }
      if !ans.granted then (k.setSock i { s with connectInProgress := false }, .ret (.error .econnrefused))
      else (k.setSock i { s with connectInProgress := true }).connectLoop { sock := i, family, len } ans.look
    else done

def doSysConnect (k : NameSys) (sock : Option ℕ) (addr : UserBuf) (len : ℕ) (ans : ConnectAnswers) :
    NameSys × Stretch ConnectWait FdResult :=
  match k.socketAt sock with
  | none => (k, .ret (.error .enotsock))
  | some i =>
    if addr.null ∨ len = 0 ∨ 28 < len then (k, .ret (.error .einval))
    else if !addr.rangeOk 0 2 then (k, .ret (.error .efault))
    else if (k.socks i).domain = linuxAfUnix then
      let (k, r) := k.connectUnix i addr
      (k, .ret r)
    else
      let k := match (k.socks i).family with
        | some family => k.autobind family i ans.bound
        | none => k
      if !addr.rangeOk 0 len then (k, .ret (.error .efault))
      else
        let s := k.socks i
        (k.setSock i { s with peerAddr := patch s.peerAddr 0 (addr.bytes len) }).connectTo i addr len ans

/-- `do_sys_listen`. `given` is the control block that `tcp_listen_with_backlog_and_err` returns. -/
def doSysListen (k : NameSys) (sock : Option ℕ) (backlog : ℤ) (given : Option LwipPcb) : NameSys × FdResult :=
  match k.socketAt sock with
  | none => (k, .error .enotsock)
  | some i =>
    let s := k.socks i
    if s.domain ≠ linuxAfInet ∧ s.domain ≠ linuxAfInet6 then (k, .error .eafnosupport)
    else if s.type ≠ linuxSockStream then (k, .error .eopnotsupp)
    else if s.lwipPcb = none then (k, .error .einval)
    else if s.listening then (k, .ok 0)
    else
      match given with
      | none => (k, .error .eaddrinuse)
      | some lp =>
        (k.setSock i { s with
          lwipPcb := some lp, listening := true, backlog := min (max backlog 1) edgeSockAcceptq
          pending := [] }, .ok 0)

/-- `socket_drop_ref` for the last reference: first the connections nobody has accepted go. -/
def dropSock : ℕ → NameSys → ℕ → NameSys
  | 0, k, _ => k
  | depth + 1, k, i =>
    let k := if (k.socks i).listening then (k.socks i).pending.foldl (dropSock depth) k else k
    let k :=
      if (k.socks i).domain = linuxAfUnix then
        match tableIndex edgeMaxSockets (k.socks i).unixPeerId with
        | some peer =>
          if (k.socks peer).used then
            k.setSock peer { k.socks peer with closed := true, unixPeerId := -1 }
          else k
        | none => k
      else k
    k.setSock i {}

/-- What an `accept` finds: the descriptor and the file reference it gets, and, where the caller
wants the address, which of the copies of its length, of the address and of the length back work. -/
structure AcceptLook where
  fdNonblock : Bool := false
  interrupted : Bool := false
  fd : Option ℕ := none
  fileRef : Bool := true
  copies : Option (Option ℕ × Bool × Bool) := none

/-- The copies at the end of `do_sys_accept` all succeed. -/
def copiesOk (rxPeerLen : ℕ) : Option (Option ℕ × Bool × Bool) → Bool
  | none => true
  | some (none, _, _) => false
  | some (some outlen, addrOk, lenOk) => (min outlen rxPeerLen = 0 ∨ addrOk) ∧ lenOk

/-- The loop of `do_sys_accept` and what follows. -/
def acceptLoop (k : NameSys) (i : ℕ) (look : AcceptLook) : NameSys × Stretch ℕ FdResult :=
  match (k.socks i).pending with
  | [] =>
    if look.fdNonblock ∨ (k.socks i).nonblock then (k, .ret (.error .eagain))
    else if look.interrupted then (k, .ret (.error .eintr))
    else (k, .wait i)
  | sid :: rest =>
    let k := k.setSock i { k.socks i with pending := rest }
    if ¬ sid < edgeMaxSockets ∨ !(k.socks sid).used then (k, .ret (.error .eagain))
    else
      match look.fd with
      | none => (k.dropSock edgeMaxSockets sid, .ret (.error .emfile))
      | some fd =>
        if !look.fileRef then (k.dropSock edgeMaxSockets sid, .ret (.error .enomem))
        else if !copiesOk (k.socks sid).rxPeerLen look.copies then
          (k.dropSock edgeMaxSockets sid, .ret (.error .efault))
        else (k, .ret (.ok fd))

def doSysAccept (k : NameSys) (sock : Option ℕ) (look : AcceptLook) : NameSys × Stretch ℕ FdResult :=
  match k.socketAt sock with
  | none => (k, .ret (.error .enotsock))
  | some i => if !(k.socks i).listening then (k, .ret (.error .einval)) else k.acceptLoop i look

/-- The answers of lwIP to `do_sys_sendto`: of `udp_bind`, of `pbuf_alloc` with `pbuf_take`, of
`udp_sendto`, and the port it picks. `sent` is the result where UDP does not serve the socket. -/
structure SendAnswers where
  bound : Bool := true
  pbuf : Bool := true
  routed : Bool := true
  chosen : UInt16 := 0
  sent : FdResult := .ok 0

/-- The UDP branch of `do_sys_sendto`. -/
def sendUdp (k : NameSys) (i : ℕ) (buf : UserBuf) (peer : Bytes) (ans : SendAnswers) : NameSys × FdResult :=
  let s := k.socks i
  match s.family with
  | none => (k, ans.sent)
  | some family =>
    if peer.length < family.size ∨ sinFamily peer ≠ family.code then (k, .error .eafnosupport)
    else if txSize < buf.data.length then (k, .error .einval)
    else if !buf.rangeOk 0 buf.data.length then (k, .error .efault)
    else if !ans.pbuf then (k, .error .enomem)
    else
      let k := k.setSock i (s.choosePort ans.chosen)
      if !ans.routed then (k, .error .enetunreach) else (k, .ok buf.data.length)

/-- `do_sys_sendto`. `addr` is `addr_u` with its length, unless one of them is 0. -/
def doSysSendto (k : NameSys) (sock : Option ℕ) (buf : UserBuf) (addr : Option (UserBuf × ℕ))
    (ans : SendAnswers) : NameSys × FdResult :=
  match k.socketAt sock with
  | none => (k, .error .enotsock)
  | some i =>
    let s := k.socks i
    if buf.null ∨ buf.data.length = 0 then (k, .error .einval)
    else if s.domain = linuxAfUnix ∧ s.type = linuxSockStream then (k, ans.sent)
    else
      match addr with
      | some (a, len) =>
        if 28 < len then (k, .error .einval)
        else if !a.rangeOk 0 len then (k, .error .efault)
        else go k i (a.bytes len)
      | none => if s.connected then go k i (s.peerAddr.take s.peerLen) else (k, .error .eaddrnotavail)
where
  go (k : NameSys) (i : ℕ) (peer : Bytes) : NameSys × FdResult :=
    let k := if (k.socks i).domain = linuxAfInet then k.socketAutobindInet i ans.bound else k
    let s := k.socks i
    if s.family.isSome ∧ s.udp then k.sendUdp i buf peer ans
    else if s.family.isSome ∧ s.tcp ∧ !s.connected then (k, .error .enotconn)
    else (k, ans.sent)

/-- `do_sys_getsockname`. `outlen` is what the user's length says, and `copied` whether the copies
to the user succeed. -/
def doSysGetsockname (k : NameSys) (sock : Option ℕ) (addrOk : Bool) (outlen : Option ℕ) (copied : Bool) :
    Except Errno Bytes :=
  match k.socketAt sock with
  | none => .error .einval
  | some i =>
    if !addrOk then .error .einval
    else
      match outlen with
      | none => .error .efault
      | some outlen =>
        match (k.socks i).sockname outlen with
        | .error e => .error e
        | .ok name => if !copied then .error .efault else .ok name

/-- The entry that `do_sys_socket` fills. -/
def newSocket (domain type protocol : ℤ) (nonblock : Bool) : InetSock where
  used := true
  domain := domain
  type := type
  protocol := protocol
  nonblock := nonblock
  unixPeerId := -1
  lwipPcb := if needsPcb domain type protocol then some {} else none

/-- `do_sys_socket`. `fd` is the new descriptor, `pcb` whether lwIP has a control block and
`fileRef` whether there is a file reference. -/
def doSysSocket (k : NameSys) (domain type protocol : ℤ) (nonblock : Bool) (fd : Option ℕ)
    (pcb fileRef : Bool) : NameSys × FdResult :=
  if ¬ (domain = linuxAfUnix ∨ domain = linuxAfInet ∨ domain = linuxAfInet6) then (k, .error .eafnosupport)
  else if ¬ (type = linuxSockStream ∨ type = linuxSockDgram ∨ type = linuxSockRaw) ∨
      !protocolOk domain type protocol then (k, .error .eprotonosupport)
  else
    match fd, k.socketFree with
    | some fd, some i =>
      if needsPcb domain type protocol ∧ !pcb then
        (k.setSock i {}, .error (if domain = linuxAfInet6 then .eafnosupport else .enomem))
      else
        let k := k.setSock i (newSocket domain type protocol nonblock)
        if !fileRef then (k.dropSock edgeMaxSockets i, .error .enomem) else (k, .ok fd)
    | _, _ => (k, .error .enomem)

/-- What `edge_tcp_accept_cb` reads in the new control block. -/
structure NewPcb where
  pcb : LwipPcb
  localIp4 : UInt32 := 0
  localIp6 : Fin 16 → UInt8 := fun _ => 0
  remoteIp4 : UInt32 := 0
  remoteIp6 : Fin 16 → UInt8 := fun _ => 0
  remotePort : UInt16 := 0

def NewPcb.host (x : NewPcb) : InetFamily → HostAddr
  | .inet => .v4 x.localIp4
  | .inet6 => .v6 x.localIp6 0
def NewPcb.peer (x : NewPcb) : InetFamily → HostAddr
  | .inet => .v4 x.remoteIp4
  | .inet6 => .v6 x.remoteIp6 0

def acceptedSock (l : InetSock) (pcb : LwipPcb) : InetSock where
  used := true
  domain := l.domain
  type := l.type
  protocol := l.protocol
  connected := true
  lwipPcb := some pcb
  localPortBe := edgeBswap16 pcb.localPort

/-- `edge_tcp_accept_cb`, for a new connection or for none. -/
def edgeTcpAcceptCb (k : NameSys) (i : ℕ) (new : Option NewPcb) : NameSys :=
  match new, k.socketFree with
  | some x, some sid =>
    if !(k.socks i).listening then k
    else
      let l := k.socks i
      let port := edgeBswap16 x.pcb.localPort
      let child := acceptedSock l x.pcb
      let (child, l) := match l.family with
        | some family =>
          ({ child.setBind (x.host family) port with
              peerAddr := patch child.peerAddr 0 ((x.peer family).bytes (edgeBswap16 x.remotePort))
              rxPeerLen := family.size, peerLen := family.size },
            { l.setBind (x.host family) port with localPortBe := port })
        | none => (child, l)
      if edgeSockAcceptq ≤ l.pending.length then ((k.setSock i l).setSock sid child).dropSock edgeMaxSockets sid
      else (k.setSock i { l with pending := l.pending ++ [sid] }).setSock sid child
  | _, _ => k

/-- `edge_tcp_connected_cb` and `edge_tcp_err_cb`, with `err` as `err_t`. -/
def edgeTcpConnectedCb (k : NameSys) (i : ℕ) (err : ℤ) : NameSys :=
  let s := k.socks i
  k.setSock i { s with connectInProgress := false, connectError := err, connected := s.connected ∨ err = 0 }
def edgeTcpErrCb (k : NameSys) (i : ℕ) (err : ℤ) : NameSys :=
  let s := k.socks i
  k.setSock i { s with connectError := err, connectInProgress := false, closed := true, lwipPcb := none }

end NameSys

end EdgeOS
