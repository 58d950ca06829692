import Mathlib.Tactic.IntervalCases
import EdgeOS.Lib.Runs
import EdgeOS.SocketNames

namespace EdgeOS

open Lib Function List InetSock

/-!
The port in a socket's name and the port that lwIP has bound. They agree as long as lwIP never
picks another port than the name says and no bound socket gets a short name.
-/

theorem edgeBswap16_edgeBswap16 (v : UInt16) : edgeBswap16 (edgeBswap16 v) = v := by
  apply UInt16.toBitVec_inj.mp
  apply BitVec.eq_of_getLsbD_eq
  intro i hi
  unfold edgeBswap16
  interval_cases i <;> simp

/-! ## Names -/

def HostAddr.family : HostAddr → InetFamily
  | v4 _ => .inet
  | v6 _ _ => .inet6

theorem hostAddr_family (b : Bytes) (family : InetFamily) : (hostAddr b family).family = family := by
  cases family <;> rfl

theorem NameSys.NewPcb.host_family (x : NameSys.NewPcb) (family : InetFamily) : (x.host family).family = family := by
  cases family <;> rfl

theorem NameSys.anyAddr_family (k : NameSys) (family : InetFamily) : (k.anyAddr family).family = family := by
  cases family <;> rfl

theorem HostAddr.bytes_length (host : HostAddr) (port : UInt16) : (host.bytes port).length = host.family.size := by
  cases host with
  | v4 addr => rfl
  | v6 addr scope => simp [bytes, family, InetFamily.size, le16_length, le32_length, zeros]

theorem InetFamily.size_le (family : InetFamily) : 4 ≤ family.size ∧ family.size ≤ 28 := by
  cases family <;> decide

theorem HostAddr.sinPort_bytes (host : HostAddr) (port : UInt16) : sinPort (host.bytes port) = port := by
  have hsplit : ∀ (code : UInt16) (rest : Bytes), sinPort (le16 code ++ le16 port ++ rest) = port := by
    intro code rest
    have hport := rd16le_le16 port
    exact hport
  cases host with
  | v4 addr => exact hsplit 2 (le32 addr ++ zeros 8)
  | v6 addr scope =>
    have hbytes : (v6 addr scope).bytes port = le16 10 ++ le16 port ++ (zeros 4 ++ ofFn addr ++ le32 scope) := by
      simp [bytes]
    rw [hbytes, hsplit]

namespace InetSock

variable {s : InetSock}

/-- The part of a socket that `bind` and its like write. -/
def name (s : InetSock) : Bytes × ℕ × UInt16 := (s.bindAddr, s.bindLen, s.localPortBe)

theorem setBind_length (hlen : s.bindAddr.length = 28) (host : HostAddr) (port : UInt16) :
    (s.setBind host port).bindAddr.length = 28 := by
  have hsize := host.family.size_le.2
  rw [← host.bytes_length port] at hsize
  unfold setBind
  rw [length_patch (by omega), hlen]

theorem setBind_bindLen (host : HostAddr) (port : UInt16) : (s.setBind host port).bindLen = host.family.size :=
  host.bytes_length port

theorem setBind_sinPort (hlen : s.bindAddr.length = 28) (host : HostAddr) (port : UInt16) :
    sinPort (s.setBind host port).bindAddr = port := by
  have hsize := host.family.size_le
  rw [← host.bytes_length port] at hsize
  have hport : rd16le (patch s.bindAddr 0 (host.bytes port)) (0 + 2) = rd16le (host.bytes port) 2 :=
    rd16le_patch_same (by omega) (by omega)
  exact hport.trans (host.sinPort_bytes port)

/-- A socket whose name has the port that lwIP has bound, if it has bound one. -/
structure Named (s : InetSock) : Prop where
  length : s.bindAddr.length = 28
  inet : s.lwipPcb.isSome ∨ s.listening → s.family.isSome
  type : s.lwipPcb.isSome ∨ s.listening → s.type = linuxSockDgram ∨ s.type = linuxSockStream
  whole : ∀ p family, s.lwipPcb = some p → p.localPort ≠ 0 → s.family = some family → family.size ≤ s.bindLen
  port : ∀ p, s.lwipPcb = some p → p.localPort ≠ 0 → sinPort s.bindAddr = edgeBswap16 p.localPort
  localPort : ∀ p, s.lwipPcb = some p → s.localPortBe = 0 ∨ s.localPortBe = edgeBswap16 p.localPort

theorem named_empty : Named {} where
  length := by decide
  inet := by simp
  type := by simp
  whole := by simp
  port := by simp
  localPort := by simp

variable {host : HostAddr}

theorem Named.setBind (h : s.Named) {port : UInt16}
    (hport : ∀ p, s.lwipPcb = some p → p.localPort ≠ 0 → port = edgeBswap16 p.localPort)
    (hfamily : s.family = some host.family) : (s.setBind host port).Named where
  length := setBind_length h.length host port
  inet := h.inet
  type := h.type
  whole p family _ _ hf := by
    have hsame : family = host.family := Option.some.inj (hf.symm.trans hfamily)
    rw [setBind_bindLen, hsame]
  port p hp hne := by
    rw [setBind_sinPort h.length]
    exact hport p hp hne
  localPort := h.localPort

theorem Named.bound (h : s.Named) (port : UInt16) (hpcb : s.lwipPcb.isSome) (hfamily : s.family = some host.family) :
    ({ s.bindPcb (edgeBswap16 port) with localPortBe := port }.setBind host port).Named where
  length := setBind_length h.length host port
  inet _ := h.inet (.inl hpcb)
  type _ := h.type (.inl hpcb)
  whole p family _ _ hf := by
    have hsame : family = host.family := Option.some.inj (hf.symm.trans hfamily)
    rw [setBind_bindLen, hsame]
  port p hp _ := by
    have hsin := setBind_sinPort (s := { s.bindPcb (edgeBswap16 port) with localPortBe := port }) h.length host port
    cases hp
    rw [hsin, edgeBswap16_edgeBswap16]
  localPort p hp := by
    cases hp
    right
    exact (edgeBswap16_edgeBswap16 port).symm

theorem Named.unbound (h : s.Named) {family : InetFamily} (hfamily : s.family = some family)
    (hshort : ¬ family.size ≤ s.bindLen) {p : LwipPcb} (hp : s.lwipPcb = some p) : p.localPort = 0 := by
  by_contra hne
  exact hshort (h.whole p family hp hne hfamily)

theorem Named.autobound (h : s.Named) (hfamily : s.family = some host.family)
    (hshort : ¬ host.family.size ≤ s.bindLen) (port : UInt16) (bound : Bool) :
    (s.autobound host.family host port bound).Named := by
  have hset : (s.setBind host port).Named :=
    h.setBind (fun p hp hne => absurd (h.unbound hfamily hshort hp) hne) hfamily
  unfold InetSock.autobound
  dsimp only
  split
  · next hudp =>
    have hbound := h.bound port hudp.2.2.1 hfamily
    rw [setBind_sinPort h.length]
    exact ⟨hbound.length, hbound.inet, hbound.type, hbound.whole, hbound.port, hbound.localPort⟩
  · exact hset

theorem autobound_bindLen (host : HostAddr) (port : UInt16) (bound : Bool) :
    (s.autobound host.family host port bound).bindLen = host.family.size := by
  unfold autobound
  dsimp only
  split <;> exact setBind_bindLen (s := s) host port

theorem autobound_sinPort (hlen : s.bindAddr.length = 28) (host : HostAddr) (port : UInt16) (bound : Bool) :
    sinPort (s.autobound host.family host port bound).bindAddr = port := by
  unfold autobound
  dsimp only
  split <;> exact setBind_sinPort hlen host port

/-- lwIP may pick the port of the name, for a control block without one. -/
theorem Named.choosePort (h : s.Named) {chosen : UInt16} (hpick : s.lwipPcb = some {} → chosen ≠ 0 →
      (∀ family, s.family = some family → family.size ≤ s.bindLen) ∧ sinPort s.bindAddr = edgeBswap16 chosen) :
    (s.choosePort chosen).Named := by
  have hpcb : ∀ p, (s.choosePort chosen).lwipPcb = some p →
      s.lwipPcb = some p ∨ s.lwipPcb = some {} ∧ p = ⟨chosen⟩ := by
    intro p hp
    obtain ⟨q, hq, hval⟩ := Option.map_eq_some_iff.mp hp
    split_ifs at hval with hzero
    · refine .inr ⟨?_, hval.symm⟩
      rw [hq]
      exact congrArg some (congrArg LwipPcb.mk hzero)
    · exact .inl (hval ▸ hq)
  have hsome : (s.choosePort chosen).lwipPcb.isSome → s.lwipPcb.isSome := by
    intro hs
    rwa [InetSock.choosePort, Option.isSome_map] at hs
  constructor
  · exact h.length
  · intro hor
    exact h.inet (hor.imp_left hsome)
  · intro hor
    exact h.type (hor.imp_left hsome)
  · intro p family hp hne hf
    rcases hpcb p hp with hold | ⟨hold, rfl⟩
    · exact h.whole p family hold hne hf
    · exact (hpick hold hne).1 family hf
  · intro p hp hne
    rcases hpcb p hp with hold | ⟨hold, rfl⟩
    · exact h.port p hold hne
    · exact (hpick hold hne).2
  · intro p hp
    rcases hpcb p hp with hold | ⟨hold, rfl⟩
    · exact h.localPort p hold
    left
    rcases h.localPort {} hold with hzero | hzero
    · exact hzero
    · exact hzero.trans (by decide)

theorem Named.raw (h : s.Named) {len : ℕ} {b : Bytes} (hlen : b.length = len) (hle : len ≤ 28)
    (hfree : ∀ p, s.lwipPcb = some p → p.localPort = 0) :
    Named { s with bindAddr := patch s.bindAddr 0 b, bindLen := len } where
  length := by
    have hroom := h.length
    exact (length_patch (by omega)).trans hroom
  inet := h.inet
  type := h.type
  whole p _ hp hne _ := absurd (hfree p hp) hne
  port p hp hne := absurd (hfree p hp) hne
  localPort := h.localPort

/-- Without a control block there is no port to agree with. -/
theorem Named.withoutPcb (h : s.Named) : Named { s with lwipPcb := none } where
  length := h.length
  inet hor := h.inet (.inr (hor.resolve_left Bool.false_ne_true))
  type hor := h.type (.inr (hor.resolve_left Bool.false_ne_true))
  whole _ _ hp := by cases hp
  port _ hp := by cases hp
  localPort _ hp := by cases hp

theorem sinPort_take (b : Bytes) {n : ℕ} (hn : 4 ≤ n) : sinPort (b.take n) = sinPort b := by
  apply rd16le_congr
  intro j _ hj
  unfold rd8
  rw [getD_eq_getElem?_getD, getD_eq_getElem?_getD, getElem?_take, if_pos (by omega)]

theorem sockname_port {family : InetFamily} (hfamily : s.domain = family.domain) (hwhole : family.size ≤ s.bindLen)
    {outlen : ℕ} (hout : 4 ≤ outlen) : ∃ name, s.sockname outlen = .ok name ∧ sinPort name = sinPort s.bindAddr := by
  unfold sockname
  cases family with
  | inet =>
    have hlen : 16 ≤ s.bindLen := hwhole
    have hinet : s.domain = linuxAfInet := hfamily
    rw [if_neg (by rw [hinet]; decide), if_pos hinet, if_pos hlen]
    exact ⟨_, rfl, (sinPort_take _ hout).trans (sinPort_take _ (by omega))⟩
  | inet6 =>
    have hlen : 28 ≤ s.bindLen := hwhole
    have hinet : s.domain = linuxAfInet6 := hfamily
    rw [if_neg (by rw [hinet]; decide), if_neg (by rw [hinet]; decide), if_neg (by omega)]
    exact ⟨_, rfl, (sinPort_take _ hout).trans (sinPort_take _ (by omega))⟩

end InetSock

/-! ## Calls -/

/-- What happens to the sockets: a call starts or looks again, lwIP calls back, a last descriptor
goes, or the interface gets an address. -/
inductive NameEvent
  | socket (domain type protocol : ℤ) (nonblock : Bool) (fd : Option ℕ) (pcb fileRef : Bool)
  | bind (sock : Option ℕ) (addr : UserBuf) (len : ℕ) (bound : Bool)
  | connect (sock : Option ℕ) (addr : UserBuf) (len : ℕ) (ans : NameSys.ConnectAnswers)
  | connectAgain (n : ℕ) (look : NameSys.ConnectLook)
  | listen (sock : Option ℕ) (backlog : ℤ) (given : Option LwipPcb)
  | accept (sock : Option ℕ) (look : NameSys.AcceptLook)
  | acceptAgain (n : ℕ) (look : NameSys.AcceptLook)
  | sendto (sock : Option ℕ) (buf : UserBuf) (addr : Option (UserBuf × ℕ)) (ans : NameSys.SendAnswers)
  | getsockname (sock : Option ℕ) (addrOk : Bool) (outlen : Option ℕ) (copied : Bool)
  | close (i : ℕ)
  | acceptCb (i : ℕ) (new : Option NameSys.NewPcb)
  | connectedCb (i : ℕ) (err : ℤ)
  | errCb (i : ℕ) (err : ℤ)
  | address (addr : UInt32)

namespace NameSys

variable (k : NameSys)

/-- The result of an event, or none while the call waits and for what is no call. -/
def act : NameEvent → NameSys × Option FdResult
  | .socket domain type protocol nonblock fd pcb fileRef =>
    returned (k.doSysSocket domain type protocol nonblock fd pcb fileRef)
  | .bind sock addr len bound => returned (k.doSysBind sock addr len bound)
  | .connect sock addr len ans =>
    match k.doSysConnect sock addr len ans with
    | (k', .ret r) => (k', some r)
    | (k', .wait w) =>
      let kept : Bool := (k'.socks w.sock).name = (k.socks w.sock).name
      ({ k' with connects := k'.connects ++ [{ w with kept }] }, none)
  | .connectAgain n look =>
    match k.connects[n]? with
    | none => (k, none)
    | some w =>
      match k.connectLoop w look with
      | (k', .ret r) => ({ k' with connects := k'.connects.eraseIdx n }, some r)
      | (k', .wait _) => (k', none)
  | .listen sock backlog given => returned (k.doSysListen sock backlog given)
  | .accept sock look =>
    match k.doSysAccept sock look with
    | (k', .ret r) => (k', some r)
    | (k', .wait i) => ({ k' with accepts := k'.accepts ++ [i] }, none)
  | .acceptAgain n look =>
    match k.accepts[n]? with
    | none => (k, none)
    | some i =>
      match k.acceptLoop i look with
      | (k', .ret r) => ({ k' with accepts := k'.accepts.eraseIdx n }, some r)
      | (k', .wait _) => (k', none)
  | .sendto sock buf addr ans => returned (k.doSysSendto sock buf addr ans)
  | .getsockname sock addrOk outlen copied =>
    (k, some ((k.doSysGetsockname sock addrOk outlen copied).map fun _ => 0))
  | .close i => (k.dropSock edgeMaxSockets i, none)
  | .acceptCb i new => (k.edgeTcpAcceptCb i new, none)
  | .connectedCb i err => (k.edgeTcpConnectedCb i err, none)
  | .errCb i err => (k.edgeTcpErrCb i err, none)
  | .address addr => ({ k with eth0 := addr }, none)
where
  returned (out : NameSys × FdResult) : NameSys × Option FdResult := (out.1, some out.2)

/-- A waiting call keeps its socket, so none is left for a socket that is gone. -/
def step (e : NameEvent) : NameSys :=
  let k' := (k.act e).1
  { k' with
    connects := k'.connects.filter fun w => (k'.socks w.sock).used
    accepts := k'.accepts.filter fun i => (k'.socks i).used }

/-- Every name has the port that lwIP has bound, and `getsockname` gives it out. -/
def Coherent : Prop :=
  ∀ i p, (k.socks i).used → (k.socks i).lwipPcb = some p → p.localPort ≠ 0 →
    sinPort (k.socks i).bindAddr = edgeBswap16 p.localPort ∧
    ((k.socks i).localPortBe ≠ 0 → (k.socks i).localPortBe = edgeBswap16 p.localPort) ∧
    ∀ outlen, 4 ≤ outlen → ∃ name, k.doSysGetsockname (some i) true (some outlen) true = .ok name ∧
        sinPort name = edgeBswap16 p.localPort

def SameNames (k k' : NameSys) : Prop := ∀ i, (k'.socks i).used → (k'.socks i).name = (k.socks i).name

/-- A call that fails now changes no name and has changed none before it waited. -/
def Clean (e : NameEvent) : Prop :=
  ∀ err, (k.act e).2 = some (.error err) →
    SameNames k (k.step e) ∧ ∀ n look w, e = .connectAgain n look → k.connects[n]? = some w → w.kept

def Owes (e : NameEvent) : Prop := (k.step e).Coherent ∧ k.Clean e

/-! ## The condition -/

/-- `connect` finds an address it takes. -/
def takes (s : InetSock) (addr : UserBuf) (len : ℕ) : Prop :=
  addr.rangeOk 0 len ∧
    ∀ family, s.longAddr len = some family → sinFamily addr.data = family.code ∧ isLocal addr.data family

/-- `connect` goes to lwIP. -/
def asks (s : InetSock) (len : ℕ) : Prop := (s.longAddr len).isSome ∧ (s.udp ∨ s.tcp)

/-- lwIP accepts the connection, and no TCP connect is stopped at its first look. -/
def grants (s : InetSock) (ans : ConnectAnswers) : Prop :=
  ans.granted ∧ (s.tcp → !ans.look.interrupted ∧ !ans.look.fdNonblock ∧ !s.nonblock ∧ !ans.look.timedOut)

def goesOn (s : InetSock) (look : ConnectLook) : Prop :=
  if s.connectInProgress then !look.interrupted ∧ !look.fdNonblock ∧ !s.nonblock ∧ !look.timedOut
  else s.connectError = 0 ∧ s.connected

/-- lwIP picks the port of the name if it picks one. `auto` says whether an automatic bind comes
before it is asked. -/
def picksName (s : InetSock) (family : InetFamily) (auto bound : Bool) (chosen : UInt16) : Prop :=
  s.lwipPcb = some {} → chosen ≠ 0 → if family.size ≤ s.bindLen then chosen = edgeBswap16 (sinPort s.bindAddr)
    else auto ∧ (s.type = linuxSockDgram ∧ bound ∨ chosen = k.nextEphemeralPort)

/-- The address `sendto` sends to, if it gets that far. -/
def peerOf (s : InetSock) : Option (UserBuf × ℕ) → Option Bytes
  | some (a, len) => if len ≤ 28 ∧ a.rangeOk 0 len then some (a.bytes len) else none
  | none => if s.connected then some (s.peerAddr.take s.peerLen) else none

/-- `sendto` comes to `udp_sendto`. -/
def asksUdp (family : InetFamily) (peer : Bytes) (buf : UserBuf) (ans : SendAnswers) : Prop :=
  family.size ≤ peer.length ∧ sinFamily peer = family.code ∧ buf.data.length ≤ txSize ∧
    buf.rangeOk 0 buf.data.length ∧ ans.pbuf

/-- `sendto` sends. -/
def sends (s : InetSock) (family : InetFamily) (peer : Bytes) (buf : UserBuf) (ans : SendAnswers) : Prop :=
  if s.udp then asksUdp family peer buf ans ∧ ans.routed
  else (s.tcp → s.connected) ∧ ∃ n, ans.sent = .ok n

/-- The steps that keep the ports together: no short name for a bound socket, no failing `connect`
or `sendto` on a socket that still needs a name, and no other port from lwIP. -/
def Sound : NameEvent → Prop
  | .bind sock addr len _ => ∀ i, k.socketAt sock = some i → (k.socks i).longAddr len = none →
      ¬ addr.null → len ≤ 28 → addr.rangeOk 0 len →
      ∀ p, (k.socks i).lwipPcb = some p → p.localPort = 0
  | .connect sock addr len ans => ∀ i family, k.socketAt sock = some i → (k.socks i).family = some family →
      ¬ addr.null → len ≠ 0 → len ≤ 28 → addr.rangeOk 0 2 →
      (family.size ≤ (k.socks i).bindLen ∨
        takes (k.socks i) addr len ∧ (asks (k.socks i) len → grants (k.socks i) ans)) ∧
      (takes (k.socks i) addr len → asks (k.socks i) len → k.picksName (k.socks i) family true ans.bound ans.chosen)
  | .connectAgain n look => ∀ w, k.connects[n]? = some w → w.kept ∨ goesOn (k.socks w.sock) look
  | .listen sock _ given => ∀ i p lp, k.socketAt sock = some i → (k.socks i).lwipPcb = some p → given = some lp →
      lp.localPort = p.localPort
  | .sendto sock buf addr ans => ∀ i family peer, k.socketAt sock = some i → (k.socks i).family = some family →
      ¬ buf.null → buf.data.length ≠ 0 → peerOf (k.socks i) addr = some peer →
      (family = .inet → family.size ≤ (k.socks i).bindLen ∨ sends (k.socks i) family peer buf ans) ∧
      ((k.socks i).udp → asksUdp family peer buf ans →
        k.picksName (k.socks i) family (family = .inet) ans.bound ans.chosen)
  | .acceptCb i new => ∀ x p, new = some x → (k.socks i).lwipPcb = some p → x.pcb.localPort = p.localPort
  | _ => True

/-! ## Single steps -/

/-- One socket changes, and keeps what it is. -/
structure Changed (k k' : NameSys) (i : ℕ) : Prop where
  others : ∀ j, j ≠ i → k'.socks j = k.socks j
  named : (k.socks i).Named → (k'.socks i).Named
  used : (k'.socks i).used = (k.socks i).used
  domain : (k'.socks i).domain = (k.socks i).domain
  connects : k'.connects = k.connects
  counter : k.nextEphemeralPort ≠ 0 → k'.nextEphemeralPort ≠ 0

variable {k}

theorem Changed.refl (i : ℕ) : Changed k k i := ⟨fun _ _ => rfl, id, rfl, rfl, rfl, id⟩

variable {k' k'' : NameSys} {i : ℕ}

theorem Changed.trans (h : Changed k k' i) (h' : Changed k' k'' i) : Changed k k'' i where
  others j hj := (h'.others j hj).trans (h.others j hj)
  named hn := h'.named (h.named hn)
  used := h'.used.trans h.used
  domain := h'.domain.trans h.domain
  connects := h'.connects.trans h.connects
  counter hc := h'.counter (h.counter hc)

theorem setSock_same (i : ℕ) (s : InetSock) : (k.setSock i s).socks i = s := update_self ..

theorem setSock_other {j : ℕ} (hj : j ≠ i) (s : InetSock) : (k.setSock i s).socks j = k.socks j :=
  update_of_ne hj ..

variable {s : InetSock}

theorem Changed.setSock (hnamed : (k.socks i).Named → s.Named)
    (hused : s.used = (k.socks i).used) (hdomain : s.domain = (k.socks i).domain) :
    Changed k (k.setSock i s) i where
  others _ hj := setSock_other hj s
  named hn := by
    rw [setSock_same]
    exact hnamed hn
  used := by rw [setSock_same, hused]
  domain := by rw [setSock_same, hdomain]
  connects := rfl
  counter := id

theorem family_some {family : InetFamily} : s.family = some family ↔ s.domain = family.domain := by
  unfold InetSock.family
  constructor
  · intro h
    split_ifs at h with h4 h6
    · cases h
      exact h4
    · cases h
      exact h6
  · intro h
    cases family with
    | inet =>
      have h4 : s.domain = linuxAfInet := h
      rw [if_pos h4]
    | inet6 =>
      have h6 : s.domain = linuxAfInet6 := h
      rw [if_neg (by rw [h6]; decide), if_pos h6]

variable {len : ℕ}

theorem longAddr_some {family : InetFamily} (h : s.longAddr len = some family) : s.family = some family := by
  rw [family_some]
  unfold longAddr at h
  split_ifs at h with h4 h6
  · cases h
    exact h4.1
  · cases h
    exact h6.1

variable {sock : Option ℕ}

theorem socketAt_used (h : k.socketAt sock = some i) : (k.socks i).used := by
  unfold socketAt at h
  exact (Option.filter_eq_some_iff.mp h).2

theorem alloc_changed (i : ℕ) : Changed k k.socketAllocEphemeralPortBe.1 i := by
  refine ⟨fun _ _ => rfl, id, rfl, rfl, rfl, fun _ => ?_⟩
  dsimp only [socketAllocEphemeralPortBe]
  split
  · decide
  next hge =>
  intro hzero
  rw [hzero] at hge
  exact hge (by decide)

/-- What a step does to the sockets that stay; `failed` says that it is a call with an error. -/
structure Fair (k k' : NameSys) (failed : Prop) : Prop where
  named : (∀ j, (k.socks j).Named) → ∀ j, (k'.socks j).Named
  domain : ∀ j, (k.socks j).used → (k'.socks j).used → (k'.socks j).domain = (k.socks j).domain
  connects : k'.connects = k.connects
  counter : k.nextEphemeralPort ≠ 0 → k'.nextEphemeralPort ≠ 0
  clean : failed → SameNames k k'

theorem Fair.refl {failed : Prop} : Fair k k failed := ⟨fun hk => hk, fun _ _ _ => rfl, rfl, id, fun _ _ _ => rfl⟩

theorem Changed.fair {failed : Prop} (h : Changed k k' i)
    (hname : failed → (k'.socks i).name = (k.socks i).name) : Fair k k' failed where
  named hk j := by
    by_cases hj : j = i
    · rw [hj]
      exact h.named (hk i)
    · rw [h.others j hj]
      exact hk j
  domain j _ _ := by
    by_cases hj : j = i
    · rw [hj]
      exact h.domain
    · rw [h.others j hj]
  connects := h.connects
  counter := h.counter
  clean hfailed j _ := by
    by_cases hj : j = i
    · rw [hj]
      exact hname hfailed
    · rw [h.others j hj]

def failed (r : Option FdResult) : Prop := ∃ err, r = some (.error err)

theorem not_failed_ok (n : ℕ) : ¬ failed (some (.ok n)) := fun ⟨_, h⟩ => by cases h

theorem not_failed_none : ¬ failed none := fun ⟨_, h⟩ => by cases h

theorem Changed.ok (h : Changed k k' i) (n : ℕ) : Fair k k' (failed (some (.ok n))) :=
  h.fair fun hf => absurd hf (not_failed_ok n)

variable {addr : UserBuf}

theorem doSysBind_fair {bound : Bool} (hok : k.Sound (.bind sock addr len bound)) :
    Fair k (k.doSysBind sock addr len bound).1 (failed (some (k.doSysBind sock addr len bound).2)) := by
  unfold doSysBind
  split
  · exact .refl
  next i hi =>
  dsimp only
  by_cases hargs : addr.null ∨ len = 0 ∨ 28 < len
  · rw [if_pos hargs]
    exact .refl
  rw [if_neg hargs]
  obtain ⟨hnull, -, hlen⟩ : ¬ addr.null ∧ len ≠ 0 ∧ len ≤ 28 := by
    rw [not_or, not_or] at hargs
    exact ⟨hargs.1, hargs.2.1, by omega⟩
  split
  · next family hfamily =>
    have hname : (k.socks i).family = some (hostAddr addr.data family).family := by
      rw [hostAddr_family]
      exact longAddr_some hfamily
    by_cases hfault : !addr.rangeOk 0 family.size
    · rw [if_pos hfault]
      exact .refl
    rw [if_neg hfault]
    by_cases hcode : sinFamily addr.data ≠ family.code
    · rw [if_pos hcode]
      exact .refl
    rw [if_neg hcode]
    -- an ephemeral port only moves the counter
    have hgiven : ∀ given : NameSys × UInt16,
        given = (if sinPort addr.data = 0 then k.socketAllocEphemeralPortBe else (k, sinPort addr.data)) →
          Changed k given.1 i ∧ given.1.socks = k.socks := by
      rintro given rfl
      split
      · exact ⟨alloc_changed i, rfl⟩
      · exact ⟨.refl i, rfl⟩
    generalize (if sinPort addr.data = 0 then k.socketAllocEphemeralPortBe else (k, sinPort addr.data)) = given
      at hgiven
    obtain ⟨hchanged, hsocks⟩ := hgiven given rfl
    have hsock : given.1.socks i = k.socks i := by rw [hsocks]
    split
    · next hpcb =>
      split_ifs with hbound
      · refine hchanged.fair fun _ => ?_
        rw [hsock]
      refine (hchanged.trans (.setSock ?_ ?_ ?_)).ok 0
      · rw [hsock]
        intro hn
        exact hn.bound given.2 hpcb.2 hname
      · rw [hsock]
        rfl
      · rw [hsock]
        rfl
    · next hpcb =>
      refine (hchanged.trans (.setSock ?_ ?_ ?_)).ok 0
      · rw [hsock]
        intro hn
        refine hn.setBind (fun p hp _ => ?_) hname
        have hsome : (k.socks i).lwipPcb.isSome := by rw [hp]; rfl
        exact absurd ⟨hn.type (.inl hsome), hsome⟩ hpcb
      · rw [hsock]
        rfl
      · rw [hsock]
        rfl
  · next hshort =>
    split_ifs with hfault
    · exact .refl
    have hbytes : (addr.bytes len).length = len := by
      unfold UserBuf.bytes
      rw [length_map, length_range]
    have hraw : Changed k (k.setSock i { k.socks i with
        bindAddr := patch (k.socks i).bindAddr 0 (addr.bytes len), bindLen := len }) i :=
      .setSock (fun hn => hn.raw hbytes hlen (hok i hi hshort hnull hlen (by simpa using hfault))) rfl rfl
    exact hraw.ok 0

/-! ## Connections -/

/-- What `connect` looks at in a socket, apart from its name. -/
structure Alike (s s' : InetSock) : Prop where
  domain : s'.domain = s.domain
  type : s'.type = s.type
  protocol : s'.protocol = s.protocol
  pcb : s'.lwipPcb.isSome = s.lwipPcb.isSome
  nonblock : s'.nonblock = s.nonblock
  connected : s'.connected = s.connected

variable {s' : InetSock}

theorem Alike.family (h : Alike s s') : s'.family = s.family := by
  unfold InetSock.family
  rw [h.domain]

theorem Alike.longAddr (h : Alike s s') (len : ℕ) : s'.longAddr len = s.longAddr len := by
  unfold InetSock.longAddr
  rw [h.domain]

theorem Alike.udp (h : Alike s s') : s'.udp = s.udp := by
  unfold InetSock.udp
  rw [h.type, h.protocol, h.pcb]

theorem Alike.tcp (h : Alike s s') : s'.tcp = s.tcp := by
  unfold InetSock.tcp
  rw [h.type, h.protocol, h.pcb]

theorem autobound_alike (s : InetSock) (family : InetFamily) (host : HostAddr) (port : UInt16) (bound : Bool) :
    Alike s (s.autobound family host port bound) := by
  unfold autobound
  dsimp only
  split
  · next hudp => exact ⟨rfl, rfl, rfl, hudp.2.2.1.symm, rfl, rfl⟩
  · exact ⟨rfl, rfl, rfl, rfl, rfl, rfl⟩

/-- An automatic bind gives a whole name, whose port lwIP may pick. -/
structure Autobound (k k' : NameSys) (i : ℕ) (family : InetFamily) (bound : Bool) : Prop where
  changed : Changed k k' i
  alike : Alike (k.socks i) (k'.socks i)
  whole : family.size ≤ (k'.socks i).bindLen
  kept : family.size ≤ (k.socks i).bindLen → (k'.socks i).name = (k.socks i).name
  picks : ∀ chosen, k.picksName (k.socks i) family true bound chosen → (k'.socks i).lwipPcb = some {} →
    chosen ≠ 0 → sinPort (k'.socks i).bindAddr = edgeBswap16 chosen

theorem autobind_autobound (hn : (k.socks i).Named) (hnext : k.nextEphemeralPort ≠ 0)
    {family : InetFamily} (hfamily : (k.socks i).family = some family) (bound : Bool) :
    Autobound k (k.autobind family i bound) i family bound := by
  unfold autobind
  by_cases hwhole : family.size ≤ (k.socks i).bindLen
  · rw [if_pos hwhole]
    refine ⟨.refl i, ⟨rfl, rfl, rfl, rfl, rfl, rfl⟩, hwhole, fun _ => rfl, ?_⟩
    intro chosen hpick hpcb hne
    have hport := hpick hpcb hne
    rw [if_pos hwhole] at hport
    rw [hport, edgeBswap16_edgeBswap16]
  rw [if_neg hwhole]
  have hhost := k.anyAddr_family family
  generalize hany : k.anyAddr family = host at hhost
  cases hhost
  dsimp only [socketAllocEphemeralPortBe]
  have halike := autobound_alike (k.socks i) host.family host (edgeBswap16 k.nextEphemeralPort) bound
  constructor
  · refine (alloc_changed i).trans (.setSock ?_ ?_ halike.domain)
    · intro _
      exact hn.autobound hfamily hwhole _ _
    · unfold autobound
      dsimp only
      split <;> rfl
  · rw [setSock_same]
    exact halike
  · rw [setSock_same, autobound_bindLen]
  · intro h
    exact absurd h hwhole
  · intro chosen hpick hpcb hne
    rw [setSock_same] at hpcb ⊢
    rw [autobound_sinPort hn.length]
    unfold autobound at hpcb
    dsimp only at hpcb
    split at hpcb
    · -- UDP has bound the ephemeral port, which is not 0
      have hbound := congrArg LwipPcb.localPort (Option.some.inj hpcb)
      rw [setBind_sinPort hn.length] at hbound
      exact absurd ((edgeBswap16_edgeBswap16 _).symm.trans hbound) hnext
    next hudp =>
    have hport := hpick hpcb hne
    rw [if_neg hwhole] at hport
    rcases hport.2 with hdgram | hchosen
    · have hlocal : (k.socks i).localPortBe = 0 := by
        rcases hn.localPort {} hpcb with hzero | hzero
        · exact hzero
        · exact hzero.trans (by decide)
      have hsome : ((k.socks i).setBind host (edgeBswap16 k.nextEphemeralPort)).lwipPcb.isSome := by
        rw [hpcb]
        rfl
      exact absurd ⟨family_some.mp hfamily, hdgram.1, hsome, hlocal, hdgram.2⟩ hudp
    · rw [hchosen]

/-- The loop fails and changes nothing, waits, or sets a missing name to the port of lwIP. -/
theorem connectLoop_cases (w : ConnectWait) (look : ConnectLook) (hfamily : (k.socks w.sock).family = some w.family) :
    (∃ err, k.connectLoop w look = (k, .ret (.error err)) ∧ ¬ goesOn (k.socks w.sock) look) ∨
      k.connectLoop w look = (k, .wait w) ∨
      ∃ k', k.connectLoop w look = (k', .ret (.ok 0)) ∧ Changed k k' w.sock := by
  unfold connectLoop goesOn
  dsimp only
  by_cases hprogress : (k.socks w.sock).connectInProgress
  · rw [if_pos hprogress, if_pos hprogress]
    split_ifs with hint hnonblock htimeout
    · exact .inl ⟨_, rfl, by simp [hint]⟩
    · refine .inl ⟨_, rfl, ?_⟩
      rintro ⟨-, hfd, hsock, -⟩
      rcases hnonblock with h | h
      · rw [h] at hfd
        cases hfd
      · rw [h] at hsock
        cases hsock
    · exact .inl ⟨_, rfl, by simp [htimeout]⟩
    · exact .inr (.inl rfl)
  · rw [if_neg hprogress, if_neg hprogress]
    by_cases hrefused : (k.socks w.sock).connectError ≠ 0 ∨ (!(k.socks w.sock).connected) = true
    · rw [if_pos hrefused]
      refine .inl ⟨_, rfl, ?_⟩
      rintro ⟨herror, hconnected⟩
      rcases hrefused with h | h
      · exact h herror
      · rw [hconnected] at h
        cases h
    rw [if_neg hrefused]
    refine .inr (.inr ⟨_, rfl, ?_⟩)
    apply Changed.setSock
    · intro hn
      split
      · next hshort =>
        have hfree : ∀ p, (k.socks w.sock).lwipPcb = some p → p.localPort = 0 := by
          intro p hp
          exact hn.unbound hfamily (by omega) hp
        have hkind : (k.socks w.sock).family = some (k.connectedAddr look w.family).family := by
          rw [hfamily]
          cases w.family <;> rfl
        have hset : ((k.socks w.sock).setBind (k.connectedAddr look w.family)
            (edgeBswap16 (((k.socks w.sock).lwipPcb.map (·.localPort)).getD look.stale))).Named :=
          hn.setBind (fun p hp hne => absurd (hfree p hp) hne) hkind
        refine ⟨hset.length, hset.inet, hset.type, hset.whole, hset.port, ?_⟩
        intro p hp
        left
        have hpcb : (k.socks w.sock).lwipPcb = some p := hp
        have hzero := hfree p hpcb
        dsimp only
        rw [hpcb, Option.map_some, Option.getD_some, hzero]
        decide
      · exact ⟨hn.length, hn.inet, hn.type, hn.whole, hn.port, hn.localPort⟩
    · dsimp only
      split <;> rfl
    · dsimp only
      split <;> rfl

/-- How `connect` on socket `i` ends a stretch; `good` is the case in which it cannot fail. -/
structure Connects (k : NameSys) (i : ℕ) (good : Prop) (out : NameSys × Stretch ConnectWait FdResult) : Prop where
  changed : Changed k out.1 i
  fails : ∀ err, out.2 = .ret (.error err) → (out.1.socks i).name = (k.socks i).name ∧ ¬ good
  waits : ∀ w, out.2 = .wait w → w.sock = i ∧ (k.socks i).family = some w.family

variable {good : Prop}

theorem Connects.refused {err : Errno} (h : Changed k k' i)
    (hname : (k'.socks i).name = (k.socks i).name) (hbad : ¬ good) : Connects k i good (k', .ret (.error err)) :=
  ⟨h, fun _ _ => ⟨hname, hbad⟩, fun _ hw => by cases hw⟩

theorem Connects.done (h : Changed k k' i) : Connects k i good (k', .ret (.ok 0)) :=
  ⟨h, fun _ he => (by cases he), fun _ hw => (by cases hw)⟩

/-- lwIP may be asked for a port: it picks none, or the one in the name. -/
def mayPick (s : InetSock) (chosen : UInt16) : Prop :=
  s.lwipPcb = some {} → chosen ≠ 0 →
    (∀ family, s.family = some family → family.size ≤ s.bindLen) ∧ sinPort s.bindAddr = edgeBswap16 chosen

/-- A socket that differs from this one in what names do not depend on. -/
theorem named_of_name (h : s.Named) (hname : s'.name = s.name) (hpcb : s'.lwipPcb = s.lwipPcb)
    (hlistening : s'.listening = s.listening) (hdomain : s'.domain = s.domain) (htype : s'.type = s.type) :
    s'.Named := by
  obtain ⟨haddr, hlen, hport⟩ := Prod.ext_iff.mp hname |>.imp_right Prod.ext_iff.mp
  dsimp only [name] at haddr hlen hport
  have hfamily : s'.family = s.family := by
    unfold family
    rw [hdomain]
  constructor
  · rw [haddr]
    exact h.length
  · rw [hpcb, hlistening, hfamily]
    exact h.inet
  · rw [hpcb, hlistening, htype]
    exact h.type
  · rw [hpcb, hfamily, hlen]
    exact h.whole
  · rw [hpcb, haddr]
    exact h.port
  · rw [hpcb, hport]
    exact h.localPort

variable {ans : ConnectAnswers}

theorem connectTo_connects (hpick : takes (k.socks i) addr len → asks (k.socks i) len → mayPick (k.socks i) ans.chosen)
    (hfault : addr.rangeOk 0 len) :
    Connects k i (takes (k.socks i) addr len ∧ (asks (k.socks i) len → grants (k.socks i) ans))
      (k.connectTo i addr len ans) := by
  have hdone : Changed k (k.setSock i { k.socks i with peerLen := len, connected := true }) i :=
    .setSock (fun hn => named_of_name hn rfl rfl rfl rfl rfl) rfl rfl
  unfold connectTo
  dsimp only
  split
  · exact .done hdone
  next family hlong =>
  by_cases hcode : sinFamily addr.data ≠ family.code
  · rw [if_pos hcode]
    exact .refused (.refl i) rfl fun hgood => hcode (hgood.1.2 family hlong).1
  rw [if_neg hcode]
  by_cases hlocal : !isLocal addr.data family
  · rw [if_pos hlocal]
    refine .refused (.refl i) rfl fun hgood => ?_
    rw [(hgood.1.2 family hlong).2] at hlocal
    cases hlocal
  rw [if_neg hlocal]
  have htakes : takes (k.socks i) addr len := by
    refine ⟨hfault, fun family' hlong' => ?_⟩
    cases hlong.symm.trans hlong'
    exact ⟨not_not.mp hcode, by simpa using hlocal⟩
  have hsome : ((k.socks i).longAddr len).isSome := by
    rw [hlong]
    rfl
  by_cases hudp : (k.socks i).udp
  · rw [if_pos hudp]
    have hasks : asks (k.socks i) len := ⟨hsome, .inl hudp⟩
    have hmay := hpick htakes hasks
    by_cases hgranted : !ans.granted
    · rw [if_pos hgranted]
      refine .refused (.setSock (fun hn => hn.choosePort hmay) rfl rfl) ?_ fun hgood => ?_
      · rw [setSock_same]
        rfl
      · rw [(hgood.2 hasks).1] at hgranted
        cases hgranted
    · rw [if_neg hgranted]
      exact .done (.setSock (fun hn => named_of_name (hn.choosePort hmay) rfl rfl rfl rfl rfl) rfl rfl)
  rw [if_neg hudp]
  by_cases htcp : (k.socks i).tcp
  · rw [if_pos htcp]
    have hasks : asks (k.socks i) len := ⟨hsome, .inr htcp⟩
    have hmay := hpick htakes hasks
    by_cases hgranted : !ans.granted
    · rw [if_pos hgranted]
      refine .refused (.setSock (fun hn => named_of_name (hn.choosePort hmay) rfl rfl rfl rfl rfl) rfl rfl) ?_
        fun hgood => ?_
      · rw [setSock_same]
        rfl
      · rw [(hgood.2 hasks).1] at hgranted
        cases hgranted
    rw [if_neg hgranted]
    -- the loop looks at once
    have hstart : Changed k (k.setSock i
        { (k.socks i).choosePort ans.chosen with connectError := 0, connectInProgress := true }) i :=
      .setSock (fun hn => named_of_name (hn.choosePort hmay) rfl rfl rfl rfl rfl) rfl rfl
    generalize hk' : k.setSock i
      { (k.socks i).choosePort ans.chosen with connectError := 0, connectInProgress := true } = k' at hstart
    have hsock : k'.socks i = { (k.socks i).choosePort ans.chosen with
        connectError := 0, connectInProgress := true } := by
      rw [← hk', setSock_same]
    have hname : (k'.socks i).name = (k.socks i).name := by
      rw [hsock]
      rfl
    have hfamily : (k'.socks i).family = some family := by
      rw [hsock]
      exact longAddr_some hlong
    rcases connectLoop_cases { sock := i, family := family, len := len } ans.look hfamily with
      ⟨err, hout, hstop⟩ | hout | ⟨k'', hout, hchanged⟩
    · rw [hout]
      refine .refused hstart hname fun hgood => hstop ?_
      unfold goesOn
      dsimp only
      rw [hsock, if_pos rfl]
      exact (hgood.2 hasks).2 htcp
    · rw [hout]
      refine ⟨hstart, fun _ he => (by cases he), fun w hw => ?_⟩
      cases hw
      exact ⟨rfl, longAddr_some hlong⟩
    · rw [hout]
      exact .done (hstart.trans hchanged)
  · rw [if_neg htcp]
    exact .done hdone

theorem Alike.takes (h : Alike s s') : NameSys.takes s' addr len ↔ NameSys.takes s addr len := by
  unfold NameSys.takes
  rw [h.longAddr]

theorem Alike.asks (h : Alike s s') : NameSys.asks s' len ↔ NameSys.asks s len := by
  unfold NameSys.asks
  rw [h.longAddr, h.udp, h.tcp]

theorem Alike.grants (h : Alike s s') : NameSys.grants s' ans ↔ NameSys.grants s ans := by
  unfold NameSys.grants
  rw [h.tcp, h.nonblock]

theorem connectTo_after (hchanged : Changed k k' i) (halike : Alike (k.socks i) (k'.socks i))
    (hpick : takes (k.socks i) addr len → asks (k.socks i) len → mayPick (k'.socks i) ans.chosen)
    (hclean : (k'.socks i).name = (k.socks i).name ∨
      takes (k.socks i) addr len ∧ (asks (k.socks i) len → grants (k.socks i) ans)) :
    Connects k i False (if !addr.rangeOk 0 len then (k', .ret (.error .efault))
      else
        (k'.setSock i { k'.socks i with peerAddr := patch (k'.socks i).peerAddr 0 (addr.bytes len) }).connectTo i addr
          len ans) := by
  by_cases hfault : !addr.rangeOk 0 len
  · rw [if_pos hfault]
    refine .refused hchanged ?_ id
    rcases hclean with hname | hgood
    · exact hname
    · rw [hgood.1.1] at hfault
      cases hfault
  rw [if_neg hfault]
  have hcopy : Changed k' (k'.setSock i { k'.socks i with
      peerAddr := patch (k'.socks i).peerAddr 0 (addr.bytes len) }) i :=
    .setSock (fun hn => named_of_name hn rfl rfl rfl rfl rfl) rfl rfl
  generalize hk'' : k'.setSock i { k'.socks i with
    peerAddr := patch (k'.socks i).peerAddr 0 (addr.bytes len) } = k'' at hcopy
  have hsock : k''.socks i = { k'.socks i with peerAddr := patch (k'.socks i).peerAddr 0 (addr.bytes len) } := by
    rw [← hk'', setSock_same]
  have halike' : Alike (k.socks i) (k''.socks i) := by
    rw [hsock]
    exact ⟨halike.domain, halike.type, halike.protocol, halike.pcb, halike.nonblock, halike.connected⟩
  have hto : Connects k'' i _ (k''.connectTo i addr len ans) := connectTo_connects
    (fun htakes hasks => by
      rw [hsock]
      exact hpick (halike'.takes.mp htakes) (halike'.asks.mp hasks))
    (by simpa using hfault)
  rw [halike'.takes, halike'.asks, halike'.grants] at hto
  refine ⟨(hchanged.trans hcopy).trans hto.changed, fun err herr => ⟨?_, id⟩, fun w hw => ?_⟩
  · obtain ⟨hname, hbad⟩ := hto.fails err herr
    rw [hname, hsock]
    rcases hclean with hsame | hgood
    · exact hsame
    · exact absurd hgood hbad
  · obtain ⟨hw, hfamily⟩ := hto.waits w hw
    exact ⟨hw, halike'.family.symm.trans hfamily⟩

theorem connectUnix_changed (i : ℕ) (addr : UserBuf) :
    Changed k (k.connectUnix i addr).1 i ∧ ((k.connectUnix i addr).1.socks i).name = (k.socks i).name := by
  unfold connectUnix
  dsimp only
  by_cases htype : (k.socks i).type ≠ linuxSockStream
  · rw [if_pos htype]
    exact ⟨.refl i, rfl⟩
  rw [if_neg htype]
  split
  · next peer _ =>
    by_cases hpeer : !(k.socks peer).used
    · rw [if_pos hpeer]
      exact ⟨.refl i, rfl⟩
    rw [if_neg hpeer]
    refine ⟨.setSock (fun hn => named_of_name hn rfl rfl rfl rfl rfl) rfl rfl, ?_⟩
    rw [setSock_same]
    rfl
  · exact ⟨.refl i, rfl⟩

/-- `connect` changes one socket, and only without an error its name. -/
theorem doSysConnect_connects (hk : ∀ j, (k.socks j).Named) (hnext : k.nextEphemeralPort ≠ 0)
    (hok : k.Sound (.connect sock addr len ans)) :
    ∃ i, Connects k i False (k.doSysConnect sock addr len ans) ∧
      ∀ w, (k.doSysConnect sock addr len ans).2 = .wait w → (k.socks i).used := by
  unfold doSysConnect
  split
  · exact ⟨0, .refused (.refl 0) rfl id, fun _ hw => (by cases hw)⟩
  next i hi =>
  refine ⟨i, ?_, fun _ _ => socketAt_used hi⟩
  by_cases hargs : addr.null ∨ len = 0 ∨ 28 < len
  · rw [if_pos hargs]
    exact .refused (.refl i) rfl id
  rw [if_neg hargs]
  obtain ⟨hnull, hzero, hlen⟩ : ¬ addr.null ∧ len ≠ 0 ∧ len ≤ 28 := by
    rw [not_or, not_or] at hargs
    exact ⟨hargs.1, hargs.2.1, by omega⟩
  by_cases hfam : !addr.rangeOk 0 2
  · rw [if_pos hfam]
    exact .refused (.refl i) rfl id
  rw [if_neg hfam]
  by_cases hunix : (k.socks i).domain = linuxAfUnix
  · rw [if_pos hunix]
    obtain ⟨hchanged, hname⟩ := k.connectUnix_changed i addr
    generalize k.connectUnix i addr = out at hchanged hname
    exact ⟨hchanged, fun _ _ => ⟨hname, id⟩, fun _ hw => (by cases hw)⟩
  rw [if_neg hunix]
  dsimp only
  cases hfamily : (k.socks i).family with
  | none =>
    refine connectTo_after (.refl i) ⟨rfl, rfl, rfl, rfl, rfl, rfl⟩ (fun _ hasks => ?_) (.inl rfl)
    obtain ⟨family, hlong⟩ := Option.isSome_iff_exists.mp hasks.1
    cases hfamily.symm.trans (longAddr_some hlong)
  | some family =>
    have hauto := autobind_autobound (hk i) hnext hfamily ans.bound
    obtain ⟨hgood, hpick⟩ := hok i family hi hfamily hnull hzero hlen (by simpa using hfam)
    refine connectTo_after hauto.changed hauto.alike (fun htakes hasks hpcb hne => ⟨?_, ?_⟩)
      (hgood.imp_left hauto.kept)
    · intro family' hfamily'
      rw [hauto.alike.family, hfamily] at hfamily'
      cases hfamily'
      exact hauto.whole
    · exact hauto.picks _ (hpick htakes hasks) hpcb hne

/-! ## Sending and listening -/

variable {buf : UserBuf} {peer : Bytes}

theorem sendUdp_changed {family : InetFamily} (hfamily : (k.socks i).family = some family)
    {ans : SendAnswers} (hpick : asksUdp family peer buf ans → mayPick (k.socks i) ans.chosen) :
    Changed k (k.sendUdp i buf peer ans).1 i ∧ ((k.sendUdp i buf peer ans).1.socks i).name = (k.socks i).name ∧
      (asksUdp family peer buf ans ∧ ans.routed → ∃ n, (k.sendUdp i buf peer ans).2 = .ok n) := by
  unfold sendUdp asksUdp at *
  dsimp only
  rw [hfamily]
  dsimp only
  by_cases hpeer : peer.length < family.size ∨ sinFamily peer ≠ family.code
  · rw [if_pos hpeer]
    refine ⟨.refl i, rfl, fun hgood => ?_⟩
    rcases hpeer with h | h
    · exact absurd hgood.1.1 (by omega)
    · exact absurd hgood.1.2.1 h
  rw [if_neg hpeer]
  by_cases hlen : txSize < buf.data.length
  · rw [if_pos hlen]
    exact ⟨.refl i, rfl, fun hgood => absurd hgood.1.2.2.1 (by omega)⟩
  rw [if_neg hlen]
  by_cases hfault : !buf.rangeOk 0 buf.data.length
  · rw [if_pos hfault]
    refine ⟨.refl i, rfl, fun hgood => ?_⟩
    rw [hgood.1.2.2.2.1] at hfault
    cases hfault
  rw [if_neg hfault]
  by_cases hpbuf : !ans.pbuf
  · rw [if_pos hpbuf]
    refine ⟨.refl i, rfl, fun hgood => ?_⟩
    rw [hgood.1.2.2.2.2] at hpbuf
    cases hpbuf
  rw [if_neg hpbuf]
  rw [not_or, not_not] at hpeer
  have hmay := hpick ⟨by omega, hpeer.2, by omega, by simpa using hfault, by simpa using hpbuf⟩
  have hchanged : Changed k (k.setSock i ((k.socks i).choosePort ans.chosen)) i :=
    .setSock (fun hn => hn.choosePort hmay) rfl rfl
  have hname : ((k.setSock i ((k.socks i).choosePort ans.chosen)).socks i).name = (k.socks i).name := by
    rw [setSock_same]
    rfl
  by_cases hrouted : !ans.routed
  · rw [if_pos hrouted]
    refine ⟨hchanged, hname, fun hgood => ?_⟩
    rw [hgood.2] at hrouted
    cases hrouted
  · rw [if_neg hrouted]
    exact ⟨hchanged, hname, fun _ => ⟨_, rfl⟩⟩

theorem sendto_after {family : InetFamily} {ans : SendAnswers}
    (hfamily : (k.socks i).family = some family) (hchanged : Changed k k' i)
    (halike : Alike (k.socks i) (k'.socks i))
    (hpick : (k.socks i).udp → asksUdp family peer buf ans → mayPick (k'.socks i) ans.chosen)
    (hclean : (k'.socks i).name = (k.socks i).name ∨ sends (k.socks i) family peer buf ans)
    {out : NameSys × FdResult}
    (hout : out = if (k'.socks i).family.isSome ∧ (k'.socks i).udp then k'.sendUdp i buf peer ans
      else if (k'.socks i).family.isSome ∧ (k'.socks i).tcp ∧ !(k'.socks i).connected then (k', .error .enotconn)
      else (k', ans.sent)) :
    Fair k out.1 (failed (some out.2)) := by
  have hfamily' : (k'.socks i).family = some family := halike.family.trans hfamily
  have hsome : (k'.socks i).family.isSome := by
    rw [hfamily']
    rfl
  have hkept : ∀ r, (sends (k.socks i) family peer buf ans → ∃ n, r = Except.ok n) → Fair k k' (failed (some r)) := by
    intro r hr
    refine hchanged.fair fun hf => ?_
    rcases hclean with hname | hgood
    · exact hname
    · obtain ⟨n, rfl⟩ := hr hgood
      exact absurd hf (not_failed_ok n)
  by_cases hudp : (k'.socks i).family.isSome ∧ (k'.socks i).udp
  · rw [if_pos hudp] at hout
    have hudp' : (k.socks i).udp := halike.udp ▸ hudp.2
    obtain ⟨hsend, hname, hok⟩ := sendUdp_changed hfamily' (hpick hudp')
    rw [← hout] at hsend hname hok
    refine (hchanged.trans hsend).fair fun hf => ?_
    rw [hname]
    rcases hclean with hsame | hgood
    · exact hsame
    unfold sends at hgood
    rw [if_pos hudp'] at hgood
    obtain ⟨n, hn⟩ := hok hgood
    rw [hn] at hf
    exact absurd hf (not_failed_ok n)
  rw [if_neg hudp] at hout
  have hudp' : ¬ (k.socks i).udp := fun h => hudp ⟨hsome, halike.udp ▸ h⟩
  have hothers : sends (k.socks i) family peer buf ans →
      ((k.socks i).tcp → (k.socks i).connected) ∧ ∃ n, ans.sent = .ok n := by
    intro hgood
    unfold sends at hgood
    rwa [if_neg hudp'] at hgood
  by_cases htcp : (k'.socks i).family.isSome ∧ (k'.socks i).tcp ∧ !(k'.socks i).connected
  · rw [if_pos htcp] at hout
    subst hout
    refine hkept _ fun hgood => ?_
    have hconnected := (hothers hgood).1 (halike.tcp ▸ htcp.2.1)
    rw [halike.connected, hconnected] at htcp
    cases htcp.2.2
  · rw [if_neg htcp] at hout
    subst hout
    exact hkept _ fun hgood => (hothers hgood).2

theorem doSysSendto_fair (hk : ∀ j, (k.socks j).Named) (hnext : k.nextEphemeralPort ≠ 0)
    {addr : Option (UserBuf × ℕ)} {ans : SendAnswers} (hok : k.Sound (.sendto sock buf addr ans)) :
    Fair k (k.doSysSendto sock buf addr ans).1 (failed (some (k.doSysSendto sock buf addr ans).2)) := by
  unfold doSysSendto
  split
  · exact .refl
  next i hi =>
  dsimp only
  by_cases hargs : buf.null ∨ buf.data.length = 0
  · rw [if_pos hargs]
    exact .refl
  rw [if_neg hargs]
  rw [not_or] at hargs
  by_cases hunix : (k.socks i).domain = linuxAfUnix ∧ (k.socks i).type = linuxSockStream
  · rw [if_pos hunix]
    exact .refl
  rw [if_neg hunix]
  have hgo : ∀ peer, peerOf (k.socks i) addr = some peer →
      Fair k (doSysSendto.go buf ans k i peer).1 (failed (some (doSysSendto.go buf ans k i peer).2)) := by
    intro peer hpeer
    unfold doSysSendto.go
    dsimp only
    cases hfamily : (k.socks i).family with
    | none =>
      have hinet : ¬ (k.socks i).domain = linuxAfInet := by
        intro h
        cases hfamily.symm.trans (family_some.mpr (h.trans rfl : _ = InetFamily.inet.domain))
      rw [if_neg hinet, hfamily, if_neg (by simp), if_neg (by simp)]
      exact .refl
    | some family =>
      obtain ⟨hgood, hpick⟩ := hok i family peer hi hfamily (by simpa using hargs.1) hargs.2 hpeer
      cases family with
      | inet =>
        have hinet : (k.socks i).domain = linuxAfInet := family_some.mp hfamily
        have hauto := autobind_autobound (hk i) hnext hfamily ans.bound
        rw [if_pos hinet]
        refine sendto_after hfamily hauto.changed hauto.alike (fun hudp hasks hpcb hne => ⟨?_, ?_⟩)
          ((hgood rfl).imp_left hauto.kept) rfl
        · intro family' hfamily'
          rw [hauto.alike.family, hfamily] at hfamily'
          cases hfamily'
          exact hauto.whole
        · exact hauto.picks _ (hpick hudp hasks) hpcb hne
      | inet6 =>
        have hinet : ¬ (k.socks i).domain = linuxAfInet := by
          rw [family_some.mp hfamily]
          decide
        rw [if_neg hinet]
        refine sendto_after hfamily (.refl i) ⟨rfl, rfl, rfl, rfl, rfl, rfl⟩ (fun hudp hasks hpcb hne => ?_) (.inl rfl)
          rfl
        -- without an automatic bind the name has to be there
        have hport := hpick hudp hasks hpcb hne
        by_cases hwhole : InetFamily.inet6.size ≤ (k.socks i).bindLen
        · rw [if_pos hwhole] at hport
          refine ⟨fun family' hfamily' => ?_, ?_⟩
          · rw [hfamily] at hfamily'
            cases hfamily'
            exact hwhole
          · rw [hport, edgeBswap16_edgeBswap16]
        · rw [if_neg hwhole] at hport
          cases hport.1
  cases addr with
  | none =>
    dsimp only
    by_cases hconnected : (k.socks i).connected
    · rw [if_pos hconnected]
      exact hgo _ (if_pos hconnected)
    · rw [if_neg hconnected]
      exact .refl
  | some a =>
    dsimp only
    by_cases hlen : 28 < a.2
    · rw [if_pos hlen]
      exact .refl
    rw [if_neg hlen]
    by_cases hfault : !a.1.rangeOk 0 a.2
    · rw [if_pos hfault]
      exact .refl
    · rw [if_neg hfault]
      exact hgo _ (if_pos ⟨by omega, by simpa using hfault⟩)

theorem doSysListen_fair {backlog : ℤ} {given : Option LwipPcb} (hok : k.Sound (.listen sock backlog given)) :
    Fair k (k.doSysListen sock backlog given).1 (failed (some (k.doSysListen sock backlog given).2)) := by
  unfold doSysListen
  split
  · exact .refl
  next i hi =>
  dsimp only
  by_cases hdomain : (k.socks i).domain ≠ linuxAfInet ∧ (k.socks i).domain ≠ linuxAfInet6
  · rw [if_pos hdomain]
    exact .refl
  rw [if_neg hdomain]
  by_cases htype : (k.socks i).type ≠ linuxSockStream
  · rw [if_pos htype]
    exact .refl
  rw [if_neg htype]
  by_cases hnone : (k.socks i).lwipPcb = none
  · rw [if_pos hnone]
    exact .refl
  rw [if_neg hnone]
  by_cases hlistening : (k.socks i).listening
  · rw [if_pos hlistening]
    exact .refl
  rw [if_neg hlistening]
  split
  · exact .refl
  next lp =>
  obtain ⟨p, hp⟩ := Option.ne_none_iff_exists'.mp hnone
  have hport := hok i p lp hi hp rfl
  have hlp : lp = p := by
    cases lp
    cases p
    exact congrArg LwipPcb.mk hport
  have hsome : (k.socks i).lwipPcb.isSome := by
    rw [hp]
    rfl
  have hchanged : Changed k (k.setSock i { k.socks i with
      lwipPcb := some lp, listening := true, backlog := min (max backlog 1) edgeSockAcceptq, pending := [] }) i := by
    refine .setSock (fun hn => ?_) rfl rfl
    rw [hlp, ← hp]
    exact ⟨hn.length, fun _ => hn.inet (.inl hsome), fun _ => hn.type (.inl hsome), hn.whole, hn.port, hn.localPort⟩
  exact hchanged.ok 0

/-- Sockets that go, and others that only learn that their peer is gone. -/
structure Drops (k k' : NameSys) : Prop where
  named : (∀ j, (k.socks j).Named) → ∀ j, (k'.socks j).Named
  kept : ∀ j, (k'.socks j).used →
    (k.socks j).used ∧ (k'.socks j).domain = (k.socks j).domain ∧ (k'.socks j).name = (k.socks j).name
  connects : k'.connects = k.connects
  counter : k'.nextEphemeralPort = k.nextEphemeralPort

theorem Drops.refl : Drops k k := ⟨id, fun _ h => ⟨h, rfl, rfl⟩, rfl, rfl⟩

theorem Drops.trans (h : Drops k k') (h' : Drops k' k'') : Drops k k'' where
  named hk := h'.named (h.named hk)
  kept j hj := by
    obtain ⟨hused, hdomain, hname⟩ := h'.kept j hj
    obtain ⟨hused', hdomain', hname'⟩ := h.kept j hused
    exact ⟨hused', hdomain.trans hdomain', hname.trans hname'⟩
  connects := h'.connects.trans h.connects
  counter := h'.counter.trans h.counter

variable {r : Prop}

theorem Drops.fair (h : Drops k k') : Fair k k' r where
  named := h.named
  domain j _ hj := (h.kept j hj).2.1
  connects := h.connects
  counter hc := by rwa [h.counter]
  clean _ j hj := (h.kept j hj).2.2

theorem Drops.setSock (hnamed : (k.socks i).Named → s.Named)
    (hkept : s.used → (k.socks i).used ∧ s.domain = (k.socks i).domain ∧ s.name = (k.socks i).name) :
    Drops k (k.setSock i s) where
  named hk j := by
    by_cases hj : j = i
    · rw [hj, setSock_same]
      exact hnamed (hk i)
    · rw [setSock_other hj]
      exact hk j
  kept j hused := by
    by_cases hj : j = i
    · rw [hj, setSock_same] at hused ⊢
      exact hkept hused
    · rw [setSock_other hj] at hused ⊢
      exact ⟨hused, rfl, rfl⟩
  connects := rfl
  counter := rfl

theorem dropSock_drops (depth : ℕ) : ∀ (k : NameSys) (i : ℕ), Drops k (k.dropSock depth i) := by
  induction depth with
  | zero => exact fun _ _ => .refl
  | succ depth ih =>
    intro k i
    have hpending : ∀ (l : List ℕ) (k : NameSys), Drops k (l.foldl (dropSock depth) k) := by
      intro l
      induction l with
      | nil => exact fun _ => .refl
      | cons x l ihl => exact fun k => (ih k x).trans (ihl _)
    rw [dropSock]
    dsimp only
    have hdrained : Drops k (if (k.socks i).listening then (k.socks i).pending.foldl (dropSock depth) k else k) := by
      split
      · exact hpending _ k
      · exact .refl
    refine hdrained.trans ?_
    generalize (if (k.socks i).listening then (k.socks i).pending.foldl (dropSock depth) k else k) = k₁
    refine Drops.trans ?_ (.setSock (fun _ => named_empty) fun h => by cases h)
    split
    · split
      · next peer _ =>
        split
        · next hpeer => exact .setSock (fun hn => named_of_name hn rfl rfl rfl rfl rfl) fun _ => ⟨hpeer, rfl, rfl⟩
        · exact .refl
      · exact .refl
    · exact .refl

theorem acceptLoop_fair (i : ℕ) (look : AcceptLook) : Fair k (k.acceptLoop i look).1 r := by
  unfold acceptLoop
  split
  · split_ifs <;> exact .refl
  next sid rest _ =>
  dsimp only
  have hpop : Drops k (k.setSock i { k.socks i with pending := rest }) :=
    .setSock (fun hn => named_of_name hn rfl rfl rfl rfl rfl) fun h => ⟨h, rfl, rfl⟩
  generalize k.setSock i { k.socks i with pending := rest } = k₁ at hpop
  by_cases hsid : ¬ sid < edgeMaxSockets ∨ !(k₁.socks sid).used
  · rw [if_pos hsid]
    exact hpop.fair
  rw [if_neg hsid]
  have hdrop := hpop.trans (dropSock_drops edgeMaxSockets k₁ sid)
  split
  · exact hdrop.fair
  split_ifs
  · exact hdrop.fair
  · exact hdrop.fair
  · exact hpop.fair

theorem doSysAccept_fair (sock : Option ℕ) (look : AcceptLook) : Fair k (k.doSysAccept sock look).1 r := by
  unfold doSysAccept
  split
  · exact .refl
  split
  · exact .refl
  · exact acceptLoop_fair _ _

variable {sid : ℕ}

theorem Fair.fresh (hfree : (k.socks sid).used = false) (hs : s.Named) (hr : ¬ r) : Fair k (k.setSock sid s) r where
  named hk j := by
    by_cases hj : j = sid
    · rw [hj, setSock_same]
      exact hs
    · rw [setSock_other hj]
      exact hk j
  domain j hused _ := by
    have hj : j ≠ sid := by
      rintro rfl
      rw [hfree] at hused
      cases hused
    rw [setSock_other hj]
  connects := rfl
  counter := id
  clean hf := absurd hf hr

theorem socketFree_unused (h : k.socketFree = some i) : (k.socks i).used = false :=
  (firstFree_some h).1

theorem Fair.drops (h : Fair k k' r) (hdrops : Drops k' k'') (hr : ¬ r) : Fair k k'' r where
  named hk := hdrops.named (h.named hk)
  domain j hused hused'' := by
    obtain ⟨hused', hdomain, -⟩ := hdrops.kept j hused''
    exact hdomain.trans (h.domain j hused hused')
  connects := hdrops.connects.trans h.connects
  counter hc := by
    rw [hdrops.counter]
    exact h.counter hc
  clean hf := absurd hf hr

theorem dropSock_self (k : NameSys) (i : ℕ) : (k.dropSock edgeMaxSockets i).socks i = {} := by
  rw [edgeMaxSockets, dropSock]
  exact setSock_same i _

theorem fresh_dropped (hfree : (k.socks sid).used = false) (hs : s.Named) :
    Fair k ((k.setSock sid s).dropSock edgeMaxSockets sid) r := by
  have hdrops := dropSock_drops edgeMaxSockets (k.setSock sid s) sid
  have hfair := (Fair.fresh hfree hs id).drops hdrops id
  refine ⟨hfair.named, hfair.domain, hfair.connects, hfair.counter, fun _ j hused => ?_⟩
  obtain ⟨-, -, hname⟩ := hdrops.kept j hused
  have hj : j ≠ sid := by
    rintro rfl
    rw [dropSock_self] at hused
    cases hused
  rw [hname, setSock_other hj]

theorem needsPcb_kinds {domain type protocol : ℤ} (h : needsPcb domain type protocol) :
    (domain = linuxAfInet ∨ domain = linuxAfInet6) ∧ (type = linuxSockDgram ∨ type = linuxSockStream) := by
  have hneeds := of_decide_eq_true h
  exact ⟨hneeds.1, hneeds.2.imp And.left And.left⟩

theorem newSocket_named (domain type protocol : ℤ) (nonblock : Bool) :
    (newSocket domain type protocol nonblock).Named := by
  have hlwip : ∀ p, (newSocket domain type protocol nonblock).lwipPcb = some p →
      needsPcb domain type protocol ∧ p = {} := by
    intro p hp
    unfold newSocket at hp
    dsimp only at hp
    split_ifs at hp with hneeds
    exact ⟨hneeds, (Option.some.inj hp).symm⟩
  have hkinds : (newSocket domain type protocol nonblock).lwipPcb.isSome ∨ false → needsPcb domain type protocol := by
    rintro (h | h)
    · obtain ⟨p, hp⟩ := Option.isSome_iff_exists.mp h
      exact (hlwip p hp).1
    · cases h
  constructor
  · exact named_empty.length
  · intro h
    rcases (needsPcb_kinds (hkinds h)).1 with h4 | h6
    · rw [family_some.mpr (h4.trans rfl : _ = InetFamily.inet.domain)]
      rfl
    · rw [family_some.mpr (h6.trans rfl : _ = InetFamily.inet6.domain)]
      rfl
  · intro h
    exact (needsPcb_kinds (hkinds h)).2
  · intro p _ hp hne _
    exact absurd (congrArg LwipPcb.localPort (hlwip p hp).2) hne
  · intro p hp hne
    exact absurd (congrArg LwipPcb.localPort (hlwip p hp).2) hne
  · intro _ _
    exact .inl rfl

theorem doSysSocket_fair (domain type protocol : ℤ) (nonblock : Bool) (fd : Option ℕ) (pcb fileRef : Bool) :
    Fair k (k.doSysSocket domain type protocol nonblock fd pcb fileRef).1
      (failed (some (k.doSysSocket domain type protocol nonblock fd pcb fileRef).2)) := by
  unfold doSysSocket
  by_cases hdomain : ¬ (domain = linuxAfUnix ∨ domain = linuxAfInet ∨ domain = linuxAfInet6)
  · rw [if_pos hdomain]
    exact .refl
  rw [if_neg hdomain]
  by_cases htype : ¬ (type = linuxSockStream ∨ type = linuxSockDgram ∨ type = linuxSockRaw) ∨
      !protocolOk domain type protocol
  · rw [if_pos htype]
    exact .refl
  rw [if_neg htype]
  split
  · next fd' i hi =>
    have hfree := socketFree_unused hi
    by_cases hpcb : needsPcb domain type protocol ∧ !pcb
    · rw [if_pos hpcb]
      exact (Drops.setSock (fun _ => named_empty) fun h => by cases h).fair
    rw [if_neg hpcb]
    dsimp only
    by_cases href : !fileRef
    · rw [if_pos href]
      exact fresh_dropped hfree (newSocket_named ..)
    · rw [if_neg href]
      exact .fresh hfree (newSocket_named ..) (not_failed_ok _)
  · exact .refl

theorem acceptCb_fair (hk : ∀ j, (k.socks j).Named) {new : Option NewPcb} (hok : k.Sound (.acceptCb i new)) :
    Fair k (k.edgeTcpAcceptCb i new) (failed none) := by
  unfold edgeTcpAcceptCb
  split
  · next x sid hsid =>
    by_cases hlistening : !(k.socks i).listening
    · rw [if_pos hlistening]
      exact .refl
    rw [if_neg hlistening]
    have hlistens : (k.socks i).listening := by simpa using hlistening
    obtain ⟨family, hfamily⟩ := Option.isSome_iff_exists.mp ((hk i).inet (.inr hlistens))
    have hkind : (k.socks i).family = some (x.host family).family := by
      rw [hfamily, x.host_family]
    dsimp only
    rw [hfamily]
    dsimp only
    -- the listener gets the port it has
    have hlistener : { (k.socks i).setBind (x.host family) (edgeBswap16 x.pcb.localPort) with
        localPortBe := edgeBswap16 x.pcb.localPort }.Named := by
      have hset : ((k.socks i).setBind (x.host family) (edgeBswap16 x.pcb.localPort)).Named :=
        (hk i).setBind (fun p hp _ => by rw [hok x p rfl hp]) hkind
      exact ⟨hset.length, hset.inet, hset.type, hset.whole, hset.port, fun p hp => .inr (by rw [hok x p rfl hp])⟩
    have hlength : (acceptedSock (k.socks i) x.pcb).bindAddr.length = 28 := named_empty.length
    have hchild : ((acceptedSock (k.socks i) x.pcb).setBind (x.host family) (edgeBswap16 x.pcb.localPort)).Named := by
      constructor
      · exact setBind_length hlength _ _
      · intro _
        exact Option.isSome_iff_exists.mpr ⟨family, hfamily⟩
      · intro _
        exact (hk i).type (.inr hlistens)
      · intro _ family' _ _ hfamily'
        cases hfamily.symm.trans hfamily'
        rw [setBind_bindLen, x.host_family]
      · intro p hp _
        cases hp
        exact setBind_sinPort hlength _ _
      · intro p hp
        cases hp
        exact .inr rfl
    have hfree := socketFree_unused hsid
    have hunused : ∀ s : InetSock, s.used = (k.socks i).used → ((k.setSock i s).socks sid).used = false := by
      intro s hs
      by_cases hi : sid = i
      · rw [hi, setSock_same, hs, ← hi, hfree]
      · rw [setSock_other hi, hfree]
    have hfair : ∀ l c : InetSock, l.Named → l.used = (k.socks i).used → l.domain = (k.socks i).domain → c.Named →
        Fair k ((k.setSock i l).setSock sid c) (failed none) := by
      intro l c hl hused hdomain hc
      have hfirst : Fair k (k.setSock i l) (failed none) :=
        (Changed.setSock (fun _ => hl) hused hdomain).fair fun hf => absurd hf not_failed_none
      have hsecond : Fair (k.setSock i l) ((k.setSock i l).setSock sid c) False := .fresh (hunused l hused) hc id
      refine ⟨fun h => hsecond.named (hfirst.named h), fun j hj hj' => ?_, rfl, id, fun hf => absurd hf not_failed_none⟩
      have hne : j ≠ sid := by
        rintro rfl
        rw [hfree] at hj
        cases hj
      rw [setSock_other hne] at hj' ⊢
      exact hfirst.domain j hj hj'
    split
    · refine Fair.drops ?_ (dropSock_drops _ _ _) not_failed_none
      exact hfair _ _ hlistener rfl rfl (named_of_name hchild rfl rfl rfl rfl rfl)
    · exact hfair _ _ (named_of_name hlistener rfl rfl rfl rfl rfl) rfl rfl (named_of_name hchild rfl rfl rfl rfl rfl)
  · exact .refl

/-! ## Runs -/

/-- Every socket is in order, and so are the calls that wait. -/
structure AllNamed (k : NameSys) : Prop where
  named : ∀ i, (k.socks i).Named
  waits : ∀ w ∈ k.connects, (k.socks w.sock).used ∧ (k.socks w.sock).family = some w.family
  counter : k.nextEphemeralPort ≠ 0

theorem inv_boot : AllNamed {} := ⟨fun _ => named_empty, fun _ h => (by cases h), by decide⟩

variable {e : NameEvent}

/-- One step: the sockets are treated fairly, and a call that starts to wait is in order. -/
theorem act_fair (h : k.AllNamed) (hok : k.Sound e) :
    Fair k { (k.act e).1 with connects := k.connects } (failed (k.act e).2) ∧
      ∀ w ∈ (k.act e).1.connects, w ∈ k.connects ∨ (k.socks w.sock).used ∧ (k.socks w.sock).family = some w.family := by
  have hplain : ∀ {k' : NameSys} {r : Prop}, Fair k k' r →
      Fair k { k' with connects := k.connects } r ∧ ∀ w ∈ k'.connects, w ∈ k.connects ∨
        (k.socks w.sock).used ∧ (k.socks w.sock).family = some w.family := by
    intro k' r hfair
    refine ⟨⟨hfair.named, hfair.domain, rfl, hfair.counter, hfair.clean⟩, fun w hw => .inl ?_⟩
    rwa [hfair.connects] at hw
  cases e with
  | socket domain type protocol nonblock fd pcb fileRef => exact hplain (doSysSocket_fair ..)
  | bind sock addr len bound => exact hplain (doSysBind_fair hok)
  | connect sock addr len ans =>
    obtain ⟨i, hconnects, hused⟩ := doSysConnect_connects h.named h.counter hok
    unfold act
    dsimp only
    cases hout : k.doSysConnect sock addr len ans with
    | mk k' result =>
      rw [hout] at hconnects hused
      cases result with
      | ret r =>
        refine hplain (hconnects.changed.fair ?_)
        rintro ⟨err, herr⟩
        cases herr
        exact (hconnects.fails err rfl).1
      | wait w =>
        dsimp only
        obtain ⟨hsock, hfamily⟩ := hconnects.waits w rfl
        have hfair : Fair k k' (failed none) := hconnects.changed.fair fun hf => absurd hf not_failed_none
        refine ⟨(hplain hfair).1, fun w' hw' => ?_⟩
        rcases mem_append.mp hw' with hold | hnew
        · rw [hfair.connects] at hold
          exact .inl hold
        rw [mem_singleton] at hnew
        rw [hnew, hsock]
        exact .inr ⟨hused w rfl, hfamily⟩
  | connectAgain n look =>
    unfold act
    dsimp only
    cases hn : k.connects[n]? with
    | none => exact hplain .refl
    | some w =>
      have hmem := mem_of_getElem? hn
      dsimp only
      rcases connectLoop_cases w look (h.waits w hmem).2 with ⟨err, hout, -⟩ | hout | ⟨k', hout, hchanged⟩
      · rw [hout]
        exact ⟨(hplain .refl).1, fun w' hw' => .inl (mem_of_mem_eraseIdx hw')⟩
      · rw [hout]
        exact hplain .refl
      · rw [hout]
        refine ⟨(hplain (hchanged.ok 0)).1, fun w' hw' => .inl ?_⟩
        have hold := mem_of_mem_eraseIdx hw'
        rwa [hchanged.connects] at hold
  | listen sock backlog given => exact hplain (doSysListen_fair hok)
  | accept sock look =>
    have hfair : ∀ r, Fair k (k.doSysAccept sock look).1 r := fun r => doSysAccept_fair sock look
    unfold act
    dsimp only
    generalize k.doSysAccept sock look = out at hfair
    obtain ⟨k', _ | i⟩ := out
    · exact hplain (hfair _)
    · have hwait := hfair (failed none)
      exact hplain ⟨hwait.named, hwait.domain, hwait.connects, hwait.counter, hwait.clean⟩
  | acceptAgain n look =>
    unfold act
    dsimp only
    cases hn : k.accepts[n]? with
    | none => exact hplain .refl
    | some i =>
      have hfair : ∀ r, Fair k (k.acceptLoop i look).1 r := fun r => acceptLoop_fair i look
      dsimp only
      generalize k.acceptLoop i look = out at hfair
      obtain ⟨k', r | _⟩ := out
      · have hret := hfair (failed (some r))
        exact hplain ⟨hret.named, hret.domain, hret.connects, hret.counter, hret.clean⟩
      · exact hplain (hfair _)
  | sendto sock buf addr ans => exact hplain (doSysSendto_fair h.named h.counter hok)
  | getsockname sock addrOk outlen copied => exact hplain .refl
  | close i => exact hplain (dropSock_drops edgeMaxSockets k i).fair
  | acceptCb i new => exact hplain (acceptCb_fair h.named hok)
  | connectedCb i err =>
    refine hplain (Changed.fair (i := i) (.setSock (fun hn => named_of_name hn rfl rfl rfl rfl rfl) rfl rfl) ?_)
    exact fun hf => absurd hf not_failed_none
  | errCb i err =>
    refine hplain (Changed.fair (i := i) (.setSock (fun hn => ?_) rfl rfl) fun hf => absurd hf not_failed_none)
    exact named_of_name hn.withoutPcb rfl rfl rfl rfl rfl
  | address addr => exact hplain ⟨fun hk => hk, fun _ _ _ => rfl, rfl, id, fun _ _ _ => rfl⟩

theorem AllNamed.step (h : k.AllNamed) (hok : k.Sound e) : (k.step e).AllNamed := by
  obtain ⟨hfair, hwaits⟩ := act_fair h hok
  refine ⟨hfair.named h.named, fun w hw => ?_, hfair.counter h.counter⟩
  obtain ⟨hmem, hused⟩ := mem_filter.mp hw
  have hbefore : (k.socks w.sock).used ∧ (k.socks w.sock).family = some w.family := by
    rcases hwaits w hmem with hold | hnew
    · exact h.waits w hold
    · exact hnew
  refine ⟨hused, ?_⟩
  rw [family_some, ← family_some.mp hbefore.2]
  exact hfair.domain w.sock hbefore.1 hused

theorem AllNamed.coherent (h : k.AllNamed) : k.Coherent := by
  intro i p hused hp hne
  have hsome : (k.socks i).lwipPcb.isSome := by
    rw [hp]
    rfl
  obtain ⟨family, hfamily⟩ := Option.isSome_iff_exists.mp ((h.named i).inet (.inl hsome))
  have hport := (h.named i).port p hp hne
  refine ⟨hport, fun hlocal => ((h.named i).localPort p hp).resolve_left hlocal, fun outlen hout => ?_⟩
  obtain ⟨name, hname, hsin⟩ :=
    sockname_port (family_some.mp hfamily) ((h.named i).whole p family hp hne hfamily) hout
  have hat : k.socketAt (some i) = some i := Option.filter_some_pos hused
  refine ⟨name, ?_, hsin.trans hport⟩
  unfold doSysGetsockname
  rw [hat]
  dsimp only
  rw [hname]
  rfl

theorem AllNamed.clean (h : k.AllNamed) (hok : k.Sound e) : k.Clean e := by
  intro err herr
  refine ⟨(act_fair h hok).1.clean ⟨err, herr⟩, ?_⟩
  rintro n look w rfl hw
  rcases hok w hw with hkept | hgoes
  · exact hkept
  unfold act at herr
  dsimp only at herr
  rw [hw] at herr
  dsimp only at herr
  rcases connectLoop_cases w look (h.waits w (mem_of_getElem? hw)).2 with ⟨_, hout, hstop⟩ | hout | ⟨_, hout, -⟩
  · exact absurd hgoes hstop
  · rw [hout] at herr
    cases herr
  · rw [hout] at herr
    cases herr

/-- As long as lwIP picks no port of its own, no bound socket gets a short name, and no call fails
after it has bound a socket by itself, every name has its socket's port. -/
theorem names_follow_ports (es : List NameEvent) (hes : Meets step Sound {} es) : Meets step Owes {} es :=
  meets_of_invariant (fun _ _ h hok => h.step hok) (fun _ _ h hok => ⟨(h.step hok).coherent, h.clean hok⟩) inv_boot hes

def hostName (port : UInt16) : UserBuf where
  data := HostAddr.bytes (edgeBswap16 port) (.v4 0x0202000A)

/-- A server binds port 80, listens and accepts one connection. -/
def serve : List NameEvent :=
  [.socket linuxAfInet linuxSockStream 0 false (some 3) true true, .bind (some 0) (hostName 80) 16 true,
    .listen (some 0) 4 (some ⟨80⟩), .acceptCb 0 (some { pcb := ⟨80⟩ }), .accept (some 0) { fd := some 4 }]

theorem serve_follows : Meets step Sound {} serve ∧ Meets step Owes {} serve := by
  have hbound : ((run step {} (serve.take 2)).socks 0).lwipPcb = some ⟨80⟩ := by decide +kernel
  have hlistens : ((run step {} (serve.take 3)).socks 0).lwipPcb = some ⟨80⟩ := by decide +kernel
  have hes : Meets step Sound {} serve := by
    refine ⟨trivial, ?_, ?_, ?_, trivial, trivial⟩
    · intro i hi hshort
      have hat : (run step {} (serve.take 1)).socketAt (some 0) = some 0 := by decide +kernel
      cases hat.symm.trans hi
      have hlong : ((run step {} (serve.take 1)).socks 0).longAddr 16 = some .inet := by decide +kernel
      cases hlong.symm.trans hshort
    · intro i p lp hi hp hlp
      have hat : (run step {} (serve.take 2)).socketAt (some 0) = some 0 := by decide +kernel
      cases hat.symm.trans hi
      cases hbound.symm.trans hp
      cases hlp
      rfl
    · intro x p hx hp
      cases hlistens.symm.trans hp
      cases hx
      rfl
  exact ⟨hes, names_follow_ports serve hes⟩

def dial : List NameEvent :=
  [.socket linuxAfInet linuxSockStream 0 false (some 3) true true,
    .connect (some 0) (hostName 80) 16 { chosen := 50000 }]

/-- The name says 49152, and the connection comes from the port that lwIP has picked. -/
theorem dial_misnamed : ¬ ∀ es : List NameEvent, Meets step Owes {} es := by
  intro h
  have hcoherent : (run step {} dial).Coherent := (h dial).2.1.1
  have hused : ((run step {} dial).socks 0).used := by decide +kernel
  have hpcb : ((run step {} dial).socks 0).lwipPcb = some ⟨50000⟩ := by decide +kernel
  have hname : sinPort ((run step {} dial).socks 0).bindAddr = edgeBswap16 49152 := by decide +kernel
  have hport := (hcoherent 0 ⟨50000⟩ hused hpcb (by decide)).1
  rw [hname] at hport
  exact absurd hport (by decide)

end NameSys

end EdgeOS
