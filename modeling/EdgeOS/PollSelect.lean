import EdgeOS.EpollNesting
import EdgeOS.Lib.Counting

namespace EdgeOS

open Lib Function List
open Option (map_some any_some)

/-!
`select`, `pselect6` and `poll` over one state: `poll_fd_revents` with all kinds of descriptors, its recursion through
epoll objects and what it takes from the network for a ping socket, and the loops that turn sets of descriptors into
events and back.
-/

/-! ## What a poll looks at -/

/-- The counts of a terminal as one of its sides sees them. -/
structure PolledPty where
  source : ℕ
  dest : ℕ
  peerRefs : ℤ
  deriving DecidableEq, Repr

structure PolledPipe where
  count : ℕ
  readers : ℕ
  writers : ℕ
  deriving DecidableEq, Repr

/-- A descriptor with the object behind it. An object is missing where its number is out of range or it is not in
use. -/
inductive PollTarget
  | console
  | pty (p : Option PolledPty)
  | pipeR (p : Option PolledPipe)
  | pipeW (p : Option PolledPipe)
  | socket (id : Option ℕ)
  | eventfd (counter : Option UInt64)
  | timerfd (t : Option (TimerFd × UInt64))
  | signalfd (sf : Option SignalFd)
  | epoll (watches : Option (List (ℤ × BitVec 32)))
  | pidfd (state : Option TaskState)
  | vfsConsole
  | vfsMouse
  | vfs

/-- `edge_socket_t` with what it has received, its echo identifier, and `tcp_sndbuf` of its control block. -/
structure PollSocket extends Socket where
  rx : List UInt8 := []
  pingHw : Bool := false
  pingId : UInt16 := 0
  sndbuf : ℕ := 0

/-- Packets that wait in the network stack, each with its echo identifier. -/
abbrev PacketQueue := List (UInt16 × List UInt8)

structure PollWorld where
  fd : ℕ → Option PollTarget
  sock : ℕ → PollSocket
  reply4 : PacketQueue := []
  reply6 : PacketQueue := []
  raw4 : PacketQueue := []
  haschar : Bool := false
  mousePending : ℕ := 0
  sigs : Signals := {}

/-- `lwip_stack_recv_icmp_reply_for_id` and its siblings: the first packet that is wanted, if it fits. -/
def recvPacket (q : PacketQueue) (wanted : UInt16 → Bool) : Option (List UInt8 × PacketQueue) :=
  match q.find? fun r => wanted r.1 with
  | none => none
  | some r => if r.2.length ≤ rxBufSize then some (r.2, q.eraseP fun r => wanted r.1) else none

/-- The payload that a datagram socket keeps of an IPv4 packet. -/
def stripIpHeader (type : ℤ) (pkt : List UInt8) : List UInt8 :=
  let ihl := (pkt.headD 0 &&& 0x0F).toNat * 4
  if type = linuxSockDgram ∧ 20 ≤ pkt.length ∧ 20 ≤ ihl ∧ ihl ≤ pkt.length then pkt.drop ihl else pkt

namespace PollWorld

def setRx (w : PollWorld) (id : ℕ) (rx : List UInt8) : PollWorld :=
  { w with sock := Function.update w.sock id { w.sock id with rx := rx } }

def tryFillPingHwReply (w : PollWorld) (id : ℕ) : PollWorld :=
  let s := w.sock id
  if s.rx ≠ [] then w
  else if ¬ (s.domain = linuxAfInet ∨ s.domain = linuxAfInet6) then w
  else if ¬ (s.type = linuxSockRaw ∨ s.type = linuxSockDgram) then w
  else if s.domain = linuxAfInet ∧ ¬ (s.protocol = 0 ∨ s.protocol = linuxIpprotoIcmp) then w
  else if s.domain = linuxAfInet6 ∧ ¬ (s.protocol = 0 ∨ s.protocol = linuxIpprotoIcmpv6) then w
  else if s.domain = linuxAfInet ∧ s.pingHw then
    match recvPacket w.reply4 (· = s.pingId) with
    | none => w
    | some (pkt, q) => { w.setRx id (stripIpHeader s.type pkt) with reply4 := q }
  else if s.domain = linuxAfInet6 ∧ s.pingHw then
    match recvPacket w.reply6 (· = s.pingId) with
    | none => w
    | some (pkt, q) => { w.setRx id pkt with reply6 := q }
  else if s.domain = linuxAfInet then
    match recvPacket w.raw4 fun _ => true with
    | none => w
    | some (pkt, q) => { w.setRx id (stripIpHeader s.type pkt) with raw4 := q }
  else w

/-- `fd_get`. -/
def fdAt (w : PollWorld) (fd : ℤ) : Option PollTarget := if 0 ≤ fd then w.fd fd.toNat else none

/-- The input half of `poll_fd_revents`; `watched` is the loop over the watches of an epoll object. -/
def inputHalf (watched : List (ℤ × BitVec 32) → PollWorld → Option (PollWorld × Bool)) (w : PollWorld) :
    PollTarget → Option (PollWorld × BitVec 16)
  | .console => some (w, raise w.haschar linuxPollin)
  | .pty none => some (w, linuxPollnval)
  | .pty (some p) => some (w, raise (p.source > 0) linuxPollin ||| raise (p.peerRefs ≤ 0) linuxPollhup)
  | .pipeR none => some (w, linuxPollnval)
  | .pipeR (some p) => some (w, raise (p.count > 0) linuxPollin ||| raise (p.writers = 0) linuxPollhup)
  | .socket none => some (w, linuxPollnval)
  | .socket (some id) =>
    if !(w.sock id).used then some (w, linuxPollnval)
    else
      let w' := w.tryFillPingHwReply id
      let s := w'.sock id
      some (w', raise (s.listening ∧ s.pending ≠ []) linuxPollin ||| raise (s.rx ≠ [] ∨ s.closed) linuxPollin |||
        raise s.closed linuxPollhup)
  | .eventfd none => some (w, linuxPollnval)
  | .eventfd (some c) => some (w, raise (c > 0) linuxPollin)
  | .timerfd none => some (w, linuxPollnval)
  | .timerfd (some (tf, now)) => some (w, raise ((timerfdExpireCount tf now false).2 > 0) linuxPollin)
  | .signalfd none => some (w, linuxPollnval)
  | .signalfd (some sf) => some (w, raise (sf.peek w.sigs).isSome linuxPollin)
  | .epoll none => some (w, linuxPollnval)
  | .epoll (some watches) => (watched watches w).map fun out => (out.1, raise out.2 linuxPollin)
  | .pidfd state => some (w, raise (state = none ∨ state = some .zombie) linuxPollin)
  | .vfsConsole => some (w, raise w.haschar linuxPollin)
  | .vfsMouse => some (w, raise (w.mousePending > 0) linuxPollin)
  | .pipeW _ | .vfs => some (w, linuxPollin)

/-- The output half of `poll_fd_revents`. -/
def outputHalf (w : PollWorld) : PollTarget → BitVec 16
  | .pipeW none => linuxPollnval
  | .pipeW (some p) => if p.readers = 0 then linuxPollerr else raise (p.count < edgePipeSize) linuxPollout
  | .pty none => linuxPollnval
  | .pty (some p) => if p.peerRefs ≤ 0 then linuxPollerr else raise (p.dest < edgePtyBufSize) linuxPollout
  | .eventfd none => linuxPollnval
  | .eventfd (some c) => raise (c < uint64Max - 1) linuxPollout
  | .socket (some id) =>
    let s := w.sock id
    if !s.used then linuxPollnval
    else if s.domain = linuxAfUnix ∧ s.type = linuxSockStream then
      if 0 ≤ s.unixPeerId then
        let peer := w.sock s.unixPeerId.toNat
        raise (peer.used ∧ peer.rx.length < rxBufSize) linuxPollout
      else 0
    else if (s.domain = linuxAfInet ∨ s.domain = linuxAfInet6) ∧ s.type = linuxSockStream ∧ s.hasPcb ∧ s.connected ∧
        !s.closed then
      raise (s.sndbuf > 0) linuxPollout
    else linuxPollout
  | _ => linuxPollout

/-- `poll_fd_revents`, given the loop over watches. -/
def reventsWith (watched : List (ℤ × BitVec 32) → PollWorld → Option (PollWorld × Bool)) (w : PollWorld)
    (e : Option PollTarget) (events : BitVec 16) : Option (PollWorld × BitVec 16) :=
  match e with
  | none => some (w, linuxPollnval)
  | some e =>
    if raised events (linuxPollin ||| linuxPollpri) then
      (inputHalf watched w e).map fun out =>
        (out.1, out.2 ||| if raised events linuxPollout then outputHalf out.1 e else 0)
    else some (w, if raised events linuxPollout then outputHalf w e else 0)

/-- The loop over the watches of an epoll object, up to the first one that something is found for. -/
def watchLoop (poll : PollWorld → Option PollTarget → BitVec 16 → Option (PollWorld × BitVec 16)) :
    List (ℤ × BitVec 32) → PollWorld → Option (PollWorld × Bool)
  | [], w => some (w, false)
  | (fd, events) :: rest, w =>
    match w.fdAt fd with
    | none => watchLoop poll rest w
    | some e =>
      match poll w (some e) (events.setWidth 16 &&& 0x7fff) with
      | none => none
      | some (w', rev) => if raised rev foundEvents then some (w', true) else watchLoop poll rest w'

/-- The loop over watches with room on the kernel stack for `depth` epoll objects inside each other. -/
def watchedAt : ℕ → List (ℤ × BitVec 32) → PollWorld → Option (PollWorld × Bool)
  | 0 => fun _ _ => none
  | depth + 1 => watchLoop (reventsWith (watchedAt depth))

def pollFdRevents (depth : ℕ) : PollWorld → Option PollTarget → BitVec 16 → Option (PollWorld × BitVec 16) :=
  reventsWith (watchedAt depth)

end PollWorld

/-! ## Sets of descriptors -/

def edgeSelectFdMax : ℕ := 1024

abbrev FdBytes := ℕ → BitVec 8

def fdsetTest (s : FdBytes) (fd : ℕ) : Bool :=
  if edgeSelectFdMax ≤ fd then false else (s (fd / 8)).getLsbD (fd % 8)

def fdsetSet (s : FdBytes) (fd : ℕ) : FdBytes :=
  if edgeSelectFdMax ≤ fd then s else Function.update s (fd / 8) (s (fd / 8) ||| 1#8 <<< (fd % 8))

def noFds : FdBytes := fun _ => 0

@[simp] theorem fdsetTest_noFds (fd : ℕ) : fdsetTest noFds fd = false := by
  unfold fdsetTest noFds
  split_ifs
  · rfl
  · exact BitVec.getLsbD_zero

variable {fd : ℕ}

theorem fdsetTest_set (s : FdBytes) (hfd : fd < edgeSelectFdMax) (i : ℕ) :
    fdsetTest (fdsetSet s fd) i = (decide (i = fd) || fdsetTest s i) := by
  unfold fdsetTest fdsetSet
  rw [if_neg (Nat.not_le.mpr hfd)]
  by_cases hi : edgeSelectFdMax ≤ i
  · have hne : i ≠ fd := by omega
    simp [hi, hne]
  rw [if_neg hi, if_neg hi]
  by_cases hb : i / 8 = fd / 8
  · rw [hb, update_self, BitVec.getLsbD_or, BitVec.getLsbD_shiftLeft]
    by_cases he : i = fd
    · subst he
      have : i % 8 < 8 := Nat.mod_lt _ (by decide)
      simp [this]
    have hmod : i % 8 ≠ fd % 8 := by omega
    by_cases hlt : i % 8 < fd % 8
    · simp [he, hlt]
    have hpos : i % 8 - fd % 8 ≠ 0 := by omega
    have hbit : (1#8).getLsbD (i % 8 - fd % 8) = false := by
      rw [BitVec.getLsbD_one]
      simp [hpos]
    simp [he, hbit]
  · have he : i ≠ fd := fun h => hb (h ▸ rfl)
    rw [update_of_ne hb]
    simp [he]

/-! ## The calls -/

/-- How a call ends early: the kernel stack is used up, or there is an error. -/
inductive PollStop
  | stack
  | fails (e : Errno)
  deriving DecidableEq

structure SelectSets where
  r : FdBytes := noFds
  w : FdBytes := noFds
  e : FdBytes := noFds

/-- The state of the loop over the descriptors. -/
structure SelectAcc where
  world : PollWorld
  out : SelectSets := {}
  ready : ℕ := 0

def SelectSets.watched (sets : SelectSets) (fd : ℕ) : Bool :=
  fdsetTest sets.r fd || fdsetTest sets.w fd || fdsetTest sets.e fd

def SelectSets.events (sets : SelectSets) (fd : ℕ) : BitVec 16 :=
  raise (fdsetTest sets.r fd) (linuxPollin ||| linuxPollpri) ||| raise (fdsetTest sets.w fd) linuxPollout |||
    raise (fdsetTest sets.e fd) linuxPollpri

/-- One descriptor in the loop of `do_sys_select` and of `do_sys_pselect6`. -/
def selectFd (depth : ℕ) (sets : SelectSets) (acc : SelectAcc) (fd : ℕ) : Except PollStop SelectAcc :=
  if !sets.watched fd then .ok acc
  else
    match acc.world.fd fd with
    | none => .error (.fails .ebadf)
    | some e =>
      match acc.world.pollFdRevents depth (some e) (sets.events fd) with
      | none => .error .stack
      | some (world, rev) =>
        let inR := raised rev (linuxPollin ||| linuxPollhup ||| linuxPollerr) && fdsetTest sets.r fd
        let inW := raised rev (linuxPollout ||| linuxPollerr) && fdsetTest sets.w fd
        let inE := raised rev linuxPollpri && fdsetTest sets.e fd
        .ok {
          world := world
          out := {
            r := if inR then fdsetSet acc.out.r fd else acc.out.r
            w := if inW then fdsetSet acc.out.w fd else acc.out.w
            e := if inE then fdsetSet acc.out.e fd else acc.out.e }
          ready := acc.ready + if inR || inW || inE then 1 else 0 }

def selectScan (depth : ℕ) (sets : SelectSets) (n : ℕ) (world : PollWorld) : Except PollStop SelectAcc :=
  (List.range n).foldlM (selectFd depth sets) { world := world }

structure UserFdSet where
  bytes : FdBytes
  readable : Bool := true
  writable : Bool := true

/-- A `struct timeval` or `struct timespec` in the memory of the user. -/
structure UserTime where
  sec : ℤ
  frac : ℤ
  readable : Bool := true

/-- `timeout_ms`; a millisecond has `perMs` of the units of the fraction. -/
def selectTimeoutMs (perMs : ℤ) : Option UserTime → Except Errno ℤ
  | none => .ok (-1)
  | some t =>
    if !t.readable then .error .efault
    else if t.sec < 0 ∨ t.frac < 0 ∨ perMs * 1000 ≤ t.frac then .error .einval
    else if 0x7FFFFFFF / 1000 < t.sec then .ok 0x7FFFFFFF
    else .ok (t.sec * 1000 + t.frac / perMs)

/-- The `nbytes` bytes of a set. -/
def copyInFds (nbytes : ℕ) : Option UserFdSet → Except Errno FdBytes
  | none => .ok noFds
  | some s =>
    if nbytes = 0 then .ok noFds
    else if s.readable then .ok fun i => if i < nbytes then s.bytes i else 0
    else .error .efault

def copyOutFds (nbytes : ℕ) (out : FdBytes) : Option UserFdSet → Except Errno (Option FdBytes)
  | none => .ok none
  | some s =>
    if nbytes = 0 then .ok (some s.bytes)
    else if s.writable then .ok (some fun i => if i < nbytes then out i else s.bytes i)
    else .error .efault

/-- The count that a call returns, and the sets that it leaves. -/
structure SelectResult where
  ready : ℕ
  r : Option FdBytes
  w : Option FdBytes
  e : Option FdBytes

/-- One round of a call; without a result it waits. `expired` says whether the timeout has passed in the loop. -/
def selectCall (depth : ℕ) (perMs : ℤ) (n : ℤ) (r w e : Option UserFdSet) (timeout : Option UserTime)
    (sigmask : Except Errno Unit) (interrupted expired : Bool) (world : PollWorld) :
    Except PollStop (Option SelectResult) :=
  if n < 0 ∨ edgeSelectFdMax < n then .error (.fails .einval)
  else
    let nbytes := (n.toNat + 7) / 8
    let args : Except Errno (SelectSets × ℤ) := do
      let rin ← copyInFds nbytes r
      let win ← copyInFds nbytes w
      let ein ← copyInFds nbytes e
      let ms ← selectTimeoutMs perMs timeout
      sigmask
      return (⟨rin, win, ein⟩, ms)
    match args with
    | .error err => .error (.fails err)
    | .ok (sets, ms) =>
      if interrupted then .error (.fails .eintr)
      else
        match selectScan depth sets n.toNat world with
        | .error stop => .error stop
        | .ok acc =>
          if acc.ready = 0 ∧ ¬ (ms = 0 ∨ 0 < ms ∧ expired) then .ok none
          else
            let out : Except Errno SelectResult := do
              let rout ← copyOutFds nbytes acc.out.r r
              let wout ← copyOutFds nbytes acc.out.w w
              let eout ← copyOutFds nbytes acc.out.e e
              return ⟨acc.ready, rout, wout, eout⟩
            match out with
            | .error err => .error (.fails err)
            | .ok out => .ok (some out)

def doSysSelect (depth : ℕ) (n : ℤ) (r w e : Option UserFdSet) (timeout : Option UserTime)
    (interrupted expired : Bool) (world : PollWorld) : Except PollStop (Option SelectResult) :=
  selectCall depth 1000 n r w e timeout (.ok ()) interrupted expired world

/-- `do_sys_pselect6`; the signal mask is read and not used. -/
def doSysPselect6 (depth : ℕ) (n : ℤ) (r w e : Option UserFdSet) (timeout : Option UserTime)
    (sigmask : Except Errno Unit) (interrupted expired : Bool) (world : PollWorld) :
    Except PollStop (Option SelectResult) :=
  selectCall depth 1000000 n r w e timeout sigmask interrupted expired world

/-- The loop of `do_sys_poll`: the answers, and how many there are. -/
def pollScan (depth : ℕ) : List (ℤ × BitVec 16) → PollWorld → Option (PollWorld × List (BitVec 16) × ℕ)
  | [], w => some (w, [], 0)
  | (fd, events) :: rest, w =>
    if fd < 0 then (pollScan depth rest w).map fun out => (out.1, 0 :: out.2.1, out.2.2)
    else
      match w.pollFdRevents depth (w.fdAt fd) events with
      | none => none
      | some (w', rev) =>
        (pollScan depth rest w').map fun out => (out.1, rev :: out.2.1, out.2.2 + if rev ≠ 0 then 1 else 0)

/-! ## The halves of a poll -/

theorem raised_eq_false {a m : BitVec 16} : raised a m = false ↔ a &&& m = 0#16 := by
  unfold raised
  exact bne_eq_false_iff_eq

theorem raised_or_left (a b m : BitVec 16) : raised (a ||| b) m = (raised a m || raised b m) := by
  rw [Bool.eq_iff_iff, ← not_iff_not, Bool.or_eq_true, not_or, Bool.not_eq_true, Bool.not_eq_true, Bool.not_eq_true,
    raised_eq_false, raised_eq_false, raised_eq_false, BitVec.and_or_distrib_right, BitVec.or_eq_zero_iff]

theorem raised_or_right (a m m' : BitVec 16) : raised a (m ||| m') = (raised a m || raised a m') := by
  rw [Bool.eq_iff_iff, ← not_iff_not, Bool.or_eq_true, not_or, Bool.not_eq_true, Bool.not_eq_true, Bool.not_eq_true,
    raised_eq_false, raised_eq_false, raised_eq_false, BitVec.and_or_distrib_left, BitVec.or_eq_zero_iff]

namespace PollWorld

variable {watched : List (ℤ × BitVec 32) → PollWorld → Option (PollWorld × Bool)} {w w' : PollWorld}

def InputBits (rev : BitVec 16) : Prop :=
  raised rev linuxPollout = false ∧ raised rev linuxPollerr = false ∧ raised rev linuxPollpri = false

theorem inputBits_raise (a b c : Bool) : InputBits linuxPollnval ∧ InputBits (raise a linuxPollin) ∧
      InputBits (raise a linuxPollin ||| raise b linuxPollhup) ∧
        InputBits (raise a linuxPollin ||| raise b linuxPollin ||| raise c linuxPollhup) := by
  unfold InputBits
  cases a <;> cases b <;> cases c <;> decide

variable {e : PollTarget} {rev : BitVec 16}

theorem inputHalf_bits (h : inputHalf watched w e = some (w', rev)) : InputBits rev := by
  have hnval := (inputBits_raise false false false).1
  have hone := fun a => (inputBits_raise a false false).2.1
  have htwo := fun a b => (inputBits_raise a b false).2.2.1
  have hthree := fun a b c => (inputBits_raise a b c).2.2.2
  cases e with
  | console => exact (Prod.mk.inj (Option.some.inj h)).2 ▸ hone _
  | pty p =>
    cases p with
    | none => exact (Prod.mk.inj (Option.some.inj h)).2 ▸ hnval
    | some p => exact (Prod.mk.inj (Option.some.inj h)).2 ▸ htwo _ _
  | pipeR p =>
    cases p with
    | none => exact (Prod.mk.inj (Option.some.inj h)).2 ▸ hnval
    | some p => exact (Prod.mk.inj (Option.some.inj h)).2 ▸ htwo _ _
  | socket id =>
    cases id with
    | none => exact (Prod.mk.inj (Option.some.inj h)).2 ▸ hnval
    | some id =>
      unfold inputHalf at h
      dsimp only at h
      split_ifs at h
      · exact (Prod.mk.inj (Option.some.inj h)).2 ▸ hnval
      · exact (Prod.mk.inj (Option.some.inj h)).2 ▸ hthree _ _ _
  | eventfd c =>
    cases c with
    | none => exact (Prod.mk.inj (Option.some.inj h)).2 ▸ hnval
    | some c => exact (Prod.mk.inj (Option.some.inj h)).2 ▸ hone _
  | timerfd t =>
    cases t with
    | none => exact (Prod.mk.inj (Option.some.inj h)).2 ▸ hnval
    | some t => exact (Prod.mk.inj (Option.some.inj h)).2 ▸ hone _
  | signalfd sf =>
    cases sf with
    | none => exact (Prod.mk.inj (Option.some.inj h)).2 ▸ hnval
    | some sf => exact (Prod.mk.inj (Option.some.inj h)).2 ▸ hone _
  | epoll watches =>
    cases watches with
    | none => exact (Prod.mk.inj (Option.some.inj h)).2 ▸ hnval
    | some watches =>
      obtain ⟨out, _, he⟩ := Option.map_eq_some_iff.mp h
      exact (Prod.mk.inj he).2 ▸ hone _
  | pidfd state => exact (Prod.mk.inj (Option.some.inj h)).2 ▸ hone _
  | vfsConsole => exact (Prod.mk.inj (Option.some.inj h)).2 ▸ hone _
  | vfsMouse => exact (Prod.mk.inj (Option.some.inj h)).2 ▸ hone _
  | pipeW p => exact (Prod.mk.inj (Option.some.inj h)).2 ▸ hone true
  | vfs => exact (Prod.mk.inj (Option.some.inj h)).2 ▸ hone true

theorem outputHalf_bits (w : PollWorld) (e : PollTarget) :
    raised (outputHalf w e) linuxPollin = false ∧ raised (outputHalf w e) linuxPollhup = false ∧
      raised (outputHalf w e) linuxPollpri = false := by
  have hraise : ∀ b : Bool, raised (raise b linuxPollout) linuxPollin = false ∧
      raised (raise b linuxPollout) linuxPollhup = false ∧ raised (raise b linuxPollout) linuxPollpri = false := by
    decide
  unfold outputHalf
  split <;> (try dsimp only) <;> (try split_ifs) <;> first | exact hraise _ | decide

/-- A broken terminal or pipe is ready for input as well. -/
theorem outputHalf_err (h : inputHalf watched w e = some (w', rev))
    (herr : raised (outputHalf w' e) linuxPollerr = true) : raised rev (linuxPollin ||| linuxPollhup) = true := by
  have hraise : ∀ b : Bool, raised (raise b linuxPollout) linuxPollerr = false := by decide
  have hout : raised linuxPollout linuxPollerr = false := by decide
  have hnval : raised linuxPollnval linuxPollerr = false := by decide
  cases e with
  | pty p =>
    cases p with
    | none => exact absurd (hnval.symm.trans herr) (by decide)
    | some p =>
      obtain rfl := (Prod.mk.inj (Option.some.inj h)).2
      unfold outputHalf at herr
      dsimp only at herr
      split_ifs at herr with hp
      · rw [decide_eq_true hp]
        cases decide (p.source > 0) <;> rfl
      · exact absurd ((hraise _).symm.trans herr) (by decide)
  | pipeW p =>
    obtain rfl := (Prod.mk.inj (Option.some.inj h)).2
    rfl
  | socket id =>
    unfold outputHalf at herr
    cases id with
    | none => exact absurd (hout.symm.trans herr) (by decide)
    | some id =>
      dsimp only at herr
      split_ifs at herr
      · exact absurd (hnval.symm.trans herr) (by decide)
      · exact absurd ((hraise _).symm.trans herr) (by decide)
      · exact absurd herr (by decide)
      · exact absurd ((hraise _).symm.trans herr) (by decide)
      · exact absurd (hout.symm.trans herr) (by decide)
  | eventfd c =>
    cases c with
    | none => exact absurd (hnval.symm.trans herr) (by decide)
    | some c => exact absurd ((hraise _).symm.trans herr) (by decide)
  | _ => exact absurd (hout.symm.trans herr) (by decide)

/-! ## One descriptor -/

/-- A relation that each state has to itself, that composes, and that survives the taking of a packet. -/
structure Kept (P : PollWorld → PollWorld → Prop) : Prop where
  refl : ∀ w, P w w
  trans : ∀ a b c, P a b → P b c → P a c
  fill : ∀ w id, P w (w.tryFillPingHwReply id)

section Kept

variable {P : PollWorld → PollWorld → Prop}

variable {rev : BitVec 16}

theorem Kept.same (hP : Kept P) {r : BitVec 16} (h : some (w, r) = some (w', rev)) : P w w' := by
  rw [← (Prod.mk.inj (Option.some.inj h)).1]
  exact hP.refl w

theorem Kept.input (hP : Kept P) (hw : ∀ l w w' b, watched l w = some (w', b) → P w w') {e : PollTarget}
    (h : inputHalf watched w e = some (w', rev)) : P w w' := by
  cases e with
  | socket id =>
    cases id with
    | none => exact hP.same h
    | some id =>
      unfold inputHalf at h
      dsimp only at h
      split_ifs at h
      · exact hP.same h
      · rw [← (Prod.mk.inj (Option.some.inj h)).1]
        exact hP.fill w id
  | epoll watches =>
    cases watches with
    | none => exact hP.same h
    | some watches =>
      obtain ⟨out, ho, he⟩ := Option.map_eq_some_iff.mp h
      rw [← (Prod.mk.inj he).1]
      exact hw _ _ _ _ ho
  | pty p => cases p <;> exact hP.same h
  | pipeR p => cases p <;> exact hP.same h
  | eventfd c => cases c <;> exact hP.same h
  | timerfd t => cases t <;> exact hP.same h
  | signalfd sf => cases sf <;> exact hP.same h
  | _ => exact hP.same h

variable {e : Option PollTarget} {events : BitVec 16}

theorem Kept.revents (hP : Kept P) (hw : ∀ l w w' b, watched l w = some (w', b) → P w w')
    (h : reventsWith watched w e events = some (w', rev)) : P w w' := by
  unfold reventsWith at h
  cases e with
  | none => exact hP.same h
  | some e =>
    dsimp only at h
    split_ifs at h
    · obtain ⟨out, ho, he⟩ := Option.map_eq_some_iff.mp h
      rw [← (Prod.mk.inj he).1]
      exact hP.input hw ho
    · obtain ⟨out, ho, he⟩ := Option.map_eq_some_iff.mp h
      rw [← (Prod.mk.inj he).1]
      exact hP.input hw ho
    · exact hP.same h
    · exact hP.same h

theorem Kept.watches (hP : Kept P) (depth : ℕ) (l : List (ℤ × BitVec 32)) (w w' : PollWorld) (b : Bool)
    (h : watchedAt depth l w = some (w', b)) : P w w' := by
  induction depth generalizing l w w' b with
  | zero => exact absurd h (by simp [watchedAt])
  | succ depth ih =>
    unfold watchedAt at h
    induction l generalizing w with
    | nil =>
      rw [← (Prod.mk.inj (Option.some.inj h)).1]
      exact hP.refl w
    | cons x rest ihl =>
      unfold watchLoop at h
      cases hfd : w.fdAt x.1 with
      | none =>
        rw [hfd] at h
        exact ihl w h
      | some e =>
        rw [hfd] at h
        dsimp only at h
        cases hp : reventsWith (watchedAt depth) w (some e) (x.2.setWidth 16 &&& 0x7fff) with
        | none =>
          rw [hp] at h
          exact absurd h (by simp)
        | some out =>
          rw [hp] at h
          dsimp only at h
          have hout := hP.revents ih hp
          split_ifs at h
          · rw [← (Prod.mk.inj (Option.some.inj h)).1]
            exact hout
          · exact hP.trans _ _ _ hout (ihl _ h)

theorem Kept.poll (hP : Kept P) {depth : ℕ} (h : w.pollFdRevents depth e events = some (w', rev)) : P w w' :=
  hP.revents (hP.watches depth) h

end Kept

theorem kept_fd : Kept fun w w' => w'.fd = w.fd where
  refl _ := rfl
  trans _ _ _ hab hbc := hbc.trans hab
  fill w id := by
    unfold tryFillPingHwReply
    dsimp only
    split_ifs <;> (try split) <;> rfl

def NoPackets (w : PollWorld) : Prop := w.reply4 = [] ∧ w.reply6 = [] ∧ w.raw4 = []

theorem kept_noPackets : Kept fun w w' => NoPackets w → w' = w where
  refl _ _ := rfl
  trans a b c hab hbc h := by
    have hb := hab h
    subst hb
    exact hbc h
  fill w id h := by
    obtain ⟨h4, h6, hr⟩ := h
    unfold tryFillPingHwReply
    dsimp only
    rw [h4, h6, hr]
    split_ifs <;> rfl

def inReady (depth : ℕ) (w : PollWorld) (fd : ℕ) : Bool :=
  match w.fd fd with
  | none => false
  | some e =>
    match inputHalf (watchedAt depth) w e with
    | none => false
    | some out => raised out.2 (linuxPollin ||| linuxPollhup)

def outReady (w : PollWorld) (fd : ℕ) : Bool :=
  match w.fd fd with
  | none => false
  | some e => raised (outputHalf w e) (linuxPollout ||| linuxPollerr)

/-- The state after one descriptor of a `select` was polled. -/
def afterFd (depth : ℕ) (sets : SelectSets) (w : PollWorld) (fd : ℕ) : Option PollWorld :=
  if !sets.watched fd then some w else (w.pollFdRevents depth (w.fd fd) (sets.events fd)).map (·.1)

def turn (depth : ℕ) (sets : SelectSets) (w : PollWorld) (fd : ℕ) : Option PollWorld :=
  (List.range fd).foldlM (afterFd depth sets) w

theorem afterFd_fd {depth : ℕ} {sets : SelectSets} {fd : ℕ} (h : afterFd depth sets w fd = some w') : w'.fd = w.fd := by
  unfold afterFd at h
  split_ifs at h
  · rw [Option.some.inj h]
  · obtain ⟨out, ho, rfl⟩ := Option.map_eq_some_iff.mp h
    exact kept_fd.poll ho

theorem events_bits (sets : SelectSets) (fd : ℕ) :
    raised (sets.events fd) (linuxPollin ||| linuxPollpri) = (fdsetTest sets.r fd || fdsetTest sets.e fd) ∧
      raised (sets.events fd) linuxPollout = fdsetTest sets.w fd := by
  unfold SelectSets.events
  cases fdsetTest sets.r fd <;> cases fdsetTest sets.w fd <;> cases fdsetTest sets.e fd <;> decide

end PollWorld

open PollWorld

theorem raised_zero (m : BitVec 16) : raised 0#16 m = false :=
  raised_eq_false.mpr BitVec.zero_and

variable {depth : ℕ} {w w' : PollWorld} {e : PollTarget}

/-- The bits that `select` looks at in the answer of a poll that was asked about input, and about output if `b`. -/
theorem answer_bits {inp : BitVec 16} (b : Bool) (h : inputHalf (watchedAt depth) w e = some (w', inp)) :
    raised (inp ||| if b = true then outputHalf w' e else 0) (linuxPollin ||| linuxPollhup ||| linuxPollerr) =
        raised inp (linuxPollin ||| linuxPollhup) ∧
      raised (inp ||| if b = true then outputHalf w' e else 0) (linuxPollout ||| linuxPollerr) =
        (b && raised (outputHalf w' e) (linuxPollout ||| linuxPollerr)) ∧
      raised (inp ||| if b = true then outputHalf w' e else 0) linuxPollpri = false := by
  obtain ⟨hiout, hierr, hipri⟩ := inputHalf_bits h
  obtain ⟨hoin, hohup, hopri⟩ := outputHalf_bits w' e
  have herr : raised (outputHalf w' e) linuxPollerr = true → raised inp (linuxPollin ||| linuxPollhup) = true :=
    outputHalf_err h
  rw [raised_or_left, raised_or_left, raised_or_left, raised_or_right inp _ linuxPollerr, hierr,
    raised_or_right inp linuxPollout, hiout, hierr, hipri]
  cases b with
  | false => simp [raised_zero]
  | true =>
    rw [if_pos rfl, raised_or_right (outputHalf w' e) _ linuxPollerr,
      raised_or_right (outputHalf w' e) linuxPollin linuxPollhup, hoin, hohup, hopri]
    cases hb : raised (outputHalf w' e) linuxPollerr with
    | false => simp
    | true => simp [herr hb]

variable {sets : SelectSets} {acc : SelectAcc}

/-- One descriptor of the loop: it goes into the read set if it is ready for input, and into the write set if it is
ready for output then. -/
theorem selectFd_eq (hfd : acc.world.fd fd = some e) : selectFd depth sets acc fd =
      match afterFd depth sets acc.world fd with
      | none => .error .stack
      | some w' =>
        let hitR := fdsetTest sets.r fd && inReady depth acc.world fd
        let hitW := fdsetTest sets.w fd && outReady w' fd
        .ok {
          world := w'
          out := {
            r := if hitR then fdsetSet acc.out.r fd else acc.out.r
            w := if hitW then fdsetSet acc.out.w fd else acc.out.w
            e := acc.out.e }
          ready := acc.ready + if hitR || hitW then 1 else 0 } := by
  obtain ⟨hin, hout⟩ := events_bits sets fd
  unfold selectFd afterFd
  cases hw : sets.watched fd with
  | false =>
    obtain ⟨⟨hr, hww⟩, -⟩ : (fdsetTest sets.r fd = false ∧ fdsetTest sets.w fd = false) ∧
        fdsetTest sets.e fd = false := by
      simpa [SelectSets.watched] using hw
    simp [hr, hww]
  | true =>
    have hself : inReady depth acc.world fd = match inputHalf (watchedAt depth) acc.world e with
        | none => false
        | some out => raised out.2 (linuxPollin ||| linuxPollhup) := by
      unfold inReady
      rw [hfd]
    rw [if_neg (by decide), if_neg (by decide), hfd]
    dsimp only
    unfold PollWorld.pollFdRevents reventsWith
    dsimp only
    rw [hin, hout, hself]
    by_cases hask : (fdsetTest sets.r fd || fdsetTest sets.e fd) = true
    · rw [if_pos hask]
      cases hhalf : inputHalf (watchedAt depth) acc.world e with
      | none => rfl
      | some out =>
        obtain ⟨w', inp⟩ := out
        obtain ⟨hbr, hbw, hbe⟩ := answer_bits (fdsetTest sets.w fd) hhalf
        have houtself : outReady w' fd = raised (outputHalf w' e) (linuxPollout ||| linuxPollerr) := by
          unfold outReady
          rw [kept_fd.input (kept_fd.watches depth) hhalf, hfd]
        dsimp only [map_some]
        rw [hbr, hbw, hbe, houtself]
        cases fdsetTest sets.w fd <;> simp [Bool.and_comm]
    · obtain ⟨hr, he⟩ : fdsetTest sets.r fd = false ∧ fdsetTest sets.e fd = false := by simpa using hask
      have hww : fdsetTest sets.w fd = true := by simpa [SelectSets.watched, hr, he] using hw
      have houtself : outReady acc.world fd = raised (outputHalf acc.world e) (linuxPollout ||| linuxPollerr) := by
        unfold outReady
        rw [hfd]
      rw [if_neg hask, if_pos hww, hr, he, hww]
      dsimp only [map_some]
      rw [houtself]
      simp

/-! ## The loop over the descriptors -/

def hitR (depth : ℕ) (sets : SelectSets) (w : PollWorld) (fd : ℕ) : Bool :=
  fdsetTest sets.r fd && (turn depth sets w fd).any (inReady depth · fd)

/-- Is a descriptor found ready for output when it was polled for input? -/
def hitW (depth : ℕ) (sets : SelectSets) (w : PollWorld) (fd : ℕ) : Bool :=
  fdsetTest sets.w fd && (turn depth sets w (fd + 1)).any (outReady · fd)

theorem turn_succ (depth : ℕ) (sets : SelectSets) (w : PollWorld) (n : ℕ) :
    turn depth sets w (n + 1) = (turn depth sets w n).bind (afterFd depth sets · n) := by
  unfold turn
  rw [range_succ, foldlM_append]
  cases (List.range n).foldlM (afterFd depth sets) w with
  | none => rfl
  | some v => simp

variable {n : ℕ}

theorem turn_fd (h : turn depth sets w n = some w') : w'.fd = w.fd := by
  induction n generalizing w' with
  | zero => rw [← Option.some.inj h]
  | succ n ih =>
    rw [turn_succ] at h
    obtain ⟨v, hv, hn⟩ := Option.bind_eq_some_iff.mp h
    exact (afterFd_fd hn).trans (ih hv)

/-- What the loop has found below `n`. -/
structure Scanned (depth : ℕ) (sets : SelectSets) (w : PollWorld) (n : ℕ) (acc : SelectAcc) : Prop where
  world : turn depth sets w n = some acc.world
  reads : ∀ fd, fdsetTest acc.out.r fd = (decide (fd < n) && hitR depth sets w fd)
  writes : ∀ fd, fdsetTest acc.out.w fd = (decide (fd < n) && hitW depth sets w fd)
  excepts : acc.out.e = noFds
  ready : acc.ready = (List.range n).countP fun fd => hitR depth sets w fd || hitW depth sets w fd

/-- A set that `hit` decides about at one more descriptor. -/
theorem fdsetTest_step {s : FdBytes} (hn : n < edgeSelectFdMax) {hit : ℕ → Bool}
    (hs : ∀ fd, fdsetTest s fd = (decide (fd < n) && hit fd)) (fd : ℕ) :
    fdsetTest (if hit n = true then fdsetSet s n else s) fd = (decide (fd < n + 1) && hit fd) := by
  by_cases he : fd = n
  · subst he
    cases hh : hit fd with
    | false => simp [hs, hh]
    | true => simp [fdsetTest_set s hn]
  have hlt : decide (fd < n + 1) = decide (fd < n) := by
    rw [decide_eq_decide]
    omega
  rw [hlt, ← hs fd]
  split_ifs
  · simp [fdsetTest_set s hn, he]
  · rfl

theorem Scanned.next (h : Scanned depth sets w n acc) (hn : n < edgeSelectFdMax) (hfd : w.fd n = some e) :
    match turn depth sets w (n + 1) with
    | none => selectFd depth sets acc n = .error .stack
    | some _ => ∃ acc', selectFd depth sets acc n = .ok acc' ∧ Scanned depth sets w (n + 1) acc' := by
  have hfd' : acc.world.fd n = some e := by rw [turn_fd h.world, hfd]
  have hturn : turn depth sets w (n + 1) = afterFd depth sets acc.world n := by
    rw [turn_succ, h.world, Option.bind_some]
  rw [selectFd_eq hfd', hturn]
  cases ha : afterFd depth sets acc.world n with
  | none => rfl
  | some w' =>
    rw [ha] at hturn
    have hr : (fdsetTest sets.r n && inReady depth acc.world n) = hitR depth sets w n := by
      unfold hitR
      rw [h.world, any_some]
    have hw : (fdsetTest sets.w n && outReady w' n) = hitW depth sets w n := by
      unfold hitW
      rw [hturn, any_some]
    dsimp only
    rw [hr, hw]
    refine ⟨_, rfl, hturn, fdsetTest_step hn h.reads, fdsetTest_step hn h.writes, h.excepts, ?_⟩
    rw [range_succ, countP_append, ← h.ready, countP_singleton]

theorem selectScan_spec (hn : n ≤ edgeSelectFdMax) (hopen : ∀ fd < n, (w.fd fd).isSome) : match turn depth sets w n with
    | none => selectScan depth sets n w = .error .stack
    | some _ => ∃ acc, selectScan depth sets n w = .ok acc ∧ Scanned depth sets w n acc := by
  unfold selectScan
  induction n with
  | zero => exact ⟨_, rfl, rfl, fun fd => by simp, fun fd => by simp, rfl, rfl⟩
  | succ n ih =>
    obtain ⟨e, he⟩ := Option.isSome_iff_exists.mp (hopen n n.lt_succ_self)
    have ih := ih (by omega) fun fd hfd => hopen fd (by omega)
    rw [range_succ, foldlM_append]
    cases ht : turn depth sets w n with
    | none =>
      rw [ht] at ih
      rw [turn_succ, ht, ih]
      rfl
    | some v =>
      rw [ht] at ih
      obtain ⟨acc, hacc, hs⟩ := ih
      have hnext := hs.next hn he
      rw [hacc]
      cases ht' : turn depth sets w (n + 1) with
      | none =>
        rw [ht'] at hnext
        change (selectFd depth sets acc n >>= pure) = _
        rw [hnext]
        rfl
      | some v' =>
        rw [ht'] at hnext
        obtain ⟨acc', hacc', hs'⟩ := hnext
        refine ⟨acc', ?_, hs'⟩
        change (selectFd depth sets acc n >>= pure) = _
        rw [hacc']
        rfl

/-! ## A call that does not wait -/

def UserFdSet.valid (s : FdBytes) : UserFdSet := { bytes := s }

/-- The bytes that count for `n` descriptors. -/
def fdBytes (n : ℕ) : ℕ := (n + 7) / 8

def has (s : Option FdBytes) (fd : ℕ) : Bool := s.any (fdsetTest · fd)

def copied (n : ℕ) : Option FdBytes → FdBytes
  | none => noFds
  | some s => if fdBytes n = 0 then noFds else fun i => if i < fdBytes n then s i else 0

def asked (n : ℕ) (r w e : Option FdBytes) : SelectSets := ⟨copied n r, copied n w, copied n e⟩

def returned (n : ℕ) (out : FdBytes) (s : Option FdBytes) : Option FdBytes :=
  s.map fun s => if fdBytes n = 0 then s else fun i => if i < fdBytes n then out i else s i

theorem fdsetTest_copied (hfd : fd < n) (s : Option FdBytes) : fdsetTest (copied n s) fd = has s fd := by
  have hpos : fdBytes n ≠ 0 := by unfold fdBytes; omega
  have hlt : fd / 8 < fdBytes n := by unfold fdBytes; omega
  cases s with
  | none => exact fdsetTest_noFds fd
  | some s =>
    unfold copied has fdsetTest
    simp only [if_neg hpos, any_some, if_pos hlt]

theorem has_returned (hfd : fd < n) (out : FdBytes) (s : Option FdBytes) :
    has (returned n out s) fd = (s.isSome && fdsetTest out fd) := by
  have hpos : fdBytes n ≠ 0 := by unfold fdBytes; omega
  have hlt : fd / 8 < fdBytes n := by unfold fdBytes; omega
  cases s with
  | none => rfl
  | some s =>
    unfold returned has fdsetTest
    simp only [if_neg hpos, map_some, any_some, Option.isSome_some, Bool.true_and, if_pos hlt]

theorem copyInFds_valid (n : ℕ) (s : Option FdBytes) :
    copyInFds (fdBytes n) (s.map UserFdSet.valid) = .ok (copied n s) := by
  cases s with
  | none => rfl
  | some s =>
    unfold copyInFds copied
    dsimp only [map_some]
    rw [if_pos (show (UserFdSet.valid s).readable = true from rfl)]
    split_ifs <;> rfl

theorem copyOutFds_valid (n : ℕ) (out : FdBytes) (s : Option FdBytes) :
    copyOutFds (fdBytes n) out (s.map UserFdSet.valid) = .ok (returned n out s) := by
  cases s with
  | none => rfl
  | some s =>
    unfold copyOutFds returned
    dsimp only [map_some]
    rw [if_pos (show (UserFdSet.valid s).writable = true from rfl)]
    split_ifs <;> rfl

def atOnce : UserTime := { sec := 0, frac := 0 }

variable {perMs : ℤ}

theorem selectTimeoutMs_atOnce (hms : 0 < perMs) : selectTimeoutMs perMs (some atOnce) = .ok 0 := by
  have hle : ¬ perMs * 1000 ≤ 0 := by omega
  unfold selectTimeoutMs atOnce
  simp [hle]

theorem selectCall_atOnce (hms : 0 < perMs) (hn : n ≤ edgeSelectFdMax)
    (r w e : Option FdBytes) (expired : Bool) (world : PollWorld) :
    selectCall depth perMs n (r.map UserFdSet.valid) (w.map UserFdSet.valid) (e.map UserFdSet.valid) (some atOnce)
        (.ok ()) false expired world =
      match selectScan depth (asked n r w e) n world with
      | .error stop => .error stop
      | .ok acc => .ok (some ⟨acc.ready, returned n acc.out.r r, returned n acc.out.w w, returned n acc.out.e e⟩) := by
  have hrange : ¬ ((n : ℤ) < 0 ∨ (edgeSelectFdMax : ℤ) < n) := by omega
  have hbytes : ((n : ℤ).toNat + 7) / 8 = fdBytes n := rfl
  unfold selectCall
  rw [if_neg hrange]
  dsimp only
  rw [hbytes, copyInFds_valid, copyInFds_valid, copyInFds_valid, selectTimeoutMs_atOnce hms]
  dsimp only [bind, Except.bind, pure, Except.pure]
  rw [if_neg Bool.false_ne_true, Int.toNat_natCast]
  change (match selectScan depth (asked n r w e) n world with
    | .error stop => _
    | .ok acc => _) = _
  cases selectScan depth (asked n r w e) n world with
  | error stop => rfl
  | ok acc =>
    dsimp only
    rw [if_neg (by simp), copyOutFds_valid, copyOutFds_valid, copyOutFds_valid]

/-! ## The calls and `poll` -/

/-- `poll` answers for one descriptor with one of the flags. -/
def PollSays (depth : ℕ) (world : PollWorld) (fd : ℕ) (events flags : BitVec 16) : Prop :=
  ∃ world' rev k, pollScan depth [((fd : ℤ), events)] world = some (world', [rev], k) ∧ raised rev flags = true

/-- The three calls agree about the descriptors below `n`. -/
def CallsAgree (depth n : ℕ) (r w e : Option FdBytes) (world : PollWorld) : Prop :=
  ∃ out : SelectResult,
    (∀ expired, doSysSelect depth n (r.map UserFdSet.valid) (w.map UserFdSet.valid) (e.map UserFdSet.valid)
        (some atOnce) false expired world = .ok (some out)) ∧
    (∀ expired, doSysPselect6 depth n (r.map UserFdSet.valid) (w.map UserFdSet.valid) (e.map UserFdSet.valid)
        (some atOnce) (.ok ()) false expired world = .ok (some out)) ∧
    (∀ fd < n, (has out.r fd = true ↔ has r fd = true ∧
        PollSays depth world fd linuxPollin (linuxPollin ||| linuxPollhup ||| linuxPollerr)) ∧
      (has out.w fd = true ↔ has w fd = true ∧
        PollSays depth world fd linuxPollout (linuxPollout ||| linuxPollerr ||| linuxPollhup)) ∧
      (has out.e fd = true → has e fd = true)) ∧
    out.ready = (List.range n).countP (has out.r) + (List.range n).countP (has out.w) +
      (List.range n).countP (has out.e)

/-- The kernel stack is large enough for the epoll objects, no descriptor is ready both for the input and for the output
that it is asked about, and polling the descriptors in order changes for none of them whether it is ready. -/
structure OneAnswerEach (depth n : ℕ) (r w e : Option FdBytes) (world : PollWorld) : Prop where
  stack : (turn depth (asked n r w e) world n).isSome
  single : ∀ fd < n, ¬ ((has r fd && inReady depth world fd) = true ∧ (has w fd && outReady world fd) = true)
  input : ∀ fd < n, has r fd = true → ∀ v, turn depth (asked n r w e) world fd = some v →
    inReady depth v fd = inReady depth world fd
  output : ∀ fd < n, has w fd = true → ∀ v, turn depth (asked n r w e) world (fd + 1) = some v →
    outReady v fd = outReady world fd

section Agreement

variable {depth n fd : ℕ} {r w e : Option FdBytes} {world : PollWorld} {t : PollTarget}

theorem pollScan_one (hfd : world.fd fd = some t) (events : BitVec 16) : pollScan depth [((fd : ℤ), events)] world =
      (world.pollFdRevents depth (some t) events).map fun out => (out.1, [out.2], if out.2 ≠ 0 then 1 else 0) := by
  have hneg : ¬ (fd : ℤ) < 0 := by omega
  have hat : world.fdAt fd = some t := by
    unfold fdAt
    rw [if_pos (by omega), Int.toNat_natCast, hfd]
  unfold pollScan
  rw [if_neg hneg, hat]
  cases world.pollFdRevents depth (some t) events with
  | none => rfl
  | some out => simp [pollScan]

theorem pollSays_in (hfd : world.fd fd = some t) :
    PollSays depth world fd linuxPollin (linuxPollin ||| linuxPollhup ||| linuxPollerr) ↔
      inReady depth world fd = true := by
  have hin : raised linuxPollin (linuxPollin ||| linuxPollpri) = true := by decide
  have hout : raised linuxPollin linuxPollout = false := by decide
  unfold PollSays inReady
  rw [pollScan_one hfd, hfd]
  unfold PollWorld.pollFdRevents reventsWith
  dsimp only
  rw [if_pos hin, hout]
  cases hh : inputHalf (watchedAt depth) world t with
  | none => simp
  | some out =>
    have hbits := (answer_bits false hh).1
    dsimp only
    constructor
    · rintro ⟨world', rev, k, h, hrev⟩
      obtain ⟨-, hrest⟩ := Prod.mk.inj (Option.some.inj h)
      obtain rfl := (cons.inj (Prod.mk.inj hrest).1).1
      exact hbits.symm.trans hrev
    · intro h
      exact ⟨_, _, _, rfl, hbits.trans h⟩

theorem pollSays_out (hfd : world.fd fd = some t) :
    PollSays depth world fd linuxPollout (linuxPollout ||| linuxPollerr ||| linuxPollhup) ↔
      outReady world fd = true := by
  have hin : ¬ raised linuxPollout (linuxPollin ||| linuxPollpri) = true := by decide
  have hout : raised linuxPollout linuxPollout = true := by decide
  have hbits : raised (outputHalf world t) (linuxPollout ||| linuxPollerr ||| linuxPollhup) =
      raised (outputHalf world t) (linuxPollout ||| linuxPollerr) := by
    rw [raised_or_right _ _ linuxPollhup, (outputHalf_bits world t).2.1, Bool.or_false]
  unfold PollSays outReady
  rw [pollScan_one hfd, hfd]
  unfold PollWorld.pollFdRevents reventsWith
  dsimp only
  rw [if_neg hin, if_pos hout]
  constructor
  · rintro ⟨world', rev, k, h, hrev⟩
    obtain ⟨-, hrest⟩ := Prod.mk.inj (Option.some.inj h)
    obtain rfl := (cons.inj (Prod.mk.inj hrest).1).1
    exact hbits.symm.trans hrev
  · intro h
    exact ⟨_, _, _, rfl, hbits.trans h⟩

variable {sets : SelectSets} {m : ℕ}

theorem turn_isSome (hm : m ≤ n) (h : (turn depth sets world n).isSome) : (turn depth sets world m).isSome := by
  induction n, hm using Nat.le_induction with
  | base => exact h
  | succ n _ ih =>
    rw [turn_succ] at h
    exact ih (Option.isSome_of_isSome_bind h)

/-- What a call that does not wait leaves, given what its loop has found. -/
def SelectAcc.result (acc : SelectAcc) (n : ℕ) (r w e : Option FdBytes) : SelectResult :=
  ⟨acc.ready, returned n acc.out.r r, returned n acc.out.w w, returned n acc.out.e e⟩

variable {acc : SelectAcc}

theorem Scanned.has_r (h : Scanned depth (asked n r w e) world n acc) (hfd : fd < n) : has (acc.result n r w e).r fd =
      (has r fd && (turn depth (asked n r w e) world fd).any (inReady depth · fd)) := by
  have hr : fdsetTest (asked n r w e).r fd = has r fd := fdsetTest_copied hfd r
  unfold SelectAcc.result
  rw [has_returned hfd, h.reads, hitR, hr, decide_eq_true hfd, Bool.true_and, ← Bool.and_assoc]
  cases r with
  | none => rfl
  | some r => rfl

theorem Scanned.has_w (h : Scanned depth (asked n r w e) world n acc) (hfd : fd < n) : has (acc.result n r w e).w fd =
      (has w fd && (turn depth (asked n r w e) world (fd + 1)).any (outReady · fd)) := by
  have hw : fdsetTest (asked n r w e).w fd = has w fd := fdsetTest_copied hfd w
  unfold SelectAcc.result
  rw [has_returned hfd, h.writes, hitW, hw, decide_eq_true hfd, Bool.true_and, ← Bool.and_assoc]
  cases w with
  | none => rfl
  | some w => rfl

theorem Scanned.has_e (h : Scanned depth (asked n r w e) world n acc) (hfd : fd < n) :
    has (acc.result n r w e).e fd = false := by
  unfold SelectAcc.result
  rw [has_returned hfd, h.excepts, fdsetTest_noFds, Bool.and_false]

/-- The count that is returned misses one bit for each descriptor that is in two of the sets. -/
theorem Scanned.ready_add (h : Scanned depth (asked n r w e) world n acc) :
    acc.ready + (List.range n).countP (fun fd => has (acc.result n r w e).r fd && has (acc.result n r w e).w fd) =
      (List.range n).countP (has (acc.result n r w e).r) + (List.range n).countP (has (acc.result n r w e).w) +
        (List.range n).countP (has (acc.result n r w e).e) := by
  have hnone : (List.range n).countP (has (acc.result n r w e).e) = 0 := by
    rw [countP_eq_zero]
    intro fd hfd
    rw [h.has_e (mem_range.mp hfd)]
    exact Bool.false_ne_true
  have hready : acc.ready =
      (List.range n).countP fun fd => has (acc.result n r w e).r fd || has (acc.result n r w e).w fd := by
    rw [h.ready]
    refine countP_congr fun fd hfd => ?_
    have hfd := mem_range.mp hfd
    have hr : fdsetTest (asked n r w e).r fd = has r fd := fdsetTest_copied hfd r
    have hw : fdsetTest (asked n r w e).w fd = has w fd := fdsetTest_copied hfd w
    rw [h.has_r hfd, h.has_w hfd, hitR, hitW, hr, hw]
  rw [hnone, hready, Nat.add_zero, ← countP_add_countP]

theorem calls_atOnce (hn : n ≤ edgeSelectFdMax) (hopen : ∀ fd < n, (world.fd fd).isSome) (expired : Bool) :
    match turn depth (asked n r w e) world n with
    | none =>
      doSysSelect depth n (r.map UserFdSet.valid) (w.map UserFdSet.valid) (e.map UserFdSet.valid) (some atOnce) false
        expired world = .error .stack
    | some _ => ∃ acc, Scanned depth (asked n r w e) world n acc ∧
      (∀ expired, doSysSelect depth n (r.map UserFdSet.valid) (w.map UserFdSet.valid) (e.map UserFdSet.valid)
        (some atOnce) false expired world = .ok (some (acc.result n r w e))) ∧
      ∀ expired, doSysPselect6 depth n (r.map UserFdSet.valid) (w.map UserFdSet.valid) (e.map UserFdSet.valid)
        (some atOnce) (.ok ()) false expired world = .ok (some (acc.result n r w e)) := by
  have hspec : match turn depth (asked n r w e) world n with
      | none => selectScan depth (asked n r w e) n world = .error .stack
      | some _ => ∃ acc, selectScan depth (asked n r w e) n world = .ok acc ∧
          Scanned depth (asked n r w e) world n acc := selectScan_spec hn hopen
  cases ht : turn depth (asked n r w e) world n with
  | none =>
    rw [ht] at hspec
    dsimp only at hspec ⊢
    unfold doSysSelect
    rw [selectCall_atOnce (by decide) hn, hspec]
  | some v =>
    rw [ht] at hspec
    obtain ⟨acc, hacc, hs⟩ := hspec
    refine ⟨acc, hs, fun expired => ?_, fun expired => ?_⟩
    · unfold doSysSelect
      rw [selectCall_atOnce (by decide) hn, hacc]
      rfl
    · unfold doSysPselect6
      rw [selectCall_atOnce (by decide) hn, hacc]
      rfl

theorem says_ready (hopen : ∀ fd < n, (world.fd fd).isSome) (hfd : fd < n) :
    (PollSays depth world fd linuxPollin (linuxPollin ||| linuxPollhup ||| linuxPollerr) ↔
      inReady depth world fd = true) ∧
    (PollSays depth world fd linuxPollout (linuxPollout ||| linuxPollerr ||| linuxPollhup) ↔
      outReady world fd = true) := by
  obtain ⟨t, ht⟩ := Option.isSome_iff_exists.mp (hopen fd hfd)
  exact ⟨pollSays_in ht, pollSays_out ht⟩

theorem CallsAgree.oneAnswerEach (h : CallsAgree depth n r w e world) (hn : n ≤ edgeSelectFdMax)
    (hopen : ∀ fd < n, (world.fd fd).isSome) : OneAnswerEach depth n r w e world := by
  obtain ⟨out, hsel, -, hsets, hcount⟩ := h
  have hrun := @calls_atOnce depth n r w e world hn hopen false
  cases hturn : turn depth (asked n r w e) world n with
  | none =>
    rw [hturn] at hrun
    exact absurd ((hsel false).symm.trans hrun) (by simp)
  | some v =>
    rw [hturn] at hrun
    obtain ⟨acc, hs, hsel', -⟩ := hrun
    obtain rfl : acc.result n r w e = out := by
      have := (hsel' false).symm.trans (hsel false)
      simpa using this
    have hr : ∀ fd < n, has (acc.result n r w e).r fd = true ↔ has r fd = true ∧ inReady depth world fd = true :=
      fun fd hfd => (hsets fd hfd).1.trans (and_congr_right fun _ => (says_ready hopen hfd).1)
    have hw : ∀ fd < n, has (acc.result n r w e).w fd = true ↔ has w fd = true ∧ outReady world fd = true :=
      fun fd hfd => (hsets fd hfd).2.1.trans (and_congr_right fun _ => (says_ready hopen hfd).2)
    have hzero : (List.range n).countP (fun fd => has (acc.result n r w e).r fd && has (acc.result n r w e).w fd) =
        0 := by
      have hadd := hs.ready_add
      have hready : acc.ready = (acc.result n r w e).ready := rfl
      omega
    refine ⟨by rw [hturn]; rfl, fun fd hfd hboth => ?_, fun fd hfd hask v hv => ?_, fun fd hfd hask v hv => ?_⟩
    · have hnot := countP_eq_zero.mp hzero fd (mem_range.mpr hfd)
      rw [(hr fd hfd).mpr (Bool.and_eq_true_iff.mp hboth.1), (hw fd hfd).mpr (Bool.and_eq_true_iff.mp hboth.2)] at hnot
      exact hnot rfl
    · have hiff := hr fd hfd
      rw [hs.has_r hfd, hask, hv, any_some, Bool.true_and, and_iff_right rfl] at hiff
      exact Bool.eq_iff_iff.mpr hiff
    · have hiff := hw fd hfd
      rw [hs.has_w hfd, hask, hv, any_some, Bool.true_and, and_iff_right rfl] at hiff
      exact Bool.eq_iff_iff.mpr hiff

theorem OneAnswerEach.callsAgree (h : OneAnswerEach depth n r w e world) (hn : n ≤ edgeSelectFdMax)
    (hopen : ∀ fd < n, (world.fd fd).isSome) : CallsAgree depth n r w e world := by
  obtain ⟨v, hturn⟩ := Option.isSome_iff_exists.mp h.stack
  have hrun := @calls_atOnce depth n r w e world hn hopen false
  rw [hturn] at hrun
  obtain ⟨acc, hs, hsel, hpsel⟩ := hrun
  have hr : ∀ fd < n, has (acc.result n r w e).r fd = (has r fd && inReady depth world fd) := by
    intro fd hfd
    obtain ⟨u, hu⟩ := Option.isSome_iff_exists.mp (turn_isSome (Nat.le_of_lt hfd) h.stack)
    rw [hs.has_r hfd, hu, any_some]
    cases hask : has r fd with
    | false => rfl
    | true => rw [h.input fd hfd hask u hu]
  have hw : ∀ fd < n, has (acc.result n r w e).w fd = (has w fd && outReady world fd) := by
    intro fd hfd
    obtain ⟨u, hu⟩ := Option.isSome_iff_exists.mp (turn_isSome hfd h.stack)
    rw [hs.has_w hfd, hu, any_some]
    cases hask : has w fd with
    | false => rfl
    | true => rw [h.output fd hfd hask u hu]
  have hzero : (List.range n).countP (fun fd => has (acc.result n r w e).r fd && has (acc.result n r w e).w fd) =
      0 := by
    refine countP_eq_zero.mpr fun fd hfd hboth => ?_
    have hfd := mem_range.mp hfd
    rw [hr fd hfd, hw fd hfd] at hboth
    exact h.single fd hfd (Bool.and_eq_true_iff.mp hboth)
  refine ⟨_, hsel, hpsel, fun fd hfd => ⟨?_, ?_, fun he => ?_⟩, ?_⟩
  · rw [hr fd hfd, (says_ready hopen hfd).1, Bool.and_eq_true]
  · rw [hw fd hfd, (says_ready hopen hfd).2, Bool.and_eq_true]
  · rw [hs.has_e hfd] at he
    exact absurd he Bool.false_ne_true
  · rw [← hs.ready_add, hzero]
    rfl

/-- Of the packets that wait before the call, polling any of the descriptors takes none. -/
def TakesNothing (depth n : ℕ) (sets : SelectSets) (world : PollWorld) : Prop :=
  ∀ fd < n, ∀ v, afterFd depth sets world fd = some v → v = world

theorem TakesNothing.turn_eq (hq : TakesNothing depth n sets world) (hm : m ≤ n) {v : PollWorld}
    (h : turn depth sets world m = some v) : v = world := by
  induction m generalizing v with
  | zero => exact (Option.some.inj h).symm
  | succ m ih =>
    rw [turn_succ] at h
    obtain ⟨u, hu, hv⟩ := Option.bind_eq_some_iff.mp h
    obtain rfl := ih (Nat.le_of_succ_le hm) hu
    exact hq m hm v hv

/-- Then no poll disturbs another. -/
theorem TakesNothing.oneAnswerEach_iff (hq : TakesNothing depth n (asked n r w e) world) :
    OneAnswerEach depth n r w e world ↔ (turn depth (asked n r w e) world n).isSome ∧
      ∀ fd < n, ¬ ((has r fd && inReady depth world fd) = true ∧ (has w fd && outReady world fd) = true) := by
  constructor
  · intro h
    exact ⟨h.stack, h.single⟩
  · rintro ⟨hstack, hsingle⟩
    refine ⟨hstack, hsingle, fun fd hfd _ v hv => ?_, fun fd hfd _ v hv => ?_⟩
    · rw [hq.turn_eq hfd.le hv]
    · rw [hq.turn_eq hfd hv]

theorem PollWorld.NoPackets.takesNothing (hq : NoPackets world) : TakesNothing depth n sets world := by
  intro fd _ v hv
  unfold afterFd at hv
  split_ifs at hv
  · exact (Option.some.inj hv).symm
  · obtain ⟨out, ho, rfl⟩ := Option.map_eq_some_iff.mp hv
    exact kept_noPackets.poll ho hq

/-- The calls agree, and count right, exactly when each descriptor is ready for one thing only and no poll disturbs
another. -/
theorem calls_agree_iff (hn : n ≤ edgeSelectFdMax) (hopen : ∀ fd < n, (world.fd fd).isSome) :
    CallsAgree depth n r w e world ↔ OneAnswerEach depth n r w e world :=
  ⟨fun h => h.oneAnswerEach hn hopen, fun h => h.callsAgree hn hopen⟩

end Agreement

def twoFiles : PollWorld where
  fd fd := if fd < 2 then some .vfs else none
  sock _ := {}

/-- Waiting to read from the one and to write to the other. -/
theorem twoFiles_agree : CallsAgree 0 2 (some (fdsetSet noFds 0)) (some (fdsetSet noFds 1)) none twoFiles := by
  have hno : NoPackets twoFiles := ⟨rfl, rfl, rfl⟩
  exact (calls_agree_iff (by decide) (by decide)).mpr (hno.takesNothing.oneAnswerEach_iff.mpr (by decide))

/-- A file that is in both sets is counted once. -/
theorem bothSets_not_agree : ¬ ∀ (depth n : ℕ) (r w e : Option FdBytes) (world : PollWorld), n ≤ edgeSelectFdMax →
      (∀ fd < n, (world.fd fd).isSome) → CallsAgree depth n r w e world := by
  intro h
  have hagree := h 0 1 (some (fdsetSet noFds 0)) (some (fdsetSet noFds 0)) none twoFiles (by decide) (by decide)
  exact (hagree.oneAnswerEach (by decide) (by decide)).single 0 (by decide) (by decide)

end EdgeOS
