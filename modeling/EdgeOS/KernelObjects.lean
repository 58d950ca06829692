import EdgeOS.Lib.RingBuffer
import Mathlib.Data.Int.Order.Basic
import Mathlib.Data.List.Range
import Mathlib.Logic.Function.Basic

namespace EdgeOS

/-!
The objects behind descriptors (`src/sys/syscall.c`): pipes, pseudo terminals, sockets and
the four counted special objects, each in a static table of its own.
-/

/-- `EDGE_MAX_PIPES`, `EDGE_MAX_PTYS`, `EDGE_MAX_SOCKETS`, `EDGE_SOCK_ACCEPTQ`. -/
abbrev edgeMaxPipes : ℕ := 32
abbrev edgeMaxPtys : ℕ := 16
abbrev edgeMaxSockets : ℕ := 32
abbrev edgeSockAcceptq : ℕ := 8

/-- `edge_fd_kind_t`. -/
inductive FdKind
  | none | console | vfs | pipeR | pipeW | socket | ptyMaster | ptySlave
  | eventfd | timerfd | signalfd | epoll | pidfd
  deriving DecidableEq, Repr

/-- `used` and `refs` of `edge_eventfd_t`, `edge_timerfd_t`, `edge_signalfd_t`,
`edge_epoll_t` and `edge_file_ref_t`. -/
structure RefObj where
  used : Bool := false
  refs : ℕ := 0
  deriving DecidableEq, Repr

/-- `edge_pipe_t`; `ring` is its cursors, counter and buffer. -/
structure Pipe where
  used : Bool := false
  readers : ℕ := 0
  writers : ℕ := 0
  ring : Lib.RingBuffer UInt8 := .empty 0

/-- `edge_pty_t`, less its terminal settings and buffers. -/
structure Pty where
  used : Bool := false
  refsMaster : ℕ := 0
  refsSlave : ℕ := 0
  unlocked : Bool := false
  fgPgid : ℤ := 0
  deriving DecidableEq, Repr

/-- `edge_socket_t`, less addresses, buffers and timeouts. `pending` is the ring of
`pending_sock_ids`, oldest first; `hasPcb` says whether `lwip_pcb` is set. -/
structure Socket where
  used : Bool := false
  refs : ℕ := 0
  domain : ℤ := 0
  type : ℤ := 0
  protocol : ℤ := 0
  nonblock : Bool := false
  connected : Bool := false
  closed : Bool := false
  hasPcb : Bool := false
  unixPeerId : ℤ := 0
  listening : Bool := false
  backlog : ℤ := 0
  pending : List ℕ := []
  deriving DecidableEq, Repr

/-- The four special kinds, whose tables work alike. -/
inductive SpecialKind
  | eventfd | timerfd | signalfd | epoll
  deriving DecidableEq, Repr

/-- `EDGE_MAX_EVENTFDS`, `EDGE_MAX_TIMERFDS`, `EDGE_MAX_SIGNALFDS`, `EDGE_MAX_EPOLLS`. -/
def SpecialKind.max : SpecialKind → ℕ
  | .eventfd | .timerfd | .signalfd => 64
  | .epoll => 32

/-- `g_pipes`, `g_ptys`, `g_sockets`, `g_eventfds`, `g_timerfds`, `g_signalfds`,
`g_epolls`. -/
structure Objects where
  pipes : ℕ → Pipe := fun _ => {}
  ptys : ℕ → Pty := fun _ => {}
  sockets : ℕ → Socket := fun _ => {}
  special : SpecialKind → ℕ → RefObj := fun _ _ => {}

namespace Objects

variable (o : Objects) (i : ℕ)

/-! Writing one entry of a table. -/

def setPipe (x : Pipe) : Objects := { o with pipes := Function.update o.pipes i x }

def setPty (x : Pty) : Objects := { o with ptys := Function.update o.ptys i x }

def setSocket (x : Socket) : Objects := { o with sockets := Function.update o.sockets i x }

def setSpecial (k : SpecialKind) (x : RefObj) : Objects :=
  { o with special := Function.update o.special k (Function.update (o.special k) i x) }

end Objects

/-- The scan of the `_alloc` functions for an entry that is not in use. -/
def firstFree (n : ℕ) (used : ℕ → Bool) : Option ℕ := (List.range n).find? fun i => !used i

def tableIndex (n : ℕ) (id : ℤ) : Option ℕ := if 0 ≤ id ∧ id < n then some id.toNat else none

theorem firstFree_some {n : ℕ} {used : ℕ → Bool} {i : ℕ} (h : firstFree n used = some i) : used i = false ∧ i < n := by
  have h1 := List.find?_some h
  have h2 := List.mem_of_find?_eq_some h
  exact ⟨by simpa using h1, List.mem_range.mp h2⟩

theorem tableIndex_some {n i : ℕ} {id : ℤ} (h : tableIndex n id = some i) : id = i ∧ i < n := by
  unfold tableIndex at h
  split_ifs at h with hid
  obtain rfl := Option.some.inj h
  omega

theorem tableIndex_cast {n i : ℕ} (h : i < n) : tableIndex n i = some i := by
  unfold tableIndex
  rw [if_pos (by omega)]
  simp

/-! ## Pipes and pseudo terminals -/

def pipeAlloc (o : Objects) : Objects × Option ℕ :=
  match firstFree edgeMaxPipes fun i => (o.pipes i).used with
  | some i => (o.setPipe i { used := true }, some i)
  | none => (o, none)

/-- The end of `pipe_drop_reader` and `pipe_drop_writer`. -/
def Pipe.reclaim (p : Pipe) : Pipe := if p.readers = 0 ∧ p.writers = 0 then {} else p

def pipeDropReader (o : Objects) (id : ℤ) : Objects :=
  match tableIndex edgeMaxPipes id with
  | none => o
  | some i =>
    if !(o.pipes i).used then o else
    o.setPipe i { o.pipes i with readers := (o.pipes i).readers - 1 }.reclaim

def pipeDropWriter (o : Objects) (id : ℤ) : Objects :=
  match tableIndex edgeMaxPipes id with
  | none => o
  | some i =>
    if !(o.pipes i).used then o else
    o.setPipe i { o.pipes i with writers := (o.pipes i).writers - 1 }.reclaim

def ptyAlloc (o : Objects) : Objects × Option ℕ :=
  match firstFree edgeMaxPtys fun i => (o.ptys i).used with
  | some i => (o.setPty i { used := true, refsMaster := 1 }, some i)
  | none => (o, none)

def ptyAddRef (o : Objects) (id : ℤ) (isMaster : Bool) : Objects :=
  match tableIndex edgeMaxPtys id with
  | none => o
  | some i =>
    let p := o.ptys i
    if !p.used then o
    else if isMaster then o.setPty i { p with refsMaster := p.refsMaster + 1 }
    else o.setPty i { p with refsSlave := p.refsSlave + 1 }

/-- The end of `pty_drop_ref`. -/
def Pty.reclaim (p : Pty) : Pty := if p.refsMaster = 0 ∧ p.refsSlave = 0 then {} else p

def ptyDropRef (o : Objects) (id : ℤ) (isMaster : Bool) : Objects :=
  match tableIndex edgeMaxPtys id with
  | none => o
  | some i =>
    let p := o.ptys i
    if !p.used then o
    else if isMaster then o.setPty i { p with refsMaster := p.refsMaster - 1 }.reclaim
    else o.setPty i { p with refsSlave := p.refsSlave - 1 }.reclaim

/-! ## Special objects -/

/-- `eventfd_alloc_obj` and its three siblings. -/
def specialAllocObj (k : SpecialKind) (o : Objects) : Objects × Option ℕ :=
  match firstFree k.max fun i => (o.special k i).used with
  | some i => (o.setSpecial i k { used := true, refs := 1 }, some i)
  | none => (o, none)

/-- `eventfd_add_ref` and its three siblings. -/
def specialAddRef (k : SpecialKind) (o : Objects) (id : ℤ) : Objects :=
  match tableIndex k.max id with
  | none => o
  | some i =>
    if !(o.special k i).used then o
    else o.setSpecial i k { used := true, refs := (o.special k i).refs + 1 }

/-- `eventfd_drop_ref` and its three siblings. -/
def specialDropRef (k : SpecialKind) (o : Objects) (id : ℤ) : Objects :=
  match tableIndex k.max id with
  | none => o
  | some i =>
    if !(o.special k i).used then o
    else if (o.special k i).refs ≤ 1 then o.setSpecial i k {}
    else o.setSpecial i k { used := true, refs := (o.special k i).refs - 1 }

def eventfdAllocObj := specialAllocObj .eventfd
def timerfdAllocObj := specialAllocObj .timerfd
def signalfdAllocObj := specialAllocObj .signalfd
def epollAllocObj := specialAllocObj .epoll

/-! ## Sockets -/

/-- `LINUX_AF_UNIX`, `LINUX_AF_INET`, `LINUX_AF_INET6`; `LINUX_SOCK_STREAM`,
`LINUX_SOCK_DGRAM`, `LINUX_SOCK_RAW`. -/
def linuxAfUnix : ℤ := 1
def linuxAfInet : ℤ := 2
def linuxAfInet6 : ℤ := 10
def linuxSockStream : ℤ := 1
def linuxSockDgram : ℤ := 2
def linuxSockRaw : ℤ := 3

def socketPendingDequeue (o : Objects) (i : ℕ) : Objects × Option ℕ :=
  match (o.sockets i).pending with
  | [] => (o, none)
  | sid :: rest => (o.setSocket i { o.sockets i with pending := rest }, some sid)

/-- `socket_pending_enqueue`; `none` when the queue is full. -/
def socketPendingEnqueue (o : Objects) (i sid : ℕ) : Option Objects :=
  if (o.sockets i).pending.length ≥ edgeSockAcceptq then none
  else some (o.setSocket i { o.sockets i with pending := (o.sockets i).pending ++ [sid] })

/-- What `socket_drop_ref` does to the other end of a Unix socket pair. -/
def unixPeerClosed (o : Objects) (i : ℕ) : Objects :=
  if (o.sockets i).domain = linuxAfUnix then
    match tableIndex edgeMaxSockets (o.sockets i).unixPeerId with
    | some j =>
      if (o.sockets j).used then
        o.setSocket j { o.sockets j with closed := true, unixPeerId := -1 }
      else o
    | none => o
  else o

/-- The free slot that `socket_alloc` finds, and the record it puts there. -/
def socketFree (o : Objects) : Option ℕ := firstFree edgeMaxSockets fun i => (o.sockets i).used

def socketClaim (o : Objects) (i : ℕ) : Objects := o.setSocket i { used := true, refs := 1 }

/-- `socket_drop_ref` on a socket that is not listening, or whose queue is empty. -/
def socketFinalDrop (o : Objects) (i : ℕ) : Objects := (unixPeerClosed o i).setSocket i {}

/-- The record that `edge_tcp_accept_cb` makes for a connection to the listener `l`. -/
def acceptedChild (l : Socket) : Socket where
  used := true
  refs := 1
  domain := l.domain
  type := l.type
  protocol := l.protocol
  connected := true
  hasPcb := true

/-- `edge_tcp_accept_cb` for the listener `i`; it runs in interrupt context. The dropped
child of a full queue is a fresh socket with one reference. -/
def edgeTcpAcceptCb (o : Objects) (i : ℕ) : Objects :=
  let l := o.sockets i
  if !l.listening then o else
  match socketFree o with
  | none => o
  | some sid =>
    let o := o.setSocket sid (acceptedChild l)
    match socketPendingEnqueue o i sid with
    | some o => o
    | none => socketFinalDrop o sid

def edgeTcpAcceptCbs (o : Objects) (l : List ℕ) : Objects := l.foldl edgeTcpAcceptCb o

/-- `socket_alloc`. `window` are the accept callbacks that fire between the test of the
slot and its claim: interrupts are on during system calls. -/
def socketAlloc (o : Objects) (window : List ℕ) : Objects × Option ℕ :=
  match socketFree o with
  | none => (o, none)
  | some i => (socketClaim (edgeTcpAcceptCbs o window) i, some i)

def socketAddRef (o : Objects) (id : ℤ) : Objects :=
  match tableIndex edgeMaxSockets id with
  | none => o
  | some i =>
    if !(o.sockets i).used then o
    else o.setSocket i { o.sockets i with refs := (o.sockets i).refs + 1 }

/-- One round of the loop of `socket_drop_ref` over the queue of listener `l`. -/
def drainOne (drop : Objects → ℕ → Objects) (l : ℕ) (o : Objects) : Objects :=
  match socketPendingDequeue o l with
  | (o, some sid) => drop o sid
  | (o, none) => o

/-- `socket_drop_ref`, to a nesting depth that covers every queue of queues. `window i` are
the accept callbacks that fire after the queue of listener `i` has been drained and before
`i` is detached from its control block. -/
def socketDropRef (window : ℕ → List ℕ) : ℕ → Objects → ℤ → Objects
  | 0, o, _ => o
  | n + 1, o, id =>
    match tableIndex edgeMaxSockets id with
    | none => o
    | some i =>
      if !(o.sockets i).used then o
      else if (o.sockets i).refs > 1 then
        o.setSocket i { o.sockets i with refs := (o.sockets i).refs - 1 }
      else
        let o := if (o.sockets i).listening then
            let o := (List.range edgeSockAcceptq).foldl (fun o _ =>
              drainOne (fun o sid => socketDropRef window n o sid) i o) o
            edgeTcpAcceptCbs o (window i)
          else o
        socketFinalDrop o i

/-- The nesting that `socket_drop_ref` can reach. -/
def socketDepth : ℕ := edgeMaxSockets

/-! ## By descriptor kind -/

/-- The list of increments that `do_sys_fcntl`, `do_sys_dup2` and `fd_clone_after_fork`
run for a copied descriptor. The pipe counters are bumped without a look at `used`. -/
def fdAddRef (o : Objects) (kind : FdKind) (id : ℤ) : Objects :=
  match kind with
  | .pipeR => match tableIndex edgeMaxPipes id with
    | none => o
    | some i => o.setPipe i { o.pipes i with readers := (o.pipes i).readers + 1 }
  | .pipeW => match tableIndex edgeMaxPipes id with
    | none => o
    | some i => o.setPipe i { o.pipes i with writers := (o.pipes i).writers + 1 }
  | .socket => socketAddRef o id
  | .ptyMaster => ptyAddRef o id true
  | .ptySlave => ptyAddRef o id false
  | .eventfd => specialAddRef .eventfd o id
  | .timerfd => specialAddRef .timerfd o id
  | .signalfd => specialAddRef .signalfd o id
  | .epoll => specialAddRef .epoll o id
  | .none | .console | .vfs | .pidfd => o

/-- The list of drops that `do_sys_close` and `fd_proc_release` run. -/
def fdDropRef (window : ℕ → List ℕ) (o : Objects) (kind : FdKind) (id : ℤ) : Objects :=
  match kind with
  | .pipeR => pipeDropReader o id
  | .pipeW => pipeDropWriter o id
  | .socket => socketDropRef window socketDepth o id
  | .ptyMaster => ptyDropRef o id true
  | .ptySlave => ptyDropRef o id false
  | .eventfd => specialDropRef .eventfd o id
  | .timerfd => specialDropRef .timerfd o id
  | .signalfd => specialDropRef .signalfd o id
  | .epoll => specialDropRef .epoll o id
  | .none | .console | .vfs | .pidfd => o

end EdgeOS
