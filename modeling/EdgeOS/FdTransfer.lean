import EdgeOS.InetSend
import EdgeOS.SharedPosition
import EdgeOS.SpecialTransfer
import EdgeOS.Terminal

namespace EdgeOS

open Lib

/-!
`do_sys_fd_read` and `do_sys_fd_write` by kind of descriptor, with buffers of any address and
length: one stretch of the call, from where it starts or wakes up to where it returns or waits.
-/

/-! ## Pipes with any buffer -/

/-- `do_sys_fd_read` on `FD_PIPE_R`. -/
def pipeReadInto (p : Pipe) (nonblock interrupted : Bool) (buf : ReadBuf) (b : Bounce) : Pipe × Outcome (List UInt8) :=
  if !p.used then (p, .ret (.error .ebadf))
  else if p.ring.count = 0 then
    if p.writers = 0 then (p, .ret (.ok [])) else (p, missing nonblock interrupted)
  else
    let n := min buf.len p.ring.count
    let out := drainInto buf.copied edgePipeSize n n (p.ring, b) 0
    ({ p with ring := out.1 }, .ret (filled n out.2))

/-- The writing loop from byte `i` on, `k` bytes before its end. -/
def pipeWriteLoop (buf : UserBuf) : ℕ → RingBuffer UInt8 → ℕ → RingBuffer UInt8 × Except Errno ℕ
  | 0, r, i => (r, .ok i)
  | k + 1, r, i =>
    match buf.byte i with
    | none => (r, .error .efault)
    | some c => pipeWriteLoop buf k (r.push edgePipeSize c) (i + 1)

/-- `do_sys_fd_write` on `FD_PIPE_W`. `waited` says that the call is inside its loop already. -/
def pipeWriteFrom (p : Pipe) (waited nonblock interrupted : Bool) (buf : UserBuf) : Pipe × Outcome ℕ :=
  if !waited ∧ (!p.used ∨ p.readers = 0) then (p, .ret (.error .epipe))
  else if p.ring.count ≥ edgePipeSize then
    if p.readers = 0 then (p, .ret (.error .epipe)) else (p, missing nonblock interrupted)
  else
    let out := pipeWriteLoop buf (min buf.data.length (edgePipeSize - p.ring.count)) p.ring 0
    ({ p with ring := out.1 }, .ret out.2)

/-- The bytes of a good stretch of the buffer are appended. -/
theorem pipeWriteLoop_good {buf : UserBuf} (k : ℕ) (r : RingBuffer UInt8) (i : ℕ)
    (h : ∀ j, i ≤ j → j < i + k → (buf.byte j).isSome = true) :
    pipeWriteLoop buf k r i = (((buf.data.drop i).take k).foldl (RingBuffer.push edgePipeSize) r, .ok (i + k)) := by
  induction k generalizing r i with
  | zero => rfl
  | succ k ih =>
    obtain ⟨c, hc⟩ := Option.isSome_iff_exists.mp (h i le_rfl (by omega))
    have hget : buf.data[i]? = some c := by
      unfold UserBuf.byte at hc
      split at hc
      · exact hc
      · simp at hc
    obtain ⟨hi, hci⟩ := List.getElem?_eq_some_iff.mp hget
    have hdrop : buf.data.drop i = c :: buf.data.drop (i + 1) := by
      rw [List.drop_eq_getElem_cons hi, hci]
    rw [pipeWriteLoop, hc, hdrop, List.take_succ_cons, List.foldl_cons]
    dsimp only
    rw [ih _ _ fun j hj hjk => h j (by omega) (by omega), Nat.add_assoc, Nat.add_comm 1 k]

/-! ## Files and the mouse -/

/-- A descriptor of a file that is no device. -/
structure RegularFile where
  entry : FdEntry
  noDevice : entry.inode.type ≠ vfsInodeChr ∧ entry.inode.type ≠ vfsInodeBlk

def RegularFile.put (f : RegularFile) (e : FdEntry) (h : f.entry.SameFile e) : RegularFile where
  entry := e
  noDevice := by
    obtain ⟨pos, size, rfl⟩ := h
    exact f.noDevice

section Files

variable {σ : Type}

/-- `do_sys_fd_read` on a file. -/
def fileRead (reads : VfsReads σ) (f : σ × RegularFile) (buf : ReadBuf) :
    (σ × RegularFile) × Except Errno (List UInt8) :=
  let out := readVfs reads f.1 f.2.entry buf
  ((f.1, f.2.put out.1 (readVfs_sameFile reads f.1 f.2.entry buf)), out.2)

/-- `do_sys_fd_write` on a file. -/
def fileWrite (vfs : Vfs σ) (f : σ × RegularFile) (buf : UserBuf) : (σ × RegularFile) × FdResult :=
  let out := writeVfs vfs f.1 f.2.entry buf
  ((out.1, f.2.put out.2.1 (writeVfs_sameFile vfs f.1 f.2.entry buf)), out.2.2)

end Files

/-- `do_sys_fd_write` on the mouse. `vfs_dev_pwrite` refuses: the node of the mouse is no entry of
`g_devnodes`. -/
def mouseWrite (buf : UserBuf) : FdResult :=
  if !buf.rangeOk 0 (min buf.data.length chunkSize) then .error .efault else .error .einval

/-! ## By kind -/

/-- The kinds of descriptors that are read, with what stays fixed in a call. -/
inductive ReadKind (σ : Type)
  | pipe
  | pty (side : PtySide)
  | socket (s : Socket)
  | eventfd
  | timerfd
  | signalfd (sf : SignalFd) (pid : ℤ) (uid : ℕ)
  | file (reads : VfsReads σ)
  | mouse

/-- The kinds that are written. Timers and sets of signals refuse. -/
inductive WriteKind (σ : Type)
  | pipe
  | pty (side : PtySide)
  | unix
  | inet (s : Socket)
  | eventfd
  | timerfd
  | signalfd
  | file (vfs : Vfs σ)
  | mouse

/-- A socket as a receive finds it: its buffer, the packet that the network stack has for it, and
whether its receive timeout has passed. -/
structure Incoming where
  rx : List UInt8
  reply : Option (List UInt8) := none
  timedOut : Bool := false

section Kinds

variable {σ : Type}

/-- What a stretch of a read finds. A terminal comes with the descriptors of its other end, a timer
with the time. -/
def ReadKind.Object : ReadKind σ → Type
  | .pipe => Pipe
  | .pty _ => Tty × ℕ
  | .socket _ => Incoming
  | .eventfd => EventFd
  | .timerfd => TimerFd × UInt64
  | .signalfd .. => Signals
  | .file _ => σ × RegularFile
  | .mouse => List UInt8

/-- What a stretch of a write finds. A Unix stream is the receive buffer of its other end, if
there is one; other sockets come with the answers of the network stack. -/
def WriteKind.Object : WriteKind σ → Type
  | .pipe => Pipe
  | .pty _ => Tty × ℕ
  | .unix => Option (List UInt8)
  | .inet _ => NetSocket × NetAnswers
  | .eventfd => EventFd
  | .timerfd => TimerFd
  | .signalfd => Signals
  | .file _ => σ × RegularFile
  | .mouse => Unit

/-- How a stretch without a local state ends: the number of bytes is all that counts. -/
def Outcome.stretch {α ρ : Type} (count : α → ℕ) (l : ρ) : Outcome α → Stretch ρ (Except Errno ℕ)
  | .ret r => .ret (r.map count)
  | .wait => .wait l

def SendOutcome.stretch : SendOutcome → Stretch (Option ℕ) (Except Errno ℕ)
  | .ret r => .ret r
  | .wait off => .wait (some off)

/-- `do_sys_recvfrom`. A receive with an empty buffer takes the packet that the network stack has. -/
def Incoming.receive (inc : Incoming) (s : Socket) (nonblock interrupted : Bool) (buf : ReadBuf) :
    Incoming × Outcome (List UInt8) :=
  if !s.used then (inc, .ret (.error .enotsock))
  else
    let env : RecvEnv := ⟨nonblock, inc.timedOut, interrupted, inc.reply, true⟩
    let out := doSysRecvfrom s inc.rx { buf with len := buf.len % 2 ^ 32 } env
    ({ inc with rx := out.1, reply := if inc.rx = [] then none else inc.reply }, out.2)

/-- A stretch of `do_sys_fd_read`. `b` is the stack of the call and the user's memory. -/
def ReadKind.stretch (buf : ReadBuf) (b : Bounce) (nonblock interrupted : Bool) :
    (k : ReadKind σ) → k.Object → k.Object × Stretch Unit (Except Errno ℕ)
  | .pipe, p =>
    let out := pipeReadInto p nonblock interrupted buf b
    (out.1, out.2.stretch List.length ())
  | .pty side, (t, peerRefs) =>
    let out := ptyRead t side peerRefs nonblock interrupted buf b
    ((out.1, peerRefs), out.2.stretch List.length ())
  | .socket s, inc =>
    let out := Incoming.receive inc s nonblock interrupted buf
    (out.1, out.2.stretch List.length ())
  | .eventfd, ev =>
    let out := eventfdRead ev nonblock interrupted buf
    (out.1, out.2.stretch (fun _ => 8) ())
  | .timerfd, (tf, now) =>
    let out := timerfdRead tf now nonblock interrupted buf
    ((out.1, now), out.2.stretch (fun _ => 8) ())
  | .signalfd sf pid uid, t =>
    let out := signalfdRead sf t pid uid nonblock buf
    (out.1, out.2.stretch (fun _ => siginfoSize) ())
  | .file reads, f =>
    let out := fileRead reads f buf
    (out.1, .ret (out.2.map List.length))
  | .mouse, queue =>
    let out := mouseRead queue nonblock interrupted buf
    (out.1, out.2.stretch List.length ())

/-- A stretch of `do_sys_fd_write`. `off` is what the earlier stretches of a send have delivered,
if there were any. On a Unix stream `nonblock` is that of the descriptor or of the socket. -/
def WriteKind.stretch (buf : UserBuf) (nonblock interrupted : Bool) (off : Option ℕ) :
    (k : WriteKind σ) → k.Object → k.Object × Stretch (Option ℕ) (Except Errno ℕ)
  | .pipe, p =>
    let out := pipeWriteFrom p off.isSome nonblock interrupted buf
    (out.1, out.2.stretch id (some (off.getD 0)))
  | .pty side, (t, peerRefs) =>
    let out := ptyWrite t side peerRefs nonblock interrupted buf
    ((out.1, peerRefs), out.2.stretch id (some (off.getD 0)))
  | .unix, peer =>
    if off = none ∧ buf.data.length = 0 then (peer, .ret (.error .einval))
    else
    let out := sendLoop buf nonblock interrupted (buf.data.length - off.getD 0 + 1) peer (off.getD 0)
    (out.1, out.2.stretch)
  | .inet s, (net, ans) =>
    let out := doSysSendto s (nonblock || s.nonblock) buf off { ans with interrupted := interrupted } net
    ((out.1, ans), out.2)
  | .eventfd, ev =>
    let out := eventfdWrite ev nonblock interrupted buf
    (out.1, out.2.stretch id (some (off.getD 0)))
  | .timerfd, tf => (tf, .ret (.error .einval))
  | .signalfd, t => (t, .ret (.error .einval))
  | .file vfs, f =>
    let out := fileWrite vfs f buf
    (out.1, .ret out.2)
  | .mouse, u => (u, .ret (mouseWrite buf))

/-- The buffer as `do_sys_sendto` takes it: the length is cut to 32 bits. -/
def WriteKind.buffer (buf : UserBuf) : WriteKind σ → UserBuf
  | .unix => { buf with data := buf.data.take (buf.data.length % 2 ^ 32) }
  | .inet _ => { buf with data := buf.data.take (buf.data.length % 2 ^ 32) }
  | _ => buf

/-- `do_sys_fd_read`: the null pointer and the length 0 are looked at first. -/
def ReadKind.call (k : ReadKind σ) (nonblock : Bool) (buf : ReadBuf) (b : Bounce) :
    BlockingCall Unit Bool k.Object (Except Errno ℕ) where
  start := ()
  run _ interrupted x :=
    if buf.null then (x, .ret (.error .einval))
    else if buf.len = 0 then (x, .ret (.ok 0))
    else k.stretch buf b nonblock interrupted x

/-- `do_sys_fd_write`. -/
def WriteKind.call (k : WriteKind σ) (nonblock : Bool) (buf : UserBuf) :
    BlockingCall (Option ℕ) Bool k.Object (Except Errno ℕ) where
  start := none
  run off interrupted x :=
    if buf.null then (x, .ret (.error .einval))
    else if buf.data.length = 0 then (x, .ret (.ok 0))
    else k.stretch (k.buffer buf) nonblock interrupted off x

end Kinds

end EdgeOS
