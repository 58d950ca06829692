import EdgeOS.FileRead
import EdgeOS.PipeTransfer
import EdgeOS.Task

namespace EdgeOS

/-!
The branches of `do_sys_fd_read` and `do_sys_fd_write` for event counters, timers, pending signals
and the mouse, from the checks on the object on.
-/

def missing {α : Type} (nonblock interrupted : Bool) : Outcome α :=
  if nonblock then .ret (.error .eagain)
  else if interrupted then .ret (.error .eintr)
  else .wait

/-! ## Event counters -/

/-- `edge_eventfd_t`, less its reference count. -/
structure EventFd where
  used : Bool := true
  counter : UInt64 := 0
  semaphore : Bool := false
  deriving DecidableEq, Repr

def uint64Max : UInt64 := 0xFFFFFFFFFFFFFFFF

def EventFd.take (ev : EventFd) : EventFd × UInt64 :=
  if ev.semaphore then ({ ev with counter := ev.counter - 1 }, 1)
  else ({ ev with counter := 0 }, ev.counter)

/-- `do_sys_fd_read` on `FD_EVENTFD`; the value is what the user's eight bytes hold. -/
def eventfdRead (ev : EventFd) (nonblock interrupted : Bool) (buf : ReadBuf) : EventFd × Outcome UInt64 :=
  if buf.len < 8 then (ev, .ret (.error .einval))
  else if !ev.used then (ev, .ret (.error .ebadf))
  else if ev.counter = 0 then (ev, missing nonblock interrupted)
  else (ev.take.1, .ret (if buf.copied 0 8 then .ok ev.take.2 else .error .efault))

/-- The `uint64_t` in eight bytes of user memory. -/
def wordOf (bytes : List UInt8) : UInt64 := bytes.foldr (fun b w => w * 256 + b.toUInt64) 0

/-- `do_sys_fd_write` on `FD_EVENTFD`. -/
def eventfdWrite (ev : EventFd) (nonblock interrupted : Bool) (buf : UserBuf) : EventFd × Outcome ℕ :=
  if buf.data.length < 8 then (ev, .ret (.error .einval))
  else if !ev.used then (ev, .ret (.error .ebadf))
  else if !buf.rangeOk 0 8 then (ev, .ret (.error .efault))
  else
    let v := wordOf (buf.data.take 8)
    if v = uint64Max then (ev, .ret (.error .einval))
    else if uint64Max - 1 - ev.counter < v then (ev, missing nonblock interrupted)
    else ({ ev with counter := ev.counter + v }, .ret (.ok 8))

/-! ## Timers -/

/-- `edge_timerfd_t`, less its reference count and its clock, which is read outside. -/
structure TimerFd where
  used : Bool := true
  active : Bool := false
  nextUs : UInt64 := 0
  intervalUs : UInt64 := 0
  deriving DecidableEq, Repr

/-- `timerfd_expire_count`; `now` is what `timerfd_now_us` says. -/
def timerfdExpireCount (tf : TimerFd) (now : UInt64) (consume : Bool) : TimerFd × UInt64 :=
  if !tf.used ∨ !tf.active then (tf, 0)
  else if now < tf.nextUs then (tf, 0)
  else if tf.intervalUs > 0 then
    let cnt := if now > tf.nextUs then 1 + (now - tf.nextUs) / tf.intervalUs else 1
    (if consume then { tf with nextUs := tf.nextUs + cnt * tf.intervalUs } else tf, cnt)
  else (if consume then { tf with active := false } else tf, 1)

/-- `do_sys_fd_read` on `FD_TIMERFD`. -/
def timerfdRead (tf : TimerFd) (now : UInt64) (nonblock interrupted : Bool) (buf : ReadBuf) :
    TimerFd × Outcome UInt64 :=
  if buf.len < 8 then (tf, .ret (.error .einval))
  else if !tf.used then (tf, .ret (.error .ebadf))
  else
    let out := timerfdExpireCount tf now true
    if out.2 = 0 then (out.1, missing nonblock interrupted)
    else (out.1, .ret (if buf.copied 0 8 then .ok out.2 else .error .efault))

/-! ## Signals -/

/-- `edge_signalfd_t`, less its reference count. -/
structure SignalFd where
  used : Bool := true
  mask : BitVec 64 := 0
  deriving DecidableEq, Repr

/-- `LINUX_SIGINT`, `LINUX_SIGALRM`, `LINUX_SIGTERM`, `LINUX_SIGCHLD`. -/
def linuxSigInt : ℕ := 2
def linuxSigAlrm : ℕ := 14
def linuxSigTerm : ℕ := 15
def linuxSigChld : ℕ := 17

def SignalFd.wants (sf : SignalFd) (sig : ℕ) : Bool := sf.mask.getLsbD (sig - 1)

/-- The fields of `struct edge_linux_signalfd_siginfo` that are not zero. -/
structure SignalfdSiginfo where
  ssiSigno : ℕ
  ssiPid : ℤ
  ssiUid : ℕ
  deriving DecidableEq, Repr

/-- The signal that `signalfd_peek_current` finds, and the flags without it. -/
def SignalFd.peek (sf : SignalFd) (t : Signals) : Option (ℕ × Signals) :=
  if sf.wants linuxSigInt ∧ t.sigintPending then some (linuxSigInt, { t with sigintPending := false })
  else if sf.wants linuxSigTerm ∧ t.sigtermPending then
    some (linuxSigTerm, { t with sigtermPending := false })
  else if sf.wants linuxSigAlrm ∧ t.sigalrmPending then
    some (linuxSigAlrm, { t with sigalrmPending := false })
  else if sf.wants linuxSigChld ∧ t.sigchldPending then
    some (linuxSigChld, { t with sigchldPending := false })
  else none

/-- `signalfd_peek_current`; `t` are the signals of the running task, `pid` and `uid` its ids. -/
def signalfdPeekCurrent (sf : SignalFd) (t : Signals) (pid : ℤ) (uid : ℕ) (consume : Bool) :
    Signals × Option SignalfdSiginfo :=
  match sf.peek t with
  | none => (t, none)
  | some (sig, t') => (if consume then t' else t, some { ssiSigno := sig, ssiPid := pid, ssiUid := uid })

/-- `sizeof(struct edge_linux_signalfd_siginfo)`. -/
abbrev siginfoSize : ℕ := 128

/-- `do_sys_fd_read` on `FD_SIGNALFD`. The loop does not look for signals that interrupt it. -/
def signalfdRead (sf : SignalFd) (t : Signals) (pid : ℤ) (uid : ℕ) (nonblock : Bool) (buf : ReadBuf) :
    Signals × Outcome SignalfdSiginfo :=
  if buf.len < siginfoSize then (t, .ret (.error .einval))
  else if !sf.used then (t, .ret (.error .ebadf))
  else
    match signalfdPeekCurrent sf t pid uid true with
    | (t, none) => (t, missing nonblock false)
    | (t, some si) => (t, .ret (if buf.copied 0 siginfoSize then .ok si else .error .efault))

/-! ## The mouse -/

/-- `sizeof(mchunk)`. -/
abbrev mouseChunk : ℕ := 256

/-- `keyboard_mouse_read` without blocking; `queue` is `mouse_buf` from `mouse_tail` to
`mouse_head`. -/
def keyboardMouseRead (queue : List UInt8) (max : ℕ) : List UInt8 × List UInt8 :=
  (queue.drop max, queue.take max)

/-- `do_sys_fd_read` on a path of `path_is_mouse_input`. The loop ends at its first bytes. -/
def mouseRead (queue : List UInt8) (nonblock interrupted : Bool) (buf : ReadBuf) : List UInt8 × Outcome (List UInt8) :=
  if buf.len = 0 then (queue, .ret (.ok []))
  else
    let out := keyboardMouseRead queue (min buf.len mouseChunk)
    if out.2 = [] then (out.1, missing nonblock interrupted)
    else (out.1, .ret (if buf.copied 0 out.2.length then .ok out.2 else .error .efault))

end EdgeOS
