import EdgeOS.Lib.SlotTable
import EdgeOS.OpenDescriptors
import EdgeOS.Poll
import EdgeOS.ProcessRuns

namespace EdgeOS

open Lib

/-!
Epoll objects: `do_sys_epoll_ctl` and `do_sys_epoll_wait` on a watch table that holds descriptor
numbers, while descriptors are opened, copied, closed and inherited.
-/

/-! ## The watch table -/

/-- `struct edge_linux_epoll_event`. -/
structure EpollEvent where
  events : BitVec 32 := 0
  data : BitVec 64 := 0
  deriving DecidableEq, Repr

/-- `edge_epoll_watch_t`. `target` is not in the source: it is what the number stood for in the process
that registered it. -/
structure Watch where
  fd : ℤ
  ev : EpollEvent
  target : FdKind × ℤ × ℕ × Option ℕ × String
  deriving DecidableEq, Repr

/-- `EDGE_EPOLL_MAX_WATCH`, and `LINUX_EPOLL_CTL_ADD`, `LINUX_EPOLL_CTL_DEL`, `LINUX_EPOLL_CTL_MOD`. -/
def edgeEpollMaxWatch : ℕ := 64
def linuxEpollCtlAdd : ℤ := 1
def linuxEpollCtlDel : ℤ := 2
def linuxEpollCtlMod : ℤ := 3

/-- `LINUX_EPOLLIN`, `LINUX_EPOLLOUT`, `LINUX_EPOLLERR`, `LINUX_EPOLLHUP`, `LINUX_POLLPRI`. -/
def linuxEpollin : BitVec 32 := 0x1
def linuxEpollout : BitVec 32 := 0x4
def linuxEpollerr : BitVec 32 := 0x8
def linuxEpollhup : BitVec 32 := 0x10
def linuxPollpri : BitVec 16 := 0x2

/-- The end of `do_sys_epoll_ctl`, from where the event has been read. -/
def epollCtl (watch : List Watch) (op fd : ℤ) (ev : EpollEvent)
    (target : FdKind × ℤ × ℕ × Option ℕ × String) : List Watch × Except Errno ℕ :=
  let idx := SlotTable.position Watch.fd watch fd
  if op = linuxEpollCtlAdd then
    if idx.isSome then (watch, .error .eexist)
    else if edgeEpollMaxWatch ≤ watch.length then (watch, .error .enomem)
    else (watch ++ [⟨fd, ev, target⟩], .ok 0)
  else if op = linuxEpollCtlMod then
    match idx with
    | none => (watch, .error .enoent)
    | some i => (watch.modify i fun w => { w with ev := ev }, .ok 0)
  else if op = linuxEpollCtlDel then
    match idx with
    | none => (watch, .error .enoent)
    | some i => (SlotTable.removeAt watch i, .ok 0)
  else (watch, .error .einval)

/-! ## The calls -/

/-- `fd_get` on the first argument, which has to be an epoll descriptor: the caller's table, and the
number of the object. -/
def epollEntry (s : FdState) (pid epfd : ℤ) : FdState × Option (FdProcIdx × ℤ) :=
  match fdProcWithStdio s pid with
  | (s, none) => (s, none)
  | (s, some p) =>
    match fdGet s p epfd with
    | none => (s, none)
    | some i => (s, if (s.fds (p, i)).kind = .epoll then some (p, (s.fds (p, i)).pipeId) else none)

def epollAt (o : Objects) (id : ℤ) : Option ℕ :=
  (tableIndex SpecialKind.epoll.max id).filter fun ep => (o.special .epoll ep).used

/-- What descriptor `fd` of a table stands for. -/
def objectAt (s : FdState) (p : FdProcIdx) (fd : ℤ) : FdKind × ℤ × ℕ × Option ℕ × String :=
  match fdGet s p fd with
  | some i => (s.fds (p, i)).object
  | none => ({} : FdEntry).object

/-- The watch tables of `g_epolls`. -/
abbrev Watches := ℕ → List Watch

/-- `do_sys_epoll_ctl`. `ev` is the event behind the last argument: none for a null pointer, nothing in
it when it cannot be read. -/
def doSysEpollCtl (s : FdState) (watch : Watches) (pid epfd op fd : ℤ) (ev : Option (Option EpollEvent)) :
    FdState × Watches × Except Errno ℕ :=
  match epollEntry s pid epfd with
  | (s, none) => (s, watch, .error .ebadf)
  | (s, some (p, id)) =>
    match epollAt s.objs id with
    | none => (s, watch, .error .ebadf)
    | some ep =>
      if fd < 0 ∨ fd = epfd then (s, watch, .error .einval)
      else
        match if op = linuxEpollCtlDel then some (some {}) else ev with
        | none => (s, watch, .error .einval)
        | some none => (s, watch, .error .efault)
        | some (some ev) =>
          let (w, r) := epollCtl (watch ep) op fd ev (objectAt s p fd)
          (s, Function.update watch ep w, r)

/-- What is asked of `poll_fd_revents` for a watch. -/
def epollRequest (events : BitVec 32) : BitVec 16 :=
  let req := raise (events &&& linuxEpollin ≠ 0) (linuxPollin ||| linuxPollpri) |||
    raise (events &&& linuxEpollout ≠ 0) linuxPollout
  if req = 0 then linuxPollin ||| linuxPollout else req

/-- The answer of `poll_fd_revents` as events. -/
def epollEvents (rev : BitVec 16) : BitVec 32 :=
  (if raised rev (linuxPollin ||| linuxPollpri) then linuxEpollin else 0) |||
    (if raised rev linuxPollout then linuxEpollout else 0) |||
      (if raised rev linuxPollerr then linuxEpollerr else 0) ||| (if raised rev linuxPollhup then linuxEpollhup else 0)

/-- An event that is reported, with the descriptor it is of and the watch its data is from. -/
structure EpollReport where
  at_ : FdIdx
  watch : Watch
  events : BitVec 32
  deriving DecidableEq, Repr

/-- The scan of the watches, with room for `n` more events. `revents` is what `poll_fd_revents` says of
each descriptor. -/
def epollScan (s : FdState) (p : FdProcIdx) (revents : FdIdx → BitVec 16 → BitVec 16) :
    ℕ → List Watch → List EpollReport
  | 0, _ => []
  | _, [] => []
  | n + 1, w :: ws =>
    match fdGet s p w.fd with
    | none => epollScan s p revents (n + 1) ws
    | some i =>
      let eev := epollEvents (revents i (epollRequest w.ev.events))
      if eev &&& (w.ev.events ||| linuxEpollerr ||| linuxEpollhup) = 0 then
        epollScan s p revents (n + 1) ws
      else ⟨i, w, eev⟩ :: epollScan s p revents n ws

/-- How a round of a wait ends: with events written, an error, or with another round. -/
inductive EpollEnd
  | ready (reports : List EpollReport) (copied : Bool)
  | error (e : Errno)
  | expired
  | again

/-- One round of `do_sys_epoll_wait`. `null` says whether there is a buffer, `copied` whether it can be
written, `expired` whether the time is over, `interrupted` whether a signal is pending. -/
def doSysEpollWait (s : FdState) (watch : Watches) (pid epfd : ℤ) (null : Bool) (maxevents : ℤ)
    (revents : FdIdx → BitVec 16 → BitVec 16) (copied expired interrupted : Bool) : FdState × EpollEnd :=
  match epollEntry s pid epfd with
  | (s, none) => (s, .error .ebadf)
  | (s, some (p, id)) =>
    if null ∨ maxevents ≤ 0 then (s, .error .einval)
    else
      match epollAt s.objs id with
      | none => (s, .error .ebadf)
      | some ep =>
        let out := epollScan s p revents (min maxevents 64).toNat (watch ep)
        (s, if out ≠ [] then .ready out copied
          else if expired then .expired
          else if interrupted then .error .eintr
          else .again)

/-! ## The system -/

/-- Processes with their descriptors, and the watch tables. -/
structure EpollSys where
  procs : ProcFds
  watch : Watches := fun _ => []

/-- The calls on epoll objects, by the running process, and everything else. -/
inductive EpollSysEvent
  | procs (e : ProcFdEvent)
  | ctl (epfd op fd : ℤ) (ev : Option (Option EpollEvent))
  | wait (epfd : ℤ) (null : Bool) (maxevents : ℤ) (revents : FdIdx → BitVec 16 → BitVec 16)
      (copied expired interrupted : Bool)

/-- `epoll_drop_ref` clears an object that nothing refers to any more. -/
def Watches.sweep (watch : Watches) (o : Objects) : Watches :=
  fun ep => if (o.special .epoll ep).used then watch ep else []

namespace EpollSys

variable (L : KernelLayout) (k : EpollSys)

def ready : Bool := k.procs.sys.free && k.procs.hasPid

def step : EpollSysEvent → EpollSys
  | .procs e =>
    { procs := k.procs.act L e, watch := k.watch.sweep (k.procs.act L e).fds.objs }
  | .ctl epfd op fd ev =>
    if k.ready then
      let (fds, watch, _) := doSysEpollCtl k.procs.fds k.watch k.procs.pid epfd op fd ev
      { procs := { k.procs with fds := fds }, watch := watch }
    else k
  | .wait epfd null maxevents revents copied expired interrupted =>
    if k.ready then
      let (fds, _) := doSysEpollWait k.procs.fds k.watch k.procs.pid epfd null maxevents revents copied
        expired interrupted
      { k with procs := { k.procs with fds := fds } }
    else k

def boot : EpollSys := { procs := .boot L }

end EpollSys

/-! ## Following descriptors -/

/-- Table `p` has a descriptor of epoll object `ep`. -/
def FdState.EpollAt (s : FdState) (p : FdProcIdx) (ep : ℕ) : Prop :=
  ∃ i o, (s.fds (p, i)).held = some o ∧ o.1 = .epoll ∧ o.2.1 = ep

/-- In table `p` the number of the watch is that of what was registered under it. -/
def FdState.Holds (s : FdState) (p : FdProcIdx) (w : Watch) : Prop :=
  ∃ i : FdIdx, (i.val : ℤ) = w.fd ∧ (s.fds (p, i)).held = some w.target

/-- Whoever has an epoll object has what is registered with it. -/
def FdState.Watched (s : FdState) (watch : Watches) : Prop :=
  ∀ p ep, s.EpollAt p ep → ∀ w ∈ watch ep, s.Holds p w

/-- If the process keeps the descriptors of `keep`, then with each epoll object it keeps the numbers
registered with it. -/
def FdState.Survives (s : FdState) (watch : Watches) (pid : ℤ) (keep : FdIdx → Prop) : Prop :=
  ∀ i o (ep : ℕ), keep i → (s.fdsOf pid i).held = some o → o.1 = .epoll → o.2.1 = ep →
    ∀ w ∈ watch ep, ∃ j : FdIdx, (j.val : ℤ) = w.fd ∧ keep j

/-- The descriptor is not there, and none of those that a call makes by itself. -/
def FdState.Missing (s : FdState) (pid fd : ℤ) : Prop :=
  ∀ i : FdIdx, (i.val : ℤ) = fd → 2 < i.val ∧ (s.fdsOf pid i).used = false

/-- The call takes no registered number from a process that keeps the epoll object. -/
def FdCall.Spares (s : FdState) (watch : Watches) (pid : ℤ) : FdCall → Prop
  | .close fd _ => s.Survives watch pid fun i => (i.val : ℤ) ≠ fd
  | .dup2 oldfd newfd _ =>
    oldfd = newfd ∨ s.Missing pid oldfd ∨ s.Survives watch pid fun i => (i.val : ℤ) ≠ newfd
  | .dup3 oldfd newfd flags _ =>
    hasFlag flags (~~~linuxOCloexec) = true ∨ oldfd = newfd ∨ s.Missing pid oldfd ∨
      s.Survives watch pid fun i => (i.val : ℤ) ≠ newfd
  | .execve true _ =>
    s.Survives watch pid fun i => ¬ ((s.fdsOf pid i).cloexec = true ∧ 2 < i.val)
  | _ => True

def Watches.registered (watch : Watches) (ep : ℕ) (fd : ℤ) : Option EpollEvent :=
  (SlotTable.lookup Watch.fd (watch ep) fd).map Watch.ev

namespace EpollSys

variable (L : KernelLayout) (k : EpollSys)

/-- The table and the epoll object that `epfd` of the running process names, in the state in which
the call looks for them. -/
def target (epfd : ℤ) : FdState × Option (FdProcIdx × ℕ) :=
  match epollEntry k.procs.fds k.procs.pid epfd with
  | (s, none) => (s, none)
  | (s, some (p, id)) => (s, (epollAt s.objs id).map fun ep => (p, ep))

/-- No number is registered twice with an object, and whoever has the object has what is registered. -/
def Coherent : Prop :=
  (∀ ep, SlotTable.Distinct Watch.fd (k.watch ep)) ∧ k.procs.fds.Watched k.watch

/-- What an `epoll_ctl` on object `ep` does that passes the tests of its arguments: `ADD` succeeds for
an open descriptor that is not registered, and the others for one that is. If it succeeds it changes
the map at `fd`. An `ADD` that finds its number registered finds it registered for this descriptor. -/
structure CtlFollows (s : FdState) (p : FdProcIdx) (ep : ℕ) (op fd : ℤ) (ev : EpollEvent)
    (watch watch' : Watches) (r : Except Errno ℕ) : Prop where
  add : op = linuxEpollCtlAdd → (r = .ok 0 ↔ (fdGet s p fd).isSome = true ∧ watch.registered ep fd = none)
  change : op = linuxEpollCtlMod ∨ op = linuxEpollCtlDel → (r = .ok 0 ↔ watch.registered ep fd ≠ none)
  map : watch'.registered ep = if r = .ok 0 then
      Function.update (watch.registered ep) fd (if op = linuxEpollCtlDel then none else some ev)
    else watch.registered ep
  others : ∀ ep', ep' ≠ ep → watch' ep' = watch ep'
  present : op = linuxEpollCtlAdd → r = .error .eexist →
    ∃ w ∈ watch ep, w.fd = fd ∧ ∃ i, fdGet s p fd = some i ∧ (s.fds (p, i)).object = w.target

/-- The event leaves the registrations coherent; an `epoll_ctl` works on them as on a map, and the
events that `epoll_wait` reports are of what their data was registered for. -/
def Follows (e : EpollSysEvent) : Prop :=
  (k.step L e).Coherent ∧ match e with
    | .procs _ => True
    | .ctl epfd op fd ev => k.ready = true → ∀ s p ep event, k.target epfd = (s, some (p, ep)) → 0 ≤ fd → fd ≠ epfd →
        (if op = linuxEpollCtlDel then some (some {}) else ev) = some (some event) →
          CtlFollows s p ep op fd event k.watch (k.step L (.ctl epfd op fd ev)).watch
            (doSysEpollCtl k.procs.fds k.watch k.procs.pid epfd op fd ev).2.2
    | .wait epfd null maxevents revents copied expired interrupted => k.ready = true →
      ∀ s p ep reports, k.target epfd = (s, some (p, ep)) →
        (doSysEpollWait k.procs.fds k.watch k.procs.pid epfd null maxevents revents copied expired
          interrupted).2 = .ready reports copied →
        ∀ r ∈ reports, r.watch ∈ k.watch ep ∧ (s.fds (p, r.at_)).held = some r.watch.target

/-- No process gives up a registered number and keeps the epoll object. A descriptor is registered in
a table that has room, while all who have the epoll object have it under that number. -/
def Sound : EpollSysEvent → Prop
  | .procs (.call cur c) => c.Spares k.procs.fds k.watch cur.pid
  | .ctl epfd op fd ev =>
    ∀ s p ep event, k.target epfd = (s, some (p, ep)) → op = linuxEpollCtlAdd → 0 ≤ fd → fd ≠ epfd →
      ev = some (some event) → k.watch.registered ep fd = none → (k.watch ep).length < edgeEpollMaxWatch ∧
          ∀ q, s.EpollAt q ep → s.Holds q ⟨fd, event, objectAt s p fd⟩
  | _ => True

end EpollSys

end EdgeOS
