import EdgeOS.Descriptors

namespace EdgeOS

/-!
The system calls that open descriptors, `src/sys/syscall.c`. Arguments stand for what the
environment decides: whether a copy to or from user memory succeeds, whether lwIP has a
control block left, and which accept callbacks fire inside the call.
-/

/-- What the calls read of the running task. -/
structure Caller where
  pid : ℤ
  pgid : ℤ := 0
  cttyKind : ℤ := 0
  cttyId : ℤ := 0
  euid : ℕ := 0
  egid : ℕ := 0
  deriving DecidableEq, Repr

/-! ## Pipes -/

def doSysPipe (s : FdState) (pid : ℤ) (flags : BitVec 32) (copied : Bool) : FdState × FdResult :=
  if hasFlag flags (~~~(linuxOCloexec ||| linuxONonblock)) then (s, .error .einval) else
  match fdProcWithStdio s pid with
  | (s, none) => (s, .error .enomem)
  | (s, some p) =>
  match pipeAlloc s.objs with
  | (_, none) => (s, .error .enomem)
  | (o, some id) =>
  -- Every failure from here on clears the pipe again.
  let fail := fun s : FdState => ({ s with objs := s.objs.setPipe id {} }, Except.error Errno.enomem)
  match fdAlloc { s with objs := o } p 0 with
  | (s, none) => fail s
  | (s, some r) =>
  match fdAlloc s p 0 with
  | (s, none) => fail (s.setFd p r {})
  | (s, some w) =>
  let nonblock := if hasFlag flags linuxONonblock then linuxONonblock else 0
  let cloexec := hasFlag flags linuxOCloexec
  match fdInstall s p r
    { kind := .pipeR, pipeId := id, flags := nonblock, cloexec := cloexec } with
  | (s, false) => fail (s.setFd p w {})
  | (s, true) =>
  match fdInstall s p w
    { kind := .pipeW, pipeId := id, flags := linuxOWronly ||| nonblock, cloexec := cloexec } with
  | (s, false) => fail ((fileRefPut s (s.fds (p, r)).fileRef).setFd p r {})
  | (s, true) =>
  let x := s.objs.pipes id
  let s := { s with
    objs := s.objs.setPipe id { x with readers := x.readers + 1, writers := x.writers + 1 } }
  if copied then (s, .ok 0)
  else (closeFd (fun _ => []) (closeFd (fun _ => []) s p r) p w, .error .efault)

/-! ## Special objects -/

/-- `alloc_special_fd`; `none` is any of its failures. -/
def allocSpecialFd (s : FdState) (pid : ℤ) (kind : FdKind) (id : ℤ) (flags : BitVec 32) : FdState × Option FdIdx :=
  match fdProcWithStdio s pid with
  | (s, none) => (s, none)
  | (s, some p) =>
    match fdAlloc s p 0 with
    | (s, none) => (s, none)
    | (s, some i) =>
      match fdInstall s p i
        { kind := kind, pipeId := id
          flags := flags &&& (linuxONonblock ||| linuxORdwr ||| linuxOWronly)
          cloexec := hasFlag flags linuxOCloexec } with
      | (s, false) => (s, none)
      | (s, true) => (s, some i)

def SpecialKind.fdKind : SpecialKind → FdKind
  | .eventfd => .eventfd
  | .timerfd => .timerfd
  | .signalfd => .signalfd
  | .epoll => .epoll

/-- The common end of the four creating calls: an object, then a descriptor for it. -/
def createSpecial (k : SpecialKind) (s : FdState) (pid : ℤ) (flags : BitVec 32) : FdState × FdResult :=
  match specialAllocObj k s.objs with
  | (_, none) => (s, .error .enomem)
  | (o, some id) =>
    match allocSpecialFd { s with objs := o } pid k.fdKind id flags with
    | (s, some i) => (s, .ok i.val)
    | (s, none) => ({ s with objs := specialDropRef k s.objs id }, .error .enomem)

def doSysEventfd2 (s : FdState) (pid : ℤ) (flags : BitVec 32) : FdState × FdResult :=
  if hasFlag flags (~~~(linuxEfdSemaphore ||| linuxONonblock ||| linuxOCloexec)) then
    (s, .error .einval)
  else createSpecial .eventfd s pid (flags &&& (linuxONonblock ||| linuxOCloexec))

/-- `do_sys_timerfd_create`; the clock is `CLOCK_REALTIME` or `CLOCK_MONOTONIC`. -/
def doSysTimerfdCreate (s : FdState) (pid clockid : ℤ) (flags : BitVec 32) : FdState × FdResult :=
  if ¬ (clockid = 0 ∨ clockid = 1) ∨ hasFlag flags (~~~(linuxONonblock ||| linuxOCloexec)) then
    (s, .error .einval)
  else createSpecial .timerfd s pid (flags &&& (linuxONonblock ||| linuxOCloexec))

def doSysEpollCreate1 (s : FdState) (pid : ℤ) (flags : BitVec 32) : FdState × FdResult :=
  if hasFlag flags (~~~linuxOCloexec) then (s, .error .einval)
  else createSpecial .epoll s pid (flags &&& linuxOCloexec)

/-- `do_sys_signalfd4`, with a mask that could be read. With `fd = -1` it creates an object,
otherwise it changes the flags of a descriptor. -/
def doSysSignalfd4 (s : FdState) (pid fd : ℤ) (flags : BitVec 32) : FdState × FdResult :=
  match fdProcWithStdio s pid with
  | (s, p) =>
    if hasFlag flags (~~~(linuxONonblock ||| linuxOCloexec)) then (s, .error .einval)
    else if fd = -1 then
      createSpecial .signalfd s pid (flags &&& (linuxONonblock ||| linuxOCloexec))
    else
      match p with
      | none => (s, .error .ebadf)
      | some p =>
      match fdGet s p fd with
      | none => (s, .error .ebadf)
      | some i =>
        let e := s.fds (p, i)
        match e.kind, tableIndex SpecialKind.signalfd.max e.pipeId with
        | .signalfd, some j =>
          if (s.objs.special .signalfd j).used then
            let flags' := e.flags &&& ~~~linuxONonblock ||| flags &&& linuxONonblock
            let e := { e with flags := flags', cloexec := e.cloexec || hasFlag flags linuxOCloexec }
            (s.setFd p i e, .ok i.val)
          else (s, .error .ebadf)
        | _, _ => (s, .error .ebadf)

/-! ## Sockets -/

/-- The protocols that `do_sys_socket` lets through for a kind of socket: 0 and `IPPROTO_ICMP`
1, `IPPROTO_UDP` 17, `IPPROTO_TCP` 6, `IPPROTO_ICMPV6` 58. -/
def protocolOk (domain type protocol : ℤ) : Bool :=
  let icmp : ℤ := if domain = linuxAfInet then 1 else 58
  if domain = linuxAfUnix then true
  else if type = linuxSockRaw then protocol = 0 ∨ protocol = icmp
  else if type = linuxSockDgram then protocol = 0 ∨ protocol = 17 ∨ protocol = icmp
  else protocol = 0 ∨ protocol = 6

/-- Does `do_sys_socket` ask lwIP for a control block? -/
def needsPcb (domain type protocol : ℤ) : Bool :=
  (domain = linuxAfInet ∨ domain = linuxAfInet6) ∧ (type = linuxSockDgram ∧ (protocol = 0 ∨ protocol = 17) ∨
      type = linuxSockStream ∧ (protocol = 0 ∨ protocol = 6))

def socketEntry (sid : ℕ) (nonblock cloexec : Bool) : FdEntry where
  kind := .socket
  pipeId := sid
  flags := linuxORdwr ||| if nonblock then linuxONonblock else 0
  cloexec := cloexec

/-- `do_sys_socket`; `type` comes without its flag bits. `window` are the accept callbacks
that fire inside `socket_alloc`, `later` those that fire after it. -/
def doSysSocket (s : FdState) (pid domain type protocol : ℤ) (nonblock cloexec pcb : Bool)
    (window later : List ℕ) : FdState × FdResult :=
  if ¬ (domain = linuxAfUnix ∨ domain = linuxAfInet ∨ domain = linuxAfInet6) then
    (s, .error .eafnosupport)
  else if ¬ (type = linuxSockStream ∨ type = linuxSockDgram ∨ type = linuxSockRaw) ∨
      !protocolOk domain type protocol then (s, .error .eprotonosupport)
  else
  match fdProcWithStdio s pid with
  | (s, none) => (s, .error .enomem)
  | (s, some p) =>
  match fdAlloc s p 0 with
  | (s, none) => (s, .error .enomem)
  | (s, some i) =>
  match socketAlloc s.objs window with
  | (_, none) => (s.setFd p i {}, .error .enomem)
  | (o, some sid) =>
  let o := edgeTcpAcceptCbs o later
  if needsPcb domain type protocol ∧ !pcb then
    ({ s.setFd p i {} with objs := o.setSocket sid {} },
      .error (if domain = linuxAfInet6 then .eafnosupport else .enomem))
  else
  let x := { o.sockets sid with
    domain := domain, type := type, protocol := protocol, nonblock := nonblock
    hasPcb := needsPcb domain type protocol, unixPeerId := -1 }
  match fdInstall { s with objs := o.setSocket sid x } p i (socketEntry sid nonblock cloexec) with
  | (s, true) => (s, .ok i.val)
  | (s, false) =>
    ({ s with objs := socketDropRef (fun _ => []) socketDepth s.objs sid }, .error .enomem)

/-- The two ends of a `socketpair`. -/
def pairedSocket (x : Socket) (peer : ℕ) (nonblock : Bool) : Socket :=
  { x with
    domain := linuxAfUnix, type := linuxSockStream, protocol := 0, nonblock := nonblock
    connected := true, unixPeerId := peer }

/-- `do_sys_socketpair` past its argument tests. `window` and `window'` are the callbacks
inside the two calls of `socket_alloc`, `later` those after them. -/
def doSysSocketpair (s : FdState) (pid : ℤ) (nonblock cloexec copied : Bool)
    (window window' later : List ℕ) : FdState × FdResult :=
  match fdProcWithStdio s pid with
  | (s, none) => (s, .error .enomem)
  | (s, some p) =>
  match fdAlloc s p 0 with
  | (s, none) => (s, .error .enomem)
  | (s, some i) =>
  match fdAlloc s p 0 with
  | (s, none) => (s.setFd p i {}, .error .enomem)
  | (s, some j) =>
  match socketAlloc s.objs window with
  | (_, none) => ((s.setFd p i {}).setFd p j {}, .error .enomem)
  | (o, some sid0) =>
  match socketAlloc o window' with
  | (_, none) =>
    ({ (s.setFd p i {}).setFd p j {} with objs := o.setSocket sid0 {} }, .error .enomem)
  | (o, some sid1) =>
  let o := edgeTcpAcceptCbs o later
  let o := o.setSocket sid0 (pairedSocket (o.sockets sid0) sid1 nonblock)
  let o := o.setSocket sid1 (pairedSocket (o.sockets sid1) sid0 nonblock)
  let drop := fun o : Objects =>
    socketDropRef (fun _ => []) socketDepth (socketDropRef (fun _ => []) socketDepth o sid0) sid1
  match fdInstall { s with objs := o } p i (socketEntry sid0 nonblock cloexec) with
  | (s, false) => ({ s.setFd p j {} with objs := drop s.objs }, .error .enomem)
  | (s, true) =>
  match fdInstall s p j (socketEntry sid1 nonblock cloexec) with
  | (s, false) =>
    ({ (fileRefPut s (s.fds (p, i)).fileRef).setFd p i {} with objs := drop s.objs }, .error .enomem)
  | (s, true) =>
  if copied then (s, .ok 0)
  else
    let s := fileRefPut (fileRefPut s (s.fds (p, i)).fileRef) (s.fds (p, j)).fileRef
    ({ (s.setFd p i {}).setFd p j {} with objs := drop s.objs }, .error .efault)

def socketFromFd (s : FdState) (pid fd : ℤ) : FdState × Option (FdProcIdx × FdIdx × ℕ) :=
  match fdProcWithStdio s pid with
  | (s, none) => (s, none)
  | (s, some p) =>
    match fdGet s p fd with
    | none => (s, none)
    | some i =>
      match (s.fds (p, i)).kind, tableIndex edgeMaxSockets (s.fds (p, i)).pipeId with
      | .socket, some sid => if (s.objs.sockets sid).used then (s, some (p, i, sid)) else (s, none)
      | _, _ => (s, none)

/-- `do_sys_listen`; `granted` is the answer of `tcp_listen_with_backlog_and_err`. -/
def doSysListen (s : FdState) (pid fd backlog : ℤ) (granted : Bool) : FdState × FdResult :=
  match socketFromFd s pid fd with
  | (s, none) => (s, .error .enotsock)
  | (s, some (_, _, sid)) =>
    let x := s.objs.sockets sid
    if ¬ (x.domain = linuxAfInet ∨ x.domain = linuxAfInet6) then (s, .error .eafnosupport)
    else if x.type ≠ linuxSockStream then (s, .error .eopnotsupp)
    else if !x.hasPcb then (s, .error .einval)
    else if x.listening then (s, .ok 0)
    else if !granted then (s, .error .eaddrinuse)
    else
      let backlog := max 1 (min backlog edgeSockAcceptq)
      let x := { x with listening := true, backlog := backlog, pending := [] }
      ({ s with objs := s.objs.setSocket sid x }, .ok 0)

/-- `do_sys_accept`. A caller that waits for a connection changes nothing while it waits, so
an empty queue is reported here. `later` are the accept callbacks that fire after the
connection has been taken from the queue. -/
def doSysAccept (s : FdState) (pid fd : ℤ) (copied : Bool) (later : List ℕ) : FdState × FdResult :=
  match socketFromFd s pid fd with
  | (s, none) => (s, .error .enotsock)
  | (s, some (p, _, l)) =>
  if !(s.objs.sockets l).listening then (s, .error .einval) else
  match socketPendingDequeue s.objs l with
  | (_, none) => (s, .error .eagain)
  | (o, some sid) =>
  if sid ≥ edgeMaxSockets ∨ !(o.sockets sid).used then ({ s with objs := o }, .error .eagain) else
  let o := edgeTcpAcceptCbs o later
  match fdAlloc { s with objs := o } p 0 with
  | (s, none) =>
    ({ s with objs := socketDropRef (fun _ => []) socketDepth s.objs sid }, .error .emfile)
  | (s, some i) =>
  match fdInstall s p i (socketEntry sid false false) with
  | (s, false) =>
    ({ s with objs := socketDropRef (fun _ => []) socketDepth s.objs sid }, .error .enomem)
  | (s, true) =>
    if copied then (s, .ok i.val) else (closeFd (fun _ => []) s p i, .error .efault)

def doSysAccept4 (s : FdState) (pid fd : ℤ) (flags : BitVec 32) (copied : Bool) (later : List ℕ) : FdState × FdResult :=
  if hasFlag flags (~~~(linuxSockNonblock ||| linuxSockCloexec)) then (s, .error .einval) else
  match doSysAccept s pid fd copied later with
  | (s, .error err) => (s, .error err)
  | (s, .ok r) =>
    match fdProcWithStdio s pid with
    | (s, none) => (s, .error .ebadf)
    | (s, some p) =>
    match fdGet s p r with
    | none => (s, .error .ebadf)
    | some i =>
    let e := s.fds (p, i)
    let e := { e with cloexec := e.cloexec || hasFlag flags linuxSockCloexec }
    match hasFlag flags linuxSockNonblock, e.kind, tableIndex edgeMaxSockets e.pipeId with
    | true, .socket, some sid =>
      if (s.objs.sockets sid).used then
        let x := { s.objs.sockets sid with nonblock := true }
        ({ s.setFd p i { e with flags := e.flags ||| linuxONonblock } with
            objs := s.objs.setSocket sid x }, .ok r)
      else (s.setFd p i e, .ok r)
    | _, _, _ => (s.setFd p i e, .ok r)

/-! ## Opening paths -/

/-- `vfs_permission_check`: read is 4, write 2, execute 1. -/
def vfsPermissionCheck (inode : VfsInode) (mask : BitVec 16) (euid egid : ℕ) : Bool :=
  let mode := inode.mode &&& 0o7777
  if euid = 0 then mask &&& 1 = 0 ∨ mode &&& 0o111 ≠ 0
  else
    let bits := if euid = inode.uid then mode >>> 6
      else if egid = inode.gid then mode >>> 3 else mode
    mask &&& ~~~bits &&& 7 = 0

/-- The access that `do_sys_openat` asks for. -/
def openRequest (flags : BitVec 32) : BitVec 16 :=
  if flags &&& linuxOAccmode = linuxOWronly then 2
  else if flags &&& linuxOAccmode = linuxORdwr then 6
  else 4

/-- The number at the end of a `/dev/pts/` path. -/
def ptsNumber : List Char → ℕ → Option ℕ
  | [], n => some n
  | c :: cs, n =>
    if c < '0' ∨ '9' < c then none
    else
      let n := n * 10 + (c.toNat - '0'.toNat)
      if n ≥ edgeMaxPtys then none else ptsNumber cs n

/-- The end of the `/dev/tty` branch of `do_sys_openat`: descriptor `i` gets the controlling
terminal. The failures only clear the descriptor. -/
def attachTty (s : FdState) (p : FdProcIdx) (i : FdIdx) (cur : Caller) : FdState × FdResult :=
  let e := s.fds (p, i)
  if cur.cttyKind = 1 then (s.setFd p i { e with kind := .console }, .ok i.val)
  else if cur.cttyKind = 2 then
    match tableIndex edgeMaxPtys cur.cttyId with
    | none => (s.setFd p i {}, .error .enxio)
    | some j =>
      if !(s.objs.ptys j).used then (s.setFd p i {}, .error .enxio)
      else ({ s.setFd p i { e with kind := .ptySlave, pipeId := j } with
          objs := ptyAddRef s.objs j false }, .ok i.val)
  else (s.setFd p i {}, .error .enxio)

/-- What the `/dev/tty` branch fills in first. -/
def ttyEntry (flags : BitVec 32) : FdEntry where
  flags := flags
  cloexec := hasFlag flags linuxOCloexec
  pipeId := -1
  path := "/dev/tty"

/-- The `/dev/tty` branch of `do_sys_openat`. The file reference is taken before the terminal
is looked at. -/
def openTty (s : FdState) (p : FdProcIdx) (cur : Caller) (flags : BitVec 32) : FdState × FdResult :=
  match fdAlloc s p 0 with
  | (s, none) => (s, .error .enomem)
  | (s, some i) =>
  match fdInstall s p i (ttyEntry flags) with
  | (s, false) => (s, .error .enomem)
  | (s, true) => attachTty s p i cur

/-- The `/dev/ptmx` branch. -/
def openPtmx (s : FdState) (p : FdProcIdx) (flags : BitVec 32) : FdState × FdResult :=
  match fdAlloc s p 0 with
  | (s, none) => (s, .error .enomem)
  | (s, some i) =>
  match ptyAlloc s.objs with
  | (_, none) => (s.setFd p i {}, .error .enomem)
  | (o, some id) =>
  let e : FdEntry :=
    { kind := .ptyMaster, flags := flags, cloexec := hasFlag flags linuxOCloexec, pipeId := id
      path := "/dev/ptmx" }
  match fdInstall { s with objs := o } p i e with
  | (s, true) => (s, .ok i.val)
  | (s, false) => ({ s with objs := ptyDropRef s.objs id true }, .error .enomem)

/-- The `/dev/pts/` branch. -/
def openPts (s : FdState) (p : FdProcIdx) (cur : Caller) (flags : BitVec 32) (path : String) : FdState × FdResult :=
  match if path.length = 9 then none else ptsNumber (path.toList.drop 9) 0 with
  | none => (s, .error .enoent)
  | some id =>
  if !(s.objs.ptys id).used ∨ !(s.objs.ptys id).unlocked then (s, .error .enoent) else
  match fdAlloc s p 0 with
  | (s, none) => (s, .error .enomem)
  | (s, some i) =>
  let e : FdEntry :=
    { kind := .ptySlave, flags := flags, cloexec := hasFlag flags linuxOCloexec, pipeId := id
      path := path }
  match fdInstall s p i e with
  | (s, false) => (s, .error .enomem)
  | (s, true) =>
    let o := ptyAddRef s.objs id false
    let x := o.ptys id
    let x := if x.fgPgid ≤ 0 ∧ 0 < cur.pgid then { x with fgPgid := cur.pgid } else x
    ({ s with objs := o.setPty id x }, .ok i.val)

/-- The last part of `do_sys_openat`: a file that `vfs_resolve` found, with its
superblock. -/
def openVfs (s : FdState) (p : FdProcIdx) (cur : Caller) (flags : BitVec 32) (path : String)
    (inode : VfsInode) (sb : Option ℕ) : FdState × FdResult :=
  if !vfsPermissionCheck inode (openRequest flags) cur.euid cur.egid then (s, .error .eacces) else
  match fdAlloc s p 0 with
  | (s, none) => (s, .error .enomem)
  | (s, some i) =>
  let origin : OpenRecord := ⟨flags, inode, sb, cur.euid, cur.egid⟩
  let inode := if hasFlag flags linuxOTrunc ∧ hasFlag flags (linuxOWronly ||| linuxORdwr) then
    { inode with size := 0 } else inode
  let e : FdEntry :=
    { kind := .vfs, flags := flags, cloexec := hasFlag flags linuxOCloexec, inode := inode, sb := sb
      pipeId := -1, path := path, pos := if hasFlag flags linuxOAppend then inode.size else 0
      origin := some origin }
  match fdInstall s p i e with
  | (s, false) => (s, .error .enomem)
  | (s, true) => (s, .ok i.val)

/-- `do_sys_openat`. `path` is the path after `build_at_path`, or why there is none;
`resolved` is the answer of the file system, after it has created a missing file. -/
def doSysOpenat (s : FdState) (cur : Caller) (flags : BitVec 32) (path : Except Errno String)
    (resolved : Option (VfsInode × Option ℕ)) : FdState × FdResult :=
  match fdProcWithStdio s cur.pid with
  | (s, none) => (s, .error .enomem)
  | (s, some p) =>
    match path with
    | .error err => (s, .error err)
    | .ok path =>
      if path = "/dev/tty" then openTty s p cur flags
      else if path = "/dev/ptmx" then openPtmx s p flags
      else if path.startsWith "/dev/pts/" then openPts s p cur flags path
      else
        match resolved with
        | none => (s, .error .enoent)
        | some (inode, sb) => openVfs s p cur flags path inode sb

/-- `ioctl(TIOCSPTLCK)` on a pseudo terminal master. -/
def ioctlPtyLock (s : FdState) (pid fd : ℤ) (lock : Bool) : FdState × FdResult :=
  match fdProcWithStdio s pid with
  | (s, none) => (s, .error .ebadf)
  | (s, some p) =>
    match fdGet s p fd with
    | none => (s, .error .ebadf)
    | some i =>
      match (s.fds (p, i)).kind, tableIndex edgeMaxPtys (s.fds (p, i)).pipeId with
      | .ptyMaster, some j =>
        if (s.objs.ptys j).used then
          ({ s with objs := s.objs.setPty j { s.objs.ptys j with unlocked := !lock } }, .ok 0)
        else (s, .error .einval)
      | .ptyMaster, none => (s, .error .einval)
      | _, _ => (s, .error .enotty)

/-! ## Fork -/

/-- One round of the loop of `fd_clone_after_fork`; `cbs` are the accept callbacks that fire
before it. -/
def cloneFd (parent child : FdProcIdx) (cbs : FdIdx → List ℕ) (s : FdState) (i : FdIdx) : FdState :=
  let s := { s with objs := edgeTcpAcceptCbs s.objs (cbs i) }
  let e := s.fds (parent, i)
  if !e.used then s
  else if e.fileRef > 0 then
    match fileRefGet s e.fileRef with
    | none => s.setFd child i {}
    | some s => { s with objs := fdAddRef s.objs e.kind e.pipeId }.setFd child i e
  else { s with objs := fdAddRef s.objs e.kind e.pipeId }.setFd child i e

/-- `fd_clone_after_fork`. The child's table is created with standard descriptors of its
own, which are then overwritten. -/
def fdCloneAfterFork (s : FdState) (parentPid childPid : ℤ) (cbs : FdIdx → List ℕ) : FdState :=
  match findProc s parentPid with
  | none => s
  | some parent =>
    if childPid ≤ 0 then s else
    match fdProcForPid s childPid with
    | (s, none) => s
    | (s, some child) =>
      let s := s.clearProc child childPid
      (List.finRange edgeMaxFd).foldl (cloneFd parent child cbs) s

end EdgeOS
