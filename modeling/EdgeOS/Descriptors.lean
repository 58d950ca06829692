import EdgeOS.KernelObjects

namespace EdgeOS

/-! Descriptor tables and file references, `src/sys/syscall.c`. -/

/-- `EDGE_MAX_FD`, `EDGE_MAX_FD_PROCS`, `EDGE_MAX_FILE_REFS`. -/
abbrev edgeMaxFd : ℕ := 64
abbrev edgeMaxFdProcs : ℕ := 64
abbrev edgeMaxFileRefs : ℕ := 1024

/-- The fields of `vfs_inode_t` that the descriptor layer reads. -/
structure VfsInode where
  ino : ℕ := 0
  mode : BitVec 16 := 0
  uid : ℕ := 0
  gid : ℕ := 0
  size : ℕ := 0
  deriving DecidableEq, Repr

/-- What `do_sys_openat` decided a permission check on. -/
structure OpenRecord where
  flags : BitVec 32
  inode : VfsInode
  sb : Option ℕ
  euid : ℕ
  egid : ℕ
  deriving DecidableEq, Repr

/-- `edge_fd_t`. A default value is what `memset` leaves. `cloexec` is the one bit of
`fd_flags`. `origin` is not in the source: it travels with the copies of a descriptor and
remembers the `openat` that made the first one. -/
structure FdEntry where
  used : Bool := false
  kind : FdKind := .none
  fileRef : ℕ := 0
  flags : BitVec 32 := 0
  cloexec : Bool := false
  pos : ℕ := 0
  inode : VfsInode := {}
  sb : Option ℕ := none
  path : String := ""
  pipeId : ℤ := 0
  origin : Option OpenRecord := none
  deriving DecidableEq, Repr

abbrev FdProcIdx := Fin edgeMaxFdProcs
abbrev FdIdx := Fin edgeMaxFd

/-- `g_fd_procs`, `g_file_refs` and the object tables. -/
structure FdState where
  procPid : FdProcIdx → ℤ := fun _ => 0
  fds : FdProcIdx × FdIdx → FdEntry := fun _ => {}
  fileRefs : ℕ → RefObj := fun _ => {}
  objs : Objects := {}

inductive Errno
  | enoent | enxio | ebadf | eagain | enomem | eacces | efault | einval | emfile
  | enotsock | eafnosupport | eopnotsupp | eprotonosupport | eaddrinuse | enotty | eisdir | epipe | eintr
  | enosys | eio | esrch | eexist | enotdir | enoexec | exdev | efbig
  | eaddrnotavail | enetunreach | enotconn | econnrefused | einprogress | ehostunreach | echild | eperm
  deriving DecidableEq, Repr

abbrev FdResult := Except Errno ℕ

/-! ## Flags -/

def linuxOAccmode : BitVec 32 := 0x3
def linuxOWronly : BitVec 32 := 0x1
def linuxORdwr : BitVec 32 := 0x2
def linuxOCreat : BitVec 32 := 0x40
def linuxOTrunc : BitVec 32 := 0x200
def linuxOAppend : BitVec 32 := 0x400
def linuxONonblock : BitVec 32 := 0x800
def linuxOCloexec : BitVec 32 := 0x80000
def linuxSockNonblock : BitVec 32 := 0x800
def linuxSockCloexec : BitVec 32 := 0x80000
def linuxEfdSemaphore : BitVec 32 := 1

/-- Is one of the bits of `mask` set? -/
def hasFlag (flags mask : BitVec 32) : Bool := flags &&& mask != 0

namespace FdState

variable (s : FdState)

def setFd (p : FdProcIdx) (i : FdIdx) (e : FdEntry) : FdState :=
  { s with fds := Function.update s.fds (p, i) e }

def setFileRef (i : ℕ) (x : RefObj) : FdState :=
  { s with fileRefs := Function.update s.fileRefs i x }

def clearProc (p : FdProcIdx) (pid : ℤ) : FdState :=
  { s with
    procPid := Function.update s.procPid p pid
    fds := fun x => if x.1 = p then {} else s.fds x }

end FdState

/-! ## File references -/

/-- `file_ref_alloc`. Reference 0 stands for none. -/
def fileRefAlloc (s : FdState) : FdState × ℕ :=
  match (List.range edgeMaxFileRefs).find? fun i => 1 ≤ i ∧ !(s.fileRefs i).used with
  | some i => (s.setFileRef i { used := true, refs := 1 }, i)
  | none => (s, 0)

/-- The test that `file_ref_get` and `file_ref_put` share. -/
def fileRefValid (s : FdState) (id : ℕ) : Bool :=
  0 < id ∧ id < edgeMaxFileRefs ∧ (s.fileRefs id).used ∧ 0 < (s.fileRefs id).refs

/-- `file_ref_get`; `none` is its failure. -/
def fileRefGet (s : FdState) (id : ℕ) : Option FdState :=
  if fileRefValid s id then
    some (s.setFileRef id { used := true, refs := (s.fileRefs id).refs + 1 })
  else none

def fileRefPut (s : FdState) (id : ℕ) : FdState :=
  if fileRefValid s id then
    s.setFileRef id { used := (s.fileRefs id).refs ≠ 1, refs := (s.fileRefs id).refs - 1 }
  else s

/-! ## Descriptor tables -/

/-- One of the three steps of `fd_ensure_stdio`. -/
def ensureStdioFd (p : FdProcIdx) (acc : FdState × Bool) (i : FdIdx) : FdState × Bool :=
  let (s, go) := acc
  if !go ∨ (s.fds (p, i)).used then acc else
  match fileRefAlloc s with
  | (s, 0) => (s, false)
  | (s, ref) =>
    (s.setFd p i { s.fds (p, i) with
      used := true, kind := .console, fileRef := ref
      flags := if i = 0 then 0 else linuxOWronly, cloexec := false, pipeId := -1 }, true)

/-- `fd_ensure_stdio`: it stops at the first reference it cannot get. -/
def fdEnsureStdio (s : FdState) (p : FdProcIdx) : FdState :=
  ([0, 1, 2].foldl (ensureStdioFd p) (s, true)).1

def findProc (s : FdState) (pid : ℤ) : Option FdProcIdx :=
  (List.finRange edgeMaxFdProcs).find? fun i => s.procPid i = pid

/-- `fd_proc_for_pid` with `create`: a process without a table gets the first free one. -/
def fdProcForPid (s : FdState) (pid : ℤ) : FdState × Option FdProcIdx :=
  match findProc s pid with
  | some p => (s, some p)
  | none =>
    match findProc s 0 with
    | none => (s, none)
    | some p => (fdEnsureStdio (s.clearProc p pid) p, some p)

/-- `fd_proc_with_stdio` for the calling process. -/
def fdProcWithStdio (s : FdState) (pid : ℤ) : FdState × Option FdProcIdx :=
  match fdProcForPid s pid with
  | (s, some p) => (fdEnsureStdio s p, some p)
  | (s, none) => (s, none)

/-- `fd_alloc`: the first unused descriptor from `minfd` on is cleared and marked. -/
def fdAlloc (s : FdState) (p : FdProcIdx) (minfd : ℤ) : FdState × Option FdIdx :=
  match (List.finRange edgeMaxFd).find? fun i => minfd ≤ i.val ∧ !(s.fds (p, i)).used with
  | some i => (s.setFd p i { used := true }, some i)
  | none => (s, none)

def fdGet (s : FdState) (p : FdProcIdx) (fd : ℤ) : Option FdIdx :=
  match (List.finRange edgeMaxFd).find? fun i => (i.val : ℤ) = fd with
  | some i => if (s.fds (p, i)).used then some i else none
  | none => none

/-- The tail of the open calls: fill a descriptor that `fd_alloc` has marked, or clear it
when no file reference is left. -/
def fdInstall (s : FdState) (p : FdProcIdx) (i : FdIdx) (e : FdEntry) : FdState × Bool :=
  match fileRefAlloc s with
  | (s, 0) => (s.setFd p i {}, false)
  | (s, ref) => (s.setFd p i { e with used := true, fileRef := ref }, true)

/-! ## Closing -/

/-- `do_sys_close` on a descriptor in use. -/
def closeFd (window : ℕ → List ℕ) (s : FdState) (p : FdProcIdx) (i : FdIdx) : FdState :=
  let e := s.fds (p, i)
  let s := if e.fileRef > 0 then fileRefPut s e.fileRef else s
  let s := { s with objs := fdDropRef window s.objs e.kind e.pipeId }
  s.setFd p i {}

def doSysClose (window : ℕ → List ℕ) (s : FdState) (pid fd : ℤ) : FdState × FdResult :=
  match findProc s pid with
  | none => (s, .error .ebadf)
  | some p =>
    match fdGet s p fd with
    | none => (s, .error .ebadf)
    | some i => (closeFd window s p i, .ok 0)

/-- `fd_proc_release`, less the terminal settings it resets. -/
def fdProcRelease (window : ℕ → List ℕ) (s : FdState) (pid : ℤ) : FdState :=
  match findProc s pid with
  | none => s
  | some p =>
    let s := (List.finRange edgeMaxFd).foldl (fun s i =>
      if (s.fds (p, i)).used then closeFd window s p i else s) s
    s.clearProc p 0

/-- The part of `do_sys_execve` that closes descriptors; the first three are kept. -/
def execCloseFds (window : ℕ → List ℕ) (s : FdState) (pid : ℤ) : FdState :=
  match findProc s pid with
  | none => s
  | some p =>
    (List.finRange edgeMaxFd).foldl (fun s i =>
      let e := s.fds (p, i)
      if !e.used ∨ !e.cloexec then s
      else if i.val ≤ 2 then s.setFd p i { e with cloexec := false }
      else closeFd window s p i) s

/-- `do_sys_execve` past its tests: `loaded` says whether the new image could be set up. -/
def doSysExecve (window : ℕ → List ℕ) (s : FdState) (pid : ℤ) (loaded : Bool) : FdState :=
  let s := execCloseFds window s pid
  if loaded then s else fdProcRelease window s pid

/-! ## Duplicating -/

/-- The common end of `do_sys_fcntl` and `do_sys_dup2`: copy the entry `e` to descriptor
`i`. -/
def dupInto (s : FdState) (p : FdProcIdx) (i : FdIdx) (e : FdEntry) (cloexec : Bool) : FdState × FdResult :=
  match if e.fileRef > 0 then fileRefGet s e.fileRef else none with
  | none => (s.setFd p i {}, .error .enomem)
  | some s =>
    let s := { s with objs := fdAddRef s.objs e.kind e.pipeId }
    (s.setFd p i { e with cloexec := cloexec }, .ok i.val)

/-- `do_sys_fcntl(F_DUPFD)` and `F_DUPFD_CLOEXEC`; `do_sys_dup` is the case `minfd = 0`. -/
def doSysFcntlDupfd (s : FdState) (pid fd minfd : ℤ) (cloexec : Bool) : FdState × FdResult :=
  match fdProcWithStdio s pid with
  | (s, none) => (s, .error .ebadf)
  | (s, some p) =>
    match fdGet s p fd with
    | none => (s, .error .ebadf)
    | some i =>
      match fdAlloc s p minfd with
      | (s, none) => (s, .error .enomem)
      | (s, some j) => dupInto s p j (s.fds (p, i)) cloexec

/-- `do_sys_fcntl(F_SETFD)`. -/
def doSysFcntlSetfd (s : FdState) (pid fd : ℤ) (cloexec : Bool) : FdState × FdResult :=
  match fdProcWithStdio s pid with
  | (s, none) => (s, .error .ebadf)
  | (s, some p) =>
    match fdGet s p fd with
    | none => (s, .error .ebadf)
    | some i => (s.setFd p i { s.fds (p, i) with cloexec := cloexec }, .ok 0)

/-- `F_SETFL`: the access mode stays, the rest is replaced. -/
def setflFlags (flags arg : BitVec 32) : BitVec 32 :=
  flags &&& linuxOAccmode ||| arg &&& ~~~linuxOAccmode

/-- `do_sys_fcntl(F_SETFL)`. -/
def doSysFcntlSetfl (s : FdState) (pid fd : ℤ) (arg : BitVec 32) : FdState × FdResult :=
  match fdProcWithStdio s pid with
  | (s, none) => (s, .error .ebadf)
  | (s, some p) =>
    match fdGet s p fd with
    | none => (s, .error .ebadf)
    | some i =>
      let e := { s.fds (p, i) with flags := setflFlags (s.fds (p, i)).flags arg }
      let s := s.setFd p i e
      match e.kind, tableIndex edgeMaxSockets e.pipeId with
      | .socket, some j =>
        if (s.objs.sockets j).used then
          let x := { s.objs.sockets j with nonblock := hasFlag e.flags linuxONonblock }
          ({ s with objs := s.objs.setSocket j x }, .ok 0)
        else (s, .ok 0)
      | _, _ => (s, .ok 0)

def doSysDup2 (window : ℕ → List ℕ) (s : FdState) (pid oldfd newfd : ℤ) : FdState × FdResult :=
  match fdProcWithStdio s pid with
  | (s, none) => (s, .error .ebadf)
  | (s, some p) =>
    match fdGet s p oldfd, (List.finRange edgeMaxFd).find? fun j => (j.val : ℤ) = newfd with
    | some i, some j =>
      if i = j then (s, .ok j.val) else
      let s := if (s.fds (p, j)).used then closeFd window s p j else s
      dupInto s p j (s.fds (p, i)) false
    | _, _ => (s, .error .ebadf)

def doSysDup3 (window : ℕ → List ℕ) (s : FdState) (pid oldfd newfd : ℤ) (flags : BitVec 32) : FdState × FdResult :=
  if hasFlag flags (~~~linuxOCloexec) ∨ oldfd = newfd then (s, .error .einval) else
  match doSysDup2 window s pid oldfd newfd with
  | (s, .error err) => (s, .error err)
  | (s, .ok r) =>
    if hasFlag flags linuxOCloexec then ((doSysFcntlSetfd s pid r true).1, .ok r)
    else (s, .ok r)

end EdgeOS
