import EdgeOS.FileWrite

namespace EdgeOS

/-!
Reading and seeking through descriptors, `do_sys_fd_read` and `do_sys_lseek` of
`src/sys/syscall.c`. A position belongs to a descriptor: `edge_file_ref_t` counts the
descriptors of one `openat` and has no position.
-/

/-- The operations of `src/vfs/vfs.c` that reading uses. `none` is a negative return value;
otherwise the bytes are those put in the kernel's buffer. -/
structure VfsReads (σ : Type) where
  /-- Does the superblock have `ops->read`? -/
  hasRead : σ → ℕ → Bool
  /-- `ops->read(sb, inode, off, buf, len)`. -/
  read : σ → ℕ → VfsInode → ℕ → ℕ → Option (List UInt8)
  /-- `vfs_read_file`. -/
  readFile : σ → String → ℕ → Option (List UInt8)

def pathIsMouseInput (path : String) : Bool :=
  path = "/dev/input/mice" ∨ path = "/dev/input/mouse0"

/-- A buffer to read into: `copied off n` says whether `copy_to_user` can store `n` bytes at
offset `off`. -/
structure ReadBuf where
  null : Bool := false
  len : ℕ
  copied : ℕ → ℕ → Bool := fun _ _ => true

section Read

variable {σ : Type} (reads : VfsReads σ)

/-- One piece of a read. Only the read of a superblock moves the position. -/
def readPiece (fs : σ) (e : FdEntry) (n : ℕ) : Option (FdEntry × List UInt8) :=
  if e.inode.type = vfsInodeChr ∨ e.inode.type = vfsInodeBlk then
    (reads.readFile fs e.path n).map fun bytes => (e, bytes)
  else
    match e.sb with
    | none => none
    | some sb =>
      if reads.hasRead fs sb then
        (reads.read fs sb e.inode (e.pos % 2 ^ 32) n).map fun bytes =>
          ({ e with pos := e.pos + bytes.length }, bytes)
      else none

/-- The loop of `do_sys_fd_read` over a file, in pieces of at most 4096 bytes. `done` are the
bytes stored in the user's buffer. -/
def readLoop (fs : σ) (buf : ReadBuf) : ℕ → FdEntry → List UInt8 → FdEntry × Except Errno (List UInt8)
  | 0, e, done => (e, .ok done)
  | fuel + 1, e, done =>
    let n := min (buf.len - done.length) 4096
    if n = 0 then (e, .ok done)
    else
      match readPiece reads fs e n with
      | none => (e, .error .einval)
      | some (e, bytes) =>
        if bytes.length = 0 then (e, .ok done)
        else if !buf.copied done.length bytes.length then (e, .error .efault)
        else if bytes.length < n then (e, .ok (done ++ bytes))
        else readLoop fs buf fuel e (done ++ bytes)

/-- The part of `do_sys_fd_read` for a descriptor of kind `FD_VFS`. Every round but the last
reads at least one byte, so that `len` rounds are enough. -/
def readVfs (fs : σ) (e : FdEntry) (buf : ReadBuf) : FdEntry × Except Errno (List UInt8) :=
  if e.inode.type = vfsInodeDir then (e, .error .eisdir)
  else readLoop reads fs buf buf.len e []

/-- `do_sys_fd_read`. `elsewhere` is the answer for a descriptor that is not a file. -/
def doSysFdRead (s : FdState) (fs : σ) (pid fd : ℤ) (buf : ReadBuf)
    (elsewhere : Except Errno (List UInt8)) : FdState × Except Errno (List UInt8) :=
  if buf.null then (s, .error .einval)
  else if buf.len = 0 then (s, .ok [])
  else
  match fdProcWithStdio s pid with
  | (s, none) => (s, .error .ebadf)
  | (s, some p) =>
  match fdGet s p fd with
  | none => (s, .error .ebadf)
  | some i =>
    let e := s.fds (p, i)
    if e.kind ≠ .vfs ∨ pathIsConsoleTty e.path ∨ pathIsMouseInput e.path then (s, elsewhere)
    else
      let (e, r) := readVfs reads fs e buf
      (s.setFd p i e, r)

end Read

/-- `LINUX_SEEK_SET`, `LINUX_SEEK_CUR`, `LINUX_SEEK_END`. -/
def linuxSeekSet : ℤ := 0
def linuxSeekCur : ℤ := 1
def linuxSeekEnd : ℤ := 2

/-- Where `do_sys_lseek` takes the offset from. -/
def seekBase (e : FdEntry) (whence : ℤ) : Option ℕ :=
  if whence = linuxSeekSet then some 0
  else if whence = linuxSeekCur then some e.pos
  else if whence = linuxSeekEnd then some e.inode.size
  else none

/-- The new position, if it is not negative as an `int64_t`. -/
def seekTarget (e : FdEntry) (off : BitVec 64) (whence : ℤ) : Option ℕ :=
  match seekBase e whence with
  | none => none
  | some base =>
    let np := BitVec.ofNat 64 base + off
    if np.toInt < 0 then none else some np.toNat

/-- `do_sys_lseek`, for a descriptor of any kind. -/
def doSysLseek (s : FdState) (pid fd : ℤ) (off : BitVec 64) (whence : ℤ) : FdState × FdResult :=
  match fdProcWithStdio s pid with
  | (s, none) => (s, .error .ebadf)
  | (s, some p) =>
  match fdGet s p fd with
  | none => (s, .error .ebadf)
  | some i =>
    match seekTarget (s.fds (p, i)) off whence with
    | none => (s, .error .einval)
    | some np => (s.setFd p i { s.fds (p, i) with pos := np }, .ok np)

end EdgeOS
