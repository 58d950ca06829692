import EdgeOS.DescriptorCalls

namespace EdgeOS

/-!
Writing through descriptors, `do_sys_fd_write` and `do_sys_writev` of `src/sys/syscall.c`. The
file system below is a parameter: `σ` is its state.
-/

/-- The operations of `src/vfs/vfs.c` that opening and writing use. Every `write` of a file
system changes the size in the caller's inode and nothing else there. -/
structure Vfs (σ : Type) where
  /-- `vfs_resolve`: the inode and the number of the superblock, if there is one. -/
  resolve : σ → String → Option (VfsInode × Option ℕ)
  /-- `vfs_mkdir` and `vfs_mount` for `/proc`. -/
  mountProc : σ → σ
  /-- `vfs_write_file`. -/
  writeFile : σ → String → List UInt8 → σ × ℤ
  /-- Does the superblock have `ops->write`? -/
  hasWrite : σ → ℕ → Bool
  /-- `ops->write(sb, inode, off, buf, len)`: the new state, `inode->size`, the return value. -/
  write : σ → ℕ → VfsInode → ℕ → List UInt8 → σ × ℕ × ℤ
  /-- `vfs_dev_pwrite`. -/
  devPwrite : σ → String → List UInt8 → ℕ → σ × ℤ
  /-- The bytes of a file, by superblock and inode number. -/
  contents : σ → ℕ → ℕ → List UInt8

/-- `VFS_INODE_DIR`, `VFS_INODE_FILE`, `VFS_INODE_CHR`, `VFS_INODE_BLK`. -/
def vfsInodeDir : BitVec 16 := 0x4000
def vfsInodeFile : BitVec 16 := 0x8000
def vfsInodeChr : BitVec 16 := 0x2000
def vfsInodeBlk : BitVec 16 := 0x6000

def VfsInode.type (inode : VfsInode) : BitVec 16 := inode.mode &&& 0xF000

def pathIsConsoleTty (path : String) : Bool :=
  if path = "/dev/tty" ∨ path = "/dev/console" then true
  else if path.startsWith "/dev/tty" then (path.toList.drop 8).all fun c => '0' ≤ c ∧ c ≤ '9'
  else false

/-- A buffer in user memory: whether the pointer is null, its bytes, and which parts of it
`user_range_ok` accepts. -/
structure UserBuf where
  null : Bool := false
  data : List UInt8
  rangeOk : ℕ → ℕ → Bool := fun _ _ => true

section Write

variable {σ : Type} (vfs : Vfs σ)

/-- The loop over a regular file, in pieces of at most 1 MiB. `data` is what is left to write
and `total` counts what has been written. -/
def writeRegular (rangeOk : ℕ → ℕ → Bool) (sb : ℕ) : ℕ → σ → FdEntry → ℕ → List UInt8 → σ × FdEntry × FdResult
  | 0, fs, e, total, _ => (fs, e, .ok total)
  | n + 1, fs, e, total, data =>
    let piece := data.take (2 ^ 20)
    if piece.length = 0 then (fs, e, .ok total)
    else if !rangeOk total piece.length then
      (fs, e, if total = 0 then .error .efault else .ok total)
    else
      let e := if hasFlag e.flags linuxOAppend then { e with pos := e.inode.size } else e
      let (fs, size, w) := vfs.write fs sb e.inode (e.pos % 2 ^ 32) piece
      let e := { e with inode := { e.inode with size := size } }
      if w < 0 then (fs, e, if total = 0 then .error .einval else .ok total)
      else if w = 0 then (fs, e, .ok total)
      else
        let e := { e with pos := e.pos + w.toNat }
        if w < piece.length then (fs, e, .ok (total + w.toNat))
        else writeRegular rangeOk sb n fs e (total + w.toNat) (data.drop w.toNat)

variable {vfs} in
/-- One piece of a write, with what the driver makes of it. -/
theorem writeRegular_piece {rangeOk : ℕ → ℕ → Bool} {sb n total : ℕ} {fs fs' : σ} {e : FdEntry}
    {data : List UInt8} {size : ℕ} {w : ℤ} {pos : ℕ} (hpos : pos = if hasFlag e.flags linuxOAppend then e.inode.size else e.pos)
    (hpiece : (data.take (2 ^ 20)).length ≠ 0) (hr : rangeOk total (data.take (2 ^ 20)).length = true)
    (hout : vfs.write fs sb e.inode (pos % 2 ^ 32) (data.take (2 ^ 20)) = (fs', size, w)) :
    writeRegular vfs rangeOk sb (n + 1) fs e total data =
      let e := { e with pos := pos, inode := { e.inode with size := size } }
      if w < 0 then (fs', e, if total = 0 then .error .einval else .ok total)
      else if w = 0 then (fs', e, .ok total)
      else
        let e := { e with pos := pos + w.toNat }
        if w < (data.take (2 ^ 20)).length then (fs', e, .ok (total + w.toNat))
        else writeRegular vfs rangeOk sb n fs' e (total + w.toNat) (data.drop w.toNat) := by
  have hstart : (if hasFlag e.flags linuxOAppend then { e with pos := e.inode.size } else e) =
      { e with pos := pos } := by
    rw [hpos]
    split <;> rfl
  rw [writeRegular, if_neg hpiece, if_neg (by simp only [hr]; decide), hstart]
  rcases vfs with ⟨resolve, mountProc, writeFile, hasWrite, write, devPwrite, contents⟩
  dsimp only at hout ⊢
  rw [hout]

/-- One piece to a device: `vfs_dev_pwrite` or, for a block device, `vfs_write_file`. -/
def writePiece (fs : σ) (e : FdEntry) (piece : List UInt8) : σ × ℤ :=
  if e.inode.type = vfsInodeChr then vfs.devPwrite fs e.path piece e.pos
  else if e.inode.type = vfsInodeBlk then vfs.writeFile fs e.path piece
  else (fs, -1)

def writeDevice (rangeOk : ℕ → ℕ → Bool) : ℕ → σ → FdEntry → ℕ → List UInt8 → σ × FdEntry × FdResult
  | 0, fs, e, total, _ => (fs, e, .ok total)
  | n + 1, fs, e, total, data =>
    let piece := data.take 4096
    if piece.length = 0 then (fs, e, .ok total)
    else if !rangeOk total piece.length then (fs, e, .error .efault)
    else
      let (fs, w) := writePiece vfs fs e piece
      let e := if e.inode.type = vfsInodeChr ∧ 0 < w then { e with pos := e.pos + w.toNat } else e
      if w < 0 then (fs, e, .error .einval)
      else if w < piece.length then (fs, e, .ok (total + w.toNat))
      else writeDevice rangeOk n fs e (total + w.toNat) (data.drop w.toNat)

/-- The part of `do_sys_fd_write` for a descriptor of kind `FD_VFS`. The access mode in
`flags` is not looked at. -/
def writeVfs (fs : σ) (e : FdEntry) (buf : UserBuf) : σ × FdEntry × FdResult :=
  if e.inode.type = vfsInodeDir then (fs, e, .error .eisdir)
  else
    match e.sb with
    | some sb =>
      if e.inode.type ≠ vfsInodeChr ∧ e.inode.type ≠ vfsInodeBlk ∧ vfs.hasWrite fs sb then
        writeRegular vfs buf.rangeOk sb buf.data.length fs e 0 buf.data
      else writeDevice vfs buf.rangeOk buf.data.length fs e 0 buf.data
    | none => writeDevice vfs buf.rangeOk buf.data.length fs e 0 buf.data

/-- `do_sys_fd_write`. `elsewhere` is the answer for a descriptor that is not a file: a
console, terminal, socket, pipe or special object, whose buffers are not modelled. -/
def doSysFdWrite (s : FdState) (fs : σ) (pid fd : ℤ) (buf : UserBuf) (elsewhere : FdResult) : FdState × σ × FdResult :=
  if buf.null then (s, fs, .error .einval)
  else if buf.data.length = 0 then (s, fs, .ok 0)
  else
  match fdProcWithStdio s pid with
  | (s, none) => (s, fs, .error .ebadf)
  | (s, some p) =>
  match fdGet s p fd with
  | none => (s, fs, .error .ebadf)
  | some i =>
    let e := s.fds (p, i)
    if e.kind ≠ .vfs ∨ pathIsConsoleTty e.path then (s, fs, elsewhere)
    else
      let (fs, e, r) := writeVfs vfs fs e buf
      (s.setFd p i e, fs, r)

/-- The loop of `do_sys_writev`: it stops at an error and at a short write. -/
def writevLoop (pid fd : ℤ) (elsewhere : FdResult) : List UserBuf → FdState → σ → ℕ → FdState × σ × FdResult
  | [], s, fs, total => (s, fs, .ok total)
  | buf :: bufs, s, fs, total =>
    if buf.data.length = 0 then writevLoop pid fd elsewhere bufs s fs total
    else
      match doSysFdWrite vfs s fs pid fd buf elsewhere with
      | (s, fs, .error err) => (s, fs, if total = 0 then .error err else .ok total)
      | (s, fs, .ok w) =>
        if w < buf.data.length then (s, fs, .ok (total + w))
        else writevLoop pid fd elsewhere bufs s fs (total + w)

/-- `do_sys_writev`; `copied` says whether the vector could be read. -/
def doSysWritev (s : FdState) (fs : σ) (pid fd : ℤ) (bufs : List UserBuf) (copied : Bool)
    (elsewhere : FdResult) : FdState × σ × FdResult :=
  if bufs.length = 0 ∨ bufs.length > 64 then (s, fs, .error .einval)
  else if !copied then (s, fs, .error .efault)
  else writevLoop vfs pid fd elsewhere bufs s fs 0

/-! ## Opening files -/

/-- The paths that `do_sys_openat` does not look up. -/
def specialPath (path : String) : Bool :=
  path = "/dev/tty" ∨ path = "/dev/ptmx" ∨ path.startsWith "/dev/pts/"

/-- The lookup of `do_sys_openat`: `/proc` is mounted on demand and `O_CREAT` makes a missing
file. -/
def openResolve (fs : σ) (flags : BitVec 32) (path : String) : σ × Option (VfsInode × Option ℕ) :=
  let fs := if (vfs.resolve fs path).isNone ∧ (path = "/proc" ∨ path.startsWith "/proc/") then
    vfs.mountProc fs else fs
  match vfs.resolve fs path with
  | some r => (fs, some r)
  | none =>
    if !hasFlag flags linuxOCreat then (fs, none)
    else
      match vfs.writeFile fs path [] with
      | (fs, w) => if w < 0 then (fs, none) else (fs, vfs.resolve fs path)

/-- `do_sys_openat` with its file system. -/
def openFile (s : FdState) (fs : σ) (cur : Caller) (flags : BitVec 32)
    (path : Except Errno String) : FdState × σ × FdResult :=
  match (fdProcWithStdio s cur.pid).2, path with
  | some _, .ok name =>
    if specialPath name then
      let (s, r) := doSysOpenat s cur flags path none
      (s, fs, r)
    else
      let (fs, resolved) := openResolve vfs fs flags name
      match doSysOpenat s cur flags path resolved with
      | (s, .error err) => (s, fs, .error err)
      | (s, .ok fd) =>
        if hasFlag flags linuxOTrunc ∧ hasFlag flags (linuxOWronly ||| linuxORdwr) then
          (s, (vfs.writeFile fs name []).1, .ok fd)
        else (s, fs, .ok fd)
  | _, _ =>
    let (s, r) := doSysOpenat s cur flags path none
    (s, fs, r)

end Write

end EdgeOS
