import EdgeOS.PathResolve
import EdgeOS.Task

namespace EdgeOS

/-!
The calls that take a path: the rest of `src/vfs/vfs.c` and the calls of `src/sys/syscall.c` that
open, look at, create and remove what a path names. What the file systems and devices below do
is a parameter: `σ` is their state.
-/

/-- `vfs_permission_check` for the running task. -/
def Cred.grants (cred : Cred) (x : VfsNode) (mask : BitVec 16) : Bool :=
  vfsPermissionCheck x.toVfsInode mask cred.euid cred.egid

/-- `vfs_current_umask`. -/
def Cred.mask (cred : Cred) : BitVec 16 := BitVec.ofNat 16 cred.umask &&& 0o777

/-- What is mounted, and the operations that `vfs.c` calls. `none` and `false` are negative return
values. -/
structure VfsDrivers (σ : Type) where
  tables : σ → VfsTables
  /-- The end of `vfs_read_file`: a device or `ops->read` at offset 0, for a path, its inode and the
  size of the buffer. -/
  read : σ → Bytes → VfsNode → Option Superblock → ℕ → Option Bytes
  /-- A device or `ops->write` at offset 0, in `vfs_write_file`. -/
  write : σ → VfsNode → Option Superblock → Bytes → σ × Bool
  create : σ → Superblock → VfsNode → Bytes → BitVec 16 → σ × Option VfsNode
  mkdir : σ → Superblock → VfsNode → Bytes → BitVec 16 → σ × Bool
  unlink : σ → Superblock → VfsNode → Bytes → σ × Bool
  /-- `elf_valid` for the first bytes of a file. -/
  elfValid : Bytes → Bool
  /-- What `do_sys_execve` does after its preflight starts the program. -/
  loads : σ → Bytes → VfsNode → Bool

/-- `path_split_last`: the directory and the last name. -/
def pathSplitLast (path : Bytes) : Option (Bytes × Bytes) :=
  let stripped := (path.reverse.dropWhile (· = slash)).reverse
  let path := if stripped = [] then path.take 1 else stripped
  let leaf := ((path.drop 1).reverse.takeWhile (· ≠ slash)).reverse
  if leaf = [] ∨ vfsNameMax ≤ leaf.length then none
  else
    let cut := path.length - 1 - leaf.length
    some (if cut = 0 then [slash] else path.take cut, leaf)

section Files

variable {σ : Type} (d : VfsDrivers σ) (s : σ) (cred : Cred)

/-- `vfs_resolve` in a state. -/
def VfsDrivers.resolve (path : Bytes) : Option (VfsNode × Option Superblock) := vfsResolve (d.tables s) path

def vfsReadFile (path : Bytes) (max : ℕ) : Option Bytes :=
  match d.resolve s path with
  | none => none
  | some (x, sb) => if !cred.grants x 4 then none else d.read s path x sb max

/-- The parent directory of a path and the last name, when the task may create and remove there.
Without a superblock there are no operations. -/
def vfsParent (path : Bytes) : Option (Superblock × VfsNode × Bytes) :=
  match pathSplitLast (normalizePath (d.tables s).cwd path) with
  | none => none
  | some (parent, leaf) =>
    match d.resolve s parent with
    | none => none
    | some (_, none) => none
    | some (x, some sb) => if !cred.grants x 3 then none else some (sb, x, leaf)

def vfsWriteFile (path buf : Bytes) : σ × Bool :=
  match d.resolve s (normalizePath (d.tables s).cwd path) with
  | some (x, sb) => if !cred.grants x 2 then (s, false) else d.write s x sb buf
  | none =>
    match vfsParent d s cred path with
    | none => (s, false)
    | some (sb, x, leaf) =>
      match d.create s sb x leaf (vfsInodeFile ||| (0o644 &&& ~~~cred.mask)) with
      | (s, none) => (s, false)
      | (s, some y) => d.write s y (some sb) buf

def vfsMkdir (path : Bytes) : σ × Bool :=
  match vfsParent d s cred path with
  | none => (s, false)
  | some (sb, x, leaf) => d.mkdir s sb x leaf (vfsInodeDir ||| (0o755 &&& ~~~cred.mask))

def vfsUnlink (path : Bytes) : σ × Bool :=
  match vfsParent d s cred path with
  | none => (s, false)
  | some (sb, x, leaf) =>
    match sb.fs.lookup x leaf with
    | some victim =>
      if x.mode &&& 0o1000 ≠ 0 ∧ cred.euid ≠ 0 ∧ cred.euid ≠ x.uid ∧ cred.euid ≠ victim.uid then (s, false)
      else d.unlink s sb x leaf
    | none => d.unlink s sb x leaf

/-- `vfs_chdir`, without the change of the working directory. -/
def vfsChdir (path : Bytes) : Bool :=
  match d.resolve s (normalizePath (d.tables s).cwd path) with
  | none => false
  | some (x, _) => x.mode &&& vfsInodeDir ≠ 0 ∧ cred.grants x 1

def truncateVfsPathToLen (path : Bytes) (len : ℕ) : σ × FdResult :=
  if path = [] then (s, .error .einval)
  else if 131072 < len then (s, .error .efbig)
  else
    match vfsReadFile d s cred path 131072 with
    | none => (s, .error .eio)
    | some bytes =>
      match vfsWriteFile d s cred path ((bytes ++ List.replicate (len - bytes.length) 0).take len) with
      | (s, false) => (s, .error .eio)
      | (s, true) => (s, .ok 0)

/-- `elf_loader_probe`: the first 64 bytes are read. -/
def elfLoaderProbe (path : Bytes) : Bool :=
  match vfsReadFile d s cred path 64 with
  | none => false
  | some bytes => 64 ≤ bytes.length ∧ d.elfValid bytes

/-! ## The calls -/

/-- Calls that take paths, which have been copied from the user and made absolute. `room` says that a
descriptor and a file reference are free, `stored` that the answer can be stored. -/
inductive PathCall
  | open (path : Bytes) (flags : BitVec 32) (room : Bool)
  | stat (path : Bytes) (stored : Bool)
  | access (path : Bytes) (mode : BitVec 64)
  | chdir (path : Bytes)
  | execve (path : Bytes)
  | unlink (path : Bytes)
  | mkdir (path : Bytes)
  | rename (oldp newp : Bytes)
  | truncate (path : Bytes) (len : BitVec 64)

/-- The inode that `do_sys_openat` opens, from its second `vfs_resolve` on. The terminals are opened
by name before, and a path below `/proc` that is not found has `/proc` made and mounted. -/
def openFind (path : Bytes) (flags : BitVec 32) : σ × Option VfsNode :=
  match d.resolve s path with
  | some (x, _) => (s, some x)
  | none =>
    if !hasFlag flags linuxOCreat then (s, none)
    else
      match vfsWriteFile d s cred path [] with
      | (s, false) => (s, none)
      | (s, true) => (s, (d.resolve s path).map (·.1))

/-- `do_sys_openat`. -/
def doSysOpen (path : Bytes) (flags : BitVec 32) (room : Bool) : σ × FdResult :=
  match openFind d s cred path flags with
  | (s, none) => (s, .error .enoent)
  | (s, some x) =>
    if !cred.grants x (openRequest flags) then (s, .error .eacces)
    else if !room then (s, .error .enomem)
    else if hasFlag flags linuxOTrunc ∧ hasFlag flags (linuxOWronly ||| linuxORdwr) then
      ((vfsWriteFile d s cred path []).1, .ok 0)
    else (s, .ok 0)

/-- `do_sys_stat_path`, `do_sys_newfstatat`, `do_sys_statx`. -/
def doSysStat (path : Bytes) (stored : Bool) : σ × FdResult :=
  match d.resolve s path with
  | none => (s, .error .enoent)
  | some _ => (s, if stored then .ok 0 else .error .efault)

/-- `do_sys_access`, `do_sys_faccessat2`. -/
def doSysAccess (path : Bytes) (mode : BitVec 64) : σ × FdResult :=
  match d.resolve s path with
  | none => (s, .error .enoent)
  | some (x, _) =>
    if mode = 0 then (s, .ok 0)
    else (s, if cred.grants x ((mode &&& 7).setWidth 16) then .ok 0 else .error .eacces)

def doSysChdir (path : Bytes) : σ × FdResult :=
  match d.resolve s path with
  | none => (s, .error .enoent)
  | some (x, _) =>
    if x.type ≠ vfsInodeDir then (s, .error .enotdir)
    else (s, if vfsChdir d s cred path then .ok 0 else .error .einval)

/-- The file of `do_sys_execve`, from its preflight on. -/
def execvePath (path : Bytes) : σ × FdResult :=
  match d.resolve s path with
  | none => (s, .error .enoent)
  | some (x, _) =>
    if x.type = vfsInodeDir then (s, .error .eacces)
    else if !elfLoaderProbe d s cred path then (s, .error .enoexec)
    else (s, if d.loads s path x then .ok 0 else .error .eio)

def doSysUnlink (path : Bytes) : σ × FdResult :=
  match d.resolve s path with
  | none => (s, .error .enoent)
  | some (x, _) =>
    if x.type = vfsInodeDir then (s, .error .eisdir)
    else
      match vfsUnlink d s cred path with
      | (s, true) => (s, .ok 0)
      | (s, false) => (s, .error .eio)

def doSysMkdir (path : Bytes) : σ × FdResult :=
  match d.resolve s path with
  | some _ => (s, .error .eexist)
  | none =>
    match vfsMkdir d s cred path with
    | (s, true) => (s, .ok 0)
    | (s, false) => (s, .error .enoent)

def VfsDrivers.isDirectory (path : Bytes) : Bool :=
  match d.resolve s path with
  | none => false
  | some (x, _) => x.type = vfsInodeDir

/-- `do_sys_rename`, `do_sys_renameat`: the file is copied, at most 131072 bytes of it. -/
def doSysRename (oldp newp : Bytes) : σ × FdResult :=
  match d.resolve s oldp with
  | none => (s, .error .enoent)
  | some (x, _) =>
    if x.type = vfsInodeDir then (s, .error .eisdir)
    else if d.isDirectory s newp then (s, .error .eisdir)
    else
      match vfsReadFile d s cred oldp 131072 with
      | none => (s, .error .eio)
      | some bytes =>
        match vfsWriteFile d s cred newp bytes with
        | (s, false) => (s, .error .exdev)
        | (s, true) =>
          match vfsUnlink d s cred oldp with
          | (s, false) => (s, .error .eio)
          | (s, true) => (s, .ok 0)

def doSysTruncate (path : Bytes) (len : BitVec 64) : σ × FdResult :=
  if len.toInt < 0 then (s, .error .einval)
  else
    match d.resolve s path with
    | none => (s, .error .enoent)
    | some (x, _) =>
      if x.type = vfsInodeDir then (s, .error .eisdir)
      else truncateVfsPathToLen d s cred path len.toNat

def PathCall.run : PathCall → σ × FdResult
  | .open path flags room => doSysOpen d s cred path flags room
  | .stat path stored => doSysStat d s path stored
  | .access path mode => doSysAccess d s cred path mode
  | .chdir path => doSysChdir d s cred path
  | .execve path => execvePath d s cred path
  | .unlink path => doSysUnlink d s cred path
  | .mkdir path => doSysMkdir d s cred path
  | .rename oldp newp => doSysRename d s cred oldp newp
  | .truncate path len => doSysTruncate d s cred path len

end Files

end EdgeOS
