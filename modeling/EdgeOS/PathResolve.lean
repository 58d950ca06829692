import EdgeOS.Filesystems

namespace EdgeOS

/-!
`vfs_resolve` of `src/vfs/vfs.c` with what it calls. A path is a string of C, without its zero.
-/

/-- `vfs_superblock_t`. -/
structure Superblock where
  mountpoint : Bytes
  root : VfsNode
  fs : Filesystem

/-- `g_mounts`, `g_devnodes` (name and mode) and the working directory of the running task. -/
structure VfsTables where
  mounts : List Superblock
  devnodes : List (Bytes × BitVec 16) := []
  cwd : Bytes := ascii "/"

def slash : UInt8 := 47

/-! ## Normalisation -/

/-- What `normalize_path` does at a component `..`: back over the last component, up to and with
the slash before it if one is left there. -/
def popComponent (out : Bytes) : Bytes :=
  if 1 < out.length then (out.dropLast.reverse.dropWhile (· ≠ slash)).reverse else out

/-- Appending to `out` stops one byte before the end of the buffer. -/
def appendCut (out part : Bytes) : Bytes := out ++ part.take (vfsPathMax - 1 - out.length)

/-- A round of the loop of `normalize_path`. -/
def pushComponent (out part : Bytes) : Bytes :=
  if part = [] then out
  else if part = ascii "." then out
  else if part = ascii ".." then popComponent out
  else appendCut (if 1 < out.length then appendCut out [slash] else out) part

def pathParts (path : Bytes) : List Bytes := path.splitOn slash

def normalizePath (cwd path : Bytes) : Bytes :=
  let tmp :=
    if path = [] then cwd
    else if path.head? = some slash then path
    else cwd ++ (if cwd = [slash] then [] else [slash]) ++ path
  (pathParts tmp).foldl pushComponent [slash]

/-! ## Devices -/

def parseDecimalStr (s : Bytes) : Option ℕ :=
  if s = [] then none
  else s.foldl (fun v c => v.bind fun v =>
    if isDigit c ∧ v * 10 + (c - 48).toNat ≤ 1000000 then some (v * 10 + (c - 48).toNat) else none) (some 0)

def devInputIsMouseStream (name : Bytes) : Bool := name = ascii "input/mice" ∨ name = ascii "input/mouse0"

def devInputIsEventStream (name : Bytes) : Bool := name = ascii "input/event0"

def VfsTables.devnodeFind (v : VfsTables) (name : Bytes) : Option ℕ :=
  v.devnodes.findIdx? fun d => d.1 = name

def VfsTables.tryResolveDevpath (v : VfsTables) (abs : Bytes) : Option VfsNode :=
  if !(ascii "/dev/").isPrefixOf abs then none
  else
    let name := abs.drop 5
    if name = ascii "pts" then some { ino := 0xD0FFF000, mode := vfsInodeDir ||| 0o755 }
    else if name = ascii "input" then some { ino := 0xD0FFE000, mode := vfsInodeDir ||| 0o755 }
    else if devInputIsMouseStream name ∨ devInputIsEventStream name then
      some { ino := if devInputIsEventStream name then 0xD0FFE101 else 0xD0FFE100
             mode := vfsInodeChr ||| 0o666 }
    else if (ascii "pts/").isPrefixOf name then
      (parseDecimalStr (name.drop 4)).map fun idx =>
        { ino := 0xD0FFF100 + idx, mode := vfsInodeChr ||| 0o620 }
    else if name = [] ∨ slash ∈ name then none
    else
      (v.devnodeFind name).map fun idx =>
        { ino := 0xD0000000 + idx, mode := (v.devnodes.getD idx ([], 0)).2 }

/-! ## Mounts -/

/-- The mount point is a prefix of the path that ends at a slash. -/
def Superblock.covers (sb : Superblock) (path : Bytes) : Bool :=
  sb.mountpoint.isPrefixOf path ∧ (path.length = sb.mountpoint.length ∨ path[sb.mountpoint.length]? = some slash ∨
      sb.mountpoint.length = 1)

/-- `vfs_find_mount`: of the longest mount points the first. -/
def VfsTables.findMount (v : VfsTables) (path : Bytes) : Option Superblock :=
  v.mounts.foldl (fun best sb =>
    if sb.covers path ∧ ∀ b ∈ best, b.mountpoint.length < sb.mountpoint.length then some sb else best) none

def Superblock.below (sb : Superblock) (abs : Bytes) : Bytes :=
  if sb.mountpoint.length = 1 then abs.drop 1
  else if abs[sb.mountpoint.length]? = some slash then abs.drop (sb.mountpoint.length + 1)
  else abs.drop sb.mountpoint.length

/-- The loop of `vfs_resolve` over the components. A component is cut to the size of its buffer,
and the inode it is looked up in may be of any type. -/
def resolveWalk (fs : Filesystem) : VfsNode → List Bytes → Option VfsNode
  | cur, [] => some cur
  | cur, part :: parts =>
    let part := part.take (vfsNameMax - 1)
    if part = [] ∨ part = ascii "." ∨ part = ascii ".." then resolveWalk fs cur parts
    else
      match fs.lookup cur part with
      | none => none
      | some x => resolveWalk fs x parts

/-- `vfs_resolve`: the inode, and the superblock unless it is a device. -/
def vfsResolve (v : VfsTables) (path : Bytes) : Option (VfsNode × Option Superblock) :=
  let abs := normalizePath v.cwd path
  match v.tryResolveDevpath abs with
  | some x => some (x, none)
  | none =>
    match v.findMount abs with
    | none => none
    | some sb => (resolveWalk sb.fs sb.root (pathParts (sb.below abs))).map fun x => (x, some sb)

end EdgeOS
