import EdgeOS.Ext4

namespace EdgeOS

/-!
The lookups of the other file systems: `src/fs/ext2/ext2.c`, `src/fs/procfs.c` and the file system
in memory of `src/fs/fat32.c`. What `vfs_superblock_t` calls is one of the four.
-/

/-! ## ext2 -/

/-- The fields of `ext2_fs_t` that reading uses. -/
structure Ext2Fs where
  bdev : BlockDevice
  inodesCount : UInt32
  inodeSize : UInt16
  inodeTable : UInt32
  blockSize : UInt32

namespace Ext2Fs

variable (fs : Ext2Fs)

def readBlock (block : UInt32) : Option Bytes := fs.bdev.readBlock fs.blockSize block

/-- `read_inode`: there is only the table of the first group. -/
def readInode (ino : UInt32) : Option ExtInode :=
  if ino = 0 ∨ fs.inodesCount < ino then none
  else
    let off := (ino - 1) * fs.inodeSize.toUInt32
    let boff := off % fs.blockSize
    if fs.blockSize < boff + 128 then none
    else (fs.readBlock (fs.inodeTable + off / fs.blockSize)).map fun blk => extInodeAt blk boff.toNat

def recLenMin (nameLen : ℕ) : ℕ := (8 + nameLen + 3) / 4 * 4

/-- A record that `ext2_lookup` looks at. -/
def live (de : Dirent) : Bool :=
  de.inode ≠ 0 ∧ 0 < de.nameLen ∧ de.nameLen < vfsNameMax ∧ recLenMin de.nameLen ≤ de.recLen

/-- The twelve direct blocks, which are all that a lookup reads. -/
def fileBlocks (inode : ExtInode) : List (Option Bytes) :=
  (List.range 12).map fun bi =>
    let phys := rd32le inode.block (4 * bi)
    if phys = 0 then none else fs.readBlock phys

def fill (dir : VfsNode) (de : Dirent) : Option VfsNode :=
  match fs.readInode de.inode with
  | none => none
  | some inode =>
    let mode := vfsModeFromExt inode.mode
    if mode = 0 then none
    else some { dir with
      ino := de.inode.toNat, mode := mode, size := inode.sizeLo.toNat
      uid := inode.uid.toNat, gid := inode.gid.toNat }

/-- `ext2_lookup`. -/
def lookup (dir : VfsNode) (name : Bytes) : Option VfsNode :=
  match fs.readInode dir.ino.toUInt32 with
  | none => none
  | some dino =>
    match lookupBlocks fs.blockSize.toNat live name (fs.fileBlocks dino) with
    | none => none
    | some de => fs.fill dir de

end Ext2Fs

/-! ## procfs -/

/-- `PROC_NODE_ROOT` and so on. -/
def procNodeRoot : ℕ := 1
def procNodeSelfDir : ℕ := 2
def procNodePidDir : ℕ := 3
def procNodeStat : ℕ := 4
def procNodeStatus : ℕ := 5
def procNodeCmdline : ℕ := 6
def procNodeMeminfo : ℕ := 7
def procNodeUptime : ℕ := 8
def procNodeMounts : ℕ := 9
def procNodeStatGlobal : ℕ := 10
def procNodeLoadavg : ℕ := 11
def procNodeNetDir : ℕ := 12
def procNodeNetDev : ℕ := 13
def procNodeNetIfInet6 : ℕ := 14

/-- The tasks that are in use, by their `int` number, and the one that runs. -/
structure ProcTasks where
  self : ℕ
  pids : List ℕ
  bounded : ∀ pid ∈ pids, pid < 2 ^ 31

/-- `proc_fill_inode`, with the number of `proc_ino_make`. -/
def procFillInode (node pid : ℕ) (mode : BitVec 16) (tag : ℕ) : VfsNode where
  ino := 0xF0000000 ||| node <<< 20 ||| (pid &&& 0xFFF) <<< 8 ||| (tag &&& 0xFF)
  mode := mode
  private0 := node
  private1 := pid

def isDigit (c : UInt8) : Bool := 48 ≤ c ∧ c ≤ 57

/-- `proc_parse_u32`: the number wraps. -/
def procParseU32 (s : Bytes) : Option UInt32 :=
  if s = [] ∨ !s.all isDigit then none
  else some (s.foldl (fun n c => n * 10 + (c - 48).toUInt32) 0)

def procRootNames : List (Bytes × VfsNode) :=
  [(ascii "self", procFillInode procNodeSelfDir 0 (vfsInodeDir ||| 0o555) 1),
   (ascii "meminfo", procFillInode procNodeMeminfo 0 (vfsInodeFile ||| 0o444) 2),
   (ascii "uptime", procFillInode procNodeUptime 0 (vfsInodeFile ||| 0o444) 3),
   (ascii "mounts", procFillInode procNodeMounts 0 (vfsInodeFile ||| 0o444) 4),
   (ascii "stat", procFillInode procNodeStatGlobal 0 (vfsInodeFile ||| 0o444) 5),
   (ascii "loadavg", procFillInode procNodeLoadavg 0 (vfsInodeFile ||| 0o444) 6),
   (ascii "net", procFillInode procNodeNetDir 0 (vfsInodeDir ||| 0o555) 9)]

def procRootInode : VfsNode := procFillInode procNodeRoot 0 (vfsInodeDir ||| 0o555) 0

def procNetNames : List (Bytes × VfsNode) :=
  [(ascii "..", procRootInode),
   (ascii "dev", procFillInode procNodeNetDev 0 (vfsInodeFile ||| 0o444) 10),
   (ascii "if_inet6", procFillInode procNodeNetIfInet6 0 (vfsInodeFile ||| 0o444) 11)]

def procPidNames (pid : ℕ) : List (Bytes × VfsNode) :=
  [(ascii "..", procRootInode),
   (ascii "stat", procFillInode procNodeStat pid (vfsInodeFile ||| 0o444) 6),
   (ascii "status", procFillInode procNodeStatus pid (vfsInodeFile ||| 0o444) 7),
   (ascii "cmdline", procFillInode procNodeCmdline pid (vfsInodeFile ||| 0o444) 8)]

/-- The chain of `strcmp` of `proc_lookup`. -/
def nodeNamed (names : List (Bytes × VfsNode)) (name : Bytes) : Option VfsNode :=
  (names.find? (·.1 = name)).map (·.2)

/-- `proc_lookup`. -/
def ProcTasks.lookup (p : ProcTasks) (dir : VfsNode) (name : Bytes) : Option VfsNode :=
  if name = ascii "." then some dir
  else if dir.private0 = procNodeRoot then
    if name = ascii ".." then some dir
    else
      match nodeNamed procRootNames name with
      | some x => some x
      | none =>
        match procParseU32 name with
        | none => none
        | some pid =>
          if pid.toNat ∈ p.pids then some (procFillInode procNodePidDir pid.toNat (vfsInodeDir ||| 0o555) 7)
          else none
  else if dir.private0 = procNodeNetDir then nodeNamed procNetNames name
  else
    let pid := if dir.private0 = procNodeSelfDir then p.self else dir.private1
    if (dir.private0 = procNodePidDir ∨ dir.private0 = procNodeSelfDir) ∧ pid ∈ p.pids then
      nodeNamed (procPidNames pid) name
    else none

/-! ## The file system in memory -/

def fat32NameMax : ℕ := 63

/-- `fat32_node_t`, without its contents. -/
structure Fat32Node where
  used : Bool := false
  isDir : Bool := false
  parent : ℕ := 0
  name : Bytes := []
  size : ℕ := 0
  deriving DecidableEq, Repr

/-- `g_nodes`. -/
abbrev Fat32Nodes := List Fat32Node

def Fat32Nodes.findChild (nodes : Fat32Nodes) (parent : ℕ) (name : Bytes) : Option ℕ :=
  nodes.findIdx? fun n => n.used ∧ n.parent = parent ∧ n.name = name

/-- `fat32_resolve` for a path of one component. -/
def Fat32Nodes.resolve (nodes : Fat32Nodes) (part : Bytes) (idx : ℕ) : Option ℕ :=
  if part = ascii "." then some idx
  else if part = ascii ".." then some (if idx ≠ 0 then (nodes.getD idx {}).parent else idx)
  else nodes.findChild idx (part.take fat32NameMax)

/-- `f_lookup`. The inode number is the address of the node; here it is its place in `g_nodes`,
counted from one. -/
def Fat32Nodes.lookup (nodes : Fat32Nodes) (dir : VfsNode) (name : Bytes) : Option VfsNode :=
  match nodes.resolve name (dir.ino - 1) with
  | none => none
  | some idx =>
    let n := nodes.getD idx {}
    some { dir with
      ino := idx + 1, mode := (if n.isDir then vfsInodeDir else vfsInodeFile) ||| 0o777, size := n.size }

/-! ## What is mounted -/

/-- `filesystem_ops_t` with the `fs_private` of its superblock. -/
inductive Filesystem
  | ext4 (fs : Ext4Fs)
  | ext2 (fs : Ext2Fs)
  | proc (tasks : ProcTasks)
  | fat32 (nodes : Fat32Nodes)

/-- `sb->ops->lookup`. -/
def Filesystem.lookup : Filesystem → VfsNode → Bytes → Option VfsNode
  | .ext4 fs => fs.lookup
  | .ext2 fs => fs.lookup
  | .proc tasks => tasks.lookup
  | .fat32 nodes => nodes.lookup

end EdgeOS
