import EdgeOS.FileWrite

namespace EdgeOS

/-!
The reading side of `src/fs/ext4/ext4.c`: blocks, inodes, the maps from logical to physical
blocks, and `ext4_lookup`. Words on the disk are little endian, and a `uint32_t` wraps.
-/

abbrev Bytes := List UInt8

/-- `VFS_NAME_MAX`, `VFS_PATH_MAX`. -/
abbrev vfsNameMax : ℕ := 64
abbrev vfsPathMax : ℕ := 256

def ascii (s : String) : Bytes := s.toList.map fun c => c.toNat.toUInt8

/-- A `vfs_inode_t` with the two words of `fs_private` that procfs uses. -/
structure VfsNode extends VfsInode where
  private0 : ℕ := 0
  private1 : ℕ := 0
  deriving DecidableEq, Repr

def VfsNode.IsDir (x : VfsNode) : Prop := x.type = vfsInodeDir

instance (x : VfsNode) : Decidable x.IsDir := inferInstanceAs (Decidable (_ = _))

/-! ## Bytes of a block -/

def rd8 (b : Bytes) (i : ℕ) : UInt8 := b.getD i 0

def rd16le (b : Bytes) (i : ℕ) : UInt16 := (rd8 b i).toUInt16 ||| (rd8 b (i + 1)).toUInt16 <<< 8

def rd32le (b : Bytes) (i : ℕ) : UInt32 :=
  (rd8 b i).toUInt32 ||| (rd8 b (i + 1)).toUInt32 <<< 8 ||| (rd8 b (i + 2)).toUInt32 <<< 16 |||
    (rd8 b (i + 3)).toUInt32 <<< 24

def bytesAt (b : Bytes) (off n : ℕ) : Bytes := (b.drop off).take n

/-- A `block_device_t` that is read: a sector is missing past the end and where the device
fails. -/
structure BlockDevice where
  sectorSize : UInt32
  sector : UInt32 → Option Bytes

def BlockDevice.readSectors (b : BlockDevice) (lba count : UInt32) : Option Bytes :=
  ((List.range count.toNat).mapM fun i => b.sector (lba + i.toUInt32)).map List.flatten

/-- `read_block`, of either driver. -/
def BlockDevice.readBlock (b : BlockDevice) (blockSize block : UInt32) : Option Bytes :=
  if b.sectorSize = 0 then none
  else
    let cnt := blockSize / b.sectorSize
    if cnt = 0 then none else b.readSectors (block * cnt) cnt

/-! ## Directory records -/

/-- `ext4_dirent_t`, `ext2_dirent_t`. -/
structure Dirent where
  inode : UInt32
  recLen : ℕ
  nameLen : ℕ
  name : Bytes
  deriving DecidableEq, Repr

def direntAt (blk : Bytes) (off : ℕ) : Dirent where
  inode := rd32le blk off
  recLen := (rd16le blk (off + 4)).toNat
  nameLen := (rd8 blk (off + 6)).toNat
  name := bytesAt blk (off + 8) (rd8 blk (off + 6)).toNat

/-- The name as a string of C, which is what `strcmp` compares. -/
def Dirent.cName (de : Dirent) : Bytes := de.name.takeWhile (· ≠ 0)

/-- The loop of a lookup over one block: the first record that is `live` and has the name. A round
advances by at least eight bytes, so that `size` rounds are enough. -/
def lookupRecords (size : ℕ) (live : Dirent → Bool) (name blk : Bytes) : ℕ → ℕ → Option Dirent
  | 0, _ => none
  | fuel + 1, off =>
    if off + 8 ≤ size then
      let de := direntAt blk off
      if de.recLen < 8 ∨ size < off + de.recLen then none
      else if live de ∧ de.cName = name then some de
      else lookupRecords size live name blk fuel (off + de.recLen)
    else none

/-- The loop of a lookup over blocks. A block that cannot be read is passed over. -/
def lookupBlocks (size : ℕ) (live : Dirent → Bool) (name : Bytes) : List (Option Bytes) → Option Dirent
  | [] => none
  | none :: blks => lookupBlocks size live name blks
  | some blk :: blks =>
    match lookupRecords size live name blk size 0 with
    | some de => some de
    | none => lookupBlocks size live name blks

/-! ## The mounted file system -/

/-- The fields of `ext4_fs_t` and of its superblock that reading uses. -/
structure Ext4Fs where
  bdev : BlockDevice
  inodesCount : UInt32
  firstDataBlock : UInt32
  inodesPerGroup : UInt32
  inodeSize : UInt16
  blockSize : UInt32
  descSize : UInt32 := 32

/-- The fields of `ext4_inode_t` and `ext2_inode_t` that reading uses. `block` are the 60 bytes of `i_block`. -/
structure ExtInode where
  mode : BitVec 16
  uid : UInt16
  sizeLo : UInt32
  gid : UInt16
  flags : UInt32
  block : Bytes
  deriving DecidableEq, Repr

theorem ExtInode.size_lt (inode : ExtInode) : inode.sizeLo.toNat < 2 ^ 32 := inode.sizeLo.toNat_lt

/-- `EXT4_EXTENTS_FL`, `EXT4_EXT_MAGIC`. -/
def ext4ExtentsFl : UInt32 := 0x00080000
def ext4ExtMagic : UInt16 := 0xF30A

/-- `vfs_mode_from_ext`, `vfs_mode_from_ext2`: other kinds than directories and regular files have
no mode. -/
def vfsModeFromExt (mode : BitVec 16) : BitVec 16 :=
  let kind := mode &&& 0xF000
  let perms := mode &&& 0o7777
  if kind = 0x4000 then vfsInodeDir ||| perms
  else if kind = 0x8000 then vfsInodeFile ||| perms
  else 0

def extInodeAt (blk : Bytes) (off : ℕ) : ExtInode where
  mode := (rd16le blk off).toBitVec
  uid := rd16le blk (off + 2)
  sizeLo := rd32le blk (off + 4)
  gid := rd16le blk (off + 24)
  flags := rd32le blk (off + 32)
  block := bytesAt blk (off + 40) 60

namespace Ext4Fs

variable (fs : Ext4Fs)

def readBlock (block : UInt32) : Option Bytes := fs.bdev.readBlock fs.blockSize block

/-- `read_bgdesc`: the inode table of a group. -/
def readBgdesc (group : UInt32) : Option UInt32 :=
  let perBlock := fs.blockSize / fs.descSize
  if perBlock = 0 then none
  else
    match fs.readBlock (fs.firstDataBlock + 1 + group / perBlock) with
    | none => none
    | some blk =>
      let off := group % perBlock * fs.descSize
      if fs.blockSize < off + 32 then none else some (rd32le blk (off.toNat + 8))

def readInode (ino : UInt32) : Option ExtInode :=
  if ino = 0 ∨ fs.inodesCount < ino then none
  else
    let idx := ino - 1
    match fs.readBgdesc (idx / fs.inodesPerGroup) with
    | none => none
    | some table =>
      let off := idx % fs.inodesPerGroup * fs.inodeSize.toUInt32
      let boff := off % fs.blockSize
      if fs.blockSize < boff + 128 then none
      else (fs.readBlock (table + off / fs.blockSize)).map fun blk => extInodeAt blk boff.toNat

/-- The loop over the extents of a leaf, from extent `i` on. -/
def extentLeaf (node : Bytes) (lblock : UInt32) : ℕ → ℕ → Option UInt32
  | 0, _ => none
  | n + 1, i =>
    let lb := rd32le node (12 + 12 * i)
    let len := (rd16le node (12 + 12 * i + 4)).toUInt32 &&& 0x7FFF
    let st := rd32le node (12 + 12 * i + 8)
    if len ≠ 0 ∧ lb ≤ lblock ∧ lblock < lb + len then some (st + (lblock - lb))
    else extentLeaf node lblock n (i + 1)

/-- The loop that picks an index entry: the last of those in a row that begin at or before the
block, and the first one if none does. -/
def extentPick (node : Bytes) (lblock : UInt32) : ℕ → ℕ → ℕ → ℕ
  | 0, _, pick => pick
  | n + 1, i, pick =>
    if rd32le node (12 + 12 * i) ≤ lblock then extentPick node lblock n (i + 1) i else pick

/-- `extent_find_phys_from_node`. A tree has fewer levels than there are blocks, which `fuel`
counts: the code does not come back from one that leads in a circle. -/
def extentFindPhysFromNode (lblock : UInt32) : ℕ → Bytes → Option UInt32
  | 0, _ => none
  | fuel + 1, node =>
    let entries := (rd16le node 2).toNat
    if rd16le node 0 ≠ ext4ExtMagic ∨ (rd16le node 4).toNat < entries then none
    else if rd16le node 6 = 0 then extentLeaf node lblock entries 0
    else
      let pick := extentPick node lblock entries 0 0
      if entries ≤ pick then none
      else
        match fs.readBlock (rd32le node (12 + 12 * pick + 4)) with
        | none => none
        | some leaf => extentFindPhysFromNode lblock fuel leaf

/-- `legacy_find_phys`: twelve direct blocks and one indirect block. -/
def legacyFindPhys (inode : ExtInode) (lblock : UInt32) : Option UInt32 :=
  if lblock < 12 then
    let phys := rd32le inode.block (4 * lblock.toNat)
    if phys = 0 then none else some phys
  else
    let lblock := lblock - 12
    let indirect := rd32le inode.block 48
    if indirect = 0 then none
    else
      match fs.readBlock indirect with
      | none => none
      | some blk =>
        if fs.blockSize / 4 ≤ lblock then none
        else
          let phys := rd32le blk (4 * lblock.toNat)
          if phys = 0 then none else some phys

def mapFindPhys (inode : ExtInode) (lblock : UInt32) : Option UInt32 :=
  if inode.flags &&& ext4ExtentsFl ≠ 0 then fs.extentFindPhysFromNode lblock (2 ^ 32) inode.block
  else fs.legacyFindPhys inode lblock

/-- A record that `ext4_lookup` looks at. -/
def live (de : Dirent) : Bool := de.inode ≠ 0 ∧ 0 < de.nameLen ∧ de.nameLen < vfsNameMax

/-- The blocks of a file, as far as they can be found and read. -/
def fileBlocks (inode : ExtInode) : List (Option Bytes) :=
  (List.range ((inode.sizeLo + fs.blockSize - 1) / fs.blockSize).toNat).map fun bi =>
    (fs.mapFindPhys inode bi.toUInt32).bind fs.readBlock

/-- The inode of a record, in the node that holds the directory. -/
def fill (dir : VfsNode) (de : Dirent) : Option VfsNode :=
  match fs.readInode de.inode with
  | none => none
  | some inode =>
    let mode := vfsModeFromExt inode.mode
    if mode = 0 then none
    else some { dir with
      ino := de.inode.toNat, mode := mode, size := inode.sizeLo.toNat
      uid := inode.uid.toNat, gid := inode.gid.toNat }

/-- `ext4_lookup`. The type of `dir` is not looked at. -/
def lookup (dir : VfsNode) (name : Bytes) : Option VfsNode :=
  match fs.readInode dir.ino.toUInt32 with
  | none => none
  | some dino =>
    match lookupBlocks fs.blockSize.toNat live name (fs.fileBlocks dino) with
    | none => none
    | some de => fs.fill dir de

end Ext4Fs

end EdgeOS
