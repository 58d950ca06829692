import EdgeOS.Disk

namespace EdgeOS

/-!
The mounted file system of `src/fs/ext4/ext4.c`, with its superblock and its group descriptor, how its
files are read, and how a block goes into the map of an inode.
-/

/-- `ext4_fs_t`. The superblock, the descriptor of group 0 and the inodes are kept as the bytes that go
to the device. -/
structure Ext4State where
  disk : Disk
  sb : Bytes
  bg : Bytes
  blockSize : UInt32
  descSize : UInt32 := 32
  metaDirty : Bool := false
  nextFreeBlockHint : UInt32 := 0
  nextFreeInodeHint : UInt32 := 0
  cacheBlock : UInt32 := 0
  cacheValid : Bool := false
  cacheDirty : Bool := false
  cache : Bytes

namespace Ext4State

variable (s : Ext4State)

/-! ## Fields -/

def inodesCount : UInt32 := rd32le s.sb 0
def firstDataBlock : UInt32 := rd32le s.sb 20
def inodesPerGroup : UInt32 := rd32le s.sb 40
def inodeSize : UInt16 := rd16le s.sb 88

def fs : Ext4Fs where
  bdev := s.disk.device
  inodesCount := s.inodesCount
  firstDataBlock := s.firstDataBlock
  inodesPerGroup := s.inodesPerGroup
  inodeSize := s.inodeSize
  blockSize := s.blockSize
  descSize := s.descSize

end Ext4State

/-! ## Maps -/

/-- The loop of `extent_map_insert_local`: the block is mapped, or an extent that ends before it grows. -/
def growExtent (raw : Bytes) (lblock pblock : UInt32) : ℕ → ℕ → Option Bytes
  | 0, _ => none
  | n + 1, i =>
    let lb := rd32le raw (52 + 12 * i)
    let len := (rd16le raw (52 + 12 * i + 4)).toUInt32 &&& 0x7FFF
    let st := rd32le raw (52 + 12 * i + 8)
    if len = 0 then growExtent raw lblock pblock n (i + 1)
    else if lb ≤ lblock ∧ lblock < lb + len then some raw
    else if lblock = lb + len ∧ pblock = st + len ∧ len < 0x7FFF then
      some (put16 raw (52 + 12 * i + 4) (len + 1).toUInt16)
    else growExtent raw lblock pblock n (i + 1)

def addExtent (raw : Bytes) (lblock pblock : UInt32) : Bytes :=
  let i := (rd16le raw 42).toNat
  patch (put16 raw 42 (rd16le raw 42 + 1)) (52 + 12 * i) (le32 lblock ++ le16 1 ++ le16 0 ++ le32 pblock)

def extentMapInsertLocal (raw : Bytes) (lblock pblock : UInt32) : Option Bytes :=
  if rd16le raw 40 ≠ ext4ExtMagic ∨ rd16le raw 44 < rd16le raw 42 ∨ rd16le raw 46 ≠ 0 then none
  else
    match growExtent raw lblock pblock (rd16le raw 42).toNat 0 with
    | some raw => some raw
    | none => if rd16le raw 44 ≤ rd16le raw 42 then none else some (addExtent raw lblock pblock)

namespace Ext4State

variable (s : Ext4State)

/-! ## Files -/

/-- The loop of `ext4_read`. A block that is not mapped reads as zeros. -/
def readLoop (inode : ExtInode) (off : UInt32) (len : ℕ) : ℕ → Bytes → Bytes
  | 0, out => out
  | fuel + 1, out =>
    if out.length < len then
      let pos := off + out.length.toUInt32
      let bo := (pos % s.blockSize).toNat
      let n := min (s.blockSize.toNat - bo) (len - out.length)
      match s.fs.mapFindPhys inode (pos / s.blockSize) with
      | none => readLoop inode off len fuel (out ++ zeros n)
      | some 0 => readLoop inode off len fuel (out ++ zeros n)
      | some phys =>
        match s.fs.readBlock phys with
        | none => out
        | some io => readLoop inode off len fuel (out ++ bytesAt io bo n)
    else out

/-- `ext4_read`. -/
def read (ino off : UInt32) (len : ℕ) : Option Bytes :=
  match s.fs.readInode ino with
  | none => none
  | some inode =>
    if inode.sizeLo ≤ off then some []
    else
      let len := if inode.sizeLo < off + len.toUInt32 then (inode.sizeLo - off).toNat else len
      some (s.readLoop inode off len len [])

end Ext4State

end EdgeOS
