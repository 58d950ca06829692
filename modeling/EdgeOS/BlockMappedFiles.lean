import EdgeOS.DirImage
import EdgeOS.FailedMounts
import EdgeOS.FileHoles
import EdgeOS.SeenBytes

namespace EdgeOS

/-!
Files of the ext2 format, which `src/fs/ext2/ext2.c` and `src/fs/ext4/ext4.c` both read: each driver follows a part of
the block map, and only one of them knows the groups.
-/

open List File32 Ext4State
open Nat (mod_eq_of_lt mod_lt toUInt32_eq)
open UInt32 (toNat_div toNat_add toNat_mul toNat_mod lt_iff_toNat_lt ofNat_toNat toNat_ofNat')

/-! ## Mounts -/

/-- The state of `ext4.c` after a mount. -/
def ExtSlot.state (slot : ExtSlot) (d : Disk) : Ext4State where
  disk := d
  sb := slot.sb
  bg := slot.bg
  blockSize := slot.blockSize
  cache := zeros 4096

def Disk.Ext2Mounted (d : Disk) (fs : Ext2Fs) : Prop :=
  ∃ dev target slot root, ext2Driver.load d.device dev target = (slot, some root) ∧ fs = slot.ext2 d.device

def Disk.Ext4Mounted (d : Disk) (s : Ext4State) : Prop :=
  ∃ dev target slot root, ext4Driver.load d.device dev target = (slot, some root) ∧ s = slot.state d

theorem ExtDriver.load_eq {drv : ExtDriver} {b : BlockDevice} {dev : ℕ} {target : String}
    (h : (drv.load b dev target).2.isSome = true) :
    ∃ root, drv.load b dev target = ((drv.load b dev target).1, some root) := by
  obtain ⟨root, hroot⟩ := Option.isSome_iff_exists.mp h
  exact ⟨root, Prod.ext rfl hroot⟩

theorem Disk.ext2Mounted_of_isSome {d : Disk} {dev : ℕ} {target : String}
    (h : (ext2Driver.load d.device dev target).2.isSome = true) :
    d.Ext2Mounted ((ext2Driver.load d.device dev target).1.ext2 d.device) := by
  obtain ⟨root, hload⟩ := ExtDriver.load_eq h
  exact ⟨dev, target, _, root, hload, rfl⟩

theorem Disk.ext4Mounted_of_isSome {d : Disk} {dev : ℕ} {target : String}
    (h : (ext4Driver.load d.device dev target).2.isSome = true) :
    d.Ext4Mounted ((ext4Driver.load d.device dev target).1.state d) := by
  obtain ⟨root, hload⟩ := ExtDriver.load_eq h
  exact ⟨dev, target, _, root, hload, rfl⟩

/-! ## The format -/

/-- Another file has the bytes of a piece of a file, and the piece ends there: with the piece, with the other file or
at a hole. -/
structure File32.SamePiece (g f : File32) (off len : ℕ) : Prop where
  bytes : ∀ i < min len (f.size - off), g.stored (off + i) = some (f.byte (off + i))
  inside : 0 < min len (f.size - off) → off + min len (f.size - off) ≤ g.size
  stops : min len (f.size - off) = len ∨ g.size ≤ off + min len (f.size - off) ∨
    g.stored (off + min len (f.size - off)) = none

/-- An image: a device with its superblock. -/
structure Ext2Image where
  disk : Disk
  sb : Bytes

namespace Ext2Image

variable (im : Ext2Image)

def inodesCount : ℕ := (rd32le im.sb 0).toNat
def blocksCount : ℕ := (rd32le im.sb 4).toNat
def firstDataBlock : ℕ := (rd32le im.sb 20).toNat
def blockSize : UInt32 := 1024 <<< rd32le im.sb 24
def inodesPerGroup : ℕ := (rd32le im.sb 40).toNat
def inodeSize : ℕ := (rd16le im.sb 88).toNat

def size : ℕ := im.blockSize.toNat
def pointers : ℕ := im.size / 4

def block (b : ℕ) : Bytes := im.disk.block im.blockSize b
def readBlock (b : UInt32) : Option Bytes := im.disk.device.readBlock im.blockSize b

/-- The inode table of a group, from the table of the descriptors behind the superblock. -/
def inodeTable (g : ℕ) : ℕ :=
  (rd32le (im.block (im.firstDataBlock + 1 + g / (im.size / 32))) (g % (im.size / 32) * 32 + 8)).toNat

def inode (ino : ℕ) : ExtInode :=
  let k := (ino - 1) % im.inodesPerGroup * im.inodeSize
  extInodeAt (im.block (im.inodeTable ((ino - 1) / im.inodesPerGroup) + k / im.size)) (k % im.size)

def fileOf (r : ExtInode) : File32 where
  size := r.sizeLo.toNat
  stored x := (blockMap im.readBlock im.pointers r (x / im.size)).bind fun b =>
    (im.readBlock b).map fun blk => rd8 blk (x % im.size)
  small := r.size_lt

/-- A part of a file of which only the first `m` blocks count. -/
def upTo (m : ℕ) (f : File32) : File32 where
  size := f.size
  stored x := if x / im.size < m then f.stored x else none
  small := f.small

def file (ino : ℕ) : File32 := im.fileOf (im.inode ino)

def Below : ℕ → UInt32 → Prop
  | 0, p => p ≠ 0 → p.toNat < im.blocksCount
  | level + 1, p => p ≠ 0 → p.toNat < im.blocksCount ∧
      ∀ i < im.pointers, Below level (rd32le (im.block p.toNat) (4 * i))

/-- An inode without extents, all of whose blocks are blocks of the image. -/
structure GoodInode (r : ExtInode) : Prop where
  plain : r.flags &&& ext4ExtentsFl = 0
  direct : ∀ i < 12, im.Below 0 (rd32le r.block (4 * i))
  single : im.Below 1 (rd32le r.block 48)
  double : im.Below 2 (rd32le r.block 52)
  triple : im.Below 3 (rd32le r.block 56)

/-- The image is as its superblock says, all of it can be read, and its descriptors and inode tables are in it. -/
structure Consistent : Prop where
  superblock : im.disk.device.readSectors 2 2 = some im.sb
  block_size : im.blockSize = 1024 ∨ im.blockSize = 2048 ∨ im.blockSize = 4096
  holds : im.disk.Holds im.blockSize im.blocksCount
  per_group : 0 < im.inodesPerGroup ∧ im.inodesPerGroup ≤ 8 * im.size
  inode_size : 128 ≤ im.inodeSize ∧ im.inodeSize ∣ im.size
  descriptors : ∀ g, g * im.inodesPerGroup < im.inodesCount →
    im.firstDataBlock + 1 + g / (im.size / 32) < im.blocksCount
  tables : ∀ g, g * im.inodesPerGroup < im.inodesCount → ∀ k < im.inodesPerGroup,
    im.inodeTable g + k * im.inodeSize / im.size < im.blocksCount

/-! ## What the drivers reach -/

/-- The blocks that `legacy_find_phys` and `ext2_read` reach. -/
def near : ℕ := 12 + im.pointers
def far : ℕ := 12 + im.pointers + im.pointers ^ 2

/-- The record that `read_inode` of ext2 takes for an inode: there, the table of the first group goes on over the
whole disk. -/
def firstTableInode (ino : ℕ) : Option ExtInode :=
  let k := (ino - 1) * im.inodeSize % 2 ^ 32
  (im.readBlock (im.inodeTable 0 + k / im.size).toUInt32).map fun blk => extInodeAt blk (k % im.size)

/-- When both drivers read a piece of a file as the format has it. -/
structure ReadsAlike (ino off len : ℕ) : Prop where
  /-- The end of the piece has 32 bits, and its length 31. -/
  ends : (im.file ino).size ≤ off ∨ off + len < 2 ^ 32
  count : min len ((im.file ino).size - off) < 2 ^ 31
  /-- There are only zeros behind the single indirect block. -/
  zeros : ∀ x, off ≤ x → x < off + len → x < (im.file ino).size → im.near ≤ x / im.size → (im.file ino).byte x = 0
  /-- No block of the piece is a hole or behind the double indirect block. -/
  mapped : ino ≤ im.inodesPerGroup → ∀ x, off ≤ x → x < off + len → x < (im.file ino).size →
    x / im.size < im.far ∧ blockMap im.readBlock im.pointers (im.inode ino) (x / im.size) ≠ none
  /-- For an inode of another group, the record behind the first table has the same bytes. -/
  stray : im.inodesPerGroup < ino → ∃ r, im.firstTableInode ino = some r ∧
    (im.upTo im.far (im.fileOf r)).SamePiece (im.file ino) off len

end Ext2Image

/-- A read gives some bytes, and their number as an `int`. -/
def GivesCounted (r : Option Bytes) (bs : Bytes) : Prop :=
  r = some bs ∧ (BitVec.ofNat 32 bs.length).toInt = bs.length

/-! ## The block maps of the drivers -/

section Maps

variable {read : UInt32 → Option Bytes} {n : ℕ} {p : UInt32} {i : ℕ}

theorem indirectMap_zero : indirectMap read n 0 p i = if p = 0 then none else some p := rfl

theorem indirectMap_ne_zero {level : ℕ} {b : UInt32} (h : indirectMap read n level p i = some b) : b ≠ 0 := by
  induction level generalizing p i with
  | zero =>
    obtain ⟨hne, hsome⟩ := Option.ite_none_left_eq_some.mp h
    exact Option.some.inj hsome ▸ hne
  | succ level ih =>
    obtain ⟨-, hbind⟩ := Option.ite_none_left_eq_some.mp h
    obtain ⟨blk, -, hmap⟩ := Option.bind_eq_some_iff.mp hbind
    exact ih hmap

theorem blockMap_ne_zero {inode : ExtInode} {b : UInt32} (h : blockMap read n inode i = some b) : b ≠ 0 := by
  unfold blockMap at h
  split at h
  · exact indirectMap_ne_zero h
  split at h
  · exact indirectMap_ne_zero h
  split at h
  · exact indirectMap_ne_zero h
  · exact indirectMap_ne_zero h

end Maps

namespace Ext2Fs

variable (fs : Ext2Fs)

theorem tableEntry_eq (level n : ℕ) (table : UInt32) (i : ℕ) : indirectMap fs.readBlock n (level + 1) table i =
      indirectMap fs.readBlock n level (fs.tableEntry table (i / n ^ level)) (i % n ^ level) := by
  conv_lhs => unfold indirectMap
  unfold tableEntry
  have hnone : ∀ j, indirectMap fs.readBlock n level 0 j = none := by
    intro j
    cases level <;> exact if_pos rfl
  by_cases hzero : table = 0
  · rw [if_pos hzero, if_pos hzero, hnone]
  rw [if_neg hzero, if_neg hzero]
  cases fs.readBlock table with
  | none => exact (hnone _).symm
  | some t => rfl

/-- `data_block` is the map of the format up to the double indirect block. -/
theorem dataBlock_eq (inode : ExtInode) (i : ℕ) :
    fs.dataBlock inode i = if i < 12 + fs.blockSize.toNat / 4 + (fs.blockSize.toNat / 4) ^ 2 then
      (blockMap fs.readBlock (fs.blockSize.toNat / 4) inode i).getD 0 else 0 := by
  have hdirect : ∀ q : UInt32, (if q = 0 then none else some q : Option UInt32).getD 0 = q := by
    intro q
    split
    · rename_i hzero
      exact hzero.symm
    · rfl
  unfold dataBlock blockMap
  dsimp only
  generalize fs.blockSize.toNat / 4 = n
  by_cases htwelve : i < 12
  · rw [if_pos htwelve, if_pos (by omega), if_pos htwelve, indirectMap_zero, hdirect]
  rw [if_neg htwelve, if_neg htwelve]
  by_cases hsingle : i - 12 < n
  · rw [if_pos hsingle, if_pos (by omega), if_pos hsingle, tableEntry_eq, pow_zero, Nat.div_one, indirectMap_zero,
      hdirect]
  rw [if_neg hsingle, if_neg hsingle]
  have hdouble : n ≤ (i - 12 - n) / n ↔ ¬ i - 12 - n < n ^ 2 := by
    rcases Nat.eq_zero_or_pos n with rfl | hpos
    · simp
    · rw [Nat.le_div_iff_mul_le hpos, not_lt, pow_two]
  by_cases hin : i - 12 - n < n ^ 2
  · rw [if_neg fun h => hdouble.mp h hin, if_pos (by omega), if_pos hin, tableEntry_eq, tableEntry_eq, pow_one,
      pow_zero, Nat.div_one, indirectMap_zero, hdirect]
  · rw [if_pos (hdouble.mpr hin), if_neg (by omega)]

theorem readLoop_extends {inode : ExtInode} {off len : ℕ} (fuel : ℕ) (out : Bytes) :
    out <+: fs.readLoop inode off len fuel out := by
  induction fuel generalizing out with
  | zero => exact prefix_rfl
  | succ fuel ih =>
    unfold readLoop
    split
    · dsimp only
      split
      · exact prefix_rfl
      split
      · exact prefix_rfl
      · exact (prefix_append _ _).trans (ih _)
    · exact prefix_rfl

variable {fs} {r : ExtInode} {f : File32} {off len : ℕ}

theorem stored_of_byte {g : File32} {x : ℕ} {c : UInt8} (hsome : g.stored x ≠ none) (h : g.byte x = c) :
    g.stored x = some c := by
  obtain ⟨b, hb⟩ := Option.ne_none_iff_exists'.mp hsome
  rw [hb]
  unfold byte at h
  rw [hb] at h
  exact congrArg some h

/-- A piece that is read up to the first hole or the end of a file. -/
theorem samePiece_of_stops {g : File32} {k : ℕ} (hk : k ≤ min len (g.size - off))
    (hstored : ∀ i < k, g.stored (off + i) ≠ none) (hnext : k < min len (g.size - off) → g.stored (off + k) = none) :
    g.bytesFrom off k = f.bytesFrom off len ↔ g.SamePiece f off len := by
  have hlen : (g.bytesFrom off k).length = k := by
    rw [bytesFrom_length]
    omega
  have hlen' := @bytesFrom_length f off len
  constructor
  · intro heq
    have hcount : min len (f.size - off) = k := by
      rw [← hlen', ← heq, hlen]
    refine ⟨fun i hi => ?_, fun hpos => by omega, ?_⟩
    · have hbyte : rd8 (g.bytesFrom off k) i = rd8 (f.bytesFrom off len) i := by rw [heq]
      rw [rd8_bytesFrom (by omega) (by omega), rd8_bytesFrom (by omega) (by omega)] at hbyte
      exact stored_of_byte (hstored i (by omega)) hbyte
    · rw [hcount]
      rcases Nat.lt_or_ge k (min len (g.size - off)) with hlt | hge
      · exact Or.inr (Or.inr (hnext hlt))
      · omega
  · rintro ⟨hbytes, hinside, hstops⟩
    generalize hcount : min len (f.size - off) = m at hbytes hinside hstops hlen'
    have hkm : k = m := by
      rcases Nat.lt_trichotomy k m with hlt | heq | hgt
      · have hhole := hnext (by have hin := hinside (by omega); omega)
        rw [hbytes k hlt] at hhole
        cases hhole
      · exact heq
      · rcases hstops with hlen | hsize | hhole
        · omega
        · omega
        · exact absurd hhole (hstored m hgt)
    apply ext_rd8
    · rw [hlen, hlen', hkm]
    · intro i hi
      rw [hlen] at hi
      rw [rd8_bytesFrom hi (by omega), rd8_bytesFrom (by omega) (by omega)]
      unfold byte
      rw [hbytes i (by omega)]
      rfl

/-- `ext2_read` of a range whose end has 32 bits, or that begins behind the end of the file to be read. -/
theorem readFile_exact (hbs : 0 < fs.blockSize.toNat) (hoff : off < 2 ^ 32) (hlen : len < 2 ^ 32)
    (hends : f.size ≤ off ∨ off + len < 2 ^ 32) :
    fs.readFile r off len = f.bytesFrom off len ↔ (fs.content r).SamePiece f off len := by
  have hsize : (fs.content r).size = r.sizeLo.toNat := rfl
  unfold readFile
  by_cases hpast : r.sizeLo.toNat ≤ off
  · rw [if_pos hpast]
    exact @samePiece_of_stops f off len (fs.content r) 0 (Nat.zero_le _) (fun i hi => absurd hi (Nat.not_lt_zero i))
      fun h => by omega
  rw [if_neg hpast]
  dsimp only
  rcases Nat.lt_or_ge (off + len) (2 ^ 32) with hsmall | hwrap
  · rw [mod_eq_of_lt hsmall]
    have hmin : (if r.sizeLo.toNat < off + len then r.sizeLo.toNat - off else len) =
        min len ((fs.content r).size - off) := by
      rw [hsize]
      split <;> omega
    rw [hmin]
    generalize hm : min len ((fs.content r).size - off) = m at *
    obtain ⟨k, hk, hloop, hstored, hnext⟩ := @readLoop_stops fs r off m hbs (by omega) m 0 (Nat.zero_le _) (by omega)
      (fun i hi => absurd hi (Nat.not_lt_zero i))
    have hnil : (fs.content r).bytesFrom off 0 = [] := rfl
    rw [hnil] at hloop
    rw [hloop]
    exact samePiece_of_stops (by omega) hstored fun h => hnext (by omega)
  -- the end of the range wraps, so that all bytes are asked for
  · have hfpast : f.size ≤ off := hends.resolve_right (by omega)
    rw [bytesFrom_past hfpast, if_neg (by omega)]
    obtain ⟨fuel, rfl⟩ : ∃ fuel, len = fuel + 1 := ⟨len - 1, by omega⟩
    have hpiece : (fs.content r).SamePiece f off (fuel + 1) ↔ (fs.content r).stored off = none := by
      have hcount : min (fuel + 1) (f.size - off) = 0 := by omega
      constructor
      · rintro ⟨-, -, hstops⟩
        rw [hcount] at hstops
        rcases hstops with hzero | hend | hhole
        · omega
        · omega
        · exact hhole
      · intro hhole
        refine ⟨fun i hi => by omega, fun h => by omega, Or.inr (Or.inr ?_)⟩
        rw [hcount]
        exact hhole
    have hmod : (off + ([] : Bytes).length) % 2 ^ 32 = off := mod_eq_of_lt (by simpa using hoff)
    rw [hpiece]
    unfold readLoop content
    rw [if_pos (by simp), hmod]
    dsimp only
    by_cases hzero : fs.dataBlock r (off / fs.blockSize.toNat) = 0
    · rw [if_pos hzero, if_pos hzero]
      exact iff_of_true rfl rfl
    rw [if_neg hzero, if_neg hzero]
    cases hread : fs.readBlock (fs.dataBlock r (off / fs.blockSize.toNat)) with
    | none => exact iff_of_true rfl rfl
    | some blk =>
      refine iff_of_false (fun hnil => ?_) (by simp)
      have hout : ∀ out, fs.readLoop r off (fuel + 1) fuel out = [] → out = [] := fun out h =>
        eq_nil_of_prefix_nil (h ▸ readLoop_extends fs fuel out)
      have hempty := congrArg List.length (hout _ hnil)
      have hpos := mod_lt off hbs
      simp only [length_append, length_map, length_range, length_nil] at hempty
      omega

end Ext2Fs

/-! ## What the mounts take from an image -/

section Mounted

variable {im : Ext2Image} {fs : Ext2Fs} {s : Ext4State}

theorem rd32le_take {b : Bytes} {n i : ℕ} (hi : i + 4 ≤ n) : rd32le (b.take n) i = rd32le b i := by
  have h := @rd32le_bytesAt b 0 n i hi
  rwa [Nat.zero_add] at h

theorem rd16le_take {b : Bytes} {n i : ℕ} (hi : i + 2 ≤ n) : rd16le (b.take n) i = rd16le b i := by
  have h := @rd16le_bytesAt b 0 n i hi
  rwa [Nat.zero_add] at h

/-- The slot of a mount has the superblock and the first descriptor. -/
theorem load_fields {drv : ExtDriver} {d : Disk} {sb : Bytes} {dev : ℕ} {target : String} {slot : ExtSlot}
    {root : VfsNode} (hsector : d.sectorSize ≠ 0) (hsb : d.device.readSectors 2 2 = some sb)
    (h : drv.load d.device dev target = (slot, some root)) :
    slot.sb = sb.take 104 ∧ slot.blockSize = 1024 <<< rd32le sb 24 ∧
      ∃ blk, d.device.readBlock slot.blockSize (rd32le sb 20 + 1) = some blk ∧ slot.bg = blk.take 32 := by
  have hdevice : d.device.sectorSize = d.sectorSize := rfl
  have hnone : ∀ slot' : ExtSlot, (slot', (none : Option VfsNode)) ≠ (slot, some root) := nofun
  unfold ExtDriver.load at h
  dsimp only at h
  rw [hdevice, if_neg hsector, hsb] at h
  dsimp only at h
  rw [rd32le_take (show 24 + 4 ≤ 104 by decide), rd32le_take (show 20 + 4 ≤ 104 by decide)] at h
  split at h
  · exact absurd h (hnone _)
  split at h
  · exact absurd h (hnone _)
  split at h
  · exact absurd h (hnone _)
  cases hread : d.device.readBlock (1024 <<< rd32le sb 24) (rd32le sb 20 + 1) with
  | none =>
    rw [hread] at h
    exact absurd h (hnone _)
  | some blk =>
    rw [hread] at h
    dsimp only at h
    split at h
    · exact absurd h (hnone _)
    split at h
    · exact absurd h (hnone _)
    split at h
    · exact absurd h (hnone _)
    · obtain ⟨rfl, -⟩ := Prod.mk.inj h
      exact ⟨rfl, rfl, blk, hread, rfl⟩

end Mounted

namespace Ext2Image

section Mounted

variable {im : Ext2Image} {fs : Ext2Fs} {s : Ext4State}

theorem Consistent.sector_ne (h : im.Consistent) : im.disk.sectorSize ≠ 0 := by
  intro hzero
  have hpos := h.holds.sector_pos
  rw [hzero] at hpos
  exact absurd hpos (by decide)

theorem Consistent.ext2_fields (h : im.Consistent) (hmount : im.disk.Ext2Mounted fs) :
    fs.bdev = im.disk.device ∧ fs.blockSize = im.blockSize ∧ fs.inodesCount = rd32le im.sb 0 ∧
      fs.inodeSize = rd16le im.sb 88 ∧
      ∃ blk, im.readBlock (rd32le im.sb 20 + 1) = some blk ∧ fs.inodeTable = rd32le blk 8 := by
  obtain ⟨dev, target, slot, root, hload, rfl⟩ := hmount
  obtain ⟨hsb, hbs, blk, hread, hbg⟩ := load_fields h.sector_ne h.superblock hload
  unfold ExtSlot.ext2
  rw [hsb, hbs, hbg]
  rw [hbs] at hread
  exact ⟨rfl, rfl, rd32le_take (by decide), rd16le_take (by decide), blk, hread, rd32le_take (by decide)⟩

theorem Consistent.ext4_fields (h : im.Consistent) (hmount : im.disk.Ext4Mounted s) :
    s.disk = im.disk ∧ s.blockSize = im.blockSize ∧ s.descSize = 32 ∧ s.inodesCount = rd32le im.sb 0 ∧
      s.firstDataBlock = rd32le im.sb 20 ∧ s.inodesPerGroup = rd32le im.sb 40 ∧ s.inodeSize = rd16le im.sb 88 := by
  obtain ⟨dev, target, slot, root, hload, rfl⟩ := hmount
  obtain ⟨hsb, hbs, -⟩ := load_fields h.sector_ne h.superblock hload
  unfold ExtSlot.state
  rw [hsb, hbs]
  exact ⟨rfl, rfl, rfl, rd32le_take (by decide), rd32le_take (by decide), rd32le_take (by decide),
    rd16le_take (by decide)⟩

end Mounted

end Ext2Image

/-! ## Where an inode is -/

namespace Ext2Image

section Inodes

variable {im : Ext2Image}

theorem Consistent.size_cases (h : im.Consistent) : im.size = 1024 ∨ im.size = 2048 ∨ im.size = 4096 := by
  unfold size
  rcases h.block_size with hb | hb | hb <;> rw [hb] <;> decide

theorem Consistent.size_dvd (h : im.Consistent) : im.size ∣ 2 ^ 32 := by
  rcases h.size_cases with hb | hb | hb <;> rw [hb] <;> decide

theorem Consistent.read (h : im.Consistent) {b : UInt32} (hb : b.toNat < im.blocksCount) :
    im.readBlock b = some (im.block b.toNat) := Disk.readBlock_eq h.holds hb

theorem Consistent.record_fits (h : im.Consistent) (j : ℕ) : j * im.inodeSize % im.size + 128 ≤ im.size := by
  obtain ⟨hmin, c, hc⟩ := h.inode_size
  have hpos : 0 < im.size := by rcases h.size_cases with hb | hb | hb <;> omega
  have hcpos : 0 < c := Nat.pos_of_ne_zero fun hzero => by rw [hzero, Nat.mul_zero] at hc; omega
  have hlt := mod_lt j hcpos
  rw [hc, Nat.mul_comm j, Nat.mul_mod_mul_left]
  have hle : im.inodeSize * (j % c + 1) ≤ im.inodeSize * c := Nat.mul_le_mul_left _ hlt
  rw [Nat.mul_add_one] at hle
  omega

theorem group_le {ino : UInt32} (hino : ino ≠ 0) (hcount : ino.toNat ≤ im.inodesCount) :
    (ino.toNat - 1) / im.inodesPerGroup * im.inodesPerGroup < im.inodesCount := by
  have hpos : 0 < ino.toNat := Nat.pos_of_ne_zero fun hzero => hino (UInt32.toNat_inj.mp hzero)
  have hle := Nat.div_mul_le_self (ino.toNat - 1) im.inodesPerGroup
  omega

theorem toNat_pred {ino : UInt32} (hino : ino ≠ 0) : (ino - 1).toNat = ino.toNat - 1 := by
  have hpos : 0 < ino.toNat := Nat.pos_of_ne_zero fun hzero => hino (UInt32.toNat_inj.mp hzero)
  rw [UInt32.toNat_sub_of_le]
  · rfl
  · exact UInt32.le_iff_toNat_le.mpr hpos

theorem Consistent.readBgdesc (h : im.Consistent) {s : Ext4State} (hmount : im.disk.Ext4Mounted s) {g : UInt32}
    (hg : g.toNat * im.inodesPerGroup < im.inodesCount) :
    s.fs.readBgdesc g = some (im.inodeTable g.toNat).toUInt32 := by
  obtain ⟨hdisk, hbs, hdesc, -, hfirst, -, -⟩ := h.ext4_fields hmount
  have hblock := h.descriptors _ hg
  have hlt := (rd32le im.sb 4).toNat_lt
  have hper : (im.blockSize / 32).toNat = im.size / 32 := toNat_div _ _
  have hperpos : 0 < im.size / 32 := by rcases h.size_cases with hb | hb | hb <;> rw [hb] <;> decide
  have hnum : (rd32le im.sb 20 + 1 + g / (im.blockSize / 32)).toNat =
      im.firstDataBlock + 1 + g.toNat / (im.size / 32) := by
    rw [toNat_add, toNat_add, toNat_div, hper]
    unfold blocksCount firstDataBlock at *
    change (((rd32le im.sb 20).toNat + 1) % 2 ^ 32 + _) % 2 ^ 32 = _
    generalize g.toNat / (im.size / 32) = q at *
    omega
  have hin := mod_lt g.toNat hperpos
  have hoff : (g % (im.blockSize / 32) * 32).toNat = g.toNat % (im.size / 32) * 32 := by
    rw [toNat_mul, toNat_mod, hper]
    change _ * 32 % 2 ^ 32 = _
    rcases h.size_cases with hb | hb | hb <;> rw [hb] at hin ⊢ <;> omega
  have hB : s.fs.blockSize = im.blockSize := hbs
  have hdescSize : s.fs.descSize = 32 := hdesc
  have hfdb : s.fs.firstDataBlock = rd32le im.sb 20 := hfirst
  have hread : s.fs.readBlock (rd32le im.sb 20 + 1 + g / (im.blockSize / 32)) =
      some (im.block (im.firstDataBlock + 1 + g.toNat / (im.size / 32))) := by
    change s.disk.device.readBlock s.blockSize _ = _
    rw [hdisk, hbs, ← hnum]
    exact h.read (by rw [hnum]; exact hblock)
  have hone : ¬ im.blockSize / 32 = 0 := by
    intro hzero
    rw [hzero] at hper
    exact hperpos.ne hper
  have hfits : ¬ im.blockSize < g % (im.blockSize / 32) * 32 + 32 := by
    rw [lt_iff_toNat_lt, toNat_add, hoff]
    change ¬ im.size < (_ + 32) % 2 ^ 32
    rcases h.size_cases with hb | hb | hb <;> rw [hb] at hin ⊢ <;> omega
  unfold Ext4Fs.readBgdesc
  dsimp only
  rw [hB, hdescSize, hfdb, if_neg hone, hread]
  dsimp only
  rw [if_neg hfits, hoff]
  unfold inodeTable
  rw [toUInt32_eq, ofNat_toNat]

/-- The byte offset of an inode in the table of its group. -/
theorem Consistent.offset_lt (h : im.Consistent) (j : ℕ) : j % im.inodesPerGroup * im.inodeSize < 2 ^ 32 := by
  have hj := mod_lt j h.per_group.1
  have hsize : im.inodeSize ≤ im.size := Nat.le_of_dvd (by rcases h.size_cases with hb | hb | hb <;> omega)
    h.inode_size.2
  have hle : j % im.inodesPerGroup * im.inodeSize ≤ 8 * im.size * im.size :=
    Nat.mul_le_mul (hj.le.trans h.per_group.2) hsize
  refine lt_of_le_of_lt hle ?_
  rcases h.size_cases with hb | hb | hb <;> rw [hb] <;> decide

theorem Consistent.ext4_readInode (h : im.Consistent) {s : Ext4State} (hmount : im.disk.Ext4Mounted s)
    {ino : UInt32} (hino : ino ≠ 0) (hcount : ino.toNat ≤ im.inodesCount) :
    s.fs.readInode ino = some (im.inode ino.toNat) := by
  obtain ⟨hdisk, hbs, -, hinodes, -, hper, hisize⟩ := h.ext4_fields hmount
  have hgroup := group_le hino hcount
  have hpred := toNat_pred hino
  have hB : s.fs.blockSize = im.blockSize := hbs
  have hipg : s.fs.inodesPerGroup = rd32le im.sb 40 := hper
  have hsz : s.fs.inodeSize = rd16le im.sb 88 := hisize
  have hcnt : s.fs.inodesCount = rd32le im.sb 0 := hinodes
  have hg : ((ino - 1) / rd32le im.sb 40).toNat = (ino.toNat - 1) / im.inodesPerGroup := by
    rw [toNat_div, hpred]
    rfl
  have htable := h.readBgdesc hmount (g := (ino - 1) / rd32le im.sb 40) (by rw [hg]; exact hgroup)
  rw [hg] at htable
  have hlt := h.offset_lt (ino.toNat - 1)
  have hoff : ((ino - 1) % rd32le im.sb 40 * (rd16le im.sb 88).toUInt32).toNat =
      (ino.toNat - 1) % im.inodesPerGroup * im.inodeSize := by
    rw [toNat_mul, toNat_mod, hpred, UInt16.toNat_toUInt32]
    exact mod_eq_of_lt hlt
  have hfits := h.record_fits ((ino.toNat - 1) % im.inodesPerGroup)
  have hin := h.tables _ hgroup _ (mod_lt (ino.toNat - 1) h.per_group.1)
  have hsmall := (rd32le im.sb 4).toNat_lt
  unfold Ext4Fs.readInode inode
  dsimp only
  rw [hcnt, hipg, hsz, hB, htable]
  generalize (ino - 1) % rd32le im.sb 40 * (rd16le im.sb 88).toUInt32 = off at *
  generalize (ino.toNat - 1) % im.inodesPerGroup * im.inodeSize = k at *
  generalize im.inodeTable ((ino.toNat - 1) / im.inodesPerGroup) = table at *
  have hmod : (off % im.blockSize).toNat = k % im.size := by
    rw [toNat_mod, hoff]
    rfl
  have hdiv : (off / im.blockSize).toNat = k / im.size := by
    rw [toNat_div, hoff]
    rfl
  have hthere : ¬ (ino = 0 ∨ rd32le im.sb 0 < ino) := by
    rw [not_or, lt_iff_toNat_lt]
    exact ⟨hino, Nat.not_lt.mpr hcount⟩
  have hroom : ¬ im.blockSize < off % im.blockSize + 128 := by
    rw [lt_iff_toNat_lt, toNat_add, hmod]
    change ¬ im.size < (_ + 128) % 2 ^ 32
    have hle := Nat.mod_le (k % im.size + 128) (2 ^ 32)
    omega
  have hnum : (table.toUInt32 + off / im.blockSize).toNat = table + k / im.size := by
    rw [toNat_add, hdiv, toUInt32_eq, toNat_ofNat']
    unfold blocksCount at hin
    omega
  have hread : s.fs.readBlock (table.toUInt32 + off / im.blockSize) = some (im.block (table + k / im.size)) := by
    change s.disk.device.readBlock s.blockSize _ = _
    rw [hdisk, hbs, ← hnum]
    exact h.read (by rw [hnum]; exact hin)
  rw [if_neg hthere]
  dsimp only
  rw [if_neg hroom, hread, hmod]
  rfl

/-- The first group's table, as the mount of ext2 has read it. -/
theorem Consistent.first_table (h : im.Consistent) {fs : Ext2Fs} (hmount : im.disk.Ext2Mounted fs)
    (hinodes : 0 < im.inodesCount) : fs.inodeTable = (im.inodeTable 0).toUInt32 := by
  obtain ⟨-, -, -, -, blk, hread, htable⟩ := h.ext2_fields hmount
  have hblock := h.descriptors 0 (by omega)
  have hsmall := (rd32le im.sb 4).toNat_lt
  rw [Nat.zero_div, Nat.add_zero] at hblock
  have hnum : (rd32le im.sb 20 + 1).toNat = im.firstDataBlock + 1 := by
    rw [toNat_add]
    unfold blocksCount firstDataBlock at *
    change ((rd32le im.sb 20).toNat + 1) % 2 ^ 32 = _
    omega
  rw [h.read (by rw [hnum]; exact hblock), hnum] at hread
  rw [htable, ← Option.some.inj hread]
  unfold inodeTable
  rw [Nat.zero_div, Nat.zero_mod, toUInt32_eq, ofNat_toNat]

/-- `read_inode` of ext2 reads the table of the first group on and on. -/
theorem Consistent.ext2_readInode (h : im.Consistent) {fs : Ext2Fs} (hmount : im.disk.Ext2Mounted fs)
    {ino : UInt32} (hino : ino ≠ 0) (hcount : ino.toNat ≤ im.inodesCount) :
    fs.readInode ino = im.firstTableInode ino.toNat := by
  obtain ⟨hbdev, hB, hcnt, hsz, -⟩ := h.ext2_fields hmount
  have hpos : 0 < ino.toNat := Nat.pos_of_ne_zero fun hzero => hino (UInt32.toNat_inj.mp hzero)
  have htable := h.first_table hmount (by omega)
  have hpred := toNat_pred hino
  have hoff : ((ino - 1) * (rd16le im.sb 88).toUInt32).toNat = (ino.toNat - 1) * im.inodeSize % 2 ^ 32 := by
    rw [toNat_mul, hpred, UInt16.toNat_toUInt32]
    rfl
  have hfits := h.record_fits (ino.toNat - 1)
  rw [← Nat.mod_mod_of_dvd _ h.size_dvd] at hfits
  unfold Ext2Fs.readInode firstTableInode
  dsimp only
  rw [hcnt, hsz, hB, htable]
  generalize (ino - 1) * (rd16le im.sb 88).toUInt32 = off at *
  generalize (ino.toNat - 1) * im.inodeSize % 2 ^ 32 = k at *
  have hmod : (off % im.blockSize).toNat = k % im.size := by
    rw [toNat_mod, hoff]
    rfl
  have hdiv : off / im.blockSize = (k / im.size).toUInt32 := by
    apply UInt32.toNat_inj.mp
    have hlt := off.toNat_lt
    have hle := Nat.div_le_self k im.size
    rw [toNat_div, hoff, toUInt32_eq, toNat_ofNat', mod_eq_of_lt (by omega)]
    rfl
  have hthere : ¬ (ino = 0 ∨ rd32le im.sb 0 < ino) := by
    rw [not_or, lt_iff_toNat_lt]
    exact ⟨hino, Nat.not_lt.mpr hcount⟩
  have hroom : ¬ im.blockSize < off % im.blockSize + 128 := by
    rw [lt_iff_toNat_lt, toNat_add, hmod]
    change ¬ im.size < (_ + 128) % 2 ^ 32
    have hle := Nat.mod_le (k % im.size + 128) (2 ^ 32)
    omega
  rw [if_neg hthere, if_neg hroom, hmod, hdiv, toUInt32_eq, toUInt32_eq, toUInt32_eq, UInt32.ofNat_add]
  unfold Ext2Fs.readBlock
  rw [hbdev, hB]
  rfl

theorem Consistent.first_group (h : im.Consistent) {ino : ℕ} (hpos : 0 < ino) (hcount : ino ≤ im.inodesCount)
    (hfirst : ino ≤ im.inodesPerGroup) : im.firstTableInode ino = some (im.inode ino) := by
  have hlt : ino - 1 < im.inodesPerGroup := by omega
  have hoff := h.offset_lt (ino - 1)
  have hin := h.tables 0 (by omega) _ hlt
  have hsmall := (rd32le im.sb 4).toNat_lt
  rw [mod_eq_of_lt hlt] at hoff
  unfold firstTableInode inode
  dsimp only
  rw [mod_eq_of_lt hoff, mod_eq_of_lt hlt, Nat.div_eq_of_lt hlt]
  generalize (ino - 1) * im.inodeSize / im.size = q at *
  have hnum : (im.inodeTable 0 + q).toUInt32.toNat = im.inodeTable 0 + q := by
    unfold blocksCount at hin
    rw [toUInt32_eq, toNat_ofNat']
    omega
  rw [h.read (by rw [hnum]; exact hin), hnum]
  rfl

end Inodes

/-! ## What the drivers see of a file -/

section Files

variable {im : Ext2Image} {fs : Ext2Fs} {s : Ext4State} {r : ExtInode}

theorem Consistent.below (h : im.Consistent) {level i : ℕ} {p b : UInt32} (hp : im.Below level p)
    (hi : i < im.pointers ^ level) (hmap : indirectMap im.readBlock im.pointers level p i = some b) :
    b.toNat < im.blocksCount := by
  induction level generalizing p i with
  | zero =>
    obtain ⟨hne, hsome⟩ := Option.ite_none_left_eq_some.mp hmap
    exact Option.some.inj hsome ▸ hp hne
  | succ level ih =>
    obtain ⟨hne, hbind⟩ := Option.ite_none_left_eq_some.mp hmap
    obtain ⟨hin, hchild⟩ := hp hne
    rw [h.read hin, Option.bind_some] at hbind
    have hpow : 0 < im.pointers ^ level := by
      rw [pow_succ] at hi
      exact Nat.pos_of_mul_pos_right (lt_of_le_of_lt (Nat.zero_le i) hi)
    refine ih (hchild _ ?_) (mod_lt _ hpow) hbind
    rw [pow_succ, Nat.mul_comm] at hi
    exact (Nat.div_lt_iff_lt_mul hpow).mpr hi

/-- The map of an inode leads to blocks of the image, up to the last position of a file. -/
theorem Consistent.mapped_in (h : im.Consistent) (hr : im.GoodInode r) {x : ℕ} (hx : x < 2 ^ 32) {b : UInt32}
    (hmap : blockMap im.readBlock im.pointers r (x / im.size) = some b) : b.toNat < im.blocksCount := by
  have hlast : x / im.size - 12 - im.pointers - im.pointers ^ 2 < im.pointers ^ 3 := by
    unfold pointers
    rcases h.size_cases with hb | hb | hb <;> rw [hb] <;> omega
  unfold blockMap at hmap
  split at hmap
  · rename_i htwelve
    exact h.below (hr.direct _ htwelve) (by rw [pow_zero]; exact Nat.one_pos) hmap
  split at hmap
  · rename_i hsingle
    exact h.below hr.single (by rwa [pow_one]) hmap
  split at hmap
  · rename_i hdouble
    exact h.below hr.double hdouble hmap
  · exact h.below hr.triple hlast hmap

theorem Consistent.stored_eq (h : im.Consistent) (hr : im.GoodInode r) {x : ℕ} (hx : x < 2 ^ 32) :
    (im.fileOf r).stored x =
      (blockMap im.readBlock im.pointers r (x / im.size)).map fun b => rd8 (im.block b.toNat) (x % im.size) := by
  change (blockMap im.readBlock im.pointers r (x / im.size)).bind _ = _
  cases hmap : blockMap im.readBlock im.pointers r (x / im.size) with
  | none => rfl
  | some b =>
    rw [Option.bind_some, h.read (h.mapped_in hr hx hmap)]
    rfl

theorem content_eq (hbdev : fs.bdev = im.disk.device) (hB : fs.blockSize = im.blockSize) (r : ExtInode) :
    fs.content r = im.upTo im.far (im.fileOf r) := by
  have hread : fs.readBlock = im.readBlock := by
    funext b
    unfold Ext2Fs.readBlock readBlock
    rw [hbdev, hB]
  have hsize : fs.blockSize.toNat = im.size := by rw [hB]; rfl
  unfold Ext2Fs.content upTo
  congr 1
  funext x
  dsimp only
  rw [Ext2Fs.dataBlock_eq, hread, hsize]
  change (if (if x / im.size < im.far then (blockMap im.readBlock im.pointers r (x / im.size)).getD 0 else 0) = 0 then
    none else _) = if x / im.size < im.far then (blockMap im.readBlock im.pointers r (x / im.size)).bind _ else none
  by_cases hfar : x / im.size < im.far
  · rw [if_pos hfar, if_pos hfar]
    cases hmap : blockMap im.readBlock im.pointers r (x / im.size) with
    | none => rfl
    | some b =>
      rw [Option.getD_some, if_neg (blockMap_ne_zero hmap)]
      change Option.map _ (im.readBlock (if x / im.size < im.far then
        (blockMap im.readBlock im.pointers r (x / im.size)).getD 0 else 0)) = _
      rw [if_pos hfar, hmap]
      rfl
  · rw [if_neg hfar, if_neg hfar, if_pos rfl]

theorem Consistent.seenByte_eq (h : im.Consistent) (hmount : im.disk.Ext4Mounted s) (hr : im.GoodInode r) {x : ℕ}
    (hx : x < 2 ^ 32) : s.seenByte r x.toUInt32 = some ((im.upTo im.near (im.fileOf r)).byte x) := by
  obtain ⟨hdisk, hbs, -⟩ := h.ext4_fields hmount
  have hread : s.fs.readBlock = im.readBlock := by
    funext b
    change s.disk.device.readBlock s.blockSize b = im.disk.device.readBlock im.blockSize b
    rw [hdisk, hbs]
  have hB : s.fs.blockSize = im.blockSize := hbs
  have hnum : x.toUInt32 / s.blockSize = (x / im.size).toUInt32 := by
    apply UInt32.toNat_inj.mp
    have hle := Nat.div_le_self x im.size
    rw [toNat_div, toUInt32_eq, toUInt32_eq, toNat_ofNat', toNat_ofNat', hbs,
      mod_eq_of_lt hx, mod_eq_of_lt (by omega)]
    rfl
  have hmod : (x.toUInt32 % s.blockSize).toNat = x % im.size := by
    rw [toNat_mod, toUInt32_eq, toNat_ofNat', mod_eq_of_lt hx, hbs]
    rfl
  have hpointers : (s.fs.blockSize / 4).toNat = im.pointers := by
    rw [toNat_div, hB]
    rfl
  have hsmall : x / im.size < 2 ^ 32 := lt_of_le_of_lt (Nat.div_le_self _ _) hx
  unfold seenByte Ext4Fs.mapFindPhys
  rw [if_neg (not_not.mpr hr.plain), hnum, legacyFindPhys_eq _ _ hsmall, hpointers, hread, hmod]
  have hbyte : (im.upTo im.near (im.fileOf r)).byte x =
      (if x / im.size < im.near then (im.fileOf r).stored x else none).getD 0 := rfl
  have hend : 12 + im.pointers = im.near := rfl
  rw [hbyte, h.stored_eq hr hx, hend]
  by_cases hnear : x / im.size < im.near
  · rw [if_pos hnear, if_pos hnear]
    cases hmap : blockMap im.readBlock im.pointers r (x / im.size) with
    | none => rfl
    | some b =>
      dsimp only
      rw [if_neg (blockMap_ne_zero hmap), h.read (h.mapped_in hr hx hmap)]
      rfl
  · rw [if_neg hnear, if_neg hnear]
    rfl

end Files

end Ext2Image

/-- Where every block can be read, the loop of `ext4_read` gives as many bytes as it is asked for. -/
theorem Ext4State.length_readLoop {s : Ext4State} {inode : ExtInode} {off : UInt32} {len : ℕ}
    (hdvd : s.disk.sectorSize.toNat ∣ s.blockSize.toNat) (hB : 0 < s.blockSize.toNat)
    (hall : ∀ pos, s.seenByte inode pos ≠ none) (fuel : ℕ) (out : Bytes) (hout : out.length ≤ len)
    (hfuel : len ≤ out.length + fuel) : (s.readLoop inode off len fuel out).length = len := by
  induction fuel generalizing out with
  | zero =>
    unfold readLoop
    omega
  | succ fuel ih =>
    unfold readLoop
    by_cases hlt : out.length < len
    swap
    · rw [if_neg hlt]
      omega
    rw [if_pos hlt]
    dsimp only
    generalize off + out.length.toUInt32 = pos
    have hbo : (pos % s.blockSize).toNat < s.blockSize.toNat := by
      rw [toNat_mod]
      exact mod_lt _ hB
    have hseen := hall pos
    unfold seenByte at hseen
    have hnext : ∀ xs : Bytes, xs.length = min (s.blockSize.toNat - (pos % s.blockSize).toNat) (len - out.length) →
        (s.readLoop inode off len fuel (out ++ xs)).length = len := by
      intro xs hxs
      apply ih
      · rw [length_append, hxs]
        omega
      · rw [length_append, hxs]
        omega
    cases hmap : s.fs.mapFindPhys inode (pos / s.blockSize) with
    | none => exact hnext _ length_replicate
    | some phys =>
      by_cases hzero : phys = 0
      · subst hzero
        exact hnext _ length_replicate
      rw [hmap] at hseen
      dsimp only at hseen
      rw [if_neg hzero] at hseen
      cases hread : s.fs.readBlock phys with
      | none =>
        rw [hread] at hseen
        exact absurd rfl hseen
      | some io =>
        have hio : io.length = s.blockSize.toNat := Disk.length_readBlock hdvd hread
        split
        · rename_i heq
          cases heq
        · rename_i heq
          exact absurd (Option.some.inj heq) hzero
        · rename_i heq
          rw [← Option.some.inj heq, hread]
          exact hnext _ (length_bytesAt (by omega))

namespace Ext2Image

/-! ## Reads -/

section Reads

variable {im : Ext2Image} {fs : Ext2Fs} {s : Ext4State} {ino : UInt32} {off len : ℕ}

/-- `ext2_read` gives the bytes of the file, if its range ends below 2^32. -/
theorem Consistent.ext2_exact (h : im.Consistent) (hmount : im.disk.Ext2Mounted fs) (hino : ino ≠ 0)
    (hcount : ino.toNat ≤ im.inodesCount) (hoff : off < 2 ^ 32) (hlen : len < 2 ^ 32)
    (hends : (im.file ino.toNat).size ≤ off ∨ off + len < 2 ^ 32) :
    (fs.reads ino).read off len = some ((im.file ino.toNat).bytesFrom off len) ↔
      ∃ r, im.firstTableInode ino.toNat = some r ∧
        (im.upTo im.far (im.fileOf r)).SamePiece (im.file ino.toNat) off len := by
  obtain ⟨hbdev, hB, -⟩ := h.ext2_fields hmount
  have hpos : 0 < fs.blockSize.toNat := by
    rw [hB]
    rcases h.block_size with hb | hb | hb <;> rw [hb] <;> decide
  change (fs.readInode ino).map (fun inode => fs.readFile inode off len) = _ ↔ _
  rw [h.ext2_readInode hmount hino hcount, Option.map_eq_some_iff]
  refine exists_congr fun r => and_congr_right fun _ => ?_
  rw [Ext2Fs.readFile_exact hpos hoff hlen hends, content_eq hbdev hB]

/-- In the first group, the piece is that of the file if no block of it is a hole, or behind the double indirect
block. -/
theorem Consistent.samePiece_iff (h : im.Consistent) (hgood : im.GoodInode (im.inode ino.toNat)) :
    (im.upTo im.far (im.file ino.toNat)).SamePiece (im.file ino.toNat) off len ↔
      ∀ x, off ≤ x → x < off + len → x < (im.file ino.toNat).size →
        x / im.size < im.far ∧ blockMap im.readBlock im.pointers (im.inode ino.toNat) (x / im.size) ≠ none := by
  have hsmall := (im.file ino.toNat).small
  have hstored : ∀ x < 2 ^ 32, (im.upTo im.far (im.file ino.toNat)).stored x = some ((im.file ino.toNat).byte x) ↔
      x / im.size < im.far ∧ blockMap im.readBlock im.pointers (im.inode ino.toNat) (x / im.size) ≠ none := by
    intro x hx
    have hbyte : (im.file ino.toNat).byte x = ((im.fileOf (im.inode ino.toNat)).stored x).getD 0 := rfl
    change (if x / im.size < im.far then (im.fileOf (im.inode ino.toNat)).stored x else none) = _ ↔ _
    rw [hbyte, h.stored_eq hgood hx]
    by_cases hfar : x / im.size < im.far
    · rw [if_pos hfar, and_iff_right hfar]
      cases blockMap im.readBlock im.pointers (im.inode ino.toNat) (x / im.size) <;> simp
    · rw [if_neg hfar]
      exact iff_of_false (by simp) fun hand => hfar hand.1
  have hsize : (im.upTo im.far (im.file ino.toNat)).size = (im.file ino.toNat).size := rfl
  constructor
  · rintro ⟨hbytes, -, -⟩ x hlo hhi hin
    have hbyte := hbytes (x - off) (by omega)
    rw [show off + (x - off) = x by omega] at hbyte
    exact (hstored x (by omega)).mp hbyte
  · intro hmapped
    refine ⟨fun i hi => (hstored _ (by omega)).mpr (hmapped _ (by omega) (by omega) (by omega)), ?_, ?_⟩
    · rw [hsize]
      omega
    · rw [hsize]
      omega

theorem Consistent.ext4_read (h : im.Consistent) (hmount : im.disk.Ext4Mounted s) (hino : ino ≠ 0)
    (hcount : ino.toNat ≤ im.inodesCount) (hgood : im.GoodInode (im.inode ino.toNat)) (hend : off + len < 2 ^ 32) :
    s.read ino off.toUInt32 len = some ((im.upTo im.near (im.file ino.toNat)).bytesFrom off len) := by
  obtain ⟨hdisk, hbs, -⟩ := h.ext4_fields hmount
  have hdvd : s.disk.sectorSize.toNat ∣ s.blockSize.toNat := by
    rw [hdisk, hbs]
    exact ⟨_, h.holds.aligned.trans (Nat.mul_comm _ _)⟩
  have hpos : 0 < s.blockSize.toNat := by
    rw [hbs]
    rcases h.block_size with hb | hb | hb <;> rw [hb] <;> decide
  exact read_seen hdvd hpos (h.ext4_readInode hmount hino hcount) rfl hend fun x _ _ hx =>
    h.seenByte_eq hmount hgood (lt_of_lt_of_le hx (im.file ino.toNat).small.le)

theorem bytesFrom_upTo {f : File32} {m : ℕ} : (im.upTo m f).bytesFrom off len = f.bytesFrom off len ↔
    ∀ x, off ≤ x → x < off + len → x < f.size → m ≤ x / im.size → f.byte x = 0 := by
  have hsize : (im.upTo m f).size = f.size := rfl
  have hbyte : ∀ x, (im.upTo m f).byte x = if x / im.size < m then f.byte x else 0 := by
    intro x
    change (if x / im.size < m then f.stored x else none).getD 0 = _
    split <;> rfl
  have hbytes : (im.upTo m f).bytesFrom off len = f.bytesFrom off len ↔
      ∀ i < min len (f.size - off), (im.upTo m f).byte (off + i) = f.byte (off + i) := by
    unfold bytesFrom
    rw [hsize]
    simp only [map_inj_left, mem_range]
  rw [hbytes]
  constructor
  · intro heq x hlo hhi hin hfar
    have hx := heq (x - off) (by omega)
    rw [show off + (x - off) = x by omega, hbyte, if_neg (by omega)] at hx
    exact hx.symm
  · intro hzeros i hi
    rw [hbyte]
    split
    · rfl
    · exact (hzeros _ (by omega) (by omega) (by omega) (by omega)).symm

/-- `ext4_read` gives the bytes of the file exactly when the range ends below 2^32 and has only zeros behind the
single indirect block. -/
theorem Consistent.ext4_exact (h : im.Consistent) (hmount : im.disk.Ext4Mounted s) (hino : ino ≠ 0)
    (hcount : ino.toNat ≤ im.inodesCount) (hgood : im.GoodInode (im.inode ino.toNat)) (hoff : off < 2 ^ 32)
    (hlen : len < 2 ^ 32) :
    s.read ino off.toUInt32 len = some ((im.file ino.toNat).bytesFrom off len) ↔
      ((im.file ino.toNat).size ≤ off ∨ off + len < 2 ^ 32) ∧
        ∀ x, off ≤ x → x < off + len → x < (im.file ino.toNat).size → im.near ≤ x / im.size →
          (im.file ino.toNat).byte x = 0 := by
  have hsmall := (im.file ino.toNat).small
  rcases Nat.lt_or_ge (off + len) (2 ^ 32) with hend | hwrap
  · rw [h.ext4_read hmount hino hcount hgood hend, Option.some_inj, bytesFrom_upTo, and_iff_right (Or.inr hend)]
  have hinode := h.ext4_readInode hmount hino hcount
  have hnat : off.toUInt32.toNat = off := by
    rw [toUInt32_eq, toNat_ofNat', mod_eq_of_lt hoff]
  have hle : (im.inode ino.toNat).sizeLo ≤ off.toUInt32 ↔ (im.file ino.toNat).size ≤ off := by
    rw [UInt32.le_iff_toNat_le, hnat]
    rfl
  unfold Ext4State.read
  rw [hinode]
  dsimp only
  by_cases hpast : (im.file ino.toNat).size ≤ off
  · rw [if_pos (hle.mpr hpast), bytesFrom_past hpast]
    refine iff_of_true rfl ⟨Or.inl hpast, fun x hlo _ hx => ?_⟩
    omega
  rw [if_neg (mt hle.mp hpast)]
  refine iff_of_false (fun heq => ?_) fun hand => by omega
  obtain ⟨hdisk, hbs, -⟩ := h.ext4_fields hmount
  have hdvd : s.disk.sectorSize.toNat ∣ s.blockSize.toNat := by
    rw [hdisk, hbs]
    exact ⟨_, h.holds.aligned.trans (Nat.mul_comm _ _)⟩
  have hpos : 0 < s.blockSize.toNat := by
    rw [hbs]
    rcases h.block_size with hb | hb | hb <;> rw [hb] <;> decide
  have hall : ∀ pos, s.seenByte (im.inode ino.toNat) pos ≠ none := by
    intro pos
    have hseen := h.seenByte_eq hmount hgood pos.toNat_lt
    rw [toUInt32_eq, ofNat_toNat] at hseen
    rw [hseen]
    exact Option.some_ne_none _
  -- the sum wraps to less than the offset, so that the length is not cut
  have hsum : ¬ (im.inode ino.toNat).sizeLo < off.toUInt32 + len.toUInt32 := by
    rw [lt_iff_toNat_lt, toNat_add, hnat, toUInt32_eq, toNat_ofNat', mod_eq_of_lt hlen]
    change ¬ (im.file ino.toNat).size < _
    omega
  rw [if_neg hsum] at heq
  have hlength := @Ext4State.length_readLoop s _ off.toUInt32 len hdvd hpos hall len [] (Nat.zero_le _)
    (Nat.zero_add len).ge
  rw [Option.some.inj heq, bytesFrom_length] at hlength
  omega

end Reads

end Ext2Image

theorem givesCounted_iff {r : Option Bytes} {bs : Bytes} (hlen : bs.length < 2 ^ 32) :
    GivesCounted r bs ↔ r = some bs ∧ bs.length < 2 ^ 31 := by
  refine and_congr_right fun _ => ?_
  rw [BitVec.toInt_eq_toNat_bmod, BitVec.toNat_ofNat, mod_eq_of_lt hlen, Int.bmod]
  omega

/-- Both drivers read the bytes of a file exactly when the piece meets the condition. -/
theorem block_mapped_reads_exact (im : Ext2Image) (h : im.Consistent) (fs : Ext2Fs) (s : Ext4State)
    (h2 : im.disk.Ext2Mounted fs) (h4 : im.disk.Ext4Mounted s) (ino : UInt32) (hino : ino ≠ 0)
    (hcount : ino.toNat ≤ im.inodesCount) (hgood : im.GoodInode (im.inode ino.toNat)) (off len : ℕ)
    (hoff : off < 2 ^ 32) (hlen : len < 2 ^ 32) :
    GivesCounted ((fs.reads ino).read off len) ((im.file ino.toNat).bytesFrom off len) ∧
        GivesCounted (s.read ino off.toUInt32 len) ((im.file ino.toNat).bytesFrom off len) ↔
      im.ReadsAlike ino.toNat off len := by
  have hpos : 0 < ino.toNat := Nat.pos_of_ne_zero fun hzero => hino (UInt32.toNat_inj.mp hzero)
  have hbytes := @File32.bytesFrom_length (im.file ino.toNat) off len
  have hsmall : ((im.file ino.toNat).bytesFrom off len).length < 2 ^ 32 := by omega
  rw [givesCounted_iff hsmall, givesCounted_iff hsmall, hbytes, h.ext4_exact h4 hino hcount hgood hoff hlen]
  have hstray : ∀ hends : (im.file ino.toNat).size ≤ off ∨ off + len < 2 ^ 32,
      (fs.reads ino).read off len = some ((im.file ino.toNat).bytesFrom off len) ↔ _ :=
    fun hends => h.ext2_exact h2 hino hcount hoff hlen hends
  -- in the first group, the record is the inode
  have hfirst : ino.toNat ≤ im.inodesPerGroup → ((∃ r, im.firstTableInode ino.toNat = some r ∧
        (im.upTo im.far (im.fileOf r)).SamePiece (im.file ino.toNat) off len) ↔
      (im.upTo im.far (im.file ino.toNat)).SamePiece (im.file ino.toNat) off len) := by
    intro hgroup
    rw [h.first_group hpos hcount hgroup]
    constructor
    · rintro ⟨r, hr, hpiece⟩
      rw [← Option.some.inj hr] at hpiece
      exact hpiece
    · exact fun hpiece => ⟨_, rfl, hpiece⟩
  constructor
  · rintro ⟨⟨hread, hlt⟩, ⟨hends, hzeros⟩, -⟩
    have hrecord := (hstray hends).mp hread
    refine ⟨hends, hlt, hzeros, fun hgroup => ?_, fun _ => hrecord⟩
    exact (h.samePiece_iff hgood).mp ((hfirst hgroup).mp hrecord)
  · rintro ⟨hends, hlt, hzeros, hmapped, hother⟩
    refine ⟨⟨(hstray hends).mpr ?_, hlt⟩, ⟨hends, hzeros⟩, hlt⟩
    rcases Nat.lt_or_ge im.inodesPerGroup ino.toNat with hgt | hle
    · exact hother hgt
    · exact (hfirst hle).mpr ((h.samePiece_iff hgood).mpr (hmapped hle))

/-- The bytes that are not zero: superblock, descriptor, the root directory and inode 12, which has a block and, behind
it, a hole. -/
def holedBytes : List (ℕ × UInt8) :=
  [(1024, 16), (1028, 64), (1044, 1), (1064, 16), (1080, 0x53), (1081, 0xEF), (1112, 128), (2056, 5), (5248, 0xED),
   (5249, 0x41), (6528, 0xA4), (6529, 0x81), (6533, 8), (6568, 20), (20481, 7)]

def holedDisk : Disk where
  sectorSize := 512
  works := fun _ => true
  data := fun n j => (holedBytes.lookup (512 * n.toNat + j)).getD 0

def holedImage : Ext2Image where
  disk := holedDisk
  sb := holedDisk.superSectors

/-- What the image and its inode 12 say, and that both drivers mount it. -/
theorem holed_facts : (holedImage.blockSize = 1024 ∧ holedImage.blocksCount = 64 ∧ holedImage.inodesPerGroup = 16 ∧
      holedImage.inodesCount = 16 ∧ holedImage.inodeSize = 128 ∧ holedImage.firstDataBlock = 1 ∧
      holedImage.inodeTable 0 = 5) ∧
    ((holedImage.inode 12).flags = 0 ∧ (holedImage.inode 12).sizeLo = 2048 ∧
      (List.range 15).map (fun i => rd32le (holedImage.inode 12).block (4 * i)) =
        [20, 0, 0, 0, 0, 0, 0, 0, 0, 0, 0, 0, 0, 0, 0]) ∧
    (ext2Driver.load holedDisk.device 0 "/mnt").2.isSome = true ∧
    (ext4Driver.load holedDisk.device 0 "/mnt").2.isSome = true ∧
    (((ext2Driver.load holedDisk.device 0 "/mnt").1.ext2 holedDisk.device).reads 12).read 1024 1 = some [] := by
  decide +kernel

theorem holed_size : holedImage.size = 1024 := by
  unfold Ext2Image.size
  rw [holed_facts.1.1]
  rfl

theorem holed_file_size : (holedImage.file 12).size = 2048 := congrArg UInt32.toNat holed_facts.2.1.2.1

theorem holed_consistent : holedImage.Consistent := by
  obtain ⟨⟨hblock, hblocks, hgroup, hcount, hinode, hfirst, htable⟩, -⟩ := holed_facts
  have hholds : holedDisk.Holds holedImage.blockSize holedImage.blocksCount := by
    rw [hblock, hblocks]
    exact ⟨by decide, by decide, by decide, by decide, fun _ _ => rfl⟩
  have hzero : ∀ {g}, g * holedImage.inodesPerGroup < holedImage.inodesCount → g = 0 := by
    intro g hg
    rw [hgroup, hcount] at hg
    omega
  refine ⟨Disk.readSuper_eq rfl rfl, Or.inl hblock, hholds, ?_, ?_, ?_, ?_⟩
  · rw [hgroup, holed_size]
    decide
  · rw [hinode, holed_size]
    decide
  · intro g hg
    obtain rfl := hzero hg
    rw [hfirst, hblocks, Nat.zero_div]
    decide
  · intro g hg k hk
    obtain rfl := hzero hg
    rw [hgroup] at hk
    rw [htable, hinode, holed_size, hblocks]
    omega

theorem holed_pointer {i : ℕ} (hi : i < 15) : rd32le (holedImage.inode 12).block (4 * i) = if i = 0 then 20 else 0 := by
  have hget := congrArg (fun l : List UInt32 => l[i]?) holed_facts.2.1.2.2
  rw [getElem?_map, getElem?_range hi] at hget
  interval_cases i <;> exact Option.some.inj hget

theorem holed_good : holedImage.GoodInode (holedImage.inode 12) := by
  have hnone : ∀ {p : UInt32} {level : ℕ}, p = 0 → holedImage.Below level p := by
    rintro p level rfl
    cases level <;> exact fun h => absurd rfl h
  refine ⟨?_, fun i hi hne => ?_, hnone (holed_pointer (i := 12) (by decide)), hnone (holed_pointer (i := 13) (by decide)),
    hnone (holed_pointer (i := 14) (by decide))⟩
  · rw [holed_facts.2.1.1]
    decide
  · rw [holed_pointer (by omega)] at hne ⊢
    rw [holed_facts.1.2.1]
    split
    · decide
    · decide

theorem holed_mounted2 :
    holedDisk.Ext2Mounted ((ext2Driver.load holedDisk.device 0 "/mnt").1.ext2 holedDisk.device) :=
  Disk.ext2Mounted_of_isSome holed_facts.2.2.1

theorem holed_mounted4 : holedDisk.Ext4Mounted ((ext4Driver.load holedDisk.device 0 "/mnt").1.state holedDisk) :=
  Disk.ext4Mounted_of_isSome holed_facts.2.2.2.1

theorem holed_alike : holedImage.ReadsAlike 12 0 3 := by
  have hpointers : holedImage.pointers = 256 := congrArg (· / 4) holed_size
  have hblock : ∀ x < 0 + 3, x / holedImage.size = 0 := by
    intro x hx
    rw [holed_size]
    omega
  refine ⟨Or.inr (by decide), ?_, fun x _ hx _ hfar => ?_, fun _ x _ hx _ => ?_, fun h => ?_⟩
  · rw [holed_file_size]
    decide
  · rw [hblock x hx] at hfar
    unfold Ext2Image.near at hfar
    omega
  · rw [hblock x hx]
    refine ⟨?_, ?_⟩
    · unfold Ext2Image.far
      omega
    · have hpointer : rd32le (holedImage.inode 12).block (4 * 0) = 20 := holed_pointer (by decide)
      unfold blockMap
      rw [if_pos (by decide), hpointer]
      exact Option.some_ne_none 20
  · rw [holed_facts.1.2.2.1] at h
    exact absurd h (by decide)

/-- The first block is read by both. -/
theorem first_block_exact : ∃ fs s, holedImage.disk.Ext2Mounted fs ∧ holedImage.disk.Ext4Mounted s ∧
    GivesCounted ((fs.reads 12).read 0 3) ((holedImage.file 12).bytesFrom 0 3) ∧
    GivesCounted (s.read 12 (0 : ℕ).toUInt32 3) ((holedImage.file 12).bytesFrom 0 3) :=
  ⟨_, _, holed_mounted2, holed_mounted4, (block_mapped_reads_exact holedImage holed_consistent _ _ holed_mounted2
    holed_mounted4 12 (by decide) (by rw [holed_facts.1.2.2.2.1]; decide) holed_good 0 3 (by decide) (by decide)).mpr holed_alike⟩

/-- `ext2_read` stops at the hole. -/
theorem hole_not_read : ¬ ∀ (im : Ext2Image), im.Consistent → ∀ (fs : Ext2Fs) (s : Ext4State),
    im.disk.Ext2Mounted fs → im.disk.Ext4Mounted s → ∀ ino : UInt32, ino ≠ 0 → ino.toNat ≤ im.inodesCount →
    im.GoodInode (im.inode ino.toNat) → ∀ off len : ℕ, off < 2 ^ 32 → len < 2 ^ 32 →
    GivesCounted ((fs.reads ino).read off len) ((im.file ino.toNat).bytesFrom off len) ∧
      GivesCounted (s.read ino off.toUInt32 len) ((im.file ino.toNat).bytesFrom off len) := by
  intro hclaim
  have hread := (hclaim holedImage holed_consistent _ _ holed_mounted2 holed_mounted4 12 (by decide)
    (by rw [holed_facts.1.2.2.2.1]; decide) holed_good 1024 1 (by decide) (by decide)).1.1
  rw [holed_facts.2.2.2.2] at hread
  have hlen := congrArg List.length (Option.some.inj hread)
  rw [File32.bytesFrom_length] at hlen
  rw [show (12 : UInt32).toNat = 12 from rfl, holed_file_size] at hlen
  exact absurd hlen (by decide)

end EdgeOS
