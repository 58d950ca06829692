import EdgeOS.PathWalk
import Mathlib.Data.List.TakeWhile

namespace EdgeOS

/-!
Directories as they are on the disk: the maps from logical to physical blocks as the format has
them, to any depth, and the entries of a directory. The drivers' maps find a part of that.
-/

open List Ext4Fs

/-! ## The maps of the format -/

/-- The pointers of a block with `n` of them, `level` blocks deep. -/
def indirectMap (read : UInt32 → Option Bytes) (n : ℕ) : ℕ → UInt32 → ℕ → Option UInt32
  | 0, p, _ => if p = 0 then none else some p
  | level + 1, p, i =>
    if p = 0 then none
    else (read p).bind fun blk => indirectMap read n level (rd32le blk (4 * (i / n ^ level))) (i % n ^ level)

/-- Twelve direct blocks, then an indirect, a double and a triple indirect block. -/
def blockMap (read : UInt32 → Option Bytes) (n : ℕ) (inode : ExtInode) (i : ℕ) : Option UInt32 :=
  if i < 12 then indirectMap read n 0 (rd32le inode.block (4 * i)) 0
  else if i - 12 < n then indirectMap read n 1 (rd32le inode.block 48) (i - 12)
  else if i - 12 - n < n ^ 2 then indirectMap read n 2 (rd32le inode.block 52) (i - 12 - n)
  else indirectMap read n 3 (rd32le inode.block 56) (i - 12 - n - n ^ 2)

/-- The fields of a node of extents: the number of entries, the levels below, and of entry `i` the
first block, the length and the start of an extent, which is also the block of a node below. -/
def nodeEntries (node : Bytes) : ℕ := (rd16le node 2).toNat
def nodeDepth (node : Bytes) : ℕ := (rd16le node 6).toNat
def entryBlock (node : Bytes) (i : ℕ) : ℕ := (rd32le node (12 + 12 * i)).toNat
def extentLen (node : Bytes) (i : ℕ) : ℕ := ((rd16le node (12 + 12 * i + 4)).toUInt32 &&& 0x7FFF).toNat
def extentStart (node : Bytes) (i : ℕ) : UInt32 := rd32le node (12 + 12 * i + 8)
def indexLeaf (node : Bytes) (i : ℕ) : UInt32 := rd32le node (12 + 12 * i + 4)

def ValidHeader (node : Bytes) : Prop :=
  rd16le node 0 = ext4ExtMagic ∧ nodeEntries node ≤ (rd16le node 4).toNat

/-- The upper bound of what is below entry `i` of an index node that maps blocks below `hi`. -/
def entryEnd (node : Bytes) (hi i : ℕ) : ℕ :=
  if i + 1 < nodeEntries node then entryBlock node (i + 1) else hi

/-- A tree of extents for the logical blocks from `lo` to `hi`, `depth` levels above its leaves. -/
inductive ExtentTree (read : UInt32 → Option Bytes) : ℕ → Bytes → ℕ → ℕ → Prop
  | leaf {node : Bytes} {lo hi : ℕ} (hvalid : ValidHeader node) (hdepth : nodeDepth node = 0)
      (hpos : ∀ i < nodeEntries node, 0 < extentLen node i ∧ lo ≤ entryBlock node i ∧
        entryBlock node i + extentLen node i ≤ hi)
      (hsorted : ∀ i j, i < j → j < nodeEntries node → entryBlock node i + extentLen node i ≤ entryBlock node j) :
      ExtentTree read 0 node lo hi
  | index {node : Bytes} {lo hi depth : ℕ} {child : ℕ → Bytes} (hvalid : ValidHeader node)
      (hdepth : nodeDepth node = depth + 1) (hlo : ∀ i < nodeEntries node, lo ≤ entryBlock node i)
      (hread : ∀ i < nodeEntries node, read (indexLeaf node i) = some (child i))
      (hsorted : ∀ i j, i < j → j < nodeEntries node → entryBlock node i < entryBlock node j)
      (hend : ∀ i < nodeEntries node, entryEnd node hi i ≤ hi)
      (hbelow : ∀ i < nodeEntries node, ExtentTree read depth (child i) (entryBlock node i) (entryEnd node hi i)) :
      ExtentTree read (depth + 1) node lo hi

/-- The tree maps a logical block to a physical one. -/
inductive ExtentMaps (read : UInt32 → Option Bytes) (lblock : ℕ) : Bytes → UInt32 → Prop
  | leaf {node : Bytes} {i : ℕ} (hdepth : nodeDepth node = 0) (hi : i < nodeEntries node)
      (hlo : entryBlock node i ≤ lblock) (hhi : lblock < entryBlock node i + extentLen node i) :
      ExtentMaps read lblock node (extentStart node i + (lblock - entryBlock node i).toUInt32)
  | index {node child : Bytes} {i : ℕ} {phys : UInt32} (hdepth : nodeDepth node ≠ 0) (hi : i < nodeEntries node)
      (hread : read (indexLeaf node i) = some child) (hbelow : ExtentMaps read lblock child phys) :
      ExtentMaps read lblock node phys

/-! ## What the driver finds in a tree -/

section Extents

variable {node : Bytes} {lblock : UInt32}

theorem extentLeaf_found (n i t : ℕ) (hit : i ≤ t) (htn : t < i + n)
    (hbefore : ∀ j, i ≤ j → j < t → entryBlock node j + extentLen node j ≤ lblock.toNat)
    (hlo : entryBlock node t ≤ lblock.toNat) (hhi : lblock.toNat < entryBlock node t + extentLen node t)
    (hfits : ∀ j, i ≤ j → j ≤ t → entryBlock node j + extentLen node j < 2 ^ 32) :
    extentLeaf node lblock n i = some (extentStart node t + (lblock.toNat - entryBlock node t).toUInt32) := by
  induction n generalizing i with
  | zero => omega
  | succ n ih =>
    have hend : ∀ j, entryBlock node j + extentLen node j < 2 ^ 32 →
        (rd32le node (12 + 12 * j) + ((rd16le node (12 + 12 * j + 4)).toUInt32 &&& 0x7FFF)).toNat =
          entryBlock node j + extentLen node j := by
      intro j hj
      rw [UInt32.toNat_add]
      exact Nat.mod_eq_of_lt hj
    unfold extentLeaf
    dsimp only
    rcases Nat.lt_or_eq_of_le hit with hlt | rfl
    · have hpast := hbefore i le_rfl hlt
      rw [if_neg]
      · exact ih (i + 1) hlt (by omega) (fun j hj => hbefore j (by omega)) fun j hj => hfits j (by omega)
      · rintro ⟨-, -, hin⟩
        have hin := UInt32.lt_iff_toNat_lt.mp hin
        rw [hend i (hfits i le_rfl hit)] at hin
        omega
    rw [if_pos]
    · congr 2
      apply UInt32.toNat_inj.mp
      have hle : rd32le node (12 + 12 * i) ≤ lblock := UInt32.le_iff_toNat_le.mpr hlo
      rw [UInt32.toNat_sub_of_le _ _ hle]
      have hlt := lblock.toNat_lt
      have hsub : (lblock.toNat - entryBlock node i) % 2 ^ 32 = lblock.toNat - entryBlock node i :=
        Nat.mod_eq_of_lt (by omega)
      exact hsub.symm
    · refine ⟨?_, UInt32.le_iff_toNat_le.mpr hlo, UInt32.lt_iff_toNat_lt.mpr ?_⟩
      · intro hzero
        have hlen : extentLen node i = 0 := by
          unfold extentLen
          rw [hzero]
          rfl
        omega
      · rw [hend i (hfits i le_rfl le_rfl)]
        exact hhi

/-- The last index entry that begins at or before the block is picked. -/
theorem extentPick_found (n i pick t : ℕ) (hit : i ≤ t) (htn : t < i + n)
    (hbefore : ∀ j, i ≤ j → j ≤ t → entryBlock node j ≤ lblock.toNat)
    (hnext : t + 1 < i + n → lblock.toNat < entryBlock node (t + 1)) :
    extentPick node lblock n i pick = t := by
  induction n generalizing i pick with
  | zero => omega
  | succ n ih =>
    unfold extentPick
    rw [if_pos (UInt32.le_iff_toNat_le.mpr (hbefore i le_rfl hit))]
    rcases Nat.lt_or_eq_of_le hit with hlt | rfl
    · exact ih (i + 1) i hlt (by omega) (fun j hj => hbefore j (by omega)) fun h => hnext (by omega)
    cases n with
    | zero => rfl
    | succ n =>
      unfold extentPick
      rw [if_neg]
      intro hle
      have hlt := hnext (by omega)
      have hle := UInt32.le_iff_toNat_le.mp hle
      unfold entryBlock at hlt
      omega

end Extents

section Trees

variable {read : UInt32 → Option Bytes} {depth lo hi lblock : ℕ} {node : Bytes} {phys : UInt32}

theorem ExtentTree.header (h : ExtentTree read depth node lo hi) : ValidHeader node ∧ nodeDepth node = depth := by
  cases h with
  | leaf hvalid hdepth => exact ⟨hvalid, hdepth⟩
  | index hvalid hdepth => exact ⟨hvalid, hdepth⟩

theorem ExtentTree.bounds (h : ExtentTree read depth node lo hi) (hmaps : ExtentMaps read lblock node phys) :
    lo ≤ lblock ∧ lblock < hi := by
  induction h generalizing phys with
  | leaf hvalid hdepth hpos hsorted =>
    cases hmaps with
    | leaf _ hentry hlo hhi =>
      obtain ⟨-, hlower, hupper⟩ := hpos _ hentry
      omega
    | index hd => exact absurd hdepth hd
  | index hvalid hdepth hlo hread hsorted hend hbelow ih =>
    cases hmaps with
    | leaf hd =>
      rw [hdepth] at hd
      exact absurd hd (by omega)
    | index _ hentry hread' hmaps =>
      rw [hread _ hentry] at hread'
      obtain rfl := Option.some.inj hread'
      have hchild := ih _ hentry hmaps
      have hlower := hlo _ hentry
      have hupper := hend _ hentry
      omega

theorem ValidHeader.passes (h : ValidHeader node) :
    ¬ (rd16le node 0 ≠ ext4ExtMagic ∨ (rd16le node 4).toNat < (rd16le node 2).toNat) := by
  rintro (hmagic | hmax)
  · exact hmagic h.1
  · exact absurd h.2 (Nat.not_le_of_lt hmax)

theorem ExtentTree.finds (fs : Ext4Fs) {lblock : UInt32} (h : ExtentTree fs.readBlock depth node lo hi)
    (hmaps : ExtentMaps fs.readBlock lblock.toNat node phys) (hhi : hi < 2 ^ 32) {fuel : ℕ} (hfuel : depth < fuel) :
    fs.extentFindPhysFromNode lblock fuel node = some phys := by
  induction h generalizing phys fuel with
  | @leaf node lo hi hvalid hdepth hpos hsorted =>
    obtain ⟨fuel, rfl⟩ := Nat.exists_eq_add_of_lt hfuel
    have hleaf : rd16le node 6 = 0 := UInt16.toNat_inj.mp hdepth
    cases hmaps with
    | @leaf _ t _ hentry hle hlt =>
      unfold extentFindPhysFromNode
      dsimp only
      rw [if_neg hvalid.passes, if_pos hleaf]
      apply extentLeaf_found _ 0 t (Nat.zero_le t) (by rw [Nat.zero_add]; exact hentry) _ hle hlt
      · intro j _ hj
        have hupper := (hpos j (lt_of_le_of_lt hj hentry)).2.2
        omega
      · intro j _ hj
        have hend := hsorted j t hj hentry
        omega
    | index hd => exact absurd hdepth hd
  | @index node lo hi depth child hvalid hdepth hlo hread hsorted hend hbelow ih =>
    obtain ⟨fuel, rfl⟩ := Nat.exists_eq_add_of_lt hfuel
    have hindex : rd16le node 6 ≠ 0 := by
      intro hzero
      have hdepth : (rd16le node 6).toNat = depth + 1 := hdepth
      rw [hzero] at hdepth
      exact absurd hdepth (by simp)
    cases hmaps with
    | leaf hd =>
      rw [hdepth] at hd
      exact absurd hd (by omega)
    | @index _ child' t phys _ hentry hread' hmaps =>
      rw [hread _ hentry] at hread'
      obtain rfl := Option.some.inj hread'
      have hbounds := (hbelow t hentry).bounds hmaps
      have hpick : extentPick node lblock (rd16le node 2).toNat 0 0 = t := by
        apply extentPick_found _ 0 0 t (Nat.zero_le t) (by rw [Nat.zero_add]; exact hentry)
        · intro j _ hj
          rcases Nat.lt_or_eq_of_le hj with hlt | rfl
          · have hbefore := hsorted j t hlt hentry
            omega
          · exact hbounds.1
        · intro hnext
          have hupper := hbounds.2
          unfold entryEnd at hupper
          rw [if_pos (by rw [Nat.zero_add] at hnext; exact hnext)] at hupper
          exact hupper
      have hin : ¬ (rd16le node 2).toNat ≤ t := Nat.not_le_of_lt hentry
      unfold extentFindPhysFromNode
      dsimp only
      rw [if_neg hvalid.passes, if_neg hindex, hpick, if_neg hin]
      have hleaf : fs.readBlock (rd32le node (12 + 12 * t + 4)) = some (child t) := hread t hentry
      rw [hleaf]
      exact ih t hentry hmaps (lt_of_le_of_lt (hend t hentry) hhi) (by omega)

end Trees

/-! ## The blocks that the drivers find -/

/-- The direct blocks and the one indirect block of `legacy_find_phys` are those of the format. -/
theorem legacyFindPhys_eq (fs : Ext4Fs) (inode : ExtInode) {i : ℕ} (hi : i < 2 ^ 32) :
    fs.legacyFindPhys inode i.toUInt32 =
      if i < 12 + (fs.blockSize / 4).toNat then blockMap fs.readBlock (fs.blockSize / 4).toNat inode i else none := by
  have hnat : i.toUInt32.toNat = i := UInt32.toNat_ofNat_of_lt' hi
  have hlt : i.toUInt32 < 12 ↔ i < 12 := by
    rw [UInt32.lt_iff_toNat_lt, hnat]
    rfl
  unfold legacyFindPhys
  dsimp only
  by_cases hdirect : i < 12
  · have hin : i < 12 + (fs.blockSize / 4).toNat := by omega
    rw [if_pos (hlt.mpr hdirect), if_pos hin, hnat]
    unfold blockMap
    rw [if_pos hdirect]
    rfl
  have hsub : (i.toUInt32 - 12).toNat = i - 12 := by
    rw [UInt32.toNat_sub_of_le _ _ (by rw [UInt32.le_iff_toNat_le, hnat]; exact Nat.le_of_not_lt hdirect), hnat]
    rfl
  rw [if_neg fun h => hdirect (hlt.mp h)]
  by_cases hreach : i - 12 < (fs.blockSize / 4).toNat
  · have hin : i < 12 + (fs.blockSize / 4).toNat := by omega
    have hents : ¬ fs.blockSize / 4 ≤ i.toUInt32 - 12 := by
      rw [UInt32.le_iff_toNat_le, hsub]
      omega
    rw [if_pos hin]
    unfold blockMap indirectMap
    rw [if_neg hdirect, if_pos hreach]
    split
    · rfl
    cases fs.readBlock (rd32le inode.block 48) with
    | none => rfl
    | some blk =>
      dsimp only [Option.bind_some]
      rw [hsub, pow_zero, Nat.div_one]
      rfl
  · have hout : ¬ i < 12 + (fs.blockSize / 4).toNat := by omega
    have hents : fs.blockSize / 4 ≤ i.toUInt32 - 12 := by
      rw [UInt32.le_iff_toNat_le, hsub]
      omega
    rw [if_neg hout]
    split
    · rfl
    cases fs.readBlock (rd32le inode.block 48) with
    | none => rfl
    | some blk => rfl

theorem filterMap_range {β : Type} (l : List β) (m : ℕ) (h : l.length ≤ m) :
    (List.range m).filterMap (fun i => l[i]?) = l := by
  induction m generalizing l with
  | zero => exact (length_eq_zero_iff.mp (Nat.le_zero.mp h)).symm
  | succ m ih =>
    rw [range_succ_eq_map, filterMap_cons, filterMap_map]
    cases l with
    | nil => simp
    | cons a l =>
      have hrest := ih l (Nat.le_of_succ_le_succ h)
      simpa [Function.comp_def] using hrest

/-! ## Directories -/

inductive ExtFs
  | ext4 (fs : Ext4Fs)
  | ext2 (fs : Ext2Fs)

namespace ExtFs

def filesystem : ExtFs → Filesystem
  | ext4 fs => .ext4 fs
  | ext2 fs => .ext2 fs

def blockSize : ExtFs → UInt32
  | ext4 fs => fs.blockSize
  | ext2 fs => fs.blockSize

def readBlock : ExtFs → UInt32 → Option Bytes
  | ext4 fs => fs.readBlock
  | ext2 fs => fs.readBlock

def readInode : ExtFs → UInt32 → Option ExtInode
  | ext4 fs => fs.readInode
  | ext2 fs => fs.readInode

def live : ExtFs → Dirent → Bool
  | ext4 _ => Ext4Fs.live
  | ext2 _ => Ext2Fs.live

def fileBlocks : ExtFs → ExtInode → List (Option Bytes)
  | ext4 fs => fs.fileBlocks
  | ext2 fs => fs.fileBlocks

def fill : ExtFs → VfsNode → Dirent → Option VfsNode
  | ext4 fs => fs.fill
  | ext2 fs => fs.fill

/-- Block `i` of a file is `phys`. -/
def Maps (x : ExtFs) (inode : ExtInode) (i : ℕ) (phys : UInt32) : Prop :=
  let pointers := blockMap x.readBlock (x.blockSize / 4).toNat inode i = some phys
  match x with
  | ext4 _ =>
    if inode.flags &&& ext4ExtentsFl ≠ 0 then
      (∃ depth hi, hi < 2 ^ 32 ∧ ExtentTree x.readBlock depth inode.block 0 hi) ∧
        ExtentMaps x.readBlock i inode.block phys
    else pointers
  | ext2 _ => pointers

/-- The number of blocks of a file that the driver finds: all that extents map, and without them as
far as its pointers go. -/
def reach : ExtFs → ExtInode → ℕ
  | ext4 fs, inode => if inode.flags &&& ext4ExtentsFl ≠ 0 then 2 ^ 32 else 12 + (fs.blockSize / 4).toNat
  | ext2 _, _ => 12

end ExtFs

/-- The name of a live record: 1 to 63 bytes that fit into the record, none of them zero. -/
structure Dirent.GoodName (de : Dirent) : Prop where
  pos : 0 < de.nameLen
  short : de.nameLen < vfsNameMax
  fits : Ext2Fs.recLenMin de.nameLen ≤ de.recLen
  noZero : 0 ∉ de.name

/-- A directory of a consistent image: its inode, its blocks in order and what is in them. -/
structure DirImage where
  fs : ExtFs
  ino : UInt32
  inode : ExtInode
  blocks : List UInt32
  contents : List Bytes
  blockSize : fs.blockSize = 1024 ∨ fs.blockSize = 2048 ∨ fs.blockSize = 4096
  found : fs.readInode ino = some inode
  size : inode.sizeLo.toNat = blocks.length * fs.blockSize.toNat
  maps : ∀ (i : ℕ) phys, blocks[i]? = some phys → fs.Maps inode i phys
  length : contents.length = blocks.length
  read : ∀ (i : ℕ) phys, blocks[i]? = some phys → fs.readBlock phys = contents[i]?
  /-- No pointer goes past the last block. -/
  last : ∀ i < 12, blocks.length ≤ i → inode.flags &&& ext4ExtentsFl = 0 → rd32le inode.block (4 * i) = 0
  /-- ext2 has no extents. -/
  plain : ∀ x, fs = .ext2 x → inode.flags &&& ext4ExtentsFl = 0
  names : ∀ blk ∈ contents, ∀ de ∈ recordsFrom fs.blockSize.toNat blk fs.blockSize.toNat 0, de.inode ≠ 0 → de.GoodName

namespace DirImage

variable (im : DirImage)

def entriesOf (blks : List Bytes) : List Dirent :=
  (blks.flatMap fun blk => recordsFrom im.fs.blockSize.toNat blk im.fs.blockSize.toNat 0).filter (·.inode ≠ 0)

def entries : List Dirent := im.entriesOf im.contents

def seen : List Dirent := im.entriesOf (im.contents.take (im.fs.reach im.inode))

/-! ## What the driver reads of a directory -/

theorem length_lt : im.blocks.length * im.fs.blockSize.toNat < 2 ^ 32 ∧ 1024 ≤ im.fs.blockSize.toNat := by
  refine ⟨im.size ▸ im.inode.sizeLo.toNat_lt, ?_⟩
  rcases im.blockSize with h | h | h <;> rw [h] <;> decide

theorem blk_n : ((im.inode.sizeLo + im.fs.blockSize - 1) / im.fs.blockSize).toNat = im.blocks.length := by
  obtain ⟨hlt, -⟩ := im.length_lt
  have hsize := im.size
  have hsum : (im.inode.sizeLo + im.fs.blockSize - 1).toNat =
      im.blocks.length * im.fs.blockSize.toNat + (im.fs.blockSize.toNat - 1) := by
    rw [UInt32.toNat_sub, UInt32.toNat_add, hsize]
    rcases im.blockSize with h | h | h <;> rw [h] at hlt ⊢ <;> simp only [UInt32.reduceToNat] at hlt ⊢ <;> omega
  rw [UInt32.toNat_div, hsum]
  rcases im.blockSize with h | h | h <;> rw [h] <;> simp only [UInt32.reduceToNat] <;> omega

/-- Where the driver has a block, it is the one of the image. -/
theorem getElem_contents {i : ℕ} {phys : UInt32} (hi : im.blocks[i]? = some phys) :
    ∃ blk, im.fs.readBlock phys = some blk ∧ im.contents[i]? = some blk := by
  have hlt : i < im.contents.length := by
    rw [im.length]
    exact (List.getElem?_eq_some_iff.mp hi).1
  refine ⟨im.contents[i], ?_, getElem?_eq_getElem hlt⟩
  rw [im.read i phys hi, getElem?_eq_getElem hlt]

theorem take_getElem (i r : ℕ) : (im.contents.take r)[i]? = if i < r then im.contents[i]? else none :=
  getElem?_take

/-- `map_find_phys` of ext4 for a block of the directory. -/
theorem ext4_block {x : Ext4Fs} (hfs : im.fs = .ext4 x) {i : ℕ} (hi : i < im.blocks.length) :
    (x.mapFindPhys im.inode i.toUInt32).bind x.readBlock = (im.contents.take (im.fs.reach im.inode))[i]? := by
  obtain ⟨hlt, hpos⟩ := im.length_lt
  have hsmall : i < 2 ^ 32 := by
    have hmul : im.blocks.length * 1 ≤ im.blocks.length * im.fs.blockSize.toNat := Nat.mul_le_mul_left _ (by omega)
    omega
  obtain ⟨phys, hphys⟩ : ∃ phys, im.blocks[i]? = some phys := ⟨_, getElem?_eq_getElem hi⟩
  obtain ⟨blk, hread, hblk⟩ := im.getElem_contents hphys
  have hmaps := im.maps i phys hphys
  rw [hfs] at hmaps hread
  unfold ExtFs.Maps at hmaps
  rw [im.take_getElem, hblk, hfs]
  unfold mapFindPhys
  dsimp only at hmaps
  by_cases hext : im.inode.flags &&& ext4ExtentsFl ≠ 0
  · have hreach : (ExtFs.ext4 x).reach im.inode = 2 ^ 32 := if_pos hext
    rw [if_pos hext] at hmaps ⊢
    obtain ⟨⟨depth, hi', hhi, htree⟩, hphys⟩ := hmaps
    have hnat : i.toUInt32.toNat = i := UInt32.toNat_ofNat_of_lt' hsmall
    have hdepth : depth < 2 ^ 32 := by
      rw [← htree.header.2]
      exact lt_trans (UInt16.toNat_lt _) (by decide)
    have hfind := htree.finds x (by rw [hnat]; exact hphys) hhi hdepth
    rw [hfind, hreach, if_pos hsmall]
    exact hread
  · have hreach : (ExtFs.ext4 x).reach im.inode = 12 + (x.blockSize / 4).toNat := if_neg hext
    rw [if_neg hext] at hmaps ⊢
    rw [hreach, legacyFindPhys_eq x im.inode hsmall]
    have hmaps : blockMap x.readBlock (x.blockSize / 4).toNat im.inode i = some phys := hmaps
    split
    · rw [hmaps]
      exact hread
    · rfl

theorem ext2_block {x : Ext2Fs} (hfs : im.fs = .ext2 x) {i : ℕ} (hi : i < 12) :
    (if rd32le im.inode.block (4 * i) = 0 then none else x.readBlock (rd32le im.inode.block (4 * i))) =
      (im.contents.take (im.fs.reach im.inode))[i]? := by
  rw [im.take_getElem, hfs]
  unfold ExtFs.reach
  dsimp only
  rw [if_pos hi]
  rcases Nat.lt_or_ge i im.blocks.length with hlt | hge
  · obtain ⟨phys, hphys⟩ : ∃ phys, im.blocks[i]? = some phys := ⟨_, getElem?_eq_getElem hlt⟩
    obtain ⟨blk, hread, hblk⟩ := im.getElem_contents hphys
    have hmaps := im.maps i phys hphys
    rw [hfs] at hmaps hread
    have hmaps : blockMap x.readBlock (x.blockSize / 4).toNat im.inode i = some phys := hmaps
    unfold blockMap at hmaps
    rw [if_pos hi] at hmaps
    unfold indirectMap at hmaps
    rw [hblk]
    by_cases hzero : rd32le im.inode.block (4 * i) = 0
    · rw [if_pos hzero] at hmaps
      cases hmaps
    rw [if_neg hzero] at hmaps ⊢
    rw [Option.some.inj hmaps]
    exact hread
  · rw [if_pos (im.last i hi hge (im.plain x hfs)), getElem?_eq_none (by rw [im.length]; exact hge)]

theorem fileBlocks_eq : (im.fs.fileBlocks im.inode).reduceOption = im.contents.take (im.fs.reach im.inode) := by
  have htake : ∀ m, (im.contents.take (im.fs.reach im.inode)).length ≤ m →
      ((List.range m).map fun i => (im.contents.take (im.fs.reach im.inode))[i]?).reduceOption =
        im.contents.take (im.fs.reach im.inode) := by
    intro m hm
    change ((List.range m).map fun i => (im.contents.take (im.fs.reach im.inode))[i]?).filterMap id = _
    rw [filterMap_map]
    exact filterMap_range _ m hm
  rcases hfs : im.fs with x | x
  · have hn := im.blk_n
    rw [hfs] at hn
    have hblocks : (ExtFs.ext4 x).fileBlocks im.inode =
        (List.range im.blocks.length).map fun i => (im.contents.take (im.fs.reach im.inode))[i]? := by
      have hn : ((im.inode.sizeLo + x.blockSize - 1) / x.blockSize).toNat = im.blocks.length := hn
      change x.fileBlocks im.inode = _
      unfold fileBlocks
      rw [hn]
      exact map_congr_left fun i hi => im.ext4_block hfs (mem_range.mp hi)
    rw [hblocks, ← hfs]
    apply htake
    rw [← im.length]
    exact length_take_le' _ _
  · have hblocks : (ExtFs.ext2 x).fileBlocks im.inode =
        (List.range 12).map fun i => (im.contents.take (im.fs.reach im.inode))[i]? :=
      map_congr_left fun i hi => im.ext2_block hfs (mem_range.mp hi)
    rw [hblocks, ← hfs]
    apply htake
    have hreach : im.fs.reach im.inode = 12 := by rw [hfs]; rfl
    rw [hreach]
    exact length_take_le _ _

/-- The driver's test of a record is the test for a live entry. -/
theorem live_eq {blk : Bytes} (hblk : blk ∈ im.contents) {de : Dirent}
    (hde : de ∈ recordsFrom im.fs.blockSize.toNat blk im.fs.blockSize.toNat 0) :
    im.fs.live de = decide (de.inode ≠ 0) := by
  by_cases hzero : de.inode = 0
  · rcases im.fs with x | x <;> simp [ExtFs.live, live, Ext2Fs.live, hzero]
  have hname := im.names blk hblk de hde hzero
  have hpos := hname.pos
  have hshort := hname.short
  have hfits := hname.fits
  rcases im.fs with x | x <;> simp [ExtFs.live, live, Ext2Fs.live, hzero, hpos, hshort, hfits]

theorem filter_live : (records im.fs.blockSize.toNat (im.fs.fileBlocks im.inode)).filter im.fs.live = im.seen := by
  unfold records seen entriesOf
  rw [im.fileBlocks_eq]
  apply filter_congr
  intro de hde
  obtain ⟨blk, hblk, hrec⟩ := mem_flatMap.mp hde
  exact im.live_eq (mem_of_mem_take hblk) hrec

/-- What the driver finds is the beginning of the directory. -/
theorem seen_prefix : im.seen <+: im.entries := by
  refine ⟨im.entriesOf (im.contents.drop (im.fs.reach im.inode)), ?_⟩
  unfold seen entries entriesOf
  rw [← filter_append, ← flatMap_append, take_append_drop]

theorem cName_eq {de : Dirent} (h : de ∈ im.entries) : de.cName = de.name ∧ de.name.length < vfsNameMax := by
  unfold entries entriesOf at h
  obtain ⟨hmem, hlive⟩ := mem_filter.mp h
  obtain ⟨blk, hblk, hrec⟩ := mem_flatMap.mp hmem
  have hname := im.names blk hblk de hrec (by simpa using hlive)
  constructor
  · unfold Dirent.cName
    apply takeWhile_eq_self_iff.mpr
    intro c hc
    rw [decide_eq_true_eq]
    rintro rfl
    exact hname.noZero hc
  · obtain ⟨off, rfl⟩ := mem_recordsFrom hrec
    exact lt_of_le_of_lt (length_take_le _ _) hname.short

end DirImage

end EdgeOS
