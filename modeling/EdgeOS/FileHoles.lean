import EdgeOS.ElfConfinement
import EdgeOS.Filesystems

namespace EdgeOS

open Lib List File32

/-!
A file system may stop short at a hole of a file, and exact reading then takes the rest of what it was asked
for as zeros: of a piece nothing is seen that is behind a hole of it.
-/

/-! ## Files that are read up to their holes -/

/-- A read inside of the file gives its bytes up to the first hole. -/
def StopsAtHoles (f : File32) (r : FileReads) : Prop :=
  ∀ off n, off + n ≤ f.size → ∃ k ≤ n, r.read off n = some (f.bytesFrom off k) ∧
    (∀ i < k, f.stored (off + i) ≠ none) ∧ (k < n → f.stored (off + k) = none)

/-- A file with holes, and the reads of its file system. A block that cannot be read is a hole, too. -/
structure SparseFile where
  content : File32
  reads : FileReads
  stops : StopsAtHoles content reads

@[reducible] def SparseFile.vfs (f : SparseFile) : VfsFile where
  size := f.content.size
  reads := f.reads

namespace File32

variable (f : File32)

def filled : ElfFile where
  bytes := f.bytesFrom 0 f.size
  small := by
    have hsmall := f.small
    rw [bytesFrom_length]
    omega

/-- The bytes that are seen of a piece: what is behind a hole of it is lost. -/
def seen (off n : ℕ) : Bytes :=
  (List.range n).map fun i => if ∀ j ≤ i, f.stored (off + j) ≠ none then f.byte (off + i) else 0

def Whole (off n : ℕ) : Prop := ∀ i < n, ∀ j ≤ i, f.stored (off + j) = none → f.byte (off + i) = 0

/-- The bytes that are seen of a range that is read in pieces of 4096, up to the next multiple of it. -/
def seenInPieces (off n : ℕ) : Bytes :=
  (List.range n).map fun i =>
    if ∀ j ≤ i, (off + j) / 4096 = (off + i) / 4096 → f.stored (off + j) ≠ none then f.byte (off + i) else 0

/-- There are only zeros behind a hole, up to the end of its piece. -/
def WholePieces (off n : ℕ) : Prop :=
  ∀ i < n, ∀ j ≤ i, (off + j) / 4096 = (off + i) / 4096 → f.stored (off + j) = none → f.byte (off + i) = 0

variable {f : File32} {off n : ℕ}

theorem filled_size : f.filled.size = f.size := by
  change (f.bytesFrom 0 f.size).length = f.size
  rw [bytesFrom_length]
  omega

theorem rd8_bytesFrom {p len i : ℕ} (hi : i < len) (hin : p + i < f.size) :
    rd8 (f.bytesFrom p len) i = f.byte (p + i) := by
  unfold bytesFrom
  exact rd8_map_range _ (by omega)

theorem rd8_filled {p : ℕ} (hp : p < f.size) : rd8 f.filled.bytes p = f.byte p := by
  have h := @rd8_bytesFrom f 0 f.size p hp (by omega)
  rwa [Nat.zero_add] at h

theorem bytesAt_filled (h : off + n ≤ f.size) : bytesAt f.filled.bytes off n = f.bytesFrom off n := by
  have hin : off + n ≤ f.filled.size := by rwa [filled_size]
  apply ext_rd8
  · rw [bytesAt_length hin, bytesFrom_length]
    omega
  intro i hi
  rw [bytesAt_length hin] at hi
  rw [rd8_bytesAt hi, rd8_filled (by omega), rd8_bytesFrom hi (by omega)]

theorem seen_length (off n : ℕ) : (f.seen off n).length = n := by
  unfold seen
  rw [length_map, length_range]

theorem seenInPieces_length (off n : ℕ) : (f.seenInPieces off n).length = n := by
  unfold seenInPieces
  rw [length_map, length_range]

theorem rd8_seen {i : ℕ} (hi : i < n) :
    rd8 (f.seen off n) i = if ∀ j ≤ i, f.stored (off + j) ≠ none then f.byte (off + i) else 0 := by
  unfold seen
  exact rd8_map_range (fun i => if ∀ j ≤ i, f.stored (off + j) ≠ none then f.byte (off + i) else 0) hi

theorem rd8_seenInPieces {i : ℕ} (hi : i < n) : rd8 (f.seenInPieces off n) i =
    if ∀ j ≤ i, (off + j) / 4096 = (off + i) / 4096 → f.stored (off + j) ≠ none then f.byte (off + i) else 0 := by
  unfold seenInPieces
  exact rd8_map_range (fun i => if ∀ j ≤ i, (off + j) / 4096 = (off + i) / 4096 → f.stored (off + j) ≠ none then
    f.byte (off + i) else 0) hi

/-- A piece is seen as it is when there are only zeros behind its holes. -/
theorem seen_whole (hin : off + n ≤ f.size) (h : f.Whole off n) : f.seen off n = f.bytesFrom off n := by
  apply ext_rd8
  · rw [seen_length, bytesFrom_length]
    omega
  intro i hi
  rw [seen_length] at hi
  rw [rd8_seen hi, rd8_bytesFrom hi (by omega)]
  split
  · rfl
  rename_i hhole
  obtain ⟨j, hj⟩ := not_forall.mp hhole
  obtain ⟨hji, hnone⟩ := Classical.not_imp.mp hj
  exact (h i hi j hji (not_not.mp hnone)).symm

/-- A byte of a range is seen as it is, unless a hole of its piece hides something else than a zero. -/
theorem seenInPieces_byte {i : ℕ} (hi : i < n) : rd8 (f.seenInPieces off n) i = f.byte (off + i) ↔
    ∀ j ≤ i, (off + j) / 4096 = (off + i) / 4096 → f.stored (off + j) = none → f.byte (off + i) = 0 := by
  rw [rd8_seenInPieces hi]
  split
  · rename_i hstored
    exact iff_of_true rfl fun j hj hpiece hnone => absurd hnone (hstored j hj hpiece)
  rename_i hhole
  obtain ⟨j, hj⟩ := not_forall.mp hhole
  obtain ⟨hji, hj⟩ := Classical.not_imp.mp hj
  obtain ⟨hpiece, hnone⟩ := Classical.not_imp.mp hj
  exact ⟨fun h _ _ _ _ => h.symm, fun h => (h j hji hpiece (not_not.mp hnone)).symm⟩

/-- A piece of a range, as it is read: it begins with the range or with a piece of the file, and ends with one. -/
theorem seen_piece {done len : ℕ} (hstart : done = 0 ∨ (off + done) % 4096 = 0)
    (hend : len ≤ 4096 - (off + done) % 4096) (hin : done + len ≤ n) :
    f.seen (off + done) len = bytesAt (f.seenInPieces off n) done len := by
  have hlen : (bytesAt (f.seenInPieces off n) done len).length = len := by
    unfold bytesAt
    rw [length_take, length_drop, seenInPieces_length]
    omega
  apply ext_rd8
  · rw [seen_length, hlen]
  intro i hi
  rw [seen_length] at hi
  rw [rd8_seen hi, rd8_bytesAt hi, rd8_seenInPieces (by omega), Nat.add_assoc]
  congr 1
  apply propext
  constructor
  · intro h j hj hpiece
    have hge : done ≤ j := by omega
    have hstored := h (j - done) (by omega)
    rwa [show off + done + (j - done) = off + j by omega] at hstored
  · intro h j hj
    rw [Nat.add_assoc]
    exact h (done + j) (by omega) (by omega)

theorem whole_of_stored (h : ∀ x < f.size, f.stored x ≠ none) (hin : off + n ≤ f.size) : f.Whole off n :=
  fun _ _ _ _ hnone => absurd hnone (h _ (by omega))

theorem wholePieces_of_stored (h : ∀ x < f.size, f.stored x ≠ none) (hin : off + n ≤ f.size) : f.WholePieces off n :=
  fun _ _ _ _ _ hnone => absurd hnone (h _ (by omega))

end File32

def ElfFile.sparse (f : ElfFile) : SparseFile where
  content := { size := f.size, stored := fun x => f.bytes[x]?, small := f.small }
  reads := f.vfs.reads
  stops := by
    intro off n hin
    change off + n ≤ f.size at hin
    have hsize : f.size = f.bytes.length := rfl
    refine ⟨n, le_rfl, congrArg some ?_, fun i hi => ?_, fun h => absurd h (lt_irrefl n)⟩
    · apply ext_rd8
      · rw [bytesAt_length hin, File32.bytesFrom_length]
        exact (Nat.min_eq_left (show n ≤ f.size - off by omega)).symm
      intro i hi
      rw [bytesAt_length hin] at hi
      rw [rd8_bytesAt hi, File32.rd8_bytesFrom hi (show off + i < f.size by omega)]
      exact List.getD_eq_getElem?_getD
    · dsimp only
      rw [List.getElem?_eq_getElem (by omega)]
      exact Option.some_ne_none _

theorem ElfFile.sparse_stored (f : ElfFile) : ∀ x < f.size, f.sparse.content.stored x ≠ none := by
  intro x hx
  change f.bytes[x]? ≠ none
  rw [getElem?_eq_getElem (show x < f.bytes.length from hx)]
  exact Option.some_ne_none _

/-! ## Exact reading -/

namespace SparseFile

variable {f : SparseFile} {off n : ℕ}

theorem preadLoop_hole {fuel : ℕ} {out : Bytes} (hin : off + n ≤ f.content.size) (hout : out.length < n)
    (hhole : f.content.stored (off + out.length) = none) :
    f.vfs.preadLoop off n (fuel + 1) out = some (out ++ zeros (n - out.length)) := by
  have hsmall := f.content.small
  obtain ⟨k, hk, hread, hstored, -⟩ := f.stops (off + out.length) (n - out.length) (by omega)
  obtain rfl : k = 0 := by
    by_contra hk
    exact hstored 0 (by omega) hhole
  have hnil : (f.content.bytesFrom (off + out.length) 0).length = 0 := by
    rw [bytesFrom_length, Nat.zero_min]
  have hmod : (off + out.length) % 2 ^ 32 = off + out.length := Nat.mod_eq_of_lt (by omega)
  rw [VfsFile.preadLoop, if_pos hout, hmod, hread]
  dsimp only
  rw [if_pos hnil, if_pos (by omega)]

/-- A piece inside of the file is read, but nothing of it is seen that is behind a hole. -/
theorem preadLoop_seen (hin : off + n ≤ f.content.size) : f.vfs.preadLoop off n n [] = some (f.content.seen off n) := by
  have hsmall := f.content.small
  obtain _ | n := n
  · rfl
  obtain ⟨k, hk, hread, hstored, hhole⟩ := f.stops off (n + 1) hin
  have hlen : (f.content.bytesFrom off k).length = k := by
    rw [bytesFrom_length]
    omega
  have hseen : f.content.seen off (n + 1) = f.content.bytesFrom off k ++ zeros (n + 1 - k) := by
    apply ext_rd8
    · rw [seen_length, length_append, hlen, zeros, length_replicate]
      omega
    intro i hi
    rw [seen_length] at hi
    rw [rd8_seen hi]
    by_cases hik : i < k
    · rw [rd8_append_left (by omega), rd8_bytesFrom hik (by omega)]
      exact if_pos fun j hj => hstored j (by omega)
    · rw [rd8_append_right (by omega), if_neg fun h => h k (by omega) (hhole (by omega))]
      exact (rd8_zeros _ _).symm
  by_cases hzero : k = 0
  · subst hzero
    have hfirst := @preadLoop_hole f off (n + 1) n [] hin (Nat.succ_pos n) (hhole (by omega))
    rw [hfirst, hseen, eq_nil_of_length_eq_zero hlen]
    rfl
  have hmod : (off + 0) % 2 ^ 32 = off := Nat.mod_eq_of_lt (by omega)
  rw [VfsFile.preadLoop, length_nil, if_pos (Nat.succ_pos n), hmod, Nat.sub_zero, hread]
  dsimp only
  rw [if_neg (by omega), nil_append, hseen]
  by_cases hall : k = n + 1
  · rw [show n + 1 - k = 0 by omega]
    cases n with
    | zero => exact congrArg some (append_nil _).symm
    | succ n =>
      rw [VfsFile.preadLoop, if_neg (by omega)]
      exact congrArg some (append_nil _).symm
  · obtain ⟨n, rfl⟩ : ∃ l, n = l + 1 := ⟨n - 1, by omega⟩
    rw [preadLoop_hole hin (by omega) (by rw [hlen]; exact hhole (by omega)), hlen]

/-- A piece with only zeros behind its holes is read as it is in the file. -/
theorem preadLoop_filled (hin : off + n ≤ f.content.size) (hwhole : f.content.Whole off n) :
    f.vfs.preadLoop off n n [] = some (bytesAt f.content.filled.bytes off n) := by
  rw [preadLoop_seen hin, seen_whole hin hwhole, bytesAt_filled hin]

/-- A segment is copied with the bytes that are seen of it. -/
theorem gives_copySegment_seen {ph : ProgramHeader} {dst : UInt64}
    (hin : ph.offset.toNat + ph.filesz.toNat ≤ f.content.size) (m : Memory) :
    (copySegment f.vfs ph dst ph.filesz.toNat 0).Gives m
      (m.stored dst (f.content.seenInPieces ph.offset.toNat ph.filesz.toNat)) () := by
  have hsmall := f.content.small
  have hlen := @seenInPieces_length f.content ph.offset.toNat ph.filesz.toNat
  have hcopy := @gives_copySegment f.vfs ph dst _ hlen (by omega) (fun done hdone hstart => by
    have hend := pieceLen_le hdone.le
    have hpiece := (piece_position (show ph.offset.toNat + ph.filesz.toNat < 2 ^ 32 by omega) hdone).2
    rw [preadLoop_seen (by omega)]
    exact congrArg some (seen_piece hstart (by omega) hend)) ph.filesz.toNat 0 m (Or.inl rfl) (Nat.zero_le _)
    (by omega)
  have hzero : dst + Nat.toUInt64 0 = dst := UInt64.add_zero _
  have hall : bytesAt (f.content.seenInPieces ph.offset.toNat ph.filesz.toNat) 0 ph.filesz.toNat =
      f.content.seenInPieces ph.offset.toNat ph.filesz.toNat := by
    unfold bytesAt
    rw [drop_zero, take_of_length_le hlen.le]
  rwa [hzero, Nat.sub_zero, hall] at hcopy

end SparseFile

/-! ## ext2 -/

namespace Ext2Fs

variable (fs : Ext2Fs)

/-- An entry of a table of block numbers. A table that is missing or cannot be read has none. -/
def tableEntry (table : UInt32) (i : ℕ) : UInt32 :=
  if table = 0 then 0
  else
    match fs.readBlock table with
    | none => 0
    | some t => rd32le t (4 * i)

/-- `data_block`: twelve direct blocks, a table of them, and a table of tables. -/
def dataBlock (inode : ExtInode) (bi : ℕ) : UInt32 :=
  let ents := fs.blockSize.toNat / 4
  if bi < 12 then rd32le inode.block (4 * bi)
  else if bi - 12 < ents then fs.tableEntry (rd32le inode.block 48) (bi - 12)
  else
    let dindIdx := bi - 12 - ents
    if ents ≤ dindIdx / ents then 0
    else fs.tableEntry (fs.tableEntry (rd32le inode.block 52) (dindIdx / ents)) (dindIdx % ents)

/-- The loop of `ext2_read`. -/
def readLoop (inode : ExtInode) (off len : ℕ) : ℕ → Bytes → Bytes
  | 0, out => out
  | fuel + 1, out =>
    if out.length < len then
      let pos := (off + out.length) % 2 ^ 32
      let bo := pos % fs.blockSize.toNat
      let block := fs.dataBlock inode (pos / fs.blockSize.toNat)
      if block = 0 then out
      else
        match fs.readBlock block with
        | none => out
        | some blk =>
          let n := min (fs.blockSize.toNat - bo) (len - out.length)
          readLoop inode off len fuel (out ++ (List.range n).map fun i => rd8 blk (bo + i))
    else out

/-- `ext2_read` of an inode that can be read. -/
def readFile (inode : ExtInode) (off len : ℕ) : Bytes :=
  if inode.sizeLo.toNat ≤ off then []
  else
    let len := if inode.sizeLo.toNat < (off + len) % 2 ^ 32 then inode.sizeLo.toNat - off else len
    fs.readLoop inode off len len []

def content (inode : ExtInode) : File32 where
  size := inode.sizeLo.toNat
  stored x :=
    let block := fs.dataBlock inode (x / fs.blockSize.toNat)
    if block = 0 then none else (fs.readBlock block).map fun blk => rd8 blk (x % fs.blockSize.toNat)
  small := inode.size_lt

variable {fs : Ext2Fs} {inode : ExtInode} {off len : ℕ}

theorem readLoop_length (fuel : ℕ) (out : Bytes) (hout : out.length ≤ len) :
    (fs.readLoop inode off len fuel out).length ≤ len := by
  induction fuel generalizing out with
  | zero => exact hout
  | succ fuel ih =>
    unfold readLoop
    by_cases hlt : out.length < len
    · rw [if_pos hlt]
      dsimp only
      split
      · exact hout
      split
      · exact hout
      apply ih
      rw [length_append, length_map, length_range]
      omega
    · rw [if_neg hlt]
      exact hout

theorem readFile_length : (fs.readFile inode off len).length ≤ len := by
  have hmod := Nat.mod_le (off + len) (2 ^ 32)
  unfold readFile
  split
  · exact Nat.zero_le _
  refine (readLoop_length _ _ (Nat.zero_le _)).trans ?_
  split
  · omega
  · exact le_rfl

/-- `ext2_read`. -/
def reads (fs : Ext2Fs) (ino : UInt32) : FileReads where
  read off len := (fs.readInode ino).map fun inode => fs.readFile inode off len
  short off len bs h := by
    cases hinode : fs.readInode ino with
    | none =>
      rw [hinode] at h
      cases h
    | some inode =>
      rw [hinode] at h
      rw [← Option.some.inj h]
      exact readFile_length

/-- The bytes of one block from a position on are those of the file. -/
theorem content_block {x bo n : ℕ} {blk : Bytes} (hblock : fs.dataBlock inode (x / fs.blockSize.toNat) ≠ 0)
    (hread : fs.readBlock (fs.dataBlock inode (x / fs.blockSize.toNat)) = some blk) (hbo : bo = x % fs.blockSize.toNat)
    (hn : bo + n ≤ fs.blockSize.toNat) : ∀ i < n, (fs.content inode).stored (x + i) = some (rd8 blk (bo + i)) := by
  intro i hi
  have hdiv : (x + i) / fs.blockSize.toNat = x / fs.blockSize.toNat := by
    rw [Nat.add_div (by omega), Nat.div_eq_of_lt (show i < fs.blockSize.toNat by omega),
      Nat.mod_eq_of_lt (show i < fs.blockSize.toNat by omega), if_neg (by omega)]
    rfl
  have hmod : (x + i) % fs.blockSize.toNat = bo + i := by
    rw [Nat.add_mod, ← hbo, Nat.mod_eq_of_lt (show i < fs.blockSize.toNat by omega), Nat.mod_eq_of_lt (by omega)]
  unfold content
  dsimp only
  rw [hdiv, hmod, if_neg hblock, hread]
  rfl

/-- The loop gives the bytes of the file up to the first hole. -/
theorem readLoop_stops (hbs : 0 < fs.blockSize.toNat) (hin : off + len ≤ inode.sizeLo.toNat) (fuel d : ℕ)
    (hd : d ≤ len) (hfuel : len ≤ d + fuel) (hstored : ∀ i < d, (fs.content inode).stored (off + i) ≠ none) :
    ∃ k ≤ len,
      fs.readLoop inode off len fuel ((fs.content inode).bytesFrom off d) = (fs.content inode).bytesFrom off k ∧
      (∀ i < k, (fs.content inode).stored (off + i) ≠ none) ∧
      (k < len → (fs.content inode).stored (off + k) = none) := by
  have hlt := inode.size_lt
  induction fuel generalizing d with
  | zero => exact ⟨d, hd, rfl, hstored, fun h => by omega⟩
  | succ fuel ih =>
    have hsize : (fs.content inode).size = inode.sizeLo.toNat := rfl
    have hlen : ((fs.content inode).bytesFrom off d).length = d := by
      rw [bytesFrom_length]
      omega
    unfold readLoop
    rw [hlen]
    by_cases hmore : d < len
    · have hmod : (off + d) % 2 ^ 32 = off + d := Nat.mod_eq_of_lt (by omega)
      rw [if_pos hmore, hmod]
      dsimp only
      by_cases hblock : fs.dataBlock inode ((off + d) / fs.blockSize.toNat) = 0
      · rw [if_pos hblock]
        exact ⟨d, hd, rfl, hstored, fun _ => if_pos hblock⟩
      rw [if_neg hblock]
      cases hread : fs.readBlock (fs.dataBlock inode ((off + d) / fs.blockSize.toNat)) with
      | none =>
        refine ⟨d, hd, rfl, hstored, fun _ => ?_⟩
        unfold content
        dsimp only
        rw [if_neg hblock, hread]
        rfl
      | some blk =>
        dsimp only
        have hbo := Nat.mod_lt (off + d) hbs
        generalize hn : min (fs.blockSize.toNat - (off + d) % fs.blockSize.toNat) (len - d) = n
        have hbytes := @content_block fs inode (off + d) _ n blk hblock hread rfl (by omega)
        have hpiece : ((List.range n).map fun i => rd8 blk ((off + d) % fs.blockSize.toNat + i)) =
            (fs.content inode).bytesFrom (off + d) n := by
          unfold bytesFrom
          rw [Nat.min_eq_left (by omega)]
          apply map_congr_left
          intro i hi
          unfold byte
          rw [hbytes i (mem_range.mp hi)]
          rfl
        rw [hpiece, bytesFrom_add (by omega)]
        apply ih (d + n) (by omega) (by omega)
        intro i hi
        by_cases hid : i < d
        · exact hstored i hid
        have hbyte := hbytes (i - d) (by omega)
        rw [show off + d + (i - d) = off + i by omega] at hbyte
        rw [hbyte]
        exact Option.some_ne_none _
    · rw [if_neg hmore]
      exact ⟨d, hd, rfl, hstored, fun h => absurd h hmore⟩

theorem stopsAtHoles {ino : UInt32} (hbs : 0 < fs.blockSize.toNat) (hinode : fs.readInode ino = some inode) :
    StopsAtHoles (fs.content inode) (fs.reads ino) := by
  intro off n hin
  have hsize : (fs.content inode).size = inode.sizeLo.toNat := rfl
  have hlt := inode.size_lt
  have hread : (fs.reads ino).read off n = some (fs.readFile inode off n) := by
    change (fs.readInode ino).map (fun inode => fs.readFile inode off n) = some (fs.readFile inode off n)
    rw [hinode]
    rfl
  rw [hread]
  by_cases hpast : inode.sizeLo.toNat ≤ off
  · have hfile : fs.readFile inode off n = [] := if_pos hpast
    have hnone : (fs.content inode).bytesFrom off 0 = [] := rfl
    exact ⟨0, Nat.zero_le _, by rw [hfile, hnone], fun i hi => absurd hi (Nat.not_lt_zero i), fun hn => by omega⟩
  obtain ⟨k, hk, hloop, hstops⟩ := @readLoop_stops fs inode off n hbs (by omega) n 0 (Nat.zero_le _) (by omega)
    (fun i hi => absurd hi (Nat.not_lt_zero i))
  have hmod : (off + n) % 2 ^ 32 = off + n := Nat.mod_eq_of_lt (by omega)
  refine ⟨k, hk, ?_, hstops⟩
  unfold readFile
  rw [if_neg hpast, hmod, if_neg (by omega), ← hloop]
  rfl

end Ext2Fs

end EdgeOS
