import EdgeOS.PathResolve

namespace EdgeOS

/-!
Absolute normalised paths, as `vfs_resolve` takes them apart, and the records in the blocks of a
directory.
-/

open List

/-! ## Absolute paths -/

/-- The name of a component: neither empty nor `.` nor `..`, without slash and zero. -/
structure ProperName (c : Bytes) : Prop where
  nonempty : c ≠ []
  noSlash : slash ∉ c
  noZero : 0 ∉ c
  notDot : c ≠ ascii "."
  notDotDot : c ≠ ascii ".."

/-- `/` and the components, joined by single slashes. -/
def renderPath (parts : List Bytes) : Bytes :=
  if parts = [] then [slash] else parts.flatMap fun c => slash :: c

/-- An absolute normalised path that fits into the buffers of the kernel. -/
structure AbsPath where
  parts : List Bytes
  proper : ∀ c ∈ parts, ProperName c
  fits : (renderPath parts).length < vfsPathMax

def AbsPath.bytes (p : AbsPath) : Bytes := renderPath p.parts

/-- The components of the part of the path below a mount point. -/
def AbsPath.below (p : AbsPath) (sb : Superblock) : List Bytes :=
  (pathParts (sb.below p.bytes)).filter (· ≠ [])

/-- The mount point that is chosen for a path. The names of devices have none. -/
def VfsTables.chosen (v : VfsTables) (abs : Bytes) : Option Superblock :=
  match v.tryResolveDevpath abs with
  | some _ => none
  | none => v.findMount abs

/-! ## The entries of a directory -/

/-- The records of a block from `off` on. -/
def recordsFrom (size : ℕ) (blk : Bytes) : ℕ → ℕ → List Dirent
  | 0, _ => []
  | fuel + 1, off =>
    if off + 8 ≤ size then
      let de := direntAt blk off
      if de.recLen < 8 ∨ size < off + de.recLen then []
      else de :: recordsFrom size blk fuel (off + de.recLen)
    else []

def records (size : ℕ) (blks : List (Option Bytes)) : List Dirent :=
  blks.reduceOption.flatMap fun blk => recordsFrom size blk size 0

def decimalValue (s : Bytes) : ℕ := s.foldl (fun n c => n * 10 + (c - 48).toNat) 0

/-! ## The loop over the records -/

theorem mem_recordsFrom {size : ℕ} {blk : Bytes} {fuel off : ℕ} {de : Dirent}
    (h : de ∈ recordsFrom size blk fuel off) : ∃ off', de = direntAt blk off' := by
  induction fuel generalizing off with
  | zero => exact absurd h not_mem_nil
  | succ fuel ih =>
    unfold recordsFrom at h
    dsimp only at h
    split at h
    · split at h
      · exact absurd h not_mem_nil
      · rcases mem_cons.mp h with hde | hde
        · exact ⟨off, hde⟩
        · exact ih hde
    · exact absurd h not_mem_nil

/-! ## Normalised paths -/

/-- The names behind slashes are what is found between the slashes, after an empty part. -/
theorem pathParts_flatMap (cs : List Bytes) (hcs : ∀ c ∈ cs, ProperName c) :
    pathParts (cs.flatMap fun c => slash :: c) = [] :: cs := by
  unfold pathParts
  induction cs with
  | nil => rfl
  | cons c cs ih =>
    rw [forall_mem_cons] at hcs
    have htail : (c ++ cs.flatMap fun c => slash :: c).splitOn slash = c :: cs := by
      cases cs with
      | nil =>
        rw [flatMap_nil, append_nil]
        exact splitOn_eq_singleton hcs.1.noSlash
      | cons d cs =>
        have hrest := ih hcs.2
        rw [flatMap_cons, cons_append] at hrest ⊢
        rw [splitOn_append_cons_self_of_not_mem hcs.1.noSlash]
        rw [← nil_append (slash :: _), splitOn_append_cons_self] at hrest
        exact congrArg _ (cons.inj hrest).2
    rw [flatMap_cons, cons_append, ← nil_append (slash :: _), splitOn_append_cons_self, htail]
    rfl

theorem AbsPath.mem_pathParts (p : AbsPath) {c : Bytes} (h : c ∈ pathParts p.bytes) (hne : c ≠ []) : ProperName c := by
  unfold AbsPath.bytes renderPath at h
  split at h
  · have hroot : pathParts [slash] = [[], []] := by decide
    rw [hroot] at h
    simp only [mem_cons, not_mem_nil, or_false, or_self] at h
    exact absurd h hne
  rw [pathParts_flatMap p.parts p.proper] at h
  rcases mem_cons.mp h with hnil | hmem
  · exact absurd hnil hne
  · exact p.proper c hmem

theorem AbsPath.head_bytes (p : AbsPath) : p.bytes[0]? = some slash := by
  unfold AbsPath.bytes renderPath
  split
  · rfl
  obtain ⟨c, cs, hparts⟩ := exists_cons_of_ne_nil ‹p.parts ≠ []›
  rw [hparts]
  rfl

theorem appendCut_eq {out part : Bytes} (h : out.length + part.length < vfsPathMax) :
    appendCut out part = out ++ part := by
  unfold appendCut
  rw [take_of_length_le]
  omega

theorem renderPath_snoc (done : List Bytes) (c : Bytes) :
    renderPath (done ++ [c]) = (done.flatMap fun c => slash :: c) ++ slash :: c := by
  unfold renderPath
  rw [if_neg (by simp), flatMap_append]
  simp

theorem pushComponent_proper {done : List Bytes} {c : Bytes} (hc : ProperName c)
    (hdone : ∀ d ∈ done, ProperName d) (hfits : (renderPath (done ++ [c])).length < vfsPathMax) :
    pushComponent (renderPath done) c = renderPath (done ++ [c]) := by
  unfold pushComponent
  rw [if_neg hc.nonempty, if_neg hc.notDot, if_neg hc.notDotDot]
  rw [renderPath_snoc] at hfits ⊢
  rw [length_append, length_cons] at hfits
  cases done with
  | nil =>
    have hroot : renderPath [] = [slash] := rfl
    rw [hroot, if_neg (by decide), appendCut_eq]
    · rfl
    · rw [length_singleton]
      rw [flatMap_nil, length_nil] at hfits
      omega
  | cons d done =>
    have hrender : renderPath (d :: done) = (d :: done).flatMap fun c => slash :: c := if_neg (by simp)
    have hlong : 1 < (renderPath (d :: done)).length := by
      have hd := length_pos_iff.mpr (hdone d mem_cons_self).nonempty
      rw [hrender, flatMap_cons, length_append, length_cons]
      omega
    rw [if_pos hlong, hrender, appendCut_eq, appendCut_eq]
    · rw [append_assoc]
      rfl
    · rw [length_singleton]
      omega
    · rw [appendCut_eq]
      · rw [length_append, length_singleton]
        omega
      · rw [length_singleton]
        omega

theorem foldl_pushComponent (cs done : List Bytes) (hcs : ∀ c ∈ cs, ProperName c)
    (hdone : ∀ d ∈ done, ProperName d) (hfits : (renderPath (done ++ cs)).length < vfsPathMax) :
    cs.foldl pushComponent (renderPath done) = renderPath (done ++ cs) := by
  induction cs generalizing done with
  | nil => rw [append_nil, foldl_nil]
  | cons c cs ih =>
    rw [forall_mem_cons] at hcs
    have hassoc : done ++ c :: cs = (done ++ [c]) ++ cs := by simp
    rw [hassoc] at hfits ⊢
    have hstep : (renderPath (done ++ [c])).length < vfsPathMax := by
      refine lt_of_le_of_lt ?_ hfits
      unfold renderPath
      rw [if_neg (by simp), if_neg (by simp)]
      simp only [flatMap_append, length_append]
      omega
    rw [foldl_cons, pushComponent_proper hcs.1 hdone hstep]
    apply ih (done ++ [c]) hcs.2 _ hfits
    intro d hd
    rcases mem_append.mp hd with hd | hd
    · exact hdone d hd
    · rw [mem_singleton.mp hd]
      exact hcs.1

theorem normalizePath_abs (cwd : Bytes) (p : AbsPath) : normalizePath cwd p.bytes = p.bytes := by
  have hhead : p.bytes.head? = some slash := by
    rw [head?_eq_getElem?]
    exact p.head_bytes
  have hne : p.bytes ≠ [] := by
    intro h
    rw [h] at hhead
    exact absurd hhead (by simp)
  unfold normalizePath
  rw [if_neg hne, if_pos hhead]
  unfold AbsPath.bytes
  by_cases hparts : p.parts = []
  · rw [hparts]
    decide
  have hrender : renderPath p.parts = p.parts.flatMap fun c => slash :: c := if_neg hparts
  dsimp only
  rw [hrender, pathParts_flatMap p.parts p.proper, ← hrender]
  exact foldl_pushComponent p.parts [] p.proper (by simp) p.fits

theorem findMount_covers {v : VfsTables} {path : Bytes} {sb : Superblock} (h : v.findMount path = some sb) :
    sb.covers path = true := by
  have hfold : ∀ (sbs : List Superblock) (best : Option Superblock), (∀ b, best = some b → b.covers path = true) →
      sbs.foldl (fun best sb => if sb.covers path ∧ ∀ b ∈ best, b.mountpoint.length < sb.mountpoint.length
        then some sb else best) best = some sb → sb.covers path = true := by
    intro sbs
    induction sbs with
    | nil => exact fun best hbest hsb => hbest sb hsb
    | cons b sbs ih =>
      intro best hbest hsb
      rw [foldl_cons] at hsb
      apply ih _ _ hsb
      intro b' hb'
      split at hb'
      · rename_i hcovers
        rw [← Option.some.inj hb']
        exact hcovers.1
      · exact hbest b' hb'
  exact hfold v.mounts none (by simp) h

theorem AbsPath.below_proper (p : AbsPath) {v : VfsTables} {sb : Superblock}
    (h : v.chosen p.bytes = some sb) : ∀ c ∈ p.below sb, ProperName c := by
  have hmount : v.findMount p.bytes = some sb := by
    unfold VfsTables.chosen at h
    split at h
    · exact absurd h (by simp)
    · exact h
  have hsplit : ∀ a b, p.bytes = a ++ slash :: b → ∀ c ∈ pathParts b, c ∈ pathParts p.bytes := by
    intro a b hab c hc
    rw [hab]
    unfold pathParts at hc ⊢
    rw [splitOn_append_cons_self]
    exact mem_append_right _ hc
  have hslash : ∀ i, p.bytes[i]? = some slash → p.bytes = p.bytes.take i ++ slash :: p.bytes.drop (i + 1) := by
    intro i hi
    obtain ⟨hlt, hget⟩ := List.getElem?_eq_some_iff.mp hi
    rw [← hget, ← drop_eq_getElem_cons hlt, take_append_drop]
  intro c hc
  unfold AbsPath.below at hc
  obtain ⟨hmem, hne⟩ := mem_filter.mp hc
  have hne : c ≠ [] := by simpa using hne
  apply p.mem_pathParts _ hne
  unfold Superblock.below at hmem
  split at hmem
  · exact hsplit _ _ (hslash 0 p.head_bytes) c hmem
  rename_i hlong
  split at hmem
  · rename_i hi
    exact hsplit _ _ (hslash _ hi) c hmem
  rename_i hi
  have hcovers := findMount_covers hmount
  unfold Superblock.covers at hcovers
  have hend : p.bytes.length = sb.mountpoint.length := by
    rcases (of_decide_eq_true hcovers).2 with h | h | h
    · exact h
    · exact absurd h hi
    · exact absurd h hlong
  rw [drop_of_length_le hend.le] at hmem
  have hnil : pathParts [] = [[]] := rfl
  rw [hnil, mem_singleton] at hmem
  exact absurd hmem hne

/-! ## The walk -/

theorem resolveWalk_filter (fs : Filesystem) (x : VfsNode) (parts : List Bytes) :
    resolveWalk fs x (parts.filter (· ≠ [])) = resolveWalk fs x parts := by
  induction parts generalizing x with
  | nil => rfl
  | cons c parts ih =>
    by_cases hc : c = []
    · rw [hc]
      exact ih x
    rw [filter_cons_of_pos (by simpa using hc)]
    unfold resolveWalk
    dsimp only
    rw [ih]
    simp only [ih]

theorem ProperName.take {c : Bytes} (hc : ProperName c) :
    ¬ (c.take (vfsNameMax - 1) = [] ∨ c.take (vfsNameMax - 1) = ascii "." ∨
      c.take (vfsNameMax - 1) = ascii "..") := by
  by_cases hlen : c.length ≤ vfsNameMax - 1
  · rw [take_of_length_le hlen]
    rintro (h | h | h)
    · exact hc.nonempty h
    · exact hc.notDot h
    · exact hc.notDotDot h
  · have htake : (c.take (vfsNameMax - 1)).length = vfsNameMax - 1 := by
      rw [length_take]
      omega
    rintro (h | h | h) <;> rw [h] at htake <;> exact absurd htake (by decide)

theorem resolveWalk_below (p : AbsPath) (sb : Superblock) :
    resolveWalk sb.fs sb.root (pathParts (sb.below p.bytes)) = resolveWalk sb.fs sb.root (p.below sb) :=
  (resolveWalk_filter sb.fs sb.root _).symm

/-! ## A path through a file -/

/-- The bytes of a device that are not zero: a file system with the directory `/`, whose entry `f`
is a regular file. The bytes of the file are those of a record for `g`. -/
def imageBytes : List (ℕ × UInt8) :=
  -- the group descriptor: the inode table is in block 5
  [(2056, 5),
   -- inode 2, the root, with block 7
   (5248, 0xED), (5249, 0x41), (5253, 4), (5288, 7),
   -- inode 11, the file, with block 8
   (6400, 0xA4), (6401, 0x81), (6405, 4), (6440, 8),
   -- inode 12, another file
   (6528, 0x80), (6529, 0x81),
   -- the record in the root
   (7168, 11), (7173, 4), (7174, 1), (7175, 1), (7176, 102),
   -- the contents of the file
   (8192, 12), (8197, 4), (8198, 1), (8199, 1), (8200, 103)]

def imageDevice : BlockDevice where
  sectorSize := 512
  sector i := some ((List.range 512).map fun k => (imageBytes.lookup (512 * i.toNat + k)).getD 0)

def imageFs : Ext4Fs where
  bdev := imageDevice
  inodesCount := 16
  firstDataBlock := 1
  inodesPerGroup := 16
  inodeSize := 128
  blockSize := 1024

def imageRoot : VfsNode := { ino := 2, mode := 0x41ED, size := 1024 }

def throughFile : AbsPath where
  parts := [[102], [103]]
  proper := by
    intro c hc
    simp only [List.mem_cons, List.not_mem_nil, or_false] at hc
    rcases hc with rfl | rfl <;> exact ⟨by decide, by decide, by decide, by decide, by decide⟩
  fits := by decide

theorem throughFile_parts (root : VfsNode) (fs : Filesystem) :
    pathParts ((⟨[slash], root, fs⟩ : Superblock).below throughFile.bytes) = [[102], [103]] := rfl

theorem throughFile_resolve (root : VfsNode) (fs : Filesystem) :
    vfsResolve { mounts := [⟨[slash], root, fs⟩] } throughFile.bytes =
      (resolveWalk fs root [[102], [103]]).map fun x => (x, some ⟨[slash], root, fs⟩) := by
  have hdev : VfsTables.tryResolveDevpath { mounts := [⟨[slash], root, fs⟩] } throughFile.bytes = none := rfl
  have hmount : VfsTables.findMount { mounts := [⟨[slash], root, fs⟩] } throughFile.bytes =
    some ⟨[slash], root, fs⟩ := rfl
  unfold vfsResolve
  dsimp only
  rw [normalizePath_abs, hdev]
  dsimp only
  rw [hmount]
  dsimp only
  rw [throughFile_parts]

end EdgeOS
