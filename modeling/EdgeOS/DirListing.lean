import EdgeOS.DirImage
import EdgeOS.Lib.Runs
import EdgeOS.PathCalls

namespace EdgeOS

open Lib List

/-!
Listing a directory: `ext4_readdir`, `ext2_readdir`, `do_sys_getdents64` and the check of
`do_sys_rmdir`. A position in a directory is the number of an entry, which every step counts anew.
-/

/-! ## The drivers -/

/-- The loop of a `readdir` over one block: the live record with the number `idx`, or how many there
have been. -/
def readdirRecords (size : ℕ) (live : Dirent → Bool) (idx : ℕ) (blk : Bytes) : ℕ → ℕ → ℕ → Dirent ⊕ ℕ
  | 0, _, seen => .inr seen
  | fuel + 1, off, seen =>
    if off + 8 ≤ size then
      let de := direntAt blk off
      if de.recLen < 8 ∨ size < off + de.recLen then .inr seen
      else if live de then
        if seen = idx then .inl de else readdirRecords size live idx blk fuel (off + de.recLen) (seen + 1)
      else readdirRecords size live idx blk fuel (off + de.recLen) seen
    else .inr seen

def readdirBlocks (size : ℕ) (live : Dirent → Bool) (idx : ℕ) : List (Option Bytes) → ℕ → Option Dirent
  | [], _ => none
  | none :: blks, seen => readdirBlocks size live idx blks seen
  | some blk :: blks, seen =>
    match readdirRecords size live idx blk size 0 seen with
    | .inl de => some de
    | .inr seen => readdirBlocks size live idx blks seen

/-- `ext4_readdir`: the name as a string of C, and the inode. An entry of another kind than a file or
a directory ends the listing as the end of the directory does. -/
def Ext4Fs.readdir (fs : Ext4Fs) (dir : VfsNode) (idx : ℕ) : Option (Bytes × VfsNode) :=
  match fs.readInode dir.ino.toUInt32 with
  | none => none
  | some dino =>
    match readdirBlocks fs.blockSize.toNat Ext4Fs.live idx (fs.fileBlocks dino) 0 with
    | none => none
    | some de => (fs.fill dir de).map fun x => (de.cName, x)

/-- `ext2_readdir`. -/
def Ext2Fs.readdir (fs : Ext2Fs) (dir : VfsNode) (idx : ℕ) : Option (Bytes × VfsNode) :=
  match fs.readInode dir.ino.toUInt32 with
  | none => none
  | some dino =>
    match readdirBlocks fs.blockSize.toNat Ext2Fs.live idx (fs.fileBlocks dino) 0 with
    | none => none
    | some de => (fs.fill dir de).map fun x => (de.cName, x)

def ExtFs.readdir : ExtFs → VfsNode → ℕ → Option (Bytes × VfsNode)
  | ext4 fs => fs.readdir
  | ext2 fs => fs.readdir

/-! ## Records for the user -/

/-- `struct edge_linux_dirent64`. -/
structure LinuxDirent64 where
  ino : ℕ
  off : ℕ
  type : ℕ
  name : Bytes
  deriving DecidableEq, Repr

/-- `d_reclen`: the fields before the name are 19 bytes long, and a record ends at a multiple of eight. -/
def direntLen (name : Bytes) : ℕ := (19 + name.length + 1 + 7) / 8 * 8

def leBytes (n k : ℕ) : Bytes := (List.range n).map fun i => (k / 256 ^ i % 256).toUInt8

def LinuxDirent64.bytes (r : LinuxDirent64) : Bytes :=
  let head := leBytes 8 r.ino ++ leBytes 8 r.off ++ leBytes 2 (direntLen r.name) ++ leBytes 1 r.type ++ r.name
  head ++ List.replicate (direntLen r.name - head.length) 0

/-- `LINUX_DT_CHR` and so on. -/
def linuxDtChr : ℕ := 2
def linuxDtDir : ℕ := 4
def linuxDtBlk : ℕ := 6
def linuxDtReg : ℕ := 8

def modeToDtype (mode : BitVec 16) : ℕ :=
  let mt := mode &&& 0xF000
  if mt = vfsInodeDir then linuxDtDir
  else if mt = vfsInodeFile then linuxDtReg
  else if mt = vfsInodeChr then linuxDtChr
  else if mt = vfsInodeBlk then linuxDtBlk
  else 0

/-- What a position of a listing holds: nothing more, a device that is not there, or an entry. -/
inductive DirSlot
  | absent
  | skipped
  | entry (ino type : ℕ) (name : Bytes)

/-- The loop of `do_sys_getdents64`: the records, the position and an error. Of the buffer of `count`
bytes `writable` can be written. Every round moves the position. -/
def direntLoop (slot : ℕ → DirSlot) (count writable : ℕ) : ℕ → ℕ → ℕ → List LinuxDirent64 × ℕ × Option Errno
  | 0, pos, _ => ([], pos, none)
  | fuel + 1, pos, written =>
    match slot pos with
    | .absent => ([], pos, none)
    | .skipped => direntLoop slot count writable fuel (pos + 1) written
    | .entry ino type name =>
      let reclen := direntLen name
      if count < written + reclen then ([], pos, none)
      else if 320 < reclen then ([], pos, some .einval)
      else if writable < written + reclen then ([], pos, some .efault)
      else
        let (rs, pos', err) := direntLoop slot count writable fuel (pos + 1) (written + reclen)
        (⟨ino, pos + 1, type, name⟩ :: rs, pos', err)

/-! ## The call -/

/-- A descriptor of a directory with its superblock, if that has a `readdir`. -/
structure DirFd where
  path : Bytes
  inode : VfsNode
  fs : Option ExtFs
  pos : ℕ := 0

/-- What the listings of `/dev` and `/dev/pts` are made of: the terminals in use, the block devices
by name with their `present`, and the tables in which `/dev` is looked up. -/
structure DevEnv where
  tables : VfsTables
  ptys : List ℕ := []
  blockDevices : List (Bytes × Bool) := []

/-- The listing of `/dev/pts`. -/
def DevEnv.ptsSlot (env : DevEnv) (idx : ℕ) : DirSlot :=
  if idx = 0 then .entry 2 linuxDtDir (ascii ".")
  else if idx = 1 then .entry 2 linuxDtDir (ascii "..")
  else
    match env.ptys[idx - 2]? with
    | none => .absent
    | some id => .entry (0xD0FFF100 + (idx - 2)) linuxDtChr (ascii (toString id))

/-- `k_chr`. -/
def devNames : List Bytes :=
  ["console", "tty", "tty0", "tty1", "tty2", "tty3", "tty4", "null", "zero", "fb0", "random", "urandom",
    "ptmx", "pts"].map ascii

/-- The listing of `/dev`. -/
def DevEnv.devSlot (env : DevEnv) (idx : ℕ) : DirSlot :=
  if idx = 0 then .entry 2 linuxDtDir (ascii ".")
  else if idx = 1 then .entry 2 linuxDtDir (ascii "..")
  else
    match env.blockDevices[idx - 2]? with
    | some (name, present) => if present then .entry (0xD0000000 + idx) linuxDtBlk name else .skipped
    | none =>
      match devNames[idx - 2 - env.blockDevices.length]? with
      | some name => .entry (0xD0000000 + idx) linuxDtChr name
      | none => .absent

/-- The directory is taken for `/dev`: by its path, or because its inode has the number of that of `/dev`, on
whatever mount. -/
def DevEnv.isDevDir (env : DevEnv) (e : DirFd) : Bool :=
  if e.path = ascii "/dev" then true
  else
    match vfsResolve env.tables (ascii "/dev") with
    | none => false
    | some (x, _) => x.ino = e.inode.ino ∧ x.IsDir

/-- A position in the directory itself. The number is a `uint32_t`. -/
def DirFd.slot (e : DirFd) (fs : ExtFs) (pos : ℕ) : DirSlot :=
  match fs.readdir e.inode (pos % 2 ^ 32) with
  | none => .absent
  | some (name, x) => .entry x.ino (modeToDtype x.mode) name

structure GetdentsCall where
  count : ℕ
  writable : ℕ

/-- A listing that the kernel makes up keeps its position when it fails. -/
def syntheticDents (slot : ℕ → DirSlot) (total : ℕ) (e : DirFd) (c : GetdentsCall) :
    DirFd × Except Errno (List LinuxDirent64) :=
  match direntLoop slot c.count c.writable (c.count + total) e.pos 0 with
  | (_, _, some err) => (e, .error err)
  | (rs, pos, none) => ({ e with pos := pos }, .ok rs)

/-- `do_sys_getdents64`. The call returns the length of the records. -/
def doSysGetdents64 (env : DevEnv) (e : DirFd) (c : GetdentsCall) : DirFd × Except Errno (List LinuxDirent64) :=
  if ¬ e.inode.IsDir then (e, .error .enotdir)
  else if c.count < 19 + 2 then (e, .error .einval)
  else if e.path = ascii "/dev/pts" then syntheticDents env.ptsSlot (2 + env.ptys.length) e c
  else if env.isDevDir e then
    syntheticDents env.devSlot (2 + env.blockDevices.length + devNames.length) e c
  else
    match e.fs with
    | none => (e, .error .enosys)
    | some fs =>
      match direntLoop (e.slot fs) c.count c.writable c.count e.pos 0 with
      | (_, pos, some err) => ({ e with pos := pos }, .error err)
      | (rs, pos, none) => ({ e with pos := pos }, .ok rs)

/-! ## Removing a directory -/

/-- The `readdir` of a file system; `others` is that of procfs and of the one in memory. -/
def Filesystem.readdir (others : Filesystem → VfsNode → ℕ → Option (Bytes × VfsNode)) :
    Filesystem → VfsNode → ℕ → Option (Bytes × VfsNode)
  | .ext4 fs => fs.readdir
  | .ext2 fs => fs.readdir
  | .proc tasks => others (.proc tasks)
  | .fat32 nodes => others (.fat32 nodes)

namespace DirImage

variable (im : DirImage)

def listing : List (ℕ × Bytes) := im.entries.map fun de => (de.inode.toNat, de.name)

/-- The inode of an entry can be read and is a file or a directory. -/
def Plain (de : Dirent) : Prop := ∃ inode, im.fs.readInode de.inode = some inode ∧ vfsModeFromExt inode.mode ≠ 0

/-- Nothing but `.` and `..`. -/
def Empty : Prop := ∀ de ∈ im.entries, de.name = ascii "." ∨ de.name = ascii ".."

/-- The descriptor is one of this directory. -/
structure OpenAs (e : DirFd) : Prop where
  ino : e.inode.ino = im.ino.toNat
  dir : e.inode.IsDir
  fs : e.fs = some im.fs

end DirImage

/-- A descriptor, and the records that its calls have returned so far. -/
structure Listing where
  fd : DirFd
  returned : List LinuxDirent64 := []

def Listing.step (env : DevEnv) (l : Listing) (c : GetdentsCall) : Listing :=
  let out := doSysGetdents64 env l.fd c
  { fd := out.1, returned := l.returned ++ (out.2.toOption.getD []) }

def listed (rs : List LinuxDirent64) : List (ℕ × Bytes) := rs.map fun r => (r.ino, r.name)

/-- A call that returns records returns the next entries, none left out, in records that follow each
other; it returns none only at the end; and it fails when the next record does not fit. -/
structure DirImage.Lists (im : DirImage) (env : DevEnv) (l : Listing) (c : GetdentsCall) : Prop where
  next : ∀ rs, (doSysGetdents64 env l.fd c).2 = .ok rs →
    listed (l.returned ++ rs) = im.listing.take (l.returned ++ rs).length
  formed : ∀ rs, (doSysGetdents64 env l.fd c).2 = .ok rs →
    (rs.flatMap LinuxDirent64.bytes).length ≤ c.count ∧ ∀ r ∈ rs, r.bytes.length = direntLen r.name
  ends : (doSysGetdents64 env l.fd c).2 = .ok [] → listed l.returned = im.listing
  tooSmall : ∀ de, im.entries[l.returned.length]? = some de → c.count < direntLen de.name →
    ∃ err, (doSysGetdents64 env l.fd c).2 = .error err

/-- The descriptor is not taken for one of `/dev`, and the buffer can be written. The next entry, if there is one, is
in a block that the driver finds, it is a file or a directory, and its record fits into the buffer
unless that is shorter than any record. -/
structure DirImage.Fits (im : DirImage) (env : DevEnv) (l : Listing) (c : GetdentsCall) : Prop where
  notPts : l.fd.path ≠ ascii "/dev/pts"
  notDev : env.isDevDir l.fd = false
  writable : c.count ≤ c.writable
  entry : ∀ de, im.entries[l.returned.length]? = some de →
    im.seen[l.returned.length]? = some de ∧ im.Plain de ∧ (c.count < 19 + 2 ∨ direntLen de.name ≤ c.count)

/-- The loop over a block finds the record among the live ones. -/
theorem readdirRecords_eq (size : ℕ) (live : Dirent → Bool) (idx : ℕ) (blk : Bytes) (fuel off seen : ℕ)
    (hseen : seen ≤ idx) :
    readdirRecords size live idx blk fuel off seen =
      match ((recordsFrom size blk fuel off).filter live)[idx - seen]? with
      | some de => .inl de
      | none => .inr (seen + ((recordsFrom size blk fuel off).filter live).length) := by
  induction fuel generalizing off seen with
  | zero => rfl
  | succ fuel ih =>
    unfold readdirRecords recordsFrom
    dsimp only
    split
    · split
      · rfl
      · rw [filter_cons]
        by_cases hlive : live (direntAt blk off) = true
        · rw [if_pos hlive, if_pos hlive]
          split
          · rename_i heq
            rw [heq, Nat.sub_self]
            rfl
          rename_i hne
          have hlt : seen + 1 ≤ idx := by omega
          have hsub : idx - seen = idx - (seen + 1) + 1 := by omega
          rw [ih (off + (direntAt blk off).recLen) (seen + 1) hlt, hsub, getElem?_cons_succ, length_cons]
          split
          · rfl
          · congr 1
            omega
        · rw [if_neg hlive, if_neg hlive]
          exact ih _ seen hseen
    · rfl

theorem readdirBlocks_eq (size : ℕ) (live : Dirent → Bool) (idx : ℕ) (blks : List (Option Bytes)) (seen : ℕ)
    (hseen : seen ≤ idx) :
    readdirBlocks size live idx blks seen = ((records size blks).filter live)[idx - seen]? := by
  induction blks generalizing seen with
  | nil => rfl
  | cons b blks ih =>
    cases b with
    | none => exact ih seen hseen
    | some blk =>
      have hrecords : records size (some blk :: blks) = recordsFrom size blk size 0 ++ records size blks := rfl
      unfold readdirBlocks
      rw [hrecords, filter_append, readdirRecords_eq size live idx blk size 0 seen hseen]
      rcases hfound : ((recordsFrom size blk size 0).filter live)[idx - seen]? with _ | de
      · have hlen := getElem?_eq_none_iff.mp hfound
        dsimp only
        rw [ih _ (by omega), getElem?_append_right hlen]
        congr 1
        omega
      · obtain ⟨hlt, -⟩ := List.getElem?_eq_some_iff.mp hfound
        dsimp only
        rw [getElem?_append_left hlt, hfound]

namespace DirImage

variable (im : DirImage)

theorem fill_eq (dir : VfsNode) (de : Dirent) :
    (im.Plain de ∧ ∃ x, im.fs.fill dir de = some x ∧ x.ino = de.inode.toNat) ∨
      ¬ im.Plain de ∧ im.fs.fill dir de = none := by
  have hcases : ∀ (read : Option ExtInode) (fill : Option VfsNode), (fill = match read with
        | none => none
        | some inode =>
          if vfsModeFromExt inode.mode = 0 then none
          else some { dir with
            ino := de.inode.toNat, mode := vfsModeFromExt inode.mode, size := inode.sizeLo.toNat
            uid := inode.uid.toNat, gid := inode.gid.toNat }) →
      ((∃ inode, read = some inode ∧ vfsModeFromExt inode.mode ≠ 0) ∧ ∃ x, fill = some x ∧ x.ino = de.inode.toNat) ∨
        ¬ (∃ inode, read = some inode ∧ vfsModeFromExt inode.mode ≠ 0) ∧ fill = none := by
    rintro (_ | inode) fill rfl
    · exact .inr ⟨by simp, rfl⟩
    · by_cases hmode : vfsModeFromExt inode.mode = 0
      · exact .inr ⟨by simp [hmode], if_pos hmode⟩
      · exact .inl ⟨⟨inode, rfl, hmode⟩, _, if_neg hmode, rfl⟩
  rcases hfs : im.fs with x | x
  · have h := hcases (x.readInode de.inode) (x.fill dir de) (by unfold Ext4Fs.fill; cases x.readInode de.inode <;> rfl)
    unfold Plain
    rw [hfs]
    exact h
  have h := hcases (x.readInode de.inode) (x.fill dir de) (by unfold Ext2Fs.fill; cases x.readInode de.inode <;> rfl)
  unfold Plain
  rw [hfs]
  exact h

/-- A `readdir` of the directory gives the entry with the number, if it can be filled. -/
theorem readdir_eq {dir : VfsNode} (hino : dir.ino = im.ino.toNat) (idx : ℕ) :
    im.fs.readdir dir idx = im.seen[idx]?.bind fun de => (im.fs.fill dir de).map fun x => (de.cName, x) := by
  have hdir : dir.ino.toUInt32 = im.ino := by
    rw [hino]
    exact UInt32.ofNat_toNat
  have hfound := im.found
  have hlive := im.filter_live
  rw [← hlive]
  rcases hfs : im.fs with x | x
  · rw [hfs] at hfound
    have hfound : x.readInode im.ino = some im.inode := hfound
    change x.readdir dir idx = _
    unfold Ext4Fs.readdir
    rw [hdir, hfound]
    dsimp only
    rw [readdirBlocks_eq _ _ _ _ _ (Nat.zero_le idx), Nat.sub_zero]
    change _ = (((records x.blockSize.toNat (x.fileBlocks im.inode)).filter Ext4Fs.live)[idx]?).bind _
    cases ((records x.blockSize.toNat (x.fileBlocks im.inode)).filter Ext4Fs.live)[idx]? <;> rfl
  · rw [hfs] at hfound
    have hfound : x.readInode im.ino = some im.inode := hfound
    change x.readdir dir idx = _
    unfold Ext2Fs.readdir
    rw [hdir, hfound]
    dsimp only
    rw [readdirBlocks_eq _ _ _ _ _ (Nat.zero_le idx), Nat.sub_zero]
    change _ = (((records x.blockSize.toNat (x.fileBlocks im.inode)).filter Ext2Fs.live)[idx]?).bind _
    cases ((records x.blockSize.toNat (x.fileBlocks im.inode)).filter Ext2Fs.live)[idx]? <;> rfl

theorem length_recordsFrom (size : ℕ) (blk : Bytes) (fuel off : ℕ) : (recordsFrom size blk fuel off).length ≤ fuel := by
  induction fuel generalizing off with
  | zero => exact le_rfl
  | succ fuel ih =>
    unfold recordsFrom
    dsimp only
    split
    · split
      · exact Nat.zero_le _
      · exact Nat.succ_le_succ (ih _)
    · exact Nat.zero_le _

theorem length_seen : im.seen.length < 2 ^ 32 := by
  have hle := im.seen_prefix.length_le
  obtain ⟨hlt, -⟩ := im.length_lt
  have hrecords : ∀ blks : List Bytes,
      (blks.flatMap fun blk => recordsFrom im.fs.blockSize.toNat blk im.fs.blockSize.toNat 0).length ≤
        blks.length * im.fs.blockSize.toNat := by
    intro blks
    induction blks with
    | nil => simp
    | cons blk blks ih =>
      rw [flatMap_cons, length_append, length_cons, Nat.succ_mul]
      have hblk := length_recordsFrom im.fs.blockSize.toNat blk im.fs.blockSize.toNat 0
      omega
  have hentries : im.entries.length ≤ im.contents.length * im.fs.blockSize.toNat :=
    (length_filter_le _ _).trans (hrecords im.contents)
  rw [im.length] at hentries
  omega

end DirImage

/-! ## The loop of the call -/

section Loop

variable {slot : ℕ → DirSlot} {count writable : ℕ}

theorem direntLen_pos (name : Bytes) : 24 ≤ direntLen name := by
  unfold direntLen
  omega

def recordAt (slot : ℕ → DirSlot) (pos : ℕ) : Option LinuxDirent64 :=
  match slot pos with
  | .entry ino type name => some ⟨ino, pos + 1, type, name⟩
  | _ => none

def recordsLen (rs : List LinuxDirent64) : ℕ := (rs.map fun r => direntLen r.name).sum

theorem recordsLen_cons (r : LinuxDirent64) (rs : List LinuxDirent64) :
    recordsLen (r :: rs) = direntLen r.name + recordsLen rs := by
  unfold recordsLen
  rw [map_cons, sum_cons]

/-- The loop over a directory without gaps returns the records from the position on, as many as
fit, and it goes on as long as one fits. -/
theorem direntLoop_spec (hskip : ∀ pos, slot pos ≠ .skipped)
    (hshort : ∀ pos ino type name, slot pos = .entry ino type name → direntLen name ≤ 320)
    (hwritable : count ≤ writable) (fuel pos written : ℕ) (hfuel : count < written + 24 * fuel) (hcount : written ≤ count) :
    ∃ rs, direntLoop slot count writable fuel pos written = (rs, pos + rs.length, none) ∧
      (∀ k < rs.length, rs[k]? = recordAt slot (pos + k)) ∧ written + recordsLen rs ≤ count ∧
      ∀ r, recordAt slot (pos + rs.length) = some r → count < written + recordsLen rs + direntLen r.name := by
  induction fuel generalizing pos written with
  | zero => omega
  | succ fuel ih =>
    unfold direntLoop recordAt
    rcases hslot : slot pos with _ | _ | ⟨ino, type, name⟩
    · refine ⟨[], rfl, by simp, by simpa [recordsLen] using hcount, ?_⟩
      intro r hr
      simp [hslot] at hr
    · exact absurd hslot (hskip pos)
    · have hpos := direntLen_pos name
      have hlen := hshort pos ino type name hslot
      dsimp only
      by_cases hfits : count < written + direntLen name
      · rw [if_pos hfits]
        refine ⟨[], rfl, by simp, by simpa [recordsLen] using hcount, ?_⟩
        intro r hr
        simp only [length_nil, Nat.add_zero, hslot, Option.some.injEq] at hr
        rw [← hr]
        simpa [recordsLen] using hfits
      obtain ⟨rs, hloop, hrs, hsum, hstop⟩ := ih (pos + 1) (written + direntLen name) (by omega) (by omega)
      rw [if_neg hfits, if_neg (by omega), if_neg (by omega), hloop]
      refine ⟨⟨ino, pos + 1, type, name⟩ :: rs, ?_, ?_, ?_, ?_⟩
      · rw [length_cons, Nat.add_right_comm, Nat.add_assoc]
      · intro k hk
        cases k with
        | zero => simp [hslot]
        | succ k =>
          rw [getElem?_cons_succ, hrs k (Nat.lt_of_succ_lt_succ hk)]
          unfold recordAt
          rw [Nat.add_right_comm, Nat.add_assoc]
      · rw [recordsLen_cons]
        dsimp only
        omega
      · intro r hr
        have hr' : recordAt slot (pos + 1 + rs.length) = some r := by
          unfold recordAt
          rw [length_cons] at hr
          have hshift : pos + 1 + rs.length = pos + (rs.length + 1) := by omega
          rw [hshift]
          exact hr
        have hlt := hstop r hr'
        rw [recordsLen_cons]
        dsimp only
        omega

theorem length_leBytes (n k : ℕ) : (leBytes n k).length = n := by
  unfold leBytes
  rw [length_map, length_range]

theorem length_bytes (r : LinuxDirent64) : r.bytes.length = direntLen r.name := by
  unfold LinuxDirent64.bytes
  simp only [length_append, length_leBytes, length_replicate]
  unfold direntLen
  omega

theorem length_flatMap_bytes (rs : List LinuxDirent64) : (rs.flatMap LinuxDirent64.bytes).length = recordsLen rs := by
  unfold recordsLen
  rw [length_flatMap]
  simp only [length_bytes]

end Loop

/-! ## Runs of calls -/

namespace DirImage

variable {im : DirImage} {e : DirFd}

/-- The record at a position is that of the entry, if it is seen and plain. -/
theorem OpenAs.recordAt_eq (h : im.OpenAs e) {pos : ℕ} (hpos : pos < 2 ^ 32) :
    (∀ r, recordAt (e.slot im.fs) pos = some r → ∃ de, im.seen[pos]? = some de ∧ im.entries[pos]? = some de ∧
        r.ino = de.inode.toNat ∧ r.name = de.name) ∧
      ∀ de, im.seen[pos]? = some de → im.Plain de → ∃ r, recordAt (e.slot im.fs) pos = some r := by
  have hread := im.readdir_eq h.ino pos
  have hmod : pos % 2 ^ 32 = pos := Nat.mod_eq_of_lt hpos
  unfold recordAt DirFd.slot
  rw [hmod, hread]
  rcases hseen : im.seen[pos]? with _ | de
  · exact ⟨by simp, by simp⟩
  obtain ⟨hlt, heq⟩ := List.getElem?_eq_some_iff.mp hseen
  obtain ⟨rest, hrest⟩ := im.seen_prefix
  have hentry : im.entries[pos]? = some de := by
    rw [← hrest, getElem?_append_left hlt, hseen]
  have hname := im.cName_eq (mem_of_getElem? hentry)
  dsimp only [Option.bind_some]
  rcases im.fill_eq e.inode de with ⟨hplain, x, hfill, hino⟩ | ⟨hplain, hfill⟩
  · rw [hfill]
    refine ⟨fun r hr => ⟨de, rfl, hentry, ?_⟩, fun _ _ _ => ⟨_, rfl⟩⟩
    obtain rfl := Option.some.inj hr
    exact ⟨hino, hname.1⟩
  rw [hfill]
  refine ⟨by simp, fun de' hde hplain' => ?_⟩
  rw [← Option.some.inj hde] at hplain'
  exact absurd hplain' hplain

/-- The slots of the directory have no gaps, and their names are short. -/
theorem OpenAs.slots (h : im.OpenAs e) : (∀ pos, e.slot im.fs pos ≠ .skipped) ∧
    ∀ pos ino type name, e.slot im.fs pos = .entry ino type name → direntLen name ≤ 320 := by
  constructor
  · intro pos
    unfold DirFd.slot
    split <;> simp
  · intro pos ino type name hslot
    have hr : recordAt (e.slot im.fs) (pos % 2 ^ 32) = some ⟨ino, pos % 2 ^ 32 + 1, type, name⟩ := by
      have hsame : e.slot im.fs (pos % 2 ^ 32) = e.slot im.fs pos := by
        unfold DirFd.slot
        rw [Nat.mod_mod]
      unfold recordAt
      rw [hsame, hslot]
    obtain ⟨de, -, hentry, -, hname⟩ := (h.recordAt_eq (Nat.mod_lt _ (by decide))).1 _ hr
    have hname : name = de.name := hname
    have hlen := (im.cName_eq (mem_of_getElem? hentry)).2
    unfold direntLen
    rw [hname]
    unfold vfsNameMax at hlen
    omega

/-- The records returned so far are those of the first entries. -/
structure Progress (im : DirImage) (l : Listing) : Prop where
  opened : im.OpenAs l.fd
  pos : l.fd.pos = l.returned.length
  listed : EdgeOS.listed l.returned = im.listing.take l.returned.length
  bound : l.returned.length ≤ im.seen.length

/-- A call on the directory itself: it fails and changes nothing, or returns the records from the
position on. -/
theorem getdents_eq (env : DevEnv) (c : GetdentsCall) (h : im.OpenAs e) (hpts : e.path ≠ ascii "/dev/pts")
    (hdev : env.isDevDir e = false) (hwritable : c.count ≤ c.writable) :
    (c.count < 19 + 2 ∧ doSysGetdents64 env e c = (e, .error .einval)) ∨
      19 + 2 ≤ c.count ∧ ∃ rs, doSysGetdents64 env e c = ({ e with pos := e.pos + rs.length }, .ok rs) ∧
        (∀ k < rs.length, rs[k]? = recordAt (e.slot im.fs) (e.pos + k)) ∧ recordsLen rs ≤ c.count ∧
        ∀ r, recordAt (e.slot im.fs) (e.pos + rs.length) = some r → c.count < recordsLen rs + direntLen r.name := by
  unfold doSysGetdents64
  rw [if_neg (not_not_intro h.dir)]
  by_cases hcount : c.count < 19 + 2
  · rw [if_pos hcount]
    exact .inl ⟨hcount, rfl⟩
  rw [if_neg hcount, if_neg hpts, hdev, if_neg (by simp), h.fs]
  dsimp only
  obtain ⟨rs, hloop, hrs, hsum, hstop⟩ := direntLoop_spec h.slots.1 h.slots.2 hwritable c.count e.pos 0
    (by omega) (Nat.zero_le _)
  rw [hloop]
  rw [Nat.zero_add] at hsum hstop
  exact .inr ⟨Nat.le_of_not_lt hcount, rs, rfl, hrs, hsum, hstop⟩

namespace Progress

variable {l : Listing} {rs : List LinuxDirent64}

/-- The records of a call are those of entries that the driver sees. -/
theorem within (h : im.Progress l) (hrs : ∀ k < rs.length, rs[k]? = recordAt (l.fd.slot im.fs) (l.fd.pos + k)) :
    ∀ k ≤ rs.length, l.fd.pos + k ≤ im.seen.length := by
  intro k hk
  have hseen := im.length_seen
  induction k with
  | zero =>
    rw [h.pos]
    exact h.bound
  | succ k ih =>
    have hbound := ih (Nat.le_of_succ_le hk)
    have hr : recordAt (l.fd.slot im.fs) (l.fd.pos + k) = some rs[k] := by
      rw [← hrs k hk, getElem?_eq_getElem hk]
    obtain ⟨de, hde, -⟩ := (h.opened.recordAt_eq (lt_of_le_of_lt hbound hseen)).1 _ hr
    obtain ⟨hlt, -⟩ := List.getElem?_eq_some_iff.mp hde
    omega

theorem continues (h : im.Progress l) (hrs : ∀ k < rs.length, rs[k]? = recordAt (l.fd.slot im.fs) (l.fd.pos + k)) :
    EdgeOS.listed (l.returned ++ rs) = im.listing.take (l.returned ++ rs).length := by
  have hseen := im.length_seen
  have hwithin := h.within hrs
  have htail : EdgeOS.listed rs = (im.listing.drop l.returned.length).take rs.length := by
    apply ext_getElem?
    intro k
    unfold EdgeOS.listed DirImage.listing
    rw [getElem?_map, getElem?_take, getElem?_drop, getElem?_map, ← h.pos]
    split
    · rename_i hk
      have hr : recordAt (l.fd.slot im.fs) (l.fd.pos + k) = some rs[k] := by
        rw [← hrs k hk, getElem?_eq_getElem hk]
      have hbound := hwithin k hk.le
      obtain ⟨de, -, hentry, hino, hname⟩ := (h.opened.recordAt_eq (lt_of_le_of_lt hbound hseen)).1 _ hr
      rw [hentry, getElem?_eq_getElem hk, Option.map_some, Option.map_some, hino, hname]
    · rename_i hk
      rw [getElem?_eq_none (Nat.le_of_not_lt hk)]
      rfl
  have happend : EdgeOS.listed (l.returned ++ rs) = EdgeOS.listed l.returned ++ EdgeOS.listed rs := map_append
  rw [happend, h.listed, htail, length_append, take_add]

/-- A call that meets the condition lists what it should, and the listing goes on. -/
theorem step (h : im.Progress l) {env : DevEnv} {c : GetdentsCall} (hfits : im.Fits env l c) :
    im.Progress (l.step env c) ∧ im.Lists env l c := by
  rcases getdents_eq env c h.opened hfits.notPts hfits.notDev hfits.writable with
    ⟨hcount, hcall⟩ | ⟨hcount, rs, hcall, hrs, hsum, hstop⟩
  · constructor
    · unfold Listing.step
      rw [hcall]
      change im.Progress ⟨l.fd, l.returned ++ []⟩
      rw [append_nil]
      exact h
    · refine ⟨?_, ?_, ?_, ?_⟩ <;> rw [hcall]
      · rintro rs ⟨⟩
      · rintro rs ⟨⟩
      · rintro ⟨⟩
      · intro _ _ _
        exact ⟨_, rfl⟩
  · have hwithin := h.within hrs
    have hnext := h.continues hrs
    have hseen := im.length_seen
    constructor
    · unfold Listing.step
      rw [hcall]
      refine ⟨⟨h.opened.ino, h.opened.dir, h.opened.fs⟩, ?_, hnext, ?_⟩
      · change l.fd.pos + rs.length = (l.returned ++ rs).length
        rw [length_append, h.pos]
      · change (l.returned ++ rs).length ≤ _
        rw [length_append, ← h.pos]
        exact hwithin rs.length le_rfl
    · refine ⟨?_, ?_, ?_, ?_⟩ <;> rw [hcall]
      · intro rs' hok
        obtain rfl := Except.ok.inj hok
        exact hnext
      · intro rs' hok
        obtain rfl := Except.ok.inj hok
        rw [length_flatMap_bytes]
        exact ⟨hsum, fun r _ => length_bytes r⟩
      · intro hok
        obtain rfl := Except.ok.inj hok
        rw [h.listed]
        apply take_of_length_le
        unfold DirImage.listing
        rw [length_map]
        by_contra hlt
        obtain ⟨de, hde⟩ : ∃ de, im.entries[l.returned.length]? = some de :=
          ⟨_, getElem?_eq_getElem (Nat.lt_of_not_le hlt)⟩
        obtain ⟨hsees, hplain, hroom⟩ := hfits.entry de hde
        rw [← h.pos] at hsees hde
        have hbound : l.fd.pos < 2 ^ 32 := by
          have hle := hwithin 0 (Nat.zero_le _)
          omega
        obtain ⟨r, hr⟩ := (h.opened.recordAt_eq hbound).2 de hsees hplain
        obtain ⟨de', -, hde', -, hname⟩ := (h.opened.recordAt_eq hbound).1 r hr
        rw [hde] at hde'
        have hlong := hstop r hr
        rw [hname, ← Option.some.inj hde'] at hlong
        have hnil : recordsLen [] = 0 := rfl
        omega
      · intro de hde hsmall
        obtain ⟨-, -, hroom⟩ := hfits.entry de hde
        omega

end Progress

end DirImage

/-! ## Removing a directory -/

end EdgeOS
