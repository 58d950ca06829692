import EdgeOS.FailedOpens
import EdgeOS.MountTable

namespace EdgeOS

/-!
What a mount leaves behind when it fails: `ext4_mount_common`, `ext2_mount_common`, `procfs_mount`
and the two calls of `src/sys/syscall.c` that lead there. `openat` mounts `/proc` in the same way.
-/

/-! ## The drivers -/

/-- `ext4_fs_t` and `ext2_fs_t` as a mount fills them: the number of the device, the bytes of
`ext4_super_t` and of `ext4_bgdesc_t`. -/
structure ExtSlot where
  bdev : ℕ
  sb : Bytes := []
  bg : Bytes := []
  blockSize : UInt32 := 0
  deriving DecidableEq, Repr

/-- The file system that `ext4.c` reads through a slot. -/
def ExtSlot.ext4 (slot : ExtSlot) (b : BlockDevice) : Ext4Fs where
  bdev := b
  inodesCount := rd32le slot.sb 0
  firstDataBlock := rd32le slot.sb 20
  inodesPerGroup := rd32le slot.sb 40
  inodeSize := rd16le slot.sb 88
  blockSize := slot.blockSize

/-- The file system that `ext2.c` reads through a slot. -/
def ExtSlot.ext2 (slot : ExtSlot) (b : BlockDevice) : Ext2Fs where
  bdev := b
  inodesCount := rd32le slot.sb 0
  inodeSize := rd16le slot.sb 88
  inodeTable := rd32le slot.bg 8
  blockSize := slot.blockSize

/-- `fs_private` of a superblock. -/
inductive FsPrivate
  | ext4 (slot : ExtSlot)
  | ext2 (slot : ExtSlot)
  | proc
  deriving DecidableEq, Repr

/-- What `ext4_mount_common` and `ext2_mount_common` do in their own ways. -/
structure ExtDriver where
  features : Bytes → Bool
  readInode : ExtSlot → BlockDevice → UInt32 → Option ExtInode
  lookup : ExtSlot → BlockDevice → VfsNode → Bytes → Option VfsNode
  fsPrivate : ExtSlot → FsPrivate

def ext4FeatureSetSupported (sb : Bytes) : Bool :=
  rd32le sb 96 &&& ~~~(0x2 ||| 0x40 ||| 0x200) = 0 ∧ rd32le sb 100 &&& ~~~(0x1 ||| 0x2 ||| 0x4 ||| 0x20) = 0

def ext4Driver : ExtDriver where
  features := ext4FeatureSetSupported
  readInode slot b := (slot.ext4 b).readInode
  lookup slot b := (slot.ext4 b).lookup
  fsPrivate := .ext4

/-- With `ext4_mode` 0, as `ext2_mount_block` passes it, the features are not looked at. -/
def ext2Driver : ExtDriver where
  features _ := true
  readInode slot b := (slot.ext2 b).readInode
  lookup slot b := (slot.ext2 b).lookup
  fsPrivate := .ext2

/-- The check for `/sbin/init` when the target is `/`. -/
def ExtDriver.hasInit (drv : ExtDriver) (slot : ExtSlot) (b : BlockDevice) (root : VfsNode) : Bool :=
  match drv.lookup slot b root (ascii "sbin") with
  | none => false
  | some sbin =>
    if ¬ sbin.IsDir then false
    else
      match drv.lookup slot b sbin (ascii "init") with
      | none => false
      | some init => init.type = vfsInodeFile

/-- What is read of the device before it is mounted: the slot as far as it is filled, and the root
directory if nothing is wrong. The shift takes the low five bits of its count. -/
def ExtDriver.load (drv : ExtDriver) (b : BlockDevice) (dev : ℕ) (target : String) : ExtSlot × Option VfsNode :=
  let slot : ExtSlot := { bdev := dev }
  match if b.sectorSize = 0 then none else b.readSectors 2 2 with
  | none => (slot, none)
  | some io =>
    let slot := { slot with sb := io.take 104 }
    if rd16le slot.sb 56 ≠ 0xEF53 then (slot, none)
    else if !drv.features slot.sb then (slot, none)
    else
      let slot := { slot with blockSize := 1024 <<< rd32le slot.sb 24 }
      if slot.blockSize = 0 ∨ 4096 < slot.blockSize then (slot, none)
      else
        match b.readBlock slot.blockSize (rd32le slot.sb 20 + 1) with
        | none => (slot, none)
        | some io =>
          let slot := { slot with bg := io.take 32 }
          match drv.readInode slot b 2 with
          | none => (slot, none)
          | some inode =>
            let root : VfsNode :=
              { ino := 2, mode := vfsModeFromExt inode.mode, size := inode.sizeLo.toNat
                uid := inode.uid.toNat, gid := inode.gid.toNat }
            if ¬ root.IsDir then (slot, none)
            else if target = "/" ∧ !drv.hasInit slot b root then (slot, none)
            else (slot, some root)

/-! ## What is mounted -/

/-- `vfs_superblock_t`. -/
structure MountedFs where
  mountpoint : String
  root : VfsNode
  fsPrivate : FsPrivate
  deriving DecidableEq, Repr

/-- `files` is the directory tree with the devices below it. -/
structure MountState (σ : Type) where
  files : σ
  mounts : List MountedFs := []
  ext4Mounts : List ExtSlot := []
  ext2Mounts : List ExtSlot := []

/-- The table of mounts, the slots of the drivers and the directory tree are as they were. -/
structure MountState.Kept {σ : Type} (s s' : MountState σ) : Prop where
  files : s'.files = s.files
  mounts : s'.mounts = s.mounts
  ext4Count : s'.ext4Mounts.length = s.ext4Mounts.length
  ext2Count : s'.ext2Mounts.length = s.ext2Mounts.length

/-- The size of `g_ext4_mounts` and of `g_ext2_mounts`. -/
def extMaxMounts : ℕ := 8

/-- What the calls that mount find below them. `base` has the lookups. -/
structure MountDrivers (σ : Type) where
  base : Vfs (MountState σ)
  /-- `vfs_inode_get_block_device`: the number of the device. -/
  blockDevice : MountState σ → VfsInode → Option ℕ
  /-- What can be read from a device. -/
  device : σ → ℕ → BlockDevice
  /-- `vfs_mkdir`, whose result no caller here looks at. -/
  mkdir : MountState σ → String → σ
  writeFile : MountState σ → String → List UInt8 → σ × ℤ

namespace MountState

variable {σ : Type} (s : MountState σ)

def addSuperblock (sb : MountedFs) : MountState σ × Bool :=
  if vfsMaxMounts ≤ s.mounts.length then (s, false) else ({ s with mounts := s.mounts ++ [sb] }, true)

def procfsMount (target : String) : MountState σ × Bool :=
  s.addSuperblock ⟨target, procRootInode, .proc⟩

end MountState

namespace MountDrivers

variable {σ : Type} (d : MountDrivers σ) (s : MountState σ)

/-- `ext4_mount_common`, `ext2_mount_common` for the slots of the driver: a slot is taken before the
device is looked at. -/
def mountCommon (drv : ExtDriver) (slots : List ExtSlot) (withSlots : List ExtSlot → MountState σ) (dev : ℕ)
    (target : String) : MountState σ × Bool :=
  if extMaxMounts ≤ slots.length then (s, false)
  else
    match drv.load (d.device s.files dev) dev target with
    | (slot, none) => (withSlots (slots ++ [slot]), false)
    | (slot, some root) => (withSlots (slots ++ [slot])).addSuperblock ⟨target, root, drv.fsPrivate slot⟩

def ext4MountBlock (dev : ℕ) (target : String) : MountState σ × Bool :=
  d.mountCommon s ext4Driver s.ext4Mounts (fun slots => { s with ext4Mounts := slots }) dev target

def ext2MountBlock (dev : ℕ) (target : String) : MountState σ × Bool :=
  d.mountCommon s ext2Driver s.ext2Mounts (fun slots => { s with ext2Mounts := slots }) dev target

def vfsMountBlockdev (dev : ℕ) (target fsname : String) : MountState σ × Bool :=
  if fsname = "ext4" then d.ext4MountBlock s dev target
  else if fsname = "ext2" then d.ext2MountBlock s dev target
  else (s, false)

def mountResult (out : MountState σ × Bool) : MountState σ × FdResult :=
  (out.1, if out.2 then .ok 0 else .error .einval)

/-- `vfs_mkdir` for a mount. -/
def withTarget (target : String) : MountState σ := { s with files := d.mkdir s target }

/-- `/proc` is made and mounted by `do_sys_openat` when it misses something there. -/
def mountProc : MountState σ := ((d.withTarget s "/proc").procfsMount "/proc").1

/-- The file system as `do_sys_openat` finds it. -/
def vfs : Vfs (MountState σ) :=
  { d.base with
    mountProc := d.mountProc
    writeFile := fun s path buf => ({ s with files := (d.writeFile s path buf).1 }, (d.writeFile s path buf).2) }

end MountDrivers

/-! ## The calls -/

inductive UserStr
  | null
  | unreadable
  | text (s : String)
  deriving DecidableEq, Repr

def UserStr.getD : UserStr → String → Option String
  | .null, dflt => some dflt
  | .unreadable, _ => none
  | .text s, _ => some s

/-- What a call tells the drivers to do, once it has looked at its arguments. -/
inductive MountOrder
  | proc (target : String)
  | device (dev : ℕ) (target fsname : String)

inductive MountSyscall
  | mount (src target fs : UserStr)
  | linuxMount (src target fstype : UserStr)

namespace MountDrivers

variable {σ : Type} (d : MountDrivers σ) (s : MountState σ)

/-- `do_sys_mount` up to its `vfs_mkdir`. -/
def mountOrder (src target fs : UserStr) : Except Errno MountOrder :=
  if src = .null ∨ target = .null then .error .einval
  else
    match src, target, fs.getD "ext4" with
    | .text src, .text target, some fsname =>
      match d.base.resolve s src with
      | none => .error .einval
      | some (x, _) =>
        match d.blockDevice s x with
        | none => .error .einval
        | some dev => .ok (.device dev target fsname)
    | _, _, _ => .error .efault

/-- `do_sys_linux_mount` up to its `vfs_mkdir`. -/
def linuxMountOrder (src target fstype : UserStr) : Except Errno MountOrder :=
  match src.getD "", target, fstype.getD "" with
  | none, _, _ => .error .efault
  | some _, .null, _ => .error .einval
  | some src, .text target, some fsname =>
    if fstype ≠ .null ∧ fsname = "proc" ∨ fstype = .null ∧ src = "proc" then .ok (.proc target)
    else if src = "" then .error .einval
    else
      match d.base.resolve s src with
      | none => .error .enoent
      | some (x, _) =>
        match d.blockDevice s x with
        | none => .error .einval
        | some dev => .ok (.device dev target (if fsname = "" then "ext4" else fsname))
  | some _, _, _ => .error .efault

def perform : MountOrder → MountState σ × FdResult
  | .proc target => mountResult ((d.withTarget s target).procfsMount target)
  | .device dev target fsname => mountResult (d.vfsMountBlockdev (d.withTarget s target) dev target fsname)

def order : MountSyscall → Except Errno MountOrder
  | .mount src target fs => d.mountOrder s src target fs
  | .linuxMount src target fstype => d.linuxMountOrder s src target fstype

/-- `do_sys_mount`, `do_sys_linux_mount`. -/
def doSysMount (call : MountSyscall) : MountState σ × FdResult :=
  match d.order s call with
  | .error err => (s, .error err)
  | .ok o => d.perform s o

/-! ## What the calls are for -/

def MountFree (call : MountSyscall) : Prop :=
  let out := d.doSysMount s call
  ∀ err, out.2 = .error err → s.Kept out.1

def TargetKept (target : String) : Prop := d.mkdir s target = s.files

/-- There is room for the mount and the driver accepts the device, or the driver has no slot left and
the target is kept. -/
def DriverExact (drv : ExtDriver) (slots : List ExtSlot) (dev : ℕ) (target : String) : Prop :=
  slots.length < extMaxMounts ∧ s.mounts.length < vfsMaxMounts ∧
      (drv.load (d.device (d.mkdir s target) dev) dev target).2 ≠ none ∨
    extMaxMounts ≤ slots.length ∧ d.TargetKept s target

def OrderExact : MountOrder → Prop
  | .proc target => s.mounts.length < vfsMaxMounts ∨ d.TargetKept s target
  | .device dev target fsname =>
    if fsname = "ext4" then d.DriverExact s ext4Driver s.ext4Mounts dev target
    else if fsname = "ext2" then d.DriverExact s ext2Driver s.ext2Mounts dev target
    else d.TargetKept s target

/-- A call that gets as far as the drivers succeeds, or takes no slot and makes no directory. -/
def MountExact (call : MountSyscall) : Prop := ∀ o, d.order s call = .ok o → d.OrderExact s o

/-- What `openat` makes for a path it does not find: a directory and a mount for `/proc`, and a file for
`O_CREAT`. None of these is to change anything. -/
def OpenMakesNothing (flags : BitVec 32) (name : String) : Prop :=
  let underProc : Prop := name = "/proc" ∨ name.startsWith "/proc/"
  let files := if underProc then d.mkdir s "/proc" else s.files
  let s' := if underProc then d.mountProc s else s
  (underProc → vfsMaxMounts ≤ s.mounts.length) ∧
    if (d.base.resolve s' name).isNone ∧ hasFlag flags linuxOCreat then (d.writeFile s' name []).1 = s.files
    else files = s.files

/-- The open is granted: there is room for a descriptor, and the terminal is ready or the file may be opened.
Or the open makes no table and opens no standard descriptor, it has no room if it is one of `/dev/tty`, and a
path that is looked up is found at once or nothing is made for it. -/
def OpenSafe (fd : FdState) (cur : Caller) (flags : BitVec 32) (path : Except Errno String) : Prop :=
  (∃ p name, (fdProcWithStdio fd cur.pid).2 = some p ∧ path = .ok name ∧
      OpenGranted d.vfs (seenBy fd cur.pid) s cur flags p name) ∨
    fd.Settled cur.pid ∧ ∀ p name, findProc fd cur.pid = some p → path = .ok name →
      (name = "/dev/tty" → ¬ fd.HasRoom p) ∧
        (specialPath name = false → d.base.resolve s name ≠ none ∨ d.OpenMakesNothing s flags name)

end MountDrivers

/-! ## Mounts -/

section Mounts

variable {σ : Type} (d : MountDrivers σ) (s : MountState σ)

/-- With room in the table the superblock is added, and without it nothing changes. -/
theorem addSuperblock_cases (sb : MountedFs) : (vfsMaxMounts ≤ s.mounts.length ∧ s.addSuperblock sb = (s, false)) ∨
      s.mounts.length < vfsMaxMounts ∧ s.addSuperblock sb = ({ s with mounts := s.mounts ++ [sb] }, true) := by
  unfold MountState.addSuperblock
  split
  · rename_i h
    exact .inl ⟨h, rfl⟩
  · rename_i h
    exact .inr ⟨Nat.lt_of_not_le h, rfl⟩

/-- How a driver ends: without a slot nothing changes, else a slot is gone, whatever happens then. -/
theorem mountCommon_cases (drv : ExtDriver) (slots : List ExtSlot) {withSlots : List ExtSlot → MountState σ}
    (hmounts : ∀ l, (withSlots l).mounts = s.mounts) (dev : ℕ) (target : String) :
    (extMaxMounts ≤ slots.length ∧ d.mountCommon s drv slots withSlots dev target = (s, false)) ∨
      slots.length < extMaxMounts ∧
        ((s.mounts.length < vfsMaxMounts ∧ (drv.load (d.device s.files dev) dev target).2 ≠ none ∧
            (d.mountCommon s drv slots withSlots dev target).2 = true) ∨
          ¬ (s.mounts.length < vfsMaxMounts ∧ (drv.load (d.device s.files dev) dev target).2 ≠ none) ∧
            ∃ slot, d.mountCommon s drv slots withSlots dev target = (withSlots (slots ++ [slot]), false)) := by
  unfold MountDrivers.mountCommon
  split
  · rename_i h
    exact .inl ⟨h, rfl⟩
  rename_i h
  refine .inr ⟨Nat.lt_of_not_le h, ?_⟩
  rcases hload : drv.load (d.device s.files dev) dev target with ⟨slot, _ | root⟩
  · exact .inr ⟨by simp, slot, rfl⟩
  dsimp only
  rcases addSuperblock_cases (withSlots (slots ++ [slot])) ⟨target, root, drv.fsPrivate slot⟩ with
    ⟨hfull, hadd⟩ | ⟨hroom, hadd⟩
  · rw [hmounts] at hfull
    rw [hadd]
    exact .inr ⟨fun hboth => absurd hboth.1 (Nat.not_lt_of_le hfull), slot, rfl⟩
  rw [hmounts] at hroom
  rw [hadd]
  exact .inl ⟨hroom, by simp, rfl⟩

theorem withTarget_kept (target : String) : s.Kept (d.withTarget s target) ↔ d.TargetKept s target :=
  ⟨fun h => h.files, fun h => ⟨h, rfl, rfl, rfl⟩⟩

/-- One of the two drivers, after the `vfs_mkdir` of the target. -/
theorem driver_free (drv : ExtDriver) (slots : List ExtSlot) {withSlots : List ExtSlot → MountState σ} (dev : ℕ)
    (target : String) (hmounts : ∀ l, (withSlots l).mounts = s.mounts)
    (hslot : ∀ slot, ¬ s.Kept (withSlots (slots ++ [slot]))) :
    (∀ err, (MountDrivers.mountResult (d.mountCommon (d.withTarget s target) drv slots withSlots dev target)).2 =
          .error err →
        s.Kept (MountDrivers.mountResult (d.mountCommon (d.withTarget s target) drv slots withSlots dev target)).1) ↔
      d.DriverExact s drv slots dev target := by
  have hkept := withTarget_kept d s target
  unfold MountDrivers.DriverExact
  rcases mountCommon_cases d (d.withTarget s target) drv slots hmounts dev target with
    ⟨hfull, hout⟩ | ⟨hroom, ⟨htable, hload, hout⟩ | ⟨hfails, slot, hout⟩⟩
  · rw [hout]
    unfold MountDrivers.mountResult
    refine ⟨fun h => .inr ⟨hfull, hkept.mp (h .einval rfl)⟩, ?_⟩
    rintro (⟨hroom, -⟩ | ⟨-, htarget⟩) err -
    · exact absurd hroom (Nat.not_lt_of_le hfull)
    · exact hkept.mpr htarget
  · refine iff_of_true (fun err herr => ?_) (.inl ⟨hroom, htable, hload⟩)
    unfold MountDrivers.mountResult at herr
    rw [hout] at herr
    cases herr
  · rw [hout]
    unfold MountDrivers.mountResult
    refine iff_of_false (fun h => hslot slot (h .einval rfl)) ?_
    rintro (⟨-, hboth⟩ | ⟨hfull, -⟩)
    · exact hfails hboth
    · exact absurd hroom (Nat.not_lt_of_le hfull)

theorem mount_free_iff (call : MountSyscall) : d.MountFree s call ↔ d.MountExact s call := by
  unfold MountDrivers.MountFree MountDrivers.MountExact MountDrivers.doSysMount
  rcases horder : d.order s call with err | o
  · refine iff_of_true (fun _ _ => ⟨rfl, rfl, rfl, rfl⟩) ?_
    intro o h
    cases h
  have hone : (∀ o', Except.ok o = (.ok o' : Except Errno MountOrder) → d.OrderExact s o') ↔ d.OrderExact s o :=
    ⟨fun h => h o rfl, fun h o' ho => Except.ok.inj ho ▸ h⟩
  rw [hone]
  dsimp only
  cases o with
  | proc target =>
    unfold MountDrivers.perform MountDrivers.OrderExact MountState.procfsMount
    dsimp only
    rcases addSuperblock_cases (d.withTarget s target) ⟨target, procRootInode, .proc⟩ with
      ⟨hfull, hadd⟩ | ⟨hroom, hadd⟩
    · rw [hadd]
      unfold MountDrivers.mountResult
      refine ⟨fun h => .inr ((withTarget_kept d s target).mp (h .einval rfl)), ?_⟩
      rintro (hroom | htarget) err -
      · exact absurd hroom (Nat.not_lt_of_le hfull)
      · exact (withTarget_kept d s target).mpr htarget
    · rw [hadd]
      refine iff_of_true (fun err herr => ?_) (.inl hroom)
      cases herr
  | device dev target fsname =>
    unfold MountDrivers.perform MountDrivers.OrderExact MountDrivers.vfsMountBlockdev
    dsimp only
    split
    · refine driver_free d s ext4Driver s.ext4Mounts dev target (fun _ => rfl) fun slot hkept => ?_
      have hlength := hkept.ext4Count
      simp at hlength
    split
    · refine driver_free d s ext2Driver s.ext2Mounts dev target (fun _ => rfl) fun slot hkept => ?_
      have hlength := hkept.ext2Count
      simp at hlength
    · unfold MountDrivers.mountResult
      exact ⟨fun h => (withTarget_kept d s target).mp (h .einval rfl), fun h _ _ => (withTarget_kept d s target).mpr h⟩

/-! ## Opens -/

/-- The state that is left for `/proc` when it is missing. -/
theorem mountProc_files : (d.mountProc s).files = d.mkdir s "/proc" ∧
    ∀ files, { d.mountProc s with files := files } = s ↔ vfsMaxMounts ≤ s.mounts.length ∧ files = s.files := by
  unfold MountDrivers.mountProc MountState.procfsMount
  rcases addSuperblock_cases (d.withTarget s "/proc") ⟨"/proc", procRootInode, .proc⟩ with ⟨hfull, hadd⟩ | ⟨hroom, hadd⟩
  · rw [hadd]
    refine ⟨rfl, fun files => ⟨fun h => ⟨hfull, ?_⟩, ?_⟩⟩
    · rw [← h]
    · rintro ⟨-, rfl⟩
      rfl
  · rw [hadd]
    refine ⟨rfl, fun files => ⟨fun h => ?_, fun h => absurd hroom (Nat.not_lt_of_le h.1)⟩⟩
    have hmounts := congrArg (fun t => t.mounts.length) h
    simp [MountDrivers.withTarget] at hmounts

/-- What the lookup of `openat` leaves, from the state with `/proc` on. -/
theorem openResolve_state {s s' : MountState σ} {flags : BitVec 32} {name : String}
    (h : s' = if (d.base.resolve s name).isNone ∧ (name = "/proc" ∨ name.startsWith "/proc/") then d.mountProc s else s) :
    (openResolve d.vfs s flags name).1 = { s' with files :=
          if (d.base.resolve s' name).isNone ∧ hasFlag flags linuxOCreat then (d.writeFile s' name []).1 else s'.files } := by
  have hs' : (if (d.vfs.resolve s name).isNone ∧ (name = "/proc" ∨ name.startsWith "/proc/") then
      d.vfs.mountProc s else s) = s' := h.symm
  have hresolve : d.vfs.resolve s' name = d.base.resolve s' name := rfl
  unfold openResolve
  rw [hs']
  dsimp only
  rw [hresolve]
  rcases hfound : d.base.resolve s' name with _ | r
  · dsimp only
    by_cases hcreat : hasFlag flags linuxOCreat = true
    · have hmake : (!hasFlag flags linuxOCreat) ≠ true := by simp [hcreat]
      have hboth : (none : Option (VfsInode × Option ℕ)).isNone = true ∧ hasFlag flags linuxOCreat = true :=
        ⟨rfl, hcreat⟩
      rw [if_neg hmake, if_pos hboth]
      split <;> rfl
    · have hno : (!hasFlag flags linuxOCreat) = true := by simpa using hcreat
      rw [if_pos hno, if_neg fun h => hcreat h.2]
  · dsimp only
    rw [if_neg fun h => Bool.noConfusion h.1]

theorem openResolve_kept (flags : BitVec 32) (name : String) :
    (openResolve d.vfs s flags name).1 = s ↔ d.base.resolve s name ≠ none ∨ d.OpenMakesNothing s flags name := by
  rcases hfound : d.base.resolve s name with _ | r
  · refine Iff.trans ?_ (or_iff_right fun h => h rfl).symm
    unfold MountDrivers.OpenMakesNothing
    dsimp only
    by_cases hproc : name = "/proc" ∨ name.startsWith "/proc/" = true
    · obtain ⟨hfiles, heq⟩ := mountProc_files d s
      have hs' : d.mountProc s = if (d.base.resolve s name).isNone = true ∧ (name = "/proc" ∨ name.startsWith "/proc/" = true)
          then d.mountProc s else s := by
        rw [if_pos ⟨by rw [hfound]; rfl, hproc⟩]
      rw [openResolve_state d hs', heq, if_pos hproc, if_pos hproc, hfiles]
      refine and_congr ⟨fun h _ => h, fun h => h hproc⟩ ?_
      split <;> rfl
    have hs' : s = if (d.base.resolve s name).isNone = true ∧ (name = "/proc" ∨ name.startsWith "/proc/" = true)
        then d.mountProc s else s := by
      rw [if_neg fun h => hproc h.2]
    have heq : ∀ files, { s with files := files } = s ↔ files = s.files := by
      refine fun files => ⟨fun h => ?_, fun h => ?_⟩
      · rw [← h]
      · rw [h]
    rw [openResolve_state d hs', heq, if_neg hproc, if_neg hproc]
    refine Iff.trans ?_ (and_iff_right fun h => absurd h hproc).symm
    split <;> rfl
  · have hs' : s = if (d.base.resolve s name).isNone = true ∧ (name = "/proc" ∨ name.startsWith "/proc/" = true)
        then d.mountProc s else s := by
      rw [if_neg fun h => by rw [hfound] at h; exact Bool.noConfusion h.1]
    rw [openResolve_state d hs']
    simp [hfound]

theorem open_safe_iff (fd : FdState) (con : FbConsole) (cur : Caller) (flags : BitVec 32)
    (path : Except Errno String) : OpenFree d.vfs fd s con cur flags path ↔ d.OpenSafe s fd cur flags path := by
  rw [open_free_iff]
  unfold OpenExact MountDrivers.OpenSafe
  simp only [openResolve_kept]

end Mounts

/-- An `openat` or a mount that fails leaves everything as it was before the call just when it has made no
table, no descriptor, no directory, no mount and no file before it finds out, and has taken no file reference
and no slot of a driver. -/
theorem failed_calls_free {σ : Type} (d : MountDrivers σ) :
    (∀ (s : MountState σ) (fd : FdState) (con : FbConsole) (cur : Caller) (flags : BitVec 32)
        (path : Except Errno String), OpenFree d.vfs fd s con cur flags path ↔ d.OpenSafe s fd cur flags path) ∧
      ∀ (s : MountState σ) (call : MountSyscall), d.MountFree s call ↔ d.MountExact s call :=
  ⟨fun s fd con cur flags path => open_safe_iff d s fd con cur flags path, fun s call => mount_free_iff d s call⟩

/-- Every path names a disk that is full of zeros, and every directory exists. -/
def blankDisk : MountDrivers Unit where
  base :=
    { resolve := fun _ _ => some ({ mode := vfsInodeBlk ||| 0o660 }, none)
      mountProc := fun s => s
      writeFile := fun s _ _ => (s, 0)
      hasWrite := fun _ _ => false
      write := fun s _ x _ _ => (s, x.size, -1)
      devPwrite := fun s _ _ _ => (s, -1)
      contents := fun _ _ _ => [] }
  blockDevice _ _ := some 0
  device _ _ := { sectorSize := 512, sector := fun _ => some (List.replicate 512 0) }
  mkdir _ _ := ()
  writeFile _ _ _ := ((), 0)

/-- A mount of that disk is refused, and one of the eight slots is gone. -/
theorem blank_disk_takes_slot :
    (blankDisk.doSysMount { files := () } (.mount (.text "/dev/sdb") (.text "/mnt") .null)).2 = .error .einval ∧
      (blankDisk.doSysMount { files := () } (.mount (.text "/dev/sdb") (.text "/mnt") .null)).1.ext4Mounts.length = 1 ∧
      ¬ blankDisk.MountFree { files := () } (.mount (.text "/dev/sdb") (.text "/mnt") .null) := by
  have hresult : (blankDisk.doSysMount { files := () } (.mount (.text "/dev/sdb") (.text "/mnt") .null)).2 =
      .error .einval := by decide +kernel
  have hslot : (blankDisk.doSysMount { files := () } (.mount (.text "/dev/sdb") (.text "/mnt") .null)).1.ext4Mounts.length
      = 1 := by decide +kernel
  refine ⟨hresult, hslot, fun h => ?_⟩
  have hcount := (h .einval hresult).ext4Count
  rw [hslot] at hcount
  simp at hcount

end EdgeOS
