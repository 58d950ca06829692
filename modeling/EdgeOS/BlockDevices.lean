import EdgeOS.Ext4
import EdgeOS.Lib.Batches

namespace EdgeOS

open Lib List

/-!
Block devices and the sectors behind them: what `dev_init` registers, the drivers that the devices are read
and written with, and the requests that `block_read_sectors` and `block_write_sectors` make of these.
-/

/-- `ram_block_ctx_t`. -/
structure RamCtx where
  base : UInt64 := 0
  size : UInt32 := 0
  offset : UInt32 := 0
  deriving DecidableEq, Repr

/-- The operations of a device: `ram_read` and `ram_write`, `ahci_read_ops` and `ahci_write_ops`,
`ata_read_ops` and `ata_write_ops`. -/
inductive BlockOps
  | ram
  | ahci
  | ata
  deriving DecidableEq, Repr

/-- A `block_device_t` that is present. -/
structure BlockDev where
  name : String
  sectorSize : UInt32
  sectorCount : UInt32
  startLba : UInt32
  ctx : RamCtx := {}
  ops : BlockOps
  deriving DecidableEq, Repr

/-! ## Drivers -/

/-- What the hardware does with a command that it can carry out: whether it finishes, and how many sectors
it moves before it gives up. -/
structure Answer where
  ok : Bool
  moved : ℕ
  deriving DecidableEq, Repr

/-- A call of a driver: the first sector and the one after the last that its command is for, the place in
the buffer, the sectors that were moved, and whether the driver reports success. -/
structure DriverCall where
  named : Option (ℕ × ℕ)
  off : ℕ
  moved : ℕ
  ok : Bool
  deriving DecidableEq, Repr

/-- A drive of `capacity` sectors carries out no command that goes past its end. -/
def execute (capacity : ℕ) (a : Answer) (first n : ℕ) : ℕ × Bool :=
  if a.ok ∧ first + n ≤ capacity then (n, true) else (min a.moved (min n (capacity - first)), false)

/-- `ram_read` and `ram_write`. -/
def ramRw (dev : BlockDev) (lba count : UInt32) (off : ℕ) : DriverCall :=
  let bytes := count * dev.sectorSize
  let start := (dev.ctx.offset + lba) * dev.sectorSize
  let named := some (start.toNat / 512, (start + bytes).toNat / 512)
  if start + bytes > dev.ctx.size then ⟨named, off, 0, false⟩ else ⟨named, off, count.toNat, true⟩

/-- `ahci_read` and `ahci_write` of at most 65535 sectors, which are one command. -/
def ahciRw (capacity : ℕ) (a : Answer) (lba count : UInt32) (off : ℕ) : DriverCall :=
  if count = 0 then ⟨none, off, 0, false⟩
  else
    let done := execute capacity a lba.toNat count.toNat
    ⟨some (lba.toNat, lba.toNat + count.toNat), off, done.1, done.2⟩

/-- `ata_read28` and `ata_write28`: the registers take 28 bits of the sector. -/
def ataRw28 (capacity : ℕ) (a : Answer) (lba : UInt32) (sectorCount : UInt8) (off : ℕ) : DriverCall :=
  if sectorCount = 0 then ⟨none, off, 0, false⟩
  else
    let first := lba.toNat % 2 ^ 28
    let done := execute capacity a first sectorCount.toNat
    ⟨some (first, first + sectorCount.toNat), off, done.1, done.2⟩

/-- `dev->ops`. -/
def BlockDev.rw (dev : BlockDev) (capacity : ℕ) (a : Answer) (lba count : UInt32) (off : ℕ) : DriverCall :=
  match dev.ops with
  | .ram => ramRw dev lba count off
  | .ahci => ahciRw capacity a (dev.startLba + lba) count off
  | .ata => ataRw28 capacity a (dev.startLba + lba) count.toUInt8 off

/-! ## Requests -/

abbrev blockBatchMaxSectors : ℕ := 1024

theorem blockBatchMaxSectors_pos : 0 < blockBatchMaxSectors := by decide

/-- A call that a request makes, on `len` of its sectors from the one at `pos` on. -/
structure RequestCall where
  pos : ℕ
  len : ℕ
  call : DriverCall
  deriving DecidableEq, Repr

/-- The sectors that a call moves, each with its place in the buffer. -/
def RequestCall.moves (c : RequestCall) : List (ℕ × ℕ) :=
  match c.call.named with
  | none => []
  | some (first, _) => (List.range c.call.moved).map fun j => (first + j, c.call.off + 512 * j)

structure RequestOutcome where
  calls : List RequestCall
  ok : Bool
  deriving DecidableEq, Repr

/-- The call for the sectors from `pos` on. `drive` says how the hardware takes each call. -/
def BlockDev.callAt (dev : BlockDev) (capacity : ℕ) (drive : ℕ → ℕ → Answer) (lba : UInt32) (pos len : ℕ) :
    DriverCall :=
  dev.rw capacity (drive pos len) (lba + pos.toUInt32) len.toUInt32 (pos.toUInt32 * dev.sectorSize).toNat

/-- `block_read_sectors` and `block_write_sectors` on a buffer, which differ in the direction of the moves. -/
def BlockDev.transfer (dev : BlockDev) (capacity : ℕ) (drive : ℕ → ℕ → Answer) (lba count : UInt32) : RequestOutcome :=
  if dev.sectorSize = 0 then ⟨[], false⟩
  else if count = 0 then ⟨[], true⟩
  else
    let r := batches (fun pos len => (dev.callAt capacity drive lba pos len).ok) count.toNat 0
      blockBatchMaxSectors blockBatchMaxSectors_pos
    ⟨r.1.map fun ch => ⟨ch.pos, ch.len, dev.callAt capacity drive lba ch.pos ch.len⟩, r.2⟩

/-- The two with the test of the pointer. -/
def BlockDev.request (dev : BlockDev) (buf : UInt64) (capacity : ℕ) (drive : ℕ → ℕ → Answer) (lba count : UInt32) :
    RequestOutcome :=
  if buf = 0 then ⟨[], false⟩ else dev.transfer capacity drive lba count

/-- The physical byte behind byte `k` of a place in the buffer. The processor goes through the page tables, which are
`phys`; `ahci_read` and `ahci_write` hand the address of the buffer to the controller, which does not. -/
def BlockDev.bufferByte (dev : BlockDev) (phys : UInt64 → UInt64) (buf : UInt64) (place k : ℕ) : UInt64 :=
  match dev.ops with
  | .ahci => buf + (place + k).toUInt64
  | _ => phys (buf + (place + k).toUInt64)

/-- The address of a byte of a ram disk. -/
def RamCtx.byteAddr (c : RamCtx) (sector k : ℕ) : UInt64 := c.base + (512 * sector + k).toUInt64

/-! ## Registration -/

abbrev blockMaxDevices : ℕ := 8
abbrev maxRamdiskBytes : ℕ := 128 * 1024 * 1024

def blockRegister (ds : List BlockDev) (d : BlockDev) : List BlockDev :=
  if ds.length ≥ blockMaxDevices then ds else ds ++ [d]

/-- The device behind a module: its name is `ram0`, and once more `sda`. -/
def ramdisk (name : String) (base : UInt64) (size : UInt32) : BlockDev where
  name := name
  sectorSize := 512
  sectorCount := size / 512
  startLba := 0
  ctx := { base := base, size := size }
  ops := .ram

/-- A module that is too large for the copy stays where it is. -/
def devRegisterModuleRamdisk (copyBase : ℕ) (ds : List BlockDev) (modStart modEnd : UInt32) : List BlockDev × Bool :=
  if modEnd ≤ modStart then (ds, false)
  else if ds.length ≥ blockMaxDevices then (ds, false)
  else
    let size := modEnd - modStart
    let base := if size.toNat > maxRamdiskBytes then modStart.toUInt64 else copyBase.toUInt64
    (blockRegister (blockRegister ds (ramdisk "ram0" base size)) (ramdisk "sda" base size), true)

/-- Entry `i` of a partition table, as a device on the disk. -/
def partitionOf (disk : BlockDev) (ctx : Option RamCtx) (sector : Bytes) (i : ℕ) : BlockDev :=
  let lbaStart := rd32le sector (446 + 16 * i + 8)
  let base : BlockDev :=
    { disk with name := disk.name ++ toString (i + 1), sectorCount := rd32le sector (446 + 16 * i + 12) }
  match ctx with
  | none => { base with startLba := disk.startLba + lbaStart }
  | some c => { base with startLba := lbaStart, ctx := { c with offset := lbaStart } }

/-- `dev_register_partitions`; `sector` is what reading sector 0 of the disk gives. -/
def devRegisterPartitions (ds : List BlockDev) (disk : BlockDev) (ctx : Option RamCtx) (sector : Option Bytes) :
    List BlockDev :=
  match sector with
  | none => ds
  | some b =>
    if rd8 b 510 ≠ 0x55 ∨ rd8 b 511 ≠ 0xAA then ds
    else
      (List.range 4).foldl
        (fun ds i =>
          if rd32le b (446 + 16 * i + 12) = 0 then ds else blockRegister ds (partitionOf disk ctx b i))
        ds

/-- What `dev_init` finds: the modules that its scans settle on, in order, the sector counts of the two
drivers where they find a disk, and sector 0 of that disk. The capacity is the disk's own. The kernel's buffer
for a copy of a module lies at `copyBase`. -/
structure Boot where
  modules : List (UInt32 × UInt32)
  copyBase : ℕ
  ahci : Option UInt32
  ata : Option UInt32
  mbr : Option Bytes
  capacity : ℕ

/-- The boot loader puts a module where the kernel is not; both are below 4 GiB. -/
def Boot.Loaded (b : Boot) : Prop :=
  b.copyBase + maxRamdiskBytes ≤ 2 ^ 32 ∧
    ∀ m ∈ b.modules, m.2.toNat ≤ b.copyBase ∨ b.copyBase + maxRamdiskBytes ≤ m.1.toNat

def diskOf (sectors : UInt32) (ops : BlockOps) : BlockDev where
  name := "sda"
  sectorSize := 512
  sectorCount := sectors
  startLba := 0
  ops := ops

def Boot.withDisk (b : Boot) (ds : List BlockDev) (disk : BlockDev) : List BlockDev :=
  devRegisterPartitions (blockRegister ds disk) disk none b.mbr

def Boot.devInit (b : Boot) : List BlockDev :=
  let ram := b.modules.foldl
    (fun r m => if r.2 then r else devRegisterModuleRamdisk b.copyBase r.1 m.1 m.2) ([], false)
  if ram.2 then ram.1
  else
    match b.ahci, b.ata with
    | some sectors, _ => b.withDisk ram.1 (diskOf sectors .ahci)
    | none, some sectors => b.withDisk ram.1 (diskOf sectors .ata)
    | none, none => ram.1

def Boot.behind (b : Boot) (dev : BlockDev) : ℕ :=
  match dev.ops with
  | .ram => dev.ctx.size.toNat / 512
  | _ => b.capacity

/-! ## What a request may do -/

/-- A request moves sectors of its device only, each to or from its own place, it is refused when it is not
inside the device, and no number on the way to the drive is cut off. -/
structure Contained (dev : BlockDev) (capacity : ℕ) (lba count : UInt32) (o : RequestOutcome) : Prop where
  exact : ∀ c ∈ o.calls, ∀ first last, c.call.named = some (first, last) →
    first = dev.startLba.toNat + lba.toNat + c.pos ∧ last = dev.startLba.toNat + lba.toNat + c.pos + c.len ∧
      c.call.off = 512 * c.pos
  within : ∀ c ∈ o.calls, ∀ m ∈ c.moves,
    dev.startLba.toNat ≤ m.1 ∧ m.1 < dev.startLba.toNat + dev.sectorCount.toNat ∧ m.1 < capacity ∧
      ∃ i < count.toNat, m = (dev.startLba.toNat + lba.toNat + i, 512 * i)
  refused : count ≠ 0 → dev.sectorCount.toNat < lba.toNat + count.toNat → o.ok = false
  complete : o.ok = true → ∀ i < count.toNat, ∃ c ∈ o.calls, (dev.startLba.toNat + lba.toNat + i, 512 * i) ∈ c.moves

/-- Besides, what is moved for a place in the buffer is what the caller has there, and the sectors of a ram disk are its
own memory: no page of user memory is mapped over either. -/
structure Isolated (dev : BlockDev) (phys : UInt64 → UInt64) (buf : UInt64) (capacity : ℕ) (lba count : UInt32)
    (o : RequestOutcome) : Prop extends Contained dev capacity lba count o where
  buffer : ∀ c ∈ o.calls, ∀ m ∈ c.moves, ∀ k < 512,
    dev.bufferByte phys buf m.2 k = phys (buf + (m.2 + k).toUInt64)
  media : dev.ops = .ram → ∀ c ∈ o.calls, ∀ m ∈ c.moves, ∀ k < 512,
    phys (dev.ctx.byteAddr m.1 k) = dev.ctx.byteAddr m.1 k

/-- The last place of a request that the disk lets it get to. -/
def reach (capacity first count : ℕ) : ℕ := min (count - 1) (capacity - first)

/-- The request is inside the device, or the disk ends where the request leaves it; and the sectors that it
gets to are below `limit`, and their places in the buffer below 4 GiB. -/
structure InReach (dev : BlockDev) (capacity limit : ℕ) (lba count : UInt32) : Prop where
  extent : lba.toNat + count.toNat ≤ dev.sectorCount.toNat ∨
    capacity ≤ dev.startLba.toNat + max lba.toNat dev.sectorCount.toNat
  sector : dev.startLba.toNat + lba.toNat + reach capacity (dev.startLba.toNat + lba.toNat) count.toNat < limit
  place : reach capacity (dev.startLba.toNat + lba.toNat) count.toNat < 2 ^ 23

/-- Batches whose count fits eight bits, or is cut to zero until it does. -/
def HalvesToByte (n : ℕ) : Prop := n ≤ 256 ∨ n = 512 ∨ n = 1024

def SectorsReached (dev : BlockDev) (capacity : ℕ) (lba count : UInt32) : Prop :=
  count = 0 ∨ match dev.ops with
    | .ram => lba.toNat + min count.toNat blockBatchMaxSectors < 2 ^ 23
    | .ahci => InReach dev capacity (2 ^ 32) lba count
    | .ata => InReach dev capacity (2 ^ 28) lba count ∧ HalvesToByte (min count.toNat blockBatchMaxSectors)

/-- The memory whose address the driver takes for a physical one is mapped to itself, as far as the sectors of the
request are on the disk: the buffer of an AHCI disk, and a ram disk. -/
def SelfMapped (dev : BlockDev) (phys : UInt64 → UInt64) (buf : UInt64) (capacity : ℕ) (lba count : UInt32) : Prop :=
  ∀ i < count.toNat, dev.startLba.toNat + lba.toNat + i < capacity → ∀ k < 512, match dev.ops with
    | .ram => phys (dev.ctx.byteAddr (dev.startLba.toNat + lba.toNat + i) k) =
        dev.ctx.byteAddr (dev.startLba.toNat + lba.toNat + i) k
    | .ahci => phys (buf + (512 * i + k).toUInt64) = buf + (512 * i + k).toUInt64
    | .ata => True

def Sound (dev : BlockDev) (phys : UInt64 → UInt64) (buf : UInt64) (capacity : ℕ) (lba count : UInt32) : Prop :=
  buf = 0 ∨ SectorsReached dev capacity lba count ∧ SelfMapped dev phys buf capacity lba count

/-! ## Requests from right calls -/

/-- A call for the sectors from `first` on as it should be. -/
structure RightCall (capacity first pos len : ℕ) (c : DriverCall) : Prop where
  named : ∀ f l, c.named = some (f, l) → f = first + pos ∧ l = first + pos + len ∧ c.off = 512 * pos
  moved : c.moved ≤ len
  inside : c.moved ≠ 0 → first + pos + c.moved ≤ capacity
  ok : c.ok = true → c.named ≠ none ∧ c.moved = len

section Requests

variable {dev : BlockDev} {capacity : ℕ} {drive : ℕ → ℕ → Answer} {lba count : UInt32}

theorem RightCall.mem_moves {first : ℕ} {c : RequestCall} (h : RightCall capacity first c.pos c.len c.call)
    {m : ℕ × ℕ} (hm : m ∈ c.moves) :
    ∃ j < c.call.moved, m = (first + (c.pos + j), 512 * (c.pos + j)) := by
  unfold RequestCall.moves at hm
  cases hnamed : c.call.named with
  | none =>
    rw [hnamed] at hm
    exact absurd hm not_mem_nil
  | some fl =>
    obtain ⟨hf, -, hoff⟩ := h.named fl.1 fl.2 hnamed
    rw [hnamed] at hm
    obtain ⟨j, hj, heq⟩ := mem_map.mp hm
    refine ⟨j, mem_range.mp hj, ?_⟩
    rw [← heq, hf, hoff, Nat.add_assoc, Nat.mul_add]

/-- A call that reports success has moved all of its sectors. -/
theorem RightCall.moves_all {first : ℕ} {c : RequestCall} (h : RightCall capacity first c.pos c.len c.call)
    (hok : c.call.ok = true) {i : ℕ} (hle : c.pos ≤ i) (hlt : i < c.pos + c.len) :
    (first + i, 512 * i) ∈ c.moves := by
  obtain ⟨hsome, hmoved⟩ := h.ok hok
  obtain ⟨fl, hnamed⟩ := Option.ne_none_iff_exists'.mp hsome
  obtain ⟨hf, -, hoff⟩ := h.named fl.1 fl.2 hnamed
  unfold RequestCall.moves
  rw [hnamed]
  apply mem_map.mpr
  refine ⟨i - c.pos, mem_range.mpr (by omega), ?_⟩
  rw [hf, hoff, ← Nat.mul_add, Nat.add_assoc, Nat.add_sub_cancel' hle]

theorem transfer_calls (hsize : dev.sectorSize ≠ 0) (hcount : count ≠ 0) : dev.transfer capacity drive lba count =
      let r := batches (fun pos len => (dev.callAt capacity drive lba pos len).ok) count.toNat 0
        blockBatchMaxSectors blockBatchMaxSectors_pos
      ⟨r.1.map fun ch => ⟨ch.pos, ch.len, dev.callAt capacity drive lba ch.pos ch.len⟩, r.2⟩ := by
  unfold BlockDev.transfer
  rw [if_neg hsize, if_neg hcount]

theorem transfer_empty (hsize : dev.sectorSize ≠ 0) : dev.transfer capacity drive lba 0 = ⟨[], true⟩ := by
  unfold BlockDev.transfer
  rw [if_neg hsize, if_pos rfl]

theorem count_pos (hcount : count ≠ 0) : 0 < count.toNat :=
  Nat.pos_of_ne_zero fun hzero => hcount (UInt32.toNat_inj.mp hzero)

theorem contained_empty (hsize : dev.sectorSize ≠ 0) :
    Contained dev capacity lba 0 (dev.transfer capacity drive lba 0) := by
  rw [transfer_empty hsize]
  exact ⟨fun c hc => absurd hc not_mem_nil, fun c hc => absurd hc not_mem_nil,
    fun hne => absurd rfl hne, fun _ i hi => absurd hi (Nat.not_lt_zero i)⟩

/-- A request whose calls are right, and which cannot leave its device before the disk ends. -/
theorem contained_of_right {I : ℕ → ℕ → Prop} (hsize : dev.sectorSize ≠ 0)
    (hextent : lba.toNat + count.toNat ≤ dev.sectorCount.toNat ∨
      capacity ≤ dev.startLba.toNat + max lba.toNat dev.sectorCount.toNat)
    (hstart : I 0 blockBatchMaxSectors)
    (hright : ∀ pos b, 0 < b → I pos b → pos < count.toNat →
      RightCall capacity (dev.startLba.toNat + lba.toNat) pos (min (count.toNat - pos) b)
        (dev.callAt capacity drive lba pos (min (count.toNat - pos) b)))
    (hok : ∀ pos b, 0 < b → I pos b → pos < count.toNat →
      (dev.callAt capacity drive lba pos (min (count.toNat - pos) b)).ok = true → I (pos + min (count.toNat - pos) b) b)
    (hfail : ∀ pos b, 0 < b → I pos b → pos < count.toNat →
      (dev.callAt capacity drive lba pos (min (count.toNat - pos) b)).ok = false →
        I pos (min (count.toNat - pos) b / 2)) :
    Contained dev capacity lba count (dev.transfer capacity drive lba count) := by
  by_cases hcount : count = 0
  · rw [hcount]
    exact contained_empty hsize
  have hpositive := count_pos hcount
  have hcalls : ∀ c ∈ (dev.transfer capacity drive lba count).calls,
      RightCall capacity (dev.startLba.toNat + lba.toNat) c.pos c.len c.call ∧ 0 < c.len ∧
        c.pos + c.len ≤ count.toNat := by
    intro c hc
    rw [transfer_calls hsize hcount] at hc
    obtain ⟨ch, hch, heq⟩ := mem_map.mp hc
    obtain ⟨hpos, -, b, hb, hI, hlen⟩ := batches_inv hok hfail 0 _ (by decide) hstart ch hch
    rw [← heq]
    dsimp only
    rw [hlen]
    exact ⟨hright _ b hb hI hpos, by omega, by omega⟩
  have hcover : (dev.transfer capacity drive lba count).ok = true → ∀ i < count.toNat,
      ∃ c ∈ (dev.transfer capacity drive lba count).calls, c.call.ok = true ∧ c.pos ≤ i ∧ i < c.pos + c.len := by
    intro hall i hi
    rw [transfer_calls hsize hcount] at hall ⊢
    obtain ⟨ch, hch, hchok, hin⟩ := batches_covers 0 _ (by decide) hall (Nat.zero_le i) hi
    have hcall := (batches_inv hok hfail 0 _ (by decide) hstart ch hch).2.1
    exact ⟨_, mem_map_of_mem hch, hcall.symm.trans hchok, hin⟩
  constructor
  · intro c hc f l hnamed
    obtain ⟨hr, -, -⟩ := hcalls c hc
    exact hr.named f l hnamed
  · intro c hc m hm
    obtain ⟨hr, -, hend⟩ := hcalls c hc
    obtain ⟨j, hj, heq⟩ := hr.mem_moves hm
    have hmoved := hr.moved
    have hinside := hr.inside (by omega)
    rw [heq]
    refine ⟨by omega, ?_, by omega, c.pos + j, by omega, rfl⟩
    change dev.startLba.toNat + lba.toNat + (c.pos + j) < _
    omega
  · intro _ hout
    by_contra hne
    obtain ⟨c, hc, hcok, hle, hlt⟩ := hcover (Bool.eq_true_of_not_eq_false hne)
      (max lba.toNat dev.sectorCount.toNat - lba.toNat) (by omega)
    obtain ⟨hr, hlen, -⟩ := hcalls c hc
    obtain ⟨-, hmoved⟩ := hr.ok hcok
    have hinside := hr.inside (by omega)
    omega
  · intro hall i hi
    obtain ⟨c, hc, hcok, hle, hlt⟩ := hcover hall i hi
    exact ⟨c, hc, (hcalls c hc).1.moves_all hcok hle hlt⟩

/-! ## The drivers' calls -/

theorem toNat_toUInt32 {n : ℕ} (h : n < 2 ^ 32) : n.toUInt32.toNat = n :=
  UInt32.toNat_ofNat_of_lt h

/-- What a drive does with a command for existing sectors stays below its end. -/
theorem execute_right (capacity : ℕ) (a : Answer) (first n : ℕ) : (execute capacity a first n).1 ≤ n ∧
      ((execute capacity a first n).1 ≠ 0 → first + (execute capacity a first n).1 ≤ capacity) ∧
      ((execute capacity a first n).2 = true → (execute capacity a first n).1 = n) := by
  unfold execute
  by_cases hall : a.ok = true ∧ first + n ≤ capacity
  · rw [if_pos hall]
    exact ⟨Nat.le_refl n, fun _ => hall.2, fun _ => rfl⟩
  rw [if_neg hall]
  dsimp only
  refine ⟨by omega, fun hne => by omega, fun h => by cases h⟩

theorem callAt_ahci (hops : dev.ops = .ahci) {pos len : ℕ} (hlen : 0 < len) (hlt : len < 2 ^ 32) :
    dev.callAt capacity drive lba pos len = let first := (dev.startLba + (lba + pos.toUInt32)).toNat
      let done := execute capacity (drive pos len) first len
      ⟨some (first, first + len), (pos.toUInt32 * dev.sectorSize).toNat, done.1, done.2⟩ := by
  have hne : ¬len.toUInt32 = 0 := by
    intro h
    have := congrArg UInt32.toNat h
    rw [toNat_toUInt32 hlt] at this
    exact hlen.ne' this
  unfold BlockDev.callAt BlockDev.rw
  rw [hops]
  change ahciRw _ _ _ _ _ = _
  unfold ahciRw
  rw [if_neg hne, toNat_toUInt32 hlt]

/-- The call that the ATA driver makes: the count is cut to eight bits, and the sector to 28. -/
theorem callAt_ata (hops : dev.ops = .ata) {pos len : ℕ} (hlt : len < 2 ^ 32) : dev.callAt capacity drive lba pos len =
      if len % 256 = 0 then ⟨none, (pos.toUInt32 * dev.sectorSize).toNat, 0, false⟩
      else
        let first := (dev.startLba + (lba + pos.toUInt32)).toNat % 2 ^ 28
        let done := execute capacity (drive pos len) first (len % 256)
        ⟨some (first, first + len % 256), (pos.toUInt32 * dev.sectorSize).toNat, done.1, done.2⟩ := by
  have hcut : len.toUInt32.toUInt8.toNat = len % 256 := by
    rw [UInt32.toNat_toUInt8, toNat_toUInt32 hlt]
  unfold BlockDev.callAt BlockDev.rw
  rw [hops]
  change ataRw28 _ _ _ _ _ = _
  unfold ataRw28
  by_cases hzero : len % 256 = 0
  · rw [if_pos hzero, if_pos (UInt8.toNat_inj.mp (by rw [hcut, hzero]; rfl))]
  · rw [if_neg hzero, if_neg fun h => hzero (hcut.symm.trans (congrArg UInt8.toNat h)), hcut]

theorem callAt_ram (hops : dev.ops = .ram) (hsize : dev.sectorSize = 512) {pos len : ℕ} (hlt : len < 2 ^ 32) :
    dev.callAt capacity drive lba pos len = let start := (dev.ctx.offset + (lba + pos.toUInt32)) * 512
      let named := some (start.toNat / 512, (start + len.toUInt32 * 512).toNat / 512)
      if start + len.toUInt32 * 512 > dev.ctx.size then ⟨named, (pos.toUInt32 * 512).toNat, 0, false⟩
      else ⟨named, (pos.toUInt32 * 512).toNat, len, true⟩ := by
  unfold BlockDev.callAt BlockDev.rw
  rw [hops, hsize]
  change ramRw _ _ _ _ = _
  unfold ramRw
  rw [hsize, toNat_toUInt32 hlt]

/-! ## Drives -/

theorem sector_toNat {pos : ℕ} (h : dev.startLba.toNat + lba.toNat + pos < 2 ^ 32) :
    (dev.startLba + (lba + pos.toUInt32)).toNat = dev.startLba.toNat + lba.toNat + pos := by
  rw [UInt32.toNat_add, UInt32.toNat_add, toNat_toUInt32 (by omega), Nat.add_mod_mod, ← Nat.add_assoc]
  exact Nat.mod_eq_of_lt h

theorem place_toNat (hsize : dev.sectorSize = 512) {pos : ℕ} (h : pos < 2 ^ 23) :
    (pos.toUInt32 * dev.sectorSize).toNat = 512 * pos := by
  rw [hsize, UInt32.toNat_mul, toNat_toUInt32 (by omega), Nat.mul_comm pos]
  change 512 * pos % 2 ^ 32 = 512 * pos
  exact Nat.mod_eq_of_lt (by omega)

theorem InReach.at {limit : ℕ} (h : InReach dev capacity limit lba count) {pos : ℕ} (hpos : pos < count.toNat)
    (hbefore : pos = 0 ∨ dev.startLba.toNat + lba.toNat + pos ≤ capacity) :
    dev.startLba.toNat + lba.toNat + pos < limit ∧ pos < 2 ^ 23 := by
  have hle : pos ≤ reach capacity (dev.startLba.toNat + lba.toNat) count.toNat := by
    unfold reach
    omega
  have hsector := h.sector
  have hplace := h.place
  omega

theorem right_ahci (hops : dev.ops = .ahci) (hsize : dev.sectorSize = 512)
    (h : InReach dev capacity (2 ^ 32) lba count) {pos len : ℕ} (hpos : pos < count.toNat)
    (hbefore : pos = 0 ∨ dev.startLba.toNat + lba.toNat + pos ≤ capacity) (hlen : 0 < len) (hlt : len < 2 ^ 32) :
    RightCall capacity (dev.startLba.toNat + lba.toNat) pos len (dev.callAt capacity drive lba pos len) := by
  obtain ⟨hsector, hplace⟩ := h.at hpos hbefore
  obtain ⟨hle, hinside, hall⟩ := execute_right capacity (drive pos len)
    (dev.startLba.toNat + lba.toNat + pos) len
  rw [callAt_ahci hops hlen hlt, sector_toNat hsector, place_toNat hsize hplace]
  refine ⟨?_, hle, hinside, fun hok => ⟨Option.some_ne_none _, hall hok⟩⟩
  intro f l hnamed
  cases hnamed
  exact ⟨rfl, rfl, rfl⟩

theorem ahci_contained (hops : dev.ops = .ahci) (hsize : dev.sectorSize = 512)
    (h : InReach dev capacity (2 ^ 32) lba count) :
    Contained dev capacity lba count (dev.transfer capacity drive lba count) := by
  have hlt : ∀ pos b, min (count.toNat - pos) b < 2 ^ 32 := fun pos b =>
    (Nat.min_le_left _ _).trans_lt ((Nat.sub_le _ _).trans_lt count.toNat_lt)
  apply contained_of_right
    (I := fun pos _ => pos = 0 ∨ dev.startLba.toNat + lba.toNat + pos ≤ capacity)
  · rw [hsize]
    decide
  · exact h.extent
  · exact Or.inl rfl
  · intro pos b hb hbefore hpos
    exact right_ahci hops hsize h hpos hbefore (by omega) (hlt pos b)
  · intro pos b hb hbefore hpos hok
    have hright : RightCall _ _ pos _ (dev.callAt capacity drive lba pos _) :=
      right_ahci hops hsize h hpos hbefore (by omega) (hlt pos b)
    obtain ⟨-, hmoved⟩ := hright.ok hok
    have hinside := hright.inside (by omega)
    right
    omega
  · exact fun pos b _ hbefore _ _ => hbefore

/-- A batch for the ATA driver is cut to zero or not at all. -/
theorem HalvesToByte.cases {n : ℕ} (h : HalvesToByte n) : n < 256 ∨ n % 256 = 0 := by
  unfold HalvesToByte at h
  omega

theorem HalvesToByte.half {n : ℕ} (h : HalvesToByte n) : HalvesToByte (n / 2) := by
  unfold HalvesToByte at h ⊢
  omega

theorem right_ata (hops : dev.ops = .ata) (hsize : dev.sectorSize = 512)
    (h : InReach dev capacity (2 ^ 28) lba count) {pos len : ℕ} (hpos : pos < count.toNat)
    (hbefore : pos = 0 ∨ dev.startLba.toNat + lba.toNat + pos ≤ capacity) (hlt : len < 2 ^ 32)
    (hbyte : HalvesToByte len) :
    RightCall capacity (dev.startLba.toNat + lba.toNat) pos len (dev.callAt capacity drive lba pos len) := by
  obtain ⟨hsector, hplace⟩ := h.at hpos hbefore
  rw [callAt_ata hops hlt]
  by_cases hzero : len % 256 = 0
  · rw [if_pos hzero]
    exact ⟨fun f l hnamed => (by cases hnamed), Nat.zero_le _, fun hne => absurd rfl hne, fun hok => (by cases hok)⟩
  have hsmall : len % 256 = len := Nat.mod_eq_of_lt (hbyte.cases.resolve_right hzero)
  obtain ⟨hle, hinside, hall⟩ := execute_right capacity (drive pos len)
    (dev.startLba.toNat + lba.toNat + pos) len
  rw [if_neg hzero, hsmall, sector_toNat (by omega), place_toNat hsize hplace, Nat.mod_eq_of_lt hsector]
  refine ⟨?_, hle, hinside, fun hok => ⟨Option.some_ne_none _, hall hok⟩⟩
  intro f l hnamed
  cases hnamed
  exact ⟨rfl, rfl, rfl⟩

/-- A batch of which the drive has carried out a command was small. -/
theorem ata_ok (hops : dev.ops = .ata) {pos len : ℕ} (hlt : len < 2 ^ 32)
    (hok : (dev.callAt capacity drive lba pos len).ok = true) : len % 256 ≠ 0 := by
  intro hzero
  rw [callAt_ata hops hlt, if_pos hzero] at hok
  cases hok

theorem ata_contained (hops : dev.ops = .ata) (hsize : dev.sectorSize = 512)
    (h : InReach dev capacity (2 ^ 28) lba count)
    (hbyte : HalvesToByte (min count.toNat blockBatchMaxSectors)) :
    Contained dev capacity lba count (dev.transfer capacity drive lba count) := by
  have hlt : ∀ pos b, min (count.toNat - pos) b < 2 ^ 32 := fun pos b =>
    (Nat.min_le_left _ _).trans_lt ((Nat.sub_le _ _).trans_lt count.toNat_lt)
  apply contained_of_right
    (I := fun pos b => (pos = 0 ∨ dev.startLba.toNat + lba.toNat + pos ≤ capacity) ∧
      HalvesToByte (min (count.toNat - pos) b))
  · rw [hsize]
    decide
  · exact h.extent
  · exact ⟨Or.inl rfl, hbyte⟩
  · intro pos b hb hI hpos
    exact right_ata hops hsize h hpos hI.1 (hlt pos b) hI.2
  · intro pos b hb hI hpos hok
    have hright : RightCall _ _ pos _ (dev.callAt capacity drive lba pos _) :=
      right_ata hops hsize h hpos hI.1 (hlt pos b) hI.2
    obtain ⟨-, hmoved⟩ := hright.ok hok
    have hinside := hright.inside (by omega)
    have hsmall := hI.2.cases.resolve_right (ata_ok hops (hlt pos b) hok)
    refine ⟨Or.inr (by omega), Or.inl ?_⟩
    omega
  · intro pos b hb hI hpos _
    refine ⟨hI.1, ?_⟩
    rw [min_eq_right (by omega)]
    exact hI.2.half

/-! ## A drive that moves single sectors -/

def singles : ℕ → ℕ → Answer := fun _ len => ⟨decide (len = 1), 0⟩

/-- A driver that makes a command for one sector of it. -/
structure SingleCalls (dev : BlockDev) (capacity limit : ℕ) (lba : UInt32) : Prop where
  call : ∀ pos, ∃ first < limit, dev.callAt capacity singles lba pos 1 =
    ⟨some (first, first + 1), (pos.toUInt32 * dev.sectorSize).toNat,
      (execute capacity ⟨true, 0⟩ first 1).1, (execute capacity ⟨true, 0⟩ first 1).2⟩
  fail : ∀ pos len, 1 < len → (dev.callAt capacity singles lba pos len).ok = false

theorem execute_single {first : ℕ} (h : first < capacity) : execute capacity ⟨true, 0⟩ first 1 = (1, true) :=
  if_pos ⟨rfl, h⟩

theorem execute_fails {a : Answer} (h : a.ok = false) (first n : ℕ) : (execute capacity a first n).2 = false := by
  unfold execute
  rw [if_neg fun hall => Bool.false_ne_true (h.symm.trans hall.1)]

theorem ahciRw_fails {a : Answer} (h : a.ok = false) (lba n : UInt32) (off : ℕ) :
    (ahciRw capacity a lba n off).ok = false := by
  unfold ahciRw
  by_cases hzero : n = 0
  · rw [if_pos hzero]
  · rw [if_neg hzero]
    exact execute_fails h _ _

theorem ataRw28_fails {a : Answer} (h : a.ok = false) (lba : UInt32) (n : UInt8) (off : ℕ) :
    (ataRw28 capacity a lba n off).ok = false := by
  unfold ataRw28
  by_cases hzero : n = 0
  · rw [if_pos hzero]
  · rw [if_neg hzero]
    exact execute_fails h _ _

theorem singles_ahci (hops : dev.ops = .ahci) : SingleCalls dev capacity (2 ^ 32) lba := by
  constructor
  · intro pos
    rw [callAt_ahci hops (by decide) (by decide)]
    exact ⟨_, UInt32.toNat_lt _, rfl⟩
  · intro pos len hlen
    unfold BlockDev.callAt BlockDev.rw
    rw [hops]
    exact ahciRw_fails (decide_eq_false (by omega)) _ _ _

theorem singles_ata (hops : dev.ops = .ata) : SingleCalls dev capacity (2 ^ 28) lba := by
  constructor
  · intro pos
    rw [callAt_ata hops (by decide), if_neg (by decide)]
    exact ⟨_, Nat.mod_lt _ (by decide), rfl⟩
  · intro pos len hlen
    unfold BlockDev.callAt BlockDev.rw
    rw [hops]
    exact ataRw28_fails (decide_eq_false (by omega)) _ _ _

section Singles

variable {limit : ℕ}

/-- The calls with the drive of single sectors that are right go through to the end of what is in reach. -/
theorem single_reached (hs : SingleCalls dev capacity limit lba) (hsize : dev.sectorSize ≠ 0) (hcount : count ≠ 0)
    (h : Contained dev capacity lba count (dev.transfer capacity singles lba count)) :
    ∀ p ≤ reach capacity (dev.startLba.toNat + lba.toNat) count.toNat,
      ∃ c ∈ (dev.transfer capacity singles lba count).calls,
        c.pos = p ∧ c.len = 1 ∧ c.call = dev.callAt capacity singles lba p 1 := by
  intro p
  have hpositive := count_pos hcount
  induction p using Nat.strong_induction_on with
  | _ p ih =>
    intro hp
    have hple : p < count.toNat ∧ (p = 0 ∨ dev.startLba.toNat + lba.toNat + p ≤ capacity) := by
      unfold reach at hp
      omega
    have hbefore : ∀ q < p, (dev.callAt capacity singles lba q 1).ok = true := by
      intro q hq
      obtain ⟨c, hc, hpos, hlen, hcall⟩ := ih q hq (by omega)
      obtain ⟨first, -, heq⟩ := hs.call q
      rw [heq] at hcall
      obtain ⟨hfirst, -, -⟩ := h.exact c hc first (first + 1) (by rw [hcall])
      rw [heq]
      dsimp only
      rw [execute_single (by omega)]
    rw [transfer_calls hsize hcount]
    obtain ⟨ch, hch, hpos, hlen⟩ := batches_reach hs.fail 0 blockBatchMaxSectors blockBatchMaxSectors_pos (Nat.zero_le p)
      hple.1 fun q _ hq => hbefore q hq
    refine ⟨_, mem_map_of_mem hch, hpos, hlen, ?_⟩
    rw [← hpos, ← hlen]

theorem single_call (hs : SingleCalls dev capacity limit lba) (hsize : dev.sectorSize ≠ 0) (hcount : count ≠ 0)
    (h : Contained dev capacity lba count (dev.transfer capacity singles lba count)) {p : ℕ}
    (hp : p ≤ reach capacity (dev.startLba.toNat + lba.toNat) count.toNat) :
    ∃ c ∈ (dev.transfer capacity singles lba count).calls,
      c.call = dev.callAt capacity singles lba p 1 ∧ dev.startLba.toNat + lba.toNat + p < limit ∧ 512 * p < 2 ^ 32 ∧
        c.call.named = some (dev.startLba.toNat + lba.toNat + p, dev.startLba.toNat + lba.toNat + p + 1) ∧
        c.call.off = 512 * p ∧
        c.call.moved = (execute capacity ⟨true, 0⟩ (dev.startLba.toNat + lba.toNat + p) 1).1 := by
  obtain ⟨c, hc, hpos, hlen, hcall⟩ := single_reached hs hsize hcount h p hp
  obtain ⟨first, hlimit, heq⟩ := hs.call p
  have hnamed : c.call.named = some (first, first + 1) := by rw [hcall, heq]
  have hoff : c.call.off = (p.toUInt32 * dev.sectorSize).toNat := by rw [hcall, heq]
  have hmoved : c.call.moved = (execute capacity ⟨true, 0⟩ first 1).1 := by rw [hcall, heq]
  obtain ⟨hfirst, -, hplace⟩ := h.exact c hc first (first + 1) hnamed
  rw [hpos] at hfirst hplace
  have hword := (p.toUInt32 * dev.sectorSize).toNat_lt
  rw [← hfirst]
  exact ⟨c, hc, hcall, hlimit, by omega, hnamed, hplace, hmoved⟩

/-- The drive of single sectors moves every sector of the request that is on the disk. -/
theorem single_moves (hs : SingleCalls dev capacity limit lba) (hsize : dev.sectorSize ≠ 0)
    (h : Contained dev capacity lba count (dev.transfer capacity singles lba count)) {i : ℕ} (hi : i < count.toNat)
    (hon : dev.startLba.toNat + lba.toNat + i < capacity) :
    ∃ c ∈ (dev.transfer capacity singles lba count).calls, (dev.startLba.toNat + lba.toNat + i, 512 * i) ∈ c.moves := by
  have hcount : count ≠ 0 := fun hzero => absurd hi (by rw [hzero]; exact Nat.not_lt_zero i)
  obtain ⟨c, hc, -, -, -, hnamed, hoff, hmoved⟩ := single_call hs hsize hcount h (p := i) (by unfold reach; omega)
  refine ⟨c, hc, ?_⟩
  rw [execute_single hon] at hmoved
  unfold RequestCall.moves
  rw [hnamed, hmoved, hoff]
  exact mem_singleton_self _

/-- What keeps the drive of single sectors inside a device keeps every drive inside. -/
theorem inReach_of_contained (hs : SingleCalls dev capacity limit lba) (hsize : dev.sectorSize ≠ 0)
    (hcount : count ≠ 0) (h : Contained dev capacity lba count (dev.transfer capacity singles lba count)) :
    InReach dev capacity limit lba count := by
  have hpositive := count_pos hcount
  obtain ⟨-, -, -, hsector, hplace, -⟩ := single_call hs hsize hcount h le_rfl
  refine ⟨?_, hsector, by omega⟩
  by_contra hout
  obtain ⟨hlt, hcap⟩ := not_or.mp hout
  -- the first sector of the request that is outside of the device is still on the disk
  obtain ⟨c, hc, hmem⟩ := single_moves hs hsize h (i := max lba.toNat dev.sectorCount.toNat - lba.toNat) (by omega)
    (by omega)
  obtain ⟨-, hbelow, -⟩ := h.within c hc _ hmem
  dsimp only at hbelow
  omega

end Singles

/-- A batch of the ATA driver that is cut to a smaller one names too few sectors. -/
theorem halves_of_contained (hops : dev.ops = .ata) (hsize : dev.sectorSize ≠ 0) (hcount : count ≠ 0)
    (h : Contained dev capacity lba count (dev.transfer capacity drive lba count)) :
    HalvesToByte (min count.toNat blockBatchMaxSectors) := by
  have hpositive := count_pos hcount
  have hnamed : ∀ ch ∈ (batches (fun pos len => (dev.callAt capacity drive lba pos len).ok) count.toNat 0
      blockBatchMaxSectors blockBatchMaxSectors_pos).1, ch.pos = 0 → ch.len < 2 ^ 32 → ch.len % 256 = 0 ∨ ch.len % 256 = ch.len := by
    intro ch hch hpos hlt
    by_cases hzero : ch.len % 256 = 0
    · exact Or.inl hzero
    right
    have hmem : ⟨ch.pos, ch.len, dev.callAt capacity drive lba ch.pos ch.len⟩ ∈
        (dev.transfer capacity drive lba count).calls := by
      rw [transfer_calls hsize hcount]
      exact mem_map_of_mem hch
    have hcall : dev.callAt capacity drive lba ch.pos ch.len = _ := callAt_ata hops hlt
    rw [if_neg hzero] at hcall
    obtain ⟨hfirst, hlast, -⟩ := h.exact _ hmem _ _ (congrArg DriverCall.named hcall)
    dsimp only at hfirst hlast
    omega
  by_contra hno
  unfold HalvesToByte blockBatchMaxSectors at hno
  obtain ⟨ch, hch, hpos, hlen⟩ := batches_head
    (fun pos len => (dev.callAt capacity drive lba pos len).ok) count.toNat 0 blockBatchMaxSectors blockBatchMaxSectors_pos hpositive
  have hfirst := hnamed ch hch hpos (by omega)
  unfold blockBatchMaxSectors at hlen
  have hlen768 : min (count.toNat - 0) 1024 = 768 := by omega
  have hrefused : (dev.callAt capacity drive lba 0 (min (count.toNat - 0) blockBatchMaxSectors)).ok = false := by
    rw [hlen768, callAt_ata hops (by decide), if_pos (by decide)]
  obtain ⟨ch', hch', hpos', hlen'⟩ := batches_second
    (fun pos len => (dev.callAt capacity drive lba pos len).ok) count.toNat 0 blockBatchMaxSectors blockBatchMaxSectors_pos hpositive
    hrefused (by rw [hlen768]; decide)
  rw [hlen768] at hlen'
  have hsecond := hnamed ch' hch' hpos' (by omega)
  omega

/-! ## Ram disks -/

structure IsRamdisk (dev : BlockDev) : Prop where
  ops : dev.ops = .ram
  size : dev.sectorSize = 512
  start : dev.startLba = 0
  offset : dev.ctx.offset = 0
  count : dev.sectorCount.toNat = dev.ctx.size.toNat / 512
  room : dev.ctx.size.toNat + maxRamdiskBytes ≤ 2 ^ 32

theorem IsRamdisk.extent (h : IsRamdisk dev) {pos len : ℕ} (hlt : lba.toNat + pos + len < 2 ^ 23) :
    ((dev.ctx.offset + (lba + pos.toUInt32)) * 512).toNat = 512 * (lba.toNat + pos) ∧
      ((dev.ctx.offset + (lba + pos.toUInt32)) * 512 + len.toUInt32 * 512).toNat = 512 * (lba.toNat + pos + len) := by
  have hstart : ((dev.ctx.offset + (lba + pos.toUInt32)) * 512).toNat = 512 * (lba.toNat + pos) := by
    rw [h.offset, UInt32.zero_add, UInt32.toNat_mul, UInt32.toNat_add, toNat_toUInt32 (by omega)]
    change (lba.toNat + pos) % 2 ^ 32 * 512 % 2 ^ 32 = _
    omega
  refine ⟨hstart, ?_⟩
  rw [UInt32.toNat_add, hstart, UInt32.toNat_mul, toNat_toUInt32 (by omega)]
  change (512 * (lba.toNat + pos) + len * 512 % 2 ^ 32) % 2 ^ 32 = _
  omega

/-- A call for sectors whose bytes can be counted in 32 bits. -/
theorem IsRamdisk.right (h : IsRamdisk dev) {pos len : ℕ} (hlt : lba.toNat + pos + len < 2 ^ 23) :
    RightCall (dev.ctx.size.toNat / 512) (dev.startLba.toNat + lba.toNat) pos len
      (dev.callAt capacity drive lba pos len) := by
  obtain ⟨hstart, hend⟩ := h.extent hlt
  have hoff : (pos.toUInt32 * 512).toNat = 512 * pos := by
    rw [UInt32.toNat_mul, toNat_toUInt32 (by omega)]
    change pos * 512 % 2 ^ 32 = _
    omega
  have hzero : dev.startLba.toNat = 0 := by rw [h.start]; rfl
  rw [callAt_ram h.ops h.size (by omega)]
  dsimp only
  rw [hstart, hend, hoff, hzero]
  by_cases hout : (dev.ctx.offset + (lba + pos.toUInt32)) * 512 + len.toUInt32 * 512 > dev.ctx.size
  · rw [if_pos hout]
    refine ⟨?_, Nat.zero_le _, fun hne => absurd rfl hne, fun hok => (by cases hok)⟩
    intro f l hnamed
    cases hnamed
    dsimp only
    omega
  rw [if_neg hout]
  have hin : 512 * (lba.toNat + pos + len) ≤ dev.ctx.size.toNat := by
    rw [← hend]
    exact UInt32.le_iff_toNat_le.mp (UInt32.not_lt.mp hout)
  refine ⟨?_, le_rfl, ?_, fun _ => ⟨Option.some_ne_none _, rfl⟩⟩
  · intro f l hnamed
    cases hnamed
    dsimp only
    omega
  · intro _
    dsimp only
    omega

theorem IsRamdisk.contained (h : IsRamdisk dev) (hlt : lba.toNat + min count.toNat blockBatchMaxSectors < 2 ^ 23) :
    Contained dev (dev.ctx.size.toNat / 512) lba count (dev.transfer (dev.ctx.size.toNat / 512) drive lba count) := by
  have hroom := h.room
  have hcount := h.count
  have hbound : ∀ pos b, (pos = 0 ∨ lba.toNat + pos ≤ dev.ctx.size.toNat / 512) ∧ b ≤ blockBatchMaxSectors →
      lba.toNat + pos + min (count.toNat - pos) b < 2 ^ 23 := by
    intro pos b hI
    unfold blockBatchMaxSectors at hI hlt
    unfold maxRamdiskBytes at hroom
    omega
  have hzero : dev.startLba.toNat = 0 := by rw [h.start]; rfl
  apply contained_of_right
    (I := fun pos b => (pos = 0 ∨ lba.toNat + pos ≤ dev.ctx.size.toNat / 512) ∧ b ≤ blockBatchMaxSectors)
  · rw [h.size]
    decide
  · rw [hzero, ← hcount]
    exact Or.inr (by omega)
  · exact ⟨Or.inl rfl, le_rfl⟩
  · exact fun pos b _ hI _ => h.right (hbound pos b hI)
  · intro pos b hb hI hpos hok
    have hright : RightCall _ _ pos _ (dev.callAt (dev.ctx.size.toNat / 512) drive lba pos _) :=
      h.right (hbound pos b hI)
    obtain ⟨-, hmoved⟩ := hright.ok hok
    have hinside := hright.inside (by omega)
    exact ⟨Or.inr (by omega), hI.2⟩
  · exact fun pos b _ hI _ _ => ⟨hI.1, by omega⟩

/-- A request moves every one of its sectors that the ram disk has. -/
theorem IsRamdisk.moves (h : IsRamdisk dev)
    (hc : Contained dev capacity lba count (dev.transfer capacity drive lba count)) {i : ℕ} (hi : i < count.toNat)
    (hon : dev.startLba.toNat + lba.toNat + i < dev.ctx.size.toNat / 512) :
    ∃ c ∈ (dev.transfer capacity drive lba count).calls, (dev.startLba.toNat + lba.toNat + i, 512 * i) ∈ c.moves := by
  have hsize : dev.sectorSize ≠ 0 := by rw [h.size]; decide
  have hzero : dev.startLba.toNat = 0 := by rw [h.start]; rfl
  have hroom := h.room
  have hcount : count ≠ 0 := fun hc => absurd hi (by rw [hc]; exact Nat.not_lt_zero i)
  unfold maxRamdiskBytes at hroom
  rw [hzero, Nat.zero_add] at hon
  have hinside : ∀ pos len, pos + len ≤ dev.ctx.size.toNat / 512 - lba.toNat →
      (dev.callAt capacity drive lba pos len).ok = true := by
    intro pos len hle
    have hlt : lba.toNat + pos + len < 2 ^ 23 := by omega
    have hin : ¬ (dev.ctx.offset + (lba + pos.toUInt32)) * 512 + len.toUInt32 * 512 > dev.ctx.size := by
      rw [gt_iff_lt, UInt32.lt_iff_toNat_lt, (h.extent hlt).2]
      omega
    rw [callAt_ram h.ops h.size (by omega)]
    dsimp only
    rw [if_neg hin]
  obtain ⟨ch, hch, hok, hle, hlt⟩ := batches_below hinside 0 blockBatchMaxSectors blockBatchMaxSectors_pos
    (Nat.zero_le i) hi (n := dev.ctx.size.toNat / 512 - lba.toNat) (by omega)
  obtain ⟨-, hchok, b, -, -, hlen⟩ := batches_inv (I := fun _ _ => True) (fun _ _ _ _ _ _ => trivial)
    (fun _ _ _ _ _ _ => trivial) 0 blockBatchMaxSectors blockBatchMaxSectors_pos trivial ch hch
  have hword : ch.len < 2 ^ 32 := hlen ▸ (Nat.min_le_left _ _).trans_lt ((Nat.sub_le _ _).trans_lt count.toNat_lt)
  have hmem : ⟨ch.pos, ch.len, dev.callAt capacity drive lba ch.pos ch.len⟩ ∈
      (dev.transfer capacity drive lba count).calls := by
    rw [transfer_calls hsize hcount]
    exact mem_map_of_mem hch
  refine ⟨_, hmem, ?_⟩
  have hcall : dev.callAt capacity drive lba ch.pos ch.len = _ := callAt_ram h.ops h.size hword
  rw [hchok, hcall] at hok
  dsimp only at hcall hok
  split_ifs at hcall hok with hout
  obtain ⟨hfirst, -, hoff⟩ := hc.exact _ hmem _ _ (congrArg DriverCall.named hcall)
  dsimp only at hfirst hoff
  rw [hcall] at hoff
  unfold RequestCall.moves
  rw [hcall]
  refine mem_map.mpr ⟨i - ch.pos, mem_range.mpr (by dsimp only; omega), ?_⟩
  dsimp only at hoff ⊢
  rw [hfirst, hoff, ← Nat.mul_add, Nat.add_assoc, Nat.add_sub_cancel' hle]

theorem IsRamdisk.of_contained (h : IsRamdisk dev) (hcount : count ≠ 0)
    (hc : Contained dev capacity lba count (dev.transfer capacity drive lba count)) :
    lba.toNat + min count.toNat blockBatchMaxSectors < 2 ^ 23 := by
  have hsize : dev.sectorSize ≠ 0 := by rw [h.size]; decide
  have hzero : dev.startLba.toNat = 0 := by rw [h.start]; rfl
  have hlt32 := count.toNat_lt
  obtain ⟨ch, hch, hpos, hlen⟩ := batches_head
    (fun pos len => (dev.callAt capacity drive lba pos len).ok) count.toNat 0 blockBatchMaxSectors blockBatchMaxSectors_pos
    (count_pos hcount)
  have hmem : ⟨ch.pos, ch.len, dev.callAt capacity drive lba ch.pos ch.len⟩ ∈
      (dev.transfer capacity drive lba count).calls := by
    rw [transfer_calls hsize hcount]
    exact mem_map_of_mem hch
  have hlt : ch.len < 2 ^ 32 := by omega
  have hcall : dev.callAt capacity drive lba ch.pos ch.len = _ := callAt_ram h.ops h.size hlt
  have hnamed : (dev.callAt capacity drive lba ch.pos ch.len).named = some
      (((dev.ctx.offset + (lba + ch.pos.toUInt32)) * 512).toNat / 512,
        ((dev.ctx.offset + (lba + ch.pos.toUInt32)) * 512 + ch.len.toUInt32 * 512).toNat / 512) := by
    rw [hcall]
    dsimp only
    split_ifs <;> rfl
  obtain ⟨-, hlast, -⟩ := hc.exact _ hmem _ _ hnamed
  have hword := ((dev.ctx.offset + (lba + ch.pos.toUInt32)) * 512 + ch.len.toUInt32 * 512).toNat_lt
  dsimp only at hlast
  omega

end Requests

/-! ## Registered devices -/

/-- What holds of every device that is registered. -/
structure Registered (dev : BlockDev) : Prop where
  size : dev.sectorSize = 512
  ramdisk : dev.ops = .ram → IsRamdisk dev

theorem mem_blockRegister {P : BlockDev → Prop} {ds : List BlockDev} {d : BlockDev} (hds : ∀ x ∈ ds, P x)
    (hd : P d) : ∀ x ∈ blockRegister ds d, P x := by
  unfold blockRegister
  by_cases hfull : ds.length ≥ blockMaxDevices
  · rw [if_pos hfull]
    exact hds
  rw [if_neg hfull]
  intro x hx
  cases mem_append.mp hx with
  | inl hold => exact hds x hold
  | inr hnew => exact mem_singleton.mp hnew ▸ hd

theorem registered_ramdisk (name : String) (base : UInt64) {size : UInt32} (h : size.toNat + maxRamdiskBytes ≤ 2 ^ 32) :
    Registered (ramdisk name base size) := by
  refine ⟨rfl, fun _ => ⟨rfl, rfl, rfl, rfl, ?_, h⟩⟩
  change (size / 512).toNat = size.toNat / 512
  rw [UInt32.toNat_div]
  rfl

theorem mem_registerModule {copyBase : ℕ} {ds : List BlockDev} {modStart modEnd : UInt32} (hds : ∀ x ∈ ds, Registered x)
    (hsize : modStart < modEnd → (modEnd - modStart).toNat + maxRamdiskBytes ≤ 2 ^ 32) :
    ∀ x ∈ (devRegisterModuleRamdisk copyBase ds modStart modEnd).1, Registered x := by
  unfold devRegisterModuleRamdisk
  by_cases hle : modEnd ≤ modStart
  · rw [if_pos hle]
    exact hds
  rw [if_neg hle]
  by_cases hfull : ds.length ≥ blockMaxDevices
  · rw [if_pos hfull]
    exact hds
  rw [if_neg hfull]
  have hroom := hsize (UInt32.not_le.mp hle)
  exact mem_blockRegister (mem_blockRegister hds (registered_ramdisk _ _ hroom)) (registered_ramdisk _ _ hroom)

theorem mem_registerPartitions {ds : List BlockDev} {disk : BlockDev} {sector : Option Bytes}
    (hds : ∀ x ∈ ds, Registered x) (hsize : disk.sectorSize = 512) (hops : disk.ops ≠ .ram) :
    ∀ x ∈ devRegisterPartitions ds disk none sector, Registered x := by
  cases sector with
  | none => exact hds
  | some b =>
    unfold devRegisterPartitions
    dsimp only
    by_cases hmagic : rd8 b 510 ≠ 0x55 ∨ rd8 b 511 ≠ 0xAA
    · rw [if_pos hmagic]
      exact hds
    rw [if_neg hmagic]
    generalize List.range 4 = entries
    induction entries generalizing ds with
    | nil => exact hds
    | cons i entries ih =>
      rw [foldl_cons]
      apply ih
      by_cases hempty : rd32le b (446 + 16 * i + 12) = 0
      · rw [if_pos hempty]
        exact hds
      · rw [if_neg hempty]
        exact mem_blockRegister hds ⟨hsize, fun hram => absurd hram hops⟩

theorem Boot.Loaded.room {b : Boot} (h : b.Loaded) {m : UInt32 × UInt32} (hm : m ∈ b.modules) (hlt : m.1 < m.2) :
    (m.2 - m.1).toNat + maxRamdiskBytes ≤ 2 ^ 32 := by
  have hle : m.1.toNat < m.2.toNat := UInt32.lt_iff_toNat_lt.mp hlt
  have hword := m.2.toNat_lt
  have hbelow := h.1
  have hapart := h.2 m hm
  rw [UInt32.toNat_sub_of_le _ _ (UInt32.le_of_lt hlt)]
  unfold maxRamdiskBytes at hbelow hapart ⊢
  omega

theorem mem_modules {copyBase : ℕ} {ms : List (UInt32 × UInt32)}
    (hroom : ∀ m ∈ ms, m.1 < m.2 → (m.2 - m.1).toNat + maxRamdiskBytes ≤ 2 ^ 32) :
    ∀ {r : List BlockDev × Bool}, (∀ x ∈ r.1, Registered x) →
      ∀ x ∈ (ms.foldl (fun r m => if r.2 then r else devRegisterModuleRamdisk copyBase r.1 m.1 m.2) r).1, Registered x := by
  induction ms with
  | nil => exact fun hr => hr
  | cons m ms ih =>
    intro r hr
    rw [foldl_cons]
    apply ih fun m' hm' => hroom m' (mem_cons_of_mem _ hm')
    by_cases hdone : r.2 = true
    · rw [if_pos hdone]
      exact hr
    · rw [if_neg hdone]
      exact mem_registerModule hr (hroom m mem_cons_self)

theorem Boot.Loaded.registered {b : Boot} (h : b.Loaded) : ∀ dev ∈ b.devInit, Registered dev := by
  have hmodules := @mem_modules b.copyBase _ (fun m hm hlt => h.room hm hlt) ([], false)
    fun x hx => absurd hx not_mem_nil
  have hdisk : ∀ (sectors : UInt32) (ops : BlockOps), ops ≠ .ram → Registered (diskOf sectors ops) :=
    fun sectors ops hops => ⟨rfl, fun hram => absurd hram hops⟩
  unfold Boot.devInit
  dsimp only
  split_ifs
  · exact hmodules
  · cases b.ahci with
    | some sectors =>
      exact mem_registerPartitions (mem_blockRegister hmodules (hdisk sectors .ahci (by decide))) rfl
        (by decide : BlockOps.ahci ≠ .ram)
    | none =>
      cases b.ata with
      | some sectors =>
        exact mem_registerPartitions (mem_blockRegister hmodules (hdisk sectors .ata (by decide))) rfl
          (by decide : BlockOps.ata ≠ .ram)
      | none => exact hmodules

/-- Exactly the requests in range stay inside their device, whatever the drive does. -/
theorem inRange_iff {b : Boot} {dev : BlockDev} (hreg : Registered dev) (lba count : UInt32) :
    (∀ drive, Contained dev (b.behind dev) lba count (dev.transfer (b.behind dev) drive lba count)) ↔
      SectorsReached dev (b.behind dev) lba count := by
  have hsize : dev.sectorSize ≠ 0 := by
    rw [hreg.size]
    decide
  unfold SectorsReached
  by_cases hcount : count = 0
  · rw [hcount]
    exact ⟨fun _ => Or.inl rfl, fun _ drive => contained_empty hsize⟩
  rw [or_iff_right hcount]
  cases hops : dev.ops with
  | ram =>
    have hram := hreg.ramdisk hops
    have hbehind : b.behind dev = dev.ctx.size.toNat / 512 := by
      unfold Boot.behind
      rw [hops]
    rw [hbehind]
    exact ⟨fun h => hram.of_contained hcount (h singles), fun h drive => hram.contained h⟩
  | ahci =>
    exact ⟨fun h => inReach_of_contained (singles_ahci hops) hsize hcount (h singles),
      fun h drive => ahci_contained hops hreg.size h⟩
  | ata =>
    exact ⟨fun h => ⟨inReach_of_contained (singles_ata hops) hsize hcount (h singles),
      halves_of_contained hops hsize hcount (h singles)⟩, fun h drive => ata_contained hops hreg.size h.1 h.2⟩

/-- A request of its own sectors moves the caller's bytes and those of the ram disk if their memory is mapped to
itself. -/
theorem isolated_of_contained {dev : BlockDev} {phys : UInt64 → UInt64} {buf : UInt64} {capacity : ℕ}
    {lba count : UInt32} {o : RequestOutcome} (h : Contained dev capacity lba count o)
    (hself : SelfMapped dev phys buf capacity lba count) : Isolated dev phys buf capacity lba count o := by
  refine ⟨h, fun c hc m hm k hk => ?_, fun hops c hc m hm k hk => ?_⟩
  · obtain ⟨-, -, hon, i, hi, rfl⟩ := h.within c hc m hm
    have hbyte := hself i hi hon k hk
    unfold BlockDev.bufferByte
    cases hops : dev.ops with
    | ram => rfl
    | ahci =>
      rw [hops] at hbyte
      exact hbyte.symm
    | ata => rfl
  · obtain ⟨-, -, hon, i, hi, rfl⟩ := h.within c hc m hm
    have hbyte := hself i hi hon k hk
    rw [hops] at hbyte
    exact hbyte

/-- Exactly the sound requests to a registered device stay inside it and use the buffer of their caller, whatever the
drive does. -/
theorem requests_contained_iff (b : Boot) (hloaded : b.Loaded) (dev : BlockDev) (hdev : dev ∈ b.devInit)
    (phys : UInt64 → UInt64) (buf : UInt64) (lba count : UInt32) :
    (∀ drive, Isolated dev phys buf (b.behind dev) lba count (dev.request buf (b.behind dev) drive lba count)) ↔
      Sound dev phys buf (b.behind dev) lba count := by
  have hreg := hloaded.registered dev hdev
  have hsize : dev.sectorSize ≠ 0 := by
    rw [hreg.size]
    decide
  have hrange := @inRange_iff b dev hreg lba count
  unfold Sound BlockDev.request
  by_cases hbuf : buf = 0
  · simp only [if_pos hbuf]
    exact iff_of_true (fun _ => ⟨⟨fun c hc => absurd hc not_mem_nil, fun c hc => absurd hc not_mem_nil, fun _ _ => rfl,
      fun hok => (by cases hok)⟩, fun c hc => absurd hc not_mem_nil, fun _ c hc => absurd hc not_mem_nil⟩) (.inl hbuf)
  simp only [if_neg hbuf]
  rw [or_iff_right hbuf]
  constructor
  · intro h
    have hin := hrange.mp fun drive => (h drive).toContained
    refine ⟨hin, fun i hi hon k hk => ?_⟩
    obtain ⟨hcont, hbuffer, hmedia⟩ := h singles
    cases hops : dev.ops with
    | ram =>
      obtain ⟨c, hc, hmem⟩ := (hreg.ramdisk hops).moves hcont hi (by
        have hbehind : b.behind dev = dev.ctx.size.toNat / 512 := by
          unfold Boot.behind
          rw [hops]
        exact hbehind ▸ hon)
      exact hmedia hops c hc _ hmem k hk
    | ahci =>
      obtain ⟨c, hc, hmem⟩ := single_moves (singles_ahci hops) hsize hcont hi hon
      have hbyte := hbuffer c hc _ hmem k hk
      unfold BlockDev.bufferByte at hbyte
      rw [hops] at hbyte
      exact hbyte.symm
    | ata => trivial
  · rintro ⟨hin, hself⟩ drive
    exact isolated_of_contained (hrange.mpr hin drive) hself

/-- A disk of 2000 sectors whose first partition has the 50 sectors from 100 on. -/
def twoThousand : Boot where
  modules := []
  copyBase := 0x200000
  ahci := some 2000
  ata := none
  mbr := some (List.replicate 454 0 ++ [100, 0, 0, 0, 50, 0, 0, 0] ++ List.replicate 48 0 ++ [0x55, 0xAA])
  capacity := 2000

def sda1 : BlockDev where
  name := "sda1"
  sectorSize := 512
  sectorCount := 50
  startLba := 100
  ops := .ahci

theorem sda1_contained :
    Isolated sda1 id 0x9000 2000 10 20 (sda1.request 0x9000 2000 (fun _ _ => ⟨true, 0⟩) 10 20) :=
  (requests_contained_iff twoThousand ⟨by decide, fun m hm => absurd hm List.not_mem_nil⟩ sda1 (by decide +kernel)
    id 0x9000 10 20).mpr (.inr ⟨.inr ⟨Or.inl (by decide), by decide, by decide⟩, fun _ _ _ _ _ => rfl⟩) _

/-- Reading sector 60 of the partition reads sector 160 of the disk and succeeds. -/
theorem sda1_escapes : ¬∀ b : Boot, b.Loaded → ∀ dev ∈ b.devInit, ∀ phys buf lba count drive,
    Isolated dev phys buf (b.behind dev) lba count (dev.request buf (b.behind dev) drive lba count) := by
  intro h
  have hall := (h twoThousand ⟨by decide, fun m hm => absurd hm List.not_mem_nil⟩ sda1 (by decide +kernel) id 0x9000
    60 1 fun _ _ => ⟨true, 0⟩).toContained
  have hmem : ⟨0, 1, sda1.callAt 2000 (fun _ _ => ⟨true, 0⟩) 60 0 1⟩ ∈
      (sda1.transfer 2000 (fun _ _ => ⟨true, 0⟩) 60 1).calls := by
    rw [transfer_calls (by decide) (by decide)]
    obtain ⟨ch, hch, hpos, hlen⟩ := batches_head
      (fun pos len => (sda1.callAt 2000 (fun _ _ => ⟨true, 0⟩) 60 pos len).ok) 1 0 blockBatchMaxSectors
      (by decide) (by decide)
    have hone : ch.len = 1 := hlen
    apply List.mem_map.mpr
    exact ⟨ch, hch, by rw [hpos, hone]⟩
  obtain ⟨-, hbelow, -⟩ := hall.within _ hmem (160, 0) (by decide)
  exact absurd hbelow (by decide)

end EdgeOS
