import Mathlib.Data.List.TakeWhile
import EdgeOS.Buffer

namespace EdgeOS

/-!
Devices that are written, sector by sector, and the blocks of a file system on them.
-/

open List

/-- A `block_device_t` with its contents. `works` says which sectors are there and can be accessed. -/
structure Disk where
  sectorSize : UInt32
  works : UInt32 → Bool
  data : UInt32 → ℕ → UInt8

namespace Disk

def sectorBytes (d : Disk) (lba : UInt32) : Bytes := (List.range d.sectorSize.toNat).map (d.data lba)

def device (d : Disk) : BlockDevice where
  sectorSize := d.sectorSize
  sector lba := if d.works lba then some (d.sectorBytes lba) else none

/-! ## Blocks that are there -/

/-- The first `n` blocks of `blockSize` bytes are on the device, and all of their sectors work. -/
structure Holds (d : Disk) (blockSize : UInt32) (n : ℕ) : Prop where
  sector_pos : 0 < d.sectorSize.toNat
  per_pos : 0 < (blockSize / d.sectorSize).toNat
  aligned : blockSize.toNat = (blockSize / d.sectorSize).toNat * d.sectorSize.toNat
  fits : n * (blockSize / d.sectorSize).toNat ≤ 2 ^ 32
  works : ∀ s : UInt32, s.toNat < n * (blockSize / d.sectorSize).toNat → d.works s = true

def byteAt (d : Disk) (a : ℕ) : UInt8 :=
  d.data (a / d.sectorSize.toNat).toUInt32 (a % d.sectorSize.toNat)

def block (d : Disk) (blockSize : UInt32) (b : ℕ) : Bytes :=
  (List.range blockSize.toNat).map fun i => d.byteAt (b * blockSize.toNat + i)

section Blocks

variable {d : Disk} {blockSize : UInt32} {n : ℕ}

theorem flatten_range {α : Type} (f : ℕ → ℕ → α) (k m : ℕ) (hm : 0 < m) :
    ((List.range k).map fun i => (List.range m).map (f i)).flatten =
      (List.range (k * m)).map fun j => f (j / m) (j % m) := by
  induction k with
  | zero => rw [Nat.zero_mul]; rfl
  | succ k ih =>
    rw [range_succ, map_append, flatten_append, ih, Nat.succ_mul, range_add, map_append]
    congr 1
    rw [map_singleton, flatten_singleton, map_map]
    apply map_congr_left
    intro j hj
    have hj := mem_range.mp hj
    change f k j = f ((k * m + j) / m) ((k * m + j) % m)
    rw [Nat.mul_comm k m, Nat.mul_add_div hm, Nat.mul_add_mod, Nat.div_eq_of_lt hj, Nat.mod_eq_of_lt hj, Nat.add_zero]

theorem first_sector (h : d.Holds blockSize n) {b : UInt32} (hb : b.toNat < n) :
    (b * (blockSize / d.sectorSize)).toNat = b.toNat * (blockSize / d.sectorSize).toNat ∧
      b.toNat * (blockSize / d.sectorSize).toNat + (blockSize / d.sectorSize).toNat ≤
        n * (blockSize / d.sectorSize).toNat := by
  have hle : (b.toNat + 1) * (blockSize / d.sectorSize).toNat ≤ n * (blockSize / d.sectorSize).toNat :=
    Nat.mul_le_mul_right _ hb
  rw [Nat.add_one_mul] at hle
  have hfits := h.fits
  have hpos := h.per_pos
  refine ⟨?_, hle⟩
  rw [UInt32.toNat_mul]
  apply Nat.mod_eq_of_lt
  omega

theorem mapM_some {α β : Type} {f : α → Option β} {g : α → β} :
    ∀ {l : List α}, (∀ a ∈ l, f a = some (g a)) → l.mapM f = some (l.map g) := by
  intro l
  induction l with
  | nil => exact fun _ => rfl
  | cons a l ih =>
    intro h
    rw [mapM_cons, h a mem_cons_self, ih fun a' ha' => h a' (mem_cons_of_mem a ha')]
    rfl

theorem readBlock_eq (h : d.Holds blockSize n) {b : UInt32} (hb : b.toNat < n) :
    d.device.readBlock blockSize b = some (d.block blockSize b.toNat) := by
  obtain ⟨hlba, hend⟩ := first_sector h hb
  have hss := h.sector_pos
  have hper := h.per_pos
  have hfits := h.fits
  have hsize : d.sectorSize ≠ 0 := fun hzero => by rw [hzero] at hss; exact absurd hss (by decide)
  have hcnt : blockSize / d.sectorSize ≠ 0 := fun hzero => by rw [hzero] at hper; exact absurd hper (by decide)
  have hsector : ∀ i ∈ List.range (blockSize / d.sectorSize).toNat,
      d.device.sector (b * (blockSize / d.sectorSize) + i.toUInt32) = some ((List.range d.sectorSize.toNat).map
          (d.data (b.toNat * (blockSize / d.sectorSize).toNat + i).toUInt32)) := by
    intro i hi
    have hi := mem_range.mp hi
    have hlbai : b * (blockSize / d.sectorSize) + i.toUInt32 =
        (b.toNat * (blockSize / d.sectorSize).toNat + i).toUInt32 := by
      apply UInt32.toNat_inj.mp
      rw [UInt32.toNat_add, hlba, Nat.toUInt32_eq, Nat.toUInt32_eq, UInt32.toNat_ofNat', UInt32.toNat_ofNat']
      omega
    have hworks : d.works (b.toNat * (blockSize / d.sectorSize).toNat + i).toUInt32 = true := by
      apply h.works
      rw [Nat.toUInt32_eq, UInt32.toNat_ofNat']
      omega
    rw [hlbai]
    exact if_pos hworks
  have hdevice : d.device.sectorSize = d.sectorSize := rfl
  unfold BlockDevice.readBlock
  rw [hdevice, if_neg hsize]
  dsimp only
  rw [if_neg hcnt]
  unfold BlockDevice.readSectors
  rw [mapM_some hsector, Option.map_some, flatten_range _ _ _ hss, ← h.aligned]
  congr 1
  apply map_congr_left
  intro i hi
  unfold byteAt
  have hsplit : b.toNat * blockSize.toNat + i =
      d.sectorSize.toNat * (b.toNat * (blockSize / d.sectorSize).toNat) + i := by
    rw [h.aligned, Nat.mul_comm d.sectorSize.toNat, Nat.mul_assoc]
  rw [hsplit, Nat.mul_add_div hss, Nat.mul_add_mod]

def superSectors (d : Disk) : Bytes := d.sectorBytes 2 ++ d.sectorBytes 3

theorem readSuper_eq (h2 : d.works 2 = true) (h3 : d.works 3 = true) :
    d.device.readSectors 2 2 = some d.superSectors := by
  unfold BlockDevice.readSectors device superSectors
  rw [show List.range (2 : UInt32).toNat = [0, 1] from rfl, mapM_cons, mapM_cons, mapM_nil]
  dsimp only
  rw [show (2 : UInt32) + Nat.toUInt32 0 = 2 from rfl, show (2 : UInt32) + Nat.toUInt32 1 = 3 from rfl, if_pos h2,
    if_pos h3]
  exact congrArg some (congrArg (d.sectorBytes 2 ++ ·) (append_nil _))

end Blocks

end Disk

end EdgeOS
