import EdgeOS.BlockDevices
import Mathlib.Data.List.Range

namespace EdgeOS

open Lib List

/-!
`block_read_sectors` and `block_write_sectors` of `src/block/block.c` for any device, against the transfer of one
sector after the other.
-/

/-- A `block_device_t` that has sectors. -/
structure SectorDevice where
  sectorSize : UInt32
  sized : sectorSize ≠ 0

/-- How the operations of a device answer, in any pattern: whether the call on `len` sectors of a request from the one
at `pos` on returns 0, and what a call that does not leaves. A call is never made twice. -/
structure SectorAnswers (σ : Type) where
  ok : ℕ → ℕ → Bool
  spoil : ℕ → ℕ → σ → σ

/-- What a request leaves, its calls, and whether it returns 0. -/
structure SectorOutcome (σ : Type) where
  state : σ
  calls : List Chunk
  ok : Bool

namespace SectorDevice

variable {σ : Type} (dev : SectorDevice)

/-- The first sector and the place in the buffer of the call from `pos` on: `lba + done` and
`done * dev->sector_size`, in 32 bits. -/
def callSector (lba : UInt32) (pos : ℕ) : ℕ := (lba + pos.toUInt32).toNat
def callPlace (pos : ℕ) : ℕ := (pos.toUInt32 * dev.sectorSize).toNat

/-- A call: `move` moves one sector to or from its place in the buffer. -/
def runCall (move : σ → ℕ → ℕ → σ) (ans : SectorAnswers σ) (lba : UInt32) (st : σ) (ch : Chunk) : σ :=
  if ch.ok then
    (List.range ch.len).foldl
      (fun st j => move st (callSector lba ch.pos + j) (dev.callPlace ch.pos + j * dev.sectorSize.toNat)) st
  else ans.spoil ch.pos ch.len st

def transfer (move : σ → ℕ → ℕ → σ) (ans : SectorAnswers σ) (lba count : UInt32) (st : σ) : SectorOutcome σ :=
  if dev.sectorSize = 0 then ⟨st, [], false⟩
  else if count = 0 then ⟨st, [], true⟩
  else
    let r := batches ans.ok count.toNat 0 blockBatchMaxSectors blockBatchMaxSectors_pos
    ⟨r.1.foldl (dev.runCall move ans lba) st, r.1, r.2⟩

def readMove (disk : ℕ → ℕ → UInt8) (buf : ℕ → UInt8) (sector off : ℕ) : ℕ → UInt8 :=
  fun x => if off ≤ x ∧ x < off + dev.sectorSize.toNat then disk sector (x - off) else buf x

def writeMove (buf : ℕ → UInt8) (disk : ℕ → ℕ → UInt8) (sector off : ℕ) : ℕ → ℕ → UInt8 :=
  fun s j => if s = sector ∧ j < dev.sectorSize.toNat then buf (off + j) else disk s j

/-- `block_read_sectors`; the state is the buffer. -/
def blockReadSectors (disk : ℕ → ℕ → UInt8) (ans : SectorAnswers (ℕ → UInt8)) (lba count : UInt32)
    (buf : ℕ → UInt8) : SectorOutcome (ℕ → UInt8) := dev.transfer (dev.readMove disk) ans lba count buf

/-- `block_write_sectors`; the state is the disk. -/
def blockWriteSectors (buf : ℕ → UInt8) (ans : SectorAnswers (ℕ → ℕ → UInt8)) (lba count : UInt32)
    (disk : ℕ → ℕ → UInt8) : SectorOutcome (ℕ → ℕ → UInt8) := dev.transfer (dev.writeMove buf) ans lba count disk

/-! ## The law -/

/-- A call that fails leaves the rest of the buffer, and the rest of the disk, as it is. -/
def ReadsApart (ans : SectorAnswers (ℕ → UInt8)) : Prop :=
  ∀ pos len buf x, x < dev.callPlace pos ∨ dev.callPlace pos + len * dev.sectorSize.toNat ≤ x →
    ans.spoil pos len buf x = buf x

def WritesApart (ans : SectorAnswers (ℕ → ℕ → UInt8)) (lba : UInt32) : Prop :=
  ∀ pos len disk s j, s < callSector lba pos ∨ callSector lba pos + len ≤ s ∨ dev.sectorSize.toNat ≤ j →
    ans.spoil pos len disk s j = disk s j

/-- The sectors from `pos` on, one after the other, each with its own place. -/
def oneByOne (move : σ → ℕ → ℕ → σ) (lba : UInt32) (pos n : ℕ) (st : σ) : σ :=
  (List.range' pos n).foldl (fun st i => move st (lba.toNat + i) (i * dev.sectorSize.toNat)) st

/-- The call transfers sector `i` of the request with its own data. -/
def Moves (lba : UInt32) (ch : Chunk) (i : ℕ) : Prop :=
  ch.ok = true ∧ ch.pos ≤ i ∧ i < ch.pos + ch.len ∧ callSector lba ch.pos + (i - ch.pos) = lba.toNat + i ∧
    dev.callPlace ch.pos + (i - ch.pos) * dev.sectorSize.toNat = i * dev.sectorSize.toNat

/-- It returns 0 when every sector was transferred with its own data, and only then; it gives up after a call on one
sector; and a request that returns 0 is that of its sectors one at a time. -/
structure Exact (move : σ → ℕ → ℕ → σ) (lba count : UInt32) (st : σ) (o : SectorOutcome σ) : Prop where
  ok_iff : o.ok = true ↔ ∀ i < count.toNat, ∃ ch ∈ o.calls, dev.Moves lba ch i
  fails : o.ok = false → ∃ ch ∈ o.calls, ch.ok = false ∧ ch.len = 1
  state : o.ok = true → o.state = dev.oneByOne move lba 0 count.toNat st

/-- The last sector of the request and its place in the buffer have 32 bits. -/
def NoWrap (lba count : UInt32) : Prop :=
  count = 0 ∨ lba.toNat + (count.toNat - 1) < 2 ^ 32 ∧ (count.toNat - 1) * dev.sectorSize.toNat < 2 ^ 32

variable {dev} {move : σ → ℕ → ℕ → σ} {ans : SectorAnswers σ} {lba count : UInt32} {pos len n : ℕ} {st : σ}

theorem sectorSize_pos (dev : SectorDevice) : 0 < dev.sectorSize.toNat :=
  Nat.pos_of_ne_zero fun hzero => dev.sized (UInt32.toNat_inj.mp hzero)

/-- Without a wrap, a call starts at its own sector and place. -/
theorem NoWrap.call (h : dev.NoWrap lba count) (hpos : pos < count.toNat) :
    callSector lba pos = lba.toNat + pos ∧ dev.callPlace pos = pos * dev.sectorSize.toNat := by
  have hcount : count.toNat < 2 ^ 32 := count.toNat_lt
  have hlt : pos.toUInt32.toNat = pos := toNat_toUInt32 (by omega)
  rcases h with rfl | ⟨hsector, hplace⟩
  · exact absurd hpos (Nat.not_lt_zero _)
  unfold callSector callPlace
  rw [UInt32.toNat_add, UInt32.toNat_mul, hlt]
  have hle : pos * dev.sectorSize.toNat ≤ (count.toNat - 1) * dev.sectorSize.toNat :=
    Nat.mul_le_mul_right _ (by omega)
  exact ⟨Nat.mod_eq_of_lt (by omega), Nat.mod_eq_of_lt (by omega)⟩

theorem NoWrap.moves (h : dev.NoWrap lba count) {ch : Chunk} (hok : ch.ok = true) {i : ℕ} (hpos : ch.pos ≤ i)
    (hi : i < ch.pos + ch.len) (hlt : i < count.toNat) : dev.Moves lba ch i := by
  obtain ⟨hsector, hplace⟩ := h.call (Nat.lt_of_le_of_lt hpos hlt)
  refine ⟨hok, hpos, hi, by omega, ?_⟩
  rw [hplace, ← Nat.add_mul, Nat.add_sub_cancel' hpos]

/-- A call that goes through does for its sectors what each would do. -/
theorem NoWrap.runCall (h : dev.NoWrap lba count) (hpos : pos < count.toNat) :
    dev.runCall move ans lba st ⟨pos, len, true⟩ = dev.oneByOne move lba pos len st := by
  obtain ⟨hsector, hplace⟩ := h.call hpos
  unfold SectorDevice.runCall oneByOne
  rw [if_pos rfl, List.range'_eq_map_range, foldl_map, hsector, hplace]
  congr 1
  funext st j
  rw [Nat.add_assoc, Nat.add_mul]

theorem exact_of_noWrap (h : dev.NoWrap lba count) (hfail : ∀ st pos len, pos < count.toNat → pos + len ≤ count.toNat →
      dev.oneByOne move lba pos (count.toNat - pos) (ans.spoil pos len st) =
        dev.oneByOne move lba pos (count.toNat - pos) st) (st : σ) :
    dev.Exact move lba count st (dev.transfer move ans lba count st) := by
  unfold transfer
  rw [if_neg dev.sized]
  by_cases hcount : count = 0
  · rw [if_pos hcount]
    subst hcount
    exact ⟨iff_of_true rfl fun i hi => absurd hi (Nat.not_lt_zero i), fun hf => absurd hf Bool.noConfusion, fun _ => rfl⟩
  rw [if_neg hcount]
  dsimp only
  constructor
  · constructor
    · intro hok i hi
      obtain ⟨ch, hch, hchok, hpos, hin⟩ := batches_covers 0 _ (by decide) hok (Nat.zero_le i) hi
      exact ⟨ch, hch, h.moves hchok hpos hin hi⟩
    · intro hall
      by_contra hne
      obtain ⟨last, -, -, -, -, hlast, hbefore⟩ := batches_fails 0 _ (by decide) (Bool.eq_false_iff.mpr hne)
      obtain ⟨ch, hch, hok, -, hin, -⟩ := hall last.pos hlast
      exact absurd (hbefore ch hch hok) (by omega)
  · intro hf
    obtain ⟨last, hmem, hlastok, hone, -⟩ := batches_fails 0 _ (by decide) hf
    exact ⟨last, hmem, hlastok, hone⟩
  · intro hok
    exact batches_state _ (dev.runCall move ans lba) (fun st pos len hpos _ => h.runCall hpos) hfail 0 _ (by decide) hok st

/-! ## Reading and writing -/

theorem oneByOne_read (disk : ℕ → ℕ → UInt8) (lba : UInt32) (pos n : ℕ) (buf : ℕ → UInt8) (x : ℕ) :
    dev.oneByOne (dev.readMove disk) lba pos n buf x =
      if pos * dev.sectorSize.toNat ≤ x ∧ x < (pos + n) * dev.sectorSize.toNat then
        disk (lba.toNat + x / dev.sectorSize.toNat) (x % dev.sectorSize.toNat)
      else buf x := by
  have hsize := dev.sectorSize_pos
  generalize hss : dev.sectorSize.toNat = ss at hsize ⊢
  induction n with
  | zero =>
    rw [if_neg (by rw [Nat.add_zero]; omega)]
    rfl
  | succ n ih =>
    have hnext : (pos + (n + 1)) * ss = (pos + n) * ss + ss := by rw [← Nat.add_assoc, Nat.succ_mul]
    have hle : pos * ss ≤ (pos + n) * ss := Nat.mul_le_mul_right _ (Nat.le_add_right _ _)
    unfold oneByOne at ih ⊢
    rw [List.range'_1_concat, foldl_append, foldl_cons, foldl_nil]
    unfold readMove at ih ⊢
    rw [ih, hnext, hss]
    by_cases hlast : (pos + n) * ss ≤ x ∧ x < (pos + n) * ss + ss
    · have hdiv : x / ss = pos + n := Nat.div_eq_of_lt_le hlast.1 (by rw [Nat.succ_mul]; exact hlast.2)
      have hmod : x % ss = x - (pos + n) * ss := by
        rw [Nat.mod_eq_sub_mul_div, hdiv, Nat.mul_comm]
      rw [if_pos hlast, if_pos (by omega), hdiv, hmod]
    · rw [if_neg hlast]
      exact if_congr (by omega) rfl rfl

theorem oneByOne_write (buf : ℕ → UInt8) (lba : UInt32) (pos n : ℕ) (disk : ℕ → ℕ → UInt8) (s j : ℕ) :
    dev.oneByOne (dev.writeMove buf) lba pos n disk s j =
      if lba.toNat + pos ≤ s ∧ s < lba.toNat + (pos + n) ∧ j < dev.sectorSize.toNat then
        buf ((s - lba.toNat) * dev.sectorSize.toNat + j)
      else disk s j := by
  induction n with
  | zero =>
    rw [if_neg (by omega)]
    rfl
  | succ n ih =>
    unfold oneByOne at ih ⊢
    rw [List.range'_1_concat, foldl_append, foldl_cons, foldl_nil]
    unfold writeMove at ih ⊢
    rw [ih]
    by_cases hlast : s = lba.toNat + (pos + n) ∧ j < dev.sectorSize.toNat
    · rw [if_pos hlast, if_pos (by omega), hlast.1, Nat.add_sub_cancel_left]
    · rw [if_neg hlast]
      exact if_congr (by omega) rfl rfl

theorem blockReadSectors_exact (h : dev.NoWrap lba count) (disk : ℕ → ℕ → UInt8)
    {ans : SectorAnswers (ℕ → UInt8)} (hans : dev.ReadsApart ans) (buf : ℕ → UInt8) :
    dev.Exact (dev.readMove disk) lba count buf (dev.blockReadSectors disk ans lba count buf) := by
  refine exact_of_noWrap h (fun st pos len hpos hlen => ?_) buf
  funext x
  rw [oneByOne_read, oneByOne_read]
  split
  · rfl
  rename_i hout
  have hend := Nat.mul_le_mul_right dev.sectorSize.toNat hlen
  rw [Nat.add_sub_cancel' (le_of_lt hpos)] at hout
  rw [Nat.add_mul] at hend
  apply hans pos len st x
  rw [(h.call hpos).2]
  omega

theorem blockWriteSectors_exact (h : dev.NoWrap lba count) (buf : ℕ → UInt8)
    {ans : SectorAnswers (ℕ → ℕ → UInt8)} (hans : dev.WritesApart ans lba) (disk : ℕ → ℕ → UInt8) :
    dev.Exact (dev.writeMove buf) lba count disk (dev.blockWriteSectors buf ans lba count disk) := by
  refine exact_of_noWrap h (fun st pos len hpos hlen => ?_) disk
  funext s j
  rw [oneByOne_write, oneByOne_write]
  split
  · rfl
  rename_i hout
  apply hans pos len st s j
  rw [(h.call hpos).1]
  omega

/-! ## Wraps -/

def single (σ : Type) : SectorAnswers σ := ⟨fun _ len => len = 1, fun _ _ st => st⟩

/-- It takes every sector of a request, and so the last one comes from a wrong place when that does not have 32
bits. -/
theorem noWrap_of_single (h : dev.Exact move lba count st (dev.transfer move (single σ) lba count st)) :
    dev.NoWrap lba count := by
  by_cases hcount : count = 0
  · exact .inl hcount
  refine .inr ?_
  have hpositive := count_pos hcount
  have hlt : (count.toNat - 1).toUInt32.toNat = count.toNat - 1 := toNat_toUInt32 (by have := count.toNat_lt; omega)
  unfold transfer at h
  rw [if_neg dev.sized, if_neg hcount] at h
  dsimp only at h
  have hinv := @batches_inv (single σ).ok count.toNat (fun _ _ => True)
    (fun _ _ _ _ _ _ => trivial) (fun _ _ _ _ _ _ => trivial) 0 blockBatchMaxSectors blockBatchMaxSectors_pos trivial
  have hok : (batches (single σ).ok count.toNat 0 blockBatchMaxSectors blockBatchMaxSectors_pos).2 = true := by
    by_contra hne
    obtain ⟨last, hmem, hfail, hone, -⟩ := batches_fails 0 _ (by decide) (Bool.eq_false_iff.mpr hne)
    have hans := (hinv last hmem).2.1
    rw [hfail, hone] at hans
    exact Bool.noConfusion hans
  obtain ⟨ch, hmem, hchok, hpos, hin, hsector, hplace⟩ := h.ok_iff.mp hok (count.toNat - 1) (by omega)
  have hone : ch.len = 1 := by
    have hans := (hinv ch hmem).2.1
    rw [hchok] at hans
    exact of_decide_eq_true hans.symm
  have hlast : ch.pos = count.toNat - 1 := by omega
  rw [hlast, Nat.sub_self, Nat.add_zero] at hsector
  rw [hlast, Nat.sub_self, Nat.zero_mul, Nat.add_zero] at hplace
  exact ⟨hsector ▸ UInt32.toNat_lt _, hplace ▸ UInt32.toNat_lt _⟩

/-- Whatever the device answers, a request is that of its sectors one at a time, exactly when the number of its last
sector and the place of that in the buffer have 32 bits. -/
theorem sector_batches_exact (dev : SectorDevice) (lba count : UInt32) : ((∀ disk ans buf, dev.ReadsApart ans →
        dev.Exact (dev.readMove disk) lba count buf (dev.blockReadSectors disk ans lba count buf)) ↔
      dev.NoWrap lba count) ∧
    ((∀ buf ans disk, dev.WritesApart ans lba →
        dev.Exact (dev.writeMove buf) lba count disk (dev.blockWriteSectors buf ans lba count disk)) ↔
      dev.NoWrap lba count) := by
  refine ⟨⟨fun h => ?_, fun h disk ans buf hans => blockReadSectors_exact h disk hans buf⟩,
    ⟨fun h => ?_, fun h buf ans disk hans => blockWriteSectors_exact h buf hans disk⟩⟩
  · exact noWrap_of_single (h (fun _ _ => 0) (single _) (fun _ => 0) fun _ _ _ _ _ => rfl)
  · exact noWrap_of_single (h (fun _ => 0) (single _) (fun _ _ => 0) fun _ _ _ _ _ _ => rfl)

/-- Sectors of 512 bytes, and one more than fit into 2^32 bytes: the last one is read over the first. -/
theorem sector_batches_wrap : ¬ ∀ disk ans buf, (⟨512, by decide⟩ : SectorDevice).ReadsApart ans →
    (⟨512, by decide⟩ : SectorDevice).Exact ((⟨512, by decide⟩ : SectorDevice).readMove disk) 0 8388609 buf
      ((⟨512, by decide⟩ : SectorDevice).blockReadSectors disk ans 0 8388609 buf) := by
  intro h
  have hwrap := noWrap_of_single (h (fun _ _ => 0) (single _) (fun _ => 0) fun _ _ _ _ _ => rfl)
  revert hwrap
  unfold NoWrap
  decide

end SectorDevice

end EdgeOS
