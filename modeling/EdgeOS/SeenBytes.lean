import EdgeOS.FileReads
import EdgeOS.MountedExt4

namespace EdgeOS

/-!
`ext4_read` of any inode, byte by byte: every byte comes from the block that the map gives for its position.
-/

open List
open UInt32 (toNat_div toNat_mod toNat_add toNat_ofNat')

namespace Disk

variable {d : Disk} {blockSize : UInt32}

theorem length_readSectors {lba count : UInt32} {bs : Bytes} (h : d.device.readSectors lba count = some bs) :
    bs.length = count.toNat * d.sectorSize.toNat := by
  have hsectors : ∀ (is : List ℕ) {xss : List Bytes}, is.mapM (fun i => d.device.sector (lba + i.toUInt32)) = some xss →
      xss.flatten.length = is.length * d.sectorSize.toNat := by
    intro is
    induction is with
    | nil =>
      intro xss hnil
      rw [← Option.some.inj hnil, length_nil, Nat.zero_mul]
      rfl
    | cons i is ih =>
      intro xss hcons
      rw [mapM_cons] at hcons
      obtain ⟨xs, hxs, hrest⟩ := Option.bind_eq_some_iff.mp hcons
      obtain ⟨yss, hyss, heq⟩ := Option.bind_eq_some_iff.mp hrest
      have hlen : xs.length = d.sectorSize.toNat := by
        change (if d.works (lba + i.toUInt32) then some (d.sectorBytes (lba + i.toUInt32)) else none) = some xs at hxs
        obtain ⟨-, hbytes⟩ := Option.ite_none_right_eq_some.mp hxs
        rw [← Option.some.inj hbytes]
        unfold sectorBytes
        rw [length_map, length_range]
      rw [← Option.some.inj heq, flatten_cons, length_append, ih hyss, hlen, length_cons, Nat.succ_mul, Nat.add_comm]
  obtain ⟨xss, hxss, heq⟩ := Option.map_eq_some_iff.mp h
  rw [← heq, hsectors _ hxss, length_range]

theorem length_readBlock (hdvd : d.sectorSize.toNat ∣ blockSize.toNat) {b : UInt32} {bs : Bytes}
    (h : d.device.readBlock blockSize b = some bs) : bs.length = blockSize.toNat := by
  unfold BlockDevice.readBlock at h
  obtain ⟨-, h⟩ := Option.ite_none_left_eq_some.mp h
  obtain ⟨-, h⟩ := Option.ite_none_left_eq_some.mp h
  have hlen := length_readSectors h
  change bs.length = (blockSize / d.sectorSize).toNat * d.sectorSize.toNat at hlen
  rw [hlen, toNat_div, Nat.div_mul_cancel hdvd]

end Disk

namespace Ext4State

variable (s : Ext4State)

/-- The byte that `ext4_read` stores for a position, if the block of the position is a hole or can be read. -/
def seenByte (inode : ExtInode) (pos : UInt32) : Option UInt8 :=
  match s.fs.mapFindPhys inode (pos / s.blockSize) with
  | none => some 0
  | some phys => if phys = 0 then some 0 else (s.fs.readBlock phys).map fun io => rd8 io (pos % s.blockSize).toNat

variable {s : Ext4State} {inode : ExtInode}

theorem add_in_block {B pos : UInt32} {i : ℕ} (hsmall : pos.toNat + i < 2 ^ 32) (hi : (pos % B).toNat + i < B.toNat) :
    (pos + i.toUInt32) / B = pos / B ∧ ((pos + i.toUInt32) % B).toNat = (pos % B).toNat + i := by
  rw [toNat_mod] at hi ⊢
  have hsum : (pos + i.toUInt32).toNat = pos.toNat + i := by
    rw [toNat_add, Nat.toUInt32_eq, toNat_ofNat', Nat.add_mod_mod, Nat.mod_eq_of_lt hsmall]
  have hB : 0 < B.toNat := by omega
  have hsplit := Nat.div_add_mod pos.toNat B.toNat
  constructor
  · apply UInt32.toNat_inj.mp
    rw [toNat_div, toNat_div, hsum]
    conv_lhs => rw [← hsplit]
    rw [Nat.add_assoc, Nat.mul_add_div hB, Nat.div_eq_of_lt hi, Nat.add_zero]
  · rw [toNat_mod, hsum]
    conv_lhs => rw [← hsplit]
    rw [Nat.add_assoc, Nat.mul_add_mod, Nat.mod_eq_of_lt hi]

theorem readLoop_seen (hdvd : s.disk.sectorSize.toNat ∣ s.blockSize.toNat) (hB : 0 < s.blockSize.toNat) {off : UInt32}
    {len : ℕ} (hend : off.toNat + len ≤ 2 ^ 32) {f : ℕ → UInt8}
    (hseen : ∀ i < len, s.seenByte inode (off + i.toUInt32) = some (f i)) (fuel d : ℕ) (hd : d ≤ len)
    (hfuel : len ≤ d + fuel) : s.readLoop inode off len fuel ((List.range d).map f) = (List.range len).map f := by
  induction fuel generalizing d with
  | zero =>
    rw [show d = len by omega]
    rfl
  | succ fuel ih =>
    unfold Ext4State.readLoop
    rw [length_map, length_range]
    by_cases hlt : d < len
    swap
    · rw [if_neg hlt, show d = len by omega]
    rw [if_pos hlt]
    dsimp only
    have hpos : (off + d.toUInt32).toNat = off.toNat + d := by
      rw [toNat_add, Nat.toUInt32_eq, toNat_ofNat', Nat.add_mod_mod, Nat.mod_eq_of_lt (by omega)]
    have hassoc : ∀ i, off + (d + i).toUInt32 = off + d.toUInt32 + i.toUInt32 := by
      intro i
      rw [Nat.toUInt32_eq, UInt32.ofNat_add, UInt32.add_assoc]
    generalize off + d.toUInt32 = pos at *
    have hbo : (pos % s.blockSize).toNat < s.blockSize.toNat := by
      rw [toNat_mod]
      exact Nat.mod_lt _ hB
    generalize hn : min (s.blockSize.toNat - (pos % s.blockSize).toNat) (len - d) = n
    -- the positions of one block have the block in common
    have hsame : ∀ i < n, (pos + i.toUInt32) / s.blockSize = pos / s.blockSize ∧
        ((pos + i.toUInt32) % s.blockSize).toNat = (pos % s.blockSize).toNat + i := fun i hi =>
      add_in_block (by omega) (by omega)
    have hnext : ∀ xs : Bytes, xs.length = n → (∀ i < n, s.seenByte inode (pos + i.toUInt32) = some (rd8 xs i)) →
        s.readLoop inode off len fuel ((List.range d).map f ++ xs) = (List.range len).map f := by
      intro xs hxs hbytes
      rw [← ih (d + n) (by omega) (by omega), range_add, map_append, map_map]
      congr 2
      apply ext_rd8
      · rw [hxs, length_map, length_range]
      · intro i hi
        rw [hxs] at hi
        have hbyte := hseen (d + i) (by omega)
        rw [hassoc, hbytes i hi] at hbyte
        rw [rd8_map_range _ hi]
        exact Option.some.inj hbyte
    have hfirst := hseen d hlt
    rw [← Nat.add_zero d, hassoc] at hfirst
    cases hmap : s.fs.mapFindPhys inode (pos / s.blockSize) with
    | none =>
      refine hnext _ length_replicate fun i hi => ?_
      unfold seenByte
      rw [(hsame i hi).1, hmap, rd8_zeros]
    | some phys =>
      by_cases hzero : phys = 0
      · subst hzero
        refine hnext _ length_replicate fun i hi => ?_
        unfold seenByte
        rw [(hsame i hi).1, hmap, rd8_zeros]
        rfl
      cases hread : s.fs.readBlock phys with
      | none =>
        unfold seenByte at hfirst
        rw [(hsame 0 (by omega)).1, hmap] at hfirst
        dsimp only at hfirst
        rw [if_neg hzero, hread] at hfirst
        cases hfirst
      | some io =>
        have hio : io.length = s.blockSize.toNat := Disk.length_readBlock hdvd hread
        have hlen : (bytesAt io (pos % s.blockSize).toNat n).length = n := length_bytesAt (by omega)
        split
        · rename_i heq
          cases heq
        · rename_i heq
          exact absurd (Option.some.inj heq) hzero
        · rename_i heq
          rw [← Option.some.inj heq, hread]
          refine hnext _ hlen fun i hi => ?_
          unfold seenByte
          rw [(hsame i hi).1, hmap]
          dsimp only
          rw [if_neg hzero, hread, Option.map_some, (hsame i hi).2, rd8_bytesAt hi]

/-- `ext4_read` gives the bytes of a file up to its end, where it sees those of the file. -/
theorem read_seen (hdvd : s.disk.sectorSize.toNat ∣ s.blockSize.toNat) (hB : 0 < s.blockSize.toNat) {ino : UInt32}
    (hinode : s.fs.readInode ino = some inode) {f : File32} (hsize : f.size = inode.sizeLo.toNat) {off n : ℕ}
    (hend : off + n < 2 ^ 32)
    (hseen : ∀ x, off ≤ x → x < off + n → x < f.size → s.seenByte inode x.toUInt32 = some (f.byte x)) :
    s.read ino off.toUInt32 n = some (f.bytesFrom off n) := by
  have hoff : off.toUInt32.toNat = off := by
    rw [Nat.toUInt32_eq, toNat_ofNat', Nat.mod_eq_of_lt (by omega)]
  have hsum : (off.toUInt32 + n.toUInt32).toNat = off + n := by
    rw [toNat_add, hoff, Nat.toUInt32_eq, toNat_ofNat', Nat.add_mod_mod, Nat.mod_eq_of_lt hend]
  have hle : (inode.sizeLo ≤ off.toUInt32) = (f.size ≤ off) := by
    rw [UInt32.le_iff_toNat_le, hoff, hsize]
  have hlt : (inode.sizeLo < off.toUInt32 + n.toUInt32) = (f.size < off + n) := by
    rw [UInt32.lt_iff_toNat_lt, hsum, hsize]
  unfold Ext4State.read
  rw [hinode]
  simp only [hle, hlt]
  by_cases hpast : f.size ≤ off
  · rw [if_pos hpast, File32.bytesFrom_past hpast]
  have hsub : (inode.sizeLo - off.toUInt32).toNat = f.size - off := by
    rw [UInt32.toNat_sub_of_le, hoff, hsize]
    rw [UInt32.le_iff_toNat_le, hoff, ← hsize]
    exact Nat.le_of_not_le hpast
  have hmin : (if f.size < off + n then f.size - off else n) = min n (f.size - off) := by
    split <;> omega
  rw [if_neg hpast, hsub, hmin]
  congr 1
  refine @readLoop_seen s inode hdvd hB off.toUInt32 _ (by omega) (fun i => f.byte (off + i)) (fun i hi => ?_) _ 0
    (Nat.zero_le _) (by omega)
  have hbyte := hseen (off + i) (by omega) (by omega) (by omega)
  rw [← hbyte]
  congr 1
  rw [Nat.toUInt32_eq, Nat.toUInt32_eq, Nat.toUInt32_eq, UInt32.ofNat_add]

end Ext4State

end EdgeOS
