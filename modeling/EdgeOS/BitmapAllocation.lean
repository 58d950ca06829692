import EdgeOS.Ext4
import EdgeOS.Lib.Runs
import EdgeOS.Lib.WriteBack

namespace EdgeOS

/-!
Numbers of blocks and inodes (`alloc_from_bitmap` in `src/fs/ext4/ext4.c`). Both bitmaps go through one cache, and the
counts go to the device with it.
-/

open Lib Function List WriteBack

inductive BitmapKind
  | block
  | inode
  deriving DecidableEq

def BitmapKind.number : BitmapKind → ℕ → ℕ
  | .block, i => i
  | .inode, i => i + 1

/-- The fields of `ext4_fs_t` that allocation uses, with the blocks of the device. `bitmap_cache_load` and
`bitmap_cache_flush` are `load` and `flush` of the cache. The counts are those of the superblock and of the group;
`stored` are the ones on the device. -/
structure BitmapFs extends WriteBack UInt32 Bytes where
  firstDataBlock : UInt32
  bitmap : BitmapKind → UInt32
  perGroup : BitmapKind → ℕ
  hint : BitmapKind → ℕ
  free : BitmapKind → ℕ × ℕ
  stored : BitmapKind → ℕ × ℕ
  metaDirty : Bool

/-- The transfers of a call that fail, each with what it leaves. -/
structure BitmapIo where
  torn : Option Bytes := none
  junk : Option Bytes := none
  counts : Option (BitmapKind → ℕ × ℕ) := none

def bitSet (bm : Bytes) (i : ℕ) : Bool := (rd8 bm (i / 8)).toBitVec.getLsbD (i % 8)

def setBit (bm : Bytes) (i : ℕ) : Bytes := bm.modify (i / 8) fun b => b ||| ⟨1#8 <<< (i % 8)⟩

namespace BitmapFs

variable (fs : BitmapFs)

/-- The loop of `alloc_from_bitmap`. -/
def freeBit (kind : BitmapKind) : Option ℕ :=
  let max := fs.perGroup kind
  let start := if fs.hint kind < max then fs.hint kind else 0
  ((List.range max).map fun n => if start + n ≥ max then start + n - max else start + n).find? fun i => !bitSet fs.data i

/-- What the loop of `alloc_from_bitmap` does with a clear bit. A count stops at zero. -/
def take (kind : BitmapKind) (i : ℕ) : BitmapFs :=
  { fs with
    toWriteBack := fs.modify (setBit fs.data i)
    hint := update fs.hint kind (if i + 1 ≥ fs.perGroup kind then 0 else i + 1)
    free := update fs.free kind ((fs.free kind).1 - 1, (fs.free kind).2 - 1)
    metaDirty := true }

def allocFromBitmap (kind : BitmapKind) (io : BitmapIo) : BitmapFs × Option ℕ :=
  let c := fs.load io.torn io.junk (fs.bitmap kind)
  let fs := { fs with toWriteBack := c.1 }
  if c.2 = false then (fs, none)
  else
    match fs.freeBit kind with
    | none => (fs, none)
    | some i => (fs.take kind i, some (kind.number i))

def syncSuperBgIfDirty (io : BitmapIo) : BitmapFs × Bool :=
  let c := fs.flush io.torn
  let fs := { fs with toWriteBack := c.1 }
  if c.2 = false then (fs, false)
  else if fs.metaDirty = false then (fs, true)
  else
    match io.counts with
    | some counts => ({ fs with stored := counts }, false)
    | none => ({ fs with stored := fs.free, metaDirty := false }, true)

/-- A file system that has just been mounted, in the format: each bitmap has a block of its own, which is large enough.
Block 0 is the first that the bitmap speaks of, as with all blocks of more than 1 KiB. -/
structure Mounted : Prop where
  first : fs.firstDataBlock = 0
  empty : fs.valid = false
  stored : fs.stored = fs.free
  fits : ∀ kind, fs.perGroup kind ≤ 8 * (fs.store (fs.bitmap kind)).length
  distinct : fs.bitmap .block ≠ fs.bitmap .inode

variable {fs} in
theorem Mounted.bitmap_inj (h : fs.Mounted) (kind kind' : BitmapKind) :
    fs.bitmap kind = fs.bitmap kind' ↔ kind = kind' := by
  cases kind <;> cases kind' <;> simp [h.distinct, h.distinct.symm]

end BitmapFs

/-! ## Runs -/

/-- A file system and the numbers that it has given out. -/
structure BitmapSys where
  fs : BitmapFs
  given : BitmapKind → List ℕ := fun _ => []

/-- `write` is any other write of the driver. -/
inductive BitmapEvent
  | alloc (kind : BitmapKind) (io : BitmapIo)
  | sync (io : BitmapIo)
  | write (block : UInt32) (data : Bytes)

def BitmapSys.step (s : BitmapSys) : BitmapEvent → BitmapSys
  | .alloc kind io =>
    let r := s.fs.allocFromBitmap kind io
    ⟨r.1, update s.given kind (r.2.toList ++ s.given kind)⟩
  | .sync io => { s with fs := (s.fs.syncSuperBgIfDirty io).1 }
  | .write block data => { s with fs := { s.fs with store := update s.fs.store block data } }

/-- A read of a bitmap that fails leaves the cache as it was. No other write goes to a bitmap. -/
def BitmapSys.Admits (s : BitmapSys) : BitmapEvent → Prop
  | .alloc _ io => ∀ b, io.junk = some b → b = s.fs.data
  | .sync _ => True
  | .write block _ => ∀ kind, s.fs.bitmap kind ≠ block

/-- The block or inode that a bit of the first group's bitmap stands for in the format. -/
def BitmapFs.standsFor (f : BitmapFs) : BitmapKind → ℕ → ℕ
  | .block, i => f.firstDataBlock.toNat + i
  | .inode, i => i + 1

/-- A bit was set when `f` was mounted, or its number has been given out since. -/
def BitmapFs.Taken (f : BitmapFs) (given : BitmapKind → List ℕ) (kind : BitmapKind) (i : ℕ) : Prop :=
  bitSet (f.store (f.bitmap kind)) i = true ∨ f.standsFor kind i ∈ given kind

def BitmapFs.left (f : BitmapFs) (given : BitmapKind → List ℕ) (kind : BitmapKind) : ℕ × ℕ :=
  ((f.free kind).1 - (given kind).length, (f.free kind).2 - (given kind).length)

/-- Numbers that differ and were free when `f` was mounted. -/
structure BitmapFs.Fresh (f : BitmapFs) (given : BitmapKind → List ℕ) : Prop where
  distinct : ∀ kind, (given kind).Nodup
  free : ∀ kind, ∀ n ∈ given kind,
    ∃ i < f.perGroup kind, n = f.standsFor kind i ∧ bitSet (f.store (f.bitmap kind)) i = false

/-- The numbers given out since `f` was mounted are fresh, they are all that the device has more once a sync has
succeeded, and they are refused only when there are no more. -/
structure BitmapSys.Accounted (f : BitmapFs) (s : BitmapSys) : Prop where
  fresh : f.Fresh s.given
  synced : ∀ io, (s.fs.syncSuperBgIfDirty io).2 = true → (s.fs.syncSuperBgIfDirty io).1.stored = f.left s.given ∧
    ∀ kind i, bitSet ((s.fs.syncSuperBgIfDirty io).1.store (f.bitmap kind)) i = true ↔ f.Taken s.given kind i
  full : ∀ kind, (s.fs.allocFromBitmap kind {}).2 = none → ∀ i < f.perGroup kind, f.Taken s.given kind i

/-! ## One step -/

theorem BitmapFs.standsFor_inj {f : BitmapFs} {kind : BitmapKind} {i j : ℕ} :
    f.standsFor kind i = f.standsFor kind j ↔ i = j := by
  cases kind <;> simp [standsFor]

theorem BitmapFs.Mounted.number {f : BitmapFs} (h : f.Mounted) (kind : BitmapKind) (i : ℕ) :
    kind.number i = f.standsFor kind i := by
  cases kind <;> simp [BitmapKind.number, standsFor, h.first]

theorem bitSet_setBit {bm : Bytes} {i j : ℕ} (hi : i / 8 < bm.length) :
    bitSet (setBit bm i) j = true ↔ bitSet bm j = true ∨ j = i := by
  unfold bitSet setBit rd8
  rw [getD_eq_getElem?_getD, getD_eq_getElem?_getD, getElem?_modify]
  by_cases hbyte : i / 8 = j / 8
  · have hbit : j % 8 = i % 8 ↔ j = i := by omega
    rw [getElem?_eq_getElem (hbyte ▸ hi)]
    simp only [hbyte, if_true, Option.map_eq_map, Option.map_some, Option.getD_some, UInt8.toBitVec_or,
      BitVec.getLsbD_or, Bool.or_eq_true, ← BitVec.twoPow_eq, BitVec.getLsbD_twoPow]
    rw [← hbit, decide_eq_true (Nat.mod_lt i (by decide)), Bool.true_and, decide_eq_true_iff, eq_comm (a := i % 8)]
  · have hne : j ≠ i := fun h => hbyte (congrArg (· / 8) h.symm)
    simp [hbyte, hne]

theorem BitmapFs.freeBit_some {fs : BitmapFs} {kind : BitmapKind} {i : ℕ} (h : fs.freeBit kind = some i) :
    i < fs.perGroup kind ∧ bitSet fs.data i = false := by
  have hfree := find?_some h
  obtain ⟨n, hn, rfl⟩ := mem_map.mp (mem_of_find?_eq_some h)
  have hn := mem_range.mp hn
  refine ⟨?_, by simpa using hfree⟩
  split_ifs <;> omega

theorem BitmapFs.freeBit_none {fs : BitmapFs} {kind : BitmapKind} {i : ℕ} (h : fs.freeBit kind = none)
    (hi : i < fs.perGroup kind) : bitSet fs.data i = true := by
  have hstart : (if fs.hint kind < fs.perGroup kind then fs.hint kind else 0) ≤ fs.perGroup kind := by
    split_ifs <;> omega
  unfold freeBit at h
  dsimp only at h
  generalize (if fs.hint kind < fs.perGroup kind then fs.hint kind else 0) = start at h hstart
  have hset : ¬ (!bitSet fs.data i) = true := by
    refine find?_eq_none.mp h i (mem_map.mpr
      ⟨if start ≤ i then i - start else i + fs.perGroup kind - start, mem_range.mpr ?_, ?_⟩) <;> split_ifs <;> omega
  simpa using hset

namespace BitmapSys

/-- What every step keeps. Cache and device together hold the bits that are taken. -/
structure HoldsTaken (f : BitmapFs) (s : BitmapSys) : Prop where
  bitmap : s.fs.bitmap = f.bitmap
  perGroup : s.fs.perGroup = f.perGroup
  clean : s.fs.Clean
  key : s.fs.valid = true → ∃ kind, s.fs.key = f.bitmap kind
  length : ∀ kind, (s.fs.view (f.bitmap kind)).length = (f.store (f.bitmap kind)).length
  bits : ∀ kind i, bitSet (s.fs.view (f.bitmap kind)) i = true ↔ f.Taken s.given kind i
  left : s.fs.free = f.left s.given
  stored : s.fs.metaDirty = false → s.fs.stored = s.fs.free
  fresh : f.Fresh s.given

variable {f : BitmapFs} {s : BitmapSys}

theorem HoldsTaken.shown (h : HoldsTaken f s) {c : WriteBack UInt32 Bytes} (hclean : c.Clean)
    (hview : ∀ kind, c.view (f.bitmap kind) = s.fs.view (f.bitmap kind))
    (hkey : c.valid = true → ∃ kind, c.key = f.bitmap kind) :
    HoldsTaken f { s with fs := { s.fs with toWriteBack := c } } where
  bitmap := h.bitmap
  perGroup := h.perGroup
  clean := hclean
  key := hkey
  length kind := by
    rw [hview]
    exact h.length kind
  bits kind i := by
    rw [hview]
    exact h.bits kind i
  left := h.left
  stored := h.stored
  fresh := h.fresh

theorem HoldsTaken.loaded (h : HoldsTaken f s) (kind : BitmapKind) (io : BitmapIo) (hjunk : ∀ b, io.junk = some b → b = s.fs.data) :
    HoldsTaken f { s with fs := { s.fs with toWriteBack := (s.fs.load io.torn io.junk (s.fs.bitmap kind)).1 } } := by
  obtain ⟨hview, hclean, -⟩ := load_view (t := io.torn) (k := s.fs.bitmap kind) h.clean hjunk
  refine h.shown hclean (fun kind => congrFun hview _) fun hvalid => ?_
  rcases load_key hvalid with hkey | ⟨hold, hkey⟩
  · exact ⟨kind, by rw [hkey, h.bitmap]⟩
  · rw [hkey]
    exact h.key hold

theorem HoldsTaken.flushed (h : HoldsTaken f s) (torn : Option Bytes) :
    HoldsTaken f { s with fs := { s.fs with toWriteBack := (s.fs.flush torn).1 } } := by
  obtain ⟨hview, hclean, -⟩ := flush_view (t := torn) h.clean
  obtain ⟨-, hvalid, hkey⟩ := flush_line (c := s.fs.toWriteBack) (t := torn)
  refine h.shown hclean (fun kind => congrFun hview _) fun hv => ?_
  rw [hkey]
  exact h.key (hvalid ▸ hv)

theorem HoldsTaken.taken (h : HoldsTaken f s) (hf : f.Mounted) {kind : BitmapKind} {i : ℕ} (hvalid : s.fs.valid = true)
    (hkey : s.fs.key = f.bitmap kind) (hi : i < f.perGroup kind) (hfree : bitSet s.fs.data i = false) :
    HoldsTaken f ⟨s.fs.take kind i, update s.given kind (kind.number i :: s.given kind)⟩ := by
  rw [hf.number]
  have hdata : s.fs.view (f.bitmap kind) = s.fs.data := if_pos ⟨hvalid, hkey⟩
  have hbyte : i / 8 < s.fs.data.length := by
    have hlen := h.length kind
    have hfits := hf.fits kind
    rw [hdata] at hlen
    omega
  have hnew : ¬ f.Taken s.given kind i := by rw [← h.bits, hdata, hfree]; decide
  obtain ⟨hclear, hnumber⟩ := not_or.mp hnew
  have hview : ∀ kind', (s.fs.modify (setBit s.fs.data i)).view (f.bitmap kind') =
      if kind' = kind then setBit s.fs.data i else s.fs.view (f.bitmap kind') := by
    intro kind'
    rw [view_modify hvalid, hkey, update_apply]
    exact if_congr (hf.bitmap_inj ..) rfl rfl
  unfold BitmapFs.take
  refine ⟨h.bitmap, h.perGroup, fun _ hdirty => (by cases hdirty), fun _ => ⟨kind, hkey⟩, fun kind' => ?_,
    fun kind' j => ?_, funext fun kind' => ?_, fun hmeta => (by cases hmeta), fun kind' => ?_, fun kind' => ?_⟩
  all_goals dsimp only
  · rw [hview]
    split_ifs with hk
    · rw [hk, ← h.length, hdata]
      exact length_modify ..
    · exact h.length kind'
  · rw [hview]
    unfold BitmapFs.Taken
    rw [update_apply]
    split_ifs with hk
    · rw [hk, bitSet_setBit hbyte, ← hdata, h.bits, mem_cons, BitmapFs.standsFor_inj, or_comm (a := j = i)]
      exact or_assoc
    · exact h.bits kind' j
  · unfold BitmapFs.left
    rw [update_apply, update_apply]
    split_ifs with hk
    · rw [hk, h.left, length_cons]
      rfl
    · exact congrFun h.left kind'
  · rw [update_apply]
    split_ifs with hk
    · exact nodup_cons.mpr ⟨hnumber, h.fresh.distinct kind⟩
    · exact h.fresh.distinct kind'
  · rw [update_apply]
    split_ifs with hk
    · subst hk
      exact forall_mem_cons.mpr ⟨⟨i, hi, rfl, Bool.eq_false_iff.mpr hclear⟩, h.fresh.free kind'⟩
    · exact h.fresh.free kind'

theorem HoldsTaken.step (hf : f.Mounted) (h : HoldsTaken f s) (e : BitmapEvent) (he : s.Admits e) : HoldsTaken f (s.step e) := by
  cases e with
  | alloc kind io =>
    have hload := h.loaded kind io he
    obtain ⟨-, -, hcached⟩ := load_view (t := io.torn) (k := s.fs.bitmap kind) h.clean he
    unfold BitmapSys.step BitmapFs.allocFromBitmap
    dsimp only
    split_ifs with hfail
    · rw [Option.toList_none, nil_append, update_eq_self]
      exact hload
    obtain ⟨hvalid, hkey⟩ := hcached (Bool.not_eq_false _ ▸ hfail)
    split
    · rw [Option.toList_none, nil_append, update_eq_self]
      exact hload
    rename_i i hfind
    obtain ⟨hi, hfree⟩ := BitmapFs.freeBit_some hfind
    exact hload.taken hf hvalid (hkey.trans (congrFun h.bitmap kind)) (h.perGroup ▸ hi) hfree
  | sync io =>
    have hflush := h.flushed io.torn
    unfold BitmapSys.step BitmapFs.syncSuperBgIfDirty
    dsimp only
    split_ifs with hfail hmeta
    · exact hflush
    · exact hflush
    cases io.counts with
    | some counts => exact { hflush with stored := fun hclean => absurd hclean hmeta }
    | none => exact { hflush with stored := fun _ => rfl }
  | write block data =>
    have hother : ∀ kind, f.bitmap kind ≠ block := h.bitmap ▸ he
    refine h.shown (fun hvalid hdirty => ?_) (fun kind => ?_) h.key
    · obtain ⟨kind, hkey⟩ := h.key hvalid
      exact (h.clean hvalid hdirty).trans (update_of_ne (hkey ▸ hother kind) _ _).symm
    · unfold view
      split_ifs
      · rfl
      · exact update_of_ne (hother kind) _ _

theorem HoldsTaken.accounted (h : HoldsTaken f s) : Accounted f s where
  fresh := h.fresh
  synced io hok := by
    obtain ⟨-, -, hstore⟩ := flush_view (t := io.torn) h.clean
    unfold BitmapFs.syncSuperBgIfDirty at hok ⊢
    dsimp only at hok ⊢
    split_ifs at hok ⊢ with hfail hmeta
    · rw [hstore (Bool.not_eq_false _ ▸ hfail)]
      exact ⟨(h.stored hmeta).trans h.left, h.bits⟩
    cases hcounts : io.counts with
    | some counts =>
      rw [hcounts] at hok
      cases hok
    | none =>
      dsimp only
      rw [hstore (Bool.not_eq_false _ ▸ hfail)]
      exact ⟨h.left, h.bits⟩
  full kind hnone i hi := by
    have hload := h.loaded kind {} fun b hb => by cases hb
    obtain ⟨-, -, hcached⟩ := load_view (t := none) (j := none) (k := s.fs.bitmap kind) h.clean
      fun b hb => by cases hb
    have hok : (s.fs.load none none (s.fs.bitmap kind)).2 = true := load_works
    obtain ⟨hvalid, hkey⟩ := hcached hok
    unfold BitmapFs.allocFromBitmap at hnone
    dsimp only at hnone
    rw [if_neg (by rw [hok]; decide)] at hnone
    split at hnone
    · rename_i hfind
      rw [← hload.bits]
      exact (congrArg (bitSet · i) (if_pos ⟨hvalid, hkey.trans (congrFun h.bitmap kind)⟩)).trans
        (BitmapFs.freeBit_none hfind (h.perGroup ▸ hi))
    · cases hnone

end BitmapSys

/-- Over every run of allocations, syncs and other writes since a mount, whichever of its transfers fail, the numbers
given out are accounted for. -/
theorem bitmaps_account (f : BitmapFs) (hf : f.Mounted) (es : List BitmapEvent)
    (hes : Meets BitmapSys.step BitmapSys.Admits { fs := f } es) : (run BitmapSys.step { fs := f } es).Accounted f := by
  have hview : f.view = f.store := view_of_stored fun hvalid => absurd hvalid (by simp [hf.empty])
  have h : BitmapSys.HoldsTaken f { fs := f } :=
    { bitmap := rfl
      perGroup := rfl
      clean := fun hvalid => absurd hvalid (by simp [hf.empty])
      key := fun hvalid => absurd hvalid (by simp [hf.empty])
      length := fun kind => congrArg List.length (congrFun hview _)
      bits := fun kind i => by rw [hview]; simp [BitmapFs.Taken]
      left := rfl
      stored := fun _ => hf.stored
      fresh := ⟨fun _ => nodup_nil, fun _ n hn => absurd hn not_mem_nil⟩ }
  exact (run_invariant (fun s e h he => h.step hf e he) h hes).accounted

/-- A mounted file system of eight blocks, with the bitmaps in blocks 3 and 4. -/
def smallFs : BitmapFs where
  firstDataBlock := 0
  store := fun b => if b = 3 then [0x1D] else [0x0F]
  valid := false
  dirty := false
  key := 0
  data := []
  bitmap := fun kind => if kind = .block then 3 else 4
  perGroup := fun _ => 8
  hint := fun _ => 0
  free := fun _ => (4, 4)
  stored := fun _ => (4, 4)
  metaDirty := false

/-- An inode and a block, with a write of the inode bitmap that fails, and a block again. -/
theorem bitmaps_account_small : (run BitmapSys.step { fs := smallFs }
      [.alloc .inode {}, .alloc .block { torn := some [0x0F] }, .alloc .block {}]).given .block = [1] ∧
    (run BitmapSys.step { fs := smallFs }
      [.alloc .inode {}, .alloc .block { torn := some [0x0F] }, .alloc .block {}]).Accounted smallFs := by
  refine ⟨by decide, bitmaps_account smallFs ⟨rfl, rfl, rfl, fun kind => by cases kind <;> decide, by decide⟩ _
    ⟨?_, ?_, ?_, trivial⟩⟩ <;> exact fun b hb => by cases hb

end EdgeOS
