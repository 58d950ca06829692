import Mathlib.Data.List.GetD
import EdgeOS.AddressSpace
import EdgeOS.StoredBytes

namespace EdgeOS

open Lib Traced List
open UInt64 (toNat_add ofNat_add)

/-!
Loading a program keeps to its file and to the pages of the task exactly when the sums that are checked
do not wrap, and the segments, the dynamic entries, the relocations and their targets lie on pages of
the task: the check on an address admits the whole user window.
-/

/-! ## What loading is to keep to -/

section Confinement

variable (L : KernelLayout) (idx : Fin procMaxTasks)

/-- The addresses are in the user window and on pages that the directory of the task marks
`PAGE_USER`. -/
def OnUserPages (addr : UInt64) (len : ℕ) : Prop :=
  ∀ i < len, 0x1000 ≤ (addr + i.toUInt64).toNat ∧ (addr + i.toUInt64).toNat < 0x40000000 ∧
    ((taskBuildAddressSpace L idx true).entry (addr + i.toUInt64).toNat).isUser = true

def OwnPages (addr : UInt64) (len : ℕ) : Prop :=
  OnUserPages L idx addr len ∧ ∀ i < len, ∀ r i' p,
    ((taskBuildAddressSpace L idx true).entry (addr + i.toUInt64).toNat).frame = .user r i' p → i' = idx

def Access.Confined : Access → Prop
  | .file size off len => off + len ≤ size
  | .read addr len => OwnPages L idx addr len
  | .write addr len => OwnPages L idx addr len

/-- Loading a program ends and keeps to the files and the pages of the task. -/
def ElfConfined (files : Bytes → Option ElfFile) (path : Bytes) (m : Memory) : Prop :=
  Traced.Safe (Access.Confined L idx) (elfLoaderExec (vfsFiles files) path) m

end Confinement

/-! ## The image that a file describes -/

/-- A segment in its place: the bytes of the file, and zeros behind them. -/
def ElfFile.placed (f : ElfFile) (ph : ProgramHeader) (dst : UInt64) (m : Memory) : Memory :=
  (m.stored dst (bytesAt f.bytes ph.offset.toNat ph.filesz.toNat)).stored (dst + ph.filesz)
    (List.replicate (ph.memsz - ph.filesz).toNat 0)

def ElfFile.segments (f : ElfFile) (bias : UInt64) (phs : List ProgramHeader) (m : Memory) : Memory :=
  phs.foldl (fun m ph => if ph.type = ptLoad then f.placed ph (bias + ph.vaddr) m else m) m

def Memory.placed (m : Memory) (ph : ProgramHeader) (dst : UInt64) (bs : Bytes) : Memory :=
  (m.stored dst bs).stored (dst + ph.filesz) (List.replicate (ph.memsz - ph.filesz).toNat 0)

def Memory.withSegments (m : Memory) (bytes : ProgramHeader → Bytes) (bias : UInt64) (phs : List ProgramHeader) :
    Memory :=
  phs.foldl (fun m ph => if ph.type = ptLoad then m.placed ph (bias + ph.vaddr) (bytes ph) else m) m

def segmentsHi (bias : UInt64) (phs : List ProgramHeader) (hi : UInt64) : UInt64 :=
  phs.foldl (fun hi ph => if ph.type = ptLoad then max hi (bias + ph.vaddr + ph.memsz) else hi) hi

def SegmentsOk (f : VfsFile) (bias : UInt64) (phs : List ProgramHeader) : Prop :=
  ∀ ph ∈ phs, ph.type = ptLoad → segmentOk f bias ph = true

/-- There are `n` dynamic entries before the one that ends them. -/
def DynamicLen (m : Memory) (dyn : UInt64) (n : ℕ) : Prop :=
  m.word (dyn + 16 * n.toUInt64) = 0 ∧ ∀ k < n, m.word (dyn + 16 * k.toUInt64) ≠ 0

def RelaTable.add (t : RelaTable) (tag v : UInt64) : RelaTable :=
  if tag = 7 then { t with addr := v }
  else if tag = 8 then { t with sz := v }
  else if tag = 9 then { t with ent := v }
  else t

/-- The relocation table that `n` dynamic entries describe. -/
def relaTable (m : Memory) : ℕ → UInt64 → RelaTable → RelaTable
  | 0, _, t => t
  | n + 1, dyn, t => relaTable m n (dyn + 16) (t.add (m.word dyn) (m.word (dyn + 8)))

def RelaTable.count (t : RelaTable) : ℕ :=
  if t.addr = 0 ∨ t.sz = 0 ∨ t.ent < elf64RelaSize then 0 else (t.sz / t.ent).toNat

/-- The memory after the relocations, unless a target is refused. -/
def relocated (bias ent : UInt64) : ℕ → UInt64 → Memory → Option Memory
  | 0, _, m => some m
  | n + 1, r, m =>
    if (m.word (r + 8)).toUInt32 ≠ 8 then relocated bias ent n (r + ent) m
    else if !userAddrRangeOk (bias + m.word r) 8 then none
    else relocated bias ent n (r + ent) (m.stored (bias + m.word r) (wordBytes (bias + m.word (r + 16))))

/-- `m'` is the image `m` with its relocations applied. -/
def Relocated (phs : List ProgramHeader) (bias : UInt64) (m m' : Memory) : Prop :=
  match phs.find? fun ph => ph.type = ptDynamic with
  | none => m' = m
  | some ph => ∃ n, DynamicLen m (bias + ph.vaddr) n ∧
      relocated bias (relaTable m n (bias + ph.vaddr) {}).ent (relaTable m n (bias + ph.vaddr) {}).count
        (bias + (relaTable m n (bias + ph.vaddr) {}).addr) m = some m'

def interpOk (f : VfsFile) (ph : ProgramHeader) : Bool :=
  2 ≤ ph.filesz ∧ ph.filesz < 256 ∧ (ph.offset + ph.filesz).toNat ≤ f.size

def ElfFile.interpFrom (f : ElfFile) (phs : List ProgramHeader) (name : Option Bytes) : Option Bytes :=
  phs.foldl (fun name ph =>
    if ph.type = ptInterp then
      some ((bytesAt f.bytes ph.offset.toNat ph.filesz.toNat).dropLast.takeWhile (· ≠ 0))
    else name) name

def ElfFile.interp (f : ElfFile) (phs : List ProgramHeader) : Option Bytes := f.interpFrom phs none

/-- The last address that is given for the program headers from here on. -/
def phdrFrom (bias : UInt64) (phs : List ProgramHeader) (addr : UInt64) : UInt64 :=
  phs.foldl (fun addr ph => if ph.type = ptPhdr then bias + ph.vaddr else addr) addr

def phdrAddr (eh : ElfHeader) (phs : List ProgramHeader) (bias : UInt64) : UInt64 :=
  if phdrFrom bias phs 0 = 0 then phdrInSegments eh phs bias else phdrFrom bias phs 0

def ElfFile.programHeaders (f : ElfFile) (eh : ElfHeader) : List ProgramHeader :=
  (List.range eh.phnum.toNat).map fun i =>
    programHeaderAt (bytesAt f.bytes eh.phoff.toUInt32.toNat eh.phBytes) (i * elf64PhdrSize)

def ElfFile.header (f : ElfFile) : ElfHeader := elfHeaderAt (bytesAt f.bytes 0 elf64EhdrSize)

/-- `m'` is `m` with the image of the file in it. -/
def ImageLoaded (f : ElfFile) (etDynBase : UInt64) (m m' : Memory) : Prop :=
  ∃ bias, loadBias f.header (f.programHeaders f.header) etDynBase = some bias ∧
    SegmentsOk f bias (f.programHeaders f.header) ∧
    Relocated (f.programHeaders f.header) bias (f.segments bias (f.programHeaders f.header) m) m' ∧
    (∀ ph ∈ f.programHeaders f.header, ph.type = ptInterp → interpOk f ph = true) ∧
    phdrAddr f.header (f.programHeaders f.header) bias ≠ 0

/-! ## When loading keeps to them -/

section Exact

variable (L : KernelLayout) (idx : Fin procMaxTasks)

def NoWrap (a : UInt64) (n : ℕ) : Prop := a.toNat + n < 2 ^ 64

/-- The segments that pass the checks have file ranges that do not wrap and lie on user pages. -/
def SegmentsExact (f : ElfFile) (bias : UInt64) : List ProgramHeader → Prop
  | [] => True
  | ph :: phs =>
    if ph.type ≠ ptLoad then SegmentsExact f bias phs
    else if !segmentOk f bias ph then True
    else
      NoWrap ph.offset ph.filesz.toNat ∧ OnUserPages L idx (bias + ph.vaddr) ph.memsz.toNat ∧ SegmentsExact f bias phs

/-- Each segment up to the first that a check refuses is copied. -/
def SegmentsCopied (v : VfsFile) (bytes : ProgramHeader → Bytes) (bias : UInt64) : List ProgramHeader → Prop
  | [] => True
  | ph :: phs =>
    if ph.type ≠ ptLoad then SegmentsCopied v bytes bias phs
    else if !segmentOk v bias ph then True
    else
      (∀ m, (copySegment v ph (bias + ph.vaddr) ph.filesz.toNat 0).Gives m (m.stored (bias + ph.vaddr) (bytes ph)) ()) ∧
        SegmentsCopied v bytes bias phs

/-- An entry of type `DT_RELA`, `DT_RELASZ` or `DT_RELAENT`. -/
def IsRelaTag (tag : UInt64) : Prop := tag = 7 ∨ tag = 8 ∨ tag = 9

instance (tag : UInt64) : Decidable (IsRelaTag tag) := inferInstanceAs (Decidable (_ ∨ _))

def DynamicPages (m : Memory) (dyn : UInt64) (n : ℕ) : Prop :=
  ∀ k ≤ n, OnUserPages L idx (dyn + 16 * k.toUInt64) 8 ∧
    (IsRelaTag (m.word (dyn + 16 * k.toUInt64)) → OnUserPages L idx (dyn + 16 * k.toUInt64 + 8) 8)

/-- The relocations and their targets lie on user pages, up to a target that is refused. -/
def RelasExact (bias ent : UInt64) : ℕ → UInt64 → Memory → Prop
  | 0, _, _ => True
  | n + 1, r, m =>
    (OnUserPages L idx (r + 8) 8 ∧ OnUserPages L idx r 8 ∧ OnUserPages L idx (r + 16) 8) ∧
      if (m.word (r + 8)).toUInt32 ≠ 8 then RelasExact bias ent n (r + ent) m
      else if !userAddrRangeOk (bias + m.word r) 8 then True
      else
        OnUserPages L idx (bias + m.word r) 8 ∧
          RelasExact bias ent n (r + ent) (m.stored (bias + m.word r) (wordBytes (bias + m.word (r + 16))))

/-- The dynamic entries end, and they, the relocations and the targets lie on user pages. -/
def RelocsExact (phs : List ProgramHeader) (bias : UInt64) (m : Memory) : Prop :=
  ∀ ph, (phs.find? fun ph => ph.type = ptDynamic) = some ph →
    ∃ n < 2 ^ 60, DynamicLen m (bias + ph.vaddr) n ∧ DynamicPages L idx m (bias + ph.vaddr) n ∧
      RelasExact L idx bias (relaTable m n (bias + ph.vaddr) {}).ent (relaTable m n (bias + ph.vaddr) {}).count
        (bias + (relaTable m n (bias + ph.vaddr) {}).addr) m

/-- The names of interpreters that pass the checks have file ranges that do not wrap. -/
def InterpExact (f : ElfFile) : List ProgramHeader → Prop
  | [] => True
  | ph :: phs =>
    if ph.type ≠ ptInterp then InterpExact f phs
    else if !interpOk f ph then True
    else NoWrap ph.offset ph.filesz.toNat ∧ InterpExact f phs

/-- The parts of an image, each as far as the ones before it are loaded. -/
def ImageExact (f : ElfFile) (etDynBase : UInt64) (m : Memory) : Prop :=
  NoWrap f.header.phoff f.header.phBytes ∧ ∀ bias, loadBias f.header (f.programHeaders f.header) etDynBase = some bias →
      SegmentsExact L idx f bias (f.programHeaders f.header) ∧ (SegmentsOk f bias (f.programHeaders f.header) →
          RelocsExact L idx (f.programHeaders f.header) bias (f.segments bias (f.programHeaders f.header) m) ∧
            ((∃ m', Relocated (f.programHeaders f.header) bias (f.segments bias (f.programHeaders f.header) m) m') →
              InterpExact f (f.programHeaders f.header)))

/-- A file with a good header is an image that keeps to the pages. -/
def FileExact (files : Bytes → Option ElfFile) (path : Bytes) (etDynBase : UInt64) (m : Memory) : Prop :=
  ∀ f, files path = some f → elf64EhdrSize ≤ f.size → headerOk f f.header = true → ImageExact L idx f etDynBase m

/-- The program, and after it the interpreter if it names one. -/
def ElfExact (files : Bytes → Option ElfFile) (path : Bytes) (m : Memory) : Prop :=
  FileExact L idx files path edgeMainEtDynBase m ∧
    ∀ f m' interp, files path = some f → elf64EhdrSize ≤ f.size → headerOk f f.header = true →
      ImageLoaded f edgeMainEtDynBase m m' → f.interp (f.programHeaders f.header) = some interp →
        interp.head? = some 47 → FileExact L idx files interp edgeInterpEtDynBase m'

end Exact

/-! ## Pages -/

section Pages

variable {L : KernelLayout} {idx : Fin procMaxTasks} {ok : Access → Prop}

variable {d : Directory}

/-- Filling a table with entries that are the task's own keeps it so. -/
theorem setPages_own {pdi start n : ℕ} {f : ℕ → PdEntry}
    (hd : ∀ i j r i' p, (d i j).frame = .user r i' p → i' = idx) (hf : ∀ k r i' p, (f k).frame = .user r i' p → i' = idx) :
    ∀ i j r i' p, (setPages d pdi start n f i j).frame = .user r i' p → i' = idx := by
  intro i j r i' p
  rw [setPages_apply]
  split
  · exact hf _ r i' p
  · exact hd i j r i' p

theorem foldl_own {β : Type} (l : List β) {g : Directory → β → Directory}
    (hg : ∀ d b, (∀ i j r i' p, (d i j).frame = .user r i' p → i' = idx) →
      ∀ i j r i' p, (g d b i j).frame = .user r i' p → i' = idx)
    (hd : ∀ i j r i' p, (d i j).frame = .user r i' p → i' = idx) :
    ∀ i j r i' p, (l.foldl g d i j).frame = .user r i' p → i' = idx := by
  induction l generalizing d with
  | nil => exact hd
  | cons b l ih => exact ih (hg d b hd)

theorem build_own (i j : ℕ) (r : Region) (i' : Fin procMaxTasks) (p : ℕ)
    (h : (taskBuildAddressSpace L idx true i j).frame = .user r i' p) : i' = idx := by
  revert i j r i' p h
  unfold taskBuildAddressSpace
  have hidentity : ∀ i j r i' p, ((List.range 4).foldl (fun d pdi => setPages d pdi 0 512 (identityEntry L true pdi))
      (fun _ _ => {}) i j).frame = .user r i' p → i' = idx := by
    apply foldl_own
    · intro d pdi hd
      refine setPages_own hd fun k r i' p hk => ?_
      cases hk
    · intro i j r i' p hk
      cases hk
  have hregions : ∀ i j r i' p, (Region.all.foldl (mapRegion idx) ((List.range 4).foldl
      (fun d pdi => setPages d pdi 0 512 (identityEntry L true pdi)) fun _ _ => {}) i j).frame = .user r i' p →
      i' = idx := by
    refine foldl_own _ (fun d r hd => setPages_own hd fun k r' i' p hk => ?_) hidentity
    exact (Frame.user.inj hk).2.1.symm
  have hwindow : ∀ d : Directory, (∀ i j r i' p, (d i j).frame = .user r i' p → i' = idx) →
      ∀ i j r i' p, (mapFbWindow d L.fbWindow i j).frame = .user r i' p → i' = idx := by
    intro d hd
    rcases L.fbWindow with _ | ⟨phys, pages⟩
    · exact hd
    · refine setPages_own hd fun k r i' p hk => ?_
      cases hk
  have hremap : ∀ d : Directory, (∀ i j r i' p, (d i j).frame = .user r i' p → i' = idx) →
      ∀ i j r i' p, (mapFbRemap d L.fbRemap i j).frame = .user r i' p → i' = idx := by
    intro d hd
    rcases L.fbRemap with _ | ⟨phys, pages⟩
    · exact hd
    · refine setPages_own hd fun k r i' p hk => ?_
      cases hk
  apply hremap
  split
  · exact hwindow _ hregions
  · exact hidentity

theorem ownPages_iff (addr : UInt64) (len : ℕ) : OwnPages L idx addr len ↔ OnUserPages L idx addr len :=
  ⟨fun h => h.1, fun h => ⟨h, fun _ _ r i' p hframe => build_own _ _ r i' p hframe⟩⟩

end Pages

/-! ## Single accesses -/

section Accesses

variable {L : KernelLayout} {idx : Fin procMaxTasks} {m m' : Memory}

variable {off len : ℕ} {bs : Bytes}

theorem gives_vfsPreadExact {f : VfsFile} :
    (vfsPreadExact f off len).Gives m m' bs ↔ m' = m ∧ f.preadLoop off len len [] = some bs := by
  unfold vfsPreadExact
  by_cases hlen : len = 0
  · subst hlen
    rw [if_pos rfl, gives_pure]
    exact and_congr_right fun _ => ⟨fun h => congrArg some h.symm, fun h => (Option.some.inj h).symm⟩
  rw [if_neg hlen, gives_bind]
  constructor
  · rintro ⟨m₁, u, hemit, h⟩
    obtain rfl := gives_emit.mp hemit
    cases hloop : f.preadLoop off len len [] with
    | none =>
      rw [hloop] at h
      exact (gives_fail.mp h).elim
    | some out =>
      rw [hloop] at h
      obtain ⟨hm, hbs⟩ := gives_pure.mp h
      exact ⟨hm, congrArg some hbs.symm⟩
  · rintro ⟨rfl, hloop⟩
    refine ⟨m', (), gives_emit.mpr rfl, ?_⟩
    rw [hloop]
    exact gives_pure.mpr ⟨rfl, rfl⟩

theorem safe_pread {f : VfsFile} :
    Safe (Access.Confined L idx) (vfsPreadExact f off len) m ↔ (len ≠ 0 → off + len ≤ f.size) := by
  unfold vfsPreadExact
  rw [safe_ite, safe_bind]
  constructor
  · rintro ⟨-, h⟩ hlen
    have hin : (Access.file f.size off len).Confined L idx := safe_emit.mp (h hlen).1
    exact hin
  · intro h
    have hin : len ≠ 0 → (Access.file f.size off len).Confined L idx := h
    refine ⟨fun _ => by simp, fun hlen => ⟨safe_emit.mpr (hin hlen), fun s' u _ => ?_⟩⟩
    cases f.preadLoop off len len [] with
    | none => exact safe_fail.mpr trivial
    | some bs => exact safe_pure.mpr trivial

/-- A range inside of a file that is read as a whole is read at once, and one that goes on past its end is refused. -/
theorem preadLoop_whole (f : ElfFile) (hoff : off < 2 ^ 32) (hlen : len ≠ 0) :
    f.vfs.preadLoop off len len [] = if off + len ≤ f.size then some (bytesAt f.bytes off len) else none := by
  have hsize : f.size = f.bytes.length := rfl
  have hsmall := f.small
  obtain ⟨n, rfl⟩ : ∃ n, len = n + 1 := ⟨len - 1, by omega⟩
  have hread : (bytesAt f.bytes off (n + 1)).length = min (n + 1) (f.size - off) := by
    unfold bytesAt
    rw [length_take, length_drop, hsize]
  have hmod : (off + 0) % 2 ^ 32 = off := Nat.mod_eq_of_lt hoff
  rw [VfsFile.preadLoop, length_nil, if_pos (Nat.succ_pos n), hmod, Nat.sub_zero]
  change (if (bytesAt f.bytes off (n + 1)).length = 0 then _ else f.vfs.preadLoop off (n + 1) n
    (bytesAt f.bytes off (n + 1))) = _
  by_cases hin : off + (n + 1) ≤ f.size
  · rw [if_neg (by omega), if_pos hin]
    cases n with
    | zero => rfl
    | succ n => rw [VfsFile.preadLoop, if_neg (by omega)]
  rw [if_neg hin]
  by_cases hpast : f.size ≤ off
  · rw [if_pos (by omega), if_neg (show ¬ off < f.vfs.size from Nat.not_lt.mpr hpast)]
  -- the second read begins at the end of the file
  rw [if_neg (by omega)]
  obtain ⟨k, rfl⟩ : ∃ k, n = k + 1 := ⟨n - 1, by omega⟩
  have hnone : bytesAt f.bytes f.size (k + 1 + 1 - (f.size - off)) = [] := by
    unfold bytesAt
    rw [hsize, drop_length, take_nil]
  have hnext : (off + (bytesAt f.bytes off (k + 1 + 1)).length) % 2 ^ 32 = f.size := by
    rw [hread, Nat.mod_eq_of_lt (by omega)]
    omega
  rw [VfsFile.preadLoop, if_pos (by omega), hnext]
  change (if (bytesAt f.bytes f.size (k + 1 + 1 - (bytesAt f.bytes off (k + 1 + 1)).length)).length = 0 then
    (if f.size < f.size then _ else _) else _) = none
  rw [hread, show min (k + 1 + 1) (f.size - off) = f.size - off by omega, hnone, length_nil, if_pos rfl,
    if_neg (lt_irrefl _)]

variable {f : ElfFile}

theorem gives_pread (hoff : off < 2 ^ 32)
    (h : (vfsPreadExact f off len).Gives m m' bs) : m' = m ∧ bs = bytesAt f.bytes off len := by
  obtain ⟨hm, hloop⟩ := gives_vfsPreadExact.mp h
  refine ⟨hm, ?_⟩
  by_cases hlen : len = 0
  · subst hlen
    exact (Option.some.inj hloop).symm.trans (bytesAt_zero _ _).symm
  rw [preadLoop_whole f hoff hlen] at hloop
  split at hloop
  · exact (Option.some.inj hloop).symm
  · cases hloop

theorem pread_gives (h : off + len ≤ f.size) : (vfsPreadExact f off len).Gives m m (bytesAt f.bytes off len) := by
  have hsmall : f.size < 2 ^ 32 := f.small
  refine gives_vfsPreadExact.mpr ⟨rfl, ?_⟩
  by_cases hlen : len = 0
  · subst hlen
    exact congrArg some (bytesAt_zero _ _).symm
  rw [preadLoop_whole f (by omega) hlen, if_pos h]

variable {addr : UInt64}

theorem safe_store : Safe (Access.Confined L idx) (storeBytes addr bs) m ↔ OnUserPages L idx addr bs.length := by
  unfold storeBytes
  rw [safe_bind, safe_emit]
  refine Iff.trans (and_iff_left ?_) (ownPages_iff addr bs.length)
  intro s' u _
  simp

theorem safe_loadWord : Safe (Access.Confined L idx) (loadWord addr) m ↔ OnUserPages L idx addr 8 := by
  unfold loadWord
  rw [safe_bind, safe_emit]
  refine Iff.trans (and_iff_left ?_) (ownPages_iff addr 8)
  intro s' u _
  rw [safe_bind]
  simp

theorem gives_loadWord {v : UInt64} : (loadWord addr).Gives m m' v ↔ m' = m ∧ v = m.word addr := by
  unfold loadWord
  rw [gives_bind]
  constructor
  · rintro ⟨m₁, u, hemit, h⟩
    obtain rfl := gives_emit.mp hemit
    obtain ⟨m₂, r, hget, h⟩ := (gives_bind _ _).mp h
    obtain ⟨rfl, rfl⟩ := gives_get.mp hget
    exact gives_pure.mp h
  · rintro ⟨rfl, rfl⟩
    exact ⟨m', (), gives_emit.mpr rfl,
      (gives_bind _ _).mpr ⟨m', m', gives_get.mpr ⟨rfl, rfl⟩, gives_pure.mpr ⟨rfl, rfl⟩⟩⟩

variable {α : Type}

theorem safe_loadWord_bind {k : UInt64 → Load α} : Safe (Access.Confined L idx) (loadWord addr >>= k) m ↔
      OnUserPages L idx addr 8 ∧ Safe (Access.Confined L idx) (k (m.word addr)) m := by
  rw [safe_bind, safe_loadWord]
  refine and_congr_right fun _ => ⟨fun h => h m _ (gives_loadWord.mpr ⟨rfl, rfl⟩), fun h m' v hgives => ?_⟩
  obtain ⟨rfl, rfl⟩ := gives_loadWord.mp hgives
  exact h

theorem gives_loadWord_bind {k : UInt64 → Load α} {a : α} :
    (loadWord addr >>= k).Gives m m' a ↔ (k (m.word addr)).Gives m m' a := by
  rw [gives_bind]
  constructor
  · intro h
    obtain ⟨m₁, v, hload, hk⟩ := h
    obtain ⟨hm, hv⟩ := gives_loadWord.mp hload
    rwa [hm, hv] at hk
  · intro h
    exact ⟨m, _, gives_loadWord.mpr ⟨rfl, rfl⟩, h⟩

theorem safe_pread_bind {k : Bytes → Load α} (hlen : len ≠ 0) :
    Safe (Access.Confined L idx) (vfsPreadExact f off len >>= k) m ↔
      off + len ≤ f.size ∧ Safe (Access.Confined L idx) (k (bytesAt f.bytes off len)) m := by
  rw [safe_bind, safe_pread]
  constructor
  · rintro ⟨hin, h⟩
    exact ⟨hin hlen, h m _ (pread_gives (hin hlen))⟩
  · rintro ⟨hin, h⟩
    have hsmall : f.size < 2 ^ 32 := f.small
    refine ⟨fun _ => hin, fun m' bs hgives => ?_⟩
    obtain ⟨rfl, rfl⟩ := gives_pread (by omega) hgives
    exact h

theorem gives_store {u : Unit} : (storeBytes addr bs).Gives m m' u ↔ m' = m.stored addr bs := by
  unfold storeBytes
  rw [gives_bind]
  constructor
  · intro h
    obtain ⟨m₁, u', hemit, hmodify⟩ := h
    have hm : m₁ = m := gives_emit.mp hemit
    rw [hm] at hmodify
    exact gives_modify.mp hmodify
  · intro h
    exact ⟨m, (), gives_emit.mpr rfl, gives_modify.mpr h⟩

theorem safe_store_bind {k : Unit → Load α} : Safe (Access.Confined L idx) (storeBytes addr bs >>= k) m ↔
      OnUserPages L idx addr bs.length ∧ Safe (Access.Confined L idx) (k ()) (m.stored addr bs) := by
  rw [safe_bind, safe_store]
  refine and_congr_right fun _ => ⟨fun h => h _ () (gives_store.mpr rfl), fun h m' v hgives => ?_⟩
  rw [gives_store.mp hgives]
  exact h

theorem onUserPages_add {a b : ℕ} :
    OnUserPages L idx addr (a + b) ↔ OnUserPages L idx addr a ∧ OnUserPages L idx (addr + a.toUInt64) b := by
  have hshift : ∀ i : ℕ, addr + a.toUInt64 + i.toUInt64 = addr + (a + i).toUInt64 := by
    intro i
    rw [UInt64.add_assoc]
    exact congrArg (addr + ·) (ofNat_add a i).symm
  constructor
  · intro h
    refine ⟨fun i hi => h i (by omega), fun i hi => ?_⟩
    rw [hshift]
    exact h (a + i) (by omega)
  · intro h i hi
    by_cases hia : i < a
    · exact h.1 i hia
    have hrest := h.2 (i - a) (by omega)
    rw [hshift, show a + (i - a) = i by omega] at hrest
    exact hrest

theorem onUserPages_zero : OnUserPages L idx addr 0 := by
  intro i hi
  omega

end Accesses

/-! ## Sums that wrap -/

/-- A part that passes the check on the sum is in the file, by its 32-bit offset, exactly when the sum
does not wrap. -/
theorem noWrap_iff {f : ElfFile} {a : UInt64} {n : ℕ} (hn : n < 2 ^ 32) (h : (a.toNat + n) % 2 ^ 64 ≤ f.size) :
    NoWrap a n ↔ a.toUInt32.toNat + n ≤ f.size := by
  have hsize : f.size < 2 ^ 32 := f.small
  have ha := a.toNat_lt
  rw [UInt64.toNat_toUInt32]
  unfold NoWrap
  constructor
  · intro hsum
    rw [Nat.mod_eq_of_lt hsum] at h
    omega
  · intro hin
    by_contra hsum
    omega

/-! ## Segments -/

section Segments

variable {L : KernelLayout} {idx : Fin procMaxTasks} {f : ElfFile} {v : VfsFile} {ph : ProgramHeader} {dst : UInt64}

/-- The length of a piece: up to the end of the segment or of a piece of the file. -/
def pieceLen (ph : ProgramHeader) (done : ℕ) : ℕ :=
  min (ph.filesz.toNat - done) (elfIoChunk - (ph.offset + done.toUInt64).toNat % elfIoChunk)

theorem copySegment_succ (fuel done : ℕ) (h : done < ph.filesz.toNat) : copySegment v ph dst (fuel + 1) done = (do
      let bs ← vfsPreadExact v (ph.offset + done.toUInt64).toUInt32.toNat (pieceLen ph done)
      storeBytes (dst + done.toUInt64) bs
      copySegment v ph dst fuel (done + pieceLen ph done)) := by
  rw [copySegment, if_pos h]
  rfl

theorem copySegment_end (fuel done : ℕ) (h : ¬ done < ph.filesz.toNat) : copySegment v ph dst fuel done = pure () := by
  cases fuel with
  | zero => rfl
  | succ fuel => rw [copySegment, if_neg h]

variable {done : ℕ}

theorem pieceLen_pos (h : done < ph.filesz.toNat) : 0 < pieceLen ph done := by
  have hmis := Nat.mod_lt (ph.offset + done.toUInt64).toNat (show 0 < elfIoChunk by decide)
  unfold pieceLen
  omega

theorem pieceLen_le (h : done ≤ ph.filesz.toNat) : done + pieceLen ph done ≤ ph.filesz.toNat := by
  unfold pieceLen
  omega

/-- An offset into the segment, as long as the sum is below the top. -/
theorem offset_add (h : ph.offset.toNat + done < 2 ^ 64) :
    (ph.offset + done.toUInt64).toNat = ph.offset.toNat + done := by
  rw [toNat_add, Nat.toUInt64_eq, UInt64.toNat_ofNat']
  omega

theorem bytesAt_length {off n : ℕ} (h : off + n ≤ f.size) : (bytesAt f.bytes off n).length = n := by
  have hsize : f.size = f.bytes.length := rfl
  unfold bytesAt
  rw [length_take, length_drop]
  omega

/-- The offset of a piece of a segment that lies in the file. -/
theorem piece_offset (hin : ph.offset.toNat + ph.filesz.toNat ≤ f.size) (hdone : done < ph.filesz.toNat) :
    (ph.offset + done.toUInt64).toUInt32.toNat = ph.offset.toNat + done := by
  have hsize : f.size < 2 ^ 32 := f.small
  rw [UInt64.toNat_toUInt32, offset_add (by omega)]
  omega

theorem next_piece (done : ℕ) : dst + (done + pieceLen ph done).toUInt64 =
    dst + done.toUInt64 + (pieceLen ph done).toUInt64 := by
  rw [UInt64.add_assoc]
  exact congrArg (dst + ·) (ofNat_add _ _)

/-- A segment that lies in the file goes to user pages piece by piece. -/
theorem safe_copySegment (hin : ph.offset.toNat + ph.filesz.toNat ≤ f.size) :
    ∀ (fuel done : ℕ) (m : Memory), done ≤ ph.filesz.toNat → ph.filesz.toNat ≤ done + fuel →
      (Safe (Access.Confined L idx) (copySegment f ph dst fuel done) m ↔
        OnUserPages L idx (dst + done.toUInt64) (ph.filesz.toNat - done)) := by
  intro fuel
  induction fuel with
  | zero =>
    intro done m hle hfuel
    rw [copySegment_end 0 done (by omega), show ph.filesz.toNat - done = 0 by omega]
    exact iff_of_true (safe_pure.mpr trivial) onUserPages_zero
  | succ fuel ih =>
    intro done m hle hfuel
    by_cases hdone : done < ph.filesz.toNat
    · have hpos := pieceLen_pos hdone
      have hend := pieceLen_le hle
      have hread : ph.offset.toNat + done + pieceLen ph done ≤ f.size := by omega
      rw [copySegment_succ fuel done hdone, piece_offset hin hdone, safe_pread_bind (by omega), safe_store_bind,
        bytesAt_length hread, ih _ _ hend (by omega), next_piece]
      rw [show ph.filesz.toNat - done = pieceLen ph done + (ph.filesz.toNat - (done + pieceLen ph done)) by omega,
        onUserPages_add]
      exact and_iff_right hread
    · rw [copySegment_end (fuel + 1) done hdone, show ph.filesz.toNat - done = 0 by omega]
      exact iff_of_true (safe_pure.mpr trivial) onUserPages_zero

/-- The offset of a piece of a segment that ends below 2^32. -/
theorem piece_position (hlt : ph.offset.toNat + ph.filesz.toNat < 2 ^ 32) (hdone : done < ph.filesz.toNat) :
    (ph.offset + done.toUInt64).toUInt32.toNat = ph.offset.toNat + done ∧
      pieceLen ph done = min (ph.filesz.toNat - done) (4096 - (ph.offset.toNat + done) % 4096) := by
  unfold pieceLen
  rw [UInt64.toNat_toUInt32, offset_add (by omega)]
  exact ⟨by omega, rfl⟩

/-- A piece ends with the segment, or where a piece of the file ends. -/
theorem pieceLen_aligned (hlt : ph.offset.toNat + ph.filesz.toNat < 2 ^ 32) (hdone : done < ph.filesz.toNat) :
    done + pieceLen ph done = ph.filesz.toNat ∨ (ph.offset.toNat + (done + pieceLen ph done)) % 4096 = 0 := by
  have hlen := (piece_position hlt hdone).2
  omega

/-- A segment is copied as a whole when each piece gives its part of the bytes. -/
theorem gives_copySegment {bs : Bytes} (hlen : bs.length = ph.filesz.toNat)
    (hlt : ph.offset.toNat + ph.filesz.toNat < 2 ^ 32)
    (hpiece : ∀ done < ph.filesz.toNat, done = 0 ∨ (ph.offset.toNat + done) % 4096 = 0 →
      v.preadLoop (ph.offset.toNat + done) (pieceLen ph done) (pieceLen ph done) [] =
        some (bytesAt bs done (pieceLen ph done))) :
    ∀ (fuel done : ℕ) (m : Memory), done = 0 ∨ done = ph.filesz.toNat ∨ (ph.offset.toNat + done) % 4096 = 0 →
      done ≤ ph.filesz.toNat → ph.filesz.toNat ≤ done + fuel →
      (copySegment v ph dst fuel done).Gives m
        (m.stored (dst + done.toUInt64) (bytesAt bs done (ph.filesz.toNat - done))) () := by
  have hbytes : ∀ {k n : ℕ}, k + n ≤ ph.filesz.toNat → (bytesAt bs k n).length = n := by
    intro k n hin
    unfold bytesAt
    rw [length_take, length_drop]
    omega
  intro fuel
  induction fuel with
  | zero =>
    intro done m _ hle hfuel
    rw [copySegment_end 0 done (by omega), show ph.filesz.toNat - done = 0 by omega, bytesAt_zero, stored_nil]
    exact gives_pure.mpr ⟨rfl, rfl⟩
  | succ fuel ih =>
    intro done m hstart hle hfuel
    by_cases hdone : done < ph.filesz.toNat
    · have hpos := pieceLen_pos hdone
      have hend := pieceLen_le hle
      have haligned := pieceLen_aligned hlt hdone
      have hplen := hbytes hend
      have hrest := ih (done + pieceLen ph done)
        (m.stored (dst + done.toUInt64) (bytesAt bs done (pieceLen ph done))) (Or.inr haligned) hend (by omega)
      -- the two parts are stored one behind the other
      have hfits : (bytesAt bs done (pieceLen ph done)).length +
          (bytesAt bs (done + pieceLen ph done) (ph.filesz.toNat - (done + pieceLen ph done))).length ≤ 2 ^ 64 := by
        rw [hplen, hbytes (by omega)]
        omega
      rw [copySegment_succ fuel done hdone, (piece_position hlt hdone).1]
      rw [show ph.filesz.toNat - done = pieceLen ph done + (ph.filesz.toNat - (done + pieceLen ph done)) by omega,
        bytesAt_add, ← stored_append m _ hfits, hplen, ← next_piece]
      exact (gives_bind _ _).mpr ⟨m, _, gives_vfsPreadExact.mpr ⟨rfl, hpiece done hdone (by omega)⟩,
        (gives_bind _ _).mpr ⟨_, (), gives_store.mpr rfl, hrest⟩⟩
    · rw [copySegment_end (fuel + 1) done hdone, show ph.filesz.toNat - done = 0 by omega, bytesAt_zero, stored_nil]
      exact gives_pure.mpr ⟨rfl, rfl⟩

/-- A segment that lies in a file that is read as a whole. -/
theorem gives_copySegment_whole (hin : ph.offset.toNat + ph.filesz.toNat ≤ f.size) (m : Memory) :
    (copySegment f ph dst ph.filesz.toNat 0).Gives m
      (m.stored dst (bytesAt f.bytes ph.offset.toNat ph.filesz.toNat)) () := by
  have hsize : f.size < 2 ^ 32 := f.small
  have hcopy := @gives_copySegment f ph dst (bytesAt f.bytes ph.offset.toNat ph.filesz.toNat) (bytesAt_length hin)
    (by omega) (fun done hdone _ => by
      have hpos := pieceLen_pos hdone
      have hend := pieceLen_le hdone.le
      rw [preadLoop_whole f (by omega) (by omega), if_pos (by omega)]
      unfold bytesAt
      rw [drop_take, take_take, drop_drop, Nat.min_eq_left (by omega)]) ph.filesz.toNat 0 m (Or.inl rfl)
    (Nat.zero_le _) (by omega)
  have hzero : dst + Nat.toUInt64 0 = dst := UInt64.add_zero _
  have hall : bytesAt (bytesAt f.bytes ph.offset.toNat ph.filesz.toNat) 0 ph.filesz.toNat =
      bytesAt f.bytes ph.offset.toNat ph.filesz.toNat := by
    unfold bytesAt
    rw [drop_zero, take_take, Nat.min_self]
  rwa [hzero, Nat.sub_zero, hall] at hcopy

/-- When the sum wraps, the piece that ends at the top is not in the file. -/
theorem not_safe_copySegment (hwrap : 2 ^ 64 ≤ ph.offset.toNat + ph.filesz.toNat) :
    ∀ (fuel done : ℕ) (m : Memory), ph.offset.toNat + done < 2 ^ 64 → ph.filesz.toNat ≤ done + fuel →
      ¬ Safe (Access.Confined L idx) (copySegment f ph dst fuel done) m := by
  have hsize : f.size < 2 ^ 32 := f.small
  intro fuel
  induction fuel with
  | zero =>
    intro done m hlt hfuel
    omega
  | succ fuel ih =>
    intro done m hlt hfuel hsafe
    have hdone : done < ph.filesz.toNat := by omega
    have hpos := pieceLen_pos hdone
    rw [copySegment_succ fuel done hdone, safe_pread_bind (by omega), safe_store_bind,
      UInt64.toNat_toUInt32, offset_add hlt] at hsafe
    obtain ⟨hread, -, hrest⟩ := hsafe
    by_cases hmore : ph.offset.toNat + (done + pieceLen ph done) < 2 ^ 64
    · exact ih _ _ hmore (by omega) hrest
    -- a piece ends with a piece of the file, so this one ends exactly at the top
    have hpiece : pieceLen ph done ≤ 4096 - (ph.offset.toNat + done) % 4096 := by
      unfold pieceLen
      rw [offset_add hlt]
      exact min_le_right _ _
    omega

end Segments

/-! ## The parts of an image -/

section Parts

variable {L : KernelLayout} {idx : Fin procMaxTasks} {f : ElfFile}

variable {α : Type} {ph : ProgramHeader} {P : Prop} {m : Memory}

theorem safe_zeroFill {dst : UInt64} {k : Unit → Load α}
    (hmem : ph.filesz.toNat ≤ ph.memsz.toNat) (hk : ∀ m', Safe (Access.Confined L idx) (k ()) m' ↔ P) :
    Safe (Access.Confined L idx) (if ph.filesz < ph.memsz then
          storeBytes (dst + ph.filesz) (List.replicate (ph.memsz - ph.filesz).toNat 0) >>= fun _ => k ()
        else k ()) m ↔
      OnUserPages L idx (dst + ph.filesz) (ph.memsz.toNat - ph.filesz.toNat) ∧ P := by
  have hle : ph.filesz ≤ ph.memsz := hmem
  rw [safe_ite, UInt64.lt_iff_toNat_lt, safe_store_bind, hk, hk, length_replicate,
    UInt64.toNat_sub_of_le _ _ hle]
  constructor
  · rintro ⟨hfill, hskip⟩
    by_cases hlt : ph.filesz.toNat < ph.memsz.toNat
    · exact hfill hlt
    · rw [show ph.memsz.toNat - ph.filesz.toNat = 0 by omega]
      exact ⟨onUserPages_zero, hskip hlt⟩
  · intro h
    exact ⟨fun _ => h, fun _ => h.2⟩

variable {bias : UInt64}

theorem safe_segment {k : Unit → Load α}
    (hok : segmentOk f bias ph = true) (hk : ∀ m', Safe (Access.Confined L idx) (k ()) m' ↔ P) :
    Safe (Access.Confined L idx) (do
        copySegment f ph (bias + ph.vaddr) ph.filesz.toNat 0
        if ph.filesz < ph.memsz then
          storeBytes (bias + ph.vaddr + ph.filesz) (List.replicate (ph.memsz - ph.filesz).toNat 0)
        k ()) m ↔
      NoWrap ph.offset ph.filesz.toNat ∧ OnUserPages L idx (bias + ph.vaddr) ph.memsz.toNat ∧ P := by
  unfold segmentOk at hok
  obtain ⟨hsum, hmem, -⟩ := of_decide_eq_true hok
  rw [UInt64.le_iff_toNat_le] at hmem
  rw [toNat_add] at hsum
  rw [safe_bind]
  by_cases hwrap : NoWrap ph.offset ph.filesz.toNat
  · have hin : ph.offset.toNat + ph.filesz.toNat ≤ f.size := by
      rwa [Nat.mod_eq_of_lt hwrap] at hsum
    have hcopy := @safe_copySegment L idx f ph (bias + ph.vaddr) hin ph.filesz.toNat 0 m (Nat.zero_le _) (by omega)
    have hgives := @gives_copySegment_whole f ph (bias + ph.vaddr) hin m
    have hzero : bias + ph.vaddr + Nat.toUInt64 0 = bias + ph.vaddr := UInt64.add_zero _
    rw [hcopy, hzero, Nat.sub_zero, show ph.memsz.toNat =
      ph.filesz.toNat + (ph.memsz.toNat - ph.filesz.toNat) by omega, onUserPages_add, and_iff_right hwrap, and_assoc]
    have hfilesz : ph.filesz.toNat.toUInt64 = ph.filesz := UInt64.ofNat_toNat
    rw [hfilesz]
    refine and_congr_right fun _ => ?_
    constructor
    · intro h
      exact (safe_zeroFill hmem hk).mp (h _ () hgives)
    · intro h m' u _
      exact (safe_zeroFill hmem hk).mpr h
  · refine iff_of_false (fun h => ?_) (fun h => hwrap h.1)
    unfold NoWrap at hwrap
    refine not_safe_copySegment ?_ ph.filesz.toNat 0 m ?_ ?_ h.1
    · omega
    · have hoff := ph.offset.toNat_lt
      omega
    · omega

theorem safe_loadSegments (bias : UInt64) : ∀ (phs : List ProgramHeader) (hi : UInt64) (m : Memory),
    Safe (Access.Confined L idx) (loadSegments f bias phs hi) m ↔ SegmentsExact L idx f bias phs := by
  intro phs
  induction phs with
  | nil =>
    intro hi m
    exact safe_pure
  | cons ph phs ih =>
    intro hi m
    unfold loadSegments SegmentsExact
    by_cases htype : ph.type ≠ ptLoad
    · rw [if_pos htype, if_pos htype]
      exact ih hi m
    rw [if_neg htype, if_neg htype]
    cases hok : segmentOk f bias ph with
    | false => exact iff_of_true (safe_fail.mpr trivial) trivial
    | true => exact safe_segment (k := fun _ => loadSegments f bias phs _) hok fun m' => ih _ m'

variable {v : VfsFile} {m' : Memory}

theorem gives_segment {bs : Bytes} {k : Unit → Load α} {a : α} (hok : segmentOk v bias ph = true)
    (hcopy : (copySegment v ph (bias + ph.vaddr) ph.filesz.toNat 0).Gives m (m.stored (bias + ph.vaddr) bs) ()) :
    (do
        copySegment v ph (bias + ph.vaddr) ph.filesz.toNat 0
        if ph.filesz < ph.memsz then
          storeBytes (bias + ph.vaddr + ph.filesz) (List.replicate (ph.memsz - ph.filesz).toNat 0)
        k () : Load α).Gives m m' a ↔ (k ()).Gives (m.placed ph (bias + ph.vaddr) bs) m' a := by
  unfold segmentOk at hok
  obtain ⟨-, hmem, -⟩ := of_decide_eq_true hok
  have hfill : ∀ m₁ : Memory, (if ph.filesz < ph.memsz then
      storeBytes (bias + ph.vaddr + ph.filesz) (List.replicate (ph.memsz - ph.filesz).toNat 0) >>= fun _ => k ()
      else k ()).Gives m₁ m' a ↔ (k ()).Gives (m₁.stored (bias + ph.vaddr + ph.filesz)
        (List.replicate (ph.memsz - ph.filesz).toNat 0)) m' a := by
    intro m₁
    by_cases hlt : ph.filesz < ph.memsz
    · rw [if_pos hlt, gives_bind]
      constructor
      · rintro ⟨m₂, u, hstore, hk⟩
        rwa [← gives_store.mp hstore]
      · intro hk
        exact ⟨_, (), gives_store.mpr rfl, hk⟩
    · have heq : ph.memsz = ph.filesz := UInt64.le_antisymm (UInt64.not_lt.mp hlt) hmem
      rw [if_neg hlt, heq, UInt64.sub_self, show (0 : UInt64).toNat = 0 from rfl, replicate_zero, stored_nil]
  rw [gives_bind]
  constructor
  · rintro ⟨m₁, u, hgives, hrest⟩
    obtain ⟨rfl, -⟩ := hgives.unique hcopy
    exact (hfill _).mp hrest
  · intro hk
    exact ⟨_, (), hcopy, (hfill _).mpr hk⟩

/-- The loop over the segments puts them all in their places, unless a check fails. -/
theorem gives_loadSegments {bytes : ProgramHeader → Bytes} {hi' : UInt64} :
    ∀ {phs : List ProgramHeader} (hi : UInt64) (m : Memory), SegmentsCopied v bytes bias phs →
      ((loadSegments v bias phs hi).Gives m m' hi' ↔
        SegmentsOk v bias phs ∧ m' = m.withSegments bytes bias phs ∧ hi' = segmentsHi bias phs hi) := by
  intro phs
  induction phs with
  | nil =>
    intro hi m _
    exact gives_pure.trans (and_iff_right fun ph hph => absurd hph not_mem_nil).symm
  | cons ph phs ih =>
    intro hi m hcopied
    unfold loadSegments
    unfold SegmentsCopied at hcopied
    have hok : SegmentsOk v bias (ph :: phs) ↔
        (ph.type = ptLoad → segmentOk v bias ph = true) ∧ SegmentsOk v bias phs := forall_mem_cons
    by_cases htype : ph.type ≠ ptLoad
    · have hmemory : m.withSegments bytes bias (ph :: phs) = m.withSegments bytes bias phs :=
        congrArg (List.foldl _ · phs) (if_neg htype)
      have hhi : segmentsHi bias (ph :: phs) hi = segmentsHi bias phs hi := congrArg (List.foldl _ · phs) (if_neg htype)
      rw [if_pos htype] at hcopied
      rw [if_pos htype, hok, and_iff_right fun habs => absurd habs htype, hmemory, hhi]
      exact ih hi m hcopied
    rw [if_neg htype] at hcopied
    rw [if_neg htype, hok]
    cases hseg : segmentOk v bias ph with
    | false =>
      refine iff_of_false ?_ (fun h => absurd (h.1.1 (not_not.mp htype)) (by decide))
      intro hgives
      exact gives_fail.mp hgives
    | true =>
      have hmemory : m.withSegments bytes bias (ph :: phs) =
          (m.placed ph (bias + ph.vaddr) (bytes ph)).withSegments bytes bias phs :=
        congrArg (List.foldl _ · phs) (if_pos (not_not.mp htype))
      have hhi : segmentsHi bias (ph :: phs) hi = segmentsHi bias phs (max hi (bias + ph.vaddr + ph.memsz)) :=
        congrArg (List.foldl _ · phs) (if_pos (not_not.mp htype))
      rw [hseg] at hcopied
      rw [and_iff_right fun _ => rfl, hmemory, hhi, ← ih (max hi (bias + ph.vaddr + ph.memsz)) _ hcopied.2]
      exact gives_segment (k := fun _ => loadSegments v bias phs (max hi (bias + ph.vaddr + ph.memsz)))
        hseg (hcopied.1 m)

theorem segmentsCopied_whole : ∀ {phs : List ProgramHeader}, SegmentsExact L idx f bias phs →
    SegmentsCopied f (fun ph => bytesAt f.bytes ph.offset.toNat ph.filesz.toNat) bias phs := by
  intro phs
  induction phs with
  | nil => exact fun _ => trivial
  | cons ph phs ih =>
    intro hexact
    unfold SegmentsExact at hexact
    unfold SegmentsCopied
    by_cases htype : ph.type ≠ ptLoad
    · rw [if_pos htype] at hexact ⊢
      exact ih hexact
    rw [if_neg htype] at hexact ⊢
    cases hseg : segmentOk f bias ph with
    | false => exact trivial
    | true =>
      rw [hseg] at hexact
      obtain ⟨hsum, -⟩ := of_decide_eq_true hseg
      rw [toNat_add, Nat.mod_eq_of_lt hexact.1] at hsum
      exact ⟨gives_copySegment_whole hsum, ih hexact.2.2⟩

variable {phs : List ProgramHeader}

theorem gives_loadSegments_whole (hi : UInt64) (m : Memory)
    (hexact : SegmentsExact L idx f bias phs) : (∃ hi', (loadSegments f bias phs hi).Gives m m' hi') ↔
      SegmentsOk f bias phs ∧ m' = f.segments bias phs m := by
  constructor
  · rintro ⟨hi', hgives⟩
    obtain ⟨hok, hm, -⟩ := (gives_loadSegments hi m (segmentsCopied_whole hexact)).mp hgives
    exact ⟨hok, hm⟩
  · rintro ⟨hok, hm⟩
    exact ⟨_, (gives_loadSegments hi m (segmentsCopied_whole hexact)).mpr ⟨hok, hm, rfl⟩⟩

/-- The address of an entry, counted from the one before. -/
theorem next_entry (dyn : UInt64) (k : ℕ) : dyn + 16 + 16 * k.toUInt64 = dyn + 16 * (k + 1).toUInt64 := by
  rw [show (k + 1).toUInt64 = k.toUInt64 + 1 from ofNat_add k 1, UInt64.mul_add, UInt64.mul_one,
    UInt64.add_assoc, UInt64.add_comm 16]

theorem first_entry (dyn : UInt64) : dyn + 16 * Nat.toUInt64 0 = dyn := by
  rw [show Nat.toUInt64 0 = 0 from rfl, UInt64.mul_zero, UInt64.add_zero]

variable {dyn : UInt64}

theorem dynamicLen_zero : DynamicLen m dyn 0 ↔ m.word dyn = 0 := by
  unfold DynamicLen
  rw [first_entry]
  exact and_iff_left fun k hk => by omega

variable {n : ℕ}

theorem dynamicLen_succ : DynamicLen m dyn (n + 1) ↔ m.word dyn ≠ 0 ∧ DynamicLen m (dyn + 16) n := by
  unfold DynamicLen
  simp only [next_entry]
  constructor
  · rintro ⟨hnull, hbefore⟩
    have hfirst := hbefore 0 (Nat.succ_pos n)
    rw [first_entry] at hfirst
    exact ⟨hfirst, hnull, fun k hk => hbefore (k + 1) (by omega)⟩
  · rintro ⟨hfirst, hnull, hbefore⟩
    refine ⟨hnull, fun k hk => ?_⟩
    cases k with
    | zero => rwa [first_entry]
    | succ k => exact hbefore k (by omega)

theorem dynamicLen_unique {n' : ℕ} (h : DynamicLen m dyn n) (h' : DynamicLen m dyn n') : n = n' := by
  rcases Nat.lt_trichotomy n n' with hlt | heq | hlt
  · exact absurd h.1 (h'.2 n hlt)
  · exact heq
  · exact absurd h'.1 (h.2 n' hlt)

theorem dynamicPages_zero : DynamicPages L idx m dyn 0 ↔
    OnUserPages L idx dyn 8 ∧ (IsRelaTag (m.word dyn) → OnUserPages L idx (dyn + 8) 8) := by
  unfold DynamicPages
  constructor
  · intro h
    have hfirst := h 0 (Nat.le_refl 0)
    rwa [first_entry] at hfirst
  · intro h k hk
    rw [Nat.le_zero.mp hk, first_entry]
    exact h

theorem dynamicPages_succ : DynamicPages L idx m dyn (n + 1) ↔
    (OnUserPages L idx dyn 8 ∧ (IsRelaTag (m.word dyn) → OnUserPages L idx (dyn + 8) 8)) ∧
      DynamicPages L idx m (dyn + 16) n := by
  unfold DynamicPages
  simp only [next_entry]
  constructor
  · intro h
    have hfirst := h 0 (Nat.zero_le _)
    rw [first_entry] at hfirst
    exact ⟨hfirst, fun k hk => h (k + 1) (by omega)⟩
  · rintro ⟨hfirst, hrest⟩ k hk
    cases k with
    | zero =>
      rw [first_entry]
      exact hfirst
    | succ k => exact hrest k (by omega)

variable {fuel : ℕ} {t : RelaTable}

/-- The step of the loop over the dynamic entries; the value is read behind three tags only. -/
theorem gives_scanDynamic_succ {t' : RelaTable} (h : m.word dyn ≠ 0) : (scanDynamic (fuel + 1) dyn t).Gives m m' t' ↔
      (scanDynamic fuel (dyn + 16) (t.add (m.word dyn) (m.word (dyn + 8)))).Gives m m' t' := by
  unfold RelaTable.add
  rw [scanDynamic, gives_loadWord_bind, if_neg h]
  by_cases haddr : m.word dyn = 7
  · rw [if_pos haddr, if_pos haddr, gives_loadWord_bind]
  rw [if_neg haddr, if_neg haddr]
  by_cases hsz : m.word dyn = 8
  · rw [if_pos hsz, if_pos hsz, gives_loadWord_bind]
  rw [if_neg hsz, if_neg hsz]
  by_cases hent : m.word dyn = 9
  · rw [if_pos hent, if_pos hent, gives_loadWord_bind]
  rw [if_neg hent, if_neg hent]

theorem gives_scanDynamic : ∀ {n fuel : ℕ} {dyn : UInt64} (t : RelaTable), n < fuel →
    DynamicLen m dyn n → (scanDynamic fuel dyn t).Gives m m (relaTable m n dyn t) := by
  intro n
  induction n with
  | zero =>
    intro fuel dyn t hn hlen
    obtain ⟨fuel, rfl⟩ : ∃ k, fuel = k + 1 := ⟨fuel - 1, by omega⟩
    unfold scanDynamic
    rw [gives_loadWord_bind, if_pos (dynamicLen_zero.mp hlen)]
    exact gives_pure.mpr ⟨rfl, rfl⟩
  | succ n ih =>
    intro fuel dyn t hn hlen
    obtain ⟨fuel, rfl⟩ : ∃ k, fuel = k + 1 := ⟨fuel - 1, by omega⟩
    obtain ⟨hword, hrest⟩ := dynamicLen_succ.mp hlen
    exact (gives_scanDynamic_succ hword).mpr (ih _ (by omega) hrest)

theorem safe_scanDynamic_succ (h : m.word dyn ≠ 0) :
    Safe (Access.Confined L idx) (scanDynamic (fuel + 1) dyn t) m ↔
      (OnUserPages L idx dyn 8 ∧ (IsRelaTag (m.word dyn) → OnUserPages L idx (dyn + 8) 8)) ∧
        Safe (Access.Confined L idx)
          (scanDynamic fuel (dyn + 16) (t.add (m.word dyn) (m.word (dyn + 8)))) m := by
  unfold RelaTable.add
  rw [scanDynamic, safe_loadWord_bind, if_neg h, and_assoc]
  refine and_congr_right fun _ => ?_
  by_cases haddr : m.word dyn = 7
  · rw [if_pos haddr, if_pos haddr, safe_loadWord_bind]
    exact and_congr_left fun _ => ⟨fun hpage _ => hpage, fun hpage => hpage (.inl haddr)⟩
  rw [if_neg haddr, if_neg haddr]
  by_cases hsz : m.word dyn = 8
  · rw [if_pos hsz, if_pos hsz, safe_loadWord_bind]
    exact and_congr_left fun _ => ⟨fun hpage _ => hpage, fun hpage => hpage (.inr (.inl hsz))⟩
  rw [if_neg hsz, if_neg hsz]
  by_cases hent : m.word dyn = 9
  · rw [if_pos hent, if_pos hent, safe_loadWord_bind]
    exact and_congr_left fun _ => ⟨fun hpage _ => hpage, fun hpage => hpage (.inr (.inr hent))⟩
  rw [if_neg hent, if_neg hent]
  exact (and_iff_right fun htag => htag.elim (absurd · haddr) fun htag => htag.elim (absurd · hsz)
    (absurd · hent)).symm

theorem safe_scanDynamic : ∀ (fuel : ℕ) (dyn : UInt64) (t : RelaTable),
    Safe (Access.Confined L idx) (scanDynamic fuel dyn t) m ↔
      ∃ n < fuel, DynamicLen m dyn n ∧ DynamicPages L idx m dyn n := by
  intro fuel
  induction fuel with
  | zero =>
    intro dyn t
    refine iff_of_false (fun h => safe_diverge.mp h) ?_
    rintro ⟨n, hn, -⟩
    omega
  | succ fuel ih =>
    intro dyn t
    by_cases hnull : m.word dyn = 0
    · unfold scanDynamic
      rw [safe_loadWord_bind, if_pos hnull, and_iff_left (safe_pure.mpr trivial)]
      have hvalue : IsRelaTag (m.word dyn) → OnUserPages L idx (dyn + 8) 8 := by
        rw [hnull]
        exact fun htag => absurd htag (by decide)
      constructor
      · intro hpage
        exact ⟨0, Nat.succ_pos _, dynamicLen_zero.mpr hnull, dynamicPages_zero.mpr ⟨hpage, hvalue⟩⟩
      · rintro ⟨n, -, hlen, hpages⟩
        obtain rfl := dynamicLen_unique hlen (dynamicLen_zero.mpr hnull)
        exact (dynamicPages_zero.mp hpages).1
    · rw [safe_scanDynamic_succ hnull, ih]
      constructor
      · rintro ⟨hpage, n, hn, hlen, hpages⟩
        exact ⟨n + 1, by omega, dynamicLen_succ.mpr ⟨hnull, hlen⟩, dynamicPages_succ.mpr ⟨hpage, hpages⟩⟩
      · rintro ⟨n, hn, hlen, hpages⟩
        cases n with
        | zero => exact absurd (dynamicLen_zero.mp hlen) hnull
        | succ n =>
          obtain ⟨hpage, hrest⟩ := dynamicPages_succ.mp hpages
          exact ⟨hpage, n, by omega, (dynamicLen_succ.mp hlen).2, hrest⟩

theorem safe_applyRelas (bias ent : UInt64) : ∀ (n : ℕ) (r : UInt64) (m : Memory),
    Safe (Access.Confined L idx) (applyRelas bias ent n r) m ↔ RelasExact L idx bias ent n r m := by
  intro n
  induction n with
  | zero =>
    intro r m
    exact safe_pure
  | succ n ih =>
    intro r m
    unfold applyRelas RelasExact
    rw [safe_loadWord_bind, safe_loadWord_bind, safe_loadWord_bind, and_assoc, and_assoc]
    refine and_congr_right fun _ => and_congr_right fun _ => and_congr_right fun _ => ?_
    by_cases htype : (m.word (r + 8)).toUInt32 ≠ 8
    · rw [if_pos htype, if_pos htype]
      exact ih _ m
    rw [if_neg htype, if_neg htype]
    by_cases hrange : (!userAddrRangeOk (bias + m.word r) 8) = true
    · rw [if_pos hrange, if_pos hrange]
      exact safe_fail
    rw [if_neg hrange, if_neg hrange, safe_store_bind, wordBytes_length, ih]

theorem gives_applyRelas (bias ent : UInt64) : ∀ (n : ℕ) (r : UInt64) (m : Memory),
    (applyRelas bias ent n r).Gives m m' () ↔ relocated bias ent n r m = some m' := by
  intro n
  induction n with
  | zero =>
    intro r m
    exact gives_pure.trans ⟨fun h => congrArg some h.1.symm, fun h => ⟨(Option.some.inj h).symm, rfl⟩⟩
  | succ n ih =>
    intro r m
    unfold applyRelas relocated
    rw [gives_loadWord_bind, gives_loadWord_bind, gives_loadWord_bind]
    by_cases htype : (m.word (r + 8)).toUInt32 ≠ 8
    · rw [if_pos htype, if_pos htype]
      exact ih _ m
    rw [if_neg htype, if_neg htype]
    by_cases hrange : (!userAddrRangeOk (bias + m.word r) 8) = true
    · rw [if_pos hrange, if_pos hrange]
      exact iff_of_false (fun h => gives_fail.mp h) fun h => by cases h
    rw [if_neg hrange, if_neg hrange, ← ih, gives_bind]
    constructor
    · rintro ⟨m₁, u, hstore, hrest⟩
      rwa [← gives_store.mp hstore]
    · intro h
      exact ⟨_, (), gives_store.mpr rfl, h⟩

theorem applyRelas_count (bias : UInt64) (t : RelaTable) :
    (if t.addr = 0 ∨ t.sz = 0 ∨ t.ent < elf64RelaSize then pure ()
      else applyRelas bias t.ent (t.sz / t.ent).toNat (bias + t.addr) : Load Unit) =
      applyRelas bias t.ent t.count (bias + t.addr) := by
  unfold RelaTable.count
  split
  · rfl
  · rfl

theorem safe_edgeLoadRelativeRelocs (phs : List ProgramHeader) (bias : UInt64) (m : Memory) :
    Safe (Access.Confined L idx) (edgeLoadRelativeRelocs phs bias) m ↔ RelocsExact L idx phs bias m := by
  unfold edgeLoadRelativeRelocs RelocsExact
  cases hfind : phs.find? fun ph => ph.type = ptDynamic with
  | none => exact iff_of_true (safe_pure.mpr trivial) fun ph hph => by cases hph
  | some ph =>
    simp only [applyRelas_count]
    rw [safe_bind, safe_scanDynamic]
    constructor
    · rintro ⟨⟨n, hn, hlen, hpages⟩, hrest⟩ ph' hph'
      obtain rfl := Option.some.inj hph'
      exact ⟨n, hn, hlen, hpages, (safe_applyRelas ..).mp (hrest m _ (gives_scanDynamic {} hn hlen))⟩
    · intro h
      obtain ⟨n, hn, hlen, hpages, hrelas⟩ := h ph rfl
      refine ⟨⟨n, hn, hlen, hpages⟩, fun m' t hgives => ?_⟩
      obtain ⟨rfl, rfl⟩ := hgives.unique (gives_scanDynamic {} hn hlen)
      exact (safe_applyRelas ..).mpr hrelas

theorem gives_edgeLoadRelativeRelocs (hexact : RelocsExact L idx phs bias m) :
    (edgeLoadRelativeRelocs phs bias).Gives m m' () ↔ Relocated phs bias m m' := by
  unfold RelocsExact at hexact
  unfold edgeLoadRelativeRelocs Relocated
  cases hfind : phs.find? fun ph => ph.type = ptDynamic with
  | none => exact gives_pure.trans (and_iff_left rfl)
  | some ph =>
    simp only [applyRelas_count]
    obtain ⟨n, hn, hlen, -⟩ := hexact ph hfind
    have hscan := gives_scanDynamic {} hn hlen
    rw [gives_bind]
    constructor
    · rintro ⟨m₁, t, hgives, hrest⟩
      obtain ⟨rfl, rfl⟩ := hgives.unique hscan
      exact ⟨n, hlen, (gives_applyRelas ..).mp hrest⟩
    · rintro ⟨n', hlen', hrelas⟩
      obtain rfl := dynamicLen_unique hlen hlen'
      exact ⟨m, _, hscan, (gives_applyRelas ..).mpr hrelas⟩

/-- A good entry for the interpreter, as the loop tests it. -/
theorem interpOk_iff : interpOk v ph = true ↔
    ¬ (ph.filesz < 2 ∨ 256 ≤ ph.filesz) ∧ ¬ v.size < (ph.offset + ph.filesz).toNat := by
  unfold interpOk
  rw [decide_eq_true_iff, not_or, UInt64.not_lt, UInt64.not_le, Nat.not_lt, and_assoc]

theorem findInterp_cons (ph : ProgramHeader) (phs : List ProgramHeader) (img : ElfLoaded)
    (htype : ¬ ph.type ≠ ptInterp) :
    findInterp v (ph :: phs) img = if !interpOk v ph then fail
      else vfsPreadExact v ph.offset.toUInt32.toNat ph.filesz.toNat >>= fun bs =>
        findInterp v phs { (if ph.type = ptPhdr then { img with phdr := img.loadBias + ph.vaddr } else img) with
            interpPath := some (bs.dropLast.takeWhile (· ≠ 0)) } := by
  rw [findInterp]
  dsimp only
  rw [if_neg htype]
  by_cases hok : interpOk v ph = true
  · obtain ⟨hlen, hsum⟩ := interpOk_iff.mp hok
    rw [if_neg hlen, if_neg hsum, hok]
    rfl
  have hfail : interpOk v ph = false := Bool.eq_false_iff.mpr hok
  rw [hfail, if_pos (show (!false) = true from rfl)]
  by_cases hlen : ph.filesz < 2 ∨ 256 ≤ ph.filesz
  · rw [if_pos hlen]
  · rw [if_neg hlen, if_pos (not_not.mp fun hsum => hok (interpOk_iff.mpr ⟨hlen, hsum⟩))]

/-- A good entry for the interpreter has a name of a few bytes. -/
theorem interpOk_len (h : interpOk v ph = true) :
    ph.filesz.toNat ≠ 0 ∧ ph.filesz.toNat < 2 ^ 32 ∧ (ph.offset.toNat + ph.filesz.toNat) % 2 ^ 64 ≤ v.size := by
  unfold interpOk at h
  obtain ⟨hmin, hmax, hsum⟩ := of_decide_eq_true h
  rw [UInt64.le_iff_toNat_le, show (2 : UInt64).toNat = 2 from rfl] at hmin
  rw [UInt64.lt_iff_toNat_lt, show (256 : UInt64).toNat = 256 from rfl] at hmax
  rw [toNat_add] at hsum
  omega

theorem safe_findInterp : ∀ (phs : List ProgramHeader) (img : ElfLoaded) (m : Memory),
    Safe (Access.Confined L idx) (findInterp f phs img) m ↔ InterpExact f phs := by
  intro phs
  induction phs with
  | nil =>
    intro img m
    exact safe_pure
  | cons ph phs ih =>
    intro img m
    by_cases htype : ph.type ≠ ptInterp
    · rw [findInterp, InterpExact, if_pos htype, if_pos htype]
      exact ih _ m
    rw [findInterp_cons ph phs img htype, InterpExact, if_neg htype]
    cases hok : interpOk f ph with
    | false => exact iff_of_true (safe_fail.mpr trivial) trivial
    | true =>
      obtain ⟨hlen, hsmall, hsum⟩ := interpOk_len hok
      have htrue : ¬ (!true) = true := by decide
      rw [if_neg htrue, if_neg htrue, safe_pread_bind hlen, ih, noWrap_iff hsmall hsum]

theorem gives_findInterp : ∀ {phs : List ProgramHeader} {img img' : ElfLoaded}, InterpExact f phs →
    ((findInterp f phs img).Gives m m' img' ↔ (∀ ph ∈ phs, ph.type = ptInterp → interpOk f ph = true) ∧ m' = m ∧
        img' = { img with phdr := phdrFrom img.loadBias phs img.phdr, interpPath := f.interpFrom phs img.interpPath }) := by
  intro phs
  induction phs with
  | nil =>
    intro img img' _
    exact gives_pure.trans (and_iff_right fun ph hph => absurd hph not_mem_nil).symm
  | cons ph phs ih =>
    intro img img' hexact
    have hphdr : phdrFrom img.loadBias (ph :: phs) img.phdr =
        phdrFrom img.loadBias phs (if ph.type = ptPhdr then img.loadBias + ph.vaddr else img.phdr) := rfl
    have himg : (if ph.type = ptPhdr then { img with phdr := img.loadBias + ph.vaddr } else img) =
        { img with phdr := if ph.type = ptPhdr then img.loadBias + ph.vaddr else img.phdr } := by
      split
      · rfl
      · rfl
    rw [InterpExact] at hexact
    by_cases htype : ph.type ≠ ptInterp
    · rw [if_pos htype] at hexact
      have hname : f.interpFrom (ph :: phs) img.interpPath = f.interpFrom phs img.interpPath :=
        congrArg (List.foldl _ · phs) (if_neg htype)
      rw [findInterp, if_pos htype, himg, ih hexact, hname, hphdr, forall_mem_cons,
        and_iff_right fun habs => absurd habs htype]
    rw [if_neg htype] at hexact
    rw [findInterp_cons ph phs img htype, himg, forall_mem_cons]
    cases hok : interpOk f ph with
    | false =>
      refine iff_of_false (fun h => gives_fail.mp h) fun h => ?_
      exact absurd (h.1.1 (not_not.mp htype)) (by decide)
    | true =>
      obtain ⟨hlen, hsmall, hsum⟩ := interpOk_len hok
      have htrue : ¬ (!true) = true := by decide
      rw [hok, if_neg htrue] at hexact
      have hin := (noWrap_iff hsmall hsum).mp hexact.1
      have hoff : ph.offset.toUInt32.toNat = ph.offset.toNat := by
        have hwrap := hexact.1
        have hsize : f.vfs.size < 2 ^ 32 := f.small
        unfold NoWrap at hwrap
        rw [Nat.mod_eq_of_lt hwrap] at hsum
        rw [UInt64.toNat_toUInt32]
        omega
      have hname : f.interpFrom (ph :: phs) img.interpPath = f.interpFrom phs
          (some ((bytesAt f.bytes ph.offset.toNat ph.filesz.toNat).dropLast.takeWhile (· ≠ 0))) :=
        congrArg (List.foldl _ · phs) (if_pos (not_not.mp htype))
      rw [if_neg htrue, gives_bind, hname, hphdr, and_iff_right fun _ => rfl]
      refine Iff.trans (b := (findInterp f phs
        { img with
          phdr := if ph.type = ptPhdr then img.loadBias + ph.vaddr else img.phdr
          interpPath := some ((bytesAt f.bytes ph.offset.toNat ph.filesz.toNat).dropLast.takeWhile (· ≠ 0)) }).Gives
            m m' img') ?_ (ih hexact.2)
      constructor
      · rintro ⟨m₁, bs, hread, hrest⟩
        obtain ⟨rfl, rfl⟩ := gives_pread (UInt32.toNat_lt _) hread
        rwa [hoff] at hrest
      · intro h
        refine ⟨m, _, pread_gives hin, ?_⟩
        rwa [hoff]

variable {eh : ElfHeader}

/-- The program headers are a part of the file that is not empty. -/
theorem phBytes_of_headerOk (h : headerOk v eh = true) :
    eh.phBytes ≠ 0 ∧ eh.phBytes < 2 ^ 32 ∧ (eh.phoff.toNat + eh.phBytes) % 2 ^ 64 ≤ v.size := by
  unfold headerOk at h
  obtain ⟨-, -, hphnum, hmax, hsum⟩ := of_decide_eq_true h
  have hpos : eh.phnum.toNat ≠ 0 := by
    intro hzero
    exact hphnum (UInt16.toNat_inj.mp hzero)
  rw [toNat_add, Nat.toUInt64_eq, UInt64.toNat_ofNat', Nat.add_mod_mod] at hsum
  refine ⟨?_, ?_, hsum⟩
  · unfold ElfHeader.phBytes elf64PhdrSize
    omega
  · unfold ElfHeader.phBytes elf64PhdrSize
    unfold elfMaxPhnum at hmax
    omega

def loadRest (f : VfsFile) (eh : ElfHeader) (phs : List ProgramHeader) (bias hi : UInt64) : Load ElfLoaded := do
  edgeLoadRelativeRelocs phs bias
  let img ← findInterp f phs { loadBias := bias, entry := bias + eh.entry, phnum := eh.phnum, loadHi := hi }
  let phdr := if img.phdr = 0 then phdrInSegments eh phs bias else img.phdr
  if phdr = 0 then Traced.fail else pure { img with phdr := phdr }

theorem loadImage_eq (v : VfsFile) (eh : ElfHeader) (etDynBase : UInt64) :
    loadImage v eh etDynBase = vfsPreadExact v eh.phoff.toUInt32.toNat eh.phBytes >>= fun bs =>
      let phs := (List.range eh.phnum.toNat).map fun i => programHeaderAt bs (i * elf64PhdrSize)
      match loadBias eh phs etDynBase with
      | none => fail
      | some bias => loadSegments v bias phs 0 >>= loadRest v eh phs bias := rfl

variable {hi : UInt64}

theorem safe_loadRest : Safe (Access.Confined L idx) (loadRest f eh phs bias hi) m ↔
      RelocsExact L idx phs bias m ∧ ((∃ m', Relocated phs bias m m') → InterpExact f phs) := by
  unfold loadRest
  rw [safe_bind, safe_edgeLoadRelativeRelocs]
  refine and_congr_right fun hexact => ?_
  constructor
  · rintro h ⟨m', hrelocated⟩
    have hrest := h m' () ((gives_edgeLoadRelativeRelocs hexact).mpr hrelocated)
    exact (safe_findInterp ..).mp ((safe_bind ..).mp hrest).1
  · intro h m' u hgives
    have hinterp := h ⟨m', (gives_edgeLoadRelativeRelocs hexact).mp hgives⟩
    refine (safe_bind ..).mpr ⟨(safe_findInterp ..).mpr hinterp, fun m₂ img _ => ?_⟩
    exact (safe_ite ..).mpr ⟨fun _ => safe_fail.mpr trivial, fun _ => safe_pure.mpr trivial⟩

variable {name : Option Bytes}

theorem gives_loadRest (hexact : RelocsExact L idx phs bias m)
    (hinterp : (∃ m', Relocated phs bias m m') → InterpExact f phs) :
    (∃ img, (loadRest f eh phs bias hi).Gives m m' img ∧ img.interpPath = name) ↔
      Relocated phs bias m m' ∧ (∀ ph ∈ phs, ph.type = ptInterp → interpOk f ph = true) ∧
        phdrAddr eh phs bias ≠ 0 ∧ f.interp phs = name := by
  unfold loadRest
  constructor
  · rintro ⟨img, hgives, hname⟩
    obtain ⟨m₁, u, hrelocs, hgives⟩ := (gives_bind _ _).mp hgives
    have hrelocated := (gives_edgeLoadRelativeRelocs hexact).mp hrelocs
    obtain ⟨m₂, img', hfind, hgives⟩ := (gives_bind _ _).mp hgives
    obtain ⟨hok, rfl, rfl⟩ := (gives_findInterp (hinterp ⟨m₁, hrelocated⟩)).mp hfind
    rcases (gives_ite _ _).mp hgives with ⟨-, hfail⟩ | ⟨hphdr, hpure⟩
    · exact (gives_fail.mp hfail).elim
    · obtain ⟨rfl, rfl⟩ := gives_pure.mp hpure
      exact ⟨hrelocated, hok, hphdr, hname⟩
  · rintro ⟨hrelocated, hok, hphdr, hname⟩
    refine ⟨_, (gives_bind _ _).mpr ⟨m', (), (gives_edgeLoadRelativeRelocs hexact).mpr hrelocated,
      (gives_bind _ _).mpr ⟨m', _, (gives_findInterp (hinterp ⟨m', hrelocated⟩)).mpr ⟨hok, rfl, rfl⟩,
        (gives_ite _ _).mpr (.inr ⟨hphdr, gives_pure.mpr ⟨rfl, rfl⟩⟩)⟩⟩, hname⟩

variable {etDynBase : UInt64}

theorem safe_loadImage (h : headerOk f f.header = true) :
    Safe (Access.Confined L idx) (loadImage f f.header etDynBase) m ↔ ImageExact L idx f etDynBase m := by
  obtain ⟨hpos, hsmall, hsum⟩ := phBytes_of_headerOk h
  rw [loadImage_eq, safe_pread_bind hpos, ← noWrap_iff hsmall hsum]
  unfold ImageExact
  refine and_congr_right fun _ => ?_
  change Safe _ (match loadBias f.header (f.programHeaders f.header) etDynBase with
    | none => fail
    | some bias => loadSegments f bias (f.programHeaders f.header) 0 >>=
        loadRest f f.header (f.programHeaders f.header) bias) m ↔ _
  cases hbias : loadBias f.header (f.programHeaders f.header) etDynBase with
  | none => exact iff_of_true (safe_fail.mpr trivial) fun bias hsome => by cases hsome
  | some bias =>
    dsimp only
    rw [safe_bind, safe_loadSegments]
    constructor
    · rintro ⟨hsegments, hrest⟩ bias' hbias'
      obtain rfl := Option.some.inj hbias'
      refine ⟨hsegments, fun hok => ?_⟩
      obtain ⟨hi, hgives⟩ := (gives_loadSegments_whole 0 m hsegments).mpr ⟨hok, rfl⟩
      exact safe_loadRest.mp (hrest _ hi hgives)
    · intro hexact
      obtain ⟨hsegments, hparts⟩ := hexact bias rfl
      refine ⟨hsegments, fun m₁ hi hgives => ?_⟩
      obtain ⟨hok, rfl⟩ := (gives_loadSegments_whole 0 m hsegments).mp ⟨hi, hgives⟩
      exact safe_loadRest.mpr (hparts hok)

theorem gives_loadImage (h : headerOk f f.header = true) (hexact : ImageExact L idx f etDynBase m) :
    (∃ img, (loadImage f f.header etDynBase).Gives m m' img ∧ img.interpPath = name) ↔
      ImageLoaded f etDynBase m m' ∧ f.interp (f.programHeaders f.header) = name := by
  obtain ⟨-, hsmall, hsum⟩ := phBytes_of_headerOk h
  obtain ⟨hwrap, hexact⟩ := hexact
  rw [loadImage_eq]
  unfold ImageLoaded
  constructor
  · rintro ⟨img, hgives, hname⟩
    obtain ⟨m₀, bs, hread, hgives⟩ := (gives_bind _ _).mp hgives
    obtain ⟨rfl, rfl⟩ := gives_pread (UInt32.toNat_lt _) hread
    change (match loadBias f.header (f.programHeaders f.header) etDynBase with
      | none => fail
      | some bias => loadSegments f bias (f.programHeaders f.header) 0 >>=
          loadRest f f.header (f.programHeaders f.header) bias : Load ElfLoaded).Gives m₀ m' img at hgives
    cases hbias : loadBias f.header (f.programHeaders f.header) etDynBase with
    | none =>
      rw [hbias] at hgives
      exact (gives_fail.mp hgives).elim
    | some bias =>
      rw [hbias] at hgives
      obtain ⟨hsegments, hparts⟩ := hexact bias hbias
      obtain ⟨m₁, hi, hload, hrest⟩ := (gives_bind _ _).mp hgives
      obtain ⟨hok, rfl⟩ := (gives_loadSegments_whole 0 m₀ hsegments).mp ⟨hi, hload⟩
      obtain ⟨hrelocated, hinterp, hphdr, hname⟩ :=
        (gives_loadRest (hparts hok).1 (hparts hok).2).mp ⟨img, hrest, hname⟩
      exact ⟨⟨bias, rfl, hok, hrelocated, hinterp, hphdr⟩, hname⟩
  · rintro ⟨⟨bias, hbias, hok, hrelocated, hinterp, hphdr⟩, hname⟩
    obtain ⟨hsegments, hparts⟩ := hexact bias hbias
    obtain ⟨hi, hload⟩ := (gives_loadSegments_whole 0 m hsegments).mpr ⟨hok, rfl⟩
    obtain ⟨img, hrest, hpath⟩ := (gives_loadRest (hparts hok).1 (hparts hok).2).mpr
      ⟨hrelocated, hinterp, hphdr, hname⟩
    refine ⟨img, (gives_bind _ _).mpr ⟨m, _, pread_gives ((noWrap_iff hsmall hsum).mp hwrap), ?_⟩, hpath⟩
    change (match loadBias f.header (f.programHeaders f.header) etDynBase with
      | none => fail
      | some bias => loadSegments f bias (f.programHeaders f.header) 0 >>=
          loadRest f f.header (f.programHeaders f.header) bias : Load ElfLoaded).Gives m m' img
    rw [hbias]
    exact (gives_bind _ _).mpr ⟨_, hi, hload, hrest⟩

variable {files : Bytes → Option ElfFile} {path : Bytes}

theorem edgeLoadElfFromVfs_eq (hfile : files path = some f) (hlong : elf64EhdrSize ≤ f.size) (etDynBase : UInt64) :
    edgeLoadElfFromVfs (vfsFiles files) path etDynBase = vfsPreadExact f 0 elf64EhdrSize >>= fun bs =>
      if !headerOk f (elfHeaderAt bs) then fail else loadImage f (elfHeaderAt bs) etDynBase := by
  unfold edgeLoadElfFromVfs vfsFiles
  rw [hfile]
  exact if_neg (Nat.not_lt.mpr hlong)

theorem edgeLoadElfFromVfs_none (h : ¬ ∃ f, files path = some f ∧ elf64EhdrSize ≤ f.size) (etDynBase : UInt64) :
    edgeLoadElfFromVfs (vfsFiles files) path etDynBase = fail := by
  unfold edgeLoadElfFromVfs vfsFiles
  cases hfile : files path with
  | none => rfl
  | some f => exact if_pos (by_contra fun hlong => h ⟨f, hfile, Nat.not_lt.mp hlong⟩)

theorem safe_edgeLoadElfFromVfs (files : Bytes → Option ElfFile) (path : Bytes) (etDynBase : UInt64) (m : Memory) :
    Safe (Access.Confined L idx) (edgeLoadElfFromVfs (vfsFiles files) path etDynBase) m ↔
      FileExact L idx files path etDynBase m := by
  unfold FileExact
  by_cases hany : ∃ f, files path = some f ∧ elf64EhdrSize ≤ f.size
  · obtain ⟨f, hfile, hlong⟩ := hany
    have hfirst : (∀ f', files path = some f' → elf64EhdrSize ≤ f'.size → headerOk f' f'.header = true →
        ImageExact L idx f' etDynBase m) ↔ (headerOk f f.header = true → ImageExact L idx f etDynBase m) := by
      refine ⟨fun h => h f hfile hlong, fun h f' hf' _ => ?_⟩
      rwa [← Option.some.inj (hfile.symm.trans hf')]
    rw [hfirst, edgeLoadElfFromVfs_eq hfile hlong, safe_pread_bind (by decide), and_iff_right (by omega)]
    change Safe _ (if (!headerOk f f.header) = true then fail
      else loadImage f f.header etDynBase) m ↔ _
    cases hok : headerOk f f.header with
    | false => exact iff_of_true (safe_fail.mpr trivial) fun h => by cases h
    | true => exact (safe_loadImage hok).trans ⟨fun h _ => h, fun h => h rfl⟩
  · rw [edgeLoadElfFromVfs_none hany]
    exact iff_of_true (safe_fail.mpr trivial) fun f hfile hlong => absurd ⟨f, hfile, hlong⟩ hany

theorem gives_edgeLoadElfFromVfs (hexact : FileExact L idx files path etDynBase m) :
    (∃ img, (edgeLoadElfFromVfs (vfsFiles files) path etDynBase).Gives m m' img ∧ img.interpPath = name) ↔
      ∃ f, files path = some f ∧ elf64EhdrSize ≤ f.size ∧ headerOk f f.header = true ∧
        ImageLoaded f etDynBase m m' ∧ f.interp (f.programHeaders f.header) = name := by
  by_cases hany : ∃ f, files path = some f ∧ elf64EhdrSize ≤ f.size
  · obtain ⟨f, hfile, hlong⟩ := hany
    have hbody : ∀ img, (edgeLoadElfFromVfs (vfsFiles files) path etDynBase).Gives m m' img ↔
        headerOk f f.header = true ∧ (loadImage f f.header etDynBase).Gives m m' img := by
      intro img
      rw [edgeLoadElfFromVfs_eq hfile hlong, gives_bind]
      constructor
      · rintro ⟨m₁, bs, hread, hrest⟩
        obtain ⟨rfl, rfl⟩ := gives_pread (by decide) hread
        rcases (gives_ite _ _).mp hrest with ⟨-, hfail⟩ | ⟨hok, hload⟩
        · exact (gives_fail.mp hfail).elim
        · have hok' : ¬ (!headerOk f f.header) = true := hok
          exact ⟨by simpa using hok', hload⟩
      · rintro ⟨hok, hload⟩
        refine ⟨m, _, pread_gives (by omega), (gives_ite _ _).mpr (.inr ⟨?_, hload⟩)⟩
        change ¬ (!headerOk f f.header) = true
        rw [hok]
        decide
    simp only [hbody]
    constructor
    · rintro ⟨img, ⟨hok, hload⟩, hname⟩
      exact ⟨f, hfile, hlong, hok, (gives_loadImage hok (hexact f hfile hlong hok)).mp ⟨img, hload, hname⟩⟩
    · rintro ⟨f', hf', -, hok, himage⟩
      obtain rfl := Option.some.inj (hfile.symm.trans hf')
      obtain ⟨img, hload, hname⟩ := (gives_loadImage hok (hexact f hfile hlong hok)).mpr himage
      exact ⟨img, ⟨hok, hload⟩, hname⟩
  · rw [edgeLoadElfFromVfs_none hany]
    refine iff_of_false ?_ ?_
    · rintro ⟨img, hfail, -⟩
      exact gives_fail.mp hfail
    · rintro ⟨f, hfile, hlong, -⟩
      exact hany ⟨f, hfile, hlong⟩

end Parts

/-- Loading is confined exactly when the program is, and after it its interpreter. -/
theorem elf_loading_confined (L : KernelLayout) (idx : Fin procMaxTasks) (files : Bytes → Option ElfFile)
    (path : Bytes) (m : Memory) : ElfConfined L idx files path m ↔ ElfExact L idx files path m := by
  unfold ElfConfined ElfExact elfLoaderExec
  rw [Traced.safe_bind, safe_edgeLoadElfFromVfs]
  refine and_congr_right fun hexact => ?_
  constructor
  · intro h f m' interp hfile hlong hok himage hinterp habs
    obtain ⟨main, hgives, hname⟩ := (gives_edgeLoadElfFromVfs hexact).mpr ⟨f, hfile, hlong, hok, himage, hinterp⟩
    have hsafe := h m' main hgives
    dsimp only at hsafe
    rw [hname] at hsafe
    dsimp only at hsafe
    rw [if_neg (not_not.mpr habs), Traced.safe_bind] at hsafe
    exact (safe_edgeLoadElfFromVfs ..).mp hsafe.1
  · intro h m' main hgives
    dsimp only
    cases hname : main.interpPath with
    | none => exact Traced.safe_pure.mpr trivial
    | some interp =>
      refine (Traced.safe_ite ..).mpr ⟨fun _ => Traced.safe_fail.mpr trivial, fun habs => ?_⟩
      obtain ⟨f, hfile, hlong, hok, himage, hinterp⟩ := (gives_edgeLoadElfFromVfs hexact).mp ⟨main, hgives, hname⟩
      refine (Traced.safe_bind ..).mpr ⟨(safe_edgeLoadElfFromVfs ..).mpr
        (h f m' interp hfile hlong hok himage hinterp (not_not.mp habs)), fun m₂ img _ => ?_⟩
      exact Traced.safe_pure.mpr trivial

/-- A program whose only segment is one zero at the start of the kernel image. -/
def kernelSegment : ElfFile where
  bytes :=
    [0x7F, 69, 76, 70, 2, 1, 1, 0, 0, 0, 0, 0, 0, 0, 0, 0, 2, 0, 62, 0, 1, 0, 0, 0] ++
    [0, 0, 0, 0, 0, 0, 0, 0, 64, 0, 0, 0, 0, 0, 0, 0, 0, 0, 0, 0, 0, 0, 0, 0] ++
    [0, 0, 0, 0, 64, 0, 56, 0, 1, 0, 0, 0, 0, 0, 0, 0] ++
    [1, 0, 0, 0, 6, 0, 0, 0, 0, 0, 0, 0, 0, 0, 0, 0, 0, 0, 0, 8, 0, 0, 0, 0, 0, 0, 0, 8, 0, 0, 0, 0] ++
    [0, 0, 0, 0, 0, 0, 0, 0, 1, 0, 0, 0, 0, 0, 0, 0, 0, 0, 0, 0, 0, 0, 0, 0]
  small := by decide

/-- The check on the address admits the kernel image, which is in the user window. -/
theorem kernel_image_written :
    ¬ ElfConfined { kernelEnd := 0x09000000 } 1 (fun _ => some kernelSegment) [] fun _ => 0 := by
  intro h
  unfold ElfConfined elfLoaderExec at h
  rw [Traced.safe_bind, safe_edgeLoadElfFromVfs] at h
  have himage := h.1 kernelSegment rfl (by decide) (by decide +kernel)
  have hphs : kernelSegment.programHeaders kernelSegment.header = [⟨ptLoad, 0, 0x08000000, 0, 1⟩] := by decide +kernel
  have hbias : loadBias kernelSegment.header [⟨ptLoad, 0, 0x08000000, 0, 1⟩] edgeMainEtDynBase = some 0 := by
    decide +kernel
  unfold ImageExact at himage
  rw [hphs] at himage
  obtain ⟨hsegments, -⟩ := himage.2 0 hbias
  have hok : segmentOk kernelSegment 0 ⟨ptLoad, 0, 0x08000000, 0, 1⟩ = true := by decide +kernel
  unfold SegmentsExact at hsegments
  rw [if_neg (by decide), hok, if_neg (by decide)] at hsegments
  obtain ⟨-, -, hpage⟩ := hsegments.2.1 0 (by decide)
  rcases (build_isUser { kernelEnd := 0x09000000 } (by decide) (by decide)).mp hpage with
    ⟨r, hr⟩ | ⟨w, hw, -⟩ | hlow | hhigh
  · revert hr
    cases r <;> decide
  · cases hw
  · exact absurd hlow (by decide)
  · exact absurd hhigh (by decide)

end EdgeOS
