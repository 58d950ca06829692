import EdgeOS.FileHoles

namespace EdgeOS

open Lib List Traced File32

/-!
What loading a program leaves in memory is the image that its file describes, as long as nothing of the file is hidden
behind a hole, its program headers lie where it says, and the interpreter goes elsewhere.
-/

/-! ## The image of a file -/

def ElfFile.headers (f : ElfFile) : List ProgramHeader := f.programHeaders f.header

def InSegments (bias : UInt64) (phs : List ProgramHeader) (a : UInt64) : Prop :=
  ∃ ph ∈ phs, ph.type = ptLoad ∧ ∃ k < ph.memsz.toNat, a = bias + ph.vaddr + k.toUInt64

def SegmentsApart (bias : UInt64) (phs : List ProgramHeader) : Prop :=
  phs.Pairwise fun p q => p.type = ptLoad → q.type = ptLoad → ∀ i < p.memsz.toNat, ∀ j < q.memsz.toNat,
    bias + p.vaddr + i.toUInt64 ≠ bias + q.vaddr + j.toUInt64

/-- A byte of a segment: one of the file, or a zero behind those. -/
def ElfFile.segmentByte (f : ElfFile) (ph : ProgramHeader) (k : ℕ) : UInt8 :=
  if k < ph.filesz.toNat then rd8 f.bytes (ph.offset.toNat + k) else 0

/-- A relative relocation: the eight bytes at `target` are to hold `value`. -/
structure Relocation where
  target : UInt64
  value : UInt64

/-- The relative relocations of a table, each as it is when its turn comes. -/
def relocations (bias ent : UInt64) : ℕ → UInt64 → Memory → List Relocation
  | 0, _, _ => []
  | n + 1, r, m =>
    if (m.word (r + 8)).toUInt32 ≠ 8 then relocations bias ent n (r + ent) m
    else
      ⟨bias + m.word r, bias + m.word (r + 16)⟩ ::
        relocations bias ent n (r + ent) (m.stored (bias + m.word r) (wordBytes (bias + m.word (r + 16))))

/-- `rels` are the relative relocations of the image that is in memory. -/
def Relocations (phs : List ProgramHeader) (bias : UInt64) (m : Memory) (rels : List Relocation) : Prop :=
  match phs.find? fun ph => ph.type = ptDynamic with
  | none => rels = []
  | some ph => ∃ n, DynamicLen m (bias + ph.vaddr) n ∧
      rels = relocations bias (relaTable m n (bias + ph.vaddr) {}).ent (relaTable m n (bias + ph.vaddr) {}).count
        (bias + (relaTable m n (bias + ph.vaddr) {}).addr) m

def relocatedByte (rels : List Relocation) (a : UInt64) (b : UInt8) : UInt8 :=
  rels.foldl (fun b rel => if (a - rel.target).toNat < 8 then rd8 (wordBytes rel.value) (a - rel.target).toNat else b) b

def Memory.relocate (m : Memory) (rels : List Relocation) : Memory :=
  rels.foldl (fun m rel => m.stored rel.target (wordBytes rel.value)) m

def IsTarget (rels : List Relocation) (a : UInt64) : Prop := ∃ rel ∈ rels, (a - rel.target).toNat < 8

/-- The segments of a file are in memory, with relocations applied. -/
def ImageRight (f : ElfFile) (bias : UInt64) (rels : List Relocation) (m : Memory) : Prop :=
  ∀ ph ∈ f.headers, ph.type = ptLoad → ∀ k < ph.memsz.toNat,
    m (bias + ph.vaddr + k.toUInt64) = relocatedByte rels (bias + ph.vaddr + k.toUInt64) (f.segmentByte ph k)

def HeadersAt (f : ElfFile) (addr : UInt64) (m : Memory) : Prop :=
  ∀ i < f.header.phBytes, m (addr + i.toUInt64) = rd8 f.bytes (f.header.phoff.toNat + i)

/-! ## Relocations -/

section Relocate

variable {phs : List ProgramHeader} {bias : UInt64} {m m' : Memory}

theorem relocate_apply (rels : List Relocation) (m : Memory) (a : UInt64) :
    m.relocate rels a = relocatedByte rels a (m a) := by
  induction rels generalizing m with
  | nil => rfl
  | cons rel rels ih =>
    have hbyte : m.stored rel.target (wordBytes rel.value) a =
        if (a - rel.target).toNat < 8 then rd8 (wordBytes rel.value) (a - rel.target).toNat else m a := by
      unfold Memory.stored
      rw [wordBytes_length]
    exact (ih _).trans (congrArg (relocatedByte rels a) hbyte)

theorem relocatedByte_other {rels : List Relocation} {a : UInt64} (h : ¬ IsTarget rels a) (b : UInt8) :
    relocatedByte rels a b = b := by
  induction rels generalizing b with
  | nil => rfl
  | cons rel rels ih =>
    have hrel : ¬ (a - rel.target).toNat < 8 := fun hlt => h ⟨rel, mem_cons_self, hlt⟩
    have hrest : ¬ IsTarget rels a := fun ⟨r, hr, hlt⟩ => h ⟨r, mem_cons_of_mem _ hr, hlt⟩
    exact (congrArg (relocatedByte rels a) (if_neg hrel)).trans (ih hrest b)

theorem relocated_eq {ent : UInt64} : ∀ {n : ℕ} {r : UInt64} {m : Memory}, relocated bias ent n r m = some m' →
    m' = m.relocate (relocations bias ent n r m) := by
  intro n
  induction n with
  | zero =>
    intro r m h
    exact (Option.some.inj h).symm
  | succ n ih =>
    intro r m h
    unfold relocated at h
    unfold relocations
    by_cases htype : (m.word (r + 8)).toUInt32 ≠ 8
    · rw [if_pos htype] at h ⊢
      exact ih h
    rw [if_neg htype] at h ⊢
    split at h
    · cases h
    · exact ih h

theorem relocations_of_relocated (h : Relocated phs bias m m') :
    ∃ rels, Relocations phs bias m rels ∧ m' = m.relocate rels := by
  unfold Relocated at h
  unfold Relocations
  cases hfind : phs.find? fun ph => ph.type = ptDynamic with
  | none =>
    rw [hfind] at h
    exact ⟨[], rfl, h⟩
  | some ph =>
    rw [hfind] at h
    obtain ⟨n, hlen, hrelas⟩ := h
    exact ⟨_, ⟨n, hlen, rfl⟩, relocated_eq hrelas⟩

theorem relocations_static {rels : List Relocation} (h : ∀ ph ∈ phs, ph.type ≠ ptDynamic)
    (hrels : Relocations phs bias m rels) : rels = [] := by
  have hfind : (phs.find? fun ph => ph.type = ptDynamic) = none := by
    rw [find?_eq_none]
    intro ph hph
    simpa using h ph hph
  unfold Relocations at hrels
  rwa [hfind] at hrels

theorem interp_static {f : ElfFile} (h : ∀ ph ∈ phs, ph.type ≠ ptInterp) : f.interp phs = none := by
  unfold ElfFile.interp ElfFile.interpFrom
  rw [foldl_ext _ (fun name _ => name) none fun name ph hph => if_neg (h ph hph), foldl_fixed]

end Relocate

/-! ## Segments -/

section Placed

variable {ph : ProgramHeader} {dst bias : UInt64} {m : Memory}

theorem offset_sub (dst : UInt64) {k n : ℕ} (hk : k < 2 ^ 64) (hn : n ≤ k) :
    (dst + k.toUInt64 - (dst + n.toUInt64)).toNat = k - n := by
  obtain ⟨j, rfl⟩ : ∃ j, k = n + j := ⟨k - n, by omega⟩
  rw [add_toUInt64, UInt64.add_comm (dst + n.toUInt64), UInt64.add_sub_cancel, Nat.toUInt64_eq, UInt64.toNat_ofNat',
    Nat.mod_eq_of_lt (by omega)]
  omega

theorem addr_of_sub {a addr : UInt64} : a = addr + (a - addr).toNat.toUInt64 := by
  have hback : (a - addr).toNat.toUInt64 = a - addr := UInt64.ofNat_toNat
  rw [hback, UInt64.add_comm, UInt64.sub_add_cancel]

theorem placed_inside {bs : Bytes} {k : ℕ} (hlen : bs.length = ph.filesz.toNat)
    (hmem : ph.filesz.toNat ≤ ph.memsz.toNat) (hk : k < ph.memsz.toNat) :
    m.placed ph dst bs (dst + k.toUInt64) = if k < ph.filesz.toNat then rd8 bs k else 0 := by
  have hlt := ph.memsz.toNat_lt
  have hfilesz : ph.filesz = ph.filesz.toNat.toUInt64 := UInt64.ofNat_toNat.symm
  have hrest : (ph.memsz - ph.filesz).toNat = ph.memsz.toNat - ph.filesz.toNat :=
    UInt64.toNat_sub_of_le _ _ (UInt64.le_iff_toNat_le.mpr hmem)
  have hzero : ∀ n i, rd8 (List.replicate n 0) i = 0 := rd8_zeros
  have hfirst : (dst + k.toUInt64 - dst).toNat = k := by
    have h := offset_sub dst (show k < 2 ^ 64 by omega) (Nat.zero_le k)
    rwa [show Nat.toUInt64 0 = 0 from rfl, UInt64.add_zero, Nat.sub_zero] at h
  unfold Memory.placed Memory.stored
  rw [length_replicate, hrest, hlen, hfirst, hzero]
  by_cases hfile : k < ph.filesz.toNat
  · have hback : (dst + k.toUInt64 - (dst + ph.filesz)).toNat = 2 ^ 64 - ph.filesz.toNat + k := by
      have h := sub_add_toNat (dst + k.toUInt64) dst (show ph.filesz.toNat < 2 ^ 64 by omega)
      rw [← hfilesz, hfirst] at h
      omega
    rw [hback, if_neg (by omega), if_pos hfile, if_pos hfile]
  · have hback := offset_sub dst (show k < 2 ^ 64 by omega) (show ph.filesz.toNat ≤ k by omega)
    rw [← hfilesz] at hback
    rw [hback, if_pos (by omega), if_neg hfile]

theorem placed_outside {bs : Bytes} {a : UInt64} (hlen : bs.length = ph.filesz.toNat)
    (hmem : ph.filesz.toNat ≤ ph.memsz.toNat) (h : ∀ k < ph.memsz.toNat, a ≠ dst + k.toUInt64) :
    m.placed ph dst bs a = m a := by
  have hfilesz : ph.filesz = ph.filesz.toNat.toUInt64 := UInt64.ofNat_toNat.symm
  have hrest : (ph.memsz - ph.filesz).toNat = ph.memsz.toNat - ph.filesz.toNat :=
    UInt64.toNat_sub_of_le _ _ (UInt64.le_iff_toNat_le.mpr hmem)
  have hbytes : ¬ (a - dst).toNat < ph.filesz.toNat := fun hlt => h _ (by omega) addr_of_sub
  have hzeros : ¬ (a - (dst + ph.filesz)).toNat < ph.memsz.toNat - ph.filesz.toNat := by
    intro hlt
    apply h (ph.filesz.toNat + (a - (dst + ph.filesz)).toNat) (by omega)
    rw [add_toUInt64, ← hfilesz]
    exact addr_of_sub
  unfold Memory.placed Memory.stored
  rw [length_replicate, hrest, hlen, if_neg hzeros, if_neg hbytes]

variable {bytes : ProgramHeader → Bytes}

/-- Each segment has its bytes, and not more memory than bytes. -/
def Fitting (bytes : ProgramHeader → Bytes) (phs : List ProgramHeader) : Prop :=
  ∀ ph ∈ phs, ph.type = ptLoad → (bytes ph).length = ph.filesz.toNat ∧ ph.filesz.toNat ≤ ph.memsz.toNat

theorem withSegments_outside {phs : List ProgramHeader} (hfit : Fitting bytes phs) {a : UInt64}
    (h : ¬ InSegments bias phs a) (m : Memory) : m.withSegments bytes bias phs a = m a := by
  induction phs generalizing m with
  | nil => rfl
  | cons ph phs ih =>
    have hrest : ¬ InSegments bias phs a := fun ⟨p, hp, hin⟩ => h ⟨p, mem_cons_of_mem _ hp, hin⟩
    have hstep := ih (fun p hp => hfit p (mem_cons_of_mem _ hp)) hrest
      (if ph.type = ptLoad then m.placed ph (bias + ph.vaddr) (bytes ph) else m)
    refine hstep.trans ?_
    split
    · rename_i htype
      obtain ⟨hlen, hmem⟩ := hfit ph mem_cons_self htype
      exact placed_outside hlen hmem fun k hk heq => h ⟨ph, mem_cons_self, htype, k, hk, heq⟩
    · rfl

theorem withSegments_inside {phs : List ProgramHeader} (hfit : Fitting bytes phs) (hapart : SegmentsApart bias phs)
    (m : Memory) {p : ProgramHeader} (hp : p ∈ phs) (htype : p.type = ptLoad) {k : ℕ} (hk : k < p.memsz.toNat) :
    m.withSegments bytes bias phs (bias + p.vaddr + k.toUInt64) =
      if k < p.filesz.toNat then rd8 (bytes p) k else 0 := by
  induction phs generalizing m with
  | nil => exact absurd hp not_mem_nil
  | cons ph phs ih =>
    have hrest : Fitting bytes phs := fun q hq => hfit q (mem_cons_of_mem _ hq)
    obtain ⟨hfirst, hothers⟩ := pairwise_cons.mp hapart
    rcases mem_cons.mp hp with rfl | hp
    · have hout : ¬ InSegments bias phs (bias + p.vaddr + k.toUInt64) := by
        rintro ⟨q, hq, hqtype, j, hj, heq⟩
        exact hfirst q hq htype hqtype k hk j hj heq
      obtain ⟨hlen, hmem⟩ := hfit p mem_cons_self htype
      have hstep : m.withSegments bytes bias (p :: phs) =
          (m.placed p (bias + p.vaddr) (bytes p)).withSegments bytes bias phs :=
        congrArg (List.foldl _ · phs) (if_pos htype)
      rw [hstep, withSegments_outside hrest hout, placed_inside hlen hmem hk]
    · exact ih hrest hothers _ hp

end Placed

/-! ## Loading a file with holes -/

/-- The header, the program headers and the names of interpreters have nothing hidden behind a hole, and no range of the
file wraps. -/
structure File32.HeadersRight (f : File32) : Prop where
  header : f.Whole 0 elf64EhdrSize
  table : NoWrap f.filled.header.phoff f.filled.header.phBytes ∧
    f.Whole f.filled.header.phoff.toNat f.filled.header.phBytes
  names : ∀ ph ∈ f.filled.headers, ph.type = ptInterp →
    NoWrap ph.offset ph.filesz.toNat ∧ f.Whole ph.offset.toNat ph.filesz.toNat
  ranges : ∀ ph ∈ f.filled.headers, ph.type = ptLoad → NoWrap ph.offset ph.filesz.toNat

/-- The segments have nothing hidden behind a hole of a piece. -/
def File32.SegmentsWhole (f : File32) : Prop :=
  ∀ ph ∈ f.filled.headers, ph.type = ptLoad → f.WholePieces ph.offset.toNat ph.filesz.toNat

/-- What `edge_load_elf_from_vfs` is to tell about a file. -/
def ElfFile.loaded (f : ElfFile) (bias : UInt64) : ElfLoaded where
  loadBias := bias
  entry := bias + f.header.entry
  phdr := phdrAddr f.header f.headers bias
  phnum := f.header.phnum
  loadHi := segmentsHi bias f.headers 0
  interpPath := f.interp f.headers

section Loading

variable {f : SparseFile} {phs : List ProgramHeader} {bias : UInt64} {m m' : Memory}

theorem gives_pread_filled {off n : ℕ} {bs : Bytes} (hin : off + n ≤ f.content.size) (hwhole : f.content.Whole off n)
    (h : (vfsPreadExact f.vfs off n).Gives m m' bs) : m' = m ∧ bs = bytesAt f.content.filled.bytes off n := by
  obtain ⟨hm, hloop⟩ := gives_vfsPreadExact.mp h
  rw [SparseFile.preadLoop_filled hin hwhole] at hloop
  exact ⟨hm, (Option.some.inj hloop).symm⟩

/-- A loop over the dynamic entries that ends has found the last one. -/
theorem dynamicLen_of_gives : ∀ {fuel : ℕ} {dyn : UInt64} {t t' : RelaTable}, (scanDynamic fuel dyn t).Gives m m' t' →
    m' = m ∧ ∃ n, DynamicLen m dyn n ∧ t' = relaTable m n dyn t := by
  intro fuel
  induction fuel with
  | zero =>
    intro dyn t t' h
    obtain ⟨_, h⟩ := h
    cases h
  | succ fuel ih =>
    intro dyn t t' h
    by_cases hnull : m.word dyn = 0
    · unfold scanDynamic at h
      rw [gives_loadWord_bind, if_pos hnull] at h
      obtain ⟨hm, ht⟩ := gives_pure.mp h
      exact ⟨hm, 0, dynamicLen_zero.mpr hnull, ht⟩
    · obtain ⟨hm, n, hlen, ht⟩ := ih ((gives_scanDynamic_succ hnull).mp h)
      exact ⟨hm, n + 1, dynamicLen_succ.mpr ⟨hnull, hlen⟩, ht⟩

theorem relocated_of_gives {u : Unit} (h : (edgeLoadRelativeRelocs phs bias).Gives m m' u) :
    Relocated phs bias m m' := by
  unfold edgeLoadRelativeRelocs at h
  unfold Relocated
  cases hfind : phs.find? fun ph => ph.type = ptDynamic with
  | none =>
    rw [hfind] at h
    exact (gives_pure.mp h).1
  | some ph =>
    rw [hfind] at h
    simp only [applyRelas_count] at h
    obtain ⟨m₁, t, hscan, hrelas⟩ := (gives_bind _ _).mp h
    obtain ⟨rfl, n, hlen, rfl⟩ := dynamicLen_of_gives hscan
    exact ⟨n, hlen, (gives_applyRelas ..).mp hrelas⟩

theorem findInterp_of_gives : ∀ {phs : List ProgramHeader} {img out : ElfLoaded}, (∀ ph ∈ phs, ph.type = ptInterp →
      NoWrap ph.offset ph.filesz.toNat ∧ f.content.Whole ph.offset.toNat ph.filesz.toNat) →
    (findInterp f.vfs phs img).Gives m m' out → m' = m ∧ out = { img with
      phdr := phdrFrom img.loadBias phs img.phdr
      interpPath := f.content.filled.interpFrom phs img.interpPath } := by
  intro phs
  induction phs with
  | nil =>
    intro img out _ h
    exact gives_pure.mp h
  | cons ph phs ih =>
    intro img out hright h
    have hrest := fun q hq => hright q (mem_cons_of_mem _ hq)
    have himg : (if ph.type = ptPhdr then { img with phdr := img.loadBias + ph.vaddr } else img) =
        { img with phdr := if ph.type = ptPhdr then img.loadBias + ph.vaddr else img.phdr } := by
      split
      · rfl
      · rfl
    by_cases htype : ph.type ≠ ptInterp
    · have hname : f.content.filled.interpFrom (ph :: phs) img.interpPath =
          f.content.filled.interpFrom phs img.interpPath := congrArg (List.foldl _ · phs) (if_neg htype)
      rw [findInterp, if_pos htype, himg] at h
      rw [hname]
      exact ih hrest h
    rw [findInterp_cons ph phs img htype, himg] at h
    cases hok : interpOk f.vfs ph with
    | false =>
      rw [hok] at h
      exact (gives_fail.mp h).elim
    | true =>
      obtain ⟨-, -, hsum⟩ := interpOk_len hok
      obtain ⟨hwrap, hwhole⟩ := hright ph mem_cons_self (not_not.mp htype)
      have hsmall : f.vfs.size < 2 ^ 32 := f.content.small
      unfold NoWrap at hwrap
      rw [Nat.mod_eq_of_lt hwrap] at hsum
      have hoff : ph.offset.toUInt32.toNat = ph.offset.toNat := by
        rw [UInt64.toNat_toUInt32]
        omega
      have hname : f.content.filled.interpFrom (ph :: phs) img.interpPath = f.content.filled.interpFrom phs (some
          ((bytesAt f.content.filled.bytes ph.offset.toNat ph.filesz.toNat).dropLast.takeWhile (· ≠ 0))) :=
        congrArg (List.foldl _ · phs) (if_pos (not_not.mp htype))
      rw [hok, if_neg (show ¬ (!true) = true by decide)] at h
      obtain ⟨m₁, bs, hread, h⟩ := (gives_bind _ _).mp h
      rw [hoff] at hread
      obtain ⟨rfl, rfl⟩ := gives_pread_filled hsum hwhole hread
      rw [hname]
      exact ih hrest h

theorem segmentsCopied_seen (hranges : ∀ ph ∈ phs, ph.type = ptLoad → NoWrap ph.offset ph.filesz.toNat) :
    SegmentsCopied f.vfs (fun ph => f.content.seenInPieces ph.offset.toNat ph.filesz.toNat) bias phs := by
  induction phs with
  | nil => exact trivial
  | cons ph phs ih =>
    have hrest := ih fun q hq => hranges q (mem_cons_of_mem _ hq)
    unfold SegmentsCopied
    by_cases htype : ph.type ≠ ptLoad
    · rw [if_pos htype]
      exact hrest
    rw [if_neg htype]
    cases hok : segmentOk f.vfs bias ph with
    | false => exact trivial
    | true =>
      obtain ⟨hsum, -⟩ := of_decide_eq_true hok
      have hwrap : ph.offset.toNat + ph.filesz.toNat < 2 ^ 64 := hranges ph mem_cons_self (not_not.mp htype)
      rw [UInt64.toNat_add, Nat.mod_eq_of_lt hwrap] at hsum
      exact ⟨SparseFile.gives_copySegment_seen hsum, hrest⟩

theorem loadRest_of_gives {eh : ElfHeader} {hi : UInt64} {out : ElfLoaded} (hnames : ∀ ph ∈ phs, ph.type = ptInterp →
      NoWrap ph.offset ph.filesz.toNat ∧ f.content.Whole ph.offset.toNat ph.filesz.toNat)
    (h : (loadRest f.vfs eh phs bias hi).Gives m m' out) :
    Relocated phs bias m m' ∧ phdrAddr eh phs bias ≠ 0 ∧ out =
      { loadBias := bias, entry := bias + eh.entry, phdr := phdrAddr eh phs bias, phnum := eh.phnum, loadHi := hi
        interpPath := f.content.filled.interp phs } := by
  unfold loadRest at h
  obtain ⟨m₁, u, hrelocs, h⟩ := (gives_bind _ _).mp h
  obtain ⟨m₂, img, hfind, h⟩ := (gives_bind _ _).mp h
  obtain ⟨rfl, rfl⟩ := findInterp_of_gives hnames hfind
  rcases (gives_ite _ _).mp h with ⟨-, hfail⟩ | ⟨hphdr, hpure⟩
  · exact (gives_fail.mp hfail).elim
  · obtain ⟨rfl, rfl⟩ := gives_pure.mp hpure
    exact ⟨relocated_of_gives hrelocs, hphdr, rfl⟩

theorem loaded_of_gives {files : Bytes → Option VfsFile} {path : Bytes} {etDynBase : UInt64} {out : ElfLoaded}
    (hfile : files path = some f.vfs) (hright : f.content.HeadersRight)
    (h : (edgeLoadElfFromVfs files path etDynBase).Gives m m' out) :
    ∃ bias, loadBias f.content.filled.header f.content.filled.headers etDynBase = some bias ∧
      SegmentsOk f.vfs bias f.content.filled.headers ∧
      Relocated f.content.filled.headers bias
        (m.withSegments (fun ph => f.content.seenInPieces ph.offset.toNat ph.filesz.toNat) bias
          f.content.filled.headers) m' ∧
      phdrAddr f.content.filled.header f.content.filled.headers bias ≠ 0 ∧ out = f.content.filled.loaded bias := by
  unfold edgeLoadElfFromVfs at h
  rw [hfile] at h
  dsimp only at h
  rcases (gives_ite _ _).mp h with ⟨-, hfail⟩ | ⟨hlong, h⟩
  · exact (gives_fail.mp hfail).elim
  obtain ⟨m₁, bs, hread, h⟩ := (gives_bind _ _).mp h
  obtain ⟨rfl, rfl⟩ := gives_pread_filled (by omega) hright.header hread
  rcases (gives_ite _ _).mp h with ⟨-, hfail⟩ | ⟨hok, h⟩
  · exact (gives_fail.mp hfail).elim
  change ¬ (!headerOk f.vfs f.content.filled.header) = true at hok
  change (loadImage f.vfs f.content.filled.header etDynBase).Gives m₁ m' out at h
  have hheader : headerOk f.vfs f.content.filled.header = true := by simpa using hok
  obtain ⟨-, -, hsum⟩ := phBytes_of_headerOk hheader
  obtain ⟨hwrap, hwhole⟩ := hright.table
  have hsmall : f.vfs.size < 2 ^ 32 := f.content.small
  unfold NoWrap at hwrap
  rw [Nat.mod_eq_of_lt hwrap] at hsum
  have hoff : f.content.filled.header.phoff.toUInt32.toNat = f.content.filled.header.phoff.toNat := by
    rw [UInt64.toNat_toUInt32]
    omega
  rw [loadImage_eq] at h
  obtain ⟨m₂, bs, hread, h⟩ := (gives_bind _ _).mp h
  rw [hoff] at hread
  obtain ⟨rfl, rfl⟩ := gives_pread_filled hsum hwhole hread
  rw [← hoff] at h
  have hheaders : ((List.range f.content.filled.header.phnum.toNat).map fun i =>
      programHeaderAt (bytesAt f.content.filled.bytes f.content.filled.header.phoff.toUInt32.toNat
        f.content.filled.header.phBytes) (i * elf64PhdrSize)) = f.content.filled.headers := rfl
  dsimp only at h
  rw [hheaders] at h
  cases hbias : loadBias f.content.filled.header f.content.filled.headers etDynBase with
  | none =>
    rw [hbias] at h
    exact (gives_fail.mp h).elim
  | some bias =>
    rw [hbias] at h
    obtain ⟨m₃, hi, hload, hrest⟩ := (gives_bind _ _).mp h
    obtain ⟨hsegments, rfl, rfl⟩ := (gives_loadSegments 0 m₂ (segmentsCopied_seen hright.ranges)).mp hload
    obtain ⟨hrelocated, hphdr, rfl⟩ := loadRest_of_gives hright.names hrest
    exact ⟨bias, rfl, hsegments, hrelocated, hphdr, rfl⟩

end Loading

/-! ## What loading leaves -/

/-- The address that is given for the program headers, if there is one, is where a segment has them, and no relocation
changes them. -/
structure PhdrRight (f : ElfFile) (bias : UInt64) (rels : List Relocation) : Prop where
  place : phdrFrom bias f.headers 0 ≠ 0 → ∃ ph ∈ f.headers, ph.type = ptLoad ∧ ph.offset.toNat ≤ f.header.phoff.toNat ∧
    f.header.phoff.toNat + f.header.phBytes ≤ ph.offset.toNat + ph.filesz.toNat ∧
    phdrFrom bias f.headers 0 = bias + ph.vaddr + (f.header.phoff - ph.offset)
  kept : ∀ i < f.header.phBytes, ¬ IsTarget rels (phdrAddr f.header f.headers bias + i.toUInt64)

/-- An interpreter that has nothing hidden behind a hole, and goes where the program is not. -/
structure InterpRight (g : File32) (bias : UInt64) (phs : List ProgramHeader) (m : Memory) : Prop where
  headers : g.HeadersRight
  segments : g.SegmentsWhole
  apart : ∀ bias' rels, loadBias g.filled.header g.filled.headers edgeInterpEtDynBase = some bias' →
    Relocations g.filled.headers bias' (g.filled.segments bias' g.filled.headers m) rels →
      SegmentsApart bias' g.filled.headers ∧
        ∀ a, InSegments bias phs a → ¬ InSegments bias' g.filled.headers a ∧ ¬ IsTarget rels a

/-- Nothing of the program is hidden behind a hole, its headers lie where it says, and its interpreter is right. -/
structure LoadsRight (files : Bytes → Option SparseFile) (f : File32) (m : Memory) : Prop where
  headers : f.HeadersRight
  segments : f.SegmentsWhole
  rest : ∀ bias rels, loadBias f.filled.header f.filled.headers edgeMainEtDynBase = some bias →
    Relocations f.filled.headers bias (f.filled.segments bias f.filled.headers m) rels → PhdrRight f.filled bias rels ∧
        ∀ name g, f.filled.interp f.filled.headers = some name → files name = some g →
          InterpRight g.content bias f.filled.headers ((f.filled.segments bias f.filled.headers m).relocate rels)

/-- The image of a file that is loaded over `m` is in `m'`. -/
structure LoadedFrom (f : ElfFile) (etDynBase bias : UInt64) (rels : List Relocation) (m m' : Memory) : Prop where
  chosen : loadBias f.header f.headers etDynBase = some bias
  found : Relocations f.headers bias (f.segments bias f.headers m) rels
  image : ImageRight f bias rels m'

/-- The program is in memory, with its headers at the address that is told, its interpreter is, if it names one, and the
numbers for it are right. -/
def LoadedRight (files : Bytes → Option SparseFile) (f : ElfFile) (m m' : Memory) (out : ElfImage) : Prop :=
  ∃ bias rels, LoadedFrom f edgeMainEtDynBase bias rels m m' ∧ HeadersAt f out.atPhdr m' ∧
    out.atPhnum = f.header.phnum ∧ out.atEntry = bias + f.header.entry ∧
    out.mainLoadHi = segmentsHi bias f.headers 0 ∧
    match f.interp f.headers with
    | none => out.entryRip = bias + f.header.entry ∧ out.atBase = 0
    | some name => ∃ g bias' rels', files name = some g ∧
        LoadedFrom g.content.filled edgeInterpEtDynBase bias' rels' ((f.segments bias f.headers m).relocate rels) m' ∧
        out.entryRip = bias' + g.content.filled.header.entry ∧ out.atBase = bias'

section Image

variable {f : SparseFile} {bias : UInt64} {m m' : Memory} {rels : List Relocation}

theorem segment_inside (hok : SegmentsOk f.vfs bias f.content.filled.headers) (hright : f.content.HeadersRight)
    {ph : ProgramHeader} (hph : ph ∈ f.content.filled.headers) (htype : ph.type = ptLoad) :
    ph.offset.toNat + ph.filesz.toNat ≤ f.content.size ∧ ph.filesz.toNat ≤ ph.memsz.toNat := by
  obtain ⟨hsum, hmem, -⟩ := of_decide_eq_true (hok ph hph htype)
  have hwrap : ph.offset.toNat + ph.filesz.toNat < 2 ^ 64 := hright.ranges ph hph htype
  rw [UInt64.toNat_add, Nat.mod_eq_of_lt hwrap] at hsum
  exact ⟨hsum, hmem⟩

theorem fitting_seen (hok : SegmentsOk f.vfs bias f.content.filled.headers) (hright : f.content.HeadersRight) :
    Fitting (fun ph => f.content.seenInPieces ph.offset.toNat ph.filesz.toNat) f.content.filled.headers := by
  intro ph hph htype
  exact ⟨seenInPieces_length _ _, (segment_inside hok hright hph htype).2⟩

/-- A segment with nothing hidden is seen as it is in the file. -/
theorem seenInPieces_whole {off n : ℕ} (hin : off + n ≤ f.content.size) (hwhole : f.content.WholePieces off n) :
    f.content.seenInPieces off n = bytesAt f.content.filled.bytes off n := by
  have hlen := @seenInPieces_length f.content off n
  apply ext_rd8
  · rw [hlen, bytesAt_length (by rwa [filled_size])]
  intro i hi
  rw [hlen] at hi
  rw [rd8_bytesAt hi, rd8_filled (by omega)]
  exact (seenInPieces_byte hi).mpr (hwhole i hi)

theorem segments_seen (hok : SegmentsOk f.vfs bias f.content.filled.headers) (hright : f.content.HeadersRight)
    (hwhole : f.content.SegmentsWhole) :
    m.withSegments (fun ph => f.content.seenInPieces ph.offset.toNat ph.filesz.toNat) bias f.content.filled.headers =
      f.content.filled.segments bias f.content.filled.headers m := by
  unfold Memory.withSegments ElfFile.segments
  apply foldl_ext
  intro m ph hph
  by_cases htype : ph.type = ptLoad
  · rw [if_pos htype, if_pos htype]
    exact congrArg (m.placed ph (bias + ph.vaddr))
      (seenInPieces_whole (segment_inside hok hright hph htype).1 (hwhole ph hph htype))
  · rw [if_neg htype, if_neg htype]

theorem image_seen (hok : SegmentsOk f.vfs bias f.content.filled.headers) (hright : f.content.HeadersRight)
    (hapart : SegmentsApart bias f.content.filled.headers) {ph : ProgramHeader} (hph : ph ∈ f.content.filled.headers)
    (htype : ph.type = ptLoad) {k : ℕ} (hk : k < ph.memsz.toNat) :
    (m.withSegments (fun ph => f.content.seenInPieces ph.offset.toNat ph.filesz.toNat) bias f.content.filled.headers)
        (bias + ph.vaddr + k.toUInt64) = f.content.filled.segmentByte ph k ↔
      (k < ph.filesz.toNat → ∀ j ≤ k, (ph.offset.toNat + j) / 4096 = (ph.offset.toNat + k) / 4096 →
        f.content.stored (ph.offset.toNat + j) = none → f.content.byte (ph.offset.toNat + k) = 0) := by
  obtain ⟨hin, -⟩ := segment_inside hok hright hph htype
  rw [withSegments_inside (fitting_seen hok hright) hapart m hph htype hk]
  unfold ElfFile.segmentByte
  by_cases hfile : k < ph.filesz.toNat
  · rw [if_pos hfile, if_pos hfile, rd8_filled (by omega), seenInPieces_byte hfile]
    exact ⟨fun h _ => h, fun h => h hfile⟩
  · rw [if_neg hfile, if_neg hfile]
    exact iff_of_true rfl fun h => absurd h hfile

/-- Segments with nothing hidden are in memory when their relocations are applied. -/
theorem imageRight_of_whole (hok : SegmentsOk f.vfs bias f.content.filled.headers) (hright : f.content.HeadersRight)
    (hwhole : f.content.SegmentsWhole) (hapart : SegmentsApart bias f.content.filled.headers) :
    ImageRight f.content.filled bias rels
      ((f.content.filled.segments bias f.content.filled.headers m).relocate rels) := by
  intro ph hph htype k hk
  have hbyte := (@image_seen f bias m hok hright hapart ph hph htype k hk).mpr fun hfile => hwhole ph hph htype k hfile
  rw [segments_seen hok hright hwhole] at hbyte
  rw [relocate_apply, hbyte]

theorem imageRight_kept {g : SparseFile} {bias' : UInt64} {rels' : List Relocation}
    {f : ElfFile} (hok : SegmentsOk g.vfs bias' g.content.filled.headers) (hright : g.content.HeadersRight)
    (hwhole : g.content.SegmentsWhole)
    (helse : ∀ a, InSegments bias f.headers a → ¬ InSegments bias' g.content.filled.headers a ∧ ¬ IsTarget rels' a)
    (himage : ImageRight f bias rels m) :
    ImageRight f bias rels ((g.content.filled.segments bias' g.content.filled.headers m).relocate rels') := by
  intro ph hph htype k hk
  obtain ⟨hsegments, htargets⟩ := helse _ ⟨ph, hph, htype, k, hk, rfl⟩
  rw [relocate_apply, relocatedByte_other htargets, ← segments_seen hok hright hwhole,
    withSegments_outside (fitting_seen hok hright) hsegments]
  exact himage ph hph htype k hk

theorem phdr_place (hright : f.content.HeadersRight) (hphdr : PhdrRight f.content.filled bias rels)
    (hne : phdrAddr f.content.filled.header f.content.filled.headers bias ≠ 0) :
    ∃ ph ∈ f.content.filled.headers, ph.type = ptLoad ∧ ph.offset.toNat ≤ f.content.filled.header.phoff.toNat ∧
      f.content.filled.header.phoff.toNat + f.content.filled.header.phBytes ≤ ph.offset.toNat + ph.filesz.toNat ∧
      phdrAddr f.content.filled.header f.content.filled.headers bias =
        bias + ph.vaddr + (f.content.filled.header.phoff - ph.offset) := by
  by_cases hgiven : phdrFrom bias f.content.filled.headers 0 = 0
  · have haddr : phdrAddr f.content.filled.header f.content.filled.headers bias =
        phdrInSegments f.content.filled.header f.content.filled.headers bias := if_pos hgiven
    rw [haddr] at hne ⊢
    unfold phdrInSegments at hne ⊢
    split at hne
    · exact absurd rfl hne
    rename_i ph hfind
    have hfound := find?_some hfind
    obtain ⟨htype, hlo, hhi⟩ := of_decide_eq_true hfound
    have hph := mem_of_find?_eq_some hfind
    have hwrap := hright.table.1
    have hrange := hright.ranges ph hph htype
    unfold NoWrap at hwrap hrange
    rw [UInt64.le_iff_toNat_le, UInt64.toNat_add, UInt64.toNat_add, Nat.toUInt64_eq, UInt64.toNat_ofNat',
      Nat.add_mod_mod, Nat.mod_eq_of_lt hwrap, Nat.mod_eq_of_lt hrange] at hhi
    exact ⟨ph, hph, htype, hlo, hhi, rfl⟩
  · have haddr : phdrAddr f.content.filled.header f.content.filled.headers bias =
        phdrFrom bias f.content.filled.headers 0 := if_neg hgiven
    rw [haddr]
    exact hphdr.place hgiven

theorem headersAt_of_image (hok : SegmentsOk f.vfs bias f.content.filled.headers) (hright : f.content.HeadersRight)
    (hphdr : PhdrRight f.content.filled bias rels)
    (hne : phdrAddr f.content.filled.header f.content.filled.headers bias ≠ 0)
    (himage : ImageRight f.content.filled bias rels m) :
    HeadersAt f.content.filled (phdrAddr f.content.filled.header f.content.filled.headers bias) m := by
  intro i hi
  have hkept := hphdr.kept i hi
  obtain ⟨ph, hph, htype, hlo, hhi, haddr⟩ := phdr_place hright hphdr hne
  obtain ⟨-, hmem⟩ := segment_inside hok hright hph htype
  have hdiff : f.content.filled.header.phoff - ph.offset =
      (f.content.filled.header.phoff.toNat - ph.offset.toNat).toUInt64 := by
    rw [← UInt64.toNat_sub_of_le _ _ (UInt64.le_iff_toNat_le.mpr hlo)]
    exact UInt64.ofNat_toNat.symm
  rw [haddr, hdiff, ← add_toUInt64] at hkept ⊢
  have hbyte := himage ph hph htype (f.content.filled.header.phoff.toNat - ph.offset.toNat + i) (by omega)
  rw [hbyte, relocatedByte_other hkept]
  unfold ElfFile.segmentByte
  rw [if_pos (by omega)]
  congr 1
  omega

theorem loadedFrom_of_gives {files : Bytes → Option VfsFile} {path : Bytes} {etDynBase : UInt64} {out : ElfLoaded}
    (hfile : files path = some f.vfs) (hright : f.content.HeadersRight) (hwhole : f.content.SegmentsWhole)
    (h : (edgeLoadElfFromVfs files path etDynBase).Gives m m' out) :
    ∃ bias rels, loadBias f.content.filled.header f.content.filled.headers etDynBase = some bias ∧
      SegmentsOk f.vfs bias f.content.filled.headers ∧
      Relocations f.content.filled.headers bias (f.content.filled.segments bias f.content.filled.headers m) rels ∧
      m' = (f.content.filled.segments bias f.content.filled.headers m).relocate rels ∧
      phdrAddr f.content.filled.header f.content.filled.headers bias ≠ 0 ∧ out = f.content.filled.loaded bias := by
  obtain ⟨bias, hbias, hok, hrelocated, hphdr, hout⟩ := loaded_of_gives hfile hright h
  rw [segments_seen hok hright hwhole] at hrelocated
  obtain ⟨rels, hrels, hm⟩ := relocations_of_relocated hrelocated
  exact ⟨bias, rels, hbias, hok, hrels, hm, hphdr, hout⟩

end Image

def sparseFiles (files : Bytes → Option SparseFile) (path : Bytes) : Option VfsFile := (files path).map SparseFile.vfs

section Exact

variable {files : Bytes → Option SparseFile} {path : Bytes} {f : SparseFile} {m m' : Memory} {out : ElfImage}

theorem sparseFiles_some {g : SparseFile} {path : Bytes} (h : files path = some g) :
    sparseFiles files path = some g.vfs := by
  unfold sparseFiles
  rw [h]
  rfl

/-- A program that loads right is in memory, and so is its interpreter. -/
theorem loadedRight_of_gives (hfile : files path = some f) (hright : LoadsRight files f.content m)
    (hapart : ∀ bias, loadBias f.content.filled.header f.content.filled.headers edgeMainEtDynBase = some bias →
      SegmentsApart bias f.content.filled.headers)
    (h : (elfLoaderExec (sparseFiles files) path).Gives m m' out) :
    LoadedRight files f.content.filled m m' out := by
  unfold elfLoaderExec at h
  obtain ⟨m₁, main, hmain, h⟩ := (gives_bind _ _).mp h
  obtain ⟨bias, rels, hbias, hok, hrels, rfl, hphdr, rfl⟩ :=
    loadedFrom_of_gives (sparseFiles_some hfile) hright.headers hright.segments hmain
  obtain ⟨hphdrRight, hinterp⟩ := hright.rest bias rels hbias hrels
  have himage := @imageRight_of_whole f bias m rels hok hright.headers hright.segments (hapart bias hbias)
  have hname : (f.content.filled.loaded bias).interpPath = f.content.filled.interp f.content.filled.headers := rfl
  dsimp only at h
  rw [hname] at h
  refine ⟨bias, rels, ?_⟩
  cases hpath : f.content.filled.interp f.content.filled.headers with
  | none =>
    rw [hpath] at h
    obtain ⟨rfl, rfl⟩ := gives_pure.mp h
    exact ⟨⟨hbias, hrels, himage⟩, headersAt_of_image hok hright.headers hphdrRight hphdr himage, rfl, rfl, rfl, rfl,
      rfl⟩
  | some name =>
    rw [hpath] at h
    rcases (gives_ite _ _).mp h with ⟨-, hfail⟩ | ⟨-, h⟩
    · exact (gives_fail.mp hfail).elim
    obtain ⟨m₂, img, hload, h⟩ := (gives_bind _ _).mp h
    obtain ⟨rfl, rfl⟩ := gives_pure.mp h
    cases hg : files name with
    | none =>
      have hnone : sparseFiles files name = none := congrArg (Option.map SparseFile.vfs) hg
      unfold edgeLoadElfFromVfs at hload
      rw [hnone] at hload
      exact (gives_fail.mp hload).elim
    | some g =>
      have hgright := hinterp name g hpath hg
      obtain ⟨bias', rels', hbias', hok', hrels', rfl, -, rfl⟩ :=
        loadedFrom_of_gives (sparseFiles_some hg) hgright.headers hgright.segments hload
      obtain ⟨hgapart, helse⟩ := hgright.apart bias' rels' hbias' hrels'
      have hkept := imageRight_kept hok' hgright.headers hgright.segments helse himage
      have hgimage := @imageRight_of_whole g bias'
        ((f.content.filled.segments bias f.content.filled.headers m).relocate rels) rels' hok'
        hgright.headers hgright.segments hgapart
      exact ⟨⟨hbias, hrels, hkept⟩, headersAt_of_image hok hright.headers hphdrRight hphdr hkept, rfl, rfl, rfl,
        g, bias', rels', hg, ⟨hbias', hrels', hgimage⟩, rfl, rfl⟩

/-- The segments of a program without relocations and interpreter are in memory exactly when nothing of them is
hidden. -/
theorem imageRight_iff (hfile : files path = some f) (hright : f.content.HeadersRight)
    (hapart : ∀ bias, loadBias f.content.filled.header f.content.filled.headers edgeMainEtDynBase = some bias →
      SegmentsApart bias f.content.filled.headers)
    (hplain : ∀ ph ∈ f.content.filled.headers, ph.type ≠ ptDynamic ∧ ph.type ≠ ptInterp)
    (h : (elfLoaderExec (sparseFiles files) path).Gives m m' out) :
    ∃ bias, loadBias f.content.filled.header f.content.filled.headers edgeMainEtDynBase = some bias ∧
      (ImageRight f.content.filled bias [] m' ↔ f.content.SegmentsWhole) := by
  unfold elfLoaderExec at h
  obtain ⟨m₁, main, hmain, h⟩ := (gives_bind _ _).mp h
  obtain ⟨bias, hbias, hok, hrelocated, -, rfl⟩ := loaded_of_gives (sparseFiles_some hfile) hright hmain
  have hname : (f.content.filled.loaded bias).interpPath = f.content.filled.interp f.content.filled.headers := rfl
  have hinterp : f.content.filled.interp f.content.filled.headers = none :=
    interp_static fun ph hph => (hplain ph hph).2
  have hdynamic : (f.content.filled.headers.find? fun ph => ph.type = ptDynamic) = none := by
    rw [find?_eq_none]
    intro ph hph
    simpa using (hplain ph hph).1
  unfold Relocated at hrelocated
  rw [hdynamic] at hrelocated
  dsimp only at h hrelocated
  rw [hname, hinterp] at h
  obtain ⟨rfl, rfl⟩ := gives_pure.mp h
  refine ⟨bias, hbias, ?_⟩
  rw [hrelocated]
  constructor
  · intro himage ph hph htype k hk j hj hpiece hhole
    obtain ⟨-, hmem⟩ := segment_inside hok hright hph htype
    have hbyte := himage ph hph htype k (by omega)
    exact (image_seen hok hright (hapart bias hbias) hph htype (by omega)).mp hbyte hk j hj hpiece hhole
  · intro hwhole ph hph htype k hk
    exact (image_seen hok hright (hapart bias hbias) hph htype hk).mpr fun hfile => hwhole ph hph htype k hfile

end Exact

/-- What a program leaves in memory is right when nothing of it and of its interpreter is hidden behind a hole and they
lie apart; without relocations and interpreter, the segments are right exactly when nothing of them is hidden. -/
theorem loaded_image_exact (files : Bytes → Option SparseFile) (path : Bytes) (f : SparseFile) (m m' : Memory)
    (out : ElfImage) (hfile : files path = some f) (hload : (elfLoaderExec (sparseFiles files) path).Gives m m' out)
    (hapart : ∀ bias, loadBias f.content.filled.header f.content.filled.headers edgeMainEtDynBase = some bias →
      SegmentsApart bias f.content.filled.headers) :
    (LoadsRight files f.content m → LoadedRight files f.content.filled m m' out) ∧
      (f.content.HeadersRight → (∀ ph ∈ f.content.filled.headers, ph.type ≠ ptDynamic ∧ ph.type ≠ ptInterp) →
        ∃ bias, loadBias f.content.filled.header f.content.filled.headers edgeMainEtDynBase = some bias ∧
          (ImageRight f.content.filled bias [] m' ↔ f.content.SegmentsWhole)) :=
  ⟨fun hright => loadedRight_of_gives hfile hright hapart hload,
    fun hright hplain => imageRight_iff hfile hright hapart hplain hload⟩

/-- A program of nothing but segments loads right when nothing of it is hidden. -/
theorem loadsRight_plain {files : Bytes → Option SparseFile} {f : File32} {m : Memory} (hright : f.HeadersRight)
    (hwhole : f.SegmentsWhole) (hplain : ∀ ph ∈ f.filled.headers, ph.type = ptLoad) : LoadsRight files f m := by
  have hne : ∀ ph ∈ f.filled.headers, ph.type ≠ ptDynamic ∧ ph.type ≠ ptInterp ∧ ph.type ≠ ptPhdr := by
    intro ph hph
    rw [hplain ph hph]
    decide
  refine ⟨hright, hwhole, fun bias rels _ hrels => ⟨⟨?_, ?_⟩, ?_⟩⟩
  · intro hgiven
    refine absurd ?_ hgiven
    unfold phdrFrom
    rw [foldl_ext _ (fun addr _ => addr) 0 fun addr ph hph => if_neg (hne ph hph).2.2, foldl_fixed]
  · obtain rfl := relocations_static (fun ph hph => (hne ph hph).1) hrels
    exact fun i _ ⟨rel, hrel, _⟩ => absurd hrel not_mem_nil
  · intro name g hname
    rw [interp_static fun ph hph => (hne ph hph).2.1] at hname
    cases hname

def loadOutcome {α : Type} (r : Memory × List Access × Lib.Outcome α) : Option (Memory × α) :=
  match r.2.2 with
  | .done out => some (r.1, out)
  | _ => none

theorem gives_of_outcome {α : Type} {x : Load α} {m m' : Memory} {out : α} (h : loadOutcome (x m) = some (m', out)) :
    x.Gives m m' out := by
  unfold loadOutcome at h
  unfold Traced.Gives
  rcases hx : x m with ⟨s, t, o⟩
  rw [hx] at h
  cases o with
  | done a =>
    obtain ⟨hs, ha⟩ := Prod.mk.inj (Option.some.inj h)
    change s = m' at hs
    exact ⟨t, by rw [hs, ha]⟩
  | failed => cases h
  | diverged => cases h

/-- A program of one segment, with ten bytes behind those of the file. -/
def plainProgram : ElfFile where
  bytes :=
    [0x7F, 69, 76, 70, 2, 1, 1, 0, 0, 0, 0, 0, 0, 0, 0, 0, 2, 0, 62, 0, 1, 0, 0, 0] ++
    [0, 0, 64, 0, 0, 0, 0, 0, 64, 0, 0, 0, 0, 0, 0, 0, 0, 0, 0, 0, 0, 0, 0, 0] ++
    [0, 0, 0, 0, 64, 0, 56, 0, 1, 0, 0, 0, 0, 0, 0, 0] ++
    [1, 0, 0, 0, 6, 0, 0, 0, 0, 0, 0, 0, 0, 0, 0, 0, 0, 0, 64, 0, 0, 0, 0, 0, 0, 0, 64, 0, 0, 0, 0, 0] ++
    [120, 0, 0, 0, 0, 0, 0, 0, 130, 0, 0, 0, 0, 0, 0, 0, 0, 0, 0, 0, 0, 0, 0, 0]
  small := by decide

theorem plainProgram_headers : plainProgram.sparse.content.filled.header.phoff = 64 ∧
    plainProgram.sparse.content.filled.header.phBytes = 56 ∧
    plainProgram.sparse.content.filled.headers = [⟨ptLoad, 0, 0x400000, 120, 130⟩] := by
  decide +kernel

/-- The program is in memory. -/
theorem plain_program_exact : ∃ m' out,
    (elfLoaderExec (sparseFiles fun _ => some plainProgram.sparse) []).Gives (fun _ => 0) m' out ∧
      LoadedRight (fun _ => some plainProgram.sparse) plainProgram.sparse.content.filled (fun _ => 0) m' out := by
  obtain ⟨hphoff, hbytes, hheaders⟩ := plainProgram_headers
  have hstored := plainProgram.sparse_stored
  have hsize : plainProgram.sparse.content.size = 120 := rfl
  have hrun : (loadOutcome (elfLoaderExec (sparseFiles fun _ => some plainProgram.sparse) [] fun _ => 0)).isSome =
      true := by
    decide +kernel
  obtain ⟨⟨m', out⟩, hout⟩ := Option.isSome_iff_exists.mp hrun
  have hgives := gives_of_outcome hout
  have hright : plainProgram.sparse.content.HeadersRight :=
    { header := File32.whole_of_stored hstored (by rw [hsize]; decide)
      table := by
        rw [hphoff, hbytes]
        exact ⟨by unfold NoWrap; decide, File32.whole_of_stored hstored (by rw [hsize]; decide)⟩
      names := by
        rw [hheaders]
        exact fun ph hph htype => absurd htype (by rw [List.mem_singleton.mp hph]; decide)
      ranges := by
        rw [hheaders]
        intro ph hph _
        rw [List.mem_singleton.mp hph]
        unfold NoWrap
        decide }
  have hwhole : plainProgram.sparse.content.SegmentsWhole := by
    intro ph hph _
    rw [hheaders] at hph
    rw [List.mem_singleton.mp hph]
    exact File32.wholePieces_of_stored hstored (by rw [hsize]; decide)
  have hplain : ∀ ph ∈ plainProgram.sparse.content.filled.headers, ph.type = ptLoad := by
    rw [hheaders]
    decide
  refine ⟨m', out, hgives, (loaded_image_exact _ [] plainProgram.sparse _ m' out rfl hgives ?_).1
    (loadsRight_plain hright hwhole hplain)⟩
  intro bias _
  rw [hheaders]
  exact List.pairwise_singleton _ _

def holeInodes : Bytes :=
  zeros 256 ++ [0xED, 0x81, 0, 0, 1, 8, 0, 0] ++ zeros 32 ++ [2, 0, 0, 0, 0, 0, 0, 0, 3] ++ zeros 719

/-- A program with its headers at `0x400000`, and at `0x401000` what is in the file from the hole on. -/
def holeProgram : Bytes :=
  [0x7F, 69, 76, 70, 2, 1, 1, 0, 0, 0, 0, 0, 0, 0, 0, 0, 2, 0, 62, 0, 1, 0, 0, 0] ++
    [0, 0, 64, 0, 0, 0, 0, 0, 64, 0, 0, 0, 0, 0, 0, 0, 0, 0, 0, 0, 0, 0, 0, 0] ++
    [0, 0, 0, 0, 64, 0, 56, 0, 2, 0, 0, 0, 0, 0, 0, 0] ++
    [1, 0, 0, 0, 6, 0, 0, 0, 0, 0, 0, 0, 0, 0, 0, 0, 0, 0, 64, 0, 0, 0, 0, 0, 0, 0, 64, 0, 0, 0, 0, 0] ++
    [176, 0, 0, 0, 0, 0, 0, 0, 176, 0, 0, 0, 0, 0, 0, 0, 0, 0, 0, 0, 0, 0, 0, 0] ++
    [1, 0, 0, 0, 6, 0, 0, 0, 0, 4, 0, 0, 0, 0, 0, 0, 0, 16, 64, 0, 0, 0, 0, 0, 0, 16, 64, 0, 0, 0, 0, 0] ++
    [1, 4, 0, 0, 0, 0, 0, 0, 1, 4, 0, 0, 0, 0, 0, 0, 0, 0, 0, 0, 0, 0, 0, 0] ++ zeros 848

def holeFs : Ext2Fs where
  bdev :=
    { sectorSize := 512
      sector := fun n =>
        if n = 2 then some (holeInodes.take 512) else if n = 3 then some (holeInodes.drop 512)
        else if n = 4 then some (holeProgram.take 512) else if n = 5 then some (holeProgram.drop 512)
        else if n = 6 then some (7 :: zeros 511) else some (zeros 512) }
  inodesCount := 3
  inodeSize := 128
  inodeTable := 1
  blockSize := 1024

def holeFile : SparseFile where
  content := holeFs.content (extInodeAt holeInodes 256)
  reads := holeFs.reads 3
  stops := Ext2Fs.stopsAtHoles (by decide) (by decide +kernel)

theorem holeFile_headers : holeFile.content.filled.header.type = etExec ∧ holeFile.content.filled.headers =
    [⟨ptLoad, 0, 0x400000, 176, 176⟩, ⟨ptLoad, 1024, 0x401000, 1025, 1025⟩] := by
  decide +kernel

/-- A byte of a program without relocations that is loaded right. -/
theorem staticByte_of_loaded {files : Bytes → Option SparseFile} {f : ElfFile} {m m' : Memory} {out : ElfImage}
    {bias : UInt64} {ph : ProgramHeader} {k : ℕ} (h : LoadedRight files f m m' out)
    (hbias : loadBias f.header f.headers edgeMainEtDynBase = some bias)
    (hstatic : ∀ ph ∈ f.headers, ph.type ≠ ptDynamic) (hph : ph ∈ f.headers) (htype : ph.type = ptLoad)
    (hk : k < ph.memsz.toNat) : m' (bias + ph.vaddr + k.toUInt64) = f.segmentByte ph k := by
  obtain ⟨bias', rels, hfrom, -⟩ := h
  obtain rfl := Option.some.inj (hbias.symm.trans hfrom.chosen)
  obtain rfl := relocations_static hstatic hfrom.found
  exact hfrom.image ph hph htype k hk

/-- A byte that is behind a hole of the file is not in memory. -/
theorem hole_hides_data : ¬ ∀ (files : Bytes → Option SparseFile) (path : Bytes) (f : SparseFile) (m m' : Memory)
    (out : ElfImage), files path = some f → (elfLoaderExec (sparseFiles files) path).Gives m m' out →
      (∀ bias, loadBias f.content.filled.header f.content.filled.headers edgeMainEtDynBase = some bias →
        SegmentsApart bias f.content.filled.headers) →
      LoadedRight files f.content.filled m m' out := by
  intro hclaim
  obtain ⟨htype, hheaders⟩ := holeFile_headers
  have hbias : loadBias holeFile.content.filled.header holeFile.content.filled.headers edgeMainEtDynBase = some 0 := by
    unfold loadBias
    rw [htype]
    rfl
  have hapart : SegmentsApart 0 holeFile.content.filled.headers := by
    rw [hheaders]
    refine List.pairwise_pair.mpr fun _ _ i hi j hj heq => ?_
    change (0 : UInt64) + 0x400000 + i.toUInt64 = 0 + 0x401000 + j.toUInt64 at heq
    change i < 176 at hi
    change j < 1025 at hj
    have hsum := congrArg UInt64.toNat heq
    have hlo : ((0 : UInt64) + 0x400000).toNat = 0x400000 := by decide
    have hhi : ((0 : UInt64) + 0x401000).toNat = 0x401000 := by decide
    rw [toNat_add_of_fit (by omega), toNat_add_of_fit (by omega)] at hsum
    omega
  have hrun : ∃ r, loadOutcome (elfLoaderExec (sparseFiles fun _ => some holeFile) [] fun _ => 0) = some r ∧
      r.1 0x401400 = 0 := by
    have heval : (loadOutcome (elfLoaderExec (sparseFiles fun _ => some holeFile) [] fun _ => 0)).map
        (fun r => r.1 0x401400) = some 0 := by decide +kernel
    cases hout : loadOutcome (elfLoaderExec (sparseFiles fun _ => some holeFile) [] fun _ => 0) with
    | none =>
      rw [hout] at heval
      cases heval
    | some r =>
      rw [hout] at heval
      exact ⟨r, rfl, Option.some.inj heval⟩
  obtain ⟨⟨m', out⟩, hout, hbyte⟩ := hrun
  have hstatic : ∀ ph ∈ holeFile.content.filled.headers, ph.type ≠ ptDynamic := by
    rw [hheaders]
    decide
  have hsegment : ⟨ptLoad, 1024, 0x401000, 1025, 1025⟩ ∈ holeFile.content.filled.headers := by
    rw [hheaders]
    decide
  have hright := staticByte_of_loaded (hclaim (fun _ => some holeFile) [] holeFile (fun _ => 0) m' out rfl
    (gives_of_outcome hout) (fun bias h => by rwa [← Option.some.inj (hbias.symm.trans h)])) hbias hstatic hsegment rfl
    (show 1024 < 1025 by decide)
  have hseven : holeFile.content.filled.segmentByte ⟨ptLoad, 1024, 0x401000, 1025, 1025⟩ 1024 = 7 := by decide +kernel
  rw [hseven] at hright
  change m' 0x401400 = 7 at hright
  change m' 0x401400 = 0 at hbyte
  rw [hbyte] at hright
  exact absurd hright (by decide)

end EdgeOS
