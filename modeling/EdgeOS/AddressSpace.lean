import Mathlib.Tactic.IntervalCases
import EdgeOS.Task
import EdgeOS.UserCopy

namespace EdgeOS

/-!
The page directories of `src/sys/process.c`: `task_build_address_space` and the static
arrays behind a task's user regions.
-/

open List

abbrev userAsMaxTasks : ℕ := 16

/-- A 2 MiB page, `USER_REGION_SIZE`. -/
abbrev pageBytes : ℕ := 0x200000

def pagePresent : UInt64 := 0x001
def pageWrite : UInt64 := 0x002
def pageUser : UInt64 := 0x004
def pagePs : UInt64 := 0x080

/-- The backing arrays `g_user_low`, `g_user_text`, `g_user_stack`, `g_user_heap`,
`g_user_heap_ext` and `g_user_bigpie`. -/
inductive Region
  | low | text | stack | heap | heapExt | bigpie
  deriving DecidableEq, Repr

namespace Region

/-- The address a region is mapped at: `USER_LOW_BASE`, `USER_TEXT_BASE` and so on. -/
def base : Region → ℕ
  | low => 0x00400000
  | text => 0x20000000
  | stack => 0x20200000
  | heap => 0x20400000
  | heapExt => 0x22400000
  | bigpie => 0x30000000

def size : Region → ℕ
  | low => 4 * 1024 * 1024
  | text => pageBytes
  | stack => pageBytes
  | heap => 32 * 1024 * 1024
  | heapExt => 8 * 1024 * 1024
  | bigpie => 16 * 1024 * 1024

/-- `USER_LOW_PDE_CNT`, `USER_HEAP_PDE_CNT` and so on. -/
def pdeCnt (r : Region) : ℕ := r.size / pageBytes

def firstPde (r : Region) : ℕ := r.base / pageBytes % 512

def all : List Region := [low, text, stack, heap, heapExt, bigpie]

theorem mem_all (r : Region) : r ∈ all := by cases r <;> simp [all]

end Region

/-- Where a directory entry points: a physical address, or page `p` of the backing array
of a region and slot (`&g_user_low[idx][p << 21]`). -/
inductive Frame
  | phys (addr : ℕ)
  | user (r : Region) (idx : Fin procMaxTasks) (p : ℕ)
  deriving DecidableEq, Repr

/-- A page-directory entry, address and flag bits apart. -/
structure PdEntry where
  frame : Frame := .phys 0
  flags : UInt64 := 0
  deriving DecidableEq, Repr

def PdEntry.isUser (e : PdEntry) : Bool := e.flags &&& pageUser != 0

/-- `g_pd[idx]`: four tables of 512 entries. -/
abbrev Directory := ℕ → ℕ → PdEntry

/-- The backing arrays in the order of their declarations. -/
def declaredArrays : Region → ℕ
  | .text => 0x08400000
  | .stack => 0x0A400000
  | .heap => 0x0C400000
  | .heapExt => 0x2C400000
  | .bigpie => 0x34400000
  | .low => 0x44400000

/-- What the link and the framebuffer driver decide: `_kernel_end`, the addresses of the backing arrays, the
answers of `fb_get_2m_phys_window` and `fb_get_2m_remap` (address, pages), and what the framebuffer's memory
reads as. -/
structure KernelLayout where
  kernelEnd : ℕ
  arrays : Region → ℕ := declaredArrays
  fbWindow : Option (ℕ × ℕ) := none
  fbRemap : Option (ℕ × ℕ) := none
  fbByte : ℕ → UInt8 := fun _ => 0

/-- `_kernel_start`, fixed by `config/linker.ld`. -/
def kernelStart : ℕ := 0x08000000

/-- One of the loops that fill consecutive entries of a table, up to its end. -/
def setPages (d : Directory) (pdi start n : ℕ) (f : ℕ → PdEntry) : Directory :=
  (List.range n).foldl
    (fun d p => if start + p ≥ 512 then d else
      fun i j => if i = pdi ∧ j = start + p then f p else d i j) d

/-- The identity mapping of 2 MiB page `i` of table `pdi`; kernel image pages are
supervisor-only. -/
def identityEntry (L : KernelLayout) (userMode : Bool) (pdi i : ℕ) : PdEntry :=
  let base := pdi * 2 ^ 30 + i * pageBytes
  let flags := pagePresent ||| pageWrite ||| pagePs
  let stop := base + pageBytes
  { frame := .phys base
    flags := if userMode && (stop ≤ kernelStart || base ≥ L.kernelEnd) then flags ||| pageUser
      else flags }

def uflags : UInt64 := pagePresent ||| pageWrite ||| pageUser ||| pagePs

def mapRegion (idx : Fin procMaxTasks) (d : Directory) (r : Region) : Directory :=
  setPages d 0 r.firstPde r.pdeCnt fun p => { frame := .user r idx p, flags := uflags }

/-- First entry of the framebuffer alias, `USER_FBDEV_BASE >> 21`. -/
def fbdevPde : ℕ := 0x38000000 / pageBytes % 512

def fbdevMaxPages : ℕ := 32

def mapFbWindow (d : Directory) : Option (ℕ × ℕ) → Directory
  | none => d
  | some (phys, pages) =>
    setPages d 0 fbdevPde (min pages fbdevMaxPages) fun p =>
      { frame := .phys (phys + p * pageBytes), flags := uflags }

/-- The remap window starts at `FB_REMAP_VIRT_BASE`, in the last table. -/
def mapFbRemap (d : Directory) : Option (ℕ × ℕ) → Directory
  | none => d
  | some (phys, pages) =>
    setPages d 3 ((0xFC000000 - 0xC0000000) / pageBytes) pages fun p =>
      { frame := .phys (phys + p * pageBytes), flags := pagePresent ||| pageWrite ||| pagePs }

def taskBuildAddressSpace (L : KernelLayout) (idx : Fin procMaxTasks) (userMode : Bool) : Directory :=
  let d : Directory := fun _ _ => {}
  let d := (List.range 4).foldl (fun d pdi => setPages d pdi 0 512 (identityEntry L userMode pdi)) d
  let d := if userMode ∧ idx.val < userAsMaxTasks then
      mapFbWindow (Region.all.foldl (mapRegion idx) d) L.fbWindow
    else d
  mapFbRemap d L.fbRemap

def Directory.entry (d : Directory) (va : ℕ) : PdEntry := d (va / 2 ^ 30) (va / pageBytes % 512)

/-! ## What the builder leaves in the first table -/

theorem setPages_apply (d : Directory) (pdi start n : ℕ) (f : ℕ → PdEntry) (i j : ℕ) : setPages d pdi start n f i j =
      if i = pdi ∧ start ≤ j ∧ j < start + n ∧ j < 512 then f (j - start) else d i j := by
  unfold setPages
  induction n with
  | zero =>
    rw [if_neg (by omega)]
    rfl
  | succ n ih =>
    rw [range_succ, foldl_append, foldl_cons, foldl_nil]
    split_ifs with h1 h2 h2
    · rw [ih, if_pos (by omega)]
    · rw [ih, if_neg (by omega)]
    · beta_reduce
      by_cases hj : j = start + n
      · rw [if_pos ⟨h2.1, hj⟩, hj, Nat.add_sub_cancel_left]
      · rw [if_neg (by omega), ih, if_pos (by omega)]
    · beta_reduce
      rw [if_neg (by omega), ih, if_neg (by omega)]

/-- Page `j` of the first table belongs to region `r`. -/
def Region.Covers (r : Region) (j : ℕ) : Prop := r.firstPde ≤ j ∧ j < r.firstPde + r.pdeCnt

instance (r : Region) (j : ℕ) : Decidable (r.Covers j) :=
  inferInstanceAs (Decidable (_ ∧ _))

/-- Page `j` of the first table is in the framebuffer alias. -/
def FbCovers (L : KernelLayout) (j : ℕ) : Prop :=
  ∃ w ∈ L.fbWindow, fbdevPde ≤ j ∧ j < fbdevPde + min w.2 fbdevMaxPages

theorem Region.covers_unique {r r' : Region} {j : ℕ} (h : r.Covers j) (h' : r'.Covers j) : r = r' := by
  have hr : ∀ r : Region, r.firstPde = match r with
      | low => 2 | text => 256 | stack => 257 | heap => 258 | heapExt => 274 | bigpie => 384 := by
    intro r
    cases r <;> rfl
  have hc : ∀ r : Region, r.pdeCnt = match r with
      | low => 2 | text => 1 | stack => 1 | heap => 16 | heapExt => 4 | bigpie => 8 := by
    intro r
    cases r <;> rfl
  unfold Region.Covers at h h'
  rw [hr, hc] at h h'
  cases r <;> cases r' <;> simp only [reduceCtorEq] at h h' ⊢ <;> omega

theorem mapRegion_apply (idx : Fin procMaxTasks) (d : Directory) (r : Region) (j : ℕ) : mapRegion idx d r 0 j =
      if r.Covers j then { frame := .user r idx (j - r.firstPde), flags := uflags }
      else d 0 j := by
  have hr : r.firstPde + r.pdeCnt ≤ 512 := by cases r <;> decide
  rw [mapRegion, setPages_apply]
  unfold Region.Covers
  refine if_congr ?_ rfl rfl
  omega

theorem foldl_mapRegion_of_not_covers (idx : Fin procMaxTasks) {j : ℕ} (l : List Region)
    (d : Directory) (h : ∀ r ∈ l, ¬ r.Covers j) : l.foldl (mapRegion idx) d 0 j = d 0 j := by
  induction l generalizing d with
  | nil => rfl
  | cons r l ih =>
    rw [foldl_cons, ih _ fun r' hr' => h r' (by simp [hr']), mapRegion_apply, if_neg (h r (by simp))]

theorem foldl_mapRegion_of_covers (idx : Fin procMaxTasks) {r : Region} {j : ℕ}
    (hr : r.Covers j) (l : List Region) (d : Directory) (hmem : r ∈ l) (hnd : l.Nodup) :
    l.foldl (mapRegion idx) d 0 j = { frame := .user r idx (j - r.firstPde), flags := uflags } := by
  induction l generalizing d with
  | nil => simp at hmem
  | cons r' l ih =>
    obtain ⟨hr', hnd'⟩ := nodup_cons.mp hnd
    rw [foldl_cons]
    rcases mem_cons.mp hmem with rfl | hmem'
    · rw [foldl_mapRegion_of_not_covers, mapRegion_apply, if_pos hr]
      intro r'' hmem'' hcov
      exact hr' (Region.covers_unique hr hcov ▸ hmem'')
    · exact ih _ hmem' hnd'

theorem uflags_isUser (f : Frame) : ({ frame := f, flags := uflags } : PdEntry).isUser = true := by
  show (uflags &&& pageUser != 0) = true
  decide

theorem identityEntry_isUser (L : KernelLayout) (pdi i : ℕ) : (identityEntry L true pdi i).isUser = true ↔
      pdi * 2 ^ 30 + i * pageBytes + pageBytes ≤ kernelStart ∨ L.kernelEnd ≤ pdi * 2 ^ 30 + i * pageBytes := by
  unfold identityEntry PdEntry.isUser
  by_cases h : pdi * 2 ^ 30 + i * pageBytes + pageBytes ≤ kernelStart ∨ L.kernelEnd ≤ pdi * 2 ^ 30 + i * pageBytes
  · have h' : (true && (decide (pdi * 2 ^ 30 + i * pageBytes + pageBytes ≤ kernelStart) ||
        decide (pdi * 2 ^ 30 + i * pageBytes ≥ L.kernelEnd))) = true := by simpa using h
    simp only [h', if_true, h, iff_true]
    decide
  have h' : (true && (decide (pdi * 2 ^ 30 + i * pageBytes + pageBytes ≤ kernelStart) ||
      decide (pdi * 2 ^ 30 + i * pageBytes ≥ L.kernelEnd))) = false := by
    push Not at h
    simpa using h
  simp only [h', h, iff_false]
  decide

section Build

variable (L : KernelLayout) {idx : Fin procMaxTasks} (hidx : idx.val < userAsMaxTasks)

theorem mapFbWindow_apply (d : Directory) (j : ℕ) : (FbCovers L j ∧ (mapFbWindow d L.fbWindow 0 j).isUser = true) ∨
      (¬ FbCovers L j ∧ mapFbWindow d L.fbWindow 0 j = d 0 j) := by
  unfold FbCovers
  rcases L.fbWindow with _ | ⟨phys, pages⟩
  · exact .inr ⟨by simp, rfl⟩
  have hfb : fbdevPde + fbdevMaxPages ≤ 512 := by decide
  by_cases h : fbdevPde ≤ j ∧ j < fbdevPde + min pages fbdevMaxPages
  · refine .inl ⟨⟨_, rfl, h⟩, ?_⟩
    rw [mapFbWindow, setPages_apply, if_pos (by omega), uflags_isUser]
  · refine .inr ⟨by simpa using h, ?_⟩
    rw [mapFbWindow, setPages_apply, if_neg (by omega)]

theorem mapFbRemap_apply (d : Directory) (j : ℕ) : mapFbRemap d L.fbRemap 0 j = d 0 j := by
  rcases L.fbRemap with _ | ⟨phys, pages⟩
  · rfl
  · rw [mapFbRemap, setPages_apply, if_neg (by omega)]

theorem identity_apply (userMode : Bool) (d : Directory) {j : ℕ} (hj : j < 512) :
    (List.range 4).foldl (fun d pdi => setPages d pdi 0 512 (identityEntry L userMode pdi)) d 0 j =
      identityEntry L userMode 0 j := by
  have h4 : List.range 4 = [0, 1, 2, 3] := by decide
  rw [h4, foldl_cons, foldl_cons, foldl_cons, foldl_cons, foldl_nil]
  rw [setPages_apply, if_neg (by omega), setPages_apply, if_neg (by omega), setPages_apply,
    if_neg (by omega), setPages_apply, if_pos (by omega), Nat.sub_zero]

include hidx in
/-- A page of the first table is a user page iff it is one of the task's own region
pages or framebuffer pages, or lies outside the kernel image. -/
theorem build_isUser {j : ℕ} (hj : j < 512) : (taskBuildAddressSpace L idx true 0 j).isUser = true ↔
      (∃ r : Region, r.Covers j) ∨ FbCovers L j ∨
        j * pageBytes + pageBytes ≤ kernelStart ∨ L.kernelEnd ≤ j * pageBytes := by
  unfold taskBuildAddressSpace
  simp only [mapFbRemap_apply, hidx, and_self, if_true]
  rcases mapFbWindow_apply L (Region.all.foldl (mapRegion idx) ((List.range 4).foldl
    (fun d pdi => setPages d pdi 0 512 (identityEntry L true pdi)) fun _ _ => {})) j with
    ⟨hfb, hu⟩ | ⟨hfb, he⟩
  · simp [hu, hfb]
  · rw [he]
    by_cases hr : ∃ r : Region, r.Covers j
    · obtain ⟨r, hr⟩ := hr
      rw [foldl_mapRegion_of_covers idx hr _ _ r.mem_all (by decide), uflags_isUser]
      simp only [true_iff]
      exact .inl ⟨r, hr⟩
    rw [foldl_mapRegion_of_not_covers idx _ _ fun r _ hc => hr ⟨r, hc⟩, identity_apply L true _ hj,
      identityEntry_isUser]
    simp [hr, hfb]

end Build

/-! ## Confinement of the copies -/

/-- Address `va` is in `[addr, addr + len)`. -/
def Touches (addr len : UInt64) (va : ℕ) : Prop :=
  addr.toNat ≤ va ∧ va < addr.toNat + len.toNat

/-- Every page of the range is a user page of the task, and so is every page that a copy
of the range reads or writes. -/
def CopyConfined (L : KernelLayout) (idx : Fin procMaxTasks) (addr len : UInt64) : Prop :=
  (∀ va, Touches addr len va → ((taskBuildAddressSpace L idx true).entry va).isUser = true) ∧
  (∀ a ∈ copyAddrs addr len, ((taskBuildAddressSpace L idx true).entry a.toNat).isUser = true)

/-- Page `j` misses the kernel image, or is one the task has its own memory behind. -/
def PageClear (L : KernelLayout) (j : ℕ) : Prop :=
  j * pageBytes + pageBytes ≤ kernelStart ∨ L.kernelEnd ≤ j * pageBytes ∨ (∃ r : Region, r.Covers j) ∨ FbCovers L j

theorem mem_copyAddrs {addr len a : UInt64} (hok : userRangeOk addr len = true)
    (ha : a ∈ copyAddrs addr len) : Touches addr len a.toNat := by
  obtain ⟨h1, h2, h3⟩ := (userRangeOk_iff addr len).mp hok
  obtain ⟨i, hi, rfl⟩ := mem_map.mp ha
  have hlen : len.toUInt32.toNat = len.toNat := by
    rw [UInt64.toNat_toUInt32]
    omega
  rw [mem_range, hlen] at hi
  unfold Touches
  rw [UInt64.toNat_add, UInt64.toNat_ofNat']
  omega

theorem entry_isUser (L : KernelLayout) {idx : Fin procMaxTasks}
    (hidx : idx.val < userAsMaxTasks) {va : ℕ} (hva : va < 0x40000000) :
    ((taskBuildAddressSpace L idx true).entry va).isUser = true ↔ PageClear L (va / pageBytes) := by
  have h0 : va / 2 ^ 30 = 0 := by omega
  have hj : va / pageBytes < 512 := by
    unfold pageBytes
    omega
  rw [Directory.entry, h0, Nat.mod_eq_of_lt hj, build_isUser L hidx hj]
  unfold PageClear
  tauto

/-- An accepted range is confined to user pages exactly when each of its pages misses
the kernel image or has the task's own memory behind it. -/
theorem copyConfined_iff (L : KernelLayout) (idx : Fin procMaxTasks) (addr len : UInt64)
    (hidx : idx.val < userAsMaxTasks) (hok : userRangeOk addr len = true) :
    CopyConfined L idx addr len ↔ ∀ va, Touches addr len va → PageClear L (va / pageBytes) := by
  have hlt : ∀ va, Touches addr len va → va < 0x40000000 := by
    intro va hva
    obtain ⟨h1, h2, h3⟩ := (userRangeOk_iff addr len).mp hok
    unfold Touches at hva
    omega
  constructor
  · rintro ⟨h, -⟩ va hva
    exact (entry_isUser L hidx (hlt va hva)).mp (h va hva)
  · intro h
    refine ⟨fun va hva => (entry_isUser L hidx (hlt va hva)).mpr (h va hva), fun a ha => ?_⟩
    have hva := mem_copyAddrs hok ha
    exact (entry_isUser L hidx (hlt _ hva)).mpr (h _ hva)

/-- The text page of slot 3, with a kernel image that ends after the backing arrays. -/
theorem copyConfined_text_page : (userRangeOk 0x20000000 0x1000 = true ∧ (3 : Fin procMaxTasks).val < userAsMaxTasks) ∧
      CopyConfined { kernelEnd := 0x48000000 } 3 0x20000000 0x1000 := by
  refine ⟨by decide, (copyConfined_iff _ 3 _ _ (by decide) (by decide)).mpr fun va hva => ?_⟩
  have h : va / pageBytes = 256 := by
    have h1 : (0x20000000 : UInt64).toNat = 0x20000000 := rfl
    have h2 : (0x1000 : UInt64).toNat = 0x1000 := rfl
    unfold Touches at hva
    unfold pageBytes
    omega
  rw [h]
  exact .inr (.inr (.inl ⟨.text, by decide⟩))

/-- The first byte of the kernel image: accepted, and supervisor-only. -/
theorem kernel_start_accepted : ¬ (userRangeOk 0x08000000 1 = true →
      CopyConfined { kernelEnd := 0x48000000 } 0 0x08000000 1) := by
  intro h
  have h1 := (h (by decide)).1 0x08000000 ⟨by decide, by decide⟩
  rw [entry_isUser _ (by decide) (by decide)] at h1
  rcases h1 with h1 | h1 | ⟨r, h1⟩ | ⟨w, hw, -⟩
  · exact absurd h1 (by decide)
  · exact absurd h1 (by decide)
  · cases r <;> exact absurd h1 (by decide)
  · simp at hw

end EdgeOS
