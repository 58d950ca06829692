import EdgeOS.Lib.Runs
import EdgeOS.MemoryMap

namespace EdgeOS

open Lib UserMap Function

/-!
Runs of `brk`, `mmap`, `munmap` and `mremap` by one task after an exec. The kernel knows a
mapping only through its table; the system below also keeps the addresses that the program may
use.
-/

/-- `live` is not in the source: the addresses of successful `mmap`s, less the pages since
passed to `munmap`. -/
structure MapKernel where
  map : UserMap
  live : ℕ → Bool := fun _ => false

inductive MapEvent
  | brk (addr : UInt64)
  | mmap (addr len prot flags fd off : UInt64) (backing : Backing)
  | munmap (addr len : UInt64)
  | mremap (oldAddr oldSize newSize flags : UInt64)

namespace MapKernel

variable (pte : ℕ → PteFlags) (k : MapKernel)

def step : MapEvent → MapKernel
  | .brk addr => { k with map := doSysBrk pte k.map addr }
  | .mmap addr len prot flags fd off backing =>
    match doSysMmap pte k.map addr len prot flags fd off backing with
    | (t, .ok base) => ⟨t, fun a => k.live a || (base ≤ a ∧ a < base + pageAlignUp len.toNat)⟩
    | (t, .error _) => { k with map := t }
  | .munmap addr len =>
    match doSysMunmap k.map addr len with
    | (t, .ok _) =>
      ⟨t, fun a => k.live a && ¬ (addr.toNat ≤ a ∧ a < addr.toNat + pageAlignUp len.toNat)⟩
    | (t, .error _) => { k with map := t }
  | .mremap _ _ _ _ => k

/-- The area of the break and its limits are in order, and no live mapping reaches into it. -/
structure Apart : Prop where
  heap : k.map.userHeapBase ≤ k.map.userBrk ∧ k.map.userBrk ≤ k.map.userHeapLimit
  live : ∀ a, k.live a = true → ¬ (k.map.userHeapBase ≤ a ∧ a < k.map.userBrk)

/-- A successful `mmap` returns pages that are neither live nor in the area of the break, and a successful `mremap` the
first pages of the range it was given. -/
def Fresh : MapEvent → Prop
  | .mmap addr len prot flags fd off backing =>
    ∀ base, (doSysMmap pte k.map addr len prot flags fd off backing).2 = .ok base →
      base % pageSize = 0 ∧ ∀ a, base ≤ a → a < base + pageAlignUp len.toNat →
        k.live a = false ∧ ¬ (k.map.userHeapBase ≤ a ∧ a < k.map.userBrk)
  | .mremap oldAddr oldSize newSize flags => ∀ base, doSysMremap oldAddr oldSize newSize flags = .ok base →
      base = oldAddr.toNat ∧ base % pageSize = 0 ∧ pageAlignUp newSize.toNat ≤ pageAlignUp oldSize.toNat
  | _ => True

/-- No `munmap` cuts a mapping in two while the table is full, and no `mmap` has a fixed address
or a device behind it. -/
def HasRoom : MapEvent → Prop
  | .mmap _ _ _ flags _ _ backing => flags &&& linuxMapFixed = 0 ∧
      (flags &&& linuxMapAnon = 0 → ∀ maddr, backing ≠ .device (some maddr))
  | .munmap addr len => pageAlignUp len.toNat ≠ 0 → addr.toNat % pageSize = 0 →
      userHeapBaseAddr ≤ addr.toNat → addr.toNat < k.map.userHeapLimit →
      k.map.Room addr.toNat ((addr.toNat + pageAlignUp len.toNat) % 2 ^ 64)
  | _ => True

end MapKernel

/-! ## The invariant -/

theorem pageAlignUp_mod (v : ℕ) : pageAlignUp v % pageSize = 0 := Nat.mul_mod_left _ _

theorem le_pageAlignUp {v : ℕ} (h : v + pageSize ≤ 2 ^ 64) : v ≤ pageAlignUp v := by
  have hp : pageSize = 4096 := rfl
  unfold pageAlignUp
  rw [hp] at h ⊢
  rw [Nat.mod_eq_of_lt (by omega)]
  omega

/-- What holds of the map alone: the break lies below all mappings, and these below the limit. -/
structure UserMap.Ordered (t : UserMap) : Prop where
  heap : userHeapBaseAddr ≤ t.userHeapBase ∧ t.userHeapBase ≤ t.userBrk ∧ t.userBrk ≤ t.userHeapLimit
  limit : t.userHeapLimit ≤ userMaxAddr.toNat
  aligned : t.userHeapBase % pageSize = 0
  separate : t.Separate
  inside : ∀ a, t.Covers a → t.userBrk ≤ a ∧ a < t.userHeapLimit

structure MapKernel.TracksLive (k : MapKernel) : Prop where
  map : k.map.Ordered
  tracked : ∀ a, k.live a = true → k.map.Covers a

section Steps

variable {pte : ℕ → PteFlags} {t : UserMap} {k : MapKernel}

theorem UserMap.Ordered.brk (h : t.Ordered) (addr : UInt64) : (doSysBrk pte t addr).Ordered := by
  unfold doSysBrk
  dsimp only
  split
  · exact h
  split
  · exact h
  split
  · exact h
  split
  · exact h
  rename_i hrange hover _
  refine ⟨⟨h.heap.1, by dsimp only; omega, by dsimp only; omega⟩, h.limit, h.aligned, h.separate,
    fun a ha => ⟨?_, (h.inside a ha).2⟩⟩
  -- A mapping below the new break would start between the old one and the new one.
  dsimp only
  by_contra hlt
  obtain ⟨i, hi⟩ := ha
  obtain ⟨hi1, hi2⟩ : (t.userVmas i).start ≤ a ∧ a < (t.userVmas i).stop := hi
  have hlo : t.userBrk ≤ (t.userVmas i).start :=
    (h.inside _ ⟨i, le_rfl, lt_of_le_of_lt hi1 hi2⟩).1
  refine hover ⟨by omega, i, lt_of_le_of_lt hi1 hi2, ?_⟩
  rintro (h1 | h1) <;> omega

theorem doSysBrk_vmas (addr : UInt64) : (doSysBrk pte t addr).userVmas = t.userVmas := by
  unfold doSysBrk
  dsimp only
  split_ifs <;> rfl

theorem mmapFloor_spec (h : t.Ordered) :
    mmapFloor t % pageSize = 0 ∧ userHeapBaseAddr ≤ mmapFloor t ∧ t.userBrk ≤ mmapFloor t := by
  have hmax : userMaxAddr.toNat = 0x40000000 := rfl
  have hle : t.userBrk ≤ pageAlignUp t.userBrk :=
    le_pageAlignUp (by have := h.heap; have := h.limit; have hp : pageSize = 4096 := rfl; omega)
  have hal := pageAlignUp_mod t.userBrk
  have hbase := h.aligned
  unfold mmapFloor
  refine ⟨?_, by omega, by omega⟩
  rcases max_choice userHeapBaseAddr (max t.userHeapBase (pageAlignUp t.userBrk)) with hm | hm
  · rw [hm]
    rfl
  · rw [hm]
    rcases max_choice t.userHeapBase (pageAlignUp t.userBrk) with hm | hm <;> rw [hm] <;> assumption

/-- A call that changes neither the limits nor what is covered. -/
theorem UserMap.Ordered.congr {t' : UserMap} (h : t.Ordered) (hf : SameHeap t t') (hs : t'.Separate)
    (hin : ∀ a, t'.Covers a → t.userBrk ≤ a ∧ a < t.userHeapLimit) : t'.Ordered := by
  obtain ⟨h1, h2, h3⟩ := hf
  refine ⟨?_, ?_, ?_, hs, ?_⟩
  · rw [h1, h2, h3]
    exact h.heap
  · rw [h3]
    exact h.limit
  · rw [h1]
    exact h.aligned
  · rw [h2, h3]
    exact hin

/-- `do_sys_mmap` at the address of a gap: the table is as before, or has the new range. -/
theorem mmapAt_spec (pte : ℕ → PteFlags) {need base : ℕ} (prot : UInt64) {flags : UInt64}
    {backing : Backing} (h : t.Ordered)
    (hgap : Gap t (mmapFloor t) t.userHeapLimit need base) (hneed : 0 < need)
    (hdev : flags &&& linuxMapAnon = 0 → ∀ maddr, backing ≠ .device (some maddr)) :
    (mmapAt pte t base need prot flags backing).1.Ordered ∧
      (∀ a, t.Covers a → (mmapAt pte t base need prot flags backing).1.Covers a) ∧
      ∀ b, (mmapAt pte t base need prot flags backing).2 = .ok b → b = base ∧ ∀ a, base ≤ a → a < base + need →
          (mmapAt pte t base need prot flags backing).1.Covers a := by
  have hfloor := (mmapFloor_spec h).2
  have hwin := hgap.window
  unfold mmapAt
  rw [removeRange_of_free hgap.free]
  split
  · exact ⟨h, fun _ ha => ha, by simp⟩
  dsimp only
  split
  · exact ⟨h, fun _ ha => ha, by simp⟩
  split
  · exact ⟨h, fun _ ha => ha, by simp⟩
  · rename_i maddr hb
    split at hb
    · rename_i hanon
      exact absurd hb (hdev hanon maddr)
    · simp at hb
  · exact ⟨h, fun _ ha => ha, by simp⟩
  · exact ⟨h, fun _ ha => ha, by simp⟩
  split
  · split
    · exact ⟨h, fun _ ha => ha, by simp⟩
    · rename_i t' hrec
      obtain ⟨hf, hsep, hcov⟩ := vmaRecord_spec h.separate hgap.free hrec
      refine ⟨h.congr hf hsep fun a ha => ?_, fun a ha => (hcov a).mpr (.inl ha), fun b hb => ?_⟩
      · rcases (hcov a).mp ha with hc | hin
        · exact h.inside a hc
        · omega
      · exact ⟨(Except.ok.inj hb).symm, fun a h1 h2 => (hcov a).mpr (.inr ⟨h1, h2⟩)⟩
  · rename_i hout
    omega

theorem doSysMmap_spec (pte : ℕ → PteFlags) (addr len prot : UInt64) {flags : UInt64}
    (fd off : UInt64) {backing : Backing} (h : t.Ordered) (hfixed : flags &&& linuxMapFixed = 0)
    (hdev : flags &&& linuxMapAnon = 0 → ∀ maddr, backing ≠ .device (some maddr)) :
    (doSysMmap pte t addr len prot flags fd off backing).1.Ordered ∧
      (∀ a, t.Covers a → (doSysMmap pte t addr len prot flags fd off backing).1.Covers a) ∧
      ∀ b, (doSysMmap pte t addr len prot flags fd off backing).2 = .ok b →
        Gap t (mmapFloor t) t.userHeapLimit (pageAlignUp len.toNat) b ∧
        ∀ a, b ≤ a → a < b + pageAlignUp len.toNat →
          (doSysMmap pte t addr len prot flags fd off backing).1.Covers a := by
  have hmax : userMaxAddr.toNat = 0x40000000 := rfl
  have hlimit := h.limit
  unfold doSysMmap
  dsimp only
  split
  · exact ⟨h, fun _ ha => ha, by simp⟩
  split
  · exact ⟨h, fun _ ha => ha, by simp⟩
  split
  · exact ⟨h, fun _ ha => ha, by simp⟩
  split
  · exact ⟨h, fun _ ha => ha, by simp⟩
  rename_i hneed
  rw [if_neg (not_not.mpr hfixed)]
  split
  · exact ⟨h, fun _ ha => ha, by simp⟩
  rename_i hbase
  have hgap := findTopdownGap_spec (by omega) hbase
  obtain ⟨h1, h2, h3⟩ := mmapAt_spec pte prot h hgap (Nat.pos_of_ne_zero hneed) hdev
  refine ⟨h1, h2, fun b hb => ?_⟩
  obtain ⟨rfl, hcov⟩ := h3 b hb
  exact ⟨hgap, hcov⟩

theorem MapKernel.TracksLive.mmap (h : k.TracksLive) (addr len prot flags fd off : UInt64) (backing : Backing)
    (hok : k.HasRoom (.mmap addr len prot flags fd off backing)) :
    (k.step pte (.mmap addr len prot flags fd off backing)).TracksLive ∧
      k.Fresh pte (.mmap addr len prot flags fd off backing) := by
  obtain ⟨hord, hkeep, hnew⟩ :=
    doSysMmap_spec pte addr len prot fd off h.map hok.1 hok.2
  constructor
  · unfold MapKernel.step
    dsimp only
    split
    · rename_i t base hres
      rw [hres] at hord hkeep hnew
      refine ⟨hord, fun a ha => ?_⟩
      rcases (Bool.or_eq_true _ _).mp ha with hl | hin
      · exact hkeep a (h.tracked a hl)
      · have hin := of_decide_eq_true hin
        exact (hnew base rfl).2 a hin.1 hin.2
    · rename_i t err hres
      rw [hres] at hord hkeep
      exact ⟨hord, fun a ha => hkeep a (h.tracked a ha)⟩
  · intro base hb
    have hgap := (hnew base hb).1
    obtain ⟨hal, -, hbrk⟩ := mmapFloor_spec h.map
    refine ⟨hgap.aligned hal, fun a h1 h2 => ⟨?_, ?_⟩⟩
    · by_contra hl
      exact hgap.free a h1 h2 (h.tracked a (by simpa using hl))
    · have := hgap.window
      omega

theorem MapKernel.TracksLive.munmap (h : k.TracksLive) (addr len : UInt64)
    (hok : k.HasRoom (.munmap addr len)) : (k.step pte (.munmap addr len)).TracksLive := by
  -- The table loses nothing but the pages of the call.
  have hspec : (doSysMunmap k.map addr len).1.Ordered ∧ ∀ a, k.map.Covers a →
      ¬ (addr.toNat ≤ a ∧ a < addr.toNat + pageAlignUp len.toNat) → (doSysMunmap k.map addr len).1.Covers a := by
    unfold doSysMunmap
    dsimp only
    split
    · exact ⟨h.map, fun _ ha _ => ha⟩
    split
    · exact ⟨h.map, fun _ ha _ => ha⟩
    split
    · exact ⟨h.map, fun _ ha _ => ha⟩
    split
    · rename_i hal hneed hwin
      have hrem := removeRange_spec h.map.separate (hok hneed (not_not.mp hal) hwin.1 hwin.2)
      have hsame := removeRange_sameHeap k.map addr.toNat
        ((addr.toNat + pageAlignUp len.toNat) % 2 ^ 64)
      refine ⟨h.map.congr hsame hrem.separate fun a ha => ?_, fun a ha hout => ?_⟩
      · exact h.map.inside a ((hrem.covers a).mp ha).1
      · refine (hrem.covers a).mpr ⟨ha, fun hin => hout ⟨hin.1, ?_⟩⟩
        have hle := Nat.mod_le (addr.toNat + pageAlignUp len.toNat) (2 ^ 64)
        omega
    · exact ⟨h.map, fun _ ha _ => ha⟩
  unfold MapKernel.step
  dsimp only
  split
  · rename_i t base hres
    rw [hres] at hspec
    refine ⟨hspec.1, fun a ha => ?_⟩
    obtain ⟨hl, hout⟩ := (Bool.and_eq_true _ _).mp ha
    exact hspec.2 a (h.tracked a hl) (of_decide_eq_true hout)
  rename_i t err hres
  have hsame : t = k.map := by
    unfold doSysMunmap at hres
    dsimp only at hres
    split_ifs at hres
    all_goals first
      | exact (Prod.mk.inj hres).1.symm
      | exact absurd (Prod.mk.inj hres).2 (by simp)
  exact ⟨hsame ▸ h.map, hsame ▸ h.tracked⟩

theorem doSysMremap_ok {oldAddr oldSize newSize flags : UInt64} {base : ℕ}
    (h : doSysMremap oldAddr oldSize newSize flags = .ok base) :
    base = oldAddr.toNat ∧ base % pageSize = 0 ∧ pageAlignUp newSize.toNat ≤ pageAlignUp oldSize.toNat := by
  unfold doSysMremap at h
  dsimp only at h
  split_ifs at h with haligned _ _ _ _ hshorter
  obtain rfl := Except.ok.inj h
  exact ⟨rfl, not_not.mp haligned, hshorter⟩

theorem MapKernel.TracksLive.step (h : k.TracksLive) (e : MapEvent) (hok : k.HasRoom e) : (k.step pte e).TracksLive ∧ k.Fresh pte e := by
  cases e with
  | brk addr =>
    refine ⟨⟨h.map.brk addr, fun a ha => ?_⟩, trivial⟩
    obtain ⟨i, hi⟩ := h.tracked a ha
    refine ⟨i, ?_⟩
    change ((doSysBrk pte k.map addr).userVmas i).Has a
    rw [doSysBrk_vmas]
    exact hi
  | mmap addr len prot flags fd off backing => exact h.mmap addr len prot flags fd off backing hok
  | munmap addr len => exact ⟨h.munmap addr len hok, trivial⟩
  | mremap oldAddr oldSize newSize flags => exact ⟨h, fun base hbase => doSysMremap_ok hbase⟩

theorem MapKernel.TracksLive.apart (h : k.TracksLive) : k.Apart := by
  refine ⟨h.map.heap.2, fun a ha hin => ?_⟩
  have := (h.map.inside a (h.tracked a ha)).1
  omega

end Steps

theorem execMap_inv {mainLoadHi size : UInt64} {t : UserMap}
    (ht : execMap mainLoadHi size = some t) : MapKernel.TracksLive { map := t } := by
  have hempty : ∀ t : UserMap, t.userVmas = (fun _ => {}) → t.Separate ∧ ∀ a, ¬ t.Covers a := by
    intro t ht
    have hno : ∀ i a, ¬ (t.userVmas i).Has a := by
      rintro i a ⟨-, h2⟩
      rw [ht] at h2
      exact absurd h2 (by simp)
    exact ⟨fun i _ a hi => absurd hi (hno i a), fun a ⟨i, hi⟩ => hno i a hi⟩
  have hbounds : userHeapBaseAddr ≤ userHeapBaseAddr + 0x2000000 + (if size.toNat > 0x400000 then 0x800000 else 0) ∧
      userHeapBaseAddr + 0x2000000 + (if size.toNat > 0x400000 then 0x800000 else 0) ≤ userMaxAddr.toNat := by
    have hbase : userHeapBaseAddr = 0x20400000 := rfl
    have hmax : userMaxAddr.toNat = 0x40000000 := rfl
    split <;> omega
  refine ⟨?_, by simp⟩
  unfold execMap at ht
  dsimp only at ht
  generalize userHeapBaseAddr + 0x2000000 + (if size.toNat > 0x400000 then 0x800000 else 0) = limit
    at ht hbounds
  obtain ⟨hge, hlim⟩ := hbounds
  split at ht
  · split at ht
    · simp at ht
    · rename_i hnew
      obtain ⟨hs, hno⟩ := hempty t (by rw [← Option.some.inj ht])
      obtain rfl := Option.some.inj ht
      exact ⟨⟨by dsimp only; omega, le_rfl, by dsimp only; omega⟩, hlim, pageAlignUp_mod _, hs,
        fun a ha => absurd ha (hno a)⟩
  · obtain ⟨hs, hno⟩ := hempty t (by rw [← Option.some.inj ht])
    obtain rfl := Option.some.inj ht
    have hal : userHeapBaseAddr % pageSize = 0 := by decide
    exact ⟨⟨le_rfl, le_rfl, hge⟩, hlim, hal, hs, fun a ha => absurd ha (hno a)⟩

/-- In every run after an exec in which the table has room for what `munmap` leaves, live
mappings and the break stay apart and every new mapping is fresh. -/
theorem mappings_disjoint (pte : ℕ → PteFlags) (mainLoadHi size : UInt64) (t : UserMap)
    (ht : execMap mainLoadHi size = some t) (es : List MapEvent)
    (hok : Meets (MapKernel.step pte) MapKernel.HasRoom { map := t } es) :
    (run (MapKernel.step pte) { map := t } es).Apart ∧
      Meets (MapKernel.step pte) (MapKernel.Fresh pte) { map := t } es := by
  have hboot := execMap_inv ht
  have hstep : ∀ (k : MapKernel) (e : MapEvent), k.TracksLive → k.HasRoom e → (k.step pte e).TracksLive :=
    fun _ e h hok => (h.step e hok).1
  exact ⟨(run_invariant hstep hboot hok).apart, meets_of_invariant hstep (fun _ e h hok => (h.step e hok).2) hboot hok⟩

def allPages : ℕ → PteFlags := fun _ => ⟨true, true, true⟩

/-- The map of a small program that is linked below the heap. -/
def smallMap : UserMap where
  userHeapBase := userHeapBaseAddr
  userBrk := userHeapBaseAddr
  userHeapLimit := 0x22400000
  userMmapNext := 0x22400000

/-- Anonymous memory of `len` bytes. -/
def mmapAnon (len : UInt64) : MapEvent := .mmap 0 len 3 0x22 0xFFFFFFFFFFFFFFFF 0 .noFile

/-- Three pages are mapped, the second one is given back and the break is moved. -/
def holeRun : List MapEvent :=
  [mmapAnon 0x3000, .munmap 0x223FE000 0x1000, .brk 0x20500000, mmapAnon 0x1000]

theorem holeRun_disjoint : (run (MapKernel.step allPages) { map := smallMap } holeRun).Apart ∧
      Meets (MapKernel.step allPages) (MapKernel.Fresh allPages) { map := smallMap } holeRun := by
  refine mappings_disjoint allPages 0 0 smallMap rfl holeRun ⟨?_, ?_, trivial, ?_, trivial⟩
  · exact ⟨by decide, fun h => absurd h (by decide)⟩
  · exact fun _ _ _ _ => .inl ⟨255, by decide +kernel⟩
  · exact ⟨by decide, fun h => absurd h (by decide)⟩

/-! ## A full table -/

section Comb

/-- A mapping of 1024 pages up to the limit, with its first pages cut into `n` teeth; the rest
is one entry as long as there is room for it. -/
def combVmas (n : ℕ) (j : VmaIdx) : UserVma :=
  if j.val < n then
    ⟨0x22000000 + 2 * j.val * pageSize, 0x22000000 + (2 * j.val + 1) * pageSize, 3, 0x22⟩
  else if j.val = n then ⟨0x22000000 + 2 * n * pageSize, 0x22400000, 3, 0x22⟩
  else {}

variable {t : UserMap} {n : ℕ}

theorem comb_tooth {j : VmaIdx} (h : j.val < n) : combVmas n j =
    ⟨0x22000000 + 2 * j.val * 4096, 0x22000000 + (2 * j.val + 1) * 4096, 3, 0x22⟩ := if_pos h

theorem comb_rest {j : VmaIdx} (h : j.val = n) : combVmas n j = ⟨0x22000000 + 2 * n * 4096, 0x22400000, 3, 0x22⟩ := by
  unfold combVmas
  rw [if_neg (by omega), if_pos h]

theorem comb_free {j : VmaIdx} (h : n < j.val) : combVmas n j = {} := by
  unfold combVmas
  rw [if_neg (by omega), if_neg (by omega)]

theorem comb_used {j : VmaIdx} : (combVmas n j).Used ↔ j.val ≤ n := by
  unfold UserVma.Used
  rcases lt_trichotomy j.val n with h | h | h
  · rw [comb_tooth h]
    dsimp only
    omega
  · have hlt : j.val < 256 := j.isLt
    rw [comb_rest h]
    dsimp only
    omega
  · rw [comb_free h]
    dsimp only
    omega

theorem comb_freeSlot (h : t.userVmas = combVmas n) (hn : n + 1 < processUserVmaMax) :
    t.findFreeSlot = some ⟨n + 1, hn⟩ := by
  unfold findFreeSlot
  rw [h, List.find?_eq_some_iff_getElem]
  refine ⟨by simp [comb_used], n + 1, by simpa using hn, by simp, fun j hj => ?_⟩
  simp [comb_used]
  omega

theorem comb_full (h : t.userVmas = combVmas n) (hn : processUserVmaMax ≤ n + 1) : t.findFreeSlot = none := by
  unfold findFreeSlot
  rw [h, List.find?_eq_none]
  intro j _
  have := j.isLt
  simp [comb_used]
  omega

/-- The entries other than the rest keep away from the next hole. -/
theorem comb_away {m : ℕ} {i : VmaIdx} (hi : m = n ∧ i.val ≠ n ∨ m = n + 1) {a : ℕ}
    (h1 : 0x22000000 + (2 * n + 1) * 4096 ≤ a) (h2 : a < 0x22000000 + (2 * n + 2) * 4096) :
    ¬ (combVmas m i).Has a := by
  rintro ⟨h3, h4⟩
  rcases lt_trichotomy i.val m with hj | hj | hj
  · rw [comb_tooth hj] at h3 h4
    dsimp only at h3 h4
    omega
  · rw [comb_rest hj] at h3 h4
    dsimp only at h3 h4
    omega
  · rw [comb_free hj] at h3 h4
    dsimp only at h3 h4
    omega

/-- The round over the rest: it loses its first page as a tooth and goes on behind the hole, if
there is an entry left for it. -/
theorem comb_cut (h : t.userVmas = combVmas n) (hn : n < processUserVmaMax) (changed : Bool) :
    (removeStep (0x22000000 + (2 * n + 1) * 4096) (0x22000000 + (2 * n + 2) * 4096) (t, changed)
      ⟨n, hn⟩).1.userVmas = combVmas (n + 1) := by
  have hrest : t.userVmas ⟨n, hn⟩ = ⟨0x22000000 + 2 * n * 4096, 0x22400000, 3, 0x22⟩ := by
    rw [h]
    exact comb_rest rfl
  have hlt : n < 256 := hn
  have hu : UserVma.Used ⟨0x22000000 + 2 * n * 4096, 0x22400000, 3, 0x22⟩ := by
    unfold UserVma.Used
    dsimp only
    omega
  unfold removeStep
  dsimp only
  rw [hrest]
  dsimp only
  rw [if_neg (not_not.mpr hu), if_neg (by omega), if_neg (by omega), if_neg (by omega), if_neg (by omega)]
  funext j
  by_cases hj : j = ⟨n, hn⟩
  · subst hj
    rw [setVma_self, comb_tooth (by dsimp only; omega)]
  have hjn : j.val ≠ n := fun he => hj (Fin.ext he)
  rw [setVma_of_ne _ _ hj]
  by_cases hfull : n + 1 < processUserVmaMax
  · rw [comb_freeSlot h hfull]
    dsimp only
    by_cases hj1 : j = ⟨n + 1, hfull⟩
    · have hrest1 := comb_rest (n := n + 1) (congrArg Fin.val hj1)
      have hmul : 2 * (n + 1) = 2 * n + 2 := by omega
      rw [hrest1, hj1, setVma_self, hmul]
    have hjn1 : j.val ≠ n + 1 := fun he => hj1 (Fin.ext he)
    rw [setVma_of_ne _ _ hj1, h]
    rcases Nat.lt_or_ge j.val n with hlt | hge
    · rw [comb_tooth hlt, comb_tooth (by omega)]
    · rw [comb_free (by omega), comb_free (by omega)]
  · rw [comb_full h (by omega), h]
    have := j.isLt
    rw [comb_tooth (by omega), comb_tooth (by omega)]

theorem comb_step (h : t.userVmas = combVmas n) (hn : n < processUserVmaMax) :
    (t.removeRange (0x22000000 + (2 * n + 1) * 4096)
      (0x22000000 + (2 * n + 2) * 4096)).userVmas = combVmas (n + 1) := by
  have hcut := comb_cut h hn false
  rw [removeRange_single (i := ⟨n, hn⟩) (by omega) ?_ ?_, hcut]
  · intro j hj a h1 h2
    rw [h]
    exact comb_away (.inl ⟨rfl, fun he => hj (Fin.ext he)⟩) h1 h2
  · rintro a h1 h2 ⟨j, hj⟩
    rw [hcut] at hj
    exact comb_away (.inr rfl) h1 h2 hj

theorem MapKernel.step_munmap {pte : ℕ → PteFlags} {k : MapKernel} {addr len : UInt64} {r : ℕ}
    (h : doSysMunmap k.map addr len = (t, .ok r)) : k.step pte (.munmap addr len) =
      ⟨t, fun a => k.live a && ¬ (addr.toNat ≤ a ∧ a < addr.toNat + pageAlignUp len.toNat)⟩ := by
  unfold MapKernel.step
  dsimp only
  rw [h]

/-- The hole behind tooth `n`. -/
def cutHole (n : ℕ) : MapEvent := .munmap (UInt64.ofNat (0x22000000 + (2 * n + 1) * 4096)) 0x1000

/-- The system while the comb is cut: the last page stays live. -/
structure Comb (n : ℕ) (k : MapKernel) : Prop where
  fields : k.map.userHeapBase = userHeapBaseAddr ∧ k.map.userBrk = userHeapBaseAddr ∧ k.map.userHeapLimit = 0x22400000
  vmas : k.map.userVmas = combVmas n
  live : k.live 0x223FF000 = true

theorem Comb.cut {k : MapKernel} (h : Comb n k) (hn : n < processUserVmaMax) :
    Comb (n + 1) (k.step allPages (cutHole n)) := by
  have hlt : n < 256 := hn
  obtain ⟨hbase, hbrk, hlimit⟩ := h.fields
  have haddr : (UInt64.ofNat (0x22000000 + (2 * n + 1) * 4096)).toNat =
      0x22000000 + (2 * n + 1) * 4096 := UInt64.toNat_ofNat_of_lt' (by
    have hsize : UInt64.size = 2 ^ 64 := rfl
    omega)
  have hlen : pageAlignUp (0x1000 : UInt64).toNat = 4096 := by decide
  have hmap : doSysMunmap k.map (UInt64.ofNat (0x22000000 + (2 * n + 1) * 4096)) 0x1000 =
      (k.map.removeRange (0x22000000 + (2 * n + 1) * 4096) (0x22000000 + (2 * n + 2) * 4096), .ok 0) := by
    have hb : userHeapBaseAddr = 0x20400000 := rfl
    have hp : pageSize = 4096 := rfl
    have hstop : 0x22000000 + (2 * n + 1) * 4096 + 4096 = 0x22000000 + (2 * n + 2) * 4096 := by omega
    unfold doSysMunmap
    rw [haddr, hlen, hlimit, hb, hp, if_neg (by decide), if_neg (by omega), if_neg (by omega),
      if_pos (by omega), Nat.mod_eq_of_lt (by omega), hstop]
  have hsame := removeRange_sameHeap k.map (0x22000000 + (2 * n + 1) * 4096)
    (0x22000000 + (2 * n + 2) * 4096)
  have hvmas := comb_step h.vmas hn
  unfold cutHole
  rw [MapKernel.step_munmap hmap]
  generalize k.map.removeRange (0x22000000 + (2 * n + 1) * 4096)
    (0x22000000 + (2 * n + 2) * 4096) = t' at hsame hvmas ⊢
  refine ⟨⟨hsame.1.trans hbase, hsame.2.1.trans hbrk, hsame.2.2.trans hlimit⟩, hvmas, ?_⟩
  dsimp only
  rw [haddr, hlen, h.live]
  simp
  omega

theorem comb_run (n : ℕ) (hn : n ≤ processUserVmaMax) : Comb n (run (MapKernel.step allPages) { map := smallMap }
      (mmapAnon 0x400000 :: (List.range n).map cutHole)) := by
  induction n with
  | zero =>
    refine ⟨by decide +kernel, ?_, by decide +kernel⟩
    funext j
    revert j
    decide +kernel
  | succ n ih =>
    have h := ih (by omega)
    rw [List.range_succ, List.map_append, ← List.cons_append, List.map_singleton, run_concat]
    exact h.cut hn

theorem comb_release (h : t.userVmas = combVmas processUserVmaMax) : (t.removeRange 0x22000000 0x22001000).userVmas =
      update (combVmas processUserVmaMax) 0 {} := by
  have hfirst : t.userVmas 0 = ⟨0x22000000, 0x22001000, 3, 0x22⟩ := by
    rw [h]
    rfl
  have hstep : (removeStep 0x22000000 0x22001000 (t, false) 0).1.userVmas =
      update (combVmas processUserVmaMax) 0 {} := by
    rw [← h]
    unfold removeStep
    dsimp only
    rw [hfirst]
    rfl
  rw [removeRange_single (i := 0) (by omega) ?_ ?_, hstep]
  · rintro j hj a h1 h2 ⟨h3, -⟩
    have hpos : j.val ≠ 0 := fun he => hj (Fin.ext he)
    rw [h, comb_tooth j.isLt] at h3
    dsimp only at h3
    omega
  · rintro a h1 h2 ⟨j, hj⟩
    rw [hstep] at hj
    by_cases hj0 : j = 0
    · rw [hj0, update_self] at hj
      exact absurd hj.2 (by simp)
    have hpos : j.val ≠ 0 := fun he => hj0 (Fin.ext he)
    rw [update_of_ne hj0, comb_tooth j.isLt] at hj
    have h3 := hj.1
    dsimp only at h3
    omega

/-- The table no longer knows the last page, and has an entry for it. -/
theorem comb_mmap (hf : t.userHeapBase = userHeapBaseAddr ∧ t.userBrk = userHeapBaseAddr ∧ t.userHeapLimit = 0x22400000)
    (hv : t.userVmas = update (combVmas processUserVmaMax) 0 {}) :
    (doSysMmap allPages t 0 0x1000 3 0x22 0xFFFFFFFFFFFFFFFF 0 .noFile).2 = .ok 0x223FF000 := by
  obtain ⟨hbase, hbrk, hlimit⟩ := hf
  have hfree : ∀ a, 0x223FF000 ≤ a → a < 0x22400000 → ¬ t.Covers a := by
    rintro a h1 h2 ⟨j, -, h4⟩
    rw [hv] at h4
    by_cases hj : j = 0
    · rw [hj, update_self] at h4
      exact absurd h4 (by simp)
    have hlt : j.val < 256 := j.isLt
    rw [update_of_ne hj, comb_tooth j.isLt] at h4
    dsimp only at h4
    omega
  have hslot : t.findFreeSlot = some 0 := by
    unfold findFreeSlot
    rw [hv]
    decide +kernel
  have hgap : t.findTopdownGap (mmapFloor t) t.userHeapLimit 4096 = 0x223FF000 := by
    have hfloor : mmapFloor t = 0x20400000 := by
      unfold mmapFloor
      rw [hbase, hbrk]
      decide
    have hov : t.gapOverlap 0x20400000 0x22400000 0x223FF000 0x22400000 0x22400000 =
        (false, 0x22400000) := gapOverlap_of_free (by decide) _ hfree
    have hround : max 0x20400000 ((0x22400000 - 4096) / pageSize * pageSize) = 0x223FF000 := by
      decide
    have hstop : (0x223FF000 + 4096) % 2 ^ 64 = 0x22400000 := by decide
    rw [hfloor, hlimit]
    unfold findTopdownGap gapLoop
    rw [if_neg (by decide), if_neg (by decide), if_neg (by decide)]
    dsimp only
    rw [hround, hstop, if_neg (by decide), hov]
  have hneed : pageAlignUp (0x1000 : UInt64).toNat = 4096 := by decide
  have hpages : pagesOk allPages 0x223FF000 4096 3 = true := by decide
  unfold doSysMmap
  dsimp only
  rw [hneed, if_neg (by decide), if_neg (by decide), if_neg (by decide), if_neg (by decide),
    if_neg (by decide), hgap, if_neg (by decide)]
  unfold mmapAt
  rw [if_neg (by decide), removeRange_of_free hfree]
  dsimp only
  rw [hpages, if_neg (by decide), hlimit, if_neg (by decide)]
  dsimp only
  unfold vmaRecord
  rw [if_pos (by decide), if_neg (by decide), hslot]

/-- The comb with all its teeth, and the first one given back. -/
def combRun : List MapEvent :=
  mmapAnon 0x400000 :: (List.range processUserVmaMax).map cutHole ++ [.munmap 0x22000000 0x1000]

/-- Once the table is full, the part of the mapping behind the last hole is forgotten, and its
last page is handed out again. -/
theorem fullTable_reuses_page : execMap 0 0 = some smallMap ∧
      (run (MapKernel.step allPages) { map := smallMap } combRun).live 0x223FF000 = true ∧
      (doSysMmap allPages (run (MapKernel.step allPages) { map := smallMap } combRun).map
        0 0x1000 3 0x22 0xFFFFFFFFFFFFFFFF 0 .noFile).2 = .ok 0x223FF000 ∧
      ¬ (run (MapKernel.step allPages) { map := smallMap } combRun).Fresh allPages
        (mmapAnon 0x1000) := by
  have hcomb := comb_run processUserVmaMax le_rfl
  have hlast : run (MapKernel.step allPages) { map := smallMap } combRun =
      (run (MapKernel.step allPages) { map := smallMap } (mmapAnon 0x400000 ::
        (List.range processUserVmaMax).map cutHole)).step allPages (.munmap 0x22000000 0x1000) :=
    run_concat _ _ _ _
  rw [hlast]
  generalize run (MapKernel.step allPages) { map := smallMap } (mmapAnon 0x400000 ::
    (List.range processUserVmaMax).map cutHole) = k at hcomb
  have hmap : doSysMunmap k.map 0x22000000 0x1000 = (k.map.removeRange 0x22000000 0x22001000, .ok 0) := by
    have haddr : (0x22000000 : UInt64).toNat = 0x22000000 := by decide
    have hlen : pageAlignUp (0x1000 : UInt64).toNat = 4096 := by decide
    have hstop : (0x22000000 + 4096) % 2 ^ 64 = 0x22001000 := by decide
    unfold doSysMunmap
    dsimp only
    rw [haddr, hlen, hstop, hcomb.fields.2.2, if_neg (by decide), if_neg (by decide),
      if_neg (by decide), if_pos (by decide)]
  have hsame := removeRange_sameHeap k.map 0x22000000 0x22001000
  have hvmas := comb_release hcomb.vmas
  have hlive : (k.step allPages (.munmap 0x22000000 0x1000)).live 0x223FF000 = true := by
    rw [MapKernel.step_munmap hmap]
    dsimp only
    rw [hcomb.live]
    decide
  have hnew : (doSysMmap allPages (k.step allPages (.munmap 0x22000000 0x1000)).map
      0 0x1000 3 0x22 0xFFFFFFFFFFFFFFFF 0 .noFile).2 = .ok 0x223FF000 := by
    rw [MapKernel.step_munmap hmap]
    exact comb_mmap ⟨hsame.1.trans hcomb.fields.1, hsame.2.1.trans hcomb.fields.2.1,
      hsame.2.2.trans hcomb.fields.2.2⟩ hvmas
  refine ⟨rfl, hlive, hnew, fun hfresh => ?_⟩
  have hdead := ((hfresh _ hnew).2 0x223FF000 le_rfl (by decide)).1
  rw [hlive] at hdead
  simp at hdead

end Comb

end EdgeOS
