import EdgeOS.Process

namespace EdgeOS

/-! What a forked child finds in its user memory. -/

open Region

/-- The byte behind an address, for an address of a user region. -/
def userByte (m : UserMem) (d : Directory) (va : ℕ) : Option UInt8 :=
  match (d.entry va).frame with
  | .user r idx p => some (m r idx (p * pageBytes + va % pageBytes))
  | .phys _ => none

/-- Address `va` belongs to region `r`. -/
def Region.Contains (r : Region) (va : ℕ) : Prop := r.base ≤ va ∧ va < r.base + r.size

def Region.isHeap : Region → Bool
  | heap | heapExt => true
  | low | text | stack | bigpie => false

theorem Region.covers_of_contains {r : Region} {va : ℕ} (h : r.Contains va) : r.Covers (va / pageBytes) := by
  unfold Region.Contains at h
  have h1 : r.base = r.firstPde * pageBytes := by cases r <;> decide
  have h2 : r.size = r.pdeCnt * pageBytes := by cases r <;> decide
  rw [h1, h2, ← Nat.add_mul] at h
  exact ⟨(Nat.le_div_iff_mul_le (by decide)).mpr h.1, Nat.div_lt_of_lt_mul (by rw [mul_comm]; exact h.2)⟩

theorem build_region (L : KernelLayout) {idx : Fin procMaxTasks}
    (hidx : idx.val < userAsMaxTasks) {r : Region} {j : ℕ} (hr : r.Covers j) :
    taskBuildAddressSpace L idx true 0 j = { frame := .user r idx (j - r.firstPde), flags := uflags } := by
  have hfb : ¬ FbCovers L j := by
    have hlt : r.firstPde + r.pdeCnt ≤ fbdevPde := by cases r <;> decide
    rintro ⟨w, -, hw, -⟩
    unfold Region.Covers at hr
    omega
  unfold taskBuildAddressSpace
  simp only [mapFbRemap_apply, hidx, and_self, if_true]
  rcases mapFbWindow_apply L (all.foldl (mapRegion idx) ((List.range 4).foldl
    (fun d pdi => setPages d pdi 0 512 (identityEntry L true pdi)) fun _ _ => {})) j with
    ⟨h, -⟩ | ⟨-, he⟩
  · exact absurd h hfb
  · rw [he, foldl_mapRegion_of_covers idx hr _ _ r.mem_all (by decide)]

theorem userByte_build (L : KernelLayout) (m : UserMem) {idx : Fin procMaxTasks}
    (hidx : idx.val < userAsMaxTasks) {r : Region} {va : ℕ} (hr : r.Contains va) :
    userByte m (taskBuildAddressSpace L idx true) va = some (m r idx (va - r.base)) := by
  have hcov := covers_of_contains hr
  have hlt : va < 0x40000000 := by
    have h1 : r.base + r.size ≤ 0x40000000 := by cases r <;> decide
    unfold Region.Contains at hr
    omega
  have h0 : va / 2 ^ 30 = 0 := by omega
  have hj : va / pageBytes < 512 := by
    unfold pageBytes
    omega
  have hoff : (va / pageBytes - r.firstPde) * pageBytes + va % pageBytes = va - r.base := by
    have h1 : r.base = r.firstPde * pageBytes := by cases r <;> decide
    have h2 := Nat.div_add_mod va pageBytes
    unfold Region.Covers at hcov
    rw [h1, Nat.sub_mul, Nat.mul_comm (va / pageBytes)]
    have h3 : r.firstPde * pageBytes ≤ pageBytes * (va / pageBytes) := by
      rw [Nat.mul_comm]
      exact Nat.mul_le_mul_left _ hcov.1
    omega
  unfold userByte Directory.entry
  rw [h0, Nat.mod_eq_of_lt hj, build_region L hidx hcov]
  simp only [hoff]

/-- The user pages of a directory are those of its own slot. -/
def SlotPages (idx : Fin procMaxTasks) (d : Directory) : Prop :=
  ∀ pdi j r i p, (d pdi j).frame = .user r i p → i = idx

theorem SlotPages.setPages {idx : Fin procMaxTasks} {d : Directory} (h : SlotPages idx d) (pdi start n : ℕ)
    {f : ℕ → PdEntry} (hf : ∀ k r i p, (f k).frame = .user r i p → i = idx) :
    SlotPages idx (setPages d pdi start n f) := by
  intro pdi' j r i p heq
  rw [setPages_apply] at heq
  split_ifs at heq
  · exact hf _ r i p heq
  · exact h pdi' j r i p heq

theorem identityEntry_frame (L : KernelLayout) (pdi k : ℕ) : ∃ addr, (identityEntry L true pdi k).frame = .phys addr := by
  unfold identityEntry
  exact ⟨_, rfl⟩

theorem build_slotPages (L : KernelLayout) (idx : Fin procMaxTasks) :
    SlotPages idx (taskBuildAddressSpace L idx true) := by
  have hphys : ∀ {f : ℕ → PdEntry}, (∀ k, ∃ addr, (f k).frame = .phys addr) →
      ∀ k r i p, (f k).frame = .user r i p → i = idx := by
    intro f hf k r i p heq
    obtain ⟨addr, haddr⟩ := hf k
    rw [haddr] at heq
    cases heq
  have hempty : SlotPages idx fun _ _ => {} := by
    intro _ _ _ _ _ heq
    cases heq
  have hidentity : ∀ l : List ℕ, ∀ d, SlotPages idx d →
      SlotPages idx (l.foldl (fun d pdi => setPages d pdi 0 512 (identityEntry L true pdi)) d) := by
    intro l
    induction l with
    | nil => exact fun d h => h
    | cons pdi l ih =>
      intro d h
      rw [List.foldl_cons]
      exact ih _ (h.setPages pdi 0 512 (hphys fun k => identityEntry_frame L pdi k))
  have hregions : ∀ l : List Region, ∀ d, SlotPages idx d → SlotPages idx (l.foldl (mapRegion idx) d) := by
    intro l
    induction l with
    | nil => exact fun d h => h
    | cons r l ih =>
      intro d h
      rw [List.foldl_cons]
      refine ih _ (h.setPages 0 r.firstPde r.pdeCnt fun k r' i p heq => ?_)
      cases heq
      rfl
  have hwindow : ∀ d, SlotPages idx d → SlotPages idx (mapFbWindow d L.fbWindow) := by
    intro d h
    rcases L.fbWindow with _ | ⟨phys, pages⟩
    · exact h
    · exact h.setPages 0 _ _ (hphys fun k => ⟨_, rfl⟩)
  have hremap : ∀ d, SlotPages idx d → SlotPages idx (mapFbRemap d L.fbRemap) := by
    intro d h
    rcases L.fbRemap with _ | ⟨phys, pages⟩
    · exact h
    · exact h.setPages 3 _ _ (hphys fun k => ⟨_, rfl⟩)
  unfold taskBuildAddressSpace
  apply hremap
  split_ifs
  · exact hwindow _ (hregions _ _ (hidentity _ _ hempty))
  · exact hidentity _ _ hempty

/-! ## Through the loaded directory -/

section Reach

variable {L : KernelLayout} {d : Directory} {m m' m₀ : UserMem} {child parent : Fin procMaxTasks}
variable {r : Region} {x x₀ : ArrayByte} {v w : UInt8} {len : ℕ}

/-- What the kernel reaches is the byte itself, or a byte of the slot whose directory is loaded. -/
theorem SlotPages.reached (h : SlotPages parent d) {y : ArrayByte} (hy : L.reached d x = some y) :
    y = x ∨ y.2.1 = parent := by
  unfold KernelLayout.reached Directory.entry at hy
  split at hy
  · rename_i r i p hframe
    rw [← Option.some.inj hy]
    exact .inr (h _ _ _ _ _ hframe)
  · split_ifs at hy
    exact .inl (Option.some.inj hy).symm

/-- `memset` and `memcpy` of the arrays themselves. -/
def UserMem.cleared (m : UserMem) (r : Region) (idx : Fin procMaxTasks) (off len : ℕ) : UserMem :=
  fun r' i a => if r' = r ∧ i = idx ∧ off ≤ a ∧ a < off + len then 0 else m r' i a

def UserMem.copied (m : UserMem) (r : Region) (dst : Fin procMaxTasks) (src : ℕ → UInt8) (len : ℕ) : UserMem :=
  fun r' i a => if r' = r ∧ i = dst ∧ a < len then src a else m r' i a

/-- Only the arrays of the child have changed, and the big-PIE array has not. -/
def OnlyChild (child : Fin procMaxTasks) (m m' : UserMem) : Prop :=
  ∀ r i a, i ≠ child ∨ r = .bigpie → m' r i a = m r i a

theorem OnlyChild.refl (child : Fin procMaxTasks) (m : UserMem) : OnlyChild child m m := fun _ _ _ _ => rfl

theorem OnlyChild.cleared (h : OnlyChild child m₀ m) (hr : r ≠ .bigpie) (off len : ℕ) :
    OnlyChild child m₀ (m.cleared r child off len) := by
  intro r' i a hother
  unfold UserMem.cleared
  rw [if_neg ?_]
  · exact h r' i a hother
  rintro ⟨rfl, rfl, -⟩
  exact hother.elim (fun hne => hne rfl) hr

theorem OnlyChild.copied (h : OnlyChild child m₀ m) (hr : r ≠ .bigpie) (src : ℕ → UInt8) (len : ℕ) :
    OnlyChild child m₀ (m.copied r child src len) := by
  intro r' i a hother
  unfold UserMem.copied
  rw [if_neg ?_]
  · exact h r' i a hother
  rintro ⟨rfl, rfl, -⟩
  exact hother.elim (fun hne => hne rfl) hr

/-- What is read for a byte of the parent does not change with the child's arrays. -/
theorem OnlyChild.load (h : OnlyChild child m m') (hx : ∀ y, L.reached d x = some y → y.2.1 ≠ child) :
    m'.load L d x = m.load L d x := by
  unfold UserMem.load
  rcases hy : L.reached d x with _ | ⟨r, i, a⟩
  · rfl
  · exact h r i a (.inl (hx _ hy))

theorem store_reached (h : L.reached d x = some x) : m.store L d x v = m.put x v := by
  unfold UserMem.store
  rw [h]

theorem clear_reached (r : Region) (idx : Fin procMaxTasks) (off : ℕ)
    (h : ∀ k < len, L.reached d (r, idx, off + k) = some (r, idx, off + k)) :
    m.clear L d r idx off len = m.cleared r idx off len := by
  unfold UserMem.clear
  induction len with
  | zero =>
    funext r' i a
    exact (if_neg fun hin => by omega).symm
  | succ len ih =>
    rw [List.range_succ, List.foldl_append, ih fun k hk => h k (by omega), List.foldl_cons, List.foldl_nil,
      store_reached (h len (by omega))]
    funext r' i a
    unfold UserMem.put UserMem.cleared
    simp only [Prod.mk.injEq]
    by_cases ha : r' = r ∧ i = idx ∧ a = off + len
    · rw [if_pos ha, if_pos ⟨ha.1, ha.2.1, by omega, by omega⟩]
    · rw [if_neg ha]
      refine if_congr ⟨fun hin => ⟨hin.1, hin.2.1, hin.2.2.1, by omega⟩, fun hin => ⟨hin.1, hin.2.1, hin.2.2.1, ?_⟩⟩
        rfl rfl
      have hne : a ≠ off + len := fun heq => ha ⟨hin.1, hin.2.1, heq⟩
      omega

theorem copy_reached (r : Region) (hdst : ∀ k < len, L.reached d (r, child, k) = some (r, child, k))
    (hsrc : ∀ k < len, ∀ y, L.reached d (r, parent, k) = some y → y.2.1 ≠ child) (hr : r ≠ .bigpie)
    (h : OnlyChild child m₀ m) :
    m.copy L d r child parent len = m.copied r child (fun a => m₀.load L d (r, parent, a)) len := by
  unfold UserMem.copy
  induction len with
  | zero =>
    funext r' i a
    exact (if_neg fun hin => by omega).symm
  | succ len ih =>
    rw [List.range_succ, List.foldl_append, ih (fun k hk => hdst k (by omega)) fun k hk => hsrc k (by omega),
      List.foldl_cons, List.foldl_nil, store_reached (hdst len (by omega)),
      (h.copied hr _ len).load (hsrc len (by omega))]
    funext r' i a
    unfold UserMem.put UserMem.copied
    simp only [Prod.mk.injEq]
    by_cases ha : r' = r ∧ i = child ∧ a = len
    · rw [if_pos ha, if_pos ⟨ha.1, ha.2.1, by omega⟩, ha.2.2]
    · rw [if_neg ha]
      refine if_congr ⟨fun hin => ⟨hin.1, hin.2.1, by omega⟩, fun hin => ⟨hin.1, hin.2.1, ?_⟩⟩ rfl rfl
      have hne : a ≠ len := fun heq => ha ⟨hin.1, hin.2.1, heq⟩
      omega

/-! A byte that is never reached keeps its value, and nothing depends on it. -/

theorem put_comm {y : ArrayByte} (hne : y ≠ x₀) : (m.put x₀ v).put y w = (m.put y w).put x₀ v := by
  funext r i a
  unfold UserMem.put
  split_ifs with h1 h2
  · exact absurd (h1.symm.trans h2) hne
  · rfl
  · rfl
  · rfl

theorem store_put (h : L.reached d x ≠ some x₀) : (m.put x₀ v).store L d x w = (m.store L d x w).put x₀ v := by
  unfold UserMem.store
  rcases hy : L.reached d x with _ | y
  · rfl
  · exact put_comm fun heq => h (hy.trans (congrArg some heq))

theorem load_put (h : L.reached d x ≠ some x₀) : (m.put x₀ v).load L d x = m.load L d x := by
  unfold UserMem.load
  rcases hy : L.reached d x with _ | ⟨r, i, a⟩
  · rfl
  · exact if_neg fun heq => h (hy.trans (congrArg some heq))

theorem clear_put (h : ∀ x, L.reached d x ≠ some x₀) (r : Region) (idx : Fin procMaxTasks) (off len : ℕ) :
    (m.put x₀ v).clear L d r idx off len = (m.clear L d r idx off len).put x₀ v := by
  unfold UserMem.clear
  induction len with
  | zero => rfl
  | succ len ih =>
    simp only [List.range_succ, List.foldl_append, List.foldl_cons, List.foldl_nil]
    rw [ih, store_put (h _)]

theorem copy_put (h : ∀ x, L.reached d x ≠ some x₀) (r : Region) (dst src : Fin procMaxTasks) (len : ℕ) :
    (m.put x₀ v).copy L d r dst src len = (m.copy L d r dst src len).put x₀ v := by
  unfold UserMem.copy
  induction len with
  | zero => rfl
  | succ len ih =>
    simp only [List.range_succ, List.foldl_append, List.foldl_cons, List.foldl_nil]
    rw [ih, load_put (h _), store_put (h _)]

end Reach

/-! ## The copy -/

/-- How much of each region `process_fork` copies. -/
def forkCopied (limit : ℕ) : Region → ℕ
  | .heap => (heapBytes limit).1
  | .heapExt => (heapBytes limit).2
  | .bigpie => 0
  | r => r.size

/-- The kernel reaches the child's arrays at their addresses. -/
def ChildReached (L : KernelLayout) (d : Directory) (child : Fin procMaxTasks) : Prop :=
  ∀ r, r ≠ .bigpie → ∀ a < r.size, L.reached d (r, child, a) = some (r, child, a)

/-- The kernel reaches the arrays themselves: the child's, and of the parent's what it copies. -/
def ArraysReached (L : KernelLayout) (d : Directory) (child parent : Fin procMaxTasks) (limit : ℕ) : Prop :=
  ChildReached L d child ∧ ∀ r, ∀ a < forkCopied limit r, L.reached d (r, parent, a) = some (r, parent, a)

theorem heapBytes_le (limit : ℕ) :
    (heapBytes limit).1 ≤ heap.size ∧ (heapBytes limit).2 ≤ heapExt.size := by
  unfold heapBytes
  generalize heap.size = n
  generalize heapExt.size = e
  dsimp only
  split_ifs <;> constructor <;> dsimp only <;> omega

section Copy

variable {L : KernelLayout} {d : Directory} {m : UserMem} {child parent : Fin procMaxTasks} {r : Region}
variable {limit a : ℕ}

theorem forkCopied_le (limit : ℕ) (r : Region) : forkCopied limit r ≤ r.size := by
  obtain ⟨h1, h2⟩ := heapBytes_le limit
  cases r
  · exact le_rfl
  · exact le_rfl
  · exact le_rfl
  · exact h1
  · exact h2
  · exact Nat.zero_le _

theorem ChildReached.clears (h : ChildReached L d child) (limit : ℕ) :
    OnlyChild child m (taskClearUserRegions L d m child limit) := by
  have hle := heapBytes_le limit
  have hreach : ∀ r, r ≠ .bigpie → ∀ len ≤ r.size, ∀ k < len, L.reached d (r, child, 0 + k) = some (r, child, 0 + k) :=
    fun r hr len hlen k hk => h r hr _ (by omega)
  unfold taskClearUserRegions
  split_ifs
  · exact .refl child m
  rcases hbytes : heapBytes limit with ⟨n, e⟩
  rw [hbytes] at hle
  obtain ⟨h1, h2⟩ := hle
  dsimp only at h1 h2 ⊢
  rw [clear_reached .low child 0 (hreach _ (by decide) _ le_rfl),
    clear_reached .text child 0 (hreach _ (by decide) _ le_rfl),
    clear_reached .stack child 0 (hreach _ (by decide) _ le_rfl),
    clear_reached .heap child 0 (hreach _ (by decide) _ h1),
    clear_reached .heapExt child 0 (hreach _ (by decide) _ h2)]
  exact ((((OnlyChild.refl child m).cleared (by decide) _ _).cleared (by decide) _ _).cleared (by decide) _ _).cleared
    (by decide) _ _ |>.cleared (by decide) _ _

/-- What a fork leaves in the arrays, when it reaches the child's and nothing of the child is read. -/
theorem ChildReached.copies (h : ChildReached L d child) {m₀ : UserMem} (hm : OnlyChild child m₀ m)
    (hsrc : ∀ r, ∀ a < forkCopied limit r, ∀ y, L.reached d (r, parent, a) = some y → y.2.1 ≠ child) :
    OnlyChild child m₀ (forkCopyMemory L d m child parent limit) ∧
      ∀ r, ∀ a < forkCopied limit r, forkCopyMemory L d m child parent limit r child a =
        m₀.load L d (r, parent, a) := by
  obtain ⟨h1, h2⟩ := heapBytes_le limit
  have hdst : ∀ r, r ≠ .bigpie → ∀ len ≤ r.size, ∀ k < len, L.reached d (r, child, k) = some (r, child, k) :=
    fun r hr len hlen k hk => h r hr k (by omega)
  have hlow := hm.copied (r := .low) (by decide) (fun a => m₀.load L d (.low, parent, a)) Region.low.size
  have htext := hlow.copied (r := .text) (by decide) (fun a => m₀.load L d (.text, parent, a)) Region.text.size
  have hstack := htext.copied (r := .stack) (by decide) (fun a => m₀.load L d (.stack, parent, a)) Region.stack.size
  have hheap := hstack.copied (r := .heap) (by decide) (fun a => m₀.load L d (.heap, parent, a)) (heapBytes limit).1
  have htail := hheap.cleared (r := .heap) (by decide) (heapBytes limit).1 (Region.heap.size - (heapBytes limit).1)
  have hext := htail.copied (r := .heapExt) (by decide) (fun a => m₀.load L d (.heapExt, parent, a)) (heapBytes limit).2
  have hend := hext.cleared (r := .heapExt) (by decide) (heapBytes limit).2
    (Region.heapExt.size - (heapBytes limit).2)
  unfold forkCopyMemory
  dsimp only
  rw [copy_reached .low (hdst _ (by decide) _ le_rfl) (hsrc .low) (by decide) hm,
    copy_reached .text (hdst _ (by decide) _ le_rfl) (hsrc .text) (by decide) hlow,
    copy_reached .stack (hdst _ (by decide) _ le_rfl) (hsrc .stack) (by decide) htext,
    copy_reached .heap (hdst _ (by decide) _ h1) (hsrc .heap) (by decide) hstack,
    clear_reached .heap child _ fun k hk => h .heap (by decide) _ (by omega),
    copy_reached .heapExt (hdst _ (by decide) _ h2) (hsrc .heapExt) (by decide) htail,
    clear_reached .heapExt child _ fun k hk => h .heapExt (by decide) _ (by omega)]
  refine ⟨hend, fun r a ha => ?_⟩
  unfold UserMem.cleared UserMem.copied
  cases r <;> simp only [forkCopied] at ha <;> simp [ha]
  all_goals omega

theorem forkMemory_put {x₀ : ArrayByte} {v : UInt8} (h : ∀ x, L.reached d x ≠ some x₀) (old : ℕ) :
    forkCopyMemory L d (taskClearUserRegions L d (m.put x₀ v) child old) child parent limit =
      (forkCopyMemory L d (taskClearUserRegions L d m child old) child parent limit).put x₀ v := by
  have hclear : taskClearUserRegions L d (m.put x₀ v) child old = (taskClearUserRegions L d m child old).put x₀ v := by
    unfold taskClearUserRegions
    split_ifs
    · rfl
    · simp only [clear_put h]
  rw [hclear]
  unfold forkCopyMemory
  simp only [clear_put h, copy_put h]

end Copy

theorem contains_offset_lt_copied {r : Region} {va limit : ℕ} (hr : r.Contains va)
    (hbig : r ≠ .bigpie) (hheap : r.isHeap = true → va < limit) :
    va - r.base < forkCopied limit r := by
  unfold Region.Contains at hr
  cases r with
  | bigpie => exact absurd rfl hbig
  | heap =>
    have hlim := hheap rfl
    show va - heap.base < (heapBytes limit).1
    unfold heapBytes
    dsimp only
    split_ifs <;> dsimp only <;> omega
  | heapExt =>
    have hlim := hheap rfl
    have hbase : heapExt.base = heap.base + heap.size := by decide
    show va - heapExt.base < (heapBytes limit).2
    unfold heapBytes
    dsimp only
    split_ifs <;> dsimp only <;> omega
  | low => exact Nat.sub_lt_left_of_lt_add hr.1 hr.2
  | text => exact Nat.sub_lt_left_of_lt_add hr.1 hr.2
  | stack => exact Nat.sub_lt_left_of_lt_add hr.1 hr.2

/-- After a fork every byte of the child's regions is the parent's byte at the same
address: heap addresses below the parent's heap limit, all addresses of the others. -/
def ForkDuplicates (L : KernelLayout) (s : ProcState) (tf : Option TrapFrame)
    (parent child : Fin procMaxTasks) : Prop :=
  let s' := (processFork L s tf).1
  ∀ (r : Region) (va : ℕ), r.Contains va → (r.isHeap = true → va < (s.tab.task (.slot parent)).image.userHeapLimit) →
    userByte s'.mem (s'.pd child) va = userByte s'.mem (taskBuildAddressSpace L parent true) va

section Fork

variable {L : KernelLayout} {s : ProcState} {tf : Option TrapFrame}
  {parent child : Fin procMaxTasks}

/-- What a fork that returns a pid has done to page directories and memory. -/
theorem processFork_memory (hcur : schedulerCurrentTask s.tab = .slot parent)
    (halloc : taskAlloc s.tab = some child) (hpid : 0 < (processFork L s tf).2) :
    child.val < userAsMaxTasks ∧ parent.val < userAsMaxTasks ∧
      (processFork L s tf).1.pd child = taskBuildAddressSpace L child true ∧
      (processFork L s tf).1.mem = forkCopyMemory L (s.pd parent)
        (taskClearUserRegions L (s.pd parent) s.mem child (s.tab.task (.slot child)).image.userHeapLimit)
        child parent (s.tab.task (.slot parent)).image.userHeapLimit := by
  unfold processFork at *
  rw [hcur, halloc] at *
  rcases tf with _ | tf
  · exact absurd hpid (by simp)
  dsimp only at *
  split_ifs at * with hlt
  · exact absurd hpid (by simp)
  · exact ⟨by omega, by omega, Function.update_self .., rfl⟩

/-- The pid does not depend on the memory. -/
theorem fork_answer_mem (m : UserMem) : (processFork L { s with mem := m } tf).2 = (processFork L s tf).2 := by
  unfold processFork
  dsimp only
  cases hcur : schedulerCurrentTask s.tab with
  | idle q => rfl
  | slot p =>
    cases tf with
    | none => rfl
    | some tf =>
      cases taskAlloc s.tab with
      | none => rfl
      | some c =>
        dsimp only
        split_ifs <;> rfl

/-- The bytes of the child after a fork that reaches the child's arrays, region by region. -/
theorem fork_child_byte (hcur : schedulerCurrentTask s.tab = .slot parent)
    (halloc : taskAlloc s.tab = some child) (hpid : 0 < (processFork L s tf).2) (hne : parent ≠ child)
    (hchild : ChildReached L (s.pd parent) child)
    (hsrc : ∀ r, ∀ a < forkCopied (s.tab.task (.slot parent)).image.userHeapLimit r, ∀ y,
      L.reached (s.pd parent) (r, parent, a) = some y → y.2.1 ≠ child) {r : Region} {va : ℕ} (hr : r.Contains va)
    (hheap : r.isHeap = true → va < (s.tab.task (.slot parent)).image.userHeapLimit) :
    userByte (processFork L s tf).1.mem ((processFork L s tf).1.pd child) va =
        some (if r = .bigpie then s.mem .bigpie child (va - r.base)
          else s.mem.load L (s.pd parent) (r, parent, va - r.base)) ∧
      userByte (processFork L s tf).1.mem (taskBuildAddressSpace L parent true) va =
        some (s.mem r parent (va - r.base)) := by
  obtain ⟨hlt, hparent, hpd, hmem⟩ := processFork_memory hcur halloc hpid
  obtain ⟨honly, hcopied⟩ := hchild.copies (hchild.clears (s.tab.task (.slot child)).image.userHeapLimit) hsrc
  rw [hpd, hmem, userByte_build L _ hlt hr, userByte_build L _ hparent hr, honly r parent _ (.inl hne)]
  refine ⟨?_, rfl⟩
  by_cases hbig : r = .bigpie
  · rw [if_pos hbig, honly r child _ (.inr hbig), hbig]
  · rw [if_neg hbig, hcopied r _ (contains_offset_lt_copied hr hbig hheap)]

/-- With the arrays reached, a fork duplicates the image exactly when the big-PIE arrays of the two slots agree
before the call: they are mapped, and neither cleared nor copied. -/
theorem duplicates_of_reached (hcur : schedulerCurrentTask s.tab = .slot parent)
    (halloc : taskAlloc s.tab = some child) (hpid : 0 < (processFork L s tf).2)
    (hreach : ArraysReached L (s.pd parent) child parent (s.tab.task (.slot parent)).image.userHeapLimit) :
    ForkDuplicates L s tf parent child ↔ ∀ a < Region.bigpie.size, s.mem .bigpie child a = s.mem .bigpie parent a := by
  by_cases hne : parent = child
  · subst hne
    obtain ⟨-, -, hpd, -⟩ := processFork_memory hcur halloc hpid
    simp only [implies_true, iff_true]
    intro r va _ _
    rw [hpd]
  obtain ⟨hchild, hparent⟩ := hreach
  have hsrc : ∀ r, ∀ a < forkCopied (s.tab.task (.slot parent)).image.userHeapLimit r, ∀ y,
      L.reached (s.pd parent) (r, parent, a) = some y → y.2.1 ≠ child := by
    intro r a ha y hy
    rw [hparent r a ha] at hy
    rw [← Option.some.inj hy]
    exact hne
  constructor
  · intro h a ha
    have hr : Region.bigpie.Contains (Region.bigpie.base + a) :=
      ⟨Nat.le_add_right _ _, Nat.add_lt_add_left ha _⟩
    have hnh : Region.bigpie.isHeap = true → Region.bigpie.base + a <
        (s.tab.task (.slot parent)).image.userHeapLimit := fun hh => absurd hh (by decide)
    obtain ⟨h1, h2⟩ := fork_child_byte hcur halloc hpid hne hchild hsrc hr hnh
    have h3 := (h1.symm.trans (h .bigpie _ hr hnh)).trans h2
    simpa using h3
  · intro h r va hr hheap
    obtain ⟨h1, h2⟩ := fork_child_byte hcur halloc hpid hne hchild hsrc hr hheap
    refine h1.trans (Eq.trans (congrArg some ?_) h2.symm)
    by_cases hbig : r = .bigpie
    · subst hbig
      rw [if_pos rfl, h _ (by unfold Region.Contains at hr; omega)]
    · rw [if_neg hbig]
      unfold UserMem.load
      rw [hparent r _ (contains_offset_lt_copied hr hbig hheap)]

/-- A byte that is copied and lies below the heap limit. -/
theorem contains_of_copied {limit a : ℕ} {r : Region} (hlimit : Region.heap.base < limit) (ha : a < forkCopied limit r) :
    r ≠ .bigpie ∧ r.Contains (r.base + a) ∧ (r.isHeap = true → r.base + a < limit) := by
  have hsize := Nat.lt_of_lt_of_le ha (forkCopied_le limit r)
  have hcontains : r.Contains (r.base + a) := ⟨Nat.le_add_right _ _, Nat.add_lt_add_left hsize _⟩
  cases r with
  | bigpie => exact absurd ha (Nat.not_lt_zero a)
  | heap =>
    refine ⟨by decide, hcontains, fun _ => ?_⟩
    unfold forkCopied heapBytes at ha
    dsimp only at ha
    split_ifs at ha <;> omega
  | heapExt =>
    have hbase : heapExt.base = heap.base + heap.size := by decide
    refine ⟨by decide, hcontains, fun _ => ?_⟩
    unfold forkCopied heapBytes at ha
    dsimp only at ha
    split_ifs at ha <;> omega
  | low => exact ⟨by decide, hcontains, fun h => absurd h (by decide)⟩
  | text => exact ⟨by decide, hcontains, fun h => absurd h (by decide)⟩
  | stack => exact ⟨by decide, hcontains, fun h => absurd h (by decide)⟩

/-- A byte of the child's image that the kernel does not reach keeps what the slot held before. -/
theorem hidden_child (hcur : schedulerCurrentTask s.tab = .slot parent)
    (halloc : taskAlloc s.tab = some child) (hpid : 0 < (processFork L s tf).2) (hne : parent ≠ child)
    (hlimit : Region.heap.base < (s.tab.task (.slot parent)).image.userHeapLimit)
    (hown : SlotPages parent (s.pd parent)) {r : Region} {a : ℕ}
    (ha : a < forkCopied (s.tab.task (.slot parent)).image.userHeapLimit r)
    (hhidden : L.reached (s.pd parent) (r, child, a) ≠ some (r, child, a)) :
    ∃ m : UserMem, (∀ a, m .bigpie child a = m .bigpie parent a) ∧
      ¬ ForkDuplicates L { s with mem := m } tf parent child := by
  obtain ⟨hbig, hr, hheap⟩ := contains_of_copied hlimit ha
  have hnever : ∀ x, L.reached (s.pd parent) x ≠ some (r, child, a) := by
    intro x hx
    rcases hown.reached hx with heq | heq
    · rw [← heq] at hx
      exact hhidden hx
    · exact hne heq.symm
  -- what the fork makes of empty arrays
  have hpid₀ := hpid
  rw [← fork_answer_mem (s := s) fun _ _ _ => 0] at hpid₀
  obtain ⟨hlt, hparent, hpd, hmem⟩ := processFork_memory (s := { s with mem := fun _ _ _ => 0 }) hcur halloc hpid₀
  generalize hM : (processFork L { s with mem := fun _ _ _ => 0 } tf).1.mem = M at hmem
  let v : UInt8 := M r parent a + 1
  let m : UserMem := UserMem.put (fun _ _ _ => 0) (r, child, a) v
  have hput : ∀ i b, m .bigpie i b = 0 := fun i b => if_neg fun heq => hbig (congrArg Prod.fst heq).symm
  refine ⟨m, fun b => (hput child b).trans (hput parent b).symm, fun hdup => ?_⟩
  rw [← fork_answer_mem (s := s) m] at hpid
  obtain ⟨-, -, hpd', hmem'⟩ := processFork_memory (s := { s with mem := m }) hcur halloc hpid
  have hfinal : (processFork L { s with mem := m } tf).1.mem = M.put (r, child, a) v := by
    rw [hmem', hmem]
    exact forkMemory_put hnever _
  have hbytes := hdup r (r.base + a) hr hheap
  rw [hfinal, hpd', userByte_build L _ hlt hr, userByte_build L _ hparent hr, Nat.add_sub_cancel_left] at hbytes
  have hc : M.put (r, child, a) v r child a = v := if_pos rfl
  have hp : M.put (r, child, a) v r parent a = M r parent a :=
    if_neg fun heq => hne (congrArg (fun x : ArrayByte => x.2.1) heq)
  rw [hc, hp, Option.some.injEq] at hbytes
  exact absurd hbytes (by simp [v])

/-- A byte of the parent's image that the kernel does not reach: the child gets what it reaches instead. -/
theorem hidden_parent (hcur : schedulerCurrentTask s.tab = .slot parent)
    (halloc : taskAlloc s.tab = some child) (hpid : 0 < (processFork L s tf).2) (hne : parent ≠ child)
    (hlimit : Region.heap.base < (s.tab.task (.slot parent)).image.userHeapLimit)
    (hown : SlotPages parent (s.pd parent)) (hchild : ChildReached L (s.pd parent) child) {r : Region} {a : ℕ}
    (ha : a < forkCopied (s.tab.task (.slot parent)).image.userHeapLimit r)
    (hhidden : L.reached (s.pd parent) (r, parent, a) ≠ some (r, parent, a)) :
    ∃ m : UserMem, (∀ a, m .bigpie child a = m .bigpie parent a) ∧
      ¬ ForkDuplicates L { s with mem := m } tf parent child := by
  obtain ⟨hbig, hr, hheap⟩ := contains_of_copied hlimit ha
  have hsrc : ∀ r, ∀ a < forkCopied (s.tab.task (.slot parent)).image.userHeapLimit r, ∀ y,
      L.reached (s.pd parent) (r, parent, a) = some y → y.2.1 ≠ child := by
    intro r a _ y hy
    rcases hown.reached hy with heq | heq
    · rw [heq]
      exact hne
    · rw [heq]
      exact hne
  let w : UInt8 := UserMem.load L (s.pd parent) (fun _ _ _ => 0) (r, parent, a)
  let m : UserMem := UserMem.put (fun _ _ _ => 0) (r, parent, a) (w + 1)
  have hput : ∀ i b, m .bigpie i b = 0 := fun i b => if_neg fun heq => hbig (congrArg Prod.fst heq).symm
  refine ⟨m, fun b => (hput child b).trans (hput parent b).symm, fun hdup => ?_⟩
  rw [← fork_answer_mem (s := s) m] at hpid
  obtain ⟨h1, h2⟩ := fork_child_byte (s := { s with mem := m }) hcur halloc hpid hne hchild hsrc hr hheap
  have hbytes := (h1.symm.trans (hdup r (r.base + a) hr hheap)).trans h2
  have hload : m.load L (s.pd parent) (r, parent, a) = w := load_put hhidden
  have hp : ({ s with mem := m } : ProcState).mem r parent a = w + 1 := if_pos rfl
  rw [if_neg hbig, Nat.add_sub_cancel_left, hload, hp, Option.some.injEq] at hbytes
  exact absurd hbytes (by simp)

/-- A fork that reaches the arrays duplicates the image exactly when the big-PIE arrays of the two slots agree
before the call. Where the directory of the parent hides bytes that it copies, it fails for some contents that
agree there. -/
theorem forkDuplicates_iff (hcur : schedulerCurrentTask s.tab = .slot parent)
    (halloc : taskAlloc s.tab = some child) (hpid : 0 < (processFork L s tf).2) :
    (ArraysReached L (s.pd parent) child parent (s.tab.task (.slot parent)).image.userHeapLimit →
      (ForkDuplicates L s tf parent child ↔
        ∀ a < Region.bigpie.size, s.mem .bigpie child a = s.mem .bigpie parent a)) ∧
    (parent ≠ child → Region.heap.base < (s.tab.task (.slot parent)).image.userHeapLimit →
      s.pd parent = taskBuildAddressSpace L parent true → ∀ r,
      ∀ a < forkCopied (s.tab.task (.slot parent)).image.userHeapLimit r,
      L.reached (s.pd parent) (r, child, a) ≠ some (r, child, a) ∨
        ChildReached L (s.pd parent) child ∧ L.reached (s.pd parent) (r, parent, a) ≠ some (r, parent, a) →
      ∃ m : UserMem, (∀ a, m .bigpie child a = m .bigpie parent a) ∧
        ¬ ForkDuplicates L { s with mem := m } tf parent child) := by
  refine ⟨duplicates_of_reached hcur halloc hpid, fun hne hlimit hpd r a ha hhidden => ?_⟩
  have hown : SlotPages parent (s.pd parent) := by
    rw [hpd]
    exact build_slotPages L parent
  rcases hhidden with hhidden | ⟨hchild, hhidden⟩
  · exact hidden_child hcur halloc hpid hne hlimit hown ha hhidden
  · exact hidden_parent hcur halloc hpid hne hlimit hown hchild ha hhidden

end Fork

/-! ## Arrays that are not hidden -/

section Declared

variable {L : KernelLayout} {idx : Fin procMaxTasks}

theorem identity_entry (L : KernelLayout) (d : Directory) {pdi j : ℕ} (hpdi : pdi < 4) (hj : j < 512) :
    (List.range 4).foldl (fun d pdi => setPages d pdi 0 512 (identityEntry L true pdi)) d pdi j =
      identityEntry L true pdi j := by
  have h4 : List.range 4 = [0, 1, 2, 3] := by decide
  simp only [h4, List.foldl_cons, List.foldl_nil, setPages_apply]
  interval_cases pdi <;> simp [hj]

theorem foldl_mapRegion_other (idx : Fin procMaxTasks) {pdi : ℕ} (hpdi : pdi ≠ 0) (l : List Region) (d : Directory)
    (j : ℕ) : l.foldl (mapRegion idx) d pdi j = d pdi j := by
  induction l generalizing d with
  | nil => rfl
  | cons r l ih =>
    rw [List.foldl_cons, ih, mapRegion, setPages_apply]
    exact if_neg fun h => hpdi h.1

theorem Region.contains_of_covers {r : Region} {va : ℕ} (h : r.Covers (va / pageBytes)) : r.Contains va := by
  have h1 : r.base = r.firstPde * pageBytes := by cases r <;> decide
  have h2 : r.size = r.pdeCnt * pageBytes := by cases r <;> decide
  unfold Region.Contains
  rw [h1, h2, ← Nat.add_mul]
  exact ⟨(Nat.le_div_iff_mul_le (by decide)).mp h.1, (Nat.div_lt_iff_lt_mul (by decide)).mp h.2⟩

/-- Without a framebuffer, a page that is no user page is mapped to itself. -/
theorem reached_build (hwindow : L.fbWindow = none) (hremap : L.fbRemap = none) {x : ArrayByte}
    (hlt : L.address x < 2 ^ 32) (hclear : ∀ r : Region, ¬ r.Contains (L.address x)) :
    L.reached (taskBuildAddressSpace L idx true) x = some x := by
  generalize hva : L.address x = va at hlt hclear
  have hpdi : va / 2 ^ 30 < 4 := by omega
  have hj : va / pageBytes % 512 < 512 := Nat.mod_lt _ (by decide)
  have hregions : ∀ d : Directory, d (va / 2 ^ 30) (va / pageBytes % 512) = identityEntry L true (va / 2 ^ 30)
      (va / pageBytes % 512) → Region.all.foldl (mapRegion idx) d (va / 2 ^ 30) (va / pageBytes % 512) =
        identityEntry L true (va / 2 ^ 30) (va / pageBytes % 512) := by
    intro d hd
    by_cases h0 : va / 2 ^ 30 = 0
    · rw [h0] at hd ⊢
      rw [foldl_mapRegion_of_not_covers, hd]
      intro r _ hcov
      have hpage : va / pageBytes % 512 = va / pageBytes := by
        unfold pageBytes
        omega
      rw [hpage] at hcov
      exact hclear r (Region.contains_of_covers hcov)
    · rw [foldl_mapRegion_other idx h0, hd]
  have hentry : (taskBuildAddressSpace L idx true).entry va = identityEntry L true (va / 2 ^ 30)
      (va / pageBytes % 512) := by
    unfold Directory.entry taskBuildAddressSpace
    rw [hwindow, hremap]
    unfold mapFbWindow mapFbRemap
    dsimp only
    split_ifs
    · exact hregions _ (identity_entry L _ hpdi hj)
    · exact identity_entry L _ hpdi hj
  have hframe : (identityEntry L true (va / 2 ^ 30) (va / pageBytes % 512)).frame =
      .phys (va / 2 ^ 30 * 2 ^ 30 + va / pageBytes % 512 * pageBytes) := rfl
  unfold KernelLayout.reached
  rw [hva, hentry, hframe]
  refine if_pos ?_
  unfold pageBytes
  omega

/-- The arrays in the order of their declarations, without a framebuffer. -/
def declaredLayout : KernelLayout := { kernelEnd := 0x48800000 }

/-- None of the arrays of the first two slots is behind a user page. -/
theorem declared_reached {i : Fin procMaxTasks} (hi : i.val < 2) {r : Region} (hr : r ≠ .bigpie) {a : ℕ}
    (ha : a < r.size) : declaredLayout.reached (taskBuildAddressSpace declaredLayout idx true) (r, i, a) =
      some (r, i, a) := by
  have haddress : declaredLayout.address (r, i, a) = declaredArrays r + i.val * r.size + a := rfl
  refine reached_build rfl rfl ?_ fun r' => ?_
  · rw [haddress]
    cases r <;> simp only [declaredArrays, Region.size, pageBytes] at ha ⊢ <;> omega
  · rw [haddress]
    unfold Region.Contains
    cases r <;> first | exact absurd rfl hr | skip
    all_goals
      cases r' <;> simp only [declaredArrays, Region.base, Region.size, pageBytes] at ha ⊢ <;> omega

theorem declared_arrays (limit : ℕ) :
    ArraysReached declaredLayout (taskBuildAddressSpace declaredLayout 0 true) 1 0 limit := by
  refine ⟨fun r hr a ha => declared_reached (by decide) hr ha, fun r a ha => ?_⟩
  have hr : r ≠ .bigpie := by
    rintro rfl
    exact absurd ha (Nat.not_lt_zero a)
  exact declared_reached (by decide) hr (Nat.lt_of_lt_of_le ha (forkCopied_le limit r))

end Declared

/-- The init process, with the contents `m` of the backing arrays. -/
def initWithMemory (m : UserMem) : ProcState where
  tab := processInitTable
  pd idx := taskBuildAddressSpace declaredLayout idx true
  mem := m

theorem forkDuplicates_zero_memory : let s := initWithMemory fun _ _ _ => 0
    (schedulerCurrentTask s.tab = .slot 0 ∧ taskAlloc s.tab = some 1) ∧
      ForkDuplicates declaredLayout s (some {}) 0 1 :=
  ⟨by decide +kernel, ((forkDuplicates_iff (by decide +kernel) (by decide +kernel) (by decide +kernel)).1
    (declared_arrays _)).mpr fun _ _ => rfl⟩

/-- The parent runs a program loaded at the big-PIE base; the child's slot still holds
zeros there. -/
def bigpieProgram : UserMem := fun r idx a => if r = .bigpie ∧ idx = bootSlot ∧ a = 0 then 0x7F else 0

theorem fork_drops_bigpie : 0 < (processFork declaredLayout (initWithMemory bigpieProgram) (some {})).2 ∧
      ¬ ForkDuplicates declaredLayout (initWithMemory bigpieProgram) (some {}) 0 1 := by
  have hpid : 0 < (processFork declaredLayout (initWithMemory bigpieProgram) (some {})).2 := by decide +kernel
  have hcur : schedulerCurrentTask (initWithMemory bigpieProgram).tab = .slot 0 := by decide +kernel
  have halloc : taskAlloc (initWithMemory bigpieProgram).tab = some 1 := by decide +kernel
  refine ⟨hpid, fun h => ?_⟩
  have hsame := (duplicates_of_reached hcur halloc hpid (declared_arrays _)).mp h 0 (by decide)
  exact absurd hsame (by decide +kernel)

end EdgeOS
