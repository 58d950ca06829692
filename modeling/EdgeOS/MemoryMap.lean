import EdgeOS.Descriptors
import EdgeOS.Task
import EdgeOS.UserCopy

namespace EdgeOS

/-!
The memory map of a task: the break and the table of mappings, `do_sys_brk` to `do_sys_munmap`
and `do_sys_mremap` of `src/sys/syscall.c`. All addresses are `uint64_t`; a sum that can wrap
is reduced. What the calls put into the mapped memory is left out.
-/

open Function List

/-- `PAGE_SIZE`, `PROCESS_USER_VMA_MAX`, `USER_HEAP_BASE_ADDR`. -/
abbrev pageSize : ℕ := 4096
abbrev processUserVmaMax : ℕ := 256
abbrev userHeapBaseAddr : ℕ := 0x20400000

abbrev VmaIdx := Fin processUserVmaMax

def pageAlignUp (v : ℕ) : ℕ := (v + (pageSize - 1)) % 2 ^ 64 / pageSize * pageSize

/-- The part of `task_t` that the calls below work on. -/
structure UserMap where
  userHeapBase : ℕ
  userBrk : ℕ
  userHeapLimit : ℕ
  userMmapNext : ℕ := 0
  userVmaCount : ℕ := 0
  userVmas : VmaIdx → UserVma := fun _ => {}

def UserVma.Used (v : UserVma) : Prop := v.start < v.stop

instance (v : UserVma) : Decidable v.Used := inferInstanceAs (Decidable (_ < _))

namespace UserMap

variable (t : UserMap)

def setVma (i : VmaIdx) (v : UserVma) : UserMap :=
  { t with userVmas := Function.update t.userVmas i v }

def findFreeSlot : Option VmaIdx :=
  (List.finRange processUserVmaMax).find? fun i => ¬ (t.userVmas i).Used

/-- `user_vma_recount`. -/
def recount : UserMap :=
  { t with userVmaCount := (List.finRange processUserVmaMax).countP fun i => (t.userVmas i).Used }

def refreshMmapHint : UserMap :=
  { t with userMmapNext := (List.finRange processUserVmaMax).foldl (fun hint i =>
      let v := t.userVmas i
      if ¬ v.Used then hint
      else if v.start < userHeapBaseAddr ∨ v.start ≥ t.userHeapLimit then hint
      else min hint v.start) t.userHeapLimit }

def vmaRecord (start stop prot flags : ℕ) : Option UserMap :=
  if stop ≤ start then none
  else
    match t.findFreeSlot with
    | none => none
    | some i => some ((t.setVma i ⟨start, stop, prot, flags⟩).recount.refreshMmapHint)

/-- The inner loop of `user_vma_find_topdown_gap`: does a mapping overlap `[base, stop)`, and
the start of the lowest one that does. -/
def gapOverlap (floor top base stop cursor : ℕ) : Bool × ℕ :=
  (List.finRange processUserVmaMax).foldl (fun st i =>
    let v := t.userVmas i
    if ¬ v.Used then st
    else if v.stop ≤ floor ∨ v.start ≥ top then st
    else if stop ≤ v.start ∨ base ≥ v.stop then st
    else (true, min v.start st.2)) (false, cursor)

/-- The outer loop, for at most `n` rounds. -/
def gapLoop (floor top need : ℕ) : ℕ → ℕ → ℕ
  | 0, _ => 0
  | n + 1, cursor =>
    if cursor ≤ floor ∨ need > cursor - floor then 0
    else
      let base := max floor ((cursor - need) / pageSize * pageSize)
      let stop := (base + need) % 2 ^ 64
      if stop > top ∨ stop < base then 0
      else
        match t.gapOverlap floor top base stop cursor with
        | (false, _) => base
        | (true, next) => if next ≥ cursor then 0 else gapLoop floor top need n next

/-- `user_vma_find_topdown_gap`; 0 is no address. -/
def findTopdownGap (floor top need : ℕ) : ℕ :=
  if need = 0 then 0
  else if top ≤ floor ∨ need > top - floor then 0
  else t.gapLoop floor top need (processUserVmaMax + 4) top

/-- One round of `user_vma_remove_range`. A mapping that is cut in two needs a second entry;
without a free one its upper part is forgotten. -/
def removeStep (start stop : ℕ) (st : UserMap × Bool) (i : VmaIdx) : UserMap × Bool :=
  let t := st.1
  let v := t.userVmas i
  if ¬ v.Used then st
  else if stop ≤ v.start ∨ start ≥ v.stop then st
  else if start ≤ v.start ∧ stop ≥ v.stop then (t.setVma i {}, true)
  else if start ≤ v.start then (t.setVma i { v with start := stop }, true)
  else if stop ≥ v.stop then (t.setVma i { v with stop := start }, true)
  else
    let t := match t.findFreeSlot with
      | some j => t.setVma j { v with start := stop }
      | none => t
    (t.setVma i { v with stop := start }, true)

def removeRange (start stop : ℕ) : UserMap :=
  if stop ≤ start then t
  else
    match (List.finRange processUserVmaMax).foldl (removeStep start stop) (t, false) with
    | (t, true) => t.recount.refreshMmapHint
    | (t, false) => t

end UserMap

/-! ## The calls -/

def linuxMapFixed : UInt64 := 0x10
def linuxMapAnon : UInt64 := 0x20
def linuxProtWrite : UInt64 := 0x2
def linuxMremapMaymove : UInt64 := 1
def linuxMremapFixed : UInt64 := 2

/-- The bits of `user_pte_flags`. -/
structure PteFlags where
  present : Bool
  write : Bool
  user : Bool

/-- What the descriptor of an `mmap` turns out to be: no file, a device with the answer of
`vfs_dev_mmap`, a regular file whose read does or does not fail. -/
inductive Backing
  | noFile
  | device (maddr : Option ℕ)
  | file (readOk : Bool)
  deriving DecidableEq, Repr

section Calls

variable (pte : ℕ → PteFlags) (t : UserMap)

/-- `do_sys_brk`; the break after the call is the value returned. -/
def doSysBrk (addr : UInt64) : UserMap :=
  if addr = 0 then t
  else
    let req := pageAlignUp addr.toNat
    if req < t.userHeapBase ∨ req > t.userHeapLimit then t
    else if req > t.userBrk ∧ ∃ i, (t.userVmas i).Used ∧
        ¬ ((t.userVmas i).stop ≤ t.userBrk ∨ (t.userVmas i).start ≥ req) then t
    else if req > t.userHeapBase ∧ (!(pte (req - 1)).present ∨ !(pte (req - 1)).user ∨ !(pte (req - 1)).write) then t
    else { t with userBrk := req }

/-- The lower end of the window that `do_sys_mmap` searches. -/
def mmapFloor : ℕ := max userHeapBaseAddr (max t.userHeapBase (pageAlignUp t.userBrk))

/-- The page loop of `do_sys_mmap`. -/
def pagesOk (base need : ℕ) (prot : UInt64) : Bool :=
  (List.range (need / pageSize)).all fun i =>
    let f := pte (base + i * pageSize)
    f.present && f.user && (prot &&& linuxProtWrite == 0 || f.write)

/-- `do_sys_mmap` from where the address is known. -/
def mmapAt (base need : ℕ) (prot flags : UInt64) (backing : Backing) : UserMap × Except Errno ℕ :=
  if base < userMinAddr.toNat ∨ (base + need) % 2 ^ 64 < base ∨
      (base + need) % 2 ^ 64 > userMaxAddr.toNat then (t, .error .enomem)
  else
    let t := t.removeRange base (base + need)
    if !pagesOk pte base need prot then (t, .error .enomem)
    else
      -- An anonymous mapping is filled with zeros, which cannot fail here.
      match if flags &&& linuxMapAnon = 0 then backing else .file true with
      | .noFile => (t, .error .ebadf)
      | .device (some maddr) => (t, .ok maddr)
      | .device none => (t, .error .enosys)
      | .file false => (t, .error .eio)
      | .file true =>
        if userHeapBaseAddr ≤ base ∧ base < t.userHeapLimit then
          match t.vmaRecord base (base + need) (prot.toNat % 2 ^ 32) (flags.toNat % 2 ^ 32) with
          | none => (t, .error .enomem)
          | some t => (t, .ok base)
        else (t, .ok base)

def doSysMmap (addr len prot flags fd off : UInt64) (backing : Backing) : UserMap × Except Errno ℕ :=
  let need := pageAlignUp len.toNat
  if len = 0 then (t, .error .einval)
  else if fd ≥ 0x8000000000000000 ∧ flags &&& linuxMapAnon = 0 then (t, .error .einval)
  else if flags &&& linuxMapAnon = 0 ∧ off.toNat % pageSize ≠ 0 then (t, .error .einval)
  else if need = 0 then (t, .error .einval)
  else if flags &&& linuxMapFixed ≠ 0 then
    if addr.toNat % pageSize ≠ 0 then (t, .error .einval)
    else mmapAt pte t addr.toNat need prot flags backing
  else
    let base := t.findTopdownGap (mmapFloor t) t.userHeapLimit need
    if base = 0 then (t, .error .enomem) else mmapAt pte t base need prot flags backing

def doSysMunmap (addr len : UInt64) : UserMap × Except Errno ℕ :=
  let need := pageAlignUp len.toNat
  if len = 0 then (t, .ok 0)
  else if addr.toNat % pageSize ≠ 0 then (t, .error .einval)
  else if need = 0 then (t, .error .einval)
  else if userHeapBaseAddr ≤ addr.toNat ∧ addr.toNat < t.userHeapLimit then
    (t.removeRange addr.toNat ((addr.toNat + need) % 2 ^ 64), .ok 0)
  else (t, .ok 0)

/-- `do_sys_mremap` moves nothing and changes no mapping. -/
def doSysMremap (oldAddr oldSize newSize flags : UInt64) : Except Errno ℕ :=
  let oldLen := pageAlignUp oldSize.toNat
  let newLen := pageAlignUp newSize.toNat
  if oldAddr.toNat % pageSize ≠ 0 then .error .einval
  else if oldLen = 0 ∨ newLen = 0 then .error .einval
  else if flags &&& linuxMremapFixed ≠ 0 ∧ flags &&& linuxMremapMaymove = 0 then .error .einval
  else if flags &&& ~~~(linuxMremapMaymove ||| linuxMremapFixed) ≠ 0 then .error .einval
  else if !userRangeOk oldAddr (UInt64.ofNat oldLen) then .error .efault
  else if newLen ≤ oldLen then .ok oldAddr.toNat
  else .error .enosys

/-- The map that `do_sys_execve` leaves, for an image that ends at `mainLoadHi` and a file of
`size` bytes; without a place for the heap the process is killed. -/
def execMap (mainLoadHi size : UInt64) : Option UserMap :=
  let limit := userHeapBaseAddr + 0x2000000 + if size.toNat > 0x400000 then 0x800000 else 0
  if mainLoadHi.toNat > userHeapBaseAddr ∧ mainLoadHi.toNat < limit then
    let newHeap := pageAlignUp (mainLoadHi.toNat + pageSize)
    if newHeap < userHeapBaseAddr ∨ newHeap > limit then none
    else some { userHeapBase := newHeap, userBrk := newHeap, userHeapLimit := limit
                userMmapNext := limit }
  else some { userHeapBase := userHeapBaseAddr, userBrk := userHeapBaseAddr, userHeapLimit := limit
              userMmapNext := limit }

end Calls

/-! ## What the table covers -/

def UserVma.Has (v : UserVma) (a : ℕ) : Prop := v.start ≤ a ∧ a < v.stop

namespace UserMap

variable {t t' : UserMap} {start stop : ℕ}

def Covers (t : UserMap) (a : ℕ) : Prop := ∃ i, (t.userVmas i).Has a

def Separate (t : UserMap) : Prop :=
  ∀ i j a, (t.userVmas i).Has a → (t.userVmas j).Has a → i = j

/-- A mapping that a hole in `[start, stop)` cuts in two. -/
def Cuts (start stop : ℕ) (v : UserVma) : Prop := v.start < start ∧ stop < v.stop

/-- The table has room for a hole in `[start, stop)`. -/
def Room (t : UserMap) (start stop : ℕ) : Prop :=
  (∃ i, ¬ (t.userVmas i).Used) ∨ ∀ i, ¬ Cuts start stop (t.userVmas i)

theorem findFreeSlot_some {i : VmaIdx} (h : t.findFreeSlot = some i) : ¬ (t.userVmas i).Used := by
  simpa using find?_some h

theorem findFreeSlot_none (h : t.findFreeSlot = none) (i : VmaIdx) : (t.userVmas i).Used := by
  simpa using find?_eq_none.mp h i (mem_finRange i)

theorem setVma_self (t : UserMap) (i : VmaIdx) (v : UserVma) : (t.setVma i v).userVmas i = v :=
  update_self _ _ _

theorem setVma_of_ne (t : UserMap) {i j : VmaIdx} (v : UserVma) (h : j ≠ i) :
    (t.setVma i v).userVmas j = t.userVmas j := update_of_ne h _ _

theorem not_has_of_not_used {v : UserVma} (h : ¬ v.Used) (a : ℕ) : ¬ v.Has a := by
  unfold UserVma.Used at h
  unfold UserVma.Has
  omega

def SameHeap (t t' : UserMap) : Prop :=
  t'.userHeapBase = t.userHeapBase ∧ t'.userBrk = t.userBrk ∧ t'.userHeapLimit = t.userHeapLimit

theorem removeStep_sameHeap (start stop : ℕ) (st : UserMap × Bool) (i : VmaIdx) :
    SameHeap st.1 (removeStep start stop st i).1 := by
  unfold removeStep
  dsimp only
  split_ifs
  all_goals try exact ⟨rfl, rfl, rfl⟩
  split <;> exact ⟨rfl, rfl, rfl⟩

theorem removeRange_sameHeap (t : UserMap) (start stop : ℕ) : SameHeap t (t.removeRange start stop) := by
  have hloop : ∀ (l : List VmaIdx) (st : UserMap × Bool), SameHeap st.1 (l.foldl (removeStep start stop) st).1 := by
    intro l
    induction l with
    | nil => exact fun _ => ⟨rfl, rfl, rfl⟩
    | cons i l ih =>
      intro st
      obtain ⟨h1, h2, h3⟩ := removeStep_sameHeap start stop st i
      obtain ⟨h4, h5, h6⟩ := ih (removeStep start stop st i)
      exact ⟨h4.trans h1, h5.trans h2, h6.trans h3⟩
  have h := hloop (finRange processUserVmaMax) (t, false)
  unfold removeRange
  split
  · exact ⟨rfl, rfl, rfl⟩
  generalize (finRange processUserVmaMax).foldl (removeStep start stop) (t, false) = r at h ⊢
  split <;> exact h

/-- What a round of the removal keeps: everything covered outside the range, nothing new, and
the room for the one mapping that may still be cut. -/
structure Trims (start stop : ℕ) (t t' : UserMap) : Prop where
  separate : t'.Separate
  room : t'.Room start stop
  keeps : ∀ a, t.Covers a → ¬ (start ≤ a ∧ a < stop) → t'.Covers a
  sub : ∀ a, t'.Covers a → t.Covers a
  clear : ∀ j a, (t'.userVmas j).Has a → start ≤ a ∧ a < stop → (t.userVmas j).Has a

/-- The entry `i` is replaced by a part of it that leaves nothing out but the range. -/
theorem trims_setVma {i : VmaIdx} {v : UserVma} (hs : t.Separate) (hr : t.Room start stop)
    (hv : ∀ a, v.Has a → (t.userVmas i).Has a)
    (hkeep : ∀ a, (t.userVmas i).Has a → ¬ (start ≤ a ∧ a < stop) → v.Has a)
    (hcut : ¬ Cuts start stop v) : Trims start stop t (t.setVma i v) := by
  have hsub : ∀ j a, ((t.setVma i v).userVmas j).Has a → (t.userVmas j).Has a := by
    intro j a ha
    by_cases hj : j = i
    · subst hj
      rw [setVma_self] at ha
      exact hv a ha
    · rw [setVma_of_ne t v hj] at ha
      exact ha
  refine ⟨fun j k a hj hk => hs j k a (hsub j a hj) (hsub k a hk), ?_, ?_, ?_, fun j a ha _ => hsub j a ha⟩
  · rcases hr with ⟨j, hj⟩ | hno
    · refine .inl ⟨j, fun hu => ?_⟩
      have hstart : ((t.setVma i v).userVmas j).Has ((t.setVma i v).userVmas j).start := ⟨le_rfl, hu⟩
      exact not_has_of_not_used hj _ (hsub j _ hstart)
    · refine .inr fun j => ?_
      by_cases hj : j = i
      · subst hj
        rw [setVma_self]
        exact hcut
      · rw [setVma_of_ne t v hj]
        exact hno j
  · rintro a ⟨j, hj⟩ hout
    by_cases hji : j = i
    · subst hji
      exact ⟨j, by rw [setVma_self]; exact hkeep a hj hout⟩
    · exact ⟨j, by rw [setVma_of_ne t v hji]; exact hj⟩
  · rintro a ⟨j, hj⟩
    exact ⟨j, hsub j a hj⟩

/-- The entry `i` is cut in two, and the free entry `j` gets the upper part. -/
theorem trims_split {i j : VmaIdx} (hs : t.Separate) (hlt : start < stop)
    (hcut : Cuts start stop (t.userVmas i)) (hfree : ¬ (t.userVmas j).Used) :
    Trims start stop t ((t.setVma j { t.userVmas i with start := stop }).setVma i
      { t.userVmas i with stop := start }) := by
  obtain ⟨hlo, hhi⟩ := hcut
  have hji : j ≠ i := by
    rintro rfl
    exact hfree (lt_trans hlo (lt_trans hlt hhi))
  generalize hres : (t.setVma j { t.userVmas i with start := stop }).setVma i
    { t.userVmas i with stop := start } = t'
  have hi : t'.userVmas i = { t.userVmas i with stop := start } := by
    rw [← hres, setVma_self]
  have hj : t'.userVmas j = { t.userVmas i with start := stop } := by
    rw [← hres, setVma_of_ne _ _ hji, setVma_self]
  have hother : ∀ k, k ≠ i → k ≠ j → t'.userVmas k = t.userVmas k := by
    intro k hki hkj
    rw [← hres, setVma_of_ne _ _ hki, setVma_of_ne _ _ hkj]
  -- Each entry afterwards is `i`, `j` or an old one, and lies in an old one.
  have hcases : ∀ k a, (t'.userVmas k).Has a →
      (k = i ∧ (t.userVmas i).Has a ∧ a < start) ∨ (k = j ∧ (t.userVmas i).Has a ∧ stop ≤ a) ∨
        (k ≠ i ∧ k ≠ j ∧ (t.userVmas k).Has a) := by
    intro k a hk
    by_cases hki : k = i
    · subst hki
      rw [hi] at hk
      obtain ⟨h1, h2⟩ : (t.userVmas k).start ≤ a ∧ a < start := hk
      exact .inl ⟨rfl, ⟨h1, by omega⟩, h2⟩
    by_cases hkj : k = j
    · subst hkj
      rw [hj] at hk
      obtain ⟨h1, h2⟩ : stop ≤ a ∧ a < (t.userVmas i).stop := hk
      exact .inr (.inl ⟨rfl, ⟨by omega, h2⟩, h1⟩)
    · rw [hother k hki hkj] at hk
      exact .inr (.inr ⟨hki, hkj, hk⟩)
  refine ⟨?_, .inr ?_, ?_, ?_, ?_⟩
  · intro k l a hk hl
    rcases hcases k a hk with ⟨rfl, h1, h2⟩ | ⟨rfl, h1, h2⟩ | ⟨hki, hkj, h1⟩ <;>
      rcases hcases l a hl with ⟨rfl, h3, h4⟩ | ⟨rfl, h3, h4⟩ | ⟨hli, hlj, h3⟩
    · rfl
    · omega
    · exact absurd (hs _ _ a h3 h1) hli
    · omega
    · rfl
    · exact absurd (hs _ _ a h3 h1) hli
    · exact absurd (hs _ _ a h1 h3) hki
    · exact absurd (hs _ _ a h1 h3) hki
    · exact hs _ _ a h1 h3
  · -- Nothing else reaches around the range: it would overlap the mapping that was cut.
    rintro k ⟨hk1, hk2⟩
    have hk : (t'.userVmas k).Has start := ⟨le_of_lt hk1, by omega⟩
    rcases hcases k start hk with ⟨-, -, h2⟩ | ⟨-, -, h2⟩ | ⟨hki, -, h1⟩
    · omega
    · omega
    · exact hki (hs k i start h1 ⟨le_of_lt hlo, by omega⟩)
  · rintro a ⟨k, hk⟩ hout
    by_cases hki : k = i
    · subst hki
      by_cases ha : a < start
      · refine ⟨k, ?_⟩
        rw [hi]
        exact ⟨hk.1, ha⟩
      refine ⟨j, ?_⟩
      rw [hj]
      exact ⟨show stop ≤ a by omega, hk.2⟩
    · have hkj : k ≠ j := by
        rintro rfl
        exact not_has_of_not_used hfree a hk
      exact ⟨k, by rw [hother k hki hkj]; exact hk⟩
  · rintro a ⟨k, hk⟩
    rcases hcases k a hk with ⟨-, h1, -⟩ | ⟨-, h1, -⟩ | ⟨-, -, h1⟩
    · exact ⟨i, h1⟩
    · exact ⟨i, h1⟩
    · exact ⟨k, h1⟩
  · rintro k a hk ⟨h1, h2⟩
    rcases hcases k a hk with ⟨-, -, h3⟩ | ⟨-, -, h3⟩ | ⟨-, -, h3⟩
    · omega
    · omega
    · exact h3

theorem Trims.refl (hs : t.Separate) (hr : t.Room start stop) : Trims start stop t t :=
  ⟨hs, hr, fun _ h _ => h, fun _ h => h, fun _ _ h _ => h⟩

theorem Trims.trans {t'' : UserMap} (h : Trims start stop t t') (h' : Trims start stop t' t'') :
    Trims start stop t t'' where
  separate := h'.separate
  room := h'.room
  keeps a ha hout := h'.keeps a (h.keeps a ha hout) hout
  sub a ha := h.sub a (h'.sub a ha)
  clear j a ha hin := h.clear j a (h'.clear j a ha hin) hin

/-- One round: entry `i` no longer has an address of the range. -/
theorem removeStep_trims (hs : t.Separate) (hr : t.Room start stop) (hlt : start < stop) (changed : Bool) (i : VmaIdx) :
    Trims start stop t (removeStep start stop (t, changed) i).1 ∧
      ∀ a, ((removeStep start stop (t, changed) i).1.userVmas i).Has a → ¬ (start ≤ a ∧ a < stop) := by
  unfold removeStep
  dsimp only
  split
  · rename_i hu
    exact ⟨.refl hs hr, fun a ha => absurd ha (not_has_of_not_used hu a)⟩
  rename_i hu
  have hu : (t.userVmas i).start < (t.userVmas i).stop := not_not.mp hu
  split
  · rename_i hout
    refine ⟨.refl hs hr, fun a ha => ?_⟩
    obtain ⟨h1, h2⟩ : (t.userVmas i).start ≤ a ∧ a < (t.userVmas i).stop := ha
    omega
  rename_i hin
  split
  · rename_i hcov
    refine ⟨trims_setVma hs hr ?_ ?_ ?_, ?_⟩
    · rintro a ⟨h1, h2⟩
      exact absurd h2 (by simp)
    · rintro a ⟨h1, h2⟩ hout
      omega
    · rintro ⟨-, h2⟩
      exact absurd h2 (by simp)
    · rw [setVma_self]
      rintro a ⟨h1, h2⟩
      exact absurd h2 (by simp)
  rename_i hncov
  split
  · rename_i hleft
    refine ⟨trims_setVma hs hr ?_ ?_ ?_, ?_⟩
    · rintro a ⟨h1, h2⟩
      dsimp only at h1 h2
      exact ⟨by omega, h2⟩
    · rintro a ⟨h1, h2⟩ hout
      exact ⟨by dsimp only; omega, h2⟩
    · rintro ⟨h1, -⟩
      dsimp only at h1
      omega
    · rw [setVma_self]
      rintro a ⟨h1, h2⟩
      dsimp only at h1
      omega
  rename_i hright
  split
  · rename_i hend
    refine ⟨trims_setVma hs hr ?_ ?_ ?_, ?_⟩
    · rintro a ⟨h1, h2⟩
      dsimp only at h1 h2
      exact ⟨h1, by omega⟩
    · rintro a ⟨h1, h2⟩ hout
      exact ⟨h1, by dsimp only; omega⟩
    · rintro ⟨-, h2⟩
      dsimp only at h2
      omega
    · rw [setVma_self]
      rintro a ⟨h1, h2⟩
      dsimp only at h2
      omega
  · rename_i hmid
    have hcut : Cuts start stop (t.userVmas i) := ⟨by omega, by omega⟩
    split
    · rename_i j hj
      refine ⟨trims_split hs hlt hcut (findFreeSlot_some hj), ?_⟩
      rw [setVma_self]
      rintro a ⟨h1, h2⟩
      dsimp only at h2
      omega
    · rename_i hfull
      rcases hr with ⟨j, hj⟩ | hno
      · exact absurd (findFreeSlot_none hfull j) hj
      · exact absurd hcut (hno i)

theorem removeLoop_trims (hlt : start < stop) (l : List VmaIdx) (changed : Bool)
    (hs : t.Separate) (hr : t.Room start stop) :
    Trims start stop t (l.foldl (removeStep start stop) (t, changed)).1 ∧
      ∀ i ∈ l, ∀ a, ((l.foldl (removeStep start stop) (t, changed)).1.userVmas i).Has a → ¬ (start ≤ a ∧ a < stop) := by
  induction l generalizing t changed with
  | nil => exact ⟨.refl hs hr, by simp⟩
  | cons i l ih =>
    rw [foldl_cons]
    obtain ⟨h1, hclear⟩ := removeStep_trims hs hr hlt changed i
    obtain ⟨h2, hrest⟩ := ih (removeStep start stop (t, changed) i).2 h1.separate h1.room
    refine ⟨h1.trans h2, fun j hj a ha hin => ?_⟩
    rcases mem_cons.mp hj with rfl | hj
    · exact hclear a (h2.clear _ a ha hin) hin
    · exact hrest j hj a ha hin

/-- What `user_vma_remove_range` leaves, when there is room. -/
structure Removed (start stop : ℕ) (t t' : UserMap) : Prop where
  separate : t'.Separate
  covers : ∀ a, t'.Covers a ↔ t.Covers a ∧ ¬ (start ≤ a ∧ a < stop)

theorem removeRange_spec (hs : t.Separate) (hr : t.Room start stop) :
    Removed start stop t (t.removeRange start stop) := by
  unfold removeRange
  split
  · rename_i hle
    exact ⟨hs, fun a => ⟨fun ha => ⟨ha, by omega⟩, fun ha => ha.1⟩⟩
  rename_i hlt
  obtain ⟨h, hclear⟩ := removeLoop_trims (not_le.mp hlt) (finRange processUserVmaMax) false hs hr
  generalize (finRange processUserVmaMax).foldl (removeStep start stop) (t, false) = r
    at h hclear ⊢
  have hr : Removed start stop t r.1 := by
    refine ⟨h.separate, fun a => ⟨fun ha => ⟨h.sub a ha, ?_⟩, fun ha => h.keeps a ha.1 ha.2⟩⟩
    obtain ⟨i, hi⟩ := ha
    exact hclear i (mem_finRange i) a hi
  split
  · exact ⟨hr.separate, hr.covers⟩
  · exact hr

/-- A round over an entry that has no address of the range. -/
theorem removeStep_of_free (hlt : start < stop) {i : VmaIdx}
    (hfree : ∀ a, start ≤ a → a < stop → ¬ (t.userVmas i).Has a) (changed : Bool) :
    removeStep start stop (t, changed) i = (t, changed) := by
  unfold removeStep
  dsimp only
  split
  · rfl
  rename_i hu
  have hu : (t.userVmas i).start < (t.userVmas i).stop := not_not.mp hu
  refine if_pos ?_
  -- Two ranges that overlap have the larger of their starts in common.
  by_contra hover
  exact hfree (max start (t.userVmas i).start) (by omega) (by omega) ⟨by omega, by omega⟩

theorem removeLoop_of_free (hlt : start < stop)
    (hfree : ∀ a, start ≤ a → a < stop → ¬ t.Covers a) (l : List VmaIdx) (changed : Bool) :
    l.foldl (removeStep start stop) (t, changed) = (t, changed) := by
  induction l with
  | nil => rfl
  | cons i l ih =>
    rw [foldl_cons, removeStep_of_free hlt, ih]
    exact fun a h1 h2 hi => hfree a h1 h2 ⟨i, hi⟩

theorem removeRange_of_free (hfree : ∀ a, start ≤ a → a < stop → ¬ t.Covers a) : t.removeRange start stop = t := by
  unfold removeRange
  split
  · rfl
  · rename_i hlt
    rw [removeLoop_of_free (not_le.mp hlt) hfree]

theorem removeRange_single (hlt : start < stop) {i : VmaIdx}
    (hother : ∀ j, j ≠ i → ∀ a, start ≤ a → a < stop → ¬ (t.userVmas j).Has a)
    (hafter : ∀ a, start ≤ a → a < stop → ¬ (removeStep start stop (t, false) i).1.Covers a) :
    (t.removeRange start stop).userVmas = (removeStep start stop (t, false) i).1.userVmas := by
  have hloop : ∀ l : List VmaIdx, i ∈ l →
      l.foldl (removeStep start stop) (t, false) = removeStep start stop (t, false) i := by
    intro l
    induction l with
    | nil => exact fun hmem => absurd hmem (by simp)
    | cons j l ih =>
      intro hmem
      rw [foldl_cons]
      by_cases hj : j = i
      · rw [hj]
        exact removeLoop_of_free hlt hafter l _
      · rw [removeStep_of_free hlt (hother j hj)]
        exact ih ((mem_cons.mp hmem).resolve_left fun he => hj he.symm)
  unfold removeRange
  rw [if_neg (not_le.mpr hlt), hloop _ (mem_finRange i)]
  split
  · rename_i heq
    rw [heq]
    rfl
  · rename_i heq
    rw [heq]

/-! ## Where a new mapping goes -/

/-- The inner loop over a part of the table: without an overlap every entry there is out of the
way. -/
theorem gapOverlap_free {floor top base stop : ℕ} (l : List VmaIdx) (st : Bool × ℕ) (h : (l.foldl (fun st i =>
      let v := t.userVmas i
      if ¬ v.Used then st
      else if v.stop ≤ floor ∨ v.start ≥ top then st
      else if stop ≤ v.start ∨ base ≥ v.stop then st
      else (true, min v.start st.2)) st).1 = false) :
    st.1 = false ∧ ∀ i ∈ l, (t.userVmas i).Used → ((t.userVmas i).stop ≤ floor ∨
      (t.userVmas i).start ≥ top) ∨ stop ≤ (t.userVmas i).start ∨ base ≥ (t.userVmas i).stop := by
  induction l generalizing st with
  | nil => exact ⟨h, by simp⟩
  | cons i l ih =>
    rw [foldl_cons] at h
    obtain ⟨hst, hrest⟩ := ih _ h
    dsimp only at hst
    split at hst
    · rename_i hu
      refine ⟨hst, fun j hj hju => ?_⟩
      rcases mem_cons.mp hj with rfl | hj
      · exact absurd hju hu
      · exact hrest j hj hju
    split at hst
    · rename_i hout
      refine ⟨hst, fun j hj hju => ?_⟩
      rcases mem_cons.mp hj with rfl | hj
      · exact .inl hout
      · exact hrest j hj hju
    split at hst
    · rename_i hout
      refine ⟨hst, fun j hj hju => ?_⟩
      rcases mem_cons.mp hj with rfl | hj
      · exact .inr hout
      · exact hrest j hj hju
    · simp at hst

theorem gapOverlap_of_free {floor top base stop : ℕ} (hlt : base < stop) (cursor : ℕ)
    (hfree : ∀ a, base ≤ a → a < stop → ¬ t.Covers a) :
    t.gapOverlap floor top base stop cursor = (false, cursor) := by
  unfold gapOverlap
  induction finRange processUserVmaMax with
  | nil => rfl
  | cons i l ih =>
    rw [foldl_cons]
    dsimp only
    split
    · exact ih
    rename_i hu
    have hu : (t.userVmas i).start < (t.userVmas i).stop := not_not.mp hu
    split
    · exact ih
    split
    · exact ih
    rename_i hover
    exact absurd ⟨i, by omega, by omega⟩
      (hfree (max base (t.userVmas i).start) (by omega) (by omega))

/-- What the search finds: a range of pages in the window that no entry covers. -/
structure Gap (t : UserMap) (floor top need base : ℕ) : Prop where
  window : floor ≤ base ∧ base + need ≤ top
  aligned : floor % pageSize = 0 → base % pageSize = 0
  free : ∀ a, base ≤ a → a < base + need → ¬ t.Covers a

theorem gapLoop_spec {floor top need : ℕ} (htop : top < 2 ^ 64) (n cursor : ℕ)
    (hc : cursor ≤ top) (h : t.gapLoop floor top need n cursor ≠ 0) :
    Gap t floor top need (t.gapLoop floor top need n cursor) := by
  induction n generalizing cursor with
  | zero => exact absurd rfl h
  | succ n ih =>
    revert h
    unfold gapLoop
    split
    · exact fun h => absurd rfl h
    rename_i hfit
    dsimp only
    split
    · exact fun h => absurd rfl h
    rename_i hstop
    -- Rounding down to a page stays above the floor or ends there.
    have hround : (cursor - need) / pageSize * pageSize ≤ cursor - need := Nat.div_mul_le_self _ _
    generalize hbase : max floor ((cursor - need) / pageSize * pageSize) = base at hstop ⊢
    have hle : base ≤ cursor - need := by omega
    have hwrap : (base + need) % 2 ^ 64 = base + need := Nat.mod_eq_of_lt (by omega)
    rw [hwrap]
    split
    · rename_i hov
      intro _
      have hfree := (gapOverlap_free (finRange processUserVmaMax) (false, cursor)
        (congrArg Prod.fst hov)).2
      refine ⟨⟨by omega, by omega⟩, fun hal => ?_, ?_⟩
      · rcases Nat.le_total floor ((cursor - need) / pageSize * pageSize) with hm | hm
        · rw [← hbase, Nat.max_eq_right hm, Nat.mul_mod_left]
        · rw [← hbase, Nat.max_eq_left hm]
          exact hal
      · rintro a h1 h2 ⟨i, h3, h4⟩
        rcases hfree i (mem_finRange i) (by unfold UserVma.Used; omega) with h5 | h5 <;> omega
    · split
      · exact fun h => absurd rfl h
      · rename_i hnext
        exact ih _ (by omega)

theorem findTopdownGap_spec {floor top need : ℕ} (htop : top < 2 ^ 64) (h : t.findTopdownGap floor top need ≠ 0) :
    Gap t floor top need (t.findTopdownGap floor top need) := by
  revert h
  unfold findTopdownGap
  split
  · exact fun h => absurd rfl h
  split
  · exact fun h => absurd rfl h
  · exact gapLoop_spec htop _ _ le_rfl

theorem vmaRecord_spec {prot flags : ℕ} (hs : t.Separate) (hfree : ∀ a, start ≤ a → a < stop → ¬ t.Covers a)
    (h : t.vmaRecord start stop prot flags = some t') :
    SameHeap t t' ∧ t'.Separate ∧ ∀ a, t'.Covers a ↔ t.Covers a ∨ start ≤ a ∧ a < stop := by
  unfold vmaRecord at h
  split at h
  · simp at h
  split at h
  · simp at h
  rename_i i hi
  obtain rfl := Option.some.inj h
  have hcases : ∀ j a, ((t.setVma i ⟨start, stop, prot, flags⟩).userVmas j).Has a →
      j = i ∧ (start ≤ a ∧ a < stop) ∨ j ≠ i ∧ (t.userVmas j).Has a := by
    intro j a ha
    by_cases hj : j = i
    · subst hj
      rw [setVma_self] at ha
      exact .inl ⟨rfl, ha⟩
    · rw [setVma_of_ne t _ hj] at ha
      exact .inr ⟨hj, ha⟩
  refine ⟨⟨rfl, rfl, rfl⟩, fun j k a hj hk => ?_, fun a => ⟨?_, ?_⟩⟩
  · rcases hcases j a hj with ⟨rfl, h1⟩ | ⟨-, h1⟩ <;> rcases hcases k a hk with ⟨rfl, h2⟩ | ⟨-, h2⟩
    · rfl
    · exact absurd ⟨k, h2⟩ (hfree a h1.1 h1.2)
    · exact absurd ⟨j, h1⟩ (hfree a h2.1 h2.2)
    · exact hs j k a h1 h2
  · rintro ⟨j, hj⟩
    rcases hcases j a hj with ⟨-, h1⟩ | ⟨-, h1⟩
    · exact .inr h1
    · exact .inl ⟨j, h1⟩
  · rintro (⟨j, hj⟩ | hin)
    · have hji : j ≠ i := by
        rintro rfl
        exact not_has_of_not_used (findFreeSlot_some hi) a hj
      refine ⟨j, ?_⟩
      change ((t.setVma i ⟨start, stop, prot, flags⟩).userVmas j).Has a
      rw [setVma_of_ne t _ hji]
      exact hj
    · refine ⟨i, ?_⟩
      change ((t.setVma i ⟨start, stop, prot, flags⟩).userVmas i).Has a
      rw [setVma_self]
      exact hin

end UserMap

end EdgeOS
