import EdgeOS.FileReads
import EdgeOS.MemoryMap

namespace EdgeOS

/-!
`do_sys_mmap` with the memory it fills: what an `mmap` that fails leaves of the table and of the memory of the task.
-/

open List

/-! ## The code -/

/-- What the descriptor is: no file, a device with the answer of `vfs_dev_mmap`, or a file with its `ops->read`. -/
inductive MmapFile
  | noFile
  | device (maddr : Option ℕ)
  | file (reads : Option FileReads)

/-- `copy_to_user` of all bytes of a buffer. -/
def copyOut (m : Memory) (dst : ℕ) (bs : Bytes) : Option Memory :=
  copyToUser m (UInt64.ofNat dst) bs (UInt64.ofNat bs.length)

/-- The loop that zeroes the range, from `z` on, and the error it ends with. -/
def zeroPages (base need : ℕ) : ℕ → ℕ → Memory → Memory × Option Errno
  | 0, _, m => (m, none)
  | fuel + 1, z, m =>
    if z < need then
      let zn := min (need - z) pageSize
      match copyOut m (base + z) (zeros zn) with
      | none => (m, some .efault)
      | some m => zeroPages base need fuel (z + zn) m
    else (m, none)

/-- The loop that reads the file, from `done` on. -/
def readPages (r : FileReads) (base off len : ℕ) : ℕ → ℕ → Memory → Memory × Option Errno
  | 0, _, m => (m, none)
  | fuel + 1, done, m =>
    if done < len then
      let n := min (len - done) pageSize
      match r.read ((off + done) % 2 ^ 32) n with
      | none => (m, some .eio)
      | some bs =>
        if bs.length = 0 then (m, none)
        else
          match copyOut m (base + done) bs with
          | none => (m, some .efault)
          | some m => if bs.length < n then (m, none) else readPages r base off len fuel (done + bs.length) m
    else (m, none)

/-- The end of `do_sys_mmap`: the new entry of the table, for an address in the heap window. -/
def mmapRecord (t : UserMap) (base need : ℕ) (prot flags : UInt64) : UserMap × Except Errno ℕ :=
  if userHeapBaseAddr ≤ base ∧ base < t.userHeapLimit then
    match t.vmaRecord base (base + need) (prot.toNat % 2 ^ 32) (flags.toNat % 2 ^ 32) with
    | none => (t, .error .enomem)
    | some t => (t, .ok base)
  else (t, .ok base)

def mmapFill (t : UserMap) (base need len off : ℕ) (prot flags : UInt64) (reads : Option FileReads) (m : Memory) :
    (UserMap × Memory) × Except Errno ℕ :=
  match zeroPages base need need 0 m with
  | (m, some e) => ((t, m), .error e)
  | (m, none) =>
    match match reads with
      | none => (m, none)
      | some r => readPages r base off len len 0 m with
    | (m, some e) => ((t, m), .error e)
    | (m, none) =>
      let (t, r) := mmapRecord t base need prot flags
      ((t, m), r)

/-- `do_sys_mmap` from where the address is checked. -/
def mmapMemoryAt (pte : ℕ → PteFlags) (t : UserMap) (m : Memory) (base need len off : ℕ) (prot flags : UInt64)
    (file : MmapFile) : (UserMap × Memory) × Except Errno ℕ :=
  let t := t.removeRange base (base + need)
  if !pagesOk pte base need prot then ((t, m), .error .enomem)
  else if flags &&& linuxMapAnon = 0 then
    match file with
    | .noFile => ((t, m), .error .ebadf)
    | .device (some maddr) => ((t, m), .ok maddr)
    | .device none => ((t, m), .error .enosys)
    | .file reads => mmapFill t base need len off prot flags reads m
  else mmapFill t base need len off prot flags none m

/-- The checks of `do_sys_mmap` on its arguments, and the address it goes on with. -/
def mmapAddress (t : UserMap) (addr len flags fd off : UInt64) : Except Errno ℕ :=
  let need := pageAlignUp len.toNat
  if len = 0 then .error .einval
  else if fd ≥ 0x8000000000000000 ∧ flags &&& linuxMapAnon = 0 then .error .einval
  else if flags &&& linuxMapAnon = 0 ∧ off.toNat % pageSize ≠ 0 then .error .einval
  else if need = 0 then .error .einval
  else if flags &&& linuxMapFixed ≠ 0 then
    if addr.toNat % pageSize ≠ 0 then .error .einval else .ok addr.toNat
  else
    let base := t.findTopdownGap (mmapFloor t) t.userHeapLimit need
    if base = 0 then .error .enomem else .ok base

def mmapInside (base need : ℕ) : Bool :=
  ¬ (base < userMinAddr.toNat ∨ (base + need) % 2 ^ 64 < base ∨ (base + need) % 2 ^ 64 > userMaxAddr.toNat)

/-- `do_sys_mmap` on the table and the memory of the task. -/
def doSysMmapMemory (pte : ℕ → PteFlags) (t : UserMap) (m : Memory) (addr len prot flags fd off : UInt64)
    (file : MmapFile) : (UserMap × Memory) × Except Errno ℕ :=
  match mmapAddress t addr len flags fd off with
  | .error e => ((t, m), .error e)
  | .ok base =>
    if !mmapInside base (pageAlignUp len.toNat) then ((t, m), .error .enomem)
    else mmapMemoryAt pte t m base (pageAlignUp len.toNat) len.toNat off.toNat prot flags file

/-! ## What is put into the memory -/

/-- The bytes that the reads of `len` bytes give, from `done` on, and whether none fails. -/
def FileReads.upTo (r : FileReads) (off len : ℕ) : ℕ → ℕ → Bytes × Bool
  | 0, _ => ([], true)
  | fuel + 1, done =>
    if done < len then
      let n := min (len - done) pageSize
      match r.read ((off + done) % 2 ^ 32) n with
      | none => ([], false)
      | some bs =>
        if bs.length < n then (bs, true)
        else (bs ++ (r.upTo off len fuel (done + bs.length)).1, (r.upTo off len fuel (done + bs.length)).2)
    else ([], true)

def Memory.filled (m : Memory) (base : ℕ) (bs : Bytes) : Memory := fun a =>
  if base ≤ a.toNat ∧ a.toNat < base + bs.length then rd8 bs (a.toNat - base) else m a

section Filled

variable (m : Memory) (base : ℕ)

theorem filled_nil : m.filled base [] = m := by
  funext a
  apply if_neg
  rw [length_nil]
  omega

theorem filled_append (xs ys : Bytes) : (m.filled base xs).filled (base + xs.length) ys = m.filled base (xs ++ ys) := by
  funext a
  unfold Memory.filled
  rw [length_append]
  by_cases hx : a.toNat < base + xs.length
  · rw [if_neg (by omega)]
    by_cases hlo : base ≤ a.toNat
    · rw [if_pos ⟨hlo, hx⟩, if_pos ⟨hlo, by omega⟩, rd8_append_left (by omega)]
    · rw [if_neg (by omega), if_neg (by omega)]
  by_cases hy : a.toNat < base + xs.length + ys.length
  · rw [if_pos ⟨by omega, hy⟩, if_pos ⟨by omega, by omega⟩, rd8_append_right (by omega),
      show a.toNat - base - xs.length = a.toNat - (base + xs.length) by omega]
  · rw [if_neg (by omega), if_neg (by omega), if_neg (by omega)]

theorem copyOut_eq {dst : ℕ} {bs : Bytes} (hpos : 0 < bs.length) (hlo : userMinAddr.toNat ≤ dst)
    (hhi : dst + bs.length ≤ userMaxAddr.toNat) : copyOut m dst bs = some (m.filled dst bs) := by
  have hmin : userMinAddr.toNat = 0x1000 := rfl
  have hmax : userMaxAddr.toNat = 0x40000000 := rfl
  have hdst : (UInt64.ofNat dst).toNat = dst := by
    rw [UInt64.toNat_ofNat', Nat.mod_eq_of_lt (by omega)]
  have hlen : (UInt64.ofNat bs.length).toNat = bs.length := by
    rw [UInt64.toNat_ofNat', Nat.mod_eq_of_lt (by omega)]
  unfold copyOut
  rw [copyToUser_eq m hlen.symm ((userRangeOk_iff _ _).mpr (by omega))]
  congr 1
  funext a
  unfold Memory.put Memory.filled rd8
  simp only [UInt64.le_iff_toNat_le, hdst]

end Filled

section Loops

variable {base need : ℕ}

theorem zeroPages_eq (hlo : userMinAddr.toNat ≤ base) (hhi : base + need ≤ userMaxAddr.toNat) (fuel z : ℕ) (m : Memory)
    (hz : z ≤ need) (hfuel : need ≤ z + fuel) :
    zeroPages base need fuel z m = (m.filled (base + z) (zeros (need - z)), none) := by
  induction fuel generalizing z m with
  | zero =>
    rw [show need - z = 0 by omega]
    exact congrArg (·, none) (filled_nil m _).symm
  | succ fuel ih =>
    have hpage : pageSize = 4096 := rfl
    unfold zeroPages
    by_cases hlt : z < need
    · have hlen : (zeros (min (need - z) pageSize)).length = min (need - z) pageSize := length_replicate
      have hcopy := @copyOut_eq m (base + z) (zeros (min (need - z) pageSize)) (by rw [hlen]; omega)
        (by omega) (by rw [hlen]; omega)
      have hsplit : zeros (need - z) =
          zeros (min (need - z) pageSize) ++ zeros (need - (z + min (need - z) pageSize)) := by
        unfold zeros
        rw [← replicate_add]
        congr 1
        omega
      rw [if_pos hlt]
      dsimp only
      rw [hcopy]
      dsimp only
      rw [ih _ _ (by omega) (by omega), hsplit, ← filled_append, hlen, Nat.add_assoc]
    · rw [if_neg hlt, show need - z = 0 by omega]
      exact congrArg (·, none) (filled_nil m _).symm

theorem upTo_length (r : FileReads) (off len fuel done : ℕ) (hdone : done ≤ len) :
    done + (r.upTo off len fuel done).1.length ≤ len := by
  induction fuel generalizing done with
  | zero => exact hdone
  | succ fuel ih =>
    unfold FileReads.upTo
    by_cases hlt : done < len
    · rw [if_pos hlt]
      dsimp only
      cases hread : r.read ((off + done) % 2 ^ 32) (min (len - done) pageSize) with
      | none => exact hdone
      | some bs =>
        have hshort := r.short _ _ _ hread
        dsimp only
        by_cases hend : bs.length < min (len - done) pageSize
        · rw [if_pos hend]
          dsimp only
          omega
        have hrest := ih (done + bs.length) (by omega)
        rw [if_neg hend, length_append]
        omega
    · rw [if_neg hlt]
      exact hdone

/-- What the reads give is put behind what is there, and only a read fails. -/
theorem readPages_eq (r : FileReads) (off : ℕ) {len : ℕ} (hlo : userMinAddr.toNat ≤ base)
    (hhi : base + len ≤ userMaxAddr.toNat) (fuel done : ℕ) (m : Memory) (hdone : done ≤ len) :
    readPages r base off len fuel done m = (m.filled (base + done) (r.upTo off len fuel done).1,
        if (r.upTo off len fuel done).2 = true then none else some .eio) := by
  induction fuel generalizing done m with
  | zero => exact congrArg (·, none) (filled_nil m _).symm
  | succ fuel ih =>
    have hpage : pageSize = 4096 := rfl
    unfold readPages FileReads.upTo
    by_cases hlt : done < len
    · rw [if_pos hlt, if_pos hlt]
      obtain hread | ⟨bs, hread⟩ :=
        Option.eq_none_or_eq_some (r.read ((off + done) % 2 ^ 32) (min (len - done) pageSize))
      · simp only [hread]
        exact congrArg (·, some Errno.eio) (filled_nil m _).symm
      have hshort := r.short _ _ _ hread
      simp only [hread]
      by_cases hzero : bs.length = 0
      · rw [if_pos hzero, if_pos (by omega), eq_nil_of_length_eq_zero hzero, filled_nil]
        rfl
      rw [if_neg hzero, copyOut_eq m (by omega) (by omega) (by omega)]
      dsimp only
      by_cases hend : bs.length < min (len - done) pageSize
      · rw [if_pos hend, if_pos hend]
        rfl
      · rw [if_neg hend, if_neg hend, ih _ _ (by omega), ← Nat.add_assoc, filled_append]
    · rw [if_neg hlt, if_neg hlt]
      exact congrArg (·, none) (filled_nil m _).symm

end Loops

/-- What there is to put into the range: nothing without a file, the memory of a device, or bytes with zeros behind them
and whether they were all read. -/
inductive MmapContents
  | nothing
  | device (maddr : ℕ)
  | bytes (got : Bytes) (ok : Bool)

def mmapContents (len off : ℕ) (flags : UInt64) (file : MmapFile) : MmapContents :=
  if flags &&& linuxMapAnon = 0 then
    match file with
    | .noFile => .nothing
    | .device none => .nothing
    | .device (some maddr) => .device maddr
    | .file none => .bytes [] true
    | .file (some r) => .bytes (r.upTo off len len 0).1 (r.upTo off len len 0).2
  else .bytes [] true

def Memory.mapped (m : Memory) (base need : ℕ) (got : Bytes) : Memory := fun a =>
  if base ≤ a.toNat ∧ a.toNat < base + need then rd8 got (a.toNat - base) else m a

theorem filled_zeros (m : Memory) {base need : ℕ} {got : Bytes} (hlen : got.length ≤ need) :
    (m.filled base (zeros need)).filled base got = m.mapped base need got := by
  have hlen' : (zeros need).length = need := length_replicate
  funext a
  unfold Memory.filled Memory.mapped
  rw [hlen', rd8_zeros]
  by_cases hgot : base ≤ a.toNat ∧ a.toNat < base + got.length
  · rw [if_pos hgot, if_pos (by omega)]
  rw [if_neg hgot]
  by_cases hin : base ≤ a.toNat ∧ a.toNat < base + need
  · have hpast : rd8 got (a.toNat - base) = 0 := getD_eq_default _ _ (by omega)
    rw [if_pos hin, if_pos hin, hpast]
  · rw [if_neg hin, if_neg hin]

theorem mmapFill_eq (t : UserMap) {base need len : ℕ} (off : ℕ) (prot flags : UInt64) (reads : Option FileReads)
    (m : Memory) (hlo : userMinAddr.toNat ≤ base) (hhi : base + need ≤ userMaxAddr.toNat) (hlen : len ≤ need) :
    mmapFill t base need len off prot flags reads m = match reads.elim ([], true) fun r => r.upTo off len len 0 with
      | (got, true) => (((mmapRecord t base need prot flags).1, m.mapped base need got),
          (mmapRecord t base need prot flags).2)
      | (got, false) => ((t, m.mapped base need got), .error .eio) := by
  unfold mmapFill
  rw [zeroPages_eq hlo hhi need 0 m (Nat.zero_le _) (by omega), Nat.add_zero, Nat.sub_zero]
  dsimp only
  cases reads with
  | none =>
    dsimp only [Option.elim]
    rw [← filled_zeros m (Nat.zero_le need), filled_nil]
  | some r =>
    have hread := readPages_eq r off hlo (show base + len ≤ userMaxAddr.toNat by omega) len 0
      (m.filled base (zeros need)) (Nat.zero_le _)
    have hshort := upTo_length r off len len 0 (Nat.zero_le _)
    dsimp only [Option.elim]
    rw [hread, Nat.add_zero, filled_zeros m (by omega)]
    generalize r.upTo off len len 0 = got
    obtain ⟨got, ok⟩ := got
    cases ok with
    | false => rfl
    | true => rfl

/-! ## What a failed call leaves -/

/-- What is mapped in a task: the image and the heap below the break, the mappings of the table, and what lies above the
heap window. -/
def UserMap.Mapped (t : UserMap) (a : ℕ) : Prop := a < t.userBrk ∨ t.Covers a ∨ t.userHeapLimit ≤ a

section Calls

variable (pte : ℕ → PteFlags) (t : UserMap) (m : Memory)

/-- If the call fails, the table, the break and the hint are as they were, and so is what is mapped. -/
def FailedMmapChangesNothing (addr len prot flags fd off : UInt64) (file : MmapFile) : Prop :=
  ∀ e, (doSysMmapMemory pte t m addr len prot flags fd off file).2 = .error e →
    (doSysMmapMemory pte t m addr len prot flags fd off file).1.1 = t ∧
      ∀ a : UInt64, t.Mapped a.toNat → (doSysMmapMemory pte t m addr len prot flags fd off file).1.2 a = m a

/-- All that the call needs once it has an address: pages, contents, and an entry in the table if the address is in the
heap window. -/
def MmapCompletes (base need : ℕ) (prot : UInt64) (c : MmapContents) : Prop :=
  pagesOk pte base need prot = true ∧ match c with
    | .nothing => False
    | .device _ => True
    | .bytes _ ok => ok = true ∧ (userHeapBaseAddr ≤ base ∧ base < t.userHeapLimit →
        ∃ i, ¬ ((t.removeRange base (base + need)).userVmas i).Used)

/-- No mapping of the table is in the range, and what else is mapped there has already what is put there. -/
def MmapHarmless (base need : ℕ) (prot : UInt64) (c : MmapContents) : Prop :=
  (∀ a, base ≤ a → a < base + need → ¬ t.Covers a) ∧
    ∀ got ok, c = .bytes got ok → pagesOk pte base need prot = true → ∀ a : UInt64, t.Mapped a.toNat →
      base ≤ a.toNat → a.toNat < base + need → m a = rd8 got (a.toNat - base)

/-- A call that gets an address has what it needs, or does no harm. -/
def MmapSpares (addr len prot flags fd off : UInt64) (file : MmapFile) : Prop :=
  ∀ base, mmapAddress t addr len flags fd off = .ok base → mmapInside base (pageAlignUp len.toNat) = true →
    MmapCompletes pte t base (pageAlignUp len.toNat) prot (mmapContents len.toNat off.toNat flags file) ∨
      MmapHarmless pte t m base (pageAlignUp len.toNat) prot (mmapContents len.toNat off.toNat flags file)

end Calls

/-! ## Removing a range -/

namespace UserMap

variable {t : UserMap} {start stop a : ℕ}

/-- A round takes the range out of its own entry and gives no entry an address of it. -/
theorem removeStep_clear (hlo : start ≤ a) (hhi : a < stop) (i j : VmaIdx) (changed : Bool)
    (h : ((removeStep start stop (t, changed) j).1.userVmas i).Has a) : (t.userVmas i).Has a ∧ i ≠ j := by
  have hupper : ∀ v : UserVma, ¬ UserVma.Has { v with start := stop } a := fun v hv => by
    have : stop ≤ a := hv.1
    omega
  have hlower : ∀ v : UserVma, ¬ UserVma.Has { v with stop := start } a := fun v hv => by
    have : a < start := hv.2
    omega
  have hother : ∀ (t : UserMap) (v : UserVma), ¬ v.Has a → ((t.setVma j v).userVmas i).Has a →
      (t.userVmas i).Has a ∧ i ≠ j := by
    intro t v hv hset
    by_cases hij : i = j
    · rw [hij, setVma_self] at hset
      exact absurd hset hv
    · rw [setVma_of_ne t v hij] at hset
      exact ⟨hset, hij⟩
  have hout : ¬ (t.userVmas j).Has a → (t.userVmas i).Has a → (t.userVmas i).Has a ∧ i ≠ j :=
    fun hj hi => ⟨hi, fun hij => hj (hij ▸ hi)⟩
  unfold removeStep at h
  dsimp only at h
  by_cases hused : (t.userVmas j).Used
  case neg =>
    rw [if_pos hused] at h
    exact hout (not_has_of_not_used hused a) h
  rw [if_neg (not_not.mpr hused)] at h
  by_cases haway : stop ≤ (t.userVmas j).start ∨ start ≥ (t.userVmas j).stop
  · rw [if_pos haway] at h
    refine hout (fun hj => ?_) h
    unfold UserVma.Has at hj
    omega
  rw [if_neg haway] at h
  by_cases hwhole : start ≤ (t.userVmas j).start ∧ stop ≥ (t.userVmas j).stop
  · rw [if_pos hwhole] at h
    exact hother t {} (fun hv => Nat.not_lt_zero _ hv.2) h
  rw [if_neg hwhole] at h
  by_cases hleft : start ≤ (t.userVmas j).start
  · rw [if_pos hleft] at h
    exact hother t _ (hupper _) h
  rw [if_neg hleft] at h
  by_cases hright : stop ≥ (t.userVmas j).stop
  · rw [if_pos hright] at h
    exact hother t _ (hlower _) h
  rw [if_neg hright] at h
  -- the upper part goes to a free entry, if there is one
  cases hslot : t.findFreeSlot with
  | none =>
    rw [hslot] at h
    exact hother t _ (hlower _) h
  | some k =>
    rw [hslot] at h
    obtain ⟨hset, hij⟩ := hother _ _ (hlower _) h
    by_cases hik : i = k
    · rw [hik, setVma_self] at hset
      exact absurd hset (hupper _)
    · rw [setVma_of_ne t _ hik] at hset
      exact ⟨hset, hij⟩

/-- After the loop no entry that it went over has an address of the range. -/
theorem removeLoop_clear (hlo : start ≤ a) (hhi : a < stop) (i : VmaIdx) (l : List VmaIdx) (st : UserMap × Bool)
    (h : ((l.foldl (removeStep start stop) st).1.userVmas i).Has a) : (st.1.userVmas i).Has a ∧ i ∉ l := by
  induction l generalizing st with
  | nil => exact ⟨h, not_mem_nil⟩
  | cons j l ih =>
    obtain ⟨hstep, hl⟩ := ih _ h
    obtain ⟨hst, hij⟩ := removeStep_clear hlo hhi i j st.2 hstep
    exact ⟨hst, fun hmem => (mem_cons.mp hmem).elim hij hl⟩

theorem removeRange_clear (hlo : start ≤ a) (hhi : a < stop) : ¬ (t.removeRange start stop).Covers a := by
  rintro ⟨i, hi⟩
  unfold removeRange at hi
  rw [if_neg (by omega)] at hi
  have hloop := removeLoop_clear hlo hhi i (finRange processUserVmaMax) (t, false)
  generalize (finRange processUserVmaMax).foldl (removeStep start stop) (t, false) = r at hi hloop
  obtain ⟨t', changed⟩ := r
  have hhas : (t'.userVmas i).Has a := by
    cases changed with
    | false => exact hi
    | true => exact hi
  exact (hloop hhas).2 (mem_finRange i)

/-- The table stays as it is exactly when nothing in it has an address of the range. -/
theorem removeRange_eq_iff : t.removeRange start stop = t ↔ ∀ a, start ≤ a → a < stop → ¬ t.Covers a := by
  constructor
  · intro h a hlo hhi
    rw [← h]
    exact removeRange_clear hlo hhi
  · exact removeRange_of_free

theorem vmaRecord_eq_none (prot flags : ℕ) (hlt : start < stop) :
    t.vmaRecord start stop prot flags = none ↔ ∀ i, (t.userVmas i).Used := by
  unfold vmaRecord
  rw [if_neg (by omega)]
  cases hslot : t.findFreeSlot with
  | none => exact iff_of_true rfl (findFreeSlot_none hslot)
  | some i => exact iff_of_false (fun h => by cases h) fun h => findFreeSlot_some hslot (h i)

end UserMap

/-! ## When a failed call changes nothing -/

theorem le_pageAlignUp_of_ne {v : ℕ} (hv : v < 2 ^ 64) (h : pageAlignUp v ≠ 0) : v ≤ pageAlignUp v := by
  change (v + (4096 - 1)) % 2 ^ 64 / 4096 * 4096 ≠ 0 at h
  change v ≤ (v + (4096 - 1)) % 2 ^ 64 / 4096 * 4096
  omega

theorem pageAlignUp_lt (v : ℕ) : pageAlignUp v < 2 ^ 64 := by
  change (v + (4096 - 1)) % 2 ^ 64 / 4096 * 4096 < 2 ^ 64
  omega

/-- What the arguments of a call that gets an address are like. -/
theorem mmapAddress_ok {t : UserMap} {addr len flags fd off : UInt64} {base : ℕ}
    (h : mmapAddress t addr len flags fd off = .ok base) : pageAlignUp len.toNat ≠ 0 := by
  unfold mmapAddress at h
  dsimp only at h
  intro hzero
  split at h
  · cases h
  split at h
  · cases h
  split at h
  · cases h
  · cases h

theorem mmapInside_range {base need : ℕ} (hneed : need < 2 ^ 64) (h : mmapInside base need = true) :
    userMinAddr.toNat ≤ base ∧ base + need ≤ userMaxAddr.toNat := by
  have hmax : userMaxAddr.toNat = 0x40000000 := rfl
  unfold mmapInside at h
  have := of_decide_eq_true h
  omega

section Calls

variable {pte : ℕ → PteFlags} {t : UserMap} {m : Memory} {base need : ℕ}

/-- The table without the range, and memory that is filled or not, are as before. -/
theorem spared_iff (got : Bytes) : (t.removeRange base (base + need) = t ∧
    ∀ a : UInt64, t.Mapped a.toNat → m.mapped base need got a = m a) ↔
      (∀ a, base ≤ a → a < base + need → ¬ t.Covers a) ∧ ∀ a : UInt64, t.Mapped a.toNat → base ≤ a.toNat →
        a.toNat < base + need → m a = rd8 got (a.toNat - base) := by
  rw [UserMap.removeRange_eq_iff]
  refine and_congr_right fun _ => ?_
  unfold Memory.mapped
  constructor
  · intro h a ha hlo hhi
    have := h a ha
    rw [if_pos ⟨hlo, hhi⟩] at this
    exact this.symm
  · intro h a ha
    by_cases hin : base ≤ a.toNat ∧ a.toNat < base + need
    · rw [if_pos hin]
      exact (h a ha hin.1 hin.2).symm
    · rw [if_neg hin]

/-- The call from where the range is checked, by what there is to put into the range. -/
theorem mmapMemoryAt_eq {len : ℕ} (off : ℕ) (prot flags : UInt64) (file : MmapFile)
    (hrange : userMinAddr.toNat ≤ base ∧ base + need ≤ userMaxAddr.toNat) (hlen : len ≤ need) :
    mmapMemoryAt pte t m base need len off prot flags file =
      if !pagesOk pte base need prot then ((t.removeRange base (base + need), m), .error .enomem)
      else
        match mmapContents len off flags file with
        | .nothing => ((t.removeRange base (base + need), m), .error (if file matches .noFile then .ebadf else .enosys))
        | .device maddr => ((t.removeRange base (base + need), m), .ok maddr)
        | .bytes got true =>
          (((mmapRecord (t.removeRange base (base + need)) base need prot flags).1, m.mapped base need got),
            (mmapRecord (t.removeRange base (base + need)) base need prot flags).2)
        | .bytes got false => ((t.removeRange base (base + need), m.mapped base need got), .error .eio) := by
  unfold mmapMemoryAt mmapContents
  dsimp only
  generalize t.removeRange base (base + need) = t'
  cases hpages : pagesOk pte base need prot with
  | false => rfl
  | true =>
    by_cases hanon : flags &&& linuxMapAnon = 0
    · rw [if_pos hanon, if_pos hanon]
      cases file with
      | noFile => rfl
      | device maddr =>
        cases maddr with
        | none => rfl
        | some maddr => rfl
      | file reads =>
        dsimp only
        rw [mmapFill_eq t' off prot flags reads m hrange.1 hrange.2 hlen]
        cases reads with
        | none => rfl
        | some r =>
          dsimp only [Option.elim]
          obtain ⟨got, ok⟩ := r.upTo off len len 0
          cases ok with
          | false => rfl
          | true => rfl
    · rw [if_neg hanon, if_neg hanon, mmapFill_eq t' off prot flags none m hrange.1 hrange.2 hlen]
      rfl

/-- The entry is made exactly when the table has room for it. -/
theorem mmapRecord_error (prot flags : UInt64) (hneed : 0 < need) :
    (∃ e, (mmapRecord t base need prot flags).2 = .error e) ↔
      (userHeapBaseAddr ≤ base ∧ base < t.userHeapLimit) ∧ ∀ i, (t.userVmas i).Used := by
  unfold mmapRecord
  by_cases hwindow : userHeapBaseAddr ≤ base ∧ base < t.userHeapLimit
  · rw [if_pos hwindow, and_iff_right hwindow,
      ← UserMap.vmaRecord_eq_none (prot.toNat % 2 ^ 32) (flags.toNat % 2 ^ 32) (show base < base + need by omega)]
    cases t.vmaRecord base (base + need) (prot.toNat % 2 ^ 32) (flags.toNat % 2 ^ 32) with
    | none => exact iff_of_true ⟨_, rfl⟩ rfl
    | some t' => exact iff_of_false (fun ⟨e, he⟩ => by cases he) fun h => by cases h
  · rw [if_neg hwindow]
    exact iff_of_false (fun ⟨e, he⟩ => by cases he) fun h => hwindow h.1

theorem mmapRecord_failed {prot flags : UInt64} {e : Errno} (h : (mmapRecord t base need prot flags).2 = .error e) :
    (mmapRecord t base need prot flags).1 = t := by
  unfold mmapRecord at h ⊢
  split
  · rename_i hwindow
    rw [if_pos hwindow] at h
    cases hrecord : t.vmaRecord base (base + need) (prot.toNat % 2 ^ 32) (flags.toNat % 2 ^ 32) with
    | none => rfl
    | some t' =>
      rw [hrecord] at h
      cases h
  · rfl

theorem early_iff {c : MmapContents} {prot : UInt64} {e : Errno} (hfails : ¬ MmapCompletes pte t base need prot c)
    (hvacuous : ∀ got ok, c = .bytes got ok → pagesOk pte base need prot = false) :
    (∀ e', (Except.error e : Except Errno ℕ) = .error e' →
      t.removeRange base (base + need) = t ∧ ∀ a : UInt64, t.Mapped a.toNat → m a = m a) ↔
      MmapCompletes pte t base need prot c ∨ MmapHarmless pte t m base need prot c := by
  rw [or_iff_right hfails]
  unfold MmapHarmless
  rw [← UserMap.removeRange_eq_iff]
  constructor
  · intro h
    refine ⟨(h e rfl).1, fun got ok hc hpages => ?_⟩
    rw [hvacuous got ok hc] at hpages
    cases hpages
  · exact fun h e' _ => ⟨h.1, fun _ _ => rfl⟩

theorem late_iff {prot : UInt64} {got : Bytes} {ok : Bool} {t' : UserMap} {r : Except Errno ℕ}
    (hpages : pagesOk pte base need prot = true) (hfails : ¬ MmapCompletes pte t base need prot (.bytes got ok))
    (hr : ∃ e, r = .error e) (ht : t' = t.removeRange base (base + need)) :
    (∀ e, r = .error e → t' = t ∧ ∀ a : UInt64, t.Mapped a.toNat → m.mapped base need got a = m a) ↔
      MmapCompletes pte t base need prot (.bytes got ok) ∨ MmapHarmless pte t m base need prot (.bytes got ok) := by
  obtain ⟨e, rfl⟩ := hr
  rw [or_iff_right hfails, ht]
  unfold MmapHarmless
  constructor
  · intro h
    obtain ⟨hfree, hsame⟩ := (spared_iff got).mp (h e rfl)
    refine ⟨hfree, fun got' ok' hc _ => ?_⟩
    cases hc
    exact hsame
  · exact fun h e' _ => (spared_iff got).mpr ⟨h.1, h.2 got ok rfl hpages⟩

theorem mmapMemoryAt_spares {len : ℕ} (off : ℕ) (prot flags : UInt64) (file : MmapFile) (hneed : 0 < need)
    (hrange : userMinAddr.toNat ≤ base ∧ base + need ≤ userMaxAddr.toNat) (hlen : len ≤ need) :
    (∀ e, (mmapMemoryAt pte t m base need len off prot flags file).2 = .error e →
      (mmapMemoryAt pte t m base need len off prot flags file).1.1 = t ∧ ∀ a : UInt64, t.Mapped a.toNat →
        (mmapMemoryAt pte t m base need len off prot flags file).1.2 a = m a) ↔
      MmapCompletes pte t base need prot (mmapContents len off flags file) ∨
        MmapHarmless pte t m base need prot (mmapContents len off flags file) := by
  rw [mmapMemoryAt_eq off prot flags file hrange hlen]
  generalize mmapContents len off flags file = c
  cases hpages : pagesOk pte base need prot with
  | false =>
    rw [if_pos (show (!false) = true from rfl)]
    dsimp only
    refine early_iff (fun h => ?_) fun _ _ _ => hpages
    have := h.1
    rw [hpages] at this
    cases this
  | true =>
    rw [if_neg (show ¬ (!true) = true by decide)]
    cases c with
    | nothing =>
      dsimp only
      exact early_iff (fun h => h.2) fun _ _ hc => by cases hc
    | device maddr => exact iff_of_true (fun e he => by cases he) (Or.inl ⟨hpages, trivial⟩)
    | bytes got ok =>
      cases ok with
      | false => exact late_iff hpages (fun h => by cases h.2.1) ⟨_, rfl⟩ rfl
      | true =>
        have hlimit : (t.removeRange base (base + need)).userHeapLimit = t.userHeapLimit :=
          (UserMap.removeRange_sameHeap t base (base + need)).2.2
        have herror : (∃ e, (mmapRecord (t.removeRange base (base + need)) base need prot flags).2 = .error e) ↔ _ :=
          mmapRecord_error prot flags hneed
        rw [hlimit] at herror
        by_cases hfails : ∃ e, (mmapRecord (t.removeRange base (base + need)) base need prot flags).2 = .error e
        · obtain ⟨hwindow, hfull⟩ := herror.mp hfails
          obtain ⟨e, he⟩ := hfails
          refine late_iff hpages (fun h => ?_) ⟨e, he⟩ (mmapRecord_failed he)
          obtain ⟨i, hi⟩ := h.2.2 hwindow
          exact hi (hfull i)
        · refine iff_of_true (fun e he => absurd ⟨e, he⟩ hfails) (Or.inl ⟨hpages, rfl, fun hwindow => ?_⟩)
          by_contra hfull
          exact hfails (herror.mpr ⟨hwindow, fun i => by_contra fun hi => hfull ⟨i, hi⟩⟩)

end Calls

/-- A failed `mmap` changes nothing exactly when the call has what it needs or does no harm. -/
theorem failed_mmap_iff (pte : ℕ → PteFlags) (t : UserMap) (m : Memory) (addr len prot flags fd off : UInt64)
    (file : MmapFile) : FailedMmapChangesNothing pte t m addr len prot flags fd off file ↔
      MmapSpares pte t m addr len prot flags fd off file := by
  unfold FailedMmapChangesNothing MmapSpares doSysMmapMemory
  cases haddr : mmapAddress t addr len flags fd off with
  | error e => exact iff_of_true (fun _ _ => ⟨rfl, fun _ _ => rfl⟩) fun base hbase => by cases hbase
  | ok base =>
    dsimp only
    have hneed := mmapAddress_ok haddr
    have hlen := le_pageAlignUp_of_ne len.toNat_lt hneed
    cases hinside : mmapInside base (pageAlignUp len.toNat) with
    | false =>
      refine iff_of_true (fun _ _ => ⟨rfl, fun _ _ => rfl⟩) fun base' hbase' hin => ?_
      cases hbase'
      rw [hinside] at hin
      cases hin
    | true =>
      refine Iff.trans (mmapMemoryAt_spares off.toNat prot flags file (Nat.pos_of_ne_zero hneed)
        (mmapInside_range (pageAlignUp_lt _) hinside) hlen) ⟨fun h base' hbase' _ => ?_, fun h => h base rfl hinside⟩
      cases hbase'
      exact h

def onePageMap : UserMap where
  userHeapBase := userHeapBaseAddr
  userBrk := userHeapBaseAddr
  userHeapLimit := userHeapBaseAddr + 0x2000000
  userVmaCount := 1
  userVmas := Function.update (fun _ => {}) 0 ⟨0x20500000, 0x20501000, 3, 0x22⟩

/-- Over a mapping, a file with a closed descriptor is refused, and the mapping is gone. -/
theorem closed_file_unmaps : ¬ FailedMmapChangesNothing (fun _ => ⟨true, true, true⟩) onePageMap (fun _ => 0) 0x20500000
    0x1000 3 0x12 9 0 .noFile := by
  intro h
  have hsame := (h .ebadf (by decide +kernel)).1
  exact absurd (congrArg (fun t => (t.userVmas 0).stop) hsame) (by decide +kernel)

end EdgeOS
