import Mathlib.Algebra.BigOperators.Group.List.Basic
import Mathlib.Data.List.Range
import Mathlib.Logic.Function.Basic
import Mathlib.Tactic.Ring

namespace EdgeOS

/-!
The transfers of the AHCI driver: how `ahci_issue_rw_sg` cuts a scatter list into commands, and
how `ahci_fill_prdt` cuts the part of a command into entries. The tags and the completion of a
command are in `AhciSlots`; here the drive is a list of answers.
-/

open List

abbrev sectorBytes : ℕ := 512
/-- `AHCI_MAX_CMDS`, `AHCI_MAX_PRDT`, `AHCI_MAX_CMD_SECTORS`, `AHCI_PRDT_MAX_BYTES`. -/
abbrev sgMaxCmds : ℕ := 32
abbrev sgMaxPrdt : ℕ := 16
abbrev sgMaxCmdSectors : ℕ := 65535
abbrev prdtMaxBytes : ℕ := 4 * 1024 * 1024

/-- `ahci_sg_t`. -/
structure AhciSg where
  addr : UInt64
  len : UInt32
  deriving DecidableEq, Repr

/-- `ahci_sg_cursor_t`: the elements from `index` on, and the offset in the first of them. -/
structure SgCursor where
  rest : List AhciSg
  off : ℕ
  deriving DecidableEq, Repr

/-- `hba_prdt_entry_t`; `dbc` has 22 bits. -/
structure Prd where
  dba : UInt32
  dbau : UInt32
  dbc : ℕ
  i : Bool
  deriving DecidableEq, Repr

/-- The bytes of `fis_reg_h2d_t` that `ahci_build_cfis` sets. -/
structure Cfis where
  fisType : UInt8
  c : Bool
  command : UInt8
  device : UInt8
  lba0 : UInt8
  lba1 : UInt8
  lba2 : UInt8
  lba3 : UInt8
  lba4 : UInt8
  lba5 : UInt8
  featurel : UInt8
  featureh : UInt8
  countl : UInt8
  counth : UInt8
  deriving DecidableEq, Repr

/-- What a slot is issued with: the direction and the number of entries in its header, and its
command table. -/
structure SgCommand where
  slot : ℕ
  w : Bool
  prdtl : ℕ
  cfis : Cfis
  prdt : List Prd
  deriving DecidableEq, Repr

def totalSgBytes (sg : List AhciSg) : ℕ := (sg.map fun e => e.len.toNat).sum % 2 ^ 64

/-- The skipping loop of `ahci_fill_prdt`. -/
def skipDone : List AhciSg → ℕ → SgCursor
  | [], off => ⟨[], off⟩
  | e :: rest, off => if off ≥ e.len.toNat then skipDone rest 0 else ⟨e :: rest, off⟩

/-- The entry for `take` bytes at `addr`. -/
def Prd.entry (addr : UInt64) (take : ℕ) : Prd where
  dba := addr.toUInt32
  dbau := (addr >>> 32).toUInt32
  dbc := (take - 1) % 2 ^ 22
  i := false

/-- The loop of `ahci_fill_prdt`, while `n` entries are left. The skipping loop never stops at an
element without bytes, so `avail` is not zero. -/
def fillLoop (maxBytes : ℕ) : ℕ → SgCursor → ℕ → List Prd → SgCursor × ℕ × List Prd
  | 0, cur, bytes, prdt => (cur, bytes, prdt)
  | n + 1, cur, bytes, prdt =>
    if bytes < maxBytes then
      match skipDone cur.rest cur.off with
      | ⟨[], off⟩ => (⟨[], off⟩, bytes, prdt)
      | ⟨e :: rest, off⟩ =>
        let avail := e.len.toNat - off
        let take := min (min avail prdtMaxBytes) (maxBytes - bytes) / sectorBytes * sectorBytes
        if take = 0 then (⟨e :: rest, off⟩, bytes, prdt)
        else fillLoop maxBytes n ⟨e :: rest, off + take⟩ (bytes + take)
          (prdt ++ [Prd.entry (e.addr + UInt64.ofNat off) take])
    else (cur, bytes, prdt)

/-- `ahci_fill_prdt`: the cursor afterwards, the bytes that are mapped and the entries. -/
def fillPrdt (cur : SgCursor) (maxBytes : ℕ) : Option (SgCursor × ℕ × List Prd) :=
  if maxBytes % sectorBytes ≠ 0 then none
  else
    match fillLoop maxBytes sgMaxPrdt cur 0 [] with
    | (cur, bytes, prdt) =>
      if bytes = 0 ∨ bytes % sectorBytes ≠ 0 ∨ prdt.length = 0 then none
      else some (cur, bytes, prdt.modify (prdt.length - 1) fun e => { e with i := true })

def ahciCmdReadDmaExt : UInt8 := 0x25
def ahciCmdWriteDmaExt : UInt8 := 0x35
def ahciCmdReadFpdmaQueued : UInt8 := 0x60
def ahciCmdWriteFpdmaQueued : UInt8 := 0x61

def rwCommand (write useNcq : Bool) : UInt8 :=
  if useNcq then if write then ahciCmdWriteFpdmaQueued else ahciCmdReadFpdmaQueued
  else if write then ahciCmdWriteDmaExt else ahciCmdReadDmaExt

def buildCfis (write : Bool) (lba : UInt64) (sectors : UInt16) (slot : ℕ) (useNcq : Bool) : Cfis :=
  { fisType := 0x27
    c := true
    device := 0x40
    lba0 := lba.toUInt8
    lba1 := (lba >>> 8).toUInt8
    lba2 := (lba >>> 16).toUInt8
    lba3 := (lba >>> 24).toUInt8
    lba4 := (lba >>> 32).toUInt8
    lba5 := (lba >>> 40).toUInt8
    command := rwCommand write useNcq
    featurel := if useNcq then sectors.toUInt8 else 0
    featureh := if useNcq then (sectors >>> 8).toUInt8 else 0
    countl := if useNcq then UInt8.ofNat (slot * 8) else sectors.toUInt8
    counth := if useNcq then 0 else (sectors >>> 8).toUInt8 }

/-- `ahci_submit_rw`: the command, the cursor afterwards and the bytes that are mapped. -/
def submitRw (ncq write : Bool) (slot : ℕ) (lba : UInt64) (cur : SgCursor) (maxBytes : ℕ) :
    Option (SgCommand × SgCursor × ℕ) :=
  if maxBytes = 0 then none
  else
    match fillPrdt cur maxBytes with
    | none => none
    | some (cur, mapped, prdt) =>
      let sectors := UInt16.ofNat (mapped / sectorBytes)
      if sectors = 0 then none
      else some (⟨slot, write, prdt.length, buildCfis write lba sectors slot ncq, prdt⟩, cur, mapped)

/-- The disk and what it answers: whether the port is ready before the n-th look at its slots, the
slots that it finishes before that look, and whether the n-th `ahci_wait_slot_done` returns 0.
`busy` are the slots in PxSACT and PxCI when the call starts. -/
structure AhciDrive where
  present : Bool
  ncqSupported : Bool
  queueDepth : UInt32
  busy : ℕ → Bool
  ready : ℕ → Bool
  finishes : ℕ → ℕ → Bool
  waited : ℕ → Bool

/-- The variables of `ahci_issue_rw_sg`, the slots, and the commands it has issued. -/
structure SgIssue where
  busy : ℕ → Bool
  looks : ℕ := 0
  waits : ℕ := 0
  cur : SgCursor
  remaining : ℕ
  lba : UInt64
  issued : List SgCommand := []

namespace SgIssue

variable (d : AhciDrive) (s : SgIssue)

def look : SgIssue :=
  { s with busy := fun k => s.busy k && !d.finishes s.looks k, looks := s.looks + 1 }

/-- `ahci_find_slot`. -/
def findSlot : Option ℕ := (List.range sgMaxCmds).find? fun k => !s.busy k

/-- The bytes that the next command may map. The remaining bytes are cut to 32 bits first. -/
def maxBytes : ℕ :=
  min (min (s.remaining % 2 ^ 32) (sgMaxCmdSectors * sectorBytes)) (sgMaxPrdt * prdtMaxBytes) /
    sectorBytes * sectorBytes

def put (slot : ℕ) (c : SgCommand) (cur : SgCursor) (mapped : ℕ) : SgIssue :=
  { s with
    busy := Function.update s.busy slot true
    cur := cur
    remaining := s.remaining - mapped
    lba := s.lba + UInt64.ofNat (mapped / sectorBytes)
    issued := s.issued ++ [c] }

/-- The inner loop of `ahci_issue_rw_sg`, with `n` places left in the queue: the slots that are
pending, or `none` where the call returns -1. -/
def batch (write : Bool) : ℕ → SgIssue → List ℕ → SgIssue × Option (List ℕ)
  | 0, s, pending => (s, some pending)
  | n + 1, s, pending =>
    if s.remaining = 0 then (s, some pending)
    else if !d.ncqSupported && !d.ready s.looks then (s, none)
    else
      match (s.look d).findSlot with
      | none => (s.look d, some pending)
      | some slot =>
        if s.maxBytes = 0 then (s.look d, none)
        else
          match submitRw d.ncqSupported write slot s.lba s.cur s.maxBytes with
          | none => (s.look d, none)
          | some (c, cur, mapped) => batch write n ((s.look d).put slot c cur mapped) (pending ++ [slot])

/-- `ahci_wait_slot_done` for the pending slots, one after the other. -/
def waitAll : List ℕ → SgIssue → SgIssue × Bool
  | [], s => (s, true)
  | slot :: pending, s =>
    let s' := { s with busy := Function.update s.busy slot false, waits := s.waits + 1 }
    if d.waited s.waits then waitAll pending s' else (s', false)

/-- The outer loop; without a free slot it goes round again. The answer is the value returned, with
the commands that were issued. -/
def loop (write : Bool) (depth : ℕ) : ℕ → SgIssue → Option (ℤ × List SgCommand)
  | 0, _ => none
  | n + 1, s =>
    if s.remaining = 0 then some (0, s.issued)
    else
      match batch d write depth s [] with
      | (s, none) => some (-1, s.issued)
      | (s, some []) => loop write depth n s
      | (s, some pending) =>
        match waitAll d pending s with
        | (s, true) => loop write depth n s
        | (s, false) => some (-1, s.issued)

end SgIssue

def AhciDrive.depth (d : AhciDrive) : ℕ :=
  let depth := if d.ncqSupported then d.queueDepth.toNat else 1
  min (if depth = 0 then 1 else depth) sgMaxCmds

def AhciDrive.start (d : AhciDrive) (lba sectorCount : UInt32) (sg : List AhciSg) : SgIssue :=
  { busy := d.busy, cur := ⟨sg, 0⟩, remaining := sectorCount.toNat * sectorBytes
    lba := lba.toUInt64 }

def ahciIssueRwSg (d : AhciDrive) (write : Bool) (lba sectorCount : UInt32) (sg : List AhciSg)
    (fuel : ℕ) : Option (ℤ × List SgCommand) :=
  if !d.present ∨ sg.length = 0 ∨ sectorCount = 0 then some (-1, [])
  else if totalSgBytes sg ≠ sectorCount.toNat * sectorBytes then some (-1, [])
  else (d.start lba sectorCount sg).loop d write d.depth fuel

/-! ## What a transfer is -/

def AhciSg.bytes (e : AhciSg) : List UInt64 :=
  (List.range e.len.toNat).map fun k => e.addr + UInt64.ofNat k

/-- The address of the region that an entry describes, and its size. -/
def Prd.addr (e : Prd) : UInt64 := UInt64.ofNat (e.dbau.toNat * 2 ^ 32 + e.dba.toNat)
def Prd.size (e : Prd) : ℕ := e.dbc + 1

def Prd.bytes (e : Prd) : List UInt64 := (List.range e.size).map fun k => e.addr + UInt64.ofNat k

/-- The sector that a command starts at, and the sectors that it asks for. -/
def Cfis.lba (f : Cfis) : ℕ :=
  f.lba0.toNat + 2 ^ 8 * f.lba1.toNat + 2 ^ 16 * f.lba2.toNat + 2 ^ 24 * f.lba3.toNat +
    2 ^ 32 * f.lba4.toNat + 2 ^ 40 * f.lba5.toNat

def Cfis.sectors (f : Cfis) : ℕ :=
  if f.command = ahciCmdReadFpdmaQueued ∨ f.command = ahciCmdWriteFpdmaQueued then
    f.featurel.toNat + 2 ^ 8 * f.featureh.toNat
  else f.countl.toNat + 2 ^ 8 * f.counth.toNat

def SgCommand.bytes (c : SgCommand) : List UInt64 := c.prdt.flatMap Prd.bytes

/-- A list of whole sectors that adds up to the sectors asked for. -/
def WholeSectors (sectorCount : UInt32) (sg : List AhciSg) : Prop :=
  (∀ e ∈ sg, e.len.toNat % sectorBytes = 0) ∧ (sg.map fun e => e.len.toNat).sum = sectorCount.toNat * sectorBytes

/-- A command within its limits, whose sectors are the bytes that it maps. -/
structure SgCommand.Sound (c : SgCommand) : Prop where
  entries : c.prdtl = c.prdt.length ∧ c.prdt.length ≤ sgMaxPrdt
  small : ∀ e ∈ c.prdt, e.size ≤ prdtMaxBytes
  few : c.cfis.sectors ≤ sgMaxCmdSectors
  sectors : c.cfis.sectors * sectorBytes = (c.prdt.map Prd.size).sum

/-- The commands transfer the bytes of the list in order, to and from consecutive sectors. -/
structure Transfers (write : Bool) (lba : ℕ) (sg : List AhciSg) (cmds : List SgCommand) : Prop where
  bytes : cmds.flatMap SgCommand.bytes = sg.flatMap AhciSg.bytes
  sound : ∀ c ∈ cmds, c.Sound ∧ c.w = write
  consecutive : ∀ before c after, cmds = before ++ c :: after →
    c.cfis.lba = lba + (before.map fun b => b.cfis.sectors).sum

/-- The drive is there, gets ready, and completes each command without an error. -/
structure AhciDrive.Completes (d : AhciDrive) : Prop where
  present : d.present = true
  ready : ∀ n, d.ready n = true
  finishes : ∀ n k, ∃ m, n ≤ m ∧ d.finishes m k = true
  waited : ∀ n, d.waited n = true

/-! ## One entry -/

theorem shift_toNat (a k : UInt64) (hk : k < 64) : (a >>> k).toNat = a.toNat / 2 ^ k.toNat := by
  have hk : k.toNat % 64 = k.toNat := Nat.mod_eq_of_lt hk
  rw [UInt64.toNat_shiftRight, hk, Nat.shiftRight_eq_div_pow]

theorem Prd.addr_entry (addr : UInt64) (take : ℕ) : (Prd.entry addr take).addr = addr := by
  apply UInt64.toNat_inj.mp
  have hlo : addr.toUInt32.toNat = addr.toNat % 2 ^ 32 := UInt64.toNat_toUInt32 addr
  have hhi : (addr >>> 32).toUInt32.toNat = addr.toNat / 2 ^ 32 % 2 ^ 32 := by
    rw [UInt64.toNat_toUInt32, shift_toNat _ _ (by decide)]
    rfl
  have hlt := addr.toNat_lt
  unfold Prd.addr Prd.entry
  dsimp only
  rw [hlo, hhi, UInt64.toNat_ofNat']
  omega

variable {take : ℕ}

theorem Prd.size_entry (addr : UInt64) (h0 : 0 < take) (h : take ≤ prdtMaxBytes) :
    (Prd.entry addr take).size = take := by
  unfold Prd.size Prd.entry
  unfold prdtMaxBytes at h
  dsimp only
  omega

theorem AhciSg.length_bytes (e : AhciSg) : e.bytes.length = e.len.toNat := by
  simp [AhciSg.bytes]

variable {off : ℕ}

/-- The entry for a part of an element describes the bytes of that part. -/
theorem Prd.bytes_entry (e : AhciSg) (h0 : 0 < take) (hmax : take ≤ prdtMaxBytes) (h : off + take ≤ e.len.toNat) :
    (Prd.entry (e.addr + UInt64.ofNat off) take).bytes = (e.bytes.drop off).take take := by
  unfold Prd.bytes AhciSg.bytes
  rw [Prd.addr_entry, Prd.size_entry _ h0 hmax]
  apply ext_getElem
  · simp only [length_map, length_range, length_take, length_drop]
    omega
  · intro k h1 h2
    simp only [getElem_map, getElem_range, getElem_take, getElem_drop]
    rw [UInt64.add_assoc, ← UInt64.ofNat_add]

theorem buildCfis_sectors (write : Bool) (lba : UInt64) (sectors : UInt16) (slot : ℕ) (ncq : Bool) :
    (buildCfis write lba sectors slot ncq).sectors = sectors.toNat := by
  have hlow : sectors.toUInt8.toNat = sectors.toNat % 2 ^ 8 := UInt16.toNat_toUInt8 sectors
  have hhigh : (sectors >>> 8).toUInt8.toNat = sectors.toNat / 2 ^ 8 % 2 ^ 8 := by
    rw [UInt16.toNat_toUInt8, UInt16.toNat_shiftRight, Nat.shiftRight_eq_div_pow]
    rfl
  have hqueued : ∀ write ncq, (rwCommand write ncq = ahciCmdReadFpdmaQueued ∨
      rwCommand write ncq = ahciCmdWriteFpdmaQueued) ↔ ncq = true := by decide
  have hlt := sectors.toNat_lt
  unfold Cfis.sectors buildCfis
  dsimp only
  simp only [hqueued]
  split
  · rw [hlow, hhigh]
    omega
  · rw [hlow, hhigh]
    omega

variable {lba : UInt64}

theorem buildCfis_lba (write : Bool) (sectors : UInt16) (slot : ℕ) (ncq : Bool)
    (h : lba.toNat < 2 ^ 48) : (buildCfis write lba sectors slot ncq).lba = lba.toNat := by
  have hbyte : ∀ k : UInt64, k < 64 → (lba >>> k).toUInt8.toNat = lba.toNat / 2 ^ k.toNat % 2 ^ 8 := by
    intro k hk
    rw [UInt64.toNat_toUInt8, shift_toNat _ _ hk]
  unfold Cfis.lba buildCfis
  dsimp only
  rw [hbyte 8 (by decide), hbyte 16 (by decide), hbyte 24 (by decide), hbyte 32 (by decide),
    hbyte 40 (by decide), UInt64.toNat_toUInt8]
  change _ + 2 ^ 8 * (_ / 2 ^ 8 % _) + 2 ^ 16 * (_ / 2 ^ 16 % _) + 2 ^ 24 * (_ / 2 ^ 24 % _) + 
     2 ^ 32 * (_ / 2 ^ 32 % _) + 2 ^ 40 * (_ / 2 ^ 40 % _) = _
  omega

/-! ## The entries of a command -/

def SgCursor.bytes (cur : SgCursor) : List UInt64 := (cur.rest.flatMap AhciSg.bytes).drop cur.off

/-- A cursor that stands at a sector of its first element. -/
structure SgCursor.Ok (cur : SgCursor) : Prop where
  whole : ∀ e ∈ cur.rest, e.len.toNat % sectorBytes = 0
  off : cur.off % sectorBytes = 0
  inside : ∀ e ∈ cur.rest.head?, cur.off ≤ e.len.toNat

theorem skipDone_inside (rest : List AhciSg) (off : ℕ) :
    ∀ e ∈ (skipDone rest off).rest.head?, (skipDone rest off).off < e.len.toNat := by
  induction rest generalizing off with
  | nil => simp [skipDone]
  | cons e rest ih =>
    unfold skipDone
    split
    · exact ih 0
    rename_i h
    intro e' he
    obtain rfl : e = e' := by simpa using he
    exact Nat.not_le.mp h

theorem SgCursor.bytes_cons (e : AhciSg) (rest : List AhciSg) (h : off ≤ e.len.toNat) :
    (SgCursor.mk (e :: rest) off).bytes = e.bytes.drop off ++ rest.flatMap AhciSg.bytes := by
  unfold SgCursor.bytes
  dsimp only
  rw [flatMap_cons, drop_append_of_le_length (by rw [e.length_bytes]; exact h)]

variable {rest : List AhciSg}

theorem SgCursor.Ok.skip (h : (SgCursor.mk rest off).Ok) :
    (skipDone rest off).Ok ∧ (skipDone rest off).bytes = (SgCursor.mk rest off).bytes := by
  induction rest generalizing off with
  | nil => exact ⟨h, rfl⟩
  | cons e rest ih =>
    have hin : off ≤ e.len.toNat := h.inside e rfl
    unfold skipDone
    split
    · rename_i hge
      have hnext : (SgCursor.mk rest 0).Ok :=
        ⟨fun e' he => h.whole e' (mem_cons_of_mem e he), rfl, fun _ _ => Nat.zero_le _⟩
      obtain ⟨hok, hbytes⟩ := ih hnext
      refine ⟨hok, hbytes.trans ?_⟩
      rw [SgCursor.bytes_cons e rest hin, drop_eq_nil_of_le (by rw [e.length_bytes]; exact hge)]
      rfl
    · exact ⟨h, rfl⟩

/-- What a part of the loop of `ahci_fill_prdt` adds to the entries. -/
structure TableFill (maxBytes n bytes : ℕ) (prdt : List Prd) (bytes' : ℕ) (prdt' new : List Prd) : Prop where
  prdt : prdt' = prdt ++ new
  few : new.length ≤ n
  small : ∀ e ∈ new, e.size ≤ prdtMaxBytes
  bytes : bytes' = bytes + (new.map Prd.size).sum
  whole : bytes' % sectorBytes = 0
  bound : bytes' ≤ maxBytes

variable {maxBytes n bytes : ℕ} {prdt : List Prd}

theorem TableFill.nil (hb : bytes % sectorBytes = 0)
    (hle : bytes ≤ maxBytes) : TableFill maxBytes n bytes prdt bytes prdt [] :=
  ⟨(append_nil _).symm, Nat.zero_le _, by simp, rfl, hb, hle⟩

theorem TableFill.cons {bytes' : ℕ} {prdt' new : List Prd} {e : Prd}
    (hsize : e.size = take) (hsmall : take ≤ prdtMaxBytes)
    (h : TableFill maxBytes n (bytes + take) (prdt ++ [e]) bytes' prdt' new) :
    TableFill maxBytes (n + 1) bytes prdt bytes' prdt' (e :: new) := by
  refine ⟨by rw [h.prdt, append_assoc, singleton_append], Nat.succ_le_succ h.few, ?_, ?_, h.whole, h.bound⟩
  · intro e' he
    rcases mem_cons.mp he with rfl | he
    · exact hsize ▸ hsmall
    · exact h.small e' he
  · rw [h.bytes, map_cons, sum_cons, hsize, Nat.add_assoc]

def nextTake (avail left : ℕ) : ℕ := min (min avail prdtMaxBytes) left / sectorBytes * sectorBytes

theorem nextTake_le (avail left : ℕ) :
    nextTake avail left ≤ avail ∧ nextTake avail left ≤ prdtMaxBytes ∧ nextTake avail left ≤ left ∧
      nextTake avail left % sectorBytes = 0 := by
  have h : nextTake avail left ≤ min (min avail prdtMaxBytes) left := Nat.div_mul_le_self _ _
  exact ⟨by omega, by omega, by omega, Nat.mul_mod_left _ _⟩

theorem nextTake_pos {avail left : ℕ} (ha : sectorBytes ≤ avail) (hl : sectorBytes ≤ left) :
    0 < nextTake avail left := by
  unfold nextTake
  apply Nat.mul_pos _ (by decide)
  exact Nat.div_pos (by unfold sectorBytes prdtMaxBytes at *; omega) (by decide)

theorem fillLoop_succ (maxBytes n bytes : ℕ) (cur : SgCursor) (prdt : List Prd) :
    fillLoop maxBytes (n + 1) cur bytes prdt = if bytes < maxBytes then
        match skipDone cur.rest cur.off with
        | ⟨[], off⟩ => (⟨[], off⟩, bytes, prdt)
        | ⟨e :: rest, off⟩ =>
          if nextTake (e.len.toNat - off) (maxBytes - bytes) = 0 then (⟨e :: rest, off⟩, bytes, prdt)
          else fillLoop maxBytes n ⟨e :: rest, off + nextTake (e.len.toNat - off) (maxBytes - bytes)⟩
            (bytes + nextTake (e.len.toNat - off) (maxBytes - bytes))
            (prdt ++ [Prd.entry (e.addr + UInt64.ofNat off) (nextTake (e.len.toNat - off) (maxBytes - bytes))])
      else (cur, bytes, prdt) := rfl

theorem fillLoop_fills (maxBytes n : ℕ) (cur : SgCursor) (bytes : ℕ) (prdt : List Prd)
    (hb : bytes % sectorBytes = 0) (hle : bytes ≤ maxBytes) :
    ∃ new, TableFill maxBytes n bytes prdt (fillLoop maxBytes n cur bytes prdt).2.1
      (fillLoop maxBytes n cur bytes prdt).2.2 new := by
  induction n generalizing cur bytes prdt with
  | zero => exact ⟨[], TableFill.nil hb hle⟩
  | succ n ih =>
    rw [fillLoop_succ]
    split
    · split
      · exact ⟨[], TableFill.nil hb hle⟩
      · rename_i e rest off _
        obtain ⟨-, h2, h3, h4⟩ := nextTake_le (e.len.toNat - off) (maxBytes - bytes)
        generalize nextTake (e.len.toNat - off) (maxBytes - bytes) = take at h2 h3 h4 ⊢
        split
        · exact ⟨[], TableFill.nil hb hle⟩
        rename_i hne
        obtain ⟨new, hnew⟩ := ih ⟨e :: rest, off + take⟩ (bytes + take)
          (prdt ++ [Prd.entry (e.addr + UInt64.ofNat off) take])
          (by unfold sectorBytes at *; omega) (by omega)
        exact ⟨_, hnew.cons (Prd.size_entry _ (Nat.pos_of_ne_zero hne) h2) h2⟩
    · exact ⟨[], TableFill.nil hb hle⟩

variable {cur : SgCursor}

/-- On a list of whole sectors the entries describe the bytes before the cursor, one after the
other. -/
theorem SgCursor.Ok.fillLoop (maxBytes n : ℕ) (hok : cur.Ok) (bytes : ℕ) (prdt : List Prd) :
    (fillLoop maxBytes n cur bytes prdt).1.Ok ∧ (fillLoop maxBytes n cur bytes prdt).2.2.flatMap Prd.bytes ++
        (fillLoop maxBytes n cur bytes prdt).1.bytes = prdt.flatMap Prd.bytes ++ cur.bytes := by
  induction n generalizing cur bytes prdt with
  | zero => exact ⟨hok, rfl⟩
  | succ n ih =>
    rw [fillLoop_succ]
    split
    · obtain ⟨hskip, hbytes⟩ := hok.skip
      have hin := skipDone_inside cur.rest cur.off
      split
      · rename_i off heq
        rw [heq] at hskip hbytes
        exact ⟨hskip, by rw [hbytes]⟩
      rename_i e rest off heq
      rw [heq] at hskip hbytes hin
      have hoff : off < e.len.toNat := hin e rfl
      obtain ⟨h1, h2, -, h4⟩ := nextTake_le (e.len.toNat - off) (maxBytes - bytes)
      generalize nextTake (e.len.toNat - off) (maxBytes - bytes) = take at h1 h2 h4 ⊢
      split
      · exact ⟨hskip, by rw [hbytes]⟩
      rename_i hne
      have hnext : (SgCursor.mk (e :: rest) (off + take)).Ok := by
        refine ⟨hskip.whole, ?_, ?_⟩
        · have := hskip.off
          unfold sectorBytes at *
          dsimp only at this ⊢
          omega
        · intro e' he
          obtain rfl : e = e' := by simpa using he
          dsimp only
          omega
      obtain ⟨hok', hall⟩ := ih hnext (bytes + take)
        (prdt ++ [Prd.entry (e.addr + UInt64.ofNat off) take])
      refine ⟨hok', hall.trans ?_⟩
      rw [flatMap_append, flatMap_singleton, append_assoc,
        Prd.bytes_entry e (Nat.pos_of_ne_zero hne) h2 (by omega), ← hbytes,
        SgCursor.bytes_cons e rest (by omega), SgCursor.bytes_cons e rest (by omega),
        ← append_assoc ((e.bytes.drop off).take take), ← drop_drop,
        take_append_drop]
    · exact ⟨hok, rfl⟩

variable {e : AhciSg}

theorem fillLoop_pos (h : skipDone cur.rest cur.off = ⟨e :: rest, off⟩) (ha : sectorBytes ≤ e.len.toNat - off)
    (hmax : maxBytes % sectorBytes = 0) (hpos : 0 < maxBytes) :
    0 < (fillLoop maxBytes (n + 1) cur 0 []).2.1 := by
  have htake := nextTake_pos ha (show sectorBytes ≤ maxBytes - 0 by unfold sectorBytes at *; omega)
  obtain ⟨-, -, h3, h4⟩ := nextTake_le (e.len.toNat - off) (maxBytes - 0)
  rw [fillLoop_succ, if_pos hpos, h]
  dsimp only
  rw [if_neg (by omega)]
  generalize nextTake (e.len.toNat - off) (maxBytes - 0) = take at htake h3 h4 ⊢
  obtain ⟨new, hnew⟩ := fillLoop_fills maxBytes n ⟨e :: rest, off + take⟩ (0 + take)
    ([] ++ [Prd.entry (e.addr + UInt64.ofNat off) take]) (by rw [Nat.zero_add]; exact h4)
    (show 0 + take ≤ maxBytes by omega)
  have := hnew.bytes
  omega

/-- An element that is shorter than a sector ends the loop. -/
theorem fillLoop_short (h : skipDone cur.rest cur.off = ⟨e :: rest, off⟩) (ha : e.len.toNat - off < sectorBytes) :
    (fillLoop maxBytes (n + 1) cur 0 []).2.1 = 0 := by
  have htake : nextTake (e.len.toNat - off) (maxBytes - 0) = 0 := by
    have := nextTake_le (e.len.toNat - off) (maxBytes - 0)
    unfold sectorBytes at *
    omega
  rw [fillLoop_succ]
  split
  · rw [h]
    dsimp only
    rw [if_pos htake]
  · rfl

theorem map_modify_same {α β : Type} {f : α → α} {g : α → β} (h : ∀ e, g (f e) = g e) (l : List α)
    (k : ℕ) : (l.modify k f).map g = l.map g := by
  induction l generalizing k with
  | nil => cases k <;> rfl
  | cons a l ih =>
    cases k with
    | zero => rw [modify_zero_cons, map_cons, map_cons, h]
    | succ k => rw [modify_succ_cons, map_cons, map_cons, ih]

/-- The entries that `ahci_fill_prdt` leaves in the table. -/
structure Mapped (cur : SgCursor) (maxBytes : ℕ) (cur' : SgCursor) (mapped : ℕ) (prdt : List Prd) : Prop where
  few : prdt.length ≤ sgMaxPrdt
  small : ∀ e ∈ prdt, e.size ≤ prdtMaxBytes
  sum : (prdt.map Prd.size).sum = mapped
  whole : mapped % sectorBytes = 0
  pos : 0 < mapped
  bound : mapped ≤ maxBytes
  bytes : cur.Ok → cur'.Ok ∧ prdt.flatMap Prd.bytes ++ cur'.bytes = cur.bytes

variable {cur' : SgCursor} {mapped : ℕ}

theorem fillPrdt_spec
    (h : fillPrdt cur maxBytes = some (cur', mapped, prdt)) : Mapped cur maxBytes cur' mapped prdt := by
  unfold fillPrdt at h
  obtain ⟨new, hnew⟩ := fillLoop_fills maxBytes sgMaxPrdt cur 0 [] rfl (Nat.zero_le _)
  have hwhole := fun hok : cur.Ok => hok.fillLoop maxBytes sgMaxPrdt 0 []
  generalize fillLoop maxBytes sgMaxPrdt cur 0 [] = r at h hnew hwhole
  obtain ⟨cur₁, bytes, prdt₁⟩ := r
  dsimp only at h hnew hwhole
  split at h
  · exact absurd h (by simp)
  split at h
  · exact absurd h (by simp)
  rename_i hne
  obtain ⟨rfl, rfl, rfl⟩ : cur₁ = cur' ∧ bytes = mapped ∧
      prdt₁.modify (prdt₁.length - 1) (fun e => { e with i := true }) = prdt := by simpa using h
  obtain rfl : prdt₁ = new := by rw [hnew.prdt, nil_append]
  have hsize : (prdt₁.modify (prdt₁.length - 1) (fun e => { e with i := true })).map Prd.size = prdt₁.map Prd.size :=
    map_modify_same (f := fun e : Prd => { e with i := true }) (g := Prd.size) (fun _ => rfl) _ _
  have hbytes : (prdt₁.modify (prdt₁.length - 1) (fun e => { e with i := true })).map Prd.bytes = prdt₁.map Prd.bytes :=
    map_modify_same (f := fun e : Prd => { e with i := true }) (g := Prd.bytes) (fun _ => rfl) _ _
  refine ⟨by rw [length_modify]; exact hnew.few, fun e he => ?_, ?_, hnew.whole, by omega, hnew.bound, fun hok => ?_⟩
  · have hmem : e.size ∈ prdt₁.map Prd.size := hsize ▸ mem_map_of_mem he
    obtain ⟨e', he', heq⟩ := mem_map.mp hmem
    exact heq ▸ hnew.small e' he'
  · rw [hsize, hnew.bytes, Nat.zero_add]
  · obtain ⟨hok', hall⟩ := hwhole hok
    rw [flatMap_def, hbytes, ← flatMap_def]
    exact ⟨hok', hall⟩

/-- With a whole sector before the cursor and room for one, a table is filled. -/
theorem fillPrdt_isSome (hmax : maxBytes % sectorBytes = 0)
    (hpos : 0 < (fillLoop maxBytes sgMaxPrdt cur 0 []).2.1) : (fillPrdt cur maxBytes).isSome := by
  obtain ⟨new, hnew⟩ := fillLoop_fills maxBytes sgMaxPrdt cur 0 [] rfl (Nat.zero_le _)
  unfold fillPrdt
  rw [if_neg (not_not.mpr hmax)]
  generalize fillLoop maxBytes sgMaxPrdt cur 0 [] = r at hpos hnew ⊢
  obtain ⟨cur₁, bytes, prdt⟩ := r
  dsimp only at hpos hnew ⊢
  have hlen : prdt.length ≠ 0 := by
    intro hl
    have hnil : new = [] := by
      have := hnew.prdt
      rw [nil_append] at this
      rw [← this]
      exact eq_nil_of_length_eq_zero hl
    have := hnew.bytes
    rw [hnil] at this
    simp only [map_nil, sum_nil] at this
    omega
  rw [if_neg (by have := hnew.whole; omega)]
  rfl

theorem fillPrdt_none (h : (fillLoop maxBytes sgMaxPrdt cur 0 []).2.1 = 0) : fillPrdt cur maxBytes = none := by
  unfold fillPrdt
  split
  · rfl
  · dsimp only
    rw [if_pos (.inl h)]

/-- What a successful `ahci_submit_rw` has built. -/
structure Submitted (write : Bool) (lba : UInt64) (cur : SgCursor) (maxBytes : ℕ) (c : SgCommand)
    (cur' : SgCursor) (mapped : ℕ) : Prop where
  sound : c.Sound
  write : c.w = write
  lba : lba.toNat < 2 ^ 48 → c.cfis.lba = lba.toNat
  sectors : c.cfis.sectors * sectorBytes = mapped
  pos : 0 < mapped
  bound : mapped ≤ maxBytes
  bytes : cur.Ok → cur'.Ok ∧ c.bytes ++ cur'.bytes = cur.bytes

/-- The sectors of a command fit into the 16 bits they are cut to. -/
theorem sectors_fit (hmax : mapped ≤ sgMaxCmdSectors * sectorBytes) :
    (UInt16.ofNat (mapped / sectorBytes)).toNat = mapped / sectorBytes := by
  rw [UInt16.toNat_ofNat']
  unfold sgMaxCmdSectors sectorBytes at *
  omega

variable {ncq write : Bool} {slot : ℕ} {c : SgCommand}

theorem submitRw_spec (hmax : maxBytes ≤ sgMaxCmdSectors * sectorBytes)
    (h : submitRw ncq write slot lba cur maxBytes = some (c, cur', mapped)) :
    Submitted write lba cur maxBytes c cur' mapped := by
  unfold submitRw at h
  split at h
  · exact absurd h (by simp)
  split at h
  · exact absurd h (by simp)
  rename_i cur₁ bytes prdt hfill
  have hmap := fillPrdt_spec hfill
  dsimp only at h
  split at h
  · exact absurd h (by simp)
  obtain ⟨rfl, rfl, rfl⟩ := by simpa using h
  have hsec : (buildCfis write lba (UInt16.ofNat (bytes / sectorBytes)) slot ncq).sectors = bytes / sectorBytes := by
    rw [buildCfis_sectors, sectors_fit (hmap.bound.trans hmax)]
  have hexact : bytes / sectorBytes * sectorBytes = bytes :=
    Nat.div_mul_cancel (Nat.dvd_of_mod_eq_zero hmap.whole)
  refine ⟨⟨⟨rfl, hmap.few⟩, hmap.small, ?_, ?_⟩, rfl, fun hl => buildCfis_lba _ _ _ _ hl, ?_,
    hmap.pos, hmap.bound, hmap.bytes⟩
  · rw [hsec]
    exact Nat.div_le_of_le_mul (by rw [Nat.mul_comm]; exact hmap.bound.trans hmax)
  · rw [hsec, hexact, hmap.sum]
  · rw [hsec, hexact]

theorem submitRw_isSome (hmax : maxBytes ≤ sgMaxCmdSectors * sectorBytes) (hwhole : maxBytes % sectorBytes = 0)
    (hpos : 0 < (fillLoop maxBytes sgMaxPrdt cur 0 []).2.1) :
    ∃ r, submitRw ncq write slot lba cur maxBytes = some r := by
  obtain ⟨⟨cur', mapped, prdt⟩, hfill⟩ := Option.isSome_iff_exists.mp (fillPrdt_isSome hwhole hpos)
  have hmap := fillPrdt_spec hfill
  have hsec := sectors_fit (hmap.bound.trans hmax)
  have hne : UInt16.ofNat (mapped / sectorBytes) ≠ 0 := by
    intro h0
    rw [h0] at hsec
    have h1 := hmap.pos
    have h2 := hmap.whole
    unfold sectorBytes at *
    change 0 = mapped / 512 at hsec
    omega
  have hm : maxBytes ≠ 0 := by
    have h1 := hmap.pos
    have h2 := hmap.bound
    omega
  unfold submitRw
  rw [if_neg hm, hfill]
  dsimp only
  rw [if_neg hne]
  exact ⟨_, rfl⟩

/-! ## The commands of a call -/

theorem SgCommand.Sound.length_bytes (h : c.Sound) : c.bytes.length = c.cfis.sectors * sectorBytes := by
  have hsize : ∀ e : Prd, e.bytes.length = e.size := by simp [Prd.bytes]
  rw [h.sectors, SgCommand.bytes, length_flatMap]
  simp only [hsize]

namespace SgIssue

variable {d : AhciDrive} {s s' : SgIssue} {write : Bool} {first : ℕ} {sg : List AhciSg}

theorem maxBytes_le (s : SgIssue) : s.maxBytes ≤ s.remaining % 2 ^ 32 ∧ s.maxBytes ≤ sgMaxCmdSectors * sectorBytes ∧
      s.maxBytes % sectorBytes = 0 := by
  have h : s.maxBytes ≤ min (min (s.remaining % 2 ^ 32) (sgMaxCmdSectors * sectorBytes))
    (sgMaxPrdt * prdtMaxBytes) := Nat.div_mul_le_self _ _
  exact ⟨by omega, by omega, Nat.mul_mod_left _ _⟩

theorem maxBytes_pos (h : s.remaining % sectorBytes = 0) (hne : s.remaining % 2 ^ 32 ≠ 0) : 0 < s.maxBytes := by
  unfold maxBytes
  apply Nat.mul_pos _ (by decide)
  exact Nat.div_pos (by unfold sectorBytes sgMaxPrdt prdtMaxBytes sgMaxCmdSectors at *; omega) (by decide)

def sectorsOf (cmds : List SgCommand) : ℕ := (cmds.map fun b => b.cfis.sectors).sum

theorem sectorsOf_append (cmds : List SgCommand) (c : SgCommand) :
    sectorsOf (cmds ++ [c]) = sectorsOf cmds + c.cfis.sectors := by
  simp [sectorsOf]

/-- The list is what the commands so far transfer and what the cursor has before it. -/
structure SplitSoFar (write : Bool) (first : ℕ) (sg : List AhciSg) (s : SgIssue) : Prop where
  cursor : s.cur.Ok
  bytes : s.issued.flatMap SgCommand.bytes ++ s.cur.bytes = sg.flatMap AhciSg.bytes
  left : s.cur.bytes.length = s.remaining
  sound : ∀ c ∈ s.issued, c.Sound ∧ c.w = write
  consecutive : ∀ before c after, s.issued = before ++ c :: after → c.cfis.lba = first + sectorsOf before
  lba : s.lba.toNat = first + sectorsOf s.issued
  near : first + sectorsOf s.issued + s.remaining / sectorBytes < 2 ^ 48
  whole : s.remaining % sectorBytes = 0

/-- Only the slots and the counters differ. -/
structure Same (s s' : SgIssue) : Prop where
  cur : s'.cur = s.cur
  remaining : s'.remaining = s.remaining
  lba : s'.lba = s.lba
  issued : s'.issued = s.issued

theorem Same.rfl' : Same s s := ⟨rfl, rfl, rfl, rfl⟩

theorem Same.trans {s'' : SgIssue} (h : Same s s') (h' : Same s' s'') : Same s s'' :=
  ⟨h'.cur.trans h.cur, h'.remaining.trans h.remaining, h'.lba.trans h.lba, h'.issued.trans h.issued⟩

theorem same_look : Same s (s.look d) := ⟨rfl, rfl, rfl, rfl⟩

theorem SplitSoFar.same (h : SplitSoFar write first sg s) (hs : Same s s') : SplitSoFar write first sg s' := by
  obtain ⟨h1, h2, h3, h4⟩ := hs
  exact ⟨h1 ▸ h.cursor, by rw [h1, h4]; exact h.bytes, by rw [h1, h2]; exact h.left,
    by rw [h4]; exact h.sound, by rw [h4]; exact h.consecutive, by rw [h3, h4]; exact h.lba,
    by rw [h2, h4]; exact h.near, by rw [h2]; exact h.whole⟩

variable {mapped : ℕ} {c : SgCommand} {cur : SgCursor}

theorem SplitSoFar.put (slot : ℕ) (h : SplitSoFar write first sg s) (hsub : Submitted write s.lba s.cur s.maxBytes c cur mapped) :
    SplitSoFar write first sg (s.put slot c cur mapped) ∧ (s.put slot c cur mapped).remaining < s.remaining := by
  obtain ⟨hok, hbytes⟩ := hsub.bytes h.cursor
  have hlen := congrArg length hbytes
  rw [length_append, hsub.sound.length_bytes, hsub.sectors, h.left] at hlen
  have hsec := hsub.sectors
  have hpos := hsub.pos
  have hnear := h.near
  have hlba := h.lba
  have hdiv : mapped / sectorBytes = c.cfis.sectors := by
    rw [← hsec]
    exact Nat.mul_div_cancel _ (by decide)
  have hnext : (s.lba + UInt64.ofNat (mapped / sectorBytes)).toNat = first + sectorsOf (s.issued ++ [c]) := by
    rw [sectorsOf_append, hdiv, UInt64.toNat_add, UInt64.toNat_ofNat', hlba]
    unfold sectorBytes at *
    omega
  refine ⟨⟨hok, ?_, ?_, ?_, ?_, hnext, ?_, ?_⟩, ?_⟩
  · show (s.issued ++ [c]).flatMap SgCommand.bytes ++ cur.bytes = _
    rw [flatMap_append, flatMap_singleton, append_assoc, hbytes]
    exact h.bytes
  · show cur.bytes.length = s.remaining - mapped
    omega
  · intro c' hc
    rcases mem_append.mp hc with hc | hc
    · exact h.sound c' hc
    · obtain rfl := mem_singleton.mp hc
      exact ⟨hsub.sound, hsub.write⟩
  · intro before c' after heq
    change s.issued ++ [c] = before ++ c' :: after at heq
    rcases eq_nil_or_concat after with rfl | ⟨after, x, rfl⟩
    · obtain ⟨rfl, hc⟩ := append_inj' heq rfl
      obtain rfl : c = c' := by simpa using hc
      rw [hsub.lba (by unfold sectorBytes at *; omega), hlba]
    · rw [concat_eq_append, ← cons_append, ← append_assoc] at heq
      exact h.consecutive before c' after (append_inj_left' heq rfl)
  · show first + sectorsOf (s.issued ++ [c]) + (s.remaining - mapped) / sectorBytes < 2 ^ 48
    rw [sectorsOf_append]
    unfold sectorBytes at *
    omega
  · have := h.whole
    show (s.remaining - mapped) % sectorBytes = 0
    unfold sectorBytes at *
    omega
  · show s.remaining - mapped < s.remaining
    omega

/-- While fewer than 2^32 bytes are left, the next command can be built. -/
theorem SplitSoFar.submit (ncq : Bool) (h : SplitSoFar write first sg s) (hrem : s.remaining ≠ 0)
    (hsmall : s.remaining < 2 ^ 32) (slot : ℕ) :
    ∃ r, submitRw ncq write slot s.lba s.cur s.maxBytes = some r := by
  obtain ⟨-, hmax, hmult⟩ := s.maxBytes_le
  have hpos := maxBytes_pos h.whole (by omega)
  obtain ⟨hok, hbytes⟩ := h.cursor.skip
  have hin := skipDone_inside s.cur.rest s.cur.off
  refine submitRw_isSome hmax hmult ?_
  rcases hskip : skipDone s.cur.rest s.cur.off with ⟨_ | ⟨e, rest⟩, off⟩
  · have hnil : s.cur.bytes = [] := by
      rw [hskip] at hbytes
      rw [← show (SgCursor.mk s.cur.rest s.cur.off).bytes = s.cur.bytes from rfl, ← hbytes]
      simp [SgCursor.bytes]
    have := h.left
    rw [hnil] at this
    exact absurd this.symm hrem
  · rw [hskip] at hok hin
    have h1 := hin e rfl
    have h2 := hok.whole e (by simp)
    have h3 := hok.off
    dsimp only at h1 h3
    exact fillLoop_pos hskip (by unfold sectorBytes at *; omega) hmult hpos

variable {slot : ℕ}

theorem batch_succ (hrem : s.remaining ≠ 0) (hready : d.ready s.looks = true) (hslot : (s.look d).findSlot = some slot)
    (hsub : submitRw d.ncqSupported write slot s.lba s.cur s.maxBytes = some (c, cur, mapped))
    (n : ℕ) (pending : List ℕ) :
    batch d write (n + 1) s pending = batch d write n ((s.look d).put slot c cur mapped) (pending ++ [slot]) := by
  have hmax : s.maxBytes ≠ 0 := by
    intro h0
    unfold submitRw at hsub
    rw [if_pos h0] at hsub
    exact absurd hsub (by simp)
  conv_lhs => unfold batch
  rw [if_neg hrem, hready, hslot]
  simp only [Bool.not_true, Bool.and_false, Bool.false_eq_true, if_false]
  rw [if_neg hmax, hsub]

theorem batch_full (hrem : s.remaining ≠ 0) (hready : d.ready s.looks = true)
    (hslot : (s.look d).findSlot = none) (n : ℕ) (pending : List ℕ) :
    batch d write (n + 1) s pending = (s.look d, some pending) := by
  unfold batch
  rw [if_neg hrem, hready, hslot]
  simp only [Bool.not_true, Bool.and_false, Bool.false_eq_true, if_false]

theorem batch_refused (hrem : s.remaining ≠ 0) (hready : d.ready s.looks = true)
    (hslot : (s.look d).findSlot = some slot)
    (hsub : submitRw d.ncqSupported write slot s.lba s.cur s.maxBytes = none) (n : ℕ)
    (pending : List ℕ) : batch d write (n + 1) s pending = (s.look d, none) := by
  unfold batch
  rw [if_neg hrem, hready, hslot]
  simp only [Bool.not_true, Bool.and_false, Bool.false_eq_true, if_false]
  split
  · rfl
  · rw [hsub]

theorem SplitSoFar.submitted {ncq : Bool} (hsub : submitRw ncq write slot s.lba s.cur s.maxBytes = some (c, cur, mapped)) :
    Submitted write (s.look d).lba (s.look d).cur (s.look d).maxBytes c cur mapped :=
  submitRw_spec s.maxBytes_le.2.1 hsub

theorem SplitSoFar.batch (hd : d.Completes) (n : ℕ) (h : SplitSoFar write first sg s)
    (hsmall : s.remaining < 2 ^ 32) (pending : List ℕ) :
    ∃ s' more, batch d write n s pending = (s', some (pending ++ more)) ∧ SplitSoFar write first sg s' ∧
      s'.remaining ≤ s.remaining := by
  induction n generalizing s pending with
  | zero => exact ⟨s, [], by rw [append_nil]; rfl, h, le_rfl⟩
  | succ n ih =>
    by_cases hrem : s.remaining = 0
    · refine ⟨s, [], ?_, h, le_rfl⟩
      unfold SgIssue.batch
      rw [if_pos hrem, append_nil]
    cases hslot : (s.look d).findSlot with
    | none =>
      refine ⟨s.look d, [], ?_, h.same same_look, le_rfl⟩
      rw [batch_full hrem (hd.ready _) hslot, append_nil]
    | some slot =>
      obtain ⟨⟨c, cur, mapped⟩, hsub⟩ := h.submit d.ncqSupported hrem hsmall slot
      obtain ⟨hput, hlt⟩ := (h.same (same_look (d := d))).put slot (SplitSoFar.submitted hsub)
      have hlt : ((s.look d).put slot c cur mapped).remaining < s.remaining := hlt
      obtain ⟨s', more, heq, hinv, hle⟩ := ih hput (by omega) (pending ++ [slot])
      refine ⟨s', slot :: more, ?_, hinv, by omega⟩
      rw [batch_succ hrem (hd.ready _) hslot hsub, heq, append_assoc, singleton_append]

theorem SplitSoFar.batch_progress (hd : d.Completes) {n : ℕ} (h : SplitSoFar write first sg s)
    (hrem : s.remaining ≠ 0) (hsmall : s.remaining < 2 ^ 32)
    (hslot : (s.look d).findSlot = some slot) :
    ∃ s' more, SgIssue.batch d write (n + 1) s [] = (s', some (slot :: more)) ∧
      SplitSoFar write first sg s' ∧ s'.remaining < s.remaining := by
  obtain ⟨⟨c, cur, mapped⟩, hsub⟩ := h.submit d.ncqSupported hrem hsmall slot
  obtain ⟨hput, hlt⟩ := (h.same (same_look (d := d))).put slot (SplitSoFar.submitted hsub)
  have hlt : ((s.look d).put slot c cur mapped).remaining < s.remaining := hlt
  obtain ⟨s', more, heq, hinv, hle⟩ := hput.batch hd n (by omega) [slot]
  refine ⟨s', more, ?_, hinv, by omega⟩
  rw [batch_succ hrem (hd.ready _) hslot hsub]
  exact heq

theorem waitAll_same (pending : List ℕ) (s : SgIssue) : Same s (waitAll d pending s).1 := by
  induction pending generalizing s with
  | nil => exact ⟨rfl, rfl, rfl, rfl⟩
  | cons slot pending ih =>
    unfold waitAll
    dsimp only
    split
    · have hstep : Same s { s with busy := Function.update s.busy slot false, waits := s.waits + 1 } :=
        ⟨rfl, rfl, rfl, rfl⟩
      exact hstep.trans (ih _)
    · exact ⟨rfl, rfl, rfl, rfl⟩

theorem waitAll_true (hd : d.Completes) (pending : List ℕ) (s : SgIssue) : (waitAll d pending s).2 = true := by
  induction pending generalizing s with
  | nil => rfl
  | cons slot pending ih =>
    unfold waitAll
    rw [if_pos (hd.waited _)]
    exact ih _

variable {depth : ℕ}

theorem loop_poll (hd : d.Completes) (hdepth : 0 < depth) (hrem : s.remaining ≠ 0)
    (hslot : (s.look d).findSlot = none) (n : ℕ) :
    loop d write depth (n + 1) s = loop d write depth n (s.look d) := by
  obtain ⟨k, rfl⟩ : ∃ k, depth = k + 1 := ⟨depth - 1, by omega⟩
  conv_lhs => unfold loop
  rw [if_neg hrem, batch_full hrem (hd.ready _) hslot]

theorem reaches_slot (write : Bool) (hd : d.Completes) (hdepth : 0 < depth) (hrem : s.remaining ≠ 0) :
    ∃ k s' slot, Same s s' ∧ (s'.look d).findSlot = some slot ∧
      ∀ n, loop d write depth (n + k) s = loop d write depth n s' := by
  obtain ⟨m, hm, hfin⟩ := hd.finishes s.looks 0
  obtain ⟨gap, hgap⟩ : ∃ gap, m = s.looks + gap := ⟨m - s.looks, by omega⟩
  induction gap generalizing s with
  | zero =>
    have hfree : (s.look d).busy 0 = false := by
      obtain rfl : m = s.looks := by omega
      simp [look, hfin]
    cases hslot : (s.look d).findSlot with
    | some slot => exact ⟨0, s, slot, Same.rfl', hslot, fun n => rfl⟩
    | none =>
      have := find?_eq_none.mp hslot 0 (by simp)
      simp [hfree] at this
  | succ gap ih =>
    cases hslot : (s.look d).findSlot with
    | some slot => exact ⟨0, s, slot, Same.rfl', hslot, fun n => rfl⟩
    | none =>
      have hlooks : (s.look d).looks = s.looks + 1 := rfl
      obtain ⟨k, s', slot, hsame, hfree, heq⟩ := ih (s := s.look d) hrem (by omega) (by omega)
      refine ⟨k + 1, s', slot, same_look.trans hsame, hfree, fun n => ?_⟩
      rw [← Nat.add_assoc, loop_poll hd hdepth hrem hslot, heq]

theorem SplitSoFar.loop (hd : d.Completes) (hdepth : 0 < depth) (h : SplitSoFar write first sg s) (hsmall : s.remaining < 2 ^ 32) :
    ∃ fuel cmds, loop d write depth fuel s = some (0, cmds) ∧ Transfers write first sg cmds := by
  induction hr : s.remaining using Nat.strong_induction_on generalizing s with
  | _ r ih =>
    by_cases hrem : s.remaining = 0
    · refine ⟨1, s.issued, ?_, ?_, h.sound, h.consecutive⟩
      · unfold SgIssue.loop
        rw [if_pos hrem]
      · have hnil := eq_nil_of_length_eq_zero (h.left.trans hrem)
        rw [← h.bytes, hnil, append_nil]
    obtain ⟨k, s₁, slot, hsame, hslot, heq⟩ := reaches_slot write hd hdepth hrem
    have hrem₁ := hsame.remaining
    obtain ⟨j, rfl⟩ : ∃ j, depth = j + 1 := ⟨depth - 1, by omega⟩
    obtain ⟨s₂, more, hbatch, hinv, hlt⟩ :=
      (h.same hsame).batch_progress (n := j) hd (by omega) (by omega) hslot
    have hwait := waitAll_true hd (slot :: more) s₂
    have hsame₂ := waitAll_same (d := d) (slot :: more) s₂
    rcases hres : waitAll d (slot :: more) s₂ with ⟨s₃, ok⟩
    rw [hres] at hwait hsame₂
    dsimp only at hwait hsame₂
    subst hwait
    have hrem₃ := hsame₂.remaining
    obtain ⟨fuel, cmds, hloop, htr⟩ :=
      ih s₃.remaining (by omega) (hinv.same hsame₂) (by omega) rfl
    refine ⟨fuel + 1 + k, cmds, ?_, htr⟩
    rw [heq]
    conv_lhs => unfold SgIssue.loop
    rw [if_neg (by omega), hbatch]
    dsimp only
    rw [hres]
    exact hloop

/-- A part of 2^32 bytes that the first cut forgets is never transferred. -/
theorem batch_large (d : AhciDrive) (write : Bool) (n : ℕ) (s : SgIssue) (pending : List ℕ)
    (h : 2 ^ 32 ≤ s.remaining) : 2 ^ 32 ≤ (batch d write n s pending).1.remaining := by
  induction n generalizing s pending with
  | zero => exact h
  | succ n ih =>
    unfold batch
    split
    · exact h
    split
    · exact h
    split
    · exact h
    split
    · exact h
    split
    · exact h
    rename_i slot _ _ _ c cur mapped hsub
    have hb := (SplitSoFar.submitted (d := d) hsub).bound
    have hm := (s.look d).maxBytes_le.1
    have hrem : (s.look d).remaining = s.remaining := rfl
    rw [hrem] at hm
    apply ih
    show 2 ^ 32 ≤ s.remaining - mapped
    omega

variable {fuel : ℕ} {r : ℤ} {cmds : List SgCommand}

theorem loop_large (h : 2 ^ 32 ≤ s.remaining) (hr : loop d write depth fuel s = some (r, cmds)) : r = -1 := by
  induction fuel generalizing s with
  | zero => exact absurd hr (by simp [loop])
  | succ fuel ih =>
    have hbatch := batch_large d write depth s [] h
    unfold loop at hr
    rw [if_neg (by omega)] at hr
    rcases hres : batch d write depth s [] with ⟨s₁, _ | _ | ⟨slot, more⟩⟩
    · rw [hres] at hr
      simp only [Option.some.injEq, Prod.mk.injEq] at hr
      exact hr.1.symm
    · rw [hres] at hr hbatch
      exact ih hbatch hr
    · rw [hres] at hr hbatch
      dsimp only at hr hbatch
      have hsame := waitAll_same (d := d) (slot :: more) s₁
      rcases hwait : waitAll d (slot :: more) s₁ with ⟨s₂, _ | _⟩
      · rw [hwait] at hr
        simp only [Option.some.injEq, Prod.mk.injEq] at hr
        exact hr.1.symm
      · rw [hwait] at hr hsame
        exact ih (by rw [hsame.remaining]; exact hbatch) hr

/-- Where the first command cannot be built, the call returns -1 and has issued nothing. -/
theorem loop_refuses (hd : d.Completes) (hdepth : 0 < depth) (hrem : s.remaining ≠ 0)
    (hsub : ∀ slot, submitRw d.ncqSupported write slot s.lba s.cur s.maxBytes = none) :
    ∃ fuel, loop d write depth fuel s = some (-1, s.issued) := by
  obtain ⟨k, s₁, slot, hsame, hslot, heq⟩ := reaches_slot write hd hdepth hrem
  obtain ⟨j, rfl⟩ : ∃ j, depth = j + 1 := ⟨depth - 1, by omega⟩
  obtain ⟨h1, h2, h3, h4⟩ := hsame
  have hmax : s₁.maxBytes = s.maxBytes := by
    unfold maxBytes
    rw [h2]
  have hbatch : batch d write (j + 1) s₁ [] = _ := batch_refused (by omega) (hd.ready s₁.looks) hslot
    (by rw [h1, h3, hmax]; exact hsub slot) j []
  refine ⟨0 + 1 + k, ?_⟩
  rw [heq]
  unfold loop
  rw [if_neg (by omega), hbatch]
  exact congrArg some (congrArg (Prod.mk (-1)) h4)

theorem batch_issued (d : AhciDrive) (write : Bool) (n : ℕ) (s : SgIssue) (pending : List ℕ)
    (h : s.issued ≠ []) : (batch d write n s pending).1.issued ≠ [] := by
  induction n generalizing s pending with
  | zero => exact h
  | succ n ih =>
    unfold batch
    split
    · exact h
    split
    · exact h
    split
    · exact h
    split
    · exact h
    split
    · exact h
    · exact ih _ _ (append_ne_nil_of_left_ne_nil h _)

/-- Where the first command can be built, no call returns without having issued it. -/
theorem loop_issues {s₀ : SgIssue} (hd : d.Completes) (hdepth : 0 < depth) (hrem : s₀.remaining ≠ 0)
    (hsub : ∀ slot, ∃ r, submitRw d.ncqSupported write slot s₀.lba s₀.cur s₀.maxBytes = some r)
    (h : s.issued ≠ [] ∨ Same s₀ s) (hr : loop d write depth fuel s = some (r, cmds)) :
    cmds ≠ [] := by
  obtain ⟨j, rfl⟩ : ∃ j, depth = j + 1 := ⟨depth - 1, by omega⟩
  have hbatch : ∀ s : SgIssue, s.issued ≠ [] ∨ Same s₀ s →
      (batch d write (j + 1) s []).1.issued ≠ [] ∨ ∃ s', Same s₀ s' ∧ batch d write (j + 1) s [] = (s', some []) := by
    rintro s (h | ⟨h1, h2, h3, h4⟩)
    · exact .inl (batch_issued d write _ s [] h)
    · have hrem : s.remaining ≠ 0 := by omega
      have hmax : s.maxBytes = s₀.maxBytes := by
        unfold maxBytes
        rw [h2]
      cases hslot : (s.look d).findSlot with
      | none =>
        exact .inr ⟨s.look d, ⟨h1, h2, h3, h4⟩, batch_full hrem (hd.ready _) hslot _ _⟩
      | some slot =>
        obtain ⟨⟨c, cur, mapped⟩, hsub⟩ := hsub slot
        rw [← h1, ← h3, ← hmax] at hsub
        rw [batch_succ hrem (hd.ready _) hslot hsub]
        exact .inl (batch_issued d write _ _ _ (append_ne_nil_of_right_ne_nil _ (by simp)))
  induction fuel generalizing s with
  | zero => exact absurd hr (by simp [loop])
  | succ fuel ih =>
    unfold loop at hr
    split at hr
    · obtain ⟨-, rfl⟩ := by simpa using hr
      rcases h with h | h
      · exact h
      · exact absurd h.remaining (by omega)
    rcases hbatch s h with hissued | ⟨s', hsame, heq⟩
    · rcases hres : batch d write (j + 1) s [] with ⟨s₁, _ | _ | ⟨slot, more⟩⟩
      · rw [hres] at hr hissued
        obtain ⟨-, rfl⟩ := by simpa using hr
        exact hissued
      · rw [hres] at hr hissued
        exact ih (.inl hissued) hr
      · rw [hres] at hr hissued
        dsimp only at hr hissued
        have hsame := waitAll_same (d := d) (slot :: more) s₁
        rcases hwait : waitAll d (slot :: more) s₁ with ⟨s₂, _ | _⟩
        · rw [hwait] at hr hsame
          obtain ⟨-, rfl⟩ := by simpa using hr
          rw [hsame.issued]
          exact hissued
        · rw [hwait] at hr hsame
          exact ih (.inl (by rw [hsame.issued]; exact hissued)) hr
    · rw [heq] at hr
      exact ih (.inr hsame) hr

end SgIssue
/-! ## Which calls are exact -/

def FirstShort (sg : List AhciSg) : Prop :=
  ∀ e ∈ (sg.dropWhile fun e => e.len = 0).head?, e.len.toNat < sectorBytes

/-- A list of whole sectors is transferred and 0 is returned; any other list is refused with -1
before a command is issued. -/
def TransferExact (d : AhciDrive) (write : Bool) (lba sectorCount : UInt32) (sg : List AhciSg) : Prop :=
  (WholeSectors sectorCount sg → ∃ fuel cmds, ahciIssueRwSg d write lba sectorCount sg fuel = some (0, cmds) ∧
        Transfers write lba.toNat sg cmds) ∧
    (¬ WholeSectors sectorCount sg → ∃ fuel, ahciIssueRwSg d write lba sectorCount sg fuel = some (-1, []))

theorem skipDone_zero (sg : List AhciSg) : skipDone sg 0 = ⟨sg.dropWhile fun e => e.len = 0, 0⟩ := by
  induction sg with
  | nil => rfl
  | cons e sg ih =>
    have hiff : 0 ≥ e.len.toNat ↔ e.len = 0 := by
      rw [ge_iff_le, Nat.le_zero]
      exact ⟨fun h => UInt32.toNat_inj.mp h, fun h => by rw [h]; rfl⟩
    unfold skipDone
    by_cases h : e.len = 0
    · rw [if_pos (hiff.mpr h), ih, dropWhile_cons_of_pos (by simpa using h)]
    · rw [if_neg fun hge => h (hiff.mp hge), dropWhile_cons_of_neg (by simpa using h)]

theorem firstElement (sg : List AhciSg) : (∀ e ∈ sg, e.len = 0) ∨
    ∃ e rest, (sg.dropWhile fun e => e.len = 0) = e :: rest ∧ e ∈ sg ∧ e.len ≠ 0 := by
  induction sg with
  | nil => exact .inl (by simp)
  | cons e sg ih =>
    by_cases h : e.len = 0
    · rw [dropWhile_cons_of_pos (by simpa using h)]
      rcases ih with hall | ⟨e', rest, hdrop, hmem, hne⟩
      · exact .inl (forall_mem_cons.mpr ⟨h, hall⟩)
      · exact .inr ⟨e', rest, hdrop, mem_cons_of_mem e hmem, hne⟩
    · rw [dropWhile_cons_of_neg (by simpa using h)]
      exact .inr ⟨e, sg, rfl, by simp, h⟩

theorem sum_lens_lt {sg : List AhciSg} (h : sg.length < 2 ^ 32) : (sg.map fun e => e.len.toNat).sum < 2 ^ 64 := by
  have hle : (sg.map fun e => e.len.toNat).sum ≤ sg.length * 2 ^ 32 := by
    clear h
    induction sg with
    | nil => exact le_rfl
    | cons e sg ih =>
      have := e.len.toNat_lt
      rw [map_cons, sum_cons, length_cons]
      omega
  omega

theorem length_bytes_list (sg : List AhciSg) :
    (sg.flatMap AhciSg.bytes).length = (sg.map fun e => e.len.toNat).sum := by
  rw [length_flatMap]
  simp only [AhciSg.length_bytes]

variable {d : AhciDrive} {write : Bool} {lba sectorCount : UInt32} {sg : List AhciSg}

theorem AhciDrive.depth_pos (d : AhciDrive) : 0 < d.depth := by
  have hmin : ∀ n : ℕ, 0 < min (if n = 0 then 1 else n) 32 := by
    intro n
    split <;> omega
  exact hmin _

theorem start_inv (write : Bool) (lba : UInt32) (h : WholeSectors sectorCount sg) :
    (d.start lba sectorCount sg).SplitSoFar write lba.toNat sg := by
  have hlba := lba.toNat_lt
  have hcount := sectorCount.toNat_lt
  refine ⟨⟨h.1, rfl, fun _ _ => Nat.zero_le _⟩, rfl, ?_, by simp [AhciDrive.start], ?_, ?_, ?_, ?_⟩
  · exact (length_bytes_list sg).trans h.2
  · intro before c after heq
    exact absurd heq (by simp [AhciDrive.start])
  · rfl
  · show lba.toNat + 0 + sectorCount.toNat * sectorBytes / sectorBytes < 2 ^ 48
    unfold sectorBytes
    omega
  · exact Nat.mul_mod_left _ _

theorem ahciIssueRwSg_loop (hd : d.Completes) (hlen : sg.length < 2 ^ 32) (hcount : sectorCount ≠ 0)
    (hsum : (sg.map fun e => e.len.toNat).sum = sectorCount.toNat * sectorBytes) (fuel : ℕ) :
    ahciIssueRwSg d write lba sectorCount sg fuel = (d.start lba sectorCount sg).loop d write d.depth fuel := by
  have hpos : sectorCount.toNat ≠ 0 := fun h => hcount (UInt32.toNat_inj.mp h)
  have hne : sg.length ≠ 0 := by
    intro h0
    rw [eq_nil_of_length_eq_zero h0] at hsum
    simp only [map_nil, sum_nil] at hsum
    unfold sectorBytes at hsum
    omega
  have htotal : totalSgBytes sg = sectorCount.toNat * sectorBytes := by
    unfold totalSgBytes
    rw [Nat.mod_eq_of_lt (sum_lens_lt hlen), hsum]
  unfold ahciIssueRwSg
  rw [if_neg (by simp [hd.present, hne, hcount]), if_neg (not_not.mpr htotal)]

/-- A list with the right sum that is not of whole sectors is refused if and only if the first
command cannot be built. -/
theorem firstCommand (hd : d.Completes) (hlen : sg.length < 2 ^ 32) (hw : ¬ WholeSectors sectorCount sg)
    (hsum : (sg.map fun e => e.len.toNat).sum = sectorCount.toNat * sectorBytes) :
    (∃ fuel, ahciIssueRwSg d write lba sectorCount sg fuel = some (-1, [])) ↔
      sectorCount.toNat % 2 ^ 23 = 0 ∨ FirstShort sg := by
  obtain ⟨e, rest, hdrop, hmem, hne⟩ := (firstElement sg).resolve_left fun hall =>
    hw ⟨fun e he => by rw [hall e he]; rfl, hsum⟩
  have hpos : e.len.toNat ≠ 0 := fun h => hne (UInt32.toNat_inj.mp h)
  have hcount : sectorCount ≠ 0 := by
    rintro rfl
    have hzero := List.sum_eq_zero_iff_forall_eq_nat.mp (hsum.trans (Nat.zero_mul _))
    exact hpos (hzero _ (mem_map_of_mem hmem))
  set s := d.start lba sectorCount sg with hs
  have hskip : skipDone s.cur.rest s.cur.off = ⟨e :: rest, 0⟩ := by
    show skipDone sg 0 = _
    rw [skipDone_zero, hdrop]
  have hremaining : s.remaining = sectorCount.toNat * sectorBytes := rfl
  have hrem : s.remaining ≠ 0 := by
    have : sectorCount.toNat ≠ 0 := fun h => hcount (UInt32.toNat_inj.mp h)
    rw [hremaining]
    unfold sectorBytes
    omega
  have hwhole : s.remaining % sectorBytes = 0 := Nat.mul_mod_left _ _
  have hcut : s.remaining % 2 ^ 32 = 0 ↔ sectorCount.toNat % 2 ^ 23 = 0 := by
    rw [hremaining]
    unfold sectorBytes
    omega
  obtain ⟨hcut0, hmax, hmult⟩ := s.maxBytes_le
  have hfirst : FirstShort sg ↔ e.len.toNat < sectorBytes := by
    unfold FirstShort
    rw [hdrop]
    simp
  rw [hcut.symm, hfirst]
  constructor
  · rintro ⟨fuel, heq⟩
    rw [ahciIssueRwSg_loop hd hlen hcount hsum] at heq
    by_contra hno
    obtain ⟨hno₁, hno₂⟩ := not_or.mp hno
    have hsub : ∀ slot, ∃ r, submitRw d.ncqSupported write slot s.lba s.cur s.maxBytes = some r :=
      fun slot => submitRw_isSome hmax hmult
        (fillLoop_pos hskip (by omega) hmult (SgIssue.maxBytes_pos hwhole hno₁))
    exact SgIssue.loop_issues hd d.depth_pos hrem hsub (.inr SgIssue.Same.rfl') heq rfl
  · intro h
    have hsub : ∀ slot, submitRw d.ncqSupported write slot s.lba s.cur s.maxBytes = none := by
      intro slot
      unfold submitRw
      rcases h with h | h
      · rw [if_pos (by omega)]
      · rw [fillPrdt_none (fillLoop_short hskip (by omega))]
        split <;> rfl
    obtain ⟨fuel, heq⟩ := SgIssue.loop_refuses hd d.depth_pos hrem hsub
    exact ⟨fuel, by rw [ahciIssueRwSg_loop hd hlen hcount hsum]; exact heq⟩

/-- The call is exact if and only if: a list of whole sectors has at least one sector and fewer than
2^32 bytes; and a list that is not of whole sectors has another sum than the sectors asked for, or a
multiple of 2^32 bytes, or begins with less than a sector. -/
theorem transferExact_iff (hd : d.Completes) (hlen : sg.length < 2 ^ 32) : TransferExact d write lba sectorCount sg ↔
      (WholeSectors sectorCount sg → 0 < sectorCount.toNat ∧ sectorCount.toNat < 2 ^ 23) ∧
        (¬ WholeSectors sectorCount sg → (sg.map fun e => e.len.toNat).sum ≠ sectorCount.toNat * sectorBytes ∨
            sectorCount.toNat % 2 ^ 23 = 0 ∨ FirstShort sg) := by
  apply and_congr
  · apply imp_congr_right
    intro hw
    by_cases hcount : sectorCount = 0
    · subst hcount
      refine iff_of_false ?_ (by simp)
      rintro ⟨fuel, cmds, heq, -⟩
      unfold ahciIssueRwSg at heq
      rw [if_pos (.inr (.inr rfl))] at heq
      simp at heq
    have hpos : sectorCount.toNat ≠ 0 := fun h => hcount (UInt32.toNat_inj.mp h)
    constructor
    · rintro ⟨fuel, cmds, heq, -⟩
      refine ⟨by omega, ?_⟩
      by_contra hlarge
      rw [ahciIssueRwSg_loop hd hlen hcount hw.2] at heq
      have hrem : 2 ^ 32 ≤ (d.start lba sectorCount sg).remaining := by
        show 2 ^ 32 ≤ sectorCount.toNat * sectorBytes
        unfold sectorBytes
        omega
      exact absurd (SgIssue.loop_large hrem heq) (by decide)
    · rintro ⟨-, hsmall⟩
      have hrem : (d.start lba sectorCount sg).remaining < 2 ^ 32 := by
        show sectorCount.toNat * sectorBytes < 2 ^ 32
        unfold sectorBytes
        omega
      obtain ⟨fuel, cmds, heq, htr⟩ :=
        (start_inv write lba hw).loop hd d.depth_pos hrem
      exact ⟨fuel, cmds, by rw [ahciIssueRwSg_loop hd hlen hcount hw.2]; exact heq, htr⟩
  · apply imp_congr_right
    intro hw
    by_cases hsum : (sg.map fun e => e.len.toNat).sum = sectorCount.toNat * sectorBytes
    · rw [firstCommand hd hlen hw hsum]
      exact ⟨fun h => .inr h, fun h => h.resolve_left (not_not.mpr hsum)⟩
    refine iff_of_true ⟨0, ?_⟩ (.inl hsum)
    have htotal : totalSgBytes sg ≠ sectorCount.toNat * sectorBytes := by
      unfold totalSgBytes
      rwa [Nat.mod_eq_of_lt (sum_lens_lt hlen)]
    unfold ahciIssueRwSg
    rw [if_pos htotal]
    split <;> rfl

/-- A disk that is ready at once and has finished a command before the driver looks again. -/
def promptDrive : AhciDrive where
  present := true
  ncqSupported := false
  queueDepth := 1
  busy := fun _ => false
  ready := fun _ => true
  finishes := fun _ _ => true
  waited := fun _ => true

theorem promptDrive_completes : promptDrive.Completes :=
  ⟨rfl, fun _ => rfl, fun n _ => ⟨n, le_rfl, rfl⟩, fun _ => rfl⟩

/-- A sector, an element without bytes, one that takes two entries, and two sectors more. -/
def mixedList : List AhciSg := [⟨0x1000, 512⟩, ⟨0x9000, 0⟩, ⟨0x100000, 5242880⟩, ⟨0x800000, 1024⟩]

theorem mixedList_exact : WholeSectors 10243 mixedList ∧ TransferExact promptDrive true 7 10243 mixedList := by
  have hw : WholeSectors 10243 mixedList := ⟨by decide, by decide⟩
  exact ⟨hw, (transferExact_iff promptDrive_completes (by decide)).mpr ⟨fun _ => by decide, fun h => absurd hw h⟩⟩

def halves : List AhciSg := [⟨0x1000, 512⟩, ⟨0x2000, 256⟩, ⟨0x3000, 256⟩]

/-- The list is not of whole sectors, but its first sector is read before the call returns -1. -/
theorem halves_issued : ¬ WholeSectors 2 halves ∧ (∃ c, ahciIssueRwSg promptDrive false 7 2 halves 3 = some (-1, [c])) ∧
      ¬ TransferExact promptDrive false 7 2 halves := by
  have hw : ¬ WholeSectors 2 halves := fun h => absurd (h.1 ⟨0x2000, 256⟩ (by decide)) (by decide)
  have hrun : ahciIssueRwSg promptDrive false 7 2 halves 3 = some (-1, [⟨0, false, 1,
      buildCfis false 7 1 0 false, [⟨0x1000, 0, 511, true⟩]⟩]) := by decide +kernel
  refine ⟨hw, ⟨_, hrun⟩, fun h => ?_⟩
  rcases ((transferExact_iff promptDrive_completes (by decide)).mp h).2 hw with h | h | h
  · exact h (by decide)
  · exact absurd h (by decide)
  · exact absurd (h ⟨0x1000, 512⟩ (by decide)) (by decide)

end EdgeOS
