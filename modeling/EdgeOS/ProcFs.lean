import EdgeOS.PathWalk
import EdgeOS.ProcessTreeInvariant
import Mathlib.Data.Nat.Digits.Lemmas

namespace EdgeOS

/-!
The tree of `src/fs/procfs.c` over the task table: `proc_lookup` finds an entry by its name,
`proc_readdir` by its place, and every entry carries the inode number of `proc_ino_make`.
-/

open List
open BitVec (ofNat ofNat_toNat setWidth_eq)

/-! ## Numbers as text -/

/-- The digits of `v`, the first one first. -/
def decimalText (v : ℕ) : Bytes :=
  if v = 0 then [48] else ((Nat.digits 10 v).map fun d => 48 + d.toUInt8).reverse

section Decimal

theorem digit_byte {d : ℕ} (hd : d < 10) : isDigit (48 + d.toUInt8) = true ∧ (48 + d.toUInt8 - 48).toNat = d := by
  revert d
  decide

/-- Digits read from the first are what `Nat.ofDigits` reads from the last. -/
theorem decimalValue_reverse (l : List ℕ) (hl : ∀ d ∈ l, d < 10) :
    decimalValue (l.map fun d => 48 + d.toUInt8).reverse = Nat.ofDigits 10 l := by
  unfold decimalValue
  rw [foldl_reverse, foldr_map]
  induction l with
  | nil => rfl
  | cons d l ih =>
    have hd := (digit_byte (hl d mem_cons_self)).2
    rw [foldr_cons, ih fun e he => hl e (mem_cons_of_mem _ he), Nat.ofDigits_cons, hd]
    omega

theorem decimalValue_text (v : ℕ) : decimalValue (decimalText v) = v := by
  unfold decimalText
  split
  · rename_i hv
    rw [hv]
    rfl
  · rw [decimalValue_reverse _ fun d hd => Nat.digits_lt_base (by omega) hd, Nat.ofDigits_digits]

theorem decimalText_ne_nil (v : ℕ) : decimalText v ≠ [] := by
  unfold decimalText
  split
  · simp
  · rename_i hv
    simpa [Nat.digits_eq_nil_iff_eq_zero] using hv

theorem decimalText_digits (v : ℕ) : (decimalText v).all isDigit = true := by
  unfold decimalText
  split
  · decide
  simp only [all_reverse, all_map, all_eq_true]
  intro d hd
  exact (digit_byte (Nat.digits_lt_base (by omega) hd)).1

theorem decimalText_length {v : ℕ} (h : v < 2 ^ 32) : (decimalText v).length ≤ 10 := by
  unfold decimalText
  split
  · decide
  · rw [length_reverse, length_map]
    exact (Nat.digits_length_le_iff (by omega) v).mpr (by omega)

end Decimal

/-! ## Texts in a buffer -/

/-- `buf_append`: the text so far is what stands before `*off`. -/
def bufAppend (max : ℕ) (buf s : Bytes) : Option Bytes :=
  if max ≤ buf.length then none
  else s.foldlM (fun b c => if max ≤ b.length + 1 then none else some (b ++ [c])) buf

/-- `buf_append_u32` and `buf_append_u64_dec`: the digits are appended one by one. -/
def bufAppendDec (max : ℕ) (buf : Bytes) (v : ℕ) : Option Bytes :=
  (decimalText v).foldlM (fun b c => bufAppend max b [c]) buf

section Buffer

variable {max : ℕ} {buf s : Bytes}

theorem bufAppend_eq (max : ℕ) (buf s : Bytes) :
    bufAppend max buf s = if buf.length + s.length < max then some (buf ++ s) else none := by
  unfold bufAppend
  induction s generalizing buf with
  | nil =>
    rw [length_nil, Nat.add_zero, append_nil]
    rcases Nat.lt_or_ge buf.length max with h | h
    · rw [if_neg (by omega), if_pos h]
      rfl
    · rw [if_pos h, if_neg (by omega)]
  | cons c s ih =>
    have ih := ih (buf ++ [c])
    rw [length_append, length_singleton] at ih
    rw [length_cons, foldlM_cons]
    rcases Nat.lt_or_ge (buf.length + 1) max with h | h
    · rw [if_neg (by omega)] at ih
      rw [if_neg (by omega), if_neg (by omega)]
      change foldlM _ (buf ++ [c]) s = _
      rw [ih, append_assoc, singleton_append]
      exact if_congr (by omega) rfl rfl
    · rw [if_pos h, if_neg (show ¬ buf.length + (s.length + 1) < max by omega)]
      exact ite_self none

theorem bufAppend_bounded {out : Bytes} (h : bufAppend max buf s = some out) : out.length < max := by
  rw [bufAppend_eq] at h
  split at h
  · rename_i hfits
    rw [← Option.some.inj h, length_append]
    exact hfits
  · exact absurd h (by simp)

/-- Appending the bytes of a text that is not empty one by one appends the text. -/
theorem foldlM_bufAppend (hs : s ≠ []) : s.foldlM (fun b c => bufAppend max b [c]) buf = bufAppend max buf s := by
  induction s generalizing buf with
  | nil => exact absurd rfl hs
  | cons c s ih =>
    rw [foldlM_cons]
    rcases eq_or_ne s [] with rfl | hne
    · rcases hone : bufAppend max buf [c] with _ | b <;> rfl
    rw [bufAppend_eq, bufAppend_eq, length_singleton, length_cons]
    rcases Nat.lt_or_ge (buf.length + 1) max with h | h
    · rw [if_pos h]
      change foldlM _ (buf ++ [c]) s = _
      rw [ih hne, bufAppend_eq, length_append, length_singleton, append_assoc, singleton_append]
      exact if_congr (by omega) rfl rfl
    · rw [if_neg (by omega), if_neg (by omega)]
      rfl

theorem bufAppendDec_eq (max : ℕ) (buf : Bytes) (v : ℕ) : bufAppendDec max buf v = bufAppend max buf (decimalText v) :=
  foldlM_bufAppend (decimalText_ne_nil v)

end Buffer

/-! ## The tree -/

/-- `g_tasks`, whose pids are `int`s. -/
structure ProcTable where
  tab : TaskTable
  int : ∀ x, -2 ^ 31 ≤ (tab.task x).pid ∧ (tab.task x).pid < 2 ^ 31

namespace ProcTable

variable (t : ProcTable)

/-- `process_get_task((int)pid)`. -/
def processGetTask (pid : BitVec 32) : Option TaskRef := taskFindByPid t.tab pid.toInt

/-- `(uint32_t)process_getpid()`. -/
def processGetpid : BitVec 32 := BitVec.ofInt 32 (t.tab.task (schedulerCurrentTask t.tab)).pid

def procNthPid (nth : ℕ) : Option (BitVec 32) :=
  ((List.finRange procMaxTasks).filterMap fun i =>
    let x := t.tab.task (.slot i)
    if x.state = .unused ∨ x.pid ≤ 0 then none else some (BitVec.ofInt 32 x.pid))[nth]?

def pidDir (pid : BitVec 32) : VfsNode := procFillInode procNodePidDir pid.toNat (vfsInodeDir ||| 0o555) 7

/-- The task that a directory is about: `self` is the caller's. -/
def dirPid (dir : VfsNode) : BitVec 32 :=
  if dir.private0 = procNodeSelfDir then t.processGetpid else BitVec.ofNat 32 dir.private1

/-- `proc_lookup`. -/
def lookup (dir : VfsNode) (name : Bytes) : Option VfsNode :=
  if name = ascii "." then some dir
  else if dir.private0 = procNodeRoot then
    if name = ascii ".." then some dir
    else
      match nodeNamed procRootNames name with
      | some x => some x
      | none =>
        match procParseU32 name with
        | none => none
        | some pid => if (t.processGetTask pid.toBitVec).isSome then some (pidDir pid.toBitVec) else none
  else if dir.private0 = procNodeNetDir then nodeNamed procNetNames name
  else if (dir.private0 = procNodePidDir ∨ dir.private0 = procNodeSelfDir) ∧
      (t.processGetTask (t.dirPid dir)).isSome then
    nodeNamed (procPidNames (t.dirPid dir).toNat) name
  else none

/-- `proc_readdir`: the names stand in the order of the lookup. -/
def readdir (dir : VfsNode) (idx : ℕ) : Option (Bytes × VfsNode) :=
  if dir.private0 = procNodeRoot then
    if idx < 9 then ((ascii ".", dir) :: (ascii "..", dir) :: procRootNames)[idx]?
    else
      match t.procNthPid (idx - 9) with
      | none => none
      | some pid => (bufAppendDec vfsNameMax [] pid.toNat).map fun name => (name, pidDir pid)
  else if dir.private0 = procNodeNetDir then ((ascii ".", dir) :: procNetNames)[idx]?
  else if (dir.private0 = procNodePidDir ∨ dir.private0 = procNodeSelfDir) ∧
      (t.processGetTask (t.dirPid dir)).isSome then
    ((ascii ".", dir) :: procPidNames (t.dirPid dir).toNat)[idx]?
  else none

end ProcTable

/-! ## Listing and lookup -/

/-- `proc_parse_u32` computes the number of the digits modulo `2 ^ 32`. -/
theorem foldl_toNat (s : Bytes) (n : UInt32) (k : ℕ) (h : n.toNat = k % 2 ^ 32) :
    (s.foldl (fun n c => n * 10 + (c - 48).toUInt32) n).toNat =
      s.foldl (fun n c => n * 10 + (c - 48).toNat) k % 2 ^ 32 := by
  induction s generalizing n k with
  | nil => exact h
  | cons c s ih =>
    apply ih
    rw [UInt32.toNat_add, UInt32.toNat_mul, h, UInt8.toNat_toUInt32]
    have hten : (10 : UInt32).toNat = 10 := rfl
    dsimp only
    rw [hten]
    omega

theorem procParseU32_eq {s : Bytes} (hne : s ≠ []) (hdigits : s.all isDigit = true) :
    ∃ n, procParseU32 s = some n ∧ n.toBitVec = ofNat 32 (decimalValue s) := by
  refine ⟨_, if_neg (by simp [hne, hdigits]), ?_⟩
  apply BitVec.eq_of_toNat_eq
  rw [BitVec.toNat_ofNat]
  exact foldl_toNat s 0 0 rfl

theorem procParseU32_none {s : Bytes} (h : ¬ (s ≠ [] ∧ s.all isDigit = true)) : procParseU32 s = none := by
  unfold procParseU32
  apply if_pos
  by_contra hs
  rw [not_or] at hs
  exact h ⟨hs.1, by simpa using hs.2⟩

section Named

variable {l : List (Bytes × VfsNode)} {name : Bytes} {x y : VfsNode}

theorem nodeNamed_cons (c : Bytes) (y : VfsNode) (l : List (Bytes × VfsNode)) (name : Bytes) :
    nodeNamed ((c, y) :: l) name = if name = c then some y else nodeNamed l name := by
  unfold nodeNamed
  rw [find?_cons]
  rcases eq_or_ne name c with rfl | h
  · rw [if_pos rfl]
    simp
  · rw [if_neg h]
    simp [h.symm]

/-- Among distinct names the chain of comparisons finds what the list holds. -/
theorem nodeNamed_iff (h : (l.map (·.1)).Nodup) : nodeNamed l name = some x ↔ (name, x) ∈ l := by
  induction l with
  | nil => simp [nodeNamed]
  | cons e l ih =>
    obtain ⟨c, y⟩ := e
    rw [map_cons, nodup_cons] at h
    rw [nodeNamed_cons, mem_cons, Prod.mk.injEq]
    rcases eq_or_ne name c with rfl | hne
    · have hother : (name, x) ∉ l := fun hmem => h.1 (mem_map.mpr ⟨_, hmem, rfl⟩)
      simp [hother, eq_comm]
    · rw [if_neg hne, ih h.2]
      simp [hne]

end Named

namespace ProcTable

variable (t : ProcTable)

def Used (pid : BitVec 32) : Prop := ∃ i, Live t.tab (.slot i) ∧ (t.tab.task (.slot i)).pid = pid.toInt

variable {t} {p q : BitVec 32} {name : Bytes} {x y dir : VfsNode}

theorem toInt_ofInt {n : ℤ} (h : -2 ^ 31 ≤ n ∧ n < 2 ^ 31) : (BitVec.ofInt 32 n).toInt = n := by
  rw [BitVec.toInt_ofInt]
  apply Int.bmod_eq_of_le <;> omega

theorem processGetTask_isSome : (t.processGetTask p).isSome ↔ t.Used p := by
  unfold processGetTask
  cases h : taskFindByPid t.tab p.toInt with
  | none =>
    refine iff_of_false (by simp) ?_
    rintro ⟨i, hlive, hpid⟩
    exact taskFindByPid_none h hlive hpid
  | some u =>
    obtain ⟨⟨i, rfl⟩, hlive, hpid⟩ := taskFindByPid_some h
    exact iff_of_true rfl ⟨i, hlive, hpid⟩

/-- The numbers that are listed are those of the tasks in use that are positive. -/
theorem procNthPid_iff : (∃ n, t.procNthPid n = some p) ↔ t.Used p ∧ 0 < p.toInt := by
  unfold procNthPid
  rw [← mem_iff_getElem?, mem_filterMap]
  constructor
  · rintro ⟨i, -, h⟩
    dsimp only at h
    split at h
    · exact absurd h (by simp)
    rename_i hlisted
    rw [not_or, not_le] at hlisted
    have hint : (t.tab.task (.slot i)).pid = p.toInt := by
      rw [← Option.some.inj h, toInt_ofInt (t.int _)]
    exact ⟨⟨i, hlisted.1, hint⟩, hint ▸ hlisted.2⟩
  · rintro ⟨⟨i, hlive, hpid⟩, hpos⟩
    refine ⟨i, mem_finRange i, ?_⟩
    dsimp only
    have hlisted : ¬ ((t.tab.task (.slot i)).state = .unused ∨ (t.tab.task (.slot i)).pid ≤ 0) := by
      rw [not_or, not_le]
      exact ⟨hlive, hpid ▸ hpos⟩
    rw [if_neg hlisted, hpid, BitVec.ofInt_toInt]

def rootListing : List (Bytes × VfsNode) :=
  (ascii ".", procRootInode) :: (ascii "..", procRootInode) :: procRootNames

theorem rootListing_nodup : (rootListing.map (·.1)).Nodup := by decide

theorem rootListing_digits : ∀ c ∈ rootListing.map (·.1), ¬ (c ≠ [] ∧ c.all isDigit = true) := by decide

def numbered (t : ProcTable) (name : Bytes) : Option VfsNode :=
  (procParseU32 name).bind fun pid =>
    if (t.processGetTask pid.toBitVec).isSome then some (pidDir pid.toBitVec) else none

theorem numbered_iff : t.numbered name = some x ↔ (name ≠ [] ∧ name.all isDigit = true) ∧
      t.Used (ofNat 32 (decimalValue name)) ∧ x = pidDir (ofNat 32 (decimalValue name)) := by
  unfold numbered
  by_cases hd : name ≠ [] ∧ name.all isDigit = true
  · obtain ⟨n, hparse, hn⟩ := procParseU32_eq hd.1 hd.2
    rw [hparse, Option.bind_some, hn]
    split
    · rename_i hused
      rw [processGetTask_isSome] at hused
      rw [Option.some.injEq, eq_comm]
      exact ⟨fun h => ⟨hd, hused, h⟩, fun h => h.2.2⟩
    rename_i hused
    rw [processGetTask_isSome] at hused
    exact iff_of_false (by simp) fun h => hused h.2.1
  · rw [procParseU32_none hd]
    exact iff_of_false (by simp) fun h => hd h.1

theorem lookup_root : t.lookup procRootInode name = (nodeNamed rootListing name).or (t.numbered name) := by
  unfold lookup rootListing numbered
  rw [nodeNamed_cons, nodeNamed_cons]
  by_cases hdot : name = ascii "."
  · rw [if_pos hdot, if_pos hdot]
    rfl
  rw [if_neg hdot, if_neg hdot, if_pos (show procRootInode.private0 = procNodeRoot from rfl)]
  by_cases hup : name = ascii ".."
  · rw [if_pos hup, if_pos hup]
    rfl
  rw [if_neg hup, if_neg hup]
  rcases nodeNamed procRootNames name with _ | y
  · rcases procParseU32 name with _ | pid <;> rfl
  · rfl

/-- What a lookup in the root finds: a fixed name, or a number. -/
theorem lookup_root_iff : t.lookup procRootInode name = some x ↔
    (name, x) ∈ rootListing ∨ t.numbered name = some x := by
  rw [lookup_root, ← nodeNamed_iff rootListing_nodup]
  rcases hfixed : nodeNamed rootListing name with _ | y
  · simp
  refine ⟨Or.inl, fun h => h.resolve_right fun hnum => ?_⟩
  rw [nodeNamed_iff rootListing_nodup] at hfixed
  exact rootListing_digits name (mem_map.mpr ⟨_, hfixed, rfl⟩) (numbered_iff.mp hnum).1

/-- What the root lists: the fixed names, and the text of each positive number. -/
theorem readdir_root_iff : (∃ i, t.readdir procRootInode i = some (name, x)) ↔
    (name, x) ∈ rootListing ∨ ∃ p, (t.Used p ∧ 0 < p.toInt) ∧ name = decimalText p.toNat ∧ x = pidDir p := by
  have hroot : procRootInode.private0 = procNodeRoot := rfl
  have hentry : ∀ p : BitVec 32, (bufAppendDec vfsNameMax [] p.toNat).map (fun name => (name, pidDir p)) =
      some (decimalText p.toNat, pidDir p) := by
    intro p
    have hlen := decimalText_length p.isLt
    rw [bufAppendDec_eq, bufAppend_eq, if_pos]
    · rfl
    · rw [length_nil]
      unfold vfsNameMax
      omega
  constructor
  · rintro ⟨i, h⟩
    unfold readdir at h
    rw [if_pos hroot] at h
    split at h
    · exact .inl (mem_iff_getElem?.mpr ⟨i, h⟩)
    split at h
    · exact absurd h (by simp)
    rename_i p hp
    rw [hentry, Option.some.injEq, Prod.mk.injEq] at h
    exact .inr ⟨p, procNthPid_iff.mp ⟨_, hp⟩, h.1.symm, h.2.symm⟩
  · rintro (h | ⟨p, hused, rfl, rfl⟩)
    · obtain ⟨i, hi⟩ := mem_iff_getElem?.mp h
      obtain ⟨hlt, -⟩ := List.getElem?_eq_some_iff.mp hi
      refine ⟨i, ?_⟩
      unfold readdir
      rw [if_pos hroot, if_pos (show i < 9 from hlt)]
      exact hi
    · obtain ⟨n, hn⟩ := procNthPid_iff.mpr hused
      refine ⟨n + 9, ?_⟩
      unfold readdir
      rw [if_pos hroot, if_neg (by omega), Nat.add_sub_cancel, hn]
      exact hentry p

end ProcTable

/-! ## The directories -/

inductive ProcDir
  | root
  | net
  | self
  | pid (p : BitVec 32)
  deriving DecidableEq, Repr

namespace ProcTable

def dirInode : ProcDir → VfsNode
  | .root => procRootInode
  | .net => procFillInode procNodeNetDir 0 (vfsInodeDir ||| 0o555) 9
  | .self => procFillInode procNodeSelfDir 0 (vfsInodeDir ||| 0o555) 1
  | .pid p => pidDir p

variable {t : ProcTable} {p q : BitVec 32} {d : ProcDir} {name : Bytes} {x y dir : VfsNode}

def Agrees (t : ProcTable) (dir : VfsNode) (name : Bytes) : Prop :=
  ∀ x, t.lookup dir name = some x ↔ ∃ i, t.readdir dir i = some (name, x)

/-- The task of the directory is there to be listed, and a number in the root is the text of the
task it leads to. -/
def Proper (t : ProcTable) (name : Bytes) : ProcDir → Prop
  | .root => name ≠ [] ∧ name.all isDigit = true → ∀ p, t.Used p → p = BitVec.ofNat 32 (decimalValue name) →
      0 < p.toInt ∧ name = decimalText p.toNat
  | .net => True
  | .self => name = ascii "." → t.Used t.processGetpid
  | .pid p => name = ascii "." → t.Used p

/-- In the root a name is found as it is listed exactly if its number is not that of a task with
another text. -/
theorem agrees_root : t.Agrees procRootInode name ↔ t.Proper name .root := by
  unfold Agrees
  constructor
  · rintro h hd p hused rfl
    have hnum := numbered_iff.mpr ⟨hd, hused, rfl⟩
    rcases readdir_root_iff.mp ((h _).mp (lookup_root_iff.mpr (.inr hnum))) with hfixed | ⟨q, hq, hname, -⟩
    · exact absurd hd (rootListing_digits name (mem_map.mpr ⟨_, hfixed, rfl⟩))
    have heq : ofNat 32 (decimalValue name) = q := by
      rw [hname, decimalValue_text, ofNat_toNat, setWidth_eq]
    rw [heq]
    exact ⟨hq.2, hname⟩
  · intro h x
    rw [lookup_root_iff, readdir_root_iff]
    apply or_congr Iff.rfl
    constructor
    · intro hnum
      obtain ⟨hd, hused, hx⟩ := numbered_iff.mp hnum
      obtain ⟨hpos, hname⟩ := h hd _ hused rfl
      exact ⟨_, ⟨hused, hpos⟩, hname, hx⟩
    · rintro ⟨p, hused, rfl, rfl⟩
      have hval : ofNat 32 (decimalValue (decimalText p.toNat)) = p := by
        rw [decimalValue_text, ofNat_toNat, setWidth_eq]
      rw [numbered_iff, hval]
      exact ⟨⟨decimalText_ne_nil _, decimalText_digits _⟩, hused.1, rfl⟩

/-- A list with distinct names is looked up as it is listed. -/
theorem listed_iff {l : List (Bytes × VfsNode)} (h : (l.map (·.1)).Nodup) :
    nodeNamed l name = some x ↔ ∃ i : ℕ, l[i]? = some (name, x) := by
  rw [nodeNamed_iff h, mem_iff_getElem?]

theorem agrees_net : t.Agrees (dirInode .net) name := by
  have hnodup : (((ascii ".", dirInode .net) :: procNetNames).map (·.1)).Nodup := by decide
  intro x
  exact Iff.trans (by rw [nodeNamed_cons]; rfl) (listed_iff hnodup)

theorem agrees_task (hnode : dir.private0 = procNodePidDir ∨ dir.private0 = procNodeSelfDir) :
    t.Agrees dir name ↔ (name = ascii "." → t.Used (t.dirPid dir)) := by
  have hroot : dir.private0 ≠ procNodeRoot := by rcases hnode with h | h <;> rw [h] <;> decide
  have hnet : dir.private0 ≠ procNodeNetDir := by rcases hnode with h | h <;> rw [h] <;> decide
  unfold Agrees lookup readdir
  rw [← processGetTask_isSome]
  simp only [hnode, hroot, hnet, if_false, true_and]
  by_cases hused : (t.processGetTask (t.dirPid dir)).isSome
  · have hnodup : (((ascii ".", dir) :: procPidNames (t.dirPid dir).toNat).map (·.1)).Nodup := by
      change (ascii "." :: [ascii "..", ascii "stat", ascii "status", ascii "cmdline"]).Nodup
      decide
    refine iff_of_true (fun x => ?_) fun _ => hused
    rw [if_pos hused, ← nodeNamed_cons, listed_iff hnodup]
    exact exists_congr fun i => by rw [if_pos hused]
  · simp only [hused]
    by_cases hdot : name = ascii "." <;> simp [hdot]

/-- A name is found in a directory exactly as the directory lists it, if and only if it is proper. -/
theorem agrees_iff : t.Agrees (dirInode d) name ↔ t.Proper name d := by
  cases d with
  | root => exact agrees_root
  | net => exact iff_of_true agrees_net trivial
  | self => exact agrees_task (.inr rfl)
  | pid p =>
    have hpid : t.dirPid (pidDir p) = p := by
      have hnode : procNodePidDir ≠ procNodeSelfDir := by decide
      unfold dirPid pidDir procFillInode
      rw [if_neg hnode, ofNat_toNat, setWidth_eq]
    rw [dirInode, agrees_task (.inl rfl), hpid]
    rfl

/-! ## Numbers -/

def TaskText (t : ProcTable) (name : Bytes) : Prop :=
  ∃ p, t.Used p ∧ 0 ≤ p.toInt ∧ name = decimalText p.toNat

/-- Digits lead to a task only where they are the text of its number. -/
def OwnText (t : ProcTable) (name : Bytes) : Prop :=
  ∀ p, t.Used p → p = BitVec.ofNat 32 (decimalValue name) → 0 ≤ p.toInt ∧ name = decimalText p.toNat

theorem resolves_iff (hne : name ≠ []) (hdigits : name.all isDigit = true) :
    ((t.lookup procRootInode name).isSome ↔ t.TaskText name) ↔ t.OwnText name := by
  have hlook : (t.lookup procRootInode name).isSome ↔ t.Used (ofNat 32 (decimalValue name)) := by
    rw [Option.isSome_iff_exists]
    constructor
    · rintro ⟨x, hx⟩
      rcases lookup_root_iff.mp hx with h | h
      · exact absurd ⟨hne, hdigits⟩ (rootListing_digits name (mem_map.mpr ⟨_, h, rfl⟩))
      · exact (numbered_iff.mp h).2.1
    · intro h
      exact ⟨_, lookup_root_iff.mpr (.inr (numbered_iff.mpr ⟨⟨hne, hdigits⟩, h, rfl⟩))⟩
  rw [hlook]
  constructor
  · rintro h p hused rfl
    obtain ⟨q, -, hpos, hname⟩ := h.mp hused
    have hval : ofNat 32 (decimalValue name) = q := by
      rw [hname, decimalValue_text, ofNat_toNat, setWidth_eq]
    rw [hval]
    exact ⟨hpos, hname⟩
  · intro h
    constructor
    · intro hused
      exact ⟨_, hused, h _ hused rfl⟩
    · rintro ⟨p, hused, -, rfl⟩
      rw [decimalValue_text, ofNat_toNat, setWidth_eq]
      exact hused

end ProcTable

/-! ## Inode numbers -/

/-- The three parts of a number stand beside each other, the pid cut to twelve bits. -/
theorem procIno_eq {node : ℕ} (hnode : node < 16) (pid : ℕ) (mode : BitVec 16) (tag : ℕ) :
    (procFillInode node pid mode tag).ino = ((0xF00 + node) * 4096 + pid % 4096) * 256 + tag % 256 := by
  have hhigh : 0xF0000000 ||| node <<< 20 = (0xF00 + node) <<< 20 := by
    revert node
    decide
  have hpid : pid &&& 0xFFF = pid % 2 ^ 12 := Nat.and_two_pow_sub_one_eq_mod pid 12
  have htag : tag &&& 0xFF = tag % 2 ^ 8 := Nat.and_two_pow_sub_one_eq_mod tag 8
  have hmid : (pid % 2 ^ 12) <<< 8 < 2 ^ 20 := by
    rw [Nat.shiftLeft_eq]
    omega
  change 0xF0000000 ||| node <<< 20 ||| (pid &&& 0xFFF) <<< 8 ||| (tag &&& 0xFF) = _
  rw [hhigh, hpid, htag, ← Nat.shiftLeft_add_eq_or_of_lt hmid]
  have hjoin : (0xF00 + node) <<< 20 + (pid % 2 ^ 12) <<< 8 = ((0xF00 + node) * 4096 + pid % 2 ^ 12) <<< 8 := by
    simp only [Nat.shiftLeft_eq]
    omega
  rw [hjoin, ← Nat.shiftLeft_add_eq_or_of_lt (by omega), Nat.shiftLeft_eq]
  rfl

def procTag (node : ℕ) : ℕ := [0, 0, 1, 7, 6, 7, 8, 2, 3, 4, 5, 6, 9, 10, 11].getD node 0

def ofTask (node : ℕ) : Prop := 3 ≤ node ∧ node ≤ 6

instance (node : ℕ) : Decidable (ofTask node) := inferInstanceAs (Decidable (_ ∧ _))

namespace ProcTable

variable {t : ProcTable} {p q : BitVec 32} {d : ProcDir} {name : Bytes} {x y dir : VfsNode}

inductive Reach (t : ProcTable) : VfsNode → Prop
  | root : Reach t procRootInode
  | entry (dir : VfsNode) (name : Bytes) (x : VfsNode) (h : Reach t dir) (hx : t.lookup dir name = some x) : Reach t x

/-- An inode of procfs: its number is made of its node and its task, and the task is in use. -/
structure Made (t : ProcTable) (x : VfsNode) : Prop where
  node : x.private0 < 15
  ino : x.ino = ((0xF00 + x.private0) * 4096 + x.private1 % 4096) * 256 + procTag x.private0
  fixed : ¬ ofTask x.private0 → x.private1 = 0
  task : ofTask x.private0 → ∃ p, t.Used p ∧ x.private1 = p.toNat

theorem Made.fill {node : ℕ} {mode : BitVec 16} (hnode : node < 15 ∧ ¬ ofTask node) :
    t.Made (procFillInode node 0 mode (procTag node)) where
  node := hnode.1
  ino := by
    have htag : ∀ n < 15, procTag n % 256 = procTag n := by decide
    rw [procIno_eq (by omega), htag _ hnode.1]
    rfl
  fixed := fun _ => rfl
  task := fun h => absurd h hnode.2

theorem Made.fillTask {node : ℕ} {mode : BitVec 16} (hnode : ofTask node) (hused : t.Used p) :
    t.Made (procFillInode node p.toNat mode (procTag node)) where
  node := by
    have := hnode.2
    exact Nat.lt_of_le_of_lt this (by omega)
  ino := by
    have htag : ∀ n < 15, procTag n % 256 = procTag n := by decide
    have := hnode.2
    rw [procIno_eq (by omega), htag _ (by omega)]
    rfl
  fixed := fun h => absurd hnode h
  task := fun _ => ⟨p, hused, rfl⟩

theorem nodeNamed_mem {l : List (Bytes × VfsNode)} (h : nodeNamed l name = some x) : (name, x) ∈ l := by
  unfold nodeNamed at h
  obtain ⟨e, he, rfl⟩ := Option.map_eq_some_iff.mp h
  have hname : e.1 = name := by simpa using find?_some he
  rw [← hname]
  exact mem_of_find?_eq_some he

theorem made_root : ∀ e ∈ procRootNames, t.Made e.2 := by
  have hnode : ∀ {node mode}, node < 15 ∧ ¬ ofTask node → t.Made (procFillInode node 0 mode (procTag node)) :=
    fun h => Made.fill h
  intro e he
  simp only [procRootNames, mem_cons, not_mem_nil, or_false] at he
  rcases he with rfl | rfl | rfl | rfl | rfl | rfl | rfl <;> exact hnode (by decide)

theorem made_net : ∀ e ∈ procNetNames, t.Made e.2 := by
  have hnode : ∀ {node mode}, node < 15 ∧ ¬ ofTask node → t.Made (procFillInode node 0 mode (procTag node)) :=
    fun h => Made.fill h
  intro e he
  simp only [procNetNames, mem_cons, not_mem_nil, or_false] at he
  rcases he with rfl | rfl | rfl <;> exact hnode (by decide)

theorem made_task (hused : t.Used p) : ∀ e ∈ procPidNames p.toNat, t.Made e.2 := by
  intro e he
  simp only [procPidNames, mem_cons, not_mem_nil, or_false] at he
  rcases he with rfl | rfl | rfl | rfl
  · exact Made.fill (by decide)
  · exact Made.fillTask (by decide) hused
  · exact Made.fillTask (by decide) hused
  · exact Made.fillTask (by decide) hused

theorem Made.lookup (hdir : t.Made dir) (h : t.lookup dir name = some x) : t.Made x := by
  unfold ProcTable.lookup at h
  split at h
  · exact Option.some.inj h ▸ hdir
  split at h
  · split at h
    · exact Option.some.inj h ▸ hdir
    · split at h
      · rename_i y hnamed
        exact Option.some.inj h ▸ made_root _ (nodeNamed_mem hnamed)
      · split at h
        · exact absurd h (by simp)
        · split at h
          · rename_i hused
            rw [← Option.some.inj h]
            exact Made.fillTask (by decide) (processGetTask_isSome.mp hused)
          · exact absurd h (by simp)
  · split at h
    · exact made_net _ (nodeNamed_mem h)
    · split at h
      · rename_i hused
        exact made_task (processGetTask_isSome.mp hused.2) _ (nodeNamed_mem h)
      · exact absurd h (by simp)

theorem Reach.made (h : t.Reach x) : t.Made x := by
  induction h with
  | root => exact Made.fill ⟨by decide, by decide⟩
  | entry dir name x _ hx ih => exact ih.lookup hx

/-- A number is that of one node and one pid up to twelve bits. -/
theorem Made.same (hx : t.Made x) (hy : t.Made y) (h : x.ino = y.ino) :
    x.private0 = y.private0 ∧ x.private1 % 4096 = y.private1 % 4096 := by
  have htag : ∀ n < 15, procTag n < 256 := by decide
  have hxt := htag _ hx.node
  have hyt := htag _ hy.node
  have hxn := hx.node
  have hyn := hy.node
  rw [hx.ino, hy.ino] at h
  omega

theorem Reach.pidDir (hused : t.Used p) : t.Reach (pidDir p) := by
  apply Reach.entry _ (decimalText p.toNat) _ Reach.root
  have hval : ofNat 32 (decimalValue (decimalText p.toNat)) = p := by
    rw [decimalValue_text, ofNat_toNat, setWidth_eq]
  rw [lookup_root_iff, numbered_iff, hval]
  exact .inr ⟨⟨decimalText_ne_nil _, decimalText_digits _⟩, hused, rfl⟩

/-- Different files and directories that can be reached have different numbers. -/
def DistinctInos (t : ProcTable) : Prop :=
  ∀ x y, t.Reach x → t.Reach y → ¬ (x.private0 = y.private0 ∧ x.private1 = y.private1) → x.ino ≠ y.ino

/-- The pids of the tasks in use differ in their low twelve bits. -/
def ShortPids (t : ProcTable) : Prop :=
  ∀ p q, t.Used p → t.Used q → p.toNat % 4096 = q.toNat % 4096 → p = q

theorem distinctInos_iff : t.DistinctInos ↔ t.ShortPids := by
  constructor
  · intro h p q hp hq hmod
    by_contra hne
    apply h _ _ (Reach.pidDir hp) (Reach.pidDir hq)
    · rintro ⟨-, heq⟩
      exact hne (BitVec.eq_of_toNat_eq heq)
    · have hnode : procNodePidDir < 16 := by decide
      unfold ProcTable.pidDir
      rw [procIno_eq hnode, procIno_eq hnode, hmod]
  · intro h x y hx hy hne hino
    have hx := hx.made
    have hy := hy.made
    obtain ⟨hnode, hmod⟩ := hx.same hy hino
    apply hne
    refine ⟨hnode, ?_⟩
    by_cases htask : ofTask x.private0
    · obtain ⟨p, hp, hxp⟩ := hx.task htask
      obtain ⟨q, hq, hyq⟩ := hy.task (hnode ▸ htask)
      rw [hxp, hyq] at hmod ⊢
      rw [h p q hp hq hmod]
    · rw [hx.fixed htask, hy.fixed (hnode ▸ htask)]

end ProcTable

end EdgeOS
