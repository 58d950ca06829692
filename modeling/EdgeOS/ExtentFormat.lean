import EdgeOS.DirImage
import EdgeOS.SeenBytes

namespace EdgeOS

/-!
Extent trees as the ext4 format has them, whoever has written them, and how the search of `src/fs/ext4/ext4.c` follows
them.
-/

open List

/-- `ext4_extent_t`: a length above 0x8000 is that of an unwritten extent, with 0x8000 added. -/
structure Extent where
  block : ℕ
  len : ℕ
  start : ℕ
  deriving DecidableEq

namespace Extent

variable (e : Extent) (l : ℕ)

def blocks : ℕ := if e.len ≤ 0x8000 then e.len else e.len - 0x8000

def Covers : Prop := e.block ≤ l ∧ l < e.block + e.blocks

instance : Decidable (e.Covers l) := inferInstanceAs (Decidable (_ ∧ _))

/-- An extent that the driver takes: it masks the length and adds it to the block in 32 bits. -/
def Seen : Prop := e.len % 0x8000 ≠ 0 ∧ e.block ≤ l ∧ l < (e.block + e.len % 0x8000) % 2 ^ 32

instance : Decidable (e.Seen l) := inferInstanceAs (Decidable (_ ∧ _))

def seenPhys : ℕ := (e.start + (l - e.block)) % 2 ^ 32

/-- The blocks of a file have numbers of 32 bits. -/
structure Valid : Prop where
  pos : 1 ≤ e.len
  word : e.len < 2 ^ 16
  ends : e.block + e.blocks ≤ 2 ^ 32
  start : 0 < e.start

def Before (e e' : Extent) : Prop := e.block + e.blocks ≤ e'.block

/-- The driver follows the extent to the block: it is initialised, shorter than 0x8000 blocks and ends before block
2^32, and the physical block has a number of 32 bits; or it is unwritten and ends at block 2^32. -/
def Plain : Prop := e.len < 0x8000 ∧ e.block + e.len < 2 ^ 32 ∧ e.start + (l - e.block) < 2 ^ 32 ∨
  0x8000 < e.len ∧ e.block + e.blocks = 2 ^ 32

instance : Decidable (e.Plain l) := inferInstanceAs (Decidable (_ ∨ _))

end Extent

/-- The block that the extents give. An unwritten extent gives none. -/
def formatPhys (es : List Extent) (l : ℕ) : Option ℕ :=
  (es.find? fun e => e.Covers l).bind fun e => if e.len ≤ 0x8000 then some (e.start + (l - e.block)) else none

def Followed (es : List Extent) (l : ℕ) : Prop := ∀ e ∈ es, e.Covers l → e.Plain l

instance (es : List Extent) (l : ℕ) : Decidable (Followed es l) := inferInstanceAs (Decidable (∀ e ∈ es, _))

/-! ## Nodes -/

def extentEntry (node : Bytes) (i : ℕ) : Extent where
  block := (rd32le node (12 + 12 * i)).toNat
  len := (rd16le node (12 + 12 * i + 4)).toNat
  start := (rd16le node (12 + 12 * i + 6)).toNat * 2 ^ 32 + (rd32le node (12 + 12 * i + 8)).toNat

def leafExtents (node : Bytes) : List Extent := (List.range (nodeEntries node)).map (extentEntry node)

structure NodeHeader (node : Bytes) (depth : ℕ) : Prop where
  magic : rd16le node 0 = ext4ExtMagic
  depth : (rd16le node 6).toNat = depth
  max : nodeEntries node ≤ (rd16le node 4).toNat
  room : 12 + 12 * (rd16le node 4).toNat ≤ node.length

theorem NodeHeader.accepted {node : Bytes} {d : ℕ} (h : NodeHeader node d) :
    ¬ (rd16le node 0 ≠ ext4ExtMagic ∨ (rd16le node 4).toNat < (rd16le node 2).toNat) :=
  not_or.mpr ⟨not_not.mpr h.magic, not_lt.mpr h.max⟩

namespace Ext4Fs

variable (fs : Ext4Fs)

def extentsOf : ℕ → Bytes → List Extent
  | 0, node => leafExtents node
  | d + 1, node =>
    (List.range (nodeEntries node)).flatMap fun i =>
      match fs.readBlock (indexLeaf node i) with
      | none => []
      | some child => extentsOf d child

/-- A tree of a depth, for the blocks of a file from `lo` to `hi`: the entries of a leaf are in order and do not
overlap, and the entries of an index divide its blocks among nodes that can be read. -/
def ExtentNode : ℕ → Bytes → ℕ → ℕ → Prop
  | 0, node, lo, hi => NodeHeader node 0 ∧ (leafExtents node).Pairwise Extent.Before ∧
      ∀ e ∈ leafExtents node, e.Valid ∧ lo ≤ e.block ∧ e.block + e.blocks ≤ hi
  | d + 1, node, lo, hi => NodeHeader node (d + 1) ∧ 0 < nodeEntries node ∧
      ∀ i < nodeEntries node, lo ≤ entryBlock node i ∧ entryBlock node i < entryEnd node hi i ∧
        entryEnd node hi i ≤ hi ∧ rd16le node (12 + 12 * i + 8) = 0 ∧
        ∃ child, fs.readBlock (indexLeaf node i) = some child ∧
          ExtentNode d child (entryBlock node i) (entryEnd node hi i)

end Ext4Fs

/-! ## Searches in lists of extents -/

section Lists

variable {e : Extent} {es : List Extent} {l : ℕ}

theorem Extent.Seen.covers (h : e.Seen l) (hword : e.len < 2 ^ 16) : e.Covers l := by
  obtain ⟨hne, hlo, hhi⟩ := h
  have hle := Nat.mod_le (e.block + e.len % 0x8000) (2 ^ 32)
  refine ⟨hlo, ?_⟩
  unfold blocks
  split <;> omega

/-- An extent that holds the block is followed when the driver takes it and it is initialised, or neither, and its
physical blocks have numbers of 32 bits. -/
theorem Extent.plain_iff (h : e.Valid) (hcovers : e.Covers l) :
    e.Plain l ↔ (e.Seen l ↔ e.len ≤ 0x8000) ∧ (e.len ≤ 0x8000 → e.start + (l - e.block) < 2 ^ 32) := by
  obtain ⟨hpos, hword, hends, -⟩ := h
  obtain ⟨hlo, hhi⟩ := hcovers
  unfold Plain Seen
  unfold blocks at *
  generalize e.start + (l - e.block) = phys
  rcases Nat.lt_trichotomy e.len 0x8000 with hshort | hlimit | hlong
  · rw [if_pos hshort.le] at *
    rw [Nat.mod_eq_of_lt hshort]
    omega
  · rw [hlimit]
    omega
  · rw [if_neg (by omega)] at *
    rw [show e.len % 0x8000 = e.len - 0x8000 by omega]
    omega

theorem covers_unique (hsorted : es.Pairwise Extent.Before) {e e' : Extent} (he : e ∈ es) (he' : e' ∈ es)
    (h : e.Covers l) (h' : e'.Covers l) : e = e' := by
  by_contra hne
  have hapart : es.Pairwise fun a b => a.Before b ∨ b.Before a := hsorted.imp Or.inl
  have hsymm : Std.Symm fun a b : Extent => a.Before b ∨ b.Before a := ⟨fun _ _ => Or.symm⟩
  have hor := hapart.forall he he' hne
  unfold Extent.Before at hor
  unfold Extent.Covers at h h'
  omega

theorem find?_holds {P : Extent → Prop} [DecidablePred P] (h : es.find? (fun e => decide (P e)) = some e) :
    e ∈ es ∧ P e := by
  have htrue := find?_some h
  exact ⟨mem_of_find?_eq_some h, of_decide_eq_true htrue⟩

/-- A search for extents that the driver takes ends at the one that holds the block, if that is taken. -/
theorem find?_seen (hsorted : es.Pairwise Extent.Before) (hvalid : ∀ e ∈ es, e.Valid) :
    es.find? (fun e => e.Seen l) = (es.find? fun e => e.Covers l).filter fun e => e.Seen l := by
  cases hfind : es.find? fun e => decide (e.Covers l) with
  | none =>
    apply find?_eq_none.mpr
    intro e he hseen
    have hcovers := (of_decide_eq_true hseen).covers (hvalid e he).word
    exact find?_eq_none.mp hfind e he (decide_eq_true hcovers)
  | some e =>
    obtain ⟨he, hcovers⟩ := find?_holds hfind
    have honly : ∀ e' ∈ es, e'.Seen l → e' = e := fun e' he' hseen =>
      covers_unique hsorted he' he (hseen.covers (hvalid e' he').word) hcovers
    rw [Option.filter_some]
    by_cases hseen : e.Seen l
    · rw [if_pos (decide_eq_true hseen)]
      cases hother : es.find? fun e => decide (e.Seen l) with
      | none => exact absurd (decide_eq_true hseen) (find?_eq_none.mp hother e he)
      | some e' =>
        obtain ⟨he', hseen'⟩ := find?_holds hother
        rw [honly e' he' hseen']
    · rw [if_neg (by rwa [decide_eq_true_eq])]
      apply find?_eq_none.mpr
      intro e' he' htrue
      have hseen' := of_decide_eq_true htrue
      exact hseen (honly e' he' hseen' ▸ hseen')

/-- The driver finds what the extents give exactly where they are followed. -/
theorem seen_exact (hsorted : es.Pairwise Extent.Before) (hvalid : ∀ e ∈ es, e.Valid) :
    (es.find? fun e => e.Seen l).map (·.seenPhys l) = formatPhys es l ↔ Followed es l := by
  rw [find?_seen hsorted hvalid]
  unfold formatPhys
  cases hfind : es.find? fun e => decide (e.Covers l) with
  | none =>
    refine iff_of_true rfl fun e he hcovers => ?_
    exact absurd (decide_eq_true hcovers) (find?_eq_none.mp hfind e he)
  | some e =>
    obtain ⟨he, hcovers⟩ := find?_holds hfind
    have hfollowed : Followed es l ↔ e.Plain l :=
      ⟨fun h => h e he hcovers, fun h e' he' hcovers' => covers_unique hsorted he' he hcovers' hcovers ▸ h⟩
    rw [hfollowed, Option.filter_some, Option.bind_some, Extent.plain_iff (hvalid e he) hcovers]
    by_cases hseen : e.Seen l
    · rw [if_pos (decide_eq_true hseen), Option.map_some]
      by_cases hinit : e.len ≤ 0x8000
      · rw [if_pos hinit, Option.some_inj, and_iff_right (iff_of_true hseen hinit)]
        unfold Extent.seenPhys
        constructor
        · intro hphys _
          rw [← hphys]
          exact Nat.mod_lt _ (by decide)
        · intro hsmall
          exact Nat.mod_eq_of_lt (hsmall hinit)
      · rw [if_neg hinit]
        exact iff_of_false nofun fun h => hinit (h.1.mp hseen)
    · rw [if_neg (by rwa [decide_eq_true_eq]), Option.map_none]
      by_cases hinit : e.len ≤ 0x8000
      · rw [if_pos hinit]
        exact iff_of_false nofun fun h => hseen (h.1.mpr hinit)
      · rw [if_neg hinit]
        exact iff_of_true rfl ⟨iff_of_false hseen hinit, fun h => absurd h hinit⟩

end Lists

/-! ## Searches in nodes -/

namespace Ext4Fs

variable {fs : Ext4Fs} {node : Bytes} {d lo hi : ℕ}

theorem entryEnd_le (h : fs.ExtentNode (d + 1) node lo hi) {i j : ℕ} (hij : i < j) (hj : j < nodeEntries node) :
    entryEnd node hi i ≤ entryBlock node j := by
  obtain ⟨-, -, hentry⟩ := h
  have hnext : ∀ k, k + 1 < nodeEntries node → entryEnd node hi k = entryBlock node (k + 1) := fun k hk => if_pos hk
  induction j with
  | zero => omega
  | succ j ih =>
    rcases Nat.lt_or_ge i j with hlt | hge
    · have hsteps := (hentry j (by omega)).2.1
      rw [hnext j hj] at hsteps
      exact (ih hlt (by omega)).trans hsteps.le
    · obtain rfl : i = j := by omega
      exact (hnext i hj).le

/-- The extents of a tree lie within its blocks, in order. -/
theorem ExtentNode.extents (h : fs.ExtentNode d node lo hi) : (fs.extentsOf d node).Pairwise Extent.Before ∧
    ∀ e ∈ fs.extentsOf d node, e.Valid ∧ lo ≤ e.block ∧ e.block + e.blocks ≤ hi := by
  induction d generalizing node lo hi with
  | zero => exact ⟨h.2.1, h.2.2⟩
  | succ d ih =>
    have hentry := h.2.2
    have hchild : ∀ i < nodeEntries node, ∃ child, fs.readBlock (indexLeaf node i) = some child ∧
        (fs.extentsOf d child).Pairwise Extent.Before ∧ ∀ e ∈ fs.extentsOf d child,
          e.Valid ∧ entryBlock node i ≤ e.block ∧ e.block + e.blocks ≤ entryEnd node hi i := by
      intro i hi'
      obtain ⟨-, -, -, -, child, hread, hnode⟩ := hentry i hi'
      exact ⟨child, hread, ih hnode⟩
    unfold extentsOf
    constructor
    · rw [pairwise_flatMap]
      constructor
      · intro i hmem
        obtain ⟨child, hread, hsorted, -⟩ := hchild i (mem_range.mp hmem)
        rw [hread]
        exact hsorted
      · apply List.Pairwise.imp_of_mem _ pairwise_lt_range
        intro i j hi' hj hij e he e' he'
        obtain ⟨child, hread, -, hbounds⟩ := hchild i (mem_range.mp hi')
        obtain ⟨child', hread', -, hbounds'⟩ := hchild j (mem_range.mp hj)
        rw [hread] at he
        rw [hread'] at he'
        exact ((hbounds e he).2.2.trans (entryEnd_le h hij (mem_range.mp hj))).trans (hbounds' e' he').2.1
    · intro e he
      obtain ⟨i, hmem, he⟩ := mem_flatMap.mp he
      have hi' := mem_range.mp hmem
      obtain ⟨child, hread, -, hbounds⟩ := hchild i hi'
      obtain ⟨hlo, -, hhi, -⟩ := hentry i hi'
      rw [hread] at he
      obtain ⟨hvalid, hstart, hend⟩ := hbounds e he
      exact ⟨hvalid, hlo.trans hstart, hend.trans hhi⟩

theorem extentLeaf_find (l : UInt32) (n i : ℕ) : (extentLeaf node l n i).map UInt32.toNat =
    (((List.range' i n).map (extentEntry node)).find? fun e => e.Seen l.toNat).map (·.seenPhys l.toNat) := by
  induction n generalizing i with
  | zero => rfl
  | succ n ih =>
    have hmask : ((rd16le node (12 + 12 * i + 4)).toUInt32 &&& 0x7FFF).toNat = (extentEntry node i).len % 0x8000 := by
      rw [UInt32.toNat_and, UInt16.toNat_toUInt32]
      exact Nat.and_two_pow_sub_one_eq_mod _ 15
    have hseen : ((rd16le node (12 + 12 * i + 4)).toUInt32 &&& 0x7FFF ≠ 0 ∧ rd32le node (12 + 12 * i) ≤ l ∧
        l < rd32le node (12 + 12 * i) + ((rd16le node (12 + 12 * i + 4)).toUInt32 &&& 0x7FFF)) ↔
        (extentEntry node i).Seen l.toNat := by
      unfold Extent.Seen
      rw [← hmask, ne_eq, ← UInt32.toNat_inj, UInt32.le_iff_toNat_le, UInt32.lt_iff_toNat_lt, UInt32.toNat_add]
      rfl
    unfold extentLeaf
    dsimp only
    rw [List.range'_succ, map_cons, find?_cons]
    by_cases h : (extentEntry node i).Seen l.toNat
    · rw [if_pos (hseen.mpr h), decide_eq_true h, Option.map_some, Option.map_some]
      congr 1
      rw [UInt32.toNat_add, UInt32.toNat_sub_of_le _ _ (hseen.mpr h).2.1]
      unfold Extent.seenPhys extentEntry
      dsimp only
      omega
    · rw [if_neg (mt hseen.mp h), decide_eq_false h, ih]

theorem leaf_find (h : NodeHeader node 0) (l : UInt32) {fuel : ℕ} (hfuel : 0 < fuel) :
    (fs.extentFindPhysFromNode l fuel node).map UInt32.toNat =
      ((leafExtents node).find? fun e => e.Seen l.toNat).map (·.seenPhys l.toNat) := by
  obtain ⟨k, rfl⟩ := Nat.exists_eq_add_one.mpr hfuel
  have hleaf : rd16le node 6 = 0 := UInt16.toNat.inj h.depth
  unfold extentFindPhysFromNode leafExtents
  dsimp only
  rw [if_neg h.accepted, if_pos hleaf, range_eq_range']
  exact extentLeaf_find l _ 0

/-- The entry that the loop picks: the last of those from `i` on in a row that begin at or before the block. -/
theorem extentPick_spec (l : UInt32) (n i pick : ℕ) :
    extentPick node l n i pick = pick ∧ (n = 0 ∨ l.toNat < entryBlock node i) ∨
    i ≤ extentPick node l n i pick ∧ extentPick node l n i pick < i + n ∧
      entryBlock node (extentPick node l n i pick) ≤ l.toNat ∧
      (extentPick node l n i pick + 1 < i + n → l.toNat < entryBlock node (extentPick node l n i pick + 1)) := by
  induction n generalizing i pick with
  | zero => exact Or.inl ⟨rfl, Or.inl rfl⟩
  | succ n ih =>
    unfold extentPick
    by_cases hle : rd32le node (12 + 12 * i) ≤ l
    · rw [if_pos hle]
      have hbegin : entryBlock node i ≤ l.toNat := UInt32.le_iff_toNat_le.mp hle
      rcases ih (i + 1) i with ⟨heq, hstop⟩ | ⟨hfrom, hto, hblock, hnext⟩
      · rw [heq]
        exact Or.inr ⟨le_rfl, by omega, hbegin, fun hmore => hstop.resolve_left (by omega)⟩
      · exact Or.inr ⟨by omega, by omega, hblock, fun hmore => hnext (by omega)⟩
    · rw [if_neg hle]
      have hafter : l.toNat < entryBlock node i := by
        rw [UInt32.le_iff_toNat_le, not_le] at hle
        exact hle
      exact Or.inl ⟨rfl, Or.inr hafter⟩

theorem findSome?_only {α β : Type} {f : α → Option β} {xs : List α} {x : α} (hx : x ∈ xs)
    (honly : ∀ y ∈ xs, y ≠ x → f y = none) : xs.findSome? f = f x := by
  induction xs with
  | nil => exact absurd hx not_mem_nil
  | cons y xs ih =>
    rw [findSome?_cons]
    by_cases hy : y = x
    · subst hy
      cases hf : f y with
      | some b => rfl
      | none =>
        dsimp only
        rw [findSome?_eq_none_iff]
        intro z hz
        by_cases hzy : z = y
        · rw [hzy, hf]
        · exact honly z (mem_cons_of_mem y hz) hzy
    · rw [honly y mem_cons_self hy]
      exact ih ((mem_cons.mp hx).resolve_left (Ne.symm hy)) fun z hz => honly z (mem_cons_of_mem y hz)

/-- The search goes where the extents are that hold the block. -/
theorem ExtentNode.find (h : fs.ExtentNode d node lo hi) (l : UInt32) {fuel : ℕ} (hfuel : d < fuel) :
    (fs.extentFindPhysFromNode l fuel node).map UInt32.toNat =
      ((fs.extentsOf d node).find? fun e => e.Seen l.toNat).map (·.seenPhys l.toNat) := by
  induction d generalizing node lo hi fuel with
  | zero => exact leaf_find h.1 l hfuel
  | succ d ih =>
    obtain ⟨hheader, hpos, hentry⟩ := id h
    cases fuel with
    | zero => omega
    | succ fuel =>
      have hindex : ¬ rd16le node 6 = 0 := by
        intro hzero
        have hdepth := hheader.depth
        rw [hzero] at hdepth
        exact absurd hdepth (Nat.zero_ne_add_one d)
      have hspec := @extentPick_spec node l (nodeEntries node) 0 0
      unfold extentFindPhysFromNode
      dsimp only
      rw [if_neg hheader.accepted, if_neg hindex]
      change Option.map _ (if nodeEntries node ≤ extentPick node l (nodeEntries node) 0 0 then _ else
        match fs.readBlock (indexLeaf node (extentPick node l (nodeEntries node) 0 0)) with
        | none => none
        | some leaf => _) = _
      generalize extentPick node l (nodeEntries node) 0 0 = k at hspec ⊢
      have hk : k < nodeEntries node := by
        rcases hspec with ⟨rfl, -⟩ | ⟨-, hlt, -⟩
        · exact hpos
        · omega
      obtain ⟨-, -, -, -, child, hread, hnode⟩ := hentry k hk
      rw [if_neg (not_le.mpr hk), hread]
      dsimp only
      have honly : ∀ i ∈ List.range (nodeEntries node), i ≠ k → (match fs.readBlock (indexLeaf node i) with
            | none => []
            | some child => fs.extentsOf d child).find? (fun e : Extent => e.Seen l.toNat) = none := by
        intro i hmem hne
        have hlast := mem_range.mp hmem
        obtain ⟨-, -, -, -, other, hother, hothernode⟩ := hentry i hlast
        rw [hother]
        apply find?_eq_none.mpr
        intro e he hseen
        obtain ⟨hvalid, hstart, hend⟩ := hothernode.extents.2 e he
        obtain ⟨hfrom, hto⟩ := (of_decide_eq_true hseen).covers hvalid.word
        rcases Nat.lt_or_gt_of_ne hne with hbefore | hafter
        · -- the extents of the entries before end where the picked entry begins
          have hle := entryEnd_le h hbefore hk
          rcases hspec with ⟨rfl, -⟩ | ⟨-, -, hblock, -⟩
          · omega
          · omega
        have hle := entryEnd_le h hafter hlast
        rcases hspec with ⟨rfl, hstop⟩ | ⟨-, -, -, hnext⟩
        · have := hstop.resolve_left (by omega)
          have := (hentry 0 hpos).2.1
          omega
        have hsucc := hnext (by omega)
        have : entryBlock node (k + 1) = entryEnd node hi k :=
          (if_pos (show k + 1 < nodeEntries node by omega)).symm
        omega
      conv_rhs => unfold extentsOf
      rw [ih hnode (by omega), find?_flatMap, findSome?_only (mem_range.mpr hk) honly, hread]

end Ext4Fs

/-! ## Files -/

namespace Ext4State

variable (s : Ext4State)

def formatFile (inode : ExtInode) (es : List Extent) : File32 where
  size := inode.sizeLo.toNat
  stored x := (formatPhys es (x / s.blockSize.toNat)).bind fun p =>
    (s.fs.readBlock p.toUInt32).map fun blk => rd8 blk (x % s.blockSize.toNat)
  small := inode.size_lt

structure HasTree (ino : UInt32) (inode : ExtInode) (d : ℕ) : Prop where
  found : s.fs.readInode ino = some inode
  flag : inode.flags &&& ext4ExtentsFl ≠ 0
  tree : s.fs.ExtentNode d inode.block 0 (2 ^ 32)
  sectors : s.disk.sectorSize.toNat ∣ s.blockSize.toNat
  blocks : 0 < s.blockSize.toNat

variable {s : Ext4State} {ino : UInt32} {inode : ExtInode} {d : ℕ}

theorem HasTree.header (h : s.HasTree ino inode d) : NodeHeader inode.block d := by
  have htree := h.tree
  cases d with
  | zero => exact htree.1
  | succ d => exact htree.1

theorem HasTree.lookup (h : s.HasTree ino inode d) (l : UInt32) :
    (s.fs.mapFindPhys inode l).map UInt32.toNat = formatPhys (s.fs.extentsOf d inode.block) l.toNat ↔
      Followed (s.fs.extentsOf d inode.block) l.toNat := by
  obtain ⟨hsorted, hall⟩ := h.tree.extents
  have hd : d < 2 ^ 32 := by
    have hdepth := h.header.depth
    have hword := (rd16le inode.block 6).toNat_lt
    omega
  unfold Ext4Fs.mapFindPhys
  rw [if_pos h.flag, h.tree.find l hd]
  exact seen_exact hsorted fun e he => (hall e he).1

/-- Where the extents are followed, reading sees the bytes of the file. -/
theorem HasTree.seenByte (h : s.HasTree ino inode d) {x : ℕ} (hx : x < 2 ^ 32)
    (hfollowed : Followed (s.fs.extentsOf d inode.block) (x / s.blockSize.toNat))
    (hread : ∀ p, formatPhys (s.fs.extentsOf d inode.block) (x / s.blockSize.toNat) = some p →
      s.fs.readBlock p.toUInt32 ≠ none) :
    s.seenByte inode x.toUInt32 = some ((s.formatFile inode (s.fs.extentsOf d inode.block)).byte x) := by
  have hxNat : x.toUInt32.toNat = x := by
    rw [Nat.toUInt32_eq, UInt32.toNat_ofNat', Nat.mod_eq_of_lt hx]
  have hblock : (x.toUInt32 / s.blockSize).toNat = x / s.blockSize.toNat := by
    rw [UInt32.toNat_div, hxNat]
  have hlookup := (h.lookup (x.toUInt32 / s.blockSize)).mpr (by rwa [hblock])
  rw [hblock] at hlookup
  unfold Ext4State.seenByte File32.byte formatFile
  dsimp only
  cases hphys : formatPhys (s.fs.extentsOf d inode.block) (x / s.blockSize.toNat) with
  | none =>
    rw [hphys, Option.map_eq_none_iff] at hlookup
    rw [hlookup]
    rfl
  | some p =>
    rw [hphys] at hlookup
    obtain ⟨phys, hfind, heq⟩ := Option.map_eq_some_iff.mp hlookup
    have hnot : phys ≠ 0 := by
      intro hzero
      unfold formatPhys at hphys
      obtain ⟨e, he, hinit⟩ := Option.bind_eq_some_iff.mp hphys
      obtain ⟨hmem, -⟩ := find?_holds he
      have hstart := (h.tree.extents.2 e hmem).1.start
      obtain ⟨-, hp⟩ := Option.ite_none_right_eq_some.mp hinit
      rw [hzero, show (0 : UInt32).toNat = 0 from rfl, ← Option.some.inj hp] at heq
      omega
    have hp : p.toUInt32 = phys := by
      rw [← heq, Nat.toUInt32_eq, UInt32.ofNat_toNat]
    have hreads := hread p hphys
    rw [hp] at hreads
    obtain ⟨blk, hblk⟩ := Option.ne_none_iff_exists'.mp hreads
    rw [hfind]
    dsimp only
    rw [if_neg hnot, hblk, Option.bind_some, hp, hblk, UInt32.toNat_mod, hxNat]
    rfl

end Ext4State

/-- A lookup finds what the extents of a tree give exactly for the blocks whose extents the driver follows, and a read
of such blocks gives the bytes of the file up to its end. -/
theorem extent_lookup_exact (s : Ext4State) (ino : UInt32) (inode : ExtInode) (d : ℕ) (h : s.HasTree ino inode d) :
    (∀ l : UInt32, (s.fs.mapFindPhys inode l).map UInt32.toNat =
      formatPhys (s.fs.extentsOf d inode.block) l.toNat ↔ Followed (s.fs.extentsOf d inode.block) l.toNat) ∧
    ∀ off n, off + n < 2 ^ 32 → (∀ x, off ≤ x → x < off + n → x < inode.sizeLo.toNat →
        Followed (s.fs.extentsOf d inode.block) (x / s.blockSize.toNat) ∧
        ∀ p, formatPhys (s.fs.extentsOf d inode.block) (x / s.blockSize.toNat) = some p →
          s.fs.readBlock p.toUInt32 ≠ none) →
      s.read ino off.toUInt32 n = some ((s.formatFile inode (s.fs.extentsOf d inode.block)).bytesFrom off n) := by
  refine ⟨h.lookup, fun off n hend hrange => ?_⟩
  apply Ext4State.read_seen h.sectors h.blocks h.found rfl hend
  intro x hfrom hto hin
  obtain ⟨hfollowed, hread⟩ := hrange x hfrom hto hin
  exact h.seenByte (by omega) hfollowed hread

/-- An inode with two extents in its root: blocks 0 and 1 at 20, and block 4, which is not written, at 30. The first
byte of block 30 is 7. -/
def unwrittenBytes : List (ℕ × UInt8) :=
  [(2056, 5), (5120, 0xA4), (5121, 0x81), (5125, 32), (5154, 8), (5160, 0x0A), (5161, 0xF3), (5162, 2), (5164, 4),
   (5176, 2), (5180, 20), (5184, 4), (5188, 1), (5189, 0x80), (5192, 30), (30720, 7)]

def unwrittenState : Ext4State where
  disk :=
    { sectorSize := 512
      works := fun _ => true
      data := fun n j => (unwrittenBytes.lookup (512 * n.toNat + j)).getD 0 }
  sb := [16] ++ zeros 19 ++ [1] ++ zeros 19 ++ [16] ++ zeros 47 ++ [128] ++ zeros 935
  bg := zeros 32
  blockSize := 1024
  cache := []

def unwrittenInode : ExtInode where
  mode := 0x81A4
  uid := 0
  sizeLo := 8192
  gid := 0
  flags := ext4ExtentsFl
  block := [0x0A, 0xF3, 2, 0, 4] ++ zeros 11 ++ [2, 0, 0, 0, 20, 0, 0, 0] ++ [4, 0, 0, 0, 1, 0x80, 0, 0, 30] ++ zeros 27

theorem unwritten_extents : leafExtents unwrittenInode.block = [⟨0, 2, 20⟩, ⟨4, 0x8001, 30⟩] := by decide +kernel

theorem unwritten_tree : unwrittenState.HasTree 1 unwrittenInode 0 := by
  refine ⟨by decide +kernel, by decide, ⟨⟨by decide, by decide, by decide, by decide⟩, ?_, ?_⟩, by decide, by decide⟩
  · rw [unwritten_extents]
    exact pairwise_pair.mpr (by unfold Extent.Before; decide)
  · rw [unwritten_extents]
    intro e he
    simp only [mem_cons, not_mem_nil, or_false] at he
    rcases he with rfl | rfl
    · exact ⟨⟨by decide, by decide, by decide, by decide⟩, by decide, by decide⟩
    · exact ⟨⟨by decide, by decide, by decide, by decide⟩, by decide, by decide⟩

/-- The initialised extent is followed. -/
theorem initialised_block_exact : (unwrittenState.fs.mapFindPhys unwrittenInode 1).map UInt32.toNat =
      formatPhys (unwrittenState.fs.extentsOf 0 unwrittenInode.block) 1 :=
  ((extent_lookup_exact unwrittenState 1 unwrittenInode 0 unwritten_tree).1 1).mpr (by decide +kernel)

/-- A block of an unwritten extent is found, and its old contents are read. -/
theorem unwritten_block_found : ¬ ∀ (s : Ext4State) (ino : UInt32) (inode : ExtInode) (d : ℕ), s.HasTree ino inode d →
    (∀ l : UInt32, (s.fs.mapFindPhys inode l).map UInt32.toNat = formatPhys (s.fs.extentsOf d inode.block) l.toNat) ∧
    ∀ off n, off + n < 2 ^ 32 →
      s.read ino off.toUInt32 n = some ((s.formatFile inode (s.fs.extentsOf d inode.block)).bytesFrom off n) := by
  intro hclaim
  have hread := (hclaim unwrittenState 1 unwrittenInode 0 unwritten_tree).2 4096 1 (by decide)
  exact absurd hread (by decide +kernel)

end EdgeOS
