import EdgeOS.Filesystems
import EdgeOS.Lib.NamedTree
import EdgeOS.Lib.Runs
import EdgeOS.PathResolve
import Mathlib.Data.List.FinRange
import Mathlib.Data.List.GetD

namespace EdgeOS

open Lib Function List

/-!
The file system in memory that the kernel falls back to for its root: one table of nodes behind the operations of the
`fat32` driver, with the contents of the files. An inode number is the address of a node.
-/

def fat32NodesMax : ℕ := 256
def fat32ContentMax : ℕ := 10000
def fat32PathMax : ℕ := 256

abbrev FatIndex := Fin fat32NodesMax

instance : NeZero fat32NodesMax := ⟨by decide⟩

/-- The values of `type`. -/
inductive FatType
  | none
  | dir
  | file
  deriving DecidableEq, Repr

/-- `fat32_node_t`. -/
structure FatNode where
  used : Bool := false
  type : FatType := .none
  parent : FatIndex := 0
  name : Bytes := []
  content : ℕ → UInt8 := fun _ => 0
  size : ℕ := 0

def FatNode.file (n : FatNode) : Option Bytes :=
  if n.type = .file then some ((List.range n.size).map n.content) else none

/-- `g_nodes`. -/
structure FatTable where
  node : FatIndex → FatNode

namespace FatTable

instance : CoeFun FatTable fun _ => FatIndex → FatNode := ⟨FatTable.node⟩

def set (t : FatTable) (i : FatIndex) (n : FatNode) : FatTable := ⟨Function.update t.node i n⟩

theorem set_self (t : FatTable) (i : FatIndex) (n : FatNode) : t.set i n i = n := update_self _ _ _

theorem set_other (t : FatTable) {i j : FatIndex} (h : j ≠ i) (n : FatNode) : t.set i n j = t j :=
  update_of_ne h _ _

variable (t : FatTable)

def findChild (parent : FatIndex) (name : Bytes) : Option FatIndex :=
  (List.finRange fat32NodesMax).find? fun i => (t i).used ∧ (t i).parent = parent ∧ (t i).name = name

def allocNode : Option FatIndex := (List.finRange fat32NodesMax).find? fun i => !(t i).used

def createNode (parent : FatIndex) (name : Bytes) (type : FatType) : Option FatTable :=
  if name = [] ∨ name = ascii "." ∨ name = ascii ".." then none
  else if fat32NameMax < name.length then none
  else if (t.findChild parent name).isSome then none
  else
    match t.allocNode with
    | none => none
    | some idx => some (t.set idx { used := true, type := type, parent := parent, name := name })

/-- One component in the loop of `fat32_resolve`. -/
def resolvePart (idx : FatIndex) (part : Bytes) : Option FatIndex :=
  if part = ascii "." then some idx
  else if part = ascii ".." then some (if idx ≠ 0 then (t idx).parent else idx)
  else t.findChild idx part

/-- The components of a path as `fat32_resolve` copies them out. -/
def fatParts (path : Bytes) : List Bytes := ((path.splitOn slash).filter (· ≠ [])).map (·.take fat32NameMax)

def resolve (path : Bytes) (from_ : FatIndex) : Option FatIndex :=
  (fatParts path).foldlM t.resolvePart (if path.head? = some slash then 0 else from_)

/-- The slashes at the end of a path that `fat32_resolve_parent` leaves out; the path is given from its end. -/
def trimSlashes : Bytes → Bytes
  | [] => []
  | [c] => [c]
  | c :: rest => if c = slash then trimSlashes rest else c :: rest

/-- `fat32_resolve_parent`: the directory and the last component. -/
def resolveParent (path : Bytes) (from_ : FatIndex) : Option (FatIndex × Bytes) :=
  let back := trimSlashes path.reverse
  let leaf := (back.takeWhile (· ≠ slash)).reverse
  if leaf = [] ∨ fat32NameMax < leaf.length then none
  else
    match back.dropWhile (· ≠ slash) with
    | [] => some (from_, leaf)
    | _ :: [] => some (0, leaf)
    | _ :: before =>
      if fat32PathMax ≤ before.length then none else (t.resolve before.reverse from_).map (·, leaf)

/-- `fat32_open`. The node that the path starts from may be a null pointer. -/
def openNode (path : Bytes) (from_ : Option FatIndex) : Option FatIndex := t.resolve path (from_.getD 0)

/-- `fat32_mkdir` and `fat32_touch`. -/
def makeNode (path : Bytes) (from_ : Option FatIndex) (type : FatType) : Option FatTable :=
  match t.resolveParent path (from_.getD 0) with
  | none => none
  | some (parent, name) =>
    if (t parent).used = false ∨ (t parent).type ≠ .dir then none else t.createNode parent name type

def fat32Mkdir (path : Bytes) (from_ : Option FatIndex) : Option FatTable := t.makeNode path from_ .dir

def fat32Touch (path : Bytes) (from_ : Option FatIndex) : Option FatTable := t.makeNode path from_ .file

def fat32Rm (path : Bytes) (from_ : Option FatIndex) : Option FatTable :=
  match t.openNode path from_ with
  | none => none
  | some i => if (t i).type ≠ .file then none else some (t.set i {})

/-- `fat32_read` into a buffer of `max` bytes, the last of which is for a NUL. -/
def fat32Read (node : Option FatIndex) (max : ℤ) : Option Bytes :=
  match node with
  | none => none
  | some i =>
    if (t i).type ≠ .file ∨ max ≤ 0 then none
    else some ((List.range (min (t i).size (max.toNat - 1))).map (t i).content)

/-- `fat32_init`: the root alone, and then the directories in it. -/
def fat32Root : FatTable := set ⟨fun _ => {}⟩ 0 { used := true, type := .dir }

def fat32Dirs : List Bytes :=
  [ascii "bin", ascii "dev", ascii "root", ascii "etc", ascii "boot", ascii "home", ascii "tmp"]

def fat32Init : FatTable := fat32Dirs.foldl (fun t name => (t.createNode 0 name .dir).getD t) fat32Root

/-! ## The operations of the driver -/

structure FatInode where
  ino : Option FatIndex
  mode : BitVec 16
  size : ℕ
  deriving DecidableEq

def fLookup (dir : Option FatIndex) (name : Bytes) : Option FatInode :=
  (t.openNode name dir).map fun i =>
    ⟨some i, (if (t i).type = .dir then vfsInodeDir else vfsInodeFile) ||| 0o777, (t i).size⟩

/-- `f_read`, which looks at the length only. -/
def fRead (ino : Option FatIndex) (_off len : UInt32) : Option Bytes := t.fat32Read ino len.toInt32.toInt

/-- `f_write`, which looks at the bytes only. -/
def fWrite (ino : Option FatIndex) (_off : UInt32) (data : Bytes) : FatTable × Option ℕ :=
  match ino with
  | none => (t, none)
  | some i =>
    if (t i).type ≠ .file then (t, none)
    else
      let len := min data.length fat32ContentMax
      (t.set i { t i with
        content := fun k => if k < len then data.getD k 0 else if k = len then 0 else (t i).content k
        size := len }, some len)

def fCreate (dir : Option FatIndex) (name : Bytes) : FatTable × Option FatInode :=
  match t.fat32Touch name dir with
  | none => (t, none)
  | some t' => (t', some ⟨t'.openNode name dir, vfsInodeFile ||| 0o777, 0⟩)

def fMkdir (dir : Option FatIndex) (name : Bytes) : FatTable × Option FatInode :=
  match t.fat32Mkdir name dir with
  | none => (t, none)
  | some t' => (t', some ⟨t'.openNode name dir, vfsInodeDir ||| 0o777, 0⟩)

def fUnlink (dir : Option FatIndex) (name : Bytes) : FatTable × Bool :=
  match t.fat32Rm name dir with
  | none => (t, false)
  | some t' => (t', true)

end FatTable

inductive FatCall
  | mount
  | lookup (dir : Option FatIndex) (name : Bytes)
  | create (dir : Option FatIndex) (name : Bytes)
  | mkdir (dir : Option FatIndex) (name : Bytes)
  | unlink (dir : Option FatIndex) (name : Bytes)
  | read (ino : Option FatIndex) (off len : UInt32)
  | write (ino : Option FatIndex) (off : UInt32) (data : Bytes)

namespace FatTable

def step (t : FatTable) : FatCall → FatTable
  | .mount => fat32Init
  | .lookup _ _ => t
  | .create dir name => (t.fCreate dir name).1
  | .mkdir dir name => (t.fMkdir dir name).1
  | .unlink dir name => (t.fUnlink dir name).1
  | .read _ _ _ => t
  | .write ino off data => (t.fWrite ino off data).1

def boot : FatTable := ⟨fun _ => {}⟩

/-! ## What the table holds -/

variable (t : FatTable)

def file (i : FatIndex) : Option Bytes := (t i).file

def links : NamedTree FatIndex Bytes where
  live i := (t i).used = true
  parent i := (t i).parent
  name i := (t i).name
  root := 0

structure Intact : Prop where
  tree : t.links.IsTree
  used : ∀ i, (t i).type ≠ .none → (t i).used = true
  dirs : ∀ i, (t i).used = true → (t (t i).parent).used = true ∧ (t (t i).parent).type = .dir
  root : (t 0).type ≠ .file ∧ (t 0).name = []
  size : ∀ i, (t i).size ≤ fat32ContentMax

structure Adds (t' : FatTable) (i parent : FatIndex) (name : Bytes) (type : FatType) : Prop where
  free : (t i).used = false
  new : ∀ j, (t j).used = true → (t j).parent = parent → (t j).name ≠ name
  eq : t' = t.set i { used := true, type := type, parent := parent, name := name }

variable {t}

theorem findChild_none {parent : FatIndex} {name : Bytes} (h : t.findChild parent name = none) (j : FatIndex)
    (hj : (t j).used = true) (hp : (t j).parent = parent) : (t j).name ≠ name := by
  intro hn
  have := find?_eq_none.mp h j (mem_finRange j)
  exact this (decide_eq_true ⟨hj, hp, hn⟩)

theorem createNode_adds {t' : FatTable} {parent : FatIndex} {name : Bytes} {type : FatType}
    (h : t.createNode parent name type = some t') : ∃ i, t.Adds t' i parent name type := by
  unfold createNode at h
  split_ifs at h with hname hlen hfind
  cases ha : t.allocNode with
  | none =>
    rw [ha] at h
    exact absurd h (by simp)
  | some i =>
    rw [ha] at h
    have hfree := find?_some ha
    refine ⟨i, by simpa using hfree, findChild_none ?_, (Option.some.inj h).symm⟩
    simpa using hfind

theorem makeNode_adds {t' : FatTable} {path : Bytes} {from_ : Option FatIndex} {type : FatType}
    (h : t.makeNode path from_ type = some t') :
    ∃ i parent name, (t parent).used = true ∧ (t parent).type = .dir ∧ t.Adds t' i parent name type := by
  unfold makeNode at h
  cases hr : t.resolveParent path (from_.getD 0) with
  | none =>
    rw [hr] at h
    exact absurd h (by simp)
  | some r =>
    rw [hr] at h
    dsimp only at h
    split_ifs at h with hp
    rw [not_or, Bool.not_eq_false, not_ne_iff] at hp
    obtain ⟨i, hi⟩ := createNode_adds h
    exact ⟨i, r.1, r.2, hp.1, hp.2, hi⟩

namespace Adds

variable {t' : FatTable} {i parent : FatIndex} {name : Bytes} {type : FatType}

theorem self (h : t.Adds t' i parent name type) :
    t' i = { used := true, type := type, parent := parent, name := name } := by
  rw [h.eq, set_self]

theorem other (h : t.Adds t' i parent name type) {j : FatIndex} (hj : j ≠ i) : t' j = t j := by
  rw [h.eq, set_other _ hj]

end Adds

/-- The step lemma of `fat32_create_node` in a used directory. -/
theorem Intact.adds {t' : FatTable} {i parent : FatIndex} {name : Bytes} {type : FatType} (hI : t.Intact)
    (hu : (t parent).used = true) (hd : (t parent).type = .dir) (h : t.Adds t' i parent name type) : t'.Intact := by
  have hlive0 : (t 0).used = true := by
    obtain ⟨path, hpath⟩ := hI.tree.reached parent hu
    exact hpath.root_live
  have hne : ∀ j, (t j).used = true → j ≠ i := fun j hj he => by
    rw [he, h.free] at hj
    exact absurd hj (by simp)
  have hi0 : i ≠ 0 := (hne 0 hlive0).symm
  refine ⟨hI.tree.grow rfl hi0 ?_ (fun j => ?_) (fun j hj => ?_) (fun j hj => ?_) ?_ ?_, fun j hj => ?_, fun j hj => ?_,
    ?_, fun j => ?_⟩
  · change ¬ (t i).used = true
    rw [h.free]
    exact Bool.false_ne_true
  · change (t' j).used = true ↔ (t j).used = true ∨ j = i
    by_cases hj : j = i
    · rw [hj, h.self]
      simp
    · rw [h.other hj]
      simp [hj]
  · exact congrArg FatNode.parent (h.other hj)
  · exact congrArg FatNode.name (h.other hj)
  · change (t (t' i).parent).used = true
    rw [h.self]
    exact hu
  · intro j hj hp
    change (t j).parent = (t' i).parent at hp
    change (t j).name ≠ (t' i).name
    rw [h.self] at hp ⊢
    exact h.new j hj hp
  · by_cases he : j = i
    · rw [he, h.self]
    · rw [h.other he] at hj ⊢
      exact hI.used j hj
  · by_cases he : j = i
    · rw [he, h.self]
      change (t' parent).used = true ∧ (t' parent).type = .dir
      rw [h.other (hne parent hu)]
      exact ⟨hu, hd⟩
    · rw [h.other he] at hj ⊢
      rw [h.other (hne _ (hI.dirs j hj).1)]
      exact hI.dirs j hj
  · rw [h.other hi0.symm]
    exact hI.root
  · by_cases he : j = i
    · rw [he, h.self]
      exact Nat.zero_le _
    · rw [h.other he]
      exact hI.size j

theorem Intact.wipe {i : FatIndex} (hI : t.Intact) (hi : (t i).type = .file) : Intact (t.set i {}) := by
  have hi0 : i ≠ 0 := fun h => hI.root.1 (h ▸ hi)
  have hother : ∀ j, j ≠ i → t.set i {} j = t j := fun j hj => set_other _ hj _
  have hself : t.set i {} i = ({} : FatNode) := set_self _ _ _
  have hleaf : ∀ j, (t j).used = true → (t j).parent ≠ i := fun j hj he => by
    have := (hI.dirs j hj).2
    rw [he, hi] at this
    exact absurd this (by decide)
  have hlive : ∀ j, (t.set i {} j).used = true ↔ (t j).used = true ∧ j ≠ i := fun j => by
    by_cases he : j = i
    · rw [he, hself]
      simp
    · rw [hother j he]
      simp [he]
  refine ⟨hI.tree.drop rfl hlive (fun j hj => congrArg FatNode.parent (hother j hj))
    (fun j hj => congrArg FatNode.name (hother j hj)) (fun j hj _ => hleaf j hj), fun j hj => ?_, fun j hj => ?_, ?_,
    fun j => ?_⟩
  · by_cases he : j = i
    · rw [he, hself] at hj
      exact absurd rfl hj
    · rw [hother j he] at hj ⊢
      exact hI.used j hj
  · obtain ⟨hj, he⟩ := (hlive j).mp hj
    rw [hother j he, hother _ (hleaf j hj)]
    exact hI.dirs j hj
  · rw [hother 0 hi0.symm]
    exact hI.root
  · by_cases he : j = i
    · rw [he, hself]
      exact Nat.zero_le _
    · rw [hother j he]
      exact hI.size j

/-- A field that a new node shares with the old one is the same everywhere. -/
theorem update_field {β : Type*} (field : FatNode → β) {i : FatIndex} {n : FatNode} (h : field n = field (t i))
    (j : FatIndex) : field (t.set i n j) = field (t j) := by
  by_cases he : j = i
  · rw [he, set_self, h]
  · rw [set_other _ he]

/-- New contents change neither the tree nor the kinds of its nodes. -/
theorem Intact.stored {i : FatIndex} {n : FatNode} (hI : t.Intact) (hu : n.used = (t i).used) (ht : n.type = (t i).type)
    (hp : n.parent = (t i).parent) (hn : n.name = (t i).name) (hs : n.size ≤ fat32ContentMax) :
    Intact (t.set i n) := by
  have hused := update_field FatNode.used hu
  have htype := update_field FatNode.type ht
  have hparent := update_field FatNode.parent hp
  have hlinks : links (t.set i n) = t.links := by
    unfold links
    simp only [hused, hparent, update_field FatNode.name hn]
  refine ⟨hlinks ▸ hI.tree, fun j hj => ?_, fun j hj => ?_, ?_, fun j => ?_⟩
  · rw [htype] at hj
    rw [hused]
    exact hI.used j hj
  · rw [hused] at hj
    rw [hparent, hused, htype]
    exact hI.dirs j hj
  · rw [htype, update_field FatNode.name hn]
    exact hI.root
  · by_cases he : j = i
    · rw [he, set_self]
      exact hs
    · rw [set_other _ he]
      exact hI.size j

theorem inv_boot : boot.Intact where
  tree := NamedTree.isTree_of_empty fun _ => Bool.false_ne_true
  used i h := absurd rfl h
  dirs i h := absurd h Bool.false_ne_true
  root := ⟨by decide, rfl⟩
  size i := Nat.zero_le _

theorem fat32Root_other {j : FatIndex} (hj : j ≠ 0) : fat32Root j = {} := set_other _ hj _

theorem fat32Root_self : fat32Root 0 = { used := true, type := .dir } := set_self _ _ _

theorem inv_root : fat32Root.Intact := by
  have hlive : ∀ j, (fat32Root j).used = true ↔ j = 0 := fun j => by
    by_cases hj : j = 0
    · rw [hj, fat32Root_self]
      simp
    · rw [fat32Root_other hj]
      simp [hj]
  refine ⟨NamedTree.isTree_of_root hlive, fun j hj => ?_, fun j hj => ?_, ?_, fun j => ?_⟩
  · by_cases he : j = 0
    · exact (hlive j).mpr he
    · rw [fat32Root_other he] at hj
      exact absurd rfl hj
  · rw [(hlive j).mp hj, fat32Root_self]
    change (fat32Root 0).used = true ∧ (fat32Root 0).type = .dir
    rw [fat32Root_self]
    exact ⟨rfl, rfl⟩
  · rw [fat32Root_self]
    exact ⟨by decide, rfl⟩
  · by_cases he : j = 0
    · rw [he, fat32Root_self]
      exact Nat.zero_le _
    · rw [fat32Root_other he]
      exact Nat.zero_le _

/-- Creating directories under the root keeps the table free of files. -/
theorem makeDirs (names : List Bytes) {t : FatTable} (hI : t.Intact) (hu : (t 0).used = true) (hd : (t 0).type = .dir)
    (hf : ∀ i, (t i).type ≠ .file) :
    Intact (names.foldl (fun t name => (t.createNode 0 name .dir).getD t) t) ∧
      ∀ i, (names.foldl (fun t name => (t.createNode 0 name .dir).getD t) t i).type ≠ .file := by
  induction names generalizing t with
  | nil => exact ⟨hI, hf⟩
  | cons name names ih =>
    rw [foldl_cons]
    cases hc : t.createNode 0 name .dir with
    | none => exact ih hI hu hd hf
    | some t' =>
      obtain ⟨i, hi⟩ := createNode_adds hc
      have h0 : (0 : FatIndex) ≠ i := fun he => by
        have := hi.free
        rw [← he, hu] at this
        exact absurd this (by decide)
      refine ih (hI.adds hu hd hi) ?_ ?_ fun j => ?_
      · change (t' 0).used = true
        rw [hi.other h0]
        exact hu
      · change (t' 0).type = .dir
        rw [hi.other h0]
        exact hd
      · change (t' j).type ≠ .file
        by_cases he : j = i
        · rw [he, hi.self]
          exact (by decide : FatType.dir ≠ FatType.file)
        · rw [hi.other he]
          exact hf j

theorem fat32Init_spec : fat32Init.Intact ∧ ∀ i, (fat32Init i).type ≠ .file := by
  unfold fat32Init
  refine makeDirs fat32Dirs inv_root (by rw [fat32Root_self]) (by rw [fat32Root_self]) fun i => ?_
  by_cases hi : i = 0
  · rw [hi, fat32Root_self]
    decide
  · rw [fat32Root_other hi]
    decide

theorem Intact.step (hI : t.Intact) (e : FatCall) : (t.step e).Intact := by
  cases e with
  | mount => exact fat32Init_spec.1
  | lookup dir name => exact hI
  | create dir name =>
    change (t.fCreate dir name).1.Intact
    unfold fCreate
    cases h : t.fat32Touch name dir with
    | none => exact hI
    | some t' =>
      obtain ⟨i, parent, leaf, hu, hd, ha⟩ := makeNode_adds h
      exact hI.adds hu hd ha
  | mkdir dir name =>
    change (t.fMkdir dir name).1.Intact
    unfold fMkdir
    cases h : t.fat32Mkdir name dir with
    | none => exact hI
    | some t' =>
      obtain ⟨i, parent, leaf, hu, hd, ha⟩ := makeNode_adds h
      exact hI.adds hu hd ha
  | unlink dir name =>
    change (t.fUnlink dir name).1.Intact
    unfold fUnlink fat32Rm
    cases t.openNode name dir with
    | none => exact hI
    | some i =>
      dsimp only
      split_ifs with hi
      · exact hI
      · exact hI.wipe (not_not.mp hi)
  | read ino off len => exact hI
  | write ino off data =>
    change (t.fWrite ino off data).1.Intact
    unfold fWrite
    cases ino with
    | none => exact hI
    | some i =>
      dsimp only
      split_ifs with hi
      · exact hI
      · exact hI.stored rfl rfl rfl rfl (Nat.min_le_right _ _)

/-! ## Files -/

/-- `g` is the file `f` after `w` of the bytes were written at `off`. -/
structure Wrote (f : Bytes) (off : ℕ) (data : Bytes) (w : ℕ) (g : Bytes) : Prop where
  size : g.length = max f.length (off + w)
  stored : (g.drop off).take w = data.take w
  kept : ∀ k, k < f.length → k < off ∨ off + w ≤ k → g[k]? = f[k]?

variable (t) in
def Behaves : FatCall → Prop
  | .mount => ∀ i f, t.file i = some f → fat32Init.file i = some f
  | .lookup dir name => ∀ out, t.fLookup dir name = some out →
      ∃ i, out.ino = some i ∧ ∀ f, t.file i = some f → out.size = f.length
  | .create dir name => ∀ i, (t.fCreate dir name).1.file i = t.file i ∨
      t.file i = none ∧ (t.fCreate dir name).1.file i = some []
  | .mkdir dir name => ∀ i, (t.fMkdir dir name).1.file i = t.file i
  | .unlink dir name => ∀ i, (t.fUnlink dir name).1.file i = t.file i ∨
      t.openNode name dir = some i ∧ (t.fUnlink dir name).1.file i = none
  | .read ino off len => ∀ i f, ino = some i → t.file i = some f →
      t.fRead ino off len = some ((f.drop off.toNat).take len.toNat)
  | .write ino off data =>
    match (t.fWrite ino off data).2 with
    | none => (t.fWrite ino off data).1 = t
    | some w => ∃ i f g, ino = some i ∧ t.file i = some f ∧ (t.fWrite ino off data).1.file i = some g ∧
        Wrote f off.toNat data w g ∧ ∀ j, j ≠ i → (t.fWrite ino off data).1.file j = t.file j

variable (t) in
/-- A read asks for more than the file has, or for nothing but what the driver returns anyway; a write starts at the
beginning and covers the file; a mount finds no file. -/
def OffsetHarmless : FatCall → Prop
  | .mount => ∀ i, t.file i = none
  | .read ino off len => ∀ i f, ino = some i → t.file i = some f → 0 < len.toNat ∧ len.toNat < 2 ^ 31 ∧
        (f.length ≤ off.toNat ∧ (f = [] ∨ len.toNat = 1) ∨ off.toNat = 0 ∧ f.length < len.toNat ∨
          off.toNat + len.toNat = f.length + 1 ∧ f.take (len.toNat - 1) = f.drop off.toNat)
  | .write ino off data => ∀ i f, ino = some i → t.file i = some f →
      off.toNat = 0 ∧ f.length ≤ min data.length fat32ContentMax
  | _ => True

theorem file_some {i : FatIndex} {f : Bytes} (h : t.file i = some f) :
    (t i).type = .file ∧ f = (List.range (t i).size).map (t i).content := by
  unfold file FatNode.file at h
  split_ifs at h with ht
  exact ⟨ht, (Option.some.inj h).symm⟩

theorem file_length {i : FatIndex} {f : Bytes} (h : t.file i = some f) : f.length = (t i).size := by
  rw [(file_some h).2, length_map, length_range]

theorem file_none {i : FatIndex} : t.file i = none ↔ (t i).type ≠ .file := by
  unfold file FatNode.file
  split_ifs with h
  · simp [h]
  · simp [h]

theorem file_of_other {t' : FatTable} {i : FatIndex} (h : t' i = t i) : t'.file i = t.file i := by
  unfold file
  rw [h]

/-- The bytes of the first half of a file, and what the file has at a place. -/
theorem take_pred_eq_iff (f : Bytes) (off : ℕ) {len : ℕ} (hlen : 0 < len) : f.take (len - 1) = (f.drop off).take len ↔
      (f.length ≤ off ∧ (f = [] ∨ len = 1) ∨ off = 0 ∧ f.length < len ∨
        off + len = f.length + 1 ∧ f.take (len - 1) = f.drop off) := by
  have hl : (f.take (len - 1)).length = min (len - 1) f.length := length_take
  have hr : ((f.drop off).take len).length = min len (f.length - off) := by rw [length_take, length_drop]
  constructor
  · intro h
    have hlen' := congrArg List.length h
    rw [hl, hr] at hlen'
    by_cases hoff : f.length ≤ off
    · refine .inl ⟨hoff, ?_⟩
      rcases Nat.eq_zero_or_pos f.length with h0 | h0
      · exact .inl (length_eq_zero_iff.mp h0)
      · exact .inr (by omega)
    rcases Nat.eq_zero_or_pos off with h0 | h0
    · exact .inr (.inl ⟨h0, by omega⟩)
    have he : off + len = f.length + 1 := by omega
    have hd : (f.drop off).take len = f.drop off :=
      take_of_length_le (by rw [length_drop]; omega)
    exact .inr (.inr ⟨he, h.trans hd⟩)
  · rintro (⟨hoff, h⟩ | ⟨rfl, h⟩ | ⟨hoff, h⟩)
    · rw [drop_of_length_le hoff, take_nil]
      rcases h with rfl | rfl
      · exact take_nil
      · rfl
    · rw [drop_zero, take_of_length_le (by omega), take_of_length_le (by omega)]
    · rw [h, take_of_length_le (by rw [length_drop]; omega)]

theorem toInt32_pos_iff (len : UInt32) : 0 < len.toInt32.toInt ↔ 0 < len.toNat ∧ len.toNat < 2 ^ 31 := by
  have h : len.toInt32.toInt = if 2 * len.toNat < 2 ^ 32 then (len.toNat : ℤ) else (len.toNat : ℤ) - 2 ^ 32 :=
    BitVec.toInt_eq_toNat_cond len.toBitVec
  have hlt := len.toNat_lt
  rw [h]
  split_ifs <;> omega

theorem toInt32_toNat {len : UInt32} (h : len.toNat < 2 ^ 31) : len.toInt32.toInt.toNat = len.toNat := by
  have he : len.toInt32.toInt = if 2 * len.toNat < 2 ^ 32 then (len.toNat : ℤ) else (len.toNat : ℤ) - 2 ^ 32 :=
    BitVec.toInt_eq_toNat_cond len.toBitVec
  rw [he, if_pos (by omega), Int.toNat_natCast]

theorem map_range_min (g : ℕ → UInt8) (n m : ℕ) : (List.range (min n m)).map g = ((List.range n).map g).take m := by
  rw [← map_take, take_range, Nat.min_comm]

/-- The read of a file is its beginning, less one byte of the buffer. -/
theorem fRead_file {i : FatIndex} {f : Bytes} (h : t.file i = some f) (off len : UInt32) : t.fRead (some i) off len =
      if 0 < len.toNat ∧ len.toNat < 2 ^ 31 then some (f.take (len.toNat - 1)) else none := by
  obtain ⟨ht, hf⟩ := file_some h
  unfold fRead fat32Read
  dsimp only
  by_cases hpos : 0 < len.toNat ∧ len.toNat < 2 ^ 31
  · have hint := (toInt32_pos_iff len).mpr hpos
    rw [if_pos hpos, if_neg (by rw [not_or, not_ne_iff, not_le]; exact ⟨ht, hint⟩), toInt32_toNat hpos.2,
      map_range_min, hf]
  · rw [if_neg hpos, if_pos (.inr (not_lt.mp (mt (toInt32_pos_iff len).mp hpos)))]

theorem behaves_read_iff (ino : Option FatIndex) (off len : UInt32) :
    t.OffsetHarmless (.read ino off len) ↔ t.Behaves (.read ino off len) := by
  apply forall_congr'
  intro i
  apply forall_congr'
  intro f
  refine forall_congr' fun hino => forall_congr' fun hf => ?_
  rw [hino, fRead_file hf]
  by_cases hpos : 0 < len.toNat ∧ len.toNat < 2 ^ 31
  · rw [if_pos hpos, Option.some.injEq, take_pred_eq_iff f _ hpos.1, ← and_assoc, and_iff_right hpos]
  · rw [if_neg hpos, ← and_assoc]
    exact iff_of_false (fun h => hpos h.1) (by simp)

theorem fWrite_file {i : FatIndex} {f : Bytes} (h : t.file i = some f) (off : UInt32) (data : Bytes) :
    (t.fWrite (some i) off data).2 = some (min data.length fat32ContentMax) ∧
      (t.fWrite (some i) off data).1.file i = some (data.take fat32ContentMax) ∧
      ∀ j, j ≠ i → (t.fWrite (some i) off data).1.file j = t.file j := by
  have ht := (file_some h).1
  unfold fWrite
  dsimp only
  rw [if_neg (not_not.mpr ht)]
  refine ⟨rfl, ?_, fun j hj => file_of_other (set_other _ hj _)⟩
  unfold file
  dsimp only
  rw [set_self]
  unfold FatNode.file
  rw [if_pos ht]
  congr 1
  apply ext_getElem
  · rw [length_map, length_range, length_take, Nat.min_comm]
  · intro k hk hk'
    rw [length_map, length_range] at hk
    rw [getElem_map, getElem_range, getElem_take]
    dsimp only at hk ⊢
    rw [if_pos hk, getD_eq_getElem _ _ (by omega)]

theorem wrote_iff (f : Bytes) (off : ℕ) (data : Bytes) : off = 0 ∧ f.length ≤ min data.length fat32ContentMax ↔
      Wrote f off data (min data.length fat32ContentMax) (data.take fat32ContentMax) := by
  have hl : (data.take fat32ContentMax).length = min data.length fat32ContentMax := by
    rw [length_take, Nat.min_comm]
  constructor
  · rintro ⟨rfl, h⟩
    refine ⟨by omega, ?_, fun k hk hk' => absurd hk' (by omega)⟩
    rw [drop_zero, take_take, Nat.min_eq_left (Nat.min_le_right _ _)]
  · intro h
    have := h.size
    omega

theorem behaves_write_iff (ino : Option FatIndex) (off : UInt32) (data : Bytes) :
    t.OffsetHarmless (.write ino off data) ↔ t.Behaves (.write ino off data) := by
  cases ino with
  | none => exact iff_of_true (fun i f h => absurd h (by simp)) rfl
  | some i =>
    cases hf : t.file i with
    | none =>
      have ht := file_none.mp hf
      have hw : t.fWrite (some i) off data = (t, none) := if_pos ht
      refine iff_of_true (fun j f hj h => ?_) ?_
      · rw [← Option.some.inj hj, hf] at h
        exact absurd h (by simp)
      · unfold Behaves
        dsimp only
        rw [hw]
    | some f =>
      obtain ⟨hw, hg, hother⟩ := fWrite_file hf off data
      unfold Behaves OffsetHarmless
      dsimp only
      rw [hw]
      constructor
      · intro h
        exact ⟨i, f, _, rfl, hf, hg, (wrote_iff f _ data).mp (h i f rfl hf), hother⟩
      · rintro ⟨j, f', g, hj, hf', hg', hwrote, _⟩ k f'' hk hf''
        obtain rfl := Option.some.inj hj
        obtain rfl := Option.some.inj hk
        obtain rfl := Option.some.inj (hf'.symm.trans hf'')
        obtain rfl := Option.some.inj (hg.symm.trans hg')
        exact (wrote_iff _ _ data).mpr hwrote

theorem behaves_mount_iff : t.OffsetHarmless .mount ↔ t.Behaves .mount := by
  refine forall_congr' fun i => ?_
  have hnone : fat32Init.file i = none := file_none.mpr (fat32Init_spec.2 i)
  constructor
  · intro h f hf
    rw [h] at hf
    exact absurd hf (by simp)
  · intro h
    cases hf : t.file i with
    | none => rfl
    | some f => exact absurd (hnone.symm.trans (h f hf)) (by simp)

theorem behaves_lookup (dir : Option FatIndex) (name : Bytes) : t.Behaves (.lookup dir name) := by
  intro out h
  obtain ⟨i, _, rfl⟩ := Option.map_eq_some_iff.mp h
  exact ⟨i, rfl, fun f hf => (file_length hf).symm⟩

theorem Intact.free_file (hI : t.Intact) {i : FatIndex} (h : (t i).used = false) : t.file i = none := by
  apply file_none.mpr
  intro hf
  have := hI.used i (by rw [hf]; decide)
  rw [h] at this
  exact absurd this (by decide)

theorem behaves_create (hI : t.Intact) (dir : Option FatIndex) (name : Bytes) : t.Behaves (.create dir name) := by
  intro j
  unfold fCreate
  cases h : t.fat32Touch name dir with
  | none => exact .inl rfl
  | some t' =>
    obtain ⟨i, parent, leaf, _, _, ha⟩ := makeNode_adds h
    by_cases hj : j = i
    · refine .inr ⟨hI.free_file (hj ▸ ha.free), ?_⟩
      change (t' j).file = some []
      rw [hj, ha.self]
      rfl
    · exact .inl (file_of_other (ha.other hj))

theorem behaves_mkdir (hI : t.Intact) (dir : Option FatIndex) (name : Bytes) : t.Behaves (.mkdir dir name) := by
  intro j
  unfold fMkdir
  cases h : t.fat32Mkdir name dir with
  | none => rfl
  | some t' =>
    obtain ⟨i, parent, leaf, _, _, ha⟩ := makeNode_adds h
    by_cases hj : j = i
    · rw [hI.free_file (hj ▸ ha.free)]
      change (t' j).file = none
      rw [hj, ha.self]
      rfl
    · exact file_of_other (ha.other hj)

theorem behaves_unlink (dir : Option FatIndex) (name : Bytes) : t.Behaves (.unlink dir name) := by
  intro j
  unfold fUnlink fat32Rm
  cases t.openNode name dir with
  | none => exact .inl rfl
  | some i =>
    dsimp only
    split_ifs with hi
    · exact .inl rfl
    by_cases hj : j = i
    · refine .inr ⟨congrArg some hj.symm, ?_⟩
      change (t.set i {} j).file = none
      rw [hj, set_self]
      rfl
    · exact .inl (file_of_other (set_other _ hj _))

theorem Intact.behaves_iff (hI : t.Intact) (e : FatCall) : t.OffsetHarmless e ↔ t.Behaves e := by
  cases e with
  | mount => exact behaves_mount_iff
  | lookup dir name => exact iff_of_true trivial (behaves_lookup dir name)
  | create dir name => exact iff_of_true trivial (behaves_create hI dir name)
  | mkdir dir name => exact iff_of_true trivial (behaves_mkdir hI dir name)
  | unlink dir name => exact iff_of_true trivial (behaves_unlink dir name)
  | read ino off len => exact behaves_read_iff ino off len
  | write ino off data => exact behaves_write_iff ino off data

theorem Intact.findChild_iff (hI : t.Intact) {parent i : FatIndex} {name : Bytes} (hname : name ≠ []) :
    t.findChild parent name = some i ↔ (t i).used = true ∧ (t i).parent = parent ∧ (t i).name = name := by
  have hchild : ∀ j, t.findChild parent name = some j →
      (t j).used = true ∧ (t j).parent = parent ∧ (t j).name = name := fun j hj => by
    have := find?_some hj
    exact of_decide_eq_true this
  have hroot : ∀ j, (t j).name = name → j ≠ 0 := fun j hj he => by
    rw [he, hI.root.2] at hj
    exact hname hj.symm
  refine ⟨hchild i, fun ⟨hu, hp, hn⟩ => ?_⟩
  cases hf : t.findChild parent name with
  | none => exact absurd hn (findChild_none hf i hu hp)
  | some j =>
    obtain ⟨hu', hp', hn'⟩ := hchild j hf
    exact congrArg some
      (hI.tree.siblings j i hu' hu (hroot j hn') (hroot i hn) (hp'.trans hp.symm) (hn'.trans hn.symm))

/-- What a list of plain names resolves to from the root is the node with that path in the tree. -/
theorem Intact.resolve_names_iff (hI : t.Intact) (hroot : (t 0).used = true) {names : List Bytes}
    (h : ∀ a ∈ names, a ≠ [] ∧ a ≠ ascii "." ∧ a ≠ ascii "..") {i : FatIndex} :
    names.foldlM t.resolvePart 0 = some i ↔ t.links.At names.reverse i := by
  induction names using reverseRecOn generalizing i with
  | nil =>
    rw [foldlM_nil, reverse_nil]
    constructor
    · intro he
      rw [← Option.some.inj he]
      exact .root hroot
    · intro he
      rcases he.inv with ⟨_, rfl⟩ | ⟨_, hne, _⟩
      · rfl
      · exact absurd hne.symm (cons_ne_nil _ _)
  | append_singleton names a ih =>
    obtain ⟨hnil, hdot, hdots⟩ := h a (mem_append_right _ (mem_singleton_self a))
    have hpart : ∀ idx, t.resolvePart idx a = t.findChild idx a := fun idx => by
      unfold resolvePart
      rw [if_neg hdot, if_neg hdots]
    have ih := @ih fun b hb => h b (mem_append_left _ hb)
    rw [foldlM_append, reverse_append, reverse_singleton, singleton_append]
    constructor
    · intro he
      obtain ⟨idx, hidx, he⟩ := Option.bind_eq_some_iff.mp he
      rw [foldlM_cons, hpart] at he
      obtain ⟨j, hj, he⟩ := Option.bind_eq_some_iff.mp he
      obtain rfl := Option.some.inj he
      obtain ⟨hu, hp, hn⟩ := (hI.findChild_iff hnil).mp hj
      have hne : j ≠ 0 := fun h0 => by
        rw [h0, hI.root.2] at hn
        exact hnil hn.symm
      have hparent : t.links.At names.reverse (t.links.parent j) := by
        change t.links.At names.reverse (t j).parent
        rw [hp]
        exact ih.mp hidx
      rw [← hn]
      exact .child hne hu hparent
    · intro he
      rcases he.inv with ⟨hl, _⟩ | ⟨path, hl, hne, hp⟩
      · exact absurd hl (cons_ne_nil _ _)
      obtain ⟨hn, rfl⟩ := cons.inj hl
      have hfind : t.findChild (t i).parent a = some i := (hI.findChild_iff hnil).mpr ⟨he.live, rfl, hn.symm⟩
      rw [ih.mpr hp]
      change t.resolvePart (t i).parent a >>= pure = some i
      rw [hpart, hfind]
      rfl

theorem ne_of_mem_fatParts {path a : Bytes} (h : a ∈ fatParts path) : a ≠ [] := by
  obtain ⟨b, hb, rfl⟩ := mem_map.mp h
  rw [Ne, take_eq_nil_iff]
  exact not_or.mpr ⟨by decide, of_decide_eq_true (mem_filter.mp hb).2⟩

/-- In every run an absolute path without dots resolves to the node that has this path in the tree. -/
theorem absolute_path_resolves (es : List FatCall) (path : Bytes) (from_ i : FatIndex) (hslash : path.head? = some slash)
    (hdots : ∀ a ∈ fatParts path, a ≠ ascii "." ∧ a ≠ ascii "..") (hroot : (run step boot es 0).used = true) :
    (run step boot es).resolve path from_ = some i ↔ (run step boot es).links.At (fatParts path).reverse i := by
  have hI : (run step boot es).Intact :=
    run_invariant (fun s e (h : Intact s) _ => h.step e) inv_boot (meets_of_forall (fun _ _ => trivial) _ _)
  unfold resolve
  rw [if_pos hslash]
  exact hI.resolve_names_iff hroot fun a ha => ⟨ne_of_mem_fatParts ha, hdots a ha⟩

theorem absolute_path_resolves_tmp : (run step boot [.mount]).resolve (ascii "//tmp/") 3 = some 7 ∧
    (run step boot [.mount]).links.At [ascii "tmp"] 7 :=
  ⟨by decide +kernel, (absolute_path_resolves [.mount] (ascii "//tmp/") 3 7 rfl (by decide +kernel)
    (by decide +kernel)).mp (by decide +kernel)⟩

/-- In every run the table is a tree whose files fit, whatever the calls are; the files behave as byte arrays in
exactly those runs in which no call reaches what the driver leaves out. -/
theorem files_behave_iff (es : List FatCall) : (Meets step Behaves boot es ↔ Meets step OffsetHarmless boot es) ∧
      (∀ i, (run step boot es i).used = true → ∃ path, (run step boot es).links.At path i) ∧
      (∀ path i j, (run step boot es).links.At path i → (run step boot es).links.At path j → i = j) ∧
      ∀ i f, (run step boot es).file i = some f → (run step boot es i).used = true ∧ f.length ≤ fat32ContentMax := by
  have hI : (run step boot es).Intact :=
    run_invariant (fun s e (h : Intact s) _ => h.step e) inv_boot (meets_of_forall (fun _ _ => trivial) _ _)
  refine ⟨(meets_iff (fun s e (h : Intact s) _ => h.step e) (fun s e h => h.behaves_iff e) inv_boot).symm,
    hI.tree.reached, fun path i j => hI.tree.node_unique, fun i f hf => ⟨hI.used i ?_, ?_⟩⟩
  · rw [(file_some hf).1]
    decide
  · rw [file_length hf]
    exact hI.size i

def secondByte : List FatCall :=
  [.mount, .create none (ascii "a"), .write (some 8) 0 [1, 2], .read (some 8) 1 1]

theorem secondByte_not_behave : ¬ Meets step Behaves boot secondByte := by
  rintro ⟨_, _, _, hread, _⟩
  have hfile : (run step boot (secondByte.take 3)).file 8 = some [1, 2] := by decide +kernel
  have hgot : (run step boot (secondByte.take 3)).fRead (some 8) 1 1 = some [] := by decide +kernel
  have := hgot.symm.trans (hread 8 [1, 2] rfl hfile)
  exact absurd this (by decide)

end FatTable

end EdgeOS
