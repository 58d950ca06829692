import EdgeOS.ExtentFormat
import Mathlib.Data.List.Find

namespace EdgeOS

/-!
The walk of a path through the directories of a mounted tree, with the entries of a directory as its format has them:
names up to 255 bytes, in all the blocks of the directory, for inodes of any type.
-/

open List

/-! ## The entries of a directory -/

/-- A record that is in use and has room for its name. -/
def Dirent.Sound (de : Dirent) : Prop := de.inode ≠ 0 ∧ 0 < de.nameLen ∧ Ext2Fs.recLenMin de.nameLen ≤ de.recLen

instance (de : Dirent) : Decidable de.Sound := inferInstanceAs (Decidable (_ ∧ _))

namespace ExtFs

variable (x : ExtFs)

/-- The physical block of a block of a file: by the extents or by the pointers, up to triple indirect ones. -/
def formatBlock (inode : ExtInode) (i : ℕ) : Option ℕ :=
  let pointers := (blockMap x.readBlock (x.blockSize / 4).toNat inode i).map UInt32.toNat
  match x with
  | ext4 fs =>
    if inode.flags &&& ext4ExtentsFl ≠ 0 then formatPhys (fs.extentsOf (nodeDepth inode.block) inode.block) i
    else pointers
  | ext2 _ => pointers

/-- The blocks of a file, as many as its size says. There is none in a hole. -/
def formatBlocks (inode : ExtInode) : List (Option Bytes) :=
  (List.range ((inode.sizeLo.toNat + x.blockSize.toNat - 1) / x.blockSize.toNat)).map fun i =>
    (x.formatBlock inode i).bind fun phys => if phys < 2 ^ 32 then x.readBlock phys.toUInt32 else none

/-- The first record of a directory with exactly the name. -/
def recordNamed (dino : ExtInode) (name : Bytes) : Option Dirent :=
  (records x.blockSize.toNat (x.formatBlocks dino)).find? fun de => de.Sound ∧ de.name = name

def entry (dir : VfsNode) (name : Bytes) : Option VfsNode :=
  (x.readInode dir.ino.toUInt32).bind fun dino => (x.recordNamed dino name).bind fun de =>
    (x.readInode de.inode).map fun inode => { dir with
      ino := de.inode.toNat, mode := vfsModeFromExt inode.mode, size := inode.sizeLo.toNat
      uid := inode.uid.toNat, gid := inode.gid.toNat }

end ExtFs

/-- The names in a directory of procfs. A task has its number without leading zeros. -/
def ProcTasks.names (p : ProcTasks) (dir : VfsNode) : List (Bytes × VfsNode) :=
  let pid := if dir.private0 = procNodeSelfDir then p.self else dir.private1
  if dir.private0 = procNodeRoot then
    procRootNames ++ p.pids.map fun pid =>
      (ascii (Nat.repr pid), procFillInode procNodePidDir pid (vfsInodeDir ||| 0o555) 7)
  else if dir.private0 = procNodeNetDir then procNetNames
  else if (dir.private0 = procNodePidDir ∨ dir.private0 = procNodeSelfDir) ∧ pid ∈ p.pids then procPidNames pid
  else []

def Fat32Nodes.entry (nodes : Fat32Nodes) (dir : VfsNode) (name : Bytes) : Option VfsNode :=
  (nodes.findChild (dir.ino - 1) name).map fun idx =>
    let n := nodes.getD idx {}
    { dir with ino := idx + 1, mode := (if n.isDir then vfsInodeDir else vfsInodeFile) ||| 0o777, size := n.size }

/-- The entry of a directory that is named exactly `name`. -/
def Filesystem.entry : Filesystem → VfsNode → Bytes → Option VfsNode
  | .ext4 fs => (ExtFs.ext4 fs).entry
  | .ext2 fs => (ExtFs.ext2 fs).entry
  | .proc tasks => fun dir => nodeNamed (tasks.names dir)
  | .fat32 nodes => nodes.entry

/-! ## The walk -/

/-- A way along the names of `cs`, from `x` to `z`. `steps` are the inodes that it leaves, each with the name. -/
inductive Way (R : VfsNode → Bytes → VfsNode → Prop) :
    VfsNode → List Bytes → List (VfsNode × Bytes) → VfsNode → Prop
  | done (x : VfsNode) : Way R x [] [] x
  | step {x y z : VfsNode} {c : Bytes} {cs : List Bytes} {steps : List (VfsNode × Bytes)}
      (hstep : R x c y) (hrest : Way R y cs steps z) : Way R x (c :: cs) ((x, c) :: steps) z

namespace Filesystem

variable (fs : Filesystem)

/-- A step of the walk: from a directory to its entry of exactly that name. -/
def Enters (x : VfsNode) (c : Bytes) (y : VfsNode) : Prop := x.IsDir ∧ fs.entry x c = some y

/-- A step of `vfs_resolve`: what the driver finds for the name as it is cut. -/
def Finds (x : VfsNode) (c : Bytes) (y : VfsNode) : Prop := fs.lookup x (c.take (vfsNameMax - 1)) = some y

end Filesystem

/-- An absolute normalised path of any length. -/
structure NormalPath where
  parts : List Bytes
  proper : ∀ c ∈ parts, ProperName c

namespace NormalPath

variable (p : NormalPath)

def bytes : Bytes := renderPath p.parts

/-- The components of the part of the path below a mount point. -/
def below (sb : Superblock) : List Bytes := (pathParts (sb.below p.bytes)).filter (· ≠ [])

/-- The path has its place in the buffers of the kernel. -/
def Fits : Prop := p.bytes.length < vfsPathMax

end NormalPath

namespace VfsTables

variable (v : VfsTables) (p : NormalPath)

/-- `vfs_resolve` finds an inode of a mounted tree just when the walk from the root of that tree
reaches it. -/
def ResolvesByWalk : Prop :=
  ∀ x sb, vfsResolve v p.bytes = some (x, some sb) ↔
    v.chosen p.bytes = some sb ∧ ∃ steps, Way sb.fs.Enters sb.root (p.below sb) steps x

/-- Wherever the walk or the lookups get to the end of the path, at each name on the way the driver finds exactly the
entry of a directory that has the name. -/
def KeepsToEntries : Prop :=
  ∀ sb steps z, v.chosen p.bytes = some sb →
    Way sb.fs.Finds sb.root (p.below sb) steps z ∨ Way sb.fs.Enters sb.root (p.below sb) steps z →
    ∀ s ∈ steps, ∀ y, sb.fs.Finds s.1 s.2 y ↔ sb.fs.Enters s.1 s.2 y

/-- The path and all the paths on the way to it, from the root of the tree, are resolved as the walk has it. -/
def WayResolves : Prop :=
  ∀ sb cs, v.chosen p.bytes = some sb → cs <+: p.below sb →
    ∃ q : NormalPath, q.Fits ∧ v.chosen q.bytes = some sb ∧ q.below sb = cs ∧ v.ResolvesByWalk q

end VfsTables

/-! ## What the drivers find of a directory -/

section Reach

variable {x : ExtFs} {dino : ExtInode} {dir : VfsNode} {c : Bytes}

theorem lookupRecords_eq (size : ℕ) (live : Dirent → Bool) (name blk : Bytes) (fuel off : ℕ) :
    lookupRecords size live name blk fuel off =
      (recordsFrom size blk fuel off).find? fun de => live de ∧ de.cName = name := by
  induction fuel generalizing off with
  | zero => rfl
  | succ fuel ih =>
    unfold lookupRecords recordsFrom
    dsimp only
    split
    · split
      · rfl
      · rw [find?_cons]
        split
        · rename_i hfound
          rw [decide_eq_true hfound]
        · rename_i hother
          rw [decide_eq_false hother]
          exact ih _
    · rfl

theorem lookupBlocks_eq (size : ℕ) (live : Dirent → Bool) (name : Bytes) (blks : List (Option Bytes)) :
    lookupBlocks size live name blks = (records size blks).find? fun de => live de ∧ de.cName = name := by
  induction blks with
  | nil => rfl
  | cons b blks ih =>
    cases b with
    | none => exact ih
    | some blk =>
      have hrecords : records size (some blk :: blks) = recordsFrom size blk size 0 ++ records size blks := rfl
      unfold lookupBlocks
      rw [hrecords, find?_append, ← lookupRecords_eq, ← ih]
      cases lookupRecords size live name blk size 0 <;> rfl

theorem Dirent.cName_eq {de : Dirent} (h : 0 ∉ de.name) : de.cName = de.name := by
  apply takeWhile_eq_self_iff.mpr
  intro b hb
  rw [decide_eq_true_eq]
  rintro rfl
  exact h hb

namespace ExtFs

/-- The driver finds all blocks of the directory, and the records in it that are in use are sound, with names without
zero bytes. -/
structure InReach (x : ExtFs) (dino : ExtInode) : Prop where
  blocks : (x.fileBlocks dino).reduceOption = (x.formatBlocks dino).reduceOption
  records : ∀ de ∈ records x.blockSize.toNat (x.formatBlocks dino), de.inode ≠ 0 →
    de.Sound ∧ 0 ∉ de.name ∧ de.name.length = de.nameLen

/-- For names below 64 bytes, the record that the driver finds is the one of the name. -/
theorem InReach.found (h : x.InReach dino) (hc : c.length < vfsNameMax) :
    lookupBlocks x.blockSize.toNat x.live c (x.fileBlocks dino) = x.recordNamed dino c := by
  rw [lookupBlocks_eq]
  unfold recordNamed EdgeOS.records
  rw [h.blocks]
  apply find?_congr
  intro de hde
  rw [decide_eq_decide]
  have hgood := h.records de hde
  constructor
  · rintro ⟨hlive, hname⟩
    have hinode : de.inode ≠ 0 := by
      intro hzero
      rcases x with fs | fs <;> simp [live, Ext4Fs.live, Ext2Fs.live, hzero] at hlive
    obtain ⟨hsound, hnone, -⟩ := hgood hinode
    exact ⟨hsound, (Dirent.cName_eq hnone).symm.trans hname⟩
  · rintro ⟨hsound, rfl⟩
    obtain ⟨-, hnone, hlen⟩ := hgood hsound.1
    refine ⟨?_, Dirent.cName_eq hnone⟩
    have hshort : de.nameLen < vfsNameMax := hlen ▸ hc
    rcases x with fs | fs
    · exact decide_eq_true ⟨hsound.1, hsound.2.1, hshort⟩
    · exact decide_eq_true ⟨hsound.1, hsound.2.1, hshort, hsound.2.2⟩

/-- In a directory within its reach the driver finds just the entry of a name below 64 bytes, unless that names an
inode of another type than the two it knows. -/
theorem InReach.finds_iff (h : x.InReach dino) (hdino : x.readInode dir.ino.toUInt32 = some dino) (hdir : dir.IsDir)
    (hc : c.length < vfsNameMax) (hkind : ∀ de inode, x.recordNamed dino c = some de →
      x.readInode de.inode = some inode → vfsModeFromExt inode.mode ≠ 0) (y : VfsNode) :
    x.filesystem.Finds dir c y ↔ x.filesystem.Enters dir c y := by
  have hlookup : x.filesystem.lookup dir c = (x.recordNamed dino c).bind (x.fill dir) := by
    rw [← h.found hc]
    rcases x with fs | fs
    · change fs.lookup dir c = (lookupBlocks fs.blockSize.toNat Ext4Fs.live c (fs.fileBlocks dino)).bind (fs.fill dir)
      unfold Ext4Fs.lookup
      rw [show fs.readInode dir.ino.toUInt32 = some dino from hdino]
      dsimp only
      cases lookupBlocks fs.blockSize.toNat Ext4Fs.live c (fs.fileBlocks dino) <;> rfl
    · change fs.lookup dir c = (lookupBlocks fs.blockSize.toNat Ext2Fs.live c (fs.fileBlocks dino)).bind (fs.fill dir)
      unfold Ext2Fs.lookup
      rw [show fs.readInode dir.ino.toUInt32 = some dino from hdino]
      dsimp only
      cases lookupBlocks fs.blockSize.toNat Ext2Fs.live c (fs.fileBlocks dino) <;> rfl
  have hentry : x.filesystem.entry dir c = x.entry dir c := by rcases x with fs | fs <;> rfl
  unfold Filesystem.Finds Filesystem.Enters
  rw [take_of_length_le (Nat.le_sub_one_of_lt hc), and_iff_right hdir, hlookup, hentry]
  unfold entry
  rw [hdino, Option.bind_some]
  cases hde : x.recordNamed dino c with
  | none => rfl
  | some de =>
    rw [Option.bind_some, Option.bind_some]
    have hfill : x.fill dir de = (x.readInode de.inode).map fun inode => { dir with
        ino := de.inode.toNat, mode := vfsModeFromExt inode.mode, size := inode.sizeLo.toNat
        uid := inode.uid.toNat, gid := inode.gid.toNat } := by
      have hmode := fun inode => hkind de inode hde
      rcases x with fs | fs
      · change fs.fill dir de = (fs.readInode de.inode).map _
        unfold Ext4Fs.fill
        cases hread : fs.readInode de.inode with
        | none => rfl
        | some inode => exact if_neg (hmode inode hread)
      · change fs.fill dir de = (fs.readInode de.inode).map _
        unfold Ext2Fs.fill
        cases hread : fs.readInode de.inode with
        | none => rfl
        | some inode => exact if_neg (hmode inode hread)
    rw [hfill]

end ExtFs

end Reach

/-! ## Ways -/

section Ways

variable {R S : VfsNode → Bytes → VfsNode → Prop} {x y z : VfsNode} {c : Bytes} {cs cs' : List Bytes}
  {steps : List (VfsNode × Bytes)}

theorem Way.congr (h : Way R x cs steps z) (hsteps : ∀ s ∈ steps, ∀ y, R s.1 s.2 y → S s.1 s.2 y) :
    Way S x cs steps z := by
  induction h with
  | done x => exact .done x
  | step hstep hrest ih =>
    rw [forall_mem_cons] at hsteps
    exact .step (hsteps.1 _ hstep) (ih hsteps.2)

/-- A way goes on where another one ends. -/
theorem Way.snoc (h : Way R x cs steps y) (hstep : R y c z) : Way R x (cs ++ [c]) (steps ++ [(y, c)]) z := by
  induction h with
  | done x => exact .step hstep (.done z)
  | step hfirst hrest ih => exact .step hfirst (ih hstep)

theorem Way.unsnoc (h : Way R x (cs ++ [c]) steps z) : ∃ steps' y, Way R x cs steps' y ∧ R y c z := by
  induction cs generalizing x steps with
  | nil =>
    cases h with
    | step hstep hrest =>
      cases hrest
      exact ⟨[], x, .done x, hstep⟩
  | cons d cs ih =>
    cases h with
    | step hstep hrest =>
      obtain ⟨steps', y, hway, hlast⟩ := ih hrest
      exact ⟨_, y, .step hstep hway, hlast⟩

/-- At a step of a way there is a way to the inode that it leaves. -/
theorem Way.before (h : Way R x cs steps z) {s : VfsNode × Bytes} (hs : s ∈ steps) :
    ∃ front, front ++ [s.2] <+: cs ∧ ∃ steps', Way R x front steps' s.1 := by
  induction h with
  | done x => exact absurd hs not_mem_nil
  | @step x y z c cs steps hstep hrest ih =>
    rcases mem_cons.mp hs with rfl | hs
    · exact ⟨[], ⟨cs, rfl⟩, [], .done x⟩
    · obtain ⟨front, hfront, steps', hway⟩ := ih hs
      exact ⟨c :: front, (prefix_cons_inj c).mpr hfront, _, .step hstep hway⟩

theorem Way.functional (hR : ∀ x c y y', R x c y → R x c y' → y = y') {steps' : List (VfsNode × Bytes)}
    (h : Way R x cs steps y) (h' : Way R x cs steps' z) : y = z := by
  induction h generalizing steps' with
  | done x =>
    cases h'
    rfl
  | step hstep hrest ih =>
    cases h' with
    | step hstep' hrest' =>
      obtain rfl := hR _ _ _ _ hstep hstep'
      exact ih hrest'

end Ways

section Resolve

variable {fs : Filesystem} {x z : VfsNode} {cs : List Bytes}

theorem resolveWalk_eq_some (hcs : ∀ c ∈ cs, ProperName c) :
    resolveWalk fs x cs = some z ↔ ∃ steps, Way fs.Finds x cs steps z := by
  induction cs generalizing x with
  | nil =>
    constructor
    · intro h
      rw [← Option.some.inj h]
      exact ⟨[], .done x⟩
    · rintro ⟨steps, hway⟩
      cases hway
      rfl
  | cons c cs ih =>
    rw [forall_mem_cons] at hcs
    unfold resolveWalk
    dsimp only
    rw [if_neg hcs.1.take]
    cases hlookup : fs.lookup x (c.take (vfsNameMax - 1)) with
    | none =>
      constructor
      · intro h
        exact absurd h (by simp)
      · rintro ⟨steps, hway⟩
        cases hway with
        | step hfound hrest => exact absurd (hlookup.symm.trans hfound) (by simp)
    | some y =>
      dsimp only
      rw [ih hcs.2]
      constructor
      · rintro ⟨steps, hway⟩
        exact ⟨(x, c) :: steps, .step hlookup hway⟩
      · rintro ⟨steps, hway⟩
        cases hway with
        | @step _ y' _ _ _ steps hfound hrest =>
          have hy : y = y' := Option.some.inj (hlookup.symm.trans hfound)
          rw [hy]
          exact ⟨steps, hrest⟩

theorem vfsResolve_eq_some (v : VfsTables) (p : AbsPath) (x : VfsNode) (sb : Superblock) :
    vfsResolve v p.bytes = some (x, some sb) ↔
      v.chosen p.bytes = some sb ∧ ∃ steps, Way sb.fs.Finds sb.root (p.below sb) steps x := by
  have hproper : v.chosen p.bytes = some sb → ∀ c ∈ p.below sb, ProperName c := p.below_proper
  unfold vfsResolve
  dsimp only
  rw [normalizePath_abs]
  unfold VfsTables.chosen at hproper ⊢
  cases hdev : v.tryResolveDevpath p.bytes with
  | some d => simp
  | none =>
    rw [hdev] at hproper
    dsimp only at hproper ⊢
    cases hmount : v.findMount p.bytes with
    | none => simp
    | some sb' =>
      rw [hmount] at hproper
      dsimp only
      constructor
      · intro h
        obtain ⟨z, hz, hpair⟩ := Option.map_eq_some_iff.mp h
        obtain ⟨rfl, hsb⟩ := Prod.mk.inj hpair
        obtain rfl := Option.some.inj hsb
        rw [resolveWalk_below] at hz
        exact ⟨rfl, (resolveWalk_eq_some (hproper rfl)).mp hz⟩
      · rintro ⟨hsb, hway⟩
        obtain rfl := Option.some.inj hsb
        rw [resolveWalk_below, (resolveWalk_eq_some (hproper rfl)).mpr hway]
        rfl

end Resolve

/-! ## Where resolution is the walk -/

section Exact

variable {v : VfsTables} {p : NormalPath} {sb : Superblock} {cs : List Bytes} {x : VfsNode}

theorem Filesystem.finds_functional (fs : Filesystem) (x : VfsNode) (c : Bytes) (y y' : VfsNode)
    (h : fs.Finds x c y) (h' : fs.Finds x c y') : y = y' := Option.some.inj (h.symm.trans h')

theorem Filesystem.enters_functional (fs : Filesystem) (x : VfsNode) (c : Bytes) (y y' : VfsNode)
    (h : fs.Enters x c y) (h' : fs.Enters x c y') : y = y' := Option.some.inj (h.2.symm.trans h'.2)

theorem NormalPath.resolve_eq_some (hfits : p.Fits) : vfsResolve v p.bytes = some (x, some sb) ↔
    v.chosen p.bytes = some sb ∧ ∃ steps, Way sb.fs.Finds sb.root (p.below sb) steps x :=
  vfsResolve_eq_some v ⟨p.parts, p.proper, hfits⟩ x sb

theorem VfsTables.KeepsToEntries.resolves (h : v.KeepsToEntries p) (hfits : p.Fits) : v.ResolvesByWalk p := by
  intro x sb
  rw [NormalPath.resolve_eq_some hfits]
  apply and_congr_right
  intro hsb
  constructor
  · rintro ⟨steps, hway⟩
    exact ⟨steps, hway.congr fun s hs y => (h sb steps x hsb (.inl hway) s hs y).mp⟩
  · rintro ⟨steps, hway⟩
    exact ⟨steps, hway.congr fun s hs y => (h sb steps x hsb (.inr hway) s hs y).mpr⟩

theorem VfsTables.WayResolves.alike (h : v.WayResolves p) (hsb : v.chosen p.bytes = some sb) (hcs : cs <+: p.below sb) :
    (∃ steps, Way sb.fs.Finds sb.root cs steps x) ↔ ∃ steps, Way sb.fs.Enters sb.root cs steps x := by
  obtain ⟨q, hfits, hq, hbelow, hresolves⟩ := h sb cs hsb hcs
  have hwalk := hresolves x sb
  rw [NormalPath.resolve_eq_some hfits, hbelow] at hwalk
  exact (and_congr_right_iff.mp hwalk) hq

theorem VfsTables.WayResolves.keeps (h : v.WayResolves p) : v.KeepsToEntries p := by
  intro sb steps z hsb hway s hs y
  -- both ways lead to the inode that the step leaves
  obtain ⟨front, hfront, hfinds, henters⟩ : ∃ front, front ++ [s.2] <+: p.below sb ∧
      (∃ steps', Way sb.fs.Finds sb.root front steps' s.1) ∧ ∃ steps', Way sb.fs.Enters sb.root front steps' s.1 := by
    rcases hway with hway | hway
    · obtain ⟨front, hfront, hbefore⟩ := hway.before hs
      have hcs := (prefix_append front [s.2]).trans hfront
      exact ⟨front, hfront, hbefore, (h.alike hsb hcs).mp hbefore⟩
    · obtain ⟨front, hfront, hbefore⟩ := hway.before hs
      have hcs := (prefix_append front [s.2]).trans hfront
      exact ⟨front, hfront, (h.alike hsb hcs).mpr hbefore, hbefore⟩
  obtain ⟨steps', hfinds⟩ := hfinds
  obtain ⟨steps'', henters⟩ := henters
  constructor
  · intro hstep
    obtain ⟨_, hlong⟩ := (h.alike hsb hfront).mp ⟨_, hfinds.snoc hstep⟩
    obtain ⟨_, u, hway', hlast⟩ := hlong.unsnoc
    obtain rfl := hway'.functional sb.fs.enters_functional henters
    exact hlast
  · intro hstep
    obtain ⟨_, hlong⟩ := (h.alike hsb hfront).mpr ⟨_, henters.snoc hstep⟩
    obtain ⟨_, u, hway', hlast⟩ := hlong.unsnoc
    obtain rfl := hway'.functional sb.fs.finds_functional hfinds
    exact hlast

end Exact

end EdgeOS
