import EdgeOS.PathCalls
import EdgeOS.PathWalk

namespace EdgeOS

/-!
Search permission along paths. `vfs_resolve` asks for none: the calls check the object that a path
names, or its parent directory.
-/

open List PathCall

structure UserTask extends Cred where
  unprivileged : euid ≠ 0

/-- The inodes in which `resolveWalk` looks up the components of a path. -/
def walkDirs (fs : Filesystem) : VfsNode → List Bytes → List VfsNode
  | _, [] => []
  | cur, part :: parts =>
    let part := part.take (vfsNameMax - 1)
    if part = [] ∨ part = ascii "." ∨ part = ascii ".." then walkDirs fs cur parts
    else
      match fs.lookup cur part with
      | none => [cur]
      | some x => cur :: walkDirs fs x parts

/-- The directories that `vfs_resolve` traverses. -/
def VfsTables.traversed (v : VfsTables) (path : Bytes) : List VfsNode :=
  let abs := normalizePath v.cwd path
  match v.tryResolveDevpath abs with
  | some _ => []
  | none =>
    match v.findMount abs with
    | none => []
    | some sb => walkDirs sb.fs sb.root (pathParts (sb.below abs))

section Mediation

variable {σ : Type} (d : VfsDrivers σ) (s : σ)

/-- The directories from the mount root to the parent of what a path names. What does not exist yet
is created in the parent directory that `path_split_last` gives. -/
def dirsTo (path : Bytes) : List VfsNode :=
  let v := d.tables s
  let abs := normalizePath v.cwd path
  if (d.resolve s path).isSome then v.traversed path
  else if (d.resolve s abs).isSome then v.traversed abs
  else
    match pathSplitLast abs with
    | none => []
    | some (parent, _) => v.traversed parent ++ ((d.resolve s parent).map (·.1)).toList

def PathCall.paths : PathCall → List Bytes
  | .open path _ _ | .stat path _ | .access path _ | .chdir path | .execve path => [path]
  | .unlink path | .mkdir path | .truncate path _ => [path]
  | .rename oldp newp => [oldp, newp]

def PathCall.Fits (c : PathCall) : Prop := ∀ path ∈ c.paths, path.length < vfsPathMax

def HasEffect (out : σ × FdResult) : Prop := out.2.isOk = true ∨ out.1 ≠ s

def PathCall.Effective (cred : Cred) (c : PathCall) : Prop := HasEffect s (c.run d s cred)

/-- A call that has an effect may search every directory on its paths, and a program that is started
may be executed. -/
structure PathCall.Mediated (cred : Cred) (c : PathCall) : Prop where
  search : c.Effective d s cred → ∀ path ∈ c.paths, ∀ x ∈ dirsTo d s path, cred.grants x 1 = true
  execute : ∀ path x sb, c = .execve path → (c.run d s cred).2.isOk = true →
    d.resolve s path = some (x, sb) → cred.grants x 1 = true

/-- Every directory on the way to something that exists may be searched, and every program that the
task may read, that is valid and that loads may be executed. -/
structure VfsDrivers.Open (cred : Cred) : Prop where
  search : ∀ path, path.length < vfsPathMax → (d.resolve s path).isSome →
    ∀ x ∈ (d.tables s).traversed path, cred.grants x 1 = true
  execute : ∀ path x sb, path.length < vfsPathMax → d.resolve s path = some (x, sb) →
    x.type ≠ vfsInodeDir → elfLoaderProbe d s cred path = true → d.loads s path x = true →
    cred.grants x 1 = true

end Mediation

/-! ## Lengths of paths -/

theorem appendCut_length {out : Bytes} (part : Bytes) (h : out.length < vfsPathMax) :
    (appendCut out part).length < vfsPathMax := by
  have hmax : vfsPathMax = 256 := rfl
  unfold appendCut
  rw [length_append, length_take]
  omega

theorem popComponent_length (out : Bytes) : (popComponent out).length ≤ out.length := by
  unfold popComponent
  split
  · rw [length_reverse]
    have hdrop := (dropWhile_suffix (fun c => decide (c ≠ slash)) (l := out.dropLast.reverse)).length_le
    rw [length_reverse, length_dropLast] at hdrop
    omega
  · exact le_rfl

theorem pushComponent_length {out : Bytes} (part : Bytes) (h : out.length < vfsPathMax) :
    (pushComponent out part).length < vfsPathMax := by
  unfold pushComponent
  split_ifs
  · exact h
  · exact h
  · exact (popComponent_length out).trans_lt h
  · exact appendCut_length part (appendCut_length _ h)
  · exact appendCut_length part h

theorem normalizePath_length (cwd path : Bytes) : (normalizePath cwd path).length < vfsPathMax := by
  unfold normalizePath
  dsimp only
  generalize pathParts _ = parts
  have hfold : ∀ out : Bytes, out.length < vfsPathMax → (parts.foldl pushComponent out).length < vfsPathMax := by
    induction parts with
    | nil => exact fun out h => h
    | cons part parts ih => exact fun out h => ih _ (pushComponent_length part h)
  exact hfold [slash] (by decide)

theorem pathSplitLast_length {path parent leaf : Bytes} (h : pathSplitLast path = some (parent, leaf)) :
    parent.length ≤ path.length := by
  unfold pathSplitLast at h
  dsimp only at h
  have hstripped : ((path.reverse.dropWhile (· = slash)).reverse).length ≤ path.length := by
    have hdrop := (dropWhile_suffix (fun c => decide (c = slash)) (l := path.reverse)).length_le
    rw [length_reverse] at hdrop ⊢
    exact hdrop
  generalize (path.reverse.dropWhile (· = slash)).reverse = stripped at h hstripped
  have hcut : (if stripped = [] then path.take 1 else stripped).length ≤ path.length := by
    split
    · exact length_take_le' _ _
    · exact hstripped
  generalize (if stripped = [] then path.take 1 else stripped) = path' at h hcut
  split at h
  · exact absurd h (by simp)
  rename_i hleaf
  obtain ⟨hparent, -⟩ := Prod.mk.inj (Option.some.inj h)
  have hne : path' ≠ [] := by
    rintro rfl
    exact hleaf (.inl rfl)
  have hpos := length_pos_iff.mpr hne
  rw [← hparent]
  split
  · rw [length_singleton]
    omega
  · exact (length_take_le' _ _).trans hcut

/-! ## What an effect needs -/

section Effects

variable {σ : Type} {d : VfsDrivers σ} {s : σ} {cred : Cred} {path : Bytes}

/-- What a path names is there, or the task may create in its parent directory. -/
def Reaches (d : VfsDrivers σ) (s : σ) (cred : Cred) (path : Bytes) : Prop :=
  (d.resolve s path).isSome ∨ (d.resolve s (normalizePath (d.tables s).cwd path)).isSome ∨
    (vfsParent d s cred path).isSome

theorem vfsWriteFile_reaches {buf : Bytes}
    (h : (vfsWriteFile d s cred path buf).2 = true ∨ (vfsWriteFile d s cred path buf).1 ≠ s) :
    Reaches d s cred path := by
  unfold vfsWriteFile at h
  cases hres : d.resolve s (normalizePath (d.tables s).cwd path) with
  | some r => exact .inr (.inl (by rw [hres]; rfl))
  | none =>
    rw [hres] at h
    cases hparent : vfsParent d s cred path with
    | some r => exact .inr (.inr (by rw [hparent]; rfl))
    | none =>
      rw [hparent] at h
      rcases h with h | h
      · exact absurd h (by simp)
      · exact absurd rfl h

theorem vfsMkdir_reaches (h : (vfsMkdir d s cred path).2 = true ∨ (vfsMkdir d s cred path).1 ≠ s) :
    Reaches d s cred path := by
  unfold vfsMkdir at h
  cases hparent : vfsParent d s cred path with
  | some r => exact .inr (.inr (by rw [hparent]; rfl))
  | none =>
    rw [hparent] at h
    rcases h with h | h
    · exact absurd h (by simp)
    · exact absurd rfl h

theorem openFind_reaches {flags : BitVec 32}
    (h : (openFind d s cred path flags).2.isSome ∨ (openFind d s cred path flags).1 ≠ s) :
    Reaches d s cred path := by
  unfold openFind at h
  cases hres : d.resolve s path with
  | some r => exact .inl (by rw [hres]; rfl)
  | none =>
    rw [hres] at h
    dsimp only at h
    split at h
    · rcases h with h | h
      · exact absurd h (by simp)
      · exact absurd rfl h
    apply @vfsWriteFile_reaches _ d s cred path []
    split at h
    · rename_i s' hwrite
      rw [hwrite]
      rcases h with h | h
      · exact absurd h (by simp)
      · exact .inr h
    · rename_i s' hwrite
      rw [hwrite]
      exact .inl rfl

theorem doSysOpen_reaches {flags : BitVec 32} {room : Bool}
    (h : HasEffect s (doSysOpen d s cred path flags room)) : Reaches d s cred path := by
  apply @openFind_reaches _ d s cred path flags
  unfold doSysOpen at h
  rcases hfind : openFind d s cred path flags with ⟨s', _ | x⟩
  · rw [hfind] at h
    rcases h with h | h
    · exact absurd h Bool.false_ne_true
    · exact .inr h
  · exact .inl rfl

theorem doSysMkdir_reaches (h : HasEffect s (doSysMkdir d s cred path)) : Reaches d s cred path := by
  unfold doSysMkdir at h
  cases hres : d.resolve s path with
  | some r => exact .inl (by rw [hres]; rfl)
  | none =>
    apply vfsMkdir_reaches
    rw [hres] at h
    dsimp only at h
    split at h
    · rename_i s' hmkdir
      rw [hmkdir]
      exact .inl rfl
    rename_i s' hmkdir
    rw [hmkdir]
    rcases h with h | h
    · exact absurd h Bool.false_ne_true
    · exact .inr h

theorem HasEffect.not_error {err : Errno} (h : HasEffect s (s, (.error err : FdResult))) : False := by
  rcases h with h | h
  · exact absurd h Bool.false_ne_true
  · exact absurd rfl h

/-- A call that gives up where its path is not found has an effect only if it is found. -/
theorem HasEffect.reaches {out : σ × FdResult} (h : HasEffect s out)
    (hmissing : d.resolve s path = none → ∃ err, out = (s, .error err)) : Reaches d s cred path := by
  cases hres : d.resolve s path with
  | some r => exact .inl (by rw [hres]; rfl)
  | none =>
    obtain ⟨err, rfl⟩ := hmissing hres
    exact h.not_error.elim

theorem doSysRename_reaches {oldp newp : Bytes} (h : HasEffect s (doSysRename d s cred oldp newp)) :
    Reaches d s cred oldp ∧ Reaches d s cred newp := by
  unfold doSysRename at h
  cases hres : d.resolve s oldp with
  | none =>
    rw [hres] at h
    exact h.not_error.elim
  | some r =>
    refine ⟨.inl (by rw [hres]; rfl), ?_⟩
    rw [hres] at h
    dsimp only at h
    split at h
    · exact h.not_error.elim
    split at h
    · exact h.not_error.elim
    cases hread : vfsReadFile d s cred oldp 131072 with
    | none =>
      rw [hread] at h
      exact h.not_error.elim
    | some bytes =>
      rw [hread] at h
      apply @vfsWriteFile_reaches _ d s cred newp bytes
      dsimp only at h
      split at h
      · rename_i s' hwrite
        rw [hwrite]
        rcases h with h | h
        · exact absurd h Bool.false_ne_true
        · exact .inr h
      · rename_i s' hwrite
        rw [hwrite]
        exact .inl rfl

/-- A call that has an effect reaches what its paths name. -/
theorem PathCall.Effective.reaches {c : PathCall} (h : c.Effective d s cred) :
    ∀ path ∈ c.paths, Reaches d s cred path := by
  have hone : ∀ p : Bytes, Reaches d s cred p → ∀ path ∈ [p], Reaches d s cred path := by
    intro p hp path hpath
    rw [mem_singleton.mp hpath]
    exact hp
  unfold PathCall.Effective at h
  cases c with
  | «open» p flags room => exact hone p (doSysOpen_reaches h)
  | stat p stored =>
    refine hone p (h.reaches fun hres => ⟨.enoent, ?_⟩)
    unfold run doSysStat
    dsimp only
    rw [hres]
  | access p mode =>
    refine hone p (h.reaches fun hres => ⟨.enoent, ?_⟩)
    unfold run doSysAccess
    dsimp only
    rw [hres]
  | chdir p =>
    refine hone p (h.reaches fun hres => ⟨.enoent, ?_⟩)
    unfold run doSysChdir
    dsimp only
    rw [hres]
  | execve p =>
    refine hone p (h.reaches fun hres => ⟨.enoent, ?_⟩)
    unfold run execvePath
    dsimp only
    rw [hres]
  | unlink p =>
    refine hone p (h.reaches fun hres => ⟨.enoent, ?_⟩)
    unfold run doSysUnlink
    dsimp only
    rw [hres]
  | mkdir p => exact hone p (doSysMkdir_reaches h)
  | truncate p len =>
    unfold run doSysTruncate at h
    dsimp only at h
    split at h
    · exact h.not_error.elim
    · refine hone p (h.reaches fun hres => ⟨.enoent, ?_⟩)
      rw [hres]
  | rename oldp newp =>
    obtain ⟨hold, hnew⟩ := doSysRename_reaches h
    intro path hpath
    rcases mem_cons.mp hpath with hpath | hpath
    · rw [hpath]
      exact hold
    · exact hone newp hnew path hpath

/-- A parent directory in which the task may create may be searched. -/
theorem Cred.grants_search {x : VfsNode} (h : cred.grants x 3 = true) : cred.grants x 1 = true := by
  have hbits : ∀ b : BitVec 16, 3 &&& b = 0 → 1 &&& b = 0 := by
    intro b hb
    have hone : (1 : BitVec 16) = 1 &&& 3 := by decide
    rw [hone, BitVec.and_assoc, hb]
    exact BitVec.and_zero
  unfold Cred.grants vfsPermissionCheck at h ⊢
  dsimp only at h ⊢
  by_cases hroot : cred.euid = 0
  · rw [if_pos hroot] at h ⊢
    exact h
  rw [if_neg hroot] at h ⊢
  rw [decide_eq_true_eq, BitVec.and_assoc] at h ⊢
  exact hbits _ h

theorem dirsTo_grants (hopen : d.Open s cred) (hfits : path.length < vfsPathMax)
    (h : Reaches d s cred path) : ∀ x ∈ dirsTo d s path, cred.grants x 1 = true := by
  intro x hx
  unfold dirsTo at hx
  dsimp only at hx
  split at hx
  · rename_i hres
    exact hopen.search path hfits hres x hx
  rename_i hmissing
  have habs := normalizePath_length (d.tables s).cwd path
  split at hx
  · rename_i hres
    exact hopen.search _ habs hres x hx
  rename_i hnone
  rcases h with h | h | h
  · exact absurd h hmissing
  · exact absurd h hnone
  · unfold vfsParent at h
    split at hx
    · exact absurd hx not_mem_nil
    rename_i parent leaf hsplit
    rw [hsplit] at h
    dsimp only at h
    have hlen := (pathSplitLast_length hsplit).trans_lt habs
    cases hparent : d.resolve s parent with
    | none => rw [hparent] at h; exact absurd h (by simp)
    | some r =>
      obtain ⟨y, sb⟩ := r
      rw [hparent] at h hx
      rcases mem_append.mp hx with hx | hx
      · exact hopen.search parent hlen (by rw [hparent]; rfl) x hx
      have hxy : x = y := by simpa using hx
      cases sb with
      | none => exact absurd h (by simp)
      | some sb =>
        dsimp only at h
        split at h
        · exact absurd h (by simp)
        rename_i hgrants
        rw [hxy]
        exact Cred.grants_search (by simpa using hgrants)

end Effects

/-- Every call with an effect is mediated just when every directory on the way to something that
exists may be searched, and every program that would start may be executed. -/
theorem search_permission {σ : Type} (d : VfsDrivers σ) (s : σ) (task : UserTask) :
    (∀ c : PathCall, c.Fits → c.Mediated d s task.toCred) ↔ d.Open s task.toCred := by
  constructor
  · intro h
    constructor
    · intro path hfits hres x hx
      have hcall : (PathCall.stat path true).Effective d s task.toCred := by
        left
        unfold PathCall.run doSysStat
        obtain ⟨r, hr⟩ := Option.isSome_iff_exists.mp hres
        dsimp only
        rw [hr]
        rfl
      have hdirs : dirsTo d s path = (d.tables s).traversed path := if_pos hres
      refine (h (.stat path true) ?_).search hcall path (List.mem_singleton_self path) x (by rw [hdirs]; exact hx)
      intro p hp
      rw [List.mem_singleton.mp hp]
      exact hfits
    · intro path x sb hfits hres hfile hprobe hloads
      refine (h (.execve path) ?_).execute path x sb rfl ?_ hres
      · intro p hp
        rw [List.mem_singleton.mp hp]
        exact hfits
      · unfold PathCall.run execvePath
        dsimp only
        rw [hres]
        dsimp only
        rw [if_neg hfile, hprobe, hloads]
        rfl
  · intro hopen c hfits
    constructor
    · intro heff path hpath
      exact dirsTo_grants hopen (hfits path hpath) (heff.reaches path hpath)
    · intro path x sb hc hok hres
      subst hc
      unfold PathCall.run execvePath at hok
      dsimp only at hok
      rw [hres] at hok
      dsimp only at hok
      split_ifs at hok with hdir hprobe
      · exact absurd hok Bool.false_ne_true
      · exact absurd hok Bool.false_ne_true
      · rename_i hloads
        exact hopen.execute path x sb (hfits path (List.mem_singleton_self path)) hres hdir (by simpa using hprobe) hloads
      · exact absurd hok Bool.false_ne_true

/-! ## A private directory -/

/-- The image of `EdgeOS.imageBytes` with `/f` a directory of user 1 that nobody else may search. -/
def privateDevice : BlockDevice where
  sectorSize := 512
  sector i := some ((List.range 512).map fun k =>
    (((6400, 0xC0) :: (6401, 0x41) :: (6402, 1) :: imageBytes).lookup (512 * i.toNat + k)).getD 0)

def privateMount : Superblock := ⟨[slash], imageRoot, .ext4 { imageFs with bdev := privateDevice }⟩

def privateDrivers : VfsDrivers Unit where
  tables _ := { mounts := [privateMount] }
  read _ _ _ _ _ := none
  write s _ _ _ := (s, false)
  create s _ _ _ _ := (s, none)
  mkdir s _ _ _ _ := (s, false)
  unlink s _ _ _ := (s, false)
  elfValid _ := false
  loads _ _ _ := false

def otherTask : UserTask where
  euid := 2
  egid := 2
  unprivileged := by decide

/-- A stat of `/f/g` succeeds for user 2, who may not search `/f`. -/
theorem private_directory_searched : (doSysStat privateDrivers () throughFile.bytes true).2.isOk = true ∧
      ¬ (PathCall.stat throughFile.bytes true).Mediated privateDrivers () otherTask.toCred := by
  have hfound : (resolveWalk privateMount.fs imageRoot [[102], [103]]).isSome = true := by decide +kernel
  have hdenied : (walkDirs privateMount.fs imageRoot [[102], [103]]).any
      (fun x => !otherTask.grants x 1) = true := by decide +kernel
  obtain ⟨y, hy⟩ := Option.isSome_iff_exists.mp hfound
  have hresolve : privateDrivers.resolve () throughFile.bytes = some (y, some privateMount) := by
    unfold VfsDrivers.resolve privateDrivers privateMount
    dsimp only
    rw [throughFile_resolve]
    unfold privateMount at hy
    rw [hy]
    rfl
  have hok : (doSysStat privateDrivers () throughFile.bytes true).2.isOk = true := by
    unfold doSysStat
    rw [hresolve]
    rfl
  refine ⟨hok, fun h => ?_⟩
  obtain ⟨x, hx, hnot⟩ := List.any_eq_true.mp hdenied
  have hdirs : dirsTo privateDrivers () throughFile.bytes = walkDirs privateMount.fs imageRoot [[102], [103]] := by
    unfold dirsTo
    dsimp only
    rw [if_pos (by rw [hresolve]; rfl)]
    unfold VfsTables.traversed
    dsimp only
    rw [normalizePath_abs]
    have hdev : (privateDrivers.tables ()).tryResolveDevpath throughFile.bytes = none := rfl
    have hmount : (privateDrivers.tables ()).findMount throughFile.bytes = some privateMount := rfl
    rw [hdev]
    dsimp only
    rw [hmount]
    unfold privateMount
    dsimp only
    rw [throughFile_parts]
  have hgrants := h.search (.inl hok) _ (List.mem_singleton_self _) x (by rw [hdirs]; exact hx)
  rw [hgrants] at hnot
  exact absurd hnot (by simp)

end EdgeOS
