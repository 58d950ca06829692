import EdgeOS.MountTable
import EdgeOS.PathNormal
import EdgeOS.ProcessCalls

namespace EdgeOS

/-!
The way of a path through the buffers of 256 bytes: from the memory of the user by `copy_user_cstr`, behind the path of
a directory by `build_at_path`, and behind the working directory by `normalize_path`.
-/

open List

/-! ## The string of the user -/

/-- The string in a buffer for a path that `copy_user_cstr` has filled. -/
def readPath (mem : Memory) (src : UInt64) : Option Bytes :=
  match copyUserCstr mem (zeros vfsPathMax) src with
  | (_, false) => none
  | (dst, true) => some (dst.takeWhile (· ≠ 0))

/-- The bytes from the `i`th on, up to a zero. -/
def StringFrom (mem : Memory) (src : UInt64) : ℕ → Bytes → Prop
  | i, [] => copyByte mem (src + .ofNat i) = some 0
  | i, c :: s => copyByte mem (src + .ofNat i) = some c ∧ c ≠ 0 ∧ StringFrom mem src (i + 1) s

def UserString (mem : Memory) (src : UInt64) (s : Bytes) : Prop :=
  if src = 0 then s = [] else StringFrom mem src 0 s

/-! ## Joins -/

/-- What `build_at_path` looks at in a descriptor. -/
structure AtEntry where
  isVfs : Bool
  isDir : Bool
  path : Bytes

inductive AtDir
  | fdcwd
  | fd (e : Option AtEntry)

/-- `base` of `build_at_path`, if it is an absolute path. -/
def AtDir.base (cwd : Bytes) (d : AtDir) : Option Bytes :=
  let base := match d with
    | .fdcwd => some (if cwd = [] then [slash] else cwd)
    | .fd none => none
    | .fd (some e) => if e.isVfs ∧ e.isDir then some e.path else none
  base.filter fun b => b.head? = some slash

def buildAtPath (cwd : Bytes) (d : AtDir) (pathIn : Bytes) : Option Bytes :=
  if pathIn.head? = some slash then some (pathIn.take (vfsPathMax - 1))
  else
    (d.base cwd).map fun base =>
      let out := appendCut [slash] (base.drop 1)
      let out := if 1 < out.length ∧ out.getLast? ≠ some slash then appendCut out [slash] else out
      let out := appendCut out pathIn
      if pathIn ≠ [] ∧ out.getLast? = some slash ∧ 1 < out.length then out.dropLast else out

/-- A path argument of a call; the `at` calls have a descriptor with it. -/
structure PathArgument where
  mem : Memory
  src : UInt64
  dirfd : Option AtDir

/-- What becomes of a path: `tmp` of `normalize_path` does not hold it, the call fails, or it acts on `abs`. -/
inductive PathEnd
  | overrun
  | fails
  | acts (tmp abs : Bytes)
  deriving DecidableEq

/-- `normalize_path`, with the size of its buffer. -/
def normalizeInto (cwd path : Bytes) : PathEnd :=
  if vfsPathMax ≤ (joinedPath cwd path).length then .overrun
  else .acts (joinedPath cwd path) (normalizePath cwd path)

def PathArgument.run (c : PathArgument) (cwd : Bytes) : PathEnd :=
  match readPath c.mem c.src with
  | none => .fails
  | some path =>
    match c.dirfd with
    | none => normalizeInto cwd path
    | some d =>
      match buildAtPath cwd d path with
      | none => .fails
      | some out => normalizeInto cwd out

/-! ## What is asked for -/

def fullJoin (cwd : Bytes) (dirfd : Option AtDir) (path : Bytes) : Option Bytes :=
  match dirfd with
  | none => some (joinedPath cwd path)
  | some d => if path.head? = some slash then some path else (d.base cwd).map fun base => base ++ slash :: path

/-- What `vfs_resolve` finds it finds under the whole names: each component below the mount point fits `part`. -/
def VfsTables.Uncut (v : VfsTables) (path : Bytes) : Prop :=
  ∀ x sb, vfsResolve v path = some (x, some sb) →
    ∀ part ∈ pathParts (sb.below (normalizePath v.cwd path)), part.length < vfsNameMax

/-- The call fails, or it acts on the whole path: nothing is cut off on the way, the result fits the buffers that it is
copied to, and no name is cut when it is resolved. -/
@[irreducible] def PathArgument.Whole (c : PathArgument) (v : VfsTables) : Prop :=
  match c.run v.cwd with
  | .overrun => False
  | .fails => True
  | .acts tmp abs =>
    (abs = renderPath (pathSlots tmp) ∧ abs.length < vfsPathMax ∧ ∀ s, UserString c.mem c.src s → s.length < vfsPathMax ∧
        ∃ full, fullJoin v.cwd c.dirfd s = some full ∧ components tmp = components full) ∧ v.Uncut abs

/-- The slash that `build_at_path` puts behind a base. -/
def baseSlash (base : Bytes) : Bytes := if 1 < base.length ∧ base.getLast? ≠ some slash then [slash] else []

/-- There is room for the join, but for slashes at the end of a path in a directory. -/
def JoinFits (cwd : Bytes) (dirfd : Option AtDir) (path : Bytes) : Prop :=
  match dirfd with
  | none => (joinedPath cwd path).length < vfsPathMax
  | some d => path.head? ≠ some slash → ∀ base, d.base cwd = some base →
      ∀ b ∈ (base ++ baseSlash base ++ path).drop (vfsPathMax - 1), b = slash

/-- There is room for the join, and when it is found with its names cut, no name is too long. -/
def PathArgument.Room (c : PathArgument) (v : VfsTables) : Prop :=
  ∀ path, readPath c.mem c.src = some path → JoinFits v.cwd c.dirfd path ∧
    ∀ full, fullJoin v.cwd c.dirfd path = some full → v.Uncut (renderPath (pathSlots full))

/-! ## Strings -/

variable {mem : Memory} {src : UInt64}

theorem StringFrom.unique {i : ℕ} {s s' : Bytes} (h : StringFrom mem src i s) (h' : StringFrom mem src i s') :
    s = s' := by
  induction s generalizing i s' with
  | nil =>
    cases s' with
    | nil => rfl
    | cons c s' =>
      rw [StringFrom] at h
      exact absurd (Option.some.inj (h'.1.symm.trans h)) h'.2.1
  | cons c s ih =>
    cases s' with
    | nil =>
      rw [StringFrom] at h'
      exact absurd (Option.some.inj (h.1.symm.trans h')) h.2.1
    | cons c' s' =>
      rw [Option.some.inj (h.1.symm.trans h'.1), ih h.2.2 h'.2.2]

theorem StringFrom.noZero {i : ℕ} {s : Bytes} (h : StringFrom mem src i s) : ∀ c ∈ s, c ≠ 0 := by
  induction s generalizing i with
  | nil => exact fun c hc => absurd hc not_mem_nil
  | cons c s ih =>
    rw [forall_mem_cons]
    exact ⟨h.2.1, ih h.2.2⟩

variable {cwd base path : Bytes} {d : AtDir}

end EdgeOS
