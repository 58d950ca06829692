import EdgeOS.CallFrames
import EdgeOS.FileRead
import EdgeOS.WriteAccess

namespace EdgeOS

open Lib Function WriteKernel

/-!
The position of a file under several descriptors. Copies of a descriptor, made by `dup` or
`fork`, have the file reference of the first one, and each has a position of its own.
-/

def FdEntry.Regular (e : FdEntry) : Prop :=
  e.used = true ∧ e.kind = .vfs ∧ e.inode.type = vfsInodeFile

instance (e : FdEntry) : Decidable e.Regular :=
  inferInstanceAs (Decidable (_ ∧ _ ∧ _))

/-- The position in the file and its size, as the descriptor knows them. -/
def FdEntry.view (e : FdEntry) : ℕ × ℕ := (e.pos, e.inode.size)

/-- The slot that a call on `fd` finds. -/
def slotOf (s : FdState) (pid fd : ℤ) : Option (FdProcIdx × FdIdx) :=
  match fdProcWithStdio s pid with
  | (s, some p) => (fdGet s p fd).map fun i => (p, i)
  | (_, none) => none

/-- The descriptors as a call of `pid` finds them, with standard ones put in. -/
def seenBy (s : FdState) (pid : ℤ) : FdState := (fdProcWithStdio s pid).1

/-- Files under descriptors. `left` is not in the source: for the descriptors of one
`openat`, by their file reference, it has the position and the size that the last operation
through any of them left. -/
structure FileKernel (σ : Type) where
  base : WriteKernel σ
  left : ℕ → Option (ℕ × ℕ) := fun _ => none

inductive FileEvent
  | other (e : FdEvent)
  | write (cur : Caller) (fd : ℤ) (buf : UserBuf) (elsewhere : FdResult)
  | read (cur : Caller) (fd : ℤ) (buf : ReadBuf) (elsewhere : Except Errno (List UInt8))
  | lseek (cur : Caller) (fd : ℤ) (off : BitVec 64) (whence : ℤ)

def FileEvent.target : FileEvent → Option (Caller × ℤ)
  | .other _ => none
  | .write cur fd _ _ => some (cur, fd)
  | .read cur fd _ _ => some (cur, fd)
  | .lseek cur fd _ _ => some (cur, fd)

namespace FileKernel

variable {σ : Type} (vfs : Vfs σ) (reads : VfsReads σ)

def stepBase (k : WriteKernel σ) : FileEvent → WriteKernel σ
  | .other e => k.step vfs (.other e)
  | .write cur fd buf elsewhere => k.step vfs (.write cur fd buf elsewhere)
  | .read cur fd buf elsewhere =>
    if k.kernel.exists cur.pid then
      k.set (doSysFdRead reads k.kernel.fds k.fs cur.pid fd buf elsewhere).1 k.fs
    else k
  | .lseek cur fd off whence =>
    if k.kernel.exists cur.pid then
      k.set (doSysLseek k.kernel.fds cur.pid fd off whence).1 k.fs
    else k

def operatesOn (k : FileKernel σ) (e : FileEvent) : Option (Caller × FdProcIdx × FdIdx) :=
  match e.target with
  | none => none
  | some (cur, fd) =>
    if k.base.kernel.exists cur.pid then
      match slotOf k.base.kernel.fds cur.pid fd with
      | none => none
      | some x =>
        if ((seenBy k.base.kernel.fds cur.pid).fds x).Regular then some (cur, x) else none
    else none

/-- The history after an event: a file reference that is not in use has none, and an
operation leaves what its descriptor has afterwards. -/
def leave (k : FileKernel σ) (e : FileEvent) (k' : WriteKernel σ) : ℕ → Option (ℕ × ℕ) :=
  let kept := fun ref => if (k.base.kernel.fds.fileRefs ref).used then k.left ref else none
  match k.operatesOn e with
  | none => kept
  | some (_, x) =>
    Function.update kept (k'.kernel.fds.fds x).fileRef (some (k'.kernel.fds.fds x).view)

def step (k : FileKernel σ) (e : FileEvent) : FileKernel σ :=
  let k' := stepBase vfs reads k.base e
  ⟨k', k.leave e k'⟩

/-- Each operation on a regular file finds the position and the size that the last operation
through a descriptor of the same `openat` left. -/
def FindsLeft (k : FileKernel σ) (e : FileEvent) : Prop :=
  ∀ cur x v, k.operatesOn e = some (cur, x) → k.left ((seenBy k.base.kernel.fds cur.pid).fds x).fileRef = some v →
      ((seenBy k.base.kernel.fds cur.pid).fds x).view = v

/-- No other descriptor has the file reference of slot `x`. -/
def Alone (s : FdState) (x : FdProcIdx × FdIdx) : Prop :=
  ∀ y, y ≠ x → (s.fds y).Regular → (s.fds y).fileRef ≠ (s.fds x).fileRef

/-- The file system takes nothing of a write, and there is no move to the end before it. -/
def Refuses (fs : σ) (d : FdEntry) (piece : List UInt8) : Prop :=
  ∀ sb, d.sb = some sb → vfs.hasWrite fs sb = true → (hasFlag d.flags linuxOAppend = true → d.pos = d.inode.size) ∧
      (vfs.write fs sb d.inode (d.pos % 2 ^ 32) piece).2.1 = d.inode.size ∧
      (vfs.write fs sb d.inode (d.pos % 2 ^ 32) piece).2.2 ≤ 0

def Exhausted (fs : σ) (d : FdEntry) (n : ℕ) : Prop :=
  ∀ sb bytes, d.sb = some sb → reads.hasRead fs sb = true →
    reads.read fs sb d.inode (d.pos % 2 ^ 32) n = some bytes → bytes = []

/-- The operation cannot move the position of its descriptor `d`: it has no buffer, the file
system transfers nothing, or it seeks to where it is. -/
def Still (fs : σ) (d : FdEntry) : FileEvent → Prop
  | .other _ => True
  | .write _ _ buf _ => buf.null = true ∨ buf.data = [] ∨ pathIsConsoleTty d.path = true ∨
      buf.rangeOk 0 (buf.data.take (2 ^ 20)).length = false ∨
      Refuses vfs fs d (buf.data.take (2 ^ 20))
  | .read _ _ buf _ => buf.null = true ∨ buf.len = 0 ∨ pathIsConsoleTty d.path = true ∨
      pathIsMouseInput d.path = true ∨ Exhausted reads fs d (min buf.len 4096)
  | .lseek _ _ off whence => ∀ np, seekTarget d off whence = some np → np = d.pos

/-- An operation moves the position of a descriptor only if that has no copies. -/
def MovesAlone (k : FileKernel σ) (e : FileEvent) : Prop :=
  ∀ cur x, k.operatesOn e = some (cur, x) → Alone (seenBy k.base.kernel.fds cur.pid) x ∨
      Still vfs reads k.base.fs ((seenBy k.base.kernel.fds cur.pid).fds x) e

end FileKernel

/-! ## Descriptors that agree -/

/-- All descriptors of regular files with one file reference have one view of the file. -/
def Agrees (g : ℕ → ℕ × ℕ) (s : FdState) : Prop :=
  ∀ y, (s.fds y).Regular → (s.fds y).view = g (s.fds y).fileRef

section Agreement

variable {g : ℕ → ℕ × ℕ} {s s' : FdState} {pid : ℤ} {e d d' : FdEntry}

theorem FdState.Has.regular (h : s.Has e) (he : e.Regular) :
    ∃ x, (s.fds x).Regular ∧ (s.fds x).fileRef = e.fileRef ∧ (s.fds x).view = e.view := by
  obtain ⟨hu, hk, ht⟩ := he
  obtain ⟨x, hxu, hxk, hf⟩ := h hu hk
  obtain ⟨href, hpos, hinode, -⟩ := Prod.mk.inj hf |>.imp_right fun h => by simpa using h
  refine ⟨x, ⟨hxu, hxk, by rw [hinode]; exact ht⟩, href, ?_⟩
  unfold FdEntry.view
  rw [hpos, hinode]

theorem Agrees.frame (h : Agrees g s) (hf : ∀ y, s.Has (s'.fds y)) : Agrees g s' := by
  intro y hy
  obtain ⟨x, hx, href, hview⟩ := (hf y).regular hy
  rw [← hview, ← href]
  exact h x hx

/-- The reference of a new file is not one of an open descriptor. -/
theorem Agrees.opens {R : Prop} {N : ℤ} {F : Holders} {G : ℕ → ℕ} (h : Agrees g s)
    (hinv : FdInv R N F G s) (ho : OpenFrame pid e s s') :
    ∃ ref v, (s.fileRefs ref).used = false ∧ Agrees (update g ref v) s' := by
  obtain ⟨y, ref, h1, hfree, hy, hothers⟩ := ho.files
  refine ⟨ref, (s'.fds y).view, hfree, fun z hz => ?_⟩
  by_cases hzy : z = y
  · subst hzy
    have href : (s'.fds z).fileRef = ref := by rw [hy]
    rw [href, update_self]
  obtain ⟨x, hx, href, hview⟩ := (hothers z hzy).regular hz
  have hne : (s'.fds z).fileRef ≠ ref := by
    rw [← href]
    intro heq
    have hheld := hinv.fileRef_used hx.1 (by omega)
    rw [heq, hfree] at hheld
    simp at hheld
  rw [update_of_ne hne, ← hview, ← href]
  exact h x hx

theorem FdEntry.SameFile.regular (h : d.SameFile d') : d'.Regular ↔ d.Regular := by
  obtain ⟨pos, size, rfl⟩ := h
  exact Iff.rfl

theorem FdEntry.SameFile.fileRef (h : d.SameFile d') : d'.fileRef = d.fileRef := by
  obtain ⟨pos, size, rfl⟩ := h
  rfl

variable {p : FdProcIdx} {i : FdIdx}

/-- A descriptor is moved: it has no copies, or it stays where it is. -/
theorem Agrees.move (h : Agrees g s) (hs : (s.fds (p, i)).SameFile d') (hreg : (s.fds (p, i)).Regular)
    (halone : FileKernel.Alone s (p, i) ∨ d'.view = (s.fds (p, i)).view) :
    Agrees (update g d'.fileRef d'.view) (s.setFd p i d') := by
  intro y hy
  by_cases hyx : y = (p, i)
  · subst hyx
    have hself : (s.setFd p i d').fds (p, i) = d' := update_self _ _ _
    rw [hself, update_self]
  have hother : (s.setFd p i d').fds y = s.fds y := update_of_ne hyx _ _
  rw [hother] at hy ⊢
  by_cases href : (s.fds y).fileRef = d'.fileRef
  · rcases halone with halone | hview
    · exact absurd (href.trans hs.fileRef) (halone y hyx hy)
    · rw [href, update_self, hview, h y hy, h (p, i) hreg, href, hs.fileRef]
  · rw [update_of_ne href]
    exact h y hy

theorem Agrees.moveOther (h : Agrees g s) (hs : (s.fds (p, i)).SameFile d') (hreg : ¬ (s.fds (p, i)).Regular) :
    Agrees g (s.setFd p i d') := by
  intro y hy
  by_cases hyx : y = (p, i)
  · subst hyx
    have hself : (s.setFd p i d').fds (p, i) = d' := update_self _ _ _
    rw [hself] at hy
    exact absurd (hs.regular.mp hy) hreg
  have hother : (s.setFd p i d').fds y = s.fds y := update_of_ne hyx _ _
  rw [hother] at hy ⊢
  exact h y hy

end Agreement

/-! ## One operation -/

/-- What an operation on `fd` may do to the descriptors: nothing, put in the standard ones, or
move the descriptor it is on. -/
def Touched (s s' : FdState) (pid fd : ℤ) (still : FdEntry → Prop) : Prop :=
  s' = s ∨ s' = seenBy s pid ∨ ∃ p i d', slotOf s pid fd = some (p, i) ∧
    ((seenBy s pid).fds (p, i)).SameFile d' ∧ s' = (seenBy s pid).setFd p i d' ∧
    (((seenBy s pid).fds (p, i)).Regular → still ((seenBy s pid).fds (p, i)) →
      d'.view = ((seenBy s pid).fds (p, i)).view)

section Operations

variable {σ : Type} (vfs : Vfs σ) (reads : VfsReads σ) {s : FdState} {pid fd : ℤ}

variable {d : FdEntry}

theorem FdEntry.Regular.not_device (h : d.Regular) :
    d.inode.type ≠ vfsInodeChr ∧ d.inode.type ≠ vfsInodeBlk ∧ d.inode.type ≠ vfsInodeDir := by
  rw [h.2.2]
  decide

theorem writeDevice_regular (rangeOk : ℕ → ℕ → Bool) (n : ℕ) (fs : σ) (hd : d.Regular) (total : ℕ) (data : List UInt8) :
    (writeDevice vfs rangeOk n fs d total data).2.1 = d := by
  obtain ⟨hchr, hblk, -⟩ := hd.not_device
  cases n with
  | zero => rfl
  | succ n =>
    unfold writeDevice writePiece
    simp only [if_neg hblk, hchr, false_and, if_false]
    split
    · rfl
    split
    · rfl
    · rw [if_pos (by decide)]

theorem writeRegular_still (rangeOk : ℕ → ℕ → Bool) (sb n : ℕ) (fs : σ)
    (data : List UInt8) (hsb : d.sb = some sb) (hw : vfs.hasWrite fs sb = true)
    (hstill : rangeOk 0 (data.take (2 ^ 20)).length = false ∨ FileKernel.Refuses vfs fs d (data.take (2 ^ 20))) :
    (writeRegular vfs rangeOk sb n fs d 0 data).2.1.view = d.view := by
  cases n with
  | zero => rfl
  | succ n =>
    unfold writeRegular
    dsimp only
    split
    · rfl
    split
    · rfl
    rename_i hrange
    rcases hstill with hbad | href
    · rw [hbad] at hrange
      simp at hrange
    -- The move to the end that `O_APPEND` makes leads to the same place.
    obtain ⟨happ, hsize, hle⟩ := href sb hsb hw
    have hsame : (if hasFlag d.flags linuxOAppend then { d with pos := d.inode.size } else d) = d := by
      split_ifs with ha
      · rw [← happ ha]
      · rfl
    rw [hsame]
    split
    · unfold FdEntry.view
      dsimp only
      rw [hsize]
    split
    · unfold FdEntry.view
      dsimp only
      rw [hsize]
    · rename_i hneg hzero
      exact absurd (le_antisymm hle (not_lt.mp hneg)) hzero

theorem writeVfs_still (fs : σ) (hd : d.Regular) (buf : UserBuf)
    (hstill : buf.rangeOk 0 (buf.data.take (2 ^ 20)).length = false ∨
      FileKernel.Refuses vfs fs d (buf.data.take (2 ^ 20))) :
    (writeVfs vfs fs d buf).2.1.view = d.view := by
  unfold writeVfs
  split
  · rfl
  split
  · rename_i sb hsb
    split
    · rename_i hw
      exact writeRegular_still vfs _ _ _ _ _ hsb hw.2.2 hstill
    · rw [writeDevice_regular vfs _ _ _ hd]
  · rw [writeDevice_regular vfs _ _ _ hd]

theorem readPiece_sameFile {fs : σ} {d' : FdEntry} {n : ℕ} {bytes : List UInt8}
    (h : readPiece reads fs d n = some (d', bytes)) : d.SameFile d' := by
  unfold readPiece at h
  split at h
  · obtain ⟨_, -, heq⟩ := Option.map_eq_some_iff.mp h
    obtain ⟨rfl, -⟩ := Prod.mk.inj heq
    exact .refl d
  split at h
  · simp at h
  split at h
  · obtain ⟨_, -, heq⟩ := Option.map_eq_some_iff.mp h
    obtain ⟨rfl, -⟩ := Prod.mk.inj heq
    exact .advance d _ d.inode.size
  · simp at h

theorem readLoop_sameFile (fs : σ) (buf : ReadBuf) (n : ℕ) (d : FdEntry) (done : List UInt8) :
    d.SameFile (readLoop reads fs buf n d done).1 := by
  induction n generalizing d done with
  | zero => exact .refl d
  | succ n ih =>
    unfold readLoop
    dsimp only
    split
    · exact .refl d
    split
    · exact .refl d
    rename_i d' bytes hp
    have hd := readPiece_sameFile reads hp
    split
    · exact hd
    split
    · exact hd
    split
    · exact hd
    · exact hd.trans (ih d' _)

theorem readVfs_sameFile (fs : σ) (d : FdEntry) (buf : ReadBuf) : d.SameFile (readVfs reads fs d buf).1 := by
  unfold readVfs
  split
  · exact .refl d
  · exact readLoop_sameFile reads fs buf buf.len d []

/-- Without bytes from the file system the position stays. -/
theorem readVfs_still (fs : σ) (hd : d.Regular) (buf : ReadBuf)
    (hstill : FileKernel.Exhausted reads fs d (min buf.len 4096)) :
    (readVfs reads fs d buf).1.view = d.view := by
  obtain ⟨hchr, hblk, hdir⟩ := hd.not_device
  unfold readVfs
  rw [if_neg hdir]
  cases hlen : buf.len with
  | zero => rfl
  | succ n =>
    unfold readLoop
    simp only [List.length_nil, Nat.sub_zero, hlen]
    rw [hlen] at hstill
    split
    · rfl
    unfold readPiece
    rw [if_neg (by simp [hchr, hblk])]
    split
    · rfl
    rename_i d' bytes hp
    split at hp
    · simp at hp
    rename_i sb hsb
    split at hp
    · rename_i hr
      obtain ⟨bytes', hread, heq⟩ := Option.map_eq_some_iff.mp hp
      obtain ⟨rfl, rfl⟩ := Prod.mk.inj heq
      rw [hstill sb bytes' hsb hr hread]
      rfl
    · simp at hp

theorem slotOf_some {s1 : FdState} {p : FdProcIdx} {i : FdIdx}
    (hq : fdProcWithStdio s pid = (s1, some p)) (hg : fdGet s1 p fd = some i) :
    slotOf s pid fd = some (p, i) := by
  unfold slotOf
  rw [hq]
  dsimp only
  rw [hg]
  rfl

theorem doSysFdWrite_touched (fs : σ) (buf : UserBuf) (elsewhere : FdResult) (cur : Caller) :
    Touched s (doSysFdWrite vfs s fs pid fd buf elsewhere).1 pid fd fun d =>
      FileKernel.Still vfs reads fs d (.write cur fd buf elsewhere) := by
  unfold doSysFdWrite
  split
  · exact .inl rfl
  rename_i hnull
  split
  · exact .inl rfl
  rename_i hlen
  split
  · rename_i hq
    exact .inr (.inl (by rw [seenBy, hq]))
  rename_i s1 p hq
  have hseen : seenBy s pid = s1 := by rw [seenBy, hq]
  split
  · exact .inr (.inl hseen.symm)
  rename_i i hg
  dsimp only
  split
  · exact .inr (.inl hseen.symm)
  rename_i hfile
  refine .inr (.inr ⟨p, i, _, slotOf_some hq hg, ?_, by rw [hseen], ?_⟩)
  · rw [hseen]
    exact writeVfs_sameFile vfs fs _ buf
  · rw [hseen]
    rintro hd (h | h | h | h)
    · exact absurd h hnull
    · exact absurd (by rw [h]; rfl) hlen
    · exact absurd (.inr h) hfile
    · exact writeVfs_still vfs fs hd buf h

theorem doSysFdRead_touched (fs : σ) (buf : ReadBuf) (elsewhere : Except Errno (List UInt8)) (cur : Caller) :
    Touched s (doSysFdRead reads s fs pid fd buf elsewhere).1 pid fd fun d =>
      FileKernel.Still vfs reads fs d (.read cur fd buf elsewhere) := by
  unfold doSysFdRead
  split
  · exact .inl rfl
  rename_i hnull
  split
  · exact .inl rfl
  rename_i hlen
  split
  · rename_i hq
    exact .inr (.inl (by rw [seenBy, hq]))
  rename_i s1 p hq
  have hseen : seenBy s pid = s1 := by rw [seenBy, hq]
  split
  · exact .inr (.inl hseen.symm)
  rename_i i hg
  dsimp only
  split
  · exact .inr (.inl hseen.symm)
  rename_i hfile
  refine .inr (.inr ⟨p, i, _, slotOf_some hq hg, ?_, by rw [hseen], ?_⟩)
  · rw [hseen]
    exact readVfs_sameFile reads fs _ buf
  · rw [hseen]
    rintro hd (h | h | h | h | h)
    · exact absurd h hnull
    · exact absurd h hlen
    · exact absurd (.inr (.inl h)) hfile
    · exact absurd (.inr (.inr h)) hfile
    · exact readVfs_still reads fs hd buf h

theorem doSysLseek_touched (off : BitVec 64) (whence : ℤ) : Touched s (doSysLseek s pid fd off whence).1 pid fd fun d =>
      ∀ np, seekTarget d off whence = some np → np = d.pos := by
  unfold doSysLseek
  split
  · rename_i hq
    exact .inr (.inl (by rw [seenBy, hq]))
  rename_i s1 p hq
  have hseen : seenBy s pid = s1 := by rw [seenBy, hq]
  split
  · exact .inr (.inl hseen.symm)
  rename_i i hg
  split
  · exact .inr (.inl hseen.symm)
  rename_i np hnp
  refine .inr (.inr ⟨p, i, _, slotOf_some hq hg, ?_, by rw [hseen], ?_⟩)
  · rw [hseen]
    exact .advance _ np _
  · rw [hseen]
    intro hd hstill
    unfold FdEntry.view
    dsimp only
    rw [hstill np hnp]

theorem seenBy_frame (s : FdState) (pid : ℤ) : CallFrame pid s (seenBy s pid) := by
  have hq : fdProcWithStdio s pid = (seenBy s pid, (fdProcWithStdio s pid).2) := rfl
  exact (fdProcWithStdio_frame hq).1

theorem FdInv.touched {R : Prop} {N : ℤ} {F : Holders} {G : ℕ → ℕ} {s' : FdState}
    {still : FdEntry → Prop} (h : FdInv R N F G s) (hpos : 0 < pid) (hN : pid < N)
    (htouch : Touched s s' pid fd still) : FdInv R N F G s' := by
  have hseen : FdInv R N F G (seenBy s pid) := (h.fdProcWithStdio hpos hN rfl).1
  rcases htouch with rfl | rfl | ⟨p, i, d', -, ⟨pos, size, rfl⟩, rfl, -⟩
  · exact h
  · exact hseen
  · exact hseen.rewrite rfl rfl rfl rfl fun hf => ⟨hf.named, hf.opened⟩

theorem stdioRounds_kept (p : FdProcIdx) (y : FdProcIdx × FdIdx) (go : Bool) (l : List FdIdx) :
    (l.foldl (ensureStdioFd p) (s, go)).1.fds y = s.fds y ∨
      ((l.foldl (ensureStdioFd p) (s, go)).1.fds y).kind ≠ .vfs := by
  induction l generalizing s go with
  | nil => exact .inl rfl
  | cons i l ih =>
    rw [List.foldl_cons]
    rcases ih (s := (ensureStdioFd p (s, go) i).1) (ensureStdioFd p (s, go) i).2 with heq | hk
    · rcases ensureStdioFd_cases s p go i with hsame | ⟨j, e, -, -, -, -, -, -, hk, -, hset⟩
      · exact .inl (heq.trans (by rw [hsame]))
      · by_cases hy : y = (p, i)
        · right
          have hself : (ensureStdioFd p (s, go) i).1.fds y = e := by
            rw [hset, hy]
            exact update_self _ _ _
          rw [heq, hself, hk]
          simp
        · left
          rw [heq, hset]
          exact update_of_ne hy _ _
    · exact .inr hk

theorem fdProcForPid_kept (s : FdState) (pid : ℤ) (y : FdProcIdx × FdIdx) :
    (fdProcForPid s pid).1.fds y = s.fds y ∨ ((fdProcForPid s pid).1.fds y).kind ≠ .vfs := by
  unfold fdProcForPid
  split
  · exact .inl rfl
  split
  · exact .inl rfl
  rename_i p hp
  rcases stdioRounds_kept (s := s.clearProc p pid) p y true [0, 1, 2] with heq | hk
  · by_cases hy : y.1 = p
    · right
      unfold fdEnsureStdio
      rw [heq]
      simp [FdState.clearProc, hy]
    · left
      unfold fdEnsureStdio
      rw [heq]
      simp [FdState.clearProc, hy]
  · exact .inr hk

theorem seenBy_kept (s : FdState) (pid : ℤ) (y : FdProcIdx × FdIdx)
    (hk : ((seenBy s pid).fds y).kind = .vfs) : (seenBy s pid).fds y = s.fds y := by
  unfold seenBy fdProcWithStdio at hk ⊢
  have hfirst := fdProcForPid_kept s pid y
  split
  · rename_i s1 p hq
    rw [hq] at hk hfirst
    rcases stdioRounds_kept (s := s1) p y true [0, 1, 2] with heq | hne
    · rcases hfirst with h1 | h1
      · exact heq.trans h1
      · unfold fdEnsureStdio at hk
        rw [heq] at hk
        exact absurd hk h1
    · exact absurd hk hne
  · rename_i s1 hq
    rw [hq] at hk hfirst
    rcases hfirst with h1 | h1
    · exact h1
    · exact absurd hk h1

end Operations

/-! ## Runs -/

section Runs

variable {σ : Type} {vfs : Vfs σ} {reads : VfsReads σ}

/-- Events other than operations leave the files under their descriptors, or open one. -/
theorem FdKernel.step_files (k : FdKernel) (e : FdEvent) :
    (∀ y, k.fds.Has ((k.step e).fds.fds y)) ∨ ∃ pid d, OpenFrame pid d k.fds (k.step e).fds := by
  cases e with
  | call cur c =>
    dsimp only [FdKernel.step]
    by_cases hex : k.exists cur.pid = true
    · rw [if_pos hex]
      rcases (FdCall.frame k.fds cur c).2.2 with h | ⟨_, _, _, _, -, h⟩
      · exact .inl h
      · exact .inr ⟨_, _, h⟩
    · rw [if_neg hex]
      exact .inl fun y => .self y
  | fork pid cbs =>
    dsimp only [FdKernel.step]
    by_cases hex : k.exists pid = true
    · rw [if_pos hex]
      exact .inl (CallFrame.fdCloneAfterFork pid cbs).files
    · rw [if_neg hex]
      exact .inl fun y => .self y
  | spawn => exact .inl fun y => .self y
  | acceptCb l => exact .inl fun y => .self y

theorem WriteKernel.step_files (vfs : Vfs σ) (k : WriteKernel σ) (e : FdEvent) :
    (∀ y, k.kernel.fds.Has ((k.step vfs (.other e)).kernel.fds.fds y)) ∨
      ∃ pid d, OpenFrame pid d k.kernel.fds (k.step vfs (.other e)).kernel.fds := by
  unfold step
  split
  · rename_i _ cur flags path _ _
    split
    · obtain ⟨resolved, hfds⟩ := openFile_fds vfs k.kernel.fds k.fs cur flags path
      dsimp only [set]
      rw [hfds]
      rcases doSysOpenat_frame k.kernel.fds cur flags path resolved with h | ⟨_, _, _, -, -, h⟩
      · exact .inl h.files
      · exact .inr ⟨_, _, h⟩
    · exact .inl fun y => .self y
  · rename_i e' _ heq
    obtain rfl := WriteEvent.other.inj heq
    exact FdKernel.step_files k.kernel e
  · rename_i heq
    simp at heq
  · rename_i heq
    simp at heq

namespace FileKernel

variable {k : FileKernel σ} {g : ℕ → ℕ × ℕ}

/-- `g` is what every operation has left so far. -/
def Remembers (k : FileKernel σ) (g : ℕ → ℕ × ℕ) : Prop := ∀ ref v, k.left ref = some v → g ref = v

variable {e : FileEvent} {k' : WriteKernel σ} {ref : ℕ} {v : ℕ × ℕ}

/-- The part of the history that an event on no regular file keeps. -/
theorem leave_none (hop : k.operatesOn e = none) (h : k.leave e k' ref = some v) :
    (k.base.kernel.fds.fileRefs ref).used = true ∧ k.left ref = some v := by
  unfold leave at h
  rw [hop] at h
  dsimp only at h
  split_ifs at h with hu
  exact ⟨hu, h⟩

variable {cur : Caller} {x : FdProcIdx × FdIdx}

/-- An operation leaves what its descriptor has afterwards. -/
theorem leave_some (hop : k.operatesOn e = some (cur, x)) (hrem : k.Remembers g) (h : k.leave e k' ref = some v) :
    update g (k'.kernel.fds.fds x).fileRef (k'.kernel.fds.fds x).view ref = v := by
  unfold leave at h
  rw [hop] at h
  dsimp only at h
  by_cases href : ref = (k'.kernel.fds.fds x).fileRef
  · subst href
    rw [update_self] at h ⊢
    exact Option.some.inj h
  rw [update_of_ne href] at h ⊢
  split_ifs at h
  exact hrem ref v h

theorem operatesOn_some (h : k.operatesOn e = some (cur, x)) :
    ∃ fd, e.target = some (cur, fd) ∧ slotOf k.base.kernel.fds cur.pid fd = some x ∧
      ((seenBy k.base.kernel.fds cur.pid).fds x).Regular := by
  unfold operatesOn at h
  split at h
  · simp at h
  rename_i cur' fd ht
  split at h
  · split at h
    · simp at h
    rename_i x' hx
    split_ifs at h with hreg
    obtain ⟨rfl, rfl⟩ := Prod.mk.inj (Option.some.inj h)
    exact ⟨fd, ht, hx, hreg⟩
  · simp at h

variable {fd : ℤ}

theorem operatesOn_eq (ht : e.target = some (cur, fd)) (hex : k.base.kernel.exists cur.pid = true)
    (hx : slotOf k.base.kernel.fds cur.pid fd = some x)
    (hreg : ((seenBy k.base.kernel.fds cur.pid).fds x).Regular) :
    k.operatesOn e = some (cur, x) := by
  unfold operatesOn
  rw [ht]
  dsimp only
  rw [if_pos hex, hx]
  dsimp only
  rw [if_pos hreg]

/-- A step in which the descriptors that matter stay as they are. -/
theorem agrees_still (hrem : k.Remembers g) (h : Agrees g k'.kernel.fds)
    (hsame : ∀ cur x, k.operatesOn e = some (cur, x) → (k'.kernel.fds.fds x).Regular) :
    ∃ g', Agrees g' k'.kernel.fds ∧ Remembers ⟨k', k.leave e k'⟩ g' := by
  refine ⟨g, h, fun ref v hv => ?_⟩
  cases hop : k.operatesOn e with
  | none => exact hrem ref v (leave_none hop hv).2
  | some cx =>
    obtain ⟨cur, x⟩ := cx
    have hg := leave_some hop hrem hv
    rwa [h x (hsame cur x hop), update_eq_self] at hg

theorem agrees_touched (ht : e.target = some (cur, fd)) (hex : k.base.kernel.exists cur.pid = true)
    (h : Agrees g k.base.kernel.fds) (hrem : k.Remembers g) (hok : k.MovesAlone vfs reads e)
    (htouch : Touched k.base.kernel.fds k'.kernel.fds cur.pid fd fun d =>
      Still vfs reads k.base.fs d e) :
    ∃ g', Agrees g' k'.kernel.fds ∧ Remembers ⟨k', k.leave e k'⟩ g' := by
  have hseen : Agrees g (seenBy k.base.kernel.fds cur.pid) :=
    h.frame (seenBy_frame _ _).files
  have hcur : ∀ cur' x, k.operatesOn e = some (cur', x) → cur' = cur := by
    intro cur' x hop
    obtain ⟨fd', ht', -⟩ := operatesOn_some hop
    rw [ht] at ht'
    exact (Prod.mk.inj (Option.some.inj ht')).1.symm
  rcases htouch with hs | hs | ⟨p, i, d', hslot, hd', hs, hstill⟩
  · refine agrees_still hrem (hs ▸ h) fun cur' x hop => ?_
    obtain ⟨-, -, -, hreg⟩ := operatesOn_some hop
    rwa [hs, ← seenBy_kept _ _ _ hreg.2.1]
  · refine agrees_still hrem (hs ▸ hseen) fun cur' x hop => ?_
    obtain rfl := hcur cur' x hop
    obtain ⟨-, -, -, hreg⟩ := operatesOn_some hop
    rwa [hs]
  · by_cases hreg : ((seenBy k.base.kernel.fds cur.pid).fds (p, i)).Regular
    · have hop := operatesOn_eq ht hex hslot hreg
      have halone := hok cur (p, i) hop
      have hmove := hseen.move hd' hreg (halone.imp_right fun hst => hstill hreg hst)
      refine ⟨_, hs ▸ hmove, fun ref v hv => ?_⟩
      have hg := leave_some hop hrem hv
      have hself : k'.kernel.fds.fds (p, i) = d' := by
        rw [hs]
        exact update_self _ _ _
      rwa [hself] at hg
    · have hnone : ∀ cur' x, k.operatesOn e ≠ some (cur', x) := by
        intro cur' x hop
        obtain rfl := hcur cur' x hop
        obtain ⟨fd', ht', hslot', hreg'⟩ := operatesOn_some hop
        obtain ⟨-, rfl⟩ := Prod.mk.inj (Option.some.inj (ht.symm.trans ht'))
        rw [hslot] at hslot'
        exact hreg (Option.some.inj hslot' ▸ hreg')
      exact agrees_still hrem (hs ▸ hseen.moveOther hd' hreg) fun cur' x hop =>
        absurd hop (hnone cur' x)

theorem agrees_other {R : Prop} {N : ℤ} {F : Holders} {G : ℕ → ℕ}
    (hinv : FdInv R N F G k.base.kernel.fds) (e : FdEvent) (h : Agrees g k.base.kernel.fds)
    (hrem : k.Remembers g) :
    ∃ g', Agrees g' (k.step vfs reads (.other e)).base.kernel.fds ∧ (k.step vfs reads (.other e)).Remembers g' := by
  rcases step_files vfs k.base e with hf | ⟨pid, d, ho⟩
  · exact agrees_still hrem (h.frame hf) fun _ _ hop => by
      simp [operatesOn, FileEvent.target] at hop
  obtain ⟨ref, v, hfree, hg⟩ := h.opens hinv ho
  refine ⟨_, hg, fun ref' v' hv => ?_⟩
  have hkept : k.leave (.other e) (k.base.step vfs (.other e)) ref' = some v' := hv
  obtain ⟨hu, hl⟩ := leave_none rfl hkept
  have hne : ref' ≠ ref := by
    rintro rfl
    rw [hfree] at hu
    simp at hu
  rw [update_of_ne hne]
  exact hrem ref' v' hl

/-- The invariant: the descriptors are accounted for, and those of one `openat` agree on what
the last operation left. -/
def Coherent (k : FileKernel σ) : Prop :=
  (∃ G, FdInv False k.base.kernel.nextPid 0 G k.base.kernel.fds) ∧ ∃ g, Agrees g k.base.kernel.fds ∧ k.Remembers g

theorem step_inv (h : ∃ G, FdInv False k.base.kernel.nextPid 0 G k.base.kernel.fds) (e : FileEvent) :
    ∃ G, FdInv False (k.step vfs reads e).base.kernel.nextPid 0 G (k.step vfs reads e).base.kernel.fds := by
  have hpid : ∀ {cur : Caller}, k.base.kernel.exists cur.pid = true →
      0 < cur.pid ∧ cur.pid < k.base.kernel.nextPid := by
    intro cur hex
    simpa [FdKernel.exists] using hex
  cases e with
  | other e => exact WriteKernel.step_inv vfs h (.other e)
  | write cur fd buf elsewhere => exact WriteKernel.step_inv vfs h (.write cur fd buf elsewhere)
  | read cur fd buf elsewhere =>
    obtain ⟨G, h⟩ := h
    dsimp only [step, stepBase]
    split
    · rename_i hex
      obtain ⟨hpos, hN⟩ := hpid hex
      exact ⟨G, h.touched hpos hN (doSysFdRead_touched vfs reads k.base.fs buf elsewhere cur)⟩
    · exact ⟨G, h⟩
  | lseek cur fd off whence =>
    obtain ⟨G, h⟩ := h
    dsimp only [step, stepBase]
    split
    · rename_i hex
      obtain ⟨hpos, hN⟩ := hpid hex
      exact ⟨G, h.touched hpos hN (doSysLseek_touched off whence)⟩
    · exact ⟨G, h⟩

theorem step_coherent (h : k.Coherent) (e : FileEvent) (hok : k.MovesAlone vfs reads e) :
    (k.step vfs reads e).Coherent := by
  refine ⟨step_inv h.1 e, ?_⟩
  obtain ⟨⟨G, hinv⟩, g, hag, hrem⟩ := h
  have hidle : ∀ {cur fd}, e.target = some (cur, fd) → ¬ k.base.kernel.exists cur.pid = true →
      ∃ g', Agrees g' k.base.kernel.fds ∧ Remembers ⟨k.base, k.leave e k.base⟩ g' := by
    intro cur fd ht hex
    refine agrees_still hrem hag fun cur' x hop => ?_
    unfold operatesOn at hop
    rw [ht] at hop
    simp [hex] at hop
  cases e with
  | other e => exact agrees_other hinv e hag hrem
  | write cur fd buf elsewhere =>
    unfold step stepBase WriteKernel.step
    dsimp only
    split
    · rename_i hex
      exact agrees_touched rfl hex hag hrem hok
        (doSysFdWrite_touched vfs reads k.base.fs buf elsewhere cur)
    · rename_i hex
      exact hidle rfl hex
  | read cur fd buf elsewhere =>
    unfold step stepBase
    dsimp only
    split
    · rename_i hex
      exact agrees_touched rfl hex hag hrem hok
        (doSysFdRead_touched vfs reads k.base.fs buf elsewhere cur)
    · rename_i hex
      exact hidle rfl hex
  | lseek cur fd off whence =>
    unfold step stepBase
    dsimp only
    split
    · rename_i hex
      exact agrees_touched rfl hex hag hrem hok
        (doSysLseek_touched off whence)
    · rename_i hex
      exact hidle rfl hex

/-- In a coherent state every operation finds what the last one left. -/
theorem Coherent.findsLeft (h : k.Coherent) (e : FileEvent) : k.FindsLeft e := by
  intro cur x v hop hv
  obtain ⟨-, g, hag, hrem⟩ := h
  obtain ⟨-, -, -, hreg⟩ := operatesOn_some hop
  have hseen : Agrees g (seenBy k.base.kernel.fds cur.pid) :=
    hag.frame (seenBy_frame _ _).files
  exact (hseen x hreg).trans (hrem _ v hv)

end FileKernel

/-- In every run in which only descriptors without copies are moved, each operation on a
regular file starts from where the last one on the same `openat` stopped. -/
theorem shared_position (vfs : Vfs σ) (reads : VfsReads σ) (fs : σ) (es : List FileEvent)
    (h : Meets (FileKernel.step vfs reads) (FileKernel.MovesAlone vfs reads) { base := { fs := fs } } es) :
    Meets (FileKernel.step vfs reads) FileKernel.FindsLeft { base := { fs := fs } } es := by
  refine meets_of_invariant (I := FileKernel.Coherent)
    (fun k e hk hok => FileKernel.step_coherent hk e hok) (fun k e hk _ => hk.findsLeft e) ?_ h
  refine ⟨⟨0, fdInv_boot⟩, fun _ => (0, 0), fun y hy => ?_, fun ref v hv => ?_⟩
  · obtain ⟨hu, -⟩ := hy
    simp at hu
  · simp at hv

end Runs

/-! ## Two descriptors of one file -/

/-- Reading from the file system `oneFile`. -/
def oneFileReads : VfsReads (List UInt8) where
  hasRead _ _ := true
  read fs _ _ off n := some ((fs.drop off).take n)
  readFile _ _ _ := none

/-- The file is opened as descriptor 3, a byte is written, and a copy is made as descriptor 4,
which is asked for its position. -/
def writeThenDup : List FileEvent :=
  [.other (.call root (.openat linuxORdwr (.ok "/etc/passwd") none)),
    .write root 3 { data := [97] } (.ok 0),
    .other (.call root (.dupfd 3 0 false)),
    .lseek root 4 0 linuxSeekCur]

def dupThenWrite : List FileEvent :=
  [.other (.call root (.openat linuxORdwr (.ok "/etc/passwd") none)),
    .other (.call root (.dupfd 3 0 false)),
    .write root 3 { data := [97] } (.ok 0),
    .write root 4 { data := [98] } (.ok 0)]

def oneFileRun (es : List FileEvent) : FileKernel (List UInt8) :=
  run (FileKernel.step oneFile oneFileReads) { base := { fs := [] } } es

theorem writeThenDup_shared : Meets (FileKernel.step oneFile oneFileReads) (FileKernel.MovesAlone oneFile oneFileReads)
      { base := { fs := [] } } writeThenDup ∧
    Meets (FileKernel.step oneFile oneFileReads) FileKernel.FindsLeft
      { base := { fs := [] } } writeThenDup := by
  have h : Meets (FileKernel.step oneFile oneFileReads)
      (FileKernel.MovesAlone oneFile oneFileReads) { base := { fs := [] } } writeThenDup := by
    refine ⟨?_, ?_, ?_, ?_, trivial⟩
    · intro cur x hop
      simp [FileKernel.operatesOn, FileEvent.target] at hop
    · intro cur x hop
      obtain ⟨fd, ht, hslot, -⟩ := FileKernel.operatesOn_some hop
      obtain ⟨rfl, rfl⟩ : root = cur ∧ (3 : ℤ) = fd := by simpa [FileEvent.target] using ht
      have hx : slotOf (oneFileRun (writeThenDup.take 1)).base.kernel.fds 1 3 = some (0, 3) := by
        decide +kernel
      obtain rfl := Option.some.inj (hx.symm.trans hslot)
      left
      obtain ⟨G, hinv⟩ : ∃ G, FdInv False (oneFileRun (writeThenDup.take 1)).base.kernel.nextPid 0 G
          (oneFileRun (writeThenDup.take 1)).base.kernel.fds := FileKernel.step_inv ⟨0, fdInv_boot⟩ _
      have hpid : (0 : ℤ) < 1 := by decide
      refine (hinv.fdProcWithStdio hpid (by decide +kernel) rfl).1.forall_fds [0] (by decide +kernel)
        (fun x hx _ hreg => Bool.noConfusion (hx.symm.trans hreg.1)) ?_
      rw [List.forall_mem_singleton]
      decide +kernel
    · intro cur x hop
      simp [FileKernel.operatesOn, FileEvent.target] at hop
    · intro cur x hop
      obtain ⟨fd, ht, hslot, -⟩ := FileKernel.operatesOn_some hop
      obtain ⟨rfl, rfl⟩ : root = cur ∧ (4 : ℤ) = fd := by simpa [FileEvent.target] using ht
      have hx : slotOf (oneFileRun (writeThenDup.take 3)).base.kernel.fds 1 4 = some (0, 4) := by
        decide +kernel
      obtain rfl := Option.some.inj (hx.symm.trans hslot)
      right
      have hseek : seekTarget ((seenBy (oneFileRun (writeThenDup.take 3)).base.kernel.fds 1).fds
          (0, 4)) 0 linuxSeekCur = some ((seenBy (oneFileRun
            (writeThenDup.take 3)).base.kernel.fds 1).fds (0, 4)).pos := by
        decide +kernel
      exact fun np hnp => (Option.some.inj (hseek.symm.trans hnp)).symm
  exact ⟨h, shared_position oneFile oneFileReads [] writeThenDup h⟩

/-- The second write is at position 0, where the first one was, and not at 1, where it
stopped: its byte is lost. -/
theorem copy_overwrites : ¬ Meets (FileKernel.step oneFile oneFileReads) FileKernel.FindsLeft
      { base := { fs := [] } } dupThenWrite ∧
    ((seenBy (oneFileRun (dupThenWrite.take 3)).base.kernel.fds 1).fds (0, 4)).pos = 0 ∧
    (oneFileRun (dupThenWrite.take 3)).left ((seenBy (oneFileRun
      (dupThenWrite.take 3)).base.kernel.fds 1).fds (0, 4)).fileRef = some (1, 1) ∧
    (oneFileRun (dupThenWrite.take 3)).base.fs = [97] ∧
    (oneFileRun dupThenWrite).base.fs = [98] := by
  refine ⟨?_, by decide +kernel, by decide +kernel, by decide +kernel, by decide +kernel⟩
  rintro ⟨-, -, -, h, -⟩
  have hop : (oneFileRun (dupThenWrite.take 3)).operatesOn (.write root 4 { data := [98] } (.ok 0)) =
      some (root, (0, 4)) :=
    FileKernel.operatesOn_eq rfl (by decide +kernel) (by decide +kernel) (by decide +kernel)
  have hview := h root (0, 4) (1, 1) hop (by decide +kernel)
  have hat : ((seenBy (oneFileRun (dupThenWrite.take 3)).base.kernel.fds 1).fds (0, 4)).view =
      (0, 0) := by decide +kernel
  have heq : ((0, 0) : ℕ × ℕ) = (1, 1) := hat.symm.trans hview
  simp at heq

end EdgeOS
