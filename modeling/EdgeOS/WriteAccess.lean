import EdgeOS.DescriptorSystem
import EdgeOS.FileWrite

namespace EdgeOS

open Lib

/-!
Write access through descriptors. The permission to write is decided by `do_sys_openat`; the
system below follows it through the copies of a descriptor to the writes.
-/

/-- The descriptor layer with a file system. -/
structure WriteKernel (σ : Type) where
  kernel : FdKernel := {}
  fs : σ

/-- An `openat` takes the answer of the file system, whatever the event says. -/
inductive WriteEvent
  | other (e : FdEvent)
  | write (cur : Caller) (fd : ℤ) (buf : UserBuf) (elsewhere : FdResult)
  | writev (cur : Caller) (fd : ℤ) (bufs : List UserBuf) (copied : Bool) (elsewhere : FdResult)

def WriteEvent.target : WriteEvent → Option (Caller × ℤ)
  | .write cur fd _ _ => some (cur, fd)
  | .writev cur fd _ _ _ => some (cur, fd)
  | .other _ => none

/-- The descriptor that a call on `fd` reaches. -/
def descriptorOf (s : FdState) (pid fd : ℤ) : Option FdEntry :=
  match fdProcWithStdio s pid with
  | (s, some p) => (fdGet s p fd).map fun i => s.fds (p, i)
  | (_, none) => none

namespace WriteKernel

variable {σ : Type} (vfs : Vfs σ)

def set (k : WriteKernel σ) (s : FdState) (fs : σ) : WriteKernel σ :=
  ⟨{ k.kernel with fds := s }, fs⟩

def step (k : WriteKernel σ) : WriteEvent → WriteKernel σ
  | .other (.call cur (.openat flags path _)) =>
    if k.kernel.exists cur.pid then
      let (s, fs, _) := openFile vfs k.kernel.fds k.fs cur flags path
      k.set s fs
    else k
  | .other e => { k with kernel := k.kernel.step e }
  | .write cur fd buf elsewhere =>
    if k.kernel.exists cur.pid then
      let (s, fs, _) := doSysFdWrite vfs k.kernel.fds k.fs cur.pid fd buf elsewhere
      k.set s fs
    else k
  | .writev cur fd bufs copied elsewhere =>
    if k.kernel.exists cur.pid then
      let (s, fs, _) := doSysWritev vfs k.kernel.fds k.fs cur.pid fd bufs copied elsewhere
      k.set s fs
    else k

/-- The event writes through `d`, a regular file of superblock `sb`. -/
def WritesTo (k : WriteKernel σ) (e : WriteEvent) (d : FdEntry) (sb : ℕ) : Prop :=
  ∃ cur fd, e.target = some (cur, fd) ∧ k.kernel.exists cur.pid = true ∧
    descriptorOf k.kernel.fds cur.pid fd = some d ∧ d.kind = .vfs ∧
    d.inode.type = vfsInodeFile ∧ d.sb = some sb

def writeMode (flags : BitVec 32) : Prop :=
  flags &&& linuxOAccmode = linuxOWronly ∨ flags &&& linuxOAccmode = linuxORdwr

/-- A write that changes the bytes of a file goes through a descriptor whose `openat` asked
for write access to that file and had the permission. -/
def WriteAuthorised (k : WriteKernel σ) (e : WriteEvent) : Prop :=
  ∀ d sb, k.WritesTo e d sb → vfs.contents (k.step vfs e).fs sb d.inode.ino ≠ vfs.contents k.fs sb d.inode.ino →
    ∃ r, d.origin = some r ∧ writeMode r.flags ∧ openRequest r.flags &&& 2 ≠ 0 ∧
      vfsPermissionCheck r.inode (openRequest r.flags) r.euid r.egid = true ∧
      r.inode.ino = d.inode.ino ∧ r.sb = d.sb

/-- A write goes through a descriptor with an access mode for writing. -/
def ModeChecked (k : WriteKernel σ) (e : WriteEvent) : Prop :=
  ∀ d sb, k.WritesTo e d sb → writeMode d.flags

end WriteKernel

/-! ## Writes keep the descriptors well formed -/

section Writes

variable {R : Prop} {N : ℤ} {F : Holders} {G : ℕ → ℕ} {s s' : FdState} {pid : ℤ}
variable {σ : Type} (vfs : Vfs σ)

def FdEntry.SameFile (e e' : FdEntry) : Prop :=
  ∃ pos size, e' = { e with pos := pos, inode := { e.inode with size := size } }

theorem FdEntry.SameFile.refl (e : FdEntry) : e.SameFile e := ⟨e.pos, e.inode.size, rfl⟩

theorem FdEntry.SameFile.trans {e e' e'' : FdEntry} (h : e.SameFile e') (h' : e'.SameFile e'') : e.SameFile e'' := by
  obtain ⟨pos, size, rfl⟩ := h
  obtain ⟨pos', size', rfl⟩ := h'
  exact ⟨pos', size', rfl⟩

theorem FdEntry.SameFile.advance (e : FdEntry) (pos size : ℕ) :
    e.SameFile { e with pos := pos, inode := { e.inode with size := size } } := ⟨pos, size, rfl⟩

theorem writeRegular_sameFile (rangeOk : ℕ → ℕ → Bool) (sb n : ℕ) (fs : σ) (e : FdEntry)
    (total : ℕ) (data : List UInt8) :
    e.SameFile (writeRegular vfs rangeOk sb n fs e total data).2.1 := by
  induction n generalizing fs e total data with
  | zero => exact .refl e
  | succ n ih =>
    have happend : e.SameFile
        (if hasFlag e.flags linuxOAppend then { e with pos := e.inode.size } else e) := by
      split
      · exact ⟨e.inode.size, e.inode.size, rfl⟩
      · exact .refl e
    unfold writeRegular
    dsimp only
    generalize (if hasFlag e.flags linuxOAppend then { e with pos := e.inode.size } else e) = e1
      at happend ⊢
    split
    · exact .refl e
    split
    · exact .refl e
    -- From here on only the position and the size differ from `e1`.
    split
    · exact happend.trans (.advance e1 _ _)
    split
    · exact happend.trans (.advance e1 _ _)
    split
    · exact happend.trans (.advance e1 _ _)
    · exact happend.trans ((FdEntry.SameFile.advance e1 _ _).trans (ih _ _ _ _))

theorem writeDevice_sameFile (rangeOk : ℕ → ℕ → Bool) (n : ℕ) (fs : σ) (e : FdEntry) (total : ℕ)
    (data : List UInt8) : e.SameFile (writeDevice vfs rangeOk n fs e total data).2.1 := by
  induction n generalizing fs e total data with
  | zero => exact .refl e
  | succ n ih =>
    unfold writeDevice
    dsimp only
    split
    · exact .refl e
    split
    · exact .refl e
    have hadv : ∀ w : ℤ, e.SameFile
        (if e.inode.type = vfsInodeChr ∧ 0 < w then { e with pos := e.pos + w.toNat } else e) := by
      intro w
      split
      · exact ⟨e.pos + w.toNat, e.inode.size, rfl⟩
      · exact .refl e
    split
    · exact hadv _
    split
    · exact hadv _
    · exact (hadv _).trans (ih _ _ _ _)

theorem writeVfs_sameFile (fs : σ) (e : FdEntry) (buf : UserBuf) : e.SameFile (writeVfs vfs fs e buf).2.1 := by
  unfold writeVfs
  split
  · exact .refl e
  split
  · split
    · exact writeRegular_sameFile vfs _ _ _ _ _ _ _
    · exact writeDevice_sameFile vfs _ _ _ _ _ _
  · exact writeDevice_sameFile vfs _ _ _ _ _ _

theorem FdInv.doSysFdWrite (h : FdInv R N F G s) (hpos : 0 < pid) (hN : pid < N) (fs : σ) (fd : ℤ)
    (buf : UserBuf) (elsewhere : FdResult) :
    FdInv R N F G (EdgeOS.doSysFdWrite vfs s fs pid fd buf elsewhere).1 := by
  unfold EdgeOS.doSysFdWrite
  split
  · exact h
  split
  · exact h
  split
  · rename_i hq
    exact (h.fdProcWithStdio hpos hN hq).1
  rename_i s1 p hq
  obtain ⟨h1, -, -⟩ := h.fdProcWithStdio hpos hN hq
  split
  · exact h1
  rename_i i hg
  dsimp only
  split
  · exact h1
  obtain ⟨pos, size, heq⟩ := writeVfs_sameFile vfs fs (s1.fds (p, i)) buf
  rw [heq]
  exact h1.rewrite rfl rfl rfl rfl fun hf => ⟨hf.named, hf.opened⟩

theorem FdInv.writevLoop (h : FdInv R N F G s) (hpos : 0 < pid) (hN : pid < N) (fs : σ) (fd : ℤ)
    (bufs : List UserBuf) (elsewhere : FdResult) (total : ℕ) :
    FdInv R N F G (EdgeOS.writevLoop vfs pid fd elsewhere bufs s fs total).1 := by
  induction bufs generalizing s fs total with
  | nil => exact h
  | cons buf bufs ih =>
    unfold EdgeOS.writevLoop
    split
    · exact ih h fs total
    have hw := h.doSysFdWrite vfs hpos hN fs fd buf elsewhere
    split
    · rename_i heq
      rw [heq] at hw
      exact hw
    rename_i heq
    rw [heq] at hw
    split
    · exact hw
    · exact ih hw _ _

theorem FdInv.doSysWritev (h : FdInv R N F G s) (hpos : 0 < pid) (hN : pid < N) (fs : σ) (fd : ℤ)
    (bufs : List UserBuf) (copied : Bool) (elsewhere : FdResult) :
    FdInv R N F G (EdgeOS.doSysWritev vfs s fs pid fd bufs copied elsewhere).1 := by
  unfold EdgeOS.doSysWritev
  split
  · exact h
  split
  · exact h
  · exact h.writevLoop vfs hpos hN fs fd bufs elsewhere 0

/-- Opening changes the descriptors as `do_sys_openat` does for some answer of the file
system. -/
theorem openFile_fds (s : FdState) (fs : σ) (cur : Caller) (flags : BitVec 32) (path : Except Errno String) :
    ∃ resolved, (openFile vfs s fs cur flags path).1 = (EdgeOS.doSysOpenat s cur flags path resolved).1 := by
  unfold openFile
  split
  · split
    · exact ⟨none, rfl⟩
    · dsimp only
      split
      · rename_i heq
        exact ⟨_, by rw [heq]⟩
      rename_i heq
      split
      · exact ⟨_, by rw [heq]⟩
      · exact ⟨_, by rw [heq]⟩
  · exact ⟨none, rfl⟩

/-- Every event keeps the accounting of file references and the form of descriptors. -/
theorem WriteKernel.step_inv {k : WriteKernel σ}
    (h : ∃ G, FdInv False k.kernel.nextPid 0 G k.kernel.fds) (e : WriteEvent) :
    ∃ G, FdInv False (k.step vfs e).kernel.nextPid 0 G (k.step vfs e).kernel.fds := by
  obtain ⟨G, h⟩ := h
  have hpid : ∀ {cur : Caller}, k.kernel.exists cur.pid = true → 0 < cur.pid ∧ cur.pid < k.kernel.nextPid := by
    intro cur hex
    simpa [FdKernel.exists] using hex
  unfold WriteKernel.step
  split
  · rename_i cur flags path _
    split
    · rename_i hex
      obtain ⟨hpos, hN⟩ := hpid hex
      obtain ⟨resolved, heq⟩ := openFile_fds vfs k.kernel.fds k.fs cur flags path
      obtain ⟨G', hG', -⟩ := h.doSysOpenat hpos hN flags path resolved
      rw [← heq] at hG'
      exact ⟨G', hG'⟩
    · exact ⟨G, h⟩
  · rename_i e _
    obtain ⟨G', hG', -⟩ := FdKernel.step_inv h e False.elim
    exact ⟨G', hG'⟩
  · split
    · rename_i hex
      obtain ⟨hpos, hN⟩ := hpid hex
      exact ⟨G, h.doSysFdWrite vfs hpos hN _ _ _ _⟩
    · exact ⟨G, h⟩
  · split
    · rename_i hex
      obtain ⟨hpos, hN⟩ := hpid hex
      exact ⟨G, h.doSysWritev vfs hpos hN _ _ _ _ _⟩
    · exact ⟨G, h⟩

theorem FdInv.descriptorOf (h : FdInv R N F G s) (hpos : 0 < pid) (hN : pid < N) {fd : ℤ}
    {d : FdEntry} (hd : EdgeOS.descriptorOf s pid fd = some d) : d.WellFormed := by
  unfold EdgeOS.descriptorOf at hd
  split at hd
  · rename_i s1 p hq
    obtain ⟨h1, -, -⟩ := h.fdProcWithStdio hpos hN hq
    obtain ⟨i, hg, rfl⟩ := Option.map_eq_some_iff.mp hd
    exact h1.formed (p, i) (fdGet_some hg)
  · simp at hd

end Writes

section Access

variable {σ : Type} {vfs : Vfs σ}

theorem openRequest_write {flags : BitVec 32} (h : WriteKernel.writeMode flags) : openRequest flags &&& 2 ≠ 0 := by
  unfold openRequest
  rcases h with h | h
  · rw [if_pos h]
    decide
  · rw [if_neg (by rw [h]; decide), if_pos h]
    decide

/-- In every run whose writes to regular files all go through descriptors with a writing
access mode, every write that changes a file was authorised when the descriptor was opened. -/
theorem write_access_control (fs : σ) (es : List WriteEvent)
    (h : Meets (WriteKernel.step vfs) WriteKernel.ModeChecked { fs := fs } es) :
    Meets (WriteKernel.step vfs) (WriteKernel.WriteAuthorised vfs) { fs := fs } es := by
  refine meets_of_invariant
    (I := fun k : WriteKernel σ => ∃ G, FdInv False k.kernel.nextPid 0 G k.kernel.fds)
    (fun k e hk _ => WriteKernel.step_inv vfs hk e) ?_ ⟨0, fdInv_boot⟩ h
  intro k e ⟨G, hk⟩ hmode d sb hw _
  have hflags := hmode d sb hw
  obtain ⟨cur, fd, -, hex, hd, hkind, -, hsb⟩ := hw
  obtain ⟨hpos, hN⟩ : 0 < cur.pid ∧ cur.pid < k.kernel.nextPid := by
    simpa [FdKernel.exists] using hex
  obtain ⟨r, hr, hacc, hino, hrsb, hperm⟩ := (hk.descriptorOf hpos hN hd).opened hkind
  have hmode' : WriteKernel.writeMode r.flags := by
    unfold WriteKernel.writeMode
    rw [← hacc]
    exact hflags
  exact ⟨r, hr, hmode', openRequest_write hmode', hperm, hino.symm, hrsb.symm⟩

end Access

/-! ## A file that everybody may read and only root may write -/

/-- A mounted file system with the one file `/etc/passwd`, whose bytes are its state. -/
def oneFile : Vfs (List UInt8) where
  resolve fs path :=
    if path = "/etc/passwd" then some ({ ino := 12, mode := 0o100644, size := fs.length }, some 0)
    else none
  mountProc fs := fs
  writeFile fs _ _ := (fs, -1)
  hasWrite _ _ := true
  write fs _ _ off data :=
    let fs := fs.take off ++ List.replicate (off - fs.length) 0 ++ data ++ fs.drop (off + data.length)
    (fs, fs.length, data.length)
  devPwrite fs _ _ _ := (fs, -1)
  contents fs _ _ := fs

def root : Caller := { pid := 1 }
def user : Caller := { pid := 2, euid := 1000, egid := 1000 }

/-- The file is opened as descriptor 3 and one byte is written to it. -/
def openAndWrite (cur : Caller) (flags : BitVec 32) : List WriteEvent :=
  [.other .spawn, .other (.call cur (.openat flags (.ok "/etc/passwd") none)),
    .write cur 3 { data := [120] } (.ok 0)]

theorem rootWrite_authorised : Meets (WriteKernel.step oneFile) WriteKernel.ModeChecked { fs := [114, 111] }
      (openAndWrite root linuxORdwr) ∧
    Meets (WriteKernel.step oneFile) (WriteKernel.WriteAuthorised oneFile) { fs := [114, 111] }
      (openAndWrite root linuxORdwr) := by
  have h : Meets (WriteKernel.step oneFile) WriteKernel.ModeChecked { fs := [114, 111] }
      (openAndWrite root linuxORdwr) := by
    refine ⟨?_, ?_, ?_, trivial⟩
    · rintro d sb ⟨cur, fd, htarget, -⟩
      simp [WriteEvent.target] at htarget
    · rintro d sb ⟨cur, fd, htarget, -⟩
      simp [WriteEvent.target] at htarget
    · rintro d sb ⟨cur, fd, htarget, -, hd, -⟩
      obtain ⟨rfl, rfl⟩ : root = cur ∧ (3 : ℤ) = fd := by simpa [WriteEvent.target] using htarget
      have hflags := congrArg (Option.map FdEntry.flags) hd
      right
      have heq : some linuxORdwr = some d.flags := by
        rw [← Option.map_some, ← hflags]
        decide +kernel
      rw [← Option.some.inj heq]
      decide
  exact ⟨h, write_access_control [114, 111] (openAndWrite root linuxORdwr) h⟩

/-- A user who may only read the file opens it read-only and overwrites its first byte. -/
theorem readOnly_descriptor_writes :
    ¬ Meets (WriteKernel.step oneFile) (WriteKernel.WriteAuthorised oneFile) { fs := [114, 111] }
      (openAndWrite user 0) := by
  rintro ⟨-, -, h, -⟩
  have hd : (descriptorOf (run (WriteKernel.step oneFile) { fs := [114, 111] }
      ((openAndWrite user 0).take 2)).kernel.fds 2 3).map
        (fun d => (d.kind, d.inode, d.sb, d.origin.map OpenRecord.flags)) =
      some (.vfs, { ino := 12, mode := 0o100644, size := 2 }, some 0, some 0) := by
    decide +kernel
  obtain ⟨d, hd, hproj⟩ := Option.map_eq_some_iff.mp hd
  obtain ⟨hkind, hinode, hsb, hflags⟩ : d.kind = .vfs ∧
      d.inode = { ino := 12, mode := 0o100644, size := 2 } ∧ d.sb = some 0 ∧
      d.origin.map OpenRecord.flags = some 0 := by simpa using hproj
  have hchanged : oneFile.contents (run (WriteKernel.step oneFile) { fs := [114, 111] }
      (openAndWrite user 0)).fs 0 12 = [120, 111] := by decide +kernel
  have hbefore : oneFile.contents (run (WriteKernel.step oneFile) { fs := [114, 111] }
      ((openAndWrite user 0).take 2)).fs 0 12 = [114, 111] := by decide +kernel
  obtain ⟨r, hr, hmode, -⟩ := h d 0
    ⟨user, 3, rfl, by decide +kernel, hd, hkind, by rw [hinode]; decide, hsb⟩ (by
      rw [hinode]
      intro heq
      have := hchanged.symm.trans (heq.trans hbefore)
      simp at this)
  rw [hr] at hflags
  rw [Option.map_some, Option.some_inj] at hflags
  rw [WriteKernel.writeMode, hflags] at hmode
  revert hmode
  decide

end EdgeOS
