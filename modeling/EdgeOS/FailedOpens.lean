import EdgeOS.ConsoleHold
import EdgeOS.PathSteps
import EdgeOS.SharedPosition

namespace EdgeOS

/-!
What `do_sys_openat` leaves behind when it fails. The mount table and the directory tree are the
state of the file system below.
-/

open Function

/-- The same descriptors, file references and terminals are in use, and they hold the same. -/
structure FdState.Same (s s' : FdState) : Prop where
  procPid : s'.procPid = s.procPid
  used : ∀ x, (s'.fds x).used = (s.fds x).used
  fds : ∀ x, (s.fds x).used = true → s'.fds x = s.fds x
  fileRefs : s'.fileRefs = s.fileRefs
  ptyUsed : ∀ i, (s'.objs.ptys i).used = (s.objs.ptys i).used
  ptys : ∀ i, (s.objs.ptys i).used = true → s'.objs.ptys i = s.objs.ptys i
  others : s'.objs = { s.objs with ptys := s'.objs.ptys }

/-- A descriptor and a file reference are free for the process. -/
def FdState.HasRoom (s : FdState) (p : FdProcIdx) : Prop :=
  (fdAlloc s p 0).2 ≠ none ∧ (fileRefAlloc s).2 ≠ 0

/-- A call of the process finds the descriptors as they are: it makes no table and opens no standard
descriptor. -/
def FdState.Settled (s : FdState) (pid : ℤ) : Prop :=
  match findProc s pid with
  | some p => (∀ i : FdIdx, i.val ≤ 2 → (s.fds (p, i)).used = true) ∨ (fileRefAlloc s).2 = 0
  | none => findProc s 0 = none

/-- The terminal that a path names can be opened. -/
def TerminalReady (o : Objects) (cur : Caller) (name : String) : Prop :=
  if name = "/dev/tty" then TtyReady o cur
  else if name = "/dev/ptmx" then (ptyAlloc o).2 ≠ none
  else name.length ≠ 9 ∧ ∃ id, ptsNumber (name.toList.drop 9) 0 = some id ∧ (o.ptys id).used = true ∧
    (o.ptys id).unlocked = true

/-- What `do_sys_openat` does to the console, at its end. -/
def openConsole (con : FbConsole) : Except Errno String → FdResult → FbConsole
  | .ok name, .ok _ => con.opened name
  | _, _ => con

section Opens

variable {σ : Type} (vfs : Vfs σ)

/-- An `openat` that fails leaves the descriptors, the file system and the hold on the console as they were
before the call. -/
def OpenFree (s : FdState) (fs : σ) (con : FbConsole) (cur : Caller) (flags : BitVec 32)
    (path : Except Errno String) : Prop :=
  let out := openFile vfs s fs cur flags path
  ∀ err, out.2.2 = .error err → s.Same out.1 ∧ out.2.1 = fs ∧ openConsole con path out.2.2 = con

def OpenAllowed (cur : Caller) (flags : BitVec 32) (inode : VfsInode) : Prop :=
  vfsPermissionCheck inode (openRequest flags) cur.euid cur.egid = true

/-- There is room for a descriptor, and the terminal is ready, or the file is found and may be opened. -/
def OpenGranted (s : FdState) (fs : σ) (cur : Caller) (flags : BitVec 32) (p : FdProcIdx) (name : String) : Prop :=
  s.HasRoom p ∧
    if specialPath name then TerminalReady s.objs cur name
    else ∃ inode sb, (openResolve vfs fs flags name).2 = some (inode, sb) ∧ OpenAllowed cur flags inode

/-- The open is granted, or it finds the descriptors as they are, has no room if it is one of `/dev/tty`, and
mounts and creates nothing in its lookup. -/
def OpenExact (s : FdState) (fs : σ) (cur : Caller) (flags : BitVec 32) (path : Except Errno String) : Prop :=
  (∃ p name, (fdProcWithStdio s cur.pid).2 = some p ∧ path = .ok name ∧
      OpenGranted vfs (seenBy s cur.pid) fs cur flags p name) ∨
    s.Settled cur.pid ∧ ∀ p name, findProc s cur.pid = some p → path = .ok name →
      (name = "/dev/tty" → ¬ s.HasRoom p) ∧ (specialPath name = false → (openResolve vfs fs flags name).1 = fs)

end Opens

/-! ## Descriptors -/

section Descriptors

variable {s s' : FdState} {p : FdProcIdx} {i : FdIdx}

theorem FdState.Same.refl (s : FdState) : s.Same s :=
  ⟨rfl, fun _ => rfl, fun _ _ => rfl, rfl, fun _ => rfl, fun _ _ => rfl, rfl⟩

theorem FdState.Same.clear (h : (s.fds (p, i)).used = false) : s.Same (s.setFd p i {}) where
  procPid := rfl
  used x := by
    by_cases hx : x = (p, i)
    · have hself : (s.setFd p i {}).fds (p, i) = {} := update_self ..
      rw [hx, h, hself]
    · exact congrArg FdEntry.used (update_of_ne hx ..)
  fds x hu := by
    have hx : x ≠ (p, i) := by
      rintro rfl
      rw [h] at hu
      exact Bool.noConfusion hu
    exact update_of_ne hx ..
  fileRefs := rfl
  ptyUsed _ := rfl
  ptys _ _ := rfl
  others := rfl

theorem setFd_setFd (s : FdState) (p : FdProcIdx) (i : FdIdx) (e e' : FdEntry) :
    (s.setFd p i e).setFd p i e' = s.setFd p i e' := by
  unfold FdState.setFd
  simp only [update_idem]

theorem fileRefAlloc_setFd (s : FdState) (p : FdProcIdx) (i : FdIdx) (e : FdEntry) :
    (fileRefAlloc (s.setFd p i e)).2 = (fileRefAlloc s).2 :=
  fileRefAlloc_congr s (s.setFd p i e) rfl

/-- `fd_alloc` and the filling of the descriptor: without room both fail and change nothing. -/
theorem install_cases (s : FdState) (p : FdProcIdx) (e : FdEntry) :
    (¬ s.HasRoom p ∧ (fdAlloc s p 0 = (s, none) ∨ ∃ i, fdAlloc s p 0 = (s.setFd p i { used := true }, some i) ∧
        (s.fds (p, i)).used = false ∧ (fdInstall (s.setFd p i { used := true }) p i e) = (s.setFd p i {}, false))) ∨
      s.HasRoom p ∧ ∃ i j, fdAlloc s p 0 = (s.setFd p i { used := true }, some i) ∧
        (s.fds (p, i)).used = false ∧ (s.fileRefs j).used = false ∧
        fdInstall (s.setFd p i { used := true }) p i e =
          ((s.setFileRef j { used := true, refs := 1 }).setFd p i { e with used := true, fileRef := j }, true) := by
  unfold FdState.HasRoom
  rcases halloc : fdAlloc s p 0 with ⟨s1, _ | i⟩
  · rw [fdAlloc_none halloc]
    exact .inl ⟨by simp, .inl rfl⟩
  obtain ⟨rfl, hfree⟩ := fdAlloc_some halloc
  have href := fileRefAlloc_setFd s p i { used := true }
  rcases fdInstall_cases (s.setFd p i { used := true }) p i e with ⟨hzero, hinstall⟩ | ⟨j, hj, -, hunused, hfj, hinstall⟩
  · rw [setFd_setFd] at hinstall
    refine .inl ⟨?_, .inr ⟨i, rfl, hfree, hinstall⟩⟩
    rintro ⟨-, hne⟩
    exact hne (href.symm.trans hzero)
  refine .inr ⟨⟨by simp, ?_⟩, i, j, rfl, hfree, hunused, ?_⟩
  · rw [← href, hfj]
    omega
  · rw [hinstall]
    unfold FdState.setFd FdState.setFileRef
    simp only [update_idem]

/-- How an open ends that begins with `s`: it succeeds just when it may. When it fails the same descriptors
are in use, and everything is the same just when `kept`. -/
def OpenEnds (s : FdState) (out : FdState × FdResult) (granted kept : Prop) : Prop :=
  (granted ∧ ∃ fd, out.2 = .ok fd) ∨
    ¬ granted ∧ (∃ err, out.2 = .error err) ∧ out.1.procPid = s.procPid ∧
      (∀ x, (out.1.fds x).used = (s.fds x).used) ∧ (s.Same out.1 ↔ kept)

theorem OpenEnds.fails {granted : Prop} (hno : ¬ granted) {err : Errno} (h : s.Same s') :
    OpenEnds s (s', .error err) granted True :=
  .inr ⟨hno, ⟨err, rfl⟩, h.procPid, h.used, iff_of_true h trivial⟩

theorem OpenEnds.congr {out : FdState × FdResult} {granted granted' kept kept' : Prop} (h : OpenEnds s out granted kept)
    (hg : granted ↔ granted') (hk : kept ↔ kept') : OpenEnds s out granted' kept' := by
  unfold OpenEnds at h ⊢
  rwa [← hg, ← hk]

/-- An ordinary file: no error leaves anything behind. -/
theorem openVfs_ends (s : FdState) (p : FdProcIdx) (cur : Caller) (flags : BitVec 32) (path : String)
    (inode : VfsInode) (sb : Option ℕ) :
    OpenEnds s (openVfs s p cur flags path inode sb) (s.HasRoom p ∧ OpenAllowed cur flags inode) True := by
  unfold openVfs OpenAllowed
  split
  · rename_i hdenied
    refine .fails (fun h => ?_) (.refl s)
    rw [h.2] at hdenied
    simp at hdenied
  rename_i hallowed
  have hallowed : vfsPermissionCheck inode (openRequest flags) cur.euid cur.egid = true := by simpa using hallowed
  dsimp only
  generalize hentry : (FdEntry.mk _ _ _ _ _ _ _ _ _ _ _) = e
  rcases install_cases s p e with ⟨hroom, halloc | ⟨i, halloc, hfree, hinstall⟩⟩ | ⟨hroom, i, j, halloc, -, -, hinstall⟩
  · rw [halloc]
    exact .fails (fun h => hroom h.1) (.refl s)
  · rw [halloc]
    dsimp only
    rw [hinstall]
    exact .fails (fun h => hroom h.1) (.clear hfree)
  · rw [halloc]
    dsimp only
    rw [hinstall]
    exact .inl ⟨⟨hroom, hallowed⟩, _, rfl⟩

/-- The controlling terminal: without a usable one the descriptor is cleared. -/
theorem attachTty_ends (s : FdState) (p : FdProcIdx) (i : FdIdx) (e : FdEntry) (cur : Caller) :
    (TtyReady s.objs cur ∧ ∃ fd, (attachTty (s.setFd p i e) p i cur).2 = .ok fd) ∨
      ¬ TtyReady s.objs cur ∧ ∃ err, attachTty (s.setFd p i e) p i cur = (s.setFd p i {}, .error err) := by
  have hobjs : (s.setFd p i e).objs = s.objs := rfl
  unfold attachTty TtyReady
  dsimp only
  simp only [setFd_setFd]
  rw [hobjs]
  split
  · rename_i h1
    exact .inl ⟨.inl h1, _, rfl⟩
  rename_i h1
  split
  · rename_i h2
    split
    · rename_i hid
      refine .inr ⟨?_, _, rfl⟩
      rintro (h | ⟨-, j, hj, -⟩)
      · exact h1 h
      · rw [hid] at hj
        simp at hj
    rename_i j hid
    split
    · rename_i hu
      refine .inr ⟨?_, _, rfl⟩
      rintro (h | ⟨-, l, hl, hused⟩)
      · exact h1 h
      · rw [hid] at hl
        rw [← Option.some.inj hl] at hused
        rw [hused] at hu
        simp at hu
    · rename_i hu
      exact .inl ⟨.inr ⟨h2, j, hid, by simpa using hu⟩, _, rfl⟩
  · rename_i h2
    refine .inr ⟨?_, _, rfl⟩
    rintro (h | ⟨h, -⟩)
    · exact h1 h
    · exact h2 h

/-- `/dev/tty`: the file reference that has been taken is lost when there is no usable terminal. -/
theorem openTty_ends (s : FdState) (p : FdProcIdx) (cur : Caller) (flags : BitVec 32) :
    OpenEnds s (openTty s p cur flags) (s.HasRoom p ∧ TtyReady s.objs cur) (¬ s.HasRoom p) := by
  unfold openTty
  rcases install_cases s p (ttyEntry flags) with
    ⟨hroom, halloc | ⟨i, halloc, hfree, hinstall⟩⟩ | ⟨hroom, i, j, halloc, hfree, hunused, hinstall⟩
  · rw [halloc]
    exact OpenEnds.congr (.fails (fun h => hroom h.1) (.refl s)) Iff.rfl (iff_of_true trivial hroom)
  · rw [halloc]
    dsimp only
    rw [hinstall]
    exact OpenEnds.congr (.fails (fun h => hroom h.1) (.clear hfree)) Iff.rfl (iff_of_true trivial hroom)
  rw [halloc]
  dsimp only
  rw [hinstall]
  dsimp only
  rcases attachTty_ends (s.setFileRef j { used := true, refs := 1 }) p i
      { ttyEntry flags with used := true, fileRef := j } cur with ⟨hready, hok⟩ | ⟨hready, err, herr⟩
  · exact .inl ⟨⟨hroom, hready⟩, hok⟩
  rw [herr]
  have hlost : ¬ s.Same ((s.setFileRef j { used := true, refs := 1 }).setFd p i {}) := by
    intro h
    have hj : (s.setFileRef j { used := true, refs := 1 }).fileRefs j = s.fileRefs j := congrFun h.fileRefs j
    have hself : (s.setFileRef j { used := true, refs := 1 }).fileRefs j = { used := true, refs := 1 } :=
      update_self ..
    rw [← hj, hself] at hunused
    exact Bool.noConfusion hunused
  have hclear : (s.setFileRef j { used := true, refs := 1 }).Same
      ((s.setFileRef j { used := true, refs := 1 }).setFd p i {}) := .clear hfree
  exact .inr ⟨fun h => hready h.2, ⟨err, rfl⟩, rfl, hclear.used, iff_of_false hlost fun h => h hroom⟩

/-- A terminal that `pty_alloc` has marked is given back by `pty_drop_ref`. -/
theorem ptyAlloc_dropRef {o o' : Objects} {id : ℕ} (h : ptyAlloc o = (o', some id)) :
    (o.ptys id).used = false ∧ ptyDropRef o' id true = o.setPty id {} := by
  unfold ptyAlloc at h
  split at h
  · rename_i i hi
    obtain ⟨rfl, hid⟩ := Prod.mk.inj h
    obtain rfl := Option.some.inj hid
    obtain ⟨hunused, hlt⟩ := firstFree_some hi
    refine ⟨hunused, ?_⟩
    have hself : (o.setPty i { used := true, refsMaster := 1 }).ptys i = { used := true, refsMaster := 1 } :=
      update_self ..
    unfold ptyDropRef
    rw [tableIndex_cast hlt]
    dsimp only
    rw [hself]
    unfold Objects.setPty
    simp only [update_idem]
    rfl
  · cases h

theorem openPtmx_ends (s : FdState) (p : FdProcIdx) (flags : BitVec 32) :
    OpenEnds s (openPtmx s p flags) (s.HasRoom p ∧ (ptyAlloc s.objs).2 ≠ none) True := by
  unfold openPtmx
  rcases halloc : fdAlloc s p 0 with ⟨s1, _ | i⟩
  · have hs1 := fdAlloc_none halloc
    rw [hs1] at halloc ⊢
    refine .fails (fun h => h.1.1 ?_) (.refl s)
    rw [halloc]
  obtain ⟨rfl, hfree⟩ := fdAlloc_some halloc
  dsimp only
  rcases hpty : ptyAlloc s.objs with ⟨o, _ | id⟩
  · have hpty' : ptyAlloc (s.setFd p i { used := true }).objs = (o, none) := hpty
    rw [hpty']
    dsimp only
    rw [setFd_setFd]
    exact .fails (fun h => h.2 rfl) (.clear hfree)
  have hpty' : ptyAlloc (s.setFd p i { used := true }).objs = (o, some id) := hpty
  rw [hpty']
  dsimp only
  have href : (fileRefAlloc { s.setFd p i { used := true } with objs := o }).2 = (fileRefAlloc s).2 :=
    fileRefAlloc_congr s { s.setFd p i { used := true } with objs := o } rfl
  rcases fdInstall_cases { s.setFd p i { used := true } with objs := o } p i
    { kind := .ptyMaster, flags := flags, cloexec := hasFlag flags linuxOCloexec, pipeId := id
      path := "/dev/ptmx" } with ⟨hzero, hinstall⟩ | ⟨j, hj, -, -, hfj, hinstall⟩
  · rw [hinstall]
    dsimp only
    refine .fails (fun h => h.1.2 (href.symm.trans hzero)) ?_
    obtain ⟨hunused, hdrop⟩ := ptyAlloc_dropRef hpty
    have hstate : ({ FdState.setFd { s.setFd p i { used := true } with objs := o } p i {} with
        objs := ptyDropRef o id true } : FdState) = { s.setFd p i {} with objs := s.objs.setPty id {} } := by
      rw [hdrop, ← setFd_setFd s p i { used := true } {}]
      rfl
    have hclear := FdState.Same.clear hfree
    have hself : (s.objs.setPty id {}).ptys id = {} := update_self ..
    have hother : ∀ k, k ≠ id → (s.objs.setPty id {}).ptys k = s.objs.ptys k :=
      fun k hk => update_of_ne hk ..
    refine hstate ▸ ⟨hclear.procPid, hclear.used, hclear.fds, hclear.fileRefs, fun k => ?_, fun k hu => ?_, rfl⟩
    · by_cases hk : k = id
      · change ((s.objs.setPty id {}).ptys k).used = _
        rw [hk, hself, hunused]
      · change ((s.objs.setPty id {}).ptys k).used = _
        rw [hother k hk]
    · have hk : k ≠ id := by
        rintro rfl
        rw [hunused] at hu
        simp at hu
      exact hother k hk
  · rw [hinstall]
    refine .inl ⟨⟨⟨?_, ?_⟩, by simp⟩, _, rfl⟩
    · rw [halloc]
      simp
    · rw [← href, hfj]
      omega

theorem openPts_ends (s : FdState) (p : FdProcIdx) (cur : Caller) (flags : BitVec 32) (path : String) :
    OpenEnds s (openPts s p cur flags path) (s.HasRoom p ∧ path.length ≠ 9 ∧
      ∃ id, ptsNumber (path.toList.drop 9) 0 = some id ∧ (s.objs.ptys id).used = true ∧
        (s.objs.ptys id).unlocked = true) True := by
  unfold openPts
  by_cases hlen : path.length = 9
  · rw [if_pos hlen]
    exact .fails (fun h => h.2.1 hlen) (.refl s)
  rw [if_neg hlen]
  rcases hid : ptsNumber (path.toList.drop 9) 0 with _ | id
  · refine .fails ?_ (.refl s)
    rintro ⟨-, -, id', hid', -⟩
    cases hid'
  dsimp only
  split
  · rename_i hclosed
    refine .fails ?_ (.refl s)
    rintro ⟨-, -, id', hid', hused, hunlocked⟩
    rw [← Option.some.inj hid'] at hused hunlocked
    rw [hused, hunlocked] at hclosed
    simp at hclosed
  rename_i hopen
  rw [not_or] at hopen
  rcases install_cases s p { kind := .ptySlave, flags := flags, cloexec := hasFlag flags linuxOCloexec, pipeId := id
                             path := path } with
    ⟨hroom, halloc | ⟨i, halloc, hfree, hinstall⟩⟩ | ⟨hroom, i, j, halloc, -, -, hinstall⟩
  · rw [halloc]
    exact .fails (fun h => hroom h.1) (.refl s)
  · rw [halloc]
    dsimp only
    rw [hinstall]
    exact .fails (fun h => hroom h.1) (.clear hfree)
  · rw [halloc]
    dsimp only
    rw [hinstall]
    exact .inl ⟨⟨hroom, hlen, id, rfl, by simpa using hopen.1, by simpa using hopen.2⟩, _, rfl⟩

end Descriptors

/-! ## The caller's table -/

section Tables

variable {s s' : FdState} {pid : ℤ}

theorem mem_stdio {i : FdIdx} : i ∈ ([0, 1, 2] : List FdIdx) ↔ i.val ≤ 2 := by
  simp only [List.mem_cons, List.not_mem_nil, or_false, Fin.ext_iff]
  change i.val = 0 ∨ i.val = 1 ∨ i.val = 2 ↔ _
  omega

theorem FdState.Settled.seenBy (h : s.Settled pid) : seenBy s pid = s := by
  unfold FdState.Settled at h
  unfold EdgeOS.seenBy fdProcWithStdio fdProcForPid
  rcases hp : findProc s pid with _ | p
  · rw [hp] at h
    dsimp only at h ⊢
    rw [h]
  rw [hp] at h
  rcases ensureStdio_cases p [0, 1, 2] s with ⟨-, hsame⟩ | ⟨href, i, hi, hclosed, -⟩
  · exact hsame
  rcases h with hall | h0
  · rw [hall i (mem_stdio.mp hi)] at hclosed
    simp at hclosed
  · exact absurd h0 href

theorem fdProcWithStdio_some {p : FdProcIdx} (hp : findProc s pid = some p) : (fdProcWithStdio s pid).2 = some p := by
  unfold fdProcWithStdio fdProcForPid
  rw [hp]

theorem fdProcWithStdio_none (h : (fdProcWithStdio s pid).2 = none) : findProc s pid = none ∧ findProc s 0 = none := by
  unfold fdProcWithStdio fdProcForPid at h
  rcases hp : findProc s pid with _ | p
  · rw [hp] at h
    rcases h0 : findProc s 0 with _ | q
    · exact ⟨rfl, rfl⟩
    · rw [h0] at h
      cases h
  · rw [hp] at h
    cases h

theorem FdState.Settled.findProc (h : s.Settled pid) {p : FdProcIdx} (hproc : (fdProcWithStdio s pid).2 = some p) :
    findProc s pid = some p := by
  rcases hp : EdgeOS.findProc s pid with _ | q
  · unfold FdState.Settled at h
    rw [hp] at h
    unfold fdProcWithStdio fdProcForPid at hproc
    rw [hp] at hproc
    dsimp only at h hproc
    rw [h] at hproc
    cases hproc
  · rw [← hproc, fdProcWithStdio_some hp]

/-- A table that the call has made, or a standard descriptor that it has opened, shows. -/
theorem settled_of_used (hproc : (seenBy s pid).procPid = s.procPid)
    (hused : ∀ x, ((seenBy s pid).fds x).used = (s.fds x).used) : s.Settled pid := by
  unfold FdState.Settled
  unfold seenBy fdProcWithStdio fdProcForPid at hproc hused
  rcases hp : findProc s pid with _ | p
  · dsimp only
    rcases h0 : findProc s 0 with _ | q
    · rfl
    rw [hp] at hproc
    dsimp only at hproc
    rw [h0] at hproc
    dsimp only at hproc
    have hself : (s.clearProc q pid).procPid q = pid := update_self _ _ _
    have hq : (fdEnsureStdio (fdEnsureStdio (s.clearProc q pid) q) q).procPid q = pid := by
      rw [(fdEnsureStdio_frame rfl).2.1, (fdEnsureStdio_frame rfl).2.1]
      exact hself
    rw [hproc] at hq
    exact absurd hq (findProc_none hp q)
  · rw [hp] at hused
    rcases ensureStdio_cases p [0, 1, 2] s with ⟨hwhy, -⟩ | ⟨-, i, -, hclosed, hopen⟩
    · exact hwhy.imp_left fun hall i hi => hall i (mem_stdio.mpr hi)
    have hi := hused (p, i)
    unfold fdEnsureStdio at hi
    dsimp only at hi
    rw [hopen, hclosed] at hi
    simp at hi

/-- The state before the call against the state after an open that has failed. -/
theorem settled_same {kept : Prop} (hproc : s'.procPid = (seenBy s pid).procPid)
    (hused : ∀ x, (s'.fds x).used = ((seenBy s pid).fds x).used) (hkept : (seenBy s pid).Same s' ↔ kept) :
    s.Same s' ↔ s.Settled pid ∧ kept := by
  constructor
  · intro h
    have hsettled := settled_of_used (hproc.symm.trans h.procPid) fun x => (hused x).symm.trans (h.used x)
    rw [hsettled.seenBy] at hkept
    exact ⟨hsettled, hkept.mp h⟩
  · rintro ⟨hsettled, hk⟩
    rw [hsettled.seenBy] at hkept
    exact hkept.mpr hk

end Tables

/-! ## The call -/

section Opens

variable {σ : Type} (vfs : Vfs σ) (s : FdState) (fs : σ) (con : FbConsole) (cur : Caller) (flags : BitVec 32)

theorem openConsole_error (path : Except Errno String) (err : Errno) : openConsole con path (.error err) = con := by
  cases path <;> rfl

theorem doSysOpenat_seen {p : FdProcIdx} (hproc : (fdProcWithStdio s cur.pid).2 = some p) (name : String)
    (resolved : Option (VfsInode × Option ℕ)) :
    doSysOpenat s cur flags (.ok name) resolved =
      if name = "/dev/tty" then openTty (seenBy s cur.pid) p cur flags
      else if name = "/dev/ptmx" then openPtmx (seenBy s cur.pid) p flags
      else if name.startsWith "/dev/pts/" then openPts (seenBy s cur.pid) p cur flags name
      else
        match resolved with
        | none => (seenBy s cur.pid, .error .enoent)
        | some (inode, sb) => openVfs (seenBy s cur.pid) p cur flags name inode sb := by
  have hpair : fdProcWithStdio s cur.pid = (seenBy s cur.pid, some p) := Prod.ext rfl hproc
  unfold doSysOpenat
  rewrite [hpair]
  rfl

/-- The paths of terminals: the file system is not asked. -/
theorem special_ends {p : FdProcIdx} {name : String} (hproc : (fdProcWithStdio s cur.pid).2 = some p)
    (hspecial : specialPath name = true) (resolved : Option (VfsInode × Option ℕ)) :
    OpenEnds (seenBy s cur.pid) (doSysOpenat s cur flags (.ok name) resolved)
      ((seenBy s cur.pid).HasRoom p ∧ TerminalReady (seenBy s cur.pid).objs cur name)
      (name = "/dev/tty" → ¬ (seenBy s cur.pid).HasRoom p) := by
  rw [doSysOpenat_seen s cur flags hproc]
  unfold TerminalReady
  by_cases htty : name = "/dev/tty"
  · rw [if_pos htty, if_pos htty]
    exact (openTty_ends _ p cur flags).congr Iff.rfl ⟨fun h _ => h, fun h => h htty⟩
  rw [if_neg htty, if_neg htty]
  have hkept : True ↔ (name = "/dev/tty" → ¬ (seenBy s cur.pid).HasRoom p) :=
    iff_of_true trivial fun h => absurd h htty
  by_cases hptmx : name = "/dev/ptmx"
  · rw [if_pos hptmx, if_pos hptmx]
    exact (openPtmx_ends _ p flags).congr Iff.rfl hkept
  rw [if_neg hptmx, if_neg hptmx]
  have hpts : name.startsWith "/dev/pts/" = true := by
    unfold specialPath at hspecial
    simpa [htty, hptmx] using hspecial
  rw [if_pos hpts]
  exact (openPts_ends _ p cur flags name).congr Iff.rfl hkept

theorem file_ends {p : FdProcIdx} {name : String} (hproc : (fdProcWithStdio s cur.pid).2 = some p)
    (hspecial : specialPath name = false) (resolved : Option (VfsInode × Option ℕ)) :
    OpenEnds (seenBy s cur.pid) (doSysOpenat s cur flags (.ok name) resolved)
      ((seenBy s cur.pid).HasRoom p ∧ ∃ inode sb, resolved = some (inode, sb) ∧ OpenAllowed cur flags inode) True := by
  have hnames : name ≠ "/dev/tty" ∧ name ≠ "/dev/ptmx" ∧ name.startsWith "/dev/pts/" = false := by
    unfold specialPath at hspecial
    simpa [not_or] using hspecial
  rw [doSysOpenat_seen s cur flags hproc, if_neg hnames.1, if_neg hnames.2.1, if_neg (by simp [hnames.2.2])]
  rcases resolved with _ | ⟨inode, sb⟩
  · refine .fails ?_ (.refl _)
    rintro ⟨-, inode, sb, hnone, -⟩
    cases hnone
  · refine (openVfs_ends _ p cur flags name inode sb).congr (and_congr_right fun _ => ?_) Iff.rfl
    constructor
    · intro h
      exact ⟨inode, sb, rfl, h⟩
    · rintro ⟨inode', sb', heq, h⟩
      rw [(Prod.mk.inj (Option.some.inj heq)).1]
      exact h

/-- How the whole call ends, and what it leaves of the file system when it fails. -/
theorem openFile_ends {p : FdProcIdx} (name : String) (hproc : (fdProcWithStdio s cur.pid).2 = some p) :
    OpenEnds (seenBy s cur.pid) ((openFile vfs s fs cur flags (.ok name)).1, (openFile vfs s fs cur flags (.ok name)).2.2)
        (OpenGranted vfs (seenBy s cur.pid) fs cur flags p name)
        (name = "/dev/tty" → ¬ (seenBy s cur.pid).HasRoom p) ∧
      ∀ err, (openFile vfs s fs cur flags (.ok name)).2.2 = .error err →
        ((openFile vfs s fs cur flags (.ok name)).2.1 = fs ↔
          (specialPath name = false → (openResolve vfs fs flags name).1 = fs)) := by
  unfold openFile OpenGranted
  rw [hproc]
  dsimp only
  cases hspecial : specialPath name with
  | true =>
    rw [if_pos rfl, if_pos rfl]
    exact ⟨special_ends s cur flags hproc hspecial none, fun _ _ => iff_of_true rfl fun h => Bool.noConfusion h⟩
  | false =>
    have htty : name ≠ "/dev/tty" := by
      rintro rfl
      exact absurd hspecial (by decide)
    have hkept : True ↔ (name = "/dev/tty" → ¬ (seenBy s cur.pid).HasRoom p) :=
      iff_of_true trivial fun h => absurd h htty
    have hends := (file_ends s cur flags hproc hspecial (openResolve vfs fs flags name).2).congr Iff.rfl hkept
    rw [if_neg Bool.noConfusion, if_neg Bool.noConfusion]
    rcases hopen : doSysOpenat s cur flags (.ok name) (openResolve vfs fs flags name).2 with ⟨s', err | fd⟩
    · rw [hopen] at hends
      exact ⟨hends, fun _ _ => ⟨fun h _ => h, fun h => h rfl⟩⟩
    · rw [hopen] at hends
      dsimp only
      split
      · refine ⟨hends, fun err herr => ?_⟩
        cases herr
      · refine ⟨hends, fun err herr => ?_⟩
        cases herr

theorem open_free_iff (path : Except Errno String) :
    OpenFree vfs s fs con cur flags path ↔ OpenExact vfs s fs cur flags path := by
  rcases hproc : (fdProcWithStdio s cur.pid).2 with _ | p
  · obtain ⟨hfind, hzero⟩ := fdProcWithStdio_none hproc
    have hsettled : s.Settled cur.pid := by
      unfold FdState.Settled
      rw [hfind]
      exact hzero
    have hpair : fdProcWithStdio s cur.pid = (s, none) := Prod.ext hsettled.seenBy hproc
    have hout : openFile vfs s fs cur flags path = (s, fs, .error .enomem) := by
      unfold openFile doSysOpenat
      rw [hpair]
    unfold OpenFree
    rw [hout]
    refine iff_of_true (fun err _ => ⟨.refl s, rfl, openConsole_error con path _⟩) (.inr ⟨hsettled, ?_⟩)
    intro p name hp
    rw [hfind] at hp
    cases hp
  rcases path with err | name
  · have hpair : fdProcWithStdio s cur.pid = (seenBy s cur.pid, some p) := Prod.ext rfl hproc
    have hout : openFile vfs s fs cur flags (.error err) = (seenBy s cur.pid, fs, .error err) := by
      unfold openFile doSysOpenat
      rw [hpair]
    have hsame : s.Same (seenBy s cur.pid) ↔ s.Settled cur.pid ∧ True :=
      settled_same rfl (fun _ => rfl) (iff_of_true (.refl _) trivial)
    unfold OpenFree OpenExact
    rw [hout]
    constructor
    · intro h
      refine .inr ⟨(hsame.mp (h err rfl).1).1, fun p name _ hname => ?_⟩
      cases hname
    · rintro (⟨p, name, -, hname, -⟩ | ⟨hsettled, -⟩)
      · cases hname
      · intro _ err' _
        exact ⟨hsame.mpr ⟨hsettled, trivial⟩, rfl, rfl⟩
  obtain ⟨hends, hfiles⟩ := openFile_ends vfs s fs cur flags name hproc
  rcases hends with ⟨hgranted, fd, hok⟩ | ⟨hdenied, ⟨err, herr⟩, hprocPid, hused, hkept⟩
  · refine iff_of_true (fun err herr => ?_) (.inl ⟨p, name, hproc, rfl, hgranted⟩)
    have hboth := hok.symm.trans herr
    cases hboth
  have hsame := settled_same hprocPid hused hkept
  unfold OpenExact
  constructor
  · intro h
    obtain ⟨hs, hfs, -⟩ := h err herr
    obtain ⟨hsettled, htty⟩ := hsame.mp hs
    rw [hsettled.seenBy] at htty
    refine .inr ⟨hsettled, fun p' name' hp' hname => ?_⟩
    obtain rfl := Option.some.inj (hproc.symm.trans (fdProcWithStdio_some hp'))
    obtain rfl := Except.ok.inj hname
    exact ⟨htty, (hfiles err herr).mp hfs⟩
  · rintro (⟨p', name', hp', hname, hgranted⟩ | ⟨hsettled, hall⟩) err' herr'
    · obtain rfl := Option.some.inj (hproc.symm.trans hp')
      obtain rfl := Except.ok.inj hname
      exact absurd hgranted hdenied
    · obtain ⟨htty, hmade⟩ := hall p name (hsettled.findProc hproc) rfl
      refine ⟨hsame.mpr ⟨hsettled, ?_⟩, (hfiles err herr).mpr hmade, ?_⟩
      · rw [hsettled.seenBy]
        exact htty
      · rw [herr']
        exact openConsole_error con _ _

end Opens

end EdgeOS
