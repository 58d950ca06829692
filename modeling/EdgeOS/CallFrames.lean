import EdgeOS.DescriptorFrame

namespace EdgeOS

/-!
What each call of a process leaves alone: the contents of pipes and the tables of other
processes.
-/

open Function CallFrame Objects

namespace CallFrame

variable {s s' : FdState} {pid : ℤ} {p : FdProcIdx} {i : FdIdx}

theorem doSysClose (window : ℕ → List ℕ) (fd : ℤ) : CallFrame pid s (EdgeOS.doSysClose window s pid fd).1 := by
  unfold EdgeOS.doSysClose
  split
  · exact refl pid s
  rename_i p hp
  split
  · exact refl pid s
  · exact (closeFd_frame window (findProc_some hp) _).1

/-- Closing descriptors of one table, one after the other. -/
theorem closeAll {f : FdState → FdIdx → FdState}
    (hf : ∀ s i, s.procPid p = pid → CallFrame pid s (f s i) ∧ (f s i).procPid = s.procPid)
    (l : List FdIdx) (hp : s.procPid p = pid) :
    CallFrame pid s (l.foldl f s) ∧ (l.foldl f s).procPid = s.procPid := by
  induction l generalizing s with
  | nil => exact ⟨refl pid s, rfl⟩
  | cons i l ih =>
    obtain ⟨h1, hq1⟩ := hf s i hp
    obtain ⟨h2, hq2⟩ := ih (s := f s i) (by rw [hq1]; exact hp)
    exact ⟨h1.trans h2, hq2.trans hq1⟩

theorem closeUsed (window : ℕ → List ℕ) (l : List FdIdx) (hp : s.procPid p = pid) : CallFrame pid s (l.foldl (fun s i =>
        if (s.fds (p, i)).used then closeFd window s p i else s) s) ∧
      (l.foldl (fun s i => if (s.fds (p, i)).used then closeFd window s p i else s) s).procPid = s.procPid := by
  refine closeAll (fun s i hs => ?_) l hp
  split_ifs
  · exact closeFd_frame window hs i
  · exact ⟨refl pid s, rfl⟩

theorem fdProcRelease (window : ℕ → List ℕ) : CallFrame pid s (EdgeOS.fdProcRelease window s pid) := by
  unfold EdgeOS.fdProcRelease
  generalize List.finRange edgeMaxFd = l
  split
  · exact refl pid s
  rename_i p hp
  have hp := findProc_some hp
  obtain ⟨h1, hq⟩ := closeUsed window l hp
  exact h1.trans (.clearProc (.inl (by rw [hq]; exact hp)) (.inr rfl) (.inl rfl))

theorem execCloseFds (window : ℕ → List ℕ) : CallFrame pid s (EdgeOS.execCloseFds window s pid) := by
  unfold EdgeOS.execCloseFds
  split
  · exact refl pid s
  rename_i p hp
  refine (closeAll (p := p) (fun s i hs => ?_) _ (findProc_some hp)).1
  dsimp only
  split_ifs
  · exact ⟨refl pid s, rfl⟩
  · exact ⟨.setFd hs (.copy (p, i) id rfl rfl), rfl⟩
  · exact closeFd_frame window hs i

theorem doSysExecve (window : ℕ → List ℕ) (loaded : Bool) :
    CallFrame pid s (EdgeOS.doSysExecve window s pid loaded) := by
  unfold EdgeOS.doSysExecve
  dsimp only
  split_ifs
  · exact execCloseFds window
  · exact (execCloseFds window).trans (fdProcRelease window)

theorem doSysFcntlDupfd (fd minfd : ℤ) (cloexec : Bool) :
    CallFrame pid s (EdgeOS.doSysFcntlDupfd s pid fd minfd cloexec).1 := by
  unfold EdgeOS.doSysFcntlDupfd
  split
  · rename_i hf
    exact (fdProcWithStdio_frame hf).1
  rename_i s1 p hf
  obtain ⟨h1, -, hp⟩ := fdProcWithStdio_frame hf
  split
  · exact h1
  split
  · rename_i ha
    exact h1.trans (fdAlloc_frame ha (hp p rfl)).1
  rename_i ha
  obtain ⟨h2, hp2⟩ := fdAlloc_frame ha (hp p rfl)
  exact (h1.trans h2).trans (dupInto_frame hp2 (.self _) cloexec).1

theorem doSysFcntlSetfd (fd : ℤ) (cloexec : Bool) : CallFrame pid s (EdgeOS.doSysFcntlSetfd s pid fd cloexec).1 := by
  unfold EdgeOS.doSysFcntlSetfd
  split
  · rename_i hf
    exact (fdProcWithStdio_frame hf).1
  rename_i s1 p hf
  obtain ⟨h1, -, hp⟩ := fdProcWithStdio_frame hf
  split
  · exact h1
  · rename_i i _
    exact h1.trans (.setFd (hp p rfl) (.copy (p, i) id rfl rfl))

theorem doSysFcntlSetfl (fd : ℤ) (arg : BitVec 32) : CallFrame pid s (EdgeOS.doSysFcntlSetfl s pid fd arg).1 := by
  unfold EdgeOS.doSysFcntlSetfl
  split
  · rename_i hf
    exact (fdProcWithStdio_frame hf).1
  rename_i s1 p hf
  obtain ⟨h1, -, hp⟩ := fdProcWithStdio_frame hf
  split
  · exact h1
  rename_i i _
  have h2 : CallFrame pid s (s1.setFd p i
      { s1.fds (p, i) with flags := setflFlags (s1.fds (p, i)).flags arg }) :=
    h1.trans (.setFd (hp p rfl) (.copy (p, i) id rfl rfl))
  dsimp only
  split
  · split_ifs
    · exact h2.trans (.setObjs (.of_sockets (onlySockets_setSocket _ _ _)))
    · exact h2
  · exact h2

theorem doSysDup2 (window : ℕ → List ℕ) (oldfd newfd : ℤ) :
    CallFrame pid s (EdgeOS.doSysDup2 window s pid oldfd newfd).1 := by
  unfold EdgeOS.doSysDup2
  split
  · rename_i hf
    exact (fdProcWithStdio_frame hf).1
  rename_i s1 p hf
  obtain ⟨h1, -, hp⟩ := fdProcWithStdio_frame hf
  have hp := hp p rfl
  split
  · split_ifs
    · exact h1
    · obtain ⟨h2, hq⟩ := closeFd_frame window hp _
      exact (h1.trans h2).trans (dupInto_frame (by rw [hq]; exact hp) (.self _) false).1
    · exact h1.trans (dupInto_frame hp (.self _) false).1
  · exact h1

theorem doSysDup3 (window : ℕ → List ℕ) (oldfd newfd : ℤ) (flags : BitVec 32) :
    CallFrame pid s (EdgeOS.doSysDup3 window s pid oldfd newfd flags).1 := by
  have h1 : CallFrame pid s (EdgeOS.doSysDup2 window s pid oldfd newfd).1 :=
    doSysDup2 window oldfd newfd
  unfold EdgeOS.doSysDup3
  split
  · exact refl pid s
  split
  · rename_i hd
    rw [hd] at h1
    exact h1
  rename_i hd
  rw [hd] at h1
  split
  · exact h1.trans (doSysFcntlSetfd _ true)
  · exact h1

theorem allocSpecialFd {kind : FdKind} {id : ℤ} {flags : BitVec 32} {r : Option FdIdx}
    (h : EdgeOS.allocSpecialFd s pid kind id flags = (s', r)) (hk : kind ≠ .vfs) :
    CallFrame pid s s' := by
  unfold EdgeOS.allocSpecialFd at h
  split at h
  · rename_i hf
    obtain ⟨rfl, -⟩ := Prod.mk.inj h
    exact (fdProcWithStdio_frame hf).1
  rename_i s1 p hf
  obtain ⟨h1, -, hp⟩ := fdProcWithStdio_frame hf
  split at h
  · rename_i ha
    obtain ⟨rfl, -⟩ := Prod.mk.inj h
    exact h1.trans (fdAlloc_frame ha (hp p rfl)).1
  rename_i s2 i ha
  obtain ⟨h2, hp2⟩ := fdAlloc_frame ha (hp p rfl)
  split at h
  all_goals
    rename_i hi
    obtain ⟨rfl, -⟩ := Prod.mk.inj h
    exact (h1.trans h2).trans (fdInstall_frame hi hk hp2).1

theorem createSpecial (k : SpecialKind) (flags : BitVec 32) :
    CallFrame pid s (EdgeOS.createSpecial k s pid flags).1 := by
  unfold EdgeOS.createSpecial
  split
  · exact refl pid s
  rename_i o id ho
  have h1 : CallFrame pid s { s with objs := o } := by
    apply setObjs
    apply Objects.PipesKept.of_pipes
    unfold specialAllocObj at ho
    split at ho
    all_goals
      obtain ⟨rfl, -⟩ := Prod.mk.inj ho
      rfl
  split
  all_goals
    rename_i ha
    have h2 := h1.trans (allocSpecialFd ha (by cases k <;> simp [SpecialKind.fdKind]))
  · exact h2
  · exact h2.trans (.setObjs (.specialDropRef _ _ _))

theorem doSysSignalfd4 (fd : ℤ) (flags : BitVec 32) : CallFrame pid s (EdgeOS.doSysSignalfd4 s pid fd flags).1 := by
  unfold EdgeOS.doSysSignalfd4
  split
  rename_i s1 r hf
  obtain ⟨h1, -, hp⟩ := fdProcWithStdio_frame hf
  split
  · exact h1
  split
  · exact h1.trans (createSpecial _ _)
  split
  · exact h1
  rename_i p
  split
  · exact h1
  rename_i i _
  dsimp only
  split
  · split
    · exact h1.trans (.setFd (hp p rfl) (.copy (p, i) id rfl rfl))
    · exact h1
  · exact h1

/-! Calls on sockets. -/

theorem socketDropRef (window : ℕ → List ℕ) (n : ℕ) (id : ℤ) :
    CallFrame pid s { s with objs := EdgeOS.socketDropRef window n s.objs id } :=
  .setObjs (.of_sockets (socketDropRef_frame window n _ id))

theorem doSysSocket (domain type protocol : ℤ) (nonblock cloexec pcb : Bool) (window later : List ℕ) : CallFrame pid s
      (EdgeOS.doSysSocket s pid domain type protocol nonblock cloexec pcb window later).1 := by
  unfold EdgeOS.doSysSocket
  split
  · exact refl pid s
  split
  · exact refl pid s
  split
  · rename_i hf
    exact (fdProcWithStdio_frame hf).1
  rename_i s1 p hf
  obtain ⟨h1, -, hp⟩ := fdProcWithStdio_frame hf
  split
  · rename_i ha
    exact h1.trans (fdAlloc_frame ha (hp p rfl)).1
  rename_i s2 i ha
  obtain ⟨h2, hp2⟩ := fdAlloc_frame ha (hp p rfl)
  have h2 := h1.trans h2
  split
  · exact h2.trans (.clearFd hp2)
  rename_i o sid hs
  have ho : s2.objs.OnlySockets (edgeTcpAcceptCbs o later) :=
    (socketAlloc_frame hs).trans (edgeTcpAcceptCbs_frame o later)
  dsimp only
  split
  · refine h2.trans (trans (.clearFd hp2) (.setObjs ?_))
    exact .of_sockets (ho.trans (onlySockets_setSocket _ _ _))
  have h3 : ∀ x, CallFrame pid s { s2 with objs := (edgeTcpAcceptCbs o later).setSocket sid x } :=
    fun x => h2.trans (.setObjs (.of_sockets (ho.trans (onlySockets_setSocket _ _ _))))
  split
  all_goals
    rename_i hi
    have h4 := (h3 _).trans (fdInstall_frame hi (by simp [socketEntry]) hp2).1
  · exact h4
  · exact h4.trans (socketDropRef _ _ _)

theorem doSysSocketpair (nonblock cloexec copied : Bool) (window window' later : List ℕ) : CallFrame pid s
      (EdgeOS.doSysSocketpair s pid nonblock cloexec copied window window' later).1 := by
  unfold EdgeOS.doSysSocketpair
  split
  · rename_i hf
    exact (fdProcWithStdio_frame hf).1
  rename_i s1 p hf
  obtain ⟨h1, -, hp⟩ := fdProcWithStdio_frame hf
  split
  · rename_i ha
    exact h1.trans (fdAlloc_frame ha (hp p rfl)).1
  rename_i s2 i ha
  obtain ⟨h2, hp2⟩ := fdAlloc_frame ha (hp p rfl)
  have h2 := h1.trans h2
  split
  · rename_i hb
    obtain ⟨h3, hp3⟩ := fdAlloc_frame hb hp2
    exact (h2.trans h3).trans (.clearFd hp3)
  rename_i s3 j hb
  obtain ⟨h3, hp3⟩ := fdAlloc_frame hb hp2
  have h3 := h2.trans h3
  have hclear : CallFrame pid s ((s3.setFd p i {}).setFd p j {}) :=
    (h3.trans (.clearFd hp3)).trans (.clearFd (s := s3.setFd p i {}) hp3)
  split
  · exact hclear
  rename_i o sid0 hs
  have ho := socketAlloc_frame hs
  split
  · exact hclear.trans (.setObjs (.of_sockets
      (ho.trans (onlySockets_setSocket _ _ _))))
  rename_i o' sid1 hs'
  have ho' := (ho.trans (socketAlloc_frame hs')).trans (edgeTcpAcceptCbs_frame o' later)
  dsimp only
  generalize hpair : (((edgeTcpAcceptCbs o' later).setSocket sid0 _).setSocket sid1 _) = o2
  have ho2 : s3.objs.OnlySockets o2 := by
    rw [← hpair]
    exact (ho'.trans (onlySockets_setSocket _ _ _)).trans
      (onlySockets_setSocket _ _ _)
  have h4 : CallFrame pid s { s3 with objs := o2 } := h3.trans (.setObjs (.of_sockets ho2))
  have hdrop : ∀ o : Objects, o.PipesKept (EdgeOS.socketDropRef (fun _ => []) socketDepth
      (EdgeOS.socketDropRef (fun _ => []) socketDepth o sid0) sid1) := fun o =>
    .of_sockets ((socketDropRef_frame _ _ o _).trans (socketDropRef_frame _ _ _ _))
  split
  · rename_i hi
    obtain ⟨h5, hp5⟩ := fdInstall_frame hi (by simp [socketEntry]) hp3
    have h5 := h4.trans h5
    exact h5.trans (trans (.clearFd hp5) (.setObjs (hdrop _)))
  rename_i s5 hi
  obtain ⟨h5, hp5⟩ := fdInstall_frame hi (by simp [socketEntry]) hp3
  have h5 := h4.trans h5
  split
  · rename_i s6 hj
    obtain ⟨h6, hp6⟩ := fdInstall_frame hj (by simp [socketEntry]) hp5
    have h6 := h5.trans h6
    have hput : CallFrame pid s6
        ((EdgeOS.fileRefPut s6 (s6.fds (p, i)).fileRef).setFd p i {}) :=
      (fileRefPut _).trans (.clearFd (by rw [fileRefPut_procPid]; exact hp6))
    exact h6.trans ⟨hdrop _, hput.others.trans (.of_fds rfl rfl), hput.files⟩
  rename_i s6 hj
  obtain ⟨h6, hp6⟩ := fdInstall_frame hj (by simp [socketEntry]) hp5
  have h6 := h5.trans h6
  split
  · exact h6
  have hput : CallFrame pid s6 (EdgeOS.fileRefPut (EdgeOS.fileRefPut s6
      (s6.fds (p, i)).fileRef) (s6.fds (p, j)).fileRef) :=
    (fileRefPut _).trans (.fileRefPut _)
  generalize hs7 : EdgeOS.fileRefPut (EdgeOS.fileRefPut s6 (s6.fds (p, i)).fileRef)
    (s6.fds (p, j)).fileRef = s7 at hput ⊢
  have hp7 : s7.procPid p = pid := by
    rw [← hs7, fileRefPut_procPid, fileRefPut_procPid]
    exact hp6
  have hclear7 : CallFrame pid s7 ((s7.setFd p i {}).setFd p j {}) :=
    trans (.clearFd hp7) (.clearFd (s := s7.setFd p i {}) hp7)
  exact (h6.trans hput).trans ⟨hdrop _, hclear7.others.trans (.of_fds rfl rfl), hclear7.files⟩

theorem socketFromFd {fd : ℤ} {r : Option (FdProcIdx × FdIdx × ℕ)} (h : EdgeOS.socketFromFd s pid fd = (s', r)) :
    CallFrame pid s s' ∧ ∀ p i sid, r = some (p, i, sid) → s'.procPid p = pid := by
  unfold EdgeOS.socketFromFd at h
  split at h
  · rename_i hf
    obtain ⟨rfl, rfl⟩ := Prod.mk.inj h
    exact ⟨(fdProcWithStdio_frame hf).1, by simp⟩
  rename_i s1 q hf
  obtain ⟨h1, -, hp⟩ := fdProcWithStdio_frame hf
  split at h
  · obtain ⟨rfl, rfl⟩ := Prod.mk.inj h
    exact ⟨h1, by simp⟩
  split at h
  · split at h
    · obtain ⟨rfl, rfl⟩ := Prod.mk.inj h
      refine ⟨h1, fun p i sid hr => ?_⟩
      obtain ⟨rfl, -⟩ := Prod.mk.inj (Option.some.inj hr)
      exact hp q rfl
    · obtain ⟨rfl, rfl⟩ := Prod.mk.inj h
      exact ⟨h1, by simp⟩
  · obtain ⟨rfl, rfl⟩ := Prod.mk.inj h
    exact ⟨h1, by simp⟩

theorem doSysListen (fd backlog : ℤ) (granted : Bool) :
    CallFrame pid s (EdgeOS.doSysListen s pid fd backlog granted).1 := by
  unfold EdgeOS.doSysListen
  split
  · rename_i hf
    exact (socketFromFd hf).1
  rename_i hf
  have h1 := (socketFromFd hf).1
  dsimp only
  split_ifs
  all_goals first
    | exact h1
    | exact h1.trans (.setObjs (.of_sockets (onlySockets_setSocket _ _ _)))

theorem doSysAccept (fd : ℤ) (copied : Bool) (later : List ℕ) :
    CallFrame pid s (EdgeOS.doSysAccept s pid fd copied later).1 := by
  unfold EdgeOS.doSysAccept
  split
  · rename_i hf
    exact (socketFromFd hf).1
  rename_i s1 p i l hf
  obtain ⟨h1, hp⟩ := socketFromFd hf
  have hp := hp p i l rfl
  split
  · exact h1
  split
  · exact h1
  rename_i o sid hd
  have ho := socketPendingDequeue_frame hd
  split
  · exact h1.trans (.setObjs (.of_sockets ho))
  have h2 : CallFrame pid s { s1 with objs := edgeTcpAcceptCbs o later } :=
    h1.trans (.setObjs (.of_sockets (ho.trans (edgeTcpAcceptCbs_frame o later))))
  dsimp only
  split
  · rename_i ha
    exact (h2.trans (fdAlloc_frame ha hp).1).trans (socketDropRef _ _ _)
  rename_i s2 j ha
  obtain ⟨h3, hp3⟩ := fdAlloc_frame ha hp
  have h3 := h2.trans h3
  split
  all_goals
    rename_i hi
    obtain ⟨h4, hp4⟩ := fdInstall_frame hi (by simp [socketEntry]) hp3
    have h4 := h3.trans h4
  · exact h4.trans (socketDropRef _ _ _)
  · split
    · exact h4
    · exact h4.trans (closeFd_frame _ hp4 _).1

theorem doSysAccept4 (fd : ℤ) (flags : BitVec 32) (copied : Bool) (later : List ℕ) :
    CallFrame pid s (EdgeOS.doSysAccept4 s pid fd flags copied later).1 := by
  have h1 : CallFrame pid s (EdgeOS.doSysAccept s pid fd copied later).1 :=
    doSysAccept fd copied later
  unfold EdgeOS.doSysAccept4
  split
  · exact refl pid s
  split
  · rename_i hd
    rw [hd] at h1
    exact h1
  rename_i s1 r hd
  rw [hd] at h1
  split
  · rename_i hf
    exact h1.trans (fdProcWithStdio_frame hf).1
  rename_i s2 p hf
  obtain ⟨h2, -, hp⟩ := fdProcWithStdio_frame hf
  have h2 := h1.trans h2
  split
  · exact h2
  rename_i i _
  have hset : ∀ e : FdEntry, (e.used = true → (s2.fds (p, i)).used = true) →
      (s2.fds (p, i)).kind = e.kind → (s2.fds (p, i)).file = e.file →
      CallFrame pid s (s2.setFd p i e) := fun e hu hk hf =>
    h2.trans (.setFd (hp p rfl) (.copy (p, i) hu hk hf))
  dsimp only
  split
  · split
    · rename_i sid hcase hused
      have hflags := hset { s2.fds (p, i) with
        cloexec := (s2.fds (p, i)).cloexec || hasFlag flags linuxSockCloexec
        flags := (s2.fds (p, i)).flags ||| linuxONonblock } id rfl rfl
      exact hflags.trans (.setObjs (.of_sockets (onlySockets_setSocket _ _ _)))
    · exact hset _ id rfl rfl
  · exact hset _ id rfl rfl

/-! Opening paths. -/

theorem openTty (hp : s.procPid p = pid) (cur : Caller) (flags : BitVec 32) :
    CallFrame pid s (EdgeOS.openTty s p cur flags).1 := by
  unfold EdgeOS.openTty
  split
  · rename_i ha
    exact (fdAlloc_frame ha hp).1
  rename_i s1 i ha
  obtain ⟨h1, hp1⟩ := fdAlloc_frame ha hp
  split
  all_goals
    rename_i s2 hi
    obtain ⟨h2, hp2⟩ := fdInstall_frame hi (by simp [ttyEntry]) hp1
    have h2 := h1.trans h2
  · exact h2
  have hset : ∀ e : FdEntry, e.kind ≠ .vfs → CallFrame pid s (s2.setFd p i e) := fun e hk =>
    h2.trans (.setFd hp2 (.plain hk))
  unfold attachTty
  dsimp only
  split
  · exact hset _ (by simp)
  split
  · split
    · exact hset _ (by simp)
    split
    · exact hset _ (by simp)
    · exact (hset _ (by simp)).trans (.setObjs (.fdAddRef s2.objs .ptySlave _))
  · exact hset _ (by simp)

theorem openPtmx (hp : s.procPid p = pid) (flags : BitVec 32) : CallFrame pid s (EdgeOS.openPtmx s p flags).1 := by
  unfold EdgeOS.openPtmx
  split
  · rename_i ha
    exact (fdAlloc_frame ha hp).1
  rename_i s1 i ha
  obtain ⟨h1, hp1⟩ := fdAlloc_frame ha hp
  split
  · exact h1.trans (.clearFd hp1)
  rename_i o id ho
  have h2 : CallFrame pid s { s1 with objs := o } := by
    apply h1.trans
    apply setObjs
    apply Objects.PipesKept.of_pipes
    unfold ptyAlloc at ho
    split at ho
    all_goals
      obtain ⟨rfl, -⟩ := Prod.mk.inj ho
      rfl
  dsimp only
  split
  all_goals
    rename_i hi
    have h3 := h2.trans (fdInstall_frame hi (by simp) hp1).1
  · exact h3
  · exact h3.trans (.setObjs (.ptyDropRef _ _ _))

theorem openPts (hp : s.procPid p = pid) (cur : Caller) (flags : BitVec 32) (path : String) :
    CallFrame pid s (EdgeOS.openPts s p cur flags path).1 := by
  unfold EdgeOS.openPts
  split
  · exact refl pid s
  split
  · exact refl pid s
  split
  · rename_i ha
    exact (fdAlloc_frame ha hp).1
  rename_i s1 i ha
  obtain ⟨h1, hp1⟩ := fdAlloc_frame ha hp
  dsimp only
  split
  all_goals
    rename_i s2 hi
    have h2 := h1.trans (fdInstall_frame hi (by simp) hp1).1
  · exact h2
  · apply h2.trans
    apply setObjs
    apply (Objects.PipesKept.fdAddRef s2.objs .ptySlave _).trans
    exact .of_pipes rfl

end CallFrame

/-- The descriptor that `do_sys_openat` makes for a file. -/
def openedEntry (cur : Caller) (flags : BitVec 32) (path : String) (inode : VfsInode)
    (sb : Option ℕ) : FdEntry :=
  let cached := if hasFlag flags linuxOTrunc ∧ hasFlag flags (linuxOWronly ||| linuxORdwr) then
    { inode with size := 0 } else inode
  { kind := .vfs, flags := flags, cloexec := hasFlag flags linuxOCloexec, inode := cached, sb := sb
    pipeId := -1, path := path, pos := if hasFlag flags linuxOAppend then cached.size else 0
    origin := some ⟨flags, inode, sb, cur.euid, cur.egid⟩ }

/-- A call that opens a file leaves the same things alone and makes one descriptor, with a
file reference that was free. -/
structure OpenFrame (pid : ℤ) (e : FdEntry) (s s' : FdState) : Prop where
  pipes : s.objs.PipesKept s'.objs
  others : s.Others pid s'
  files : ∃ y ref, 1 ≤ ref ∧ (s.fileRefs ref).used = false ∧
    s'.fds y = { e with used := true, fileRef := ref } ∧ ∀ x, x ≠ y → s.Has (s'.fds x)

section Opening

variable {s s' s'' : FdState} {pid : ℤ} {p : FdProcIdx} {i : FdIdx} {e : FdEntry}

theorem CallFrame.opens (h : CallFrame pid s s') (h' : OpenFrame pid e s' s'')
    (hrefs : ∀ j, (s.fileRefs j).used = true → (s'.fileRefs j).used = true) :
    OpenFrame pid e s s'' := by
  obtain ⟨y, ref, h1, hfree, hy, hothers⟩ := h'.files
  refine ⟨h.pipes.trans h'.pipes, h.others.trans h'.others, y, ref, h1, ?_, hy,
    fun x hx => .trans h.files (hothers x hx)⟩
  by_contra hu
  have hused := hrefs ref (by simpa using hu)
  rw [hfree] at hused
  simp at hused

theorem openVfs_frame (hp : s.procPid p = pid) (cur : Caller) (flags : BitVec 32) (path : String)
    (inode : VfsInode) (sb : Option ℕ) :
    CallFrame pid s (openVfs s p cur flags path inode sb).1 ∨ OpenFrame pid (openedEntry cur flags path inode sb) s
        (openVfs s p cur flags path inode sb).1 := by
  unfold openVfs
  split
  · exact .inl (.refl pid s)
  split
  · rename_i ha
    exact .inl (fdAlloc_frame ha hp).1
  rename_i s1 i ha
  obtain ⟨h1, hp1⟩ := fdAlloc_frame ha hp
  have hrefs : s1.fileRefs = s.fileRefs := by
    obtain ⟨rfl, -⟩ := fdAlloc_some ha
    rfl
  dsimp only [fdInstall]
  rcases fileRefAlloc_cases s1 with hnone | ⟨ref, href, -, hfree, heq⟩
  · rw [hnone]
    exact .inl (h1.trans (.clearFd hp1))
  rw [heq]
  obtain ⟨n, rfl⟩ : ∃ n, ref = n + 1 := ⟨ref - 1, by omega⟩
  right
  have hothers : s1.Others pid (s1.setFileRef (n + 1) { used := true, refs := 1 }) :=
    .of_fds rfl rfl
  have hp2 : (s1.setFileRef (n + 1) { used := true, refs := 1 }).procPid p = pid := hp1
  refine ⟨h1.pipes, (h1.others.trans hothers).trans (.setFd hp2 _), (p, i), n + 1, href, hrefs ▸ hfree, ?_, ?_⟩
  · exact update_self _ _ _
  · intro x hx
    have hother : ∀ e, s.Has (((s1.setFileRef (n + 1) { used := true, refs := 1 }).setFd p i
        e).fds x) := by
      intro e
      have hx : ((s1.setFileRef (n + 1) { used := true, refs := 1 }).setFd p i e).fds x =
        s1.fds x := update_of_ne hx _ _
      rw [hx]
      exact h1.files x
    exact hother _

/-- `do_sys_openat` is a call as any other, or opens a file. -/
theorem doSysOpenat_frame (s : FdState) (cur : Caller) (flags : BitVec 32)
    (path : Except Errno String) (resolved : Option (VfsInode × Option ℕ)) :
    CallFrame cur.pid s (doSysOpenat s cur flags path resolved).1 ∨
      ∃ name inode sb, path = .ok name ∧ resolved = some (inode, sb) ∧
        OpenFrame cur.pid (openedEntry cur flags name inode sb) s (doSysOpenat s cur flags path resolved).1 := by
  unfold doSysOpenat
  split
  · rename_i hf
    exact .inl (fdProcWithStdio_frame hf).1
  rename_i s1 p hf
  obtain ⟨h1, -, hp⟩ := fdProcWithStdio_frame hf
  have hp := hp p rfl
  split
  · exact .inl h1
  rename_i name
  split
  · exact .inl (h1.trans (.openTty hp cur flags))
  split
  · exact .inl (h1.trans (.openPtmx hp flags))
  split
  · exact .inl (h1.trans (.openPts hp cur flags _))
  split
  · exact .inl h1
  rename_i inode sb
  rcases openVfs_frame hp cur flags name inode sb with h2 | h2
  · exact .inl (h1.trans h2)
  · exact .inr ⟨name, inode, sb, rfl, rfl, h1.opens h2 fun j => fdProcWithStdio_refs hf⟩

end Opening

namespace CallFrame

variable {s s' : FdState} {pid : ℤ} {p : FdProcIdx} {i : FdIdx}

theorem ioctlPtyLock (fd : ℤ) (lock : Bool) : CallFrame pid s (EdgeOS.ioctlPtyLock s pid fd lock).1 := by
  unfold EdgeOS.ioctlPtyLock
  split
  · rename_i hf
    exact (fdProcWithStdio_frame hf).1
  rename_i s1 p hf
  have h1 := (fdProcWithStdio_frame hf).1
  split
  · exact h1
  split
  · split
    · exact h1.trans (.setObjs (.of_pipes rfl))
    · exact h1
  · exact h1
  · exact h1

/-! Fork touches the table of the child. -/

theorem cloneFd (parent : FdProcIdx) (cbs : FdIdx → List ℕ) (hp : s.procPid p = pid) (i : FdIdx) :
    CallFrame pid s (EdgeOS.cloneFd parent p cbs s i) ∧ (EdgeOS.cloneFd parent p cbs s i).procPid = s.procPid := by
  have h1 : CallFrame pid s { s with objs := edgeTcpAcceptCbs s.objs (cbs i) } :=
    .setObjs (.of_sockets (edgeTcpAcceptCbs_frame _ _))
  unfold EdgeOS.cloneFd
  generalize hs1 : { s with objs := edgeTcpAcceptCbs s.objs (cbs i) } = s1 at h1 ⊢
  have hq1 : s1.procPid = s.procPid := by rw [← hs1]
  have hp1 : s1.procPid p = pid := by rw [hq1]; exact hp
  dsimp only
  have he : s1.Has (s1.fds (parent, i)) := .self _
  generalize s1.fds (parent, i) = e at he ⊢
  split
  · exact ⟨h1, hq1⟩
  split
  · split
    · exact ⟨h1.trans (.clearFd hp1), hq1⟩
    · rename_i s2 hg
      obtain ⟨hf, ho, hq⟩ := fileRefGet_frame hg
      have h2 : CallFrame pid s1 s2 := .of_fds (.of_eq ho) hq hf
      have h3 : CallFrame pid s2 { s2 with objs := fdAddRef s2.objs e.kind e.pipeId } :=
        .setObjs (.fdAddRef _ _ _)
      have he2 : s2.Has e := by
        unfold FdState.Has
        rw [hf]
        exact he
      refine ⟨((h1.trans h2).trans h3).trans (.setFd ?_ he2), hq.trans hq1⟩
      rw [← hp1, ← hq]
  · have h3 : CallFrame pid s1 { s1 with objs := fdAddRef s1.objs e.kind e.pipeId } :=
      .setObjs (.fdAddRef _ _ _)
    refine ⟨(h1.trans h3).trans (.setFd ?_ he), hq1⟩
    exact hp1

theorem fdCloneAfterFork (parentPid : ℤ) (cbs : FdIdx → List ℕ) :
    CallFrame pid s (EdgeOS.fdCloneAfterFork s parentPid pid cbs) := by
  unfold EdgeOS.fdCloneAfterFork
  generalize List.finRange edgeMaxFd = l
  split
  · exact refl pid s
  split
  · exact refl pid s
  split
  · rename_i hf
    exact (fdProcForPid_frame hf).1
  rename_i s1 child hf
  obtain ⟨h1, -, hp⟩ := fdProcForPid_frame hf
  have hclear : CallFrame pid s1 (s1.clearProc child pid) :=
    .clearProc (.inl (hp child rfl)) (.inl rfl) (.inr (.inl (hp child rfl)))
  have hself : (s1.clearProc child pid).procPid child = pid := update_self _ _ _
  exact (h1.trans hclear).trans (closeAll (fun s i hs => cloneFd _ cbs hs i) l hself).1

end CallFrame

/-! Only `do_sys_pipe` makes pipes. -/

theorem Objects.PipesMade.kept {o o' o'' : Objects} (h : o.PipesMade o') (h' : o'.PipesKept o'') : o.PipesMade o'' := by
  intro i hu
  obtain ⟨hu', hr'⟩ := h' i hu
  rcases h i hu' with ⟨hu, hr⟩ | ⟨hu, hr⟩
  · exact .inl ⟨hu, hr'.trans hr⟩
  · exact .inr ⟨hu, hr'.trans hr⟩

theorem pipeAlloc_made {o o' : Objects} {r : Option ℕ} (h : pipeAlloc o = (o', r)) : o.PipesMade o' := by
  unfold pipeAlloc at h
  split at h
  · rename_i i hi
    obtain ⟨rfl, -⟩ := Prod.mk.inj h
    intro j hu
    by_cases hj : j = i
    · subst hj
      refine .inr ⟨(firstFree_some hi).1, ?_⟩
      have hself : (o.setPipe j { used := true }).pipes j = { used := true } :=
        update_self _ _ _
      rw [hself]
    · have hother : (o.setPipe i { used := true }).pipes j = o.pipes j :=
        update_of_ne hj _ _
      rw [hother] at hu ⊢
      exact .inl ⟨hu, rfl⟩
  · obtain ⟨rfl, -⟩ := Prod.mk.inj h
    exact (Objects.PipesKept.refl o).made

theorem doSysPipe_frame (s : FdState) (pid : ℤ) (flags : BitVec 32) (copied : Bool) :
    s.objs.PipesMade (doSysPipe s pid flags copied).1.objs ∧ s.Others pid (doSysPipe s pid flags copied).1 ∧
      ∀ y, s.Has ((doSysPipe s pid flags copied).1.fds y) := by
  unfold doSysPipe
  split
  · exact ⟨(refl pid s).pipes.made, .of_fds rfl rfl, fun y => .self y⟩
  split
  · rename_i hf
    have h1 := (fdProcWithStdio_frame hf).1
    exact ⟨h1.pipes.made, h1.others, h1.files⟩
  rename_i s1 p hf
  obtain ⟨h1, ho1, hp⟩ := fdProcWithStdio_frame hf
  have hp := hp p rfl
  split
  · exact ⟨h1.pipes.made, h1.others, h1.files⟩
  rename_i o id ha
  have hmade : s.objs.PipesMade o := by
    rw [ho1] at ha
    exact pipeAlloc_made ha
  have hsame : s1.Others pid { s1 with objs := o } := .of_fds rfl rfl
  -- From here on the new pipe is only filled in or cleared.
  have hstep : ∀ s' : FdState, CallFrame pid { s1 with objs := o } s' →
      s.objs.PipesMade s'.objs ∧ s.Others pid s' ∧ ∀ y, s.Has (s'.fds y) := fun s' h =>
    ⟨hmade.kept h.pipes, h1.others.trans (hsame.trans h.others), fun y => .trans h1.files (h.files y)⟩
  have hfail : ∀ s' : FdState, CallFrame pid { s1 with objs := o } s' → s.objs.PipesMade (s'.objs.setPipe id {}) ∧
        s.Others pid { s' with objs := s'.objs.setPipe id {} } ∧
        ∀ y, s.Has (s'.fds y) := fun s' h =>
    hstep { s' with objs := s'.objs.setPipe id {} }
      (h.trans (.setObjs (.setPipe fun hu => by simp at hu)))
  dsimp only
  split
  · rename_i hb
    exact hfail _ (fdAlloc_frame hb hp).1
  rename_i s2 r hb
  obtain ⟨h2, hp2⟩ := fdAlloc_frame hb hp
  split
  · rename_i hc
    obtain ⟨h3, hp3⟩ := fdAlloc_frame hc hp2
    exact hfail _ ((h2.trans h3).trans (.clearFd hp3))
  rename_i s3 w hc
  obtain ⟨h3, hp3⟩ := fdAlloc_frame hc hp2
  have h3 := h2.trans h3
  split
  · rename_i hi
    obtain ⟨h4, hp4⟩ := fdInstall_frame hi (by simp) hp3
    exact hfail _ ((h3.trans h4).trans (.clearFd hp4))
  rename_i s4 hi
  obtain ⟨h4, hp4⟩ := fdInstall_frame hi (by simp) hp3
  have h4 := h3.trans h4
  split
  · rename_i hj
    obtain ⟨h5, hp5⟩ := fdInstall_frame hj (by simp) hp4
    refine hfail _ (((h4.trans h5).trans (.fileRefPut _)).trans (.clearFd ?_))
    rw [fileRefPut_procPid]
    exact hp5
  rename_i s5 hj
  obtain ⟨h5, hp5⟩ := fdInstall_frame hj (by simp) hp4
  have h5 := h4.trans h5
  let x : Pipe := { s5.objs.pipes id with
    readers := (s5.objs.pipes id).readers + 1, writers := (s5.objs.pipes id).writers + 1 }
  have h6 : CallFrame pid { s1 with objs := o } { s5 with objs := s5.objs.setPipe id x } :=
    h5.trans (.setObjs (.setPipe fun hu => ⟨hu, rfl⟩))
  split
  · exact hstep _ h6
  obtain ⟨h7, hq7⟩ := closeFd_frame (s := { s5 with objs := s5.objs.setPipe id x })
    (fun _ => []) hp5 r
  refine hstep _ ((h6.trans h7).trans (closeFd_frame _ ?_ _).1)
  rw [hq7]
  exact hp5

def FdCall.Opens (c : FdCall) (cur : Caller) (s s' : FdState) : Prop :=
  ∃ flags name inode sb, c = .openat flags (.ok name) (some (inode, sb)) ∧
    OpenFrame cur.pid (openedEntry cur flags name inode sb) s s'

theorem FdCall.frame (s : FdState) (cur : Caller) (c : FdCall) :
    s.objs.PipesMade (c.apply s cur).objs ∧ s.Others cur.pid (c.apply s cur) ∧
      ((∀ y, s.Has ((c.apply s cur).fds y)) ∨ c.Opens cur s (c.apply s cur)) := by
  have of : ∀ s', CallFrame cur.pid s s' → s.objs.PipesMade s'.objs ∧ s.Others cur.pid s' ∧
      ((∀ y, s.Has (s'.fds y)) ∨ c.Opens cur s s') :=
    fun s' h => ⟨h.pipes.made, h.others, .inl h.files⟩
  cases c with
  | pipe flags copied =>
    obtain ⟨h1, h2, h3⟩ := doSysPipe_frame s cur.pid flags copied
    exact ⟨h1, h2, .inl h3⟩
  | openat flags path resolved =>
    rcases doSysOpenat_frame s cur flags path resolved with h | ⟨name, inode, sb, rfl, rfl, h⟩
    · exact of _ h
    · exact ⟨h.pipes.made, h.others, .inr ⟨flags, name, inode, sb, rfl, h⟩⟩
  | socket => exact of _ (.doSysSocket _ _ _ _ _ _ _ _)
  | socketpair => exact of _ (.doSysSocketpair _ _ _ _ _ _)
  | listen => exact of _ (.doSysListen _ _ _)
  | accept => exact of _ (.doSysAccept _ _ _)
  | accept4 => exact of _ (.doSysAccept4 _ _ _ _)
  | eventfd2 =>
    apply of
    simp only [FdCall.apply, doSysEventfd2]
    split
    · exact .refl _ _
    · exact .createSpecial _ _
  | timerfdCreate =>
    apply of
    simp only [FdCall.apply, doSysTimerfdCreate]
    split
    · exact .refl _ _
    · exact .createSpecial _ _
  | epollCreate1 =>
    apply of
    simp only [FdCall.apply, doSysEpollCreate1]
    split
    · exact .refl _ _
    · exact .createSpecial _ _
  | signalfd4 => exact of _ (.doSysSignalfd4 _ _)
  | dupfd => exact of _ (.doSysFcntlDupfd _ _ _)
  | setfd => exact of _ (.doSysFcntlSetfd _ _)
  | setfl => exact of _ (.doSysFcntlSetfl _ _)
  | dup2 => exact of _ (.doSysDup2 _ _ _)
  | dup3 => exact of _ (.doSysDup3 _ _ _ _)
  | close => exact of _ (.doSysClose _ _)
  | ptyLock => exact of _ (.ioctlPtyLock _ _)
  | execve => exact of _ (.doSysExecve _ _)
  | release => exact of _ (.fdProcRelease _)

/-- Every pipe in use after an event keeps its ring, or is new and empty. -/
theorem FdKernel.step_pipes (k : FdKernel) (e : FdEvent) : k.fds.objs.PipesMade (k.step e).fds.objs := by
  cases e with
  | call cur c =>
    unfold FdKernel.step
    dsimp only
    split
    · exact (FdCall.frame k.fds cur c).1
    · exact (Objects.PipesKept.refl _).made
  | fork pid cbs =>
    unfold FdKernel.step
    dsimp only
    split
    · exact (CallFrame.fdCloneAfterFork pid cbs).pipes.made
    · exact (Objects.PipesKept.refl _).made
  | spawn => exact (Objects.PipesKept.refl _).made
  | acceptCb l => exact (Objects.PipesKept.of_sockets (edgeTcpAcceptCb_frame _ l)).made

end EdgeOS
