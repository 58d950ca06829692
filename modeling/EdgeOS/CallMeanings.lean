import EdgeOS.DescriptorMap

namespace EdgeOS

/-!
Each call on descriptors does what its meaning on the map says, for a process whose standard
descriptors are bound.
-/

open Function FdTable

/-- The process has table `p`, and its first three numbers are bound. -/
structure FdState.Ready (s : FdState) (pid : ℤ) (p : FdProcIdx) : Prop where
  proc : findProc s pid = some p
  low : ∀ i : FdIdx, i.val ≤ 2 → s.table p i ≠ none

/-- A call leaves a state that shows a map, and that map is the meaning `P` of what it
reports. -/
def FdState.Answers (s : FdState) (p : FdProcIdx) (out : FdState × FdResult) (f : ℕ → List ℕ)
    (P : FdTable → List ℕ → Prop) : Prop :=
  ∃ t, s.Shows p t out.1 ∧ Numbers.Assigns (out.2.map f) (s.table p) t (P t)

section Calls

variable {s s' : FdState} {pid : ℤ} {p : FdProcIdx} {i : FdIdx} {t : FdTable}
variable {f : ℕ → List ℕ} {P : FdTable → List ℕ → Prop}

theorem FdState.Answers.fail {err : Errno} (h : s.Shows p (s.table p) s') :
    s.Answers p (s', .error err) f P := ⟨_, h, rfl⟩

theorem FdState.Answers.done {r : ℕ} (h : s.Shows p t s') (hP : P t (f r)) : s.Answers p (s', .ok r) f P := ⟨t, h, hP⟩

theorem FdState.Ready.shows (h : s.Ready pid p) (h' : s.Shows p t s')
    (hlow : ∀ i : FdIdx, i.val ≤ 2 → t i ≠ none) : s'.Ready pid p := by
  refine ⟨?_, ?_⟩
  · have hproc := h.proc
    unfold findProc at hproc ⊢
    rw [h'.procs]
    exact hproc
  · rw [h'.table]
    exact hlow

theorem FdState.Ready.congr (h : s.Ready pid p) (hp : s'.procPid = s.procPid) (hf : s'.fds = s.fds) : s'.Ready pid p :=
  h.shows (((Tracks.refl s p).toShows).congr hp hf) h.low

/-- With the standard descriptors bound there is nothing to set up. -/
theorem FdState.Ready.stdio (h : s.Ready pid p) : fdProcWithStdio s pid = (s, some p) := by
  have hused : ∀ i : FdIdx, i.val ≤ 2 → (s.fds (p, i)).used = true := by
    intro i hi
    have := h.low i hi
    rw [Ne, table_eq_none] at this
    simpa using this
  have hround : ∀ i : FdIdx, i.val ≤ 2 → ensureStdioFd p (s, true) i = (s, true) := by
    intro i hi
    unfold ensureStdioFd
    simp [hused i hi]
  unfold fdProcWithStdio fdProcForPid
  rw [h.proc]
  change (fdEnsureStdio s p, some p) = (s, some p)
  unfold fdEnsureStdio
  rw [List.foldl_cons, hround 0 (by decide), List.foldl_cons, hround 1 (by decide),
    List.foldl_cons, hround 2 (by decide)]
  rfl

theorem fdGet_bound {fd : ℤ} (h : fdGet s p fd = some i) :
    (i.val : ℤ) = fd ∧ s.table p i = some (s.fds (p, i)).obj := by
  have hu := fdGet_some h
  unfold fdGet at h
  split at h
  · rename_i j hj
    split_ifs at h
    obtain rfl := Option.some.inj h
    refine ⟨by simpa using List.find?_some hj, ?_⟩
    unfold FdState.table FdEntry.shown
    rw [if_pos hu]
  · simp at h

theorem fdGet_unbound {fd : ℤ} (h : fdGet s p fd = none) : (s.table p).Unbound fd := by
  intro i hi
  rw [FdState.table_eq_none]
  unfold fdGet at h
  split at h
  · rename_i j hj
    have hij : (j.val : ℤ) = fd := by simpa using List.find?_some hj
    obtain rfl : j = i := Fin.ext (by omega)
    by_contra hu
    rw [if_pos (by simpa using hu)] at h
    simp at h
  · rename_i hnone
    have := List.find?_eq_none.mp hnone i (List.mem_finRange i)
    exact absurd hi (by simpa using this)

/-! ## Calls that open one object -/

section OpensOne

variable {s1 s2 s3 : FdState} {e : FdEntry} {Q : OpenObj → Prop}

/-- The end of a call that opens one object: the number that `fd_alloc` has marked is bound. -/
theorem FdState.Answers.opened (h : s.Tracks p ((s.table p).bind i markedObj) s1)
    (hi : (s.table p).Lowest 0 i) (hins : fdInstall s1 p i e = (s2, true))
    (hQ : ∀ o, s.Fresh o → o = { e.obj with fileRef := o.fileRef } → Q o)
    (hp : s3.procPid = s2.procPid) (hf : s3.fds = s2.fds) :
    s.Answers p (s3, .ok i.val) (fun r => [r]) fun t' => (s.table p).OpensOne t' Q := by
  have h2 := h.install hins
  rw [if_pos rfl] at h2
  obtain ⟨o, hnew, heq, h2⟩ := h2
  rw [bind_bind] at h2
  exact .done (h2.toShows.congr hp hf) ⟨i, o, hi, rfl, rfl, hQ o hnew heq⟩

theorem FdState.Answers.refused {err : Errno} (h : s.Tracks p ((s.table p).bind i markedObj) s1)
    (hi : (s.table p).Lowest 0 i) (hins : fdInstall s1 p i e = (s2, false))
    (hp : s3.procPid = s2.procPid) (hf : s3.fds = s2.fds) :
    s.Answers p (s3, .error err) f P := by
  have h2 := h.install hins
  rw [if_neg (by simp), hi.undo] at h2
  exact .fail (h2.toShows.congr hp hf)

theorem FdState.Answers.abandoned {err : Errno} (h : s.Tracks p ((s.table p).bind i markedObj) s1)
    (hi : (s.table p).Lowest 0 i) (hp : s3.procPid = s1.procPid)
    (hf : s3.fds = (s1.setFd p i {}).fds) : s.Answers p (s3, .error err) f P := by
  have h2 := h.clear i
  rw [hi.undo] at h2
  exact .fail (h2.toShows.congr hp hf)

theorem FdState.Answers.unchanged {err : Errno} (hp : s'.procPid = s.procPid) (hf : s'.fds = s.fds) :
    s.Answers p (s', .error err) f P :=
  .fail ((Tracks.refl s p).toShows.congr hp hf)

end OpensOne

/-- `alloc_special_fd` binds the smallest free number, or none. -/
theorem allocSpecialFd_shows {s1 s2 : FdState} (h : s.Tracks p (s.table p) s1)
    (hr : s1.Ready pid p) {kind : FdKind} {id : ℤ} {flags : BitVec 32} {r : Option FdIdx}
    (ha : allocSpecialFd s1 pid kind id flags = (s2, r)) :
    (r = none ∧ s.Shows p (s.table p) s2) ∨
      ∃ i o, r = some i ∧ s.Fresh o ∧ (o.kind = kind ∧ o.pipeId = id) ∧ (s.table p).Lowest 0 i ∧
        s.Shows p ((s.table p).bind i o) s2 := by
  unfold allocSpecialFd at ha
  rw [hr.stdio] at ha
  dsimp only at ha
  split at ha
  · rename_i hnone
    obtain ⟨rfl, rfl⟩ := Prod.mk.inj ha
    exact .inl ⟨rfl, fdAlloc_none hnone ▸ h.toShows⟩
  rename_i i hi
  obtain ⟨hlow, h2⟩ := h.alloc hi
  split at ha
  · rename_i hins
    obtain ⟨rfl, rfl⟩ := Prod.mk.inj ha
    have h3 := h2.install hins
    rw [if_neg (by simp), hlow.undo] at h3
    exact .inl ⟨rfl, h3.toShows⟩
  rename_i hins
  obtain ⟨rfl, rfl⟩ := Prod.mk.inj ha
  have h3 := h2.install hins
  rw [if_pos rfl] at h3
  obtain ⟨o, hnew, heq, h3⟩ := h3
  rw [bind_bind] at h3
  exact .inr ⟨i, o, rfl, hnew, by rw [heq]; exact ⟨rfl, rfl⟩, hlow, h3.toShows⟩

theorem createSpecial_answers (hr : s.Ready pid p) (k : SpecialKind) (flags : BitVec 32) :
    s.Answers p (createSpecial k s pid flags) (fun r => [r])
      fun t' => (s.table p).OpensOne t' fun o => s.Fresh o ∧ o.kind = k.fdKind := by
  unfold createSpecial
  split
  · exact .unchanged rfl rfl
  rename_i o id halloc
  have hobjs := (FdState.Tracks.refl s p).setObjs o
  have hready : FdState.Ready { s with objs := o } pid p := hr.congr rfl rfl
  split
  · rename_i i hspecial
    rcases allocSpecialFd_shows hobjs hready hspecial with ⟨hnone, -⟩ | ⟨j, o', hj, hnew, ⟨hkind, -⟩, hlow, h2⟩
    · simp at hnone
    · obtain rfl := Option.some.inj hj
      exact .done h2 ⟨i, o', hlow, rfl, rfl, hnew, hkind⟩
  · rename_i hspecial
    rcases allocSpecialFd_shows hobjs hready hspecial with ⟨-, h2⟩ | ⟨j, -, hj, -⟩
    · exact .fail (h2.congr rfl rfl)
    · simp at hj

theorem doSysEventfd2_answers (hr : s.Ready pid p) (flags : BitVec 32) :
    s.Answers p (doSysEventfd2 s pid flags) (fun r => [r])
      fun t' => (s.table p).OpensOne t' fun o => s.Fresh o ∧ o.kind = .eventfd := by
  unfold doSysEventfd2
  split
  · exact .unchanged rfl rfl
  · exact createSpecial_answers hr .eventfd _

theorem doSysTimerfdCreate_answers (hr : s.Ready pid p) (clockid : ℤ) (flags : BitVec 32) :
    s.Answers p (doSysTimerfdCreate s pid clockid flags) (fun r => [r])
      fun t' => (s.table p).OpensOne t' fun o => s.Fresh o ∧ o.kind = .timerfd := by
  unfold doSysTimerfdCreate
  split
  · exact .unchanged rfl rfl
  · exact createSpecial_answers hr .timerfd _

theorem doSysEpollCreate1_answers (hr : s.Ready pid p) (flags : BitVec 32) :
    s.Answers p (doSysEpollCreate1 s pid flags) (fun r => [r])
      fun t' => (s.table p).OpensOne t' fun o => s.Fresh o ∧ o.kind = .epoll := by
  unfold doSysEpollCreate1
  split
  · exact .unchanged rfl rfl
  · exact createSpecial_answers hr .epoll _

theorem doSysSignalfd4_answers (hr : s.Ready pid p) (fd : ℤ) (flags : BitVec 32) :
    s.Answers p (doSysSignalfd4 s pid fd flags) (fun r => [r]) fun t' ns =>
      if fd = -1 then (s.table p).OpensOne t' (fun o => s.Fresh o ∧ o.kind = .signalfd) ns
      else t' = s.table p ∧ ns = [fd.toNat] ∧ ¬ (s.table p).Unbound fd := by
  unfold doSysSignalfd4
  rw [hr.stdio]
  dsimp only
  split
  · exact .unchanged rfl rfl
  split
  · rename_i hfd
    obtain ⟨t, h, hP⟩ := createSpecial_answers hr .signalfd (flags &&& (linuxONonblock ||| linuxOCloexec))
    exact ⟨t, h, hP⟩
  rename_i hfd
  split
  · exact .unchanged rfl rfl
  rename_i i hg
  obtain ⟨hi, hbound⟩ := fdGet_bound hg
  split
  · split
    · refine .done ((FdState.Tracks.refl s p).toShows.setFd i _) ?_
      refine ⟨?_, ?_, fun hun => ?_⟩
      · have hsame : update (s.table p) i (s.table p i) = s.table p := update_eq_self _ _
        rw [← hsame, update_idem]
        rfl
      · rw [← hi]
        rfl
      · have := hun i hi
        rw [this] at hbound
        simp at hbound
    · exact .unchanged rfl rfl
  · exact .unchanged rfl rfl

/-! ## Sockets -/

theorem doSysSocket_answers (hr : s.Ready pid p) (domain type protocol : ℤ)
    (nonblock cloexec pcb : Bool) (window later : List ℕ) :
    s.Answers p (doSysSocket s pid domain type protocol nonblock cloexec pcb window later)
      (fun r => [r]) fun t' => (s.table p).OpensOne t' fun o => s.Fresh o ∧ o.kind = .socket := by
  unfold doSysSocket
  split
  · exact .unchanged rfl rfl
  split
  · exact .unchanged rfl rfl
  rw [hr.stdio]
  dsimp only
  split
  · rename_i hnone
    obtain rfl := fdAlloc_none hnone
    exact .unchanged rfl rfl
  rename_i s1 i ha
  obtain ⟨hi, h1⟩ := (FdState.Tracks.refl s p).alloc ha
  split
  · exact .abandoned h1 hi rfl rfl
  split
  · exact .abandoned h1 hi rfl rfl
  split
  · rename_i hins
    exact .opened (h1.setObjs _) hi hins (fun o hnew heq => ⟨hnew, by rw [heq]; rfl⟩) rfl rfl
  · rename_i hins
    exact .refused (h1.setObjs _) hi hins rfl rfl

theorem socketFromFd_ready (hr : s.Ready pid p) (fd : ℤ) : socketFromFd s pid fd = (s, none) ∨
      ∃ i sid, socketFromFd s pid fd = (s, some (p, i, sid)) := by
  unfold socketFromFd
  rw [hr.stdio]
  dsimp only
  split
  · exact .inl rfl
  split
  · split
    · exact .inr ⟨_, _, rfl⟩
    · exact .inl rfl
  · exact .inl rfl

theorem doSysListen_shows (hr : s.Ready pid p) (fd backlog : ℤ) (granted : Bool) :
    s.Shows p (s.table p) (doSysListen s pid fd backlog granted).1 := by
  have hs := (FdState.Tracks.refl s p).toShows
  unfold doSysListen
  rcases socketFromFd_ready hr fd with h | ⟨i, sid, h⟩
  · rw [h]
    exact hs
  rw [h]
  dsimp only
  split_ifs
  all_goals first | exact hs | exact hs.congr rfl rfl

theorem doSysAccept_answers (hr : s.Ready pid p) (fd : ℤ) (copied : Bool) (later : List ℕ) :
    s.Answers p (doSysAccept s pid fd copied later) (fun r => [r])
      fun t' => (s.table p).OpensOne t' fun o => s.Fresh o ∧ o.kind = .socket := by
  unfold doSysAccept
  rcases socketFromFd_ready hr fd with h | ⟨i, l, h⟩
  · rw [h]
    exact .unchanged rfl rfl
  rw [h]
  dsimp only
  split
  · exact .unchanged rfl rfl
  split
  · exact .unchanged rfl rfl
  rename_i o sid hdeq
  split
  · exact .unchanged rfl rfl
  split
  · rename_i s1 hnone
    have h1 := fdAlloc_none hnone
    exact .unchanged (by rw [h1]) (by rw [h1])
  rename_i s1 j ha
  obtain ⟨hj, h1⟩ := ((FdState.Tracks.refl s p).setObjs _).alloc ha
  split
  · rename_i hins
    exact .refused h1 hj hins rfl rfl
  rename_i s2 hins
  split
  · exact .opened h1 hj hins (fun o hnew heq => ⟨hnew, by rw [heq]; rfl⟩) rfl rfl
  have h2 := h1.install hins
  rw [if_pos rfl] at h2
  obtain ⟨o', -, -, h2⟩ := h2
  have h3 := h2.toShows.closeFd (fun _ => []) j
  rw [bind_bind, hj.undo] at h3
  exact .fail h3

theorem FdState.Shows.setFlags (h : s.Shows p t s') (i : FdIdx) (e : FdEntry)
    (he : e.shown = (s'.fds (p, i)).shown) : s.Shows p t (s'.setFd p i e) := by
  have h' := h.setFd i e
  have hi : e.shown = t i := by
    rw [he, ← h.table]
    rfl
  rw [hi, update_eq_self] at h'
  exact h'

theorem doSysAccept4_answers (hr : s.Ready pid p) (fd : ℤ) (flags : BitVec 32) (copied : Bool) (later : List ℕ) :
    s.Answers p (doSysAccept4 s pid fd flags copied later) (fun r => [r])
      fun t' => (s.table p).OpensOne t' fun o => s.Fresh o ∧ o.kind = .socket := by
  obtain ⟨t, h, hP⟩ := doSysAccept_answers hr fd copied later
  unfold doSysAccept4
  split
  · exact .unchanged rfl rfl
  split
  · rename_i hacc
    rw [hacc] at h hP
    exact ⟨t, h, hP⟩
  rename_i s1 r hacc
  rw [hacc] at h hP
  obtain ⟨i, o, hlow, hns, rfl, hnew, hkind⟩ := hP
  obtain rfl : r = i.val := by simpa using hns
  have hready : s1.Ready pid p := by
    apply hr.shows h
    intro j hj
    by_cases hji : j = i
    · subst hji
      simp
    · rw [bind_of_ne hji]
      exact hr.low j hj
  rw [hready.stdio]
  have hbound : s1.table p i = some o := by
    rw [h.table]
    exact bind_self
  dsimp only
  split
  · rename_i hnone
    have := fdGet_unbound hnone i rfl
    rw [hbound] at this
    simp at this
  rename_i j hj
  have hdone : ∀ s2 : FdState, s.Shows p ((s.table p).bind i o) s2 → s.Answers p (s2, .ok i.val) (fun r => [r])
        fun t' => (s.table p).OpensOne t' fun o => s.Fresh o ∧ o.kind = .socket :=
    fun s2 h2 => .done h2 ⟨i, o, hlow, rfl, rfl, hnew, hkind⟩
  split
  · split
    · have hset := h.setFlags j
        { s1.fds (p, j) with
          cloexec := (s1.fds (p, j)).cloexec || hasFlag flags linuxSockCloexec
          flags := (s1.fds (p, j)).flags ||| linuxONonblock } rfl
      exact hdone _ (hset.congr rfl rfl)
    · exact hdone _ (h.setFlags _ _ rfl)
  · exact hdone _ (h.setFlags _ _ rfl)

/-! ## Calls that open two objects -/

theorem twoFds_eq (hr : s.Ready pid p) {o : Objects} {s1 s2 : FdState} {j : FdIdx}
    (hi : fdAlloc { s with objs := o } p 0 = (s1, some i)) (hj : fdAlloc s1 p 0 = (s2, some j)) :
    twoFds s pid = [i.val, j.val] := by
  have hi' : fdAlloc s p 0 = ({ s1 with objs := s.objs }, some i) := fdAlloc_withObjs hi s.objs
  have hj' := fdAlloc_withObjs hj s.objs
  unfold twoFds
  rw [hr.stdio]
  dsimp only
  rw [hi']
  dsimp only
  rw [hj']

section OpensTwo

variable {s1 s2 s'' : FdState} {j : FdIdx} {e : FdEntry} {o o' : OpenObj}

/-- A failed call frees the two numbers it has marked, in either order. -/
theorem FdState.Answers.freed {err : Errno} (hi : (s.table p).Lowest 0 i)
    (hj : ((s.table p).bind i markedObj).Lowest 0 j)
    (h : s.Shows p (((((s.table p).bind i o).bind j o').unbind i).unbind j) s')
    (hp : s''.procPid = s'.procPid) (hf : s''.fds = s'.fds) :
    s.Answers p (s'', .error err) f P := by
  rw [hi.undo_two hj.rebind] at h
  exact .fail (h.congr hp hf)

theorem FdState.Answers.freedBack {err : Errno} (hi : (s.table p).Lowest 0 i)
    (hj : ((s.table p).bind i markedObj).Lowest 0 j)
    (h : s.Shows p (((((s.table p).bind i o).bind j o').unbind j).unbind i) s')
    (hp : s''.procPid = s'.procPid) (hf : s''.fds = s'.fds) :
    s.Answers p (s'', .error err) f P := by
  rw [unbind, unbind, update_comm hj.ne] at h
  exact .freed hi hj h hp hf

theorem FdState.Tracks.installFirst (hne : j ≠ i) (h : s.Tracks p ((t.bind i markedObj).bind j markedObj) s1)
    (hins : fdInstall s1 p i e = (s2, true)) :
    ∃ o, s.Fresh o ∧ o = { e.obj with fileRef := o.fileRef } ∧ s.Tracks p ((t.bind i o).bind j markedObj) s2 := by
  have h2 := h.install hins
  rw [if_pos rfl] at h2
  obtain ⟨o, hnew, heq, h2⟩ := h2
  refine ⟨o, hnew, heq, ?_⟩
  have hswap : ((t.bind i markedObj).bind j markedObj).bind i o = (t.bind i o).bind j markedObj := by
    unfold FdTable.bind
    rw [update_comm hne, update_idem]
  rw [hswap] at h2
  exact h2

theorem FdState.Tracks.installSecond (h : s.Tracks p ((t.bind i o).bind j markedObj) s1)
    (hins : fdInstall s1 p j e = (s2, true)) :
    ∃ o', s.Fresh o' ∧ o' = { e.obj with fileRef := o'.fileRef } ∧ s.Tracks p ((t.bind i o).bind j o') s2 := by
  have h2 := h.install hins
  rw [if_pos rfl] at h2
  obtain ⟨o', hnew, heq, h2⟩ := h2
  rw [bind_bind] at h2
  exact ⟨o', hnew, heq, h2⟩

theorem FdState.Tracks.installFails (h : s.Tracks p t s1) (hins : fdInstall s1 p i e = (s2, false)) :
    s.Tracks p (t.unbind i) s2 := by
  have h2 := h.install hins
  rw [if_neg (by simp)] at h2
  exact h2

end OpensTwo

theorem doSysPipe_answers (hr : s.Ready pid p) (flags : BitVec 32) (copied : Bool) :
    s.Answers p (doSysPipe s pid flags copied) (fun _ => twoFds s pid)
      fun t' => (s.table p).OpensTwo t' fun o o' => s.Fresh o ∧ s.Fresh o' ∧ o.kind = .pipeR ∧
        o'.kind = .pipeW ∧ o.pipeId = o'.pipeId := by
  unfold doSysPipe
  split
  · exact .unchanged rfl rfl
  rw [hr.stdio]
  dsimp only
  split
  · exact .unchanged rfl rfl
  rename_i objs id halloc
  split
  · rename_i hnone
    obtain rfl := fdAlloc_none hnone
    exact .unchanged rfl rfl
  rename_i s1 i ha
  obtain ⟨hi, h1⟩ := ((FdState.Tracks.refl s p).setObjs objs).alloc ha
  split
  · rename_i hnone
    obtain rfl := fdAlloc_none hnone
    exact .abandoned h1 hi rfl rfl
  rename_i s2 j hb
  obtain ⟨hj, h2⟩ := h1.alloc hb
  have hne := hj.ne
  split
  · rename_i hins
    exact .freed hi hj ((h2.installFails hins).clear j).toShows rfl rfl
  rename_i s3 hins
  obtain ⟨o, hnew, heq, h3⟩ := h2.installFirst hne hins
  split
  · rename_i s4 hins'
    have h4 := (h3.installFails hins').toShows.put (s4.fds (p, i)).fileRef
    exact .freedBack hi hj (h4.clear i) rfl rfl
  rename_i s4 hins'
  obtain ⟨o', hnew', heq', h4⟩ := h3.installSecond hins'
  split
  · refine .done (h4.toShows.congr rfl rfl) ⟨i, j, o, o', hi, hj.rebind, twoFds_eq hr ha hb, rfl, hnew, hnew', ?_⟩
    rw [heq, heq']
    exact ⟨rfl, rfl, rfl⟩
  have h5 := (h4.setObjs (s4.objs.setPipe id { s4.objs.pipes id with
    readers := (s4.objs.pipes id).readers + 1, writers := (s4.objs.pipes id).writers + 1 })).toShows
  exact .freed hi hj ((h5.closeFd (fun _ => []) i).closeFd (fun _ => []) j) rfl rfl

theorem doSysSocketpair_answers (hr : s.Ready pid p) (nonblock cloexec copied : Bool) (window window' later : List ℕ) :
    s.Answers p (doSysSocketpair s pid nonblock cloexec copied window window' later)
      (fun _ => twoFds s pid) fun t' => (s.table p).OpensTwo t' fun o o' =>
        s.Fresh o ∧ s.Fresh o' ∧ o.kind = .socket ∧ o'.kind = .socket := by
  unfold doSysSocketpair
  rw [hr.stdio]
  dsimp only
  split
  · rename_i hnone
    obtain rfl := fdAlloc_none hnone
    exact .unchanged rfl rfl
  rename_i s1 i ha
  obtain ⟨hi, h1⟩ := (FdState.Tracks.refl s p).alloc ha
  split
  · rename_i hnone
    obtain rfl := fdAlloc_none hnone
    exact .abandoned h1 hi rfl rfl
  rename_i s2 j hb
  obtain ⟨hj, h2⟩ := h1.alloc hb
  have hne := hj.ne
  have hcleared : ∀ {s' : FdState} {err : Errno}, s'.procPid = s2.procPid →
      s'.fds = ((s2.setFd p i {}).setFd p j {}).fds → s.Answers p (s', .error err)
        (fun _ => twoFds s pid) fun t' => (s.table p).OpensTwo t' fun o o' =>
          s.Fresh o ∧ s.Fresh o' ∧ o.kind = .socket ∧ o'.kind = .socket := by
    intro s' err hp hf
    exact .freed hi hj ((h2.clear i).clear j).toShows hp hf
  split
  · exact hcleared rfl rfl
  split
  · exact hcleared rfl rfl
  split
  · rename_i hins
    exact .freed hi hj (((h2.setObjs _).installFails hins).clear j).toShows rfl rfl
  rename_i s3 hins
  obtain ⟨o, hnew, heq, h3⟩ := (h2.setObjs _).installFirst hne hins
  split
  · rename_i s4 hins'
    have h4 := (h3.installFails hins').toShows.put (s4.fds (p, i)).fileRef
    exact .freedBack hi hj (h4.clear i) rfl rfl
  rename_i s4 hins'
  obtain ⟨o', hnew', heq', h4⟩ := h3.installSecond hins'
  split
  · refine .done h4.toShows ⟨i, j, o, o', hi, hj.rebind, twoFds_eq hr ha hb, rfl, hnew, hnew', ?_⟩
    rw [heq, heq']
    exact ⟨rfl, rfl⟩
  · have h5 := (h4.toShows.put (s4.fds (p, i)).fileRef).put (s4.fds (p, j)).fileRef
    exact .freed hi hj ((h5.clear i).clear j) rfl rfl

/-! ## Opening paths -/

theorem openTty_answers (s : FdState) (p : FdProcIdx) (cur : Caller) (flags : BitVec 32) :
    s.Answers p (openTty s p cur flags) (fun r => [r]) fun t' => (s.table p).OpensOne t' s.Fresh := by
  unfold openTty
  split
  · rename_i hnone
    obtain rfl := fdAlloc_none hnone
    exact .unchanged rfl rfl
  rename_i s1 i ha
  obtain ⟨hi, h1⟩ := (FdState.Tracks.refl s p).alloc ha
  split
  · rename_i hins
    exact .refused h1 hi hins rfl rfl
  rename_i s2 hins
  have h2 := h1.install hins
  rw [if_pos rfl] at h2
  obtain ⟨o, hnew, -, h2⟩ := h2
  rw [bind_bind] at h2
  have hself : (s2.fds (p, i)).shown = some o := by
    have := congrFun h2.table i
    rwa [bind_self] at this
  -- The terminal is filled in afterwards, under the same file reference.
  have hused : (s2.fds (p, i)).used = true := by
    unfold FdEntry.shown at hself
    split at hself
    · assumption
    · simp at hself
  have href : (s2.fds (p, i)).fileRef = o.fileRef := by
    unfold FdEntry.shown at hself
    rw [if_pos hused] at hself
    rw [← Option.some.inj hself]
    rfl
  have hdone : ∀ e : FdEntry, e.used = true → e.fileRef = (s2.fds (p, i)).fileRef → ∀ s3 : FdState,
      s3.procPid = s2.procPid → s3.fds = (s2.setFd p i e).fds →
      s.Answers p (s3, .ok i.val) (fun r => [r]) fun t' => (s.table p).OpensOne t' s.Fresh := by
    intro e hu he s3 hp hf
    have h3 := h2.toShows.setFd i e
    unfold FdEntry.shown at h3
    rw [if_pos hu] at h3
    have h3 : s.Shows p (((s.table p).bind i o).bind i e.obj) (s2.setFd p i e) := h3
    rw [bind_bind] at h3
    refine .done (h3.congr hp hf) ⟨i, e.obj, hi, rfl, rfl, ?_⟩
    have hfr : e.obj.fileRef = o.fileRef := he.trans href
    unfold FdState.Fresh
    rw [hfr]
    exact hnew
  have hfail : s.Answers p (s2.setFd p i {}, .error .enxio) (fun r => [r])
      fun t' => (s.table p).OpensOne t' s.Fresh := by
    have h3 := h2.toShows.clear i
    rw [hi.undo] at h3
    exact .fail h3
  unfold attachTty
  dsimp only
  split
  · exact hdone { s2.fds (p, i) with kind := .console } hused rfl _ rfl rfl
  split
  · split
    · exact hfail
    rename_i j _
    split
    · exact hfail
    · exact hdone { s2.fds (p, i) with kind := .ptySlave, pipeId := j } hused rfl _ rfl rfl
  · exact hfail

theorem openPtmx_answers (s : FdState) (p : FdProcIdx) (flags : BitVec 32) :
    s.Answers p (openPtmx s p flags) (fun r => [r]) fun t' => (s.table p).OpensOne t' s.Fresh := by
  unfold openPtmx
  split
  · rename_i hnone
    obtain rfl := fdAlloc_none hnone
    exact .unchanged rfl rfl
  rename_i s1 i ha
  obtain ⟨hi, h1⟩ := (FdState.Tracks.refl s p).alloc ha
  split
  · exact .abandoned h1 hi rfl rfl
  dsimp only
  split
  · rename_i hins
    exact .opened (h1.setObjs _) hi hins (fun o hnew _ => hnew) rfl rfl
  · rename_i hins
    exact .refused (h1.setObjs _) hi hins rfl rfl

theorem openPts_answers (s : FdState) (p : FdProcIdx) (cur : Caller) (flags : BitVec 32) (path : String) :
    s.Answers p (openPts s p cur flags path) (fun r => [r]) fun t' => (s.table p).OpensOne t' s.Fresh := by
  unfold openPts
  split
  · exact .unchanged rfl rfl
  split
  · exact .unchanged rfl rfl
  split
  · rename_i hnone
    obtain rfl := fdAlloc_none hnone
    exact .unchanged rfl rfl
  rename_i s1 i ha
  obtain ⟨hi, h1⟩ := (FdState.Tracks.refl s p).alloc ha
  dsimp only
  split
  · rename_i hins
    exact .refused h1 hi hins rfl rfl
  · rename_i hins
    exact .opened h1 hi hins (fun o hnew _ => hnew) rfl rfl

theorem openVfs_answers (s : FdState) (p : FdProcIdx) (cur : Caller) (flags : BitVec 32)
    (path : String) (inode : VfsInode) (sb : Option ℕ) :
    s.Answers p (openVfs s p cur flags path inode sb) (fun r => [r])
      fun t' => (s.table p).OpensOne t' fun o => s.Fresh o ∧
        o.kind = .vfs ∧ o.path = path ∧ o.ino = inode.ino ∧ o.sb = sb := by
  unfold openVfs
  split
  · exact .unchanged rfl rfl
  split
  · rename_i hnone
    obtain rfl := fdAlloc_none hnone
    exact .unchanged rfl rfl
  rename_i s1 i ha
  obtain ⟨hi, h1⟩ := (FdState.Tracks.refl s p).alloc ha
  dsimp only
  split
  · rename_i hins
    exact .refused h1 hi hins rfl rfl
  rename_i hins
  refine .opened h1 hi hins (fun o hnew heq => ⟨hnew, ?_⟩) rfl rfl
  rw [heq]
  refine ⟨rfl, rfl, ?_, rfl⟩
  -- `O_TRUNC` changes the cached size only.
  change VfsInode.ino (if _ then _ else _) = _
  split <;> rfl

theorem doSysOpenat_answers {cur : Caller} (hr : s.Ready cur.pid p) (flags : BitVec 32)
    (path : Except Errno String) (resolved : Option (VfsInode × Option ℕ)) :
    s.Answers p (doSysOpenat s cur flags path resolved) (fun r => [r])
      fun t' => (s.table p).OpensOne t' fun o => s.Fresh o ∧ o.IsFile path resolved := by
  have hspecial : ∀ {out : FdState × FdResult} {name : String}, path = .ok name → specialPath name = true →
      s.Answers p out (fun r => [r]) (fun t' => (s.table p).OpensOne t' s.Fresh) →
      s.Answers p out (fun r => [r])
        fun t' => (s.table p).OpensOne t' fun o => s.Fresh o ∧ o.IsFile path resolved := by
    rintro ⟨s', r⟩ name hpath hname ⟨t, h, hP⟩
    refine ⟨t, h, ?_⟩
    cases r with
    | error err => exact hP
    | ok r =>
      obtain ⟨i, o, hi, hns, ht, hnew⟩ := hP
      refine ⟨i, o, hi, hns, ht, hnew, fun name' hname' hno => ?_⟩
      rw [hpath] at hname'
      rw [Except.ok.inj hname', hno] at hname
      simp at hname
  unfold doSysOpenat
  rw [hr.stdio]
  dsimp only
  split
  · exact .unchanged rfl rfl
  rename_i name
  split
  · exact hspecial rfl (by simp [specialPath, *]) (openTty_answers s p cur flags)
  split
  · exact hspecial rfl (by simp [specialPath, *]) (openPtmx_answers s p flags)
  split
  · exact hspecial rfl (by simp [specialPath, *]) (openPts_answers s p cur flags name)
  split
  · exact .unchanged rfl rfl
  rename_i inode sb
  obtain ⟨t, h, hP⟩ := openVfs_answers s p cur flags name inode sb
  refine ⟨t, h, ?_⟩
  rcases hout : (openVfs s p cur flags name inode sb).2 with err | r
  · rw [hout] at hP
    exact hP
  rw [hout] at hP
  obtain ⟨i, o, hi, hns, ht, hnew, hfile⟩ := hP
  refine ⟨i, o, hi, hns, ht, hnew, fun name' hname' _ => ⟨inode, sb, rfl, ?_⟩⟩
  rw [← Except.ok.inj hname']
  exact hfile

/-! ## Duplicating and closing -/

section Duplicating

variable {R : Prop} {N : ℤ} {F : Holders} {G : ℕ → ℕ} {j : FdIdx}

/-- The file reference of an open descriptor can be taken once more. -/
theorem FdInv.fileRefGet_some (h : FdInv R N F G s) {x : FdProcIdx × FdIdx}
    (hu : (s.fds x).used = true) (href : 1 ≤ (s.fds x).fileRef) :
    ∃ s', fileRefGet s (s.fds x).fileRef = some s' := by
  have hpos := refSlots_pos hu
  obtain ⟨hholds, hmax⟩ := h.files _ href
  have hvalid : fileRefValid s (s.fds x).fileRef = true := by
    rcases hholds with ⟨hused, hrefs, -⟩ | ⟨-, hzero⟩
    · have hlt : (s.fds x).fileRef < edgeMaxFileRefs := by
        by_contra hge
        rw [hmax (by omega)] at hused
        simp at hused
      have hrefs0 : 0 < (s.fileRefs (s.fds x).fileRef).refs := by omega
      simp only [fileRefValid, hused, hlt, hrefs0]
      simp
      omega
    · omega
  unfold fileRefGet
  rw [if_pos hvalid]
  exact ⟨_, rfl⟩

theorem dupInto_shows {s1 : FdState} (h : FdInv R N F G s1) (hu : (s1.fds (p, i)).used = true)
    (href : 1 ≤ (s1.fds (p, i)).fileRef) (ht : s.Shows p t s1) (cloexec : Bool) :
    ∃ s2, dupInto s1 p j (s1.fds (p, i)) cloexec = (s2, .ok j.val) ∧ s.Shows p (t.bind j (s1.fds (p, i)).obj) s2 := by
  obtain ⟨s2, hg⟩ := h.fileRefGet_some hu href
  obtain ⟨hf, -, hp⟩ := fileRefGet_frame hg
  unfold dupInto
  rw [if_pos (by omega), hg]
  refine ⟨_, rfl, ?_⟩
  have h2 : s.Shows p t { s2 with
      objs := fdAddRef s2.objs (s1.fds (p, i)).kind (s1.fds (p, i)).pipeId } := ht.congr hp hf
  have h3 := h2.setFd j { s1.fds (p, i) with cloexec := cloexec }
  unfold FdEntry.shown at h3
  rw [if_pos (by exact hu)] at h3
  exact h3

theorem doSysFcntlDupfd_answers (hr : s.Ready pid p) (h : FdInv R N F G s)
    (href : ∀ x, (s.fds x).used = true → 1 ≤ (s.fds x).fileRef) (fd minfd : ℤ) (cloexec : Bool) :
    s.Answers p (doSysFcntlDupfd s pid fd minfd cloexec) (fun r => [r]) fun t' ns =>
      ∃ j, (s.table p).Lowest minfd j ∧ ns = [j.val] ∧ (s.table p).Copies t' fd j := by
  unfold doSysFcntlDupfd
  rw [hr.stdio]
  dsimp only
  split
  · exact .unchanged rfl rfl
  rename_i i hg
  obtain ⟨hi, hbound⟩ := fdGet_bound hg
  have hu := fdGet_some hg
  split
  · rename_i hnone
    obtain rfl := fdAlloc_none hnone
    exact .unchanged rfl rfl
  rename_i s1 j ha
  obtain ⟨hj, h1⟩ := (FdState.Tracks.refl s p).alloc ha
  obtain ⟨rfl, hfree⟩ := fdAlloc_some ha
  have hne : i ≠ j := by
    rintro rfl
    rw [hu] at hfree
    simp at hfree
  have hsame : (s.setFd p j { used := true }).fds (p, i) = s.fds (p, i) :=
    update_of_ne (by simp [hne]) _ _
  have hp0 : s.procPid p ≠ 0 := by
    intro h0
    rw [h.owned (p, i) h0] at hu
    simp at hu
  obtain ⟨hinv, -⟩ := h.fdAlloc hp0 ha
  obtain ⟨s2, hdup, h2⟩ := dupInto_shows (j := j) hinv (by rw [hsame]; exact hu)
    (by rw [hsame]; exact href (p, i) hu) h1.toShows cloexec
  rw [hdup]
  rw [bind_bind, hsame] at h2
  exact .done h2 ⟨j, hj, rfl, i, _, hi, hbound, rfl⟩

theorem doSysDup2_answers (hr : s.Ready pid p) (h : FdInv False N F G s)
    (href : ∀ x, (s.fds x).used = true → 1 ≤ (s.fds x).fileRef) (window : ℕ → List ℕ)
    (oldfd newfd : ℤ) :
    s.Answers p (doSysDup2 window s pid oldfd newfd) (fun r => [r]) fun t' ns =>
      ∃ j : FdIdx, (j.val : ℤ) = newfd ∧ ns = [j.val] ∧ (s.table p).Copies t' oldfd j := by
  unfold doSysDup2
  rw [hr.stdio]
  dsimp only
  split
  swap
  · exact .unchanged rfl rfl
  rename_i i j hg hnew
  obtain ⟨hi, hbound⟩ := fdGet_bound hg
  have hu := fdGet_some hg
  have hj : (j.val : ℤ) = newfd := by simpa using List.find?_some hnew
  split
  · rename_i hij
    subst hij
    refine .done (FdState.Tracks.refl s p).toShows ⟨i, hj, rfl, i, _, hi, hbound, ?_⟩
    unfold FdTable.bind
    rw [← hbound, update_eq_self]
  rename_i hij
  -- Closing the target leaves the source as it is.
  have hclosed : ∀ s1, s1 = (if (s.fds (p, j)).used then closeFd window s p j else s) →
      FdInv False N F G s1 ∧ s1.fds (p, i) = s.fds (p, i) ∧
        ∃ t, s.Shows p t s1 ∧ ∀ o, t.bind j o = (s.table p).bind j o := by
    rintro s1 rfl
    split
    · rename_i huj
      refine ⟨h.closeFd (fun hf => hf.elim) huj, ?_, _,
        (FdState.Tracks.refl s p).toShows.closeFd window j, fun o => update_idem _ _ _⟩
      rw [closeFd_fds]
      exact update_of_ne (by simp [hij]) _ _
    · exact ⟨h, rfl, _, (FdState.Tracks.refl s p).toShows, fun _ => rfl⟩
  obtain ⟨hinv, hsame, t, ht, hbind⟩ := hclosed _ rfl
  rw [← hsame] at hu
  obtain ⟨s2, hdup, h2⟩ := dupInto_shows (j := j) hinv hu
    (by rw [hsame]; rw [hsame] at hu; exact href (p, i) hu) ht false
  rw [hdup]
  rw [hbind, hsame] at h2
  exact .done h2 ⟨j, hj, rfl, i, _, hi, hbound, rfl⟩

theorem doSysFcntlSetfd_shows (hr : s.Ready pid p) (fd : ℤ) (cloexec : Bool) :
    s.Shows p (s.table p) (doSysFcntlSetfd s pid fd cloexec).1 := by
  have hs := (FdState.Tracks.refl s p).toShows
  unfold doSysFcntlSetfd
  rw [hr.stdio]
  dsimp only
  split
  · exact hs
  · exact hs.setFlags _ _ rfl

theorem doSysFcntlSetfl_shows (hr : s.Ready pid p) (fd : ℤ) (arg : BitVec 32) :
    s.Shows p (s.table p) (doSysFcntlSetfl s pid fd arg).1 := by
  have hs := (FdState.Tracks.refl s p).toShows
  unfold doSysFcntlSetfl
  rw [hr.stdio]
  dsimp only
  split
  · exact hs
  rename_i i _
  have h2 := hs.setFlags i
    { s.fds (p, i) with flags := setflFlags (s.fds (p, i)).flags arg } rfl
  split
  · split
    · exact h2.congr rfl rfl
    · exact h2
  · exact h2

theorem ioctlPtyLock_shows (hr : s.Ready pid p) (fd : ℤ) (lock : Bool) :
    s.Shows p (s.table p) (ioctlPtyLock s pid fd lock).1 := by
  have hs := (FdState.Tracks.refl s p).toShows
  unfold ioctlPtyLock
  rw [hr.stdio]
  dsimp only
  split
  · exact hs
  split
  · split
    · exact hs.congr rfl rfl
    · exact hs
  · exact hs
  · exact hs

theorem doSysDup3_answers (hr : s.Ready pid p) (h : FdInv False N F G s)
    (href : ∀ x, (s.fds x).used = true → 1 ≤ (s.fds x).fileRef) (window : ℕ → List ℕ)
    (oldfd newfd : ℤ) (flags : BitVec 32) :
    s.Answers p (doSysDup3 window s pid oldfd newfd flags) (fun r => [r]) fun t' ns =>
      ∃ j : FdIdx, (j.val : ℤ) = newfd ∧ ns = [j.val] ∧ (s.table p).Copies t' oldfd j := by
  obtain ⟨t, ht, hP⟩ := doSysDup2_answers hr h href window oldfd newfd
  unfold doSysDup3
  split
  · exact .unchanged rfl rfl
  split
  · rename_i hdup
    rw [hdup] at ht hP
    exact ⟨t, ht, hP⟩
  rename_i s1 r hdup
  rw [hdup] at ht hP
  split
  swap
  · exact ⟨t, ht, hP⟩
  obtain ⟨j, hj, hns, i, o, hi, ho, rfl⟩ := hP
  have hready : s1.Ready pid p := by
    apply hr.shows ht
    intro k hk
    by_cases hkj : k = j
    · subst hkj
      simp
    · rw [bind_of_ne hkj]
      exact hr.low k hk
  have h2 := doSysFcntlSetfd_shows hready r true
  have h3 : s.Shows p ((s.table p).bind j o) (doSysFcntlSetfd s1 pid r true).1 :=
    ⟨h2.procs.trans ht.procs, h2.table.trans ht.table⟩
  exact .done h3 ⟨j, hj, hns, i, o, hi, ho, rfl⟩

end Duplicating

/-- `close` unbinds a number that is bound, and fails with `EBADF` on any other. -/
theorem doSysClose_shows (hr : s.Ready pid p) (window : ℕ → List ℕ) (fd : ℤ) :
    (s.table p).Unbound fd ∧ doSysClose window s pid fd = (s, .error .ebadf) ∨
      ∃ i : FdIdx, (i.val : ℤ) = fd ∧ s.table p i ≠ none ∧ (doSysClose window s pid fd).2 = .ok 0 ∧
        s.Shows p ((s.table p).unbind i) (doSysClose window s pid fd).1 := by
  unfold doSysClose
  rw [hr.proc]
  dsimp only
  split
  · rename_i hnone
    exact .inl ⟨fdGet_unbound hnone, rfl⟩
  rename_i i hg
  obtain ⟨hi, hbound⟩ := fdGet_bound hg
  refine .inr ⟨i, hi, ?_, rfl, (FdState.Tracks.refl s p).toShows.closeFd window i⟩
  rw [hbound]
  simp

theorem FdCall.meaning {N : ℤ} {F : Holders} {G : ℕ → ℕ} {cur : Caller} (hr : s.Ready cur.pid p)
    (h : FdInv False N F G s) (href : ∀ x, (s.fds x).used = true → 1 ≤ (s.fds x).fileRef)
    (c : FdCall) (hc : ∀ loaded window, c ≠ .execve loaded window ∧ c ≠ .release window) :
    (c.apply s cur).procPid = s.procPid ∧
      c.Meaning s.Fresh (s.table p) ((c.apply s cur).table p) (c.numbers s cur) := by
  have hans : ∀ {out : FdState × FdResult} {f : ℕ → List ℕ} {P : FdTable → List ℕ → Prop},
      s.Answers p out f P → out.1.procPid = s.procPid ∧
        Numbers.Assigns (out.2.map f) (s.table p) (out.1.table p) (P (out.1.table p)) := by
    rintro out f P ⟨t, ht, hP⟩
    rw [ht.table]
    exact ⟨ht.procs, hP⟩
  have hshow : ∀ {s' : FdState}, s.Shows p (s.table p) s' →
      s'.procPid = s.procPid ∧ s'.table p = s.table p := fun h => ⟨h.procs, h.table⟩
  cases c with
  | pipe flags copied => exact hans (doSysPipe_answers hr flags copied)
  | socket => exact hans (doSysSocket_answers hr _ _ _ _ _ _ _ _)
  | socketpair => exact hans (doSysSocketpair_answers hr _ _ _ _ _ _)
  | listen fd backlog granted => exact hshow (doSysListen_shows hr fd backlog granted)
  | accept fd copied later => exact hans (doSysAccept_answers hr fd copied later)
  | accept4 fd flags copied later => exact hans (doSysAccept4_answers hr fd flags copied later)
  | openat flags path resolved => exact hans (doSysOpenat_answers hr flags path resolved)
  | eventfd2 flags => exact hans (doSysEventfd2_answers hr flags)
  | timerfdCreate clockid flags => exact hans (doSysTimerfdCreate_answers hr clockid flags)
  | signalfd4 fd flags => exact hans (doSysSignalfd4_answers hr fd flags)
  | epollCreate1 flags => exact hans (doSysEpollCreate1_answers hr flags)
  | dupfd fd minfd cloexec => exact hans (doSysFcntlDupfd_answers hr h href fd minfd cloexec)
  | setfd fd cloexec => exact hshow (doSysFcntlSetfd_shows hr fd cloexec)
  | setfl fd arg => exact hshow (doSysFcntlSetfl_shows hr fd arg)
  | dup2 oldfd newfd window => exact hans (doSysDup2_answers hr h href window oldfd newfd)
  | dup3 oldfd newfd flags window =>
    exact hans (doSysDup3_answers hr h href window oldfd newfd flags)
  | close fd window =>
    rcases doSysClose_shows hr window fd with ⟨hun, heq⟩ | ⟨i, hi, hb, hres, hs⟩
    · refine ⟨?_, .inl ⟨hun, ?_, ?_⟩⟩
      · exact congrArg (fun out : FdState × FdResult => out.1.procPid) heq
      · exact congrArg (fun out : FdState × FdResult => out.2.map fun _ => ([] : List ℕ)) heq
      · exact congrArg (fun out : FdState × FdResult => out.1.table p) heq
    · refine ⟨hs.procs, .inr ⟨i, hi, hb, ?_, hs.table⟩⟩
      exact congrArg (fun r : FdResult => r.map fun _ => ([] : List ℕ)) hres
  | ptyLock fd lock => exact hshow (ioctlPtyLock_shows hr fd lock)
  | execve loaded window => exact absurd rfl (hc loaded window).1
  | release window => exact absurd rfl (hc true window).2

end Calls

end EdgeOS
