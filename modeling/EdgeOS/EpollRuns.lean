import EdgeOS.CallMeanings
import EdgeOS.EpollWatches

namespace EdgeOS

open Lib Function List SlotTable ProcFds

/-!
Which registrations of an epoll object stand for what they stood for when they were made: in every run in
which no process keeps the object and gives up a number registered with it.
-/

/-! ## Fork -/

section Fork

variable {R : Prop} {N : ℤ} {F : Holders} {G : ℕ → ℕ} {s : FdState} {p q : FdProcIdx} {i : FdIdx} {pid : ℤ}

/-- One round of `fd_clone_after_fork` copies one descriptor. -/
theorem cloneFd_held (cbs : FdIdx → List ℕ) (h : FdInv R N F G s) (hfree : (s.fds (q, i)).used = false) :
    ((cloneFd p q cbs s i).fds (q, i)).held = (s.fds (p, i)).held := by
  unfold cloneFd
  dsimp only
  split
  · rename_i hu
    rw [held_none.mpr hfree, held_none.mpr (by simpa using hu)]
  rename_i hu
  have hu : (s.fds (p, i)).used = true := by simpa using hu
  split
  · rename_i href
    obtain ⟨s2, hg⟩ := (h.acceptCbs (cbs i)).fileRefGet_some (x := (p, i)) hu href
    rw [hg]
    exact congrArg FdEntry.held (update_self _ _ _)
  · exact congrArg FdEntry.held (update_self _ _ _)

theorem cloneFds_held (cbs : FdIdx → List ℕ) (hpq : p ≠ q) (l : List FdIdx) (hnd : l.Nodup)
    (h : FdInv R N F G s) (hq : s.procPid q ≠ 0) (hfree : ∀ i ∈ l, (s.fds (q, i)).used = false) :
    (∀ x, x.1 ≠ q → (l.foldl (cloneFd p q cbs) s).fds x = s.fds x) ∧
      ∀ i ∈ l, ((l.foldl (cloneFd p q cbs) s).fds (q, i)).held = (s.fds (p, i)).held := by
  have houtside : ∀ (l : List FdIdx) (s : FdState), ∀ x, (∀ i ∈ l, x ≠ (q, i)) →
      (l.foldl (cloneFd p q cbs) s).fds x = s.fds x := by
    intro l
    induction l with
    | nil => exact fun s x _ => rfl
    | cons j l ih =>
      intro s x hx
      rw [foldl_cons, ih _ x fun i hi => hx i (mem_cons_of_mem j hi)]
      exact (FdInv.cloneFd_frame p q cbs s j).1 x (hx j mem_cons_self)
  refine ⟨fun x hx => houtside l s x fun i _ heq => hx (congrArg Prod.fst heq), ?_⟩
  induction l generalizing s with
  | nil => simp
  | cons j l ih =>
    obtain ⟨hj, hnd⟩ := nodup_cons.mp hnd
    obtain ⟨hother, hpid⟩ := FdInv.cloneFd_frame p q cbs s j
    have hround : ((cloneFd p q cbs s j).fds (q, j)).held = (s.fds (p, j)).held :=
      cloneFd_held cbs h (hfree j mem_cons_self)
    intro i hi
    rw [foldl_cons]
    rcases mem_cons.mp hi with rfl | hi
    · -- The rounds that follow write other descriptors.
      have hlater : ∀ k ∈ l, (q, i) ≠ (q, k) := by
        intro k hk heq
        rw [show i = k from congrArg Prod.snd heq] at hj
        exact hj hk
      rw [houtside l _ (q, i) hlater, hround]
    have hrest := ih hnd (h.cloneFd hq (hfree j mem_cons_self)) (by rw [hpid]; exact hq)
      (fun k hk => by
        have hne : (q, k) ≠ (q, j) := by
          intro heq
          rw [← show k = j from congrArg Prod.snd heq] at hj
          exact hj hk
        rw [hother (q, k) hne]
        exact hfree k (mem_cons_of_mem j hk)) i hi
    rw [hrest, hother (p, i) fun heq => hpq (congrArg Prod.fst heq)]

/-- The child of a fork has the descriptors of its parent, in a table that nobody had; or there is no
table for it, and it has none. -/
theorem fdCloneAfterFork_held (cbs : FdIdx → List ℕ) (h : FdInv R N 0 G s) (hN : 0 < N) (hpid : 0 < pid) :
    fdCloneAfterFork s pid N cbs = s ∨ ∃ p q, findProc s pid = some p ∧ findProc s 0 = some q ∧
        (∀ x, x.1 ≠ q → ((fdCloneAfterFork s pid N cbs).fds x).held = (s.fds x).held) ∧
          ∀ i, ((fdCloneAfterFork s pid N cbs).fds (q, i)).held = (s.fds (p, i)).held := by
  unfold fdCloneAfterFork
  rcases hp : findProc s pid with _ | p
  · exact .inl rfl
  dsimp only
  rw [if_neg (by omega)]
  have hnone : findProc s N = none := by
    cases hf : findProc s N with
    | none => rfl
    | some r =>
      have := h.known r
      rw [findProc_some hf] at this
      omega
  unfold fdProcForPid
  rw [hnone]
  rcases hq : findProc s 0 with _ | q
  · exact .inl rfl
  dsimp only
  have hpq : p ≠ q := by
    rintro rfl
    have := findProc_some hp
    have := findProc_some hq
    omega
  -- The table is made with standard descriptors and cleared again.
  have hchild : ∀ t : FdState, (t.clearProc q N).procPid q ≠ 0 := by
    intro t
    rw [show (t.clearProc q N).procPid q = N from update_self ..]
    omega
  have h1 : FdInv R (N + 1) 0 G (s.clearProc q N) :=
    h.clearEmpty (by omega) (by omega) fun i => h.owned (q, i) (findProc_some hq)
  obtain ⟨h2, -, -⟩ := h1.stdioRounds (hchild s) true [0, 1, 2]
  obtain ⟨hkinds, -⟩ := stdioRounds_kinds (s := s.clearProc q N) (p := q) [0, 1, 2] true
    fun i hu => by
      rw [clearProc_unused] at hu
      simp at hu
  have h3 : ∃ G', FdInv R (N + 1) 0 G' ((fdEnsureStdio (s.clearProc q N) q).clearProc q N) :=
    ⟨_, h2.clearProc le_rfl (show N < N + 1 by omega) hkinds⟩
  have hbase : ∀ x, x.1 ≠ q → ((fdEnsureStdio (s.clearProc q N) q).clearProc q N).fds x = s.fds x := by
    intro x hx
    have hclear : ∀ t : FdState, (t.clearProc q N).fds x = t.fds x := fun t => if_neg hx
    rw [hclear, fdEnsureStdio_outside _ fun hxq => absurd hxq hx, hclear]
  have hpid3 := hchild (fdEnsureStdio (s.clearProc q N) q)
  have hempty := clearProc_unused (fdEnsureStdio (s.clearProc q N) q) q N
  generalize (fdEnsureStdio (s.clearProc q N) q).clearProc q N = t at h3 hbase hpid3 hempty ⊢
  obtain ⟨G', h3⟩ := h3
  obtain ⟨hother, hcopied⟩ := cloneFds_held cbs hpq _ (nodup_finRange edgeMaxFd) h3 hpid3
    fun i _ => hempty i
  refine .inr ⟨p, q, rfl, rfl, fun x hx => ?_, fun i => ?_⟩
  · exact congrArg FdEntry.held ((hother x hx).trans (hbase x hx))
  · exact (hcopied i (mem_finRange i)).trans (congrArg FdEntry.held (hbase (p, i) hpq))

end Fork

/-! ## The calls -/

section Calls

variable {s s' : FdState} {watch watch' : Watches} {pid : ℤ} {p : FdProcIdx} {keep : FdIdx → Prop}

/-- A table that is set up for a call has, past the first three, what the process had. -/
theorem fdProcWithStdio_outside (hf : fdProcWithStdio s pid = (s', some p)) {i : FdIdx} (hi : 2 < i.val) :
    (s'.fds (p, i)).used = (s.fdsOf pid i).used := by
  have hout : ∀ t : FdState, (fdEnsureStdio t p).fds (p, i) = t.fds (p, i) :=
    fun t => fdEnsureStdio_outside t fun _ => hi
  unfold fdProcWithStdio fdProcForPid at hf
  unfold FdState.fdsOf
  cases hp : findProc s pid with
  | some q =>
    rw [hp] at hf
    obtain ⟨rfl, hq⟩ := Prod.mk.inj hf
    obtain rfl := Option.some.inj hq
    rw [hout]
  | none =>
    cases h0 : findProc s 0 with
    | none =>
      rw [hp, h0] at hf
      simp at hf
    | some q =>
      rw [hp, h0] at hf
      obtain ⟨rfl, hq⟩ := Prod.mk.inj hf
      obtain rfl := Option.some.inj hq
      rw [hout, hout]
      exact clearProc_unused s q pid i

/-- What the process of a call has in its table it had before, but for the console. -/
theorem held_of_withStdio (hown : s.Owned) (hf : fdProcWithStdio s pid = (s', some p)) {i : FdIdx}
    {o : FdKind × ℤ × ℕ × Option ℕ × String} (hi : (s'.fds (p, i)).held = some o) (hk : o.1 = .epoll) :
    (s.fdsOf pid i).held = some o := by
  have hadds : s.OnlyAdds (fun _ => False) s' := fdProcWithStdio_adds hown hf
  rcases hadds.held_before hi with hi | ⟨-, hplain⟩
  · rcases fdProcWithStdio_table hf with hp | ⟨-, h0⟩
    · rw [fdsOf_of_find hp]
      exact hi
    · have hfree := hown (p, i) (findProc_some h0)
      rw [(held_some.mp hi).1] at hfree
      simp at hfree
  · exact (hplain hk).elim

theorem specialAllocObj_free {k : SpecialKind} {o o' : Objects} {id : ℕ}
    (h : specialAllocObj k o = (o', some id)) : (o.special k id).used = false := by
  unfold specialAllocObj at h
  cases hf : firstFree k.max fun i => (o.special k i).used with
  | none =>
    rw [hf] at h
    simp at h
  | some i =>
    rw [hf] at h
    rw [← Option.some.inj (Prod.mk.inj h).2]
    exact (firstFree_some hf).1

namespace FdState.Watched

theorem adds {E : ℤ → Prop} (h : s.Watched watch) (hs : s.OnlyAdds E s')
    (hE : ∀ ep : ℕ, E ep → watch ep = []) : s'.Watched watch := by
  rintro p ep ⟨i, o, hi, hk, hid⟩ w hw
  rcases hs.held_before hi with hi | ⟨-, hplain⟩
  · obtain ⟨j, hj, hh⟩ := h p ep ⟨i, o, hi, hk, hid⟩ w hw
    exact ⟨j, hj, hs.held hh⟩
  have hnone := hE ep (by rw [← hid]; exact hplain hk)
  rw [hnone] at hw
  simp at hw

theorem same (h : s.Watched watch) (hs : s.OnlyAdds (fun _ => False) s') : s'.Watched watch :=
  h.adds hs fun _ hf => hf.elim

theorem of_fds (h : s.Watched watch) (hf : s'.fds = s.fds) : s'.Watched watch := h.same (.of_fds hf)

theorem sub (h : s.Watched watch) (hsub : ∀ ep, ∀ w ∈ watch' ep, w ∈ watch ep) : s.Watched watch' :=
  fun p ep hep w hw => h p ep hep w (hsub ep w hw)

theorem opens (h : s.Watched watch) {name : String} {inode : VfsInode} {sb : Option ℕ} {x : FdProcIdx × FdIdx}
    (ho : s.Opens (fun _ => False) name inode sb x s') : s'.Watched watch := by
  obtain ⟨s1, hadds, hother⟩ := ho.others
  have h1 := h.same hadds
  rintro p ep ⟨i, o, hi, hk, hid⟩ w hw
  have hne : (p, i) ≠ x := by
    intro heq
    rw [heq] at hi
    have hkind : (s'.fds x).kind = .epoll := by
      rw [← hk, ← (held_some.mp hi).2]
      rfl
    rw [ho.kind] at hkind
    simp at hkind
  rw [hother (p, i) hne] at hi
  rcases hadds.held_before hi with hi | ⟨-, hplain⟩
  · obtain ⟨j, hj, hh⟩ := h p ep ⟨i, o, hi, hk, hid⟩ w hw
    have hjx : (p, j) ≠ x := by
      rintro rfl
      rw [held_none.mpr ho.free] at hh
      simp at hh
    refine ⟨j, hj, ?_⟩
    rw [hother (p, j) hjx]
    exact hadds.held hh
  · exact (hplain hk).elim

/-- Descriptors of one table are replaced, and those that are registered are not among them. -/
theorem replaces (h : s.Watched watch) (hs : s.Replaces p keep s')
    (hkeep : ∀ i o (ep : ℕ), keep i → (s.fds (p, i)).held = some o → o.1 = .epoll → o.2.1 = ep →
      ∀ w ∈ watch ep, ∃ j : FdIdx, (j.val : ℤ) = w.fd ∧ keep j) : s'.Watched watch := by
  rintro q ep ⟨i, o, hi, hk, hid⟩ w hw
  by_cases hq : q = p
  · subst hq
    -- The object is that of a descriptor which stays.
    obtain ⟨m, hm, hobj⟩ : ∃ m, keep m ∧ (s.fds (q, m)).held = some o := by
      by_cases hki : keep i
      · exact ⟨i, hki, by rw [← hs.kept i hki]; exact hi⟩
      rcases hs.rest i hki with hnone | ⟨m, hm, hcopy⟩
      · rw [hnone] at hi
        simp at hi
      · exact ⟨m, hm, hcopy.symm.trans hi⟩
    obtain ⟨j, hj, hh⟩ := h q ep ⟨m, o, hobj, hk, hid⟩ w hw
    obtain ⟨j', hj', hkj⟩ := hkeep m o ep hm hobj hk hid w hw
    have hjj : j' = j := Fin.ext (by omega)
    rw [hjj] at hkj
    exact ⟨j, hj, (hs.kept j hkj).trans hh⟩
  · rw [hs.others (q, i) hq] at hi
    obtain ⟨j, hj, hh⟩ := h q ep ⟨i, o, hi, hk, hid⟩ w hw
    exact ⟨j, hj, (hs.others (q, j) hq).trans hh⟩

theorem close (h : s.Watched watch) (window : ℕ → List ℕ) {fd : ℤ}
    (hok : s.Survives watch pid fun i => (i.val : ℤ) ≠ fd) : (doSysClose window s pid fd).1.Watched watch := by
  cases hp : findProc s pid with
  | none =>
    unfold doSysClose
    rw [hp]
    exact h
  | some p =>
    refine h.replaces (doSysClose_replaces window hp fd) fun i o ep hi ho => hok i o ep hi ?_
    rw [fdsOf_of_find hp]
    exact ho

theorem dupfd (h : s.Watched watch) (hown : s.Owned) (fd minfd : ℤ) (cloexec : Bool) :
    (doSysFcntlDupfd s pid fd minfd cloexec).1.Watched watch := by
  have hreplaces := doSysFcntlDupfd_replaces s pid fd minfd cloexec
  rcases hf : fdProcWithStdio s pid with ⟨s1, r⟩
  rw [hf] at hreplaces
  have h1 := h.same (fdProcWithStdio_adds hown hf)
  rcases hreplaces with heq | ⟨p, j, -, hfree, hs⟩
  · rw [heq]
    exact h1
  refine h1.replaces hs fun i o ep hi ho hk hid w hw => ?_
  obtain ⟨m, hm, hh⟩ := h1 p ep ⟨i, o, ho, hk, hid⟩ w hw
  refine ⟨m, hm, ?_⟩
  rintro rfl
  rw [held_none.mpr hfree] at hh
  simp at hh

theorem dup2 (h : s.Watched watch) (hown : s.Owned) (window : ℕ → List ℕ) {oldfd newfd : ℤ}
    (hok : oldfd = newfd ∨ s.Missing pid oldfd ∨ s.Survives watch pid fun i => (i.val : ℤ) ≠ newfd) :
    (doSysDup2 window s pid oldfd newfd).1.Watched watch := by
  have hreplaces := doSysDup2_replaces window s pid oldfd newfd
  rcases hf : fdProcWithStdio s pid with ⟨s1, r⟩
  rw [hf] at hreplaces
  have h1 := h.same (fdProcWithStdio_adds hown hf)
  rcases hreplaces with heq | ⟨p, i, hr, hg, hne, hs⟩
  · rw [heq]
    exact h1
  dsimp only at hr
  rw [hr] at hf
  obtain ⟨hi, hu⟩ := fdGet_iff.mp hg
  rcases hok with rfl | hmissing | hok
  · exact absurd rfl hne
  · obtain ⟨hhigh, hfree⟩ := hmissing i hi
    rw [fdProcWithStdio_outside hf hhigh, hfree] at hu
    simp at hu
  · exact h1.replaces hs fun i o ep hi ho hk => hok i o ep hi (held_of_withStdio hown hf ho hk) hk

theorem execve (h : s.Watched watch) (window : ℕ → List ℕ) (loaded : Bool)
    (hok : loaded = true → s.Survives watch pid fun i => ¬ ((s.fdsOf pid i).cloexec = true ∧ 2 < i.val)) :
    (doSysExecve window s pid loaded).Watched watch := by
  cases hp : findProc s pid with
  | none =>
    unfold doSysExecve execCloseFds fdProcRelease
    rw [hp]
    dsimp only
    rw [hp]
    split_ifs
    · exact h
    · exact h
  | some p =>
    cases loaded with
    | true =>
      refine h.replaces (execCloseFds_replaces window hp) fun i o ep hi ho => hok rfl i o ep hi ?_
      rw [fdsOf_of_find hp]
      exact ho
    | false => exact h.replaces (doSysExecve_replaces window hp) fun _ _ _ hf => hf.elim

theorem release (h : s.Watched watch) (window : ℕ → List ℕ) (pid : ℤ) : (fdProcRelease window s pid).Watched watch := by
  cases hp : findProc s pid with
  | none =>
    unfold fdProcRelease
    rw [hp]
    exact h
  | some p => exact h.replaces (fdProcRelease_replaces window hp) fun _ _ _ hf => hf.elim

theorem fork {R : Prop} {N : ℤ} {G : ℕ → ℕ} (h : s.Watched watch) (hinv : FdInv R N 0 G s) (hN : 0 < N)
    (hpid : 0 < pid) (cbs : FdIdx → List ℕ) : (fdCloneAfterFork s pid N cbs).Watched watch := by
  rcases fdCloneAfterFork_held cbs hinv hN hpid with heq | ⟨p, q, -, -, hother, hcopy⟩
  · rw [heq]
    exact h
  rintro r ep ⟨i, o, hi, hk, hid⟩ w hw
  by_cases hr : r = q
  · subst hr
    rw [hcopy i] at hi
    obtain ⟨j, hj, hh⟩ := h p ep ⟨i, o, hi, hk, hid⟩ w hw
    exact ⟨j, hj, (hcopy j).trans hh⟩
  rw [hother (r, i) hr] at hi
  obtain ⟨j, hj, hh⟩ := h r ep ⟨i, o, hi, hk, hid⟩ w hw
  exact ⟨j, hj, (hother (r, j) hr).trans hh⟩

/-- Every call that takes no registered number from a process keeps what is registered. -/
theorem call {N : ℤ} {G : ℕ → ℕ} {cur : Caller} (h : s.Watched watch) (hinv : FdInv False N 0 G s)
    (hlive : ∀ ep, watch ep ≠ [] → (s.objs.special .epoll ep).used = true) (hpos : 0 < cur.pid)
    (hN : cur.pid < N) (c : FdCall) (hok : c.Spares s watch cur.pid) : (c.apply s cur).Watched watch := by
  have hown : s.Owned := hinv.owned
  cases c with
  | pipe flags copied => exact h.same (.doSysPipe hown flags copied)
  | socket => exact h.same (.doSysSocket hown _ _ _ _ _ _ _ _)
  | socketpair => exact h.same (.doSysSocketpair hown _ _ _ _ _ _)
  | listen fd backlog granted => exact h.same (.doSysListen hown fd backlog granted)
  | accept fd copied later => exact h.same (.doSysAccept hown fd copied later)
  | accept4 fd flags copied later => exact h.same (.doSysAccept4 hinv hpos hN fd flags copied later)
  | openat flags path resolved =>
    rcases doSysOpenat_opens (E := fun _ => False) hown cur flags path resolved with
      ⟨hadds, -⟩ | ⟨name, inode, sb, x, -, -, -, hopens⟩
    · exact h.same hadds
    · exact h.opens hopens
  | eventfd2 flags =>
    apply h.same
    simp only [FdCall.apply, doSysEventfd2]
    split
    · exact .refl s
    · exact .createSpecial hown _ _ (by simp)
  | timerfdCreate clockid flags =>
    apply h.same
    simp only [FdCall.apply, doSysTimerfdCreate]
    split
    · exact .refl s
    · exact .createSpecial hown _ _ (by simp)
  | signalfd4 fd flags => exact h.same (.doSysSignalfd4 hinv hpos hN fd flags)
  | epollCreate1 flags =>
    -- The number of the new object was free, so nothing is registered with it.
    refine h.adds (E := fun z => ∀ ep : ℕ, (ep : ℤ) = z → watch ep = []) ?_ fun ep hE => hE ep rfl
    simp only [FdCall.apply, doSysEpollCreate1]
    split
    · exact .refl s
    refine .createSpecial hown _ _ fun _ o id halloc ep hep => ?_
    have hid : ep = id := by omega
    have hfree : (s.objs.special .epoll id).used = false := specialAllocObj_free halloc
    by_contra hne
    rw [hid] at hne
    rw [hlive id hne] at hfree
    simp at hfree
  | dupfd fd minfd cloexec => exact h.dupfd hown fd minfd cloexec
  | setfd fd cloexec => exact h.same (.doSysFcntlSetfd hown fd cloexec)
  | setfl fd arg => exact h.same (.doSysFcntlSetfl hown fd arg)
  | dup2 oldfd newfd window => exact h.dup2 hown window hok
  | dup3 oldfd newfd flags window =>
    simp only [FdCall.apply, doSysDup3]
    by_cases hbad : hasFlag flags (~~~linuxOCloexec) = true ∨ oldfd = newfd
    · rw [if_pos hbad]
      exact h
    rw [if_neg hbad]
    rw [not_or] at hbad
    have h2 : (doSysDup2 window s cur.pid oldfd newfd).1.Watched watch :=
      h.dup2 hown window (hok.resolve_left hbad.1)
    have hinv2 : FdInv False N 0 G (doSysDup2 window s cur.pid oldfd newfd).1 :=
      hinv.doSysDup2 hpos hN (fun hf => hf.elim) oldfd newfd
    generalize doSysDup2 window s cur.pid oldfd newfd = out at h2 hinv2 ⊢
    rcases out with ⟨s2, err | n⟩
    · exact h2
    dsimp only
    split_ifs
    · exact h2.same (.doSysFcntlSetfd hinv2.owned n true)
    · exact h2
  | close fd window => exact h.close window hok
  | ptyLock fd lock => exact h.same (.ioctlPtyLock hown fd lock)
  | execve loaded window =>
    refine h.execve window loaded fun hl => ?_
    rw [hl] at hok
    exact hok
  | release window => exact h.release window cur.pid

end FdState.Watched

end Calls

/-! ## The table of an object -/

section Table

variable {watch : List Watch} {op fd : ℤ} {ev : EpollEvent} {target : FdKind × ℤ × ℕ × Option ℕ × String}

theorem modify_eq_set {f : Watch → Watch} {i : ℕ} (hi : i < watch.length) :
    watch.modify i f = watch.set i (f watch[i]) := by
  apply ext_getElem
  · simp
  · intro j h1 h2
    rw [getElem_modify, getElem_set]
    split_ifs with hij
    · simp [hij]
    · rfl

/-- The four ways an `epoll_ctl` ends: with a new entry, with one changed, with one removed, or with
nothing changed. -/
theorem epollCtl_cases (watch : List Watch) (op fd : ℤ) (ev : EpollEvent)
    (target : FdKind × ℤ × ℕ × Option ℕ × String) :
    (op = linuxEpollCtlAdd ∧ lookup Watch.fd watch fd = none ∧ watch.length < edgeEpollMaxWatch ∧
      epollCtl watch op fd ev target = (watch ++ [⟨fd, ev, target⟩], .ok 0)) ∨
    (op = linuxEpollCtlMod ∧ ∃ (i : ℕ) (hi : i < watch.length), watch[i].fd = fd ∧
      epollCtl watch op fd ev target = (watch.set i ⟨fd, ev, watch[i].target⟩, .ok 0)) ∨
    (op = linuxEpollCtlDel ∧ ∃ (i : ℕ) (hi : i < watch.length), watch[i].fd = fd ∧
      epollCtl watch op fd ev target = (removeAt watch i, .ok 0)) ∨
    ∃ e, epollCtl watch op fd ev target = (watch, .error e) ∧
      (op = linuxEpollCtlAdd → lookup Watch.fd watch fd = none → edgeEpollMaxWatch ≤ watch.length) ∧
      (op = linuxEpollCtlMod ∨ op = linuxEpollCtlDel → lookup Watch.fd watch fd = none) ∧
      (e = .eexist → lookup Watch.fd watch fd ≠ none) := by
  have hnone : position Watch.fd watch fd = none ↔ lookup Watch.fd watch fd = none :=
    position_none
  unfold epollCtl
  cases hpos : position Watch.fd watch fd with
  | none =>
    have hl := hnone.mp hpos
    by_cases hadd : op = linuxEpollCtlAdd
    · by_cases hfull : edgeEpollMaxWatch ≤ watch.length
      · refine .inr (.inr (.inr ⟨.enomem, ?_, fun _ _ => hfull, fun _ => hl, by simp⟩))
        simp [hadd, hfull]
      · refine .inl ⟨hadd, hl, by omega, ?_⟩
        simp [hadd, hfull]
    refine .inr (.inr (.inr ?_))
    by_cases hmod : op = linuxEpollCtlMod
    · refine ⟨.enoent, ?_, fun h => absurd h hadd, fun _ => hl, by simp⟩
      rw [if_neg hadd, if_pos hmod]
    by_cases hdel : op = linuxEpollCtlDel
    · refine ⟨.enoent, ?_, fun h => absurd h hadd, fun _ => hl, by simp⟩
      rw [if_neg hadd, if_neg hmod, if_pos hdel]
    · refine ⟨.einval, ?_, fun h => absurd h hadd, fun _ => hl, by simp⟩
      rw [if_neg hadd, if_neg hmod, if_neg hdel]
  | some i =>
    obtain ⟨hi, hfd⟩ := position_some hpos
    have hl : lookup Watch.fd watch fd ≠ none := by
      intro hl
      rw [hnone.mpr hl] at hpos
      simp at hpos
    by_cases hadd : op = linuxEpollCtlAdd
    · refine .inr (.inr (.inr ⟨.eexist, by simp [hadd], fun _ h => absurd h hl, ?_, fun _ => hl⟩))
      rw [hadd]
      simp [linuxEpollCtlAdd, linuxEpollCtlMod, linuxEpollCtlDel]
    by_cases hmod : op = linuxEpollCtlMod
    · refine .inr (.inl ⟨hmod, i, hi, hfd, ?_⟩)
      rw [if_neg hadd, if_pos hmod]
      dsimp only
      rw [modify_eq_set hi, hfd]
    by_cases hdel : op = linuxEpollCtlDel
    · refine .inr (.inr (.inl ⟨hdel, i, hi, hfd, ?_⟩))
      rw [if_neg hadd, if_neg hmod, if_pos hdel]
    refine .inr (.inr (.inr ⟨.einval, ?_, fun h => absurd h hadd, ?_, by simp⟩))
    · rw [if_neg hadd, if_neg hmod, if_neg hdel]
    · rintro (h | h)
      · exact absurd h hmod
      · exact absurd h hdel

end Table

section Ctl

variable {s : FdState} {p : FdProcIdx} {ep : ℕ} {op fd : ℤ} {ev : EpollEvent} {watch : Watches}
variable {target : FdKind × ℤ × ℕ × Option ℕ × String}

theorem registered_none : watch.registered ep fd = none ↔ lookup Watch.fd (watch ep) fd = none := by
  unfold Watches.registered
  rw [Option.map_eq_none_iff]

/-- What is in the table afterwards was in it under the same number, or it is the new entry. -/
theorem epollCtl_mem {w : Watch} {l : List Watch} (hw : w ∈ (epollCtl l op fd ev target).1) :
    (∃ v ∈ l, v.fd = w.fd ∧ v.target = w.target) ∨
      op = linuxEpollCtlAdd ∧ lookup Watch.fd l fd = none ∧ w = ⟨fd, ev, target⟩ := by
  rcases epollCtl_cases l op fd ev target with ⟨hop, hl, -, heq⟩ | ⟨-, i, hi, hfd, heq⟩ |
    ⟨-, i, hi, -, heq⟩ | ⟨e, heq, -⟩
  · rw [heq] at hw
    rcases mem_append.mp hw with hw | hw
    · exact .inl ⟨w, hw, rfl, rfl⟩
    · exact .inr ⟨hop, hl, mem_singleton.mp hw⟩
  · rw [heq] at hw
    rcases mem_or_eq_of_mem_set hw with hw | rfl
    · exact .inl ⟨w, hw, rfl, rfl⟩
    · exact .inl ⟨l[i], getElem_mem hi, hfd, rfl⟩
  · rw [heq] at hw
    exact .inl ⟨w, removeAt_subset hi hw, rfl, rfl⟩
  · rw [heq] at hw
    exact .inl ⟨w, hw, rfl, rfl⟩

theorem epollCtl_distinct {l : List Watch} (hd : SlotTable.Distinct Watch.fd l) :
    SlotTable.Distinct Watch.fd (epollCtl l op fd ev target).1 := by
  rcases epollCtl_cases l op fd ev target with ⟨-, hl, -, heq⟩ | ⟨-, i, hi, hfd, heq⟩ | ⟨-, i, hi, -, heq⟩ |
    ⟨e, heq, -⟩
  · rw [heq]
    exact hd.snoc hl
  · rw [heq]
    exact hd.set hi hfd.symm
  · rw [heq]
    exact hd.removeAt hi
  · rw [heq]
    exact hd

/-- On a table without doubles `epoll_ctl` works as on a map, where a descriptor that is added is open
and has room, and what is registered under its number is this descriptor. -/
theorem epollCtl_follows (hd : SlotTable.Distinct Watch.fd (watch ep))
    (hroom : op = linuxEpollCtlAdd → watch.registered ep fd = none →
      (watch ep).length < edgeEpollMaxWatch ∧ (fdGet s p fd).isSome = true)
    (hheld : ∀ w ∈ watch ep, s.Holds p w) :
    EpollSys.CtlFollows s p ep op fd ev watch (update watch ep (epollCtl (watch ep) op fd ev target).1)
      (epollCtl (watch ep) op fd ev target).2 := by
  have hreg : ∀ l : List Watch, (Watches.registered (update watch ep l) ep) =
      fun fd => (lookup Watch.fd l fd).map Watch.ev := by
    intro l
    funext fd
    unfold Watches.registered
    rw [update_self]
  have hmap : ∀ (l : List Watch) (o : Option Watch),
      lookup Watch.fd l = update (lookup Watch.fd (watch ep)) fd o →
        Watches.registered (update watch ep l) ep = update (watch.registered ep) fd (o.map Watch.ev) := by
    intro l o hl
    rw [hreg, hl]
    funext fd'
    by_cases hfd : fd' = fd
    · rw [hfd, update_self, update_self]
    · rw [update_of_ne hfd, update_of_ne hfd]
      rfl
  have hothers : ∀ l : List Watch, ∀ ep', ep' ≠ ep → update watch ep l ep' = watch ep' :=
    fun l ep' hne => update_of_ne hne _ _
  rw [registered_none] at hroom
  rcases epollCtl_cases (watch ep) op fd ev target with ⟨hop, hl, hlen, heq⟩ | ⟨hop, i, hi, hfd, heq⟩ |
    ⟨hop, i, hi, hfd, heq⟩ | ⟨e, heq, hadd, hchange, hexist⟩
  · rw [heq]
    dsimp only
    refine ⟨fun _ => ?_, fun hor => ?_, ?_, hothers _, fun _ hr => by simp at hr⟩
    · rw [registered_none]
      exact iff_of_true rfl ⟨(hroom hop hl).2, hl⟩
    · rcases hor with h | h
      · exact absurd (hop.symm.trans h) (by decide)
      · exact absurd (hop.symm.trans h) (by decide)
    · rw [if_pos rfl, if_neg (by rw [hop]; decide)]
      exact hmap _ (some ⟨fd, ev, target⟩) (lookup_snoc hl)
  · have hsome : lookup Watch.fd (watch ep) fd = some (watch ep)[i] :=
      hd.lookup_iff.mpr ⟨getElem_mem hi, hfd⟩
    rw [heq]
    dsimp only
    refine ⟨fun h => ?_, fun _ => ?_, ?_, hothers _, fun _ hr => by simp at hr⟩
    · exact absurd (hop.symm.trans h) (by decide)
    · rw [ne_eq, registered_none, hsome]
      simp
    · rw [if_pos rfl, if_neg (by rw [hop]; decide)]
      exact hmap _ (some ⟨fd, ev, (watch ep)[i].target⟩) (hd.lookup_set hi hfd.symm)
  · have hsome : lookup Watch.fd (watch ep) fd = some (watch ep)[i] :=
      hd.lookup_iff.mpr ⟨getElem_mem hi, hfd⟩
    rw [heq]
    dsimp only
    refine ⟨fun h => ?_, fun _ => ?_, ?_, hothers _, fun _ hr => by simp at hr⟩
    · exact absurd (hop.symm.trans h) (by decide)
    · rw [ne_eq, registered_none, hsome]
      simp
    · rw [if_pos rfl, if_pos hop]
      refine hmap _ none ?_
      rw [hd.lookup_removeAt hi, hfd]
  · rw [heq]
    dsimp only
    have hne : (.error e : Except Errno ℕ) ≠ .ok 0 := by simp
    refine ⟨fun h => ?_, fun h => ?_, ?_, hothers _, fun hop hr => ?_⟩
    · rw [registered_none]
      refine iff_of_false hne fun ⟨_, hl⟩ => ?_
      have hfull := hadd h hl
      have hlen := (hroom h hl).1
      omega
    · rw [ne_eq, registered_none]
      exact iff_of_false hne (not_not.mpr (hchange h))
    · rw [if_neg hne, update_eq_self]
    · obtain ⟨w, hw⟩ := Option.ne_none_iff_exists'.mp (hexist (Except.error.inj hr))
      obtain ⟨hmem, hwfd⟩ := lookup_mem hw
      obtain ⟨i, hi, hh⟩ := hheld w hmem
      obtain ⟨hu, ho⟩ := held_some.mp hh
      exact ⟨w, hmem, hwfd, i, fdGet_iff.mpr ⟨hi.trans hwfd, hu⟩, ho⟩

end Ctl

/-! ## Events -/

section Events

variable {s : FdState} {p : FdProcIdx} {ep : ℕ}

/-- A report is of a watch, and of the descriptor that has its number. -/
theorem epollScan_mem {revents : FdIdx → BitVec 16 → BitVec 16} {r : EpollReport} (n : ℕ) (l : List Watch)
    (hr : r ∈ epollScan s p revents n l) : r.watch ∈ l ∧ fdGet s p r.watch.fd = some r.at_ := by
  induction l generalizing n with
  | nil =>
    cases n <;> simp [epollScan] at hr
  | cons w ws ih =>
    cases n with
    | zero => simp [epollScan] at hr
    | succ n =>
      unfold epollScan at hr
      split at hr
      · have hrest := ih _ hr
        exact ⟨mem_cons_of_mem w hrest.1, hrest.2⟩
      rename_i i hi
      dsimp only at hr
      split_ifs at hr
      · have hrest := ih _ hr
        exact ⟨mem_cons_of_mem w hrest.1, hrest.2⟩
      · rcases mem_cons.mp hr with rfl | hr
        · exact ⟨mem_cons_self, hi⟩
        · have hrest := ih _ hr
          exact ⟨mem_cons_of_mem w hrest.1, hrest.2⟩

theorem fdProcWithStdio_objs {s0 : FdState} {pid : ℤ} {r : Option FdProcIdx} (h : fdProcWithStdio s0 pid = (s, r)) :
    s.objs = s0.objs := by
  have hensure : ∀ (t : FdState) (q : FdProcIdx), (fdEnsureStdio t q).objs = t.objs :=
    fun t q => (fdEnsureStdio_frame rfl).2.2
  unfold fdProcWithStdio fdProcForPid at h
  split at h
  · rename_i s1 q hq
    obtain ⟨rfl, -⟩ := Prod.mk.inj h
    rw [hensure]
    split at hq
    · rw [← (Prod.mk.inj hq).1]
    split at hq
    · simp at hq
    · rw [← (Prod.mk.inj hq).1, hensure]
      rfl
  · rename_i s1 hq
    obtain ⟨rfl, -⟩ := Prod.mk.inj h
    split at hq
    · simp at hq
    split at hq
    · rw [← (Prod.mk.inj hq).1]
    · simp at hq

theorem epollAt_some {o : Objects} {id : ℤ} (h : epollAt o id = some ep) :
    id = ep ∧ (o.special .epoll ep).used = true := by
  obtain ⟨hi, hu⟩ := Option.filter_eq_some_iff.mp h
  exact ⟨(tableIndex_some hi).1, hu⟩

theorem epollEntry_fst (s : FdState) (pid epfd : ℤ) : (epollEntry s pid epfd).1 = (fdProcWithStdio s pid).1 := by
  unfold epollEntry
  rcases fdProcWithStdio s pid with ⟨s1, _ | p⟩
  · rfl
  · dsimp only
    split <;> rfl

theorem epollEntry_some {s0 : FdState} {pid epfd id : ℤ} (h : epollEntry s0 pid epfd = (s, some (p, id))) :
    fdProcWithStdio s0 pid = (s, some p) ∧ ∃ i o, (s.fds (p, i)).held = some o ∧ o.1 = .epoll ∧ o.2.1 = id := by
  unfold epollEntry at h
  rcases hf : fdProcWithStdio s0 pid with ⟨s1, _ | q⟩
  · rw [hf] at h
    simp at h
  rw [hf] at h
  dsimp only at h
  cases hg : fdGet s1 q epfd with
  | none =>
    rw [hg] at h
    simp at h
  | some i =>
    rw [hg] at h
    dsimp only at h
    split_ifs at h with hk
    · obtain ⟨rfl, heq⟩ := Prod.mk.inj h
      obtain ⟨rfl, rfl⟩ := Prod.mk.inj (Option.some.inj heq)
      exact ⟨rfl, i, (s1.fds (q, i)).object, held_some.mpr ⟨(fdGet_iff.mp hg).2, rfl⟩, hk, rfl⟩
    · simp at h

namespace EpollSys

variable {L : KernelLayout} {k : EpollSys} {epfd : ℤ}

theorem target_fst (k : EpollSys) (epfd : ℤ) : (k.target epfd).1 = (fdProcWithStdio k.procs.fds k.procs.pid).1 := by
  unfold target
  rw [← epollEntry_fst k.procs.fds k.procs.pid epfd]
  split
  · rename_i h
    rw [h]
  · rename_i h
    rw [h]

/-- The object that a call finds is one that its process has, and it is there. -/
theorem target_some (h : k.target epfd = (s, some (p, ep))) :
    epollEntry k.procs.fds k.procs.pid epfd = (s, some (p, (ep : ℤ))) ∧ epollAt s.objs ep = some ep ∧
      s.EpollAt p ep ∧ (s.objs.special .epoll ep).used = true := by
  unfold target at h
  split at h
  · simp at h
  rename_i s1 q id he
  obtain ⟨rfl, heq⟩ := Prod.mk.inj h
  obtain ⟨ep', hep, hpair⟩ := Option.map_eq_some_iff.mp heq
  obtain ⟨rfl, rfl⟩ := Prod.mk.inj hpair
  obtain ⟨rfl, hu⟩ := epollAt_some hep
  obtain ⟨-, hat⟩ := epollEntry_some he
  exact ⟨he, hep, hat, hu⟩

theorem doSysEpollCtl_past {watch : Watches} {op fd : ℤ} {ev : Option (Option EpollEvent)} {event : EpollEvent}
    (ht : k.target epfd = (s, some (p, ep))) (hfd : 0 ≤ fd) (hne : fd ≠ epfd)
    (hev : (if op = linuxEpollCtlDel then some (some {}) else ev) = some (some event)) :
    doSysEpollCtl k.procs.fds watch k.procs.pid epfd op fd ev =
      (s, update watch ep (epollCtl (watch ep) op fd event (objectAt s p fd)).1,
        (epollCtl (watch ep) op fd event (objectAt s p fd)).2) := by
  obtain ⟨he, hep, -, -⟩ := target_some ht
  unfold doSysEpollCtl
  rw [he]
  dsimp only
  rw [hep]
  dsimp only
  rw [if_neg (by omega), hev]

/-- It changes nothing but the table where it does not get past them. -/
theorem doSysEpollCtl_cases (k : EpollSys) (epfd : ℤ) (watch : Watches) (op fd : ℤ) (ev : Option (Option EpollEvent)) :
    (∃ e, doSysEpollCtl k.procs.fds watch k.procs.pid epfd op fd ev = ((k.target epfd).1, watch, .error e)) ∨
      ∃ s p ep event, k.target epfd = (s, some (p, ep)) ∧ 0 ≤ fd ∧ fd ≠ epfd ∧
        (if op = linuxEpollCtlDel then some (some {}) else ev) = some (some event) := by
  unfold doSysEpollCtl target
  rcases epollEntry k.procs.fds k.procs.pid epfd with ⟨s, _ | ⟨p, id⟩⟩
  · exact .inl ⟨_, rfl⟩
  dsimp only
  rcases epollAt s.objs id with _ | ep
  · exact .inl ⟨_, rfl⟩
  dsimp only
  by_cases hfd : fd < 0 ∨ fd = epfd
  · rw [if_pos hfd]
    exact .inl ⟨_, rfl⟩
  rw [if_neg hfd]
  rw [not_or] at hfd
  generalize (if op = linuxEpollCtlDel then some (some {}) else ev) = given
  rcases given with _ | _ | event
  · exact .inl ⟨_, rfl⟩
  · exact .inl ⟨_, rfl⟩
  · exact .inr ⟨s, p, ep, event, rfl, by omega, hfd.2, rfl⟩

theorem doSysEpollWait_fst (watch : Watches) (null : Bool) (maxevents : ℤ)
    (revents : FdIdx → BitVec 16 → BitVec 16) (copied expired interrupted : Bool) :
    (doSysEpollWait k.procs.fds watch k.procs.pid epfd null maxevents revents copied expired interrupted).1 =
      (fdProcWithStdio k.procs.fds k.procs.pid).1 := by
  rw [← epollEntry_fst k.procs.fds k.procs.pid epfd]
  unfold doSysEpollWait
  rcases epollEntry k.procs.fds k.procs.pid epfd with ⟨s, _ | ⟨p, id⟩⟩
  · rfl
  dsimp only
  split
  · rfl
  · split <;> rfl

/-- What `epoll_wait` reports it has found in its scan of the watches. -/
theorem doSysEpollWait_ready {watch : Watches} {null : Bool} {maxevents : ℤ}
    {revents : FdIdx → BitVec 16 → BitVec 16} {copied expired interrupted : Bool} {reports : List EpollReport}
    (ht : k.target epfd = (s, some (p, ep)))
    (h : (doSysEpollWait k.procs.fds watch k.procs.pid epfd null maxevents revents copied expired
      interrupted).2 = .ready reports copied) : ∃ n, reports = epollScan s p revents n (watch ep) := by
  obtain ⟨he, hep, -, -⟩ := target_some ht
  unfold doSysEpollWait at h
  rw [he] at h
  dsimp only at h
  by_cases harg : null = true ∨ maxevents ≤ 0
  · rw [if_pos harg] at h
    simp at h
  rw [if_neg harg, hep] at h
  dsimp only at h
  split_ifs at h
  exact ⟨_, (EpollEnd.ready.inj h).1.symm⟩

/-! ## Runs -/

/-- Nothing is registered with an object that does not exist. -/
structure WatchesExist (k : EpollSys) : Prop where
  acc : k.procs.Accounted
  distinct : ∀ ep, SlotTable.Distinct Watch.fd (k.watch ep)
  watched : k.procs.fds.Watched k.watch
  live : ∀ ep, k.watch ep ≠ [] → (k.procs.fds.objs.special .epoll ep).used = true

theorem WatchesExist.coherent (h : k.WatchesExist) : k.Coherent := ⟨h.distinct, h.watched⟩

/-- An event on processes and descriptors after which everything registered is still what it was. -/
theorem WatchesExist.sweep (h : k.WatchesExist) {procs : ProcFds} (hacc : procs.Accounted) (hw : procs.fds.Watched k.watch) :
    WatchesExist ⟨procs, k.watch.sweep procs.fds.objs⟩ where
  acc := hacc
  distinct := by
    intro ep
    show SlotTable.Distinct Watch.fd (if _ then _ else _)
    split_ifs
    · exact h.distinct ep
    · exact nodup_nil
  watched := by
    refine hw.sub fun ep w hmem => ?_
    change w ∈ (if _ then _ else _) at hmem
    split_ifs at hmem
    · exact hmem
    · simp at hmem
  live := by
    intro ep hne
    by_contra hu
    exact hne (if_neg hu)

theorem WatchesExist.entered (h : k.WatchesExist) (hpid : k.procs.hasPid = true) :
    WatchesExist { k with procs := { k.procs with fds := (fdProcWithStdio k.procs.fds k.procs.pid).1 } } := by
  obtain ⟨hpos, hN⟩ := hasPid_bounds hpid
  obtain ⟨G, hG⟩ := h.acc.acc
  rcases hf : fdProcWithStdio k.procs.fds k.procs.pid with ⟨s, r⟩
  obtain ⟨hinv, -⟩ := hG.fdProcWithStdio hpos hN hf
  refine ⟨h.acc.of_sys le_rfl ⟨G, hinv⟩, h.distinct, h.watched.same (fdProcWithStdio_adds hG.owned hf), ?_⟩
  intro ep hne
  have hobjs := fdProcWithStdio_objs hf
  dsimp only
  rw [hobjs]
  exact h.live ep hne

theorem WatchesExist.ctl (h : k.WatchesExist) {op fd : ℤ} {event : EpollEvent} (ht : k.target epfd = (s, some (p, ep)))
    (hpid : k.procs.hasPid = true) (hnew : op = linuxEpollCtlAdd → k.watch.registered ep fd = none →
      ∀ q, s.EpollAt q ep → s.Holds q ⟨fd, event, objectAt s p fd⟩) :
    WatchesExist ⟨{ k.procs with fds := s }, update k.watch ep (epollCtl (k.watch ep) op fd event (objectAt s p fd)).1⟩ := by
  have hs : (fdProcWithStdio k.procs.fds k.procs.pid).1 = s := by
    rw [← target_fst k epfd, ht]
  have h1 := h.entered hpid
  rw [hs] at h1
  obtain ⟨-, -, hat, hu⟩ := target_some ht
  refine ⟨h1.acc, fun ep' => ?_, fun q ep' hq w hw => ?_, fun ep' hne => ?_⟩
  · by_cases hep : ep' = ep
    · subst hep
      dsimp only
      rw [update_self]
      exact epollCtl_distinct (h.distinct ep')
    · dsimp only
      rw [update_of_ne hep]
      exact h.distinct ep'
  · by_cases hep : ep' = ep
    · subst hep
      dsimp only at hw
      rw [update_self] at hw
      rcases epollCtl_mem hw with ⟨v, hv, hfd, htarget⟩ | ⟨hop, hl, rfl⟩
      · obtain ⟨i, hi, hh⟩ := h1.watched q ep' hq v hv
        exact ⟨i, hi.trans hfd, by rw [← htarget]; exact hh⟩
      · exact hnew hop (registered_none.mpr hl) q hq
    · dsimp only at hw
      rw [update_of_ne hep] at hw
      exact h1.watched q ep' hq w hw
  · by_cases hep : ep' = ep
    · subst hep
      exact hu
    · dsimp only at hne
      rw [update_of_ne hep] at hne
      exact h1.live ep' hne

theorem watched_reap {k : ProcFds} {watch : Watches} (h : k.fds.Watched watch) (e : ProcEvent)
    (window : ℕ → List ℕ) : (k.reapFds e window).Watched watch := by
  unfold reapFds
  split
  · exact h.release window _
  · exact h

theorem WatchesExist.procs (h : k.WatchesExist) (e : ProcFdEvent) (hok : k.Sound (.procs e)) : (k.step L (.procs e)).WatchesExist := by
  apply h.sweep (h.acc.act e)
  obtain ⟨G, hG⟩ := h.acc.acc
  unfold ProcFds.act
  by_cases hact : e.isOwn = true ∧ (!k.procs.hasPid) = true
  · rw [if_pos hact]
    exact h.watched
  rw [if_neg hact]
  cases e with
  | call cur c =>
    have hpid : k.procs.hasPid = true := by simpa [ProcFdEvent.isOwn] using hact
    obtain ⟨hpos, hN⟩ := ProcFds.hasPid_bounds hpid
    dsimp only [ProcFds.step]
    by_cases hown : k.procs.sys.free = true ∧ cur.pid = k.procs.pid
    swap
    · rw [if_neg hown]
      exact h.watched
    rw [if_pos hown]
    have hcall : (c.apply k.procs.fds cur).Watched k.watch :=
      h.watched.call hG h.live (by omega) (by omega) c hok
    cases c with
    | release window => exact h.watched
    | execve loaded window => cases loaded <;> exact hcall
    | _ => exact hcall
  | transfer fd op interrupted =>
    dsimp only [ProcFds.step]
    split_ifs
    · obtain ⟨s1, htab, hres⟩ := op.perform_cases k.procs.fds k.procs.pid fd interrupted
      have h1 : s1.Watched k.watch := by
        rcases htab with rfl | ⟨q, hq⟩
        · exact h.watched
        · exact h.watched.same (fdProcWithStdio_adds hG.owned hq)
      rcases hres with heq | ⟨j, x, -, -, -, -, heq⟩
      · rw [heq]
        exact h1
      · rw [heq]
        exact h1.of_fds rfl
    · exact h.watched
  | fork tf cbs =>
    have hpid : k.procs.hasPid = true := by simpa [ProcFdEvent.isOwn] using hact
    obtain ⟨hpos, hN⟩ := ProcFds.hasPid_bounds hpid
    dsimp only [ProcFds.step]
    split_ifs
    · have hfork := processFork_pid L k.procs.sys.proc (some tf)
      unfold ProcFds.doSysFork
      generalize processFork L k.procs.sys.proc (some tf) = out at hfork ⊢
      obtain ⟨proc, child⟩ := out
      dsimp only at hfork ⊢
      split_ifs with hchild
      · rcases hfork with hnone | ⟨hnext, -⟩
        · have := (Prod.mk.inj hnone).2
          omega
        · rw [hnext]
          exact h.watched.fork hG (by omega) hpos cbs
      · exact h.watched
    · exact h.watched
  | exit code window =>
    dsimp only [ProcFds.step]
    split_ifs
    · exact h.watched.release window _
    · exact h.watched
  | fault code =>
    dsimp only [ProcFds.step]
    split_ifs <;> exact h.watched
  | wait w nohang window => exact watched_reap h.watched _ window
  | resumeWait window => exact watched_reap h.watched _ window
  | other e =>
    dsimp only [ProcFds.step]
    split_ifs <;> exact h.watched
  | acceptCb l => exact h.watched.of_fds rfl

theorem ready_hasPid (h : k.ready = true) : k.procs.hasPid = true := by
  unfold ready at h
  simp only [Bool.and_eq_true] at h
  exact h.2

theorem WatchesExist.step (h : k.WatchesExist) (e : EpollSysEvent) (hok : k.Sound e) : (k.step L e).WatchesExist := by
  cases e with
  | procs e => exact h.procs e hok
  | ctl epfd op fd ev =>
    unfold EpollSys.step
    dsimp only
    split_ifs with hready
    swap
    · exact h
    have hpid := ready_hasPid hready
    rcases doSysEpollCtl_cases k epfd k.watch op fd ev with
      ⟨err, heq⟩ | ⟨s, p, ep, event, ht, hfd, hne, hev⟩
    · rw [heq]
      have hentered := h.entered hpid
      rw [← target_fst k epfd] at hentered
      exact hentered
    · rw [doSysEpollCtl_past ht hfd hne hev]
      refine h.ctl ht hpid fun hop hreg => ?_
      rw [if_neg (by rw [hop]; decide)] at hev
      exact (hok s p ep event ht hop hfd hne hev hreg).2
  | wait epfd null maxevents revents copied expired interrupted =>
    unfold EpollSys.step
    dsimp only
    split_ifs with hready
    · rw [doSysEpollWait_fst]
      exact h.entered (ready_hasPid hready)
    · exact h

theorem WatchesExist.follows (h : k.WatchesExist) (e : EpollSysEvent) (hok : k.Sound e) : k.Follows L e := by
  refine ⟨(h.step e hok).coherent, ?_⟩
  cases e with
  | procs e => trivial
  | ctl epfd op fd ev =>
    intro hready s p ep event ht hfd hne hev
    have hstep : (k.step L (.ctl epfd op fd ev)).watch =
        (doSysEpollCtl k.procs.fds k.watch k.procs.pid epfd op fd ev).2.1 := by
      unfold EpollSys.step
      dsimp only
      rw [if_pos hready]
    rw [hstep]
    obtain ⟨-, -, hat, -⟩ := target_some ht
    rw [doSysEpollCtl_past ht hfd hne hev]
    have hs : (fdProcWithStdio k.procs.fds k.procs.pid).1 = s := by
      rw [← target_fst k epfd, ht]
    have h1 := h.entered (ready_hasPid hready)
    rw [hs] at h1
    refine epollCtl_follows (h.distinct ep) (fun hop hreg => ?_) (h1.watched p ep hat)
    rw [if_neg (by rw [hop]; decide)] at hev
    obtain ⟨hlen, hall⟩ := hok s p ep event ht hop hfd hne hev hreg
    obtain ⟨i, hi, hh⟩ := hall p hat
    rw [fdGet_iff.mpr ⟨hi, (held_some.mp hh).1⟩]
    exact ⟨hlen, rfl⟩
  | wait epfd null maxevents revents copied expired interrupted =>
    intro hready s p ep reports ht hend r hr
    obtain ⟨n, rfl⟩ := doSysEpollWait_ready ht hend
    obtain ⟨hmem, hg⟩ := epollScan_mem n _ hr
    refine ⟨hmem, ?_⟩
    obtain ⟨-, -, hat, -⟩ := target_some ht
    have hs : (fdProcWithStdio k.procs.fds k.procs.pid).1 = s := by
      rw [← target_fst k epfd, ht]
    have h1 := h.entered (ready_hasPid hready)
    rw [hs] at h1
    obtain ⟨i, hi, hh⟩ := h1.watched p ep hat r.watch hmem
    obtain ⟨hval, -⟩ := fdGet_iff.mp hg
    rw [show r.at_ = i from Fin.ext (by omega)]
    exact hh

theorem boot_inv (L : KernelLayout) : (boot L).WatchesExist where
  acc := accounted_boot L
  distinct := fun _ => nodup_nil
  watched := fun _ _ _ _ hw => absurd hw not_mem_nil
  live := fun _ hne => absurd rfl hne

/-- As long as no process gives up a registered number and keeps the epoll object, registrations follow
the descriptors. -/
theorem watches_follow (L : KernelLayout) (es : List EpollSysEvent)
    (hes : Meets (step L) (fun k e => k.Sound e) (boot L) es) :
    Meets (step L) (fun k e => k.Follows L e) (boot L) es := by
  have hstep : ∀ (k : EpollSys) e, k.WatchesExist → k.Sound e → (k.step L e).WatchesExist := fun _ e h hok => h.step e hok
  have hout : ∀ (k : EpollSys) e, k.WatchesExist → k.Sound e → k.Follows L e := fun _ e h hok => h.follows e hok
  exact meets_of_invariant hstep hout (boot_inv L) hes

/-- init registers an event counter with an epoll object and waits for it. -/
def waitForCounter : List EpollSysEvent :=
  [.procs (.call { pid := 1 } (.eventfd2 0)), .procs (.call { pid := 1 } (.epollCreate1 0)),
    .ctl 4 linuxEpollCtlAdd 3 (some (some ⟨linuxEpollin, 7⟩)),
    .wait 4 false 8 (fun _ _ => linuxPollin) true false false]

theorem waitForCounter_follows : Meets (step layout0) (fun k e => k.Sound e) (boot layout0) waitForCounter ∧
      Meets (step layout0) (fun k e => k.Follows layout0 e) (boot layout0) waitForCounter := by
  have hes : Meets (step layout0) (fun k e => k.Sound e) (boot layout0) waitForCounter := by
    refine ⟨trivial, trivial, ?_, trivial, trivial⟩
    have hinv : WatchesExist (run (step layout0) (boot layout0) (waitForCounter.take 2)) :=
      ((boot_inv layout0).step (.procs (.call { pid := 1 } (.eventfd2 0))) trivial).step
        (.procs (.call { pid := 1 } (.epollCreate1 0))) trivial
    have htarget : ((run (step layout0) (boot layout0) (waitForCounter.take 2)).target 4).2 = some (0, 0) := by
      decide +kernel
    have hempty : (run (step layout0) (boot layout0) (waitForCounter.take 2)).watch 0 = [] := by
      decide +kernel
    have htables : ∀ q : FdProcIdx, q ≠ 0 →
        ((run (step layout0) (boot layout0) (waitForCounter.take 2)).target 4).1.procPid q = 0 := by
      decide +kernel
    have hheld : (((run (step layout0) (boot layout0) (waitForCounter.take 2)).target 4).1.fds (0, 3)).held =
        some (objectAt ((run (step layout0) (boot layout0) (waitForCounter.take 2)).target 4).1 0 3) := by
      decide +kernel
    have hpid : (run (step layout0) (boot layout0) (waitForCounter.take 2)).procs.hasPid = true := by
      decide +kernel
    change Sound (run (step layout0) (boot layout0) (waitForCounter.take 2)) _
    generalize run (step layout0) (boot layout0) (waitForCounter.take 2) = k at *
    intro s p ep event ht _ _ _ _ _
    rw [ht] at htarget htables hheld
    obtain ⟨rfl, rfl⟩ := Prod.mk.inj (Option.some.inj htarget)
    rw [hempty]
    refine ⟨by decide, fun q hq => ?_⟩
    obtain ⟨i, o, hi, -, -⟩ := hq
    have hs : (fdProcWithStdio k.procs.fds k.procs.pid).1 = s := by
      rw [← target_fst k 4, ht]
    have hown := (hinv.entered hpid).acc.owned
    rw [hs] at hown
    have hq : q = 0 := by
      by_contra hne
      have hfree := hown (q, i) (htables q hne)
      rw [(held_some.mp hi).1] at hfree
      simp at hfree
    rw [hq]
    exact ⟨3, rfl, hheld⟩
  exact ⟨hes, watches_follow layout0 waitForCounter hes⟩

/-- init registers an event counter, closes it and opens a timer, which gets its number. -/
def counterToTimer : List EpollSysEvent :=
  [.procs (.call { pid := 1 } (.eventfd2 0)), .procs (.call { pid := 1 } (.epollCreate1 0)),
    .ctl 4 linuxEpollCtlAdd 3 (some (some ⟨linuxEpollin, 7⟩)),
    .procs (.call { pid := 1 } (.close 3 fun _ => [])),
    .procs (.call { pid := 1 } (.timerfdCreate 1 0))]

/-- The timer cannot be added: its number is still registered, for the counter that was closed. -/
theorem timer_exists_already : ¬ ∀ (L : KernelLayout) (es : List EpollSysEvent),
    Meets (step L) (fun k e => k.Follows L e) (boot L) es := by
  intro h
  let add : EpollSysEvent := .ctl 4 linuxEpollCtlAdd 3 (some (some ⟨linuxEpollin, 8⟩))
  have hfollows := (meets_append.mp (h layout0 (counterToTimer ++ [add]))).2.1
  have hready : (run (step layout0) (boot layout0) counterToTimer).ready = true := by decide +kernel
  have htarget : ((run (step layout0) (boot layout0) counterToTimer).target 4).2 = some (0, 0) := by
    decide +kernel
  have hobject : ∀ w ∈ (run (step layout0) (boot layout0) counterToTimer).watch 0,
      w.target ≠ objectAt ((run (step layout0) (boot layout0) counterToTimer).target 4).1 0 3 := by
    decide +kernel
  have hexist : (doSysEpollCtl (run (step layout0) (boot layout0) counterToTimer).procs.fds
      (run (step layout0) (boot layout0) counterToTimer).watch
      (run (step layout0) (boot layout0) counterToTimer).procs.pid 4 linuxEpollCtlAdd 3
      (some (some ⟨linuxEpollin, 8⟩))).2.2 = .error .eexist := by
    decide +kernel
  generalize run (step layout0) (boot layout0) counterToTimer = k at *
  rcases ht : k.target 4 with ⟨s, r⟩
  rw [ht] at htarget hobject
  obtain rfl : r = some (0, 0) := htarget
  have hctl := hfollows.2 hready s 0 0 _ ht (by decide) (by decide) rfl
  obtain ⟨w, hw, -, i, hi, hobj⟩ := hctl.present rfl hexist
  refine hobject w hw ?_
  unfold objectAt
  rw [hi]
  exact hobj.symm

end EpollSys

end Events

end EdgeOS
