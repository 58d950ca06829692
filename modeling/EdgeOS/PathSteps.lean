import EdgeOS.SocketSteps

namespace EdgeOS

open Lib Function

/-!
Opening paths, and fork. Two paths lose file references: `/dev/tty` without a usable terminal,
and every fork that gets a descriptor table for the child.
-/

variable {R : Prop} {N : ℤ} {F : Holders} {G : ℕ → ℕ} {s s' : FdState}
variable {p : FdProcIdx} {i : FdIdx} {pid : ℤ}

def TtyReady (o : Objects) (cur : Caller) : Prop :=
  cur.cttyKind = 1 ∨ cur.cttyKind = 2 ∧ ∃ j, tableIndex edgeMaxPtys cur.cttyId = some j ∧ (o.ptys j).used = true

namespace FdInv

/-- The controlling terminal goes into a descriptor that has file reference `j`; without a
usable terminal the reference is lost. -/
theorem attachTty {e : FdEntry} {j : ℕ} (h : FdInv R N F (G + oneAt j) s) (hp : s.procPid p ≠ 0)
    (hb : (s.fds (p, i)).Blank) (hu : e.used = true) (hr : e.fileRef = j) (cur : Caller) :
    ∃ G', FdInv R N F G' (EdgeOS.attachTty (s.setFd p i e) p i cur).1 ∧ (TtyReady s.objs cur → G' = G) := by
  have hself : (s.setFd p i e).fds (p, i) = e := update_self ..
  -- Whatever is written next replaces the descriptor.
  have hset : ∀ e', (s.setFd p i e).setFd p i e' = s.setFd p i e' := by
    intro e'
    unfold FdState.setFd
    simp only [update_idem]
  have hlost : FdInv R N F (G + oneAt j) (s.setFd p i {}) := h.clearBlank hb
  unfold EdgeOS.attachTty
  dsimp only
  rw [hself]
  simp only [hset]
  split_ifs with hcon hpty
  · refine ⟨G, ?_, fun _ => rfl⟩
    refine h.installPlain hp hb ?_ ?_ ?_ ?_
    · exact hu
    · rfl
    · exact hr
    · exact .of_plain rfl (by simp)
  · split
    · rename_i hid
      refine ⟨_, hlost, fun hready => ?_⟩
      rcases hready with h1 | ⟨-, l, hl, -⟩
      · exact absurd h1 hcon
      · rw [hl] at hid
        simp at hid
    rename_i l hl
    obtain ⟨-, hlt⟩ := tableIndex_some hl
    split_ifs with hunused
    · refine ⟨_, hlost, fun hready => ?_⟩
      rcases hready with h1 | ⟨-, l', hl', hu'⟩
      · exact absurd h1 hcon
      rw [hl] at hl'
      obtain rfl := Option.some.inj hl'
      change (!(s.objs.ptys l).used) = true at hunused
      rw [hu'] at hunused
      simp at hunused
    refine ⟨G, ?_, fun _ => rfl⟩
    have hadd : FdInv R N (F + oneRef .ptySlave l) (G + oneAt j)
        { s with objs := ptyAddRef s.objs l false } := by
      refine h.setObjs fun ho => ?_
      rw [← add_assoc]
      refine ho.addPty false (ho.pty_counts ?_).2.2
      change ¬ (!(s.objs.ptys l).used) = true at hunused
      simpa using hunused
    exact hadd.install hp hb hu rfl (Int.toNat_natCast l) hr (.of_counted rfl (Int.natCast_nonneg l))
  · refine ⟨_, hlost, fun hready => ?_⟩
    rcases hready with h1 | ⟨h2, -⟩
    · exact absurd h1 hcon
    · exact absurd h2 hpty

/-- `/dev/tty`. A file reference is lost when there is no usable terminal, unless the call has
failed before it took one. -/
theorem openTty (h : FdInv R N F G s) (hp : s.procPid p ≠ 0) (cur : Caller) (flags : BitVec 32) :
    ∃ G', FdInv R N F G' (EdgeOS.openTty s p cur flags).1 ∧
      (TtyReady s.objs cur ∨ (EdgeOS.fdAlloc s p 0).2 = none ∨ (fileRefAlloc s).2 = 0 → G' = G) := by
  unfold EdgeOS.openTty
  split
  · rename_i ha
    rw [fdAlloc_none ha]
    exact ⟨G, h, fun _ => rfl⟩
  rename_i s1 i ha
  obtain ⟨h1, hb, ho1, hpid, -⟩ := h.fdAlloc hp ha
  have href1 : (fileRefAlloc s).2 = (fileRefAlloc s1).2 := by
    rw [(fdAlloc_some ha).1]
    exact (fileRefAlloc_congr s (s.setFd p i { used := true }) rfl).symm
  rcases fdInstall_cases s1 p i (ttyEntry flags) with ⟨-, hi⟩ | ⟨j, hj, hlt, hfree, hfj, hi⟩
  · rw [hi]
    exact ⟨G, h1.clearBlank hb, fun _ => rfl⟩
  rw [hi]
  obtain ⟨G', hG', hsame⟩ := FdInv.attachTty (e := { ttyEntry flags with used := true, fileRef := j })
    (h1.refAlloc hj hlt hfree) (hpid ▸ hp) hb rfl rfl cur
  refine ⟨G', hG', fun hready => hsame ?_⟩
  rw [ha, href1, hfj] at hready
  rcases hready with hready | hready | hready
  · rwa [← ho1] at hready
  · simp at hready
  · omega

theorem openPtmx (h : FdInv R N F G s) (hp : s.procPid p ≠ 0) (flags : BitVec 32) :
    FdInv R N F G (EdgeOS.openPtmx s p flags).1 := by
  unfold EdgeOS.openPtmx
  split
  · rename_i ha
    rw [fdAlloc_none ha]
    exact h
  rename_i s1 i ha
  obtain ⟨h1, hb, -, hpid, -⟩ := h.fdAlloc hp ha
  split
  · exact h1.clearBlank hb
  rename_i o j hpa
  have h2 : FdInv R N (F + oneRef .ptyMaster j) G { s1 with objs := o } := by
    refine h1.setObjs fun ho => ?_
    rw [← add_assoc]
    exact ho.ptyAlloc hpa
  dsimp only
  split
  all_goals
    rename_i hi
    have h3 := (h2.fdInstall (hpid ▸ hp) hb hi rfl (Int.toNat_natCast j)
      (.of_counted rfl (Int.natCast_nonneg j))).1
  · exact h3
  · refine h3.setObjs fun ho => ?_
    rw [if_neg (by simp), ← add_assoc] at ho
    exact ObjInv.dropPty true ho

theorem setPty (h : FdInv R N F G s) {j : ℕ} {x : Pty} (hj : j < edgeMaxPtys)
    (hu : x.used = (s.objs.ptys j).used) (hm : x.refsMaster = (s.objs.ptys j).refsMaster)
    (hv : x.refsSlave = (s.objs.ptys j).refsSlave) :
    FdInv R N F G { s with objs := s.objs.setPty j x } := by
  refine h.setObjs fun ho => ho.setPty hj ?_ fun _ _ _ => rfl
  unfold Pty.Holds
  rw [hu, hm, hv]
  exact (ho.ptys j).1

theorem ptsNumber_lt {cs : List Char} {n m : ℕ} (hn : n < edgeMaxPtys) (h : ptsNumber cs n = some m) :
    m < edgeMaxPtys := by
  induction cs generalizing n with
  | nil =>
    obtain rfl := Option.some.inj h
    exact hn
  | cons c cs ih =>
    unfold ptsNumber at h
    dsimp only at h
    split_ifs at h with h1 h2
    exact ih (by omega) h

/-- `/dev/pts/`. The descriptor is filled before the terminal counts it. -/
theorem openPts (h : FdInv R N F G s) (hp : s.procPid p ≠ 0) (cur : Caller) (flags : BitVec 32)
    (path : String) : FdInv R N F G (EdgeOS.openPts s p cur flags path).1 := by
  unfold EdgeOS.openPts
  split
  · exact h
  rename_i j hj
  have hlt : j < edgeMaxPtys := by
    split_ifs at hj
    exact ptsNumber_lt (by decide) hj
  split
  · exact h
  rename_i hused
  have hused : (s.objs.ptys j).used = true := by
    by_contra hu
    exact hused (.inl (by simpa using hu))
  split
  · rename_i ha
    rw [fdAlloc_none ha]
    exact h
  rename_i s1 i ha
  obtain ⟨h1, hb, ho1, hpid, -⟩ := h.fdAlloc hp ha
  dsimp only
  split
  · rename_i hi
    rw [fdInstall_false hi]
    exact h1.clearBlank hb
  rename_i s2 hi
  have h2 : FdInv R N (F + oneRef .ptySlave j) G
      { s1 with objs := ptyAddRef s1.objs j false } := by
    refine h1.setObjs fun ho => ?_
    rw [← add_assoc]
    exact ho.addPty false (ho.pty_counts (by rw [ho1, hused])).2.2
  have h3 := (h2.fdInstall (hpid ▸ hp) hb (fdInstall_withObjs hi _) rfl (Int.toNat_natCast j)
    (.of_counted rfl (Int.natCast_nonneg j))).1
  rw [if_pos rfl, ← fdInstall_objs hi] at h3
  refine h3.setPty hlt ?_ ?_ ?_
  all_goals split_ifs <;> rfl

theorem openVfs (h : FdInv R N F G s) (hp : s.procPid p ≠ 0) (cur : Caller) (flags : BitVec 32)
    (path : String) (inode : VfsInode) (sb : Option ℕ) :
    FdInv R N F G (EdgeOS.openVfs s p cur flags path inode sb).1 := by
  unfold EdgeOS.openVfs
  split
  · exact h
  rename_i hperm
  split
  · rename_i ha
    rw [fdAlloc_none ha]
    exact h
  rename_i s1 i ha
  obtain ⟨h1, hb, -, hpid, -⟩ := h.fdAlloc hp ha
  dsimp only
  split
  · rename_i hi
    rw [fdInstall_false hi]
    exact h1.clearBlank hb
  rename_i hi
  have h2 : FdInv R N (F + oneRef .vfs 0) G s1 :=
    h1.congr (fun k l hk => ObjInv.add_uncounted rfl F _ k l hk) fun _ _ => rfl
  refine (h2.fdInstall (hpid ▸ hp) hb hi rfl rfl ⟨fun hc => ?_, fun _ => ?_⟩).1
  · simp [FdKind.counted] at hc
  · refine ⟨⟨flags, inode, sb, cur.euid, cur.egid⟩, rfl, rfl, ?_, rfl, by simpa using hperm⟩
    dsimp only
    split_ifs <;> rfl

end FdInv

/-- `do_sys_openat` on `/dev/tty` gives up before it has taken a file reference. -/
def TtyRefused (s : FdState) (pid : ℤ) : Prop :=
  ∀ s1 p, fdProcWithStdio s pid = (s1, some p) → (fdAlloc s1 p 0).2 = none ∨ (fileRefAlloc s1).2 = 0

namespace FdInv

theorem doSysOpenat {cur : Caller} (h : FdInv R N F G s) (hpos : 0 < cur.pid) (hN : cur.pid < N)
    (flags : BitVec 32) (path : Except Errno String) (resolved : Option (VfsInode × Option ℕ)) :
    ∃ G', FdInv R N F G' (EdgeOS.doSysOpenat s cur flags path resolved).1 ∧
      ((path = .ok "/dev/tty" → TtyReady s.objs cur ∨ TtyRefused s cur.pid) → G' = G) := by
  unfold EdgeOS.doSysOpenat
  split
  · rename_i hq
    exact ⟨G, (h.fdProcWithStdio hpos hN hq).1, fun _ => rfl⟩
  rename_i s1 p hq
  obtain ⟨h1, ho1, hp⟩ := h.fdProcWithStdio hpos hN hq
  have hp := hp p rfl
  split
  · exact ⟨G, h1, fun _ => rfl⟩
  rename_i path
  split
  · rename_i hpath
    obtain ⟨G', hG', hsame⟩ := h1.openTty hp cur flags
    refine ⟨G', hG', fun hok => hsame ?_⟩
    rw [ho1]
    exact (hok (by rw [hpath])).imp id fun hr => hr s1 p hq
  split
  · exact ⟨G, h1.openPtmx hp flags, fun _ => rfl⟩
  split
  · exact ⟨G, h1.openPts hp cur flags path, fun _ => rfl⟩
  split
  · exact ⟨G, h1, fun _ => rfl⟩
  · exact ⟨G, h1.openVfs hp cur flags path _ _, fun _ => rfl⟩

theorem ioctlPtyLock (h : FdInv R N F G s) (hpos : 0 < pid) (hN : pid < N) (fd : ℤ) (lock : Bool) :
    FdInv R N F G (EdgeOS.ioctlPtyLock s pid fd lock).1 := by
  unfold EdgeOS.ioctlPtyLock
  split
  · rename_i hq
    exact (h.fdProcWithStdio hpos hN hq).1
  rename_i s1 p hq
  obtain ⟨h1, -, -⟩ := h.fdProcWithStdio hpos hN hq
  split
  · exact h1
  split
  · rename_i hj
    split
    · exact h1.setPty (tableIndex_some hj).2 rfl rfl rfl
    · exact h1
  · exact h1
  · exact h1

/-! ## Fork -/

theorem mono (h : FdInv R N F G s) {N' : ℤ} (hN : N ≤ N') : FdInv R N' F G s :=
  ⟨h.objs, h.files, h.formed, h.owned, fun p => lt_of_lt_of_le (h.known p) hN⟩

variable {parent child : FdProcIdx} {cbs : FdIdx → List ℕ}

theorem cloneFd (h : FdInv R N F G s) (hp : s.procPid child ≠ 0) (hfree : (s.fds (child, i)).used = false) :
    FdInv R N F G (EdgeOS.cloneFd parent child cbs s i) := by
  have hb := FdEntry.blank_unused hfree
  have h1 := h.acceptCbs (cbs i)
  unfold EdgeOS.cloneFd
  dsimp only
  split_ifs with hu href
  · exact h1
  · have hu : (s.fds (parent, i)).used = true := by simpa using hu
    split
    · exact h1.clearBlank hb
    rename_i s2 hg
    obtain ⟨hfds2, -, hpid2⟩ := fileRefGet_frame hg
    have hadd := (h1.refGet hg).addRefOf (congrFun hfds2 (parent, i)) hu
    refine hadd.install ?_ ?_ hu rfl rfl rfl (h.formed (parent, i) hu)
    · rw [hpid2]
      exact hp
    · rw [hfds2]
      exact hb
  · have hu : (s.fds (parent, i)).used = true := by simpa using hu
    have hadd := h1.addRefOf (p := parent) (i := i) rfl hu
    refine FdInv.install (j := 0) (hadd.congr (fun _ _ _ => rfl) fun l hl => ?_) hp hb hu rfl rfl
      (by omega) (h.formed (parent, i) hu)
    exact add_oneAt_of_ne _ (by omega)

theorem cloneFd_frame (parent child : FdProcIdx) (cbs : FdIdx → List ℕ) (s : FdState) (i : FdIdx) :
    (∀ x, x ≠ (child, i) → (EdgeOS.cloneFd parent child cbs s i).fds x = s.fds x) ∧
      (EdgeOS.cloneFd parent child cbs s i).procPid = s.procPid := by
  unfold EdgeOS.cloneFd
  dsimp only
  split_ifs
  · exact ⟨fun _ _ => rfl, rfl⟩
  · split
    · exact ⟨fun x hx => update_of_ne hx .., rfl⟩
    · rename_i s2 hg
      obtain ⟨hfds2, -, hpid2⟩ := fileRefGet_frame hg
      refine ⟨fun x hx => ?_, hpid2⟩
      unfold FdState.setFd
      dsimp only
      rw [update_of_ne hx, hfds2]
  · exact ⟨fun x hx => update_of_ne hx .., rfl⟩

/-- The loop of `fd_clone_after_fork` over descriptors that the child does not have yet. -/
theorem cloneFds (h : FdInv R N F G s) (hp : s.procPid child ≠ 0) {l : List FdIdx} (hnd : l.Nodup)
    (hfree : ∀ i ∈ l, (s.fds (child, i)).used = false) :
    FdInv R N F G (l.foldl (EdgeOS.cloneFd parent child cbs) s) := by
  induction l generalizing s with
  | nil => exact h
  | cons i l ih =>
    obtain ⟨hi, hnd⟩ := List.nodup_cons.mp hnd
    obtain ⟨hother, hpid⟩ := cloneFd_frame parent child cbs s i
    refine ih (h.cloneFd hp (hfree i (by simp))) (by rw [hpid]; exact hp) hnd fun j hj => ?_
    have hne : j ≠ i := by
      rintro rfl
      exact hi hj
    rw [hother (child, j) (by simp [hne])]
    exact hfree j (by simp [hj])

end FdInv

/-- A fork takes no file reference for the child's standard descriptors. -/
def ForkQuiet (s : FdState) (parentPid : ℤ) : Prop :=
  findProc s parentPid = none ∨ findProc s 0 = none ∨ (fileRefAlloc s).2 = 0

/-- The standard descriptors of a new table are console descriptors, and without a free file
reference there are none. -/
theorem stdioRounds_kinds (l : List FdIdx) (go : Bool)
    (hk : ∀ i, (s.fds (p, i)).used = true → (s.fds (p, i)).kind.counted = false) :
    (∀ i, ((l.foldl (ensureStdioFd p) (s, go)).1.fds (p, i)).used = true →
      ((l.foldl (ensureStdioFd p) (s, go)).1.fds (p, i)).kind.counted = false) ∧
    ((fileRefAlloc s).2 = 0 → (l.foldl (ensureStdioFd p) (s, go)).1 = s) := by
  induction l generalizing s go with
  | nil => exact ⟨hk, fun _ => rfl⟩
  | cons j l ih =>
    rw [List.foldl_cons]
    rcases hs1 : ensureStdioFd p (s, go) j with ⟨s1, go1⟩
    have hfst : s1 = (ensureStdioFd p (s, go) j).1 := by rw [hs1]
    rcases ensureStdioFd_cases s p go j with heq | ⟨r, e, hr, -, -, halloc, -, -, hkind, -, heq⟩
    · rw [heq] at hfst
      subst hfst
      exact ih go1 hk
    rw [heq] at hfst
    subst hfst
    refine ⟨(ih go1 fun i => ?_).1, fun h0 => by omega⟩
    apply forall_write (P := fun (x : FdProcIdx × FdIdx) (y : FdEntry) =>
      x.1 = p → y.used = true → y.kind.counted = false) (t := s.fds) (i := (p, j)) (l := (p, i))
    · rintro ⟨q, k⟩ - rfl
      exact hk k
    · intro _ _
      rw [hkind]
      rfl
    · rfl

theorem clearProc_unused (s : FdState) (p : FdProcIdx) (pid : ℤ) (i : FdIdx) :
    ((s.clearProc p pid).fds (p, i)).used = false := by
  simp [FdState.clearProc]

/-- `fd_clone_after_fork`. The file references of the child's own standard descriptors are
lost. -/
theorem FdInv.fdCloneAfterFork (h : FdInv R N F G s) (hN : 0 < N) (parentPid : ℤ) (cbs : FdIdx → List ℕ) :
    ∃ G', FdInv R (N + 1) F G' (EdgeOS.fdCloneAfterFork s parentPid N cbs) ∧ (ForkQuiet s parentPid → G' = G) := by
  have hmono : FdInv R (N + 1) F G s := h.mono (by omega)
  unfold EdgeOS.fdCloneAfterFork
  split
  · exact ⟨G, hmono, fun _ => rfl⟩
  rename_i parent hpar
  rw [if_neg (by omega)]
  have hnone : findProc s N = none := by
    cases hf : findProc s N with
    | none => rfl
    | some q =>
      have := h.known q
      rw [findProc_some hf] at this
      omega
  unfold EdgeOS.fdProcForPid
  rw [hnone]
  cases hfree : findProc s 0 with
  | none => exact ⟨G, hmono, fun _ => rfl⟩
  | some child =>
    dsimp only
    have h1 : FdInv R (N + 1) F G (s.clearProc child N) :=
      h.clearEmpty (by omega) (by omega) fun i => h.owned (child, i) (findProc_some hfree)
    have hpid : ∀ t : FdState, (t.clearProc child N).procPid child ≠ 0 := by
      intro t
      rw [show (t.clearProc child N).procPid child = N from update_self ..]
      omega
    obtain ⟨h2, -, -⟩ := h1.stdioRounds (hpid s) true [0, 1, 2]
    obtain ⟨hkinds, hsame⟩ := stdioRounds_kinds (s := s.clearProc child N) (p := child) [0, 1, 2] true
      fun i hu => by
        rw [clearProc_unused] at hu
        simp at hu
    have h3 := h2.clearProc le_rfl (show N < N + 1 by omega) hkinds
    refine ⟨_, h3.cloneFds (hpid _) (List.nodup_finRange _) fun i _ => clearProc_unused _ _ _ i, fun hquiet => ?_⟩
    rcases hquiet with hq | hq | hq
    · rw [hpar] at hq
      simp at hq
    · rw [hfree] at hq
      simp at hq
    · have hnoref : (fileRefAlloc (s.clearProc child N)).2 = 0 := by
        rw [fileRefAlloc_congr s (s.clearProc child N) rfl, hq]
      rw [hsame hnoref, lostRefs_empty (clearProc_unused s child N), add_zero]

end EdgeOS
