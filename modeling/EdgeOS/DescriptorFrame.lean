import EdgeOS.DescriptorSystem

namespace EdgeOS

open Lib Function

/-!
What the helpers of the descriptor calls leave alone: the contents of pipes, from `pipe_alloc`
to the drop of the last descriptor, and the tables of other processes.
-/

/-! ## Pipes -/

/-- Every pipe in use afterwards was in use before, with the same ring. -/
def Objects.PipesKept (o o' : Objects) : Prop :=
  ∀ i, (o'.pipes i).used = true → (o.pipes i).used = true ∧ (o'.pipes i).ring = (o.pipes i).ring

def Objects.PipesMade (o o' : Objects) : Prop :=
  ∀ i, (o'.pipes i).used = true → (o.pipes i).used = true ∧ (o'.pipes i).ring = (o.pipes i).ring ∨
      (o.pipes i).used = false ∧ (o'.pipes i).ring = .empty 0

namespace Objects.PipesKept

variable {o o' o'' : Objects}

theorem refl (o : Objects) : o.PipesKept o := fun _ h => ⟨h, rfl⟩

theorem trans (h : o.PipesKept o') (h' : o'.PipesKept o'') : o.PipesKept o'' := by
  intro i hu
  obtain ⟨hu', hr'⟩ := h' i hu
  obtain ⟨hu, hr⟩ := h i hu'
  exact ⟨hu, hr'.trans hr⟩

theorem of_pipes (h : o'.pipes = o.pipes) : o.PipesKept o' := by
  intro i hu
  rw [h] at hu ⊢
  exact ⟨hu, rfl⟩

theorem of_eq (h : o' = o) : o.PipesKept o' := h ▸ refl o

theorem of_sockets (h : o.OnlySockets o') : o.PipesKept o' := of_pipes h.1

theorem setPipe {i : ℕ} {x : Pipe} (hx : x.used = true → (o.pipes i).used = true ∧ x.ring = (o.pipes i).ring) :
    o.PipesKept (o.setPipe i x) := by
  intro j hu
  by_cases hj : j = i
  · subst hj
    have hself : (o.setPipe j x).pipes j = x := update_self _ _ _
    rw [hself] at hu ⊢
    exact hx hu
  have hother : (o.setPipe i x).pipes j = o.pipes j := update_of_ne hj _ _
  rw [hother] at hu ⊢
  exact ⟨hu, rfl⟩

theorem made (h : o.PipesKept o') : o.PipesMade o' := fun i hu => .inl (h i hu)

theorem fdAddRef (o : Objects) (k : FdKind) (id : ℤ) : o.PipesKept (EdgeOS.fdAddRef o k id) := by
  cases k <;> unfold EdgeOS.fdAddRef <;> dsimp only
  case pipeR | pipeW =>
    split
    · exact refl o
    · exact setPipe fun hu => ⟨hu, rfl⟩
  case socket => exact of_sockets (socketAddRef_frame o id)
  case ptyMaster | ptySlave =>
    apply of_pipes
    unfold ptyAddRef
    split
    · rfl
    · dsimp only
      split_ifs <;> rfl
  case eventfd | timerfd | signalfd | epoll =>
    apply of_pipes
    unfold specialAddRef
    split
    · rfl
    · split_ifs <;> rfl
  all_goals exact refl o

theorem reclaim (x y : Pipe) (hu : x.used = y.used) (hr : x.ring = y.ring) :
    x.reclaim.used = true → y.used = true ∧ x.reclaim.ring = y.ring := by
  unfold Pipe.reclaim
  split_ifs
  · intro hf
    simp at hf
  · intro h
    exact ⟨hu ▸ h, hr⟩

theorem ptyDropRef (o : Objects) (id : ℤ) (isMaster : Bool) : o.PipesKept (EdgeOS.ptyDropRef o id isMaster) := by
  apply of_pipes
  unfold EdgeOS.ptyDropRef
  split
  · rfl
  · dsimp only
    split_ifs <;> rfl

theorem specialDropRef (k : SpecialKind) (o : Objects) (id : ℤ) : o.PipesKept (EdgeOS.specialDropRef k o id) := by
  apply of_pipes
  unfold EdgeOS.specialDropRef
  split
  · rfl
  · split_ifs <;> rfl

theorem fdDropRef (window : ℕ → List ℕ) (o : Objects) (k : FdKind) (id : ℤ) :
    o.PipesKept (EdgeOS.fdDropRef window o k id) := by
  cases k <;> simp only [EdgeOS.fdDropRef]
  case pipeR | pipeW =>
    simp only [pipeDropReader, pipeDropWriter]
    split
    · exact refl o
    split_ifs
    · exact refl o
    · exact setPipe (reclaim _ _ rfl rfl)
  case socket => exact of_sockets (socketDropRef_frame window _ o id)
  case ptyMaster => exact ptyDropRef o id true
  case ptySlave => exact ptyDropRef o id false
  case eventfd | timerfd | signalfd | epoll => exact specialDropRef _ o id
  all_goals exact refl o

end Objects.PipesKept

/-! ## Tables of other processes -/

def FdState.OneTable (s : FdState) : Prop :=
  ∀ p q, s.procPid p = s.procPid q → s.procPid p ≠ 0 → p = q

/-- Every table that belongs to a process other than `pid` is as it was, and `pid` gets no
second one. -/
structure FdState.Others (pid : ℤ) (s s' : FdState) : Prop where
  kept : ∀ q, s'.procPid q ≠ pid → s'.procPid q ≠ 0 → s'.procPid q = s.procPid q ∧ ∀ i, s'.fds (q, i) = s.fds (q, i)
  oneTable : s.OneTable → s'.OneTable

/-- What ties a descriptor to its file: the file reference, the position, the cached inode. -/
def FdEntry.file (e : FdEntry) : ℕ × ℕ × VfsInode × Option ℕ × Option OpenRecord :=
  (e.fileRef, e.pos, e.inode, e.sb, e.origin)

/-- If `e` is an open file, some descriptor of `s` has the same file at the same position. -/
def FdState.Has (s : FdState) (e : FdEntry) : Prop :=
  e.used = true → e.kind = .vfs → ∃ x, (s.fds x).used = true ∧ (s.fds x).kind = .vfs ∧ (s.fds x).file = e.file

/-- What a call of process `pid` leaves alone: pipes, tables of others, and the positions of
files, which descriptors may share afterwards. -/
structure CallFrame (pid : ℤ) (s s' : FdState) : Prop where
  pipes : s.objs.PipesKept s'.objs
  others : s.Others pid s'
  files : ∀ y, s.Has (s'.fds y)

section Frames

variable {s s' s'' : FdState} {pid : ℤ} {p : FdProcIdx} {i : FdIdx}

theorem FdState.Others.trans (h : s.Others pid s') (h' : s'.Others pid s'') : s.Others pid s'' := by
  refine ⟨fun q hq h0 => ?_, fun hone => h'.oneTable (h.oneTable hone)⟩
  obtain ⟨hp', hf'⟩ := h'.kept q hq h0
  obtain ⟨hp, hf⟩ := h.kept q (hp' ▸ hq) (hp' ▸ h0)
  exact ⟨hp'.trans hp, fun i => (hf' i).trans (hf i)⟩

theorem FdState.Others.of_fds (hp : s'.procPid = s.procPid) (hf : s'.fds = s.fds) : s.Others pid s' := by
  refine ⟨fun q _ _ => ?_, fun hone => ?_⟩
  · rw [hp, hf]
    exact ⟨rfl, fun _ => rfl⟩
  · unfold FdState.OneTable
    rw [hp]
    exact hone

theorem FdState.Others.setFd (hp : s.procPid p = pid) (e : FdEntry) : s.Others pid (s.setFd p i e) := by
  refine ⟨fun q hq _ => ⟨rfl, fun j => update_of_ne ?_ _ _⟩, fun hone => hone⟩
  intro heq
  have hqp : q = p := congrArg Prod.fst heq
  exact hq (hqp ▸ hp)

/-- A table is cleared and given to a process that has no other. -/
theorem FdState.OneTable.clearProc (h : s.OneTable) {pid' : ℤ}
    (hnew : pid' = 0 ∨ s.procPid p = pid' ∨ ∀ q, s.procPid q ≠ pid') :
    (s.clearProc p pid').OneTable := by
  have hself : (s.clearProc p pid').procPid p = pid' := update_self _ _ _
  have hother : ∀ q, q ≠ p → (s.clearProc p pid').procPid q = s.procPid q :=
    fun q hq => update_of_ne hq _ _
  have hno : ∀ q, q ≠ p → s.procPid q = pid' → pid' = 0 := by
    intro q hq heq
    rcases hnew with h0 | hp | hnone
    · exact h0
    · by_contra h0
      exact hq (h q p (heq.trans hp.symm) (by rw [heq]; exact h0))
    · exact absurd heq (hnone q)
  intro q r heq h0
  by_cases hq : q = p
  · subst hq
    by_cases hr : r = q
    · exact hr.symm
    rw [hself] at heq h0
    rw [hother r hr] at heq
    exact absurd (hno r hr heq.symm) h0
  rw [hother q hq] at heq h0
  by_cases hr : r = p
  · subst hr
    rw [hself] at heq
    exact absurd (heq.trans (hno q hq heq)) h0
  · rw [hother r hr] at heq
    exact h q r heq h0

theorem FdState.Others.clearProc (hp : s.procPid p = pid ∨ s.procPid p = 0) {pid' : ℤ} (hpid' : pid' = pid ∨ pid' = 0)
    (hnew : pid' = 0 ∨ s.procPid p = pid' ∨ ∀ q, s.procPid q ≠ pid') :
    s.Others pid (s.clearProc p pid') := by
  refine ⟨fun q hq h0 => ?_, fun hone => hone.clearProc hnew⟩
  have hqp : q ≠ p := by
    rintro rfl
    have hself : (s.clearProc q pid').procPid q = pid' := update_self _ _ _
    rw [hself] at hq h0
    omega
  refine ⟨update_of_ne hqp _ _, fun i => ?_⟩
  simp only [FdState.clearProc, if_neg hqp]

namespace FdState.Has

variable {e : FdEntry}

theorem unused (h : e.used = false) : s.Has e := by
  intro hu
  rw [h] at hu
  simp at hu

theorem plain (h : e.kind ≠ .vfs) : s.Has e := fun _ hk => absurd hk h

theorem copy (x : FdProcIdx × FdIdx) (hu : e.used = true → (s.fds x).used = true)
    (hk : (s.fds x).kind = e.kind) (hf : (s.fds x).file = e.file) : s.Has e :=
  fun he hv => ⟨x, hu he, hk.trans hv, hf⟩

theorem self (x : FdProcIdx × FdIdx) : s.Has (s.fds x) := copy x id rfl rfl

theorem trans (h : ∀ y, s.Has (s'.fds y)) (h' : s'.Has e) : s.Has e := by
  intro hu hk
  obtain ⟨y, hyu, hyk, hyf⟩ := h' hu hk
  obtain ⟨x, hxu, hxk, hxf⟩ := h y hyu hyk
  exact ⟨x, hxu, hxk, hxf.trans hyf⟩

end FdState.Has

namespace CallFrame

theorem of_fds (ho : s.objs.PipesKept s'.objs) (hp : s'.procPid = s.procPid)
    (hf : s'.fds = s.fds) : CallFrame pid s s' :=
  ⟨ho, .of_fds hp hf, fun y => by rw [hf]; exact .self y⟩

theorem refl (pid : ℤ) (s : FdState) : CallFrame pid s s := of_fds (.refl _) rfl rfl

theorem trans (h : CallFrame pid s s') (h' : CallFrame pid s' s'') : CallFrame pid s s'' :=
  ⟨h.pipes.trans h'.pipes, h.others.trans h'.others, fun y => .trans h.files (h'.files y)⟩

theorem setFd {e : FdEntry} (hp : s.procPid p = pid) (he : s.Has e) : CallFrame pid s (s.setFd p i e) :=
  ⟨.refl _, .setFd hp e, forall_write (P := fun _ (y : FdEntry) => s.Has y)
    (fun x _ => .self x) he⟩

theorem clearFd (hp : s.procPid p = pid) : CallFrame pid s (s.setFd p i {}) :=
  setFd hp (.unused rfl)

theorem clearProc (hp : s.procPid p = pid ∨ s.procPid p = 0) {pid' : ℤ} (hpid' : pid' = pid ∨ pid' = 0)
    (hnew : pid' = 0 ∨ s.procPid p = pid' ∨ ∀ q, s.procPid q ≠ pid') :
    CallFrame pid s (s.clearProc p pid') := by
  refine ⟨.refl _, .clearProc hp hpid' hnew, fun y => ?_⟩
  simp only [FdState.clearProc]
  split
  · exact .unused rfl
  · exact .self y

theorem setObjs {o : Objects} (ho : s.objs.PipesKept o) : CallFrame pid s { s with objs := o } :=
  of_fds ho rfl rfl

theorem setFileRefs (f : ℕ → RefObj) : CallFrame pid s { s with fileRefs := f } :=
  of_fds (.refl _) rfl rfl

theorem fileRefPut (id : ℕ) : CallFrame pid s (EdgeOS.fileRefPut s id) := by
  unfold EdgeOS.fileRefPut
  split
  · exact setFileRefs _
  · exact refl pid s

end CallFrame

/-! ## The helpers of the calls -/

theorem fileRefAlloc_frame (pid : ℤ) {ref : ℕ} (h : fileRefAlloc s = (s', ref)) :
    CallFrame pid s s' ∧ s'.procPid = s.procPid ∧ s'.objs = s.objs := by
  unfold fileRefAlloc at h
  split at h
  · obtain ⟨rfl, -⟩ := Prod.mk.inj h
    exact ⟨.setFileRefs _, rfl, rfl⟩
  · obtain ⟨rfl, -⟩ := Prod.mk.inj h
    exact ⟨.refl _ _, rfl, rfl⟩

theorem fdEnsureStdio_frame (hp : s.procPid p = pid) :
    CallFrame pid s (fdEnsureStdio s p) ∧ (fdEnsureStdio s p).procPid = s.procPid ∧
      (fdEnsureStdio s p).objs = s.objs := by
  unfold fdEnsureStdio
  generalize true = go
  induction ([0, 1, 2] : List FdIdx) generalizing s go with
  | nil => exact ⟨.refl _ _, rfl, rfl⟩
  | cons i l ih =>
    have hround : CallFrame pid s (ensureStdioFd p (s, go) i).1 := by
      rcases ensureStdioFd_cases s p go i with heq | ⟨j, e, -, -, -, -, -, -, hk, -, heq⟩
      · rw [heq]
        exact .refl _ _
      rw [heq]
      have he : (s.setFileRef j { used := true, refs := 1 }).Has e := .plain (by rw [hk]; simp)
      exact (CallFrame.setFileRefs _).trans (.setFd hp he)
    obtain ⟨ho, hq⟩ := ensureStdioFd_frame (s := s) (p := p) go i
    obtain ⟨h1, h2, h3⟩ := ih (by rw [hq]; exact hp) (ensureStdioFd p (s, go) i).2
    exact ⟨hround.trans h1, h2.trans hq, h3.trans ho⟩

theorem ensureStdio_used (p : FdProcIdx) (i : FdIdx) (l : List FdIdx) (s : FdState) (go : Bool)
    (hi : (s.fds (p, i)).used = true) : ((l.foldl (ensureStdioFd p) (s, go)).1.fds (p, i)).used = true := by
  induction l generalizing s go with
  | nil => exact hi
  | cons j l ih =>
    have hstep : ((ensureStdioFd p (s, go) j).1.fds (p, i)).used = true := by
      rcases ensureStdioFd_cases s p go j with heq | ⟨r, e, -, -, -, -, hfree, -, -, -, heq⟩
      · rw [heq]
        exact hi
      rw [heq]
      have hij : (p, i) ≠ (p, j) := by
        intro he
        rw [he, hfree] at hi
        simp at hi
      change (update s.fds (p, j) e (p, i)).used = true
      rw [update_of_ne hij]
      exact hi
    exact ih _ (ensureStdioFd p (s, go) j).2 hstep

theorem ensureStdio_stopped (p : FdProcIdx) (l : List FdIdx) (s : FdState) :
    l.foldl (ensureStdioFd p) (s, false) = (s, false) := by
  induction l with
  | nil => rfl
  | cons j l ih => exact ih

/-- `fd_ensure_stdio` opens a descriptor that is closed, if there is one and it can. -/
theorem ensureStdio_cases (p : FdProcIdx) (l : List FdIdx) (s : FdState) :
    ((∀ i ∈ l, (s.fds (p, i)).used = true) ∨ (fileRefAlloc s).2 = 0) ∧ (l.foldl (ensureStdioFd p) (s, true)).1 = s ∨
      (fileRefAlloc s).2 ≠ 0 ∧ ∃ i ∈ l, (s.fds (p, i)).used = false ∧
        ((l.foldl (ensureStdioFd p) (s, true)).1.fds (p, i)).used = true := by
  induction l with
  | nil => exact .inl ⟨.inl (by simp), rfl⟩
  | cons j l ih =>
    rw [List.foldl_cons]
    by_cases hj : (s.fds (p, j)).used = true
    · have hstep : ensureStdioFd p (s, true) j = (s, true) := by
        unfold ensureStdioFd
        dsimp only
        rw [if_pos (.inr hj)]
      rw [hstep]
      rcases ih with ⟨hwhy, hsame⟩ | ⟨href, i, hi, hopen⟩
      · refine .inl ⟨hwhy.imp_left fun hall i hi => ?_, hsame⟩
        rcases List.mem_cons.mp hi with rfl | hi
        · exact hj
        · exact hall i hi
      · exact .inr ⟨href, i, List.mem_cons_of_mem j hi, hopen⟩
    · rw [Bool.not_eq_true] at hj
      rcases fileRefAlloc_cases s with ha | ⟨r, hr, hlt, hfree, ha⟩
      · have hstep : ensureStdioFd p (s, true) j = (s, false) := by
          unfold ensureStdioFd
          dsimp only
          rw [if_neg (by simp [hj]), ha]
          rfl
        left
        rw [hstep, ensureStdio_stopped, ha]
        exact ⟨.inr rfl, rfl⟩
      have hstep : ((ensureStdioFd p (s, true) j).1.fds (p, j)).used = true := by
        unfold ensureStdioFd
        dsimp only
        rw [if_neg (by simp [hj]), ha]
        cases r with
        | zero => omega
        | succ r =>
          change (update (s.setFileRef (r + 1) _).fds (p, j) _ (p, j)).used = true
          rw [update_self]
      refine .inr ⟨by rw [ha]; omega, j, by simp, hj, ?_⟩
      exact ensureStdio_used p j l _ (ensureStdioFd p (s, true) j).2 hstep

theorem fdProcForPid_frame {r : Option FdProcIdx} (h : fdProcForPid s pid = (s', r)) :
    CallFrame pid s s' ∧ s'.objs = s.objs ∧ ∀ p, r = some p → s'.procPid p = pid := by
  unfold fdProcForPid at h
  split at h
  · rename_i q hq
    obtain ⟨rfl, rfl⟩ := Prod.mk.inj h
    refine ⟨.refl _ _, rfl, fun p hp => ?_⟩
    obtain rfl := Option.some.inj hp
    exact findProc_some hq
  rename_i hnone
  split at h
  · obtain ⟨rfl, rfl⟩ := Prod.mk.inj h
    exact ⟨.refl _ _, rfl, fun p hp => by simp at hp⟩
  rename_i q hq
  obtain ⟨rfl, rfl⟩ := Prod.mk.inj h
  have hself : (s.clearProc q pid).procPid q = pid := update_self _ _ _
  have hclear : CallFrame pid s (s.clearProc q pid) :=
    .clearProc (.inr (findProc_some hq)) (.inl rfl) (.inr (.inr (findProc_none hnone)))
  obtain ⟨h1, h2, h3⟩ := fdEnsureStdio_frame hself
  refine ⟨hclear.trans h1, h3, fun p hp => ?_⟩
  obtain rfl := Option.some.inj hp
  rw [h2]
  exact hself

theorem fdProcWithStdio_frame {r : Option FdProcIdx} (h : fdProcWithStdio s pid = (s', r)) :
    CallFrame pid s s' ∧ s'.objs = s.objs ∧ ∀ p, r = some p → s'.procPid p = pid := by
  unfold fdProcWithStdio at h
  split at h
  · rename_i s1 q hq
    obtain ⟨rfl, rfl⟩ := Prod.mk.inj h
    obtain ⟨h1, ho1, hp1⟩ := fdProcForPid_frame hq
    obtain ⟨h2, hq2, ho2⟩ := fdEnsureStdio_frame (hp1 q rfl)
    refine ⟨h1.trans h2, ho2.trans ho1, fun p hp => ?_⟩
    obtain rfl := Option.some.inj hp
    rw [hq2]
    exact hp1 q rfl
  · rename_i s1 hq
    obtain ⟨rfl, rfl⟩ := Prod.mk.inj h
    obtain ⟨h1, ho1, -⟩ := fdProcForPid_frame hq
    exact ⟨h1, ho1, fun p hp => by simp at hp⟩

theorem stdioRounds_refs (s : FdState) (p : FdProcIdx) {j : ℕ} (hj : (s.fileRefs j).used = true)
    (go : Bool) (l : List FdIdx) :
    ((l.foldl (ensureStdioFd p) (s, go)).1.fileRefs j).used = true := by
  induction l generalizing s go with
  | nil => exact hj
  | cons i l ih =>
    have hround : ((ensureStdioFd p (s, go) i).1.fileRefs j).used = true := by
      rcases ensureStdioFd_cases s p go i with heq | ⟨j', e, -, -, -, -, -, -, -, -, heq⟩
      · rw [heq]
        exact hj
      rw [heq]
      change (update s.fileRefs j' _ j).used = true
      by_cases hjj : j = j'
      · rw [hjj, update_self]
      · rw [update_of_ne hjj]
        exact hj
    exact ih (ensureStdioFd p (s, go) i).1 hround (ensureStdioFd p (s, go) i).2

theorem fdEnsureStdio_refs (s : FdState) (p : FdProcIdx) {j : ℕ}
    (hj : (s.fileRefs j).used = true) : ((fdEnsureStdio s p).fileRefs j).used = true :=
  stdioRounds_refs s p hj true [0, 1, 2]

theorem fdProcWithStdio_refs {r : Option FdProcIdx} (h : fdProcWithStdio s pid = (s', r)) {j : ℕ}
    (hj : (s.fileRefs j).used = true) : (s'.fileRefs j).used = true := by
  unfold fdProcWithStdio fdProcForPid at h
  split at h
  · rename_i s1 q hq
    obtain ⟨rfl, -⟩ := Prod.mk.inj h
    apply fdEnsureStdio_refs
    split at hq
    · obtain ⟨rfl, -⟩ := Prod.mk.inj hq
      exact hj
    split at hq
    · simp at hq
    · obtain ⟨rfl, -⟩ := Prod.mk.inj hq
      exact fdEnsureStdio_refs _ _ hj
  · rename_i hq
    obtain ⟨rfl, -⟩ := Prod.mk.inj h
    split at hq
    · simp at hq
    split at hq
    · obtain ⟨rfl, -⟩ := Prod.mk.inj hq
      exact hj
    · simp at hq

theorem fdAlloc_frame {m : ℤ} {r : Option FdIdx} (h : fdAlloc s p m = (s', r))
    (hp : s.procPid p = pid) : CallFrame pid s s' ∧ s'.procPid p = pid := by
  unfold fdAlloc at h
  split at h
  · obtain ⟨rfl, -⟩ := Prod.mk.inj h
    exact ⟨.setFd hp (.plain (by simp)), hp⟩
  · obtain ⟨rfl, -⟩ := Prod.mk.inj h
    exact ⟨.refl _ _, hp⟩

theorem fdInstall_frame {e : FdEntry} {done : Bool} (h : fdInstall s p i e = (s', done))
    (hk : e.kind ≠ .vfs) (hp : s.procPid p = pid) :
    CallFrame pid s s' ∧ s'.procPid p = pid := by
  unfold fdInstall at h
  split at h
  all_goals
    rename_i hr
    obtain ⟨rfl, -⟩ := Prod.mk.inj h
    obtain ⟨h1, hq, -⟩ := fileRefAlloc_frame pid hr
    have hp1 := hq ▸ hp
  · exact ⟨h1.trans (.clearFd hp1), hp1⟩
  · exact ⟨h1.trans (.setFd hp1 (.plain hk)), hp1⟩

theorem closeFd_frame (window : ℕ → List ℕ) (hp : s.procPid p = pid) (i : FdIdx) :
    CallFrame pid s (closeFd window s p i) ∧ (closeFd window s p i).procPid = s.procPid := by
  rw [closeFd_eq]
  have hput := (CallFrame.clearFd (i := i) hp).trans (.fileRefPut (s.fds (p, i)).fileRef)
  refine ⟨⟨?_, hput.others.trans (.of_fds rfl rfl), hput.files⟩, ?_⟩
  · exact .fdDropRef window s.objs _ _
  · exact fileRefPut_procPid _ _

theorem dupInto_frame (hp : s.procPid p = pid) {e : FdEntry} (he : s.Has e) (cloexec : Bool) :
    CallFrame pid s (dupInto s p i e cloexec).1 ∧ (dupInto s p i e cloexec).1.procPid = s.procPid := by
  unfold dupInto
  split
  · exact ⟨.clearFd hp, rfl⟩
  rename_i s1 hg
  split_ifs at hg
  obtain ⟨hf, ho, hq⟩ := fileRefGet_frame hg
  have h1 : CallFrame pid s s1 := .of_fds (.of_eq ho) hq hf
  have h2 : CallFrame pid s1 { s1 with objs := fdAddRef s1.objs e.kind e.pipeId } :=
    .setObjs (.fdAddRef _ _ _)
  have he1 : s1.Has { e with cloexec := cloexec } := by
    unfold FdState.Has
    rw [hf]
    exact he
  exact ⟨(h1.trans h2).trans (.setFd (by rw [← hp, ← hq]) he1), hq⟩

end Frames

end EdgeOS
