import EdgeOS.CallFrames

namespace EdgeOS

/-!
What the calls do to the descriptors that are open: most leave each of them with its object, and open
no file. Closing, duplicating and opening a path are the exceptions.
-/

open Function List

def FdEntry.object (e : FdEntry) : FdKind × ℤ × ℕ × Option ℕ × String :=
  (e.kind, e.pipeId, e.inode.ino, e.sb, e.path)

/-- The descriptor is no file, and an epoll object only if its number satisfies `E`. -/
def FdEntry.Plain (E : ℤ → Prop) (e : FdEntry) : Prop := e.kind ≠ .vfs ∧ (e.kind = .epoll → E e.pipeId)

theorem FdEntry.Plain.of_kind {E : ℤ → Prop} {e : FdEntry} (hv : e.kind ≠ .vfs) (he : e.kind ≠ .epoll) :
    e.Plain E := ⟨hv, fun h => absurd h he⟩

/-- Every descriptor in use keeps its object, and the new ones are plain. -/
structure FdState.OnlyAdds (E : ℤ → Prop) (s s' : FdState) : Prop where
  kept : ∀ x, (s.fds x).used = true → (s'.fds x).used = true ∧ (s'.fds x).object = (s.fds x).object
  fresh : ∀ x, (s.fds x).used = false → (s'.fds x).used = true → (s'.fds x).Plain E

def FdState.fdsOf (s : FdState) (pid : ℤ) (i : FdIdx) : FdEntry :=
  match findProc s pid with
  | some p => s.fds (p, i)
  | none => {}

def FdState.Owned (s : FdState) : Prop := ∀ x, s.procPid x.1 = 0 → (s.fds x).used = false

namespace FdState.OnlyAdds

variable {E : ℤ → Prop} {s s' s'' : FdState} {p : FdProcIdx} {i : FdIdx}

theorem of_fds (h : s'.fds = s.fds) : s.OnlyAdds E s' := by
  refine ⟨fun x hx => ?_, fun x hx hx' => ?_⟩
  · rw [h]
    exact ⟨hx, rfl⟩
  · rw [h, hx] at hx'
    simp at hx'

theorem refl (s : FdState) : s.OnlyAdds E s := of_fds rfl

theorem trans (h : s.OnlyAdds E s') (h' : s'.OnlyAdds E s'') : s.OnlyAdds E s'' := by
  refine ⟨fun x hx => ?_, fun x hx hx'' => ?_⟩
  · obtain ⟨hu, ho⟩ := h.kept x hx
    obtain ⟨hu', ho'⟩ := h'.kept x hu
    exact ⟨hu', ho'.trans ho⟩
  · cases hx' : (s'.fds x).used with
    | false => exact h'.fresh x hx' hx''
    | true =>
      have ho := (h'.kept x hx').2
      have hk : (s''.fds x).kind = (s'.fds x).kind := congrArg Prod.fst ho
      have hid : (s''.fds x).pipeId = (s'.fds x).pipeId := congrArg (fun o => o.2.1) ho
      have hfresh := h.fresh x hx hx'
      unfold FdEntry.Plain at hfresh ⊢
      rw [hk, hid]
      exact hfresh

theorem free_before (h : s.OnlyAdds E s') {x : FdProcIdx × FdIdx} (hx : (s'.fds x).used = false) :
    (s.fds x).used = false := by
  by_contra hu
  have hkept := (h.kept x (by simpa using hu)).1
  rw [hx] at hkept
  simp at hkept

theorem then_fds (h : s.OnlyAdds E s') (hf : s''.fds = s'.fds) : s.OnlyAdds E s'' := h.trans (of_fds hf)

theorem setFree (h : s.OnlyAdds E s') (hi : (s.fds (p, i)).used = false) {e : FdEntry}
    (he : e.used = true → e.Plain E) : s.OnlyAdds E (s'.setFd p i e) := by
  have hother : ∀ x, x ≠ (p, i) → (s'.setFd p i e).fds x = s'.fds x :=
    fun x hx => update_of_ne hx _ _
  refine ⟨fun x hx => ?_, fun x hx => ?_⟩
  · have hne : x ≠ (p, i) := by
      rintro rfl
      rw [hi] at hx
      simp at hx
    rw [hother x hne]
    exact h.kept x hx
  · by_cases hne : x = (p, i)
    · have hself : (s'.setFd p i e).fds (p, i) = e := update_self _ _ _
      rw [hne, hself]
      exact he
    · rw [hother x hne]
      exact h.fresh x hx

theorem clearFree (h : s.OnlyAdds E s') (hi : (s.fds (p, i)).used = false) :
    s.OnlyAdds E (s'.setFd p i {}) := h.setFree hi (by simp)

theorem setSame (h : s.OnlyAdds E s') {e : FdEntry} (hu : e.used = (s'.fds (p, i)).used)
    (ho : e.object = (s'.fds (p, i)).object) : s.OnlyAdds E (s'.setFd p i e) := by
  apply h.trans
  refine ⟨fun x hx => ?_, fun x hx hx' => ?_⟩
  · by_cases hne : x = (p, i)
    · have hself : (s'.setFd p i e).fds x = e := by
        rw [hne]
        exact update_self _ _ _
      rw [hself, hne]
      rw [hne] at hx
      exact ⟨hu.trans hx, ho⟩
    · have hother : (s'.setFd p i e).fds x = s'.fds x := update_of_ne hne _ _
      rw [hother]
      exact ⟨hx, rfl⟩
  · by_cases hne : x = (p, i)
    · have hself : (s'.setFd p i e).fds x = e := by
        rw [hne]
        exact update_self _ _ _
      rw [hself, hu, ← hne, hx] at hx'
      simp at hx'
    · have hother : (s'.setFd p i e).fds x = s'.fds x := update_of_ne hne _ _
      rw [hother, hx] at hx'
      simp at hx'

theorem clearProc (h : s.OnlyAdds E s') (hp : ∀ i, (s.fds (p, i)).used = false) (pid : ℤ) :
    s.OnlyAdds E (s'.clearProc p pid) := by
  have hother : ∀ x, x.1 ≠ p → (s'.clearProc p pid).fds x = s'.fds x := fun x hx => if_neg hx
  refine ⟨fun x hx => ?_, fun x hx hx' => ?_⟩
  · have hne : x.1 ≠ p := by
      intro hxp
      have hfree := hp x.2
      rw [← hxp] at hfree
      rw [hfree] at hx
      simp at hx
    rw [hother x hne]
    exact h.kept x hx
  · by_cases hne : x.1 = p
    · have hself : (s'.clearProc p pid).fds x = {} := if_pos hne
      rw [hself] at hx'
      simp at hx'
    · rw [hother x hne] at hx' ⊢
      exact h.fresh x hx hx'

end FdState.OnlyAdds

/-! ## The helpers of the calls -/

section Helpers

variable {E : ℤ → Prop} {s s' : FdState} {pid : ℤ} {p : FdProcIdx} {i : FdIdx}

theorem fileRefAlloc_fds {ref : ℕ} (h : fileRefAlloc s = (s', ref)) : s'.fds = s.fds := by
  rcases fileRefAlloc_cases s with hnone | ⟨j, -, -, -, heq⟩
  · rw [hnone] at h
    rw [← (Prod.mk.inj h).1]
  rw [heq] at h
  rw [← (Prod.mk.inj h).1]
  rfl

theorem fdEnsureStdio_adds (s : FdState) (p : FdProcIdx) : s.OnlyAdds E (fdEnsureStdio s p) := by
  unfold fdEnsureStdio
  generalize true = go
  induction ([0, 1, 2] : List FdIdx) generalizing s go with
  | nil => exact .refl s
  | cons i l ih =>
    have hround : s.OnlyAdds E (ensureStdioFd p (s, go) i).1 := by
      rcases ensureStdioFd_cases s p go i with heq | ⟨j, e, -, -, -, -, hfree, -, hk, -, heq⟩
      · rw [heq]
        exact .refl s
      rw [heq]
      have href : s.OnlyAdds E (s.setFileRef j { used := true, refs := 1 }) := .of_fds rfl
      exact href.setFree hfree fun _ => .of_kind (by rw [hk]; simp) (by rw [hk]; simp)
    exact hround.trans (ih (ensureStdioFd p (s, go) i).1 (ensureStdioFd p (s, go) i).2)

/-- Only the first three descriptors of one table are set up. -/
theorem fdEnsureStdio_outside (s : FdState) {x : FdProcIdx × FdIdx} (hx : x.1 = p → 2 < x.2.val) :
    (fdEnsureStdio s p).fds x = s.fds x := by
  have hrounds : ∀ (l : List FdIdx) (s : FdState) (go : Bool), (∀ i ∈ l, i.val ≤ 2) →
      (l.foldl (ensureStdioFd p) (s, go)).1.fds x = s.fds x := by
    intro l
    induction l with
    | nil => exact fun _ _ _ => rfl
    | cons i l ih =>
      intro s go hl
      have hne : x ≠ (p, i) := by
        rintro rfl
        have hlow := hl i mem_cons_self
        have hhigh := hx rfl
        dsimp only at hhigh
        omega
      have hround : (ensureStdioFd p (s, go) i).1.fds x = s.fds x := by
        rcases ensureStdioFd_cases s p go i with heq | ⟨j, e, -, -, -, -, -, -, -, -, heq⟩
        · rw [heq]
        · rw [heq]
          exact update_of_ne hne _ _
      rw [foldl_cons]
      exact (ih _ _ fun k hk => hl k (mem_cons_of_mem i hk)).trans hround
  exact hrounds [0, 1, 2] s true (by decide)

theorem fdProcForPid_adds (hown : s.Owned) {r : Option FdProcIdx} (h : fdProcForPid s pid = (s', r)) :
    s.OnlyAdds E s' := by
  unfold fdProcForPid at h
  split at h
  · obtain ⟨rfl, -⟩ := Prod.mk.inj h
    exact .refl s
  split at h
  · obtain ⟨rfl, -⟩ := Prod.mk.inj h
    exact .refl s
  rename_i q hq
  obtain ⟨rfl, -⟩ := Prod.mk.inj h
  have hempty : ∀ i, (s.fds (q, i)).used = false := fun i => hown (q, i) (findProc_some hq)
  exact ((FdState.OnlyAdds.refl s).clearProc hempty pid).trans (fdEnsureStdio_adds _ q)

theorem fdProcWithStdio_adds (hown : s.Owned) {r : Option FdProcIdx}
    (h : fdProcWithStdio s pid = (s', r)) : s.OnlyAdds E s' := by
  unfold fdProcWithStdio at h
  split at h
  · rename_i s1 q hq
    obtain ⟨rfl, -⟩ := Prod.mk.inj h
    exact (fdProcForPid_adds hown hq).trans (fdEnsureStdio_adds s1 q)
  rename_i s1 hq
  obtain ⟨rfl, -⟩ := Prod.mk.inj h
  exact fdProcForPid_adds hown hq

theorem fdAlloc_adds {m : ℤ} {r : Option FdIdx} (h : fdAlloc s p m = (s', r)) :
    s.OnlyAdds E s' ∧ ∀ i, r = some i → (s.fds (p, i)).used = false := by
  cases r with
  | none =>
    rw [fdAlloc_none h]
    exact ⟨.refl s, fun i hi => by simp at hi⟩
  | some i =>
    obtain ⟨rfl, hfree⟩ := fdAlloc_some h
    refine ⟨(FdState.OnlyAdds.refl s).setFree hfree fun _ => .of_kind (by simp) (by simp), fun j hj => ?_⟩
    rw [← Option.some.inj hj]
    exact hfree

/-- `fdInstall` in a descriptor that was not in use at the start of the call. -/
theorem fdInstall_adds {s0 : FdState} {e : FdEntry} {done : Bool} (h0 : s0.OnlyAdds E s)
    (hfree : (s0.fds (p, i)).used = false) (hk : e.Plain E) (h : fdInstall s p i e = (s', done)) :
    s0.OnlyAdds E s' := by
  unfold fdInstall at h
  split at h
  all_goals
    rename_i hr
    obtain ⟨rfl, -⟩ := Prod.mk.inj h
    have h1 := h0.then_fds (fileRefAlloc_fds hr)
  · exact h1.clearFree hfree
  · exact h1.setFree hfree fun _ => hk

theorem plain_socket (sid : ℕ) (nonblock cloexec : Bool) : (socketEntry sid nonblock cloexec).Plain E :=
  .of_kind (by simp [socketEntry]) (by simp [socketEntry])

theorem closeFree {s0 : FdState} (h0 : s0.OnlyAdds E s) (hfree : (s0.fds (p, i)).used = false)
    (window : ℕ → List ℕ) : s0.OnlyAdds E (closeFd window s p i) :=
  (h0.clearFree hfree).then_fds (closeFd_fds window s p i)

end Helpers

/-! ## The calls -/

namespace FdState.OnlyAdds

variable {E : ℤ → Prop} {s s' : FdState} {pid : ℤ} {p : FdProcIdx} {i : FdIdx}

theorem doSysFcntlSetfd (hown : s.Owned) (fd : ℤ) (cloexec : Bool) :
    s.OnlyAdds E (EdgeOS.doSysFcntlSetfd s pid fd cloexec).1 := by
  unfold EdgeOS.doSysFcntlSetfd
  split
  · rename_i hf
    exact fdProcWithStdio_adds hown hf
  rename_i s1 p hf
  have h1 : s.OnlyAdds E s1 := fdProcWithStdio_adds hown hf
  split
  · exact h1
  · exact h1.setSame rfl rfl

theorem doSysFcntlSetfl (hown : s.Owned) (fd : ℤ) (arg : BitVec 32) :
    s.OnlyAdds E (EdgeOS.doSysFcntlSetfl s pid fd arg).1 := by
  unfold EdgeOS.doSysFcntlSetfl
  split
  · rename_i hf
    exact fdProcWithStdio_adds hown hf
  rename_i s1 p hf
  have h1 : s.OnlyAdds E s1 := fdProcWithStdio_adds hown hf
  split
  · exact h1
  rename_i i _
  have h2 : s.OnlyAdds E (s1.setFd p i
      { s1.fds (p, i) with flags := setflFlags (s1.fds (p, i)).flags arg }) := h1.setSame rfl rfl
  dsimp only
  split
  · split_ifs
    · exact h2.then_fds rfl
    · exact h2
  · exact h2

theorem doSysPipe (hown : s.Owned) (flags : BitVec 32) (copied : Bool) :
    s.OnlyAdds E (EdgeOS.doSysPipe s pid flags copied).1 := by
  unfold EdgeOS.doSysPipe
  split
  · exact refl s
  split
  · rename_i hf
    exact fdProcWithStdio_adds hown hf
  rename_i s1 p hf
  have h1 : s.OnlyAdds E s1 := fdProcWithStdio_adds hown hf
  split
  · exact h1
  rename_i o id _
  have h2 : s.OnlyAdds E { s1 with objs := o } := h1.then_fds rfl
  dsimp only
  split
  · rename_i hr
    exact (h2.trans (fdAlloc_adds hr).1).then_fds rfl
  rename_i s3 r hr
  obtain ⟨h3, hr0⟩ := fdAlloc_adds hr
  have hr0 := h2.free_before (hr0 r rfl)
  have h3 := h2.trans h3
  split
  · rename_i hw
    exact ((h3.trans (fdAlloc_adds hw).1).clearFree hr0).then_fds rfl
  rename_i s4 w hw
  obtain ⟨h4, hw0⟩ := fdAlloc_adds hw
  have hw0 := h3.free_before (hw0 w rfl)
  have h4 := h3.trans h4
  split
  · rename_i hi
    exact ((fdInstall_adds h4 hr0 (.of_kind (by simp) (by simp)) hi).clearFree hw0).then_fds rfl
  rename_i s5 hi
  have h5 := fdInstall_adds h4 hr0 (.of_kind (by simp) (by simp)) hi
  split
  · rename_i hj
    have h6 := fdInstall_adds h5 hw0 (.of_kind (by simp) (by simp)) hj
    exact ((h6.then_fds (fileRefPut_fds _ _)).clearFree hr0).then_fds rfl
  rename_i s6 hj
  have h6 := fdInstall_adds h5 hw0 (.of_kind (by simp) (by simp)) hj
  let x : Pipe := { s6.objs.pipes id with
    readers := (s6.objs.pipes id).readers + 1, writers := (s6.objs.pipes id).writers + 1 }
  have h7 : s.OnlyAdds E { s6 with objs := s6.objs.setPipe id x } := h6.then_fds rfl
  split
  · exact h7
  · exact closeFree (closeFree h7 hr0 _) hw0 _

theorem allocSpecialFd (hown : s.Owned) {kind : FdKind} {id : ℤ} {flags : BitVec 32}
    {r : Option FdIdx} (h : EdgeOS.allocSpecialFd s pid kind id flags = (s', r))
    (hk : ∀ e : FdEntry, e.kind = kind → e.pipeId = id → e.Plain E) : s.OnlyAdds E s' := by
  unfold EdgeOS.allocSpecialFd at h
  split at h
  · rename_i hf
    obtain ⟨rfl, -⟩ := Prod.mk.inj h
    exact fdProcWithStdio_adds hown hf
  rename_i s1 p hf
  have h1 : s.OnlyAdds E s1 := fdProcWithStdio_adds hown hf
  split at h
  · rename_i ha
    obtain ⟨rfl, -⟩ := Prod.mk.inj h
    exact h1.trans (fdAlloc_adds ha).1
  rename_i s2 i ha
  obtain ⟨h2, hi0⟩ := fdAlloc_adds (E := E) ha
  have hi0 := h1.free_before (hi0 i rfl)
  split at h
  all_goals
    rename_i hi
    obtain ⟨rfl, -⟩ := Prod.mk.inj h
    exact fdInstall_adds (h1.trans h2) hi0 (hk _ rfl rfl) hi

theorem createSpecial (hown : s.Owned) (k : SpecialKind) (flags : BitVec 32)
    (hE : k = .epoll → ∀ o id, specialAllocObj k s.objs = (o, some id) → E id) :
    s.OnlyAdds E (EdgeOS.createSpecial k s pid flags).1 := by
  unfold EdgeOS.createSpecial
  split
  · exact refl s
  rename_i o id halloc
  have h1 : s.OnlyAdds E { s with objs := o } := of_fds rfl
  have hplain : ∀ e : FdEntry, e.kind = k.fdKind → e.pipeId = id → e.Plain E := by
    intro e hk hid
    unfold FdEntry.Plain
    rw [hk, hid]
    refine ⟨by cases k <;> simp [SpecialKind.fdKind], fun hke => ?_⟩
    have hepoll : k = .epoll := by
      cases k <;> simp [SpecialKind.fdKind] at hke ⊢
    exact hE hepoll o id halloc
  have hown1 : FdState.Owned { s with objs := o } := hown
  split
  all_goals
    rename_i ha
    have h2 := h1.trans (allocSpecialFd hown1 ha hplain)
  · exact h2
  · exact h2.then_fds rfl

/-! Calls on sockets. -/

theorem doSysSocket (hown : s.Owned) (domain type protocol : ℤ) (nonblock cloexec pcb : Bool) (window later : List ℕ) :
    s.OnlyAdds E (EdgeOS.doSysSocket s pid domain type protocol nonblock cloexec pcb window later).1 := by
  unfold EdgeOS.doSysSocket
  split
  · exact refl s
  split
  · exact refl s
  split
  · rename_i hf
    exact fdProcWithStdio_adds hown hf
  rename_i s1 p hf
  have h1 : s.OnlyAdds E s1 := fdProcWithStdio_adds hown hf
  split
  · rename_i ha
    exact h1.trans (fdAlloc_adds ha).1
  rename_i s2 i ha
  obtain ⟨h2, hi0⟩ := fdAlloc_adds (E := E) ha
  have hi0 := h1.free_before (hi0 i rfl)
  have h2 := h1.trans h2
  split
  · exact h2.clearFree hi0
  rename_i o sid _
  dsimp only
  split
  · exact (h2.clearFree hi0).then_fds rfl
  have h3 : ∀ x, s.OnlyAdds E { s2 with objs := (edgeTcpAcceptCbs o later).setSocket sid x } :=
    fun x => h2.then_fds rfl
  split
  all_goals
    rename_i hi
    have h4 := fdInstall_adds (h3 _) hi0 (plain_socket _ _ _) hi
  · exact h4
  · exact h4.then_fds rfl

theorem doSysSocketpair (hown : s.Owned) (nonblock cloexec copied : Bool) (window window' later : List ℕ) : s.OnlyAdds E
      (EdgeOS.doSysSocketpair s pid nonblock cloexec copied window window' later).1 := by
  unfold EdgeOS.doSysSocketpair
  split
  · rename_i hf
    exact fdProcWithStdio_adds hown hf
  rename_i s1 p hf
  have h1 : s.OnlyAdds E s1 := fdProcWithStdio_adds hown hf
  split
  · rename_i ha
    exact h1.trans (fdAlloc_adds ha).1
  rename_i s2 i ha
  obtain ⟨h2, hi0⟩ := fdAlloc_adds (E := E) ha
  have hi0 := h1.free_before (hi0 i rfl)
  have h2 := h1.trans h2
  split
  · rename_i hb
    exact (h2.trans (fdAlloc_adds hb).1).clearFree hi0
  rename_i s3 j hb
  obtain ⟨h3, hj0⟩ := fdAlloc_adds hb
  have hj0 := h2.free_before (hj0 j rfl)
  have h3 := h2.trans h3
  have hclear : s.OnlyAdds E ((s3.setFd p i {}).setFd p j {}) := (h3.clearFree hi0).clearFree hj0
  split
  · exact hclear
  rename_i o sid0 _
  split
  · exact hclear.then_fds rfl
  rename_i o' sid1 _
  dsimp only
  generalize (((edgeTcpAcceptCbs o' later).setSocket sid0 _).setSocket sid1 _) = o2
  have h4 : s.OnlyAdds E { s3 with objs := o2 } := h3.then_fds rfl
  split
  · rename_i hi
    have h5 := fdInstall_adds h4 hi0 (plain_socket _ _ _) hi
    exact (h5.clearFree hj0).then_fds rfl
  rename_i s5 hi
  have h5 := fdInstall_adds h4 hi0 (plain_socket _ _ _) hi
  split
  · rename_i s6 hj
    have h6 := fdInstall_adds h5 hj0 (plain_socket _ _ _) hj
    exact ((h6.then_fds (fileRefPut_fds _ _)).clearFree hi0).then_fds rfl
  rename_i s6 hj
  have h6 := fdInstall_adds h5 hj0 (plain_socket _ _ _) hj
  split
  · exact h6
  generalize hs7 : EdgeOS.fileRefPut (EdgeOS.fileRefPut s6
      (s6.fds (p, i)).fileRef) (s6.fds (p, j)).fileRef = s7
  have hfds : s7.fds = s6.fds := by
    rw [← hs7, fileRefPut_fds, fileRefPut_fds]
  exact (((h6.then_fds hfds).clearFree hi0).clearFree hj0).then_fds rfl

theorem socketFromFd (hown : s.Owned) {fd : ℤ} {r : Option (FdProcIdx × FdIdx × ℕ)}
    (h : EdgeOS.socketFromFd s pid fd = (s', r)) : s.OnlyAdds E s' := by
  unfold EdgeOS.socketFromFd at h
  split at h
  · rename_i hf
    obtain ⟨rfl, -⟩ := Prod.mk.inj h
    exact fdProcWithStdio_adds hown hf
  rename_i s1 q hf
  have h1 : s.OnlyAdds E s1 := fdProcWithStdio_adds hown hf
  split at h
  · obtain ⟨rfl, -⟩ := Prod.mk.inj h
    exact h1
  split at h
  · split at h
    all_goals
      obtain ⟨rfl, -⟩ := Prod.mk.inj h
      exact h1
  · obtain ⟨rfl, -⟩ := Prod.mk.inj h
    exact h1

theorem doSysListen (hown : s.Owned) (fd backlog : ℤ) (granted : Bool) :
    s.OnlyAdds E (EdgeOS.doSysListen s pid fd backlog granted).1 := by
  unfold EdgeOS.doSysListen
  split
  · rename_i hf
    exact socketFromFd hown hf
  rename_i s1 _ _ _ hf
  have h1 : s.OnlyAdds E s1 := socketFromFd hown hf
  dsimp only
  split_ifs
  all_goals first
    | exact h1
    | exact h1.then_fds rfl

theorem doSysAccept (hown : s.Owned) (fd : ℤ) (copied : Bool) (later : List ℕ) :
    s.OnlyAdds E (EdgeOS.doSysAccept s pid fd copied later).1 := by
  unfold EdgeOS.doSysAccept
  split
  · rename_i hf
    exact socketFromFd hown hf
  rename_i s1 p i l hf
  have h1 : s.OnlyAdds E s1 := socketFromFd hown hf
  split
  · exact h1
  split
  · exact h1
  rename_i o sid _
  split
  · exact h1.then_fds rfl
  have h2 : s.OnlyAdds E { s1 with objs := edgeTcpAcceptCbs o later } := h1.then_fds rfl
  dsimp only
  split
  · rename_i ha
    exact (h2.trans (fdAlloc_adds ha).1).then_fds rfl
  rename_i s2 j ha
  obtain ⟨h3, hj0⟩ := fdAlloc_adds (E := E) ha
  have hj0 := h2.free_before (hj0 j rfl)
  have h3 := h2.trans h3
  split
  all_goals
    rename_i hi
    have h4 := fdInstall_adds h3 hj0 (plain_socket _ _ _) hi
  · exact h4.then_fds rfl
  · split
    · exact h4
    · exact closeFree h4 hj0 _

/-! Calls that set up the table twice: the second time on a state that the first part has left. -/

variable {R : Prop} {N : ℤ} {F : Holders} {G : ℕ → ℕ}

theorem doSysSignalfd4 (h : FdInv R N F G s) (hpos : 0 < pid) (hN : pid < N) (fd : ℤ)
    (flags : BitVec 32) : s.OnlyAdds E (EdgeOS.doSysSignalfd4 s pid fd flags).1 := by
  unfold EdgeOS.doSysSignalfd4
  split
  rename_i s1 r hf
  have h1 : s.OnlyAdds E s1 := fdProcWithStdio_adds h.owned hf
  have hinv := (h.fdProcWithStdio hpos hN hf).1
  split
  · exact h1
  split
  · exact h1.trans (createSpecial hinv.owned _ _ (by simp))
  split
  · exact h1
  rename_i p
  split
  · exact h1
  rename_i i _
  dsimp only
  split
  · split
    · exact h1.setSame rfl rfl
    · exact h1
  · exact h1

theorem doSysAccept4 (h : FdInv R N F G s) (hpos : 0 < pid) (hN : pid < N) (fd : ℤ)
    (flags : BitVec 32) (copied : Bool) (later : List ℕ) :
    s.OnlyAdds E (EdgeOS.doSysAccept4 s pid fd flags copied later).1 := by
  have h1 : s.OnlyAdds E (EdgeOS.doSysAccept s pid fd copied later).1 := doSysAccept h.owned fd copied later
  have hinv := h.doSysAccept hpos hN fd copied later
  unfold EdgeOS.doSysAccept4
  split
  · exact refl s
  split
  · rename_i hd
    rw [hd] at h1
    exact h1
  rename_i s1 r hd
  rw [hd] at h1 hinv
  split
  · rename_i hf
    exact h1.trans (fdProcWithStdio_adds hinv.owned hf)
  rename_i s2 p hf
  have h2 := h1.trans (fdProcWithStdio_adds hinv.owned hf)
  split
  · exact h2
  rename_i i _
  dsimp only
  split
  · split
    · have h3 : s.OnlyAdds E (s2.setFd p i { s2.fds (p, i) with
          cloexec := (s2.fds (p, i)).cloexec || hasFlag flags linuxSockCloexec
          flags := (s2.fds (p, i)).flags ||| linuxONonblock }) := h2.setSame rfl rfl
      exact h3.then_fds rfl
    · exact h2.setSame rfl rfl
  · exact h2.setSame rfl rfl

theorem ioctlPtyLock (hown : s.Owned) (fd : ℤ) (lock : Bool) : s.OnlyAdds E (EdgeOS.ioctlPtyLock s pid fd lock).1 := by
  unfold EdgeOS.ioctlPtyLock
  split
  · rename_i hf
    exact fdProcWithStdio_adds hown hf
  rename_i s1 p hf
  have h1 : s.OnlyAdds E s1 := fdProcWithStdio_adds hown hf
  split
  · exact h1
  split
  · split
    · exact h1.then_fds rfl
    · exact h1
  · exact h1
  · exact h1

end FdState.OnlyAdds

/-! ## Opening a path -/

/-- A call that opens a path adds a descriptor that is no file, or the file it has found. -/
structure FdState.Opens (E : ℤ → Prop) (name : String) (inode : VfsInode) (sb : Option ℕ) (x : FdProcIdx × FdIdx)
    (s s' : FdState) : Prop where
  free : (s.fds x).used = false
  used : (s'.fds x).used = true
  kind : (s'.fds x).kind = .vfs
  ino : (s'.fds x).inode.ino = inode.ino
  sb : (s'.fds x).sb = sb
  path : (s'.fds x).path = name
  others : ∃ s1, s.OnlyAdds E s1 ∧ ∀ y, y ≠ x → s'.fds y = s1.fds y

section Opening

variable {E : ℤ → Prop} {s s' : FdState} {pid : ℤ} {p : FdProcIdx} {i : FdIdx}

theorem openTty_adds (s : FdState) (p : FdProcIdx) (cur : Caller) (flags : BitVec 32) :
    s.OnlyAdds E (openTty s p cur flags).1 := by
  unfold openTty
  split
  · rename_i ha
    exact (fdAlloc_adds ha).1
  rename_i s1 i ha
  obtain ⟨h1, hi0⟩ := fdAlloc_adds (E := E) ha
  have hi0 := hi0 i rfl
  split
  all_goals
    rename_i s2 hi
    have h2 := fdInstall_adds h1 hi0 (.of_kind (by simp [ttyEntry]) (by simp [ttyEntry])) hi
  · exact h2
  unfold attachTty
  dsimp only
  split
  · exact h2.setFree hi0 fun _ => .of_kind (by simp) (by simp)
  split
  · split
    · exact h2.clearFree hi0
    split
    · exact h2.clearFree hi0
    rename_i j _ _
    have h3 : s.OnlyAdds E (s2.setFd p i { s2.fds (p, i) with kind := .ptySlave, pipeId := j }) :=
      h2.setFree hi0 fun _ => .of_kind (by simp) (by simp)
    exact h3.then_fds rfl
  · exact h2.clearFree hi0

theorem openPtmx_adds (s : FdState) (p : FdProcIdx) (flags : BitVec 32) : s.OnlyAdds E (openPtmx s p flags).1 := by
  unfold openPtmx
  split
  · rename_i ha
    exact (fdAlloc_adds ha).1
  rename_i s1 i ha
  obtain ⟨h1, hi0⟩ := fdAlloc_adds (E := E) ha
  have hi0 := hi0 i rfl
  split
  · exact h1.clearFree hi0
  rename_i o id _
  have h2 : s.OnlyAdds E { s1 with objs := o } := h1.then_fds rfl
  dsimp only
  split
  all_goals
    rename_i hi
    have h3 := fdInstall_adds h2 hi0 (.of_kind (by simp) (by simp)) hi
  · exact h3
  · exact h3.then_fds rfl

theorem openPts_adds (s : FdState) (p : FdProcIdx) (cur : Caller) (flags : BitVec 32) (path : String) :
    s.OnlyAdds E (openPts s p cur flags path).1 := by
  unfold openPts
  split
  · exact .refl s
  split
  · exact .refl s
  split
  · rename_i ha
    exact (fdAlloc_adds ha).1
  rename_i s1 i ha
  obtain ⟨h1, hi0⟩ := fdAlloc_adds (E := E) ha
  have hi0 := hi0 i rfl
  dsimp only
  split
  all_goals
    rename_i s2 hi
    have h2 := fdInstall_adds h1 hi0 (.of_kind (by simp) (by simp)) hi
  · exact h2
  · exact h2.then_fds rfl

/-- The last part of `do_sys_openat` opens the file, or it fails and opens nothing. -/
theorem openVfs_opens (s : FdState) (p : FdProcIdx) (cur : Caller) (flags : BitVec 32)
    (path : String) (inode : VfsInode) (sb : Option ℕ) :
    (s.OnlyAdds E (openVfs s p cur flags path inode sb).1 ∧ ∃ e, (openVfs s p cur flags path inode sb).2 = .error e) ∨
      (∃ n, (openVfs s p cur flags path inode sb).2 = .ok n) ∧
        ∃ x, s.Opens E path inode sb x (openVfs s p cur flags path inode sb).1 := by
  unfold openVfs
  split
  · exact .inl ⟨.refl s, _, rfl⟩
  split
  · rename_i ha
    exact .inl ⟨(fdAlloc_adds ha).1, _, rfl⟩
  rename_i s1 i ha
  obtain ⟨h1, hi0⟩ := fdAlloc_adds (E := E) ha
  have hi0 := hi0 i rfl
  dsimp only [fdInstall]
  rcases fileRefAlloc_cases s1 with hnone | ⟨ref, href, -, hfree, heq⟩
  · rw [hnone]
    exact .inl ⟨h1.clearFree hi0, _, rfl⟩
  rw [heq]
  obtain ⟨n, rfl⟩ : ∃ n, ref = n + 1 := ⟨ref - 1, by omega⟩
  refine .inr ⟨⟨i.val, rfl⟩, (p, i), ?_⟩
  let e : FdEntry := { openedEntry cur flags path inode sb with used := true, fileRef := n + 1 }
  change s.Opens E path inode sb (p, i) ((s1.setFileRef (n + 1) { used := true, refs := 1 }).setFd p i e)
  have hself : ((s1.setFileRef (n + 1) { used := true, refs := 1 }).setFd p i e).fds (p, i) = e :=
    update_self _ _ _
  have hino : e.inode.ino = inode.ino := by
    dsimp only [e, openedEntry]
    split <;> rfl
  refine ⟨hi0, ?_, ?_, ?_, ?_, ?_, s1, h1, fun y hy => update_of_ne hy _ _⟩
  all_goals rw [hself]
  · rfl
  · exact hino
  · rfl
  · rfl

/-- `do_sys_openat` opens a file under the name it was given and succeeds, or it opens no file. Then
the name is that of a terminal, or the call fails. -/
theorem doSysOpenat_opens (hown : s.Owned) (cur : Caller) (flags : BitVec 32)
    (path : Except Errno String) (resolved : Option (VfsInode × Option ℕ)) :
    (s.OnlyAdds E (doSysOpenat s cur flags path resolved).1 ∧
      ((∃ e, (doSysOpenat s cur flags path resolved).2 = .error e) ∨ ∃ name, path = .ok name ∧
          (name = "/dev/tty" ∨ name = "/dev/ptmx" ∨ name.startsWith "/dev/pts/" = true))) ∨
    ∃ name inode sb x, path = .ok name ∧ resolved = some (inode, sb) ∧
      (∃ n, (doSysOpenat s cur flags path resolved).2 = .ok n) ∧
        s.Opens E name inode sb x (doSysOpenat s cur flags path resolved).1 := by
  unfold doSysOpenat
  split
  · rename_i hf
    exact .inl ⟨fdProcWithStdio_adds hown hf, .inl ⟨_, rfl⟩⟩
  rename_i s1 p hf
  have h1 : s.OnlyAdds E s1 := fdProcWithStdio_adds hown hf
  split
  · exact .inl ⟨h1, .inl ⟨_, rfl⟩⟩
  rename_i name
  split
  · rename_i hname
    exact .inl ⟨h1.trans (openTty_adds s1 p cur flags), .inr ⟨name, rfl, .inl hname⟩⟩
  split
  · rename_i hname
    exact .inl ⟨h1.trans (openPtmx_adds s1 p flags), .inr ⟨name, rfl, .inr (.inl hname)⟩⟩
  split
  · rename_i hname
    exact .inl ⟨h1.trans (openPts_adds s1 p cur flags name), .inr ⟨name, rfl, .inr (.inr hname)⟩⟩
  split
  · exact .inl ⟨h1, .inl ⟨_, rfl⟩⟩
  rename_i inode sb
  rcases openVfs_opens s1 p cur flags name inode sb with ⟨h2, herr⟩ | ⟨hok, x, h2⟩
  · exact .inl ⟨h1.trans h2, .inl herr⟩
  obtain ⟨s2, h2', hothers⟩ := h2.others
  exact .inr ⟨name, inode, sb, x, rfl, rfl, hok, h1.free_before h2.free, h2.used, h2.kind, h2.ino,
    h2.sb, h2.path, s2, h1.trans h2', hothers⟩

end Opening

/-! ## Copies -/

section Copies

variable {E : ℤ → Prop} {s s' : FdState} {pid : ℤ} {p : FdProcIdx} {i : FdIdx}

/-- The table that a call sets up is the one the process has, or one that nobody had. -/
theorem fdProcWithStdio_table (h : fdProcWithStdio s pid = (s', some p)) :
    findProc s pid = some p ∨ findProc s pid = none ∧ findProc s 0 = some p := by
  unfold fdProcWithStdio fdProcForPid at h
  cases hp : findProc s pid with
  | some q =>
    rw [hp] at h
    have heq := (Prod.mk.inj h).2
    exact .inl heq
  | none =>
    cases h0 : findProc s 0 with
    | none =>
      rw [hp, h0] at h
      simp at h
    | some q =>
      rw [hp, h0] at h
      have heq := (Prod.mk.inj h).2
      exact .inr ⟨rfl, heq⟩

/-- A copy writes one descriptor: with what it copies, or, if no reference can be taken, with nothing. -/
theorem dupInto_fds (s : FdState) (p : FdProcIdx) (i : FdIdx) (e : FdEntry) (cloexec : Bool) :
    ∃ e', (dupInto s p i e cloexec).1.fds = update s.fds (p, i) e' ∧
      (e' = {} ∨ e' = { e with cloexec := cloexec }) := by
  unfold dupInto
  split
  · exact ⟨{}, rfl, .inl rfl⟩
  rename_i s1 hg
  split_ifs at hg
  have hfds := (fileRefGet_frame hg).1
  refine ⟨{ e with cloexec := cloexec }, ?_, .inr rfl⟩
  dsimp only [FdState.setFd]
  rw [hfds]

/-- One round of the loop of `fd_clone_after_fork` writes one descriptor of the child. -/
theorem cloneFd_fds (parent child : FdProcIdx) (cbs : FdIdx → List ℕ) (s : FdState) (i : FdIdx) :
    (cloneFd parent child cbs s i).fds = s.fds ∨ ∃ e, (cloneFd parent child cbs s i).fds = update s.fds (child, i) e ∧
        (e = {} ∨ e = s.fds (parent, i)) := by
  unfold cloneFd
  dsimp only
  split
  · exact .inl rfl
  split
  · split
    · exact .inr ⟨{}, rfl, .inl rfl⟩
    · rename_i s2 hg
      have hfds : s2.fds = s.fds := (fileRefGet_frame hg).1
      refine .inr ⟨s.fds (parent, i), ?_, .inr rfl⟩
      dsimp only [FdState.setFd]
      rw [hfds]
  · exact .inr ⟨s.fds (parent, i), rfl, .inr rfl⟩

end Copies

/-! ## Closing on exec -/

def execEntry (i : FdIdx) (e : FdEntry) : FdEntry :=
  if !e.used ∨ !e.cloexec then e else if i.val ≤ 2 then { e with cloexec := false } else {}

theorem execEntry_eq {i : FdIdx} {e : FdEntry} : execEntry i e = e ↔ (e.used = true → e.cloexec = false) := by
  unfold execEntry
  cases hu : e.used <;> cases hc : e.cloexec <;> simp
  split_ifs
  · intro he
    have hc' := congrArg FdEntry.cloexec he
    rw [hc] at hc'
    simp at hc'
  · intro he
    have hu' := congrArg FdEntry.used he
    rw [hu] at hu'
    simp at hu'

theorem execCloseLoop_fds (window : ℕ → List ℕ) (p : FdProcIdx) (l : List FdIdx) (hl : l.Nodup) (s : FdState) :
    let s' := l.foldl (fun s i =>
      let e := s.fds (p, i)
      if !e.used ∨ !e.cloexec then s
      else if i.val ≤ 2 then s.setFd p i { e with cloexec := false }
      else closeFd window s p i) s
    s'.procPid = s.procPid ∧ ∀ i, s'.fds (p, i) = if i ∈ l then execEntry i (s.fds (p, i)) else s.fds (p, i) := by
  induction l generalizing s with
  | nil => exact ⟨rfl, fun i => by simp⟩
  | cons j l ih =>
    rw [nodup_cons] at hl
    dsimp only
    rw [foldl_cons]
    have hone : ∃ s1 : FdState, (if !(s.fds (p, j)).used ∨ !(s.fds (p, j)).cloexec then s
        else if j.val ≤ 2 then s.setFd p j { s.fds (p, j) with cloexec := false }
        else closeFd window s p j) = s1 ∧ s1.procPid = s.procPid ∧
          s1.fds (p, j) = execEntry j (s.fds (p, j)) ∧ ∀ i, i ≠ j → s1.fds (p, i) = s.fds (p, i) := by
      refine ⟨_, rfl, ?_⟩
      unfold execEntry
      split_ifs
      · exact ⟨rfl, rfl, fun i _ => rfl⟩
      · refine ⟨rfl, update_self _ _ _, fun i hi => ?_⟩
        exact update_of_ne (by simpa using hi) _ _
      · refine ⟨closeFd_procPid _ _ _ _, ?_, fun i hi => ?_⟩
        · rw [closeFd_fds]
          exact update_self _ _ _
        · rw [closeFd_fds]
          exact update_of_ne (by simpa using hi) _ _
    obtain ⟨s1, heq, hpid, hself, hother⟩ := hone
    rw [heq]
    obtain ⟨hpid', hfds'⟩ := ih hl.2 s1
    refine ⟨hpid'.trans hpid, fun i => ?_⟩
    rw [hfds']
    by_cases hij : i = j
    · rw [hij, if_neg hl.1, hself, if_pos (by simp)]
    · rw [hother i hij]
      simp [hij]

/-- An exec leaves a process its descriptors exactly when none of them is to be closed. -/
theorem execCloseFds_fdsOf (window : ℕ → List ℕ) (s : FdState) (pid : ℤ) (i : FdIdx) :
    (execCloseFds window s pid).fdsOf pid i = execEntry i (s.fdsOf pid i) := by
  unfold execCloseFds FdState.fdsOf
  cases hp : findProc s pid with
  | none =>
    dsimp only
    rw [hp]
    rfl
  | some p =>
    obtain ⟨hpid, hfds⟩ := execCloseLoop_fds window p (finRange edgeMaxFd) (nodup_finRange _) s
    have hp' : findProc ((finRange edgeMaxFd).foldl (fun s i =>
        let e := s.fds (p, i)
        if !e.used ∨ !e.cloexec then s
        else if i.val ≤ 2 then s.setFd p i { e with cloexec := false }
        else closeFd window s p i) s) pid = some p := by
      rw [← hp]
      unfold findProc
      rw [hpid]
    dsimp only at hp' ⊢
    rw [hp']
    dsimp only
    rw [hfds, if_pos (mem_finRange i)]

/-- Reading a descriptor through a process or through its table. -/
theorem fdsOf_of_find {s : FdState} {pid : ℤ} {p : FdProcIdx} (hp : findProc s pid = some p) (i : FdIdx) :
    s.fdsOf pid i = s.fds (p, i) := by
  unfold FdState.fdsOf
  rw [hp]

/-! ## Replacing descriptors -/

def FdEntry.held (e : FdEntry) : Option (FdKind × ℤ × ℕ × Option ℕ × String) :=
  if e.used then some e.object else none

/-- A change of table `p`: the descriptors of `keep` stay as they are, each other one is closed or
becomes a copy of one that stays. -/
structure FdState.Replaces (p : FdProcIdx) (keep : FdIdx → Prop) (s s' : FdState) : Prop where
  others : ∀ x, x.1 ≠ p → (s'.fds x).held = (s.fds x).held
  kept : ∀ i, keep i → (s'.fds (p, i)).held = (s.fds (p, i)).held
  rest : ∀ i, ¬ keep i → (s'.fds (p, i)).held = none ∨ ∃ j, keep j ∧ (s'.fds (p, i)).held = (s.fds (p, j)).held

section Replacing

variable {E : ℤ → Prop} {s s' s'' : FdState} {pid : ℤ} {p : FdProcIdx} {i : FdIdx} {keep : FdIdx → Prop}
variable {e : FdEntry} {o : FdKind × ℤ × ℕ × Option ℕ × String}

theorem held_some : e.held = some o ↔ e.used = true ∧ e.object = o := by
  unfold FdEntry.held
  split_ifs with hu <;> simp [hu]

theorem held_none : e.held = none ↔ e.used = false := by
  unfold FdEntry.held
  split_ifs with hu <;> simp [hu]

theorem held_congr {e' : FdEntry} (hu : e'.used = e.used) (ho : e'.object = e.object) : e'.held = e.held := by
  unfold FdEntry.held
  rw [hu, ho]

theorem FdState.OnlyAdds.held (h : s.OnlyAdds E s') {x : FdProcIdx × FdIdx} (hx : (s.fds x).held = some o) :
    (s'.fds x).held = some o := by
  obtain ⟨hu, ho⟩ := held_some.mp hx
  obtain ⟨hu', ho'⟩ := h.kept x hu
  exact held_some.mpr ⟨hu', ho'.trans ho⟩

/-- A descriptor that holds an object held it before, or the object is plain. -/
theorem FdState.OnlyAdds.held_before (h : s.OnlyAdds E s') {x : FdProcIdx × FdIdx}
    (hx : (s'.fds x).held = some o) : (s.fds x).held = some o ∨ o.1 ≠ .vfs ∧ (o.1 = .epoll → E o.2.1) := by
  cases hu : (s.fds x).used with
  | true =>
    obtain ⟨-, ho⟩ := h.kept x hu
    exact .inl (held_some.mpr ⟨hu, ho.symm.trans (held_some.mp hx).2⟩)
  | false =>
    obtain ⟨hu', ho⟩ := held_some.mp hx
    have hplain := h.fresh x hu hu'
    rw [← ho]
    exact .inr hplain

namespace FdState.Replaces

theorem refl (s : FdState) (p : FdProcIdx) (keep : FdIdx → Prop) (hall : ∀ i, ¬ keep i → (s.fds (p, i)).used = false) :
    s.Replaces p keep s :=
  ⟨fun _ _ => rfl, fun _ _ => rfl, fun i hi => .inl (held_none.mpr (hall i hi))⟩

/-- One descriptor is written: with nothing, or with a copy of another one. -/
theorem write (hfds : s'.fds = update s.fds (p, i) e)
    (he : e.used = false ∨ ∃ j, j ≠ i ∧ e.held = (s.fds (p, j)).held) :
    s.Replaces p (· ≠ i) s' := by
  refine ⟨fun x hx => ?_, fun j hj => ?_, fun j hj => ?_⟩
  · have hne : x ≠ (p, i) := fun heq => hx (congrArg Prod.fst heq)
    rw [hfds, update_of_ne hne]
  · have hne : (p, j) ≠ (p, i) := fun heq => hj (congrArg Prod.snd heq)
    rw [hfds, update_of_ne hne]
  · have hji : j = i := by simpa using hj
    rw [hfds, hji, update_self]
    rcases he with hu | ⟨m, hm, hh⟩
    · exact .inl (held_none.mpr hu)
    · exact .inr ⟨m, hm, hh⟩

end FdState.Replaces

/-- A change elsewhere in the table that closes descriptors or keeps them. -/
theorem FdState.Replaces.of_only (hother : ∀ x, x.1 ≠ p → s'.fds x = s.fds x)
    (hkept : ∀ i, keep i → (s'.fds (p, i)).held = (s.fds (p, i)).held)
    (hrest : ∀ i, ¬ keep i → (s'.fds (p, i)).used = false) : s.Replaces p keep s' :=
  ⟨fun x hx => by rw [hother x hx], hkept, fun i hi => .inl (held_none.mpr (hrest i hi))⟩

theorem find_fd {fd : ℤ} {j : FdIdx}
    (hj : ((finRange edgeMaxFd).find? fun j => (j.val : ℤ) = fd) = some j) : (j.val : ℤ) = fd := by
  simpa using find?_some hj

theorem find_of_val {fd : ℤ} {j : FdIdx} (hj : (j.val : ℤ) = fd) :
    ((finRange edgeMaxFd).find? fun j => (j.val : ℤ) = fd) = some j := by
  cases hf : (finRange edgeMaxFd).find? fun j => (j.val : ℤ) = fd with
  | none =>
    have hno := find?_eq_none.mp hf j (mem_finRange j)
    simp [hj] at hno
  | some i =>
    have hi := find_fd hf
    rw [show i = j from Fin.ext (by omega)]

theorem others_of_val {fd : ℤ} {j : FdIdx} (hj : (j.val : ℤ) = fd) : (fun i : FdIdx => (i.val : ℤ) ≠ fd) = (· ≠ j) := by
  funext i
  apply propext
  apply not_congr
  rw [Fin.ext_iff]
  omega

theorem fdGet_iff {fd : ℤ} : fdGet s p fd = some i ↔ (i.val : ℤ) = fd ∧ (s.fds (p, i)).used = true := by
  unfold fdGet
  constructor
  · intro hg
    split at hg
    · rename_i j hj
      split_ifs at hg with hu
      rw [← Option.some.inj hg]
      exact ⟨find_fd hj, hu⟩
    · simp at hg
  · rintro ⟨hi, hu⟩
    rw [find_of_val hi]
    dsimp only
    rw [if_pos hu]

theorem fdGet_eq_none {fd : ℤ} : fdGet s p fd = none ↔ ∀ i : FdIdx, (i.val : ℤ) = fd → (s.fds (p, i)).used = false := by
  constructor
  · intro hg i hi
    cases hu : (s.fds (p, i)).used with
    | false => rfl
    | true =>
      rw [fdGet_iff.mpr ⟨hi, hu⟩] at hg
      simp at hg
  · intro hall
    cases hg : fdGet s p fd with
    | none => rfl
    | some i =>
      obtain ⟨hi, hu⟩ := fdGet_iff.mp hg
      rw [hall i hi] at hu
      simp at hu

theorem doSysClose_replaces (window : ℕ → List ℕ) (hp : findProc s pid = some p) (fd : ℤ) :
    s.Replaces p (fun i => (i.val : ℤ) ≠ fd) (doSysClose window s pid fd).1 := by
  unfold doSysClose
  rw [hp]
  dsimp only
  cases hg : fdGet s p fd with
  | none =>
    refine .refl s p _ fun i hi => fdGet_eq_none.mp hg i ?_
    simpa using hi
  | some i =>
    rw [others_of_val (fdGet_iff.mp hg).1]
    exact .write (closeFd_fds window s p i) (.inl rfl)

/-- `do_sys_dup2` leaves the descriptors alone, or it closes the new number and makes it a copy. -/
theorem doSysDup2_replaces (window : ℕ → List ℕ) (s : FdState) (pid oldfd newfd : ℤ) :
    (doSysDup2 window s pid oldfd newfd).1 = (fdProcWithStdio s pid).1 ∨
      ∃ p i, (fdProcWithStdio s pid).2 = some p ∧ fdGet (fdProcWithStdio s pid).1 p oldfd = some i ∧
        oldfd ≠ newfd ∧ (fdProcWithStdio s pid).1.Replaces p (fun i => (i.val : ℤ) ≠ newfd)
          (doSysDup2 window s pid oldfd newfd).1 := by
  unfold doSysDup2
  rcases fdProcWithStdio s pid with ⟨s1, _ | p⟩
  · exact .inl rfl
  dsimp only
  rcases hg : fdGet s1 p oldfd with _ | i
  · exact .inl rfl
  generalize hj : find? _ (finRange edgeMaxFd) = r
  rcases r with _ | j
  · exact .inl rfl
  have hj : (j.val : ℤ) = newfd := find_fd hj
  dsimp only
  by_cases hij : i = j
  · rw [if_pos hij]
    exact .inl rfl
  rw [if_neg hij]
  have hfd : oldfd ≠ newfd := fun heq => hij (Fin.ext (by have := (fdGet_iff.mp hg).1; omega))
  refine .inr ⟨p, i, rfl, hg, hfd, ?_⟩
  rw [others_of_val hj]
  generalize hs2 : (if (s1.fds (p, j)).used = true then closeFd window s1 p j else s1) = s2
  have hne : (p, i) ≠ (p, j) := fun he => hij (congrArg Prod.snd he)
  have hsrc : s2.fds (p, i) = s1.fds (p, i) := by
    rw [← hs2]
    split_ifs
    · rw [closeFd_fds, update_of_ne hne]
    · rfl
  obtain ⟨e', hfds, hcopy⟩ := dupInto_fds s2 p j (s2.fds (p, i)) false
  refine .write (e := e') ?_ ?_
  · rw [hfds, ← hs2]
    split_ifs
    · rw [closeFd_fds, update_idem]
    · rfl
  · rcases hcopy with rfl | rfl
    · exact .inl rfl
    · refine .inr ⟨i, hij, ?_⟩
      rw [hsrc]
      exact held_congr rfl rfl

/-- `F_DUPFD` leaves the descriptors alone, or it makes a free one a copy. -/
theorem doSysFcntlDupfd_replaces (s : FdState) (pid fd minfd : ℤ) (cloexec : Bool) :
    (doSysFcntlDupfd s pid fd minfd cloexec).1 = (fdProcWithStdio s pid).1 ∨ ∃ p j, (fdProcWithStdio s pid).2 = some p ∧
        ((fdProcWithStdio s pid).1.fds (p, j)).used = false ∧
        (fdProcWithStdio s pid).1.Replaces p (· ≠ j) (doSysFcntlDupfd s pid fd minfd cloexec).1 := by
  unfold doSysFcntlDupfd
  rcases fdProcWithStdio s pid with ⟨s1, _ | p⟩
  · exact .inl rfl
  dsimp only
  rcases hg : fdGet s1 p fd with _ | i
  · exact .inl rfl
  dsimp only
  rcases ha : fdAlloc s1 p minfd with ⟨s2, _ | j⟩
  · rw [fdAlloc_none ha]
    exact .inl rfl
  obtain ⟨rfl, hfree⟩ := fdAlloc_some ha
  have hij : i ≠ j := by
    rintro rfl
    rw [(fdGet_iff.mp hg).2] at hfree
    simp at hfree
  have hne : (p, i) ≠ (p, j) := fun he => hij (congrArg Prod.snd he)
  refine .inr ⟨p, j, rfl, hfree, ?_⟩
  have hsrc : (s1.setFd p j { used := true }).fds (p, i) = s1.fds (p, i) := update_of_ne hne _ _
  obtain ⟨e', hfds, hcopy⟩ := dupInto_fds (s1.setFd p j { used := true }) p j (s1.fds (p, i)) cloexec
  dsimp only
  rw [hsrc]
  refine .write (e := e') ?_ ?_
  · rw [hfds]
    exact update_idem _ _ _
  · rcases hcopy with rfl | rfl
    · exact .inl rfl
    · exact .inr ⟨i, hij, held_congr rfl rfl⟩

/-- A loop that works on one table leaves the others alone. -/
theorem foldl_others {f : FdState → FdIdx → FdState} (hf : ∀ s i x, x.1 ≠ p → (f s i).fds x = s.fds x)
    (l : List FdIdx) (s : FdState) {x : FdProcIdx × FdIdx} (hx : x.1 ≠ p) : (l.foldl f s).fds x = s.fds x := by
  induction l generalizing s with
  | nil => rfl
  | cons i l ih =>
    rw [foldl_cons, ih]
    exact hf s i x hx

theorem execCloseFds_others (window : ℕ → List ℕ) (hp : findProc s pid = some p) {x : FdProcIdx × FdIdx}
    (hx : x.1 ≠ p) : (execCloseFds window s pid).fds x = s.fds x := by
  unfold execCloseFds
  rw [hp]
  apply foldl_others (fun s i x hx => ?_) _ _ hx
  have hne : x ≠ (p, i) := fun heq => hx (congrArg Prod.fst heq)
  dsimp only
  split_ifs
  · rfl
  · exact update_of_ne hne _ _
  · rw [closeFd_fds, update_of_ne hne]

theorem execCloseFds_procPid (window : ℕ → List ℕ) (s : FdState) (pid : ℤ) :
    (execCloseFds window s pid).procPid = s.procPid := by
  unfold execCloseFds
  split
  · rfl
  · exact (execCloseLoop_fds window _ _ (nodup_finRange _) s).1

theorem findProc_congr (h : s'.procPid = s.procPid) (pid : ℤ) : findProc s' pid = findProc s pid := by
  unfold findProc
  rw [h]

theorem execCloseFds_replaces (window : ℕ → List ℕ) (hp : findProc s pid = some p) :
    s.Replaces p (fun i => ¬ ((s.fdsOf pid i).cloexec = true ∧ 2 < i.val)) (execCloseFds window s pid) := by
  have hentry : ∀ i, (execCloseFds window s pid).fds (p, i) = execEntry i (s.fds (p, i)) := by
    intro i
    have hp' := (findProc_congr (execCloseFds_procPid window s pid) pid).trans hp
    rw [← fdsOf_of_find hp', execCloseFds_fdsOf, fdsOf_of_find hp]
  apply FdState.Replaces.of_only (fun x hx => execCloseFds_others window hp hx)
  · intro i hi
    rw [hentry, execEntry]
    rw [fdsOf_of_find hp] at hi
    split_ifs with hskip hlow
    · rfl
    · exact held_congr rfl rfl
    · rw [not_or] at hskip
      exact absurd ⟨by simpa using hskip.2, by omega⟩ hi
  · intro i hi
    rw [hentry, execEntry]
    rw [fdsOf_of_find hp, not_not] at hi
    split_ifs with hskip hlow
    · simpa [hi.1] using hskip
    · omega
    · rfl

theorem fdProcRelease_replaces (window : ℕ → List ℕ) (hp : findProc s pid = some p) :
    s.Replaces p (fun _ => False) (fdProcRelease window s pid) := by
  unfold fdProcRelease
  rw [hp]
  dsimp only
  apply FdState.Replaces.of_only
  · intro x hx
    have hclear : ∀ t : FdState, (t.clearProc p 0).fds x = t.fds x := fun t => if_neg hx
    rw [hclear]
    apply foldl_others (fun s i x hx => ?_) _ _ hx
    have hne : x ≠ (p, i) := fun heq => hx (congrArg Prod.fst heq)
    split_ifs
    · rw [closeFd_fds, update_of_ne hne]
    · rfl
  · exact fun _ hf => hf.elim
  · intro i _
    exact clearProc_unused _ _ _ i

/-- An exec that fails gives back what it has not closed. -/
theorem doSysExecve_replaces (window : ℕ → List ℕ) (hp : findProc s pid = some p) :
    s.Replaces p (fun _ => False) (doSysExecve window s pid false) := by
  have hp' := (findProc_congr (execCloseFds_procPid window s pid) pid).trans hp
  have h := fdProcRelease_replaces window hp'
  refine ⟨fun x hx => ?_, fun _ hf => hf.elim, fun i hi => ?_⟩
  · rw [← execCloseFds_others window hp hx]
    exact h.others x hx
  · rcases h.rest i hi with hnone | ⟨_, hf, -⟩
    · exact .inl hnone
    · exact hf.elim

end Replacing

end EdgeOS
