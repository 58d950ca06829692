import EdgeOS.DescriptorOps

namespace EdgeOS

open Lib Function

/-! The system calls on descriptors keep the accounting. -/

variable {R : Prop} {N : ℤ} {F : Holders} {G : ℕ → ℕ} {s s' : FdState}
variable {p : FdProcIdx} {i : FdIdx} {pid : ℤ} {window : ℕ → List ℕ}

namespace FdInv

/-! ## Closing -/

theorem doSysClose (h : FdInv R N F G s) (hw : R → ∀ i, i ∉ window i) (fd : ℤ) :
    FdInv R N F G (EdgeOS.doSysClose window s pid fd).1 := by
  unfold EdgeOS.doSysClose
  split
  · exact h
  split
  · exact h
  · rename_i hg
    exact h.closeFd hw (fdGet_some hg)

/-- The loop of `fd_proc_release`: the descriptors it has passed are unused. -/
theorem closeAll (h : FdInv R N F G s) (hw : R → ∀ i, i ∉ window i) (l : List FdIdx) :
    let s' := l.foldl (fun s i => if (s.fds (p, i)).used then EdgeOS.closeFd window s p i else s) s
    FdInv R N F G s' ∧ (∀ i ∈ l, (s'.fds (p, i)).used = false) ∧
      ∀ x, (s.fds x).used = false → (s'.fds x).used = false := by
  induction l generalizing s with
  | nil => exact ⟨h, by simp, fun _ hx => hx⟩
  | cons j l ih =>
    rw [List.foldl_cons]
    by_cases hu : (s.fds (p, j)).used = true
    · rw [if_pos hu]
      obtain ⟨h1, h2, h3⟩ := ih (h.closeFd hw hu)
      have hself : ((EdgeOS.closeFd window s p j).fds (p, j)).used = false := by simp
      refine ⟨h1, ?_, fun x hx => h3 x ?_⟩
      · rintro i hi
        rcases List.mem_cons.mp hi with rfl | hi
        · exact h3 _ hself
        · exact h2 i hi
      · rw [closeFd_fds]
        by_cases hxj : x = (p, j)
        · simp [hxj]
        · rwa [update_of_ne hxj]
    · rw [if_neg hu]
      obtain ⟨h1, h2, h3⟩ := ih h
      refine ⟨h1, ?_, h3⟩
      rintro i hi
      rcases List.mem_cons.mp hi with rfl | hi
      · exact h3 _ (by simpa using hu)
      · exact h2 i hi

theorem fdProcRelease (h : FdInv R N F G s) (hN : 0 < N) (hw : R → ∀ i, i ∉ window i) :
    FdInv R N F G (EdgeOS.fdProcRelease window s pid) := by
  unfold EdgeOS.fdProcRelease
  split
  · exact h
  rename_i p hp
  obtain ⟨h1, h2, -⟩ := h.closeAll (p := p) hw (List.finRange edgeMaxFd)
  exact h1.clearEmpty le_rfl hN fun i => h2 i (List.mem_finRange i)

theorem execCloseFds (h : FdInv R N F G s) (hw : R → ∀ i, i ∉ window i) :
    FdInv R N F G (EdgeOS.execCloseFds window s pid) := by
  unfold EdgeOS.execCloseFds
  split
  · exact h
  rename_i p hp
  clear hp
  generalize List.finRange edgeMaxFd = l
  induction l generalizing s with
  | nil => exact h
  | cons j l ih =>
    rw [List.foldl_cons]
    apply ih
    dsimp only
    split_ifs with hskip
    · exact h
    · exact h.rewrite rfl rfl rfl rfl fun hf => ⟨hf.named, hf.opened⟩
    · refine h.closeFd hw ?_
      by_contra hu
      exact hskip (.inl (by simpa using hu))

theorem doSysExecve (h : FdInv R N F G s) (hN : 0 < N) (hw : R → ∀ i, i ∉ window i)
    (loaded : Bool) : FdInv R N F G (EdgeOS.doSysExecve window s pid loaded) := by
  unfold EdgeOS.doSysExecve
  dsimp only
  split_ifs
  · exact h.execCloseFds hw
  · exact (h.execCloseFds hw).fdProcRelease hN hw

/-! ## Duplicating -/

theorem doSysFcntlDupfd (h : FdInv R N F G s) (hpos : 0 < pid) (hN : pid < N) (fd minfd : ℤ)
    (cloexec : Bool) : FdInv R N F G (EdgeOS.doSysFcntlDupfd s pid fd minfd cloexec).1 := by
  unfold EdgeOS.doSysFcntlDupfd
  split
  · rename_i hq
    exact (h.fdProcWithStdio hpos hN hq).1
  rename_i s1 p hq
  obtain ⟨h1, -, hp⟩ := h.fdProcWithStdio hpos hN hq
  split
  · exact h1
  rename_i i hg
  have hu := fdGet_some hg
  split
  · rename_i ha
    rw [fdAlloc_none ha]
    exact h1
  rename_i s2 j ha
  obtain ⟨h2, hb, -, hpid, hkeep⟩ := h1.fdAlloc (hp p rfl) ha
  refine h2.dupInto (hpid ▸ hp p rfl) ?_ hb cloexec
  rw [(hkeep i hu).2, hu]

theorem doSysFcntlSetfd (h : FdInv R N F G s) (hpos : 0 < pid) (hN : pid < N) (fd : ℤ)
    (cloexec : Bool) : FdInv R N F G (EdgeOS.doSysFcntlSetfd s pid fd cloexec).1 := by
  unfold EdgeOS.doSysFcntlSetfd
  split
  · rename_i hq
    exact (h.fdProcWithStdio hpos hN hq).1
  rename_i s1 p hq
  obtain ⟨h1, -⟩ := h.fdProcWithStdio hpos hN hq
  split
  · exact h1
  · exact h1.rewrite rfl rfl rfl rfl fun hf => ⟨hf.named, hf.opened⟩

theorem setSocket (h : FdInv R N F G s) {j : ℕ} {x : Socket} (hx : x.core = (s.objs.sockets j).core) :
    FdInv R N F G { s with objs := s.objs.setSocket j x } := by
  refine h.setObjs fun ho => ?_
  refine ho.setSockets (Objects.onlySockets_setSocket _ _ _)
    (fun hR => (ho.sockets hR).congr fun l => ?_) fun _ _ _ => rfl
  exact forall_write (P := fun l (y : Socket) => y.core = (s.objs.sockets l).core)
    (fun _ _ => rfl) hx l

theorem setflFlags_accmode (flags arg : BitVec 32) :
    setflFlags flags arg &&& linuxOAccmode = flags &&& linuxOAccmode := by
  unfold setflFlags
  ext i
  simp only [BitVec.getElem_and, BitVec.getElem_or, BitVec.getElem_not]
  cases flags[i] <;> cases arg[i] <;> cases linuxOAccmode[i] <;> rfl

theorem doSysFcntlSetfl (h : FdInv R N F G s) (hpos : 0 < pid) (hN : pid < N) (fd : ℤ)
    (arg : BitVec 32) : FdInv R N F G (EdgeOS.doSysFcntlSetfl s pid fd arg).1 := by
  unfold EdgeOS.doSysFcntlSetfl
  split
  · rename_i hq
    exact (h.fdProcWithStdio hpos hN hq).1
  rename_i s1 p hq
  obtain ⟨h1, -⟩ := h.fdProcWithStdio hpos hN hq
  split
  · exact h1
  rename_i i hg
  have h2 : FdInv R N F G (s1.setFd p i
      { s1.fds (p, i) with flags := setflFlags (s1.fds (p, i)).flags arg }) :=
    h1.rewrite rfl rfl rfl rfl fun hf => hf.setFlags (setflFlags_accmode _ arg)
  dsimp only
  split
  · split_ifs
    · exact h2.setSocket rfl
    · exact h2
  · exact h2

theorem doSysDup2 (h : FdInv R N F G s) (hpos : 0 < pid) (hN : pid < N) (hw : R → ∀ i, i ∉ window i) (oldfd newfd : ℤ) :
    FdInv R N F G (EdgeOS.doSysDup2 window s pid oldfd newfd).1 := by
  unfold EdgeOS.doSysDup2
  split
  · rename_i hq
    exact (h.fdProcWithStdio hpos hN hq).1
  rename_i s1 p hq
  obtain ⟨h1, -, hp⟩ := h.fdProcWithStdio hpos hN hq
  split
  · rename_i i j hg _
    have hu := fdGet_some hg
    split_ifs with hij hj
    · exact h1
    · have hne : (p, i) ≠ (p, j) := by simp [hij]
      refine (h1.closeFd hw hj).dupInto ?_ ?_ ?_ false
      · rw [closeFd_procPid]
        exact hp p rfl
      · rw [closeFd_fds, update_of_ne hne, hu]
      · rw [closeFd_fds, update_self]
        exact FdEntry.blank_unused rfl
    · exact h1.dupInto (hp p rfl) hu (FdEntry.blank_unused (by simpa using hj)) false
  · exact h1

theorem doSysDup3 (h : FdInv R N F G s) (hpos : 0 < pid) (hN : pid < N)
    (hw : R → ∀ i, i ∉ window i) (oldfd newfd : ℤ) (flags : BitVec 32) :
    FdInv R N F G (EdgeOS.doSysDup3 window s pid oldfd newfd flags).1 := by
  have hdup := h.doSysDup2 hpos hN hw oldfd newfd
  unfold EdgeOS.doSysDup3
  split
  · exact h
  split
  · rename_i heq
    rw [heq] at hdup
    exact hdup
  rename_i heq
  rw [heq] at hdup
  split
  · exact hdup.doSysFcntlSetfd hpos hN _ true
  · exact hdup

end FdInv

end EdgeOS
