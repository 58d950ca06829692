import EdgeOS.DescriptorSteps

namespace EdgeOS

open Lib Function

/-! Creating pipes and special objects keeps the accounting. -/

variable {R : Prop} {N : ℤ} {F : Holders} {G : ℕ → ℕ} {s s' : FdState}
variable {p : FdProcIdx} {i : FdIdx} {pid : ℤ}

/-! ## Calls that do not look at the objects -/

theorem fdAlloc_withObjs {m : ℤ} {r : Option FdIdx} (ha : fdAlloc s p m = (s', r)) (o : Objects) :
    fdAlloc { s with objs := o } p m = ({ s' with objs := o }, r) := by
  unfold fdAlloc at ha ⊢
  split at ha
  all_goals
    rename_i hf
    obtain ⟨rfl, rfl⟩ := Prod.mk.inj ha
    simp only [hf, FdState.setFd]

theorem fileRefAlloc_withObjs (s : FdState) (o : Objects) :
    fileRefAlloc { s with objs := o } = ({ (fileRefAlloc s).1 with objs := o }, (fileRefAlloc s).2) := by
  unfold fileRefAlloc
  dsimp only
  generalize (List.range edgeMaxFileRefs).find? _ = r
  cases r <;> rfl

theorem fileRefPut_withObjs (s : FdState) (j : ℕ) (o : Objects) :
    fileRefPut { s with objs := o } j = { fileRefPut s j with objs := o } := by
  have hv : fileRefValid { s with objs := o } j = fileRefValid s j := rfl
  unfold fileRefPut
  rw [hv]
  split <;> rfl

theorem fdInstall_withObjs {e : FdEntry} {done : Bool} (ha : fdInstall s p i e = (s', done))
    (o : Objects) : fdInstall { s with objs := o } p i e = ({ s' with objs := o }, done) := by
  unfold fdInstall at ha ⊢
  rw [fileRefAlloc_withObjs]
  split at ha
  all_goals
    rename_i hf
    obtain ⟨rfl, rfl⟩ := Prod.mk.inj ha
    simp only [hf]
    rfl

/-- `fdInstall` fills the descriptor, or clears it when no file reference is left. -/
theorem fdInstall_cases (s : FdState) (p : FdProcIdx) (i : FdIdx) (e : FdEntry) :
    ((fileRefAlloc s).2 = 0 ∧ fdInstall s p i e = (s.setFd p i {}, false)) ∨
    ∃ j, 1 ≤ j ∧ j < edgeMaxFileRefs ∧ (s.fileRefs j).used = false ∧ (fileRefAlloc s).2 = j ∧
      fdInstall s p i e = ((s.setFileRef j { used := true, refs := 1 }).setFd p i
        { e with used := true, fileRef := j }, true) := by
  unfold fdInstall
  rcases fileRefAlloc_cases s with hf | ⟨j, hj, hlt, hfree, hf⟩
  · left
    rw [hf]
    exact ⟨rfl, rfl⟩
  right
  rw [hf]
  cases j with
  | zero => omega
  | succ j => exact ⟨j + 1, hj, hlt, hfree, rfl, rfl⟩

theorem fdInstall_objs {e : FdEntry} {done : Bool} (ha : fdInstall s p i e = (s', done)) : s'.objs = s.objs := by
  rcases fdInstall_cases s p i e with ⟨-, heq⟩ | ⟨j, -, -, -, -, heq⟩
  all_goals
    rw [heq] at ha
    rw [← (Prod.mk.inj ha).1]
    rfl

theorem fdInstall_false {e : FdEntry} (ha : fdInstall s p i e = (s', false)) : s' = s.setFd p i {} := by
  rcases fdInstall_cases s p i e with ⟨-, heq⟩ | ⟨j, -, -, -, -, heq⟩
  · rw [heq] at ha
    exact (Prod.mk.inj ha).1.symm
  · rw [heq] at ha
    simp at ha

namespace FdInv

/-- A descriptor is taken back: its file reference is dropped, its object is in hand. -/
theorem takeBack (h : FdInv R N F G s) {k : FdKind} {l : ℕ} (hu : (s.fds (p, i)).used = true)
    (hk : (s.fds (p, i)).kind = k) (hl : (s.fds (p, i)).pipeId.toNat = l) :
    FdInv R N (F + oneRef k l) G ((fileRefPut s (s.fds (p, i)).fileRef).setFd p i {}) := by
  have hrel := h.release (p := p) (i := i) (e := {}) (FdEntry.blank_unused rfl) fun hf => by
    simp at hf
  rw [FdEntry.key_used hu, FdEntry.ref_used hu, hk, hl] at hrel
  rw [← fileRefPut_setFd]
  exact hrel.refPut

theorem dropInHand {k : FdKind} {j : ℕ} (h : FdInv R N (F + oneRef k j) G s) :
    FdInv R N F G { s with objs := fdDropRef (fun _ => []) s.objs k j } := by
  refine h.setObjs fun ho => ?_
  rw [← add_assoc, ← Int.toNat_natCast j] at ho
  exact ho.dropRef (fun _ => Int.natCast_nonneg j) (by simp)

/-! ## Pipes -/

/-- `do_sys_pipe` when it fails: the pipe that it had not counted yet is cleared. The
invariant holds of the state in which the pipe has its two references. -/
theorem pipeFail {o : Objects} {id : ℕ} (hid : id < edgeMaxPipes)
    (h : FdInv R N (F + oneRef .pipeR id + oneRef .pipeW id) G
      { s with objs := o.setPipe id { used := true, readers := 1, writers := 1 } })
    (ho : s.objs = o.setPipe id { used := true }) :
    FdInv R N F G { s with objs := s.objs.setPipe id {} } := by
  have hset : s.objs.setPipe id {} = (o.setPipe id { used := true, readers := 1, writers := 1 }).setPipe id {} := by
    rw [ho]
    unfold Objects.setPipe
    simp only [update_idem]
  rw [hset]
  refine h.setObjs fun ho => ?_
  obtain ⟨hr, hw, -⟩ := ho.pipe_counts (i := id) (by simp [Objects.setPipe])
  have hself : (o.setPipe id { used := true, readers := 1, writers := 1 }).pipes id =
      { used := true, readers := 1, writers := 1 } := update_self ..
  rw [hself] at hr hw
  refine ho.setPipe hid ?_ fun k j hk => ?_
  · right
    simp only [Pi.add_apply, oneRef] at hr hw ⊢
    simp at hr hw ⊢
    omega
  · have h1 : oneRef .pipeR id k j = 0 := if_neg (by tauto)
    have h2 : oneRef .pipeW id k j = 0 := if_neg (by tauto)
    simp only [Pi.add_apply, h1, h2, Nat.add_zero]

theorem doSysPipe (h : FdInv R N F G s) (hpos : 0 < pid) (hN : pid < N) (flags : BitVec 32)
    (copied : Bool) : FdInv R N F G (EdgeOS.doSysPipe s pid flags copied).1 := by
  unfold EdgeOS.doSysPipe
  split
  · exact h
  split
  · rename_i hq
    exact (h.fdProcWithStdio hpos hN hq).1
  rename_i s1 p hq
  obtain ⟨h1, -, hp⟩ := h.fdProcWithStdio hpos hN hq
  have hp := hp p rfl
  unfold pipeAlloc
  split
  · exact h1
  rename_i o id hpa
  obtain ⟨j, hj, rfl, rfl⟩ : ∃ j, firstFree edgeMaxPipes (fun i => (s1.objs.pipes i).used) = some j ∧
      s1.objs.setPipe j { used := true } = o ∧ j = id := by
    split at hpa
    · rename_i j hj
      obtain ⟨ho, hid⟩ := Prod.mk.inj hpa
      exact ⟨j, hj, ho, Option.some.inj hid⟩
    · simp at hpa
  obtain ⟨hfree, hlt⟩ := firstFree_some hj
  -- `v` is the state of the objects in which the new pipe has its two references.
  generalize hv : s1.objs.setPipe j { used := true, readers := 1, writers := 1 } = v
  have h2 : FdInv R N (F + oneRef .pipeR j + oneRef .pipeW j) G { s1 with objs := v } := by
    refine h1.setObjs fun ho => ?_
    rw [← hv, ← add_assoc, ← add_assoc]
    exact ho.newPipe hlt hfree
  generalize hreal : s1.objs.setPipe j { used := true } = o
  have hfail : ∀ t : FdState, t.objs = o → FdInv R N (F + oneRef .pipeR j + oneRef .pipeW j) G { t with objs := v } →
      FdInv R N F G { t with objs := t.objs.setPipe j {} } := by
    intro t ht hinv
    rw [← hv] at hinv
    exact pipeFail hlt hinv (by rw [ht, hreal])
  dsimp only
  split
  · rename_i s2 ha
    rw [fdAlloc_none ha]
    exact hfail _ rfl h2
  rename_i s2 r ha
  obtain ⟨h3, hbr, -, hpid3, -⟩ := h2.fdAlloc hp (fdAlloc_withObjs ha v)
  have ho2 : s2.objs = o := by rw [(fdAlloc_some ha).1]; rfl
  have hrU : (s2.fds (p, r)).used = true := by
    rw [(fdAlloc_some ha).1]
    simp [FdState.setFd]
  have hp2 : s2.procPid p ≠ 0 := by
    rw [show s2.procPid = s1.procPid from hpid3]
    exact hp
  split
  · rename_i s3 ha'
    rw [fdAlloc_none ha']
    exact hfail _ ho2 (h3.clearBlank hbr)
  rename_i s3 w ha'
  obtain ⟨h4, hbw, -, hpid4, hkeep⟩ := h3.fdAlloc hp2 (fdAlloc_withObjs ha' v)
  obtain ⟨hwr, hsame⟩ := hkeep r hrU
  have ho3 : s3.objs = o := by rw [(fdAlloc_some ha').1]; exact ho2
  have hp3 : s3.procPid p ≠ 0 := by
    rw [show s3.procPid = s2.procPid from hpid4]
    exact hp2
  rw [add_right_comm] at h4
  split
  · rename_i s4 hi
    obtain ⟨h5, -, -, hother, -⟩ := h4.fdInstall hp3 (by rw [hsame]; exact hbr)
      (fdInstall_withObjs hi v) rfl (Int.toNat_natCast j) (.of_counted rfl (Int.natCast_nonneg j))
    rw [if_neg (by simp), add_right_comm] at h5
    refine hfail _ (by rw [fdInstall_false hi]; exact ho3) (h5.clearBlank ?_)
    rw [hother w hwr]
    exact hbw
  rename_i s4 hi
  obtain ⟨h5, -, hpid5, hother, hr5⟩ := h4.fdInstall hp3 (by rw [hsame]; exact hbr)
    (fdInstall_withObjs hi v) rfl (Int.toNat_natCast j) (.of_counted rfl (Int.natCast_nonneg j))
  rw [if_pos rfl] at h5
  obtain ⟨ref, -, hr5⟩ := hr5 rfl
  have ho4 : s4.objs = o := by rw [(fdInstall_objs hi), ho3]
  have hp4 : s4.procPid p ≠ 0 := by
    rw [show s4.procPid = s3.procPid from hpid5]
    exact hp3
  split
  · rename_i s5 hi'
    obtain ⟨h6, -, -, hother', -⟩ := h5.fdInstall hp4 (by rw [hother w hwr]; exact hbw)
      (fdInstall_withObjs hi' v) rfl (Int.toNat_natCast j) (.of_counted rfl (Int.natCast_nonneg j))
    rw [if_neg (by simp)] at h6
    have hr6 := (hother' r hwr.symm).trans hr5
    have h7 := h6.takeBack (p := p) (i := r) (k := .pipeR) (l := j) (by rw [hr6]) (by rw [hr6])
      (by rw [hr6]; exact Int.toNat_natCast j)
    rw [fileRefPut_withObjs, add_right_comm] at h7
    refine hfail _ ?_ h7
    change (fileRefPut s5 _).objs = o
    rw [fileRefPut_objs, fdInstall_objs hi', ho4]
  rename_i s5 hi'
  obtain ⟨h6, -, -, hother', hw6⟩ := h5.fdInstall hp4 (by rw [hother w hwr]; exact hbw)
    (fdInstall_withObjs hi' v) rfl (Int.toNat_natCast j) (.of_counted rfl (Int.natCast_nonneg j))
  rw [if_pos rfl] at h6
  obtain ⟨_, -, hw6⟩ := hw6 rfl
  have hr6 := (hother' r hwr.symm).trans hr5
  have hcounted : s5.objs.setPipe j { s5.objs.pipes j with
      readers := (s5.objs.pipes j).readers + 1, writers := (s5.objs.pipes j).writers + 1 } = v := by
    rw [fdInstall_objs hi', ho4, ← hreal, ← hv]
    simp [Objects.setPipe]
  rw [hcounted]
  split
  · exact h6
  have hquiet : R → ∀ l : ℕ, l ∉ (fun _ => [] : ℕ → List ℕ) l := by simp
  refine (h6.closeFd hquiet (by rw [hr6])).closeFd hquiet ?_
  rw [closeFd_fds, update_of_ne (by simp [hwr]), hw6]

/-! ## Special objects -/

/-- `alloc_special_fd` puts the object in hand into a descriptor, or leaves it in hand. -/
theorem allocSpecialFd {k : FdKind} {j : ℕ} (h : FdInv R N (F + oneRef k j) G s)
    (hk : k ≠ .vfs) (hpos : 0 < pid) (hN : pid < N) {flags : BitVec 32} {r : Option FdIdx}
    (ha : EdgeOS.allocSpecialFd s pid k j flags = (s', r)) :
    FdInv R N (if r.isSome then F else F + oneRef k j) G s' := by
  unfold EdgeOS.allocSpecialFd at ha
  split at ha
  · rename_i hq
    obtain ⟨rfl, rfl⟩ := Prod.mk.inj ha
    exact (h.fdProcWithStdio hpos hN hq).1
  rename_i s1 p hq
  obtain ⟨h1, -, hp⟩ := h.fdProcWithStdio hpos hN hq
  split at ha
  · rename_i hf
    obtain ⟨rfl, rfl⟩ := Prod.mk.inj ha
    rw [fdAlloc_none hf]
    exact h1
  rename_i s2 i hf
  obtain ⟨h2, hb, -, hpid, -⟩ := h1.fdAlloc (hp p rfl) hf
  split at ha
  all_goals
    rename_i hi
    obtain ⟨rfl, rfl⟩ := Prod.mk.inj ha
    exact (h2.fdInstall (hpid ▸ hp p rfl) hb hi rfl (Int.toNat_natCast j)
      ⟨fun _ => Int.natCast_nonneg j, fun hv => absurd hv hk⟩).1

theorem createSpecial (h : FdInv R N F G s) (hpos : 0 < pid) (hN : pid < N) (k : SpecialKind)
    (flags : BitVec 32) : FdInv R N F G (EdgeOS.createSpecial k s pid flags).1 := by
  unfold EdgeOS.createSpecial
  split
  · exact h
  rename_i o j ha
  have h1 : FdInv R N (F + oneRef k.fdKind j) G { s with objs := o } := by
    refine h.setObjs fun ho => ?_
    rw [← add_assoc]
    exact ho.specialAlloc ha
  have hk : k.fdKind ≠ .vfs := by cases k <;> simp [SpecialKind.fdKind]
  split
  · rename_i hf
    exact h1.allocSpecialFd hk hpos hN hf
  rename_i hf
  have h2 := h1.allocSpecialFd hk hpos hN hf
  refine h2.setObjs fun ho => ?_
  rw [if_neg (by simp), ← add_assoc] at ho
  exact ho.dropSpecial

theorem doSysSignalfd4 (h : FdInv R N F G s) (hpos : 0 < pid) (hN : pid < N) (fd : ℤ)
    (flags : BitVec 32) : FdInv R N F G (EdgeOS.doSysSignalfd4 s pid fd flags).1 := by
  unfold EdgeOS.doSysSignalfd4
  split
  rename_i s1 r hq
  obtain ⟨h1, -, -⟩ := h.fdProcWithStdio hpos hN hq
  split
  · exact h1
  split
  · exact h1.createSpecial hpos hN _ _
  split
  · exact h1
  split
  · exact h1
  dsimp only
  split
  · rename_i hk _
    split
    · exact h1.rewrite rfl rfl rfl rfl fun hf =>
        .of_counted (by rw [hk]; rfl) (hf.named (by rw [hk]; rfl))
    · exact h1
  · exact h1

end FdInv

end EdgeOS
