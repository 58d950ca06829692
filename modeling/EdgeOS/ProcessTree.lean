import EdgeOS.Lib.Forest
import EdgeOS.Lib.Runs
import EdgeOS.Process
import EdgeOS.SchedulerFrame

namespace EdgeOS

open Lib TaskTable Function EdgeOS.Task

/-! ## Linking and unlinking a child -/

def Task.noTree (x : Task) : Task := { x with tree := {}, ppid := 0 }

/-- The family links of `s` describe the forest with child lists `ch`. -/
def TreeOf (s : TaskTable) (ch : TaskRef → List TaskRef) : Prop :=
  IsForest (fun u => (s.task u).tree.parent) (fun u => (s.task u).tree.firstChild)
    (fun u => (s.task u).tree.siblingPrev) (fun u => (s.task u).tree.siblingNext) ch

theorem TreeOf.congr {s s' : TaskTable} {ch : TaskRef → List TaskRef} (h : TreeOf s ch)
    (ht : ∀ u, (s'.task u).tree = (s.task u).tree) : TreeOf s' ch := by
  unfold TreeOf
  simp only [ht]
  exact h

section Links

variable {s : TaskTable} {c : TaskRef}

theorem taskChildUnlink_tree (hp : (s.task c).tree.siblingPrev ≠ some c)
    (hn : (s.task c).tree.siblingNext ≠ some c) (hq : (s.task c).tree.parent ≠ some c)
    (u : TaskRef) :
    ((taskChildUnlink s c).task u).tree =
      { parent := if u = c then none else (s.task u).tree.parent
        firstChild := if (s.task c).tree.siblingPrev = none ∧ (s.task c).tree.parent = some u
          then (s.task c).tree.siblingNext else (s.task u).tree.firstChild
        siblingPrev := if u = c then none
          else if (s.task c).tree.siblingNext = some u then (s.task c).tree.siblingPrev
          else (s.task u).tree.siblingPrev
        siblingNext := if u = c then none
          else if (s.task c).tree.siblingPrev = some u then (s.task c).tree.siblingNext
          else (s.task u).tree.siblingNext } := by
  unfold taskChildUnlink
  have hcne : ∀ v, (s.task c).tree.siblingPrev = some v → c ≠ v := by
    rintro v hv rfl
    exact hp hv
  have hcnq : ∀ v, (s.task c).tree.parent = some v → c ≠ v := by
    rintro v hv rfl
    exact hq hv
  have hcnn : ∀ v, (s.task c).tree.siblingNext = some v → c ≠ v := by
    rintro v hv rfl
    exact hn hv
  rcases hp' : (s.task c).tree.siblingPrev with _ | b
  · rcases hq' : (s.task c).tree.parent with _ | p
    · rcases hn' : (s.task c).tree.siblingNext with _ | n
      · by_cases hu : u = c <;> simp [modifyTree_tree, hn', hu]
      · have hcn := hcnn n hn'
        by_cases hu : u = c
        · simp [modifyTree_tree, hn', hu, hcn]
        · by_cases hun : u = n <;> simp [modifyTree_tree, hp', hn', hu, hun, hcn.symm, eq_comm]
    · have hcp := hcnq p hq'
      rcases hn' : (s.task c).tree.siblingNext with _ | n
      · by_cases hu : u = c <;> by_cases hup : u = p <;> simp [modifyTree_tree, hn', hu, hup, hcp, eq_comm]
      have hcn := hcnn n hn'
      by_cases hu : u = c
      · simp [modifyTree_tree, hn', hu, hcn, hcp, hcp.symm]
      by_cases hpn : p = n
      · subst hpn
        by_cases hup : u = p <;> simp [modifyTree_tree, hp', hn', hu, hup, hcp, hcp.symm, eq_comm]
      have hnp := Ne.symm hpn
      by_cases hun : u = n
      · simp [modifyTree_tree, hp', hn', hun, hcn.symm, hcp, hpn, hnp]
      · by_cases hup : u = p <;> simp [modifyTree_tree, hn', hu, hun, hup, hpn, hcp, hcp.symm, eq_comm]
  · have hcb := hcne b hp'
    rcases hn' : (s.task c).tree.siblingNext with _ | n
    · by_cases hu : u = c
      · simp [modifyTree_tree, hn', hu, hcb]
      · by_cases hub : u = b <;> simp [modifyTree_tree, hn', hu, hub, hcb, hcb.symm, eq_comm]
    have hcn := hcnn n hn'
    by_cases hu : u = c
    · simp [modifyTree_tree, hp', hn', hu, hcn, hcb]
    by_cases hbn : b = n
    · subst hbn
      by_cases hub : u = b <;> simp [modifyTree_tree, hp', hn', hu, hub, hcb, hcb.symm, eq_comm]
    have hnb := Ne.symm hbn
    by_cases hun : u = n
    · simp [modifyTree_tree, hp', hn', hun, hcn.symm, hcb, hbn, hnb]
    · by_cases hub : u = b <;> simp [modifyTree_tree, hn', hu, hun, hub, hbn, hcb, hcb.symm, eq_comm]

theorem taskChildLink_some_tree (p : TaskRef)
    (hf : ((taskChildUnlink s c).task p).tree.firstChild ≠ some c) (u : TaskRef) :
    ((taskChildLink s (some p) c).task u).tree =
      { parent := if u = c then some p else ((taskChildUnlink s c).task u).tree.parent
        firstChild := if u = p then some c else ((taskChildUnlink s c).task u).tree.firstChild
        siblingPrev := if ((taskChildUnlink s c).task p).tree.firstChild = some u then some c
          else ((taskChildUnlink s c).task u).tree.siblingPrev
        siblingNext := if u = c then ((taskChildUnlink s c).task p).tree.firstChild
          else ((taskChildUnlink s c).task u).tree.siblingNext } := by
  unfold taskChildLink
  generalize taskChildUnlink s c = s1 at hf ⊢
  dsimp only
  refine Eq.trans (modify_proj _ _ _ _ tree ?_) ?_
  · intro x
    rfl
  have hfirst : ((s1.modifyTree c fun x => { x with parent := some p }).task p).tree.firstChild =
      (s1.task p).tree.firstChild := by
    rw [modifyTree_tree]
    split_ifs with h
    · rw [h]
    · rfl
  rw [hfirst]
  rcases hf' : (s1.task p).tree.firstChild with _ | f
  · by_cases hpc : p = c
    · subst hpc
      by_cases hu : u = p <;> simp [modifyTree_tree, hu]
    · by_cases hu : u = c
      · simp [modifyTree_tree, hu, Ne.symm hpc]
      · by_cases hup : u = p <;> simp [modifyTree_tree, hu, hup, hpc]
  have hfc : f ≠ c := by
    rintro rfl
    exact hf hf'
  by_cases hpc : p = c
  · subst hpc
    by_cases hu : u = p
    · simp [modifyTree_tree, hu, hfc, hfc.symm]
    · by_cases huf : u = f <;> simp [modifyTree_tree, hu, huf, hfc, eq_comm]
  have hcp := Ne.symm hpc
  by_cases hpf : p = f
  · subst hpf
    by_cases hu : u = c
    · simp [modifyTree_tree, hu, hcp, hpc]
    by_cases hup : u = p
    · simp [modifyTree_tree, hup, hpc]
    · simp [modifyTree_tree, hu, hup, Ne.symm hup]
  have hfp := Ne.symm hpf
  by_cases hu : u = c
  · simp [modifyTree_tree, hu, hcp, hfc, hfc.symm]
  by_cases hup : u = p
  · simp [modifyTree_tree, hup, hpc, hpf, hfp]
  · by_cases huf : u = f <;> simp [modifyTree_tree, hu, hup, huf, hfc, hfp, eq_comm]

theorem taskChildLink_none_tree (u : TaskRef) : ((taskChildLink s none c).task u).tree =
      { ((taskChildUnlink s c).task u).tree with
        parent := if u = c then none else ((taskChildUnlink s c).task u).tree.parent } := by
  unfold taskChildLink
  dsimp only
  refine Eq.trans (modify_proj _ _ _ _ tree ?_) ?_
  · intro x
    rfl
  · rw [modifyTree_tree]
    split_ifs with h
    · rw [h]
    · rfl

end Links

/-- Only family links may differ between `s` and `s'`. -/
structure TreeMoves (s s' : TaskTable) : Prop where
  noTree : ∀ u, (s'.task u).noTree = (s.task u).noTree
  cpu : s'.cpu = s.cpu
  nextPid : s'.nextPid = s.nextPid
  localCpuId : s'.localCpuId = s.localCpuId

namespace TreeMoves

variable {s s' s'' : TaskTable}

theorem refl (s : TaskTable) : TreeMoves s s := ⟨fun _ => rfl, rfl, rfl, rfl⟩

theorem trans (h : TreeMoves s s') (h' : TreeMoves s' s'') : TreeMoves s s'' where
  noTree u := (h'.noTree u).trans (h.noTree u)
  cpu := h'.cpu.trans h.cpu
  nextPid := h'.nextPid.trans h.nextPid
  localCpuId := h'.localCpuId.trans h.localCpuId

theorem state (h : TreeMoves s s') (u : TaskRef) : (s'.task u).state = (s.task u).state := by
  have h1 := congrArg Task.state (h.noTree u)
  exact h1

theorem pid (h : TreeMoves s s') (u : TaskRef) : (s'.task u).pid = (s.task u).pid := by
  have h1 := congrArg Task.pid (h.noTree u)
  exact h1

theorem pgid (h : TreeMoves s s') (u : TaskRef) : (s'.task u).pgid = (s.task u).pgid := by
  have h1 := congrArg Task.pgid (h.noTree u)
  exact h1

theorem isIdle (h : TreeMoves s s') (u : TaskRef) : (s'.task u).isIdle = (s.task u).isIdle := by
  have h1 := congrArg Task.isIdle (h.noTree u)
  exact h1

theorem modify (s : TaskTable) (t : TaskRef) {f : Task → Task}
    (hf : ∀ x, (f x).noTree = x.noTree) : TreeMoves s (s.modify t f) where
  noTree u := modify_proj s t u f Task.noTree hf
  cpu := rfl
  nextPid := rfl
  localCpuId := rfl

theorem modifyTree (s : TaskTable) (t : TaskRef) (f : TreeLinks → TreeLinks) :
    TreeMoves s (s.modifyTree t f) := modify s t fun _ => rfl

theorem unlink (s : TaskTable) (c : TaskRef) : TreeMoves s (taskChildUnlink s c) := by
  unfold taskChildUnlink
  dsimp only
  refine trans ?_ (modifyTree _ _ _)
  split <;> split
  · exact trans (modifyTree _ _ _) (modifyTree _ _ _)
  · split
    · exact trans (modifyTree _ _ _) (modifyTree _ _ _)
    · exact modifyTree _ _ _
  · exact modifyTree _ _ _
  · split
    · exact modifyTree _ _ _
    · exact refl _

theorem link (s : TaskTable) (par : Option TaskRef) (c : TaskRef) : TreeMoves s (taskChildLink s par c) := by
  unfold taskChildLink
  refine trans (unlink s c) ?_
  generalize taskChildUnlink s c = s1
  rcases par with _ | p
  · dsimp only
    refine trans ?_ (modify _ _ fun _ => rfl)
    exact modifyTree _ _ _
  dsimp only
  refine trans ?_ (modify _ _ fun _ => rfl)
  refine trans ?_ (modifyTree _ _ _)
  split
  · exact trans (trans (modifyTree _ _ _) (modifyTree _ _ _)) (modifyTree _ _ _)
  · exact trans (modifyTree _ _ _) (modifyTree _ _ _)

end TreeMoves

/-- The pid behind a parent link, `0` for none. -/
def parentPid (s : TaskTable) : Option TaskRef → ℤ
  | some p => (s.task p).pid
  | none => 0

section Ppid

variable (s : TaskTable) (c u : TaskRef)

@[simp] theorem modifyTree_ppid (t : TaskRef) (f : TreeLinks → TreeLinks) :
    ((s.modifyTree t f).task u).ppid = (s.task u).ppid :=
  modify_proj s t u _ ppid fun _ => rfl

@[simp] theorem modifyTree_pid (t : TaskRef) (f : TreeLinks → TreeLinks) :
    ((s.modifyTree t f).task u).pid = (s.task u).pid :=
  modify_proj s t u _ pid fun _ => rfl

theorem taskChildUnlink_ppid : ((taskChildUnlink s c).task u).ppid = (s.task u).ppid := by
  unfold taskChildUnlink
  dsimp only
  rw [modifyTree_ppid]
  split <;> split
  · rw [modifyTree_ppid, modifyTree_ppid]
  · split <;> simp only [modifyTree_ppid]
  · rw [modifyTree_ppid]
  · split <;> simp only [modifyTree_ppid]

theorem taskChildLink_ppid (par : Option TaskRef) : ((taskChildLink s par c).task u).ppid =
      if u = c then parentPid s par else (s.task u).ppid := by
  have hpid := fun v => (TreeMoves.unlink s c).pid v
  have hppid := fun v => taskChildUnlink_ppid s c v
  unfold taskChildLink
  generalize taskChildUnlink s c = s1 at hpid hppid ⊢
  rcases par with _ | p
  · dsimp only
    by_cases hu : u = c
    · rw [hu, modify_task_self, if_pos rfl]
      rfl
    · rw [modify_task_ne _ _ hu, if_neg hu, modifyTree_ppid, hppid]
  dsimp only
  by_cases hu : u = c
  · rw [hu, modify_task_self, if_pos rfl, modifyTree_pid]
    split <;> simp only [modifyTree_pid, hpid, parentPid]
  · rw [modify_task_ne _ _ hu, if_neg hu, modifyTree_ppid]
    split <;> simp only [modifyTree_ppid, hppid]

end Ppid

namespace TreeOf

variable {s : TaskTable} {ch : TaskRef → List TaskRef} {c p : TaskRef}

theorem sibling_ne_self (h : TreeOf s ch) : (s.task c).tree.siblingPrev ≠ some c ∧
    (s.task c).tree.siblingNext ≠ some c ∧ (s.task c).tree.parent ≠ some c := by
  refine ⟨fun he => ?_, fun he => ?_, h.parent_ne_self⟩
  · obtain ⟨q, -, -, hne⟩ := h.sibling_parent (c := c) (.inl he)
    exact hne rfl
  · obtain ⟨q, -, -, hne⟩ := h.sibling_parent (c := c) (.inr he)
    exact hne rfl

theorem unlink_parent (h : TreeOf s ch) (c u : TaskRef) : ((taskChildUnlink s c).task u).tree.parent =
      if u = c then none else (s.task u).tree.parent := by
  obtain ⟨h1, h2, h3⟩ := h.sibling_ne_self (c := c)
  rw [taskChildUnlink_tree h1 h2 h3]

theorem unlink (h : TreeOf s ch) (c : TaskRef) :
    ∃ ch', TreeOf (taskChildUnlink s c) ch' ∧ ∀ u, ch' u = (ch u).erase c := by
  obtain ⟨h1, h2, h3⟩ := h.sibling_ne_self (c := c)
  have htree := taskChildUnlink_tree h1 h2 h3
  rcases hp : (s.task c).tree.parent with _ | p
  · -- A root has no links to undo.
    obtain ⟨hr1, hr2⟩ := h.root c hp
    refine ⟨ch, h.congr fun u => ?_, fun u => ?_⟩
    · rw [htree u]
      by_cases hu : u = c
      · subst hu
        apply TreeLinks.ext <;> simp_all
      · apply TreeLinks.ext <;> simp_all
    · rw [List.erase_of_not_mem]
      intro hm
      have hm' := (h.mem_iff u c).mp hm
      exact absurd (hm'.symm.trans hp) (by simp)
  · refine ⟨_, IsForest.unlink (c := c) (p := p) h hp ?_ ?_ ?_ ?_, fun u => ?_⟩
    · intro u
      rw [htree u]
    · intro u
      rw [htree u]
    · intro u
      rw [htree u]
    · intro u
      rw [htree u]
    · by_cases hu : u = p
      · rw [hu, update_self]
      · rw [update_of_ne hu, List.erase_of_not_mem]
        intro hm
        have hm' := (h.mem_iff u c).mp hm
        exact hu (Option.some.inj (hm'.symm.trans hp))

/-- Relinking a task under another that does not descend from it. -/
theorem link_some (h : TreeOf s ch) (hpc : ¬ AncestorOrSelf (fun u => (s.task u).tree.parent) p c) :
    ∃ ch', TreeOf (taskChildLink s (some p) c) ch' ∧ (∀ u, ((taskChildLink s (some p) c).task u).tree.parent =
        if u = c then some p else (s.task u).tree.parent) ∧
      ∀ u, ch' u = if u = p then c :: (ch u).erase c else (ch u).erase c := by
  obtain ⟨ch1, h1, hch1⟩ := h.unlink c
  have hpar := h.unlink_parent c
  have hc : ((taskChildUnlink s c).task c).tree.parent = none := by rw [hpar, if_pos rfl]
  have hf : ((taskChildUnlink s c).task p).tree.firstChild ≠ some c := by
    intro he
    have hm := (h1.mem_iff p c).mp (List.mem_of_head? ((h1.first_eq p).symm.trans he))
    exact absurd (hm.symm.trans hc) (by simp)
  have htree := taskChildLink_some_tree p hf
  have hpc' : ¬ AncestorOrSelf (fun u => ((taskChildUnlink s c).task u).tree.parent) p c := by
    intro ha
    refine hpc (Relation.ReflTransGen.mono (fun a b hab => ?_) p c ha)
    unfold ParentOf at *
    dsimp only at hab ⊢
    rw [hpar] at hab
    split_ifs at hab
    exact hab
  refine ⟨_, IsForest.link (c := c) (p := p) h1 hc hpc' ?_ ?_ ?_ ?_, fun u => ?_, fun u => ?_⟩
  · intro u
    rw [htree u]
  · intro u
    rw [htree u]
  · intro u
    rw [htree u]
  · intro u
    rw [htree u]
  · rw [htree u, hpar]
    split_ifs <;> rfl
  · by_cases hu : u = p
    · rw [hu, update_self, if_pos rfl, hch1]
    · rw [update_of_ne hu, if_neg hu, hch1]

theorem link_none (h : TreeOf s ch) (c : TaskRef) : ∃ ch', TreeOf (taskChildLink s none c) ch' ∧
      (∀ u, ((taskChildLink s none c).task u).tree.parent = if u = c then none else (s.task u).tree.parent) ∧
      ∀ u, ch' u = (ch u).erase c := by
  obtain ⟨ch1, h1, hch1⟩ := h.unlink c
  have hpar := h.unlink_parent c
  have htree : ∀ u, ((taskChildLink s none c).task u).tree = ((taskChildUnlink s c).task u).tree := by
    intro u
    rw [taskChildLink_none_tree]
    by_cases hu : u = c
    · apply TreeLinks.ext <;> simp [hpar, hu]
    · apply TreeLinks.ext <;> simp [hu]
  refine ⟨ch1, h1.congr htree, fun u => ?_, hch1⟩
  rw [htree, hpar]

end TreeOf

end EdgeOS
