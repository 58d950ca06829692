import Mathlib.Logic.Relation
import Mathlib.Logic.Function.Basic
import EdgeOS.Lib.IntrusiveList

namespace EdgeOS.Lib

/-!
Forests whose nodes carry a parent link and whose children form an intrusive
doubly linked list behind the parent's first-child pointer.
-/

open Relation Function List

variable {P : Type*} {parent parent' first first' prev prev' next next' : P → Option P}

/-- `b` is the parent of `a`. -/
def ParentOf (parent : P → Option P) (a b : P) : Prop := parent a = some b

/-- `b` is `a` or one of its ancestors. -/
def AncestorOrSelf (parent : P → Option P) (a b : P) : Prop := ReflTransGen (ParentOf parent) a b

def Acyclic (parent : P → Option P) : Prop := ∀ x, ¬ TransGen (ParentOf parent) x x

theorem Acyclic.mono (h : Acyclic parent) (hsub : ∀ a b, parent' a = some b → parent a = some b) : Acyclic parent' := by
  intro x hx
  exact h x (TransGen.mono hsub x x hx)

theorem AncestorOrSelf.eq_of_root {d x : P} (h : AncestorOrSelf parent d x) (hd : parent d = none) : d = x := by
  rcases h.cases_head with rfl | ⟨b, hb, -⟩
  · rfl
  · unfold ParentOf at hb
    exact absurd (hb.symm.trans hd) (by simp)

section Redirect

variable [DecidableEq P] {c p : P}

/-- A path that may use the new link `c → p` is an old path, or passes through it. -/
theorem path_of_redirect (hpar : ∀ a, parent' a = if a = c then some p else parent a)
    (hpc : ¬ AncestorOrSelf parent p c) {a b : P} (h : TransGen (ParentOf parent') a b) :
    TransGen (ParentOf parent) a b ∨ AncestorOrSelf parent a c ∧ AncestorOrSelf parent p b := by
  induction h with
  | single h =>
    rename_i b
    unfold ParentOf at h
    rw [hpar] at h
    split_ifs at h with hac
    · obtain rfl := Option.some.inj h
      subst hac
      exact .inr ⟨.refl, .refl⟩
    · exact .inl (.single h)
  | tail _ h ih =>
    unfold ParentOf at h
    rw [hpar] at h
    split_ifs at h with hbc
    · obtain rfl := Option.some.inj h
      subst hbc
      rcases ih with ih | ⟨_, ih⟩
      · exact .inr ⟨ih.to_reflTransGen, .refl⟩
      · exact absurd ih hpc
    · rcases ih with ih | ⟨ih₁, ih₂⟩
      · exact .inl (ih.tail h)
      · exact .inr ⟨ih₁, ih₂.tail h⟩

/-- Hanging `c` under a node that does not descend from it creates no cycle. -/
theorem Acyclic.redirect (h : Acyclic parent) (hpar : ∀ a, parent' a = if a = c then some p else parent a)
    (hpc : ¬ AncestorOrSelf parent p c) : Acyclic parent' := by
  intro x hx
  rcases path_of_redirect hpar hpc hx with hx' | ⟨h₁, h₂⟩
  · exact h x hx'
  · exact hpc (h₂.trans h₁)

/-- Ancestors of a node are untouched by a new link out of a node that is not among
them. -/
theorem AncestorOrSelf.of_redirect {q : Option P} {d x : P}
    (hpar : ∀ a, parent' a = if a = c then q else parent a) (hdc : ¬ AncestorOrSelf parent d c)
    (h : AncestorOrSelf parent' d x) : AncestorOrSelf parent d x := by
  induction h with
  | refl => exact .refl
  | tail _ hab ih =>
    unfold ParentOf at hab
    rw [hpar] at hab
    split_ifs at hab with hac
    · exact absurd (hac ▸ ih) hdc
    · exact ih.tail hab

end Redirect

/-- The links describe the forest in which `ch p` lists the children of `p`. -/
structure IsForest (parent first prev next : P → Option P) (ch : P → List P) : Prop where
  children : ∀ p, IsQueue next prev (first p) (ch p).getLast? (ch p)
  mem_iff : ∀ p c, c ∈ ch p ↔ parent c = some p
  root : ∀ c, parent c = none → prev c = none ∧ next c = none
  acyclic : Acyclic parent

namespace IsForest

variable {ch : P → List P} {c p : P}

theorem empty (hparent : ∀ u, parent u = none) (hfirst : ∀ u, first u = none)
    (hprev : ∀ u, prev u = none) (hnext : ∀ u, next u = none) :
    IsForest parent first prev next fun _ => [] where
  children p := by
    rw [hfirst]
    exact isQueue_nil
  mem_iff p c := by simp [hparent]
  root c _ := ⟨hprev c, hnext c⟩
  acyclic x hx := by
    obtain ⟨b, hb, -⟩ := Relation.TransGen.head'_iff.mp hx
    exact absurd hb (by simp [ParentOf, hparent])

theorem parent_ne_self (h : IsForest parent first prev next ch) : parent c ≠ some c :=
  fun hc => h.acyclic c (.single hc)

theorem first_eq (h : IsForest parent first prev next ch) (p : P) : first p = (ch p).head? :=
  (h.children p).head_eq

theorem sibling_parent (h : IsForest parent first prev next ch) {b : P}
    (hb : prev c = some b ∨ next c = some b) : ∃ p, parent c = some p ∧ parent b = some p ∧ b ≠ c := by
  rcases hp : parent c with _ | p
  · have := h.root c hp
    rcases hb with hb | hb <;> simp_all
  refine ⟨p, rfl, ?_⟩
  obtain ⟨l₁, l₂, hl⟩ := append_of_mem ((h.mem_iff p c).mpr hp)
  have hq := h.children p
  rw [hl] at hq
  have hnd := hq.nodup
  have hmem : b ∈ l₁ ∨ b ∈ l₂ := by
    rcases hb with hb | hb
    · exact .inl (mem_of_getLast? (hq.prev_eq ▸ hb))
    · exact .inr (mem_of_head? (hq.next_eq ▸ hb))
  have hbp : b ∈ ch p := by
    rw [hl]
    rcases hmem with hm | hm <;> simp [hm]
  refine ⟨(h.mem_iff p b).mp hbp, ?_⟩
  rintro rfl
  obtain ⟨hd1, hd2, hdis⟩ := nodup_append.mp hnd
  rcases hmem with hm | hm
  · exact hdis b hm b (by simp) rfl
  · exact (nodup_cons.mp hd2).1 hm

variable [DecidableEq P]

theorem unlink (h : IsForest parent first prev next ch) (hc : parent c = some p)
    (hpar : ∀ u, parent' u = if u = c then none else parent u)
    (hfirst : ∀ u, first' u = if prev c = none ∧ parent c = some u then next c else first u)
    (hnext : ∀ u, next' u = if u = c then none else if prev c = some u then next c else next u)
    (hprev : ∀ u, prev' u = if u = c then none else if next c = some u then prev c else prev u) :
    IsForest parent' first' prev' next' (update ch p ((ch p).erase c)) := by
  have hmem := (h.mem_iff p c).mpr hc
  obtain ⟨l₁, l₂, hl⟩ := append_of_mem hmem
  have hq := h.children p
  have hnd := hq.nodup
  have herase : (ch p).erase c = l₁ ++ l₂ := by
    rw [hl] at hnd
    have hnot : c ∉ l₁ := fun h1 => (nodup_append.mp hnd).2.2 c h1 c (by simp) rfl
    rw [hl, erase_append_right _ hnot, erase_cons_head]
  have hcnot : c ∉ l₁ ++ l₂ := herase ▸ List.Nodup.not_mem_erase hnd
  refine ⟨fun u => ?_, fun u d => ?_, fun d hd => ?_, ?_⟩
  · by_cases hu : u = p
    · subst hu
      rw [update_self, herase]
      rw [hl] at hq
      have hne : ∀ y ∈ l₁ ++ l₂, y ≠ c := fun y hy he => hcnot (he ▸ hy)
      have hrem : IsQueue next' prev' _ _ (l₁ ++ l₂) :=
        hq.remove (fun y hy => by rw [hnext, if_neg (hne y hy)])
          (fun y hy => by rw [hprev, if_neg (hne y hy)])
      have hf : first' u = if prev c = none then next c else first u := by
        rw [hfirst]
        simp [hc]
      rw [hf, ← hrem.tail_eq]
      exact hrem
    · have hf : first' u = first u := by
        rw [hfirst, if_neg]
        rintro ⟨-, he⟩
        exact hu (Option.some.inj (he.symm.trans hc))
      rw [update_of_ne hu, hf]
      have hother : ∀ y ∈ ch u, y ≠ c ∧ prev c ≠ some y ∧ next c ≠ some y := by
        intro y hy
        have hyu := (h.mem_iff u y).mp hy
        have hnp : parent y ≠ some p := fun he => hu (Option.some.inj (hyu.symm.trans he))
        refine ⟨fun he => hnp (he ▸ hc), fun he => ?_, fun he => ?_⟩
        · obtain ⟨q, h1, h2, -⟩ := h.sibling_parent (.inl he)
          exact hnp (h2.trans (h1.symm.trans hc))
        · obtain ⟨q, h1, h2, -⟩ := h.sibling_parent (.inr he)
          exact hnp (h2.trans (h1.symm.trans hc))
      refine (h.children u).congr (fun y hy => ?_) (fun y hy => ?_)
      · rw [hnext, if_neg (hother y hy).1, if_neg (hother y hy).2.1]
      · rw [hprev, if_neg (hother y hy).1, if_neg (hother y hy).2.2]
  · rw [hpar]
    by_cases hd : d = c
    · subst hd
      simp only [if_true, reduceCtorEq, iff_false]
      by_cases hu : u = p
      · subst hu
        rw [update_self]
        exact List.Nodup.not_mem_erase hnd
      · rw [update_of_ne hu, h.mem_iff, hc]
        exact fun he => hu (Option.some.inj he).symm
    · rw [if_neg hd, ← h.mem_iff]
      by_cases hu : u = p
      · subst hu
        rw [update_self, mem_erase_of_ne hd]
      · rw [update_of_ne hu]
  · rw [hpar] at hd
    rw [hprev, hnext]
    by_cases hdc : d = c
    · rw [if_pos hdc, if_pos hdc]
      exact ⟨rfl, rfl⟩
    rw [if_neg hdc] at hd
    have hnp : parent d ≠ some p := by simp [hd]
    have h1 : prev c ≠ some d := fun he => by
      obtain ⟨q, h1, h2, -⟩ := h.sibling_parent (.inl he)
      simp [hd] at h2
    have h2 : next c ≠ some d := fun he => by
      obtain ⟨q, h1, h2, -⟩ := h.sibling_parent (.inr he)
      simp [hd] at h2
    rw [if_neg hdc, if_neg hdc, if_neg h1, if_neg h2]
    exact h.root d hd
  · refine h.acyclic.mono fun a b hab => ?_
    rw [hpar] at hab
    split_ifs at hab
    exact hab

/-- Linking a node without a parent at the front of another node's list. -/
theorem link (h : IsForest parent first prev next ch) (hc : parent c = none) (hpc : ¬ AncestorOrSelf parent p c)
    (hpar : ∀ u, parent' u = if u = c then some p else parent u)
    (hfirst : ∀ u, first' u = if u = p then some c else first u)
    (hnext : ∀ u, next' u = if u = c then first p else next u)
    (hprev : ∀ u, prev' u = if first p = some u then some c else prev u) :
    IsForest parent' first' prev' next' (update ch p (c :: ch p)) := by
  have hnot : ∀ u, c ∉ ch u := fun u hu => by simp [(h.mem_iff u c).mp hu] at hc
  have hfc : first p ≠ some c := by
    rw [h.first_eq]
    exact fun he => hnot p (mem_of_head? he)
  refine ⟨fun u => ?_, fun u d => ?_, fun d hd => ?_, h.acyclic.redirect hpar hpc⟩
  · by_cases hu : u = p
    · subst hu
      rw [update_self, hfirst, if_pos rfl]
      refine ⟨rfl, rfl, ⟨?_, ?_, ?_⟩, nodup_cons.mpr ⟨hnot u, (h.children u).nodup⟩⟩
      · rw [hprev, if_neg hfc]
        exact (h.root c hc).1
      · rw [hnext, if_pos rfl, h.first_eq]
        simp
      · refine (h.children u).linked.retarget_start (h.children u).nodup (fun y hy => ?_)
          (fun y hy => ?_)
        · rw [hnext, if_neg (fun he : y = c => hnot u (he ▸ hy))]
        · rw [hprev, h.first_eq]
    · rw [update_of_ne hu, hfirst, if_neg hu]
      refine (h.children u).congr (fun y hy => ?_) (fun y hy => ?_)
      · rw [hnext, if_neg (fun he : y = c => hnot u (he ▸ hy))]
      · rw [hprev, if_neg]
        intro he
        rw [h.first_eq] at he
        have h1 := (h.mem_iff p y).mp (mem_of_head? he)
        have h2 := (h.mem_iff u y).mp hy
        exact hu (Option.some.inj (h2.symm.trans h1))
  · rw [hpar]
    by_cases hd : d = c
    · subst hd
      rw [if_pos rfl]
      by_cases hu : u = p
      · subst hu
        simp
      · rw [update_of_ne hu]
        exact ⟨fun hm => absurd hm (hnot u), fun he => absurd (Option.some.inj he).symm hu⟩
    · rw [if_neg hd, ← h.mem_iff]
      by_cases hu : u = p
      · subst hu
        simp [hd]
      · rw [update_of_ne hu]
  · rw [hpar] at hd
    split_ifs at hd with hdc
    have hfd : first p ≠ some d := by
      rw [h.first_eq]
      intro he
      have := (h.mem_iff p d).mp (mem_of_head? he)
      simp [hd] at this
    rw [hprev, hnext, if_neg hfd, if_neg hdc]
    exact h.root d hd

end IsForest

end EdgeOS.Lib
