import Mathlib.Data.List.Basic

namespace EdgeOS.Lib

/-!
Trees kept in a table: a live node knows its parent and the name it has there, and the root is a node of the table. A
path is a list of names with the last one first.
-/

variable {ι α : Type*}

structure NamedTree (ι α : Type*) where
  live : ι → Prop
  parent : ι → ι
  name : ι → α
  root : ι

namespace NamedTree

inductive At (t : NamedTree ι α) : List α → ι → Prop
  | root : t.live t.root → At t [] t.root
  | child {path : List α} {i : ι} : i ≠ t.root → t.live i → At t path (t.parent i) → At t (t.name i :: path) i

/-- Every live node is reached from the root, and siblings differ in their names. -/
structure IsTree (t : NamedTree ι α) : Prop where
  reached : ∀ i, t.live i → ∃ path, t.At path i
  siblings : ∀ i j, t.live i → t.live j → i ≠ t.root → j ≠ t.root → t.parent i = t.parent j →
    t.name i = t.name j → i = j

variable {t t' : NamedTree ι α} {path path' : List α} {i j : ι}

theorem At.live (h : t.At path i) : t.live i := by
  cases h with
  | root h => exact h
  | child _ h _ => exact h

theorem At.root_live (h : t.At path i) : t.live t.root := by
  induction h with
  | root h => exact h
  | child _ _ _ ih => exact ih

theorem At.inv {l : List α} (h : t.At l i) :
    l = [] ∧ i = t.root ∨ ∃ path, l = t.name i :: path ∧ i ≠ t.root ∧ t.At path (t.parent i) := by
  cases h with
  | root _ => exact .inl ⟨rfl, rfl⟩
  | child hne _ hp => exact .inr ⟨_, rfl, hne, hp⟩

theorem IsTree.node_unique (ht : t.IsTree) (h : t.At path i) (h' : t.At path j) : i = j := by
  induction h generalizing j with
  | root _ =>
    rcases h'.inv with ⟨_, hj⟩ | ⟨path, he, _, _⟩
    · exact hj.symm
    · exact absurd he.symm (List.cons_ne_nil _ _)
  | child hi hl _ ih =>
    rcases h'.inv with ⟨he, _⟩ | ⟨path, he, hj, hp⟩
    · exact absurd he (List.cons_ne_nil _ _)
    · obtain ⟨hn, rfl⟩ := List.cons.inj he
      exact ht.siblings _ j hl h'.live hi hj (ih hp) hn

/-- The path of a node stays where the node and its ancestors do. -/
theorem At.mono (h : t.At path i) (hroot : t'.root = t.root) (hlive : ∀ j, t.live j → t'.live j)
    (hparent : ∀ j, t.live j → t'.parent j = t.parent j) (hname : ∀ j, t.live j → t'.name j = t.name j) :
    t'.At path i := by
  induction h with
  | root h =>
    rw [← hroot]
    exact .root (hroot ▸ hlive _ h)
  | child hne hl _ ih =>
    rw [← hname _ hl]
    exact .child (hroot ▸ hne) (hlive _ hl) (hparent _ hl ▸ ih)

theorem isTree_of_empty (h : ∀ i, ¬ t.live i) : t.IsTree :=
  ⟨fun i hi => absurd hi (h i), fun i _ hi => absurd hi (h i)⟩

theorem isTree_of_root (h : ∀ i, t.live i ↔ i = t.root) : t.IsTree := by
  refine ⟨fun i hi => ?_, fun i _ hi _ hne => absurd ((h i).mp hi) hne⟩
  rw [(h i).mp hi]
  exact ⟨[], .root ((h _).mpr rfl)⟩

/-- A new leaf under a live node, with a name that none of its siblings has. -/
theorem IsTree.grow (ht : t.IsTree) (hroot : t'.root = t.root) (hi : i ≠ t.root) (hfresh : ¬ t.live i)
    (hlive : ∀ j, t'.live j ↔ t.live j ∨ j = i) (hparent : ∀ j, j ≠ i → t'.parent j = t.parent j)
    (hname : ∀ j, j ≠ i → t'.name j = t.name j) (hp : t.live (t'.parent i))
    (hnew : ∀ j, t.live j → t.parent j = t'.parent i → t.name j ≠ t'.name i) : t'.IsTree := by
  have hne : ∀ j, t.live j → j ≠ i := fun j hj he => hfresh (he ▸ hj)
  have hkept : ∀ {path j}, t.At path j → t'.At path j := fun h =>
    h.mono hroot (fun j hj => (hlive j).mpr (.inl hj)) (fun j hj => hparent j (hne j hj)) fun j hj => hname j (hne j hj)
  refine ⟨fun j hj => ?_, fun j k hj hk hjr hkr hpar hnam => ?_⟩
  · rcases (hlive j).mp hj with hj | rfl
    · obtain ⟨path, h⟩ := ht.reached j hj
      exact ⟨path, hkept h⟩
    · obtain ⟨path, h⟩ := ht.reached _ hp
      exact ⟨_, .child (hroot ▸ hi) hj (hkept h)⟩
  · rw [hroot] at hjr hkr
    rcases (hlive j).mp hj with hj | rfl <;> rcases (hlive k).mp hk with hk | rfl
    · rw [hparent j (hne j hj), hparent k (hne k hk)] at hpar
      rw [hname j (hne j hj), hname k (hne k hk)] at hnam
      exact ht.siblings j k hj hk hjr hkr hpar hnam
    · rw [hparent j (hne j hj)] at hpar
      rw [hname j (hne j hj)] at hnam
      exact absurd hnam (hnew j hj hpar)
    · rw [hparent k (hne k hk)] at hpar
      rw [hname k (hne k hk)] at hnam
      exact absurd hnam.symm (hnew k hk hpar.symm)
    · rfl

theorem IsTree.drop (ht : t.IsTree) (hroot : t'.root = t.root)
    (hlive : ∀ j, t'.live j ↔ t.live j ∧ j ≠ i) (hparent : ∀ j, j ≠ i → t'.parent j = t.parent j)
    (hname : ∀ j, j ≠ i → t'.name j = t.name j) (hleaf : ∀ j, t.live j → j ≠ t.root → t.parent j ≠ i) :
    t'.IsTree := by
  have hkept : ∀ {path j}, t.At path j → j ≠ i → t'.At path j := by
    intro path j h
    induction h with
    | root h =>
      intro hne
      rw [← hroot]
      exact .root ((hlive _).mpr ⟨hroot ▸ h, hroot ▸ hne⟩)
    | child hr hl _ ih =>
      intro hne
      rw [← hname _ hne]
      exact .child (hroot ▸ hr) ((hlive _).mpr ⟨hl, hne⟩) (hparent _ hne ▸ ih (hleaf _ hl hr))
  refine ⟨fun j hj => ?_, fun j k hj hk hjr hkr hpar hnam => ?_⟩
  · obtain ⟨hl, hne⟩ := (hlive j).mp hj
    obtain ⟨path, h⟩ := ht.reached j hl
    exact ⟨path, hkept h hne⟩
  · obtain ⟨hj, hji⟩ := (hlive j).mp hj
    obtain ⟨hk, hki⟩ := (hlive k).mp hk
    rw [hroot] at hjr hkr
    rw [hparent j hji, hparent k hki] at hpar
    rw [hname j hji, hname k hki] at hnam
    exact ht.siblings j k hj hk hjr hkr hpar hnam

end NamedTree

end EdgeOS.Lib
