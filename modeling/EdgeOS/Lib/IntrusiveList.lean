import Mathlib.Data.List.Basic

namespace EdgeOS.Lib

/-!
Doubly linked lists whose links live in the nodes. A node is a pointer of an
arbitrary type; `next` and `prev` read its two link fields.
-/

open List

variable {P : Type*} {next prev next' prev' : P → Option P}

/-- The nodes of `l` are linked in order, the first one back to `p`, the last one
forward to `q`. -/
def Linked (next prev : P → Option P) : Option P → List P → Option P → Prop
  | _, [], _ => True
  | p, x :: xs, q => prev x = p ∧ next x = xs.head?.or q ∧ Linked next prev (some x) xs q

@[simp] theorem linked_nil (p q : Option P) : Linked next prev p [] q := trivial

theorem linked_cons {p q : Option P} {x : P} {xs : List P} : Linked next prev p (x :: xs) q ↔
      prev x = p ∧ next x = xs.head?.or q ∧ Linked next prev (some x) xs q := Iff.rfl

theorem linked_append {p q : Option P} {l₁ l₂ : List P} : Linked next prev p (l₁ ++ l₂) q ↔
      Linked next prev p l₁ (l₂.head?.or q) ∧ Linked next prev (l₁.getLast?.or p) l₂ q := by
  induction l₁ generalizing p with
  | nil => simp
  | cons x xs ih =>
    have hh : (xs ++ l₂).head?.or q = xs.head?.or (l₂.head?.or q) := by
      cases xs <;> simp
    have hl : ((x :: xs).getLast?).or p = xs.getLast?.or (some x) := by
      rw [getLast?_cons]
      cases xs.getLast? <;> rfl
    rw [cons_append, linked_cons, linked_cons, ih, hh, hl]
    tauto

theorem Linked.congr {p q : Option P} {l : List P} (h : Linked next prev p l q)
    (hn : ∀ x ∈ l, next' x = next x) (hp : ∀ x ∈ l, prev' x = prev x) :
    Linked next' prev' p l q := by
  induction l generalizing p with
  | nil => trivial
  | cons x xs ih =>
    obtain ⟨h1, h2, h3⟩ := h
    refine ⟨?_, ?_, ih h3 (fun y hy => hn y (by simp [hy])) (fun y hy => hp y (by simp [hy]))⟩
    · rw [hp x (by simp), h1]
    · rw [hn x (by simp), h2]

section Retarget

variable [DecidableEq P]

/-- Only the forward link of the last node says where a segment ends. -/
theorem Linked.retarget_end {p q q' : Option P} {l : List P} (h : Linked next prev p l q) (hd : l.Nodup)
    (hn : ∀ x ∈ l, next' x = if l.getLast? = some x then q' else next x)
    (hp : ∀ x ∈ l, prev' x = prev x) : Linked next' prev' p l q' := by
  induction l generalizing p with
  | nil => trivial
  | cons x xs ih =>
    obtain ⟨h1, h2, h3⟩ := h
    obtain ⟨hx, hxs⟩ := nodup_cons.mp hd
    refine ⟨?_, ?_, ih h3 hxs ?_ (fun y hy => hp y (by simp [hy]))⟩
    · rw [hp x (by simp), h1]
    · rw [hn x (by simp)]
      cases xs with
      | nil => simp
      | cons y ys =>
        have hne : (x :: y :: ys).getLast? ≠ some x := by
          intro he
          rw [getLast?_cons_cons] at he
          exact hx (mem_of_getLast? he)
        rw [if_neg hne, h2]
        simp
    · intro y hy
      rw [hn y (by simp [hy])]
      cases xs with
      | nil => simp at hy
      | cons z zs => rw [getLast?_cons_cons]

/-- Only the backward link of the first node says where a segment starts. -/
theorem Linked.retarget_start {p p' q : Option P} {l : List P} (h : Linked next prev p l q)
    (hd : l.Nodup) (hn : ∀ x ∈ l, next' x = next x)
    (hp : ∀ x ∈ l, prev' x = if l.head? = some x then p' else prev x) :
    Linked next' prev' p' l q := by
  cases l with
  | nil => trivial
  | cons x xs =>
    obtain ⟨_, h2, h3⟩ := h
    obtain ⟨hx, _⟩ := nodup_cons.mp hd
    refine ⟨by simp [hp x], by rw [hn x (by simp), h2], h3.congr ?_ ?_⟩
    · intro y hy
      exact hn y (by simp [hy])
    · intro y hy
      have hne : x ≠ y := fun he => hx (he ▸ hy)
      simp [hp y (by simp [hy]), hne]

end Retarget

/-- A queue: head and tail pointers, linked nodes, no node twice. -/
structure IsQueue (next prev : P → Option P) (head tail : Option P) (l : List P) : Prop where
  head_eq : head = l.head?
  tail_eq : tail = l.getLast?
  linked : Linked next prev none l none
  nodup : l.Nodup

theorem isQueue_nil : IsQueue next prev none none [] :=
  ⟨rfl, rfl, trivial, nodup_nil⟩

theorem IsQueue.congr {head tail : Option P} {l : List P} (h : IsQueue next prev head tail l)
    (hn : ∀ x ∈ l, next' x = next x) (hp : ∀ x ∈ l, prev' x = prev x) :
    IsQueue next' prev' head tail l :=
  ⟨h.head_eq, h.tail_eq, h.linked.congr hn hp, h.nodup⟩

theorem Linked.unique {p q : Option P} {l l' : List P} (h : Linked next prev p l none) (h' : Linked next prev q l' none)
    (hhead : l.head? = l'.head?) : l = l' := by
  induction l generalizing p q l' with
  | nil => exact (head?_eq_none_iff.mp hhead.symm).symm
  | cons x xs ih =>
    obtain ⟨ys, rfl⟩ := head?_eq_some_iff.mp hhead.symm
    obtain ⟨-, hx, hxs⟩ := h
    obtain ⟨-, hy, hys⟩ := h'
    rw [Option.or_none] at hx hy
    rw [ih hxs hys (hx.symm.trans hy)]

theorem IsQueue.unique {head tail : Option P} {l l' : List P} (h : IsQueue next prev head tail l)
    (h' : IsQueue next prev head tail l') : l = l' :=
  h.linked.unique h'.linked (h.head_eq.symm.trans h'.head_eq)

section Split

variable {head tail : Option P} {l₁ l₂ : List P} {x : P}

theorem IsQueue.prev_eq (h : IsQueue next prev head tail (l₁ ++ x :: l₂)) : prev x = l₁.getLast? := by
  have h1 := (linked_append.mp h.linked).2.1
  simpa using h1

theorem IsQueue.next_eq (h : IsQueue next prev head tail (l₁ ++ x :: l₂)) : next x = l₂.head? := by
  have h1 := (linked_append.mp h.linked).2.2.1
  simpa using h1

variable [DecidableEq P]

/-- Unlinking a node: its neighbours are joined, every other link stays. -/
theorem IsQueue.remove (h : IsQueue next prev head tail (l₁ ++ x :: l₂))
    (hn : ∀ y ∈ l₁ ++ l₂, next' y = if prev x = some y then next x else next y)
    (hp : ∀ y ∈ l₁ ++ l₂, prev' y = if next x = some y then prev x else prev y) :
    IsQueue next' prev' (if prev x = none then next x else head)
      (if next x = none then prev x else tail) (l₁ ++ l₂) := by
  have hpx := h.prev_eq
  have hnx := h.next_eq
  have hd := h.nodup
  obtain ⟨hd1, hd2, hdis⟩ := nodup_append.mp hd
  obtain ⟨hx2, hd2'⟩ := nodup_cons.mp hd2
  obtain ⟨hl1, hl2⟩ := linked_append.mp h.linked
  have hl2' := hl2.2.2
  rw [hpx, hnx] at hn hp ⊢
  refine ⟨?_, ?_, linked_append.mpr ⟨?_, ?_⟩, ?_⟩
  · cases l₁ with
    | nil => simp
    | cons a as => simp [h.head_eq]
  · cases l₂ with
    | nil => simp
    | cons a as => simp [h.tail_eq, getLast?_append]
  · refine hl1.retarget_end hd1 (fun y hy => ?_) (fun y hy => ?_)
    · rw [hn y (by simp [hy])]
      simp
    · have hne : l₂.head? ≠ some y := fun he =>
        hdis y hy y (mem_cons_of_mem x (mem_of_head? he)) rfl
      rw [hp y (by simp [hy]), if_neg hne]
  · refine hl2'.retarget_start hd2' (fun y hy => ?_) (fun y hy => ?_)
    · have hne : l₁.getLast? ≠ some y := fun he =>
        hdis y (mem_of_getLast? he) y (mem_cons_of_mem x hy) rfl
      rw [hn y (by simp [hy]), if_neg hne]
    · rw [hp y (by simp [hy])]
      simp
  · refine nodup_append.mpr ⟨hd1, hd2', fun a ha b hb => ?_⟩
    exact hdis a ha b (mem_cons_of_mem x hb)

end Split

theorem IsQueue.push [DecidableEq P] {head tail : Option P} {l : List P} {x : P}
    (h : IsQueue next prev head tail l) (hx : x ∉ l)
    (hn : ∀ y ∈ l, next' y = if tail = some y then some x else next y)
    (hp : ∀ y ∈ l, prev' y = prev y) (hnx : next' x = none) (hpx : prev' x = tail) :
    IsQueue next' prev' (if tail = none then some x else head) (some x) (l ++ [x]) := by
  rw [h.tail_eq] at hn hpx ⊢
  refine ⟨?_, by simp, linked_append.mpr ⟨?_, ?_⟩, ?_⟩
  · cases l with
    | nil => simp
    | cons a as => simp [h.head_eq]
  · exact h.linked.retarget_end h.nodup (fun y hy => by rw [hn y hy]; simp) hp
  · exact ⟨by simpa using hpx, by simpa using hnx, trivial⟩
  · exact nodup_append.mpr ⟨h.nodup, by simp, by rintro a ha b hb rfl; simp_all⟩

end EdgeOS.Lib
