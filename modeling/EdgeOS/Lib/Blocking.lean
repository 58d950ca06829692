import Mathlib.Data.List.Basic

namespace EdgeOS.Lib

/-!
Calls that may wait. A call runs in stretches: each ends in a result, or it waits and goes on
from a local state, and between two stretches others change the object at will. What the call
finds at the start of its stretches is a list of looks.
-/

inductive Stretch (ρ β : Type*)
  | ret (b : β)
  | wait (l : ρ)

/-- A call on an object of type `σ`. `run l i s` is a stretch from the local state `l` on, where
the world says `i` and the object is `s`. -/
structure BlockingCall (ρ ι σ β : Type*) where
  start : ρ
  run : ρ → ι → σ → σ × Stretch ρ β

namespace BlockingCall

variable {ρ ι σ β : Type*} (c : BlockingCall ρ ι σ β)

def effects : ρ → List (ι × σ) → List (σ × σ)
  | _, [] => []
  | l, (i, s) :: looks =>
    match c.run l i s with
    | (s', .ret _) => [(s, s')]
    | (s', .wait l') => (s, s') :: effects l' looks

/-- The result, unless the call still waits after the last look. -/
def result : ρ → List (ι × σ) → Option β
  | _, [] => none
  | l, (i, s) :: looks =>
    match c.run l i s with
    | (_, .ret b) => some b
    | (_, .wait l') => result l' looks

/-- The looks that the call makes, each with its local state. -/
def reached : ρ → List (ι × σ) → List (ρ × ι × σ)
  | _, [] => []
  | l, (i, s) :: looks =>
    match c.run l i s with
    | (_, .ret _) => [(l, i, s)]
    | (_, .wait l') => (l, i, s) :: reached l' looks

/-- A call that fails has left the object alone in all its stretches. -/
def FailsClean (same : σ → σ → Prop) (fails : β → Prop) (looks : List (ι × σ)) : Prop :=
  ∀ b, c.result c.start looks = some b → fails b → ∀ p ∈ c.effects c.start looks, same p.1 p.2

/-- A stretch that ends in a failure finds a call that has done nothing yet and does nothing. -/
def StretchClean (same : σ → σ → Prop) (fails : β → Prop) (fresh : ρ → Prop) (l : ρ) (i : ι) (s : σ) : Prop :=
  ∀ s' b, c.run l i s = (s', .ret b) → fails b → fresh l ∧ same s s'

variable {c} {same : σ → σ → Prop} {fails : β → Prop} {fresh : ρ → Prop}

theorem clean_from (hwait : ∀ l i s s' l', c.run l i s = (s', .wait l') → (fresh l' ↔ fresh l ∧ same s s'))
    (l : ρ) (looks : List (ι × σ)) :
    (∀ b, c.result l looks = some b → fails b → fresh l ∧ ∀ p ∈ c.effects l looks, same p.1 p.2) ↔
      ∀ x ∈ c.reached l looks, c.StretchClean same fails fresh x.1 x.2.1 x.2.2 := by
  induction looks generalizing l with
  | nil => simp [result, reached]
  | cons look looks ih =>
    obtain ⟨i, s⟩ := look
    rcases hrun : c.run l i s with ⟨s', b | l'⟩
    · simp only [result, effects, reached, hrun, List.mem_singleton, forall_eq, StretchClean]
      constructor
      · intro h s'' b' heq hb
        cases heq
        exact h b rfl hb
      · intro h b' heq hb
        obtain rfl := Option.some.inj heq
        exact h s' b rfl hb
    have hhead : c.StretchClean same fails fresh l i s := by
      intro s'' b heq
      rw [hrun] at heq
      simp at heq
    have hfresh := hwait l i s s' l' hrun
    simp only [result, effects, reached, hrun, List.forall_mem_cons]
    rw [← ih l']
    constructor
    · intro h
      refine ⟨hhead, fun b hres hb => ?_⟩
      obtain ⟨hl, hs, hrest⟩ := h b hres hb
      exact ⟨hfresh.2 ⟨hl, hs⟩, hrest⟩
    · intro h b hres hb
      obtain ⟨hl', hrest⟩ := h.2 b hres hb
      obtain ⟨hl, hs⟩ := hfresh.1 hl'
      exact ⟨hl, hs, hrest⟩

/-- Whether a call fails clean shows at the looks it makes. `fresh` are the local states of calls
that have done nothing yet. -/
theorem failsClean_iff (hstart : fresh c.start)
    (hwait : ∀ l i s s' l', c.run l i s = (s', .wait l') → (fresh l' ↔ fresh l ∧ same s s'))
    (looks : List (ι × σ)) :
    c.FailsClean same fails looks ↔ ∀ x ∈ c.reached c.start looks, c.StretchClean same fails fresh x.1 x.2.1 x.2.2 := by
  rw [← clean_from hwait]
  constructor
  · intro h b hres hb
    exact ⟨hstart, h b hres hb⟩
  · intro h b hres hb
    exact (h b hres hb).2

/-- A call that returns at once and does nothing fails clean. -/
theorem failsClean_of_returns (hrefl : ∀ s, same s s) (h : ∀ l i s, ∃ b, c.run l i s = (s, .ret b))
    (looks : List (ι × σ)) : c.FailsClean same fails looks := by
  intro b _ _ p hp
  rcases looks with _ | ⟨⟨i, s⟩, looks⟩
  · simp [effects] at hp
  obtain ⟨b', hrun⟩ := h c.start i s
  simp only [effects, hrun, List.mem_singleton] at hp
  rw [hp]
  exact hrefl s

end BlockingCall

end EdgeOS.Lib
