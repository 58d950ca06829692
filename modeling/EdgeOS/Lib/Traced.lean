import Mathlib.Data.List.Basic

namespace EdgeOS.Lib

/-!
Computations over a state that leave a trace of events, may fail, and may run on for ever. A
computation is safe from a state if every event it leaves is allowed and it comes to an end.
-/

open List

inductive Outcome (α : Type)
  | done (a : α)
  | failed
  | diverged

/-- The state that is left, the events in their order, and how the computation ends. -/
def Traced (σ ε α : Type) : Type := σ → σ × List ε × Outcome α

namespace Traced

variable {σ ε α β : Type}

def fail : Traced σ ε α := fun s => (s, [], .failed)

def diverge : Traced σ ε α := fun s => (s, [], .diverged)

def emit (e : ε) : Traced σ ε Unit := fun s => (s, [e], .done ())

def get : Traced σ ε σ := fun s => (s, [], .done s)

def modify (f : σ → σ) : Traced σ ε Unit := fun s => (f s, [], .done ())

def andThen (x : Traced σ ε α) (f : α → Traced σ ε β) : Traced σ ε β := fun s =>
  match x s with
  | (s', t, .done a) => ((f a s').1, t ++ (f a s').2.1, (f a s').2.2)
  | (s', t, .failed) => (s', t, .failed)
  | (s', t, .diverged) => (s', t, .diverged)

instance : Monad (Traced σ ε) where
  pure a := fun s => (s, [], .done a)
  bind := andThen

def Safe (ok : ε → Prop) (x : Traced σ ε α) (s : σ) : Prop :=
  (∀ e ∈ (x s).2.1, ok e) ∧ (x s).2.2 ≠ .diverged

/-- The computation ends in `s'` with the result `a`. -/
def Gives (x : Traced σ ε α) (s s' : σ) (a : α) : Prop := ∃ t, x s = (s', t, .done a)

section Rules

variable {ok : ε → Prop} {s s' : σ} {a : α}

theorem Gives.unique {x : Traced σ ε α} {s₁ s₂ : σ} {b : α} (h : x.Gives s s₁ a) (h' : x.Gives s s₂ b) :
    s₁ = s₂ ∧ a = b := by
  obtain ⟨t, ht⟩ := h
  obtain ⟨t', ht'⟩ := h'
  obtain ⟨hs, hrest⟩ := Prod.mk.inj (ht.symm.trans ht')
  exact ⟨hs, Outcome.done.inj (Prod.mk.inj hrest).2⟩

@[simp] theorem safe_pure : Safe ok (pure a : Traced σ ε α) s ↔ True :=
  iff_true_intro ⟨fun _ h => absurd h not_mem_nil, fun h => by cases h⟩

@[simp] theorem safe_fail : Safe ok (fail : Traced σ ε α) s ↔ True :=
  iff_true_intro ⟨fun _ h => absurd h not_mem_nil, fun h => by cases h⟩

@[simp] theorem safe_diverge : Safe ok (diverge : Traced σ ε α) s ↔ False :=
  iff_false_intro fun h => h.2 rfl

@[simp] theorem safe_get : Safe ok (get : Traced σ ε σ) s ↔ True :=
  iff_true_intro ⟨fun _ h => absurd h not_mem_nil, fun h => by cases h⟩

@[simp] theorem safe_modify (f : σ → σ) : Safe ok (modify f : Traced σ ε Unit) s ↔ True :=
  iff_true_intro ⟨fun _ h => absurd h not_mem_nil, fun h => by cases h⟩

@[simp] theorem safe_emit {e : ε} : Safe ok (emit e : Traced σ ε Unit) s ↔ ok e := by
  constructor
  · intro h
    exact h.1 e (mem_singleton_self e)
  · intro h
    refine ⟨fun e' he' => ?_, fun hd => by cases hd⟩
    rw [mem_singleton.mp he']
    exact h

/-- A sequence is safe when its first part is and the rest is from every state that can be reached. -/
theorem safe_bind (x : Traced σ ε α) (f : α → Traced σ ε β) :
    Safe ok (x >>= f) s ↔ Safe ok x s ∧ ∀ s' a, x.Gives s s' a → Safe ok (f a) s' := by
  change Safe ok (andThen x f) s ↔ _
  unfold Safe Gives andThen
  rcases hx : x s with ⟨s', t, o⟩
  cases o with
  | done a =>
    dsimp only
    constructor
    · intro h
      refine ⟨⟨fun e he => h.1 e (mem_append_left _ he), fun hd => by cases hd⟩, ?_⟩
      rintro s'' a' ⟨t', heq⟩
      obtain ⟨rfl, ht⟩ := Prod.mk.inj heq
      obtain ⟨-, ha⟩ := Prod.mk.inj ht
      obtain rfl := Outcome.done.inj ha
      exact ⟨fun e he => h.1 e (mem_append_right _ he), h.2⟩
    · rintro ⟨⟨hfirst, -⟩, hrest⟩
      obtain ⟨hevents, hend⟩ := hrest s' a ⟨t, rfl⟩
      refine ⟨fun e he => ?_, hend⟩
      rcases mem_append.mp he with he | he
      · exact hfirst e he
      · exact hevents e he
  | failed =>
    refine ⟨fun h => ⟨⟨h.1, fun hd => by cases hd⟩, ?_⟩, fun h => ⟨h.1.1, fun hd => by cases hd⟩⟩
    rintro s'' a' ⟨t', heq⟩
    cases heq
  | diverged =>
    refine ⟨fun h => absurd rfl h.2, fun h => absurd rfl h.1.2⟩

theorem safe_ite {c : Prop} [Decidable c] (x y : Traced σ ε α) :
    Safe ok (if c then x else y) s ↔ (c → Safe ok x s) ∧ (¬ c → Safe ok y s) := by
  split
  · rename_i h
    exact ⟨fun hx => ⟨fun _ => hx, fun hn => absurd h hn⟩, fun hx => hx.1 h⟩
  · rename_i h
    exact ⟨fun hy => ⟨fun hc => absurd hc h, fun _ => hy⟩, fun hy => hy.2 h⟩

@[simp] theorem gives_pure {b : α} : (pure a : Traced σ ε α).Gives s s' b ↔ s' = s ∧ b = a := by
  constructor
  · rintro ⟨t, h⟩
    obtain ⟨rfl, ht⟩ := Prod.mk.inj h
    obtain ⟨-, ha⟩ := Prod.mk.inj ht
    exact ⟨rfl, (Outcome.done.inj ha).symm⟩
  · rintro ⟨rfl, rfl⟩
    exact ⟨[], rfl⟩

@[simp] theorem gives_fail : (fail : Traced σ ε α).Gives s s' a ↔ False := by
  refine iff_false_intro ?_
  rintro ⟨t, h⟩
  cases h

@[simp] theorem gives_emit {e : ε} {u : Unit} : (emit e : Traced σ ε Unit).Gives s s' u ↔ s' = s := by
  constructor
  · rintro ⟨t, h⟩
    exact (Prod.mk.inj h).1.symm
  · rintro rfl
    exact ⟨[e], rfl⟩

@[simp] theorem gives_get {r : σ} : (get : Traced σ ε σ).Gives s s' r ↔ s' = s ∧ r = s := by
  constructor
  · rintro ⟨t, h⟩
    obtain ⟨rfl, ht⟩ := Prod.mk.inj h
    obtain ⟨-, ha⟩ := Prod.mk.inj ht
    exact ⟨rfl, (Outcome.done.inj ha).symm⟩
  · rintro ⟨rfl, rfl⟩
    exact ⟨[], rfl⟩

@[simp] theorem gives_modify {f : σ → σ} {u : Unit} : (modify f : Traced σ ε Unit).Gives s s' u ↔ s' = f s := by
  constructor
  · rintro ⟨t, h⟩
    exact (Prod.mk.inj h).1.symm
  · rintro rfl
    exact ⟨[], rfl⟩

theorem gives_bind (x : Traced σ ε α) (f : α → Traced σ ε β) {b : β} :
    (x >>= f).Gives s s' b ↔ ∃ s₁ a, x.Gives s s₁ a ∧ (f a).Gives s₁ s' b := by
  change (andThen x f).Gives s s' b ↔ _
  unfold Gives andThen
  rcases hx : x s with ⟨s₁, t, o⟩
  cases o with
  | done a =>
    dsimp only
    constructor
    · rintro ⟨t', h⟩
      obtain ⟨hs, ht⟩ := Prod.mk.inj h
      obtain ⟨-, ho⟩ := Prod.mk.inj ht
      exact ⟨s₁, a, ⟨t, rfl⟩, (f a s₁).2.1, by rw [← hs, ← ho]⟩
    · rintro ⟨s₂, a', ⟨t', h⟩, t'', h'⟩
      obtain ⟨rfl, ht⟩ := Prod.mk.inj h
      obtain ⟨-, ho⟩ := Prod.mk.inj ht
      obtain rfl := Outcome.done.inj ho
      exact ⟨t ++ t'', by rw [h']⟩
  | failed =>
    refine iff_of_false ?_ ?_
    · rintro ⟨t', h⟩
      cases h
    · rintro ⟨s₂, a', ⟨t', h⟩, -⟩
      cases h
  | diverged =>
    refine iff_of_false ?_ ?_
    · rintro ⟨t', h⟩
      cases h
    · rintro ⟨s₂, a', ⟨t', h⟩, -⟩
      cases h

theorem gives_ite {c : Prop} [Decidable c] (x y : Traced σ ε α) :
    (if c then x else y : Traced σ ε α).Gives s s' a ↔ (c ∧ x.Gives s s' a) ∨ (¬ c ∧ y.Gives s s' a) := by
  split
  · rename_i h
    exact ⟨fun hx => .inl ⟨h, hx⟩, fun hx => hx.elim (·.2) fun hn => absurd h hn.1⟩
  · rename_i h
    exact ⟨fun hy => .inr ⟨h, hy⟩, fun hy => hy.elim (fun hc => absurd hc.1 h) (·.2)⟩

end Rules

end Traced

end EdgeOS.Lib
