import Mathlib.Data.List.Basic

namespace EdgeOS.Lib

/-!
Runs of a deterministic transition function. All choice (which task acts, what
the environment answers) is carried by the events, so a run is a list of events.
-/

variable {σ ε : Type*}

def run (step : σ → ε → σ) (s : σ) (es : List ε) : σ := es.foldl step s

/-- Every event of the run meets `ok` in the state it is applied to. -/
def Meets (step : σ → ε → σ) (ok : σ → ε → Prop) : σ → List ε → Prop
  | _, [] => True
  | s, e :: es => ok s e ∧ Meets step ok (step s e) es

instance Meets.decidable (step : σ → ε → σ) (ok : σ → ε → Prop) [∀ s e, Decidable (ok s e)] :
    ∀ s es, Decidable (Meets step ok s es)
  | _, [] => inferInstanceAs (Decidable True)
  | s, e :: es =>
    have := Meets.decidable step ok (step s e) es
    inferInstanceAs (Decidable (ok s e ∧ Meets step ok (step s e) es))

/-- A decidable condition on the members of a list is checked in the order of the list, also where the type of the
members is finite. -/
theorem forall_mem_of_all {α : Type*} {P : α → Prop} [DecidablePred P] {l : List α}
    (h : (l.all fun a => decide (P a)) = true) : ∀ a ∈ l, P a :=
  fun a ha => of_decide_eq_true (List.all_eq_true.mp h a ha)

@[simp] theorem run_nil (step : σ → ε → σ) (s : σ) : run step s [] = s := rfl

@[simp] theorem run_cons (step : σ → ε → σ) (s : σ) (e : ε) (es : List ε) :
    run step s (e :: es) = run step (step s e) es := rfl

theorem run_concat (step : σ → ε → σ) (s : σ) (es : List ε) (e : ε) :
    run step s (es ++ [e]) = step (run step s es) e := by
  unfold run
  rw [List.foldl_append]
  rfl

variable {step : σ → ε → σ} {ok : σ → ε → Prop} {s : σ} {es : List ε}

theorem meets_append {es' : List ε} :
    Meets step ok s (es ++ es') ↔ Meets step ok s es ∧ Meets step ok (run step s es) es' := by
  induction es generalizing s with
  | nil => exact (iff_of_eq (true_and _)).symm
  | cons e es ih =>
    rw [List.cons_append, Meets, Meets, ih, and_assoc, run_cons]

variable {P : σ → ε → Prop}

/-- What holds of every event in every state holds along every run. -/
theorem meets_of_forall (h : ∀ s e, P s e) (s : σ) (es : List ε) : Meets step P s es := by
  induction es generalizing s with
  | nil => trivial
  | cons e es ih => exact ⟨h s e, ih _⟩

variable {I : σ → Prop}

/-- An invariant that every admitted event preserves holds at the end of every
admitted run. -/
theorem run_invariant (hstep : ∀ s e, I s → ok s e → I (step s e)) :
    ∀ {s : σ} {es : List ε}, I s → Meets step ok s es → I (run step s es) := by
  intro s es
  induction es generalizing s with
  | nil => intro h _; exact h
  | cons e es ih =>
    rintro h ⟨hok, hes⟩
    exact ih (hstep s e h hok) hes

/-- What holds of every admitted event in a state with the invariant holds of every event of
an admitted run. -/
theorem meets_of_invariant (hstep : ∀ s e, I s → ok s e → I (step s e)) (hout : ∀ s e, I s → ok s e → P s e) :
    ∀ {s : σ} {es : List ε}, I s → Meets step ok s es → Meets step P s es := by
  intro s es
  induction es generalizing s with
  | nil => intro _ _; trivial
  | cons e es ih =>
    rintro h ⟨hok, hes⟩
    exact ⟨hout s e h hok, ih (hstep s e h hok) hes⟩

/-- Two properties of events that agree in every state with the invariant agree on runs that keep to a domain, where
the first one preserves the invariant. -/
theorem meets_iff_within {D : σ → ε → Prop}
    (hstep : ∀ s e, I s → D s e → ok s e → I (step s e)) (hiff : ∀ s e, I s → D s e → (ok s e ↔ P s e))
    (h : I s) (hD : Meets step D s es) : Meets step ok s es ↔ Meets step P s es := by
  induction es generalizing s with
  | nil => exact Iff.rfl
  | cons e es ih =>
    rw [Meets, Meets, hiff s e h hD.1]
    apply and_congr_right
    intro hP
    exact ih (hstep s e h hD.1 ((hiff s e h hD.1).mpr hP)) hD.2

theorem meets_iff (hstep : ∀ s e, I s → ok s e → I (step s e)) (hiff : ∀ s e, I s → (ok s e ↔ P s e))
    (h : I s) : Meets step ok s es ↔ Meets step P s es :=
  meets_iff_within (fun s e hs _ => hstep s e hs) (fun s e hs _ => hiff s e hs) h
    (meets_of_forall (fun _ _ => trivial) s es)

end EdgeOS.Lib
