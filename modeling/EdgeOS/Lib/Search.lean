import Mathlib.Data.Finset.Card
import Mathlib.Logic.Relation

namespace EdgeOS.Lib

/-!
A search that calls itself: at each node it tries the alternatives in order, some of which are other
nodes, and stops at the first that succeeds. It has a budget for its depth and nothing else to end it.
-/

open List

variable {α : Type*}

/-- An alternative: an answer that is known, or another node, whose answer counts unless `also` holds
anyway. -/
inductive Alt (α : Type*)
  | answer (b : Bool)
  | enter (x : α) (also : Bool)

def firstTrue {β : Type*} (f : β → Option Bool) : List β → Option Bool
  | [] => some false
  | a :: as =>
    match f a with
    | none => none
    | some true => some true
    | some false => firstTrue f as

/-- What an alternative says, where `sub` is the search at other nodes. -/
def Alt.try (sub : α → Option Bool) : Alt α → Option Bool
  | answer b => some b
  | enter x also => (sub x).map (· || also)

def search (alts : α → List (Alt α)) : ℕ → α → Option Bool
  | 0, _ => none
  | depth + 1, x => firstTrue (Alt.try (search alts depth)) (alts x)

/-- Some alternative succeeds, at this node or at one that it leads to. -/
inductive Succeeds (alts : α → List (Alt α)) : α → Prop
  | answer {x : α} (h : .answer true ∈ alts x) : Succeeds alts x
  | also {x y : α} (h : .enter y true ∈ alts x) : Succeeds alts x
  | enter {x y : α} {also : Bool} (h : .enter y also ∈ alts x) (hy : Succeeds alts y) : Succeeds alts x

def Alt.Good (alts : α → List (Alt α)) : Alt α → Prop
  | answer b => b
  | enter x also => also ∨ Succeeds alts x

/-- The search at `x` comes to `y`: nothing before it succeeds. -/
def Enters (alts : α → List (Alt α)) (x y : α) : Prop :=
  ∃ pre also post, alts x = pre ++ .enter y also :: post ∧ ∀ a ∈ pre, ¬ a.Good alts

/-- The search at `x` comes to no node that it comes back to. -/
def LoopFree (alts : α → List (Alt α)) (x : α) : Prop :=
  ∀ y, Relation.ReflTransGen (Enters alts) x y → ¬ Relation.TransGen (Enters alts) y y

section FirstTrue

variable {β : Type*} {f : β → Option Bool}

theorem firstTrue_true {l : List β} (h : firstTrue f l = some true) : ∃ a ∈ l, f a = some true := by
  induction l with
  | nil => cases h
  | cons a l ih =>
    rw [firstTrue] at h
    cases hf : f a with
    | none => simp [hf] at h
    | some b =>
      cases b with
      | true => exact ⟨a, mem_cons_self, hf⟩
      | false =>
        rw [hf] at h
        obtain ⟨a', hmem, ha'⟩ := ih h
        exact ⟨a', mem_cons_of_mem _ hmem, ha'⟩

theorem firstTrue_false {l : List β} (h : firstTrue f l = some false) : ∀ a ∈ l, f a = some false := by
  induction l with
  | nil =>
    intro a ha
    cases ha
  | cons a l ih =>
    rw [firstTrue] at h
    cases hf : f a with
    | none => simp [hf] at h
    | some b =>
      cases b with
      | true => simp [hf] at h
      | false =>
        rw [hf] at h
        intro a' ha'
        rcases mem_cons.mp ha' with rfl | hmem
        · exact hf
        · exact ih h a' hmem

/-- A search that ends has ended at each alternative that it came to. -/
theorem isSome_of_firstTrue {pre post : List β} {a : β} (h : (firstTrue f (pre ++ a :: post)).isSome)
    (hpre : ∀ b ∈ pre, f b ≠ some true) : (f a).isSome := by
  induction pre with
  | nil =>
    rw [nil_append, firstTrue] at h
    cases hf : f a with
    | none => simp [hf] at h
    | some b => rfl
  | cons b pre ih =>
    rw [cons_append, firstTrue] at h
    have hb := hpre b mem_cons_self
    apply ih _ fun c hc => hpre c (mem_cons_of_mem _ hc)
    cases hf : f b with
    | none => simp [hf] at h
    | some v =>
      cases v with
      | true => exact absurd hf hb
      | false => rwa [hf] at h

/-- A search ends if it ends at each alternative that it comes to. -/
theorem firstTrue_isSome {l : List β}
    (h : ∀ pre a post, l = pre ++ a :: post → (∀ b ∈ pre, f b = some false) → (f a).isSome) :
    (firstTrue f l).isSome := by
  induction l with
  | nil => rfl
  | cons a l ih =>
    rw [firstTrue]
    obtain ⟨v, hv⟩ := Option.isSome_iff_exists.mp (h [] a l rfl fun b hb => by cases hb)
    rw [hv]
    cases v with
    | true => rfl
    | false =>
      apply ih
      intro pre b post hl hpre
      apply h (a :: pre) b post (by rw [hl, cons_append])
      intro c hc
      rcases mem_cons.mp hc with rfl | hmem
      · exact hv
      · exact hpre c hmem

theorem firstTrue_map {γ : Type*} (g : γ → β) (l : List γ) : firstTrue f (l.map g) = firstTrue (fun c => f (g c)) l := by
  induction l with
  | nil => rfl
  | cons c l ih => rw [map_cons, firstTrue, firstTrue, ih]

end FirstTrue

variable {alts : α → List (Alt α)} {x y : α} {depth : ℕ}

/-- What a search that ends says is whether something succeeds. -/
theorem search_correct {b : Bool} (h : search alts depth x = some b) : b = true ↔ Succeeds alts x := by
  induction depth generalizing x b with
  | zero => cases h
  | succ depth ih =>
    rw [search] at h
    cases b with
    | true =>
      refine iff_of_true rfl ?_
      obtain ⟨a, hmem, ha⟩ := firstTrue_true h
      cases a with
      | answer v =>
        cases ha
        exact .answer hmem
      | enter y also =>
        obtain ⟨v, hv, hor⟩ := Option.map_eq_some_iff.mp ha
        cases v with
        | true => exact .enter hmem ((ih hv).mp rfl)
        | false =>
          have halso : also = true := hor
          rw [halso] at hmem
          exact .also hmem
    | false =>
      refine iff_of_false Bool.false_ne_true fun hs => ?_
      have hall := firstTrue_false h
      cases hs with
      | answer hmem => cases hall _ hmem
      | also hmem =>
        obtain ⟨v, _, hor⟩ := Option.map_eq_some_iff.mp (hall _ hmem)
        rw [Bool.or_true] at hor
        cases hor
      | enter hmem hy =>
        obtain ⟨v, hv, hor⟩ := Option.map_eq_some_iff.mp (hall _ hmem)
        have htrue := (ih hv).mpr hy
        rw [htrue, Bool.true_or] at hor
        cases hor

theorem try_good {a : Alt α} {b : Bool} (h : a.try (search alts depth) = some b) : b = true ↔ a.Good alts := by
  cases a with
  | answer v =>
    cases h
    exact Iff.rfl
  | enter y also =>
    obtain ⟨v, hv, rfl⟩ := Option.map_eq_some_iff.mp h
    unfold Alt.Good
    rw [Bool.or_eq_true, search_correct hv, or_comm]

/-- A search that ends has ended, with less of a budget, at each node that it came to. -/
theorem Enters.ends (h : Enters alts x y) (hx : (search alts depth x).isSome) :
    ∃ depth' < depth, (search alts depth' y).isSome := by
  cases depth with
  | zero => cases hx
  | succ depth =>
    obtain ⟨pre, also, post, hsplit, hpre⟩ := h
    rw [search, hsplit] at hx
    have hy := isSome_of_firstTrue hx fun a ha htrue => hpre a ha ((try_good htrue).mp rfl)
    refine ⟨depth, depth.lt_succ_self, ?_⟩
    rwa [Alt.try, Option.isSome_map] at hy

theorem ends_of_transGen (h : Relation.TransGen (Enters alts) x y) (hx : (search alts depth x).isSome) :
    ∃ depth' < depth, (search alts depth' y).isSome := by
  induction h with
  | single h => exact h.ends hx
  | tail _ h ih =>
    obtain ⟨depth', hlt, hsome⟩ := ih
    obtain ⟨depth'', hlt', hsome'⟩ := h.ends hsome
    exact ⟨depth'', hlt'.trans hlt, hsome'⟩

theorem loopFree_of_ends (hx : (search alts depth x).isSome) : LoopFree alts x := by
  have hself : ∀ (depth : ℕ) (y : α), (search alts depth y).isSome → ¬ Relation.TransGen (Enters alts) y y := by
    intro depth
    induction depth using Nat.strong_induction_on with
    | _ depth ih =>
      intro y hy hloop
      obtain ⟨depth', hlt, hsome⟩ := ends_of_transGen hloop hy
      exact ih depth' hlt y hsome hloop
  intro y hreach
  rcases Relation.reflTransGen_iff_eq_or_transGen.mp hreach with rfl | htrans
  · exact hself depth _ hx
  · obtain ⟨depth', _, hsome⟩ := ends_of_transGen htrans hx
    exact hself depth' y hsome

/-- A search that comes to no loop ends, with a budget for as many nodes as there are. -/
theorem ends_of_loopFree [DecidableEq α] {nodes : Finset α} (hclosed : ∀ x y, Enters alts x y → y ∈ nodes)
    (hx : x ∈ nodes) (hfree : LoopFree alts x) : (search alts nodes.card x).isSome := by
  -- `seen` are the nodes on the way to `x`
  have hstep : ∀ (depth : ℕ) (seen : Finset α) (x : α), seen ⊆ nodes → x ∈ nodes → x ∉ seen →
      (∀ y ∈ seen, Relation.TransGen (Enters alts) y x) → nodes.card ≤ depth + seen.card → LoopFree alts x →
      (search alts depth x).isSome := by
    intro depth
    induction depth with
    | zero =>
      intro seen x hsub hx hnew _ hcard _
      have hgrow := Finset.card_le_card (Finset.insert_subset hx hsub)
      rw [Finset.card_insert_of_notMem hnew] at hgrow
      omega
    | succ depth ih =>
      intro seen x hsub hx hnew hway hcard hfree
      rw [search]
      apply firstTrue_isSome
      intro pre a post hsplit hpre
      cases a with
      | answer b => rfl
      | enter y also =>
        have henters : Enters alts x y := by
          refine ⟨pre, also, post, hsplit, fun a ha hgood => ?_⟩
          have hfalse := (try_good (hpre a ha)).mpr hgood
          cases hfalse
        have hfreey : LoopFree alts y := fun z hz => hfree z (.head henters hz)
        have hloop := hfreey y .refl
        rw [Alt.try, Option.isSome_map]
        apply ih (insert x seen) y (Finset.insert_subset hx hsub) (hclosed x y henters)
        · intro hmem
          rcases Finset.mem_insert.mp hmem with rfl | hseen
          · exact hloop (.single henters)
          · exact hfree x .refl (.head henters (hway y hseen))
        · intro z hz
          rcases Finset.mem_insert.mp hz with rfl | hseen
          · exact .single henters
          · exact (hway z hseen).tail henters
        · rw [Finset.card_insert_of_notMem hnew]
          omega
        · exact hfreey
  exact hstep nodes.card ∅ x (Finset.empty_subset _) hx (Finset.notMem_empty x) (fun y hy => by cases hy) (by simp)
    hfree

end EdgeOS.Lib
