import Mathlib.Logic.Function.Basic
import Mathlib.Tactic.SplitIfs

namespace EdgeOS.Lib

/-!
A cache of one block in front of a store, which is written back before another block takes its place.
-/

open Function

/-- A store and the block of it that is cached. -/
structure WriteBack (κ β : Type*) where
  store : κ → β
  valid : Bool
  dirty : Bool
  key : κ
  data : β

namespace WriteBack

variable {κ β : Type*} [DecidableEq κ] (c : WriteBack κ β)

def view (k : κ) : β := if c.valid = true ∧ c.key = k then c.data else c.store k

/-- A cached block that is not dirty is the one of the store. -/
def Clean : Prop := c.valid = true → c.dirty = false → c.data = c.store c.key

/-- A dirty block goes to the store. `torn` is what a write that fails leaves there. -/
def flush (torn : Option β) : WriteBack κ β × Bool :=
  if c.valid = false ∨ c.dirty = false then (c, true)
  else
    match torn with
    | some b => ({ c with store := update c.store c.key b }, false)
    | none => ({ c with store := update c.store c.key c.data, dirty := false }, true)

/-- Another block is cached. `junk` is what a read that fails leaves in the cache. -/
def load (torn junk : Option β) (k : κ) : WriteBack κ β × Bool :=
  if c.valid = true ∧ c.key = k then (c, true)
  else
    let c := c.flush torn
    if c.2 = false then c
    else
      match junk with
      | some b => ({ c.1 with data := b }, false)
      | none => ({ c.1 with valid := true, dirty := false, key := k, data := c.1.store k }, true)

def modify (b : β) : WriteBack κ β := { c with data := b, dirty := true }

variable {c} {t j : Option β} {k : κ} {b : β}

theorem view_update (hvalid : c.valid = true) (b : β) (dirty : Bool) :
    ({ c with store := update c.store c.key b, dirty := dirty } : WriteBack κ β).view = c.view := by
  funext k
  unfold view
  dsimp only
  split_ifs with hk
  · rfl
  · exact update_of_ne (fun h => hk ⟨hvalid, h.symm⟩) _ _

theorem view_modify (hvalid : c.valid = true) : (c.modify b).view = update c.view c.key b := by
  funext k
  unfold view modify
  rw [update_apply]
  simp only [hvalid, true_and, eq_comm]
  split_ifs <;> rfl

theorem view_of_stored (h : c.valid = true → c.data = c.store c.key) : c.view = c.store := by
  funext k
  unfold view
  split_ifs with hk
  · rw [h hk.1, hk.2]
  · rfl

/-- A flush keeps what is seen, and when it succeeds the store holds all of it. -/
theorem flush_view (hc : c.Clean) : (c.flush t).1.view = c.view ∧ (c.flush t).1.Clean ∧
    ((c.flush t).2 = true → (c.flush t).1.store = c.view) := by
  unfold flush
  split_ifs with h
  · refine ⟨rfl, hc, fun _ => (view_of_stored fun hvalid => hc hvalid (h.resolve_left ?_)).symm⟩
    rw [hvalid]
    decide
  rw [not_or, Bool.not_eq_false] at h
  cases t with
  | some b => exact ⟨view_update h.1 b _, fun _ hclean => absurd hclean h.2, fun hok => by cases hok⟩
  | none =>
    have hview := view_update h.1 c.data false
    have hself : c.data = update c.store c.key c.data c.key := by rw [update_self]
    refine ⟨hview, fun _ _ => hself, fun _ => ?_⟩
    rw [← hview]
    exact (view_of_stored fun _ => hself).symm

theorem flush_line : (c.flush t).1.data = c.data ∧ (c.flush t).1.valid = c.valid ∧ (c.flush t).1.key = c.key := by
  unfold flush
  split_ifs
  · exact ⟨rfl, rfl, rfl⟩
  cases t <;> exact ⟨rfl, rfl, rfl⟩

theorem load_key : (c.load t j k).1.valid = true →
    (c.load t j k).1.key = k ∨ c.valid = true ∧ (c.load t j k).1.key = c.key := by
  obtain ⟨-, hvalid, hkey⟩ := flush_line (c := c) (t := t)
  unfold load
  dsimp only
  split_ifs
  · exact fun h => .inr ⟨h, rfl⟩
  · exact fun h => .inr ⟨hvalid ▸ h, hkey⟩
  cases j with
  | some b => exact fun h => .inr ⟨hvalid ▸ h, hkey⟩
  | none => exact fun _ => .inl rfl

theorem load_works : (c.load none none k).2 = true := by
  unfold load flush
  dsimp only
  split_ifs <;> simp_all

/-- A load keeps what is seen, and when it succeeds the block is in the cache. -/
theorem load_view (hc : c.Clean) (hjunk : ∀ b, j = some b → b = c.data) :
    (c.load t j k).1.view = c.view ∧ (c.load t j k).1.Clean ∧
      ((c.load t j k).2 = true → (c.load t j k).1.valid = true ∧ (c.load t j k).1.key = k) := by
  obtain ⟨hview, hclean, hstore⟩ := flush_view (t := t) hc
  unfold load
  dsimp only
  split_ifs with hcached hfail
  · exact ⟨rfl, hc, fun _ => hcached⟩
  · exact ⟨hview, hclean, fun hok => absurd hok (by simp [hfail])⟩
  cases j with
  | some b =>
    rw [hjunk b rfl, ← (flush_line (t := t)).1]
    exact ⟨hview, hclean, fun hok => by cases hok⟩
  | none =>
    rw [← hstore (Bool.not_eq_false _ ▸ hfail)]
    exact ⟨view_of_stored fun _ => rfl, fun _ _ => rfl, fun _ => ⟨rfl, rfl⟩⟩

end WriteBack

end EdgeOS.Lib
