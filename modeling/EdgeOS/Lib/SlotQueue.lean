import Mathlib.Data.List.Basic

namespace EdgeOS.Lib

/-!
A queue in an array of slots: `view` is what a slot holds, and the queue is what the slots hold from the first on. It is
a queue in order when the slot that is filled lies behind all others that hold something.
-/

open List

variable {σ α : Type*} {view : σ → Option α} {l : List σ} {s : σ} {a : α} {i : ℕ}

theorem filterMap_split (hi : i < l.length) :
    l.filterMap view = (l.take i).filterMap view ++ ((view l[i]).toList ++ (l.drop (i + 1)).filterMap view) := by
  conv_lhs => rw [← take_append_drop i l, drop_eq_getElem_cons hi]
  rw [filterMap_append, filterMap_cons]
  cases view l[i] <;> rfl

theorem filterMap_set_split (hi : i < l.length) : (l.set i s).filterMap view =
    (l.take i).filterMap view ++ ((view s).toList ++ (l.drop (i + 1)).filterMap view) := by
  rw [set_eq_take_append_cons_drop, if_pos hi, filterMap_append, filterMap_cons]
  cases view s <;> rfl

theorem filterMap_set_same (hi : i < l.length) (h : view s = view l[i]) :
    (l.set i s).filterMap view = l.filterMap view := by
  rw [filterMap_set_split hi, filterMap_split hi, h]

theorem filterMap_set_last (hi : i < l.length) (hfree : view l[i] = none) (ha : view s = some a)
    (hbehind : ∀ r ∈ l.drop (i + 1), view r = none) : (l.set i s).filterMap view = l.filterMap view ++ [a] := by
  have htail : (l.drop (i + 1)).filterMap view = [] := filterMap_eq_nil_iff.mpr hbehind
  rw [filterMap_set_split hi, filterMap_split hi, htail, hfree, ha]
  simp

theorem filterMap_set_first (hi : i < l.length) (ha : view l[i] = some a) (hs : view s = none)
    (hbefore : ∀ r ∈ l.take i, view r = none) : l.filterMap view = a :: (l.set i s).filterMap view := by
  have hhead : (l.take i).filterMap view = [] := filterMap_eq_nil_iff.mpr hbefore
  rw [filterMap_set_split hi, filterMap_split hi, hhead, ha, hs]
  rfl

end EdgeOS.Lib
