import Mathlib.Data.List.Perm.Basic
import Mathlib.Data.List.Nodup
import Mathlib.Data.List.Perm.Lattice

namespace EdgeOS.Lib.SlotTable

/-!
A table of entries that carry their key, as an array with a count holds it: entries are added at the end
and removed by moving the last one into the gap. With distinct keys it is a finite map, whatever the order.
-/

open Function List

variable {α κ : Type*} {key : α → κ} {l l' : List α} {a : α} {k : κ} {i : ℕ}

def Distinct (key : α → κ) (l : List α) : Prop := (l.map key).Nodup

/-- The last entry takes the place of entry `i`. -/
def removeAt (l : List α) (i : ℕ) : List α :=
  match l.getLast? with
  | none => l
  | some a => (l.set i a).dropLast

theorem Distinct.eq_of_key (h : Distinct key l) {b : α} (ha : a ∈ l) (hb : b ∈ l) (hk : key a = key b) :
    a = b := inj_on_of_nodup_map h ha hb hk

theorem Distinct.set (h : Distinct key l) (hi : i < l.length) (hk : key a = key l[i]) : Distinct key (l.set i a) := by
  unfold Distinct at h ⊢
  have hsame : (l.set i a).map key = l.map key := by
    rw [map_set, hk]
    apply ext_getElem
    · simp
    · intro j h1 h2
      rw [getElem_set]
      split_ifs with hij
      · simp [hij]
      · rfl
  rw [hsame]
  exact h

theorem removeAt_perm (hi : i < l.length) : (removeAt l i).Perm (l.eraseIdx i) := by
  rcases eq_nil_or_concat l with rfl | ⟨l', a, rfl⟩
  · simp at hi
  rw [concat_eq_append] at hi ⊢
  unfold removeAt
  rw [getLast?_concat]
  dsimp only
  rcases Nat.lt_or_ge i l'.length with hlt | hge
  · rw [set_append_left i a hlt, dropLast_concat, eraseIdx_append_of_lt_length hlt]
    exact (set_perm_cons_eraseIdx hlt a).trans (perm_append_singleton a _).symm
  have hlast : i = l'.length := by
    simp at hi
    omega
  rw [hlast, set_append_right _ _ (Nat.le_refl _)]
  simp [eraseIdx_append_of_length_le]

theorem removeAt_subset (hi : i < l.length) (ha : a ∈ removeAt l i) : a ∈ l :=
  mem_of_mem_eraseIdx ((removeAt_perm hi).mem_iff.mp ha)

theorem Distinct.removeAt (h : Distinct key l) (hi : i < l.length) : Distinct key (removeAt l i) := by
  have hp := (removeAt_perm hi).map key
  refine hp.nodup_iff.mpr ?_
  exact h.sublist ((eraseIdx_sublist l i).map key)

variable [DecidableEq κ]

def lookup (key : α → κ) (l : List α) (k : κ) : Option α := l.find? fun a => key a = k

def position (key : α → κ) (l : List α) (k : κ) : Option ℕ := l.findIdx? fun a => key a = k

theorem lookup_mem (h : lookup key l k = some a) : a ∈ l ∧ key a = k :=
  ⟨mem_of_find?_eq_some h, by simpa using find?_some h⟩

theorem lookup_none : lookup key l k = none ↔ ∀ a ∈ l, key a ≠ k := by
  unfold lookup
  rw [find?_eq_none]
  simp

theorem Distinct.lookup_iff (h : Distinct key l) : lookup key l k = some a ↔ a ∈ l ∧ key a = k := by
  refine ⟨lookup_mem, fun ⟨ha, hk⟩ => ?_⟩
  cases hf : lookup key l k with
  | none => exact absurd hk (lookup_none.mp hf a ha)
  | some b =>
    obtain ⟨hb, hkb⟩ := lookup_mem hf
    rw [h.eq_of_key hb ha (hkb.trans hk.symm)]

/-! ## The three updates -/

theorem Distinct.snoc (h : Distinct key l) (hnew : lookup key l (key a) = none) : Distinct key (l ++ [a]) := by
  unfold Distinct at h ⊢
  rw [map_append, map_singleton, nodup_append]
  refine ⟨h, by simp, ?_⟩
  intro x hx y hy
  obtain ⟨b, hb, rfl⟩ := mem_map.mp hx
  rw [mem_singleton.mp hy]
  exact lookup_none.mp hnew b hb

theorem lookup_snoc (hnew : lookup key l (key a) = none) :
    lookup key (l ++ [a]) = update (lookup key l) (key a) (some a) := by
  funext k
  unfold lookup at hnew ⊢
  rw [find?_append]
  by_cases hk : k = key a
  · rw [hk, hnew, update_self]
    simp
  rw [update_of_ne hk]
  have hlast : [a].find? (fun b => key b = k) = none := by
    simp [Ne.symm hk]
  rw [hlast, Option.or_none]

theorem position_some (h : position key l k = some i) : ∃ hi : i < l.length, key l[i] = k := by
  obtain ⟨hi, hk, -⟩ := findIdx?_eq_some_iff_getElem.mp h
  exact ⟨hi, by simpa using hk⟩

theorem position_none : position key l k = none ↔ lookup key l k = none := by
  rw [lookup_none]
  unfold position
  rw [findIdx?_eq_none_iff]
  simp

theorem Distinct.lookup_set (h : Distinct key l) (hi : i < l.length) (hk : key a = key l[i]) :
    lookup key (l.set i a) = update (lookup key l) (key a) (some a) := by
  have h' := h.set hi hk
  funext k
  by_cases hka : k = key a
  · rw [hka, update_self, h'.lookup_iff]
    exact ⟨mem_set hi a, rfl⟩
  rw [update_of_ne hka]
  apply Option.ext
  intro b
  rw [h'.lookup_iff, h.lookup_iff]
  apply and_congr_left
  intro hb
  constructor
  · intro hmem
    rcases mem_or_eq_of_mem_set hmem with hmem | rfl
    · exact hmem
    · exact absurd hb.symm hka
  · intro hmem
    obtain ⟨j, hj, rfl⟩ := getElem_of_mem hmem
    have hij : i ≠ j := by
      rintro rfl
      exact hka (hb.symm.trans hk.symm)
    rw [← getElem_set_ne hij (by simpa using hj) (a := a)]
    exact getElem_mem _

theorem Distinct.lookup_removeAt (h : Distinct key l) (hi : i < l.length) :
    lookup key (SlotTable.removeAt l i) = update (lookup key l) (key l[i]) none := by
  have h' := h.removeAt hi
  have hsplit : (l[i] :: l.eraseIdx i).Perm l := getElem_cons_eraseIdx_perm hi
  have hcons : Distinct key (l[i] :: l.eraseIdx i) := (hsplit.map key).nodup_iff.mpr h
  have hnot : key l[i] ∉ (l.eraseIdx i).map key := (nodup_cons.mp hcons).1
  funext k
  by_cases hk : k = key l[i]
  · rw [hk, update_self, lookup_none]
    intro b hb hkb
    apply hnot
    rw [← hkb]
    exact mem_map_of_mem ((removeAt_perm hi).mem_iff.mp hb)
  rw [update_of_ne hk]
  apply Option.ext
  intro b
  rw [h'.lookup_iff, h.lookup_iff, (removeAt_perm hi).mem_iff, ← hsplit.mem_iff, mem_cons]
  apply and_congr_left
  intro hb
  constructor
  · exact .inr
  · rintro (rfl | hmem)
    · exact absurd hb.symm hk
    · exact hmem

end EdgeOS.Lib.SlotTable
