import Mathlib.Data.List.Range
import Mathlib.Data.Nat.ModEq
import Mathlib.Logic.Function.Basic

namespace EdgeOS.Lib

/-!
RingBuffer buffers with two cursors and a counter. The capacity is an argument of the operations;
a cell outside the `count` cells from `rpos` on holds whatever was there.
-/

open Function List

structure RingBuffer (α : Type*) where
  rpos : ℕ
  wpos : ℕ
  count : ℕ
  buf : ℕ → α

namespace RingBuffer

variable {α : Type*} (n : ℕ) (r : RingBuffer α)

/-- A ring whose cells are all `a`. -/
def empty (a : α) : RingBuffer α := ⟨0, 0, 0, fun _ => a⟩

def push (a : α) : RingBuffer α :=
  { r with buf := Function.update r.buf r.wpos a, wpos := (r.wpos + 1) % n, count := r.count + 1 }

def pop : RingBuffer α := { r with rpos := (r.rpos + 1) % n, count := r.count - 1 }

def prev : ℕ := (r.wpos + n - 1) % n

def unpush : RingBuffer α := { r with wpos := r.prev n, count := r.count - 1 }

/-- The cells that a walk of `count` steps from `pos` on meets. -/
def walk (buf : ℕ → α) : ℕ → ℕ → List α
  | 0, _ => []
  | count + 1, pos => buf pos :: walk buf count ((pos + 1) % n)

/-- The cell `k` places after the reading cursor. -/
def cell (k : ℕ) : α := r.buf ((r.rpos + k) % n)

def contents : List α := (List.range r.count).map (r.cell n)

/-- The counter is in range and the cursors agree with it. -/
structure Valid : Prop where
  count_le : r.count ≤ n
  rpos_lt : r.rpos < n
  wpos_eq : r.wpos = (r.rpos + r.count) % n

variable {n r}

theorem valid_empty (hn : 0 < n) (a : α) : (empty a).Valid n :=
  ⟨Nat.zero_le _, hn, (Nat.zero_mod n).symm⟩

@[simp] theorem length_contents : (r.contents n).length = r.count := by
  simp [contents]

theorem Valid.push (h : r.Valid n) (hc : r.count < n) (a : α) : (r.push n a).Valid n := by
  refine ⟨hc, h.rpos_lt, ?_⟩
  change (r.wpos + 1) % n = (r.rpos + (r.count + 1)) % n
  rw [h.wpos_eq, Nat.mod_add_mod, Nat.add_assoc]

theorem Valid.pop (h : r.Valid n) (hc : 0 < r.count) : (r.pop n).Valid n := by
  have hn : 0 < n := lt_of_le_of_lt (Nat.zero_le _) h.rpos_lt
  refine ⟨(Nat.sub_le _ _).trans h.count_le, Nat.mod_lt _ hn, ?_⟩
  change r.wpos = ((r.rpos + 1) % n + (r.count - 1)) % n
  rw [Nat.mod_add_mod, h.wpos_eq]
  congr 1
  omega

/-- Two offsets below the capacity name the same cell only when they are equal. -/
theorem Valid.cell_ne (h : r.Valid n) {k : ℕ} (hk : k < r.count) (hc : r.count < n) : (r.rpos + k) % n ≠ r.wpos := by
  rw [h.wpos_eq]
  intro heq
  have hmod : k ≡ r.count [MOD n] := Nat.ModEq.add_left_cancel' r.rpos heq
  have := Nat.ModEq.eq_of_lt_of_lt hmod (hk.trans hc) hc
  omega

theorem Valid.contents_push (h : r.Valid n) (hc : r.count < n) (a : α) :
    (r.push n a).contents n = r.contents n ++ [a] := by
  unfold contents
  change (List.range (r.count + 1)).map _ = _
  rw [range_succ, map_append, map_singleton]
  congr 1
  · apply map_congr_left
    intro k hk
    exact update_of_ne (h.cell_ne (mem_range.mp hk) hc) _ _
  · change [update r.buf r.wpos a ((r.rpos + r.count) % n)] = [a]
    rw [← h.wpos_eq, update_self]

theorem Valid.contents_pop (h : r.Valid n) (hc : 0 < r.count) :
    r.contents n = r.buf r.rpos :: (r.pop n).contents n := by
  obtain ⟨c, hcount⟩ : ∃ c, r.count = c + 1 := ⟨r.count - 1, by omega⟩
  have hpop : (r.pop n).count = c := by
    change r.count - 1 = c
    omega
  unfold contents
  rw [hpop, hcount, range_succ_eq_map, map_cons, map_map]
  congr 1
  · change r.buf ((r.rpos + 0) % n) = _
    rw [Nat.add_zero, Nat.mod_eq_of_lt h.rpos_lt]
  · apply map_congr_left
    intro k _
    change r.buf ((r.rpos + (k + 1)) % n) = r.buf (((r.rpos + 1) % n + k) % n)
    rw [Nat.mod_add_mod, Nat.add_right_comm, Nat.add_assoc]

theorem Valid.pops (h : r.Valid n) {j : ℕ} (hj : j ≤ r.count) :
    ((RingBuffer.pop n)^[j] r).Valid n ∧ ((RingBuffer.pop n)^[j] r).count = r.count - j ∧
      ((RingBuffer.pop n)^[j] r).contents n = (r.contents n).drop j := by
  induction j with
  | zero => exact ⟨h, rfl, rfl⟩
  | succ j ih =>
    obtain ⟨hv, hcount, hcont⟩ := ih (by omega)
    rw [Function.iterate_succ_apply']
    have hpos : 0 < ((RingBuffer.pop n)^[j] r).count := by omega
    refine ⟨hv.pop hpos, ?_, ?_⟩
    · change ((RingBuffer.pop n)^[j] r).count - 1 = _
      omega
    · have htail := congrArg tail (hv.contents_pop hpos)
      rw [hcont, tail_cons, tail_drop] at htail
      exact htail.symm

/-- A walk from the reading cursor on meets the contents. -/
theorem walk_eq (buf : ℕ → α) (count pos : ℕ) (hpos : pos < n) :
    walk n buf count pos = (List.range count).map fun k => buf ((pos + k) % n) := by
  have hn : 0 < n := by omega
  induction count generalizing pos with
  | zero => rfl
  | succ count ih =>
    rw [walk, ih _ (Nat.mod_lt _ hn), range_succ_eq_map, map_cons, map_map]
    congr 1
    · rw [Nat.add_zero, Nat.mod_eq_of_lt hpos]
    · apply map_congr_left
      intro k _
      change buf (((pos + 1) % n + k) % n) = buf ((pos + (k + 1)) % n)
      rw [Nat.mod_add_mod, Nat.add_right_comm, Nat.add_assoc]

theorem Valid.walk (h : r.Valid n) : RingBuffer.walk n r.buf r.count r.rpos = r.contents n :=
  walk_eq r.buf r.count r.rpos h.rpos_lt

/-- The cell before the writing cursor is the last one in use. -/
theorem Valid.prev_eq (h : r.Valid n) (hc : 0 < r.count) : r.prev n = (r.rpos + (r.count - 1)) % n := by
  have hn : 0 < n := lt_of_le_of_lt (Nat.zero_le _) h.rpos_lt
  unfold prev
  rw [h.wpos_eq, Nat.add_sub_assoc hn, Nat.mod_add_mod]
  have hsum : r.rpos + r.count + (n - 1) = r.rpos + (r.count - 1) + n := by omega
  rw [hsum, Nat.add_mod_right]

theorem Valid.unpush (h : r.Valid n) (hc : 0 < r.count) : (r.unpush n).Valid n :=
  ⟨(Nat.sub_le _ _).trans h.count_le, h.rpos_lt, h.prev_eq hc⟩

theorem Valid.contents_unpush (h : r.Valid n) (hc : 0 < r.count) :
    r.contents n = (r.unpush n).contents n ++ [r.buf (r.prev n)] := by
  obtain ⟨c, hcount⟩ : ∃ c, r.count = c + 1 := ⟨r.count - 1, by omega⟩
  have hlast : (r.unpush n).count = c := by
    change r.count - 1 = c
    omega
  unfold contents
  rw [hlast, hcount, range_succ, map_append, map_singleton, h.prev_eq hc, hcount]
  rfl

theorem Valid.pushes (xs : List α) (h : r.Valid n) (hc : r.count + xs.length ≤ n) :
    (xs.foldl (RingBuffer.push n) r).Valid n ∧ (xs.foldl (RingBuffer.push n) r).contents n = r.contents n ++ xs := by
  induction xs generalizing r with
  | nil => exact ⟨h, (append_nil _).symm⟩
  | cons x xs ih =>
    rw [length_cons] at hc
    have hlt : r.count < n := by omega
    have hcount : (r.push n x).count + xs.length ≤ n := by
      change r.count + 1 + xs.length ≤ n
      omega
    obtain ⟨hv, hcont⟩ := ih (h.push hlt x) hcount
    refine ⟨hv, ?_⟩
    rw [foldl_cons, hcont, h.contents_push hlt, append_assoc]
    rfl

end RingBuffer

end EdgeOS.Lib
