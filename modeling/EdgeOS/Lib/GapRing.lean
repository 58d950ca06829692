import EdgeOS.Lib.RingBuffer

namespace EdgeOS.Lib

/-!
Ring buffers that count by their cursors alone: one cell stays free, and what finds no other cell is
dropped. A log beside the ring says what was offered to it, unit by unit, and what was taken out.
-/

open List

/-- A ring of `n` cells: `head` is where the next value goes, `tail` where the oldest one is. -/
structure GapRing (α : Type*) where
  head : ℕ
  tail : ℕ
  buf : ℕ → α

namespace GapRing

variable {α : Type*} (n : ℕ) (r : GapRing α)

def empty (a : α) : GapRing α := ⟨0, 0, fun _ => a⟩

def push (a : α) : GapRing α :=
  if (r.head + 1) % n = r.tail then r
  else { r with buf := Function.update r.buf r.head a, head := (r.head + 1) % n }

def pop : Option (α × GapRing α) :=
  if r.head = r.tail then none else some (r.buf r.tail, { r with tail := (r.tail + 1) % n })

def count : ℕ := (r.head + n - r.tail) % n
def room : ℕ := n - 1 - r.count n

def counted : RingBuffer α := ⟨r.tail, r.head, r.count n, r.buf⟩

def contents : List α := (r.counted n).contents n

structure Valid : Prop where
  head_lt : r.head < n
  tail_lt : r.tail < n

variable {n r}

theorem valid_empty (hn : 0 < n) (a : α) : (empty a).Valid n := ⟨hn, hn⟩

theorem count_empty (a : α) : (empty a).count n = 0 := by
  change (0 + n - 0) % n = 0
  rw [Nat.sub_zero, Nat.zero_add, Nat.mod_self]

theorem contents_empty (a : α) : (empty a).contents n = [] := by
  unfold contents RingBuffer.contents counted
  rw [count_empty]
  rfl

/-- The distance between the cursors, without the modulus. -/
theorem Valid.count_eq (h : r.Valid n) :
    r.count n = if r.tail ≤ r.head then r.head - r.tail else r.head + n - r.tail := by
  have hhead := h.head_lt
  have htail := h.tail_lt
  unfold count
  by_cases hle : r.tail ≤ r.head
  · rw [if_pos hle, show r.head + n - r.tail = r.head - r.tail + n by omega, Nat.add_mod_right]
    exact Nat.mod_eq_of_lt (by omega)
  · rw [if_neg hle]
    exact Nat.mod_eq_of_lt (by omega)

theorem succ_mod {p : ℕ} (hp : p < n) : (p + 1) % n = if p + 1 = n then 0 else p + 1 := by
  by_cases heq : p + 1 = n
  · rw [if_pos heq, heq, Nat.mod_self]
  · rw [if_neg heq]
    exact Nat.mod_eq_of_lt (by omega)

theorem Valid.count_lt (h : r.Valid n) : r.count n < n :=
  Nat.mod_lt _ ((Nat.zero_le _).trans_lt h.head_lt)

theorem Valid.counted (h : r.Valid n) : (r.counted n).Valid n := by
  refine ⟨h.count_lt.le, h.tail_lt, ?_⟩
  change r.head = (r.tail + r.count n) % n
  have htail := h.tail_lt
  unfold count
  rw [Nat.add_mod_mod, show r.tail + (r.head + n - r.tail) = r.head + n by omega, Nat.add_mod_right]
  exact (Nat.mod_eq_of_lt h.head_lt).symm

theorem Valid.full_iff (h : r.Valid n) : (r.head + 1) % n = r.tail ↔ r.room n = 0 := by
  have hhead := h.head_lt
  have htail := h.tail_lt
  unfold room
  rw [succ_mod hhead, h.count_eq]
  split_ifs <;> omega

theorem Valid.empty_iff (h : r.Valid n) : r.head = r.tail ↔ r.count n = 0 := by
  have hhead := h.head_lt
  have htail := h.tail_lt
  rw [h.count_eq]
  split_ifs <;> omega

theorem Valid.push_full (h : r.Valid n) (hroom : r.room n = 0) (a : α) : r.push n a = r :=
  if_pos (h.full_iff.mpr hroom)

theorem Valid.push_free (h : r.Valid n) (hroom : 0 < r.room n) (a : α) :
    (r.push n a).Valid n ∧ (r.push n a).room n = r.room n - 1 ∧ (r.push n a).contents n = r.contents n ++ [a] := by
  have hfull : ¬(r.head + 1) % n = r.tail := fun heq => hroom.ne' (h.full_iff.mp heq)
  have hhead := h.head_lt
  have htail := h.tail_lt
  have hpush : r.push n a = { r with buf := Function.update r.buf r.head a, head := (r.head + 1) % n } := if_neg hfull
  have hv : (r.push n a).Valid n := by
    rw [hpush]
    exact ⟨Nat.mod_lt _ (by omega), h.tail_lt⟩
  have hcount : (r.push n a).count n = r.count n + 1 := by
    rw [hv.count_eq, h.count_eq, hpush]
    change (if r.tail ≤ (r.head + 1) % n then (r.head + 1) % n - r.tail
      else (r.head + 1) % n + n - r.tail) = _
    rw [succ_mod hhead] at hfull ⊢
    split_ifs at hfull ⊢ <;> omega
  refine ⟨hv, ?_, ?_⟩
  · unfold room at hroom ⊢
    omega
  · have hcounted : (r.push n a).counted n = (r.counted n).push n a := by
      unfold GapRing.counted
      rw [hcount, hpush]
      rfl
    have hlt : (r.counted n).count < n := h.count_lt
    unfold contents
    rw [hcounted, h.counted.contents_push hlt]

/-- Of several values as many are kept, from the first on, as there is room for. -/
theorem Valid.pushes (xs : List α) (h : r.Valid n) :
    (xs.foldl (push n) r).Valid n ∧ (xs.foldl (push n) r).room n = r.room n - xs.length ∧
      (xs.foldl (push n) r).contents n = r.contents n ++ xs.take (r.room n) := by
  induction xs generalizing r with
  | nil => exact ⟨h, rfl, by rw [take_nil, append_nil]; rfl⟩
  | cons x xs ih =>
    rw [foldl_cons, length_cons]
    by_cases hroom : r.room n = 0
    · rw [h.push_full hroom]
      obtain ⟨hv, hr, hc⟩ := ih h
      refine ⟨hv, by omega, ?_⟩
      rw [hc, hroom, take_zero, take_zero]
    obtain ⟨hpv, hpr, hpc⟩ := h.push_free (Nat.pos_of_ne_zero hroom) x
    obtain ⟨hv, hr, hc⟩ := ih hpv
    obtain ⟨k, hk⟩ := Nat.exists_eq_succ_of_ne_zero hroom
    refine ⟨hv, by omega, ?_⟩
    rw [hc, hpc, hpr, hk, append_assoc]
    rfl

theorem Valid.pop_some (h : r.Valid n) {a : α} {r' : GapRing α} (hpop : r.pop n = some (a, r')) :
    r'.Valid n ∧ r.contents n = a :: r'.contents n := by
  have hhead := h.head_lt
  have htail := h.tail_lt
  have hne : ¬r.head = r.tail := by
    intro heq
    rw [pop, if_pos heq] at hpop
    cases hpop
  rw [pop, if_neg hne] at hpop
  cases hpop
  have hv : GapRing.Valid n { r with tail := (r.tail + 1) % n } := ⟨h.head_lt, Nat.mod_lt _ (by omega)⟩
  have hpos : 0 < (r.counted n).count := Nat.pos_of_ne_zero fun hzero => hne (h.empty_iff.mpr hzero)
  have hcount : GapRing.count n { r with tail := (r.tail + 1) % n } = r.count n - 1 := by
    rw [hv.count_eq, h.count_eq]
    change (if (r.tail + 1) % n ≤ r.head then r.head - (r.tail + 1) % n
      else r.head + n - (r.tail + 1) % n) = _
    rw [succ_mod htail]
    split_ifs <;> omega
  have hcounted : GapRing.counted n { r with tail := (r.tail + 1) % n } = (r.counted n).pop n := by
    unfold GapRing.counted
    rw [hcount]
    rfl
  refine ⟨hv, ?_⟩
  unfold contents
  rw [hcounted, h.counted.contents_pop hpos]
  rfl

end GapRing

/-! ## Units -/

/-- What was offered to a queue, unit by unit, and what has been taken out of it. -/
structure UnitLog (α : Type*) where
  units : List (List α) := []
  taken : List α := []

namespace UnitLog

variable {α : Type*}

def offer (l : UnitLog α) (us : List (List α)) : UnitLog α := { l with units := l.units ++ us }

def take (l : UnitLog α) (a : α) : UnitLog α := { l with taken := l.taken ++ [a] }

/-- What has come out of a queue, and what is still in it, are whole units in the order in which they
were offered. -/
def Whole (l : UnitLog α) (queued : List α) : Prop :=
  ∃ kept : List (List α), kept.Sublist l.units ∧ l.taken ++ queued = kept.flatten

variable {l : UnitLog α} {queued : List α}

theorem Whole.take {a : α} (h : l.Whole (a :: queued)) : (l.take a).Whole queued := by
  obtain ⟨kept, hsub, heq⟩ := h
  refine ⟨kept, hsub, ?_⟩
  rw [← heq]
  exact append_assoc _ _ _

theorem Whole.kept (h : l.Whole queued) (u : List α) : (l.offer [u]).Whole (queued ++ u) := by
  obtain ⟨kept, hsub, heq⟩ := h
  refine ⟨kept ++ [u], hsub.append (List.Sublist.refl [u]), ?_⟩
  rw [flatten_append, flatten_singleton, ← heq]
  exact (append_assoc _ _ _).symm

theorem Whole.dropped (h : l.Whole queued) (u : List α) : (l.offer [u]).Whole queued := by
  obtain ⟨kept, hsub, heq⟩ := h
  exact ⟨kept, hsub.trans (sublist_append_left _ _), heq⟩

end UnitLog

/-- Units of the lengths `ks` find either no cell free or enough of them, each after the ones before it. -/
def Fits : ℕ → List ℕ → Prop
  | _, [] => True
  | room, k :: ks => (room = 0 ∨ k ≤ room) ∧ Fits (room - k) ks

instance Fits.decidable : ∀ room ks, Decidable (Fits room ks)
  | _, [] => inferInstanceAs (Decidable True)
  | room, k :: ks =>
    have := Fits.decidable (room - k) ks
    inferInstanceAs (Decidable ((room = 0 ∨ k ≤ room) ∧ Fits (room - k) ks))

namespace GapRing

variable {α : Type*} {n : ℕ} {r : GapRing α} {l : UnitLog α}

theorem Valid.whole_pushes (us : List (List α)) (h : r.Valid n) (hw : l.Whole (r.contents n))
    (hfits : Fits (r.room n) (us.map List.length)) :
    (us.flatten.foldl (push n) r).Valid n ∧ (l.offer us).Whole ((us.flatten.foldl (push n) r).contents n) := by
  induction us generalizing r l with
  | nil =>
    refine ⟨h, ?_⟩
    unfold UnitLog.offer
    rw [append_nil]
    exact hw
  | cons u us ih =>
    obtain ⟨hroom, hrest⟩ := hfits
    obtain ⟨hv, hr, hc⟩ := h.pushes u
    have hnext : (l.offer [u]).Whole ((u.foldl (push n) r).contents n) := by
      rw [hc]
      cases hroom with
      | inl hzero =>
        rw [hzero, take_zero, append_nil]
        exact hw.dropped u
      | inr hle =>
        rw [take_of_length_le hle]
        exact hw.kept u
    rw [flatten_cons, foldl_append]
    obtain ⟨hv', hw'⟩ := ih hv hnext (by rw [hr]; exact hrest)
    refine ⟨hv', ?_⟩
    have hoffer : l.offer (u :: us) = (l.offer [u]).offer us := by
      unfold UnitLog.offer
      rw [append_assoc]
      rfl
    rw [hoffer]
    exact hw'

end GapRing

end EdgeOS.Lib
