import Mathlib.Algebra.Order.Ring.Int
import Mathlib.Logic.Function.Basic

namespace EdgeOS.Lib

/-!
Process groups and sessions. A table gives each of its places a number, a group and a session; a
place that is not in use has zeros. A task forks, moves into a group, leaves for a session of its own,
and its place is wiped.
-/

open Function

/-- The numbers, groups and sessions of the tasks, and the next number. -/
structure Jobs (ι : Type*) where
  pid : ι → ℤ
  pgid : ι → ℤ
  sid : ι → ℤ
  next : ℤ

namespace Jobs

variable {ι : Type*} [DecidableEq ι] (J : Jobs ι)

/-- The place `c` is wiped. -/
def wipe (c : ι) : Jobs ι where
  pid := Function.update J.pid c 0
  pgid := Function.update J.pgid c 0
  sid := Function.update J.sid c 0
  next := J.next

/-- `c` becomes a child of `p`. -/
def beget (p c : ι) : Jobs ι where
  pid := Function.update J.pid c J.next
  pgid := Function.update J.pgid c (J.pgid p)
  sid := Function.update J.sid c (J.sid p)
  next := J.next + 1

/-- `t` moves into the group `g`. -/
def regroup (t : ι) (g : ℤ) : Jobs ι := { J with pgid := Function.update J.pgid t g }

/-- `t` leaves for a session and a group of its own. -/
def secede (t : ι) : Jobs ι :=
  { J with
    pgid := Function.update J.pgid t (J.pid t)
    sid := Function.update J.sid t (J.pid t) }

/-- What job control relies on. `group` speaks of the task a group is named after, whether or not it is
in the group; numbers from `next` on have not been given yet. -/
structure Orderly : Prop where
  next : 0 < J.next
  below : ∀ i, J.pid i < J.next ∧ J.pgid i < J.next ∧ J.sid i < J.next
  blank : ∀ i, J.pid i = 0 ∨ J.pgid i = 0 → J.sid i = 0
  distinct : ∀ i j, J.pid i ≠ 0 → J.pid i = J.pid j → i = j
  session : ∀ i j, J.pgid i = J.pgid j → J.sid i = J.sid j
  leader : ∀ i, J.sid i = J.pid i → J.pgid i = J.pid i
  group : ∀ i j, J.pid i = J.pgid j → J.sid i = J.sid j

variable {J} {p c t l : ι} {g : ℤ}

omit [DecidableEq ι] in
theorem Orderly.skip (h : J.Orderly) {n : ℤ} (hn : J.next ≤ n) : ({ J with next := n } : Jobs ι).Orderly := by
  refine ⟨lt_of_lt_of_le h.next hn, fun i => ?_, h.blank, h.distinct, h.session, h.leader, h.group⟩
  have := h.below i
  dsimp only
  omega

theorem Orderly.wipe (h : J.Orderly) (c : ι) : (J.wipe c).Orderly := by
  have hpos := h.next
  refine ⟨hpos, fun i => ?_, fun i => ?_, fun i j => ?_, fun i j => ?_, fun i => ?_, fun i j => ?_⟩ <;>
    simp only [Jobs.wipe, update_apply]
  · split_ifs with hi
    · exact ⟨hpos, hpos, hpos⟩
    · exact h.below i
  · split_ifs with hi
    · exact fun _ => rfl
    · exact h.blank i
  · split_ifs with hi hj hj
    · exact fun h0 => absurd rfl h0
    · exact fun h0 => absurd rfl h0
    · exact fun h0 heq => absurd heq h0
    · exact h.distinct i j
  · split_ifs with hi hj hj
    · exact fun _ => rfl
    · exact fun heq => (h.blank j (.inr heq.symm)).symm
    · exact fun heq => h.blank i (.inr heq)
    · exact h.session i j
  · split_ifs with hi
    · exact fun _ => rfl
    · exact h.leader i
  · split_ifs with hi hj hj
    · exact fun _ => rfl
    · exact fun heq => (h.blank j (.inr heq.symm)).symm
    · exact fun heq => h.blank i (.inl heq)
    · exact h.group i j

theorem Orderly.beget (h : J.Orderly) (p c : ι) : (J.beget p c).Orderly := by
  have hpos := h.next
  have hp := h.below p
  refine ⟨?_, fun i => ?_, fun i => ?_, fun i j => ?_, fun i j => ?_, fun i => ?_, fun i j => ?_⟩ <;>
    simp only [Jobs.beget, update_apply]
  · omega
  · have hi := h.below i
    split_ifs <;> omega
  · split_ifs with hi
    · rintro (h0 | h0)
      · omega
      · exact h.blank p (.inr h0)
    · exact h.blank i
  · have hi := h.below i
    have hj := h.below j
    split_ifs with hic hjc hjc
    · exact fun _ _ => hic.trans hjc.symm
    · intro _ heq
      omega
    · intro _ heq
      omega
    · exact h.distinct i j
  · split_ifs with hi hj hj
    · exact fun _ => rfl
    · exact h.session p j
    · exact h.session i p
    · exact h.session i j
  · split_ifs with hi
    · intro heq
      omega
    · exact h.leader i
  · have hj := h.below j
    split_ifs with hic hjc hjc
    · intro heq
      omega
    · intro heq
      omega
    · exact h.group i p
    · exact h.group i j

/-- A task moves into a group that is named after a task of its session. A session leader stays in its
own. -/
theorem Orderly.regroup (h : J.Orderly) (hl : J.pid l = g) (hsid : J.sid l = J.sid t)
    (hlead : J.sid t = J.pid t → g = J.pid t) : (J.regroup t g).Orderly := by
  subst hl
  have hlb := h.below l
  refine ⟨h.next, fun i => ?_, fun i => ?_, h.distinct, fun i j => ?_, fun i => ?_, fun i j => ?_⟩ <;>
    simp only [Jobs.regroup, update_apply]
  · have hi := h.below i
    split_ifs <;> omega
  · split_ifs with hi
    · subst hi
      rintro (h0 | h0)
      · exact h.blank i (.inl h0)
      · rw [← hsid]
        exact h.blank l (.inl h0)
    · exact h.blank i
  · split_ifs with hi hj hj
    · exact fun _ => by rw [hi, hj]
    · intro heq
      rw [hi, ← hsid]
      exact h.group l j heq
    · intro heq
      rw [hj, ← hsid]
      exact (h.group l i heq.symm).symm
    · exact h.session i j
  · split_ifs with hi
    · subst hi
      exact hlead
    · exact h.leader i
  · split_ifs with hj
    · intro heq
      rw [hj, ← hsid]
      -- Only one place has a number, unless it is not in use.
      by_cases h0 : J.pid i = 0
      · rw [h.blank i (.inl h0), h.blank l (.inl (by omega))]
      · rw [h.distinct i l h0 heq]
    · exact h.group i j

/-- A task leaves for a session of its own, and nobody else is in a group of its number. -/
theorem Orderly.secede (h : J.Orderly) (halone : ∀ j, j ≠ t → J.pgid j ≠ J.pid t) : (J.secede t).Orderly := by
  refine ⟨h.next, fun i => ?_, fun i => ?_, h.distinct, fun i j => ?_, fun i => ?_, fun i j => ?_⟩ <;>
    simp only [Jobs.secede, update_apply]
  · have hi := h.below i
    have ht := h.below t
    split_ifs <;> omega
  · split_ifs with hi
    · subst hi
      simp
    · exact h.blank i
  · split_ifs with hi hj hj
    · exact fun _ => rfl
    · exact fun heq => absurd heq.symm (halone j hj)
    · exact fun heq => absurd heq (halone i hi)
    · exact h.session i j
  · split_ifs with hi
    · exact fun _ => by rw [hi]
    · exact h.leader i
  · split_ifs with hj hi hi
    · exact fun _ => rfl
    · intro heq
      by_cases h0 : J.pid i = 0
      · rw [h.blank i (.inl h0), ← heq, h0]
      · exact absurd (h.distinct i t h0 heq) hi
    · intro heq
      rw [hi] at heq
      exact absurd heq.symm (halone j hj)
    · exact h.group i j

end Jobs

end EdgeOS.Lib
