import EdgeOS.FailedWrites
import EdgeOS.UserCopy

namespace EdgeOS

open Lib BlockingCall

/-!
Calls of `do_sys_fd_read` and `do_sys_fd_write` that fail. A call that waits runs in several
stretches, and other processes change the object between them; its own changes are what it does in
its stretches.
-/

def Failed (r : Except Errno ℕ) : Prop := ∃ err, r = .error err

section Calls

variable {σ : Type} {nonblock : Bool}

/-! ## Reads -/

theorem ReadKind.same_refl (k : ReadKind σ) (x : k.Object) : k.Same x x := by
  cases k <;> rfl

theorem read_stretchClean (k : ReadKind σ) {buf : ReadBuf} (hgood : ¬ (buf.null = true ∨ buf.len = 0))
    (b : Bounce) (l : Unit) (interrupted : Bool) (x : k.Object) :
    (k.call nonblock buf b).StretchClean k.Same Failed (fun _ => True) l interrupted x ↔ k.Taken buf x := by
  obtain ⟨hnull, hlen⟩ := not_or.mp hgood
  rw [← k.stretch_clean b nonblock interrupted hlen]
  unfold BlockingCall.StretchClean ReadKind.call Failed
  dsimp only
  rw [if_neg hnull, if_neg hlen]
  constructor
  · intro h x' err heq
    exact (h x' _ heq ⟨err, rfl⟩).2
  · rintro h x' r heq ⟨err, rfl⟩
    exact ⟨trivial, h x' err heq⟩

theorem read_waits (k : ReadKind σ) {buf : ReadBuf} {b : Bounce} {l l' : Unit} {interrupted : Bool}
    {x x' : k.Object} (h : (k.call nonblock buf b).run l interrupted x = (x', .wait l')) : k.Same x x' := by
  unfold ReadKind.call at h
  dsimp only at h
  split at h
  · simp at h
  split at h
  · simp at h
  · exact k.stretch_waits h

theorem read_failsClean (k : ReadKind σ) (nonblock : Bool) (buf : ReadBuf) (b : Bounce)
    (looks : List (Bool × k.Object)) :
    (k.call nonblock buf b).FailsClean k.Same Failed looks ↔ buf.null = true ∨ buf.len = 0 ∨
        ∀ x ∈ (k.call nonblock buf b).reached () looks, k.Taken buf x.2.2 := by
  rw [← or_assoc]
  by_cases hgood : buf.null = true ∨ buf.len = 0
  · refine iff_of_true (failsClean_of_returns k.same_refl ?_ looks) (.inl hgood)
    intro l interrupted x
    unfold ReadKind.call
    dsimp only
    split
    · exact ⟨_, rfl⟩
    rename_i hnull
    rw [if_pos (hgood.resolve_left hnull)]
    exact ⟨_, rfl⟩
  · rw [or_iff_right hgood]
    refine (failsClean_iff trivial ?_ looks).trans
      (forall₂_congr fun x _ => read_stretchClean k hgood b x.1 x.2.1 x.2.2)
    exact fun l i s s' l' hw => iff_of_true trivial ⟨trivial, read_waits k hw⟩

/-! ## Writes -/

theorem WriteKind.same_refl (k : WriteKind σ) (x : k.Object) : k.Same x x := by
  cases k
  case pty => exact ⟨rfl, rfl⟩
  case file => exact ⟨rfl, rfl⟩
  case mouse => trivial
  all_goals rfl

theorem WriteKind.fresh_none (k : WriteKind σ) : k.Fresh none := by
  cases k
  case unix => rfl
  case inet => rfl
  all_goals trivial

theorem write_stretchClean (k : WriteKind σ) {buf : UserBuf} (hgood : ¬ (buf.null = true ∨ buf.data.length = 0))
    (off : Option ℕ) (interrupted : Bool) (x : k.Object) :
    (k.call nonblock buf).StretchClean k.Same Failed (fun off => k.Fresh off) off interrupted x ↔
      k.Uncut (k.buffer buf) nonblock interrupted off x := by
  obtain ⟨hnull, hlen⟩ := not_or.mp hgood
  rw [← k.stretch_clean hlen]
  unfold BlockingCall.StretchClean WriteKind.call Failed
  dsimp only
  rw [if_neg hnull, if_neg hlen]
  constructor
  · intro h x' err heq
    exact h x' _ heq ⟨err, rfl⟩
  · rintro h x' r heq ⟨err, rfl⟩
    exact h x' err heq

theorem write_waits (k : WriteKind σ) {buf : UserBuf} {off off' : Option ℕ} {interrupted : Bool}
    {x x' : k.Object} (h : (k.call nonblock buf).run off interrupted x = (x', .wait off')) :
    k.Fresh off' ↔ k.Fresh off ∧ k.Same x x' := by
  unfold WriteKind.call at h
  dsimp only at h
  split at h
  · simp at h
  split at h
  · simp at h
  · exact k.stretch_waits h

theorem write_failsClean (k : WriteKind σ) (nonblock : Bool) (buf : UserBuf) (looks : List (Bool × k.Object)) :
    (k.call nonblock buf).FailsClean k.Same Failed looks ↔ buf.null = true ∨ buf.data.length = 0 ∨
        ∀ x ∈ (k.call nonblock buf).reached none looks, k.Uncut (k.buffer buf) nonblock x.2.1 x.1 x.2.2 := by
  rw [← or_assoc]
  by_cases hgood : buf.null = true ∨ buf.data.length = 0
  · refine iff_of_true (failsClean_of_returns k.same_refl ?_ looks) (.inl hgood)
    intro l interrupted x
    unfold WriteKind.call
    dsimp only
    split
    · exact ⟨_, rfl⟩
    rename_i hnull
    rw [if_pos (hgood.resolve_left hnull)]
    exact ⟨_, rfl⟩
  · rw [or_iff_right hgood]
    refine (failsClean_iff k.fresh_none ?_ looks).trans
      (forall₂_congr fun x _ => write_stretchClean k hgood x.1 x.2.1 x.2.2)
    exact fun l i s s' l' hw => write_waits k hw

end Calls

/-! ## Failed transfers -/

/-- A call that fails has left its object as it was, in all its stretches, exactly if its buffer takes
what the reads find and no error comes after a byte was written. -/
theorem failed_transfers {σ : Type} :
    (∀ (k : ReadKind σ) (nonblock : Bool) (buf : ReadBuf) (b : Bounce) (looks : List (Bool × k.Object)),
      (k.call nonblock buf b).FailsClean k.Same Failed looks ↔ buf.null = true ∨ buf.len = 0 ∨
          ∀ x ∈ (k.call nonblock buf b).reached () looks, k.Taken buf x.2.2) ∧
    ∀ (k : WriteKind σ) (nonblock : Bool) (buf : UserBuf) (looks : List (Bool × k.Object)),
      (k.call nonblock buf).FailsClean k.Same Failed looks ↔ buf.null = true ∨ buf.data.length = 0 ∨
          ∀ x ∈ (k.call nonblock buf).reached none looks, k.Uncut (k.buffer buf) nonblock x.2.1 x.1 x.2.2 :=
  ⟨read_failsClean, write_failsClean⟩

def ReadBuf.user (addr : UInt64) (len : ℕ) : ReadBuf where
  null := addr = 0
  len := len
  copied off n := userRangeOk (addr + UInt64.ofNat off) (UInt64.ofNat n)

def onePipe : Pipe where
  used := true
  readers := 1
  writers := 1
  ring := (Lib.RingBuffer.empty 0).push edgePipeSize 65

/-- A read of one byte to an address past the end of the user's memory fails and takes the byte. -/
theorem badAddress_takes_byte :
    ¬ ((ReadKind.pipe : ReadKind Unit).call false (ReadBuf.user 0x40000000 1) ⟨fun _ => 0, fun _ => 0⟩).FailsClean
      (ReadKind.Same .pipe) Failed [(false, onePipe)] := by
  intro h
  have hsame := h (.error .efault) rfl ⟨_, rfl⟩ _ (List.mem_singleton_self _)
  have hlen := congrArg List.length hsame
  exact absurd hlen (by decide)

end EdgeOS
