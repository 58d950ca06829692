import Mathlib.Data.Nat.Basic
import Mathlib.Tactic.SplitIfs

namespace EdgeOS.Lib

/-!
A transfer in batches: calls on consecutive parts of a range, with a batch that is halved whenever a call
fails, and given up when a single unit fails.
-/

open List

/-- A call on `len` units from `pos` on. -/
structure Chunk where
  pos : ℕ
  len : ℕ
  ok : Bool
  deriving DecidableEq, Repr

/-- The calls for the units from `pos` to `count`, and whether all of them went through. -/
def batches (call : ℕ → ℕ → Bool) (count pos batch : ℕ) (hb : 0 < batch) : List Chunk × Bool :=
  if _ : pos < count then
    let len := min (count - pos) batch
    if call pos len then
      let rest := batches call count (pos + len) batch hb
      (⟨pos, len, true⟩ :: rest.1, rest.2)
    else if _ : len ≤ 1 then ([⟨pos, len, false⟩], false)
    else
      let rest := batches call count pos (len / 2) (by omega)
      (⟨pos, len, false⟩ :: rest.1, rest.2)
  else ([], true)
termination_by (count - pos, batch)

variable {call : ℕ → ℕ → Bool} {count : ℕ}

/-- What holds of the place and the batch holds at every call. -/
theorem batches_inv {I : ℕ → ℕ → Prop}
    (hok : ∀ pos batch, 0 < batch → I pos batch → pos < count → call pos (min (count - pos) batch) = true →
      I (pos + min (count - pos) batch) batch)
    (hfail : ∀ pos batch, 0 < batch → I pos batch → pos < count →
      call pos (min (count - pos) batch) = false → I pos (min (count - pos) batch / 2))
    (pos batch : ℕ) (hb : 0 < batch) (h : I pos batch) :
    ∀ ch ∈ (batches call count pos batch hb).1, ch.pos < count ∧ ch.ok = call ch.pos ch.len ∧
      ∃ b, 0 < b ∧ I ch.pos b ∧ ch.len = min (count - ch.pos) b := by
  fun_induction batches call count pos batch hb with
  | case1 pos batch hb hlt len hcall rest ih =>
    intro ch hch
    cases mem_cons.mp hch with
    | inl heq =>
      rw [heq]
      exact ⟨hlt, hcall.symm, batch, hb, h, rfl⟩
    | inr hmem => exact ih (hok pos batch hb h hlt hcall) ch hmem
  | case2 pos batch hb hlt len hcall hlen =>
    intro ch hch
    rw [mem_singleton.mp hch]
    exact ⟨hlt, (Bool.eq_false_iff.mpr hcall).symm, batch, hb, h, rfl⟩
  | case3 pos batch hb hlt len hcall hlen rest ih =>
    intro ch hch
    cases mem_cons.mp hch with
    | inl heq =>
      rw [heq]
      exact ⟨hlt, (Bool.eq_false_iff.mpr hcall).symm, batch, hb, h, rfl⟩
    | inr hmem => exact ih (hfail pos batch hb h hlt (Bool.eq_false_iff.mpr hcall)) ch hmem
  | case4 => exact fun ch hch => absurd hch not_mem_nil

/-- When all went through, every unit was in a call that did. -/
theorem batches_covers (pos batch : ℕ) (hb : 0 < batch) (h : (batches call count pos batch hb).2 = true)
    {i : ℕ} (hpos : pos ≤ i) (hi : i < count) :
    ∃ ch ∈ (batches call count pos batch hb).1, ch.ok = true ∧ ch.pos ≤ i ∧ i < ch.pos + ch.len := by
  fun_induction batches call count pos batch hb with
  | case1 pos batch hb hlt len hcall rest ih =>
    by_cases hin : i < pos + len
    · exact ⟨_, mem_cons_self, rfl, hpos, hin⟩
    · obtain ⟨ch, hch, hrest⟩ := ih h (by omega)
      exact ⟨ch, mem_cons_of_mem _ hch, hrest⟩
  | case2 => cases h
  | case3 pos batch hb hlt len hcall hlen rest ih =>
    obtain ⟨ch, hch, hrest⟩ := ih h hpos
    exact ⟨ch, mem_cons_of_mem _ hch, hrest⟩
  | case4 pos batch hb hlt => omega

/-- When one did not go through, it was a call on a single unit, and no call that went through has that unit. -/
theorem batches_fails (pos batch : ℕ) (hb : 0 < batch) (h : (batches call count pos batch hb).2 = false) :
    ∃ last ∈ (batches call count pos batch hb).1, last.ok = false ∧ last.len = 1 ∧ pos ≤ last.pos ∧
      last.pos < count ∧ ∀ ch ∈ (batches call count pos batch hb).1, ch.ok = true → ch.pos + ch.len ≤ last.pos := by
  fun_induction batches call count pos batch hb with
  | case1 pos batch hb hlt len hcall rest ih =>
    obtain ⟨last, hlast, hfail, hone, hpos, hend, hbefore⟩ := ih h
    refine ⟨last, mem_cons_of_mem _ hlast, hfail, hone, by omega, hend, fun ch hch hok => ?_⟩
    cases mem_cons.mp hch with
    | inl heq => exact heq ▸ hpos
    | inr hmem => exact hbefore ch hmem hok
  | case2 pos batch hb hlt len hcall hlen =>
    refine ⟨_, mem_singleton_self _, rfl, by dsimp only; omega, le_rfl, hlt, fun ch hch hok => ?_⟩
    rw [mem_singleton.mp hch] at hok
    cases hok
  | case3 pos batch hb hlt len hcall hlen rest ih =>
    obtain ⟨last, hlast, hfail, hone, hpos, hend, hbefore⟩ := ih h
    refine ⟨last, mem_cons_of_mem _ hlast, hfail, hone, hpos, hend, fun ch hch hok => ?_⟩
    cases mem_cons.mp hch with
    | inl heq =>
      rw [heq] at hok
      cases hok
    | inr hmem => exact hbefore ch hmem hok
  | case4 => cases h

/-- The calls that went through, on a state: if each does for its units what `unit` does one after the other, and what
the others leave makes no difference to the units from theirs on, so do all of them together. -/
theorem batches_state {σ : Type} (unit : σ → ℕ → σ) (run : σ → Chunk → σ)
    (hok : ∀ st pos len, pos < count → pos + len ≤ count →
      run st ⟨pos, len, true⟩ = (List.range' pos len).foldl unit st)
    (hfail : ∀ st pos len, pos < count → pos + len ≤ count →
      (List.range' pos (count - pos)).foldl unit (run st ⟨pos, len, false⟩) =
        (List.range' pos (count - pos)).foldl unit st)
    (pos batch : ℕ) (hb : 0 < batch) (h : (batches call count pos batch hb).2 = true) (st : σ) :
    (batches call count pos batch hb).1.foldl run st = (List.range' pos (count - pos)).foldl unit st := by
  fun_induction batches call count pos batch hb generalizing st with
  | case1 pos batch hb hlt len hcall rest ih =>
    have hsplit : List.range' pos (count - pos) =
        List.range' pos len ++ List.range' (pos + len) (count - (pos + len)) := by
      rw [show count - pos = len + (count - (pos + len)) by omega, ← List.range'_append_1]
    rw [foldl_cons, ih h, hok st pos len hlt (by omega), hsplit, foldl_append]
  | case2 => cases h
  | case3 pos batch hb hlt len hcall hlen rest ih =>
    rw [foldl_cons, ih h, hfail st pos len hlt (by omega)]
  | case4 pos batch hb hlt =>
    rw [show count - pos = 0 by omega]
    rfl

/-- With calls that never take more than one unit, a place is reached when every unit before it is taken. -/
theorem batches_reach (hsingle : ∀ pos len, 1 < len → call pos len = false) (pos batch : ℕ) (hb : 0 < batch)
    {p : ℕ} (hpos : pos ≤ p) (hp : p < count) (hbefore : ∀ q, pos ≤ q → q < p → call q 1 = true) :
    ∃ ch ∈ (batches call count pos batch hb).1, ch.pos = p ∧ ch.len = 1 := by
  fun_induction batches call count pos batch hb with
  | case1 pos batch hb hlt len hcall rest ih =>
    have hlen : len = 1 := by
      by_contra hne
      rw [hsingle pos len (by omega)] at hcall
      cases hcall
    by_cases heq : pos = p
    · exact ⟨_, mem_cons_self, heq, hlen⟩
    · obtain ⟨ch, hch, hrest⟩ := ih (by omega) fun q hq => hbefore q (by omega)
      exact ⟨ch, mem_cons_of_mem _ hch, hrest⟩
  | case2 pos batch hb hlt len hcall hlen =>
    have hone : len = 1 := by omega
    by_cases heq : pos = p
    · exact ⟨_, mem_cons_self, heq, hone⟩
    · exact absurd (hone ▸ hbefore pos le_rfl (by omega)) hcall
  | case3 pos batch hb hlt len hcall hlen rest ih =>
    obtain ⟨ch, hch, hrest⟩ := ih hpos hbefore
    exact ⟨ch, mem_cons_of_mem _ hch, hrest⟩
  | case4 pos batch hb hlt => omega

/-- When calls that end by `n` go through, every unit before `n` is in a call that does. -/
theorem batches_below {n : ℕ} (hok : ∀ pos len, pos + len ≤ n → call pos len = true) (pos batch : ℕ) (hb : 0 < batch)
    {i : ℕ} (hpos : pos ≤ i) (hi : i < count) (hin : i < n) :
    ∃ ch ∈ (batches call count pos batch hb).1, ch.ok = true ∧ ch.pos ≤ i ∧ i < ch.pos + ch.len := by
  fun_induction batches call count pos batch hb with
  | case1 pos batch hb hlt len hcall rest ih =>
    by_cases hthis : i < pos + len
    · exact ⟨_, mem_cons_self, rfl, hpos, hthis⟩
    · obtain ⟨ch, hch, hrest⟩ := ih (by omega)
      exact ⟨ch, mem_cons_of_mem _ hch, hrest⟩
  | case2 pos batch hb hlt len hcall hlen => exact absurd (hok pos len (by omega)) hcall
  | case3 pos batch hb hlt len hcall hlen rest ih =>
    obtain ⟨ch, hch, hrest⟩ := ih hpos
    exact ⟨ch, mem_cons_of_mem _ hch, hrest⟩
  | case4 pos batch hb hlt => omega

variable (call count)

theorem batches_head (pos batch : ℕ) (hb : 0 < batch) (hlt : pos < count) :
    ∃ ch ∈ (batches call count pos batch hb).1, ch.pos = pos ∧ ch.len = min (count - pos) batch := by
  rw [batches, dif_pos hlt]
  dsimp only
  split_ifs <;> exact ⟨_, mem_cons_self, rfl, rfl⟩

theorem batches_second (pos batch : ℕ) (hb : 0 < batch) (hlt : pos < count)
    (hcall : call pos (min (count - pos) batch) = false) (hlen : 1 < min (count - pos) batch) :
    ∃ ch ∈ (batches call count pos batch hb).1,
      ch.pos = pos ∧ ch.len = min (count - pos) (min (count - pos) batch / 2) := by
  rw [batches, dif_pos hlt]
  dsimp only
  rw [hcall, if_neg Bool.false_ne_true, dif_neg (by omega)]
  obtain ⟨ch, hch, hrest⟩ := batches_head call count pos (min (count - pos) batch / 2) (by omega) hlt
  exact ⟨ch, mem_cons_of_mem _ hch, hrest⟩

end EdgeOS.Lib
