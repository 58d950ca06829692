import EdgeOS.Descriptors

namespace EdgeOS

open Lib Function List

/-!
The transfer loops of `do_sys_fd_read` and `do_sys_fd_write` on rings: bytes leave a ring
through a bounce buffer on the kernel stack that is copied to the user whenever it is full and
after the last byte.
-/

/-- `sizeof(chunk)`, `EDGE_PIPE_SIZE`. -/
abbrev chunkSize : ℕ := 4096
abbrev edgePipeSize : ℕ := 4096

/-- The bounce buffer and the user's memory from `buf_u` on. -/
structure Bounce where
  chunk : ℕ → UInt8
  user : ℕ → UInt8

/-- `copy_to_user(buf_u + start, chunk, sz)` on a valid buffer. -/
def Bounce.copyToUser (b : Bounce) (start sz : ℕ) : Bounce :=
  { b with user := fun a => if start ≤ a ∧ a < start + sz then b.chunk (a - start) else b.user a }

/-- One round of the reading loop: byte `i` of `n`. -/
def drainByte (size n : ℕ) (st : RingBuffer UInt8 × Bounce) (i : ℕ) : RingBuffer UInt8 × Bounce :=
  let b := { st.2 with chunk := Function.update st.2.chunk (i % chunkSize) (st.1.buf st.1.rpos) }
  (st.1.pop size, if i % chunkSize = chunkSize - 1 ∨ i + 1 = n then
      b.copyToUser (i - i % chunkSize) (i % chunkSize + 1)
    else b)

/-- The reading loop for `n` bytes. -/
def drainRing (size n : ℕ) (r : RingBuffer UInt8) (b : Bounce) : RingBuffer UInt8 × Bounce :=
  (List.range n).foldl (drainByte size n) (r, b)

/-- Where the reading loop stands before byte `i`: what lies below the last full chunk is with
the user, the rest is in the bounce buffer. -/
structure Drained (size n : ℕ) (r : RingBuffer UInt8) (i : ℕ) (st : RingBuffer UInt8 × Bounce) : Prop where
  valid : st.1.Valid size
  rest : st.1.contents size = (r.contents size).drop i
  copied : ∀ a, a < i - i % chunkSize → (r.contents size)[a]? = some (st.2.user a)
  held : ∀ j, j < i % chunkSize → (r.contents size)[i - i % chunkSize + j]? = some (st.2.chunk j)
  last : i = n → ∀ a, a < n → (r.contents size)[a]? = some (st.2.user a)

section Drain

variable {size n i : ℕ} {r : RingBuffer UInt8} {st : RingBuffer UInt8 × Bounce}

theorem drained_init (h : r.Valid size) (b : Bounce) : Drained size n r 0 (r, b) :=
  ⟨h, rfl, by simp, by simp, by intro h0 a ha; omega⟩

theorem Drained.head (h : Drained size n r i st) (hi : i < r.count) :
    (r.contents size)[i]? = some (st.1.buf st.1.rpos) ∧ 0 < st.1.count := by
  have hlen : st.1.count = r.count - i := by
    have := congrArg List.length h.rest
    simpa using this
  have hpos : 0 < st.1.count := by omega
  refine ⟨?_, hpos⟩
  have hhead := congrArg head? (h.valid.contents_pop hpos)
  rw [h.rest, head?_drop, head?_cons] at hhead
  exact hhead

theorem Drained.held_succ (h : Drained size n r i st) (hi : i < r.count) {j : ℕ} (hj : j ≤ i % chunkSize) :
    (r.contents size)[i - i % chunkSize + j]? = some (update st.2.chunk (i % chunkSize) (st.1.buf st.1.rpos) j) := by
  by_cases heq : j = i % chunkSize
  · have hle : i % chunkSize ≤ i := Nat.mod_le _ _
    rw [heq, update_self, Nat.sub_add_cancel hle]
    exact (h.head hi).1
  · rw [update_of_ne heq]
    exact h.held j (by omega)

theorem Drained.copied_succ (h : Drained size n r i st) (hi : i < r.count) {a : ℕ} (ha : a ≤ i) :
    (r.contents size)[a]? = some ((Bounce.copyToUser
      { st.2 with chunk := update st.2.chunk (i % chunkSize) (st.1.buf st.1.rpos) }
      (i - i % chunkSize) (i % chunkSize + 1)).user a) := by
  have hle : i % chunkSize ≤ i := Nat.mod_le _ _
  unfold Bounce.copyToUser
  dsimp only
  split
  · rename_i hin
    rw [← h.held_succ hi (by omega)]
    congr 1
    omega
  · rename_i hout
    exact h.copied a (by omega)

/-- Either the chunk is full and the next one starts, or it has room for another byte. -/
theorem chunk_next (i : ℕ) : i % chunkSize = chunkSize - 1 ∧ (i + 1) % chunkSize = 0 ∨
      i % chunkSize < chunkSize - 1 ∧ (i + 1) % chunkSize = i % chunkSize + 1 := by
  change i % 4096 = 4096 - 1 ∧ (i + 1) % 4096 = 0 ∨ i % 4096 < 4096 - 1 ∧ (i + 1) % 4096 = i % 4096 + 1
  omega

theorem Drained.step (h : Drained size n r i st) (hi : i < n) (hn : n ≤ r.count) :
    Drained size n r (i + 1) (drainByte size n st i) := by
  have hic : i < r.count := by omega
  obtain ⟨-, hpos⟩ := h.head hic
  have hle : i % chunkSize ≤ i := Nat.mod_le _ _
  have hmod : i % chunkSize < chunkSize := Nat.mod_lt _ (by decide)
  have hnext := chunk_next i
  constructor
  · exact h.valid.pop hpos
  · have hpop := congrArg tail (h.valid.contents_pop hpos)
    rw [h.rest, tail_drop, tail_cons] at hpop
    exact hpop.symm
  · intro a ha
    unfold drainByte
    dsimp only
    split
    · exact h.copied_succ hic (by omega)
    · rename_i hnot
      exact h.copied a (by omega)
  · intro j hj
    rcases hnext with ⟨-, hz⟩ | ⟨-, hs⟩
    · omega
    have hheld := h.held_succ hic (j := j) (by omega)
    have hstart : i + 1 - (i + 1) % chunkSize = i - i % chunkSize := by omega
    rw [hstart, hheld]
    unfold drainByte
    dsimp only
    split <;> rfl
  · intro hlast a ha
    unfold drainByte
    dsimp only
    rw [if_pos (.inr hlast)]
    exact h.copied_succ hic (by omega)

/-- The reading loop hands the oldest `n` bytes to the user and takes them off the ring. -/
theorem drainRing_spec (h : r.Valid size) (hn : n ≤ r.count) (b : Bounce) : (drainRing size n r b).1.Valid size ∧
      (drainRing size n r b).1.contents size = (r.contents size).drop n ∧
      (List.range n).map (drainRing size n r b).2.user = (r.contents size).take n := by
  have hall : ∀ m, m ≤ n → Drained size n r m ((List.range m).foldl (drainByte size n) (r, b)) := by
    intro m
    induction m with
    | zero => exact fun _ => drained_init h b
    | succ m ih =>
      intro hm
      rw [range_succ, foldl_append]
      exact (ih (by omega)).step (by omega) hn
  have hd := hall n le_rfl
  refine ⟨hd.valid, hd.rest, ?_⟩
  apply ext_getElem?
  intro a
  by_cases ha : a < n
  · rw [getElem?_map, getElem?_range ha, getElem?_take_of_lt ha, hd.last rfl a ha]
    rfl
  · rw [getElem?_eq_none (by simp; omega), getElem?_eq_none (by simp; omega)]

end Drain

/-! ## One attempt of a call -/

/-- A call returns, or it waits and looks again later. -/
inductive Outcome (α : Type)
  | ret (r : Except Errno α)
  | wait

namespace Outcome

variable {α : Type}

def waits : Outcome α → Bool
  | .ret _ => false
  | .wait => true

/-- What a call has moved; `none` stands for nothing. -/
def value (none : α) : Outcome α → α
  | .ret (.ok a) => a
  | .ret (.error _) => none
  | .wait => none

end Outcome

/-- `do_sys_fd_read` on a pipe from its loop on; the bytes are what the user's buffer holds up
to the value returned. -/
def pipeRead (p : Pipe) (nonblock interrupted : Bool) (len : ℕ) (b : Bounce) : Pipe × Outcome (List UInt8) :=
  if p.ring.count = 0 then
    if p.writers = 0 then (p, .ret (.ok []))
    else if nonblock then (p, .ret (.error .eagain))
    else if interrupted then (p, .ret (.error .eintr))
    else (p, .wait)
  else
    let n := min len p.ring.count
    let st := drainRing edgePipeSize n p.ring b
    ({ p with ring := st.1 }, .ret (.ok ((List.range n).map st.2.user)))

/-- `do_sys_fd_write` on a pipe from its loop on. -/
def pipeWrite (p : Pipe) (nonblock interrupted : Bool) (data : List UInt8) : Pipe × Outcome ℕ :=
  if p.ring.count ≥ edgePipeSize then
    if p.readers = 0 then (p, .ret (.error .epipe))
    else if nonblock then (p, .ret (.error .eagain))
    else if interrupted then (p, .ret (.error .eintr))
    else (p, .wait)
  else
    let n := min data.length (edgePipeSize - p.ring.count)
    ({ p with ring := (data.take n).foldl (RingBuffer.push edgePipeSize) p.ring }, .ret (.ok n))

/-- A read takes what it returns off the front of the ring. -/
theorem pipeRead_spec {p : Pipe} (h : p.ring.Valid edgePipeSize) (nonblock interrupted : Bool) (len : ℕ) (b : Bounce) :
    (pipeRead p nonblock interrupted len b).1.ring.Valid edgePipeSize ∧
      p.ring.contents edgePipeSize = (pipeRead p nonblock interrupted len b).2.value [] ++
        (pipeRead p nonblock interrupted len b).1.ring.contents edgePipeSize := by
  unfold pipeRead
  split
  · split
    · exact ⟨h, rfl⟩
    split
    · exact ⟨h, rfl⟩
    split <;> exact ⟨h, rfl⟩
  · obtain ⟨hv, hrest, hout⟩ := drainRing_spec h (Nat.min_le_right len p.ring.count) b
    refine ⟨hv, ?_⟩
    dsimp only [Outcome.value]
    rw [hout, hrest, take_append_drop]

/-- A write appends as many of its first bytes as it returns. -/
theorem pipeWrite_spec {p : Pipe} (h : p.ring.Valid edgePipeSize) (nonblock interrupted : Bool) (data : List UInt8) :
    (pipeWrite p nonblock interrupted data).1.ring.Valid edgePipeSize ∧
      (pipeWrite p nonblock interrupted data).1.ring.contents edgePipeSize = p.ring.contents edgePipeSize ++
          data.take ((pipeWrite p nonblock interrupted data).2.value 0) := by
  have hnothing : p.ring.contents edgePipeSize = p.ring.contents edgePipeSize ++ data.take 0 := by
    rw [take_zero, append_nil]
  unfold pipeWrite
  split
  · split
    · exact ⟨h, hnothing⟩
    split
    · exact ⟨h, hnothing⟩
    split <;> exact ⟨h, hnothing⟩
  · have hfit : p.ring.count + (data.take (min data.length (edgePipeSize - p.ring.count))).length ≤ edgePipeSize := by
      rw [length_take]
      omega
    exact h.pushes _ hfit

/-- A read of at least one byte returns 0 only at the end of an empty pipe. -/
theorem pipeRead_zero {p : Pipe} {nonblock interrupted : Bool} {len : ℕ} {b : Bounce}
    (hlen : 0 < len) (h : (pipeRead p nonblock interrupted len b).2 = .ret (.ok [])) :
    p.ring.count = 0 ∧ p.writers = 0 := by
  unfold pipeRead at h
  split at h
  · rename_i hc
    split at h
    · rename_i hw
      exact ⟨hc, hw⟩
    split at h
    · simp at h
    split at h <;> simp at h
  · rename_i hc
    have hz : min len p.ring.count = 0 := by simpa using h
    omega

/-! A transfer leaves the pipe in use. -/
theorem pipeRead_used (p : Pipe) (nonblock interrupted : Bool) (len : ℕ) (b : Bounce) :
    (pipeRead p nonblock interrupted len b).1.used = p.used := by
  unfold pipeRead
  split
  · split
    · rfl
    split
    · rfl
    split <;> rfl
  · rfl

theorem pipeWrite_used (p : Pipe) (nonblock interrupted : Bool) (data : List UInt8) :
    (pipeWrite p nonblock interrupted data).1.used = p.used := by
  unfold pipeWrite
  split
  · split
    · rfl
    split
    · rfl
    split <;> rfl
  · rfl

end EdgeOS
