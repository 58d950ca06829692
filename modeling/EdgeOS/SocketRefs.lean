import EdgeOS.KernelObjects
import EdgeOS.Lib.Counting

namespace EdgeOS

open Lib Function List Objects Socket

/-!
References to sockets. `A i` is the number of holders of socket `i` beside the accept
queues: the descriptors that name it and the references a call has in hand.
-/

/-- One more at `i`. -/
def oneAt (i : ℕ) : ℕ → ℕ := fun j => if j = i then 1 else 0

theorem add_oneAt_of_ne (A : ℕ → ℕ) {i j : ℕ} (h : j ≠ i) : (A + oneAt i) j = A j := by
  rw [Pi.add_apply, oneAt, if_neg h, Nat.add_zero]

theorem add_oneAt_self (A : ℕ → ℕ) (i : ℕ) : (A + oneAt i) i = A i + 1 := by
  rw [Pi.add_apply, oneAt, if_pos rfl]

/-- How often socket `i` waits in an accept queue. -/
def pendingCount (t : ℕ → Socket) (i : ℕ) : ℕ :=
  ∑ l ∈ Finset.range edgeMaxSockets, (t l).pending.count i

/-- Socket `i` has `a` holders and `n` places in accept queues. A queued socket has no other
holder and does not listen, and only listeners have queues. -/
structure Socket.Holds (x : Socket) (i a n : ℕ) : Prop where
  used : x.used = true → x.refs = a + n ∧ 0 < x.refs ∧ i < edgeMaxSockets
  free : x.used = false → a = 0 ∧ n = 0 ∧ x.listening = false
  quiet : x.listening = false → x.pending = []
  queued : 0 < n → x.refs = 1 ∧ x.listening = false
  short : x.pending.length ≤ edgeSockAcceptq

/-- Every socket has the references its holders and the queues account for. -/
def SocketInv (A : ℕ → ℕ) (t : ℕ → Socket) : Prop :=
  ∀ i, (t i).Holds i (A i) (pendingCount t i)

def Socket.core (x : Socket) : Bool × ℕ × Bool × List ℕ :=
  (x.used, x.refs, x.listening, x.pending)

theorem Socket.core_eq {x y : Socket} (h : x.core = y.core) :
    x.used = y.used ∧ x.refs = y.refs ∧ x.listening = y.listening ∧ x.pending = y.pending := by
  simpa [core] using h

theorem Socket.Holds.congr {x y : Socket} {i a n : ℕ} (h : x.Holds i a n) (hc : y.core = x.core) : y.Holds i a n := by
  obtain ⟨hu, hr, hl, hp⟩ := core_eq hc
  constructor
  · rw [hu, hr]
    exact h.used
  · rw [hu, hl]
    exact h.free
  · rw [hl, hp]
    exact h.quiet
  · rw [hr, hl]
    exact h.queued
  · rw [hp]
    exact h.short

/-- The queues may change as long as holders and places together do not. -/
theorem Socket.Holds.move {x y : Socket} {i a n a' n' : ℕ} (h : x.Holds i a n)
    (hu : y.used = x.used) (hr : y.refs = x.refs) (hl : y.listening = x.listening)
    (hsum : a' + n' = a + n) (hqueued : 0 < n' → x.refs = 1 ∧ x.listening = false)
    (hquiet : y.listening = false → y.pending = []) (hshort : y.pending.length ≤ edgeSockAcceptq) :
    y.Holds i a' n' := by
  refine ⟨fun h1 => ?_, fun h0 => ?_, hquiet, ?_, hshort⟩
  · rw [hr, hsum]
    exact h.used (hu ▸ h1)
  · obtain ⟨ha, hn, hf⟩ := h.free (hu ▸ h0)
    exact ⟨by omega, by omega, hl ▸ hf⟩
  · rw [hr, hl]
    exact hqueued

section PendingCount

variable {t t' : ℕ → Socket}

theorem pendingCount_congr (h : ∀ l, (t' l).pending = (t l).pending) (i : ℕ) :
    pendingCount t' i = pendingCount t i := by
  unfold pendingCount
  refine Finset.sum_congr rfl fun l _ => ?_
  rw [h l]

theorem pendingCount_write {l : ℕ} {x : Socket} (h : x.pending = (t l).pending) (i : ℕ) :
    pendingCount (update t l x) i = pendingCount t i := by
  unfold pendingCount
  exact sum_write_eq _ t l x (fun y => y.pending.count i) (by rw [h])

/-- A socket that joins the queue of `l` has one more place. -/
theorem pendingCount_enqueue {l : ℕ} (sid : ℕ) {x : Socket} (hl : l < edgeMaxSockets)
    (hx : x.pending.Perm (sid :: (t l).pending)) (i : ℕ) :
    pendingCount (update t l x) i = pendingCount t i + oneAt sid i := by
  have hsum := sum_write_add _ t (Finset.mem_range.mpr hl) x fun y => y.pending.count i
  have hcount : x.pending.count i = (t l).pending.count i + oneAt sid i := by
    rw [hx.count_eq, count_cons, oneAt]
    by_cases h : sid = i
    · simp [h]
    · simp [h, Ne.symm h]
  unfold pendingCount
  omega

end PendingCount

namespace SocketInv

variable {A A' : ℕ → ℕ} {t t' : ℕ → Socket} {i : ℕ}

theorem congr (h : SocketInv A t) (hc : ∀ i, (t' i).core = (t i).core) : SocketInv A t' := by
  intro i
  rw [pendingCount_congr (fun l => (core_eq (hc l)).2.2.2)]
  exact (h i).congr (hc i)

theorem write (h : SocketInv A t) {x : Socket} (hp : x.pending = (t i).pending)
    (hx : x.Holds i (A' i) (pendingCount t i)) (hA : ∀ j, j ≠ i → A' j = A j) :
    SocketInv A' (update t i x) := by
  intro j
  rw [pendingCount_write hp]
  refine forall_write (P := fun j (y : Socket) => y.Holds j (A' j) (pendingCount t j))
    (fun j hj => ?_) hx j
  rw [hA j hj]
  exact h j

theorem holder_used (h : SocketInv A t) (hA : 0 < A i) : (t i).used = true ∧ i < edgeMaxSockets := by
  cases hu : (t i).used
  · have := (h i).free hu
    omega
  · exact ⟨rfl, ((h i).used hu).2.2⟩

/-- A queued socket is in use, nobody holds it, and it waits in one place. -/
theorem queued_alone (h : SocketInv A t) (hn : 0 < pendingCount t i) :
    (t i).used = true ∧ A i = 0 ∧ pendingCount t i = 1 ∧ (t i).listening = false := by
  obtain ⟨hr, hl⟩ := (h i).queued hn
  cases hu : (t i).used
  · have := (h i).free hu
    omega
  · have := (h i).used hu
    exact ⟨rfl, by omega, by omega, hl⟩

/-- A free slot is claimed for a socket with one reference. -/
theorem claim (h : SocketInv A t) (hi : i < edgeMaxSockets) (hfree : (t i).used = false)
    {x : Socket} (hx : x.core = (true, 1, false, [])) :
    SocketInv (A + oneAt i) (update t i x) := by
  obtain ⟨hu, hr, hl, hp⟩ : x.used = true ∧ x.refs = 1 ∧ x.listening = false ∧ x.pending = [] := by
    simpa [core] using hx
  obtain ⟨ha, hn, hlt⟩ := (h i).free hfree
  refine h.write (by rw [hp, (h i).quiet hlt]) ?_ fun j hj => add_oneAt_of_ne _ hj
  rw [hn, add_oneAt_self, ha]
  exact ⟨fun _ => ⟨by omega, by omega, hi⟩, fun hf => by simp [hu] at hf, fun _ => hp, fun h0 => by omega, by simp [hp]⟩

/-- The last reference is gone and the queue is empty: the record is cleared. -/
theorem clear (h : SocketInv (A + oneAt i) t) (hr : (t i).refs ≤ 1)
    (hp : (t i).pending = []) : SocketInv A (update t i {}) := by
  obtain ⟨hu, hi⟩ := h.holder_used (i := i) (by rw [add_oneAt_self]; omega)
  have hcount := (h i).used hu
  rw [add_oneAt_self] at hcount
  refine h.write hp.symm ?_ fun j hj => (add_oneAt_of_ne _ hj).symm
  exact ⟨fun hf => by simp at hf, fun _ => ⟨by omega, by omega, rfl⟩, fun _ => rfl, fun h0 => by omega, by simp⟩

theorem unref (h : SocketInv (A + oneAt i) t) (hr : (t i).refs > 1) :
    SocketInv A (update t i { t i with refs := (t i).refs - 1 }) := by
  obtain ⟨hu, hi⟩ := h.holder_used (i := i) (by rw [add_oneAt_self]; omega)
  have hcount := (h i).used hu
  rw [add_oneAt_self] at hcount
  refine h.write rfl ?_ fun j hj => (add_oneAt_of_ne _ hj).symm
  refine ⟨fun _ => ?_, fun hf => ?_, (h i).quiet, fun hn => ?_, (h i).short⟩
  · dsimp only
    omega
  · dsimp only at hf
    rw [hu] at hf
    simp at hf
  · have := (h i).queued hn
    omega

theorem listener_used (h : SocketInv A t) (hl : (t i).listening = true) : (t i).used = true ∧ i < edgeMaxSockets := by
  cases hu : (t i).used
  · have := ((h i).free hu).2.2
    rw [hl] at this
    simp at this
  · exact ⟨rfl, ((h i).used hu).2.2⟩

/-- Rewriting the queue of a listener, when holders and places together stay as they are. -/
theorem requeue (h : SocketInv A t) {l : ℕ} {q : List ℕ} (hl : (t l).listening = true) (hq : q.length ≤ edgeSockAcceptq)
    (hsum : ∀ j, A' j + pendingCount (update t l { t l with pending := q }) j = A j + pendingCount t j)
    (hqueued : ∀ j, 0 < pendingCount (update t l { t l with pending := q }) j →
      (t j).refs = 1 ∧ (t j).listening = false) :
    SocketInv A' (update t l { t l with pending := q }) := by
  intro j
  by_cases hj : j = l
  · subst hj
    rw [update_self]
    refine (h j).move rfl rfl rfl (hsum j) (hqueued j) (fun hf => ?_) hq
    dsimp only at hf
    rw [hl] at hf
    simp at hf
  · rw [update_of_ne hj]
    exact (h j).move rfl rfl rfl (hsum j) (hqueued j) (h j).quiet (h j).short

/-- A held socket with no other reference is appended to the queue of a listener. -/
theorem enqueue (h : SocketInv (A + oneAt i) t) {l : ℕ} (hr : (t i).refs = 1)
    (hli : (t i).listening = false) (hl : (t l).listening = true)
    (hroom : (t l).pending.length < edgeSockAcceptq) :
    SocketInv A (update t l { t l with pending := (t l).pending ++ [i] }) := by
  obtain ⟨-, hlt⟩ := h.listener_used hl
  have hcount := pendingCount_enqueue (t := t) (x := { t l with pending := (t l).pending ++ [i] })
    i hlt perm_append_comm
  refine h.requeue hl ?_ (fun j => ?_) fun j hj => ?_
  · rw [length_append, length_singleton]
    omega
  · rw [hcount, Pi.add_apply]
    omega
  · by_cases hji : j = i
    · rw [hji]
      exact ⟨hr, hli⟩
    · rw [hcount, show oneAt i j = 0 from if_neg hji, Nat.add_zero] at hj
      exact (h j).queued hj

/-- The oldest entry leaves the queue of a listener and is held. -/
theorem dequeue (h : SocketInv A t) {l sid : ℕ} {rest : List ℕ} (hp : (t l).pending = sid :: rest) :
    SocketInv (A + oneAt sid) (update t l { t l with pending := rest }) := by
  have hl : (t l).listening = true := by
    by_contra hf
    rw [(h l).quiet (by simpa using hf)] at hp
    simp at hp
  obtain ⟨-, hlt⟩ := h.listener_used hl
  have hcount := pendingCount_enqueue (t := update t l { t l with pending := rest })
    (x := t l) sid hlt (by rw [hp, update_self])
  rw [update_idem, update_eq_self] at hcount
  refine h.requeue hl ?_ (fun j => ?_) fun j hj => ?_
  · have := (h l).short
    rw [hp, length_cons] at this
    omega
  · rw [hcount, Pi.add_apply]
    omega
  · apply (h j).queued
    rw [hcount]
    omega

end SocketInv

/-! ## Operations on the table -/

def Objects.OnlySockets (o o' : Objects) : Prop :=
  o'.pipes = o.pipes ∧ o'.ptys = o.ptys ∧ o'.special = o.special

theorem Objects.OnlySockets.refl (o : Objects) : o.OnlySockets o := ⟨rfl, rfl, rfl⟩

theorem Objects.OnlySockets.trans {o o' o'' : Objects} (h : o.OnlySockets o')
    (h' : o'.OnlySockets o'') : o.OnlySockets o'' :=
  ⟨h'.1.trans h.1, h'.2.1.trans h.2.1, h'.2.2.trans h.2.2⟩

theorem Objects.onlySockets_setSocket (o : Objects) (i : ℕ) (x : Socket) :
    o.OnlySockets (o.setSocket i x) := ⟨rfl, rfl, rfl⟩

theorem unixPeerClosed_core (o : Objects) (i j : ℕ) : ((unixPeerClosed o i).sockets j).core = (o.sockets j).core := by
  unfold unixPeerClosed
  split_ifs
  · split
    · split_ifs
      · apply forall_write (P := fun j (y : Socket) => y.core = (o.sockets j).core)
        · exact fun _ _ => rfl
        · rfl
      · rfl
    · rfl
  · rfl

theorem unixPeerClosed_frame (o : Objects) (i : ℕ) : o.OnlySockets (unixPeerClosed o i) := by
  unfold unixPeerClosed
  split_ifs
  · split
    · split_ifs <;> exact ⟨rfl, rfl, rfl⟩
    · exact .refl o
  · exact .refl o

theorem socketFinalDrop_frame (o : Objects) (i : ℕ) : o.OnlySockets (socketFinalDrop o i) :=
  (unixPeerClosed_frame o i).trans (onlySockets_setSocket _ _ _)

theorem socketFinalDrop_other (o : Objects) {i j : ℕ} (h : j ≠ i) :
    ((socketFinalDrop o i).sockets j).core = (o.sockets j).core := by
  unfold socketFinalDrop setSocket
  dsimp only
  rw [update_of_ne h, unixPeerClosed_core]

section Operations

variable {A : ℕ → ℕ} {o : Objects} {i l : ℕ}

/-- `socket_drop_ref` for the last reference to a socket without a queue. -/
theorem socketFinalDrop_inv (h : SocketInv (A + oneAt i) o.sockets) (hr : (o.sockets i).refs ≤ 1)
    (hp : (o.sockets i).pending = []) : SocketInv A (socketFinalDrop o i).sockets := by
  have hcore := unixPeerClosed_core o i
  obtain ⟨-, hr', -, hp'⟩ := core_eq (hcore i)
  exact (h.congr hcore).clear (by omega) (by rw [hp', hp])

/-- What an accept callback does, if anything: a fresh socket either joins the queue of the
listener or is given back. -/
theorem edgeTcpAcceptCb_cases (o : Objects) (l : ℕ) : edgeTcpAcceptCb o l = o ∨
    ∃ sid child, (o.sockets l).listening = true ∧ (o.sockets sid).used = false ∧
      sid < edgeMaxSockets ∧ child.core = (true, 1, false, []) ∧
      let o1 := o.setSocket sid child
      ((o1.sockets l).pending.length < edgeSockAcceptq ∧ edgeTcpAcceptCb o l =
          o1.setSocket l { o1.sockets l with pending := (o1.sockets l).pending ++ [sid] }) ∨
      (edgeSockAcceptq ≤ (o1.sockets l).pending.length ∧ edgeTcpAcceptCb o l = socketFinalDrop o1 sid) := by
  unfold edgeTcpAcceptCb
  dsimp only
  split_ifs with hl
  · exact .inl rfl
  split
  · exact .inl rfl
  rename_i sid hsid
  right
  obtain ⟨hfree, hlt⟩ := firstFree_some hsid
  refine ⟨sid, acceptedChild (o.sockets l), by simpa using hl, hfree, hlt, rfl, ?_⟩
  unfold socketPendingEnqueue
  split_ifs with hfull
  · right
    exact ⟨hfull, rfl⟩
  · left
    exact ⟨by omega, rfl⟩

theorem edgeTcpAcceptCb_inv (h : SocketInv A o.sockets) (l : ℕ) : SocketInv A (edgeTcpAcceptCb o l).sockets := by
  rcases edgeTcpAcceptCb_cases o l with heq | ⟨sid, child, hl, hfree, hlt, hcore, hc⟩
  · rw [heq]
    exact h
  have h1 : SocketInv (A + oneAt sid) (o.setSocket sid child).sockets := h.claim hlt hfree hcore
  have hself : (o.setSocket sid child).sockets sid = child := update_self ..
  have hne : l ≠ sid := by
    rintro rfl
    rw [(h.listener_used hl).1] at hfree
    simp at hfree
  have hother : (o.setSocket sid child).sockets l = o.sockets l := update_of_ne hne ..
  obtain ⟨-, hr, hli, hp⟩ : child.used = true ∧ child.refs = 1 ∧ child.listening = false ∧
      child.pending = [] := by simpa [core] using hcore
  rcases hc with ⟨hroom, heq⟩ | ⟨-, heq⟩
  · rw [heq]
    exact h1.enqueue (by rw [hself, hr]) (by rw [hself, hli]) (by rw [hother, hl]) hroom
  · rw [heq]
    exact socketFinalDrop_inv h1 (by rw [hself]; omega) (by rw [hself, hp])

theorem edgeTcpAcceptCb_frame (o : Objects) (l : ℕ) : o.OnlySockets (edgeTcpAcceptCb o l) := by
  rcases edgeTcpAcceptCb_cases o l with heq | ⟨sid, child, -, -, -, -, ⟨-, heq⟩ | ⟨-, heq⟩⟩
  · rw [heq]
    exact .refl o
  · rw [heq]
    exact ⟨rfl, rfl, rfl⟩
  · rw [heq]
    exact (onlySockets_setSocket o sid child).trans (socketFinalDrop_frame _ _)

/-- A socket in use that is not the listener is left alone. -/
theorem edgeTcpAcceptCb_other (o : Objects) {l j : ℕ} (hj : j ≠ l) (hu : (o.sockets j).used = true) :
    ((edgeTcpAcceptCb o l).sockets j).core = (o.sockets j).core := by
  rcases edgeTcpAcceptCb_cases o l with heq | ⟨sid, child, -, hfree, -, -, hc⟩
  · rw [heq]
  have hne : j ≠ sid := by
    rintro rfl
    rw [hu] at hfree
    simp at hfree
  have hsame : (o.setSocket sid child).sockets j = o.sockets j := update_of_ne hne ..
  rcases hc with ⟨-, heq⟩ | ⟨-, heq⟩
  · rw [heq, ← hsame]
    unfold setSocket
    dsimp only
    rw [update_of_ne hj]
  · rw [heq, socketFinalDrop_other _ hne, hsame]

/-! Several callbacks in a row. -/

theorem edgeTcpAcceptCbs_inv (h : SocketInv A o.sockets) (cbs : List ℕ) :
    SocketInv A (edgeTcpAcceptCbs o cbs).sockets := by
  unfold edgeTcpAcceptCbs
  induction cbs generalizing o with
  | nil => exact h
  | cons l cbs ih => exact ih (edgeTcpAcceptCb_inv h l)

theorem edgeTcpAcceptCbs_frame (o : Objects) (cbs : List ℕ) : o.OnlySockets (edgeTcpAcceptCbs o cbs) := by
  unfold edgeTcpAcceptCbs
  induction cbs generalizing o with
  | nil => exact .refl o
  | cons l cbs ih => exact (edgeTcpAcceptCb_frame o l).trans (ih _)

theorem edgeTcpAcceptCbs_other (o : Objects) {cbs : List ℕ} {j : ℕ} (hj : j ∉ cbs) (hu : (o.sockets j).used = true) :
    ((edgeTcpAcceptCbs o cbs).sockets j).core = (o.sockets j).core := by
  unfold edgeTcpAcceptCbs
  induction cbs generalizing o with
  | nil => rfl
  | cons l cbs ih =>
    obtain ⟨hjl, hjc⟩ : j ≠ l ∧ j ∉ cbs := by simpa using hj
    have hone := edgeTcpAcceptCb_other o hjl hu
    rw [foldl_cons, ih (edgeTcpAcceptCb o l) hjc (by rw [(core_eq hone).1, hu]), hone]

/-- A socket in use that does not listen is left alone by every callback. -/
theorem edgeTcpAcceptCbs_still (o : Objects) (cbs : List ℕ) {j : ℕ}
    (hu : (o.sockets j).used = true) (hl : (o.sockets j).listening = false) :
    ((edgeTcpAcceptCbs o cbs).sockets j).core = (o.sockets j).core := by
  unfold edgeTcpAcceptCbs
  induction cbs generalizing o with
  | nil => rfl
  | cons l cbs ih =>
    have hone : ((edgeTcpAcceptCb o l).sockets j).core = (o.sockets j).core := by
      by_cases hj : j = l
      · subst hj
        have hskip : edgeTcpAcceptCb o j = o := by
          unfold edgeTcpAcceptCb
          dsimp only
          rw [hl]
          rfl
        rw [hskip]
      · exact edgeTcpAcceptCb_other o hj hu
    obtain ⟨hu', -, hl', -⟩ := core_eq hone
    rw [foldl_cons, ih _ (by rw [hu', hu]) (by rw [hl', hl]), hone]

/-! ## Allocation -/

/-- A callback for `l` would leave nothing behind: `l` does not listen, or its queue is
full. -/
def AcceptQuiet (o : Objects) (l : ℕ) : Prop :=
  (o.sockets l).listening = false ∨ edgeSockAcceptq ≤ (o.sockets l).pending.length

theorem edgeTcpAcceptCb_quiet (h : SocketInv A o.sockets) (hq : AcceptQuiet o l) (j : ℕ) :
    ((edgeTcpAcceptCb o l).sockets j).used = (o.sockets j).used ∧
    ((edgeTcpAcceptCb o l).sockets j).listening = (o.sockets j).listening ∧
    ((edgeTcpAcceptCb o l).sockets j).pending = (o.sockets j).pending := by
  rcases edgeTcpAcceptCb_cases o l with heq | ⟨sid, child, hl, hfree, -, -, hc⟩
  · rw [heq]
    exact ⟨rfl, rfl, rfl⟩
  have hne : l ≠ sid := by
    rintro rfl
    rw [(h.listener_used hl).1] at hfree
    simp at hfree
  have hother : ∀ k, k ≠ sid → (o.setSocket sid child).sockets k = o.sockets k :=
    fun k hk => update_of_ne hk ..
  rcases hc with ⟨hroom, -⟩ | ⟨-, heq⟩
  · rcases hq with hf | hfull
    · rw [hl] at hf
      simp at hf
    · rw [hother l hne] at hroom
      omega
  rw [heq]
  by_cases hj : j = sid
  · -- The slot was free before and is free again.
    subst hj
    have hli := ((h j).free hfree).2.2
    have hself : (socketFinalDrop (o.setSocket j child) j).sockets j = {} :=
      update_self ..
    rw [hself, hfree, hli, (h j).quiet hli]
    exact ⟨rfl, rfl, rfl⟩
  · have hcore := socketFinalDrop_other (o.setSocket sid child) hj
    rw [hother j hj] at hcore
    obtain ⟨hu, -, hl', hp⟩ := core_eq hcore
    exact ⟨hu, hl', hp⟩

theorem edgeTcpAcceptCbs_quiet (h : SocketInv A o.sockets) {cbs : List ℕ} (hq : ∀ l ∈ cbs, AcceptQuiet o l) (j : ℕ) :
    ((edgeTcpAcceptCbs o cbs).sockets j).used = (o.sockets j).used ∧
    ((edgeTcpAcceptCbs o cbs).sockets j).listening = (o.sockets j).listening ∧
    ((edgeTcpAcceptCbs o cbs).sockets j).pending = (o.sockets j).pending := by
  unfold edgeTcpAcceptCbs
  induction cbs generalizing o with
  | nil => exact ⟨rfl, rfl, rfl⟩
  | cons l cbs ih =>
    have hone := edgeTcpAcceptCb_quiet h (hq l (by simp))
    have hnext := ih (edgeTcpAcceptCb_inv h l) fun k hk => by
      unfold AcceptQuiet
      rw [(hone k).2.1, (hone k).2.2]
      exact hq k (by simp [hk])
    rw [foldl_cons]
    exact ⟨hnext.1.trans (hone j).1, hnext.2.1.trans (hone j).2.1, hnext.2.2.trans (hone j).2.2⟩

/-- `socket_alloc` hands out a socket with one reference; queues stay as they are. -/
theorem socketPendingDequeue_frame {o o' : Objects} {l : ℕ} {r : Option ℕ}
    (ha : socketPendingDequeue o l = (o', r)) : o.OnlySockets o' := by
  unfold socketPendingDequeue at ha
  split at ha
  · obtain ⟨rfl, -⟩ := Prod.mk.inj ha
    exact .refl o
  · obtain ⟨rfl, -⟩ := Prod.mk.inj ha
    exact onlySockets_setSocket _ _ _

theorem socketAlloc_frame {o o' : Objects} {window : List ℕ} {r : Option ℕ}
    (ha : socketAlloc o window = (o', r)) : o.OnlySockets o' := by
  unfold socketAlloc at ha
  split at ha
  · obtain ⟨rfl, -⟩ := Prod.mk.inj ha
    exact .refl o
  · obtain ⟨rfl, -⟩ := Prod.mk.inj ha
    exact (edgeTcpAcceptCbs_frame o window).trans (onlySockets_setSocket _ _ _)

theorem socketAlloc_inv (h : SocketInv A o.sockets) {window : List ℕ}
    (hq : ∀ l ∈ window, AcceptQuiet o l) {o' : Objects} (ha : socketAlloc o window = (o', some i)) :
    SocketInv (A + oneAt i) o'.sockets ∧ (o'.sockets i).core = (true, 1, false, []) ∧
      o.OnlySockets o' ∧ ∀ l, AcceptQuiet o l → AcceptQuiet o' l := by
  unfold socketAlloc at ha
  split at ha
  · simp at ha
  rename_i j hj
  obtain ⟨rfl, hij⟩ := Prod.mk.inj ha
  obtain rfl := Option.some.inj hij
  obtain ⟨hfree, hlt⟩ := firstFree_some hj
  have hsame := edgeTcpAcceptCbs_quiet h hq
  have hself : (socketClaim (edgeTcpAcceptCbs o window) j).sockets j = { used := true, refs := 1 } := update_self ..
  refine ⟨(edgeTcpAcceptCbs_inv h window).claim hlt (by rw [(hsame j).1, hfree]) rfl, ?_,
    (edgeTcpAcceptCbs_frame o window).trans (onlySockets_setSocket _ _ _), fun l hl => ?_⟩
  · rw [hself]
    rfl
  · unfold AcceptQuiet
    by_cases hlj : l = j
    · left
      rw [hlj, hself]
    have hother : (socketClaim (edgeTcpAcceptCbs o window) j).sockets l =
        (edgeTcpAcceptCbs o window).sockets l := update_of_ne hlj ..
    rw [hother, (hsame l).2.1, (hsame l).2.2]
    exact hl

/-! ## One reference more, one less -/

theorem socketAddRef_inv (h : SocketInv A o.sockets) (hA : 0 < A i) :
    SocketInv (A + oneAt i) (socketAddRef o i).sockets := by
  obtain ⟨hu, hi⟩ := h.holder_used hA
  have hcount := (h i).used hu
  have hn : ¬ 0 < pendingCount o.sockets i := by
    intro hn
    have := h.queued_alone hn
    omega
  unfold socketAddRef
  rw [tableIndex_cast hi]
  dsimp only
  rw [if_neg (by simp [hu])]
  refine h.write rfl ?_ fun j hj => add_oneAt_of_ne _ hj
  rw [add_oneAt_self]
  refine ⟨fun _ => ⟨?_, Nat.succ_pos _, hi⟩, fun hf => ?_, (h i).quiet, fun h0 => absurd h0 hn, (h i).short⟩
  · dsimp only
    omega
  · dsimp only at hf
    rw [hu] at hf
    simp at hf

theorem socketAddRef_frame (o : Objects) (id : ℤ) : o.OnlySockets (socketAddRef o id) := by
  unfold socketAddRef
  split
  · exact .refl o
  split_ifs
  · exact .refl o
  · exact onlySockets_setSocket _ _ _

section Drain

variable {drop : Objects → ℕ → Objects}

theorem drainOne_nil (hp : (o.sockets l).pending = []) : drainOne drop l o = o := by
  simp only [drainOne, socketPendingDequeue, hp]

theorem drainOne_cons {sid : ℕ} {rest : List ℕ} (hp : (o.sockets l).pending = sid :: rest) :
    drainOne drop l o = drop (o.setSocket l { o.sockets l with pending := rest }) sid := by
  simp only [drainOne, socketPendingDequeue, hp]

theorem drain_frame (hdrop : ∀ (o : Objects) (sid : ℕ), o.OnlySockets (drop o sid)) (l : ℕ) (rounds : List ℕ)
    (o : Objects) : o.OnlySockets (rounds.foldl (fun o _ => drainOne drop l o) o) := by
  induction rounds generalizing o with
  | nil => exact .refl o
  | cons _ rounds ih =>
    refine .trans ?_ (ih _)
    dsimp only
    cases hp : (o.sockets l).pending with
    | nil =>
      rw [drainOne_nil hp]
      exact .refl o
    | cons sid rest =>
      rw [drainOne_cons hp]
      exact (onlySockets_setSocket _ _ _).trans (hdrop _ _)

/-- The loop empties the queue of a listener with one reference left, given a drop that gives
back a queued socket and touches no other. -/
theorem drain_inv (hdrop : ∀ (A : ℕ → ℕ) (o : Objects) (sid : ℕ), SocketInv (A + oneAt sid) o.sockets →
      (o.sockets sid).listening = false → SocketInv A (drop o sid).sockets ∧
        ∀ j, j ≠ sid → ((drop o sid).sockets j).core = (o.sockets j).core)
    (rounds : List ℕ) (h : SocketInv A o.sockets) (hl : (o.sockets l).listening = true)
    (hr : (o.sockets l).refs ≤ 1) (hlen : (o.sockets l).pending.length ≤ rounds.length) :
    let o' := rounds.foldl (fun o _ => drainOne drop l o) o
    SocketInv A o'.sockets ∧ (o'.sockets l).refs ≤ 1 ∧ (o'.sockets l).used = true ∧ (o'.sockets l).pending = [] := by
  induction rounds generalizing o with
  | nil => exact ⟨h, hr, (h.listener_used hl).1, length_eq_zero_iff.mp (by simpa using hlen)⟩
  | cons _ rounds ih =>
    rw [foldl_cons]
    cases hp : (o.sockets l).pending with
    | nil =>
      rw [drainOne_nil hp]
      exact ih h hl hr (by rw [hp]; exact Nat.zero_le _)
    | cons sid rest =>
      rw [drainOne_cons hp]
      have hdeq := h.dequeue hp
      have hself : (o.setSocket l { o.sockets l with pending := rest }).sockets l =
          { o.sockets l with pending := rest } := update_self ..
      -- The dequeued socket waited in a queue, so it does not listen itself.
      have hsid : (o.sockets sid).listening = false := by
        apply ((h sid).queued _).2
        have hle := Finset.single_le_sum (f := fun k => (o.sockets k).pending.count sid)
          (fun _ _ => Nat.zero_le _) (Finset.mem_range.mpr (h.listener_used hl).2)
        have hone : 0 < (o.sockets l).pending.count sid := by simp [hp]
        exact lt_of_lt_of_le hone hle
      have hne : l ≠ sid := by
        rintro rfl
        rw [hl] at hsid
        simp at hsid
      have hsid' : ((o.setSocket l { o.sockets l with pending := rest }).sockets sid).listening = false := by
        unfold setSocket
        dsimp only
        rw [update_of_ne hne.symm, hsid]
      obtain ⟨hinv, hother⟩ := hdrop A (o.setSocket l { o.sockets l with pending := rest }) sid
        hdeq hsid'
      obtain ⟨-, hr', hl', hp'⟩ := core_eq (hother l hne)
      rw [hself] at hr' hl' hp'
      refine ih hinv (by rw [hl', hl]) (by rw [hr']; exact hr) ?_
      rw [hp']
      rw [hp] at hlen
      simpa using hlen

end Drain

theorem socketDropRef_frame (window : ℕ → List ℕ) (n : ℕ) (o : Objects) (id : ℤ) :
    o.OnlySockets (socketDropRef window n o id) := by
  induction n generalizing o id with
  | zero => exact .refl o
  | succ n ih =>
    unfold socketDropRef
    split
    · exact .refl o
    rename_i i _
    dsimp only
    split_ifs
    · exact .refl o
    · exact onlySockets_setSocket _ _ _
    · refine .trans ?_ (socketFinalDrop_frame _ i)
      refine .trans ?_ (edgeTcpAcceptCbs_frame _ _)
      exact drain_frame (fun o sid => ih o sid) i _ o
    · exact socketFinalDrop_frame o i

theorem socketDropRef_plain (window : ℕ → List ℕ) (n : ℕ) (h : SocketInv (A + oneAt i) o.sockets)
    (hl : (o.sockets i).listening = false) :
    SocketInv A (socketDropRef window (n + 1) o i).sockets ∧
      ∀ j, j ≠ i → ((socketDropRef window (n + 1) o i).sockets j).core = (o.sockets j).core := by
  obtain ⟨hu, hi⟩ := h.holder_used (i := i) (by rw [add_oneAt_self]; omega)
  unfold socketDropRef
  rw [tableIndex_cast hi]
  dsimp only
  rw [if_neg (by simp [hu]), if_neg (by simp [hl] : ¬ (o.sockets i).listening = true)]
  split_ifs with hr
  · refine ⟨?_, fun j hj => ?_⟩
    · exact h.unref hr
    · unfold setSocket
      dsimp only
      rw [update_of_ne hj]
  · exact ⟨socketFinalDrop_inv h (by omega) ((h i).quiet hl), fun j hj => socketFinalDrop_other o hj⟩

/-- `socket_drop_ref` on a held socket, unless a callback for a listener fires while that
listener is torn down. -/
theorem socketDropRef_inv {window : ℕ → List ℕ} (h : SocketInv (A + oneAt i) o.sockets)
    (hw : i ∉ window i) : SocketInv A (socketDropRef window socketDepth o i).sockets := by
  cases hl : (o.sockets i).listening
  · exact (socketDropRef_plain window _ h hl).1
  · obtain ⟨hu, hi⟩ := h.listener_used hl
    unfold socketDepth socketDropRef
    rw [tableIndex_cast hi]
    dsimp only
    rw [if_neg (by simp [hu]), if_pos hl]
    split_ifs with hr
    · exact h.unref hr
    have hdrain := drain_inv (o := o) (l := i)
      (fun A o sid => socketDropRef_plain window (edgeMaxSockets - 2) (A := A) (o := o) (i := sid))
      (List.range edgeSockAcceptq) h hl (by omega)
      (by rw [length_range]; exact (h i).short)
    dsimp only at hdrain
    obtain ⟨hinv, hr', hu', hp'⟩ := hdrain
    have hcore := edgeTcpAcceptCbs_other _ hw hu'
    obtain ⟨-, hr'', -, hp''⟩ := core_eq hcore
    exact socketFinalDrop_inv (edgeTcpAcceptCbs_inv hinv _) (hr''.trans_le hr') (hp''.trans hp')

end Operations

end EdgeOS
