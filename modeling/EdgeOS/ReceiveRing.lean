import EdgeOS.NetworkEntry

namespace EdgeOS

open Lib Function List

/-!
The receive ring of the card: `e1000_poll_rx` statement by statement, a controller that fills
descriptors at any moment, and interrupts that run a poll of their own inside another one.
-/

abbrev e1000RxDescCount : ℕ := 64

/-- A frame as the controller stores it and as the callback gets it. -/
structure RxFrame where
  length : ℕ
  data : List UInt8
  deriving DecidableEq

/-- A descriptor, with the buffer that belongs to it. -/
structure RxDesc where
  dd : Bool := false
  length : ℕ := 0
  buf : List UInt8 := []
  deriving DecidableEq

/-- Where a run of `e1000_poll_rx` is; `d` is the descriptor it has a pointer to. -/
inductive PollPc
  | head
  | status (d : ℕ)
  | length (d : ℕ)
  | deliver (d : ℕ)
  | clear (d : ℕ)
  | rdt
  | load
  | store (v : ℕ)
  deriving DecidableEq

/-- The ring after `e1000_init`: the descriptors, `g_rx_cur`, RDH and RDT, the run outside of interrupts,
the run of an interrupt, and the frames that `g_rx_frame_cb` has got. `stored` are all the frames that
the controller has put in the ring. -/
structure RxRing where
  desc : ℕ → RxDesc := fun _ => {}
  rxCur : ℕ := 0
  rdh : ℕ := 0
  rdt : ℕ := e1000RxDescCount - 1
  main : Option PollPc := none
  irq : Option PollPc := none
  delivered : List RxFrame := []
  stored : List RxFrame := []

inductive RxEvent
  | frame (f : RxFrame)
  | call
  | mainStep
  | irq
  | irqStep
  deriving DecidableEq

/-- `e1000_handle_rx_frame` passes on what has a header. -/
def handledFrame (f : RxFrame) : List RxFrame := if f.length < ethHdrSize then [] else [f]

def RxFrame.valid (f : RxFrame) : Bool := ethHdrSize ≤ f.length ∧ f.length ≤ e1000RxBufSize

namespace RxRing

variable (r : RxRing)

def setDesc (d : ℕ) (x : RxDesc) : RxRing := { r with desc := Function.update r.desc d x }

/-- One statement of `e1000_poll_rx`, and where it goes on. The buffer is the one of `g_rx_cur` at that
time, the length the one of the descriptor. -/
def pollStep : PollPc → RxRing × Option PollPc
  | .head => (r, some (.status r.rxCur))
  | .status d => (r, if (r.desc d).dd then some (.length d) else none)
  | .length d =>
    let len := (r.desc d).length
    (r, some (if 0 < len ∧ len ≤ e1000RxBufSize then .deliver d else .clear d))
  | .deliver d =>
    ({ r with delivered := r.delivered ++ handledFrame ⟨(r.desc d).length, (r.desc r.rxCur).buf⟩ }, some (.clear d))
  | .clear d => (r.setDesc d { r.desc d with dd := false }, some .rdt)
  | .rdt => ({ r with rdt := r.rxCur }, some .load)
  | .load => (r, some (.store r.rxCur))
  | .store v => ({ r with rxCur := (v + 1) % e1000RxDescCount }, some .head)

/-- The controller stores a frame in the oldest descriptor it owns. -/
def storeFrame (f : RxFrame) : RxRing :=
  if r.rdh = r.rdt then r
  else
    { r.setDesc r.rdh ⟨true, f.length, f.data⟩ with
      rdh := (r.rdh + 1) % e1000RxDescCount, stored := r.stored ++ [f] }

/-- While an interrupt is served the run outside stands still. -/
def step : RxEvent → RxRing
  | .frame f => r.storeFrame f
  | .call => if r.irq = none ∧ r.main = none then { r with main := some .head } else r
  | .mainStep =>
    match r.irq, r.main with
    | none, some pc => { (r.pollStep pc).1 with main := (r.pollStep pc).2 }
    | _, _ => r
  | .irq => if r.irq = none then { r with irq := some .head } else r
  | .irqStep =>
    match r.irq with
    | some pc => { (r.pollStep pc).1 with irq := (r.pollStep pc).2 }
    | none => r

/-- The controller may fill this descriptor before the driver hands back another one. -/
def Owned (d : ℕ) : Prop :=
  ∃ i, i < (r.rdt + e1000RxDescCount - r.rdh) % e1000RxDescCount ∧ d = (r.rdh + i) % e1000RxDescCount

/-- Of the frames stored, the first `n` have been dealt with: the valid ones are delivered. The others wait in
their descriptors, which the controller does not own, and outside of the loop `g_rx_cur` names the first. -/
def Exact : Prop :=
  ∃ n ≤ r.stored.length, r.delivered = (r.stored.take n).filter RxFrame.valid ∧ (∀ a f, n ≤ a → r.stored[a]? = some f →
      r.desc (a % e1000RxDescCount) = ⟨true, f.length, f.data⟩ ∧ ¬ r.Owned (a % e1000RxDescCount)) ∧
    (r.irq = none → r.main = none → r.rxCur = n % e1000RxDescCount)

/-- A run outside of interrupts that has seen a frame at `g_rx_cur` and not yet taken it out of the ring. -/
def InHand : Prop := ∃ d, r.main = some (.length d) ∨ r.main = some (.deliver d) ∨ r.main = some (.clear d)

/-- No interrupt polls while a frame is in hand, and a descriptor that is no longer the current one when its
status is read has not been filled again. -/
def Sound : RxEvent → Prop
  | .irq => r.irq = none → ¬ r.InHand
  | .mainStep => ∀ d, r.irq = none → r.main = some (.status d) → d ≠ r.rxCur → (r.desc d).dd = false
  | _ => True

/-! ## One poll -/

/-- How far the ring is: `n` frames are behind `g_rx_cur`, `m` out of the ring, `t` handed back, `c` delivered. -/
structure Counts (r : RxRing) (n m t c : ℕ) : Prop where
  cur : r.rxCur = n % 64
  rdt : r.rdt = (63 + t) % 64
  rdh : r.rdh = r.stored.length % 64
  room : r.stored.length ≤ 63 + t
  taken : m ≤ r.stored.length
  back : t ≤ m
  waiting : ∀ a f, m ≤ a → r.stored[a]? = some f → r.desc (a % 64) = ⟨true, f.length, f.data⟩
  free : ∀ a, r.stored.length ≤ a → a < m + 64 → (r.desc (a % 64)).dd = false
  handed : m ≤ c ∧ c ≤ r.stored.length
  delivered : r.delivered = (r.stored.take c).filter RxFrame.valid

def At (r : RxRing) (n m t c : ℕ) : PollPc → Prop
  | .head => m = n ∧ t = n ∧ c = n
  | .status _ => m = n ∧ t = n ∧ c = n
  | .length d => d = n % 64 ∧ m = n ∧ t = n ∧ c = n ∧ ∃ f, r.stored[n]? = some f
  | .deliver d => d = n % 64 ∧ m = n ∧ t = n ∧ c = n ∧
      ∃ f, r.stored[n]? = some f ∧ 0 < f.length ∧ f.length ≤ e1000RxBufSize
  | .clear d => d = n % 64 ∧ m = n ∧ t = n ∧ c = n + 1
  | .rdt => m = n + 1 ∧ t = n ∧ c = n + 1
  | .load => m = n + 1 ∧ t = n + 1 ∧ c = n + 1
  | .store v => v = n % 64 ∧ m = n + 1 ∧ t = n + 1 ∧ c = n + 1

variable {r} {n m t c : ℕ}

theorem take_succ_filter {l : List RxFrame} {f : RxFrame} (h : l[n]? = some f) :
    (l.take (n + 1)).filter RxFrame.valid = (l.take n).filter RxFrame.valid ++ if f.valid then [f] else [] := by
  have hsucc : l.take (n + 1) = l.take n ++ [f] := by
    rw [take_add_one, h]
    rfl
  rw [hsucc, filter_append, filter_singleton]
  cases f.valid <;> rfl

/-- Of what fits in a buffer, the callback gets the frames that are to be delivered. -/
theorem handledFrame_valid {f : RxFrame} (h : f.length ≤ e1000RxBufSize) :
    handledFrame f = if f.valid then [f] else [] := by
  unfold handledFrame RxFrame.valid
  by_cases hhdr : f.length < ethHdrSize
  · rw [if_pos hhdr, if_neg]
    intro hvalid
    exact absurd (of_decide_eq_true hvalid).1 (by omega)
  · rw [if_neg hhdr, if_pos (decide_eq_true ⟨by omega, h⟩)]

/-- The controller stores a frame: it takes a descriptor that is free. -/
theorem Counts.storeFrame (h : r.Counts n m t c) (f : RxFrame) : (r.storeFrame f).Counts n m t c := by
  unfold RxRing.storeFrame
  split
  · exact h
  next hroom =>
  have hlen : (r.stored ++ [f]).length = r.stored.length + 1 := by
    rw [length_append, length_singleton]
  have hspace : r.stored.length ≠ 63 + t := by
    intro heq
    exact hroom (by rw [h.rdh, h.rdt, heq])
  have hroom' := h.room
  have hback := h.back
  have htaken := h.taken
  have hother : ∀ a, m ≤ a → a < m + 64 → a ≠ r.stored.length →
      update r.desc r.rdh ⟨true, f.length, f.data⟩ (a % 64) = r.desc (a % 64) := by
    intro a hlo hhi hne
    rw [h.rdh, update_of_ne]
    omega
  constructor
  · exact h.cur
  · exact h.rdt
  · change (r.rdh + 1) % 64 = (r.stored ++ [f]).length % 64
    rw [hlen, h.rdh]
    omega
  · change (r.stored ++ [f]).length ≤ _
    omega
  · change _ ≤ (r.stored ++ [f]).length
    omega
  · exact hback
  · intro a g ha hg
    change update r.desc r.rdh _ (a % 64) = _
    change (r.stored ++ [f])[a]? = some g at hg
    by_cases hold : a < r.stored.length
    · rw [getElem?_append_left hold] at hg
      rw [hother a ha (by omega) (by omega)]
      exact h.waiting a g ha hg
    have hlast : a = r.stored.length := by
      have hlt := (List.getElem?_eq_some_iff.mp hg).1
      omega
    rw [hlast, getElem?_concat_length] at hg
    cases hg
    rw [hlast, ← h.rdh, update_self]
  · intro a ha hlt
    change (update r.desc r.rdh _ (a % 64)).dd = false
    change (r.stored ++ [f]).length ≤ a at ha
    rw [hother a (by omega) hlt (by omega)]
    exact h.free a (by omega) hlt
  · change _ ∧ _ ≤ (r.stored ++ [f]).length
    exact ⟨h.handed.1, by have := h.handed.2; omega⟩
  · change r.delivered = ((r.stored ++ [f]).take c).filter _
    rw [take_append_of_le_length h.handed.2]
    exact h.delivered

theorem At.storeFrame {pc : PollPc} (h : r.At n m t c pc) (f : RxFrame) : (r.storeFrame f).At n m t c pc := by
  have hget : ∀ g, r.stored[n]? = some g → (r.storeFrame f).stored[n]? = some g := by
    intro g hg
    unfold RxRing.storeFrame
    split
    · exact hg
    · have hlt := (List.getElem?_eq_some_iff.mp hg).1
      exact (getElem?_append_left hlt).trans hg
  cases pc with
  | head => exact h
  | status d => exact h
  | length d =>
    obtain ⟨hd, hm, ht, hc, g, hg⟩ := h
    exact ⟨hd, hm, ht, hc, g, hget g hg⟩
  | deliver d =>
    obtain ⟨hd, hm, ht, hc, g, hg, hlen⟩ := h
    exact ⟨hd, hm, ht, hc, g, hget g hg, hlen⟩
  | clear d => exact h
  | rdt => exact h
  | load => exact h
  | store v => exact h

/-- How a statement leaves the ring: somewhere in the loop, or between two calls. -/
def Left (r : RxRing) : Option PollPc → Prop
  | some pc => ∃ n m t c, r.Counts n m t c ∧ r.At n m t c pc ∧ ∀ d, pc = .status d → d = r.rxCur
  | none => ∃ n, r.Counts n n n n

section Statements

variable {d : ℕ}

/-- The status that is read is the one at `g_rx_cur`, or clear. -/
theorem status_left (h : r.Counts n m t c) (hat : r.At n m t c (.status d))
    (hstatus : d ≠ r.rxCur → (r.desc d).dd = false) : Left (r.pollStep (.status d)).1 (r.pollStep (.status d)).2 := by
  obtain ⟨rfl, rfl, rfl⟩ := hat
  unfold pollStep
  dsimp only
  by_cases hdd : (r.desc d).dd
  · rw [if_pos hdd]
    have hd : d = c % 64 := by
      by_contra hne
      rw [hstatus (by rwa [h.cur])] at hdd
      cases hdd
    have hlt : c < r.stored.length := by
      by_contra hge
      have hfree := h.free c (by omega) (by omega)
      rw [← hd, hdd] at hfree
      cases hfree
    exact ⟨c, c, c, c, h, ⟨hd, rfl, rfl, rfl, _, getElem?_eq_getElem hlt⟩, fun d' hd' => by cases hd'⟩
  · rw [if_neg hdd]
    exact ⟨c, h⟩

theorem length_left (h : r.Counts n m t c) (hat : r.At n m t c (.length d)) :
    Left (r.pollStep (.length d)).1 (r.pollStep (.length d)).2 := by
  obtain ⟨hd, rfl, rfl, rfl, f, hf⟩ := hat
  have hdesc := h.waiting c f le_rfl hf
  unfold pollStep
  dsimp only
  rw [hd, hdesc]
  by_cases hfits : 0 < f.length ∧ f.length ≤ e1000RxBufSize
  · rw [if_pos hfits]
    exact ⟨c, c, c, c, h, ⟨rfl, rfl, rfl, rfl, f, hf, hfits⟩, fun d' hd' => by cases hd'⟩
  rw [if_neg hfits]
  have hlt := (List.getElem?_eq_some_iff.mp hf).1
  refine ⟨c, c, c, c + 1, ⟨h.cur, h.rdt, h.rdh, h.room, h.taken, h.back, h.waiting, h.free, ⟨by omega, hlt⟩, ?_⟩,
    ⟨rfl, rfl, rfl, rfl⟩, fun d' hd' => by cases hd'⟩
  have hinvalid : ¬ f.valid := by
    intro hvalid
    have hbounds := of_decide_eq_true hvalid
    exact hfits ⟨lt_of_lt_of_le (by decide) hbounds.1, hbounds.2⟩
  rw [take_succ_filter hf, if_neg hinvalid, append_nil]
  exact h.delivered

theorem deliver_left (h : r.Counts n m t c) (hat : r.At n m t c (.deliver d)) :
    Left (r.pollStep (.deliver d)).1 (r.pollStep (.deliver d)).2 := by
  obtain ⟨hd, rfl, rfl, rfl, f, hf, -, hfits⟩ := hat
  have hdesc := h.waiting c f le_rfl hf
  have hlt := (List.getElem?_eq_some_iff.mp hf).1
  have hframe : RxFrame.mk (r.desc d).length (r.desc r.rxCur).buf = f := by
    rw [h.cur, hd, hdesc]
  unfold pollStep
  dsimp only
  rw [hframe]
  refine ⟨c, c, c, c + 1, ⟨h.cur, h.rdt, h.rdh, h.room, h.taken, h.back, h.waiting, h.free, ⟨by omega, hlt⟩, ?_⟩,
    ⟨hd, rfl, rfl, rfl⟩, fun d' hd' => by cases hd'⟩
  change r.delivered ++ handledFrame f = _
  rw [take_succ_filter hf, ← handledFrame_valid hfits, ← h.delivered]

/-- The frame leaves the ring, and its descriptor is clear. -/
theorem clear_left (h : r.Counts n m t c) (hat : r.At n m t c (.clear d)) :
    Left (r.pollStep (.clear d)).1 (r.pollStep (.clear d)).2 := by
  obtain ⟨hd, hm, ht, hc⟩ := hat
  have hlen := h.handed.2
  have hroom := h.room
  refine ⟨n, n + 1, n, n + 1, ?_, ⟨rfl, rfl, rfl⟩, fun d' hd' => by cases hd'⟩
  have hother : ∀ a, n < a → a < n + 64 → (r.pollStep (.clear d)).1.desc (a % 64) = r.desc (a % 64) := by
    intro a hlo hhi
    exact update_of_ne (by omega) ..
  constructor
  · exact h.cur
  · rw [← ht]
    exact h.rdt
  · exact h.rdh
  · rw [← ht]
    exact hroom
  · change n + 1 ≤ r.stored.length
    omega
  · omega
  · intro a f ha hf
    have hlt : a < r.stored.length := (List.getElem?_eq_some_iff.mp hf).1
    rw [hother a (by omega) (by omega)]
    exact h.waiting a f (by omega) hf
  · intro a ha hlt
    change r.stored.length ≤ a at ha
    by_cases hlast : a = n + 64
    · -- the descriptor that has just been cleared
      have hself : a % 64 = d := by omega
      rw [hself]
      change (update r.desc d { r.desc d with dd := false } d).dd = false
      rw [update_self]
    · rw [hother a (by omega) (by omega)]
      exact h.free a ha (by omega)
  · exact ⟨le_rfl, by change n + 1 ≤ r.stored.length; omega⟩
  · rw [← hc]
    exact h.delivered

end Statements

/-- One statement keeps the books. A status that is read is the one at `g_rx_cur`, or clear. -/
theorem pollStep_left {pc : PollPc} (h : r.Counts n m t c) (hat : r.At n m t c pc)
    (hstatus : ∀ d, pc = .status d → d ≠ r.rxCur → (r.desc d).dd = false) :
    Left (r.pollStep pc).1 (r.pollStep pc).2 := by
  cases pc with
  | head => exact ⟨n, m, t, c, h, hat, fun d hd => (PollPc.status.inj hd).symm⟩
  | status d => exact status_left h hat (hstatus d rfl)
  | length d => exact length_left h hat
  | deliver d => exact deliver_left h hat
  | clear d => exact clear_left h hat
  | rdt =>
    obtain ⟨rfl, rfl, rfl⟩ := hat
    refine ⟨t, t + 1, t + 1, t + 1, ?_, ⟨rfl, rfl, rfl⟩, fun d' hd' => by cases hd'⟩
    have hroom := h.room
    refine ⟨h.cur, ?_, h.rdh, by change r.stored.length ≤ _; omega, h.taken, le_rfl, h.waiting, h.free, h.handed, h.delivered⟩
    change r.rxCur = _
    rw [h.cur]
    omega
  | load =>
    exact ⟨n, m, t, c, h, ⟨h.cur, hat⟩, fun d' hd' => by cases hd'⟩
  | store v =>
    obtain ⟨rfl, rfl, rfl, rfl⟩ := hat
    refine ⟨n + 1, n + 1, n + 1, n + 1, ⟨?_, h.rdt, h.rdh, h.room, h.taken, h.back, h.waiting, h.free, h.handed,
      h.delivered⟩, ⟨rfl, rfl, rfl⟩, fun d' hd' => by cases hd'⟩
    change (n % 64 + 1) % 64 = (n + 1) % 64
    omega

/-! ## Runs -/

theorem Counts.runs (h : r.Counts n m t c) (main irq : Option PollPc) :
    Counts { r with main := main, irq := irq } n m t c :=
  ⟨h.cur, h.rdt, h.rdh, h.room, h.taken, h.back, h.waiting, h.free, h.handed, h.delivered⟩

theorem At.runs {pc : PollPc} (h : r.At n m t c pc) (main irq : Option PollPc) :
    At { r with main := main, irq := irq } n m t c pc := by
  cases pc <;> exact h

theorem Left.runs {pc : Option PollPc} (h : r.Left pc) (main irq : Option PollPc) :
    Left { r with main := main, irq := irq } pc := by
  cases pc with
  | none =>
    obtain ⟨n, hcounts⟩ := h
    exact ⟨n, hcounts.runs main irq⟩
  | some pc =>
    obtain ⟨n, m, t, c, hcounts, hat, hstatus⟩ := h
    exact ⟨n, m, t, c, hcounts.runs main irq, hat.runs main irq, hstatus⟩

/-- Between two frames: nothing is in hand, nothing is half handed back. -/
def Between (pc : PollPc) : Prop := pc = .head ∨ ∃ d, pc = .status d

/-- The descriptor at `g_rx_cur` is clear already, and `g_rx_cur` is about to move. -/
def Moving (pc : PollPc) : Prop := pc = .rdt ∨ pc = .load ∨ ∃ v, pc = .store v

theorem At.between {pc : PollPc} (h : r.At n m t c pc) (hpc : Between pc) : m = n ∧ t = n ∧ c = n := by
  rcases hpc with rfl | ⟨d, rfl⟩ <;> exact h

theorem At.of_between {pc : PollPc} (hpc : Between pc) : r.At n n n n pc := by
  rcases hpc with rfl | ⟨d, rfl⟩ <;> exact ⟨rfl, rfl, rfl⟩

/-- Where the two runs are. An interrupt has come between two frames, or it finds nothing. -/
def Placed (r : RxRing) : Option PollPc → Option PollPc → Prop
  | none, none => r.Left none
  | none, some p => ∃ n m t c, r.Counts n m t c ∧ r.At n m t c p
  | some q, none => r.Left (some q)
  | some q, some p => Between p ∧ r.Left (some q) ∨
      Moving p ∧ (q = .head ∨ q = .status r.rxCur) ∧ ∃ n m t c, r.Counts n m t c ∧ r.At n m t c p

def InPlace (r : RxRing) : Prop := r.Placed r.irq r.main

theorem inv_boot : InPlace {} := by
  refine ⟨0, rfl, rfl, rfl, ?_, le_rfl, le_rfl, fun a f _ hf => ?_, fun _ _ _ => rfl, ⟨le_rfl, le_rfl⟩, rfl⟩
  · decide
  · cases hf

theorem Placed.runs {irq main : Option PollPc} (h : r.Placed irq main) : InPlace { r with main := main, irq := irq } := by
  unfold InPlace
  dsimp only
  cases irq with
  | none =>
    cases main with
    | none =>
      have hleft : r.Left none := h
      exact hleft.runs none none
    | some p =>
      obtain ⟨n, m, t, c, hcounts, hat⟩ := h
      exact ⟨n, m, t, c, hcounts.runs _ _, hat.runs _ _⟩
  | some q =>
    cases main with
    | none =>
      have hleft : r.Left (some q) := h
      exact hleft.runs none (some q)
    | some p =>
      rcases h with ⟨hbetween, hleft⟩ | ⟨hmoving, hq, n, m, t, c, hcounts, hat⟩
      · exact .inl ⟨hbetween, hleft.runs _ _⟩
      · exact .inr ⟨hmoving, hq, n, m, t, c, hcounts.runs _ _, hat.runs _ _⟩

theorem Left.placed {pc : Option PollPc} (h : r.Left pc) : r.Placed none pc := by
  cases pc with
  | none => exact h
  | some pc =>
    obtain ⟨n, m, t, c, hcounts, hat, -⟩ := h
    exact ⟨n, m, t, c, hcounts, hat⟩

theorem Left.placed_irq {pc : Option PollPc} (h : r.Left pc) : r.Placed pc none := by
  cases pc <;> exact h

theorem Left.storeFrame {pc : Option PollPc} (h : r.Left pc) (f : RxFrame) : (r.storeFrame f).Left pc := by
  have hcur : (r.storeFrame f).rxCur = r.rxCur := by
    unfold RxRing.storeFrame
    split <;> rfl
  cases pc with
  | none =>
    obtain ⟨n, hcounts⟩ := h
    exact ⟨n, hcounts.storeFrame f⟩
  | some pc =>
    obtain ⟨n, m, t, c, hcounts, hat, hstatus⟩ := h
    exact ⟨n, m, t, c, hcounts.storeFrame f, hat.storeFrame f, fun d hd => by rw [hcur, hstatus d hd]⟩

theorem Placed.storeFrame {irq main : Option PollPc} (h : r.Placed irq main) (f : RxFrame) :
    (r.storeFrame f).Placed irq main := by
  have hcur : (r.storeFrame f).rxCur = r.rxCur := by
    unfold RxRing.storeFrame
    split <;> rfl
  cases irq with
  | none =>
    cases main with
    | none =>
      have hleft : r.Left none := h
      exact hleft.storeFrame f
    | some p =>
      obtain ⟨n, m, t, c, hcounts, hat⟩ := h
      exact ⟨n, m, t, c, hcounts.storeFrame f, hat.storeFrame f⟩
  | some q =>
    cases main with
    | none =>
      have hleft : r.Left (some q) := h
      exact hleft.storeFrame f
    | some p =>
      rcases h with ⟨hbetween, hleft⟩ | ⟨hmoving, hq, n, m, t, c, hcounts, hat⟩
      · exact .inl ⟨hbetween, hleft.storeFrame f⟩
      · exact .inr ⟨hmoving, by rwa [hcur], n, m, t, c, hcounts.storeFrame f, hat.storeFrame f⟩

/-- A poll that comes while `g_rx_cur` is about to move finds nothing. -/
theorem clear_at_cur {p : PollPc} (h : r.Counts n m t c) (hat : r.At n m t c p) (hp : Moving p) :
    (r.desc r.rxCur).dd = false := by
  have hm : m = n + 1 ∧ n ≤ t := by
    rcases hp with rfl | rfl | ⟨v, rfl⟩
    · exact ⟨hat.1, hat.2.1.ge⟩
    · exact ⟨hat.1, by rw [hat.2.1]; omega⟩
    · exact ⟨hat.2.1, by rw [hat.2.2.1]; omega⟩
  have hroom := h.room
  have hback := h.back
  have hcur : r.rxCur = (n + 64) % 64 := by
    rw [h.cur]
    omega
  rw [hcur]
  exact h.free (n + 64) (by omega) (by omega)

theorem pollStep_runs (r : RxRing) (pc : PollPc) : (r.pollStep pc).1.main = r.main ∧ (r.pollStep pc).1.irq = r.irq := by
  cases pc <;> exact ⟨rfl, rfl⟩

/-- An interrupt that comes with no frame in hand. -/
theorem InPlace.interrupted (h : r.InPlace) (hirq : r.irq = none) (hhand : ¬ r.InHand) :
    r.Placed (some .head) r.main := by
  unfold InPlace at h
  rw [hirq] at h
  cases hmain : r.main with
  | none =>
    rw [hmain] at h
    obtain ⟨n, hcounts⟩ := h
    exact ⟨n, n, n, n, hcounts, ⟨rfl, rfl, rfl⟩, fun d hd => by cases hd⟩
  | some p =>
    rw [hmain] at h
    obtain ⟨n, m, t, c, hcounts, hat⟩ := h
    have hsides : Between p ∨ Moving p := by
      cases p with
      | head => exact .inl (.inl rfl)
      | status d => exact .inl (.inr ⟨d, rfl⟩)
      | length d => exact absurd ⟨d, .inl hmain⟩ hhand
      | deliver d => exact absurd ⟨d, .inr (.inl hmain)⟩ hhand
      | clear d => exact absurd ⟨d, .inr (.inr hmain)⟩ hhand
      | rdt => exact .inr (.inl rfl)
      | load => exact .inr (.inr (.inl rfl))
      | store v => exact .inr (.inr (.inr ⟨v, rfl⟩))
    rcases hsides with hbetween | hmoving
    · obtain ⟨rfl, rfl, rfl⟩ := hat.between hbetween
      exact .inl ⟨hbetween, c, c, c, c, hcounts, ⟨rfl, rfl, rfl⟩, fun d hd => by cases hd⟩
    · exact .inr ⟨hmoving, .inl rfl, n, m, t, c, hcounts, hat⟩

/-- A statement of the run in an interrupt. -/
theorem InPlace.polled_irq {q : PollPc} (h : r.InPlace) (hirq : r.irq = some q) :
    (r.pollStep q).1.Placed (r.pollStep q).2 r.main := by
  unfold InPlace at h
  rw [hirq] at h
  have hafter : r.Left (some q) → Left (r.pollStep q).1 (r.pollStep q).2 := by
    rintro ⟨n, m, t, c, hcounts, hat, hstatus⟩
    exact pollStep_left hcounts hat fun d hd hne => absurd (hstatus d hd) hne
  cases hmain : r.main with
  | none =>
    rw [hmain] at h
    exact (hafter h).placed_irq
  | some p =>
    rw [hmain] at h
    rcases h with ⟨hbetween, hleft⟩ | ⟨hmoving, rfl | rfl, n, m, t, c, hcounts, hat⟩
    · have hnext := hafter hleft
      cases hpc : (r.pollStep q).2 with
      | none =>
        rw [hpc] at hnext
        obtain ⟨n, hcounts⟩ := hnext
        exact ⟨n, n, n, n, hcounts, .of_between hbetween⟩
      | some q' =>
        rw [hpc] at hnext
        exact .inl ⟨hbetween, hnext⟩
    · exact .inr ⟨hmoving, .inr rfl, n, m, t, c, hcounts, hat⟩
    · have hdd := clear_at_cur hcounts hat hmoving
      unfold pollStep
      dsimp only
      rw [if_neg (by rw [hdd]; decide)]
      exact ⟨n, m, t, c, hcounts, hat⟩

theorem InPlace.step (h : r.InPlace) {e : RxEvent} (hok : r.Sound e) : (r.step e).InPlace := by
  cases e with
  | frame f =>
    have hplaced := Placed.storeFrame h f
    have hruns : (r.storeFrame f).irq = r.irq ∧ (r.storeFrame f).main = r.main := by
      unfold RxRing.storeFrame
      split <;> exact ⟨rfl, rfl⟩
    unfold InPlace RxRing.step
    rw [hruns.1, hruns.2]
    exact hplaced
  | call =>
    unfold RxRing.step
    dsimp only
    split
    · next hidle =>
      unfold InPlace at h
      rw [hidle.1, hidle.2] at h
      obtain ⟨n, hcounts⟩ := h
      have hplaced : r.Placed none (some .head) := ⟨n, n, n, n, hcounts, rfl, rfl, rfl⟩
      have hinv := hplaced.runs
      rwa [← hidle.1] at hinv
    · exact h
  | mainStep =>
    unfold RxRing.step
    dsimp only
    split
    · next pc hirq hmain =>
      unfold InPlace at h
      rw [hirq, hmain] at h
      obtain ⟨n, m, t, c, hcounts, hat⟩ := h
      have hleft := pollStep_left hcounts hat fun d hd hne => hok d hirq (by rw [hmain, hd]) hne
      have hinv := hleft.placed.runs
      rwa [← hirq, ← (r.pollStep_runs pc).2] at hinv
    · exact h
  | irq =>
    unfold RxRing.step
    dsimp only
    split
    · next hirq =>
      exact (h.interrupted hirq (hok hirq)).runs
    · exact h
  | irqStep =>
    unfold RxRing.step
    dsimp only
    split
    · next q hirq =>
      have hinv := (h.polled_irq hirq).runs
      rwa [← (r.pollStep_runs q).1] at hinv
    · exact h

theorem Counts.exact (h : r.Counts n m t c) (hidle : r.irq = none → r.main = none → c = n) : r.Exact := by
  have hroom := h.room
  have htaken := h.taken
  have hback := h.back
  refine ⟨c, h.handed.2, h.delivered, fun a f ha hf => ?_, fun hirq hmain => ?_⟩
  · have hlt : a < r.stored.length := (List.getElem?_eq_some_iff.mp hf).1
    have hm := h.handed.1
    refine ⟨h.waiting a f (by omega) hf, ?_⟩
    -- the descriptors that the controller owns come after all the waiting ones, up to one round
    rintro ⟨i, hi, heq⟩
    rw [h.rdt, h.rdh] at hi
    rw [h.rdh] at heq
    change i < ((63 + t) % 64 + 64 - r.stored.length % 64) % 64 at hi
    change a % 64 = (r.stored.length % 64 + i) % 64 at heq
    omega
  · rw [hidle hirq hmain]
    exact h.cur

theorem InPlace.exact (h : r.InPlace) : r.Exact := by
  unfold InPlace at h
  cases hirq : r.irq with
  | none =>
    cases hmain : r.main with
    | none =>
      rw [hirq, hmain] at h
      obtain ⟨n, hcounts⟩ := h
      exact hcounts.exact fun _ _ => rfl
    | some p =>
      rw [hirq, hmain] at h
      obtain ⟨n, m, t, c, hcounts, -⟩ := h
      exact hcounts.exact fun _ hnone => by simp [hmain] at hnone
  | some q =>
    have hbusy : ∀ {n c : ℕ}, r.irq = none → r.main = none → c = n := by
      intro _ _ hnone
      simp [hirq] at hnone
    cases hmain : r.main with
    | none =>
      rw [hirq, hmain] at h
      obtain ⟨n, m, t, c, hcounts, -⟩ := h
      exact hcounts.exact hbusy
    | some p =>
      rw [hirq, hmain] at h
      rcases h with ⟨-, n, m, t, c, hcounts, -⟩ | ⟨-, -, n, m, t, c, hcounts, -⟩
      · exact hcounts.exact hbusy
      · exact hcounts.exact hbusy

end RxRing

end EdgeOS
