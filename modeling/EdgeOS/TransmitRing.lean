import Mathlib.Data.List.Pairwise
import EdgeOS.IcmpPackets
import EdgeOS.Lib.CycleRing
import EdgeOS.Lib.Runs

namespace EdgeOS

open Lib Function List

/-!
The transmit ring of `src/drivers/e1000/e1000.c`: the two halves of `e1000_send_frame`, before and after it waits for
the card, and a controller that fetches descriptors, sends frames and writes DD back at any moment, or never.
-/

/-- `E1000_TX_DESC_COUNT`, `E1000_TX_BUF_SIZE`. -/
abbrev e1000TxDescCount : ℕ := 16
abbrev e1000TxBufSize : ℕ := 2048

/-- What of a descriptor changes, with its DD bit. -/
structure TxDesc where
  length : ℕ := 0
  cmd : UInt8 := 0
  dd : Bool := true

/-- The ring after `e1000_init`, the registers and what the controller does: `fetched` are the descriptors that it has
read and whose frames it sends next, `sent` those that wait for their DD. `call` is the descriptor that a call waits
for. `frames` and `results` are the frames of all calls and what the calls returned, `queue` the calls that have queued
their frames. -/
structure TxRing where
  ready : Bool := true
  desc : ℕ → TxDesc := fun _ => {}
  buf : ℕ → Bytes := fun _ => zeros e1000TxBufSize
  cur : ℕ := 0
  tdh : ℕ := 0
  tdt : ℕ := 0
  call : Option ℕ := none
  fetched : List (ℕ × TxDesc) := []
  sent : ℕ → Bool := fun _ => false
  wire : List Bytes := []
  frames : List Bytes := []
  results : List ℤ := []
  queue : List ℕ := []

inductive TxEvent
  | send (frame : Bytes)
  | finish
  | fetch
  | transmit
  | writeBack (i : ℕ)

def padded (frame : Bytes) : Bytes := frame ++ zeros (60 - frame.length)

namespace TxRing

variable (s : TxRing)

/-- `e1000_send_frame` up to its loop. -/
def sendFrame (frame : Bytes) : TxRing :=
  let s := { s with frames := s.frames ++ [frame] }
  if s.ready = false ∨ frame.length = 0 ∨ frame.length > e1000TxBufSize then { s with results := s.results ++ [-1] }
  else if (s.desc s.cur).dd = false then { s with results := s.results ++ [-1] }
  else
    let wireLen := if frame.length < 60 then 60 else frame.length
    let b := patch (s.buf s.cur) 0 frame
    let b := if wireLen > frame.length then patch b frame.length (zeros (wireLen - frame.length)) else b
    { s with
      buf := Function.update s.buf s.cur b
      desc := Function.update s.desc s.cur { length := wireLen, cmd := 0x0B, dd := false }
      tdt := (s.cur + 1) % e1000TxDescCount
      cur := (s.cur + 1) % e1000TxDescCount
      call := some s.cur
      queue := s.queue ++ [s.results.length] }

def finishCall : TxRing :=
  match s.call with
  | none => s
  | some i => { s with call := none, results := s.results ++ [if (s.desc i).dd then 0 else -1] }

def step : TxEvent → TxRing
  | .send frame => if s.call = none then s.sendFrame frame else s
  | .finish => s.finishCall
  | .fetch =>
    if s.tdh = s.tdt then s
    else { s with fetched := s.fetched ++ [(s.tdh, s.desc s.tdh)], tdh := (s.tdh + 1) % e1000TxDescCount }
  | .transmit =>
    match s.fetched with
    | [] => s
    | (i, d) :: rest =>
      { s with
        wire := s.wire ++ [bytesAt (s.buf i) 0 d.length]
        fetched := rest
        sent := Function.update s.sent i true }
  | .writeBack i =>
    if s.sent i then
      { s with desc := Function.update s.desc i { s.desc i with dd := true }, sent := Function.update s.sent i false }
    else s

def sentCalls : List ℕ := s.queue.take s.wire.length

def frameOf (n : ℕ) : Bytes := s.frames.getD n []

/-- A frame in this descriptor has not been sent, or its DD has not been written. -/
def Unfinished (i : ℕ) : Prop :=
  (∃ k, s.wire.length ≤ k ∧ k < s.queue.length ∧ k % e1000TxDescCount = i) ∨ s.sent i = true

/-- Every frame that is sent is that of a call, padded, in the order of the calls and once; and so is every frame whose
call returned zero. -/
structure Delivers : Prop where
  wire : s.wire = s.sentCalls.map fun n => padded (s.frameOf n)
  order : s.sentCalls.Pairwise (· < ·)
  accepted : ∀ n, s.results[n]? = some 0 → n ∈ s.sentCalls

/-- The driver keeps its hands off what the controller works on. -/
def LeavesUnfinished (s' : TxRing) : Prop := ∀ i, s.Unfinished i → s'.desc i = s.desc i ∧ s'.buf i = s.buf i

/-- What holds of the descriptors; `k` counts the frames that were queued. -/
structure RingSound : Prop where
  cur : s.cur = s.queue.length % e1000TxDescCount
  tdt : s.tdt = s.queue.length % e1000TxDescCount
  tdh : s.tdh = (s.wire.length + s.fetched.length) % e1000TxDescCount
  heads : s.wire.length + s.fetched.length ≤ s.queue.length
  room : s.queue.length ≤ s.wire.length + e1000TxDescCount
  ahead : ∀ j (hj : j < s.fetched.length), (s.fetched[j]).1 = (s.wire.length + j) % e1000TxDescCount ∧
    ∃ n, s.queue[s.wire.length + j]? = some n ∧ (s.fetched[j]).2.length = (padded (s.frameOf n)).length
  slots : ∀ k n, s.queue[k]? = some n → s.queue.length ≤ k + e1000TxDescCount →
    (s.desc (k % e1000TxDescCount)).length = (padded (s.frameOf n)).length ∧
      bytesAt (s.buf (k % e1000TxDescCount)) 0 (padded (s.frameOf n)).length = padded (s.frameOf n) ∧
      ((s.desc (k % e1000TxDescCount)).dd = true → k < s.wire.length)
  sizes : ∀ i, (s.buf i).length = e1000TxBufSize
  sent : ∀ i, s.sent i = true → (s.desc i).dd = false ∧
    ∃ k < s.wire.length, s.queue.length ≤ k + e1000TxDescCount ∧ k < s.queue.length ∧ k % e1000TxDescCount = i
  order : s.queue.Pairwise (· < ·)
  wire : s.wire = s.sentCalls.map fun n => padded (s.frameOf n)
  accepted : ∀ n, s.results[n]? = some 0 → n ∈ s.sentCalls
  idle : s.call = none → s.frames.length = s.results.length ∧ ∀ n ∈ s.queue, n < s.results.length
  busy : ∀ i, s.call = some i → s.frames.length = s.results.length + 1 ∧ ∃ old, s.queue = old ++ [s.results.length] ∧
    i = old.length % e1000TxDescCount ∧ ∀ n ∈ old, n < s.results.length

section Frames

variable {frame b : Bytes}

theorem padded_length : (padded frame).length = if frame.length < 60 then 60 else frame.length := by
  have hzeros : (zeros (60 - frame.length)).length = 60 - frame.length := length_replicate
  unfold padded
  rw [length_append, hzeros]
  split <;> omega

theorem stored_frame (hlen : frame.length ≤ e1000TxBufSize) (hb : b.length = e1000TxBufSize) {wireLen : ℕ} {b' : Bytes}
    (hwire : wireLen = if frame.length < 60 then 60 else frame.length)
    (hb' : b' = if wireLen > frame.length then patch (patch b 0 frame) frame.length (zeros (wireLen - frame.length))
      else patch b 0 frame) :
    b'.length = e1000TxBufSize ∧ bytesAt b' 0 (padded frame).length = padded frame := by
  have hbuf : e1000TxBufSize = 2048 := rfl
  have hfirst : (patch b 0 frame).length = e1000TxBufSize := by rw [length_patch (by omega), hb]
  have htake : (patch b 0 frame).take frame.length = frame := by
    have h := @take_patch b frame 0 (Nat.zero_le _)
    rwa [Nat.zero_add, take_zero, nil_append] at h
  have hzeros : (zeros (60 - frame.length)).length = 60 - frame.length := length_replicate
  rw [padded_length, ← hwire]
  unfold bytesAt padded
  rw [drop_zero]
  by_cases hshort : frame.length < 60
  · rw [if_pos hshort] at hwire
    subst hwire
    rw [if_pos hshort] at hb'
    have hsecond := @take_patch (patch b 0 frame) (zeros (60 - frame.length)) frame.length (by omega)
    rw [hzeros, Nat.add_sub_cancel' hshort.le, htake] at hsecond
    rw [hb']
    exact ⟨by rw [length_patch (by omega), hfirst], hsecond⟩
  rw [if_neg hshort] at hwire
  rw [if_neg (by omega)] at hb'
  have hnone : zeros (60 - frame.length) = [] := by
    rw [Nat.sub_eq_zero_of_le (by omega)]
    rfl
  rw [hb', hnone, append_nil, hwire]
  exact ⟨hfirst, htake⟩

end Frames

section Steps

variable {s : TxRing}

theorem frameOf_append {n : ℕ} (hn : n < s.frames.length) (frame : Bytes) :
    (s.frames ++ [frame]).getD n [] = s.frameOf n := by
  unfold frameOf
  rw [getD_append _ _ _ _ hn]

theorem inv_init (ready : Bool) : ({ ready := ready } : TxRing).RingSound where
  cur := rfl
  tdt := rfl
  tdh := rfl
  heads := le_rfl
  room := Nat.zero_le _
  ahead := fun j hj => absurd hj (Nat.not_lt_zero j)
  slots := fun _ _ hk => nomatch hk
  sizes := fun _ => length_replicate
  sent := fun _ hi => absurd hi Bool.false_ne_true
  order := List.Pairwise.nil
  wire := rfl
  accepted := fun _ hn => nomatch hn
  idle := fun _ => ⟨rfl, fun _ hn => absurd hn not_mem_nil⟩
  busy := fun _ hi => nomatch hi

theorem RingSound.frame_kept (h : s.RingSound) (hcall : s.call = none) (frame : Bytes) {n : ℕ} (hn : n ∈ s.queue) :
    (s.frames ++ [frame]).getD n [] = s.frameOf n := by
  obtain ⟨hlen, hqueue⟩ := h.idle hcall
  exact frameOf_append (hlen ▸ hqueue n hn) frame

theorem RingSound.refused (h : s.RingSound) (hcall : s.call = none) (frame : Bytes) :
    RingSound { s with frames := s.frames ++ [frame], results := s.results ++ [-1] } := by
  obtain ⟨hlen, hqueue⟩ := h.idle hcall
  have hkept : ∀ {n}, n ∈ s.queue → _ := fun hn => h.frame_kept hcall frame hn
  refine { h with ahead := ?_, slots := ?_, wire := ?_, accepted := ?_, idle := ?_, busy := ?_ }
  · intro j hj
    obtain ⟨hidx, n, hn, hl⟩ := h.ahead j hj
    refine ⟨hidx, n, hn, ?_⟩
    show _ = (padded ((s.frames ++ [frame]).getD n [])).length
    rw [hkept (mem_of_getElem? hn), hl]
  · intro k n hk hlap
    show (_ = (padded ((s.frames ++ [frame]).getD n [])).length) ∧
      bytesAt _ 0 (padded ((s.frames ++ [frame]).getD n [])).length = padded ((s.frames ++ [frame]).getD n []) ∧ _
    rw [hkept (mem_of_getElem? hk)]
    exact h.slots k n hk hlap
  · exact h.wire.trans (map_congr_left fun n hn => congrArg padded (hkept (mem_of_mem_take hn)).symm)
  · intro n hn
    rcases Nat.lt_or_ge n s.results.length with hlt | hge
    · exact h.accepted n (by rwa [getElem?_append_left hlt] at hn)
    rw [getElem?_append_right hge] at hn
    cases hpos : n - s.results.length with
    | zero => rw [hpos] at hn; cases hn
    | succ m => rw [hpos] at hn; cases hn
  · intro _
    refine ⟨by simp [hlen], fun n hn => ?_⟩
    have := hqueue n hn
    show n < (s.results ++ [-1]).length
    rw [length_append]
    omega
  · intro i hi
    rw [show s.call = some i from hi] at hcall
    cases hcall

/-- The slot that is filled next has no frame that is still to be sent. -/
theorem RingSound.next_slot (h : s.RingSound) (hdd : (s.desc s.cur).dd = true) :
    s.queue.length < s.wire.length + e1000TxDescCount := by
  by_contra hfull
  have hroom := h.room
  have hpos : 0 < e1000TxDescCount := by decide
  have hk : s.wire.length < s.queue.length := by omega
  have hslot : s.wire.length % e1000TxDescCount = s.cur := by
    rw [h.cur, show s.queue.length = s.wire.length + e1000TxDescCount by omega, Nat.add_mod_right]
  have hsent := (h.slots s.wire.length _ (getElem?_eq_getElem hk) (by omega)).2.2
  rw [hslot] at hsent
  exact absurd (hsent hdd) (lt_irrefl _)

theorem snoc_getElem? {l : List ℕ} {x k n : ℕ} (h : (l ++ [x])[k]? = some n) :
    l[k]? = some n ∨ k = l.length ∧ n = x := by
  rcases Nat.lt_trichotomy k l.length with hlt | heq | hgt
  · exact Or.inl (by rwa [getElem?_append_left hlt] at h)
  · subst heq
    rw [getElem?_concat_length] at h
    exact Or.inr ⟨rfl, (Option.some.inj h).symm⟩
  · rw [getElem?_eq_none (by rw [length_append, length_singleton]; omega)] at h
    cases h

theorem getElem?_snoc {l : List ℕ} {k n : ℕ} (x : ℕ) (h : l[k]? = some n) : (l ++ [x])[k]? = some n := by
  obtain ⟨hk, -⟩ := List.getElem?_eq_some_iff.mp h
  rwa [getElem?_append_left hk]

theorem RingSound.queued (h : s.RingSound) (hcall : s.call = none) {frame : Bytes} (hlen : frame.length ≤ e1000TxBufSize)
    (hdd : (s.desc s.cur).dd = true) {wireLen : ℕ} {b : Bytes}
    (hwire : wireLen = if frame.length < 60 then 60 else frame.length)
    (hb : b = if wireLen > frame.length then patch (patch (s.buf s.cur) 0 frame) frame.length
      (zeros (wireLen - frame.length)) else patch (s.buf s.cur) 0 frame) :
    RingSound { s with
      frames := s.frames ++ [frame]
      buf := update s.buf s.cur b
      desc := update s.desc s.cur { length := wireLen, cmd := 0x0B, dd := false }
      tdt := (s.cur + 1) % e1000TxDescCount
      cur := (s.cur + 1) % e1000TxDescCount
      call := some s.cur
      queue := s.queue ++ [s.results.length] } := by
  obtain ⟨hlens, hqueue⟩ := h.idle hcall
  obtain ⟨hsize, hstored⟩ := stored_frame hlen (h.sizes s.cur) hwire hb
  have hkept : ∀ {n}, n ∈ s.queue → _ := fun hn => h.frame_kept hcall frame hn
  have hnew : (s.frames ++ [frame]).getD s.results.length [] = frame := by
    rw [← hlens, getD_append_right _ _ _ _ le_rfl, Nat.sub_self]
    rfl
  have hspace := h.next_slot hdd
  have hcur := h.cur
  have hlonger : (s.queue ++ [s.results.length]).length = s.queue.length + 1 := by
    rw [length_append, length_singleton]
  have hnext : (s.cur + 1) % e1000TxDescCount = (s.queue ++ [s.results.length]).length % e1000TxDescCount := by
    rw [hcur, Nat.mod_add_mod, hlonger]
  have hsent : s.wire.length ≤ s.queue.length := by
    have := h.heads
    omega
  -- the other slots of this lap are not the one that is filled
  have hother : ∀ {k}, k < s.queue.length → s.queue.length + 1 ≤ k + e1000TxDescCount →
      k % e1000TxDescCount ≠ s.cur := by
    intro k hk hlap
    rw [hcur]
    exact mod_ne_of_lt_add hk (by omega)
  constructor
  case cur => exact hnext
  case tdt => exact hnext
  case tdh => exact h.tdh
  case heads => exact h.heads.trans (by rw [hlonger]; omega)
  case room => exact hlonger.le.trans hspace
  case ahead =>
    intro j hj
    obtain ⟨hidx, n, hn, hl⟩ := h.ahead j hj
    refine ⟨hidx, n, getElem?_snoc _ hn, ?_⟩
    show _ = (padded ((s.frames ++ [frame]).getD n [])).length
    rw [hkept (mem_of_getElem? hn), hl]
  case slots =>
    intro k n hk hlap
    show (update s.desc s.cur _ (k % e1000TxDescCount)).length = (padded ((s.frames ++ [frame]).getD n [])).length ∧
      bytesAt (update s.buf s.cur b (k % e1000TxDescCount)) 0
        (padded ((s.frames ++ [frame]).getD n [])).length = padded ((s.frames ++ [frame]).getD n []) ∧
      ((update s.desc s.cur _ (k % e1000TxDescCount)).dd = true → k < s.wire.length)
    replace hlap : s.queue.length + 1 ≤ k + e1000TxDescCount := hlonger ▸ hlap
    rcases snoc_getElem? hk with hold | ⟨rfl, rfl⟩
    · obtain ⟨hlt, -⟩ := List.getElem?_eq_some_iff.mp hold
      rw [update_of_ne (hother hlt hlap), update_of_ne (hother hlt hlap), hkept (mem_of_getElem? hold)]
      exact h.slots k n hold (by omega)
    · rw [← hcur, update_self, update_self, hnew]
      exact ⟨hwire.trans padded_length.symm, hstored, fun hfalse => absurd hfalse Bool.false_ne_true⟩
  case sizes =>
    intro i
    show (update s.buf s.cur b i).length = e1000TxBufSize
    by_cases hi : i = s.cur
    · rw [hi, update_self, hsize]
    · rw [update_of_ne hi, h.sizes i]
  case sent =>
    intro i hi
    obtain ⟨hfalse, k, hk, hlap, hlt, hmod⟩ := h.sent i hi
    have hne : i ≠ s.cur := by
      rintro rfl
      exact absurd (hfalse.symm.trans hdd) Bool.false_ne_true
    refine ⟨?_, k, hk, ?_, ?_, hmod⟩
    · show (update s.desc s.cur _ i).dd = false
      rw [update_of_ne hne, hfalse]
    · show (s.queue ++ [s.results.length]).length ≤ k + e1000TxDescCount
      rw [hlonger]
      by_contra hlast
      -- the slot of a frame of one lap ago is the one that is filled
      have hsame : k % e1000TxDescCount = s.cur := by
        rw [hcur, show s.queue.length = k + e1000TxDescCount by omega, Nat.add_mod_right]
      exact hne (hmod.symm.trans hsame)
    · show k < (s.queue ++ [s.results.length]).length
      omega
  case order =>
    show (s.queue ++ [s.results.length]).Pairwise (· < ·)
    rw [pairwise_append]
    exact ⟨h.order, pairwise_singleton _ _, fun n hn m hm => mem_singleton.mp hm ▸ hqueue n hn⟩
  case wire =>
    show s.wire = ((s.queue ++ [s.results.length]).take s.wire.length).map fun n =>
      padded ((s.frames ++ [frame]).getD n [])
    rw [take_append_of_le_length hsent]
    exact h.wire.trans (map_congr_left fun n hn => congrArg padded (hkept (mem_of_mem_take hn)).symm)
  case accepted =>
    intro n hn
    show n ∈ (s.queue ++ [s.results.length]).take s.wire.length
    rw [take_append_of_le_length hsent]
    exact h.accepted n hn
  case idle => exact fun hnone => nomatch hnone
  case busy =>
    intro i hi
    rw [← Option.some.inj hi]
    exact ⟨by rw [length_append, hlens, length_singleton], s.queue, rfl, hcur, hqueue⟩

/-- With its DD the frame of a call is sent, and so are all before it. -/
theorem RingSound.call_sent (h : s.RingSound) {i : ℕ} (hcall : s.call = some i) (hdd : (s.desc i).dd = true) :
    s.queue.length ≤ s.wire.length := by
  obtain ⟨-, old, hqueue, hi, -⟩ := h.busy i hcall
  have hlast : s.queue[old.length]? = some s.results.length := by rw [hqueue, getElem?_concat_length]
  have hlength : s.queue.length = old.length + 1 := by rw [hqueue, length_append, length_singleton]
  have hslot := (h.slots old.length _ hlast (hlength ▸ Nat.add_le_add_left (by decide) _)).2.2
  rw [← hi] at hslot
  exact hlength ▸ hslot hdd

theorem RingSound.finish (h : s.RingSound) : s.finishCall.RingSound := by
  unfold finishCall
  cases hcall : s.call with
  | none => exact h
  | some i =>
    obtain ⟨hlen, old, hqueue, -, hold⟩ := h.busy i hcall
    refine { h with accepted := ?_, idle := ?_, busy := fun _ hnone => nomatch hnone }
    · intro n hn
      rcases Nat.lt_trichotomy n s.results.length with hlt | heq | hgt
      · exact h.accepted n (by rwa [getElem?_append_left hlt] at hn)
      · subst heq
        rw [getElem?_concat_length] at hn
        have hdd : (s.desc i).dd = true := by
          by_contra hfalse
          rw [if_neg hfalse] at hn
          cases hn
        show s.results.length ∈ s.queue.take s.wire.length
        rw [take_of_length_le (h.call_sent hcall hdd), hqueue]
        exact mem_append_right _ mem_cons_self
      · rw [getElem?_eq_none (by rw [length_append, length_singleton]; omega)] at hn
        cases hn
    · intro _
      have hlonger : ∀ r : ℤ, (s.results ++ [r]).length = s.results.length + 1 := fun r => by
        rw [length_append, length_singleton]
      refine ⟨hlen.trans (hlonger _).symm, fun n hn => ?_⟩
      rw [hlonger]
      rw [hqueue] at hn
      rcases mem_append.mp hn with hn | hn
      · exact (hold n hn).trans (Nat.lt_succ_self _)
      · rw [mem_singleton.mp hn]
        exact Nat.lt_succ_self _

theorem RingSound.fetch (h : s.RingSound) (hne : s.tdh ≠ s.tdt) :
    RingSound { s with fetched := s.fetched ++ [(s.tdh, s.desc s.tdh)], tdh := (s.tdh + 1) % e1000TxDescCount } := by
  have hlt : s.wire.length + s.fetched.length < s.queue.length := by
    apply lt_of_le_of_ne h.heads
    intro heq
    rw [h.tdh, h.tdt, heq] at hne
    exact hne rfl
  have hlonger : (s.fetched ++ [(s.tdh, s.desc s.tdh)]).length = s.fetched.length + 1 := by
    rw [length_append, length_singleton]
  refine { h with tdh := ?_, heads := ?_, ahead := ?_ }
  · show (s.tdh + 1) % e1000TxDescCount = (s.wire.length + (s.fetched ++ [(s.tdh, s.desc s.tdh)]).length) %
      e1000TxDescCount
    rw [hlonger, h.tdh, Nat.mod_add_mod, Nat.add_assoc]
  · show s.wire.length + (s.fetched ++ [(s.tdh, s.desc s.tdh)]).length ≤ s.queue.length
    omega
  · intro j hj
    show ((s.fetched ++ [(s.tdh, s.desc s.tdh)])[j]).1 = _ ∧ ∃ n, _ ∧
      ((s.fetched ++ [(s.tdh, s.desc s.tdh)])[j]).2.length = _
    rcases Nat.lt_or_ge j s.fetched.length with hold | hge
    · rw [getElem_append_left hold]
      exact h.ahead j hold
    obtain rfl : j = s.fetched.length := by
      have : j < (s.fetched ++ [(s.tdh, s.desc s.tdh)]).length := hj
      omega
    rw [getElem_concat_length rfl]
    have hget := getElem?_eq_getElem hlt
    have hslot := (h.slots _ _ hget (by have := h.room; omega)).1
    rw [← h.tdh] at hslot
    exact ⟨h.tdh, _, hget, hslot⟩

theorem RingSound.transmit (h : s.RingSound) {i : ℕ} {d : TxDesc} {rest : List (ℕ × TxDesc)}
    (hfetched : s.fetched = (i, d) :: rest) :
    RingSound { s with
      wire := s.wire ++ [bytesAt (s.buf i) 0 d.length], fetched := rest, sent := update s.sent i true } := by
  have hcount : s.fetched.length = rest.length + 1 := by rw [hfetched, length_cons]
  obtain ⟨hidx, n, hn, hl⟩ := h.ahead 0 (by omega)
  simp only [hfetched, getElem_cons_zero, Nat.add_zero] at hidx hn hl
  have hroom := h.room
  have hheads := h.heads
  obtain ⟨-, hbytes, hdd⟩ := h.slots _ n hn hroom
  rw [← hidx] at hbytes hdd
  have hlonger : ∀ b : Bytes, (s.wire ++ [b]).length = s.wire.length + 1 := fun b => by
    rw [length_append, length_singleton]
  have htake : s.queue.take (s.wire.length + 1) = s.sentCalls ++ [n] := by
    rw [take_add_one, hn]
    rfl
  refine { h with tdh := ?_, heads := ?_, room := ?_, ahead := ?_, slots := ?_, sent := ?_, wire := ?_, accepted := ?_ }
  · show s.tdh = ((s.wire ++ [_]).length + rest.length) % e1000TxDescCount
    rw [hlonger, h.tdh, hcount, Nat.add_assoc, Nat.add_comm 1]
  · show (s.wire ++ [_]).length + rest.length ≤ s.queue.length
    rw [hlonger]
    omega
  · show s.queue.length ≤ (s.wire ++ [_]).length + e1000TxDescCount
    rw [hlonger]
    omega
  · intro j hj
    dsimp only at hj ⊢
    have hold := h.ahead (j + 1) (by omega)
    simp only [hfetched, getElem_cons_succ] at hold
    rw [hlonger, Nat.add_assoc, Nat.add_comm 1]
    exact hold
  · intro k m hk hlap
    obtain ⟨hlen, hdata, hold⟩ := h.slots k m hk hlap
    refine ⟨hlen, hdata, fun hdone => ?_⟩
    show k < (s.wire ++ [_]).length
    rw [hlonger]
    exact (hold hdone).trans (Nat.lt_succ_self _)
  · intro j hj
    dsimp only at hj ⊢
    rw [hlonger]
    by_cases hji : j = i
    · subst hji
      exact ⟨Bool.eq_false_iff.mpr fun htrue => absurd (hdd htrue) (lt_irrefl _),
        s.wire.length, Nat.lt_succ_self _, hroom, by omega, hidx.symm⟩
    · obtain ⟨hfalse, k, hk, hrest⟩ := h.sent j (by rwa [update_of_ne hji] at hj)
      exact ⟨hfalse, k, hk.trans (Nat.lt_succ_self _), hrest⟩
  · show s.wire ++ [bytesAt (s.buf i) 0 d.length] =
      (s.queue.take (s.wire ++ [_]).length).map fun n => padded (s.frameOf n)
    rw [hlonger, htake, map_append, ← h.wire, hl, hbytes]
    rfl
  · intro m hm
    show m ∈ s.queue.take (s.wire ++ [_]).length
    rw [hlonger, htake]
    exact mem_append_left _ (h.accepted m hm)

theorem RingSound.writeBack (h : s.RingSound) {i : ℕ} (hsent : s.sent i = true) : RingSound { s with
      desc := update s.desc i { s.desc i with dd := true }, sent := update s.sent i false } := by
  obtain ⟨-, k, hk, hlap, hlt, hmod⟩ := h.sent i hsent
  refine { h with slots := ?_, sent := ?_ }
  · intro j n hj hjlap
    dsimp only at hj hjlap
    obtain ⟨hjlt, -⟩ := List.getElem?_eq_some_iff.mp hj
    obtain ⟨hlen, hdata, hold⟩ := h.slots j n hj hjlap
    show (update s.desc i _ (j % e1000TxDescCount)).length = _ ∧ _ ∧
      ((update s.desc i _ (j % e1000TxDescCount)).dd = true → _)
    by_cases hji : j % e1000TxDescCount = i
    · -- one frame of the last lap lies in this slot
      have hjk : j = k := by
        by_contra hne
        rcases Nat.lt_or_gt_of_ne hne with hless | hmore
        · exact mod_ne_of_lt_add hless (by omega) (hji.trans hmod.symm)
        · exact mod_ne_of_lt_add hmore (by omega) (hmod.trans hji.symm)
      rw [hji, update_self]
      rw [hji] at hlen hdata
      exact ⟨hlen, hdata, fun _ => hjk ▸ hk⟩
    · rw [update_of_ne hji]
      exact ⟨hlen, hdata, hold⟩
  · intro j hj
    dsimp only at hj
    have hji : j ≠ i := by
      rintro rfl
      rw [update_self] at hj
      cases hj
    show (update s.desc i _ j).dd = false ∧ _
    rw [update_of_ne hji]
    exact h.sent j (by rwa [update_of_ne hji] at hj)

theorem RingSound.step (h : s.RingSound) (e : TxEvent) : (s.step e).RingSound := by
  cases e with
  | send frame =>
    dsimp only [TxRing.step]
    split
    swap
    · exact h
    rename_i hcall
    unfold sendFrame
    dsimp only
    split
    · exact h.refused hcall frame
    rename_i hok
    split
    · exact h.refused hcall frame
    rename_i hdd
    have hlen : frame.length ≤ e1000TxBufSize := not_lt.mp fun hbig => hok (Or.inr (Or.inr hbig))
    exact h.queued hcall hlen (Bool.not_eq_false _ ▸ hdd) rfl rfl
  | finish => exact h.finish
  | fetch =>
    dsimp only [TxRing.step]
    split
    · exact h
    · rename_i hne
      exact h.fetch hne
  | transmit =>
    dsimp only [TxRing.step]
    split
    · exact h
    · rename_i hfetched
      exact h.transmit hfetched
  | writeBack i =>
    dsimp only [TxRing.step]
    split
    · rename_i hsent
      exact h.writeBack hsent
    · exact h

theorem RingSound.delivers (h : s.RingSound) : s.Delivers :=
  ⟨h.wire, h.order.sublist (take_sublist _ _), h.accepted⟩

theorem RingSound.unfinished (h : s.RingSound) {i : ℕ} (hi : s.Unfinished i) : (s.desc i).dd = false := by
  rcases hi with ⟨k, hunsent, hk, hmod⟩ | hsent
  · have hslot := (h.slots k _ (getElem?_eq_getElem hk) (by have := h.room; omega)).2.2
    rw [hmod] at hslot
    exact Bool.eq_false_iff.mpr fun htrue => absurd (hslot htrue) (not_lt.mpr hunsent)
  · exact (h.sent i hsent).1

theorem RingSound.leaves (h : s.RingSound) (frame : Bytes) : s.LeavesUnfinished (s.step (.send frame)) := by
  intro i hi
  have hfalse := h.unfinished hi
  dsimp only [TxRing.step]
  split
  swap
  · exact ⟨rfl, rfl⟩
  unfold sendFrame
  dsimp only
  split
  · exact ⟨rfl, rfl⟩
  split
  · exact ⟨rfl, rfl⟩
  rename_i hdd
  have hne : i ≠ s.cur := fun heq => hdd (heq ▸ hfalse)
  exact ⟨update_of_ne hne _ _, update_of_ne hne _ _⟩

/-! ## Calls that see their DD -/

def Waits (s : TxRing) : TxEvent → Prop
  | .finish => ∀ i ∈ s.call, (s.desc i).dd = true
  | _ => True

/-- Between two calls all frames are sent, and their calls have returned zero. -/
structure Settled (s : TxRing) : Prop where
  inv : s.RingSound
  done : s.call = none → s.queue.length = s.wire.length
  returned : ∀ n ∈ s.queue, s.results[n]? = some 0 ∨ n = s.results.length ∧ s.call ≠ none

theorem settled_init (ready : Bool) : ({ ready := ready } : TxRing).Settled :=
  ⟨inv_init ready, fun _ => rfl, fun _ hn => absurd hn not_mem_nil⟩

theorem getElem?_append_some {r : ℤ} {n : ℕ} (h : s.results[n]? = some 0) : (s.results ++ [r])[n]? = some 0 := by
  obtain ⟨hn, -⟩ := List.getElem?_eq_some_iff.mp h
  rwa [getElem?_append_left hn]

theorem Settled.sendFrame (h : s.Settled) (hcall : s.call = none) (frame : Bytes) :
    (∀ n ∈ (s.sendFrame frame).queue, (s.sendFrame frame).results[n]? = some 0 ∨
      n = (s.sendFrame frame).results.length ∧ (s.sendFrame frame).call ≠ none) ∧
    ((s.sendFrame frame).call = none → (s.sendFrame frame).queue.length = (s.sendFrame frame).wire.length) := by
  have hold : ∀ n ∈ s.queue, s.results[n]? = some 0 := fun n hn =>
    (h.returned n hn).resolve_right fun hbusy => hbusy.2 hcall
  unfold TxRing.sendFrame
  dsimp only
  split
  · exact ⟨fun n hn => Or.inl (getElem?_append_some (hold n hn)), h.done⟩
  split
  · exact ⟨fun n hn => Or.inl (getElem?_append_some (hold n hn)), h.done⟩
  refine ⟨fun n hn => ?_, nofun⟩
  rcases mem_append.mp hn with hn | hn
  · exact Or.inl (hold n hn)
  · exact Or.inr ⟨mem_singleton.mp hn, nofun⟩

theorem Settled.finish (h : s.Settled) (hwaits : s.Waits .finish) : s.finishCall.Settled := by
  have hinv := h.inv.finish
  unfold finishCall at hinv ⊢
  cases hcall : s.call with
  | none => exact h
  | some i =>
    rw [hcall] at hinv
    have hdd := hwaits i hcall
    refine ⟨hinv, fun _ => ?_, fun n hn => Or.inl ?_⟩
    · have := h.inv.heads
      have := h.inv.call_sent hcall hdd
      show s.queue.length = s.wire.length
      omega
    · show (s.results ++ [if (s.desc i).dd = true then 0 else -1])[n]? = some 0
      rcases h.returned n hn with hold | ⟨rfl, -⟩
      · exact getElem?_append_some hold
      · rw [getElem?_concat_length, if_pos hdd]

theorem Settled.step (h : s.Settled) {e : TxEvent} (hwaits : s.Waits e) : (s.step e).Settled := by
  have hinv := h.inv.step e
  cases e with
  | send frame =>
    dsimp only [TxRing.step] at hinv ⊢
    split
    · rename_i hcall
      rw [if_pos hcall] at hinv
      obtain ⟨hreturned, hdone⟩ := h.sendFrame hcall frame
      exact ⟨hinv, hdone, hreturned⟩
    · exact h
  | finish => exact h.finish hwaits
  | fetch =>
    dsimp only [TxRing.step] at hinv ⊢
    split
    · exact h
    rename_i hne
    rw [if_neg hne] at hinv
    exact ⟨hinv, h.done, h.returned⟩
  | transmit =>
    dsimp only [TxRing.step] at hinv ⊢
    split
    · exact h
    rename_i i d rest hfetched
    rw [hfetched] at hinv
    refine ⟨hinv, fun hcall => ?_, h.returned⟩
    -- between two calls nothing is left to send
    have hheads := h.inv.heads
    have hdone := h.done hcall
    rw [hfetched, length_cons] at hheads
    omega
  | writeBack i =>
    dsimp only [TxRing.step] at hinv ⊢
    split
    · rename_i hsent
      rw [if_pos hsent] at hinv
      exact ⟨hinv, h.done, h.returned⟩
    · exact h

theorem Settled.refused (h : s.Settled) {n : ℕ} (hn : s.results[n]? = some (-1)) : n ∉ s.sentCalls := by
  intro hsent
  rcases h.returned n (mem_of_mem_take hsent) with hzero | ⟨rfl, -⟩
  · rw [hzero] at hn
    cases hn
  · rw [getElem?_eq_none le_rfl] at hn
    cases hn

theorem Settled.apart (h : s.Settled) (frame : Bytes) (hmoved : (s.step (.send frame)).tdt ≠ s.tdt) :
    (s.step (.send frame)).tdt ≠ (s.step (.send frame)).tdh := by
  have hheads := h.inv.heads
  dsimp only [TxRing.step] at hmoved ⊢
  split at hmoved
  swap
  · exact absurd rfl hmoved
  rename_i hcall
  rw [if_pos hcall]
  have hdone := h.done hcall
  have htdh : s.tdh = s.queue.length % e1000TxDescCount := by
    rw [h.inv.tdh]
    congr 1
    omega
  unfold TxRing.sendFrame at hmoved ⊢
  dsimp only at hmoved ⊢
  split at hmoved
  · exact absurd rfl hmoved
  rename_i hok
  rw [if_neg hok]
  split at hmoved
  · exact absurd rfl hmoved
  rename_i hdd
  rw [if_neg hdd]
  show (s.cur + 1) % e1000TxDescCount ≠ s.tdh
  rw [htdh, h.inv.cur, Nat.mod_add_mod]
  exact (mod_ne_of_lt_add (Nat.lt_succ_self _) (Nat.add_lt_add_left (by decide) _)).symm

end Steps

end TxRing

/-- In every run each frame that is sent is that of a call, each frame whose call returned zero is sent, padded, once
and in the order of the calls, and the driver leaves alone what the controller works on. In a run in which no call gives
up before its DD is there, a frame whose call returned an error is not sent, and TDT never comes up to TDH. -/
theorem transmit_ring_exact (ready : Bool) (es : List TxEvent) : let s := run TxRing.step { ready := ready } es
    s.Delivers ∧ (∀ frame, s.LeavesUnfinished (s.step (.send frame))) ∧
    (Meets TxRing.step TxRing.Waits { ready := ready } es → (∀ n, s.results[n]? = some (-1) → n ∉ s.sentCalls) ∧
      ∀ frame, (s.step (.send frame)).tdt ≠ s.tdt → (s.step (.send frame)).tdt ≠ (s.step (.send frame)).tdh) := by
  have hinv : (run TxRing.step { ready := ready } es).RingSound :=
    run_invariant (fun _ e h _ => h.step e) (TxRing.inv_init ready) (meets_of_forall (fun _ _ => trivial) _ es)
  refine ⟨hinv.delivers, hinv.leaves, fun hwaits => ?_⟩
  have hsettled : (run TxRing.step { ready := ready } es).Settled :=
    run_invariant (fun _ _ h hw => h.step hw) (TxRing.settled_init ready) hwaits
  exact ⟨fun _ hn => hsettled.refused hn, hsettled.apart⟩

/-- One frame is sent while its call waits. -/
theorem waited_frame_exact : let s := run TxRing.step {} [.send [1, 2, 3], .fetch, .transmit, .writeBack 0, .finish]
    s.Delivers ∧ (∀ n, s.results[n]? = some (-1) → n ∉ s.sentCalls) ∧
      (s.step (.send [4])).tdt ≠ (s.step (.send [4])).tdh := by
  obtain ⟨hdelivers, -, hwaits⟩ :=
    transmit_ring_exact true [.send [1, 2, 3], .fetch, .transmit, .writeBack 0, .finish]
  have hmeets : Meets TxRing.step TxRing.Waits {} [.send [1, 2, 3], .fetch, .transmit, .writeBack 0, .finish] := by
    refine ⟨trivial, trivial, trivial, trivial, ?_, trivial⟩
    rintro i ⟨⟩
    rfl
  obtain ⟨hrefused, hapart⟩ := hwaits hmeets
  exact ⟨hdelivers, hrefused, hapart [4] (by decide +kernel)⟩

/-- A frame is sent after its call has given up. -/
theorem refused_frame_sent : ¬ ∀ es : List TxEvent, let s := run TxRing.step {} es
    s.Delivers ∧ (∀ frame, s.LeavesUnfinished (s.step (.send frame))) ∧
      (∀ n, s.results[n]? = some (-1) → n ∉ s.sentCalls) ∧
      ∀ frame, (s.step (.send frame)).tdt ≠ s.tdt → (s.step (.send frame)).tdt ≠ (s.step (.send frame)).tdh := by
  intro hclaim
  obtain ⟨-, -, hrefused, -⟩ := hclaim [.send [1, 2, 3], .finish, .fetch, .transmit]
  exact hrefused 0 (by decide +kernel) (by decide +kernel)

end EdgeOS
