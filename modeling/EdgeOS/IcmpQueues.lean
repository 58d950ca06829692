import EdgeOS.IcmpPackets
import EdgeOS.Lib.Runs
import EdgeOS.Lib.SlotQueue

namespace EdgeOS

open Lib List

/-!
The queues of received ICMP messages in `src/net/lwip_stack.c`: a raw one, and one for the answers to the echo requests
of each of both protocols. A packet takes the first free slot, and a reader takes the first slot with its identifier.
-/

/-- `edge_extract_icmp_probe_id`: of an echo reply, or of the request that an error message carries. -/
def extractIcmpProbeId (icmp : Bytes) : Option UInt16 :=
  if icmp.length < 8 then none
  else if rd8 icmp 0 = 0 then some (rd16le icmp 4)
  else if rd8 icmp 0 = 3 ∨ rd8 icmp 0 = 11 then
    let inner := icmp.drop 8
    if inner.length < 20 then none
    else if rd8 inner 0 >>> 4 ≠ 4 then none
    else
      let ihl := (rd8 inner 0 &&& 0x0F).toNat * 4
      if ihl < 20 ∨ ihl + 8 > inner.length then none
      else if rd8 inner 9 ≠ 1 then none
      else some (rd16le (inner.drop ihl) 4)
  else none

def extractIcmp6ProbeId (icmp6 : Bytes) : Option UInt16 :=
  if icmp6.length < 8 then none
  else if rd8 icmp6 0 = 129 then some (rd16le icmp6 4)
  else if rd8 icmp6 0 = 1 ∨ rd8 icmp6 0 = 3 ∨ rd8 icmp6 0 = 4 then
    let inner := icmp6.drop 8
    if inner.length < 48 then none
    else if rd8 inner 0 >>> 4 ≠ 6 then none
    else if rd8 inner 6 ≠ 58 then none
    else some (rd16le (inner.drop 40) 4)
  else none

abbrev Icmp6Reply := IcmpSlot Bytes

/-- What `edge_queue_icmp6_reply` makes of the slot that it has found. -/
def fillReply6 (icmp6 src : Bytes) (idBe : UInt16) : Icmp6Reply :=
  let slot : Icmp6Reply := { used := true, idBe := idBe, src := zeros 16, len := icmp6.length }
  if slot.len > 1600 then { slot with used := false }
  else { slot with src := src, pkt := patch slot.pkt 0 icmp6 }

/-- What a receive call returns: nothing, the length that its buffer should have, or a packet. -/
inductive RecvResult (A : Type)
  | empty
  | tooSmall (len : ℕ)
  | packet (pkt : Bytes) (src : A)

section Receive

variable {A : Type}

/-- `lwip_stack_recv_icmp_packet` and its siblings. A null buffer is one that is too small. -/
def recvSlot (wanted : UInt16 → Bool) (buffer : Option ℕ) (queue : List (IcmpSlot A)) :
    RecvResult A × List (IcmpSlot A) :=
  match queue.findIdx? fun r => r.used && wanted r.idBe with
  | none => (.empty, queue)
  | some i =>
    match queue[i]? with
    | none => (.empty, queue)
    | some r =>
      if buffer.any fun size => r.len ≤ size then
        (.packet (r.pkt.take r.len) r.src, queue.set i { r with used := false })
      else (.tooSmall r.len, queue)

/-- One queue. `arrived` and `returned` are the packets that fit a slot and those that readers got, with their
identifiers. -/
structure IcmpChannel (A : Type) where
  slots : List (IcmpSlot A)
  arrived : List (UInt16 × Bytes × A) := []
  returned : List (UInt16 × Bytes × A) := []

namespace IcmpChannel

variable (c : IcmpChannel A)

def arrive (slots : List (IcmpSlot A)) (fits : Bool) (idBe : UInt16) (pkt : Bytes) (src : A) : IcmpChannel A :=
  { c with slots := slots, arrived := if fits then c.arrived ++ [(idBe, pkt, src)] else c.arrived }

def recv (wanted : UInt16 → Bool) (buffer : Option ℕ) (idBe : UInt16) : IcmpChannel A :=
  { c with
    slots := (recvSlot wanted buffer c.slots).2
    returned :=
      match (recvSlot wanted buffer c.slots).1 with
      | .packet pkt src => c.returned ++ [(idBe, pkt, src)]
      | _ => c.returned }

end IcmpChannel

end Receive

structure IcmpSys where
  raw : IcmpChannel UInt32
  reply : IcmpChannel UInt32
  reply6 : IcmpChannel Bytes

def IcmpSys.init : IcmpSys where
  raw := { slots := List.replicate 32 { src := 0 } }
  reply := { slots := List.replicate 16 { src := 0 } }
  reply6 := { slots := List.replicate 16 { src := zeros 16 } }

inductive IcmpEvent
  | arrive (icmp : Bytes) (src : UInt32)
  | arrive6 (icmp6 src : Bytes)
  | recvPacket (buffer : Option ℕ)
  | recvForId (idBe : UInt16) (buffer : Option ℕ)
  | recv6ForId (idBe : UInt16) (buffer : Option ℕ)

/-- The packet that a reader is given of an ICMP message: with a header before it. -/
def withHeader (icmp : Bytes) (src : UInt32) : Bytes := (edgeIpv4Hdr (20 + icmp.length).toUInt32 src).bytes ++ icmp

namespace IcmpSys

/-- One call of `edge_queue_icmp_reply`, of `edge_queue_icmp6_reply` or of a receive function. -/
def step (s : IcmpSys) : IcmpEvent → IcmpSys
  | .arrive icmp src =>
    if icmp.length < 8 then s
    else
      let fits := decide (20 + icmp.length ≤ 1600)
      let s := { s with
        raw := s.raw.arrive (edgeQueueIpv4IcmpPacket s.raw.slots icmp src 0) fits 0 (withHeader icmp src) src }
      match extractIcmpProbeId icmp with
      | none => s
      | some id => { s with
          reply :=
            s.reply.arrive (edgeQueueIpv4IcmpPacket s.reply.slots icmp src id) fits id (withHeader icmp src) src }
  | .arrive6 icmp6 src =>
    if icmp6.length < 8 then s
    else
      match extractIcmp6ProbeId icmp6 with
      | none => s
      | some id => { s with
          reply6 := s.reply6.arrive (s.reply6.slots.set (freeSlot s.reply6.slots) (fillReply6 icmp6 src id))
            (icmp6.length ≤ 1600) id icmp6 src }
  | .recvPacket buffer => { s with raw := s.raw.recv (fun _ => true) buffer 0 }
  | .recvForId id buffer => { s with reply := s.reply.recv (· == id) buffer id }
  | .recv6ForId id buffer => { s with reply6 := s.reply6.recv (· == id) buffer id }

end IcmpSys

/-! ## Queues in order -/

section Order

variable {A : Type} {c : IcmpChannel A} {slots : List (IcmpSlot A)} {wanted other : UInt16 → Bool} {idBe : UInt16}

/-- What a slot holds for the readers of `wanted`. -/
def IcmpSlot.holds (wanted : UInt16 → Bool) (r : IcmpSlot A) : Option (Bytes × A) :=
  if r.used && wanted r.idBe then some (r.pkt.take r.len, r.src) else none

def chosen (wanted : UInt16 → Bool) (l : List (UInt16 × Bytes × A)) : List (Bytes × A) :=
  l.filterMap fun p => if wanted p.1 then some p.2 else none

/-- The packets that were returned, and then those that wait, are the packets that arrived. -/
def IcmpChannel.Fifo (c : IcmpChannel A) (wanted : UInt16 → Bool) : Prop :=
  chosen wanted c.returned ++ c.slots.filterMap (IcmpSlot.holds wanted) = chosen wanted c.arrived

/-- An arriving packet finds a free slot, and no packet for the same readers waits behind that slot. A packet that does
not fit a slot needs a free one as well. -/
def Takes (slots : List (IcmpSlot A)) (wanted : UInt16 → Bool) (fits : Bool) : Prop :=
  (∃ r ∈ slots, r.used = false) ∧
    (fits = true → ∀ r ∈ slots.drop (freeSlot slots + 1), (r.used && wanted r.idBe) = false)

instance (slots : List (IcmpSlot A)) (wanted : UInt16 → Bool) (fits : Bool) : Decidable (Takes slots wanted fits) :=
  inferInstanceAs (Decidable (_ ∧ _))

theorem holds_none {r : IcmpSlot A} : r.holds wanted = none ↔ (r.used && wanted r.idBe) = false := by
  unfold IcmpSlot.holds
  cases r.used && wanted r.idBe
  · exact iff_of_true rfl rfl
  · exact iff_of_false nofun nofun

theorem freeSlot_free (h : ∃ r ∈ slots, r.used = false) :
    ∃ hi : freeSlot slots < slots.length, slots[freeSlot slots].used = false := by
  unfold freeSlot
  cases hfind : slots.findIdx? fun r => !r.used with
  | none =>
    obtain ⟨r, hr, hfree⟩ := h
    have := findIdx?_eq_none_iff.mp hfind r hr
    rw [hfree] at this
    cases this
  | some i =>
    obtain ⟨hi, hfree, -⟩ := findIdx?_eq_some_iff_getElem.mp hfind
    refine ⟨hi, ?_⟩
    show slots[i].used = false
    exact Bool.not_eq_true' _ ▸ hfree

theorem chosen_snoc (l : List (UInt16 × Bytes × A)) (p : UInt16 × Bytes × A) :
    chosen wanted (l ++ [p]) = chosen wanted l ++ if wanted p.1 then [p.2] else [] := by
  unfold chosen
  rw [filterMap_append, filterMap_cons, filterMap_nil]
  cases wanted p.1 <;> rfl

/-- An arrival that is taken keeps the order for all readers. -/
theorem IcmpChannel.Fifo.arrive {fits : Bool} {pkt : Bytes} {src : A} {r : IcmpSlot A} (h : c.Fifo other)
    (htakes : Takes c.slots wanted fits) (hused : r.used = fits) (hid : r.idBe = idBe)
    (hpkt : fits = true → r.pkt.take r.len = pkt ∧ r.src = src)
    (hmatch : other = wanted ∧ wanted idBe = true ∨ other idBe = false) :
    (c.arrive (c.slots.set (freeSlot c.slots) r) fits idBe pkt src).Fifo other := by
  obtain ⟨hroom, hbehind⟩ := htakes
  obtain ⟨hi, hfree⟩ := freeSlot_free hroom
  have hold : c.slots[freeSlot c.slots].holds other = none := holds_none.mpr (by rw [hfree, Bool.false_and])
  unfold Fifo IcmpChannel.arrive at *
  dsimp only
  cases fits with
  | false =>
    have hnew : r.holds other = none := holds_none.mpr (by rw [hused, Bool.false_and])
    rw [filterMap_set_same hi (hnew.trans hold.symm), if_neg Bool.false_ne_true, h]
  | true =>
    rw [if_pos rfl, chosen_snoc, ← h]
    obtain ⟨hbytes, hsrc⟩ := hpkt rfl
    rcases hmatch with ⟨rfl, hwanted⟩ | hother
    · have hnew : r.holds other = some (pkt, src) := by
        unfold IcmpSlot.holds
        rw [hused, hid, hwanted, hbytes, hsrc]
        rfl
      rw [filterMap_set_last hi hold hnew fun r hr => holds_none.mpr (hbehind rfl r hr), if_pos hwanted, append_assoc]
    · have hnew : r.holds other = none := holds_none.mpr (by rw [hid, hother, Bool.and_false])
      rw [filterMap_set_same hi (hnew.trans hold.symm), hother, if_neg Bool.false_ne_true, append_nil]

/-- A receive leaves all slots as they are, or takes the first packet that waits for its readers. -/
theorem recvSlot_cases (wanted : UInt16 → Bool) (buffer : Option ℕ) (slots : List (IcmpSlot A)) :
    (recvSlot wanted buffer slots).2 = slots ∧ (∀ pkt src, (recvSlot wanted buffer slots).1 ≠ .packet pkt src) ∨
    ∃ i, ∃ hi : i < slots.length, (slots[i].used && wanted slots[i].idBe) = true ∧
      (∀ r ∈ slots.take i, (r.used && wanted r.idBe) = false) ∧ recvSlot wanted buffer slots =
        (.packet (slots[i].pkt.take slots[i].len) slots[i].src, slots.set i { slots[i] with used := false }) := by
  unfold recvSlot
  cases hfind : slots.findIdx? fun r => r.used && wanted r.idBe with
  | none => exact Or.inl ⟨rfl, fun _ _ => nofun⟩
  | some i =>
    obtain ⟨hi, hfirst, hbefore⟩ := findIdx?_eq_some_iff_getElem.mp hfind
    dsimp only
    rw [getElem?_eq_getElem hi]
    dsimp only
    by_cases hfits : (buffer.any fun size => slots[i].len ≤ size) = true
    · refine Or.inr ⟨i, hi, hfirst, fun r hr => ?_, if_pos hfits⟩
      obtain ⟨j, hj, rfl⟩ := mem_take_iff_getElem.mp hr
      exact Bool.eq_false_iff.mpr (hbefore j (by omega))
    · rw [if_neg hfits]
      exact Or.inl ⟨rfl, fun _ _ => nofun⟩

theorem IcmpChannel.Fifo.recv {buffer : Option ℕ} (h : c.Fifo other)
    (hmatch : other = wanted ∧ wanted idBe = true ∨ other idBe = false ∧ ∀ k, wanted k = true → other k = false) :
    (c.recv wanted buffer idBe).Fifo other := by
  unfold Fifo IcmpChannel.recv at *
  rcases recvSlot_cases wanted buffer c.slots with ⟨hsame, hnone⟩ | ⟨i, hi, hfirst, hbefore, hres⟩
  · dsimp only
    rw [hsame]
    cases hout : (recvSlot wanted buffer c.slots).1 with
    | empty => exact h
    | tooSmall n => exact h
    | packet pkt src => exact absurd hout (hnone pkt src)
  rw [hres]
  dsimp only
  have hempty : ({ c.slots[i] with used := false } : IcmpSlot A).holds other = none := rfl
  rw [chosen_snoc, ← h, append_assoc]
  congr 1
  rcases hmatch with ⟨rfl, hwanted⟩ | ⟨hother, hapart⟩
  · have hholds : c.slots[i].holds other = some (c.slots[i].pkt.take c.slots[i].len, c.slots[i].src) := if_pos hfirst
    rw [filterMap_set_first hi hholds hempty fun r hr => holds_none.mpr (hbefore r hr), if_pos hwanted]
    rfl
  have hkey := hapart _ (Bool.and_eq_true_iff.mp hfirst).2
  have hholds : c.slots[i].holds other = none := holds_none.mpr (by rw [hkey, Bool.and_false])
  rw [filterMap_set_same hi (hempty.trans hholds.symm), hother, if_neg Bool.false_ne_true, nil_append]

end Order

/-! ## The slots that are filled -/

/-- A slot is used when the packet fits, and then holds it. -/
structure Filled {A : Type} (r : IcmpSlot A) (fits : Bool) (idBe : UInt16) (pkt : Bytes) (src : A) : Prop where
  used : r.used = fits
  idBe : r.idBe = idBe
  holds : fits = true → r.pkt.take r.len = pkt ∧ r.src = src

theorem fillReply_filled (icmp : Bytes) (src : UInt32) (id : UInt16) :
    Filled (fillReply icmp src id) (20 + icmp.length ≤ 1600) id (withHeader icmp src) src := by
  unfold fillReply
  dsimp only
  by_cases hbig : 20 + icmp.length > 1600
  · rw [if_pos hbig]
    exact ⟨(decide_eq_false (by omega)).symm, rfl, fun hfits => absurd (of_decide_eq_true hfits) (by omega)⟩
  rw [if_neg hbig]
  refine ⟨(decide_eq_true (by omega)).symm, rfl, fun _ => ⟨?_, rfl⟩⟩
  have hhdr : (edgeIpv4Hdr (20 + icmp.length).toUInt32 src).bytes.length = 20 := rfl
  have hzeros : (zeros 1600).length = 1600 := length_replicate
  unfold withHeader
  generalize (edgeIpv4Hdr (20 + icmp.length).toUInt32 src).bytes = hdr at hhdr ⊢
  have hinner := @take_patch (zeros 1600) hdr 0 (Nat.zero_le _)
  have hlen : (patch (zeros 1600) 0 hdr).length = 1600 := by rw [length_patch (by omega), hzeros]
  rw [Nat.zero_add, hhdr] at hinner
  show (patch (patch (zeros 1600) 0 hdr) 20 icmp).take (20 + icmp.length) = hdr ++ icmp
  rw [@take_patch (patch (zeros 1600) 0 hdr) icmp 20 (by omega), hinner, take_zero, nil_append]

theorem fillReply6_filled (icmp6 src : Bytes) (id : UInt16) :
    Filled (fillReply6 icmp6 src id) (icmp6.length ≤ 1600) id icmp6 src := by
  unfold fillReply6
  dsimp only
  by_cases hbig : icmp6.length > 1600
  · rw [if_pos hbig]
    exact ⟨(decide_eq_false (by omega)).symm, rfl, fun hfits => absurd (of_decide_eq_true hfits) (by omega)⟩
  rw [if_neg hbig]
  refine ⟨(decide_eq_true (by omega)).symm, rfl, fun _ => ⟨?_, rfl⟩⟩
  have htake := @take_patch (zeros 1600) icmp6 0 (Nat.zero_le _)
  rwa [Nat.zero_add, take_zero, nil_append] at htake

/-! ## Runs -/

namespace IcmpSys

variable {s : IcmpSys} {e : IcmpEvent}

def Admits (s : IcmpSys) : IcmpEvent → Prop
  | .arrive icmp _ => icmp.length < 8 ∨ Takes s.raw.slots (fun _ => true) (20 + icmp.length ≤ 1600) ∧
      ∀ id ∈ extractIcmpProbeId icmp, Takes s.reply.slots (· == id) (20 + icmp.length ≤ 1600)
  | .arrive6 icmp6 _ => icmp6.length < 8 ∨
      ∀ id ∈ extractIcmp6ProbeId icmp6, Takes s.reply6.slots (· == id) (icmp6.length ≤ 1600)
  | _ => True

instance (s : IcmpSys) : ∀ e, Decidable (s.Admits e)
  | .arrive icmp _ =>
    have : Decidable (∀ id ∈ extractIcmpProbeId icmp, Takes s.reply.slots (· == id) (20 + icmp.length ≤ 1600)) :=
      Option.decidableForallMem _
    inferInstanceAs (Decidable (_ ∨ _))
  | .arrive6 icmp6 _ =>
    have : Decidable (∀ id ∈ extractIcmp6ProbeId icmp6, Takes s.reply6.slots (· == id) (icmp6.length ≤ 1600)) :=
      Option.decidableForallMem _
    inferInstanceAs (Decidable (_ ∨ _))
  | .recvPacket _ | .recvForId _ _ | .recv6ForId _ _ => inferInstanceAs (Decidable True)

/-- All three queues hand out what arrived in the order of arrival: the raw one to any reader, the others to the readers
of each identifier. -/
structure Fifo (s : IcmpSys) : Prop where
  raw : s.raw.Fifo fun _ => true
  reply : ∀ id, s.reply.Fifo (· == id)
  reply6 : ∀ id, s.reply6.Fifo (· == id)

theorem matches_id (id id' : UInt16) :
    ((fun k : UInt16 => k == id') = (fun k => k == id) ∧ (id == id) = true) ∨ (id == id') = false := by
  by_cases h : id = id'
  · subst h
    exact Or.inl ⟨rfl, beq_self_eq_true id⟩
  · exact Or.inr (beq_eq_false_iff_ne.mpr h)

theorem apart (id id' : UInt16) : ((fun k : UInt16 => k == id') = (fun k => k == id) ∧ (id == id) = true) ∨
    (id == id') = false ∧ ∀ k : UInt16, (k == id) = true → (k == id') = false := by
  rcases matches_id id id' with h | h
  · exact Or.inl h
  · exact Or.inr ⟨h, fun k hk => (eq_of_beq hk).symm ▸ h⟩

theorem Fifo.step (h : s.Fifo) (hadmits : s.Admits e) : (s.step e).Fifo := by
  cases e with
  | arrive icmp src =>
    dsimp only [IcmpSys.step]
    split
    · exact h
    rename_i hlong
    obtain ⟨htakes, hreply⟩ := Or.resolve_left hadmits hlong
    have hslots : ∀ (q : List IcmpReply) id, edgeQueueIpv4IcmpPacket q icmp src id =
        q.set (freeSlot q) (fillReply icmp src id) := fun q id => if_neg hlong
    have hfill := fillReply_filled icmp src
    have hraw : (s.raw.arrive (edgeQueueIpv4IcmpPacket s.raw.slots icmp src 0) (20 + icmp.length ≤ 1600) 0
        (withHeader icmp src) src).Fifo fun _ => true := by
      rw [hslots]
      exact h.raw.arrive htakes (hfill 0).used (hfill 0).idBe (hfill 0).holds (Or.inl ⟨rfl, rfl⟩)
    cases hid : extractIcmpProbeId icmp with
    | none => exact ⟨hraw, h.reply, h.reply6⟩
    | some id =>
      refine ⟨hraw, fun id' => ?_, h.reply6⟩
      show (s.reply.arrive _ _ _ _ _).Fifo _
      rw [hslots]
      exact (h.reply id').arrive (hreply id hid) (hfill id).used (hfill id).idBe (hfill id).holds (matches_id id id')
  | arrive6 icmp6 src =>
    dsimp only [IcmpSys.step]
    split
    · exact h
    rename_i hlong
    have htakes := Or.resolve_left hadmits hlong
    cases hid : extractIcmp6ProbeId icmp6 with
    | none => exact h
    | some id =>
      have hfill := fillReply6_filled icmp6 src id
      exact ⟨h.raw, h.reply, fun id' =>
        (h.reply6 id').arrive (htakes id hid) hfill.used hfill.idBe hfill.holds (matches_id id id')⟩
  | recvPacket buffer => exact ⟨h.raw.recv (Or.inl ⟨rfl, rfl⟩), h.reply, h.reply6⟩
  | recvForId id buffer => exact ⟨h.raw, fun id' => (h.reply id').recv (apart id id'), h.reply6⟩
  | recv6ForId id buffer => exact ⟨h.raw, h.reply, fun id' => (h.reply6 id').recv (apart id id')⟩

/-- The call stores nothing and returns nothing: the packet is too large for a slot, or the buffer for the packet too
small. -/
def Refused (s : IcmpSys) : IcmpEvent → Prop
  | .arrive icmp _ => 20 + icmp.length > 1600
  | .arrive6 icmp6 _ => icmp6.length > 1600
  | .recvPacket buffer => ∃ n, (recvSlot (fun _ => true) buffer s.raw.slots).1 = .tooSmall n
  | .recvForId id buffer => ∃ n, (recvSlot (· == id) buffer s.reply.slots).1 = .tooSmall n
  | .recv6ForId id buffer => ∃ n, (recvSlot (· == id) buffer s.reply6.slots).1 = .tooSmall n

end IcmpSys

def InPlace {A : Type} (slots slots' : List (IcmpSlot A)) : Prop :=
  ∀ i : ℕ, slots'[i]?.filter (·.used) = slots[i]?.filter (·.used)

section InPlace

variable {A : Type} {slots : List (IcmpSlot A)}

theorem inPlace_refl : InPlace slots slots := fun _ => rfl

theorem inPlace_free {r : IcmpSlot A} (hroom : ∃ r ∈ slots, r.used = false) (hused : r.used = false) :
    InPlace slots (slots.set (freeSlot slots) r) := by
  intro i
  obtain ⟨hi, hfree⟩ := freeSlot_free hroom
  by_cases heq : freeSlot slots = i
  · subst heq
    rw [getElem?_set_self hi, getElem?_eq_getElem hi, Option.filter_some, Option.filter_some, hused, hfree,
      if_neg Bool.false_ne_true, if_neg Bool.false_ne_true]
  · rw [getElem?_set_ne heq]

theorem inPlace_recv {wanted : UInt16 → Bool} {buffer : Option ℕ} {n : ℕ}
    (h : (recvSlot wanted buffer slots).1 = .tooSmall n) : InPlace slots (recvSlot wanted buffer slots).2 := by
  rcases recvSlot_cases wanted buffer slots with ⟨hsame, -⟩ | ⟨i, hi, -, -, hres⟩
  · rw [hsame]
    exact inPlace_refl
  · rw [hres] at h
    cases h

end InPlace

namespace IcmpSys

variable {s : IcmpSys} {e : IcmpEvent}

structure Unmoved (s s' : IcmpSys) : Prop where
  raw : InPlace s.raw.slots s'.raw.slots
  reply : InPlace s.reply.slots s'.reply.slots
  reply6 : InPlace s.reply6.slots s'.reply6.slots

theorem refused_unmoved (hadmits : s.Admits e) (hrefused : s.Refused e) : s.Unmoved (s.step e) := by
  cases e with
  | arrive icmp src =>
    dsimp only [IcmpSys.step]
    split
    · exact ⟨inPlace_refl, inPlace_refl, inPlace_refl⟩
    rename_i hlong
    obtain ⟨htakes, hreply⟩ := Or.resolve_left hadmits hlong
    have hunused : ∀ id, (fillReply icmp src id).used = false := fun id =>
      (fillReply_filled icmp src id).used.trans (decide_eq_false (Nat.not_le.mpr hrefused))
    have hqueue : ∀ (q : List IcmpReply) id, (∃ r ∈ q, r.used = false) →
        InPlace q (edgeQueueIpv4IcmpPacket q icmp src id) := by
      intro q id hroom
      unfold edgeQueueIpv4IcmpPacket
      rw [if_neg hlong]
      exact inPlace_free hroom (hunused id)
    cases hid : extractIcmpProbeId icmp with
    | none => exact ⟨hqueue _ 0 htakes.1, inPlace_refl, inPlace_refl⟩
    | some id => exact ⟨hqueue _ 0 htakes.1, hqueue _ id (hreply id hid).1, inPlace_refl⟩
  | arrive6 icmp6 src =>
    dsimp only [IcmpSys.step]
    split
    · exact ⟨inPlace_refl, inPlace_refl, inPlace_refl⟩
    rename_i hlong
    have htakes := Or.resolve_left hadmits hlong
    cases hid : extractIcmp6ProbeId icmp6 with
    | none => exact ⟨inPlace_refl, inPlace_refl, inPlace_refl⟩
    | some id =>
      have hunused := (fillReply6_filled icmp6 src id).used.trans (decide_eq_false (Nat.not_le.mpr hrefused))
      exact ⟨inPlace_refl, inPlace_refl, inPlace_free (htakes id hid).1 hunused⟩
  | recvPacket buffer =>
    obtain ⟨n, hn⟩ := hrefused
    exact ⟨inPlace_recv hn, inPlace_refl, inPlace_refl⟩
  | recvForId id buffer =>
    obtain ⟨n, hn⟩ := hrefused
    exact ⟨inPlace_refl, inPlace_recv hn, inPlace_refl⟩
  | recv6ForId id buffer =>
    obtain ⟨n, hn⟩ := hrefused
    exact ⟨inPlace_refl, inPlace_refl, inPlace_recv hn⟩

theorem init_fifo : init.Fifo := by
  have hempty : ∀ {A : Type} (n : ℕ) (src : A) (wanted : UInt16 → Bool),
      IcmpChannel.Fifo { slots := List.replicate n { src := src } } wanted := by
    intro A n src wanted
    have hnone : (List.replicate n ({ src := src } : IcmpSlot A)).filterMap (IcmpSlot.holds wanted) = [] := by
      apply filterMap_eq_nil_iff.mpr
      intro r hr
      rw [(mem_replicate.mp hr).2]
      exact holds_none.mpr rfl
    unfold IcmpChannel.Fifo
    rw [hnone]
    rfl
  exact ⟨hempty 32 0 _, fun _ => hempty 16 0 _, fun _ => hempty 16 _ _⟩

end IcmpSys

/-- In a run in which every packet finds a place, the packets that were returned and then those that wait are, for each
queue and identifier, the arrived packets that fit a slot; and a call that refuses a packet moves none. -/
theorem icmp_queues_fifo (es : List IcmpEvent) (h : Meets IcmpSys.step IcmpSys.Admits IcmpSys.init es) :
    (run IcmpSys.step IcmpSys.init es).Fifo ∧
    ∀ e, (run IcmpSys.step IcmpSys.init es).Admits e → (run IcmpSys.step IcmpSys.init es).Refused e →
      (run IcmpSys.step IcmpSys.init es).Unmoved ((run IcmpSys.step IcmpSys.init es).step e) :=
  ⟨run_invariant (fun _ _ hfifo hadmits => hfifo.step hadmits) IcmpSys.init_fifo h,
    fun _ hadmits hrefused => IcmpSys.refused_unmoved hadmits hrefused⟩

/-- An echo reply of `n` bytes. -/
def echoReply (n : ℕ) : Bytes := [0, 0, 0, 0, 7, 0, 0, 0] ++ zeros (n - 8)

theorem two_replies_fifo : (run IcmpSys.step IcmpSys.init
      [.arrive (echoReply 8) 0x0202000A, .arrive (echoReply 9) 0x0202000A, .recvForId 7 (some 1600)]).Fifo ∧
    (run IcmpSys.step IcmpSys.init [.arrive (echoReply 8) 0x0202000A]).Unmoved
      ((run IcmpSys.step IcmpSys.init [.arrive (echoReply 8) 0x0202000A]).step (.recvForId 7 none)) :=
  ⟨(icmp_queues_fifo _ (by decide +kernel)).1,
    (icmp_queues_fifo _ (by decide +kernel)).2 (.recvForId 7 none) trivial ⟨28, rfl⟩⟩

/-- The third packet takes the slot of the first and is returned before the second. -/
theorem packet_overtakes : ¬ ∀ es : List IcmpEvent,
    List.Sublist (run IcmpSys.step IcmpSys.init es).raw.returned (run IcmpSys.step IcmpSys.init es).raw.arrived := by
  intro hclaim
  have hsub := (hclaim [.arrive (echoReply 8) 0, .arrive (echoReply 9) 0, .recvPacket (some 1600),
    .arrive (echoReply 10) 0, .recvPacket (some 1600), .recvPacket (some 1600)]).map fun p => p.2.1.length
  exact absurd hsub (by decide +kernel)

end EdgeOS
