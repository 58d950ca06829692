import EdgeOS.XhciDriver
import Mathlib.Algebra.Group.Nat.Defs
import Mathlib.Order.Basic
import Mathlib.Tactic.Basic

namespace EdgeOS

/-!
The three walks over a configuration descriptor: `usb_parse_cfg_for_classes` and
`usb_find_boot_mouse_ep` of `src/drivers/usb/usb.c`, `xhci_parse_hid_config` of
`src/drivers/usb/xhci.c`, and what `usb_enumerate_uhci_addr` makes of the first two. A walk reads
the bytes one by one; a byte outside the buffer is a fault.
-/

inductive WalkFault
  | outside
  | endless
  deriving DecidableEq, Repr

section Walks

variable (buf : List UInt8)

def readByte (i : ℕ) : Except WalkFault UInt8 :=
  match buf[i]? with
  | some b => .ok b
  | none => .error .outside

/-- The loop that the three share. `off` is a `uint16_t`, and `visit` looks at one descriptor: it
goes on in a new state or leaves the walk. -/
def walkDescriptors {σ α : Type} (visit : σ → ℕ → ℕ → UInt8 → Except WalkFault (σ ⊕ α)) :
    ℕ → ℕ → σ → Except WalkFault (σ ⊕ α)
  | 0, _, _ => .error .endless
  | fuel + 1, off, s =>
    if off + 2 ≤ buf.length then do
      let dlen ← readByte buf off
      let dtype ← readByte buf (off + 1)
      if dlen.toNat < 2 ∨ off + dlen.toNat > buf.length then return .inl s
      match ← visit s off dlen.toNat dtype with
      | .inl s => walkDescriptors visit fuel ((off + dlen.toNat) % 2 ^ 16) s
      | .inr a => return .inr a
    else return .inl s

/-- `USB_CLASS_HID`, boot subclass, mouse. -/
def isBootMouseAt (off : ℕ) : Except WalkFault Bool := do
  let cls ← readByte buf (off + 5)
  let sub ← readByte buf (off + 6)
  let proto ← readByte buf (off + 7)
  return cls == 3 && sub == 1 && proto == 2

/-- A descriptor in `usb_parse_cfg_for_classes`; the state is whether a boot mouse and whether a hub
was seen. -/
def classVisit (s : Bool × Bool) (off dlen : ℕ) (dtype : UInt8) : Except WalkFault ((Bool × Bool) ⊕ Empty) :=
  if dtype = 4 ∧ dlen ≥ 9 then do
    let cls ← readByte buf (off + 5)
    let mouse ← isBootMouseAt buf off
    return .inl (s.1 || mouse, s.2 || cls == 9)
  else return .inl s

/-- `usb_parse_cfg_for_classes`: whether there is a boot mouse and whether there is a hub. -/
def usbParseCfgForClasses : Except WalkFault (Bool × Bool) := do
  match ← walkDescriptors buf (classVisit buf) (buf.length + 1) 0 (false, false) with
  | .inl s => return s

/-- What `usb_find_boot_mouse_ep` stores. -/
structure MouseEndpoint where
  iface : UInt8
  ep : UInt8
  maxpkt : UInt16
  interval : UInt8
  deriving DecidableEq, Repr

/-- A descriptor in `usb_find_boot_mouse_ep` and in `xhci_parse_hid_config`; the state is whether the
current interface is a boot mouse and its number, and `found` is what is stored at an endpoint. -/
def endpointVisit {α : Type} (found : UInt8 → ℕ → UInt8 → Except WalkFault α) (s : Bool × UInt8)
    (off dlen : ℕ) (dtype : UInt8) : Except WalkFault ((Bool × UInt8) ⊕ α) :=
  if dtype = 4 ∧ dlen ≥ 9 then do
    let num ← readByte buf (off + 2)
    let mouse ← isBootMouseAt buf off
    return .inl (mouse, num)
  else if dtype = 5 ∧ dlen ≥ 7 ∧ s.1 then do
    let addr ← readByte buf (off + 2)
    let attr ← readByte buf (off + 3)
    if addr &&& 0x80 ≠ 0 ∧ attr &&& 3 = 3 then do
      let a ← found s.2 off addr
      return .inr a
    else return .inl s
  else return .inl s

/-- `wMaxPacketSize`, as far as it counts. -/
def maxPacketAt (off : ℕ) : Except WalkFault UInt16 := do
  let lo ← readByte buf (off + 4)
  let hi ← readByte buf (off + 5)
  return (lo.toUInt16 ||| hi.toUInt16 <<< 8) &&& 0x7FF

def mouseFound (num : UInt8) (off : ℕ) (addr : UInt8) : Except WalkFault MouseEndpoint := do
  let maxpkt ← maxPacketAt buf off
  let interval ← readByte buf (off + 6)
  return ⟨num, addr, maxpkt, interval⟩

/-- `usb_find_boot_mouse_ep`; `none` is -1. -/
def usbFindBootMouseEp : Except WalkFault (Option MouseEndpoint) := do
  match ← walkDescriptors buf (endpointVisit buf (mouseFound buf)) (buf.length + 1) 0 (false, 0) with
  | .inl _ => return none
  | .inr a => return some a

def hidFound (num : UInt8) (off : ℕ) (addr : UInt8) : Except WalkFault HidEndpoint := do
  let interval ← readByte buf (off + 6)
  let mps ← maxPacketAt buf off
  return { iface := num
           epAddr := addr
           epDci := (addr &&& 0xF) * 2 + 1
           interval := if interval = 0 then 10 else interval
           maxPacket := if mps = 0 then 8 else if mps > 64 then 64 else mps }

/-- `xhci_parse_hid_config`: the number of the configuration, if the header is there, and the
endpoint; no endpoint is -1. -/
def xhciParseHidConfig : Except WalkFault (Option UInt8 × Option HidEndpoint) :=
  if buf.length < 9 then return (none, none)
  else do
    let cfgval ← readByte buf 5
    match ← walkDescriptors buf (endpointVisit buf (hidFound buf)) (buf.length + 1) 0 (false, 0) with
    | .inl _ => return (some cfgval, none)
    | .inr a => return (some cfgval, some a)

end Walks

/-! ## The descriptors of a configuration -/

/-- The descriptors up to the first one whose length is wrong. -/
def descriptors (d : List UInt8) : List (List UInt8) :=
  if _ : 2 ≤ d.length ∧ 2 ≤ (d.getD 0 0).toNat ∧ (d.getD 0 0).toNat ≤ d.length then
    d.take (d.getD 0 0).toNat :: descriptors (d.drop (d.getD 0 0).toNat)
  else []
termination_by d.length
decreasing_by
  rw [List.length_drop]
  omega

def IsInterface (r : List UInt8) : Prop := r.getD 1 0 = 4 ∧ 9 ≤ r.length

def IsBootMouse (r : List UInt8) : Prop :=
  IsInterface r ∧ r.getD 5 0 = 3 ∧ r.getD 6 0 = 1 ∧ r.getD 7 0 = 2

def IsInterruptIn (r : List UInt8) : Prop :=
  r.getD 1 0 = 5 ∧ 7 ≤ r.length ∧ r.getD 2 0 &&& 0x80 ≠ 0 ∧ r.getD 3 0 &&& 3 = 3

instance (r : List UInt8) : Decidable (IsInterface r) := inferInstanceAs (Decidable (_ ∧ _))
instance (r : List UInt8) : Decidable (IsBootMouse r) := inferInstanceAs (Decidable (_ ∧ _ ∧ _ ∧ _))
instance (r : List UInt8) : Decidable (IsInterruptIn r) := inferInstanceAs (Decidable (_ ∧ _ ∧ _ ∧ _))

/-- After the descriptors `before` the current interface is the boot mouse `m`: it comes last among
the interfaces. -/
def InMouse (before : List (List UInt8)) (m : List UInt8) : Prop :=
  ∃ pre between, before = pre ++ m :: between ∧ IsBootMouse m ∧ ∀ r ∈ between, ¬ IsInterface r

/-- `e` is an interrupt-IN endpoint that follows the boot mouse `m` with no other interface between
them, and no endpoint before it does. -/
structure FirstMouseEndpoint (rs : List (List UInt8)) (m e : List UInt8) : Prop where
  split : ∃ before after, rs = before ++ e :: after ∧ InMouse before m ∧
    ∀ pre e' post, before = pre ++ e' :: post → IsInterruptIn e' → ∀ m', ¬ InMouse pre m'
  endpoint : IsInterruptIn e

/-! ## A walk without its bytes -/

def foldRecords {σ α : Type} (f : σ → List UInt8 → σ ⊕ α) : σ → List (List UInt8) → σ ⊕ α
  | s, [] => .inl s
  | s, r :: rs =>
    match f s r with
    | .inl s => foldRecords f s rs
    | .inr a => .inr a

/-- The descriptor `r` lies in the buffer, from `off` on. -/
structure LiesAt (buf : List UInt8) (off : ℕ) (r : List UInt8) : Prop where
  bytes : ∀ i, i < r.length → buf[off + i]? = some (r.getD i 0)
  long : 2 ≤ r.length

theorem LiesAt.read {buf r : List UInt8} {off i : ℕ} (h : LiesAt buf off r) (hi : i < r.length) :
    readByte buf (off + i) = .ok (r.getD i 0) := by
  unfold readByte
  rw [h.bytes i hi]

theorem liesAt_take {buf : List UInt8} {off n : ℕ} (h2 : 2 ≤ n) (hin : off + n ≤ buf.length) :
    LiesAt buf off ((buf.drop off).take n) := by
  have hlen : ((buf.drop off).take n).length = n := by
    rw [List.length_take, List.length_drop]
    omega
  refine ⟨fun i hi => ?_, by omega⟩
  rw [hlen] at hi
  have hd : ((buf.drop off).take n)[i]? = buf[off + i]? := by
    rw [List.getElem?_take, if_pos hi, List.getElem?_drop]
  rw [List.getD_eq_getElem?_getD, hd]
  cases hval : buf[off + i]? with
  | none => exact absurd (List.getElem?_eq_none_iff.mp hval) (by omega)
  | some b => rfl

theorem descriptors_cons {d : List UInt8} {n : ℕ} (h2 : 2 ≤ d.length) (hn : (d.getD 0 0).toNat = n)
    (hn2 : 2 ≤ n) (hle : n ≤ d.length) : descriptors d = d.take n :: descriptors (d.drop n) := by
  rw [descriptors, dif_pos ⟨h2, by omega, by omega⟩, hn]

theorem descriptors_nil {d : List UInt8}
    (h : ¬ (2 ≤ d.length ∧ 2 ≤ (d.getD 0 0).toNat ∧ (d.getD 0 0).toNat ≤ d.length)) :
    descriptors d = [] := by
  rw [descriptors, dif_neg h]

/-- A walk whose visits stay inside their descriptor comes to an end, reads nothing outside the
buffer, and is the walk over the descriptors. -/
theorem walkDescriptors_eq {σ α : Type} {buf : List UInt8} (hlen : buf.length ≤ 65535)
    {visit : σ → ℕ → ℕ → UInt8 → Except WalkFault (σ ⊕ α)} {f : σ → List UInt8 → σ ⊕ α}
    (hvisit : ∀ s off r, LiesAt buf off r → visit s off r.length (r.getD 1 0) = .ok (f s r))
    (fuel off : ℕ) (s : σ) (hoff : off ≤ buf.length) (hfuel : buf.length - off < fuel) :
    walkDescriptors buf visit fuel off s = .ok (foldRecords f s (descriptors (buf.drop off))) := by
  induction fuel generalizing off s with
  | zero => exact absurd hfuel (Nat.not_lt_zero _)
  | succ fuel ih =>
    unfold walkDescriptors
    by_cases h2 : off + 2 ≤ buf.length
    · rw [if_pos h2]
      have hd : (buf.drop off).length = buf.length - off := List.length_drop
      have hhead := liesAt_take (Nat.le_refl 2) h2
      have hlen2 : ((buf.drop off).take 2).length = 2 := by
        rw [List.length_take]
        omega
      have h0 : ((buf.drop off).take 2).getD 0 0 = (buf.drop off).getD 0 0 := by
        rw [List.getD_eq_getElem?_getD, List.getD_eq_getElem?_getD, List.getElem?_take, if_pos (by decide)]
      have hr0 := hhead.read (show 0 < _ by omega)
      have hr1 := hhead.read (show 1 < _ by omega)
      rw [h0, Nat.add_zero] at hr0
      rw [hr0, hr1]
      generalize hn : ((buf.drop off).getD 0 0).toNat = n
      by_cases hbad : n < 2 ∨ off + n > buf.length
      · rw [descriptors_nil (by omega)]
        simp only [bind, Except.bind, hn, if_pos hbad]
        rfl
      have hlies := liesAt_take (show 2 ≤ n by omega) (show off + n ≤ buf.length by omega)
      have hlenr : ((buf.drop off).take n).length = n := by
        rw [List.length_take]
        omega
      have h1 : ((buf.drop off).take 2).getD 1 0 = ((buf.drop off).take n).getD 1 0 := by
        rw [List.getD_eq_getElem?_getD, List.getD_eq_getElem?_getD, List.getElem?_take,
          List.getElem?_take, if_pos (by decide), if_pos (by omega)]
      have hv := hvisit s off _ hlies
      rw [hlenr] at hv
      rw [descriptors_cons (by omega) hn (by omega) (by omega), List.drop_drop]
      simp only [bind, Except.bind, hn, if_neg hbad, h1, hv, foldRecords]
      split
      · rename_i s' _
        rw [Nat.mod_eq_of_lt (by omega)]
        exact ih (off + n) s' (by omega) (by omega)
      · rfl
    · rw [if_neg h2, descriptors_nil (by rw [List.length_drop]; omega)]
      rfl

section Visits

variable {buf r : List UInt8} {off : ℕ}

theorem LiesAt.isBootMouseAt (h : LiesAt buf off r) (h9 : 9 ≤ r.length) : isBootMouseAt buf off =
      .ok (r.getD 5 0 == 3 && r.getD 6 0 == 1 && r.getD 7 0 == 2) := by
  unfold EdgeOS.isBootMouseAt
  rw [h.read (show 5 < _ by omega), h.read (show 6 < _ by omega), h.read (show 7 < _ by omega)]
  rfl

theorem isBootMouse_iff (hi : IsInterface r) :
    (r.getD 5 0 == 3 && r.getD 6 0 == 1 && r.getD 7 0 == 2) = decide (IsBootMouse r) := by
  simp only [IsBootMouse, hi, true_and, Bool.decide_and, beq_eq_decide, Bool.and_assoc]

/-- What `usb_parse_cfg_for_classes` makes of a descriptor. -/
def classOf (s : Bool × Bool) (r : List UInt8) : (Bool × Bool) ⊕ Empty :=
  if IsInterface r then .inl (s.1 || decide (IsBootMouse r), s.2 || r.getD 5 0 == 9) else .inl s

theorem classVisit_eq (s : Bool × Bool) (h : LiesAt buf off r) :
    classVisit buf s off r.length (r.getD 1 0) = .ok (classOf s r) := by
  unfold classVisit classOf
  by_cases hi : IsInterface r
  · rw [if_pos hi, if_pos ⟨hi.1, hi.2⟩, h.read (show 5 < _ by have := hi.2; omega), h.isBootMouseAt hi.2,
      isBootMouse_iff hi]
    rfl
  · rw [if_neg hi, if_neg fun hc => hi ⟨hc.1, hc.2⟩]
    rfl

/-- What the other two make of a descriptor, when `g` is what they store. -/
def endpointOf {α : Type} (g : UInt8 → List UInt8 → α) (s : Bool × UInt8) (r : List UInt8) : (Bool × UInt8) ⊕ α :=
  if IsInterface r then .inl (decide (IsBootMouse r), r.getD 2 0)
  else if IsInterruptIn r ∧ s.1 then .inr (g s.2 r)
  else .inl s

theorem endpointVisit_eq {α : Type} {found : UInt8 → ℕ → UInt8 → Except WalkFault α} {g : UInt8 → List UInt8 → α}
    (hfound : ∀ num off r, LiesAt buf off r → 7 ≤ r.length → found num off (r.getD 2 0) = .ok (g num r))
    (s : Bool × UInt8) (h : LiesAt buf off r) :
    endpointVisit buf found s off r.length (r.getD 1 0) = .ok (endpointOf g s r) := by
  unfold endpointVisit endpointOf
  by_cases hi : IsInterface r
  · rw [if_pos hi, if_pos ⟨hi.1, hi.2⟩, h.read (show 2 < _ by have := hi.2; omega), h.isBootMouseAt hi.2,
      isBootMouse_iff hi]
    rfl
  rw [if_neg hi, if_neg fun hc => hi ⟨hc.1, hc.2⟩]
  by_cases hs : r.getD 1 0 = 5 ∧ r.length ≥ 7 ∧ s.1
  · obtain ⟨h5, h7, hmouse⟩ := hs
    rw [if_pos ⟨h5, h7, hmouse⟩, h.read (show 2 < _ by omega), h.read (show 3 < _ by omega)]
    simp only [bind, Except.bind]
    by_cases hin : r.getD 2 0 &&& 0x80 ≠ 0 ∧ r.getD 3 0 &&& 3 = 3
    · rw [if_pos hin, if_pos ⟨⟨h5, h7, hin.1, hin.2⟩, hmouse⟩, hfound _ _ _ h h7]
      rfl
    · rw [if_neg hin, if_neg fun hc => hin ⟨hc.1.2.2.1, hc.1.2.2.2⟩]
      rfl
  · rw [if_neg hs, if_neg fun hc => hs ⟨hc.1.1, hc.1.2.1, hc.2⟩]
    rfl

def maxPacketOf (r : List UInt8) : UInt16 :=
  ((r.getD 4 0).toUInt16 ||| (r.getD 5 0).toUInt16 <<< 8) &&& 0x7FF

theorem LiesAt.maxPacketAt (h : LiesAt buf off r) (h7 : 7 ≤ r.length) : maxPacketAt buf off = .ok (maxPacketOf r) := by
  unfold EdgeOS.maxPacketAt
  rw [h.read (show 4 < _ by omega), h.read (show 5 < _ by omega)]
  rfl

def mouseEndpointOf (num : UInt8) (r : List UInt8) : MouseEndpoint :=
  ⟨num, r.getD 2 0, maxPacketOf r, r.getD 6 0⟩

theorem mouseFound_eq (num : UInt8) (h : LiesAt buf off r) (h7 : 7 ≤ r.length) :
    mouseFound buf num off (r.getD 2 0) = .ok (mouseEndpointOf num r) := by
  unfold mouseFound
  rw [h.maxPacketAt h7, h.read (show 6 < _ by omega)]
  rfl

theorem hidFound_eq (num : UInt8) (h : LiesAt buf off r) (h7 : 7 ≤ r.length) :
    hidFound buf num off (r.getD 2 0) = .ok (hidEndpoint r num) := by
  unfold hidFound
  rw [h.maxPacketAt h7, h.read (show 6 < _ by omega)]
  rfl

def scan : Bool × UInt8 → List (List UInt8) → Option (UInt8 × List UInt8)
  | _, [] => none
  | s, r :: rs =>
    if IsInterface r then scan (decide (IsBootMouse r), r.getD 2 0) rs
    else if IsInterruptIn r ∧ s.1 then some (s.2, r)
    else scan s rs

theorem foldRecords_endpointOf {α : Type} (g : UInt8 → List UInt8 → α) (s : Bool × UInt8) (rs : List (List UInt8)) :
    (scan s rs = none ∧ ∃ s', foldRecords (endpointOf g) s rs = .inl s') ∨
      ∃ x, scan s rs = some x ∧ foldRecords (endpointOf g) s rs = .inr (g x.1 x.2) := by
  induction rs generalizing s with
  | nil => exact .inl ⟨rfl, s, rfl⟩
  | cons r rs ih =>
    unfold scan
    by_cases hi : IsInterface r
    · have hr : endpointOf g s r = .inl (decide (IsBootMouse r), r.getD 2 0) := if_pos hi
      simp only [foldRecords, hr, if_pos hi]
      exact ih _
    by_cases he : IsInterruptIn r ∧ s.1
    · have hr : endpointOf g s r = .inr (g s.2 r) := by
        unfold endpointOf
        rw [if_neg hi, if_pos he]
      simp only [foldRecords, hr, if_neg hi, if_pos he]
      exact .inr ⟨_, rfl, rfl⟩
    have hr : endpointOf g s r = .inl s := by
      unfold endpointOf
      rw [if_neg hi, if_neg he]
    simp only [foldRecords, hr, if_neg hi, if_neg he]
    exact ih s

end Visits

/-! ## The first endpoint of a mouse -/

section First

variable {pre rs : List (List UInt8)} {m r e : List UInt8}

theorem inMouse_interface (hi : IsInterface r) : InMouse (pre ++ [r]) m ↔ m = r ∧ IsBootMouse r := by
  constructor
  · rintro ⟨p, between, heq, hm, hno⟩
    rcases List.eq_nil_or_concat between with rfl | ⟨b, x, rfl⟩
    · obtain ⟨-, h⟩ := List.append_inj' heq rfl
      obtain rfl : r = m := by simpa using h
      exact ⟨rfl, hm⟩
    rw [List.concat_eq_append, ← List.cons_append, ← List.append_assoc] at heq
    obtain ⟨-, h⟩ := List.append_inj' heq rfl
    obtain rfl : r = x := by simpa using h
    exact absurd hi (hno r (by simp))
  · rintro ⟨rfl, hm⟩
    exact ⟨pre, [], rfl, hm, by simp⟩

theorem inMouse_other (hi : ¬ IsInterface r) : InMouse (pre ++ [r]) m ↔ InMouse pre m := by
  constructor
  · rintro ⟨p, between, heq, hm, hno⟩
    rcases List.eq_nil_or_concat between with rfl | ⟨b, x, rfl⟩
    · obtain ⟨-, h⟩ := List.append_inj' heq rfl
      obtain rfl : r = m := by simpa using h
      exact absurd hm.1 hi
    rw [List.concat_eq_append, ← List.cons_append, ← List.append_assoc] at heq
    obtain ⟨h, -⟩ := List.append_inj' heq rfl
    exact ⟨p, b, h, hm, fun y hy => hno y (by simp [hy])⟩
  · rintro ⟨p, between, rfl, hm, hno⟩
    refine ⟨p, between ++ [r], by simp, hm, fun y hy => ?_⟩
    rcases List.mem_append.mp hy with hy | hy
    · exact hno y hy
    · obtain rfl := List.mem_singleton.mp hy
      exact hi

theorem not_inMouse_nil : ¬ InMouse [] m := by
  rintro ⟨p, between, heq, -, -⟩
  simp at heq

/-- The state of the scan tells the mouse that the descriptors so far end in. -/
structure Tells (pre : List (List UInt8)) (s : Bool × UInt8) : Prop where
  number : ∀ m, InMouse pre m → s = (true, m.getD 2 0)
  mouse : s.1 = true → ∃ m, InMouse pre m

theorem Tells.interface (hi : IsInterface r) : Tells (pre ++ [r]) (decide (IsBootMouse r), r.getD 2 0) := by
  refine ⟨fun m hm => ?_, fun h => ⟨r, (inMouse_interface hi).mpr ⟨rfl, of_decide_eq_true h⟩⟩⟩
  obtain ⟨rfl, hm⟩ := (inMouse_interface hi).mp hm
  rw [decide_eq_true hm]

theorem Tells.other {s : Bool × UInt8} (h : Tells pre s) (hi : ¬ IsInterface r) : Tells (pre ++ [r]) s :=
  ⟨fun m hm => h.number m ((inMouse_other hi).mp hm), fun hs => (h.mouse hs).imp fun _ hm => (inMouse_other hi).mpr hm⟩

theorem not_interface_of_interruptIn (h : IsInterruptIn r) : ¬ IsInterface r := by
  intro hi
  exact absurd (h.1.symm.trans hi.1) (by decide)

theorem scan_spec {s : Bool × UInt8} (h : Tells pre s) :
    (∀ num e, scan s rs = some (num, e) → IsInterruptIn e ∧ ∃ mid post m, rs = mid ++ e :: post ∧
        InMouse (pre ++ mid) m ∧ num = m.getD 2 0 ∧
        ∀ a e' b, mid = a ++ e' :: b → IsInterruptIn e' → ∀ m', ¬ InMouse (pre ++ a) m') ∧
      (scan s rs = none → ∀ mid e post, rs = mid ++ e :: post → IsInterruptIn e → ∀ m, ¬ InMouse (pre ++ mid) m) := by
  induction rs generalizing pre s with
  | nil =>
    refine ⟨fun num e hs => absurd hs (by simp [scan]), fun _ mid e post heq => ?_⟩
    simp at heq
  | cons r rs ih =>
    -- A descriptor that does not stop the scan is one more before the rest.
    have hgo : ∀ s', Tells (pre ++ [r]) s' → (IsInterruptIn r → ∀ m', ¬ InMouse pre m') →
        (∀ num e, scan s' rs = some (num, e) → IsInterruptIn e ∧ ∃ mid post m,
            r :: rs = mid ++ e :: post ∧ InMouse (pre ++ mid) m ∧ num = m.getD 2 0 ∧
            ∀ a e' b, mid = a ++ e' :: b → IsInterruptIn e' → ∀ m', ¬ InMouse (pre ++ a) m') ∧
          (scan s' rs = none → ∀ mid e post, r :: rs = mid ++ e :: post → IsInterruptIn e →
            ∀ m, ¬ InMouse (pre ++ mid) m) := by
      intro s' ht hr
      obtain ⟨hsome, hnone⟩ := ih ht
      constructor
      · intro num e hs
        obtain ⟨he, mid, post, m, heq, hm, hnum, hfirst⟩ := hsome num e hs
        refine ⟨he, r :: mid, post, m, by rw [heq]; rfl, ?_, hnum, fun a e' b hab he' m' => ?_⟩
        · rw [← List.append_cons] at hm
          exact hm
        · cases a with
          | nil =>
            obtain ⟨rfl, -⟩ := by simpa using hab
            rw [List.append_nil]
            exact hr he' m'
          | cons x a =>
            obtain ⟨rfl, htail⟩ := by simpa using hab
            rw [List.append_cons]
            exact hfirst a e' b htail he' m'
      · intro hs mid e post heq he m
        cases mid with
        | nil =>
          obtain ⟨rfl, -⟩ := by simpa using heq
          rw [List.append_nil]
          exact hr he m
        | cons x mid =>
          obtain ⟨rfl, htail⟩ := by simpa using heq
          rw [List.append_cons]
          exact hnone hs mid e post htail he m
    unfold scan
    by_cases hi : IsInterface r
    · rw [if_pos hi]
      exact hgo _ (Tells.interface hi) fun hr => absurd hi (not_interface_of_interruptIn hr)
    rw [if_neg hi]
    by_cases hstop : IsInterruptIn r ∧ s.1
    · rw [if_pos hstop]
      refine ⟨fun num e hs => ?_, fun hs => absurd hs (by simp)⟩
      obtain ⟨rfl, rfl⟩ := by simpa using hs
      obtain ⟨m, hm⟩ := h.mouse hstop.2
      refine ⟨hstop.1, [], rs, m, rfl, by rw [List.append_nil]; exact hm, ?_, fun a e' b hab => ?_⟩
      · rw [h.number m hm]
      · simp at hab
    · rw [if_neg hstop]
      refine hgo s (h.other hi) fun hr m' hm' => hstop ⟨hr, ?_⟩
      rw [h.number m' hm']

theorem tells_nil : Tells [] (false, 0) :=
  ⟨fun _ hm => absurd hm not_inMouse_nil, fun h => absurd h (by decide)⟩

theorem scan_some {num : UInt8} (h : scan (false, 0) rs = some (num, e)) :
    ∃ m, FirstMouseEndpoint rs m e ∧ num = m.getD 2 0 := by
  obtain ⟨he, mid, post, m, heq, hm, hnum, hfirst⟩ := (scan_spec tells_nil).1 num e h
  exact ⟨m, ⟨⟨mid, post, heq, hm, hfirst⟩, he⟩, hnum⟩

theorem scan_none (h : scan (false, 0) rs = none) :
    ∀ before e after, rs = before ++ e :: after → IsInterruptIn e → ∀ m, ¬ InMouse before m :=
  (scan_spec tells_nil).2 h

theorem length_of_mem_descriptors (d : List UInt8) : ∀ r ∈ descriptors d, r.length ≤ d.length := by
  induction d using descriptors.induct with
  | case1 d h ih =>
    rw [descriptors_cons h.1 rfl h.2.1 h.2.2]
    refine List.forall_mem_cons.mpr ⟨by rw [List.length_take]; omega, fun r hr => ?_⟩
    have := ih r hr
    rw [List.length_drop] at this
    omega
  | case2 d h =>
    rw [descriptors_nil h]
    simp

end First

/-! ## The three parsers -/

section Parsers

variable {buf : List UInt8}

theorem foldRecords_classOf (s : Bool × Bool) (rs : List (List UInt8)) :
    foldRecords classOf s rs = .inl (s.1 || rs.any fun r => decide (IsBootMouse r),
      s.2 || rs.any fun r => decide (IsInterface r) && r.getD 5 0 == 9) := by
  induction rs generalizing s with
  | nil => simp [foldRecords]
  | cons r rs ih =>
    by_cases hi : IsInterface r
    · have hr : classOf s r = .inl (s.1 || decide (IsBootMouse r), s.2 || r.getD 5 0 == 9) :=
        if_pos hi
      simp only [foldRecords, hr, ih]
      simp [hi, Bool.or_assoc]
    have hm : ¬ IsBootMouse r := fun h => hi h.1
    have hr : classOf s r = .inl s := if_neg hi
    simp only [foldRecords, hr, ih]
    simp [hi, hm]

/-- Whether there is a boot mouse, and whether there is a hub, among the descriptors. -/
theorem usbParseCfgForClasses_eq (hlen : buf.length ≤ 65535) :
    usbParseCfgForClasses buf = .ok ((descriptors buf).any fun r => decide (IsBootMouse r),
      (descriptors buf).any fun r => decide (IsInterface r) && r.getD 5 0 == 9) := by
  have h := walkDescriptors_eq hlen (fun s _ _ h => classVisit_eq s h) (buf.length + 1) 0
    (false, false) (Nat.zero_le _) (by omega)
  unfold usbParseCfgForClasses
  rw [h, List.drop_zero, foldRecords_classOf, Bool.false_or, Bool.false_or]
  rfl

theorem usbFindBootMouseEp_eq (hlen : buf.length ≤ 65535) :
    usbFindBootMouseEp buf = .ok ((scan (false, 0) (descriptors buf)).map fun x =>
      mouseEndpointOf x.1 x.2) := by
  have h := walkDescriptors_eq hlen
    (fun s _ _ h => endpointVisit_eq (fun num _ _ h h7 => mouseFound_eq num h h7) s h)
    (buf.length + 1) 0 (false, 0) (Nat.zero_le _) (by omega)
  unfold usbFindBootMouseEp
  rw [h, List.drop_zero]
  rcases foldRecords_endpointOf mouseEndpointOf (false, 0) (descriptors buf) with
    ⟨hs, s', hf⟩ | ⟨x, hs, hf⟩
  · rw [hs, hf]
    rfl
  · rw [hs, hf]
    rfl

theorem scan_short (hshort : buf.length < 9) : scan (false, 0) (descriptors buf) = none := by
  rcases hs : scan (false, 0) (descriptors buf) with _ | ⟨num, e⟩
  · rfl
  obtain ⟨m, ⟨⟨before, after, heq, ⟨pre, between, hb, hm, -⟩, -⟩, -⟩, -⟩ := scan_some hs
  have hmem : m ∈ descriptors buf := by
    rw [heq, hb]
    simp
  have h1 := length_of_mem_descriptors buf m hmem
  have h2 := hm.1.2
  omega

theorem xhciParseHidConfig_eq (hlen : buf.length ≤ 65535) :
    xhciParseHidConfig buf = .ok (if buf.length < 9 then none else some (buf.getD 5 0),
      (scan (false, 0) (descriptors buf)).map fun x => hidEndpoint x.2 x.1) := by
  have h := walkDescriptors_eq hlen
    (fun s _ _ h => endpointVisit_eq (fun num _ _ h h7 => hidFound_eq num h h7) s h)
    (buf.length + 1) 0 (false, 0) (Nat.zero_le _) (by omega)
  unfold xhciParseHidConfig
  by_cases hshort : buf.length < 9
  · rw [if_pos hshort, if_pos hshort, scan_short hshort]
    rfl
  have hread : readByte buf 5 = .ok (buf.getD 5 0) := by
    unfold readByte
    rw [List.getD_eq_getElem?_getD]
    cases hval : buf[5]? with
    | none => exact absurd (List.getElem?_eq_none_iff.mp hval) (by omega)
    | some b => rfl
  rw [if_neg hshort, if_neg hshort, hread, h, List.drop_zero]
  rcases foldRecords_endpointOf (fun num r => hidEndpoint r num) (false, 0) (descriptors buf) with
    ⟨hs, s', hf⟩ | ⟨x, hs, hf⟩
  · rw [hs, hf]
    rfl
  · rw [hs, hf]
    rfl

/-- Neither parser finds an endpoint, and there is none; or both find the same, and it is the first
interrupt-IN endpoint of a boot mouse. -/
structure ParsedAlike (buf : List UInt8) : Prop where
  classes : ∃ classes, usbParseCfgForClasses buf = .ok classes
  endpoint : (usbFindBootMouseEp buf = .ok none ∧ (∃ cfgval, xhciParseHidConfig buf = .ok (cfgval, none)) ∧
        ∀ before e after, descriptors buf = before ++ e :: after → IsInterruptIn e → ∀ m, ¬ InMouse before m) ∨
      ∃ x cfgval y m e, usbFindBootMouseEp buf = .ok (some x) ∧
        xhciParseHidConfig buf = .ok (cfgval, some y) ∧ FirstMouseEndpoint (descriptors buf) m e ∧
        x.iface = m.getD 2 0 ∧ y.iface = m.getD 2 0 ∧ x.ep = e.getD 2 0 ∧ y.epAddr = e.getD 2 0

/-- The parsers come to an end on every string, read only its bytes, and agree. -/
theorem parsed_alike (hlen : buf.length ≤ 65535) : ParsedAlike buf := by
  refine ⟨⟨_, usbParseCfgForClasses_eq hlen⟩, ?_⟩
  rw [usbFindBootMouseEp_eq hlen, xhciParseHidConfig_eq hlen]
  rcases hs : scan (false, 0) (descriptors buf) with _ | ⟨num, e⟩
  · exact .inl ⟨rfl, ⟨_, rfl⟩, scan_none hs⟩
  · obtain ⟨m, hfirst, rfl⟩ := scan_some hs
    exact .inr ⟨_, _, _, m, e, rfl, rfl, hfirst, rfl, rfl, rfl, rfl⟩

end Parsers

/-! ## The enumeration of a device -/

/-- What the devices answer to the n-th control transfer, with the bytes they send, and whether the
n-th `uhci_intr_queue_open` succeeds. -/
structure UsbBus where
  xfer : ℕ → Option (List UInt8)
  opens : ℕ → Bool

/-- A device whose configuration was read: the bytes, `mouse_ready` where the mouse is looked at,
and the endpoint that an interrupt queue is opened on. -/
structure EnumVisit where
  cfg : List UInt8
  mouseReady : Bool
  opened : Option MouseEndpoint
  deriving DecidableEq, Repr

/-- The part of `usb_controller_t` that the enumeration works on, and `g_usb_next_addr`. -/
structure EnumState where
  mouseReady : Bool := false
  nextAddr : UInt8 := 1
  xfers : ℕ := 0
  opens : ℕ := 0
  visits : List EnumVisit := []

abbrev EnumM := StateM EnumState

namespace EnumM

variable (bus : UsbBus)

/-- A control transfer; the bytes land in a buffer of `n` zeros. -/
def transfer (n : ℕ) : EnumM (Option (List UInt8)) := fun s =>
  ((bus.xfer s.xfers).map fun d => (d ++ List.replicate n 0).take n, { s with xfers := s.xfers + 1 })

/-- `usb_alloc_addr`; 0 is none. -/
def allocAddr : EnumM UInt8 := fun s =>
  let next := if s.nextAddr < 1 then 1 else s.nextAddr
  if next ≥ 127 then (0, { s with nextAddr := next }) else (next, { s with nextAddr := next + 1 })

/-- `USB_PORTSTAT_CONNECTION` in the answer to a status request. -/
def connected (st : List UInt8) : Bool := st.getD 0 0 &&& 1 != 0

/-- The body of the loop of `usb_enumerate_uhci_hub_children`; `enumerate` is what becomes of a
device that has got its address. -/
def hubPort (enumerate : UInt8 → EnumM Unit) : EnumM Unit := do
  let _ ← transfer bus 0
  match ← transfer bus 4 with
  | none => return
  | some st =>
    if !connected st then return
    let _ ← transfer bus 0
    let _ ← transfer bus 0
    let _ ← transfer bus 0
    match ← transfer bus 4 with
    | none => return
    | some _ =>
      let addr ← allocAddr
      if addr = 0 then return
      match ← transfer bus 8 with
      | none => return
      | some _ =>
        match ← transfer bus 0 with
        | none => return
        | some _ => enumerate addr

/-- The loop of `usb_enumerate_uhci_hub_children`, for `n` rounds; with 255 ports it does not end. -/
def hubPorts (enumerate : UInt8 → EnumM Unit) (ports : UInt8) : ℕ → UInt8 → EnumM Unit
  | 0, _ => return
  | n + 1, p =>
    if p ≤ ports then do
      hubPort bus enumerate
      hubPorts enumerate ports n (p + 1)
    else return

def hubChildren (rounds : ℕ) (enumerate : UInt8 → EnumM Unit) (depth : ℕ) (ports : UInt8) : EnumM Unit :=
  if depth > 2 ∨ ports = 0 then return else hubPorts bus enumerate ports rounds 1

/-- The endpoint that `usb_enumerate_uhci_addr` opens a queue on: the variables that
`usb_find_boot_mouse_ep` has set, or left as they were. -/
def mouseQueue (cfg : List UInt8) : MouseEndpoint :=
  let found := ((usbFindBootMouseEp cfg).toOption.getD none).getD ⟨0, 0, 0, 10⟩
  { found with maxpkt := if found.maxpkt = 0 then 8 else if found.maxpkt > 8 then 8 else found.maxpkt }

def openMouse (cfg : List UInt8) (hasBootMouse : Bool) : EnumM Unit := fun s =>
  if hasBootMouse && !s.mouseReady then
    -- SET_PROTOCOL and SET_IDLE come before the queue.
    ((), { s with
      xfers := s.xfers + 2
      opens := s.opens + 1
      mouseReady := bus.opens s.opens
      visits := s.visits ++ [⟨cfg, s.mouseReady, some (mouseQueue cfg)⟩] })
  else ((), { s with visits := s.visits ++ [⟨cfg, s.mouseReady, none⟩] })

/-- `usb_enumerate_uhci_addr`, with what it does about the ports of a hub. -/
def enumerateWith (children : UInt8 → EnumM Unit) (addr : UInt8) : EnumM Unit := do
  if addr = 0 then return
  match ← transfer bus 18 with
  | none => return
  | some dd =>
    match ← transfer bus 9 with
    | none => return
    | some hdr =>
      let total := max (min ((hdr.getD 2 0).toNat + 256 * (hdr.getD 3 0).toNat) 256) 9
      match ← transfer bus total with
      | none => return
      | some cfg =>
        let (hasBootMouse, hasHubIface) := (usbParseCfgForClasses cfg).toOption.getD (false, false)
        if cfg.getD 5 0 ≠ 0 then let _ ← transfer bus 0
        if dd.getD 4 0 = 9 ∨ hasHubIface = true then
          match ← transfer bus 8 with
          | none => openMouse bus cfg hasBootMouse
          | some hub => do
            children (hub.getD 2 0)
            openMouse bus cfg hasBootMouse
        else openMouse bus cfg hasBootMouse

/-- `usb_enumerate_uhci_addr`. Behind a hub the depth grows by two, so that two levels are all. -/
def usbEnumerateUhciAddr (rounds : ℕ) : ℕ → ℕ → UInt8 → EnumM Unit
  | 0, _ => fun _ => return
  | levels + 1, depth =>
    enumerateWith bus fun ports =>
      if depth < 2 then
        hubChildren bus rounds (usbEnumerateUhciAddr rounds levels (depth + 1 + 1)) (depth + 1) ports
      else return

end EnumM

/-- What was opened for a device follows from its bytes and from `mouse_ready`. -/
structure EnumVisit.Acted (v : EnumVisit) : Prop where
  short : v.cfg.length ≤ 65535
  opened : v.opened = if ((descriptors v.cfg).any fun r => decide (IsBootMouse r)) = true ∧ v.mouseReady = false then
      some (EnumM.mouseQueue v.cfg)
    else none

namespace EnumM

/-- The action keeps what is known of the devices so far, and its result is as `Q` says. -/
def Keeps {α : Type} (Q : α → Prop) (m : EnumM α) : Prop :=
  ∀ s : EnumState, (∀ v ∈ s.visits, v.Acted) → (∀ v ∈ (m s).2.visits, v.Acted) ∧ Q (m s).1

variable {α β : Type} {Q : α → Prop} {R : β → Prop}

theorem Keeps.bind {m : EnumM α} {f : α → EnumM β} (hm : Keeps Q m) (hf : ∀ a, Q a → Keeps R (f a)) :
    Keeps R (m >>= f) := by
  intro s hs
  obtain ⟨hs', ha⟩ := hm s hs
  exact hf (m s).1 ha (m s).2 hs'

theorem keeps_return : Keeps (fun _ : Unit => True) (return) := fun _ hs => ⟨hs, trivial⟩

variable {bus : UsbBus}

theorem keeps_transfer (n : ℕ) : Keeps (fun r => ∀ d ∈ r, d.length = n) (transfer bus n) := by
  refine fun s hs => ⟨hs, fun d hd => ?_⟩
  obtain ⟨d', -, rfl⟩ := Option.map_eq_some_iff.mp hd
  rw [List.length_take, List.length_append, List.length_replicate]
  omega

theorem keeps_allocAddr : Keeps (fun _ => True) allocAddr := by
  intro s hs
  have hv : (allocAddr s).2.visits = s.visits := by
    unfold allocAddr
    dsimp only
    split_ifs <;> rfl
  exact ⟨hv.symm ▸ hs, trivial⟩

theorem keeps_openMouse (bus : UsbBus) {cfg : List UInt8} (hlen : cfg.length ≤ 65535) : Keeps (fun _ => True)
      (openMouse bus cfg ((descriptors cfg).any fun r => decide (IsBootMouse r))) := by
  intro s hs
  unfold openMouse
  split
  · rename_i h
    refine ⟨fun v hv => ?_, trivial⟩
    rcases List.mem_append.mp hv with hv | hv
    · exact hs v hv
    · obtain rfl := List.mem_singleton.mp hv
      exact ⟨hlen, (if_pos (by simpa using h)).symm⟩
  rename_i h
  refine ⟨fun v hv => ?_, trivial⟩
  rcases List.mem_append.mp hv with hv | hv
  · exact hs v hv
  · obtain rfl := List.mem_singleton.mp hv
    exact ⟨hlen, (if_neg (by simpa using h)).symm⟩

theorem keeps_hubPort {enumerate : UInt8 → EnumM Unit} (h : ∀ addr, Keeps (fun _ => True) (enumerate addr)) :
    Keeps (fun _ => True) (hubPort bus enumerate) := by
  unfold hubPort
  refine (keeps_transfer 0).bind fun _ _ => (keeps_transfer 4).bind fun st _ => ?_
  cases st with
  | none => exact keeps_return
  | some st =>
    dsimp only
    split
    · exact keeps_return
    refine (keeps_transfer 0).bind fun _ _ => (keeps_transfer 0).bind fun _ _ =>
      (keeps_transfer 0).bind fun _ _ => (keeps_transfer 4).bind fun st _ => ?_
    cases st with
    | none => exact keeps_return
    | some _ =>
      refine keeps_allocAddr.bind fun addr _ => ?_
      split
      · exact keeps_return
      refine (keeps_transfer 8).bind fun d _ => ?_
      cases d with
      | none => exact keeps_return
      | some _ =>
        refine (keeps_transfer 0).bind fun r _ => ?_
        cases r with
        | none => exact keeps_return
        | some _ => exact h addr

theorem keeps_hubPorts {enumerate : UInt8 → EnumM Unit}
    (h : ∀ addr, Keeps (fun _ => True) (enumerate addr)) (ports : UInt8) (n : ℕ) (p : UInt8) :
    Keeps (fun _ => True) (hubPorts bus enumerate ports n p) := by
  induction n generalizing p with
  | zero => exact keeps_return
  | succ n ih =>
    unfold hubPorts
    split
    · exact (keeps_hubPort h).bind fun _ _ => ih (p + 1)
    · exact keeps_return

theorem keeps_enumerateWith {children : UInt8 → EnumM Unit}
    (h : ∀ ports, Keeps (fun _ => True) (children ports)) (addr : UInt8) :
    Keeps (fun _ => True) (enumerateWith bus children addr) := by
  unfold enumerateWith
  split
  · exact keeps_return
  refine (keeps_transfer 18).bind fun dd _ => ?_
  cases dd with
  | none => exact keeps_return
  | some dd =>
    refine (keeps_transfer 9).bind fun hdr _ => ?_
    cases hdr with
    | none => exact keeps_return
    | some hdr =>
      refine (keeps_transfer _).bind fun cfg hcfg => ?_
      cases cfg with
      | none => exact keeps_return
      | some cfg =>
        have hlen : cfg.length ≤ 65535 := by
          have := hcfg cfg rfl
          omega
        dsimp only
        rw [usbParseCfgForClasses_eq hlen]
        dsimp only [Except.toOption, Option.getD]
        have hmouse := keeps_openMouse bus hlen
        have hhub : ∀ cond : Prop, ∀ _ : Decidable cond, Keeps (fun _ => True) (if cond then do
            match ← transfer bus 8 with
              | none => openMouse bus cfg ((descriptors cfg).any fun r => decide (IsBootMouse r))
              | some hub => do
                children (hub.getD 2 0)
                openMouse bus cfg ((descriptors cfg).any fun r => decide (IsBootMouse r))
            else openMouse bus cfg ((descriptors cfg).any fun r => decide (IsBootMouse r))) := by
          intro cond _
          split
          · refine (keeps_transfer 8).bind fun hub _ => ?_
            cases hub with
            | none => exact hmouse
            | some hub => exact (h _).bind fun _ _ => hmouse
          · exact hmouse
        split
        · exact (keeps_transfer 0).bind fun _ _ => hhub _ _
        · exact hhub _ _

theorem keeps_enumerate (bus : UsbBus) (rounds levels depth : ℕ) (addr : UInt8) :
    Keeps (fun _ => True) (usbEnumerateUhciAddr bus rounds levels depth addr) := by
  induction levels generalizing depth addr with
  | zero => exact keeps_return
  | succ levels ih =>
    refine keeps_enumerateWith (fun ports => ?_) addr
    split
    · unfold hubChildren
      split
      · exact keeps_return
      · exact keeps_hubPorts (fun addr => ih (depth + 1 + 1) addr) ports rounds 1
    · exact keeps_return

end EnumM

/-- Each queue is opened on the first interrupt-IN endpoint of a boot mouse. -/
def OpensFound (visits : List EnumVisit) : Prop :=
  ∀ v ∈ visits, ∀ q ∈ v.opened, ∃ m e, FirstMouseEndpoint (descriptors v.cfg) m e ∧
    q.iface = m.getD 2 0 ∧ q.ep = e.getD 2 0

/-- While no mouse is ready, a configuration with a boot mouse has an interrupt-IN endpoint for it. -/
def MiceHaveEndpoints (visits : List EnumVisit) : Prop :=
  ∀ v ∈ visits, v.mouseReady = false → (∃ r ∈ descriptors v.cfg, IsBootMouse r) →
    ∃ m e, FirstMouseEndpoint (descriptors v.cfg) m e

theorem EnumVisit.Acted.found_iff {v : EnumVisit} (h : v.Acted) :
    (∀ q ∈ v.opened, ∃ m e, FirstMouseEndpoint (descriptors v.cfg) m e ∧ q.iface = m.getD 2 0 ∧ q.ep = e.getD 2 0) ↔
      (v.mouseReady = false → (∃ r ∈ descriptors v.cfg, IsBootMouse r) →
        ∃ m e, FirstMouseEndpoint (descriptors v.cfg) m e) := by
  have hany : ((descriptors v.cfg).any fun r => decide (IsBootMouse r)) = true ↔
      ∃ r ∈ descriptors v.cfg, IsBootMouse r := by simp
  rw [h.opened]
  constructor
  · intro hq hready hmouse
    rw [if_pos ⟨hany.mpr hmouse, hready⟩] at hq
    obtain ⟨m, e, hfirst, -⟩ := hq _ rfl
    exact ⟨m, e, hfirst⟩
  · intro hend q hq
    split at hq
    · rename_i hopen
      obtain rfl : EnumM.mouseQueue v.cfg = q := by simpa using hq
      obtain ⟨m, e, ⟨before, after, heq, hm, -⟩, he⟩ := hend hopen.2 (hany.mp hopen.1)
      -- An endpoint is there, so the parser has found the first one.
      rcases (parsed_alike h.short).endpoint with ⟨-, -, hnone⟩ | ⟨x, _, _, m, e, hx, -, hfirst, hi, -, he, -⟩
      · exact absurd hm (hnone before e after heq he m)
      refine ⟨m, e, hfirst, ?_⟩
      unfold EnumM.mouseQueue
      rw [hx]
      exact ⟨hi, he⟩
    · simp at hq

/-- The parsers agree on every string. In an enumeration that finds the ports and the address
counter in any state, the queues are opened on endpoints that were found if and only if each boot
mouse that is looked at has such an endpoint. -/
theorem config_descriptors (bus : UsbBus) (rounds levels depth : ℕ) (addr : UInt8)
    (mouseReady : Bool) (nextAddr : UInt8) :
    (∀ buf : List UInt8, buf.length ≤ 65535 → ParsedAlike buf) ∧
      (OpensFound (EnumM.usbEnumerateUhciAddr bus rounds levels depth addr
          { mouseReady := mouseReady, nextAddr := nextAddr }).2.visits ↔
        MiceHaveEndpoints (EnumM.usbEnumerateUhciAddr bus rounds levels depth addr
          { mouseReady := mouseReady, nextAddr := nextAddr }).2.visits) := by
  refine ⟨fun buf h => parsed_alike h, ?_⟩
  have hacted := (EnumM.keeps_enumerate bus rounds levels depth addr
    { mouseReady := mouseReady, nextAddr := nextAddr } (by simp)).1
  exact forall₂_congr fun v hv => (hacted v hv).found_iff

def bareMouse : List UInt8 := [9, 2, 18, 0, 1, 1, 0, 0xA0, 50, 9, 4, 0, 0, 0, 3, 1, 2, 0]

/-- A device with that configuration; whatever is asked of it, it sends it. -/
def bareMouseBus : UsbBus := ⟨fun _ => some bareMouse, fun _ => true⟩

/-- The control endpoint of the device gets an interrupt queue, though no endpoint was found. -/
theorem bareMouse_opened : (EnumM.usbEnumerateUhciAddr bareMouseBus 0 1 0 1 {}).2.visits =
        [⟨bareMouse, false, some ⟨0, 0, 8, 10⟩⟩] ∧
      ¬ OpensFound (EnumM.usbEnumerateUhciAddr bareMouseBus 0 1 0 1 {}).2.visits := by
  have hrun : (EnumM.usbEnumerateUhciAddr bareMouseBus 0 1 0 1 {}).2.visits =
      [⟨bareMouse, false, some ⟨0, 0, 8, 10⟩⟩] := by decide +kernel
  have hfind : usbFindBootMouseEp bareMouse = .ok none := by decide +kernel
  refine ⟨hrun, fun h => ?_⟩
  rw [hrun] at h
  obtain ⟨m, e, ⟨⟨before, after, heq, hm, -⟩, he⟩, -⟩ :=
    h ⟨bareMouse, false, some ⟨0, 0, 8, 10⟩⟩ (by simp) _ rfl
  have halike := parsed_alike (show bareMouse.length ≤ 65535 by decide)
  rcases halike.endpoint with ⟨-, -, hnone⟩ | ⟨x, _, _, _, _, hx, -⟩
  · exact hnone before e after heq he m hm
  · rw [hfind] at hx
    simp at hx

def wiredMouse : List UInt8 :=
  [9, 2, 25, 0, 1, 1, 0, 0xA0, 50, 9, 4, 0, 0, 1, 3, 1, 2, 0, 7, 5, 0x81, 3, 8, 0, 10]

def wiredMouseBus : UsbBus := ⟨fun _ => some wiredMouse, fun _ => true⟩

theorem wiredMouse_opened : ParsedAlike wiredMouse ∧
      (OpensFound (EnumM.usbEnumerateUhciAddr wiredMouseBus 0 1 0 1 {}).2.visits ↔
        MiceHaveEndpoints (EnumM.usbEnumerateUhciAddr wiredMouseBus 0 1 0 1 {}).2.visits) :=
  ⟨(config_descriptors wiredMouseBus 0 1 0 1 false 1).1 wiredMouse (by decide),
    (config_descriptors wiredMouseBus 0 1 0 1 false 1).2⟩

end EdgeOS
