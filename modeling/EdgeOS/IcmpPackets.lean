import EdgeOS.Buffer
import EdgeOS.Lib.OnesComplement

namespace EdgeOS

open Lib List
open UInt32 (toNat_or toNat_add toNat_and toNat_toUInt16)

/-!
The packets of `src/net/lwip_stack.c` and `src/drivers/e1000/e1000.c` that carry an Internet checksum of their own:
the IPv4 header before a queued ICMP message, and the echo requests of both.
-/

/-! ## The checksum -/

def cksumWord (p : Bytes) (i : ℕ) : UInt32 := (rd8 p (2 * i)).toUInt32 <<< 8 ||| (rd8 p (2 * i + 1)).toUInt32

/-- The accumulator after `n` rounds. -/
def cksumAcc (p : Bytes) : ℕ → UInt32
  | 0 => 0
  | n + 1 => cksumAcc p n + cksumWord p n

def cksumLast (p : Bytes) (len : ℕ) : UInt32 := (rd8 p (len - 1)).toUInt32 <<< 8

def cksumTotal (p : Bytes) (len : ℕ) : UInt32 :=
  if len % 2 = 1 then cksumAcc p (len / 2) + cksumLast p len else cksumAcc p (len / 2)

/-- `while (acc >> 16)`. Two rounds are enough. -/
def foldCarry : ℕ → UInt32 → UInt32
  | 0, acc => acc
  | n + 1, acc => if acc >>> 16 = 0 then acc else foldCarry n ((acc &&& (0xFFFF : UInt32)) + (acc >>> 16))

def edgeCksum16 (p : Bytes) (len : ℕ) : UInt16 := ~~~(foldCarry 2 (cksumTotal p len)).toUInt16

def csum16 (p : Bytes) (len : ℕ) : UInt16 := edgeCksum16 p len

/-- No addition of the loops passes 32 bits. -/
structure NoOverflow (p : Bytes) (len : ℕ) : Prop where
  rounds : ∀ n < len / 2, (cksumAcc p n).toNat + (cksumWord p n).toNat < 2 ^ 32
  last : len % 2 = 1 → (cksumAcc p (len / 2)).toNat + (cksumLast p len).toNat < 2 ^ 32
  carries : ∀ n, (foldCarry n (cksumTotal p len) &&& 0xFFFF).toNat + (foldCarry n (cksumTotal p len) >>> 16).toNat
    < 2 ^ 32

section Checksum

variable {p : Bytes}

theorem shl8_toNat (a : UInt8) : (a.toUInt32 <<< 8).toNat = a.toNat * 256 := by
  have ha := a.toNat_lt
  rw [UInt32.toNat_shiftLeft, UInt8.toNat_toUInt32]
  show a.toNat <<< 8 % 2 ^ 32 = a.toNat * 256
  rw [Nat.shiftLeft_eq, Nat.mod_eq_of_lt (by omega)]

theorem shl8_or_toNat (a b : UInt8) : (a.toUInt32 <<< 8 ||| b.toUInt32).toNat = a.toNat * 256 + b.toNat := by
  have hb := b.toNat_lt
  rw [toNat_or, shl8_toNat, UInt8.toNat_toUInt32,
    show a.toNat * 256 = a.toNat <<< 8 from (Nat.shiftLeft_eq a.toNat 8).symm, ← Nat.shiftLeft_add_eq_or_of_lt hb]

theorem getElem?_rd8 {i : ℕ} (h : i < p.length) : p[i]? = some (rd8 p i) := by
  unfold rd8
  rw [getD_eq_getElem _ _ h, getElem?_eq_getElem h]

theorem cksumAcc_toNat {n : ℕ} (hn : 2 * n ≤ p.length) (hsmall : n ≤ 65536) :
    (cksumAcc p n).toNat = (words16 (p.take (2 * n))).sum := by
  induction n with
  | zero => rfl
  | succ n ih =>
    have htake : p.take (2 * (n + 1)) = p.take (2 * n) ++ [rd8 p (2 * n), rd8 p (2 * n + 1)] := by
      rw [Nat.mul_succ, take_add_one, take_add_one, getElem?_rd8 (by omega), getElem?_rd8 (by omega), append_assoc]
      rfl
    have hlen : (p.take (2 * n)).length = 2 * n := by
      rw [length_take]
      omega
    have hword : (cksumWord p n).toNat = (rd8 p (2 * n)).toNat * 256 + (rd8 p (2 * n + 1)).toNat := shl8_or_toNat _ _
    have hbound := words16_sum_le (p.take (2 * n))
    have hhigh := (rd8 p (2 * n)).toNat_lt
    have hlow := (rd8 p (2 * n + 1)).toNat_lt
    have ih := ih (by omega) (by omega)
    rw [hlen] at hbound
    have hpair : (words16 [rd8 p (2 * n), rd8 p (2 * n + 1)]).sum =
        (rd8 p (2 * n)).toNat * 256 + (rd8 p (2 * n + 1)).toNat := sum_singleton
    rw [htake, words16_append (by omega), sum_append, hpair, cksumAcc, toNat_add, ih, hword,
      Nat.mod_eq_of_lt (by omega)]

/-- The last byte of an odd length is a word with a zero. -/
theorem words16_odd (h : p.length % 2 = 1) :
    (words16 p).sum = (words16 (p.take (2 * (p.length / 2)))).sum + (rd8 p (p.length - 1)).toNat * 256 := by
  have hlen : (p.take (2 * (p.length / 2))).length = 2 * (p.length / 2) := by
    rw [length_take]
    omega
  have hsplit : p = p.take (2 * (p.length / 2)) ++ [rd8 p (p.length - 1)] := by
    conv_lhs => rw [← take_length (l := p), show p.length = 2 * (p.length / 2) + 1 by omega]
    rw [take_add_one, getElem?_rd8 (by omega), show p.length - 1 = 2 * (p.length / 2) by omega]
    rfl
  conv_lhs => rw [hsplit]
  rw [words16_append (by omega), sum_append, words16, sum_singleton]

/-- The accumulator before the folding is the sum of all words. -/
theorem cksumTotal_toNat (h : p.length ≤ 131072) : (cksumTotal p p.length).toNat = (words16 p).sum := by
  have hacc := @cksumAcc_toNat p (p.length / 2) (by omega) (by omega)
  have hbound := words16_sum_le p
  unfold cksumTotal
  by_cases hodd : p.length % 2 = 1
  · have hsum := words16_odd hodd
    rw [if_pos hodd, toNat_add, hacc, cksumLast, shl8_toNat, ← hsum, Nat.mod_eq_of_lt (by omega)]
  · rw [if_neg hodd, hacc, take_of_length_le (by omega)]

theorem and16_toNat (acc : UInt32) : (acc &&& (0xFFFF : UInt32)).toNat = acc.toNat % (256 * 256) := by
  rw [toNat_and]
  exact Nat.and_two_pow_sub_one_eq_mod _ 16

theorem shr16_toNat (acc : UInt32) : (acc >>> 16).toNat = acc.toNat / (256 * 256) := by
  rw [UInt32.toNat_shiftRight]
  exact Nat.shiftRight_eq_div_pow _ 16

theorem foldRound_toNat (acc : UInt32) :
    ((acc &&& (0xFFFF : UInt32)) + (acc >>> 16)).toNat = acc.toNat % (256 * 256) + acc.toNat / (256 * 256) := by
  have hlt := acc.toNat_lt
  rw [toNat_add, and16_toNat, shr16_toNat, Nat.mod_eq_of_lt (by omega)]

theorem shr16_eq_zero (acc : UInt32) : acc >>> 16 = 0 ↔ acc.toNat < 256 * 256 := by
  rw [← UInt32.toNat_inj, shr16_toNat]
  show acc.toNat / (256 * 256) = 0 ↔ _
  omega

/-- The folded accumulator is below 16 bits, and stands for the same number. -/
theorem foldCarry_residue (acc : UInt32) : Residue (256 * 256) acc.toNat (foldCarry 2 acc).toNat := by
  have hlt := acc.toNat_lt
  -- one round keeps what the accumulator stands for
  have hround : ∀ b : UInt32, ((b &&& (0xFFFF : UInt32)) + (b >>> 16)).toNat ≡ b.toNat [MOD 256 * 256 - 1] ∧
      (((b &&& (0xFFFF : UInt32)) + (b >>> 16)).toNat = 0 ↔ b.toNat = 0) := by
    intro b
    rw [foldRound_toNat]
    exact ⟨mod_add_div_modEq (by decide) _, mod_add_div_eq_zero⟩
  unfold foldCarry
  split
  · rename_i hsmall
    exact residue_self ((shr16_eq_zero acc).mp hsmall)
  obtain ⟨hmod, hzero⟩ := hround acc
  have hfirst := foldRound_toNat acc
  generalize hb : (acc &&& (0xFFFF : UInt32)) + (acc >>> 16) = b at hmod hzero hfirst ⊢
  unfold foldCarry
  split
  · rename_i hsmall
    exact ⟨(shr16_eq_zero b).mp hsmall, hmod, hzero⟩
  obtain ⟨hmod', hzero'⟩ := hround b
  have hsecond := foldRound_toNat b
  refine ⟨?_, hmod'.trans hmod, hzero'.trans hzero⟩
  show ((b &&& (0xFFFF : UInt32)) + (b >>> 16)).toNat < 256 * 256
  omega

/-- The checksum is the complement of what stands for the sum of all words. -/
theorem edgeCksum16_toNat (h : p.length ≤ 131072) :
    ∃ r, Residue (256 * 256) (words16 p).sum r ∧ (edgeCksum16 p p.length).toNat = 256 * 256 - 1 - r := by
  have hres := foldCarry_residue (cksumTotal p p.length)
  rw [cksumTotal_toNat h] at hres
  have hsmall := hres.lt
  refine ⟨_, hres, ?_⟩
  unfold edgeCksum16
  rw [UInt16.toNat_not, toNat_toUInt16, Nat.mod_eq_of_lt (by omega)]

theorem no_overflow (h : p.length ≤ 131072) : NoOverflow p p.length := by
  have hacc : ∀ n ≤ p.length / 2, (cksumAcc p n).toNat ≤ n * 65535 := by
    intro n hn
    have hbound := words16_sum_le (p.take (2 * n))
    rw [length_take, Nat.min_eq_left (by omega), show (2 * n + 1) / 2 = n by omega] at hbound
    rwa [cksumAcc_toNat (by omega) (by omega)]
  refine ⟨fun n hn => ?_, fun hodd => ?_, fun n => ?_⟩
  · have hword : (cksumWord p n).toNat = (rd8 p (2 * n)).toNat * 256 + (rd8 p (2 * n + 1)).toNat := shl8_or_toNat _ _
    have hhigh := (rd8 p (2 * n)).toNat_lt
    have hlow := (rd8 p (2 * n + 1)).toNat_lt
    have := hacc n hn.le
    omega
  · have hlast : (cksumLast p p.length).toNat = (rd8 p (p.length - 1)).toNat * 256 := shl8_toNat _
    have hbyte := (rd8 p (p.length - 1)).toNat_lt
    have := hacc (p.length / 2) le_rfl
    omega
  · generalize foldCarry n (cksumTotal p p.length) = acc
    have hlt := acc.toNat_lt
    rw [shr16_toNat, and16_toNat]
    omega

end Checksum

/-! ## The packets -/

/-- `edge_ipv4_hdr_t` and `ipv4_hdr_t`. -/
structure Ipv4Hdr where
  verIhl : UInt8 := 0
  tos : UInt8 := 0
  totalLenBe : UInt16 := 0
  idBe : UInt16 := 0
  fragBe : UInt16 := 0
  ttl : UInt8 := 0
  proto : UInt8 := 0
  csumBe : UInt16 := 0
  srcBe : UInt32 := 0
  dstBe : UInt32 := 0

/-- The packed record in the memory of a little-endian machine. -/
def Ipv4Hdr.bytes (h : Ipv4Hdr) : Bytes :=
  [h.verIhl, h.tos] ++ le16 h.totalLenBe ++ le16 h.idBe ++ le16 h.fragBe ++ [h.ttl, h.proto] ++ le16 h.csumBe ++
    le32 h.srcBe ++ le32 h.dstBe

/-- The header before an ICMP message, its checksum still zero. -/
def icmpIpHdr (totalLenBe : UInt16) (srcBe dstBe : UInt32) : Ipv4Hdr :=
  { verIhl := 0x45, ttl := 64, proto := 1, totalLenBe := totalLenBe, srcBe := srcBe, dstBe := dstBe }

/-- The header that `edge_queue_ipv4_icmp_packet` writes. -/
def edgeIpv4Hdr (ipLen : UInt32) (srcIpBe : UInt32) : Ipv4Hdr :=
  let ip := icmpIpHdr (((ipLen &&& 0x00FF) <<< 8) ||| ((ipLen &&& 0xFF00) >>> 8)).toUInt16 srcIpBe 0x0F02000A
  { ip with csumBe := edgeCksum16 ip.bytes 20 }

/-- `edge_icmp_reply_t`, and with another address and without a header `edge_icmp6_reply_t`. -/
structure IcmpSlot (A : Type) where
  used : Bool := false
  idBe : UInt16 := 0
  src : A
  len : ℕ := 0
  pkt : Bytes := zeros 1600

abbrev IcmpReply := IcmpSlot UInt32

/-- What `edge_queue_ipv4_icmp_packet` makes of the slot that it has found. -/
def fillReply (icmp : Bytes) (srcIpBe : UInt32) (idBe : UInt16) : IcmpReply :=
  let slot : IcmpReply := { used := true, idBe := idBe, src := srcIpBe, len := 20 + icmp.length }
  if slot.len > 1600 then { slot with used := false }
  else { slot with pkt := patch (patch slot.pkt 0 (edgeIpv4Hdr slot.len.toUInt32 srcIpBe).bytes) 20 icmp }

/-- The slot that a packet goes to: the first free one, else the first. -/
def freeSlot {A : Type} (queue : List (IcmpSlot A)) : ℕ := (queue.findIdx? fun r => !r.used).getD 0

def edgeQueueIpv4IcmpPacket (queue : List IcmpReply) (icmp : Bytes) (srcIpBe : UInt32) (idBe : UInt16) :
    List IcmpReply :=
  if icmp.length < 8 then queue
  else queue.set (freeSlot queue) (fillReply icmp srcIpBe idBe)

def bswap16 (v : UInt16) : UInt16 := v <<< 8 ||| v >>> 8

/-- What the driver knows of itself and of its gateway: `e1000_resolve_gateway_mac` may fail. -/
structure E1000Station where
  ready : Bool
  mac : { b : Bytes // b.length = 6 }
  hostIpBe : UInt32
  gatewayMac : Option { b : Bytes // b.length = 6 }

/-- `e1000_send_icmp_echo`: the frame that it hands to `e1000_send_frame`. -/
def e1000SendIcmpEcho (d : E1000Station) (dstIpBe : UInt32) (payload : Bytes) : Option Bytes :=
  if d.ready = false ∨ payload.length < 8 then none
  else if payload.length > 1400 then none
  else
    d.gatewayMac.map fun gateway =>
      let eh := gateway.1 ++ d.mac.1 ++ le16 (bswap16 0x0800)
      let ip := icmpIpHdr (bswap16 (20 + payload.length).toUInt16) d.hostIpBe dstIpBe
      let ip := { ip with csumBe := csum16 ip.bytes 20 }
      let icmp := put16 payload 2 0
      let icmp := put16 icmp 2 (csum16 icmp payload.length)
      let frm := eh ++ (ip.bytes ++ icmp)
      if frm.length < 60 then frm ++ zeros (60 - frm.length) else frm

/-- `lwip_stack_send_icmp_echo`: the message that it hands to `raw_sendto`. `ready` says that the stack is up and a
buffer is free. -/
def lwipStackSendIcmpEcho (ready : Bool) (payload : Bytes) : Option Bytes :=
  if ready = false ∨ payload.length < 8 then none
  else if payload.length > 1600 then none
  else
    let buf := patch (patch payload 2 [0]) 3 [0]
    let csum := edgeCksum16 buf payload.length
    some (patch (patch buf 2 [(csum >>> 8).toUInt8]) 3 [(csum &&& 0xFF).toUInt8])

/-! ## Right and exchanged checksums -/

section Stored

variable {front back : Bytes}

theorem lowByte_toNat (c : UInt16) : c.toUInt8.toNat = c.toNat % 256 := UInt16.toNat_toUInt8 c

theorem highByte_toNat (c : UInt16) : (c >>> 8).toUInt8.toNat = c.toNat / 256 := by
  have hlt := c.toNat_lt
  have hshift : (c >>> 8).toNat = c.toNat / 256 := by
    rw [UInt16.toNat_shiftRight]
    exact Nat.shiftRight_eq_div_pow _ 8
  rw [UInt16.toNat_toUInt8, hshift]
  omega

theorem maskedByte_toNat (c : UInt16) : (c &&& 0xFF).toUInt8.toNat = c.toNat % 256 := by
  have hmask : (c &&& 0xFF).toNat = c.toNat % 256 := by
    rw [UInt16.toNat_and]
    exact Nat.and_two_pow_sub_one_eq_mod _ 8
  rw [UInt16.toNat_toUInt8, hmask]
  omega

theorem stored_checks (heven : front.length % 2 = 0) (hlen : (front ++ 0 :: 0 :: back).length ≤ 131072) {c : UInt16}
    (hc : c = edgeCksum16 (front ++ 0 :: 0 :: back) (front ++ 0 :: 0 :: back).length) :
    Checks (front ++ (c >>> 8).toUInt8 :: (c &&& 0xFF).toUInt8 :: back) := by
  obtain ⟨r, hres, hval⟩ := edgeCksum16_toNat hlen
  rw [← hc] at hval
  have hlt := hres.lt
  have hword : (c >>> 8).toUInt8.toNat * 256 + (c &&& 0xFF).toUInt8.toNat = c.toNat := by
    rw [highByte_toNat, maskedByte_toNat]
    omega
  rw [checks_iff, words16_middle heven, hword, hval]
  exact hres.complement (by decide)

/-- A checksum that is stored as a word of the machine has its bytes exchanged. -/
theorem native_checks_iff (heven : front.length % 2 = 0) (hlen : (front ++ 0 :: 0 :: back).length ≤ 131072) {c : UInt16}
    (hc : c = edgeCksum16 (front ++ 0 :: 0 :: back) (front ++ 0 :: 0 :: back).length) :
    Checks (front ++ (le16 c ++ back)) ↔ 257 ∣ (words16 (front ++ 0 :: 0 :: back)).sum := by
  obtain ⟨r, hres, hval⟩ := edgeCksum16_toNat hlen
  rw [← hc] at hval
  have hword : c.toUInt8.toNat * 256 + (c >>> 8).toUInt8.toNat = swapDigits 256 c.toNat := by
    rw [highByte_toNat, lowByte_toNat]
    rfl
  unfold le16
  rw [checks_iff, cons_append, cons_append, nil_append, words16_middle heven, hword, hval]
  exact hres.swapped (by decide)

end Stored

/-! ## Headers -/

def addressSum (a : UInt32) : ℕ := (words16 (le32 a)).sum

/-- The words of a header before its checksum, for `n` bytes after the header. -/
def headerSum (n : ℕ) (srcBe dstBe : UInt32) : ℕ := 0x4500 + (20 + n) + 0x4001 + addressSum srcBe + addressSum dstBe

theorem bswap16_toNat (v : UInt16) : (bswap16 v).toNat = v.toNat % 256 * 256 + v.toNat / 256 := by
  have hlt := v.toNat_lt
  have hhigh : (v <<< 8).toNat = v.toNat % 256 * 256 := by
    rw [UInt16.toNat_shiftLeft]
    show v.toNat <<< 8 % 2 ^ 16 = _
    rw [Nat.shiftLeft_eq]
    omega
  have hlow : (v >>> 8).toNat = v.toNat / 256 := by
    rw [UInt16.toNat_shiftRight]
    exact Nat.shiftRight_eq_div_pow _ 8
  have hdiv : v.toNat / 256 < 2 ^ 8 := by omega
  unfold bswap16
  rw [UInt16.toNat_or, hhigh, hlow, show v.toNat % 256 * 256 = (v.toNat % 256) <<< 8 from (Nat.shiftLeft_eq _ 8).symm,
    ← Nat.shiftLeft_add_eq_or_of_lt hdiv]

theorem swapped_word (v : UInt16) : (bswap16 v).toUInt8.toNat * 256 + (bswap16 v >>> 8).toUInt8.toNat = v.toNat := by
  have hlt := v.toNat_lt
  rw [lowByte_toNat, highByte_toNat, bswap16_toNat]
  omega

theorem shifted_word (n : UInt32) :
    (((n &&& 0x00FF) <<< 8) ||| ((n &&& 0xFF00) >>> 8)).toUInt16 = bswap16 n.toUInt16 := by
  apply UInt16.toNat.inj
  have hlow : ((n &&& 0x00FF) <<< 8).toNat = n.toNat % 256 * 256 := by
    have hmask : (n &&& 0x00FF).toNat = n.toNat % 256 := by
      rw [toNat_and]
      exact Nat.and_two_pow_sub_one_eq_mod _ 8
    rw [UInt32.toNat_shiftLeft, hmask]
    show (n.toNat % 256) <<< 8 % 2 ^ 32 = _
    rw [Nat.shiftLeft_eq]
    omega
  have hhigh : ((n &&& 0xFF00) >>> 8).toNat = n.toNat / 256 % 256 := by
    rw [UInt32.toNat_shiftRight, toNat_and]
    show (n.toNat &&& 0xFF00) >>> 8 = _
    rw [Nat.shiftRight_and_distrib, Nat.shiftRight_eq_div_pow]
    exact Nat.and_two_pow_sub_one_eq_mod _ 8
  have hdiv : n.toNat / 256 % 256 < 2 ^ 8 := by omega
  have hlower : n.toNat % 2 ^ 16 % 256 = n.toNat % 256 := by omega
  have hupper : n.toNat % 2 ^ 16 / 256 = n.toNat / 256 % 256 := by omega
  rw [bswap16_toNat, toNat_toUInt16, toNat_toUInt16, toNat_or, hlow, hhigh, hlower, hupper,
    show n.toNat % 256 * 256 = (n.toNat % 256) <<< 8 from (Nat.shiftLeft_eq _ 8).symm,
    ← Nat.shiftLeft_add_eq_or_of_lt hdiv, Nat.shiftLeft_eq, Nat.mod_eq_of_lt (by omega)]

def headerFront (totalLenBe : UInt16) : Bytes := [0x45, 0] ++ le16 totalLenBe ++ [0, 0, 0, 0, 64, 1]

section Header

variable (totalLenBe : UInt16) (src dst : UInt32)

theorem icmpIpHdr_bytes (c : UInt16) : Ipv4Hdr.bytes { icmpIpHdr totalLenBe src dst with csumBe := c } =
    headerFront totalLenBe ++ (le16 c ++ (le32 src ++ le32 dst)) := by
  have hnone : le16 0 = [0, 0] := by decide
  unfold Ipv4Hdr.bytes icmpIpHdr headerFront
  simp only [hnone, append_assoc, cons_append, nil_append]

theorem icmpIpHdr_zero : (icmpIpHdr totalLenBe src dst).bytes =
    headerFront totalLenBe ++ 0 :: 0 :: (le32 src ++ le32 dst) := by
  have hnone : le16 0 = [0, 0] := by decide
  have hbytes := icmpIpHdr_bytes totalLenBe src dst 0
  rw [hnone] at hbytes
  exact hbytes

theorem headerFront_length : (headerFront totalLenBe).length = 10 := rfl

theorem headerFront_sum (n : UInt16) : (words16 (headerFront (bswap16 n) ++ 0 :: 0 :: (le32 src ++ le32 dst))).sum =
      0x4500 + n.toNat + 0x4001 + addressSum src + addressSum dst := by
  have hword := swapped_word n
  have hlen := le32_length src
  have hfront : (words16 (headerFront (bswap16 n))).sum = 0x4500 + n.toNat + 0x4001 := by
    unfold headerFront le16
    simp only [cons_append, nil_append, words16, sum_cons, sum_nil, UInt8.reduceToNat,
      Nat.reduceMul, Nat.reduceAdd, Nat.zero_add]
    rw [hword, Nat.add_assoc]
  have hback : (words16 (0 :: 0 :: (le32 src ++ le32 dst))).sum = addressSum src + addressSum dst := by
    unfold addressSum
    rw [words16, words16_append (hlen ▸ rfl), sum_cons, sum_append]
    exact Nat.zero_add _
  rw [words16_append (headerFront_length _ ▸ rfl), sum_append, hfront, hback, Nat.add_assoc _ (addressSum src)]

end Header

theorem header_checks_iff {n : ℕ} (hn : 20 + n < 65536) (src dst : UInt32) (ip : Ipv4Hdr)
    (hip : ip = icmpIpHdr (bswap16 (20 + n).toUInt16) src dst) :
    Checks (Ipv4Hdr.bytes { ip with csumBe := edgeCksum16 ip.bytes 20 }) ↔ 257 ∣ headerSum n src dst := by
  subst hip
  have hzero := icmpIpHdr_zero (bswap16 (20 + n).toUInt16) src dst
  have hlen : (headerFront (bswap16 (20 + n).toUInt16) ++ 0 :: 0 :: (le32 src ++ le32 dst)).length = 20 := rfl
  have hsum := headerFront_sum src dst (20 + n).toUInt16
  have hnat : (20 + n).toUInt16.toNat = 20 + n := Nat.mod_eq_of_lt hn
  rw [hnat] at hsum
  rw [icmpIpHdr_bytes, hzero, native_checks_iff (headerFront_length _ ▸ rfl) (by omega) (by rw [hlen]), hsum]
  rfl

/-! ## The packets that are built -/

def messageSum (payload : Bytes) : ℕ := (words16 (payload.take 2 ++ 0 :: 0 :: payload.drop 4)).sum

theorem four_bytes {b : Bytes} (h : 4 ≤ b.length) : ∃ x₀ x₁ x₂ x₃ rest, b = x₀ :: x₁ :: x₂ :: x₃ :: rest := by
  match b, h with
  | x₀ :: x₁ :: x₂ :: x₃ :: rest, _ => exact ⟨x₀, x₁, x₂, x₃, rest, rfl⟩

theorem take_patch {b xs : Bytes} {off : ℕ} (h : off ≤ b.length) :
    (patch b off xs).take (off + xs.length) = b.take off ++ xs := by
  have hlen : (b.take off ++ xs).length = off + xs.length := by
    rw [length_append, length_take, Nat.min_eq_left h]
  unfold patch
  rw [← hlen, take_left]

theorem bytesAt_middle (a b c : Bytes) : bytesAt (a ++ (b ++ c)) a.length b.length = b := by
  unfold bytesAt
  rw [drop_left, take_left]

theorem queued_checks_iff {icmp : Bytes} {src : UInt32} {id : UInt16} (hused : (fillReply icmp src id).used = true) :
    Checks (bytesAt (fillReply icmp src id).pkt 0 20) ↔ 257 ∣ headerSum icmp.length src 0x0F02000A := by
  have hfits : ¬ 20 + icmp.length > 1600 := by
    intro hbig
    unfold fillReply at hused
    rw [if_pos hbig] at hused
    exact Bool.false_ne_true hused
  have hpkt : (fillReply icmp src id).pkt =
      patch (patch (zeros 1600) 0 (edgeIpv4Hdr (20 + icmp.length).toUInt32 src).bytes) 20 icmp := by
    unfold fillReply
    rw [if_neg hfits]
  have hlen : (edgeIpv4Hdr (20 + icmp.length).toUInt32 src).bytes.length = 20 := rfl
  have hzeros : (zeros 1600).length = 1600 := length_replicate
  have hhdr : bytesAt (fillReply icmp src id).pkt 0 20 = (edgeIpv4Hdr (20 + icmp.length).toUInt32 src).bytes := by
    generalize (edgeIpv4Hdr (20 + icmp.length).toUInt32 src).bytes = hdr at hpkt hlen
    have hinner : (patch (zeros 1600) 0 hdr).length = 1600 := by rw [length_patch (by omega), hzeros]
    have houter : (patch (patch (zeros 1600) 0 hdr) 20 icmp).length = 1600 := by rw [length_patch (by omega), hinner]
    rw [hpkt]
    apply ext_rd8
    · unfold bytesAt
      rw [length_take, length_drop, houter, hlen]
      rfl
    · intro i hi
      unfold bytesAt at hi
      rw [length_take] at hi
      rw [rd8_bytesAt (by omega), rd8_patch_other (by omega) (by omega), rd8_patch_same (by omega) (by omega)]
  have hword : (20 + icmp.length).toUInt32.toUInt16 = (20 + icmp.length).toUInt16 := by
    apply UInt16.toNat.inj
    rw [toNat_toUInt16]
    show (20 + icmp.length) % 2 ^ 32 % 2 ^ 16 = (20 + icmp.length) % 2 ^ 16
    omega
  rw [hhdr]
  unfold edgeIpv4Hdr
  exact header_checks_iff (by omega) src 0x0F02000A _ (by rw [shifted_word, hword])

theorem message_checks_iff {payload : Bytes} (hlen : 4 ≤ payload.length) (hsmall : payload.length ≤ 1400) :
    Checks (put16 (put16 payload 2 0) 2 (csum16 (put16 payload 2 0) payload.length)) ↔ 257 ∣ messageSum payload := by
  obtain ⟨x₀, x₁, x₂, x₃, rest, rfl⟩ := four_bytes hlen
  have hlength : ([x₀, x₁] ++ 0 :: 0 :: rest).length = (x₀ :: x₁ :: x₂ :: x₃ :: rest).length := rfl
  exact @native_checks_iff [x₀, x₁] rest (Nat.mod_self 2) (by omega) _ rfl

theorem echo_parts {d : E1000Station} {dst : UInt32} {payload frm : Bytes}
    (h : e1000SendIcmpEcho d dst payload = some frm) :
    8 ≤ payload.length ∧ payload.length ≤ 1400 ∧ bytesAt frm 14 20 = Ipv4Hdr.bytes
        { icmpIpHdr (bswap16 (20 + payload.length).toUInt16) d.hostIpBe dst with
          csumBe := csum16 (icmpIpHdr (bswap16 (20 + payload.length).toUInt16) d.hostIpBe dst).bytes 20 } ∧
      bytesAt frm 34 payload.length = put16 (put16 payload 2 0) 2 (csum16 (put16 payload 2 0) payload.length) := by
  unfold e1000SendIcmpEcho at h
  split at h
  · cases h
  rename_i hready
  split at h
  · cases h
  rename_i hsmall
  have hlong : ¬ payload.length < 8 := fun hshort => hready (Or.inr hshort)
  refine ⟨by omega, by omega, ?_⟩
  obtain ⟨gateway, -, hfrm⟩ := Option.map_eq_some_iff.mp h
  dsimp only at hfrm
  have heh : (gateway.1 ++ d.mac.1 ++ le16 (bswap16 0x0800)).length = 14 := by
    rw [length_append, length_append, gateway.2, d.mac.2, le16_length]
  have hmsg : (put16 (put16 payload 2 0) 2 (csum16 (put16 payload 2 0) payload.length)).length = payload.length := by
    have hzero : (put16 payload 2 0).length = payload.length := length_put16 (by omega)
    rw [length_put16 (by omega), hzero]
  have hhdr : (Ipv4Hdr.bytes
      { icmpIpHdr (bswap16 (20 + payload.length).toUInt16) d.hostIpBe dst with
        csumBe := csum16 (icmpIpHdr (bswap16 (20 + payload.length).toUInt16) d.hostIpBe dst).bytes 20 }).length = 20 :=
    rfl
  generalize gateway.1 ++ d.mac.1 ++ le16 (bswap16 0x0800) = eh at hfrm heh
  generalize put16 (put16 payload 2 0) 2 (csum16 (put16 payload 2 0) payload.length) = msg at hfrm hmsg ⊢
  generalize Ipv4Hdr.bytes
      { icmpIpHdr (bswap16 (20 + payload.length).toUInt16) d.hostIpBe dst with
        csumBe := csum16 (icmpIpHdr (bswap16 (20 + payload.length).toUInt16) d.hostIpBe dst).bytes 20 } = hdr
    at hfrm hhdr ⊢
  -- a short frame is padded behind the message
  obtain ⟨pad, hpad⟩ : ∃ pad, frm = eh ++ (hdr ++ (msg ++ pad)) := by
    split at hfrm
    · exact ⟨_, by rw [← hfrm, append_assoc, append_assoc]⟩
    · exact ⟨[], by rw [← hfrm, append_nil]⟩
  have hfirst := bytesAt_middle eh hdr (msg ++ pad)
  have hsecond := bytesAt_middle (eh ++ hdr) msg pad
  rw [heh, hhdr] at hfirst
  rw [length_append, heh, hhdr, hmsg, append_assoc] at hsecond
  rw [hpad]
  exact ⟨hfirst, hsecond⟩

theorem sent_checks {ready : Bool} {payload msg : Bytes} (h : lwipStackSendIcmpEcho ready payload = some msg) :
    Checks msg := by
  unfold lwipStackSendIcmpEcho at h
  split at h
  · cases h
  rename_i hready
  split at h
  · cases h
  rename_i hsmall
  have hlen : 4 ≤ payload.length := by
    have := fun hshort => hready (Or.inr hshort)
    omega
  obtain ⟨x₀, x₁, x₂, x₃, rest, rfl⟩ := four_bytes hlen
  have hlength : ([x₀, x₁] ++ 0 :: 0 :: rest).length = (x₀ :: x₁ :: x₂ :: x₃ :: rest).length := rfl
  rw [← Option.some.inj h]
  exact @stored_checks [x₀, x₁] rest (Nat.mod_self 2) (by omega) _ rfl

theorem freeSlot_lt {A : Type} {queue : List (IcmpSlot A)} (h : queue ≠ []) : freeSlot queue < queue.length := by
  unfold freeSlot
  cases hfind : queue.findIdx? fun r => !r.used with
  | none => exact length_pos_of_ne_nil h
  | some i => exact (findIdx?_eq_some_iff_getElem.mp hfind).1

/-- The checksums that are stored as words of the machine are right exactly when 257 divides the sum of the other words;
the one that is stored byte by byte is always right. No accumulator overflows. -/
theorem checksums_exact (queue : List IcmpReply) (d : E1000Station) :
    (∀ (icmp : Bytes) (src : UInt32) (id : UInt16) (reply : IcmpReply), queue ≠ [] →
      8 ≤ icmp.length → (edgeQueueIpv4IcmpPacket queue icmp src id)[freeSlot queue]? = some reply →
      reply.used = true → (Checks (bytesAt reply.pkt 0 20) ↔ 257 ∣ headerSum icmp.length src 0x0F02000A)) ∧
    (∀ (dst : UInt32) (payload frm : Bytes), e1000SendIcmpEcho d dst payload = some frm →
      (Checks (bytesAt frm 14 20) ↔ 257 ∣ headerSum payload.length d.hostIpBe dst) ∧
      (Checks (bytesAt frm 34 payload.length) ↔ 257 ∣ messageSum payload)) ∧
    (∀ (ready : Bool) (payload msg : Bytes), lwipStackSendIcmpEcho ready payload = some msg → Checks msg) ∧
    ∀ data : Bytes, data.length ≤ 1600 → NoOverflow data data.length := by
  refine ⟨?_, ?_, fun ready payload msg h => sent_checks h, fun data h => no_overflow (by omega)⟩
  · intro icmp src id reply hqueue hlen hget hused
    unfold edgeQueueIpv4IcmpPacket at hget
    rw [if_neg (by omega), List.getElem?_set_self (freeSlot_lt hqueue)] at hget
    obtain rfl := Option.some.inj hget
    exact queued_checks_iff hused
  · intro dst payload frm h
    obtain ⟨hlong, hshort, hhdr, hmsg⟩ := echo_parts h
    rw [hhdr, hmsg]
    exact ⟨header_checks_iff (by omega) d.hostIpBe dst _ rfl, message_checks_iff (by omega) hshort⟩

def echoStation : E1000Station where
  ready := true
  mac := ⟨[0x52, 0x54, 0, 0x12, 0x34, 0x56], rfl⟩
  hostIpBe := 0x0F02000A
  gatewayMac := some ⟨[0x52, 0x55, 10, 0, 2, 2], rfl⟩

/-- A request of eight bytes to 10.0.2.113 whose words are all balanced. -/
theorem balanced_echo_exact : (∃ frm, e1000SendIcmpEcho echoStation 0x7102000A [8, 0, 0, 0, 0, 8, 0, 0] = some frm ∧
      Checks (bytesAt frm 14 20) ∧ Checks (bytesAt frm 34 8)) ∧
    (∃ reply, (edgeQueueIpv4IcmpPacket [{ src := 0 }] [0, 0, 0, 0, 0, 8, 0, 0] 0x7102000A 0)[0]? = some reply ∧
      Checks (bytesAt reply.pkt 0 20)) ∧
    (∃ msg, lwipStackSendIcmpEcho true [8, 0, 0, 0, 0, 8, 0, 0] = some msg ∧ Checks msg) ∧
    NoOverflow [8, 0, 0, 0, 0, 8, 0, 0] 8 := by
  obtain ⟨hqueue, hdriver, hstack, hacc⟩ := checksums_exact [{ src := 0 }] echoStation
  refine ⟨?_, ?_, ?_, hacc [8, 0, 0, 0, 0, 8, 0, 0] (by decide)⟩
  · obtain ⟨hhdr, hmsg⟩ := hdriver 0x7102000A [8, 0, 0, 0, 0, 8, 0, 0] _ rfl
    exact ⟨_, rfl, hhdr.mpr (by decide), hmsg.mpr (by decide)⟩
  · have h := hqueue [0, 0, 0, 0, 0, 8, 0, 0] 0x7102000A 0 _ (List.cons_ne_nil _ _) (by decide) rfl rfl
    exact ⟨_, rfl, h.mpr (by decide)⟩
  · exact ⟨_, rfl, hstack true [8, 0, 0, 0, 0, 8, 0, 0] _ rfl⟩

/-- The header of a request to the gateway does not check. -/
theorem gateway_echo_wrong : ¬ ((∀ (queue : List IcmpReply) (icmp : Bytes) (src : UInt32) (id : UInt16)
      (reply : IcmpReply), queue ≠ [] → 8 ≤ icmp.length →
      (edgeQueueIpv4IcmpPacket queue icmp src id)[freeSlot queue]? = some reply → reply.used = true →
      Checks (bytesAt reply.pkt 0 20)) ∧
    (∀ (d : E1000Station) (dst : UInt32) (payload frm : Bytes), e1000SendIcmpEcho d dst payload = some frm →
      Checks (bytesAt frm 14 20) ∧ Checks (bytesAt frm 34 payload.length)) ∧
    (∀ (ready : Bool) (payload msg : Bytes), lwipStackSendIcmpEcho ready payload = some msg → Checks msg) ∧
    ∀ data : Bytes, data.length ≤ 1600 → NoOverflow data data.length) := by
  rintro ⟨-, hdriver, -, -⟩
  obtain ⟨hhdr, -⟩ := hdriver echoStation 0x0202000A [8, 0, 0, 0, 0, 8, 0, 0] _ rfl
  exact absurd hhdr (by decide +kernel)

end EdgeOS
