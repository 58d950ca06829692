import Mathlib.Data.List.Basic
import Mathlib.Data.List.GetD
import Mathlib.Data.List.TakeWhile
import Mathlib.Order.Basic

namespace EdgeOS

/-!
`edge_apply_dns_servers_from_text` of `src/net/lwip_stack.c`: the name servers of a resolver
configuration. Addresses and `ipaddr_aton` belong to lwIP and are parameters, as is
`DNS_MAX_SERVERS`.
-/

open List

def edgeIsSpace (c : UInt8) : Bool := c == 0x20 || c == 0x09 || c == 0x0D || c == 0x0A

def nameserverKey : List UInt8 := [0x6E, 0x61, 0x6D, 0x65, 0x73, 0x65, 0x72, 0x76, 0x65, 0x72]

/-- `line[160]` and `token[80]` without their last byte. -/
abbrev dnsLineMax : ℕ := 159
abbrev dnsTokenMax : ℕ := 79

/-- The variables of `edge_apply_dns_servers_from_text`. `taken` are the lines that were looked at. -/
structure DnsText (α : Type) where
  line : List UInt8 := []
  parsed : List α := []
  taken : List (List UInt8) := []
  deriving DecidableEq, Repr

namespace DnsText

variable {α : Type} (aton : List UInt8 → Option α) (maxServers : ℕ)

/-- The bytes of a token: up to a blank or a comment, as far as `token` goes. -/
def tokenOf (l : List UInt8) : List UInt8 :=
  (l.takeWhile fun c => !edgeIsSpace c && c != 0x23).take dnsTokenMax

def takeLine (line : List UInt8) (s : DnsText α) : DnsText α :=
  let s := { s with line := [], taken := s.taken ++ [line] }
  let l := line.dropWhile edgeIsSpace
  if l.head? = some 0x23 then s
  else if l.take 10 ≠ nameserverKey then s
  else if (l.drop 10).head?.any fun c => !edgeIsSpace c then s
  else
    let token := tokenOf ((l.drop 10).dropWhile edgeIsSpace)
    if token.length = 0 then s
    else if s.parsed.length ≥ maxServers then s
    else
      match aton token with
      | some a => { s with parsed := s.parsed ++ [a] }
      | none => s

def takeTail (line : List UInt8) (s : DnsText α) : DnsText α :=
  let s := { s with line := [], taken := s.taken ++ [line] }
  let l := line.dropWhile edgeIsSpace
  if l.head? ≠ some 0x23 ∧ l.take 10 = nameserverKey ∧ (l.drop 10).head?.all edgeIsSpace then
    let token := tokenOf ((l.drop 10).dropWhile edgeIsSpace)
    if token.length > 0 ∧ s.parsed.length < maxServers then
      match aton token with
      | some a => { s with parsed := s.parsed ++ [a] }
      | none => s
    else s
  else s

/-- One byte of the text. The byte that finds the line full ends it and is lost. -/
def step (s : DnsText α) (c : UInt8) : DnsText α :=
  if c = 0x0D then s
  else if c = 0x0A ∨ s.line.length ≥ dnsLineMax then takeLine aton maxServers s.line s
  else { s with line := s.line ++ [c] }

def parse (text : List UInt8) : DnsText α :=
  let s := text.foldl (step aton maxServers) {}
  if s.line.length > 0 then takeTail aton maxServers s.line s else s

/-- The servers that `edge_apply_dns_servers_from_text` sets. -/
def servers (zero : α) (text : List UInt8) : List α :=
  (List.range maxServers).map fun i => (parse aton maxServers text).parsed.getD i zero

end DnsText

/-! ## The grammar -/

/-- The lines of a text whose first line begins with `cur`; what follows the last newline is a line
if there is something. -/
def splitLines (cur : List UInt8) : List UInt8 → List (List UInt8)
  | [] => if cur = [] then [] else [cur]
  | c :: text => if c = 0x0A then cur :: splitLines [] text else splitLines (cur ++ [c]) text

/-- A line ends with a newline; a carriage return is no part of it. -/
def linesOf (text : List UInt8) : List (List UInt8) := splitLines [] (text.filter fun c => c ≠ 0x0D)

def firstWord (line : List UInt8) : List UInt8 :=
  (line.dropWhile edgeIsSpace).takeWhile fun c => !edgeIsSpace c

def secondWord (line : List UInt8) : List UInt8 :=
  (((line.dropWhile edgeIsSpace).dropWhile fun c => !edgeIsSpace c).dropWhile edgeIsSpace).takeWhile
    fun c => !edgeIsSpace c && c != 0x23

def serverWord (line : List UInt8) : Option (List UInt8) :=
  if firstWord line = nameserverKey then some (secondWord line) else none

def serverAddr {α : Type} (aton : List UInt8 → Option α) (word : List UInt8) : Option α :=
  if word = [] then none else aton word

/-- The lines that are looked at are the lines of the text, and the servers are the first addresses among the second
words of those that name one. -/
structure DnsText.Exact {α : Type} (aton : List UInt8 → Option α) (maxServers : ℕ) (zero : α)
    (text : List UInt8) : Prop where
  lines : (parse aton maxServers text).taken = linesOf text
  servers : servers aton maxServers zero text = (List.range maxServers).map fun i =>
    ((((linesOf text).filterMap serverWord).filterMap (serverAddr aton)).take maxServers).getD i zero

/-- No line is too long for `line`, and no server for `token`. -/
def FitsBuffers (text : List UInt8) : Prop :=
  ∀ l ∈ linesOf text, l.length ≤ dnsLineMax ∧ ∀ w ∈ serverWord l, w.length ≤ dnsTokenMax

/-- No line is too long for `line`, and for `aton` it makes no difference that `token` cuts a word. -/
def CutsAlike {α : Type} (aton : List UInt8 → Option α) (text : List UInt8) : Prop :=
  ∀ l ∈ linesOf text, l.length ≤ dnsLineMax ∧
    ∀ w ∈ serverWord l, serverAddr aton (w.take dnsTokenMax) = serverAddr aton w

/-! ## One line -/

theorem any_not_space (o : Option UInt8) : (o.any fun c => !edgeIsSpace c) = !o.all edgeIsSpace := by
  cases o with
  | none => rfl
  | some c => rfl

theorem nameserver_iff (l : List UInt8) : (l.take 10 = nameserverKey ∧ (l.drop 10).head?.all edgeIsSpace = true) ↔
      (l.takeWhile fun c => !edgeIsSpace c) = nameserverKey := by
  constructor
  · rintro ⟨htake, hnext⟩
    have hrest : (l.drop 10).takeWhile (fun c => !edgeIsSpace c) = [] := by
      rcases hd : l.drop 10 with _ | ⟨c, rest⟩
      · rfl
      · rw [hd] at hnext
        exact takeWhile_cons_of_neg (by simpa using hnext)
    conv_lhs => rw [← take_append_drop 10 l, htake]
    rw [takeWhile_append_of_pos (all_eq_true.mp (by decide)), hrest, append_nil]
  · intro h
    have hsplit := takeWhile_append_dropWhile (p := fun c => !edgeIsSpace c) (l := l)
    rw [h] at hsplit
    refine ⟨by rw [← hsplit]; rfl, ?_⟩
    have hd : l.drop 10 = l.dropWhile fun c => !edgeIsSpace c := by
      conv_lhs => rw [← hsplit]
      rfl
    rw [hd]
    rcases hw : l.dropWhile fun c => !edgeIsSpace c with _ | ⟨c, rest⟩
    · rfl
    have hne : (l.dropWhile fun c => !edgeIsSpace c) ≠ [] := by rw [hw]; simp
    have hc := head_dropWhile_not (fun c => !edgeIsSpace c) hne
    simp only [hw, head_cons] at hc
    simpa using hc

/-- Behind the key the rest of the line is what follows its first word. -/
theorem drop_key {l : List UInt8} (h : (l.takeWhile fun c => !edgeIsSpace c) = nameserverKey) :
    l.drop 10 = l.dropWhile fun c => !edgeIsSpace c := by
  have hsplit := takeWhile_append_dropWhile (p := fun c => !edgeIsSpace c) (l := l)
  rw [h] at hsplit
  conv_lhs => rw [← hsplit]
  rfl

theorem head_of_key {l : List UInt8} (h : (l.takeWhile fun c => !edgeIsSpace c) = nameserverKey) :
    l.head? ≠ some 0x23 := by
  have hsplit := takeWhile_append_dropWhile (p := fun c => !edgeIsSpace c) (l := l)
  rw [h] at hsplit
  rw [← hsplit]
  show (some 0x6E : Option UInt8) ≠ some 0x23
  decide

namespace DnsText

variable {α : Type} (aton : List UInt8 → Option α) (maxServers : ℕ)

/-- A line is looked at, and `word` is the token that it gives. -/
def record (line : List UInt8) (word : Option (List UInt8)) (s : DnsText α) : DnsText α where
  line := []
  taken := s.taken ++ [line]
  parsed := s.parsed ++ if s.parsed.length < maxServers then (word.bind (serverAddr aton)).toList else []

def lineToken (line : List UInt8) : Option (List UInt8) := (serverWord line).map (List.take dnsTokenMax)

theorem lineToken_key {line : List UInt8} (h : firstWord line = nameserverKey) : lineToken line =
      some (tokenOf (((line.dropWhile edgeIsSpace).drop 10).dropWhile edgeIsSpace)) := by
  unfold lineToken serverWord
  rw [if_pos h, drop_key h]
  rfl

theorem lineToken_other {line : List UInt8} (h : firstWord line ≠ nameserverKey) : lineToken line = none := by
  unfold lineToken serverWord
  rw [if_neg h]
  rfl

theorem serverAddr_eq (token : List UInt8) (h : token.length ≠ 0) :
    serverAddr aton token = aton token := if_neg fun h0 => h (by rw [h0]; rfl)

theorem takeLine_eq (line : List UInt8) (s : DnsText α) :
    takeLine aton maxServers line s = record aton maxServers line (lineToken line) s := by
  have hnone : record aton maxServers line none s = { s with line := [], taken := s.taken ++ [line] } := by
    unfold record
    simp
  unfold takeLine
  dsimp only
  by_cases hkey : firstWord line = nameserverKey
  · obtain ⟨htake, hnext⟩ := (nameserver_iff _).mpr hkey
    have hany : ¬ ((line.dropWhile edgeIsSpace).drop 10).head?.any (fun c => !edgeIsSpace c) = true := by
      rw [any_not_space, hnext]
      decide
    rw [lineToken_key hkey, if_neg (head_of_key hkey), if_neg (not_not.mpr htake), if_neg hany]
    generalize tokenOf _ = token
    unfold record
    dsimp only [Option.toList, Option.bind]
    by_cases hlen : token.length = 0
    · have hnone : serverAddr aton token = none := if_pos (eq_nil_of_length_eq_zero hlen)
      rw [if_pos hlen, hnone]
      simp
    rw [if_neg hlen, serverAddr_eq aton token hlen]
    by_cases hfull : s.parsed.length ≥ maxServers
    · rw [if_pos hfull, if_neg (by omega), append_nil]
    rw [if_neg hfull, if_pos (by omega)]
    cases aton token with
    | none => simp
    | some a => rfl
  · rw [lineToken_other hkey, hnone]
    split
    · rfl
    split
    · rfl
    split
    · rfl
    rename_i h1 h2 h3
    rw [any_not_space] at h3
    exact absurd ((nameserver_iff _).mp ⟨not_not.mp h2, by simpa using h3⟩) hkey

theorem takeTail_eq (line : List UInt8) (s : DnsText α) :
    takeTail aton maxServers line s = record aton maxServers line (lineToken line) s := by
  rw [← takeLine_eq]
  unfold takeTail takeLine
  dsimp only
  by_cases hkey : firstWord line = nameserverKey
  · obtain ⟨htake, hnext⟩ := (nameserver_iff _).mpr hkey
    have hhead := head_of_key hkey
    have hany : ¬ ((line.dropWhile edgeIsSpace).drop 10).head?.any (fun c => !edgeIsSpace c) = true := by
      rw [any_not_space, hnext]
      decide
    rw [if_pos ⟨hhead, htake, hnext⟩, if_neg hhead, if_neg (not_not.mpr htake), if_neg hany]
    generalize tokenOf _ = token
    by_cases hlen : token.length = 0
    · rw [if_neg (by omega), if_pos hlen]
    by_cases hfull : s.parsed.length ≥ maxServers
    · rw [if_neg (by omega), if_neg hlen, if_pos hfull]
    · rw [if_pos (by omega), if_neg hlen, if_neg hfull]
  · rw [if_neg fun h => hkey ((nameserver_iff _).mp h.2)]
    split
    · rfl
    split
    · rfl
    split
    · rfl
    rename_i h1 h2 h3
    rw [any_not_space] at h3
    exact absurd ((nameserver_iff _).mp ⟨not_not.mp h2, by simpa using h3⟩) hkey

/-! ## The whole text -/

def finish (s : DnsText α) : DnsText α :=
  if s.line.length > 0 then takeTail aton maxServers s.line s else s

theorem long_line (cur : List UInt8) (hcur : cur ≠ []) (text : List UInt8) :
    ∃ l ∈ splitLines cur text, cur.length ≤ l.length := by
  induction text generalizing cur with
  | nil => exact ⟨cur, by simp [splitLines, hcur], le_rfl⟩
  | cons c text ih =>
    unfold splitLines
    split
    · exact ⟨cur, by simp, le_rfl⟩
    obtain ⟨l, hl, hle⟩ := ih (cur ++ [c]) (by simp)
    rw [length_append] at hle
    exact ⟨l, hl, by omega⟩

/-- While the lines are short, each is looked at as a whole. -/
theorem foldl_lines (text : List UInt8) (s : DnsText α)
    (hfit : ∀ l ∈ splitLines s.line (text.filter fun c => c ≠ 0x0D), l.length ≤ dnsLineMax) :
    finish aton maxServers (text.foldl (step aton maxServers) s) =
      (splitLines s.line (text.filter fun c => c ≠ 0x0D)).foldl
        (fun s l => record aton maxServers l (lineToken l) s) s := by
  induction text generalizing s with
  | nil =>
    unfold finish
    by_cases hnil : s.line = []
    · rw [foldl_nil, if_neg (by simp [hnil])]
      simp [splitLines, hnil]
    have hpos : s.line.length > 0 := length_pos_of_ne_nil hnil
    rw [foldl_nil, if_pos hpos, takeTail_eq]
    simp [splitLines, hnil]
  | cons c text ih =>
    rw [foldl_cons]
    by_cases hcr : c = 0x0D
    · have hstep : step aton maxServers s c = s := if_pos hcr
      rw [filter_cons_of_neg (by simp [hcr])] at hfit ⊢
      rw [hstep]
      exact ih s hfit
    rw [filter_cons_of_pos (by simp [hcr])] at hfit ⊢
    by_cases hlf : c = 0x0A
    · have hstep : step aton maxServers s c = record aton maxServers s.line (lineToken s.line) s := by
        unfold step
        rw [if_neg hcr, if_pos (.inl hlf), takeLine_eq]
      have hsplit : ∀ t, splitLines s.line (c :: t) = s.line :: splitLines [] t := fun _ => if_pos hlf
      rw [hsplit] at hfit ⊢
      rw [hstep, foldl_cons]
      exact ih _ (forall_mem_cons.mp hfit).2
    have hsplit : ∀ t, splitLines s.line (c :: t) = splitLines (s.line ++ [c]) t := fun _ => if_neg hlf
    rw [hsplit] at hfit ⊢
    obtain ⟨l, hl, hlong⟩ := long_line (s.line ++ [c]) (by simp) (text.filter fun c => c ≠ 0x0D)
    have hshort := hfit l hl
    rw [length_append, length_singleton] at hlong
    have hstep : step aton maxServers s c = { s with line := s.line ++ [c] } := by
      unfold step
      rw [if_neg hcr, if_neg (not_or.mpr ⟨hlf, by omega⟩)]
    have hih := ih { s with line := s.line ++ [c] } hfit
    -- What a line records does not depend on what was in the buffer before.
    obtain ⟨l', ls, hcons⟩ : ∃ l' ls, splitLines (s.line ++ [c])
        (text.filter fun c => c ≠ 0x0D) = l' :: ls := exists_cons_of_ne_nil (ne_nil_of_mem hl)
    rw [hstep, hih, hcons]
    rfl

theorem foldl_record (ls : List (List UInt8)) (s : DnsText α) (hs : s.parsed.length ≤ maxServers) :
    (ls.foldl (fun s l => record aton maxServers l (lineToken l) s) s).taken = s.taken ++ ls ∧
      (ls.foldl (fun s l => record aton maxServers l (lineToken l) s) s).parsed =
        (s.parsed ++ (ls.filterMap lineToken).filterMap (serverAddr aton)).take maxServers := by
  induction ls generalizing s with
  | nil => simp [take_of_length_le hs]
  | cons l ls ih =>
    rw [foldl_cons]
    obtain ⟨h1, h2⟩ := ih (record aton maxServers l (lineToken l) s) (by
      unfold record
      dsimp only
      split
      · rcases (lineToken l).bind (serverAddr aton) with _ | a
        · simpa using hs
        · simp only [Option.toList, length_append, length_singleton]
          omega
      · simpa using hs)
    rw [h1, h2]
    unfold record
    refine ⟨by simp, ?_⟩
    · dsimp only
      by_cases hroom : s.parsed.length < maxServers
      · rw [if_pos hroom]
        cases htok : lineToken l with
        | none => simp [htok]
        | some w => cases haddr : serverAddr aton w <;> simp [htok, haddr]
      -- The table is full: nothing is added in either way.
      have hfull : s.parsed.length = maxServers := by omega
      rw [if_neg hroom, append_nil, ← hfull, take_left', take_left']
      · rfl
      · rfl

/-- What was looked at is never longer than the buffers. -/
structure Held (aton : List UInt8 → Option α) (s : DnsText α) : Prop where
  line : s.line.length ≤ dnsLineMax
  taken : ∀ l ∈ s.taken, l.length ≤ dnsLineMax
  parsed : ∀ a ∈ s.parsed, ∃ w, w.length ≤ dnsTokenMax ∧ aton w = some a

variable {aton maxServers}

theorem Held.record {s : DnsText α} (h : s.Held aton) :
    (record aton maxServers s.line (lineToken s.line) s).Held aton := by
  refine ⟨Nat.zero_le _, fun l hl => ?_, fun a ha => ?_⟩
  · rcases mem_append.mp hl with hl | hl
    · exact h.taken l hl
    · exact mem_singleton.mp hl ▸ h.line
  · rcases mem_append.mp ha with ha | ha
    · exact h.parsed a ha
    split at ha
    · obtain ⟨w, hw, haddr⟩ := Option.bind_eq_some_iff.mp (Option.mem_toList.mp ha)
      obtain ⟨w', -, rfl⟩ := Option.map_eq_some_iff.mp hw
      unfold serverAddr at haddr
      split at haddr
      · cases haddr
      · exact ⟨_, length_take_le _ _, haddr⟩
    · exact absurd ha not_mem_nil

theorem Held.step {s : DnsText α} (h : s.Held aton) (c : UInt8) : (step aton maxServers s c).Held aton := by
  unfold DnsText.step
  split
  · exact h
  split
  · rw [takeLine_eq]
    exact h.record
  rename_i hno
  refine ⟨?_, h.taken, h.parsed⟩
  rw [length_append, length_singleton]
  omega

theorem held_parse (aton : List UInt8 → Option α) (maxServers : ℕ) (text : List UInt8) :
    (parse aton maxServers text).Held aton := by
  have hloop : ∀ s : DnsText α, s.Held aton → (text.foldl (DnsText.step aton maxServers) s).Held aton := by
    induction text with
    | nil => exact fun s h => h
    | cons c text ih => exact fun s h => ih _ (h.step c)
  have h := hloop {} ⟨Nat.zero_le _, by simp, by simp⟩
  unfold parse
  dsimp only
  split
  · rw [takeTail_eq]
    exact h.record
  · exact h

theorem parsed_newline (text : List UInt8) :
    (parse aton maxServers (text ++ [0x0A])).parsed = (parse aton maxServers text).parsed := by
  unfold parse
  rw [foldl_append, foldl_cons, foldl_nil]
  generalize text.foldl (DnsText.step aton maxServers) {} = s
  have hstep : DnsText.step aton maxServers s 0x0A = record aton maxServers s.line (lineToken s.line) s := by
    unfold DnsText.step
    rw [if_neg (by decide), if_pos (.inl rfl), takeLine_eq]
  have hdone : ¬ (record aton maxServers s.line (lineToken s.line) s).line.length > 0 :=
    Nat.not_lt_zero _
  rw [hstep]
  dsimp only
  rw [if_neg hdone]
  split
  · rw [takeTail_eq]
  rename_i hempty
  rw [eq_nil_of_length_eq_zero (Nat.eq_zero_of_not_pos hempty)]
  have hnone : lineToken [] = none := lineToken_other (by decide)
  unfold record
  rw [hnone]
  simp

theorem CutsAlike.exact {text : List UInt8} (h : CutsAlike aton text) (zero : α) :
    Exact aton maxServers zero text := by
  have hparse : parse aton maxServers text = (linesOf text).foldl
      (fun s l => record aton maxServers l (lineToken l) s) {} :=
    foldl_lines aton maxServers text {} fun l hl => (h l hl).1
  obtain ⟨hlines, haddrs⟩ := foldl_record aton maxServers (linesOf text) {} (Nat.zero_le _)
  have hwords : ((linesOf text).filterMap lineToken).filterMap (serverAddr aton) =
      ((linesOf text).filterMap serverWord).filterMap (serverAddr aton) := by
    rw [filterMap_filterMap, filterMap_filterMap]
    refine filterMap_congr fun l hl => ?_
    unfold lineToken
    cases hw : serverWord l with
    | none => rfl
    | some w => exact (h l hl).2 w hw
  refine ⟨by rw [hparse, hlines]; rfl, ?_⟩
  unfold DnsText.servers
  rw [hparse, haddrs, hwords]
  rfl

/-- With a predicate that takes every word for an address, the servers show how long the words are that it is given. -/
theorem fits_of_exact {text : List UInt8}
    (h : Exact some (linesOf text).length ([] : List UInt8) text) : FitsBuffers text := by
  have hheld := held_parse some (linesOf text).length text
  refine fun l hl => ⟨hheld.taken l (by rw [h.lines]; exact hl), fun w hw => ?_⟩
  by_contra hlong
  have hne : w ≠ [] := fun hnil => hlong (by rw [hnil]; exact Nat.zero_le _)
  have hmem : w ∈ ((linesOf text).filterMap serverWord).filterMap (serverAddr some) :=
    mem_filterMap.mpr ⟨w, mem_filterMap.mpr ⟨l, hl, hw⟩, if_neg hne⟩
  obtain ⟨i, hi, hget⟩ := getElem_of_mem hmem
  have hcount : (((linesOf text).filterMap serverWord).filterMap (serverAddr some)).length ≤ (linesOf text).length :=
    (length_filterMap_le _ _).trans (length_filterMap_le _ _)
  have hserver := congrArg (·[i]?) h.servers
  unfold DnsText.servers at hserver
  rw [take_of_length_le hcount] at hserver
  simp only [getElem?_map, getElem?_range (hi.trans_le hcount), Option.map_some, Option.some.injEq] at hserver
  rw [getD_eq_getElem _ _ hi, hget] at hserver
  rcases Nat.lt_or_ge i (parse some (linesOf text).length text).parsed.length with hin | hout
  · rw [getD_eq_getElem _ _ hin] at hserver
    obtain ⟨w', hshort, hw'⟩ := hheld.parsed _ (getElem_mem hin)
    rw [hserver] at hw'
    exact hlong (Option.some.inj hw' ▸ hshort)
  · rw [getD_eq_default _ _ hout] at hserver
    exact hne hserver.symm

/-- The servers of a text are the right ones whatever counts as an address if and only if its lines and words fit into
the buffers, and for a given `ipaddr_aton` also when the words that are cut are to it what the whole ones are; and they
are the same with and without a final newline. -/
theorem resolv_conf_exact (text : List UInt8) :
    ((∀ (α : Type) (aton : List UInt8 → Option α) (maxServers : ℕ) (zero : α), Exact aton maxServers zero text) ↔
      FitsBuffers text) ∧
    ∀ (α : Type) (aton : List UInt8 → Option α) (maxServers : ℕ) (zero : α),
      (CutsAlike aton text → Exact aton maxServers zero text) ∧
      servers aton maxServers zero (text ++ [0x0A]) = servers aton maxServers zero text := by
  refine ⟨⟨fun h => fits_of_exact (h _ _ _ _), fun h α aton n zero => ?_⟩, fun α aton n zero =>
    ⟨fun h => CutsAlike.exact h zero, ?_⟩⟩
  · refine CutsAlike.exact (fun l hl => ⟨(h l hl).1, fun w hw => ?_⟩) zero
    rw [take_of_length_le ((h l hl).2 w hw)]
  · unfold servers
    rw [parsed_newline]

end DnsText

def smugglingText : List UInt8 :=
  [0x23] ++ List.replicate 159 0x78 ++ nameserverKey ++ [0x20, 0x36, 0x2E, 0x36, 0x2E, 0x36, 0x2E, 0x36]

/-- An `ipaddr_aton` that knows one address. -/
def sixesOnly (w : List UInt8) : Option ℕ :=
  if w = [0x36, 0x2E, 0x36, 0x2E, 0x36, 0x2E, 0x36] then some 1 else none

/-- The text is one line, a comment, and names no server; the end of the line is taken as a line of
its own, and its server is set. -/
theorem comment_smuggles : (linesOf smugglingText).filterMap serverWord = [] ∧
      DnsText.servers sixesOnly 2 0 smugglingText = [1, 0] ∧
      ¬ DnsText.Exact sixesOnly 2 0 smugglingText := by
  have hwords : (linesOf smugglingText).filterMap serverWord = [] := by decide +kernel
  have hset : DnsText.servers sixesOnly 2 0 smugglingText = [1, 0] := by decide +kernel
  refine ⟨hwords, hset, fun h => ?_⟩
  have hservers := h.servers
  rw [hwords, hset] at hservers
  exact absurd hservers (by decide)

end EdgeOS
