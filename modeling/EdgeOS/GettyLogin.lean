import EdgeOS.Credentials
import EdgeOS.Ext4
import Mathlib.Data.List.TakeWhile

namespace EdgeOS

open Lib List

/-!
The login of `getty`: the user's line in /etc/passwd, the check of the password, the change of identity and the
shell. A file is read into a buffer of 4096 bytes and cut up in place; a typed line is what `readline` returns.
-/

abbrev lineFeed : UInt8 := 10
abbrev colon : UInt8 := 58

def cString (b : Bytes) : Bytes := b.takeWhile (· ≠ 0)

/-- `split_fields`: the first `n` fields of a line. A field that is empty at the end of the line is not there. -/
def splitFields : ℕ → Bytes → List Bytes
  | 0, _ => []
  | n + 1, p =>
    if p = [] then []
    else p.takeWhile (· ≠ colon) ::
      match p.dropWhile (· ≠ colon) with
      | [] => []
      | _ :: rest => splitFields n rest

/-- The lines that the loops over a loaded file look at; empty ones are passed over. -/
def fileLines (b : Bytes) : List Bytes := ((cString b).splitOn lineFeed).filter (· ≠ [])

def isAsciiDigit (c : UInt8) : Bool := 48 ≤ c && c ≤ 57

def parseId (f : Bytes) : UInt32 := (f.takeWhile isAsciiDigit).foldl (fun v c => v * 10 + (c - 48).toUInt32) 0

/-- What `find_passwd_user` tells of a user. -/
structure PasswdEntry where
  pw : Bytes
  home : Bytes
  shell : Bytes
  uid : UInt32
  gid : UInt32
  deriving DecidableEq, Repr

/-- `find_passwd_user` on the fields of a line. -/
def passwdEntry (f : List Bytes) : PasswdEntry where
  pw := (f.getD 1 []).take 191
  home := (f.getD 5 []).take 127
  shell := (f.getD 6 []).take 127
  uid := parseId (f.getD 2 [])
  gid := parseId (f.getD 3 [])

/-- `find_passwd_user` on a line. -/
def passwdLine (user line : Bytes) : Option (List Bytes) :=
  if (splitFields 8 line).length < 7 ∨ (splitFields 8 line).getD 0 [] ≠ user then none else some (splitFields 8 line)

def findPasswdUser (passwd : Option Bytes) (user : Bytes) : Option PasswdEntry :=
  (passwd.bind fun b => (fileLines b).findSome? (passwdLine user)).map passwdEntry

/-- `verify_pw_field`, and the checks of `verify_shadow` on the field it has found. -/
def verifyPwField (crypt : Bytes → Bytes → Option Bytes) (stored pass : Bytes) : Bool :=
  if stored = [] then pass = []
  else if stored.head? = some 33 ∨ stored.head? = some 42 then false
  else if crypt pass stored = some stored then true
  else stored = pass

/-- `verify_shadow` on a line. -/
def shadowLine (user line : Bytes) : Option Bytes :=
  if (splitFields 4 line).length < 2 ∨ (splitFields 4 line).getD 0 [] ≠ user then none
  else some ((splitFields 4 line).getD 1 [])

def verifyShadow (crypt : Bytes → Bytes → Option Bytes) (shadow : Option Bytes) (user pass : Bytes) : Bool :=
  match shadow.bind fun b => (fileLines b).findSome? (shadowLine user) with
  | none => false
  | some stored => verifyPwField crypt stored pass

/-- The contents of a file that fits into the buffer. -/
structure TextFile where
  bytes : Bytes
  short : bytes.length < 4096

def loadFile (f : Option TextFile) : Option Bytes := f.map fun f => f.bytes.take 4095

/-- What `readline` returns for a buffer of 64 bytes. -/
structure TypedLine where
  bytes : Bytes
  printable : ∀ b ∈ bytes, 32 ≤ b
  short : bytes.length < 64

/-- A login attempt: the files at the time, what is typed, which programs there are, and whether the two calls of
`execve` in `exec_login_shell` succeed. -/
structure LoginAttempt where
  passwd : Option TextFile
  shadow : Option TextFile
  user : TypedLine
  pass : TypedLine
  present : Bytes → Bool := fun _ => true
  shellRuns : Bool := true
  eshRuns : Bool := true

def selectLoginShell (present : Bytes → Bool) (shell : Bytes) : Bytes :=
  if shell ≠ [] ∧ present shell then shell
  else if present (ascii "/bin/bash") then ascii "/bin/bash"
  else if present (ascii "/bin/sh") then ascii "/bin/sh"
  else ascii "/bin/esh"

/-- The credentials after `setuid`, whose result is not looked at. -/
def Cred.setuid (c : Cred) (id : UInt32) : Cred := ((c.uids.set (c.euid = 0) id).map c.withUids).getD c

/-- The credentials after `setgid`, whose result is not looked at. -/
def Cred.setgid (c : Cred) (id : UInt32) : Cred := ((c.gids.set (c.euid = 0) id).map c.withGids).getD c

/-- A shell that was executed: for which attempt, and with which credentials. -/
structure GettyShell where
  attempt : LoginAttempt
  path : Bytes
  cred : Cred

/-- A `getty` process. It is gone when a shell runs in its place. -/
structure Getty where
  cred : Cred
  gone : Bool := false
  shells : List GettyShell := []

namespace Getty

variable (crypt : Bytes → Bytes → Option Bytes) (s : Getty) (a : LoginAttempt)

/-- The password is right, as `main` finds it. -/
def verified (e : PasswdEntry) : Bool :=
  if e.pw ≠ [] ∧ e.pw ≠ ascii "x" then verifyPwField crypt e.pw a.pass.bytes
  else verifyShadow crypt (loadFile a.shadow) a.user.bytes a.pass.bytes

/-- `execve` succeeds: the process goes on as the program. -/
def execute (path : Bytes) : Getty := { s with gone := true, shells := s.shells ++ [⟨a, path, s.cred⟩] }

/-- One round of the loop in `main`. -/
def step : Getty :=
  if s.gone then s
  else
    match findPasswdUser (loadFile a.passwd) a.user.bytes with
    | none => s
    | some e =>
      if !verified crypt a e then s
      else
        let s := { s with cred := (s.cred.setgid e.gid).setuid e.uid }
        if a.shellRuns then s.execute a (selectLoginShell a.present e.shell)
        else if a.eshRuns then s.execute a (ascii "/bin/esh")
        else s

end Getty

/-! ## What a login is to be -/

def entries (b : Bytes) : List (List Bytes) :=
  ((b.splitOn lineFeed).filter (· ≠ [])).map fun line => line.splitOn colon

def decimal (f : Bytes) : Option ℕ :=
  if f ≠ [] ∧ f.all isAsciiDigit = true then some (f.foldl (fun v c => v * 10 + (c.toNat - 48)) 0) else none

def LoginAttempt.entry (a : LoginAttempt) : Option (List Bytes) :=
  a.passwd.bind fun f => (entries f.bytes).find? fun l => l.length = 7 ∧ l.head? = some a.user.bytes

/-- The stored field: from that line, or from the first shadow line for the name. -/
def LoginAttempt.stored (a : LoginAttempt) (l : List Bytes) : Option Bytes :=
  if l[1]? = some [] ∨ l[1]? = some (ascii "x") then
    (a.shadow.bind fun f => (entries f.bytes).find? fun g => g.head? = some a.user.bytes).bind fun g => g[1]?
  else l[1]?

/-- Some password hashes to `s` under `s`. -/
def IsHash (crypt : Bytes → Bytes → Option Bytes) (s : Bytes) : Prop := ∃ q, crypt q s = some s

/-- The password `p` is one for the stored field `s`. -/
def Passes (crypt : Bytes → Bytes → Option Bytes) (p s : Bytes) : Prop :=
  crypt p s = some s ∨ (s = [] ∧ p = []) ∨ (¬IsHash crypt s ∧ p = s)

/-- The credentials are those of the user whose name and password were typed. -/
structure Granted (crypt : Bytes → Bytes → Option Bytes) (a : LoginAttempt) (c : Cred) (l : List Bytes) : Prop where
  entry : a.entry = some l
  uid : ∃ u < 2 ^ 31, l[2]?.bind decimal = some u ∧ c.uids = ⟨u, u⟩
  gid : ∃ g < 2 ^ 31, l[3]?.bind decimal = some g ∧ c.gids = ⟨g, g⟩
  password : ∃ p ∈ a.stored l, Passes crypt a.pass.bytes p

def Getty.Grants (crypt : Bytes → Bytes → Option Bytes) (s : Getty) : Prop :=
  ∀ r ∈ s.shells, ∃ l, Granted crypt r.attempt r.cred l

structure Getty.Sound (crypt : Bytes → Bytes → Option Bytes) (s : Getty) (a : LoginAttempt) : Prop where
  passwdText : ∀ f ∈ a.passwd, 0 ∉ f.bytes
  shadowText : ∀ f ∈ a.shadow, 0 ∉ f.bytes
  passwd : ∀ f ∈ a.passwd, ∀ l ∈ entries f.bytes, l.head? = some a.user.bytes → l.length ≥ 7 →
    l.length = 7 ∧ l[6]? ≠ some []
  shadow : ∀ f ∈ a.shadow, ∀ l ∈ entries f.bytes, l.head? = some a.user.bytes →
    l.length ≥ 2 ∧ ¬(l.length = 2 ∧ l[1]? = some [])
  password : ∀ l ∈ a.entry, ∀ p ∈ l[1]?, p.length < 192
  ids : ∀ l ∈ a.entry, ∃ u < 2 ^ 31, ∃ g < 2 ^ 31, l[2]?.bind decimal = some u ∧ l[3]?.bind decimal = some g ∧
    (s.cred.euid = 0 ∨ s.cred.uids = ⟨u, u⟩ ∧ s.cred.gids = ⟨g, g⟩)
  hash : ∀ l ∈ a.entry, ∀ p ∈ a.stored l, a.pass.bytes = p → IsHash crypt p → p = [] ∨ crypt p p = some p

/-! ## Fields -/

def dropEmpty (l : List Bytes) : List Bytes := if l.getLast? = some [] then l.dropLast else l

theorem dropEmpty_cons (f : Bytes) {l : List Bytes} (h : l ≠ []) : dropEmpty (f :: l) = f :: dropEmpty l := by
  unfold dropEmpty
  rw [getLast?_cons_of_ne_nil h, dropLast_cons_of_ne_nil h]
  split
  · rfl
  · rfl

theorem splitOn_eq (p : Bytes) : p.splitOn colon = p.takeWhile (· ≠ colon) :: match p.dropWhile (· ≠ colon) with
    | [] => []
    | _ :: rest => rest.splitOn colon := by
  induction p with
  | nil => rfl
  | cons c t ih =>
    rw [splitOn_cons_eq_if_modifyHead]
    by_cases hc : c = colon
    · rw [if_pos (by rw [hc]; rfl), takeWhile_cons_of_neg (by simp [hc]), dropWhile_cons_of_neg (by simp [hc])]
    rw [if_neg (by simp [hc]), ih, takeWhile_cons_of_pos (by simp [hc]), dropWhile_cons_of_pos (by simp [hc])]
    rfl

/-- The fields that `split_fields` finds are the first ones of the line, but for an empty one at its end. -/
theorem splitFields_eq (n : ℕ) (p : Bytes) : splitFields n p = (dropEmpty (p.splitOn colon)).take n := by
  induction n generalizing p with
  | zero => rfl
  | succ n ih =>
    unfold splitFields
    by_cases hp : p = []
    · rw [if_pos hp, hp]
      rfl
    rw [if_neg hp, splitOn_eq]
    cases hd : p.dropWhile (· ≠ colon) with
    | nil =>
      have hw : p.takeWhile (· ≠ colon) = p := by
        have h := takeWhile_append_dropWhile (p := (· ≠ colon)) (l := p)
        rw [hd, append_nil] at h
        exact h
      rw [hw]
      unfold dropEmpty
      rw [if_neg (by simpa using hp)]
      simp
    | cons c rest =>
      dsimp only
      rw [ih, dropEmpty_cons _ (splitOn_ne_nil _ _), take_succ_cons]

theorem getElem?_dropEmpty {l : List Bytes} {i : ℕ} (h : i < (dropEmpty l).length) : (dropEmpty l)[i]? = l[i]? := by
  unfold dropEmpty at h ⊢
  split
  · next hl =>
    rw [if_pos hl] at h
    rw [getElem?_dropLast, if_pos (by simpa using h)]
  · rfl

theorem getD_splitFields {n i : ℕ} {p : Bytes} (h : i < (splitFields n p).length) :
    (p.splitOn colon)[i]? = some ((splitFields n p).getD i []) := by
  have hi : (splitFields n p)[i]? = some ((splitFields n p).getD i []) := by
    rw [getD_eq_getElem?_getD, getElem?_eq_getElem h]
    rfl
  rw [splitFields_eq, length_take] at h
  rw [← hi, splitFields_eq, getElem?_take_of_lt (by omega), getElem?_dropEmpty (by omega)]

theorem length_dropEmpty (l : List Bytes) :
    (dropEmpty l).length = if l.getLast? = some [] then l.length - 1 else l.length := by
  unfold dropEmpty
  split
  · exact length_dropLast
  · rfl

theorem cString_eq {b : Bytes} (h : 0 ∉ b) : cString b = b := by
  apply takeWhile_eq_self_iff.mpr
  intro c hc
  have hne : c ≠ 0 := fun he => h (he ▸ hc)
  exact decide_eq_true hne

theorem loadFile_eq (f : TextFile) : loadFile (some f) = some f.bytes := by
  unfold loadFile
  rw [Option.map_some, take_of_length_le (Nat.le_of_lt_succ f.short)]

theorem fileLines_entries {b : Bytes} (h : 0 ∉ b) : (fileLines b).map (·.splitOn colon) = entries b := by
  unfold fileLines entries
  rw [cString_eq h]

/-- A search that decides on the fields of a line is a search in the entries. -/
theorem findSome_lines {α : Type} (f : Bytes → Option α) (P : List Bytes → Bool) (r : List Bytes → α)
    {lines : List Bytes}
    (h : ∀ line ∈ lines, f line = if P (line.splitOn colon) then some (r (line.splitOn colon)) else none) :
    lines.findSome? f = ((lines.map (·.splitOn colon)).find? P).map r := by
  induction lines with
  | nil => rfl
  | cons line lines ih =>
    rw [findSome?_cons, map_cons, find?_cons, h line mem_cons_self]
    by_cases hp : P (line.splitOn colon) = true
    · rw [if_pos hp, hp]
      rfl
    · rw [if_neg hp, Bool.eq_false_iff.mpr hp]
      exact ih fun l hl => h l (mem_cons_of_mem _ hl)

theorem head?_splitOn {user line : Bytes} {n : ℕ} (hlen : 0 < (splitFields n line).length)
    (hname : (splitFields n line).getD 0 [] = user) : (line.splitOn colon).head? = some user := by
  rw [head?_eq_getElem?, getD_splitFields hlen, hname]

theorem length_splitFields_le (n : ℕ) (line : Bytes) : (splitFields n line).length ≤ (line.splitOn colon).length := by
  rw [splitFields_eq, length_take, length_dropEmpty]
  split
  · omega
  · omega

/-- On the line of the user there are seven fields, and the code finds them. -/
theorem passwdLine_eq {user line : Bytes}
    (h : (line.splitOn colon).head? = some user → (line.splitOn colon).length ≥ 7 →
      (line.splitOn colon).length = 7 ∧ (line.splitOn colon)[6]? ≠ some []) :
    passwdLine user line = if decide ((line.splitOn colon).length = 7 ∧ (line.splitOn colon).head? = some user) then
        some (line.splitOn colon)
      else none := by
  unfold passwdLine
  by_cases hp : (line.splitOn colon).length = 7 ∧ (line.splitOn colon).head? = some user
  · have hlast : (line.splitOn colon).getLast? ≠ some [] := by
      rw [getLast?_eq_getElem?, hp.1]
      exact (h hp.2 (Nat.le_of_eq hp.1.symm)).2
    have hall : splitFields 8 line = line.splitOn colon := by
      rw [splitFields_eq]
      unfold dropEmpty
      rw [if_neg hlast, take_of_length_le (by omega)]
    have hname : (line.splitOn colon).getD 0 [] = user := by
      rw [getD_eq_getElem?_getD, ← head?_eq_getElem?, hp.2]
      rfl
    have haccept : ¬((line.splitOn colon).length < 7 ∨ user ≠ user) := by
      rintro (hc | hc)
      · omega
      · exact hc rfl
    rw [hall, hname, if_neg haccept, if_pos (decide_eq_true hp)]
  · rw [if_pos, if_neg (by rw [decide_eq_true_iff]; exact hp)]
    by_contra hc
    obtain ⟨hlen, hname⟩ := not_or.mp hc
    have hlen := Nat.not_lt.mp hlen
    have hhead := head?_splitOn (by omega) (not_not.mp hname)
    have hge := Nat.le_trans hlen (length_splitFields_le 8 line)
    exact hp ⟨(h hhead hge).1, hhead⟩

/-- On a line of the user there is a second field, and the code finds it. -/
theorem shadowLine_eq {user line : Bytes} (h : (line.splitOn colon).head? = some user →
      (line.splitOn colon).length ≥ 2 ∧ ¬((line.splitOn colon).length = 2 ∧ (line.splitOn colon)[1]? = some [])) :
    shadowLine user line =
      if decide ((line.splitOn colon).head? = some user) then some ((line.splitOn colon).getD 1 []) else none := by
  unfold shadowLine
  by_cases hp : (line.splitOn colon).head? = some user
  · obtain ⟨htwo, hsecond⟩ := h hp
    have hlen : (splitFields 4 line).length ≥ 2 := by
      rw [splitFields_eq, length_take, length_dropEmpty]
      split
      · next hlast =>
        rw [getLast?_eq_getElem?] at hlast
        have hne : (line.splitOn colon).length ≠ 2 := fun he => hsecond ⟨he, by rw [he] at hlast; exact hlast⟩
        omega
      · omega
    have hname := getD_splitFields (n := 4) (p := line) (i := 0) (by omega)
    rw [← head?_eq_getElem?, hp] at hname
    have hfield := getD_splitFields (n := 4) (p := line) (i := 1) (by omega)
    have haccept : ¬((splitFields 4 line).length < 2 ∨ (splitFields 4 line).getD 0 [] ≠ user) := by
      rintro (hc | hc)
      · omega
      · exact hc (Option.some.inj hname).symm
    rw [if_neg haccept, if_pos (decide_eq_true hp), getD_eq_getElem?_getD (l := line.splitOn colon), hfield]
    rfl
  · rw [if_pos, if_neg (by rw [decide_eq_true_iff]; exact hp)]
    by_contra hc
    obtain ⟨hlen, hname⟩ := not_or.mp hc
    exact hp (head?_splitOn (by omega) (not_not.mp hname))

/-! ## Ids and passwords -/

theorem toNat_parseFold {f : Bytes} (hf : ∀ c ∈ f, isAsciiDigit c = true) (v : UInt32) (n : ℕ)
    (hv : v.toNat = n % 2 ^ 32) : (f.foldl (fun v c => v * 10 + (c - 48).toUInt32) v).toNat =
      f.foldl (fun v c => v * 10 + (c.toNat - 48)) n % 2 ^ 32 := by
  induction f generalizing v n with
  | nil => exact hv
  | cons c f ih =>
    apply ih fun d hd => hf d (mem_cons_of_mem _ hd)
    have hc : 48 ≤ c := by
      have h := hf c mem_cons_self
      unfold isAsciiDigit at h
      grind
    rw [UInt32.toNat_add, UInt32.toNat_mul, UInt8.toNat_toUInt32, UInt8.toNat_sub_of_le _ _ hc, hv]
    change (n % 2 ^ 32 * 10 % 2 ^ 32 + (c.toNat - 48)) % 2 ^ 32 = (n * 10 + (c.toNat - 48)) % 2 ^ 32
    rw [Nat.mod_add_mod, ← Nat.add_mod_mod, Nat.add_mod (_ % _ * 10), Nat.mod_mul_mod, ← Nat.add_mod, Nat.add_mod_mod]

theorem parseId_decimal {f : Bytes} {u : ℕ} (h : decimal f = some u) (hu : u < 2 ^ 31) : (parseId f).toNat = u := by
  unfold decimal at h
  split at h
  · next hf =>
    have hu' := Option.some.inj h
    have hdigits : ∀ c ∈ f, isAsciiDigit c = true := all_eq_true.mp hf.2
    unfold parseId
    rw [takeWhile_eq_self_iff.mpr hdigits, toNat_parseFold hdigits 0 0 rfl, hu']
    exact Nat.mod_eq_of_lt (by omega)
  · cases h

theorem passes_of_verify {crypt : Bytes → Bytes → Option Bytes} {p q : Bytes} (h : verifyPwField crypt p q = true)
    (hhash : q = p → IsHash crypt p → p = [] ∨ crypt p p = some p) : Passes crypt q p := by
  unfold verifyPwField at h
  split at h
  · next hp => exact Or.inr (Or.inl ⟨hp, of_decide_eq_true h⟩)
  split at h
  · cases h
  split at h
  · next hc => exact Or.inl hc
  next hp _ _ =>
  obtain rfl := of_decide_eq_true h
  by_cases hi : IsHash crypt p
  · exact Or.inl ((hhash rfl hi).resolve_left hp)
  · exact Or.inr (Or.inr ⟨hi, rfl⟩)

theorem Cred.setuid_uids {c : Cred} {id : UInt32} {u : ℕ} (hid : id.toNat = u)
    (h : c.euid = 0 ∨ c.uids = ⟨u, u⟩) : (c.setuid id).uids = ⟨u, u⟩ := by
  unfold Cred.setuid IdPair.set
  by_cases hroot : c.euid = 0
  · rw [if_pos (decide_eq_true hroot), hid]
    rfl
  have hu := h.resolve_left hroot
  rw [if_neg (by rw [decide_eq_true_iff]; exact hroot), hu, hid, if_pos (Or.inl rfl)]
  rfl

theorem Cred.setgid_gids {c : Cred} {id : UInt32} {g : ℕ} (hid : id.toNat = g)
    (h : c.euid = 0 ∨ c.gids = ⟨g, g⟩) : (c.setgid id).gids = ⟨g, g⟩ := by
  unfold Cred.setgid IdPair.set
  by_cases hroot : c.euid = 0
  · rw [if_pos (decide_eq_true hroot), hid]
    rfl
  have hg := h.resolve_left hroot
  rw [if_neg (by rw [decide_eq_true_iff]; exact hroot), hg, hid, if_pos (Or.inl rfl)]
  rfl

theorem Cred.setgid_uids (c : Cred) (id : UInt32) : (c.setgid id).uids = c.uids ∧ (c.setgid id).euid = c.euid := by
  unfold Cred.setgid
  cases c.gids.set (c.euid = 0) id with
  | none => exact ⟨rfl, rfl⟩
  | some p => exact ⟨rfl, rfl⟩

theorem Cred.setuid_gids (c : Cred) (id : UInt32) : (c.setuid id).gids = c.gids := by
  unfold Cred.setuid
  cases c.uids.set (c.euid = 0) id with
  | none => rfl
  | some p => rfl

namespace Getty

variable {crypt : Bytes → Bytes → Option Bytes} {s : Getty} {a : LoginAttempt}

/-- `find_passwd_user` finds the first line of seven fields for the name. -/
theorem Sound.findPasswdUser (h : s.Sound crypt a) :
    findPasswdUser (loadFile a.passwd) a.user.bytes = a.entry.map passwdEntry := by
  unfold EdgeOS.findPasswdUser LoginAttempt.entry
  cases hf : a.passwd with
  | none => rfl
  | some f =>
    have htext := h.passwdText f hf
    rw [loadFile_eq, Option.bind_some, Option.bind_some, ← fileLines_entries htext]
    congr 1
    have hfind := findSome_lines (passwdLine a.user.bytes)
      (fun l => decide (l.length = 7 ∧ l.head? = some a.user.bytes)) id fun line hl =>
        passwdLine_eq (h.passwd f hf (line.splitOn colon) (fileLines_entries htext ▸ mem_map_of_mem hl))
    rw [Option.map_id] at hfind
    exact hfind

/-- `verify_shadow` checks the field of the first shadow line for the name. -/
theorem Sound.verifyShadow (h : s.Sound crypt a)
    (hv : verifyShadow crypt (loadFile a.shadow) a.user.bytes a.pass.bytes = true) :
    ∃ p, ((a.shadow.bind fun f => (entries f.bytes).find? fun g => g.head? = some a.user.bytes).bind fun g => g[1]?) =
      some p ∧ verifyPwField crypt p a.pass.bytes = true := by
  unfold EdgeOS.verifyShadow at hv
  cases hf : a.shadow with
  | none =>
    rw [hf] at hv
    cases hv
  | some f =>
    have htext := h.shadowText f hf
    have hline : ∀ line ∈ fileLines f.bytes, line.splitOn colon ∈ entries f.bytes := fun line hl =>
      fileLines_entries htext ▸ mem_map_of_mem hl
    have hfind := findSome_lines (shadowLine a.user.bytes) (fun g => decide (g.head? = some a.user.bytes))
      (fun g => g.getD 1 []) fun line hl => shadowLine_eq (h.shadow f hf (line.splitOn colon) (hline line hl))
    rw [fileLines_entries htext] at hfind
    rw [hf, loadFile_eq, Option.bind_some, hfind] at hv
    rw [Option.bind_some]
    cases hg : (entries f.bytes).find? fun g => decide (g.head? = some a.user.bytes) with
    | none =>
      rw [hg] at hv
      cases hv
    | some g =>
      rw [hg] at hv
      have hsome := find?_some hg
      have hhead := of_decide_eq_true hsome
      have htwo := (h.shadow f hf g (mem_of_find?_eq_some hg) hhead).1
      refine ⟨g.getD 1 [], ?_, hv⟩
      rw [Option.bind_some, getD_eq_getElem?_getD, getElem?_eq_getElem (by omega)]
      rfl

theorem Sound.passes (h : s.Sound crypt a) {l : List Bytes} (hl : a.entry = some l)
    (hv : verified crypt a (passwdEntry l) = true) : ∃ p ∈ a.stored l, Passes crypt a.pass.bytes p := by
  have hseven : l.length = 7 := by
    unfold LoginAttempt.entry at hl
    obtain ⟨f, -, hf⟩ := Option.bind_eq_some_iff.mp hl
    have hsome := find?_some hf
    exact (of_decide_eq_true hsome).1
  have hone : l[1]? = some (l.getD 1 []) := by
    rw [getD_eq_getElem?_getD, getElem?_eq_getElem (by omega)]
    rfl
  have hpw : (passwdEntry l).pw = l.getD 1 [] := take_of_length_le (Nat.le_of_lt_succ (h.password l hl _ hone))
  have hstored := h.hash l hl
  unfold verified at hv
  rw [hpw] at hv
  unfold LoginAttempt.stored at hstored ⊢
  split at hv
  · next hne =>
    have hno : ¬(l[1]? = some [] ∨ l[1]? = some (ascii "x")) := by
      rw [hone, Option.some.injEq, Option.some.injEq]
      rintro (he | he)
      · exact hne.1 he
      · exact hne.2 he
    rw [if_neg hno] at hstored ⊢
    exact ⟨_, hone, passes_of_verify hv (hstored _ hone)⟩
  next hne =>
  have hyes : l[1]? = some [] ∨ l[1]? = some (ascii "x") := by
    rw [hone, Option.some.injEq, Option.some.injEq]
    by_contra hc
    exact hne (not_or.mp hc)
  rw [if_pos hyes] at hstored ⊢
  obtain ⟨p, hp, hpass⟩ := h.verifyShadow hv
  exact ⟨p, hp, passes_of_verify hpass (hstored p hp)⟩

theorem Sound.granted (h : s.Sound crypt a) {l : List Bytes} (hl : a.entry = some l)
    (hv : verified crypt a (passwdEntry l) = true) :
    Granted crypt a ((s.cred.setgid (passwdEntry l).gid).setuid (passwdEntry l).uid) l := by
  obtain ⟨u, hu, g, hg, hlu, hlg, hids⟩ := h.ids l hl
  have hfield : ∀ {i n}, l[i]?.bind decimal = some n → decimal (l.getD i []) = some n := by
    intro i n hn
    obtain ⟨f, hf, hd⟩ := Option.bind_eq_some_iff.mp hn
    rw [getD_eq_getElem?_getD, hf]
    exact hd
  have huid : (passwdEntry l).uid.toNat = u := parseId_decimal (hfield hlu) hu
  have hgid : (passwdEntry l).gid.toNat = g := parseId_decimal (hfield hlg) hg
  have hkept := s.cred.setgid_uids (passwdEntry l).gid
  refine ⟨hl, ⟨u, hu, hlu, ?_⟩, ⟨g, hg, hlg, ?_⟩, h.passes hl hv⟩
  · apply Cred.setuid_uids huid
    rw [hkept.1, hkept.2]
    exact hids.imp_right And.left
  · rw [Cred.setuid_gids]
    exact Cred.setgid_gids hgid (hids.imp_right And.right)

theorem Grants.execute (h : s.Grants crypt) {l : List Bytes} (hg : Granted crypt a s.cred l) (path : Bytes) :
    (s.execute a path).Grants crypt := by
  intro r hr
  rcases mem_append.mp hr with hr | hr
  · exact h r hr
  · obtain rfl := mem_singleton.mp hr
    exact ⟨l, hg⟩

theorem Grants.step (h : s.Grants crypt) (hs : s.Sound crypt a) : (s.step crypt a).Grants crypt := by
  unfold Getty.step
  split
  · exact h
  rw [hs.findPasswdUser]
  cases hl : a.entry with
  | none => exact h
  | some l =>
    rw [Option.map_some]
    dsimp only
    split
    · exact h
    next hv =>
    have hv : verified crypt a (passwdEntry l) = true := by simpa using hv
    have hg := hs.granted hl hv
    have hexec := fun path => Grants.execute
      (s := { s with cred := (s.cred.setgid (passwdEntry l).gid).setuid (passwdEntry l).uid }) h hg path
    split
    · exact hexec _
    split
    · exact hexec _
    · exact h

/-- A shell runs as the user whose password was typed, in every run of attempts that meet the condition. -/
theorem logins_granted (crypt : Bytes → Bytes → Option Bytes) (c : Cred) (es : List LoginAttempt)
    (h : Meets (Getty.step crypt) (Getty.Sound crypt) { cred := c } es) :
    (run (Getty.step crypt) { cred := c } es).Grants crypt :=
  run_invariant (fun _ _ => Grants.step) (fun _ hr => absurd hr List.not_mem_nil) h

def textFile (t : String) (h : (ascii t).length < 4096) : TextFile := ⟨ascii t, h⟩

def typed (t : String) (h : (∀ b ∈ ascii t, 32 ≤ b) ∧ (ascii t).length < 64) : TypedLine := ⟨ascii t, h.1, h.2⟩

theorem typed_ok {t : String} (hprint : (ascii t).all (fun b => decide (32 ≤ b)) = true) (hlen : (ascii t).length < 64) :
    (∀ b ∈ ascii t, 32 ≤ b) ∧ (ascii t).length < 64 :=
  ⟨fun b hb => of_decide_eq_true (all_eq_true.mp hprint b hb), hlen⟩

/-- `crypt` for one password, whose hash is `$1$ab$cd`. -/
def oneHash (p s : Bytes) : Option Bytes :=
  if p = ascii "secret" ∧ s = ascii "$1$ab$cd" then some s else some (ascii "*0")

/-- An attempt of the user `ann` with the id 1000, whose hash is `$1$ab$cd`. -/
def annTypes (pass : TypedLine) : LoginAttempt where
  passwd := some (textFile "root:x:0:0:r:/root:/bin/sh\nann:x:1000:100:a:/home/ann:/bin/sh\n" (by decide))
  shadow := some (textFile "root:*:0\nann:$1$ab$cd:0\n" (by decide))
  user := typed "ann" (typed_ok (by decide) (by decide))
  pass := pass

theorem annTypes_entry (pass : TypedLine) : (annTypes pass).entry =
    some [ascii "ann", ascii "x", ascii "1000", ascii "100", ascii "a", ascii "/home/ann", ascii "/bin/sh"] := by
  change LoginAttempt.entry (annTypes (typed "" (typed_ok (by decide) (by decide)))) = _
  decide +kernel

theorem annTypes_stored (pass : TypedLine) : (annTypes pass).stored
    [ascii "ann", ascii "x", ascii "1000", ascii "100", ascii "a", ascii "/home/ann", ascii "/bin/sh"] =
      some (ascii "$1$ab$cd") := by
  change LoginAttempt.stored (annTypes (typed "" (typed_ok (by decide) (by decide)))) _ = _
  decide +kernel

theorem annSecret_sound :
    Getty.Sound oneHash { cred := {} } (annTypes (typed "secret" (typed_ok (by decide) (by decide)))) where
  passwdText f hf := by
    cases hf
    decide +kernel
  shadowText f hf := by
    cases hf
    decide +kernel
  passwd f hf := by
    cases hf
    decide +kernel
  shadow f hf := by
    cases hf
    decide +kernel
  password l hl := by
    rw [annTypes_entry] at hl
    cases hl
    decide +kernel
  ids l hl := by
    rw [annTypes_entry] at hl
    cases hl
    exact ⟨1000, by decide, 100, by decide, by decide +kernel, by decide +kernel, Or.inl rfl⟩
  hash l hl p hp he := by
    rw [annTypes_entry] at hl
    cases hl
    rw [annTypes_stored] at hp
    cases hp
    exact absurd he (by decide +kernel)

/-- The password is typed. -/
theorem annSecret_granted :
    (run (Getty.step oneHash) { cred := {} } [annTypes (typed "secret" (typed_ok (by decide) (by decide)))]).Grants oneHash ∧
    (run (Getty.step oneHash) { cred := {} } [annTypes (typed "secret" (typed_ok (by decide) (by decide)))]).shells.length = 1 :=
  ⟨logins_granted oneHash {} _ ⟨annSecret_sound, trivial⟩, by decide +kernel⟩

/-- The stored hash is typed. -/
theorem annHash_notGranted : ¬∀ es, (run (Getty.step oneHash) { cred := {} } es).Grants oneHash := by
  intro h
  have hone : (run (Getty.step oneHash) { cred := {} } [annTypes (typed "$1$ab$cd" (typed_ok (by decide) (by decide)))]).shells =
      [⟨annTypes (typed "$1$ab$cd" (typed_ok (by decide) (by decide))), ascii "/bin/sh", ⟨1000, 100, 1000, 100, 0⟩⟩] := by
    rfl
  obtain ⟨l, hg⟩ := h [annTypes (typed "$1$ab$cd" (typed_ok (by decide) (by decide)))] _ (hone ▸ List.mem_singleton.mpr rfl)
  have hl := hg.entry
  rw [annTypes_entry] at hl
  cases hl
  obtain ⟨p, hp, hpass⟩ := hg.password
  rw [annTypes_stored] at hp
  cases hp
  rcases hpass with hpass | hpass | hpass
  · exact absurd hpass (by decide +kernel)
  · exact absurd hpass.1 (by decide +kernel)
  · exact hpass.1 ⟨ascii "secret", by decide +kernel⟩

end Getty

end EdgeOS
