import EdgeOS.FailedProcessCalls
import EdgeOS.InitialStack
import EdgeOS.PathBuffers

namespace EdgeOS

open Lib Function List KernelString ExecSys
open UInt64 (ofNat toNat_ofNat' add_zero)

/-!
The arguments on their way to a program: `do_sys_execve` copies them into the buffers of the task, `process_spawn_exec`
into those of the child, and `user_exec_run` from there to the stack. At most 32 of a kind arrive.
-/

/-! ## The code -/

def kernelString (buf : Bytes) : KernelString where
  bytes := (buf.take 127).takeWhile (· ≠ 0)
  noZero h := by simpa using List.all_eq_true.mp List.all_takeWhile _ h
  short := by
    have htake := (List.takeWhile_prefix (p := (· ≠ 0)) (l := buf.take 127)).length_le
    have hlen := List.length_take_le 127 buf
    omega

/-- `kargv` and `kenvp`: the strings in the first `n` buffers. -/
def ArgBufs.strings (bufs : ArgBufs) (n : ℕ) : List KernelString := (List.range n).map fun i => kernelString (bufs i)

def ElfImage.exec (elf : ElfImage) : UserExecImage where
  entry := elf.entryRip
  userStackTop := UInt64.ofNat EdgeOS.userStackTop
  atPhdr := elf.atPhdr
  atPhnum := elf.atPhnum.toUInt64
  atEntry := elf.atEntry
  atBase := elf.atBase

/-- `user_exec_run` with strings that the kernel holds. -/
def enterWith (cred : Cred) (elf : ElfImage) (args envs : List KernelString) (m : Memory) : Option UserEntry :=
  userExecRun cred elf.exec args.length (args.map some) envs.length (envs.map some) m

/-- The strings that `do_sys_execve` hands to `user_exec_run`. -/
def ExecSys.execStrings (c : ExecSys) (mem : Memory) (path argv envp : UInt64) :
    Option (List KernelString × List KernelString) :=
  match readExecArgs mem path argv envp with
  | .error _ => none
  | .ok (_, argc, envc) =>
    match copyArgs mem argv argc 0 (c.argbuf c.current) with
    | (_, none) => none
    | (args, some argc) =>
      match copyArgs mem envp envc 0 (c.envbuf c.current) with
      | (_, none) => none
      | (envs, some envc) => some (args.strings argc, envs.strings envc)

/-- How the program is entered by `do_sys_execve`. -/
def ExecSys.execEntry (c : ExecSys) (mem : Memory) (path argv envp : UInt64) (cred : Cred) (elf : ElfImage)
    (m : Memory) : Option UserEntry :=
  (c.execStrings mem path argv envp).bind fun (args, envs) => enterWith cred elf args envs m

def CString (m : Memory) (p : UInt64) (s : Bytes) : Prop := m.bytes p (s.length + 1) = s ++ [0] ∧ 0 ∉ s

/-- The words from an address on, up to the first that is zero. -/
def Pointers (m : Memory) (vec : UInt64) (ps : List UInt64) : Prop :=
  m.words vec (ps.length + 1) = ps ++ [0] ∧ 0 ∉ ps

/-- A program finds the number of its arguments, and the vectors of its arguments and its environment on the stack. -/
structure Finds (e : UserEntry) (args envs : List Bytes) : Prop where
  argc : e.rdi.toNat = args.length
  vectors : ∃ argv envp, e.mem.words e.rsp (argv.length + envp.length + 3) =
      e.rdi :: (argv ++ 0 :: (envp ++ [0])) ∧ 0 ∉ argv ∧ 0 ∉ envp ∧
    List.Forall₂ (CString e.mem) argv args ∧ List.Forall₂ (CString e.mem) envp envs

section Strings

variable {m : Memory} {p : UInt64} {s s' : Bytes}

theorem CString.takeWhile (h : CString m p s) {n : ℕ} (hn : s.length < n) : (m.bytes p n).takeWhile (· ≠ 0) = s := by
  obtain ⟨hbytes, hzero⟩ := h
  obtain ⟨k, rfl⟩ : ∃ k, n = s.length + 1 + k := ⟨n - (s.length + 1), by omega⟩
  have hall : ∀ c ∈ s, (decide (c ≠ 0)) = true := fun c hc => decide_eq_true fun heq => hzero (heq ▸ hc)
  rw [bytes_add, hbytes, append_assoc, takeWhile_append_of_pos hall]
  simp

theorem CString.unique (h : CString m p s) (h' : CString m p s') : s = s' :=
  (h.takeWhile (show s.length < s.length + s'.length + 1 by omega)).symm.trans
    (h'.takeWhile (show s'.length < s.length + s'.length + 1 by omega))

theorem lt_length_concat {α : Type} {xs : List α} {a : α} {j : ℕ} (hj : j ≤ xs.length) : j < (xs ++ [a]).length := by
  rw [length_append, length_singleton]
  exact Nat.lt_succ_of_le hj

theorem CString.byte (h : CString m p s) {j : ℕ} (hj : j < (s ++ [0]).length) : m (p + j.toUInt64) = (s ++ [0])[j] := by
  rw [length_append, length_singleton] at hj
  have hget := getElem_bytes m p (n := s.length + 1) (i := j) (by rwa [bytes_length])
  rw [← hget]
  simp only [h.1]

theorem StringFrom.bytes {i : ℕ} (h : StringFrom m p i s) : m.bytes (p + i.toUInt64) (s.length + 1) = s ++ [0] := by
  have hcopy : ∀ {a : UInt64} {c : UInt8}, copyByte m a = some c → m a = c := by
    intro a c hc
    unfold copyByte at hc
    split at hc
    · exact Option.some.inj hc
    · cases hc
  induction s generalizing i with
  | nil =>
    have hbyte := hcopy h
    change [m (p + i.toUInt64 + 0)] = [0]
    rw [add_zero]
    exact congrArg ([·]) hbyte
  | cons c s ih =>
    obtain ⟨hc, -, hrest⟩ := h
    have hnext := ih hrest
    rw [length_cons, Nat.add_comm (s.length + 1) 1, bytes_add, ← add_toUInt64, hnext]
    change m (p + i.toUInt64 + 0) :: (s ++ [0]) = c :: (s ++ [0])
    rw [add_zero]
    exact congrArg (· :: (s ++ [0])) (hcopy hc)

end Strings

/-! ## Vectors -/

section Vectors

variable {m : Memory} {vec : UInt64} {ps : List UInt64}

theorem Pointers.entry (h : Pointers m vec ps) {i : ℕ} (hi : i < (ps ++ [0]).length) :
    m.word (vec + (8 * i).toUInt64) = (ps ++ [0])[i] := by
  rw [length_append, length_singleton] at hi
  have hlen : i < (m.words vec (ps.length + 1)).length := by
    unfold Memory.words
    rw [length_map, length_range]
    omega
  have hget : (m.words vec (ps.length + 1))[i] = m.word (vec + (8 * i).toUInt64) := by
    simp only [Memory.words, getElem_map, getElem_range]
  rw [← hget]
  simp only [h.1]

theorem Pointers.inside (h : Pointers m vec ps) {i : ℕ} (hi : i < ps.length) :
    m.word (vec + (8 * i).toUInt64) = ps[i] ∧ ps[i] ≠ 0 :=
  ⟨(h.entry (lt_length_concat hi.le)).trans (getElem_append_left hi), fun heq => h.2 (heq ▸ getElem_mem hi)⟩

theorem Pointers.last (h : Pointers m vec ps) : m.word (vec + (8 * ps.length).toUInt64) = 0 := by
  rw [h.entry (lt_length_concat le_rfl)]
  exact getElem_concat_length rfl _

end Vectors

/-! ## What the loops copy -/

section Copies

variable {m : Memory} {vec : UInt64} {ps : List UInt64} {ss : List Bytes}

end Copies

/-! ## What the program finds -/

section Finding

variable {e : UserEntry} {args args' envs envs' : List Bytes}

theorem words_take (m : Memory) (addr : UInt64) (n k : ℕ) : (m.words addr (n + k)).take n = m.words addr n := by
  unfold Memory.words
  rw [← map_take, take_range, Nat.min_eq_left (Nat.le_add_right n k)]

theorem forall₂_unique {m : Memory} {ps : List UInt64} {ss ss' : List Bytes} (h : List.Forall₂ (CString m) ps ss)
    (h' : List.Forall₂ (CString m) ps ss') : ss = ss' := by
  induction h generalizing ss' with
  | nil =>
    cases h'
    rfl
  | cons hs _ ih =>
    cases h' with
    | cons hs' hrest => rw [hs.unique hs', ih hrest]

/-- Two vectors of pointers with a null behind them that begin alike are the same. -/
theorem terminated_unique {ps ps' rest rest' : List UInt64} (hps : 0 ∉ ps) (hps' : 0 ∉ ps')
    (h : ps ++ 0 :: rest = ps' ++ 0 :: rest') : ps = ps' := by
  have hcut : ∀ {ps : List UInt64} (rest : List UInt64), 0 ∉ ps → (ps ++ 0 :: rest).takeWhile (· ≠ 0) = ps := by
    intro ps rest hps
    have hall : ∀ p ∈ ps, decide (p ≠ 0) = true := fun p hp => decide_eq_true fun heq => hps (heq ▸ hp)
    rw [takeWhile_append_of_pos hall]
    simp
  rw [← hcut rest hps, h, hcut _ hps']

/-- A program finds one list of arguments, and one environment. -/
theorem Finds.unique (h : Finds e args envs) (h' : Finds e args' envs') : args = args' ∧ envs = envs' := by
  obtain ⟨argv, envp, hwords, hargv, henvp, hargs, henvs⟩ := h.vectors
  obtain ⟨argv', envp', hwords', hargv', henvp', hargs', henvs'⟩ := h'.vectors
  -- the longer of the two reads begins with the shorter one
  have hlong : ∃ rest rest',
      e.rdi :: (argv ++ 0 :: (envp ++ 0 :: rest)) = e.rdi :: (argv' ++ 0 :: (envp' ++ 0 :: rest')) := by
    have hread : ∀ {as es : List UInt64} {n : ℕ}, e.mem.words e.rsp (as.length + es.length + 3) =
        e.rdi :: (as ++ 0 :: (es ++ [0])) → as.length + es.length + 3 ≤ n →
          ∃ rest, e.mem.words e.rsp n = e.rdi :: (as ++ 0 :: (es ++ 0 :: rest)) := by
      intro as es n hread hn
      obtain ⟨k, rfl⟩ : ∃ k, n = as.length + es.length + 3 + k := ⟨n - (as.length + es.length + 3), by omega⟩
      have hsplit := take_append_drop (as.length + es.length + 3)
        (e.mem.words e.rsp (as.length + es.length + 3 + k))
      rw [words_take, hread] at hsplit
      exact ⟨(e.mem.words e.rsp (as.length + es.length + 3 + k)).drop (as.length + es.length + 3),
        hsplit.symm.trans (by simp)⟩
    obtain ⟨rest, hrest⟩ := hread hwords (le_max_left _ (argv'.length + envp'.length + 3))
    obtain ⟨rest', hrest'⟩ := hread hwords' (le_max_right (argv.length + envp.length + 3) _)
    exact ⟨rest, rest', hrest.symm.trans hrest'⟩
  obtain ⟨rest, rest', heq⟩ := hlong
  have htail := (cons.inj heq).2
  obtain rfl := terminated_unique hargv hargv' htail
  have henv := (cons.inj (append_cancel_left htail)).2
  obtain rfl := terminated_unique henvp henvp' henv
  exact ⟨forall₂_unique hargs hargs', forall₂_unique henvs henvs'⟩

end Finding

/-! ## Both ways to start a program -/

section Starting

variable {L : KernelLayout} {c : ExecSys} {mem : Memory} {path argv envp : UInt64} {args envs : List Bytes}

end Starting

end EdgeOS
