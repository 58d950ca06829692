import EdgeOS.StoredBytes
import EdgeOS.Task

namespace EdgeOS

/-!
`user_exec_run` of `src/sys/user_exec.c`: the arguments, the environment and the auxiliary vector on the stack of a
program that starts.
-/

open List

/-! ## The code -/

/-- A string of `start_argbuf` or `start_envbuf`, without its zero. Its `strlen` is an `int`. -/
structure KernelString where
  bytes : Bytes
  noZero : 0 ∉ bytes
  short : bytes.length + 1 < 2 ^ 31

def KernelString.copied (s : KernelString) : Bytes := s.bytes ++ [0]

/-- `user_exec_image_t`. -/
structure UserExecImage where
  entry : UInt64
  userStackTop : UInt64
  atPhdr : UInt64
  atPhnum : UInt64
  atEntry : UInt64
  atBase : UInt64

/-- `sp` and the memory it points into. -/
structure UserStack where
  sp : UInt64
  mem : Memory

/-- The registers that `user_iretq_enter` loads, and the memory of the task. -/
structure UserEntry where
  rip : UInt64
  rsp : UInt64
  rdi : UInt64
  rsi : UInt64
  mem : Memory

def userPushU64 (st : UserStack) (v : UInt64) : Option UserStack :=
  if st.sp < 8 then none
  else some { sp := st.sp - 8, mem := st.mem.stored (st.sp - 8) (wordBytes v) }

/-- An `argc` or `envc` made one of 0 to 32. -/
def clampCount (n : ℤ) : ℕ := (min (max n 0) 32).toNat

/-- What the loops for `real_argc` and `real_envc` count: the strings before the first null pointer. -/
def realStrings : ℕ → List (Option KernelString) → List KernelString
  | n + 1, some s :: ss => s :: realStrings n ss
  | _, _ => []

/-- `sp` is lowered and a string copied there. -/
def UserStack.copyString (st : UserStack) (s : KernelString) : UserStack :=
  let sp := st.sp - s.copied.length.toUInt64
  { sp := sp, mem := st.mem.stored sp s.copied }

/-- The loop that copies the strings, the last one first, and its `user_argv_ptrs` or `user_envp_ptrs`. -/
def copyStrings : List KernelString → UserStack → List UInt64 × UserStack
  | [], st => ([], st)
  | s :: ss, st =>
    let (ptrs, st) := copyStrings ss st
    let st := st.copyString s
    (st.sp :: ptrs, st)

def alignStack (sp : UInt64) (argc envc : ℕ) : Option UInt64 :=
  let qwords := 25 + argc + envc
  let sp := sp &&& ~~~0xF
  if qwords % 2 ≠ 0 then
    if sp < 8 then none else some (sp - 8)
  else some sp

def initialPushes (c : Cred) (img : UserExecImage) (argv envp : List UInt64) : List UInt64 :=
  [0, 0, c.egid.toUInt64, 14, c.gid.toUInt64, 13, c.euid.toUInt64, 12, c.uid.toUInt64, 11, 4096, 6,
    img.atBase, 7, img.atEntry, 9, img.atPhnum, 5, 56, 4, img.atPhdr, 3, 0] ++
    envp.reverse ++ (argv ++ [0]).reverse ++ [argv.length.toUInt64]

/-- `user_exec_run` of a task with these credentials; nothing when it returns. -/
def userExecRun (c : Cred) (img : UserExecImage) (argc : ℤ) (argv : List (Option KernelString)) (envc : ℤ)
    (envp : List (Option KernelString)) (m : Memory) : Option UserEntry := do
  let args := realStrings (clampCount argc) argv
  let envs := realStrings (clampCount envc) envp
  let (argvPtrs, st) := copyStrings args { sp := img.userStackTop, mem := m }
  let (envpPtrs, st) := copyStrings envs st
  let sp ← alignStack st.sp args.length envs.length
  let st ← (initialPushes c img argvPtrs envpPtrs).foldlM userPushU64 { st with sp := sp }
  pure { rip := img.entry, rsp := st.sp, rdi := args.length.toUInt64, rsi := st.sp + 8, mem := st.mem }

/-! ## The layout -/

def stringBytes (ss : List KernelString) : Bytes := ss.flatMap KernelString.copied

/-- `argc`, the pointers, the auxiliary vector and its `AT_NULL`. -/
def startVector (argv envp : List UInt64) (aux : List (UInt64 × UInt64)) : List UInt64 :=
  argv.length.toUInt64 :: argv ++ 0 :: envp ++ 0 :: aux.flatMap (fun p => [p.1, p.2]) ++ [0, 0]

abbrev Span := UInt64 × ℕ

def Span.Apart (x y : Span) : Prop := x.1.toNat + x.2 ≤ y.1.toNat ∨ y.1.toNat + y.2 ≤ x.1.toNat

def stringSpans (ptrs : List UInt64) (ss : List KernelString) : List Span :=
  ptrs.zip (ss.map (·.copied.length))

/-- The vector and the strings of a program that is entered. -/
structure InitialLayout (e : UserEntry) (top : UInt64) (args envs : List KernelString) (argv envp : List UInt64)
    (aux : List (UInt64 × UInt64)) : Prop where
  aligned : e.rsp.toNat % 16 = 0
  vector : e.mem.words e.rsp (startVector argv envp aux).length = startVector argv envp aux
  auxTypes : ∀ p ∈ aux, p.1 ≠ 0
  argvStrings : List.Forall₂ (fun p s => e.mem.bytes p s.copied.length = s.copied) argv args
  envpStrings : List.Forall₂ (fun p s => e.mem.bytes p s.copied.length = s.copied) envp envs
  apart : ((e.rsp, 8 * (startVector argv envp aux).length) :: stringSpans envp envs ++ stringSpans argv args).Pairwise
    Span.Apart
  below : ∀ x ∈ (e.rsp, 8 * (startVector argv envp aux).length) :: stringSpans envp envs ++ stringSpans argv args,
    x.1.toNat + x.2 ≤ top.toNat
  argcRegister : e.rdi = args.length.toUInt64
  argvRegister : e.rsi = e.rsp + 8

def vectorRoom (argc envc : ℕ) : ℕ := 16 * ((25 + argc + envc + 1) / 2)

/-- There is room for the strings and the vector below the top of the stack. -/
def FitsBelow (top : UInt64) (args envs : List KernelString) : Prop :=
  (stringBytes args).length + (stringBytes envs).length + vectorRoom args.length envs.length ≤ top.toNat

/-! ## Copies and pushes -/

/-- The places of strings that are copied one behind the other. -/
def pointers : UInt64 → List KernelString → List UInt64
  | _, [] => []
  | addr, s :: ss => addr :: pointers (addr + s.copied.length.toUInt64) ss

theorem pointers_cons (addr : UInt64) (s : KernelString) (ss : List KernelString) :
    pointers addr (s :: ss) = addr :: pointers (addr + s.copied.length.toUInt64) ss := rfl

theorem stringBytes_cons (s : KernelString) (ss : List KernelString) :
    stringBytes (s :: ss) = s.copied ++ stringBytes ss :=
  flatMap_cons ..

theorem realStrings_map (ss : List KernelString) : realStrings ss.length (ss.map some) = ss := by
  induction ss with
  | nil => rfl
  | cons s ss ih => exact congrArg (s :: ·) ih

theorem clampCount_length (ss : List KernelString) (h : ss.length ≤ 32) : clampCount ss.length = ss.length := by
  unfold clampCount
  omega

theorem sub_add_back (a : UInt64) (m n : ℕ) : a - (m + n).toUInt64 + m.toUInt64 = a - n.toUInt64 := by
  rw [Nat.add_comm, sub_toUInt64, UInt64.sub_add_cancel]

theorem copyStrings_eq (ss : List KernelString) (st : UserStack) (hlen : (stringBytes ss).length ≤ 2 ^ 64) :
    copyStrings ss st = (pointers (st.sp - (stringBytes ss).length.toUInt64) ss,
      { sp := st.sp - (stringBytes ss).length.toUInt64
        mem := st.mem.stored (st.sp - (stringBytes ss).length.toUInt64) (stringBytes ss) }) := by
  induction ss with
  | nil =>
    change ([], st) = ([], UserStack.mk (st.sp - 0) (st.mem.stored (st.sp - 0) []))
    rw [UInt64.sub_zero, stored_nil]
  | cons s ss ih =>
    rw [stringBytes_cons, length_append] at hlen ⊢
    have hsp : st.sp - (s.copied.length + (stringBytes ss).length).toUInt64 =
        st.sp - (stringBytes ss).length.toUInt64 - s.copied.length.toUInt64 := by
      rw [Nat.add_comm, sub_toUInt64]
    have hback := sub_add_back st.sp s.copied.length (stringBytes ss).length
    unfold copyStrings
    rw [ih (by omega)]
    unfold UserStack.copyString
    dsimp only
    rw [pointers_cons, ← hsp, hback, ← stored_below _ _ hlen, hback]

theorem pushes_eq (vs : List UInt64) (st : UserStack) (hroom : 8 * vs.length ≤ st.sp.toNat) :
    vs.foldlM userPushU64 st = some
      { sp := st.sp - (8 * vs.length).toUInt64
        mem := st.mem.stored (st.sp - (8 * vs.length).toUInt64) (vs.reverse.flatMap wordBytes) } := by
  induction vs generalizing st with
  | nil =>
    change some st = some (UserStack.mk (st.sp - 0) (st.mem.stored (st.sp - 0) []))
    rw [UInt64.sub_zero, stored_nil]
  | cons v vs ih =>
    have hlt := st.sp.toNat_lt
    rw [length_cons] at hroom
    have hsub : (st.sp - 8).toNat = st.sp.toNat - 8 := toNat_sub_of_fit (n := 8) (by omega)
    have hpush : userPushU64 st v = some { sp := st.sp - 8, mem := st.mem.stored (st.sp - 8) (wordBytes v) } := by
      apply if_neg
      rw [UInt64.lt_iff_toNat_lt]
      exact Nat.not_lt.mpr (by change 8 ≤ st.sp.toNat; omega)
    have hlen : (vs.reverse.flatMap wordBytes).length = 8 * vs.length := by
      rw [words_length, length_reverse]
    have hlow : st.sp - (8 * (v :: vs).length).toUInt64 + (vs.reverse.flatMap wordBytes).length.toUInt64 =
        st.sp - 8 := by
      rw [hlen, length_cons, Nat.mul_succ, sub_add_back]
      rfl
    have hsp : st.sp - 8 - (8 * vs.length).toUInt64 = st.sp - (8 * (v :: vs).length).toUInt64 := by
      rw [length_cons, Nat.mul_succ, Nat.add_comm, sub_toUInt64]
      rfl
    rw [foldlM_cons, hpush]
    change vs.foldlM userPushU64 _ = _
    rw [ih _ (by dsimp only; omega)]
    dsimp only
    rw [hsp, reverse_cons, flatMap_append, ← stored_below _ _ (by
      rw [hlen, flatMap_singleton, wordBytes_length]; omega), hlow, flatMap_singleton]

/-! ## Strings side by side -/

theorem pointers_length (addr : UInt64) (ss : List KernelString) : (pointers addr ss).length = ss.length := by
  induction ss generalizing addr with
  | nil => rfl
  | cons s ss ih => rw [pointers_cons, length_cons, ih, length_cons]

theorem strings_held (m : Memory) (addr : UInt64) (ss : List KernelString)
    (h : m.bytes addr (stringBytes ss).length = stringBytes ss) :
    List.Forall₂ (fun p s => m.bytes p s.copied.length = s.copied) (pointers addr ss) ss := by
  induction ss generalizing addr with
  | nil => exact List.Forall₂.nil
  | cons s ss ih =>
    rw [stringBytes_cons, length_append, bytes_add] at h
    obtain ⟨hs, hss⟩ := append_inj h (bytes_length _ _ _)
    exact List.Forall₂.cons hs (ih _ hss)

theorem stringSpans_cons (addr : UInt64) (s : KernelString) (ss : List KernelString) :
    stringSpans (pointers addr (s :: ss)) (s :: ss) =
      (addr, s.copied.length) :: stringSpans (pointers (addr + s.copied.length.toUInt64) ss) ss := rfl

/-- The strings lie between where they begin and where they end. -/
theorem mem_stringSpans {addr : UInt64} {ss : List KernelString} (hend : addr.toNat + (stringBytes ss).length < 2 ^ 64)
    {x : Span} (hx : x ∈ stringSpans (pointers addr ss) ss) :
    addr.toNat ≤ x.1.toNat ∧ x.1.toNat + x.2 ≤ addr.toNat + (stringBytes ss).length := by
  induction ss generalizing addr with
  | nil => exact absurd hx not_mem_nil
  | cons s ss ih =>
    rw [stringBytes_cons, length_append] at hend ⊢
    have hnext := toNat_add_of_fit (a := addr) (n := s.copied.length) (by omega)
    rw [stringSpans_cons] at hx
    cases mem_cons.mp hx with
    | inl h =>
      rw [h]
      exact ⟨Nat.le_refl _, by dsimp only; omega⟩
    | inr h =>
      have hin := ih (by omega) h
      omega

theorem stringSpans_apart {addr : UInt64} {ss : List KernelString}
    (hend : addr.toNat + (stringBytes ss).length < 2 ^ 64) :
    (stringSpans (pointers addr ss) ss).Pairwise Span.Apart := by
  induction ss generalizing addr with
  | nil => exact List.Pairwise.nil
  | cons s ss ih =>
    rw [stringBytes_cons, length_append] at hend
    have hnext := toNat_add_of_fit (a := addr) (n := s.copied.length) (by omega)
    rw [stringSpans_cons, pairwise_cons]
    refine ⟨fun x hx => ?_, ih (by omega)⟩
    have hin := mem_stringSpans (by omega) hx
    exact Or.inl (by dsimp only; omega)

theorem pointers_ne_zero {addr : UInt64} {ss : List KernelString} (hpos : 0 < addr.toNat)
    (hend : addr.toNat + (stringBytes ss).length < 2 ^ 64) : 0 ∉ pointers addr ss := by
  induction ss generalizing addr with
  | nil => exact not_mem_nil
  | cons s ss ih =>
    rw [stringBytes_cons, length_append] at hend
    have hnext := toNat_add_of_fit (a := addr) (n := s.copied.length) (by omega)
    rw [pointers_cons, mem_cons, not_or]
    refine ⟨fun hzero => ?_, ih (by omega) (by omega)⟩
    rw [← hzero] at hpos
    exact absurd hpos (by decide)

section Spans

variable {rsp envBase argBase : UInt64} {n : ℕ} {args envs : List KernelString}

theorem spans_apart (hvec : rsp.toNat + n ≤ envBase.toNat)
    (henv : envBase.toNat + (stringBytes envs).length ≤ argBase.toNat)
    (harg : argBase.toNat + (stringBytes args).length < 2 ^ 64) :
    ((rsp, n) :: stringSpans (pointers envBase envs) envs ++ stringSpans (pointers argBase args) args).Pairwise
      Span.Apart := by
  rw [cons_append, pairwise_cons, pairwise_append]
  refine ⟨fun x hx => Or.inl ?_, stringSpans_apart (by omega), stringSpans_apart harg, fun x hx y hy => Or.inl ?_⟩
  · dsimp only
    cases mem_append.mp hx with
    | inl h =>
      have := mem_stringSpans (by omega) h
      omega
    | inr h =>
      have := mem_stringSpans harg h
      omega
  · have := mem_stringSpans (by omega) hx
    have := mem_stringSpans harg hy
    omega

theorem spans_below (hvec : rsp.toNat + n ≤ envBase.toNat)
    (henv : envBase.toNat + (stringBytes envs).length ≤ argBase.toNat)
    (harg : argBase.toNat + (stringBytes args).length < 2 ^ 64) {x : Span}
    (hx : x ∈ (rsp, n) :: stringSpans (pointers envBase envs) envs ++ stringSpans (pointers argBase args) args) :
    x.1.toNat + x.2 ≤ argBase.toNat + (stringBytes args).length := by
  rw [cons_append] at hx
  cases mem_cons.mp hx with
  | inl h =>
    rw [h]
    dsimp only
    omega
  | inr h =>
    cases mem_append.mp h with
    | inl h =>
      have := mem_stringSpans (by omega) h
      omega
    | inr h => exact (mem_stringSpans harg h).2

end Spans

/-! ## The vector -/

theorem and_not_fifteen (x : UInt64) : (x &&& ~~~0xF).toNat = x.toNat / 16 * 16 := by
  have hmask : ∀ k : Fin 64, (~~~(0xF : BitVec 64)).getLsbD k = decide (4 ≤ k.val) := by decide
  have h : x.toBitVec &&& ~~~(0xF : BitVec 64) = x.toBitVec >>> 4 <<< 4 := by
    apply BitVec.eq_of_getLsbD_eq
    intro k hk
    rw [BitVec.getLsbD_and, hmask ⟨k, hk⟩, BitVec.getLsbD_shiftLeft, BitVec.getLsbD_ushiftRight]
    by_cases hlo : k < 4
    · simp [hlo]
    · simp [hlo, hk, show 4 ≤ k by omega, show 4 + (k - 4) = k by omega]
  have hlt := x.toNat_lt
  change (x.toBitVec &&& ~~~(0xF : BitVec 64)).toNat = _
  rw [h, BitVec.toNat_shiftLeft, BitVec.toNat_ushiftRight, Nat.shiftRight_eq_div_pow, Nat.shiftLeft_eq]
  change x.toNat / 2 ^ 4 * 2 ^ 4 % 2 ^ 64 = _
  omega

/-- With enough room the pushes end on a multiple of sixteen. -/
theorem alignStack_eq (sp : UInt64) (argc envc : ℕ) (hroom : vectorRoom argc envc ≤ sp.toNat) :
    ∃ sp', alignStack sp argc envc = some sp' ∧ sp'.toNat ≤ sp.toNat ∧ 8 * (25 + argc + envc) ≤ sp'.toNat ∧
      (sp'.toNat - 8 * (25 + argc + envc)) % 16 = 0 := by
  unfold vectorRoom at hroom
  unfold alignStack
  dsimp only
  have hdown := and_not_fifteen sp
  generalize sp &&& ~~~0xF = low at hdown
  by_cases hodd : (25 + argc + envc) % 2 = 0
  · rw [if_neg (not_not.mpr hodd)]
    exact ⟨low, rfl, by omega, by omega, by omega⟩
  have hsub : (low - 8).toNat = low.toNat - 8 := toNat_sub_of_fit (n := 8) (by omega)
  have hlow : ¬ low < 8 := by
    rw [UInt64.lt_iff_toNat_lt]
    exact Nat.not_lt.mpr (by change 8 ≤ low.toNat; omega)
  rw [if_pos hodd, if_neg hlow]
  exact ⟨low - 8, rfl, by omega, by omega, by omega⟩

/-- The auxiliary vector without its `AT_NULL`. -/
def auxVector (c : Cred) (img : UserExecImage) : List (UInt64 × UInt64) :=
  [(3, img.atPhdr), (4, 56), (5, img.atPhnum), (9, img.atEntry), (7, img.atBase), (6, 4096), (11, c.uid.toUInt64),
    (12, c.euid.toUInt64), (13, c.gid.toUInt64), (14, c.egid.toUInt64)]

theorem initialPushes_reverse (c : Cred) (img : UserExecImage) (argv envp : List UInt64) :
    (initialPushes c img argv envp).reverse = startVector argv envp (auxVector c img) := by
  simp [initialPushes, startVector, auxVector]

theorem startVector_length (c : Cred) (img : UserExecImage) (argv envp : List UInt64) :
    (startVector argv envp (auxVector c img)).length = 25 + argv.length + envp.length := by
  unfold startVector auxVector
  simp only [length_append, length_cons, flatMap_cons, flatMap_nil, length_nil]
  omega

/-! ## The stack that a program finds -/

theorem userExecRun_eq {c : Cred} {img : UserExecImage} {args envs : List KernelString} {m : Memory} {sp : UInt64}
    (hargs : args.length ≤ 32) (henvs : envs.length ≤ 32)
    (hlen : (stringBytes args).length + (stringBytes envs).length ≤ img.userStackTop.toNat)
    (hsp : alignStack (img.userStackTop - (stringBytes args).length.toUInt64 - (stringBytes envs).length.toUInt64)
      args.length envs.length = some sp)
    (hroom : 8 * (25 + args.length + envs.length) ≤ sp.toNat) :
    let argBase := img.userStackTop - (stringBytes args).length.toUInt64
    let envBase := argBase - (stringBytes envs).length.toUInt64
    let vec := startVector (pointers argBase args) (pointers envBase envs) (auxVector c img)
    let rsp := sp - (8 * (25 + args.length + envs.length)).toUInt64
    userExecRun c img args.length (args.map some) envs.length (envs.map some) m = some
      { rip := img.entry, rsp := rsp, rdi := args.length.toUInt64, rsi := rsp + 8
        mem := ((m.stored argBase (stringBytes args)).stored envBase (stringBytes envs)).stored rsp
          (vec.flatMap wordBytes) } := by
  intro argBase envBase vec rsp
  have hlt := img.userStackTop.toNat_lt
  have hpushes : (initialPushes c img (pointers argBase args) (pointers envBase envs)).length =
      25 + args.length + envs.length := by
    rw [← length_reverse, initialPushes_reverse, startVector_length, pointers_length, pointers_length]
  unfold userExecRun
  rw [clampCount_length args hargs, clampCount_length envs henvs, realStrings_map, realStrings_map]
  dsimp only
  rw [copyStrings_eq args _ (by omega)]
  dsimp only
  rw [copyStrings_eq envs _ (by omega)]
  dsimp only
  rw [hsp, Option.bind_eq_bind, Option.bind_some, pushes_eq _ _ (by rw [hpushes]; exact hroom), hpushes,
    initialPushes_reverse]
  rfl

theorem userExecRun_layout (c : Cred) (img : UserExecImage) (args envs : List KernelString) (m : Memory)
    (hargs : args.length ≤ 32) (henvs : envs.length ≤ 32) (hfits : FitsBelow img.userStackTop args envs) :
    ∃ e argv envp, userExecRun c img args.length (args.map some) envs.length (envs.map some) m = some e ∧
      InitialLayout e img.userStackTop args envs argv envp (auxVector c img) ∧ 0 ∉ argv ∧ 0 ∉ envp := by
  have hlt := img.userStackTop.toNat_lt
  unfold FitsBelow at hfits
  have hargBase := toNat_sub_of_fit (a := img.userStackTop) (n := (stringBytes args).length) (by omega)
  have henvBase := toNat_sub_of_fit (a := img.userStackTop - (stringBytes args).length.toUInt64)
    (n := (stringBytes envs).length) (by omega)
  obtain ⟨sp, hsp, hle, hroom, hmod⟩ := alignStack_eq (img.userStackTop - (stringBytes args).length.toUInt64 -
    (stringBytes envs).length.toUInt64) args.length envs.length (by omega)
  have hrun := userExecRun_eq (c := c) (m := m) hargs henvs (by omega) hsp hroom
  dsimp only at hrun
  generalize img.userStackTop - (stringBytes args).length.toUInt64 = argBase at *
  generalize argBase - (stringBytes envs).length.toUInt64 = envBase at *
  have hrsp := toNat_sub_of_fit hroom
  generalize sp - (8 * (25 + args.length + envs.length)).toUInt64 = rsp at *
  have hvec := startVector_length c img (pointers argBase args) (pointers envBase envs)
  rw [pointers_length, pointers_length] at hvec
  generalize hv : startVector (pointers argBase args) (pointers envBase envs) (auxVector c img) = vec at *
  have hbytes : (vec.flatMap wordBytes).length = 8 * (25 + args.length + envs.length) := by
    rw [words_length, hvec]
  -- the three parts lie one above the other, so each is as it was stored
  have hvector : (((m.stored argBase (stringBytes args)).stored envBase (stringBytes envs)).stored rsp
      (vec.flatMap wordBytes)).bytes rsp (8 * vec.length) = vec.flatMap wordBytes := by
    rw [← words_length]
    exact bytes_stored_all _ _ (by omega)
  have henvStrings : (((m.stored argBase (stringBytes args)).stored envBase (stringBytes envs)).stored rsp
      (vec.flatMap wordBytes)).bytes envBase (stringBytes envs).length = stringBytes envs := by
    rw [bytes_stored_apart _ _ (by omega) (by omega) (Or.inr (by omega))]
    exact bytes_stored_all _ _ (by omega)
  have hargStrings : (((m.stored argBase (stringBytes args)).stored envBase (stringBytes envs)).stored rsp
      (vec.flatMap wordBytes)).bytes argBase (stringBytes args).length = stringBytes args := by
    rw [bytes_stored_apart _ _ (by omega) (by omega) (Or.inr (by omega)),
      bytes_stored_apart _ _ (by omega) (by omega) (Or.inr (by omega))]
    exact bytes_stored_all _ _ (by omega)
  have hbelow : rsp.toNat + 8 * vec.length ≤ envBase.toNat := by omega
  refine ⟨_, pointers argBase args, pointers envBase envs, hrun, ?_, pointers_ne_zero (by omega) (by omega),
    pointers_ne_zero (by omega) (by omega)⟩
  constructor
  case aligned => exact hrsp ▸ hmod
  case vector =>
    rw [hv]
    exact words_of_bytes _ _ _ hvector
  case auxTypes => simp [auxVector]
  case argvStrings => exact strings_held _ _ _ hargStrings
  case envpStrings => exact strings_held _ _ _ henvStrings
  case apart =>
    rw [hv]
    exact spans_apart hbelow (by omega) (by omega)
  case below =>
    intro x hx
    rw [hv] at hx
    have := spans_below hbelow (by omega) (by omega) hx
    omega
  case argcRegister => rfl
  case argvRegister => rfl

/-- Lists of at most 32 strings each that fit are laid out as a program is to find them. -/
theorem initial_stack_layout (c : Cred) (img : UserExecImage) (args envs : List KernelString) (m : Memory)
    (hargs : args.length ≤ 32) (henvs : envs.length ≤ 32) (hfits : FitsBelow img.userStackTop args envs) :
    ∃ e argv envp, userExecRun c img args.length (args.map some) envs.length (envs.map some) m = some e ∧
      InitialLayout e img.userStackTop args envs argv envp (auxVector c img) := by
  obtain ⟨e, argv, envp, hrun, hlayout, -⟩ := userExecRun_layout c img args envs m hargs henvs hfits
  exact ⟨e, argv, envp, hrun, hlayout⟩

def letterA : KernelString where
  bytes := [97]
  noZero := by decide
  short := by decide

/-- Below the top of the stack there is room for one argument and one variable. -/
theorem one_argument_layout : ∃ e argv envp,
    userExecRun {} ⟨0x400000, 0x20400000, 0, 0, 0, 0⟩ [letterA].length ([letterA].map some) [letterA].length
      ([letterA].map some) (fun _ => 0) = some e ∧
    InitialLayout e 0x20400000 [letterA] [letterA] argv envp (auxVector {} ⟨0x400000, 0x20400000, 0, 0, 0, 0⟩) :=
  initial_stack_layout {} ⟨0x400000, 0x20400000, 0, 0, 0, 0⟩ [letterA] [letterA] (fun _ => 0) (by decide) (by decide)
    (by unfold FitsBelow; decide)

end EdgeOS
