import Mathlib.Algebra.Order.Ring.Int
import Mathlib.Data.List.Basic

namespace EdgeOS

/-!
Command chains in the shell: `sh_parse_chain` and `sh_run_line` of `userspace/esh/main.c`, and the
pipelines that a line stands for. `sh_exec_one` is a parameter: it may do anything with its state
and return any status.
-/

open List

/-- `SH_LINE_MAX`, and the 16 entries of `segs` in `sh_run_line`. -/
abbrev shLineMax : ℕ := 256
abbrev shSegMax : ℕ := 16

inductive ShOp
  | andIf
  | orIf
  | pipe
  deriving DecidableEq, Repr

abbrev ShSeg := List UInt8 × Option ShOp

/-- The loop of `sh_parse_chain` and the code behind it, while `n` more operators are looked for;
`cur` is the text of the segment so far. -/
def parseChain : ℕ → List UInt8 → List UInt8 → List ShSeg
  | _, cur, [] => [(cur.take (shLineMax - 1), none)]
  | n, cur, [c] =>
    if n = 0 then [((cur ++ [c]).take (shLineMax - 1), none)]
    else if c = 0x7C then (cur.take (shLineMax - 1), some .pipe) :: parseChain (n - 1) [] []
    else parseChain n (cur ++ [c]) []
  | n, cur, c :: d :: line =>
    if n = 0 then [((cur ++ c :: d :: line).take (shLineMax - 1), none)]
    else if c = 0x26 ∧ d = 0x26 then
      (cur.take (shLineMax - 1), some .andIf) :: parseChain (n - 1) [] line
    else if c = 0x7C ∧ d = 0x7C then
      (cur.take (shLineMax - 1), some .orIf) :: parseChain (n - 1) [] line
    else if c = 0x7C then
      (cur.take (shLineMax - 1), some .pipe) :: parseChain (n - 1) [] (d :: line)
    else parseChain n (cur ++ [c]) (d :: line)

/-- `sh_parse_chain` with a table of `maxSeg` segments. -/
def shParseChain (line : List UInt8) (maxSeg : ℕ) : List ShSeg := parseChain (maxSeg - 1) [] line

/-- A call of `sh_exec_one`: the number of the segment, its text, and `piped_from_left`. -/
structure ShCall where
  seg : ℕ
  text : List UInt8
  piped : Bool
  deriving DecidableEq, Repr

/-- What `sh_exec_one` works on, the status of the last call, and the calls so far. -/
structure ShState (σ : Type) where
  st : σ
  status : ℤ := 0
  calls : List ShCall := []
  deriving DecidableEq, Repr

section Runs

variable {σ : Type} (exec : σ → List UInt8 → Bool → σ × ℤ)

/-- A call of `sh_exec_one`. -/
def ShState.call (s : ShState σ) (i : ℕ) (text : List UInt8) (piped : Bool) : ShState σ where
  st := (exec s.st text piped).1
  status := (exec s.st text piped).2
  calls := s.calls ++ [⟨i, text, piped⟩]

/-- Whether `sh_run_line` runs the segment behind an operator. -/
def wanted : Option ShOp → ℤ → Bool
  | some .andIf, status => status = 0
  | some .orIf, status => status ≠ 0
  | some .pipe, _ => true
  | none, _ => true

/-- The loop of `sh_run_line` from segment `i` on, behind the operator `prev`. -/
def runSegs : ℕ → Option ShOp → List ShSeg → ShState σ → ShState σ
  | _, _, [], s => s
  | i, prev, (text, op) :: segs, s =>
    runSegs (i + 1) op segs
      (if wanted prev s.status then s.call exec i text (prev == some .pipe) else s)

def shRunLine (line : List UInt8) (st : σ) : ShState σ :=
  runSegs exec 0 none (shParseChain line shSegMax) { st := st }

/-! ## What a line means -/

/-- The segments of a line, however many, with the operators between them. -/
def segments : List UInt8 → List UInt8 → List ShSeg
  | cur, [] => [(cur, none)]
  | cur, [c] =>
    if c = 0x7C then (cur, some .pipe) :: segments [] [] else segments (cur ++ [c]) []
  | cur, c :: d :: line =>
    if c = 0x26 ∧ d = 0x26 then (cur, some .andIf) :: segments [] line
    else if c = 0x7C ∧ d = 0x7C then (cur, some .orIf) :: segments [] line
    else if c = 0x7C then (cur, some .pipe) :: segments [] (d :: line)
    else segments (cur ++ [c]) (d :: line)

/-- A pipeline: the operator before it, the number of its first stage, and its stages. -/
structure ShPipeline where
  before : Option ShOp
  first : ℕ
  stages : List (List UInt8)
  deriving DecidableEq, Repr

/-- The pipelines of a chain of segments, which are numbered from `i` on. -/
def pipelines : ℕ → Option ShOp → List ShSeg → List ShPipeline
  | _, _, [] => []
  | i, before, (text, op) :: segs =>
    if op = some .pipe then
      match pipelines (i + 1) before segs with
      | [] => [⟨before, i, [text]⟩]
      | p :: ps => ⟨before, i, text :: p.stages⟩ :: ps
    else ⟨before, i, [text]⟩ :: pipelines (i + 1) op segs

def runStages : ℕ → Bool → List (List UInt8) → ShState σ → ShState σ
  | _, _, [], s => s
  | i, piped, text :: stages, s => runStages (i + 1) true stages (s.call exec i text piped)

/-- A pipeline runs as a whole or not at all, as the last status and the operator before it say. -/
def refStep (s : ShState σ) (p : ShPipeline) : ShState σ :=
  if wanted p.before s.status then runStages exec p.first false p.stages s else s

def linePipelines (line : List UInt8) : List ShPipeline := pipelines 0 none (segments [] line)

def refRunLine (line : List UInt8) (st : σ) : ShState σ :=
  (linePipelines line).foldl (refStep exec) { st := st }

/-- The shell calls `sh_exec_one` as the meaning of the line says, and returns its status. -/
def ChainExact (line : List UInt8) (st : σ) : Prop :=
  (shRunLine exec line st).calls = (refRunLine exec line st).calls ∧
    (shRunLine exec line st).status = (refRunLine exec line st).status

/-- No pipeline that is skipped has a second stage, as far as the table of segments goes. -/
def SkipsWhole (ps : List ShPipeline) (s : ShState σ) : Prop :=
  ∀ before p after, ps = before ++ p :: after → wanted p.before (before.foldl (refStep exec) s).status = false →
      p.stages.length = 1 ∨ shSegMax - 1 ≤ p.first

/-- What a longer line than the table holds runs lies before the last entry of the table. -/
def FitsTable (line : List UInt8) (st : σ) : Prop :=
  (segments [] line).length ≤ shSegMax ∨ ∀ c ∈ (refRunLine exec line st).calls, c.seg < shSegMax - 1

end Runs

/-! ## The table of segments -/

theorem parseChain_zero (cur line : List UInt8) :
    parseChain 0 cur line = [((cur ++ line).take (shLineMax - 1), none)] := by
  rcases line with _ | ⟨c, _ | ⟨d, line⟩⟩
  · simp [parseChain]
  · simp [parseChain]
  · simp [parseChain]

/-- What `sh_parse_chain` makes of a line whose segments are `segs`: all of them, or the first `n`
and one that goes on behind its operator. -/
def Tabled (n : ℕ) (segs table : List ShSeg) : Prop :=
  (segs.length ≤ n + 1 → table = segs) ∧ (n + 1 < segs.length → ∃ text t op, table = segs.take n ++ [(text, none)] ∧
      segs[n]? = some (t, op) ∧ t.length < text.length)

theorem Tabled.zero {t text : List UInt8} {op : Option ShOp} {segs : List ShSeg}
    (hsegs : segs ≠ []) (h : t.length < text.length) : Tabled 0 ((t, op) :: segs) [(text, none)] := by
  refine ⟨fun hlen => ?_, fun _ => ⟨text, t, op, rfl, rfl, h⟩⟩
  have := length_pos_of_ne_nil hsegs
  rw [length_cons] at hlen
  omega

theorem Tabled.cons {n : ℕ} {x : ShSeg} {segs table : List ShSeg} (h : Tabled n segs table) :
    Tabled (n + 1) (x :: segs) (x :: table) := by
  refine ⟨fun hlen => ?_, fun hlen => ?_⟩
  · rw [h.1 (by rw [length_cons] at hlen; omega)]
  · obtain ⟨text, t, op, htable, hget, hlt⟩ := h.2 (by rw [length_cons] at hlen; omega)
    exact ⟨text, t, op, by rw [htable]; rfl, by simpa using hget, hlt⟩

theorem segments_ne_nil (cur line : List UInt8) : segments cur line ≠ [] := by
  fun_induction segments cur line <;> simp_all

theorem tabled_op {n : ℕ} {cur line : List UInt8} (rest : List UInt8) {op : ShOp}
    (hshort : cur.length < shLineMax) (hline : cur.length < (cur ++ line).length)
    (hmax : (cur ++ line).length < shLineMax)
    (hsucc : ∀ m, parseChain (m + 1) cur line = (cur.take (shLineMax - 1), some op) :: parseChain m [] rest)
    (ih : ∀ m, Tabled m (segments [] rest) (parseChain m [] rest)) :
    Tabled n ((cur, some op) :: segments [] rest) (parseChain n cur line) := by
  cases n with
  | zero =>
    rw [parseChain_zero, take_of_length_le (by omega)]
    exact Tabled.zero (segments_ne_nil _ _) hline
  | succ m =>
    rw [hsucc, take_of_length_le (by omega)]
    exact (ih m).cons

/-- `sh_parse_chain` of a line of at most 255 characters, while `n` more operators are looked
for. -/
theorem tabled (n : ℕ) (cur line : List UInt8) (h : (cur ++ line).length < shLineMax) :
    Tabled n (segments cur line) (parseChain n cur line) := by
  fun_induction segments cur line generalizing n with
  | case1 cur =>
    rw [append_nil] at h
    refine ⟨fun _ => ?_, fun hlen => by simp at hlen⟩
    rw [parseChain, take_of_length_le (by omega)]
  | case2 cur ih =>
    refine tabled_op [] (by simp at h; omega) (by simp) h (fun m => ?_) fun m => ih m ?_
    · simp [parseChain]
    · simp [shLineMax]
  | case3 cur c hc ih =>
    have hsame : parseChain n cur [c] = parseChain n (cur ++ [c]) [] := by
      by_cases hn : n = 0
      · subst hn
        simp [parseChain]
      · simp [parseChain, hn, hc]
    rw [hsame]
    exact ih n (by simpa using h)
  | case4 cur c d line hand ih =>
    refine tabled_op line (by simp at h; omega) (by simp) h (fun m => ?_) fun m =>
      ih m ?_
    · rw [parseChain, if_neg (by omega), if_pos hand, Nat.add_sub_cancel]
    · simp at h ⊢
      omega
  | case5 cur c d line hand hor ih =>
    refine tabled_op line (by simp at h; omega) (by simp) h (fun m => ?_) fun m =>
      ih m ?_
    · rw [parseChain, if_neg (by omega), if_neg hand, if_pos hor, Nat.add_sub_cancel]
    · simp at h ⊢
      omega
  | case6 cur d line hand hor ih =>
    refine tabled_op (d :: line) (by simp at h; omega) (by simp) h (fun m => ?_) fun m =>
      ih m ?_
    · rw [parseChain, if_neg (by omega), if_neg hand, if_neg hor, if_pos rfl, Nat.add_sub_cancel]
    · simp at h ⊢
      omega
  | case7 cur c d line hand hor hc ih =>
    have hsame : parseChain n cur (c :: d :: line) = parseChain n (cur ++ [c]) (d :: line) := by
      by_cases hn : n = 0
      · subst hn
        rw [parseChain_zero, parseChain_zero, append_assoc, singleton_append]
      · rw [parseChain, if_neg hn, if_neg hand, if_neg hor, if_neg hc]
    rw [hsame]
    exact ih n (by simpa using h)

section Flat

variable {σ : Type} (exec : σ → List UInt8 → Bool → σ × ℤ)

/-! ## The meaning as one loop over the segments -/

/-- Whether the pipeline of a segment is skipped: its first stage decides. -/
def skips (prev : Option ShOp) (skip : Bool) (status : ℤ) : Bool :=
  if prev = some .pipe then skip else !wanted prev status

def flatStep (i : ℕ) (prev : Option ShOp) (skip : Bool) (text : List UInt8) (s : ShState σ) : ShState σ :=
  if skips prev skip s.status then s else s.call exec i text (prev == some .pipe)

def flatRef : ℕ → Option ShOp → Bool → List ShSeg → ShState σ → ShState σ
  | _, _, _, [], s => s
  | i, prev, skip, (text, op) :: segs, s =>
    flatRef (i + 1) op (skips prev skip s.status) segs (flatStep exec i prev skip text s)

/-- No segment of the table that continues a skipped pipeline. -/
def FlatClear : ℕ → Option ShOp → Bool → List ShSeg → ShState σ → Prop
  | _, _, _, [], _ => True
  | i, prev, skip, (text, op) :: segs, s =>
    (prev = some .pipe → i < shSegMax → skip = false) ∧
      FlatClear (i + 1) op (skips prev skip s.status) segs (flatStep exec i prev skip text s)

/-- What is left of a pipeline behind a `|`, and the pipelines behind it. -/
def behindPipe (i : ℕ) (skip : Bool) (s : ShState σ) : List ShPipeline → ShState σ
  | [] => s
  | p :: ps => ps.foldl (refStep exec) (if skip then s else runStages exec i true p.stages s)

theorem flatRef_pipelines (segs : List ShSeg) : (∀ i before skip s, flatRef exec i (some .pipe) skip segs s =
      behindPipe exec i skip s (pipelines i before segs)) ∧
    ∀ i prev skip s, prev ≠ some .pipe →
      flatRef exec i prev skip segs s = (pipelines i prev segs).foldl (refStep exec) s := by
  induction segs with
  | nil => exact ⟨fun _ _ _ _ => rfl, fun _ _ _ _ _ => rfl⟩
  | cons x segs ih =>
    obtain ⟨text, op⟩ := x
    obtain ⟨hmid, hstart⟩ := ih
    refine ⟨fun i before skip s => ?_, fun i prev skip s hprev => ?_⟩
    · by_cases hop : op = some .pipe
      · subst hop
        rw [flatRef, hmid _ before, pipelines, if_pos rfl]
        cases pipelines (i + 1) before segs <;> cases skip <;> simp [behindPipe, runStages, flatStep, skips]
      · rw [flatRef, hstart _ _ _ _ hop, pipelines, if_neg hop]
        cases skip <;> simp [behindPipe, runStages, flatStep, skips]
    · have hskips : skips prev skip s.status = !wanted prev s.status := if_neg hprev
      have hfirst : (prev == some .pipe) = false := beq_eq_false_iff_ne.2 hprev
      by_cases hop : op = some .pipe
      · subst hop
        rw [flatRef, hmid _ prev, pipelines, if_pos rfl]
        cases pipelines (i + 1) prev segs <;> cases hw : wanted prev s.status <;>
          simp [behindPipe, runStages, refStep, flatStep, hskips, hw, hfirst]
      · rw [flatRef, hstart _ _ _ _ hop, pipelines, if_neg hop, foldl_cons]
        cases hw : wanted prev s.status <;> simp [runStages, refStep, flatStep, hskips, hw, hfirst]

theorem skipsWhole_nil (s : ShState σ) : SkipsWhole exec [] s :=
  fun before p after h => by simp at h

theorem skipsWhole_cons (p : ShPipeline) (ps : List ShPipeline) (s : ShState σ) : SkipsWhole exec (p :: ps) s ↔
      (wanted p.before s.status = false → p.stages.length = 1 ∨ shSegMax - 1 ≤ p.first) ∧
        SkipsWhole exec ps (refStep exec s p) := by
  constructor
  · intro h
    refine ⟨h [] p ps rfl, fun before q after hps => ?_⟩
    rw [hps] at h
    exact h (p :: before) q after rfl
  · rintro ⟨hfirst, hrest⟩ before q after hps
    cases before with
    | nil =>
      obtain ⟨rfl, -⟩ := cons.inj hps
      exact hfirst
    | cons r before =>
      obtain ⟨rfl, hbehind⟩ := cons.inj hps
      exact hrest before q after hbehind

/-- `SkipsWhole` behind a `|`. -/
def ClearBehind (i : ℕ) (skip : Bool) (s : ShState σ) : List ShPipeline → Prop
  | [] => True
  | p :: ps => (i < shSegMax → skip = false) ∧ SkipsWhole exec ps (if skip then s else runStages exec i true p.stages s)

theorem pipelines_stages (i : ℕ) (before : Option ShOp) (segs : List ShSeg) :
    ∀ p ∈ pipelines i before segs, p.stages ≠ [] := by
  fun_induction pipelines i before segs <;> simp_all

theorem flatClear_iff (segs : List ShSeg) : (∀ i before skip s, FlatClear exec i (some .pipe) skip segs s ↔
      ClearBehind exec i skip s (pipelines i before segs)) ∧
    ∀ i prev skip s, prev ≠ some .pipe →
      (FlatClear exec i prev skip segs s ↔ SkipsWhole exec (pipelines i prev segs) s) := by
  induction segs with
  | nil =>
    refine ⟨fun _ _ _ _ => Iff.rfl, fun _ _ _ s _ => ?_⟩
    exact ⟨fun _ => skipsWhole_nil exec s, fun _ => trivial⟩
  | cons x segs ih =>
    obtain ⟨text, op⟩ := x
    obtain ⟨hmid, hstart⟩ := ih
    refine ⟨fun i before skip s => ?_, fun i prev skip s hprev => ?_⟩
    · by_cases hop : op = some .pipe
      · subst hop
        rw [FlatClear, hmid _ before, pipelines, if_pos rfl]
        cases pipelines (i + 1) before segs <;> cases skip <;>
          simp [ClearBehind, runStages, flatStep, skips, skipsWhole_nil]
        intro _
        omega
      · rw [FlatClear, hstart _ _ _ _ hop, pipelines, if_neg hop]
        cases skip <;> simp [ClearBehind, runStages, flatStep, skips]
    · have hskips : skips prev skip s.status = !wanted prev s.status := if_neg hprev
      have hfirst : (prev == some .pipe) = false := beq_eq_false_iff_ne.2 hprev
      by_cases hop : op = some .pipe
      · subst hop
        rw [FlatClear, hmid _ prev, pipelines, if_pos rfl]
        have hstages := pipelines_stages (i + 1) prev segs
        cases hps : pipelines (i + 1) prev segs with
        | nil => simp [ClearBehind, skipsWhole_cons, skipsWhole_nil, hprev]
        | cons p ps =>
          have hp : p.stages ≠ [] := hstages p (by rw [hps]; exact mem_cons_self)
          cases hw : wanted prev s.status
          · simp [ClearBehind, refStep, flatStep, hskips, hw, hprev, hp, skipsWhole_cons]
            intro _
            unfold shSegMax
            omega
          · simp [ClearBehind, runStages, refStep, flatStep, hskips, hw, hfirst, hprev, skipsWhole_cons]
      · rw [FlatClear, hstart _ _ _ _ hop, pipelines, if_neg hop, skipsWhole_cons]
        cases hw : wanted prev s.status <;> simp [runStages, refStep, flatStep, hskips, hw, hfirst, hprev]

/-! ## The calls -/

/-- From `s` to `s'` only segments from `i` on are called, and something changes only by calls. -/
def Calls (i : ℕ) (s s' : ShState σ) : Prop :=
  ∃ new, s'.calls = s.calls ++ new ∧ (∀ c ∈ new, i ≤ c.seg) ∧ (new = [] → s' = s)

theorem Calls.refl (i : ℕ) (s : ShState σ) : Calls i s s := ⟨[], by simp, by simp, fun _ => rfl⟩

theorem Calls.trans {i j : ℕ} {s s' s'' : ShState σ} (hij : i ≤ j) (h : Calls i s s')
    (h' : Calls j s' s'') : Calls i s s'' := by
  obtain ⟨new, hcalls, hseg, hquiet⟩ := h
  obtain ⟨new', hcalls', hseg', hquiet'⟩ := h'
  refine ⟨new ++ new', by rw [hcalls', hcalls, append_assoc], fun c hc => ?_, fun hnil => ?_⟩
  · rcases mem_append.1 hc with hc | hc
    · exact hseg c hc
    · exact hij.trans (hseg' c hc)
  · obtain ⟨hnew, hnew'⟩ := append_eq_nil_iff.1 hnil
    rw [hquiet' hnew', hquiet hnew]

theorem Calls.call (i : ℕ) (s : ShState σ) (text : List UInt8) (piped : Bool) :
    Calls i s (s.call exec i text piped) := ⟨[⟨i, text, piped⟩], rfl, by simp, by simp⟩

theorem Calls.flatStep (i : ℕ) (prev : Option ShOp) (skip : Bool) (text : List UInt8)
    (s : ShState σ) : Calls i s (flatStep exec i prev skip text s) := by
  unfold EdgeOS.flatStep
  split
  · exact Calls.refl i s
  · exact Calls.call exec i s text _

theorem Calls.runSegs (segs : List ShSeg) : ∀ i prev s, Calls i s (runSegs exec i prev segs s) := by
  induction segs with
  | nil => exact fun i _ s => Calls.refl i s
  | cons x segs ih =>
    intro i prev s
    rw [EdgeOS.runSegs]
    refine Calls.trans (Nat.le_succ i) ?_ (ih (i + 1) x.2 _)
    split
    · exact Calls.call exec i s x.1 _
    · exact Calls.refl i s

theorem Calls.flatRef (segs : List ShSeg) : ∀ i prev skip s, Calls i s (flatRef exec i prev skip segs s) := by
  induction segs with
  | nil => exact fun i _ _ s => Calls.refl i s
  | cons x segs ih =>
    intro i prev skip s
    exact Calls.trans (Nat.le_succ i) (Calls.flatStep exec i prev skip x.1 s) (ih (i + 1) x.2 _ _)

def SameRun (s s' : ShState σ) : Prop := s.calls = s'.calls ∧ s.status = s'.status

/-- Segment `i` is called on one side, and not with that text on the other. -/
theorem Calls.not_same {i : ℕ} {text : List UInt8} {piped : Bool} {s s₁ s₂ : ShState σ}
    (h₁ : Calls (i + 1) (s.call exec i text piped) s₁) (h₂ : Calls (i + 1) s s₂) :
    ¬SameRun s₁ s₂ := by
  rintro ⟨hcalls, -⟩
  obtain ⟨new₁, h₁, -, -⟩ := h₁
  obtain ⟨new₂, h₂, hseg, -⟩ := h₂
  rw [h₁, h₂, ShState.call, append_assoc] at hcalls
  have hnew := append_cancel_left hcalls
  have hlow := hseg ⟨i, text, piped⟩ (by rw [← hnew]; simp)
  exact Nat.not_succ_le_self i hlow

theorem Calls.not_same_text {i : ℕ} {text text' : List UInt8} {piped piped' : Bool}
    {s s₁ s₂ : ShState σ} (htext : text ≠ text')
    (h₁ : Calls (i + 1) (s.call exec i text piped) s₁)
    (h₂ : Calls (i + 1) (s.call exec i text' piped') s₂) : ¬SameRun s₁ s₂ := by
  rintro ⟨hcalls, -⟩
  obtain ⟨new₁, h₁, -, -⟩ := h₁
  obtain ⟨new₂, h₂, -, -⟩ := h₂
  rw [h₁, h₂, ShState.call, ShState.call, append_assoc, append_assoc] at hcalls
  have hnew := append_cancel_left hcalls
  simp [htext] at hnew

/-! ## The shell against the meaning -/

/-- The step of `sh_run_line`. -/
def runStep (i : ℕ) (prev : Option ShOp) (text : List UInt8) (s : ShState σ) : ShState σ :=
  if wanted prev s.status then s.call exec i text (prev == some .pipe) else s

/-- The two agree about a segment, but for one that continues a skipped pipeline. -/
theorem runStep_flatStep {prev : Option ShOp} {skip : Bool} (i : ℕ) (text : List UInt8)
    (s : ShState σ) (h : prev = some .pipe → skip = false) :
    runStep exec i prev text s = flatStep exec i prev skip text s := by
  by_cases hprev : prev = some .pipe
  · subst hprev
    simp [runStep, flatStep, skips, wanted, h rfl]
  · cases hw : wanted prev s.status <;> simp [runStep, flatStep, skips, hprev, hw]

theorem not_same_skipped (i : ℕ) (text text' : List UInt8) (op op' : Option ShOp)
    (segs segs' : List ShSeg) (s : ShState σ) :
    ¬SameRun (runSegs exec i (some .pipe) ((text, op) :: segs) s)
      (flatRef exec i (some .pipe) true ((text', op') :: segs') s) := by
  have hrun := Calls.runSegs exec segs (i + 1) op (s.call exec i text true)
  have href := Calls.flatRef exec segs' (i + 1) op' true s
  exact Calls.not_same exec hrun href

theorem flatStep_below {i : ℕ} {s : ShState σ} (prev : Option ShOp) (skip : Bool)
    (text : List UInt8) (hs : ∀ c ∈ s.calls, c.seg < i) :
    ∀ c ∈ (flatStep exec i prev skip text s).calls, c.seg < i + 1 := by
  intro c hc
  unfold flatStep at hc
  split at hc
  · exact Nat.lt_succ_of_lt (hs c hc)
  rcases mem_append.1 hc with hc | hc
  · exact Nat.lt_succ_of_lt (hs c hc)
  · rw [mem_singleton.1 hc]
    exact Nat.lt_succ_self i

/-- A common first part, in front of what is compared by `base`. -/
theorem same_iff {k : ℕ} (segs segs' : List ShSeg) (Q : ShState σ → Prop) (hk : k ≤ shSegMax)
    (base : ∀ prev skip s, (∀ c ∈ s.calls, c.seg < k) →
      (SameRun (runSegs exec k prev segs s) (flatRef exec k prev skip segs' s) ↔
        FlatClear exec k prev skip segs' s ∧ Q (flatRef exec k prev skip segs' s)))
    (front : List ShSeg) : ∀ i prev skip s, i + front.length = k → (∀ c ∈ s.calls, c.seg < i) →
      (SameRun (runSegs exec i prev (front ++ segs) s) (flatRef exec i prev skip (front ++ segs') s) ↔
        FlatClear exec i prev skip (front ++ segs') s ∧ Q (flatRef exec i prev skip (front ++ segs') s)) := by
  induction front with
  | nil =>
    intro i prev skip s hi hs
    obtain rfl : i = k := hi
    exact base prev skip s hs
  | cons x front ih =>
    intro i prev skip s hi hs
    obtain ⟨text, op⟩ := x
    rw [length_cons] at hi
    by_cases hclear : prev = some .pipe → skip = false
    · have hstep : runSegs exec i prev (((text, op) :: front) ++ segs) s =
          runSegs exec (i + 1) op (front ++ segs) (flatStep exec i prev skip text s) := by
        rw [← runStep_flatStep exec i text s hclear]
        rfl
      rw [hstep, cons_append, flatRef, FlatClear, ih (i + 1) op _ _ (by omega)]
      · exact ⟨fun h => ⟨⟨fun hp _ => hclear hp, h.1⟩, h.2⟩, fun h => ⟨h.1.2, h.2⟩⟩
      · exact flatStep_below exec prev skip text hs
    · obtain ⟨rfl, hskip⟩ := Classical.not_imp.1 hclear
      obtain rfl : skip = true := by simpa using hskip
      refine iff_of_false (not_same_skipped exec i text text op op _ _ s) fun h => ?_
      have := h.1.1 rfl (by omega)
      simp at this

theorem flatClear_late {segs : List ShSeg} :
    ∀ {i prev skip} {s : ShState σ}, shSegMax ≤ i → FlatClear exec i prev skip segs s := by
  induction segs with
  | nil => exact fun _ => trivial
  | cons x segs ih => exact fun h => ⟨fun _ hlt => absurd hlt (by omega), ih (by omega)⟩

/-- The last entry of the table, which goes on behind its operator. -/
theorem same_last {text text' : List UInt8} (op : Option ShOp) (segs : List ShSeg)
    (htext : text ≠ text') (prev : Option ShOp) (skip : Bool) (s : ShState σ)
    (hs : ∀ c ∈ s.calls, c.seg < shSegMax - 1) :
    SameRun (runSegs exec (shSegMax - 1) prev [(text, none)] s)
        (flatRef exec (shSegMax - 1) prev skip ((text', op) :: segs) s) ↔
      FlatClear exec (shSegMax - 1) prev skip ((text', op) :: segs) s ∧
        ∀ c ∈ (flatRef exec (shSegMax - 1) prev skip ((text', op) :: segs) s).calls, c.seg < shSegMax - 1 := by
  by_cases hclear : prev = some .pipe → skip = false
  · have hstep : runSegs exec (shSegMax - 1) prev [(text, none)] s =
        flatStep exec (shSegMax - 1) prev skip text s := runStep_flatStep exec _ text s hclear
    have hwhole : FlatClear exec (shSegMax - 1) prev skip ((text', op) :: segs) s :=
      ⟨fun hp _ => hclear hp, flatClear_late exec (by decide)⟩
    have hbehind := Calls.flatRef exec segs (shSegMax - 1 + 1) op (skips prev skip s.status)
      (flatStep exec (shSegMax - 1) prev skip text' s)
    rw [hstep, flatRef]
    refine Iff.trans ?_ (and_iff_right hwhole).symm
    cases hskips : skips prev skip s.status with
    | true =>
      simp only [flatStep, hskips, if_true] at hbehind ⊢
      obtain ⟨new, hcalls, hseg, hquiet⟩ := hbehind
      cases new with
      | nil =>
        rw [hquiet rfl]
        exact iff_of_true ⟨rfl, rfl⟩ hs
      | cons c new =>
        refine iff_of_false (fun h => ?_) fun h => ?_
        · have := h.1.trans hcalls
          simp at this
        · have hlow := hseg c mem_cons_self
          have hhigh := h c (by rw [hcalls]; simp)
          omega
    | false =>
      simp only [flatStep, hskips, Bool.false_eq_true, if_false] at hbehind ⊢
      refine iff_of_false ?_ fun h => ?_
      · exact Calls.not_same_text exec htext (Calls.refl _ _) hbehind
      · obtain ⟨new, hcalls, -, -⟩ := hbehind
        have hhigh := h ⟨shSegMax - 1, text', prev == some .pipe⟩ (by
          rw [hcalls]
          simp [ShState.call])
        exact Nat.lt_irrefl _ hhigh
  · obtain ⟨rfl, hskip⟩ := Classical.not_imp.1 hclear
    obtain rfl : skip = true := by simpa using hskip
    refine iff_of_false (not_same_skipped exec _ text text' none op _ _ s) fun h => ?_
    have := h.1.1 rfl (by decide)
    simp at this

/-- The shell runs a line by its meaning if and only if no pipeline of several stages is skipped
and, with more than 16 segments, nothing from the sixteenth on is to run. -/
theorem chainExact_iff (line : List UInt8) (st : σ) (h : line.length < shLineMax) : ChainExact exec line st ↔
      SkipsWhole exec (linePipelines line) { st := st } ∧ FitsTable exec line st := by
  have hprev : (none : Option ShOp) ≠ some .pipe := by simp
  have href : refRunLine exec line st = flatRef exec 0 none false (segments [] line) { st := st } :=
    ((flatRef_pipelines exec (segments [] line)).2 0 none false _ hprev).symm
  have hclear := (flatClear_iff exec (segments [] line)).2 0 none false { st := st } hprev
  unfold ChainExact FitsTable linePipelines
  rw [← hclear, href, shRunLine, shParseChain]
  obtain ⟨hfit, hlong⟩ := tabled (shSegMax - 1) [] line h
  by_cases hlen : (segments [] line).length ≤ shSegMax
  · have hsame := same_iff exec [] [] (fun _ => True) hlen (fun prev skip s _ => ?_) (segments [] line) 0 none
      false { st := st } (Nat.zero_add _) (by simp)
    · rw [List.append_nil] at hsame
      rw [hfit hlen]
      refine hsame.trans ?_
      simp [hlen]
    · exact iff_of_true ⟨rfl, rfl⟩ ⟨trivial, trivial⟩
  obtain ⟨text, t, op, htable, hget, hlt⟩ := hlong (by unfold shSegMax at *; omega)
  obtain ⟨hk, hget⟩ := List.getElem?_eq_some_iff.1 hget
  have hsplit : segments [] line = (segments [] line).take (shSegMax - 1) ++
      (t, op) :: (segments [] line).drop (shSegMax - 1 + 1) := by
    rw [← hget, List.getElem_cons_drop, List.take_append_drop]
  have htext : text ≠ t := fun h => by simp [h] at hlt
  have hsame := same_iff exec [(text, none)]
    ((t, op) :: (segments [] line).drop (shSegMax - 1 + 1))
    (fun s => ∀ c ∈ s.calls, c.seg < shSegMax - 1) (by decide)
    (same_last exec op ((segments [] line).drop (shSegMax - 1 + 1)) htext)
    ((segments [] line).take (shSegMax - 1)) 0 none false { st := st }
    (by rw [Nat.zero_add, List.length_take, Nat.min_eq_left (by omega)]) (by simp)
  rw [htable, or_iff_right hlen]
  rw [← hsplit] at hsame
  exact hsame

end Flat

/-- Commands that fail when they start with an `f`. -/
def failsF (_ : Unit) (text : List UInt8) (_ : Bool) : Unit × ℤ :=
  ((), if text.head? = some 0x66 then 1 else 0)

/-- `f||a|b`: what is guarded runs as a whole. -/
theorem chainExact_or : SkipsWhole failsF (linePipelines [0x66, 0x7C, 0x7C, 0x61, 0x7C, 0x62]) { st := () } ∧
      FitsTable failsF [0x66, 0x7C, 0x7C, 0x61, 0x7C, 0x62] () :=
  (chainExact_iff failsF [0x66, 0x7C, 0x7C, 0x61, 0x7C, 0x62] () (by decide)).1
    ⟨by decide, by decide⟩

/-- `f&&a|b`: the guard fails, `a` is skipped, and `b` runs. -/
theorem guarded_runs : (refRunLine failsF [0x66, 0x26, 0x26, 0x61, 0x7C, 0x62] ()).calls = [⟨0, [0x66], false⟩] ∧
      (shRunLine failsF [0x66, 0x26, 0x26, 0x61, 0x7C, 0x62] ()).calls = [⟨0, [0x66], false⟩, ⟨2, [0x62], true⟩] ∧
      ¬∀ line : List UInt8, line.length < shLineMax → ChainExact failsF line () := by
  refine ⟨by decide, by decide, fun h => ?_⟩
  have hcalls := (h [0x66, 0x26, 0x26, 0x61, 0x7C, 0x62] (by decide)).1
  revert hcalls
  decide

end EdgeOS
