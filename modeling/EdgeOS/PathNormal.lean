import EdgeOS.PathCalls
import EdgeOS.PathWalk

namespace EdgeOS

/-!
`normalize_path` against a stack of components. A `..` that has more than one component before it takes back the name
and leaves its slash, so the buffer is described by slots, some of them empty.
-/

open List

/-! ## The stack of components -/

/-- The path that is taken apart: `tmp` of `normalize_path`. -/
def joinedPath (cwd path : Bytes) : Bytes :=
  if path = [] then cwd
  else if path.head? = some slash then path
  else cwd ++ (if cwd = [slash] then [] else [slash]) ++ path

def keepPart (kept : List Bytes) (part : Bytes) : List Bytes :=
  if part = [] ∨ part = ascii "." then kept
  else if part = ascii ".." then kept.dropLast
  else kept ++ [part]

def keptParts (path : Bytes) : List Bytes := (pathParts path).foldl keepPart []

/-- What a path of the kernel should be turned into, and what follows for the calls that use it. -/
structure Normalises (cwd path : Bytes) : Prop where
  spec : normalizePath cwd path = renderPath (keptParts (joinedPath cwd path))
  idempotent : normalizePath cwd (normalizePath cwd path) = normalizePath cwd path
  split : ∀ names last, keptParts (joinedPath cwd path) = names ++ [last] →
    pathSplitLast (normalizePath cwd path) = some (renderPath names, last)
  resolves : ∀ v : VfsTables, v.cwd = cwd →
    vfsResolve v path = vfsResolve v (renderPath (keptParts (joinedPath cwd path)))

/-! ## When it does -/

/-- How far the buffer is filled: the components and slashes in it, whether nothing follows the last slash, and whether
nothing follows some slash. -/
structure SlotCount where
  slots : ℕ := 0
  lastEmpty : Bool := false
  someEmpty : Bool := false
  deriving DecidableEq

def SlotCount.next (k : SlotCount) (part : Bytes) : SlotCount :=
  if part = [] ∨ part = ascii "." then k
  else if part = ascii ".." then
    if k.slots - k.lastEmpty.toNat ≤ 1 then {}
    else { slots := k.slots - k.lastEmpty.toNat, lastEmpty := true, someEmpty := true }
  else { k with slots := k.slots + 1, lastEmpty := false }

/-- No `..` stands behind two components or more, unless it is followed by so many that all is taken back. -/
def Tidy (path : Bytes) : Prop := ((pathParts path).foldl SlotCount.next {}).someEmpty = false

instance Tidy.decidable (path : Bytes) : Decidable (Tidy path) := inferInstanceAs (Decidable (_ = _))

/-! ## Slots -/

/-- What `..` leaves: an empty slot in place of the last one that is not behind the last slash. -/
def slotPop (slots : List Bytes) : List Bytes :=
  let base := if slots.getLast? = some [] then slots.dropLast else slots
  if base.length ≤ 1 then [] else base.dropLast ++ [[]]

def slotStep (slots : List Bytes) (part : Bytes) : List Bytes :=
  if part = [] ∨ part = ascii "." then slots
  else if part = ascii ".." then slotPop slots
  else slots ++ [part]

structure SlotsOk (slots : List Bytes) : Prop where
  noSlash : ∀ c ∈ slots, slash ∉ c
  head : slots.head? ≠ some []

def slotBytes (slots : List Bytes) : Bytes := slots.flatMap fun c => slash :: c

theorem renderPath_ne {slots : List Bytes} (h : slots ≠ []) : renderPath slots = slotBytes slots := if_neg h

theorem slotBytes_snoc (slots : List Bytes) (c : Bytes) : slotBytes (slots ++ [c]) = slotBytes slots ++ slash :: c := by
  unfold slotBytes
  rw [flatMap_append, flatMap_cons, flatMap_nil, append_nil]

theorem SlotsOk.long {slots : List Bytes} (h : SlotsOk slots) (hne : slots ≠ []) : 1 < (renderPath slots).length := by
  obtain ⟨c, cs, rfl⟩ := exists_cons_of_ne_nil hne
  have hc : c ≠ [] := fun hc => h.head (by rw [hc]; rfl)
  have hpos := length_pos_iff.mpr hc
  rw [renderPath_ne hne]
  unfold slotBytes
  rw [flatMap_cons, length_append, length_cons]
  omega

theorem dropBack {a c : Bytes} (hc : slash ∉ c) :
    ((a ++ slash :: c).reverse.dropWhile (· ≠ slash)).reverse = a ++ [slash] := by
  have hall : ∀ b ∈ c.reverse, decide (b ≠ slash) = true := by
    intro b hb
    rw [decide_eq_true_iff]
    rintro rfl
    exact hc (mem_reverse.mp hb)
  rw [reverse_append, reverse_cons, append_assoc, dropWhile_append_of_pos hall]
  simp

theorem slotBytes_pop (ys : List Bytes) (y : Bytes) : slotBytes ys ++ [slash] =
      renderPath (if (ys ++ [y]).length ≤ 1 then [] else (ys ++ [y]).dropLast ++ [[]]) := by
  rw [dropLast_concat, length_append, length_singleton]
  cases ys with
  | nil => rfl
  | cons z zs =>
    rw [if_neg (by simp), renderPath_ne (by simp), slotBytes_snoc]

theorem popComponent_render {slots : List Bytes} (h : SlotsOk slots) :
    popComponent (renderPath slots) = renderPath (slotPop slots) := by
  rcases eq_nil_or_concat' slots with rfl | ⟨xs, x, rfl⟩
  · rfl
  unfold popComponent slotPop
  dsimp only
  rw [if_pos (h.long (by simp)), renderPath_ne (by simp), slotBytes_snoc, getLast?_concat]
  by_cases hx : x = []
  · subst hx
    rw [if_pos rfl, dropLast_concat, dropLast_concat]
    rcases eq_nil_or_concat' xs with rfl | ⟨ys, y, rfl⟩
    · exact absurd rfl h.head
    · rw [slotBytes_snoc, dropBack (h.noSlash y (by simp)), slotBytes_pop]
  · have hlast : slash ∉ x.dropLast := fun hmem => h.noSlash x (by simp) (mem_of_mem_dropLast hmem)
    rw [if_neg (fun he => hx (Option.some.inj he)), dropLast_append_of_ne_nil (cons_ne_nil _ _),
      dropLast_cons_of_ne_nil hx, dropBack hlast, slotBytes_pop xs x]

theorem pushComponent_render {slots : List Bytes} {c : Bytes} (h : SlotsOk slots) (hc : c ≠ []) (hdot : c ≠ ascii ".")
    (hdots : c ≠ ascii "..") (hfits : (slotBytes (slots ++ [c])).length < vfsPathMax) :
    pushComponent (renderPath slots) c = renderPath (slots ++ [c]) := by
  have hrender : renderPath (slots ++ [c]) = slotBytes (slots ++ [c]) := renderPath_ne (by simp)
  unfold pushComponent
  rw [if_neg hc, if_neg hdot, if_neg hdots, hrender]
  rw [slotBytes_snoc] at hfits ⊢
  rw [length_append, length_cons] at hfits
  cases slots with
  | nil =>
    have hroot : renderPath [] = [slash] := rfl
    rw [hroot, if_neg (by decide), appendCut_eq]
    · rfl
    · rw [length_singleton]
      omega
  | cons d slots =>
    rw [if_pos (h.long (by simp)), renderPath_ne (by simp), appendCut_eq, appendCut_eq]
    · rw [append_assoc]
      rfl
    · rw [length_singleton]
      omega
    · rw [appendCut_eq]
      · rw [length_append, length_singleton]
        omega
      · rw [length_singleton]
        omega

def slotNames (slots : List Bytes) : List Bytes := slots.filter (· ≠ [])

/-- The slots up to the last one that is not behind the last slash. -/
def slotBase (slots : List Bytes) : List Bytes := if slots.getLast? = some [] then slots.dropLast else slots

theorem slotBase_initial (slots : List Bytes) : slotBase slots <+: slots := by
  unfold slotBase
  split_ifs
  · exact dropLast_prefix slots
  · exact prefix_rfl

theorem slotBase_names (slots : List Bytes) : slotNames (slotBase slots) = slotNames slots := by
  unfold slotBase
  split_ifs with h
  · obtain ⟨xs, rfl⟩ := getLast?_eq_some_iff.mp h
    rw [dropLast_concat]
    unfold slotNames
    rw [filter_append, filter_cons_of_neg (by simp), filter_nil, append_nil]
  · rfl

theorem slotPop_cases (slots : List Bytes) : (slotPop slots = [] ∧ (slotNames slots).length ≤ 1) ∨
      ∃ ys, ys ≠ [] ∧ ys <+: slots ∧ slotPop slots = ys ++ [[]] ∧
        (slotNames slots).length ≤ (slotNames ys).length + 1 := by
  have hpop : slotPop slots = if (slotBase slots).length ≤ 1 then [] else (slotBase slots).dropLast ++ [[]] := rfl
  have hinit := slotBase_initial slots
  have hnames := slotBase_names slots
  rw [hpop, ← hnames]
  split_ifs with hlen
  · exact Or.inl ⟨rfl, (length_filter_le _ _).trans hlen⟩
  refine Or.inr ⟨(slotBase slots).dropLast, ?_, ( dropLast_prefix _).trans hinit, rfl, ?_⟩
  · rw [← length_pos_iff, length_dropLast]
    omega
  · obtain ⟨y, hy⟩ : ∃ y, slotBase slots = (slotBase slots).dropLast ++ [y] := by
      have hne : slotBase slots ≠ [] := by
        rw [← length_pos_iff]
        omega
      exact ⟨_, (dropLast_append_getLast hne).symm⟩
    have hle : (slotNames [y]).length ≤ 1 := length_filter_le _ _
    have happ : slotNames (slotBase slots) = slotNames (slotBase slots).dropLast ++ slotNames [y] := by
      unfold slotNames
      rw [← filter_append, ← hy]
    rw [happ, length_append]
    omega

theorem slotStep_ok {slots : List Bytes} {part : Bytes} (h : SlotsOk slots) (hpart : slash ∉ part) :
    SlotsOk (slotStep slots part) := by
  unfold slotStep
  split_ifs with hskip hdots
  · exact h
  · rcases slotPop_cases slots with ⟨hpop, -⟩ | ⟨ys, hne, hinit, hpop, -⟩
    · rw [hpop]
      exact ⟨by simp, by simp⟩
    · rw [hpop]
      refine ⟨fun c hc => ?_, ?_⟩
      · rcases mem_append.mp hc with hc | hc
        · exact h.noSlash c (hinit.mem hc)
        · rw [mem_singleton.mp hc]
          simp
      · obtain ⟨rest, rfl⟩ := hinit
        have hhead := h.head
        rw [head?_append_of_ne_nil _ hne] at hhead ⊢
        exact hhead
  · refine ⟨fun c hc => ?_, ?_⟩
    · rcases mem_append.mp hc with hc | hc
      · exact h.noSlash c hc
      · rw [mem_singleton.mp hc]
        exact hpart
    · cases slots with
      | nil => exact fun he => hskip (Or.inl (Option.some.inj he))
      | cons d slots => exact h.head

theorem slotStep_length (slots : List Bytes) (part : Bytes) :
    (slotBytes (slotStep slots part)).length ≤ (slotBytes slots).length + (part.length + 1) := by
  unfold slotStep
  split_ifs
  · omega
  · rcases slotPop_cases slots with ⟨hpop, -⟩ | ⟨ys, hne, ⟨rest, rfl⟩, hpop, -⟩
    · rw [hpop]
      exact Nat.zero_le _
    · rw [hpop, slotBytes_snoc]
      unfold slotBytes
      rw [flatMap_append, length_append, length_append, length_singleton]
      omega
  · rw [slotBytes_snoc, length_append, length_cons]

/-! ## The loop -/

theorem pushComponent_slot {slots : List Bytes} {part : Bytes} (h : SlotsOk slots)
    (hfits : (slotBytes slots).length + (part.length + 1) < vfsPathMax) :
    pushComponent (renderPath slots) part = renderPath (slotStep slots part) := by
  unfold slotStep
  by_cases hnil : part = []
  · rw [if_pos (Or.inl hnil)]
    exact if_pos hnil
  by_cases hdot : part = ascii "."
  · rw [if_pos (Or.inr hdot)]
    unfold pushComponent
    rw [if_neg hnil, if_pos hdot]
  rw [if_neg (not_or.mpr ⟨hnil, hdot⟩)]
  by_cases hdots : part = ascii ".."
  · rw [if_pos hdots]
    unfold pushComponent
    rw [if_neg hnil, if_neg hdot, if_pos hdots]
    exact popComponent_render h
  rw [if_neg hdots]
  refine pushComponent_render h hnil hdot hdots ?_
  rw [slotBytes_snoc, length_append, length_cons]
  exact hfits

theorem foldl_pushComponent_slots (parts : List Bytes) {slots : List Bytes} (h : SlotsOk slots)
    (hparts : ∀ p ∈ parts, slash ∉ p) (hfits : (slotBytes slots).length + (slotBytes parts).length < vfsPathMax) :
    parts.foldl pushComponent (renderPath slots) = renderPath (parts.foldl slotStep slots) := by
  induction parts generalizing slots with
  | nil => rfl
  | cons part parts ih =>
    rw [forall_mem_cons] at hparts
    have hcons : (slotBytes (part :: parts)).length = (part.length + 1) + (slotBytes parts).length := by
      unfold slotBytes
      rw [flatMap_cons, length_append, length_cons]
    have hstep := slotStep_length slots part
    rw [hcons] at hfits
    rw [foldl_cons, foldl_cons, pushComponent_slot h (by omega)]
    exact ih (slotStep_ok h hparts.1) hparts.2 (by omega)

theorem foldl_slotStep_ok (parts : List Bytes) {slots : List Bytes} (h : SlotsOk slots)
    (hparts : ∀ p ∈ parts, slash ∉ p) : SlotsOk (parts.foldl slotStep slots) := by
  induction parts generalizing slots with
  | nil => exact h
  | cons part parts ih =>
    rw [forall_mem_cons] at hparts
    exact ih (slotStep_ok h hparts.1) hparts.2

theorem mem_pathParts {path p : Bytes} (h : p ∈ pathParts path) : slash ∉ p := by
  unfold pathParts at h
  induction path generalizing p with
  | nil =>
    rw [splitOn_nil, mem_singleton] at h
    simp [h]
  | cons b path ih =>
    rw [splitOn_cons_eq_if_modifyHead] at h
    split_ifs at h with hb
    · rcases mem_cons.mp h with rfl | h
      · simp
      · exact ih h
    · obtain ⟨q, qs, hq⟩ := exists_cons_of_ne_nil (splitOn_ne_nil slash path)
      rw [hq] at h ih
      rcases mem_cons.mp h with rfl | h
      · have hbs : slash ≠ b := fun he => hb (by simp [he])
        exact fun hs => ih mem_cons_self (mem_of_ne_of_mem hbs hs)
      · exact ih (mem_cons_of_mem _ h)

theorem slotBytes_intercalate {slots : List Bytes} (h : slots ≠ []) :
    slotBytes slots = slash :: [slash].intercalate slots := by
  induction slots with
  | nil => exact absurd rfl h
  | cons c slots ih =>
    cases slots with
    | nil => simp [slotBytes]
    | cons d slots =>
      have hrest := ih (cons_ne_nil d slots)
      unfold slotBytes at hrest ⊢
      rw [flatMap_cons, hrest, intercalate_cons_cons]
      simp

/-- The parts of a path with a slash before each are a slash and the path. -/
theorem slotBytes_pathParts (path : Bytes) : slotBytes (pathParts path) = slash :: path := by
  unfold pathParts
  rw [slotBytes_intercalate (splitOn_ne_nil slash path)]
  rw [intercalate_splitOn]

def pathSlots (path : Bytes) : List Bytes := (pathParts path).foldl slotStep []

theorem slotsOk_nil : SlotsOk [] := ⟨by simp, by simp⟩

theorem pathSlots_ok (path : Bytes) : SlotsOk (pathSlots path) :=
  foldl_slotStep_ok _ slotsOk_nil fun _ => mem_pathParts

theorem pathParts_slash (rest : Bytes) : pathParts (slash :: rest) = [] :: pathParts rest := by
  unfold pathParts
  rw [← nil_append (slash :: rest), splitOn_append_cons_self]
  rfl

theorem foldl_pathParts {path : Bytes} (habs : path.head? = some slash) (hfits : path.length < vfsPathMax) :
    (pathParts path).foldl pushComponent [slash] = renderPath (pathSlots path) := by
  obtain ⟨rest, rfl⟩ := head?_eq_some_iff.mp habs
  have hroot : renderPath [] = [slash] := rfl
  have hlen := congrArg length (slotBytes_pathParts rest)
  unfold pathSlots
  rw [pathParts_slash, foldl_cons, foldl_cons]
  have hpush : pushComponent [slash] [] = renderPath [] := rfl
  have hslot : slotStep [] [] = [] := rfl
  rw [hpush, hslot]
  refine foldl_pushComponent_slots _ slotsOk_nil (fun _ => mem_pathParts) ?_
  rw [hlen]
  exact (Nat.zero_add _).trans_lt hfits

/-! ## Slots and components -/

/-- The slots beside the components that should be kept and the count of them. -/
structure Follows (slots kept : List Bytes) (k : SlotCount) : Prop where
  count : k.slots = slots.length
  last : k.lastEmpty = decide (slots.getLast? = some [])
  empty : k.someEmpty = decide ([] ∈ slots)
  names : kept.length ≤ (slotNames slots).length
  same : [] ∉ slots → slots = kept

theorem Follows.nil : Follows [] [] {} := ⟨rfl, rfl, rfl, Nat.le_refl _, fun _ => rfl⟩

theorem Follows.base {slots kept : List Bytes} {k : SlotCount} (h : Follows slots kept k) :
    k.slots - k.lastEmpty.toNat = (slotBase slots).length := by
  unfold slotBase
  rw [h.count, h.last]
  split_ifs with hlast
  · rw [decide_eq_true hlast, length_dropLast]
    rfl
  · rw [decide_eq_false hlast]
    rfl

theorem Follows.pop {slots kept : List Bytes} {k : SlotCount} (h : Follows slots kept k) :
    Follows (slotPop slots) kept.dropLast (if k.slots - k.lastEmpty.toNat ≤ 1 then {}
      else { slots := k.slots - k.lastEmpty.toNat, lastEmpty := true, someEmpty := true }) := by
  have hpop : slotPop slots = if (slotBase slots).length ≤ 1 then [] else (slotBase slots).dropLast ++ [[]] := rfl
  have hnames := h.names
  rw [h.base]
  split_ifs with hlen
  · rw [hpop, if_pos hlen]
    have hshort : kept.length ≤ 1 := by
      rw [← slotBase_names] at hnames
      exact hnames.trans ((length_filter_le _ _).trans hlen)
    have hnil : kept.dropLast = [] := by
      rw [← length_eq_zero_iff, length_dropLast]
      omega
    rw [hnil]
    exact Follows.nil
  · rcases slotPop_cases slots with ⟨hnil, -⟩ | ⟨ys, hne, -, hys, hle⟩
    · rw [hpop, if_neg hlen] at hnil
      exact absurd hnil (by simp)
    · have hlength : (slotPop slots).length = (slotBase slots).length := by
        rw [hpop, if_neg hlen, length_append, length_dropLast, length_singleton]
        omega
      have happ : slotNames (ys ++ [[]]) = slotNames ys := by
        unfold slotNames
        rw [filter_append, filter_cons_of_neg (by simp), filter_nil, append_nil]
      refine ⟨hlength.symm, ?_, ?_, ?_, fun hmem => ?_⟩
      · rw [hys, getLast?_concat]
        simp
      · rw [hys]
        simp
      · rw [hys, happ, length_dropLast]
        omega
      · rw [hys] at hmem
        exact absurd (by simp) hmem

theorem Follows.step {slots kept : List Bytes} {k : SlotCount} (h : Follows slots kept k) (part : Bytes) :
    Follows (slotStep slots part) (keepPart kept part) (k.next part) := by
  unfold slotStep keepPart SlotCount.next
  split_ifs with hskip hdots
  · exact h
  · have := h.pop
    rwa [if_pos ‹_›] at this
  · have := h.pop
    rwa [if_neg ‹_›] at this
  · have hne : part ≠ [] := fun he => hskip (Or.inl he)
    refine ⟨?_, ?_, ?_, ?_, fun hmem => ?_⟩
    · rw [length_append, ← h.count]
      rfl
    · rw [getLast?_concat]
      simp [hne]
    · simp [h.empty, hne.symm]
    · have hnames := h.names
      unfold slotNames at hnames ⊢
      rw [filter_append, filter_cons_of_pos (by simpa using hne), filter_nil, length_append, length_append]
      exact Nat.add_le_add_right hnames 1
    · rw [h.same fun hs => hmem (mem_append_left _ hs)]

theorem follows_path (path : Bytes) :
    Follows (pathSlots path) (keptParts path) ((pathParts path).foldl SlotCount.next {}) := by
  have hfold : ∀ (parts slots kept : List Bytes) (k : SlotCount), Follows slots kept k →
      Follows (parts.foldl slotStep slots) (parts.foldl keepPart kept) (parts.foldl SlotCount.next k) := by
    intro parts
    induction parts with
    | nil => exact fun _ _ _ h => h
    | cons part parts ih => exact fun _ _ _ h => ih _ _ _ (h.step part)
  exact hfold _ _ _ _ Follows.nil

theorem Tidy.slots {path : Bytes} (h : Tidy path) : pathSlots path = keptParts path := by
  have hf := follows_path path
  unfold Tidy at h
  rw [hf.empty, decide_eq_false_iff_not] at h
  exact hf.same h

theorem not_tidy {path : Bytes} (h : ¬ Tidy path) : [] ∈ pathSlots path := by
  have hf := follows_path path
  unfold Tidy at h
  rw [hf.empty, decide_eq_false_iff_not, not_not] at h
  exact h

/-! ## Normal forms -/

/-- Slots are found again in their bytes, after an empty part. -/
theorem pathParts_slotBytes {slots : List Bytes} (h : ∀ c ∈ slots, slash ∉ c) :
    pathParts (slotBytes slots) = [] :: slots := by
  by_cases hne : slots = []
  · rw [hne]
    rfl
  rw [slotBytes_intercalate hne, pathParts_slash]
  unfold pathParts
  rw [splitOn_intercalate slash h hne]

theorem mem_keptParts {path c : Bytes} (h : c ∈ keptParts path) :
    c ≠ [] ∧ c ≠ ascii "." ∧ c ≠ ascii ".." ∧ slash ∉ c := by
  have hfold : ∀ (parts kept : List Bytes), (∀ p ∈ parts, slash ∉ p) →
      (∀ c ∈ kept, c ≠ [] ∧ c ≠ ascii "." ∧ c ≠ ascii ".." ∧ slash ∉ c) →
      ∀ c ∈ parts.foldl keepPart kept, c ≠ [] ∧ c ≠ ascii "." ∧ c ≠ ascii ".." ∧ slash ∉ c := by
    intro parts
    induction parts with
    | nil => exact fun _ _ h => h
    | cons part parts ih =>
      intro kept hparts hkept
      rw [forall_mem_cons] at hparts
      refine ih _ hparts.2 fun c hc => ?_
      unfold keepPart at hc
      split_ifs at hc with hskip hdots
      · exact hkept c hc
      · exact hkept c (mem_of_mem_dropLast hc)
      · rcases mem_append.mp hc with hc | hc
        · exact hkept c hc
        · rw [mem_singleton.mp hc]
          exact ⟨fun he => hskip (Or.inl he), fun he => hskip (Or.inr he), hdots, hparts.1⟩
  exact hfold _ _ (fun _ => mem_pathParts) (by simp) c h

theorem foldl_slotStep_names (names slots : List Bytes)
    (h : ∀ c ∈ names, c ≠ [] ∧ c ≠ ascii "." ∧ c ≠ ascii ".." ∧ slash ∉ c) :
    names.foldl slotStep slots = slots ++ names := by
  induction names generalizing slots with
  | nil => rw [append_nil, foldl_nil]
  | cons c names ih =>
    rw [forall_mem_cons] at h
    have hstep : slotStep slots c = slots ++ [c] := by
      unfold slotStep
      rw [if_neg (not_or.mpr ⟨h.1.1, h.1.2.1⟩), if_neg h.1.2.2.1]
    rw [foldl_cons, hstep, ih _ h.2, append_assoc]
    rfl

theorem pathSlots_names {names : List Bytes} (h : ∀ c ∈ names, c ≠ [] ∧ c ≠ ascii "." ∧ c ≠ ascii ".." ∧ slash ∉ c) :
    pathSlots (renderPath names) = names := by
  by_cases hne : names = []
  · rw [hne]
    rfl
  have hstep : slotStep [] [] = [] := rfl
  unfold pathSlots
  rw [renderPath_ne hne, pathParts_slotBytes fun c hc => (h c hc).2.2.2, foldl_cons, hstep,
    foldl_slotStep_names _ _ h, nil_append]

theorem renderPath_head (slots : List Bytes) : (renderPath slots).head? = some slash := by
  unfold renderPath
  split_ifs with h
  · rfl
  · obtain ⟨c, cs, rfl⟩ := exists_cons_of_ne_nil h
    rfl

theorem joinedPath_head {cwd path : Bytes} (hcwd : cwd.head? = some slash) :
    (joinedPath cwd path).head? = some slash := by
  obtain ⟨rest, rfl⟩ := head?_eq_some_iff.mp hcwd
  unfold joinedPath
  split_ifs with hnil habs
  · rfl
  · exact habs
  · rfl
  · rfl

theorem pathSlots_length {path : Bytes} (habs : path.head? = some slash) :
    (slotBytes (pathSlots path)).length ≤ path.length := by
  have hfold : ∀ parts slots : List Bytes, (slotBytes (parts.foldl slotStep slots)).length ≤
      (slotBytes slots).length + (slotBytes parts).length := by
    intro parts
    induction parts with
    | nil => exact fun slots => Nat.le_add_right _ _
    | cons part parts ih =>
      intro slots
      have hcons : (slotBytes (part :: parts)).length = (part.length + 1) + (slotBytes parts).length := by
        unfold slotBytes
        rw [flatMap_cons, length_append, length_cons]
      have hstep := slotStep_length slots part
      have hrest := ih (slotStep slots part)
      rw [foldl_cons, hcons]
      omega
  obtain ⟨rest, rfl⟩ := head?_eq_some_iff.mp habs
  have hslot : slotStep [] [] = [] := rfl
  have hle := hfold (pathParts rest) []
  rw [slotBytes_pathParts] at hle
  unfold pathSlots
  rw [pathParts_slash, foldl_cons, hslot]
  exact hle.trans (Nat.le_of_eq (Nat.zero_add _))

variable {cwd path : Bytes}

theorem normalizePath_slots (hcwd : cwd.head? = some slash) (hfits : (joinedPath cwd path).length < vfsPathMax) :
    normalizePath cwd path = renderPath (pathSlots (joinedPath cwd path)) :=
  foldl_pathParts (joinedPath_head hcwd) hfits

theorem joinedPath_render (cwd : Bytes) (slots : List Bytes) :
    joinedPath cwd (renderPath slots) = renderPath slots := by
  have hhead := renderPath_head slots
  unfold joinedPath
  rw [if_neg (fun h => by rw [h] at hhead; exact absurd hhead (by simp)), if_pos hhead]

theorem renderPath_length {slots : List Bytes} {n : ℕ} (hn : 0 < n) (h : (slotBytes slots).length ≤ n) :
    (renderPath slots).length ≤ n := by
  unfold renderPath
  split_ifs
  · exact hn
  · exact h

theorem pathSplitLast_render {names : List Bytes} {last : Bytes} (hlast : last ≠ []) (hslash : slash ∉ last) :
    pathSplitLast (renderPath (names ++ [last])) =
      if last.length < vfsNameMax then some (renderPath names, last) else none := by
  obtain ⟨init, b, rfl⟩ := (eq_nil_or_concat' last).resolve_left hlast
  have hb : b ≠ slash := fun he => hslash (by simp [he])
  have hstripped : ((slotBytes (names ++ [init ++ [b]])).reverse.dropWhile (· = slash)).reverse =
      slotBytes (names ++ [init ++ [b]]) := by
    rw [slotBytes_snoc, ← cons_append, ← append_assoc, reverse_append, reverse_singleton,
      singleton_append, dropWhile_cons_of_neg (by simpa using hb)]
    simp
  generalize hc : init ++ [b] = last at *
  have hleaf : (((slotBytes (names ++ [last])).drop 1).reverse.takeWhile (· ≠ slash)).reverse = last := by
    have hall : ∀ b ∈ last.reverse, decide (b ≠ slash) = true := by
      intro b hb
      rw [decide_eq_true_iff]
      rintro rfl
      exact hslash (mem_reverse.mp hb)
    rw [slotBytes_snoc]
    cases names with
    | nil =>
      change ((last.reverse).takeWhile _).reverse = last
      rw [← append_nil last.reverse, takeWhile_append_of_pos hall]
      simp
    | cons d names =>
      have hd : slotBytes (d :: names) = slash :: (d ++ slotBytes names) := rfl
      rw [hd, cons_append, drop_one, tail_cons, reverse_append, reverse_cons,
        append_assoc, takeWhile_append_of_pos hall]
      simp
  have hne : slotBytes (names ++ [last]) ≠ [] := by
    rw [slotBytes_snoc]
    simp
  have hcut : (slotBytes (names ++ [last])).length - 1 - last.length = (slotBytes names).length := by
    rw [slotBytes_snoc, length_append, length_cons]
    omega
  unfold pathSplitLast
  dsimp only
  rw [renderPath_ne (by simp), hstripped, if_neg hne, hleaf, hcut]
  by_cases hlen : last.length < vfsNameMax
  · rw [if_neg (not_or.mpr ⟨hlast, by omega⟩), if_pos hlen]
    congr 2
    by_cases hnames : names = []
    · rw [hnames]
      rfl
    have hpos : (slotBytes names).length ≠ 0 := by
      obtain ⟨d, ds, rfl⟩ := exists_cons_of_ne_nil hnames
      have hd : slotBytes (d :: ds) = slash :: (d ++ slotBytes ds) := rfl
      rw [hd]
      simp
    rw [if_neg hpos, renderPath_ne hnames, slotBytes_snoc, take_left]
  · rw [if_pos (Or.inr (by omega)), if_neg hlen]

/-- Only the slots of a tidy path look like its components. -/
theorem tidy_of_render {tmp : Bytes} (h : renderPath (pathSlots tmp) = renderPath (keptParts tmp)) : Tidy tmp := by
  by_contra hnot
  have hmem := not_tidy hnot
  have hok := pathSlots_ok tmp
  have hne : pathSlots tmp ≠ [] := ne_nil_of_mem hmem
  by_cases hkept : keptParts tmp = []
  · have hlong := hok.long hne
    rw [h, hkept] at hlong
    exact absurd hlong (by decide)
  rw [renderPath_ne hne, renderPath_ne hkept] at h
  have hparts := congrArg pathParts h
  rw [pathParts_slotBytes hok.noSlash, pathParts_slotBytes fun c hc => (mem_keptParts hc).2.2.2] at hparts
  rw [(cons.inj hparts).2] at hmem
  exact (mem_keptParts hmem).1 rfl

theorem normalizePath_kept {tmp : Bytes} (hcwd : cwd.head? = some slash) (hhead : tmp.head? = some slash)
    (hfits : tmp.length < vfsPathMax) (htidy : Tidy tmp) :
    normalizePath cwd (renderPath (keptParts tmp)) = renderPath (keptParts tmp) := by
  have hpos : 0 < tmp.length := by
    obtain ⟨rest, rfl⟩ := head?_eq_some_iff.mp hhead
    exact Nat.succ_pos _
  have hlen : (renderPath (keptParts tmp)).length ≤ tmp.length := by
    rw [← htidy.slots]
    exact renderPath_length hpos (pathSlots_length hhead)
  rw [normalizePath_slots hcwd (by rw [joinedPath_render]; omega), joinedPath_render,
    pathSlots_names fun c => mem_keptParts]

/-- A path is turned into its normal form, and so on, exactly when it is tidy and its last component fits the buffer for
a name. -/
theorem normalises_iff (hcwd : cwd.head? = some slash) (hfits : (joinedPath cwd path).length < vfsPathMax) :
    Normalises cwd path ↔ Tidy (joinedPath cwd path) ∧
        ∀ last, (keptParts (joinedPath cwd path)).getLast? = some last → last.length < vfsNameMax := by
  have hnorm := normalizePath_slots hcwd hfits
  have hhead : (joinedPath cwd path).head? = some slash := joinedPath_head hcwd
  constructor
  · intro h
    have hspec := h.spec
    refine ⟨tidy_of_render (hnorm.symm.trans hspec), fun last hlast => ?_⟩
    obtain ⟨names, hkept⟩ := List.getLast?_eq_some_iff.mp hlast
    have hmem : last ∈ keptParts (joinedPath cwd path) := by simp [hkept]
    have hsplit := h.split names last hkept
    rw [hspec, hkept, pathSplitLast_render (mem_keptParts hmem).1 (mem_keptParts hmem).2.2.2] at hsplit
    by_contra hlen
    rw [if_neg hlen] at hsplit
    exact absurd hsplit (by simp)
  · rintro ⟨htidy, hlast⟩
    have hspec : normalizePath cwd path = renderPath (keptParts (joinedPath cwd path)) := by
      rw [hnorm, htidy.slots]
    have hself := normalizePath_kept hcwd hhead hfits htidy
    refine ⟨hspec, by rw [hspec, hself], fun names last hkept => ?_, fun v hv => ?_⟩
    · have hmem : last ∈ keptParts (joinedPath cwd path) := by simp [hkept]
      have hlen := hlast last (by rw [hkept, List.getLast?_concat])
      rw [hspec, hkept, pathSplitLast_render (mem_keptParts hmem).1 (mem_keptParts hmem).2.2.2, if_pos hlen]
    · unfold vfsResolve
      rw [hv, hspec, hself]

example : normalizePath (ascii "/") (ascii "/a/b/../c/../..") = ascii "/a/" := by decide +kernel

/-- `..` behind one component, and at the root. -/
theorem dotdot_normalises : Normalises (ascii "/") (ascii "/etc/.././../bin//sh/") :=
  (normalises_iff rfl (by decide)).mpr (by decide +kernel)

/-- `/a/b/..` becomes `/a/`. -/
theorem trailing_dotdot_not_normalises :
    ¬ ∀ cwd path : Bytes, cwd.head? = some slash → (joinedPath cwd path).length < vfsPathMax → Normalises cwd path := by
  intro h
  have hspec := (h (ascii "/") (ascii "/a/b/..") rfl (by decide +kernel)).spec
  exact absurd hspec (by decide +kernel)

end EdgeOS
