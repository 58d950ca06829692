import EdgeOS.MappingSafety

namespace EdgeOS

/-!
The search of `user_vma_find_topdown_gap` finds the highest place there is. From one round to the
next the places that are left all end below the cursor, and each round leaves at least one entry
of the table behind.
-/

open List

namespace UserMap

variable {t : UserMap} {floor top need base stop cursor : ℕ}

/-- A place for `need` bytes: whole pages in the window that no entry covers. -/
structure Fits (t : UserMap) (floor top need base : ℕ) : Prop where
  aligned : base % pageSize = 0
  window : floor ≤ base ∧ base + need ≤ top
  free : ∀ a, base ≤ a → a < base + need → ¬ t.Covers a

def InWay (floor top base stop : ℕ) (v : UserVma) : Prop :=
  v.Used ∧ ¬ (v.stop ≤ floor ∨ v.start ≥ top) ∧ ¬ (stop ≤ v.start ∨ base ≥ v.stop)

instance (floor top base stop : ℕ) (v : UserVma) : Decidable (InWay floor top base stop v) :=
  inferInstanceAs (Decidable (_ ∧ _ ∧ _))

theorem gapOverlap_eq (t : UserMap) (floor top base stop cursor : ℕ) :
    t.gapOverlap floor top base stop cursor = (finRange processUserVmaMax).foldl (fun st i =>
      if InWay floor top base stop (t.userVmas i) then (true, min (t.userVmas i).start st.2)
      else st) (false, cursor) := by
  unfold gapOverlap
  congr 1
  funext st i
  dsimp only
  by_cases hu : (t.userVmas i).Used
  · by_cases hout : (t.userVmas i).stop ≤ floor ∨ (t.userVmas i).start ≥ top
    · rw [if_neg (not_not.mpr hu), if_pos hout, if_neg fun h => h.2.1 hout]
    · by_cases hoff : stop ≤ (t.userVmas i).start ∨ base ≥ (t.userVmas i).stop
      · rw [if_neg (not_not.mpr hu), if_neg hout, if_pos hoff, if_neg fun h => h.2.2 hoff]
      · rw [if_neg (not_not.mpr hu), if_neg hout, if_neg hoff, if_pos ⟨hu, hout, hoff⟩]
  · rw [if_pos hu, if_neg fun h => hu h.1]

/-- What a part of the inner loop does to the cursor of the next round: it is the lowest start
among the entries in the way, if there is one. -/
theorem gapOverlap_lowest (l : List VmaIdx) (st : Bool × ℕ) (r : Bool × ℕ) (hr : l.foldl (fun st i =>
      if InWay floor top base stop (t.userVmas i) then (true, min (t.userVmas i).start st.2)
      else st) st = r) :
    (r = st ∨ r.1 = true ∧ ∃ i ∈ l, InWay floor top base stop (t.userVmas i)) ∧
      (r.2 = st.2 ∨ ∃ i ∈ l, InWay floor top base stop (t.userVmas i) ∧ r.2 = (t.userVmas i).start) ∧
      r.2 ≤ st.2 ∧
      ∀ i ∈ l, InWay floor top base stop (t.userVmas i) → r.2 ≤ (t.userVmas i).start := by
  induction l generalizing st with
  | nil => exact hr ▸ ⟨.inl rfl, .inl rfl, le_rfl, by simp⟩
  | cons i l ih =>
    rw [foldl_cons] at hr
    obtain ⟨hfound, hfrom, hle, hall⟩ := ih _ hr
    by_cases hi : InWay floor top base stop (t.userVmas i)
    · rw [if_pos hi] at hfound hfrom hle
      dsimp only at hfrom hle
      refine ⟨.inr ⟨?_, i, by simp, hi⟩, ?_, by omega, fun j hj hw => ?_⟩
      · rcases hfound with h | h
        · rw [h]
        · exact h.1
      · rcases hfrom with h | ⟨j, hj, hw, h⟩
        · rcases Nat.le_total (t.userVmas i).start st.2 with hm | hm
          · exact .inr ⟨i, by simp, hi, by omega⟩
          · exact .inl (by omega)
        · exact .inr ⟨j, mem_cons_of_mem i hj, hw, h⟩
      · rcases mem_cons.mp hj with rfl | hj
        · omega
        · exact hall j hj hw
    · rw [if_neg hi] at hfound hfrom hle
      refine ⟨hfound.imp_right fun h => ⟨h.1, ?_⟩, hfrom.imp_right ?_, hle, fun j hj hw => ?_⟩
      · obtain ⟨j, hj, hw⟩ := h.2
        exact ⟨j, mem_cons_of_mem i hj, hw⟩
      · rintro ⟨j, hj, hw, h⟩
        exact ⟨j, mem_cons_of_mem i hj, hw, h⟩
      · rcases mem_cons.mp hj with rfl | hj
        · exact absurd hw hi
        · exact hall j hj hw

/-- The answer of the inner loop: nothing is in the way, or the cursor moves down to the lowest
start of an entry in the way. -/
theorem gapOverlap_spec (t : UserMap) (floor top base : ℕ) (hstop : stop ≤ cursor) :
    (t.gapOverlap floor top base stop cursor = (false, cursor) ∧ ∀ i, ¬ InWay floor top base stop (t.userVmas i)) ∨
      ∃ i, InWay floor top base stop (t.userVmas i) ∧
        t.gapOverlap floor top base stop cursor = (true, (t.userVmas i).start) ∧
        (t.userVmas i).start < cursor ∧
        ∀ j, InWay floor top base stop (t.userVmas j) → (t.userVmas i).start ≤ (t.userVmas j).start := by
  rw [gapOverlap_eq]
  generalize hr : List.foldl _ _ (finRange processUserVmaMax) = r
  obtain ⟨hfound, hfrom, -, hall⟩ := gapOverlap_lowest _ _ r hr
  have hbelow : ∀ j, InWay floor top base stop (t.userVmas j) → (t.userVmas j).start < cursor :=
    fun j hj => lt_of_lt_of_le (by have := hj.2.2; omega) hstop
  rcases hfound with rfl | ⟨hone, j, -, hj⟩
  · refine .inl ⟨rfl, fun i hi => ?_⟩
    have h1 := hall i (mem_finRange i) hi
    have h2 := hbelow i hi
    dsimp only at h1
    omega
  rcases hfrom with h | ⟨i, -, hi, h⟩
  · have h1 := hall j (mem_finRange j) hj
    have h2 := hbelow j hj
    dsimp only at h
    omega
  · refine .inr ⟨i, hi, Prod.ext hone h, hbelow i hi, fun k hk => ?_⟩
    rw [← h]
    exact hall k (mem_finRange k) hk

/-- A place at or below `base` has nothing to do with an entry in the way of `[base, base + need)`
unless it ends below that entry. -/
theorem Fits.below {b : ℕ} {v : UserVma} {i : VmaIdx} (hv : t.userVmas i = v)
    (hpos : 0 < need) (hfit : Fits t floor top need b) (hb : b ≤ base)
    (hway : InWay floor top base (base + need) v) : b + need ≤ v.start := by
  obtain ⟨hu, hwin, hoff⟩ := hway
  have hu : v.start < v.stop := hu
  by_contra hlt
  -- The larger of the two starts is an address of both.
  exact hfit.free (max b v.start) (by omega) (by omega)
    ⟨i, by rw [hv]; exact ⟨by omega, by omega⟩⟩

/-- The entries that start below the cursor; each round leaves one behind. -/
def left (t : UserMap) (cursor : ℕ) : ℕ :=
  (List.finRange processUserVmaMax).countP fun i => (t.userVmas i).start < cursor

theorem left_le (t : UserMap) (cursor : ℕ) : t.left cursor ≤ processUserVmaMax := by
  have h := countP_le_length (l := finRange processUserVmaMax)
    (p := fun i => decide ((t.userVmas i).start < cursor))
  rwa [length_finRange] at h

theorem left_lt {i : VmaIdx} (h : (t.userVmas i).start < cursor) : t.left (t.userVmas i).start < t.left cursor := by
  have hmono : ∀ l : List VmaIdx, l.countP (fun j => decide ((t.userVmas j).start < (t.userVmas i).start)) ≤
        l.countP (fun j => decide ((t.userVmas j).start < cursor)) := by
    intro l
    apply countP_mono_left
    intro j _ hj
    simp only [decide_eq_true_eq] at hj ⊢
    omega
  obtain ⟨l₁, l₂, hl⟩ := append_of_mem (mem_finRange i)
  have h₁ := hmono l₁
  have h₂ := hmono l₂
  unfold left
  rw [hl]
  simp only [countP_append, countP_cons, decide_eq_true_eq, lt_irrefl, if_false, h, if_true]
  omega

/-- What the search returns: the highest place, and zero where there is none. -/
def Highest (t : UserMap) (floor top need result : ℕ) : Prop :=
  ((∃ b, Fits t floor top need b) → IsGreatest {b | Fits t floor top need b} result) ∧
    ((∀ b, ¬ Fits t floor top need b) → result = 0)

theorem highest_of_none {result : ℕ} (h : ∀ b, ¬ Fits t floor top need b) (hr : result = 0) :
    Highest t floor top need result :=
  ⟨fun ⟨b, hb⟩ => absurd hb (h b), fun _ => hr⟩

/-- The loop, when every place ends at or below the cursor and the rounds suffice for the entries
below it. -/
theorem gapLoop_highest (hfloor : floor % pageSize = 0) (htop : top < 2 ^ 64) (hpos : 0 < need)
    (n : ℕ) (hc : cursor ≤ top) (hleft : t.left cursor < n)
    (hinv : ∀ b, Fits t floor top need b → b + need ≤ cursor) :
    Highest t floor top need (t.gapLoop floor top need n cursor) := by
  induction n generalizing cursor with
  | zero => exact absurd hleft (Nat.not_lt_zero _)
  | succ n ih =>
    unfold gapLoop
    by_cases hfit : cursor ≤ floor ∨ need > cursor - floor
    · rw [if_pos hfit]
      refine highest_of_none (fun b hb => ?_) rfl
      have h1 := hinv b hb
      have h2 := hb.window
      omega
    rw [if_neg hfit]
    -- The floor is a page address, so that rounding down does not go below it.
    have hround : (cursor - need) / pageSize * pageSize ≤ cursor - need := Nat.div_mul_le_self _ _
    have hbase : max floor ((cursor - need) / pageSize * pageSize) = (cursor - need) / pageSize * pageSize := by
      unfold pageSize at *
      omega
    have hbest : ∀ b, Fits t floor top need b → b ≤ (cursor - need) / pageSize * pageSize := by
      intro b hb
      have h1 := hinv b hb
      have h2 := hb.aligned
      unfold pageSize at *
      omega
    dsimp only
    rw [hbase]
    have hpage : (cursor - need) / pageSize * pageSize % pageSize = 0 := Nat.mul_mod_left _ _
    generalize (cursor - need) / pageSize * pageSize = base at hround hbase hbest hpage ⊢
    rw [Nat.mod_eq_of_lt (show base + need < 2 ^ 64 by omega), if_neg (by omega)]
    rcases gapOverlap_spec t floor top base
      (show base + need ≤ cursor by omega) with ⟨hov, hfree⟩ | ⟨i, hi, hov, hlt, hlow⟩
    · rw [hov]
      have hhere : Fits t floor top need base := by
        refine ⟨hpage, ⟨by omega, by omega⟩, ?_⟩
        rintro a h1 h2 ⟨j, h3, h4⟩
        exact hfree j ⟨by unfold UserVma.Used; omega, by omega, by omega⟩
      exact ⟨fun _ => ⟨hhere, fun b hb => hbest b hb⟩, fun h => absurd hhere (h _)⟩
    · rw [hov]
      dsimp only
      rw [if_neg (by omega)]
      refine ih (by omega) ?_ fun b hb => hb.below rfl hpos (hbest b hb) hi
      have := left_lt hlt
      omega

theorem gapLoop_rounds (n m : ℕ) (hstop : cursor ≤ top) (htop : top < 2 ^ 64)
    (hn : t.left cursor < n) (hm : t.left cursor < m) :
    t.gapLoop floor top need n cursor = t.gapLoop floor top need m cursor := by
  induction n generalizing cursor m with
  | zero => exact absurd hn (Nat.not_lt_zero _)
  | succ n ih =>
    obtain ⟨m, rfl⟩ : ∃ k, m = k + 1 := ⟨m - 1, by omega⟩
    unfold gapLoop
    split
    · rfl
    dsimp only
    split
    · rfl
    rename_i hfit hend
    generalize hbase : max floor ((cursor - need) / pageSize * pageSize) = base at hend ⊢
    have hround : (cursor - need) / pageSize * pageSize ≤ cursor - need := Nat.div_mul_le_self _ _
    have hwrap : (base + need) % 2 ^ 64 = base + need := Nat.mod_eq_of_lt (by omega)
    rw [hwrap]
    rcases gapOverlap_spec t floor top base
      (show base + need ≤ cursor by omega) with ⟨hov, -⟩ | ⟨i, -, hov, hlt, -⟩
    · rw [hov]
    · rw [hov]
      dsimp only
      rw [if_neg (by omega), if_neg (by omega)]
      have := left_lt hlt
      exact ih m (by omega) (by omega) (by omega)

theorem findTopdownGap_highest (t : UserMap) (hfloor : floor % pageSize = 0) (htop : top < 2 ^ 64)
    (hpos : 0 < need) : Highest t floor top need (t.findTopdownGap floor top need) := by
  unfold findTopdownGap
  rw [if_neg (by omega)]
  by_cases hwin : top ≤ floor ∨ need > top - floor
  · rw [if_pos hwin]
    refine highest_of_none (fun b hb => ?_) rfl
    have := hb.window
    omega
  rw [if_neg hwin]
  refine gapLoop_highest hfloor htop hpos _ le_rfl ?_ fun b hb => hb.window.2
  have := left_le t top
  omega

/-- The search returns the highest place whenever there is a place. It returns zero only if there
is none above the address zero, so with a floor other than zero only if there is none at all; and
no number of rounds beyond the one it allows itself would find more. Only the floor has to be a
page address, and the entries may overlap. -/
theorem findTopdownGap_exact (t : UserMap) (floor top need : UInt64)
    (hfloor : floor.toNat % pageSize = 0) (hneed : 0 < need) :
    ((∃ b, Fits t floor.toNat top.toNat need.toNat b) → IsGreatest {b | Fits t floor.toNat top.toNat need.toNat b}
          (t.findTopdownGap floor.toNat top.toNat need.toNat)) ∧
      (t.findTopdownGap floor.toNat top.toNat need.toNat = 0 ↔ ∀ b, Fits t floor.toNat top.toNat need.toNat b → b = 0) ∧
      (floor ≠ 0 → (t.findTopdownGap floor.toNat top.toNat need.toNat = 0 ↔
        ¬ ∃ b, Fits t floor.toNat top.toNat need.toNat b)) ∧
      ∀ n, processUserVmaMax + 4 ≤ n → t.gapLoop floor.toNat top.toNat need.toNat n top.toNat =
        t.gapLoop floor.toNat top.toNat need.toNat (processUserVmaMax + 4) top.toNat := by
  have hpos : 0 < need.toNat := hneed
  have htop := top.toNat_lt
  obtain ⟨hbest, hnone⟩ := findTopdownGap_highest t hfloor htop hpos
  have hzero : t.findTopdownGap floor.toNat top.toNat need.toNat = 0 ↔
      ∀ b, Fits t floor.toNat top.toNat need.toNat b → b = 0 := by
    constructor
    · intro h b hb
      have hle := (hbest ⟨b, hb⟩).2 hb
      omega
    · intro h
      by_cases hex : ∃ b, Fits t floor.toNat top.toNat need.toNat b
      · exact h _ (hbest hex).1
      · exact hnone fun b hb => hex ⟨b, hb⟩
  refine ⟨hbest, hzero, fun hne => ⟨?_, ?_⟩, fun n hn => ?_⟩
  · rintro h ⟨b, hb⟩
    have h1 := hzero.mp h b hb
    have h2 := hb.window
    exact hne (UInt64.toNat_inj.mp (show floor.toNat = 0 by omega))
  · exact fun h => hnone fun b hb => h ⟨b, hb⟩
  · have := left_le t top.toNat
    exact gapLoop_rounds n _ le_rfl htop (by omega) (by omega)

/-- A table with one mapping, at the upper end of a window of three pages. -/
def oneMapping : UserMap :=
  { userHeapBase := 0, userBrk := 0, userHeapLimit := 0
    userVmas := fun i => if i.val = 0 then ⟨0x3000, 0x4000, 0, 0⟩ else {} }

theorem oneMapping_exact : ((∃ b, Fits oneMapping 0x1000 0x4000 0x1000 b) →
        IsGreatest {b | Fits oneMapping 0x1000 0x4000 0x1000 b} (oneMapping.findTopdownGap 0x1000 0x4000 0x1000)) ∧
      (oneMapping.findTopdownGap 0x1000 0x4000 0x1000 = 0 ↔ ∀ b, Fits oneMapping 0x1000 0x4000 0x1000 b → b = 0) ∧
      ((0x1000 : UInt64) ≠ 0 → (oneMapping.findTopdownGap 0x1000 0x4000 0x1000 = 0 ↔
        ¬ ∃ b, Fits oneMapping 0x1000 0x4000 0x1000 b)) ∧
      ∀ n, processUserVmaMax + 4 ≤ n → oneMapping.gapLoop 0x1000 0x4000 0x1000 n 0x4000 =
        oneMapping.gapLoop 0x1000 0x4000 0x1000 (processUserVmaMax + 4) 0x4000 :=
  findTopdownGap_exact oneMapping 0x1000 0x4000 0x1000 rfl (by decide)

def noMapping : UserMap := { userHeapBase := 0, userBrk := 0, userHeapLimit := 0 }

/-- With floor zero the answer zero is also the address of a place: the page at zero is the only
one of the window, it is free, and the search returns zero. -/
theorem zero_is_a_place : noMapping.Separate ∧ Fits noMapping 0 0x1000 0x1000 0 ∧
      noMapping.findTopdownGap 0 0x1000 0x1000 = 0 := by
  have hfree : ∀ a, ¬ noMapping.Covers a := by
    rintro a ⟨i, h1, h2⟩
    exact Nat.not_lt_zero a h2
  have hplace : Fits noMapping 0 0x1000 0x1000 0 := ⟨rfl, by decide, fun a _ _ => hfree a⟩
  refine ⟨fun i j a hi _ => absurd ⟨i, hi⟩ (hfree a), hplace, ?_⟩
  have hhighest : Highest noMapping 0 0x1000 0x1000 (noMapping.findTopdownGap 0 0x1000 0x1000) :=
    findTopdownGap_highest noMapping rfl (by decide) (by decide)
  have hbest := hhighest.1 ⟨0, hplace⟩
  have hwin := hbest.1.window
  omega

end UserMap

/-! ## Pages that are given back -/

open Lib UserMap

/-- Pages that were given back are found again: a search for no more of them finds no lower place. -/
theorem MapKernel.unmapped_found_again (pte : ℕ → PteFlags) (mainLoadHi size : UInt64) (t : UserMap)
    (ht : execMap mainLoadHi size = some t) (es : List MapEvent) (addr len : UInt64) {k k' : MapKernel}
    (hk : run (step pte) { map := t } es = k) (hk' : k.step pte (.munmap addr len) = k')
    (hok : Meets (step pte) HasRoom { map := t } (es ++ [.munmap addr len])) (haddr : addr.toNat % pageSize = 0)
    (hlo : mmapFloor k.map ≤ addr.toNat) (hhi : addr.toNat + pageAlignUp len.toNat ≤ k.map.userHeapLimit)
    {need : ℕ} (hpos : 0 < need) (hneed : need ≤ pageAlignUp len.toNat) :
    addr.toNat ≤ k'.map.findTopdownGap (mmapFloor k'.map) k'.map.userHeapLimit need := by
  obtain ⟨hes, hroom, -⟩ := meets_append.mp hok
  rw [hk] at hroom
  have h : k.TracksLive := hk ▸ run_invariant (fun _ e h hok => (h.step e hok).1) (execMap_inv ht) hes
  have hmax : userMaxAddr.toNat = 0x40000000 := rfl
  have hlimit := h.map.limit
  obtain ⟨halign, hbase, -⟩ := mmapFloor_spec h.map
  obtain ⟨stop, hs⟩ : ∃ stop, addr.toNat + pageAlignUp len.toNat = stop := ⟨_, rfl⟩
  have hstop : stop % 2 ^ 64 = stop := Nat.mod_eq_of_lt (by omega)
  have hlen : len ≠ 0 := by
    rintro rfl
    exact absurd (hpos.trans_le hneed) (by decide)
  have hmap : k'.map = k.map.removeRange addr.toNat stop := by
    rw [← hk', step, doSysMunmap, if_neg hlen, if_neg (not_not.mpr haddr), if_neg (by omega), if_pos (by omega), hs, hstop]
  have hrem := removeRange_spec h.map.separate (hroom (by omega) haddr (by omega) (by omega))
  rw [hs, hstop, ← hmap] at hrem
  obtain ⟨h1, h2, h3⟩ := hmap ▸ removeRange_sameHeap k.map addr.toNat stop
  have hfloor : mmapFloor k'.map = mmapFloor k.map := by
    unfold mmapFloor
    rw [h1, h2]
  rw [hfloor, h3]
  have hfits : Fits k'.map (mmapFloor k.map) k.map.userHeapLimit need addr.toNat :=
    ⟨haddr, ⟨hlo, by omega⟩, fun a hfrom hto ha => ((hrem.covers a).mp ha).2 ⟨hfrom, by omega⟩⟩
  exact ((findTopdownGap_highest k'.map halign (by omega) hpos).1 ⟨_, hfits⟩).2 hfits

theorem MapKernel.unmapped_found_again_page : ∃ k, (run (step allPages) { map := smallMap } [mmapAnon 0x3000]).step allPages
    (.munmap 0x223FE000 0x1000) = k ∧ 0x223FE000 ≤ k.map.findTopdownGap (mmapFloor k.map) k.map.userHeapLimit 0x1000 :=
  ⟨_, rfl, unmapped_found_again allPages 0 0 smallMap rfl [mmapAnon 0x3000] 0x223FE000 0x1000 rfl rfl
    ⟨⟨by decide, fun h => absurd h (by decide)⟩, fun _ _ _ _ => .inl ⟨255, by decide +kernel⟩, trivial⟩ rfl
    (by decide +kernel) (by decide +kernel) (by decide) (by decide)⟩

end EdgeOS
