import EdgeOS.ObjectRefs
import Mathlib.Data.Fintype.Prod

namespace EdgeOS

open Lib FdEntry

/-!
The accounting invariant of the descriptor layer. A call holds references of its own
between taking them and putting them into a descriptor; `F` and `G` are the object and the
file references in hand.
-/

def FdEntry.key (e : FdEntry) : Holders := if e.used then oneRef e.kind e.pipeId.toNat else 0

def FdEntry.ref (e : FdEntry) : ℕ → ℕ := if e.used then oneAt e.fileRef else 0

def slots (s : FdState) : Holders := fun k i => ∑ x, (s.fds x).key k i

def refSlots (s : FdState) : ℕ → ℕ := fun i => ∑ x, (s.fds x).ref i

/-- The descriptor has the access mode and the file that `r` had, and `r` was allowed. -/
def OpenRecord.Grants (r : OpenRecord) (e : FdEntry) : Prop :=
  e.flags &&& linuxOAccmode = r.flags &&& linuxOAccmode ∧ e.inode.ino = r.inode.ino ∧
    e.sb = r.sb ∧ vfsPermissionCheck r.inode (openRequest r.flags) r.euid r.egid = true

/-- What holds of each used descriptor: a counted one has an object number, a file has been
opened. -/
structure FdEntry.WellFormed (e : FdEntry) : Prop where
  named : e.kind.counted = true → 0 ≤ e.pipeId
  opened : e.kind = .vfs → ∃ r, e.origin = some r ∧ r.Grants e

/-- The accounting of a state whose process numbers are below `N`. `R` says whether the
sockets are accounted for too: they are not after a race with an accept callback, but the
other objects and the file references still are. -/
structure FdInv (R : Prop) (N : ℤ) (F : Holders) (G : ℕ → ℕ) (s : FdState) : Prop where
  objs : ObjInv R (slots s + F) s.objs
  files : ∀ i, 1 ≤ i → (s.fileRefs i).Holds (refSlots s i + G i) ∧ (edgeMaxFileRefs ≤ i → (s.fileRefs i).used = false)
  formed : ∀ x, (s.fds x).used = true → (s.fds x).WellFormed
  owned : ∀ x, s.procPid x.1 = 0 → (s.fds x).used = false
  known : ∀ p, s.procPid p < N

/-- Only the tables of processes hold descriptors: what is true of unused descriptors and in the tables `ps` of all
processes is true everywhere. -/
theorem FdInv.forall_fds {R : Prop} {N : ℤ} {F : Holders} {G : ℕ → ℕ} {s : FdState} (h : FdInv R N F G s)
    {P : FdProcIdx × FdIdx → Prop} (ps : List FdProcIdx) (hps : ∀ p, p ∈ ps ∨ s.procPid p = 0)
    (hfree : ∀ x, (s.fds x).used = false → P x) (hown : ∀ p ∈ ps, ∀ i, P (p, i)) (x : FdProcIdx × FdIdx) : P x := by
  obtain ⟨p, i⟩ := x
  rcases hps p with hp | hp
  · exact hown p hp i
  · exact hfree _ (h.owned (p, i) hp)

/-- A descriptor that holds nothing: unused, or marked by `fd_alloc`. -/
def FdEntry.Blank (e : FdEntry) : Prop := e.used = true → e.kind = .none ∧ e.fileRef = 0

section Entries

variable {e : FdEntry}

theorem FdEntry.key_used (h : e.used = true) : e.key = oneRef e.kind e.pipeId.toNat := if_pos h

theorem FdEntry.ref_used (h : e.used = true) : e.ref = oneAt e.fileRef := if_pos h

theorem FdEntry.blank_unused (h : e.used = false) : e.Blank := by
  intro hu
  rw [h] at hu
  simp at hu

theorem FdEntry.blank_marked : FdEntry.Blank { used := true } := fun _ => ⟨rfl, rfl⟩

theorem FdEntry.Blank.key (h : e.Blank) {k : FdKind} (hk : k.counted = true) (i : ℕ) : e.key k i = 0 := by
  unfold FdEntry.key
  split_ifs with hu
  · refine if_neg ?_
    rintro ⟨rfl, -⟩
    rw [(h hu).1] at hk
    simp [FdKind.counted] at hk
  · rfl

theorem FdEntry.WellFormed.of_counted (hk : e.kind.counted = true) (hid : 0 ≤ e.pipeId) : e.WellFormed := by
  refine ⟨fun _ => hid, fun hv => ?_⟩
  rw [hv] at hk
  simp [FdKind.counted] at hk

theorem FdEntry.WellFormed.of_plain (hk : e.kind.counted = false) (hv : e.kind ≠ .vfs) : e.WellFormed := by
  refine ⟨fun hc => ?_, fun h => absurd h hv⟩
  rw [hk] at hc
  simp at hc

theorem FdEntry.WellFormed.setFlags {flags : BitVec 32} (h : e.WellFormed)
    (hf : flags &&& linuxOAccmode = e.flags &&& linuxOAccmode) :
    FdEntry.WellFormed { e with flags := flags } := by
  refine ⟨h.named, fun hv => ?_⟩
  obtain ⟨r, ho, hflags, hrest⟩ := h.opened hv
  exact ⟨r, ho, hf.trans hflags, hrest⟩

theorem FdEntry.Blank.ref (h : e.Blank) {i : ℕ} (hi : 1 ≤ i) : e.ref i = 0 := by
  unfold FdEntry.ref
  split_ifs with hu
  · refine if_neg ?_
    rw [(h hu).2]
    omega
  · rfl

end Entries

section Writes

variable (s : FdState) (p : FdProcIdx) (i : FdIdx) (e : FdEntry)

theorem slots_setFd : slots (s.setFd p i e) + (s.fds (p, i)).key = slots s + e.key := by
  funext k j
  exact sum_write_add Finset.univ s.fds (Finset.mem_univ (p, i)) e fun e => e.key k j

theorem refSlots_setFd : refSlots (s.setFd p i e) + (s.fds (p, i)).ref = refSlots s + e.ref := by
  funext j
  exact sum_write_add Finset.univ s.fds (Finset.mem_univ (p, i)) e fun e => e.ref j

variable {s p i}

theorem slots_pos (hu : (s.fds (p, i)).used = true) : 0 < slots s (s.fds (p, i)).kind (s.fds (p, i)).pipeId.toNat := by
  have hle := Finset.single_le_sum
    (f := fun x => (s.fds x).key (s.fds (p, i)).kind (s.fds (p, i)).pipeId.toNat)
    (fun _ _ => Nat.zero_le _) (Finset.mem_univ (p, i))
  refine lt_of_lt_of_le ?_ hle
  rw [key_used hu, oneRef, if_pos ⟨rfl, rfl⟩]
  exact Nat.one_pos

theorem refSlots_pos {x : FdProcIdx × FdIdx} (hu : (s.fds x).used = true) : 0 < refSlots s (s.fds x).fileRef := by
  have hle := Finset.single_le_sum (f := fun y => (s.fds y).ref (s.fds x).fileRef)
    (fun _ _ => Nat.zero_le _) (Finset.mem_univ x)
  refine lt_of_lt_of_le ?_ hle
  rw [ref_used hu, oneAt, if_pos rfl]
  exact Nat.one_pos

end Writes

namespace FdInv

variable {R : Prop} {N : ℤ} {F F' : Holders} {G G' : ℕ → ℕ} {s : FdState}
variable {p : FdProcIdx} {i : FdIdx}

/-- What is in hand matters for counted kinds and real file references only. -/
theorem congr (h : FdInv R N F G s) (hF : ∀ k i, k.counted = true → F' k i = F k i)
    (hG : ∀ i, 1 ≤ i → G' i = G i) : FdInv R N F' G' s where
  objs := h.objs.congr fun k i hk => by rw [Pi.add_apply, Pi.add_apply, hF k i hk]; rfl
  files i hi := by
    rw [hG i hi]
    exact h.files i hi
  formed := h.formed
  owned := h.owned
  known := h.known

theorem fileRef_used (h : FdInv R N F G s) {x : FdProcIdx × FdIdx} (hu : (s.fds x).used = true)
    (href : 1 ≤ (s.fds x).fileRef) : (s.fileRefs (s.fds x).fileRef).used = true := by
  have hpos := refSlots_pos hu
  rcases (h.files _ href).1 with ⟨hused, -⟩ | ⟨-, hzero⟩
  · exact hused
  · omega

/-- Writing a descriptor trades what it will hold for what it held. -/
theorem write {e : FdEntry} (h : FdInv R N (F + e.key) (G + e.ref) s) (hformed : e.used = true → e.WellFormed)
    (hp : e.used = true → s.procPid p ≠ 0) :
    FdInv R N (F + (s.fds (p, i)).key) (G + (s.fds (p, i)).ref) (s.setFd p i e) where
  objs := by
    have hs : slots (s.setFd p i e) + (F + (s.fds (p, i)).key) = slots s + (F + e.key) := by
      rw [add_left_comm, slots_setFd, add_left_comm]
    rw [hs]
    exact h.objs
  files j hj := by
    have hs : refSlots (s.setFd p i e) j + (G + (s.fds (p, i)).ref) j = refSlots s j + (G + e.ref) j := by
      have := congrFun (refSlots_setFd s p i e) j
      simp only [Pi.add_apply] at this ⊢
      omega
    rw [hs]
    exact h.files j hj
  formed := forall_write (P := fun _ (y : FdEntry) => y.used = true → y.WellFormed)
    (fun x _ => h.formed x) hformed
  owned := by
    apply forall_write (P := fun (x : FdProcIdx × FdIdx) (y : FdEntry) =>
      s.procPid x.1 = 0 → y.used = false)
    · exact fun x _ => h.owned x
    · intro h0
      by_contra hu
      exact hp (by simpa using hu) h0
  known := h.known

/-- A blank descriptor is filled from the references in hand. -/
theorem fill {e : FdEntry} (h : FdInv R N (F + e.key) (G + e.ref) s) (hb : (s.fds (p, i)).Blank)
    (hformed : e.used = true → e.WellFormed)
    (hp : e.used = true → s.procPid p ≠ 0) : FdInv R N F G (s.setFd p i e) := by
  refine (h.write hformed hp).congr (fun k j hk => ?_) fun j hj => ?_
  · rw [Pi.add_apply, Pi.add_apply, hb.key hk, Nat.add_zero]
  · rw [Pi.add_apply, hb.ref hj, Nat.add_zero]

/-- A blank descriptor gets an object and a file reference that are in hand. -/
theorem install {k : FdKind} {l j : ℕ} {e : FdEntry} (h : FdInv R N (F + oneRef k l) (G + oneAt j) s)
    (hp : s.procPid p ≠ 0) (hb : (s.fds (p, i)).Blank) (hu : e.used = true) (hk : e.kind = k)
    (hl : e.pipeId.toNat = l) (hr : e.fileRef = j) (hformed : e.WellFormed) :
    FdInv R N F G (s.setFd p i e) := by
  subst hk hl hr
  refine FdInv.fill ?_ hb (fun _ => hformed) fun _ => hp
  rw [key_used hu, ref_used hu]
  exact h

theorem installPlain {j : ℕ} {e : FdEntry} (h : FdInv R N F (G + oneAt j) s)
    (hp : s.procPid p ≠ 0) (hb : (s.fds (p, i)).Blank) (hu : e.used = true)
    (hk : e.kind.counted = false) (hr : e.fileRef = j) (hformed : e.WellFormed) :
    FdInv R N F G (s.setFd p i e) := by
  have h' : FdInv R N (F + oneRef e.kind e.pipeId.toNat) (G + oneAt j) s :=
    h.congr (fun k l hc => ObjInv.add_uncounted hk F _ k l hc) fun _ _ => rfl
  exact h'.install hp hb hu rfl rfl hr hformed

/-- A descriptor is overwritten by a blank one; what it held is in hand. -/
theorem release {e : FdEntry} (h : FdInv R N F G s) (he : e.Blank) (hp : e.used = true → s.procPid p ≠ 0) :
    FdInv R N (F + (s.fds (p, i)).key) (G + (s.fds (p, i)).ref) (s.setFd p i e) := by
  refine FdInv.write (h.congr (fun k j hk => ?_) fun j hj => ?_) (fun hu => ?_) hp
  · rw [Pi.add_apply, Pi.add_apply, he.key hk, Nat.add_zero]
  · rw [Pi.add_apply, he.ref hj, Nat.add_zero]
  · have hk := (he hu).1
    exact .of_plain (by rw [hk]; rfl) (by simp [hk])

theorem blank {e : FdEntry} (h : FdInv R N F G s) (hb : (s.fds (p, i)).Blank) (he : e.Blank)
    (hp : e.used = true → s.procPid p ≠ 0) : FdInv R N F G (s.setFd p i e) := by
  refine (h.release he hp).congr (fun k j hk => ?_) fun j hj => ?_
  · rw [Pi.add_apply, Pi.add_apply, hb.key hk, Nat.add_zero]
  · rw [Pi.add_apply, hb.ref hj, Nat.add_zero]

theorem rewrite {e : FdEntry} (h : FdInv R N F G s) (hu : e.used = (s.fds (p, i)).used)
    (hk : e.kind = (s.fds (p, i)).kind) (hi : e.pipeId = (s.fds (p, i)).pipeId)
    (hr : e.fileRef = (s.fds (p, i)).fileRef)
    (hformed : (s.fds (p, i)).WellFormed → e.WellFormed) : FdInv R N F G (s.setFd p i e) := by
  have hkey : e.key = (s.fds (p, i)).key := by
    unfold key
    rw [hu, hk, hi]
  have href : e.ref = (s.fds (p, i)).ref := by
    unfold ref
    rw [hu, hr]
  have hs := slots_setFd s p i e
  have hrs := refSlots_setFd s p i e
  rw [hkey] at hs
  rw [href] at hrs
  refine ⟨?_, fun j hj => ?_, ?_, ?_, h.known⟩
  · rw [add_right_cancel hs]
    exact h.objs
  · rw [add_right_cancel hrs]
    exact h.files j hj
  · apply forall_write (P := fun _ (y : FdEntry) => y.used = true → y.WellFormed)
    · exact fun x _ => h.formed x
    · rw [hu]
      exact fun hused => hformed (h.formed (p, i) hused)
  · apply forall_write (P := fun (x : FdProcIdx × FdIdx) (y : FdEntry) =>
      s.procPid x.1 = 0 → y.used = false)
    · exact fun x _ => h.owned x
    · rw [hu]
      exact h.owned (p, i)

theorem setObjs (h : FdInv R N F G s) {o : Objects} (ho : ObjInv R (slots s + F) s.objs → ObjInv R (slots s + F') o) :
    FdInv R N F' G { s with objs := o } where
  objs := ho h.objs
  files := h.files
  formed := h.formed
  owned := h.owned
  known := h.known

/-! ## File references -/

theorem setFileRef (h : FdInv R N F G s) {j : ℕ} {x : RefObj} (hj : j < edgeMaxFileRefs)
    (hx : x.Holds (refSlots s j + G' j)) (hG : ∀ i, i ≠ j → G' i = G i) :
    FdInv R N F G' (s.setFileRef j x) where
  objs := h.objs
  files i hi := by
    refine forall_write (P := fun i (y : RefObj) => 1 ≤ i → y.Holds (refSlots s i + G' i) ∧
      (edgeMaxFileRefs ≤ i → y.used = false)) (fun i hij hi => ?_)
      (fun _ => ⟨hx, fun hle => by omega⟩) i hi
    rw [hG i hij]
    exact h.files i hi
  formed := h.formed
  owned := h.owned
  known := h.known

end FdInv

theorem fileRefAlloc_cases (s : FdState) : fileRefAlloc s = (s, 0) ∨
    ∃ j, 1 ≤ j ∧ j < edgeMaxFileRefs ∧ (s.fileRefs j).used = false ∧
      fileRefAlloc s = (s.setFileRef j { used := true, refs := 1 }, j) := by
  unfold fileRefAlloc
  split
  · rename_i j hj
    have h1 := List.find?_some hj
    have h2 := List.mem_of_find?_eq_some hj
    right
    refine ⟨j, ?_, List.mem_range.mp h2, ?_, rfl⟩
    all_goals simp_all
  · exact .inl rfl

theorem fileRefAlloc_ne_zero {s : FdState} {i : ℕ} (h1 : 1 ≤ i) (h2 : i < edgeMaxFileRefs)
    (hfree : (s.fileRefs i).used = false) : (fileRefAlloc s).2 ≠ 0 := by
  rcases fileRefAlloc_cases s with hf | ⟨j, hj, -, -, hf⟩
  · unfold fileRefAlloc at hf
    split at hf
    · rename_i j hj
      have hge := List.find?_some hj
      have : j = 0 := (Prod.mk.inj hf).2
      simp_all
    rename_i hnone
    have := List.find?_eq_none.mp hnone i (List.mem_range.mpr h2)
    simp_all
  · rw [hf]
    dsimp only
    omega

/-- Whether a reference is free depends on the table of references alone. -/
theorem fileRefAlloc_congr (s s' : FdState) (h : s'.fileRefs = s.fileRefs) :
    (fileRefAlloc s').2 = (fileRefAlloc s).2 := by
  unfold fileRefAlloc
  rw [h]
  generalize (List.range edgeMaxFileRefs).find? _ = r
  cases r <;> rfl

theorem fileRefPut_zero (s : FdState) : fileRefPut s 0 = s := by
  unfold fileRefPut fileRefValid
  rw [if_neg (by simp)]

section Frames

variable (s : FdState) (id : ℕ)

@[simp] theorem fileRefPut_fds : (fileRefPut s id).fds = s.fds := by
  unfold fileRefPut
  split <;> rfl

@[simp] theorem fileRefPut_objs : (fileRefPut s id).objs = s.objs := by
  unfold fileRefPut
  split <;> rfl

@[simp] theorem fileRefPut_procPid : (fileRefPut s id).procPid = s.procPid := by
  unfold fileRefPut
  split <;> rfl

theorem fileRefPut_setFd (p : FdProcIdx) (i : FdIdx) (e : FdEntry) :
    fileRefPut (s.setFd p i e) id = (fileRefPut s id).setFd p i e := by
  have hv : fileRefValid (s.setFd p i e) id = fileRefValid s id := rfl
  unfold fileRefPut
  rw [hv]
  split <;> rfl

variable {s id}

theorem fileRefGet_frame {s' : FdState} (hg : fileRefGet s id = some s') :
    s'.fds = s.fds ∧ s'.objs = s.objs ∧ s'.procPid = s.procPid := by
  unfold fileRefGet at hg
  split at hg
  · obtain rfl := Option.some.inj hg
    exact ⟨rfl, rfl, rfl⟩
  · simp at hg

end Frames

namespace FdInv

variable {R : Prop} {N : ℤ} {F F' : Holders} {G G' : ℕ → ℕ} {s s' : FdState}
variable {p : FdProcIdx} {i : FdIdx}

theorem refAlloc (h : FdInv R N F G s) {j : ℕ} (hj : 1 ≤ j) (hlt : j < edgeMaxFileRefs)
    (hfree : (s.fileRefs j).used = false) :
    FdInv R N F (G + oneAt j) (s.setFileRef j { used := true, refs := 1 }) := by
  refine h.setFileRef hlt ?_ fun i hi => add_oneAt_of_ne _ hi
  rcases (h.files j hj).1 with ⟨hu, -⟩ | ⟨-, hz⟩
  · rw [hfree] at hu
    simp at hu
  · rw [add_oneAt_self]
    exact .inl ⟨rfl, by dsimp only; omega, by omega⟩

theorem refGet (h : FdInv R N F G s) {j : ℕ} (hg : fileRefGet s j = some s') : FdInv R N F (G + oneAt j) s' := by
  unfold fileRefGet at hg
  split at hg
  · rename_i hv
    obtain rfl := Option.some.inj hg
    obtain ⟨hj, hlt, hu, -⟩ : 0 < j ∧ j < edgeMaxFileRefs ∧ (s.fileRefs j).used = true ∧
        0 < (s.fileRefs j).refs := by simpa [fileRefValid] using hv
    refine h.setFileRef hlt ?_ fun i hi => add_oneAt_of_ne _ hi
    rcases (h.files j hj).1 with ⟨-, hr, -⟩ | ⟨hf, -⟩
    · rw [add_oneAt_self]
      exact .inl ⟨rfl, by dsimp only; omega, by omega⟩
    · rw [hu] at hf
      simp at hf
  · simp at hg

theorem refPut {j : ℕ} (h : FdInv R N F (G + oneAt j) s) : FdInv R N F G (fileRefPut s j) := by
  by_cases hj : 1 ≤ j
  · have hh := h.files j hj
    rw [add_oneAt_self] at hh
    obtain ⟨hu, hr, -⟩ : (s.fileRefs j).used = true ∧
        (s.fileRefs j).refs = refSlots s j + (G j + 1) ∧ 0 < refSlots s j + (G j + 1) := by
      rcases hh.1 with h1 | ⟨-, hz⟩
      · exact h1
      · omega
    have hlt : j < edgeMaxFileRefs := by
      by_contra hle
      rw [hh.2 (by omega)] at hu
      simp at hu
    have hv : fileRefValid s j = true := by
      simp [fileRefValid, hu, hlt]
      omega
    unfold fileRefPut
    rw [if_pos hv]
    refine h.setFileRef hlt ?_ fun i hi => (add_oneAt_of_ne _ hi).symm
    by_cases hone : (s.fileRefs j).refs = 1
    · right
      simp [hone]
      omega
    left
    simp [hone]
    omega
  · obtain rfl : j = 0 := by omega
    rw [fileRefPut_zero]
    exact h.congr (fun _ _ _ => rfl) fun i hi => (add_oneAt_of_ne _ (by omega)).symm

end FdInv

end EdgeOS
