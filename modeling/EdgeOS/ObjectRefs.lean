import EdgeOS.DescriptorCalls
import EdgeOS.SocketRefs

namespace EdgeOS

open Lib Function SpecialKind

/-!
How many references each object must have. `A k i` is the number of holders of object `i`
of kind `k` beside the accept queues: the descriptors that name it and the references a call
has in hand.
-/

abbrev Holders := FdKind → ℕ → ℕ

/-- One holder of object `i` of kind `k`. -/
def oneRef (k : FdKind) (i : ℕ) : Holders := fun k' i' => if k' = k ∧ i' = i then 1 else 0

theorem add_oneRef (A : Holders) (k k' : FdKind) (i i' : ℕ) :
    (A + oneRef k i) k' i' = A k' i' + if k' = k ∧ i' = i then 1 else 0 := rfl

theorem add_oneRef_of_ne (A : Holders) {k k' : FdKind} {i i' : ℕ} (h : ¬ (k' = k ∧ i' = i)) :
    (A + oneRef k i) k' i' = A k' i' := by
  rw [add_oneRef, if_neg h, Nat.add_zero]

theorem add_oneRef_self (A : Holders) (k : FdKind) (i : ℕ) : (A + oneRef k i) k i = A k i + 1 := by
  rw [add_oneRef, if_pos ⟨rfl, rfl⟩]

/-- A pipe with `r` reading and `w` writing holders. -/
def Pipe.Holds (x : Pipe) (r w : ℕ) : Prop :=
  x.used = true ∧ x.readers = r ∧ x.writers = w ∧ 0 < r + w ∨ x.used = false ∧ r = 0 ∧ w = 0

/-- A pseudo terminal with `m` master and `v` slave holders. -/
def Pty.Holds (x : Pty) (m v : ℕ) : Prop :=
  x.used = true ∧ x.refsMaster = m ∧ x.refsSlave = v ∧ 0 < m + v ∨ x.used = false ∧ m = 0 ∧ v = 0

/-- A counted object with `r` holders. -/
def RefObj.Holds (x : RefObj) (r : ℕ) : Prop :=
  x.used = true ∧ x.refs = r ∧ 0 < r ∨ x.used = false ∧ r = 0

/-- Every object has exactly the references its holders account for. `R` says whether the
sockets are accounted for too: they are not after a race with an accept callback. -/
structure ObjInv (R : Prop) (A : Holders) (o : Objects) : Prop where
  pipes : ∀ i, (o.pipes i).Holds (A .pipeR i) (A .pipeW i) ∧ (edgeMaxPipes ≤ i → (o.pipes i).used = false)
  ptys : ∀ i, (o.ptys i).Holds (A .ptyMaster i) (A .ptySlave i) ∧ (edgeMaxPtys ≤ i → (o.ptys i).used = false)
  special : ∀ k i, (o.special k i).Holds (A k.fdKind i) ∧ (k.max ≤ i → (o.special k i).used = false)
  sockets : R → SocketInv (A .socket) o.sockets

/-! ## Pipes, terminals, special objects -/

namespace ObjInv

variable {R : Prop} {A A' : Holders} {o : Objects} {i : ℕ}

theorem setPipe (h : ObjInv R A o) {x : Pipe} (hi : i < edgeMaxPipes) (hx : x.Holds (A' .pipeR i) (A' .pipeW i))
    (hA : ∀ k j, ¬ ((k = .pipeR ∨ k = .pipeW) ∧ j = i) → A' k j = A k j) :
    ObjInv R A' (o.setPipe i x) where
  pipes j := by
    refine forall_write (P := fun j (y : Pipe) => y.Holds (A' .pipeR j) (A' .pipeW j) ∧
      (edgeMaxPipes ≤ j → y.used = false)) (fun j hj => ?_) ⟨hx, fun hle => by omega⟩ j
    rw [hA _ _ (by simp [hj]), hA _ _ (by simp [hj])]
    exact h.pipes j
  ptys j := by
    rw [hA _ _ (by simp), hA _ _ (by simp)]
    exact h.ptys j
  special k j := by
    rw [hA _ _ (by cases k <;> simp [fdKind])]
    exact h.special k j
  sockets := by
    have hsock : A' .socket = A .socket := funext fun j => hA _ _ (by simp)
    rw [hsock]
    exact h.sockets

theorem setPty (h : ObjInv R A o) {x : Pty} (hi : i < edgeMaxPtys) (hx : x.Holds (A' .ptyMaster i) (A' .ptySlave i))
    (hA : ∀ k j, ¬ ((k = .ptyMaster ∨ k = .ptySlave) ∧ j = i) → A' k j = A k j) :
    ObjInv R A' (o.setPty i x) where
  pipes j := by
    rw [hA _ _ (by simp), hA _ _ (by simp)]
    exact h.pipes j
  ptys j := by
    refine forall_write (P := fun j (y : Pty) => y.Holds (A' .ptyMaster j) (A' .ptySlave j) ∧
      (edgeMaxPtys ≤ j → y.used = false)) (fun j hj => ?_) ⟨hx, fun hle => by omega⟩ j
    rw [hA _ _ (by simp [hj]), hA _ _ (by simp [hj])]
    exact h.ptys j
  special k j := by
    rw [hA _ _ (by cases k <;> simp [fdKind])]
    exact h.special k j
  sockets := by
    have hsock : A' .socket = A .socket := funext fun j => hA _ _ (by simp)
    rw [hsock]
    exact h.sockets

theorem setSpecial (h : ObjInv R A o) {k : SpecialKind} {x : RefObj} (hi : i < k.max)
    (hx : x.Holds (A' k.fdKind i)) (hA : ∀ k' j, ¬ (k' = k.fdKind ∧ j = i) → A' k' j = A k' j) :
    ObjInv R A' (o.setSpecial i k x) where
  pipes j := by
    rw [hA _ _ (by cases k <;> simp [fdKind]), hA _ _ (by cases k <;> simp [fdKind])]
    exact h.pipes j
  ptys j := by
    rw [hA _ _ (by cases k <;> simp [fdKind]), hA _ _ (by cases k <;> simp [fdKind])]
    exact h.ptys j
  special k' j := by
    unfold Objects.setSpecial
    dsimp only
    by_cases hk : k' = k
    · subst hk
      rw [update_self]
      refine forall_write (P := fun j (y : RefObj) => y.Holds (A' k'.fdKind j) ∧
        (k'.max ≤ j → y.used = false)) (fun j hj => ?_) ⟨hx, fun hle => by omega⟩ j
      rw [hA _ _ (by simp [hj])]
      exact h.special k' j
    · rw [update_of_ne hk, hA _ _ (by cases k <;> cases k' <;> simp_all [fdKind])]
      exact h.special k' j
  sockets := by
    have hsock : A' .socket = A .socket :=
      funext fun j => hA _ _ (by cases k <;> simp [fdKind])
    rw [hsock]
    exact h.sockets

theorem newPipe (h : ObjInv R A o) (hi : i < edgeMaxPipes) (hfree : (o.pipes i).used = false) :
    ObjInv R (A + oneRef .pipeR i + oneRef .pipeW i) (o.setPipe i { used := true, readers := 1, writers := 1 }) := by
  have hz : A .pipeR i = 0 ∧ A .pipeW i = 0 := by
    rcases (h.pipes i).1 with ⟨hu, -⟩ | ⟨-, hz⟩
    · rw [hfree] at hu
      simp at hu
    · exact hz
  refine h.setPipe hi ?_ fun k j hk => ?_
  · left
    simp [add_oneRef, hz]
  · rw [add_oneRef_of_ne _ (by tauto), add_oneRef_of_ne _ (by tauto)]

theorem ptyAlloc (h : ObjInv R A o) {o' : Objects} (ha : EdgeOS.ptyAlloc o = (o', some i)) :
    ObjInv R (A + oneRef .ptyMaster i) o' := by
  unfold EdgeOS.ptyAlloc at ha
  split at ha
  · rename_i j hj
    obtain ⟨rfl, hij⟩ := Prod.mk.inj ha
    obtain rfl := Option.some.inj hij
    obtain ⟨hfree, hi⟩ := firstFree_some hj
    refine h.setPty hi ?_ fun k l hk => add_oneRef_of_ne _ (by tauto)
    left
    rcases (h.ptys j).1 with ⟨hu, -⟩ | ⟨-, hz⟩
    · rw [hfree] at hu
      simp at hu
    · simp [add_oneRef, hz]
  · simp at ha

theorem specialAlloc (h : ObjInv R A o) {k : SpecialKind} {o' : Objects}
    (ha : specialAllocObj k o = (o', some i)) : ObjInv R (A + oneRef k.fdKind i) o' := by
  unfold specialAllocObj at ha
  split at ha
  · rename_i j hj
    obtain ⟨rfl, hij⟩ := Prod.mk.inj ha
    obtain rfl := Option.some.inj hij
    obtain ⟨hfree, hi⟩ := firstFree_some hj
    refine h.setSpecial hi ?_ fun k l hk => add_oneRef_of_ne _ hk
    left
    rcases (h.special k j).1 with ⟨hu, -⟩ | ⟨-, hz⟩
    · rw [hfree] at hu
      simp at hu
    · simp [add_oneRef, hz]
  · simp at ha

/-! A held object is in use, and its number is in bounds. -/

theorem pipe_used (h : ObjInv R A o) (hA : 0 < A .pipeR i + A .pipeW i) :
    (o.pipes i).used = true ∧ i < edgeMaxPipes := by
  rcases (h.pipes i).1 with ⟨hu, -⟩ | ⟨-, hz⟩
  · refine ⟨hu, ?_⟩
    by_contra hle
    rw [(h.pipes i).2 (by omega)] at hu
    simp at hu
  · omega

theorem pty_used (h : ObjInv R A o) (hA : 0 < A .ptyMaster i + A .ptySlave i) :
    (o.ptys i).used = true ∧ i < edgeMaxPtys := by
  rcases (h.ptys i).1 with ⟨hu, -⟩ | ⟨-, hz⟩
  · refine ⟨hu, ?_⟩
    by_contra hle
    rw [(h.ptys i).2 (by omega)] at hu
    simp at hu
  · omega

theorem special_used (h : ObjInv R A o) {k : SpecialKind} (hA : 0 < A k.fdKind i) :
    (o.special k i).used = true ∧ i < k.max := by
  rcases (h.special k i).1 with ⟨hu, -⟩ | ⟨-, hz⟩
  · refine ⟨hu, ?_⟩
    by_contra hle
    rw [(h.special k i).2 (by omega)] at hu
    simp at hu
  · omega

/-- A pipe in use has as many readers and writers as holders. -/
theorem pipe_counts (h : ObjInv R A o) (hu : (o.pipes i).used = true) :
    (o.pipes i).readers = A .pipeR i ∧ (o.pipes i).writers = A .pipeW i ∧ 0 < A .pipeR i + A .pipeW i := by
  rcases (h.pipes i).1 with ⟨-, h1⟩ | ⟨hf, -⟩
  · exact h1
  · rw [hu] at hf
    simp at hf

theorem pty_counts (h : ObjInv R A o) (hu : (o.ptys i).used = true) :
    (o.ptys i).refsMaster = A .ptyMaster i ∧ (o.ptys i).refsSlave = A .ptySlave i ∧
      0 < A .ptyMaster i + A .ptySlave i := by
  rcases (h.ptys i).1 with ⟨-, h1⟩ | ⟨hf, -⟩
  · exact h1
  · rw [hu] at hf
    simp at hf

theorem special_counts (h : ObjInv R A o) {k : SpecialKind} (hu : (o.special k i).used = true) :
    (o.special k i).refs = A k.fdKind i ∧ 0 < A k.fdKind i := by
  rcases (h.special k i).1 with ⟨-, h1⟩ | ⟨hf, -⟩
  · exact h1
  · rw [hu] at hf
    simp at hf

theorem addPipe (h : ObjInv R A o) {k : FdKind} (hk : k = .pipeR ∨ k = .pipeW) (hA : 0 < A k i) :
    ObjInv R (A + oneRef k i) (fdAddRef o k i) := by
  have hsum : 0 < A .pipeR i + A .pipeW i := by
    rcases hk with rfl | rfl <;> omega
  obtain ⟨hu, hi⟩ := h.pipe_used hsum
  obtain ⟨hr, hw, -⟩ := h.pipe_counts hu
  rcases hk with rfl | rfl
  all_goals
    unfold fdAddRef
    dsimp only
    rw [tableIndex_cast hi]
    refine h.setPipe hi ?_ fun k j hk => add_oneRef_of_ne _ (by tauto)
    left
    simp [add_oneRef, hu, hr, hw]

/-- One reader or writer less; the last one gives the pipe back. -/
theorem dropPipe {k : FdKind} (hk : k = .pipeR ∨ k = .pipeW) (h : ObjInv R (A + oneRef k i) o)
    (window : ℕ → List ℕ) : ObjInv R A (fdDropRef window o k i) := by
  have hsum : 0 < (A + oneRef k i) .pipeR i + (A + oneRef k i) .pipeW i := by
    rcases hk with rfl | rfl <;> rw [add_oneRef_self] <;> omega
  obtain ⟨hu, hi⟩ := h.pipe_used hsum
  obtain ⟨hr, hw, -⟩ := h.pipe_counts hu
  rcases hk with rfl | rfl
  all_goals
    rw [add_oneRef_self] at *
    rw [add_oneRef_of_ne _ (by simp)] at *
    simp only [fdDropRef, pipeDropReader, pipeDropWriter]
    rw [tableIndex_cast hi]
    dsimp only
    rw [if_neg (by simp [hu])]
    refine h.setPipe hi ?_ fun k j hk => (add_oneRef_of_ne _ (by tauto)).symm
    unfold Pipe.reclaim Pipe.Holds
    split_ifs with hz
    · right
      dsimp only at hz
      exact ⟨rfl, by omega, by omega⟩
    left
    dsimp only at hz ⊢
    exact ⟨hu, by omega, by omega, by omega⟩

def ptyEnd : Bool → FdKind
  | true => .ptyMaster
  | false => .ptySlave

theorem addPty (h : ObjInv R A o) (isMaster : Bool) (hA : 0 < A .ptyMaster i + A .ptySlave i) :
    ObjInv R (A + oneRef (ptyEnd isMaster) i) (ptyAddRef o i isMaster) := by
  obtain ⟨hu, hi⟩ := h.pty_used hA
  obtain ⟨hm, hv, -⟩ := h.pty_counts hu
  cases isMaster
  all_goals
    unfold ptyAddRef
    rw [tableIndex_cast hi]
    dsimp only
    rw [if_neg (by simp [hu])]
    refine h.setPty hi ?_ fun k j hk => add_oneRef_of_ne _ (by simp only [ptyEnd]; tauto)
    left
    simp [add_oneRef, ptyEnd, hu, hm, hv]

/-- One master or slave less; the last one gives the terminal back. -/
theorem dropPty (isMaster : Bool) (h : ObjInv R (A + oneRef (ptyEnd isMaster) i) o) :
    ObjInv R A (ptyDropRef o i isMaster) := by
  have hsum : 0 < (A + oneRef (ptyEnd isMaster) i) .ptyMaster i + (A + oneRef (ptyEnd isMaster) i) .ptySlave i := by
    cases isMaster <;> simp [add_oneRef, ptyEnd]
  obtain ⟨hu, hi⟩ := h.pty_used hsum
  obtain ⟨hm, hv, -⟩ := h.pty_counts hu
  cases isMaster
  all_goals
    simp only [add_oneRef, ptyEnd] at hm hv
    unfold ptyDropRef
    rw [tableIndex_cast hi]
    dsimp only
    rw [if_neg (by simp [hu])]
    refine h.setPty hi ?_ fun k j hk => (add_oneRef_of_ne _ (by simp only [ptyEnd]; tauto)).symm
    unfold Pty.reclaim Pty.Holds
    split_ifs with hz
    · right
      simp at hz hm hv ⊢
      omega
    left
    simp at hz hm hv ⊢
    exact ⟨hu, by omega, by omega, by omega⟩

theorem addSpecial (h : ObjInv R A o) {k : SpecialKind} (hA : 0 < A k.fdKind i) :
    ObjInv R (A + oneRef k.fdKind i) (specialAddRef k o i) := by
  obtain ⟨hu, hi⟩ := h.special_used hA
  obtain ⟨hr, -⟩ := h.special_counts hu
  unfold specialAddRef
  rw [tableIndex_cast hi]
  dsimp only
  rw [if_neg (by simp [hu])]
  refine h.setSpecial hi ?_ fun k' j hk => add_oneRef_of_ne _ hk
  left
  rw [add_oneRef_self]
  exact ⟨rfl, by rw [hr], by omega⟩

theorem dropSpecial {k : SpecialKind} (h : ObjInv R (A + oneRef k.fdKind i) o) : ObjInv R A (specialDropRef k o i) := by
  obtain ⟨hu, hi⟩ := h.special_used (k := k) (i := i) (by rw [add_oneRef_self]; omega)
  obtain ⟨hr, -⟩ := h.special_counts hu
  rw [add_oneRef_self] at hr
  unfold specialDropRef
  rw [tableIndex_cast hi]
  dsimp only
  rw [if_neg (by simp [hu])]
  split_ifs with hone
  · refine h.setSpecial hi ?_ fun k' j hk => (add_oneRef_of_ne _ hk).symm
    exact .inr ⟨rfl, by omega⟩
  · refine h.setSpecial hi ?_ fun k' j hk => (add_oneRef_of_ne _ hk).symm
    exact .inl ⟨rfl, by dsimp only; omega, by omega⟩

/-! ## Sockets -/

theorem add_oneRef_socket (A : Holders) (i : ℕ) : (A + oneRef .socket i) .socket = A .socket + oneAt i := by
  funext j
  simp [add_oneRef, oneAt]

theorem setSockets (h : ObjInv R A o) {o' : Objects} (hf : o.OnlySockets o')
    (hs : R → SocketInv (A' .socket) o'.sockets) (hA : ∀ k j, k ≠ .socket → A' k j = A k j) :
    ObjInv R A' o' where
  pipes j := by
    rw [hA _ _ (by simp), hA _ _ (by simp), hf.1]
    exact h.pipes j
  ptys j := by
    rw [hA _ _ (by simp), hA _ _ (by simp), hf.2.1]
    exact h.ptys j
  special k j := by
    rw [hA _ _ (by cases k <;> simp [fdKind]), hf.2.2]
    exact h.special k j
  sockets := hs

theorem addSocket (h : ObjInv R A o) (hA : 0 < A .socket i) : ObjInv R (A + oneRef .socket i) (socketAddRef o i) := by
  refine h.setSockets (socketAddRef_frame o i) ?_ fun k j hk => add_oneRef_of_ne _ (by tauto)
  intro hR
  rw [add_oneRef_socket]
  exact socketAddRef_inv (h.sockets hR) hA

theorem dropSocket {window : ℕ → List ℕ} (h : ObjInv R (A + oneRef .socket i) o)
    (hw : R → i ∉ window i) : ObjInv R A (socketDropRef window socketDepth o i) := by
  refine h.setSockets (socketDropRef_frame window _ o i) ?_
    fun k j hk => (add_oneRef_of_ne _ (by tauto)).symm
  intro hR
  have hs := h.sockets hR
  rw [add_oneRef_socket] at hs
  exact socketDropRef_inv hs (hw hR)

theorem acceptCbs (h : ObjInv R A o) (cbs : List ℕ) : ObjInv R A (edgeTcpAcceptCbs o cbs) :=
  h.setSockets (edgeTcpAcceptCbs_frame o cbs) (fun hR => edgeTcpAcceptCbs_inv (h.sockets hR) cbs)
    fun _ _ _ => rfl

end ObjInv

/-! ## By descriptor kind -/

def FdKind.counted : FdKind → Bool
  | .pipeR | .pipeW | .socket | .ptyMaster | .ptySlave
  | .eventfd | .timerfd | .signalfd | .epoll => true
  | .none | .console | .vfs | .pidfd => false

namespace ObjInv

variable {R : Prop} {A A' : Holders} {o : Objects} {k : FdKind} {id : ℤ}

theorem congr (h : ObjInv R A o) (hA : ∀ k i, k.counted = true → A' k i = A k i) : ObjInv R A' o where
  pipes i := by
    rw [hA _ _ rfl, hA _ _ rfl]
    exact h.pipes i
  ptys i := by
    rw [hA _ _ rfl, hA _ _ rfl]
    exact h.ptys i
  special k i := by
    rw [hA _ _ (by cases k <;> rfl)]
    exact h.special k i
  sockets := by
    have hs : A' .socket = A .socket := funext fun i => hA _ _ rfl
    rw [hs]
    exact h.sockets

theorem add_uncounted (hk : k.counted = false) (A : Holders) (i : ℕ) (k' : FdKind) (i' : ℕ)
    (hk' : k'.counted = true) : (A + oneRef k i) k' i' = A k' i' := by
  refine add_oneRef_of_ne _ ?_
  rintro ⟨rfl, -⟩
  rw [hk] at hk'
  simp at hk'

theorem addRef (h : ObjInv R A o) (hid : k.counted = true → 0 ≤ id) (hA : k.counted = true → 0 < A k id.toNat) :
    ObjInv R (A + oneRef k id.toNat) (fdAddRef o k id) := by
  cases hk : k.counted
  · have heq : fdAddRef o k id = o := by cases k <;> first | rfl | simp [FdKind.counted] at hk
    rw [heq]
    exact h.congr (add_uncounted hk A _)
  · lift id to ℕ using hid hk
    have hA := hA hk
    rw [Int.toNat_natCast] at hA ⊢
    cases k
    case pipeR => exact h.addPipe (.inl rfl) hA
    case pipeW => exact h.addPipe (.inr rfl) hA
    case socket => exact h.addSocket hA
    case ptyMaster => exact h.addPty true (by omega)
    case ptySlave => exact h.addPty false (by omega)
    case eventfd => exact h.addSpecial (k := .eventfd) hA
    case timerfd => exact h.addSpecial (k := .timerfd) hA
    case signalfd => exact h.addSpecial (k := .signalfd) hA
    case epoll => exact h.addSpecial (k := .epoll) hA
    all_goals simp [FdKind.counted] at hk

theorem dropRef {window : ℕ → List ℕ} (h : ObjInv R (A + oneRef k id.toNat) o)
    (hid : k.counted = true → 0 ≤ id) (hw : R → ∀ i, i ∉ window i) :
    ObjInv R A (fdDropRef window o k id) := by
  cases hk : k.counted
  · have heq : fdDropRef window o k id = o := by
      cases k <;> first | rfl | simp [FdKind.counted] at hk
    rw [heq]
    exact h.congr fun k' i' hk' => (add_uncounted hk A _ k' i' hk').symm
  · lift id to ℕ using hid hk
    rw [Int.toNat_natCast] at h
    cases k
    case pipeR => exact dropPipe (.inl rfl) h window
    case pipeW => exact dropPipe (.inr rfl) h window
    case socket => exact h.dropSocket fun hR => hw hR id
    case ptyMaster => exact dropPty true h
    case ptySlave => exact dropPty false h
    case eventfd => exact dropSpecial (k := .eventfd) h
    case timerfd => exact dropSpecial (k := .timerfd) h
    case signalfd => exact dropSpecial (k := .signalfd) h
    case epoll => exact dropSpecial (k := .epoll) h
    all_goals simp [FdKind.counted] at hk

end ObjInv

end EdgeOS
