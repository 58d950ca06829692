import EdgeOS.DescriptorSystem
import Mathlib.Algebra.BigOperators.Group.Finset.Piecewise
import Mathlib.Order.Interval.Finset.Nat

namespace EdgeOS

open Lib

/-! References to objects and to files are conserved over whole runs. -/

/-- How many used descriptors of kind `k` have object number `i`. -/
def slotCount (s : FdState) (k : FdKind) (i : ℕ) : ℕ :=
  (Finset.univ.filter fun x =>
    (s.fds x).used = true ∧ (s.fds x).kind = k ∧ (s.fds x).pipeId = i).card

/-- How many used descriptors have file reference `i`. -/
def refCount (s : FdState) (i : ℕ) : ℕ :=
  (Finset.univ.filter fun x => (s.fds x).used = true ∧ (s.fds x).fileRef = i).card

/-- Does socket `i` sit in the pending queue of a listener? -/
def inPendingQueue (o : Objects) (i : ℕ) : Bool :=
  (List.range edgeMaxSockets).any fun l => (o.sockets l).pending.contains i

/-- The object that a descriptor of kind `k` with number `id` names is in use. -/
def Objects.Names (o : Objects) (k : FdKind) (id : ℤ) : Prop :=
  match k with
  | .pipeR | .pipeW => ∃ i, tableIndex edgeMaxPipes id = some i ∧ (o.pipes i).used = true
  | .ptyMaster | .ptySlave => ∃ i, tableIndex edgeMaxPtys id = some i ∧ (o.ptys i).used = true
  | .socket => ∃ i, tableIndex edgeMaxSockets id = some i ∧ (o.sockets i).used = true
  | .eventfd => ∃ i, tableIndex SpecialKind.eventfd.max id = some i ∧ (o.special .eventfd i).used = true
  | .timerfd => ∃ i, tableIndex SpecialKind.timerfd.max id = some i ∧ (o.special .timerfd i).used = true
  | .signalfd =>
    ∃ i, tableIndex SpecialKind.signalfd.max id = some i ∧ (o.special .signalfd i).used = true
  | .epoll => ∃ i, tableIndex SpecialKind.epoll.max id = some i ∧ (o.special .epoll i).used = true
  | .none | .console | .vfs | .pidfd => True

/-- Every object in use has exactly the references that descriptors and queues give it, and
at least one; every descriptor names an object in use. -/
structure ObjectsConserved (s : FdState) : Prop where
  pipes : ∀ i, (s.objs.pipes i).used = true → (s.objs.pipes i).readers = slotCount s .pipeR i ∧
    (s.objs.pipes i).writers = slotCount s .pipeW i ∧
    0 < (s.objs.pipes i).readers + (s.objs.pipes i).writers
  ptys : ∀ i, (s.objs.ptys i).used = true → (s.objs.ptys i).refsMaster = slotCount s .ptyMaster i ∧
    (s.objs.ptys i).refsSlave = slotCount s .ptySlave i ∧
    0 < (s.objs.ptys i).refsMaster + (s.objs.ptys i).refsSlave
  special : ∀ k i, (s.objs.special k i).used = true →
    (s.objs.special k i).refs = slotCount s k.fdKind i ∧ 0 < (s.objs.special k i).refs
  sockets : ∀ i, (s.objs.sockets i).used = true → (s.objs.sockets i).refs =
      slotCount s .socket i + (if inPendingQueue s.objs i then 1 else 0) ∧
    0 < (s.objs.sockets i).refs
  named : ∀ x, (s.fds x).used = true → s.objs.Names (s.fds x).kind (s.fds x).pipeId

/-- A file reference is in use if and only if a used descriptor has it, and it counts them;
with fewer used descriptors than references there is a free one. -/
structure FileRefsConserved (s : FdState) : Prop where
  used : ∀ i, 1 ≤ i → i < edgeMaxFileRefs →
    ((s.fileRefs i).used = true ↔ ∃ x, (s.fds x).used = true ∧ (s.fds x).fileRef = i)
  refs : ∀ i, 1 ≤ i → i < edgeMaxFileRefs → (s.fileRefs i).used = true → (s.fileRefs i).refs = refCount s i
  available : (Finset.univ.filter fun x => (s.fds x).used = true).card < edgeMaxFileRefs - 1 → (fileRefAlloc s).2 ≠ 0

section Counts

variable {R : Prop} {N : ℤ} {G : ℕ → ℕ} {s : FdState}

/-- The sums of the accounting are counts of descriptors. -/
theorem slots_eq_slotCount (h : FdInv R N 0 G s) {k : FdKind} (hk : k.counted = true) (i : ℕ) :
    slots s k i = slotCount s k i := by
  unfold slots slotCount
  rw [Finset.card_filter]
  refine Finset.sum_congr rfl fun x _ => ?_
  unfold FdEntry.key
  by_cases hu : (s.fds x).used = true
  · rw [if_pos hu]
    unfold oneRef
    refine if_congr ⟨?_, ?_⟩ rfl rfl
    · rintro ⟨rfl, hi⟩
      have := (h.formed x hu).named hk
      exact ⟨hu, rfl, by omega⟩
    · rintro ⟨-, rfl, hi⟩
      exact ⟨rfl, by omega⟩
  · rw [if_neg hu, if_neg fun hc => hu hc.1]
    rfl

theorem refSlots_eq_refCount (s : FdState) (i : ℕ) : refSlots s i = refCount s i := by
  unfold refSlots refCount
  rw [Finset.card_filter]
  refine Finset.sum_congr rfl fun x _ => ?_
  unfold FdEntry.ref
  by_cases hu : (s.fds x).used = true
  · rw [if_pos hu]
    unfold oneAt
    refine if_congr ⟨fun hi => ⟨hu, hi.symm⟩, fun hi => hi.2.symm⟩ rfl rfl
  · rw [if_neg hu, if_neg fun hc => hu hc.1]
    rfl

theorem inPendingQueue_iff (o : Objects) (i : ℕ) : inPendingQueue o i = true ↔ 0 < pendingCount o.sockets i := by
  unfold inPendingQueue pendingCount
  rw [Finset.sum_pos_iff]
  simp

theorem SocketInv.pendingCount_eq {A : ℕ → ℕ} {o : Objects} (h : SocketInv A o.sockets) (i : ℕ) :
    pendingCount o.sockets i = if inPendingQueue o i then 1 else 0 := by
  by_cases hq : inPendingQueue o i = true
  · rw [if_pos hq]
    exact (h.queued_alone ((inPendingQueue_iff o i).mp hq)).2.2.1
  rw [if_neg hq]
  have := mt (inPendingQueue_iff o i).mpr hq
  omega

theorem ObjInv.names {A : Holders} {o : Objects} (h : ObjInv True A o) {k : FdKind} {i : ℕ}
    (hA : 0 < A k i) : o.Names k i := by
  cases k
  case pipeR | pipeW =>
    obtain ⟨hu, hi⟩ := h.pipe_used (i := i) (by omega)
    exact ⟨i, tableIndex_cast hi, hu⟩
  case ptyMaster | ptySlave =>
    obtain ⟨hu, hi⟩ := h.pty_used (i := i) (by omega)
    exact ⟨i, tableIndex_cast hi, hu⟩
  case socket =>
    obtain ⟨hu, hi⟩ := (h.sockets trivial).holder_used hA
    exact ⟨i, tableIndex_cast hi, hu⟩
  case eventfd =>
    obtain ⟨hu, hi⟩ := h.special_used (k := .eventfd) hA
    exact ⟨i, tableIndex_cast hi, hu⟩
  case timerfd =>
    obtain ⟨hu, hi⟩ := h.special_used (k := .timerfd) hA
    exact ⟨i, tableIndex_cast hi, hu⟩
  case signalfd =>
    obtain ⟨hu, hi⟩ := h.special_used (k := .signalfd) hA
    exact ⟨i, tableIndex_cast hi, hu⟩
  case epoll =>
    obtain ⟨hu, hi⟩ := h.special_used (k := .epoll) hA
    exact ⟨i, tableIndex_cast hi, hu⟩
  all_goals exact trivial

/-- The accounting with nothing in hand is the conservation of objects. -/
theorem FdInv.objectsConserved (h : FdInv True N 0 G s) : ObjectsConserved s := by
  have ho : ObjInv True (slots s) s.objs := by
    have := h.objs
    rwa [add_zero] at this
  have heq : ∀ {k : FdKind} (i : ℕ), k.counted = true → slots s k i = slotCount s k i :=
    fun i hk => slots_eq_slotCount h hk i
  constructor
  · intro i hu
    obtain ⟨hr, hw, hpos⟩ := ho.pipe_counts hu
    rw [heq i rfl] at hr hpos
    rw [heq i rfl] at hw hpos
    exact ⟨hr, hw, by omega⟩
  · intro i hu
    obtain ⟨hm, hv, hpos⟩ := ho.pty_counts hu
    rw [heq i rfl] at hm hpos
    rw [heq i rfl] at hv hpos
    exact ⟨hm, hv, by omega⟩
  · intro k i hu
    obtain ⟨hr, hpos⟩ := ho.special_counts hu
    rw [heq i (by cases k <;> rfl)] at hr hpos
    exact ⟨hr, by omega⟩
  · intro i hu
    obtain ⟨hr, hpos, -⟩ := (ho.sockets trivial i).used hu
    rw [heq i rfl, (ho.sockets trivial).pendingCount_eq] at hr
    exact ⟨hr, hpos⟩
  · rintro ⟨p, i⟩ hu
    have hpos := slots_pos hu
    have hid := (h.formed (p, i) hu).named
    generalize (s.fds (p, i)).kind = k at hpos hid ⊢
    generalize (s.fds (p, i)).pipeId = id at hpos hid ⊢
    by_cases hk : k.counted = true
    · lift id to ℕ using hid hk
      rw [Int.toNat_natCast] at hpos
      exact ho.names hpos
    · cases k <;> first | exact trivial | simp [FdKind.counted] at hk

theorem FdInv.fileRefsConserved (h : FdInv R N 0 0 s) : FileRefsConserved s := by
  have hholds : ∀ i, 1 ≤ i → (s.fileRefs i).Holds (refCount s i) := by
    intro i hi
    have := (h.files i hi).1
    rwa [Pi.zero_apply, Nat.add_zero, refSlots_eq_refCount] at this
  have hpos : ∀ i, 0 < refCount s i ↔ ∃ x, (s.fds x).used = true ∧ (s.fds x).fileRef = i := by
    intro i
    unfold refCount
    rw [Finset.card_pos, Finset.filter_nonempty_iff]
    simp
  have hused : ∀ i, 1 ≤ i → ((s.fileRefs i).used = true ↔ 0 < refCount s i) := by
    intro i hi
    rcases hholds i hi with ⟨hu, -, hc⟩ | ⟨hu, hc⟩
    · exact ⟨fun _ => hc, fun _ => hu⟩
    · rw [hu, hc]
      simp
  refine ⟨fun i hi _ => (hused i hi).trans (hpos i), fun i hi _ hu => ?_, fun hfew h0 => ?_⟩
  · rcases hholds i hi with ⟨-, hr, -⟩ | ⟨hf, -⟩
    · exact hr
    · rw [hu] at hf
      simp at hf
  · -- If no reference is free, the used descriptors have all of them between them.
    have hex : ∀ i, 1 ≤ i → i < edgeMaxFileRefs → ∃ x, (s.fds x).used = true ∧ (s.fds x).fileRef = i := by
      intro i h1 h2
      refine (hpos i).mp ((hused i h1).mp ?_)
      by_contra hf
      exact fileRefAlloc_ne_zero h1 h2 (by simpa using hf) h0
    generalize edgeMaxFileRefs = n at hex hfew
    have hall : Finset.Ico 1 n ⊆
        (Finset.univ.filter fun x => (s.fds x).used = true).image fun x => (s.fds x).fileRef := by
      intro i hi
      rw [Finset.mem_Ico] at hi
      rw [Finset.mem_image]
      obtain ⟨x, hx, hxi⟩ := hex i hi.1 hi.2
      exact ⟨x, by simpa using hx, hxi⟩
    have hcard := (Finset.card_le_card hall).trans Finset.card_image_le
    rw [Nat.card_Ico] at hcard
    omega

end Counts

/-! ## Runs -/

/-- In every run without a race with an accept callback, object references are conserved. -/
theorem object_references_conserved (es : List FdEvent) (h : Meets FdKernel.step FdKernel.RaceFree {} es) :
    ObjectsConserved (run FdKernel.step {} es).fds := by
  have hinv : ∃ G, FdInv True (run FdKernel.step {} es).nextPid 0 G (run FdKernel.step {} es).fds := by
    refine run_invariant (I := fun k : FdKernel => ∃ G, FdInv True k.nextPid 0 G k.fds) ?_
      ⟨0, fdInv_boot⟩ h
    rintro k e ⟨G, hk⟩ hrace
    obtain ⟨G', hG', -⟩ := FdKernel.step_inv hk e fun _ => hrace
    exact ⟨G', hG'⟩
  obtain ⟨G, hG⟩ := hinv
  exact hG.objectsConserved

/-- In every run in which neither `/dev/tty` nor fork loses a file reference, file references
are conserved. -/
theorem file_references_conserved (es : List FdEvent) (h : Meets FdKernel.step FdKernel.LeakFree {} es) :
    FileRefsConserved (run FdKernel.step {} es).fds := by
  have hinv : FdInv False (run FdKernel.step {} es).nextPid 0 0 (run FdKernel.step {} es).fds := by
    refine run_invariant (I := fun k : FdKernel => FdInv False k.nextPid 0 0 k.fds) ?_ fdInv_boot h
    intro k e hk hleak
    obtain ⟨G', hG', hsame⟩ := FdKernel.step_inv hk e False.elim
    rwa [hsame hleak] at hG'
  exact hinv.fileRefsConserved

theorem run_fdInv (es : List FdEvent) :
    ∃ G, FdInv False (run FdKernel.step {} es).nextPid 0 G (run FdKernel.step {} es).fds := by
  refine run_invariant (I := fun k : FdKernel => ∃ G, FdInv False k.nextPid 0 G k.fds) ?_ ⟨0, fdInv_boot⟩
    (meets_of_forall (P := fun _ _ => True) (fun _ _ => trivial) _ es)
  rintro k e ⟨G, hk⟩ -
  obtain ⟨G', hG', -⟩ := FdKernel.step_inv hk e False.elim
  exact ⟨G', hG'⟩

/-- Init, and the calls of a small server: a listener on descriptor 3, a connection that is
accepted, a pipe, a child. -/
def init : Caller := { pid := 1, cttyKind := 1 }

def serverRun : List FdEvent :=
  [.call init (.socket linuxAfInet linuxSockStream 0 false false true [] []),
    .call init (.listen 3 8 true), .acceptCb 0, .acceptCb 0,
    .call init (.accept 3 true []), .call init (.pipe 0 true), .fork 1 fun _ => [],
    .call init (.close 3 fun _ => []), .call { pid := 2 } (.dup2 4 3 fun _ => [])]

theorem serverRun_conserved : Meets FdKernel.step FdKernel.RaceFree {} serverRun ∧
    ObjectsConserved (run FdKernel.step {} serverRun).fds := by
  have h : Meets FdKernel.step FdKernel.RaceFree {} serverRun := by
    simp only [serverRun, Meets, FdKernel.RaceFree, FdCall.RaceFree]
    simp
  exact ⟨h, object_references_conserved serverRun h⟩

/-- Opening the terminal, duplicating it and closing both; a child of a process without
descriptors. -/
def terminalRun : List FdEvent :=
  [.fork 1 fun _ => [], .call init (.openat linuxORdwr (.ok "/dev/tty") none),
    .call init (.dupfd 3 0 false), .call init (.close 3 fun _ => []),
    .call init (.close 4 fun _ => [])]

theorem terminalRun_conserved : Meets FdKernel.step FdKernel.LeakFree {} terminalRun ∧
    FileRefsConserved (run FdKernel.step {} terminalRun).fds := by
  have h : Meets FdKernel.step FdKernel.LeakFree {} terminalRun := by
    refine ⟨.inl (by decide), fun _ => .inl (.inl rfl), trivial, trivial, trivial, trivial⟩
  exact ⟨h, file_references_conserved terminalRun h⟩

/-- A listener is closed while a connection arrives: the callback fires after the queue has
been drained, and the socket it has made is left with a reference that nobody holds. -/
def closeRace : List FdEvent :=
  [.call init (.socket linuxAfInet linuxSockStream 0 false false true [] []), .call init (.listen 3 8 true),
    .call init (.close 3 fun i => if i = 0 then [0] else [])]

theorem closeRace_leaks_socket : ¬ ObjectsConserved (run FdKernel.step {} closeRace).fds := by
  intro h
  have hused : ((run FdKernel.step {} closeRace).fds.objs.sockets 1).used = true := by
    decide +kernel
  have hrefs : ((run FdKernel.step {} closeRace).fds.objs.sockets 1).refs = 1 := by
    decide +kernel
  have hqueue : inPendingQueue (run FdKernel.step {} closeRace).fds.objs 1 = false := by
    decide +kernel
  have hslots : slotCount (run FdKernel.step {} closeRace).fds .socket 1 = 0 := by
    obtain ⟨G, hinv⟩ := run_fdInv closeRace
    unfold slotCount
    simp only [Finset.card_eq_zero, Finset.filter_eq_empty_iff, Finset.mem_univ, true_imp_iff]
    refine hinv.forall_fds [0] (by decide +kernel) (fun x hx hand => Bool.noConfusion (hx.symm.trans hand.1)) ?_
    rw [List.forall_mem_singleton]
    decide +kernel
  have := (h.sockets 1 hused).1
  rw [hrefs, hqueue, hslots] at this
  simp at this

/-- A process with descriptors forks: the reference of the child's own standard input stays
in use although no descriptor has it. -/
def forkOnce : List FdEvent := [.call init (.pipe 0 true), .fork 1 fun _ => []]

theorem forkOnce_leaks_reference : ¬ FileRefsConserved (run FdKernel.step {} forkOnce).fds := by
  intro h
  have hused : ((run FdKernel.step {} forkOnce).fds.fileRefs 6).used = true := by decide +kernel
  have hrefs : ((run FdKernel.step {} forkOnce).fds.fileRefs 6).refs = 1 := by decide +kernel
  have hcount : refCount (run FdKernel.step {} forkOnce).fds 6 = 0 := by
    obtain ⟨G, hinv⟩ := run_fdInv forkOnce
    unfold refCount
    simp only [Finset.card_eq_zero, Finset.filter_eq_empty_iff, Finset.mem_univ, true_imp_iff]
    refine hinv.forall_fds [0, 1] (by decide +kernel) (fun x hx hand => Bool.noConfusion (hx.symm.trans hand.1)) ?_
    rw [List.forall_mem_cons, List.forall_mem_singleton]
    decide +kernel
  have := h.refs 6 (by decide) (by decide) hused
  omega

end EdgeOS
