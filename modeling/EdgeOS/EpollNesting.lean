import EdgeOS.EpollRuns
import EdgeOS.Lib.Search

namespace EdgeOS

open Lib

/-!
`poll_fd_revents` on epoll descriptors: it polls what the object watches, which may be epoll
descriptors again. Nothing but the kernel stack bounds the recursion.
-/

section Poll

variable (s : FdState) (p : FdProcIdx) (watch : Watches) (leaf : FdIdx → BitVec 16 → BitVec 16)

/-- The events that `poll_fd_revents` is asked for at a watch, `(int16_t)(events & 0x7fff)`, and those
that count as something found. -/
def watchEvents (w : Watch) : BitVec 16 := w.ev.events.setWidth 16 &&& 0x7fff
def foundEvents : BitVec 16 := linuxPollin ||| linuxPollpri ||| linuxPollout ||| linuxPollerr ||| linuxPollhup

/-- One watch of the loop in `poll_fd_revents`. -/
def pollWatch (poll : FdIdx → BitVec 16 → Option (BitVec 16)) (w : Watch) : Option Bool :=
  match fdGet s p w.fd with
  | none => some false
  | some i => (poll i (watchEvents w)).map fun rev => raised rev foundEvents

/-- `poll_fd_revents` for one descriptor; `watched` is the loop over the watches of an object. `leaf` is
what it says of descriptors of other kinds. -/
def pollEntry (watched : List Watch → Option Bool) (i : FdIdx) (events : BitVec 16) : Option (BitVec 16) :=
  let e := s.fds (p, i)
  if e.kind ≠ .epoll then some (leaf i events)
  else
    let out := raise (raised events linuxPollout) linuxPollout
    if !raised events (linuxPollin ||| linuxPollpri) then some out
    else
      match epollAt s.objs e.pipeId with
      | none => some (linuxPollnval ||| out)
      | some ep => (watched (watch ep)).map fun found => raise found linuxPollin ||| out

/-- `poll_fd_revents` with room on the stack for `depth` epoll objects inside each other. -/
def pollFdRevents : ℕ → FdIdx → BitVec 16 → Option (BitVec 16)
  | 0 => pollEntry s p watch leaf fun _ => none
  | depth + 1 => pollEntry s p watch leaf (firstTrue (pollWatch s p (pollFdRevents depth)))

/-- The epoll object whose watches a poll of this descriptor goes through. -/
def polledEpoll (i : FdIdx) (events : BitVec 16) : Option ℕ :=
  if (s.fds (p, i)).kind = .epoll ∧ raised events (linuxPollin ||| linuxPollpri) then
    epollAt s.objs (s.fds (p, i)).pipeId
  else none

/-- A watch as an alternative: it goes through the watches of another object, or its answer is known. -/
def watchAlt (w : Watch) : Alt ℕ :=
  match fdGet s p w.fd with
  | none => .answer false
  | some i =>
    match polledEpoll s p i (watchEvents w) with
    | some ep => .enter ep (raised (watchEvents w) linuxPollout)
    | none =>
      .answer (if (s.fds (p, i)).kind = .epoll then raised (watchEvents w) linuxPollout
        else raised (leaf i (watchEvents w)) foundEvents)

/-- The objects in use, and what each leads to in the caller's table. -/
def epollObjects (o : Objects) : Finset ℕ :=
  (Finset.range SpecialKind.epoll.max).filter fun ep => (o.special .epoll ep).used
def watchAlts (ep : ℕ) : List (Alt ℕ) := (watch ep).map (watchAlt s p leaf)

def PollReturns (i : FdIdx) (events : BitVec 16) : Prop :=
  (pollFdRevents s p watch leaf (epollObjects s.objs).card i events).isSome

/-- The poll comes to no epoll object that it comes back to, through watches that it looks at before it
has found anything. -/
def PollLoopFree (i : FdIdx) (events : BitVec 16) : Prop :=
  ∀ ep, polledEpoll s p i events = some ep → LoopFree (watchAlts s p watch leaf) ep

variable {s p watch leaf} {i : FdIdx} {events : BitVec 16}

theorem epollAt_mem {o : Objects} {id : ℤ} {ep : ℕ} (h : epollAt o id = some ep) : ep ∈ epollObjects o := by
  obtain ⟨hindex, hused⟩ := Option.filter_eq_some_iff.mp h
  exact Finset.mem_filter.mpr ⟨Finset.mem_range.mpr (tableIndex_some hindex).2, hused⟩

theorem polledEpoll_mem {ep : ℕ} (h : polledEpoll s p i events = some ep) : ep ∈ epollObjects s.objs := by
  unfold polledEpoll at h
  split at h
  · exact epollAt_mem h
  · cases h

/-- What a poll raises for an object: `POLLIN` if it has found something, `POLLOUT` if it was asked. -/
theorem raised_found (found out : Bool) :
    raised (raise found linuxPollin ||| raise out linuxPollout) foundEvents = (found || out) := by
  cases found <;> cases out <;> rfl

/-- A poll goes through the watches of an object, or it has its answer at once. -/
theorem pollEntry_eq (watched : List Watch → Option Bool) :
    (pollEntry s p watch leaf watched i events).map (fun rev => raised rev foundEvents) =
      match polledEpoll s p i events with
      | some ep => (watched (watch ep)).map (· || raised events linuxPollout)
      | none => some (if (s.fds (p, i)).kind = .epoll then raised events linuxPollout
          else raised (leaf i events) foundEvents) := by
  unfold pollEntry polledEpoll
  dsimp only
  by_cases hkind : (s.fds (p, i)).kind = .epoll
  · rw [if_neg (not_not.mpr hkind), if_pos hkind]
    by_cases hin : raised events (linuxPollin ||| linuxPollpri)
    · rw [if_neg (by rw [hin]; decide), if_pos ⟨hkind, hin⟩]
      cases epollAt s.objs (s.fds (p, i)).pipeId with
      | none => cases raised events linuxPollout <;> rfl
      | some ep =>
        dsimp only
        rw [Option.map_map]
        congr 1
        funext found
        exact raised_found found _
    · rw [if_pos (by simpa using hin), if_neg fun h => hin h.2]
      cases raised events linuxPollout <;> rfl
  · rw [if_pos hkind, if_neg fun h => hkind h.1]
    dsimp only [Option.map]
    rw [if_neg hkind]

/-- One watch, where the loop over the watches of an object is the search there. -/
theorem pollWatch_try {watched : List Watch → Option Bool} {depth : ℕ}
    (h : ∀ ep, watched (watch ep) = search (watchAlts s p watch leaf) depth ep) (w : Watch) :
    pollWatch s p (pollEntry s p watch leaf watched) w =
      (watchAlt s p leaf w).try (search (watchAlts s p watch leaf) depth) := by
  unfold pollWatch watchAlt
  cases fdGet s p w.fd with
  | none => rfl
  | some i =>
    dsimp only
    rw [pollEntry_eq]
    cases polledEpoll s p i (watchEvents w) with
    | none => rfl
    | some ep =>
      dsimp only [Alt.try]
      rw [h]

/-- The loop over the watches is the search over the objects. -/
theorem watched_search (depth ep : ℕ) : firstTrue (pollWatch s p (pollFdRevents s p watch leaf depth)) (watch ep) =
      search (watchAlts s p watch leaf) (depth + 1) ep := by
  induction depth generalizing ep with
  | zero =>
    rw [search, watchAlts, firstTrue_map]
    congr 1
    funext w
    exact pollWatch_try (fun _ => rfl) w
  | succ depth ih =>
    rw [search, watchAlts, firstTrue_map]
    congr 1
    funext w
    exact pollWatch_try ih w

theorem pollFdRevents_isSome (depth : ℕ) : (pollFdRevents s p watch leaf depth i events).isSome ↔
      ∀ ep, polledEpoll s p i events = some ep → (search (watchAlts s p watch leaf) depth ep).isSome := by
  have hentry : ∀ watched : List Watch → Option Bool,
      (∀ ep, watched (watch ep) = search (watchAlts s p watch leaf) depth ep) →
        ((pollEntry s p watch leaf watched i events).isSome ↔
          ∀ ep, polledEpoll s p i events = some ep → (search (watchAlts s p watch leaf) depth ep).isSome) := by
    intro watched hwatched
    rw [← Option.isSome_map (f := fun rev => raised rev foundEvents), pollEntry_eq]
    cases polledEpoll s p i events with
    | none => exact iff_of_true rfl fun _ h => by cases h
    | some ep =>
      dsimp only
      rw [Option.isSome_map, hwatched]
      exact ⟨fun h _ hep => Option.some.inj hep ▸ h, fun h => h ep rfl⟩
  cases depth with
  | zero => exact hentry _ fun _ => rfl
  | succ depth => exact hentry _ fun ep => watched_search depth ep

theorem watchAlts_closed {ep ep' : ℕ} (h : Enters (watchAlts s p watch leaf) ep ep') : ep' ∈ epollObjects s.objs := by
  obtain ⟨pre, also, post, hsplit, -⟩ := h
  have hmem : Alt.enter ep' also ∈ watchAlts s p watch leaf ep := by
    rw [hsplit]
    exact List.mem_append_right _ List.mem_cons_self
  obtain ⟨w, -, hw⟩ := List.mem_map.mp hmem
  unfold watchAlt at hw
  split at hw
  · cases hw
  next i _ =>
  split at hw
  · next hpolled =>
    cases hw
    exact polledEpoll_mem hpolled
  · cases hw

theorem loopFree_of_returns {depth : ℕ} (h : (pollFdRevents s p watch leaf depth i events).isSome) :
    PollLoopFree s p watch leaf i events := by
  intro ep hep
  exact loopFree_of_ends ((pollFdRevents_isSome depth).mp h ep hep)

theorem pollReturns_iff : PollReturns s p watch leaf i events ↔ PollLoopFree s p watch leaf i events := by
  refine ⟨loopFree_of_returns, fun h => (pollFdRevents_isSome _).mpr fun ep hep => ?_⟩
  exact ends_of_loopFree (fun _ _ h => watchAlts_closed h) (polledEpoll_mem hep) (h ep hep)

end Poll

/-! ## Runs -/

namespace EpollSys

/-- In every state of every run a poll returns, within as many epoll objects inside each other as there are,
if and only if it comes to no loop; otherwise no stack is deep enough. -/
theorem polls_return (L : KernelLayout) (es : List EpollSysEvent) :
    Meets (step L) (fun k e => ∀ (p : FdProcIdx) (leaf : FdIdx → BitVec 16 → BitVec 16) (i : FdIdx) (events : BitVec 16),
      (PollReturns (k.step L e).procs.fds p (k.step L e).watch leaf i events ↔
        PollLoopFree (k.step L e).procs.fds p (k.step L e).watch leaf i events) ∧
      (¬ PollLoopFree (k.step L e).procs.fds p (k.step L e).watch leaf i events →
        ∀ depth, pollFdRevents (k.step L e).procs.fds p (k.step L e).watch leaf depth i events = none))
      (boot L) es := by
  apply meets_of_forall
  intro k e p leaf i events
  refine ⟨pollReturns_iff, fun hloop depth => ?_⟩
  by_contra hsome
  exact hloop (loopFree_of_returns (Option.isSome_iff_ne_none.mpr hsome))

def mutualWatch : List EpollSysEvent :=
  [.procs (.call { pid := 1 } (.epollCreate1 0)), .procs (.call { pid := 1 } (.epollCreate1 0)),
    .ctl 3 linuxEpollCtlAdd 4 (some (some ⟨linuxEpollin, 0⟩)), .ctl 4 linuxEpollCtlAdd 3 (some (some ⟨linuxEpollin, 0⟩))]

/-- The poll of the first never returns. -/
theorem mutualWatch_endless : ¬ ∀ (L : KernelLayout) (es : List EpollSysEvent) (p : FdProcIdx)
    (leaf : FdIdx → BitVec 16 → BitVec 16) (i : FdIdx) (events : BitVec 16),
    PollReturns (run (step L) (boot L) es).procs.fds p (run (step L) (boot L) es).watch leaf i events := by
  intro h
  have hreturns := h layout0 mutualWatch 0 (fun _ _ => 0) 3 linuxPollin
  have hstuck : ¬ PollReturns (run (step layout0) (boot layout0) mutualWatch).procs.fds 0
      (run (step layout0) (boot layout0) mutualWatch).watch (fun _ _ => 0) 3 linuxPollin := by
    unfold PollReturns
    decide +kernel
  exact hstuck hreturns

end EpollSys

end EdgeOS
