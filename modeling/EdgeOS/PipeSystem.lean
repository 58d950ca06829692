import EdgeOS.CallFrames
import EdgeOS.PipeTransfer

namespace EdgeOS

open Lib Function

/-!
Pipes as a system: processes read, write, wait, fork and close in any order. The kernel is not
preempted, so a call runs until it returns or waits in `wait_blocking_step`.
-/

/-- A call on a pipe with a valid buffer: `b` is what the stack and the user's memory hold when
a read starts. -/
inductive PipeOp
  | read (len : ℕ) (b : Bounce)
  | write (data : List UInt8)

/-- What a call comes to. `elsewhere` are descriptors that are no pipe end, which the other
branches of the two calls serve. -/
inductive CallResult
  | bytes (bs : List UInt8)
  | wrote (n : ℕ)
  | failed (err : Errno)
  | waiting
  | elsewhere

def Outcome.result {α : Type} (ok : α → CallResult) : Outcome α → CallResult
  | .ret (.ok a) => ok a
  | .ret (.error err) => .failed err
  | .wait => .waiting

/-- A call inside its loop: the descriptor `e` and the pipe `pp` it has looked up. -/
structure PipeCall where
  op : PipeOp
  slot : FdProcIdx × FdIdx
  pipe : ℕ

/-- `blocked` are the calls that wait, by process. `sent` and `received` are not in the source:
the bytes accepted by the writes and returned by the reads on each pipe since it was made, in
the order in which the calls returned. -/
structure PipeKernel where
  fd : FdKernel := {}
  blocked : ℤ → Option PipeCall := fun _ => none
  sent : ℕ → List UInt8 := fun _ => []
  received : ℕ → List UInt8 := fun _ => []

/-- `do_sys_fd_read` and `do_sys_fd_write` up to the loop: an early return, or the call that
enters it. -/
def PipeOp.enter (s : FdState) (pid fd : ℤ) (op : PipeOp) : FdState × (CallResult ⊕ PipeCall) :=
  match op with
  | .read 0 _ => (s, .inl (.bytes []))
  | .write [] => (s, .inl (.wrote 0))
  | op =>
  match fdProcWithStdio s pid with
  | (s, none) => (s, .inl (.failed .ebadf))
  | (s, some p) =>
  match fdGet s p fd with
  | none => (s, .inl (.failed .ebadf))
  | some i =>
  let e := s.fds (p, i)
  match op, e.kind with
  | .read _ _, .pipeR =>
    match tableIndex edgeMaxPipes e.pipeId with
    | none => (s, .inl (.failed .ebadf))
    | some j =>
      if !(s.objs.pipes j).used then (s, .inl (.failed .ebadf)) else (s, .inr ⟨op, (p, i), j⟩)
  | .write _, .pipeW =>
    match tableIndex edgeMaxPipes e.pipeId with
    | none => (s, .inl (.failed .ebadf))
    | some j =>
      if !(s.objs.pipes j).used ∨ (s.objs.pipes j).readers = 0 then (s, .inl (.failed .epipe))
      else (s, .inr ⟨op, (p, i), j⟩)
  | _, _ => (s, .inl .elsewhere)

namespace PipeKernel

variable (k : PipeKernel)

def pipe (i : ℕ) : Pipe := k.fd.fds.objs.pipes i

def setFds (s : FdState) : PipeKernel := { k with fd := { k.fd with fds := s } }

def setPipe (i : ℕ) (p : Pipe) : PipeKernel :=
  k.setFds { k.fd.fds with objs := k.fd.fds.objs.setPipe i p }

def setBlocked (pid : ℤ) (c : Option PipeCall) : PipeKernel :=
  { k with blocked := Function.update k.blocked pid c }

/-- The loop of a call, from where it starts or wakes up to where it returns or waits. The
descriptor's flags are read each time. -/
def attempt (pid : ℤ) (c : PipeCall) (interrupted : Bool) : PipeKernel × CallResult :=
  let nonblock := hasFlag (k.fd.fds.fds c.slot).flags linuxONonblock
  match c.op with
  | .read len b =>
    let r := pipeRead (k.pipe c.pipe) nonblock interrupted len b
    let k' := (k.setPipe c.pipe r.1).setBlocked pid (if r.2.waits then some c else none)
    let received := k.received c.pipe ++ r.2.value []
    ({ k' with received := Function.update k.received c.pipe received }, r.2.result .bytes)
  | .write data =>
    let r := pipeWrite (k.pipe c.pipe) nonblock interrupted data
    let k' := (k.setPipe c.pipe r.1).setBlocked pid (if r.2.waits then some c else none)
    let sent := k.sent c.pipe ++ data.take (r.2.value 0)
    ({ k' with sent := Function.update k.sent c.pipe sent }, r.2.result .wrote)

end PipeKernel

/-- What can happen: any event of the descriptor layer, a call on a pipe, a waiting call that
looks again. `interrupted` is the answer of `signal_pending_interrupt`. -/
inductive PipeEvent
  | other (e : FdEvent)
  | call (pid fd : ℤ) (op : PipeOp) (interrupted : Bool)
  | resume (pid : ℤ) (interrupted : Bool)

/-- The process whose call an event is. The release of a dead process is not its own call. -/
def FdEvent.caller : FdEvent → Option ℤ
  | .call _ (.release _) => none
  | .call cur _ => some cur.pid
  | .fork pid _ => some pid
  | .spawn => none
  | .acceptCb _ => none

def FdEvent.released : FdEvent → Option ℤ
  | .call cur (.release _) => some cur.pid
  | _ => none

namespace PipeKernel

variable (k : PipeKernel)

/-- An event of the descriptor layer. A process that waits makes no calls, and a dead one does
not wait. The logs of a slot start afresh with the pipe in it. -/
def other (e : FdEvent) : PipeKernel :=
  if (e.caller.bind k.blocked).isSome then k else
  { fd := k.fd.step e
    blocked := fun pid => if e.released = some pid then none else k.blocked pid
    sent := fun i => if (k.pipe i).used then k.sent i else []
    received := fun i => if (k.pipe i).used then k.received i else [] }

/-- One event, with the call it belongs to, the pipe that call has reached and what it comes
to. -/
def stepResult : PipeEvent → PipeKernel × Option (PipeOp × Option ℕ × CallResult)
  | .other e => (k.other e, none)
  | .call pid fd op interrupted =>
    if !k.fd.exists pid ∨ (k.blocked pid).isSome then (k, none) else
    match op.enter k.fd.fds pid fd with
    | (s, .inl r) => (k.setFds s, some (op, none, r))
    | (s, .inr c) =>
      let r := (k.setFds s).attempt pid c interrupted
      (r.1, some (c.op, some c.pipe, r.2))
  | .resume pid interrupted =>
    match k.blocked pid with
    | none => (k, none)
    | some c =>
      let r := k.attempt pid c interrupted
      (r.1, some (c.op, some c.pipe, r.2))

def step (e : PipeEvent) : PipeKernel := (k.stepResult e).1

end PipeKernel

/-! ## The invariant -/

/-- What a pipe in use holds is what was sent and not yet received. -/
structure PipeKernel.Fifo (k : PipeKernel) (i : ℕ) : Prop where
  valid : (k.pipe i).ring.Valid edgePipeSize
  order : k.received i ++ (k.pipe i).ring.contents edgePipeSize = k.sent i

/-- A read of at least one byte that returns 0 has found its pipe empty and without writers. -/
def PipeKernel.EndOfFile (k : PipeKernel) (e : PipeEvent) : Prop :=
  ∀ len b r, (k.stepResult e).2 = some (.read len b, r, .bytes []) → 0 < len →
    ∃ i, r = some i ∧ (k.pipe i).ring.count = 0 ∧ (k.pipe i).writers = 0

section Invariant

variable {k : PipeKernel} {i : ℕ}

theorem PipeKernel.Fifo.congr {k' : PipeKernel} (h : k.Fifo i) (hp : k'.pipe i = k.pipe i)
    (hs : k'.sent i = k.sent i) (hr : k'.received i = k.received i) : k'.Fifo i := by
  refine ⟨?_, ?_⟩
  · rw [hp]
    exact h.valid
  · rw [hp, hs, hr]
    exact h.order

/-- A transfer that appends `ws` to pipe `j` and takes `bs` off it, and logs both. -/
theorem PipeKernel.fifo_transfer {k' : PipeKernel} {j : ℕ} {p : Pipe} {bs ws : List UInt8}
    (h : ∀ i, (k.pipe i).used = true → k.Fifo i) (hu : (k'.pipe i).used = true)
    (hpipe : k'.pipe = update k.pipe j p)
    (hreceived : k'.received = update k.received j (k.received j ++ bs))
    (hsent : k'.sent = update k.sent j (k.sent j ++ ws))
    (hused : p.used = (k.pipe j).used)
    (hmove : (k.pipe j).ring.Valid edgePipeSize → p.ring.Valid edgePipeSize ∧
      (k.pipe j).ring.contents edgePipeSize ++ ws = bs ++ p.ring.contents edgePipeSize) :
    k'.Fifo i := by
  by_cases hi : i = j
  · subst hi
    rw [hpipe, update_self, hused] at hu
    obtain ⟨hv, hc⟩ := hmove (h i hu).valid
    refine ⟨?_, ?_⟩
    · rw [hpipe, update_self]
      exact hv
    · rw [hpipe, hreceived, hsent, update_self, update_self,
        update_self, List.append_assoc, ← hc, ← List.append_assoc, (h i hu).order]
  · rw [hpipe, update_of_ne hi] at hu
    apply (h i hu).congr
    · rw [hpipe, update_of_ne hi]
    · rw [hsent, update_of_ne hi]
    · rw [hreceived, update_of_ne hi]

theorem PipeKernel.attempt_fifo {pid : ℤ} {c : PipeCall} {interrupted : Bool}
    (h : ∀ i, (k.pipe i).used = true → k.Fifo i)
    (hu : ((k.attempt pid c interrupted).1.pipe i).used = true) :
    (k.attempt pid c interrupted).1.Fifo i := by
  unfold attempt at hu ⊢
  generalize hasFlag (k.fd.fds.fds c.slot).flags linuxONonblock = nonblock at hu ⊢
  cases hop : c.op with
  | read len b =>
    simp only [hop] at hu ⊢
    have hsame : k.sent = update k.sent c.pipe (k.sent c.pipe ++ []) := by
      rw [List.append_nil, update_eq_self]
    apply fifo_transfer h hu rfl rfl hsame (pipeRead_used _ nonblock interrupted len b)
    intro hv
    rw [List.append_nil]
    exact pipeRead_spec hv nonblock interrupted len b
  | write data =>
    simp only [hop] at hu ⊢
    have hsame : k.received = update k.received c.pipe (k.received c.pipe ++ []) := by
      rw [List.append_nil, update_eq_self]
    apply fifo_transfer h hu rfl hsame rfl (pipeWrite_used _ nonblock interrupted data)
    intro hv
    obtain ⟨hv', hc⟩ := pipeWrite_spec hv nonblock interrupted data
    exact ⟨hv', hc.symm⟩

/-- The way to the loop of a transfer only sets up the caller's table. -/
theorem PipeOp.enter_spec {s s' : FdState} {pid fd : ℤ} {op : PipeOp} {r : CallResult ⊕ PipeCall}
    (h : op.enter s pid fd = (s', r)) :
    (s' = s ∨ ∃ q, fdProcWithStdio s pid = (s', q)) ∧ ∀ c, r = .inr c → c.pipe < edgeMaxPipes := by
  have hidx : ∀ {id : ℤ} {j : ℕ}, tableIndex edgeMaxPipes id = some j → j < edgeMaxPipes :=
    fun h => (tableIndex_some h).2
  unfold PipeOp.enter at h
  split at h
  · obtain ⟨rfl, rfl⟩ := Prod.mk.inj h
    exact ⟨.inl rfl, by simp⟩
  · obtain ⟨rfl, rfl⟩ := Prod.mk.inj h
    exact ⟨.inl rfl, by simp⟩
  · split at h
    · rename_i hf
      obtain ⟨rfl, rfl⟩ := Prod.mk.inj h
      exact ⟨.inr ⟨_, hf⟩, by simp⟩
    rename_i hf
    split at h
    · obtain ⟨rfl, rfl⟩ := Prod.mk.inj h
      exact ⟨.inr ⟨_, hf⟩, by simp⟩
    dsimp only at h
    split at h
    all_goals try split at h
    all_goals try split at h
    all_goals
      obtain ⟨rfl, rfl⟩ := Prod.mk.inj h
      refine ⟨.inr ⟨_, hf⟩, fun c hc => ?_⟩
      cases hc
    all_goals exact hidx ‹_›

theorem PipeOp.enter_pipes {s s' : FdState} {pid fd : ℤ} {op : PipeOp} {r : CallResult ⊕ PipeCall}
    (h : op.enter s pid fd = (s', r)) : s'.objs = s.objs := by
  rcases (PipeOp.enter_spec h).1 with rfl | ⟨q, hq⟩
  · rfl
  · exact (fdProcWithStdio_frame hq).2.1

/-- An event of the descriptor layer keeps the contents of every pipe that stays. -/
theorem PipeKernel.other_fifo (e : FdEvent) (h : ∀ i, (k.pipe i).used = true → k.Fifo i)
    (hu : ((k.other e).pipe i).used = true) : (k.other e).Fifo i := by
  revert hu
  unfold other
  split
  · exact h i
  intro hu
  rcases k.fd.step_pipes e i hu with ⟨hused, hring⟩ | ⟨hfree, hring⟩
  · refine ⟨?_, ?_⟩
    · change ((k.fd.step e).fds.objs.pipes i).ring.Valid _
      rw [hring]
      exact (h i hused).valid
    · change (if (k.pipe i).used then _ else _) ++
        ((k.fd.step e).fds.objs.pipes i).ring.contents _ = if (k.pipe i).used then _ else _
      have hused : (k.pipe i).used = true := hused
      rw [hring, if_pos hused, if_pos hused]
      exact (h i hused).order
  · have hfree : ¬ (k.pipe i).used = true := by
      rw [show (k.pipe i).used = false from hfree]
      simp
    refine ⟨?_, ?_⟩
    · change ((k.fd.step e).fds.objs.pipes i).ring.Valid _
      rw [hring]
      exact RingBuffer.valid_empty (by decide) 0
    · change (if (k.pipe i).used then _ else _) ++
        ((k.fd.step e).fds.objs.pipes i).ring.contents _ = if (k.pipe i).used then _ else _
      rw [hring, if_neg hfree, if_neg hfree]
      rfl

theorem PipeKernel.step_fifo (e : PipeEvent) (h : ∀ i, (k.pipe i).used = true → k.Fifo i)
    (hu : ((k.step e).pipe i).used = true) : (k.step e).Fifo i := by
  revert hu
  unfold step stepResult
  cases e with
  | other e => exact other_fifo e h
  | call pid fd op interrupted =>
    dsimp only
    split
    · exact h i
    have hset : ∀ s, s.objs = k.fd.fds.objs → ∀ j, ((k.setFds s).pipe j).used = true → (k.setFds s).Fifo j := by
      intro s ho j hj
      have hp : (k.setFds s).pipe j = k.pipe j := congrFun (congrArg Objects.pipes ho) j
      rw [hp] at hj
      exact (h j hj).congr hp rfl rfl
    split
    · rename_i s r he
      exact hset s (PipeOp.enter_pipes he) i
    · rename_i s c he
      exact attempt_fifo (hset s (PipeOp.enter_pipes he))
  | resume pid interrupted =>
    dsimp only
    split
    · exact h i
    · exact attempt_fifo h

/-! ## End of file -/

theorem PipeKernel.attempt_zero {pid : ℤ} {c : PipeCall} {interrupted : Bool} {len : ℕ} {b : Bounce}
    (hop : c.op = .read len b) (hlen : 0 < len)
    (h : (k.attempt pid c interrupted).2 = .bytes []) :
    (k.pipe c.pipe).ring.count = 0 ∧ (k.pipe c.pipe).writers = 0 := by
  unfold attempt at h
  simp only [hop] at h
  generalize hasFlag (k.fd.fds.fds c.slot).flags linuxONonblock = nonblock at h
  have hout : (pipeRead (k.pipe c.pipe) nonblock interrupted len b).2 = .ret (.ok []) := by
    generalize (pipeRead (k.pipe c.pipe) nonblock interrupted len b).2 = out at h ⊢
    rcases out with (err | bs) | _
    · simp [Outcome.result] at h
    · simpa [Outcome.result] using h
    · simp [Outcome.result] at h
  exact pipeRead_zero hlen hout

theorem PipeOp.enter_zero {s s' : FdState} {pid fd : ℤ} {len : ℕ} {b : Bounce}
    (h : (PipeOp.read len b).enter s pid fd = (s', .inl (.bytes []))) : len = 0 := by
  unfold PipeOp.enter at h
  split at h
  · rename_i heq
    exact (PipeOp.read.inj heq).1
  · rename_i heq
    simp at heq
  · split at h
    · simp at h
    split at h
    · simp at h
    dsimp only at h
    split at h
    · split at h
      · simp at h
      split at h <;> simp at h
    · split at h
      · simp at h
      split at h <;> simp at h
    · simp at h

theorem PipeKernel.endOfFile (k : PipeKernel) (e : PipeEvent) : k.EndOfFile e := by
  intro len b r h hlen
  unfold stepResult at h
  cases e with
  | other e => simp at h
  | call pid fd op interrupted =>
    dsimp only at h
    split at h
    · simp at h
    split at h
    · rename_i s r' he
      obtain ⟨rfl, -, rfl⟩ : op = .read len b ∧ none = r ∧ r' = .bytes [] := by simpa using h
      have := PipeOp.enter_zero he
      omega
    rename_i s c he
    obtain ⟨hop, rfl, hres⟩ : c.op = .read len b ∧ some c.pipe = r ∧
        ((k.setFds s).attempt pid c interrupted).2 = .bytes [] := by simpa using h
    have hp : (k.setFds s).pipe = k.pipe := congrArg Objects.pipes (PipeOp.enter_pipes he)
    have hz := attempt_zero hop hlen hres
    rw [hp] at hz
    exact ⟨c.pipe, rfl, hz⟩
  | resume pid interrupted =>
    dsimp only at h
    split at h
    · simp at h
    rename_i c hc
    obtain ⟨hop, rfl, hres⟩ : c.op = .read len b ∧ some c.pipe = r ∧
        (k.attempt pid c interrupted).2 = .bytes [] := by simpa using h
    exact ⟨c.pipe, rfl, attempt_zero hop hlen hres⟩

/-- In every run, every pipe in use is a first in, first out channel, and a read of at least
one byte returns 0 only at the end of its pipe. -/
theorem pipes_fifo (es : List PipeEvent) :
    (∀ i, ((run PipeKernel.step {} es).pipe i).used = true → (run PipeKernel.step {} es).Fifo i) ∧
      Meets PipeKernel.step PipeKernel.EndOfFile {} es := by
  have hboot : ∀ i, (({} : PipeKernel).pipe i).used = true → ({} : PipeKernel).Fifo i := by
    intro i hu
    exact absurd hu (by simp [PipeKernel.pipe])
  constructor
  · exact run_invariant (I := fun k : PipeKernel => ∀ i, (k.pipe i).used = true → k.Fifo i)
      (fun k e h _ i => PipeKernel.step_fifo e h) hboot
      (meets_of_forall (P := fun _ _ => True) (fun _ _ => trivial) _ es)
  · exact meets_of_forall PipeKernel.endOfFile _ es

end Invariant

/-- Init makes a pipe, forks, and the child writes two bytes. -/
def twoBytes : List PipeEvent :=
  [.other (.call { pid := 1 } (.pipe 0 true)), .other (.fork 1 fun _ => []), .call 2 4 (.write [7, 8]) false]

def blankBounce : Bounce := ⟨fun _ => 0, fun _ => 0⟩

/-- A read of no bytes returns 0 from a pipe that holds bytes and has writers; the next read
returns them. -/
theorem emptyRead_returns_zero :
    ((run PipeKernel.step {} twoBytes).stepResult (.call 1 3 (.read 0 blankBounce) false)).2 =
        some (.read 0 blankBounce, none, .bytes []) ∧
      ((run PipeKernel.step {} twoBytes).pipe 0).ring.count = 2 ∧
      ((run PipeKernel.step {} twoBytes).pipe 0).writers = 2 ∧
      (run PipeKernel.step {} (twoBytes ++ [.call 1 3 (.read 9 blankBounce) false])).received 0 = [7, 8] := by
  refine ⟨?_, by decide +kernel, by decide +kernel, by decide +kernel⟩
  have hfree : ¬ (!(run PipeKernel.step {} twoBytes).fd.exists 1 ∨
      ((run PipeKernel.step {} twoBytes).blocked 1).isSome) := by decide +kernel
  unfold PipeKernel.stepResult
  dsimp only
  rw [if_neg hfree]
  rfl

end EdgeOS
