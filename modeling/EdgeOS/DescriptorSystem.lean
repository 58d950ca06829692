import EdgeOS.PathSteps
import EdgeOS.Lib.Runs

namespace EdgeOS

open Lib

/-!
The descriptor layer as a system: any process may make any call at any time, and accept
callbacks may fire between the calls and inside them.
-/

/-- `nextPid` is the next process number; `process_init` has given 1 to init. -/
structure FdKernel where
  fds : FdState := {}
  nextPid : ℤ := 2

/-- The calls on descriptors. `release` is the part of exit, of a fatal signal and of the
reaping of a child that gives the descriptors of a process back. -/
inductive FdCall
  | pipe (flags : BitVec 32) (copied : Bool)
  | socket (domain type protocol : ℤ) (nonblock cloexec pcb : Bool) (window later : List ℕ)
  | socketpair (nonblock cloexec copied : Bool) (window window' later : List ℕ)
  | listen (fd backlog : ℤ) (granted : Bool)
  | accept (fd : ℤ) (copied : Bool) (later : List ℕ)
  | accept4 (fd : ℤ) (flags : BitVec 32) (copied : Bool) (later : List ℕ)
  | openat (flags : BitVec 32) (path : Except Errno String)
      (resolved : Option (VfsInode × Option ℕ))
  | eventfd2 (flags : BitVec 32)
  | timerfdCreate (clockid : ℤ) (flags : BitVec 32)
  | signalfd4 (fd : ℤ) (flags : BitVec 32)
  | epollCreate1 (flags : BitVec 32)
  | dupfd (fd minfd : ℤ) (cloexec : Bool)
  | setfd (fd : ℤ) (cloexec : Bool)
  | setfl (fd : ℤ) (arg : BitVec 32)
  | dup2 (oldfd newfd : ℤ) (window : ℕ → List ℕ)
  | dup3 (oldfd newfd : ℤ) (flags : BitVec 32) (window : ℕ → List ℕ)
  | close (fd : ℤ) (window : ℕ → List ℕ)
  | ptyLock (fd : ℤ) (lock : Bool)
  | execve (loaded : Bool) (window : ℕ → List ℕ)
  | release (window : ℕ → List ℕ)

def FdCall.apply (s : FdState) (cur : Caller) : FdCall → FdState
  | .pipe flags copied => (doSysPipe s cur.pid flags copied).1
  | .socket domain type protocol nonblock cloexec pcb window later =>
    (doSysSocket s cur.pid domain type protocol nonblock cloexec pcb window later).1
  | .socketpair nonblock cloexec copied window window' later =>
    (doSysSocketpair s cur.pid nonblock cloexec copied window window' later).1
  | .listen fd backlog granted => (doSysListen s cur.pid fd backlog granted).1
  | .accept fd copied later => (doSysAccept s cur.pid fd copied later).1
  | .accept4 fd flags copied later => (doSysAccept4 s cur.pid fd flags copied later).1
  | .openat flags path resolved => (doSysOpenat s cur flags path resolved).1
  | .eventfd2 flags => (doSysEventfd2 s cur.pid flags).1
  | .timerfdCreate clockid flags => (doSysTimerfdCreate s cur.pid clockid flags).1
  | .signalfd4 fd flags => (doSysSignalfd4 s cur.pid fd flags).1
  | .epollCreate1 flags => (doSysEpollCreate1 s cur.pid flags).1
  | .dupfd fd minfd cloexec => (doSysFcntlDupfd s cur.pid fd minfd cloexec).1
  | .setfd fd cloexec => (doSysFcntlSetfd s cur.pid fd cloexec).1
  | .setfl fd arg => (doSysFcntlSetfl s cur.pid fd arg).1
  | .dup2 oldfd newfd window => (doSysDup2 window s cur.pid oldfd newfd).1
  | .dup3 oldfd newfd flags window => (doSysDup3 window s cur.pid oldfd newfd flags).1
  | .close fd window => (doSysClose window s cur.pid fd).1
  | .ptyLock fd lock => (ioctlPtyLock s cur.pid fd lock).1
  | .execve loaded window => doSysExecve window s cur.pid loaded
  | .release window => fdProcRelease window s cur.pid

/-- What can happen. `spawn` makes a process that gets its table with its first call. -/
inductive FdEvent
  | call (cur : Caller) (c : FdCall)
  | fork (pid : ℤ) (cbs : FdIdx → List ℕ)
  | spawn
  | acceptCb (l : ℕ)

def FdKernel.exists (k : FdKernel) (pid : ℤ) : Bool := 0 < pid ∧ pid < k.nextPid

def FdKernel.step (k : FdKernel) : FdEvent → FdKernel
  | .call cur c => if k.exists cur.pid then { k with fds := c.apply k.fds cur } else k
  | .fork pid cbs =>
    if k.exists pid then ⟨fdCloneAfterFork k.fds pid k.nextPid cbs, k.nextPid + 1⟩ else k
  | .spawn => { k with nextPid := k.nextPid + 1 }
  | .acceptCb l => { k with fds := { k.fds with objs := edgeTcpAcceptCb k.fds.objs l } }

/-- No accept callback fires where it breaks the accounting: for a listener after its queue
has been drained and before it is detached, or with room in the queue between
`socket_alloc`'s test of a slot and its claim. -/
def FdCall.RaceFree (s : FdState) : FdCall → Prop
  | .socket _ _ _ _ _ _ window _ => ∀ l ∈ window, AcceptQuiet s.objs l
  | .socketpair _ _ _ window window' _ => ∀ l ∈ window ++ window', AcceptQuiet s.objs l
  | .dup2 _ _ window | .dup3 _ _ _ window | .close _ window | .execve _ window
  | .release window => ∀ i, i ∉ window i
  | _ => True

def FdKernel.RaceFree (k : FdKernel) : FdEvent → Prop
  | .call _ c => c.RaceFree k.fds
  | _ => True

/-- No file reference is lost: `/dev/tty` finds a terminal, and fork takes no reference for
standard descriptors. -/
def FdKernel.LeakFree (k : FdKernel) : FdEvent → Prop
  | .call cur (.openat _ path _) =>
    path = .ok "/dev/tty" → TtyReady k.fds.objs cur ∨ TtyRefused k.fds cur.pid
  | .fork pid _ => ForkQuiet k.fds pid
  | _ => True

section Steps

variable {R : Prop} {N : ℤ} {G : ℕ → ℕ} {s : FdState}

/-- Every call keeps the accounting; only `openat` can lose a file reference. -/
theorem FdInv.call {cur : Caller} (h : FdInv R N 0 G s) (hpos : 0 < cur.pid) (hN : cur.pid < N)
    (c : FdCall) (hrace : R → c.RaceFree s) :
    ∃ G', FdInv R N 0 G' (c.apply s cur) ∧
      ((∀ flags path resolved, c = .openat flags path resolved → path = .ok "/dev/tty" →
        TtyReady s.objs cur ∨ TtyRefused s cur.pid) → G' = G) := by
  cases c with
  | openat flags path resolved =>
    obtain ⟨G', hG', hsame⟩ := h.doSysOpenat hpos hN flags path resolved
    exact ⟨G', hG', fun hok => hsame (hok flags path resolved rfl)⟩
  | pipe flags copied => exact ⟨G, h.doSysPipe hpos hN flags copied, fun _ => rfl⟩
  | socket => exact ⟨G, h.doSysSocket hpos hN hrace _ _ _ _ _ _ _, fun _ => rfl⟩
  | socketpair => exact ⟨G, h.doSysSocketpair hpos hN hrace _ _ _ _, fun _ => rfl⟩
  | listen fd backlog granted => exact ⟨G, h.doSysListen hpos hN fd backlog granted, fun _ => rfl⟩
  | accept fd copied later => exact ⟨G, h.doSysAccept hpos hN fd copied later, fun _ => rfl⟩
  | accept4 => exact ⟨G, h.doSysAccept4 hpos hN _ _ _ _, fun _ => rfl⟩
  | eventfd2 flags =>
    refine ⟨G, ?_, fun _ => rfl⟩
    simp only [FdCall.apply, doSysEventfd2]
    split
    · exact h
    · exact h.createSpecial hpos hN _ _
  | timerfdCreate clockid flags =>
    refine ⟨G, ?_, fun _ => rfl⟩
    simp only [FdCall.apply, doSysTimerfdCreate]
    split
    · exact h
    · exact h.createSpecial hpos hN _ _
  | epollCreate1 flags =>
    refine ⟨G, ?_, fun _ => rfl⟩
    simp only [FdCall.apply, doSysEpollCreate1]
    split
    · exact h
    · exact h.createSpecial hpos hN _ _
  | signalfd4 fd flags => exact ⟨G, h.doSysSignalfd4 hpos hN fd flags, fun _ => rfl⟩
  | dupfd fd minfd cloexec => exact ⟨G, h.doSysFcntlDupfd hpos hN fd minfd cloexec, fun _ => rfl⟩
  | setfd fd cloexec => exact ⟨G, h.doSysFcntlSetfd hpos hN fd cloexec, fun _ => rfl⟩
  | setfl fd arg => exact ⟨G, h.doSysFcntlSetfl hpos hN fd arg, fun _ => rfl⟩
  | dup2 oldfd newfd => exact ⟨G, h.doSysDup2 hpos hN hrace oldfd newfd, fun _ => rfl⟩
  | dup3 oldfd newfd flags => exact ⟨G, h.doSysDup3 hpos hN hrace oldfd newfd flags, fun _ => rfl⟩
  | close fd => exact ⟨G, h.doSysClose hrace fd, fun _ => rfl⟩
  | ptyLock fd lock => exact ⟨G, h.ioctlPtyLock hpos hN fd lock, fun _ => rfl⟩
  | execve loaded => exact ⟨G, h.doSysExecve (by omega) hrace loaded, fun _ => rfl⟩
  | release => exact ⟨G, h.fdProcRelease (by omega) hrace, fun _ => rfl⟩

/-- Every event keeps the accounting, and without a leak the references in hand stay as they
are. -/
theorem FdKernel.step_inv {k : FdKernel} (h : FdInv R k.nextPid 0 G k.fds) (e : FdEvent) (hrace : R → k.RaceFree e) :
    ∃ G', FdInv R (k.step e).nextPid 0 G' (k.step e).fds ∧ (k.LeakFree e → G' = G) := by
  cases e with
  | call cur c =>
    unfold FdKernel.step
    dsimp only
    split_ifs with hex
    · obtain ⟨hpos, hN⟩ : 0 < cur.pid ∧ cur.pid < k.nextPid := by
        simpa [FdKernel.exists] using hex
      obtain ⟨G', hG', hsame⟩ := h.call hpos hN c hrace
      refine ⟨G', hG', fun hleak => hsame ?_⟩
      rintro flags path resolved rfl
      exact hleak
    · exact ⟨G, h, fun _ => rfl⟩
  | fork pid cbs =>
    unfold FdKernel.step
    dsimp only
    split_ifs with hex
    · obtain ⟨hpos, hN⟩ : 0 < pid ∧ pid < k.nextPid := by simpa [FdKernel.exists] using hex
      exact h.fdCloneAfterFork (by omega) pid cbs
    · exact ⟨G, h, fun _ => rfl⟩
  | spawn => exact ⟨G, h.mono (by dsimp only [FdKernel.step]; omega), fun _ => rfl⟩
  | acceptCb l => exact ⟨G, h.acceptCbs [l], fun _ => rfl⟩

theorem fdInv_boot : FdInv R 2 0 0 {} := by
  have hslots : slots {} = 0 := by
    funext k i
    exact Finset.sum_eq_zero fun _ _ => rfl
  have hrefs : refSlots {} = 0 := by
    funext i
    exact Finset.sum_eq_zero fun _ _ => rfl
  have hpend : ∀ i, pendingCount (fun _ => ({} : Socket)) i = 0 := fun i =>
    Finset.sum_eq_zero fun _ _ => rfl
  refine ⟨?_, fun i _ => ?_, fun _ hu => by simp at hu, fun _ _ => rfl, fun _ => by simp⟩
  · rw [hslots, add_zero]
    refine ⟨fun i => ⟨.inr ⟨rfl, rfl, rfl⟩, fun _ => rfl⟩, fun i => ⟨.inr ⟨rfl, rfl, rfl⟩, fun _ => rfl⟩,
      fun k i => ⟨.inr ⟨rfl, rfl⟩, fun _ => rfl⟩, fun _ i => ?_⟩
    have hi := hpend i
    refine ⟨fun hu => by simp at hu, fun _ => ⟨rfl, hi, rfl⟩, fun _ => rfl, fun hn => ?_, by simp⟩
    exact absurd hn (by rw [hi]; exact lt_irrefl 0)
  · rw [hrefs]
    exact ⟨.inr ⟨rfl, rfl⟩, fun _ => rfl⟩

end Steps

end EdgeOS
