import EdgeOS.CallFrames
import EdgeOS.DescriptorSystem
import EdgeOS.FileWrite
import Mathlib.Order.Bounds.Basic

namespace EdgeOS

/-!
What the descriptor table is for: a partial map from numbers to open objects in which a new
object gets the smallest number that is free. Each call is compared with its meaning on that map.
-/

open Function

/-- What a descriptor refers to. The file reference tells two `openat` of one file apart. -/
structure OpenObj where
  kind : FdKind
  pipeId : ℤ
  fileRef : ℕ
  path : String
  ino : ℕ
  sb : Option ℕ
  deriving DecidableEq, Repr

def FdEntry.obj (e : FdEntry) : OpenObj := ⟨e.kind, e.pipeId, e.fileRef, e.path, e.inode.ino, e.sb⟩

def FdEntry.shown (e : FdEntry) : Option OpenObj := if e.used then some e.obj else none

abbrev FdTable := FdIdx → Option OpenObj

namespace FdTable

variable (t : FdTable)

def bind (i : FdIdx) (o : OpenObj) : FdTable := Function.update t i (some o)

def unbind (i : FdIdx) : FdTable := Function.update t i none

/-- `i` is the smallest number from `m` on that is not bound. -/
def Lowest (m : ℤ) (i : FdIdx) : Prop := IsLeast {j | m ≤ (j.val : ℤ) ∧ t j = none} i

/-- No number is bound that is `fd`. -/
def Unbound (fd : ℤ) : Prop := ∀ i : FdIdx, (i.val : ℤ) = fd → t i = none

end FdTable

def FdState.table (s : FdState) (p : FdProcIdx) : FdTable := fun i => (s.fds (p, i)).shown

abbrev Numbers := Except Errno (List ℕ)

/-- A failed call leaves the map alone, a successful one does what `P` says. -/
def Numbers.Assigns (out : Numbers) (t t' : FdTable) (P : List ℕ → Prop) : Prop :=
  match out with
  | .error _ => t' = t
  | .ok ns => P ns

/-- The smallest free number gets an object that meets `P`. -/
def FdTable.OpensOne (t t' : FdTable) (P : OpenObj → Prop) (ns : List ℕ) : Prop :=
  ∃ i o, t.Lowest 0 i ∧ ns = [i.val] ∧ t' = t.bind i o ∧ P o

/-- The two smallest free numbers get two objects that meet `P`. -/
def FdTable.OpensTwo (t t' : FdTable) (P : OpenObj → OpenObj → Prop) (ns : List ℕ) : Prop :=
  ∃ i j o o', t.Lowest 0 i ∧ (t.bind i o).Lowest 0 j ∧ ns = [i.val, j.val] ∧ t' = (t.bind i o).bind j o' ∧ P o o'

/-- Number `j` gets what `fd` refers to. -/
def FdTable.Copies (t t' : FdTable) (fd : ℤ) (j : FdIdx) : Prop :=
  ∃ (i : FdIdx) (o : OpenObj), (i.val : ℤ) = fd ∧ t i = some o ∧ t' = t.bind j o

/-- `o` is the file that the path names. -/
def OpenObj.IsFile (o : OpenObj) (path : Except Errno String)
    (resolved : Option (VfsInode × Option ℕ)) : Prop :=
  ∀ name, path = .ok name → specialPath name = false →
    ∃ inode sb, resolved = some (inode, sb) ∧ o.kind = .vfs ∧ o.path = name ∧ o.ino = inode.ino ∧ o.sb = sb

/-- The meaning of a call on the map. `new` tells which objects are not open yet. -/
def FdCall.Meaning (new : OpenObj → Prop) (t t' : FdTable) (out : Numbers) : FdCall → Prop
  | .pipe _ _ => out.Assigns t t' (t.OpensTwo t' fun o o' =>
      new o ∧ new o' ∧ o.kind = .pipeR ∧ o'.kind = .pipeW ∧ o.pipeId = o'.pipeId)
  | .socketpair _ _ _ _ _ _ => out.Assigns t t' (t.OpensTwo t' fun o o' =>
      new o ∧ new o' ∧ o.kind = .socket ∧ o'.kind = .socket)
  | .socket _ _ _ _ _ _ _ _ | .accept _ _ _ | .accept4 _ _ _ _ =>
      out.Assigns t t' (t.OpensOne t' fun o => new o ∧ o.kind = .socket)
  | .openat _ path resolved =>
      out.Assigns t t' (t.OpensOne t' fun o => new o ∧ o.IsFile path resolved)
  | .eventfd2 _ => out.Assigns t t' (t.OpensOne t' fun o => new o ∧ o.kind = .eventfd)
  | .timerfdCreate _ _ => out.Assigns t t' (t.OpensOne t' fun o => new o ∧ o.kind = .timerfd)
  | .epollCreate1 _ => out.Assigns t t' (t.OpensOne t' fun o => new o ∧ o.kind = .epoll)
  | .signalfd4 fd _ => out.Assigns t t' fun ns =>
      if fd = -1 then t.OpensOne t' (fun o => new o ∧ o.kind = .signalfd) ns
      else t' = t ∧ ns = [fd.toNat] ∧ ¬ t.Unbound fd
  | .dupfd fd minfd _ => out.Assigns t t' fun ns =>
      ∃ j, t.Lowest minfd j ∧ ns = [j.val] ∧ t.Copies t' fd j
  | .dup2 oldfd newfd _ | .dup3 oldfd newfd _ _ => out.Assigns t t' fun ns =>
      ∃ j : FdIdx, (j.val : ℤ) = newfd ∧ ns = [j.val] ∧ t.Copies t' oldfd j
  | .close fd _ =>
      (t.Unbound fd ∧ out = .error .ebadf ∧ t' = t) ∨
        ∃ i : FdIdx, (i.val : ℤ) = fd ∧ t i ≠ none ∧ out = .ok [] ∧ t' = t.unbind i
  | .listen _ _ _ | .setfd _ _ | .setfl _ _ | .ptyLock _ _ => t' = t
  | .execve _ _ | .release _ => True

/-! ## The numbers that the calls report -/

def FdCall.result (s : FdState) (cur : Caller) : FdCall → FdResult
  | .pipe flags copied => (doSysPipe s cur.pid flags copied).2
  | .socket domain type protocol nonblock cloexec pcb window later =>
    (doSysSocket s cur.pid domain type protocol nonblock cloexec pcb window later).2
  | .socketpair nonblock cloexec copied window window' later =>
    (doSysSocketpair s cur.pid nonblock cloexec copied window window' later).2
  | .listen fd backlog granted => (doSysListen s cur.pid fd backlog granted).2
  | .accept fd copied later => (doSysAccept s cur.pid fd copied later).2
  | .accept4 fd flags copied later => (doSysAccept4 s cur.pid fd flags copied later).2
  | .openat flags path resolved => (doSysOpenat s cur flags path resolved).2
  | .eventfd2 flags => (doSysEventfd2 s cur.pid flags).2
  | .timerfdCreate clockid flags => (doSysTimerfdCreate s cur.pid clockid flags).2
  | .signalfd4 fd flags => (doSysSignalfd4 s cur.pid fd flags).2
  | .epollCreate1 flags => (doSysEpollCreate1 s cur.pid flags).2
  | .dupfd fd minfd cloexec => (doSysFcntlDupfd s cur.pid fd minfd cloexec).2
  | .setfd fd cloexec => (doSysFcntlSetfd s cur.pid fd cloexec).2
  | .setfl fd arg => (doSysFcntlSetfl s cur.pid fd arg).2
  | .dup2 oldfd newfd window => (doSysDup2 window s cur.pid oldfd newfd).2
  | .dup3 oldfd newfd flags window => (doSysDup3 window s cur.pid oldfd newfd flags).2
  | .close fd window => (doSysClose window s cur.pid fd).2
  | .ptyLock fd lock => (ioctlPtyLock s cur.pid fd lock).2
  | .execve _ _ | .release _ => .ok 0

/-- The two numbers that `do_sys_pipe` and `do_sys_socketpair` store for the user: those of the
two `fd_alloc` they start with. -/
def twoFds (s : FdState) (pid : ℤ) : List ℕ :=
  match fdProcWithStdio s pid with
  | (_, none) => []
  | (s, some p) =>
  match fdAlloc s p 0 with
  | (_, none) => []
  | (s, some i) =>
  match fdAlloc s p 0 with
  | (_, none) => []
  | (_, some j) => [i.val, j.val]

def FdCall.numbers (s : FdState) (cur : Caller) (c : FdCall) : Numbers :=
  (c.result s cur).map fun r =>
    match c with
    | .pipe _ _ | .socketpair _ _ _ _ _ _ => twoFds s cur.pid
    | .close _ _ | .listen _ _ _ | .setfd _ _ | .setfl _ _ | .ptyLock _ _ | .execve _ _
    | .release _ => []
    | _ => [r]

/-! ## Writing a map -/

namespace FdTable

variable {t : FdTable} {i j : FdIdx} {o o' : OpenObj}

@[simp] theorem bind_self : t.bind i o i = some o := update_self _ _ _

theorem bind_of_ne (h : j ≠ i) : t.bind i o j = t j := update_of_ne h _ _

@[simp] theorem bind_bind : (t.bind i o).bind i o' = t.bind i o' := update_idem _ _ _

@[simp] theorem unbind_bind : (t.bind i o).unbind i = t.unbind i := update_idem _ _ _

theorem unbind_eq (h : t i = none) : t.unbind i = t := by
  unfold unbind
  rw [← h, update_eq_self]

theorem Lowest.free {m : ℤ} (h : t.Lowest m i) : t i = none := h.1.2

theorem Lowest.undo {m : ℤ} (h : t.Lowest m i) : (t.bind i o).unbind i = t := by
  rw [unbind_bind, unbind_eq h.free]

/-- Which numbers are free does not depend on what the others refer to. -/
theorem Lowest.rebind {m : ℤ} (h : (t.bind i o).Lowest m j) : (t.bind i o').Lowest m j := by
  have hfree : ∀ k, t.bind i o' k = none ↔ t.bind i o k = none := by
    intro k
    by_cases hk : k = i
    · subst hk
      simp
    · rw [bind_of_ne hk, bind_of_ne hk]
  have hset : {k | m ≤ (k.val : ℤ) ∧ t.bind i o' k = none} = {k | m ≤ (k.val : ℤ) ∧ t.bind i o k = none} := by
    ext k
    exact and_congr_right fun _ => hfree k
  unfold Lowest
  rw [hset]
  exact h

theorem Lowest.ne {m : ℤ} (h : (t.bind i o).Lowest m j) : j ≠ i := by
  rintro rfl
  have := h.free
  simp at this

theorem Lowest.undo_two {m n : ℤ} (hi : t.Lowest m i) (hj : (t.bind i o).Lowest n j) :
    (((t.bind i o).bind j o').unbind i).unbind j = t := by
  funext k
  by_cases hk : k = j
  · subst hk
    have := hj.free
    rw [bind_of_ne hj.ne] at this
    rw [this]
    exact update_self _ _ _
  unfold unbind
  rw [update_of_ne hk]
  by_cases hki : k = i
  · subst hki
    rw [update_self, hi.free]
  · rw [update_of_ne hki, bind_of_ne hk, bind_of_ne hki]

end FdTable

/-! ## The map through the parts of a call -/

section Parts

variable {s s' s'' : FdState} {p : FdProcIdx} {i : FdIdx} {t : FdTable} {e : FdEntry}

theorem FdState.table_setFd (s : FdState) (p : FdProcIdx) (i : FdIdx) (e : FdEntry) :
    (s.setFd p i e).table p = update (s.table p) i e.shown := by
  funext j
  change (update s.fds (p, i) e (p, j)).shown = _
  by_cases hj : j = i
  · subst hj
    rw [update_self, update_self]
  · rw [update_of_ne hj, update_of_ne (by simp [hj])]
    rfl

theorem FdState.table_eq_none : s.table p i = none ↔ (s.fds (p, i)).used = false := by
  unfold table FdEntry.shown
  split <;> simp_all

/-- The state shows the map `t` in table `p`, and the tables belong to the same processes as
in `s`. -/
structure FdState.Shows (s : FdState) (p : FdProcIdx) (t : FdTable) (s' : FdState) : Prop where
  procs : s'.procPid = s.procPid
  table : s'.table p = t

/-- Besides, no file reference of `s` has been given back. -/
structure FdState.Tracks (s : FdState) (p : FdProcIdx) (t : FdTable) (s' : FdState) : Prop
    extends s.Shows p t s' where
  refs : ∀ j, (s.fileRefs j).used = true → (s'.fileRefs j).used = true

/-- The file reference of `o` is free in `s`. -/
def FdState.Fresh (s : FdState) (o : OpenObj) : Prop :=
  1 ≤ o.fileRef ∧ (s.fileRefs o.fileRef).used = false

/-- What `fd_alloc` marks a descriptor with. -/
def markedObj : OpenObj := FdEntry.obj { used := true }

namespace FdState.Shows

theorem setFd (h : s.Shows p t s') (i : FdIdx) (e : FdEntry) : s.Shows p (update t i e.shown) (s'.setFd p i e) :=
  ⟨h.procs, by rw [table_setFd, h.table]⟩

theorem clear (h : s.Shows p t s') (i : FdIdx) : s.Shows p (t.unbind i) (s'.setFd p i {}) :=
  h.setFd i {}

theorem congr (h : s.Shows p t s') (hp : s''.procPid = s'.procPid) (hf : s''.fds = s'.fds) : s.Shows p t s'' := by
  refine ⟨hp.trans h.procs, ?_⟩
  rw [← h.table]
  funext i
  exact congrArg FdEntry.shown (congrFun hf (p, i))

theorem put (h : s.Shows p t s') (ref : ℕ) : s.Shows p t (fileRefPut s' ref) :=
  h.congr (fileRefPut_procPid _ _) (fileRefPut_fds _ _)

theorem closeFd (h : s.Shows p t s') (window : ℕ → List ℕ) (i : FdIdx) :
    s.Shows p (t.unbind i) (EdgeOS.closeFd window s' p i) := by
  rw [closeFd_eq]
  exact ((h.clear i).put _).congr rfl rfl

end FdState.Shows

namespace FdState.Tracks

theorem refl (s : FdState) (p : FdProcIdx) : s.Tracks p (s.table p) s := ⟨⟨rfl, rfl⟩, fun _ h => h⟩

theorem setObjs (h : s.Tracks p t s') (o : Objects) : s.Tracks p t { s' with objs := o } :=
  ⟨h.toShows.congr rfl rfl, h.refs⟩

theorem setFd (h : s.Tracks p t s') (i : FdIdx) (e : FdEntry) : s.Tracks p (update t i e.shown) (s'.setFd p i e) :=
  ⟨h.toShows.setFd i e, h.refs⟩

theorem clear (h : s.Tracks p t s') (i : FdIdx) : s.Tracks p (t.unbind i) (s'.setFd p i {}) :=
  h.setFd i {}

theorem alloc {m : ℤ} (h : s.Tracks p t s') (ha : fdAlloc s' p m = (s'', some i)) :
    t.Lowest m i ∧ s.Tracks p (t.bind i markedObj) s'' := by
  obtain ⟨rfl, -⟩ := fdAlloc_some ha
  refine ⟨?_, h.setFd i { used := true }⟩
  rw [← h.table]
  unfold fdAlloc at ha
  split at ha
  · rename_i j hj
    obtain rfl : j = i := Option.some.inj (Prod.mk.inj ha).2
    obtain ⟨hp, as, bs, hsplit, hbefore⟩ := List.find?_eq_some_iff_append.mp hj
    have hsorted := List.pairwise_lt_finRange edgeMaxFd
    rw [hsplit, List.pairwise_append] at hsorted
    refine ⟨by simpa [table_eq_none] using hp, fun k hk => ?_⟩
    -- A smaller number that is free would have been found first.
    by_contra hlt
    have hmem : k ∈ as := by
      have hk' : k ∈ as ++ j :: bs := hsplit ▸ List.mem_finRange k
      rcases List.mem_append.mp hk' with hk' | hk'
      · exact hk'
      rcases List.mem_cons.mp hk' with rfl | hk'
      · exact absurd le_rfl hlt
      · have := (List.pairwise_cons.mp hsorted.2.1).1 k hk'
        exact absurd this.le hlt
    have := hbefore k hmem
    simp only [Set.mem_ofPred_eq, table_eq_none] at hk
    simp [hk] at this
  · simp at ha

/-- `fdInstall` binds the number to a new object, or frees it. -/
theorem install {done : Bool} (h : s.Tracks p t s') (ha : fdInstall s' p i e = (s'', done)) :
    if done then ∃ o, s.Fresh o ∧ o = { e.obj with fileRef := o.fileRef } ∧ s.Tracks p (t.bind i o) s''
    else s.Tracks p (t.unbind i) s'' := by
  rcases fdInstall_cases s' p i e with ⟨-, hf⟩ | ⟨ref, h1, -, hfree, -, hf⟩
  · obtain ⟨rfl, rfl⟩ := Prod.mk.inj (hf.symm.trans ha)
    exact h.clear i
  obtain ⟨rfl, rfl⟩ := Prod.mk.inj (hf.symm.trans ha)
  rw [if_pos rfl]
  have href : s.Tracks p t (s'.setFileRef ref { used := true, refs := 1 }) := by
    refine ⟨h.toShows.congr rfl rfl, fun j hj => ?_⟩
    unfold FdState.setFileRef
    dsimp only
    by_cases hj' : j = ref
    · rw [hj', update_self]
    · rw [update_of_ne hj']
      exact h.refs j hj
  refine ⟨{ e.obj with fileRef := ref }, ⟨h1, ?_⟩, rfl, href.setFd i { e with used := true, fileRef := ref }⟩
  by_contra hu
  have hused := h.refs ref (by simpa using hu)
  rw [hfree] at hused
  simp at hused

end FdState.Tracks

end Parts

end EdgeOS
