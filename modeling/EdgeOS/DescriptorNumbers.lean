import EdgeOS.CallMeanings
import EdgeOS.SharedPosition
import EdgeOS.Task
import Mathlib.Data.Int.Interval

namespace EdgeOS

open Lib Function FdEntry FdState

/-!
Descriptor numbers over whole runs. Processes that started with the console on 0, 1 and 2 make
any of the calls on descriptors, in any order; what the tables hold is compared with the map of
open objects that the numbers stand for.
-/

/-- `do_sys_pidfd_open`; `known` says whether there is a task with number `target`. -/
def doSysPidfdOpen (s : FdState) (pid target : ℤ) (flags : BitVec 64) (known : Bool) : FdState × FdResult :=
  if flags ≠ 0 then (s, .error .einval)
  else if target ≤ 0 then (s, .error .einval)
  else if !known then (s, .error .esrch)
  else
    match allocSpecialFd s pid .pidfd target linuxOCloexec with
    | (s, some i) => (s, .ok i.val)
    | (s, none) => (s, .error .enomem)

/-- `do_sys_fstat`, less the record it fills; `null` says whether there is a buffer for it. -/
def doSysFstat (s : FdState) (pid fd : ℤ) (null copied : Bool) : FdState × FdResult :=
  if null then (s, .error .einval) else
  match fdProcWithStdio s pid with
  | (s, none) => (s, .error .ebadf)
  | (s, some p) =>
  match fdGet s p fd with
  | none => (s, .error .ebadf)
  | some _ => (s, if copied then .ok 0 else .error .efault)

/-- What can happen. The files are arguments of the calls that look at them: `fs` is whatever
they hold at the time. -/
inductive TableEvent (σ : Type)
  | call (cur : Caller) (c : FdCall)
  | pidfdOpen (cur : Caller) (target : ℤ) (flags : BitVec 64) (known : Bool)
  | fork (pid : ℤ) (cbs : FdIdx → List ℕ)
  | acceptCb (l : ℕ)
  | read (cur : Caller) (fd : ℤ) (fs : σ) (buf : ReadBuf) (elsewhere : Except Errno (List UInt8))
  | write (cur : Caller) (fd : ℤ) (fs : σ) (buf : UserBuf) (elsewhere : FdResult)
  | lseek (cur : Caller) (fd : ℤ) (off : BitVec 64) (whence : ℤ)
  | fstat (cur : Caller) (fd : ℤ) (null copied : Bool)

namespace FdKernel

variable {σ : Type} (vfs : Vfs σ) (reads : VfsReads σ) (k : FdKernel)

def calls (pid : ℤ) (s : FdState) : FdKernel := if k.exists pid then { k with fds := s } else k

/-- One event. A fork needs a task slot; no process of these runs exits. -/
def tableStep : TableEvent σ → FdKernel
  | .call cur c => k.step (.call cur c)
  | .pidfdOpen cur target flags known =>
    k.calls cur.pid (doSysPidfdOpen k.fds cur.pid target flags known).1
  | .fork pid cbs => if k.nextPid ≤ procMaxTasks then k.step (.fork pid cbs) else k
  | .acceptCb l => k.step (.acceptCb l)
  | .read cur fd fs buf elsewhere =>
    k.calls cur.pid (doSysFdRead reads k.fds fs cur.pid fd buf elsewhere).1
  | .write cur fd fs buf elsewhere =>
    k.calls cur.pid (doSysFdWrite vfs k.fds fs cur.pid fd buf elsewhere).1
  | .lseek cur fd off whence => k.calls cur.pid (doSysLseek k.fds cur.pid fd off whence).1
  | .fstat cur fd null copied => k.calls cur.pid (doSysFstat k.fds cur.pid fd null copied).1

def table (pid : ℤ) : FdTable :=
  match findProc k.fds pid with
  | some p => k.fds.table p
  | none => fun _ => none

/-- No number of any process is bound to `o`. -/
def New (o : OpenObj) : Prop := ∀ pid i, k.table pid i ≠ some o

/-- All maps but that of `pid` stay as they are. -/
def Keeps (k' : FdKernel) (pid : ℤ) : Prop := ∀ q, q ≠ pid → k'.table q = k.table q

/-- An event does to the maps what the calls mean, and a call that looks at a descriptor fails
with `EBADF` on a number that is not bound. -/
def FollowsMap (e : TableEvent σ) : Prop :=
  let k' := k.tableStep vfs reads e
  match e with
  | .call cur c => k.exists cur.pid = true →
    c.Meaning k.New (k.table cur.pid) (k'.table cur.pid) (c.numbers k.fds cur) ∧ k.Keeps k' cur.pid
  | .pidfdOpen cur target flags known => k.exists cur.pid = true →
    Numbers.Assigns ((doSysPidfdOpen k.fds cur.pid target flags known).2.map fun r => [r])
      (k.table cur.pid) (k'.table cur.pid) ((k.table cur.pid).OpensOne (k'.table cur.pid) fun o =>
        k.New o ∧ o.kind = .pidfd ∧ o.pipeId = target) ∧ k.Keeps k' cur.pid
  | .fork pid _ => k.exists pid = true → k.nextPid ≤ procMaxTasks →
    k'.table k.nextPid = k.table pid ∧ k.Keeps k' k.nextPid
  | .acceptCb _ => ∀ pid, k'.table pid = k.table pid
  | .read cur fd fs buf elsewhere => k.exists cur.pid = true →
    (∀ pid, k'.table pid = k.table pid) ∧ ((k.table cur.pid).Unbound fd →
      (doSysFdRead reads k.fds fs cur.pid fd buf elsewhere).2 = .error .ebadf)
  | .write cur fd fs buf elsewhere => k.exists cur.pid = true →
    (∀ pid, k'.table pid = k.table pid) ∧ ((k.table cur.pid).Unbound fd →
      (doSysFdWrite vfs k.fds fs cur.pid fd buf elsewhere).2.2 = .error .ebadf)
  | .lseek cur fd off whence => k.exists cur.pid = true →
    (∀ pid, k'.table pid = k.table pid) ∧ ((k.table cur.pid).Unbound fd →
      (doSysLseek k.fds cur.pid fd off whence).2 = .error .ebadf)
  | .fstat cur fd null copied => k.exists cur.pid = true →
    (∀ pid, k'.table pid = k.table pid) ∧ ((k.table cur.pid).Unbound fd →
      (doSysFstat k.fds cur.pid fd null copied).2 = .error .ebadf)

/-- The calls of these runs leave a process its table; no `close` is of a standard descriptor,
and a call on a number that is not bound comes with a buffer. -/
def StdioOpen : TableEvent σ → Prop
  | .call _ c => (∀ loaded window, c ≠ .execve loaded window ∧ c ≠ .release window) ∧
    ∀ fd window, c = .close fd window → fd < 0 ∨ 2 < fd
  | .read cur fd _ buf _ => (k.table cur.pid).Unbound fd → buf.null = false ∧ buf.len ≠ 0
  | .write cur fd _ buf _ => (k.table cur.pid).Unbound fd → buf.null = false ∧ buf.data ≠ []
  | .fstat cur fd null _ => (k.table cur.pid).Unbound fd → null = false
  | _ => True

end FdKernel

/-- The first process has made its first call: it has the console on 0, 1 and 2. -/
def stdioKernel : FdKernel := { fds := (fdProcWithStdio {} 1).1 }

/-! ## Fork -/

section Fork

variable {R : Prop} {N : ℤ} {F : Holders} {G : ℕ → ℕ} {s : FdState} {p q : FdProcIdx} {i : FdIdx}
variable {pid : ℤ}

theorem FdState.OneTable.findProc (h : s.OneTable) (hp : s.procPid p = pid) (h0 : pid ≠ 0) :
    findProc s pid = some p := by
  cases hf : EdgeOS.findProc s pid with
  | none => exact absurd hp (findProc_none hf p)
  | some r =>
    have hr := findProc_some hf
    rw [h r p (hr.trans hp.symm) (by rw [hr]; exact h0)]

/-- One round of `fd_clone_after_fork` copies what one number is bound to. -/
theorem cloneFd_table (cbs : FdIdx → List ℕ) (h : FdInv R N F G s)
    (href : (s.fds (p, i)).used = true → 1 ≤ (s.fds (p, i)).fileRef)
    (hfree : (s.fds (q, i)).used = false) :
    (cloneFd p q cbs s i).table q = update (s.table q) i (s.table p i) := by
  have hobjs : table { s with objs := edgeTcpAcceptCbs s.objs (cbs i) } q = s.table q := rfl
  unfold cloneFd
  dsimp only
  split
  · rename_i hu
    have hnone : s.table p i = none := table_eq_none.mpr (by simpa using hu)
    have hnone' : s.table q i = none := table_eq_none.mpr hfree
    rw [hobjs, hnone, ← hnone', update_eq_self]
  rename_i hu
  have hu : (s.fds (p, i)).used = true := by simpa using hu
  have hshown : (s.fds (p, i)).shown = s.table p i := rfl
  have hacc := h.acceptCbs (cbs i)
  have hpos : (s.fds (p, i)).fileRef > 0 := href hu
  rw [if_pos hpos]
  obtain ⟨s2, hg⟩ := hacc.fileRefGet_some (x := (p, i)) hu (href hu)
  rw [hg]
  obtain ⟨hf, -, -⟩ := fileRefGet_frame hg
  dsimp only
  rw [table_setFd, hshown]
  have hsame : table { s2 with objs := fdAddRef s2.objs (s.fds (p, i)).kind (s.fds (p, i)).pipeId } q
      = s.table q := by
    funext j
    exact congrArg shown (congrFun hf (q, j))
  rw [hsame]

theorem cloneFds_table (cbs : FdIdx → List ℕ) (hpq : p ≠ q) (l : List FdIdx) (hnd : l.Nodup) (h : FdInv R N F G s)
    (hq : s.procPid q ≠ 0) (href : ∀ i, (s.fds (p, i)).used = true → 1 ≤ (s.fds (p, i)).fileRef)
    (hfree : ∀ i ∈ l, (s.fds (q, i)).used = false) (i : FdIdx) :
    (l.foldl (cloneFd p q cbs) s).table q i = if i ∈ l then s.table p i else s.table q i := by
  induction l generalizing s with
  | nil => simp
  | cons j l ih =>
    obtain ⟨hj, hnd⟩ := List.nodup_cons.mp hnd
    obtain ⟨hother, hpid⟩ := FdInv.cloneFd_frame p q cbs s j
    have hparent : ∀ i, (cloneFd p q cbs s j).fds (p, i) = s.fds (p, i) := by
      intro i
      apply hother
      simp [hpq]
    have hround := cloneFd_table cbs h (href j) (hfree j (by simp))
    rw [List.foldl_cons, ih hnd (h.cloneFd hq (hfree j (by simp))) (by rw [hpid]; exact hq)]
    · have htable : (cloneFd p q cbs s j).table p i = s.table p i :=
        congrArg shown (hparent i)
      rw [htable, hround]
      by_cases hij : i = j
      · subst hij
        simp [hj]
      · simp [hij]
    · intro i
      rw [hparent i]
      exact href i
    · intro i hi
      have hij : i ≠ j := by
        rintro rfl
        exact hj hi
      rw [hother (q, i) (by simp [hij])]
      exact hfree i (by simp [hi])

/-- A fork gives the child a table of its own with what the parent's numbers are bound to. -/
theorem fdCloneAfterFork_table (cbs : FdIdx → List ℕ) (h : FdInv R N 0 G s) (hN : 0 < N) (hr : s.Ready pid p)
    (hpid : pid ≠ 0) (href : ∀ x, (s.fds x).used = true → 1 ≤ (s.fds x).fileRef)
    (hq : findProc s 0 = some q) :
    (fdCloneAfterFork s pid N cbs).procPid = update s.procPid q N ∧
      (fdCloneAfterFork s pid N cbs).table q = s.table p := by
  have hp := findProc_some hr.proc
  have hq0 := findProc_some hq
  have hpq : p ≠ q := by
    rintro rfl
    omega
  have hpN : pid ≠ N := by
    have := h.known p
    omega
  have hnone : findProc s N = none := by
    cases hf : findProc s N with
    | none => rfl
    | some r =>
      have := h.known r
      rw [findProc_some hf] at this
      omega
  unfold fdCloneAfterFork
  rw [hr.proc]
  dsimp only
  rw [if_neg (by omega)]
  unfold fdProcForPid
  rw [hnone]
  dsimp only
  rw [hq]
  dsimp only
  -- The table is made with standard descriptors and cleared again.
  have hself : (s.clearProc q N).procPid q = N := update_self _ _ _
  have h1 : FdInv R (N + 1) 0 G (s.clearProc q N) :=
    h.clearEmpty (by omega) (by omega) fun i => h.owned (q, i) hq0
  obtain ⟨h2, -, hprocs⟩ := h1.stdioRounds (p := q) (by omega) true [0, 1, 2]
  obtain ⟨hkinds, -⟩ := stdioRounds_kinds (s := s.clearProc q N) (p := q) [0, 1, 2] true
    fun i hu => by
      rw [clearProc_unused] at hu
      simp at hu
  have h3 := h2.clearProc le_rfl (show N < N + 1 by omega) hkinds
  have hframe := (fdEnsureStdio_frame (p := q) hself).1.others
  have hparent : ∀ i, (fdEnsureStdio (s.clearProc q N) q).fds (p, i) = s.fds (p, i) := by
    intro i
    have hother : (s.clearProc q N).procPid p = s.procPid p := update_of_ne hpq _ _
    have hproc : (fdEnsureStdio (s.clearProc q N) q).procPid p = pid := by
      rw [(fdEnsureStdio_frame (p := q) hself).2.1, hother, hp]
    rw [(hframe.kept p (by rw [hproc]; exact hpN) (by rw [hproc]; exact hpid)).2 i]
    simp [clearProc, hpq]
  have hcleared : ∀ i, ((fdEnsureStdio (s.clearProc q N) q).clearProc q N).fds (p, i) = s.fds (p, i) := by
    intro i
    rw [← hparent i]
    simp [clearProc, hpq]
  refine ⟨?_, ?_⟩
  · have hfold : ∀ (l : List FdIdx) (s1 : FdState), (l.foldl (cloneFd p q cbs) s1).procPid = s1.procPid := by
      intro l
      induction l with
      | nil => exact fun _ => rfl
      | cons j l ih =>
        intro s1
        rw [List.foldl_cons, ih, (FdInv.cloneFd_frame p q cbs s1 j).2]
    rw [hfold]
    change update (fdEnsureStdio (s.clearProc q N) q).procPid q N = _
    rw [(fdEnsureStdio_frame (p := q) hself).2.1]
    change update (update s.procPid q N) q N = _
    rw [update_idem]
  · funext i
    have hsame : ∀ j, (((fdEnsureStdio (s.clearProc q N) q).clearProc q N).fds (p, j)).used = true →
        1 ≤ (((fdEnsureStdio (s.clearProc q N) q).clearProc q N).fds (p, j)).fileRef := by
      intro j
      rw [hcleared j]
      exact href (p, j)
    have hchild : ((fdEnsureStdio (s.clearProc q N) q).clearProc q N).procPid q ≠ 0 := by
      have hown : ((fdEnsureStdio (s.clearProc q N) q).clearProc q N).procPid q = N :=
        update_self _ _ _
      omega
    have hall := cloneFds_table cbs hpq _ (List.nodup_finRange _) h3 hchild hsame
      (fun j _ => clearProc_unused _ _ _ j) i
    rw [if_pos (List.mem_finRange i)] at hall
    refine hall.trans ?_
    exact congrArg shown (hcleared i)

end Fork

/-! ## Runs -/

section Meanings

variable {new new' : OpenObj → Prop} {t t' : FdTable} {out : Numbers} {P P' : List ℕ → Prop}

theorem Numbers.Assigns.imp (h : out.Assigns t t' P) (hP : ∀ ns, P ns → P' ns) : out.Assigns t t' P' := by
  cases out with
  | error err => exact h
  | ok ns => exact hP ns h

theorem FdTable.OpensOne.imp {Q Q' : OpenObj → Prop} (hQ : ∀ o, Q o → Q' o) (ns : List ℕ)
    (h : t.OpensOne t' Q ns) : t.OpensOne t' Q' ns := by
  obtain ⟨i, o, hi, hns, ht, ho⟩ := h
  exact ⟨i, o, hi, hns, ht, hQ o ho⟩

theorem FdCall.Meaning.mono (hnew : ∀ o, new o → new' o) {c : FdCall} (h : c.Meaning new t t' out) :
    c.Meaning new' t t' out := by
  have hand : ∀ {p : OpenObj → Prop} (o : OpenObj), new o ∧ p o → new' o ∧ p o :=
    fun o h => ⟨hnew o h.1, h.2⟩
  cases c with
  | pipe flags copied =>
    refine Numbers.Assigns.imp h fun ns hns => ?_
    obtain ⟨i, j, o, o', hi, hj, hns, ht, ho, ho', hrest⟩ := hns
    exact ⟨i, j, o, o', hi, hj, hns, ht, hnew o ho, hnew o' ho', hrest⟩
  | socketpair nonblock cloexec copied window window' later =>
    refine Numbers.Assigns.imp h fun ns hns => ?_
    obtain ⟨i, j, o, o', hi, hj, hns, ht, ho, ho', hrest⟩ := hns
    exact ⟨i, j, o, o', hi, hj, hns, ht, hnew o ho, hnew o' ho', hrest⟩
  | signalfd4 fd flags =>
    refine Numbers.Assigns.imp h fun ns hns => ?_
    split_ifs at hns ⊢
    · exact hns.imp hand ns
    · exact hns
  | socket => exact Numbers.Assigns.imp h fun ns hns => hns.imp hand ns
  | accept => exact Numbers.Assigns.imp h fun ns hns => hns.imp hand ns
  | accept4 => exact Numbers.Assigns.imp h fun ns hns => hns.imp hand ns
  | openat => exact Numbers.Assigns.imp h fun ns hns => hns.imp hand ns
  | eventfd2 => exact Numbers.Assigns.imp h fun ns hns => hns.imp hand ns
  | timerfdCreate => exact Numbers.Assigns.imp h fun ns hns => hns.imp hand ns
  | epollCreate1 => exact Numbers.Assigns.imp h fun ns hns => hns.imp hand ns
  | dupfd | dup2 | dup3 | close | listen | setfd | setfl | ptyLock | execve | release => exact h

/-- Nothing is unbound, and what is bound was bound before or is new. -/
structure FdTable.Grows (new : OpenObj → Prop) (t t' : FdTable) : Prop where
  keeps : ∀ i, t i ≠ none → t' i ≠ none
  from_ : ∀ i o, t' i = some o → (∃ j, t j = some o) ∨ new o

theorem FdTable.Grows.refl (new : OpenObj → Prop) (t : FdTable) : t.Grows new t :=
  ⟨fun _ h => h, fun i _ h => .inl ⟨i, h⟩⟩

theorem FdTable.Grows.bind {i : FdIdx} {o : OpenObj} (h : t.Grows new t')
    (ho : (∃ j, t j = some o) ∨ new o) : t.Grows new (t'.bind i o) := by
  refine ⟨fun j hj => ?_, fun j o' hj => ?_⟩
  all_goals by_cases hji : j = i
  · subst hji
    simp
  · rw [bind_of_ne hji]
    exact h.keeps j hj
  · subst hji
    rw [bind_self] at hj
    rw [← Option.some.inj hj]
    exact ho
  · rw [bind_of_ne hji] at hj
    exact h.from_ j o' hj

theorem Numbers.Assigns.grows (h : out.Assigns t t' P) (hP : ∀ ns, P ns → t.Grows new t') : t.Grows new t' := by
  cases out with
  | error err =>
    obtain rfl : t' = t := h
    exact .refl new t'
  | ok ns => exact hP ns h

theorem FdTable.OpensOne.grows {Q : OpenObj → Prop} (hQ : ∀ o, Q o → new o) (ns : List ℕ)
    (h : t.OpensOne t' Q ns) : t.Grows new t' := by
  obtain ⟨i, o, -, -, rfl, ho⟩ := h
  exact (FdTable.Grows.refl new t).bind (.inr (hQ o ho))

theorem FdTable.Copies.grows {fd : ℤ} {j : FdIdx} (h : t.Copies t' fd j) : t.Grows new t' := by
  obtain ⟨i, o, -, ho, rfl⟩ := h
  exact (FdTable.Grows.refl new t).bind (.inl ⟨i, ho⟩)

theorem FdCall.Meaning.grows {c : FdCall} (h : c.Meaning new t t' out) (hclose : ∀ fd window, c ≠ .close fd window)
    (hc : ∀ loaded window, c ≠ .execve loaded window ∧ c ≠ .release window) : t.Grows new t' := by
  cases c with
  | pipe flags copied =>
    refine Numbers.Assigns.grows h fun ns hns => ?_
    obtain ⟨i, j, o, o', -, -, -, rfl, ho, ho', -⟩ := hns
    exact ((FdTable.Grows.refl new t).bind (.inr ho)).bind (.inr ho')
  | socketpair nonblock cloexec copied window window' later =>
    refine Numbers.Assigns.grows h fun ns hns => ?_
    obtain ⟨i, j, o, o', -, -, -, rfl, ho, ho', -⟩ := hns
    exact ((FdTable.Grows.refl new t).bind (.inr ho)).bind (.inr ho')
  | signalfd4 fd flags =>
    refine Numbers.Assigns.grows h fun ns hns => ?_
    split_ifs at hns
    · exact hns.grows (fun o ho => ho.1) ns
    · obtain ⟨rfl, -⟩ := hns
      exact .refl new t'
  | socket => exact Numbers.Assigns.grows h fun ns hns => hns.grows (fun o ho => ho.1) ns
  | accept => exact Numbers.Assigns.grows h fun ns hns => hns.grows (fun o ho => ho.1) ns
  | accept4 => exact Numbers.Assigns.grows h fun ns hns => hns.grows (fun o ho => ho.1) ns
  | openat => exact Numbers.Assigns.grows h fun ns hns => hns.grows (fun o ho => ho.1) ns
  | eventfd2 => exact Numbers.Assigns.grows h fun ns hns => hns.grows (fun o ho => ho.1) ns
  | timerfdCreate => exact Numbers.Assigns.grows h fun ns hns => hns.grows (fun o ho => ho.1) ns
  | epollCreate1 => exact Numbers.Assigns.grows h fun ns hns => hns.grows (fun o ho => ho.1) ns
  | dupfd fd minfd cloexec =>
    refine Numbers.Assigns.grows h fun ns hns => ?_
    obtain ⟨j, -, -, hcopy⟩ := hns
    exact hcopy.grows
  | dup2 oldfd newfd window =>
    refine Numbers.Assigns.grows h fun ns hns => ?_
    obtain ⟨j, -, -, hcopy⟩ := hns
    exact hcopy.grows
  | dup3 oldfd newfd flags window =>
    refine Numbers.Assigns.grows h fun ns hns => ?_
    obtain ⟨j, -, -, hcopy⟩ := hns
    exact hcopy.grows
  | listen | setfd | setfl | ptyLock =>
    obtain rfl : t' = t := h
    exact .refl new t'
  | close fd window => exact absurd rfl (hclose fd window)
  | execve loaded window => exact absurd rfl (hc loaded window).1
  | release window => exact absurd rfl (hc true window).2

/-- What a call may do to the numbers below 3 and to the objects of a map. -/
theorem FdCall.Meaning.bound {c : FdCall} (h : c.Meaning new t t' out)
    (hc : ∀ loaded window, c ≠ .execve loaded window ∧ c ≠ .release window)
    (hlow : ∀ fd window, c = .close fd window → fd < 0 ∨ 2 < fd) :
    (∀ i : FdIdx, i.val ≤ 2 → t i ≠ none → t' i ≠ none) ∧ ∀ i o, t' i = some o → (∃ j, t j = some o) ∨ new o := by
  by_cases hclose : ∃ fd window, c = .close fd window
  · obtain ⟨fd, window, rfl⟩ := hclose
    rcases h with ⟨-, -, rfl⟩ | ⟨i, hi, -, -, rfl⟩
    · exact ⟨fun _ _ h => h, fun i _ h => .inl ⟨i, h⟩⟩
    have hrange := hlow fd window rfl
    refine ⟨fun j hj hb => ?_, fun j o hj => ?_⟩
    · have hji : j ≠ i := by
        rintro rfl
        omega
      unfold FdTable.unbind
      rw [update_of_ne hji]
      exact hb
    · unfold FdTable.unbind at hj
      by_cases hji : j = i
      · subst hji
        rw [update_self] at hj
        simp at hj
      · rw [update_of_ne hji] at hj
        exact .inl ⟨j, hj⟩
  · have hg := h.grows (fun fd window heq => hclose ⟨fd, window, heq⟩) hc
    exact ⟨fun i _ hb => hg.keeps i hb, hg.from_⟩

end Meanings

/-! ## The invariant -/

namespace FdKernel

/-- Every process has one table, with its first three numbers bound, and every descriptor has a
file reference of its own or shared. -/
structure Numbered (k : FdKernel) : Prop where
  refs : ∃ G, FdInv False k.nextPid 0 G k.fds
  one : k.fds.OneTable
  ready : ∀ pid, k.exists pid = true → ∃ p, k.fds.Ready pid p
  named : ∀ x, (k.fds.fds x).used = true → 1 ≤ (k.fds.fds x).fileRef
  owners : ∀ p, 0 ≤ k.fds.procPid p
  pos : 0 < k.nextPid

section Steps

variable {k : FdKernel} {pid : ℤ} {p : FdProcIdx} {s : FdState}

theorem exists_iff : k.exists pid = true ↔ 0 < pid ∧ pid < k.nextPid := by
  simp [FdKernel.exists]

theorem calls_eq (h : k.exists pid = true) (s : FdState) : k.calls pid s = { k with fds := s } :=
  if_pos h

theorem table_eq (h : k.fds.Ready pid p) : k.table pid = k.fds.table p := by
  unfold table
  rw [h.proc]

/-- An object that some number is bound to has a file reference that is in use. -/
theorem Numbered.new (h : k.Numbered) {o : OpenObj} (ho : k.fds.Fresh o) : k.New o := by
  obtain ⟨G, hG⟩ := h.refs
  intro pid i hbound
  unfold table at hbound
  cases hp : findProc k.fds pid with
  | none =>
    rw [hp] at hbound
    simp at hbound
  | some p =>
    rw [hp] at hbound
    dsimp only [FdState.table, shown] at hbound
    split at hbound
    · rename_i hu
      have heq := Option.some.inj hbound
      have href : (k.fds.fds (p, i)).fileRef = o.fileRef := by
        rw [← heq]
        rfl
      have hused := hG.fileRef_used hu (h.named (p, i) hu)
      rw [href, ho.2] at hused
      simp at hused
    · simp at hbound

theorem table_zero {G : ℕ → ℕ} (hG : FdInv False k.nextPid 0 G k.fds) : k.table 0 = fun _ => none := by
  funext i
  unfold table
  cases hp : findProc k.fds 0 with
  | none => rfl
  | some p => exact table_eq_none.mpr (hG.owned (p, i) (findProc_some hp))

/-- What a call of a process leaves of the maps of the others. -/
theorem keeps_of_others {G G' : ℕ → ℕ} (hG : FdInv False k.nextPid 0 G k.fds)
    (hG' : FdInv False k.nextPid 0 G' s) (hp : s.procPid = k.fds.procPid)
    (ho : k.fds.Others pid s) : k.Keeps { k with fds := s } pid := by
  intro q hq
  by_cases h0 : q = 0
  · rw [h0, table_zero hG, table_zero (k := { k with fds := s }) hG']
  have hproc : findProc s q = findProc k.fds q := by
    unfold findProc
    rw [hp]
  unfold table
  dsimp only
  rw [hproc]
  cases hr : findProc k.fds q with
  | none => rfl
  | some r =>
    have hr := findProc_some hr
    funext i
    have hsame := (ho.kept r (by rw [hp, hr]; exact hq) (by rw [hp, hr]; exact h0)).2 i
    exact congrArg shown hsame

/-- A call that changes the table of its process in an admitted way keeps the invariant. -/
theorem Numbered.own {G : ℕ → ℕ} (h : k.Numbered) (hr : k.fds.Ready pid p)
    (hG : FdInv False k.nextPid 0 G s) (hp : s.procPid = k.fds.procPid)
    (ho : k.fds.Others pid s)
    (hlow : ∀ i : FdIdx, i.val ≤ 2 → k.fds.table p i ≠ none → s.table p i ≠ none)
    (hfrom : ∀ i o, s.table p i = some o → (∃ j, k.fds.table p j = some o) ∨ k.fds.Fresh o) :
    Numbered { k with fds := s } ∧ k.Keeps { k with fds := s } pid := by
  obtain ⟨G0, hG0⟩ := h.refs
  have hself := findProc_some hr.proc
  have hother : ∀ q : FdProcIdx, q ≠ p → s.procPid q ≠ 0 → ∀ i, s.fds (q, i) = k.fds.fds (q, i) := by
    intro q hq h0
    refine (ho.kept q ?_ h0).2
    intro heq
    rw [hp] at heq h0
    exact hq (h.one q p (heq.trans hself.symm) h0)
  refine ⟨⟨⟨G, hG⟩, ho.oneTable h.one, fun pid' hex => ?_, fun x hu => ?_, ?_, h.pos⟩, keeps_of_others hG0 hG hp ho⟩
  · obtain ⟨q, hq⟩ := h.ready pid' hex
    have hqpid := findProc_some hq.proc
    have hproc : findProc s pid' = some q := by
      have := hq.proc
      unfold findProc at this ⊢
      rw [hp]
      exact this
    refine ⟨q, hproc, fun i hi => ?_⟩
    by_cases hqp : q = p
    · subst hqp
      exact hlow i hi (hq.low i hi)
    have h0 : s.procPid q ≠ 0 := by
      rw [hp, hqpid]
      have := (exists_iff.mp hex).1
      omega
    have hsame : s.table q i = k.fds.table q i := congrArg shown (hother q hqp h0 i)
    change s.table q i ≠ none
    rw [hsame]
    exact hq.low i hi
  · obtain ⟨q, i⟩ := x
    change (s.fds (q, i)).used = true at hu
    change 1 ≤ (s.fds (q, i)).fileRef
    by_cases hqp : q = p
    · subst hqp
      have hshown : s.table q i = some (s.fds (q, i)).obj := by
        unfold FdState.table shown
        rw [if_pos hu]
      rcases hfrom i _ hshown with ⟨j, hj⟩ | hnew
      · unfold FdState.table shown at hj
        split at hj
        · rename_i huj
          have href : (k.fds.fds (q, j)).fileRef = (s.fds (q, i)).fileRef :=
            congrArg OpenObj.fileRef (Option.some.inj hj)
          rw [← href]
          exact h.named (q, j) huj
        · simp at hj
      · exact hnew.1
    · have h0 : s.procPid q ≠ 0 := by
        intro h0
        rw [hG.owned (q, i) h0] at hu
        simp at hu
      rw [hother q hqp h0 i] at hu ⊢
      exact h.named (q, i) hu
  · intro q
    change 0 ≤ s.procPid q
    rw [hp]
    exact h.owners q

theorem Numbered.call (h : k.Numbered) {cur : Caller} (hex : k.exists cur.pid = true) (c : FdCall)
    (hc : ∀ loaded window, c ≠ .execve loaded window ∧ c ≠ .release window)
    (hlow : ∀ fd window, c = .close fd window → fd < 0 ∨ 2 < fd) :
    Numbered { k with fds := c.apply k.fds cur } ∧
      c.Meaning k.New (k.table cur.pid) (table { k with fds := c.apply k.fds cur } cur.pid)
        (c.numbers k.fds cur) ∧ k.Keeps { k with fds := c.apply k.fds cur } cur.pid := by
  obtain ⟨p, hr⟩ := h.ready cur.pid hex
  obtain ⟨G, hG⟩ := h.refs
  obtain ⟨hpos, hN⟩ := exists_iff.mp hex
  obtain ⟨hprocs, hmean⟩ := FdCall.meaning hr hG h.named c hc
  obtain ⟨G', hG', -⟩ := hG.call hpos hN c fun hf => hf.elim
  obtain ⟨hkeep, hfrom⟩ := hmean.bound hc hlow
  obtain ⟨hnum, hkeeps⟩ := h.own hr hG' hprocs (FdCall.frame k.fds cur c).2.1 hkeep hfrom
  have hr' : FdState.Ready (c.apply k.fds cur) cur.pid p := by
    refine ⟨?_, fun i hi => hkeep i hi (hr.low i hi)⟩
    have := hr.proc
    unfold findProc at this ⊢
    rw [hprocs]
    exact this
  refine ⟨hnum, ?_, hkeeps⟩
  rw [table_eq hr, table_eq (k := { k with fds := c.apply k.fds cur }) hr']
  exact hmean.mono fun o => h.new

theorem Numbered.still {G : ℕ → ℕ} (h : k.Numbered) (hr : k.fds.Ready pid p)
    (hG : FdInv False k.nextPid 0 G s) (hs : k.fds.Shows p (k.fds.table p) s)
    (ho : k.fds.Others pid s) :
    Numbered { k with fds := s } ∧ ∀ q, table { k with fds := s } q = k.table q := by
  obtain ⟨hnum, hkeeps⟩ := h.own hr hG hs.procs ho (fun i _ hb => by rw [hs.table]; exact hb)
    fun i o hb => .inl ⟨i, by rw [← hs.table]; exact hb⟩
  refine ⟨hnum, fun q => ?_⟩
  by_cases hq : q = pid
  · subst hq
    have hr' : FdState.Ready s q p := hr.shows hs hr.low
    rw [table_eq hr, table_eq (k := { k with fds := s }) hr']
    exact hs.table
  · exact hkeeps q hq

/-- A read, a write or a seek moves one descriptor, which does not show. -/
theorem Numbered.touched (h : k.Numbered) (hex : k.exists pid = true) {fd : ℤ}
    {still : FdEntry → Prop} (ht : Touched k.fds s pid fd still) :
    Numbered { k with fds := s } ∧ ∀ q, table { k with fds := s } q = k.table q := by
  obtain ⟨p, hr⟩ := h.ready pid hex
  obtain ⟨G, hG⟩ := h.refs
  obtain ⟨hpos, hN⟩ := exists_iff.mp hex
  have hseen : seenBy k.fds pid = k.fds := by
    unfold seenBy
    rw [hr.stdio]
  have hinv := hG.touched hpos hN ht
  have hsame := (FdState.Tracks.refl k.fds p).toShows
  rcases ht with rfl | rfl | ⟨q, i, d, hslot, ⟨pos, size, rfl⟩, rfl, -⟩
  · exact h.still hr hinv hsame (CallFrame.refl pid _).others
  · rw [hseen] at hinv ⊢
    exact h.still hr hinv hsame (CallFrame.refl pid _).others
  · rw [hseen] at hinv ⊢
    obtain rfl : p = q := by
      unfold slotOf at hslot
      rw [hr.stdio] at hslot
      obtain ⟨_, -, heq⟩ := Option.map_eq_some_iff.mp hslot
      exact congrArg Prod.fst heq
    exact h.still hr hinv (hsame.setFlags i _ rfl) (.setFd (findProc_some hr.proc) _)

theorem fdGet_none (hr : k.fds.Ready pid p) {fd : ℤ} (h : (k.table pid).Unbound fd) : fdGet k.fds p fd = none := by
  cases hg : fdGet k.fds p fd with
  | none => rfl
  | some i =>
    obtain ⟨hi, hb⟩ := fdGet_bound hg
    rw [table_eq hr] at h
    rw [h i hi] at hb
    simp at hb

/-- With a task slot left there is a table left: no two tables have the same process. -/
theorem Numbered.freeTable (h : k.Numbered) (hroom : k.nextPid ≤ procMaxTasks) : ∃ q, findProc k.fds 0 = some q := by
  obtain ⟨G, hG⟩ := h.refs
  cases hf : findProc k.fds 0 with
  | some q => exact ⟨q, rfl⟩
  | none =>
    exfalso
    have hmaps : ∀ q ∈ (Finset.univ : Finset FdProcIdx), k.fds.procPid q ∈ Finset.Ico 1 k.nextPid := by
      intro q _
      have h0 := findProc_none hf q
      have hpos := h.owners q
      rw [Finset.mem_Ico]
      exact ⟨by omega, hG.known q⟩
    have hcard : (Finset.Ico 1 k.nextPid).card < (Finset.univ : Finset FdProcIdx).card := by
      rw [Int.card_Ico, Finset.card_univ, Fintype.card_fin]
      have hmax : procMaxTasks = 64 := rfl
      have htab : edgeMaxFdProcs = 64 := rfl
      omega
    obtain ⟨q, -, r, -, hne, heq⟩ := Finset.exists_ne_map_eq_of_card_lt_of_maps_to hcard hmaps
    exact hne (h.one q r heq (findProc_none hf q))

/-- The tables after a fork: the child has the free table `q`, which shows what the table `p` of its parent shows, and
the others are as before. -/
structure Cloned (k : FdKernel) (p q : FdProcIdx) (s : FdState) : Prop where
  refs : ∃ G, FdInv False (k.nextPid + 1) 0 G s
  one : s.OneTable
  free : k.fds.procPid q = 0
  child : s.procPid q = k.nextPid
  same : ∀ r, r ≠ q → s.procPid r = k.fds.procPid r
  kept : ∀ r, r ≠ q → k.fds.procPid r ≠ 0 → ∀ i, s.fds (r, i) = k.fds.fds (r, i)
  copy : s.table q = k.fds.table p

section Clones

variable {q r : FdProcIdx}

theorem Cloned.findProc (hc : k.Cloned p q s) (hrq : r ≠ q) (hr : k.fds.procPid r = pid) (h0 : pid ≠ 0) :
    findProc s pid = some r := hc.one.findProc ((hc.same r hrq).trans hr) h0

theorem Cloned.ready (hc : k.Cloned p q s) (h : k.Numbered) (hp : k.fds.Ready pid p) {pid' : ℤ}
    (hex : FdKernel.exists ⟨s, k.nextPid + 1⟩ pid' = true) : ∃ r, s.Ready pid' r := by
  have hpos := h.pos
  have hfree := hc.free
  obtain ⟨hpos', hN'⟩ := exists_iff.mp hex
  have hN' : pid' < k.nextPid + 1 := hN'
  by_cases hlast : pid' = k.nextPid
  · subst hlast
    refine ⟨q, hc.one.findProc hc.child (by omega), fun i hi => ?_⟩
    rw [hc.copy]
    exact hp.low i hi
  obtain ⟨r, hr'⟩ := h.ready pid' (exists_iff.mpr ⟨hpos', by omega⟩)
  have hrpid := findProc_some hr'.proc
  have hrq : r ≠ q := by
    rintro rfl
    omega
  refine ⟨r, hc.findProc hrq hrpid (by omega), fun i hi => ?_⟩
  have hrow : s.table r i = k.fds.table r i := congrArg shown (hc.kept r hrq (by omega) i)
  rw [hrow]
  exact hr'.low i hi

theorem Cloned.named (hc : k.Cloned p q s) (h : k.Numbered) {i : FdIdx} (hu : (s.fds (r, i)).used = true) :
    1 ≤ (s.fds (r, i)).fileRef := by
  by_cases hrq : r = q
  · subst hrq
    have hcopy : k.fds.table p i = some (s.fds (r, i)).obj := by
      rw [← hc.copy]
      unfold FdState.table shown
      rw [if_pos hu]
    unfold FdState.table shown at hcopy
    split at hcopy
    · rename_i hup
      have href : (k.fds.fds (p, i)).fileRef = (s.fds (r, i)).fileRef :=
        congrArg OpenObj.fileRef (Option.some.inj hcopy)
      rw [← href]
      exact h.named (p, i) hup
    · simp at hcopy
  · obtain ⟨G, hG⟩ := hc.refs
    have h0 : k.fds.procPid r ≠ 0 := by
      intro h0
      rw [hG.owned (r, i) ((hc.same r hrq).trans h0)] at hu
      simp at hu
    rw [hc.kept r hrq h0 i] at hu ⊢
    exact h.named (r, i) hu

theorem Cloned.keeps (hc : k.Cloned p q s) (h : k.Numbered) : k.Keeps ⟨s, k.nextPid + 1⟩ k.nextPid := by
  intro pid' hpid'
  have hfree := hc.free
  obtain ⟨G, hG⟩ := h.refs
  obtain ⟨G', hG'⟩ := hc.refs
  by_cases h0 : pid' = 0
  · rw [h0, table_zero hG, table_zero (k := ⟨s, k.nextPid + 1⟩) hG']
  unfold table
  dsimp only
  cases hf : EdgeOS.findProc k.fds pid' with
  | some r =>
    have hrpid := findProc_some hf
    have hrq : r ≠ q := by
      rintro rfl
      omega
    rw [hc.findProc hrq hrpid h0]
    funext i
    exact congrArg shown (hc.kept r hrq (by omega) i)
  | none =>
    cases hf' : EdgeOS.findProc s pid' with
    | none => rfl
    | some r =>
      have hrpid := findProc_some hf'
      have hrq : r ≠ q := by
        rintro rfl
        exact hpid' (hrpid.symm.trans hc.child)
      rw [hc.same r hrq] at hrpid
      exact absurd hrpid (findProc_none hf r)

end Clones

theorem Numbered.fork (h : k.Numbered) (hex : k.exists pid = true) (hroom : k.nextPid ≤ procMaxTasks)
    (cbs : FdIdx → List ℕ) :
    Numbered (k.step (.fork pid cbs)) ∧ (k.step (.fork pid cbs)).table k.nextPid = k.table pid ∧
      k.Keeps (k.step (.fork pid cbs)) k.nextPid := by
  obtain ⟨p, hr⟩ := h.ready pid hex
  obtain ⟨G, hG⟩ := h.refs
  obtain ⟨hpos, hN⟩ := exists_iff.mp hex
  obtain ⟨q, hq⟩ := h.freeTable hroom
  obtain ⟨hprocs, htable⟩ := fdCloneAfterFork_table cbs hG h.pos hr (by omega) h.named hq
  obtain ⟨G', hG', -⟩ := hG.fdCloneAfterFork h.pos pid cbs
  have ho : k.fds.Others k.nextPid (fdCloneAfterFork k.fds pid k.nextPid cbs) :=
    (CallFrame.fdCloneAfterFork pid cbs).others
  have hstep : k.step (.fork pid cbs) = ⟨fdCloneAfterFork k.fds pid k.nextPid cbs, k.nextPid + 1⟩ := if_pos hex
  rw [hstep]
  generalize fdCloneAfterFork k.fds pid k.nextPid cbs = s at hprocs htable hG' ho
  have hsame : ∀ r, r ≠ q → s.procPid r = k.fds.procPid r := by
    intro r hrq
    rw [hprocs]
    exact update_of_ne hrq _ _
  have hkept : ∀ r, r ≠ q → k.fds.procPid r ≠ 0 → ∀ i, s.fds (r, i) = k.fds.fds (r, i) := by
    intro r hrq h0
    have hknown := hG.known r
    exact (ho.kept r (by rw [hsame r hrq]; omega) (by rw [hsame r hrq]; exact h0)).2
  have hc : k.Cloned p q s := ⟨⟨G', hG'⟩, ho.oneTable h.one, findProc_some hq, by rw [hprocs]; exact update_self _ _ _,
    hsame, hkept, htable⟩
  have hnext := h.pos
  refine ⟨⟨hc.refs, hc.one, fun _ hex' => hc.ready h hr hex', fun x hu => hc.named h hu, fun r => ?_, ?_⟩, ?_,
    hc.keeps h⟩
  · change 0 ≤ s.procPid r
    by_cases hrq : r = q
    · rw [hrq, hc.child]
      exact hnext.le
    · rw [hsame r hrq]
      exact h.owners r
  · change 0 < k.nextPid + 1
    omega
  · rw [table_eq hr]
    unfold table
    dsimp only
    rw [hc.one.findProc hc.child (by omega)]
    exact htable

theorem doSysPidfdOpen_answers {s : FdState} (hr : s.Ready pid p) (target : ℤ) (flags : BitVec 64) (known : Bool) :
    s.Answers p (doSysPidfdOpen s pid target flags known) (fun r => [r]) fun t' =>
      (s.table p).OpensOne t' fun o => s.Fresh o ∧ o.kind = .pidfd ∧ o.pipeId = target := by
  unfold doSysPidfdOpen
  split
  · exact .unchanged rfl rfl
  split
  · exact .unchanged rfl rfl
  split
  · exact .unchanged rfl rfl
  have hself := FdState.Tracks.refl s p
  split
  · rename_i i ha
    rcases allocSpecialFd_shows hself hr ha with ⟨hnone, -⟩ | ⟨j, o, hj, hnew, hkind, hlow, h2⟩
    · simp at hnone
    · obtain rfl := Option.some.inj hj
      exact .done h2 ⟨i, o, hlow, rfl, rfl, hnew, hkind⟩
  · rename_i ha
    rcases allocSpecialFd_shows hself hr ha with ⟨-, h2⟩ | ⟨j, -, hj, -⟩
    · exact .fail h2
    · simp at hj

theorem doSysPidfdOpen_inv {N : ℤ} {G : ℕ → ℕ} {s : FdState} (h : FdInv False N 0 G s) (hpos : 0 < pid)
    (hN : pid < N) (target : ℤ) (flags : BitVec 64) (known : Bool) :
    FdInv False N 0 G (doSysPidfdOpen s pid target flags known).1 ∧
      s.Others pid (doSysPidfdOpen s pid target flags known).1 := by
  have hkeep := (CallFrame.refl pid s).others
  unfold doSysPidfdOpen
  split
  · exact ⟨h, hkeep⟩
  split
  · exact ⟨h, hkeep⟩
  rename_i hpositive
  split
  · exact ⟨h, hkeep⟩
  obtain ⟨t, rfl⟩ : ∃ t : ℕ, target = t := ⟨target.toNat, by omega⟩
  have hplain : ∀ {F : Holders}, (∀ k i, F k i = oneRef .pidfd t k i) → ∀ k i, k.counted = true → F k i = 0 := by
    intro F hF k i hk
    rw [hF k i]
    refine if_neg ?_
    rintro ⟨rfl, -⟩
    simp [FdKind.counted] at hk
  have h0 : FdInv False N (0 + oneRef .pidfd t) G s :=
    h.congr (hplain fun k i => by rw [zero_add]) fun _ _ => rfl
  have hback : ∀ {s' : FdState} {r : Option FdIdx}, allocSpecialFd s pid .pidfd t linuxOCloexec = (s', r) →
      FdInv False N 0 G s' ∧ s.Others pid s' := by
    intro s' r ha
    refine ⟨?_, (CallFrame.allocSpecialFd ha (by simp)).others⟩
    refine (h0.allocSpecialFd (by simp) hpos hN ha).congr (fun k i hk => ?_) fun _ _ => rfl
    split
    · rfl
    · exact (hplain (fun k i => by rw [zero_add]) k i hk).symm
  split
  · rename_i ha
    exact hback ha
  · rename_i ha
    exact hback ha

theorem Numbered.pidfdOpen (h : k.Numbered) (hex : k.exists pid = true) (target : ℤ)
    (flags : BitVec 64) (known : Bool) :
    Numbered { k with fds := (doSysPidfdOpen k.fds pid target flags known).1 } ∧
      Numbers.Assigns ((doSysPidfdOpen k.fds pid target flags known).2.map fun r => [r]) (k.table pid)
        (table { k with fds := (doSysPidfdOpen k.fds pid target flags known).1 } pid)
        ((k.table pid).OpensOne
          (table { k with fds := (doSysPidfdOpen k.fds pid target flags known).1 } pid) fun o =>
            k.New o ∧ o.kind = .pidfd ∧ o.pipeId = target) ∧
      k.Keeps { k with fds := (doSysPidfdOpen k.fds pid target flags known).1 } pid := by
  obtain ⟨p, hr⟩ := h.ready pid hex
  obtain ⟨G, hG⟩ := h.refs
  obtain ⟨hpos, hN⟩ := exists_iff.mp hex
  obtain ⟨hG', ho⟩ := doSysPidfdOpen_inv hG hpos hN target flags known
  obtain ⟨t, hs, hP⟩ := doSysPidfdOpen_answers hr target flags known
  generalize doSysPidfdOpen k.fds pid target flags known = out at hG' ho hs hP ⊢
  have hgrow : (k.fds.table p).Grows k.fds.Fresh t :=
    Numbers.Assigns.grows hP fun ns hns => hns.grows (fun o ho => ho.1) ns
  obtain ⟨hnum, hkeeps⟩ := h.own hr hG' hs.procs ho
    (fun i _ hb => by rw [hs.table]; exact hgrow.keeps i hb)
    (fun i o hb => by rw [hs.table] at hb; exact hgrow.from_ i o hb)
  have hr' : FdState.Ready out.1 pid p := hr.shows hs fun i hi => hgrow.keeps i (hr.low i hi)
  refine ⟨hnum, ?_, hkeeps⟩
  rw [table_eq hr, table_eq (k := { k with fds := out.1 }) hr', hs.table]
  exact hP.imp fun ns hns => hns.imp (fun o ho => ⟨h.new ho.1, ho.2⟩) ns

theorem Numbered.acceptCb (h : k.Numbered) (l : ℕ) :
    Numbered (k.step (.acceptCb l)) ∧ ∀ pid, (k.step (.acceptCb l)).table pid = k.table pid := by
  obtain ⟨G, hG⟩ := h.refs
  refine ⟨⟨⟨G, hG.acceptCbs [l]⟩, h.one, fun pid hex => ?_, h.named, h.owners, h.pos⟩, fun pid => rfl⟩
  obtain ⟨p, hr⟩ := h.ready pid hex
  exact ⟨p, hr.congr rfl rfl⟩

end Steps

/-! ## Runs -/

section Runs

variable {σ : Type} {vfs : Vfs σ} {reads : VfsReads σ} {k : FdKernel}

/-- One admitted event keeps the invariant and follows the map. -/
theorem Numbered.tableStep (h : k.Numbered) (e : TableEvent σ) (hok : k.StdioOpen e) :
    Numbered (k.tableStep vfs reads e) ∧ k.FollowsMap vfs reads e := by
  unfold FdKernel.tableStep FollowsMap
  cases e with
  | call cur c =>
    dsimp only [FdKernel.tableStep, FdKernel.step]
    split
    · rename_i hex
      obtain ⟨hnum, hmean, hkeeps⟩ := h.call hex c hok.1 hok.2
      exact ⟨hnum, fun _ => ⟨hmean, hkeeps⟩⟩
    · rename_i hex
      exact ⟨h, fun h => absurd h hex⟩
  | pidfdOpen cur target flags known =>
    dsimp only [FdKernel.tableStep]
    by_cases hex : k.exists cur.pid = true
    · rw [calls_eq hex]
      obtain ⟨hnum, hmean, hkeeps⟩ := h.pidfdOpen hex target flags known
      exact ⟨hnum, fun _ => ⟨hmean, hkeeps⟩⟩
    · exact ⟨by rw [calls, if_neg hex]; exact h, fun h => absurd h hex⟩
  | fork pid cbs =>
    dsimp only [FdKernel.tableStep]
    split
    · rename_i hroom
      by_cases hex : k.exists pid = true
      · obtain ⟨hnum, hrest⟩ := h.fork hex hroom cbs
        exact ⟨hnum, fun _ _ => hrest⟩
      refine ⟨?_, fun h => absurd h hex⟩
      dsimp only [FdKernel.step]
      rw [if_neg hex]
      exact h
    · rename_i hroom
      exact ⟨h, fun _ h => absurd h hroom⟩
  | acceptCb l => exact h.acceptCb l
  | read cur fd fs buf elsewhere =>
    dsimp only [FdKernel.tableStep]
    by_cases hex : k.exists cur.pid = true
    · rw [calls_eq hex]
      obtain ⟨hnum, hsame⟩ := h.touched hex (doSysFdRead_touched vfs reads fs buf elsewhere cur)
      refine ⟨hnum, fun _ => ⟨hsame, fun hun => ?_⟩⟩
      obtain ⟨p, hr⟩ := h.ready cur.pid hex
      obtain ⟨hnull, hlen⟩ := hok hun
      unfold doSysFdRead
      rw [if_neg (by simp [hnull]), if_neg hlen, hr.stdio]
      dsimp only
      rw [fdGet_none hr hun]
    · exact ⟨by rw [calls, if_neg hex]; exact h, fun h => absurd h hex⟩
  | write cur fd fs buf elsewhere =>
    dsimp only [FdKernel.tableStep]
    by_cases hex : k.exists cur.pid = true
    · rw [calls_eq hex]
      obtain ⟨hnum, hsame⟩ := h.touched hex (doSysFdWrite_touched vfs reads fs buf elsewhere cur)
      refine ⟨hnum, fun _ => ⟨hsame, fun hun => ?_⟩⟩
      obtain ⟨p, hr⟩ := h.ready cur.pid hex
      obtain ⟨hnull, hdata⟩ := hok hun
      unfold doSysFdWrite
      rw [if_neg (by simp [hnull]), if_neg (by simpa using hdata), hr.stdio]
      dsimp only
      rw [fdGet_none hr hun]
    · exact ⟨by rw [calls, if_neg hex]; exact h, fun h => absurd h hex⟩
  | lseek cur fd off whence =>
    dsimp only [FdKernel.tableStep]
    by_cases hex : k.exists cur.pid = true
    · rw [calls_eq hex]
      obtain ⟨hnum, hsame⟩ := h.touched hex (doSysLseek_touched off whence)
      refine ⟨hnum, fun _ => ⟨hsame, fun hun => ?_⟩⟩
      obtain ⟨p, hr⟩ := h.ready cur.pid hex
      unfold doSysLseek
      rw [hr.stdio]
      dsimp only
      rw [fdGet_none hr hun]
    · exact ⟨by rw [calls, if_neg hex]; exact h, fun h => absurd h hex⟩
  | fstat cur fd null copied =>
    dsimp only [FdKernel.tableStep]
    by_cases hex : k.exists cur.pid = true
    · rw [calls_eq hex]
      obtain ⟨p, hr⟩ := h.ready cur.pid hex
      have hsame : (doSysFstat k.fds cur.pid fd null copied).1 = k.fds := by
        unfold doSysFstat
        rw [hr.stdio]
        dsimp only
        split
        · rfl
        split <;> rfl
      rw [hsame]
      refine ⟨h, fun _ => ⟨fun _ => rfl, fun hun => ?_⟩⟩
      unfold doSysFstat
      rw [if_neg (by simp [hok hun]), hr.stdio]
      dsimp only
      rw [fdGet_none hr hun]
    · exact ⟨by rw [calls, if_neg hex]; exact h, fun h => absurd h hex⟩

end Runs

end FdKernel

theorem stdioRounds_named (p : FdProcIdx) (l : List FdIdx) (s : FdState) (go : Bool)
    (h : ∀ x, (s.fds x).used = true → 1 ≤ (s.fds x).fileRef) (x : FdProcIdx × FdIdx) :
    ((l.foldl (ensureStdioFd p) (s, go)).1.fds x).used = true →
      1 ≤ ((l.foldl (ensureStdioFd p) (s, go)).1.fds x).fileRef := by
  induction l generalizing s go with
  | nil => exact h x
  | cons i l ih =>
    have hround : ∀ y, ((ensureStdioFd p (s, go) i).1.fds y).used = true →
        1 ≤ ((ensureStdioFd p (s, go) i).1.fds y).fileRef := by
      intro y
      rcases ensureStdioFd_cases s p go i with heq | ⟨j, e, hj, -, -, -, -, -, -, href, heq⟩
      · rw [heq]
        exact h y
      rw [heq]
      by_cases hy : y = (p, i)
      · subst hy
        intro _
        have hself : ((s.setFileRef j { used := true, refs := 1 }).setFd p i e).fds (p, i) = e :=
          update_self _ _ _
        rw [hself, href]
        exact hj
      · have hother : ((s.setFileRef j { used := true, refs := 1 }).setFd p i e).fds y = s.fds y :=
          update_of_ne hy _ _
        rw [hother]
        exact h y
    exact ih _ _ hround

theorem fdProcWithStdio_named {s s' : FdState} {pid : ℤ} {r : Option FdProcIdx} (hq : fdProcWithStdio s pid = (s', r))
    (h : ∀ x, (s.fds x).used = true → 1 ≤ (s.fds x).fileRef) (x : FdProcIdx × FdIdx) :
    (s'.fds x).used = true → 1 ≤ (s'.fds x).fileRef := by
  have hclear : ∀ (p : FdProcIdx) (y : FdProcIdx × FdIdx),
      ((s.clearProc p pid).fds y).used = true → 1 ≤ ((s.clearProc p pid).fds y).fileRef := by
    intro p y
    unfold clearProc
    dsimp only
    split
    · simp
    · exact h y
  unfold fdProcWithStdio fdProcForPid at hq
  split at hq
  · rename_i s1 p hp
    obtain ⟨rfl, -⟩ := Prod.mk.inj hq
    split at hp
    · obtain ⟨rfl, -⟩ := Prod.mk.inj hp
      exact stdioRounds_named p _ _ true h x
    split at hp
    · simp at hp
    · obtain ⟨rfl, -⟩ := Prod.mk.inj hp
      exact stdioRounds_named p _ _ true (stdioRounds_named _ _ _ true (hclear _)) x
  · rename_i s1 hp
    obtain ⟨rfl, -⟩ := Prod.mk.inj hq
    split at hp
    · simp at hp
    split at hp
    · obtain ⟨rfl, -⟩ := Prod.mk.inj hp
      exact h x
    · simp at hp

theorem stdioKernel_numbered : stdioKernel.Numbered := by
  have hq : fdProcWithStdio {} 1 = (stdioKernel.fds, (fdProcWithStdio {} 1).2) := by
    unfold stdioKernel
    generalize fdProcWithStdio {} 1 = out
    rfl
  have hinv : FdInv False 2 0 0 stdioKernel.fds := (fdInv_boot.fdProcWithStdio (by omega) (by omega) hq).1
  have hzero : ∀ p, procPid {} p = 0 := fun _ => rfl
  have hone : stdioKernel.fds.OneTable :=
    (fdProcWithStdio_frame hq).1.others.oneTable fun p _ _ h0 => absurd (hzero p) h0
  have hproc : findProc stdioKernel.fds 1 = some 0 := by decide +kernel
  have hlow : ∀ i : Fin 3, (stdioKernel.fds.fds (0, ⟨i.val, i.isLt.trans (by decide)⟩)).used = true := by decide +kernel
  refine ⟨⟨0, hinv⟩, hone, fun pid hex => ?_, fdProcWithStdio_named hq (by simp), ?_, by decide⟩
  · have hpid := FdKernel.exists_iff.mp hex
    have h2 : stdioKernel.nextPid = 2 := rfl
    obtain rfl : pid = 1 := by omega
    refine ⟨0, hproc, fun i hi => ?_⟩
    have hu := hlow ⟨i.val, by omega⟩
    rw [Ne, table_eq_none]
    simpa using hu
  · decide +kernel

/-- In every run in which 0, 1 and 2 stay bound, the numbers are those of the map. -/
theorem descriptor_numbers {σ : Type} (vfs : Vfs σ) (reads : VfsReads σ) (es : List (TableEvent σ))
    (hok : Meets (FdKernel.tableStep vfs reads) FdKernel.StdioOpen stdioKernel es) :
    Meets (FdKernel.tableStep vfs reads) (FdKernel.FollowsMap vfs reads) stdioKernel es :=
  meets_of_invariant (fun _ e h hok => (h.tableStep e hok).1) (fun _ e h hok => (h.tableStep e hok).2)
    stdioKernel_numbered hok

/-- A file is opened and copied, the first descriptor is closed, a pipe takes its number, the
child of a fork gets the same numbers, and a read looks at a number that is free. -/
def openCopyFork : List (TableEvent (List UInt8)) :=
  [.call root (.openat linuxORdwr (.ok "/etc/passwd") (some ({ ino := 12, mode := 0o100644 }, some 0))),
    .call root (.dupfd 3 10 false),
    .call root (.close 3 fun _ => []),
    .call root (.pipe 0 true),
    .fork 1 fun _ => [],
    .read { pid := 2 } 7 [] { len := 1 } (.ok [])]

theorem openCopyFork_numbers :
    Meets (FdKernel.tableStep oneFile oneFileReads) FdKernel.StdioOpen stdioKernel openCopyFork ∧
      Meets (FdKernel.tableStep oneFile oneFileReads) (FdKernel.FollowsMap oneFile oneFileReads)
        stdioKernel openCopyFork := by
  have h : Meets (FdKernel.tableStep oneFile oneFileReads) FdKernel.StdioOpen stdioKernel
      openCopyFork := by
    refine ⟨?_, ?_, ?_, ?_, trivial, ?_, trivial⟩
    · exact ⟨by simp, by simp⟩
    · exact ⟨by simp, by simp⟩
    · refine ⟨by simp, fun fd window heq => Or.inr ?_⟩
      obtain ⟨rfl, -⟩ := FdCall.close.inj heq
      decide
    · exact ⟨by simp, by simp⟩
    · exact fun _ => ⟨rfl, by decide⟩
  exact ⟨h, descriptor_numbers oneFile oneFileReads openCopyFork h⟩

def openPasswd : FdCall :=
  .openat linuxORdwr (.ok "/etc/passwd") (some ({ ino := 12, mode := 0o100644 }, some 0))

def stdinClosed : FdKernel :=
  stdioKernel.tableStep oneFile oneFileReads (.call root (.close 0 fun _ => []))

/-- Where the map is followed, opening the file gives the smallest number that is free. -/
theorem FdKernel.FollowsMap.openPasswd {k : FdKernel} {n : ℕ}
    (h : k.FollowsMap oneFile oneFileReads (.call root openPasswd)) (hex : k.exists 1 = true)
    (hnumbers : openPasswd.numbers k.fds root = .ok [n]) (hfree : k.table 1 0 = none) : n = 0 := by
  obtain ⟨hmeaning, -⟩ := h hex
  rw [hnumbers] at hmeaning
  obtain ⟨i, o, hlow, hi, -⟩ := hmeaning
  have hle : i ≤ 0 := hlow.2 ⟨by decide, hfree⟩
  have hval : i.val ≤ 0 := hle
  have hn : n = i.val := by simpa using hi
  omega

/-- The file is not opened as 0: `fd_proc_with_stdio` has put the console back there. -/
theorem stdinClosed_rebinds :
    ¬ Meets (FdKernel.tableStep oneFile oneFileReads) (FdKernel.FollowsMap oneFile oneFileReads)
      stdioKernel [.call root (.close 0 fun _ => []), .call root openPasswd] := by
  rintro ⟨-, h, -⟩
  have hex : stdinClosed.exists 1 = true := by decide +kernel
  have hnumbers : openPasswd.numbers stdinClosed.fds root = .ok [3] := by decide +kernel
  have hfree : stdinClosed.table 1 0 = none := by decide +kernel
  have h : stdinClosed.FollowsMap oneFile oneFileReads (.call root openPasswd) := h
  generalize stdinClosed = k at h hex hnumbers hfree
  exact absurd (h.openPasswd hex hnumbers hfree) (by decide)

end EdgeOS
