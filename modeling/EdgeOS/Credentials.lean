import EdgeOS.ProcessExec

namespace EdgeOS

open Lib TaskTable Function

/-!
The identity calls, and what they can make of a process and its descendants.
-/

/-! ## The calls -/

/-- `(uint32_t)-1`, an id that is to stay. -/
abbrev unchangedId : UInt32 := 0xFFFFFFFF

structure IdPair where
  real : ℕ
  effective : ℕ
  deriving DecidableEq, Repr

/-- `process_setuid` and `process_setgid` on the pair they are about. -/
def IdPair.set (p : IdPair) (root : Bool) (id : UInt32) : Option IdPair :=
  if root then some ⟨id.toNat, id.toNat⟩
  else if id.toNat = p.real ∨ id.toNat = p.effective then some { p with effective := id.toNat }
  else none

/-- An id that `process_setreuid` and its kin take from an unprivileged caller. -/
def IdPair.Admits (p : IdPair) (id : UInt32) : Prop :=
  id = unchangedId ∨ id.toNat = p.real ∨ id.toNat = p.effective

instance (p : IdPair) (id : UInt32) : Decidable (p.Admits id) :=
  inferInstanceAs (Decidable (_ ∨ _ ∨ _))

/-- `process_setreuid` and `process_setregid` on the pair they are about. -/
def IdPair.setBoth (p : IdPair) (root : Bool) (rid eid : UInt32) : Option IdPair :=
  if !root ∧ ¬ (p.Admits rid ∧ p.Admits eid) then none
  else some
    { real := if rid ≠ unchangedId then rid.toNat else p.real
      effective := if eid ≠ unchangedId then eid.toNat else p.effective }

def Cred.uids (c : Cred) : IdPair := ⟨c.uid, c.euid⟩

def Cred.gids (c : Cred) : IdPair := ⟨c.gid, c.egid⟩

def Cred.withUids (c : Cred) (p : IdPair) : Cred := { c with uid := p.real, euid := p.effective }

def Cred.withGids (c : Cred) (p : IdPair) : Cred := { c with gid := p.real, egid := p.effective }

section Calls

variable (s : TaskTable)

def processCred : Cred := (s.task (schedulerCurrentTask s)).cred

/-- Give the caller other credentials, unless they are refused. -/
def TaskTable.setCred (new : Option Cred) : TaskTable × Bool :=
  match new with
  | some c => (s.modify (schedulerCurrentTask s) fun x => { x with cred := c }, true)
  | none => (s, false)

def newUids (f : IdPair → Bool → Option IdPair) : Option Cred :=
  (f (processCred s).uids ((processCred s).euid = 0)).map (processCred s).withUids

def newGids (f : IdPair → Bool → Option IdPair) : Option Cred :=
  (f (processCred s).gids ((processCred s).euid = 0)).map (processCred s).withGids

def processSetuid (uid : UInt32) : TaskTable × Bool := s.setCred (newUids s fun p root => p.set root uid)

def processSetgid (gid : UInt32) : TaskTable × Bool := s.setCred (newGids s fun p root => p.set root gid)

def processSetreuid (ruid euid : UInt32) : TaskTable × Bool :=
  s.setCred (newUids s fun p root => p.setBoth root ruid euid)

def processSetregid (rgid egid : UInt32) : TaskTable × Bool :=
  s.setCred (newGids s fun p root => p.setBoth root rgid egid)

def processSetUmask (mask : UInt32) : TaskTable :=
  (s.setCred (some { processCred s with umask := mask.toNat &&& 0o777 })).1

def orEperm (out : TaskTable × Bool) : TaskTable × Except Errno ℕ :=
  (out.1, if out.2 then .ok 0 else .error .eperm)

def doSysSetuid (uid : UInt64) : TaskTable × Except Errno ℕ := orEperm (processSetuid s uid.toUInt32)

def doSysSetgid (gid : UInt64) : TaskTable × Except Errno ℕ := orEperm (processSetgid s gid.toUInt32)

def doSysSetreuid (ruid euid : UInt64) : TaskTable × Except Errno ℕ :=
  orEperm (processSetreuid s ruid.toUInt32 euid.toUInt32)

def doSysSetregid (rgid egid : UInt64) : TaskTable × Except Errno ℕ :=
  orEperm (processSetregid s rgid.toUInt32 egid.toUInt32)

/-- A saved id that `do_sys_setresuid` and `do_sys_setresgid` refuse an unprivileged caller. -/
def savedRefused (root : Bool) (p : IdPair) (rid eid sid : UInt32) : Bool :=
  !root && sid ≠ unchangedId && sid.toNat ≠ p.real && sid.toNat ≠ p.effective &&
    (rid = unchangedId || sid ≠ rid) && (eid = unchangedId || sid ≠ eid)

def doSysSetresuid (ruid euid suid : UInt64) : TaskTable × Except Errno ℕ :=
  if savedRefused ((processCred s).euid = 0) (processCred s).uids ruid.toUInt32 euid.toUInt32 suid.toUInt32
  then (s, .error .eperm)
  else orEperm (processSetreuid s ruid.toUInt32 euid.toUInt32)

def doSysSetresgid (rgid egid sgid : UInt64) : TaskTable × Except Errno ℕ :=
  if savedRefused ((processCred s).euid = 0) (processCred s).gids rgid.toUInt32 egid.toUInt32 sgid.toUInt32
  then (s, .error .eperm)
  else orEperm (processSetregid s rgid.toUInt32 egid.toUInt32)

/-- `do_sys_setfsuid`: the effective id before, whether the call was refused or not. -/
def doSysSetfsuid (fsuid : UInt64) : TaskTable × Except Errno ℕ :=
  ((processSetreuid s unchangedId fsuid.toUInt32).1, .ok (processCred s).euid)

def doSysSetfsgid (fsgid : UInt64) : TaskTable × Except Errno ℕ :=
  ((processSetregid s unchangedId fsgid.toUInt32).1, .ok (processCred s).egid)

end Calls

inductive IdCall
  | setuid (uid : UInt64)
  | setgid (gid : UInt64)
  | setreuid (ruid euid : UInt64)
  | setregid (rgid egid : UInt64)
  | setresuid (ruid euid suid : UInt64)
  | setresgid (rgid egid sgid : UInt64)
  | setfsuid (fsuid : UInt64)
  | setfsgid (fsgid : UInt64)
  | umask (mask : UInt64)

def IdCall.apply (s : TaskTable) : IdCall → TaskTable
  | setuid uid => (doSysSetuid s uid).1
  | setgid gid => (doSysSetgid s gid).1
  | setreuid ruid euid => (doSysSetreuid s ruid euid).1
  | setregid rgid egid => (doSysSetregid s rgid egid).1
  | setresuid ruid euid suid => (doSysSetresuid s ruid euid suid).1
  | setresgid rgid egid sgid => (doSysSetresgid s rgid egid sgid).1
  | setfsuid fsuid => (doSysSetfsuid s fsuid).1
  | setfsgid fsgid => (doSysSetfsgid s fsgid).1
  | umask mask => processSetUmask s mask.toUInt32

/-! ## Descent -/

/-- The process layer, and which slots hold a descendant of some task. -/
structure CredSys where
  sys : ProcSys
  family : Fin procMaxTasks → Bool

/-- What can happen. `fork`, `vfork`, `clone` and `clone3` make their child by the fork of the
process layer, `spawn` by its `spawnExec`. -/
inductive CredEvent
  | process (e : ProcEvent)
  | id (c : IdCall)
  | execve (name : String) (f : ExecFile)

namespace CredSys

variable (L : KernelLayout) (k : CredSys)

/-- The slot that `task_alloc` finds holds a descendant if the call returned a pid and the caller is
one; otherwise it holds nobody. -/
def birth (returned : ℤ) : Fin procMaxTasks → Bool :=
  match k.sys.current, taskAlloc k.sys.proc.tab with
  | .slot p, some c => Function.update k.family c (k.family p && 0 < returned)
  | _, _ => k.family

def bury (gone : Option TaskRef) : Fin procMaxTasks → Bool :=
  fun i => k.family i && gone ≠ some (.slot i)

def descend : ProcEvent → Fin procMaxTasks → Bool
  | .fork tf => if k.sys.free then k.birth (processFork L k.sys.proc tf).2 else k.family
  | .spawnExec name elf =>
    if k.sys.free then k.birth (processSpawnExec L k.sys.proc name elf).2 else k.family
  | .wait w nohang =>
    if k.sys.free then k.bury (waitRound k.sys.proc.tab k.sys.current w nohang).2.2 else k.family
  | .resumeWait =>
    match k.sys.waiting k.sys.current with
    | some w => k.bury (waitRound k.sys.proc.tab k.sys.current w false).2.2
    | none => k.family
  | _ => k.family

def step : CredEvent → CredSys
  | .process e => { sys := k.sys.step L e, family := k.descend L e }
  | .id c => if k.sys.free then { k with sys := k.sys.withTab (c.apply k.sys.proc.tab) } else k
  | .execve name f => if k.sys.free then { k with sys := (execProcess L k.sys name f).1 } else k

def start (σ : ProcSys) (i : Fin procMaxTasks) : CredSys := ⟨σ, fun j => j = i⟩

end CredSys

/-! ## No way back -/

/-- Both ids are among those of `p0`. -/
def IdPair.Within (p0 p : IdPair) : Prop :=
  (p.real = p0.real ∨ p.real = p0.effective) ∧ (p.effective = p0.real ∨ p.effective = p0.effective)

/-- The user ids are among those of `c0`, and the group ids. -/
structure Cred.Within (c0 c : Cred) : Prop where
  uids : c0.uids.Within c.uids
  gids : c0.gids.Within c.gids

def Cred.Unprivileged (c : Cred) : Prop := c.uid ≠ 0 ∧ c.euid ≠ 0

namespace IdPair

variable {p0 p p' : IdPair} {id rid eid : UInt32}

theorem Within.admits (h : p0.Within p) (ha : p.Admits id) (hid : id ≠ unchangedId) :
    id.toNat = p0.real ∨ id.toNat = p0.effective := by
  rcases ha with hsame | hreal | heff
  · exact absurd hsame hid
  · rw [hreal]
    exact h.1
  · rw [heff]
    exact h.2

theorem Within.set (h : p0.Within p) (hs : p.set false id = some p') : p0.Within p' := by
  unfold IdPair.set at hs
  rw [if_neg (by simp)] at hs
  split at hs
  · rename_i hid
    rw [Option.some.injEq] at hs
    rw [← hs]
    refine ⟨h.1, ?_⟩
    rcases hid with hreal | heff
    · rw [hreal]
      exact h.1
    · rw [heff]
      exact h.2
  · simp at hs

theorem Within.setBoth (h : p0.Within p) (hs : p.setBoth false rid eid = some p') : p0.Within p' := by
  unfold IdPair.setBoth at hs
  split at hs
  · simp at hs
  rename_i hadmit
  simp only [Bool.not_false, true_and, not_not] at hadmit
  rw [Option.some.injEq] at hs
  rw [← hs]
  constructor
  · dsimp only
    split
    · exact h.admits hadmit.1 ‹_›
    · exact h.1
  · dsimp only
    split
    · exact h.admits hadmit.2 ‹_›
    · exact h.2

end IdPair

section Confined

variable {c0 c : Cred} {s : TaskTable} {f : IdPair → Bool → Option IdPair}

theorem Cred.Within.refl (c : Cred) : c.Within c := ⟨⟨.inl rfl, .inr rfl⟩, ⟨.inl rfl, .inr rfl⟩⟩

/-- Whoever stays within unprivileged credentials never has root's. -/
theorem Cred.Within.unprivileged (h : c0.Within c) (h0 : c0.Unprivileged) : c.Unprivileged := by
  obtain ⟨huid, heuid⟩ := h.uids
  constructor
  · rcases huid with hu | hu
    · exact fun hz => h0.1 (hu.symm.trans hz)
    · exact fun hz => h0.2 (hu.symm.trans hz)
  · rcases heuid with hu | hu
    · exact fun hz => h0.1 (hu.symm.trans hz)
    · exact fun hz => h0.2 (hu.symm.trans hz)

/-- A call that writes the caller's credentials keeps everybody within `c0` there. -/
theorem setCred_within {new : Option Cred}
    (hnew : ∀ c, new = some c → c0.Within (processCred s) → c0.Within c) {u : TaskRef}
    (hu : c0.Within (s.task u).cred) : c0.Within ((s.setCred new).1.task u).cred := by
  unfold TaskTable.setCred
  cases new with
  | none => exact hu
  | some c =>
    dsimp only
    rw [modify_task]
    split_ifs with hcur
    · apply hnew c rfl
      rw [hcur] at hu
      exact hu
    · exact hu

theorem newUids_within (h0 : c0.Unprivileged) (hf : ∀ p p', c0.uids.Within p → f p false = some p' → c0.uids.Within p')
    (hc : newUids s f = some c) (h : c0.Within (processCred s)) : c0.Within c := by
  have hroot : decide ((processCred s).euid = 0) = false := decide_eq_false (h.unprivileged h0).2
  unfold newUids at hc
  rw [hroot, Option.map_eq_some_iff] at hc
  obtain ⟨p', hp', rfl⟩ := hc
  exact ⟨hf _ _ h.uids hp', h.gids⟩

theorem newGids_within (h0 : c0.Unprivileged) (hf : ∀ p p', c0.gids.Within p → f p false = some p' → c0.gids.Within p')
    (hc : newGids s f = some c) (h : c0.Within (processCred s)) : c0.Within c := by
  have hroot : decide ((processCred s).euid = 0) = false := decide_eq_false (h.unprivileged h0).2
  unfold newGids at hc
  rw [hroot, Option.map_eq_some_iff] at hc
  obtain ⟨p', hp', rfl⟩ := hc
  exact ⟨h.uids, hf _ _ h.gids hp'⟩

theorem processSetreuid_within (h0 : c0.Unprivileged) (ruid euid : UInt32) {u : TaskRef}
    (hu : c0.Within (s.task u).cred) : c0.Within ((processSetreuid s ruid euid).1.task u).cred :=
  setCred_within (fun _ hc => newUids_within h0 (fun _ _ hp => hp.setBoth) hc) hu

theorem processSetregid_within (h0 : c0.Unprivileged) (rgid egid : UInt32) {u : TaskRef}
    (hu : c0.Within (s.task u).cred) : c0.Within ((processSetregid s rgid egid).1.task u).cred :=
  setCred_within (fun _ hc => newGids_within h0 (fun _ _ hp => hp.setBoth) hc) hu

/-- No identity call leads out of unprivileged credentials. -/
theorem IdCall.apply_within (h0 : c0.Unprivileged) (call : IdCall) {u : TaskRef}
    (hu : c0.Within (s.task u).cred) : c0.Within ((call.apply s).task u).cred := by
  cases call with
  | setuid uid => exact setCred_within (fun _ hc => newUids_within h0 (fun _ _ hp => hp.set) hc) hu
  | setgid gid => exact setCred_within (fun _ hc => newGids_within h0 (fun _ _ hp => hp.set) hc) hu
  | setreuid ruid euid => exact processSetreuid_within h0 _ _ hu
  | setregid rgid egid => exact processSetregid_within h0 _ _ hu
  | setresuid ruid euid suid =>
    show c0.Within ((doSysSetresuid s ruid euid suid).1.task u).cred
    unfold doSysSetresuid
    split
    · exact hu
    · exact processSetreuid_within h0 _ _ hu
  | setresgid rgid egid sgid =>
    show c0.Within ((doSysSetresgid s rgid egid sgid).1.task u).cred
    unfold doSysSetresgid
    split
    · exact hu
    · exact processSetregid_within h0 _ _ hu
  | setfsuid fsuid => exact processSetreuid_within h0 _ _ hu
  | setfsgid fsgid => exact processSetregid_within h0 _ _ hu
  | umask mask =>
    refine setCred_within (fun c hc h => ?_) hu
    rw [Option.some.injEq] at hc
    rw [← hc]
    exact ⟨h.uids, h.gids⟩

theorem SameWho.cred {s s' : TaskTable} (h : SameWho s s') (u : TaskRef) : (s'.task u).cred = (s.task u).cred :=
  congrArg (fun w => w.2.2.2.1) (h.who u)

/-- Writing other fields of a task is not seen in anybody's credentials. -/
theorem modify_cred (s : TaskTable) (t u : TaskRef) {f : Task → Task} (hf : ∀ x, (f x).cred = x.cred) :
    ((s.modify t f).task u).cred = (s.task u).cred :=
  modify_proj s t u f Task.cred hf

theorem processSetpgid_cred (s : TaskTable) (pid pgid : ℤ) (u : TaskRef) :
    (((processSetpgid s pid pgid).1).task u).cred = (s.task u).cred := by
  unfold processSetpgid
  dsimp only
  split
  · rfl
  generalize (if pgid = 0 then _ else pgid) = g
  split
  · rfl
  split
  · dsimp only
    apply modify_cred
    intro x
    rfl
  · rfl

theorem processSetsid_cred (s : TaskTable) (u : TaskRef) : (((processSetsid s).1).task u).cred = (s.task u).cred := by
  unfold processSetsid
  dsimp only
  split
  · rfl
  dsimp only
  apply modify_cred
  intro x
  rfl

end Confined

namespace CredSys

variable {L : KernelLayout} {k : CredSys} {c0 : Cred}

/-- Every descendant is within `c0`. -/
def Confined (c0 : Cred) (k : CredSys) : Prop :=
  ∀ i, k.family i = true → c0.Within (k.sys.proc.tab.task (.slot i)).cred

theorem Confined.same (h : k.Confined c0) {σ' : ProcSys}
    (hs : ∀ u, (σ'.proc.tab.task u).cred = (k.sys.proc.tab.task u).cred) : Confined c0 ⟨σ', k.family⟩ := by
  intro i hi
  dsimp only
  rw [hs]
  exact h i hi

theorem Confined.birth (h : k.Confined c0) {σ' : ProcSys} {r : ℤ}
    (hb : σ' = k.sys ∧ r = -1 ∨ ∃ p c, k.sys.current = .slot p ∧ taskAlloc k.sys.proc.tab = some c ∧
      (Begets (.slot p) (.slot c) k.sys.proc.tab σ'.proc.tab ∨
        Wiped (.slot c) 1 k.sys.proc.tab σ'.proc.tab ∧ r = -1)) : Confined c0 ⟨σ', k.birth r⟩ := by
  intro i hi
  unfold CredSys.birth at hi
  dsimp only at hi
  rcases hb with ⟨rfl, rfl⟩ | ⟨p, c, hp, hc, hb⟩
  · revert hi
    rcases k.sys.current with p | q
    · cases taskAlloc k.sys.proc.tab with
      | none => exact h i
      | some c =>
        intro hi
        dsimp only at hi
        rw [update_apply] at hi
        split_ifs at hi
        · simp at hi
        · exact h i hi
    · exact h i
  rw [hp, hc] at hi
  dsimp only at hi ⊢
  rw [update_apply] at hi
  split_ifs at hi with hic
  · rw [Bool.and_eq_true, decide_eq_true_eq] at hi
    rcases hb with hb | ⟨-, hr⟩
    · obtain ⟨b, hwho, -⟩ := hb.child
      have hchild : (σ'.proc.tab.task (.slot c)).cred = (k.sys.proc.tab.task (.slot p)).cred :=
        congrArg (fun w => w.2.2.2.1) hwho
      rw [hic, hchild]
      exact h p hi.1
    · omega
  · have hne : TaskRef.slot i ≠ .slot c := fun he => hic (TaskRef.slot.inj he)
    have hother : (σ'.proc.tab.task (.slot i)).cred = (k.sys.proc.tab.task (.slot i)).cred := by
      rcases hb with hb | ⟨hw, -⟩
      · exact congrArg (fun w => w.2.2.2.1) (hb.other (.slot i) hne)
      · exact congrArg (fun w => w.2.2.2.1) (hw.other (.slot i) hne)
    rw [hother]
    exact h i hi

theorem Confined.wait (h : k.Confined c0) (w : WaitFor) (nohang : Bool) : Confined c0 ⟨k.sys.waitStep w nohang,
      k.bury (waitRound k.sys.proc.tab k.sys.current w nohang).2.2⟩ := by
  intro i hi
  unfold CredSys.bury at hi
  rw [Bool.and_eq_true, decide_eq_true_eq] at hi
  have hother : ((k.sys.waitStep w nohang).proc.tab.task (.slot i)).cred = (k.sys.proc.tab.task (.slot i)).cred := by
    rcases waitRound_who k.sys.proc.tab k.sys.current w nohang with ⟨hsame, -⟩ | ⟨t, hw, ht⟩
    · exact congrArg (fun w => w.2.2.2.1) (hsame.who (.slot i))
    · rw [ht] at hi
      exact congrArg (fun w => w.2.2.2.1) (hw.other (.slot i) fun he => hi.2 (congrArg some he.symm))
  dsimp only
  rw [hother]
  exact h i hi.1

theorem Confined.step (h0 : c0.Unprivileged) (h : k.Confined c0) (e : CredEvent) : (k.step L e).Confined c0 := by
  cases e with
  | id c =>
    unfold CredSys.step
    dsimp only
    split
    · exact fun i hi => c.apply_within h0 (h i hi)
    · exact h
  | execve name f =>
    unfold CredSys.step
    dsimp only
    split
    · exact h.same (execProcess_sameWho name f).cred
    · exact h
  | process e =>
    cases e with
    | fork tf =>
      unfold CredSys.step descend ProcSys.step
      dsimp only
      split
      · apply h.birth
        rcases processFork_begets L k.sys.proc tf with heq | ⟨p, c, hp, hc, hb⟩
        · rw [heq]
          exact .inl ⟨rfl, rfl⟩
        · exact .inr ⟨p, c, hp, hc, .inl hb⟩
      · exact h
    | spawnExec name elf =>
      unfold CredSys.step descend ProcSys.step
      dsimp only
      split
      · apply h.birth
        rcases processSpawnExec_begets L k.sys.proc name elf with heq | ⟨p, c, hp, hc, hb⟩
        · rw [heq]
          exact .inl ⟨rfl, rfl⟩
        · exact .inr ⟨p, c, hp, hc, hb⟩
      · exact h
    | wait w nohang =>
      unfold CredSys.step descend ProcSys.step
      dsimp only
      split
      · exact h.wait w nohang
      · exact h
    | resumeWait =>
      unfold CredSys.step descend ProcSys.step
      dsimp only
      cases k.sys.waiting k.sys.current with
      | none => exact h
      | some w => exact h.wait w false
    | setpgid pid pgid =>
      unfold CredSys.step descend ProcSys.step
      dsimp only
      split
      · exact h.same (processSetpgid_cred _ pid pgid)
      · exact h
    | setsid =>
      unfold CredSys.step descend ProcSys.step
      dsimp only
      split
      · exact h.same (processSetsid_cred _)
      · exact h
    | exitCurrent _ | killPid _ _ | killPgid _ _ | sendSignal _ _ | sendSignalPgid _ _ | adoptOrphans _ _
    | setRunnable _ | sigaction _ _ | yield => exact h.same (step_sameWho L k.sys rfl).cred

/-- Privileges never come back: whoever descends from a task without root ids keeps to the user ids and
the group ids that this task started with, and has no root id, after any run. -/
theorem privileges_never_return (L : KernelLayout) (σ : ProcSys) (i : Fin procMaxTasks)
    (hu : (σ.proc.tab.task (.slot i)).cred.uid ≠ 0) (he : (σ.proc.tab.task (.slot i)).cred.euid ≠ 0)
    (es : List CredEvent) (j : Fin procMaxTasks) (hj : (run (step L) (start σ i) es).family j = true) :
    let c0 := (σ.proc.tab.task (.slot i)).cred
    let c := ((run (step L) (start σ i) es).sys.proc.tab.task (.slot j)).cred
    (c.uid = c0.uid ∨ c.uid = c0.euid) ∧ (c.euid = c0.uid ∨ c.euid = c0.euid) ∧
      (c.gid = c0.gid ∨ c.gid = c0.egid) ∧ (c.egid = c0.gid ∨ c.egid = c0.egid) ∧ c.uid ≠ 0 ∧ c.euid ≠ 0 := by
  have hstart : (start σ i).Confined (σ.proc.tab.task (.slot i)).cred := by
    intro l hl
    have hli : l = i := of_decide_eq_true hl
    rw [hli]
    exact .refl _
  have hstep : ∀ k e, Confined (σ.proc.tab.task (.slot i)).cred k → True →
      (step L k e).Confined (σ.proc.tab.task (.slot i)).cred := fun k e h _ => h.step ⟨hu, he⟩ e
  have hrun := run_invariant hstep hstart (meets_of_forall (fun _ _ => trivial) (start σ i) es)
  have hwithin := hrun j hj
  have hroot := hwithin.unprivileged ⟨hu, he⟩
  exact ⟨hwithin.uids.1, hwithin.uids.2, hwithin.gids.1, hwithin.gids.2, hroot.1, hroot.2⟩

def userShell : ProcSys :=
  let σ := ProcSys.boot { kernelEnd := 0x10000000 }
  σ.withTab (σ.proc.tab.modify (.slot bootSlot) fun x =>
    { x with cred := { uid := 1000, gid := 100, euid := 1000, egid := 100 } })

def shellEvents : List CredEvent := [.id (.setreuid 0xFFFFFFFF 0), .process (.fork (some {}))]

theorem shellEvents_born :
    (run (step { kernelEnd := 0x10000000 }) (start userShell 0) shellEvents).family 1 = true := by
  decide

theorem privileges_never_return_example :
    ((run (step { kernelEnd := 0x10000000 }) (start userShell 0) shellEvents).sys.proc.tab.task
      (.slot 1)).cred.euid ≠ 0 := by
  have hids := privileges_never_return { kernelEnd := 0x10000000 } userShell 0 (by decide) (by decide)
    shellEvents 1 shellEvents_born
  dsimp only at hids
  exact hids.2.2.2.2.2

end CredSys

end EdgeOS
