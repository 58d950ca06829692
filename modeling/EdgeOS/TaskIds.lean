import EdgeOS.ProcessSystem
import EdgeOS.TaskLife

namespace EdgeOS

open Lib TaskTable ProcSys TreeMoves EdgeOS.Task SchedMoves

/-!
Who a task is: its pid, its group and session, its credentials, and whether it is an idle task. Here
is what the functions of `src/sys/process.c` do to them, whatever state the links and queues are in.
-/

/-- Pid, process group, session, credentials, and whether the task is an idle one. -/
def Task.who (x : Task) : ℤ × ℤ × ℤ × Cred × Bool := (x.pid, x.pgid, x.sid, x.cred, x.isIdle)

structure SameWho (s s' : TaskTable) : Prop where
  who : ∀ u, (s'.task u).who = (s.task u).who
  nextPid : s'.nextPid = s.nextPid

/-- `c` becomes a child of `p` with the next pid. -/
structure Begets (p c : TaskRef) (s s' : TaskTable) : Prop where
  other : ∀ u, u ≠ c → (s'.task u).who = (s.task u).who
  child : ∃ b, (s'.task c).who = (s.nextPid, (s.task p).pgid, (s.task p).sid, (s.task p).cred, b) ∧
    (b = true → (s.task c).isIdle = true)
  nextPid : s'.nextPid = s.nextPid + 1

/-- The record of `c` is wiped; `n` pids are gone. -/
structure Wiped (c : TaskRef) (n : ℕ) (s s' : TaskTable) : Prop where
  other : ∀ u, u ≠ c → (s'.task u).who = (s.task u).who
  self : (s'.task c).who = ({} : Task).who
  nextPid : s'.nextPid = s.nextPid + n

section Who

variable {s s' s'' : TaskTable} {p c t : TaskRef} {n : ℕ}

theorem SameWho.refl (s : TaskTable) : SameWho s s := ⟨fun _ => rfl, rfl⟩

theorem SameWho.trans (h : SameWho s s') (h' : SameWho s' s'') : SameWho s s'' :=
  ⟨fun u => (h'.who u).trans (h.who u), h'.nextPid.trans h.nextPid⟩

theorem SameWho.modify (s : TaskTable) (t : TaskRef) {f : Task → Task} (hf : ∀ x, (f x).who = x.who) :
    SameWho s (s.modify t f) :=
  ⟨fun u => modify_proj s t u f Task.who hf, rfl⟩

theorem TreeMoves.sameWho (h : TreeMoves s s') : SameWho s s' := by
  refine ⟨fun u => ?_, h.nextPid⟩
  have h1 := congrArg who (h.noTree u)
  exact h1

theorem SchedMoves.sameWho (h : SchedMoves s s') : SameWho s s' := by
  refine ⟨fun u => ?_, h.nextPid⟩
  have h1 := congrArg who (h.noSched u)
  exact h1

theorem Begets.right (h : Begets p c s s') (h' : SameWho s' s'') : Begets p c s s'' where
  other u hu := (h'.who u).trans (h.other u hu)
  child := by
    obtain ⟨b, hwho, hb⟩ := h.child
    exact ⟨b, (h'.who c).trans hwho, hb⟩
  nextPid := h'.nextPid.trans h.nextPid

theorem Begets.wiped (h : Begets p c s s') (h' : Wiped c 0 s' s'') : Wiped c 1 s s'' where
  other u hu := (h'.other u hu).trans (h.other u hu)
  self := h'.self
  nextPid := by
    rw [h'.nextPid, h.nextPid]
    omega

theorem Wiped.left (h : SameWho s s') (h' : Wiped c n s' s'') : Wiped c n s s'' where
  other u hu := (h'.other u hu).trans (h.who u)
  self := h'.self
  nextPid := by rw [h'.nextPid, h.nextPid]

/-! ## Signals and deaths -/

theorem wakeIfBlocked_sameWho (s : TaskTable) (t : TaskRef) : SameWho s (wakeIfBlocked s t) := by
  unfold wakeIfBlocked
  split
  · exact (makeRunnable s t _).sameWho
  · exact .refl s

theorem notify_sameWho (s : TaskTable) (par : Option TaskRef) : SameWho s (processNotifyParentSigchld s par) := by
  rcases par with _ | p
  · exact .refl s
  unfold processNotifyParentSigchld
  dsimp only
  split
  · exact .refl s
  split
  · refine SameWho.trans ?_ (wakeIfBlocked_sameWho _ p)
    exact .modify s p fun _ => rfl
  · exact wakeIfBlocked_sameWho s p

theorem setState_sameWho (st : TaskState) (acpu : ℕ → ℤ) (s : TaskTable) (t : TaskRef) :
    SameWho s (schedulerTaskSetState st acpu s t) :=
  (setState st acpu s t).sameWho

theorem adopt_sameWho (s : TaskTable) (fromPpid toPpid : ℤ) : SameWho s (processAdoptOrphans s fromPpid toPpid).1 :=
  (processAdoptOrphans_moves s fromPpid toPpid).sameWho

theorem terminate_sameWho (s : TaskTable) (t : TaskRef) (code : ℤ) : SameWho s (terminate s t code) := by
  have hcode : SameWho s (s.modify t fun x => { x with exitCode := code }) := .modify s t fun _ => rfl
  unfold terminate
  dsimp only
  have hadopt := hcode.trans (adopt_sameWho _
    ((s.modify t fun x => { x with exitCode := code }).task t).pid 1)
  generalize (processAdoptOrphans (s.modify t fun x => { x with exitCode := code })
    ((s.modify t fun x => { x with exitCode := code }).task t).pid 1).1 = s1 at hadopt ⊢
  have hend : ∀ s2, SameWho s s2 → ∀ par,
      SameWho s (processNotifyParentSigchld (schedulerTaskSetZombie s2 t) par) := fun s2 h par =>
    (h.trans (setState_sameWho _ _ s2 t)).trans (notify_sameWho _ par)
  split
  · rename_i p init _ _
    split
    · apply hend
      exact hadopt.trans ((unlink s1 t).trans (link _ (some init) t)).sameWho
    · exact hend _ hadopt _
  · exact hend _ hadopt _

theorem exitCurrent_sameWho (s : TaskTable) (code : ℤ) : SameWho s (processExitCurrent s code) := by
  unfold processExitCurrent
  dsimp only
  split
  · exact .refl s
  · exact terminate_sameWho s _ code

theorem killPid_sameWho (s : TaskTable) (pid code : ℤ) : SameWho s (processKillPid s pid code).1 := by
  unfold processKillPid
  split
  · exact .refl s
  split
  · exact .refl s
  · exact terminate_sameWho s _ code

theorem killPgidStep_sameWho (pgid code : ℤ) (acc : TaskTable × ℕ) (i : Fin procMaxTasks) :
    SameWho acc.1 (killPgidStep pgid code acc i).1 := by
  obtain ⟨s, killed⟩ := acc
  unfold killPgidStep
  dsimp only
  split
  · exact .refl s
  have hdead := ((SameWho.modify s (.slot i) (f := fun x => { x with exitCode := code }) fun _ => rfl).trans
    (adopt_sameWho _ (s.task (.slot i)).pid 1)).trans (setState_sameWho .zombie Nat.cast _ (.slot i))
  dsimp only
  split
  · exact hdead.trans (wakeIfBlocked_sameWho _ _)
  · exact hdead

theorem signalOne_sameWho (s : TaskTable) (t : TaskRef) (sig : ℤ) : SameWho s (processSignalOne s t sig).1 := by
  unfold processSignalOne
  dsimp only
  split
  · exact .refl s
  split
  · split
    · exact .refl s
    · exact killPid_sameWho s _ _
  split
  · exact .refl s
  generalize (if sig = 2 then (s.task t).sig.sigintHandler else (s.task t).sig.sigtermHandler) = handler
  split
  · exact .refl s
  split
  · split
    · exact .refl s
    · exact killPid_sameWho s _ _
  · refine SameWho.trans (.modify s t fun x => ?_) (wakeIfBlocked_sameWho _ t)
    split <;> rfl

theorem sendSignal_sameWho (s : TaskTable) (pid sig : ℤ) : SameWho s (processSendSignal s pid sig).1 := by
  unfold processSendSignal
  split
  · exact .refl s
  split
  · exact .refl s
  · exact signalOne_sameWho s _ sig

theorem signalPgidStep_sameWho (pgid sig : ℤ) (acc : TaskTable × ℕ) (i : Fin procMaxTasks) :
    SameWho acc.1 (signalPgidStep pgid sig acc i).1 := by
  unfold signalPgidStep
  dsimp only
  split
  · exact .refl acc.1
  · exact signalOne_sameWho acc.1 (.slot i) sig

/-- A loop over the table whose rounds leave everybody who he was. -/
theorem foldl_sameWho {g : TaskTable × ℕ → Fin procMaxTasks → TaskTable × ℕ}
    (hg : ∀ acc i, SameWho acc.1 (g acc i).1) (l : List (Fin procMaxTasks)) (acc : TaskTable × ℕ) :
    SameWho acc.1 (l.foldl g acc).1 := by
  induction l generalizing acc with
  | nil => exact .refl acc.1
  | cons i l ih => exact (hg acc i).trans (ih (g acc i))

theorem killPgid_sameWho (s : TaskTable) (pgid code : ℤ) : SameWho s (processKillPgid s pgid code).1 := by
  have h := foldl_sameWho (killPgidStep_sameWho pgid code) (List.finRange procMaxTasks) (s, 0)
  unfold processKillPgid
  split
  · exact .refl s
  · generalize (List.finRange procMaxTasks).foldl (killPgidStep pgid code) (s, 0) = out at h ⊢
    exact h

theorem sendSignalPgid_sameWho (s : TaskTable) (pgid sig : ℤ) : SameWho s (processSendSignalPgid s pgid sig).1 := by
  have h := foldl_sameWho (signalPgidStep_sameWho pgid sig) (List.finRange procMaxTasks) (s, 0)
  unfold processSendSignalPgid
  split
  · exact .refl s
  · generalize (List.finRange procMaxTasks).foldl (signalPgidStep pgid sig) (s, 0) = out at h ⊢
    exact h

theorem setRunnable_sameWho (s : TaskTable) (pid : ℤ) : SameWho s (processSetRunnable s pid) := by
  unfold processSetRunnable
  split
  · exact .refl s
  · exact (makeRunnable s _ _).sameWho

theorem sigaction_sameWho (s : TaskTable) (sig handler : ℕ) : SameWho s (rtSigaction s sig handler) := by
  unfold rtSigaction
  apply SameWho.modify
  intro x
  rfl

theorem yield_sameWho (s : TaskTable) : SameWho s (schedulerYield s) :=
  (SchedMoves.scheduleCommon s false).sameWho

/-! ## Births and reaping -/

theorem taskRelease_wiped (s : TaskTable) (t : TaskRef) : Wiped t 0 s (taskRelease s t) := by
  have hsame : SameWho s (schedulerTaskSetUnused s t) := setState_sameWho _ _ s t
  unfold taskRelease
  refine ⟨fun u hu => ?_, ?_, ?_⟩
  · rw [modify_task_ne _ _ hu]
    exact hsame.who u
  · rw [modify_task_self]
  · rw [modify_nextPid, hsame.nextPid]
    simp

theorem reap_wiped (s : TaskTable) (t : TaskRef) : Wiped t 0 s (reap s t) :=
  (taskRelease_wiped _ t).left (unlink s t).sameWho

theorem forkTable_begets (s : TaskTable) (p c : TaskRef) (tf : TrapFrame) : Begets p c s (forkTable s p c tf) := by
  have hprep : Begets p c s (forkPrepare s p c) := by
    unfold forkPrepare
    dsimp only
    refine ⟨fun u hu => ?_, ?_, rfl⟩
    · rw [modify_task_ne _ _ hu]
      dsimp only
      rw [modify_task_ne _ _ hu]
    · refine ⟨(s.task c).isIdle, ?_, id⟩
      rw [modify_task_self]
      dsimp only
      rw [modify_task_self]
      by_cases hpc : p = c
      · subst hpc
        simp [forkFields, who]
      · rw [modify_task_ne _ _ hpc]
        rfl
  unfold forkTable
  dsimp only
  refine hprep.right ?_
  refine SameWho.trans (link _ (some p) c).sameWho ?_
  refine SameWho.trans ?_ (setState_sameWho .blocked Nat.cast _ c)
  exact .modify _ c fun _ => rfl

/-- `process_fork` gives the child the group, the session and the credentials of the caller. -/
theorem processFork_begets (L : KernelLayout) (s : ProcState) (tf : Option TrapFrame) :
    processFork L s tf = (s, -1) ∨ ∃ p c, schedulerCurrentTask s.tab = .slot p ∧ taskAlloc s.tab = some c ∧
      Begets (.slot p) (.slot c) s.tab (processFork L s tf).1.tab := by
  unfold processFork
  split
  · rename_i p tf hcur
    split
    · exact .inl rfl
    rename_i c hc
    split
    · exact .inl rfl
    · exact .inr ⟨p, c, hcur, hc, forkTable_begets s.tab _ _ tf⟩
  · exact .inl rfl

/-- A child gets the next pid, and `process_fork` returns it. -/
theorem processFork_pid (L : KernelLayout) (s : ProcState) (tf : Option TrapFrame) :
    processFork L s tf = (s, -1) ∨ (processFork L s tf).2 = s.tab.nextPid ∧
      (processFork L s tf).1.tab.nextPid = s.tab.nextPid + 1 := by
  unfold processFork
  split
  · rename_i p tf _
    split
    · exact .inl rfl
    rename_i c _
    split
    · exact .inl rfl
    have hb := forkTable_begets s.tab (.slot p) (.slot c) tf
    obtain ⟨b, hwho, -⟩ := hb.child
    exact .inr ⟨congrArg (fun w => w.1) hwho, hb.nextPid⟩
  · exact .inl rfl

theorem spawnTable_begets (s : TaskTable) (p c : TaskRef) (name : String) (loaded : Bool) :
    if loaded then Begets p c s (spawnTable s p c name loaded)
    else Wiped c 1 s (spawnTable s p c name loaded) := by
  have hprep : Begets p c s (spawnPrepare s p c name) := by
    unfold spawnPrepare
    refine ⟨fun u hu => ?_, ?_, rfl⟩
    · exact congrArg who (modify_task_ne s (fun _ => spawnFields (s.task p) s.nextPid name) hu)
    refine ⟨false, ?_, by simp⟩
    show ((s.modify c fun _ => spawnFields (s.task p) s.nextPid name).task c).who = _
    rw [modify_task_self]
    rfl
  have hlink := hprep.right (link _ (some p) c).sameWho
  unfold spawnTable
  dsimp only
  cases loaded
  · exact hlink.wiped ((taskRelease_wiped _ c).left (unlink _ c).sameWho)
  · refine hlink.right ?_
    refine SameWho.trans ?_ (makeRunnable _ c _).sameWho
    refine SameWho.trans ?_ (setState_sameWho .blocked Nat.cast _ c)
    exact .modify _ c fun _ => rfl

/-- `process_spawn_exec` does the same; a child that cannot be loaded is wiped. -/
theorem processSpawnExec_begets (L : KernelLayout) (s : ProcState) (name : String) (elf : UserMem → UserMem × Bool) :
    processSpawnExec L s name elf = (s, -1) ∨ ∃ p c, schedulerCurrentTask s.tab = .slot p ∧ taskAlloc s.tab = some c ∧
        (Begets (.slot p) (.slot c) s.tab (processSpawnExec L s name elf).1.tab ∨
          Wiped (.slot c) 1 s.tab (processSpawnExec L s name elf).1.tab ∧ (processSpawnExec L s name elf).2 = -1) := by
  unfold processSpawnExec
  split
  · rename_i p hcur
    split
    · exact .inl rfl
    rename_i c hc
    refine .inr ⟨p, c, hcur, hc, ?_⟩
    dsimp only
    generalize (elf _).2 = loaded
    have h := spawnTable_begets s.tab (.slot p) (.slot c) name loaded
    cases loaded
    · exact .inr ⟨h, rfl⟩
    · exact .inl h
  · exact .inl rfl

theorem waitRound_who (s : TaskTable) (parent : TaskRef) (w : WaitFor) (nohang : Bool) :
    SameWho s (waitRound s parent w nohang).1 ∧ (waitRound s parent w nohang).2.2 = none ∨
      ∃ t, Wiped t 0 s (waitRound s parent w nohang).1 ∧ (waitRound s parent w nohang).2.2 = some t := by
  unfold waitRound
  split
  · exact .inr ⟨_, reap_wiped s _, rfl⟩
  · exact .inl ⟨.refl s, rfl⟩
  · split
    · exact .inl ⟨.refl s, rfl⟩
    · exact .inl ⟨(setState_sameWho _ _ s parent).trans (yield_sameWho _), rfl⟩

/-- The events that leave everybody who he is: no birth, no reaping, no new group or session. -/
def ProcEvent.keepsWho : ProcEvent → Bool
  | .fork _ | .spawnExec _ _ | .wait _ _ | .resumeWait | .setpgid _ _ | .setsid => false
  | _ => true

theorem step_sameWho (L : KernelLayout) (σ : ProcSys) {e : ProcEvent} (he : e.keepsWho = true) :
    SameWho σ.proc.tab (σ.step L e).proc.tab := by
  cases e with
  | exitCurrent code =>
    unfold step
    dsimp only
    split
    · exact exitCurrent_sameWho _ code
    · exact .refl _
  | sigaction sig handler =>
    unfold step
    dsimp only
    split
    · exact sigaction_sameWho _ sig handler
    · exact .refl _
  | killPid pid code => exact killPid_sameWho _ pid code
  | killPgid pgid code => exact killPgid_sameWho _ pgid code
  | sendSignal pid sig => exact sendSignal_sameWho _ pid sig
  | sendSignalPgid pgid sig => exact sendSignalPgid_sameWho _ pgid sig
  | adoptOrphans fromPpid toPpid => exact adopt_sameWho _ fromPpid toPpid
  | setRunnable pid => exact setRunnable_sameWho _ pid
  | yield => exact yield_sameWho _
  | fork _ | spawnExec _ _ | wait _ _ | resumeWait | setpgid _ _ | setsid => simp [ProcEvent.keepsWho] at he

/-- Pids are given out from 1 on, none is negative, and no slot holds an idle task. -/
structure WellNumbered (s : TaskTable) : Prop where
  nextPid : 0 < s.nextPid
  pids : ∀ u, 0 ≤ (s.task u).pid
  slots : ∀ i, (s.task (.slot i)).isIdle = false

theorem WellNumbered.congr (h : WellNumbered s) (hpid : ∀ u, (s'.task u).pid = (s.task u).pid)
    (hidle : ∀ u, (s'.task u).isIdle = (s.task u).isIdle) (hnext : s'.nextPid = s.nextPid) : WellNumbered s' where
  nextPid := by
    rw [hnext]
    exact h.nextPid
  pids u := by
    rw [hpid]
    exact h.pids u
  slots i := by
    rw [hidle]
    exact h.slots i

theorem WellNumbered.same (h : WellNumbered s) (hs : SameWho s s') : WellNumbered s' :=
  h.congr (fun u => congrArg (fun w => w.1) (hs.who u)) (fun u => congrArg (fun w => w.2.2.2.2) (hs.who u)) hs.nextPid

theorem WellNumbered.begets {i : Fin procMaxTasks} (h : WellNumbered s) (hb : Begets p (.slot i) s s') :
    WellNumbered s' := by
  obtain ⟨b, hwho, hidle⟩ := hb.child
  simp only [who, Prod.mk.injEq] at hwho
  have hother := fun u (hu : u ≠ .slot i) => hb.other u hu
  simp only [who, Prod.mk.injEq] at hother
  constructor
  · have hnext := h.nextPid
    rw [hb.nextPid]
    omega
  · intro u
    by_cases hu : u = .slot i
    · rw [hu, hwho.1]
      exact h.nextPid.le
    · rw [(hother u hu).1]
      exact h.pids u
  · intro j
    by_cases hj : TaskRef.slot j = .slot i
    · rw [hj, hwho.2.2.2.2]
      cases b with
      | false => rfl
      | true => exact absurd (hidle rfl) (by simp [h.slots i])
    · rw [(hother _ hj).2.2.2.2]
      exact h.slots j

theorem WellNumbered.wiped (h : WellNumbered s) (hw : Wiped t n s s') : WellNumbered s' := by
  have hother := fun u (hu : u ≠ t) => hw.other u hu
  have hself := hw.self
  simp only [who, Prod.mk.injEq] at hother hself
  constructor
  · have hnext := h.nextPid
    rw [hw.nextPid]
    omega
  · intro u
    by_cases hu : u = t
    · rw [hu, hself.1]
    · rw [(hother u hu).1]
      exact h.pids u
  · intro i
    by_cases hi : TaskRef.slot i = t
    · rw [hi, hself.2.2.2.2]
    · rw [(hother _ hi).2.2.2.2]
      exact h.slots i

theorem WellNumbered.fork {s : ProcState} (h : WellNumbered s.tab) (L : KernelLayout) (tf : Option TrapFrame) :
    WellNumbered (processFork L s tf).1.tab := by
  rcases processFork_begets L s tf with heq | ⟨p, c, -, -, hb⟩
  · rw [heq]
    exact h
  · exact h.begets hb

theorem WellNumbered.spawnExec {s : ProcState} (h : WellNumbered s.tab) (L : KernelLayout) (name : String)
    (elf : UserMem → UserMem × Bool) : WellNumbered (processSpawnExec L s name elf).1.tab := by
  rcases processSpawnExec_begets L s name elf with heq | ⟨p, c, -, -, hb | ⟨hw, -⟩⟩
  · rw [heq]
    exact h
  · exact h.begets hb
  · exact h.wiped hw

theorem WellNumbered.waitStep {σ : ProcSys} (h : WellNumbered σ.proc.tab) (w : WaitFor) (nohang : Bool) :
    WellNumbered (σ.waitStep w nohang).proc.tab := by
  rcases waitRound_who σ.proc.tab σ.current w nohang with ⟨hsame, -⟩ | ⟨t, hw, -⟩
  · exact h.same hsame
  · exact h.wiped hw

theorem WellNumbered.modify (h : WellNumbered s) {f : Task → Task} (hpid : ∀ x, (f x).pid = x.pid)
    (hidle : ∀ x, (f x).isIdle = x.isIdle) : WellNumbered (s.modify t f) :=
  h.congr (fun u => modify_proj s t u f pid hpid) (fun u => modify_proj s t u f isIdle hidle) rfl

theorem WellNumbered.setpgid (h : WellNumbered s) (pid pgid : ℤ) : WellNumbered (processSetpgid s pid pgid).1 := by
  unfold processSetpgid
  dsimp only
  split
  · exact h
  generalize (if pgid = 0 then _ else pgid) = g
  split
  · exact h
  split
  · dsimp only
    apply h.modify <;> exact fun _ => rfl
  · exact h

theorem WellNumbered.setsid (h : WellNumbered s) : WellNumbered (processSetsid s).1 := by
  unfold processSetsid
  dsimp only
  split
  · exact h
  · dsimp only
    apply h.modify <;> exact fun _ => rfl

theorem WellNumbered.step {L : KernelLayout} {σ : ProcSys} (h : WellNumbered σ.proc.tab) (e : ProcEvent) :
    WellNumbered (σ.step L e).proc.tab := by
  cases e with
  | fork tf =>
    unfold ProcSys.step
    dsimp only
    split
    · exact h.fork L tf
    · exact h
  | spawnExec name elf =>
    unfold ProcSys.step
    dsimp only
    split
    · exact h.spawnExec L name elf
    · exact h
  | wait w nohang =>
    unfold ProcSys.step
    dsimp only
    split
    · exact h.waitStep w nohang
    · exact h
  | resumeWait =>
    unfold ProcSys.step
    dsimp only
    split
    · exact h.waitStep _ false
    · exact h
  | setpgid pid pgid =>
    unfold ProcSys.step
    dsimp only
    split
    · exact h.setpgid pid pgid
    · exact h
  | setsid =>
    unfold ProcSys.step
    dsimp only
    split
    · exact h.setsid
    · exact h
  | exitCurrent _ | killPid _ _ | killPgid _ _ | sendSignal _ _ | sendSignalPgid _ _ | adoptOrphans _ _
  | setRunnable _ | sigaction _ _ | yield => exact h.same (step_sameWho L σ rfl)

theorem ProcSys.nextPid_le (L : KernelLayout) (σ : ProcSys) (e : ProcEvent) :
    σ.proc.tab.nextPid ≤ (σ.step L e).proc.tab.nextPid := by
  have hwait : ∀ w nohang, σ.proc.tab.nextPid ≤ (σ.waitStep w nohang).proc.tab.nextPid := by
    intro w nohang
    rcases waitRound_who σ.proc.tab σ.current w nohang with ⟨hsame, -⟩ | ⟨t, hw, -⟩
    · exact hsame.nextPid.ge
    · have hnext := hw.nextPid
      exact (hnext.trans (by simp)).ge
  cases e with
  | fork tf =>
    unfold step
    dsimp only
    split
    · rcases processFork_begets L σ.proc tf with heq | ⟨p, c, -, -, hb⟩
      · rw [heq]
      · have hnext := hb.nextPid
        dsimp only
        omega
    · exact le_rfl
  | spawnExec name elf =>
    unfold step
    dsimp only
    split
    · rcases processSpawnExec_begets L σ.proc name elf with heq | ⟨p, c, -, -, hb | ⟨hw, -⟩⟩
      · rw [heq]
      · have hnext := hb.nextPid
        dsimp only
        omega
      · have hnext := hw.nextPid
        dsimp only
        omega
    · exact le_rfl
  | wait w nohang =>
    unfold step
    dsimp only
    split
    · exact hwait w nohang
    · exact le_rfl
  | resumeWait =>
    unfold step
    dsimp only
    split
    · exact hwait _ false
    · exact le_rfl
  | setpgid pid pgid =>
    unfold step
    dsimp only
    split
    · exact (setpgid_unharmed _ pid pgid).nextPid.ge
    · exact le_rfl
  | setsid =>
    unfold step
    dsimp only
    split
    · exact (setsid_unharmed _).nextPid.ge
    · exact le_rfl
  | exitCurrent _ | killPid _ _ | killPgid _ _ | sendSignal _ _ | sendSignalPgid _ _ | adoptOrphans _ _
  | setRunnable _ | sigaction _ _ | yield => exact (step_sameWho L σ rfl).nextPid.ge

theorem wellNumbered_boot (L : KernelLayout) : WellNumbered (boot L).proc.tab := by
  have hinit := processInitTable_init
  refine ⟨?_, fun u => ?_, fun i => ?_⟩
  · show 0 < processInitTable.nextPid
    decide
  · show 0 ≤ (processInitTable.task u).pid
    rcases u with i | c
    · rcases eq_or_ne i 0 with rfl | hi
      · rw [hinit.2.1]
        decide
      · rw [processInitTable_slot i hi]
    · rw [processInitTable_idle]
  · show (processInitTable.task (.slot i)).isIdle = false
    rcases eq_or_ne i 0 with rfl | hi
    · exact hinit.2.2.2.2
    · rw [processInitTable_slot i hi]

end Who

end EdgeOS
