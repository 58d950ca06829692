import EdgeOS.Lib.Sessions
import EdgeOS.TaskIds

namespace EdgeOS

open Lib TaskTable Function TaskRef ProcSys

/-!
Job control: process groups and sessions over whole runs. `process_setsid` looks at the caller's group
only, and `process_setpgid` lets a session leader leave its group.
-/

/-- Tasks of one group are in one session, and a session leader leads its own group. -/
structure JobControl (s : TaskTable) : Prop where
  session : ∀ i j, Live s (.slot i) → Live s (.slot j) →
    (s.task (.slot i)).pgid = (s.task (.slot j)).pgid → (s.task (.slot i)).sid = (s.task (.slot j)).sid
  leader : ∀ i, Live s (.slot i) → (s.task (.slot i)).sid = (s.task (.slot i)).pid →
    (s.task (.slot i)).pgid = (s.task (.slot i)).pid

namespace ProcSys

def jobs (σ : ProcSys) : Jobs (Fin procMaxTasks) where
  pid i := (σ.proc.tab.task (.slot i)).pid
  pgid i := (σ.proc.tab.task (.slot i)).pgid
  sid i := (σ.proc.tab.task (.slot i)).sid
  next := σ.proc.tab.nextPid

/-- A successful `setsid` gives the caller a group without other members. -/
def SetsidAlone (σ : ProcSys) : Prop :=
  0 ≤ (processSetsid σ.proc.tab).2 → ∀ j, Live σ.proc.tab (.slot j) → .slot j ≠ σ.current →
    (σ.proc.tab.task (.slot j)).pgid ≠ (σ.proc.tab.task σ.current).pid

/-- A task that calls `setsid` and does not lead its group finds nobody in the group of its number. -/
def SetsidOk (σ : ProcSys) : Prop :=
  σ.free = true → (σ.proc.tab.task σ.current).pgid ≠ (σ.proc.tab.task σ.current).pid →
    ∀ j, .slot j ≠ σ.current → (σ.proc.tab.task (.slot j)).pgid ≠ (σ.proc.tab.task σ.current).pid

/-- A session leader is put into no other group than its own, unless `process_setpgid` refuses. -/
def SetpgidOk (σ : ProcSys) (pid pgid : ℤ) : Prop :=
  σ.free = true → ∀ i : Fin procMaxTasks,
    taskFindByPid σ.proc.tab (if pid = 0 then (σ.proc.tab.task σ.current).pid else pid) = some (.slot i) →
    (σ.proc.tab.task (.slot i)).sid = (σ.proc.tab.task (.slot i)).pid →
    pgid = 0 ∨ pgid = (σ.proc.tab.task (.slot i)).pid ∨
      (σ.proc.tab.task (.slot i)).sid ≠ (σ.proc.tab.task σ.current).sid ∨
      pgidAllowed σ.proc.tab (σ.proc.tab.task σ.current).sid (σ.proc.tab.task (.slot i)).pid pgid = false

def jobStepOk (σ : ProcSys) : ProcEvent → Prop
  | .setsid => σ.SetsidOk
  | .setpgid pid pgid => σ.SetpgidOk pid pgid
  | _ => True

instance (σ : ProcSys) : Decidable σ.SetsidOk :=
  inferInstanceAs (Decidable (_ → _ → ∀ j, TaskRef.slot j ≠ σ.current → _ ≠ _))

instance (σ : ProcSys) (pid pgid : ℤ) : Decidable (σ.SetpgidOk pid pgid) :=
  inferInstanceAs (Decidable (_ → ∀ i : Fin procMaxTasks, _ = some (TaskRef.slot i) → _ = _ → _ ∨ _ ∨ _ ∨ _))

section Steps

variable {L : KernelLayout} {σ σ' : ProcSys}

theorem jobs_congr (h : SameWho σ.proc.tab σ'.proc.tab) : σ'.jobs = σ.jobs := by
  have hwho := fun i => h.who (.slot i)
  simp only [Task.who, Prod.mk.injEq] at hwho
  unfold jobs
  rw [Jobs.mk.injEq]
  refine ⟨funext fun i => (hwho i).1, funext fun i => (hwho i).2.1, funext fun i => (hwho i).2.2.1, h.nextPid⟩

theorem jobs_begets {p c : Fin procMaxTasks} (h : Begets (.slot p) (.slot c) σ.proc.tab σ'.proc.tab) :
    σ'.jobs = σ.jobs.beget p c := by
  have hother := fun i (hi : i ≠ c) => h.other (.slot i) fun he => hi (slot.inj he)
  obtain ⟨b, hchild, -⟩ := h.child
  simp only [Task.who, Prod.mk.injEq] at hother hchild
  unfold jobs Jobs.beget
  rw [Jobs.mk.injEq]
  refine ⟨?_, ?_, ?_, h.nextPid⟩ <;> funext i <;> rw [update_apply] <;> split_ifs with hi
  · rw [hi, hchild.1]
  · rw [(hother i hi).1]
  · rw [hi, hchild.2.1]
  · rw [(hother i hi).2.1]
  · rw [hi, hchild.2.2.1]
  · rw [(hother i hi).2.2.1]

theorem jobs_wiped {c : Fin procMaxTasks} {n : ℕ} (h : Wiped (.slot c) n σ.proc.tab σ'.proc.tab) :
    σ'.jobs = { σ.jobs.wipe c with next := σ.jobs.next + n } := by
  have hother := fun i (hi : i ≠ c) => h.other (.slot i) fun he => hi (slot.inj he)
  have hself := h.self
  simp only [Task.who, Prod.mk.injEq] at hother hself
  unfold jobs Jobs.wipe
  rw [Jobs.mk.injEq]
  dsimp only
  refine ⟨?_, ?_, ?_, h.nextPid⟩ <;> funext i <;> rw [update_apply] <;> split_ifs with hi
  · rw [hi, hself.1]
  · rw [(hother i hi).1]
  · rw [hi, hself.2.1]
  · rw [(hother i hi).2.1]
  · rw [hi, hself.2.2.1]
  · rw [(hother i hi).2.2.1]

theorem orderly_wiped {c : TaskRef} {n : ℕ} (ho : σ.jobs.Orderly) (h : Wiped c n σ.proc.tab σ'.proc.tab) :
    σ'.jobs.Orderly := by
  rcases c with c | c
  · rw [jobs_wiped h]
    apply (ho.wipe c).skip
    show σ.jobs.next ≤ σ.jobs.next + n
    omega
  -- No slot is touched.
  have hother := fun i => h.other (.slot i) (by simp)
  simp only [Task.who, Prod.mk.injEq] at hother
  have heq : σ'.jobs = { σ.jobs with next := σ.jobs.next + n } := by
    unfold jobs
    rw [Jobs.mk.injEq]
    exact ⟨funext fun i => (hother i).1, funext fun i => (hother i).2.1, funext fun i => (hother i).2.2.1, h.nextPid⟩
  rw [heq]
  apply ho.skip
  omega

theorem orderly_setsid (ho : σ.jobs.Orderly) (hok : σ.jobStepOk .setsid) (hfree : σ.free = true) :
    (σ.withTab (processSetsid σ.proc.tab).1).jobs.Orderly := by
  obtain ⟨i, hi, -⟩ := free_slot hfree
  have halone := hok hfree
  have hcur : schedulerCurrentTask σ.proc.tab = .slot i := hi
  rw [hi] at halone
  unfold processSetsid
  dsimp only
  rw [hcur]
  split
  · exact ho
  rename_i hlead
  have heq : (σ.withTab (σ.proc.tab.modify (.slot i) fun x =>
      { x with sid := x.pid, pgid := x.pid, cttyKind := processCttyNone, cttyId := -1 })).jobs =
      σ.jobs.secede i := by
    unfold jobs Jobs.secede withTab
    rw [Jobs.mk.injEq]
    dsimp only
    refine ⟨?_, ?_, ?_, rfl⟩ <;> funext j <;> rw [modify_task]
    · split_ifs with hj
      · rw [slot.inj hj]
      · rfl
    · rw [update_apply]
      simp only [slot.injEq]
      split_ifs with hj
      · rfl
      · rfl
    · rw [update_apply]
      simp only [slot.injEq]
      split_ifs with hj
      · rfl
      · rfl
  rw [heq]
  exact ho.secede fun j hj => halone hlead j fun he => hj (slot.inj he)

theorem orderly_setpgid (ho : σ.jobs.Orderly) {pid pgid : ℤ} (hok : σ.jobStepOk (.setpgid pid pgid))
    (hfree : σ.free = true) : (σ.withTab (processSetpgid σ.proc.tab pid pgid).1).jobs.Orderly := by
  have hlead := hok hfree
  unfold processSetpgid
  dsimp only
  split
  · exact ho
  rename_i t ht
  obtain ⟨⟨i, rfl⟩, -⟩ := taskFindByPid_some ht
  have hlead := hlead i ht
  generalize hg : (if pgid = 0 then (σ.proc.tab.task (.slot i)).pid else pgid) = g
  split
  · exact ho
  rename_i hsid
  split
  swap
  · exact ho
  rename_i hallowed
  have hsid' : (σ.proc.tab.task (.slot i)).sid = (σ.proc.tab.task (schedulerCurrentTask σ.proc.tab)).sid := by
    simpa using hsid
  have heq : ∀ g, (σ.withTab (σ.proc.tab.modify (.slot i) fun x => { x with pgid := g })).jobs =
      σ.jobs.regroup i g := by
    intro g
    unfold jobs Jobs.regroup withTab
    rw [Jobs.mk.injEq]
    dsimp only
    refine ⟨?_, ?_, ?_, rfl⟩ <;> funext j <;> rw [modify_task]
    · split_ifs with hj
      · rw [slot.inj hj]
      · rfl
    · rw [update_apply]
      simp only [slot.injEq]
      split_ifs with hj
      · rfl
      · rfl
    · split_ifs with hj
      · rw [slot.inj hj]
      · rfl
  rw [heq]
  -- The group is named after a task of the caller's session.
  have hnamed : ∃ l, σ.jobs.pid l = g ∧ σ.jobs.sid l = σ.jobs.sid i := by
    unfold pgidAllowed at hallowed
    split at hallowed
    · simp at hallowed
    split at hallowed
    · rename_i hown
      exact ⟨i, hown.symm, rfl⟩
    split at hallowed
    · simp at hallowed
    rename_i u hu
    obtain ⟨⟨l, rfl⟩, -, hpid⟩ := taskFindByPid_some hu
    refine ⟨l, hpid, ?_⟩
    have hl : (σ.proc.tab.task (.slot l)).sid =
        (σ.proc.tab.task (schedulerCurrentTask σ.proc.tab)).sid := by simpa using hallowed
    exact hl.trans hsid'.symm
  obtain ⟨l, hl, hlsid⟩ := hnamed
  refine ho.regroup hl hlsid fun hleads => ?_
  rcases hlead hleads with h0 | hown | hother | hrefused
  · rw [if_pos h0] at hg
    exact hg.symm
  · split_ifs at hg
    · exact hg.symm
    · rw [← hg]
      exact hown
  · exact absurd hsid' hother
  · split_ifs at hg with h0
    · exact hg.symm
    · rw [← hg] at hallowed
      have hrefused' : pgidAllowed σ.proc.tab (σ.proc.tab.task (schedulerCurrentTask σ.proc.tab)).sid
          (σ.proc.tab.task (.slot i)).pid pgid = false := hrefused
      rw [hrefused'] at hallowed
      simp at hallowed

theorem orderly_waitStep (ho : σ.jobs.Orderly) (w : WaitFor) (nohang : Bool) : (σ.waitStep w nohang).jobs.Orderly := by
  rcases waitRound_who σ.proc.tab σ.current w nohang with ⟨hsame, -⟩ | ⟨t, hwiped, -⟩
  · rw [@jobs_congr σ (σ.waitStep w nohang) hsame]
    exact ho
  · exact @orderly_wiped σ (σ.waitStep w nohang) t 0 ho hwiped

theorem orderly_step (ho : σ.jobs.Orderly) (e : ProcEvent) (hok : σ.jobStepOk e) : (σ.step L e).jobs.Orderly := by
  have hsame : ∀ σ' : ProcSys, SameWho σ.proc.tab σ'.proc.tab → σ'.jobs.Orderly := by
    intro σ' h
    rw [jobs_congr h]
    exact ho
  cases e with
  | fork tf =>
    unfold step
    dsimp only
    split
    · rcases processFork_begets L σ.proc tf with heq | ⟨p, c, -, -, hb⟩
      · rw [heq]
        exact ho
      · rw [@jobs_begets σ { σ with proc := (processFork L σ.proc tf).1 } p c hb]
        exact ho.beget p c
    · exact ho
  | spawnExec name elf =>
    unfold step
    dsimp only
    split
    · rcases processSpawnExec_begets L σ.proc name elf with heq | ⟨p, c, -, -, hb | ⟨hw, -⟩⟩
      · rw [heq]
        exact ho
      · rw [@jobs_begets σ { σ with proc := (processSpawnExec L σ.proc name elf).1 } p c hb]
        exact ho.beget p c
      · exact @orderly_wiped σ { σ with proc := (processSpawnExec L σ.proc name elf).1 } _ _ ho hw
    · exact ho
  | wait w nohang =>
    unfold step
    dsimp only
    split
    · exact orderly_waitStep ho w nohang
    · exact ho
  | resumeWait =>
    unfold step
    dsimp only
    split
    · exact orderly_waitStep ho _ false
    · exact ho
  | setpgid pid pgid =>
    unfold step
    dsimp only
    split
    · rename_i hfree
      exact orderly_setpgid ho hok hfree
    · exact ho
  | setsid =>
    unfold step
    dsimp only
    split
    · rename_i hfree
      exact orderly_setsid ho hok hfree
    · exact ho
  | exitCurrent _ | killPid _ _ | killPgid _ _ | sendSignal _ _ | sendSignalPgid _ _ | adoptOrphans _ _
  | setRunnable _ | sigaction _ _ | yield => exact hsame _ (step_sameWho L σ rfl)

theorem orderly_boot : (boot L).jobs.Orderly := by
  have hids : ∀ i : Fin procMaxTasks, (boot L).jobs.pid i = (if i = 0 then 1 else 0) ∧
      (boot L).jobs.pgid i = (if i = 0 then 1 else 0) ∧ (boot L).jobs.sid i = if i = 0 then 1 else 0 := by
    intro i
    by_cases hi : i = 0
    · subst hi
      exact ⟨rfl, rfl, rfl⟩
    have hblank : (boot L).proc.tab.task (.slot i) = {} := processInitTable_slot i hi
    unfold jobs
    dsimp only
    rw [hblank, if_neg hi]
    exact ⟨rfl, rfl, rfl⟩
  have hnext : (boot L).jobs.next = 2 := rfl
  refine ⟨by omega, fun i => ?_, fun i => ?_, fun i j => ?_, fun i j => ?_, fun i => ?_, fun i j => ?_⟩ <;>
    simp only [hids, hnext]
  · split_ifs <;> simp
  · split_ifs <;> simp
  · split_ifs with hi hj
    · exact fun _ _ => hi.trans hj.symm
    all_goals simp
  · exact id
  · exact id
  · exact id

end Steps

end ProcSys

theorem jobControl_of_orderly {σ : ProcSys} (h : σ.jobs.Orderly) : JobControl σ.proc.tab :=
  ⟨fun i j _ _ => h.session i j, fun i _ => h.leader i⟩

/-- In every run whose steps meet the condition the groups and sessions are in order, and every
`setsid` gives its caller a group without other members. -/
theorem job_control (L : KernelLayout) (es : List ProcEvent)
    (hok : Meets (ProcSys.step L) ProcSys.jobStepOk (ProcSys.boot L) es) :
    JobControl (run (ProcSys.step L) (ProcSys.boot L) es).proc.tab ∧
      Meets (ProcSys.step L) (fun σ e => e = .setsid → σ.free = true → σ.SetsidAlone) (ProcSys.boot L) es := by
  have hstep : ∀ (σ : ProcSys) e, σ.jobs.Orderly → σ.jobStepOk e → (σ.step L e).jobs.Orderly :=
    fun _ e h hok => ProcSys.orderly_step h e hok
  refine ⟨jobControl_of_orderly (run_invariant (I := fun σ => σ.jobs.Orderly) hstep ProcSys.orderly_boot hok),
    meets_of_invariant (I := fun σ => σ.jobs.Orderly) hstep ?_ ProcSys.orderly_boot hok⟩
  rintro σ e - hok rfl hfree hret j -
  refine hok hfree (fun hlead => ?_) j
  have hrefused : (processSetsid σ.proc.tab).2 = -1 := congrArg Prod.snd (if_pos hlead)
  rw [hrefused] at hret
  simp at hret

/-- Two children of init. The first takes a group of its own, the second joins it; the first goes back
to init's group and calls `setsid`. -/
def groupLeft : List ProcEvent :=
  [.spawnExec "a" fun m => (m, true), .spawnExec "b" fun m => (m, true), .yield, .setpgid 0 0, .yield,
    .setpgid 0 2, .yield, .yield, .setpgid 0 1, .setsid]

/-- The caller of `setsid` is in a session of its own, and in a group with a task of init's session. -/
theorem groupLeft_crosses_sessions :
    let s := (run (ProcSys.step { kernelEnd := 0x48000000 }) (ProcSys.boot { kernelEnd := 0x48000000 })
      groupLeft).proc.tab
    (s.task (.slot 1)).pgid = 2 ∧ (s.task (.slot 1)).sid = 2 ∧ (s.task (.slot 2)).pgid = 2 ∧
      (s.task (.slot 2)).sid = 1 ∧ ¬ JobControl s := by
  intro s
  have hids : (s.task (.slot 1)).pgid = 2 ∧ (s.task (.slot 1)).sid = 2 ∧ (s.task (.slot 2)).pgid = 2 ∧
      (s.task (.slot 2)).sid = 1 := by decide +kernel
  have hlive : (s.task (.slot 1)).state ≠ .unused ∧ (s.task (.slot 2)).state ≠ .unused := by decide +kernel
  refine ⟨hids.1, hids.2.1, hids.2.2.1, hids.2.2.2, fun h => ?_⟩
  have hsid := h.session 1 2 hlive.1 hlive.2 (hids.1.trans hids.2.2.1.symm)
  rw [hids.2.1, hids.2.2.2] at hsid
  simp at hsid

/-- The same without the last two calls, and with a `setsid` by the second child. -/
def groupKept : List ProcEvent :=
  [.spawnExec "a" fun m => (m, true), .spawnExec "b" fun m => (m, true), .yield, .setpgid 0 0, .yield,
    .setpgid 0 2, .setsid]

theorem groupKept_job_control : Meets (ProcSys.step { kernelEnd := 0x48000000 }) ProcSys.jobStepOk
        (ProcSys.boot { kernelEnd := 0x48000000 }) groupKept ∧
      JobControl (run (ProcSys.step { kernelEnd := 0x48000000 })
        (ProcSys.boot { kernelEnd := 0x48000000 }) groupKept).proc.tab := by
  have h : Meets (ProcSys.step { kernelEnd := 0x48000000 }) ProcSys.jobStepOk
      (ProcSys.boot { kernelEnd := 0x48000000 }) groupKept := by
    refine ⟨trivial, trivial, trivial, ?_, trivial, ?_, ?_, trivial⟩
    · show ProcSys.SetpgidOk _ 0 0
      decide +kernel
    · show ProcSys.SetpgidOk _ 0 2
      decide +kernel
    · show ProcSys.SetsidOk _
      decide +kernel
  exact ⟨h, (job_control _ _ h).1⟩

end EdgeOS
