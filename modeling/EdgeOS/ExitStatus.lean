import EdgeOS.ProcessSystem
import EdgeOS.TaskLife

namespace EdgeOS

open Lib TaskTable EdgeOS.Task

/-!
What wait reports. Beside the process layer the system below keeps, for each pid, the code of
the event that first made it a zombie, and the pids that a wait has returned.
-/

def ProcEvent.code : ProcEvent → ℤ
  | .exitCurrent code | .killPid _ code | .killPgid _ code => code
  | .sendSignal _ sig | .sendSignalPgid _ sig => 128 + sig
  | _ => 0

def zombiePid (s : TaskTable) (pid : ℤ) : Bool :=
  (List.finRange procMaxTasks).any fun i =>
    (s.task (.slot i)).state = .zombie ∧ (s.task (.slot i)).pid = pid

/-- The pid and the status that a wait of the running task returns. -/
def WaitResult.reapedPid : WaitResult → Option (ℤ × ℤ)
  | .reaped pid status => some (pid, status)
  | _ => none

theorem WaitResult.reapedPid_none {r : WaitResult} (h : ∀ pid status, r ≠ .reaped pid status) : r.reapedPid = none := by
  cases r with
  | reaped pid status => exact absurd rfl (h pid status)
  | noChild | again | blocked => rfl

def ProcSys.collects (σ : ProcSys) : ProcEvent → Option (ℤ × ℤ)
  | .wait w nohang =>
    if σ.free then (waitRound σ.proc.tab σ.current w nohang).2.1.reapedPid else none
  | .resumeWait =>
    match σ.waiting σ.current with
    | some w => (waitRound σ.proc.tab σ.current w false).2.1.reapedPid
    | none => none
  | _ => none

structure WaitLog where
  sys : ProcSys
  died : ℤ → Option ℤ := fun _ => none
  reaped : List ℤ := []

namespace WaitLog

def step (L : KernelLayout) (k : WaitLog) (e : ProcEvent) : WaitLog where
  sys := k.sys.step L e
  died pid := (k.died pid).or
    (if zombiePid (k.sys.step L e).proc.tab pid then some e.code else none)
  reaped := match k.sys.collects e with
    | some (pid, _) => pid :: k.reaped
    | none => k.reaped

/-- What a successful wait returns: a pid that no wait has returned before, of a zombie whose
parent is the caller, with the status of its first death. -/
def Faithful (k : WaitLog) (e : ProcEvent) : Prop :=
  ∀ pid status, k.sys.collects e = some (pid, status) →
    pid ∉ k.reaped ∧ ∃ i code, (k.sys.proc.tab.task (.slot i)).pid = pid ∧
      (k.sys.proc.tab.task (.slot i)).state = .zombie ∧
      (k.sys.proc.tab.task (.slot i)).tree.parent = some k.sys.current ∧
      (k.sys.proc.tab.task (.slot i)).ppid = (k.sys.proc.tab.task k.sys.current).pid ∧
      k.died pid = some code ∧ status = code % 256 * 256

/-- Zombies are left in peace: they make no process and do not exit again, no kill is directed
at one and none is started. A direct adoption is as in `treeStepOk`. -/
def SparesZombies (k : WaitLog) : ProcEvent → Prop
  | .fork _ | .spawnExec _ _ | .exitCurrent _ =>
    (k.sys.proc.tab.task k.sys.current).state ≠ .zombie
  | .killPid pid _ | .setRunnable pid =>
    ∀ t, taskFindByPid k.sys.proc.tab pid = some t → (k.sys.proc.tab.task t).state ≠ .zombie
  | .killPgid pgid _ => ∀ i, (k.sys.proc.tab.task (.slot i)).pgid = pgid →
      (k.sys.proc.tab.task (.slot i)).state ≠ .zombie
  | .adoptOrphans fromPpid toPpid => AdoptOk k.sys.proc.tab fromPpid toPpid
  | _ => True

end WaitLog

theorem zombiePid_iff {s : TaskTable} {pid : ℤ} : zombiePid s pid = true ↔
    ∃ i, (s.task (.slot i)).state = .zombie ∧ (s.task (.slot i)).pid = pid := by
  simp [zombiePid]

/-! ## One step -/

/-- What an event does to the lives of all tasks. -/
inductive Change (e : ProcEvent) (σ : ProcSys) (s' : TaskTable) : Prop
  | deaths (h : Deaths e.code σ.proc.tab s') (hc : σ.collects e = none)
  | births (h : Births σ.proc.tab s') (hc : σ.collects e = none)
  | reap (t : TaskRef) (hp : (σ.proc.tab.task t).tree.parent = some σ.current)
      (hz : (σ.proc.tab.task t).state = .zombie) (h : Freed t σ.proc.tab s')
      (hc : σ.collects e = some ((σ.proc.tab.task t).pid, (σ.proc.tab.task t).exitCode % 256 * 256))

section Changes

variable {L : KernelLayout} {σ : ProcSys}

theorem Change.unharmed {e : ProcEvent} {s' : TaskTable} (h : Unharmed σ.proc.tab s')
    (hc : σ.collects e = none) : Change e σ s' := .deaths (h.deaths e.code) hc

/-- What a fork comes to: nothing, or a live child with the next pid. -/
theorem processFork_births {s : ProcState} (h : TreeInv s.tab) (tf : Option TrapFrame) :
    processFork L s tf = (s, -1) ∨ Births s.tab (processFork L s tf).1.tab ∧ (processFork L s tf).2 = s.tab.nextPid ∧
      ∃ i, ((processFork L s tf).1.tab.task (.slot i)).pid = s.tab.nextPid ∧
        ((processFork L s tf).1.tab.task (.slot i)).state ≠ .unused ∧
        ((processFork L s tf).1.tab.task (.slot i)).state ≠ .zombie := by
  unfold processFork
  split
  · rename_i parent tf _
    split
    · exact .inl rfl
    rename_i child halloc
    split_ifs
    · exact .inl rfl
    · have hchild := forkTable_child (h.1.slots child) (.slot parent) tf
      exact .inr ⟨forkTable_births h (taskAlloc_some halloc).2 tf, hchild.1, child, hchild⟩
  · exact .inl rfl

theorem processSpawnExec_births {s : ProcState} (h : TreeInv s.tab) (name : String)
    (elf : UserMem → UserMem × Bool) : (processSpawnExec L s name elf).1.tab = s.tab ∨
      Births s.tab (processSpawnExec L s name elf).1.tab := by
  unfold processSpawnExec
  split
  · split
    · exact .inl rfl
    · rename_i child halloc
      exact .inr (spawnTable_births h (taskAlloc_some halloc).2 name _)
  · exact .inl rfl

theorem ProcSys.TreeKept.fork_change (h : σ.TreeKept) (tf : Option TrapFrame) :
    Change (.fork tf) σ (processFork L σ.proc tf).1.tab := by
  rcases processFork_births (L := L) h.tree tf with heq | ⟨hb, -⟩
  · rw [heq]
    exact .unharmed (.refl _) rfl
  · exact .births hb rfl

theorem ProcSys.TreeKept.spawn_change (h : σ.TreeKept) (name : String) (elf : UserMem → UserMem × Bool) :
    Change (.spawnExec name elf) σ (processSpawnExec L σ.proc name elf).1.tab := by
  rcases processSpawnExec_births (L := L) h.tree name elf with heq | hb
  · rw [heq]
    exact .unharmed (.refl _) rfl
  · exact .births hb rfl

theorem ProcSys.TreeKept.wait_change (h : σ.TreeKept) (hcur : IsSlot σ.current) (w : WaitFor) (nohang : Bool) {e : ProcEvent}
    (hc : σ.collects e = (waitRound σ.proc.tab σ.current w nohang).2.1.reapedPid) :
    Change e σ (waitRound σ.proc.tab σ.current w nohang).1 := by
  rcases waitRound_cases h.tree hcur w nohang with ⟨t, hp, hz, heq⟩ | ⟨hu, hno⟩
  · have heq' : waitRound σ.proc.tab σ.current w nohang = _ := heq
    rw [heq'] at hc ⊢
    exact .reap t hp hz (reap_freed _ t) hc
  · exact .unharmed hu (hc.trans (WaitResult.reapedPid_none hno))

theorem ProcSys.TreeKept.change {k : WaitLog} (h : k.sys.TreeKept) (e : ProcEvent)
    (hok : k.SparesZombies e) : Change e k.sys (k.sys.step L e).proc.tab := by
  have hsame : k.sys.collects e = none → Change e k.sys k.sys.proc.tab := .unharmed (.refl _)
  cases e with
  | fork tf =>
    unfold ProcSys.step
    split_ifs
    · exact h.fork_change tf
    · exact hsame rfl
  | spawnExec name elf =>
    unfold ProcSys.step
    split_ifs
    · exact h.spawn_change name elf
    · exact hsame rfl
  | exitCurrent code =>
    unfold ProcSys.step
    split_ifs with hfree
    · obtain ⟨i, hi, -⟩ := ProcSys.free_slot hfree
      exact .deaths (exitCurrent_deaths h.tree ⟨i, hi⟩ code hok) rfl
    · exact hsame rfl
  | wait w nohang =>
    unfold ProcSys.step
    split_ifs with hfree
    · obtain ⟨i, hi, -⟩ := ProcSys.free_slot hfree
      exact h.wait_change ⟨i, hi⟩ w nohang (if_pos hfree)
    · exact hsame (if_neg hfree)
  | resumeWait =>
    rcases hw : k.sys.waiting k.sys.current with _ | w
    · have hc : k.sys.collects .resumeWait = none := by simp only [ProcSys.collects, hw]
      simp only [ProcSys.step, hw]
      exact hsame hc
    have hc : k.sys.collects .resumeWait = (waitRound k.sys.proc.tab k.sys.current w false).2.1.reapedPid := by
      simp only [ProcSys.collects, hw]
    simp only [ProcSys.step, hw]
    exact h.wait_change (h.waiters _ _ hw) w false hc
  | killPid pid code => exact .deaths (killPid_deaths h.tree pid code hok) rfl
  | killPgid pgid code => exact .deaths (killPgid_deaths h.tree pgid code hok) rfl
  | sendSignal pid sig => exact .deaths (sendSignal_deaths h.tree pid sig) rfl
  | sendSignalPgid pgid sig => exact .deaths (sendSignalPgid_deaths h.tree pgid sig) rfl
  | adoptOrphans fromPpid toPpid =>
    exact .unharmed (processAdoptOrphans_moves _ fromPpid toPpid).unharmed rfl
  | setRunnable pid => exact .unharmed (setRunnable_unharmed hok) rfl
  | sigaction sig handler =>
    unfold ProcSys.step
    split_ifs
    · exact .unharmed (rtSigaction_unharmed _ sig handler) rfl
    · exact hsame rfl
  | setpgid pid pgid =>
    unfold ProcSys.step
    split_ifs
    · exact .unharmed (setpgid_unharmed _ pid pgid) rfl
    · exact hsame rfl
  | setsid =>
    unfold ProcSys.step
    split_ifs
    · exact .unharmed (setsid_unharmed _) rfl
    · exact hsame rfl
  | yield => exact .unharmed h.tree.yield_unharmed rfl

end Changes

/-! ## Runs -/

namespace WaitLog

variable {L : KernelLayout} {k : WaitLog}

/-- What is written down of each pid: the exit code of a zombie, nothing of a task that is
alive or not born, and a pid that has been returned has no task. -/
structure WrittenDown (k : WaitLog) : Prop where
  sys : k.sys.TreeKept
  dead : ∀ i, (k.sys.proc.tab.task (.slot i)).state = .zombie →
    k.died (k.sys.proc.tab.task (.slot i)).pid = some (k.sys.proc.tab.task (.slot i)).exitCode
  alive : ∀ i, Live k.sys.proc.tab (.slot i) → (k.sys.proc.tab.task (.slot i)).state ≠ .zombie →
    k.died (k.sys.proc.tab.task (.slot i)).pid = none
  unborn : ∀ pid, k.sys.proc.tab.nextPid ≤ pid → k.died pid = none
  gone : ∀ pid ∈ k.reaped, pid < k.sys.proc.tab.nextPid ∧
    ∀ i, Live k.sys.proc.tab (.slot i) → (k.sys.proc.tab.task (.slot i)).pid ≠ pid

theorem died_step {e : ProcEvent} {pid : ℤ} (h : ∀ i, ((k.sys.step L e).proc.tab.task (.slot i)).state = .zombie →
      ((k.sys.step L e).proc.tab.task (.slot i)).pid ≠ pid) :
    (k.step L e).died pid = k.died pid := by
  have hz : ¬ zombiePid (k.sys.step L e).proc.tab pid = true := by
    rw [zombiePid_iff]
    rintro ⟨i, hi, hp⟩
    exact h i hi hp
  unfold step
  dsimp only
  rw [if_neg hz, Option.or_none]

theorem died_mono {e : ProcEvent} {pid code : ℤ} (h : k.died pid = some code) : (k.step L e).died pid = some code := by
  unfold step
  dsimp only
  rw [h, Option.some_or]

theorem died_alive {e : ProcEvent} (hinv : (k.sys.step L e).TreeKept) {i : Fin procMaxTasks}
    (hl : Live (k.sys.step L e).proc.tab (.slot i))
    (hz : ((k.sys.step L e).proc.tab.task (.slot i)).state ≠ .zombie) :
    (k.step L e).died ((k.sys.step L e).proc.tab.task (.slot i)).pid =
      k.died ((k.sys.step L e).proc.tab.task (.slot i)).pid := by
  refine died_step fun j hj hp => ?_
  have hlj : Live (k.sys.step L e).proc.tab (.slot j) := by
    unfold Live
    rw [hj]
    simp
  exact hz (hinv.tree.1.distinct j i hlj hl hp ▸ hj)

theorem died_unborn {e : ProcEvent} (hinv : (k.sys.step L e).TreeKept) {pid : ℤ}
    (hp : (k.sys.step L e).proc.tab.nextPid ≤ pid) : (k.step L e).died pid = k.died pid := by
  refine died_step fun i hi heq => ?_
  have hl : Live (k.sys.step L e).proc.tab (.slot i) := by
    unfold Live
    rw [hi]
    simp
  have hlt := (hinv.tree.1.pids i hl).2
  omega

/-- The code of the event that ends a task is written down. -/
theorem died_new {e : ProcEvent} {i : Fin procMaxTasks}
    (hz : ((k.sys.step L e).proc.tab.task (.slot i)).state = .zombie)
    (hnew : k.died ((k.sys.step L e).proc.tab.task (.slot i)).pid = none) :
    (k.step L e).died ((k.sys.step L e).proc.tab.task (.slot i)).pid = some e.code := by
  unfold step
  dsimp only
  rw [hnew, Option.none_or, if_pos (zombiePid_iff.mpr ⟨i, hz, rfl⟩)]

theorem reaped_none {e : ProcEvent} (hc : k.sys.collects e = none) : (k.step L e).reaped = k.reaped := by
  unfold step
  dsimp only
  rw [hc]

section Steps

variable {e : ProcEvent} (h : k.WrittenDown) (hinv : (k.sys.step L e).TreeKept)

include h hinv

theorem WrittenDown.deaths (hd : Deaths e.code k.sys.proc.tab (k.sys.step L e).proc.tab)
    (hc : k.sys.collects e = none) : (k.step L e).WrittenDown where
  sys := hinv
  dead i hi := by
    change (k.step L e).died ((k.sys.step L e).proc.tab.task (.slot i)).pid =
      some ((k.sys.step L e).proc.tab.task (.slot i)).exitCode
    rcases hd.life (.slot i) with hsame | ⟨hl, hz, hpid, hcode, -⟩
    · rw [life_pid hsame, life_exitCode hsame]
      exact died_mono (h.dead i ((life_zombie hsame).mp hi))
    rw [hcode]
    refine died_new hi ?_
    rw [hpid]
    exact h.alive i hl hz
  alive i hl hz := by
    refine (died_alive hinv hl hz).trans ?_
    rcases hd.life (.slot i) with hsame | ⟨-, -, -, -, hz'⟩
    · rw [life_pid hsame]
      refine h.alive i (fun hu => hl ((life_unused hsame).mpr hu)) fun hz' => ?_
      exact hz ((life_zombie hsame).mpr hz')
    · exact absurd hz' hz
  unborn pid hp := by
    refine (died_unborn hinv hp).trans (h.unborn pid ?_)
    rw [← hd.nextPid]
    exact hp
  gone pid hp := by
    rw [reaped_none hc] at hp
    obtain ⟨hlt, hno⟩ := h.gone pid hp
    refine ⟨by rw [← hd.nextPid] at hlt; exact hlt, fun i hl => ?_⟩
    change ((k.sys.step L e).proc.tab.task (.slot i)).pid ≠ pid
    rcases hd.life (.slot i) with hsame | ⟨hl', -, hpid, -⟩
    · rw [life_pid hsame]
      exact hno i fun hu => hl ((life_unused hsame).mpr hu)
    · rw [hpid]
      exact hno i hl'

theorem WrittenDown.births (hb : Births k.sys.proc.tab (k.sys.step L e).proc.tab)
    (hc : k.sys.collects e = none) : (k.step L e).WrittenDown := by
  obtain ⟨⟨j, hfree, hother, hchild⟩, hnext⟩ := hb
  have hlife : ∀ i, i ≠ j → ((k.sys.step L e).proc.tab.task (.slot i)).life = (k.sys.proc.tab.task (.slot i)).life :=
    fun i hi => hother (.slot i) fun he => hi (TaskRef.slot.inj he)
  -- A live task in the slot of the child is the child.
  have hborn : Live (k.sys.step L e).proc.tab (.slot j) →
      ((k.sys.step L e).proc.tab.task (.slot j)).pid = k.sys.proc.tab.nextPid ∧
        ((k.sys.step L e).proc.tab.task (.slot j)).state ≠ .zombie := by
    intro hl
    rcases hchild with hu | ⟨hpid, -, hz⟩
    · exact absurd hu hl
    · exact ⟨hpid, hz⟩
  refine ⟨hinv, fun i hi => ?_, fun i hl hz => ?_, fun pid hp => ?_, fun pid hp => ?_⟩
  · have hij : i ≠ j := by
      rintro rfl
      have hl : Live (k.sys.step L e).proc.tab (.slot i) := by
        intro hu
        exact absurd (hi.symm.trans hu) (by simp)
      exact (hborn hl).2 hi
    change (k.step L e).died ((k.sys.step L e).proc.tab.task (.slot i)).pid =
      some ((k.sys.step L e).proc.tab.task (.slot i)).exitCode
    rw [life_pid (hlife i hij), life_exitCode (hlife i hij)]
    exact died_mono (h.dead i ((life_zombie (hlife i hij)).mp hi))
  · refine (died_alive hinv hl hz).trans ?_
    by_cases hij : i = j
    · subst hij
      rw [(hborn hl).1]
      exact h.unborn _ le_rfl
    rw [life_pid (hlife i hij)]
    refine h.alive i (fun hu => hl ((life_unused (hlife i hij)).mpr hu)) fun hz' => ?_
    exact hz ((life_zombie (hlife i hij)).mpr hz')
  · refine (died_unborn hinv hp).trans (h.unborn pid ?_)
    have hle : (k.sys.step L e).proc.tab.nextPid ≤ pid := hp
    omega
  · rw [reaped_none hc] at hp
    obtain ⟨hlt, hno⟩ := h.gone pid hp
    have hlt' : pid < (k.sys.step L e).proc.tab.nextPid := by omega
    refine ⟨hlt', fun i hl => ?_⟩
    change ((k.sys.step L e).proc.tab.task (.slot i)).pid ≠ pid
    by_cases hij : i = j
    · subst hij
      rw [(hborn hl).1]
      omega
    · rw [life_pid (hlife i hij)]
      exact hno i fun hu => hl ((life_unused (hlife i hij)).mpr hu)

theorem WrittenDown.reap {t : TaskRef} {status : ℤ} (ht : IsSlot t) (hl : Live k.sys.proc.tab t)
    (hf : Freed t k.sys.proc.tab (k.sys.step L e).proc.tab)
    (hc : k.sys.collects e = some ((k.sys.proc.tab.task t).pid, status)) : (k.step L e).WrittenDown := by
  obtain ⟨j, rfl⟩ := ht
  have hlive : ∀ i, Live (k.sys.step L e).proc.tab (.slot i) → i ≠ j := by
    rintro i hi rfl
    exact hi hf.self
  have hlife : ∀ i, i ≠ j → ((k.sys.step L e).proc.tab.task (.slot i)).life = (k.sys.proc.tab.task (.slot i)).life :=
    fun i hi => hf.other (.slot i) fun he => hi (TaskRef.slot.inj he)
  refine ⟨hinv, fun i hi => ?_, fun i hl hz => ?_, fun pid hp => ?_, fun pid hp => ?_⟩
  · have hij := hlive i fun hu => absurd (hi.symm.trans hu) (by simp)
    change (k.step L e).died ((k.sys.step L e).proc.tab.task (.slot i)).pid =
      some ((k.sys.step L e).proc.tab.task (.slot i)).exitCode
    rw [life_pid (hlife i hij), life_exitCode (hlife i hij)]
    exact died_mono (h.dead i ((life_zombie (hlife i hij)).mp hi))
  · have hij := hlive i hl
    refine (died_alive hinv hl hz).trans ?_
    rw [life_pid (hlife i hij)]
    refine h.alive i (fun hu => hl ((life_unused (hlife i hij)).mpr hu)) fun hz' => ?_
    exact hz ((life_zombie (hlife i hij)).mpr hz')
  · refine (died_unborn hinv hp).trans (h.unborn pid ?_)
    rw [← hf.nextPid]
    exact hp
  · have hreaped : (k.step L e).reaped = (k.sys.proc.tab.task (.slot j)).pid :: k.reaped := by
      unfold WaitLog.step
      dsimp only
      rw [hc]
    rw [hreaped] at hp
    -- The pid was the reaped task's alone, or has had no task before.
    have hold : pid < k.sys.proc.tab.nextPid ∧ ∀ i, i ≠ j → Live k.sys.proc.tab (.slot i) →
        (k.sys.proc.tab.task (.slot i)).pid ≠ pid := by
      rcases List.mem_cons.mp hp with rfl | hp
      · refine ⟨(h.sys.tree.1.pids j hl).2, fun i hij hi heq => ?_⟩
        exact hij (h.sys.tree.1.distinct i j hi hl heq)
      · obtain ⟨hlt, hno⟩ := h.gone pid hp
        exact ⟨hlt, fun i _ => hno i⟩
    refine ⟨by rw [← hf.nextPid] at hold; exact hold.1, fun i hi => ?_⟩
    have hij := hlive i hi
    change ((k.sys.step L e).proc.tab.task (.slot i)).pid ≠ pid
    rw [life_pid (hlife i hij)]
    exact hold.2 i hij fun hu => hi ((life_unused (hlife i hij)).mpr hu)

end Steps

theorem WrittenDown.step (h : k.WrittenDown) (e : ProcEvent) (hok : k.SparesZombies e) : (k.step L e).WrittenDown := by
  have htree : k.sys.treeStepOk e := by
    cases e <;> first | exact hok | trivial
  have hinv : (k.sys.step L e).TreeKept := h.sys.step e htree
  rcases h.sys.change (L := L) e hok with ⟨hd, hc⟩ | ⟨hb, hc⟩ | ⟨t, hp, hz, hf, hc⟩
  · exact h.deaths hinv hd hc
  · exact h.births hinv hb hc
  · obtain ⟨ht, hl, -⟩ := h.sys.tree.1.linked t _ hp
    exact h.reap hinv ht hl hf hc

theorem WrittenDown.faithful (L : KernelLayout) (h : k.WrittenDown) (e : ProcEvent) (hok : k.SparesZombies e) : k.Faithful e := by
  intro pid status hret
  rcases h.sys.change (L := L) e hok with ⟨-, hc⟩ | ⟨-, hc⟩ | ⟨t, hp, hz, -, hc⟩
  · rw [hc] at hret
    simp at hret
  · rw [hc] at hret
    simp at hret
  · obtain ⟨rfl, rfl⟩ := Prod.mk.inj (Option.some.inj (hc.symm.trans hret))
    obtain ⟨⟨i, rfl⟩, hl, -⟩ := h.sys.tree.1.linked t _ hp
    refine ⟨fun hmem => (h.gone _ hmem).2 i hl rfl, i, _, rfl, hz, hp, ?_, h.dead i hz, rfl⟩
    rw [h.sys.tree.1.ppid (.slot i), hp]
    rfl

theorem boot_inv : WrittenDown { sys := ProcSys.boot L } := by
  have hinv : (ProcSys.boot L).TreeKept := ProcSys.boot_inv
  refine ⟨hinv, fun i hi => ?_, fun _ _ _ => rfl, fun _ _ => rfl, fun _ hp => by simp at hp⟩
  have hl : Live processInitTable (.slot i) := fun hu => absurd (hi.symm.trans hu) (by simp)
  obtain rfl := processInitTable_live hl
  have hstate := processInitTable_init.1
  exact absurd (hi.symm.trans hstate) (by simp)

end WaitLog

/-- In every run that leaves zombies in peace, each pid is returned by at most one wait, to
its parent, after its death, and with the status of that death. -/
theorem exit_status_fidelity (L : KernelLayout) (es : List ProcEvent)
    (h : Meets (WaitLog.step L) WaitLog.SparesZombies { sys := ProcSys.boot L } es) :
    Meets (WaitLog.step L) WaitLog.Faithful { sys := ProcSys.boot L } es :=
  meets_of_invariant (I := WaitLog.WrittenDown) (fun _ e hk hok => hk.step e hok)
    (fun _ e hk hok => hk.faithful L e hok) WaitLog.boot_inv h

def exitRun : List ProcEvent :=
  [.spawnExec "sh" fun m => (m, true), .yield, .exitCurrent 7, .yield, .wait .any false]

def waitLogRun (es : List ProcEvent) : WaitLog :=
  run (WaitLog.step { kernelEnd := 0x48000000 })
    { sys := ProcSys.boot { kernelEnd := 0x48000000 } } es

theorem exitRun_faithful : Meets (WaitLog.step { kernelEnd := 0x48000000 }) WaitLog.SparesZombies
      { sys := ProcSys.boot { kernelEnd := 0x48000000 } } exitRun ∧
    Meets (WaitLog.step { kernelEnd := 0x48000000 }) WaitLog.Faithful
      { sys := ProcSys.boot { kernelEnd := 0x48000000 } } exitRun ∧
    (waitLogRun (exitRun.take 4)).sys.collects (.wait .any false) = some (2, 7 * 256) := by
  have h : Meets (WaitLog.step { kernelEnd := 0x48000000 }) WaitLog.SparesZombies
      { sys := ProcSys.boot { kernelEnd := 0x48000000 } } exitRun := by
    refine ⟨?_, trivial, ?_, trivial, trivial, trivial⟩
    · show (TaskTable.task _ _).state ≠ .zombie
      decide +kernel
    · show (TaskTable.task _ _).state ≠ .zombie
      decide +kernel
  exact ⟨h, exit_status_fidelity _ _ h, by decide +kernel⟩

def lateKillRun : List ProcEvent :=
  [.spawnExec "sh" fun m => (m, true), .yield, .exitCurrent 7, .yield, .killPid 2 9,
    .wait .any false]

/-- An interrupt from the keyboard ends the running child, which goes on to call exit. -/
def interruptedExitRun : List ProcEvent :=
  [.spawnExec "sh" fun m => (m, true), .yield, .sendSignalPgid 1 2, .exitCurrent 0, .yield,
    .wait .any false]

/-- The later event decides the status in both runs. -/
theorem late_death_changes_status :
    ((waitLogRun (lateKillRun.take 5)).sys.collects (.wait .any false) = some (2, 9 * 256) ∧
      (waitLogRun (lateKillRun.take 5)).died 2 = some 7) ∧
    ((waitLogRun (interruptedExitRun.take 5)).sys.collects (.wait .any false) = some (2, 0) ∧
      (waitLogRun (interruptedExitRun.take 5)).died 2 = some 130) ∧
    ¬ Meets (WaitLog.step { kernelEnd := 0x48000000 }) WaitLog.Faithful
      { sys := ProcSys.boot { kernelEnd := 0x48000000 } } lateKillRun ∧
    ¬ Meets (WaitLog.step { kernelEnd := 0x48000000 }) WaitLog.Faithful
      { sys := ProcSys.boot { kernelEnd := 0x48000000 } } interruptedExitRun := by
  have hkill : (waitLogRun (lateKillRun.take 5)).sys.collects (.wait .any false) =
      some (2, 9 * 256) ∧ (waitLogRun (lateKillRun.take 5)).died 2 = some 7 := by
    constructor <;> decide +kernel
  have hexit : (waitLogRun (interruptedExitRun.take 5)).sys.collects (.wait .any false) =
      some (2, 0) ∧ (waitLogRun (interruptedExitRun.take 5)).died 2 = some 130 := by
    constructor <;> decide +kernel
  refine ⟨hkill, hexit, ?_, ?_⟩
  · rintro ⟨-, -, -, -, -, h, -⟩
    obtain ⟨-, i, code, -, -, -, -, hdied, hstatus⟩ := h 2 (9 * 256) hkill.1
    obtain rfl := Option.some.inj (hkill.2.symm.trans hdied)
    omega
  · rintro ⟨-, -, -, -, -, h, -⟩
    obtain ⟨-, i, code, -, -, -, -, hdied, hstatus⟩ := h 2 0 hexit.1
    obtain rfl := Option.some.inj (hexit.2.symm.trans hdied)
    omega

end EdgeOS
