import EdgeOS.ProcessDescriptors
import EdgeOS.TaskIds

namespace EdgeOS

open Lib

/-!
Runs of processes and their descriptors under no condition but that whoever acts has a number: the
accounting of the descriptors holds in every state.
-/

def ProcFdEvent.isOwn : ProcFdEvent → Bool
  | .call .. | .transfer .. | .fork .. | .exit .. | .fault _ => true
  | _ => false

namespace ProcFds

variable (L : KernelLayout) (k : ProcFds)

def hasPid : Bool := 0 < k.pid ∧ k.pid < k.sys.proc.tab.nextPid

def act (e : ProcFdEvent) : ProcFds := if e.isOwn ∧ !k.hasPid then k else k.step L e

/-- The descriptors are accounted for, and no table belongs to a number that is still to come. -/
structure Accounted : Prop where
  acc : ∃ G, FdInv False k.sys.proc.tab.nextPid 0 G k.fds
  pos : 0 < k.sys.proc.tab.nextPid

variable {L k}

theorem Accounted.owned (h : k.Accounted) : ∀ x, k.fds.procPid x.1 = 0 → (k.fds.fds x).used = false := by
  obtain ⟨G, hG⟩ := h.acc
  exact hG.owned

theorem act_of_hasPid (h : k.hasPid = true) (e : ProcFdEvent) : k.act L e = k.step L e :=
  if_neg (by simp [h])

theorem act_of_no_pid (h : k.hasPid = false) {e : ProcFdEvent} (he : e.isOwn = true) : k.act L e = k :=
  if_pos ⟨he, by simp [h]⟩

theorem hasPid_bounds (h : k.hasPid = true) : 0 < k.pid ∧ k.pid < k.sys.proc.tab.nextPid := by
  simpa [hasPid] using h

theorem Accounted.of_sys (h : k.Accounted) {σ : ProcSys} {fds' : FdState}
    (hnext : k.sys.proc.tab.nextPid ≤ σ.proc.tab.nextPid)
    (hacc : ∃ G, FdInv False k.sys.proc.tab.nextPid 0 G fds') : Accounted ⟨σ, fds'⟩ := by
  obtain ⟨G, hG⟩ := hacc
  have hpos := h.pos
  exact ⟨⟨G, hG.mono hnext⟩, by dsimp only; omega⟩

theorem nextPid_kill (k : ProcFds) (code : ℤ) :
    k.sys.proc.tab.nextPid ≤ (k.killCurrentAndYield L code).proc.tab.nextPid :=
  (ProcSys.nextPid_le L k.sys _).trans (ProcSys.nextPid_le L _ _)

theorem Accounted.call (h : k.Accounted) (hpid : k.hasPid = true) (cur : Caller) (c : FdCall) :
    (k.step L (.call cur c)).Accounted := by
  obtain ⟨hpos, hN⟩ := hasPid_bounds hpid
  unfold step
  dsimp only
  split_ifs with hown
  swap
  · exact h
  have hpos' : 0 < cur.pid := by omega
  have hN' : cur.pid < k.sys.proc.tab.nextPid := by omega
  obtain ⟨G, hG⟩ := h.acc
  have hcall : ∀ c : FdCall, ∃ G', FdInv False k.sys.proc.tab.nextPid 0 G' (c.apply k.fds cur) := by
    intro c
    obtain ⟨G', hG', -⟩ := hG.call hpos' hN' c fun hf => hf.elim
    exact ⟨G', hG'⟩
  split
  · exact h
  · rename_i window
    exact h.of_sys (nextPid_kill k 127) (hcall (.execve false window))
  · exact h.of_sys le_rfl (hcall _)

/-- A fork leaves everything as it was, or its child is the next process. -/
theorem Accounted.doSysFork (h : k.Accounted) (tf : TrapFrame) (cbs : FdIdx → List ℕ) :
    (k.doSysFork L tf cbs).Accounted := by
  obtain ⟨G, hG⟩ := h.acc
  have hpos := h.pos
  have hfork := processFork_pid L k.sys.proc (some tf)
  unfold ProcFds.doSysFork
  generalize processFork L k.sys.proc (some tf) = out at hfork ⊢
  obtain ⟨proc, child⟩ := out
  dsimp only at hfork ⊢
  rcases hfork with hnone | ⟨hchild, hnext⟩
  · obtain ⟨rfl, rfl⟩ := Prod.mk.inj hnone
    rw [if_neg (by omega)]
    exact h
  rw [if_pos (by omega)]
  obtain ⟨G', hG', -⟩ := hG.fdCloneAfterFork (by omega) k.pid cbs
  have hle := ProcSys.nextPid_le L { k.sys with proc := proc } (.setRunnable child)
  dsimp only at hle
  refine ⟨⟨G', ?_⟩, ?_⟩
  · rw [← hchild] at hG'
    exact hG'.mono (by dsimp only; omega)
  · dsimp only
    omega

theorem Accounted.reap (h : k.Accounted) (e : ProcEvent) (window : ℕ → List ℕ) :
    Accounted ⟨k.sys.step L e, k.reapFds e window⟩ := by
  obtain ⟨G, hG⟩ := h.acc
  have hle := ProcSys.nextPid_le L k.sys e
  unfold reapFds
  split
  · exact h.of_sys hle ⟨G, hG.fdProcRelease h.pos fun hf => hf.elim⟩
  · exact h.of_sys hle ⟨G, hG⟩

theorem Accounted.act (h : k.Accounted) (e : ProcFdEvent) : (k.act L e).Accounted := by
  unfold ProcFds.act
  split_ifs with hact
  · exact h
  obtain ⟨G, hG⟩ := h.acc
  cases e with
  | call cur c => exact h.call (by simpa [ProcFdEvent.isOwn] using hact) cur c
  | transfer fd op interrupted =>
    have hpid : k.hasPid = true := by simpa [ProcFdEvent.isOwn] using hact
    obtain ⟨hpos, hN⟩ := hasPid_bounds hpid
    unfold step
    dsimp only
    split_ifs
    · exact h.of_sys le_rfl ⟨G, hG.perform hpos hN fd op interrupted⟩
    · exact h
  | fork tf cbs =>
    unfold step
    dsimp only
    split_ifs
    · exact h.doSysFork tf cbs
    · exact h
  | exit code window =>
    unfold step
    dsimp only
    split_ifs
    · exact h.of_sys (nextPid_kill k code) ⟨G, hG.fdProcRelease h.pos fun hf => hf.elim⟩
    · exact h
  | fault code =>
    unfold step
    dsimp only
    split_ifs
    · exact h.of_sys (nextPid_kill k code) ⟨G, hG⟩
    · exact h
  | wait w nohang window => exact h.reap (.wait w nohang) window
  | resumeWait window => exact h.reap .resumeWait window
  | other e =>
    unfold step
    dsimp only
    split_ifs
    · exact h.of_sys (ProcSys.nextPid_le L k.sys e) ⟨G, hG⟩
    · exact h
  | acceptCb l => exact h.of_sys le_rfl ⟨G, hG.acceptCbs [l]⟩

theorem accounted_boot (L : KernelLayout) : (boot L).Accounted :=
  ⟨⟨0, fdInv_boot⟩, (wellNumbered_boot L).nextPid⟩

end ProcFds

end EdgeOS
