import EdgeOS.Lib.Runs
import Mathlib.Data.List.Nodup
import Mathlib.Data.List.Range
import Mathlib.Logic.Function.Basic

namespace EdgeOS

open Lib Function List
open Or (inl inr)

/-!
The command slots of the AHCI driver: `ahci_issue_rw_sg` statement by statement, a controller that executes
any slot whose bit in PxCI is set at any time, and an interrupt handler that comes at any time. Native command
queueing is off, as `ahci_init` leaves it, so a call has one command under way.
-/

abbrev ahciMaxCmds : ℕ := 32
abbrev ahciMaxCmdSectors : ℕ := 65535
abbrev ahciWaitSpins : ℕ := 200000

/-- A command in a slot's table: its number, and the call whose buffer it refers to. -/
structure AhciCommand where
  id : ℕ
  call : ℕ
  deriving DecidableEq, Repr

/-- Where a run of `ahci_poll_port_completion` is. `slots` are left in `finished` or `fail`, and `tfes` is the bit
of the value that was read from PxIS. -/
inductive MarkPc
  | readIs
  | ackIs (tfes : Bool)
  | readCi (tfes : Bool)
  | error (s : ℕ) (slots : List ℕ) (tfes : Bool)
  | done (s : ℕ) (slots : List ℕ) (tfes : Bool)
  | load (s : ℕ) (slots : List ℕ) (tfes : Bool)
  | store (s : ℕ) (slots : List ℕ) (tfes : Bool) (v : ℕ → Bool)
  | fail
  | failError (s : ℕ) (slots : List ℕ)
  | failDone (s : ℕ) (slots : List ℕ)
  | reset

/-- Where a call is, in `ahci_issue_rw_sg`, `ahci_submit_rw` and `ahci_wait_slot_done`: the slot, the tag, and how
often the wait has gone round. -/
inductive IssuePc
  | ready
  | find
  | nextTag (s : ℕ)
  | build (s : ℕ) (t : UInt32)
  | setTag (s : ℕ) (t : UInt32)
  | clearDone (s : ℕ) (t : UInt32)
  | clearError (s : ℕ) (t : UInt32)
  | orLoad (s : ℕ) (t : UInt32)
  | orStore (s : ℕ) (t : UInt32) (v : ℕ → Bool)
  | clearIs (s : ℕ) (t : UInt32)
  | ciLoad (s : ℕ) (t : UInt32)
  | ciStore (s : ℕ) (t : UInt32) (v : ℕ → Bool)
  | check (s : ℕ) (t : UInt32) (i : ℕ)
  | recheck (s : ℕ) (t : UInt32) (i : ℕ)
  | poll (back : Option (ℕ × UInt32 × ℕ)) (m : MarkPc)

/-- The slot that is being set up, from the clearing of its tag to the issue of its command. -/
def IssuePc.unissued : IssuePc → Option ℕ
  | .clearError s _ | .orLoad s _ | .orStore s _ _ | .clearIs s _ | .ciLoad s _ | .ciStore s _ _ => some s
  | _ => none

/-- A call of `ahci_read` or `ahci_write`, with the sectors that no command has been built for. -/
structure AhciCall where
  call : ℕ
  left : ℕ
  pc : IssuePc

/-- PxCI, the command tables and `g_disk`. `executed` are the commands that the controller has completed, with
whether they failed, and `built` is the number of the last one that was put in a table. -/
structure AhciPort where
  ci : ℕ → Bool := fun _ => false
  table : ℕ → AhciCommand := fun _ => ⟨0, 0⟩
  outstanding : ℕ → Bool := fun _ => false
  slotTag : ℕ → UInt32 := fun _ => 0
  slotDoneTag : ℕ → UInt32 := fun _ => 0
  slotError : ℕ → Bool := fun _ => false
  executed : List (ℕ × Bool) := []
  built : ℕ := 0

/-- The port, the error bit of PxIS, `g_tag_seq`, the call and the handler that run. `reported` are the commands
that `ahci_wait_slot_done` has returned 0 for. -/
structure AhciSys where
  port : AhciPort := {}
  tfes : Bool := false
  tagSeq : UInt32 := 0
  main : Option AhciCall := none
  irq : Option MarkPc := none
  reported : List ℕ := []
  calls : ℕ := 0

/-- `waited` is whether `ahci_wait_ready` finds the drive ready. -/
inductive AhciEvent
  | call (sectors : ℕ)
  | main (waited : Bool)
  | irq
  | irqStep
  | complete (s : ℕ) (failed : Bool)
  | taskFileError
  deriving DecidableEq

namespace AhciPort

variable (a : AhciPort)

def slotsOf (mask : ℕ → Bool) : List ℕ := (List.range ahciMaxCmds).filter mask

/-- The next slot that has finished, or what comes after them. -/
def nextDone (slots : List ℕ) (tfes : Bool) : Option MarkPc :=
  match slots with
  | s :: slots => some (.error s slots tfes)
  | [] => if tfes then some .fail else none

def nextFail (slots : List ℕ) : Option MarkPc :=
  match slots with
  | s :: slots => some (.failError s slots)
  | [] => some .reset

/-- One statement of `ahci_poll_port_completion` and `ahci_mark_completions`; `is` is the error bit of PxIS. -/
def markStep (is : Bool) : MarkPc → AhciPort × Bool × Option MarkPc
  | .readIs => (a, is, some (.ackIs is))
  | .ackIs tfes => (a, if tfes then false else is, some (.readCi tfes))
  | .readCi tfes => (a, is, nextDone (slotsOf fun s => a.outstanding s && !a.ci s) tfes)
  | .error s slots tfes =>
    ({ a with slotError := Function.update a.slotError s false }, is, some (.done s slots tfes))
  | .done s slots tfes =>
    ({ a with slotDoneTag := Function.update a.slotDoneTag s (a.slotTag s) }, is, some (.load s slots tfes))
  | .load s slots tfes => (a, is, some (.store s slots tfes a.outstanding))
  | .store s slots tfes v => ({ a with outstanding := Function.update v s false }, is, nextDone slots tfes)
  | .fail => (a, is, nextFail (slotsOf a.outstanding))
  | .failError s slots =>
    ({ a with slotError := Function.update a.slotError s true }, is, some (.failDone s slots))
  | .failDone s slots =>
    ({ a with slotDoneTag := Function.update a.slotDoneTag s (a.slotTag s) }, is, nextFail slots)
  | .reset => ({ a with outstanding := fun _ => false }, is, none)

/-- `ahci_find_slot`. -/
def findSlot : Option ℕ := (List.range ahciMaxCmds).find? fun s => !a.ci s

/-- The controller completes the command in a slot: it executes what is in the table. -/
def complete (s : ℕ) (failed : Bool) : AhciPort :=
  { a with ci := Function.update a.ci s false, executed := a.executed ++ [((a.table s).id, failed)] }

end AhciPort

namespace AhciSys

variable (a : AhciSys)

/-- `ahci_next_tag`. -/
def nextTag : UInt32 := if a.tagSeq + 1 = 0 then a.tagSeq + 1 + 1 else a.tagSeq + 1

def goto (c : AhciCall) (pc : IssuePc) (port : AhciPort) : AhciSys :=
  { a with port := port, main := some { c with pc := pc } }

def leave : AhciSys := { a with main := none }

/-- What `ahci_wait_slot_done` returns for a tag that is done, and what `ahci_issue_rw_sg` makes of it. -/
def waited (c : AhciCall) (s : ℕ) : AhciSys :=
  if a.port.slotError s then a.leave
  else
    let a := { a with reported := a.reported ++ [a.port.built] }
    if c.left = 0 then a.leave else a.goto c .ready a.port

def mainStep (ready : Bool) (c : AhciCall) : AhciSys :=
  let d := a.port
  match c.pc with
  | .ready => if ready then a.goto c .find d else a.leave
  | .find =>
    match d.findSlot with
    | some s => a.goto c (.nextTag s) d
    | none => a.goto c (.poll none .readIs) d
  | .nextTag s => { a with tagSeq := a.nextTag }.goto c (.build s a.nextTag) d
  | .build s t =>
    a.goto { c with left := c.left - min c.left ahciMaxCmdSectors } (.setTag s t)
      { d with table := Function.update d.table s ⟨d.built + 1, c.call⟩, built := d.built + 1 }
  | .setTag s t => a.goto c (.clearDone s t) { d with slotTag := Function.update d.slotTag s t }
  | .clearDone s t => a.goto c (.clearError s t) { d with slotDoneTag := Function.update d.slotDoneTag s 0 }
  | .clearError s t => a.goto c (.orLoad s t) { d with slotError := Function.update d.slotError s false }
  | .orLoad s t => a.goto c (.orStore s t d.outstanding) d
  | .orStore s t v => a.goto c (.clearIs s t) { d with outstanding := Function.update v s true }
  | .clearIs s t => { a with tfes := false }.goto c (.ciLoad s t) d
  | .ciLoad s t => a.goto c (.ciStore s t d.ci) d
  -- a bit that is written as 1 is issued, also when it was set at the load and has completed since
  | .ciStore s t v => a.goto c (.check s t 0) { d with ci := fun x => d.ci x || Function.update v s true x }
  | .check s t i =>
    if i = ahciWaitSpins then a.leave
    else if d.slotDoneTag s = t then a.waited c s
    else a.goto c (.poll (some (s, t, i)) .readIs) d
  | .recheck s t i => if d.slotDoneTag s = t then a.waited c s else a.goto c (.check s t (i + 1)) d
  | .poll back m =>
    let r := d.markStep a.tfes m
    let a := { a with tfes := r.2.1 }
    match r.2.2, back with
    | some m, back => a.goto c (.poll back m) r.1
    | none, some (s, t, i) => a.goto c (.recheck s t i) r.1
    | none, none => a.goto c .ready r.1

def step : AhciEvent → AhciSys
  | .call sectors =>
    if a.main.isNone ∧ a.irq.isNone ∧ sectors ≠ 0 then
      { a with main := some ⟨a.calls + 1, sectors, .ready⟩, calls := a.calls + 1 }
    else a
  | .main ready =>
    match a.irq, a.main with
    | none, some c => a.mainStep ready c
    | _, _ => a
  | .irq => if a.irq.isNone then { a with irq := some .readIs } else a
  | .irqStep =>
    match a.irq with
    | some m =>
      let r := a.port.markStep a.tfes m
      { a with port := r.1, tfes := r.2.1, irq := r.2.2 }
    | none => a
  | .complete s failed =>
    if a.port.ci s then { a with port := a.port.complete s failed, tfes := a.tfes || failed } else a
  | .taskFileError => { a with tfes := true }

/-- No command has been executed twice, those that were reported as done were executed without an error, and a
command that is issued belongs to the call that runs. -/
structure Exact : Prop where
  once : (a.port.executed.map Prod.fst).Nodup
  told : ∀ id ∈ a.reported, (id, false) ∈ a.port.executed
  owned : ∀ s, a.port.ci s = true → ∃ c, a.main = some c ∧ (a.port.table s).call = c.call

/-- The slot that the call gives up on with its next statement. -/
def givesUp (pc : IssuePc) : Option ℕ :=
  match pc with
  | .check s t i =>
    if i = ahciWaitSpins ∨ (a.port.slotDoneTag s = t ∧ a.port.slotError s = true) then some s else none
  | .recheck s t _ => if a.port.slotDoneTag s = t ∧ a.port.slotError s = true then some s else none
  | _ => none

/-- The handler does not run between the marking of a slot and its issue; a command does not end with an error
before the driver has struck it out; and the controller is through with a command that a call gives up on. -/
def Sound : AhciEvent → Prop
  | .irq => a.irq.isNone → ∀ c ∈ a.main, ∀ s ∈ c.pc.unissued, a.port.outstanding s = false
  | .complete s failed => failed = true → a.port.ci s = true →
      a.port.slotDoneTag s = a.port.slotTag s ∧ a.port.outstanding s = false
  | .main _ => a.irq.isNone → ∀ c ∈ a.main, ∀ s ∈ a.givesUp c.pc, a.port.ci s = false
  | _ => True

instance : ∀ e, Decidable (a.Sound e)
  | .irq => inferInstanceAs
      (Decidable (a.irq.isNone → ∀ c ∈ a.main, ∀ s ∈ c.pc.unissued, a.port.outstanding s = false))
  | .complete s failed => inferInstanceAs (Decidable (failed = true → a.port.ci s = true →
      a.port.slotDoneTag s = a.port.slotTag s ∧ a.port.outstanding s = false))
  | .main _ => inferInstanceAs
      (Decidable (a.irq.isNone → ∀ c ∈ a.main, ∀ s ∈ a.givesUp c.pc, a.port.ci s = false))
  | .call _ | .irqStep | .taskFileError => inferInstanceAs (Decidable True)

end AhciSys

namespace AhciPort

/-! ## What is known at each statement -/

/-- What a call has under way: nothing, a slot that is set up, or a command that is waited for. -/
inductive Phase
  | calm
  | setup
  | wait
  deriving DecidableEq

/-- Whether slot 0 may be among those that a run of the marking goes over. -/
def Phase.Open : Phase → Prop
  | .setup => False
  | _ => True

variable (a : AhciPort) (p : Phase)

def Finished : Prop :=
  match p with
  | .calm => True
  | .setup => False
  | .wait => (a.built, false) ∈ a.executed

def Failing : Prop :=
  match p with
  | .calm => True
  | .setup => False
  | .wait => a.slotError 0 = true ∨ (a.built, false) ∈ a.executed

def MarkOk : MarkPc → Prop
  | .error s slots _ | .done s slots _ | .load s slots _ => s = 0 ∧ slots = [] ∧ a.Finished p
  | .store s slots _ v => s = 0 ∧ slots = [] ∧ a.Finished p ∧ ∀ x, v x = true → x = 0
  | .failError s slots => s = 0 ∧ slots = [] ∧ p.Open
  | .failDone s slots => s = 0 ∧ slots = [] ∧ a.Failing p
  | _ => True

def Quiet : Prop := ∀ s, a.ci s = false

/-- The command that was built last, for call `n`, in slot 0. -/
structure Current (n : ℕ) (t : UInt32) : Prop where
  tag_ne : t ≠ 0
  table : a.table 0 = ⟨a.built, n⟩
  slotTag : a.slotTag 0 = t

def Fresh : Prop := ∀ e ∈ a.executed, e.1 ≠ a.built

/-- What has become of the command that was issued last. -/
inductive Fate : Prop
  | pending (issued : a.ci 0 = true) (fresh : a.Fresh)
  | done (through : a.ci 0 = false) (executed : (a.built, false) ∈ a.executed)
  | failed (through : a.ci 0 = false) (executed : (a.built, false) ∉ a.executed) (error : a.slotError 0 = true)
      (struck : a.outstanding 0 = false)

structure Waiting (n : ℕ) (t : UInt32) : Prop where
  current : a.Current n t
  slots : ∀ s, a.ci s = true → s = 0
  fate : a.Fate
  told : a.slotDoneTag 0 = t → a.slotError 0 = true ∨ (a.built, false) ∈ a.executed

structure Setup (n : ℕ) (t : UInt32) : Prop where
  current : a.Current n t
  quiet : a.Quiet
  fresh : a.Fresh
  untold : a.slotDoneTag 0 ≠ t

end AhciPort

def IssuePc.phase : IssuePc → AhciPort.Phase
  | .clearError _ _ | .orLoad _ _ | .orStore _ _ _ | .clearIs _ _ | .ciLoad _ _ | .ciStore _ _ _ => .setup
  | .check _ _ _ | .recheck _ _ _ | .poll (some _) _ => .wait
  | _ => .calm

namespace AhciPort

def At (a : AhciPort) (c : AhciCall) : Prop :=
  match c.pc with
  | .ready | .find => a.Quiet
  | .nextTag s => s = 0 ∧ a.Quiet
  | .build s t => s = 0 ∧ t ≠ 0 ∧ a.Quiet
  | .setTag s t => s = 0 ∧ t ≠ 0 ∧ a.Quiet ∧ a.Fresh ∧ a.table 0 = ⟨a.built, c.call⟩
  | .clearDone s t => s = 0 ∧ a.Quiet ∧ a.Fresh ∧ a.Current c.call t
  | .clearError s t | .orLoad s t | .clearIs s t | .ciLoad s t => s = 0 ∧ a.Setup c.call t
  | .orStore s t v => s = 0 ∧ a.Setup c.call t ∧ ∀ x, v x = true → x = 0
  | .ciStore s t v => s = 0 ∧ a.Setup c.call t ∧ ∀ x, v x = false
  | .check s t _ | .recheck s t _ => s = 0 ∧ a.Waiting c.call t
  | .poll none m => a.Quiet ∧ a.MarkOk .calm m
  | .poll (some (s, t, _)) m => s = 0 ∧ a.Waiting c.call t ∧ a.MarkOk .wait m

variable {a : AhciPort} {p : Phase} {c : AhciCall} {n : ℕ} {t : UInt32} {i : Bool}

theorem slotsOf_zero (mask : ℕ → Bool) (h : ∀ s, mask s = true → s = 0) :
    slotsOf mask = [] ∨ slotsOf mask = [0] ∧ mask 0 = true := by
  have hrest : ((List.range 31).map Nat.succ).filter mask = [] := by
    apply filter_eq_nil_iff.mpr
    intro s hs hmask
    obtain ⟨k, -, hk⟩ := mem_map.mp hs
    have := h s hmask
    omega
  unfold slotsOf
  rw [range_succ_eq_map]
  by_cases hzero : mask 0 = true
  · rw [filter_cons_of_pos hzero, hrest]
    exact inr ⟨rfl, hzero⟩
  · rw [filter_cons_of_neg hzero, hrest]
    exact inl rfl

/-! ## Marking -/

theorem markStep_frame (a : AhciPort) (i : Bool) (m : MarkPc) :
    (a.markStep i m).1.ci = a.ci ∧ (a.markStep i m).1.table = a.table ∧ (a.markStep i m).1.slotTag = a.slotTag ∧
      (a.markStep i m).1.executed = a.executed ∧ (a.markStep i m).1.built = a.built := by
  cases m <;> exact ⟨rfl, rfl, rfl, rfl, rfl⟩

theorem nextDone_ok {slots : List ℕ} {tfes : Bool} (h : slots = [] ∨ slots = [0] ∧ a.Finished p) :
    ∀ m, nextDone slots tfes = some m → a.MarkOk p m := by
  intro m hm
  cases h with
  | inl hnil =>
    rw [hnil] at hm
    cases tfes with
    | true => cases hm; trivial
    | false => cases hm
  | inr hone =>
    rw [hone.1] at hm
    cases hm
    exact ⟨rfl, rfl, hone.2⟩

theorem nextFail_ok {slots : List ℕ} (h : slots = [] ∨ slots = [0] ∧ p.Open) :
    ∀ m, nextFail slots = some m → a.MarkOk p m := by
  intro m hm
  cases h with
  | inl hnil =>
    rw [hnil] at hm
    cases hm
    trivial
  | inr hone =>
    rw [hone.1] at hm
    cases hm
    exact ⟨rfl, rfl, hone.2⟩

/-- No statement of the marking makes a slot outstanding. -/
theorem markStep_outstanding {m : MarkPc} (hm : a.MarkOk p m) (hout : ∀ s, a.outstanding s = true → s = 0) :
    (∀ s, (a.markStep i m).1.outstanding s = true → s = 0) ∧
      (a.outstanding 0 = false → (a.markStep i m).1.outstanding 0 = false) := by
  cases m with
  | store s slots tfes v =>
    obtain ⟨rfl, -, -, hv⟩ := hm
    refine ⟨fun x hx => ?_, fun _ => ?_⟩
    · by_cases heq : x = 0
      · exact heq
      have hupdate : update v 0 false x = true := hx
      rw [update_of_ne heq] at hupdate
      exact hv x hupdate
    · change update v 0 false 0 = false
      exact update_self 0 false v
  | reset => exact ⟨fun x hx => absurd hx Bool.false_ne_true, fun _ => rfl⟩
  | _ => exact ⟨hout, id⟩

theorem Finished.congr {b : AhciPort} (hex : b.executed = a.executed) (hbuilt : b.built = a.built)
    (h : a.Finished p) : b.Finished p := by
  cases p with
  | wait =>
    unfold Finished at h ⊢
    rw [hex, hbuilt]
    exact h
  | _ => exact h

/-- Where the marking goes on, the slots are right again. -/
theorem markStep_ok {m : MarkPc} (hm : a.MarkOk p m) (hout : ∀ s, a.outstanding s = true → s = 0)
    (hfin : a.outstanding 0 = true → a.ci 0 = false → a.Finished p) (hopen : a.outstanding 0 = true → p.Open) :
    ∀ m', (a.markStep i m).2.2 = some m' → (a.markStep i m).1.MarkOk p m' := by
  cases m with
  | readIs => intro m' hm'; cases hm'; trivial
  | ackIs tfes => intro m' hm'; cases hm'; trivial
  | readCi tfes =>
    apply nextDone_ok
    cases slotsOf_zero (fun s => a.outstanding s && !a.ci s)
        fun s hs => hout s (Bool.and_eq_true_iff.mp hs).1 with
    | inl hnil => exact inl hnil
    | inr hone =>
      obtain ⟨hslot, hci⟩ := Bool.and_eq_true_iff.mp hone.2
      exact inr ⟨hone.1, hfin hslot (Bool.not_eq_true' _ ▸ hci)⟩
  | error s slots tfes =>
    intro m' hm'
    cases hm'
    exact ⟨hm.1, hm.2.1, hm.2.2.congr rfl rfl⟩
  | done s slots tfes =>
    intro m' hm'
    cases hm'
    exact ⟨hm.1, hm.2.1, hm.2.2.congr rfl rfl⟩
  | load s slots tfes =>
    intro m' hm'
    cases hm'
    exact ⟨hm.1, hm.2.1, hm.2.2, hout⟩
  | store s slots tfes v => exact nextDone_ok (inl hm.2.1)
  | fail =>
    apply nextFail_ok
    cases slotsOf_zero a.outstanding hout with
    | inl hnil => exact inl hnil
    | inr hone => exact inr ⟨hone.1, hopen hone.2⟩
  | failError s slots =>
    obtain ⟨rfl, hslots, hp⟩ := hm
    intro m' hm'
    cases hm'
    refine ⟨rfl, hslots, ?_⟩
    cases p with
    | calm => trivial
    | setup => exact hp
    | wait =>
      left
      change update a.slotError 0 true 0 = true
      exact update_self 0 true a.slotError
  | failDone s slots => exact nextFail_ok (inl hm.2.1)
  | reset => intro m' hm'; cases hm'

theorem Current.congr {b : AhciPort} (htable : b.table = a.table) (hbuilt : b.built = a.built)
    (htag : b.slotTag = a.slotTag) (h : a.Current n t) : b.Current n t :=
  ⟨h.tag_ne, by rw [htable, hbuilt, h.table], by rw [htag, h.slotTag]⟩

/-- Only finished slots lose their error, and those were executed without one. -/
theorem markStep_error {m : MarkPc} (hm : a.MarkOk .wait m) :
    (a.markStep i m).1.slotError 0 = a.slotError 0 ∨ (a.markStep i m).1.slotError 0 = true ∨
      (a.built, false) ∈ a.executed := by
  cases m with
  | error s slots tfes => exact inr (inr hm.2.2)
  | failError s slots =>
    obtain ⟨rfl, -⟩ := hm
    right
    left
    change update a.slotError 0 true 0 = true
    exact update_self 0 true a.slotError
  | _ => exact inl rfl

theorem Failing.markStep (h : a.Failing .wait) {m : MarkPc} (hm : a.MarkOk .wait m) :
    (a.markStep i m).1.Failing .wait := by
  obtain ⟨-, -, -, hex, hbuilt⟩ := a.markStep_frame i m
  unfold Failing at h ⊢
  rw [hex, hbuilt]
  have herror : (a.markStep i m).1.slotError 0 = a.slotError 0 ∨ (a.markStep i m).1.slotError 0 = true ∨
      (a.built, false) ∈ a.executed := markStep_error hm
  obtain hsame | htrue | hgood := herror
  · rw [hsame]
    exact h
  · exact inl htrue
  · exact inr hgood

/-- A command that is waited for, under a statement of the marking. -/
theorem Waiting.markStep (h : a.Waiting n t) {m : MarkPc} (hm : a.MarkOk .wait m)
    (hout : ∀ s, a.outstanding s = true → s = 0) : (a.markStep i m).1.Waiting n t := by
  obtain ⟨hci, htable, htag, hex, hbuilt⟩ := a.markStep_frame i m
  have hstruck : a.outstanding 0 = false → (a.markStep i m).1.outstanding 0 = false :=
    (markStep_outstanding hm hout).2
  have herror : (a.markStep i m).1.slotError 0 = a.slotError 0 ∨ (a.markStep i m).1.slotError 0 = true ∨
      (a.built, false) ∈ a.executed := markStep_error hm
  have hdone : (a.markStep i m).1.slotDoneTag 0 = a.slotDoneTag 0 ∨
      (a.slotError 0 = true ∨ (a.built, false) ∈ a.executed) := by
    cases m with
    | done s slots tfes => exact inr (inr hm.2.2)
    | failDone s slots => exact inr hm.2.2
    | _ => exact inl rfl
  refine ⟨h.current.congr htable hbuilt htag, by rw [hci]; exact h.slots, ?_, ?_⟩
  · cases h.fate with
    | pending hissued hfresh =>
      exact .pending (by rw [hci]; exact hissued) (by unfold Fresh; rw [hex, hbuilt]; exact hfresh)
    | done hthrough hexecuted => exact .done (by rw [hci]; exact hthrough) (by rw [hex, hbuilt]; exact hexecuted)
    | failed hthrough hexecuted hbad houtstanding =>
      refine .failed (by rw [hci]; exact hthrough) (by rw [hex, hbuilt]; exact hexecuted) ?_ (hstruck houtstanding)
      obtain hsame | htrue | hgood := herror
      · exact hsame.trans hbad
      · exact htrue
      · exact absurd hgood hexecuted
  · intro htold
    rw [hex, hbuilt]
    have hbefore : a.slotError 0 = true ∨ (a.built, false) ∈ a.executed := by
      cases hdone with
      | inl hsame => exact h.told (hsame.symm.trans htold)
      | inr hbefore => exact hbefore
    obtain hsame | htrue | hgood := herror
    · rw [hsame]
      exact hbefore
    · exact inl htrue
    · exact inr hgood

/-- A slot that is set up, under a statement of the marking. -/
theorem Setup.markStep (h : a.Setup n t) {m : MarkPc} (hm : a.MarkOk .setup m) : (a.markStep i m).1.Setup n t := by
  obtain ⟨hci, htable, htag, hex, hbuilt⟩ := a.markStep_frame i m
  have hdone : (a.markStep i m).1.slotDoneTag = a.slotDoneTag := by
    cases m with
    | done s slots tfes => exact absurd hm.2.2 id
    | failDone s slots => exact absurd hm.2.2 id
    | _ => rfl
  refine ⟨h.current.congr htable hbuilt htag, ?_, ?_, ?_⟩
  · unfold Quiet
    rw [hci]
    exact h.quiet
  · unfold Fresh
    rw [hex, hbuilt]
    exact h.fresh
  · rw [hdone]
    exact h.untold

/-! ## Steps of the handler and of the controller -/

theorem MarkOk.mono {b : AhciPort} {m : MarkPc} (hfin : a.Finished p → b.Finished p)
    (hfail : a.Failing p → b.Failing p) (h : a.MarkOk p m) : b.MarkOk p m := by
  cases m with
  | error s slots tfes => exact ⟨h.1, h.2.1, hfin h.2.2⟩
  | done s slots tfes => exact ⟨h.1, h.2.1, hfin h.2.2⟩
  | load s slots tfes => exact ⟨h.1, h.2.1, hfin h.2.2⟩
  | store s slots tfes v => exact ⟨h.1, h.2.1, hfin h.2.2.1, h.2.2.2⟩
  | failDone s slots => exact ⟨h.1, h.2.1, hfail h.2.2⟩
  | _ => exact h

/-- A slot that is outstanding and no longer issued has been executed without an error. -/
theorem Waiting.finished (h : a.Waiting n t) (hout : a.outstanding 0 = true) (hci : a.ci 0 = false) :
    a.Finished .wait := by
  cases h.fate with
  | pending hissued _ => exact absurd (hissued.symm.trans hci) Bool.true_eq_false.mp
  | done _ hexecuted => exact hexecuted
  | failed _ _ _ hstruck => exact absurd (hout.symm.trans hstruck) Bool.true_eq_false.mp

/-- What a call knows survives a statement of the handler. -/
theorem At.markStep (h : a.At c) {m : MarkPc} (hm : a.MarkOk c.pc.phase m)
    (hout : ∀ s, a.outstanding s = true → s = 0) : (a.markStep i m).1.At c := by
  obtain ⟨hci, htable, htag, hex, hbuilt⟩ := a.markStep_frame i m
  have hquiet : a.Quiet → (a.markStep i m).1.Quiet := by
    unfold Quiet
    rw [hci]
    exact id
  have hfresh : a.Fresh → (a.markStep i m).1.Fresh := by
    unfold Fresh
    rw [hex, hbuilt]
    exact id
  obtain ⟨call, left, pc⟩ := c
  cases pc with
  | ready => exact hquiet h
  | find => exact hquiet h
  | nextTag s => exact ⟨h.1, hquiet h.2⟩
  | build s t => exact ⟨h.1, h.2.1, hquiet h.2.2⟩
  | setTag s t => exact ⟨h.1, h.2.1, hquiet h.2.2.1, hfresh h.2.2.2.1, by rw [htable, hbuilt]; exact h.2.2.2.2⟩
  | clearDone s t => exact ⟨h.1, hquiet h.2.1, hfresh h.2.2.1, h.2.2.2.congr htable hbuilt htag⟩
  | clearError s t => exact ⟨h.1, h.2.markStep hm⟩
  | orLoad s t => exact ⟨h.1, h.2.markStep hm⟩
  | orStore s t v => exact ⟨h.1, h.2.1.markStep hm, h.2.2⟩
  | clearIs s t => exact ⟨h.1, h.2.markStep hm⟩
  | ciLoad s t => exact ⟨h.1, h.2.markStep hm⟩
  | ciStore s t v => exact ⟨h.1, h.2.1.markStep hm, h.2.2⟩
  | check s t i => exact ⟨h.1, h.2.markStep hm hout⟩
  | recheck s t i => exact ⟨h.1, h.2.markStep hm hout⟩
  | poll back m' =>
    cases back with
    | none => exact ⟨hquiet h.1, h.2.mono id id⟩
    | some at_ =>
      exact ⟨h.1, h.2.1.markStep hm hout, h.2.2.mono (fun hf => hf.congr hex hbuilt) fun hf => hf.markStep hm⟩

theorem At.waiting (h : a.At c) (hphase : c.pc.phase = .wait) : ∃ t, a.Waiting c.call t := by
  obtain ⟨call, left, pc⟩ := c
  cases pc with
  | check s t i => exact ⟨t, h.2⟩
  | recheck s t i => exact ⟨t, h.2⟩
  | poll back m =>
    cases back with
    | none => cases hphase
    | some at_ => exact ⟨_, h.2.1⟩
  | _ => cases hphase

theorem At.quiet (h : a.At c) (hphase : c.pc.phase ≠ .wait) : a.Quiet := by
  obtain ⟨call, left, pc⟩ := c
  cases pc with
  | ready => exact h
  | find => exact h
  | nextTag s => exact h.2
  | build s t => exact h.2.2
  | setTag s t => exact h.2.2.1
  | clearDone s t => exact h.2.1
  | clearError s t => exact h.2.quiet
  | orLoad s t => exact h.2.quiet
  | orStore s t v => exact h.2.1.quiet
  | clearIs s t => exact h.2.quiet
  | ciLoad s t => exact h.2.quiet
  | ciStore s t v => exact h.2.1.quiet
  | check s t i => exact absurd rfl hphase
  | recheck s t i => exact absurd rfl hphase
  | poll back m =>
    cases back with
    | none => exact h.1
    | some at_ => exact absurd rfl hphase

theorem At.unissued (h : a.At c) (hphase : c.pc.phase = .setup) : c.pc.unissued = some 0 := by
  obtain ⟨call, left, pc⟩ := c
  cases pc with
  | clearError s t => exact congrArg some h.1
  | orLoad s t => exact congrArg some h.1
  | orStore s t v => exact congrArg some h.1
  | clearIs s t => exact congrArg some h.1
  | ciLoad s t => exact congrArg some h.1
  | ciStore s t v => exact congrArg some h.1
  | poll back m => cases back <;> cases hphase
  | _ => cases hphase

/-- What a call that waits knows, after the command or the marks have changed. -/
theorem At.wait_mono {b : AhciPort} (h : a.At c) (hphase : c.pc.phase = .wait)
    (hwait : ∀ t, a.Waiting c.call t → b.Waiting c.call t) (hfin : a.Finished .wait → b.Finished .wait)
    (hfail : a.Failing .wait → b.Failing .wait) : b.At c := by
  obtain ⟨call, left, pc⟩ := c
  cases pc with
  | check s t i => exact ⟨h.1, hwait t h.2⟩
  | recheck s t i => exact ⟨h.1, hwait t h.2⟩
  | poll back m =>
    cases back with
    | none => cases hphase
    | some at_ => exact ⟨h.1, hwait _ h.2.1, h.2.2.mono hfin hfail⟩
  | _ => cases hphase

theorem Waiting.quiet (h : a.Waiting n t) (hci : a.ci 0 = false) : a.Quiet := by
  intro s
  by_contra hne
  have hissued := eq_true_of_ne_false hne
  rw [h.slots s hissued] at hne
  exact hne hci

/-- The controller completes the command that is waited for. -/
theorem Waiting.complete (h : a.Waiting n t) (hci : a.ci 0 = true) {failed : Bool}
    (hstruck : failed = true → a.slotDoneTag 0 = a.slotTag 0 ∧ a.outstanding 0 = false) :
    (a.complete 0 failed).Waiting n t ∧ a.Fresh := by
  have hfresh : a.Fresh := by
    cases h.fate with
    | pending _ hfresh => exact hfresh
    | done hthrough _ => exact absurd (hci.symm.trans hthrough) Bool.true_eq_false.mp
    | failed hthrough _ _ _ => exact absurd (hci.symm.trans hthrough) Bool.true_eq_false.mp
  have hid : (a.complete 0 failed).executed = a.executed ++ [(a.built, failed)] := by
    unfold AhciPort.complete
    rw [h.current.table]
  have hthrough : (a.complete 0 failed).ci 0 = false := by
    change update a.ci 0 false 0 = false
    exact update_self 0 false a.ci
  have hcurrent : (a.complete 0 failed).Current n t := ⟨h.current.tag_ne, h.current.table, h.current.slotTag⟩
  refine ⟨⟨hcurrent, ?_, ?_, ?_⟩, hfresh⟩
  · intro s hs
    by_contra hne
    have hupdate : update a.ci 0 false s = true := hs
    rw [update_of_ne hne] at hupdate
    exact hne (h.slots s hupdate)
  · cases failed with
    | false =>
      apply Fate.done hthrough
      rw [hid]
      exact mem_append_right _ (mem_singleton_self _)
    | true =>
      obtain ⟨hdone, hout⟩ := hstruck rfl
      apply Fate.failed hthrough
      · rw [hid]
        intro hmem
        cases mem_append.mp hmem with
        | inl hold => exact hfresh _ hold rfl
        | inr hnew => cases mem_singleton.mp hnew
      · cases h.told (hdone.trans h.current.slotTag) with
        | inl herror => exact herror
        | inr hexecuted => exact absurd rfl (hfresh _ hexecuted)
      · exact hout
  · intro htold
    rw [hid]
    cases h.told htold with
    | inl herror => exact inl herror
    | inr hexecuted => exact inr (mem_append_left _ hexecuted)

end AhciPort

namespace AhciSys

def phase (a : AhciSys) : AhciPort.Phase :=
  match a.main with
  | none => .calm
  | some c => c.pc.phase

def AtMain (a : AhciSys) : Prop :=
  match a.main with
  | none => a.port.Quiet
  | some c => a.port.At c

structure OneSlot (a : AhciSys) : Prop where
  outstanding : ∀ s, a.port.outstanding s = true → s = 0
  bound : ∀ e ∈ a.port.executed, e.1 ≤ a.port.built
  once : (a.port.executed.map Prod.fst).Nodup
  told : ∀ id ∈ a.reported, (id, false) ∈ a.port.executed
  atMain : a.AtMain
  irq : ∀ m, a.irq = some m → a.port.MarkOk a.phase m ∧ (a.phase = .setup → a.port.outstanding 0 = false)

variable {a : AhciSys} {c : AhciCall} {n : ℕ} {t : UInt32}

theorem AtMain.of (h : a.AtMain) (hc : a.main = some c) : a.port.At c := by
  unfold AtMain at h
  rw [hc] at h
  exact h

theorem phase_some (hc : a.main = some c) : a.phase = c.pc.phase := by
  unfold phase
  rw [hc]

theorem AtMain.issued (h : a.AtMain) {s : ℕ} (hci : a.port.ci s = true) :
    ∃ c t, a.main = some c ∧ c.pc.phase = .wait ∧ a.port.Waiting c.call t := by
  unfold AtMain at h
  cases hc : a.main with
  | none =>
    rw [hc] at h
    exact absurd (hci.symm.trans (h s)) Bool.true_eq_false.mp
  | some c =>
    rw [hc] at h
    by_cases hphase : c.pc.phase = .wait
    · obtain ⟨t, hwait⟩ := h.waiting hphase
      exact ⟨c, t, rfl, hphase, hwait⟩
    · exact absurd (hci.symm.trans (h.quiet hphase s)) Bool.true_eq_false.mp

theorem OneSlot.irqStep (h : a.OneSlot) : (a.step .irqStep).OneSlot := by
  unfold step
  dsimp only
  cases hirq : a.irq with
  | none => exact h
  | some m =>
    dsimp only
    obtain ⟨hm, hclosed⟩ := h.irq m hirq
    obtain ⟨hci, -, -, hex, hbuilt⟩ := a.port.markStep_frame a.tfes m
    obtain ⟨hout, hstruck⟩ : (∀ s, (a.port.markStep a.tfes m).1.outstanding s = true → s = 0) ∧
        (a.port.outstanding 0 = false → (a.port.markStep a.tfes m).1.outstanding 0 = false) :=
      AhciPort.markStep_outstanding hm h.outstanding
    have hat := h.atMain
    -- what the handler may find outstanding, by what the call has under way
    have hfin : a.port.outstanding 0 = true → a.port.ci 0 = false → a.port.Finished a.phase := by
      intro hslot hzero
      cases hp : a.phase with
      | calm => trivial
      | setup =>
        rw [hclosed hp] at hslot
        cases hslot
      | wait =>
        cases hc : a.main with
        | none =>
          unfold phase at hp
          rw [hc] at hp
          cases hp
        | some c =>
          obtain ⟨t, hwait⟩ := (hat.of hc).waiting ((phase_some hc).symm.trans hp)
          exact hwait.finished hslot hzero
    have hopen : a.port.outstanding 0 = true → a.phase.Open := by
      intro hslot
      cases hp : a.phase with
      | calm => trivial
      | setup =>
        rw [hclosed hp] at hslot
        cases hslot
      | wait => trivial
    constructor
    · exact hout
    · dsimp only
      rw [hex, hbuilt]
      exact h.bound
    · dsimp only
      rw [hex]
      exact h.once
    · dsimp only
      rw [hex]
      exact h.told
    · unfold AtMain at hat ⊢
      dsimp only
      cases hc : a.main with
      | none =>
        rw [hc] at hat
        unfold AhciPort.Quiet
        dsimp only
        rw [hci]
        exact hat
      | some c =>
        rw [hc] at hat
        exact hat.markStep (phase_some hc ▸ hm) h.outstanding
    · intro m' hm'
      exact ⟨AhciPort.markStep_ok hm h.outstanding hfin hopen m' hm', fun hp => hstruck (hclosed hp)⟩

theorem OneSlot.irqEnter (h : a.OneSlot) (hsound : a.Sound .irq) : (a.step .irq).OneSlot := by
  unfold step
  dsimp only
  cases hirq : a.irq with
  | some m => exact h
  | none =>
    refine ⟨h.outstanding, h.bound, h.once, h.told, h.atMain, ?_⟩
    intro m hm
    cases hm
    refine ⟨trivial, fun hp => ?_⟩
    cases hc : a.main with
    | none =>
      change a.phase = .setup at hp
      unfold phase at hp
      rw [hc] at hp
      cases hp
    | some c =>
      have hphase : c.pc.phase = .setup := (phase_some hc).symm.trans hp
      exact hsound (Option.isNone_iff_eq_none.mpr hirq) c hc 0 ((h.atMain.of hc).unissued hphase)

theorem OneSlot.complete (h : a.OneSlot) {s : ℕ} {failed : Bool} (hsound : a.Sound (.complete s failed)) :
    (a.step (.complete s failed)).OneSlot := by
  unfold step
  dsimp only
  by_cases hci : a.port.ci s = true
  · rw [if_pos hci]
    obtain ⟨c, t, hc, hphase, hwait⟩ := h.atMain.issued hci
    have hzero := hwait.slots s hci
    rw [hzero] at hci hsound ⊢
    obtain ⟨hwait', hfresh⟩ := hwait.complete hci fun hfailed => hsound hfailed hci
    have hid : (a.port.complete 0 failed).executed = a.port.executed ++ [(a.port.built, failed)] := by
      unfold AhciPort.complete
      rw [hwait.current.table]
    have hgrow : ∀ e ∈ a.port.executed, e ∈ (a.port.complete 0 failed).executed := by
      intro e he
      rw [hid]
      exact mem_append_left _ he
    have hfail : a.port.Failing .wait → (a.port.complete 0 failed).Failing .wait :=
      Or.imp_right (hgrow _)
    constructor
    · exact h.outstanding
    · intro e he
      change e ∈ (a.port.complete 0 failed).executed at he
      change e.1 ≤ a.port.built
      rw [hid] at he
      cases mem_append.mp he with
      | inl hold => exact h.bound e hold
      | inr hnew => rw [mem_singleton.mp hnew]
    · change ((a.port.complete 0 failed).executed.map Prod.fst).Nodup
      rw [hid, map_append]
      apply List.Nodup.append h.once (nodup_singleton _)
      intro id hold hnew
      have hbuilt : id = a.port.built := mem_singleton.mp hnew
      obtain ⟨e, he, heq⟩ := mem_map.mp hold
      exact hfresh e he (heq.trans hbuilt)
    · exact fun id hid => hgrow _ (h.told id hid)
    · have hat := h.atMain.of hc
      unfold AtMain
      dsimp only
      rw [hc]
      apply hat.wait_mono hphase _ (hgrow _) hfail
      intro t' hw
      exact (hw.complete hci fun hfailed => hsound hfailed hci).1
    · intro m hm
      obtain ⟨hmark, -⟩ := h.irq m hm
      have hp : a.phase = .wait := (phase_some hc).trans hphase
      change (a.port.complete 0 failed).MarkOk a.phase m ∧ (a.phase = .setup → _)
      rw [hp] at hmark ⊢
      exact ⟨hmark.mono (hgrow _) hfail, fun hsetup => by cases hsetup⟩
  · rw [if_neg hci]
    exact h

theorem OneSlot.call (h : a.OneSlot) (sectors : ℕ) : (a.step (.call sectors)).OneSlot := by
  unfold step
  dsimp only
  by_cases hfree : a.main.isNone ∧ a.irq.isNone ∧ sectors ≠ 0
  · rw [if_pos hfree]
    have hmain := Option.isNone_iff_eq_none.mp hfree.1
    have hirq := Option.isNone_iff_eq_none.mp hfree.2.1
    have hat := h.atMain
    unfold AtMain at hat
    rw [hmain] at hat
    refine ⟨h.outstanding, h.bound, h.once, h.told, hat, fun m hm => ?_⟩
    change a.irq = some m at hm
    rw [hirq] at hm
    cases hm
  · rw [if_neg hfree]
    exact h

/-! ## Steps of the call -/

theorem OneSlot.next (h : a.OneSlot) {b : AhciSys} (hirq : b.irq = none)
    (hout : ∀ s, b.port.outstanding s = true → s = 0) (hex : b.port.executed = a.port.executed)
    (hrep : b.reported = a.reported) (hbuilt : a.port.built ≤ b.port.built) (hat : b.AtMain) : b.OneSlot := by
  refine ⟨hout, ?_, ?_, ?_, hat, fun m hm => ?_⟩
  · rw [hex]
    exact fun e he => (h.bound e he).trans hbuilt
  · rw [hex]
    exact h.once
  · rw [hex, hrep]
    exact h.told
  · rw [hirq] at hm
    cases hm

theorem nextTag_ne (a : AhciSys) : a.nextTag ≠ 0 := by
  unfold nextTag
  by_cases hzero : a.tagSeq + 1 = 0
  · rw [if_pos hzero, hzero]
    decide
  · rw [if_neg hzero]
    exact hzero

theorem findSlot_quiet {d : AhciPort} (h : d.Quiet) : d.findSlot = some 0 := by
  unfold AhciPort.findSlot
  rw [range_succ_eq_map]
  apply find?_cons_of_pos
  rw [h 0]
  rfl

theorem OneSlot.waited (h : a.OneSlot) (hirq : a.irq = none) (hwait : a.port.Waiting n t)
    (hdone : a.port.slotDoneTag 0 = t) (hgive : a.port.slotError 0 = true → a.port.ci 0 = false) :
    (a.waited c 0).OneSlot := by
  unfold AhciSys.waited
  by_cases herror : a.port.slotError 0 = true
  · rw [if_pos herror]
    exact h.next hirq h.outstanding rfl rfl le_rfl (hwait.quiet (hgive herror))
  rw [if_neg herror]
  have hexecuted := (hwait.told hdone).resolve_left herror
  have hquiet : a.port.Quiet := by
    apply hwait.quiet
    cases hwait.fate with
    | pending _ hfresh => exact absurd rfl (hfresh _ hexecuted)
    | done hthrough _ => exact hthrough
    | failed hthrough _ _ _ => exact hthrough
  have htold : ∀ id ∈ a.reported ++ [a.port.built], (id, false) ∈ a.port.executed := by
    intro id hid
    cases mem_append.mp hid with
    | inl hold => exact h.told id hold
    | inr hnew => rw [mem_singleton.mp hnew]; exact hexecuted
  dsimp only
  by_cases hleft : c.left = 0
  · rw [if_pos hleft]
    exact ⟨h.outstanding, h.bound, h.once, htold, hquiet, fun m hm => absurd (hirq.symm.trans hm) nofun⟩
  · rw [if_neg hleft]
    exact ⟨h.outstanding, h.bound, h.once, htold, hquiet, fun m hm => absurd (hirq.symm.trans hm) nofun⟩

/-- The bits that are written to PxCI are that of slot 0. -/
theorem Setup.issue {d : AhciPort} (h : d.Setup n t) {v : ℕ → Bool} (hv : ∀ x, v x = false) :
    AhciPort.Waiting { d with ci := fun x => d.ci x || update v 0 true x } n t := by
  refine ⟨⟨h.current.tag_ne, h.current.table, h.current.slotTag⟩, ?_, ?_, fun htold => absurd htold h.untold⟩
  · intro s hs
    by_contra hne
    change (d.ci s || update v 0 true s) = true at hs
    rw [h.quiet s, update_of_ne hne, hv s] at hs
    cases hs
  · refine .pending ?_ h.fresh
    change (d.ci 0 || update v 0 true 0) = true
    rw [update_self, Bool.or_true]

theorem update_slots {v : ℕ → Bool} (hv : ∀ x, v x = true → x = 0) : ∀ x, update v 0 true x = true → x = 0 := by
  intro x hx
  by_contra hne
  rw [update_of_ne hne] at hx
  exact hne (hv x hx)

theorem OneSlot.mainStep (h : a.OneSlot) (hirq : a.irq = none) (hc : a.main = some c) (ready : Bool)
    (hgive : ∀ s, a.givesUp c.pc = some s → a.port.ci s = false) : (a.mainStep ready c).OneSlot := by
  have hat := h.atMain.of hc
  obtain ⟨call, left, pc⟩ := c
  cases pc with
  | ready =>
    cases ready with
    | true => exact h.next hirq h.outstanding rfl rfl le_rfl hat
    | false => exact h.next hirq h.outstanding rfl rfl le_rfl hat
  | find =>
    unfold AhciSys.mainStep
    dsimp only
    rw [findSlot_quiet hat]
    exact h.next hirq h.outstanding rfl rfl le_rfl ⟨rfl, hat⟩
  | nextTag s => exact h.next hirq h.outstanding rfl rfl le_rfl ⟨hat.1, a.nextTag_ne, hat.2⟩
  | build s t =>
    obtain ⟨rfl, htag, hquiet⟩ := hat
    refine h.next hirq h.outstanding rfl rfl (Nat.le_succ _) ⟨rfl, htag, hquiet, ?_, ?_⟩
    · intro e he heq
      have := h.bound e he
      change e.1 = a.port.built + 1 at heq
      omega
    · change update a.port.table 0 ⟨a.port.built + 1, call⟩ 0 = _
      exact update_self 0 _ _
  | setTag s t =>
    obtain ⟨rfl, htag, hquiet, hfresh, htable⟩ := hat
    refine h.next hirq h.outstanding rfl rfl le_rfl ⟨rfl, hquiet, hfresh, htag, htable, ?_⟩
    change update a.port.slotTag 0 t 0 = t
    exact update_self 0 t a.port.slotTag
  | clearDone s t =>
    obtain ⟨rfl, hquiet, hfresh, hcurrent⟩ := hat
    refine h.next hirq h.outstanding rfl rfl le_rfl
      ⟨rfl, ⟨hcurrent.tag_ne, hcurrent.table, hcurrent.slotTag⟩, hquiet, hfresh, ?_⟩
    change update a.port.slotDoneTag 0 0 0 ≠ t
    rw [update_self]
    exact hcurrent.tag_ne.symm
  | clearError s t =>
    obtain ⟨rfl, hset⟩ := hat
    exact h.next hirq h.outstanding rfl rfl le_rfl
      ⟨rfl, ⟨hset.current.tag_ne, hset.current.table, hset.current.slotTag⟩, hset.quiet, hset.fresh, hset.untold⟩
  | orLoad s t => exact h.next hirq h.outstanding rfl rfl le_rfl ⟨hat.1, hat.2, h.outstanding⟩
  | orStore s t v =>
    obtain ⟨rfl, hset, hv⟩ := hat
    exact h.next hirq (update_slots hv) rfl rfl le_rfl
      ⟨rfl, ⟨hset.current.tag_ne, hset.current.table, hset.current.slotTag⟩, hset.quiet, hset.fresh, hset.untold⟩
  | clearIs s t => exact h.next hirq h.outstanding rfl rfl le_rfl hat
  | ciLoad s t => exact h.next hirq h.outstanding rfl rfl le_rfl ⟨hat.1, hat.2, hat.2.quiet⟩
  | ciStore s t v =>
    obtain ⟨rfl, hset, hv⟩ := hat
    exact h.next hirq h.outstanding rfl rfl le_rfl ⟨rfl, Setup.issue hset hv⟩
  | check s t i =>
    obtain ⟨rfl, hwait⟩ := hat
    unfold AhciSys.mainStep
    dsimp only
    by_cases hspins : i = ahciWaitSpins
    · rw [if_pos hspins]
      have hci := hgive 0 (if_pos (inl hspins))
      exact h.next hirq h.outstanding rfl rfl le_rfl (hwait.quiet hci)
    rw [if_neg hspins]
    by_cases hdone : a.port.slotDoneTag 0 = t
    · rw [if_pos hdone]
      exact h.waited hirq hwait hdone fun herror => hgive 0 (if_pos (inr ⟨hdone, herror⟩))
    · rw [if_neg hdone]
      exact h.next hirq h.outstanding rfl rfl le_rfl ⟨rfl, hwait, trivial⟩
  | recheck s t i =>
    obtain ⟨rfl, hwait⟩ := hat
    unfold AhciSys.mainStep
    dsimp only
    by_cases hdone : a.port.slotDoneTag 0 = t
    · rw [if_pos hdone]
      exact h.waited hirq hwait hdone fun herror => hgive 0 (if_pos ⟨hdone, herror⟩)
    · rw [if_neg hdone]
      exact h.next hirq h.outstanding rfl rfl le_rfl ⟨rfl, hwait⟩
  | poll back m =>
    obtain ⟨hci, -, -, hex, hbuilt⟩ := a.port.markStep_frame a.tfes m
    unfold AhciSys.mainStep
    dsimp only
    cases back with
    | none =>
      obtain ⟨hquiet, hm⟩ := hat
      have hquiet' : (a.port.markStep a.tfes m).1.Quiet := by
        unfold AhciPort.Quiet
        rw [hci]
        exact hquiet
      have hout : ∀ s, (a.port.markStep a.tfes m).1.outstanding s = true → s = 0 :=
        (AhciPort.markStep_outstanding hm h.outstanding).1
      have hok := AhciPort.markStep_ok (i := a.tfes) hm h.outstanding (fun _ _ => trivial) fun _ => trivial
      cases hnext : (a.port.markStep a.tfes m).2.2 with
      | none => exact h.next hirq hout hex rfl hbuilt.ge hquiet'
      | some m' => exact h.next hirq hout hex rfl hbuilt.ge ⟨hquiet', hok m' hnext⟩
    | some at_ =>
      obtain ⟨s, t, i⟩ := at_
      obtain ⟨rfl, hwait, hm⟩ := hat
      have hwait' : (a.port.markStep a.tfes m).1.Waiting _ t := hwait.markStep hm h.outstanding
      have hout : ∀ s, (a.port.markStep a.tfes m).1.outstanding s = true → s = 0 :=
        (AhciPort.markStep_outstanding hm h.outstanding).1
      have hok := AhciPort.markStep_ok (i := a.tfes) hm h.outstanding hwait.finished fun _ => trivial
      cases hnext : (a.port.markStep a.tfes m).2.2 with
      | none => exact h.next hirq hout hex rfl hbuilt.ge ⟨rfl, hwait'⟩
      | some m' => exact h.next hirq hout hex rfl hbuilt.ge ⟨rfl, hwait', hok m' hnext⟩

theorem OneSlot.step {e : AhciEvent} (h : a.OneSlot) (hsound : a.Sound e) : (a.step e).OneSlot := by
  cases e with
  | call sectors => exact h.call sectors
  | main ready =>
    unfold AhciSys.step
    dsimp only
    cases hirq : a.irq with
    | some m => exact h
    | none =>
      cases hc : a.main with
      | none => exact h
      | some c => exact h.mainStep hirq hc ready (hsound (Option.isNone_iff_eq_none.mpr hirq) c hc)
  | irq => exact h.irqEnter hsound
  | irqStep => exact h.irqStep
  | complete s failed => exact h.complete hsound
  | taskFileError => exact ⟨h.outstanding, h.bound, h.once, h.told, h.atMain, h.irq⟩

theorem inv_init : OneSlot {} :=
  ⟨fun _ hs => absurd hs Bool.false_ne_true, fun _ he => absurd he not_mem_nil, nodup_nil,
    fun _ hid => absurd hid not_mem_nil, fun _ => rfl, fun _ hm => absurd hm nofun⟩

theorem OneSlot.exact (h : a.OneSlot) : a.Exact := by
  refine ⟨h.once, h.told, ?_⟩
  intro s hci
  obtain ⟨c, t, hc, -, hwait⟩ := h.atMain.issued hci
  rw [hwait.slots s hci, hwait.current.table]
  exact ⟨c, hc, rfl⟩

/-- Commands run at most once and do not outlive their call, in every run in which the handler keeps out of the
issue, errors are told by PxIS first, and the controller is through with what a call gives up on. -/
theorem commands_exact (es : List AhciEvent) (h : Meets step Sound {} es) : (run step {} es).Exact :=
  (run_invariant (fun _ _ => OneSlot.step) inv_init h).exact

/-- A call for one sector that the controller serves, and the handler that tells. -/
def served : List AhciEvent :=
  .call 1 :: List.replicate 12 (.main true) ++ [.complete 0 false] ++ .irq :: List.replicate 7 .irqStep ++ [.main true]

theorem served_exact : (run step {} served).Exact ∧ (run step {} served).reported = [1] :=
  ⟨commands_exact served (by decide +kernel), by decide +kernel⟩

/-- An error that PxIS tells of while the command stays issued: the call returns and the command is still there. -/
def abandoned : List AhciEvent :=
  .call 1 :: List.replicate 12 (.main true) ++ [.taskFileError] ++ List.replicate 9 (.main true)

theorem abandoned_owned : ¬∀ es, (run step {} es).Exact := by
  intro h
  obtain ⟨c, hc, -⟩ := (h abandoned).owned 0 (by decide +kernel)
  have hnone : (run step {} abandoned).main.isNone = true := by decide +kernel
  rw [hc] at hnone
  cases hnone

end AhciSys

end EdgeOS
