import EdgeOS.Lib.Runs
import Mathlib.Data.BitVec
import Mathlib.Logic.Function.Basic

namespace EdgeOS

open Lib Function List

/-!
Who is inside the network stack: system calls and interrupt handlers on one processor, the gates of
`idt_init`, and the calls into lwIP that they make. The card's transmit path is entered by lwIP only.
-/

/-! ## What calls into lwIP -/

/-- A call into lwIP that an interrupt handler makes: a frame that was received, with `pbuf_alloc`,
`pbuf_take` and `netif->input`, or the timers. -/
inductive NetCall
  | netifInput (len : ℕ)
  | sysCheckTimeouts
  deriving DecidableEq, Repr

/-- `E1000_IMS_RX_MASK`, `E1000_RX_BUF_SIZE`, and the size of an Ethernet header. -/
def e1000ImsRxMask : BitVec 32 := 0xD0
def e1000RxBufSize : ℕ := 2048
def ethHdrSize : ℕ := 14

/-- `edge_lwip_rx_frame_cb`, which is set when the stack is ready. -/
def edgeLwipRxFrameCb (ready : Bool) (len : ℕ) : List NetCall :=
  if !ready ∨ len = 0 ∨ 1600 < len then [] else [.netifInput len]

def e1000HandleRxFrame (ready : Bool) (len : ℕ) : List NetCall :=
  if len < ethHdrSize then [] else edgeLwipRxFrameCb ready len

/-- `e1000_poll_rx`, on the frames that it finds in the ring. -/
def e1000PollRx (card ready : Bool) (frames : List ℕ) : List NetCall :=
  if card then
    frames.flatMap fun len =>
      if 0 < len ∧ len ≤ e1000RxBufSize then e1000HandleRxFrame ready len else []
  else []

def lwipStackPoll (card ready : Bool) (frames : List ℕ) : List NetCall :=
  if !ready then [] else e1000PollRx card ready frames ++ [.sysCheckTimeouts]

/-- `timer_handler`: what it does after polling enters no part of the network. -/
def timerHandler (card ready : Bool) (frames : List ℕ) : List NetCall := lwipStackPoll card ready frames

def e1000IrqHandler (card ready : Bool) (icr : BitVec 32) (frames : List ℕ) : List NetCall :=
  if !card then []
  else if icr = 0 then []
  else if icr &&& e1000ImsRxMask ≠ 0 then e1000PollRx card ready frames
  else []

/-! ## The processor -/

/-- The gates of `idt_init`: a trap gate for `int 0x80`, interrupt gates for the rest. -/
def idtType (vector : ℕ) : BitVec 8 := if vector = 128 then 0xEF else 0x8E

/-- The interrupt flag behind a gate. An interrupt gate clears it. -/
def gateFlag (type : BitVec 8) (flag : Bool) : Bool := if type &&& 0x0F = 0x0E then false else flag

def irqBase : ℕ := 32

/-- How kernel code came to run: `kmain`, a system call, an exception in user mode, an interrupt. -/
inductive Entry
  | kernel
  | syscall
  | exception
  | irq
  deriving DecidableEq, Repr

/-- An activation of kernel code: the interrupt flag it was entered with, the calls into lwIP that an
interrupt handler has left to make, and whether it is inside lwIP. -/
structure Activation where
  entry : Entry
  saved : Bool := true
  todo : List NetCall := []
  inside : Bool := false
  deriving DecidableEq, Repr

/-- The activation can call into lwIP: a handler makes the calls it has left, a system call and `kmain`
make what calls they like. -/
def Activation.canEnter (a : Activation) : Bool :=
  !a.inside && match a.entry with
    | .irq => a.todo ≠ []
    | .exception => false
    | _ => true

/-- The processor: `g_ready` of the card and of the stack, the interrupt flag, and for each task its
activations, the innermost first. A task in user mode has none. -/
structure NetCpu where
  card : Bool := false
  ready : Bool := false
  flag : Bool := true
  current : ℕ := 0
  kstacks : ℕ → List Activation := fun t => if t = 0 then [{ entry := .kernel }] else []

/-- What can happen. `frames` are the lengths of the frames that a handler finds in the ring. -/
inductive NetEvent
  | e1000Init
  | lwipStackInit
  | int80
  | syscallOpcode
  | fault (vector : ℕ)
  | timer (frames : List ℕ)
  | network (line : ℕ) (icr : BitVec 32) (frames : List ℕ)
  | device (line : ℕ)
  | enter
  | leave
  | iret
  | wait
  | switch (t : ℕ)
  deriving DecidableEq, Repr

namespace NetCpu

variable (k : NetCpu)

def stack : List Activation := k.kstacks k.current

def setStack (l : List Activation) : NetCpu := { k with kstacks := Function.update k.kstacks k.current l }

def trap (vector : ℕ) (entry : Entry) (todo : List NetCall) : NetCpu :=
  { k.setStack ({ entry := entry, saved := k.flag, todo := todo } :: k.stack) with
    flag := gateFlag (idtType vector) k.flag }

def sti : NetCpu := { k with flag := true }

/-- The running activation, if it is no interrupt handler and outside of lwIP. -/
def base : Option Activation :=
  match k.stack with
  | a :: _ => if a.entry = .irq ∨ a.inside then none else some a
  | [] => none

def step : NetEvent → NetCpu
  | .e1000Init => if k.base.any (·.entry = .kernel) then { k with card := true } else k
  | .lwipStackInit => if k.card ∧ k.base.any (·.entry = .kernel) then { k with ready := true } else k
  -- `syscall_handler` begins with `sti`; the opcode arrives as an exception.
  | .int80 => if k.stack = [] then (k.trap 128 .syscall []).sti else k
  | .syscallOpcode => if k.stack = [] then (k.trap 6 .syscall []).sti else k
  | .fault vector => if k.stack = [] ∧ vector < irqBase then k.trap vector .exception [] else k
  | .timer frames => if k.flag then k.trap irqBase .irq (timerHandler k.card k.ready frames) else k
  | .network line icr frames =>
    if k.flag ∧ line < 16 then k.trap (irqBase + line) .irq (e1000IrqHandler k.card k.ready icr frames) else k
  | .device line => if k.flag ∧ line < 16 then k.trap (irqBase + line) .irq [] else k
  | .enter =>
    match k.stack with
    | a :: l => if a.canEnter then k.setStack ({ a with todo := a.todo.tail, inside := true } :: l) else k
    | [] => k
  | .leave =>
    match k.stack with
    | a :: l => k.setStack ({ a with inside := false } :: l)
    | [] => k
  | .iret =>
    match k.stack with
    | a :: l =>
      if a.inside ∨ a.todo ≠ [] ∨ a.entry = .kernel then k else { k.setStack l with flag := a.saved }
    | [] => k
  -- `sti; hlt` in `wait_blocking_step`.
  | .wait => if k.base.isSome then k.sti else k
  -- `scheduler_yield`. A task that has no activation goes on in user mode.
  | .switch t =>
    if k.base.isSome then { k with current := t, flag := k.kstacks t = [] ∨ k.flag } else k

def Alone : Prop := ∀ t, ∀ a ∈ k.kstacks t, a.inside = false

def Follows : NetEvent → Prop
  | .enter => ∀ a l, k.stack = a :: l → a.canEnter = true → k.Alone
  | _ => True

def Outside : Prop := ∀ a ∈ k.stack, a.inside = false

/-- Once the stack is ready, code that is no interrupt handler calls into lwIP with interrupts disabled
only. Interrupts may come at any time. -/
def Masked : NetEvent → Prop
  | .enter => ∀ a l, k.stack = a :: l → a.canEnter = true → a.entry ≠ .irq → k.ready = true → k.flag = false
  | _ => True

end NetCpu

/-! ## One at a time -/

section Entry

variable {k : NetCpu} {a : Activation} {l : List Activation} {card ready : Bool} {frames : List ℕ}

theorem gateFlag_irq {line : ℕ} (hline : line < 16) (flag : Bool) :
    gateFlag (idtType (irqBase + line)) flag = false := by
  have hne : irqBase + line ≠ 128 := by
    unfold irqBase
    omega
  unfold idtType
  rw [if_neg hne]
  rfl

theorem timerHandler_nil : timerHandler card ready frames = [] ↔ ready = false := by
  unfold timerHandler lwipStackPoll
  cases ready <;> simp

theorem e1000IrqHandler_ready {icr : BitVec 32} (hcalls : e1000IrqHandler card ready icr frames ≠ []) :
    ready = true := by
  by_contra hoff
  have hframe : ∀ len, e1000HandleRxFrame ready len = [] := by
    intro len
    unfold e1000HandleRxFrame edgeLwipRxFrameCb
    simp [hoff]
  have hpoll : e1000PollRx card ready frames = [] := by
    unfold e1000PollRx
    simp [hframe]
  unfold e1000IrqHandler at hcalls
  rw [hpoll] at hcalls
  simp at hcalls

/-- The activations of a task that no interrupt has been taken from. -/
def Plain (l : List Activation) : Prop := l = [] ∨ ∃ a : Activation, l = [a] ∧ a.entry ≠ .irq

theorem Activation.canEnter_irq (hirq : a.entry = .irq) (ha : a.canEnter = true) : a.todo ≠ [] := by
  unfold canEnter at ha
  rw [hirq] at ha
  simp at ha
  exact ha.2

/-- The activations of the task that runs. With interrupts enabled, none is inside a stack that is ready. A
handler may be on top, with interrupts disabled; it has calls to make only if the stack is ready, and then
what it interrupted is outside. -/
def Shaped (flag ready : Bool) (l : List Activation) : Prop :=
  (Plain l ∧ (flag = true → ready = true → ∀ b ∈ l, b.inside = false)) ∨
    ∃ h rest, l = h :: rest ∧ h.entry = .irq ∧ flag = false ∧ Plain rest ∧
      (ready = true → ∀ b ∈ rest, b.inside = false) ∧ (h.inside = true ∨ h.todo ≠ [] → ready = true)

theorem Shaped.outside {flag : Bool} (h : Plain l) (hout : ∀ b ∈ l, b.inside = false) : Shaped flag ready l :=
  .inl ⟨h, fun _ _ => hout⟩

theorem Plain.tail (h : Plain (a :: l)) : l = [] ∧ a.entry ≠ .irq := by
  rcases h with hnil | ⟨b, hb, hentry⟩
  · simp at hnil
  · obtain ⟨rfl, rfl⟩ := cons.inj hb
    exact ⟨rfl, hentry⟩

namespace NetCpu

/-- Only the task that runs has activations inside lwIP, and a handler runs only in it. -/
structure Separate (k : NetCpu) : Prop where
  parked : ∀ t, t ≠ k.current → Plain (k.kstacks t) ∧ ∀ a ∈ k.kstacks t, a.inside = false
  running : Shaped k.flag k.ready k.stack

@[simp] theorem setStack_stack : (k.setStack l).stack = l := update_self _ _ _

theorem setStack_other {t : ℕ} (ht : t ≠ k.current) : (k.setStack l).kstacks t = k.kstacks t :=
  update_of_ne ht _ _

theorem Separate.change (h : k.Separate) {flag : Bool} (hl : Shaped flag k.ready l) :
    Separate { k.setStack l with flag := flag } where
  parked := by
    intro t ht
    have hsame : (k.setStack l).kstacks t = k.kstacks t := setStack_other ht
    dsimp only
    rw [hsame]
    exact h.parked t ht
  running := by
    have hsame : (k.setStack l).stack = l := setStack_stack
    change Shaped flag k.ready (k.setStack l).stack
    rw [hsame]
    exact hl

theorem Separate.enterKernel (h : k.Separate) (hk : k.stack = []) {entry : Entry} (hentry : entry ≠ .irq)
    (flag : Bool) :
    Separate { k.setStack ({ entry := entry, saved := k.flag, todo := [] } :: k.stack) with flag := flag } := by
  apply h.change
  rw [hk]
  refine .outside (.inr ⟨_, rfl, hentry⟩) fun b hb => ?_
  rw [mem_singleton.mp hb]

theorem Separate.plain (h : k.Separate) (hflag : k.flag = true) :
    Plain k.stack ∧ (k.ready = true → k.Outside) := by
  rcases h.running with ⟨hplain, hout⟩ | ⟨_, _, -, -, hoff, -⟩
  · exact ⟨hplain, hout hflag⟩
  · rw [hflag] at hoff
    simp at hoff

/-- An interrupt is taken: its handler runs with interrupts disabled. -/
theorem Separate.interrupt (h : k.Separate) (hflag : k.flag = true) {line : ℕ} (hline : line < 16)
    {todo : List NetCall} (hcalls : todo ≠ [] → k.ready = true) :
    (k.trap (irqBase + line) .irq todo).Separate := by
  obtain ⟨hplain, hout⟩ := h.plain hflag
  unfold trap
  rw [gateFlag_irq hline]
  apply h.change
  refine .inr ⟨_, _, rfl, rfl, rfl, hplain, hout, ?_⟩
  rintro (hin | htodo)
  · simp at hin
  · exact hcalls htodo

theorem base_some (h : k.base = some a) : ∃ l, k.stack = a :: l ∧ a.entry ≠ .irq ∧ a.inside = false := by
  unfold base at h
  split at h
  · rename_i b l hl
    split_ifs at h with hb
    rw [← Option.some.inj h]
    rw [not_or] at hb
    exact ⟨l, hl, hb.1, by simpa using hb.2⟩
  · simp at h

/-- A plain activation that runs outside of lwIP is alone on its stack. -/
theorem Separate.base (h : k.Separate) (hb : k.base = some a) :
    k.stack = [a] ∧ a.entry ≠ .irq ∧ a.inside = false := by
  obtain ⟨l, hl, hentry, hout⟩ := base_some hb
  have hplain : Plain k.stack := by
    rcases h.running with ⟨hplain, -⟩ | ⟨h', rest, heq, hirq, -⟩
    · exact hplain
    rw [hl] at heq
    rw [(cons.inj heq).1] at hentry
    exact absurd hirq hentry
  rw [hl] at hplain ⊢
  rw [hplain.tail.1]
  exact ⟨rfl, hentry, hout⟩

theorem Separate.shaped_base (h : k.Separate) (hb : k.base = some a) (flag ready : Bool) :
    Shaped flag ready k.stack := by
  obtain ⟨hstack, hentry, hout⟩ := h.base hb
  rw [hstack]
  refine .outside (.inr ⟨a, rfl, hentry⟩) fun b hb => ?_
  rw [mem_singleton.mp hb]
  exact hout

theorem Separate.enter (h : k.Separate) (hl : k.stack = a :: l) (ha : a.canEnter = true)
    (hmasked : k.Masked .enter) : (k.setStack ({ a with todo := a.todo.tail, inside := true } :: l)).Separate := by
  have hshape : Shaped k.flag k.ready ({ a with todo := a.todo.tail, inside := true } :: l) := by
    rcases h.running with ⟨hplain, -⟩ | ⟨h', rest, heq, hirq, hoff, hrest, hout, hcalls⟩
    · rw [hl] at hplain
      obtain ⟨hnil, hentry⟩ := hplain.tail
      rw [hnil]
      refine .inl ⟨.inr ⟨_, rfl, hentry⟩, fun hflag hready => ?_⟩
      rw [hmasked a l hl ha hentry hready] at hflag
      simp at hflag
    rw [hl] at heq
    obtain ⟨rfl, rfl⟩ := cons.inj heq
    exact .inr ⟨_, _, rfl, hirq, hoff, hrest, hout, fun _ => hcalls (.inr (Activation.canEnter_irq hirq ha))⟩
  exact h.change hshape

theorem Separate.leave (h : k.Separate) (hl : k.stack = a :: l) :
    (k.setStack ({ a with inside := false } :: l)).Separate := by
  have hshape : Shaped k.flag k.ready ({ a with inside := false } :: l) := by
    rcases h.running with ⟨hplain, -⟩ | ⟨h', rest, heq, hirq, hoff, hrest, hout, hcalls⟩
    · rw [hl] at hplain
      rw [hplain.tail.1]
      refine .outside (.inr ⟨_, rfl, hplain.tail.2⟩) fun b hb => ?_
      rw [mem_singleton.mp hb]
    rw [hl] at heq
    obtain ⟨rfl, rfl⟩ := cons.inj heq
    refine .inr ⟨_, _, rfl, hirq, hoff, hrest, hout, ?_⟩
    rintro (hin | htodo)
    · simp at hin
    · exact hcalls (.inr htodo)
  exact h.change hshape

/-- What a handler interrupted goes on outside of lwIP, or the stack is not ready. -/
theorem Separate.iret (h : k.Separate) (hl : k.stack = a :: l) :
    Separate { k.setStack l with flag := a.saved } := by
  apply h.change
  rcases h.running with ⟨hplain, -⟩ | ⟨h', rest, heq, -, -, hrest, hout, -⟩
  · rw [hl] at hplain
    rw [hplain.tail.1]
    exact .outside (.inl rfl) fun b hb => absurd hb not_mem_nil
  rw [hl] at heq
  obtain ⟨rfl, rfl⟩ := cons.inj heq
  exact .inl ⟨hrest, fun _ => hout⟩

theorem Separate.switch (h : k.Separate) (hb : k.base = some a) (t : ℕ) (flag : Bool) :
    Separate { k with current := t, flag := flag } := by
  obtain ⟨hstack, hentry, hout⟩ := h.base hb
  have hall : ∀ t, Plain (k.kstacks t) ∧ ∀ b ∈ k.kstacks t, b.inside = false := by
    intro t
    by_cases ht : t = k.current
    · have hk : k.kstacks t = [a] := by
        rw [ht]
        exact hstack
      rw [hk]
      refine ⟨.inr ⟨a, rfl, hentry⟩, fun b hb => ?_⟩
      rw [mem_singleton.mp hb]
      exact hout
    · exact h.parked t ht
  exact ⟨fun t' _ => hall t', .outside (hall t).1 (hall t).2⟩

/-- Every event keeps this, if calls into lwIP that no handler makes are made with interrupts disabled. -/
theorem Separate.step (h : k.Separate) (e : NetEvent) (hok : k.Masked e) : (k.step e).Separate := by
  cases e with
  | e1000Init =>
    dsimp only [NetCpu.step]
    split_ifs
    · exact ⟨h.parked, h.running⟩
    · exact h
  | lwipStackInit =>
    dsimp only [NetCpu.step]
    split_ifs with hinit
    · obtain ⟨a, ha, -⟩ := (Option.any_eq_true _ _).mp hinit.2
      exact ⟨h.parked, h.shaped_base ha k.flag true⟩
    · exact h
  | int80 =>
    dsimp only [NetCpu.step]
    split_ifs with hk
    · exact h.enterKernel hk (by simp) true
    · exact h
  | syscallOpcode =>
    dsimp only [NetCpu.step]
    split_ifs with hk
    · exact h.enterKernel hk (by simp) true
    · exact h
  | fault vector =>
    dsimp only [NetCpu.step]
    split_ifs with hk
    · exact h.enterKernel hk.1 (by simp) _
    · exact h
  | timer frames =>
    dsimp only [NetCpu.step]
    split_ifs with hflag
    · refine h.interrupt hflag ((by decide : 0 < 16)) fun hne => ?_
      by_contra hready
      exact hne (timerHandler_nil.mpr (by simpa using hready))
    · exact h
  | network line icr frames =>
    dsimp only [NetCpu.step]
    split_ifs with hflag
    · exact h.interrupt hflag.1 hflag.2 e1000IrqHandler_ready
    · exact h
  | device line =>
    dsimp only [NetCpu.step]
    split_ifs with hflag
    · exact h.interrupt hflag.1 hflag.2 fun hne => absurd rfl hne
    · exact h
  | enter =>
    dsimp only [NetCpu.step]
    split
    · rename_i a l hl
      split_ifs with ha
      · exact h.enter hl ha hok
      · exact h
    · exact h
  | leave =>
    dsimp only [NetCpu.step]
    split
    · rename_i a l hl
      exact h.leave hl
    · exact h
  | iret =>
    dsimp only [NetCpu.step]
    split
    · rename_i a l hl
      split_ifs
      · exact h
      · exact h.iret hl
    · exact h
  | wait =>
    dsimp only [NetCpu.step]
    split_ifs with hb
    · obtain ⟨a, ha⟩ := Option.isSome_iff_exists.mp hb
      exact ⟨h.parked, h.shaped_base ha true k.ready⟩
    · exact h
  | switch t =>
    dsimp only [NetCpu.step]
    split_ifs with hb
    · obtain ⟨a, ha⟩ := Option.isSome_iff_exists.mp hb
      exact h.switch ha t _
    · exact h

theorem Separate.follows (h : k.Separate) (e : NetEvent) : k.Follows e := by
  cases e with
  | enter =>
    intro a l hl ha t b hb
    by_cases ht : t = k.current
    swap
    · exact (h.parked t ht).2 b hb
    have hk : k.kstacks t = a :: l := by
      rw [ht]
      exact hl
    have hout : a.inside = false := by
      unfold Activation.canEnter at ha
      simp at ha
      exact ha.1
    rw [hk] at hb
    rcases h.running with ⟨hplain, -⟩ | ⟨h', rest, heq, hirq, -, -, hrest, hcalls⟩
    · rw [hl] at hplain
      rw [hplain.tail.1] at hb
      rw [mem_singleton.mp hb]
      exact hout
    rw [hl] at heq
    obtain ⟨rfl, rfl⟩ := cons.inj heq
    rcases mem_cons.mp hb with rfl | hb
    · exact hout
    · exact hrest (hcalls (.inr (Activation.canEnter_irq hirq ha))) b hb
  | _ => trivial

theorem boot_separate : Separate {} where
  parked := by
    intro t ht
    have hnil : (({} : NetCpu).kstacks t) = [] := if_neg ht
    rw [hnil]
    exact ⟨.inl rfl, fun a ha => absurd ha not_mem_nil⟩
  running := by
    refine .outside (.inr ⟨_, rfl, by simp⟩) fun a ha => ?_
    rw [mem_singleton.mp ha]

/-- A handler that has calls to make and interrupts lwIP enters it a second time. -/
theorem trap_reenters {vector : ℕ} {todo : List NetCall} (htodo : todo ≠ []) (hin : ¬ k.Outside) :
    ¬ (k.trap vector .irq todo).Follows .enter := by
  intro hfollows
  have hstack : (k.trap vector .irq todo).stack = { entry := .irq, saved := k.flag, todo := todo } :: k.stack :=
    update_self _ _ _
  have hcan : Activation.canEnter { entry := .irq, saved := k.flag, todo := todo } = true := by
    unfold Activation.canEnter
    simp [htodo]
  have halone := hfollows _ _ hstack hcan
  apply hin
  intro a ha
  refine halone k.current a ?_
  change a ∈ (k.trap vector .irq todo).stack
  rw [hstack]
  exact mem_cons_of_mem _ ha

theorem tick_reenters (hflag : k.flag = true) (hready : k.ready = true) (hin : ¬ k.Outside) :
    ¬ (k.step (.timer [])).Follows .enter := by
  dsimp only [step]
  rw [if_pos hflag]
  refine trap_reenters (fun hnil => ?_) hin
  rw [timerHandler_nil.mp hnil] at hready
  simp at hready

/-- A tick that comes right after a call with interrupts enabled enters lwIP a second time. -/
theorem not_masked_reenters {e : NetEvent} (he : ¬ k.Masked e) : ¬ Meets step Follows k [e, .timer [], .enter] := by
  cases e with
  | enter =>
    intro hmeets
    apply he
    intro a l hl ha hentry hready
    by_contra hflag
    have hflag : k.flag = true := by simpa using hflag
    have hstep : k.step .enter = k.setStack ({ a with todo := a.todo.tail, inside := true } :: l) := by
      dsimp only [step]
      rw [hl]
      exact if_pos ha
    have hin : ¬ (k.step .enter).Outside := by
      intro hout
      rw [hstep] at hout
      have hfirst := hout { a with todo := a.todo.tail, inside := true } (by simp)
      simp at hfirst
    refine tick_reenters ?_ ?_ hin hmeets.2.2.1
    · rw [hstep]
      exact hflag
    · rw [hstep]
      exact hready
  | _ => exact absurd trivial he

/-- In every run in which calls into a ready stack that no handler makes are made with interrupts disabled,
wherever its interrupts come, lwIP is entered by one activation at a time. After any other call a tick
enters it a second time. -/
theorem entered_alone (es : List NetEvent) (hes : Meets step Masked {} es) :
    Meets step Follows {} es ∧
      ∀ e, ¬ (run step {} es).Masked e → ¬ Meets step Follows {} (es ++ [e, .timer [], .enter]) := by
  have hstep : ∀ (k : NetCpu) e, k.Separate → k.Masked e → (k.step e).Separate := fun _ e h hok => h.step e hok
  have hout : ∀ (k : NetCpu) e, k.Separate → k.Masked e → k.Follows e := fun _ e h _ => h.follows e
  refine ⟨meets_of_invariant hstep hout boot_separate hes, fun e he hmeets => ?_⟩
  exact not_masked_reenters he (meets_append.mp hmeets).2

/-- `kmain` calls lwIP before the stack is ready, a tick comes inside of the call, and later ticks poll the
stack between the instructions of a system call. -/
def bootAndTicks : List NetEvent :=
  [.e1000Init, .enter, .timer [60], .iret, .leave, .lwipStackInit, .switch 1, .int80, .timer [60], .enter, .leave,
    .enter, .leave, .iret, .iret]

theorem bootAndTicks_alone : Meets step Masked {} bootAndTicks ∧ Meets step Follows {} bootAndTicks := by
  have hes : Meets step Masked {} bootAndTicks := by
    refine ⟨trivial, fun _ _ _ _ _ hready => ?_, trivial, trivial, trivial, trivial, trivial, trivial, trivial,
      fun _ _ _ _ _ _ => rfl, trivial, fun _ _ _ _ _ _ => rfl, trivial, trivial, trivial, trivial⟩
    exact absurd hready (by decide)
  exact ⟨hes, (entered_alone bootAndTicks hes).1⟩

def sending : List NetEvent := [.e1000Init, .lwipStackInit, .switch 1, .int80]

/-- The trap gate and `sti` leave interrupts enabled, and a tick polls the stack inside `tcp_write`. -/
theorem tick_during_send : ¬ ∀ es : List NetEvent, Meets step Follows {} es := by
  intro h
  have hmasked : ¬ (run step {} sending).Masked .enter := by
    intro hmasked
    have hoff := hmasked { entry := .syscall } [] (by decide) (by decide) (by decide) (by decide)
    exact absurd hoff (by decide)
  exact not_masked_reenters hmasked (meets_append.mp (h (sending ++ [.enter, .timer [], .enter]))).2

end NetCpu

end Entry

end EdgeOS
