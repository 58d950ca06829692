import EdgeOS.DescriptorCalls
import EdgeOS.Lib.Runs
import EdgeOS.SocketTransfer
import EdgeOS.Task

namespace EdgeOS

open Lib Function List Objects
open Bool (noConfusion)

/-!
Unix stream sockets as a system: tasks make pairs, send, receive, share and close ends in any
order. A send that finds too little room delivers what fits and waits in the middle of its loop,
where other tasks and signals come between.
-/

/-- A send inside its loop, with `off` bytes delivered. -/
structure SendCall where
  sock : ℕ
  buf : UserBuf
  off : ℕ := 0

def SendCall.left (c : SendCall) : SendOutcome → Option SendCall
  | .ret _ => none
  | .wait off => some { c with off := off }

def SendCall.reported (c : SendCall) : SendOutcome → List UInt8
  | .ret (.ok n) => c.buf.data.take n
  | _ => []

/-- The sockets and their receive buffers. `blocked` are the sends that wait, by task slot. `sent`
and `received` are not in the source: what the sends towards a socket have returned, as bytes, in
the order in which they returned, and what the receives on it have returned. -/
structure UnixKernel where
  objs : Objects := {}
  rx : ℕ → List UInt8 := fun _ => []
  blocked : Fin procMaxTasks → Option SendCall := fun _ => none
  sent : ℕ → List UInt8 := fun _ => []
  received : ℕ → List UInt8 := fun _ => []

/-- What can happen. `socket` makes a socket that is no pair; `addRef` and `dropRef` stand for a
copied and a closed descriptor; a receive that waited is a later event; `killed` takes a task that
waits out of its call. -/
inductive UnixEvent
  | pair (nonblock : Bool)
  | socket (domain type protocol : ℤ) (nonblock : Bool)
  | addRef (i : ℕ)
  | dropRef (i : ℕ)
  | send (t : Fin procMaxTasks) (i : ℕ) (buf : UserBuf) (nonblock interrupted : Bool)
  | resume (t : Fin procMaxTasks) (nonblock interrupted : Bool)
  | recv (i : ℕ) (buf : ReadBuf) (env : RecvEnv)
  | killed (t : Fin procMaxTasks)

/-- The part of `do_sys_socketpair` that makes the two ends. -/
def pairSockets (o : Objects) (nonblock : Bool) : Objects :=
  match socketAlloc o [] with
  | (_, none) => o
  | (o, some sid0) =>
    match socketAlloc o [] with
    | (_, none) => o.setSocket sid0 {}
    | (o, some sid1) =>
      let o := o.setSocket sid0 (pairedSocket (o.sockets sid0) sid1 nonblock)
      o.setSocket sid1 (pairedSocket (o.sockets sid1) sid0 nonblock)

/-- The part of `do_sys_socket` that makes the socket. -/
def plainSocket (o : Objects) (domain type protocol : ℤ) (nonblock : Bool) : Objects :=
  match socketAlloc o [] with
  | (_, none) => o
  | (o, some sid) => o.setSocket sid { o.sockets sid with
      domain := domain, type := type, protocol := protocol, nonblock := nonblock
      hasPcb := needsPcb domain type protocol, unixPeerId := -1 }

/-- Is the socket one that the two calls serve as a Unix stream? -/
def Socket.unixStream (s : Socket) : Bool := s.used ∧ s.domain = linuxAfUnix ∧ s.type = linuxSockStream

namespace UnixKernel

variable (k : UnixKernel)

def setObjs (o : Objects) : UnixKernel :=
  let kept (i : ℕ) : Bool := (k.objs.sockets i).used ∧ (o.sockets i).used
  { k with
    objs := o
    rx := fun i => if kept i then k.rx i else []
    sent := fun i => if kept i then k.sent i else []
    received := fun i => if kept i then k.received i else [] }

def peer (c : SendCall) : Option ℕ := unixPeer k.objs (k.objs.sockets c.sock)

/-- The loop of a send, from where it starts or wakes up to where it returns or waits. -/
def attempt (t : Fin procMaxTasks) (c : SendCall) (nonblock interrupted : Bool) : UnixKernel :=
  let out := sendLoop c.buf (nonblock || (k.objs.sockets c.sock).nonblock) interrupted
    (c.buf.data.length - c.off + 1) ((k.peer c).map k.rx) c.off
  let blocked := Function.update k.blocked t (c.left out.2)
  match k.peer c, out.1 with
  | some j, some rx =>
    { k with
      blocked := blocked
      rx := Function.update k.rx j rx
      sent := Function.update k.sent j (k.sent j ++ c.reported out.2) }
  | _, _ => { k with blocked := blocked }

/-- One event. A task that waits makes no call, and its call keeps its socket open. -/
def step : UnixEvent → UnixKernel
  | .pair nonblock => k.setObjs (pairSockets k.objs nonblock)
  | .socket domain type protocol nonblock => k.setObjs (plainSocket k.objs domain type protocol nonblock)
  | .addRef i => k.setObjs (socketAddRef k.objs i)
  | .dropRef i =>
    if (k.objs.sockets i).refs ≤ 1 ∧ ∃ t, (k.blocked t).any fun c => c.sock = i then k
    else k.setObjs (socketDropRef (fun _ => []) socketDepth k.objs i)
  | .send t i buf nonblock interrupted =>
    if (k.blocked t).isSome ∨ !(k.objs.sockets i).unixStream ∨ buf.null ∨ buf.data = [] then k
    else k.attempt t { sock := i, buf := buf } nonblock interrupted
  | .resume t nonblock interrupted =>
    match k.blocked t with
    | none => k
    | some c => k.attempt t c nonblock interrupted
  | .recv i buf env =>
    if !(k.objs.sockets i).unixStream ∨ buf.null then k
    else
      let out := doSysRecvfrom (k.objs.sockets i) (k.rx i) buf env
      { k with
        rx := Function.update k.rx i out.1
        received := Function.update k.received i (k.received i ++ out.2.value []) }
  | .killed t => { k with blocked := Function.update k.blocked t none }

/-! ## What holds -/

/-- A send that has delivered a part to `j` waits. -/
def InFlight (j : ℕ) (t : Fin procMaxTasks) (c : SendCall) : Prop :=
  k.blocked t = some c ∧ c.off ≠ 0 ∧ (k.objs.sockets c.sock).unixPeerId = j

/-- What was received and what is there is what the sends have returned, and the part of at most
one send that waits. -/
def Channel (j : ℕ) : Prop :=
  k.received j ++ k.rx j = k.sent j ∧ (∀ t c, ¬ k.InFlight j t c) ∨
    ∃ t c, k.InFlight j t c ∧ k.received j ++ k.rx j = k.sent j ++ c.buf.data.take c.off ∧
      ∀ t' c', k.InFlight j t' c' → t' = t

/-- The channels of a state, the bounds of their buffers, and the two ends of each. -/
structure Reliable : Prop where
  channel : ∀ j, (k.objs.sockets j).used = true → k.Channel j
  bound : ∀ j, (k.rx j).length ≤ rxBufSize
  symmetric : ∀ i j : ℕ, (k.objs.sockets i).used = true → (k.objs.sockets j).used = true →
    (k.objs.sockets i).unixPeerId = j → (k.objs.sockets j).unixPeerId = i

/-- A receive that returns 0 has all that was sent before it, and the other end is closed. -/
def EndOfStream (e : UnixEvent) : Prop :=
  match e with
  | .recv i buf env => (k.objs.sockets i).unixStream = true → buf.null = false →
    (doSysRecvfrom (k.objs.sockets i) (k.rx i) buf env).2 = .ret (.ok []) →
    k.received i = k.sent i ∧ (k.objs.sockets i).unixPeerId = -1
  | _ => True

/-- An attempt of a send does not end with an error after a part was delivered. -/
def NotCut (c : SendCall) (nonblock interrupted : Bool) : Prop :=
  match k.peer c with
  | none => c.off = 0
  | some j =>
    let room := rxBufSize - (k.rx j).length
    let n := min (c.buf.data.length - c.off) room
    if room = 0 then c.off = 0 ∨ nonblock = true ∨ interrupted = false
    else if copyPieces c.buf c.off n n 0 = false then c.off = 0
    else c.off + n = c.buf.data.length ∨ nonblock = true ∨ interrupted = false

def Alone (t : Fin procMaxTasks) (c : SendCall) : Prop :=
  ∀ j, k.peer c = some j → (k.rx j).length < rxBufSize → ∀ t' c', k.InFlight j t' c' → t' = t

/-- No send is cut after a part was delivered, none delivers between the parts of another, and a
receive asks for at least one byte. -/
def Uncut (e : UnixEvent) : Prop :=
  match e with
  | .send t i buf nonblock interrupted =>
    let c : SendCall := { sock := i, buf := buf }
    k.NotCut c (nonblock || (k.objs.sockets i).nonblock) interrupted ∧ k.Alone t c
  | .resume t nonblock interrupted => ∀ c, k.blocked t = some c →
    k.NotCut c (nonblock || (k.objs.sockets c.sock).nonblock) interrupted ∧ k.Alone t c
  | .killed t => ∀ c, k.blocked t = some c → c.off = 0
  | .recv _ buf _ => buf.len ≠ 0
  | _ => True

end UnixKernel

/-! ## The two ends of a pair -/

/-- A socket in use is alone, or it and another one name each other. -/
structure PairInv (o : Objects) : Prop where
  index : ∀ i, (o.sockets i).used = true → i < edgeMaxSockets
  quiet : ∀ i, (o.sockets i).used = true → (o.sockets i).listening = false
  peer : ∀ i, (o.sockets i).used = true → (o.sockets i).unixPeerId = -1 ∨
    ∃ j : ℕ, (o.sockets i).unixPeerId = j ∧ j ≠ i ∧ (o.sockets j).used = true ∧
      (o.sockets j).unixPeerId = i ∧ (o.sockets i).domain = linuxAfUnix
  closed : ∀ i, (o.sockets i).used = true → (o.sockets i).closed = true → (o.sockets i).unixPeerId = -1

/-- How a step changes sockets that stay: a peer stays, or it is gone. -/
structure PairStep (o o' : Objects) : Prop where
  inv : PairInv o'
  peers : ∀ i, (o.sockets i).used = true → (o'.sockets i).used = true →
    (o'.sockets i).unixPeerId = (o.sockets i).unixPeerId ∨ (o'.sockets i).unixPeerId = -1 ∧
      ∀ j : ℕ, (o.sockets i).unixPeerId = j → (o'.sockets j).used = false

section Pairs

variable {o : Objects} {i : ℕ}

theorem Objects.setSocket_self (o : Objects) (i : ℕ) (x : Socket) : (o.setSocket i x).sockets i = x :=
  update_self _ _ _

theorem Objects.setSocket_of_ne (o : Objects) {i j : ℕ} (x : Socket) (h : j ≠ i) :
    (o.setSocket i x).sockets j = o.sockets j := update_of_ne h _ _

theorem Objects.setSocket_setSocket (o : Objects) (i : ℕ) (x y : Socket) :
    (o.setSocket i x).setSocket i y = o.setSocket i y := by
  unfold setSocket
  rw [update_idem]

theorem PairInv.refl (h : PairInv o) : PairStep o o := ⟨h, fun _ _ _ => .inl rfl⟩

variable {x : Socket}

theorem PairInv.write (h : PairInv o) (hused : x.used = (o.sockets i).used)
    (hlisten : x.listening = (o.sockets i).listening) (hpeer : x.unixPeerId = (o.sockets i).unixPeerId)
    (hdomain : x.domain = (o.sockets i).domain) (hclosed : x.closed = (o.sockets i).closed) :
    PairStep o (o.setSocket i x) := by
  have hfields : ∀ j, ((o.setSocket i x).sockets j).used = (o.sockets j).used ∧
      ((o.setSocket i x).sockets j).listening = (o.sockets j).listening ∧
      ((o.setSocket i x).sockets j).unixPeerId = (o.sockets j).unixPeerId ∧
      ((o.setSocket i x).sockets j).domain = (o.sockets j).domain ∧
      ((o.setSocket i x).sockets j).closed = (o.sockets j).closed := by
    intro j
    by_cases hj : j = i
    · subst hj
      rw [setSocket_self]
      exact ⟨hused, hlisten, hpeer, hdomain, hclosed⟩
    · rw [o.setSocket_of_ne x hj]
      exact ⟨rfl, rfl, rfl, rfl, rfl⟩
  refine ⟨⟨?_, ?_, ?_, ?_⟩, fun j _ _ => .inl (hfields j).2.2.1⟩
  · intro j hj
    rw [(hfields j).1] at hj
    exact h.index j hj
  · intro j hj
    rw [(hfields j).1] at hj
    rw [(hfields j).2.1]
    exact h.quiet j hj
  · intro j hj
    rw [(hfields j).1] at hj
    rw [(hfields j).2.2.1, (hfields j).2.2.2.1]
    rcases h.peer j hj with hnone | ⟨l, hl, hne, hlu, hback, hd⟩
    · exact .inl hnone
    refine .inr ⟨l, hl, hne, ?_, ?_, hd⟩
    · rw [(hfields l).1]
      exact hlu
    · rw [(hfields l).2.2.1]
      exact hback
  · intro j hj hc
    rw [(hfields j).1] at hj
    rw [(hfields j).2.2.2.2] at hc
    rw [(hfields j).2.2.1]
    exact h.closed j hj hc

theorem PairInv.claim (h : PairInv o) (hfree : (o.sockets i).used = false) (hi : i < edgeMaxSockets)
    (hlisten : x.listening = false) (hpeer : x.unixPeerId = -1) :
    PairStep o (o.setSocket i x) := by
  have hold : ∀ j, (o.sockets j).used = true → j ≠ i := by
    rintro j hj rfl
    rw [hfree] at hj
    exact noConfusion hj
  refine ⟨⟨?_, ?_, ?_, ?_⟩, ?_⟩
  · intro j hj
    by_cases heq : j = i
    · rw [heq]
      exact hi
    · rw [o.setSocket_of_ne x heq] at hj
      exact h.index j hj
  · intro j hj
    by_cases heq : j = i
    · rw [heq, setSocket_self]
      exact hlisten
    · rw [o.setSocket_of_ne x heq] at hj ⊢
      exact h.quiet j hj
  · intro j hj
    by_cases heq : j = i
    · rw [heq, setSocket_self]
      exact .inl hpeer
    rw [o.setSocket_of_ne x heq] at hj ⊢
    rcases h.peer j hj with hnone | ⟨l, hl, hne, hlu, hback, hd⟩
    · exact .inl hnone
    · refine .inr ⟨l, hl, hne, ?_, ?_, hd⟩ <;> rwa [o.setSocket_of_ne x (hold l hlu)]
  · intro j hj hc
    by_cases heq : j = i
    · rw [heq, setSocket_self]
      exact hpeer
    · rw [o.setSocket_of_ne x heq] at hj hc ⊢
      exact h.closed j hj hc
  · intro j hj _
    rw [o.setSocket_of_ne x (hold j hj)]
    exact .inl rfl

/-- A slot that is not in use may hold anything that is not in use. -/
theorem PairInv.unused (h : PairInv o) (hfree : (o.sockets i).used = false) (hx : x.used = false) :
    PairStep o (o.setSocket i x) := by
  have hkeep : ∀ j, ((o.setSocket i x).sockets j).used = true → j ≠ i ∧ (o.setSocket i x).sockets j = o.sockets j := by
    intro j hj
    have hne : j ≠ i := by
      rintro rfl
      rw [setSocket_self, hx] at hj
      exact noConfusion hj
    exact ⟨hne, o.setSocket_of_ne x hne⟩
  have hold : ∀ j, (o.sockets j).used = true → (o.setSocket i x).sockets j = o.sockets j := by
    intro j hj
    apply o.setSocket_of_ne x
    rintro rfl
    rw [hfree] at hj
    exact noConfusion hj
  refine ⟨⟨?_, ?_, ?_, ?_⟩, ?_⟩
  · intro j hj
    have hsame := (hkeep j hj).2
    rw [hsame] at hj
    exact h.index j hj
  · intro j hj
    have hsame := (hkeep j hj).2
    rw [hsame] at hj ⊢
    exact h.quiet j hj
  · intro j hj
    have hsame := (hkeep j hj).2
    rw [hsame] at hj ⊢
    rcases h.peer j hj with hnone | ⟨l, hl, hne, hlu, hback, hd⟩
    · exact .inl hnone
    · refine .inr ⟨l, hl, hne, ?_, ?_, hd⟩ <;> rwa [hold l hlu]
  · intro j hj hc
    have hsame := (hkeep j hj).2
    rw [hsame] at hj hc ⊢
    exact h.closed j hj hc
  · intro j hj _
    rw [hold j hj]
    exact .inl rfl

theorem PairInv.paired (h : PairInv o) {a b : ℕ} (hab : a ≠ b) (ha : (o.sockets a).used = false)
    (hb : (o.sockets b).used = false) (hai : a < edgeMaxSockets) (hbi : b < edgeMaxSockets) {y : Socket}
    (hx : x.used = true ∧ x.listening = false ∧ x.closed = false ∧ x.unixPeerId = b ∧ x.domain = linuxAfUnix)
    (hy : y.used = true ∧ y.listening = false ∧ y.closed = false ∧ y.unixPeerId = a ∧ y.domain = linuxAfUnix) :
    PairStep o ((o.setSocket a x).setSocket b y) := by
  have hsa : ((o.setSocket a x).setSocket b y).sockets a = x := by
    rw [setSocket_of_ne _ _ hab, setSocket_self]
  have hsb : ((o.setSocket a x).setSocket b y).sockets b = y := setSocket_self _ _ _
  have hother : ∀ j, j ≠ a → j ≠ b → ((o.setSocket a x).setSocket b y).sockets j = o.sockets j := by
    intro j hja hjb
    rw [setSocket_of_ne _ _ hjb, setSocket_of_ne _ _ hja]
  have hold : ∀ j, (o.sockets j).used = true → j ≠ a ∧ j ≠ b := by
    intro j hj
    constructor
    · rintro rfl
      rw [ha] at hj
      exact noConfusion hj
    · rintro rfl
      rw [hb] at hj
      exact noConfusion hj
  refine ⟨⟨?_, ?_, ?_, ?_⟩, ?_⟩
  · intro j hj
    by_cases hja : j = a
    · rw [hja]
      exact hai
    by_cases hjb : j = b
    · rw [hjb]
      exact hbi
    rw [hother j hja hjb] at hj
    exact h.index j hj
  · intro j hj
    by_cases hja : j = a
    · rw [hja, hsa]
      exact hx.2.1
    by_cases hjb : j = b
    · rw [hjb, hsb]
      exact hy.2.1
    rw [hother j hja hjb] at hj ⊢
    exact h.quiet j hj
  · intro j hj
    by_cases hja : j = a
    · subst hja
      rw [hsa]
      exact .inr ⟨b, hx.2.2.2.1, hab.symm, by rw [hsb]; exact hy.1, by rw [hsb]; exact hy.2.2.2.1, hx.2.2.2.2⟩
    by_cases hjb : j = b
    · subst hjb
      rw [hsb]
      exact .inr ⟨a, hy.2.2.2.1, hab, by rw [hsa]; exact hx.1, by rw [hsa]; exact hx.2.2.2.1, hy.2.2.2.2⟩
    rw [hother j hja hjb] at hj ⊢
    rcases h.peer j hj with hnone | ⟨l, hl, hne, hlu, hback, hd⟩
    · exact .inl hnone
    · obtain ⟨hla, hlb⟩ := hold l hlu
      refine .inr ⟨l, hl, hne, ?_, ?_, hd⟩ <;> rwa [hother l hla hlb]
  · intro j hj hc
    by_cases hja : j = a
    · rw [hja, hsa, hx.2.2.1] at hc
      exact noConfusion hc
    by_cases hjb : j = b
    · rw [hjb, hsb, hy.2.2.1] at hc
      exact noConfusion hc
    rw [hother j hja hjb] at hj hc ⊢
    exact h.closed j hj hc
  · intro j hj _
    obtain ⟨hja, hjb⟩ := hold j hj
    rw [hother j hja hjb]
    exact .inl rfl

theorem unixPeerClosed_eq (h : PairInv o) (hu : (o.sockets i).used = true) :
    unixPeerClosed o i = o ∧ (o.sockets i).unixPeerId = -1 ∨
      ∃ j : ℕ, (o.sockets i).unixPeerId = j ∧ j ≠ i ∧ (o.sockets j).used = true ∧ (o.sockets j).unixPeerId = i ∧
        unixPeerClosed o i = o.setSocket j { o.sockets j with closed := true, unixPeerId := -1 } := by
  rcases h.peer i hu with hnone | ⟨j, hj, hne, hju, hback, hd⟩
  · left
    refine ⟨?_, hnone⟩
    have hindex : tableIndex edgeMaxSockets (-1) = none := rfl
    unfold unixPeerClosed
    rw [hnone, hindex]
    split <;> rfl
  right
  refine ⟨j, hj, hne, hju, hback, ?_⟩
  unfold unixPeerClosed
  rw [if_pos hd, hj, tableIndex_cast (h.index j hju)]
  dsimp only
  rw [if_pos hju]

/-- The end of a socket without another end. -/
theorem PairInv.dropAlone (h : PairInv o) (hnone : (o.sockets i).unixPeerId = -1) :
    PairStep o (o.setSocket i {}) := by
  -- nobody names this socket
  have hunnamed : ∀ l, (o.sockets l).used = true → (o.sockets l).unixPeerId ≠ i := by
    intro l hl hname
    rcases h.peer l hl with hone | ⟨m, hm, -, -, hmback, -⟩
    · omega
    · obtain rfl : m = i := by omega
      omega
  have hkeep : ∀ l, ((o.setSocket i {}).sockets l).used = true →
      l ≠ i ∧ (o.setSocket i {}).sockets l = o.sockets l := by
    intro l hl
    have hli : l ≠ i := by
      rintro rfl
      rw [setSocket_self] at hl
      exact noConfusion hl
    exact ⟨hli, o.setSocket_of_ne _ hli⟩
  refine ⟨⟨?_, ?_, ?_, ?_⟩, ?_⟩
  · intro l hl
    rw [(hkeep l hl).2] at hl
    exact h.index l hl
  · intro l hl
    have hsame := (hkeep l hl).2
    rw [hsame] at hl ⊢
    exact h.quiet l hl
  · intro l hl
    have hsame := (hkeep l hl).2
    rw [hsame] at hl ⊢
    rcases h.peer l hl with hone | ⟨m, hm, hml, hmu, hmback, hd⟩
    · exact .inl hone
    have hmi : m ≠ i := by
      rintro rfl
      exact hunnamed l hl hm
    refine .inr ⟨m, hm, hml, ?_, ?_, hd⟩ <;> rwa [o.setSocket_of_ne _ hmi]
  · intro l hl hc
    have hsame := (hkeep l hl).2
    rw [hsame] at hl hc ⊢
    exact h.closed l hl hc
  · intro l _ hl
    rw [(hkeep l hl).2]
    exact .inl rfl

/-- The end of a socket whose other end stays open. -/
theorem PairInv.dropEnd {j : ℕ} (h : PairInv o) (hj : (o.sockets i).unixPeerId = j) (hne : j ≠ i)
    (hju : (o.sockets j).used = true) (hback : (o.sockets j).unixPeerId = i) :
    PairStep o ((o.setSocket j { o.sockets j with closed := true, unixPeerId := -1 }).setSocket i {}) := by
  have hsj : ((o.setSocket j { o.sockets j with closed := true, unixPeerId := -1 }).setSocket i {}).sockets j =
      { o.sockets j with closed := true, unixPeerId := -1 } := by
    rw [setSocket_of_ne _ _ hne, setSocket_self]
  have hsi : ((o.setSocket j { o.sockets j with closed := true, unixPeerId := -1 }).setSocket i {}).sockets i =
      {} := setSocket_self _ _ _
  have hkeep : ∀ l, l ≠ i → l ≠ j →
      ((o.setSocket j { o.sockets j with closed := true, unixPeerId := -1 }).setSocket i {}).sockets l =
        o.sockets l := by
    intro l hli hlj
    rw [setSocket_of_ne _ _ hli, setSocket_of_ne _ _ hlj]
  generalize (o.setSocket j { o.sockets j with closed := true, unixPeerId := -1 }).setSocket i {} = o'
    at hsj hsi hkeep
  have hni : ∀ l, (o'.sockets l).used = true → l ≠ i := by
    rintro l hl rfl
    rw [hsi] at hl
    exact noConfusion hl
  refine ⟨⟨?_, ?_, ?_, ?_⟩, ?_⟩
  · intro l hl
    by_cases hlj : l = j
    · rw [hlj]
      exact h.index j hju
    rw [hkeep l (hni l hl) hlj] at hl
    exact h.index l hl
  · intro l hl
    by_cases hlj : l = j
    · rw [hlj, hsj]
      exact h.quiet j hju
    have hsame := hkeep l (hni l hl) hlj
    rw [hsame] at hl ⊢
    exact h.quiet l hl
  · intro l hl
    by_cases hlj : l = j
    · rw [hlj, hsj]
      exact .inl rfl
    have hli := hni l hl
    have hsame := hkeep l hli hlj
    rw [hsame] at hl ⊢
    rcases h.peer l hl with hone | ⟨m, hm, hml, hmu, hmback, hd⟩
    · exact .inl hone
    -- the other end of `l` is neither of the two
    have hmi : m ≠ i := by
      rintro rfl
      omega
    have hmj : m ≠ j := by
      rintro rfl
      omega
    refine .inr ⟨m, hm, hml, ?_, ?_, hd⟩ <;> rwa [hkeep m hmi hmj]
  · intro l hl hc
    by_cases hlj : l = j
    · rw [hlj, hsj]
    have hsame := hkeep l (hni l hl) hlj
    rw [hsame] at hl hc ⊢
    exact h.closed l hl hc
  · intro l _ hl
    by_cases hlj : l = j
    · right
      rw [hlj, hsj]
      refine ⟨rfl, fun m hm => ?_⟩
      obtain rfl : m = i := by omega
      rw [hsi]
    · rw [hkeep l (hni l hl) hlj]
      exact .inl rfl

theorem PairInv.finalDrop (h : PairInv o) (hu : (o.sockets i).used = true) : PairStep o (socketFinalDrop o i) := by
  unfold socketFinalDrop
  rcases unixPeerClosed_eq h hu with ⟨hsame, hnone⟩ | ⟨j, hj, hne, hju, hback, hclosed⟩
  · rw [hsame]
    exact h.dropAlone hnone
  · rw [hclosed]
    exact h.dropEnd hj hne hju hback

theorem PairInv.dropRef (h : PairInv o) (i : ℕ) : PairStep o (socketDropRef (fun _ => []) socketDepth o i) := by
  change PairStep o (socketDropRef (fun _ => []) (31 + 1) o i)
  unfold socketDropRef
  split
  · exact h.refl
  rename_i l hl
  obtain ⟨heq, -⟩ := tableIndex_some hl
  obtain rfl : i = l := by exact_mod_cast heq
  split
  · exact h.refl
  rename_i hu
  have hu : (o.sockets i).used = true := by simpa using hu
  split
  · exact h.write rfl rfl rfl rfl rfl
  dsimp only
  rw [h.quiet i hu, if_neg (by simp)]
  exact h.finalDrop hu

theorem PairInv.addRef (h : PairInv o) (i : ℕ) : PairStep o (socketAddRef o i) := by
  unfold socketAddRef
  split
  · exact h.refl
  split
  · exact h.refl
  · exact h.write rfl rfl rfl rfl rfl

theorem socketAlloc_quiet (o : Objects) :
    socketAlloc o [] = (o, none) ∨ ∃ i, (o.sockets i).used = false ∧ i < edgeMaxSockets ∧
      socketAlloc o [] = (o.setSocket i { used := true, refs := 1 }, some i) := by
  unfold socketAlloc
  cases hf : socketFree o with
  | none => exact .inl rfl
  | some i =>
    obtain ⟨hu, hi⟩ := firstFree_some hf
    exact .inr ⟨i, hu, hi, rfl⟩

theorem PairInv.plainSocket (h : PairInv o) (domain type protocol : ℤ) (nonblock : Bool) :
    PairStep o (EdgeOS.plainSocket o domain type protocol nonblock) := by
  unfold EdgeOS.plainSocket
  rcases socketAlloc_quiet o with hnone | ⟨i, hfree, hi, hsome⟩
  · rw [hnone]
    exact h.refl
  rw [hsome]
  dsimp only
  rw [setSocket_setSocket, setSocket_self]
  exact h.claim hfree hi rfl rfl

theorem PairInv.pairSockets (h : PairInv o) (nonblock : Bool) : PairStep o (EdgeOS.pairSockets o nonblock) := by
  unfold EdgeOS.pairSockets
  rcases socketAlloc_quiet o with hnone | ⟨a, ha, hai, hsome⟩
  · rw [hnone]
    exact h.refl
  rw [hsome]
  dsimp only
  rcases socketAlloc_quiet (o.setSocket a { used := true, refs := 1 }) with hnone | ⟨b, hb, hbi, hsome⟩
  · rw [hnone]
    dsimp only
    rw [setSocket_setSocket]
    exact h.unused ha rfl
  rw [hsome]
  dsimp only
  have hab : a ≠ b := by
    rintro rfl
    rw [setSocket_self] at hb
    exact noConfusion hb
  rw [setSocket_of_ne _ _ hab.symm] at hb
  have hcomm : ∀ (o : Objects) (x y z w : Socket), (((o.setSocket a x).setSocket b y).setSocket a z).setSocket b w =
      (o.setSocket a z).setSocket b w := by
    intro o x y z w
    unfold setSocket
    dsimp only
    rw [update_comm hab.symm, update_idem, update_idem]
  rw [hcomm]
  have hsa : ((o.setSocket a { used := true, refs := 1 }).setSocket b { used := true, refs := 1 }).sockets a =
      { used := true, refs := 1 } := by
    rw [setSocket_of_ne _ _ hab, setSocket_self]
  rw [hsa, setSocket_of_ne _ _ hab.symm, setSocket_self]
  exact h.paired hab ha hb hai hbi ⟨rfl, rfl, rfl, rfl, rfl⟩ ⟨rfl, rfl, rfl, rfl, rfl⟩

/-! Sockets in use stay in use, but for the one that loses its last reference. -/

theorem keepsUsed_setSocket (hx : (o.sockets i).used = true → x.used = true) (j : ℕ)
    (hj : (o.sockets j).used = true) : ((o.setSocket i x).sockets j).used = true := by
  by_cases heq : j = i
  · subst heq
    rw [setSocket_self]
    exact hx hj
  · rw [o.setSocket_of_ne x heq]
    exact hj

theorem keepsUsed_addRef (i j : ℕ) (hj : (o.sockets j).used = true) : ((socketAddRef o i).sockets j).used = true := by
  unfold socketAddRef
  split
  · exact hj
  split
  · exact hj
  · refine keepsUsed_setSocket (fun hu => ?_) j hj
    exact hu

theorem keepsUsed_plainSocket (domain type protocol : ℤ) (nonblock : Bool) (j : ℕ)
    (hj : (o.sockets j).used = true) : ((plainSocket o domain type protocol nonblock).sockets j).used = true := by
  unfold plainSocket
  rcases socketAlloc_quiet o with hnone | ⟨a, -, -, hsome⟩
  · rw [hnone]
    exact hj
  rw [hsome]
  dsimp only
  rw [setSocket_setSocket, setSocket_self]
  refine keepsUsed_setSocket (fun _ => ?_) j hj
  rfl

theorem keepsUsed_pairSockets (nonblock : Bool) (j : ℕ) (hj : (o.sockets j).used = true) :
    ((pairSockets o nonblock).sockets j).used = true := by
  unfold pairSockets
  rcases socketAlloc_quiet o with hnone | ⟨a, ha, -, hsome⟩
  · rw [hnone]
    exact hj
  rw [hsome]
  dsimp only
  have hclaimed : ((o.setSocket a { used := true, refs := 1 }).sockets j).used = true :=
    keepsUsed_setSocket (fun _ => rfl) j hj
  rcases socketAlloc_quiet (o.setSocket a { used := true, refs := 1 }) with hnone | ⟨b, -, -, hsome⟩
  · rw [hnone]
    dsimp only
    rw [setSocket_setSocket]
    refine keepsUsed_setSocket (fun hu => ?_) j hj
    rw [ha] at hu
    exact noConfusion hu
  rw [hsome]
  dsimp only
  have hclaimed : (((o.setSocket a { used := true, refs := 1 }).setSocket b
      { used := true, refs := 1 }).sockets j).used = true := keepsUsed_setSocket (fun _ => rfl) j hclaimed
  refine keepsUsed_setSocket (fun hu => ?_) j (keepsUsed_setSocket (fun hu => ?_) j hclaimed)
  · exact hu
  · exact hu

theorem keepsUsed_dropRef (h : PairInv o) (j : ℕ) (hj : (o.sockets j).used = true)
    (hkeep : j = i → 1 < (o.sockets i).refs) :
    ((socketDropRef (fun _ => []) socketDepth o i).sockets j).used = true := by
  change ((socketDropRef (fun _ => []) (31 + 1) o i).sockets j).used = true
  unfold socketDropRef
  split
  · exact hj
  rename_i l hl
  obtain ⟨heq, -⟩ := tableIndex_some hl
  obtain rfl : i = l := by exact_mod_cast heq
  split
  · exact hj
  rename_i hu
  have hu : (o.sockets i).used = true := by simpa using hu
  split
  · refine keepsUsed_setSocket (fun hu => ?_) j hj
    exact hu
  rename_i hrefs
  have hji : j ≠ i := fun heq => hrefs (hkeep heq)
  dsimp only
  rw [h.quiet i hu, if_neg (by simp)]
  unfold socketFinalDrop
  rw [setSocket_of_ne _ _ hji]
  rcases unixPeerClosed_eq h hu with ⟨hsame, -⟩ | ⟨m, -, -, -, -, hclosed⟩
  · rw [hsame]
    exact hj
  rw [hclosed]
  refine keepsUsed_setSocket (fun hu => ?_) j hj
  exact hu

end Pairs

/-! ## One attempt of a send -/

section Send

variable {buf : UserBuf} {nonblock interrupted : Bool} {rx : List UInt8} {off : ℕ}

def stopped (nonblock interrupted : Bool) (off : ℕ) : SendOutcome :=
  if nonblock then .ret (if off = 0 then .error .eagain else .ok off)
  else if interrupted then .ret (.error .eintr)
  else .wait off

theorem sendLoop_full (fuel : ℕ) (hoff : off < buf.data.length) (hroom : rxBufSize - rx.length = 0) :
    sendLoop buf nonblock interrupted (fuel + 1) (some rx) off = (some rx, stopped nonblock interrupted off) := by
  unfold sendLoop stopped
  rw [if_pos hoff]
  dsimp only
  rw [if_pos hroom]
  split
  · rfl
  split <;> rfl

/-- One round delivers what fits; if that is not all, there is no room after it. -/
theorem sendLoop_room (fuel : ℕ) (hoff : off < buf.data.length) (hroom : rxBufSize - rx.length ≠ 0) :
    sendLoop buf nonblock interrupted (fuel + 2) (some rx) off =
      let n := min (buf.data.length - off) (rxBufSize - rx.length)
      if copyPieces buf off n n 0 = false then (some rx, .ret (.error .efault))
      else (some (rx ++ (buf.data.drop off).take n),
        if off + n = buf.data.length then .ret (.ok (off + n)) else stopped nonblock interrupted (off + n)) := by
  rw [sendLoop, if_pos hoff]
  dsimp only
  rw [if_neg hroom]
  cases hcopy : copyPieces buf off (min (buf.data.length - off) (rxBufSize - rx.length))
      (min (buf.data.length - off) (rxBufSize - rx.length)) 0 with
  | false => rfl
  | true =>
    rw [if_neg (by simp), if_neg (by simp)]
    have hlen : ((buf.data.drop off).take (min (buf.data.length - off) (rxBufSize - rx.length))).length =
        min (buf.data.length - off) (rxBufSize - rx.length) := by
      rw [length_take, length_drop]
      omega
    split
    · rename_i hall
      rw [sendLoop, if_neg (by omega)]
    rename_i hpart
    rw [sendLoop_full fuel (by omega)]
    rw [length_append, hlen]
    omega

/-- A send that is not cut delivers `m` bytes more. It waits after them, returns their number with
what went before, or fails with nothing delivered. -/
theorem sendLoop_uncut (hoff : off < buf.data.length) (hrx : rx.length ≤ rxBufSize)
    (hcut : if rxBufSize - rx.length = 0 then off = 0 ∨ nonblock = true ∨ interrupted = false
      else if copyPieces buf off (min (buf.data.length - off) (rxBufSize - rx.length))
          (min (buf.data.length - off) (rxBufSize - rx.length)) 0 = false then off = 0
      else off + min (buf.data.length - off) (rxBufSize - rx.length) = buf.data.length ∨
        nonblock = true ∨ interrupted = false) :
    ∃ m out, sendLoop buf nonblock interrupted (buf.data.length - off + 1) (some rx) off =
        (some (rx ++ (buf.data.drop off).take m), out) ∧
      off + m ≤ buf.data.length ∧ rx.length + m ≤ rxBufSize ∧
      (out = .wait (off + m) ∧ off + m < buf.data.length ∨ out = .ret (.ok (off + m)) ∧ off + m ≠ 0 ∨
        (∃ err, out = .ret (.error err)) ∧ off + m = 0) := by
  have hstopped : ∀ n, off ≤ n → n < buf.data.length → n = 0 ∨ nonblock = true ∨ interrupted = false →
      stopped nonblock interrupted n = .wait n ∧ n < buf.data.length ∨
        stopped nonblock interrupted n = .ret (.ok n) ∧ n ≠ 0 ∨
        (∃ err, stopped nonblock interrupted n = .ret (.error err)) ∧ n = 0 := by
    intro n _ hn hcase
    unfold stopped
    cases nonblock with
    | true =>
      by_cases h0 : n = 0
      · rw [if_pos rfl, if_pos h0]
        exact .inr (.inr ⟨⟨_, rfl⟩, h0⟩)
      · rw [if_pos rfl, if_neg h0]
        exact .inr (.inl ⟨rfl, h0⟩)
    | false =>
      rw [if_neg (by simp)]
      cases interrupted with
      | true =>
        rw [if_pos rfl]
        exact .inr (.inr ⟨⟨_, rfl⟩, by simpa using hcase⟩)
      | false =>
        rw [if_neg (by simp)]
        exact .inl ⟨rfl, hn⟩
  obtain ⟨fuel, hfuel⟩ : ∃ fuel, buf.data.length - off = fuel + 1 := ⟨buf.data.length - off - 1, by omega⟩
  rw [hfuel]
  by_cases hroom : rxBufSize - rx.length = 0
  · rw [if_pos hroom] at hcut
    rw [sendLoop_full _ hoff hroom]
    refine ⟨0, _, ?_, by omega, by omega, hstopped off le_rfl hoff hcut⟩
    rw [take_zero, append_nil]
  rw [if_neg hroom] at hcut
  rw [← hfuel, show buf.data.length - off + 1 = fuel + 2 by omega, sendLoop_room _ hoff hroom]
  dsimp only
  split
  · rename_i hbad
    rw [if_pos hbad] at hcut
    refine ⟨0, .ret (.error .efault), ?_, by omega, by omega, .inr (.inr ⟨⟨.efault, rfl⟩, hcut⟩)⟩
    rw [take_zero, append_nil]
  rename_i hgood
  rw [if_neg hgood] at hcut
  refine ⟨_, _, rfl, by omega, by omega, ?_⟩
  split
  · rename_i hall
    exact .inr (.inl ⟨rfl, by omega⟩)
  · rename_i hpart
    exact hstopped _ (by omega) (by omega) (.inr (hcut.resolve_left hpart))

end Send

/-- A send that waits, has delivered all it could or has failed, with `m` bytes delivered this time. -/
def SendCall.Delivers (c : SendCall) (m : ℕ) (out : SendOutcome) : Prop :=
  out = .wait (c.off + m) ∧ c.off + m < c.buf.data.length ∨ out = .ret (.ok (c.off + m)) ∧ c.off + m ≠ 0 ∨
    (∃ err, out = .ret (.error err)) ∧ c.off + m = 0

theorem SendCall.Delivers.left {c c' : SendCall} {m : ℕ} {out : SendOutcome} (hend : c.Delivers m out)
    (hc : c.left out = some c') :
    out = .wait (c.off + m) ∧ c' = { c with off := c.off + m } ∧ c.off + m < c.buf.data.length := by
  rcases hend with ⟨rfl, hlt⟩ | ⟨rfl, -⟩ | ⟨⟨err, rfl⟩, -⟩
  · exact ⟨rfl, (Option.some.inj hc).symm, hlt⟩
  · exact absurd hc (by simp [SendCall.left])
  · exact absurd hc (by simp [SendCall.left])

theorem SendCall.Delivers.reported_nil {c : SendCall} {m : ℕ} {out : SendOutcome} (hend : c.Delivers m out)
    (hzero : c.off + m = 0) : c.reported out = [] := by
  rcases hend with ⟨rfl, -⟩ | ⟨rfl, hne⟩ | ⟨⟨err, rfl⟩, -⟩
  · rfl
  · exact absurd hzero hne
  · rfl

/-! ## Steps -/

namespace UnixKernel

variable {k : UnixKernel}

structure ChannelsHold (k : UnixKernel) : Prop where
  pairs : PairInv k.objs
  held : ∀ t c, k.blocked t = some c → (k.objs.sockets c.sock).used = true ∧ c.off < c.buf.data.length
  channel : ∀ j, (k.objs.sockets j).used = true → k.Channel j
  bound : ∀ j, (k.rx j).length ≤ rxBufSize

theorem ChannelsHold.reliable (h : k.ChannelsHold) : k.Reliable := by
  refine ⟨h.channel, h.bound, fun i j hi _ hname => ?_⟩
  rcases h.pairs.peer i hi with hnone | ⟨l, hl, -, -, hback, -⟩
  · omega
  · obtain rfl : l = j := by omega
    exact hback

variable {j : ℕ}

/-- Channels depend on the buffers, the logs and what is in flight. -/
theorem Channel.congr {k' : UnixKernel} (h : k.Channel j) (hrx : k'.rx j = k.rx j)
    (hsent : k'.sent j = k.sent j) (hreceived : k'.received j = k.received j)
    (hflight : ∀ t c, k'.InFlight j t c ↔ k.InFlight j t c) : k'.Channel j := by
  unfold Channel
  rw [hrx, hsent, hreceived]
  simp only [hflight]
  exact h

/-- The socket table changes, and the sends that wait keep their sockets. -/
theorem ChannelsHold.setObjs (h : k.ChannelsHold) {o : Objects} (ho : PairStep k.objs o)
    (hheld : ∀ t c, k.blocked t = some c → (o.sockets c.sock).used = true) : (k.setObjs o).ChannelsHold := by
  have hflight : ∀ j t c, (o.sockets j).used = true → ((k.setObjs o).InFlight j t c ↔ k.InFlight j t c) := by
    intro j t c hj
    constructor
    · rintro ⟨hb, hoff, hname⟩
      have hname : (o.sockets c.sock).unixPeerId = j := hname
      refine ⟨hb, hoff, ?_⟩
      rcases ho.peers c.sock (h.held t c hb).1 (hheld t c hb) with hsame | ⟨hgone, -⟩
      · rw [← hsame]
        exact hname
      · omega
    · rintro ⟨hb, hoff, hname⟩
      refine ⟨hb, hoff, ?_⟩
      change (o.sockets c.sock).unixPeerId = j
      rcases ho.peers c.sock (h.held t c hb).1 (hheld t c hb) with hsame | ⟨-, hdead⟩
      · rw [hsame]
        exact hname
      have := hdead j hname
      rw [hj] at this
      exact noConfusion this
  refine ⟨ho.inv, fun t c hb => ⟨hheld t c hb, (h.held t c hb).2⟩, ?_, ?_⟩
  · intro j hj
    have hj : (o.sockets j).used = true := hj
    by_cases hold : (k.objs.sockets j).used = true
    · have hkept : decide ((k.objs.sockets j).used = true ∧ (o.sockets j).used = true) = true := by
        simp [hold, hj]
      refine (h.channel j hold).congr ?_ ?_ ?_ fun t c => hflight j t c hj
      · exact if_pos hkept
      · exact if_pos hkept
      · exact if_pos hkept
    have hnew : ¬ decide ((k.objs.sockets j).used = true ∧ (o.sockets j).used = true) = true := by
      simp [hold]
    left
    refine ⟨?_, fun t c hf => ?_⟩
    · have hrx : (k.setObjs o).rx j = [] := if_neg hnew
      have hsent : (k.setObjs o).sent j = [] := if_neg hnew
      have hreceived : (k.setObjs o).received j = [] := if_neg hnew
      rw [hrx, hsent, hreceived]
      rfl
    · obtain ⟨hb, -, hname⟩ := (hflight j t c hj).mp hf
      rcases h.pairs.peer c.sock (h.held t c hb).1 with hnone | ⟨l, hl, -, hlu, -, -⟩
      · omega
      · obtain rfl : l = j := by omega
        exact hold hlu
  · intro j
    change (if decide ((k.objs.sockets j).used = true ∧ (o.sockets j).used = true) = true then
      k.rx j else []).length ≤ rxBufSize
    split
    · exact h.bound j
    · exact Nat.zero_le _

variable {c : SendCall}

/-- The peer of a send: the socket its own one names, in use. -/
theorem ChannelsHold.peer_cases (h : k.ChannelsHold) (hu : (k.objs.sockets c.sock).used = true) :
    k.peer c = none ∧ (k.objs.sockets c.sock).unixPeerId = -1 ∨
      ∃ j, k.peer c = some j ∧ (k.objs.sockets c.sock).unixPeerId = j ∧ (k.objs.sockets j).used = true := by
  unfold peer unixPeer
  rcases h.pairs.peer c.sock hu with hnone | ⟨j, hj, -, hju, -, -⟩
  · left
    refine ⟨?_, hnone⟩
    have hindex : tableIndex edgeMaxSockets (-1) = none := rfl
    rw [hnone, hindex]
  right
  refine ⟨j, ?_, hj, hju⟩
  rw [hj, tableIndex_cast (h.pairs.index j hju)]
  dsimp only
  rw [if_pos hju]

variable {t : Fin procMaxTasks} {nonblock interrupted : Bool}

/-- The state after an attempt that has delivered `m` bytes to `j`. -/
theorem attempt_eq {rx : List UInt8} {out : SendOutcome} (hpeer : k.peer c = some j)
    (hout : sendLoop c.buf (nonblock || (k.objs.sockets c.sock).nonblock) interrupted
      (c.buf.data.length - c.off + 1) (some (k.rx j)) c.off = (some rx, out)) :
    k.attempt t c nonblock interrupted = { k with
        blocked := update k.blocked t (c.left out)
        rx := update k.rx j rx
        sent := update k.sent j (k.sent j ++ c.reported out) } := by
  unfold attempt
  simp only [hpeer, Option.map_some, hout]

/-- The state after an attempt that has found no other end. -/
theorem attempt_closed (hpeer : k.peer c = none) (hoff : c.off < c.buf.data.length) :
    k.attempt t c nonblock interrupted = { k with blocked := update k.blocked t none } := by
  unfold attempt
  rw [hpeer]
  dsimp only [Option.map_none]
  have hpipe : sendLoop c.buf (nonblock || (k.objs.sockets c.sock).nonblock) interrupted
      (c.buf.data.length - c.off + 1) none c.off = (none, .ret (.error .epipe)) := by
    unfold sendLoop
    rw [if_pos hoff]
  rw [hpipe]
  rfl

/-- What is in flight to a socket after the call of task `t` has changed. -/
theorem inFlight_update (k : UnixKernel) (t : Fin procMaxTasks) (r : Option SendCall)
    (rx sent : ℕ → List UInt8) (j : ℕ) (t' : Fin procMaxTasks) (c' : SendCall) :
    InFlight { k with blocked := update k.blocked t r, rx := rx, sent := sent } j t' c' ↔
      (t' ≠ t ∧ k.InFlight j t' c') ∨
        (t' = t ∧ r = some c' ∧ c'.off ≠ 0 ∧ (k.objs.sockets c'.sock).unixPeerId = j) := by
  unfold InFlight
  dsimp only
  by_cases ht : t' = t
  · subst ht
    rw [update_self]
    simp
  · rw [update_of_ne ht]
    simp [ht]

/-- A send that starts, or wakes up as it was when it began to wait. -/
def Entered (k : UnixKernel) (t : Fin procMaxTasks) (c : SendCall) : Prop :=
  k.blocked t = none ∧ c.off = 0 ∨ k.blocked t = some c

theorem Entered.inFlight {c' : SendCall} (h : k.Entered t c)
    (hf : k.InFlight j t c') : c' = c ∧ c.off ≠ 0 ∧ (k.objs.sockets c.sock).unixPeerId = j := by
  obtain ⟨hb, hoff, hname⟩ := hf
  rcases h with ⟨hnone, -⟩ | hsome
  · rw [hnone] at hb
    exact absurd hb (by simp)
  rw [hsome] at hb
  obtain rfl := Option.some.inj hb
  exact ⟨rfl, hoff, hname⟩

/-- What the channel of the receiver holds before a step that delivers, or that ends or goes on
with a part delivered. -/
theorem ChannelsHold.before (h : k.ChannelsHold) (henter : k.Entered t c)
    (hname : (k.objs.sockets c.sock).unixPeerId = j) (hju : (k.objs.sockets j).used = true)
    (hsole : c.off ≠ 0 ∨ ∀ t' c', k.InFlight j t' c' → t' = t) :
    k.received j ++ k.rx j = k.sent j ++ c.buf.data.take c.off ∧ ∀ t' c', k.InFlight j t' c' → t' = t := by
  rcases h.channel j hju with ⟨heq, hnone⟩ | ⟨t0, c0, hf, heq, hone⟩
  · refine ⟨?_, fun t' c' hf => absurd hf (hnone t' c')⟩
    have h0 : c.off = 0 := by
      by_contra hoff
      rcases henter with ⟨-, hz⟩ | hsome
      · exact hoff hz
      · exact hnone t c ⟨hsome, hoff, hname⟩
    rw [h0, take_zero, append_nil]
    exact heq
  have ht : t0 = t := by
    rcases hsole with hoff | hall
    · rcases henter with ⟨-, hz⟩ | hsome
      · exact absurd hz hoff
      · exact (hone t c ⟨hsome, hoff, hname⟩).symm
    · exact hall t0 c0 hf
  subst ht
  obtain ⟨rfl, -, -⟩ := henter.inFlight hf
  exact ⟨heq, hone⟩

section Delivery

variable {m : ℕ} {out : SendOutcome} {i : ℕ}

/-- The state after `m` bytes of the send were put into the buffer of socket `j`. -/
def delivered (k : UnixKernel) (t : Fin procMaxTasks) (c : SendCall) (j m : ℕ) (out : SendOutcome) : UnixKernel :=
  { k with
    blocked := update k.blocked t (c.left out)
    rx := update k.rx j (k.rx j ++ (c.buf.data.drop c.off).take m)
    sent := update k.sent j (k.sent j ++ c.reported out) }

/-- A send without another end to its socket is given up. -/
theorem ChannelsHold.giveUp (h : k.ChannelsHold) (henter : k.Entered t c)
    (hname : (k.objs.sockets c.sock).unixPeerId = -1) :
    ChannelsHold { k with blocked := update k.blocked t none } := by
  have hflight : ∀ i t' c', InFlight { k with blocked := update k.blocked t none } i t' c' ↔ k.InFlight i t' c' := by
    intro i t' c'
    refine (inFlight_update k t none _ _ i t' c').trans ?_
    constructor
    · rintro (⟨-, hf⟩ | ⟨-, hno, -⟩)
      · exact hf
      · exact absurd hno (by simp)
    · intro hf
      refine .inl ⟨?_, hf⟩
      rintro rfl
      obtain ⟨rfl, -, hn⟩ := henter.inFlight hf
      omega
  refine ⟨h.pairs, ?_, fun i hi => (h.channel i hi).congr rfl rfl rfl (hflight i), h.bound⟩
  intro t' c' hb
  dsimp only at hb
  by_cases ht : t' = t
  · rw [ht, update_self] at hb
    exact absurd hb (by simp)
  · rw [update_of_ne ht] at hb
    exact h.held t' c' hb

/-- The channels of the other sockets stay as they are. -/
theorem ChannelsHold.elsewhere (h : k.ChannelsHold) (henter : k.Entered t c) (hend : c.Delivers m out)
    (hname : (k.objs.sockets c.sock).unixPeerId = j) (hi : (k.objs.sockets i).used = true) (hij : i ≠ j) :
    (k.delivered t c j m out).Channel i := by
  refine (h.channel i hi).congr (update_of_ne hij _ _) (update_of_ne hij _ _) rfl ?_
  intro t' c'
  refine (inFlight_update k t (c.left out) _ _ i t' c').trans ?_
  constructor
  · rintro (⟨-, hf⟩ | ⟨-, hc, -, hn⟩)
    · exact hf
    · obtain ⟨-, rfl, -⟩ := hend.left hc
      dsimp only at hn
      omega
  · intro hf
    refine .inl ⟨?_, hf⟩
    rintro rfl
    obtain ⟨rfl, -, hn⟩ := henter.inFlight hf
    omega

/-- A send that has delivered nothing, neither before nor now, is not seen by the receiver. -/
theorem ChannelsHold.undelivered (h : k.ChannelsHold) (henter : k.Entered t c) (hend : c.Delivers m out)
    (hju : (k.objs.sockets j).used = true) (hzero : c.off + m = 0) : (k.delivered t c j m out).Channel j := by
  obtain ⟨h0, rfl⟩ : c.off = 0 ∧ m = 0 := by omega
  refine (h.channel j hju).congr ?_ ?_ rfl fun t' c' => ?_
  · unfold delivered
    dsimp only
    rw [update_self, take_zero, append_nil]
  · unfold delivered
    dsimp only
    rw [update_self, hend.reported_nil hzero, append_nil]
  · refine (inFlight_update k t (c.left out) _ _ j t' c').trans ?_
    constructor
    · rintro (⟨-, hf⟩ | ⟨rfl, hc, hoff, -⟩)
      · exact hf
      · obtain ⟨-, rfl, -⟩ := hend.left hc
        exact absurd hzero hoff
    · intro hf
      refine .inl ⟨?_, hf⟩
      rintro rfl
      exact (henter.inFlight hf).2.1 h0

/-- A send that has delivered something is the only one in the channel, and stays in it while it waits. -/
theorem ChannelsHold.delivered_part (h : k.ChannelsHold) (henter : k.Entered t c) (hend : c.Delivers m out)
    (hname : (k.objs.sockets c.sock).unixPeerId = j) (hju : (k.objs.sockets j).used = true)
    (hsole : c.off ≠ 0 ∨ ∀ t' c', k.InFlight j t' c' → t' = t) (hsome : c.off + m ≠ 0) :
    (k.delivered t c j m out).Channel j := by
  have hflight : ∀ t' c', (k.delivered t c j m out).InFlight j t' c' ↔ (t' ≠ t ∧ k.InFlight j t' c') ∨
      (t' = t ∧ c.left out = some c' ∧ c'.off ≠ 0 ∧ (k.objs.sockets c'.sock).unixPeerId = j) :=
    fun t' c' => inFlight_update k t (c.left out) _ _ j t' c'
  obtain ⟨heq, hone⟩ := h.before henter hname hju hsole
  have hmore : k.received j ++ (k.rx j ++ (c.buf.data.drop c.off).take m) =
      k.sent j ++ c.buf.data.take (c.off + m) := by
    rw [← append_assoc, heq, append_assoc, take_add]
  unfold delivered at hflight ⊢
  rcases hend with ⟨rfl, -⟩ | ⟨rfl, -⟩ | ⟨-, hz⟩
  · right
    refine ⟨t, { c with off := c.off + m }, ?_, ?_, ?_⟩
    · exact (hflight _ _).mpr (.inr ⟨rfl, rfl, hsome, hname⟩)
    · dsimp only
      rw [update_self, update_self]
      simpa [SendCall.reported] using hmore
    · intro t' c' hf
      rcases (hflight _ _).mp hf with ⟨-, hf⟩ | ⟨ht, -⟩
      · exact hone t' c' hf
      · exact ht
  · left
    refine ⟨?_, fun t' c' hf => ?_⟩
    · dsimp only
      rw [update_self, update_self]
      exact hmore
    · rcases (hflight _ _).mp hf with ⟨hne, hf⟩ | ⟨-, hc, -⟩
      · exact hne (hone t' c' hf)
      · exact absurd hc (by simp [SendCall.left])
  · exact absurd hz hsome

end Delivery

/-- A send that is not cut and not among the parts of another one keeps the channels. -/
theorem ChannelsHold.attempt (h : k.ChannelsHold)
    (henter : k.Entered t c) (hu : (k.objs.sockets c.sock).used = true) (hoff : c.off < c.buf.data.length)
    (hcut : k.NotCut c (nonblock || (k.objs.sockets c.sock).nonblock) interrupted) (halone : k.Alone t c) :
    (k.attempt t c nonblock interrupted).ChannelsHold := by
  rcases h.peer_cases hu with ⟨hpeer, hname⟩ | ⟨j, hpeer, hname, hju⟩
  · rw [attempt_closed hpeer hoff]
    exact h.giveUp henter hname
  unfold NotCut at hcut
  rw [hpeer] at hcut
  obtain ⟨m, out, hout, hm, hroom, hend⟩ := sendLoop_uncut hoff (h.bound j) hcut
  have hend : c.Delivers m out := hend
  rw [attempt_eq hpeer hout]
  change (k.delivered t c j m out).ChannelsHold
  refine ⟨h.pairs, ?_, ?_, ?_⟩
  · intro t' c' hb
    have hb : update k.blocked t (c.left out) t' = some c' := hb
    by_cases ht : t' = t
    · rw [ht, update_self] at hb
      obtain ⟨-, rfl, hlt⟩ := hend.left hb
      exact ⟨hu, hlt⟩
    · rw [update_of_ne ht] at hb
      exact h.held t' c' hb
  · intro i hi
    by_cases hij : i = j
    · subst hij
      by_cases hzero : c.off + m = 0
      · exact h.undelivered henter hend hju hzero
      · refine h.delivered_part henter hend hname hju ?_ hzero
        by_cases h0 : c.off = 0
        · exact .inr fun t' c' => halone i hpeer (by omega) t' c'
        · exact .inl h0
    · exact h.elsewhere henter hend hname hi hij
  · intro i
    change (update k.rx j _ i).length ≤ rxBufSize
    by_cases hij : i = j
    · rw [hij, update_self, length_append, length_take]
      omega
    · rw [update_of_ne hij]
      exact h.bound i

theorem unixStream_iff {x : Socket} :
    x.unixStream = true ↔ x.used = true ∧ x.domain = linuxAfUnix ∧ x.type = linuxSockStream := by
  simp [Socket.unixStream]

theorem ChannelsHold.recv (h : k.ChannelsHold) {i : ℕ} (hs : (k.objs.sockets i).type = linuxSockStream) (buf : ReadBuf)
    (env : RecvEnv) :
    ChannelsHold { k with
      rx := update k.rx i (doSysRecvfrom (k.objs.sockets i) (k.rx i) buf env).1
      received := update k.received i
        (k.received i ++ (doSysRecvfrom (k.objs.sockets i) (k.rx i) buf env).2.value []) } := by
  have hspec := recvfrom_spec hs (k.rx i) buf env
  refine ⟨h.pairs, h.held, ?_, ?_⟩
  · intro j hj
    have hjoined : update k.received i
        (k.received i ++ (doSysRecvfrom (k.objs.sockets i) (k.rx i) buf env).2.value []) j ++
        update k.rx i (doSysRecvfrom (k.objs.sockets i) (k.rx i) buf env).1 j =
        k.received j ++ k.rx j := by
      by_cases hij : j = i
      · subst hij
        rw [update_self, update_self, append_assoc, ← hspec]
      · rw [update_of_ne hij, update_of_ne hij]
    rcases h.channel j hj with ⟨heq, hnone⟩ | ⟨t, c, hf, heq, hone⟩
    · exact .inl ⟨hjoined.trans heq, hnone⟩
    · exact .inr ⟨t, c, hf, hjoined.trans heq, hone⟩
  · intro j
    dsimp only
    by_cases hij : j = i
    · subst hij
      have hlen := congrArg List.length hspec
      have hb := h.bound j
      rw [update_self]
      rw [length_append] at hlen
      omega
    · rw [update_of_ne hij]
      exact h.bound j

theorem ChannelsHold.killed (h : k.ChannelsHold) (hoff : ∀ c, k.blocked t = some c → c.off = 0) :
    ChannelsHold { k with blocked := update k.blocked t none } := by
  refine ⟨h.pairs, ?_, ?_, h.bound⟩
  · intro t' c' hb
    dsimp only at hb
    by_cases ht : t' = t
    · rw [ht, update_self] at hb
      exact absurd hb (by simp)
    · rw [update_of_ne ht] at hb
      exact h.held t' c' hb
  · intro j hj
    refine (h.channel j hj).congr rfl rfl rfl fun t' c' => ?_
    refine (inFlight_update k t none _ _ j t' c').trans ?_
    constructor
    · rintro (⟨-, hf⟩ | ⟨-, hno, -⟩)
      · exact hf
      · exact absurd hno (by simp)
    · intro hf
      refine .inl ⟨?_, hf⟩
      rintro rfl
      exact hf.2.1 (hoff c' hf.1)

theorem ChannelsHold.step (h : k.ChannelsHold) (e : UnixEvent) (hok : k.Uncut e) : (k.step e).ChannelsHold := by
  have hsame : ∀ {o : Objects}, PairStep k.objs o →
      (∀ j, (k.objs.sockets j).used = true → (o.sockets j).used = true) → (k.setObjs o).ChannelsHold :=
    fun ho hkeep => h.setObjs ho fun t c hb => hkeep c.sock (h.held t c hb).1
  cases e with
  | pair nonblock => exact hsame (h.pairs.pairSockets nonblock) (keepsUsed_pairSockets nonblock)
  | socket domain type protocol nonblock =>
    exact hsame (h.pairs.plainSocket domain type protocol nonblock)
      (keepsUsed_plainSocket domain type protocol nonblock)
  | addRef i => exact hsame (h.pairs.addRef i) (keepsUsed_addRef i)
  | dropRef i =>
    dsimp only [UnixKernel.step]
    split
    · exact h
    rename_i hguard
    refine h.setObjs (h.pairs.dropRef i) fun t c hb => ?_
    refine keepsUsed_dropRef h.pairs c.sock (h.held t c hb).1 fun heq => ?_
    by_contra hrefs
    exact hguard ⟨by omega, t, by simp [hb, heq]⟩
  | send t i buf nonblock interrupted =>
    dsimp only [UnixKernel.step]
    split
    · exact h
    rename_i hguard
    obtain ⟨hidle, hstream, -, hdata⟩ : k.blocked t = none ∧ (k.objs.sockets i).unixStream = true ∧
        buf.null = false ∧ buf.data ≠ [] := by simpa [not_or] using hguard
    exact h.attempt (.inl ⟨hidle, rfl⟩) (unixStream_iff.mp hstream).1 (length_pos_of_ne_nil hdata)
      hok.1 hok.2
  | resume t nonblock interrupted =>
    dsimp only [UnixKernel.step]
    split
    · exact h
    rename_i c hc
    obtain ⟨hu, hoff⟩ := h.held t c hc
    obtain ⟨hcut, halone⟩ := hok c hc
    exact h.attempt (.inr hc) hu hoff hcut halone
  | recv i buf env =>
    dsimp only [UnixKernel.step]
    split
    · exact h
    rename_i hguard
    have hstream : (k.objs.sockets i).unixStream = true := by
      by_contra hno
      exact hguard (.inl (by simpa using hno))
    exact h.recv (unixStream_iff.mp hstream).2.2 buf env
  | killed t => exact h.killed hok

/-- A receive that finds the end finds everything before it. -/
theorem ChannelsHold.endOfStream (h : k.ChannelsHold) (e : UnixEvent) (hok : k.Uncut e) : k.EndOfStream e := by
  cases e with
  | recv i buf env =>
    intro hstream _ hret
    obtain ⟨hu, -, htype⟩ := unixStream_iff.mp hstream
    have hlen : buf.len ≠ 0 := hok
    obtain ⟨hempty, hclosed⟩ := recvfrom_zero htype (by omega) hret
    have hgone := h.pairs.closed i hu hclosed
    refine ⟨?_, hgone⟩
    rcases h.channel i hu with ⟨heq, -⟩ | ⟨t, c, ⟨hb, -, hname⟩, -⟩
    · rw [hempty, append_nil] at heq
      exact heq
    · have hback := h.reliable.symmetric c.sock i (h.held t c hb).1 hu hname
      omega
  | _ => trivial

/-- Where no send is cut or mixed with another, the channels are reliable. -/
theorem unix_streams (es : List UnixEvent) (hok : Meets UnixKernel.step Uncut {} es) :
    (run UnixKernel.step {} es).Reliable ∧ Meets UnixKernel.step EndOfStream {} es := by
  have hinit : ChannelsHold {} := by
    refine ⟨⟨?_, ?_, ?_, ?_⟩, ?_, ?_, ?_⟩
    · intro i hi
      exact Bool.noConfusion hi
    · intro i hi
      exact Bool.noConfusion hi
    · intro i hi
      exact Bool.noConfusion hi
    · intro i hi
      exact Bool.noConfusion hi
    · intro t c hb
      exact absurd hb (by simp)
    · intro j hj
      exact Bool.noConfusion hj
    · intro j
      exact Nat.zero_le _
  refine ⟨?_, ?_⟩
  · have hrun : ChannelsHold (run UnixKernel.step {} es) :=
      run_invariant (I := ChannelsHold) (fun _ e h hok => h.step e hok) hinit hok
    exact hrun.reliable
  · exact meets_of_invariant (I := ChannelsHold) (fun _ e h hok => h.step e hok)
      (fun _ e h hok => h.endOfStream e hok) hinit hok

end UnixKernel

/-- A pair is made, two bytes are sent and received one by one, and the sender closes its end. -/
def pairBytes : List UnixEvent :=
  [.pair false, .send bootSlot 0 { data := [97, 98] } false false, .recv 1 { len := 1 } {}, .addRef 1,
    .recv 1 { len := 8 } {}, .dropRef 0, .recv 1 { len := 8 } {}]

variable {k : UnixKernel} {buf : UserBuf}

theorem UnixKernel.uncut_start {t : Fin procMaxTasks} {i : ℕ} {nonblock : Bool}
    (hidle : k.blocked = fun _ => none) : k.Uncut (.send t i buf nonblock false) := by
  refine ⟨?_, ?_⟩
  · unfold NotCut
    split
    · rfl
    dsimp only
    split_ifs
    · exact .inl rfl
    · rfl
    · exact .inr (.inr rfl)
  · intro j _ _ t' c' hf
    have hb := hf.1
    rw [hidle] at hb
    exact absurd hb (by simp)

theorem pairBytes_received :
    Meets UnixKernel.step UnixKernel.Uncut {} pairBytes ∧ (run UnixKernel.step {} pairBytes).Reliable ∧
      Meets UnixKernel.step UnixKernel.EndOfStream {} pairBytes := by
  have h : Meets UnixKernel.step UnixKernel.Uncut {} pairBytes := by
    refine ⟨trivial, UnixKernel.uncut_start rfl, ?_, trivial, ?_, trivial, ?_, trivial⟩
    · exact Nat.one_ne_zero
    · exact Nat.succ_ne_zero 7
    · exact Nat.succ_ne_zero 7
  exact ⟨h, UnixKernel.unix_streams pairBytes h⟩

theorem copyPieces_good (h : ∀ a n, buf.rangeOk a n = true) (off n fuel done : ℕ) :
    copyPieces buf off n fuel done = true := by
  induction fuel generalizing done with
  | zero => rfl
  | succ fuel ih =>
    unfold copyPieces
    split
    · dsimp only
      rw [if_pos (h _ _)]
      exact ih _
    · rfl

variable {data : List UInt8}

/-- A send of more than there is room for, with a signal pending. -/
theorem interrupted_send (hlen : data.length = rxBufSize + 1) :
    sendLoop { data := data } false true (data.length - 0 + 1) (some []) 0 =
      (some (data.take rxBufSize), .ret (.error .eintr)) := by
  have hfuel : data.length - 0 + 1 = rxBufSize + 2 := by omega
  have hroom : rxBufSize - ([] : List UInt8).length ≠ 0 := by decide
  rw [hfuel, sendLoop_room _ (by rw [hlen]; omega) hroom]
  dsimp only
  rw [copyPieces_good (fun _ _ => rfl), if_neg (by simp), length_nil]
  have hn : min (data.length - 0) (rxBufSize - 0) = rxBufSize := by omega
  rw [hn, if_neg (by omega), nil_append, drop_zero]
  rfl

theorem pair_cut (hlen : data.length = rxBufSize + 1)
    (hstream : (k.objs.sockets 0).unixStream = true) (hblocking : (k.objs.sockets 0).nonblock = false)
    (hpeer : k.peer ⟨0, { data := data }, 0⟩ = some 1) (hused : (k.objs.sockets 1).used = true)
    (hidle : k.blocked = fun _ => none) (hrx : k.rx 1 = []) (hsent : k.sent 1 = []) (hreceived : k.received 1 = []) :
    ¬ (k.step (.send 0 0 { data := data } false true)).Reliable := by
  have hout := interrupted_send hlen
  have hstep : k.step (.send 0 0 { data := data } false true) = k.attempt 0 ⟨0, { data := data }, 0⟩ false true := by
    have hne : data ≠ [] := by
      rintro rfl
      simp at hlen
    unfold UnixKernel.step
    dsimp only
    rw [if_neg (by simp [hidle, hstream, hne])]
  have hcut : sendLoop { data := data } (false || (k.objs.sockets 0).nonblock) true (data.length - 0 + 1)
      (some (k.rx 1)) 0 = (some (data.take rxBufSize), .ret (.error .eintr)) := by
    rw [hblocking, hrx]
    exact hout
  rw [hstep, UnixKernel.attempt_eq hpeer hcut]
  rintro ⟨hchannel, -, -⟩
  rcases hchannel 1 hused with ⟨heq, -⟩ | ⟨t, c, ⟨hb, -, -⟩, -⟩
  · have hlength := congrArg List.length heq
    dsimp only at hlength
    rw [update_self, update_self, hsent, hreceived] at hlength
    simp only [SendCall.reported, nil_append, length_take, length_nil] at hlength
    have hsize : rxBufSize = 32768 := rfl
    omega
  dsimp only at hb
  by_cases ht : t = 0
  · rw [ht, update_self] at hb
    exact absurd hb (by simp [SendCall.left])
  · rw [update_of_ne ht, hidle] at hb
    exact absurd hb (by simp)

/-- 32768 bytes are delivered, and the send reports an error. -/
theorem interruptedSend_delivers : ¬ (run UnixKernel.step {} [.pair false,
      .send 0 0 { data := List.replicate (rxBufSize + 1) 97 } false true]).Reliable := by
  rw [run_cons, run_cons, run_nil]
  exact pair_cut List.length_replicate (by decide +kernel) (by decide +kernel) (by decide +kernel)
    (by decide +kernel) rfl rfl rfl rfl

end EdgeOS
