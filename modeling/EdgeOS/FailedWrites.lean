import EdgeOS.FailedReads
import EdgeOS.UnixStream

namespace EdgeOS

open Lib List WriteKind Stretch
open Prod (ext)

/-!
What a stretch of a write that fails or waits leaves behind, kind by kind.
-/

section Writes

variable {σ : Type}

def Tty.SameRings (t t' : Tty) : Prop :=
  t'.m2s.contents edgePtyBufSize = t.m2s.contents edgePtyBufSize ∧
    t'.s2m.contents edgePtyBufSize = t.s2m.contents edgePtyBufSize

/-- The bytes go through a terminal one after the other; `none` if one of them does not fit. -/
def Tty.typed (side : PtySide) (t : Tty) (bytes : List UInt8) : Option Tty :=
  bytes.foldlM (fun t c => t.writeByte side c) t

def WriteKind.Same : (k : WriteKind σ) → k.Object → k.Object → Prop
  | .pipe, p, p' => p'.ring.contents edgePipeSize = p.ring.contents edgePipeSize
  | .pty _, (t, _), (t', _) => t.SameRings t'
  | .unix, peer, peer' => peer' = peer
  | .inet _, (net, _), (net', _) => net' = net
  | .eventfd, ev, ev' => ev' = ev
  | .timerfd, tf, tf' => tf' = tf
  | .signalfd, t, t' => t' = t
  | .file _, (fs, f), (fs', f') => fs' = fs ∧ f'.entry = f.entry
  | .mouse, _, _ => True

def WriteKind.Fresh (off : Option ℕ) : WriteKind σ → Prop
  | .unix => off.getD 0 = 0
  | .inet _ => off.getD 0 = 0
  | _ => True

/-- A Unix stream: no error comes after a part was delivered. -/
def unixUncut (buf : UserBuf) (nonblock interrupted : Bool) (off : ℕ) : Option (List UInt8) → Prop
  | none => off = 0
  | some rx =>
    let room := rxBufSize - rx.length
    let n := min (buf.data.length - off) room
    if room = 0 then off = 0 ∨ nonblock = true ∨ interrupted = false
    else if copyPieces buf off n n 0 = false then off = 0
    else off + n = buf.data.length ∨ nonblock = true ∨ interrupted = false

/-- The piece of a TCP send at `off` ends the call with an error, whatever went before: it cannot be
read, or a signal comes while the stack has no memory for it. -/
def tcpFault (buf : UserBuf) (nonblock : Bool) (ans : NetAnswers) (held : Bool) (off : ℕ) : Bool :=
  !held ∧ !buf.rangeOk off (min (buf.data.length - off) tcpChunkSize) ∨
    ans.write (off / tcpChunkSize) = .mem ∧ !nonblock ∧ ans.interrupted

/-- A TCP send: no such piece comes after one that was queued. -/
def tcpUncut (buf : UserBuf) (nonblock : Bool) (ans : NetAnswers) (held : Bool) (off : ℕ) : Prop :=
  ∀ k, off + tcpChunkSize * k < buf.data.length →
    (∀ j < k, tcpFault buf nonblock ans (held && j = 0) (off + tcpChunkSize * j) = false ∧
      ans.write ((off + tcpChunkSize * j) / tcpChunkSize) = .ok) →
    off + tcpChunkSize * k = 0 ∨ tcpFault buf nonblock ans (held && k = 0) (off + tcpChunkSize * k) = false

/-- A send on another socket. A ping that finds no route has replaced the record of the one before. -/
def inetUncut (s : Socket) (nonblock : Bool) (buf : UserBuf) (ans : NetAnswers) (net : NetSocket) : Option ℕ → Prop
  | some off => off < buf.data.length → tcpUncut buf nonblock ans true off
  | none =>
    s.used = false ∨ buf.data.length = 0 ∨ s.connected = false ∨ s.sendsUdp = true ∨
      if s.sendsTcp then tcpUncut buf nonblock ans false 0
      else txSize < buf.data.length ∨ buf.rangeOk 0 buf.data.length = false ∨ s.sendsPing = false ∨
        ans.routed = true ∨ buf.data.length < 8 ∨ net.pingHw = false ∧ net.pingIdBe = (buf.data.drop 4).take 2

/-- A driver that refuses the first piece of a write has changed nothing, and neither has `O_APPEND`. -/
def fileUncut (vfs : Vfs σ) (fs : σ) (e : FdEntry) (buf : UserBuf) : Prop :=
  ∀ sb, e.sb = some sb → vfs.hasWrite fs sb = true → e.inode.type ≠ vfsInodeDir → let piece := buf.data.take (2 ^ 20)
    let pos := if hasFlag e.flags linuxOAppend then e.inode.size else e.pos
    let out := vfs.write fs sb e.inode (pos % 2 ^ 32) piece
    buf.rangeOk 0 piece.length = true → out.2.2 < 0 → out.1 = fs ∧ out.2.1 = e.inode.size ∧ pos = e.pos

/-- No error ends the call after a byte was delivered. The bytes of a terminal go in one by one, so that
those in front of an unreadable one must leave its rings alone. -/
def WriteKind.Uncut (buf : UserBuf) (nonblock interrupted : Bool) (off : Option ℕ) : (k : WriteKind σ) → k.Object → Prop
  | .pipe, p => off = none ∧ (p.used = false ∨ p.readers = 0) ∨ p.ring.count ≥ edgePipeSize ∨ buf.byte 0 = none ∨
      ∀ i < min buf.data.length (edgePipeSize - p.ring.count), (buf.byte i).isSome = true
  | .pty side, (t, _) => (t.dest side).count ≥ edgePtyBufSize ∨
      ∀ i < min buf.data.length (edgePtyBufSize - (t.dest side).count), buf.byte i = none →
        (∀ j < i, (buf.byte j).isSome = true) →
        ∀ t', t.typed side (buf.data.take i) = some t' → t.SameRings t'
  | .unix, peer => off.getD 0 < buf.data.length → unixUncut buf nonblock interrupted (off.getD 0) peer
  | .inet s, (net, ans) =>
    inetUncut s (nonblock || s.nonblock) buf { ans with interrupted := interrupted } net off
  | .eventfd, _ => True
  | .timerfd, _ => True
  | .signalfd, _ => True
  | .file vfs, (fs, f) => fileUncut vfs fs f.entry buf
  | .mouse, _ => True

end Writes

/-! ## Pipes and terminals -/

section Stretches

variable {σ : Type} {nonblock interrupted : Bool} {buf : UserBuf}

theorem pipeWriteLoop_count (buf : UserBuf) (k : ℕ) (r : RingBuffer UInt8) (i : ℕ) :
    r.count ≤ (pipeWriteLoop buf k r i).1.count := by
  induction k generalizing r i with
  | zero => exact le_rfl
  | succ k ih =>
    unfold pipeWriteLoop
    split
    · exact le_rfl
    rename_i c _
    have hpush : (r.push edgePipeSize c).count = r.count + 1 := rfl
    have := ih (r.push edgePipeSize c) (i + 1)
    omega

theorem pipeWriteLoop_ok (k : ℕ) (r : RingBuffer UInt8) (i : ℕ) (h : ∃ n, (pipeWriteLoop buf k r i).2 = .ok n) :
    ∀ j, i ≤ j → j < i + k → (buf.byte j).isSome = true := by
  induction k generalizing r i with
  | zero =>
    intro j hj hlt
    omega
  | succ k ih =>
    intro j hj hlt
    unfold pipeWriteLoop at h
    split at h
    · obtain ⟨n, hn⟩ := h
      simp at hn
    rename_i c hc
    rcases Nat.eq_or_lt_of_le hj with rfl | hlater
    · rw [hc]
      rfl
    · exact ih _ _ h j hlater (by omega)

variable {p : Pipe} {off : Option ℕ}

theorem pipeWriteFrom_clean (hlen : buf.data.length ≠ 0) :
    Clean (fun p p' : Pipe => p'.ring.contents edgePipeSize = p.ring.contents edgePipeSize) p
        (pipeWriteFrom p off.isSome nonblock interrupted buf) ↔
      off = none ∧ (p.used = false ∨ p.readers = 0) ∨ p.ring.count ≥ edgePipeSize ∨ buf.byte 0 = none ∨
        ∀ i < min buf.data.length (edgePipeSize - p.ring.count), (buf.byte i).isSome = true := by
  unfold Clean pipeWriteFrom
  split
  · rename_i h
    exact iff_of_true (fun _ _ => rfl) (.inl (by simpa using h))
  rename_i hopen
  have hopen' : ¬ (off = none ∧ (p.used = false ∨ p.readers = 0)) := by simpa using hopen
  split
  · rename_i hfull
    refine iff_of_true ?_ (.inr (.inl hfull))
    intro err _
    split <;> rfl
  rename_i hroom
  rw [or_iff_right hopen', or_iff_right hroom]
  obtain ⟨n, hn⟩ : ∃ n, min buf.data.length (edgePipeSize - p.ring.count) = n + 1 :=
    ⟨min buf.data.length (edgePipeSize - p.ring.count) - 1, by omega⟩
  dsimp only
  rw [hn]
  rcases hb : buf.byte 0 with _ | c
  · refine iff_of_true ?_ (.inl rfl)
    intro err _
    rw [pipeWriteLoop, hb]
  rw [or_iff_right (by simp)]
  have hgrow : p.ring.count < (pipeWriteLoop buf (n + 1) p.ring 0).1.count := by
    rw [pipeWriteLoop, hb]
    have hpush : (p.ring.push edgePipeSize c).count = p.ring.count + 1 := rfl
    have hle := pipeWriteLoop_count buf n (p.ring.push edgePipeSize c) (0 + 1)
    dsimp only
    omega
  constructor
  · intro h i hi
    apply pipeWriteLoop_ok (n + 1) p.ring 0 ?_ i (Nat.zero_le i) (by omega)
    rcases hout : (pipeWriteLoop buf (n + 1) p.ring 0).2 with err | m
    · have hsame := congrArg List.length (h err (by rw [hout]))
      rw [RingBuffer.length_contents, RingBuffer.length_contents] at hsame
      omega
    · exact ⟨m, rfl⟩
  · intro h err herr
    rw [pipeWriteLoop_good (n + 1) p.ring 0 fun j _ hj => h j (by omega)] at herr
    simp at herr

/-- The writing loop of a terminal fails at the first byte it cannot read, if what stands before fits. -/
theorem ptyWriteLoop_error (buf : UserBuf) (side : PtySide) (k : ℕ) (t : Tty) (i : ℕ) (t' : Tty) (err : Errno) :
    ptyWriteLoop side buf k t i = (t', .error err) ↔
      err = .efault ∧ ∃ m < k, buf.byte (i + m) = none ∧ (∀ j < m, (buf.byte (i + j)).isSome = true) ∧
        t.typed side ((buf.data.drop i).take m) = some t' := by
  induction k generalizing t i with
  | zero => simp [ptyWriteLoop]
  | succ k ih =>
    unfold ptyWriteLoop
    rcases hb : buf.byte i with _ | c
    · constructor
      · intro h
        obtain ⟨rfl, herr⟩ := Prod.mk.inj h
        refine ⟨by simpa using herr.symm, 0, by omega, hb, by simp, rfl⟩
      · rintro ⟨rfl, m, -, -, hread, htyped⟩
        have hm : m = 0 := by
          by_contra hne
          have := hread 0 (by omega)
          rw [Nat.add_zero, hb] at this
          simp at this
        subst hm
        rw [take_zero] at htyped
        have heq : t = t' := Option.some.inj htyped
        rw [heq]
    · have hget : buf.data[i]? = some c := by
        unfold UserBuf.byte at hb
        split at hb
        · exact hb
        · simp at hb
      obtain ⟨hi, hci⟩ := List.getElem?_eq_some_iff.mp hget
      have hdrop : buf.data.drop i = c :: buf.data.drop (i + 1) := by
        rw [drop_eq_getElem_cons hi, hci]
      have hshift : (∃ m < k + 1, buf.byte (i + m) = none ∧ (∀ j < m, (buf.byte (i + j)).isSome = true) ∧
          t.typed side ((buf.data.drop i).take m) = some t') ↔
          ∃ m < k, buf.byte (i + 1 + m) = none ∧ (∀ j < m, (buf.byte (i + 1 + j)).isSome = true) ∧
            t.typed side (c :: (buf.data.drop (i + 1)).take m) = some t' := by
        rw [hdrop]
        constructor
        · rintro ⟨m, hm, hnone, hread, htyped⟩
          rcases m with _ | m
          · rw [Nat.add_zero, hb] at hnone
            simp at hnone
          refine ⟨m, by omega, by rw [← hnone]; congr 1; omega, fun j hj => ?_, htyped⟩
          have := hread (j + 1) (by omega)
          rwa [show i + (j + 1) = i + 1 + j by omega] at this
        · rintro ⟨m, hm, hnone, hread, htyped⟩
          refine ⟨m + 1, by omega, by rw [← hnone]; congr 1; omega, fun j hj => ?_, htyped⟩
          rcases j with _ | j
          · rw [Nat.add_zero, hb]
            rfl
          · have := hread j (by omega)
            rwa [show i + 1 + j = i + (j + 1) by omega] at this
      rw [hshift]
      dsimp only
      rcases hw : t.writeByte side c with _ | t1
      · refine iff_of_false (by simp) ?_
        rintro ⟨-, m, -, -, -, htyped⟩
        simp [Tty.typed, hw] at htyped
      rw [ih]
      have hcons : ∀ l, t.typed side (c :: l) = t1.typed side l := by
        intro l
        simp [Tty.typed, hw]
      simp only [hcons]

variable {t : Tty} {side : PtySide} {peerRefs : ℕ}

theorem ptyWrite_clean : Clean Tty.SameRings t (ptyWrite t side peerRefs nonblock interrupted buf) ↔
      (t.dest side).count ≥ edgePtyBufSize ∨
        ∀ i < min buf.data.length (edgePtyBufSize - (t.dest side).count), buf.byte i = none →
          (∀ j < i, (buf.byte j).isSome = true) →
          ∀ t', t.typed side (buf.data.take i) = some t' → t.SameRings t' := by
  unfold Clean ptyWrite
  split
  · rename_i hfull
    refine iff_of_true ?_ (.inl hfull)
    intro err _
    split
    · exact ⟨rfl, rfl⟩
    split
    · exact ⟨rfl, rfl⟩
    split <;> exact ⟨rfl, rfl⟩
  rename_i hroom
  rw [or_iff_right hroom]
  generalize min buf.data.length (edgePtyBufSize - (t.dest side).count) = n
  dsimp only
  have herror := ptyWriteLoop_error buf side n t 0
  simp only [Nat.zero_add, drop_zero] at herror
  constructor
  · intro h i hi hnone hread t' htyped
    have hout := (herror t' .efault).mpr ⟨rfl, i, hi, hnone, hread, htyped⟩
    have hsame := h .efault (by rw [hout])
    rwa [hout] at hsame
  · intro h err herr
    have herr' : (ptyWriteLoop side buf n t 0).2 = .error err := by simpa using herr
    obtain ⟨-, i, hi, hnone, hread, htyped⟩ := (herror _ err).mp (ext rfl herr')
    exact h i hi hnone hread _ htyped

variable {ev : EventFd}

theorem eventfdWrite_clean :
    Clean (fun ev ev' : EventFd => ev' = ev) ev (eventfdWrite ev nonblock interrupted buf) := by
  intro err herr
  unfold eventfdWrite at herr ⊢
  split
  · rfl
  split
  · rfl
  split
  · rfl
  dsimp only
  split
  · rfl
  split
  · rfl
  rename_i h1 h2 h3 h4 h5
  rw [if_neg h1, if_neg h2, if_neg h3] at herr
  dsimp only at herr
  rw [if_neg h4, if_neg h5] at herr
  simp at herr

theorem eventfdWrite_wait (h : (eventfdWrite ev nonblock interrupted buf).2 = .wait) :
    (eventfdWrite ev nonblock interrupted buf).1 = ev := by
  unfold eventfdWrite at h ⊢
  split
  · rfl
  split
  · rfl
  split
  · rfl
  dsimp only
  split
  · rfl
  split
  · rfl
  rename_i h1 h2 h3 h4 h5
  rw [if_neg h1, if_neg h2, if_neg h3] at h
  dsimp only at h
  rw [if_neg h4, if_neg h5] at h
  simp at h

theorem pipeWriteFrom_wait {waited : Bool} (h : (pipeWriteFrom p waited nonblock interrupted buf).2 = .wait) :
    (pipeWriteFrom p waited nonblock interrupted buf).1 = p := by
  unfold pipeWriteFrom at h ⊢
  grind

theorem ptyWrite_wait (h : (ptyWrite t side peerRefs nonblock interrupted buf).2 = .wait) :
    (ptyWrite t side peerRefs nonblock interrupted buf).1 = t := by
  unfold ptyWrite at h ⊢
  grind

/-! ## Unix streams -/

variable {o : SendOutcome}

@[simp] theorem sendStretch_ret {r : Except Errno ℕ} : o.stretch = .ret r ↔ o = .ret r := by
  rcases o with _ | _ <;> simp [SendOutcome.stretch]

@[simp] theorem sendStretch_wait {l : Option ℕ} : o.stretch = .wait l ↔ ∃ off, l = some off ∧ o = .wait off := by
  rcases o with _ | _ <;> simp [SendOutcome.stretch, eq_comm, and_comm]

theorem sendLoop_closed {off : ℕ} (hoff : off < buf.data.length) (fuel : ℕ) :
    sendLoop buf nonblock interrupted (fuel + 1) none off = (none, .ret (.error .epipe)) := by
  unfold sendLoop
  rw [if_pos hoff]

theorem sendLoop_done {off : ℕ} (hoff : ¬ off < buf.data.length) (fuel : ℕ) (peer : Option (List UInt8)) :
    sendLoop buf nonblock interrupted (fuel + 1) peer off = (peer, .ret (.ok off)) := by
  unfold sendLoop
  rw [if_neg hoff]

/-- A send that finds no room fails cleanly unless it is interrupted after a part was delivered. -/
theorem stopped_clean (nonblock interrupted : Bool) (off : ℕ) :
    (∀ err, stopped nonblock interrupted off = .ret (.error err) → off = 0) ↔
      off = 0 ∨ nonblock = true ∨ interrupted = false := by
  unfold stopped
  cases nonblock <;> cases interrupted <;> by_cases h0 : off = 0 <;> simp [h0]

theorem stopped_wait {off off' : ℕ} (h : stopped nonblock interrupted off = .wait off') : off' = off := by
  unfold stopped at h
  split at h
  · simp at h
  split at h
  · simp at h
  · exact (SendOutcome.wait.inj h).symm

theorem appended_ne {rx : List UInt8} {off n : ℕ} (hoff : off < buf.data.length) (hn : n ≠ 0) :
    some (rx ++ (buf.data.drop off).take n) ≠ some rx := by
  intro heq
  have hlen := congrArg List.length (Option.some.inj heq)
  rw [length_append, length_take, length_drop] at hlen
  omega

theorem sendLoop_clean {off : ℕ} (hoff : off < buf.data.length) (peer : Option (List UInt8)) :
    (∀ peer' err, sendLoop buf nonblock interrupted (buf.data.length - off + 1) peer off =
        (peer', .ret (.error err)) → off = 0 ∧ peer' = peer) ↔
      unixUncut buf nonblock interrupted off peer := by
  obtain ⟨fuel, hfuel⟩ : ∃ fuel, buf.data.length - off + 1 = fuel + 2 := ⟨buf.data.length - off - 1, by omega⟩
  rw [hfuel]
  rcases peer with _ | rx
  · rw [sendLoop_closed hoff]
    simp [unixUncut]
  unfold unixUncut
  dsimp only
  by_cases hroom : rxBufSize - rx.length = 0
  · rw [if_pos hroom, sendLoop_full _ hoff hroom, ← stopped_clean nonblock interrupted]
    constructor
    · intro h err herr
      exact (h (some rx) err (ext rfl herr)).1
    · intro h peer' err heq
      obtain ⟨rfl, herr⟩ := Prod.mk.inj heq
      exact ⟨h err herr, rfl⟩
  rw [if_neg hroom, sendLoop_room _ hoff hroom]
  dsimp only
  have hn : min (buf.data.length - off) (rxBufSize - rx.length) ≠ 0 := by omega
  split
  · constructor
    · intro h
      exact (h (some rx) .efault rfl).1
    · intro h peer' err heq
      exact ⟨h, (Prod.mk.inj heq).1.symm⟩
  split
  · rename_i hall
    exact iff_of_true (fun _ _ heq => by simp at heq) (.inl hall)
  rename_i hpart
  rw [or_iff_right hpart]
  constructor
  · intro h
    have hstop := (stopped_clean nonblock interrupted
      (off + min (buf.data.length - off) (rxBufSize - rx.length))).mp fun err herr =>
        absurd (h _ err (ext rfl herr)).2 (appended_ne hoff hn)
    exact hstop.resolve_left (by omega)
  · intro h peer' err heq
    obtain ⟨-, herr⟩ := Prod.mk.inj heq
    have := (stopped_clean nonblock interrupted _).mpr (.inr h) err herr
    omega

/-- A send that waits has delivered what lies between its two local states. -/
theorem sendLoop_wait {off off' : ℕ} {peer peer' : Option (List UInt8)}
    (h : sendLoop buf nonblock interrupted (buf.data.length - off + 1) peer off = (peer', .wait off')) :
    off' = 0 ↔ off = 0 ∧ peer' = peer := by
  by_cases hoff : off < buf.data.length
  · obtain ⟨fuel, hfuel⟩ : ∃ fuel, buf.data.length - off + 1 = fuel + 2 :=
      ⟨buf.data.length - off - 1, by omega⟩
    rw [hfuel] at h
    rcases peer with _ | rx
    · rw [sendLoop_closed hoff] at h
      simp at h
    by_cases hroom : rxBufSize - rx.length = 0
    · rw [sendLoop_full _ hoff hroom] at h
      obtain ⟨rfl, hw⟩ := Prod.mk.inj h
      rw [stopped_wait hw]
      simp
    rw [sendLoop_room _ hoff hroom] at h
    dsimp only at h
    have hn : min (buf.data.length - off) (rxBufSize - rx.length) ≠ 0 := by omega
    split at h
    · simp at h
    obtain ⟨rfl, hw⟩ := Prod.mk.inj h
    split at hw
    · simp at hw
    rw [stopped_wait hw]
    exact iff_of_false (by omega) fun h => appended_ne hoff hn h.2
  · rw [sendLoop_done hoff] at h
    simp at h

/-! ## TCP -/

section Tcp

variable {ans : NetAnswers}

theorem piece_succ (off j : ℕ) : off + tcpChunkSize * (j + 1) = off + tcpChunkSize + tcpChunkSize * j := by
  change off + 1024 * (j + 1) = off + 1024 + 1024 * j
  omega

variable {held : Bool}

/-- The first piece, and the ones behind it if it is queued. -/
theorem tcpUncut_step {off : ℕ} (hoff : off < buf.data.length) : tcpUncut buf nonblock ans held off ↔
      (off = 0 ∨ tcpFault buf nonblock ans held off = false) ∧
        (tcpFault buf nonblock ans held off = false → ans.write (off / tcpChunkSize) = .ok →
          tcpUncut buf nonblock ans false (off + min (buf.data.length - off) tcpChunkSize)) := by
  have hchunk : tcpChunkSize = 1024 := rfl
  constructor
  · intro h
    constructor
    · have h0 := h 0 (by omega) (by simp)
      simpa using h0
    · intro hfault hok k hk hprev
      have hc : min (buf.data.length - off) tcpChunkSize = tcpChunkSize := by omega
      rw [hc] at hk hprev ⊢
      have hnext := piece_succ off
      have hk1 := h (k + 1) (by rw [hnext]; exact hk) ?_
      · rw [hnext] at hk1
        simpa using hk1
      · intro j hj
        rcases j with _ | j
        · simpa using ⟨hfault, hok⟩
        · rw [hnext]
          simpa using hprev j (by omega)
  · rintro ⟨hfirst, hrest⟩ k hk hprev
    rcases k with _ | k
    · simpa using hfirst
    have hnext := piece_succ off
    have h0 := hprev 0 (by omega)
    simp only [Nat.mul_zero, Nat.add_zero, decide_true, Bool.and_true] at h0
    have hlater := hrest h0.1 h0.2
    rw [hnext] at hk
    have hc : min (buf.data.length - off) tcpChunkSize = tcpChunkSize := by omega
    rw [hc] at hlater
    have hk1 := hlater k hk ?_
    · rw [hnext]
      simpa using hk1
    · intro j hj
      have hj1 := hprev (j + 1) (by omega)
      rw [hnext] at hj1
      simpa using hj1

theorem tcpUncut_done {off : ℕ} (hoff : ¬ off < buf.data.length) : tcpUncut buf nonblock ans held off := by
  intro k hk
  omega

theorem tcpSendLoop_grows (buf : UserBuf) (nonblock : Bool) (ans : NetAnswers) (fuel : ℕ) (held : Bool) (net : NetSocket) (off : ℕ) :
    net.queued.length ≤ (tcpSendLoop buf nonblock ans fuel held net off).1.queued.length := by
  induction fuel generalizing held net off with
  | zero => exact le_rfl
  | succ fuel ih =>
    unfold tcpSendLoop
    split
    · dsimp only
      split
      · exact le_rfl
      split
      · split
        · exact le_rfl
        split <;> exact le_rfl
      · exact le_rfl
      · refine le_trans ?_ (ih _ _ _)
        rw [length_append]
        omega
    · exact le_rfl

theorem tcpSendLoop_clean (fuel : ℕ) (held : Bool) (net : NetSocket) (off : ℕ) (hfuel : buf.data.length - off < fuel) :
    (∀ net' err, tcpSendLoop buf nonblock ans fuel held net off = (net', .ret (.error err)) →
        off = 0 ∧ net' = net) ↔ tcpUncut buf nonblock ans held off := by
  induction fuel generalizing held net off with
  | zero => omega
  | succ fuel ih =>
    by_cases hoff : off < buf.data.length
    swap
    · unfold tcpSendLoop
      rw [if_neg hoff]
      exact iff_of_true (fun _ _ heq => by simp at heq) (tcpUncut_done hoff)
    rw [tcpUncut_step hoff]
    have hchunk : tcpChunkSize = 1024 := rfl
    unfold tcpSendLoop
    rw [if_pos hoff]
    dsimp only
    by_cases hread : held = false ∧ buf.rangeOk off (min (buf.data.length - off) tcpChunkSize) = false
    · -- The piece cannot be read.
      have hfault : tcpFault buf nonblock ans held off = true := by simp [tcpFault, hread]
      rw [if_pos (by simpa using hread), hfault]
      simp only [Bool.true_eq_false, or_false, false_implies, and_true]
      constructor
      · intro h
        exact (h net .efault rfl).1
      · intro h net' err heq
        exact ⟨h, (Prod.mk.inj heq).1.symm⟩
    have hfault : tcpFault buf nonblock ans held off =
        decide (ans.write (off / tcpChunkSize) = .mem ∧ (!nonblock) = true ∧ ans.interrupted = true) := by
      unfold tcpFault
      exact decide_eq_decide.mpr (or_iff_right (by simpa using hread))
    rw [if_neg (by simpa using hread), hfault]
    rcases hw : ans.write (off / tcpChunkSize) with _ | _ | _
    · -- The piece is queued.
      simp only [reduceCtorEq, false_and, decide_false, or_true, true_and, forall_const]
      rw [← ih false { net with queued := net.queued ++
        (buf.data.drop off).take (min (buf.data.length - off) tcpChunkSize) } _ (by omega)]
      constructor
      · intro h net' err heq
        have hgrow := tcpSendLoop_grows buf nonblock ans fuel false
          { net with queued := net.queued ++ (buf.data.drop off).take (min (buf.data.length - off) tcpChunkSize) }
          (off + min (buf.data.length - off) tcpChunkSize)
        rw [heq, (h net' err heq).2, length_append, length_take, length_drop] at hgrow
        dsimp only at hgrow
        omega
      · intro h net' err heq
        have := (h net' err heq).1
        omega
    · -- The stack has no memory.
      cases nonblock
      · cases hint : ans.interrupted
        · simp
        · simp only [Bool.false_eq_true, if_false, if_true, Bool.not_false, and_self, decide_true,
            Bool.true_eq_false, or_false, false_implies, and_true]
          constructor
          · intro h
            exact (h net .eintr rfl).1
          · intro h net' err heq
            exact ⟨h, (Prod.mk.inj heq).1.symm⟩
      · refine iff_of_true (fun net' err heq => ?_) (by simp)
        obtain ⟨rfl, herr⟩ := Prod.mk.inj heq
        by_cases h0 : off = 0
        · exact ⟨h0, rfl⟩
        · simp [h0] at herr
    · refine iff_of_true (fun net' err heq => ?_) (by simp)
      obtain ⟨rfl, herr⟩ := Prod.mk.inj heq
      by_cases h0 : off = 0
      · exact ⟨h0, rfl⟩
      · simp [h0] at herr

variable {net net' : NetSocket}

/-- A send that waits has queued what lies between its two local states. -/
theorem tcpSendLoop_wait (fuel : ℕ) {off off' : ℕ}
    (h : tcpSendLoop buf nonblock ans fuel held net off = (net', .wait off')) :
    off ≤ off' ∧ net'.queued.length + off = net.queued.length + off' ∧ (off' = off → net' = net) := by
  induction fuel generalizing held net off with
  | zero => simp [tcpSendLoop] at h
  | succ fuel ih =>
    unfold tcpSendLoop at h
    split at h
    swap
    · simp at h
    rename_i hoff
    dsimp only at h
    split at h
    · simp at h
    split at h
    · split at h
      · simp at h
      split at h
      · simp at h
      obtain ⟨rfl, hw⟩ := Prod.mk.inj h
      obtain rfl := wait.inj hw
      exact ⟨le_rfl, rfl, fun _ => rfl⟩
    · simp at h
    · obtain ⟨hle, hlen, -⟩ := ih h
      have hchunk : tcpChunkSize = 1024 := rfl
      rw [length_append, length_take, length_drop] at hlen
      exact ⟨by omega, by omega, fun heq => by omega⟩

theorem tcpSendLoop_wait_iff (fuel : ℕ) {off off' : ℕ}
    (h : tcpSendLoop buf nonblock ans fuel held net off = (net', .wait off')) :
    off' = 0 ↔ off = 0 ∧ net' = net := by
  obtain ⟨hle, hlen, hsame⟩ := tcpSendLoop_wait fuel h
  constructor
  · intro h0
    exact ⟨by omega, hsame (by omega)⟩
  · rintro ⟨rfl, rfl⟩
    omega

/-! ## Other sockets -/

variable {err : Errno}

theorem udpSend_error (h : udpSend net ans buf = (net', .error err)) : net' = net := by
  unfold udpSend at h
  grind

variable {data : List UInt8}

theorem pingSend_error (h : pingSend net ans data = (net', .error err)) : 8 ≤ data.length ∧ ans.routed = false ∧
      net' = { net with pingHw := false, pingIdBe := (data.drop 4).take 2 } := by
  unfold pingSend at h
  grind

theorem pingSend_failed (hlen : 8 ≤ data.length) (hroute : ans.routed = false) : pingSend net ans data =
      ({ net with pingHw := false, pingIdBe := (data.drop 4).take 2 }, .error .enetunreach) := by
  unfold pingSend
  rw [if_neg (by omega)]
  simp [hroute]

variable {out : NetSocket × Stretch ℕ (Except Errno ℕ)}

theorem waits_error : doSysSendto.waits out = (net, .ret (.error err)) ↔ out = (net, .ret (.error err)) := by
  obtain ⟨net', r | off⟩ := out <;> simp [doSysSendto.waits]

theorem waits_wait {resume : Option ℕ} :
    doSysSendto.waits out = (net, .wait resume) ↔ ∃ off, resume = some off ∧ out = (net, .wait off) := by
  obtain ⟨net', r | off⟩ := out <;> simp [doSysSendto.waits, eq_comm, and_comm]

variable {off : Option ℕ} {s : Socket}

theorem doSysSendto_clean : (∀ net' err, doSysSendto s nonblock buf off ans net = (net', .ret (.error err)) →
        off.getD 0 = 0 ∧ net' = net) ↔ inetUncut s nonblock buf ans net off := by
  rcases off with _ | off
  swap
  · unfold doSysSendto inetUncut
    simp only [waits_error, Option.getD_some]
    by_cases hoff : off < buf.data.length
    · rw [tcpSendLoop_clean _ true net off (by omega)]
      exact ⟨fun h _ => h, fun h => h hoff⟩
    unfold tcpSendLoop
    rw [if_neg hoff]
    exact iff_of_true (fun _ _ heq => by simp at heq) fun h => absurd h hoff
  unfold doSysSendto inetUncut
  simp only [Option.getD_none, true_and]
  have hpure : ∀ r : Except Errno ℕ, ∀ net' err,
      (net, (ret r : Stretch (Option ℕ) _)) = (net', .ret (.error err)) → net' = net :=
    fun r net' err heq => (Prod.mk.inj heq).1.symm
  split
  · rename_i hused
    exact iff_of_true (hpure _) (.inl (by simpa using hused))
  rename_i hused
  have hused' : ¬ s.used = false := by simpa using hused
  rw [or_iff_right hused']
  split
  · rename_i hlen
    exact iff_of_true (hpure _) (.inl hlen)
  rename_i hlen
  split
  · rename_i hconn
    exact iff_of_true (hpure _) (.inr (.inl (by simpa using hconn)))
  rename_i hconn
  split
  · rename_i hudp
    refine iff_of_true ?_ (.inr (.inr (.inl hudp)))
    intro net' err heq
    obtain ⟨rfl, herr⟩ := Prod.mk.inj heq
    exact udpSend_error (ext rfl (ret.inj herr))
  rename_i hudp
  have hconn' : ¬ s.connected = false := by simpa using hconn
  rw [or_iff_right hlen, or_iff_right hconn', or_iff_right hudp]
  split
  · simp only [waits_error]
    rw [← tcpSendLoop_clean _ false net 0 (Nat.lt_succ_self _)]
    simp
  rename_i htcp
  split
  · rename_i hbig
    exact iff_of_true (hpure _) (.inl hbig)
  rename_i hbig
  split
  · rename_i hread
    exact iff_of_true (hpure _) (.inr (.inl (by simpa using hread)))
  rename_i hread
  have hread' : ¬ buf.rangeOk 0 buf.data.length = false := by simpa using hread
  rw [or_iff_right (by omega), or_iff_right hread']
  split
  swap
  · rename_i hping
    exact iff_of_true (hpure _) (.inl (by simpa using hping))
  rename_i hping
  rw [or_iff_right (by simp [hping])]
  by_cases hroute : ans.routed = true
  · refine iff_of_true ?_ (.inl hroute)
    intro net' err heq
    obtain ⟨rfl, herr⟩ := Prod.mk.inj heq
    have hno := (pingSend_error (ext rfl (ret.inj herr))).2.1
    rw [hroute] at hno
    exact Bool.noConfusion hno
  by_cases hshort : buf.data.length < 8
  · refine iff_of_true ?_ (.inr (.inl hshort))
    intro net' err heq
    obtain ⟨rfl, herr⟩ := Prod.mk.inj heq
    have hlong := (pingSend_error (ext rfl (ret.inj herr))).1
    omega
  rw [or_iff_right hroute, or_iff_right hshort]
  rw [pingSend_failed (by omega) (by simpa using hroute)]
  constructor
  · intro h
    have hsame := h _ .enetunreach rfl
    exact ⟨(congrArg NetSocket.pingHw hsame).symm, (congrArg NetSocket.pingIdBe hsame).symm⟩
  · rintro ⟨hhw, hid⟩ net' err heq
    rw [← (Prod.mk.inj heq).1]
    dsimp only
    rw [← hid, ← hhw]

theorem doSysSendto_wait {off' : Option ℕ} (h : doSysSendto s nonblock buf off ans net = (net', .wait off')) :
    off'.getD 0 = 0 ↔ off.getD 0 = 0 ∧ net' = net := by
  rcases off with _ | off
  · unfold doSysSendto at h
    dsimp only at h
    split at h
    · simp at h
    split at h
    · simp at h
    split at h
    · simp at h
    split at h
    · simp [doSysSendto.returns] at h
    split at h
    · obtain ⟨off1, rfl, hout⟩ := waits_wait.mp h
      exact tcpSendLoop_wait_iff _ hout
    split at h
    · simp at h
    split at h
    · simp at h
    split at h
    · simp [doSysSendto.returns] at h
    · simp at h
  · unfold doSysSendto at h
    obtain ⟨off1, rfl, hout⟩ := waits_wait.mp h
    exact tcpSendLoop_wait_iff _ hout

end Tcp

/-! ## Files -/

section Files

variable {vfs : Vfs σ} {fs : σ} {e : FdEntry}

/-- After the first piece a write of a file returns what it has written. -/
theorem writeRegular_later (vfs : Vfs σ) (rangeOk : ℕ → ℕ → Bool) (sb n : ℕ) (fs : σ) (e : FdEntry) {total : ℕ}
    (h : total ≠ 0) (data : List UInt8) :
    ∃ w, (writeRegular vfs rangeOk sb n fs e total data).2.2 = .ok w := by
  induction n generalizing fs e total data with
  | zero => exact ⟨total, rfl⟩
  | succ n ih =>
    unfold writeRegular
    dsimp only
    simp only [if_neg h]
    generalize (if hasFlag e.flags linuxOAppend then { e with pos := e.inode.size } else e) = e1
    split
    · exact ⟨total, rfl⟩
    split
    · exact ⟨total, rfl⟩
    split
    · exact ⟨total, rfl⟩
    split
    · exact ⟨total, rfl⟩
    split
    · exact ⟨_, rfl⟩
    · exact ih _ _ (by omega) _

theorem writeDevice_refused (h : e.inode.type ≠ vfsInodeChr ∧ e.inode.type ≠ vfsInodeBlk)
    (rangeOk : ℕ → ℕ → Bool) (n : ℕ) (data : List UInt8) :
    (writeDevice vfs rangeOk n fs e 0 data).1 = fs ∧ (writeDevice vfs rangeOk n fs e 0 data).2.1 = e := by
  have hpiece : ∀ piece, writePiece vfs fs e piece = (fs, -1) := by
    intro piece
    unfold writePiece
    rw [if_neg h.1, if_neg h.2]
  rcases n with _ | n
  · exact ⟨rfl, rfl⟩
  unfold writeDevice
  simp only [hpiece, h.1, false_and, if_false]
  split
  · exact ⟨rfl, rfl⟩
  split
  · exact ⟨rfl, rfl⟩
  · exact ⟨rfl, rfl⟩

theorem writeRegular_clean (rangeOk : ℕ → ℕ → Bool) (sb : ℕ) {data : List UInt8} (hlen : data.length ≠ 0) :
    (∀ err, (writeRegular vfs rangeOk sb data.length fs e 0 data).2.2 = .error err →
        (writeRegular vfs rangeOk sb data.length fs e 0 data).1 = fs ∧
        (writeRegular vfs rangeOk sb data.length fs e 0 data).2.1 = e) ↔
      let piece := data.take (2 ^ 20)
      let pos := if hasFlag e.flags linuxOAppend then e.inode.size else e.pos
      let out := vfs.write fs sb e.inode (pos % 2 ^ 32) piece
      rangeOk 0 piece.length = true → out.2.2 < 0 → out.1 = fs ∧ out.2.1 = e.inode.size ∧ pos = e.pos := by
  obtain ⟨n, hn⟩ : ∃ n, data.length = n + 1 := ⟨data.length - 1, by omega⟩
  have hpiece : (data.take (2 ^ 20)).length ≠ 0 := by
    rw [length_take]
    omega
  rw [hn]
  by_cases hr : rangeOk 0 (data.take (2 ^ 20)).length = true
  swap
  · rw [writeRegular, if_neg hpiece, if_pos (by simpa only [Bool.not_eq_true', Bool.not_eq_true] using hr)]
    exact iff_of_true (fun _ _ => ⟨rfl, rfl⟩) fun h => absurd h hr
  obtain ⟨pos, hpos⟩ : ∃ pos, pos = if hasFlag e.flags linuxOAppend then e.inode.size else e.pos := ⟨_, rfl⟩
  rcases hout : vfs.write fs sb e.inode (pos % 2 ^ 32) (data.take (2 ^ 20)) with ⟨fs', size, w⟩
  rw [writeRegular_piece hpos hpiece hr hout]
  dsimp only
  rw [← hpos, hout]
  dsimp only
  by_cases hw : w < 0
  · rw [if_pos hw]
    constructor
    · intro h _ _
      obtain ⟨hfs, he⟩ := h .einval rfl
      exact ⟨hfs, congrArg (fun e : FdEntry => e.inode.size) he, congrArg FdEntry.pos he⟩
    · intro h err _
      obtain ⟨rfl, rfl, rfl⟩ := h hr hw
      exact ⟨rfl, rfl⟩
  rw [if_neg hw]
  refine iff_of_true ?_ fun _ h => absurd h hw
  intro err herr
  split at herr
  · simp at herr
  split at herr
  · simp at herr
  obtain ⟨w', hok⟩ := writeRegular_later vfs rangeOk sb n fs'
    { e with pos := pos + w.toNat, inode := { e.inode with size := size } }
    (show 0 + w.toNat ≠ 0 by omega) (data.drop w.toNat)
  rw [hok] at herr
  simp at herr

theorem fileWrite_clean {f : RegularFile} (hlen : buf.data.length ≠ 0) :
    (∀ err, (fileWrite vfs (fs, f) buf).2 = .error err →
        (fileWrite vfs (fs, f) buf).1.1 = fs ∧ (fileWrite vfs (fs, f) buf).1.2.entry = f.entry) ↔
      fileUncut vfs fs f.entry buf := by
  unfold fileWrite RegularFile.put writeVfs fileUncut
  dsimp only
  split
  · rename_i hdir
    exact iff_of_true (fun _ _ => ⟨rfl, rfl⟩) fun _ _ _ h => absurd hdir h
  rename_i hdir
  split
  · rename_i sb hsb
    split
    · rename_i hw
      rw [writeRegular_clean buf.rangeOk sb hlen]
      constructor
      · intro h sb' hsb' _ _
        rw [hsb] at hsb'
        obtain rfl := Option.some.inj hsb'
        exact h
      · intro h
        exact h sb hsb hw.2.2 hdir
    · rename_i hw
      refine iff_of_true (fun _ _ => writeDevice_refused f.noDevice _ _ _) ?_
      intro sb' hsb' hhas
      rw [hsb] at hsb'
      obtain rfl := Option.some.inj hsb'
      exact absurd ⟨f.noDevice.1, f.noDevice.2, hhas⟩ hw
  · rename_i hsb
    refine iff_of_true (fun _ _ => writeDevice_refused f.noDevice _ _ _) ?_
    intro sb' hsb'
    rw [hsb] at hsb'
    simp at hsb'

end Files

/-! ## Any kind -/

theorem unix_stretch {x : (unix : WriteKind σ).Object} (h : ¬ (off = none ∧ buf.data.length = 0)) :
    (unix : WriteKind σ).stretch buf nonblock interrupted off x =
      ((sendLoop buf nonblock interrupted (buf.data.length - off.getD 0 + 1) x (off.getD 0)).1,
        (sendLoop buf nonblock interrupted (buf.data.length - off.getD 0 + 1) x (off.getD 0)).2.stretch) :=
  if_neg h

/-- A stretch of a write that fails has delivered nothing, and neither have those before it, exactly if
no error comes after a byte. -/
theorem WriteKind.stretch_clean (k : WriteKind σ) (hlen : buf.data.length ≠ 0) (off : Option ℕ) (x : k.Object) :
    (∀ x' err, k.stretch (k.buffer buf) nonblock interrupted off x = (x', .ret (.error err)) →
        k.Fresh off ∧ k.Same x x') ↔
      k.Uncut (k.buffer buf) nonblock interrupted off x := by
  cases k with
  | pipe =>
    have hclean : (∀ x' err, (pipe : WriteKind σ).stretch buf nonblock interrupted off x =
        (x', .ret (.error err)) → (pipe : WriteKind σ).Same x x') ↔
          (pipe : WriteKind σ).Uncut buf nonblock interrupted off x :=
      (clean_stretch id).trans (pipeWriteFrom_clean hlen)
    exact ⟨fun h => hclean.mp fun x' err heq => (h x' err heq).2,
      fun h x' err heq => ⟨trivial, hclean.mpr h x' err heq⟩⟩
  | pty side =>
    obtain ⟨t, peerRefs⟩ := x
    have hclean : (∀ x' err, (pty side : WriteKind σ).stretch buf nonblock interrupted off (t, peerRefs) =
        (x', .ret (.error err)) → (pty side : WriteKind σ).Same (t, peerRefs) x') ↔
          (pty side : WriteKind σ).Uncut buf nonblock interrupted off (t, peerRefs) :=
      (clean_stretch fun t => (t, peerRefs)).trans ptyWrite_clean
    exact ⟨fun h => hclean.mp fun x' err heq => (h x' err heq).2,
      fun h x' err heq => ⟨trivial, hclean.mpr h x' err heq⟩⟩
  | unix =>
    generalize (unix : WriteKind σ).buffer buf = buf
    by_cases hempty : off = none ∧ buf.data.length = 0
    · obtain ⟨rfl, hz⟩ := hempty
      have hstretch : (unix : WriteKind σ).stretch buf nonblock interrupted none x =
          (x, .ret (.error .einval)) := if_pos ⟨rfl, hz⟩
      rw [hstretch]
      refine iff_of_true (fun x' err heq => ⟨rfl, (Prod.mk.inj heq).1.symm⟩) fun hoff => ?_
      rw [hz] at hoff
      exact absurd hoff (Nat.not_lt_zero _)
    rw [unix_stretch hempty]
    by_cases hoff : off.getD 0 < buf.data.length
    · refine Iff.trans ?_ ((sendLoop_clean hoff x).trans ⟨fun h _ => h, fun h => h hoff⟩)
      constructor
      · intro h peer' err heq
        apply h peer' err
        rw [heq]
        rfl
      · intro h x' err heq
        obtain ⟨hpeer, hret⟩ := Prod.mk.inj heq
        exact h x' err (ext hpeer (sendStretch_ret.mp hret))
    · refine iff_of_true ?_ fun h => absurd h hoff
      intro x' err heq
      have hret := sendStretch_ret.mp (Prod.mk.inj heq).2
      have hdone := hret.symm.trans (congrArg Prod.snd (sendLoop_done hoff (buf.data.length - off.getD 0) x))
      exact absurd hdone (by simp)
  | inet s =>
    obtain ⟨net, ans⟩ := x
    generalize (inet s : WriteKind σ).buffer buf = buf
    refine Iff.trans ?_ doSysSendto_clean
    constructor
    · intro h net' err heq
      exact h (net', ans) err (by simp [stretch, heq])
    · intro h x' err heq
      obtain ⟨rfl, herr⟩ := Prod.mk.inj heq
      exact h _ err (ext rfl herr)
  | eventfd =>
    refine iff_of_true ?_ trivial
    have hclean : ∀ x' err, (eventfd : WriteKind σ).stretch buf nonblock interrupted off x =
        (x', .ret (.error err)) → (eventfd : WriteKind σ).Same x x' :=
      (clean_stretch id).mpr eventfdWrite_clean
    exact fun x' err heq => ⟨trivial, hclean x' err heq⟩
  | timerfd => exact iff_of_true (fun x' err heq => ⟨trivial, (Prod.mk.inj heq).1.symm⟩) trivial
  | signalfd => exact iff_of_true (fun x' err heq => ⟨trivial, (Prod.mk.inj heq).1.symm⟩) trivial
  | file vfs =>
    obtain ⟨fs, f⟩ := x
    refine Iff.trans ?_ (fileWrite_clean hlen)
    constructor
    · intro h err herr
      exact (h _ err (ext rfl (congrArg ret herr))).2
    · intro h x' err heq
      obtain ⟨rfl, herr⟩ := Prod.mk.inj heq
      exact ⟨trivial, h err (ret.inj herr)⟩
  | mouse => exact iff_of_true (fun x' err heq => ⟨trivial, trivial⟩) trivial

/-- A stretch of a write that waits: the call stays one that has done nothing, if it does nothing. -/
theorem WriteKind.stretch_waits (k : WriteKind σ) {off' : Option ℕ}
    {x x' : k.Object} (h : k.stretch buf nonblock interrupted off x = (x', .wait off')) :
    k.Fresh off' ↔ k.Fresh off ∧ k.Same x x' := by
  cases k with
  | pipe =>
    obtain ⟨rfl, hw⟩ := Prod.mk.inj h
    have hsame := pipeWriteFrom_wait (stretch_wait.mp hw).1
    exact iff_of_true trivial ⟨trivial, congrArg (fun p : Pipe => p.ring.contents edgePipeSize) hsame⟩
  | pty side =>
    obtain ⟨t, peerRefs⟩ := x
    obtain ⟨rfl, hw⟩ := Prod.mk.inj h
    have hsame := ptyWrite_wait (stretch_wait.mp hw).1
    refine iff_of_true trivial ⟨trivial, ?_, ?_⟩
    · exact congrArg (fun t : Tty => t.m2s.contents edgePtyBufSize) hsame
    · exact congrArg (fun t : Tty => t.s2m.contents edgePtyBufSize) hsame
  | unix =>
    by_cases hempty : off = none ∧ buf.data.length = 0
    · have hstretch : (unix : WriteKind σ).stretch buf nonblock interrupted off x =
          (x, .ret (.error .einval)) := if_pos hempty
      rw [hstretch] at h
      simp at h
    rw [unix_stretch hempty] at h
    obtain ⟨hpeer, hw⟩ := Prod.mk.inj h
    obtain ⟨off1, rfl, hsend⟩ := sendStretch_wait.mp hw
    exact sendLoop_wait (ext hpeer hsend)
  | inet s =>
    obtain ⟨net, ans⟩ := x
    obtain ⟨rfl, hw⟩ := Prod.mk.inj h
    exact doSysSendto_wait (ext rfl hw)
  | eventfd =>
    obtain ⟨rfl, hw⟩ := Prod.mk.inj h
    exact iff_of_true trivial ⟨trivial, eventfdWrite_wait (stretch_wait.mp hw).1⟩
  | timerfd =>
    obtain ⟨-, hw⟩ := Prod.mk.inj h
    simp at hw
  | signalfd =>
    obtain ⟨-, hw⟩ := Prod.mk.inj h
    simp at hw
  | file vfs =>
    obtain ⟨-, hw⟩ := Prod.mk.inj h
    simp at hw
  | mouse =>
    obtain ⟨-, hw⟩ := Prod.mk.inj h
    simp at hw

end Stretches

end EdgeOS
