import EdgeOS.FdTransfer

namespace EdgeOS

open Lib List

/-!
What a stretch of a read that fails or waits leaves behind, kind by kind.
-/

/-- Where the reading loop copies: after every 4096 bytes and after the last one. -/
def chunksCopied (copied : ℕ → ℕ → Bool) (n : ℕ) : Prop :=
  ∀ i < n, i % chunkSize = chunkSize - 1 ∨ i + 1 = n → copied (i - i % chunkSize) (i % chunkSize + 1) = true

section Reads

variable {σ : Type}

/-- The pieces of a file that a read of `len` bytes asks the driver for, each with its offset from the
position; the last one is short, empty, or one that the driver refuses. -/
def filePieces (reads : VfsReads σ) (fs : σ) (e : FdEntry) (len : ℕ) : ℕ → ℕ → List (ℕ × Option (List UInt8))
  | 0, _ => []
  | fuel + 1, done =>
    let n := min (len - done) 4096
    if n = 0 then []
    else
      match readPiece reads fs { e with pos := e.pos + done } n with
      | none => [(done, none)]
      | some (_, bytes) =>
        (done, some bytes) ::
          if bytes.length = 0 ∨ bytes.length < n then [] else filePieces reads fs e len fuel (done + bytes.length)

def ReadKind.Same : (k : ReadKind σ) → k.Object → k.Object → Prop
  | .pipe, p, p' => p'.ring.contents edgePipeSize = p.ring.contents edgePipeSize
  | .pty side, (t, _), (t', _) =>
    (t'.source side).contents edgePtyBufSize = (t.source side).contents edgePtyBufSize
  | .socket s, inc, inc' =>
    socketTryFillPingHwReply s inc'.rx inc'.reply = socketTryFillPingHwReply s inc.rx inc.reply
  | .eventfd, ev, ev' => ev' = ev
  | .timerfd, (tf, _), (tf', _) => tf' = tf
  | .signalfd .., t, t' => t' = t
  | .file _, (_, f), (_, f') => f'.entry = f.entry
  | .mouse, queue, queue' => queue' = queue

/-- There is nothing to read, or the buffer takes what there is. Sockets copy before they consume. A
timer whose next expiration wraps around to the last one stays as it is. -/
def ReadKind.Taken (buf : ReadBuf) : (k : ReadKind σ) → k.Object → Prop
  | .pipe, p => p.used = false ∨ p.ring.count = 0 ∨ chunksCopied buf.copied (min buf.len p.ring.count)
  | .pty side, (t, _) => t.inputMissing side = true ∨ chunksCopied buf.copied (t.readSize side buf.len)
  | .socket _, _ => True
  | .eventfd, ev => buf.len < 8 ∨ ev.used = false ∨ ev.counter = 0 ∨ buf.copied 0 8 = true
  | .timerfd, (tf, now) =>
    let cnt := (timerfdExpireCount tf now false).2
    buf.len < 8 ∨ cnt = 0 ∨ tf.intervalUs ≠ 0 ∧ cnt * tf.intervalUs = 0 ∨ buf.copied 0 8 = true
  | .signalfd sf _ _, t =>
    buf.len < siginfoSize ∨ sf.used = false ∨ sf.peek t = none ∨ buf.copied 0 siginfoSize = true
  | .file reads, (fs, f) => f.entry.inode.type = vfsInodeDir ∨
    ∀ x ∈ filePieces reads fs f.entry buf.len buf.len 0, match x.2 with
      | none => x.1 = 0
      | some bytes => bytes = [] ∨ buf.copied x.1 bytes.length = true
  | .mouse, queue =>
    queue = [] ∨ buf.copied 0 (min (min buf.len mouseChunk) queue.length) = true

end Reads

/-! ## Rings -/

section Rings

variable {n : ℕ}

theorem drainInto_ok (copied : ℕ → ℕ → Bool) (size k i : ℕ) (st : RingBuffer UInt8 × Bounce) :
    (∃ b, (drainInto copied size n k st i).2 = .ok b) ↔
      ∀ j, i ≤ j → j < i + k → j % chunkSize = chunkSize - 1 ∨ j + 1 = n →
        copied (j - j % chunkSize) (j % chunkSize + 1) = true := by
  induction k generalizing i st with
  | zero =>
    refine ⟨fun _ j hj hlt => absurd hlt (by omega), fun _ => ⟨st.2, rfl⟩⟩
  | succ k ih =>
    unfold drainInto
    split
    · rename_i hfault
      have hnot : copied (i - i % chunkSize) (i % chunkSize + 1) ≠ true := by simpa using hfault.2
      refine ⟨fun h => ?_, fun h => absurd (h i le_rfl (by omega) hfault.1) hnot⟩
      obtain ⟨b, hb⟩ := h
      simp at hb
    rename_i hgood
    rw [ih]
    constructor
    · intro h j hj hlt hend
      rcases Nat.eq_or_lt_of_le hj with rfl | hlater
      · by_contra hc
        exact hgood ⟨hend, by simpa using hc⟩
      · exact h j hlater (by omega) hend
    · intro h j hj hlt hend
      exact h j (by omega) (by omega) hend

theorem drainInto_ok_iff (copied : ℕ → ℕ → Bool) (size : ℕ) (st : RingBuffer UInt8 × Bounce) :
    (∃ b, (drainInto copied size n n st 0).2 = .ok b) ↔ chunksCopied copied n := by
  rw [drainInto_ok]
  constructor
  · intro h i hi hend
    exact h i (Nat.zero_le i) (by omega) hend
  · intro h i _ hi hend
    exact h i (by omega) hend

theorem pops_count (size : ℕ) (r : RingBuffer UInt8) (j : ℕ) : ((RingBuffer.pop size)^[j] r).count = r.count - j := by
  induction j with
  | zero => rfl
  | succ j ih =>
    rw [Function.iterate_succ_apply']
    change ((RingBuffer.pop size)^[j] r).count - 1 = _
    omega

/-- A read whose buffer takes all of it does not fail; any other one fails and has taken bytes. -/
theorem drainInto_clean (copied : ℕ → ℕ → Bool) (size : ℕ) {r : RingBuffer UInt8} (hn : n ≠ 0) (hr : r.count ≠ 0) (b : Bounce) :
    (∀ err, filled n (drainInto copied size n n (r, b) 0).2 = .error err →
        (drainInto copied size n n (r, b) 0).1.contents size = r.contents size) ↔
      chunksCopied copied n := by
  rw [← drainInto_ok_iff copied size (r, b)]
  obtain ⟨j, -, hj, hring, hout⟩ := drainInto_pops copied size n n 0 (r, b)
  constructor
  · intro h
    rcases hout with herr | ⟨-, b', hok⟩
    · exfalso
      have hsame := congrArg List.length (h .efault (by rw [herr]; rfl))
      rw [hring, RingBuffer.length_contents, RingBuffer.length_contents, pops_count] at hsame
      have := hj (by omega)
      dsimp only at hsame
      omega
    · exact ⟨b', hok⟩
  · rintro ⟨b', hok⟩ err herr
    rw [hok] at herr
    simp [filled, Except.map] at herr

end Rings

/-! ## One stretch of a read -/

@[simp] theorem stretch_error {α ρ : Type} {count : α → ℕ} {l : ρ} {o : Outcome α} {err : Errno} :
    o.stretch count l = .ret (.error err) ↔ o = .ret (.error err) := by
  rcases o with (_ | _) | _ <;> simp [Outcome.stretch, Except.map]

@[simp] theorem stretch_wait {α ρ : Type} {count : α → ℕ} {l l' : ρ} {o : Outcome α} :
    o.stretch count l = .wait l' ↔ o = .wait ∧ l' = l := by
  rcases o with (_ | _) | _ <;> simp [Outcome.stretch, eq_comm]

section Stretches

variable {σ : Type} {nonblock interrupted : Bool} {buf : ReadBuf} {b : Bounce}

def Clean {τ α : Type} (same : τ → τ → Prop) (x : τ) (out : τ × Outcome α) : Prop :=
  ∀ err, out.2 = .ret (.error err) → same x out.1

theorem pipeReadInto_clean {p : Pipe} (hlen : buf.len ≠ 0) :
    Clean (fun p p' : Pipe => p'.ring.contents edgePipeSize = p.ring.contents edgePipeSize) p
        (pipeReadInto p nonblock interrupted buf b) ↔
      p.used = false ∨ p.ring.count = 0 ∨ chunksCopied buf.copied (min buf.len p.ring.count) := by
  unfold Clean pipeReadInto
  split
  · rename_i hu
    exact iff_of_true (fun _ _ => rfl) (.inl (by simpa using hu))
  rename_i hu
  split
  · rename_i hc
    split <;> exact iff_of_true (fun _ _ => rfl) (.inr (.inl hc))
  rename_i hc
  have hdrain := drainInto_clean (n := min buf.len p.ring.count) buf.copied edgePipeSize (by omega) hc b
  simp only [Outcome.ret.injEq]
  rw [hdrain]
  have hused : p.used = true := by simpa using hu
  simp [hused, hc]

theorem ptyRead_clean {t : Tty} {side : PtySide} {peerRefs : ℕ} :
    Clean (fun t t' : Tty => (t'.source side).contents edgePtyBufSize = (t.source side).contents edgePtyBufSize) t
        (ptyRead t side peerRefs nonblock interrupted buf b) ↔
      t.inputMissing side = true ∨ chunksCopied buf.copied (t.readSize side buf.len) := by
  unfold Clean ptyRead
  split
  · rename_i hm
    refine iff_of_true ?_ (.inl hm)
    intro err _
    split
    · rfl
    split
    · rfl
    split <;> rfl
  rename_i hm
  have hc : (t.source side).count ≠ 0 := by
    intro hz
    exact hm (by simp [Tty.inputMissing, hz])
  by_cases hn : t.readSize side buf.len = 0
  · refine iff_of_true ?_ (.inr ?_)
    · rw [hn]
      intro err herr
      simp [drainInto, filled, Except.map] at herr
    · rw [hn]
      intro i hi
      omega
  have hdrain := drainInto_clean buf.copied edgePtyBufSize hn hc b
  simp only [Outcome.ret.injEq]
  cases side <;> simpa [hm, Tty.setSource, Tty.source] using hdrain

theorem eventfdRead_clean {ev : EventFd} :
    Clean (fun ev ev' : EventFd => ev' = ev) ev (eventfdRead ev nonblock interrupted buf) ↔
      buf.len < 8 ∨ ev.used = false ∨ ev.counter = 0 ∨ buf.copied 0 8 = true := by
  unfold Clean eventfdRead
  split
  · rename_i h
    exact iff_of_true (fun _ _ => rfl) (.inl h)
  rename_i h1
  split
  · rename_i h
    exact iff_of_true (fun _ _ => rfl) (.inr (.inl (by simpa using h)))
  rename_i h2
  split
  · rename_i h
    exact iff_of_true (fun _ _ => rfl) (.inr (.inr (.inl h)))
  rename_i h3
  have hchanged : ev.take.1 ≠ ev := by
    intro heq
    have hcounter := congrArg EventFd.counter heq
    unfold EventFd.take at hcounter
    split at hcounter
    · have hone : ev.counter - 1 = ev.counter := hcounter
      have hback : ev.counter - 1 + 1 = ev.counter + 1 := by rw [hone]
      rw [UInt64.sub_add_cancel] at hback
      have hz : (1 : UInt64) = 0 := by simpa using hback.symm
      exact absurd hz (by decide)
    · exact h3 hcounter.symm
  have hused : ev.used = true := by simpa using h2
  by_cases hcopy : buf.copied 0 8 = true <;> simp [hcopy, hchanged, hused, h1, h3]

/-- An expiration that is consumed shows, unless the next one wraps around. -/
theorem timerfdExpireCount_eq (tf : TimerFd) (now : UInt64) :
    (timerfdExpireCount tf now true).2 = (timerfdExpireCount tf now false).2 ∧
      ((timerfdExpireCount tf now true).1 = tf ↔ (timerfdExpireCount tf now false).2 = 0 ∨
          tf.intervalUs ≠ 0 ∧ (timerfdExpireCount tf now false).2 * tf.intervalUs = 0) := by
  unfold timerfdExpireCount
  split
  · simp
  rename_i hactive
  split
  · simp
  split
  · rename_i hint
    have hne : tf.intervalUs ≠ 0 := by
      intro hz
      rw [hz] at hint
      exact absurd hint (by decide)
    refine ⟨rfl, ?_⟩
    dsimp only
    generalize (if now > tf.nextUs then 1 + (now - tf.nextUs) / tf.intervalUs else 1) = cnt
    simp only [if_true]
    constructor
    · intro heq
      have hnext : tf.nextUs + cnt * tf.intervalUs = tf.nextUs := congrArg TimerFd.nextUs heq
      right
      refine ⟨hne, ?_⟩
      simpa using hnext
    · intro h
      have hz : cnt * tf.intervalUs = 0 := by
        rcases h with h | h
        · rw [h, UInt64.zero_mul]
        · exact h.2
      rw [hz, UInt64.add_zero]
  · rename_i hint
    have hz : tf.intervalUs = 0 := by
      by_contra hne
      exact hint (UInt64.pos_iff_ne_zero.mpr hne)
    refine ⟨rfl, ?_⟩
    constructor
    · intro heq
      have hoff : false = tf.active := congrArg TimerFd.active heq
      simp [← hoff] at hactive
    · simp [hz]

theorem timerfdRead_clean {tf : TimerFd} {now : UInt64} :
    Clean (fun tf tf' : TimerFd => tf' = tf) tf (timerfdRead tf now nonblock interrupted buf) ↔
      buf.len < 8 ∨ (timerfdExpireCount tf now false).2 = 0 ∨
        tf.intervalUs ≠ 0 ∧ (timerfdExpireCount tf now false).2 * tf.intervalUs = 0 ∨ buf.copied 0 8 = true := by
  obtain ⟨hcnt, hsame⟩ := timerfdExpireCount_eq tf now
  unfold Clean timerfdRead
  split
  · rename_i h
    exact iff_of_true (fun _ _ => rfl) (.inl h)
  rename_i h1
  split
  · rename_i h
    refine iff_of_true (fun _ _ => rfl) (.inr (.inl ?_))
    simp [timerfdExpireCount, h]
  dsimp only
  rw [hcnt]
  split
  · rename_i h
    exact iff_of_true (fun _ _ => hsame.mpr (.inl h)) (.inr (.inl h))
  rename_i h3
  by_cases hcopy : buf.copied 0 8 = true
  · simp [hcopy]
  · simp [hcopy, hsame, h1, h3]

theorem peek_ne {sf : SignalFd} {t t' : Signals} {sig : ℕ} (h : sf.peek t = some (sig, t')) : t' ≠ t := by
  unfold SignalFd.peek at h
  rintro rfl
  split at h
  · rename_i hsig
    have hp : false = t'.sigintPending := congrArg (fun x => x.2.sigintPending) (Option.some.inj h)
    simp [← hp] at hsig
  split at h
  · rename_i hsig
    have hp : false = t'.sigtermPending := congrArg (fun x => x.2.sigtermPending) (Option.some.inj h)
    simp [← hp] at hsig
  split at h
  · rename_i hsig
    have hp : false = t'.sigalrmPending := congrArg (fun x => x.2.sigalrmPending) (Option.some.inj h)
    simp [← hp] at hsig
  split at h
  · rename_i hsig
    have hp : false = t'.sigchldPending := congrArg (fun x => x.2.sigchldPending) (Option.some.inj h)
    simp [← hp] at hsig
  · simp at h

theorem signalfdRead_clean {sf : SignalFd} {t : Signals} {pid : ℤ} {uid : ℕ} :
    Clean (fun t t' : Signals => t' = t) t (signalfdRead sf t pid uid nonblock buf) ↔
      buf.len < siginfoSize ∨ sf.used = false ∨ sf.peek t = none ∨ buf.copied 0 siginfoSize = true := by
  unfold Clean signalfdRead signalfdPeekCurrent
  split
  · rename_i h
    exact iff_of_true (fun _ _ => rfl) (.inl h)
  rename_i h1
  split
  · rename_i h
    exact iff_of_true (fun _ _ => rfl) (.inr (.inl (by simpa using h)))
  rename_i h2
  have hused : sf.used = true := by simpa using h2
  rcases hpeek : sf.peek t with _ | ⟨sig, t'⟩
  · simp
  · have hne := peek_ne hpeek
    by_cases hcopy : buf.copied 0 siginfoSize = true <;> simp [hcopy, hne, hused, h1]

theorem tryFill_of_ne {s : Socket} {rx : List UInt8} (h : rx ≠ []) (reply : Option (List UInt8)) :
    socketTryFillPingHwReply s rx reply = rx := by
  unfold socketTryFillPingHwReply
  rw [if_pos h]

theorem tryFill_none (s : Socket) (rx : List UInt8) : socketTryFillPingHwReply s rx none = rx := by
  unfold socketTryFillPingHwReply
  simp

/-- A receive consumes only what it has copied, so that one that fails or waits keeps all of it. -/
theorem receive_keeps {s : Socket} {inc : Incoming}
    (h : ∀ bytes, (inc.receive s nonblock interrupted buf).2 ≠ .ret (.ok bytes)) :
    socketTryFillPingHwReply s (inc.receive s nonblock interrupted buf).1.rx
        (inc.receive s nonblock interrupted buf).1.reply =
      socketTryFillPingHwReply s inc.rx inc.reply := by
  unfold Incoming.receive doSysRecvfrom at h ⊢
  by_cases hu : (!s.used) = true
  · rw [if_pos hu]
  rw [if_neg hu] at h ⊢
  dsimp only at h ⊢
  by_cases hend : inc.rx = [] ∧ s.type = linuxSockStream ∧ s.closed = true
  · rw [if_pos hend] at h
    exact absurd rfl (h [])
  rw [if_neg hend] at h ⊢
  by_cases hrx : socketTryFillPingHwReply s inc.rx inc.reply = []
  · have hempty : inc.rx = [] := by
      by_contra hne
      rw [tryFill_of_ne hne] at hrx
      exact hne hrx
    simp only [hrx, if_true, if_pos hempty, tryFill_none]
    split
    · rfl
    split
    · rfl
    split <;> rfl
  · simp only [hrx, if_false] at h ⊢
    unfold recvTake at h ⊢
    dsimp only at h ⊢
    by_cases hcopy : (!buf.copied 0 (min (socketTryFillPingHwReply s inc.rx inc.reply).length
        (buf.len % 2 ^ 32))) = true
    · rw [if_pos hcopy]
      exact tryFill_of_ne hrx _
    · rw [if_neg hcopy, if_neg (by simp)] at h
      split at h <;> exact absurd rfl (h _)

theorem mouseRead_clean {queue : List UInt8} (hlen : buf.len ≠ 0) :
    Clean (fun queue queue' : List UInt8 => queue' = queue) queue (mouseRead queue nonblock interrupted buf) ↔
      queue = [] ∨ buf.copied 0 (min (min buf.len mouseChunk) queue.length) = true := by
  unfold Clean mouseRead keyboardMouseRead
  have hchunk : mouseChunk = 256 := rfl
  rw [if_neg hlen]
  dsimp only
  rcases queue with _ | ⟨c, queue⟩
  · exact iff_of_true (fun _ _ => by simp) (.inl rfl)
  have hne : (c :: queue).take (min buf.len mouseChunk) ≠ [] := by
    simp [take_eq_nil_iff, hlen]
  have hdrop : (c :: queue).drop (min buf.len mouseChunk) ≠ c :: queue := by
    intro heq
    have hl := congrArg List.length heq
    rw [length_drop, length_cons] at hl
    omega
  rw [if_neg hne, length_take]
  by_cases hcopy : buf.copied 0 (min (min buf.len mouseChunk) (c :: queue).length) = true
  · rw [if_pos hcopy]
    exact iff_of_true (fun err herr => by simp at herr) (.inr hcopy)
  · rw [if_neg hcopy]
    exact iff_of_false (fun h => hdrop (h .efault rfl)) (not_or.mpr ⟨by simp, hcopy⟩)

/-! ### Files -/

variable {reads : VfsReads σ} {fs : σ}

/-- A file that is no device moves by what the driver returns. -/
theorem readPiece_pos {e e' : FdEntry} (h : e.inode.type ≠ vfsInodeChr ∧ e.inode.type ≠ vfsInodeBlk)
    {d n : ℕ} {bytes : List UInt8}
    (hp : readPiece reads fs { e with pos := e.pos + d } n = some (e', bytes)) :
    e' = { e with pos := e.pos + (d + bytes.length) } := by
  unfold readPiece at hp
  rw [if_neg (not_or.mpr h)] at hp
  dsimp only at hp
  split at hp
  · simp at hp
  split at hp
  · obtain ⟨_, -, heq⟩ := Option.map_eq_some_iff.mp hp
    obtain ⟨rfl, rfl⟩ := Prod.mk.inj heq
    rw [Nat.add_assoc]
  · simp at hp

theorem readLoop_clean {e : FdEntry} (h : e.inode.type ≠ vfsInodeChr ∧ e.inode.type ≠ vfsInodeBlk)
    (fuel : ℕ) (done : List UInt8) :
    (∀ err, (readLoop reads fs buf fuel { e with pos := e.pos + done.length } done).2 = .error err →
        (readLoop reads fs buf fuel { e with pos := e.pos + done.length } done).1 = e) ↔
      ∀ x ∈ filePieces reads fs e buf.len fuel done.length, match x.2 with
        | none => x.1 = 0
        | some bytes => bytes = [] ∨ buf.copied x.1 bytes.length = true := by
  induction fuel generalizing done with
  | zero => simp [readLoop, filePieces]
  | succ fuel ih =>
    have hpos : ∀ d, { e with pos := e.pos + d } = e ↔ d = 0 := by
      intro d
      constructor
      · intro heq
        have : e.pos + d = e.pos := congrArg FdEntry.pos heq
        omega
      · rintro rfl
        rfl
    unfold readLoop filePieces
    dsimp only
    split
    · simp
    rcases hp : readPiece reads fs { e with pos := e.pos + done.length } (min (buf.len - done.length) 4096)
      with _ | ⟨e', bytes⟩
    · simp [hpos]
    obtain rfl := readPiece_pos h hp
    dsimp only
    split
    · rename_i hnil
      simp [length_eq_zero_iff.mp hnil]
    rename_i hne
    have hbytes : bytes ≠ [] := fun hnil => hne (by rw [hnil]; rfl)
    split
    · rename_i hcopy
      have hcopy' : buf.copied done.length bytes.length = false := by simpa using hcopy
      refine iff_of_false (fun hc => ?_) (fun hall => ?_)
      · have hz := (hpos _).mp (hc .efault rfl)
        omega
      · have hhead := hall _ (mem_cons_self ..)
        simp [hbytes, hcopy'] at hhead
    rename_i hcopy
    have hcopy' : buf.copied done.length bytes.length = true := by simpa using hcopy
    rw [forall_mem_cons]
    dsimp only
    simp only [hcopy', or_true, true_and]
    split
    · rename_i hshort
      rw [if_pos (.inr hshort)]
      simp
    rename_i hfull
    rw [if_neg (not_or.mpr ⟨hne, hfull⟩)]
    have hnext := ih (done ++ bytes)
    rw [length_append] at hnext
    exact hnext

theorem fileRead_clean {f : RegularFile} :
    (∀ err, (fileRead reads (fs, f) buf).2 = .error err → (fileRead reads (fs, f) buf).1.2.entry = f.entry) ↔
      f.entry.inode.type = vfsInodeDir ∨ ∀ x ∈ filePieces reads fs f.entry buf.len buf.len 0, match x.2 with
          | none => x.1 = 0
          | some bytes => bytes = [] ∨ buf.copied x.1 bytes.length = true := by
  unfold fileRead RegularFile.put readVfs
  dsimp only
  split
  · rename_i hdir
    exact iff_of_true (fun _ _ => rfl) (.inl hdir)
  rename_i hdir
  rw [or_iff_right hdir]
  exact readLoop_clean f.noDevice buf.len []

/-! ### Waiting -/

theorem pipeReadInto_wait {p : Pipe} (h : (pipeReadInto p nonblock interrupted buf b).2 = .wait) :
    (pipeReadInto p nonblock interrupted buf b).1 = p := by
  unfold pipeReadInto at h ⊢
  grind

theorem ptyRead_wait {t : Tty} {side : PtySide} {peerRefs : ℕ}
    (h : (ptyRead t side peerRefs nonblock interrupted buf b).2 = .wait) :
    (ptyRead t side peerRefs nonblock interrupted buf b).1 = t := by
  unfold ptyRead at h ⊢
  grind

theorem eventfdRead_wait {ev : EventFd} (h : (eventfdRead ev nonblock interrupted buf).2 = .wait) :
    (eventfdRead ev nonblock interrupted buf).1 = ev := by
  unfold eventfdRead at h ⊢
  grind

theorem timerfdRead_wait {tf : TimerFd} {now : UInt64} (h : (timerfdRead tf now nonblock interrupted buf).2 = .wait) :
    (timerfdRead tf now nonblock interrupted buf).1 = tf := by
  obtain ⟨hcnt, hsame⟩ := timerfdExpireCount_eq tf now
  unfold timerfdRead at h ⊢
  grind

theorem signalfdRead_wait {sf : SignalFd} {t : Signals} {pid : ℤ} {uid : ℕ}
    (h : (signalfdRead sf t pid uid nonblock buf).2 = .wait) :
    (signalfdRead sf t pid uid nonblock buf).1 = t := by
  unfold signalfdRead signalfdPeekCurrent at h ⊢
  grind

theorem mouseRead_wait {queue : List UInt8} (h : (mouseRead queue nonblock interrupted buf).2 = .wait) :
    (mouseRead queue nonblock interrupted buf).1 = queue := by
  unfold mouseRead keyboardMouseRead at h ⊢
  split at h
  · rename_i hlen
    rw [if_pos hlen]
  rename_i hlen
  rw [if_neg hlen]
  dsimp only at h ⊢
  split at h
  · rename_i hnil
    rw [if_pos hnil]
    have hchunk : mouseChunk = 256 := rfl
    rcases take_eq_nil_iff.mp hnil with hmin | rfl
    · omega
    · exact drop_nil
  · simp at h

/-! ### Any kind -/

/-- `put` adds to an object what a stretch of a call only looks at. -/
theorem clean_stretch {τ τ' α ρ : Type} {same : τ' → τ' → Prop} (put : τ → τ') {x : τ}
    {out : τ × Outcome α} {count : α → ℕ} {l : ρ} :
    (∀ x' err, (put out.1, out.2.stretch count l) = (x', Stretch.ret (Except.error err)) → same (put x) x') ↔
      Clean (fun x x' => same (put x) (put x')) x out := by
  constructor
  · intro h err herr
    exact h _ err (Prod.ext rfl (stretch_error.mpr herr))
  · intro h x' err heq
    obtain ⟨rfl, herr⟩ := Prod.mk.inj heq
    exact h err (stretch_error.mp herr)

/-- A stretch of a read that fails has taken nothing exactly if the buffer takes what there is. -/
theorem ReadKind.stretch_clean (k : ReadKind σ) (b : Bounce) (nonblock interrupted : Bool) (hlen : buf.len ≠ 0)
    (x : k.Object) :
    (∀ x' err, k.stretch buf b nonblock interrupted x = (x', .ret (.error err)) → k.Same x x') ↔ k.Taken buf x := by
  cases k with
  | pipe => exact (clean_stretch id).trans (pipeReadInto_clean hlen)
  | pty side =>
    obtain ⟨t, peerRefs⟩ := x
    exact (clean_stretch fun t => (t, peerRefs)).trans ptyRead_clean
  | socket s =>
    refine iff_of_true ?_ trivial
    intro x' err heq
    obtain ⟨rfl, herr⟩ := Prod.mk.inj heq
    apply receive_keeps
    rw [stretch_error.mp herr]
    simp
  | eventfd => exact (clean_stretch id).trans eventfdRead_clean
  | timerfd =>
    obtain ⟨tf, now⟩ := x
    exact (clean_stretch fun tf => (tf, now)).trans timerfdRead_clean
  | signalfd sf pid uid => exact (clean_stretch id).trans signalfdRead_clean
  | file reads =>
    obtain ⟨fs, f⟩ := x
    refine Iff.trans ?_ fileRead_clean
    constructor
    · intro h err herr
      apply h _ err
      change ((fileRead reads (fs, f) buf).1, Stretch.ret ((fileRead reads (fs, f) buf).2.map List.length)) = _
      rw [herr]
      rfl
    · intro h x' err heq
      obtain ⟨rfl, herr⟩ := Prod.mk.inj heq
      rcases hout : (fileRead reads (fs, f) buf).2 with err' | bytes
      · exact h err' hout
      · rw [hout] at herr
        simp [Except.map] at herr
  | mouse => exact (clean_stretch id).trans (mouseRead_clean hlen)

theorem ReadKind.stretch_waits (k : ReadKind σ) {x x' : k.Object} {l : Unit}
    (h : k.stretch buf b nonblock interrupted x = (x', .wait l)) : k.Same x x' := by
  cases k with
  | pipe =>
    obtain ⟨rfl, hw⟩ := Prod.mk.inj h
    have hsame := pipeReadInto_wait (stretch_wait.mp hw).1
    exact congrArg (fun p : Pipe => p.ring.contents edgePipeSize) hsame
  | pty side =>
    obtain ⟨t, peerRefs⟩ := x
    obtain ⟨rfl, hw⟩ := Prod.mk.inj h
    have hsame := ptyRead_wait (stretch_wait.mp hw).1
    exact congrArg (fun t : Tty => (t.source side).contents edgePtyBufSize) hsame
  | socket s =>
    obtain ⟨rfl, hw⟩ := Prod.mk.inj h
    apply receive_keeps
    rw [(stretch_wait.mp hw).1]
    simp
  | eventfd =>
    obtain ⟨rfl, hw⟩ := Prod.mk.inj h
    exact eventfdRead_wait (stretch_wait.mp hw).1
  | timerfd =>
    obtain ⟨tf, now⟩ := x
    obtain ⟨rfl, hw⟩ := Prod.mk.inj h
    exact timerfdRead_wait (stretch_wait.mp hw).1
  | signalfd sf pid uid =>
    obtain ⟨rfl, hw⟩ := Prod.mk.inj h
    exact signalfdRead_wait (stretch_wait.mp hw).1
  | file reads =>
    obtain ⟨-, hw⟩ := Prod.mk.inj h
    simp at hw
  | mouse =>
    obtain ⟨rfl, hw⟩ := Prod.mk.inj h
    exact mouseRead_wait (stretch_wait.mp hw).1

end Stretches

end EdgeOS
