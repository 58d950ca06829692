import EdgeOS.OpenSteps

namespace EdgeOS

open Lib Function

/-!
The socket calls keep the accounting, as long as no accept callback that finds room in a
queue fires between `socket_alloc`'s test of a slot and its claim.
-/

variable {R : Prop} {N : ℤ} {F : Holders} {G : ℕ → ℕ} {s s' : FdState}
variable {p : FdProcIdx} {i : FdIdx} {pid : ℤ}

namespace FdInv

theorem socketAlloc (h : FdInv R N F G s) {window : List ℕ}
    (hq : R → ∀ l ∈ window, AcceptQuiet s.objs l) {o : Objects} {sid : ℕ}
    (ha : EdgeOS.socketAlloc s.objs window = (o, some sid)) :
    FdInv R N (F + oneRef .socket sid) G { s with objs := o } ∧ (R → (o.sockets sid).core = (true, 1, false, []) ∧
        ∀ l, AcceptQuiet s.objs l → AcceptQuiet o l) := by
  refine ⟨⟨?_, h.files, h.formed, h.owned, h.known⟩, fun hR => ?_⟩
  · refine h.objs.setSockets (socketAlloc_frame ha) (fun hR => ?_) fun k j hk => ?_
    · rw [← add_assoc, ObjInv.add_oneRef_socket]
      exact (socketAlloc_inv (h.objs.sockets hR) (hq hR) ha).1
    · rw [← add_assoc]
      exact add_oneRef_of_ne _ (by tauto)
  · obtain ⟨-, h2, -, h4⟩ := socketAlloc_inv (h.objs.sockets hR) (hq hR) ha
    exact ⟨h2, h4⟩

theorem acceptCbs (h : FdInv R N F G s) (cbs : List ℕ) : FdInv R N F G { s with objs := edgeTcpAcceptCbs s.objs cbs } :=
  h.setObjs fun ho => ho.acceptCbs cbs

/-- A socket in hand that has no other reference is cleared. -/
theorem clearSocket {sid : ℕ} (h : FdInv R N (F + oneRef .socket sid) G s)
    (hc : R → (s.objs.sockets sid).core = (true, 1, false, [])) :
    FdInv R N F G { s with objs := s.objs.setSocket sid {} } := by
  refine ⟨?_, h.files, h.formed, h.owned, h.known⟩
  have ho := h.objs
  rw [← add_assoc] at ho
  refine ho.setSockets (Objects.onlySockets_setSocket _ _ _) ?_
    fun k j hk => (add_oneRef_of_ne _ (by tauto)).symm
  intro hR
  obtain ⟨-, hr, -, hp⟩ : (s.objs.sockets sid).used = true ∧ (s.objs.sockets sid).refs = 1 ∧
      (s.objs.sockets sid).listening = false ∧ (s.objs.sockets sid).pending = [] := by
    simpa [Socket.core] using hc hR
  have hs := ho.sockets hR
  rw [ObjInv.add_oneRef_socket] at hs
  exact hs.clear (by omega) hp

theorem dropSocket {sid : ℕ} (h : FdInv R N (F + oneRef .socket sid) G s) :
    FdInv R N F G { s with objs := socketDropRef (fun _ => []) socketDepth s.objs sid } :=
  h.dropInHand (k := .socket)

theorem doSysSocket (h : FdInv R N F G s) (hpos : 0 < pid) (hN : pid < N) {window : List ℕ}
    (hq : R → ∀ l ∈ window, AcceptQuiet s.objs l) (domain type protocol : ℤ)
    (nonblock cloexec pcb : Bool) (later : List ℕ) :
    FdInv R N F G (EdgeOS.doSysSocket s pid domain type protocol nonblock cloexec pcb window later).1 := by
  unfold EdgeOS.doSysSocket
  split
  · exact h
  split
  · exact h
  split
  · rename_i hf
    exact (h.fdProcWithStdio hpos hN hf).1
  rename_i s1 p hf
  obtain ⟨h1, ho1, hp⟩ := h.fdProcWithStdio hpos hN hf
  split
  · rename_i ha
    rw [fdAlloc_none ha]
    exact h1
  rename_i s2 i ha
  obtain ⟨h2, hb, ho2, hpid, -⟩ := h1.fdAlloc (hp p rfl) ha
  have hp2 : s2.procPid p ≠ 0 := hpid ▸ hp p rfl
  split
  · exact h2.clearBlank hb
  rename_i o sid hs
  obtain ⟨h3, hnew⟩ := h2.socketAlloc (by rwa [ho2, ho1]) hs
  have h4 := h3.acceptCbs later
  -- The new socket does not listen, so no callback touches it.
  have hnew4 : R → ((edgeTcpAcceptCbs o later).sockets sid).core = (true, 1, false, []) := by
    intro hR
    have hc := (hnew hR).1
    rw [edgeTcpAcceptCbs_still o later (congrArg Prod.fst hc) (congrArg (·.2.2.1) hc), hc]
  dsimp only at h4 ⊢
  split
  · exact (h4.clearSocket hnew4).clearBlank hb
  have h5 := h4.setSocket (j := sid) (x := { (edgeTcpAcceptCbs o later).sockets sid with
    domain := domain, type := type, protocol := protocol, nonblock := nonblock
    hasPcb := needsPcb domain type protocol, unixPeerId := -1 }) rfl
  split
  all_goals
    rename_i hi
    have h6 := (h5.fdInstall hp2 hb hi rfl (Int.toNat_natCast sid)
      (.of_counted rfl (Int.natCast_nonneg sid))).1
  · exact h6
  · exact h6.dropSocket

theorem dropPair {sid0 sid1 : ℕ} (h : FdInv R N (F + oneRef .socket sid1 + oneRef .socket sid0) G s) :
    let o := socketDropRef (fun _ => []) socketDepth s.objs sid0
    FdInv R N F G { s with objs := socketDropRef (fun _ => []) socketDepth o sid1 } :=
  h.dropSocket.dropSocket

theorem doSysSocketpair (h : FdInv R N F G s) (hpos : 0 < pid) (hN : pid < N)
    {window window' : List ℕ} (hq : R → ∀ l ∈ window ++ window', AcceptQuiet s.objs l)
    (nonblock cloexec copied : Bool) (later : List ℕ) :
    FdInv R N F G (EdgeOS.doSysSocketpair s pid nonblock cloexec copied window window' later).1 := by
  unfold EdgeOS.doSysSocketpair
  split
  · rename_i hf
    exact (h.fdProcWithStdio hpos hN hf).1
  rename_i s1 p hf
  obtain ⟨h1, ho1, hp⟩ := h.fdProcWithStdio hpos hN hf
  split
  · rename_i ha
    rw [fdAlloc_none ha]
    exact h1
  rename_i s2 i ha
  obtain ⟨h2, hbi, ho2, hpid2, -⟩ := h1.fdAlloc (hp p rfl) ha
  have hp2 : s2.procPid p ≠ 0 := hpid2 ▸ hp p rfl
  have hui : (s2.fds (p, i)).used = true := by
    rw [(fdAlloc_some ha).1]
    simp [FdState.setFd]
  split
  · rename_i ha'
    rw [fdAlloc_none ha']
    exact h2.clearBlank hbi
  rename_i s3 j ha'
  obtain ⟨h3, hbj, ho3, hpid3, hkeep⟩ := h2.fdAlloc hp2 ha'
  have hp3 : s3.procPid p ≠ 0 := hpid3 ▸ hp2
  obtain ⟨hji, hsame⟩ := hkeep i hui
  have hbi3 : (s3.fds (p, i)).Blank := by
    rw [hsame]
    exact hbi
  have hclear : ∀ t : FdState, FdInv R N F G t → t.fds = s3.fds → FdInv R N F G ((t.setFd p i {}).setFd p j {}) := by
    intro t ht hfds
    refine (ht.clearBlank (hfds ▸ hbi3)).clearBlank ?_
    unfold FdState.setFd
    dsimp only
    rw [update_of_ne (by simp [hji]), hfds]
    exact hbj
  split
  · exact hclear s3 h3 rfl
  rename_i o sid0 hs
  obtain ⟨h4, hnew⟩ := h3.socketAlloc
    (fun hR l hl => by rw [ho3, ho2, ho1]; exact hq hR l (by simp [hl])) hs
  split
  · exact hclear _ (h4.clearSocket fun hR => (hnew hR).1) rfl
  rename_i o' sid1 hs'
  obtain ⟨h5, -⟩ := h4.socketAlloc
    (fun hR l hl => (hnew hR).2 l (by rw [ho3, ho2, ho1]; exact hq hR l (by simp [hl]))) hs'
  have h6 := h5.acceptCbs later
  have h7 := h6.setSocket (j := sid0)
    (x := pairedSocket ((edgeTcpAcceptCbs o' later).sockets sid0) sid1 nonblock) rfl
  dsimp only at h7 ⊢
  generalize (edgeTcpAcceptCbs o' later).setSocket sid0 _ = o1 at h7 ⊢
  have h8 := h7.setSocket (j := sid1) (x := pairedSocket (o1.sockets sid1) sid0 nonblock) rfl
  dsimp only at h8
  rw [add_right_comm] at h8
  split
  · rename_i s4 hi
    obtain ⟨h9, -, -, hother, -⟩ := h8.fdInstall hp3 hbi3 hi rfl (Int.toNat_natCast sid0)
      (.of_counted rfl (Int.natCast_nonneg sid0))
    rw [if_neg (by simp)] at h9
    exact (h9.clearBlank (by rw [hother j hji]; exact hbj)).dropPair
  rename_i s4 hi
  obtain ⟨h9, -, hpid4, hother, hi4⟩ := h8.fdInstall hp3 hbi3 hi rfl (Int.toNat_natCast sid0)
    (.of_counted rfl (Int.natCast_nonneg sid0))
  rw [if_pos rfl] at h9
  obtain ⟨_, -, hi4⟩ := hi4 rfl
  split
  · rename_i s5 hi'
    obtain ⟨h10, -, -, hother', -⟩ := h9.fdInstall (hpid4 ▸ hp3) (by rw [hother j hji]; exact hbj) hi'
      rfl (Int.toNat_natCast sid1) (.of_counted rfl (Int.natCast_nonneg sid1))
    rw [if_neg (by simp)] at h10
    have hi5 := (hother' i hji.symm).trans hi4
    have h11 := (h10.takeBack (p := p) (i := i) (k := .socket) (l := sid0) (by rw [hi5])
      (by rw [hi5]; rfl) (by rw [hi5]; exact Int.toNat_natCast sid0)).dropPair
    rwa [show ((fileRefPut s5 (s5.fds (p, i)).fileRef).setFd p i {}).objs = s5.objs from
      fileRefPut_objs _ _] at h11
  rename_i s5 hi'
  obtain ⟨h10, -, -, hother', hj5⟩ := h9.fdInstall (hpid4 ▸ hp3) (by rw [hother j hji]; exact hbj) hi'
    rfl (Int.toNat_natCast sid1) (.of_counted rfl (Int.natCast_nonneg sid1))
  rw [if_pos rfl] at h10
  obtain ⟨_, -, hj5⟩ := hj5 rfl
  have hi5 := (hother' i hji.symm).trans hi4
  split
  · exact h10
  have h11 := h10.takeBack (p := p) (i := i) (k := .socket) (l := sid0) (by rw [hi5])
    (by rw [hi5]; rfl) (by rw [hi5]; exact Int.toNat_natCast sid0)
  have hj6 : ((fileRefPut s5 (s5.fds (p, i)).fileRef).setFd p i {}).fds (p, j) = s5.fds (p, j) := by
    unfold FdState.setFd
    dsimp only
    rw [update_of_ne (by simp [hji]), fileRefPut_fds]
  have h12 := h11.takeBack (p := p) (i := j) (k := .socket) (l := sid1) (by rw [hj6, hj5])
    (by rw [hj6, hj5]; rfl) (by rw [hj6, hj5]; exact Int.toNat_natCast sid1)
  rw [hj6, fileRefPut_setFd, add_right_comm] at h12
  exact h12.dropPair

/-- `socket_from_fd` finds a socket that a descriptor holds. -/
theorem socketFromFd (h : FdInv R N F G s) (hpos : 0 < pid) (hN : pid < N) {fd : ℤ}
    {r : Option (FdProcIdx × FdIdx × ℕ)} (ha : EdgeOS.socketFromFd s pid fd = (s', r)) :
    FdInv R N F G s' ∧ s'.objs = s.objs ∧ ∀ p i sid, r = some (p, i, sid) →
      s'.procPid p ≠ 0 ∧ 0 < slots s' .socket sid := by
  unfold EdgeOS.socketFromFd at ha
  split at ha
  · rename_i hq
    obtain ⟨rfl, rfl⟩ := Prod.mk.inj ha
    obtain ⟨h1, ho1, -⟩ := h.fdProcWithStdio hpos hN hq
    exact ⟨h1, ho1, by simp⟩
  rename_i s1 p hq
  obtain ⟨h1, ho1, hp⟩ := h.fdProcWithStdio hpos hN hq
  split at ha
  · obtain ⟨rfl, rfl⟩ := Prod.mk.inj ha
    exact ⟨h1, ho1, by simp⟩
  rename_i i hg
  have hpos := slots_pos (fdGet_some hg)
  split at ha
  · rename_i sid hk hid
    split_ifs at ha with hu
    · obtain ⟨rfl, rfl⟩ := Prod.mk.inj ha
      refine ⟨h1, ho1, fun p' i' sid' hr => ?_⟩
      obtain ⟨rfl, rfl, rfl⟩ : p = p' ∧ i = i' ∧ sid = sid' := by simpa using hr
      refine ⟨hp p rfl, ?_⟩
      rw [hk, (tableIndex_some hid).1, Int.toNat_natCast] at hpos
      exact hpos
    · obtain ⟨rfl, rfl⟩ := Prod.mk.inj ha
      exact ⟨h1, ho1, by simp⟩
  · obtain ⟨rfl, rfl⟩ := Prod.mk.inj ha
    exact ⟨h1, ho1, by simp⟩

/-- `do_sys_listen`: a held socket is in no queue, so it may get one. -/
theorem doSysListen (h : FdInv R N F G s) (hpos : 0 < pid) (hN : pid < N) (fd backlog : ℤ)
    (granted : Bool) : FdInv R N F G (EdgeOS.doSysListen s pid fd backlog granted).1 := by
  unfold EdgeOS.doSysListen
  split
  · rename_i hf
    exact (h.socketFromFd hpos hN hf).1
  rename_i s1 p i sid hf
  obtain ⟨h1, -, hsid⟩ := h.socketFromFd hpos hN hf
  obtain ⟨-, hheld⟩ := hsid p i sid rfl
  dsimp only
  split
  · exact h1
  split
  · exact h1
  split
  · exact h1
  split
  · exact h1
  rename_i hl
  split
  · exact h1
  refine h1.setObjs fun ho => ?_
  have hl : (s1.objs.sockets sid).listening = false := by simpa using hl
  have hA : 0 < (slots s1 + F) .socket sid := Nat.lt_of_lt_of_le hheld (Nat.le_add_right _ _)
  refine ho.setSockets (Objects.onlySockets_setSocket _ _ _) (fun hR => ?_) fun _ _ _ => rfl
  have hs := ho.sockets hR
  obtain ⟨hu, hlt⟩ := hs.holder_used hA
  refine hs.write ((hs sid).quiet hl).symm ?_ fun _ _ => rfl
  refine ⟨(hs sid).used, fun hf => ?_, fun hf => by simp at hf, fun hn => ?_, by simp⟩
  · dsimp only at hf
    rw [hu] at hf
    simp at hf
  · have := (hs.queued_alone hn).2.1
    omega

theorem socketPendingDequeue (h : FdInv R N F G s) {l sid : ℕ} {o : Objects}
    (ha : EdgeOS.socketPendingDequeue s.objs l = (o, some sid)) :
    FdInv R N (F + oneRef .socket sid) G { s with objs := o } := by
  refine h.setObjs fun ho => ?_
  unfold EdgeOS.socketPendingDequeue at ha
  split at ha
  · simp at ha
  rename_i sid' rest hp
  obtain ⟨rfl, hsid⟩ := Prod.mk.inj ha
  obtain rfl := Option.some.inj hsid
  refine ho.setSockets (Objects.onlySockets_setSocket _ _ _) (fun hR => ?_) fun k j hk => ?_
  · rw [← add_assoc, ObjInv.add_oneRef_socket]
    exact (ho.sockets hR).dequeue hp
  · rw [← add_assoc]
    exact add_oneRef_of_ne _ (by tauto)

theorem doSysAccept (h : FdInv R N F G s) (hpos : 0 < pid) (hN : pid < N) (fd : ℤ) (copied : Bool) (later : List ℕ) :
    FdInv R N F G (EdgeOS.doSysAccept s pid fd copied later).1 := by
  unfold EdgeOS.doSysAccept
  split
  · rename_i hf
    exact (h.socketFromFd hpos hN hf).1
  rename_i s1 p i l hf
  obtain ⟨h1, -, hsid⟩ := h.socketFromFd hpos hN hf
  obtain ⟨hp, -⟩ := hsid p i l rfl
  split
  · exact h1
  split
  · exact h1
  rename_i o sid hd
  have h2 := h1.socketPendingDequeue hd
  split
  · -- A queued socket is in use, so this branch is not reached unless the tables are broken.
    rename_i hbad
    refine ⟨h1.objs.setSockets (socketPendingDequeue_frame hd) (fun hR => ?_) fun _ _ _ => rfl,
      h1.files, h1.formed, h1.owned, h1.known⟩
    have hs := h2.objs.sockets hR
    obtain ⟨hu, hlt⟩ := hs.holder_used (i := sid) (by
      rw [← add_assoc, ObjInv.add_oneRef_socket, add_oneAt_self]
      omega)
    dsimp only at hu
    rw [hu] at hbad
    simp at hbad
    omega
  have h3 := h2.acceptCbs later
  dsimp only at h3 ⊢
  split
  · rename_i ha
    rw [fdAlloc_none ha]
    exact h3.dropSocket
  rename_i s2 j ha
  obtain ⟨h4, hb, -, hpid, -⟩ := h3.fdAlloc hp ha
  split
  · rename_i hi
    exact (h4.fdInstall (hpid ▸ hp) hb hi rfl (Int.toNat_natCast sid)
      (.of_counted rfl (Int.natCast_nonneg sid))).1.dropSocket
  rename_i s3 hi
  obtain ⟨h5, -, -, -, hj⟩ := h4.fdInstall (hpid ▸ hp) hb hi rfl (Int.toNat_natCast sid)
    (.of_counted rfl (Int.natCast_nonneg sid))
  obtain ⟨_, -, hj⟩ := hj rfl
  split
  · exact h5
  · exact FdInv.closeFd h5 (by simp) (by rw [hj])

theorem doSysAccept4 (h : FdInv R N F G s) (hpos : 0 < pid) (hN : pid < N) (fd : ℤ)
    (flags : BitVec 32) (copied : Bool) (later : List ℕ) :
    FdInv R N F G (EdgeOS.doSysAccept4 s pid fd flags copied later).1 := by
  have h1 := h.doSysAccept hpos hN fd copied later
  unfold EdgeOS.doSysAccept4
  split
  · exact h
  split
  · rename_i heq
    rw [heq] at h1
    exact h1
  rename_i s1 r heq
  rw [heq] at h1
  split
  · rename_i hq
    exact (h1.fdProcWithStdio hpos hN hq).1
  rename_i s2 p hq
  obtain ⟨h2, -, -⟩ := h1.fdProcWithStdio hpos hN hq
  split
  · exact h2
  dsimp only
  split
  · rename_i sid _ hk _
    split
    · have h3 := h2.setSocket (j := sid) (x := { s2.objs.sockets sid with nonblock := true }) rfl
      exact h3.rewrite rfl rfl rfl rfl fun hf =>
        .of_counted (by rw [hk]; rfl) (hf.named (by rw [hk]; rfl))
    · exact h2.rewrite rfl rfl rfl rfl fun hf => ⟨hf.named, hf.opened⟩
  · exact h2.rewrite rfl rfl rfl rfl fun hf => ⟨hf.named, hf.opened⟩

end FdInv

end EdgeOS
