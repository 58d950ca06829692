import EdgeOS.ProcFs

namespace EdgeOS

/-!
The texts of procfs, `proc_render_text`, and `proc_read`, which renders the whole text on each call
and copies a piece of it.
-/

open List
open UInt32 (toNat_add le_iff_toNat_le lt_iff_toNat_lt)

/-- `sizeof(tmp)` in `proc_read`. -/
def procTextMax : ℕ := 2048

/-- An address of `lwip_stack_get_ipv6_addr_at`. -/
structure Ipv6Addr where
  addr : List UInt8
  plen : UInt8
  scope : UInt8
  flags : UInt8
  deriving DecidableEq, Repr

/-- An entry of `g_mounts`. -/
structure MountEntry where
  devName : Bytes
  mountpoint : Bytes
  fsName : Bytes
  deriving DecidableEq, Repr

/-- What the texts are made of, besides the tasks. -/
structure ProcSources where
  memTotal : UInt64
  memFree : UInt64
  memUsed : UInt64
  bootNowUs : UInt64
  realtimeUs : UInt64
  monotonicUs : UInt64
  totalTicks : UInt64
  idleTicks : UInt64
  rxPackets : UInt64
  rxBytes : UInt64
  txPackets : UInt64
  txBytes : UInt64
  mounts : List MountEntry
  ipv6 : List Ipv6Addr
  deriving DecidableEq, Repr

/-- One call of a `buf_append` function. -/
inductive ProcPiece
  | text (s : Bytes)
  | dec (v : ℕ)
  | hex (v : ℕ)
  deriving DecidableEq, Repr

/-- `hx[d]`. -/
def hexDigit (d : ℕ) : UInt8 := (ascii "0123456789abcdef").getD d 0

/-- `buf_append`, `buf_append_u32` or `buf_append_u64_dec`, and `buf_append_hex_u64` with two digits. -/
def ProcPiece.append (max : ℕ) (buf : Bytes) : ProcPiece → Option Bytes
  | .text s => bufAppend max buf s
  | .dec v => bufAppendDec max buf v
  | .hex v => [hexDigit (v / 16 % 16), hexDigit (v % 16)].foldlM (fun b c => bufAppend max b [c]) buf

/-- The calls one after another; the first that fails ends the text. -/
def renderPieces (max : ℕ) (pieces : List ProcPiece) : Option Bytes :=
  pieces.foldlM (fun buf p => p.append max buf) []

def procTaskStateChar : TaskState → Bytes
  | .running => ascii "R"
  | .blocked => ascii "S"
  | .zombie => ascii "Z"
  | .runnable => ascii "R"
  | .unused => ascii "?"

/-- `vfs_mounts_snapshot`: what does not fit is cut off. -/
def vfsMountsSnapshot (mounts : List MountEntry) (max : ℕ) : Bytes :=
  (mounts.flatMap fun m =>
    (if m.devName = [] then ascii "none" else m.devName) ++ ascii " " ++
    (if m.mountpoint = [] then ascii "/" else m.mountpoint) ++ ascii " " ++
    (if m.fsName = [] then ascii "unknown" else m.fsName) ++ ascii " rw 0 0\n").take (max - 1)

/-- The bits of an `int` that is printed. -/
def intBits (n : ℤ) : ℕ := (BitVec.ofInt 32 n).toNat

namespace ProcTable

variable (t : ProcTable) (w : ProcSources)

def total : ℕ := ((List.finRange procMaxTasks).filter fun i => (t.tab.task (.slot i)).state ≠ .unused).length

def running : ℕ :=
  ((List.finRange procMaxTasks).filter fun i =>
    (t.tab.task (.slot i)).state = .running ∨ (t.tab.task (.slot i)).state = .runnable).length

def meminfoPieces : List ProcPiece :=
  [.text (ascii "MemTotal:       "), .dec (w.memTotal / 1024).toNat,
   .text (ascii " kB\nMemFree:        "), .dec (w.memFree / 1024).toNat,
   .text (ascii " kB\nMemUsed:        "), .dec (w.memUsed / 1024).toNat, .text (ascii " kB\n")]

def uptimePieces : List ProcPiece := [.dec (w.bootNowUs / 1000000).toNat, .text (ascii ".00 0.00\n")]

def statGlobalPieces : List ProcPiece :=
  let idle := min w.idleTicks w.totalTicks
  [.text (ascii "cpu  "), .dec 0, .text (ascii " 0 "), .dec (w.totalTicks - idle).toNat, .text (ascii " "),
   .dec idle.toNat, .text (ascii " 0 0 0 0 0 0\n"), .text (ascii "intr 0\nctxt 0\n"), .text (ascii "btime "),
   .dec ((w.realtimeUs - w.monotonicUs) / 1000000).toNat, .text (ascii "\nprocesses "), .dec t.total,
   .text (ascii "\nprocs_running "), .dec (if t.running ≠ 0 then t.running else 1),
   .text (ascii "\nprocs_blocked 0\n")]

def loadavgPieces : List ProcPiece :=
  [.dec t.running, .text (ascii ".00 "), .dec t.running, .text (ascii ".00 "), .dec t.running, .text (ascii ".00 "),
   .dec (if t.running ≠ 0 then t.running else 1), .text (ascii "/"), .dec (if t.total ≠ 0 then t.total else 1),
   .text (ascii " 1\n")]

def netDevPieces : List ProcPiece :=
  [.text (ascii "Inter-|   Receive                                                |  Transmit\n"),
   .text (ascii (" face |bytes    packets errs drop fifo frame compressed multicast" ++
     "|bytes    packets errs drop fifo colls carrier compressed\n")),
   .text (ascii "  lo: 0 0 0 0 0 0 0 0 0 0 0 0 0 0 0 0\n"), .text (ascii "eth0: "), .dec w.rxBytes.toNat,
   .text (ascii " "), .dec w.rxPackets.toNat, .text (ascii " 0 0 0 0 0 0 "), .dec w.txBytes.toNat,
   .text (ascii " "), .dec w.txPackets.toNat, .text (ascii " 0 0 0 0 0 0\n")]

def ifInet6Pieces : List ProcPiece :=
  .text (ascii "00000000000000000000000000000001 01 80 10 80       lo\n") ::
    (w.ipv6.take 16).flatMap fun a =>
      (a.addr.map fun b => .hex b.toNat) ++
      [.text (ascii " 00000002 "), .hex a.plen.toNat, .text (ascii " "), .hex a.scope.toNat, .text (ascii " "),
       .hex a.flags.toNat, .text (ascii "       eth0\n")]

def statusPieces (x : Task) : List ProcPiece :=
  [.text (ascii "Name:\t"), .text (ascii x.image.name), .text (ascii "\nState:\t"), .text (procTaskStateChar x.state),
   .text (ascii "\nPid:\t"), .dec (intBits x.pid), .text (ascii "\nPPid:\t"), .dec (intBits x.ppid),
   .text (ascii "\nUid:\t"), .dec x.cred.uid, .text (ascii "\t"), .dec x.cred.euid, .text (ascii "\t"),
   .dec x.cred.euid, .text (ascii "\t"), .dec x.cred.euid,
   .text (ascii "\nGid:\t"), .dec x.cred.gid, .text (ascii "\t"), .dec x.cred.egid, .text (ascii "\t"),
   .dec x.cred.egid, .text (ascii "\t"), .dec x.cred.egid,
   .text (ascii "\nGroups:\t"), .dec x.cred.gid, .text (ascii "\n")]

def statPieces (x : Task) : List ProcPiece :=
  let vsize := 6 * 1024 * 1024
  [.dec (intBits x.pid), .text (ascii " ("), .text (ascii x.image.name), .text (ascii ") "),
   .text (procTaskStateChar x.state), .text (ascii " "), .dec (intBits x.ppid), .text (ascii " "),
   .dec (intBits (if 0 < x.pgid then x.pgid else x.pid)), .text (ascii " "),
   .dec (intBits (if 0 < x.sid then x.sid else x.pid)),
   .text (ascii " 0 -1 0 0 0 0 0 0 0 0 0 0 20 0 1 0 1 "), .dec vsize, .text (ascii " "), .dec (vsize / 4096),
   .text (ascii " 0 0 0 0 0 0 0 0 0 0 0 0 0 0 0 0 0 0 0 0 0 0 0 0\n")]

/-- `proc_render_text`: the text of a file, with the terminator of `cmdline`. -/
def procRenderText (inode : VfsNode) : Option Bytes :=
  let node := inode.private0
  if node = procNodeMeminfo then renderPieces procTextMax (meminfoPieces w)
  else if node = procNodeUptime then renderPieces procTextMax (uptimePieces w)
  else if node = procNodeMounts then some (vfsMountsSnapshot w.mounts procTextMax)
  else if node = procNodeStatGlobal then renderPieces procTextMax (t.statGlobalPieces w)
  else if node = procNodeLoadavg then renderPieces procTextMax t.loadavgPieces
  else if node = procNodeNetDev then renderPieces procTextMax (netDevPieces w)
  else if node = procNodeNetIfInet6 then renderPieces procTextMax (ifInet6Pieces w)
  else if node = procNodeStat ∨ node = procNodeStatus ∨ node = procNodeCmdline then
    match t.processGetTask (BitVec.ofNat 32 inode.private1) with
    | none => none
    | some u =>
      let x := t.tab.task u
      if node = procNodeCmdline then some ((ascii x.image.name).take (procTextMax - 1) ++ [0])
      else if node = procNodeStatus then renderPieces procTextMax (statusPieces x)
      else renderPieces procTextMax (statPieces x)
  else none

/-- What `proc_read` does: it fails, it copies, or its `memcpy` runs past the text. -/
inductive ProcRead
  | failed
  | copied (b : Bytes)
  | beyond (len : UInt32)
  deriving DecidableEq, Repr

def procRead (inode : VfsNode) (off len : UInt32) : ProcRead :=
  match t.procRenderText w inode with
  | none => .failed
  | some text =>
    let n := text.length.toUInt32
    if n ≤ off then .copied []
    else
      let len := if n < off + len then n - off else len
      if off.toNat + len.toNat ≤ procTextMax then .copied ((text.drop off.toNat).take len.toNat)
      else .beyond len

/-- Reads of the given lengths, each from where the one before has ended. -/
def readChunks (inode : VfsNode) : UInt32 → List UInt32 → Option Bytes
  | _, [] => some []
  | off, len :: lens =>
    match t.procRead w inode off len with
    | .copied b => (readChunks inode (off + b.length.toUInt32) lens).map (b ++ ·)
    | _ => none

end ProcTable

/-! ## Reading in pieces -/

section Texts

variable {max : ℕ} {buf out : Bytes} {pieces : List ProcPiece}

theorem foldlM_bounded {α : Type} {l : List α} {f : Bytes → α → Option Bytes}
    (hf : ∀ b a b', f b a = some b' → b'.length < max) (hbuf : buf.length < max)
    (h : l.foldlM f buf = some out) : out.length < max := by
  induction l generalizing buf with
  | nil => exact Option.some.inj h ▸ hbuf
  | cons a l ih =>
    rw [foldlM_cons] at h
    obtain ⟨b, hb, h⟩ := Option.bind_eq_some_iff.mp h
    exact ih (hf _ _ _ hb) h

theorem ProcPiece.append_bounded {p : ProcPiece} (h : p.append max buf = some out) : out.length < max := by
  cases p with
  | text s => exact bufAppend_bounded h
  | dec v => exact bufAppend_bounded ((bufAppendDec_eq max buf v).symm.trans h)
  | hex v => exact bufAppend_bounded ((foldlM_bufAppend (by simp)).symm.trans h)

theorem renderPieces_bounded (hmax : 0 < max) (h : renderPieces max pieces = some out) : out.length < max :=
  foldlM_bounded (fun _ _ _ hp => ProcPiece.append_bounded hp) (show ([] : Bytes).length < max from hmax) h

end Texts

namespace ProcTable

variable {t : ProcTable} {w : ProcSources} {file : VfsNode} {text : Bytes} {off len : UInt32}

theorem procRenderText_bounded (h : t.procRenderText w file = some text) : text.length ≤ procTextMax := by
  have hpieces : ∀ {pieces}, renderPieces procTextMax pieces = some text → text.length ≤ procTextMax :=
    fun h => Nat.le_of_lt (renderPieces_bounded (by decide) h)
  unfold procRenderText at h
  dsimp only at h
  split at h
  · exact hpieces h
  split at h
  · exact hpieces h
  split at h
  · rw [← Option.some.inj h]
    unfold vfsMountsSnapshot
    rw [length_take]
    omega
  split at h
  · exact hpieces h
  split at h
  · exact hpieces h
  split at h
  · exact hpieces h
  split at h
  · exact hpieces h
  split at h
  · split at h
    · exact absurd h (by simp)
    · split at h
      · rw [← Option.some.inj h, length_append, length_take, length_singleton]
        unfold procTextMax
        omega
      · split at h <;> exact hpieces h
  · exact absurd h (by simp)

section Read

variable (htext : t.procRenderText w file = some text)

include htext

theorem procRead_fits (hfits : off.toNat < text.length → off.toNat + len.toNat < 2 ^ 32) :
    t.procRead w file off len = .copied ((text.drop off.toNat).take len.toNat) := by
  have hmax := procRenderText_bounded htext
  unfold procTextMax at hmax
  have hn : text.length.toUInt32.toNat = text.length := Nat.mod_eq_of_lt (by omega)
  unfold procRead
  rw [htext]
  dsimp only
  rcases Nat.lt_or_ge off.toNat text.length with hlt | hge
  · have hadd : (off + len).toNat = off.toNat + len.toNat := by
      rw [toNat_add, Nat.mod_eq_of_lt (hfits hlt)]
    have hinside : ¬ text.length.toUInt32 ≤ off := by
      rw [le_iff_toNat_le, hn]
      omega
    rw [if_neg hinside]
    by_cases hpast : text.length.toUInt32 < off + len
    · rw [if_pos hpast]
      rw [lt_iff_toNat_lt, hn, hadd] at hpast
      have hsub : (text.length.toUInt32 - off).toNat = text.length - off.toNat := by
        rw [UInt32.toNat_sub_of_le _ _ (by rw [le_iff_toNat_le, hn]; omega), hn]
      rw [hsub, if_pos (by unfold procTextMax; omega), take_of_length_le (by rw [length_drop]),
        take_of_length_le (by rw [length_drop]; omega)]
    · rw [if_neg hpast]
      rw [lt_iff_toNat_lt, hn, hadd] at hpast
      rw [if_pos (by unfold procTextMax; omega)]
  · have hbehind : text.length.toUInt32 ≤ off := by
      rw [le_iff_toNat_le, hn]
      exact hge
    rw [if_pos hbehind, drop_of_length_le hge, take_nil]

/-- A length that wraps behind an offset in the text is not cut, and runs past the buffer. -/
theorem procRead_wraps (hlt : off.toNat < text.length) (hwrap : 2 ^ 32 ≤ off.toNat + len.toNat) :
    t.procRead w file off len = .beyond len := by
  have hmax := procRenderText_bounded htext
  unfold procTextMax at hmax
  have hn : text.length.toUInt32.toNat = text.length := Nat.mod_eq_of_lt (by omega)
  have hlen := len.toNat_lt
  have hadd : (off + len).toNat = off.toNat + len.toNat - 2 ^ 32 := by
    rw [toNat_add]
    omega
  unfold procRead
  rw [htext]
  dsimp only
  have hinside : ¬ text.length.toUInt32 ≤ off := by
    rw [le_iff_toNat_le, hn]
    omega
  have huncut : ¬ text.length.toUInt32 < off + len := by
    rw [lt_iff_toNat_lt, hn, hadd]
    omega
  rw [if_neg hinside, if_neg huncut, if_neg (by unfold procTextMax; omega)]

end Read

def Fitting (n : ℕ) : ℕ → List UInt32 → Prop
  | _, [] => True
  | off, len :: lens => (off < n → off + len.toNat < 2 ^ 32) ∧ Fitting n (min n (off + len.toNat)) lens

/-- The reads from an offset give what the text has there, if and only if they all fit. -/
theorem readChunks_iff (htext : t.procRenderText w file = some text) (hoff : off.toNat ≤ text.length)
    (lens : List UInt32) :
    t.readChunks w file off lens = some ((text.drop off.toNat).take (lens.map UInt32.toNat).sum) ↔
      Fitting text.length off.toNat lens := by
  induction lens generalizing off with
  | nil => exact iff_of_true (by rw [map_nil, sum_nil, take_zero]; rfl) trivial
  | cons len lens ih =>
    have hmax := procRenderText_bounded htext
    unfold procTextMax at hmax
    unfold readChunks Fitting
    by_cases hfits : off.toNat < text.length → off.toNat + len.toNat < 2 ^ 32
    · obtain ⟨b, hb⟩ : ∃ b, b = (text.drop off.toNat).take len.toNat := ⟨_, rfl⟩
      have hblen : b.length = min len.toNat (text.length - off.toNat) := by
        rw [hb, length_take, length_drop]
      have hnext : (off + b.length.toUInt32).toNat = min text.length (off.toNat + len.toNat) := by
        rw [toNat_add, show b.length.toUInt32.toNat = b.length from Nat.mod_eq_of_lt (by omega),
          Nat.mod_eq_of_lt (by omega), hblen]
        omega
      have hrest := ih (show (off + b.length.toUInt32).toNat ≤ text.length by omega)
      rw [hnext] at hrest
      have hsplit : (text.drop off.toNat).take ((len :: lens).map UInt32.toNat).sum =
          b ++ (text.drop (min text.length (off.toNat + len.toNat))).take (lens.map UInt32.toNat).sum := by
        rw [map_cons, sum_cons, take_add, ← hb, drop_drop]
        rcases Nat.le_total (off.toNat + len.toNat) text.length with h | h
        · rw [Nat.min_eq_right h]
        · rw [Nat.min_eq_left h, drop_of_length_le h, drop_of_length_le (le_refl _)]
      rw [procRead_fits htext hfits, ← hb]
      dsimp only
      rw [hsplit, ← hrest, and_iff_right hfits]
      rcases t.readChunks w file (off + b.length.toUInt32) lens with _ | rest
      · simp
      · simp
    · have hwrap := hfits
      rw [Classical.not_imp, not_lt] at hwrap
      rw [procRead_wraps htext hwrap.1 hwrap.2]
      exact iff_of_false (by simp) fun h => hfits h.1

end ProcTable

/-! ## The tree is coherent -/

namespace ProcTable

/-- Digits lead to a task exactly if they are the text of the number of a task in use. -/
def ResolvesText (t : ProcTable) (name : Bytes) : Prop :=
  name ≠ [] ∧ name.all isDigit = true → ((t.lookup procRootInode name).isSome ↔ t.TaskText name)

/-- Reads one after another give the text that one read gives. -/
def ReadsWhole (t : ProcTable) (w : ProcSources) (file : VfsNode) (lens : List UInt32) : Prop :=
  ∀ text, t.procRenderText w file = some text → (∀ len, t.procRead w file 0 len = .copied (text.take len.toNat)) ∧
      t.readChunks w file 0 lens = some (text.take (lens.map UInt32.toNat).sum)

def Fits (t : ProcTable) (w : ProcSources) (file : VfsNode) (lens : List UInt32) : Prop :=
  ∀ text, t.procRenderText w file = some text → Fitting text.length 0 lens

variable {t : ProcTable} {w : ProcSources} {file : VfsNode} {lens : List UInt32}

theorem readsWhole_iff : t.ReadsWhole w file lens ↔ t.Fits w file lens := by
  apply forall_congr'
  intro text
  apply forall_congr'
  intro htext
  have hone : ∀ len, t.procRead w file 0 len = .copied (text.take len.toNat) := fun len =>
    procRead_fits htext fun _ => (Nat.zero_add _).symm ▸ len.toNat_lt
  rw [and_iff_right hone]
  exact readChunks_iff htext (Nat.zero_le _) lens

/-- Lookup and listing agree on a name exactly if it is proper; digits resolve as the text of a
pid exactly if they lead to no other task; inode numbers are distinct exactly if the pids are in
their low twelve bits; and reads give the text exactly if none of them wraps. -/
theorem procfs_coherent_iff (t : ProcTable) (w : ProcSources) (d : ProcDir) (name : Bytes) (file : VfsNode)
    (lens : List UInt32) :
    (t.Agrees (dirInode d) name ↔ t.Proper name d) ∧
      (t.ResolvesText name ↔ (name ≠ [] ∧ name.all isDigit = true → t.OwnText name)) ∧
      (t.DistinctInos ↔ t.ShortPids) ∧ (t.ReadsWhole w file lens ↔ t.Fits w file lens) := by
  refine ⟨agrees_iff, ?_, distinctInos_iff, readsWhole_iff⟩
  apply forall_congr'
  rintro ⟨hne, hdigits⟩
  exact resolves_iff hne hdigits

/-- Two tasks whose pids are the same in the low twelve bits. -/
def twoTasks : ProcTable where
  tab :=
    { task := fun u =>
        if u = .slot bootSlot then { pid := 1, state := .running }
        else if u = .slot secondSlot then { pid := 4097, state := .runnable } else {}
      cpu := fun _ => { current := some (.slot bootSlot) }
      localCpuId := 0
      nextPid := 4098 }
  int := by
    intro u
    dsimp only
    split_ifs <;> decide

/-- The name 01 leads to task 1, which is listed as 1; the tasks 1 and 4097 have directories of one
number; and the directory of a task that has gone is found in itself but lists nothing. -/
theorem twoTasks_incoherent :
    (twoTasks.lookup procRootInode (ascii "01") = some (pidDir 1) ∧ ¬ twoTasks.Agrees procRootInode (ascii "01")) ∧
      ¬ twoTasks.ResolvesText (ascii "01") ∧ ¬ twoTasks.DistinctInos ∧ ¬ twoTasks.Agrees (pidDir 2) (ascii ".") := by
  have hone : twoTasks.Used 1 := ⟨0, show TaskState.running ≠ .unused by decide, rfl⟩
  have hother : twoTasks.Used 4097 := ⟨1, show TaskState.runnable ≠ .unused by decide, rfl⟩
  have hlook : twoTasks.lookup procRootInode (ascii "01") = some (pidDir 1) := by decide +kernel
  have htext : ∀ p : BitVec 32, ascii "01" = decimalText p.toNat → False := by
    intro p h
    have hval := decimalValue_text p.toNat
    rw [← h] at hval
    have hp : p.toNat = 1 := hval.symm
    rw [hp] at h
    have := congrArg List.length h
    simp [decimalText, ascii] at this
  refine ⟨⟨hlook, fun h => ?_⟩, fun h => ?_, fun h => ?_, fun h => ?_⟩
  · obtain ⟨-, hname⟩ := agrees_root.mp h (by decide) 1 hone (by decide)
    exact htext 1 hname
  · obtain ⟨p, -, -, hname⟩ := (h (by decide)).mp (by rw [hlook]; rfl)
    exact htext p hname
  · exact absurd (distinctInos_iff.mp h 1 4097 hone hother (by decide)) (by decide)
  · have hgone : ¬ twoTasks.Used 2 := by
      rw [← processGetTask_isSome]
      decide +kernel
    exact hgone ((agrees_iff (d := ProcDir.pid 2)).mp h rfl)

end ProcTable

end EdgeOS
