import EdgeOS.AddressSpace
import EdgeOS.Scheduler

namespace EdgeOS

/-! Processes: the functions of `src/sys/process.c` over the task table. -/

open TaskTable

/-! ## Family links -/

def taskChildUnlink (s : TaskTable) (child : TaskRef) : TaskTable :=
  let parent := (s.task child).tree.parent
  let s := match (s.task child).tree.siblingPrev with
    | some b => s.modifyTree b fun x => { x with siblingNext := (s.task child).tree.siblingNext }
    | none => match parent with
      | some p => s.modifyTree p fun x => { x with firstChild := (s.task child).tree.siblingNext }
      | none => s
  let s := match (s.task child).tree.siblingNext with
    | some b => s.modifyTree b fun x => { x with siblingPrev := (s.task child).tree.siblingPrev }
    | none => s
  s.modifyTree child fun x => { x with siblingPrev := none, siblingNext := none, parent := none }

/-- `task_child_link`. A null parent leaves the child without one. -/
def taskChildLink (s : TaskTable) (parent : Option TaskRef) (child : TaskRef) : TaskTable :=
  let s := taskChildUnlink s child
  let s := s.modifyTree child fun x => { x with parent := parent }
  match parent with
  | some p =>
    let first := (s.task p).tree.firstChild
    let s := s.modifyTree child fun x => { x with siblingNext := first }
    let s := match first with
      | some f => s.modifyTree f fun x => { x with siblingPrev := some child }
      | none => s
    let s := s.modifyTree p fun x => { x with firstChild := some child }
    s.modify child fun x => { x with ppid := (s.task p).pid }
  | none => s.modify child fun x => { x with ppid := 0 }

/-- `LINUX_SIG_DFL` and `LINUX_SIG_IGN`. -/
def linuxSigDfl : ℕ := 0
def linuxSigIgn : ℕ := 1

def wakeCpu (s : TaskTable) (t : TaskRef) : ℕ :=
  if 0 ≤ (s.task t).assignedCpu then (s.task t).assignedCpu.toNat else (schedulerCpuId s).val

def wakeIfBlocked (s : TaskTable) (t : TaskRef) : TaskTable :=
  if (s.task t).state = .blocked then schedulerTaskMakeRunnable s t (wakeCpu s t) else s

def processNotifyParentSigchld (s : TaskTable) : Option TaskRef → TaskTable
  | none => s
  | some p =>
    if (s.task p).state = .unused ∨ (s.task p).state = .zombie then s else
    let s := if (s.task p).sig.sigchldHandler ≠ linuxSigIgn then
        s.modify p fun x => { x with sig := { x.sig with sigchldPending := true } }
      else s
    wakeIfBlocked s p

def taskFindByPid (s : TaskTable) (pid : ℤ) : Option TaskRef :=
  (s.findSlot fun t => t.state ≠ .unused ∧ t.pid = pid).map .slot

/-- `task_alloc`: only the slots with backing memory are handed out. -/
def taskAlloc (s : TaskTable) : Option (Fin procMaxTasks) :=
  (List.finRange procMaxTasks).find? fun i =>
    i.val < userAsMaxTasks ∧ (s.task (.slot i)).state = .unused

/-! ## User memory -/

abbrev UserMem := Region → Fin procMaxTasks → ℕ → UInt8

/-- A byte of the backing arrays: its region, its slot, its offset. -/
abbrev ArrayByte := Region × Fin procMaxTasks × ℕ

def KernelLayout.address (L : KernelLayout) (x : ArrayByte) : ℕ := L.arrays x.1 + x.2.1.val * x.1.size + x.2.2

/-- What the kernel reaches at the address of a byte of an array while `d` is loaded: the array, or the user
page that `d` has there instead. Behind the framebuffer there is no array. -/
def KernelLayout.reached (L : KernelLayout) (d : Directory) (x : ArrayByte) : Option ArrayByte :=
  match (d.entry (L.address x)).frame with
  | .user r idx p => some (r, idx, p * pageBytes + L.address x % pageBytes)
  | .phys addr => if addr + L.address x % pageBytes = L.address x then some x else none

namespace UserMem

variable (L : KernelLayout) (d : Directory) (m : UserMem)

def put (x : ArrayByte) (v : UInt8) : UserMem := fun r idx a => if (r, idx, a) = x then v else m r idx a

def store (x : ArrayByte) (v : UInt8) : UserMem :=
  match L.reached d x with
  | some y => m.put y v
  | none => m

def load (x : ArrayByte) : UInt8 :=
  match L.reached d x with
  | some (r, idx, a) => m r idx a
  | none => L.fbByte (L.address x)

/-- `memset` of part of an array to zero. -/
def clear (r : Region) (idx : Fin procMaxTasks) (off len : ℕ) : UserMem :=
  (List.range len).foldl (fun m k => m.store L d (r, idx, off + k) 0) m

/-- `memcpy` of the first `len` bytes between two slots' arrays of a region. -/
def copy (r : Region) (dst src : Fin procMaxTasks) (len : ℕ) : UserMem :=
  (List.range len).foldl (fun m k => m.store L d (r, dst, k) (m.load L d (r, src, k))) m

end UserMem

/-- How many heap and heap-extension bytes a heap limit stands for. -/
def heapBytes (limit : ℕ) : ℕ × ℕ :=
  if limit > Region.heap.base then
    let n := limit - Region.heap.base
    if n > Region.heap.size then
      (Region.heap.size, min (n - Region.heap.size) Region.heapExt.size)
    else (n, 0)
  else (Region.heap.size, 0)

/-- `task_clear_user_regions`, by the heap limit the record still holds, while `d` is loaded. The
big-PIE array is not among the regions it clears. -/
def taskClearUserRegions (L : KernelLayout) (d : Directory) (m : UserMem) (idx : Fin procMaxTasks)
    (limit : ℕ) : UserMem :=
  if idx.val ≥ userAsMaxTasks then m else
  let (heap, ext) := heapBytes limit
  let m := m.clear L d .low idx 0 Region.low.size
  let m := m.clear L d .text idx 0 Region.text.size
  let m := m.clear L d .stack idx 0 Region.stack.size
  let m := m.clear L d .heap idx 0 heap
  m.clear L d .heapExt idx 0 ext

/-- The part of `process_fork` that copies the parent's image. -/
def forkCopyMemory (L : KernelLayout) (d : Directory) (m : UserMem) (child parent : Fin procMaxTasks)
    (limit : ℕ) : UserMem :=
  let m := m.copy L d .low child parent Region.low.size
  let m := m.copy L d .text child parent Region.text.size
  let m := m.copy L d .stack child parent Region.stack.size
  let (heap, ext) := heapBytes limit
  let m := m.copy L d .heap child parent heap
  let m := m.clear L d .heap child heap (Region.heap.size - heap)
  let m := m.copy L d .heapExt child parent ext
  m.clear L d .heapExt child ext (Region.heapExt.size - ext)

/-! ## Process creation -/

/-- The process side of the kernel: task table, page directories, backing arrays. -/
structure ProcState where
  tab : TaskTable
  pd : Fin procMaxTasks → Directory
  mem : UserMem

/-- `USER_STACK_TOP`, `USER_MMAP_BASE`. -/
def userStackTop : ℕ := Region.stack.base + pageBytes
def userMmapBase : ℕ := 0x30000000

def freshImage (name : String) : UserImage where
  name := name
  userStackTop := userStackTop
  userHeapBase := Region.heap.base
  userBrk := Region.heap.base
  userHeapLimit := Region.heap.base + Region.heap.size
  userMmapNext := userMmapBase

/-- The task table after `process_init`. -/
def processInitTable : TaskTable :=
  let s := { schedulerInit with nextPid := 1 }
  let s := s.modify (.slot bootSlot) fun x =>
    { x with
      pid := 1, ppid := 0, state := .unused, exitCode := 0
      image := { freshImage "init" with cwd := "/" }
      cred := { umask := 0o22 }
      pgid := 1, sid := 1, cttyKind := 1, cttyId := -1
      sig := { x.sig with sigaltstackFlags := 2 }
      assignedCpu := -1 }
  schedulerSetBootCurrent { s with nextPid := 2 } (.slot bootSlot)

/-- The fields a new child takes from its parent, in `process_fork`. -/
def forkFields (parent child : Task) : Task :=
  { child with
    image := { parent.image with
      name := child.image.name
      forkTf := child.image.forkTf
      cwd := if parent.image.cwd = "" then "/" else parent.image.cwd
      startPending := child.image.startPending }
    cred := parent.cred
    pgid := parent.pgid, sid := parent.sid
    cttyKind := parent.cttyKind, cttyId := parent.cttyId
    sig := { child.sig with
      sigintHandler := parent.sig.sigintHandler
      sigalrmHandler := parent.sig.sigalrmHandler
      sigtermHandler := parent.sig.sigtermHandler
      sigchldHandler := parent.sig.sigchldHandler
      sigintPending := false, sigalrmPending := false, sigtermPending := false
      sigaltstackSp := parent.sig.sigaltstackSp
      sigaltstackSize := parent.sig.sigaltstackSize
      sigaltstackFlags := parent.sig.sigaltstackFlags } }

/-- The child's record in `process_fork` up to the point where it is linked. -/
def forkPrepare (s : TaskTable) (parent child : TaskRef) : TaskTable :=
  let s := { s.modify child fun x =>
      { x with pid := s.nextPid, ppid := (s.task parent).pid, state := .unused, exitCode := 0,
               image := { x.image with name := (s.task parent).image.name } }
    with nextPid := s.nextPid + 1 }
  s.modify child fun x => forkFields (s.task parent) x

/-- The saved frame of a fork child: it returns `0`, without single-step. -/
def forkFrame (tf : TrapFrame) (x : Task) : Task :=
  { x with image := { x.image with
    forkTf := { tf with rax := 0, rflags := tf.rflags &&& (2 ^ 64 - 1 - 2 ^ 8) } } }

/-- The task-table part of `process_fork`, for the slots it has chosen. -/
def forkTable (s : TaskTable) (parent child : TaskRef) (tf : TrapFrame) : TaskTable :=
  let s := taskChildLink (forkPrepare s parent child) (some parent) child
  schedulerTaskSetBlocked (s.modify child (forkFrame tf)) child

/-- `process_fork`. The caller is a user task: idle tasks make no system calls. Its directory is loaded. -/
def processFork (L : KernelLayout) (s : ProcState) (parentTf : Option TrapFrame) : ProcState × ℤ :=
  match schedulerCurrentTask s.tab, parentTf with
  | .slot parent, some tf =>
    match taskAlloc s.tab with
    | none => (s, -1)
    | some child =>
      if child.val ≥ userAsMaxTasks ∨ parent.val ≥ userAsMaxTasks then (s, -1) else
      let limit := (s.tab.task (.slot child)).image.userHeapLimit
      let tab := forkTable s.tab (.slot parent) (.slot child) tf
      let mem := taskClearUserRegions L (s.pd parent) s.mem child limit
      ({ tab := tab
         pd := Function.update s.pd child (taskBuildAddressSpace L child true)
         mem := forkCopyMemory L (s.pd parent) mem child parent (s.tab.task (.slot parent)).image.userHeapLimit },
        (tab.task (.slot child)).pid)
  | _, _ => (s, -1)

/-- The task record `process_spawn_exec` fills in before it links the child. -/
def spawnFields (parent : Task) (pid : ℤ) (name : String) : Task where
  pid := pid
  ppid := parent.pid
  state := .blocked
  image := { freshImage name with
    cwd := if parent.image.cwd = "" then "/" else parent.image.cwd }
  cred := parent.cred
  pgid := parent.pgid
  sid := parent.sid
  cttyKind := parent.cttyKind
  cttyId := parent.cttyId
  sig :=
    { sigintHandler := parent.sig.sigintHandler
      sigalrmHandler := parent.sig.sigalrmHandler
      sigtermHandler := parent.sig.sigtermHandler
      sigchldHandler := parent.sig.sigchldHandler
      sigaltstackSp := parent.sig.sigaltstackSp
      sigaltstackSize := parent.sig.sigaltstackSize
      sigaltstackFlags := parent.sig.sigaltstackFlags }
  assignedCpu := -1

/-- Give a slot back: `scheduler_task_set_unused`, then `memset`. -/
def taskRelease (s : TaskTable) (t : TaskRef) : TaskTable :=
  (schedulerTaskSetUnused s t).modify t fun _ => {}

/-- The child's record in `process_spawn_exec` up to the point where it is linked. -/
def spawnPrepare (s : TaskTable) (parent child : TaskRef) (name : String) : TaskTable :=
  { s.modify child fun _ => spawnFields (s.task parent) s.nextPid name
    with nextPid := s.nextPid + 1 }

/-- The task-table part of `process_spawn_exec`; `loaded` is what `elf_loader_exec`
answered. -/
def spawnTable (s : TaskTable) (parent child : TaskRef) (name : String) (loaded : Bool) : TaskTable :=
  let s := taskChildLink (spawnPrepare s parent child name) (some parent) child
  if loaded then
    let s := s.modify child fun x => { x with image := { x.image with startPending := true } }
    let s := schedulerTaskSetBlocked s child
    schedulerTaskMakeRunnable s child (schedulerCpuId s).val
  else taskRelease (taskChildUnlink s child) child

/-- `process_spawn_exec`. The loader is the environment's: it writes the child's memory
and answers whether the image was loaded. -/
def processSpawnExec (L : KernelLayout) (s : ProcState) (name : String)
    (elfLoaderExec : UserMem → UserMem × Bool) : ProcState × ℤ :=
  match schedulerCurrentTask s.tab with
  | .slot parent =>
    match taskAlloc s.tab with
    | none => (s, -1)
    | some child =>
      let d := s.pd parent
      let mem := taskClearUserRegions L d s.mem child (Region.heap.base + Region.heap.size)
      let mem := mem.clear L d .heapExt child 0 Region.heapExt.size
      let mem := mem.clear L d .bigpie child 0 Region.bigpie.size
      let (mem, loaded) := elfLoaderExec mem
      let tab := spawnTable s.tab (.slot parent) (.slot child) name loaded
      ({ tab := tab
         pd := Function.update s.pd child (taskBuildAddressSpace L child true)
         mem := mem },
        if loaded then (tab.task (.slot child)).pid else -1)
  | .idle _ => (s, -1)

/-! ## Exit, kill and adoption -/

def listFuel : ℕ := procMaxTasks + schedMaxCpus

/-- The list walk of `process_adopt_orphans`: the link to the next child is read before
the child moves. -/
def adoptList (dst : Option TaskRef) : ℕ → TaskTable → Option TaskRef → ℕ → TaskTable × ℕ
  | 0, s, _, moved => (s, moved)
  | _ + 1, s, none, moved => (s, moved)
  | n + 1, s, some c, moved =>
    let next := (s.task c).tree.siblingNext
    adoptList dst n (taskChildLink s dst c) next (moved + 1)

/-- The table walk of `process_adopt_orphans`, when the old parent is gone. -/
def adoptTable (fromPpid : ℤ) (dst : Option TaskRef) (acc : TaskTable × ℕ)
    (i : Fin procMaxTasks) : TaskTable × ℕ :=
  let t := acc.1.task (.slot i)
  if t.state = .unused ∨ t.ppid ≠ fromPpid then acc
  else (taskChildLink acc.1 dst (.slot i), acc.2 + 1)

def processAdoptOrphans (s : TaskTable) (fromPpid toPpid : ℤ) : TaskTable × ℕ :=
  let dst := taskFindByPid s toPpid
  match taskFindByPid s fromPpid with
  | some p => adoptList dst listFuel s (s.task p).tree.firstChild 0
  | none => (List.finRange procMaxTasks).foldl (adoptTable fromPpid dst) (s, 0)

/-- The common body of `process_exit_current` and `process_kill_pid`. -/
def terminate (s : TaskTable) (t : TaskRef) (code : ℤ) : TaskTable :=
  let s := s.modify t fun x => { x with exitCode := code }
  let s := (processAdoptOrphans s (s.task t).pid 1).1
  let parent := (s.task t).tree.parent
  let init := taskFindByPid s 1
  match parent, init with
  | some p, some i =>
    if (s.task p).sig.sigchldHandler = linuxSigIgn then
      let s := taskChildLink (taskChildUnlink s t) (some i) t
      processNotifyParentSigchld (schedulerTaskSetZombie s t) (some i)
    else processNotifyParentSigchld (schedulerTaskSetZombie s t) (some p)
  | parent, _ => processNotifyParentSigchld (schedulerTaskSetZombie s t) parent

/-- `process_exit_current`. The init process does not return from it. -/
def processExitCurrent (s : TaskTable) (code : ℤ) : TaskTable :=
  let cur := schedulerCurrentTask s
  if (s.task cur).pid = 1 then s else terminate s cur code

def processKillPid (s : TaskTable) (pid code : ℤ) : TaskTable × ℤ :=
  match taskFindByPid s pid with
  | none => (s, -1)
  | some t => if pid = 1 then (s, -1) else (terminate s t code, 0)

/-- One round of the loop of `process_kill_pgid`. It adopts before it reads the parent,
and wakes the parent without `process_notify_parent_sigchld`. -/
def killPgidStep (pgid code : ℤ) (acc : TaskTable × ℕ) (i : Fin procMaxTasks) : TaskTable × ℕ :=
  let (s, killed) := acc
  let t := s.task (.slot i)
  if t.state = .unused ∨ t.pid = 1 ∨ t.pgid ≠ pgid then acc else
  let s := s.modify (.slot i) fun x => { x with exitCode := code }
  let s := (processAdoptOrphans s t.pid 1).1
  let s := schedulerTaskSetZombie s (.slot i)
  let s := match (s.task (.slot i)).tree.parent with
    | some p => wakeIfBlocked s p
    | none => s
  (s, killed + 1)

def processKillPgid (s : TaskTable) (pgid code : ℤ) : TaskTable × ℤ :=
  if pgid ≤ 0 then (s, -1) else
  let (s, killed) := (List.finRange procMaxTasks).foldl (killPgidStep pgid code) (s, 0)
  (s, if killed > 0 then 0 else -1)

/-! ## Signals -/

def processSignalOne (s : TaskTable) (t : TaskRef) (sig : ℤ) : TaskTable × ℤ :=
  let x := s.task t
  if x.state = .unused ∨ x.state = .zombie then (s, -1)
  else if sig = 9 then
    if x.pid = 1 then (s, -1) else processKillPid s x.pid (128 + sig)
  else if sig ≠ 2 ∧ sig ≠ 15 then (s, -1)
  else
    let handler := if sig = 2 then x.sig.sigintHandler else x.sig.sigtermHandler
    if handler = linuxSigIgn then (s, 0)
    else if handler = linuxSigDfl then
      if x.pid = 1 then (s, -1) else processKillPid s x.pid (128 + sig)
    else
      let s := s.modify t fun x =>
        if sig = 2 then { x with sig := { x.sig with sigintPending := true } }
        else { x with sig := { x.sig with sigtermPending := true } }
      (wakeIfBlocked s t, 0)

def processSendSignal (s : TaskTable) (pid sig : ℤ) : TaskTable × ℤ :=
  if pid ≤ 0 then (s, -1) else
  match taskFindByPid s pid with
  | none => (s, -1)
  | some t => processSignalOne s t sig

/-- One round of the loop of `process_send_signal_pgid`. -/
def signalPgidStep (pgid sig : ℤ) (acc : TaskTable × ℕ) (i : Fin procMaxTasks) : TaskTable × ℕ :=
  let t := acc.1.task (.slot i)
  if t.state = .unused ∨ t.state = .zombie ∨ t.pgid ≠ pgid then acc else
  let (s, rc) := processSignalOne acc.1 (.slot i) sig
  (s, if rc = 0 then acc.2 + 1 else acc.2)

def processSendSignalPgid (s : TaskTable) (pgid sig : ℤ) : TaskTable × ℤ :=
  if pgid ≤ 0 then (s, -1) else
  let (s, delivered) := (List.finRange procMaxTasks).foldl (signalPgidStep pgid sig) (s, 0)
  (s, if delivered > 0 then 0 else -1)

/-- `process_set_state(pid, TASK_RUNNABLE)`, the call with which a fork starts its child. -/
def processSetRunnable (s : TaskTable) (pid : ℤ) : TaskTable :=
  match taskFindByPid s pid with
  | none => s
  | some t => schedulerTaskMakeRunnable s t (wakeCpu s t)

/-- `do_sys_rt_sigaction` past its user copies: a handler of the running task. -/
def rtSigaction (s : TaskTable) (sig handler : ℕ) : TaskTable :=
  s.modify (schedulerCurrentTask s) fun x => { x with sig :=
    if sig = 14 then { x.sig with sigalrmHandler := handler }
    else if sig = 2 then { x.sig with sigintHandler := handler }
    else if sig = 15 then { x.sig with sigtermHandler := handler }
    else if sig = 17 then { x.sig with sigchldHandler := handler }
    else x.sig }

/-! ## Process groups -/

/-- May `process_setpgid` put a task into the group? The leader has to exist and be of
the caller's session. -/
def pgidAllowed (s : TaskTable) (sid pid pgid : ℤ) : Bool :=
  if pgid < 0 then false
  else if pgid = pid then true
  else match taskFindByPid s pgid with
    | none => false
    | some leader => (s.task leader).sid = sid

def processSetpgid (s : TaskTable) (pid pgid : ℤ) : TaskTable × ℤ :=
  let cur := s.task (schedulerCurrentTask s)
  match taskFindByPid s (if pid = 0 then cur.pid else pid) with
  | none => (s, -1)
  | some t =>
    let pgid := if pgid = 0 then (s.task t).pid else pgid
    if (s.task t).sid ≠ cur.sid then (s, -1)
    else if pgidAllowed s cur.sid (s.task t).pid pgid then
      (s.modify t fun x => { x with pgid := pgid }, 0)
    else (s, -1)

def processCttyNone : ℤ := 0

def processSetsid (s : TaskTable) : TaskTable × ℤ :=
  let cur := schedulerCurrentTask s
  if (s.task cur).pgid = (s.task cur).pid then (s, -1) else
  (s.modify cur fun x =>
    { x with sid := x.pid, pgid := x.pid, cttyKind := processCttyNone, cttyId := -1 },
    (s.task cur).pid)

/-! ## Waiting -/

/-- What a waiter waits for: the `pid` argument of `process_wait_pid`, or any child. -/
inductive WaitFor
  | any
  | pid (p : ℤ)
  deriving DecidableEq, Repr

def WaitFor.matches (w : WaitFor) (parent child : Task) : Bool :=
  match w with
  | any => true
  | pid p =>
    if p > 0 then child.pid = p
    else if p = 0 then child.pgid = parent.pgid
    else if p < -1 then child.pgid = -p
    else true

/-- The scan over the children: was there a match, and the first matching zombie. -/
def waitScan (s : TaskTable) (parent : TaskRef) (w : WaitFor) : ℕ → Option TaskRef → Bool → Bool × Option TaskRef
  | 0, _, hasMatch => (hasMatch, none)
  | _ + 1, none, hasMatch => (hasMatch, none)
  | n + 1, some t, hasMatch =>
    if !w.matches (s.task parent) (s.task t) then
      waitScan s parent w n (s.task t).tree.siblingNext hasMatch
    else if (s.task t).state = .zombie then (true, some t)
    else waitScan s parent w n (s.task t).tree.siblingNext true

inductive WaitResult
  | reaped (pid status : ℤ)
  | noChild
  | again
  | blocked
  deriving DecidableEq, Repr

def reap (s : TaskTable) (t : TaskRef) : TaskTable := taskRelease (taskChildUnlink s t) t

/-- One round of the loop of `process_wait_pid` (`process_wait_any` is the case without
options that takes any child): scan, then reap, fail, return or block. -/
def waitRound (s : TaskTable) (parent : TaskRef) (w : WaitFor) (nohang : Bool) :
    TaskTable × WaitResult × Option TaskRef :=
  match waitScan s parent w listFuel (s.task parent).tree.firstChild false with
  | (_, some t) =>
    (reap s t, .reaped (s.task t).pid ((s.task t).exitCode % 256 * 256), some t)
  | (false, none) => (s, .noChild, none)
  | (true, none) =>
    if nohang then (s, .again, none)
    else (schedulerYield (schedulerTaskSetBlocked s parent), .blocked, none)

end EdgeOS
