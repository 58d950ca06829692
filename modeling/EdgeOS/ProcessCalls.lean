import EdgeOS.Buffer
import EdgeOS.ProcessDescriptors
import EdgeOS.ProcessExec
import EdgeOS.UserCopy

namespace EdgeOS

open Lib TaskTable

/-!
The process-control calls with their arguments in user memory: `clone3`, `wait4`, `waitid`, `spawn`,
`execve` and `execveat`. A wait is modelled round by round: each round is one step of the call.
-/

/-! ## Arguments -/

/-- `copy_from_user` of one byte. -/
def copyByte (mem : Memory) (a : UInt64) : Option UInt8 := if userRangeOk a 1 then some (mem a) else none

/-- `copy_from_user` of an eight byte word. -/
def copyWord (mem : Memory) (a : UInt64) : Option UInt64 :=
  (copyFromUser mem a 8).map fun b => UInt64.ofNat (b.foldr (fun c n => c.toNat + 256 * n) 0)

/-- The loop of `copy_user_cstr` from byte `i` on, with `n` bytes left before the last one. -/
def cstrLoop (mem : Memory) (src : UInt64) : ℕ → ℕ → Bytes → Bytes × Bool
  | 0, i, dst => (patch dst i [0], false)
  | n + 1, i, dst =>
    match copyByte mem (src + UInt64.ofNat i) with
    | none => (dst, false)
    | some c => if c = 0 then (patch dst i [c], true) else cstrLoop mem src n (i + 1) (patch dst i [c])

/-- `copy_user_cstr`. What was copied before a failure stays. -/
def copyUserCstr (mem : Memory) (dst : Bytes) (src : UInt64) : Bytes × Bool :=
  if dst.length ≤ 1 then (dst, false)
  else if src = 0 then (patch dst 0 [0], true)
  else cstrLoop mem src (dst.length - 1) 0 dst

/-- The loop that reads `kpath`: at most `n` bytes with the final zero. -/
def kpathLoop (mem : Memory) (path : UInt64) : ℕ → ℕ → Except Errno Bytes
  | 0, _ => .error .einval
  | n + 1, i =>
    match copyByte mem (path + UInt64.ofNat i) with
    | none => .error .efault
    | some c => if c = 0 then .ok [] else (kpathLoop mem path n (i + 1)).map (c :: ·)

/-- The path argument of `do_sys_execve` and `do_sys_spawn`. -/
def readKpath (mem : Memory) (path : UInt64) : Except Errno Bytes :=
  if path = 0 then .error .einval
  else if !userRangeOk path 1 then .error .efault
  else kpathLoop mem path 255 0

/-- The loop that counts the pointers of an argument vector, `n` of 64 left. -/
def countArgs (mem : Memory) (vec : UInt64) : ℕ → ℕ → Except Errno ℕ
  | 0, argc => .ok argc
  | n + 1, argc =>
    match copyWord mem (vec + UInt64.ofNat (8 * argc)) with
    | none => .error .efault
    | some p =>
      if p = 0 then .ok argc
      else if !userRangeOk p 1 then .error .efault
      else countArgs mem vec n (argc + 1)

def scanArgs (mem : Memory) (vec : UInt64) : Except Errno ℕ :=
  if vec = 0 then .ok 0 else countArgs mem vec 64 0

/-- `start_argbuf` or `start_envbuf` of a task: 32 buffers of 128 bytes. -/
abbrev ArgBufs := ℕ → Bytes

/-- The loop of `do_sys_execve` that copies entry `i` and the `n - 1` after it into the buffers. It
returns how many there are, or nothing when one cannot be copied. -/
def copyArgs (mem : Memory) (vec : UInt64) : ℕ → ℕ → ArgBufs → ArgBufs × Option ℕ
  | 0, i, bufs => (bufs, some i)
  | n + 1, i, bufs =>
    match copyWord mem (vec + UInt64.ofNat (8 * i)) with
    | none => (bufs, none)
    | some p =>
      if p = 0 then (bufs, some i)
      else
        match copyUserCstr mem (bufs i) p with
        | (b, true) => copyArgs mem vec n (i + 1) (Function.update bufs i b)
        | (b, false) => (Function.update bufs i b, none)

/-! ## Forks and waits -/

/-- `struct edge_linux_clone_args`. -/
structure CloneArgs where
  flags : UInt64
  pidfd : UInt64
  childTid : UInt64
  parentTid : UInt64
  exitSignal : UInt64
  stack : UInt64
  stackSize : UInt64
  tls : UInt64
  setTid : UInt64
  setTidSize : UInt64
  cgroup : UInt64

def word64 (b : Bytes) (i : ℕ) : UInt64 :=
  UInt64.ofNat (((b.drop (8 * i)).take 8).foldr (fun c n => c.toNat + 256 * n) 0)

/-- The structure behind `size` bytes that were copied in; the rest of it is zero. -/
def CloneArgs.ofBytes (b : Bytes) : CloneArgs where
  flags := word64 b 0
  pidfd := word64 b 1
  childTid := word64 b 2
  parentTid := word64 b 3
  exitSignal := word64 b 4
  stack := word64 b 5
  stackSize := word64 b 6
  tls := word64 b 7
  setTid := word64 b 8
  setTidSize := word64 b 9
  cgroup := word64 b 10

def linuxClonePidfd : UInt64 := 0x1000

def CloneArgs.wantsPidfd (ca : CloneArgs) : Bool := ca.flags &&& linuxClonePidfd ≠ 0

/-- The tests of `do_sys_clone3` on its arguments; 17 is `LINUX_SIGCHLD`. -/
def CloneArgs.refused (ca : CloneArgs) : Bool :=
  ca.flags &&& ~~~linuxClonePidfd ≠ 0 ||
    (ca.stack ≠ 0 || ca.stackSize ≠ 0 || ca.tls ≠ 0 || ca.childTid ≠ 0 || ca.parentTid ≠ 0 ||
      ca.setTid ≠ 0 || ca.setTidSize ≠ 0 || ca.cgroup ≠ 0) ||
    (ca.exitSignal ≠ 0 && ca.exitSignal ≠ 17) || (ca.wantsPidfd && ca.pidfd = 0)

/-- What `do_sys_clone3` makes of its arguments before it forks. -/
def readCloneArgs (mem : Memory) (args size : UInt64) : Except Errno CloneArgs :=
  if args = 0 then .error .einval
  else if size < 64 ∨ size > 88 then .error .einval
  else
    match copyFromUser mem args size with
    | none => .error .efault
    | some b => if (CloneArgs.ofBytes b).refused then .error .einval else .ok (.ofBytes b)

/-- How a call ends, or that it waits for its next round. -/
inductive CallEnd
  | ok (v : ℤ)
  | error (e : Errno)
  | blocked
  | killed
  | runs
  deriving DecidableEq, Repr

/-- `LINUX_WNOHANG`, `LINUX_WUNTRACED`, `LINUX_WCONTINUED`, `LINUX_WEXITED`, `LINUX_WNOWAIT`. -/
def linuxWnohang : BitVec 32 := 1
def linuxWuntraced : BitVec 32 := 2
def linuxWcontinued : BitVec 32 := 8
def linuxWexited : BitVec 32 := 4
def linuxWnowait : BitVec 32 := 0x01000000

/-- `LINUX_WAITID_P_ALL`, `LINUX_WAITID_P_PID`, `LINUX_WAITID_P_PGID` with the id argument. -/
def waitidPid (idtype : ℤ) (id : UInt64) : Option ℤ :=
  if idtype = 0 then some (-1)
  else if idtype = 1 then some (id.toUInt32.toInt32.toInt)
  else if idtype = 2 then some (if id = 0 then 0 else (-id.toUInt32.toInt32).toInt)
  else none

/-- The size of `struct edge_linux_siginfo_min`. -/
def waitidInfoSize : UInt64 := 128

def baseName (path : Bytes) : Bytes := (path.reverse.takeWhile (· ≠ 47)).reverse

/-- The text of a C string that is copied into `cur->name`, with `TASK_NAME_MAX` 32. -/
def nameOf (b : Bytes) : String := String.ofList ((b.take 31).map fun c => Char.ofNat c.toNat)

/-- The name that `do_sys_execve` gives the task: after the first argument, or after the path. -/
def execName (kpath : Bytes) (argc : ℕ) (arg0 : Bytes) : String :=
  let arg0 := arg0.takeWhile (· ≠ 0)
  let base := baseName (if 0 < argc ∧ arg0 ≠ [] then arg0 else kpath)
  nameOf (if base = [] then [112, 114, 111, 99] else base)

/-- What `do_sys_execve` reads before it copies anything. -/
def readExecArgs (mem : Memory) (path argv envp : UInt64) : Except Errno (Bytes × ℕ × ℕ) :=
  match readKpath mem path with
  | .error e => .error e
  | .ok kpath =>
    match scanArgs mem argv with
    | .error e => .error e
    | .ok argc =>
      match scanArgs mem envp with
      | .error e => .error e
      | .ok envc => .ok (kpath, min argc 32, min envc 32)

/-- `LINUX_AT_EMPTY_PATH`, `LINUX_AT_SYMLINK_NOFOLLOW`. -/
def linuxAtEmptyPath : BitVec 32 := 0x1000
def linuxAtSymlinkNofollow : BitVec 32 := 0x100

namespace ProcFds

variable (L : KernelLayout) (k : ProcFds)

def doSysClone3 (mem : Memory) (args size : UInt64) (tf : TrapFrame) (cbs : FdIdx → List ℕ)
    (window : ℕ → List ℕ) : ProcFds × CallEnd :=
  match readCloneArgs mem args size with
  | .error e => (k, .error e)
  | .ok ca =>
    let child := (processFork L k.sys.proc (some tf)).2
    let k' := k.doSysFork L tf cbs
    if child < 0 then (k', .error .eagain)
    else if 0 < child ∧ ca.wantsPidfd then
      match allocSpecialFd k'.fds k.pid .pidfd child linuxOCloexec with
      | (fds, none) => ({ k' with fds := fds }, .error .enomem)
      | (fds, some i) =>
        if userRangeOk ca.pidfd 4 then ({ k' with fds := fds }, .ok child)
        else ({ k' with fds := (doSysClose window fds k.pid i.val).1 }, .error .efault)
    else (k', .ok child)

/-- One round of `process_wait_pid`: the state after it and what it returned, if it did. -/
def waitPid (pid : ℤ) (nohang : Bool) (window : ℕ → List ℕ) : ProcFds × Option ℤ :=
  let res := (waitRound k.sys.proc.tab k.sys.current (.pid pid) nohang).2.1
  ({ sys := k.sys.waitStep (.pid pid) nohang
     fds := match res.reapedPid with
       | some (pid, _) => fdProcRelease window k.fds pid
       | none => k.fds },
    match res with
    | .reaped pid _ => some pid
    | .noChild => some (-1)
    | .again => some 0
    | .blocked => none)

/-- One round of `do_sys_wait4`. -/
def doSysWait4 (pid : ℤ) (status : UInt64) (options : BitVec 32) (window : ℕ → List ℕ) : ProcFds × CallEnd :=
  if hasFlag options (~~~(linuxWnohang ||| linuxWuntraced ||| linuxWcontinued)) then (k, .error .einval)
  else
    match k.waitPid pid (hasFlag options linuxWnohang) window with
    | (k, none) => (k, .blocked)
    | (k, some rc) =>
      if rc < 0 then (k, .error .echild)
      else if status ≠ 0 ∧ 0 < rc ∧ !userRangeOk status 4 then (k, .error .efault)
      else (k, .ok rc)

/-- One round of `do_sys_waitid`. -/
def doSysWaitid (idtype : ℤ) (id info : UInt64) (options : BitVec 32) (window : ℕ → List ℕ) : ProcFds × CallEnd :=
  if !hasFlag options linuxWexited then (k, .error .einval)
  else if hasFlag options linuxWnowait then (k, .error .eopnotsupp)
  else
    match waitidPid idtype id with
    | none => (k, .error .einval)
    | some pid =>
      match k.waitPid pid (hasFlag options linuxWnohang) window with
      | (k, none) => (k, .blocked)
      | (k, some rc) =>
        if rc < 0 then (k, .error .echild)
        else if info ≠ 0 ∧ !userRangeOk info waitidInfoSize then (k, .error .efault)
        else (k, .ok 0)

/-- `do_sys_spawn`. The `-1` of `process_spawn_exec` reads as `EPERM`. -/
def doSysSpawn (mem : Memory) (path argv : UInt64) (elf : UserMem → UserMem × Bool) : ProcFds × CallEnd :=
  match readKpath mem path with
  | .error e => (k, .error e)
  | .ok kpath =>
    match scanArgs mem argv with
    | .error e => (k, .error e)
    | .ok _ =>
      match processSpawnExec L k.sys.proc (nameOf (baseName kpath)) elf with
      | (proc, child) =>
        ({ k with sys := { k.sys with proc := proc } }, if child < 0 then .error .eperm else .ok child)

end ProcFds

/-- Processes, descriptors and the argument buffers of the tasks. -/
structure ExecSys where
  procs : ProcFds
  argbuf : TaskRef → ArgBufs := fun _ _ => zeros 128
  envbuf : TaskRef → ArgBufs := fun _ _ => zeros 128

namespace ExecSys

variable (L : KernelLayout) (c : ExecSys)

def current : TaskRef := c.procs.sys.current

/-- The loops of `do_sys_execve` that copy the arguments in. They return `argc`, or nothing when a
string cannot be copied. -/
def copyIn (mem : Memory) (argv envp : UInt64) (argc envc : ℕ) : ExecSys × Option ℕ :=
  match copyArgs mem argv argc 0 (c.argbuf c.current) with
  | (args, none) => ({ c with argbuf := Function.update c.argbuf c.current args }, none)
  | (args, some argc) =>
    let (envs, done) := copyArgs mem envp envc 0 (c.envbuf c.current)
    ({ c with argbuf := Function.update c.argbuf c.current args
              envbuf := Function.update c.envbuf c.current envs }, done.map fun _ => argc)

/-- `do_sys_execve` from where it sets the name. -/
def execNamed (name : String) (f : ExecFile) (window : ℕ → List ℕ) : ExecSys × CallEnd :=
  let (sys, done) := execProcess L c.procs.sys name f
  let fds := if f.check = none then
    EdgeOS.doSysExecve window c.procs.fds c.procs.pid (done ≠ .killed) else c.procs.fds
  ({ c with procs := { sys := sys, fds := fds } }, match done with
    | .error e => .error e
    | .killed => .killed
    | .runs => .runs)

/-- `do_sys_execve`; `file` is what the file system has behind each path. -/
def doSysExecve (mem : Memory) (path argv envp : UInt64) (file : Bytes → ExecFile)
    (window : ℕ → List ℕ) : ExecSys × CallEnd :=
  match readExecArgs mem path argv envp with
  | .error e => (c, .error e)
  | .ok (kpath, argc, envc) =>
    match c.copyIn mem argv envp argc envc with
    | (c, none) => (c, .error .efault)
    | (c, some argc) =>
      c.execNamed L (execName kpath argc (c.argbuf c.current 0)) (file kpath) window

def doSysExecveat (mem : Memory) (dirfd : ℤ) (path argv envp : UInt64) (flags : BitVec 32)
    (file : Bytes → ExecFile) (window : ℕ → List ℕ) : ExecSys × CallEnd :=
  if hasFlag flags (~~~(linuxAtEmptyPath ||| linuxAtSymlinkNofollow)) then (c, .error .einval)
  else if path = 0 then (c, .error .einval)
  else
    match copyUserCstr mem (zeros 256) path with
    | (_, false) => (c, .error .efault)
    | (b, true) =>
      if hasFlag flags linuxAtEmptyPath ∧ rd8 b 0 = 0 then
        match fdProcWithStdio c.procs.fds c.procs.pid with
        | (fds, p) =>
          let found := p.bind fun p => (fdGet fds p dirfd).map fun i => fds.fds (p, i)
          ({ c with procs := { c.procs with fds := fds } }, match found with
            | some e => if e.kind ≠ .vfs ∨ e.path = "" then .error .ebadf else .error .enosys
            | none => .error .ebadf)
      else if dirfd ≠ -100 ∧ rd8 b 0 ≠ 47 then (c, .error .enosys)
      else c.doSysExecve L mem path argv envp file window

end ExecSys

/-- The process-control calls, with their arguments and what the rest of the kernel answers. -/
inductive ProcCall
  | clone3 (mem : Memory) (args size : UInt64) (tf : TrapFrame) (cbs : FdIdx → List ℕ)
      (window : ℕ → List ℕ)
  | wait4 (pid : ℤ) (status : UInt64) (options : BitVec 32) (window : ℕ → List ℕ)
  | waitid (idtype : ℤ) (id info : UInt64) (options : BitVec 32) (window : ℕ → List ℕ)
  | spawn (mem : Memory) (path argv : UInt64) (elf : UserMem → UserMem × Bool)
  | execve (mem : Memory) (path argv envp : UInt64) (file : Bytes → ExecFile) (window : ℕ → List ℕ)
  | execveat (mem : Memory) (dirfd : ℤ) (path argv envp : UInt64) (flags : BitVec 32)
      (file : Bytes → ExecFile) (window : ℕ → List ℕ)

def ExecSys.call (L : KernelLayout) (c : ExecSys) : ProcCall → ExecSys × CallEnd
  | .clone3 mem args size tf cbs window =>
    let (k, r) := c.procs.doSysClone3 L mem args size tf cbs window
    ({ c with procs := k }, r)
  | .wait4 pid status options window =>
    let (k, r) := c.procs.doSysWait4 pid status options window
    ({ c with procs := k }, r)
  | .waitid idtype id info options window =>
    let (k, r) := c.procs.doSysWaitid idtype id info options window
    ({ c with procs := k }, r)
  | .spawn mem path argv elf =>
    let (k, r) := c.procs.doSysSpawn L mem path argv elf
    ({ c with procs := k }, r)
  | .execve mem path argv envp file window => c.doSysExecve L mem path argv envp file window
  | .execveat mem dirfd path argv envp flags file window =>
    c.doSysExecveat L mem dirfd path argv envp flags file window

end EdgeOS
