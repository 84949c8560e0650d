import Sbckernel.Kernel.Task
import Sbckernel.Lib.Reach

/-!
# Processes (`kernel/fork.c`, `kernel/exit.c`, `arch/i386/kernel/ptrace.c`)

`do_fork`, `do_exit`, `sys_wait4` and `sys_ptrace`. They are cut where the kernel may sleep:
`do_fork` at each allocation and each step of the clean-up, `do_exit` before it becomes a
zombie, and `sys_wait4` where it waits and also where it stores the status of a child, since
the store into user memory may have to wait for a page. Whether an allocation succeeds, and
which address it gives, is an argument.

What is copied in the address space, the files and the accounting is left out, as is the
terminal. `kfree` does not change what is in a task structure.
-/

namespace Sbckernel.Kernel.Process

open Lib Function

/-! ## `do_fork` -/

/-- The count of the user's tasks against `RLIMIT_NPROC`. -/
def overLimit (s : State) (uid : Nat) : Int → List Nat → Bool
  | _, [] => false
  | maxTasks, p :: l =>
    if (s.mem p).uid = uid then
      if maxTasks - 1 < 0 then true else overLimit s uid (maxTasks - 1) l
    else overLimit s uid maxTasks l

variable (s : State) (cur : Nat)

def findEmptyProcess : Option Nat :=
  let uid := (s.mem cur).uid
  let limit := (s.mem cur).rlimNproc - 1
  if maxTasks - minTasksLeftForRoot ≤ s.nrTasks ∧ uid ≠ 0 then none
  else if uid ≠ 0 ∧ limit < s.nrTasks ∧ overLimit s uid limit (forEachTask s) then none
  else (List.range maxTasks).find? fun i => (s.task i).isNone

/-- Some task has the number as its pid, its process group or its session. -/
def pidUsed (pid : Nat) : Bool :=
  (forEachTask s).any fun p =>
    (s.mem p).pid == pid || (s.mem p).pgrp == pid || (s.mem p).session == pid

/-- The search for a pid; it does not end if all are used. -/
def nextPid (s : State) : Nat → Nat → Option Nat
  | 0, _ => none
  | n + 1, last =>
    let last := if 0x8000 ≤ last + 1 then 1 else last + 1
    if pidUsed s last then nextPid s n last else some last

def getPid (flags : CloneFlags) : Option (State × Nat) :=
  if flags.pid then some (s, (s.mem cur).pid)
  else (nextPid s 0x8000 s.lastPid).map fun pid => ({ s with lastPid := pid }, pid)

/-- The copy of the task structure, as far as it is changed at once. -/
def newTask (t : TaskStruct) (pid : Nat) : TaskStruct :=
  { t with state := .uninterruptible, ptraced := false, tracesys := false, pid := pid, signal := 0 }

/-- The new task is put in the table and linked. -/
def linkTask (cur p nr pid : Nat) (flags : CloneFlags) : State :=
  { s with
    mem := update s.mem p (newTask (s.mem cur) pid)
    links := setLinks { s.links with
      pPptr := update s.links.pPptr p cur
      pOpptr := update s.links.pOpptr p cur
      pCptr := update s.links.pCptr p none } p
    task := update s.task nr (some p)
    nrTasks := s.nrTasks + 1
    pc := update (update s.pc p .unborn) cur (.fork .files p nr flags)
    forks := s.forks + 1
    serial := update s.serial p s.forks
    pidFrom := update s.pidFrom p (if flags.pid then s.pidFrom cur else s.forks) }

def kfree (p : Nat) : State := { s with live := update s.live p false }

/-- The start of `do_fork`, with what `kmalloc` returns. -/
def doFork (flags : CloneFlags) : Option Nat → State
  | none => returns s cur (-12)
  | some p => setPc { s with live := update s.live p true } cur (.fork .stack p 0 flags)

/-- From `alloc_kernel_stack` to `copy_files`. -/
def forkStack (cur p : Nat) (flags : CloneFlags) (ok : Bool) : Option State :=
  if ok then
    match findEmptyProcess s cur with
    | none => some (returns (kfree s p) cur (-11))
    | some nr => (getPid s cur flags).map fun r => linkTask r.1 cur p nr r.2 flags
  else some (returns (kfree s p) cur (-12))

/-- `copy_sighand`, with what `kmalloc` returns. -/
def copySighand (cur p : Nat) : Option Nat → State
  | none => setMem s p { s.mem p with sig := none }
  | some sig =>
    { setMem s p { s.mem p with sig := some sig } with
      action :=
        update s.action sig fun i =>
          ((s.mem cur).sig.elim (s.action sig) s.action) i }

/-- From `copy_thread` on. -/
def forkDone (cur p : Nat) (flags : CloneFlags) : State :=
  let s := setMem s p { s.mem p with exitSignal := flags.csignal }
  let s := wakeUpProcess (setPc s p .user) p
  returns s cur (s.mem p).pid

/-- One of the copy steps; `mem` is what it allocates. -/
def forkCopy (stage : ForkStage) (p nr : Nat) (flags : CloneFlags)
    (mem : Option Nat) : Option State :=
  let next (s : State) (stage : ForkStage) := setPc s cur (.fork stage p nr flags)
  match stage with
  | .files => some (next s (if flags.files ∨ mem.isSome then .fs else .cleanup))
  | .fs => some (next s (if flags.fs ∨ mem.isSome then .sighand else .cleanupFiles))
  | .sighand =>
    if flags.sighand then some (next s .mm)
    else some (next (copySighand s cur p mem) (if mem.isSome then .mm else .cleanupFs))
  | .mm =>
    if flags.vm ∨ mem.isSome then some (forkDone s cur p flags)
    else some (next s .cleanupSighand)
  | _ => none

/-- The last part of the clean-up. -/
def forkFailed (cur p nr : Nat) : State :=
  let s := { s with
    task := update s.task nr none
    links := removeLinks s.links p
    nrTasks := s.nrTasks - 1 }
  returns (setPc (kfree s p) p .gone) cur (-12)

/-- One step of the clean-up. -/
def forkCleanup (stage : ForkStage) (p nr : Nat) (flags : CloneFlags) : Option State :=
  match stage with
  | .cleanupSighand =>
    some (setPc (setMem s p { s.mem p with sig := none }) cur (.fork .cleanupFs p nr flags))
  | .cleanupFs => some (setPc s cur (.fork .cleanupFiles p nr flags))
  | .cleanupFiles => some (setPc s cur (.fork .cleanup p nr flags))
  | .cleanup => some (forkFailed s cur p nr)
  | _ => none

/-! ## `do_exit` -/

def forgetOriginalParent (father : Nat) : State :=
  (forEachTask s).foldl
    (fun s p =>
      if s.links.pOpptr p = father then
        { setMem s p { s.mem p with exitSignal := sigChld } with
          links := { s.links with
            pOpptr := update s.links.pOpptr p ((s.task 1).getD initTask) } }
      else s)
    s

/-- With `ignored` given, `will_become_orphaned_pgrp`; without, `is_orphaned_pgrp`. -/
def isOrphanedPgrp (pgrp : Nat) (ignored : Option Nat) : Bool :=
  (forEachTask s).all fun p =>
    let parent := s.mem (s.links.pPptr p)
    some p == ignored || (s.mem p).pgrp != pgrp || (s.mem p).state == .zombie ||
      parent.pid == 1 || !(parent.pgrp != pgrp && parent.session == (s.mem p).session)

def hasStoppedJobs (pgrp : Nat) : Bool :=
  (forEachTask s).any fun p => (s.mem p).pgrp == pgrp && (s.mem p).state == .stopped

/-- `SIGHUP` and `SIGCONT` for a process group. -/
def wakeOrphans (cur pgrp : Nat) : State :=
  killPg (killPg s cur pgrp sigHup) cur pgrp sigCont

/-- The child `p` goes back to its original parent. -/
def adoptLinks (l : Links) (cur p : Nat) : Links :=
  let l := { l with pCptr := update l.pCptr cur (l.pOsptr p) }
  let l := { l with pYsptr := update l.pYsptr p none }
  let l := { l with pPptr := update l.pPptr p (l.pOpptr p) }
  let l := { l with pOsptr := update l.pOsptr p (l.pCptr (l.pPptr p)) }
  let l :=
    match l.pOsptr p with
    | some o => { l with pYsptr := update l.pYsptr o (some p) }
    | none => l
  { l with pCptr := update l.pCptr (l.pPptr p) (some p) }

/-- One round of the loop of `exit_notify`. -/
def adopt (cur p : Nat) : State :=
  let s := { setMem s p { s.mem p with ptraced := false, tracesys := false } with
    links := adoptLinks s.links cur p }
  let s := if (s.mem p).state = .zombie then notifyParent s p (s.mem p).exitSignal else s
  if (s.mem p).pgrp ≠ (s.mem cur).pgrp ∧ (s.mem p).session = (s.mem cur).session ∧
      isOrphanedPgrp s (s.mem p).pgrp none ∧ hasStoppedJobs s (s.mem p).pgrp then
    wakeOrphans s cur (s.mem p).pgrp
  else s

def adoptAll : Nat → State → Nat → State
  | 0, s, _ => s
  | n + 1, s, cur =>
    match s.links.pCptr cur with
    | none => s
    | some p => adoptAll n (adopt s cur p) cur

def exitNotify : State :=
  let s := forgetOriginalParent s cur
  let parent := s.mem (s.links.pPptr cur)
  let me := s.mem cur
  let s :=
    if parent.pgrp ≠ me.pgrp ∧ parent.session = me.session ∧
        isOrphanedPgrp s me.pgrp (some cur) ∧ hasStoppedJobs s me.pgrp then
      wakeOrphans s cur me.pgrp
    else s
  let s := notifyParent s cur (s.mem cur).exitSignal
  adoptAll s.nrTasks s cur

/-- The last part of `do_exit`, which does not sleep. -/
def doExit (cur code : Nat) : State :=
  let s := { setMem s cur { s.mem cur with sig := none, state := .zombie, exitCode := code } with
    exited := s.exited ++ [s.serial cur] }
  schedule (setPc (exitNotify s cur) cur .gone) cur

/-! ## `sys_wait4` -/

def release (cur p : Nat) : State :=
  if p = cur then s
  else
    match (List.range' 1 (maxTasks - 1)).find? fun i => s.task i == some p with
    | some i =>
      kfree { s with
        nrTasks := s.nrTasks - 1
        task := update s.task i none
        links := removeLinks s.links p
        pc := update s.pc p .gone
        released := s.released ++ [s.serial p] } p
    | none => { s with panic := true }

/-- The child is one that is waited for. -/
def waitsFor (cur p : Nat) (pid : Int) (options : WaitOptions) : Bool :=
  let t := s.mem p
  (if 0 < pid then (t.pid : Int) == pid
    else if pid = 0 then t.pgrp == (s.mem cur).pgrp
    else pid == -1 || (t.pgrp : Int) == -pid) &&
  (t.ptraced || t.tracesys || (t.exitSignal != sigChld) == options.wclone)

inductive WaitResult where
  | stopped (p : Nat)
  | zombie (p : Nat)
  | nothing (flag : Bool)
  deriving DecidableEq, Repr

/-- The loop over the children. -/
def scanChildren (s : State) (cur : Nat) (pid : Int) (options : WaitOptions) :
    Bool → List Nat → WaitResult
  | flag, [] => .nothing flag
  | flag, p :: l =>
    if waitsFor s cur p pid options then
      let t := s.mem p
      if t.state = .stopped ∧ t.exitCode ≠ 0 ∧ (options.untraced ∨ t.ptraced) then .stopped p
      else if t.state = .zombie then .zombie p
      else scanChildren s cur pid options true l
    else scanChildren s cur pid options flag l

/-- From `repeat` to the next place where it sleeps. -/
def wait4Scan (pid : Int) (options : WaitOptions) : State :=
  match scanChildren s cur pid options false (children s cur) with
  | .stopped p => setPc s cur (.report p)
  | .zombie p => setPc s cur (.reap p)
  | .nothing true =>
    if options.nohang then returns s cur 0
    else if (s.mem cur).signalPending then returns s cur (-512)
    else schedule (setMem s cur { s.mem cur with state := .interruptible }) cur
  | .nothing false => returns s cur (-10)

/-- The links when `p` gets another parent. -/
def relink (l : Links) (p parent : Nat) : Links :=
  let l := removeLinks l p
  setLinks { l with pPptr := update l.pPptr p parent } p

/-- The status of the zombie has been stored. -/
def reaped (cur p : Nat) : State :=
  let retval := (s.mem p).pid
  let s :=
    if s.links.pOpptr p ≠ s.links.pPptr p then
      notifyParent { s with links := relink s.links p (s.links.pOpptr p) } p (s.mem p).exitSignal
    else release s cur p
  returns s cur retval

/-- The status of the stopped task has been stored. -/
def reported (cur p : Nat) : State :=
  returns (setMem s p { s.mem p with exitCode := 0 }) cur (s.mem p).pid

/-! ## `sys_ptrace` -/

inductive Request where
  | traceme
  | attach
  | cont
  | syscall
  | kill
  | singlestep
  | detach
  /-- The requests that read or write the memory and the registers of the child. -/
  | other
  deriving DecidableEq, Repr

def getTask (pid : Nat) : Option Nat :=
  (List.range' 1 (maxTasks - 1)).findSome? fun i =>
    (s.task i).filter fun p => (s.mem p).pid == pid

def mayAttach (cur child : TaskStruct) : Bool :=
  (child.dumpable && cur.uid == child.euid && cur.uid == child.suid && cur.uid == child.uid &&
    cur.gid == child.egid && cur.gid == child.sgid && cur.gid == child.gid) || cur.euid == 0

def ptraceAttach (cur child : Nat) : State × Int :=
  if child = cur then (s, -1)
  else if !mayAttach (s.mem cur) (s.mem child) then (s, -1)
  else if (s.mem child).ptraced then (s, -1)
  else
    let s := setMem s child { s.mem child with ptraced := true }
    let s := if s.links.pPptr child ≠ cur then { s with links := relink s.links child cur } else s
    ((sendSig s cur sigStop child true).1, 0)

/-- `PTRACE_CONT`, `PTRACE_SYSCALL` and `PTRACE_SINGLESTEP`. -/
def ptraceResume (child data : Nat) (tracesys : Bool) : State × Int :=
  if 32 < data then (s, -5)
  else
    (wakeUpProcess
      (setMem s child { s.mem child with tracesys := tracesys, exitCode := data }) child, 0)

def ptraceKill (child : Nat) : State × Int :=
  if (s.mem child).state = .zombie then (s, 0)
  else
    let s := wakeUpProcess s child
    (setMem s child { s.mem child with exitCode := sigKill }, 0)

def ptraceDetach (child data : Nat) : State × Int :=
  if 32 < data then (s, -5)
  else
    let s := setMem s child { s.mem child with ptraced := false, tracesys := false }
    let s := wakeUpProcess s child
    let s := setMem s child { s.mem child with exitCode := data }
    ({ s with links := relink s.links child (s.links.pOpptr child) }, 0)

def sysPtrace (request : Request) (pid data : Nat) : State × Int :=
  if request = .traceme then
    if (s.mem cur).ptraced then (s, -1)
    else (setMem s cur { s.mem cur with ptraced := true }, 0)
  else if pid = 1 then (s, -1)
  else
    match getTask s pid with
    | none => (s, -3)
    | some child =>
      if request = .attach then ptraceAttach s cur child
      else if ¬(s.mem child).ptraced then (s, -3)
      else if (s.mem child).state ≠ .stopped ∧ request ≠ .kill then (s, -3)
      else if s.links.pPptr child ≠ cur then (s, -3)
      else
        match request with
        | .cont => ptraceResume s child data false
        | .syscall => ptraceResume s child data true
        | .singlestep => ptraceResume s child data false
        | .kill => ptraceKill s child
        | .detach => ptraceDetach s child data
        | _ => (s, 0)

/-! ## Steps -/

inductive Action where
  | fork (t : Nat) (flags : CloneFlags) (p : Option Nat)
  | forkStack (t : Nat) (ok : Bool)
  | forkCopy (t : Nat) (mem : Option Nat)
  | forkCleanup (t : Nat)
  | exit (t code : Nat)
  | exitNotify (t : Nat)
  | wait4 (t : Nat) (pid : Int) (options : WaitOptions)
  | scan (t : Nat)
  | stored (t : Nat)
  | ptrace (t : Nat) (request : Request) (pid data : Nat)
  | sendSig (t sig p : Nat) (priv : Bool)
  | forceSig (sig p : Nat)
  /-- A task stops in `do_signal`. -/
  | stop (t code : Nat) (notify : Bool)
  | sleep (t : Nat) (interruptible : Bool)
  /-- A task that has gone to sleep is woken up. -/
  | wake (t : Nat)
  deriving DecidableEq, Repr

/-- The task can be the current one. -/
def Runs (t : Nat) : Prop :=
  (t = initTask ∨ t ∈ s.runQueue) ∧ (s.mem t).state = .running
  deriving Decidable

/-- The task has been started and has not exited. -/
def Pc.acts : Pc → Bool
  | .unborn | .gone => false
  | _ => true

/-- A step of a running task in the kernel, or in user mode. -/
def stepTask (t : Nat) : Action → Option State
  | .fork _ flags p =>
    if s.pc t = .user ∧ p.all (fun p => !s.live p) then some (doFork s t flags p) else none
  | .forkStack _ ok =>
    match s.pc t with
    | .fork .stack p _ flags => forkStack s t p flags ok
    | _ => none
  | .forkCopy _ mem =>
    match s.pc t with
    | .fork stage p nr flags => forkCopy s t stage p nr flags mem
    | _ => none
  | .forkCleanup _ =>
    match s.pc t with
    | .fork stage p nr flags => forkCleanup s t stage p nr flags
    | _ => none
  -- `init` and the idle task do not exit.
  | .exit _ code =>
    if s.pc t = .user ∧ t ≠ initTask ∧ s.task 1 ≠ some t then some (setPc s t (.exiting code))
    else none
  | .exitNotify _ =>
    match s.pc t with
    | .exiting code => some (doExit s t code)
    | _ => none
  | .wait4 _ pid options =>
    if s.pc t = .user then some (setPc s t (.wait4 pid options)) else none
  | .scan _ =>
    match s.pc t with
    | .wait4 pid options => some (wait4Scan s t pid options)
    | _ => none
  | .stored _ =>
    match s.pc t with
    | .reap p => some (reaped s t p)
    | .report p => some (reported s t p)
    | _ => none
  | .ptrace _ request pid data =>
    if s.pc t = .user then
      let r := sysPtrace s t request pid data
      some { r.1 with ret := update r.1.ret t r.2 }
    else none
  | .sendSig _ sig p priv =>
    if p ∈ forEachTask s then some (sendSig s t sig p priv).1 else none
  | .stop _ code notify =>
    if s.pc t = .user ∧ t ≠ initTask then
      let s := setMem s t { s.mem t with state := .stopped, exitCode := code }
      some (schedule (if notify then notifyParent s t sigChld else s) t)
    else none
  | .sleep _ interruptible =>
    if (s.pc t).acts ∧ t ≠ initTask then
      some (schedule (setMem s t { s.mem t with
        state := if interruptible then .interruptible else .uninterruptible }) t)
    else none
  | .forceSig _ _ | .wake _ => none

def Action.task : Action → Nat
  | .fork t _ _ | .forkStack t _ | .forkCopy t _ | .forkCleanup t | .exit t _ | .exitNotify t
  | .wait4 t _ _ | .scan t | .stored t | .ptrace t _ _ _ | .sendSig t _ _ _ | .stop t _ _
  | .sleep t _ | .wake t => t
  | .forceSig _ p => p

def step : Action → Option State
  | .forceSig sig p => if p ∈ forEachTask s then some (forceSig s sig p) else none
  | .wake t =>
    if (s.pc t).acts ∧ ((s.mem t).state = .interruptible ∨ (s.mem t).state = .uninterruptible) then
      some (wakeUpProcess s t)
    else none
  | a => if Runs s a.task then stepTask s a.task a else none

/-- `init_task`, and `init` at the address 1. -/
structure Initial (s : State) : Prop where
  nextTask : s.links.nextTask initTask = 1 ∧ s.links.nextTask 1 = initTask
  prevTask : s.links.prevTask initTask = 1 ∧ s.links.prevTask 1 = initTask
  parents : ∀ p ≤ 1, s.links.pPptr p = initTask ∧ s.links.pOpptr p = initTask
  pCptr : s.links.pCptr initTask = some 1 ∧ s.links.pCptr 1 = none
  siblings : ∀ p ≤ 1, s.links.pYsptr p = none ∧ s.links.pOsptr p = none
  task : ∀ i, s.task i = if i = 0 then some initTask else if i = 1 then some 1 else none
  live : ∀ p, s.live p = true ↔ p ≤ 1
  nrTasks : s.nrTasks = 2
  state : ∀ p ≤ 1, (s.mem p).state = .running ∧ (s.mem p).ptraced = false
  /-- Nobody sleeps yet. -/
  awake : ∀ p, (s.mem p).state ≠ .interruptible ∧ (s.mem p).state ≠ .stopped
  pid : (s.mem initTask).pid = 0 ∧ (s.mem 1).pid = 1
  runQueue : s.runQueue = [1]
  pc : ∀ p, s.pc p = if p ≤ 1 then .user else .gone
  panic : s.panic = false
  forks : s.forks = 2
  serial : ∀ p ≤ 1, s.serial p = p ∧ s.pidFrom p = p
  exited : s.exited = [] ∧ s.released = []

/-- The processes, with the steps that `allowed` lets through. -/
def processes (allowed : State → Action → Prop) : System State where
  init := Initial
  step s s' := ∃ a, allowed s a ∧ step s a = some s'

end Sbckernel.Kernel.Process
