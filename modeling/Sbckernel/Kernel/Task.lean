import Mathlib.Algebra.Order.Ring.Int
import Sbckernel.Lib.Siblings

/-!
# Tasks, their links and signals

The task structures (`include/linux/sched.h`), the links between them, the run queue
(`kernel/sched.c`) and the sending of signals (`kernel/exit.c`). A task structure is named
by its address. The pointers that make the ring of all tasks and the tree of parents and
children are kept apart from the other fields. The run queue is the list of the tasks on
it, without `init_task`, which is its head.

`pc` says where in the kernel a task is. For the results about whole runs, `serial`
numbers the tasks that have been linked, `pidFrom` is the number of the one for which
`get_pid` chose the pid, and `exited` and `released` are the numbers of the tasks that
have become zombies and that `release` has freed.
-/

namespace Sbckernel.Kernel.Process

open Lib Function

/-- `NR_TASKS`. -/
def maxTasks : Nat := 512

/-- `MIN_TASKS_LEFT_FOR_ROOT`. -/
def minTasksLeftForRoot : Nat := 4

/-- The address of `init_task`. -/
def initTask : Nat := 0

inductive TaskState where
  | running
  | interruptible
  | uninterruptible
  | zombie
  | stopped
  deriving DecidableEq, Repr

inductive Handler where
  | dfl
  | ign
  | func
  deriving DecidableEq, Repr

structure TaskStruct where
  state : TaskState
  /-- `PF_PTRACED`. -/
  ptraced : Bool
  /-- `PF_TRACESYS`. -/
  tracesys : Bool
  signal : BitVec 32
  blocked : BitVec 32
  /-- The address of the signal handlers. -/
  sig : Option Nat
  pid : Nat
  pgrp : Nat
  session : Nat
  uid : Nat
  euid : Nat
  suid : Nat
  gid : Nat
  egid : Nat
  sgid : Nat
  dumpable : Bool
  exitSignal : Nat
  exitCode : Nat
  /-- `rlim[RLIMIT_NPROC].rlim_cur`. -/
  rlimNproc : Int
  deriving DecidableEq, Repr

structure CloneFlags where
  vm : Bool
  fs : Bool
  files : Bool
  sighand : Bool
  pid : Bool
  csignal : Nat
  deriving DecidableEq, Repr

/-- Where `do_fork` is: the step that may sleep next, on the way or on the way back. -/
inductive ForkStage where
  | stack
  | files
  | fs
  | sighand
  | mm
  | cleanupSighand
  | cleanupFs
  | cleanupFiles
  | cleanup
  deriving DecidableEq, Repr

structure WaitOptions where
  nohang : Bool
  untraced : Bool
  wclone : Bool
  deriving DecidableEq, Repr

/-- Where a task is. A task is not born before `do_fork` has woken it up. -/
inductive Pc where
  | user
  | unborn
  | fork (stage : ForkStage) (p nr : Nat) (flags : CloneFlags)
  | exiting (code : Nat)
  | wait4 (pid : Int) (options : WaitOptions)
  /-- A zombie has been found, and its status is being stored. -/
  | reap (p : Nat)
  /-- The same for a stopped task. -/
  | report (p : Nat)
  | gone
  deriving DecidableEq, Repr

structure Links where
  nextTask : Nat → Nat
  prevTask : Nat → Nat
  pOpptr : Nat → Nat
  pPptr : Nat → Nat
  pCptr : Nat → Option Nat
  pYsptr : Nat → Option Nat
  pOsptr : Nat → Option Nat

structure State where
  mem : Nat → TaskStruct
  /-- The task structures that are allocated. -/
  live : Nat → Bool
  links : Links
  task : Nat → Option Nat
  nrTasks : Nat
  lastPid : Nat
  runQueue : List Nat
  /-- The handlers at an address, by signal. -/
  action : Nat → Nat → Handler
  pc : Nat → Pc
  /-- What the last call of a task returned. -/
  ret : Nat → Int
  panic : Bool
  forks : Nat
  serial : Nat → Nat
  pidFrom : Nat → Nat
  exited : List Nat
  released : List Nat

variable (s : State)

def setMem (p : Nat) (t : TaskStruct) : State :=
  { s with mem := update s.mem p t }

def setPc (p : Nat) (pc : Pc) : State :=
  { s with pc := update s.pc p pc }

/-- The call of a task is over. -/
def returns (p : Nat) (value : Int) : State :=
  { setPc s p .user with ret := update s.ret p value }

/-! ## Links -/

/-- `REMOVE_LINKS`. -/
def removeLinks (l : Links) (p : Nat) : Links :=
  let l := { l with prevTask := update l.prevTask (l.nextTask p) (l.prevTask p) }
  let l := { l with nextTask := update l.nextTask (l.prevTask p) (l.nextTask p) }
  let l :=
    match l.pOsptr p with
    | some o => { l with pYsptr := update l.pYsptr o (l.pYsptr p) }
    | none => l
  match l.pYsptr p with
  | some y => { l with pOsptr := update l.pOsptr y (l.pOsptr p) }
  | none => { l with pCptr := update l.pCptr (l.pPptr p) (l.pOsptr p) }

/-- `SET_LINKS`. -/
def setLinks (l : Links) (p : Nat) : Links :=
  let l := { l with nextTask := update l.nextTask p initTask }
  let l := { l with prevTask := update l.prevTask p (l.prevTask initTask) }
  let l := { l with nextTask := update l.nextTask (l.prevTask initTask) p }
  let l := { l with prevTask := update l.prevTask initTask p }
  let l := { l with pYsptr := update l.pYsptr p none }
  let l := { l with pOsptr := update l.pOsptr p (l.pCptr (l.pPptr p)) }
  let l :=
    match l.pOsptr p with
    | some o => { l with pYsptr := update l.pYsptr o (some p) }
    | none => l
  { l with pCptr := update l.pCptr (l.pPptr p) (some p) }

def walkTasks (next : Nat → Nat) : Nat → Nat → List Nat
  | 0, _ => []
  | n + 1, p => if p = initTask then [] else p :: walkTasks next n (next p)

/-- The tasks that `for_each_task` visits. -/
def forEachTask : List Nat :=
  walkTasks s.links.nextTask s.nrTasks (s.links.nextTask initTask)

/-- The children of a task, the youngest one first. -/
def children (p : Nat) : List Nat :=
  walkOlder s.links.pOsptr s.nrTasks (s.links.pCptr p)

/-! ## The run queue -/

def wakeUpProcess (p : Nat) : State :=
  let s := setMem s p { s.mem p with state := .running }
  if p = initTask ∨ p ∈ s.runQueue then s else { s with runQueue := s.runQueue ++ [p] }

/-- A signal is pending that is not blocked. -/
def TaskStruct.signalPending (t : TaskStruct) : Bool := t.signal &&& ~~~t.blocked != 0#32

/-- What `schedule` does with the task that calls it. -/
def schedule (cur : Nat) : State :=
  match (s.mem cur).state with
  | .running => s
  | .interruptible =>
    if (s.mem cur).signalPending then setMem s cur { s.mem cur with state := .running }
    else { s with runQueue := s.runQueue.erase cur }
  | _ => { s with runQueue := s.runQueue.erase cur }

/-! ## Signals -/

def sigHup : Nat := 1
def sigKill : Nat := 9
def sigChld : Nat := 17
def sigCont : Nat := 18
def sigStop : Nat := 19
def sigTstp : Nat := 20
def sigTtin : Nat := 21
def sigTtou : Nat := 22
def sigUrg : Nat := 23
def sigWinch : Nat := 28

def sigMask (sig : Nat) : BitVec 32 := 1#32 <<< (sig - 1)

/-- The signal can be thrown away at once. -/
def ignored (t : TaskStruct) (handler : Handler) (sig : Nat) : Bool :=
  t.blocked &&& sigMask sig == 0#32 && !t.ptraced &&
    ((handler == .ign && sig != sigChld) ||
      (handler == .dfl && [sigCont, sigChld, sigWinch, sigUrg].contains sig))

def generate (sig p sighand : Nat) : State :=
  if ignored (s.mem p) (s.action sighand sig) sig then s
  else
    let s := setMem s p { s.mem p with signal := (s.mem p).signal ||| sigMask sig }
    if (s.mem p).state = .interruptible ∧ (s.mem p).signalPending then wakeUpProcess s p else s

def forceSig (sig p : Nat) : State :=
  match (s.mem p).sig with
  | none => s
  | some sighand =>
    let s := setMem s p { s.mem p with
      signal := (s.mem p).signal ||| sigMask sig
      blocked := (s.mem p).blocked &&& ~~~sigMask sig }
    let s :=
      if s.action sighand sig = .ign then
        { s with
          action :=
            update s.action sighand (update (s.action sighand) sig .dfl) }
      else s
    if (s.mem p).state = .interruptible then wakeUpProcess s p else s

/-- The permission check of `send_sig`. -/
def maySignal (cur p : TaskStruct) (sig : Nat) : Bool :=
  (sig == sigCont && cur.session == p.session) || cur.euid == p.suid || cur.euid == p.uid ||
    cur.uid == p.suid || cur.uid == p.uid || cur.euid == 0

/-- The stop signals. -/
def stopMask : BitVec 32 :=
  sigMask sigStop ||| sigMask sigTstp ||| sigMask sigTtin ||| sigMask sigTtou

/-- What a signal does before it is generated. -/
def prepareSignal (sig p : Nat) : State :=
  let s :=
    if sig = sigKill ∨ sig = sigCont then
      let s := if (s.mem p).state = .stopped then wakeUpProcess s p else s
      setMem s p { s.mem p with exitCode := 0, signal := (s.mem p).signal &&& ~~~stopMask }
    else s
  if sig = sigStop ∨ sig = sigTstp ∨ sig = sigTtin ∨ sig = sigTtou then
    setMem s p { s.mem p with signal := (s.mem p).signal &&& ~~~sigMask sigCont }
  else s

def sendSig (cur sig p : Nat) (priv : Bool) : State × Int :=
  if 32 < sig then (s, -22)
  else if !priv && !maySignal (s.mem cur) (s.mem p) sig then (s, -1)
  else if sig = 0 then (s, 0)
  else
    match (s.mem p).sig with
    | none => (s, 0)
    | some sighand => (generate (prepareSignal s sig p) sig p sighand, 0)

/-- `kill_pg` with privileges. -/
def killPg (cur pgrp sig : Nat) : State :=
  if pgrp = 0 then s
  else
    (forEachTask s).foldl
      (fun s p => if (s.mem p).pgrp = pgrp then (sendSig s cur sig p true).1 else s) s

/-- The task sits in `sys_wait4`, so it is on its own queue `wait_chldexit`. -/
def Pc.inWait4 : Pc → Bool
  | .wait4 _ _ | .reap _ | .report _ => true
  | _ => false

def notifyParent (tsk sig : Nat) : State :=
  let parent := s.links.pPptr tsk
  let s := (sendSig s tsk sig parent true).1
  if (s.pc parent).inWait4 ∧ (s.mem parent).state = .interruptible then wakeUpProcess s parent
  else s

end Sbckernel.Kernel.Process
