import Sbckernel.Ipc.Basic
import Sbckernel.Lib.TailQueue

/-!
# Semaphores (`ipc/sem.c`)

One semaphore set with the tasks that use it. The values and the adjustments are
`short`s and wrap as such. A task that has to wait puts a `struct sem_queue` that
lies on its kernel stack into the queue of the set, so an element of the queue is
named by its task; the pointers of all elements are in `pending`, next to the two
that the set has itself. The undo structure of a task for the set is found by the
task.

No call sleeps but in `interruptible_sleep_on`: the part of `sys_semop` up to there
and the part behind it are two steps. Whether the caller has the permission and
whether there is memory are arguments. The numbers of processes and the times of
the last calls are left out; nothing here reads them. `inserted`, `clock` and
`performed` are for the record only: when an element was put into the queue, and
which operations with `SEM_UNDO` have changed a value for which task.
-/

namespace Sbckernel.Ipc

open Lib Function

def semvmx : Int := 32767
def semopm : Nat := 32

/-- `struct sembuf`, with the two flags that are looked at. -/
structure Sembuf where
  semNum : Nat
  semOp : Int
  nowait : Bool
  undo : Bool
  range : -32768 ≤ semOp ∧ semOp ≤ 32767

/-- `struct sem_queue` apart from its pointers. -/
structure SemQueue where
  sops : List Sembuf
  status : Option Errno

/-- An operation that has been carried out with `SEM_UNDO`. -/
structure Performed where
  task : Task
  semNum : Nat
  semOp : Int
  deriving DecidableEq

structure SemState where
  live : Bool
  semNsems : Nat
  semBase : Nat → Int
  undo : Task → Option (Nat → Int)
  pending : TailQueue Task
  queue : Task → SemQueue
  asleep : Task → Bool
  clock : Nat
  inserted : Task → Nat
  performed : List Performed

/-- The set as `newary` leaves it. -/
def newary (nsems : Nat) : SemState where
  live := true
  semNsems := nsems
  semBase := fun _ => 0
  undo := fun _ => none
  pending := .empty
  queue := fun _ => ⟨[], none⟩
  asleep := fun _ => false
  clock := 0
  inserted := fun _ => 0
  performed := []

variable (s : SemState)

def insertIntoQueue (q : Task) : SemState :=
  { s with
    pending := s.pending.insertTail q
    clock := s.clock + 1
    inserted := update s.inserted q s.clock }

def removeFromQueue (q : Task) : SemState :=
  { s with pending := s.pending.remove q }

/-! ## Operations on the values -/

/-- What `try_semop` returns: 0, 1 or an error. -/
inductive Try where
  | ok
  | sleep
  | error (e : Errno)
  deriving DecidableEq, Repr

def Sembuf.blocked (sop : Sembuf) : Try := if sop.nowait then .error .eagain else .sleep

/-- The first loop of `try_semop`, with the operations done, last first. -/
def tryForward : (Nat → Int) → List Sembuf → List Sembuf → Try × (Nat → Int) × List Sembuf
  | base, done, [] => (.ok, base, done)
  | base, done, sop :: sops =>
    if sop.semOp + base sop.semNum > semvmx then (.error .erange, base, done)
    else if sop.semOp = 0 ∧ base sop.semNum ≠ 0 then (sop.blocked, base, done)
    else
      let base := update base sop.semNum (short (base sop.semNum + sop.semOp))
      if base sop.semNum < 0 then (sop.blocked, base, sop :: done)
      else tryForward base (sop :: done) sops

/-- The second loop of `try_semop`. -/
def tryBack : (Nat → Int) → List Sembuf → (Nat → Int)
  | base, [] => base
  | base, sop :: done =>
    tryBack (update base sop.semNum (short (base sop.semNum - sop.semOp))) done

def trySemop (base : Nat → Int) (sops : List Sembuf) : Try × (Nat → Int) :=
  match tryForward base [] sops with
  | (result, base, done) => (result, tryBack base done)

/-- `curr->semval += sop->sem_op`, which is put on record if it is to be undone. -/
def perform (un : Task) (sop : Sembuf) : SemState :=
  { s with
    semBase := update s.semBase sop.semNum (short (s.semBase sop.semNum + sop.semOp))
    performed :=
      if sop.undo then ⟨un, sop.semNum, sop.semOp⟩ :: s.performed else s.performed }

/-- `un->semadj[sop->sem_num] -= sop->sem_op`. -/
def adjust (un : Task) (sop : Sembuf) : SemState :=
  { s with
    undo := update s.undo un ((s.undo un).map fun semadj =>
      update semadj sop.semNum (short (semadj sop.semNum - sop.semOp))) }

/-- `do_semop`; `un` is the task whose undo structure is passed. -/
def doSemop (un : Task) : SemState → List Sembuf → SemState
  | s, [] => s
  | s, sop :: sops =>
    if sop.semOp + s.semBase sop.semNum > semvmx then s
    else if sop.semOp = 0 then
      if s.semBase sop.semNum ≠ 0 then s else doSemop un s sops
    else
      let s := perform s un sop
      if s.semBase sop.semNum < 0 then s
      else doSemop un (if sop.undo then adjust s un sop else s) sops

/-- The `for` loop of `update_queue` from `q` on, and whether a task has been woken. -/
def updatePass : Nat → SemState → Option Task → Bool → SemState × Bool
  | 0, s, _, wokeup => (s, wokeup)
  | _ + 1, s, none, wokeup => (s, wokeup)
  | n + 1, s, some q, wokeup =>
    match trySemop s.semBase (s.queue q).sops with
    | (.sleep, base) =>
      let s := { s with semBase := base }
      updatePass n s (s.pending.next q) wokeup
    | (.ok, base) =>
      let s := doSemop q { s with semBase := base } (s.queue q).sops
      let s := { s with queue := update s.queue q { s.queue q with status := none } }
      let s := removeFromQueue s q
      updatePass n s (s.pending.next q) true
    | (.error e, base) =>
      let s := { s with
        semBase := base
        queue := update s.queue q { s.queue q with status := some e } }
      let s := removeFromQueue s q
      updatePass n s (s.pending.next q) true

def updateLoop : Nat → SemState → SemState
  | 0, s => s
  | n + 1, s =>
    match updatePass (nrTasks + 1) s s.pending.first false with
    | (s, true) => updateLoop n s
    | (s, false) => s

/-- `update_queue`. There are no more elements than tasks. -/
def updateQueue : SemState := updateLoop (nrTasks + 1) s

/-! ## System calls -/

/-- `sys_semop` up to its sleep; `none` is the sleep. -/
def sysSemop (current : Task) (sops : List Sembuf) (permitted memory : Bool) :
    SemState × Option (Except Errno Unit) :=
  if sops.length < 1 then (s, some (.error .einval))
  else if sops.length > semopm then (s, some (.error .e2big))
  else if ¬s.live then (s, some (.error .einval))
  else if ∃ sop ∈ sops, sop.semNum ≥ s.semNsems then (s, some (.error .efbig))
  else if ¬permitted then (s, some (.error .eacces))
  else
    match trySemop s.semBase sops with
    | (.error e, base) => ({ s with semBase := base }, some (.error e))
    | (error, base) =>
      let s := { s with semBase := base }
      let needed := sops.any Sembuf.undo && (s.undo current).isNone
      if needed ∧ ¬memory then (s, some (.error .enomem))
      else
        let s := if needed then
          { s with undo := update s.undo current (some fun _ => 0) } else s
        if error = .ok then (updateQueue (doSemop current s sops), some (.ok ()))
        else
          let s := { s with queue := update s.queue current ⟨sops, none⟩ }
          let s := insertIntoQueue s current
          ({ s with asleep := update s.asleep current true }, none)

/-- `sys_semop` behind its sleep. -/
def semopAwake (current : Task) : SemState × Except Errno Unit :=
  let s := { s with asleep := update s.asleep current false }
  match s.pending.prev current with
  | none =>
    match (s.queue current).status with
    | none => (s, .ok ())
    | some e => (s, .error e)
  | some _ => (removeFromQueue s current, .error .eintr)

/-- `sys_semctl` with `SETVAL`. -/
def semctlSetval (semnum : Nat) (val : Int) (permitted : Bool) : SemState × Except Errno Unit :=
  if ¬s.live then (s, .error .einval)
  else if semnum ≥ s.semNsems then (s, .error .einval)
  else if val > semvmx ∨ val < 0 then (s, .error .erange)
  else if ¬permitted then (s, .error .eacces)
  else
    let s := { s with
      undo := fun t => (s.undo t).map fun semadj => update semadj semnum 0
      semBase := update s.semBase semnum (short val) }
    (updateQueue s, .ok ())

/-- `sys_semctl` with `SETALL`. -/
def semctlSetall (array : Nat → Nat) (permitted : Bool) : SemState × Except Errno Unit :=
  if ¬s.live then (s, .error .einval)
  else if ∃ i < s.semNsems, (array i : Int) > semvmx then (s, .error .erange)
  else if ¬permitted then (s, .error .eacces)
  else
    let s := { s with
      semBase := fun i => if i < s.semNsems then short (array i) else s.semBase i
      undo := fun t => (s.undo t).map fun semadj i => if i < s.semNsems then 0 else semadj i }
    (updateQueue s, .ok ())

/-- The last loop of `freeary`. -/
def wakeAll : Nat → SemState → Option Task → SemState
  | 0, s, _ => s
  | _ + 1, s, none => s
  | n + 1, s, some q =>
    let s := { s with
      queue := update s.queue q { s.queue q with status := some .eidrm }
      pending := { s.pending with prev := update s.pending.prev q none } }
    wakeAll n s (s.pending.next q)

/-- `freeary`: the undo structures are of no set any more. -/
def freeary : SemState :=
  wakeAll (nrTasks + 1) { s with live := false, undo := fun _ => none } s.pending.first

/-- `sys_semctl` with `IPC_RMID`. -/
def semctlRmid (permitted : Bool) : SemState × Except Errno Unit :=
  if ¬s.live then (s, .error .einval)
  else if permitted then (freeary s, .ok ())
  else (s, .error .eperm)

/-- The adjustments that `sem_exit` makes. -/
def undoAll (semadj : Nat → Int) : SemState :=
  { s with semBase := fun i =>
      if i < s.semNsems then
        let semval := short (s.semBase i + semadj i)
        if semval < 0 then 0 else semval
      else s.semBase i }

/-- `sem_exit`. -/
def semExit (current : Task) : SemState :=
  let s := if s.asleep current ∧ s.pending.prev current ≠ none then removeFromQueue s current else s
  let s := { s with asleep := update s.asleep current false }
  match s.undo current with
  | none => s
  | some semadj =>
    let s := { s with
      undo := update s.undo current none
      performed := s.performed.filter fun p => p.task ≠ current }
    updateQueue (undoAll s semadj)

end Sbckernel.Ipc
