import Mathlib.Logic.Function.Basic
import Sbckernel.Lib.Reach

/-!
# File locks (`fs/locks.c`)

The records live in a memory addressed by `LockPtr`; a request that waits is a
record too, on the stack of the system call, and is linked into the circular
block list of the lock it waits for. The inode's list `i_flock` and the global
`file_lock_table` are lists of pointers: `fl_next`, `fl_nextlink` and
`fl_prevlink` only ever express a position in one of them, and the code's
`before`, a pointer to a link, is a split of the list in two.

A system call runs without interruption from one sleep to the next, so a call
is a few atomic segments, and what a task still has to do after a sleep is its
`Frame`. Loops over the block lists follow the pointers and carry a fuel
argument; `none` stands for a loop that has not ended within it and for the
two panics of `locks_free_lock`.
-/

namespace Sbckernel.Fs

open Function

abbrev LockPtr := Nat
abbrev TaskPtr := Nat
abbrev FilePtr := Nat
abbrev InodePtr := Nat

def offsetMax : Int := 0x7fffffff

/-- The value of an `off_t` expression, a 32-bit signed integer. -/
def offT (x : Int) : Int := (x + 0x80000000) % 0x100000000 - 0x80000000

inductive LockType where
  | rdlck
  | wrlck
  | unlck
  deriving DecidableEq, Repr

structure LockFlags where
  posix : Bool
  flock : Bool
  broken : Bool
  deriving DecidableEq, Repr

@[ext]
structure FileLock where
  flNextblock : Option LockPtr
  flPrevblock : Option LockPtr
  flOwner : Option TaskPtr
  flWait : List TaskPtr
  flFile : FilePtr
  flFlags : LockFlags
  flType : LockType
  flStart : Int
  flEnd : Int
  deriving DecidableEq, Repr

/-- The fields that `locks_init_lock` copies, the others zero. -/
def FileLock.core (fl : FileLock) : FileLock :=
  { fl with flNextblock := none, flPrevblock := none, flWait := [] }

inductive Errno where
  | ok
  | eagain
  | ebusy
  | edeadlk
  | enolck
  | erestartsys
  deriving DecidableEq, Repr

/-! ## Requests -/

/-- The `l_type` of a `struct flock`. -/
inductive FlockType where
  | rdlck
  | wrlck
  | unlck
  | shlck
  | exlck
  | other
  deriving DecidableEq, Repr

structure Flock where
  lType : FlockType
  lWhence : Nat
  lStart : Int32
  lLen : Int32
  deriving DecidableEq, Repr

def posixFlags (broken : Bool) : LockFlags := ⟨true, false, broken⟩

def FlockType.toLock : FlockType → Option (LockType × LockFlags)
  | .rdlck => some (.rdlck, posixFlags false)
  | .wrlck => some (.wrlck, posixFlags false)
  | .unlck => some (.unlck, posixFlags false)
  | .shlck => some (.rdlck, posixFlags true)
  | .exlck => some (.wrlck, posixFlags true)
  | .other => none

/-- `posix_make_lock` for `current`; `fPos` and `iSize` are the file's position
and its inode's size. -/
def posixMakeLock (current : TaskPtr) (filp : FilePtr) (fPos iSize : Int) (l : Flock) :
    Option FileLock :=
  match l.lType.toLock with
  | none => none
  | some (flType, flFlags) =>
    let base : Option Int :=
      match l.lWhence with
      | 0 => some 0
      | 1 => some (offT fPos)
      | 2 => some (offT iSize)
      | _ => none
    match base with
    | none => none
    | some base =>
      let start := offT (base + l.lStart.toInt)
      if start < 0 ∨ l.lLen.toInt < 0 then none
      else
        let last := offT (start + l.lLen.toInt - 1)
        some {
          flNextblock := none
          flPrevblock := none
          flOwner := some current
          flWait := []
          flFile := filp
          flFlags := flFlags
          flType := flType
          flStart := start
          flEnd := if l.lLen.toInt = 0 ∨ last < 0 then offsetMax else last }

inductive FlockCmd where
  | lockSh
  | lockEx
  | lockUn
  deriving DecidableEq, Repr

def FlockCmd.toLockType : FlockCmd → LockType
  | .lockSh => .rdlck
  | .lockEx => .wrlck
  | .lockUn => .unlck

/-- `flock_make_lock` for a command it accepts. -/
def flockMakeLock (filp : FilePtr) (cmd : FlockCmd) : FileLock where
  flNextblock := none
  flPrevblock := none
  flOwner := none
  flWait := []
  flFile := filp
  flFlags := ⟨false, true, false⟩
  flType := cmd.toLockType
  flStart := 0
  flEnd := offsetMax

/-! ## Conflicts -/

def locksOverlap (fl1 fl2 : FileLock) : Bool :=
  fl1.flEnd ≥ fl2.flStart && fl2.flEnd ≥ fl1.flStart

def locksConflict (callerFl sysFl : FileLock) : Bool :=
  if locksOverlap callerFl sysFl then
    match callerFl.flType with
    | .rdlck => sysFl.flType = .wrlck
    | .wrlck => true
    | .unlck => false
  else false

def posixLocksConflict (callerFl sysFl : FileLock) : Bool :=
  if callerFl.flOwner = sysFl.flOwner then false else locksConflict callerFl sysFl

def flockLocksConflict (callerFl sysFl : FileLock) : Bool :=
  if callerFl.flFile = sysFl.flFile then false else locksConflict callerFl sysFl

/-! ## State -/

/-- A `posix_lock_file` call: its record `caller` on the stack and the two
structures allocated in advance, `none` once they are NULL. -/
structure PosixCall where
  filp : FilePtr
  caller : LockPtr
  newFl : Option LockPtr
  newFl2 : Option LockPtr
  wait : Bool
  deriving DecidableEq, Repr

/-- A `flock_lock_file` call; its `caller` record is only read. -/
structure FlockCall where
  filp : FilePtr
  caller : FileLock
  newFl : Option LockPtr
  wait : Bool
  deriving DecidableEq, Repr

/-- What a task has open: no lock call, or one of the two calls, running
(`none`) or asleep on a block list (the blocker), or a `flock` call that lets
the waiters of the lock it has unlinked run first. -/
inductive Frame where
  | idle
  | posix (call : PosixCall) (blocker : Option LockPtr)
  | flock (call : FlockCall) (blocker : Option LockPtr)
  | flockDelete (call : FlockCall) (thisfl : LockPtr)
  deriving DecidableEq, Repr

structure Locks where
  mem : LockPtr → FileLock
  allocated : LockPtr → Bool
  iFlock : InodePtr → List LockPtr
  fileLockTable : List LockPtr
  runnable : TaskPtr → Bool
  frame : TaskPtr → Frame

namespace Locks

variable (s : Locks)

def modify (p : LockPtr) (f : FileLock → FileLock) : Locks :=
  { s with mem := update s.mem p (f (s.mem p)) }

def setNextblock (p : LockPtr) (q : Option LockPtr) : Locks :=
  s.modify p fun fl => { fl with flNextblock := q }

def setPrevblock (p : LockPtr) (q : Option LockPtr) : Locks :=
  s.modify p fun fl => { fl with flPrevblock := q }

def setFrame (t : TaskPtr) (f : Frame) : Locks :=
  { s with frame := update s.frame t f }

def setAllocated (p : LockPtr) (b : Bool) : Locks :=
  { s with allocated := update s.allocated p b }

def setFlock (i : InodePtr) (l : List LockPtr) : Locks :=
  { s with iFlock := update s.iFlock i l }

def wakeUp (q : List TaskPtr) : Locks :=
  { s with runnable := fun t => decide (t ∈ q) || s.runnable t }

end Locks

/-! ## Block lists -/

variable (s : Locks)

def locksInsertBlock (blocker waiter : LockPtr) : Locks :=
  let prevblock := (s.mem blocker).flPrevblock.getD blocker
  let s := s.setNextblock prevblock (some waiter)
  let s := s.setPrevblock blocker (some waiter)
  let s := s.setNextblock waiter (some blocker)
  s.setPrevblock waiter (some prevblock)

/-- `locks_delete_block`. A waiter whose links are NULL was taken off before. -/
def locksDeleteBlock (blocker waiter : LockPtr) : Locks :=
  match (s.mem waiter).flNextblock, (s.mem waiter).flPrevblock with
  | some nextblock, some prevblock =>
    let s := s.setPrevblock nextblock (some prevblock)
    let s := s.setNextblock prevblock (some nextblock)
    let s := (s.setPrevblock waiter none).setNextblock waiter none
    if (s.mem blocker).flNextblock = some blocker then
      (s.setPrevblock blocker none).setNextblock blocker none
    else s
  | _, _ => s

/-- `locks_wake_up_blocks` told not to wait. -/
def locksWakeUpBlocks : Nat → Locks → LockPtr → Option Locks
  | 0, _, _ => none
  | fuel + 1, s, blocker =>
    match (s.mem blocker).flNextblock with
    | none => some s
    | some waiter =>
      locksWakeUpBlocks fuel
        (locksDeleteBlock (s.wakeUp (s.mem waiter).flWait) blocker waiter) blocker

def locksFreeLock (fl : LockPtr) : Option Locks :=
  if (s.mem fl).flWait ≠ [] then none
  else if (s.mem fl).flNextblock ≠ none ∨ (s.mem fl).flPrevblock ≠ none then none
  else some (s.setAllocated fl false)

/-! ## The inode's list -/

def locksInitLock (new fl : LockPtr) : Locks :=
  s.modify new fun _ => (s.mem fl).core

/-- `locks_insert_lock` where the inode's list splits into `before` and `rest`. -/
def locksInsertLock (i : InodePtr) (before rest : List LockPtr) (fl : LockPtr) : Locks :=
  { s.setFlock i (before ++ fl :: rest) with fileLockTable := fl :: s.fileLockTable }

/-- The two unlinkings of `locks_delete_lock`. -/
def locksUnlink (i : InodePtr) (before rest : List LockPtr) (thisfl : LockPtr) : Locks :=
  { s.setFlock i (before ++ rest) with fileLockTable := s.fileLockTable.erase thisfl }

/-- `locks_delete_lock` told not to wait. -/
def locksDeleteLock (fuel : Nat) (s : Locks) (i : InodePtr) (before : List LockPtr)
    (thisfl : LockPtr) (rest : List LockPtr) : Option Locks :=
  match locksWakeUpBlocks fuel (locksUnlink s i before rest thisfl) thisfl with
  | none => none
  | some s => locksFreeLock s thisfl

/-! ## Deadlock detection -/

/-- The inner loop of `posix_locks_deadlock`: whether `blockedTask` is on the
block list of `fl`, from `bfl` on. -/
def blockListHas : Nat → Locks → LockPtr → Option TaskPtr → LockPtr → Option Bool
  | 0, _, _, _, _ => none
  | fuel + 1, s, fl, blockedTask, bfl =>
    if bfl = fl then some false
    else if (s.mem bfl).flOwner = blockedTask then some true
    else
      match (s.mem bfl).flNextblock with
      | none => none
      | some bfl => blockListHas fuel s fl blockedTask bfl

/-- The loop over `file_lock_table`: the first lock that `blockedTask` waits
for. -/
def findBlocker (fuel : Nat) (s : Locks) (blockedTask : Option TaskPtr) :
    List LockPtr → Option (Option LockPtr)
  | [] => some none
  | fl :: table =>
    match (s.mem fl).flOwner, (s.mem fl).flNextblock with
    | some _, some bfl =>
      match blockListHas fuel s fl blockedTask bfl with
      | none => none
      | some true => some (some fl)
      | some false => findBlocker fuel s blockedTask table
    | _, _ => findBlocker fuel s blockedTask table

def posixLocksDeadlock : Nat → Locks → Option TaskPtr → Option TaskPtr → Option Bool
  | 0, _, _, _ => none
  | fuel + 1, s, myTask, blockedTask =>
    if myTask = blockedTask then some true
    else
      match findBlocker fuel s blockedTask s.fileLockTable with
      | none => none
      | some none => some false
      | some (some fl) =>
        if (s.mem fl).flOwner = myTask then some true
        else posixLocksDeadlock fuel s myTask (s.mem fl).flOwner

/-! ## `posix_lock_file` -/

/-- The variables of the loop over the requester's locks. The inode's list is
`before` and then what is still to be looked at. -/
structure Scan where
  s : Locks
  before : List LockPtr
  caller : LockPtr
  added : Bool
  left : Option LockPtr
  right : Option LockPtr

/-- How one round ends: `break`, on to `next_lock`, or `continue` after the
lock was deleted. -/
inductive Round where
  | stop (c : Scan)
  | nextLock (c : Scan)
  | deleted (c : Scan)

/-- The lower start of the caller and an old lock of its type, written into
whichever of the two does not have it. -/
def mergeStart (caller fl : LockPtr) : Locks :=
  if (s.mem fl).flStart > (s.mem caller).flStart then
    s.modify fl ({ · with flStart := (s.mem caller).flStart })
  else s.modify caller ({ · with flStart := (s.mem fl).flStart })

/-- The higher end, likewise. -/
def mergeEnd (caller fl : LockPtr) : Locks :=
  if (s.mem fl).flEnd < (s.mem caller).flEnd then
    s.modify fl ({ · with flEnd := (s.mem caller).flEnd })
  else s.modify caller ({ · with flEnd := (s.mem fl).flEnd })

def mergeRanges (caller fl : LockPtr) : Locks :=
  mergeEnd (mergeStart s caller fl) caller fl

/-- The round for an old lock of the requested type. -/
def sameTypeRound (fuel : Nat) (i : InodePtr) (c : Scan) (fl : LockPtr)
    (rest : List LockPtr) : Option Round :=
  let caller := c.s.mem c.caller
  if (c.s.mem fl).flEnd < offT (caller.flStart - 1) then some (.nextLock c)
  else if (c.s.mem fl).flStart > offT (caller.flEnd + 1) then some (.stop c)
  else
    let s := mergeRanges c.s c.caller fl
    if c.added then
      (locksDeleteLock fuel s i c.before fl rest).map fun s => .deleted { c with s := s }
    else some (.nextLock { c with s := s, caller := fl, added := true })

/-- The variables after the assignments to `added` and `left` that an
overlapping lock of another type causes. -/
def Scan.overlap (c : Scan) (fl : LockPtr) : Scan :=
  { c with
    added := if (c.s.mem c.caller).flType = .unlck then true else c.added
    left := if (c.s.mem fl).flStart < (c.s.mem c.caller).flStart then some fl else c.left }

/-- An old lock takes over the caller's range and type. -/
def takeOver (caller fl : LockPtr) : Locks :=
  s.modify fl ({ · with
    flStart := (s.mem caller).flStart
    flEnd := (s.mem caller).flEnd
    flType := (s.mem caller).flType })

/-- The round for an old lock of another type. -/
def otherTypeRound (fuel : Nat) (i : InodePtr) (c : Scan) (fl : LockPtr)
    (rest : List LockPtr) : Option Round :=
  let caller := c.s.mem c.caller
  if (c.s.mem fl).flEnd < caller.flStart then some (.nextLock c)
  else if (c.s.mem fl).flStart > caller.flEnd then some (.stop c)
  else
    let c' := c.overlap fl
    if (c.s.mem fl).flEnd > caller.flEnd then some (.stop { c' with right := some fl })
    else if (c.s.mem fl).flStart ≥ caller.flStart then
      if c'.added then
        (locksDeleteLock fuel c.s i c.before fl rest).map fun s => .deleted { c' with s := s }
      else
        (locksWakeUpBlocks fuel c.s fl).map fun s =>
          .nextLock { c' with s := takeOver s c.caller fl, caller := fl, added := true }
    else some (.nextLock c')

/-- The loop over the requester's locks: the variables at its end and what is
left of the list. -/
def posixScan (fuel : Nat) (i : InodePtr) :
    List LockPtr → Scan → Option (Scan × List LockPtr)
  | [], c => some (c, [])
  | fl :: rest, c =>
    if (c.s.mem c.caller).flOwner ≠ (c.s.mem fl).flOwner then some (c, fl :: rest)
    else
      match
        if (c.s.mem c.caller).flType = (c.s.mem fl).flType then sameTypeRound fuel i c fl rest
        else otherTypeRound fuel i c fl rest
      with
      | none => none
      | some (.stop c) => some (c, fl :: rest)
      | some (.nextLock c) => posixScan fuel i rest { c with before := c.before ++ [fl] }
      | some (.deleted c) => posixScan fuel i rest c

/-- What follows the loop for a lock that sticks out behind the new one. -/
def trimRight (fuel : Nat) (s : Locks) (caller right : LockPtr) : Option Locks :=
  locksWakeUpBlocks fuel
    (s.modify right ({ · with flStart := offT ((s.mem caller).flEnd + 1) })) right

/-- What follows the loop for a lock that sticks out before the new one. -/
def trimLeft (fuel : Nat) (s : Locks) (caller left : LockPtr) : Option Locks :=
  locksWakeUpBlocks fuel
    (s.modify left ({ · with flEnd := offT ((s.mem caller).flStart - 1) })) left

def trimLeft? (fuel : Nat) (s : Locks) (caller : LockPtr) : Option LockPtr → Option Locks
  | none => some s
  | some left => trimLeft fuel s caller left

variable (t : TaskPtr)

/-- A new structure, filled from `fl`, goes in at `*before` and is no longer
held by the call. -/
def insertCopy (i : InodePtr) (call : PosixCall)
    (before rest : List LockPtr) (new fl : LockPtr) : Locks :=
  (locksInsertLock (locksInitLock s new fl) i before rest new).setFrame t (.posix call none)

/-- After the loop, with the new lock in place: `rest` starts at `*before`. The
second new structure is used when one lock sticks out on both sides. -/
def posixTrim (fuel : Nat) (s : Locks) (t : TaskPtr) (i : InodePtr) (call : PosixCall)
    (c : Scan) (rest : List LockPtr) : Option Locks :=
  match c.right with
  | none => trimLeft? fuel s c.caller c.left
  | some right =>
    if c.left = some right then
      match call.newFl2 with
      | none => none
      | some newFl2 =>
        let s := insertCopy s t i { call with newFl2 := none } c.before rest newFl2 right
        (trimRight fuel s c.caller right).bind fun s => trimLeft fuel s c.caller newFl2
    else (trimRight fuel s c.caller right).bind fun s => trimLeft? fuel s c.caller c.left

/-- The part of `posix_lock_file` behind the blocking loop. -/
def posixApply (fuel : Nat) (s : Locks) (t : TaskPtr) (i : InodePtr) (call : PosixCall) :
    Option (Locks × Errno) :=
  if (s.iFlock i).head?.any fun fl => (s.mem fl).flFlags.flock then some (s, .ebusy)
  else
    let skip := fun fl => decide ((s.mem call.caller).flOwner ≠ (s.mem fl).flOwner)
    match posixScan fuel i ((s.iFlock i).dropWhile skip)
      ⟨s, (s.iFlock i).takeWhile skip, call.caller, false, none, none⟩ with
    | none => none
    | some (c, rest) =>
      if c.added then (posixTrim fuel c.s t i call c rest).map (·, .ok)
      else if (c.s.mem c.caller).flType = .unlck then some (c.s, .ok)
      else
        match call.newFl with
        | none => none
        | some newFl =>
          let call := { call with newFl := none }
          let s := insertCopy c.s t i call c.before rest newFl c.caller
          (posixTrim fuel s t i call c (newFl :: rest)).map (·, .ok)

/-- `kfree` of a structure that was not used, if there is one. -/
def kfree : Option LockPtr → Locks
  | none => s
  | some p => s.setAllocated p false

/-- The end of the call, where its stack record dies with it. -/
def posixOut : Locks :=
  match s.frame t with
  | .posix call _ =>
    (kfree (kfree (kfree s call.newFl) call.newFl2) (some call.caller)).setFrame t .idle
  | _ => s

/-- `interruptible_sleep_on` up to `schedule`. -/
def sleepOn (fl : LockPtr) : Locks :=
  let s := s.modify fl fun r => { r with flWait := t :: r.flWait }
  { s with runnable := update s.runnable t false }

/-- `interruptible_sleep_on` from `schedule` on. -/
def endSleep (fl : LockPtr) : Locks :=
  s.modify fl fun r => { r with flWait := r.flWait.erase t }

/-- `posix_lock_file` from `repeat` to its next sleep or its return; `fInode`
gives the inode of a file. -/
def posixRepeat (fInode : FilePtr → InodePtr) (fuel : Nat) (s : Locks) (t : TaskPtr)
    (call : PosixCall) (signalled : Bool) : Option (Locks × Option Errno) :=
  let i := fInode call.filp
  let apply := (posixApply fuel s t i call).map fun r => (posixOut r.1 t, some r.2)
  if (s.mem call.caller).flType = .unlck then apply
  else if (s.iFlock i).head?.any fun fl => (s.mem fl).flFlags.flock then
    some (posixOut s t, some .ebusy)
  else
    match (s.iFlock i).find? fun fl => posixLocksConflict (s.mem call.caller) (s.mem fl) with
    | none => apply
    | some fl =>
      if !call.wait then some (posixOut s t, some .eagain)
      else
        match posixLocksDeadlock fuel s (s.mem call.caller).flOwner (s.mem fl).flOwner with
        | none => none
        | some true => some (posixOut s t, some .edeadlk)
        | some false =>
          if signalled then some (posixOut s t, some .erestartsys)
          else
            some ((sleepOn (locksInsertBlock s fl call.caller) t call.caller).setFrame t
              (.posix call (some fl)), none)

/-- Entering `posix_lock_file` with the record that `posix_make_lock` filled in
and two structures from `kmalloc`, whose contents are what the memory held. -/
def posixEnter (call : PosixCall) (caller : FileLock) (newFl newFl2 : LockPtr) : Locks :=
  ((((s.setAllocated call.caller true).setAllocated newFl true).setAllocated newFl2
    true).modify call.caller fun _ => caller).setFrame t (.posix call none)

/-- The record's way back from `interruptible_sleep_on` to `repeat`. -/
def posixResume (call : PosixCall) (blocker : LockPtr) : Locks :=
  (locksDeleteBlock (endSleep s t call.caller) blocker call.caller).setFrame t
    (.posix call none)

/-- `fcntl_setlk` behind its checks of the descriptor, the file's mode and its
mappings: a POSIX call with a record and two structures at fresh addresses. -/
def fcntlSetlk (fInode : FilePtr → InodePtr) (fuel : Nat) (s : Locks) (t : TaskPtr)
    (filp : FilePtr) (fPos iSize : Int) (l : Flock) (caller newFl newFl2 : LockPtr)
    (wait signalled : Bool) : Option (Locks × Option Errno) :=
  match posixMakeLock t filp fPos iSize l with
  | none => none
  | some fl =>
    let call : PosixCall := ⟨filp, caller, some newFl, some newFl2, wait⟩
    posixRepeat fInode fuel (posixEnter s t call fl newFl newFl2) t call signalled

/-! ## `flock_lock_file` -/

/-- The end of the call: an unused structure goes through `locks_free_lock`. -/
def flockOut (call : FlockCall) : Option Locks :=
  match call.newFl with
  | none => some (s.setFrame t .idle)
  | some newFl => (locksFreeLock s newFl).map (·.setFrame t .idle)

def flockReturn (call : FlockCall) (error : Errno) : Option (Locks × Option Errno) :=
  (flockOut s t call).map (·, some error)

/-- From `repeat` on, with the new structure `newFl`. -/
def flockRepeat (fInode : FilePtr → InodePtr) (s : Locks) (t : TaskPtr) (call : FlockCall)
    (signalled : Bool) : Option (Locks × Option Errno) :=
  let i := fInode call.filp
  match call.newFl with
  | none => none
  | some newFl =>
    if signalled then flockReturn s t call .erestartsys
    else if (s.iFlock i).head?.any fun fl => (s.mem fl).flFlags.posix then
      flockReturn s t call .ebusy
    else
      match (s.iFlock i).find? fun fl => flockLocksConflict (s.mem newFl) (s.mem fl) with
      | some fl =>
        if !call.wait then flockReturn s t call .eagain
        else
          some ((sleepOn (locksInsertBlock s fl newFl) t newFl).setFrame t
            (.flock call (some fl)), none)
      | none =>
        flockReturn (locksInsertLock s i [] (s.iFlock i) newFl) t { call with newFl := none } .ok

/-- From `search` on. A lock of the same file and another type is deleted
first; unless it only unlocks, the call lets the waiters of that lock run until
its block list is empty and then searches again. -/
def flockSearch (fInode : FilePtr → InodePtr) :
    Nat → Locks → TaskPtr → FlockCall → Bool → Option (Locks × Option Errno)
  | 0, _, _, _, _ => none
  | fuel + 1, s, t, call, signalled =>
    let i := fInode call.filp
    let skip := fun fl => decide (call.caller.flFile ≠ (s.mem fl).flFile)
    if (s.iFlock i).head?.any fun fl => (s.mem fl).flFlags.posix then
      flockReturn s t call .ebusy
    else
      match (s.iFlock i).dropWhile skip with
      | [] =>
        if call.caller.flType = .unlck then flockReturn s t call .ok
        else flockRepeat fInode s t call signalled
      | fl :: rest =>
        if call.caller.flType = (s.mem fl).flType then flockReturn s t call .ok
        else if call.caller.flType = .unlck then
          (locksDeleteLock fuel s i ((s.iFlock i).takeWhile skip) fl rest).bind fun s =>
            flockReturn s t call .ok
        else
          let s := locksUnlink s i ((s.iFlock i).takeWhile skip) rest fl
          match (s.mem fl).flNextblock with
          | some waiter =>
            some ((s.wakeUp (s.mem waiter).flWait).setFrame t (.flockDelete call fl), none)
          | none =>
            (locksFreeLock s fl).bind fun s => flockSearch fInode fuel s t call signalled

def flockEnter (call : FlockCall) : Locks :=
  let s := s.setFrame t (.flock call none)
  match call.newFl with
  | none => s
  | some newFl => (s.setAllocated newFl true).modify newFl fun _ => call.caller

def flockResume (call : FlockCall) (newFl blocker : LockPtr) : Locks :=
  (locksDeleteBlock (endSleep s t newFl) blocker newFl).setFrame t (.flock call none)

/-- Back from `schedule` in `locks_wake_up_blocks`. -/
def flockYield (fInode : FilePtr → InodePtr) (fuel : Nat) (s : Locks) (t : TaskPtr)
    (call : FlockCall) (thisfl : LockPtr) (signalled : Bool) : Option (Locks × Option Errno) :=
  match (s.mem thisfl).flNextblock with
  | some waiter => some (s.wakeUp (s.mem waiter).flWait, none)
  | none =>
    (locksFreeLock s thisfl).bind fun s =>
      flockSearch fInode fuel (s.setFrame t (.flock call none)) t call signalled

/-! ## `locks_remove_locks` -/

/-- The loop of `posix_remove_locks` and `flock_remove_locks`: every lock that
`goes` is deleted. -/
def removeLocks (fuel : Nat) (i : InodePtr) (goes : FileLock → Bool) :
    List LockPtr → List LockPtr → Locks → Option Locks
  | _, [], s => some s
  | before, fl :: rest, s =>
    if goes (s.mem fl) then
      (locksDeleteLock fuel s i before fl rest).bind (removeLocks fuel i goes before rest)
    else removeLocks fuel i goes (before ++ [fl]) rest s

def posixRemoveLocks (fuel : Nat) (s : Locks) (i : InodePtr) (task : TaskPtr) : Option Locks :=
  removeLocks fuel i (fun fl => fl.flOwner = some task) [] (s.iFlock i) s

/-- `lastClose` says whether `f_count` is 1. -/
def flockRemoveLocks (fuel : Nat) (s : Locks) (i : InodePtr) (filp : FilePtr)
    (lastClose : Bool) : Option Locks :=
  removeLocks fuel i (fun fl => fl.flFile = filp && lastClose) [] (s.iFlock i) s

def locksRemoveLocks (fInode : FilePtr → InodePtr) (fuel : Nat) (s : Locks) (task : TaskPtr)
    (filp : FilePtr) (lastClose : Bool) : Option Locks :=
  match (s.iFlock (fInode filp)).head? with
  | none => some s
  | some fl =>
    if (s.mem fl).flFlags.posix then posixRemoveLocks fuel s (fInode filp) task
    else flockRemoveLocks fuel s (fInode filp) filp lastClose

/-! ## The system -/

structure Request where
  flType : LockType
  flStart : Int
  flEnd : Int
  deriving DecidableEq, Repr

def FileLock.request (fl : FileLock) : Request := ⟨fl.flType, fl.flStart, fl.flEnd⟩

/-- What an observer sees of a step. A result of `none` is a call that went to
sleep or yielded. -/
inductive Event where
  | posix (t : TaskPtr) (filp : FilePtr) (req : Request) (result : Option Errno)
  | flock (t : TaskPtr) (filp : FilePtr) (flType : LockType) (result : Option Errno)
  | remove (t : TaskPtr) (filp : FilePtr)
  | signal (t : TaskPtr)

/-- One atomic segment of one task, or a signal that makes a task runnable. -/
inductive Step (fInode : FilePtr → InodePtr) : Locks → Event → Locks → Prop
  | posixCall {s s' : Locks} {t : TaskPtr} {filp : FilePtr} {fPos iSize : Int} {l : Flock}
      {fl : FileLock} {caller newFl newFl2 : LockPtr} {wait signalled : Bool} {fuel : Nat}
      {result : Option Errno} (idle : s.frame t = .idle)
      (make : posixMakeLock t filp fPos iSize l = some fl)
      (fresh : ∀ p ∈ [caller, newFl, newFl2], s.allocated p = false)
      (distinct : [caller, newFl, newFl2].Nodup)
      (run : posixRepeat fInode fuel
        (posixEnter s t ⟨filp, caller, some newFl, some newFl2, wait⟩ fl newFl newFl2) t
        ⟨filp, caller, some newFl, some newFl2, wait⟩ signalled = some (s', result)) :
      Step fInode s (.posix t filp fl.request result) s'
  | posixWake {s s' : Locks} {t : TaskPtr} {call : PosixCall} {blocker : LockPtr}
      {signalled : Bool} {fuel : Nat} {result : Option Errno}
      (asleep : s.frame t = .posix call (some blocker)) (awake : s.runnable t = true)
      (run : posixRepeat fInode fuel (posixResume s t call blocker) t call signalled =
        some (s', result)) :
      Step fInode s (.posix t call.filp (s.mem call.caller).request result) s'
  | flockCall {s s' : Locks} {t : TaskPtr} {filp : FilePtr} {cmd : FlockCmd}
      {newFl : Option LockPtr} {wait signalled : Bool} {fuel : Nat} {result : Option Errno}
      (idle : s.frame t = .idle) (alloc : newFl = none ↔ cmd = .lockUn)
      (fresh : ∀ p ∈ newFl, s.allocated p = false)
      (run : flockSearch fInode fuel
        (flockEnter s t ⟨filp, flockMakeLock filp cmd, newFl, wait⟩) t
        ⟨filp, flockMakeLock filp cmd, newFl, wait⟩ signalled = some (s', result)) :
      Step fInode s (.flock t filp cmd.toLockType result) s'
  | flockWake {s s' : Locks} {t : TaskPtr} {call : FlockCall} {newFl blocker : LockPtr}
      {signalled : Bool} {result : Option Errno}
      (asleep : s.frame t = .flock call (some blocker)) (new : call.newFl = some newFl)
      (awake : s.runnable t = true)
      (run : flockRepeat fInode (flockResume s t call newFl blocker) t call signalled =
        some (s', result)) :
      Step fInode s (.flock t call.filp call.caller.flType result) s'
  | flockYield {s s' : Locks} {t : TaskPtr} {call : FlockCall} {thisfl : LockPtr}
      {signalled : Bool} {fuel : Nat} {result : Option Errno}
      (yielded : s.frame t = .flockDelete call thisfl)
      (run : flockYield fInode fuel s t call thisfl signalled = some (s', result)) :
      Step fInode s (.flock t call.filp call.caller.flType result) s'
  | remove {s s' : Locks} {t : TaskPtr} {filp : FilePtr} {lastClose : Bool} {fuel : Nat}
      (idle : s.frame t = .idle)
      (run : locksRemoveLocks fInode fuel s t filp lastClose = some s') :
      Step fInode s (.remove t filp) s'
  | signal {s : Locks} (t : TaskPtr) :
      Step fInode s (.signal t) { s with runnable := update s.runnable t true }

/-- Before the first lock: no list, no call open, any memory contents. -/
structure Boot (s : Locks) : Prop where
  iFlock : ∀ i, s.iFlock i = []
  fileLockTable : s.fileLockTable = []
  frame : ∀ t, s.frame t = .idle
  allocated : ∀ p, s.allocated p = false

/-- Any tasks, files and inodes, calls interleaved at their sleep points. -/
def locksSystem (fInode : FilePtr → InodePtr) : Lib.System Locks where
  init := Boot
  step s s' := ∃ e, Step fInode s e s'

end Sbckernel.Fs
