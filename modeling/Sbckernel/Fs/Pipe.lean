import Mathlib.Algebra.Order.Ring.Int
import Sbckernel.Lib.Circular
import Sbckernel.Lib.Reach

/-!
# Pipes (`fs/pipe.c`, `include/linux/pipe_fs_i.h`)

The bytes of a pipe are in a page, `PIPE_LEN` of them from `PIPE_START` on, round the end
of the page. `pipe_read` and `pipe_write` move the two counters before they copy; a copy
from or to user space may sleep, and `PIPE_LOCK` keeps the others out meanwhile.

A call is run up to the next sleep, which is `interruptible_sleep_on` or somewhere in a
copy: a copy is done in any number of pieces, and the place is kept as the phase of the
task. A task that sleeps on the wait queue may look again at any time. Whether there are
readers and writers, whether the task has a signal, and what is in the user's buffer when
it is read are arguments. `accepted` and `delivered` record the bytes that have been
copied in and out; a byte that comes in is recorded with its call, by the number of the
call and its size. `moved` says how many of them the last call of a task has copied.
`SIGPIPE` and the times of the inode are left out.
-/

namespace Sbckernel.Fs.Pipe

open Lib

def pipeBuf : Nat := 4096

inductive Result where
  | bytes (n : Int)
  | eagain
  | epipe
  | erestartsys
  deriving DecidableEq, Repr

/-- A call of `pipe_write`: its number and the `count` that it was given. -/
structure Call where
  id : Nat
  size : Int
  deriving DecidableEq, Repr

/-- Where the call of a task sleeps. `pos` and `chars` say what is left of a copy. -/
inductive Phase where
  | idle
  | readSleep (count : Int)
  | readCopy (count read : Int) (pos chars : Nat)
  | writeSleep (call : Call) (count free written : Int)
  | writeCopy (call : Call) (count written : Int) (pos chars : Nat) (nonblock : Bool)
  deriving DecidableEq, Repr

structure State (τ : Type*) where
  base : Nat → UInt8
  start : Nat
  len : Nat
  lock : Nat
  phase : τ → Phase
  calls : Nat
  accepted : List (Call × UInt8)
  delivered : List UInt8
  moved : τ → Nat

/-- What a call finds out when it looks. -/
structure Look where
  readers : Bool
  writers : Bool
  signal : Bool

variable {τ : Type*} [DecidableEq τ]

/-- A new pipe; its page is not cleared. -/
def init (base : Nat → UInt8) : State τ where
  base := base
  start := 0
  len := 0
  lock := 0
  phase := fun _ => .idle
  calls := 0
  accepted := []
  delivered := []
  moved := fun _ => 0

variable (s : State τ) (t : τ)

def goto (p : Phase) : State τ :=
  { s with phase := Function.update s.phase t p }

/-- The call returns. -/
def finish (r : Result) : State τ × Option Result := (goto s t .idle, some r)

def pipeFree : Nat := pipeBuf - s.len

def pipeEnd : Nat := (s.start + s.len) % pipeBuf

/-- The length of the next chunk: up to the end of the page, to the end of the call's buffer and
to the end of what there is. -/
def chunk (max avail : Nat) (count : Int) : Nat :=
  let chars := if (max : Int) > count then count.toNat else max
  if chars > avail then avail else chars

def takeLock : State τ := { s with lock := s.lock + 1 }

def unlock : State τ := { s with lock := s.lock - 1 }

/-! ## `pipe_read` -/

/-- The counters move on over the next `chars` bytes. -/
def takeOut (chars : Nat) : State τ :=
  { s with start := (s.start + chars) % pipeBuf, len := s.len - chars }

/-- The loop of `pipe_read`, up to the next copy or to the end of the call. -/
def readLoop (count read : Int) (look : Look) : State τ × Option Result :=
  if count > 0 ∧ s.len ≠ 0 then
    let chars := chunk (pipeBuf - s.start) s.len count
    (goto (takeOut s chars) t (.readCopy (count - chars) (read + chars) s.start chars), none)
  else
    finish (unlock s) t (if read ≠ 0 then .bytes read else
      if look.writers then .eagain else .bytes 0)

/-- `pipe_read` with the lock taken. -/
def readLocked (count : Int) (look : Look) : State τ × Option Result :=
  readLoop (takeLock s) t count 0 look

/-- The waiting loop of `pipe_read`. -/
def readWait (count : Int) (look : Look) : State τ × Option Result :=
  if s.len = 0 ∨ s.lock ≠ 0 then
    if s.len = 0 ∧ ¬look.writers then finish s t (.bytes 0)
    else if look.signal then finish s t .erestartsys
    else (goto s t (.readSleep count), none)
  else readLocked s t count look

def pipeRead (count : Int) (nonblock : Bool) (look : Look) : State τ × Option Result :=
  if nonblock then
    if s.lock ≠ 0 then finish s t .eagain
    else if s.len = 0 then finish s t (if look.writers then .eagain else .bytes 0)
    else readLocked s t count look
  else readWait s t count look

/-- The `n` bytes at `pos` are in the reader's buffer. -/
def copiedOut (pos n : Nat) : State τ :=
  { s with
    delivered := s.delivered ++ Circular.window s.base pipeBuf pos n
    moved := Function.update s.moved t (s.moved t + n) }

/-- `memcpy_tofs` has copied `n` more bytes. -/
def readCopied (count read : Int) (pos chars n : Nat) (look : Look) : State τ × Option Result :=
  if n = chars then readLoop (copiedOut s t pos n) t count read look
  else (goto (copiedOut s t pos n) t (.readCopy count read (pos + n) (chars - n)), none)

/-! ## `pipe_write` -/

def addRoom (chars : Nat) : State τ := { s with len := s.len + chars }

/-- The inner loop of `pipe_write`, up to the next copy. It is left when all is written or the
pipe is full. -/
def writeChunk (call : Call) (count written : Int) (nonblock : Bool) : Option (State τ) :=
  if count > 0 ∧ pipeFree s ≠ 0 then
    let chars := chunk (pipeBuf - pipeEnd s) (pipeFree s) count
    some (goto (addRoom s chars) t
      (.writeCopy call (count - chars) (written + chars) (pipeEnd s) chars nonblock))
  else none

/-- `written? : -error`. -/
def writtenOr (written : Int) (error : Result) : Result :=
  if written ≠ 0 then .bytes written else error

/-- The waiting loop of `pipe_write`, and the inner loop behind it. There is always room for a
chunk when the lock has been taken. -/
def writeWait (call : Call) (count free written : Int) (nonblock : Bool)
    (look : Look) : State τ × Option Result :=
  if (pipeFree s : Int) < free ∨ s.lock ≠ 0 then
    if ¬look.readers then finish s t (writtenOr written .epipe)
    else if look.signal then finish s t (writtenOr written .erestartsys)
    else if nonblock then finish s t (writtenOr written .eagain)
    else (goto s t (.writeSleep call count free written), none)
  else
    match writeChunk (takeLock s) t call count written nonblock with
    | some s => (s, none)
    | none => finish s t (.bytes written)

/-- The outer loop of `pipe_write`. -/
def writeLoop (call : Call) (count free written : Int) (nonblock : Bool)
    (look : Look) : State τ × Option Result :=
  if count > 0 then writeWait s t call count free written nonblock look
  else finish s t (.bytes written)

def pipeWrite (count : Int) (nonblock : Bool) (look : Look) : State τ × Option Result :=
  if ¬look.readers then finish s t .epipe
  else
    let call := ⟨s.calls, count⟩
    let s := { s with calls := s.calls + 1 }
    writeLoop s t call count (if count ≤ pipeBuf then count else 1) 0 nonblock look

/-- Some bytes of the writer's buffer are in the page. -/
def copiedIn (call : Call) (pos : Nat) (bytes : List UInt8) : State τ :=
  { s with
    base := Circular.store s.base pos bytes
    accepted := s.accepted ++ bytes.map fun b => (call, b)
    moved := Function.update s.moved t (s.moved t + bytes.length) }

/-- `memcpy_fromfs` has copied some more bytes. -/
def writeCopied (call : Call) (count written : Int) (pos chars : Nat)
    (nonblock : Bool) (bytes : List UInt8) (look : Look) : State τ × Option Result :=
  let s := copiedIn s t call pos bytes
  if bytes.length = chars then
    match writeChunk s t call count written nonblock with
    | some s => (s, none)
    | none => writeLoop (unlock s) t call count 1 written nonblock look
  else (goto s t
    (.writeCopy call count written (pos + bytes.length) (chars - bytes.length) nonblock), none)

/-! ## Steps -/

inductive Action (τ : Type*) where
  | read (t : τ) (count : Int) (nonblock : Bool) (look : Look)
  | write (t : τ) (count : Int) (nonblock : Bool) (look : Look)
  | wake (t : τ) (look : Look)
  | copyOut (t : τ) (n : Nat) (look : Look)
  | copyIn (t : τ) (bytes : List UInt8) (look : Look)

/-- A call begins. -/
def State.enter : State τ := { s with moved := Function.update s.moved t 0 }

def Action.task : Action τ → τ
  | .read t _ _ _ => t
  | .write t _ _ _ => t
  | .wake t _ => t
  | .copyOut t _ _ => t
  | .copyIn t _ _ => t

/-- One step. A writer that sleeps on the wait queue was not opened with `O_NONBLOCK`. -/
def step : Action τ → Option (State τ × Option Result)
  | .read t count nonblock look =>
    if s.phase t = .idle then some (pipeRead (s.enter t) t count nonblock look) else none
  | .write t count nonblock look =>
    if s.phase t = .idle then some (pipeWrite (s.enter t) t count nonblock look) else none
  | .wake t look =>
    match s.phase t with
    | .readSleep count => some (readWait s t count look)
    | .writeSleep call count free written =>
      some (writeWait s t call count free written false look)
    | _ => none
  | .copyOut t n look =>
    match s.phase t with
    | .readCopy count read pos chars =>
      if 0 < n ∧ n ≤ chars then some (readCopied s t count read pos chars n look) else none
    | _ => none
  | .copyIn t bytes look =>
    match s.phase t with
    | .writeCopy call count written pos chars nonblock =>
      if 0 < bytes.length ∧ bytes.length ≤ chars then
        some (writeCopied s t call count written pos chars nonblock bytes look)
      else none
    | _ => none

end Sbckernel.Fs.Pipe
