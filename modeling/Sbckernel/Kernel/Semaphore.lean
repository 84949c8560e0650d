import Mathlib.Algebra.Order.Ring.Int
import Sbckernel.Lib.Reach

/-!
# Kernel semaphores (`kernel/sched.c`, `include/asm-i386/semaphore.h`)

A semaphore has two counters. `down` takes one off `count` and waits if the result is
negative; `up` adds one and, if the result is not positive, adds one to `waking`, which
lets one waiter through. A waiter that is interrupted by a signal takes its share of
`count` back and returns an error.

A call is cut where another processor or an interrupt handler can come between: before
the one instruction on `count`, before `waking_non_zero`, which is atomic, before the
test of the signals, before the `atomic_inc` that takes the share of `count` back, and
before the `atomic_inc` of `waking` in `__up`. A caller is a task or an interrupt
handler; there may be any number of them. The wait queue only says when a waiter looks
again, and here it may do so at any time. How often a `down` has returned with the
semaphore and how often an `up` has done its increment is recorded in `acquired` and
`ups`.
-/

namespace Sbckernel.Kernel.Semaphore

/-- Conversion to `int`. -/
def int (x : Int) : Int := (x + 2 ^ 31) % 2 ^ 32 - 2 ^ 31

/-- Where the call of a caller stands. -/
inductive Phase where
  | idle
  /-- before `waking_non_zero` -/
  | trying (interruptible : Bool)
  /-- behind it, without success -/
  | waiting (interruptible : Bool)
  /-- signalled, before the increment of `count` -/
  | leaving
  /-- in `__up`, before the increment of `waking` -/
  | waking
  deriving DecidableEq, Repr

structure State (τ : Type*) where
  count : Int
  waking : Int
  phase : τ → Phase
  acquired : Nat
  ups : Nat

variable {τ : Type*} [DecidableEq τ]

variable (s : State τ)

def goto (t : τ) (p : Phase) : State τ :=
  { s with phase := Function.update s.phase t p }

/-- The semaphore with `count` set to `n`. -/
def init (n : Int) : State τ where
  count := n
  waking := 0
  phase := fun _ => .idle
  acquired := 0
  ups := 0

/-- `down` and `down_interruptible`: `decl`, then `js`. -/
def down (t : τ) (interruptible : Bool) : State τ :=
  let s := { s with count := int (s.count - 1) }
  if s.count < 0 then goto s t (.trying interruptible)
  else goto { s with acquired := s.acquired + 1 } t .idle

/-- `waking_non_zero` in the loop of `__do_down`. -/
def wakingNonZero (t : τ) (interruptible : Bool) : State τ :=
  if s.waking > 0 then
    goto { s with waking := int (s.waking - 1), acquired := s.acquired + 1 } t .idle
  else goto s t (.waiting interruptible)

/-- The rest of the loop of `__do_down`, up to the end or through `schedule`. -/
def testSignal (t : τ) (interruptible signalled : Bool) : State τ :=
  if interruptible ∧ signalled then goto s t .leaving else goto s t (.trying interruptible)

/-- The end of a call that gives up. -/
def giveUp (t : τ) : State τ := goto { s with count := int (s.count + 1) } t .idle

/-- `up`: `incl`, then `jle`, which takes the overflow into account. -/
def up (t : τ) : State τ :=
  let wake := s.count + 1 ≤ 0
  let s := { s with count := int (s.count + 1), ups := s.ups + 1 }
  if wake then goto s t .waking else goto s t .idle

/-- `__up`. -/
def wakeUp (t : τ) : State τ := goto { s with waking := int (s.waking + 1) } t .idle

inductive Action (τ : Type*) where
  | down (t : τ) (interruptible : Bool)
  | wakingNonZero (t : τ)
  | testSignal (t : τ) (signalled : Bool)
  | giveUp (t : τ)
  | up (t : τ)
  | wakeUp (t : τ)

def step : Action τ → Option (State τ)
  | .down t interruptible => if s.phase t = .idle then some (down s t interruptible) else none
  | .wakingNonZero t =>
    match s.phase t with
    | .trying interruptible => some (wakingNonZero s t interruptible)
    | _ => none
  | .testSignal t signalled =>
    match s.phase t with
    | .waiting interruptible => some (testSignal s t interruptible signalled)
    | _ => none
  | .giveUp t => if s.phase t = .leaving then some (giveUp s t) else none
  | .up t => if s.phase t = .idle then some (up s t) else none
  | .wakeUp t => if s.phase t = .waking then some (wakeUp s t) else none

end Sbckernel.Kernel.Semaphore
