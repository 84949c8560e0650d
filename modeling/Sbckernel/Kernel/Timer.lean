import Sbckernel.Lib.Reach
import Mathlib.Data.BitVec

/-!
# The timer wheel of `kernel/sched.c`

Five vectors of slots, `tv1` to `tv5`, hold the pending timers. `tv1` has a
slot for each of the next 256 ticks; the others have 64 slots each, of 2^8,
2^14, 2^20 and 2^26 ticks. `add_timer` files a timer by how far away it is,
and each time `tv1` has gone round, `run_timer_list` empties a slot of `tv2`
into `tv1`, and so on up.

A slot is a doubly linked list through the timers. A list of timers, head
first, models it: `insert_timer` pushes at the head, and `detach_timer`, which
unlinks a timer through its own pointers without knowing the slot, erases it
wherever it is. A timer that is on no list has both pointers null and
detaching it does nothing, as erasing it does nothing here.

`jiffies`, `timer_jiffies` and `expires` are 32-bit words, as `unsigned long`
is on i386.
-/

namespace Sbckernel.Kernel

open Lib

/-- `unsigned long` on i386. -/
abbrev ULong := BitVec 32

def tvnBits : Nat := 6
def tvrBits : Nat := 8
def tvnSize : Nat := 1 <<< tvnBits
def tvrSize : Nat := 1 <<< tvrBits
def tvnMask : Nat := tvnSize - 1
def tvrMask : Nat := tvrSize - 1

/-- `NOOF_TVECS`. -/
def noofTvecs : Nat := 5

/-- `struct timer_vec` and `struct timer_vec_root`, which differ in the number
of slots. -/
structure TimerVec (τ : Type) where
  index : Nat
  vec : Nat → List τ

/-- `tvecs[]`, `timer_jiffies` and the `expires` field of every timer. -/
structure Wheel (τ : Type) where
  tvecs : Nat → TimerVec τ
  timerJiffies : ULong
  expires : τ → ULong

namespace Wheel

variable {τ : Type} [DecidableEq τ]

variable (w : Wheel τ)

/-- The slot `i` of `tvecs[n]`. -/
def slot (n i : Nat) : List τ := (w.tvecs n).vec i

def index (n : Nat) : Nat := (w.tvecs n).index

def setSlot (n i : Nat) (l : List τ) : Wheel τ :=
  { w with tvecs := fun m =>
      if m = n then { w.tvecs m with vec := fun j => if j = i then l else (w.tvecs m).vec j }
      else w.tvecs m }

def setIndex (n i : Nat) : Wheel τ :=
  { w with tvecs := fun m => if m = n then { w.tvecs m with index := i } else w.tvecs m }

def insertTimer (timer : τ) (n i : Nat) : Wheel τ :=
  w.setSlot n i (timer :: w.slot n i)

def internalAddTimer (timer : τ) : Wheel τ :=
  let expires := w.expires timer
  let idx := (expires - w.timerJiffies).toNat
  if idx < tvrSize then
    w.insertTimer timer 0 (expires.toNat &&& tvrMask)
  else if idx < 1 <<< (tvrBits + tvnBits) then
    w.insertTimer timer 1 (expires.toNat >>> tvrBits &&& tvnMask)
  else if idx < 1 <<< (tvrBits + 2 * tvnBits) then
    w.insertTimer timer 2 (expires.toNat >>> (tvrBits + tvnBits) &&& tvnMask)
  else if idx < 1 <<< (tvrBits + 3 * tvnBits) then
    w.insertTimer timer 3 (expires.toNat >>> (tvrBits + 2 * tvnBits) &&& tvnMask)
  else if expires < w.timerJiffies then
    w.insertTimer timer 0 (w.index 0)
  else if idx < 0xffffffff then
    w.insertTimer timer 4 (expires.toNat >>> (tvrBits + 3 * tvnBits) &&& tvnMask)
  else
    -- only with 64-bit jiffies: the timer is linked to itself, on no list
    w

/-- `add_timer`, on a timer whose `expires` the caller has just set. -/
def addTimer (timer : τ) (expires : ULong) : Wheel τ :=
  { w with expires := fun t => if t = timer then expires else w.expires t }.internalAddTimer
    timer

/-- A timer is pending when it is on some list. -/
def Pending (timer : τ) : Prop :=
  ∃ n < noofTvecs, ∃ i < tvrSize, timer ∈ w.slot n i

instance (w : Wheel τ) (timer : τ) : Decidable (w.Pending timer) :=
  inferInstanceAs (Decidable (∃ n < noofTvecs, ∃ i < tvrSize, timer ∈ w.slot n i))

def detachTimer (timer : τ) : Wheel τ :=
  { w with tvecs := fun n =>
      { w.tvecs n with vec := fun i => ((w.tvecs n).vec i).erase timer } }

/-- `del_timer`; it answers whether the timer was pending. -/
def delTimer (timer : τ) : Wheel τ × Bool :=
  (w.detachTimer timer, w.Pending timer)

/-- `cascade_timers(tvecs[n])`: every timer of the current slot is filed anew,
then the slot is cleared and the index moves on. -/
def cascadeTimers (n : Nat) : Wheel τ :=
  let i := w.index n
  let w := (w.slot n i).foldl internalAddTimer w
  (w.setSlot n i []).setIndex n ((i + 1) &&& tvnMask)

/-- The `do … while` of `run_timer_list` over `tvecs[n]`, `tvecs[n + 1]`, …;
`left` is `NOOF_TVECS - n`. -/
def cascadeFrom : Nat → Nat → Wheel τ → Wheel τ
  | 0, _, w => w
  | left + 1, n, w =>
    let w := w.cascadeTimers n
    if w.index n = 1 then cascadeFrom left (n + 1) w else w

/-- The head of an iteration of `run_timer_list`. -/
def cascade : Wheel τ :=
  if w.index 0 = 0 then cascadeFrom (noofTvecs - 1) 1 w else w

/-- The tail of an iteration. -/
def advance : Wheel τ :=
  { w with timerJiffies := w.timerJiffies + 1 }.setIndex 0 ((w.index 0 + 1) &&& tvrMask)

end Wheel

/-- The static initial state. -/
def wheelInit (τ : Type) : Wheel τ := ⟨fun _ => ⟨0, fun _ => []⟩, 0, fun _ => 0⟩

/-! ## Runs

What happens to the timers is a history of events. An addition is recorded
with the expiry and `timer_jiffies` at that moment, a call with the
`timer_jiffies` of the iteration that makes it. -/

inductive TimerEvent (τ : Type) where
  | add (timer : τ) (expires now : Nat)
  | del (timer : τ)
  | call (timer : τ) (now : Nat)
deriving DecidableEq

def TimerEvent.timer {τ : Type} : TimerEvent τ → τ
  | .add t _ _ | .del t | .call t _ => t

/-- The wheel, the clock and what happened. `running` says that an iteration of
`run_timer_list` is past its cascade and calling the timers of its slot. -/
structure Timers (τ : Type) where
  wheel : Wheel τ
  jiffies : ULong
  running : Bool
  log : List (TimerEvent τ)

namespace Timers

variable {τ : Type} [DecidableEq τ]

/-- The steps. Callbacks run with interrupts enabled, so additions and deletions
may come between any two calls as well as between iterations. `add_timer`
takes a timer that is on no list, as the check under
`SLOW_BUT_DEBUGGING_TIMERS` has it. -/
inductive Step : Timers τ → Timers τ → Prop
  | add {s : Timers τ} (t : τ) (e : ULong) : ¬ s.wheel.Pending t → e.toNat < 2 ^ 31 →
      Step s { s with
        wheel := s.wheel.addTimer t e
        log := s.log ++ [.add t e.toNat s.wheel.timerJiffies.toNat] }
  | del {s : Timers τ} (t : τ) :
      Step s { s with wheel := (s.wheel.delTimer t).1, log := s.log ++ [.del t] }
  | tick {s : Timers τ} : (s.jiffies + 1).toNat < 2 ^ 31 →
      Step s { s with jiffies := s.jiffies + 1 }
  /-- The loop condition `(long)(jiffies - timer_jiffies) >= 0` and the cascade. -/
  | enter {s : Timers τ} : s.running = false →
      0 ≤ (s.jiffies - s.wheel.timerJiffies).toInt →
      Step s { s with wheel := s.wheel.cascade, running := true }
  /-- The timer at the head of the slot is detached and called. -/
  | call {s : Timers τ} {t : τ} {rest : List τ} : s.running = true →
      s.wheel.slot 0 (s.wheel.index 0) = t :: rest →
      Step s { s with
        wheel := s.wheel.detachTimer t
        log := s.log ++ [.call t s.wheel.timerJiffies.toNat] }
  | leave {s : Timers τ} : s.running = true → s.wheel.slot 0 (s.wheel.index 0) = [] →
      Step s { s with wheel := s.wheel.advance, running := false }

def system (τ : Type) [DecidableEq τ] : System (Timers τ) where
  init s := s = ⟨wheelInit τ, 0, false, []⟩
  step := Step

end Timers

end Sbckernel.Kernel
