import Mathlib.Algebra.Order.Ring.Int
import Sbckernel.Lib.Reach

/-!
# Page I/O (`brw_page`, `mark_buffer_uptodate` and `unlock_buffer` in `fs/buffer.c`)

`brw_page` makes a ring of temporary buffers for the blocks of a page. A hole is filled
with zeroes and a block that is in the buffer cache is copied at once; the rest is given
to `ll_rw_block`, and the page is unlocked when the last of these buffers has completed.

A block completes in two steps, `mark_buffer_uptodate` and `unlock_buffer`, which come in
an interrupt, in any order among the blocks, as soon as the block is queued. What is found
in the buffer cache, whether a buffer there is up to date, also after it has been waited
for, and whether `ll_rw_block` takes the request at all are arguments. `held` records
where the data of a block came from, `unlocks` how often the page was unlocked. The hooks
of `after_unlock_page`, wait queues and accounting are left out.
-/

namespace Sbckernel.Fs.BrwPage

open Lib

inductive Rw where
  | read
  | write
  deriving DecidableEq, Repr

/-- A temporary buffer. -/
structure BufferHead where
  uptodate : Bool
  lock : Bool
  freeOnIo : Bool
  dirty : Bool
  bCount : Nat
  deriving DecidableEq, Repr

/-- The flags of the page. -/
structure Page where
  pgLocked : Bool
  pgUptodate : Bool
  pgError : Bool
  deriving DecidableEq, Repr

/-- Where the data of a block in the page came from. -/
inductive Held where
  | nothing
  | zeroes
  | copied (uptodate : Bool)
  | fromDisk
  deriving DecidableEq, Repr

/-- The request for a block. -/
inductive Request where
  | none
  | queued
  | marked
  | complete
  deriving DecidableEq, Repr

/-- Where `brw_page` is: before the block `i`, in `wait_on_buffer` for the copy of it, before
`ll_rw_block`, or in it with some blocks still to be queued. -/
inductive Phase where
  | start
  | look (i : Nat)
  | wait (i : Nat)
  | submit
  | queue (rest : List Nat)
  | returned
  deriving DecidableEq, Repr

structure State where
  rw : Rw
  bmap : Bool
  /-- The number of blocks in the page. -/
  blocks : Nat
  /-- Their numbers on the device. -/
  b : Nat → Nat
  page : Page
  bh : Nat → BufferHead
  /-- The buffers that are given to `ll_rw_block`. -/
  arr : List Nat
  request : Nat → Request
  held : Nat → Held
  phase : Phase
  unlocks : Nat
  reuseList : List Nat

variable (s : State)

def setBh (i : Nat) (bh : BufferHead) : State :=
  { s with bh := Function.update s.bh i bh }

def setHeld (i : Nat) (h : Held) : State :=
  { s with held := Function.update s.held i h }

def setRequest (i : Nat) (r : Request) : State :=
  { s with request := Function.update s.request i r }

def unlockPage : State :=
  { s with page := { s.page with pgLocked := false }, unlocks := s.unlocks + 1 }

/-- The ring of buffers, from one of them on. -/
def ring (i : Nat) : List Nat := (List.range s.blocks).map fun k => (i + k) % s.blocks

/-- `free_async_buffers`: the walk stops at a buffer that is not a temporary one. -/
def freeAsyncBuffers (s : State) : List Nat → State
  | [] => s
  | j :: l =>
    if (s.bh j).freeOnIo then
      freeAsyncBuffers
        (setBh { s with reuseList := j :: s.reuseList } j { s.bh j with freeOnIo := false }) l
    else s

/-! ## `brw_page` -/

/-- The buffers that `create_buffers` makes. -/
def newBuffer : BufferHead := ⟨false, false, false, false, 0⟩

/-- The start of `brw_page`; `created` says whether there was memory for the buffers. -/
def brwPage (created : Bool) : State :=
  let s := { s with page := { s.page with pgUptodate := false, pgError := false } }
  if created then { s with bh := fun _ => newBuffer, phase := .look 0 }
  else { unlockPage s with phase := .returned }

/-- The end of the loop. -/
def afterLoop : State :=
  if s.arr ≠ [] then { s with phase := .submit }
  else
    let s := unlockPage (freeAsyncBuffers s (ring s 0))
    { s with page := { s.page with pgUptodate := true }, phase := .returned }

/-- On to the next block. -/
def nextBlock (i : Nat) : State :=
  if i + 1 < s.blocks then { s with phase := .look (i + 1) } else afterLoop s

/-- The block needs no request. -/
def withoutRequest (i : Nat) (h : Held) : State :=
  nextBlock (setHeld (setBh s i { s.bh i with bCount := (s.bh i).bCount - 1 }) i h) i

/-- The copy from or to a buffer in the cache. -/
def copyBlock (i : Nat) (uptodate : Bool) : State :=
  withoutRequest s i (if s.rw = .read then .copied uptodate else s.held i)

/-- The block is to be given to `ll_rw_block`. -/
def needsRequest (i : Nat) : State :=
  let bh :=
    if s.rw = .read then { s.bh i with uptodate := false } else { s.bh i with dirty := true }
  nextBlock { setBh s i bh with arr := s.arr ++ [i] } i

/-- One round of the loop; `cached` is the state of the buffer that `get_hash_table` finds. -/
def lookBlock (i : Nat) (cached : Option Bool) : State :=
  let s := setBh s i { s.bh i with freeOnIo := true, bCount := 1, uptodate := true }
  if s.bmap ∧ s.b i = 0 then withoutRequest s i .zeroes
  else
    match cached with
    | some true => copyBlock s i true
    | some false => { s with phase := .wait i }
    | none => needsRequest s i

/-! ## `ll_rw_block` -/

/-- `ll_rw_block` takes the buffers, or is sorry. -/
def submitBlocks (taken : Bool) : State :=
  if taken then { s with phase := .queue s.arr }
  else
    { s with
      bh := fun i => if i ∈ s.arr then { s.bh i with dirty := false, uptodate := false } else s.bh i
      phase := .returned }

/-- `make_request` for the next buffer. -/
def queueBlock (i : Nat) (rest : List Nat) : State :=
  let s := setRequest (setBh s i { s.bh i with lock := true }) i .queued
  { s with phase := if rest = [] then .returned else .queue rest }

/-! ## Completion -/

def markBufferUptodate (i : Nat) (on : Bool) : State :=
  if on then
    let s := setBh s i { s.bh i with uptodate := true }
    if (ring s i).all fun j => (s.bh j).uptodate then
      { s with page := { s.page with pgUptodate := true } }
    else s
  else setBh s i { s.bh i with uptodate := false }

/-- The block has been transferred, or has failed. -/
def markBlock (i : Nat) (ok : Bool) : State :=
  let s := if ok ∧ s.rw = .read then setHeld s i .fromDisk else s
  setRequest (markBufferUptodate s i ok) i .marked

def unlockBuffer (i : Nat) : State :=
  let s := setBh s i { s.bh i with lock := false }
  if ¬(s.bh i).freeOnIo then s
  else if ¬s.page.pgLocked then s
  else if (s.bh i).bCount ≠ 1 then s
  else
    let s := if (s.bh i).uptodate then s else { s with page := { s.page with pgError := true } }
    let s := setBh s i { s.bh i with bCount := (s.bh i).bCount - 1 }
    if (ring s i).any fun j => (s.bh j).bCount ≠ 0 then s
    else unlockPage (freeAsyncBuffers s (ring s i))

/-! ## Steps -/

inductive Action where
  | brwPage (created : Bool)
  | look (cached : Option Bool)
  | waited (uptodate : Bool)
  | submit (taken : Bool)
  | queue
  | mark (i : Nat) (ok : Bool)
  | unlock (i : Nat)
  deriving DecidableEq, Repr

def step : Action → Option State
  | .brwPage created => if s.phase = .start then some (brwPage s created) else none
  | .look cached =>
    match s.phase with
    | .look i => some (lookBlock s i cached)
    | _ => none
  | .waited uptodate =>
    match s.phase with
    | .wait i => some (copyBlock s i uptodate)
    | _ => none
  | .submit taken => if s.phase = .submit then some (submitBlocks s taken) else none
  | .queue =>
    match s.phase with
    | .queue (i :: rest) => some (queueBlock s i rest)
    | _ => none
  | .mark i ok => if s.request i = .queued then some (markBlock s i ok) else none
  | .unlock i =>
    if s.request i = .marked then some (setRequest (unlockBuffer s i) i .complete) else none

/-- The page is locked, and nothing has been done yet. -/
structure Initial (s : State) : Prop where
  blocks : 0 < s.blocks
  locked : s.page.pgLocked = true
  phase : s.phase = .start
  arr : s.arr = []
  request : ∀ i, s.request i = .none
  held : ∀ i, s.held i = .nothing
  unlocks : s.unlocks = 0

/-- The I/O on one page, with the steps that `allowed` lets through. -/
def pageIo (allowed : State → Action → Prop) : System State where
  init := Initial
  step s s' := ∃ a, allowed s a ∧ step s a = some s'

end Sbckernel.Fs.BrwPage
