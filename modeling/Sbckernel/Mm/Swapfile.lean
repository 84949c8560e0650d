import Mathlib.Algebra.Order.Ring.Int
import Sbckernel.Lib.Reach

/-!
# Swap areas (`mm/swapfile.c`, `mm/swap_state.c`, `mm/page_io.c`)

Each swap area has a map with the number of users of each slot and a map of the slots that
are locked for I/O. The areas that may be written to are on a list, by priority, that
begins at `swap_list.head`; `swap_list.next` is the area to be used next. The index -1 is
`none` here, and `below` is what `swap_info[-1].prio` happens to be.

`sys_swapon` and `sys_swapoff` may sleep, and then the others run. Each of them is done in
two steps: up to where it may sleep, and what it does when it is known how that went.
`busy` says which areas they are at work on. The bitmap that `sys_swapon` reads from the
area is given by the offsets that are set in it, in order. A task that waits in
`rw_swap_page` for a lock is one of the `sleepers`. Messages, the pages and the devices
are left out.
-/

namespace Sbckernel.Swap

open Function

def maxSwapfiles : Nat := 8

def swapClusterMax : Nat := 32

def swapMapReserved : Nat := 0xffff

def shmSwpType : Nat := 0x40

/-- 0, `SWP_USED` and `SWP_WRITEOK`. -/
inductive Flags where
  | unused
  | used
  | writeok
  deriving DecidableEq, Repr

structure SwapInfo where
  flags : Flags
  swapDevice : Nat
  swapFile : Option Nat
  swapMap : Nat → Nat
  swapLockmap : Nat → Bool
  lowestBit : Nat
  highestBit : Nat
  clusterNext : Nat
  clusterNr : Nat
  prio : Int
  pages : Nat
  max : Nat
  next : Option Nat

/-- What sleeps on an area that is not on the list. -/
inductive Busy where
  | swapon
  | swapoff
  deriving DecidableEq, Repr

structure State where
  info : Nat → SwapInfo
  nrSwapfiles : Nat
  head : Option Nat
  next : Option Nat
  nrSwapPages : Int
  leastPriority : Int
  below : Int
  busy : Nat → Option Busy
  sleepers : List (Nat × Nat)

def blank : SwapInfo where
  flags := .unused
  swapDevice := 0
  swapFile := none
  swapMap _ := 0
  swapLockmap _ := false
  lowestBit := 0
  highestBit := 0
  clusterNext := 0
  clusterNr := 0
  prio := 0
  pages := 0
  max := 0
  next := none

def init (below : Int) : State where
  info _ := blank
  nrSwapfiles := 0
  head := none
  next := none
  nrSwapPages := 0
  leastPriority := 0
  below := below
  busy _ := none
  sleepers := []

variable (s : State)

def setInfo (type : Nat) (p : SwapInfo) : State :=
  { s with info := update s.info type p }

/-- `swap_info[i].prio`. -/
def prioAt : Option Nat → Int
  | some type => (s.info type).prio
  | none => s.below

/-! ## Entries -/

def swpType (entry : Nat) : Nat := entry / 2 % 128

def swpOffset (entry : Nat) : Nat := entry / 256

def swpEntry (type offset : Nat) : Nat := type * 2 + offset * 256

/-! ## `get_swap_page` -/

def Taken (p : SwapInfo) (offset : Nat) : Prop := p.swapMap offset ≠ 0 ∨ p.swapLockmap offset
  deriving Decidable

/-- Both loops of `scan_swap_map`, over `n` slots. -/
def scanFrom (p : SwapInfo) : Nat → Nat → Option Nat
  | 0, _ => none
  | n + 1, offset => if Taken p offset then scanFrom p n (offset + 1) else some offset

def firstFree (p : SwapInfo) (low : Nat) : Option Nat :=
  scanFrom p (p.highestBit + 1 - low) low

def gotPage (p : SwapInfo) (offset : Nat) : SwapInfo × Nat :=
  ({ p with
      swapMap := update p.swapMap offset 1
      highestBit := if offset = p.highestBit then p.highestBit - 1 else p.highestBit
      clusterNext := offset },
    offset)

/-- The second loop of `scan_swap_map`. -/
def scanFirstFree (p : SwapInfo) : SwapInfo × Nat :=
  let p := { p with clusterNr := swapClusterMax }
  match firstFree p p.lowestBit with
  | some offset => gotPage { p with lowestBit := offset } offset
  | none => (p, 0)

def scanSwapMap (p : SwapInfo) : SwapInfo × Nat :=
  if p.clusterNr ≠ 0 then
    match firstFree p p.clusterNext with
    | some offset => gotPage { p with clusterNr := p.clusterNr - 1 } offset
    | none => scanFirstFree { p with clusterNext := max p.clusterNext (p.highestBit + 1) }
  else scanFirstFree p

/-- `scan_swap_map` on an area that may be written to. -/
def tryArea (type : Nat) : State × Nat :=
  if (s.info type).flags = .writeok then
    let r := scanSwapMap (s.info type)
    let s := setInfo s type r.1
    (if r.2 ≠ 0 then { s with nrSwapPages := s.nrSwapPages - 1 } else s, r.2)
  else (s, 0)

/-- The next area, if it has the same priority. -/
def samePrio (type : Nat) : Option Nat :=
  match (s.info type).next with
  | some t => if (s.info type).prio ≠ (s.info t).prio then none else some t
  | none => none

/-- The loop of `get_swap_page`. Running out of fuel, and an index of -1, is `none`. -/
def getLoop : Nat → State → Nat → Bool → Option (State × Nat)
  | 0, _, _, _ => none
  | fuel + 1, s, type, wrapped =>
    let r := tryArea s type
    let s := r.1
    if r.2 ≠ 0 then
      some ({ s with next := (samePrio s type).or s.head }, swpEntry type r.2)
    else if wrapped then
      match (s.info type).next with
      | none => some (s, 0)
      | some t => getLoop fuel s t true
    else
      match samePrio s type with
      | some t => getLoop fuel s t false
      | none => s.head.bind fun t => getLoop fuel s t true

def getSwapPage : Option (State × Nat) :=
  match s.next with
  | none => some (s, 0)
  | some type => if s.nrSwapPages = 0 then some (s, 0) else getLoop (2 * maxSwapfiles) s type false

/-! ## `swap_duplicate` and `swap_free` -/

/-- The entry names a slot of an area; shared memory has types of its own. -/
def Slot (entry : Nat) : Prop :=
  entry ≠ 0 ∧ swpType entry < shmSwpType ∧ swpType entry < s.nrSwapfiles ∧
    swpOffset entry < (s.info (swpType entry)).max
  deriving Decidable

def swapDuplicate (entry : Nat) : State :=
  if Slot s entry then
    let p := s.info (swpType entry)
    let offset := swpOffset entry
    if p.swapMap offset = 0 ∨ p.swapMap offset = swapMapReserved then s
    else
      setInfo s (swpType entry)
        { p with swapMap := update p.swapMap offset (p.swapMap offset + 1) }
  else s

/-- The bounds that `swap_free` sets. -/
def widen (p : SwapInfo) (offset : Nat) : SwapInfo :=
  { p with
    lowestBit := if offset < p.lowestBit then offset else p.lowestBit
    highestBit := if offset > p.highestBit then offset else p.highestBit }

/-- One user less. -/
def release (type offset : Nat) : State :=
  let p := s.info type
  if p.swapMap offset = 0 ∨ p.swapMap offset = swapMapReserved then s
  else
    let s := setInfo s type
      { p with swapMap := update p.swapMap offset (p.swapMap offset - 1) }
    if p.swapMap offset - 1 = 0 then { s with nrSwapPages := s.nrSwapPages + 1 } else s

/-- `swap_free` comes to its last test, which reads `swap_info[swap_list.next]`. -/
def Frees (entry : Nat) : Prop :=
  Slot s entry ∧ (s.info (swpType entry)).flags ≠ .unused
  deriving Decidable

/-- An area with a higher priority has a free slot. -/
def rewind (type : Nat) : State :=
  if (s.info type).prio > prioAt s s.next then { s with next := s.head } else s

def swapFree (entry : Nat) : State :=
  if Frees s entry then
    let type := swpType entry
    let s := setInfo s type (widen (s.info type) (swpOffset entry))
    rewind (release s type (swpOffset entry)) type
  else s

/-! ## Locks -/

def setLock (type offset : Nat) (b : Bool) : State :=
  setInfo s type { s.info type with
    swapLockmap := update (s.info type).swapLockmap offset b }

/-- `rw_swap_page`, up to where the slot is locked. -/
def rwSwapPage (entry : Nat) : State :=
  let type := swpType entry
  let offset := swpOffset entry
  let p := s.info type
  if type < s.nrSwapfiles ∧ offset < p.max ∧ p.swapMap offset ≠ 0 ∧ p.flags ≠ .unused then
    if p.swapLockmap offset then { s with sleepers := (type, offset) :: s.sleepers }
    else setLock s type offset true
  else s

/-- A task that waits for the lock looks again. -/
def retryLock (type offset : Nat) : State :=
  if (type, offset) ∈ s.sleepers ∧ ¬(s.info type).swapLockmap offset then
    { setLock s type offset true with sleepers := s.sleepers.erase (type, offset) }
  else s

/-- The I/O of `rw_swap_page` is done. -/
def rwDone (type offset : Nat) : State :=
  if offset ≠ 0 then setLock s type offset false else s

def swapAfterUnlockPage (entry : Nat) : State :=
  if swpType entry < s.nrSwapfiles ∧ swpOffset entry < (s.info (swpType entry)).max then
    setLock s (swpType entry) (swpOffset entry) false
  else s

/-! ## `sys_swapon` and `sys_swapoff` -/

/-- A walk along the list that keeps the area before. `none` is a list without an end. -/
def walk (s : State) (stop : SwapInfo → Bool) :
    Nat → Option Nat → Option Nat → Option (Option Nat × Option Nat)
  | 0, _, _ => none
  | _ + 1, prev, none => some (prev, none)
  | fuel + 1, prev, some i =>
    if stop (s.info i) then some (prev, some i) else walk s stop fuel (some i) (s.info i).next

/-- The area goes on the list, in front of those that do not have a higher priority. -/
def insertArea (type : Nat) : Option State :=
  (walk s (fun q => (s.info type).prio ≥ q.prio) (maxSwapfiles + 1) none s.head).map fun r =>
    let s := setInfo s type { s.info type with next := r.2 }
    match r.1 with
    | none => { s with head := some type, next := some type }
    | some prev => setInfo s prev { s.info prev with next := some type }

/-- The first area below `n` that is not used. -/
def findUnused (n : Nat) : Nat :=
  ((List.range n).find? fun type => (s.info type).flags = .unused).getD n

/-- `sys_swapon`, up to where it may sleep. `prefer` is the priority, if one is asked for. -/
def sysSwapon (prefer : Option Nat) : State :=
  let type := findUnused s s.nrSwapfiles
  if type ≥ maxSwapfiles then s
  else
    let least := if prefer.isSome then s.leastPriority else s.leastPriority - 1
    { setInfo s type
        { s.info type with
          flags := .used, swapFile := none, swapDevice := 0, swapMap := fun _ => 0
          swapLockmap := fun _ => false, lowestBit := 0, highestBit := 0, clusterNr := 0, max := 1
          next := none
          prio := match prefer with
            | some prio => ((prio % 2 ^ 15 : Nat) : Int)
            | none => least } with
      nrSwapfiles := max s.nrSwapfiles (type + 1)
      leastPriority := least
      busy := update s.busy type (some .swapon) }

/-- What `sys_swapon` has found: the file or the device, and the offsets of the good slots. -/
structure Found where
  swapFile : Option Nat
  swapDevice : Nat
  good : List Nat

/-- The end of `sys_swapon`. It fails if there is no good slot. -/
def swaponDone (type : Nat) : Option Found → Option State
  | none =>
    some (setInfo s type
      { s.info type with
        flags := .unused, swapFile := none, swapDevice := 0, swapMap := fun _ => 0
        swapLockmap := fun _ => false })
  | some found =>
    let s := setInfo s type
      { s.info type with
        flags := .writeok
        swapFile := found.swapFile
        swapDevice := found.swapDevice
        lowestBit := found.good.headD 0
        highestBit := found.good.getLastD 0
        max := found.good.getLastD 0 + 1
        swapMap := fun offset => if offset ∈ found.good then 0 else swapMapReserved
        pages := found.good.length }
    insertArea { s with nrSwapPages := s.nrSwapPages + found.good.length } type

/-- The inode that `sys_swapoff` is given. -/
structure Inode where
  id : Nat
  blk : Bool
  iRdev : Nat

def swapoffMatch (inode : Inode) (p : SwapInfo) : Bool :=
  decide (p.flags = .writeok) &&
    match p.swapFile with
    | some file => decide (file = inode.id)
    | none => inode.blk && decide (p.swapDevice = inode.iRdev)

/-- The area is taken off the list. -/
def removeArea (prev : Option Nat) (type : Nat) : State :=
  let next := (s.info type).next
  let s := match prev with
    | none => { s with head := next }
    | some prev => setInfo s prev { s.info prev with next := next }
  if s.next = some type then { s with next := s.head } else s

/-- `sys_swapoff`, up to `try_to_unuse`. -/
def sysSwapoff (inode : Inode) : Option State :=
  (walk s (swapoffMatch inode) (maxSwapfiles + 1) none s.head).map fun r =>
    match r.2 with
    | none => s
    | some type =>
      let s := removeArea s r.1 type
      { setInfo s type { s.info type with flags := .used } with
        busy := update s.busy type (some .swapoff) }

/-- The end of `sys_swapoff`: `try_to_unuse` has succeeded, or the area goes back on the list. -/
def swapoffDone (type : Nat) (unused : Bool) : Option State :=
  if unused then
    some
      { setInfo s type
          { s.info type with
            flags := .unused, swapFile := none, swapDevice := 0, swapMap := fun _ => 0
            swapLockmap := fun _ => false } with
        nrSwapPages := s.nrSwapPages - (s.info type).pages }
  else
    (insertArea s type).map fun s => setInfo s type { s.info type with flags := .writeok }

/-! ## Steps -/

inductive Call where
  | swapon (prefer : Option Nat)
  | swaponDone (type : Nat) (found : Option Found)
  | swapoff (inode : Inode)
  | swapoffDone (type : Nat) (unused : Bool)
  | getSwapPage
  | swapDuplicate (entry : Nat)
  | swapFree (entry : Nat)
  | rwSwapPage (entry : Nat)
  | retryLock (type offset : Nat)
  | rwDone (type offset : Nat)
  | swapAfterUnlockPage (entry : Nat)

/-- The offsets of a bitmap of one page, whose last 10 bytes have been cleared. -/
def Found.Valid (found : Found) : Prop :=
  found.good ≠ [] ∧ found.good.Pairwise (· < ·) ∧ ∀ i ∈ found.good, 0 < i ∧ i < 8 * (4096 - 10)
  deriving Decidable

/-- The call is over. -/
def idle (type : Nat) : State := { s with busy := update s.busy type none }

/-- One step; the number is the entry that `get_swap_page` returns. -/
def step : Call → Option (State × Nat)
  | .swapon prefer => some (sysSwapon s prefer, 0)
  | .swaponDone type found =>
    if s.busy type = some .swapon ∧ (∀ f ∈ found, f.Valid) then
      (swaponDone s type found).map fun s => (idle s type, 0)
    else none
  | .swapoff inode => (sysSwapoff s inode).map fun s => (s, 0)
  | .swapoffDone type unused =>
    if s.busy type = some .swapoff then
      (swapoffDone s type unused).map fun s => (idle s type, 0)
    else none
  | .getSwapPage => getSwapPage s
  | .swapDuplicate entry => some (swapDuplicate s entry, 0)
  | .swapFree entry => some (swapFree s entry, 0)
  | .rwSwapPage entry => some (rwSwapPage s entry, 0)
  | .retryLock type offset => some (retryLock s type offset, 0)
  | .rwDone type offset => some (rwDone s type offset, 0)
  | .swapAfterUnlockPage entry => some (swapAfterUnlockPage s entry, 0)

end Sbckernel.Swap
