import Sbckernel.Lib.Dyadic

/-!
# The buddy allocator of `mm/page_alloc.c`

The state is what the source keeps in `free_area[]` and `nr_free_pages`: for
each order a queue of free blocks, named by the page number of their first
page, and a bitmap with one bit for each pair of buddies. Page numbers and
masks are 32-bit words, as `unsigned long` is on i386, so that the bit tricks
of `free_pages_ok` (`mask`, `-mask`, `map_nr ^ -mask`) stand here as they
stand there.

The queues are doubly linked through `struct page`. A list of page numbers,
most recently added first, models one: `add_mem_queue` pushes at the head,
and `remove_mem_queue`, which unlinks a page without being told the queue it
is on, erases it wherever it is. The fields `count` and `age` of an allocated
page are not read by the allocator and are left out, and so are the sizes of
the bitmaps, which `free_area_init` makes large enough for every index.
-/

namespace Sbckernel.Mm

/-- `unsigned long` on i386. -/
abbrev Word := BitVec 32

def nrMemLists : Nat := 6

/-- `struct free_area_struct`. -/
structure FreeArea where
  queue : List Nat
  map : Nat → Bool

/-- `free_area[]` and `nr_free_pages`. -/
structure PageAlloc where
  freeArea : Nat → FreeArea
  nrFreePages : Word

/-- What `free_area_init` sets up: every queue empty, every bitmap zero. -/
def freeAreaInit : PageAlloc :=
  ⟨fun _ => ⟨[], fun _ => false⟩, 0⟩

namespace PageAlloc

variable (s : PageAlloc)

def queue (o : Nat) : List Nat := (s.freeArea o).queue

def map (o : Nat) : Nat → Bool := (s.freeArea o).map

def addMemQueue (o page : Nat) : PageAlloc :=
  { s with freeArea := fun i =>
      if i = o then { s.freeArea i with queue := page :: (s.freeArea i).queue }
      else s.freeArea i }

def removeMemQueue (page : Nat) : PageAlloc :=
  { s with freeArea := fun i =>
      { s.freeArea i with queue := (s.freeArea i).queue.erase page } }

/-- `change_bit` on the bitmap of order `o`; the old value is read off the
state before. -/
def changeBit (o index : Nat) : PageAlloc :=
  { s with freeArea := fun i =>
      if i = o then
        { s.freeArea i with map := fun k =>
            if k = index then !(s.freeArea i).map k else (s.freeArea i).map k }
      else s.freeArea i }

/-- `MARK_USED(index, order, area)`. -/
def markUsed (index : Word) (o : Nat) : PageAlloc :=
  s.changeBit o (index >>> (1 + o)).toNat

/-- The `while` loop of `free_pages_ok` and the `add_mem_queue` after it.
`area` is the index of the area pointer. Every round shifts the mask once, and
from an order below `nrMemLists` the mask reaches its last value within
`nrMemLists` rounds; the fuel counts them and `none` is running out. -/
def freePagesLoop : Nat → PageAlloc → Nat → Word → Word → Word → Option PageAlloc
  | 0, _, _, _, _, _ => none
  | fuel + 1, s, area, mapNr, mask, index =>
    if mask + (1 : Word) <<< (nrMemLists - 1) ≠ 0 then
      if s.map area index.toNat = false then
        some ((s.changeBit area index.toNat).addMemQueue area mapNr.toNat)
      else
        let s := s.changeBit area index.toNat
        let s := s.removeMemQueue (mapNr ^^^ -mask).toNat
        let mask := mask <<< 1
        freePagesLoop fuel s (area + 1) (mapNr &&& mask) mask (index >>> 1)
    else some (s.addMemQueue area mapNr.toNat)

def freePagesOk (mapNr : Word) (order : Nat) : Option PageAlloc :=
  let index := mapNr >>> (1 + order)
  let mask : Word := ~~~(0 : Word) <<< order
  let s := { s with nrFreePages := s.nrFreePages - mask }
  freePagesLoop nrMemLists s order (mapNr &&& mask) mask index

/-- `EXPAND(map, index, low, high, area)`. `map` is `mem_map + index`
throughout, so one of the two is kept. -/
def expand (s : PageAlloc) (index : Word) (low : Nat) : Nat → Word → PageAlloc × Word
  | 0, _ => (s, index)
  | high + 1, size =>
    if high + 1 > low then
      let size := size >>> 1
      let s := s.addMemQueue high index.toNat
      let s := s.markUsed index high
      expand s (index + size) low high size
    else (s, index)

/-- The inner `while` of `RMQUEUE`: the first block of the queue that will
do. -/
def rmqueueScan (dma : Bool) (canDma : Nat → Bool) (q : List Nat) : Option Nat :=
  q.find? fun ret => !dma || canDma ret

/-- What `RMQUEUE` does once it has found `ret` on the queue of `newOrder`. -/
def rmqueueTake (order newOrder ret : Nat) : PageAlloc × Word :=
  let mapNr := BitVec.ofNat 32 ret
  let s := s.removeMemQueue ret
  let s := s.markUsed mapNr newOrder
  let s := { s with nrFreePages := s.nrFreePages - (1 : Word) <<< order }
  expand s mapNr order newOrder ((1 : Word) <<< newOrder)

/-- `RMQUEUE(order, dma)`: the queues from `order` upwards, the first block
that will do on the first queue that has one. `none` is falling out of the
macro. -/
def rmqueue (order : Nat) (dma : Bool) (canDma : Nat → Bool) : Option (PageAlloc × Word) :=
  (List.range' order (nrMemLists - order)).findSome? fun newOrder =>
    (rmqueueScan dma canDma (s.queue newOrder)).map (s.rmqueueTake order newOrder)

end PageAlloc

/-- The `GFP_` levels, `GFP_LEVEL_MASK` applied. -/
inductive Gfp where
  | buffer | atomic | user | kernel | nobuffer | nfs | io
deriving DecidableEq, Repr

/-- How many pages `__get_free_pages` keeps back. -/
def reservedPages (minFreePages : Int) (priority : Gfp) : Int :=
  let reserved := if priority ≠ .nfs then minFreePages else 5
  if (priority = .buffer ∨ priority = .io) ∧ reserved ≥ 48 then
    reserved - (12 + reserved / 8)
  else reserved

/-- One pass of `__get_free_pages` through its `repeat` label. A pass that the
reserve turns away, or that finds no block, answers `none` and leaves the
state alone; what `try_to_free_page` frees before the next pass are calls of
`free_pages_ok` like any other. -/
def getFreePages (s : PageAlloc) (minFreePages : Int) (priority : Gfp)
    (order : Nat) (dma : Bool) (canDma : Nat → Bool) : Option (PageAlloc × Word) :=
  if order ≥ nrMemLists then none
  else if priority = .atomic ∨ s.nrFreePages.toInt > reservedPages minFreePages priority then
    s.rmqueue order dma canDma
  else none

end Sbckernel.Mm
