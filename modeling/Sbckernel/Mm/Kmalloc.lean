import Mathlib.Algebra.Order.Ring.Int
import Sbckernel.Lib.Reach

/-!
# `kmalloc` and `kfree` (`mm/kmalloc.c`, with pages of 4096 bytes)

An area of pages holds blocks of one size behind a page descriptor, and every block has a
header. The descriptors and headers are kept by their addresses, and the null pointer is
0. The second word of a header is `bh_length` in a block that is in use and `bh_next` in
one that is free.

A call runs without interruption. What `__get_free_pages` would return is an argument; it
may return any pages that are not held, and `held` says of each page number that has not
been given back to which area it belongs and with which order the area was obtained.
`areas` are the areas that are set up for a bucket, and `live` gives the blocks that have
been handed out with the size that was asked for. The counters of a bucket and the
priority, but for `GFP_DMA`, are left out.
-/

namespace Sbckernel.Kmalloc

open Function

def pageSize : Nat := 4096

def mfUsed : Nat := 0xffaa0055

def mfDma : Nat := 0xff00aa55

def mfFree : Nat := 0x0055ffaa

/-- `sizeof(struct block_header)`. -/
def headerSize : Nat := 8

/-- `sizeof(struct page_descriptor)`. -/
def descriptorSize : Nat := 16

structure BlockHeader where
  bhFlags : Nat
  vp : Nat

structure PageDescriptor where
  next : Nat
  firstfree : Nat
  order : Nat
  nfree : Nat

def blocksize : List Nat :=
  [32, 64, 128, 252, 508, 1020, 2040, 4096 - 16, 8192 - 16, 16384 - 16, 32768 - 16, 65536 - 16,
    131072 - 16, 0]

/-- The `nblocks` and the `gfporder` of the elements of `sizes`. -/
def sizes : List (Nat × Nat) :=
  [(127, 0), (63, 0), (31, 0), (16, 0), (8, 0), (4, 0), (2, 0), (1, 0), (1, 1), (1, 2), (1, 3),
    (1, 4), (1, 5), (0, 0)]

def blockSize (order : Nat) : Nat := blocksize.getD order 0

def nblocks (order : Nat) : Nat := (sizes.getD order (0, 0)).1

def gfporder (order : Nat) : Nat := (sizes.getD order (0, 0)).2

def maxCacheOrder : Nat := 3

/-- The list `firstfree` or `dmafree` of a bucket. -/
abbrev Bucket := Nat × Bool

structure State where
  desc : Nat → PageDescriptor
  hdr : Nat → BlockHeader
  lists : Bucket → Nat
  cache : Nat → Nat
  held : Nat → Option (Nat × Nat)
  areas : List Nat
  live : Nat → Option Nat

/-- Nothing is held; what is in the memory does not matter. -/
def init (desc : Nat → PageDescriptor) (hdr : Nat → BlockHeader) : State where
  desc := desc
  hdr := hdr
  lists _ := 0
  cache _ := 0
  held _ := none
  areas := []
  live _ := none

/-! ## Pages -/

variable (s : State)

/-- `__get_free_pages` may return this area. -/
def Available (page order : Nat) : Prop :=
  0 < page ∧ page % pageSize = 0 ∧ page + pageSize * 2 ^ order ≤ 2 ^ 32 ∧
    ∀ i < 2 ^ order, s.held (page / pageSize + i) = none

instance decidableAvailable (s : State) (page order : Nat) : Decidable (Available s page order) :=
  inferInstanceAs (Decidable (_ ∧ _))

def InArea (page order n : Nat) : Prop := page / pageSize ≤ n ∧ n < page / pageSize + 2 ^ order
  deriving Decidable

/-- `get_kmalloc_pages`. -/
def getKmallocPages (page order : Nat) : State :=
  { s with held := fun n => if InArea page order n then some (page, order) else s.held n }

def freePages (page order : Nat) : State :=
  { s with held := fun n => if InArea page order n then none else s.held n }

/-- The area is no longer set up for a bucket. It is left in the cache, and what was there is
given back. -/
def freeKmallocPages (page order : Nat) (dma : Bool) : State :=
  let s := { s with areas := s.areas.erase page }
  if dma = false ∧ order < maxCacheOrder then
    let old := s.cache order
    let s := { s with cache := update s.cache order page }
    if old = 0 then s else freePages s old order
  else freePages s page order

/-! ## `kmalloc` -/

/-- The loop that gets the order, with `realsize` and the rest of the table. -/
def searchOrder (realsize : Nat) : List Nat → Nat → Option Nat
  | [], _ => none
  | ordersize :: rest, order =>
    if realsize ≤ ordersize then some order
    else if ordersize = 0 then none
    else searchOrder realsize rest (order + 1)

/-- `realsize` is an `unsigned int`. -/
def getOrder (size : Nat) : Option Nat := searchOrder ((size + headerSize) % 2 ^ 32) blocksize 0

def mfType (dma : Bool) : Nat := if dma then mfDma else mfUsed

/-- `found_it`: the first free block of the page is handed out. -/
def foundIt (order : Nat) (dma : Bool) (page p size : Nat) : State × Nat :=
  let d := s.desc page
  ({ s with
      desc := update s.desc page
        { d with firstfree := (s.hdr p).vp, nfree := d.nfree - 1 }
      lists := if d.nfree - 1 = 0 then update s.lists (order, dma) d.next else s.lists
      hdr := update s.hdr p ⟨mfType dma, size⟩
      live := update s.live (p + headerSize) (some size) },
    p + headerSize)

/-- The loop over the blocks of a new page, with the number of blocks that follow. -/
def carve (sz : Nat) : Nat → Nat → (Nat → BlockHeader) → Nat → BlockHeader
  | 0, p, hdr => update hdr p ⟨mfFree, 0⟩
  | i + 1, p, hdr => carve sz i (p + sz) (update hdr p ⟨mfFree, p + sz⟩)

/-- `found_cached_page`: the page is set up and goes on the list. Its `firstfree` is not set. -/
def foundCachedPage (order : Nat) (dma : Bool) (page : Nat) : State :=
  { s with
    desc := update s.desc page
      { s.desc page with next := s.lists (order, dma), order := order, nfree := nblocks order }
    hdr := carve (blockSize order) (nblocks order - 1) (page + descriptorSize) s.hdr
    lists := update s.lists (order, dma) page
    areas := page :: s.areas }

/-- A new page, and its first block. -/
def newPage (order : Nat) (dma : Bool) (page size : Nat) : State × Nat :=
  foundIt (foundCachedPage s order dma page) order dma page (page + descriptorSize) size

/-- `kmalloc` with the order found. -/
def allocate (order : Nat) (dma : Bool) (size : Nat) (grant : Option Nat) : State × Nat :=
  let page := s.lists (order, dma)
  if page ≠ 0 then
    let p := (s.desc page).firstfree
    if (s.hdr p).bhFlags ≠ mfFree then (s, 0) else foundIt s order dma page p size
  else
    match grant with
    | some page => newPage (getKmallocPages s page (gfporder order)) order dma page size
    | none =>
      -- The cache is asked for the order of the bucket, not for the order of its areas.
      if dma = false ∧ order < maxCacheOrder ∧ s.cache order ≠ 0 then
        newPage { s with cache := update s.cache order 0 } order dma (s.cache order) size
      else (s, 0)

/-- The pointer that is returned, or 0. -/
def kmalloc (size : Nat) (dma : Bool) (grant : Option Nat) : State × Nat :=
  match getOrder size with
  | none => (s, 0)
  | some order => allocate s order dma size grant

/-! ## `kfree` -/

/-- What `pg` points to: the head of a list or the `next` of a page. -/
inductive Cell where
  | head (b : Bucket)
  | next (page : Nat)

def get : Cell → Nat
  | .head b => s.lists b
  | .next page => (s.desc page).next

def set (page : Nat) : Cell → State
  | .head b => { s with lists := update s.lists b page }
  | .next q => { s with desc := update s.desc q { s.desc q with next := page } }

/-- The loop that looks for the page on its list. The inner `none` is `not_on_freelist`; a list
has no more pages than there are areas. -/
def findCell (s : State) (page : Nat) : Nat → Cell → Option (Option Cell)
  | 0, _ => none
  | fuel + 1, cell =>
    let tmp := get s cell
    if tmp = 0 then some none
    else if tmp = page then some (some cell)
    else findCell s page fuel (.next tmp)

/-- The block is officially free and on the chain of its page. -/
def putBlock (page p : Nat) : State :=
  let d := s.desc page
  { s with
    desc := update s.desc page { d with firstfree := p, nfree := d.nfree + 1 }
    hdr := update s.hdr p ⟨mfFree, d.firstfree⟩
    live := update s.live (p + headerSize) none }

/-- The page goes from full to one free block. -/
def listPage (page : Nat) (b : Bucket) : State :=
  { s with
    desc := update s.desc page { s.desc page with next := s.lists b }
    lists := update s.lists b page }

/-- The page is completely free. -/
def freeListed (page : Nat) (b : Bucket) : Option State :=
  (findCell s page (s.areas.length + 1) (.head b)).map fun
    | none => s
    | some cell => freeKmallocPages (set s (s.desc page).next cell) page (gfporder b.1) b.2

/-- The rest of `kfree`, with the block free. -/
def freed (page : Nat) (b : Bucket) : Option State :=
  if (s.desc page).nfree = nblocks b.1 then freeListed s page b else some s

def kfree (ptr : Nat) : Option State :=
  if ptr = 0 then some s
  else
    let page := ptr - ptr % pageSize
    let p := ptr - headerSize
    let order := (s.desc page).order
    let dma := (s.hdr p).bhFlags = mfDma
    if (s.desc page).next % pageSize ≠ 0 ∨ order ≥ sizes.length then some s
    else if ¬dma ∧ (s.hdr p).bhFlags ≠ mfUsed then some s
    else
      let full := (s.desc page).nfree = 0
      let s := putBlock s page p
      if full then
        if nblocks order = 1 then some (freeKmallocPages s page (gfporder order) dma)
        else freed (listPage s page (order, dma)) page (order, dma)
      else freed s page (order, dma)

/-! ## Steps -/

inductive Call where
  | kmalloc (size : Nat) (dma : Bool) (grant : Option Nat)
  | kfree (ptr : Nat)

/-- The pages that are granted may be granted. -/
def granted (size : Nat) (grant : Option Nat) : Bool :=
  grant.all fun page => (getOrder size).all fun order => Available s page (gfporder order)

/-- One call: `size` is a `size_t`, and what is freed is live. -/
def step : Call → Option (State × Nat)
  | .kmalloc size dma grant =>
    if size < 2 ^ 32 ∧ granted s size grant then some (kmalloc s size dma grant) else none
  | .kfree ptr => if s.live ptr ≠ none then (kfree s ptr).map fun s => (s, 0) else none

end Sbckernel.Kmalloc
