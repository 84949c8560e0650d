import Sbckernel.Ipc.Basic

/-!
# Pages of shared memory segments (`ipc/shm.c`)

The tables of pages of all segments, with the routines that move pages between
memory and swap space: `shm_swap_in`, `shm_swap`, `shm_unuse` and `killseg`. A
routine keeps a pointer to its segment while it sleeps, so a segment is named by its
address; `killseg` frees the table and the address may be used again, but a routine
that sleeps still reads and writes there.

There are three places to sleep: `get_free_page`, `read_swap_page` and
`write_swap_page`. A call is run up to the next of them and the place is kept as the
phase of its task. Which entry `get_swap_page` hands out, which page
`get_free_page`, and what `shm_swap` finds out about a page (locked, not for DMA, or
mapped by somebody who has used it) are arguments. How often each swap entry has been
handed out and freed is recorded in `taken` and `freed`. The pages of segments are
never in the swap cache, so `shm_unuse_page` returns at once for a page that is
present.
-/

namespace Sbckernel.Ipc.Shm

open Function

def shmmni : Nat := 2 ^ 7

abbrev Seg := Nat
abbrev Page := Nat
abbrev Entry := Nat

/-- `SWP_TYPE`. -/
def swpType (entry : Entry) : Nat := entry / 2 % 128

/-- An element of `shm_pages`. -/
inductive Pte where
  | none
  | present (page : Page)
  | swap (entry : Entry)
  deriving DecidableEq, Repr

inductive Slot where
  | unused
  | noid
  | live (shp : Seg)
  deriving DecidableEq, Repr

/-- Where the call of a task sleeps. -/
inductive Phase where
  | idle
  | swapInPage (shp : Seg) (idx : Nat)
  | swapInRead (shp : Seg) (idx : Nat) (entry : Entry) (page : Page)
  | write (entry : Entry) (page : Page)
  | unusePage (type i : Nat) (shp : Seg) (n : Nat) (entry : Entry)
  | unuseRead (type i : Nat) (shp : Seg) (n : Nat) (entry : Entry) (page : Page)
  deriving DecidableEq, Repr

structure State where
  shmSegs : Nat → Slot
  maxShmid : Nat
  shmPages : Seg → Nat → Pte
  shmNpages : Seg → Nat
  shmRss : Int
  shmSwp : Int
  swapId : Nat
  swapIdx : Nat
  phase : Task → Phase
  taken : Entry → Nat
  freed : Entry → Nat

/-- `shm_init`. -/
def init : State where
  shmSegs := fun _ => .unused
  maxShmid := 0
  shmPages := fun _ _ => .none
  shmNpages := fun _ => 0
  shmRss := 0
  shmSwp := 0
  swapId := 0
  swapIdx := 0
  phase := fun _ => .idle
  taken := fun _ => 0
  freed := fun _ => 0

variable (s : State) (t : Task)

def goto (p : Phase) : State :=
  { s with phase := update s.phase t p }

def setPage (shp : Seg) (idx : Nat) (pte : Pte) : State :=
  { s with
    shmPages := update s.shmPages shp (update (s.shmPages shp) idx pte) }

def swapFree (entry : Entry) : State :=
  { s with freed := update s.freed entry (s.freed entry + 1) }

/-- `get_swap_page` returns an entry that is not in use. -/
def available (entry : Entry) : Bool := s.taken entry = s.freed entry

/-! ## Segments -/

/-- `newseg` when it has its memory. -/
def newseg (id : Nat) (shp : Seg) (numpages : Nat) : State :=
  { s with
    shmPages := update s.shmPages shp fun _ => .none
    shmNpages := update s.shmNpages shp numpages
    maxShmid := if id > s.maxShmid then id else s.maxShmid
    shmSegs := update s.shmSegs id (.live shp) }

/-- `while (max_shmid && shm_segs[--max_shmid] == IPC_UNUSED);` -/
def lowerMax (segs : Nat → Slot) : Nat → Nat
  | 0 => 0
  | max + 1 => if segs max = .unused then lowerMax segs max else max

/-- The loop of `killseg` over the pages from `i` on. -/
def killPages (shp : Seg) : Nat → Nat → State → State
  | 0, _, s => s
  | n + 1, i, s =>
    killPages shp n (i + 1) <|
      match s.shmPages shp i with
      | .none => s
      | .present _ => { s with shmRss := s.shmRss - 1 }
      | .swap entry => { swapFree s entry with shmSwp := s.shmSwp - 1 }

def killseg (id : Nat) : State :=
  match s.shmSegs id with
  | .live shp =>
    let segs := update s.shmSegs id .unused
    let s := { s with
      shmSegs := segs
      maxShmid := if id = s.maxShmid then lowerMax segs s.maxShmid else s.maxShmid }
    killPages shp (s.shmNpages shp) 0 s
  | _ => s

/-! ## `shm_swap_in` -/

/-- `shm_swap_in` up to `get_free_page`. -/
def shmSwapIn (id idx : Nat) : State :=
  if id > s.maxShmid then goto s t .idle
  else
    match s.shmSegs id with
    | .live shp =>
      if idx ≥ s.shmNpages shp then goto s t .idle
      else
        match s.shmPages shp idx with
        | .present _ => goto s t .idle
        | _ => goto s t (.swapInPage shp idx)
    | _ => goto s t .idle

/-- `shm_swap_in` from `repeat` on. -/
def swapInRepeat (shp : Seg) (idx : Nat) (page : Page) : State :=
  match s.shmPages shp idx with
  | .present _ => goto s t .idle
  | .none =>
    let s := { s with shmRss := s.shmRss + 1 }
    goto (setPage s shp idx (.present page)) t .idle
  | .swap entry => goto s t (.swapInRead shp idx entry page)

/-- `shm_swap_in` behind `read_swap_page`. -/
def swapInDone (shp : Seg) (idx : Nat) (entry : Entry) (page : Page) : State :=
  if s.shmPages shp idx ≠ .swap entry then swapInRepeat s t shp idx page
  else
    let s := { swapFree s entry with shmSwp := s.shmSwp - 1, shmRss := s.shmRss + 1 }
    goto (setPage s shp idx (.present page)) t .idle

/-! ## `shm_swap` -/

/-- What `shm_swap` finds out about segments and pages. It may come to a page twice and find
something else, so there is one of these for each identifier that it checks. -/
structure Look where
  locked : Seg → Bool
  skip : Page → Bool
  shared : Page → Bool

/-- How a walk through a table ends: at its end, without a page after too many tries, or with
a page. -/
inductive TableScan where
  | next (counter : Int)
  | failed (swapIdx : Nat)
  | take (idx : Nat) (page : Page)

/-- The loop at `check_table`, with `n` entries left. -/
def scanTable (s : State) (look : Look) (shp : Seg) : Nat → Nat → Int → TableScan
  | 0, _, counter => .next counter
  | n + 1, idx, counter =>
    match s.shmPages shp idx with
    | .present page =>
      if look.skip page then scanTable s look shp n (idx + 1) counter
      else if counter - 1 < 0 then .failed (idx + 1)
      else if look.shared page then scanTable s look shp n (idx + 1) (counter - 1)
      else .take idx page
    | _ => scanTable s look shp n (idx + 1) counter

/-- How `shm_swap` ends its search, with `swap_id` and `swap_idx`, or that it reads behind
`shm_segs`. -/
inductive Scan where
  | behind
  | failed (swapId swapIdx : Nat)
  | take (id : Nat) (shp : Seg) (idx : Nat) (page : Page)

/-- The loop at `check_id` over the identifiers that are left. -/
def scanIds (s : State) (look : Nat → Look) : List Nat → Nat → Int → Scan
  | [], _, _ => .failed (s.maxShmid + 1) 0
  | id :: ids, swapIdx, counter =>
    if id ≥ shmmni then .behind
    else match s.shmSegs id with
    | .live shp =>
      if (look ids.length).locked shp then scanIds s look ids 0 counter
      else
        match scanTable s (look ids.length) shp (s.shmNpages shp - swapIdx) swapIdx counter with
        | .next counter => scanIds s look ids 0 counter
        | .failed swapIdx => .failed id swapIdx
        | .take idx page => .take id shp idx page
    | _ => scanIds s look ids 0 counter

/-- From `swap_id` to the greatest identifier, then once through all of them. -/
def scanOrder : List Nat :=
  s.swapId :: ((List.range (s.maxShmid + 1)).drop (s.swapId + 1) ++ List.range (s.maxShmid + 1))

/-- `shm_swap` up to `write_swap_page`; `swapNr` is what `get_swap_page` returns. A failed search
leaves `swap_id` at `max_shmid + 1`, where the next one begins; if that is `SHMMNI`, the table ends
there and what follows is not known. -/
def shmSwap (prio : Nat) (swapNr : Option Entry) (look : Nat → Look) : Option State :=
  let counter := s.shmRss / 2 ^ prio
  if counter = 0 then some (goto s t .idle)
  else
    match swapNr with
    | none => some (goto s t .idle)
    | some swapNr =>
      let s := { s with taken := update s.taken swapNr (s.taken swapNr + 1) }
      match scanIds s look (scanOrder s) s.swapIdx counter with
      | .behind => none
      | .failed swapId swapIdx =>
        some (goto (swapFree { s with swapId := swapId, swapIdx := swapIdx } swapNr) t .idle)
      | .take id shp idx page =>
        let s := { s with swapId := id, swapIdx := idx + 1 }
        some (goto (setPage s shp idx (.swap swapNr)) t (.write swapNr page))

/-- `shm_swap` behind `write_swap_page`. -/
def swapWritten : State :=
  goto { s with shmSwp := s.shmSwp + 1, shmRss := s.shmRss - 1 } t .idle

/-! ## `shm_unuse` -/

/-- The next page of a segment for which `shm_unuse_page` does something. -/
def unusePages (s : State) (type : Nat) (shp : Seg) : Nat → Nat → Option (Nat × Entry)
  | 0, _ => none
  | left + 1, n =>
    match s.shmPages shp n with
    | .swap entry =>
      if swpType entry = type then some (n, entry) else unusePages s type shp left (n + 1)
    | _ => unusePages s type shp left (n + 1)

/-- The loops of `shm_unuse` from the page `n` of the identifier `i` on. A segment that has
gone while `shm_unuse_page` slept is left for the next identifier, where the source follows
what is now in `shm_segs[i]`. -/
def unuseFrom (s : State) (t : Task) (type : Nat) : Nat → Nat → Nat → State
  | 0, _, _ => goto s t .idle
  | left + 1, i, n =>
    match s.shmSegs i with
    | .live shp =>
      match unusePages s type shp (s.shmNpages shp - n) n with
      | some (n, entry) => goto s t (.unusePage type i shp n entry)
      | none => unuseFrom s t type left (i + 1) 0
    | _ => unuseFrom s t type left (i + 1) 0

def shmUnuse (type : Nat) : State := unuseFrom s t type shmmni 0 0

/-- `shm_unuse_page` behind `read_swap_page`, and the loops from there. -/
def unuseDone (type i : Nat) (shp : Seg) (n : Nat) (entry : Entry) (page : Page) : State :=
  let s := setPage s shp n (.present page)
  let s := { s with shmRss := s.shmRss + 1 }
  let s := { swapFree s entry with shmSwp := s.shmSwp - 1 }
  unuseFrom s t type (shmmni - i) i (n + 1)

/-! ## Steps -/

inductive Action where
  | reserve (id : Nat)
  | newseg (id : Nat) (shp : Seg) (numpages : Nat)
  | newsegFailed (id : Nat)
  | killseg (id : Nat)
  | swapIn (t : Task) (id idx : Nat)
  | getFreePage (t : Task) (page : Option Page)
  | readSwapPage (t : Task)
  | swap (t : Task) (prio : Nat) (swapNr : Option Entry) (look : Nat → Look)
  | writeSwapPage (t : Task)
  | unuse (t : Task) (type : Nat)

/-- The segment has an identifier. -/
def Live (shp : Seg) : Prop := ∃ id < shmmni, s.shmSegs id = .live shp

instance (s : State) (shp : Seg) : Decidable (Live s shp) :=
  inferInstanceAs (Decidable (∃ id < shmmni, s.shmSegs id = .live shp))

/-- One step, as long as no search reads behind `shm_segs`. `shm_unuse_page` does not look at what
`get_free_page` returns: without memory it takes the page at address zero. -/
def step : Action → Option State
  | .reserve id =>
    if id < shmmni ∧ s.shmSegs id = .unused then
      some { s with shmSegs := update s.shmSegs id .noid }
    else none
  | .newseg id shp numpages =>
    if id < shmmni ∧ s.shmSegs id = .noid ∧ ¬Live s shp then some (newseg s id shp numpages)
    else none
  | .newsegFailed id =>
    if id < shmmni ∧ s.shmSegs id = .noid then
      some { s with shmSegs := update s.shmSegs id .unused }
    else none
  | .killseg id => if id < shmmni then some (killseg s id) else none
  | .swapIn t id idx =>
    if id < shmmni ∧ s.phase t = .idle then some (shmSwapIn s t id idx) else none
  | .getFreePage t page =>
    match s.phase t with
    | .swapInPage shp idx =>
      match page with
      | none => some (goto s t .idle)
      | some page => some (swapInRepeat s t shp idx page)
    | .unusePage type i shp n entry => some (goto s t (.unuseRead type i shp n entry (page.getD 0)))
    | _ => none
  | .readSwapPage t =>
    match s.phase t with
    | .swapInRead shp idx entry page => some (swapInDone s t shp idx entry page)
    | .unuseRead type i shp n entry page => some (unuseDone s t type i shp n entry page)
    | _ => none
  | .swap t prio swapNr look =>
    if s.phase t = .idle ∧ swapNr.all (available s) then shmSwap s t prio swapNr look else none
  | .writeSwapPage t =>
    match s.phase t with
    | .write _ _ => some (swapWritten s t)
    | _ => none
  | .unuse t type => if s.phase t = .idle then some (shmUnuse s t type) else none

end Sbckernel.Ipc.Shm
