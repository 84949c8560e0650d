import Sbckernel.Lib.Reach
import Sbckernel.Proofs.BuddyRep

/-!
# The buddy allocator over whole runs

`Pages` is the allocator with everyone who calls it: the blocks handed out and
not yet given back, and the pages released at boot. A step releases a single
page at boot, gives back a block as it was handed out, or allocates. The run
invariant says that the queues represent a packed family, that the blocks
handed out are disjoint from it and from each other, and that together they
are the released pages; `Consistent` spells that out in the source's terms
and holds in every reachable state.

`nr_free_pages` is an `int` updated modulo `2 ^ 32`. That it never wraps is
part of the invariant: the queued and the handed out blocks together weigh as
many pages as were released, each of them once, and `mem_map` has at most
`2 ^ 20` entries.
-/

namespace Sbckernel.Mm

open Lib List BitVec

variable {m : PageAlloc} {b page : Word} {order p o : Nat} {dma : Bool} {canDma : Nat → Bool}
  {a : Word × Nat}

/-- `MAP_NR(addr)`, with `PAGE_OFFSET` 0 and `PAGE_SHIFT` 12. -/
def mapNr (addr : Word) : Nat := (addr >>> 12).toNat

/-- Page `p` lies in the block of order `o` that starts at page `b`. -/
def InBlock (p b o : Nat) : Prop := b ≤ p ∧ p < b + 2 ^ o

/-- The allocator and its callers. -/
structure Pages where
  mem : PageAlloc
  /-- Handed out and not yet given back: first page and order. -/
  allocated : List (Word × Nat)
  /-- Released at boot. -/
  released : List Word

namespace Pages

/-- Page `p` is in a block on a free list. -/
def Listed (s : Pages) (p : Nat) : Prop :=
  ∃ o < nrMemLists, ∃ b ∈ s.mem.queue o, InBlock p b o

/-- Page `p` is in a block handed out. -/
def Allocated (s : Pages) (p : Nat) : Prop :=
  ∃ a ∈ s.allocated, InBlock p a.1.toNat a.2

inductive Step (endMem : Word) : Pages → Pages → Prop
  /-- `mem_init` releases the pages of `mem_map` one by one. -/
  | boot {s : Pages} {m : PageAlloc} (page : Word) : page.toNat < mapNr endMem →
      ¬ s.Listed page.toNat → ¬ s.Allocated page.toNat →
      s.mem.freePagesOk page 0 = some m →
      Step endMem s ⟨m, s.allocated, page :: s.released⟩
  /-- A caller gives a block back. -/
  | free {s : Pages} {m : PageAlloc} (b : Word) (o : Nat) : (b, o) ∈ s.allocated →
      s.mem.freePagesOk b o = some m →
      Step endMem s ⟨m, s.allocated.erase (b, o), s.released⟩
  /-- `RMQUEUE` finds a block. -/
  | alloc {s : Pages} {m : PageAlloc} {b : Word} (order : Nat) (dma : Bool)
      (canDma : Nat → Bool) : order < nrMemLists →
      s.mem.rmqueue order dma canDma = some (m, b) →
      Step endMem s ⟨m, (b, order) :: s.allocated, s.released⟩

/-- From `free_area_init` on. -/
def system (endMem : Word) : System Pages where
  init s := s = ⟨freeAreaInit, [], []⟩
  step := Step endMem

/-- The block of a handed out pair. -/
def blockOf (a : Word × Nat) : Block := ⟨a.2, a.1.toNat / 2 ^ a.2⟩

/-- The pages handed out, counted by the sizes of their blocks. -/
def allocCount (l : List (Word × Nat)) : Nat := (l.map fun a => 2 ^ a.2).sum

/-- The invariant of a run, with the family of free blocks at hand. -/
structure Inv (endMem : Word) (s : Pages) (F : Set Block) : Prop where
  rep : Represents s.mem F
  aligned : ∀ a ∈ s.allocated, a.2 ≤ topOrder ∧ a.1.toNat = (blockOf a).base
  loose : ∀ a ∈ s.allocated, Loose (blockOf a) F
  apart : s.allocated.Pairwise fun a c => ∀ p, (blockOf a).Has p → ¬ (blockOf c).Has p
  pool : ∀ p, (∃ w ∈ s.released, w.toNat = p) ↔
    p ∈ cover F ∨ ∃ a ∈ s.allocated, (blockOf a).Has p
  released_nodup : s.released.Nodup
  released_lt : ∀ w ∈ s.released, w.toNat < mapNr endMem
  count : s.mem.nrFreePages = BitVec.ofNat 32 (freeCount s.mem)
  weight : freeCount s.mem + allocCount s.allocated = s.released.length

end Pages

/-! ## Allocation -/

theorem changeBit_removeMemQueue (s : PageAlloc) (p o k : Nat) :
    (s.removeMemQueue p).changeBit o k = (s.changeBit o k).removeMemQueue p := by
  simp only [PageAlloc.changeBit, PageAlloc.removeMemQueue, PageAlloc.mk.injEq, and_true]
  funext i
  split <;> rfl

/-- What `RMQUEUE` hands out: a block of the order asked for, cut out of the
free pages, which keep everything else. -/
theorem rmqueue_spec {s : PageAlloc} {F : Set Block}
    (h : Represents s F) (hr : s.rmqueue order dma canDma = some (m, b)) :
    ∃ F' y, Represents m F' ∧ Loose y F' ∧ y.order = order ∧ b.toNat = y.base ∧
      {p | y.Has p} ∪ cover F' = cover F ∧
      m.nrFreePages = s.nrFreePages - (1 : Word) <<< order ∧
      freeCount m + 2 ^ order = freeCount s := by
  obtain ⟨newOrder, hmem, hfound⟩ := exists_of_findSome?_eq_some hr
  obtain ⟨ret, hscan, htake⟩ := Option.map_eq_some_iff.1 hfound
  have hq : ret ∈ s.queue newOrder := mem_of_find?_eq_some hscan
  obtain ⟨x, hx, rfl, rfl⟩ := (h.mem_queue _ _).1 hq
  obtain ⟨hlow, hhigh⟩ := mem_range'_1.1 hmem
  have hxo : x.order ≤ topOrder := h.packed.order_le x hx
  have hw : (BitVec.ofNat 32 x.base).toNat = x.base := by
    rw [toNat_ofNat, Nat.mod_eq_of_lt (h.bound x hx)]
  have hbit : (BitVec.ofNat 32 x.base >>> (1 + x.order)).toNat = x.idx / 2 := by
    rw [toNat_ushiftRight_eq_div, hw, base_div_succ]
  have hrem := h.remove hx
  have hcnt := freeCount_remove h hx
  rw [PageAlloc.rmqueueTake, PageAlloc.markUsed, hbit, changeBit_removeMemQueue] at htake
  obtain ⟨F', y, hrep, hly, hyo, hyb, hcov, hnr, hfc⟩ :=
    expand_spec order x.order
      (s := { (s.changeBit x.order (x.idx / 2)).removeMemQueue x.base with
        nrFreePages := s.nrFreePages - (1 : Word) <<< order })
      { hrem with } (h.packed.loose_diff hx) rfl hlow hxo hw htake
  refine ⟨F', y, hrep, hly, hyo, hyb, ?_, hnr, ?_⟩
  · rw [hcov, cover_diff hx]
  · have hq' : freeCount { (s.changeBit x.order (x.idx / 2)).removeMemQueue x.base with
        nrFreePages := s.nrFreePages - (1 : Word) <<< order } =
        freeCount (s.removeMemQueue x.base) :=
      freeCount_congr fun o => congrArg (List.erase · x.base)
        (PageAlloc.queue_changeBit s x.order (x.idx / 2) o)
    exact hfc.trans ((congrArg (· + 2 ^ x.order) hq').trans hcnt)

namespace Pages

variable {endMem : Word} {s t : Pages} {F : Set Block}

/-! ## The invariant is kept -/

theorem inBlock_iff (ha : a.1.toNat = (blockOf a).base) :
    InBlock p a.1.toNat a.2 ↔ (blockOf a).Has p := by
  rw [Block.has_iff, ← ha]
  rfl

theorem Inv.listed_iff (h : Inv endMem s F) (p : Nat) : s.Listed p ↔ p ∈ cover F := by
  constructor
  · rintro ⟨o, ho, b, hb, hp⟩
    obtain ⟨x, hx, rfl, rfl⟩ := (h.rep.mem_queue _ _).1 hb
    exact ⟨x, hx, Block.has_iff.2 hp⟩
  · rintro ⟨x, hx, hp⟩
    have hxo := h.rep.packed.order_le x hx
    exact ⟨x.order, Nat.lt_of_le_of_lt hxo (by decide), x.base, h.rep.mem.1 hx, Block.has_iff.1 hp⟩

theorem Inv.allocated_iff (h : Inv endMem s F) (p : Nat) :
    s.Allocated p ↔ ∃ a ∈ s.allocated, (blockOf a).Has p :=
  exists_congr fun a => and_congr_right fun ha => inBlock_iff (h.aligned a ha).2

theorem inv_init : Inv endMem ⟨freeAreaInit, [], []⟩ ∅ where
  rep := represents_init
  aligned := by simp
  loose := by simp
  apart := List.Pairwise.nil
  pool := by simp [cover]
  released_nodup := nodup_nil
  released_lt := by simp
  count := rfl
  weight := rfl

theorem has_single : (Block.mk 0 page.toNat).Has p ↔ p = page.toNat := by
  simp [Block.Has]

theorem Inv.boot (h : Inv endMem s F) (hlt : page.toNat < mapNr endMem) (hl : ¬ s.Listed page.toNat)
    (ha : ¬ s.Allocated page.toNat) (hm : s.mem.freePagesOk page 0 = some m) :
    ∃ F', Inv endMem ⟨m, s.allocated, page :: s.released⟩ F' := by
  rw [h.listed_iff] at hl
  rw [h.allocated_iff] at ha
  have hloose : Loose (Block.mk 0 page.toNat) F := by
    intro p hp
    rw [has_single.1 hp]
    exact hl
  obtain ⟨m', F', hrun, hrep, hcov, hnr, hfc⟩ :=
    freePagesOk_spec h.rep hloose (Nat.zero_le _)
      (show page.toNat = (Block.mk 0 page.toNat).base by simp [Block.base])
  obtain rfl : m = m' := Option.some.inj (hm.symm.trans hrun)
  refine ⟨F', ?_⟩
  have hcov' : ∀ p, p ∈ cover F' ↔ p = page.toNat ∨ p ∈ cover F := by
    intro p
    rw [hcov, ← has_single]
    rfl
  exact
    { rep := hrep
      aligned := h.aligned
      loose := by
        intro a haa p hp hc
        rcases (hcov' p).1 hc with rfl | hc
        · exact ha ⟨a, haa, hp⟩
        · exact h.loose a haa p hp hc
      apart := h.apart
      pool := by
        intro p
        have := h.pool p
        rw [hcov']
        simp only [mem_cons, exists_eq_or_imp]
        rw [this]
        simp only [eq_comm (a := p)]
        tauto
      released_nodup := by
        refine nodup_cons.2 ⟨fun hmem => ?_, h.released_nodup⟩
        rcases (h.pool page.toNat).1 ⟨page, hmem, rfl⟩ with hc | hc
        · exact hl hc
        · exact ha hc
      released_lt := by
        rintro w (_ | ⟨_, hw⟩)
        · exact hlt
        · exact h.released_lt w hw
      count := by rw [hnr, hfc, h.count, ofNat_add]
      weight := by
        have hw := h.weight
        simp only [length_cons]
        simp only [Nat.pow_zero] at hfc
        omega }

/-- Giving back a block as it was handed out cannot fail. -/
theorem Inv.freePagesOk (h : Inv endMem s F) (hb : (b, o) ∈ s.allocated) :
    ∃ m F', s.mem.freePagesOk b o = some m ∧ Represents m F' ∧
      cover F' = {p | (blockOf (b, o)).Has p} ∪ cover F ∧
      m.nrFreePages = s.mem.nrFreePages + BitVec.ofNat 32 (2 ^ o) ∧
      freeCount m = freeCount s.mem + 2 ^ o :=
  freePagesOk_spec h.rep (h.loose _ hb) (h.aligned _ hb).1 (h.aligned _ hb).2

theorem allocCount_erase {l : List (Word × Nat)} (ha : a ∈ l) :
    allocCount (l.erase a) + 2 ^ a.2 = allocCount l := by
  have hsum := ((perm_cons_erase ha).map fun a : Word × Nat => 2 ^ a.2).sum_nat
  simp only [map_cons, sum_cons] at hsum
  simp only [allocCount]
  omega

theorem Inv.free (h : Inv endMem s F)
    (hb : (b, o) ∈ s.allocated) (hm : s.mem.freePagesOk b o = some m) :
    ∃ F', Inv endMem ⟨m, s.allocated.erase (b, o), s.released⟩ F' ∧
      cover F' = {p | (blockOf (b, o)).Has p} ∪ cover F := by
  obtain ⟨m', F', hrun, hrep, hcov, hnr, hfc⟩ := h.freePagesOk hb
  obtain rfl : m = m' := Option.some.inj (hm.symm.trans hrun)
  refine ⟨F', ?_, hcov⟩
  -- the blocks still out were apart from the one that came back
  have hperm := perm_cons_erase hb
  have hsymm : ∀ {a c : Word × Nat}, (∀ p, (blockOf a).Has p → ¬ (blockOf c).Has p) →
      ∀ p, (blockOf c).Has p → ¬ (blockOf a).Has p :=
    fun hac p hc ha => hac p ha hc
  have hpair := (hperm.pairwise_iff hsymm).1 h.apart
  rw [pairwise_cons] at hpair
  have hsub : ∀ a ∈ s.allocated.erase (b, o), a ∈ s.allocated := fun a ha =>
    mem_of_mem_erase ha
  exact
    { rep := hrep
      aligned := fun a ha => h.aligned a (hsub a ha)
      loose := by
        intro a ha p hp hc
        rw [hcov] at hc
        rcases hc with hc | hc
        · exact hpair.1 a ha p hc hp
        · exact h.loose a (hsub a ha) p hp hc
      apart := hpair.2
      pool := by
        intro p
        have hmem : (∃ a ∈ s.allocated, (blockOf a).Has p) ↔
            (blockOf (b, o)).Has p ∨ ∃ a ∈ s.allocated.erase (b, o), (blockOf a).Has p := by
          simp only [hperm.mem_iff, mem_cons, exists_eq_or_imp]
        rw [h.pool p, hmem, hcov, Set.mem_union]
        simp only [Set.mem_ofPred_eq]
        tauto
      released_nodup := h.released_nodup
      released_lt := h.released_lt
      count := by rw [hnr, hfc, h.count, ofNat_add]
      weight := by
        have hw := h.weight
        have he := allocCount_erase hb
        simp only at he ⊢
        omega }

theorem Inv.alloc (h : Inv endMem s F)
    (ho : order < nrMemLists) (hr : s.mem.rmqueue order dma canDma = some (m, b)) :
    ∃ F', Inv endMem ⟨m, (b, order) :: s.allocated, s.released⟩ F' ∧
      {p | (blockOf (b, order)).Has p} ∪ cover F' = cover F := by
  obtain ⟨F', y, hrep, hly, rfl, hyb, hcov, hnr, hfc⟩ := rmqueue_spec h.rep hr
  have hblk : blockOf (b, y.order) = y := by rw [blockOf, hyb, base_div]
  have hin : ∀ p, y.Has p → p ∈ cover F := fun p hp => hcov ▸ Or.inl hp
  have hsub : ∀ p, p ∈ cover F' → p ∈ cover F := fun p hp => hcov ▸ Or.inr hp
  refine ⟨F', ?_, by rw [hblk, hcov]⟩
  exact
    { rep := hrep
      aligned := by
        rintro a (_ | ⟨_, ha⟩)
        · exact ⟨Nat.le_of_lt_succ ho, by rw [hblk]; exact hyb⟩
        · exact h.aligned a ha
      loose := by
        rintro a (_ | ⟨_, ha⟩)
        · rw [hblk]
          exact hly
        · exact fun p hp hc => h.loose a ha p hp (hsub p hc)
      apart := by
        refine pairwise_cons.2 ⟨fun a ha p hp hpa => ?_, h.apart⟩
        rw [hblk] at hp
        exact h.loose a ha p hpa (hin p hp)
      pool := by
        intro p
        rw [h.pool p, ← hcov]
        simp only [mem_cons, exists_eq_or_imp, hblk, Set.mem_union, Set.mem_ofPred_eq]
        tauto
      released_nodup := h.released_nodup
      released_lt := h.released_lt
      count := by
        have hsz := (toNat_size y.order (Nat.le_of_lt_succ ho)).1
        rw [hnr, h.count, ← hfc, ofNat_add, hsz, add_sub_cancel]
      weight := by
        have hw := h.weight
        simp only [allocCount, map_cons, sum_cons] at hw ⊢
        omega }

theorem inv_reachable (h : (system endMem).Reachable s) : ∃ F, Inv endMem s F := by
  refine System.Reachable.invariant (I := fun s => ∃ F, Inv endMem s F) ?_ ?_ h
  · rintro s rfl
    exact ⟨∅, inv_init⟩
  · rintro s t ⟨F, hF⟩ (⟨_, hlt, hl, ha, hm⟩ | ⟨_, _, hb, hm⟩ | ⟨_, _, _, ho, hr⟩)
    · exact hF.boot hlt hl ha hm
    · obtain ⟨F', hF', -⟩ := hF.free hb hm
      exact ⟨F', hF'⟩
    · obtain ⟨F', hF', -⟩ := hF.alloc ho hr
      exact ⟨F', hF'⟩

/-! ## In the source's terms -/

/-- What the free lists, the bitmaps and the counter promise each other and the
callers. -/
structure Consistent (s : Pages) : Prop where
  aligned : ∀ o < nrMemLists, ∀ b ∈ s.mem.queue o, 2 ^ o ∣ b
  listed_once : ∀ o < nrMemLists, (s.mem.queue o).Nodup
  listed_apart : ∀ o < nrMemLists, ∀ b ∈ s.mem.queue o, ∀ o' < nrMemLists,
    ∀ b' ∈ s.mem.queue o', ∀ p, InBlock p b o → InBlock p b' o' → o = o' ∧ b = b'
  allocated_not_listed : ∀ p, s.Allocated p → ¬ s.Listed p
  bit : ∀ o < nrMemLists - 1, ∀ k, s.mem.map o k = true ↔
    ¬ (2 * k * 2 ^ o ∈ s.mem.queue o ↔ (2 * k + 1) * 2 ^ o ∈ s.mem.queue o)
  no_buddies : ∀ o < nrMemLists - 1, ∀ k,
    ¬ (2 * k * 2 ^ o ∈ s.mem.queue o ∧ (2 * k + 1) * 2 ^ o ∈ s.mem.queue o)
  nr_free_pages : s.mem.nrFreePages.toInt = freeCount s.mem
  handed_out_once : s.allocated.Pairwise fun a c =>
    ∀ p, InBlock p a.1.toNat a.2 → ¬ InBlock p c.1.toNat c.2
  none_lost : ∀ p, (∃ w ∈ s.released, w.toNat = p) ↔ s.Listed p ∨ s.Allocated p
  free_returns : ∀ a ∈ s.allocated, (s.mem.freePagesOk a.1 a.2).isSome

/-- Distinct page numbers below `n` are at most `n`. -/
theorem length_le_of_nodup {l : List Word} {n : Nat} (hn : l.Nodup)
    (hlt : ∀ w ∈ l, w.toNat < n) : l.length ≤ n := by
  have hnd : (l.map BitVec.toNat).Nodup :=
    List.Nodup.map (fun _ _ h => eq_of_toNat_eq h) hn
  have hsub : l.map BitVec.toNat ⊆ List.range n := by
    intro x hx
    obtain ⟨w, hw, rfl⟩ := mem_map.1 hx
    exact mem_range.2 (hlt w hw)
  simpa using (subperm_of_subset hnd hsub).length_le

theorem Inv.nr_free_pages (h : Inv endMem s F) : s.mem.nrFreePages.toInt = freeCount s.mem := by
  have hlen := length_le_of_nodup h.released_nodup h.released_lt
  have hw := h.weight
  have hmap : mapNr endMem < 2 ^ 20 := by
    rw [mapNr, toNat_ushiftRight_eq_div]
    omega
  have hnat : s.mem.nrFreePages.toNat = freeCount s.mem := by
    rw [h.count, toNat_ofNat, Nat.mod_eq_of_lt (by omega)]
  rw [toInt_eq_toNat_of_lt (by omega), hnat]

/-- The pair of buddies behind a bit, as blocks. -/
theorem Inv.buddies (h : Inv endMem s F) (o k : Nat) :
    (2 * k * 2 ^ o ∈ s.mem.queue o ↔ Block.mk o (2 * k) ∈ F) ∧
      ((2 * k + 1) * 2 ^ o ∈ s.mem.queue o ↔ (Block.mk o (2 * k)).sibling ∈ F) := by
  rw [Block.sibling_even]
  exact ⟨(h.rep.mem (b := ⟨o, 2 * k⟩)).symm, (h.rep.mem (b := ⟨o, 2 * k + 1⟩)).symm⟩

theorem Inv.consistent (h : Inv endMem s F) : Consistent s where
  aligned := by
    intro o _ b hb
    obtain ⟨x, -, rfl, rfl⟩ := (h.rep.mem_queue _ _).1 hb
    exact Nat.dvd_mul_left _ _
  listed_once := fun o _ => h.rep.nodup o
  listed_apart := by
    intro o _ b hb o' _ b' hb' p hp hp'
    obtain ⟨x, hx, rfl, rfl⟩ := (h.rep.mem_queue _ _).1 hb
    obtain ⟨y, hy, rfl, rfl⟩ := (h.rep.mem_queue _ _).1 hb'
    obtain rfl := h.rep.packed.disjoint x hx y hy p (Block.has_iff.2 hp) (Block.has_iff.2 hp')
    exact ⟨rfl, rfl⟩
  allocated_not_listed := by
    intro p hp
    rw [h.listed_iff]
    obtain ⟨a, ha, hap⟩ := (h.allocated_iff p).1 hp
    exact h.loose a ha p hap
  bit := by
    intro o ho k
    obtain ⟨hlo, hhi⟩ := h.buddies o k
    have hbit := h.rep.bits ⟨o, 2 * k⟩ ho
    rw [hlo, hhi, ← hbit]
    simp
  no_buddies := by
    rintro o ho k ⟨hl, hr⟩
    obtain ⟨hlo, hhi⟩ := h.buddies o k
    exact h.rep.packed.apart _ (hlo.1 hl) ho (hhi.1 hr)
  nr_free_pages := h.nr_free_pages
  handed_out_once := by
    refine h.apart.imp_of_mem fun {a c} ha hc hac p hp hp' => ?_
    exact hac p ((inBlock_iff (h.aligned a ha).2).1 hp)
      ((inBlock_iff (h.aligned c hc).2).1 hp')
  none_lost := by
    intro p
    rw [h.listed_iff, h.allocated_iff]
    exact h.pool p
  free_returns := by
    rintro ⟨b, o⟩ ha
    obtain ⟨m, F', hm, -⟩ := h.freePagesOk ha
    rw [hm]
    rfl

/-- In every run of boot releases, frees and allocations the three encodings
of the free memory agree, and no page is handed out twice or lost. -/
theorem consistent_of_reachable (h : (system endMem).Reachable s) : Consistent s := by
  obtain ⟨F, hF⟩ := inv_reachable h
  exact hF.consistent

/-- The allocator after pages 1 and 0 were released: one block of two pages. -/
def pairMem : PageAlloc :=
  ((freeAreaInit.freePagesOk 1 0).bind fun m => m.freePagesOk 0 0).getD freeAreaInit

theorem reachable_pair : (system 0x2000).Reachable ⟨pairMem, [], [0, 1]⟩ := by
  have h1 : (system 0x2000).Reachable _ :=
    .step (.init rfl) (.boot 1 (by decide)
      (by simp [Listed, freeAreaInit, PageAlloc.queue]) (by simp [Allocated]) rfl)
  obtain ⟨F, hF⟩ := inv_reachable h1
  have h0 : (0 : Word).toNat ∉ cover F := by
    intro hc
    obtain ⟨w, hw, hw0⟩ := (hF.pool _).2 (Or.inl hc)
    rw [mem_singleton.1 hw] at hw0
    exact absurd hw0 (by decide)
  exact .step h1 (.boot 0 (by decide) (fun hl => h0 ((hF.listed_iff _).1 hl))
    (by simp [Allocated]) rfl)

/-- Two pages released at boot join into one block; an allocation of one page
splits it again and leaves the lower page free. -/
theorem consistent_of_reachable_split :
    ∃ s, (system 0x2000).Reachable s ∧ Consistent s ∧ s.mem.queue 0 = [0] ∧
      s.allocated = [(1, 0)] := by
  have h : (system 0x2000).Reachable _ :=
    .step reachable_pair (.alloc 0 false (fun _ => false) (by decide) rfl)
  exact ⟨_, h, consistent_of_reachable h, by decide, by decide⟩

/-- A pass of `__get_free_pages` that the reserve lets through fails only where no aligned run of
pages is free, provided that the pages of a largest block agree on `PG_DMA`. -/
theorem get_free_pages_complete (h : (system endMem).Reachable s) (canDma : Nat → Bool)
    (hdma : ∀ p q, p / 2 ^ topOrder = q / 2 ^ topOrder → canDma p = canDma q)
    (minFreePages : Int) (priority : Gfp) (order : Nat) (dma : Bool) :
    (getFreePages s.mem minFreePages priority order dma canDma).isSome ↔ order < nrMemLists ∧
      (priority = .atomic ∨ freeCount s.mem > reservedPages minFreePages priority) ∧
      ∃ b, 2 ^ order ∣ b ∧ (dma = true → canDma b = true) ∧
        ∀ p, InBlock p b order → s.Listed p := by
  obtain ⟨F, hF⟩ := inv_reachable h
  have hsame : ∀ x ∈ F, ∀ p q, x.Has p → x.Has q → canDma p = canDma q := fun x hx p q hp hq =>
    hdma p q (Block.has_of_le (hF.rep.packed.order_le x hx) hp (Block.has_div p topOrder) hq).symm
  rw [getFreePages, ← hF.nr_free_pages]
  split_ifs with ho hreserve
  · simp [not_lt.mpr ho]
  · simp only [not_le.mp ho, hreserve, true_and, PageAlloc.rmqueue, findSome?_isSome_iff,
      Option.isSome_map, PageAlloc.rmqueueScan, find?_isSome, mem_range'_1]
    constructor
    · rintro ⟨o, ⟨hlo, -⟩, p, hp, hcan⟩
      obtain ⟨x, hx, rfl, rfl⟩ := (hF.rep.mem_queue _ _).1 hp
      -- the run at the start of the block found
      have hin : ∀ q, (Block.mk order (x.base / 2 ^ order)).Has q → x.Has q := fun q hq =>
        Block.has_of_le hlo (Block.has_div ..) x.has_base hq
      refine ⟨_, Nat.dvd_mul_left _ _, fun hd => ?_, fun q hq =>
        (hF.listed_iff q).2 ⟨x, hx, hin q (Block.has_iff.2 hq)⟩⟩
      refine (hsame x hx _ _ (hin _ (Block.has_base _)) x.has_base).trans ?_
      simpa [hd] using hcan
    · rintro ⟨_, ⟨k, rfl⟩, hcan, hfree⟩
      obtain ⟨c, hc, hle, hin⟩ := hF.rep.packed.exists_of_covered (b := ⟨order, k⟩)
        (Nat.le_of_lt_succ (not_le.mp ho)) fun p hp =>
          (hF.listed_iff p).1 (hfree p (Nat.mul_comm k _ ▸ Block.has_iff.1 hp))
      have hlt : c.order < nrMemLists := Nat.lt_succ_of_le (hF.rep.packed.order_le c hc)
      refine ⟨c.order, ⟨hle, by omega⟩, c.base, hF.rep.mem.1 hc, ?_⟩
      rw [hsame c hc _ _ c.has_base (hin _ (Block.has_base _)), Block.base, Nat.mul_comm]
      cases dma
      · rfl
      · simpa using hcan rfl
  · simp [hreserve]

theorem get_free_pages_complete_pair :
    ∃ b, 2 ^ 1 ∣ b ∧ ∀ p, InBlock p b 1 → Pages.Listed ⟨pairMem, [], [0, 1]⟩ p := by
  obtain ⟨-, -, b, hb, -, hfree⟩ := (get_free_pages_complete reachable_pair (fun _ => true)
    (fun _ _ _ => rfl) 0 .user 1 true).mp (by decide)
  exact ⟨b, hb, hfree⟩

end Pages

end Sbckernel.Mm
