import Sbckernel.Lib.Word
import Sbckernel.Mm.PageAlloc
import Mathlib.Algebra.BigOperators.Group.Finset.Piecewise
import Mathlib.Tactic.Ring

/-!
# What the free lists of the buddy allocator represent

The allocator keeps one fact three times over: in its queues, in the xor
bitmaps below the top order, and in `nr_free_pages`. `Represents s F` says
that the first two hold the same packed family `F` of free blocks, and
`freeCount` is what the counter should read.

Both loops of the source work on a family and one block that is in neither a
queue nor anybody's hands: the coalescing loop carries the block being freed
upwards, the splitting loop carries the block being handed out downwards. So
every lemma here is about `s`, `F` and a loose block, and the two loop lemmas
at the end, `freePagesLoop_spec` and `expand_spec`, are inductions whose step
is one move of `Lib.Packed`.

The top order has no bitmap. Freeing leaves the bit of its queue alone and
allocating flips it, so the family's bits are only compared below it.
-/

namespace Sbckernel.Mm

open Lib List PageAlloc Block

variable {s t : PageAlloc} {F : Set Block} {x : Block} {mapNr : Word}

/-- The highest order, the one whose blocks are never joined. -/
def topOrder : Nat := nrMemLists - 1

/-- Below the top order a bit is set when one but not both of its buddies is in
the family. -/
def BitsOf (s : PageAlloc) (F : Set Block) : Prop :=
  ∀ b : Block, b.order < topOrder →
    (s.map b.order (b.idx / 2) = true ↔ ¬ (b ∈ F ↔ b.sibling ∈ F))

structure Represents (s : PageAlloc) (F : Set Block) : Prop where
  packed : Packed topOrder F
  bound : ∀ b ∈ F, b.base < 2 ^ 32
  nodup : ∀ o, (s.queue o).Nodup
  mem_queue : ∀ o p, p ∈ s.queue o ↔ ∃ b ∈ F, b.order = o ∧ b.base = p
  bits : BitsOf s F

/-- The pages on the queues, counted with the size of their blocks. -/
def freeCount (s : PageAlloc) : Nat :=
  ((List.range nrMemLists).map fun o => (s.queue o).length * 2 ^ o).sum

/-! ## The small operations -/

namespace PageAlloc

variable (s : PageAlloc) (o page index : Nat)

@[simp] theorem queue_addMemQueue (i : Nat) :
    (s.addMemQueue o page).queue i = if i = o then page :: s.queue i else s.queue i := by
  simp only [queue, addMemQueue]
  split <;> rfl

@[simp] theorem queue_removeMemQueue (i : Nat) :
    (s.removeMemQueue page).queue i = (s.queue i).erase page := rfl

@[simp] theorem queue_changeBit (i : Nat) : (s.changeBit o index).queue i = s.queue i := by
  simp only [queue, changeBit]
  split <;> rfl

@[simp] theorem map_addMemQueue (i : Nat) : (s.addMemQueue o page).map i = s.map i := by
  simp only [map, addMemQueue]
  split <;> rfl

theorem map_changeBit (i k : Nat) :
    (s.changeBit o index).map i k =
      if i = o ∧ k = index then !s.map i k else s.map i k := by
  simp only [map, changeBit]
  by_cases hi : i = o
  · simp [hi]
  · simp [hi]

end PageAlloc

theorem freeCount_congr (h : ∀ o, s.queue o = t.queue o) :
    freeCount s = freeCount t := by
  simp only [freeCount, h]

theorem freeCount_addMemQueue {o : Nat} (ho : o ≤ topOrder) (page : Nat) :
    freeCount (s.addMemQueue o page) = freeCount s + 2 ^ o := by
  have ho' : o < nrMemLists := Nat.lt_of_le_of_lt ho (by decide)
  -- one term of the sum changes, by one block of its size
  have hterm : ∀ i, ((s.addMemQueue o page).queue i).length * 2 ^ i =
      (s.queue i).length * 2 ^ i + if i = o then 2 ^ o else 0 := by
    intro i
    rw [queue_addMemQueue]
    split
    next hi => rw [length_cons, Nat.succ_mul, hi]
    · rfl
  show ∑ i ∈ Finset.range nrMemLists, ((s.addMemQueue o page).queue i).length * 2 ^ i =
    ∑ i ∈ Finset.range nrMemLists, (s.queue i).length * 2 ^ i + 2 ^ o
  simp only [hterm, Finset.sum_add_distrib, Finset.sum_ite_eq', Finset.mem_range, if_pos ho']

theorem represents_init : Represents freeAreaInit ∅ :=
  ⟨packed_empty _, fun _ h => h.elim, fun _ => nodup_nil,
   fun _ _ => by simp [freeAreaInit, PageAlloc.queue],
   fun _ _ => by simp [freeAreaInit, PageAlloc.map]⟩

/-! ## Bits

Flipping the bit of a block's pair follows the family through exactly one
change: that block coming or going. -/

theorem BitsOf.congr (h : BitsOf s F) (hmap : ∀ o, t.map o = s.map o) : BitsOf t F := by
  intro b hb
  rw [hmap]
  exact h b hb

theorem BitsOf.toggle {G : Set Block} {y : Block}
    (h : BitsOf s F) (hother : ∀ b, b ≠ y → (b ∈ G ↔ b ∈ F))
    (hy : y ∈ G ↔ y ∉ F) : BitsOf (s.changeBit y.order (y.idx / 2)) G := by
  intro b hb
  have hold := h b hb
  rw [map_changeBit]
  split
  · next hsame =>
      rw [Bool.not_eq_true', ← Bool.not_eq_true, hold]
      have hs := hother y.sibling y.sibling_ne
      rcases eq_or_eq_sibling hsame.1 hsame.2 with rfl | rfl
      · rw [hy, hs]
        tauto
      · rw [sibling_sibling, hy, hs]
        tauto
  · next hdiff =>
      have hne : b ≠ y := fun he => hdiff ⟨by rw [he], by rw [he]⟩
      have hne' : b.sibling ≠ y := fun he => hdiff
        ⟨by rw [← he, sibling_order], by rw [← he, sibling_idx_div]⟩
      rw [hold, hother b hne, hother _ hne']

/-- The top order's bits are nobody's. -/
theorem BitsOf.insert_top (h : BitsOf s F) (hx : x.order = topOrder) : BitsOf s (insert x F) := by
  intro b hb
  have hne : b ≠ x := by
    rintro rfl
    omega
  have hne' : b.sibling ≠ x := by
    rintro rfl
    rw [sibling_order] at hx
    omega
  rw [h b hb, Set.mem_insert_iff, Set.mem_insert_iff]
  simp [hne, hne']

/-! ## One move of the family -/

section Moves

variable {b : Block}

section
variable (h : Represents s F)
include h

theorem Represents.mem : b ∈ F ↔ b.base ∈ s.queue b.order := by
  rw [h.mem_queue]
  constructor
  · intro hb
    exact ⟨b, hb, rfl, rfl⟩
  · rintro ⟨c, hc, ho, hp⟩
    rwa [← base_injective_of_order ho hp]

/-- Two queued blocks with one first page are one block. -/
theorem Represents.eq_of_base (hx : x ∈ F) (hb : b ∈ F) (he : b.base = x.base) : b = x :=
  h.packed.disjoint b hb x hx b.base b.has_base (he ▸ x.has_base)

/-- A block joins a family: `t` has the queues of `s` and the bits of the new
family. -/
theorem Represents.settle (hq : ∀ o, t.queue o = s.queue o)
    (hbits : BitsOf t (insert x F)) (hl : Loose x F) (ho : x.order ≤ topOrder)
    (hs : x.order < topOrder → x.sibling ∉ F) (hb : x.base < 2 ^ 32) :
    Represents (t.addMemQueue x.order x.base) (insert x F) where
  packed := h.packed.insert hl ho hs
  bound := Set.forall_mem_insert.2 ⟨hb, h.bound⟩
  nodup o := by
    rw [queue_addMemQueue, hq]
    split
    · next ho =>
        subst ho
        exact nodup_cons.2 ⟨fun hm => hl.notMem (h.mem.2 hm), h.nodup _⟩
    · exact h.nodup o
  mem_queue o p := by
    simp only [queue_addMemQueue, hq, Set.exists_mem_insert, ← h.mem_queue]
    split <;> simp [*, eq_comm]
  bits := hbits.congr fun _ => map_addMemQueue ..

/-- A queued block leaves: its pages are on no queue, its bit is flipped. -/
theorem Represents.remove (hx : x ∈ F) :
    Represents ((s.changeBit x.order (x.idx / 2)).removeMemQueue x.base) (F \ {x}) := by
  refine ⟨h.packed.diff x, fun b hb => h.bound b hb.1, ?_, ?_, ?_⟩
  · intro o
    rw [queue_removeMemQueue, queue_changeBit]
    exact (h.nodup o).erase _
  · intro o p
    rw [queue_removeMemQueue, queue_changeBit, (h.nodup o).mem_erase_iff, h.mem_queue]
    constructor
    · rintro ⟨hne, b, hb, hbo, hbp⟩
      refine ⟨b, ⟨hb, ?_⟩, hbo, hbp⟩
      rintro rfl
      exact hne hbp.symm
    · rintro ⟨b, ⟨hb, hbx⟩, hbo, rfl⟩
      exact ⟨fun he => hbx (h.eq_of_base hx hb he), b, hb, hbo, rfl⟩
  · exact .congr (.toggle (y := x) h.bits (by simp +contextual) (by simp [hx])) fun _ => rfl

/-- A loose block without a buddy below the top settles on its queue. -/
theorem Represents.add (hl : Loose x F) (ho : x.order < topOrder) (hs : x.sibling ∉ F)
    (hb : x.base < 2 ^ 32) :
    Represents ((s.changeBit x.order (x.idx / 2)).addMemQueue x.order x.base) (insert x F) :=
  h.settle (fun _ => queue_changeBit ..)
    (.toggle (y := x) h.bits (by simp +contextual) (by simp [hl.notMem])) hl ho.le (fun _ => hs) hb

/-- Taking a queued block out takes its size off the count. -/
theorem freeCount_remove (hx : x ∈ F) :
    freeCount (s.removeMemQueue x.base) + 2 ^ x.order = freeCount s := by
  have ho : x.order ≤ topOrder := h.packed.order_le x hx
  -- put the block back at the head of its queue: the lengths are those of `s`
  have hlen : ∀ o, (((s.removeMemQueue x.base).addMemQueue x.order x.base).queue o).length =
      (s.queue o).length := by
    intro o
    rw [queue_addMemQueue, queue_removeMemQueue]
    split
    · next hox =>
        subst hox
        have hm := h.mem.1 hx
        rw [length_cons, length_erase_of_mem hm]
        have := length_pos_of_mem hm
        omega
    · next hox =>
        have hnm : x.base ∉ s.queue o := by
          rw [h.mem_queue]
          rintro ⟨b, hb, hbo, hbp⟩
          exact hox (hbo ▸ congrArg Block.order (h.eq_of_base hx hb hbp))
        rw [erase_of_not_mem hnm]
  rw [← freeCount_addMemQueue ho x.base]
  simp only [freeCount, hlen]

end

end Moves

/-! ## The bit tricks

For a block of order `o` the loops hold its first page as a word, the mask
`~0 << o` and the index of its bit. -/

theorem mask_ne_top : ∀ o ≤ topOrder,
    (highMask 32 o + (1 : Word) <<< (nrMemLists - 1) ≠ 0 ↔ o ≠ topOrder) := by
  decide

theorem neg_mask : ∀ o ≤ topOrder, -highMask 32 o = BitVec.ofNat 32 (2 ^ o) ∧
    (-highMask 32 o).toNat = 2 ^ o := by
  decide

theorem xor_neg_mask (ho : x.order ≤ topOrder)
    (hm : mapNr.toNat = x.base) : (mapNr ^^^ -highMask 32 x.order).toNat = x.sibling.base := by
  rw [BitVec.toNat_xor, hm, (neg_mask _ ho).2]
  exact mul_two_pow_xor x.idx x.order

theorem base_div (x : Block) : x.base / 2 ^ x.order = x.idx :=
  Nat.mul_div_cancel _ (Nat.two_pow_pos _)

theorem base_div_succ (x : Block) : x.base / 2 ^ (1 + x.order) = x.idx / 2 := by
  rw [Nat.add_comm, Nat.pow_succ, ← Nat.div_div_eq_div_mul, base_div]

theorem and_mask_parent (hm : mapNr.toNat = x.base) :
    (mapNr &&& highMask 32 (x.order + 1)).toNat = x.parent.base := by
  rw [toNat_and_highMask, hm, Nat.add_comm x.order 1, base_div_succ, Nat.add_comm 1]
  rfl

/-! ## The coalescing loop -/

/-- The loop settles the loose block, joined with its buddies as far up as
they are free: the family it leaves covers what it covered before and the
block, and no fuel above the distance to the top order is ever missed. -/
theorem freePagesLoop_spec : ∀ (fuel : Nat) {s : PageAlloc} {F : Set Block} {x : Block}
    {mapNr index : Word}, Represents s F → Loose x F → x.order ≤ topOrder →
    topOrder - x.order < fuel → mapNr.toNat = x.base → index.toNat = x.idx / 2 →
    ∃ s' F', s.freePagesLoop fuel x.order mapNr (highMask 32 x.order) index = some s' ∧
      Represents s' F' ∧ cover F' = {p | x.Has p} ∪ cover F ∧
      s'.nrFreePages = s.nrFreePages ∧ freeCount s' = freeCount s + 2 ^ x.order := by
  intro fuel
  induction fuel with
  | zero =>
    intro s F x mapNr index _ _ _ hf
    exact absurd hf (Nat.not_lt_zero _)
  | succ fuel ih =>
    intro s F x mapNr index h hl ho hf hm hi
    have hb : x.base < 2 ^ 32 := hm ▸ mapNr.isLt
    rw [freePagesLoop]
    by_cases htop : x.order = topOrder
    · -- the top order: no bit, no buddy
      rw [if_neg (fun hne => (mask_ne_top _ ho).1 hne htop), hm]
      exact ⟨_, _, rfl, h.settle (fun _ => rfl) (h.bits.insert_top htop) hl ho
        (fun hlt => absurd htop hlt.ne) hb, cover_insert x F, rfl, freeCount_addMemQueue ho _⟩
    · have hlt : x.order < topOrder := Nat.lt_of_le_of_ne ho htop
      have hbit := h.bits x hlt
      rw [if_pos ((mask_ne_top _ ho).2 htop), hi]
      split
      · next hclear =>
          -- the bit was clear: the buddy is not free, stop here
          have hs : x.sibling ∉ F := by
            intro hs
            have := hbit.2 fun hiff => hl.notMem (hiff.2 hs)
            simp [this] at hclear
          refine ⟨_, _, rfl, ?_, cover_insert x F, rfl, ?_⟩
          · rw [hm]
            exact h.add hl hlt hs hb
          · rw [freeCount_addMemQueue ho]
            exact congrArg (· + 2 ^ x.order)
              (freeCount_congr fun o => queue_changeBit ..)
      · next hset =>
          -- the bit was set: the buddy is free, join it
          have hs : x.sibling ∈ F := by
            by_contra hs
            refine hbit.1 (by simpa using hset) ?_
            simp [hl.notMem, hs]
          have hrem := h.remove hs
          rw [sibling_order, sibling_idx_div] at hrem
          have hcnt := freeCount_remove h hs
          rw [sibling_order] at hcnt
          simp only [xor_neg_mask ho hm, highMask_shiftLeft]
          obtain ⟨s', F', hrun, hrep, hcov, hnr, hfc⟩ :=
            ih (x := x.parent) hrem (hl.parent h.packed hs)
              (show x.order + 1 ≤ topOrder from hlt)
              (show topOrder - (x.order + 1) < fuel by omega)
              (and_mask_parent hm)
              (show (index >>> 1).toNat = x.parent.idx / 2 by
                rw [toNat_ushiftRight_eq_div, hi]; rfl)
          refine ⟨s', F', hrun, hrep, ?_, hnr, ?_⟩
          · rw [hcov, cover_parent hs]
          · have hq : freeCount ((s.changeBit x.order (x.idx / 2)).removeMemQueue
                x.sibling.base) = freeCount (s.removeMemQueue x.sibling.base) :=
              freeCount_congr fun o => by simp
            have hp : 2 ^ x.parent.order = 2 ^ x.order * 2 := Nat.pow_succ ..
            omega

/-- `free_pages_ok` on a block whose pages are not free. -/
theorem freePagesOk_spec
    (h : Represents s F) (hl : Loose x F) (ho : x.order ≤ topOrder) (hm : mapNr.toNat = x.base) :
    ∃ s' F', s.freePagesOk mapNr x.order = some s' ∧ Represents s' F' ∧
      cover F' = {p | x.Has p} ∪ cover F ∧
      s'.nrFreePages = s.nrFreePages + BitVec.ofNat 32 (2 ^ x.order) ∧
      freeCount s' = freeCount s + 2 ^ x.order := by
  have hsub : ∀ a : Word, a - highMask 32 x.order = a + BitVec.ofNat 32 (2 ^ x.order) := by
    intro a
    rw [BitVec.sub_eq_add_neg, (neg_mask _ ho).1]
  have hmask : (mapNr &&& highMask 32 x.order).toNat = x.base := by
    rw [toNat_and_highMask, hm, base_div]
    rfl
  have hidx : (mapNr >>> (1 + x.order)).toNat = x.idx / 2 := by
    rw [toNat_ushiftRight_eq_div, hm, base_div_succ]
  obtain ⟨s', F', hrun, hrep, hcov, hnr, hfc⟩ :=
    freePagesLoop_spec nrMemLists
      (s := { s with nrFreePages := s.nrFreePages - highMask 32 x.order }) { h with }
      hl ho (Nat.lt_of_le_of_lt (Nat.sub_le _ _) (by decide)) hmask hidx
  exact ⟨s', F', hrun, hrep, hcov, hnr.trans (hsub _), hfc⟩

/-! ## The splitting loop -/

theorem shift_size : ∀ h < topOrder, ((1 : Word) <<< (h + 1)) >>> 1 = (1 : Word) <<< h := by
  decide

theorem toNat_size : ∀ h ≤ topOrder, (1 : Word) <<< h = BitVec.ofNat 32 (2 ^ h) ∧
    ((1 : Word) <<< h).toNat = 2 ^ h := by
  decide

/-- An aligned block that starts inside the word range ends inside it: the
range is a multiple of its size. -/
theorem block_end_le (ho : x.order ≤ topOrder) (hb : x.base < 2 ^ 32) :
    x.base + 2 ^ x.order ≤ 2 ^ 32 := by
  have hdvd : 2 ^ 32 = 2 ^ (32 - x.order) * 2 ^ x.order := by
    rw [← Nat.pow_add, Nat.sub_add_cancel (Nat.le_trans ho (by decide))]
  rw [hdvd, Block.base] at hb ⊢
  have hk : x.idx + 1 ≤ 2 ^ (32 - x.order) := Nat.lt_of_mul_lt_mul_right hb
  rw [← Nat.succ_mul]
  exact Nat.mul_le_mul_right _ hk

/-- The loop cuts the loose block down to order `low`: each round settles the
lower half and goes on with the upper one. -/
theorem expand_spec (low : Nat) {m : PageAlloc} {b : Word} : ∀ (high : Nat) {s : PageAlloc}
    {F : Set Block} {x : Block} {index : Word}, Represents s F → Loose x F → x.order = high →
    low ≤ high → high ≤ topOrder → index.toNat = x.base →
    s.expand index low high ((1 : Word) <<< high) = (m, b) →
    ∃ F' y, Represents m F' ∧ Loose y F' ∧ y.order = low ∧ b.toNat = y.base ∧
      {p | y.Has p} ∪ cover F' = {p | x.Has p} ∪ cover F ∧
      m.nrFreePages = s.nrFreePages ∧ freeCount m + 2 ^ low = freeCount s + 2 ^ high := by
  intro high
  induction high with
  | zero =>
    intro s F x index h hl hx hle _ hi hrun
    obtain rfl : low = 0 := by omega
    cases hrun
    exact ⟨F, x, h, hl, hx, hi, rfl, rfl, rfl⟩
  | succ high ih =>
    intro s F x index h hl hx hle htop hi hrun
    rw [expand] at hrun
    split at hrun
    · next hgt =>
        obtain ⟨o, k⟩ := x
        obtain rfl : o = high + 1 := hx
        -- the lower half has the block's own first page
        have hpar : (Block.mk high (2 * k)).parent = ⟨high + 1, k⟩ := by
          simp only [Block.parent, Block.mk.injEq, true_and]
          omega
        have hbase : (Block.mk high (2 * k)).base = (Block.mk (high + 1) k).base := by
          simp only [Block.base, Nat.pow_succ]
          ring
        have hlt : high < topOrder := htop
        rw [← hpar] at hl
        obtain ⟨-, hsl⟩ := h.packed.insert_half hl hlt
        have hl' : Loose (Block.mk high (2 * k)) F := fun p hp =>
          hl p (parent_has.2 (Or.inl hp))
        have hs' : (Block.mk high (2 * k)).sibling ∉ F := fun hm =>
          hl _ (parent_has.2 (Or.inr (has_base _))) ⟨_, hm, has_base _⟩
        have hsz : ((1 : Word) <<< high).toNat = 2 ^ high := (toNat_size _ (Nat.le_of_lt hlt)).2
        have hbnd : (Block.mk high (2 * k)).base < 2 ^ 32 := by
          rw [hbase, ← hi]
          exact index.isLt
        have hadd := h.add hl' hlt hs' hbnd
        have hbit : (index >>> (1 + high)).toNat = 2 * k / 2 := by
          rw [toNat_ushiftRight_eq_div, hi, ← hbase, base_div_succ ⟨high, 2 * k⟩]
        -- the queue is added to before the bit is flipped; nothing sees the order
        have hcomm : (s.addMemQueue high index.toNat).markUsed index high =
            (s.changeBit high (2 * k / 2)).addMemQueue high (Block.mk high (2 * k)).base := by
          rw [markUsed, hbit, hi, ← hbase]
          simp only [changeBit, addMemQueue, PageAlloc.mk.injEq, and_true]
          funext i
          by_cases hi : i = high <;> simp [hi]
        have hnext : (index + (1 : Word) <<< high).toNat =
            (Block.mk high (2 * k)).sibling.base := by
          have hend := block_end_le (x := ⟨high + 1, k⟩) htop (hi ▸ index.isLt)
          rw [BitVec.toNat_add, hsz, hi, Nat.mod_eq_of_lt (by simp only at hend; omega),
            sibling_even, ← hbase]
          simp only [Block.base, Nat.succ_mul]
        simp only [shift_size _ hlt, hcomm] at hrun
        obtain ⟨F', y, hrep, hly, hyo, hyb, hcov, hnr, hfc⟩ :=
          ih (x := (Block.mk high (2 * k)).sibling) hadd hsl rfl (by omega)
            (Nat.le_of_lt hlt) hnext hrun
        refine ⟨F', y, hrep, hly, hyo, hyb, ?_, hnr, ?_⟩
        · rw [hcov, ← hpar]
          exact cover_half _ _
        · rw [hfc, freeCount_addMemQueue (Nat.le_of_lt hlt),
            freeCount_congr fun o => queue_changeBit .., Nat.pow_succ]
          omega
    · next hgt =>
        obtain rfl : low = high + 1 := by omega
        cases hrun
        exact ⟨F, x, h, hl, hx, hi, rfl, rfl, rfl⟩

end Sbckernel.Mm
