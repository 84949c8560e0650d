import Mathlib.Data.List.Nodup
import Sbckernel.Lib.Chain
import Sbckernel.Mm.Kmalloc

/-!
# The areas and blocks of `kmalloc`

An area holds the blocks of one bucket behind its descriptor. The page allocator hands out
pages that are not held, so areas do not overlap, and an area does not see what is done to
the others.

The invariant names what the links stand for: the chain of free blocks of each area, the
lists of the buckets, and which areas are for DMA. A block of an area is on its chain and
marked as free, or it is live and marked with the type of its area; an area is on the list
of its bucket when its chain is not empty.
-/

namespace Sbckernel.Kmalloc

open Lib

variable {order page p q n x : Nat} {l : List Nat}

/-! ## The tables -/

/-- What `kmalloc_init` checks, and what else the tables are relied on for: a bucket with more
than one block has areas of one page. -/
theorem table (h : order < 13) :
    0 < nblocks order ∧ 32 ≤ blockSize order ∧
      descriptorSize + nblocks order * blockSize order ≤ pageSize * 2 ^ gfporder order ∧
      (nblocks order = 1 ∨ gfporder order = 0) := by
  revert order
  decide

/-- The cache is only asked for buckets with areas of one page. -/
theorem gfporder_of_cached (h : order < maxCacheOrder) : gfporder order = 0 := by
  revert order
  decide

theorem searchOrder_some {realsize order0 : Nat} (h : searchOrder realsize l order0 = some order) :
    ∃ i, order = order0 + i ∧ i < l.length ∧ realsize ≤ l.getD i 0 ∧
    ∀ j < i, l.getD j 0 < realsize := by
  induction l generalizing order0 with
  | nil => cases h
  | cons ordersize rest ih =>
    rw [searchOrder] at h
    split at h
    next hle =>
      cases h
      exact ⟨0, rfl, Nat.succ_pos _, hle, fun j hj => absurd hj (Nat.not_lt_zero j)⟩
    next hlt =>
      split at h
      · cases h
      · obtain ⟨i, heq, hi, hle, hbefore⟩ := ih h
        refine ⟨i + 1, by omega, Nat.succ_lt_succ hi, hle, fun j hj => ?_⟩
        cases j with
        | zero => exact Nat.lt_of_not_le hlt
        | succ j => exact hbefore j (Nat.lt_of_succ_lt_succ hj)

theorem getOrder_some {size : Nat} (h : getOrder size = some order) :
    order < 13 ∧ (size + headerSize) % 2 ^ 32 ≤ blockSize order := by
  obtain ⟨i, heq, hi, hle, hbefore⟩ := searchOrder_some h
  rw [Nat.zero_add] at heq
  subst heq
  refine ⟨Nat.lt_of_le_of_ne (Nat.le_of_lt_succ hi) ?_, hle⟩
  -- The last entry, 0, is reached by sizes above the first one only.
  rintro rfl
  have hfirst := hbefore 0 (by decide)
  exact absurd (Nat.lt_of_lt_of_le hfirst hle) (by decide)

/-! ## Blocks -/

/-- The blocks of an area. -/
def blocks (page order : Nat) : List Nat :=
  (List.range (nblocks order)).map fun i => page + descriptorSize + i * blockSize order

theorem mem_blocks : p ∈ blocks page order ↔
    ∃ i < nblocks order, p = page + descriptorSize + i * blockSize order := by
  simp only [blocks, List.mem_map, List.mem_range, eq_comm (a := p)]

/-- A block is inside its area, and its data begin on the first page. -/
theorem block_bounds (ho : order < 13) (hp : p ∈ blocks page order) :
    page + descriptorSize ≤ p ∧ p + blockSize order ≤ page + pageSize * 2 ^ gfporder order ∧
      p + headerSize < page + pageSize := by
  obtain ⟨i, hi, rfl⟩ := mem_blocks.mp hp
  obtain ⟨-, hsize, harea, hone⟩ := table ho
  have hle : (i + 1) * blockSize order ≤ nblocks order * blockSize order :=
    Nat.mul_le_mul_right _ hi
  rw [Nat.succ_mul] at hle
  refine ⟨Nat.le_add_right _ _, by omega, ?_⟩
  rw [headerSize]
  rcases hone with hone | hone
  · have hzero : i = 0 := by omega
    subst hzero
    rw [Nat.zero_mul, descriptorSize, pageSize]
    omega
  · rw [hone, Nat.pow_zero, Nat.mul_one] at harea
    omega

theorem nodup_blocks (ho : order < 13) : (blocks page order).Nodup := by
  refine List.Nodup.map_on (fun i _ j _ heq => ?_) List.nodup_range
  have hpos : 0 < blockSize order := Nat.lt_of_lt_of_le (by decide) (table ho).2.1
  exact Nat.eq_of_mul_eq_mul_right hpos (Nat.add_left_cancel heq)

theorem length_blocks (page order : Nat) : (blocks page order).length = nblocks order := by
  rw [blocks, List.length_map, List.length_range]

/-- Two blocks of an area do not overlap. -/
theorem blocks_apart (hp : p ∈ blocks page order) (hq : q ∈ blocks page order)
    (hne : p ≠ q) : p + blockSize order ≤ q ∨ q + blockSize order ≤ p := by
  obtain ⟨i, -, rfl⟩ := mem_blocks.mp hp
  obtain ⟨j, -, rfl⟩ := mem_blocks.mp hq
  rcases Nat.lt_trichotomy i j with hij | rfl | hij
  · have hle := Nat.mul_le_mul_right (blockSize order) hij
    rw [Nat.succ_mul] at hle
    omega
  · exact absurd rfl hne
  · have hle := Nat.mul_le_mul_right (blockSize order) hij
    rw [Nat.succ_mul] at hle
    omega

theorem eq_of_one_block (hone : nblocks order = 1)
    (hp : p ∈ blocks page order) (hq : q ∈ blocks page order) : p = q := by
  obtain ⟨i, hi, rfl⟩ := mem_blocks.mp hp
  obtain ⟨j, hj, rfl⟩ := mem_blocks.mp hq
  rw [show i = j by omega]

/-! ## Areas -/

/-- All pages of the area are held as part of it. -/
def Owned (held : Nat → Option (Nat × Nat)) (page order : Nat) : Prop :=
  ∀ n, InArea page order n → ∃ order', held n = some (page, order')

section
variable {held : Nat → Option (Nat × Nat)} {page' order' : Nat}

theorem Owned.mono (h : Owned held page order) (hle : order' ≤ order) : Owned held page order' :=
  fun n hn => h n ⟨hn.1, Nat.lt_of_lt_of_le hn.2
    (Nat.add_le_add_left (Nat.pow_le_pow_right (by decide) hle) _)⟩

theorem inArea_first (page order : Nat) : InArea page order (page / pageSize) :=
  ⟨Nat.le_refl _, Nat.lt_add_of_pos_right (Nat.two_pow_pos order)⟩

/-- The page of an address in an area. -/
theorem inArea_of_mem (haligned : page % pageSize = 0) (hle : page ≤ x)
    (hlt : x < page + pageSize * 2 ^ order) : InArea page order (x / pageSize) := by
  obtain ⟨k, rfl⟩ := Nat.dvd_of_mod_eq_zero haligned
  have hpos : 0 < pageSize := by decide
  rw [InArea, Nat.mul_div_cancel_left k hpos]
  refine ⟨(Nat.le_div_iff_mul_le hpos).mpr (by rwa [Nat.mul_comm]), ?_⟩
  rw [Nat.div_lt_iff_lt_mul hpos, Nat.mul_comm, Nat.mul_add]
  exact hlt

/-- Two areas share no address. -/
theorem Owned.apart (h : Owned held page order) (h' : Owned held page' order') (hne : page ≠ page')
    (haligned : page % pageSize = 0) (haligned' : page' % pageSize = 0) (hle : page ≤ x)
    (hlt : x < page + pageSize * 2 ^ order) (hle' : page' ≤ x) :
    page' + pageSize * 2 ^ order' ≤ x := by
  by_contra hlt'
  obtain ⟨o, ho⟩ := h _ (inArea_of_mem haligned hle hlt)
  obtain ⟨o', ho'⟩ := h' _ (inArea_of_mem haligned' hle' (Nat.lt_of_not_le hlt'))
  rw [ho] at ho'
  cases ho'
  exact hne rfl

end

/-! ## The invariant -/

/-- A pointer that may be null. -/
def ptr (a : Nat) : Option Nat := if a = 0 then none else some a

def nextPage (s : State) (page : Nat) : Option Nat := ptr (s.desc page).next

def bhNext (s : State) (p : Nat) : Option Nat := ptr (s.hdr p).vp

def orderOf (s : State) (page : Nat) : Nat := (s.desc page).order

/-- An area that is set up for a bucket, with the blocks on its chain. -/
structure PageOk (s : State) (page : Nat) (dma : Bool) (F : List Nat) : Prop where
  pos : 0 < page
  aligned : page % pageSize = 0
  next : (s.desc page).next % pageSize = 0
  order : orderOf s page < 13
  owned : Owned s.held page (gfporder (orderOf s page))
  nfree : (s.desc page).nfree = F.length
  chain : Chain (bhNext s) (ptr (s.desc page).firstfree) F none
  nodup : F.Nodup
  free : ∀ p ∈ F, p ∈ blocks page (orderOf s page) ∧ (s.hdr p).bhFlags = mfFree ∧
    s.live (p + headerSize) = none
  used : ∀ p ∈ blocks page (orderOf s page), p ∉ F → (s.hdr p).bhFlags = mfType dma ∧
    ∃ size, s.live (p + headerSize) = some size ∧ size < 2 ^ 32 ∧
      (size + headerSize) % 2 ^ 32 ≤ blockSize (orderOf s page)

/-- `F` gives the chain of each area, `D` says whether it is for DMA, and `L` gives the lists. -/
structure Inv (s : State) (F : Nat → List Nat) (D : Nat → Bool) (L : Bucket → List Nat) : Prop where
  nodup : s.areas.Nodup
  page : ∀ a ∈ s.areas, PageOk s a (D a) (F a)
  chain : ∀ b, Chain (nextPage s) (ptr (s.lists b)) (L b) none
  listNodup : ∀ b, (L b).Nodup
  listed : ∀ b a, a ∈ L b ↔ a ∈ s.areas ∧ (orderOf s a, D a) = b ∧ F a ≠ []
  live : ∀ x size, s.live x = some size →
    ∃ a ∈ s.areas, ∃ p ∈ blocks a (orderOf s a), x = p + headerSize
  cached : ∀ g < maxCacheOrder, s.cache g ≠ 0 →
    s.cache g % pageSize = 0 ∧ Owned s.held (s.cache g) g ∧ s.cache g ∉ s.areas
  cacheInj : ∀ g < maxCacheOrder, ∀ g' < maxCacheOrder, s.cache g ≠ 0 → s.cache g = s.cache g' →
    g = g'

section
variable {s s' : State} {F : Nat → List Nat} {D : Nat → Bool} {L : Bucket → List Nat}
  {a : Nat}

theorem ptr_of_ne (h : a ≠ 0) : ptr a = some a := if_neg h

theorem ptr_eq_some (h : ptr a = some p) : a = p ∧ p ≠ 0 := by
  rw [ptr] at h
  split at h
  · cases h
  next hne =>
    cases h
    exact ⟨rfl, hne⟩

/-- An area does not see what is done elsewhere. Its place on a list may change. -/
theorem PageOk.congr {dma : Bool} (h : PageOk s page dma l)
    (hdesc : s'.desc page = { s.desc page with next := n }) (hn : n % pageSize = 0)
    (howned : Owned s'.held page (gfporder (orderOf s page)))
    (hhdr : ∀ p ∈ blocks page (orderOf s page), s'.hdr p = s.hdr p)
    (hlive : ∀ p ∈ blocks page (orderOf s page),
      s'.live (p + headerSize) = s.live (p + headerSize)) :
    PageOk s' page dma l := by
  have horder : orderOf s' page = orderOf s page := by rw [orderOf, hdesc, orderOf]
  refine ⟨h.pos, h.aligned, ?_, ?_, ?_, ?_, ?_, h.nodup, fun p hp => ?_, fun p hp hpl => ?_⟩
  · rw [hdesc]
    exact hn
  · rw [horder]
    exact h.order
  · rw [horder]
    exact howned
  · rw [hdesc]
    exact h.nfree
  · rw [hdesc]
    refine h.chain.congr fun p hp => ?_
    rw [bhNext, bhNext, hhdr p (h.free p hp).1]
  · obtain ⟨hblock, hflags, hnot⟩ := h.free p hp
    rw [horder, hhdr p hblock, hlive p hblock]
    exact ⟨hblock, hflags, hnot⟩
  · rw [horder] at hp ⊢
    rw [hhdr p hp, hlive p hp]
    exact h.used p hp hpl

/-- Blocks of different areas are different. -/
theorem block_ne {held : Nat → Option (Nat × Nat)} {order' : Nat} (ho : order < 13)
    (ho' : order' < 13) (h : Owned held page (gfporder order)) (h' : Owned held a (gfporder order'))
    (haligned : page % pageSize = 0) (haligned' : a % pageSize = 0) (hne : a ≠ page)
    (hp : p ∈ blocks page order) (hq : q ∈ blocks a order') : q ≠ p := by
  rintro rfl
  obtain ⟨hle, hlt, -⟩ := block_bounds ho hp
  obtain ⟨hle', hlt', -⟩ := block_bounds ho' hq
  have hbig := (table ho).2.1
  have hbig' := (table ho').2.1
  have hapart := h.apart h' hne.symm haligned haligned'
    (Nat.le_trans (Nat.le_add_right _ _) hle) (by omega) (Nat.le_trans (Nat.le_add_right _ _) hle')
  omega

theorem Inv.block_ne (h : Inv s F D L) (hpage : page ∈ s.areas) (ha : a ∈ s.areas) (hne : a ≠ page)
    (hp : p ∈ blocks page (orderOf s page)) (hq : q ∈ blocks a (orderOf s a)) : q ≠ p :=
  Kmalloc.block_ne (h.page page hpage).order (h.page a ha).order (h.page page hpage).owned
    (h.page a ha).owned (h.page page hpage).aligned (h.page a ha).aligned hne hp hq

/-- The other areas, when a block of one area changes hands. -/
theorem Inv.others (h : Inv s F D L) (hpage : page ∈ s.areas)
    (hp : p ∈ blocks page (orderOf s page))
    (hdesc : ∀ a ≠ page, s'.desc a = s.desc a) (hheld : s'.held = s.held)
    (hhdr : ∀ q ≠ p, s'.hdr q = s.hdr q) (hlive : ∀ x ≠ p + headerSize, s'.live x = s.live x) :
    ∀ a ∈ s.areas, a ≠ page → PageOk s' a (D a) (F a) := by
  intro a ha hne
  have hok := h.page a ha
  refine hok.congr (hdesc a hne) hok.next (hheld ▸ hok.owned) (fun q hq => ?_) (fun q hq => ?_)
  · exact hhdr q (h.block_ne hpage ha hne hp hq)
  · refine hlive _ fun heq => h.block_ne hpage ha hne hp hq ?_
    exact Nat.add_right_cancel heq

end

end Sbckernel.Kmalloc
