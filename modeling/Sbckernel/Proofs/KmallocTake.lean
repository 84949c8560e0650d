import Sbckernel.Lib.Update
import Sbckernel.Proofs.KmallocAreas

/-!
# `kmalloc` keeps the invariant

A block is always taken from the first page of a list. If the list is empty, a page is
prepared first, which comes from the page allocator or from the cache: for the invariant
it is enough that it has as many pages as the bucket needs.
-/

namespace Sbckernel.Kmalloc

open Lib Function List

variable {dma : Bool} {b : Bucket} {q size order sz n : Nat}

section
variable {s s' : State} {F : Nat → List Nat} {D : Nat → Bool} {L : Bucket → List Nat}
  {page p a : Nat}

/-! ## One area -/

theorem Inv.uncached (h : Inv s F D L) (hpage : page ∈ s.areas) :
    ∀ g < maxCacheOrder, s.cache g ≠ page := by
  rintro g hg rfl
  exact (h.cached g hg (Nat.ne_of_gt (h.page _ hpage).pos)).2.2 hpage

/-- One area changes or is new. It may get on a list or lose its place there. -/
theorem Inv.change (h : Inv s F D L) {L' : Bucket → List Nat} {fs : List Nat}
    (hnodup : s'.areas.Nodup) (hareas : ∀ a, a ∈ s'.areas ↔ a = page ∨ a ∈ s.areas)
    (hpage : PageOk s' page dma fs) (hothers : ∀ a ∈ s.areas, a ≠ page → PageOk s' a (D a) (F a))
    (horder : ∀ a, a ≠ page ∨ a ∈ s.areas → orderOf s' a = orderOf s a)
    (hlists : ∀ b, Chain (nextPage s') (ptr (s'.lists b)) (L' b) none ∧ (L' b).Nodup)
    (hself : ∀ b, page ∈ L' b ↔ (orderOf s' page, dma) = b ∧ fs ≠ [])
    (hmem : ∀ b a, a ≠ page → (a ∈ L' b ↔ a ∈ L b))
    (hlive : ∀ x size, s'.live x = some size → s.live x = some size ∨
      ∃ p ∈ blocks page (orderOf s' page), x = p + headerSize) (hcache : s'.cache = s.cache)
    (hheld : s'.held = s.held) (huncached : ∀ g < maxCacheOrder, s.cache g ≠ page) :
    Inv s' (update F page fs) (update D page dma) L' := by
  refine ⟨hnodup, fun a ha => ?_, fun b => (hlists b).1, fun b => (hlists b).2, fun b a => ?_,
    fun x size hx => ?_, fun g hg hne => ?_, hcache ▸ h.cacheInj⟩
  · rcases eq_or_ne a page with rfl | hne
    · rw [update_self, update_self]
      exact hpage
    · rw [update_of_ne hne, update_of_ne hne]
      exact hothers a (((hareas a).mp ha).resolve_left hne) hne
  · rcases eq_or_ne a page with rfl | hne
    · rw [update_self, update_self, hself]
      simp [hareas]
    · rw [update_of_ne hne, update_of_ne hne, hmem b a hne, h.listed,
        horder a (.inl hne), hareas, or_iff_right hne]
  · rcases hlive x size hx with hold | ⟨p, hp, heq⟩
    · obtain ⟨a, ha, q, hq, heq⟩ := h.live x size hold
      exact ⟨a, (hareas a).mpr (.inr ha), q, by rwa [horder a (.inr ha)], heq⟩
    · exact ⟨page, (hareas page).mpr (.inl rfl), p, hp, heq⟩
  · rw [hcache] at hne ⊢
    rw [hheld]
    obtain ⟨haligned, howned, hout⟩ := h.cached g hg hne
    exact ⟨haligned, howned, fun hin => ((hareas _).mp hin).elim (huncached g hg) hout⟩

/-- A page goes to the front of a list. -/
theorem Inv.push (h : Inv s F D L) (hout : ∀ b, page ∉ L b) (hpos : 0 < page)
    (hnext : ∀ a ≠ page, nextPage s' a = nextPage s a) (hself : (s'.desc page).next = s.lists b)
    (hlists : s'.lists = update s.lists b page) (b' : Bucket) :
    Chain (nextPage s') (ptr (s'.lists b')) (update L b (page :: L b) b') none ∧
      (update L b (page :: L b) b').Nodup := by
  have hchain : ∀ b, Chain (nextPage s') (ptr (s.lists b)) (L b) none := fun b =>
    (h.chain b).congr fun a ha => hnext a fun heq => hout b (heq ▸ ha)
  rw [hlists]
  rcases eq_or_ne b' b with rfl | hb
  · rw [update_self, update_self]
    refine ⟨⟨ptr_of_ne (Nat.ne_of_gt hpos), ?_⟩, nodup_cons.mpr ⟨hout _, h.listNodup _⟩⟩
    rw [nextPage, hself]
    exact hchain b'
  · rw [update_of_ne hb, update_of_ne hb]
    exact ⟨hchain b', h.listNodup b'⟩

/-- A field of the descriptors that is not changed in the one that is. -/
theorem field_update {β : Type} (f : PageDescriptor → β) {d : PageDescriptor}
    (hdesc : s'.desc = update s.desc page d) (a : Nat)
    (hd : f d = f (s.desc page) := by rfl) : f (s'.desc a) = f (s.desc a) := by
  rw [hdesc]
  rcases eq_or_ne a page with rfl | hne
  · rw [update_self, hd]
  · rw [update_of_ne hne]

theorem mem_push {b' : Bucket} : a ∈ update L b (page :: L b) b' ↔ a ∈ L b' ∨ b' = b ∧ a = page :=
  mem_update_insert (by simp [or_comm])

/-! ## `found_it` -/

section foundIt
variable {rest fs : List Nat}

theorem desc_foundIt_self : (foundIt s order dma page p size).1.desc page =
    { s.desc page with firstfree := (s.hdr p).vp, nfree := (s.desc page).nfree - 1 } :=
  update_self ..

theorem hdr_foundIt_of_ne (hne : q ≠ p) :
    (foundIt s order dma page p size).1.hdr q = s.hdr q := update_of_ne hne ..

theorem hdr_foundIt_self : (foundIt s order dma page p size).1.hdr p = ⟨mfType dma, size⟩ :=
  update_self ..

theorem orderOf_foundIt (a : Nat) :
    orderOf (foundIt s order dma page p size).1 a = orderOf s a :=
  field_update PageDescriptor.order rfl a

theorem nextPage_foundIt : nextPage (foundIt s order dma page p size).1 = nextPage s :=
  funext fun a => congrArg ptr (field_update PageDescriptor.next rfl a)

/-- The area that a block is taken from. -/
theorem foundIt_page (h : PageOk s page dma (p :: fs)) (hsize : size < 2 ^ 32)
    (hfits : (size + headerSize) % 2 ^ 32 ≤ blockSize (orderOf s page)) :
    PageOk (foundIt s order dma page p size).1 page dma fs := by
  obtain ⟨hpfs, hnd⟩ := nodup_cons.mp h.nodup
  have hne : ∀ q ∈ fs, q ≠ p := fun q hq heq => hpfs (heq ▸ hq)
  refine ⟨h.pos, h.aligned, ?_, ?_, ?_, ?_, ?_, hnd, fun q hq => ?_, fun q hq hqfs => ?_⟩
  · rw [desc_foundIt_self]
    exact h.next
  · rw [orderOf_foundIt]
    exact h.order
  · rw [orderOf_foundIt]
    exact h.owned
  · rw [desc_foundIt_self]
    exact congrArg (· - 1) h.nfree
  · rw [desc_foundIt_self]
    refine h.chain.2.congr fun q hq => ?_
    rw [bhNext, bhNext, hdr_foundIt_of_ne (hne q hq)]
  · obtain ⟨hblock, hflags, hnot⟩ := h.free q (mem_cons_of_mem p hq)
    refine ⟨?_, ?_, ?_⟩
    · rw [orderOf_foundIt]
      exact hblock
    · rw [hdr_foundIt_of_ne (hne q hq)]
      exact hflags
    · exact (update_of_ne (fun heq => hne q hq (Nat.add_right_cancel heq)) ..).trans hnot
  · rw [orderOf_foundIt] at hq ⊢
    rcases eq_or_ne q p with rfl | hqp
    · exact ⟨by rw [hdr_foundIt_self], size, update_self .., hsize, hfits⟩
    · obtain ⟨hflags, size', hlive, hrest⟩ := h.used q hq fun hmem =>
        (mem_cons.mp hmem).elim hqp hqfs
      rw [hdr_foundIt_of_ne hqp]
      refine ⟨hflags, size', ?_, hrest⟩
      exact (update_of_ne (fun heq => hqp (Nat.add_right_cancel heq)) ..).trans hlive

/-- The first page of a list gives its first free block; it leaves the list with the last one. -/
theorem foundIt_inv (h : Inv s F D L) (hL : L (order, dma) = page :: rest) (hF : F page = p :: fs)
    (hsize : size < 2 ^ 32) (hfits : (size + headerSize) % 2 ^ 32 ≤ blockSize order) :
    Inv (foundIt s order dma page p size).1 (update F page fs) D
      (if fs = [] then update L (order, dma) rest else L) := by
  have hmem : page ∈ L (order, dma) := hL ▸ mem_cons_self
  obtain ⟨hpage, hbucket, -⟩ := (h.listed _ _).mp hmem
  obtain ⟨horder, hdma⟩ := Prod.mk.inj hbucket
  have hok := h.page page hpage
  rw [hdma, hF] at hok
  have hp := (hok.free p mem_cons_self).1
  have hnfree : (s.desc page).nfree - 1 = fs.length := congrArg (· - 1) hok.nfree
  have hothers : ∀ a ∈ s.areas, a ≠ page →
      PageOk (foundIt s order dma page p size).1 a (D a) (F a) := h.others hpage hp
    (fun a hne => update_of_ne hne ..) rfl (fun q hne => update_of_ne hne ..)
    (fun x hne => update_of_ne hne ..)
  have hlists : (foundIt s order dma page p size).1.lists =
      if fs = [] then update s.lists (order, dma) (s.desc page).next else s.lists := by
    show (if (s.desc page).nfree - 1 = 0 then _ else _) = _
    rw [hnfree]
    simp only [length_eq_zero_iff]
  have hnd : page ∉ rest ∧ rest.Nodup := nodup_cons.mp (hL ▸ h.listNodup (order, dma))
  have hbuckets : ∀ b, page ∈ L b ↔ b = (order, dma) := fun b => by
    rw [h.listed, horder, hdma, hF]
    simp [hpage, eq_comm]
  rw [← update_eq_self page D, hdma]
  refine h.change h.nodup (fun a => ?_) (foundIt_page hok hsize (horder ▸ hfits)) hothers
    (fun a _ => orderOf_foundIt a) (fun b => ?_) (fun b => ?_) (fun b a hne => ?_)
    (fun x size' hx => ?_) rfl rfl (h.uncached hpage)
  · exact (or_iff_right_of_imp fun heq => heq ▸ hpage).symm
  · rw [nextPage_foundIt, hlists]
    have hchain := h.chain b
    split
    · rcases eq_or_ne b (order, dma) with rfl | hb
      · rw [update_self, update_self]
        rw [hL] at hchain
        exact ⟨hchain.2, hnd.2⟩
      · rw [update_of_ne hb, update_of_ne hb]
        exact ⟨hchain, h.listNodup b⟩
    · exact ⟨hchain, h.listNodup b⟩
  · rw [orderOf_foundIt, horder]
    split
    next hfs =>
      rcases eq_or_ne b (order, dma) with rfl | hb
      · simp [hnd.1, hfs]
      · simp [hb, hbuckets, hfs]
    next hfs => simp [hbuckets, hfs, eq_comm]
  · split
    · rcases eq_or_ne b (order, dma) with rfl | hb
      · rw [update_self, hL, mem_cons, or_iff_right hne]
      · rw [update_of_ne hb]
    · rfl
  · rcases eq_or_ne x (p + headerSize) with hxp | hxp
    · exact .inr ⟨p, by rwa [orderOf_foundIt], hxp⟩
    · exact .inl ((update_of_ne hxp ..).symm.trans hx)

end foundIt

/-! ## A new page -/

theorem carve_other {hdr : Nat → BlockHeader} (hq : ∀ i ≤ n, q ≠ p + i * sz) :
    carve sz n p hdr q = hdr q := by
  induction n generalizing p hdr with
  | zero =>
    have hne := hq 0 (Nat.le_refl 0)
    rw [Nat.zero_mul, Nat.add_zero] at hne
    exact update_of_ne hne ..
  | succ n ih =>
    have hne := hq 0 (Nat.zero_le _)
    rw [Nat.zero_mul, Nat.add_zero] at hne
    rw [carve, ih, update_of_ne hne]
    intro i hi heq
    refine hq (i + 1) (Nat.succ_le_succ hi) ?_
    rw [heq, Nat.succ_mul]
    omega

/-- The chain that the loop makes. -/
theorem carve_chain (n : Nat) (hdr : Nat → BlockHeader) (hsz : 0 < sz) (hp : 0 < p) :
    Chain (fun q => ptr (carve sz n p hdr q).vp) (ptr p)
      ((List.range (n + 1)).map fun i => p + i * sz) none ∧
    ∀ i ≤ n, (carve sz n p hdr (p + i * sz)).bhFlags = mfFree := by
  induction n generalizing p hdr with
  | zero =>
    have hself : carve sz 0 p hdr p = ⟨mfFree, 0⟩ := update_self ..
    refine ⟨?_, fun i hi => ?_⟩
    · rw [range_one, map_singleton, Nat.zero_mul, Nat.add_zero]
      exact ⟨ptr_of_ne (Nat.ne_of_gt hp), congrArg (fun b : BlockHeader => ptr b.vp) hself⟩
    · obtain rfl := Nat.le_zero.mp hi
      rw [Nat.zero_mul, Nat.add_zero, hself]
  | succ n ih =>
    obtain ⟨hchain, hflags⟩ :=
      ih (update hdr p ⟨mfFree, p + sz⟩) (Nat.add_pos_left hp sz)
    have hself : carve sz (n + 1) p hdr p = ⟨mfFree, p + sz⟩ := by
      rw [carve, carve_other, update_self]
      intro i _
      omega
    have hshift : ∀ i, p + (i + 1) * sz = p + sz + i * sz := fun i => by
      rw [Nat.succ_mul]
      omega
    refine ⟨?_, fun i hi => ?_⟩
    · rw [range_succ_eq_map, map_cons, Nat.zero_mul, map_map, Nat.add_zero]
      refine ⟨ptr_of_ne (Nat.ne_of_gt hp), ?_⟩
      show Chain _ (ptr (carve sz (n + 1) p hdr p).vp) _ _
      rw [hself, show (fun i => p + i * sz) ∘ Nat.succ = _ from funext hshift]
      exact hchain
    · cases i with
      | zero =>
        rw [Nat.zero_mul]
        exact congrArg BlockHeader.bhFlags hself
      | succ i =>
        rw [hshift, carve]
        exact hflags i (Nat.le_of_succ_le_succ hi)

section newPage

/-- Pages that can be set up for a bucket. -/
structure Fresh (s : State) (page order : Nat) : Prop where
  pos : 0 < page
  aligned : page % pageSize = 0
  owned : Owned s.held page (gfporder order)
  out : page ∉ s.areas
  uncached : ∀ g < maxCacheOrder, s.cache g ≠ page

/-- The page with the `firstfree` that `found_it` assumes. -/
def setFirst (s : State) (page : Nat) : State :=
  { s with
    desc := update s.desc page { s.desc page with firstfree := page + descriptorSize } }

theorem foundIt_setFirst :
    foundIt (setFirst s page) order dma page p size = foundIt s order dma page p size := by
  simp [foundIt, setFirst]

def prepared (s : State) (order : Nat) (dma : Bool) (page : Nat) : State :=
  setFirst (foundCachedPage s order dma page) page

theorem desc_prepared_self : (prepared s order dma page).desc page =
    ⟨s.lists (order, dma), page + descriptorSize, order, nblocks order⟩ := by
  simp [prepared, setFirst, foundCachedPage]

theorem desc_prepared_of_ne (hne : a ≠ page) : (prepared s order dma page).desc a = s.desc a := by
  simp [prepared, setFirst, foundCachedPage, hne]

theorem orderOf_prepared_self : orderOf (prepared s order dma page) page = order := by
  rw [orderOf, desc_prepared_self]

theorem hdr_prepared_of_not_mem (ho : order < 13) (hp : p ∉ blocks page order) :
    (prepared s order dma page).hdr p = s.hdr p := by
  refine carve_other fun i hi heq => hp (mem_blocks.mpr ⟨i, ?_, heq⟩)
  have hpos := (table ho).1
  omega

theorem Inv.lists_aligned (h : Inv s F D L) (b : Bucket) : s.lists b % pageSize = 0 := by
  have hchain := h.chain b
  cases hL : L b with
  | nil =>
    rw [hL] at hchain
    rw [show s.lists b = 0 by
      by_contra hne
      rw [ptr_of_ne hne] at hchain
      cases hchain]
    rfl
  | cons a rest =>
    rw [hL] at hchain
    have hmem : a ∈ L b := hL ▸ mem_cons_self
    rw [(ptr_eq_some hchain.1).1]
    exact (h.page a ((h.listed b a).mp hmem).1).aligned

/-- No block of a fresh page is in another area. -/
theorem Fresh.block_ne (hfresh : Fresh s page order) (h : Inv s F D L) (ho : order < 13)
    (ha : a ∈ s.areas) (hp : p ∈ blocks page order) (hq : q ∈ blocks a (orderOf s a)) : q ≠ p :=
  Kmalloc.block_ne ho (h.page a ha).order hfresh.owned (h.page a ha).owned hfresh.aligned
    (h.page a ha).aligned (fun heq => hfresh.out (heq ▸ ha)) hp hq

/-- The new page, with all its blocks free. -/
theorem prepared_page (hfresh : Fresh s page order) (h : Inv s F D L) (ho : order < 13) :
    PageOk (prepared s order dma page) page dma (blocks page order) := by
  obtain ⟨hn, hsz, -, -⟩ := table ho
  have hcount : nblocks order - 1 + 1 = nblocks order := Nat.sub_add_cancel hn
  have hpos : 0 < blockSize order := Nat.lt_of_lt_of_le (by decide) hsz
  obtain ⟨hchain, hflags⟩ :=
    carve_chain (nblocks order - 1) s.hdr hpos (Nat.add_pos_left hfresh.pos descriptorSize)
  refine ⟨hfresh.pos, hfresh.aligned, ?_, ?_, ?_, ?_, ?_, nodup_blocks ho, fun p hp => ?_,
    fun p hp hnot => ?_⟩
  · rw [desc_prepared_self]
    exact h.lists_aligned (order, dma)
  · rw [orderOf_prepared_self]
    exact ho
  · rw [orderOf_prepared_self]
    exact hfresh.owned
  · rw [desc_prepared_self, length_blocks]
  · rw [desc_prepared_self]
    rw [hcount] at hchain
    exact hchain
  · rw [orderOf_prepared_self]
    refine ⟨hp, ?_, ?_⟩
    · obtain ⟨i, hi, rfl⟩ := mem_blocks.mp hp
      exact hflags i (by omega)
    · by_contra hlive
      obtain ⟨size, hsize⟩ := Option.ne_none_iff_exists'.mp hlive
      obtain ⟨a, ha, q, hq, heq⟩ := h.live _ size hsize
      exact hfresh.block_ne h ho ha hp hq (Nat.add_right_cancel heq).symm
  · rw [orderOf_prepared_self] at hp
    exact absurd hp hnot

theorem prepared_inv (hfresh : Fresh s page order) (h : Inv s F D L) (ho : order < 13) :
    Inv (prepared s order dma page) (update F page (blocks page order)) (update D page dma)
      (update L (order, dma) (page :: L (order, dma))) := by
  have hout : ∀ b, page ∉ L b := fun b hmem => hfresh.out ((h.listed b page).mp hmem).1
  have hnonempty : blocks page order ≠ [] := by
    intro hnil
    have hlen := length_blocks page order
    rw [hnil] at hlen
    exact absurd hlen.symm (Nat.ne_of_gt (table ho).1)
  refine h.change (nodup_cons.mpr ⟨hfresh.out, h.nodup⟩) (fun a => mem_cons)
    (prepared_page hfresh h ho) (fun a ha hne => ?_) (fun a ha => ?_)
    (h.push hout hfresh.pos (fun a hne => ?_) (by rw [desc_prepared_self]) rfl) (fun b => ?_)
    (fun b a hne => by simp [mem_push, hne]) (fun x size hx => .inl hx) rfl rfl hfresh.uncached
  · refine (h.page a ha).congr (desc_prepared_of_ne hne) (h.page a ha).next (h.page a ha).owned
      (fun q hq => ?_) fun _ _ => rfl
    exact hdr_prepared_of_not_mem ho fun hmem => hfresh.block_ne h ho ha hmem hq rfl
  · have hne : a ≠ page := ha.elim id fun ha heq => hfresh.out (heq ▸ ha)
    rw [orderOf, desc_prepared_of_ne hne, orderOf]
  · rw [nextPage, desc_prepared_of_ne hne, nextPage]
  · rw [orderOf_prepared_self, mem_push]
    simp [hout, hnonempty, eq_comm]

theorem blocks_eq_cons (page : Nat) (ho : order < 13) :
    ∃ rest, blocks page order = (page + descriptorSize) :: rest := by
  obtain ⟨n, hn⟩ := Nat.exists_eq_succ_of_ne_zero (Nat.ne_of_gt (table ho).1)
  rw [blocks, hn, range_succ_eq_map, map_cons, Nat.zero_mul]
  exact ⟨_, rfl⟩

end newPage

/-! ## Pages come and go -/

/-- The area is set up for a bucket or in the cache. -/
def Kept (s : State) (a : Nat) : Prop :=
  a ∈ s.areas ∨ ∃ g < maxCacheOrder, s.cache g ≠ 0 ∧ s.cache g = a

theorem Inv.setHeld (h : Inv s F D L) {held : Nat → Option (Nat × Nat)}
    (hkeep : ∀ n a g, Kept s a → s.held n = some (a, g) → held n = some (a, g)) :
    Inv { s with held := held } F D L := by
  have howned : ∀ a order, Kept s a → Owned s.held a order → Owned held a order := by
    intro a order hkept ho n hn
    obtain ⟨g, hg⟩ := ho n hn
    exact ⟨g, hkeep n a g hkept hg⟩
  refine { h with page := fun a ha => ?_, cached := fun g hg hne => ?_ }
  · exact (h.page a ha).congr rfl (h.page a ha).next (howned _ _ (.inl ha) (h.page a ha).owned)
      (fun _ _ => rfl) fun _ _ => rfl
  · obtain ⟨haligned, ho, hout⟩ := h.cached g hg hne
    exact ⟨haligned, howned _ _ (.inr ⟨g, hg, hne, rfl⟩) ho, hout⟩

theorem available_of_granted (h : granted s size (some page) = true)
    (horder : getOrder size = some order) : Available s page (gfporder order) := by
  rw [granted, horder] at h
  exact of_decide_eq_true h

theorem Available.held_eq_none (h : Available s page order)
    (hn : InArea page order n) : s.held n = none := by
  have hnone := h.2.2.2 (n - page / pageSize) (by have := hn.2; have := hn.1; omega)
  rwa [Nat.add_sub_cancel' hn.1] at hnone

section
variable (h : Inv s F D L)
include h

theorem getKmallocPages_inv (havail : Available s page order) :
    Inv (getKmallocPages s page order) F D L := by
  refine h.setHeld fun n a g _ hheld => ?_
  rw [if_neg, hheld]
  intro hn
  rw [havail.held_eq_none hn] at hheld
  cases hheld

theorem getKmallocPages_fresh (havail : Available s page (gfporder order)) :
    Fresh (getKmallocPages s page (gfporder order)) page order where
  pos := havail.1
  aligned := havail.2.1
  owned n hn := ⟨_, if_pos hn⟩
  out := by
    intro hmem
    obtain ⟨g, hg⟩ := (h.page page hmem).owned _ (inArea_first page _)
    rw [havail.held_eq_none (inArea_first page _)] at hg
    cases hg
  uncached := by
    intro g hg heq
    have hne : s.cache g ≠ 0 := heq ▸ Nat.ne_of_gt havail.1
    obtain ⟨-, howned, -⟩ := h.cached g hg hne
    obtain ⟨g', hg'⟩ := howned _ (inArea_first (s.cache g) g)
    rw [show s.cache g = page from heq, havail.held_eq_none (inArea_first page _)] at hg'
    cases hg'

theorem freePages_inv (howned : Owned s.held page order)
    (hout : ¬Kept s page) : Inv (freePages s page order) F D L := by
  refine h.setHeld fun n a g hkept hheld => ?_
  rw [if_neg, hheld]
  intro hn
  obtain ⟨g', hg'⟩ := howned n hn
  rw [hheld] at hg'
  cases hg'
  exact hout hkept

/-- A slot of the cache is cleared, or takes an area that is in no other one. -/
theorem Inv.recache {g : Nat}
    (hpage : page ≠ 0 → page % pageSize = 0 ∧ Owned s.held page g ∧ page ∉ s.areas)
    (huncached : page ≠ 0 → ∀ g < maxCacheOrder, s.cache g ≠ page) :
    Inv { s with cache := update s.cache g page } F D L := by
  refine ⟨h.nodup, fun a ha => (h.page a ha).congr rfl (h.page a ha).next (h.page a ha).owned
    (fun _ _ => rfl) fun _ _ => rfl, h.chain, h.listNodup, h.listed, h.live, fun g' hg' hne => ?_,
    fun g1 hg1 g2 hg2 hne heq => ?_⟩
  · dsimp only at hne ⊢
    rcases eq_or_ne g' g with rfl | hg
    · rw [update_self] at hne ⊢
      exact hpage hne
    · rw [update_of_ne hg] at hne ⊢
      exact h.cached g' hg' hne
  · have hinj := h.cacheInj g1 hg1 g2 hg2
    dsimp only at hne heq
    rw [update_apply] at hne
    rw [update_apply, update_apply] at heq
    grind

theorem uncache_fresh (ho : order < maxCacheOrder) (hne : s.cache order ≠ 0) :
    Fresh { s with cache := update s.cache order 0 } (s.cache order) order := by
  obtain ⟨haligned, howned, hout⟩ := h.cached order ho hne
  refine ⟨Nat.pos_of_ne_zero hne, haligned, ?_, hout, fun g hg heq => ?_⟩
  · rw [gfporder_of_cached ho]
    exact howned.mono (Nat.zero_le _)
  · dsimp only at heq
    rcases eq_or_ne g order with rfl | hgo
    · exact hne (heq.symm.trans (update_self ..))
    · rw [update_of_ne hgo] at heq
      exact hgo (h.cacheInj g hg order ho (heq ▸ hne) heq)

end

/-- An area that no bucket has any more is left in the cache or given back. -/
theorem freeKmallocPages_inv (h : Inv { s with areas := s.areas.erase page } F D L) {order : Nat}
    (haligned : page % pageSize = 0) (howned : Owned s.held page order)
    (hout : page ∉ s.areas.erase page) (huncached : ∀ g < maxCacheOrder, s.cache g ≠ page)
    (dma : Bool) : Inv (freeKmallocPages s page order dma) F D L := by
  rw [freeKmallocPages]
  dsimp only
  split
  next hcache =>
    obtain ⟨-, hg⟩ := hcache
    have hinv : Inv { s with
        areas := s.areas.erase page
        cache := update s.cache order page } F D L :=
      h.recache (fun _ => ⟨haligned, howned, hout⟩) fun _ => huncached
    split
    · exact hinv
    next hold =>
      obtain ⟨-, hownedOld, houtOld⟩ := h.cached order hg hold
      refine freePages_inv hinv hownedOld ?_
      rintro (hmem | ⟨g, hg', -, heq⟩)
      · exact houtOld hmem
      · dsimp only at heq
        rcases eq_or_ne g order with rfl | hgo
        · exact huncached g hg (heq.symm.trans (update_self ..))
        · rw [update_of_ne hgo] at heq
          exact hgo (h.cacheInj g hg' order hg (heq ▸ hold) heq)
  · refine freePages_inv h howned ?_
    rintro (hmem | ⟨g, hg, -, heq⟩)
    · exact hout hmem
    · exact huncached g hg heq

/-! ## `kmalloc` -/

theorem Inv.first_free (h : Inv s F D L) (hne : s.lists b ≠ 0) :
    ∃ rest fs, L b = s.lists b :: rest ∧
      F (s.lists b) = (s.desc (s.lists b)).firstfree :: fs ∧
      (s.hdr (s.desc (s.lists b)).firstfree).bhFlags = mfFree := by
  have hchain := h.chain b
  cases hL : L b with
  | nil =>
    rw [hL, ptr_of_ne hne] at hchain
    cases hchain
  | cons a rest =>
    rw [hL] at hchain
    obtain ⟨heq, -⟩ := ptr_eq_some hchain.1
    have hmem : a ∈ L b := hL ▸ mem_cons_self
    obtain ⟨ha, -, hF⟩ := (h.listed b a).mp hmem
    have hok := h.page a ha
    rw [heq]
    cases hFa : F a with
    | nil => exact absurd hFa hF
    | cons p fs =>
      rw [hFa] at hok
      obtain ⟨hfirst, -⟩ := ptr_eq_some hok.chain.1
      rw [hfirst]
      exact ⟨rest, fs, rfl, rfl, (hok.free p mem_cons_self).2.1⟩

/-- What a block is taken from: the first page of the list, with its first free block. -/
structure Source (s : State) (F : Nat → List Nat) (D : Nat → Bool) (L : Bucket → List Nat)
    (b : Bucket) (page p : Nat) : Prop where
  inv : Inv s F D L
  first : ∃ rest, L b = page :: rest
  free : ∃ fs, F page = p :: fs

theorem Source.inv_foundIt (h : Source s F D L (order, dma) page p)
    (hsize : size < 2 ^ 32) (hfits : (size + headerSize) % 2 ^ 32 ≤ blockSize order) :
    ∃ F' L', Inv (foundIt s order dma page p size).1 F' D L' := by
  obtain ⟨rest, hL⟩ := h.first
  obtain ⟨fs, hF⟩ := h.free
  exact ⟨_, _, foundIt_inv h.inv hL hF hsize hfits⟩

theorem Source.not_live (h : Source s F D L b page p) : s.live (p + headerSize) = none := by
  obtain ⟨rest, hL⟩ := h.first
  obtain ⟨fs, hF⟩ := h.free
  have hmem : page ∈ L b := hL ▸ mem_cons_self
  exact ((h.inv.page page ((h.inv.listed b page).mp hmem).1).free p (hF ▸ mem_cons_self)).2.2

theorem newPage_source (hfresh : Fresh s page order) (h : Inv s F D L) (ho : order < 13) :
    newPage s order dma page size =
      foundIt (prepared s order dma page) order dma page (page + descriptorSize) size ∧
    ∃ F' D' L', Source (prepared s order dma page) F' D' L' (order, dma) page
      (page + descriptorSize) := by
  obtain ⟨rest, hblocks⟩ := blocks_eq_cons page ho
  refine ⟨?_, _, _, _, prepared_inv hfresh h ho, ⟨_, update_self ..⟩, rest, ?_⟩
  · rw [newPage, prepared, foundIt_setFirst]
  · rw [update_self]
    exact hblocks

/-- Either nothing happens, or a block is handed out. -/
theorem kmalloc_cases (h : Inv s F D L) {grant : Option Nat} (hgranted : granted s size grant) :
    kmalloc s size dma grant = (s, 0) ∨
      ∃ s0 F' D' L' order page p, kmalloc s size dma grant = foundIt s0 order dma page p size ∧
        Source s0 F' D' L' (order, dma) page p ∧ s0.live = s.live ∧ order < 13 ∧
        (size + headerSize) % 2 ^ 32 ≤ blockSize order := by
  rw [kmalloc]
  split
  · exact .inl rfl
  next order horder =>
    obtain ⟨ho, hfits⟩ := getOrder_some horder
    unfold allocate
    dsimp only
    split
    next hne =>
      obtain ⟨rest, fs, hL, hF, hflags⟩ := h.first_free hne
      rw [if_neg (not_not_intro hflags)]
      exact .inr ⟨s, F, D, L, order, _, _, rfl, ⟨h, ⟨rest, hL⟩, fs, hF⟩, rfl, ho, hfits⟩
    · split
      next page =>
        have havail := available_of_granted hgranted horder
        obtain ⟨heq, F', D', L', hsource⟩ := newPage_source (getKmallocPages_fresh h havail)
          (getKmallocPages_inv h havail) ho
        exact .inr ⟨_, F', D', L', order, page, _, heq, hsource, rfl, ho, hfits⟩
      · split
        next hcache =>
          obtain ⟨-, hg, hne⟩ := hcache
          obtain ⟨heq, F', D', L', hsource⟩ := newPage_source (uncache_fresh h hg hne)
            (h.recache (absurd rfl) (absurd rfl)) ho
          exact .inr ⟨_, F', D', L', order, _, _, heq, hsource, rfl, ho, hfits⟩
        · exact .inl rfl

end

end Sbckernel.Kmalloc
