import Sbckernel.Proofs.Kmalloc

/-!
# What becomes of the areas of `kmalloc`

`kfree` leaves an area in the cache under the order of the area. `kmalloc` asks the cache
for the order of the bucket, which is another number: for the buckets 1 and 2, whose areas
have one page, it takes an area of two or of four pages, and later gives only the first of
them back. `pages_leaked` is a run in which a page is lost in this way.

While that does not happen, every page that is held belongs to an area that a bucket has
or to one in the cache, with the order that it was obtained with. An area on its way from
one place to another is the one in hand.
-/

namespace Sbckernel.Kmalloc

open Lib Function Option

/-- Every page that is held has its place, but for those of the area in hand. -/
structure Exact (s : State) (hand : Option (Nat × Nat)) : Prop where
  within : ∀ n a g, s.held n = some (a, g) → 0 < a ∧ InArea a g n
  area : ∀ a ∈ s.areas, ∀ n, InArea a (gfporder (orderOf s a)) n →
    s.held n = some (a, gfporder (orderOf s a))
  cache : ∀ g < maxCacheOrder, s.cache g ≠ 0 → ∀ n, InArea (s.cache g) g n →
    s.held n = some (s.cache g, g)
  inHand : ∀ a g, hand = some (a, g) → ∀ n, InArea a g n → s.held n = some (a, g)
  place : ∀ n a g, s.held n = some (a, g) → (a ∈ s.areas ∧ gfporder (orderOf s a) = g) ∨
    (g < maxCacheOrder ∧ s.cache g = a) ∨ hand = some (a, g)

section
variable {s s' : State} {hand : Option (Nat × Nat)} {page order g : Nat} {dma : Bool}
variable {F : Nat → List Nat} {D : Nat → Bool} {L : Bucket → List Nat}

theorem Exact.congr (h : Exact s hand) (hheld : s'.held = s.held) (hareas : s'.areas = s.areas)
    (hcache : s'.cache = s.cache) (horder : ∀ a, orderOf s' a = orderOf s a) : Exact s' hand := by
  refine ⟨?_, fun a ha => ?_, ?_, ?_, fun n a g => ?_⟩
  · rw [hheld]
    exact h.within
  · rw [hheld, horder]
    rw [hareas] at ha
    exact h.area a ha
  · rw [hheld, hcache]
    exact h.cache
  · rw [hheld]
    exact h.inHand
  · rw [hheld, hareas, hcache, horder]
    exact h.place n a g

/-! ## Pages change hands -/

theorem getKmallocPages_exact (h : Exact s none) (havail : Available s page order) :
    Exact (getKmallocPages s page order) (some (page, order)) := by
  have hheld : ∀ n x, s.held n = some x → (getKmallocPages s page order).held n = some x := by
    intro n x hn
    refine (if_neg fun hin => ?_).trans hn
    rw [havail.held_eq_none hin] at hn
    cases hn
  have hcases : ∀ n a g, (getKmallocPages s page order).held n = some (a, g) →
      InArea page order n ∧ (page, order) = (a, g) ∨ s.held n = some (a, g) := by
    intro n a g hn
    by_cases hin : InArea page order n
    · exact .inl ⟨hin, some.inj ((if_pos hin).symm.trans hn)⟩
    · exact .inr ((if_neg hin).symm.trans hn)
  refine ⟨fun n a g hn => ?_, fun a ha n hn => hheld n _ (h.area a ha n hn),
    fun g hg hne n hn => hheld n _ (h.cache g hg hne n hn), fun a g heq n hn => ?_,
    fun n a g hn => ?_⟩
  · rcases hcases n a g hn with ⟨hin, heq⟩ | hold
    · cases heq
      exact ⟨havail.1, hin⟩
    · exact h.within n a g hold
  · cases heq
    exact if_pos hn
  · rcases hcases n a g hn with ⟨-, heq⟩ | hold
    · exact .inr (.inr (congrArg some heq))
    · rcases h.place n a g hold with harea | hcache | hhand
      · exact .inl harea
      · exact .inr (.inl hcache)
      · cases hhand

/-- The area in hand is set up for a bucket. -/
theorem foundCachedPage_exact (h : Exact s (some (page, gfporder order))) (hout : page ∉ s.areas) :
    Exact (foundCachedPage s order dma page) none := by
  have hself : orderOf (foundCachedPage s order dma page) page = order := by
    simp [orderOf, foundCachedPage]
  have hother : ∀ a ∈ s.areas, orderOf (foundCachedPage s order dma page) a = orderOf s a := by
    intro a ha
    have hne : a ≠ page := fun heq => hout (heq ▸ ha)
    exact congrArg PageDescriptor.order (update_of_ne hne ..)
  refine ⟨h.within, fun a ha => ?_, h.cache, fun a g heq => ?_, fun n a g hn => ?_⟩
  · rcases List.mem_cons.mp ha with rfl | ha
    · rw [hself]
      exact h.inHand _ _ rfl
    · rw [hother a ha]
      exact h.area a ha
  · cases heq
  · rcases h.place n a g hn with ⟨ha, hg⟩ | hcache | hhand
    · exact .inl ⟨List.mem_cons_of_mem page ha, by rw [hother a ha]; exact hg⟩
    · exact .inr (.inl hcache)
    · cases hhand
      exact .inl ⟨List.mem_cons_self, by rw [hself]⟩

/-- A bucket lets go of an area. -/
theorem drop_exact (h : Exact s none) (hnodup : s.areas.Nodup) (hpage : page ∈ s.areas) :
    Exact { s with areas := s.areas.erase page } (some (page, gfporder (orderOf s page))) := by
  have hmem : ∀ a, a ∈ s.areas.erase page ↔ a ≠ page ∧ a ∈ s.areas := fun a => hnodup.mem_erase_iff
  refine ⟨h.within, fun a ha => h.area a ((hmem a).mp ha).2, h.cache, fun a g heq => ?_,
    fun n a g hn => ?_⟩
  · cases heq
    exact h.area page hpage
  · rcases h.place n a g hn with ⟨ha, hg⟩ | hcache | hhand
    · by_cases heq : a = page
      · subst heq
        exact .inr (.inr (by rw [hg]))
      · exact .inl ⟨(hmem a).mpr ⟨heq, ha⟩, hg⟩
    · exact .inr (.inl hcache)
    · cases hhand

/-- The area in hand is given back. -/
theorem freePages_exact (h : Exact s (some (page, g))) (hout : ¬Kept s page) :
    Exact (freePages s page g) none := by
  have hheld : ∀ n a g', Kept s a → s.held n = some (a, g') →
      (freePages s page g).held n = some (a, g') := by
    intro n a g' hkept hn
    refine (if_neg fun hin => ?_).trans hn
    rw [h.inHand _ _ rfl n hin] at hn
    cases hn
    exact hout hkept
  have hold : ∀ n x, (freePages s page g).held n = some x →
      ¬InArea page g n ∧ s.held n = some x := by
    intro n x hn
    by_cases hin : InArea page g n
    · rw [show (freePages s page g).held n = none from if_pos hin] at hn
      cases hn
    · exact ⟨hin, (if_neg hin).symm.trans hn⟩
  refine ⟨fun n a g' hn => h.within n a g' (hold n _ hn).2,
    fun a ha n hn => hheld n _ _ (.inl ha) (h.area a ha n hn),
    fun g' hg' hne n hn => hheld n _ _ (.inr ⟨g', hg', hne, rfl⟩) (h.cache g' hg' hne n hn),
    fun a g' heq => ?_, fun n a g' hn => ?_⟩
  · cases heq
  · obtain ⟨hin, hn⟩ := hold n _ hn
    rcases h.place n a g' hn with harea | hcache | hhand
    · exact .inl harea
    · exact .inr (.inl hcache)
    · cases hhand
      exact absurd (h.within n page g hn).2 hin

/-- The area in hand, if there is one, is left in the cache, and what was there is in hand. -/
theorem swapCache_exact (page : Nat) (h : Exact s (if page = 0 then none else some (page, g)))
    (hg : g < maxCacheOrder) :
    Exact { s with cache := update s.cache g page }
      (if s.cache g = 0 then none else some (s.cache g, g)) := by
  refine ⟨h.within, h.area, fun g' hg' hne => ?_, fun a g' heq => ?_, fun n a g' hn => ?_⟩
  · dsimp only at hne ⊢
    by_cases heq : g' = g
    · subst heq
      rw [update_self] at hne ⊢
      exact h.inHand _ _ (if_neg hne)
    · rw [update_of_ne heq] at hne ⊢
      exact h.cache g' hg' hne
  · obtain ⟨hne, ⟨⟩⟩ := ite_none_left_eq_some.mp heq
    exact h.cache g hg hne
  · rcases h.place n a g' hn with harea | ⟨hg', hcache⟩ | hhand
    · exact .inl harea
    · by_cases heq : g' = g
      · subst heq
        have hne : s.cache g' ≠ 0 := hcache ▸ Nat.ne_of_gt (h.within n a g' hn).1
        rw [if_neg hne, hcache]
        exact .inr (.inr rfl)
      · exact .inr (.inl ⟨hg', (update_of_ne heq ..).trans hcache⟩)
    · obtain ⟨-, ⟨⟩⟩ := ite_none_left_eq_some.mp hhand
      exact .inr (.inl ⟨hg, update_self ..⟩)

theorem uncache_exact (h : Exact s none) (hg : g < maxCacheOrder) (hne : s.cache g ≠ 0) :
    Exact { s with cache := update s.cache g 0 } (some (s.cache g, g)) := by
  have hswap := swapCache_exact 0 h hg
  rwa [if_neg hne] at hswap

/-- No area has two places. -/
structure Placed (s : State) : Prop where
  nodup : s.areas.Nodup
  pos : ∀ a ∈ s.areas, 0 < a
  uncached : ∀ g < maxCacheOrder, s.cache g ≠ 0 → s.cache g ∉ s.areas
  inj : ∀ g < maxCacheOrder, ∀ g' < maxCacheOrder, s.cache g ≠ 0 → s.cache g = s.cache g' → g = g'

theorem Inv.placed (h : Inv s F D L) : Placed s where
  nodup := h.nodup
  pos a ha := (h.page a ha).pos
  uncached g hg hne := (h.cached g hg hne).2.2
  inj := h.cacheInj

theorem Placed.congr (h : Placed s) (hareas : s'.areas = s.areas) (hcache : s'.cache = s.cache) :
    Placed s' := by
  refine ⟨?_, ?_, ?_, ?_⟩
  · rw [hareas]
    exact h.nodup
  · rw [hareas]
    exact h.pos
  · rw [hareas, hcache]
    exact h.uncached
  · rw [hcache]
    exact h.inj

theorem freeKmallocPages_exact (hplaced : Placed s) (h : Exact s none) (hpage : page ∈ s.areas)
    (dma : Bool) : Exact (freeKmallocPages s page (gfporder (orderOf s page)) dma) none := by
  have hdrop := drop_exact h hplaced.nodup hpage
  have huncached : ∀ g < maxCacheOrder, s.cache g ≠ page := by
    rintro g hg rfl
    exact hplaced.uncached g hg (Nat.ne_of_gt (hplaced.pos _ hpage)) hpage
  have hout : page ∉ s.areas.erase page := fun hin => (hplaced.nodup.mem_erase_iff.mp hin).1 rfl
  rw [freeKmallocPages]
  dsimp only
  split
  next hcache =>
    obtain ⟨-, hg⟩ := hcache
    have hswap := swapCache_exact page
      (by rw [if_neg (Nat.ne_of_gt (hplaced.pos page hpage))]; exact hdrop) hg
    split
    next hzero =>
      rw [if_pos hzero] at hswap
      exact hswap
    next hold =>
      rw [if_neg hold] at hswap
      refine freePages_exact hswap ?_
      rintro (hmem | ⟨g', hg', -, heq⟩)
      · exact hplaced.uncached _ hg hold (List.mem_of_mem_erase hmem)
      · dsimp only at heq
        by_cases hgo : g' = gfporder (orderOf s page)
        · rw [hgo, update_self] at heq
          exact huncached _ hg heq.symm
        · rw [update_of_ne hgo] at heq
          exact hgo (hplaced.inj g' hg' _ hg (heq ▸ hold) heq)
  · refine freePages_exact hdrop ?_
    rintro (hmem | ⟨g, hg, -, heq⟩)
    · exact hout hmem
    · exact huncached g hg heq

/-! ## Calls -/

theorem newPage_exact {size : Nat} (h : Exact s (some (page, gfporder order)))
    (hout : page ∉ s.areas) : Exact (newPage s order dma page size).1 none :=
  (foundCachedPage_exact h hout).congr rfl rfl rfl fun a => orderOf_foundIt a

/-- The cache is not asked for an area that is larger than those of the bucket. -/
def Frugal (s : State) : Call → Prop
  | .kmalloc size dma grant => ∀ order ∈ getOrder size, dma = false → grant = none →
      s.lists (order, false) = 0 → 0 < order → order < maxCacheOrder → s.cache order = 0
  | .kfree _ => True

theorem kmalloc_exact {size : Nat} {grant : Option Nat} (hinv : Inv s F D L) (h : Exact s none)
    (hgranted : granted s size grant) (hfrugal : Frugal s (.kmalloc size dma grant)) :
    Exact (kmalloc s size dma grant).1 none := by
  rw [kmalloc]
  split
  · exact h
  next order horder =>
    unfold allocate
    dsimp only
    split
    · split
      · exact h
      · exact h.congr rfl rfl rfl fun a => orderOf_foundIt a
    next hempty =>
      split
      next page =>
        have havail := available_of_granted hgranted horder
        exact newPage_exact (getKmallocPages_exact h havail) (getKmallocPages_fresh hinv havail).out
      · split
        next hcache =>
          obtain ⟨hdma, hg, hne⟩ := hcache
          subst hdma
          have hzero : order = 0 := by
            by_contra hpos
            exact hne (hfrugal order horder rfl rfl (not_not.mp hempty)
              (Nat.pos_of_ne_zero hpos) hg)
          subst hzero
          exact newPage_exact (uncache_exact h hg hne) (uncache_fresh hinv hg hne).out
        · exact h

theorem freed_exact (hplaced : Placed s) (h : Exact s none) (hpage : page ∈ s.areas) {d : Bool}
    (hfree : freed s page (orderOf s page, d) = some s') : Exact s' none := by
  rw [freed] at hfree
  split at hfree
  · obtain ⟨cell, -, heq⟩ := map_eq_some_iff.mp hfree
    cases cell with
    | none =>
      cases heq
      exact h
    | some cell =>
      cases heq
      obtain ⟨hareas, hcache, hheld, -⟩ := set_frame s (s.desc page).next cell
      have hset := h.congr hheld hareas hcache (orderOf_set s _ cell)
      have hmem : page ∈ (set s (s.desc page).next cell).areas := hareas ▸ hpage
      have hfreed := freeKmallocPages_exact (hplaced.congr hareas hcache) hset hmem d
      rw [orderOf_set] at hfreed
      exact hfreed
  · cases hfree
    exact h

theorem kfree_exact {x : Nat} (hinv : Inv s F D L) (h : Exact s none) (hlive : s.live x ≠ none)
    (hfree : kfree s x = some s') : Exact s' none := by
  obtain ⟨page, p, rfl, hh⟩ := hinv.handed hlive
  have hput : Exact (putBlock s page p) none := h.congr rfl rfl rfl orderOf_putBlock
  have hplaced : Placed (putBlock s page p) := hinv.placed.congr rfl rfl
  have horder : orderOf (putBlock s page p) page = orderOf s page := orderOf_putBlock page
  rw [kfree_eq hinv hh, ← horder] at hfree
  dsimp only at hfree
  split at hfree
  · split at hfree
    · cases hfree
      exact freeKmallocPages_exact hplaced hput hh.mem _
    · have hlisted : Exact (listPage (putBlock s page p) page
          (orderOf (putBlock s page p) page, D page)) none :=
        hput.congr rfl rfl rfl fun a => orderOf_listPage a
      have hplaced' : Placed (listPage (putBlock s page p) page
          (orderOf (putBlock s page p) page, D page)) := hplaced.congr rfl rfl
      refine freed_exact hplaced' hlisted hh.mem (d := D page) ?_
      rw [orderOf_listPage]
      exact hfree
  · exact freed_exact hplaced hput hh.mem hfree

end

/-! ## Runs -/

instance decidableFrugal (s : State) (call : Call) : Decidable (Frugal s call) :=
  match call with
  | .kmalloc size _ _ => inferInstanceAs (Decidable (∀ order ∈ getOrder size, _))
  | .kfree _ => .isTrue trivial

/-- The runs in which every call is frugal. -/
def frugalHeap : System State where
  init s := ∃ desc hdr, s = init desc hdr
  step s s' := ∃ call r, Frugal s call ∧ step s call = some (s', r)

theorem reachable_exact {s : State} (h : frugalHeap.Reachable s) :
    (∃ F D L, Inv s F D L) ∧ Exact s none := by
  refine h.invariant (I := fun s => (∃ F D L, Inv s F D L) ∧ Exact s none) ?_ ?_
  · rintro s ⟨desc, hdr, rfl⟩
    refine ⟨⟨_, _, _, init_inv desc hdr⟩, fun _ _ _ h => ?_, List.forall_mem_nil _,
      fun _ _ h => absurd rfl h, fun _ _ h => ?_, fun _ _ _ h => ?_⟩
    all_goals cases h
  · rintro s s' ⟨⟨F, D, L, hinv⟩, hexact⟩ ⟨call, r, hfrugal, hstep⟩
    refine ⟨(step_inv hinv hstep).1, ?_⟩
    cases call with
    | kmalloc size dma grant =>
      obtain ⟨⟨-, hgranted⟩, heq⟩ := ite_none_right_eq_some.mp hstep
      have hs' : (kmalloc s size dma grant).1 = s' := congrArg Prod.fst (some.inj heq)
      rw [← hs']
      exact kmalloc_exact hinv hexact hgranted hfrugal
    | kfree x =>
      obtain ⟨hlive, heq⟩ := ite_none_right_eq_some.mp hstep
      obtain ⟨s'', hfree, ⟨⟩⟩ := map_eq_some_iff.mp heq
      exact kfree_exact hinv hexact hlive hfree

/-- Every page of an area that was obtained with order `g` and not given back is in an area that a
bucket with areas of order `g` has, or in `kmalloc_cache[g]`; and these have all their pages. An
area that a bucket has is on a list of the bucket, or has no free block. -/
theorem pages_returned {s : State} (h : frugalHeap.Reachable s) :
    (∀ n a g, s.held n = some (a, g) → InArea a g n ∧
      ((a ∈ s.areas ∧ gfporder (orderOf s a) = g) ∨ (g < maxCacheOrder ∧ s.cache g = a))) ∧
    (∀ a ∈ s.areas, ∀ n, InArea a (gfporder (orderOf s a)) n →
      s.held n = some (a, gfporder (orderOf s a))) ∧
    (∀ g < maxCacheOrder, s.cache g ≠ 0 → ∀ n, InArea (s.cache g) g n →
      s.held n = some (s.cache g, g)) ∧
    ∃ L : Bucket → List Nat, (∀ b, Chain (nextPage s) (ptr (s.lists b)) (L b) none) ∧
      ∀ a ∈ s.areas, (∃ dma, a ∈ L (orderOf s a, dma)) ∨ (s.desc a).nfree = 0 ∧
        ∀ p ∈ blocks a (orderOf s a), s.live (p + headerSize) ≠ none := by
  obtain ⟨⟨F, D, L, hinv⟩, hexact⟩ := reachable_exact h
  refine ⟨fun n a g hn => ⟨(hexact.within n a g hn).2, ?_⟩, hexact.area, hexact.cache, L,
    hinv.chain, fun a ha => ?_⟩
  · rcases hexact.place n a g hn with harea | hcache | hhand
    · exact .inl harea
    · exact .inr hcache
    · cases hhand
  · by_cases hfree : F a = []
    · refine .inr ⟨by rw [(hinv.page a ha).nfree, hfree]; rfl, fun p hp => ?_⟩
      obtain ⟨-, size, hsize, -⟩ := (hinv.page a ha).used p hp (by simp [hfree])
      simp [hsize]
    · exact .inl ⟨D a, (hinv.listed _ a).mpr ⟨ha, rfl, hfree⟩⟩

/-- An area of two pages is left in the cache and used again. -/
theorem pages_returned_cached : ∃ s, frugalHeap.Reachable s ∧ s.held 2 = some (4096, 1) ∧
    s.areas = [] ∧ s.cache 1 = 4096 ∧ InArea 4096 1 2 := by
  have hinit : frugalHeap.Reachable blank := .init ⟨_, _, rfl⟩
  obtain ⟨s, hreach, hheld, hareas, hcache⟩ := hinit.runs (f := step) (g := Frugal)
    (l := [.kmalloc 5000 false (some 4096), .kfree 4120])
    (p := fun s => s.held 2 = some (4096, 1) ∧ s.areas = [] ∧ s.cache 1 = 4096)
    (fun _ call _ r hfrugal hstep => ⟨call, r, hfrugal, hstep⟩) (by decide)
  exact ⟨s, hreach, hheld, hareas, hcache, ((pages_returned hreach).1 _ _ _ hheld).1⟩

/-- The area of two pages goes from the cache to the bucket of 64 byte blocks, which lets go of it
as of one page. When that page is given back, nobody has the other one. -/
def leakyCalls : List Call :=
  [.kmalloc 5000 false (some 4096), .kfree 4120, .kmalloc 40 false none, .kfree 4120,
    .kmalloc 16 false (some 12288), .kfree 12312]

theorem pages_leaked : ∃ s, heap.Reachable s ∧ s.held 1 = none ∧ s.held 2 = some (4096, 1) ∧
    s.areas = [] ∧ s.cache 0 = 12288 ∧ s.cache 1 = 0 ∧ s.cache 2 = 0 := by
  have hinit : heap.Reachable blank := .init ⟨_, _, rfl⟩
  exact hinit.runs (f := step) (g := fun _ _ => True) (l := leakyCalls)
    (fun _ a _ r _ hstep => ⟨a, r, hstep⟩) (by decide)

end Sbckernel.Kmalloc
