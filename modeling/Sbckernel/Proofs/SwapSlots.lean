import Sbckernel.Lib.Tally
import Sbckernel.Proofs.SwapList

/-!
# The slots of the swap areas

As long as no area is turned off, `nr_swap_pages` is the number of slots with `swap_map` 0
of the areas that may be written to: a slot is taken and given back together with the
counter. The free slots of an area should also lie between its `lowest_bit` and
`highest_bit`, where `get_swap_page` looks for them. The first-free loop of `scan_swap_map`
sets `lowest_bit` to the slot that it takes, and a slot below it can be free too: one that
was given back while it is locked for I/O is passed over. Nothing lowers `lowest_bit` when
the lock is taken off, so that slot is lost (`slot_lost`). As long as no slot is passed over
like that, every free slot is between the bounds, and when `get_swap_page` returns 0, it has
looked at all of them.
-/

namespace Sbckernel.Swap

open Lib Function List

variable {q : SwapInfo} {i low v t e o c : Nat} {r : SwapInfo × Nat} {l good ts : List Nat}

/-! ## One area -/

/-- The number of free slots of an area that may be written to. -/
def areaFree (p : SwapInfo) : Int :=
  if p.flags = .writeok then rowTally (fun n => if n = 0 then 1 else 0) p.max p.swapMap else 0

/-- The area as `get_swap_page` needs it. -/
structure Bounded (p : SwapInfo) : Prop where
  reserved : p.swapMap 0 = swapMapReserved
  top : p.highestBit < p.max
  low : ∀ o < p.max, p.swapMap o = 0 → p.lowestBit ≤ o
  high : ∀ o < p.max, p.swapMap o = 0 → o ≤ p.highestBit

structure AreaOk (p : SwapInfo) : Prop where
  bounded : p.flags = .writeok → Bounded p
  empty : p.flags = .used → ∀ o, p.swapMap o = 0

/-- It takes a slot and passes over one that is free. -/
def Skips (p : SwapInfo) : Prop :=
  FirstFree p ∧ ∃ o ∈ firstFree p p.lowestBit, ∃ i < o, p.lowestBit ≤ i ∧ p.swapMap i = 0

instance decidableSkips (p : SwapInfo) : Decidable (Skips p) :=
  inferInstanceAs (Decidable (_ ∧ _))

section
variable {p : SwapInfo} {n : Nat}

theorem areaFree_nonneg (p : SwapInfo) : 0 ≤ areaFree p := by
  rw [areaFree]
  split
  · exact rowTally_nonneg (fun x => by split <;> decide) ..
  · exact le_rfl

theorem one_le_areaFree (hw : p.flags = .writeok) (ho : o < p.max) (hzero : p.swapMap o = 0) :
    1 ≤ areaFree p := by
  rw [areaFree, if_pos hw]
  have hle := le_rowTally (f := fun n => if n = 0 then 1 else 0) (fun x => by split <;> decide) ho
    p.swapMap
  rwa [if_pos hzero] at hle

/-- One slot changes. -/
theorem areaFree_setMap (hflags : q.flags = p.flags) (hmax : q.max = p.max)
    (hmap : q.swapMap = update p.swapMap o v) (hw : p.flags = .writeok) (ho : o < p.max) :
    areaFree q =
      areaFree p + ((if v = 0 then 1 else 0) - if p.swapMap o = 0 then 1 else 0) := by
  rw [areaFree, areaFree, hflags, if_pos hw, if_pos hw, hmax, hmap,
    rowTally_change ho fun j hj => update_of_ne hj .., update_self]

/-- Slot 0 is reserved. -/
theorem Bounded.ne_zero (h : Bounded p) (hfree : ¬Taken p o) : o ≠ 0 := by
  rintro rfl
  exact hfree (.inl (h.reserved ▸ by decide))

theorem gotPage_bounded (h : Bounded p) (hfree : ¬Taken p o)
    (hlow : ∀ i < p.max, p.swapMap i = 0 → i ≠ o → low ≤ i) :
    Bounded (gotPage { p with lowestBit := low, clusterNr := c } o).1 where
  reserved := (update_of_ne (h.ne_zero hfree).symm ..).trans h.reserved
  top := by
    show (if o = p.highestBit then p.highestBit - 1 else p.highestBit) < p.max
    have htop := h.top
    split <;> omega
  low i hi (hzero : update p.swapMap o 1 i = 0) := by
    show low ≤ i
    have := hlow i hi
    grind [update_apply]
  high i hi (hzero : update p.swapMap o 1 i = 0) := by
    show i ≤ if o = p.highestBit then p.highestBit - 1 else p.highestBit
    have := h.high i hi
    grind [update_apply]

theorem Scan.bounded (h : Scan p r) (hp : Bounded p)
    (hskips : r.2 ≠ 0 → ¬Skips p) : Bounded r.1 := by
  cases h with
  | took hfree hhigh hlow =>
    refine gotPage_bounded hp hfree fun i hi hzero hne => ?_
    have hbit := hp.low i hi hzero
    rcases hlow with rfl | ⟨rfl, hfirst, hfind⟩
    · exact hbit
    · by_contra hlt
      exact hskips (hp.ne_zero hfree) ⟨hfirst, _, hfind, i, Nat.lt_of_not_le hlt, hbit, hzero⟩
  | full hnone => exact { hp with }

theorem gotPage_free (h : Bounded p) (hw : p.flags = .writeok) (hfree : ¬Taken p o)
    (hhigh : o ≤ p.highestBit) :
    areaFree (gotPage { p with lowestBit := low, clusterNr := c } o).1 = areaFree p - 1 := by
  have hzero : p.swapMap o = 0 := not_not.mp fun hne => hfree (.inl hne)
  have hmap : areaFree (gotPage { p with lowestBit := low, clusterNr := c } o).1 = _ :=
    areaFree_setMap (p := p) rfl rfl rfl hw (Nat.lt_of_le_of_lt hhigh h.top)
  rw [hmap, if_pos hzero, if_neg Nat.one_ne_zero]
  omega

theorem Scan.free (h : Scan p r) (hp : Bounded p) (hw : p.flags = .writeok) :
    areaFree r.1 = areaFree p - if r.2 ≠ 0 then 1 else 0 := by
  cases h with
  | took hfree hhigh hlow =>
    rw [gotPage_free hp hw hfree hhigh]
    exact congrArg (areaFree p - ·) (if_pos (hp.ne_zero hfree)).symm
  | full => simp [areaFree]

end

/-! ## All areas -/

def freeSlots (s : State) : Int := weight areaFree (Finset.range maxSwapfiles) s.info

structure SlotInv (s : State) : Prop where
  count : s.nrSwapPages = freeSlots s
  area : ∀ t, AreaOk (s.info t)

section
variable {s s' : State} {type : Nat} {p : SwapInfo}

section
variable (h : SlotInv s)
include h

theorem SlotInv.congr (hfree : ∀ t, areaFree (s'.info t) = areaFree (s.info t))
    (harea : ∀ t, AreaOk (s'.info t)) (hpages : s'.nrSwapPages = s.nrSwapPages) : SlotInv s' where
  count := by
    rw [hpages, h.count, freeSlots, freeSlots, weight, weight]
    exact Finset.sum_congr rfl fun t _ => (hfree t).symm
  area := harea

theorem SlotInv.same (hinfo : s'.info = s.info)
    (hpages : s'.nrSwapPages = s.nrSwapPages) : SlotInv s' :=
  h.congr (fun t => by rw [hinfo]) (hinfo ▸ h.area) hpages

theorem setInfo_areaOk (hp : AreaOk p) (t : Nat) : AreaOk ((setInfo s type p).info t) :=
  (forall_update_iff s.info fun _ => AreaOk).mpr ⟨hp, fun t _ => h.area t⟩ t

/-- The counter changes with the area. -/
theorem SlotInv.change (ht : type < maxSwapfiles) (hp : AreaOk p)
    (hpages : s'.nrSwapPages = s.nrSwapPages + (areaFree p - areaFree (s.info type)))
    (hinfo : s'.info = (setInfo s type p).info) : SlotInv s' where
  count := by
    rw [hpages, h.count, freeSlots, freeSlots, hinfo]
    exact (weight_update (Finset.mem_range.mpr ht) s.info p).symm
  area := hinfo ▸ setInfo_areaOk h hp

/-- The free slots of the area stay as they are. -/
theorem SlotInv.touch (hp : AreaOk p)
    (hfree : areaFree p = areaFree (s.info type)) : SlotInv (setInfo s type p) :=
  h.congr ((forall_update_iff s.info fun t p => areaFree p = areaFree (s.info t)).mpr
    ⟨hfree, fun _ _ => rfl⟩) (setInfo_areaOk h hp) rfl

/-! ## `get_swap_page` -/

theorem tryArea_slotInv (ht : type < maxSwapfiles)
    (hskips : (tryArea s type).2 ≠ 0 → ¬Skips (s.info type)) : SlotInv (tryArea s type).1 := by
  rw [tryArea] at hskips ⊢
  split at hskips
  next hw =>
    rw [if_pos hw]
    have hp := (h.area type).bounded hw
    have hscan := scanSwapMap_scan (s.info type)
    have harea : AreaOk (scanSwapMap (s.info type)).1 :=
      ⟨fun _ => hscan.bounded hp hskips, fun hused => by
        cases (hscan.fields.1.trans hw).symm.trans hused⟩
    refine h.change ht harea ?_ ?_
    · rw [hscan.free hp hw]
      dsimp only
      split
      · show s.nrSwapPages - 1 = _
        omega
      · show s.nrSwapPages = _
        omega
    · dsimp only
      split <;> rfl
  next hw => rwa [if_neg hw]

end

theorem tryArea_of_ne (hne : t ≠ type) : (tryArea s type).1.info t = s.info t := by
  rw [tryArea]
  split
  · dsimp only
    split <;> exact setInfo_of_ne hne ..
  · rfl

/-- A search in an area that finds nothing. -/
theorem tryArea_failed (h : SlotInv s) (hgot : (tryArea s type).2 = 0) :
    (tryArea s type).1 = s ∧ (s.info type).flags ≠ .writeok ∨
      firstFree (s.info type) (s.info type).lowestBit = none ∧
        ∃ c n, (tryArea s type).1 =
          setInfo s type { s.info type with clusterNr := c, clusterNext := n } := by
  rw [tryArea] at hgot ⊢
  split at hgot
  next hw =>
    rw [if_pos hw]
    dsimp only at hgot ⊢
    rw [if_neg (not_not.mpr hgot)]
    have hp := (h.area type).bounded hw
    have hscan := scanSwapMap_scan (s.info type)
    generalize scanSwapMap (s.info type) = r at hscan hgot ⊢
    cases hscan with
    | took hfree => exact absurd hgot (hp.ne_zero hfree)
    | full hnone => exact .inr ⟨hnone, _, _, rfl⟩
  next hw =>
    rw [if_neg hw]
    exact .inl ⟨rfl, hw⟩

/-- A search that finds nothing makes no area one where a slot is passed over. -/
theorem tryArea_skips (h : SlotInv s) (hgot : (tryArea s type).2 = 0)
    (hskips : ¬Skips (s.info t)) : ¬Skips ((tryArea s type).1.info t) := by
  rcases tryArea_failed h hgot with ⟨heq, -⟩ | ⟨hnone, c, n, heq⟩
  · rwa [heq]
  · rw [heq]
    rcases eq_or_ne t type with rfl | hne
    · rw [setInfo_self]
      rintro ⟨-, o, ho, -⟩
      have hcongr : firstFree { s.info t with clusterNr := c, clusterNext := n }
          (s.info t).lowestBit = firstFree (s.info t) (s.info t).lowestBit := by
        apply firstFree_congr <;> rfl
      cases (hcongr.trans hnone).symm.trans ho
    · rwa [setInfo_of_ne hne]

theorem Search.slotInv (h : Search s ts s' e) (hinv : SlotInv s)
    (hts : ∀ t ∈ ts, t < maxSwapfiles) (hskips : ∀ t ∈ ts, ¬Skips (s.info t)) : SlotInv s' := by
  induction h with
  | exhausted s => exact hinv
  | found hgot =>
    exact (tryArea_slotInv hinv (hts _ mem_cons_self) fun _ => hskips _ mem_cons_self).same rfl rfl
  | failed hgot hrest ih =>
    obtain ⟨ht, hts⟩ := forall_mem_cons.mp hts
    exact ih (tryArea_slotInv hinv ht fun hne => absurd hgot hne) hts
      fun t ht => tryArea_skips hinv hgot (hskips t (mem_cons_of_mem _ ht))

/-- Nothing was found in any of the areas. -/
theorem Search.taken (h : Search s ts s' e) (he : e = 0)
    (hinv : SlotInv s) (hts : ∀ t ∈ ts, t < maxSwapfiles) (ht : t ∈ ts)
    (hw : (s.info t).flags = .writeok) : firstFree (s.info t) (s.info t).lowestBit = none := by
  induction h with
  | exhausted s => cases ht
  | found hgot => exact absurd he (swpEntry_ne_zero hgot)
  | @failed s s' u e ts hgot hrest ih =>
    obtain ⟨hu, hts⟩ := forall_mem_cons.mp hts
    have hinv' := tryArea_slotInv hinv hu fun hne => absurd hgot hne
    by_cases hne : t = u
    · subst hne
      rcases tryArea_failed hinv hgot with ⟨-, hnot⟩ | ⟨hnone, -⟩
      · exact absurd hw hnot
      · exact hnone
    · have hsame := tryArea_of_ne (s := s) hne
      have hrest := ih he hinv' hts ((mem_cons.mp ht).resolve_left hne) (by rwa [hsame])
      rwa [hsame] at hrest

theorem getSwapPage_slotInv (hl : ListInv s l) (h : SlotInv s) (hget : getSwapPage s = some (s', e))
    (hskips : ∀ t < maxSwapfiles, (s.info t).flags = .writeok → ¬Skips (s.info t)) :
    SlotInv s' := by
  by_cases hpages : s.nrSwapPages = 0
  · cases (getSwapPage_of_zero hpages).symm.trans hget
    exact h
  · obtain ⟨ts, s1, e1, heq, hsearch, hts, -⟩ := getSwapPage_finishes hl hpages
    cases heq.symm.trans hget
    exact hsearch.slotInv h (fun t ht => hl.lt_max (hts ht)) fun t ht =>
      hskips t (hl.lt_max (hts ht)) ((hl.mem t).mp (hts ht))

/-- No slot is found: there is none. -/
theorem getSwapPage_taken (hl : ListInv s l) (h : SlotInv s) (hget : getSwapPage s = some (s', 0))
    (hw : (s.info type).flags = .writeok) (ho : o < (s.info type).max) : Taken (s.info type) o := by
  have hmem := (hl.mem type).mpr hw
  have hp := (h.area type).bounded hw
  by_cases hpages : s.nrSwapPages = 0
  · -- The counter is exact, so no slot is free.
    left
    intro hzero
    have hle : areaFree (s.info type) ≤ freeSlots s :=
      Finset.single_le_sum (f := fun t => areaFree (s.info t)) (fun t _ => areaFree_nonneg _)
        (Finset.mem_range.mpr (hl.lt_max hmem))
    have hrow := one_le_areaFree hw ho hzero
    rw [← h.count, hpages] at hle
    omega
  · obtain ⟨ts, s1, e, heq, hsearch, hts, hall⟩ := getSwapPage_finishes hl hpages
    cases heq.symm.trans hget
    have hnone := hsearch.taken rfl h (fun t ht => hl.lt_max (hts ht)) (hall rfl hmem) hw
    by_cases hzero : (s.info type).swapMap o = 0
    · have hhigh := hp.high o ho hzero
      exact scanFrom_eq_none hnone (hp.low o ho hzero) (by omega)
    · exact .inl hzero

/-! ## The other steps -/

theorem Slot.lt_max {entry : Nat} (h : Slot s entry) (hl : ListInv s l) :
    swpType entry < maxSwapfiles :=
  Nat.lt_of_lt_of_le h.2.2.1 hl.nr

/-- A slot in use gets another number of users. -/
theorem setMap_areaOk (h : AreaOk p) (hzero : p.swapMap o ≠ 0)
    (hres : p.swapMap o ≠ swapMapReserved) (hv : v = 0 → p.lowestBit ≤ o ∧ o ≤ p.highestBit) :
    AreaOk { p with swapMap := update p.swapMap o v } where
  bounded hw := by
    have hp := h.bounded hw
    have hne : 0 ≠ o := by
      rintro rfl
      exact hres hp.reserved
    refine ⟨(update_of_ne hne ..).trans hp.reserved, hp.top, fun i hi => ?_, fun i hi => ?_⟩
    · have := hp.low i hi
      grind [update_apply]
    · have := hp.high i hi
      grind [update_apply]
  empty hu := absurd (h.empty hu o) hzero

theorem areaFree_users (ho : o < p.max) (hzero : p.swapMap o ≠ 0) (hv : v ≠ 0) :
    areaFree { p with swapMap := update p.swapMap o v } = areaFree p := by
  by_cases hw : p.flags = .writeok
  · have hmap : areaFree { p with swapMap := update p.swapMap o v } = _ :=
      areaFree_setMap (p := p) rfl rfl rfl hw ho
    rw [hmap, if_neg hv, if_neg hzero]
    omega
  · rw [areaFree, areaFree, if_neg hw, if_neg hw]

theorem areaFree_users_zero (ho : o < p.max) (hzero : p.swapMap o ≠ 0) (hw : p.flags = .writeok)
    (hv : v = 0) : areaFree { p with swapMap := update p.swapMap o v } = areaFree p + 1 := by
  have hmap : areaFree { p with swapMap := update p.swapMap o v } = _ :=
    areaFree_setMap (p := p) rfl rfl rfl hw ho
  rw [hmap, if_pos hv, if_neg hzero]
  omega

theorem swapDuplicate_slotInv (h : SlotInv s) (entry : Nat) : SlotInv (swapDuplicate s entry) := by
  rw [swapDuplicate]
  split
  next hslot =>
    dsimp only
    split
    · exact h
    next hused =>
      obtain ⟨hzero, hres⟩ := not_or.mp hused
      exact h.touch (setMap_areaOk (h.area _) hzero hres fun hv => absurd hv (Nat.succ_ne_zero _))
        (areaFree_users hslot.2.2.2 hzero (Nat.succ_ne_zero _))
  · exact h

theorem widen_areaOk (h : AreaOk p) (ho : o < p.max) : AreaOk (widen p o) where
  bounded hw := by
    have hp := h.bounded hw
    refine ⟨hp.reserved, ?_, fun i hi hzero => ?_, fun i hi hzero => ?_⟩
    · have htop := hp.top
      grind [widen]
    · have hle := hp.low i hi hzero
      grind [widen]
    · have hle := hp.high i hi hzero
      grind [widen]
  empty := h.empty

section
variable (h : SlotInv s)
include h

theorem release_slotInv (ht : type < maxSwapfiles)
    (ho : o < (s.info type).max) (hflags : (s.info type).flags ≠ .unused)
    (hbits : (s.info type).lowestBit ≤ o ∧ o ≤ (s.info type).highestBit) :
    SlotInv (release s type o) := by
  rw [release]
  split
  · exact h
  next hused =>
    obtain ⟨hzero, hres⟩ := not_or.mp hused
    have harea := setMap_areaOk (h.area type) (v := (s.info type).swapMap o - 1) hzero hres
      fun _ => hbits
    have hw : (s.info type).flags = .writeok := by
      cases hf : (s.info type).flags with
      | unused => exact absurd hf hflags
      | used => exact absurd ((h.area type).empty hf o) hzero
      | writeok => rfl
    split
    next hlast =>
      refine h.change ht harea ?_ rfl
      rw [areaFree_users_zero ho hzero hw hlast]
      show s.nrSwapPages + 1 = _
      omega
    next hlast => exact h.touch harea (areaFree_users ho hzero hlast)

theorem rewind_slotInv (type : Nat) : SlotInv (rewind s type) := by
  rw [rewind]
  split
  · exact h.same rfl rfl
  · exact h

omit h in
theorem swapFree_slotInv (hl : ListInv s l) (h : SlotInv s) (entry : Nat) :
    SlotInv (swapFree s entry) := by
  rw [swapFree]
  split
  next hfrees =>
    obtain ⟨hslot, hflags⟩ := hfrees
    have ho := hslot.2.2.2
    have hwiden : SlotInv (setInfo s (swpType entry)
        (widen (s.info (swpType entry)) (swpOffset entry))) :=
      h.touch (widen_areaOk (h.area _) ho) rfl
    refine rewind_slotInv (release_slotInv hwiden (hslot.lt_max hl) ?_ ?_ ?_) _
      <;> rw [setInfo_self]
    · exact ho
    · exact hflags
    · grind [widen]
  · exact h

theorem setLock_slotInv (type offset : Nat) (b : Bool) : SlotInv (setLock s type offset b) :=
  h.touch ⟨fun hw => { (h.area type).bounded hw with }, (h.area type).empty⟩ rfl

end

theorem sysSwapon_slotInv (hl : ListInv s l) (h : SlotInv s) (prefer : Option Nat) :
    SlotInv (sysSwapon s prefer) := by
  have hflags := findUnused_flags hl
  rw [sysSwapon]
  split
  · exact h
  · refine SlotInv.same (h.touch ⟨fun hw => Flags.noConfusion hw, fun _ _ => rfl⟩ ?_) rfl rfl
    rw [areaFree, areaFree, hflags]
    rfl

/-- The slots that are good are free. -/
theorem good_free {n : Nat} (hnodup : good.Nodup) (hlt : ∀ i ∈ good, i < n) (hv : v ≠ 0) :
    rowTally (fun m => if m = 0 then 1 else 0) n (fun o => if o ∈ good then 0 else v) =
      good.length := by
  have hcell : ∀ o, (if (if o ∈ good then 0 else v) = 0 then (1 : Int) else 0) =
      if o ∈ good then 1 else 0 := fun o => by
    by_cases ho : o ∈ good <;> simp [ho, hv]
  have hfilter : (Finset.range n).filter (· ∈ good) = good.toFinset := by
    ext i
    simp only [Finset.mem_filter, Finset.mem_range, mem_toFinset]
    exact ⟨And.right, fun hi => ⟨hlt i hi, hi⟩⟩
  rw [rowTally]
  simp only [hcell]
  rw [Finset.sum_boole, hfilter, toFinset_card_of_nodup hnodup]

theorem headD_le (hsorted : good.Pairwise (· < ·)) (hi : i ∈ good) : good.headD 0 ≤ i := by
  cases good with
  | nil => cases hi
  | cons a good =>
    rcases mem_cons.mp hi with rfl | hi
    · exact le_rfl
    · exact le_of_lt ((pairwise_cons.mp hsorted).1 i hi)

theorem le_getLastD (hsorted : good.Pairwise (· < ·)) (hi : i ∈ good) : i ≤ good.getLastD 0 := by
  rcases eq_nil_or_concat good with rfl | ⟨good, z, rfl⟩
  · cases hi
  · rw [concat_eq_append] at hsorted hi ⊢
    rw [getLastD_concat]
    grind

/-- The area with the slots that `sys_swapon` has found. -/
theorem found_areaOk {found : Found} (hvalid : found.Valid) (hw : p.flags = .writeok)
    (hlow : p.lowestBit = found.good.headD 0) (hhigh : p.highestBit = found.good.getLastD 0)
    (hmax : p.max = found.good.getLastD 0 + 1)
    (hmap : p.swapMap = fun o => if o ∈ found.good then 0 else swapMapReserved) :
    AreaOk p ∧ areaFree p = found.good.length := by
  obtain ⟨-, hsorted, hpos⟩ := hvalid
  have hgood : ∀ o, p.swapMap o = 0 → o ∈ found.good := fun o hzero => by
    rw [hmap] at hzero
    by_contra ho
    cases (if_neg ho).symm.trans hzero
  have hres : 0 ∉ found.good := fun hmem => Nat.lt_irrefl 0 (hpos 0 hmem).1
  refine ⟨⟨fun _ => ⟨?_, ?_, ?_, ?_⟩, fun hu => ?_⟩, ?_⟩
  · rw [hmap]
    exact if_neg hres
  · rw [hhigh, hmax]
    exact Nat.lt_succ_self _
  · exact fun o _ hzero => hlow ▸ headD_le hsorted (hgood o hzero)
  · exact fun o _ hzero => hhigh ▸ le_getLastD hsorted (hgood o hzero)
  · cases hw.symm.trans hu
  · rw [areaFree, if_pos hw, hmax, hmap]
    exact good_free (hsorted.imp Nat.ne_of_lt)
      (fun i hi => Nat.lt_succ_of_le (le_getLastD hsorted hi)) (by decide)

theorem Relinked.slotInv (h : Relinked s s') (hinv : SlotInv s) : SlotInv s' := by
  refine hinv.congr (fun t => ?_) (fun t => ?_) h.pages
  · rw [h.info t]
    rfl
  · rw [h.info t]
    exact ⟨fun hw => { (hinv.area t).bounded hw with }, (hinv.area t).empty⟩

theorem enter_slotInv {b : Busy} {n : Int} (hl : ListInv s l) (h : SlotInv s)
    (hb : s.busy type = some b) (hp : AreaOk p) (hn : n = areaFree p - areaFree (s.info type))
    (hins : insertArea { setInfo s type p with nrSwapPages := s.nrSwapPages + n } type = some s') :
    SlotInv s' := by
  have htype := hl.busy_not_mem hb
  have hlinked : Linked { setInfo s type p with nrSwapPages := s.nrSwapPages + n } l :=
    (hl.setInfo htype p).same rfl rfl rfl
  obtain ⟨l', -, hrel, -⟩ := insertArea_linked hlinked hl.length_le htype hins
  refine hrel.slotInv (h.change (Nat.lt_of_lt_of_le (hl.busy_lt hb) hl.nr) hp ?_ rfl)
  rw [← hn]

theorem swaponDone_slotInv (hl : ListInv s l) (h : SlotInv s)
    (hb : s.busy type = some .swapon) {found : Option Found} (hvalid : ∀ f ∈ found, f.Valid)
    (hdone : swaponDone s type found = some s') : SlotInv (idle s' type) := by
  have hbusy := hl.busy type _ hb
  have hold : areaFree (s.info type) = 0 := by
    rw [areaFree, hbusy]
    rfl
  cases found with
  | none =>
    cases hdone
    refine SlotInv.same (h.touch ⟨fun hw => Flags.noConfusion hw, fun hu => Flags.noConfusion hu⟩
      ?_) rfl rfl
    rw [hold]
    rfl
  | some found =>
    refine (enter_slotInv hl h hb ?_ ?_ hdone).same rfl rfl
    · exact (found_areaOk (hvalid found rfl) rfl rfl rfl rfl rfl).1
    · rw [hold, (found_areaOk (hvalid found rfl) rfl rfl rfl rfl rfl).2]
      omega

/-! ## Runs -/

/-- No area is turned off. -/
def keepsAreas : Call → Bool
  | .swapoff _ => false
  | .swapoffDone .. => false
  | _ => true

/-- When `get_swap_page` is called, there is no area where it would pass over a free slot. -/
def PassesNone (s : State) : Call → Prop
  | .getSwapPage => ∀ t < maxSwapfiles, (s.info t).flags = .writeok → ¬Skips (s.info t)
  | _ => True

instance decidablePassesNone (s : State) (call : Call) : Decidable (PassesNone s call) := by
  cases call
  case getSwapPage =>
    exact inferInstanceAs
      (Decidable (∀ t < maxSwapfiles, (s.info t).flags = .writeok → ¬Skips (s.info t)))
  all_goals exact instDecidableTrue

theorem step_slotInv {call : Call} (hl : ListInv s l) (h : SlotInv s) (hkeeps : keepsAreas call)
    (hpasses : PassesNone s call) (hstep : step s call = some (s', e)) : SlotInv s' := by
  cases step_effect hstep with
  | swapon prefer => exact sysSwapon_slotInv hl h prefer
  | swaponDone hb hvalid hdone => exact swaponDone_slotInv hl h hb hvalid hdone
  | swapoff => cases hkeeps
  | swapoffDone => cases hkeeps
  | getSwapPage hget => exact getSwapPage_slotInv hl h hget hpasses
  | swapDuplicate entry => exact swapDuplicate_slotInv h entry
  | swapFree entry => exact swapFree_slotInv hl h entry
  | waits => exact h.same rfl rfl
  | locks _ type offset b => exact (setLock_slotInv h type offset b).same rfl rfl

theorem init_slotInv (below : Int) : SlotInv (init below) where
  count := by
    rw [freeSlots, weight]
    exact (Finset.sum_eq_zero fun t _ => rfl).symm
  area t := ⟨fun hw => Flags.noConfusion hw, fun hu => Flags.noConfusion hu⟩

end

/-- Runs in which no area is turned off. -/
def activeAreas (below : Int) : System State where
  init s := s = init below
  step s s' := ∃ call e, keepsAreas call ∧ step s call = some (s', e)

/-- And `get_swap_page` passes over no free slot. -/
def noneSkipped (below : Int) : System State where
  init s := s = init below
  step s s' := ∃ call e, keepsAreas call ∧ PassesNone s call ∧ step s call = some (s', e)

theorem slotInv {below : Int} {s : State} (h : (noneSkipped below).Reachable s) :
    ∃ l, ListInv s l ∧ SlotInv s := by
  refine h.invariant (I := fun s => ∃ l, ListInv s l ∧ SlotInv s) ?_ ?_
  · rintro s rfl
    exact ⟨[], init_listInv below, init_slotInv below⟩
  · rintro s s' ⟨l, hl, hinv⟩ ⟨call, e, hkeeps, hpasses, hstep⟩
    obtain ⟨l', hl'⟩ := step_listInv hl hstep
    exact ⟨l', hl', step_slotInv hl hinv hkeeps hpasses hstep⟩

theorem no_slot_lost {below : Int} {s : State} (h : (noneSkipped below).Reachable s) :
    s.nrSwapPages = freeSlots s ∧
    (∀ t, (s.info t).flags = .writeok → ∀ o < (s.info t).max, (s.info t).swapMap o = 0 →
      (s.info t).lowestBit ≤ o ∧ o ≤ (s.info t).highestBit) ∧
    ∀ s', getSwapPage s = some (s', 0) →
      ∀ t, (s.info t).flags = .writeok → ∀ o < (s.info t).max, Taken (s.info t) o := by
  obtain ⟨l, hl, hinv⟩ := slotInv h
  refine ⟨hinv.count, ?_, ?_⟩
  · intro t hw o ho hzero
    have hp := (hinv.area t).bounded hw
    exact ⟨hp.low o ho hzero, hp.high o ho hzero⟩
  · intro s' hget t hw o ho
    exact getSwapPage_taken hl hinv hget hw ho

/-- The I/O is over before another slot is taken. -/
theorem no_slot_lost_unlocked : ∃ s, (noneSkipped 0).Reachable s ∧
    (s.info 0).swapMap 1 = 0 ∧ (s.info 0).lowestBit ≤ 1 := by
  have hinit : (noneSkipped 0).Reachable (init 0) := .init rfl
  obtain ⟨s, hreach, hw, hmax, hzero⟩ := hinit.runs (f := step)
    (g := fun s call => keepsAreas call ∧ PassesNone s call)
    (l := [.swapon none, .swaponDone 0 (some ⟨none, 1, [1, 2, 3]⟩), .getSwapPage, .getSwapPage,
      .rwSwapPage (swpEntry 0 1), .swapFree (swpEntry 0 1), .rwDone 0 1, .getSwapPage])
    (p := fun s => (s.info 0).flags = .writeok ∧ 1 < (s.info 0).max ∧ (s.info 0).swapMap 1 = 0)
    (fun _ call _ e hg hstep => ⟨call, e, hg.1, hg.2, hstep⟩) (by decide)
  exact ⟨s, hreach, hzero, ((no_slot_lost hreach).2.1 0 hw 1 hmax hzero).1⟩

/-- Three slots are taken and the second one is given back. Slot 1 is given back while its I/O is
not over. -/
def skippingCalls : List Call :=
  [.swapon none, .swaponDone 0 (some ⟨none, 1, [1, 2, 3]⟩), .getSwapPage, .getSwapPage,
    .getSwapPage, .swapFree (swpEntry 0 2), .rwSwapPage (swpEntry 0 1), .swapFree (swpEntry 0 1),
    .getSwapPage, .rwDone 0 1]

/-- Now slot 1 is free and nobody finds it. -/
theorem slot_lost : ∃ s, (activeAreas 0).Reachable s ∧ (s.info 0).flags = .writeok ∧
    1 < (s.info 0).max ∧ ¬Taken (s.info 0) 1 ∧ (s.info 0).lowestBit = 2 ∧
    ∃ s', getSwapPage s = some (s', 0) := by
  have hinit : (activeAreas 0).Reachable (init 0) := .init rfl
  obtain ⟨s, hreach, hw, hmax, hfree, hlow, hget⟩ := hinit.runs (f := step)
    (g := fun _ call => keepsAreas call) (l := skippingCalls)
    (p := fun s => (s.info 0).flags = .writeok ∧ 1 < (s.info 0).max ∧ ¬Taken (s.info 0) 1 ∧
      (s.info 0).lowestBit = 2 ∧ (getSwapPage s).map Prod.snd = some 0)
    (fun _ call _ e hkeeps hstep => ⟨call, e, hkeeps, hstep⟩) (by decide)
  obtain ⟨⟨s', e⟩, heq, rfl⟩ := Option.map_eq_some_iff.mp hget
  exact ⟨s, hreach, hw, hmax, hfree, hlow, s', heq⟩

end Sbckernel.Swap
