import Mathlib.Data.List.Perm.Subperm
import Sbckernel.Proofs.KmallocTake

/-!
# `kfree` keeps the invariant

The block goes on the chain of its page. A page that was full goes back on its list, and
one that is completely free is taken off and given up; a page with a single block is given
up without having been on the list. The search for the cell that points to the page ends
since the list holds areas only, each once.
-/

namespace Sbckernel.Kmalloc

open Lib Function List

variable {x : Nat} {b : Bucket} {xs ys : List Nat}

section
variable {s s' : State} {F : Nat → List Nat} {D : Nat → Bool} {L : Bucket → List Nat}
  {page p a : Nat}

/-! ## `kfree` -/

/-- A pointer that has been handed out. -/
structure Handed (s : State) (F : Nat → List Nat) (D : Nat → Bool) (page p : Nat) : Prop where
  mem : page ∈ s.areas
  block : p ∈ blocks page (orderOf s page)
  out : p ∉ F page
  flags : (s.hdr p).bhFlags = mfType (D page)

theorem Inv.handed (h : Inv s F D L) (hlive : s.live x ≠ none) :
    ∃ page p, x = p + headerSize ∧ Handed s F D page p := by
  obtain ⟨size, hsize⟩ := Option.ne_none_iff_exists'.mp hlive
  obtain ⟨page, hpage, p, hp, rfl⟩ := h.live x size hsize
  have hok := h.page page hpage
  have hout : p ∉ F page := fun hmem => hlive (hok.free p hmem).2.2
  exact ⟨page, p, rfl, hpage, hp, hout, (hok.used p hp hout).1⟩

/-- The page descriptor is found from the pointer. -/
theorem PageOk.pageDesc {dma : Bool} {l : List Nat} (h : PageOk s page dma l)
    (hp : p ∈ blocks page (orderOf s page)) :
    p + headerSize - (p + headerSize) % pageSize = page := by
  obtain ⟨hle, -, hlt⟩ := block_bounds h.order hp
  have haligned := h.aligned
  rw [headerSize, pageSize] at *
  omega

/-- What `kfree` does with a pointer that has been handed out. -/
theorem kfree_eq (h : Inv s F D L) (hh : Handed s F D page p) :
    kfree s (p + headerSize) =
      let b := (orderOf s page, D page)
      if (s.desc page).nfree = 0 then
        if nblocks b.1 = 1 then some (freeKmallocPages (putBlock s page p) page (gfporder b.1) b.2)
        else freed (listPage (putBlock s page p) page b) page b
      else freed (putBlock s page p) page b := by
  have hok := h.page page hh.mem
  have hdma : decide ((s.hdr p).bhFlags = mfDma) = D page := by
    rw [hh.flags]
    cases D page <;> decide
  have hused : ¬(¬(s.hdr p).bhFlags = mfDma ∧ (s.hdr p).bhFlags ≠ mfUsed) := by
    rw [hh.flags]
    cases D page <;> decide
  have hlt : ¬orderOf s page ≥ sizes.length := by
    have ho := hok.order
    rw [show sizes.length = 14 from rfl]
    omega
  rw [kfree, if_neg (Nat.ne_of_gt (Nat.add_pos_right p (by decide)))]
  rw [hok.pageDesc hh.block, Nat.add_sub_cancel, if_neg, if_neg hused, hdma]
  · rfl
  · rintro (hnext | hge)
    · exact hnext hok.next
    · exact hlt hge

section putBlock

theorem desc_putBlock_self : (putBlock s page p).desc page =
    { s.desc page with firstfree := p, nfree := (s.desc page).nfree + 1 } := update_self ..

theorem hdr_putBlock_of_ne {q : Nat} (hne : q ≠ p) : (putBlock s page p).hdr q = s.hdr q :=
  update_of_ne hne ..

theorem hdr_putBlock_self :
    (putBlock s page p).hdr p = ⟨mfFree, (s.desc page).firstfree⟩ := update_self ..

theorem live_putBlock_of_ne (hne : x ≠ p + headerSize) :
    (putBlock s page p).live x = s.live x := update_of_ne hne ..

theorem live_putBlock_self : (putBlock s page p).live (p + headerSize) = none :=
  update_self ..

theorem orderOf_putBlock (a : Nat) : orderOf (putBlock s page p) a = orderOf s a :=
  field_update PageDescriptor.order rfl a

theorem nextPage_putBlock : nextPage (putBlock s page p) = nextPage s :=
  funext fun a => congrArg ptr (field_update PageDescriptor.next rfl a)

theorem putBlock_others (h : Inv s F D L) (hh : Handed s F D page p) :
    ∀ a ∈ s.areas, a ≠ page → PageOk (putBlock s page p) a (D a) (F a) :=
  h.others hh.mem hh.block (fun _ hne => update_of_ne hne ..) rfl
    (fun _ hne => hdr_putBlock_of_ne hne) fun _ hne => live_putBlock_of_ne hne

theorem putBlock_page (h : Inv s F D L) (hh : Handed s F D page p) :
    PageOk (putBlock s page p) page (D page) (p :: F page) := by
  have hok := h.page page hh.mem
  have hne : ∀ q ∈ F page, q ≠ p := fun q hq heq => hh.out (heq ▸ hq)
  have hpos : p ≠ 0 := by
    have hle := (block_bounds hok.order hh.block).1
    have hpos := hok.pos
    omega
  refine ⟨hok.pos, hok.aligned, ?_, ?_, ?_, ?_, ⟨?_, ?_⟩, nodup_cons.mpr ⟨hh.out, hok.nodup⟩,
    fun q hq => ?_, fun q hq hout => ?_⟩
  · rw [desc_putBlock_self]
    exact hok.next
  · rw [orderOf_putBlock]
    exact hok.order
  · rw [orderOf_putBlock]
    exact hok.owned
  · rw [desc_putBlock_self]
    exact congrArg (· + 1) hok.nfree
  · rw [desc_putBlock_self]
    exact ptr_of_ne hpos
  · rw [bhNext, hdr_putBlock_self]
    refine hok.chain.congr fun q hq => ?_
    rw [bhNext, bhNext, hdr_putBlock_of_ne (hne q hq)]
  · rw [orderOf_putBlock]
    rcases mem_cons.mp hq with rfl | hq
    · exact ⟨hh.block, by rw [hdr_putBlock_self], live_putBlock_self⟩
    · rw [hdr_putBlock_of_ne (hne q hq),
        live_putBlock_of_ne fun heq => hne q hq (Nat.add_right_cancel heq)]
      exact hok.free q hq
  · obtain ⟨hqp, hqF⟩ := not_or.mp (mt mem_cons.mpr hout)
    rw [orderOf_putBlock] at hq ⊢
    rw [hdr_putBlock_of_ne hqp, live_putBlock_of_ne fun heq => hqp (Nat.add_right_cancel heq)]
    exact hok.used q hq hqF

theorem putBlock_live {size : Nat} (hx : (putBlock s page p).live x = some size) :
    s.live x = some size ∧ x ≠ p + headerSize := by
  by_cases hxp : x = p + headerSize
  · rw [hxp, live_putBlock_self] at hx
    cases hx
  · rw [live_putBlock_of_ne hxp] at hx
    exact ⟨hx, hxp⟩

/-- The page had free blocks and has one more. -/
theorem putBlock_inv (h : Inv s F D L) (hh : Handed s F D page p) (hF : F page ≠ []) :
    Inv (putBlock s page p) (update F page (p :: F page)) D L := by
  rw [← update_eq_self page D]
  refine h.change h.nodup (fun a => (or_iff_right_of_imp fun heq => heq ▸ hh.mem).symm)
    (putBlock_page h hh) (putBlock_others h hh) (fun a _ => orderOf_putBlock a)
    (fun b => ⟨?_, h.listNodup b⟩) (fun b => ?_) (fun _ _ _ => Iff.rfl)
    (fun x size hx => .inl (putBlock_live hx).1) rfl rfl (h.uncached hh.mem)
  · rw [nextPage_putBlock]
    exact h.chain b
  · rw [orderOf_putBlock, h.listed]
    simp [hF, hh.mem]

theorem desc_listPage_self :
    (listPage s page b).desc page = { s.desc page with next := s.lists b } := update_self ..

theorem desc_listPage_of_ne (hne : a ≠ page) :
    (listPage s page b).desc a = s.desc a := update_of_ne hne ..

theorem orderOf_listPage (a : Nat) : orderOf (listPage s page b) a = orderOf s a :=
  field_update PageDescriptor.order rfl a

/-- The page was full and goes on its list. -/
theorem listPage_inv (h : Inv s F D L) (hh : Handed s F D page p) (hF : F page = []) :
    Inv (listPage (putBlock s page p) page (orderOf s page, D page)) (update F page [p]) D
      (update L (orderOf s page, D page) (page :: L (orderOf s page, D page))) := by
  have hout : ∀ b, page ∉ L b := fun b hmem => ((h.listed b page).mp hmem).2.2 hF
  have hpage := putBlock_page h hh
  rw [hF] at hpage
  have horder : ∀ a, orderOf (listPage (putBlock s page p) page (orderOf s page, D page)) a =
      orderOf s a := fun a => by rw [orderOf_listPage, orderOf_putBlock]
  rw [← update_eq_self page D, update_self]
  refine h.change h.nodup (fun a => (or_iff_right_of_imp fun heq => heq ▸ hh.mem).symm)
    (hpage.congr desc_listPage_self (h.lists_aligned _) hpage.owned (fun _ _ => rfl) fun _ _ => rfl)
    (fun a ha hne => ?_)
    (fun a _ => horder a) (h.push hout hpage.pos (fun a hne => ?_)
      (congrArg PageDescriptor.next desc_listPage_self) rfl) (fun b => ?_)
    (fun b a hne => by simp [mem_push, hne])
    (fun x size (hx : (putBlock s page p).live x = some size) => .inl (putBlock_live hx).1) rfl rfl
    (h.uncached hh.mem)
  · have hok := putBlock_others h hh a ha hne
    exact hok.congr (desc_listPage_of_ne hne) hok.next hok.owned (fun _ _ => rfl) fun _ _ => rfl
  · rw [nextPage, desc_listPage_of_ne hne, ← nextPage, nextPage_putBlock]
  · rw [horder, mem_push]
    simp [hout, eq_comm]

end putBlock

/-! An area that is completely free is given up. -/

/-- The area is taken off its list, if it is on one, and nothing in it is live. -/
theorem Inv.drop (h : Inv s F D L) {L' : Bucket → List Nat}
    (hpages : ∀ a ∈ s.areas, a ≠ page → PageOk s' a (D a) (F a))
    (horder : ∀ a, orderOf s' a = orderOf s a) (hcache : s'.cache = s.cache)
    (hheld : s'.held = s.held) (hareas : s'.areas = s.areas)
    (hchain : ∀ b, Chain (nextPage s') (ptr (s'.lists b)) (L' b) none)
    (hlist : ∀ b, L' b = (L b).erase page)
    (hlive : ∀ x size, s'.live x = some size → s.live x = some size ∧
      ∀ p ∈ blocks page (orderOf s page), x ≠ p + headerSize) :
    Inv { s' with areas := s'.areas.erase page } F D L' := by
  have hmem : ∀ a, a ∈ s.areas.erase page ↔ a ≠ page ∧ a ∈ s.areas := fun a =>
    h.nodup.mem_erase_iff
  rw [hareas]
  refine ⟨h.nodup.erase page, fun a ha => ?_, hchain, fun b => ?_, fun b a => ?_,
    fun x size hx => ?_, fun g hg hne => ?_, ?_⟩
  · obtain ⟨hne, ha⟩ := (hmem a).mp ha
    have hok := hpages a ha hne
    exact hok.congr rfl hok.next hok.owned (fun _ _ => rfl) fun _ _ => rfl
  · rw [hlist]
    exact (h.listNodup b).erase page
  · rw [hlist, (h.listNodup b).mem_erase_iff, h.listed]
    show _ ↔ a ∈ s.areas.erase page ∧ (orderOf s' a, D a) = b ∧ _
    rw [hmem, horder, and_assoc]
  · obtain ⟨hold, hnot⟩ := hlive x size hx
    obtain ⟨a, ha, q, hq, heq⟩ := h.live x size hold
    have hne : a ≠ page := by
      rintro rfl
      exact hnot q hq heq
    refine ⟨a, (hmem a).mpr ⟨hne, ha⟩, q, ?_, heq⟩
    show q ∈ blocks a (orderOf s' a)
    rwa [horder]
  · rw [hcache] at hne ⊢
    rw [hheld]
    obtain ⟨haligned, howned, hout⟩ := h.cached g hg hne
    exact ⟨haligned, howned, fun hin => hout ((hmem _).mp hin).2⟩
  · rw [hcache]
    exact h.cacheInj

/-- The cell that points to a page of a list. -/
theorem findCell_eq {cell : Cell} {fuel : Nat}
    (hchain : Chain (nextPage s) (ptr (get s cell)) (xs ++ page :: ys) none) (hxs : page ∉ xs)
    (hfuel : xs.length < fuel) :
    findCell s page fuel cell = some (some ((xs.getLast?.map Cell.next).getD cell)) := by
  induction xs generalizing cell fuel with
  | nil =>
    obtain ⟨fuel, rfl⟩ := Nat.exists_eq_succ_of_ne_zero (Nat.ne_of_gt hfuel)
    obtain ⟨heq, hne⟩ := ptr_eq_some hchain.1
    rw [findCell, heq, if_neg hne, if_pos rfl]
    rfl
  | cons x xs ih =>
    obtain ⟨fuel, rfl⟩ := Nat.exists_eq_succ_of_ne_zero (Nat.ne_zero_of_lt hfuel)
    obtain ⟨heq, hne⟩ := ptr_eq_some hchain.1
    have hxp : x ≠ page := fun h => hxs (h ▸ mem_cons_self)
    have hrest : Chain (nextPage s) (ptr (get s (.next x))) (xs ++ page :: ys) none := hchain.2
    rw [findCell, heq, if_neg hne, if_neg hxp, ih hrest
      (fun hmem => hxs (mem_cons_of_mem _ hmem)) (Nat.lt_of_succ_lt_succ hfuel)]
    cases xs with
    | nil => rfl
    | cons y xs =>
      rw [getLast?_cons_cons]
      rfl

/-- The page is taken off its list. -/
theorem set_chain (h : Inv s F D L) (hL : L b = xs ++ page :: ys) (b' : Bucket) :
    let s' := set s (s.desc page).next ((xs.getLast?.map Cell.next).getD (.head b))
    Chain (nextPage s') (ptr (s'.lists b')) ((L b').erase page) none := by
  intro s'
  have hnd := h.listNodup b
  rw [hL] at hnd
  have hpxs : page ∉ xs := fun hmem =>
    (nodup_append.mp hnd).2.2 page hmem page mem_cons_self rfl
  have hchain := h.chain b
  rw [hL] at hchain
  have hmem : ∀ a ∈ L b, a ∈ s.areas ∧ (orderOf s a, D a) = b := fun a ha =>
    ⟨((h.listed b a).mp ha).1, ((h.listed b a).mp ha).2.1⟩
  have hother : b' ≠ b → page ∉ L b' := by
    intro hne hin
    have hb := (hmem page (by rw [hL]; simp)).2
    exact hne (((h.listed b' page).mp hin).2.1.symm.trans hb)
  cases hlast : xs.getLast? with
  | none =>
    rw [getLast?_eq_none_iff] at hlast
    subst hlast
    show Chain (nextPage s) (ptr (update s.lists b (s.desc page).next b')) _ _
    by_cases hb : b' = b
    · subst hb
      rw [update_self, hL, nil_append, erase_cons_head]
      exact hchain.2
    · rw [update_of_ne hb, erase_of_not_mem (hother hb)]
      exact h.chain b'
  | some q =>
    have hq : q ∈ L b := by
      rw [hL]
      exact mem_append_left _ (mem_of_getLast? hlast)
    have hs' : s' = set s (s.desc page).next (.next q) := by
      show set s _ _ = _
      rw [hlast]
      rfl
    have hnext : nextPage s' = update (nextPage s) q (nextPage s page) := by
      rw [hs']
      funext a
      by_cases ha : a = q
      · subst ha
        have hself : (set s (s.desc page).next (.next a)).desc a =
            { s.desc a with next := (s.desc page).next } := update_self ..
        rw [update_self, nextPage, hself, nextPage]
      · rw [update_of_ne ha]
        exact congrArg (fun d : PageDescriptor => ptr d.next) (update_of_ne ha ..)
    have hlists : s'.lists = s.lists := by rw [hs']; rfl
    rw [hnext, hlists]
    by_cases hb : b' = b
    · subst hb
      rw [hL, erase_append_right _ hpxs, erase_cons_head]
      exact hchain.remove hnd hlast
    · rw [erase_of_not_mem (hother hb)]
      refine (h.chain b').congr fun a ha => update_of_ne ?_ _ _
      rintro rfl
      exact hb (((h.listed b' a).mp ha).2.1.symm.trans (hmem a hq).2)

theorem orderOf_set (s : State) (n : Nat) (cell : Cell) (a : Nat) :
    orderOf (set s n cell) a = orderOf s a := by
  cases cell with
  | head b => rfl
  | next q => exact field_update PageDescriptor.order rfl a

/-- What a store into a list cell changes. -/
theorem set_page (h : Inv s F D L) {n : Nat} (hn : n % pageSize = 0) (cell : Cell)
    (ha : a ∈ s.areas) : PageOk (set s n cell) a (D a) (F a) := by
  have hok := h.page a ha
  cases cell with
  | head b => exact hok.congr rfl hok.next hok.owned (fun _ _ => rfl) fun _ _ => rfl
  | next q =>
    by_cases hne : a = q
    · subst hne
      exact hok.congr (update_self ..) hn hok.owned (fun _ _ => rfl) fun _ _ => rfl
    · exact hok.congr (update_of_ne hne ..) hok.next hok.owned (fun _ _ => rfl) fun _ _ => rfl

theorem set_frame (s : State) (n : Nat) (cell : Cell) :
    (set s n cell).areas = s.areas ∧ (set s n cell).cache = s.cache ∧
      (set s n cell).held = s.held ∧ (set s n cell).live = s.live := by
  cases cell <;> exact ⟨rfl, rfl, rfl, rfl⟩

theorem live_freeKmallocPages (s : State) (page order : Nat) (dma : Bool) :
    (freeKmallocPages s page order dma).live = s.live := by
  simp only [freeKmallocPages, freePages]
  split_ifs <;> rfl

theorem freeListed_inv (h : Inv s F D L) (hpage : page ∈ s.areas)
    (hfull : (F page).length = nblocks (orderOf s page)) :
    ∃ s', freeListed s page (orderOf s page, D page) = some s' ∧ s'.live = s.live ∧
      ∃ L', Inv s' F D L' := by
  have hok := h.page page hpage
  have hne : F page ≠ [] := by
    intro hnil
    rw [hnil] at hfull
    exact absurd hfull (Nat.ne_of_lt (table hok.order).1)
  have hmem : page ∈ L (orderOf s page, D page) := (h.listed _ _).mpr ⟨hpage, rfl, hne⟩
  obtain ⟨xs, ys, hL⟩ := append_of_mem hmem
  have hnd := h.listNodup (orderOf s page, D page)
  have hlength : (L (orderOf s page, D page)).length ≤ s.areas.length :=
    (subperm_of_subset hnd fun a ha => ((h.listed _ a).mp ha).1).length_le
  rw [hL, length_append, length_cons] at hlength
  rw [hL] at hnd
  have hpxs : page ∉ xs := fun hin =>
    (nodup_append.mp hnd).2.2 page hin page mem_cons_self rfl
  have hchain := h.chain (orderOf s page, D page)
  rw [hL] at hchain
  have hhead : Chain (nextPage s) (ptr (get s (.head (orderOf s page, D page))))
      (xs ++ page :: ys) none := hchain
  rw [freeListed, findCell_eq hhead hpxs (by omega)]
  obtain ⟨hareas, hcache, hheld, hlive⟩ := set_frame s (s.desc page).next
    ((xs.getLast?.map Cell.next).getD (.head (orderOf s page, D page)))
  refine ⟨_, rfl, (live_freeKmallocPages ..).trans hlive, fun b => (L b).erase page,
    freeKmallocPages_inv (h.drop (fun a ha _ => set_page h hok.next _ ha) (orderOf_set s _ _)
      hcache hheld hareas (set_chain h hL) (fun _ => rfl) fun x size hx => ?_)
      hok.aligned ?_ ?_ ?_ _⟩
  · rw [hlive] at hx
    refine ⟨hx, fun p hp heq => ?_⟩
    -- All blocks of the page are on its chain.
    have hperm : (F page).Perm (blocks page (orderOf s page)) := by
      refine (subperm_of_subset hok.nodup fun q hq => (hok.free q hq).1).perm_of_length_le ?_
      rw [length_blocks, hfull]
    rw [heq, (hok.free p (hperm.mem_iff.mpr hp)).2.2] at hx
    cases hx
  · rw [hheld]
    exact hok.owned
  · rw [hareas, h.nodup.mem_erase_iff]
    exact fun hin => hin.1 rfl
  · rw [hcache]
    exact h.uncached hpage

theorem freed_inv (h : Inv s F D L) (hpage : page ∈ s.areas) :
    ∃ s', freed s page (orderOf s page, D page) = some s' ∧ s'.live = s.live ∧
      ∃ L', Inv s' F D L' := by
  rw [freed]
  split
  next hfull =>
    rw [(h.page page hpage).nfree] at hfull
    exact freeListed_inv h hpage hfull
  · exact ⟨s, rfl, rfl, L, h⟩

theorem kfree_inv (h : Inv s F D L) (hlive : s.live x ≠ none) :
    ∃ s', kfree s x = some s' ∧ s'.live = update s.live x none ∧ ∃ F' L', Inv s' F' D L' := by
  obtain ⟨page, p, rfl, hh⟩ := h.handed hlive
  have hok := h.page page hh.mem
  rw [kfree_eq h hh]
  dsimp only
  split
  next hzero =>
    have hF : F page = [] := length_eq_zero_iff.mp (hok.nfree.symm.trans hzero)
    split
    next hone =>
      refine ⟨_, rfl, live_freeKmallocPages .., F, L,
        freeKmallocPages_inv (h.drop (putBlock_others h hh) orderOf_putBlock rfl
        rfl rfl (fun b => ?_) (fun b => ?_) fun x size hx => ?_) hok.aligned hok.owned ?_
        (h.uncached hh.mem) _⟩
      · rw [nextPage_putBlock]
        exact h.chain b
      · rw [erase_of_not_mem]
        exact fun hmem => ((h.listed b page).mp hmem).2.2 hF
      · obtain ⟨hold, hne⟩ := putBlock_live hx
        refine ⟨hold, fun q hq heq => hne ?_⟩
        rw [heq, eq_of_one_block hone hq hh.block]
      · exact fun hin => (h.nodup.mem_erase_iff.mp hin).1 rfl
    · obtain ⟨s', hfreed, hlive, L', hinv⟩ := freed_inv (listPage_inv h hh hF) hh.mem
      rw [orderOf_listPage, orderOf_putBlock] at hfreed
      exact ⟨s', hfreed, hlive, _, L', hinv⟩
  next hpos =>
    have hF : F page ≠ [] := by
      intro hnil
      rw [hnil] at hok
      exact hpos hok.nfree
    have hinv := putBlock_inv h hh hF
    obtain ⟨s', hfreed, hlive, L', hinv'⟩ := freed_inv hinv hh.mem
    rw [orderOf_putBlock] at hfreed
    exact ⟨s', hfreed, hlive, _, L', hinv'⟩

end

end Sbckernel.Kmalloc
