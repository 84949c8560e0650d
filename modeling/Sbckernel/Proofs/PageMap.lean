import Sbckernel.Proofs.AddressSpace

/-!
# The calls as operations on a map of pages

What an address space is for is a partial map from pages to their attributes.
`pageAt` reads it as a page fault does, with `find_vma`. The segments of the
lists say the same in another form, with one tag for all pages of an area, and
the results about them carry over.
-/

namespace Sbckernel.Mm

open Lib Segment Option

variable {K : Kmalloc} {len start : Nat}

/-- The attributes of a page; the offset in the file or in the shared memory
segment only where there is one. -/
structure PageAttr where
  flags : VmFlags
  inode : Option InodePtr
  ops : Option OpsPtr
  pte : ULong
  offset : Option ULong
  deriving DecidableEq

/-- The attributes of the page at `addr` in an area. -/
def VmArea.pageAttr (area : VmArea) (addr : Nat) : PageAttr where
  flags := area.vmFlags
  inode := area.vmInode
  ops := area.vmOps
  pte := area.vmPte
  offset :=
    if area.vmInode ≠ none ∨ area.vmFlags &&& vmShm ≠ 0 then
      some (area.vmOffset + (BitVec.ofNat 32 addr - BitVec.ofNat 32 area.vmStart))
    else none

/-- The map of pages: page `n` is the one at address `n * PAGE_SIZE`. -/
def pageAt (s : MmStruct) (n : Nat) : Option PageAttr :=
  match findVma s (n * pageSize) with
  | none => none
  | some p =>
    if (s.mem p).vmStart ≤ n * pageSize then some ((s.mem p).pageAttr (n * pageSize)) else none

def PageTag.attr (t : PageTag) (addr : Nat) : PageAttr where
  flags := t.flags
  inode := t.inode
  ops := t.ops
  pte := t.pte
  offset := t.base.map (· + BitVec.ofNat 32 addr)

theorem attr_tag (area : VmArea) (addr : Nat) : area.tag.attr addr = area.pageAttr addr := by
  have hoffset : area.vmOffset - BitVec.ofNat 32 area.vmStart + BitVec.ofNat 32 addr =
      area.vmOffset + (BitVec.ofNat 32 addr - BitVec.ofNat 32 area.vmStart) := by ring
  rw [PageTag.attr, VmArea.pageAttr, VmArea.tag]
  congr 1
  by_cases h : area.vmInode ≠ none ∨ area.vmFlags &&& vmShm ≠ 0
  · rw [if_pos h, if_pos (show area.hasOffset from h)]
    exact congrArg some hoffset
  · rw [if_neg h, if_neg (show ¬area.hasOffset from h)]
    rfl

section
variable {s s' : MmStruct} {ps ps' : List VmPtr}

section
variable (h : AreaList s ps)
include h

theorem AreaList.pageAt_eq (n : Nat) :
    pageAt s n = (tagAt (ps.map s.seg) (n * pageSize)).map (·.attr (n * pageSize)) := by
  rw [pageAt]
  rcases h.findVma_cases (n * pageSize) with ⟨hnone, hall⟩ | ⟨l, p, l', rfl, hsome, hend, hl⟩
  · rw [hnone, tagAt_eq_none]
    · rfl
    · refine List.forall_mem_map.mpr fun q hq hin => ?_
      exact absurd hin.2 (not_lt.mpr (hall q hq))
  · have hbefore : tagAt (l.map s.seg) (n * pageSize) = none :=
      tagAt_eq_none (List.forall_mem_map.mpr fun q hq hin =>
        absurd hin.2 (not_lt.mpr (hl q hq)))
    rw [hsome, List.map_append, tagAt_append, hbefore, none_or, List.map_cons, tagAt_cons_eq]
    dsimp only
    by_cases hstart : (s.mem p).vmStart ≤ n * pageSize
    · rw [if_pos hstart, if_pos ⟨hstart, hend⟩, map_some]
      exact congrArg some (attr_tag ..).symm
    · have hafter : tagAt (l'.map s.seg) (n * pageSize) = none :=
        tagAt_eq_none (List.forall_mem_map.mpr fun q hq hin => by
          have hle : (s.mem q).vmStart ≤ n * pageSize := hin.1
          have := h.le_right hq
          omega)
      rw [if_neg hstart, if_neg fun hin => hstart hin.1, hafter, map_none]

theorem pageAt_removed {a e : Nat} (hr : Removed a e s ps s' ps') (n : Nat) :
    pageAt s' n = if a ≤ n * pageSize ∧ n * pageSize < e then none else pageAt s n := by
  rw [hr.list.pageAt_eq, h.pageAt_eq, hr.segs, tagAt_flatMap_cut, apply_ite (Option.map _)]
  rfl

theorem pageAt_mapped {area : VmArea} {s1 : MmStruct} {ps1 : List VmPtr}
    (hm : Mapped area s ps s' ps' s1 ps1) (n : Nat) :
    pageAt s' n = if area.vmStart ≤ n * pageSize ∧ n * pageSize < area.vmEnd then
      some (area.pageAttr (n * pageSize)) else pageAt s n := by
  rw [hm.list.pageAt_eq, hm.inserted.tagAt, apply_ite (Option.map _), map_some,
    ← hm.removed.list.pageAt_eq, pageAt_removed h hm.removed]
  show (if area.vmStart ≤ n * pageSize ∧ n * pageSize < area.vmEnd then
    some (area.tag.attr (n * pageSize)) else _) = _
  split
  · rw [attr_tag]
  · rfl

end

/-! ## The four calls and the merge -/

/-- The areas that `cut` leaves, and `total_vm` when they are all there. -/
theorem Counted.cut_size (h : Counted 0 s ps) {addr : Nat} (hrange : UserRange addr len)
    (hun : Unmapping K addr (addr + pageAlign len) s ps s' ps') :
    size pageSize ((ps.map s.seg).flatMap (cut addr (addr + pageAlign len))) < 2 ^ 32 ∧
      s'.totalVm = BitVec.ofNat 32
        (size pageSize ((ps.map s.seg).flatMap (cut addr (addr + pageAlign len)))) ∧
      ∀ t ∈ (ps.map s.seg).flatMap (cut addr (addr + pageAlign len)),
        1 ≤ (t.hi - t.lo) / pageSize := by
  obtain ⟨hle, halign, -⟩ := hrange.bounds
  have ha : pageSize ∣ addr := Nat.dvd_of_mod_eq_zero hrange.1
  have he : pageSize ∣ addr + pageAlign len := Nat.dvd_add ha (Nat.dvd_of_mod_eq_zero halign)
  have hsum := size_flatMap_cut ha he h.aligned
  refine ⟨?_, ?_, fun t ht => ?_⟩
  · have := h.list.sorted.size_le pageSize (Nat.zero_le maxUserAddr) (fun _ _ => Nat.zero_le _)
      fun t ht => (h.edges t ht).2.2
    simp only [maxUserAddr, taskSize] at this
    omega
  · have htotal := h.total
    rw [add_zero, ← hsum, BitVec.ofNat_add] at htotal
    rw [hun.totalVm, htotal, add_sub_cancel_right]
  · obtain ⟨r, hr, htr⟩ := List.mem_flatMap.mp ht
    have hproper := proper_cut (h.list.sorted.proper r hr) htr
    obtain ⟨hlo, hhi⟩ := edges_flatMap_cut ha he h.aligned t ht
    exact Nat.div_pos (Nat.le_of_dvd (by omega) (Nat.dvd_sub hhi hlo)) (by decide)

/-- `do_munmap` keeps the pages outside of the range, `total_vm` and what each inode is counted
beyond its areas, exactly if it gets a structure for each piece: one for each end of the range
inside of an area. -/
theorem munmap_keeps_the_rest {K : Kmalloc} (hK : K.Regular) (h : Counted 0 s ps) (addr len : Nat)
    (hok : (doMunmap K s addr len).2 = .ok) :
    ((∀ n, n * pageSize < addr ∨ addr + pageAlign len ≤ n * pageSize →
      pageAt (doMunmap K s addr len).1 n = pageAt s n) ∧
    ∃ ps', Counted 0 (doMunmap K s addr len).1 ps' ∧
      ∀ i, (doMunmap K s addr len).1.iCount i - users i (ps'.map (doMunmap K s addr len).1.seg) =
        s.iCount i - users i (ps.map s.seg)) ↔
    ∀ i < pieces addr (addr + pageAlign len) (ps.map s.seg), K.Gives (s.kmallocs + i) := by
  have hrange : UserRange addr len := by
    by_contra hno
    rw [doMunmap_invalid s hno] at hok
    cases hok
  obtain ⟨-, ps', hun⟩ := doMunmap_pieces (K := K) h.list hrange
  constructor
  · rintro ⟨-, ps'', hcounted, -⟩
    -- a piece without a structure is missing, but not in `total_vm`
    obtain ⟨hlt, htotal, hunit⟩ := h.cut_size hrange hun
    obtain rfl : ps'' = ps' := hcounted.list.inorder.symm.trans hun.list.inorder
    have hall : ps''.map (doMunmap K s addr len).1.seg =
        (ps.map s.seg).flatMap (cut addr (addr + pageAlign len)) := by
      by_contra hne
      have hless := size_lt_of_sublist hun.sublist hne hunit
      have heq := hcounted.total
      rw [add_zero, htotal] at heq
      have := congrArg BitVec.toNat heq
      rw [BitVec.toNat_ofNat, BitVec.toNat_ofNat, Nat.mod_eq_of_lt hlt,
        Nat.mod_eq_of_lt (hless.trans hlt)] at this
      omega
    intro i hi inUse
    obtain ⟨inUse', hgave⟩ := hun.gave hall i hi
    rw [hK _ inUse inUse']
    exact hgave
  · intro hgives
    have hsegs := hun.all hgives
    have hunmapped : Unmapped addr (addr + pageAlign len) s ps (doMunmap K s addr len).1 ps' :=
      { hun with segs := hsegs }
    refine ⟨fun n hn => ?_, ps', h.unmapped hrange hunmapped, fun i => ?_⟩
    · rw [pageAt_removed h.list hunmapped.toRemoved, if_neg (by omega)]
    · have := hun.count hsegs i
      omega

theorem munmap_keeps_the_rest_two :
    pageAt (doMunmap nextKmalloc twoPages 0x10000 0x1000).1 0x11 = pageAt twoPages 0x11 := by
  obtain ⟨ps, hs⟩ := reachable_counted twoPages_reachable
  exact ((munmap_keeps_the_rest (fun _ _ _ => rfl) hs 0x10000 0x1000 (by decide)).mpr
    fun _ _ _ => rfl).1 0x11 (by decide)

/-- Without memory for what is left of a cut area, the whole area is gone: the
second page, which no one asked to unmap, is lost, and still counted. -/
theorem munmap_loses_page : ∃ K : Kmalloc, (∃ ps, Counted 0 twoPages ps) ∧
    (doMunmap K twoPages 0x10000 0x1000).2 = .ok ∧ (pageAt twoPages 0x11).isSome ∧
    pageAt (doMunmap K twoPages 0x10000 0x1000).1 0x11 = none ∧
    (doMunmap K twoPages 0x10000 0x1000).1.mmap = none ∧
    (doMunmap K twoPages 0x10000 0x1000).1.totalVm = 1 :=
  ⟨⟨fun _ _ => none, nofun⟩, reachable_counted twoPages_reachable, by decide⟩

/-- The end of a range that has not been refused. -/
theorem wrap_of_le (h : start ≤ wrap (start + pageAlign len)) :
    wrap (start + pageAlign len) = start + pageAlign len := by
  simp only [pageAlign, pageMask, wrap, pageSize] at *
  omega

/-- A change of flags that has reached the end of its range. -/
theorem Swept.pageAt (h : AreaList s ps) {g : VmFlags → VmFlags} {r : MmStruct × Errno} {b : Nat}
    (hs : Swept start (wrap (start + pageAlign len)) (PageTag.withFlags g) s ps r b ps')
    (hle : start ≤ wrap (start + pageAlign len)) (hok : r.2 = .ok) (n : Nat) :
    pageAt r.1 n = if start ≤ n * pageSize ∧ n * pageSize < start + pageAlign len then
      (pageAt s n).map fun attr => { attr with flags := g attr.flags } else pageAt s n := by
  rw [hs.list.pageAt_eq, h.pageAt_eq, hs.patched.tagAt, hs.done hok, wrap_of_le hle,
    apply_ite (Option.map _), map_map, map_map]
  rfl

/-- The calls do to the map of pages what they are for. `do_munmap` fails, with
`EINVAL` and without any change, exactly for arguments outside of user space. -/
theorem calls_refine_page_map {K : Kmalloc} (hK : K.Succeeds) (h : AreaList s ps) :
    (∀ addr len, ((doMunmap K s addr len).2 = .ok ∧ ∀ n, pageAt (doMunmap K s addr len).1 n =
        if addr ≤ n * pageSize ∧ n * pageSize < addr + pageAlign len then none else pageAt s n) ∨
      (¬(addr % pageSize = 0 ∧ addr ≤ maxUserAddr ∧ len ≤ maxUserAddr - addr) ∧
        doMunmap K s addr len = (s, .einval))) ∧
    (∀ cur file addr len prot flags off r, flags &&& mapFixed ≠ 0 →
      (doMmap cur K s file addr len prot flags off).2 = .ok r →
      ∃ area : VmArea, (pageAlign len ≠ 0 → ∃ count count',
          callMmap file (mmapArea s file addr (pageAlign len) prot flags off) count =
            .ok (area, count')) ∧
        ∀ n, pageAt (doMmap cur K s file addr len prot flags off).1 n =
          if addr ≤ n * pageSize ∧ n * pageSize < addr + pageAlign len then
            some (area.pageAttr (n * pageSize)) else pageAt s n) ∧
    (∀ start len prot, (sysMprotect K s start len prot).2 = .ok →
      prot &&& ~~~(protRead ||| protWrite ||| protExec) = 0 ∧
      ∀ n, pageAt (sysMprotect K s start len prot).1 n =
        if start ≤ n * pageSize ∧ n * pageSize < start + pageAlign len then
          (pageAt s n).map fun attr => { attr with
            flags := prot.setWidth 16 ||| (attr.flags &&& ~~~(vmRead ||| vmWrite ||| vmExec)) }
        else pageAt s n) ∧
    (∀ cur start len on, (doMlock cur K s start len on).2 = .ok →
      ∀ n, pageAt (doMlock cur K s start len on).1 n =
        if start ≤ n * pageSize ∧ n * pageSize < start + pageAlign len then
          (pageAt s n).map fun attr => { attr with
            flags := if on then attr.flags ||| vmLocked else attr.flags &&& ~~~vmLocked }
        else pageAt s n) ∧
    ∀ startAddr endAddr n, pageAt (mergeSegments s startAddr endAddr) n = pageAt s n := by
  refine ⟨fun addr len => ?_, fun cur file addr len prot flags off r hfixed hok => ?_,
    fun start len prot hok => ⟨?_, fun n => ?_⟩,
    fun cur start len on hok n => ?_, fun startAddr endAddr n => ?_⟩
  · by_cases hrange : UserRange addr len
    · obtain ⟨hok, ps', hun, -⟩ := doMunmap_spec hK h hrange
      exact .inl ⟨hok, pageAt_removed h hun.toRemoved⟩
    · exact .inr ⟨hrange, doMunmap_invalid s hrange⟩
  · rcases doMmap_cases hK h cur file addr len prot flags off (.inl hfixed) with
      ⟨hsame, hzero⟩ | ⟨r', hr', hmmap⟩
    · refine ⟨mmapArea s file addr (pageAlign len) prot flags off,
        fun hne => absurd (hzero r hok) hne, fun n => ?_⟩
      rw [hsame, hzero r hok, if_neg (by omega)]
    · obtain rfl : r' = addr := hr' hfixed
      rcases hmmap.cases with ⟨⟨error, herror⟩, -⟩ |
        ⟨area, count, count', hcall, -, ps', s1, ps1, hm⟩
      · rw [herror] at hok
        cases hok
      · refine ⟨area, fun _ => ⟨count, count', hcall⟩, fun n => ?_⟩
        obtain ⟨hlo, hhi⟩ := callMmap_bounds hcall
        have hmax : pageAlign len ≤ maxUserAddr := hmmap.range.2.2.trans (Nat.sub_le ..)
        rw [mmapArea_bounds hmmap.range (pageAlign_idem hmax)] at hhi
        have hlo' : area.vmStart = r' := hlo
        rw [pageAt_mapped h hm, hlo', hhi]
  · -- other bits than the three of a protection are refused
    rw [sysMprotect] at hok
    split at hok
    · cases hok
    · dsimp only at hok
      split at hok
      · cases hok
      · split at hok
        · cases hok
        next hprot => exact not_not.mp hprot
  · rcases sysMprotect_spec hK h start len prot with ⟨-, hle, b, ps', hswept⟩ | heq
    · exact hswept.pageAt h hle hok n
    · rw [heq] at hok
      cases hok
  · simp only [← lockFlags_eq]
    rcases doMlock_spec hK h cur start len on with ⟨hle, b, ps', hswept⟩ | ⟨-, herror⟩
    · exact hswept.pageAt h hle hok n
    · exact absurd hok herror
  · obtain ⟨ps', hlist, htiled, -⟩ := mergeSegments_spec h startAddr endAddr
    rw [hlist.pageAt_eq, h.pageAt_eq, htiled.tagAt]

end

theorem calls_refine_page_map_two :
    (pageAt twoPages 0x10).isSome ∧ (pageAt twoPages 0x11).isSome ∧
      ∀ n, pageAt (doMunmap nextKmalloc twoPages 0x10000 0x1000).1 n =
        if 0x10000 ≤ n * pageSize ∧ n * pageSize < 0x10000 + pageAlign 0x1000 then none
        else pageAt twoPages n := by
  obtain ⟨ps, hs⟩ := reachable_counted twoPages_reachable
  refine ⟨by decide, by decide, ?_⟩
  rcases (calls_refine_page_map nextKmalloc_succeeds hs.list).1 0x10000 0x1000 with
    ⟨-, hmap⟩ | ⟨hrange, -⟩
  · exact hmap
  · exact absurd (by decide) hrange

end Sbckernel.Mm
