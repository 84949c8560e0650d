import Mathlib.Order.Lattice.Nat
import Sbckernel.Proofs.MmapCalls

/-!
# The structure of an address space

Every call keeps the invariant of `MmapCalls.lean`: the list and the tree agree,
the areas are sorted, aligned and below `MAX_USER_ADDR`, and `total_vm` is their
size. The calls that insert, remove or change whole ranges have been done; what
is left are the ones that move one bound of an area, and `sys_mremap`, which
inserts the new area before it removes the old one.
-/

namespace Sbckernel.Mm

open Lib

section
variable {s : MmStruct} {ps l l' : List VmPtr} {K : Kmalloc} {k : ULong} {vma : VmPtr}
  {x y newLen : Nat}

theorem wordSub_of_le (hle : y ≤ x) (hword : x < 2 ^ 32) : wordSub x y = x - y := by
  rw [wordSub, wrap]
  omega

theorem le_pageMask (hx : pageSize ∣ x) (hle : x ≤ y) : x ≤ pageMask y := by
  obtain ⟨c, rfl⟩ := hx
  rw [Nat.mul_comm] at hle ⊢
  exact Nat.mul_le_mul_right _ ((Nat.le_div_iff_mul_le (by decide)).mpr hle)

namespace Counted

theorem user_word (h : Counted k s ps) {p : VmPtr} (hp : p ∈ ps) :
    UserPage (s.mem p).vmStart ∧ UserPage (s.mem p).vmEnd :=
  h.edges (s.seg p) (List.mem_map_of_mem hp)

section
variable (hK : K.Succeeds)
include hK

theorem doMmap (h : Counted 0 s ps) (cur : Current) (file : Option File)
    (addr len : Nat) (prot flags : ULong) (off : Nat) :
    ∃ ps', Counted 0 (doMmap cur K s file addr len prot flags off).1 ps' := by
  rcases doMmap_cases hK h.list cur file addr len prot flags off (.inr h.aligned) with
    ⟨hsame, -⟩ | ⟨r, -, hmmap⟩
  · rw [hsame]
    exact ⟨ps, h⟩
  · obtain ⟨hle, -, -⟩ := hmmap.range.bounds
    have hr : UserPage r := ⟨Nat.dvd_of_mod_eq_zero hmmap.range.1, hmmap.range.2.1⟩
    have hmax := hmmap.range.2.2
    have he : UserPage (r + pageAlign len) :=
      ⟨Nat.dvd_add hr.1 (pageAlign_dvd len), by have := hr.2; omega⟩
    rcases hmmap.cases with ⟨-, ps', hremoved⟩ | ⟨area, count, count', hcall, -, ps', s1, ps1, hm⟩
    · exact ⟨ps', h.removed hremoved hr he⟩
    · obtain ⟨hlo, hhi⟩ := callMmap_bounds hcall
      rw [mmapArea_bounds hmmap.range (pageAlign_idem (by omega))] at hhi
      have hlo' : UserPage area.vmStart := by rw [hlo]; exact hr
      have hhi' : UserPage area.vmEnd := by rw [hhi]; exact he
      have h1 := h.removed hm.removed hlo' hhi'
      refine ⟨ps', h1.inserted hm.list hm.inserted hlo' hhi' ?_⟩
      rw [hm.totalVm, add_zero, add_zero]
      rfl

theorem sysBrk (h : Counted 0 s ps) (cur : Current) (brk : Nat) :
    ∃ ps', Counted 0 (sysBrk cur K s brk).1 ps' := by
  rw [Mm.sysBrk]
  split
  · exact ⟨ps, h⟩
  · dsimp only
    split
    · exact ⟨ps, h.congr rfl rfl rfl rfl rfl⟩
    · split
      · have hbrk : Counted 0 { s with brk := brk } ps := h.congr rfl rfl rfl rfl rfl
        exact hbrk.doMunmap hK ..
      · generalize (if cur.rlimData ≥ rlimInfinity then 2 ^ 32 - 1 else cur.rlimData) = rlim
        split
        · exact ⟨ps, h⟩
        · split
          · exact ⟨ps, h⟩
          · split
            · exact ⟨ps, h⟩
            · obtain ⟨ps', h'⟩ := h.doMmap hK cur none (pageAlign s.brk)
                (wordSub (pageAlign brk) (pageAlign s.brk)) (protRead ||| protWrite ||| protExec)
                (mapFixed ||| mapPrivate) 0
              generalize Mm.doMmap _ _ _ _ _ _ _ _ _ = r at h'
              obtain ⟨s', result⟩ := r
              cases result with
              | error e => exact ⟨ps', h'⟩
              | ok addr =>
                dsimp only
                split
                · exact ⟨ps', h'⟩
                · exact ⟨ps', h'.congr rfl rfl rfl rfl rfl⟩

theorem sysMprotect (h : Counted k s ps) (start len : Nat) (prot : ULong) :
    ∃ ps', Counted k (sysMprotect K s start len prot).1 ps' := by
  rcases sysMprotect_spec hK h.list start len prot with ⟨halign, -, b, ps', hswept⟩ | heq
  · exact ⟨ps', h.swept hswept halign⟩
  · rw [heq]
    exact ⟨ps, h⟩

theorem doMlock (h : Counted k s ps) (cur : Current) {start : Nat} (len : Nat) (on : Bool)
    (halign : start % pageSize = 0) : ∃ ps', Counted k (doMlock cur K s start len on).1 ps' := by
  rcases doMlock_spec hK h.list cur start len on with ⟨-, b, ps', hswept⟩ | ⟨heq, -⟩
  · exact ⟨ps', h.swept hswept halign⟩
  · rw [heq]
    exact ⟨ps, h⟩

omit hK in
theorem doMlockall (h : Counted k s ps) (cur : Current) (flags : ULong) :
    ∃ ps', Counted k (doMlockall cur K s flags).1 ps' := by
  obtain ⟨ps', hlist, hedges, hsize, htotal⟩ := doMlockall_spec (K := K) cur h.list flags
  refine ⟨ps', hlist, hedges _ h.edges, ?_⟩
  rw [htotal, h.total, hsize _ h.aligned]

/-- `move_vma`: the new area is there before the old range goes, and is counted
last. -/
theorem moveVma (h : Counted 0 s ps) (addr oldLen : Nat)
    (hlen : 0 < newLen) (halign : pageSize ∣ newLen) (moved : Bool) :
    ∃ ps', Counted 0 (moveVma K s vma addr oldLen newLen moved).1 ps' := by
  obtain ⟨n, hn, hk⟩ := kmalloc_succeeds hK s
  have hnot : n ∉ ps := fun hin => hn (h.list.live n hin)
  have htake : AreaList (s.take n) ps := h.list.take n
  rw [Mm.moveVma, hk]
  dsimp only
  split
  next hfound =>
    have hfree := (getUnmappedArea_spec htake hfound.1).2
    generalize getUnmappedArea (s.take n) addr newLen = r at hfree
    have hle := hfree.le
    have hr : UserPage r := ⟨hfree.aligned h.aligned, by omega⟩
    have he : UserPage (r + newLen) := ⟨Nat.dvd_add hr.1 halign, hle⟩
    have hwrap : wrap (r + newLen) = r + newLen := by
      simp only [wrap, maxUserAddr, taskSize] at *
      omega
    obtain ⟨area, harea⟩ : ∃ area, area = movedArea ((s.take n).mem vma) addr r newLen := ⟨_, rfl⟩
    have hlo : area.vmStart = r := by rw [harea]; rfl
    have hhi : area.vmEnd = r + newLen := by rw [harea]; exact hwrap
    rw [← harea]
    obtain ⟨s0, hs0⟩ : ∃ s0, s0 = ((s.take n).set n area).addCount area.vmInode 1 := ⟨_, rfl⟩
    rw [← hs0]
    have hmem : ∀ q ∈ ps, s0.mem q = s.mem q := fun q hq => by
      have hqn : q ≠ n := fun heq => hnot (heq ▸ hq)
      rw [hs0, addCount_mem, MmStruct.set_mem_of_ne hqn]
      rfl
    have hmemn : s0.mem n = area := by rw [hs0, addCount_mem, MmStruct.set_mem_self]
    have hlist0 : AreaList s0 ps := by
      rw [hs0]
      exact (htake.setOther _ hnot).addCount _ _
    obtain ⟨qs, hlist, hins⟩ := hlist0.insert_free hnot
      (by rw [hs0, addCount_allocated]; exact Finset.mem_insert_self ..)
      (by rw [hmemn]; omega) (by
        rw [hmemn, hhi]
        simp only [maxUserAddr, taskSize] at hle
        omega)
      fun q hq => by
        rw [hmemn, hmem q hq, hlo, hhi]
        exact hfree.free q hq
    have hsegs : ps.map s0.seg = ps.map s.seg := List.map_congr_left fun q hq =>
      congrArg VmArea.seg (hmem q hq)
    have hsegn : s0.seg n = ⟨area.tag, r, r + newLen⟩ := by
      rw [MmStruct.seg, hmemn, VmArea.seg, hlo, hhi]
    rw [hsegs, hsegn] at hins
    have h1 : Counted (pages newLen) (insertVmStruct s0 n) qs := by
      refine h.inserted hlist hins hr he ?_
      rw [(relinked_insertVmStruct s0 n).totalVm, hs0, addCount_totalVm, add_zero]
      rw [Nat.add_sub_cancel_left]
      rfl
    generalize insertVmStruct s0 n = s1 at h1
    obtain ⟨qs', hlist', htiled, htotal⟩ := mergeSegments_spec h1.list (s1.mem n).vmStart
      (s1.mem n).vmEnd
    obtain ⟨ps', h'⟩ := (h1.retiled hlist' htiled htotal).doMunmap hK addr oldLen
    exact ⟨ps', h'.charged _⟩
  · exact ⟨ps, htake.kfree hnot, h.edges, h.total⟩

omit hK in
theorem maxAddr_le (h : Counted k s (l ++ vma :: l')) :
    (s.mem vma).vmEnd ≤ maxAddr s vma ∧ maxAddr s vma ≤ maxUserAddr ∧
      ∀ q ∈ l', maxAddr s vma ≤ (s.mem q).vmStart := by
  rw [maxAddr, h.list.next_eq]
  cases l' with
  | nil => exact ⟨(h.user_word (by simp)).2.2, le_rfl, nofun⟩
  | cons q l' =>
    refine ⟨h.list.le_right (by simp), (h.user_word (by simp)).1.2,
      List.forall_mem_cons.mpr ⟨le_rfl, fun r hr => ?_⟩⟩
    exact (h.list.proper (by simp)).le.trans ((List.append_cons .. ▸ h.list).le_right hr)

/-- The part of `sys_mremap` for an area that has to grow. -/
theorem growVma (h : Counted 0 s (l ++ vma :: l')) (cur : Current)
    {addr oldLen : Nat} (haddr : pageSize ∣ addr) (hlo : (s.mem vma).vmStart ≤ addr)
    (hhi : addr < (s.mem vma).vmEnd) (hnew : pageSize ∣ newLen) (hlt : oldLen < newLen)
    (hword : newLen < 2 ^ 32) (flags : ULong) (moved : Bool) :
    ∃ ps', Counted 0 (growVma cur K s vma addr oldLen newLen flags moved).1 ps' := by
  rw [Mm.growVma]
  split
  · exact ⟨_, h⟩
  · split
    · exact ⟨_, h⟩
    · split
      · exact ⟨_, h⟩
      · split
        · exact ⟨_, h⟩
        · split
          next hgrow =>
            obtain ⟨hend, hmax, hright⟩ := h.maxAddr_le
            have hvm := h.list.word vma (by simp)
            have hmaxword : maxAddr s vma < 2 ^ 32 := by
              simp only [maxUserAddr, taskSize] at hmax
              omega
            obtain ⟨hold, -, hfit⟩ := hgrow
            rw [wordSub_of_le hhi.le hvm] at hold
            rw [wordSub_of_le (hhi.le.trans hend) hmaxword] at hfit
            have hwrap : wrap (addr + newLen) = addr + newLen := Nat.mod_eq_of_lt (by omega)
            rw [wordSub_of_le hlt.le hword, hwrap]
            have hsized := h.resized { s.mem vma with vmEnd := addr + newLen } (newLen - oldLen) rfl
              (show (s.mem vma).vmStart < addr + newLen by omega) (h.user_word (by simp)).1
              ⟨Nat.dvd_add haddr hnew, show addr + newLen ≤ maxUserAddr by omega⟩
              (fun q hq => h.list.left_le hq)
              (fun q hq => (show addr + newLen ≤ maxAddr s vma by omega).trans (hright q hq))
              (show addr + newLen - (s.mem vma).vmStart = _ by omega)
            exact ⟨_, hsized.charged _⟩
          · split
            · exact h.moveVma hK addr oldLen (by omega) hnew moved
            · exact ⟨_, h⟩

theorem sysMremap (h : Counted 0 s ps) (cur : Current) (addr oldLen newLen : Nat) (flags : ULong)
    (moved : Bool) : ∃ ps', Counted 0 (sysMremap cur K s addr oldLen newLen flags moved).1 ps' := by
  rw [Mm.sysMremap]
  split
  · exact ⟨ps, h⟩
  next halign =>
    dsimp only
    split
    · exact h.doMunmap hK ..
    next hlt =>
      rcases h.list.findVma_cases addr with ⟨hnone, -⟩ | ⟨l, vma, l', rfl, hsome, hend, -⟩
      · rw [hnone]
        exact ⟨ps, h⟩
      · rw [hsome]
        dsimp only
        split
        · exact ⟨_, h⟩
        next hstart =>
          refine h.growVma hK cur (Nat.dvd_of_mod_eq_zero (not_not.mp halign)) (not_lt.mp hstart)
            hend (pageAlign_dvd newLen) (not_le.mp hlt) ?_ flags moved
          simp only [pageAlign, pageMask, wrap, pageSize]
          omega

end

/-- `expand_stack`: the area grows down to the page of the address. The area
before it ends on a page boundary, hence not above that page. -/
theorem expandStack (h : Counted 0 s ps) (cur : Current) {address : Nat}
    (hfirst : findVma s address = some vma) (hbelow : address < (s.mem vma).vmStart) :
    ∃ ps', Counted 0 (expandStack cur s vma address).1 ps' := by
  rcases h.list.findVma_cases address with ⟨hnone, -⟩ | ⟨l, p, l', rfl, hsome, -, hl⟩
  · rw [hnone] at hfirst
    cases hfirst
  · obtain rfl : p = vma := Option.some.inj (hsome.symm.trans hfirst)
    rw [Mm.expandStack]
    split
    · exact ⟨_, h⟩
    · obtain ⟨hstart, hend⟩ := h.user_word (p := p) (by simp)
      have hproper := h.list.proper (p := p) (by simp)
      have hmask : pageMask address ≤ address := Nat.div_mul_le_self ..
      have hword := h.list.word p (by simp)
      rw [wordSub_of_le (hmask.trans hbelow.le) (by omega)]
      have hleft : ∀ q ∈ l, (s.mem q).vmEnd ≤ pageMask address := fun q hq =>
        le_pageMask (h.user_word (by simp [hq])).2.1 (hl q hq)
      have hsized := h.resized { s.mem p with
          vmStart := pageMask address
          vmOffset := (s.mem p).vmOffset - BitVec.ofNat 32 ((s.mem p).vmStart - pageMask address) }
        ((s.mem p).vmStart - pageMask address) rfl
        (show pageMask address < (s.mem p).vmEnd by omega)
        ⟨Nat.dvd_mul_left .., (hmask.trans hbelow.le).trans hstart.2⟩ hend hleft
        (fun q hq => h.list.le_right hq)
        (show (s.mem p).vmEnd - pageMask address = _ by omega)
      exact ⟨_, hsized.charged _⟩

theorem step (h : Counted 0 s ps) {s' : MmStruct} (hstep : MmStep s s') :
    ∃ ps', Counted 0 s' ps' := by
  cases hstep with
  | doMmap hK => exact h.doMmap hK ..
  | doMunmap hK => exact h.doMunmap hK ..
  | sysBrk hK => exact h.sysBrk hK ..
  | sysMprotect hK => exact h.sysMprotect hK ..
  | doMlock hK _ _ _ _ _ aligned => exact h.doMlock hK _ _ _ aligned
  | doMlockall => exact h.doMlockall ..
  | sysMremap hK => exact h.sysMremap hK ..
  | expandStack _ _ _ _ first below => exact h.expandStack _ first below

/-- The counter as a number: the areas fit below `MAX_USER_ADDR`. -/
theorem totalVm_eq (h : Counted 0 s ps) :
    s.totalVm.toNat = (ps.map fun p => ((s.mem p).vmEnd - (s.mem p).vmStart) / pageSize).sum := by
  have hle := h.list.sorted.size_le pageSize (Nat.zero_le maxUserAddr) (fun _ _ => Nat.zero_le _)
    fun t ht => (h.edges t ht).2.2
  have htotal := h.total
  rw [add_zero] at htotal
  rw [htotal, BitVec.toNat_ofNat, Nat.mod_eq_of_lt]
  · rw [Segment.size, List.map_map]
    rfl
  · simp only [maxUserAddr, taskSize] at hle
    omega

end Counted

end

/-! ## Every reachable state -/

theorem reachable_counted {s : MmStruct} (h : addressSpace.Reachable s) : ∃ ps, Counted 0 s ps := by
  refine h.invariant (I := fun s => ∃ ps, Counted 0 s ps) (fun s hinit => ?_)
    fun s s' ⟨ps, hs⟩ hstep => hs.step hstep
  refine ⟨[], ⟨hinit.mmap, ?_, ?_, ⟨nofun, .nil⟩, nofun, nofun⟩, nofun, ?_⟩
  · rw [hinit.mmapAvl]
    rfl
  · rw [hinit.mmapAvl]
    exact trivial
  · rw [hinit.totalVm]
    rfl

/-- Whatever the calls, the areas along `vm_next` are sorted, apart, not empty,
aligned and below `MAX_USER_ADDR`; the tree satisfies the rules of an AVL tree
and runs through the same areas; and `total_vm` is their size in pages. -/
theorem address_space_structure {s : MmStruct} (h : addressSpace.Reachable s) :
    ∃ ps : List VmPtr, Chain (fun p => (s.mem p).vmNext) s.mmap ps none ∧
      (ps.Pairwise fun p q => (s.mem p).vmEnd ≤ (s.mem q).vmStart) ∧
      (∀ p ∈ ps, (s.mem p).vmStart < (s.mem p).vmEnd ∧ (s.mem p).vmStart % pageSize = 0 ∧
        (s.mem p).vmEnd % pageSize = 0 ∧ (s.mem p).vmEnd ≤ maxUserAddr) ∧
      AvlRules s.key s.mmapAvl ∧ s.mmapAvl.inorder = ps ∧
      s.totalVm.toNat = (ps.map fun p => ((s.mem p).vmEnd - (s.mem p).vmStart) / pageSize).sum := by
  obtain ⟨ps, hs⟩ := reachable_counted h
  refine ⟨ps, hs.list.linked, hs.list.apart, fun p hp => ?_, hs.list.rules, hs.list.inorder,
    hs.totalVm_eq⟩
  obtain ⟨hlo, hhi⟩ := hs.user_word hp
  exact ⟨hs.list.proper hp, Nat.mod_eq_zero_of_dvd hlo.1, Nat.mod_eq_zero_of_dvd hhi.1, hhi.2⟩

/-- An address from `first` on at which `len` bytes are free. -/
structure Fits (s : MmStruct) (ps : List VmPtr) (first len a : Nat) : Prop where
  aligned : a % pageSize = 0
  first_le : first ≤ a
  le_max : a + len ≤ maxUserAddr
  free : ∀ q ∈ ps, (s.mem q).vmEnd ≤ a ∨ a + len ≤ (s.mem q).vmStart

/-- `get_unmapped_area` returns the first address that fits, and 0 if there is none. -/
theorem get_unmapped_area_first_fit {s : MmStruct} {ps : List VmPtr} (h : Counted 0 s ps)
    (addr len first : Nat) (hover : addr + pageSize ≤ 2 ^ 32) (hlen : len ≤ maxUserAddr)
    (hfirst : first = pageAlign (if addr = 0 then mmapSearchStart else addr)) :
    (getUnmappedArea s addr len ≠ 0 → Fits s ps first len (getUnmappedArea s addr len) ∧
        ∀ a, Fits s ps first len a → getUnmappedArea s addr len ≤ a) ∧
      (getUnmappedArea s addr len = 0 → ∀ a, ¬Fits s ps first len a) := by
  have hpos : 0 < first := by
    rw [hfirst]
    simp only [pageAlign, pageMask, wrap, pageSize, mmapSearchStart, taskSize] at hover ⊢
    split <;> omega
  have hle : ∀ a, Fits s ps first len a → getUnmappedArea s addr len ≠ 0 ∧
      getUnmappedArea s addr len ≤ a := by
    intro a ha
    obtain ⟨l, l', rfl, heq, -, -⟩ := getUnmappedArea_eq h.list addr hlen
    have hlength := h.list.length_le
    rw [List.length_append] at hlength
    rw [heq, ← hfirst]
    exact unmappedFrom_le h.list hpos ha.first_le ha.le_max (by omega) fun q hq =>
      ha.free q (by simp [hq])
  refine ⟨fun hr => ⟨?_, fun a ha => (hle a ha).2⟩, fun hzero a ha => (hle a ha).1 hzero⟩
  obtain ⟨hstart, hfree⟩ := getUnmappedArea_spec h.list hr
  exact ⟨Nat.mod_eq_zero_of_dvd (hfree.aligned h.aligned), hfirst ▸ hstart, hfree.le, hfree.free⟩

/-- An allocator that always finds a structure. -/
def nextKmalloc : Kmalloc where
  pick _ inUse := some (inUse.sup id + 1)
  fresh _ inUse p hp hin := by
    have hle : p ≤ inUse.sup id := Finset.le_sup (f := id) hin
    rw [← Option.some.inj hp] at hle
    exact Nat.not_succ_le_self _ hle

theorem nextKmalloc_succeeds : nextKmalloc.Succeeds := fun _ _ => rfl

/-- An `mm_struct` without areas. -/
def emptyMm : MmStruct where
  mem _ := ⟨0, 0, 0, 0, none, none, 0, none, 0⟩
  allocated := ∅
  kmallocs := 0
  mmap := none
  mmapAvl := .empty
  totalVm := 0
  lockedVm := 0
  defFlags := 0
  brk := 0
  endCode := 0
  iCount _ := 0
  iMmap _ := []

/-- A task without limits on a machine with memory. -/
def richTask : Current where
  rlimData := rlimInfinity
  rlimStack := rlimInfinity
  rlimMemlock := rlimInfinity
  rlimAs := rlimInfinity
  suser := true
  buffermem := 0
  pageCacheSize := 0
  nrFreePages := 1000
  nrSwapPages := 0
  maxMapNr := 4096

/-- Two pages mapped at an address. -/
def twoPages : MmStruct := (doMmap richTask nextKmalloc emptyMm none 0x10000 0x2000
  (protRead ||| protWrite) (mapFixed ||| mapPrivate) 0).1

theorem twoPages_reachable : addressSpace.Reachable twoPages :=
  .step (.init ⟨rfl, rfl, rfl⟩) (.doMmap nextKmalloc_succeeds ..)

/-- The same two pages, the second of them locked. -/
def twoPagesLocked : MmStruct := (doMlock richTask nextKmalloc twoPages 0x11000 0x1000 true).1

theorem address_space_structure_locked :
    twoPagesLocked.mmapAvl.inorder.map (fun p => ((twoPagesLocked.mem p).vmStart,
        (twoPagesLocked.mem p).vmEnd)) = [(0x10000, 0x11000), (0x11000, 0x12000)] ∧
      ∃ ps : List VmPtr,
        Chain (fun p => (twoPagesLocked.mem p).vmNext) twoPagesLocked.mmap ps none ∧
        (ps.Pairwise fun p q => (twoPagesLocked.mem p).vmEnd ≤ (twoPagesLocked.mem q).vmStart) ∧
        (∀ p ∈ ps, (twoPagesLocked.mem p).vmStart < (twoPagesLocked.mem p).vmEnd ∧
          (twoPagesLocked.mem p).vmStart % pageSize = 0 ∧
          (twoPagesLocked.mem p).vmEnd % pageSize = 0 ∧
          (twoPagesLocked.mem p).vmEnd ≤ maxUserAddr) ∧
        AvlRules twoPagesLocked.key twoPagesLocked.mmapAvl ∧
        twoPagesLocked.mmapAvl.inorder = ps ∧
        twoPagesLocked.totalVm.toNat = (ps.map fun p =>
          ((twoPagesLocked.mem p).vmEnd - (twoPagesLocked.mem p).vmStart) / pageSize).sum :=
  ⟨by decide, address_space_structure
    (.step twoPages_reachable (.doMlock nextKmalloc_succeeds _ _ _ _ _ (by decide)))⟩

/-- Both mapped pages are skipped. -/
theorem get_unmapped_area_first_fit_behind : ∃ ps, Counted 0 twoPages ps ∧
    getUnmappedArea twoPages 0xf800 0x1000 = 0x12000 ∧
    ∀ a, Fits twoPages ps 0x10000 0x1000 a → 0x12000 ≤ a := by
  obtain ⟨ps, h⟩ := reachable_counted twoPages_reachable
  have hr : getUnmappedArea twoPages 0xf800 0x1000 = 0x12000 := by decide
  have hfits := (get_unmapped_area_first_fit h 0xf800 0x1000 0x10000 (by decide) (by decide)
    (by decide)).1 (by rw [hr]; decide)
  exact ⟨ps, h, hr, hr ▸ hfits.2⟩

end Sbckernel.Mm
