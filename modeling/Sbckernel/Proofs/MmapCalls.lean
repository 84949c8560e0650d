import Sbckernel.Proofs.Fixup

/-!
# `do_mmap`, `sys_mremap` and the other calls that add areas

A new area is put into a range that is free, because `do_munmap` has just taken
everything out of it or because `get_unmapped_area` has found it so. The counter
`total_vm` follows each change of the list; `AddressSpace` is the invariant that
all calls keep.
-/

namespace Sbckernel.Mm

open Lib Segment List

variable {addr n b len : Nat} {s' : MmStruct} {ps' : List VmPtr} {vma : VmPtr} {file : Option File}
  {area : VmArea}

section
variable {s : MmStruct} {ps l l' : List VmPtr} {p : VmPtr} {K : Kmalloc} {a e : Nat}

/-! ## A free range -/

/-- A free range splits the list. -/
theorem AreaList.split_free (h : AreaList s ps)
    (hfree : ∀ q ∈ ps, (s.mem q).vmEnd ≤ a ∨ e ≤ (s.mem q).vmStart) :
    ∃ l l', ps = l ++ l' ∧ (∀ q ∈ l, (s.mem q).vmEnd ≤ a) ∧ ∀ q ∈ l', e ≤ (s.mem q).vmStart := by
  rcases h.findVma_cases a with ⟨-, hall⟩ | ⟨l, p, l', rfl, -, hend, hl⟩
  · exact ⟨ps, [], by simp, hall, nofun⟩
  · have hp : e ≤ (s.mem p).vmStart := by
      rcases hfree p (by simp) with hp | hp
      · omega
      · exact hp
    refine ⟨l, p :: l', rfl, hl, fun q hq => ?_⟩
    rcases mem_cons.mp hq with rfl | hq
    · exact hp
    · have := h.proper (p := p) (by simp)
      have := h.le_right hq
      omega

/-- An area is put into a free range. -/
theorem AreaList.insert_free (h : AreaList s ps) (hp : p ∉ ps) (hlive : p ∈ s.allocated)
    (hproper : (s.mem p).vmStart < (s.mem p).vmEnd) (hword : (s.mem p).vmEnd < 2 ^ 32)
    (hfree : ∀ q ∈ ps, (s.mem q).vmEnd ≤ (s.mem p).vmStart ∨ (s.mem p).vmEnd ≤ (s.mem q).vmStart) :
    ∃ ps', AreaList (insertVmStruct s p) ps' ∧
      Inserted (s.seg p) (ps.map s.seg) (ps'.map (insertVmStruct s p).seg) := by
  obtain ⟨l, l', rfl, hl, hl'⟩ := h.split_free hfree
  obtain ⟨hlist, -⟩ := h.insert hp hlive hproper hword hl hl'
  refine ⟨_, hlist, ?_⟩
  rw [(relinked_insertVmStruct s p).seg, map_append, map_append, map_cons]
  exact inserted_between (forall_mem_map.mpr hl)

/-- A range that `get_unmapped_area` returns. -/
structure FreeRange (s : MmStruct) (ps : List VmPtr) (len r : Nat) : Prop where
  le : r + len ≤ maxUserAddr
  free : ∀ q ∈ ps, (s.mem q).vmEnd ≤ r ∨ r + len ≤ (s.mem q).vmStart
  aligned : Edges (pageSize ∣ ·) (ps.map s.seg) → pageSize ∣ r

theorem unmappedFrom_spec (h : AreaList s (l ++ l')) (hlen : len ≤ maxUserAddr)
    (hl : ∀ q ∈ l, (s.mem q).vmEnd ≤ a)
    (ha : Edges (pageSize ∣ ·) ((l ++ l').map s.seg) → pageSize ∣ a)
    (hl' : ∀ q ∈ l', a < (s.mem q).vmEnd) (hr : unmappedFrom s len n l'.head? a ≠ 0) :
    a ≤ unmappedFrom s len n l'.head? a ∧
      FreeRange s (l ++ l') len (unmappedFrom s len n l'.head? a) := by
  induction n generalizing l l' a with
  | zero => exact absurd rfl hr
  | succ n ih =>
    have hwrap : ¬maxUserAddr - len < a → wrap (a + len) = a + len := by
      simp only [wrap, maxUserAddr, taskSize] at *
      omega
    cases l' with
    | nil =>
      have heq : unmappedFrom s len (n + 1) none a =
        if maxUserAddr - len < a then 0 else a := rfl
      rw [head?_nil, heq] at hr ⊢
      split at hr
      · exact absurd rfl hr
      next hbig =>
        rw [if_neg hbig]
        exact ⟨le_rfl, by omega, fun q hq => .inl (hl q (by simpa using hq)), ha⟩
    | cons p l' =>
      have heq : unmappedFrom s len (n + 1) (some p) a =
        if maxUserAddr - len < a then 0
        else if wrap (a + len) ≤ (s.mem p).vmStart then a
        else unmappedFrom s len n (s.mem p).vmNext (s.mem p).vmEnd := rfl
      have hproper := h.proper (p := p) (by simp)
      rw [head?_cons, heq, h.next_eq] at hr ⊢
      split at hr
      · exact absurd rfl hr
      next hbig =>
        rw [if_neg hbig]
        rw [hwrap hbig] at hr ⊢
        split at hr
        next hfit =>
          rw [if_pos hfit]
          refine ⟨le_rfl, by omega, fun q hq => ?_, ha⟩
          rcases mem_append.mp hq with hq | hq
          · exact .inl (hl q hq)
          · rcases mem_cons.mp hq with rfl | hq
            · exact .inr hfit
            · have := h.le_right hq
              exact .inr (by omega)
        next hfit =>
          rw [if_neg hfit]
          have hassoc := append_cons l p l'
          have hbelow : ∀ q ∈ l ++ [p], (s.mem q).vmEnd ≤ (s.mem p).vmEnd := by
            intro q hq
            rcases mem_append.mp hq with hq | hq
            · have := h.left_le hq
              omega
            · rw [mem_singleton.mp hq]
          have hbehind : ∀ q ∈ l', (s.mem p).vmEnd < (s.mem q).vmEnd := fun q hq =>
            (h.le_right hq).trans_lt (h.proper (by simp [hq]))
          have hlt := hl' p (by simp)
          rw [hassoc] at h ⊢
          obtain ⟨hle, hfree⟩ :=
            ih h hbelow (fun hQ => (hQ (s.seg p) (mem_map_of_mem (by simp))).2) hbehind hr
          exact ⟨hlt.le.trans hle, hfree⟩

/-- The loop passes over no address at which the range is free. -/
theorem unmappedFrom_le (h : AreaList s (l ++ l')) (hpos : 0 < a) (hab : a ≤ b)
    (hb : b + len ≤ maxUserAddr) (hn : l'.length < n)
    (hfree : ∀ q ∈ l', (s.mem q).vmEnd ≤ b ∨ b + len ≤ (s.mem q).vmStart) :
    unmappedFrom s len n l'.head? a ≠ 0 ∧ unmappedFrom s len n l'.head? a ≤ b := by
  induction n generalizing l l' a with
  | zero => exact absurd hn (Nat.not_lt_zero _)
  | succ n ih =>
    have hbig : ¬maxUserAddr - len < a := by omega
    cases l' with
    | nil =>
      rw [head?_nil, unmappedFrom, if_neg hbig]
      exact ⟨hpos.ne', hab⟩
    | cons p l' =>
      rw [head?_cons, unmappedFrom, if_neg hbig]
      split
      · exact ⟨hpos.ne', hab⟩
      next hfit =>
        rw [h.next_eq]
        have hproper := h.proper (p := p) (by simp)
        rw [append_cons] at h
        rcases hfree p (by simp) with hend | hstart
        · exact ih h (by omega) hend (Nat.lt_of_succ_lt_succ hn) fun q hq => hfree q (by simp [hq])
        · have hwrap : wrap (a + len) = a + len := by
            simp only [wrap, maxUserAddr, taskSize] at *
            omega
          omega

theorem pageAlign_dvd (x : Nat) : pageSize ∣ pageAlign x := Nat.dvd_mul_left ..

/-- Where the loop of `get_unmapped_area` starts. -/
theorem getUnmappedArea_eq (h : AreaList s ps) (addr : Nat) (hlen : len ≤ maxUserAddr) :
    ∃ l l', ps = l ++ l' ∧
      let b := pageAlign (if addr = 0 then mmapSearchStart else addr)
      getUnmappedArea s addr len = unmappedFrom s len (s.live + 1) l'.head? b ∧
        (∀ q ∈ l, (s.mem q).vmEnd ≤ b) ∧ ∀ q ∈ l', b < (s.mem q).vmEnd := by
  rw [getUnmappedArea, if_neg (not_lt.mpr hlen)]
  dsimp only
  generalize pageAlign (if addr = 0 then mmapSearchStart else addr) = b
  rcases h.findVma_cases b with ⟨hnone, hall⟩ | ⟨l, p, l', rfl, hsome, hend, hl⟩
  · exact ⟨ps, [], (append_nil ps).symm, by rw [hnone, head?_nil], hall, nofun⟩
  · refine ⟨l, p :: l', rfl, by rw [hsome, head?_cons], hl, fun q hq => ?_⟩
    rcases mem_cons.mp hq with rfl | hq
    · exact hend
    · have := h.le_right hq
      have := h.proper (p := q) (by simp [hq])
      omega

theorem getUnmappedArea_spec (h : AreaList s ps) (hr : getUnmappedArea s addr len ≠ 0) :
    pageAlign (if addr = 0 then mmapSearchStart else addr) ≤ getUnmappedArea s addr len ∧
      FreeRange s ps len (getUnmappedArea s addr len) := by
  have hlen : len ≤ maxUserAddr := not_lt.mp fun hlt => hr (if_pos hlt)
  obtain ⟨l, l', rfl, heq, hl, hl'⟩ := getUnmappedArea_eq h addr hlen
  rw [heq] at hr ⊢
  exact unmappedFrom_spec h hlen hl (fun _ => pageAlign_dvd _) hl' hr

/-! ## The counter -/

/-- The range is free afterwards. -/
theorem Removed.free (h : Removed a e s ps s' ps')
    (hae : a < e) {q : VmPtr} (hq : q ∈ ps') : (s'.mem q).vmEnd ≤ a ∨ e ≤ (s'.mem q).vmStart := by
  have hseg : s'.seg q ∈ (ps.map s.seg).flatMap (cut a e) := h.segs ▸ mem_map_of_mem hq
  obtain ⟨t, -, hcut⟩ := mem_flatMap.mp hseg
  exact cut_out hae hcut

/-- The bounds of areas. -/
def UserPage (x : Nat) : Prop := pageSize ∣ x ∧ x ≤ maxUserAddr

/-- The invariant, in the middle of a call that still has to add `k` to
`total_vm`. -/
structure Counted (k : ULong) (s : MmStruct) (ps : List VmPtr) : Prop where
  list : AreaList s ps
  edges : Edges UserPage (ps.map s.seg)
  total : s.totalVm + k = BitVec.ofNat 32 (size pageSize (ps.map s.seg))

namespace Counted

variable {k : ULong}

section
variable (h : Counted k s ps)
include h

theorem aligned : Edges (pageSize ∣ ·) (ps.map s.seg) :=
  h.edges.mono fun _ hx => hx.1

theorem congr (hmem : s'.mem = s.mem) (hmmap : s'.mmap = s.mmap) (htree : s'.mmapAvl = s.mmapAvl)
    (hlive : s'.allocated = s.allocated) (htotal : s'.totalVm = s.totalVm) : Counted k s' ps := by
  have hseg : s'.seg = s.seg := funext fun q => by rw [MmStruct.seg, hmem, MmStruct.seg]
  refine ⟨h.list.congr (fun _ _ => by rw [hmem]) hmmap htree fun _ _ => hlive ▸ id, ?_, ?_⟩
  · rw [hseg]
    exact h.edges
  · rw [hseg, htotal]
    exact h.total

/-- What was left to add is added. -/
theorem charged (locked : ULong) :
    Counted 0 { s with totalVm := s.totalVm + k, lockedVm := locked } ps := by
  refine ⟨h.list.congr (fun _ _ => rfl) rfl rfl fun _ _ hq => hq, h.edges, ?_⟩
  rw [add_zero]
  exact h.total

theorem removed (hr : Removed a e s ps s' ps') (ha : UserPage a)
    (he : UserPage e) : Counted k s' ps' := by
  have hsize := size_flatMap_cut ha.1 he.1 h.aligned
  refine ⟨hr.list, ?_, ?_⟩
  · rw [hr.segs]
    exact edges_flatMap_cut ha he h.edges
  · have htotal := h.total
    rw [← hsize, BitVec.ofNat_add] at htotal
    rw [hr.totalVm, hr.segs, sub_add_eq_add_sub, htotal, add_sub_cancel_right]

theorem unmapped {addr : Nat} (hrange : UserRange addr len)
    (hun : Unmapped addr (addr + pageAlign len) s ps s' ps') : Counted k s' ps' := by
  obtain ⟨hle, halign, -⟩ := hrange.bounds
  have ha : pageSize ∣ addr := Nat.dvd_of_mod_eq_zero hrange.1
  exact h.removed hun.toRemoved ⟨ha, hrange.2.1⟩
    ⟨Nat.dvd_add ha (Nat.dvd_of_mod_eq_zero halign), hle⟩

omit h in
theorem doMunmap (hK : K.Succeeds) (h : Counted k s ps) (addr len : Nat) :
    ∃ ps', Counted k (doMunmap K s addr len).1 ps' := by
  by_cases hrange : UserRange addr len
  · obtain ⟨-, ps', hun, -⟩ := doMunmap_spec hK h.list hrange
    exact ⟨ps', h.unmapped hrange hun⟩
  · rw [doMunmap_invalid s hrange]
    exact ⟨ps, h⟩

theorem inserted {t : Segment PageTag} (hlist : AreaList s' ps')
    (hi : Inserted t (ps.map s.seg) (ps'.map s'.seg)) (hlo : UserPage t.lo) (hhi : UserPage t.hi)
    {k' : ULong} (htotal : s'.totalVm + k' = s.totalVm + k + pages (t.hi - t.lo)) :
    Counted k' s' ps' := by
  refine ⟨hlist, hi.edges _ hlo hhi h.edges, ?_⟩
  rw [htotal, h.total, hi.size _ hlo.1 hhi.1 h.aligned, BitVec.ofNat_add]
  rfl

theorem retiled (hlist : AreaList s' ps') (ht : Retiled (ps.map s.seg) (ps'.map s'.seg))
    (htotal : s'.totalVm = s.totalVm) : Counted k s' ps' := by
  refine ⟨hlist, ht.edges _ h.edges, ?_⟩
  rw [htotal, h.total, ht.size _ h.aligned]

theorem swept {f : PageTag → PageTag} {r : MmStruct × Errno}
    (hs : Swept a (wrap (a + pageAlign len)) f s ps r b ps') (halign : a % pageSize = 0) :
    Counted k r.1 ps' := by
  have ha := Nat.dvd_of_mod_eq_zero halign
  have hlast : pageSize ∣ wrap (a + pageAlign len) :=
    (Nat.dvd_mod_iff (by decide)).mpr (Nat.dvd_add ha (pageAlign_dvd len))
  rcases hs.bounded with ⟨-, hsame, rfl⟩ | hbound
  · rw [hsame]
    exact h
  · have hb : pageSize ∣ b := hs.edge _ ha hlast h.aligned
    have hle : b ≤ maxUserAddr := hbound _ (h.edges.mono fun _ hx => hx.2)
    refine ⟨hs.list, hs.patched.edges _ ⟨ha, hs.le.trans hle⟩ ⟨hb, hle⟩ h.edges, ?_⟩
    rw [hs.totalVm, h.total, hs.patched.size _ ha hb h.aligned]

end

/-- An area in its place gets new bounds. -/
theorem resized (h : Counted 0 s (l ++ p :: l')) (area : VmArea) (grow : Nat)
    (hnext : area.vmNext = (s.mem p).vmNext) (hproper : area.vmStart < area.vmEnd)
    (hlo : UserPage area.vmStart) (hhi : UserPage area.vmEnd)
    (hl : ∀ q ∈ l, (s.mem q).vmEnd ≤ area.vmStart) (hl' : ∀ q ∈ l', area.vmEnd ≤ (s.mem q).vmStart)
    (hgrow : area.vmEnd - area.vmStart = (s.mem p).vmEnd - (s.mem p).vmStart + grow) :
    Counted (pages grow) (s.set p area) (l ++ p :: l') := by
  have hword : area.vmEnd < 2 ^ 32 := by
    have := hhi.2
    simp only [maxUserAddr, taskSize] at this
    omega
  have hlist := h.list.set hnext hproper hword hl hl'
  have hsegs : ∀ m : List VmPtr, p ∉ m → m.map (s.set p area).seg = m.map s.seg := fun m hm =>
    map_congr_left fun q hq =>
      congrArg VmArea.seg (MmStruct.set_mem_of_ne fun heq => hm (heq ▸ hq))
  have hsegp : (s.set p area).seg p = area.seg := congrArg VmArea.seg MmStruct.set_mem_self
  have hedges := h.edges
  have htotal := h.total
  rw [map_append, map_cons, ← singleton_append] at hedges htotal
  rw [edges_append, edges_append] at hedges
  rw [size_append, size_append, size_singleton,
    show (s.seg p).hi - (s.seg p).lo = (s.mem p).vmEnd - (s.mem p).vmStart from rfl] at htotal
  refine ⟨hlist, ?_, ?_⟩
  · rw [map_append, map_cons, hsegs l h.list.notMem_left, hsegs l' h.list.notMem_right,
      hsegp, ← singleton_append, edges_append, edges_append]
    refine ⟨hedges.1, fun t ht => ?_, hedges.2.2⟩
    rw [mem_singleton.mp ht]
    exact ⟨hlo, hhi⟩
  · have hold := hedges.2.1 (s.seg p) (by simp)
    have hdvd : pageSize ∣ (s.mem p).vmEnd - (s.mem p).vmStart := Nat.dvd_sub hold.2.1 hold.1.1
    rw [map_append, map_cons, hsegs l h.list.notMem_left, hsegs l' h.list.notMem_right,
      hsegp, ← singleton_append, size_append, size_append, size_singleton]
    show s.totalVm + pages grow = BitVec.ofNat 32 (_ + ((area.vmEnd - area.vmStart) / pageSize
      + _))
    rw [add_zero] at htotal
    rw [hgrow, Nat.add_div_of_dvd_right hdvd, htotal, pages, ← BitVec.ofNat_add]
    congr 1
    omega

end Counted

/-! ## `do_mmap` -/

/-- Everything in the range of `area` has been taken out, and `area` has been put in. -/
structure Mapped (area : VmArea) (s : MmStruct) (ps : List VmPtr) (s' : MmStruct)
    (ps' : List VmPtr) (s₁ : MmStruct) (ps₁ : List VmPtr) : Prop where
  removed : Removed area.vmStart area.vmEnd s ps s₁ ps₁
  list : AreaList s' ps'
  inserted : Inserted area.seg (ps₁.map s₁.seg) (ps'.map s'.seg)
  totalVm : s'.totalVm = s₁.totalVm + pages (area.vmEnd - area.vmStart)

theorem callMmap_bounds {vma : VmArea} {count count' : InodePtr → Int}
    (h : callMmap file vma count = .ok (area, count')) :
    area.vmStart = vma.vmStart ∧ area.vmEnd = vma.vmEnd := by
  rw [callMmap] at h
  split at h
  · obtain ⟨rfl, -⟩ := Prod.mk.inj (Except.ok.inj h)
    exact ⟨rfl, rfl⟩
  next method _ => exact method.bounds _ _ _ _ h

/-- The new area goes into the range that has just been cleared. -/
theorem mmapInto_insert {s1 : MmStruct} {ps1 : List VmPtr}
    (h : Removed area.vmStart area.vmEnd s ps s1 ps1) (hvma : vma ∉ ps1)
    (hlive : vma ∈ s1.allocated) (hproper : area.vmStart < area.vmEnd) (hword : area.vmEnd < 2 ^ 32)
    (iCount : InodePtr → Int) {s2 : MmStruct}
    (hs2 : s2 = insertVmStruct ({ s1 with iCount := iCount }.set vma area) vma) (st en : Nat) :
    ∃ ps', AreaList (mergeSegments s2 st en) ps' ∧
      Inserted area.seg (ps1.map s1.seg) (ps'.map (mergeSegments s2 st en).seg) ∧
      (mergeSegments s2 st en).totalVm = s1.totalVm := by
  obtain ⟨s0, hs0⟩ : ∃ s0 : MmStruct, s0 = { s1 with iCount := iCount }.set vma area := ⟨_, rfl⟩
  have hlist0 : AreaList s0 ps1 := by
    rw [hs0]
    refine AreaList.setOther ?_ _ hvma
    exact h.list.congr (fun _ _ => rfl) rfl rfl fun _ _ hq => hq
  have hmem : ∀ q ∈ ps1, s0.mem q = s1.mem q := fun q hq => by
    rw [hs0]
    exact MmStruct.set_mem_of_ne fun heq => hvma (heq ▸ hq)
  have hmemv : s0.mem vma = area := by rw [hs0, MmStruct.set_mem_self]
  rw [← hs0] at hs2
  obtain ⟨qs, hlist, hins⟩ := hlist0.insert_free hvma (by rw [hs0]; exact hlive)
    (by rw [hmemv]; exact hproper) (by rw [hmemv]; exact hword)
    fun q hq => by
      rw [hmemv, hmem q hq]
      exact h.free hproper hq
  rw [← hs2] at hlist hins
  obtain ⟨ps', hlist', htiled, htotal⟩ := mergeSegments_spec hlist st en
  have hsegs : ps1.map s0.seg = ps1.map s1.seg := map_congr_left fun q hq =>
    congrArg VmArea.seg (hmem q hq)
  rw [MmStruct.seg, hmemv, hsegs] at hins
  refine ⟨ps', hlist', hins.retiled htiled, htotal.trans ?_⟩
  rw [hs2, (relinked_insertVmStruct s0 vma).totalVm, hs0]
  rfl

theorem mmapInto_spec (hK : K.Succeeds) (h : AreaList s ps) (hvma : vma ∉ ps)
    (hlive : vma ∈ s.allocated) (hrange : UserRange addr len)
    (halign : pageAlign len = len) (hlen : 0 < len) (hstart : (s.mem vma).vmStart = addr)
    (hend : (s.mem vma).vmEnd = addr + len) (cur : Current) (file : Option File)
    {r : MmStruct × Except Errno Nat} (hr : r = mmapInto cur K s file vma addr len) :
    ((∃ error, r.2 = .error error) ∧ ∃ ps', Removed addr (addr + len) s ps r.1 ps') ∨
      ∃ area count count', callMmap file (s.mem vma) count = .ok (area, count') ∧
        r.2 = .ok addr ∧ ∃ ps' s1 ps1, Mapped area s ps r.1 ps' s1 ps1 := by
  obtain ⟨-, ps1, hun, -⟩ := doMunmap_spec hK h hrange
  rw [halign] at hun
  rw [mmapInto] at hr
  generalize (doMunmap K s addr len).1 = s1 at hun hr
  obtain ⟨hlive1, hmem1⟩ := hun.others vma hlive hvma
  -- the structure is not in the list: it lies in the range
  have hvma1 : vma ∉ ps1 := by
    intro hin
    have := hun.toRemoved.free (by omega) hin
    rw [hmem1, hstart, hend] at this
    omega
  have hkfree : Removed addr (addr + len) s ps (kfree s1 vma) ps1 :=
    ⟨hun.list.kfree hvma1, hun.segs, hun.totalVm⟩
  rw [hmem1] at hr
  split at hr
  · rw [hr]
    exact .inl ⟨⟨_, rfl⟩, ps1, hkfree⟩
  · split at hr
    · rw [hr]
      exact .inl ⟨⟨_, rfl⟩, ps1, hkfree⟩
    · split at hr
      · rw [hr]
        exact .inl ⟨⟨_, rfl⟩, ps1, hkfree⟩
      next area iCount hcall =>
        refine .inr ⟨area, s1.iCount, iCount, hcall, by rw [hr], ?_⟩
        obtain ⟨hlo, hhi⟩ := callMmap_bounds hcall
        have hbound := hrange.bounds.1
        have hremoved := hun.toRemoved
        have hword : area.vmEnd < 2 ^ 32 := by
          rw [halign] at hbound
          simp only [maxUserAddr, taskSize] at hbound
          omega
        rw [← hend, ← hhi, ← hstart, ← hlo] at hremoved
        obtain ⟨ps', hlist, hins, htotal⟩ := mmapInto_insert hremoved hvma1 hlive1 (by omega) hword
          iCount rfl _ _
        refine ⟨ps', s1, ps1, hremoved, ?_, ?_, ?_⟩
        · rw [hr]
          exact hlist.congr (fun _ _ => rfl) rfl rfl fun _ _ hq => hq
        · rw [hr]
          exact hins
        · rw [hr]
          show _ + pages len = _
          rw [htotal, show area.vmEnd - area.vmStart = len by omega]

/-- The area that `do_mmap` fills in before it calls the file's method. -/
theorem mmapArea_bounds (hrange : UserRange addr len) (halign : pageAlign len = len)
    (s : MmStruct) (file : Option File) (prot flags : ULong) (off : Nat) :
    (mmapArea s file addr len prot flags off).vmEnd = addr + len := by
  have hbound := hrange.bounds.1
  rw [halign] at hbound
  show wrap (addr + len) = addr + len
  simp only [wrap, maxUserAddr, taskSize] at *
  omega

theorem pageAlign_idem {x : Nat} (h : pageAlign x ≤ maxUserAddr) :
    pageAlign (pageAlign x) = pageAlign x := by
  simp only [pageAlign, pageMask, wrap, pageSize, maxUserAddr, taskSize] at *
  omega

theorem Removed.of_eq {s0 : MmStruct} (h : Removed a e s0 ps s' ps')
    (hsegs : ps.map s0.seg = ps.map s.seg) (htotal : s0.totalVm = s.totalVm) :
    Removed a e s ps s' ps' :=
  ⟨h.list, hsegs ▸ h.segs, htotal ▸ hsegs ▸ h.totalVm⟩

/-- What comes of a call of `do_mmap`, once the address is `r`. -/
structure MmapAt (s : MmStruct) (ps : List VmPtr) (file : Option File) (len : Nat)
    (prot flags : ULong) (off r : Nat) (result : MmStruct × Except Errno Nat) : Prop where
  range : UserRange r (pageAlign len)
  nonempty : 0 < pageAlign len
  cases : ((∃ error, result.2 = .error error) ∧
      ∃ ps', Removed r (r + pageAlign len) s ps result.1 ps') ∨
    ∃ area count count',
      callMmap file (mmapArea s file r (pageAlign len) prot flags off) count = .ok (area, count') ∧
      result.2 = .ok r ∧ ∃ ps' s₁ ps₁, Mapped area s ps result.1 ps' s₁ ps₁

theorem mmapInto_at (hK : K.Succeeds) (h : AreaList s ps) (cur : Current) (file : Option File)
    {r : Nat} (prot flags : ULong) (off : Nat) (hrange : UserRange r (pageAlign len))
    (hlen : 0 < pageAlign len) (hmax : pageAlign len ≤ maxUserAddr) (hvma : vma ∉ s.allocated) :
    MmapAt s ps file len prot flags off r (mmapInto cur K ((s.take vma).set vma
      (mmapArea s file r (pageAlign len) prot flags off)) file vma r (pageAlign len)) := by
  have hidem := pageAlign_idem hmax
  have hnot : vma ∉ ps := fun hin => hvma (h.live vma hin)
  obtain ⟨s0, hs0⟩ : ∃ s0, s0 = (s.take vma).set vma
    (mmapArea s file r (pageAlign len) prot flags off) := ⟨_, rfl⟩
  have hmem : s0.mem vma = mmapArea s file r (pageAlign len) prot flags off := by
    rw [hs0, MmStruct.set_mem_self]
  have hsegs : ps.map s0.seg = ps.map s.seg := map_congr_left fun q hq => by
    rw [hs0]
    exact congrArg VmArea.seg (MmStruct.set_mem_of_ne fun heq => hnot (heq ▸ hq))
  have htotal : s0.totalVm = s.totalVm := by rw [hs0]; rfl
  rw [← hs0]
  refine ⟨hrange, hlen, ?_⟩
  rcases mmapInto_spec hK (s := s0) (by rw [hs0]; exact (h.take vma).setOther _ hnot) hnot
    (by rw [hs0]; exact Finset.mem_insert_self ..) hrange hidem hlen (by rw [hmem]; rfl)
    (by rw [hmem]; exact mmapArea_bounds hrange hidem ..) cur file rfl with
    ⟨herror, ps', hremoved⟩ | ⟨area, count, count', hcall, hok, ps', s1, ps1, hmapped⟩
  · exact .inl ⟨herror, ps', hremoved.of_eq hsegs htotal⟩
  · rw [hmem] at hcall
    exact .inr ⟨area, count, count', hcall, hok, ps', s1, ps1, hmapped.removed.of_eq hsegs htotal,
      hmapped.list, hmapped.inserted, hmapped.totalVm⟩

/-- `do_mmap` does nothing, or it works at the address given or found. -/
theorem doMmap_cases (hK : K.Succeeds) (h : AreaList s ps) (cur : Current) (file : Option File)
    (addr len : Nat) (prot flags : ULong) (off : Nat)
    (haligned : flags &&& mapFixed ≠ 0 ∨ Edges (pageSize ∣ ·) (ps.map s.seg)) :
    ((doMmap cur K s file addr len prot flags off).1 = s ∧
        ∀ r, (doMmap cur K s file addr len prot flags off).2 = .ok r → pageAlign len = 0) ∨
      ∃ r, (flags &&& mapFixed ≠ 0 → r = addr) ∧
        MmapAt s ps file len prot flags off r (doMmap cur K s file addr len prot flags off) := by
  rw [doMmap]
  dsimp only
  split
  next hzero => exact .inl ⟨rfl, fun _ _ => hzero⟩
  next hpos =>
    split
    next hcheck =>
      obtain ⟨hmax, haddr⟩ : pageAlign len ≤ maxUserAddr ∧ addr ≤ maxUserAddr - pageAlign len := by
        unfold mmapCheck at hcheck
        split at hcheck
        · cases hcheck
        next hle => omega
      split
      · exact .inl ⟨rfl, nofun⟩
      next hfix =>
        generalize hr : (if flags &&& mapFixed ≠ 0 then addr
          else getUnmappedArea s addr (pageAlign len)) = r
        split
        · exact .inl ⟨rfl, nofun⟩
        next hfound =>
          split
          · exact .inl ⟨rfl, nofun⟩
          · obtain ⟨vma, hvma, hk⟩ := kmalloc_succeeds hK s
            have hrange : UserRange r (pageAlign len) := by
              by_cases hfixed : flags &&& mapFixed ≠ 0
              · rw [if_pos hfixed] at hr
                rw [not_and, not_not] at hfix
                exact ⟨hr ▸ hfix hfixed, by omega, by omega⟩
              · rw [if_neg hfixed] at hr
                rw [not_not] at hfixed
                obtain ⟨-, hfree⟩ := getUnmappedArea_spec h fun hzero => hfound ⟨hfixed, hr ▸ hzero⟩
                rw [hr] at hfree
                have hle := hfree.le
                refine ⟨Nat.mod_eq_zero_of_dvd (hfree.aligned ?_), by omega, by omega⟩
                exact haligned.resolve_left (not_not.mpr hfixed)
            rw [hk]
            refine .inr ⟨r, fun hfixed => ?_, mmapInto_at hK h cur file prot flags off hrange
              (by omega) hmax hvma⟩
            rw [← hr, if_pos hfixed]
    · exact .inl ⟨rfl, nofun⟩

end

end Sbckernel.Mm
