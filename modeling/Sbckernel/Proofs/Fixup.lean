import Sbckernel.Proofs.MergeSegments

/-!
# `mprotect` and `mlock` change a range of the map

A visit of one area gives the part of it in the range a new tag and leaves the
rest of the area, as new structures where it has to be split, with the old one.
The loop over the range is then a chain of such changes, each beginning where the
one before ends; an error on the way leaves a change of a part of the range.
-/

namespace Sbckernel.Mm

open Lib Segment List MmStruct

/-- What `change` does to the areas with tag `t`. -/
structure Changes (change : VmArea → VmArea) (t t' : PageTag) : Prop where
  seg : ∀ area, area.tag = t → (change area).seg = ⟨t', area.vmStart, area.vmEnd⟩
  next : ∀ area, (change area).vmNext = area.vmNext

namespace Changes

variable {change : VmArea → VmArea} {t t' : PageTag} {area : VmArea}
variable {m ps : List VmPtr} {last : Nat} {g : VmFlags → VmFlags}

theorem vmStart (h : Changes change t t') (ht : area.tag = t) :
    (change area).vmStart = area.vmStart := congrArg Segment.lo (h.seg area ht)

theorem vmEnd (h : Changes change t t') (ht : area.tag = t) :
    (change area).vmEnd = area.vmEnd := congrArg Segment.hi (h.seg area ht)

end Changes

/-- The area `vma` of `s` has become the areas `m` of `s'`, with its tag changed by
`f` in the range from `a` to `e`. -/
structure Fixed (a e : Nat) (f : PageTag → PageTag) (s : MmStruct) (l : List VmPtr) (vma : VmPtr)
    (l' : List VmPtr) (s' : MmStruct) (m : List VmPtr) : Prop where
  list : AreaList s' (l ++ (m ++ l'))
  patched : Patched a e f [s.seg vma] (m.map s'.seg)
  left : ∀ q ∈ l, s'.seg q = s.seg q
  right : ∀ q ∈ l', s'.mem q = s.mem q
  totalVm : s'.totalVm = s.totalVm

section
variable {s s0 : MmStruct} {l l' : List VmPtr} {vma : VmPtr} {w : VmArea}
  {change : VmArea → VmArea} {f : PageTag → PageTag} {K : Kmalloc} {a e : Nat}

theorem tag_upper (area : VmArea) (x : Nat) : (area.upper x).tag = area.tag :=
  congrArg Segment.tag (area.seg_upper x)

/-! ## One area -/

/-- The area has been cut down to `w` in its place, and everything else is ready
for the new structures to be put in. -/
structure Prepared (s : MmStruct) (l : List VmPtr) (vma : VmPtr) (l' : List VmPtr) (s0 : MmStruct)
    (w : VmArea) : Prop where
  list : AreaList s0 (l ++ vma :: l')
  area : s0.mem vma = w
  others : ∀ q ∈ l ++ l', s0.mem q = s.mem q
  totalVm : s0.totalVm = s.totalVm

/-- The areas `m` stand in `s'` between those that `s` has on the left and on the right. -/
structure Spliced (s : MmStruct) (l l' : List VmPtr) (s' : MmStruct) (m : List VmPtr) : Prop where
  list : AreaList s' (l ++ (m ++ l'))
  left : ∀ q ∈ l, s'.seg q = s.seg q
  right : ∀ q ∈ l', s'.mem q = s.mem q
  totalVm : s'.totalVm = s.totalVm

theorem Spliced.fixed (h : Spliced s l l' s0 m) (ha : (s.mem vma).vmStart ≤ a)
    (hae : a ≤ e) (he : e ≤ (s.mem vma).vmEnd) (hsegs : m.map s0.seg = patch a e f (s.seg vma)) :
    Fixed a e f s l vma l' s0 m :=
  { h with patched := hsegs ▸ patched_patch f ha hae he }

/-- A structure that is not in the list yet goes in among `m`. -/
theorem Spliced.insert {m' : List VmPtr} {n : VmPtr} {x : Segment PageTag}
    (h : Spliced s l l' s0 (m ++ m')) (hn : n ∉ l ++ (m ++ m' ++ l')) (hlive : n ∈ s0.allocated)
    (hx : s0.seg n = x) (hproper : x.lo < x.hi) (hword : x.hi < 2 ^ 32)
    (hl : ∀ q ∈ l, (s.mem q).vmEnd ≤ x.lo) (hm : ∀ q ∈ m, (s0.seg q).hi ≤ x.lo)
    (hm' : ∀ q ∈ m', x.hi ≤ (s0.seg q).lo) (hl' : ∀ q ∈ l', x.hi ≤ (s.mem q).vmStart) :
    Spliced s l l' (insertVmStruct s0 n) (m ++ n :: m') := by
  subst hx
  have hassoc : l ++ (m ++ m' ++ l') = (l ++ m) ++ (m' ++ l') := by simp
  have hre := relinked_insertVmStruct s0 n
  obtain ⟨hlist, hsame⟩ := (hassoc ▸ h.list).insert (hassoc ▸ hn) hlive hproper hword
    (forall_mem_append.mpr
      ⟨fun q hq => (congrArg Segment.hi (h.left q hq)).trans_le (hl q hq), hm⟩)
    (forall_mem_append.mpr ⟨hm', fun q hq => by rw [h.right q hq]; exact hl' q hq⟩)
  refine ⟨by simpa using hlist, fun q hq => ?_, fun q hq => ?_, hre.totalVm.trans h.totalVm⟩
  · rw [hre.seg, h.left q hq]
  · rw [hsame q ?_ fun heq => hn (by simp [← heq, hq]), h.right q hq]
    have hnd := h.list.nodup
    rw [hassoc, nodup_append] at hnd
    exact fun hqm => hnd.2.2 q hqm q (by simp [hq]) rfl

namespace Prepared

theorem refl (h : AreaList s (l ++ vma :: l')) : Prepared s l vma l' s (s.mem vma) :=
  ⟨h, rfl, fun _ _ => rfl, rfl⟩

section
variable (h : Prepared s l vma l' s0 w)
include h

theorem spliced : Spliced s l l' s0 [vma] :=
  ⟨h.list, fun q hq => congrArg VmArea.seg (h.others q (by simp [hq])),
    fun q hq => h.others q (by simp [hq]), h.totalVm⟩

theorem take (n : VmPtr) : Prepared s l vma l' (s0.take n) w :=
  ⟨h.list.take n, h.area, h.others, h.totalVm⟩

theorem addCount (inode : Option InodePtr) (n : Int) :
    Prepared s l vma l' (s0.addCount inode n) w :=
  ⟨h.list.addCount inode n, by simp [h.area], by simpa using h.others, by simp [h.totalVm]⟩

theorem setOther {n : VmPtr} (hn : n ∉ l ++ vma :: l')
    (v : VmArea) : Prepared s l vma l' (s0.set n v) w := by
  have hmem : ∀ q ∈ l ++ vma :: l', (s0.set n v).mem q = s0.mem q := fun q hq =>
    set_mem_of_ne fun heq => hn (heq ▸ hq)
  refine ⟨h.list.setOther v hn, (hmem vma (by simp)).trans h.area, fun q hq => ?_, h.totalVm⟩
  exact (hmem q (by simp only [mem_append, mem_cons] at hq ⊢; tauto)).trans (h.others q hq)

theorem set {v : VmArea} (hnext : v.vmNext = w.vmNext)
    (hv : v.vmStart < v.vmEnd) (hlo : w.vmStart ≤ v.vmStart) (hhi : v.vmEnd ≤ w.vmEnd) :
    Prepared s l vma l' (s0.set vma v) v := by
  obtain rfl := h.area
  refine ⟨h.list.set hnext hv (lt_of_le_of_lt hhi (h.list.word vma (by simp)))
    (fun q hq => (h.list.left_le hq).trans hlo) fun q hq => hhi.trans (h.list.le_right hq),
    set_mem_self, fun q hq => ?_, h.totalVm⟩
  refine (set_mem_of_ne ?_).trans (h.others q hq)
  rintro rfl
  exact (mem_append.mp hq).elim h.list.notMem_left h.list.notMem_right

end

end Prepared

section
variable (hK : K.Succeeds) (nomem : Errno) (h : AreaList s (l ++ vma :: l'))
  (hc : Changes change (s.mem vma).tag (f (s.mem vma).tag))
include h hc

theorem fixupAll_spec :
    Fixed (s.mem vma).vmStart (s.mem vma).vmEnd f s l vma l' (fixupAll change s vma).1 [vma] := by
  have hproper := h.proper (p := vma) (by simp)
  have hpre := (Prepared.refl h).set (hc.next _) (by rwa [hc.vmStart rfl, hc.vmEnd rfl])
    (hc.vmStart rfl).ge (hc.vmEnd rfl).le
  refine hpre.spliced.fixed le_rfl hproper.le le_rfl ?_
  rw [patch, MmStruct.seg, VmArea.seg, part_self, part_self, part_of_lt _ hproper]
  exact congrArg (· :: []) ((congrArg VmArea.seg hpre.area).trans (hc.seg _ rfl))

include hK

/-- The part of the range is the lower end of the area: it goes into `n`. -/
theorem fixupStart_spec (hlo : (s.mem vma).vmStart < e) (hhi : e < (s.mem vma).vmEnd) :
    ∃ n, (fixupStart change nomem K s vma e).2 = .ok ∧
      Fixed (s.mem vma).vmStart e f s l vma l' (fixupStart change nomem K s vma e).1 [n, vma] := by
  obtain ⟨n, hn, hk⟩ := kmalloc_succeeds hK s
  have hnl : n ∉ l ++ vma :: l' := fun hmem => hn (h.live n hmem)
  have hput : ∀ {s0}, Prepared s l vma l' s0 ((s.mem vma).upper e) →
      s0.mem n = change { s.mem vma with vmEnd := e } → n ∈ s0.allocated →
      Fixed (s.mem vma).vmStart e f s l vma l' (insertVmStruct s0 n) [n, vma] := by
    intro s0 hpre hmemn hlive
    have hsegn : s0.seg n = ⟨f (s.mem vma).tag, (s.mem vma).vmStart, e⟩ :=
      (congrArg VmArea.seg hmemn).trans (hc.seg _ rfl)
    have hsegv : s0.seg vma = ⟨(s.mem vma).tag, e, (s.mem vma).vmEnd⟩ :=
      (congrArg VmArea.seg hpre.area).trans (VmArea.seg_upper ..)
    have hins := Spliced.insert (m := []) hpre.spliced hnl hlive hsegn hlo
      (hhi.trans (h.word vma (by simp))) (fun q hq => h.left_le hq) nofun (by simp [hsegv])
      fun q hq => hhi.le.trans (h.le_right hq)
    refine hins.fixed le_rfl hlo.le hhi.le ?_
    rw [(relinked_insertVmStruct s0 n).seg, patch, MmStruct.seg, VmArea.seg, part_self,
      part_of_lt _ hlo, part_of_lt _ hhi]
    simp [hsegn, hsegv]
  rw [fixupStart, hk]
  refine ⟨n, rfl, hput (((((Prepared.refl h).take n).set (v := (s.mem vma).upper e) rfl hhi hlo.le
    le_rfl).setOther hnl _).addCount _ _) ?_ ?_⟩
  · rw [addCount_mem, set_mem_self]
    rfl
  · rw [addCount_allocated]
    exact Finset.mem_insert_self ..

/-- The part of the range is the upper end of the area: it goes into `n`. -/
theorem fixupEnd_spec (hlo : (s.mem vma).vmStart < a) (hhi : a < (s.mem vma).vmEnd) :
    ∃ n, (fixupEnd change nomem K s vma a).2 = .ok ∧
      Fixed a (s.mem vma).vmEnd f s l vma l' (fixupEnd change nomem K s vma a).1 [vma, n] := by
  obtain ⟨n, hn, hk⟩ := kmalloc_succeeds hK s
  have hnl : n ∉ l ++ vma :: l' := fun hmem => hn (h.live n hmem)
  have hput : ∀ {s0}, Prepared s l vma l' s0 { s.mem vma with vmEnd := a } →
      s0.mem n = change ((s.mem vma).upper a) → n ∈ s0.allocated →
      Fixed a (s.mem vma).vmEnd f s l vma l' (insertVmStruct s0 n) [vma, n] := by
    intro s0 hpre hmemn hlive
    have hsegn : s0.seg n = ⟨f (s.mem vma).tag, a, (s.mem vma).vmEnd⟩ :=
      (congrArg VmArea.seg hmemn).trans (hc.seg _ (tag_upper _ a))
    have hsegv : s0.seg vma = ⟨(s.mem vma).tag, (s.mem vma).vmStart, a⟩ :=
      congrArg VmArea.seg hpre.area
    have hins := Spliced.insert (m := [vma]) hpre.spliced hnl hlive hsegn hhi
      (h.word vma (by simp)) (fun q hq => (h.left_le hq).trans hlo.le) (by simp [hsegv]) nofun
      fun q hq => h.le_right hq
    refine hins.fixed hlo.le hhi.le le_rfl ?_
    rw [(relinked_insertVmStruct s0 n).seg, patch, MmStruct.seg, VmArea.seg, part_self,
      part_of_lt _ hlo, part_of_lt _ hhi]
    simp [hsegn, hsegv]
  rw [fixupEnd, hk]
  refine ⟨n, rfl, hput (((((Prepared.refl h).take n).set (v := { s.mem vma with vmEnd := a })
    rfl hlo le_rfl hhi.le).setOther hnl _).addCount _ _) ?_ ?_⟩
  · rw [addCount_mem, set_mem_self]
    rfl
  · rw [addCount_allocated]
    exact Finset.mem_insert_self ..

/-- The range lies inside the area: the parts on both sides become new areas. -/
theorem fixupMiddle_spec (hlo : (s.mem vma).vmStart < a) (hae : a < e)
    (hhi : e < (s.mem vma).vmEnd) :
    ∃ m n, (fixupMiddle change nomem K s vma a e).2 = .ok ∧
      Fixed a e f s l vma l' (fixupMiddle change nomem K s vma a e).1 [m, vma, n] := by
  obtain ⟨m, hm, hkm⟩ := kmalloc_succeeds hK s
  obtain ⟨n, hn, hkn⟩ := kmalloc_succeeds hK (s.take m)
  have hml : m ∉ l ++ vma :: l' := fun hmem => hm (h.live m hmem)
  have hnl : n ∉ l ++ vma :: l' := fun hmem => hn (Finset.mem_insert_of_mem (h.live n hmem))
  have hmn : m ≠ n := fun heq => hn (heq ▸ Finset.mem_insert_self ..)
  have hupper : ({ s.mem vma with vmEnd := e }.upper a).tag = (s.mem vma).tag := tag_upper _ a
  have hmid := hc.seg _ hupper
  have hput : ∀ {s0}, Prepared s l vma l' s0 (change ({ s.mem vma with vmEnd := e }.upper a)) →
      s0.mem m = { s.mem vma with vmEnd := a } → s0.mem n = (s.mem vma).upper e →
      m ∈ s0.allocated → n ∈ s0.allocated →
      Fixed a e f s l vma l' (insertVmStruct (insertVmStruct s0 m) n) [m, vma, n] := by
    intro s0 hpre hmemm hmemn hlivem hliven
    have hsegm : s0.seg m = ⟨(s.mem vma).tag, (s.mem vma).vmStart, a⟩ := congrArg VmArea.seg hmemm
    have hsegv : s0.seg vma = ⟨f (s.mem vma).tag, a, e⟩ :=
      (congrArg VmArea.seg hpre.area).trans hmid
    have hsegn : s0.seg n = ⟨(s.mem vma).tag, e, (s.mem vma).vmEnd⟩ :=
      (congrArg VmArea.seg hmemn).trans (VmArea.seg_upper ..)
    have hword := h.word vma (by simp)
    have hre := relinked_insertVmStruct s0 m
    -- the left part goes in before the area, the right part behind it
    have hleft := Spliced.insert (m := []) hpre.spliced hml hlivem hsegm hlo
      (by show a < _; omega) (fun q hq => h.left_le hq) nofun (by simp [hsegv])
      fun q hq => (hae.trans hhi).le.trans (h.le_right hq)
    have hright := (show Spliced s l l' _ ([m, vma] ++ []) from hleft).insert
      (by simpa [hmn.symm] using hnl) (hre.allocated ▸ hliven)
      ((congrFun hre.seg n).trans hsegn) hhi
      hword (fun q hq => (h.left_le hq).trans (hlo.trans hae).le)
      (by simp [hre.seg, hsegm, hsegv, hae.le]) nofun fun q hq => h.le_right hq
    refine hright.fixed hlo.le hae.le hhi.le ?_
    rw [(hre.trans (relinked_insertVmStruct _ n)).seg, patch, MmStruct.seg, VmArea.seg,
      part_of_lt _ hlo, part_of_lt _ hae, part_of_lt _ hhi]
    simp [hsegm, hsegv, hsegn]
  rw [fixupMiddle, hkm]
  dsimp only
  rw [hkn]
  have hvm : vma ≠ m := fun heq => hml (by simp [heq])
  have hvn : vma ≠ n := fun heq => hnl (by simp [heq])
  refine ⟨m, n, rfl, hput (((((((Prepared.refl h).take m).take n).setOther hml _).setOther hnl
    _).set (v := change ({ s.mem vma with vmEnd := e }.upper a)) (hc.next _) ?_ ?_ ?_).addCount _ _)
    ?_ ?_ ?_ ?_⟩
  · rw [hc.vmStart hupper, hc.vmEnd hupper]
    exact hae
  · rw [hc.vmStart hupper]
    exact hlo.le
  · rw [hc.vmEnd hupper]
    exact hhi.le
  · rw [addCount_mem, set_mem_of_ne hvm.symm, set_mem_of_ne hmn,
      set_mem_self]
    rfl
  · rw [addCount_mem, set_mem_of_ne hvn.symm, set_mem_self]
    rfl
  · rw [addCount_allocated]
    exact Finset.mem_insert_of_mem (Finset.mem_insert_self ..)
  · rw [addCount_allocated]
    exact Finset.mem_insert_self ..

/-- The choice between the four. -/
theorem fixup_spec (hlo : (s.mem vma).vmStart ≤ a) (hae : a < e) (hhi : e ≤ (s.mem vma).vmEnd) :
    (fixup change nomem K s vma a e).2 = .ok ∧
      ∃ m, Fixed a e f s l vma l' (fixup change nomem K s vma a e).1 m := by
  rw [fixup]
  split
  next ha =>
    subst ha
    split
    next he =>
      subst he
      exact ⟨rfl, _, fixupAll_spec h hc⟩
    next he =>
      obtain ⟨n, hok, hfixed⟩ := fixupStart_spec hK nomem h hc hae (by omega)
      exact ⟨hok, _, hfixed⟩
  next ha =>
    split
    next he =>
      subst he
      obtain ⟨n, hok, hfixed⟩ := fixupEnd_spec hK nomem h hc (by omega) hae
      exact ⟨hok, _, hfixed⟩
    next he =>
      obtain ⟨m, n, hok, hfixed⟩ := fixupMiddle_spec hK nomem h hc (by omega) hae (by omega)
      exact ⟨hok, _, hfixed⟩

end

/-- The change of one area as a change of the whole list. -/
theorem Fixed.whole {s' : MmStruct} (hf : Fixed a e f s l vma l' s' m)
    (h : AreaList s (l ++ vma :: l')) (hlo : (s.mem vma).vmStart ≤ a)
    (hhi : e ≤ (s.mem vma).vmEnd) :
    Patched a e f ((l ++ vma :: l').map s.seg) ((l ++ (m ++ l')).map s'.seg) := by
  have hl : l.map s'.seg = l.map s.seg := map_congr_left hf.left
  have hl' : l'.map s'.seg = l'.map s.seg := map_congr_left fun q hq =>
    congrArg VmArea.seg (hf.right q hq)
  rw [map_append, map_cons, map_append, map_append, hl, hl', ← singleton_append]
  refine hf.patched.inside (forall_mem_map.mpr fun q hq => ?_)
    (forall_mem_map.mpr fun q hq => ?_)
  · exact (h.left_le hq).trans hlo
  · exact hhi.trans (h.le_right hq)

/-! ## The loop -/

/-- A visit changes the part of the area in the range, or fails and does nothing. -/
def Visits (visit : MmStruct → VmPtr → Nat → Nat → MmStruct × Errno) (f : PageTag → PageTag) :
    Prop :=
  ∀ ⦃s l vma l' a e⦄, AreaList s (l ++ vma :: l') → (s.mem vma).vmStart ≤ a → a < e →
    e ≤ (s.mem vma).vmEnd →
    ((visit s vma a e).2 = .ok ∧ ∃ m, Fixed a e f s l vma l' (visit s vma a e).1 m) ∨
      ((visit s vma a e).2 ≠ .ok ∧ (visit s vma a e).1 = s)

/-- The tags have been changed from `a` on, up to `last` or up to a place where
an error occurred. -/
structure Swept (a last : Nat) (f : PageTag → PageTag) (s : MmStruct) (ps : List VmPtr)
    (r : MmStruct × Errno) (b : Nat) (ps' : List VmPtr) : Prop where
  list : AreaList r.1 ps'
  patched : Patched a b f (ps.map s.seg) (ps'.map r.1.seg)
  le : a ≤ b
  le_last : b ≤ last
  edge : ∀ Q : Nat → Prop, Q a → Q last → Edges Q (ps.map s.seg) → Q b
  bounded : (b = a ∧ r.1 = s ∧ ps' = ps) ∨ ∀ M, Edges (· ≤ M) (ps.map s.seg) → b ≤ M
  totalVm : r.1.totalVm = s.totalVm
  done : r.2 = .ok → b = last

/-- Nothing has been done, because of an error or because the range is empty. -/
theorem AreaList.swept (h : AreaList s ps) (hle : a ≤ last)
    {error : Errno} (hdone : error = .ok → a = last) : Swept a last f s ps (s, error) a ps :=
  ⟨h, .refl .., le_rfl, hle, fun _ ha _ _ => ha, .inl ⟨rfl, rfl, rfl⟩, rfl, hdone⟩

theorem fixupLoop_spec {visit : MmStruct → VmPtr → Nat → Nat → MmStruct × Errno} {hole : Errno}
    (hvisit : Visits visit f) (hhole : hole ≠ .ok) (h : AreaList s (l ++ vma :: l'))
    (hlo : (s.mem vma).vmStart ≤ a) (hhi : a < (s.mem vma).vmEnd) (hlast : a < last) {n : Nat}
    (hn : l'.length < n) :
    ∃ b ps', Swept a last f s (l ++ vma :: l') (fixupLoop visit hole last n s vma a) b ps' := by
  induction n generalizing s l vma l' a with
  | zero => omega
  | succ n ih =>
    have hedge : ∀ Q : Nat → Prop, Edges Q ((l ++ vma :: l').map s.seg) →
        Q (s.mem vma).vmEnd := fun Q hQ =>
      (hQ (s.seg vma) (mem_map_of_mem (by simp))).2
    rw [fixupLoop]
    split
    next hend =>
      rcases hvisit h hlo hlast hend with ⟨-, m, hf⟩ | ⟨herror, hsame⟩
      · exact ⟨last, _, hf.list, hf.whole h hlo hend, hlast.le, le_rfl, fun _ _ hl _ => hl,
          .inr fun M hM => hend.trans (hedge _ hM), hf.totalVm, fun _ => rfl⟩
      · rw [show visit s vma a last = (s, (visit s vma a last).2) from Prod.ext hsame rfl]
        exact ⟨a, _, h.swept hlast.le (absurd · herror)⟩
    next hend =>
      dsimp only
      rcases hvisit h hlo hhi le_rfl with ⟨hok, m, hf⟩ | ⟨herror, hsame⟩
      · rw [show visit s vma a (s.mem vma).vmEnd =
          ((visit s vma a (s.mem vma).vmEnd).1, .ok) from Prod.ext rfl hok, h.next_eq]
        generalize (visit s vma a (s.mem vma).vmEnd).1 = s' at hf
        have hwhole := hf.whole h hlo le_rfl
        -- an error behind the area: the change ends with it
        have hstop : Swept a last f s (l ++ vma :: l') (s', hole) (s.mem vma).vmEnd
            (l ++ (m ++ l')) :=
          ⟨hf.list, hwhole, hhi.le, by omega, fun Q _ _ hQ => hedge Q hQ,
            .inr fun M hM => hedge _ hM, hf.totalVm, fun hok => absurd hok hhole⟩
        cases l' with
        | nil => exact ⟨_, _, hstop⟩
        | cons q l' =>
          rw [head?_cons]
          dsimp only
          split
          · exact ⟨_, _, hstop⟩
          next hq =>
            rw [not_not] at hq
            have hlist : AreaList s' ((l ++ m) ++ q :: l') := by simpa using hf.list
            have hqproper := hlist.proper (p := q) (by simp)
            rw [length_cons] at hn
            obtain ⟨b, ps', hswept⟩ := ih hlist hq.le (hq ▸ hqproper) (by omega)
              (show l'.length < n by omega)
            rw [append_assoc] at hswept
            refine ⟨b, ps', hswept.list, ?_, hhi.le.trans hswept.le, hswept.le_last,
              fun Q ha hl hQ => ?_, .inr fun M hM => ?_, hswept.totalVm.trans hf.totalVm,
              hswept.done⟩
            · exact hwhole.trans hswept.patched hhi.le hswept.le fun Q _ _ hQ => hedge Q hQ
            · exact hswept.edge Q (hedge Q hQ) hl (hwhole.edges Q ha (hedge Q hQ) hQ)
            · have hM' : (s.mem vma).vmEnd ≤ M := hedge _ hM
              rcases hswept.bounded with ⟨rfl, -, -⟩ | hbound
              · exact hM'
              · exact hbound M (hwhole.edges _ (hhi.le.trans hM') hM' hM)
      · generalize visit s vma a (s.mem vma).vmEnd = r at herror hsame
        obtain ⟨s', error⟩ := r
        obtain rfl : s' = s := hsame
        split
        next heq => exact absurd (congrArg Prod.snd heq) herror
        next heq =>
          rw [← heq]
          exact ⟨a, _, h.swept hlast.le (absurd · herror)⟩

/-- The whole range: what the loop has changed is merged again, which does not
matter. -/
theorem fixupRange_spec {visit : MmStruct → VmPtr → Nat → Nat → MmStruct × Errno} {hole : Errno}
    (hvisit : Visits visit f) (hhole : hole ≠ .ok) (h : AreaList s ps) (hlast : a < last) :
    ∃ b ps', Swept a last f s ps (fixupRange visit hole s a last) b ps' := by
  rw [fixupRange]
  rcases h.findVma_cases a with ⟨hnone, -⟩ | ⟨l, vma, l', rfl, hsome, hend, -⟩
  · rw [hnone]
    exact ⟨a, ps, h.swept hlast.le (absurd · hhole)⟩
  · rw [hsome]
    dsimp only
    split
    · exact ⟨a, _, h.swept hlast.le (absurd · hhole)⟩
    next hstart =>
      have hlength := h.length_le
      rw [length_append, length_cons] at hlength
      obtain ⟨b, ps', hswept⟩ := fixupLoop_spec hvisit hhole h (not_lt.mp hstart) hend hlast
        (show l'.length < s.live + 1 by omega)
      generalize fixupLoop visit hole last (s.live + 1) s vma a = r at hswept
      obtain ⟨s', error⟩ := r
      obtain ⟨qs, hlist, htiled, htotal⟩ := mergeSegments_spec hswept.list a last
      refine ⟨b, qs, hlist, ⟨fun x => ?_, fun Q ha hb hQ => ?_, fun u ha hb hu => ?_⟩, hswept.le,
        hswept.le_last, hswept.edge, .inr fun M hM => ?_, htotal.trans hswept.totalVm, hswept.done⟩
      · rw [htiled.tagAt]
        exact hswept.patched.tagAt x
      · exact htiled.edges Q (hswept.patched.edges Q ha hb hQ)
      · rw [htiled.size u (hswept.patched.edges _ ha hb hu)]
        exact hswept.patched.size u ha hb hu
      · rcases hswept.bounded with ⟨rfl, -, -⟩ | hbound
        · exact hend.le.trans (hM (s.seg vma) (mem_map_of_mem (by simp))).2
        · exact hbound M hM

/-! ## The flags of the two calls -/

/-- The change of a tag when only the flags change. -/
def PageTag.withFlags (g : VmFlags → VmFlags) (t : PageTag) : PageTag :=
  { t with flags := g t.flags }

/-- New flags that keep `VM_SHM`, so that the offset means as much as before. -/
theorem changes_setFlags {t : PageTag} (hg : g t.flags &&& vmShm = t.flags &&& vmShm) :
    Changes (setFlags (g t.flags)) t (t.withFlags g) := by
  refine ⟨fun area ht => ?_, fun _ => rfl⟩
  subst ht
  have hoffset : (setFlags (g area.vmFlags) area).hasOffset ↔ area.hasOffset := by
    show _ ∨ g area.vmFlags &&& vmShm ≠ 0 ↔ _ ∨ area.vmFlags &&& vmShm ≠ 0
    rw [show g area.vmFlags &&& vmShm = area.vmFlags &&& vmShm from hg]
    rfl
  have htag : (setFlags (g area.vmFlags) area).tag = area.tag.withFlags g := by
    show PageTag.mk _ _ _ _ _ = PageTag.mk _ _ _ _ _
    congr 1
    exact if_congr hoffset rfl rfl
  show Segment.mk (setFlags (g area.vmFlags) area).tag _ _ = _
  rw [htag]
  rfl

theorem protFlags_shm {prot : ULong} (hprot : prot &&& ~~~(protRead ||| protWrite ||| protExec) = 0)
    (flags : VmFlags) : protFlags prot flags &&& vmShm = flags &&& vmShm := by
  have hzero : prot.setWidth 16 &&& vmShm = 0 := by
    have hmask : prot &&& 0x400 = 0 := by
      rw [show (0x400 : ULong) = ~~~(protRead ||| protWrite ||| protExec) &&& 0x400 by decide,
        ← BitVec.and_assoc, hprot]
      decide
    rw [show vmShm = (0x400 : ULong).setWidth 16 by decide, ← BitVec.setWidth_and, hmask]
    decide
  have hkeep : ~~~protMask &&& vmShm = vmShm := by decide
  rw [protFlags, BitVec.and_or_distrib_right, BitVec.and_assoc, hkeep, hzero]
  exact BitVec.zero_or

/-- Setting and clearing `VM_LOCKED`. -/
theorem lockFlags_eq (on : Bool) (flags : VmFlags) :
    lockFlags on flags = if on then flags ||| vmLocked else flags &&& ~~~vmLocked := by
  have hnone : vmLocked &&& ~~~vmLocked = 0 := by decide
  cases on with
  | false =>
    show (flags ||| vmLocked) &&& ~~~vmLocked = flags &&& ~~~vmLocked
    rw [BitVec.and_or_distrib_right, hnone]
    exact BitVec.or_zero
  | true => rfl

theorem lockFlags_shm (on : Bool) (flags : VmFlags) :
    lockFlags on flags &&& vmShm = flags &&& vmShm := by
  rw [lockFlags_eq]
  cases on with
  | false =>
    show flags &&& ~~~vmLocked &&& vmShm = flags &&& vmShm
    rw [BitVec.and_assoc, show ~~~vmLocked &&& vmShm = vmShm by decide]
  | true =>
    show (flags ||| vmLocked) &&& vmShm = flags &&& vmShm
    rw [BitVec.and_or_distrib_right, show vmLocked &&& vmShm = 0 by decide]
    exact BitVec.or_zero

/-! ## The two visits -/

theorem Fixed.keep (h : AreaList s (l ++ vma :: l')) (hf : f (s.mem vma).tag = (s.mem vma).tag) :
    Fixed a e f s l vma l' s [vma] :=
  ⟨h, patched_keep hf, fun _ _ => rfl, fun _ _ => rfl, rfl⟩

theorem withFlags_keep {t : PageTag} (hg : g t.flags = t.flags) : t.withFlags g = t := by
  rw [PageTag.withFlags, hg]

theorem visits_mprotect (hK : K.Succeeds) {prot : ULong}
    (hprot : prot &&& ~~~(protRead ||| protWrite ||| protExec) = 0) :
    Visits (mprotectVisit K prot) (PageTag.withFlags (protFlags prot)) := by
  intro s l vma l' a e h hlo hae hhi
  rw [mprotectVisit]
  split
  · exact .inr ⟨nofun, rfl⟩
  · refine .inl ?_
    rw [mprotectFixup]
    split
    next hsame => exact ⟨rfl, _, .keep h (withFlags_keep hsame)⟩
    · exact fixup_spec hK .enomem h ⟨fun area ht =>
        (changes_setFlags (protFlags_shm hprot (s.mem vma).vmFlags)).seg area ht, fun _ => rfl⟩
        hlo hae hhi

/-- `locked_vm` does not count. -/
theorem Fixed.locked {s' : MmStruct} (h : Fixed a e f s l vma l' s' m)
    (n : ULong) : Fixed a e f s l vma l' { s' with lockedVm := n } m :=
  { h with list := h.list.congr (fun _ _ => rfl) rfl rfl fun _ _ hlive => hlive }

theorem mlockFixup_eq (K : Kmalloc) (s : MmStruct) (vma : VmPtr) (start last : Nat)
    (newflags : VmFlags) : mlockFixup K s vma start last newflags =
      if newflags = (s.mem vma).vmFlags then (s, .ok)
      else
        match fixup (setFlags newflags) .eagain K s vma start last with
        | (s, .ok) =>
          ({ s with lockedVm := s.lockedVm + if newflags &&& vmLocked = 0
              then -pages (wordSub last start) else pages (wordSub last start) }, .ok)
        | (s, e) => (s, e) := rfl

/-- After the change of the area only `locked_vm` is set. -/
theorem visits_mlock (hK : K.Succeeds) (on : Bool) :
    Visits (mlockVisit K on) (PageTag.withFlags (lockFlags on)) := by
  intro s l vma l' a e h hlo hae hhi
  refine .inl ?_
  rw [mlockVisit]
  by_cases hsame : lockFlags on (s.mem vma).vmFlags = (s.mem vma).vmFlags
  · rw [mlockFixup_eq, if_pos hsame]
    exact ⟨rfl, _, .keep h (withFlags_keep hsame)⟩
  · obtain ⟨hok, m, hf⟩ := fixup_spec hK .eagain h (changes_setFlags (t := (s.mem vma).tag)
      (lockFlags_shm on _)) hlo hae hhi
    rw [mlockFixup_eq, if_neg hsame]
    dsimp only [VmArea.tag] at hok hf
    generalize fixup _ .eagain K s vma a e = r at hok hf ⊢
    obtain ⟨s', error⟩ := r
    obtain rfl : error = .ok := hok
    exact ⟨rfl, m, hf.locked _⟩

/-! ## The calls -/

theorem sysMprotect_spec (hK : K.Succeeds) (h : AreaList s ps) (start len : Nat) (prot : ULong) :
    (start % pageSize = 0 ∧ start ≤ wrap (start + pageAlign len) ∧
      ∃ b ps', Swept start (wrap (start + pageAlign len)) (PageTag.withFlags (protFlags prot)) s ps
        (sysMprotect K s start len prot) b ps') ∨
      (sysMprotect K s start len prot = (s, .einval)) := by
  rw [sysMprotect]
  split
  · exact .inr rfl
  next halign =>
    dsimp only
    split
    · exact .inr rfl
    next hlt =>
      split
      · exact .inr rfl
      next hprot =>
        refine .inl ⟨not_not.mp halign, not_lt.mp hlt, ?_⟩
        split
        next hempty =>
          rw [hempty]
          exact ⟨start, ps, h.swept le_rfl fun _ => rfl⟩
        next hne =>
          have hlast : start < wrap (start + pageAlign len) := by omega
          exact fixupRange_spec (visits_mprotect hK (not_not.mp hprot)) (by decide) h hlast

theorem doMlock_spec (hK : K.Succeeds) (h : AreaList s ps) (cur : Current)
    (start len : Nat) (on : Bool) :
    (start ≤ wrap (start + pageAlign len) ∧
      ∃ b ps', Swept start (wrap (start + pageAlign len)) (PageTag.withFlags (lockFlags on)) s ps
        (doMlock cur K s start len on) b ps') ∨
      ((doMlock cur K s start len on).1 = s ∧ (doMlock cur K s start len on).2 ≠ .ok) := by
  rw [doMlock]
  split
  · exact .inr ⟨rfl, nofun⟩
  · dsimp only
    split
    · exact .inr ⟨rfl, nofun⟩
    next hlt =>
      refine .inl ⟨not_lt.mp hlt, ?_⟩
      split
      next hempty =>
        rw [hempty]
        exact ⟨start, ps, h.swept le_rfl fun _ => rfl⟩
      next hne =>
        have hlast : start < wrap (start + pageAlign len) := by omega
        exact fixupRange_spec (visits_mlock hK on) (by decide) h hlast

theorem mlockFixup_whole (on : Bool) (h : AreaList s (l ++ vma :: l')) :
    ∃ s', mlockFixup K s vma (s.mem vma).vmStart (s.mem vma).vmEnd
        (lockFlags on (s.mem vma).vmFlags) = (s', .ok) ∧
      AreaList s' (l ++ vma :: l') ∧ (∀ p, (s'.seg p).bounds = (s.seg p).bounds) ∧
      s'.totalVm = s.totalVm := by
  rw [mlockFixup_eq]
  split
  · exact ⟨s, rfl, h, fun _ => rfl, rfl⟩
  · rw [fixup, if_pos rfl, if_pos rfl]
    have hf := fixupAll_spec h (changes_setFlags (t := (s.mem vma).tag) (lockFlags_shm on _))
    refine ⟨_, rfl, (hf.locked _).list, fun p => ?_, rfl⟩
    show (((s.set vma _).mem p).vmStart, ((s.set vma _).mem p).vmEnd) = _
    by_cases hp : p = vma
    · rw [hp, set_mem_self]
      rfl
    · rw [set_mem_of_ne hp]
      rfl

/-- The loop of `do_mlockall` visits whole areas only. -/
theorem mlockAreas_spec (on : Bool) (h : AreaList s (l ++ l')) {n : Nat} (hn : l'.length < n) :
    AreaList (mlockAreas K on n s l'.head?).1 (l ++ l') ∧
      (∀ p, ((mlockAreas K on n s l'.head?).1.seg p).bounds = (s.seg p).bounds) ∧
      (mlockAreas K on n s l'.head?).1.totalVm = s.totalVm := by
  induction l' generalizing s l n with
  | nil =>
    cases n with
    | zero => omega
    | succ n => exact ⟨h, fun _ => rfl, rfl⟩
  | cons vma l' ih =>
    cases n with
    | zero => omega
    | succ n =>
      obtain ⟨s', hvisit, hlist, hbounds, htotal⟩ := mlockFixup_whole (K := K) on h
      rw [length_cons] at hn
      have hassoc := append_cons l vma l'
      obtain ⟨hlist', hbounds', htotal'⟩ := ih (hassoc ▸ hlist) (show l'.length < n by omega)
      rw [head?_cons, mlockAreas, hvisit]
      dsimp only
      rw [hlist.next_eq, hassoc]
      exact ⟨hlist', fun p => (hbounds' p).trans (hbounds p), htotal'.trans htotal⟩

theorem doMlockall_spec (cur : Current) (h : AreaList s ps) (flags : ULong) :
    ∃ ps', AreaList (doMlockall cur K s flags).1 ps' ∧
      (∀ Q, Edges Q (ps.map s.seg) → Edges Q (ps'.map (doMlockall cur K s flags).1.seg)) ∧
      (∀ u, Edges (u ∣ ·) (ps.map s.seg) →
        size u (ps'.map (doMlockall cur K s flags).1.seg) = size u (ps.map s.seg)) ∧
      (doMlockall cur K s flags).1.totalVm = s.totalVm := by
  rw [doMlockall]
  split
  · exact ⟨ps, h, fun _ hQ => hQ, fun _ _ => rfl, rfl⟩
  · obtain ⟨s1, hs1⟩ : ∃ s1 : MmStruct,
      s1 = { s with defFlags := if flags &&& mclFuture ≠ 0 then vmLocked else 0 } := ⟨_, rfl⟩
    have h1 : AreaList s1 ([] ++ ps) := by
      rw [hs1]
      exact h.congr (fun _ _ => rfl) rfl rfl fun _ _ hlive => hlive
    have hseg1 : s1.seg = s.seg := by rw [hs1]; rfl
    have hhead : s1.mmap = ps.head? := by simpa using h1.linked.start
    obtain ⟨hlist, hbounds, htotal⟩ := mlockAreas_spec (K := K) (flags &&& mclCurrent ≠ 0) h1
      (Nat.lt_succ_of_le h1.length_le)
    rw [← hs1]
    dsimp only
    rw [hhead]
    generalize mlockAreas K _ _ s1 ps.head? = r at hlist hbounds htotal
    obtain ⟨s2, error⟩ := r
    obtain ⟨ps', hlist', htiled, htotal'⟩ := mergeSegments_spec hlist 0 taskSize
    have hmap : (ps.map s2.seg).map bounds = (ps.map s.seg).map bounds := by
      rw [map_map, map_map, ← hseg1]
      exact map_congr_left fun p _ => hbounds p
    refine ⟨ps', hlist', fun Q hQ => ?_, fun u hu => ?_, ?_⟩
    · exact htiled.edges Q (edges_congr hmap hQ)
    · rw [htiled.size u (edges_congr hmap hu)]
      exact size_congr u hmap
    · rw [htotal', htotal, hs1]

end

end Sbckernel.Mm
