import Mathlib.Data.BitVec
import Mathlib.Tactic.Ring
import Sbckernel.Proofs.AreaList

/-!
# `do_munmap` takes a range out of the list

Every area that meets the range is taken out of list and tree and put on a list
of its own; from that list, the highest area first, the parts outside the range
come back as new structures. In terms of segments the second loop replaces each
area by what `cut` leaves of it, at its place in the list.
-/

namespace Sbckernel.Mm

open Lib Segment List MmStruct VmArea

variable {addr limit len n : Nat} {rs acc ps : List VmPtr} {free : Option VmPtr} {q : VmPtr}

namespace VmArea

/-- The part of an area from `x` on. -/
def upper (area : VmArea) (x : Nat) : VmArea :=
  { area with
    vmOffset := area.vmOffset + (BitVec.ofNat 32 x - BitVec.ofNat 32 area.vmStart)
    vmStart := x }

theorem seg_upper (area : VmArea) (x : Nat) : (area.upper x).seg = ⟨area.tag, x, area.vmEnd⟩ := by
  have hbase : (area.upper x).vmOffset - BitVec.ofNat 32 x =
      area.vmOffset - BitVec.ofNat 32 area.vmStart := by
    simp only [upper]
    ring
  have htag : (area.upper x).tag = area.tag := by
    rw [tag, tag]
    simp only [hasOffset]
    congr 1
    exact if_congr Iff.rfl (congrArg some hbase) rfl
  rw [seg, htag]
  rfl

end VmArea

/-- The allocation with number `n` succeeds, whatever is in use. -/
def Kmalloc.Gives (K : Kmalloc) (n : Nat) : Prop := ∀ inUse, (K.pick n inUse).isSome

/-- Which allocations succeed is a matter of their numbers. -/
def Kmalloc.Regular (K : Kmalloc) : Prop :=
  ∀ n inUse inUse', (K.pick n inUse).isSome = (K.pick n inUse').isSome

/-- Of the pieces `full`, each of which needs a structure, `got` have got one: the allocations
from number `n` on, up to `n'`, were made for them. -/
structure Got (K : Kmalloc) (n n' : Nat) (full got : List (Segment PageTag)) : Prop where
  sublist : got <+ full
  all : (∀ i < full.length, K.Gives (n + i)) → got = full
  gave : got = full → n' = n + full.length ∧
    ∀ i < full.length, ∃ inUse, (K.pick (n + i) inUse).isSome

namespace Got

variable {K : Kmalloc} {n n' n'' : Nat} {full full' got got' : List (Segment PageTag)}
  {x : Segment PageTag}

theorem nil : Got K n n [] [] := ⟨.slnil, fun _ => rfl, fun _ => ⟨rfl, nofun⟩⟩

theorem one {inUse : Finset VmPtr} {p : VmPtr} (h : K.pick n inUse = some p) :
    Got K n (n + 1) [x] [x] := by
  refine ⟨.refl _, fun _ => rfl, fun _ => ⟨rfl, fun i hi => ⟨inUse, ?_⟩⟩⟩
  obtain rfl : i = 0 := Nat.lt_one_iff.mp hi
  rw [Nat.add_zero, h]
  rfl

/-- The first allocation fails, and with it the others. -/
theorem none {inUse : Finset VmPtr} (h : K.pick n inUse = .none) (hfull : full ≠ []) :
    Got K n n' full [] := by
  refine ⟨nil_sublist _, fun hall => ?_, fun hnil => absurd hnil.symm hfull⟩
  have hsome := hall 0 (length_pos_iff.mpr hfull) inUse
  rw [Nat.add_zero, h] at hsome
  cases hsome

theorem append_eq (h : Got K n n' full got) (h' : Got K n' n'' full' got')
    (heq : got' ++ got = full' ++ full) : got' = full' ∧ got = full := by
  have hle := h.sublist.length_le
  have hle' := h'.sublist.length_le
  have hlength := congrArg List.length heq
  rw [length_append, length_append] at hlength
  exact ⟨h'.sublist.eq_of_length (by omega), h.sublist.eq_of_length (by omega)⟩

/-- The pieces that come later stand in front. -/
theorem trans (h : Got K n n' full got) (h' : Got K n' n'' full' got') :
    Got K n n'' (full' ++ full) (got' ++ got) := by
  refine ⟨h'.sublist.append h.sublist, fun hall => ?_, fun heq => ?_⟩
  · simp only [length_append] at hall
    have hgot := h.all fun i hi => hall i (by omega)
    rw [hgot, h'.all fun i hi => ?_]
    rw [(h.gave hgot).1, Nat.add_assoc]
    exact hall _ (by omega)
  · obtain ⟨hgot', hgot⟩ := h.append_eq h' heq
    obtain ⟨rfl, hgave⟩ := h.gave hgot
    obtain ⟨rfl, hgave'⟩ := h'.gave hgot'
    rw [length_append]
    refine ⟨by omega, fun i hi => ?_⟩
    by_cases hlt : i < full.length
    · exact hgave i hlt
    · rw [show n + i = n + full.length + (i - full.length) by omega]
      exact hgave' _ (by omega)

end Got

/-- `s'` has the structures of `s` and perhaps more. Apart from `area` they are
as they were, except for the links of `l`. -/
structure Kept (s s' : MmStruct) (area : VmPtr) (l : List VmPtr) : Prop where
  allocated : s.allocated ⊆ s'.allocated
  core : ∀ q ∈ s.allocated, q ≠ area → (s'.mem q).core = (s.mem q).core
  mem : ∀ q ∈ s.allocated, q ≠ area → q ∉ l → s'.mem q = s.mem q

section
variable {K : Kmalloc} {s s' s1 : MmStruct} {l l' new new' : List VmPtr} {area m : VmPtr}
  {segs segs' : List (Segment PageTag)} {d : ULong}

namespace Kept

theorem seg_eq (h : Kept s s' area l) (hq : q ∈ s.allocated) (hne : q ≠ area) :
    s'.seg q = s.seg q :=
  seg_of_core (h.core q hq hne)

theorem trans (h : Kept s s1 area l) (h' : Kept s1 s' area l) : Kept s s' area l :=
  ⟨h.allocated.trans h'.allocated,
    fun q hq hne => (h'.core q (h.allocated hq) hne).trans (h.core q hq hne),
    fun q hq hne hql => (h'.mem q (h.allocated hq) hne hql).trans (h.mem q hq hne hql)⟩

theorem of_mem (halloc : s.allocated ⊆ s'.allocated)
    (hmem : ∀ q ∈ s.allocated, q ≠ area → s'.mem q = s.mem q) : Kept s s' area l :=
  ⟨halloc, fun q hq hne => congrArg VmArea.core (hmem q hq hne), fun q hq hne _ => hmem q hq hne⟩

end Kept

/-- Between `l` and `l'` stand in `s'` new structures, for the segments `segs`; and there are `d`
pages less than in `s`. -/
structure Added (s s' : MmStruct) (area : VmPtr) (l l' new : List VmPtr)
    (segs : List (Segment PageTag)) (d : ULong) : Prop extends Kept s s' area l where
  list : AreaList s' (l ++ (new ++ l'))
  segs : new.map s'.seg = segs
  fresh : ∀ p ∈ new, p ∉ s.allocated
  totalVm : s'.totalVm = s.totalVm - d

namespace Added

theorem nil (hkept : Kept s s' area l) (h : AreaList s' (l ++ l'))
    (htotal : s'.totalVm = s.totalVm - d) : Added s s' area l l' [] [] d :=
  ⟨hkept, h, rfl, nofun, htotal⟩

theorem trans (h : Added s s1 area l l' new segs d)
    (h' : Added s1 s' area l (new ++ l') new' segs' 0) (ha : area ∈ s.allocated) :
    Added s s' area l l' (new' ++ new) (segs' ++ segs) d where
  toKept := h.toKept.trans h'.toKept
  list := append_assoc new' new l' ▸ h'.list
  segs := by
    have hkeep : new.map s'.seg = new.map s1.seg := map_congr_left fun q hq =>
      h'.seg_eq (h.list.live q (by simp [hq])) fun heq => h.fresh q hq (heq ▸ ha)
    rw [map_append, h'.segs, hkeep, h.segs]
  fresh := forall_mem_append.mpr ⟨fun p hp hlive => h'.fresh p hp (h.allocated hlive), h.fresh⟩
  totalVm := by rw [h'.totalVm, h.totalVm, sub_zero]

theorem set (h : Added s s1 area l l' [] [] d) (hal : area ∉ l ++ l') (v : VmArea) :
    Added s (s1.set area v) area l l' [] [] d :=
  .nil (h.toKept.trans (.of_mem (Finset.Subset.refl _) fun _ _ hne => set_mem_of_ne hne))
    (h.list.setOther v hal) h.totalVm

theorem addCount (h : Added s s1 area l l' [] [] d) (inode : Option InodePtr) (n : Int) :
    Added s (s1.addCount inode n) area l l' [] [] d :=
  .nil (h.toKept.trans (.of_mem (by simp) (by simp))) (h.list.addCount inode n)
    (by simp [h.totalVm])

/-- A new structure that is not in the list yet. -/
theorem fill (h : Added s s1 area l l' new segs d) (hm : m ∉ s1.allocated) (w : VmArea) :
    Added s1 ((s1.take m).set m w) area l (new ++ l') [] [] 0 :=
  .nil (.of_mem (Finset.subset_insert ..) fun _ hq _ =>
      set_mem_of_ne fun heq => hm (heq ▸ hq))
    ((h.list.take m).setOther w fun hmem => hm (h.list.live m hmem)) (sub_zero _).symm

theorem insert (h : Added s s1 area l l' [] [] d) (h0 : AreaList s (l ++ l'))
    (hal : area ∉ l ++ l') (hm : m ∉ s.allocated) (hlive : m ∈ s1.allocated) {w : VmArea}
    (hw : s1.mem m = w) (hproper : w.vmStart < w.vmEnd) (hword : w.vmEnd < 2 ^ 32)
    (hl : ∀ q ∈ l, (s.mem q).vmEnd ≤ w.vmStart) (hl' : ∀ q ∈ l', w.vmEnd ≤ (s.mem q).vmStart) :
    Added s (insertVmStruct s1 m) area l l' [m] [w.seg] d := by
  subst hw
  have hold : ∀ q ∈ l ++ l', s1.seg q = s.seg q := fun q hq =>
    h.seg_eq (h0.live q hq) fun heq => hal (heq ▸ hq)
  have hre := relinked_insertVmStruct s1 m
  obtain ⟨hins, hsame⟩ := h.list.insert (fun hmem => hm (h0.live m hmem)) hlive hproper hword
    (fun q hq => (congrArg Segment.hi (hold q (by simp [hq]))).trans_le (hl q hq))
    fun q hq => (hl' q hq).trans_eq (congrArg Segment.lo (hold q (mem_append_right l hq))).symm
  refine ⟨⟨hre.allocated ▸ h.allocated, fun q hq hne => (hre.core q).trans (h.core q hq hne),
    fun q hq hne hql => ?_⟩, hins, by rw [hre.seg]; rfl,
    by simpa using hm, hre.totalVm.trans h.totalVm⟩
  exact (hsame q hql fun heq => hm (heq ▸ hq)).trans (h.mem q hq hne hql)

/-- An allocation fails. -/
theorem failed (h : Added s s1 area l l' new segs d) (k : Nat) :
    Added s { s1 with kmallocs := k } area l l' new segs d :=
  { h with list := h.list.congr (fun _ _ => rfl) rfl rfl fun _ _ hlive => hlive }

/-- What is left of the area itself comes back in a new structure, if there is one. -/
theorem rest (h : Added s s1 area l l' new segs d) (h0 : AreaList s (l ++ l'))
    (ha : area ∈ s.allocated) (hal : area ∉ l ++ l') {x : Segment PageTag} (hx : s1.seg area = x)
    (hproper : x.lo < x.hi) (hword : x.hi < 2 ^ 32) (hl : ∀ q ∈ l, (s.mem q).vmEnd ≤ x.lo)
    (hsegs : ∀ t ∈ segs, x.hi ≤ t.lo) (hl' : ∀ q ∈ l', x.hi ≤ (s.mem q).vmStart) :
    ∃ new' got, Added s (unmapRest K s1 area) area l l' new' (got ++ segs) d ∧
      Got K s1.kmallocs (unmapRest K s1 area).kmallocs [x] got := by
  subst hx
  rw [unmapRest, kmalloc]
  cases hpick : K.pick s1.kmallocs s1.allocated with
  | none => exact ⟨new, [], h.failed _, .none hpick (cons_ne_nil _ _)⟩
  | some p =>
  have hp := K.fresh _ _ _ hpick
  have hold : ∀ q ∈ l ++ l', s1.seg q = s.seg q := fun q hq =>
    h.seg_eq (h0.live q hq) fun heq => hal (heq ▸ hq)
  have hins := (h.fill hp (s1.mem area)).insert h.list
    (fun hmem => by
      simp only [mem_append] at hmem hal
      exact hmem.elim (fun hl => hal (.inl hl))
        (·.elim (h.fresh area · ha) fun hl' => hal (.inr hl')))
    hp (Finset.mem_insert_self ..) set_mem_self hproper hword
    (fun q hq => (congrArg Segment.hi (hold q (by simp [hq]))).trans_le (hl q hq))
    fun q hq => by
      rcases mem_append.mp hq with hq | hq
      · exact hsegs (s1.seg q) (h.segs ▸ mem_map_of_mem hq)
      · exact (hl' q hq).trans_eq (congrArg Segment.lo (hold q (mem_append_right l hq))).symm
  refine ⟨p :: new, [s1.seg area], h.trans hins ha, ?_⟩
  dsimp only
  rw [(relinked_insertVmStruct ..).kmallocs]
  exact .one hpick

end Added

/-- The number of areas that use an inode. -/
def users (i : InodePtr) (segs : List (Segment PageTag)) : Nat :=
  segs.countP fun t => t.tag.inode = some i

theorem users_append (i : InodePtr) (segs segs' : List (Segment PageTag)) :
    users i (segs ++ segs') = users i segs + users i segs' :=
  countP_append

theorem unmapRest_iCount (s : MmStruct) : (unmapRest K s area).iCount = s.iCount := by
  rw [unmapRest, kmalloc]
  cases K.pick s.kmallocs s.allocated with
  | none => rfl
  | some p => exact (relinked_insertVmStruct _ p).iCount

theorem addCount_iCount (s : MmStruct) (inode : Option InodePtr) (n : Int) (i : InodePtr) :
    (s.addCount inode n).iCount i = s.iCount i + if inode = some i then n else 0 := by
  cases inode with
  | none => simp [addCount]
  | some j => by_cases hj : i = j <;> simp [addCount, hj, eq_comm]

theorem addCount_kmallocs (s : MmStruct) (inode : Option InodePtr) (n : Int) :
    (s.addCount inode n).kmallocs = s.kmallocs := by
  cases inode <;> rfl

/-- The new structures are for pieces that `cut` leaves, and if they are all, each of them counts
as a user of the inode. -/
theorem unmapFixup_spec (h : AreaList s (l ++ l')) (ha : area ∈ s.allocated)
    (hal : area ∉ l ++ l') {st e : Nat} (hst : (s.mem area).vmStart ≤ st) (hlt : st < e)
    (he : e ≤ (s.mem area).vmEnd) (hword : (s.mem area).vmEnd < 2 ^ 32)
    (hl : ∀ q ∈ l, (s.mem q).vmEnd ≤ (s.mem area).vmStart)
    (hl' : ∀ q ∈ l', (s.mem area).vmEnd ≤ (s.mem q).vmStart) :
    ∃ new got, Added s (unmapFixup K s area st (e - st)) area l l' new got (pages (e - st)) ∧
      Got K s.kmallocs (unmapFixup K s area st (e - st)).kmallocs (cut st e (s.seg area)) got ∧
      (got = cut st e (s.seg area) → ∀ i, (unmapFixup K s area st (e - st)).iCount i +
        users i [s.seg area] = s.iCount i + users i (cut st e (s.seg area))) := by
  have hlast : wrap (st + (e - st)) = e := by
    rw [wrap]
    omega
  have hcut : cut st e (s.seg area) = part (s.mem area).tag (s.mem area).vmStart st ++
      part (s.mem area).tag e (s.mem area).vmEnd := by
    refine if_neg ?_
    show ¬((s.mem area).vmEnd ≤ st ∨ e ≤ (s.mem area).vmStart ∨ e ≤ st)
    omega
  have h0 : Added s (s.subPages (s.mem area) (e - st)) area l l' [] [] (pages (e - st)) :=
    .nil (.of_mem (Finset.Subset.refl _) fun _ _ _ => rfl)
      (h.congr (fun _ _ => rfl) rfl rfl fun _ _ hlive => hlive) rfl
  have hbelow : ∀ q ∈ l, (s.mem q).vmEnd ≤ e := fun q hq => (hl q hq).trans (by omega)
  have habove : ∀ q ∈ l', st ≤ (s.mem q).vmStart := fun q hq => le_trans (by omega) (hl' q hq)
  rw [hcut]
  unfold unmapFixup
  dsimp only
  rw [hlast, if_neg (by omega)]
  split_ifs with hall hend hstart
  · rw [← hall.1, ← hall.2, part_self, part_self]
    refine ⟨[], [], h0.addCount .., (addCount_kmallocs ..).symm ▸ .nil, fun _ i => ?_⟩
    rw [addCount_iCount]
    by_cases hi : (s.mem area).vmInode = some i <;>
      simp [hi, users, subPages, MmStruct.seg, VmArea.seg, VmArea.tag]
  · -- the part below stays
    obtain ⟨new, got, hp, hgot⟩ := (h0.set hal { s.mem area with vmEnd := st }).rest (K := K) h ha
      hal (congrArg VmArea.seg set_mem_self) (by omega : (s.mem area).vmStart < st)
      (by omega : st < 2 ^ 32) hl (forall_mem_nil _) habove
    rw [← hend, part_self, part_of_lt _ (by omega)]
    exact ⟨new, got, append_nil got ▸ hp, hgot,
      fun _ i => congrArg (· + _) (congrFun (unmapRest_iCount _) i)⟩
  · -- the part above stays
    obtain ⟨new, got, hp, hgot⟩ := (h0.set hal ((s.mem area).upper e)).rest (K := K) h ha hal
      ((congrArg VmArea.seg set_mem_self).trans (seg_upper ..))
      (by omega : e < (s.mem area).vmEnd) hword hbelow (forall_mem_nil _) hl'
    rw [← hstart, part_self, part_of_lt _ (by omega)]
    exact ⟨new, got, append_nil got ▸ hp, hgot,
      fun _ i => congrArg (· + _) (congrFun (unmapRest_iCount _) i)⟩
  · -- a hole: the part above goes in first
    rw [part_of_lt _ (by omega), part_of_lt _ (by omega), kmalloc]
    cases hpick : K.pick (s.subPages (s.mem area) (e - st)).kmallocs
        (s.subPages (s.mem area) (e - st)).allocated with
    | none => exact ⟨[], [], h0.failed _, .none hpick (by simp), by simp⟩
    | some m =>
    have hm := K.fresh _ _ _ hpick
    have hma : area ≠ m := fun heq => hm (heq ▸ ha)
    have hupper := (((h0.trans (h0.fill hm ((s.mem area).upper e)) ha).addCount
      (s.mem area).vmInode 1).set hal { s.mem area with vmEnd := st }).insert h hal
      (w := (s.mem area).upper e) hm (by simp [MmStruct.set, MmStruct.take])
      (by rw [set_mem_of_ne hma.symm, addCount_mem, set_mem_self])
      (by omega : e < (s.mem area).vmEnd) hword hbelow hl'
    rw [seg_upper] at hupper
    obtain ⟨new, got, hp, hgot⟩ := hupper.rest (K := K) h ha hal
      ((congrFun (relinked_insertVmStruct ..).seg area).trans
        (congrArg VmArea.seg set_mem_self))
      (by omega : (s.mem area).vmStart < st) (by omega : st < 2 ^ 32) hl
      (forall_mem_singleton.mpr hlt.le) habove
    dsimp only
    rw [MmStruct.modify, addCount_mem, set_mem_of_ne hma]
    have hkmallocs (x : MmStruct) (v : VmArea) :
        ((x.addCount (s.mem area).vmInode 1).set area v).kmallocs = x.kmallocs :=
      addCount_kmallocs ..
    rw [(relinked_insertVmStruct ..).kmallocs, hkmallocs] at hgot
    refine ⟨new, _, hp, (Got.one hpick).trans hgot, fun _ i => ?_⟩
    rw [unmapRest_iCount, (relinked_insertVmStruct ..).iCount]
    show (addCount _ _ _).iCount i + _ = _
    rw [addCount_iCount]
    by_cases hi : (s.mem area).vmInode = some i <;>
      simp [hi, users, subPages, MmStruct.set, MmStruct.take, MmStruct.seg, VmArea.seg, VmArea.tag,
        add_assoc]

/-! ## The two loops -/

/-- The second loop of `do_munmap`: `rs` are the areas still to be released, the
highest one first, and `acc` is what the ones before have left. -/
structure Releasing (addr limit : Nat) (l acc l' : List VmPtr) (s : MmStruct)
    (free : Option VmPtr) (rs : List VmPtr) : Prop where
  list : AreaList s (l ++ (acc ++ l'))
  chain : Chain s.next free rs none
  nodup : rs.Nodup
  live : ∀ r ∈ rs, r ∈ s.allocated
  out : ∀ r ∈ rs, r ∉ l ++ (acc ++ l')
  order : rs.Pairwise fun r r' => (s.mem r').vmEnd ≤ (s.mem r).vmStart
  below : ∀ q ∈ l, ∀ r ∈ rs, (s.mem q).vmEnd ≤ (s.mem r).vmStart
  above : ∀ q ∈ acc ++ l', ∀ r ∈ rs, (s.mem r).vmEnd ≤ (s.mem q).vmStart
  meets : ∀ r ∈ rs, addr < (s.mem r).vmEnd ∧ (s.mem r).vmStart < limit
  proper : ∀ r ∈ rs, (s.mem r).vmStart < (s.mem r).vmEnd
  word : ∀ r ∈ rs, (s.mem r).vmEnd < 2 ^ 32

/-- The areas `rs` have been released, and `got` of the pieces of them are back. The other
structures are as they were, except for the links of `l`. -/
structure Released (K : Kmalloc) (addr limit : Nat) (l rs : List VmPtr) (s s' : MmStruct)
    (got : List (Segment PageTag)) : Prop where
  back : Got K s.kmallocs s'.kmallocs ((rs.reverse.map s.seg).flatMap (cut addr limit)) got
  kept : ∀ q ∈ s.allocated, q ∉ rs → q ∈ s'.allocated ∧ (s'.mem q).core = (s.mem q).core ∧
    (q ∉ l → s'.mem q = s.mem q)
  totalVm : s'.totalVm =
    s.totalVm - BitVec.ofNat 32 ((rs.map s.seg).map (overlap pageSize addr limit)).sum
  count : got = (rs.reverse.map s.seg).flatMap (cut addr limit) → ∀ i,
    s'.iCount i + users i (rs.map s.seg) =
      s.iCount i + users i ((rs.map s.seg).flatMap (cut addr limit))

theorem Released.cons {r : VmPtr} {got got' : List (Segment PageTag)}
    (h : Released K addr limit l [r] s s1 got) (h' : Released K addr limit l rs s1 s' got')
    (hlive : ∀ q ∈ rs, q ∈ s.allocated ∧ q ≠ r) :
    Released K addr limit l (r :: rs) s s' (got' ++ got) := by
  have hsegs : ∀ m : List VmPtr, (∀ q ∈ m, q ∈ rs) → m.map s1.seg = m.map s.seg := by
    intro m hm
    refine map_congr_left fun q hq => seg_of_core ?_
    obtain ⟨hq, hne⟩ := hlive q (hm q hq)
    exact (h.kept q hq (by simpa using hne)).2.1
  have hgot := h'.back
  have hcount := h'.count
  rw [hsegs rs.reverse fun _ => mem_reverse.mp] at hgot hcount
  have hfull : ((r :: rs).reverse.map s.seg).flatMap (cut addr limit) =
      (rs.reverse.map s.seg).flatMap (cut addr limit) ++
        ([r].reverse.map s.seg).flatMap (cut addr limit) := by simp
  refine ⟨hfull ▸ h.back.trans hgot, fun q hq hqr => ?_, ?_, fun heq i => ?_⟩
  · rw [mem_cons, not_or] at hqr
    obtain ⟨hq1, hcore, hmem⟩ := h.kept q hq (by simpa using hqr.1)
    obtain ⟨hq', hcore', hmem'⟩ := h'.kept q hq1 hqr.2
    exact ⟨hq', hcore'.trans hcore, fun hql => (hmem' hql).trans (hmem hql)⟩
  · rw [h'.totalVm, h.totalVm, hsegs rs fun _ => id, ← singleton_append (l := rs), map_append,
      map_append, sum_append, BitVec.ofNat_add]
    ring
  · obtain ⟨heq', heq⟩ := h.back.append_eq hgot (hfull ▸ heq)
    have h1 := h.count heq i
    have h2 := hcount heq' i
    rw [hsegs rs fun _ => id] at h2
    rw [← singleton_append (l := rs), map_append, flatMap_append, users_append, users_append]
    push_cast
    omega

/-- A round of the second loop, with the part of the area that is in the range. -/
theorem releaseArea_eq {r : VmPtr} (hlt : max (s.mem r).vmStart addr < min (s.mem r).vmEnd limit)
    (hword : (s.mem r).vmEnd < 2 ^ 32) :
    ∃ ring, releaseArea K addr limit s r = kfree (unmapFixup K { s with iMmap := ring } r
      (max (s.mem r).vmStart addr)
      (min (s.mem r).vmEnd limit - max (s.mem r).vmStart addr)) r := by
  obtain ⟨ring, hring⟩ := removeSharedVmStruct_eq s r
  have hst : (if addr < (s.mem r).vmStart then (s.mem r).vmStart else addr) =
      max (s.mem r).vmStart addr := by
    split <;> omega
  have hlast : (if limit > (s.mem r).vmEnd then (s.mem r).vmEnd else limit) =
      min (s.mem r).vmEnd limit := by
    split <;> omega
  have hlen : wordSub (min (s.mem r).vmEnd limit) (max (s.mem r).vmStart addr) =
      min (s.mem r).vmEnd limit - max (s.mem r).vmStart addr := by
    rw [wordSub, wrap]
    omega
  refine ⟨ring, ?_⟩
  rw [releaseArea, hring]
  simp only [hst, hlast, hlen]

theorem Releasing.step (hlimit : addr < limit) {r : VmPtr}
    (h : Releasing addr limit l acc l' s (some r) (r :: rs)) :
    ∃ new, Releasing addr limit l (new ++ acc) l' (releaseArea K addr limit s r)
        (s.mem r).vmNext rs ∧
      Released K addr limit l [r] s (releaseArea K addr limit s r)
        (new.map (releaseArea K addr limit s r).seg) := by
  obtain ⟨hr, hnd⟩ := nodup_cons.mp h.nodup
  obtain ⟨hmeets, hmeets'⟩ := h.meets r (by simp)
  have hproper := h.proper r (by simp)
  have hword := h.word r (by simp)
  have hlt : max (s.mem r).vmStart addr < min (s.mem r).vmEnd limit := by omega
  -- the ring does not matter
  obtain ⟨ring, hround⟩ := releaseArea_eq (K := K) hlt hword
  have h1 : AreaList { s with iMmap := ring } (l ++ (acc ++ l')) :=
    h.list.congr (fun _ _ => rfl) rfl rfl fun _ _ hlive => hlive
  obtain ⟨new, got, ⟨hkept, hlist, rfl, hnew, htotal⟩, hgot, hcount⟩ := unmapFixup_spec (K := K) h1
    (h.live r (by simp)) (h.out r (by simp))
    (show (s.mem r).vmStart ≤ max (s.mem r).vmStart addr by omega) hlt
    (show _ ≤ (s.mem r).vmEnd by omega) hword
    (fun q hq => h.below q hq r (by simp)) fun q hq => h.above q hq r (by simp)
  generalize hs2 : unmapFixup K { s with iMmap := ring } r (max (s.mem r).vmStart addr)
    (min (s.mem r).vmEnd limit - max (s.mem r).vmStart addr) = s2 at *
  have hclip : cut (max (s.mem r).vmStart addr) (min (s.mem r).vmEnd limit) (s.seg r) =
      cut addr limit (s.seg r) := cut_clip hmeets hmeets' hlimit hproper
  rw [show MmStruct.seg { s with iMmap := ring } r = s.seg r from rfl, hclip] at hgot hcount
  have hrnew : r ∉ new := fun hmem => hnew r hmem (h.live r (by simp))
  have hrl : r ∉ l ++ (new ++ (acc ++ l')) := by
    have := h.out r (by simp)
    simp only [mem_append, not_or] at this ⊢
    exact ⟨this.1, hrnew, this.2⟩
  have hseg : ∀ q ∈ l ++ (acc ++ l'), s2.seg q = s.seg q := fun q hq => seg_of_core
    (hkept.core q (h.list.live q hq) fun heq => h.out r (by simp) (heq ▸ hq))
  have hmem : ∀ q ∈ rs, s2.mem q = s.mem q := fun q hq =>
    hkept.mem q (h.live q (by simp [hq])) (fun heq => hr (heq ▸ hq)) fun hql =>
      h.out q (by simp [hq]) (by simp [hql])
  have hsingle : cut addr limit (s.seg r) = ([r].reverse.map s.seg).flatMap (cut addr limit) := by
    simp
  rw [hround]
  -- the areas still to be released are as they were
  have hold : ∀ P : VmArea → Prop, (∀ q ∈ r :: rs, P (s.mem q)) → ∀ q ∈ rs, P (s2.mem q) :=
    fun P h q hq => hmem q hq ▸ h q (mem_cons_of_mem r hq)
  refine ⟨new, ⟨?_, ?_, hnd, fun q hq => ?_, fun q hq => ?_, ?_, fun q hq => ?_,
    fun q hq q' hq' => ?_, hold (fun a => addr < a.vmEnd ∧ a.vmStart < limit) h.meets,
    hold (fun a => a.vmStart < a.vmEnd) h.proper, hold (fun a => a.vmEnd < 2 ^ 32) h.word⟩,
    hsingle ▸ hgot, fun q hq hqr => ?_, htotal, hsingle ▸ hcount⟩
  · rw [append_assoc]
    exact hlist.kfree hrl
  · exact (h.chain.2).congr fun q hq => congrArg vmNext (hmem q hq)
  · exact Finset.mem_erase.mpr ⟨fun heq => hr (heq ▸ hq), hkept.allocated (h.live q (by simp [hq]))⟩
  · have hout := h.out q (by simp [hq])
    have hqnew : q ∉ new := fun hmem => hnew q hmem (h.live q (by simp [hq]))
    simp only [mem_append, not_or] at hout ⊢
    exact ⟨hout.1, ⟨hqnew, hout.2.1⟩, hout.2.2⟩
  · refine (pairwise_cons.mp h.order).2.imp_of_mem fun hq hq' hle => ?_
    show (s2.mem _).vmEnd ≤ (s2.mem _).vmStart
    rw [hmem _ hq, hmem _ hq']
    exact hle
  · refine hold (fun a => (s2.mem q).vmEnd ≤ a.vmStart) fun q' hq' => ?_
    have hend : (s2.mem q).vmEnd = _ := congrArg Segment.hi (hseg q (by simp [hq]))
    rw [hend]
    exact h.below q hq q' hq'
  · show (s2.mem q').vmEnd ≤ (s2.mem q).vmStart
    rw [hmem q' hq']
    rw [append_assoc, mem_append] at hq
    rcases hq with hq | hq
    · -- what is left of `r` lies above the areas below `r`
      have hin : s2.seg q ∈ cut addr limit (s.seg r) := hgot.sublist.mem (mem_map_of_mem hq)
      exact ((pairwise_cons.mp h.order).1 q' hq').trans (mem_cut hin).1
    · have hstart : (s2.mem q).vmStart = _ := congrArg Segment.lo (hseg q (mem_append_right l hq))
      rw [hstart]
      exact h.above q hq q' (by simp [hq'])
  · rw [mem_singleton] at hqr
    exact ⟨Finset.mem_erase.mpr ⟨hqr, hkept.allocated hq⟩, hkept.core q hq hqr,
      hkept.mem q hq hqr⟩

/-- The whole second loop. -/
theorem Releasing.run (hlimit : addr < limit)
    (h : Releasing addr limit l acc l' s free rs) (hn : rs.length < n) :
    ∃ acc' got, AreaList (releaseAreas K addr limit n s free) (l ++ (acc' ++ l')) ∧
      acc'.map (releaseAreas K addr limit n s free).seg = got ++ acc.map s.seg ∧
      Released K addr limit l rs s (releaseAreas K addr limit n s free) got := by
  induction rs generalizing s free acc n with
  | nil =>
    obtain ⟨n, rfl⟩ := Nat.exists_eq_succ_of_ne_zero (Nat.ne_of_gt hn)
    obtain rfl : free = none := h.chain
    exact ⟨acc, [], h.list, rfl, .nil, fun _ hq _ => ⟨hq, rfl, fun _ => rfl⟩,
      (sub_zero _).symm, fun _ _ => rfl⟩
  | cons r rs ih =>
    obtain ⟨n, rfl⟩ := Nat.exists_eq_succ_of_ne_zero (Nat.ne_of_gt (Nat.zero_lt_of_lt hn))
    obtain ⟨rfl, -⟩ := h.chain
    obtain ⟨new, h1, hrel⟩ := h.step (K := K) hlimit
    obtain ⟨acc', got, hlist, hseg, hrel'⟩ := ih h1 (by simpa using hn)
    have hacc : acc.map (releaseArea K addr limit s r).seg = acc.map s.seg := by
      refine map_congr_left fun q hq =>
        seg_of_core (hrel.kept q (h.list.live q (by simp [hq])) ?_).2.1
      rintro hqr
      exact h.out r (by simp) (by simp [← mem_singleton.mp hqr, hq])
    rw [releaseAreas]
    refine ⟨acc', _, hlist, ?_, hrel.cons hrel' fun q hq => ⟨h.live q (by simp [hq]), ?_⟩⟩
    · rw [hseg, map_append, hacc, append_assoc]
    · exact fun heq => (nodup_cons.mp h.nodup).1 (heq ▸ hq)

/-- Taking a node of the list out of the tree. -/
theorem AreaList.removed (h : AreaList s (l ++ area :: l')) :
    (avlRemove s.key area s.mmapAvl).inorder = l ++ l' ∧
      (avlRemove s.key area s.mmapAvl).Balanced := by
  obtain ⟨a, b, hold, hnew, -, hbal⟩ := avlRemove_spec s.key h.rules.ordered
    (show area ∈ s.mmapAvl.inorder by rw [h.inorder]; simp)
  rw [h.inorder] at hold
  obtain ⟨rfl, -, rfl⟩ := (append_cons_inj_of_notMem h.notMem_left h.notMem_right).mp hold
  exact ⟨hnew, hbal h.rules.balanced⟩

theorem relinked_unlinkArea (npp : Option VmPtr) (s : MmStruct) (mpnt : VmPtr)
    (free : Option VmPtr) : Relinked s (unlinkArea npp s mpnt free) :=
  ((Relinked.setCell s npp _).trans (.modify _ mpnt free)).trans (.tree _ _)

theorem unlinkArea_mem (npp : Option VmPtr) (s : MmStruct) (mpnt : VmPtr) (free : Option VmPtr) :
    (unlinkArea npp s mpnt free).mem = ((s.setCell npp (s.mem mpnt).vmNext).modify mpnt
      ({ · with vmNext := free })).mem := rfl

theorem unlinkArea_mem_of_notMem (s : MmStruct) (free : Option VmPtr) (hq : q ∉ l)
    (hqa : q ≠ area) : (unlinkArea l.getLast? s area free).mem q = s.mem q := by
  rw [unlinkArea_mem, MmStruct.modify_mem_of_ne hqa, setCell_mem_of_notMem _ _ hq]

/-- A round of the first loop. -/
theorem Releasing.unlink (h : Releasing addr limit l [] (area :: l') s free rs)
    (haddr : addr < (s.mem area).vmEnd) (hlimit : (s.mem area).vmStart < limit) :
    Releasing addr limit l [] l' (unlinkArea l.getLast? s area free) (some area) (area :: rs) := by
  have hlist : AreaList s (l ++ area :: l') := h.list
  have hre := relinked_unlinkArea l.getLast? s area free
  obtain ⟨hnd, -, hdisj⟩ := nodup_append.mp hlist.nodup
  have hal := hlist.notMem_left
  have hal' := hlist.notMem_right
  have hmem : ∀ q, q ∉ l → q ≠ area → (unlinkArea l.getLast? s area free).mem q = s.mem q :=
    fun q hq hqa => unlinkArea_mem_of_notMem s free hq hqa
  have hnext : (unlinkArea l.getLast? s area free).next area = free := by
    rw [MmStruct.next, unlinkArea_mem, MmStruct.modify_mem_self]
  have hkey : ((s.setCell l.getLast? (s.mem area).vmNext).modify area
      ({ · with vmNext := free })).key = s.key :=
    funext fun q => hre.vmEnd q
  have hrs : ∀ r ∈ rs, r ∉ l ∧ r ≠ area ∧ r ∉ l' := by
    intro r hr
    have := h.out r hr
    simp only [nil_append, mem_append, mem_cons, not_or] at this
    exact this
  have htree : (unlinkArea l.getLast? s area free).mmapAvl = avlRemove s.key area s.mmapAvl := by
    show avlRemove _ area (MmStruct.mmapAvl _) = _
    rw [hkey]
    cases l.getLast? <;> rfl
  obtain ⟨hin, hbal⟩ := hlist.removed
  refine ⟨⟨?_, htree ▸ hin, htree ▸ hbal, ?_, fun q hq => ?_, fun q hq => ?_⟩, ⟨rfl, ?_⟩,
    nodup_cons.mpr ⟨fun hmem => (hrs area hmem).2.1 rfl, h.nodup⟩,
    hre.allocated ▸ forall_mem_cons.mpr ⟨hlist.live area (by simp), h.live⟩,
    forall_mem_cons.mpr ⟨?_, fun r hr => ?_⟩, ?_, fun q hq => ?_, fun q hq => ?_, ?_, ?_, ?_⟩
  · obtain ⟨m, hchain, hchain'⟩ := chain_append.mp hlist.linked
    refine chain_append.mpr ⟨(s.mem area).vmNext, ?_, ?_⟩
    · refine Chain.congr (chain_setCell hchain hnd (s.mem area).vmNext) fun q hq => ?_
      have hqa : q ≠ area := fun heq => hal (heq ▸ hq)
      rw [MmStruct.next, unlinkArea_mem, MmStruct.modify_mem_of_ne hqa]
      rfl
    · refine hchain'.2.congr fun q hq => congrArg vmNext (hmem q ?_ ?_)
      · exact fun hql => hdisj q hql q (by simp [hq]) rfl
      · exact fun heq => hal' (heq ▸ hq)
  · rw [hre.seg]
    have hs := hlist.sorted
    rw [map_append, map_cons, sorted_append, sorted_cons] at hs
    rw [nil_append, map_append, sorted_append]
    exact ⟨hs.1, hs.2.1.2.1, fun t ht t' ht' => hs.2.2 t ht t' (by simp [ht'])⟩
  · rw [hre.allocated]
    exact hlist.live q (by simp only [nil_append, mem_append] at hq; simp; tauto)
  · rw [hre.vmEnd]
    exact hlist.word q (by simp only [nil_append, mem_append] at hq; simp; tauto)
  · rw [hnext]
    exact h.chain.congr fun r hr => congrArg vmNext (hmem r (hrs r hr).1 (hrs r hr).2.1)
  · simp [hal, hal']
  · simp [(hrs r hr).1, (hrs r hr).2.2]
  all_goals simp only [hre.vmEnd, hre.vmStart, forall_mem_cons, pairwise_cons]
  · exact ⟨h.above area (by simp), h.order⟩
  · exact ⟨hlist.left_le hq, h.below q hq⟩
  · exact ⟨hlist.le_right hq, h.above q (mem_cons_of_mem _ hq)⟩
  · exact ⟨⟨haddr, hlimit⟩, h.meets⟩
  · exact ⟨hlist.proper (by simp), h.proper⟩
  · exact ⟨hlist.word area (by simp), h.word⟩

/-- The whole first loop. -/
theorem Releasing.unlinks {rest : List VmPtr} (h : Releasing addr limit l [] rest s free rs)
    (haddr : ∀ q ∈ rest, addr < (s.mem q).vmEnd) (hn : rest.length < n) :
    ∃ m l', rest = m ++ l' ∧ (∀ q ∈ l', limit ≤ (s.mem q).vmStart) ∧
      Relinked s (unlinkAreas limit l.getLast? n s rest.head? free).1 ∧
      (∀ q, q ∉ l → q ∉ rest →
        (unlinkAreas limit l.getLast? n s rest.head? free).1.mem q = s.mem q) ∧
      Releasing addr limit l [] l' (unlinkAreas limit l.getLast? n s rest.head? free).1
        (unlinkAreas limit l.getLast? n s rest.head? free).2 (m.reverse ++ rs) := by
  induction rest generalizing s free rs n with
  | nil =>
    obtain ⟨n, rfl⟩ := Nat.exists_eq_succ_of_ne_zero (Nat.ne_of_gt hn)
    exact ⟨[], [], rfl, nofun, .refl s, fun _ _ _ => rfl, h⟩
  | cons p rest ih =>
    obtain ⟨n, rfl⟩ := Nat.exists_eq_succ_of_ne_zero (Nat.ne_of_gt (Nat.zero_lt_of_lt hn))
    rw [head?_cons, unlinkAreas]
    split
    next hlt =>
      have hre := relinked_unlinkArea l.getLast? s p free
      have h1 := h.unlink (haddr p (by simp)) hlt
      have hcell : (unlinkArea l.getLast? s p free).cell l.getLast? = rest.head? :=
        h1.list.cell_eq
      obtain ⟨m, l', hrest, hl', hre', hmem', hrel⟩ := ih h1 (fun q hq => by
        rw [hre.vmEnd]
        exact haddr q (by simp [hq])) (by simpa using hn)
      dsimp only
      rw [hcell]
      refine ⟨p :: m, l', by simp [hrest], fun q hq => ?_, hre.trans hre', fun q hql hq => ?_,
        by simpa using hrel⟩
      · rw [← hre.vmStart]
        exact hl' q hq
      · rw [mem_cons, not_or] at hq
        rw [hmem' q hql hq.2, unlinkArea_mem_of_notMem s free hql hq.1]
    next hge =>
      refine ⟨[], p :: rest, rfl, fun q hq => ?_, .refl s, fun _ _ _ => rfl, h⟩
      rcases mem_cons.mp hq with rfl | hq
      · exact not_lt.mp hge
      · have hlist : AreaList s (l ++ p :: rest) := h.list
        have hpq := hlist.le_right hq
        have := hlist.proper (p := p) (by simp)
        omega

/-! ## The call -/

/-- The arguments that `do_munmap` accepts. -/
def UserRange (addr len : Nat) : Prop :=
  addr % pageSize = 0 ∧ addr ≤ maxUserAddr ∧ len ≤ maxUserAddr - addr

theorem UserRange.bounds (h : UserRange addr len) :
    addr + pageAlign len ≤ maxUserAddr ∧ pageAlign len % pageSize = 0 ∧ len ≤ pageAlign len := by
  obtain ⟨ha, hle, hlen⟩ := h
  simp only [pageAlign, pageMask, wrap, pageSize, maxUserAddr, taskSize] at *
  omega

/-- The range from `addr` to `limit` has been taken out of the list `ps`. -/
structure Removed (addr limit : Nat) (s : MmStruct) (ps : List VmPtr) (s' : MmStruct)
    (ps' : List VmPtr) : Prop where
  list : AreaList s' ps'
  segs : ps'.map s'.seg = (ps.map s.seg).flatMap (cut addr limit)
  totalVm : s'.totalVm = s.totalVm -
    BitVec.ofNat 32 ((ps.map s.seg).map (overlap pageSize addr limit)).sum

/-- The same, and the other areas are still there. -/
structure Unmapped (addr limit : Nat) (s : MmStruct) (ps : List VmPtr) (s' : MmStruct)
    (ps' : List VmPtr) : Prop extends Removed addr limit s ps s' ps' where
  others : ∀ q ∈ s.allocated, q ∉ ps → q ∈ s'.allocated ∧ s'.mem q = s.mem q

/-- The same, with those of the pieces that have got a structure. -/
structure Unmapping (K : Kmalloc) (addr limit : Nat) (s : MmStruct) (ps : List VmPtr)
    (s' : MmStruct) (ps' : List VmPtr) : Prop where
  list : AreaList s' ps'
  sublist : ps'.map s'.seg <+ (ps.map s.seg).flatMap (cut addr limit)
  totalVm : s'.totalVm = s.totalVm -
    BitVec.ofNat 32 ((ps.map s.seg).map (overlap pageSize addr limit)).sum
  others : ∀ q ∈ s.allocated, q ∉ ps → q ∈ s'.allocated ∧ s'.mem q = s.mem q
  all : (∀ i < pieces addr limit (ps.map s.seg), K.Gives (s.kmallocs + i)) →
    ps'.map s'.seg = (ps.map s.seg).flatMap (cut addr limit)
  gave : ps'.map s'.seg = (ps.map s.seg).flatMap (cut addr limit) →
    ∀ i < pieces addr limit (ps.map s.seg), ∃ inUse, (K.pick (s.kmallocs + i) inUse).isSome
  count : ps'.map s'.seg = (ps.map s.seg).flatMap (cut addr limit) →
    ∀ i, s'.iCount i + users i (ps.map s.seg) = s.iCount i + users i (ps'.map s'.seg)

theorem AreaList.unmapping_of_out (h : AreaList s ps)
    (hout : ∀ p ∈ ps, (s.mem p).vmEnd ≤ addr ∨ limit ≤ (s.mem p).vmStart ∨ limit ≤ addr) :
    Unmapping K addr limit s ps s ps := by
  have hsegs : ∀ t ∈ ps.map s.seg, t.hi ≤ addr ∨ limit ≤ t.lo ∨ limit ≤ addr :=
    forall_mem_map.mpr hout
  obtain ⟨hcut, hsum, hpieces⟩ := cut_of_out hsegs
  refine ⟨h, by rw [hcut], by rw [hsum]; simp, fun q hq _ => ⟨hq, rfl⟩, fun _ => hcut.symm,
    fun _ i hi => ?_, fun _ _ => rfl⟩
  rw [hpieces] at hi
  cases hi

/-- The areas `m` have been taken out of the list and released. -/
theorem AreaList.unmapping {m l'' acc : List VmPtr} {got : List (Segment PageTag)}
    (h : AreaList s (l ++ (m ++ l''))) (hlt : addr < limit) (hl : ∀ q ∈ l, (s.mem q).vmEnd ≤ addr)
    (hl'' : ∀ q ∈ l'', limit ≤ (s.mem q).vmStart) (hre : Relinked s s1)
    (hmem : ∀ q, q ∉ l → q ∉ m ++ l'' → s1.mem q = s.mem q)
    (hmeets : ∀ q ∈ m, addr < (s1.mem q).vmEnd ∧ (s1.mem q).vmStart < limit)
    (hlist : AreaList s' (l ++ (acc ++ l''))) (hseg : acc.map s'.seg = got)
    (hdone : Released K addr limit l m.reverse s1 s' got) :
    Unmapping K addr limit s (l ++ (m ++ l'')) s' (l ++ (acc ++ l'')) := by
  obtain ⟨hgot, hkept, htotal, hcount⟩ := hdone
  have hnd := nodup_append.mp h.nodup
  have hnd' := nodup_append.mp hnd.2.1
  -- neither `l` nor `l''` is touched
  have hstay : ∀ q ∈ l ++ l'', s'.seg q = s.seg q := by
    intro q hq
    have hqm : q ∉ m.reverse := by
      rw [mem_reverse]
      intro hqm
      rcases mem_append.mp hq with hq | hq
      · exact hnd.2.2 q hq q (by simp [hqm]) rfl
      · exact hnd'.2.2 q hqm q hq rfl
    have hlive : q ∈ s1.allocated := by
      rw [hre.allocated]
      exact h.live q (by simp only [mem_append] at hq ⊢; tauto)
    exact seg_of_core ((hkept q hlive hqm).2.1.trans (hre.core q))
  have hall : (l ++ (acc ++ l'')).map s'.seg = l.map s.seg ++ (got ++ l''.map s.seg) := by
    rw [map_append, map_append, hseg, map_congr_left fun q hq => hstay q (mem_append_left _ hq),
      map_congr_left fun q hq => hstay q (mem_append_right _ hq)]
  have hbelow : ∀ t ∈ l.map s.seg, t.hi ≤ addr := forall_mem_map.mpr hl
  have habove : ∀ t ∈ l''.map s.seg, limit ≤ t.lo := forall_mem_map.mpr hl''
  obtain ⟨hfull, hsum, hpieces⟩ := cut_middle hbelow habove (m.map s.seg)
  rw [← length_flatMap_cut hlt (forall_mem_map.mpr fun q hq => ?_)] at hpieces
  swap
  · have hq := hmeets q hq
    rwa [hre.vmEnd, hre.vmStart] at hq
  simp only [← map_append] at hfull hsum hpieces
  rw [reverse_reverse, hre.seg] at hgot hcount
  rw [hre.kmallocs] at hgot
  have hgot_eq : ∀ {t : List (Segment PageTag)}, l.map s.seg ++ (got ++ l''.map s.seg) =
      l.map s.seg ++ (t ++ l''.map s.seg) → got = t := fun heq =>
    append_cancel_right (append_cancel_left heq)
  refine ⟨hlist, ?_, ?_, fun q hq hqps => ?_, fun hgives => ?_, fun heq => ?_, fun heq i => ?_⟩
  · rw [hall, hfull]
    exact (Sublist.refl _).append (hgot.sublist.append (.refl _))
  · rw [htotal, hre.totalVm, hre.seg, hsum, map_reverse, map_reverse, sum_reverse]
  · simp only [mem_append, not_or] at hqps hmem
    obtain ⟨hlive, -, hsame⟩ := hkept q (hre.allocated ▸ hq) (by simpa using hqps.2.1)
    exact ⟨hlive, (hsame hqps.1).trans (hmem q hqps.1 hqps.2)⟩
  · rw [hpieces] at hgives
    rw [hall, hfull, hgot.all hgives]
  · rw [hall, hfull] at heq
    rw [hpieces]
    exact (hgot.gave (hgot_eq heq)).2
  · rw [hall, hfull] at heq
    have hi := hcount (hgot_eq heq) i
    rw [hre.iCount] at hi
    rw [hall, hgot_eq heq]
    simp only [users, map_append, countP_append, countP_flatMap, map_reverse, sum_reverse,
      countP_reverse] at hi ⊢
    omega

theorem doMunmap_invalid (s : MmStruct) (h : ¬UserRange addr len) :
    doMunmap K s addr len = (s, .einval) := by
  rw [doMunmap, if_pos]
  rw [UserRange] at h
  omega

theorem doMunmap_pieces (h : AreaList s ps)
    (hrange : UserRange addr len) : (doMunmap K s addr len).2 = .ok ∧
      ∃ ps', Unmapping K addr (addr + pageAlign len) s ps (doMunmap K s addr len).1 ps' := by
  obtain ⟨hbound, -, -⟩ := hrange.bounds
  obtain ⟨halign, haddr, hlen⟩ := hrange
  have hlimit : wrap (addr + pageAlign len) = addr + pageAlign len := by
    simp only [wrap, maxUserAddr, taskSize] at *
    omega
  rw [doMunmap, if_neg (by omega)]
  split
  next hzero => exact ⟨rfl, ps, h.unmapping_of_out fun p _ => .inr (.inr (by omega))⟩
  next hzero =>
    rcases h.findVma_cases addr with ⟨hnone, hout⟩ | ⟨l, p, l', rfl, hsome, hend, hl⟩
    · rw [hnone]
      exact ⟨rfl, ps, h.unmapping_of_out fun p hp => .inl (hout p hp)⟩
    · rw [hsome]
      dsimp only
      rw [hlimit, h.neighbours]
      have hlt : addr < addr + pageAlign len := by omega
      generalize addr + pageAlign len = limit at hlt ⊢
      have hstart : Releasing addr limit l [] (p :: l') s none [] :=
        ⟨h, rfl, .nil, forall_mem_nil _, forall_mem_nil _, .nil,
          fun _ _ => forall_mem_nil _, fun _ _ => forall_mem_nil _,
          forall_mem_nil _, forall_mem_nil _, forall_mem_nil _⟩
      have hends : ∀ q ∈ p :: l', addr < (s.mem q).vmEnd := by
        intro q hq
        rcases mem_cons.mp hq with rfl | hq
        · exact hend
        · have hpq := h.le_right hq
          have := h.proper (p := q) (by simp [hq])
          omega
      have hlength := h.length_le
      rw [length_append] at hlength
      obtain ⟨m, l'', hml, hl'', hre, hmem, hrel⟩ := hstart.unlinks hends
        (show (p :: l').length < s.live + 1 by omega)
      rw [head?_cons] at hre hmem hrel
      generalize unlinkAreas limit l.getLast? (s.live + 1) s (some p) none = r at *
      obtain ⟨s1, free⟩ := r
      rw [hml] at h hlength hmem ⊢
      rw [append_nil] at hrel
      obtain ⟨acc, got, hlist, hseg, hdone⟩ := hrel.run (K := K) hlt
        (show m.reverse.length < s1.live + 1 by
          rw [length_append] at hlength
          rw [MmStruct.live, hre.allocated, length_reverse]
          exact Nat.lt_succ_of_le (by rw [MmStruct.live] at hlength; omega))
      exact ⟨rfl, _, h.unmapping hlt hl hl'' hre hmem
        (fun q hq => hrel.meets q (mem_reverse.mpr hq)) hlist (hseg.trans (append_nil got)) hdone⟩

theorem doMunmap_spec (hK : K.Succeeds) (h : AreaList s ps)
    (hrange : UserRange addr len) : (doMunmap K s addr len).2 = .ok ∧
      ∃ ps', Unmapped addr (addr + pageAlign len) s ps (doMunmap K s addr len).1 ps' ∧
        ∀ i, (doMunmap K s addr len).1.iCount i + users i (ps.map s.seg) =
          s.iCount i + users i (ps'.map (doMunmap K s addr len).1.seg) := by
  obtain ⟨hok, ps', hun⟩ := doMunmap_pieces (K := K) h hrange
  have hsegs := hun.all fun i _ inUse => hK _ inUse
  exact ⟨hok, ps', { hun with segs := hsegs }, hun.count hsegs⟩

end

end Sbckernel.Mm
