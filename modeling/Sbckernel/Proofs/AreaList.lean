import Sbckernel.Lib.Chain
import Sbckernel.Lib.Segments
import Sbckernel.Mm.Mremap
import Sbckernel.Proofs.Avl

/-!
# The list and the tree of areas

`AreaList s ps` says that the areas of `s` are `ps`: the chain through `vm_next`
and the tree run through the same structures in the same order, and the order is
that of their addresses. The search order of the tree is then no property of its
own: an area may be changed in place as long as it stays between its neighbours.

An area is, for the map that it stands for, a segment. Its tag holds what all
its pages have in common; the offset of a page in the file is an offset of the
whole area plus the address, so that the parts of an area have one tag.
-/

namespace Sbckernel.Mm

open Lib Function Segment List MmStruct

/-- What the pages of an area have in common: flags, inode, operations, `vm_pte`,
and the difference between offset and address where the offset matters. -/
structure PageTag where
  flags : VmFlags
  inode : Option InodePtr
  ops : Option OpsPtr
  pte : ULong
  base : Option ULong
  deriving DecidableEq

namespace VmArea

/-- The areas whose offset means something. -/
def hasOffset (area : VmArea) : Prop := area.vmInode ≠ none ∨ area.vmFlags &&& vmShm ≠ 0
  deriving Decidable

def tag (area : VmArea) : PageTag where
  flags := area.vmFlags
  inode := area.vmInode
  ops := area.vmOps
  pte := area.vmPte
  base := if area.hasOffset then some (area.vmOffset - BitVec.ofNat 32 area.vmStart) else none

def seg (area : VmArea) : Segment PageTag := ⟨area.tag, area.vmStart, area.vmEnd⟩

/-- An area without its link. -/
def core (area : VmArea) : VmArea := { area with vmNext := none }

@[simp] theorem core_seg (area : VmArea) : area.core.seg = area.seg := rfl

theorem seg_of_core {a b : VmArea} (h : a.core = b.core) : a.seg = b.seg := by
  rw [← core_seg a, h, core_seg]

end VmArea

namespace MmStruct

def next (s : MmStruct) (p : VmPtr) : Option VmPtr := (s.mem p).vmNext

def seg (s : MmStruct) (p : VmPtr) : Segment PageTag := (s.mem p).seg

section
variable {s : MmStruct} {p q : VmPtr} {area : VmArea} {f : VmArea → VmArea}

@[simp] theorem set_mem_self : (s.set p area).mem p = area := update_self ..

theorem set_mem_of_ne (h : q ≠ p) : (s.set p area).mem q = s.mem q := update_of_ne h ..

@[simp] theorem modify_mem_self : (s.modify p f).mem p = f (s.mem p) := update_self ..

theorem modify_mem_of_ne (h : q ≠ p) : (s.modify p f).mem q = s.mem q :=
  update_of_ne h ..

end

end MmStruct

structure AreaList (s : MmStruct) (ps : List VmPtr) : Prop where
  linked : Chain s.next s.mmap ps none
  inorder : s.mmapAvl.inorder = ps
  balanced : s.mmapAvl.Balanced
  sorted : Sorted (ps.map s.seg)
  live : ∀ p ∈ ps, p ∈ s.allocated
  word : ∀ p ∈ ps, (s.mem p).vmEnd < 2 ^ 32

namespace AreaList

variable {s s' : MmStruct} {ps l l' : List VmPtr} {p q : VmPtr} {area : VmArea} {addr : Nat}

section
variable (h : AreaList s ps)
include h

theorem proper (hp : p ∈ ps) : (s.mem p).vmStart < (s.mem p).vmEnd :=
  h.sorted.proper (s.seg p) (mem_map_of_mem hp)

theorem apart : ps.Pairwise fun p q => (s.mem p).vmEnd ≤ (s.mem q).vmStart :=
  pairwise_map.mp h.sorted.apart

theorem ordered : ps.Pairwise fun p q => s.key p < s.key q := by
  refine h.apart.imp_of_mem fun _ hq hpq => ?_
  exact lt_of_le_of_lt hpq (h.proper hq)

theorem rules : AvlRules s.key s.mmapAvl := by
  refine ⟨h.balanced, ?_⟩
  rw [AvlTree.Ordered, h.inorder]
  exact h.ordered

theorem nodup : ps.Nodup :=
  h.ordered.imp fun hlt heq => absurd (heq ▸ hlt) (lt_irrefl _)

/-- The number of structures in use bounds the list. -/
theorem length_le : ps.length ≤ s.live := by
  rw [← toFinset_card_of_nodup h.nodup]
  exact Finset.card_le_card fun p hp => h.live p (mem_toFinset.mp hp)

/-- Only list, tree, structures in use and the areas themselves count. -/
theorem congr (hmem : ∀ p ∈ ps, s'.mem p = s.mem p)
    (hmmap : s'.mmap = s.mmap) (htree : s'.mmapAvl = s.mmapAvl)
    (hlive : ∀ p ∈ ps, p ∈ s.allocated → p ∈ s'.allocated) : AreaList s' ps := by
  have hseg : ps.map s'.seg = ps.map s.seg :=
    map_congr_left fun p hp => congrArg VmArea.seg (hmem p hp)
  refine ⟨?_, htree ▸ h.inorder, htree ▸ h.balanced, hseg ▸ h.sorted,
    fun p hp => hlive p hp (h.live p hp), fun p hp => ?_⟩
  · rw [hmmap]
    exact h.linked.congr fun p hp => congrArg VmArea.vmNext (hmem p hp)
  · rw [hmem p hp]
    exact h.word p hp

end

section
variable (h : AreaList s (l ++ p :: l'))
include h

theorem notMem_left : p ∉ l := fun hmem =>
  (nodup_append.mp h.nodup).2.2 p hmem p (by simp) rfl

theorem notMem_right : p ∉ l' :=
  (nodup_cons.mp (nodup_append.mp h.nodup).2.1).1

theorem left_le (hq : q ∈ l) : (s.mem q).vmEnd ≤ (s.mem p).vmStart :=
  (pairwise_append.mp h.apart).2.2 q hq p (by simp)

theorem le_right (hq : q ∈ l') : (s.mem p).vmEnd ≤ (s.mem q).vmStart :=
  (pairwise_cons.mp (pairwise_append.mp h.apart).2.1).1 q hq

end

/-! ## Looking up -/

theorem findVmaIn_eq (s : MmStruct) (addr : Nat) {t : AvlTree VmPtr}
    (hproper : ∀ p ∈ t.inorder, (s.mem p).vmStart < (s.mem p).vmEnd)
    (hapart : t.inorder.Pairwise fun p q => (s.mem p).vmEnd ≤ (s.mem q).vmStart)
    (result : Option VmPtr) :
    findVmaIn s addr t result =
      (t.inorder.find? fun p => decide (addr < (s.mem p).vmEnd)).or result := by
  induction t generalizing result with
  | empty => rfl
  | node l p h r ihl ihr =>
    obtain ⟨hl, hpr, hlp⟩ := pairwise_append.mp hapart
    have hleft := ihl (fun q hq => hproper q (by simp [hq])) hl
    have hright := ihr (fun q hq => hproper q (by simp [hq])) (pairwise_cons.mp hpr).2
    have hnone : (s.mem p).vmStart ≤ addr →
        l.inorder.find? (fun q => decide (addr < (s.mem q).vmEnd)) = none := by
      intro hstart
      rw [find?_eq_none]
      intro q hq
      have := hlp q hq p (by simp)
      simp only [decide_eq_true_eq]
      omega
    rw [findVmaIn, AvlTree.inorder_node, find?_append]
    split
    next hend =>
      rw [find?_cons_of_pos (by simpa using hend)]
      split
      next hstart => rw [hnone hstart]; rfl
      · rw [hleft, Option.or_assoc, Option.some_or]
    next hend =>
      have := hproper p (by simp)
      rw [find?_cons_of_neg (by simpa using hend), hnone (by omega), Option.none_or, hright]

/-- `find_vma` finds the first area that ends above the address. -/
theorem findVma_cases (h : AreaList s ps) (addr : Nat) :
    (findVma s addr = none ∧ ∀ p ∈ ps, (s.mem p).vmEnd ≤ addr) ∨
      ∃ l p l', ps = l ++ p :: l' ∧ findVma s addr = some p ∧ addr < (s.mem p).vmEnd ∧
        ∀ q ∈ l, (s.mem q).vmEnd ≤ addr := by
  have hfind : findVma s addr = ps.find? fun p => decide (addr < (s.mem p).vmEnd) := by
    rw [findVma, findVmaIn_eq s addr, h.inorder, Option.or_none]
    · rw [h.inorder]
      exact fun p hp => h.proper hp
    · rw [h.inorder]
      exact h.apart
  rw [hfind]
  cases hp : ps.find? fun p => decide (addr < (s.mem p).vmEnd) with
  | none =>
    rw [find?_eq_none] at hp
    exact .inl ⟨rfl, fun p hmem => by simpa using hp p hmem⟩
  | some p =>
    obtain ⟨hend, l, l', hps, hl⟩ := find?_eq_some_iff_append.mp hp
    exact .inr ⟨l, p, l', hps, rfl, by simpa using hend, fun q hq => by simpa using hl q hq⟩

theorem neighbours (h : AreaList s (l ++ p :: l')) :
    avlNeighbours s.key p s.mmapAvl none none = (l.getLast?, l'.head?) := by
  rw [avlNeighbours_spec s.key h.rules.ordered h.inorder, Option.or_none, Option.or_none]

/-- What follows a part of the list. -/
theorem cell_eq (h : AreaList s (l ++ l')) : s.cell l.getLast? = l'.head? := by
  obtain ⟨m, hl, hl'⟩ := chain_append.mp h.linked
  have hm : m = l'.head? := by simpa using hl'.start
  subst hm
  cases hlast : l.getLast? with
  | none =>
    rw [getLast?_eq_none_iff.mp hlast] at hl
    exact hl
  | some q =>
    obtain ⟨l1, rfl⟩ := getLast?_eq_some_iff.mp hlast
    obtain ⟨m, -, hq⟩ := chain_append.mp hl
    exact hq.2

theorem next_eq (h : AreaList s (l ++ p :: l')) : (s.mem p).vmNext = l'.head? := by
  obtain ⟨m, -, hm⟩ := chain_append.mp h.linked
  show s.next p = l'.head?
  simpa using hm.2.start

end AreaList

/-! ## Links -/

/-- Only links, tree and rings have changed. -/
structure Relinked (s s' : MmStruct) : Prop where
  core : ∀ q, (s'.mem q).core = (s.mem q).core
  allocated : s'.allocated = s.allocated
  kmallocs : s'.kmallocs = s.kmallocs
  totalVm : s'.totalVm = s.totalVm
  lockedVm : s'.lockedVm = s.lockedVm
  defFlags : s'.defFlags = s.defFlags
  brk : s'.brk = s.brk
  endCode : s'.endCode = s.endCode
  iCount : s'.iCount = s.iCount

namespace Relinked

variable {s s' s'' : MmStruct}

theorem refl (s : MmStruct) : Relinked s s := ⟨fun _ => rfl, rfl, rfl, rfl, rfl, rfl, rfl, rfl, rfl⟩

theorem trans (h : Relinked s s') (h' : Relinked s' s'') : Relinked s s'' :=
  ⟨fun q => (h'.core q).trans (h.core q), h'.allocated.trans h.allocated,
    h'.kmallocs.trans h.kmallocs, h'.totalVm.trans h.totalVm, h'.lockedVm.trans h.lockedVm,
    h'.defFlags.trans h.defFlags, h'.brk.trans h.brk, h'.endCode.trans h.endCode,
    h'.iCount.trans h.iCount⟩

theorem seg (h : Relinked s s') : s'.seg = s.seg :=
  funext fun q => VmArea.seg_of_core (h.core q)

theorem vmStart (h : Relinked s s') (q : VmPtr) : (s'.mem q).vmStart = (s.mem q).vmStart :=
  congrArg Segment.lo (VmArea.seg_of_core (h.core q))

theorem vmEnd (h : Relinked s s') (q : VmPtr) : (s'.mem q).vmEnd = (s.mem q).vmEnd :=
  congrArg Segment.hi (VmArea.seg_of_core (h.core q))

theorem modify (s : MmStruct) (p : VmPtr) (next : Option VmPtr) :
    Relinked s (s.modify p ({ · with vmNext := next })) := by
  refine ⟨fun q => ?_, rfl, rfl, rfl, rfl, rfl, rfl, rfl, rfl⟩
  by_cases hq : q = p
  · subst hq
    rw [MmStruct.modify_mem_self]
    rfl
  · rw [MmStruct.modify_mem_of_ne hq]

theorem setCell (s : MmStruct) (prev next : Option VmPtr) : Relinked s (s.setCell prev next) := by
  cases prev with
  | none => exact ⟨fun _ => rfl, rfl, rfl, rfl, rfl, rfl, rfl, rfl, rfl⟩
  | some prev => exact modify s prev next

theorem tree (s : MmStruct) (t : AvlTree VmPtr) : Relinked s { s with mmapAvl := t } :=
  ⟨fun _ => rfl, rfl, rfl, rfl, rfl, rfl, rfl, rfl, rfl⟩

end Relinked

/-- A store into the cell behind a part of the list. -/
theorem chain_setCell {s : MmStruct} {l : List VmPtr} {z : Option VmPtr}
    (h : Chain s.next s.mmap l z) (hnd : l.Nodup) (v : Option VmPtr) :
    Chain (s.setCell l.getLast? v).next (s.setCell l.getLast? v).mmap l v := by
  cases hlast : l.getLast? with
  | none =>
    rw [getLast?_eq_none_iff.mp hlast]
    rfl
  | some q =>
    refine (h.setLast hnd hlast v).congr fun r _ => ?_
    show ((s.modify q ({ · with vmNext := v })).mem r).vmNext = _
    by_cases hr : r = q
    · subst hr
      rw [update_self, MmStruct.modify_mem_self]
    · rw [update_of_ne hr, MmStruct.modify_mem_of_ne hr]
      rfl

theorem setCell_mem_of_notMem (s : MmStruct) {l : List VmPtr} (v : Option VmPtr) {q : VmPtr}
    (hq : q ∉ l) : (s.setCell l.getLast? v).mem q = s.mem q := by
  cases hlast : l.getLast? with
  | none => rfl
  | some r =>
    show (s.modify r ({ · with vmNext := v })).mem q = s.mem q
    refine MmStruct.modify_mem_of_ne fun heq => hq ?_
    rw [heq]
    exact mem_of_getLast? hlast

theorem insertShared_eq (s : MmStruct) (vmp : VmPtr) :
    ∃ ring, insertShared s vmp = { s with iMmap := ring } := by
  unfold insertShared
  split
  · exact ⟨s.iMmap, rfl⟩
  · exact ⟨_, rfl⟩

theorem removeSharedVmStruct_eq (s : MmStruct) (mpnt : VmPtr) :
    ∃ ring, removeSharedVmStruct s mpnt = { s with iMmap := ring } := by
  unfold removeSharedVmStruct
  split
  · exact ⟨s.iMmap, rfl⟩
  · exact ⟨_, rfl⟩

theorem Relinked.ring (s : MmStruct) (ring : InodePtr → List VmPtr) :
    Relinked s { s with iMmap := ring } :=
  ⟨fun _ => rfl, rfl, rfl, rfl, rfl, rfl, rfl, rfl, rfl⟩

section
variable {s : MmStruct} {vmp : VmPtr} {tree : AvlTree VmPtr} {prev next : Option VmPtr}
  (h : avlInsertNeighbours s.key vmp s.mmapAvl = (tree, prev, next))
include h

theorem insertVmStruct_eq : ∃ ring, insertVmStruct s vmp =
    { ({ s with mmapAvl := tree }.setCell prev (some vmp)).modify vmp ({ · with vmNext := next })
      with iMmap := ring } := by
  unfold insertVmStruct
  rw [h]
  exact insertShared_eq _ vmp

theorem insertVmStruct_parts : (insertVmStruct s vmp).mem =
        ((s.setCell prev (some vmp)).modify vmp ({ · with vmNext := next })).mem ∧
      (insertVmStruct s vmp).mmap = (s.setCell prev (some vmp)).mmap ∧
      (insertVmStruct s vmp).mmapAvl = tree := by
  obtain ⟨ring, hring⟩ := insertVmStruct_eq h
  rw [hring]
  cases prev <;> exact ⟨rfl, rfl, rfl⟩

end

theorem relinked_insertVmStruct (s : MmStruct) (vmp : VmPtr) :
    Relinked s (insertVmStruct s vmp) := by
  obtain ⟨⟨tree, prev, next⟩, hr⟩ : ∃ r, avlInsertNeighbours s.key vmp s.mmapAvl = r := ⟨_, rfl⟩
  obtain ⟨ring, hring⟩ := insertVmStruct_eq hr
  rw [hring]
  exact (((Relinked.tree s tree).trans (.setCell _ prev _)).trans (.modify _ vmp next)).trans
    (.ring _ ring)

namespace AreaList

variable {s s' : MmStruct} {ps l l' : List VmPtr} {p q : VmPtr} {area : VmArea} {addr : Nat}

/-- A list splits in one way into what is below and what is above a key. -/
theorem split_unique {l1 l1' : List VmPtr} {key : VmPtr → Nat} {k : Nat}
    (heq : l ++ l' = l1 ++ l1') (hl : ∀ q ∈ l, key q < k) (hl' : ∀ q ∈ l', k < key q)
    (h1 : ∀ q ∈ l1, key q < k) (h1' : ∀ q ∈ l1', k < key q) : l = l1 ∧ l' = l1' := by
  have hfilter : ∀ {a b : List VmPtr}, (∀ q ∈ a, key q < k) → (∀ q ∈ b, k < key q) →
      (a ++ b).filter (fun q => decide (key q < k)) = a := by
    intro a b ha hb
    rw [filter_append, filter_eq_self.mpr (by simpa using ha),
      filter_eq_nil_iff.mpr fun q hq => by simpa using (hb q hq).le, append_nil]
  have hll : l = l1 := by rw [← hfilter hl hl', heq, hfilter h1 h1']
  subst hll
  exact ⟨rfl, append_cancel_left heq⟩

/-- The place of a new node in the tree is its place in the list. -/
theorem insert_place (h : AreaList s (l ++ l')) (hl : ∀ q ∈ l, s.key q < s.key p)
    (hl' : ∀ q ∈ l', s.key p < s.key q) :
    ∃ tree, avlInsertNeighbours s.key p s.mmapAvl = (tree, l.getLast?, l'.head?) ∧
      tree.inorder = l ++ p :: l' ∧ tree.Balanced := by
  have hnew : ∀ q ∈ s.mmapAvl.inorder, s.key q ≠ s.key p := by
    rw [h.inorder]
    exact forall_mem_append.mpr ⟨fun q hq => (hl q hq).ne, fun q hq => (hl' q hq).ne'⟩
  obtain ⟨hold, hin, hrules⟩ := avlInsert_spec s.key h.rules hnew
  rw [avlInsertNeighbours_eq]
  generalize AvlTree.before _ = b at *
  generalize AvlTree.behind _ = b' at *
  have hordered := hrules.ordered
  rw [AvlTree.Ordered, hin] at hordered
  obtain ⟨-, hp, hbp⟩ := pairwise_append.mp hordered
  obtain ⟨rfl, rfl⟩ := split_unique (h.inorder.symm.trans hold) hl hl'
    (fun q hq => hbp q hq p (by simp)) (pairwise_cons.mp hp).1
  exact ⟨_, rfl, hin, hrules.balanced⟩

/-- `insert_vm_struct` puts an area between its neighbours. -/
theorem insert (h : AreaList s (l ++ l')) (hp : p ∉ l ++ l') (hlive : p ∈ s.allocated)
    (hproper : (s.mem p).vmStart < (s.mem p).vmEnd) (hword : (s.mem p).vmEnd < 2 ^ 32)
    (hl : ∀ q ∈ l, (s.mem q).vmEnd ≤ (s.mem p).vmStart)
    (hl' : ∀ q ∈ l', (s.mem p).vmEnd ≤ (s.mem q).vmStart) :
    AreaList (insertVmStruct s p) (l ++ p :: l') ∧
      ∀ q, q ∉ l → q ≠ p → (insertVmStruct s p).mem q = s.mem q := by
  have hkey : ∀ q, q ∈ l → s.key q < s.key p := fun q hq => lt_of_le_of_lt (hl q hq) hproper
  have hkey' : ∀ q, q ∈ l' → s.key p < s.key q := fun q hq =>
    lt_of_le_of_lt (hl' q hq) (h.proper (by simp [hq]))
  obtain ⟨tree, hplace, hin, hbal⟩ := h.insert_place hkey hkey'
  obtain ⟨hmem', hmmap, htree⟩ := insertVmStruct_parts hplace
  have hre := relinked_insertVmStruct s p
  have hpl : p ∉ l := fun hmem => hp (by simp [hmem])
  obtain ⟨hnd, -, hdisj⟩ := nodup_append.mp h.nodup
  have hmem : ∀ q, q ∉ l → q ≠ p → (insertVmStruct s p).mem q = s.mem q := by
    intro q hq hqp
    rw [hmem', MmStruct.modify_mem_of_ne hqp, setCell_mem_of_notMem _ _ hq]
  obtain ⟨hlives, hlives'⟩ := forall_mem_append.mp h.live
  obtain ⟨hwords, hwords'⟩ := forall_mem_append.mp h.word
  refine ⟨⟨?_, htree ▸ hin, htree ▸ hbal, ?_, ?_, ?_⟩, hmem⟩
  · obtain ⟨m, hchain, hchain'⟩ := chain_append.mp h.linked
    have hm : m = l'.head? := by simpa using hchain'.start
    refine chain_append.mpr ⟨some p, ?_, rfl, ?_⟩
    · rw [hmmap]
      refine (chain_setCell hchain hnd (some p)).congr fun q hq => ?_
      have hqp : q ≠ p := fun heq => hpl (heq ▸ hq)
      rw [MmStruct.next, hmem', MmStruct.modify_mem_of_ne hqp]
      rfl
    · have hnext : (insertVmStruct s p).next p = m := by
        rw [MmStruct.next, hmem', MmStruct.modify_mem_self, hm]
      rw [hnext]
      refine hchain'.congr fun q hq => congrArg VmArea.vmNext (hmem q ?_ ?_)
      · exact fun hql => hdisj q hql q hq rfl
      · exact fun heq => hp (by simp [← heq, hq])
  · have hs := h.sorted
    rw [map_append, sorted_append] at hs
    rw [hre.seg, map_append, map_cons, sorted_append, sorted_cons]
    simp only [forall_mem_map, forall_mem_cons]
    exact ⟨hs.1, ⟨hproper, hs.2.1, hl'⟩, fun q hq => ⟨hl q hq, fun r hr =>
      hs.2.2 _ (mem_map_of_mem hq) _ (mem_map_of_mem hr)⟩⟩
  · rw [hre.allocated]
    exact forall_mem_append.mpr ⟨hlives, forall_mem_cons.mpr ⟨hlive, hlives'⟩⟩
  · simp only [hre.vmEnd]
    exact forall_mem_append.mpr ⟨hwords, forall_mem_cons.mpr ⟨hword, hwords'⟩⟩

/-! ## Changes that keep the list -/

/-- An area changed in place, between its neighbours. -/
theorem set (h : AreaList s (l ++ p :: l')) (hnext : area.vmNext = (s.mem p).vmNext)
    (hproper : area.vmStart < area.vmEnd) (hword : area.vmEnd < 2 ^ 32)
    (hl : ∀ q ∈ l, (s.mem q).vmEnd ≤ area.vmStart)
    (hl' : ∀ q ∈ l', area.vmEnd ≤ (s.mem q).vmStart) : AreaList (s.set p area) (l ++ p :: l') := by
  obtain ⟨hpl, hpl'⟩ : p ∉ l ∧ p ∉ l' := by
    have := h.nodup
    rw [nodup_append] at this
    exact ⟨fun hmem => this.2.2 p hmem p (by simp) rfl, (nodup_cons.mp this.2.1).1⟩
  have hne : ∀ q ∈ l ++ l', q ≠ p := by
    intro q hq heq
    subst heq
    rcases mem_append.mp hq with hq | hq
    · exact hpl hq
    · exact hpl' hq
  have hseg : ∀ m : List VmPtr, (∀ q ∈ m, q ∈ l ++ l') → m.map (s.set p area).seg = m.map s.seg :=
    fun m hm => map_congr_left fun q hq =>
      congrArg VmArea.seg (set_mem_of_ne (hne q (hm q hq)))
  refine ⟨?_, h.inorder, h.balanced, ?_, h.live, fun q hq => ?_⟩
  · refine h.linked.congr fun q _ => ?_
    by_cases hq : q = p
    · rw [hq]
      exact (congrArg VmArea.vmNext set_mem_self).trans hnext
    · exact congrArg VmArea.vmNext (set_mem_of_ne hq)
  · have hs := h.sorted
    rw [map_append, map_cons, sorted_append, sorted_cons] at hs ⊢
    rw [hseg l fun _ => mem_append_left l', hseg l' fun _ => mem_append_right l]
    have hpseg : (s.set p area).seg p = area.seg := congrArg VmArea.seg set_mem_self
    rw [hpseg]
    simp only [forall_mem_map, forall_mem_cons] at hs ⊢
    exact ⟨hs.1, ⟨hproper, hs.2.1.2.1, hl'⟩, fun q hq => ⟨hl q hq, (hs.2.2 q hq).2⟩⟩
  · by_cases hqp : q = p
    · rw [hqp, set_mem_self]
      exact hword
    · rw [set_mem_of_ne hqp]
      exact h.word q hq

/-- A structure outside the list is filled in. -/
theorem setOther (h : AreaList s ps) (area : VmArea) (hp : p ∉ ps) : AreaList (s.set p area) ps :=
  h.congr (fun _ hq => set_mem_of_ne fun heq => hp (heq ▸ hq)) rfl rfl fun _ _ hlive => hlive

theorem kfree (h : AreaList s ps) (hp : p ∉ ps) : AreaList (kfree s p) ps :=
  h.congr (fun _ _ => rfl) rfl rfl fun _ hq hlive =>
    Finset.mem_erase.mpr ⟨fun heq => hp (heq ▸ hq), hlive⟩

theorem take (h : AreaList s ps) (p : VmPtr) : AreaList (s.take p) ps :=
  h.congr (fun _ _ => rfl) rfl rfl fun _ _ => Finset.mem_insert_of_mem

theorem addCount (h : AreaList s ps) (inode : Option InodePtr) (n : Int) :
    AreaList (s.addCount inode n) ps := by
  cases inode <;> exact h.congr (fun _ _ => rfl) rfl rfl fun _ _ hlive => hlive

end AreaList

/-- A successful allocation. -/
theorem kmalloc_succeeds {K : Kmalloc} (hK : K.Succeeds) (s : MmStruct) :
    ∃ p, p ∉ s.allocated ∧ kmalloc K s = (some p, s.take p) := by
  obtain ⟨p, hp⟩ := Option.isSome_iff_exists.mp (hK s.kmallocs s.allocated)
  refine ⟨p, K.fresh _ _ _ hp, ?_⟩
  rw [kmalloc, hp]

section
variable (s : MmStruct) (inode : Option InodePtr) (n : Int)

@[simp] theorem addCount_mem : (s.addCount inode n).mem = s.mem := by cases inode <;> rfl
@[simp] theorem addCount_allocated : (s.addCount inode n).allocated = s.allocated := by
  cases inode <;> rfl
@[simp] theorem addCount_totalVm : (s.addCount inode n).totalVm = s.totalVm := by
  cases inode <;> rfl

end

end Sbckernel.Mm
