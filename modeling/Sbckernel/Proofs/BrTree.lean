import Mathlib.Data.ZMod.Defs
import Sbckernel.Net.BrTree
import Sbckernel.Proofs.Avl

/-!
# What a bridge has learned

The tree is a search tree at every moment, but nothing keeps it low: frames with ascending
addresses make a list of it. The stack of a call is as long as the way it goes, so all that bounds
it is the number of entries, one for each station and `fdb_head`. What a search finds is decided
by the first frame from a station, since an entry that is there keeps its port.
-/

namespace Sbckernel.Net.BrTree

open Lib AvlTree Mm List

variable {t l r : AvlTree Fdb} {f : Fdb} {a b : Ula} {skb : Frame} {us : Finset Ula} {h : Nat}

/-! ## The order of the addresses -/

theorem addrCmp_cases (a b : List (Fin 256)) (h : a.length = b.length) :
    (addrCmp a b = 0 ↔ a = b) ∧ (addrCmp a b < 0 ↔ a < b) := by
  induction a generalizing b with
  | nil =>
    cases b with
    | nil => simp [addrCmp]
    | cons => cases h
  | cons x a ih =>
    cases b with
    | nil => cases h
    | cons y b =>
      obtain ⟨ih1, ih2⟩ := ih b (by simpa using h)
      rw [addrCmp, cons_lt_cons_iff]
      split
      next hgt => simp [hgt.ne', hgt.not_gt]
      next hle =>
        split
        next hlt => simp [hlt, hlt.ne]
        next hge =>
          obtain rfl : x = y := le_antisymm (not_lt.mp hle) (not_lt.mp hge)
          simp [ih1, ih2]

@[simp] theorem addrCmp_eq_zero : addrCmp a.1 b.1 = 0 ↔ a = b :=
  ((addrCmp_cases a.1 b.1 (a.2.trans b.2.symm)).1).trans Subtype.ext_iff.symm

@[simp] theorem addrCmp_neg : addrCmp a.1 b.1 < 0 ↔ a < b :=
  (addrCmp_cases a.1 b.1 (a.2.trans b.2.symm)).2

/-! ## Searching -/

/-- A frame decides about its station only if none from there came before. -/
theorem find_brAvlInsert : (brAvlFindAddr a (brAvlInsert f t).1).map Fdb.port =
    ((brAvlFindAddr a t).map Fdb.port).or (if a = f.ula then some f.port else none) := by
  induction t with
  | empty =>
    simp only [brAvlInsert, brAvlFindAddr, addrCmp_eq_zero]
    split <;> simp
  | node l node h r ihl ihr =>
    rw [brAvlInsert]
    simp only [addrCmp_eq_zero, addrCmp_neg]
    split
    next heq =>
      simp only [brAvlFindAddr, addrCmp_eq_zero, heq]
      split <;> simp
    next hne =>
      split
      next hlt =>
        simp only [brAvlFindAddr, addrCmp_eq_zero, addrCmp_neg]
        split
        · simp
        · split
          · exact ihl
          next hge => simp [show a ≠ f.ula from fun heq => hge (heq ▸ hlt)]
      next hnlt =>
        simp only [brAvlFindAddr, addrCmp_eq_zero, addrCmp_neg]
        split
        · simp
        · split
          next hlt => simp [show a ≠ f.ula from fun heq => hnlt (heq ▸ hlt)]
          · exact ihr

/-- The frames from a station that the tree has seen. -/
def framesFrom (a : Ula) (frames : List Frame) : List Frame :=
  frames.filter fun skb => skb.learned ∧ skb.source = a

theorem find_learned (frames : List Frame) :
    (brAvlFindAddr a (after (frames.map .learn))).map Fdb.port =
      ((brAvlFindAddr a fdbHead).map Fdb.port).or ((framesFrom a frames).head?.map Frame.port) := by
  rw [after]
  generalize fdbHead = t
  induction frames generalizing t with
  | nil => simp [framesFrom]
  | cons skb frames ih =>
    rw [map_cons, foldl_cons, ih]
    simp only [framesFrom, filter_cons]
    by_cases hl : skb.learned
    · rw [Op.run, brLearn, if_pos hl, find_brAvlInsert]
      by_cases hs : skb.source = a
      · simp [hl, hs]
      · simp [hl, hs, Ne.symm hs]
    · simp [Op.run, brLearn, hl]

/-- A station is found once a frame from it has been learned, and with the port of its last frame
exactly if that is the port of its first one. -/
theorem station_found {frames : List Frame} (hne : a ≠ zeroes) :
    ((brAvlFindAddr a (after (frames.map .learn))).isSome ↔ framesFrom a frames ≠ []) ∧
    ((brAvlFindAddr a (after (frames.map .learn))).map Fdb.port =
        (framesFrom a frames).getLast?.map Frame.port ↔
      (framesFrom a frames).head?.map Frame.port =
        (framesFrom a frames).getLast?.map Frame.port) := by
  have hhead : brAvlFindAddr a fdbHead = none := by
    simp [fdbHead, brAvlFindAddr, hne]
  have hfirst := find_learned (a := a) frames
  rw [hhead, Option.map_none, Option.none_or] at hfirst
  rw [← Option.isSome_map (f := Fdb.port), hfirst, Option.isSome_map]
  exact ⟨by cases framesFrom a frames <;> simp, Iff.rfl⟩

local instance octet : NeZero 256 := Nat.instNeZeroSucc

/-- A station at the address `b`. -/
def station (b : Fin 256) : Ula := ⟨[2, 0, 0, 0, 0, b], rfl⟩

/-- Its frames, behind the port `port`. -/
def frame (b : Fin 256) (port : Nat) : Frame := ⟨station b, port, .forwarding, 0, true⟩

theorem station_found_again :
    (brAvlFindAddr (station 1) (after ([frame 1 2, frame 1 2].map .learn))).map Fdb.port = some 2 :=
  (station_found (by decide)).2.mpr (by decide)

/-- A station that moves is still found where it was. -/
theorem moved_station :
    ¬(brAvlFindAddr (station 1) (after ([frame 1 2, frame 1 3].map .learn))).map Fdb.port =
      some 3 := by
  decide

/-! ## The stack -/

def keys (t : AvlTree Fdb) : List Ula := t.inorder.map Fdb.ula

@[simp] theorem keys_node :
    keys (.node l f h r) = keys l ++ f.ula :: keys r := by
  simp [keys]

theorem brAvlInsert_stack_le : (brAvlInsert f t).2 ≤ t.inorder.length := by
  induction t with
  | empty => exact le_refl 0
  | node l node h r ihl ihr =>
    rw [brAvlInsert, inorder_node, length_append, length_cons]
    split
    · omega
    · split <;> simp only <;> omega

theorem mem_keys_brAvlInsert {u : Ula} (hu : u ∈ keys (brAvlInsert f t).1) :
    u = f.ula ∨ u ∈ keys t := by
  induction t with
  | empty => simpa [brAvlInsert, keys] using hu
  | node l node h r ihl ihr =>
    rw [brAvlInsert] at hu
    split at hu
    · exact .inr (by simpa using hu)
    · split at hu <;> simp at hu ⊢ <;> grind

theorem sorted_node : (keys (.node l f h r)).Pairwise (· < ·) ↔
    (keys l).Pairwise (· < ·) ∧ (keys r).Pairwise (· < ·) ∧
      (∀ u ∈ keys l, u < f.ula) ∧ ∀ u ∈ keys r, f.ula < u := by
  rw [keys_node, pairwise_append, pairwise_cons]
  refine ⟨fun ⟨hl, ⟨hr, hs⟩, hlr⟩ => ⟨hl, hs, fun u hu => hlr u hu _ (by simp), hr⟩,
    fun ⟨hl, hs, hlow, hr⟩ => ⟨hl, ⟨hr, hs⟩, fun u hu => forall_mem_cons.mpr ⟨hlow u hu, ?_⟩⟩⟩
  exact fun w hw => (hlow u hu).trans (hr w hw)

/-- An entry is put where the order wants it. -/
theorem sorted_brAvlInsert (ht : (keys t).Pairwise (· < ·)) :
    (keys (brAvlInsert f t).1).Pairwise (· < ·) := by
  induction t with
  | empty => simp [brAvlInsert, keys]
  | node l node h r ihl ihr =>
    obtain ⟨hl, hr, hlow, hhigh⟩ := sorted_node.mp ht
    rw [brAvlInsert]
    simp only [addrCmp_eq_zero, addrCmp_neg]
    split
    · simpa using ht
    next hne =>
      split
      next hlt =>
        refine sorted_node.mpr ⟨ihl hl, hr, fun u hu => ?_, hhigh⟩
        rcases mem_keys_brAvlInsert hu with rfl | hu
        · exact hlt
        · exact hlow u hu
      next hge =>
        refine sorted_node.mpr ⟨hl, ihr hr, hlow, fun u hu => ?_⟩
        rcases mem_keys_brAvlInsert hu with rfl | hu
        · exact lt_of_le_of_ne (not_lt.mp hge) (Ne.symm hne)
        · exact hhigh u hu

theorem length_le_around (path : List (AvlTree.Frame Fdb)) :
    path.length ≤ (before path).length + (behind path).length := by
  induction path with
  | nil => exact le_refl 0
  | cons f path ih => cases f <;> simp [before, behind] <;> omega

theorem brAvlRemove_stack_le (ht : t.Ordered Fdb.ula) (hf : f ∈ t.inorder) :
    (brAvlRemove f t).2 ≤ t.inorder.length := by
  obtain ⟨⟨stack, l, v, h, r⟩, hfound⟩ :=
    Option.isSome_iff_exists.mp (avlRemovePath_isSome Fdb.ula ht hf [])
  have hplug := congrArg inorder (avlRemovePath_some Fdb.ula hfound).2.1
  have hstack := length_le_around stack
  rw [inorder_plug, plug] at hplug
  simp only [brAvlRemove, hfound, ← hplug, inorder_node, length_append, length_cons]
  cases l with
  | empty =>
    simp only
    omega
  | node ll lv lh lr =>
    have hwalk :=
      avlRightmost_spec ll lv lh lr (Prod.mk.eta (p := avlRightmost ll lv lh lr [])).symm
    have hspine := length_le_around (avlRightmost ll lv lh lr []).1
    have hlen := congrArg List.length hwalk.1
    rw [hwalk.2.1] at hspine
    simp only [before, behind, length_append, length_cons, length_nil, inorder_node]
      at hspine hlen ⊢
    omega

/-- The tree is ordered, and its entries are those of the addresses `us`. -/
structure Known (us : Finset Ula) (t : AvlTree Fdb) : Prop where
  sorted : (keys t).Pairwise (· < ·)
  mem : ∀ u ∈ keys t, u ∈ us

namespace Known

theorem ordered (h : Known us t) : t.Ordered Fdb.ula := pairwise_map.mp h.sorted

theorem length_le (h : Known us t) : t.inorder.length ≤ us.card := by
  have hnd : (t.inorder.map Fdb.ula).Nodup := h.sorted.imp ne_of_lt
  rw [← length_map Fdb.ula, ← toFinset_card_of_nodup hnd]
  exact Finset.card_le_card fun u hu => h.mem u (mem_toFinset.mp hu)

/-- One call keeps the tree ordered, and writes as many entries as there are stations at most. -/
theorem run {op : Op} (h : Known us t)
    (hop : ∀ skb, op = .learn skb → skb.learned → skb.source ∈ us) :
    Known us (op.run t).1 ∧ (op.run t).2 ≤ us.card := by
  cases op with
  | learn skb =>
    rw [Op.run, brLearn]
    split
    next hlearned =>
      refine ⟨⟨sorted_brAvlInsert h.sorted, fun u hu => ?_⟩, brAvlInsert_stack_le.trans h.length_le⟩
      rcases mem_keys_brAvlInsert hu with rfl | hu
      · exact hop skb rfl hlearned
      · exact h.mem u hu
    · exact ⟨h, Nat.zero_le _⟩
  | remove f =>
    rw [Op.run]
    split
    next hf =>
      obtain ⟨a, b, hold, hnew, hord, -⟩ := avlRemove_spec Fdb.ula h.ordered hf
      refine ⟨⟨pairwise_map.mpr hord, fun u hu => h.mem u ?_⟩,
        (brAvlRemove_stack_le h.ordered hf).trans h.length_le⟩
      have hu : u ∈ (avlRemove Fdb.ula f t).inorder.map Fdb.ula := hu
      rw [hnew] at hu
      rw [keys, hold]
      exact (List.Sublist.map _ ((sublist_cons_self f b).append_left a)).subset hu
    · exact ⟨h, Nat.zero_le _⟩

end Known

/-- How many nodes the longest way down has. -/
def depth : AvlTree Fdb → Nat
  | .empty => 0
  | .node l _ _ r => max (depth l) (depth r) + 1

theorem depth_le : depth t ≤ t.inorder.length := by
  induction t with
  | empty => exact le_refl 0
  | node l node h r ihl ihr =>
    rw [depth, inorder_node, length_append, length_cons]
    omega

/-- With learned frames from fewer than `avl_maxheight` stations the tree is not deeper than that,
and no call writes behind its stack. -/
theorem stack_holds {ops : List Op} {op : Op} (hfew : us.card < avlMaxheight)
    (hops : ∀ skb, .learn skb ∈ op :: ops → skb.learned → skb.source ∈ us) :
    depth (op.run (after ops)).1 ≤ avlMaxheight ∧ (op.run (after ops)).2 ≤ avlMaxheight := by
  have hknown : Known (insert zeroes us) (after ops) := by
    refine List.foldlRecOn ops _ ⟨by decide, by simp [fdbHead, keys]⟩ fun t ht op hop =>
      (ht.run ?_).1
    intro skb hskb hlearned
    exact Finset.mem_insert_of_mem (hops skb (by simp [← hskb, hop]) hlearned)
  have hcard : (insert zeroes us).card ≤ avlMaxheight := (Finset.card_insert_le _ _).trans hfew
  have hop : ∀ skb, op = .learn skb → skb.learned → skb.source ∈ insert zeroes us :=
    fun skb hskb hlearned => Finset.mem_insert_of_mem (hops skb (by simp [hskb]) hlearned)
  obtain ⟨hknown, hstack⟩ := hknown.run hop
  exact ⟨depth_le.trans (hknown.length_le.trans hcard), hstack.trans hcard⟩

theorem stack_holds_two :
    ((Op.remove ⟨station 1, 2, 0, fdbEntValid⟩).run
      (after [.learn (frame 1 2), .learn (frame 9 3)])).2 ≤ avlMaxheight := by
  have hfew : ({station 1, station 9} : Finset Ula).card < avlMaxheight := by decide
  exact (stack_holds hfew (by simp [frame])).2

/-- Frames with ascending addresses. -/
def ascending (n : Nat) : List Op :=
  (List.range n).map fun i => .learn (frame (Fin.ofNat 256 i) 1)

theorem stack_overflows :
    avlMaxheight < ((ascending 128).getLast (by decide) |>.run (after (ascending 127))).2 := by
  decide +kernel

end Sbckernel.Net.BrTree
