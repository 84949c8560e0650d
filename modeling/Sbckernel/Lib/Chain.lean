import Mathlib.Data.List.Basic

/-!
# Singly linked lists in a store

`Chain next a l z` says that the pointer `a` leads through the nodes `l`, in
this order, to the pointer `z`; a list that ends in a null pointer has
`z = none`. An algorithm that splices such a list stores into the cell of the
last node of a part, so the rules are: a chain splits where its list splits, a
chain does not see stores outside its nodes, and a store into the last cell
moves the end.
-/

namespace Sbckernel.Lib

open Function List

variable {ι : Type*} {next next' : ι → Option ι} {l' : List ι}
variable {a z : Option ι} {l l1 l2 : List ι} {q p : ι}

def Chain (next : ι → Option ι) : Option ι → List ι → Option ι → Prop
  | a, [], z => a = z
  | a, p :: l, z => a = some p ∧ Chain next (next p) l z

theorem chain_append :
    Chain next a (l ++ l') z ↔ ∃ m, Chain next a l m ∧ Chain next m l' z := by
  induction l generalizing a with
  | nil => simp [Chain]
  | cons p l ih => simp [Chain, ih, and_assoc]

theorem Chain.congr (h : Chain next a l z)
    (heq : ∀ p ∈ l, next' p = next p) : Chain next' a l z := by
  induction l generalizing a with
  | nil => exact h
  | cons p l ih =>
    refine ⟨h.1, ?_⟩
    rw [heq p (by simp)]
    exact ih h.2 fun q hq => heq q (by simp [hq])

theorem Chain.unique (h : Chain next a l none) (h' : Chain next a l' none) : l = l' := by
  induction l generalizing a l' with
  | nil =>
    cases l' with
    | nil => rfl
    | cons q l' => cases h.symm.trans h'.1
  | cons p l ih =>
    cases l' with
    | nil => cases h.1.symm.trans h'
    | cons q l' =>
      cases h.1.symm.trans h'.1
      rw [ih h.2 h'.2]

/-- Where a chain starts. -/
theorem Chain.start (h : Chain next a l z) : a = l.head?.or z := by
  cases l with
  | nil => exact h
  | cons p l => exact h.1

/-- A store into the cell of the last node. -/
theorem Chain.setLast [DecidableEq ι] (h : Chain next a l z) (hnd : l.Nodup)
    (hq : l.getLast? = some q) (v : Option ι) : Chain (update next q v) a l v := by
  induction l generalizing a with
  | nil => cases hq
  | cons p l ih =>
    refine ⟨h.1, ?_⟩
    cases l with
    | nil =>
      cases hq
      exact update_self ..
    | cons r l =>
      have hql : q ∈ r :: l := mem_of_getLast? hq
      have hpq : p ≠ q := fun heq => (nodup_cons.mp hnd).1 (heq ▸ hql)
      rw [update_of_ne hpq]
      exact ih h.2 (nodup_cons.mp hnd).2 hq

/-- A new node at the end. -/
theorem Chain.snoc [DecidableEq ι] (h : Chain next a l none)
    (hnd : l.Nodup) (hq : l.getLast? = some q) (hp : p ∉ l) (hnext : next p = none) :
    Chain (update next q (some p)) a (l ++ [p]) none := by
  refine chain_append.mpr ⟨some p, h.setLast hnd hq (some p), rfl, ?_⟩
  have hpq : p ≠ q := fun heq => hp (heq ▸ mem_of_getLast? hq)
  rw [update_of_ne hpq]
  exact hnext

/-- A node that is not the first one is taken out. -/
theorem Chain.remove [DecidableEq ι]
    (h : Chain next a (l1 ++ p :: l2) z) (hnd : (l1 ++ p :: l2).Nodup)
    (hq : l1.getLast? = some q) : Chain (update next q (next p)) a (l1 ++ l2) z := by
  obtain ⟨m, hl1, -, hl2⟩ := chain_append.mp h
  obtain ⟨hnd1, hnd2, hdisj⟩ := nodup_append.mp hnd
  refine chain_append.mpr ⟨next p, hl1.setLast hnd1 hq (next p), hl2.congr fun r hr => ?_⟩
  have hrq : r ≠ q := fun heq =>
    hdisj q (mem_of_getLast? hq) r (mem_cons_of_mem p hr) heq.symm
  exact update_of_ne hrq ..

/-- A new node behind another one. -/
theorem Chain.insert [DecidableEq ι] (h : Chain next a (l1 ++ l2) z) (hnd : (l1 ++ l2).Nodup)
    (hp : p ∉ l1 ++ l2) (hq : l1.getLast? = some q) :
    Chain (update (update next p (l2.head?.or z)) q (some p)) a (l1 ++ p :: l2)
      z := by
  obtain ⟨m, hl1, hl2⟩ := chain_append.mp h
  obtain ⟨hnd1, -, hdisj⟩ := nodup_append.mp hnd
  have hpq : p ≠ q := fun heq => hp (mem_append_left l2 (heq ▸ mem_of_getLast? hq))
  have hl1' : Chain (update next p (l2.head?.or z)) a l1 m :=
    hl1.congr fun r hr =>
      update_of_ne (show r ≠ p by rintro rfl; exact hp (mem_append_left l2 hr)) ..
  refine chain_append.mpr ⟨some p, hl1'.setLast hnd1 hq (some p), rfl, ?_⟩
  rw [update_of_ne hpq, update_self, ← hl2.start]
  refine hl2.congr fun r hr => ?_
  have hrp : r ≠ p := fun heq => hp (mem_append_right l1 (heq ▸ hr))
  have hrq : r ≠ q := fun heq => hdisj q (mem_of_getLast? hq) r hr heq.symm
  rw [update_of_ne hrq, update_of_ne hrp]

/-- What a node points to. -/
theorem Chain.next_eq (h : Chain next a (l1 ++ p :: l2) z) : next p = l2.head?.or z := by
  obtain ⟨m, -, -, hl2⟩ := chain_append.mp h
  exact hl2.start

/-- The node before another one is the first that points to it. -/
theorem Chain.find?_before [DecidableEq ι] (h : Chain next a (l1 ++ p :: l2) z)
    (hnd : (l1 ++ p :: l2).Nodup) (hq : l1.getLast? = some q) :
    (l1 ++ p :: l2).find? (fun r => next r = some p) = some q := by
  induction l1 generalizing a with
  | nil => cases hq
  | cons r l1 ih =>
    have hnext := h.2.start
    rw [cons_append, find?_cons]
    cases l1 with
    | nil =>
      cases hq
      rw [show next r = some p from hnext]
      simp
    | cons r' l1 =>
      have hne : r' ≠ p := by
        intro heq
        have hnd' := (nodup_cons.mp hnd).2
        exact (nodup_cons.mp hnd').1 (heq ▸ by simp)
      rw [show next r = some r' from hnext]
      simp only [Option.some.injEq, hne, decide_false]
      exact ih h.2 (nodup_cons.mp hnd).2 hq

end Sbckernel.Lib
