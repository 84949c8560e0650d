import Mathlib.Data.List.Nodup

/-!
# Queues with a pointer to the last link

A queue of nodes that carry their own pointers. `next` leads to the next node, and
`prev` to the pointer that leads here: the head of the queue or the `next` of the
node before. The queue also knows its last link, the one that is null, so that a
node can be put at the end or taken out of the middle without a walk. A node whose
`prev` is null is in no queue.

`Rep Q l` says that the pointers spell the list `l`. Putting in and taking out are
then `l ++ [q]` and `l.erase q`.
-/

namespace Sbckernel.Lib

open Function List

/-- The address of a pointer. -/
inductive Link (ι : Type*) where
  | head
  | next (q : ι)
  deriving DecidableEq

structure TailQueue (ι : Type*) where
  first : Option ι
  last : Link ι
  next : ι → Option ι
  prev : ι → Option (Link ι)

namespace TailQueue

variable {ι : Type*} {m : Link ι} {l1 l2 : List ι}

def empty : TailQueue ι := ⟨none, .head, fun _ => none, fun _ => none⟩

variable (Q : TailQueue ι)

/-- What a pointer holds. -/
def load : Link ι → Option ι
  | .head => Q.first
  | .next q => Q.next q

/-- From the link `p` on the pointers spell the list, up to the link `e`. -/
def Seg (Q : TailQueue ι) : Link ι → List ι → Link ι → Prop
  | p, [], e => p = e
  | p, q :: l, e => Q.load p = some q ∧ Q.prev q = some p ∧ Q.Seg (.next q) l e

structure Rep (Q : TailQueue ι) (l : List ι) : Prop where
  nodup : l.Nodup
  seg : Q.Seg .head l Q.last
  stop : Q.load Q.last = none
  outside : ∀ q ∉ l, Q.prev q = none

section
variable {Q Q' : TailQueue ι} {l l' : List ι} {p e : Link ι} {q : ι}

theorem rep_empty : Rep (empty : TailQueue ι) [] := ⟨.nil, rfl, rfl, fun _ _ => rfl⟩

theorem seg_append : Q.Seg p (l ++ l') e ↔ ∃ m, Q.Seg p l m ∧ Q.Seg m l' e := by
  induction l generalizing p with
  | nil => simp [Seg]
  | cons q l ih => simp [Seg, ih, and_assoc]

/-- Where a list ends. -/
theorem Seg.end_eq (h : Q.Seg p l e) : (l = [] ∧ e = p) ∨ ∃ q ∈ l, e = .next q := by
  induction l generalizing p with
  | nil => exact .inl ⟨rfl, h.symm⟩
  | cons q l ih =>
    rcases ih h.2.2 with ⟨-, heq⟩ | ⟨r, hr, heq⟩
    · exact .inr ⟨q, by simp, heq⟩
    · exact .inr ⟨r, by simp [hr], heq⟩

theorem Seg.prev_ne (h : Q.Seg p l e) (hq : q ∈ l) : Q.prev q ≠ none := by
  induction l generalizing p with
  | nil => cases hq
  | cons r l ih =>
    rcases mem_cons.mp hq with rfl | hq
    · rw [h.2.1]
      exact Option.some_ne_none _
    · exact ih h.2.2 hq

/-- A list does not see stores to its last link or outside. -/
theorem Seg.congr (h : Q.Seg p l e) (hnd : l.Nodup) (hp : ∀ q ∈ l, p ≠ .next q)
    (hload : ∀ a, (a = p ∨ ∃ q ∈ l, a = .next q) → a ≠ e → Q'.load a = Q.load a)
    (hprev : ∀ q ∈ l, Q'.prev q = Q.prev q) : Q'.Seg p l e := by
  induction l generalizing p with
  | nil => exact h
  | cons q l ih =>
    obtain ⟨hq, hl⟩ := nodup_cons.mp hnd
    have hpe : p ≠ e := by
      rcases h.2.2.end_eq with ⟨-, rfl⟩ | ⟨r, hr, rfl⟩
      · exact hp q (by simp)
      · exact hp r (by simp [hr])
    refine ⟨(hload p (.inl rfl) hpe).trans h.1, (hprev q (by simp)).trans h.2.1,
      ih h.2.2 hl (fun r hr heq => hq (Link.next.inj heq ▸ hr)) (fun a ha => hload a (.inr ?_))
        fun r hr => hprev r (by simp [hr])⟩
    rcases ha with rfl | ⟨r, hr, rfl⟩
    · exact ⟨q, by simp, rfl⟩
    · exact ⟨r, by simp [hr], rfl⟩

theorem Rep.prev_eq_none (h : Q.Rep l) : Q.prev q = none ↔ q ∉ l :=
  ⟨fun hnone hq => h.seg.prev_ne hq hnone, h.outside q⟩

theorem Rep.last_eq (h : Q.Rep l) : Q.last = .head ∨ ∃ r ∈ l, Q.last = .next r := by
  rcases h.seg.end_eq with ⟨-, heq⟩ | hex
  · exact .inl heq
  · exact .inr hex

theorem Seg.end_eq_getLast (h : Q.Seg p l e) : e = l.getLast?.elim p .next := by
  induction l generalizing p with
  | nil => exact h.symm
  | cons q l ih =>
    rw [ih h.2.2]
    cases l with
    | nil => rfl
    | cons r l => rw [getLast?_cons_cons, getLast?_eq_some_getLast (cons_ne_nil r l)]; rfl

theorem Seg.load_eq (h : Q.Seg p l e) (hstop : Q.load e = none) : Q.load p = l.head? := by
  cases l with
  | nil => exact (congrArg Q.load h).trans hstop
  | cons q l => exact h.1

theorem Rep.first_eq (h : Q.Rep l) : Q.first = l.head? := h.seg.load_eq h.stop

theorem Rep.next_eq (h : Q.Rep (l1 ++ q :: l2)) : Q.next q = l2.head? := by
  obtain ⟨m, -, -, -, hseg⟩ := seg_append.mp h.seg
  exact hseg.load_eq h.stop

end

variable [DecidableEq ι] {Q : TailQueue ι} {l : List ι} {q : ι}

def store : Link ι → Option ι → TailQueue ι
  | .head, v => { Q with first := v }
  | .next q, v => { Q with next := update Q.next q v }

/-- Put a node at the end. -/
def insertTail (q : ι) : TailQueue ι :=
  let Q := { Q with prev := update Q.prev q (some Q.last) }
  let Q := Q.store Q.last (some q)
  let Q := { Q with last := .next q }
  Q.store Q.last none

/-- Take a node out; one that is in no queue stays as it is. -/
def remove (q : ι) : TailQueue ι :=
  match Q.prev q with
  | none => Q
  | some p =>
    let Q := Q.store p (Q.next q)
    let Q := match Q.next q with
      | some n => { Q with prev := update Q.prev n (some p) }
      | none => { Q with last := p }
    { Q with prev := update Q.prev q none }

theorem remove_of_prev_none (h : Q.prev q = none) : Q.remove q = Q := by
  rw [remove, h]

@[simp] theorem store_prev (p : Link ι) (v : Option ι) : (Q.store p v).prev = Q.prev := by
  cases p <;> rfl

@[simp] theorem store_last (p : Link ι) (v : Option ι) : (Q.store p v).last = Q.last := by
  cases p <;> rfl

theorem load_store (p a : Link ι) (v : Option ι) :
    (Q.store p v).load a = if a = p then v else Q.load a := by
  cases p <;> cases a <;> simp [store, load, update_apply]

theorem load_insertTail (a : Link ι) : (Q.insertTail q).load a =
    if a = .next q then none else if a = Q.last then some q else Q.load a := by
  cases hlast : Q.last <;> cases a <;>
    simp [TailQueue.insertTail, store, load, hlast, update_apply]

theorem insertTail_prev : (Q.insertTail q).prev = update Q.prev q (some Q.last) := by
  cases hlast : Q.last <;> simp [TailQueue.insertTail, store, hlast]

theorem insertTail_last : (Q.insertTail q).last = .next q := by
  cases hlast : Q.last <;> simp [TailQueue.insertTail, store, hlast]

theorem Rep.insertTail (h : Q.Rep l) (hq : q ∉ l) : (Q.insertTail q).Rep (l ++ [q]) := by
  have hlast : Q.last ≠ .next q := by
    intro heq
    rcases h.last_eq with hhead | ⟨r, hr, hnext⟩
    · rw [heq] at hhead
      cases hhead
    · exact hq (Link.next.inj (heq.symm.trans hnext) ▸ hr)
  refine ⟨nodup_append.mpr ⟨h.nodup, nodup_singleton q, ?_⟩, ?_, ?_, fun r hr => ?_⟩
  · rintro a ha b hb rfl
    exact hq (mem_singleton.mp hb ▸ ha)
  · rw [insertTail_last]
    refine seg_append.mpr ⟨Q.last, h.seg.congr h.nodup nofun (fun a ha hne => ?_) fun r hr => ?_,
      ?_, ?_, rfl⟩
    · have hneq : a ≠ .next q := by
        rintro rfl
        rcases ha with ha | ⟨r, hr, heq⟩
        · cases ha
        · exact hq (Link.next.inj heq ▸ hr)
      rw [load_insertTail, if_neg hneq, if_neg hne]
    · rw [insertTail_prev, update_of_ne (ne_of_mem_of_not_mem hr hq)]
    · rw [load_insertTail, if_neg hlast, if_pos rfl]
    · rw [insertTail_prev, update_self]
  · rw [insertTail_last, load_insertTail, if_pos rfl]
  · rw [mem_append, not_or, mem_singleton] at hr
    rw [insertTail_prev, update_of_ne hr.2]
    exact h.outside r hr.1

/-- Taking out stores one pointer. -/
theorem load_remove (hprev : Q.prev q = some m) (a : Link ι) :
    (Q.remove q).load a = if a = m then Q.next q else Q.load a := by
  rw [remove, hprev, ← load_store]
  dsimp only
  split <;> cases a <;> rfl

theorem store_next_self (m : Link ι) : (Q.store m (Q.next q)).next q = Q.next q := by
  have h := load_store (Q := Q) m (.next q) (Q.next q)
  split at h <;> exact h

theorem remove_prev (hprev : Q.prev q = some m) (r : ι) : (Q.remove q).prev r =
    if r = q then none else if Q.next q = some r then some m else Q.prev r := by
  rw [remove, hprev]
  dsimp only
  rw [store_next_self]
  cases hnext : Q.next q with
  | none =>
    by_cases hr : r = q
    · simp [hr]
    · simp [hr]
  | some n =>
    by_cases hr : r = q
    · simp [hr]
    · by_cases hn : r = n
      · subst hn
        simp [hr]
      · simp [hr, hn, Ne.symm hn]

theorem remove_last (hprev : Q.prev q = some m) :
    (Q.remove q).last = if Q.next q = none then m else Q.last := by
  rw [remove, hprev]
  dsimp only
  rw [store_next_self]
  cases hnext : Q.next q <;> simp

theorem Rep.remove (h : Q.Rep (l1 ++ q :: l2)) : (Q.remove q).Rep (l1 ++ l2) := by
  obtain ⟨m, hl1, hlink, hprev, hl2⟩ := seg_append.mp h.seg
  have hnext := h.next_eq
  obtain ⟨hnd1, hndq, hdisj⟩ := nodup_append.mp h.nodup
  obtain ⟨hq2, hnd2⟩ := nodup_cons.mp hndq
  have hq1 : q ∉ l1 := fun hq => hdisj q hq q (by simp) rfl
  have hm : ∀ r, r ∉ l1 → m ≠ .next r := by
    rintro r hr rfl
    rcases hl1.end_eq with ⟨-, heq⟩ | ⟨r', hr', heq⟩
    · cases heq
    · exact hr (Link.next.inj heq ▸ hr')
  have hload := load_remove hprev
  have hprevs := remove_prev hprev
  have hlast := remove_last hprev
  have hseg1 : (Q.remove q).Seg .head l1 m := by
    refine hl1.congr hnd1 nofun (fun a _ hne => ?_) fun r hr => ?_
    · rw [hload, if_neg hne]
    · rw [hprevs, if_neg (ne_of_mem_of_not_mem hr hq1), if_neg]
      rw [hnext]
      exact fun heq => hdisj r hr r (by simp [mem_of_head? heq]) rfl
  refine ⟨nodup_append.mpr ⟨hnd1, hnd2, fun a ha b hb => hdisj a ha b (by simp [hb])⟩, ?_, ?_,
    fun r hr => ?_⟩
  · refine seg_append.mpr ⟨m, hseg1, ?_⟩
    cases l2 with
    | nil =>
      rw [hlast, if_pos (show Q.next q = none from hnext)]
      rfl
    | cons n l2 =>
      have hn1 : n ∉ l1 := fun hn => hdisj n hn n (by simp) rfl
      rw [hlast, if_neg (by rw [hnext]; exact Option.some_ne_none _)]
      refine ⟨?_, ?_, hl2.2.2.congr (nodup_cons.mp hnd2).2 ?_ (fun a ha _ => ?_)
        fun r hr => ?_⟩
      · rw [hload, if_pos rfl, hnext]
        rfl
      · rw [hprevs, if_neg (ne_of_mem_of_not_mem (by simp) hq2),
          if_pos (show Q.next q = some n from hnext)]
      · exact fun r hr heq => (nodup_cons.mp hnd2).1 (Link.next.inj heq ▸ hr)
      · rw [hload, if_neg]
        rintro rfl
        rcases ha with ha | ⟨r, hr, ha⟩
        · exact hm n hn1 ha
        · exact hm r (fun hr1 => hdisj r hr1 r (by simp [hr]) rfl) ha
      · rw [hprevs, if_neg (ne_of_mem_of_not_mem (by simp [hr]) hq2), if_neg]
        rw [hnext]
        intro heq
        exact (nodup_cons.mp hnd2).1 (Option.some.inj heq ▸ hr)
  · rw [hlast, hload]
    split
    next hnone => rw [if_pos rfl, hnone]
    next hsome =>
      split
      next heq =>
        -- the link that leads to `q` is not the last one
        have hstop := h.stop
        rw [heq, hlink] at hstop
        cases hstop
      · exact h.stop
  · rw [mem_append, not_or] at hr
    rw [hprevs]
    split
    · rfl
    next hne =>
      rw [if_neg]
      · exact h.outside r (by simp [hne, hr.1, hr.2])
      · rw [hnext]
        exact fun heq => hr.2 (mem_of_head? heq)

theorem remove_next (hprev : Q.prev q = some m) : (Q.remove q).next q = Q.next q := by
  have h := load_remove hprev (.next q)
  split at h <;> exact h

end TailQueue

end Sbckernel.Lib
