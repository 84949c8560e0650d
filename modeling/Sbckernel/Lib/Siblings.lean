import Sbckernel.Lib.Update

/-!
# Lists of siblings

Every node may have children, in a list that is linked through the children themselves:
`first` leads from a node to its youngest child, `older` from a child to the next one, and
`younger` back. `Row` is a piece of such a list, from the pointers it is entered with to
those it is left with.

`Family` says this of all active nodes at once. `back p` is what the first child of `p` has
for its younger sibling, which is nothing, except while the list of `p` is being emptied from
its start: then the link of the next child is stale until its turn comes.
-/

namespace Sbckernel.Lib

open Function List

variable {ι : Type*} {first younger older younger' older' first' back' : ι → Option ι} {z : ι}
variable {b a b' a' : Option ι} {l l' : List ι} {x p : ι}

/-- From the younger sibling `b` and the pointer `a`, through the list, to `b'` and `a'`. -/
def Row (younger older : ι → Option ι) :
    Option ι → Option ι → List ι → Option ι → Option ι → Prop
  | b, a, [], b', a' => b = b' ∧ a = a'
  | b, a, x :: l, b', a' => a = some x ∧ younger x = b ∧
      Row younger older (some x) (older x) l b' a'

theorem row_append :
    Row younger older b a (l ++ l') b' a' ↔
      ∃ d c, Row younger older b a l d c ∧ Row younger older d c l' b' a' := by
  induction l generalizing b a with
  | nil => simp [Row]
  | cons x l ih => simp [Row, ih, and_assoc]

theorem Row.congr (h : Row younger older b a l b' a') (hyounger : ∀ x ∈ l, younger' x = younger x)
    (holder : ∀ x ∈ l, older' x = older x) : Row younger' older' b a l b' a' := by
  induction l generalizing b a with
  | nil => exact h
  | cons x l ih =>
    obtain ⟨ha, hb, hrest⟩ := h
    refine ⟨ha, (hyounger x mem_cons_self).trans hb, ?_⟩
    rw [holder x mem_cons_self]
    exact ih hrest (fun y hy => hyounger y (mem_cons_of_mem x hy))
      fun y hy => holder y (mem_cons_of_mem x hy)

theorem Row.younger_eq
    (h : Row younger older b a (l ++ x :: l') b' a') : younger x = l.getLast?.or b := by
  induction l generalizing b a with
  | nil => exact h.2.1
  | cons y l ih =>
    rw [ih h.2.2, getLast?_cons]
    cases l.getLast? <;> rfl

theorem Row.older_eq
    (h : Row younger older b a (l ++ x :: l') b' a') : older x = l'.head?.or a' := by
  obtain ⟨d, c, -, -, -, hrest⟩ := row_append.mp h
  cases l' with
  | nil => exact hrest.2
  | cons y l' => exact hrest.1

theorem Row.first_mem (h : Row younger older b (some x) l b' none) : x ∈ l := by
  cases l with
  | nil => exact absurd h.2 (Option.some_ne_none x)
  | cons y l =>
    cases h.1
    exact mem_cons_self

/-- The links of a node lead to nodes of its list. -/
theorem Row.mem (h : Row younger older none a l b' none) (hx : x ∈ l) {y : ι}
    (hy : younger x = some y ∨ older x = some y) : y ∈ l := by
  obtain ⟨l1, l2, rfl⟩ := append_of_mem hx
  rcases hy with hy | hy
  · rw [h.younger_eq, Option.or_none] at hy
    exact mem_append_left _ (mem_of_getLast? hy)
  · rw [h.older_eq, Option.or_none] at hy
    exact mem_append_right _ (mem_cons_of_mem x (mem_of_head? hy))

/-- Following the older siblings from the start gives the list, if there is time for it. -/
def walkOlder (older : ι → Option ι) : Nat → Option ι → List ι
  | _, none => []
  | 0, some _ => []
  | n + 1, some x => x :: walkOlder older n (older x)

theorem Row.walkOlder_eq (h : Row younger older b a l b' none)
    {n : Nat} (hn : l.length ≤ n) : walkOlder older n a = l := by
  induction l generalizing b a n with
  | nil =>
    obtain ⟨-, rfl⟩ := h
    cases n <;> rfl
  | cons x l ih =>
    obtain ⟨rfl, -, hrest⟩ := h
    cases n with
    | zero => exact absurd hn (Nat.not_succ_le_zero _)
    | succ n => rw [walkOlder, ih hrest (Nat.le_of_succ_le_succ hn)]

section
variable [DecidableEq ι]

/-- The links after a node has been taken out of its list. -/
def leaveYounger (younger older : ι → Option ι) (x : ι) : ι → Option ι :=
  match older x with
  | some o => update younger o (younger x)
  | none => younger

def leaveOlder (younger older : ι → Option ι) (x : ι) : ι → Option ι :=
  match younger x with
  | some y => update older y (older x)
  | none => older

def leaveFirst (first younger older : ι → Option ι) (p x : ι) : ι → Option ι :=
  match younger x with
  | some _ => first
  | none => update first p (older x)

/-- The links after a node has been put in front of a list. -/
def joinYounger (first younger : ι → Option ι) (p x : ι) : ι → Option ι :=
  match first p with
  | some o => update (update younger x none) o (some x)
  | none => update younger x none

theorem leaveYounger_of_ne (h : older x ≠ some z) :
    leaveYounger younger older x z = younger z := by
  unfold leaveYounger
  cases ho : older x with
  | none => rfl
  | some o =>
    have hne : z ≠ o := fun heq => h (heq ▸ ho)
    exact update_of_ne hne _ _

theorem leaveOlder_of_ne (h : younger x ≠ some z) :
    leaveOlder younger older x z = older z :=
  (leaveYounger_of_ne h :)

/-- Another younger sibling for the first node of a list. -/
theorem Row.enter (h : Row younger older b a (x :: l) b' a') (hx : x ∉ l) (d : Option ι) :
    Row (update younger x d) older d a (x :: l) b' a' := by
  obtain ⟨ha, -, hrest⟩ := h
  refine ⟨ha, update_self .., hrest.congr ?_ fun _ _ => rfl⟩
  intro y hy
  have hne : y ≠ x := fun heq => hx (heq ▸ hy)
  exact update_of_ne hne _ _

/-- Another older sibling for the last one. -/
theorem Row.exit (h : Row younger older b a (l ++ [x]) b' a') (hx : x ∉ l) (c : Option ι) :
    Row younger (update older x c) b a (l ++ [x]) (some x) c := by
  obtain ⟨d, e, hl, he, hd, -⟩ := row_append.mp h
  refine row_append.mpr ⟨d, e, hl.congr (fun _ _ => rfl) ?_, he, hd, rfl, update_self ..⟩
  intro y hy
  have hne : y ≠ x := fun heq => hx (heq ▸ hy)
  exact update_of_ne hne _ _

/-- A node is taken out of a list. -/
theorem Row.leave {l1 l2 : List ι}
    (h : Row younger older none a (l1 ++ x :: l2) b' none) (hnd : (l1 ++ x :: l2).Nodup) :
    ∃ b'', Row (leaveYounger younger older x) (leaveOlder younger older x) none
      (if younger x = none then older x else a) (l1 ++ l2) b'' none := by
  have hyounger := h.younger_eq
  have holder := h.older_eq
  rw [Option.or_none] at hyounger holder
  obtain ⟨hnd1, hnd2, hapart⟩ := nodup_append.mp hnd
  obtain ⟨hx2, hnd2⟩ := nodup_cons.mp hnd2
  obtain ⟨d, c, hl1, -, hd, hl2⟩ := row_append.mp h
  -- The nodes behind `x` see a new younger sibling, those before it a new older one.
  have htail : Row (leaveYounger younger older x) older d (older x) l2
      (if l2 = [] then d else b') none := by
    cases l2 with
    | nil => exact ⟨rfl, hl2.2⟩
    | cons o l2 =>
      rw [if_neg (cons_ne_nil o l2)]
      have ho : leaveYounger younger older x = update younger o d := by
        unfold leaveYounger
        rw [hl2.1, ← hd]
      rw [ho]
      exact hl2.enter (nodup_cons.mp hnd2).1 d
  rcases eq_nil_or_concat l1 with rfl | ⟨l0, y, rfl⟩
  · have hnone : younger x = none := hyounger
    have hsame : leaveOlder younger older x = older := by
      unfold leaveOlder
      rw [hnone]
    rw [if_pos hnone, hsame, nil_append]
    rw [← hd, hnone] at htail
    exact ⟨_, htail⟩
  · rw [concat_eq_append] at *
    rw [getLast?_concat] at hyounger
    have hnew : leaveOlder younger older x = update older y (older x) := by
      unfold leaveOlder
      rw [hyounger]
    have hne : ¬younger x = none := by
      rw [hyounger]
      exact Option.some_ne_none y
    have hy0 : y ∉ l0 := by
      intro hmem
      exact (nodup_append.mp hnd1).2.2 y hmem y mem_cons_self rfl
    rw [if_neg hne, hnew]
    refine ⟨if l2 = [] then d else b', row_append.mpr ⟨some y, older x, ?_, ?_⟩⟩
    · refine (hl1.exit hy0 (older x)).congr ?_ fun _ _ => rfl
      intro z hz
      apply leaveYounger_of_ne
      intro ho
      rw [holder] at ho
      exact hapart z hz z (mem_cons_of_mem x (mem_of_head? ho)) rfl
    · rw [← hyounger, hd]
      refine htail.congr (fun _ _ => rfl) ?_
      intro z hz
      refine update_of_ne (fun heq => ?_) _ _
      exact hapart y (mem_append_right l0 mem_cons_self) z (mem_cons_of_mem x hz)
        heq.symm

/-- The lists of children of the active nodes. -/
structure Family (active : ι → Prop) (back first younger older : ι → Option ι) (C : ι → List ι) :
    Prop where
  row : ∀ p, active p → ∃ b, Row younger older (back p) (first p) (C p) b none
  idle : ∀ p, ¬active p → C p = []
  nodup : ∀ p, (C p).Nodup
  apart : ∀ p q x, x ∈ C p → x ∈ C q → p = q

namespace Family

variable {active : ι → Prop} {back : ι → Option ι} {C : ι → List ι}

section
variable (h : Family active back first younger older C)
include h

omit [DecidableEq ι] in
theorem active_of_mem (hx : x ∈ C p) : active p := by
  by_contra hp
  rw [h.idle p hp] at hx
  cases hx

/-- The lists of the other nodes do not see what happens in the list of `p`. -/
theorem change {younger' older' : ι → Option ι} (hp : active p)
    (hrow : ∃ b, Row younger' older' (back' p) (first' p) l b none) (hnd : l.Nodup)
    (hl : ∀ x ∈ l, ∀ q ≠ p, x ∉ C q) (hback : ∀ q ≠ p, back' q = back q)
    (hfirst : ∀ q ≠ p, first' q = first q) (hyounger : ∀ q ≠ p, ∀ z ∈ C q, younger' z = younger z)
    (holder : ∀ q ≠ p, ∀ z ∈ C q, older' z = older z) :
    Family active back' first' younger' older' (update C p l) := by
  refine ⟨fun q hq => ?_, fun q hq => ?_, nodup_update h.nodup hnd, apart_update h.apart hl⟩
  · by_cases hqp : q = p
    · rw [hqp, update_self]
      exact hrow
    · rw [update_of_ne hqp, hback q hqp, hfirst q hqp]
      obtain ⟨b, hb⟩ := h.row q hq
      exact ⟨b, hb.congr (hyounger q hqp) (holder q hqp)⟩
  · have hqp : q ≠ p := fun heq => hq (heq ▸ hp)
    rw [update_of_ne hqp]
    exact h.idle q hq

omit [DecidableEq ι] in
/-- Nodes without children come and go. -/
theorem activate {active' : ι → Prop} (hfirst : ∀ p, active p → active' p → first' p = first p)
    (hnew : ∀ p, active' p → ¬active p → first' p = none ∧ back p = none)
    (hold : ∀ p, active p → ¬active' p → C p = []) :
    Family active' back first' younger older C := by
  refine ⟨fun p hp => ?_, fun p hp => ?_, h.nodup, h.apart⟩
  · by_cases hact : active p
    · rw [hfirst p hact hp]
      exact h.row p hact
    · obtain ⟨hnone, hback⟩ := hnew p hp hact
      rw [h.idle p hact, hnone, hback]
      exact ⟨none, rfl, rfl⟩
  · by_cases hact : active p
    · exact hold p hact hp
    · exact h.idle p hact

omit [DecidableEq ι] in
/-- What is left behind at an empty list does not matter. -/
theorem rebase
    (hback : ∀ p, C p ≠ [] → back' p = back p) : Family active back' first younger older C := by
  refine ⟨fun p hp => ?_, h.idle, h.nodup, h.apart⟩
  obtain ⟨b, hrow⟩ := h.row p hp
  by_cases hC : C p = []
  · rw [hC] at hrow ⊢
    exact ⟨back' p, rfl, hrow.2⟩
  · rw [hback p hC]
    exact ⟨b, hrow⟩

/-- A child is taken out of its list. -/
theorem leave (hx : x ∈ C p) (hback : back p = none) :
    Family active back (leaveFirst first younger older p x) (leaveYounger younger older x)
      (leaveOlder younger older x) (update C p ((C p).erase x)) := by
  have hp := h.active_of_mem hx
  obtain ⟨b, hrow⟩ := h.row p hp
  rw [hback] at hrow
  have hother : ∀ q ≠ p, ∀ z ∈ C q, z ∉ C p := fun q hq z hz hzp => hq (h.apart q p z hz hzp)
  refine h.change hp ?_ ((h.nodup p).erase x) ?_ (fun _ _ => rfl) ?_ ?_ ?_
  · obtain ⟨l1, l2, hl⟩ := append_of_mem hx
    have hnd := h.nodup p
    rw [hl] at hrow hnd
    have hfirst : leaveFirst first younger older p x p =
        if younger x = none then older x else first p := by
      unfold leaveFirst
      cases younger x with
      | none => exact (update_self ..).trans (if_pos rfl).symm
      | some y => exact (if_neg (Option.some_ne_none y)).symm
    rw [hl, erase_middle hnd, hfirst, hback]
    exact hrow.leave hnd
  · intro y hy q hq hyq
    exact hother q hq y hyq (mem_of_mem_erase hy)
  · intro q hq
    unfold leaveFirst
    cases younger x with
    | none => exact update_of_ne hq _ _
    | some y => rfl
  · intro q hq z hz
    exact leaveYounger_of_ne fun ho => hother q hq z hz (hrow.mem hx (.inr ho))
  · intro q hq z hz
    exact leaveOlder_of_ne fun hy => hother q hq z hz (hrow.mem hx (.inl hy))

/-- The first child is taken off. -/
theorem pop (hp : C p = x :: l) :
    Family active (update back p (some x)) (update first p (older x)) younger older
      (update C p l) := by
  have hact : active p := h.active_of_mem (x := x) (hp ▸ mem_cons_self)
  obtain ⟨b, hrow⟩ := h.row p hact
  have hnd := h.nodup p
  rw [hp] at hrow hnd
  refine h.change hact ?_ (nodup_cons.mp hnd).2 ?_ ?_ ?_ (fun _ _ _ _ => rfl) fun _ _ _ _ => rfl
  · rw [update_self, update_self]
    exact ⟨b, hrow.2.2⟩
  · intro y hy q hq hyq
    refine hq (h.apart q p y hyq ?_)
    rw [hp]
    exact mem_cons_of_mem x hy
  · intro q hq
    exact update_of_ne hq _ _
  · intro q hq
    exact update_of_ne hq _ _

/-- A node becomes the first child. -/
theorem join (hp : active p) (hback : back p = none) (hx : ∀ q, x ∉ C q) :
    Family active back (update first p (some x)) (joinYounger first younger p x)
      (update older x (first p)) (update C p (x :: C p)) := by
  obtain ⟨b, hrow⟩ := h.row p hp
  rw [hback] at hrow
  have hne : ∀ q, ∀ z ∈ C q, z ≠ x := fun q z hz heq => hx q (heq ▸ hz)
  have holder : ∀ q, ∀ z ∈ C q, update older x (first p) z = older z := by
    intro q z hz
    exact update_of_ne (hne q z hz) _ _
  -- Of the nodes that are there only the first one gets another younger sibling.
  have hyounger : ∀ q, ∀ z ∈ C q, first p ≠ some z →
      joinYounger first younger p x z = younger z := by
    intro q z hz hfirst
    unfold joinYounger
    cases ho : first p with
    | none => exact update_of_ne (hne q z hz) _ _
    | some o =>
      have hzo : z ≠ o := fun heq => hfirst (heq ▸ ho)
      exact (update_of_ne hzo _ _).trans (update_of_ne (hne q z hz) _ _)
  refine h.change hp ?_ (nodup_cons.mpr ⟨hx p, h.nodup p⟩) ?_ (fun _ _ => rfl) ?_ ?_ ?_
  · have hself : joinYounger first younger p x x = none := by
      unfold joinYounger
      cases ho : first p with
      | none => exact update_self ..
      | some o =>
        rw [ho] at hrow
        have hxo : x ≠ o := (hne p o hrow.first_mem).symm
        exact (update_of_ne hxo _ _).trans (update_self ..)
    rw [hback, update_self]
    cases hC : C p with
    | nil =>
      rw [hC] at hrow
      refine ⟨some x, rfl, hself, rfl, ?_⟩
      rw [update_self]
      exact hrow.2
    | cons o l =>
      rw [hC] at hrow
      have hnd := h.nodup p
      rw [hC] at hnd
      have hnew : joinYounger first younger p x =
          update (update younger x none) o (some x) := by
        unfold joinYounger
        rw [hrow.1]
      refine ⟨b, rfl, hself, ?_⟩
      rw [update_self, hnew]
      refine ((hrow.congr ?_ ?_).enter (nodup_cons.mp hnd).1 (some x))
      · intro z hz
        exact update_of_ne (hne p z (hC ▸ hz)) _ _
      · intro z hz
        exact holder p z (hC ▸ hz)
  · intro y hy q hq hyq
    rcases mem_cons.mp hy with rfl | hy
    · exact hx q hyq
    · exact hq (h.apart q p y hyq hy)
  · intro q hq
    exact update_of_ne hq _ _
  · intro q hq z hz
    refine hyounger q z hz fun hfirst => ?_
    rw [hfirst] at hrow
    exact hq (h.apart q p z hz hrow.first_mem)
  · exact fun q _ => holder q

end

end Family

end

end Sbckernel.Lib
