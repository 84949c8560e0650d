import Mathlib.Logic.Relation
import Sbckernel.Lib.Update

/-!
# Circular doubly linked lists

Nodes have a `next` and a `prev` link, either of which may be null. A head that
has members is linked with them in a circle, in both directions; a head that
has none, and a node that is in no circle, has two null links. `Rings` says
this of a whole memory at once: `W` gives each head its members, and no node
is a member twice or both a member and a head.

Adding a node at the end of a circle and taking one out are the usual two
pointer surgeries, stated here as updates of the two link functions, so that
whatever record carries the links can be fitted to them.
-/

namespace Sbckernel.Lib

open Function List

variable {ι : Type*} {next prev next' prev' : ι → Option ι} {xs ys : List ι} {x : ι}
variable {a w z b p n : ι} {ws : List ι}

/-- The links run from `a` through the list to `z` and back. -/
def Seg (next prev : ι → Option ι) : ι → List ι → ι → Prop
  | a, [], z => next a = some z ∧ prev z = some a
  | a, w :: ws, z => next a = some w ∧ prev w = some a ∧ Seg next prev w ws z

theorem seg_append :
    Seg next prev a (xs ++ w :: ys) z ↔ Seg next prev a xs w ∧ Seg next prev w ys z := by
  induction xs generalizing a with
  | nil => simp [Seg, and_assoc]
  | cons x xs ih => simp [Seg, ih, and_assoc]

section
variable (h : Seg next prev a ws z)
include h

theorem Seg.congr (hnext : ∀ q ∈ a :: ws, next' q = next q)
    (hprev : ∀ q ∈ ws ++ [z], prev' q = prev q) : Seg next' prev' a ws z := by
  induction ws generalizing a with
  | nil => exact ⟨by rw [hnext a (by simp)]; exact h.1, by rw [hprev z (by simp)]; exact h.2⟩
  | cons w ws ih =>
    obtain ⟨h1, h2, h3⟩ := h
    refine ⟨?_, ?_, ih h3 (fun q hq => hnext q ?_) (fun q hq => hprev q ?_)⟩
    · rw [hnext a (by simp)]; exact h1
    · rw [hprev w (by simp)]; exact h2
    · exact mem_cons_of_mem a hq
    · exact mem_cons_of_mem w hq

/-- The node in front of the circle's first member is the head. -/
theorem Seg.next_head : next a = some ((ws ++ [z]).head (by simp)) := by
  cases ws with
  | nil => exact h.1
  | cons w ws => exact h.1

/-- Following the links from the head stays in the circle. -/
theorem Seg.next_mem {y : ι} (hx : x ∈ a :: ws) (hy : next x = some y) : y ∈ ws ++ [z] := by
  induction ws generalizing a with
  | nil =>
    obtain rfl := mem_singleton.mp hx
    rw [h.1] at hy
    cases hy
    simp
  | cons w ws ih =>
    obtain ⟨hnext, -, hrest⟩ := h
    rcases mem_cons.mp hx with rfl | hx
    · rw [hnext] at hy
      cases hy
      simp
    · exact mem_cons_of_mem w (ih hrest hx)

/-- Following the links from the head reaches every member. -/
theorem Seg.reach (hb : b ∈ ws) : Relation.TransGen (fun x y => next x = some y) a b := by
  induction ws generalizing a with
  | nil => cases hb
  | cons w ws ih =>
    obtain ⟨hnext, -, hrest⟩ := h
    rcases mem_cons.mp hb with rfl | hb
    · exact .single hnext
    · exact (ih hrest hb).head hnext

theorem Seg.last : ∃ p, (a :: ws).getLast? = some p ∧ next p = some z ∧ prev z = some p := by
  induction ws generalizing a with
  | nil => exact ⟨a, rfl, h⟩
  | cons w ws ih =>
    obtain ⟨p, hp, hlinks⟩ := ih h.2.2
    exact ⟨p, by rwa [getLast?_cons_cons], hlinks⟩

/-- The last link leads to another node. -/
theorem Seg.redirect (hnd : (a :: ws).Nodup)
    (hp : (a :: ws).getLast? = some p) (hnext : next' p = some n) (hprev : prev' n = some p)
    (hnext' : ∀ q ∈ a :: ws, q ≠ p → next' q = next q) (hprev' : ∀ q ∈ ws, prev' q = prev q) :
    Seg next' prev' a ws n := by
  induction ws generalizing a with
  | nil =>
    cases hp
    exact ⟨hnext, hprev⟩
  | cons w ws ih =>
    obtain ⟨h1, h2, h3⟩ := h
    obtain ⟨ha, hnd'⟩ := nodup_cons.mp hnd
    rw [getLast?_cons_cons] at hp
    have hap : a ≠ p := fun heq => ha (heq ▸ mem_of_getLast? hp)
    refine ⟨(hnext' a (by simp) hap).trans h1, (hprev' w (by simp)).trans h2,
      ih h3 hnd' hp (fun q hq => hnext' q (.tail _ hq)) fun q hq => hprev' q (.tail _ hq)⟩

end

variable [DecidableEq ι]

/-- Bridging a node out of a chain. -/
theorem Seg.bridge (h : Seg next prev a (xs ++ w :: ys) z)
    (hnd : (a :: (xs ++ w :: ys)).Nodup) (hz : z ∉ xs ++ w :: ys) :
    ∃ p n, prev w = some p ∧ next w = some n ∧ p ∈ a :: (xs ++ w :: ys) ∧
      n ∈ z :: (xs ++ w :: ys) ∧
      Seg (update next p (some n)) (update prev n (some p)) a (xs ++ ys) z := by
  obtain ⟨h1, h2⟩ := seg_append.mp h
  obtain ⟨p, hlast, -, hprev⟩ := h1.last
  have hto : ∀ n ∉ xs,
      Seg (update next p (some n)) (update prev n (some p)) a xs n := fun n hn =>
    h1.redirect (by grind) hlast (update_self ..) (update_self ..)
      (fun q _ hq => update_of_ne hq ..) fun q hq => update_of_ne (ne_of_mem_of_not_mem hq hn) ..
  cases ys with
  | nil =>
    refine ⟨p, z, hprev, h2.1, by grind, by simp, ?_⟩
    rw [append_nil]
    exact hto z (by grind)
  | cons y ys =>
    obtain ⟨hnext, -, h3⟩ := h2
    refine ⟨p, y, hprev, hnext, by grind, by simp, seg_append.mpr ⟨hto y (by grind), ?_⟩⟩
    exact h3.congr (fun q hq => update_of_ne (by grind) ..) fun q hq => update_of_ne (by grind) ..

/-- A new node comes into a chain, between two neighbours. -/
theorem Seg.join (h : Seg next prev a (xs ++ ys) z)
    (hnd : (a :: (xs ++ ys)).Nodup) (hz : z ∉ xs ++ ys) (hx : x ∉ a :: (xs ++ ys)) (hxz : x ≠ z) :
    ∃ p n, next p = some n ∧ prev n = some p ∧ (a :: xs).getLast? = some p ∧
      (ys ++ [z]).head? = some n ∧
      Seg (update (update next x (some n)) p (some x))
        (update (update prev x (some p)) n (some x)) a (xs ++ x :: ys) z := by
  have hto : ∀ {n p}, Seg next prev a xs n → (a :: xs).getLast? = some p → n ∉ xs → x ≠ n →
      Seg (update (update next x (some n)) p (some x))
        (update (update prev x (some p)) n (some x)) a xs x := by
    intro n p h1 hlast hn hxn
    refine h1.redirect (by grind) hlast (update_self ..) ?_ (fun q hq hqp => ?_) fun q hq => ?_
    · rw [update_of_ne hxn, update_self]
    · rw [update_of_ne hqp, update_of_ne (by grind)]
    · rw [update_of_ne (by grind), update_of_ne (by grind)]
  cases ys with
  | nil =>
    rw [append_nil] at h hz
    obtain ⟨p, hlast, hnext, hprev⟩ := h.last
    refine ⟨p, z, hnext, hprev, hlast, rfl, seg_append.mpr ⟨hto h hlast hz hxz, ?_, update_self ..⟩⟩
    rw [update_of_ne (by grind), update_self]
  | cons y ys =>
    obtain ⟨h1, h2⟩ := seg_append.mp h
    obtain ⟨p, hlast, hnext, hprev⟩ := h1.last
    refine ⟨p, y, hnext, hprev, hlast, rfl,
      seg_append.mpr ⟨hto h1 hlast (by grind) (by grind), ?_, update_self .., ?_⟩⟩
    · rw [update_of_ne (by grind), update_self]
    · refine h2.congr (fun q hq => ?_) fun q hq => ?_
      · rw [update_of_ne (by grind), update_of_ne (by grind)]
      · rw [update_of_ne (by grind), update_of_ne (by grind)]

/-- `W` gives each head its circle; an active node outside all circles has null
links. -/
structure Rings (active : ι → Prop) (next prev : ι → Option ι) (W : ι → List ι) : Prop where
  ring : ∀ a, W a ≠ [] → Seg next prev a (W a) a
  null : ∀ a, active a → W a = [] → (∀ b, a ∉ W b) → next a = none ∧ prev a = none
  nodup : ∀ a, (W a).Nodup
  apart : ∀ a b w, w ∈ W a → w ∈ W b → a = b
  flat : ∀ a w, w ∈ W a → W w = []

namespace Rings

variable {active : ι → Prop} {W : ι → List ι}

section
variable (h : Rings active next prev W)
include h

section
omit [DecidableEq ι]

theorem not_mem_self (a : ι) : a ∉ W a := by
  intro ha
  rw [h.flat a a ha] at ha
  cases ha

/-- The members of a head are what following its links reaches. -/
theorem mem_iff_reach (hact : active a) (ha : ∀ q, a ∉ W q) :
    b ∈ W a ↔ b ≠ a ∧ Relation.TransGen (fun x y => next x = some y) a b := by
  refine ⟨fun hb => ⟨fun heq => h.not_mem_self a (heq ▸ hb), ?_⟩, fun hb => ?_⟩
  · exact (h.ring a (ne_nil_of_mem hb)).reach hb
  · obtain ⟨hne, hreach⟩ := hb
    have hW : W a ≠ [] := by
      intro hnil
      obtain ⟨c, hc, -⟩ := Relation.TransGen.head'_iff.mp hreach
      rw [(h.null a hact hnil ha).1] at hc
      cases hc
    have hmem : b ∈ W a ++ [a] := by
      clear hne
      induction hreach with
      | single hc => exact (h.ring a hW).next_mem (by simp) hc
      | tail _ hcd ih => exact (h.ring a hW).next_mem (by simpa [or_comm] using ih) hcd
    simpa [hne] using hmem

/-- Two circles share no node. -/
theorem separate (hab : b ≠ a) (hb : W b ≠ []) (ha : a ∉ W b) {q : ι} (hq : q ∈ b :: W b) :
    q ≠ a ∧ q ∉ W a := by
  rcases mem_cons.mp hq with rfl | hq
  · exact ⟨hab, fun hmem => hb (h.flat a q hmem)⟩
  · refine ⟨fun heq => ha (heq ▸ hq), fun hmem => hab (h.apart b a q hq hmem)⟩

theorem seg_nodup (a : ι) : (a :: W a).Nodup :=
  nodup_cons.mpr ⟨h.not_mem_self a, h.nodup a⟩

end

/-- The circle of `a` changes, and the links of the others do not. -/
theorem change {l : List ι} (ha : ∀ b, a ∉ W b)
    (hseg : l ≠ [] → Seg next' prev' a l a) (hnd : l.Nodup)
    (hl : ∀ x ∈ l, x ≠ a ∧ W x = [] ∧ ∀ b ≠ a, x ∉ W b)
    (hother : ∀ b ≠ a, W b ≠ [] → ∀ r ∈ b :: W b, next' r = next r ∧ prev' r = prev r)
    (hnull : ∀ b, b ∉ l → (b = a → l = []) → (b ≠ a → b ∉ W a → next b = none ∧ prev b = none) →
      next' b = none ∧ prev' b = none) : Rings active next' prev' (update W a l) := by
  refine ⟨fun b hb => ?_, fun b hact hb hb' => hnull b (by simpa using hb' a) (fun heq => ?_)
    fun hne hbW => h.null b hact ?_ fun c => ?_, nodup_update h.nodup hnd,
    apart_update h.apart fun x hx => (hl x hx).2.2, fun b w hw => ?_⟩
  · rcases eq_or_ne b a with rfl | hba
    · rw [update_self] at hb ⊢
      exact hseg hb
    · rw [update_of_ne hba] at hb ⊢
      exact (h.ring b hb).congr (fun r hr => (hother b hba hb r hr).1) fun r hr =>
        (hother b hba hb r (by simpa [or_comm] using hr)).2
  · simpa [heq] using hb
  · simpa [hne] using hb
  · rcases eq_or_ne c a with rfl | hc
    · exact hbW
    · simpa [hc] using hb' c
  · rcases eq_or_ne b a with rfl | hba
    · rw [update_self] at hw
      obtain ⟨hwb, hflat, -⟩ := hl w hw
      rw [update_of_ne hwb, hflat]
    · rw [update_of_ne hba] at hw
      rw [update_of_ne fun (heq : w = a) => ha b (heq ▸ hw)]
      exact h.flat b w hw

/-- A node outside all circles joins the circle of `a` as its last member. -/
theorem insert (ha : ∀ b, a ∉ W b)
    (hact : active a) (hx : W x = []) (hx' : ∀ b, x ∉ W b) (hxa : x ≠ a) :
    Rings active
      (update (update next ((prev a).getD a) (some x)) x (some a))
      (update (update prev a (some x)) x (some ((prev a).getD a)))
      (update W a (W a ++ [x])) := by
  have hlast : (prev a).getD a ∈ a :: W a ∧
      Seg (update (update next ((prev a).getD a) (some x)) x (some a))
        (update (update prev a (some x)) x (some ((prev a).getD a)))
        a (W a ++ [x]) a := by
    by_cases hnil : W a = []
    · obtain ⟨-, hprev⟩ := h.null a hact hnil ha
      rw [hprev, hnil]
      simp [Seg, hxa.symm]
    · have hring : Seg next prev a (W a ++ []) a := by simpa using h.ring a hnil
      have hxm : x ∉ a :: W a := by simp [hxa, hx' a]
      obtain ⟨p, n, -, hprev, hlast, hhead, hseg⟩ := hring.join (x := x)
        (by simpa using h.seg_nodup a) (by simpa using ha a) (by simpa using hxm) hxa
      cases hhead
      have hp := mem_of_getLast? hlast
      rw [hprev, Option.getD_some, update_comm (ne_of_mem_of_not_mem hp hxm), update_comm hxa.symm]
      exact ⟨hp, hseg⟩
  have hout : ∀ r, r ≠ a → r ∉ W a → r ≠ (prev a).getD a := by
    rintro r hra hrW rfl
    exact (mem_cons.mp hlast.1).elim hra hrW
  refine h.change ha (fun _ => hlast.2) ?_ (fun y hy => ?_) (fun b hba hb r hr => ?_)
    fun b hbl hba hnull => ?_
  · rw [nodup_append]
    refine ⟨h.nodup a, nodup_singleton x, fun c hc d hd heq => ?_⟩
    rw [mem_singleton] at hd
    exact hx' a (hd ▸ heq ▸ hc)
  · rcases mem_append.mp hy with hy | hy
    · exact ⟨fun heq => ha a (heq ▸ hy), h.flat a y hy, fun b hba hyb => hba (h.apart b a y hyb hy)⟩
    · obtain rfl := mem_singleton.mp hy
      exact ⟨hxa, hx, fun b _ => hx' b⟩
  · obtain ⟨hra, hrW⟩ := h.separate hba hb (ha b) hr
    have hrx : r ≠ x := by
      rintro rfl
      exact (mem_cons.mp hr).elim (fun heq => hb (heq ▸ hx)) (hx' b)
    rw [update_of_ne hrx, update_of_ne (hout r hra hrW), update_of_ne hrx, update_of_ne hra]
    exact ⟨rfl, rfl⟩
  · have hne : b ≠ a := fun heq => by simpa using hba heq
    rw [mem_append, mem_singleton, not_or] at hbl
    rw [update_of_ne hbl.2, update_of_ne (hout b hne hbl.1), update_of_ne hbl.2, update_of_ne hne]
    exact hnull hne hbl.1

end

/-- The links after a member `w` has been taken out of the circle of `a`, and
the head's nulled when it is left alone. -/
def eraseNext (next : ι → Option ι) (a w p n : ι) : ι → Option ι :=
  let next1 := update (update next p (some n)) w none
  if next1 a = some a then update next1 a none else next1

def erasePrev (next prev : ι → Option ι) (a w p n : ι) : ι → Option ι :=
  let next1 := update (update next p (some n)) w none
  let prev1 := update (update prev n (some p)) w none
  if next1 a = some a then update prev1 a none else prev1

theorem erase_aux (h : Rings active next prev W) (hw : w ∈ W a) :
    ∃ p n, prev w = some p ∧ next w = some n ∧ p ∈ a :: W a ∧ n ∈ a :: W a ∧
      ((W a).erase w ≠ [] → Seg (eraseNext next a w p n) (erasePrev next prev a w p n) a
        ((W a).erase w) a) ∧
      ((W a).erase w = [] → eraseNext next a w p n a = none ∧
        erasePrev next prev a w p n a = none) := by
  obtain ⟨xs, ys, hxy⟩ := append_of_mem hw
  have hseg := h.ring a (by simp [hxy])
  have hnd := h.seg_nodup a
  have hself := h.not_mem_self a
  rw [hxy] at hseg hnd hself ⊢
  obtain ⟨p, n, hp, hn, hpm, hnm, hnew⟩ := hseg.bridge hnd hself
  rw [erase_middle (nodup_cons.mp hnd).2]
  have hseg1 : Seg (update (update next p (some n)) w none)
      (update (update prev n (some p)) w none) a (xs ++ ys) a :=
    hnew.congr (fun q hq => update_of_ne (by grind) ..) fun q hq => update_of_ne (by grind) ..
  have hhead := hseg1.next_head
  refine ⟨p, n, hp, hn, hpm, hnm, fun hne => ?_, fun hnil => ?_⟩
  · have hstay : ¬update (update next p (some n)) w none a = some a := by
      intro heq
      rw [hhead, head_append_of_ne_nil hne, Option.some_inj] at heq
      exact hself (heq ▸ by grind [head_mem hne])
    rw [eraseNext, erasePrev, if_neg hstay, if_neg hstay]
    exact hseg1
  · have halone : update (update next p (some n)) w none a = some a := by
      rw [hhead]
      simp [hnil]
    rw [eraseNext, erasePrev, if_pos halone, if_pos halone]
    simp

/-- Links off the circle of `a` do not change. -/
theorem erase_of_ne {r : ι} (hra : r ≠ a) (hrw : r ≠ w) (hrp : r ≠ p) (hrn : r ≠ n) :
    eraseNext next a w p n r = next r ∧ erasePrev next prev a w p n r = prev r := by
  simp only [eraseNext, erasePrev]
  split <;> simp [hra, hrw, hrp, hrn]

theorem erase_self (hwa : w ≠ a) :
    eraseNext next a w p n w = none ∧ erasePrev next prev a w p n w = none := by
  simp only [eraseNext, erasePrev]
  split <;> simp [hwa]

/-- A member leaves the circle of `a`, whichever place it has there. -/
theorem erase (h : Rings active next prev W) (hw : w ∈ W a) :
    ∃ p n, prev w = some p ∧ next w = some n ∧
      Rings active (eraseNext next a w p n) (erasePrev next prev a w p n)
        (update W a ((W a).erase w)) := by
  obtain ⟨p, n, hp, hn, hpm, hnm, hseg, hnull⟩ := h.erase_aux hw
  have hwa : w ≠ a := fun heq => h.not_mem_self a (heq ▸ hw)
  have ha : W a ≠ [] := ne_nil_of_mem hw
  have haW : ∀ b, a ∉ W b := fun b hb => ha (h.flat b a hb)
  have hout : ∀ r, r ≠ a → r ∉ W a → r ≠ w ∧ r ≠ p ∧ r ≠ n := by
    intro r hra hrW
    have hne : ∀ q ∈ a :: W a, r ≠ q := by
      rintro q hq rfl
      exact (mem_cons.mp hq).elim hra hrW
    exact ⟨hne w (mem_cons_of_mem a hw), hne p hpm, hne n hnm⟩
  refine ⟨p, n, hp, hn, h.change haW hseg ((h.nodup a).erase w) (fun y hy => ?_)
    (fun b hba hb r hr => ?_) fun b hbl hba hnone => ?_⟩
  · have hy := mem_of_mem_erase hy
    exact ⟨fun heq => haW a (heq ▸ hy), h.flat a y hy, fun b hba hyb => hba (h.apart b a y hyb hy)⟩
  · obtain ⟨hra, hrW⟩ := h.separate hba hb (haW b) hr
    obtain ⟨hrw, hrp, hrn⟩ := hout r hra hrW
    exact erase_of_ne hra hrw hrp hrn
  · rcases eq_or_ne b a with rfl | hne
    · exact hnull (hba rfl)
    · rcases eq_or_ne b w with rfl | hbw
      · exact erase_self hwa
      · have hbWa : b ∉ W a := fun hmem => hbl ((h.nodup a).mem_erase_iff.mpr ⟨hbw, hmem⟩)
        obtain ⟨hrw, hrp, hrn⟩ := hout b hne hbWa
        obtain ⟨hnext, hprev⟩ := erase_of_ne hne hrw hrp hrn
        rw [hnext, hprev]
        exact hnone hne hbWa

end Rings

end Sbckernel.Lib
