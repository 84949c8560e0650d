import Sbckernel.Lib.Ring

/-!
# Circles with a fixed head, and circles without one

A family of queues, each a circle through a head that stays in it. A node outside the
queues has a null `next`; nothing is said of its `prev`, nor of the `prev` of a head
that has no members, since nobody reads them.

A circle without a head is given by the list of its nodes from a chosen one on. It is
turned by choosing the next one, and a node is moved to its end by taking it out and
putting it in again in front of the chosen one.
-/

namespace Sbckernel.Lib

open Function List

variable {ι : Type*} {next prev : ι → Option ι}

/-- The same links, read backwards. -/
theorem Seg.reverse {a z : ι} {ws : List ι} (h : Seg next prev a ws z) :
    Seg prev next z ws.reverse a := by
  induction ws generalizing a with
  | nil => exact h.symm
  | cons w ws ih =>
    rw [reverse_cons]
    exact seg_append.mpr ⟨ih h.2.2, h.2.1, h.1⟩

/-! ## Queues -/

/-- `W` gives each queue its members, in order. -/
structure Queues {κ : Type*} (head : κ → ι) (next prev : ι → Option ι) (W : κ → List ι) :
    Prop where
  ring : ∀ q, W q ≠ [] → Seg next prev (head q) (W q) (head q)
  alone : ∀ q, W q = [] → next (head q) = some (head q)
  free : ∀ x, (∀ q, x ≠ head q) → (∀ q, x ∉ W q) → next x = none
  nodup : ∀ q, (W q).Nodup
  apart : ∀ q q' x, x ∈ W q → x ∈ W q' → q = q'
  heads : ∀ q q', head q ∉ W q'
  inj : ∀ q q', head q = head q' → q = q'

namespace Queues

variable {κ : Type*} {head : κ → ι} {W : κ → List ι}

section
variable (h : Queues head next prev W)
include h

/-- A queue has none of the nodes of another. -/
theorem separate {q q' : κ} (hne : q' ≠ q) {x : ι} (hx : x ∈ head q' :: W q') :
    x ≠ head q ∧ x ∉ W q := by
  rcases mem_cons.mp hx with rfl | hx
  · exact ⟨fun heq => hne (h.inj _ _ heq), h.heads q' q⟩
  · exact ⟨fun heq => h.heads q q' (heq ▸ hx), fun hmem => hne (h.apart _ _ _ hx hmem)⟩

theorem seg_nodup (q : κ) : (head q :: W q).Nodup :=
  nodup_cons.mpr ⟨h.heads q q, h.nodup q⟩

theorem next_ne_none {q : κ} {x : ι} (hx : x ∈ W q) :
    next x ≠ none := by
  obtain ⟨xs, ys, hxy⟩ := append_of_mem hx
  have hseg := h.ring q (ne_nil_of_mem hx)
  rw [hxy] at hseg
  rw [(seg_append.mp hseg).2.next_head]
  exact Option.some_ne_none _

variable [DecidableEq ι] [DecidableEq κ]

omit [DecidableEq ι] in
/-- One queue changes, and the links of the others do not. -/
theorem change {q : κ} {l : List ι} {next' prev' : ι → Option ι}
    (hseg : Seg next' prev' (head q) l (head q)) (hnd : l.Nodup) (hl : ∀ x ∈ l, ∀ k ≠ q, x ∉ W k)
    (hheads : ∀ k, head k ∉ l)
    (hother : ∀ k ≠ q, ∀ r ∈ head k :: W k, next' r = next r ∧ prev' r = prev r)
    (hfree : ∀ x, (∀ k, x ≠ head k) → x ∉ l → (x ∉ W q → next x = none) → next' x = none) :
    Queues head next' prev' (update W q l) := by
  refine ⟨fun k hk => ?_, fun k hk => ?_, fun x hx hx' =>
    hfree x hx ?_ fun hxq => h.free x hx fun k => ?_,
    nodup_update h.nodup hnd, apart_update h.apart hl, fun k => ?_, h.inj⟩
  · rcases eq_or_ne k q with rfl | hkq
    · rw [update_self]
      exact hseg
    · rw [update_of_ne hkq] at hk ⊢
      exact (h.ring k hk).congr (fun r hr => (hother k hkq r hr).1) fun r hr =>
        (hother k hkq r (by simpa [or_comm] using hr)).2
  · rcases eq_or_ne k q with rfl | hkq
    · rw [update_self] at hk
      rw [hk] at hseg
      exact hseg.1
    · rw [update_of_ne hkq] at hk
      rw [(hother k hkq (head k) mem_cons_self).1]
      exact h.alone k hk
  · simpa using hx' q
  · rcases eq_or_ne k q with rfl | hk
    · exact hxq
    · simpa [hk] using hx' k
  · exact (forall_update_iff W fun _ l => head k ∉ l).mpr
      ⟨hheads k, fun k' _ => h.heads k k'⟩

/-- A member leaves its queue. -/
theorem erase {q : κ} {x : ι} (hx : x ∈ W q) :
    ∃ p n, prev x = some p ∧ next x = some n ∧
      Queues head (update (update next p (some n)) x none)
        (update prev n (some p)) (update W q ((W q).erase x)) := by
  obtain ⟨xs, ys, hxy⟩ := append_of_mem hx
  have hseg := h.ring q (ne_nil_of_mem hx)
  have hnd := h.seg_nodup q
  have hself := h.heads q q
  rw [hxy] at hseg hnd hself
  obtain ⟨p, n, hp, hn, hpm, hnm, hnew⟩ := hseg.bridge hnd hself
  rw [← hxy] at hpm hnm
  have hxne : ∀ q', x ≠ head q' := fun q' heq => h.heads q' q (heq ▸ hx)
  have herase : (W q).erase x = xs ++ ys := hxy ▸ erase_middle (nodup_cons.mp hnd).2
  have hseg' : Seg (update (update next p (some n)) x none)
      (update prev n (some p)) (head q) ((W q).erase x) (head q) := by
    rw [herase]
    refine hnew.congr (fun r hr => update_of_ne ?_ _ _) fun _ _ => rfl
    rintro rfl
    rcases mem_cons.mp hr with hr | hr
    · exact hxne q hr
    · rw [← herase, (h.nodup q).mem_erase_iff] at hr
      exact hr.1 rfl
  have hout : ∀ r, r ≠ head q → r ∉ W q → r ≠ x ∧ r ≠ p ∧ r ≠ n := by
    intro r hrq hrW
    have hne : ∀ y ∈ head q :: W q, r ≠ y := fun y hy =>
      (ne_of_mem_of_not_mem hy (not_mem_cons_of_ne_of_not_mem hrq hrW)).symm
    exact ⟨hne x (mem_cons_of_mem _ hx), hne p hpm, hne n hnm⟩
  refine ⟨p, n, hp, hn, h.change hseg' ((h.nodup q).erase x) (fun y hy k hk hy' => ?_)
    (fun k hk => h.heads k q (mem_of_mem_erase hk)) (fun k hk r hr => ?_)
    fun y hy hyq hnone => ?_⟩
  · exact hk (h.apart k q y hy' (mem_of_mem_erase hy))
  · obtain ⟨hrq, hrW⟩ := h.separate hk hr
    obtain ⟨hrx, hrp, hrn⟩ := hout r hrq hrW
    rw [update_of_ne hrx, update_of_ne hrp, update_of_ne hrn]
    exact ⟨rfl, rfl⟩
  · rcases eq_or_ne y x with rfl | hyx
    · exact update_self ..
    · have hyq' : y ∉ W q := fun hmem => hyq ((h.nodup q).mem_erase_iff.mpr ⟨hyx, hmem⟩)
      rw [update_of_ne hyx, update_of_ne (hout y (hy q) hyq').2.1]
      exact hnone hyq'

/-- A node outside the queues becomes the first of one. -/
theorem push (q : κ) {x : ι} (hx : ∀ q', x ≠ head q') (hx' : ∀ q', x ∉ W q') :
    ∃ n, next (head q) = some n ∧
      Queues head (update (update next x (some n)) (head q) (some x))
        (update (update prev x (some (head q))) n (some x))
        (update W q (x :: W q)) := by
  have hfirst : ∃ n, next (head q) = some n ∧ n ∈ head q :: W q ∧
      Seg (update (update next x (some n)) (head q) (some x))
        (update (update prev x (some (head q))) n (some x))
        (head q) (x :: W q) (head q) := by
    by_cases hnil : W q = []
    · refine ⟨head q, h.alone q hnil, mem_cons_self, ?_⟩
      rw [hnil]
      simp [Seg, hx q]
    · have hring : Seg next prev (head q) ([] ++ W q) (head q) := h.ring q hnil
      have hout : x ∉ head q :: ([] ++ W q) := by simp [hx q, hx' q]
      obtain ⟨p, n, hnext, -, ⟨⟩, hhead, hseg⟩ :=
        hring.join (h.seg_nodup q) (h.heads q q) hout (hx q)
      refine ⟨n, hnext, ?_, hseg⟩
      rw [nil_append] at *
      simpa [or_comm] using mem_of_head? hhead
  obtain ⟨n, hn, hnm, hseg⟩ := hfirst
  refine ⟨n, hn, h.change hseg (nodup_cons.mpr ⟨hx' q, h.nodup q⟩) (fun y hy k hk hy' => ?_)
    (fun k hk => ?_) (fun k hk r hr => ?_) fun y hy hyq hnone => ?_⟩
  · rcases mem_cons.mp hy with rfl | hy
    · exact hx' k hy'
    · exact hk (h.apart k q y hy' hy)
  · exact (mem_cons.mp hk).elim (fun heq => hx k heq.symm) (h.heads k q)
  · obtain ⟨hrq, hrW⟩ := h.separate hk hr
    have hrx : r ≠ x := by
      rintro rfl
      exact (mem_cons.mp hr).elim (hx k) (hx' k)
    have hrn : r ≠ n := by
      rintro rfl
      exact (mem_cons.mp hnm).elim hrq hrW
    rw [update_of_ne hrq, update_of_ne hrx, update_of_ne hrn, update_of_ne hrx]
    exact ⟨rfl, rfl⟩
  · rw [mem_cons, not_or] at hyq
    rw [update_of_ne (hy q), update_of_ne hyq.1]
    exact hnone hyq.2

end

end Queues

/-! ## Circles without a head -/

/-- The nodes of a circle, from one of them on. -/
def Circle (next prev : ι → ι) : List ι → Prop
  | [] => False
  | a :: ws => Seg (fun x => some (next x)) (fun x => some (prev x)) a ws a

namespace Circle

variable {next prev : ι → ι} {a x : ι} {ws : List ι}

theorem congr {next' prev' : ι → ι} {l : List ι} (h : Circle next prev l)
    (hnext : ∀ x ∈ l, next' x = next x) (hprev : ∀ x ∈ l, prev' x = prev x) :
    Circle next' prev' l := by
  cases l with
  | nil => exact h
  | cons a ws =>
    refine Seg.congr h (fun x hx => ?_) (fun x hx => ?_)
    · rw [hnext x hx]
    · rw [hprev x (by simpa [or_comm] using hx)]

/-- The links of a node lead to nodes of the circle. -/
theorem mem {l : List ι} (h : Circle next prev l) (hx : x ∈ l) : next x ∈ l ∧ prev x ∈ l := by
  cases l with
  | nil => cases hx
  | cons a ws =>
    have hnext := Seg.next_mem h hx rfl
    have hprev := (Seg.reverse h).next_mem (by simpa using hx) rfl
    exact ⟨by simpa [or_comm] using hnext, by simpa [or_comm] using hprev⟩

/-- The next node is chosen. -/
theorem turn (h : Circle next prev (a :: ws)) :
    Circle next prev (ws ++ [a]) ∧ (ws ++ [a]).head? = some (next a) := by
  cases ws with
  | nil => exact ⟨h, h.1.symm⟩
  | cons w ws =>
    obtain ⟨hnext, hprev, hrest⟩ := h
    exact ⟨seg_append.mpr ⟨hrest, hnext, hprev⟩, hnext.symm⟩

variable [DecidableEq ι]

theorem some_update (f : ι → ι) (y v : ι) :
    (fun z => some (update f y v z)) = update (fun z => some (f z)) y (some v) :=
  (comp_update some f y v)

/-- Another node is taken out. -/
theorem remove (h : Circle next prev (a :: ws)) (hnd : (a :: ws).Nodup) (hx : x ∈ ws) :
    Circle (update next (prev x) (next x)) (update prev (next x) (prev x))
      (a :: ws.erase x) := by
  obtain ⟨xs, ys, rfl⟩ := append_of_mem hx
  obtain ⟨ha, hws⟩ := nodup_cons.mp hnd
  obtain ⟨p, n, ⟨⟩, hn, -, -, hout⟩ := Seg.bridge h hnd ha
  cases hn
  rw [erase_middle hws]
  rw [← some_update, ← some_update] at hout
  exact hout

/-- A new node comes in at the end. -/
theorem push (h : Circle next prev (a :: ws)) (hnd : (a :: ws).Nodup) (hx : x ∉ a :: ws) :
    Circle (update (update next x a) (prev a) x)
      (update (update prev x (prev a)) a x) (a :: (ws ++ [x])) := by
  have hxa : x ≠ a := fun heq => hx (heq ▸ mem_cons_self)
  have h' : Seg (fun x => some (next x)) (fun x => some (prev x)) a (ws ++ []) a := by
    rw [append_nil]
    exact h
  obtain ⟨p, n, -, hn, -, hhead, hin⟩ := h'.join (x := x) (by rwa [append_nil])
    (by rw [append_nil]; exact (nodup_cons.mp hnd).1) (by rwa [append_nil]) hxa
  cases hhead
  cases hn
  rw [← some_update, ← some_update, ← some_update, ← some_update] at hin
  exact hin

/-- Another node is moved to the end. -/
theorem move (h : Circle next prev (a :: ws)) (hnd : (a :: ws).Nodup) (hx : x ∈ ws) :
    let next' := update next (prev x) (next x)
    let prev' := update prev (next x) (prev x)
    Circle (update (update next' x a) (prev' a) x)
      (update (update prev' x (prev' a)) a x) (a :: (ws.erase x ++ [x])) := by
  obtain ⟨ha, hws⟩ := nodup_cons.mp hnd
  have hnd' : (a :: ws.erase x).Nodup := hnd.sublist (erase_sublist.cons_cons a)
  refine (h.remove hnd hx).push hnd' ?_
  intro hmem
  rcases mem_cons.mp hmem with heq | hmem
  · exact ha (heq ▸ hx)
  · exact hws.not_mem_erase hmem

end Circle

end Sbckernel.Lib
