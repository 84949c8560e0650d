import Sbckernel.Lib.Update

/-!
# Maps that are kept in records

A table keeps a map in records at places that have no order. The table holds the map if its
records are the graph of the map and no key stands at two places.
-/

namespace Sbckernel.Lib

open Function

structure Holds {π κ ν : Type*} (r : π → Option (κ × ν)) (m : κ → Option ν) : Prop where
  graph : ∀ k v, m k = some v ↔ ∃ p, r p = some (k, v)
  once : ∀ p q k v w, r p = some (k, v) → r q = some (k, w) → p = q

namespace Holds

variable {π κ ν : Type*} {r : π → Option (κ × ν)} {m : κ → Option ν} {k : κ}

theorem absent_iff (h : Holds r m) : m k = none ↔ ∀ p v, r p ≠ some (k, v) := by
  simp only [Option.eq_none_iff_forall_ne_some, Ne, h.graph, not_exists]
  exact forall_comm

variable [DecidableEq π] [DecidableEq κ] {p : π}

theorem insert (h : Holds r m) (v : ν) (hp : r p = none) (hk : m k = none) :
    Holds (update r p (some (k, v))) (update m k (some v)) := by
  have hnew := h.absent_iff.mp hk
  constructor
  · intro k' w
    simp only [update_eq_iff, h.graph, exists_or, exists_eq_left, Option.some.injEq, Prod.mk.injEq]
    rcases eq_or_ne k' k with rfl | hne
    · simp [hnew]
    · have hother : ∀ q, r q = some (k', w) → q ≠ p := by
        rintro q hq rfl
        cases hp.symm.trans hq
      simp only [hne, hne.symm, false_and, false_or, not_false_iff, true_and, ne_eq]
      exact exists_congr fun q => ⟨fun hq => ⟨hother q hq, hq⟩, And.right⟩
  · intro q q' k' v' w' hq hq'
    simp only [update_eq_iff, Option.some.injEq, Prod.mk.injEq] at hq hq'
    rcases hq with ⟨rfl, rfl, -⟩ | ⟨-, hq⟩
    · rcases hq' with ⟨rfl, -⟩ | ⟨-, hq'⟩
      · rfl
      · exact absurd hq' (hnew _ _)
    · rcases hq' with ⟨rfl, rfl, -⟩ | ⟨-, hq'⟩
      · exact absurd hq (hnew _ _)
      · exact h.once _ _ _ _ _ hq hq'

theorem erase (h : Holds r m) {v : ν} (hp : r p = some (k, v)) :
    Holds (update r p none) (update m k none) := by
  constructor
  · intro k' w
    simp only [update_eq_iff, h.graph, reduceCtorEq, and_false, false_or]
    constructor
    · rintro ⟨hne, q, hq⟩
      refine ⟨q, ?_, hq⟩
      rintro rfl
      cases hp.symm.trans hq
      exact hne rfl
    · rintro ⟨q, hne, hq⟩
      refine ⟨?_, q, hq⟩
      rintro rfl
      exact hne (h.once _ _ _ _ _ hq hp)
  · intro q q' k' v' w' hq hq'
    simp only [update_eq_iff, reduceCtorEq, and_false, false_or] at hq hq'
    exact h.once _ _ _ _ _ hq.2 hq'.2

end Holds

end Sbckernel.Lib
