import Mathlib.Logic.Relation

/-!
# Relations that grow without closing a cycle

A relation is ranked when some numbering goes down along it; it then has no
cycle and every walk along it ends. A ranking is what survives an insertion:
if the new target does not reach the new source, lifting everything that
reaches the source above the target's rank makes room for the new pair.
-/

namespace Sbckernel.Lib

open Relation

variable {τ : Type*} {E F : τ → τ → Prop}

def Ranked (E : τ → τ → Prop) : Prop :=
  ∃ rank : τ → Nat, ∀ a b, E a b → rank b < rank a

theorem Ranked.empty (h : ∀ a b, ¬E a b) : Ranked E :=
  ⟨fun _ => 0, fun a b hab => absurd hab (h a b)⟩

theorem Ranked.mono (h : Ranked E) (hle : ∀ a b, F a b → E a b) : Ranked F := by
  obtain ⟨rank, hrank⟩ := h
  exact ⟨rank, fun a b hab => hrank a b (hle a b hab)⟩

theorem rank_lt_of_transGen {rank : τ → Nat} (hrank : ∀ a b, E a b → rank b < rank a)
    {a b : τ} (h : TransGen E a b) : rank b < rank a := by
  induction h with
  | single h => exact hrank _ _ h
  | tail _ h ih => exact Nat.lt_trans (hrank _ _ h) ih

theorem Ranked.acyclic (h : Ranked E) (a : τ) : ¬TransGen E a a := by
  obtain ⟨rank, hrank⟩ := h
  exact fun hcycle => absurd (rank_lt_of_transGen hrank hcycle) (Nat.lt_irrefl _)

/-- A pair whose target does not lead back to its source may be added. -/
theorem Ranked.insert (h : Ranked E) {t u : τ} (hback : ¬ReflTransGen E u t)
    (hF : ∀ a b, F a b → E a b ∨ a = t ∧ b = u) : Ranked F := by
  classical
  obtain ⟨rank, hrank⟩ := h
  refine ⟨fun a => if ReflTransGen E a t then rank a + (rank u + 1) else rank a, fun a b hab => ?_⟩
  rcases hF a b hab with hE | ⟨rfl, rfl⟩
  · have hlt := hrank a b hE
    by_cases hb : ReflTransGen E b t
    · have ha : ReflTransGen E a t := ReflTransGen.head hE hb
      simp only [hb, ha, if_true]
      omega
    · simp only [hb, if_false]
      split
      · omega
      · exact hlt
  · simp only [hback, if_false, ReflTransGen.refl, if_true]
    omega

end Sbckernel.Lib
