import Mathlib.Logic.Relation

/-!
# Transition systems and their invariants

A system is a set of initial states and a step relation. Everything that is
proved about one in this development is an invariant: true at the start, kept
by every step, hence true of every reachable state. The two rules below say
that once, the second for a step that may lean on an invariant already known.
-/

namespace Sbckernel.Lib

structure System (σ : Type*) where
  init : σ → Prop
  step : σ → σ → Prop

namespace System

variable {σ : Type*} (M : System σ)

/-- Reached from an initial state by finitely many steps. -/
inductive Reachable : σ → Prop
  | init {s : σ} : M.init s → Reachable s
  | step {s t : σ} : Reachable s → M.step s t → Reachable t

variable {M}

/-- The invariant rule. -/
theorem Reachable.invariant {I : σ → Prop} (hinit : ∀ s, M.init s → I s)
    (hstep : ∀ s t, I s → M.step s t → I t) {s : σ} (h : M.Reachable s) : I s := by
  induction h with
  | init h0 => exact hinit _ h0
  | step _ hs ih => exact hstep _ _ ih hs

/-- The state after a list of actions, if each of them is possible. -/
def runActions {α β : Type*} (f : σ → α → Option (σ × β)) : σ → List α → Option σ
  | s, [] => some s
  | s, a :: l => (f s a).bind fun r => runActions f r.1 l

theorem Reachable.runActions {α β : Type*} {f : σ → α → Option (σ × β)} {s t : σ} {l : List α}
    (h : M.Reachable s) (hf : ∀ s a s' b, f s a = some (s', b) → M.step s s')
    (hrun : System.runActions f s l = some t) : M.Reachable t := by
  induction l generalizing s with
  | nil =>
    cases hrun
    exact h
  | cons a l ih =>
    obtain ⟨⟨s', b⟩, hstep, hrest⟩ := Option.bind_eq_some_iff.mp hrun
    exact ih (h.step (hf s a s' b hstep)) hrest

/-- A run of guarded actions that can be evaluated: what is found at its end is reachable. -/
theorem Reachable.runs {α β : Type*} {f : σ → α → Option (σ × β)} {g : σ → α → Prop}
    [∀ s a, Decidable (g s a)] {s : σ} {l : List α} {p : σ → Prop} (h : M.Reachable s)
    (hf : ∀ s a s' b, g s a → f s a = some (s', b) → M.step s s')
    (hrun : ∃ t ∈ System.runActions (fun s a => if g s a then f s a else none) s l, p t) :
    ∃ t, M.Reachable t ∧ p t := by
  obtain ⟨t, ht, hp⟩ := hrun
  refine ⟨t, h.runActions (fun s a s' b hstep => ?_) ht, hp⟩
  obtain ⟨hg, hstep⟩ := Option.ite_none_right_eq_some.mp hstep
  exact hf s a s' b hg hstep

/-- The same for actions without an outcome. -/
theorem Reachable.folds {α : Type*} {f : σ → α → Option σ} {g : σ → α → Prop}
    [∀ s a, Decidable (g s a)] {s : σ} {l : List α} {p : σ → Prop} (h : M.Reachable s)
    (hf : ∀ s a s', g s a → f s a = some s' → M.step s s')
    (hrun : ∃ t ∈ l.foldlM (fun s a => if g s a then f s a else none) s, p t) :
    ∃ t, M.Reachable t ∧ p t := by
  obtain ⟨t, ht, hp⟩ := hrun
  refine ⟨t, ?_, hp⟩
  induction l generalizing s with
  | nil =>
    cases ht
    exact h
  | cons a l ih =>
    rw [List.foldlM_cons] at ht
    obtain ⟨s', hstep, hrest⟩ := Option.bind_eq_some_iff.mp ht
    obtain ⟨hg, hstep⟩ := Option.ite_none_right_eq_some.mp hstep
    exact ih (h.step (hf s a s' hg hstep)) hrest

end System

end Sbckernel.Lib
