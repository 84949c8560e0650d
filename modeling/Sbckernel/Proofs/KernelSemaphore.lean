import Sbckernel.Kernel.Semaphore
import Sbckernel.Lib.Tally

/-!
# Kernel semaphores exclude, unless a waiter gives up too late

A waiter is let through by `waking`, and an `up` that finds `count` negative owes one
such permit. As long as nobody gives up, there is a waiter for each permit that is owed
or there, and for each unit that `count` is below zero. A waiter may give up only a unit
of the second kind. It does not look: it tests for signals, and adds one to `count`
whatever has happened since. When an `up` came in between, the permit meant for it stays
behind and lets in one more.
-/

namespace Sbckernel.Kernel.Semaphore

open Lib

/-- The caller has taken its share of `count` and waits. -/
def waits : Phase → Int
  | .trying _ => 1
  | .waiting _ => 1
  | .leaving => 1
  | _ => 0

/-- The caller owes a permit. -/
def owes : Phase → Int
  | .waking => 1
  | _ => 0

theorem owes_nonneg (p : Phase) : 0 ≤ owes p := by cases p <;> simp [owes]

/-- Every unit below zero and every permit has its waiter. -/
structure Balanced (n : Int) {τ : Type*} (s : State τ) (A : Finset τ) : Prop where
  rest : ∀ t ∉ A, s.phase t = .idle
  count : -2 ^ 31 ≤ s.count ∧ s.count < 2 ^ 31
  waking : 0 ≤ s.waking ∧ s.waking < 2 ^ 31
  waiters : weight waits A s.phase = weight owes A s.phase + s.waking + max 0 (-s.count)
  held : s.acquired - s.ups = n - weight waits A s.phase - s.count

/-- The step keeps within an `int`, and a waiter gives up only while `count` is negative. -/
def Careful {τ : Type*} (s : State τ) : Action τ → Prop
  | .down _ _ => -2 ^ 31 < s.count
  | .up _ => s.count < 2 ^ 31 - 1
  | .wakeUp _ => s.waking < 2 ^ 31 - 1
  | .giveUp _ => s.count < 0
  | _ => True

theorem int_of_range {x : Int} (h : -2 ^ 31 ≤ x) (h' : x < 2 ^ 31) : int x = x := by
  rw [int]
  omega

section
variable {τ : Type*} {n : Int} {s s' : State τ} {A : Finset τ} {t : τ} {p q : Phase}

theorem Balanced.held_le (h : Balanced n s A) : (s.acquired - s.ups : Int) ≤ n := by
  have hheld := h.held
  have hwaiters := h.waiters
  have howes : 0 ≤ weight owes A s.phase := Finset.sum_nonneg fun t _ => owes_nonneg (s.phase t)
  obtain ⟨hwaking, -⟩ := h.waking
  omega

variable [DecidableEq τ]

section
variable (h : Balanced n s A)
include h

/-- A caller that moves on is taken into the set. -/
theorem Balanced.insert (t : τ) : Balanced n s (insert t A) := by
  have hwaits := weight_insert (f := waits) rfl h.rest t
  have howes := weight_insert (f := owes) rfl h.rest t
  refine ⟨fun t' ht' => h.rest t' ?_, h.count, h.waking, ?_, ?_⟩
  · exact fun hmem => ht' (Finset.mem_insert_of_mem hmem)
  · rw [hwaits, howes]
    exact h.waiters
  · rw [hwaits]
    exact h.held

section
variable (ht : t ∈ A)
include ht

/-- A move of one caller, with what it does to the counters. -/
theorem Balanced.goto (hq : s.phase t = q) (hphase : s'.phase = s.phase)
    (hcount : -2 ^ 31 ≤ s'.count ∧ s'.count < 2 ^ 31) (hwaking : 0 ≤ s'.waking ∧ s'.waking < 2 ^ 31)
    (hwaiters : waits p - waits q = owes p - owes q + (s'.waking - s.waking) +
      (max 0 (-s'.count) - max 0 (-s.count)) := by simp only [waits, owes]; omega)
    (hheld : (s'.acquired - s.acquired : Int) - (s'.ups - s.ups) =
      -(waits p - waits q) - (s'.count - s.count) := by simp only [waits]; omega) :
    Balanced n (Semaphore.goto s' t p) A := by
  subst hq
  have hgoto : (Semaphore.goto s' t p).phase = Function.update s.phase t p := by
    rw [Semaphore.goto, hphase]
  have hw := h.waiters
  have hd := h.held
  refine ⟨fun t' ht' => ?_, hcount, hwaking, ?_, ?_⟩
  · have hne : t' ≠ t := fun heq => ht' (heq ▸ ht)
    rw [hgoto, Function.update_of_ne hne]
    exact h.rest t' ht'
  · rw [hgoto, weight_update ht, weight_update ht]
    show _ = _ + s'.waking + max 0 (-s'.count)
    omega
  · rw [hgoto, weight_update ht]
    show (s'.acquired - s'.ups : Int) = _ - s'.count
    omega

theorem Balanced.down (hphase : s.phase t = .idle) (hlow : -2 ^ 31 < s.count)
    (interruptible : Bool) : Balanced n (Semaphore.down s t interruptible) A := by
  obtain ⟨hlo, hhi⟩ := h.count
  have hrange : -2 ^ 31 ≤ s.count - 1 ∧ s.count - 1 < 2 ^ 31 := by omega
  rw [Semaphore.down]
  dsimp only
  rw [int_of_range hrange.1 hrange.2]
  split <;> exact h.goto ht hphase rfl hrange h.waking

theorem Balanced.wakingNonZero {interruptible : Bool} (hphase : s.phase t = .trying interruptible) :
    Balanced n (Semaphore.wakingNonZero s t interruptible) A := by
  obtain ⟨hlo, hhi⟩ := h.waking
  rw [Semaphore.wakingNonZero]
  split
  next hpos =>
    have hrange : 0 ≤ s.waking - 1 ∧ s.waking - 1 < 2 ^ 31 := by omega
    rw [int_of_range (by omega) hrange.2]
    exact h.goto ht hphase rfl h.count hrange
  · exact h.goto ht hphase rfl h.count h.waking

theorem Balanced.giveUp (hphase : s.phase t = .leaving)
    (hneg : s.count < 0) : Balanced n (Semaphore.giveUp s t) A := by
  obtain ⟨hlo, hhi⟩ := h.count
  have hrange : -2 ^ 31 ≤ s.count + 1 ∧ s.count + 1 < 2 ^ 31 := by omega
  rw [Semaphore.giveUp, int_of_range hrange.1 hrange.2]
  exact h.goto ht hphase rfl hrange h.waking

theorem Balanced.up (hphase : s.phase t = .idle)
    (hhigh : s.count < 2 ^ 31 - 1) : Balanced n (Semaphore.up s t) A := by
  obtain ⟨hlo, hhi⟩ := h.count
  have hrange : -2 ^ 31 ≤ s.count + 1 ∧ s.count + 1 < 2 ^ 31 := by omega
  rw [Semaphore.up, int_of_range hrange.1 hrange.2]
  split <;> exact h.goto ht hphase rfl hrange h.waking

theorem Balanced.wakeUp (hphase : s.phase t = .waking)
    (hhigh : s.waking < 2 ^ 31 - 1) : Balanced n (Semaphore.wakeUp s t) A := by
  obtain ⟨hlo, hhi⟩ := h.waking
  have hrange : 0 ≤ s.waking + 1 ∧ s.waking + 1 < 2 ^ 31 := by omega
  rw [Semaphore.wakeUp, int_of_range (by omega) hrange.2]
  exact h.goto ht hphase rfl h.count hrange

end

end

/-- The caller of a step. -/
def Action.caller : Action τ → τ
  | .down t _ => t
  | .wakingNonZero t => t
  | .testSignal t _ => t
  | .giveUp t => t
  | .up t => t
  | .wakeUp t => t

theorem Balanced.step {a : Action τ} (h : Balanced n s A) (ha : a.caller ∈ A)
    (hcareful : Careful s a) (hstep : Semaphore.step s a = some s') : Balanced n s' A := by
  cases a with
  | down t interruptible =>
    obtain ⟨hphase, rfl⟩ := Option.ite_some_none_eq_some.mp hstep
    exact h.down ha hphase hcareful interruptible
  | wakingNonZero t =>
    rw [Semaphore.step] at hstep
    split at hstep
    next hphase =>
      cases hstep
      exact h.wakingNonZero ha hphase
    · cases hstep
  | testSignal t signalled =>
    rw [Semaphore.step] at hstep
    split at hstep
    next hphase =>
      cases hstep
      rw [Semaphore.testSignal]
      split <;> exact h.goto ha hphase rfl h.count h.waking
    · cases hstep
  | giveUp t =>
    obtain ⟨hphase, rfl⟩ := Option.ite_some_none_eq_some.mp hstep
    exact h.giveUp ha hphase hcareful
  | up t =>
    obtain ⟨hphase, rfl⟩ := Option.ite_some_none_eq_some.mp hstep
    exact h.up ha hphase hcareful
  | wakeUp t =>
    obtain ⟨hphase, rfl⟩ := Option.ite_some_none_eq_some.mp hstep
    exact h.wakeUp ha hphase hcareful

/-- All interleavings of calls by any callers on a semaphore that starts with `n`. -/
def semaphore (n : Int) (τ : Type*) [DecidableEq τ] : System (State τ) where
  init s := 0 ≤ n ∧ n < 2 ^ 31 ∧ s = init n
  step s s' := ∃ a, step s a = some s'

/-- The runs in which nobody gives up too late. -/
def carefulSemaphore (n : Int) (τ : Type*) [DecidableEq τ] : System (State τ) where
  init s := 0 ≤ n ∧ n < 2 ^ 31 ∧ s = init n
  step s s' := ∃ a, Careful s a ∧ step s a = some s'

theorem carefulSemaphore_balanced (h : (carefulSemaphore n τ).Reachable s) :
    ∃ A, Balanced n s A := by
  refine h.invariant (I := fun s => ∃ A, Balanced n s A) ?_ ?_
  · rintro s ⟨hlo, hhi, rfl⟩
    refine ⟨∅, fun _ _ => rfl, ⟨?_, hhi⟩, ⟨le_rfl, ?_⟩, ?_, ?_⟩
    · show -2 ^ 31 ≤ n
      omega
    · show (0 : Int) < 2 ^ 31
      decide
    · show 0 = 0 + 0 + max 0 (-n)
      omega
    · show ((0 : Nat) - (0 : Nat) : Int) = n - 0 - n
      omega
  · rintro s s' ⟨A, hA⟩ ⟨a, hcareful, hstep⟩
    exact ⟨insert a.caller A, (hA.insert a.caller).step (Finset.mem_insert_self _ _) hcareful hstep⟩

/-- The semaphore is held at most `n` times when nobody gives up too late. -/
theorem semaphore_excludes (h : (carefulSemaphore n τ).Reachable s) :
    (s.acquired - s.ups : Int) ≤ n := by
  obtain ⟨A, hA⟩ := carefulSemaphore_balanced h
  exact hA.held_le

end

instance {τ : Type*} (s : State τ) (a : Action τ) : Decidable (Careful s a) := by
  cases a <;> unfold Careful <;> infer_instance

/-- The holder lets the waiter in. -/
def handOver : List (Action (Fin 4)) :=
  [.down 0 false, .down 1 true, .wakingNonZero 1, .up 0, .wakeUp 0, .testSignal 1 false,
    .wakingNonZero 1]

theorem semaphore_excludes_hand_over : ∃ s, (carefulSemaphore 1 (Fin 4)).Reachable s ∧
    s.acquired = 2 ∧ s.ups = 1 ∧ (s.acquired - s.ups : Int) ≤ 1 := by
  have hinit : (carefulSemaphore 1 (Fin 4)).Reachable (init 1) := .init ⟨by decide, by decide, rfl⟩
  obtain ⟨s, hreach, hacquired, hups⟩ := hinit.folds (f := step) (g := Careful) (l := handOver)
    (p := fun s => s.acquired = 2 ∧ s.ups = 1) (fun _ a _ hcareful hstep => ⟨a, hcareful, hstep⟩)
    (by decide)
  exact ⟨s, hreach, hacquired, hups, semaphore_excludes hreach⟩

/-- Task 1 waits for task 0 and sees a signal. Before it takes its share of `count` back, task
0 releases the semaphore to it. Then task 2 finds `count` positive, and task 3, which does
not, finds the permit. -/
def lateGiveUp : List (Action (Fin 4)) :=
  [.down 0 false, .down 1 true, .wakingNonZero 1, .testSignal 1 true, .up 0, .giveUp 1, .wakeUp 0,
    .down 2 false, .down 3 false, .wakingNonZero 3]

/-- A semaphore for one is held by two. -/
theorem semaphore_held_twice : ∃ s, (semaphore 1 (Fin 4)).Reachable s ∧
    (∀ t, s.phase t = .idle) ∧ s.acquired = 3 ∧ s.ups = 1 := by
  have hinit : (semaphore 1 (Fin 4)).Reachable (init 1) := .init ⟨by decide, by decide, rfl⟩
  exact hinit.folds (f := step) (g := fun _ _ => True) (l := lateGiveUp)
    (fun _ a _ _ hstep => ⟨a, hstep⟩) (by decide)

end Sbckernel.Kernel.Semaphore
