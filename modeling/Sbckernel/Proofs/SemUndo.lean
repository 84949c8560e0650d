import Sbckernel.Proofs.Semaphores

/-!
# `SEM_UNDO`

`semop` checks a value before it changes it, so the values never wrap. The
adjustments are not checked. Each is minus the sum of the operations as far as a
`short` holds it, so it is exact if and only if that sum fits. `sem_exit` adds the
adjustment to a value without a check as well: a sum above `SEMVMX` wraps to a
negative number and the semaphore becomes zero.
-/

namespace Sbckernel.Ipc

open Lib

/-- A set on which there are only operations and exits. -/
def operations : System SemState where
  init := fun s => ∃ nsems, s = newary nsems
  step := OpStep

section
variable {s : SemState}

theorem operations_settled (h : operations.Reachable s) : Settled s ∧ Tracks s := by
  refine h.invariant (I := fun s => Settled s ∧ Tracks s) ?_ ?_
  · rintro _ ⟨nsems, rfl⟩
    exact ⟨settled_newary nsems, fun _ _ => rfl⟩
  · intro s s' hs hop
    obtain ⟨hsettled, htracks⟩ := opStep_settled hs.1 hop
    exact ⟨hsettled, htracks hs.2⟩

theorem short_eq_iff (x : Int) : short x = x ↔ -32768 ≤ x ∧ x ≤ 32767 := by
  rw [short]
  omega

/-- A value with its adjustment, in the range of the values. -/
def clamp (x : Int) : Int := max 0 (min semvmx x)

/-- `sem_exit` is right about one semaphore if and only if nothing wraps. -/
theorem undoAll_eq_clamp_iff {semadj : Nat → Int} (hbase : InRange s.semBase) {n : Nat}
    (hn : n < s.semNsems) (hadj : -32768 ≤ semadj n ∧ semadj n ≤ 32767) :
    (undoAll s semadj).semBase n = clamp (s.semBase n + semadj n) ↔
      s.semBase n + semadj n ≤ semvmx := by
  have := hbase n
  rw [undoAll, clamp, semvmx]
  dsimp only
  rw [if_pos hn, short]
  split <;> omega

/-- Adjustments and exits, for every task and every semaphore. -/
theorem sem_undo_exact_iff (h : operations.Reachable s) (t : Task) :
    (∀ n, s.semadj t n = -total s.performed t n ↔
      -32768 ≤ -total s.performed t n ∧ -total s.performed t n ≤ 32767) ∧
    (s.undo t = none → (semExit s t).semBase = s.semBase) ∧
    (s.undo t ≠ none → ∃ s', semExit s t = updateQueue s' ∧ ∀ n < s.semNsems,
      (s'.semBase n = clamp (s.semBase n + s.semadj t n) ↔
        s.semBase n + s.semadj t n ≤ semvmx)) := by
  obtain ⟨hsettled, htracks⟩ := operations_settled h
  refine ⟨fun n => ?_, fun hnone => ?_, fun hsome => ?_⟩
  · rw [htracks t n]
    exact short_eq_iff _
  · rw [semExit_eq hsettled, hnone]
    rfl
  · obtain ⟨semadj, hundo⟩ := Option.ne_none_iff_exists'.mp hsome
    have hlive : s.live = true := by
      cases hlive : s.live with
      | true => rfl
      | false => exact absurd (hsettled.removed hlive t).2 hsome
    obtain ⟨l, hinv, -⟩ := hsettled.waiting hlive
    have hadj : s.semadj t = semadj := by
      funext n
      rw [SemState.semadj, hundo]
    rw [hadj, semExit_eq hsettled, hundo]
    refine ⟨_, rfl, fun n hn =>
      undoAll_eq_clamp_iff (s := forget (dequeued s t) t) hinv.values hn ?_⟩
    rw [← congrFun hadj n, htracks t n]
    exact short_range _

end

/-! ## Runs that wrap -/

/-- `semop` calls with one operation each, one after the other. -/
def calls : SemState → List (Task × Sembuf) → SemState
  | s, [] => s
  | s, (t, sop) :: rest => calls (sysSemop s t [sop] true true).1 rest

/-- No caller is asleep. -/
def awakeAtCalls : SemState → List (Task × Sembuf) → Bool
  | _, [] => true
  | s, (t, sop) :: rest => !s.asleep t && awakeAtCalls (sysSemop s t [sop] true true).1 rest

theorem calls_reachable {s : SemState} {l : List (Task × Sembuf)} (h : operations.Reachable s)
    (hawake : awakeAtCalls s l = true) : operations.Reachable (calls s l) := by
  induction l generalizing s with
  | nil => exact h
  | cons c l ih =>
    obtain ⟨hc, hrest⟩ := Bool.and_eq_true_iff.mp hawake
    exact ih (.step h (.semop s c.1 [c.2] true true (by simpa using hc))) hrest

/-- Task 0 adds 32767 and 2, task 1 subtracts 32767 in between. -/
def addTwice : SemState := calls (newary 1)
  [(0, ⟨0, 32767, false, true, by decide⟩), (1, ⟨0, -32767, false, false, by decide⟩),
    (0, ⟨0, 2, false, true, by decide⟩)]

/-- Task 0 takes the one unit there is, task 1 then adds as many as it can. -/
def takeAndFill : SemState := calls (newary 1)
  [(1, ⟨0, 1, false, false, by decide⟩), (0, takeOne), (1, ⟨0, 32767, false, false, by decide⟩)]

theorem addTwice_reachable : operations.Reachable addTwice :=
  calls_reachable (.init ⟨1, rfl⟩) (by decide)

theorem takeAndFill_reachable : operations.Reachable takeAndFill :=
  calls_reachable (.init ⟨1, rfl⟩) (by decide)

/-- An adjustment with the wrong sign, and an exit that takes 32767 units away where it
should add one. -/
theorem sem_undo_wraps :
    (operations.Reachable addTwice ∧ total addTwice.performed 0 0 = 32769 ∧
      addTwice.semadj 0 0 = 32767) ∧
    operations.Reachable takeAndFill ∧ takeAndFill.semBase 0 = 32767 ∧
      takeAndFill.semadj 0 0 = 1 ∧ (semExit takeAndFill 0).semBase 0 = 0 :=
  ⟨⟨addTwice_reachable, by decide, by decide⟩, takeAndFill_reachable,
    by decide, by decide, by decide⟩

/-- Task 0 gives two units back when it exits. -/
def takeTwo : SemState := calls (newary 1)
  [(1, ⟨0, 5, false, false, by decide⟩), (0, ⟨0, -2, false, true, by decide⟩)]

theorem sem_undo_exact_iff_two :
    takeTwo.semadj 0 0 = 2 ∧ takeTwo.semadj 0 0 = -total takeTwo.performed 0 0 ∧
    ∃ s', semExit takeTwo 0 = updateQueue s' ∧ s'.semBase 0 = 5 := by
  have h := sem_undo_exact_iff
    (calls_reachable (s := newary 1) (l := [(1, ⟨0, 5, false, false, by decide⟩),
      (0, ⟨0, -2, false, true, by decide⟩)]) (.init ⟨1, rfl⟩) (by decide)) 0
  have hadj : takeTwo.semadj 0 0 = 2 := by decide
  obtain ⟨s', hexit, hclamp⟩ := h.2.2 (by decide)
  refine ⟨hadj, (h.1 0).mpr (by decide), s', hexit, ?_⟩
  exact ((hclamp 0 (by decide)).mpr (by decide)).trans (by decide)

end Sbckernel.Ipc
