import Mathlib.Algebra.BigOperators.Intervals
import Mathlib.Algebra.BigOperators.Ring.Finset
import Mathlib.Algebra.Order.BigOperators.Group.Finset

/-!
# Counting the cells of a table

A table has rows of different lengths. `tally f` adds up the value `f` of every cell,
so it counts cells when `f` is zero or one. A counter that a program keeps beside such a
table is right as long as every change of a cell comes with the change of the counter
that the rules below ask for.
-/

namespace Sbckernel.Lib

open Function Finset

variable {ι α : Type*}
variable {A : Finset ι} {n i : Nat} {row : Nat → α} {r : ι}

/-- One term of a sum changes. -/
theorem sum_change [DecidableEq ι] {s : Finset ι} {f g : ι → Int} {i : ι} (hi : i ∈ s)
    (h : ∀ j ∈ s, j ≠ i → g j = f j) : ∑ j ∈ s, g j = ∑ j ∈ s, f j + (g i - f i) := by
  have herase : ∑ j ∈ s.erase i, g j = ∑ j ∈ s.erase i, f j :=
    sum_congr rfl fun j hj => h j (mem_of_mem_erase hj) (ne_of_mem_erase hj)
  rw [← add_sum_erase s g hi, ← add_sum_erase s f hi, herase]
  omega

/-- The sum of a value over a family that is at rest outside a finite set. -/
def weight (f : α → Int) (A : Finset ι) (x : ι → α) : Int := ∑ i ∈ A, f (x i)

/-- What is at rest does not count. -/
theorem weight_insert [DecidableEq ι] {f : α → Int} {x : ι → α} {rest : α}
    (hf : f rest = 0) (h : ∀ i ∉ A, x i = rest) (i : ι) : weight f (insert i A) x = weight f A x :=
  sum_insert_of_eq_zero_if_notMem fun hi => by rw [h i hi, hf]

theorem weight_update [DecidableEq ι] {f : α → Int} {i : ι} (hi : i ∈ A)
    (x : ι → α) (a : α) : weight f A (update x i a) = weight f A x + (f a - f (x i)) := by
  have hchange : weight f A (update x i a) =
      weight f A x + (f (update x i a i) - f (x i)) :=
    sum_change hi fun j _ hj => by rw [update_of_ne hj]
  rwa [update_self] at hchange

/-- The sum over the first `n` cells of a row. -/
def rowTally (f : α → Int) (n : Nat) (row : Nat → α) : Int := ∑ i ∈ Finset.range n, f (row i)

def tally (f : α → Int) (rows : Finset ι) (len : ι → Nat) (cell : ι → Nat → α) : Int :=
  ∑ r ∈ rows, rowTally f (len r) (cell r)

section
variable {f : α → Int} {rows : Finset ι} {len len' : ι → Nat} {cell cell' : ι → Nat → α}

/-- A row from the cell `i` on. -/
theorem rowTally_from (f : α → Int) (row : Nat → α) (n i : Nat) :
    rowTally f (n + 1) (fun j => row (i + j)) =
      f (row i) + rowTally f n fun j => row (i + 1 + j) := by
  rw [rowTally, sum_range_succ', add_comm]
  congr 1
  refine sum_congr rfl fun j _ => ?_
  show f (row (i + (j + 1))) = f (row (i + 1 + j))
  rw [Nat.add_assoc, Nat.add_comm 1 j]

theorem rowTally_zero (f : α → Int) (row : Nat → α) : rowTally f 0 row = 0 := rfl

/-- A row of cells without a value. -/
theorem rowTally_eq_zero (h : ∀ i < n, f (row i) = 0) : rowTally f n row = 0 :=
  sum_eq_zero fun i hi => h i (mem_range.mp hi)

theorem rowTally_nonneg (hf : ∀ x, 0 ≤ f x) (n : Nat) (row : Nat → α) : 0 ≤ rowTally f n row :=
  sum_nonneg fun i _ => hf (row i)

theorem le_rowTally (hf : ∀ x, 0 ≤ f x) (hi : i < n) (row : Nat → α) :
    f (row i) ≤ rowTally f n row :=
  single_le_sum (f := fun i => f (row i)) (fun j _ => hf (row j)) (mem_range.mpr hi)

/-- One row is replaced. -/
theorem tally_row [DecidableEq ι] (hr : r ∈ rows)
    (h : ∀ r' ∈ rows, r' ≠ r → rowTally f (len' r') (cell' r') = rowTally f (len r') (cell r')) :
    tally f rows len' cell' = tally f rows len cell +
      (rowTally f (len' r) (cell' r) - rowTally f (len r) (cell r)) :=
  sum_change hr h

/-- One cell of a row changes. -/
theorem rowTally_change {row' : Nat → α} (hi : i < n) (h : ∀ j ≠ i, row' j = row j) :
    rowTally f n row' = rowTally f n row + (f (row' i) - f (row i)) :=
  sum_change (mem_range.mpr hi) fun j _ hj => by rw [h j hj]

/-- One cell changes. -/
theorem tally_change [DecidableEq ι] (hr : r ∈ rows) (hi : i < len r)
    (hrow : ∀ j ≠ i, cell' r j = cell r j) (h : ∀ r' ∈ rows, r' ≠ r → cell' r' = cell r') :
    tally f rows len cell' = tally f rows len cell + (f (cell' r i) - f (cell r i)) := by
  rw [tally_row hr fun r' hr' hne => by rw [h r' hr' hne], rowTally_change hi hrow]
  omega

/-- No value is negative. -/
theorem le_tally (hf : ∀ x, 0 ≤ f x) (hr : r ∈ rows) (hi : i < len r) :
    f (cell r i) ≤ tally f rows len cell := by
  refine (le_rowTally hf hi (cell r)).trans ?_
  exact single_le_sum (f := fun r => rowTally f (len r) (cell r))
    (fun r' _ => sum_nonneg fun j _ => hf (cell r' j)) hr

/-- What is counted at most once is in one cell. -/
theorem tally_unique [DecidableEq ι] (hf : ∀ x, 0 ≤ f x) {z : α} (hz : f z = 0)
    (hle : tally f rows len cell ≤ 1) {r' : ι} {i' : Nat} (hr : r ∈ rows) (hi : i < len r)
    (hr' : r' ∈ rows) (hi' : i' < len r') (h : f (cell r i) = 1) (h' : f (cell r' i') = 1) :
    r = r' ∧ i = i' := by
  by_contra hne
  -- without the first cell nothing is left to count, but the second cell is
  obtain ⟨rest, hrest⟩ : ∃ c, c = update cell r (update (cell r) i z) := ⟨_, rfl⟩
  have hrow : ∀ j ≠ i, rest r j = cell r j := fun j hj => by
    rw [hrest, update_self, update_of_ne hj]
  have hother : ∀ k ≠ r, rest k = cell k := fun k hk => by rw [hrest, update_of_ne hk]
  have hzero : rest r i = z := by rw [hrest, update_self, update_self]
  have hsame : rest r' i' = cell r' i' := by
    by_cases hrr : r' = r
    · subst hrr
      exact hrow i' fun heq => hne ⟨rfl, heq.symm⟩
    · rw [hother r' hrr]
  have hless : tally f rows len rest = tally f rows len cell + (f (rest r i) - f (cell r i)) :=
    tally_change hr hi hrow fun k _ => hother k
  have hleft : f (rest r' i') ≤ tally f rows len rest := le_tally hf hr' hi'
  rw [hzero, hz, h] at hless
  rw [hsame, h'] at hleft
  omega

end

end Sbckernel.Lib
