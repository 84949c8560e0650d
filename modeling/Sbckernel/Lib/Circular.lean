import Mathlib.Data.List.GetD
import Mathlib.Data.Nat.ModEq

/-!
# Circular buffers

The cells of a buffer of a fixed size are a function of the index. The window of length
`n` at `start` is the list of the `n` cells from `start` on, where the cell behind the
last one is the first one. Cells are filled in at the end of the window and taken away
at its start, in pieces that do not reach over the end of the buffer.
-/

namespace Sbckernel.Lib.Circular

open List

variable {α : Type*} {size start n k pos : Nat} {buffer buffer' : Nat → α} {l : List α}

def window (buffer : Nat → α) (size start n : Nat) : List α :=
  (List.range n).map fun i => buffer ((start + i) % size)

/-- The buffer with a list of cells stored from `pos` on. -/
def store (buffer : Nat → α) (pos : Nat) (l : List α) : Nat → α := fun i =>
  if pos ≤ i then l.getD (i - pos) (buffer i) else buffer i

@[simp]
theorem length_window : (window buffer size start n).length = n := by
  rw [window, length_map, length_range]

@[simp]
theorem window_zero : window buffer size start 0 = [] := rfl

theorem window_congr (h : ∀ i < n, buffer' ((start + i) % size) = buffer ((start + i) % size)) :
    window buffer' size start n = window buffer size start n :=
  map_congr_left fun i hi => h i (mem_range.mp hi)

/-- A window in two pieces. -/
theorem window_add (buffer : Nat → α) (size start n k : Nat) :
    window buffer size start (n + k) =
      window buffer size start n ++ window buffer size ((start + n) % size) k := by
  rw [window, range_add, map_append, map_map]
  congr 1
  refine map_congr_left fun i _ => ?_
  show buffer ((start + (n + i)) % size) = buffer (((start + n) % size + i) % size)
  rw [Nat.mod_add_mod, Nat.add_assoc]

theorem store_of_lt {i : Nat} (h : i < pos) : store buffer pos l i = buffer i := by
  rw [store, if_neg (by omega)]

theorem store_of_le {i : Nat} (h : pos + l.length ≤ i) : store buffer pos l i = buffer i := by
  rw [store, if_pos (by omega), getD_eq_default _ _ (by omega)]

/-- What has been stored, for a piece that does not reach over the end. -/
theorem window_store_self (h : pos + l.length ≤ size) :
    window (store buffer pos l) size pos l.length = l := by
  refine ext_getElem (by simp) fun i hi hi' => ?_
  rw [length_window] at hi
  simp only [window, getElem_map, getElem_range]
  rw [Nat.mod_eq_of_lt (by omega), store, if_pos (by omega), Nat.add_sub_cancel_left,
    getD_eq_getElem _ _ hi']

/-- Filling in at the end of a window. -/
theorem window_store (hpos : pos % size = (start + n) % size) (hend : pos + l.length ≤ size)
    (hroom : n + l.length ≤ size) :
    window (store buffer pos l) size start (n + l.length) = window buffer size start n ++ l := by
  have hself : window (store buffer pos l) size ((start + n) % size) l.length = l := by
    rw [← hpos]
    rcases Nat.lt_or_ge pos size with hlt | hge
    · rw [Nat.mod_eq_of_lt hlt]
      exact window_store_self hend
    · obtain rfl : l = [] := length_eq_zero_iff.mp (by omega)
      rfl
  rw [window_add, hself, window_congr fun i hi => ?_]
  -- the cells in front of the end are not those that are filled in
  by_contra hne
  have hin : pos ≤ (start + i) % size ∧ (start + i) % size < pos + l.length := by
    by_contra hout
    rcases Nat.lt_or_ge ((start + i) % size) pos with hlt | hge
    · exact hne (store_of_lt hlt)
    · exact hne (store_of_le (by omega))
  have hmod : (start + i) % size = (start + n + ((start + i) % size - pos)) % size := by
    rw [Nat.add_mod (start + n), ← hpos, ← Nat.add_mod, Nat.add_sub_cancel' hin.1, Nat.mod_mod]
  have hcancel : i % size = (n + ((start + i) % size - pos)) % size := by
    rw [Nat.add_assoc] at hmod
    exact Nat.ModEq.add_left_cancel' start hmod
  rw [Nat.mod_eq_of_lt (by omega), Nat.mod_eq_of_lt (by omega)] at hcancel
  omega

end Sbckernel.Lib.Circular
