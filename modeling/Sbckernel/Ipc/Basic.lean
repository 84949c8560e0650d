import Mathlib.Algebra.Order.Ring.Int

/-!
# What the three kinds of System V IPC share

Error numbers, tasks, and the C types of the fields that are narrower than an
`int`.
-/

namespace Sbckernel.Ipc

inductive Errno where
  | eperm
  | enoent
  | eintr
  | e2big
  | eagain
  | enomem
  | eacces
  | eexist
  | einval
  | efbig
  | enospc
  | erange
  | enomsg
  | eidrm
  deriving DecidableEq, Repr

/-- `NR_TASKS`. -/
def nrTasks : Nat := 512

instance : NeZero nrTasks := ⟨by decide⟩

/-- A task, by its number in the task array. -/
abbrev Task := Fin nrTasks

/-- Conversion to `short`. -/
def short (x : Int) : Int := (x + 32768) % 65536 - 32768

/-- Conversion to `ushort`. -/
def ushort (x : Int) : Int := x % 65536

theorem short_of_range {x : Int} (h : -32768 ≤ x) (h' : x ≤ 32767) : short x = x := by
  rw [short]
  omega

theorem short_range (x : Int) : -32768 ≤ short x ∧ short x ≤ 32767 := by
  rw [short]
  omega

theorem ushort_of_range {x : Int} (h : 0 ≤ x) (h' : x < 65536) : ushort x = x := by
  rw [ushort]
  omega

end Sbckernel.Ipc
