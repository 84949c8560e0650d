import Mathlib.Data.Nat.Bitwise

/-!
# Masks of a machine word

A C mask `~0 << n` clears the low `n` bits, and its negation is the single
bit `1 << n`. These lemmas read both off as arithmetic on the value of the
word, which is where a model's invariants live.
-/

namespace Sbckernel.Lib

open BitVec

variable {w : Nat}

/-- `~0 << n`. -/
def highMask (w n : Nat) : BitVec w := ~~~(0 : BitVec w) <<< n

theorem highMask_shiftLeft (n : Nat) : highMask w n <<< 1 = highMask w (n + 1) := by
  rw [highMask, highMask, shiftLeft_add]

theorem highMask_getLsbD (n i : Nat) :
    (highMask w n).getLsbD i = (decide (i < w) && decide (n ≤ i)) := by
  rw [highMask, getLsbD_shiftLeft, getLsbD_not, ofNat_eq_ofNat,
    getLsbD_zero]
  grind

theorem and_highMask (x : BitVec w) (n : Nat) : x &&& highMask w n = x >>> n <<< n := by
  apply eq_of_getLsbD_eq
  intro i hi
  rw [getLsbD_and, highMask_getLsbD, getLsbD_shiftLeft, getLsbD_ushiftRight]
  rcases Nat.lt_or_ge i n with h | h
  · simp [h]
  · simp [hi, h, Nat.add_sub_cancel' h]

theorem toNat_and_highMask (x : BitVec w) (n : Nat) :
    (x &&& highMask w n).toNat = x.toNat / 2 ^ n * 2 ^ n := by
  rw [and_highMask, toNat_shiftLeft, toNat_ushiftRight,
    Nat.shiftRight_eq_div_pow, Nat.shiftLeft_eq]
  exact Nat.mod_eq_of_lt (Nat.lt_of_le_of_lt (Nat.div_mul_le_self _ _) x.isLt)

theorem toNat_ushiftRight_eq_div (x : BitVec w) (n : Nat) : (x >>> n).toNat = x.toNat / 2 ^ n := by
  rw [toNat_ushiftRight, Nat.shiftRight_eq_div_pow]

/-- Flipping bit `n` of a multiple of `2 ^ n` flips the low bit of the
multiplier. -/
theorem mul_two_pow_xor (k n : Nat) : k * 2 ^ n ^^^ 2 ^ n = (k ^^^ 1) * 2 ^ n := by
  calc k * 2 ^ n ^^^ 2 ^ n = k <<< n ^^^ 1 <<< n := by
        rw [Nat.shiftLeft_eq, Nat.one_shiftLeft]
    _ = (k ^^^ 1) <<< n := (Nat.shiftLeft_xor_distrib ..).symm
    _ = (k ^^^ 1) * 2 ^ n := Nat.shiftLeft_eq ..

end Sbckernel.Lib
