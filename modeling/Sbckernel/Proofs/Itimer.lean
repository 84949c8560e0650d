import Sbckernel.Kernel.Itimer

/-!
# Interval timers round up

`tvtojiffies` gives the least number of ticks that is long enough and saturates,
except in the last second its guard lets through: 100 ticks for each of
42949672 seconds leave room for 95 more, and a part of a second that needs more
than that wraps around.
-/

namespace Sbckernel.Kernel

open BitVec

variable {v : Timeval}

/-- The time in microseconds. -/
def Timeval.usecs (v : Timeval) : Nat := v.tvSec.toNat * 1000000 + v.tvUsec.toNat

/-- A normalised time that is not at the end of second 42949672. -/
structure Timeval.Converts (v : Timeval) : Prop where
  usec : v.tvUsec.toNat < 1000000
  fits : v.tvSec.toNat = 42949672 → v.tvUsec.toNat ≤ 950000

theorem usec_hz : (1000000 : ULong).toNat = 1000000 ∧ hz.toNat = 100 ∧
    (1000000 / hz - 1 : ULong).toNat = 9999 := ⟨rfl, rfl, rfl⟩

theorem toNat_tvtojiffies (h : v.Converts) :
    (tvtojiffies v).toNat = min ((v.usecs + 9999) / 10000) 0xffffffff := by
  obtain ⟨husec, hfits⟩ := h
  have hmax : (ulongMax / hz).toNat = 42949672 := rfl
  rw [tvtojiffies, Timeval.usecs]
  split
  next hlarge =>
    have hlarge : (ulongMax / hz).toNat < v.tvSec.toNat := hlarge
    show 0xffffffff = _
    omega
  next hsmall =>
    have hsmall : ¬(ulongMax / hz).toNat < v.tvSec.toNat := hsmall
    simp only [toNat_add, toNat_mul, toNat_udiv, usec_hz]
    omega

/-- The result is the least number of ticks that is long enough, or saturates; hence what comes
back is not less, only no time takes no ticks, and more time takes no fewer ticks. -/
def Timeval.RoundsUp (v : Timeval) : Prop :=
  (∃ n, IsLeast {n | v.usecs ≤ n * 10000} n ∧
    (tvtojiffies v).toNat = min n ulongMax.toNat ∧
    (n ≤ ulongMax.toNat → v.usecs ≤ (jiffiestotv (tvtojiffies v)).usecs)) ∧
  (tvtojiffies v = 0 → v.usecs = 0) ∧
  ∀ w : Timeval, w.Converts → v.usecs ≤ w.usecs → tvtojiffies v ≤ tvtojiffies w

theorem isLeast_ticks (v : Timeval) :
    IsLeast {n | v.usecs ≤ n * 10000} ((v.usecs + 9999) / 10000) := by
  refine ⟨?_, fun n hn => ?_⟩
  · show v.usecs ≤ (v.usecs + 9999) / 10000 * 10000
    omega
  · have hn : v.usecs ≤ n * 10000 := hn
    omega

theorem Timeval.Converts.roundsUp (h : v.Converts) : v.RoundsUp := by
  have heq := toNat_tvtojiffies h
  have hmax : ulongMax.toNat = 0xffffffff := rfl
  refine ⟨⟨_, isLeast_ticks v, heq, fun hle => ?_⟩, fun hzero => ?_, fun w hw hle => ?_⟩
  · simp only [jiffiestotv, Timeval.usecs, toNat_mul, toNat_umod,
      toNat_udiv, usec_hz, heq] at *
    omega
  · have hnone : (tvtojiffies v).toNat = 0 := congrArg BitVec.toNat hzero
    omega
  · rw [le_def, heq, toNat_tvtojiffies hw]
    omega

/-- At the end of second 42949672 the sum wraps around. -/
theorem toNat_tvtojiffies_wrapped (husec : v.tvUsec.toNat < 1000000)
    (hsec : v.tvSec.toNat = 42949672) (hlate : 950000 < v.tvUsec.toNat) :
    (tvtojiffies v).toNat + 2 ^ 32 = (v.usecs + 9999) / 10000 := by
  have hmax : (ulongMax / hz).toNat = 42949672 := rfl
  have hsmall : ¬v.tvSec > ulongMax / hz := by
    rw [gt_iff_lt, lt_def, hmax, hsec]
    exact lt_irrefl _
  rw [tvtojiffies, Timeval.usecs]
  simp only [if_neg hsmall, toNat_add, toNat_mul, toNat_udiv, usec_hz]
  omega

/-- A normalised time is converted as it should be exactly if it is not at the end of second
42949672. -/
theorem tvtojiffies_rounds_up (husec : v.tvUsec.toNat < 1000000) :
    v.RoundsUp ↔ ¬(v.tvSec.toNat = 42949672 ∧ 950000 < v.tvUsec.toNat) := by
  constructor
  · rintro ⟨⟨n, hleast, heq, -⟩, -⟩ ⟨hsec, hlate⟩
    have hn := (hleast.2 (isLeast_ticks v).1).antisymm ((isLeast_ticks v).2 hleast.1)
    have hwrap := toNat_tvtojiffies_wrapped husec hsec hlate
    have hmax : ulongMax.toNat = 0xffffffff := rfl
    rw [Timeval.usecs] at hn hwrap
    omega
  · intro h
    exact Timeval.Converts.roundsUp ⟨husec, fun hsec => Nat.not_lt.mp fun hlate => h ⟨hsec, hlate⟩⟩

theorem tvtojiffies_rounds_up_short :
    Timeval.RoundsUp ⟨0, 1⟩ ∧ tvtojiffies ⟨0, 1⟩ = 1 :=
  ⟨(tvtojiffies_rounds_up (by decide)).mpr (by decide), by decide⟩

/-- Almost 42949673 seconds become no ticks. -/
theorem tvtojiffies_wraps : tvtojiffies ⟨42949672, 950001⟩ = 0 := by decide

end Sbckernel.Kernel
