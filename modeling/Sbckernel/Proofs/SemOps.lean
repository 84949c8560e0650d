import Mathlib.Data.Fintype.Card
import Sbckernel.Ipc.Sem

/-!
# `try_semop`, `do_semop` and `update_queue`

`try_semop` leaves the values as it found them, and what it lets pass `do_semop`
carries out to the end, without a race and without leaving the range of the
values. The adjustments follow the operations carried out, as far as a `short` can
hold them.

`update_queue` ends: every pass but the last takes an element out of the queue. The
last pass has looked at all that are left, and changed nothing.
-/

namespace Sbckernel.Ipc

open Function

/-- Values between two calls. -/
def InRange (base : Nat → Int) : Prop := ∀ n, 0 ≤ base n ∧ base n ≤ 32767

/-- The values after all operations, if each of them keeps its value in the range and
an operation of zero meets zero. -/
def sequential : (Nat → Int) → List Sembuf → Option (Nat → Int)
  | base, [] => some base
  | base, sop :: sops =>
    let semval := base sop.semNum + sop.semOp
    if 0 ≤ semval ∧ semval ≤ semvmx ∧ (sop.semOp = 0 → base sop.semNum = 0) then
      sequential (update base sop.semNum semval) sops
    else none

/-- Whether `do_semop` reports a race, at one of the three exits of its loop. -/
def doSemopRaces : (Nat → Int) → List Sembuf → Bool
  | _, [] => false
  | base, sop :: sops =>
    if sop.semOp + base sop.semNum > semvmx then true
    else if sop.semOp = 0 then
      if base sop.semNum ≠ 0 then true else doSemopRaces base sops
    else
      let base := update base sop.semNum (short (base sop.semNum + sop.semOp))
      if base sop.semNum < 0 then true else doSemopRaces base sops

section
variable {base : Nat → Int} {sops done : List Sembuf}

section
variable (h : InRange base)
include h

theorem InRange.update {n : Nat} {x : Int} (hx : 0 ≤ x) (hx' : x ≤ 32767) :
    InRange (update base n x) := by
  intro m
  by_cases hm : m = n
  · rw [hm, update_self]
    exact ⟨hx, hx'⟩
  · rw [update_of_ne hm]
    exact h m

theorem short_add (sop : Sembuf) (hmax : sop.semOp + base sop.semNum ≤ semvmx) :
    short (base sop.semNum + sop.semOp) = base sop.semNum + sop.semOp := by
  have := h sop.semNum
  have := sop.range
  rw [semvmx] at hmax
  exact short_of_range (by omega) (by omega)

/-- What has been tried can be taken back. -/
theorem tryBack_tryForward :
    tryBack (tryForward base done sops).2.1 (tryForward base done sops).2.2 =
      tryBack base done := by
  induction sops generalizing base done with
  | nil => rfl
  | cons sop sops ih =>
    rw [tryForward]
    split
    · rfl
    next hmax =>
      split
      · rfl
      · have hadd := short_add h sop (not_lt.mp hmax)
        have hback : tryBack (update base sop.semNum (base sop.semNum + sop.semOp))
            (sop :: done) = tryBack base done := by
          have := h sop.semNum
          rw [tryBack, update_self, add_sub_cancel_right,
            short_of_range (by omega) (by omega), update_idem, update_eq_self]
        rw [hadd]
        dsimp only
        split
        · exact hback
        next hneg =>
          rw [update_self] at hneg
          rw [semvmx] at hmax
          rw [ih (h.update (by omega) (by omega)), hback]

theorem trySemop_base (sops : List Sembuf) : (trySemop base sops).2 = base :=
  tryBack_tryForward h

theorem trySemop_eq (sops : List Sembuf) :
    trySemop base sops = ((trySemop base sops).1, base) := Prod.ext rfl (trySemop_base h sops)

end

theorem Sembuf.blocked_ne_ok (sop : Sembuf) : sop.blocked ≠ .ok := by
  rw [Sembuf.blocked]
  split <;> exact nofun

/-- `try_semop` lets pass what can be carried out one operation after the other. -/
theorem tryForward_ok (h : InRange base) :
    (tryForward base done sops).1 = .ok ↔ ∃ base', sequential base sops = some base' := by
  induction sops generalizing base done with
  | nil => exact iff_of_true rfl ⟨_, rfl⟩
  | cons sop sops ih =>
    rw [tryForward, sequential]
    dsimp only
    split
    next hmax =>
      rw [if_neg fun hpass => by omega]
      exact iff_of_false nofun nofun
    next hmax =>
      split
      next hzero =>
        rw [if_neg fun hpass => hzero.2 (hpass.2.2 hzero.1)]
        exact iff_of_false sop.blocked_ne_ok nofun
      next hzero =>
        rw [short_add h sop (not_lt.mp hmax), update_self]
        split
        next hneg =>
          rw [if_neg fun hpass => not_lt.mpr hpass.1 hneg]
          exact iff_of_false sop.blocked_ne_ok nofun
        next hneg =>
          have hpos := not_lt.mp hneg
          have hle : base sop.semNum + sop.semOp ≤ semvmx := by omega
          rw [if_pos ⟨hpos, hle, fun hop => by_contra fun hne => hzero ⟨hop, hne⟩⟩]
          exact ih (h.update hpos hle)

end

/-! ## Adjustments -/

/-- The sum of the operations carried out for an undo structure. -/
def total (performed : List Performed) (t : Task) (n : Nat) : Int :=
  ((performed.filter fun p => p.task = t ∧ p.semNum = n).map Performed.semOp).sum

/-- `semadj[n]` of a task, zero without an undo structure. -/
def SemState.semadj (s : SemState) (t : Task) (n : Nat) : Int :=
  match s.undo t with
  | some semadj => semadj n
  | none => 0

/-- The adjustments are what a `short` holds of the sums. -/
def Tracks (s : SemState) : Prop := ∀ t n, s.semadj t n = short (-total s.performed t n)

section
variable {s s' : SemState} {un t : Task} {sops done : List Sembuf}

theorem short_sub (x y : Int) : short (short x - y) = short (x - y) := by
  rw [short, short, short]
  omega

theorem total_cons (p : Performed) (l : List Performed) (t : Task) (n : Nat) :
    total (p :: l) t n = (if p.task = t ∧ p.semNum = n then p.semOp else 0) + total l t n := by
  rw [total, total, List.filter_cons]
  split <;> simp_all

/-- The adjustment makes up for the operation that has just been carried out. -/
theorem tracks_adjust {sop : Sembuf} (h : Tracks s) (hun : s.undo un ≠ none)
    (hundo : sop.undo = true) : Tracks (adjust (perform s un sop) un sop) := by
  intro t n
  obtain ⟨semadj, hsemadj⟩ := Option.ne_none_iff_exists'.mp hun
  have htn := h t n
  have hlog : (adjust (perform s un sop) un sop).performed =
      ⟨un, sop.semNum, sop.semOp⟩ :: s.performed := if_pos hundo
  rw [hlog, total_cons]
  by_cases ht : t = un
  · subst ht
    rw [SemState.semadj, hsemadj] at htn
    rw [SemState.semadj, adjust, perform]
    dsimp only at htn ⊢
    rw [update_self, hsemadj, Option.map_some]
    dsimp only
    by_cases hn : n = sop.semNum
    · subst hn
      rw [update_self, if_pos ⟨rfl, rfl⟩, htn, short_sub]
      congr 1
      omega
    · rw [update_of_ne hn, if_neg fun heq => hn heq.2.symm, zero_add, htn]
  · rw [if_neg fun heq => ht heq.1.symm, zero_add, ← htn]
    rw [SemState.semadj, SemState.semadj, adjust, perform]
    dsimp only
    rw [update_of_ne ht]

theorem adjust_undo (s : SemState) (un : Task) (sop : Sembuf) (t : Task) :
    (adjust s un sop).undo t = none ↔ s.undo t = none := by
  rw [adjust]
  by_cases ht : t = un
  · subst ht
    simp
  · simp [update_of_ne ht]

/-- `do_semop` carries out all operations, without a race, where each in its turn can be. -/
theorem doSemop_spec (un : Task) {base : Nat → Int} (h : InRange s.semBase)
    (hseq : sequential s.semBase sops = some base) :
    doSemopRaces s.semBase sops = false ∧ InRange base ∧ ∃ undo performed,
      doSemop un s sops = { s with semBase := base, undo := undo, performed := performed } ∧
      (∀ t, undo t = none ↔ s.undo t = none) ∧
      (Tracks s → (∀ sop ∈ sops, sop.undo = true → s.undo un ≠ none) →
        Tracks (doSemop un s sops)) := by
  induction sops generalizing s with
  | nil =>
    cases hseq
    exact ⟨rfl, h, _, _, rfl, fun _ => Iff.rfl, fun htracks _ => htracks⟩
  | cons sop sops ih =>
    rw [sequential] at hseq
    obtain ⟨⟨hpos, hle, hzero⟩, hseq⟩ := Option.ite_none_right_eq_some.mp hseq
    have hmax : ¬sop.semOp + s.semBase sop.semNum > semvmx := by omega
    rw [doSemopRaces, doSemop, if_neg hmax, if_neg hmax]
    by_cases hop : sop.semOp = 0
    · rw [hop, add_zero, update_eq_self] at hseq
      rw [if_pos hop, if_pos hop, if_neg (not_not.mpr (hzero hop)),
        if_neg (not_not.mpr (hzero hop))]
      obtain ⟨hraces, hbase, undo, performed, heq, hundo, htracks⟩ := ih h hseq
      exact ⟨hraces, hbase, undo, performed, heq, hundo, fun ht hall =>
        htracks ht fun sop hsop => hall sop (.tail _ hsop)⟩
    · have hdone : (perform s un sop).semBase =
          update s.semBase sop.semNum (s.semBase sop.semNum + sop.semOp) := by
        rw [perform, short_add h sop (not_lt.mp hmax)]
      have hneg : ¬update s.semBase sop.semNum
          (s.semBase sop.semNum + sop.semOp) sop.semNum < 0 := by
        rw [update_self]
        exact not_lt.mpr hpos
      have hbase := h.update (n := sop.semNum) hpos hle
      rw [if_neg hop, if_neg hop, short_add h sop (not_lt.mp hmax)]
      dsimp only
      rw [hdone, if_neg hneg, if_neg hneg]
      rw [← hdone] at hseq hbase ⊢
      by_cases hundo : sop.undo = true
      · rw [if_pos hundo]
        obtain ⟨hraces, hbase, undo, performed, heq, hnone, htracks⟩ :=
          ih (s := adjust (perform s un sop) un sop) hbase hseq
        refine ⟨hraces, hbase, undo, performed, heq,
          fun t => (hnone t).trans (adjust_undo _ un sop t), fun ht hall => ?_⟩
        have hun : s.undo un ≠ none := hall sop (.head _) hundo
        exact htracks (tracks_adjust ht hun hundo) fun _ _ _ hnone' =>
          hun ((adjust_undo _ un sop un).mp hnone')
      · rw [if_neg hundo]
        have hlog : (perform s un sop).performed = s.performed := if_neg hundo
        obtain ⟨hraces, hbase, undo, performed, heq, hnone, htracks⟩ :=
          ih (s := perform s un sop) hbase hseq
        refine ⟨hraces, hbase, undo, performed, heq, hnone, fun ht hall => ?_⟩
        exact htracks (fun t n => hlog ▸ ht t n) fun sop hsop => hall sop (.tail _ hsop)

end

/-- `semop` is all or nothing: `try_semop` changes nothing and lets pass what can be carried out
one operation after the other, and `do_semop` then carries out just that. -/
theorem semop_atomic (un : Task) (s : SemState) (sops : List Sembuf) (h : InRange s.semBase) :
    (trySemop s.semBase sops).2 = s.semBase ∧
    ((trySemop s.semBase sops).1 = .ok ↔ ∃ base, sequential s.semBase sops = some base) ∧
    ((trySemop s.semBase sops).1 = .ok →
      doSemopRaces s.semBase sops = false ∧
      sequential s.semBase sops = some (doSemop un s sops).semBase ∧
      InRange (doSemop un s sops).semBase) := by
  refine ⟨trySemop_base h sops, tryForward_ok h, fun hok => ?_⟩
  obtain ⟨base, hseq⟩ := (tryForward_ok h).mp hok
  obtain ⟨hraces, hbase, undo, performed, heq, -⟩ := doSemop_spec un h hseq
  rw [heq]
  exact ⟨hraces, hseq, hbase⟩

/-- Up, down and a wait for zero, all on the same semaphore. -/
def upDown : List Sembuf :=
  [⟨0, 7, false, true, by decide⟩, ⟨0, -7, false, true, by decide⟩, ⟨0, 0, true, false, by decide⟩]

theorem semop_atomic_upDown : InRange (newary 1).semBase ∧
    (trySemop (newary 1).semBase upDown).1 = .ok ∧
    doSemopRaces (newary 1).semBase upDown = false := by
  have hrange : InRange (newary 1).semBase := fun _ => ⟨le_rfl, show (0 : Int) ≤ 32767 by decide⟩
  exact ⟨hrange, rfl, ((semop_atomic 0 (newary 1) upDown hrange).2.2 rfl).1⟩

end Sbckernel.Ipc
