import Mathlib.Data.List.Nodup
import Sbckernel.Fs.Dquot
import Sbckernel.Lib.Tally

/-!
# Disk quota limits

The look at the records and the change of the records are one step as long as no record is
locked: then the limit that was looked at is the limit that is kept. A record that is
being written is locked, and an allocation that has looked already waits for it. Two of
them see the same room, and together they overrun the limit.

What is granted and what is freed is accounted for in any case: the lock is held for each
change. A call that frees may wait for a record with the other one changed already, so at any
time the usage exceeds what the log says by what such calls have still to take away.
-/

namespace Sbckernel.Fs.Quota

open Function Lib List Option

/-! ## What the log says -/

def total (use : Use) (r : Record) : List Event → Nat
  | [] => 0
  | e :: l => if e.use = use ∧ e.r = r then total use r l + e.number else total use r l

/-- At no time was more freed than there had been. -/
def NoneMissing (start : Nat) (r : Record) : List Event → Prop
  | [] => True
  | e :: l => NoneMissing start r l ∧ total .freed r (e :: l) ≤ start + total .granted r (e :: l)

/-- A number that is meant for each of the records, as far as it is meant for `r`. -/
def share (l : List Record) (number : Nat) (r : Record) : Int := (l.count r * number : Nat)

theorem share_nil (number : Nat) (r : Record) : share [] number r = 0 := by
  simp [share]

theorem share_cons (q : Record) (l : List Record) (number : Nat) (r : Record) :
    share (q :: l) number r = share l number r + if r = q then (number : Int) else 0 := by
  rw [share, share, count_cons, Nat.add_mul]
  by_cases hrq : r = q
  · simp [hrq]
  · simp [hrq, Ne.symm hrq]

theorem share_nonneg (l : List Record) (number : Nat) (r : Record) : 0 ≤ share l number r :=
  Int.natCast_nonneg _

theorem total_noted (use use' : Use) (l : List Record) (number : Nat) (log : List Event)
    (r : Record) : (total use r (l.map (⟨use', ·, number⟩) ++ log) : Int) =
      total use r log + if use' = use then share l number r else 0 := by
  induction l with
  | nil => simp [share_nil]
  | cons q l ih =>
    rw [share_cons, map_cons, cons_append, total]
    by_cases huse : use' = use
    · by_cases hrq : r = q
      · rw [if_pos ⟨huse, hrq.symm⟩, if_pos huse, if_pos hrq]
        rw [if_pos huse] at ih
        dsimp only
        omega
      · rw [if_neg fun h => hrq h.2.symm, if_neg hrq, add_zero, ih]
    · rw [if_neg fun h => huse h.1, ih, if_neg huse, if_neg huse]

theorem NoneMissing.of_append {start : Nat} {r : Record} {events log : List Event}
    (h : NoneMissing start r (events ++ log)) : NoneMissing start r log := by
  induction events with
  | nil => exact h
  | cons e events ih => exact ih h.1

theorem NoneMissing.freed_le {start : Nat} {r : Record} {log : List Event}
    (h : NoneMissing start r log) : total .freed r log ≤ start + total .granted r log := by
  cases log with
  | nil => exact Nat.zero_le _
  | cons e log => exact h.2

/-! ## The table -/

/-- Nobody is over the limit, and the usage is what the log says and what is `due`. -/
structure Books {τ : Type*} (table : Record → Dquot) (due : Record → Int) (s : State τ) :
    Prop where
  hard : ∀ r, (s.dquot r).dqBhardlimit = (table r).dqBhardlimit
  fake : ∀ r, (s.dquot r).fake = true → (s.dquot r).dqBhardlimit = 0
  within : ∀ r, (s.dquot r).dqBhardlimit ≠ 0 → (s.dquot r).dqCurblocks ≤ (s.dquot r).dqBhardlimit
  usage : ∀ r, (s.dquot r).dqBhardlimit ≠ 0 → NoneMissing (table r).dqCurblocks r s.log →
    ((s.dquot r).dqCurblocks + total .freed r s.log : Int) =
      (table r).dqCurblocks + total .granted r s.log + due r

/-- The records differ at most in what is not the usage or a limit. -/
structure SameUse {τ : Type*} (s s' : State τ) : Prop where
  cur : ∀ r, (s'.dquot r).dqCurblocks = (s.dquot r).dqCurblocks
  hard : ∀ r, (s'.dquot r).dqBhardlimit = (s.dquot r).dqBhardlimit
  fake : ∀ r, (s'.dquot r).fake = (s.dquot r).fake
  log : s'.log = s.log

section
variable {τ : Type*} {table : Record → Dquot} {s s' : State τ} {caller : Caller}
  {l : List Record} {p : Phase} {inode : Inode}
variable {r : Record} {dq : Dquot} {number : Nat} {t : τ} {due due' : Record → Int}

theorem setDquot_self (s : State τ) (r : Record) (dq : Dquot) : (setDquot s r dq).dquot r = dq := by
  simp [setDquot]

theorem setDquot_of_ne {q : Record} (h : q ≠ r) (dq : Dquot) :
    (setDquot s r dq).dquot q = s.dquot q := by
  simp [setDquot, h]

theorem SameUse.refl (s : State τ) : SameUse s s :=
  ⟨fun _ => rfl, fun _ => rfl, fun _ => rfl, rfl⟩

theorem SameUse.trans {s'' : State τ} (h : SameUse s s') (h' : SameUse s' s'') : SameUse s s'' :=
  ⟨fun r => (h'.cur r).trans (h.cur r), fun r => (h'.hard r).trans (h.hard r),
    fun r => (h'.fake r).trans (h.fake r), h'.log.trans h.log⟩

theorem Books.same (h : Books table due s) (hs : SameUse s s') : Books table due s' where
  hard r := by rw [hs.hard, h.hard]
  fake r hf := by
    rw [hs.fake] at hf
    rw [hs.hard, h.fake r hf]
  within r hr := by
    rw [hs.hard] at hr ⊢
    rw [hs.cur]
    exact h.within r hr
  usage r hr := by
    rw [hs.hard] at hr
    rw [hs.cur, hs.log]
    exact h.usage r hr

/-- One record is replaced by one with the same usage and limit. -/
theorem sameUse_setDquot (hcur : dq.dqCurblocks = (s.dquot r).dqCurblocks)
    (hhard : dq.dqBhardlimit = (s.dquot r).dqBhardlimit) (hfake : dq.fake = (s.dquot r).fake) :
    SameUse s (setDquot s r dq) := by
  refine ⟨fun q => ?_, fun q => ?_, fun q => ?_, rfl⟩
  all_goals
    by_cases hq : q = r
    · rw [hq, setDquot_self]
      assumption
    · rw [setDquot_of_ne hq]

theorem sameUse_setLocked (s : State τ) (r : Record) (b : Bool) : SameUse s (setLocked s r b) :=
  sameUse_setDquot rfl rfl rfl

theorem Books.congr (h : Books table due s) (hdue : ∀ r, due' r = due r) : Books table due' s :=
  ⟨h.hard, h.fake, h.within, fun r hr hnone => by rw [hdue, h.usage r hr hnone]⟩

/-- One record gets another usage. -/
theorem Books.change (h : Books table due s) (d : Int)
    (hhard : dq.dqBhardlimit = (s.dquot r).dqBhardlimit) (hfake : dq.fake = (s.dquot r).fake)
    (hwithin : dq.dqBhardlimit ≠ 0 → dq.dqCurblocks ≤ dq.dqBhardlimit)
    (husage : dq.dqBhardlimit ≠ 0 → NoneMissing (table r).dqCurblocks r s.log →
      (dq.dqCurblocks : Int) = (s.dquot r).dqCurblocks + d) :
    Books table (fun q => due q + if q = r then d else 0) (setDquot s r dq) := by
  refine ⟨fun q => ?_, fun q => ?_, fun q => ?_, fun q => ?_⟩
  all_goals
    by_cases hq : q = r
  · rw [hq, setDquot_self, hhard, h.hard]
  · rw [setDquot_of_ne hq, h.hard]
  · rw [hq, setDquot_self, hhard, hfake]
    exact h.fake r
  · rw [setDquot_of_ne hq]
    exact h.fake q
  · rw [hq, setDquot_self]
    exact hwithin
  · rw [setDquot_of_ne hq]
    exact h.within q
  · rw [hq, setDquot_self, if_pos rfl]
    intro hne hnone
    have hbefore := h.usage r (hhard ▸ hne) hnone
    have hcur := husage hne hnone
    show (dq.dqCurblocks + total .freed r s.log : Int) =
      (table r).dqCurblocks + total .granted r s.log + _
    omega
  · rw [setDquot_of_ne hq, if_neg hq, add_zero]
    exact h.usage q

theorem Books.incrBlocks [DecidableEq τ] (h : Books table due s)
    (hroom : (s.dquot r).dqBhardlimit ≠ 0 →
      (s.dquot r).dqCurblocks + number ≤ (s.dquot r).dqBhardlimit ∧
      (s.dquot r).dqBhardlimit < 2 ^ 32) :
    Books table (fun q => due q + if q = r then (number : Int) else 0) (incrBlocks s r number) := by
  have hmod : (s.dquot r).dqBhardlimit ≠ 0 →
      ((s.dquot r).dqCurblocks + number) % 2 ^ 32 = (s.dquot r).dqCurblocks + number := by
    intro hne
    exact Nat.mod_eq_of_lt (lt_of_le_of_lt (hroom hne).1 (hroom hne).2)
  refine h.change number rfl rfl ?_ ?_
  · intro hne
    rw [hmod hne]
    exact (hroom hne).1
  · intro hne _
    rw [hmod hne]
    exact Nat.cast_add ..

/-- What is due is taken away. -/
theorem Books.decrBlocks [DecidableEq τ] (h : Books table due s) (hdue : number ≤ due r) :
    Books table (fun q => due q + if q = r then -(number : Int) else 0)
      (decrBlocks s r number) := by
  refine h.change (-(number : Int)) rfl rfl ?_ ?_
  · intro hne
    have hle := h.within r hne
    dsimp only
    split <;> omega
  · intro hne hnone
    have husage := h.usage r hne hnone
    have hle := hnone.freed_le
    dsimp only
    split <;> omega

/-- What is granted is not due any more, and what is freed is. -/
theorem Books.note (h : Books table due s) (use : Use) (l : List Record) (number : Nat) :
    Books table (fun r => due r + if use = .freed then share l number r else -share l number r)
      (note s use l number) := by
  refine ⟨h.hard, h.fake, h.within, fun r hne hnone => ?_⟩
  have husage := h.usage r hne hnone.of_append
  have hgranted := total_noted .granted use l number s.log r
  have hfreed := total_noted .freed use l number s.log r
  rw [Quota.note]
  dsimp only
  cases use <;> simp only [reduceCtorEq, if_true, if_false] at hgranted hfreed ⊢ <;> omega

/-! ## The loops -/

theorem checkBdq_same (caller : Caller) (r : Record) (dq : Dquot) (number : Nat) :
    (checkBdq caller r dq number).1.dqCurblocks = dq.dqCurblocks ∧
      (checkBdq caller r dq number).1.dqBhardlimit = dq.dqBhardlimit ∧
      (checkBdq caller r dq number).1.fake = dq.fake ∧
      (checkBdq caller r dq number).1.locked = dq.locked := by
  unfold checkBdq
  dsimp only
  split_ifs <;> exact ⟨rfl, rfl, rfl, rfl⟩

/-- A record that lets an unprivileged task through has room. -/
theorem checkBdq_ok
    (hok : (checkBdq caller r dq number).2 = .quotaOk) (huser : caller.fsuser = false) :
    number = 0 ∨ dq.fake = true ∨ dq.dqBhardlimit = 0 ∨
      (dq.dqCurblocks + number) % 2 ^ 32 ≤ dq.dqBhardlimit := by
  unfold checkBdq at hok
  dsimp only at hok
  split at hok
  next hskip => exact hskip.elim .inl fun hf => .inr (.inl hf)
  next hskip =>
    split at hok
    next hhard => cases hok
    next hhard =>
      rw [huser] at hhard
      by_cases hzero : dq.dqBhardlimit = 0
      · exact .inr (.inr (.inl hzero))
      · refine .inr (.inr (.inr (Nat.le_of_not_lt fun hgt => hhard ⟨hzero, hgt, ?_⟩)))
        exact Bool.false_ne_true

theorem checkLoop_same (caller : Caller) (number : Nat) (s : State τ) (l : List Record) :
    SameUse s (checkLoop caller number s l).1 ∧
      (∀ r, ((checkLoop caller number s l).1.dquot r).locked = (s.dquot r).locked) ∧
      (checkLoop caller number s l).1.phase = s.phase := by
  induction l generalizing s with
  | nil => exact ⟨.refl s, fun _ => rfl, rfl⟩
  | cons r rest ih =>
    obtain ⟨hcur, hhard, hfake, hlocked⟩ := checkBdq_same caller r (s.dquot r) number
    have hsame : SameUse s (setDquot s r (checkBdq caller r (s.dquot r) number).1) :=
      sameUse_setDquot hcur hhard hfake
    have hlock : ∀ q, ((setDquot s r (checkBdq caller r (s.dquot r) number).1).dquot q).locked =
        (s.dquot q).locked := by
      intro q
      by_cases hq : q = r
      · rw [hq, setDquot_self, hlocked]
      · rw [setDquot_of_ne hq]
    unfold checkLoop
    split
    next dq heq =>
      rw [heq] at hsame hlock
      obtain ⟨hrest, hlocks, hphase⟩ := ih (setDquot s r dq)
      exact ⟨hsame.trans hrest, fun q => (hlocks q).trans (hlock q), hphase⟩
    next dq res hres heq =>
      rw [heq] at hsame hlock
      exact ⟨hsame, hlock, rfl⟩

/-- All the records that were looked at have room. -/
theorem checkLoop_ok {s : State τ}
    (hok : (checkLoop caller number s l).2 = .quotaOk) (huser : caller.fsuser = false) :
    ∀ r ∈ l, number = 0 ∨ (s.dquot r).fake = true ∨ (s.dquot r).dqBhardlimit = 0 ∨
      ((s.dquot r).dqCurblocks + number) % 2 ^ 32 ≤ (s.dquot r).dqBhardlimit := by
  induction l generalizing s with
  | nil => exact fun r hr => absurd hr not_mem_nil
  | cons q rest ih =>
    unfold checkLoop at hok
    split at hok
    next dq heq =>
      have hsame := checkBdq_same caller q (s.dquot q) number
      rw [heq] at hsame
      have huse : SameUse s (setDquot s q dq) :=
        sameUse_setDquot hsame.1 hsame.2.1 hsame.2.2.1
      intro r hr
      rcases mem_cons.mp hr with rfl | hr
      · exact checkBdq_ok (by rw [heq]) huser
      · have hroom := ih hok r hr
        rwa [huse.cur, huse.hard, huse.fake] at hroom
    next dq res hres heq => exact absurd hok hres

variable [DecidableEq τ]

theorem sameUse_goto (s : State τ) (t : τ) (p : Phase) : SameUse s (goto s t p) :=
  ⟨fun _ => rfl, fun _ => rfl, fun _ => rfl, rfl⟩

/-- All is added at once when no record is locked. -/
theorem incrLoop_unlocked (all : List Record) (h : Books table due s)
    (hnodup : l.Nodup) (hunlocked : ∀ r ∈ l, (s.dquot r).locked = false)
    (hroom : ∀ r ∈ l, (s.dquot r).dqBhardlimit ≠ 0 →
      (s.dquot r).dqCurblocks + number ≤ (s.dquot r).dqBhardlimit ∧
      (s.dquot r).dqBhardlimit < 2 ^ 32) :
    ∃ s', incrLoop s t all number l = finish s' t .quotaOk ∧
      Books table (fun r => due r + share l number r) s' ∧ s'.phase = s.phase := by
  induction l generalizing s due with
  | nil => exact ⟨s, rfl, h.congr fun r => by rw [share_nil, add_zero], rfl⟩
  | cons r rest ih =>
    unfold incrLoop
    rw [if_neg (Bool.eq_false_iff.mp (hunlocked r mem_cons_self))]
    have hother : ∀ q ∈ rest, (incrBlocks s r number).dquot q = s.dquot q := by
      intro q hq
      refine setDquot_of_ne (fun hqr => ?_) _
      exact (nodup_cons.mp hnodup).1 (hqr ▸ hq)
    obtain ⟨s', heq, hbooks, hphase⟩ := ih (h.incrBlocks (hroom r mem_cons_self))
      (nodup_cons.mp hnodup).2 (fun q hq => by
        rw [hother q hq]
        exact hunlocked q (mem_cons_of_mem r hq)) (fun q hq => by
        rw [hother q hq]
        exact hroom q (mem_cons_of_mem r hq))
    refine ⟨s', heq, hbooks.congr fun q => ?_, hphase⟩
    rw [share_cons]
    omega

theorem incrLoop_not_refused (s : State τ) (t : τ) (all : List Record) (number : Nat)
    (l : List Record) : (incrLoop s t all number l).2 ≠ some .noQuota := by
  induction l generalizing s with
  | nil => exact fun h => Result.noConfusion (some.inj h)
  | cons r rest ih =>
    unfold incrLoop
    split
    next hlocked => exact fun h => some_ne_none _ h.symm
    next hlocked => exact ih _

/-- What a task that waits has still to take away. -/
def Phase.left (r : Record) : Phase → Int
  | .decr records number => share records number r
  | _ => 0

theorem decrLoop_books (t : τ) (number : Nat) (l : List Record) (hdue : ∀ r, 0 ≤ due r)
    (h : Books table (fun r => due r + share l number r) s) :
    ∃ p, (∀ all records n, p ≠ .incr all records n) ∧
      Books table (fun r => due r + p.left r) (decrLoop s t number l).1 ∧
      (decrLoop s t number l).1.phase = update s.phase t p := by
  induction l generalizing s with
  | nil =>
    refine ⟨.idle, fun _ _ _ => Phase.noConfusion, (h.same (sameUse_goto s t _)).congr ?_, rfl⟩
    intro r
    rw [share_nil]
    rfl
  | cons r rest ih =>
    unfold decrLoop
    split
    next hlocked =>
      exact ⟨.decr (r :: rest) number, fun _ _ _ => Phase.noConfusion,
        h.same (sameUse_goto s t _), rfl⟩
    next hlocked =>
      have hle : number ≤ due r + share (r :: rest) number r := by
        have hothers := hdue r
        have hrest := share_nonneg rest number r
        rw [share_cons, if_pos rfl]
        omega
      refine ih ((h.decrBlocks hle).congr fun q => ?_)
      rw [share_cons]
      split <;> omega

/-! ## Runs -/

theorem nodup_records (inode : Inode) : inode.records.Nodup := by
  refine List.Nodup.filterMap (fun k k' r hr hr' => ?_) (by decide)
  obtain ⟨id, -, rfl⟩ := map_eq_some_iff.mp hr
  obtain ⟨id', -, heq⟩ := map_eq_some_iff.mp hr'
  exact (congrArg Prod.fst heq).symm

/-- An allocation finds none of its records locked, and the sums that it makes are below
`2 ^ 32`. -/
def AllUnlocked (s : State τ) : Action τ → Prop
  | .alloc _ inode number _ => ∀ r ∈ inode.records,
      (s.dquot r).locked = false ∧ number + (s.dquot r).dqBhardlimit < 2 ^ 32
  | _ => True

instance instDecidableAllUnlocked (s : State τ) : (a : Action τ) → Decidable (AllUnlocked s a)
  | .alloc _ inode number _ => inferInstanceAs (Decidable (∀ r ∈ inode.records,
      (s.dquot r).locked = false ∧ number + (s.dquot r).dqBhardlimit < 2 ^ 32))
  | .free _ _ _ => .isTrue trivial
  | .write _ _ => .isTrue trivial
  | .wake _ => .isTrue trivial
  | .written _ _ => .isTrue trivial

variable [Fintype τ]

/-- What all the calls that free have still to take away from a record. -/
def pending (s : State τ) (r : Record) : Int := weight (Phase.left r) Finset.univ s.phase

/-- The books are in order, and no allocation waits with an old look at a record. -/
structure Inv (table : Record → Dquot) (s : State τ) : Prop where
  books : Books table (pending s) s
  quiet : ∀ t all records number, s.phase t ≠ .incr all records number

omit [DecidableEq τ] in
theorem Phase.left_nonneg (r : Record) (p : Phase) : 0 ≤ p.left r := by
  cases p with
  | decr records number => exact share_nonneg records number r
  | idle | incr | writeWait | writing => exact le_rfl

omit [DecidableEq τ] in
/-- The others have not less than nothing to take away. -/
theorem left_le_pending (s : State τ) (t : τ) (r : Record) : (s.phase t).left r ≤ pending s r :=
  Finset.single_le_sum (f := fun t => (s.phase t).left r) (fun _ _ => Phase.left_nonneg r _)
    (Finset.mem_univ t)

section
variable (h : Inv table s)
include h

/-- The phase of one task changes, and the books with it. -/
theorem Inv.update (hbooks : Books table due s') (hp : ∀ all records n, p ≠ .incr all records n)
    (hphase : s'.phase = update s.phase t p)
    (hdue : ∀ r, due r = pending s r + (p.left r - (s.phase t).left r)) : Inv table s' := by
  refine ⟨hbooks.congr fun r => ?_, fun u all records number => ?_⟩
  · rw [hdue, pending, hphase, weight_update (Finset.mem_univ t)]
    rfl
  · rw [hphase]
    by_cases hu : u = t
    · rw [hu, update_self]
      exact hp all records number
    · rw [update_of_ne hu]
      exact h.quiet u all records number

theorem Inv.goto (huse : SameUse s s') (hphase : s'.phase = s.phase)
    (hleft : ∀ r, p.left r = (s.phase t).left r)
    (hp : ∀ all records n, p ≠ .incr all records n := by simp) : Inv table (goto s' t p) := by
  refine h.update ((h.books.same huse).same (sameUse_goto s' t p)) (t := t) hp ?_ fun r => ?_
  · rw [← hphase]
    rfl
  · rw [hleft, sub_self, add_zero]

theorem Inv.alloc (hidle : s.phase t = .idle)
    (huser : caller.fsuser = false) (hall : AllUnlocked s (.alloc t inode number caller)) :
    Inv table (noteGrant inode.records number (dquotAllocBlock s t inode number caller)).1 := by
  obtain ⟨huse, hlock, hphase⟩ := checkLoop_same caller number s inode.records
  have hok : (checkLoop caller number s inode.records).2 = .quotaOk → _ := fun hok =>
    checkLoop_ok hok huser
  unfold dquotAllocBlock
  split
  next s1 heq =>
    rw [heq] at huse hlock hphase hok
    have hroom : ∀ r ∈ inode.records, (s1.dquot r).dqBhardlimit ≠ 0 →
        (s1.dquot r).dqCurblocks + number ≤ (s1.dquot r).dqBhardlimit ∧
        (s1.dquot r).dqBhardlimit < 2 ^ 32 := by
      intro r hr hne
      rw [huse.hard] at hne
      rw [huse.hard, huse.cur]
      have hle := h.books.within r hne
      have hsum := (hall r hr).2
      obtain hzero | hfake | hnone | hfits := hok rfl r hr
      · omega
      · exact absurd (h.books.fake r hfake) hne
      · exact absurd hnone hne
      · rw [Nat.mod_eq_of_lt (by omega)] at hfits
        omega
    have hunlocked : ∀ r ∈ inode.records, (s1.dquot r).locked = false := by
      intro r hr
      rw [hlock, (hall r hr).1]
    obtain ⟨s2, hfinish, hbooks, hphase2⟩ := incrLoop_unlocked (t := t) inode.records
      (h.books.same huse) (nodup_records inode) hunlocked hroom
    have hgrant : (finish s2 t .quotaOk).2 = some .quotaOk := rfl
    rw [hfinish, noteGrant, if_pos hgrant]
    refine h.update (t := t) (p := .idle)
      ((hbooks.same (sameUse_goto s2 t .idle)).note .granted inode.records number)
      (fun _ _ _ => Phase.noConfusion) ?_ fun r => ?_
    · rw [← hphase, ← hphase2]
      rfl
    · rw [hidle]
      show pending s r + share inode.records number r + -share inode.records number r = _
      rw [add_neg_cancel_right, sub_self, add_zero]
  next s1 res hres heq =>
    rw [heq] at huse hphase
    have hgrant : (finish s1 t res).2 ≠ some .quotaOk := fun heq => hres (some.inj heq)
    rw [noteGrant, if_neg hgrant]
    exact h.goto huse hphase fun r => by rw [hidle]

/-- A call that frees goes on with the records it has left. -/
theorem Inv.decr (log : List Event) {records : List Record}
    (hleft : ∀ r, (s.phase t).left r ≤ pending s r)
    (hbooks : Books table
      (fun r => pending s r - (s.phase t).left r + share records number r) { s with log := log }) :
    Inv table (decrLoop { s with log := log } t number records).1 := by
  obtain ⟨p, hp, hbooks, hphase⟩ := decrLoop_books t number records
    (fun r => sub_nonneg.mpr (hleft r)) hbooks
  refine h.update hbooks hp hphase fun r => ?_
  omega

theorem Inv.writeLock (hleft : ∀ r, (s.phase t).left r = 0) (r : Record) :
    Inv table (writeLock s t r).1 := by
  unfold Quota.writeLock
  split
  next hlocked => exact h.goto (.refl s) rfl fun q => (hleft q).symm
  next hlocked => exact h.goto (sameUse_setLocked s r true) rfl fun q => (hleft q).symm

theorem Inv.writeDone (hleft : ∀ r, (s.phase t).left r = 0) (r : Record) (ok : Bool) :
    Inv table (writeDone s t r ok).1 := by
  have hmod : SameUse s (setDquot s r { s.dquot r with mod := false }) :=
    sameUse_setDquot rfl rfl rfl
  cases ok with
  | false => exact h.goto (sameUse_setLocked s r false) rfl fun q => (hleft q).symm
  | true =>
    exact h.goto (hmod.trans (sameUse_setLocked _ r false)) rfl fun q => (hleft q).symm

theorem Inv.step {a : Action τ} {out : State τ × Option Result} (huser : Unprivileged a = true)
    (hall : AllUnlocked s a) (hstep : step s a = some out) : Inv table out.1 := by
  cases a with
  | alloc t inode number caller =>
    obtain ⟨hidle, ⟨⟩⟩ := ite_none_right_eq_some.mp hstep
    exact h.alloc hidle (by simpa [Unprivileged] using huser) hall
  | free t inode number =>
    obtain ⟨hidle, ⟨⟩⟩ := ite_none_right_eq_some.mp hstep
    have hleft : ∀ r, (s.phase t).left r = 0 := fun r => by rw [hidle]; rfl
    refine h.decr _ (left_le_pending s t)
      ((h.books.note .freed inode.records number).congr fun r => ?_)
    rw [hleft, sub_zero]
    rfl
  | write t q =>
    obtain ⟨hidle, ⟨⟩⟩ := ite_none_right_eq_some.mp hstep
    have hleft : ∀ r, (s.phase t).left r = 0 := fun r => by rw [hidle]; rfl
    unfold writeDquot
    split
    next hmod => exact h.writeLock hleft q
    next hmod => exact h.goto (.refl s) rfl fun r => (hleft r).symm
  | wake t =>
    cases hphase : s.phase t with
    | idle | writing => simp [Quota.step, hphase] at hstep
    | incr all records number => exact absurd hphase (h.quiet t all records number)
    | decr records number =>
      simp only [Quota.step, hphase, some.injEq] at hstep
      subst hstep
      refine h.decr s.log (left_le_pending s t) (h.books.congr fun r => ?_)
      rw [hphase, Phase.left]
      omega
    | writeWait q =>
      simp only [Quota.step, hphase, some.injEq] at hstep
      subst hstep
      exact h.writeLock (fun r => by rw [hphase]; rfl) q
  | written t ok =>
    cases hphase : s.phase t with
    | writing q =>
      simp only [Quota.step, hphase, some.injEq] at hstep
      subst hstep
      exact h.writeDone (fun r => by rw [hphase]; rfl) q ok
    | _ => simp [Quota.step, hphase] at hstep

end

omit [DecidableEq τ] in
theorem pending_idle (h : ∀ t, s.phase t = .idle) (r : Record) : pending s r = 0 := by
  unfold pending weight
  exact Finset.sum_eq_zero fun t _ => by rw [h t]; rfl

omit [DecidableEq τ] in
theorem inv_init (h : Fresh table) : Inv table (⟨table, fun _ => .idle, []⟩ : State τ) where
  books := by
    refine ⟨fun _ => rfl, h.fake, h.within, fun r _ _ => ?_⟩
    rw [pending_idle fun _ => rfl]
    rfl
  quiet _ _ _ _ := Phase.noConfusion

omit [Fintype τ] in
/-- A refused allocation has changed no usage. -/
theorem alloc_refused
    (h : dquotAllocBlock s t inode number caller = (s', some .noQuota)) : SameUse s s' := by
  have huse := (checkLoop_same caller number s inode.records).1
  unfold dquotAllocBlock at h
  split at h
  next s1 heq => exact absurd (congrArg Prod.snd h) (incrLoop_not_refused s1 t _ number _)
  next s1 res hres heq =>
    rw [heq] at huse
    cases h
    exact huse.trans (sameUse_goto s1 t .idle)

/-- In a run in which no allocation finds a record locked, nobody gets over the limit, refused
allocations change nothing, and the usage is what was there, with what was granted, without what
was freed, but for what calls that free have still to take away. -/
theorem quota_limits (h : (quotas τ AllUnlocked table).Reachable s) :
    (∀ r, (table r).dqBhardlimit ≠ 0 → (s.dquot r).dqBhardlimit = (table r).dqBhardlimit ∧
      (s.dquot r).dqCurblocks ≤ (s.dquot r).dqBhardlimit) ∧
    (∀ r, (table r).dqBhardlimit ≠ 0 → NoneMissing (table r).dqCurblocks r s.log →
      ((s.dquot r).dqCurblocks + total .freed r s.log : Int) =
        (table r).dqCurblocks + total .granted r s.log + pending s r) ∧
    ∀ t inode number caller s', step s (.alloc t inode number caller) = some (s', some .noQuota) →
      (∀ r, (s'.dquot r).dqCurblocks = (s.dquot r).dqCurblocks) ∧ s'.log = s.log := by
  have hinv : Inv table s := by
    refine h.invariant ?_ ?_
    · rintro s ⟨hfresh, rfl⟩
      exact inv_init hfresh
    · rintro s s' hs ⟨a, r, huser, hall, hstep⟩
      exact hs.step huser hall hstep
  refine ⟨fun r hr => ?_, fun r hr hnone => ?_, fun t inode number caller s' hstep => ?_⟩
  · have hhard := hinv.books.hard r
    exact ⟨hhard, hinv.books.within r (hhard ▸ hr)⟩
  · exact hinv.books.usage r (hinv.books.hard r ▸ hr) hnone
  · obtain ⟨-, heq⟩ := ite_none_right_eq_some.mp hstep
    have hres := congrArg Prod.snd (some.inj heq)
    rw [noteGrant] at heq hres
    split at heq
    next hgrant =>
      rw [if_pos hgrant, hgrant] at hres
      cases some.inj hres
    next =>
      have huse := alloc_refused (some.inj heq)
      exact ⟨huse.cur, huse.log⟩

end

/-! ## Two allocations behind one write -/

/-- A user with a limit of 8 blocks, and no other records. -/
def eightBlocks : Record → Dquot := fun r =>
  { dqBhardlimit := if r = (.usr, 1) then 8 else 0
    dqBsoftlimit := 0
    dqCurblocks := 0
    dqBtime := 0
    locked := false
    mod := false
    blks := false
    fake := false }

def ofUser : Inode := ⟨fun k => if k = .usr then some 1 else none⟩

def caller : Caller := ⟨false, 1, 1, 0, fun _ => 0⟩

def emptyTable : State (Fin 3) := ⟨eightBlocks, fun _ => .idle, []⟩

theorem emptyTable_reachable (allowed : State (Fin 3) → Action (Fin 3) → Prop) :
    (quotas (Fin 3) allowed eightBlocks).Reachable emptyTable :=
  .init ⟨⟨fun _ h => Bool.noConfusion h, fun _ _ => Nat.zero_le _, fun _ => rfl⟩, rfl⟩

/-- Three blocks are allocated, and one is freed. -/
theorem quota_limits_three :
    ∃ s, (quotas (Fin 3) AllUnlocked eightBlocks).Reachable s ∧
      s.log = [⟨.freed, (.usr, 1), 1⟩, ⟨.granted, (.usr, 1), 3⟩] ∧
      (s.dquot (.usr, 1)).dqCurblocks + 1 = 3 ∧
      (s.dquot (.usr, 1)).dqCurblocks ≤ (s.dquot (.usr, 1)).dqBhardlimit := by
  obtain ⟨s, hreach, hlog, hidle⟩ := (emptyTable_reachable AllUnlocked).runs (f := step)
    (g := fun s a => Unprivileged a = true ∧ AllUnlocked s a)
    (l := [.alloc 0 ofUser 3 caller, .free 0 ofUser 1])
    (p := fun s => s.log = [⟨.freed, (.usr, 1), 1⟩, ⟨.granted, (.usr, 1), 3⟩] ∧
      ∀ t, s.phase t = .idle)
    (fun _ a _ r hg hstep => ⟨a, r, hg.1, hg.2, hstep⟩) (by decide)
  obtain ⟨hlimit, husage, -⟩ := quota_limits hreach
  refine ⟨s, hreach, hlog, ?_, (hlimit (.usr, 1) (by decide)).2⟩
  have hbooks := husage (.usr, 1) (by decide)
  rw [hlog, pending_idle hidle] at hbooks
  exact Int.ofNat.inj (hbooks ⟨⟨trivial, by decide⟩, by decide⟩)

/-- The record is being written when two tasks allocate five blocks each: both are let through,
and more blocks are in use than the limit allows. -/
theorem limit_overrun :
    ∃ s, (quotas (Fin 3) (fun _ _ => True) eightBlocks).Reachable s ∧
      (s.dquot (.usr, 1)).dqBhardlimit = 8 ∧ (s.dquot (.usr, 1)).dqCurblocks = 11 := by
  exact (emptyTable_reachable _).runs (f := step) (g := fun _ a => Unprivileged a = true)
    (l := [.alloc 0 ofUser 1 caller, .write 0 (.usr, 1), .alloc 1 ofUser 5 caller,
      .alloc 2 ofUser 5 caller, .written 0 true, .wake 1, .wake 2])
    (fun _ a _ r huser hstep => ⟨a, r, huser, trivial, hstep⟩) (by decide)

end Sbckernel.Fs.Quota
