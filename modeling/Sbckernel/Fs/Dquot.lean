import Mathlib.Algebra.Order.Ring.Int
import Sbckernel.Lib.Reach

/-!
# Disk quotas (`fs/dquot.c`)

An inode has up to two quota records, one of its user and one of its group.
`dquot_alloc_block` looks at both of them, and then adds to both of them. A record is
locked while it is changed; the change itself does not sleep, but a record that is being
written to the quota file stays locked until the write is over, and who wants it sleeps.

A call is run up to the next sleep, which is in `lock_dquot` or in the write. A task that
waits for a record may look again at any time. The rest of the records of an inode, the
time and who the caller is are arguments. `log` is for the record only: what was granted, when
`dquot_alloc_block` returns `QUOTA_OK`, and what is freed, when `dquot_free_block` is called.
Inode quotas, the messages and the wait queue are left out.
-/

namespace Sbckernel.Fs.Quota

open Lib

inductive Kind where
  | usr
  | grp
  deriving DecidableEq, Repr

/-- A quota record is found by its kind and by the user's or the group's number. -/
abbrev Record := Kind × Nat

structure Dquot where
  dqBhardlimit : Nat
  dqBsoftlimit : Nat
  dqCurblocks : Nat
  dqBtime : Nat
  locked : Bool
  mod : Bool
  blks : Bool
  fake : Bool
  deriving DecidableEq, Repr

structure Inode where
  iDquot : Kind → Option Nat

/-- The records that an inode has, in the order of the loops. -/
def Inode.records (inode : Inode) : List Record :=
  [Kind.usr, Kind.grp].filterMap fun k => (inode.iDquot k).map fun id => (k, id)

/-- The task that calls, the time, and the grace times of the mount. -/
structure Caller where
  fsuser : Bool
  fsuid : Nat
  fsgid : Nat
  currentTime : Nat
  mntBexp : Kind → Nat

inductive Result where
  | quotaOk
  | noQuota
  | done
  deriving DecidableEq, Repr

/-- Where a task sleeps: it waits for the first of the records that it has still to change, it
waits to write one, or it writes one. An allocation also knows `all` records of its inode. -/
inductive Phase where
  | idle
  | incr (all records : List Record) (number : Nat)
  | decr (records : List Record) (number : Nat)
  | writeWait (r : Record)
  | writing (r : Record)
  deriving DecidableEq, Repr

inductive Use where
  | granted
  | freed
  deriving DecidableEq, Repr

structure Event where
  use : Use
  r : Record
  number : Nat
  deriving DecidableEq, Repr

structure State (τ : Type*) where
  dquot : Record → Dquot
  phase : τ → Phase
  log : List Event

def needPrintWarning (caller : Caller) (r : Record) : Bool :=
  match r.1 with
  | .usr => caller.fsuid == r.2
  | .grp => caller.fsgid == r.2

/-- The record, and whether `blocks` more of them are too many. -/
def checkBdq (caller : Caller) (r : Record) (dq : Dquot) (blocks : Nat) : Dquot × Result :=
  let sum := (dq.dqCurblocks + blocks) % 2 ^ 32
  if blocks = 0 ∨ dq.fake then (dq, .quotaOk)
  else if dq.dqBhardlimit ≠ 0 ∧ sum > dq.dqBhardlimit ∧ ¬caller.fsuser then
    (if ¬dq.blks ∧ needPrintWarning caller r then { dq with blks := true } else dq, .noQuota)
  else if dq.dqBsoftlimit ≠ 0 ∧ sum > dq.dqBsoftlimit ∧ dq.dqBtime ≠ 0 ∧
      caller.currentTime ≥ dq.dqBtime ∧ ¬caller.fsuser then
    (dq, .noQuota)
  else if dq.dqBsoftlimit ≠ 0 ∧ sum > dq.dqBsoftlimit ∧ dq.dqBtime = 0 ∧ ¬caller.fsuser then
    ({ dq with dqBtime := caller.currentTime + caller.mntBexp r.1 }, .quotaOk)
  else (dq, .quotaOk)

section
variable {τ : Type*} [DecidableEq τ]

variable (s : State τ) (t : τ)

def goto (p : Phase) : State τ :=
  { s with phase := Function.update s.phase t p }

/-- The call returns. -/
def finish (r : Result) : State τ × Option Result := (goto s t .idle, some r)

def setDquot (r : Record) (dq : Dquot) : State τ :=
  { s with dquot := Function.update s.dquot r dq }

/-! ## `dquot_alloc_block` -/

/-- The first loop of `dquot_alloc_block`. It does not sleep. -/
def checkLoop (caller : Caller) (number : Nat) (s : State τ) : List Record → State τ × Result
  | [] => (s, .quotaOk)
  | r :: rest =>
    match checkBdq caller r (s.dquot r) number with
    | (dq, .quotaOk) => checkLoop caller number (setDquot s r dq) rest
    | (dq, res) => (setDquot s r dq, res)

/-- `dquot_incr_blocks` with the lock taken. -/
def incrBlocks (r : Record) (number : Nat) : State τ :=
  let dq := s.dquot r
  setDquot s r { dq with dqCurblocks := (dq.dqCurblocks + number) % 2 ^ 32, mod := true }

/-- The second loop of `dquot_alloc_block`, up to a record that is locked. -/
def incrLoop (s : State τ) (t : τ) (all : List Record) (number : Nat) :
    List Record → State τ × Option Result
  | [] => finish s t .quotaOk
  | r :: rest =>
    if (s.dquot r).locked then (goto s t (.incr all (r :: rest) number), none)
    else incrLoop (incrBlocks s r number) t all number rest

def dquotAllocBlock (inode : Inode) (number : Nat) (caller : Caller) : State τ × Option Result :=
  match checkLoop caller number s inode.records with
  | (s, .quotaOk) => incrLoop s t inode.records number inode.records
  | (s, res) => finish s t res

/-! ## `dquot_free_block` -/

/-- `dquot_decr_blocks` with the lock taken. -/
def decrBlocks (r : Record) (number : Nat) : State τ :=
  let dq := s.dquot r
  let cur := if dq.dqCurblocks > number then dq.dqCurblocks - number else 0
  let btime := if cur < dq.dqBsoftlimit then 0 else dq.dqBtime
  setDquot s r { dq with dqCurblocks := cur, dqBtime := btime, blks := false, mod := true }

/-- The loop of `dquot_free_block`, up to a record that is locked. -/
def decrLoop (s : State τ) (t : τ) (number : Nat) : List Record → State τ × Option Result
  | [] => finish s t .done
  | r :: rest =>
    if (s.dquot r).locked then (goto s t (.decr (r :: rest) number), none)
    else decrLoop (decrBlocks s r number) t number rest

def dquotFreeBlock (inode : Inode) (number : Nat) : State τ × Option Result :=
  decrLoop s t number inode.records

/-! ## `write_dquot` -/

def setLocked (r : Record) (b : Bool) : State τ :=
  setDquot s r { s.dquot r with locked := b }

/-- `lock_dquot` in `write_dquot`, and the write behind it. -/
def writeLock (r : Record) : State τ × Option Result :=
  if (s.dquot r).locked then (goto s t (.writeWait r), none)
  else (goto (setLocked s r true) t (.writing r), none)

def writeDquot (r : Record) : State τ × Option Result :=
  if (s.dquot r).mod then writeLock s t r else finish s t .done

/-- The write is over. If it did not go through, the record is still to be written. -/
def writeDone (r : Record) (ok : Bool) : State τ × Option Result :=
  let s := if ok then setDquot s r { s.dquot r with mod := false } else s
  finish (setLocked s r false) t .done

/-! ## Steps -/

/-- What is granted or freed is put on record. -/
def note (use : Use) (all : List Record) (number : Nat) : State τ :=
  { s with log := all.map (⟨use, ·, number⟩) ++ s.log }

/-- A grant is put on record when the call returns `QUOTA_OK`. -/
def noteGrant (all : List Record) (number : Nat) (out : State τ × Option Result) :
    State τ × Option Result :=
  if out.2 = some .quotaOk then (note out.1 .granted all number, out.2) else out

inductive Action (τ : Type*) where
  | alloc (t : τ) (inode : Inode) (number : Nat) (caller : Caller)
  | free (t : τ) (inode : Inode) (number : Nat)
  | write (t : τ) (r : Record)
  | wake (t : τ)
  | written (t : τ) (ok : Bool)

def step : Action τ → Option (State τ × Option Result)
  | .alloc t inode number caller =>
    if s.phase t = .idle then
      some (noteGrant inode.records number (dquotAllocBlock s t inode number caller))
    else none
  | .free t inode number =>
    if s.phase t = .idle then
      some (dquotFreeBlock (note s .freed inode.records number) t inode number)
    else none
  | .write t r => if s.phase t = .idle then some (writeDquot s t r) else none
  | .wake t =>
    match s.phase t with
    | .incr all records number => some (noteGrant all number (incrLoop s t all number records))
    | .decr records number => some (decrLoop s t number records)
    | .writeWait r => some (writeLock s t r)
    | _ => none
  | .written t ok =>
    match s.phase t with
    | .writing r => some (writeDone s t r ok)
    | _ => none

end

/-- A quota table before anything is done: a record without limits may be marked as one, and
nobody is over the limit. -/
structure Fresh (table : Record → Dquot) : Prop where
  fake : ∀ r, (table r).fake = true → (table r).dqBhardlimit = 0
  within : ∀ r, (table r).dqBhardlimit ≠ 0 → (table r).dqCurblocks ≤ (table r).dqBhardlimit
  unlocked : ∀ r, (table r).locked = false

/-- The task is not privileged. -/
def Unprivileged {τ : Type*} : Action τ → Bool
  | .alloc _ _ _ caller => !caller.fsuser
  | _ => true

/-- The calls of unprivileged tasks, as far as `allowed` lets them, from a table with nobody over
the limit. -/
def quotas (τ : Type*) [DecidableEq τ] (allowed : State τ → Action τ → Prop)
    (table : Record → Dquot) : System (State τ) where
  init s := Fresh table ∧ s = ⟨table, fun _ => .idle, []⟩
  step s s' := ∃ a r, Unprivileged a = true ∧ allowed s a ∧ step s a = some (s', r)

end Sbckernel.Fs.Quota
