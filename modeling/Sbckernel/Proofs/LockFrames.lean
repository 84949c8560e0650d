import Sbckernel.Fs.Locks

/-!
# What the lock primitives leave alone

The block-list code writes only links, the wake-ups only the run states, the
two list operations only the lists. Collected here as one lemma a field, so
that later proofs never open a primitive for a field it does not touch. The
`core` of a record is everything but its links and its wait queue; no
block-list operation changes the core of any record.
-/

namespace Sbckernel.Fs

open Function

variable {s s' : Locks} {fl caller p : LockPtr} {a b : FileLock} {fuel : Nat} {i : InodePtr}
  {before rest : List LockPtr}

namespace Locks

variable (s : Locks) (p q : LockPtr) (f : FileLock → FileLock) (t : TaskPtr) (fr : Frame)
  (b : Bool) (i : InodePtr) (l : List LockPtr)

@[simp] theorem modify_allocated : (s.modify p f).allocated = s.allocated := rfl
@[simp] theorem modify_iFlock : (s.modify p f).iFlock = s.iFlock := rfl
@[simp] theorem modify_frame : (s.modify p f).frame = s.frame := rfl
@[simp] theorem modify_mem_self : (s.modify p f).mem p = f (s.mem p) := by simp [modify]

variable {p q} in
theorem modify_mem_of_ne (h : q ≠ p) : (s.modify p f).mem q = s.mem q := by simp [modify, h]

variable {f} in
theorem modify_field {α : Type} (g : FileLock → α) (hf : ∀ r, g (f r) = g r) :
    g ((s.modify p f).mem q) = g (s.mem q) := by
  rcases eq_or_ne q p with rfl | hq
  · rw [modify_mem_self, hf]
  · rw [s.modify_mem_of_ne f hq]

@[simp] theorem setFrame_mem : (s.setFrame t fr).mem = s.mem := rfl
@[simp] theorem setFrame_allocated : (s.setFrame t fr).allocated = s.allocated := rfl
@[simp] theorem setFrame_iFlock : (s.setFrame t fr).iFlock = s.iFlock := rfl
@[simp] theorem setFrame_table : (s.setFrame t fr).fileLockTable = s.fileLockTable := rfl
@[simp] theorem setFrame_runnable : (s.setFrame t fr).runnable = s.runnable := rfl
@[simp] theorem setFrame_frame : (s.setFrame t fr).frame = update s.frame t fr := rfl

@[simp] theorem setAllocated_allocated :
    (s.setAllocated p b).allocated = update s.allocated p b := rfl

@[simp] theorem setAllocated_mem : (s.setAllocated p b).mem = s.mem := rfl
@[simp] theorem setAllocated_iFlock : (s.setAllocated p b).iFlock = s.iFlock := rfl

@[simp] theorem setFlock_mem : (s.setFlock i l).mem = s.mem := rfl
@[simp] theorem setFlock_allocated : (s.setFlock i l).allocated = s.allocated := rfl
@[simp] theorem setFlock_iFlock : (s.setFlock i l).iFlock = update s.iFlock i l := rfl
@[simp] theorem setFlock_frame : (s.setFlock i l).frame = s.frame := rfl

end Locks

/-- The two states differ in links and run states only. -/
structure SameLocks (s s' : Locks) : Prop where
  core : ∀ p, (s'.mem p).core = (s.mem p).core
  flWait : ∀ p, (s'.mem p).flWait = (s.mem p).flWait
  allocated : s'.allocated = s.allocated
  iFlock : s'.iFlock = s.iFlock
  table : s'.fileLockTable = s.fileLockTable
  frame : s'.frame = s.frame

namespace SameLocks

variable {s'' : Locks}

theorem refl (s : Locks) : SameLocks s s :=
  ⟨fun _ => rfl, fun _ => rfl, rfl, rfl, rfl, rfl⟩

theorem trans (h : SameLocks s s') (h' : SameLocks s' s'') : SameLocks s s'' where
  core p := (h'.core p).trans (h.core p)
  flWait p := (h'.flWait p).trans (h.flWait p)
  allocated := h'.allocated.trans h.allocated
  iFlock := h'.iFlock.trans h.iFlock
  table := h'.table.trans h.table
  frame := h'.frame.trans h.frame

theorem modify (s : Locks) (p : LockPtr) {f : FileLock → FileLock}
    (hcore : ∀ r, (f r).core = r.core) (hwait : ∀ r, (f r).flWait = r.flWait) :
    SameLocks s (s.modify p f) :=
  ⟨fun q => s.modify_field p q _ hcore, fun q => s.modify_field p q _ hwait, rfl, rfl, rfl, rfl⟩

theorem wakeUp (s : Locks) (ts : List TaskPtr) : SameLocks s (s.wakeUp ts) :=
  ⟨fun _ => rfl, fun _ => rfl, rfl, rfl, rfl, rfl⟩

end SameLocks

theorem FileLock.core_eq_iff : a.core = b.core ↔
    a.flOwner = b.flOwner ∧ a.flFile = b.flFile ∧ a.flFlags = b.flFlags ∧
      a.flType = b.flType ∧ a.flStart = b.flStart ∧ a.flEnd = b.flEnd := by
  cases a
  cases b
  simp [FileLock.core]

/-- What identifies a record: no change of a lock in place touches it. -/
def FileLock.ident (fl : FileLock) : Option TaskPtr × FilePtr × LockFlags × List TaskPtr :=
  (fl.flOwner, fl.flFile, fl.flFlags, fl.flWait)

theorem FileLock.ident_of_core (h : a.core = b.core)
    (hwait : a.flWait = b.flWait) : a.ident = b.ident := by
  obtain ⟨ho, hf, hg, -⟩ := FileLock.core_eq_iff.mp h
  simp [FileLock.ident, ho, hf, hg, hwait]

theorem SameLocks.ident (h : SameLocks s s') (p : LockPtr) :
    (s'.mem p).ident = (s.mem p).ident :=
  FileLock.ident_of_core (h.core p) (h.flWait p)

theorem SameLocks.setNextblock (s : Locks) (p : LockPtr) (q : Option LockPtr) :
    SameLocks s (s.setNextblock p q) :=
  SameLocks.modify s p (fun _ => rfl) fun _ => rfl

theorem SameLocks.setPrevblock (s : Locks) (p : LockPtr) (q : Option LockPtr) :
    SameLocks s (s.setPrevblock p q) :=
  SameLocks.modify s p (fun _ => rfl) fun _ => rfl

theorem sameLocks_insertBlock (s : Locks) (blocker waiter : LockPtr) :
    SameLocks s (locksInsertBlock s blocker waiter) :=
  (((SameLocks.setNextblock s _ _).trans (SameLocks.setPrevblock _ _ _)).trans
    (SameLocks.setNextblock _ _ _)).trans (SameLocks.setPrevblock _ _ _)

theorem sameLocks_deleteBlock (s : Locks) (blocker waiter : LockPtr) :
    SameLocks s (locksDeleteBlock s blocker waiter) := by
  unfold locksDeleteBlock
  split
  next nextblock prevblock _ _ =>
    have hunlink := (((SameLocks.setPrevblock s nextblock (some prevblock)).trans
      (SameLocks.setNextblock _ prevblock (some nextblock))).trans
      (SameLocks.setPrevblock _ waiter none)).trans (SameLocks.setNextblock _ waiter none)
    dsimp only
    split
    · exact (hunlink.trans (SameLocks.setPrevblock _ _ _)).trans (SameLocks.setNextblock _ _ _)
    · exact hunlink
  · exact SameLocks.refl s

theorem sameLocks_wakeUpBlocks {blocker : LockPtr}
    (h : locksWakeUpBlocks fuel s blocker = some s') : SameLocks s s' := by
  induction fuel generalizing s with
  | zero => cases h
  | succ fuel ih =>
    rw [locksWakeUpBlocks] at h
    split at h
    · cases h
      exact SameLocks.refl _
    next waiter _ =>
      exact ((SameLocks.wakeUp s _).trans (sameLocks_deleteBlock _ _ _)).trans (ih h)

theorem SameLocks.of_freeLock (h : locksFreeLock s fl = some s') :
    s' = s.setAllocated fl false := by
  unfold locksFreeLock at h
  split at h
  · cases h
  · split at h
    · cases h
    · exact (Option.some.inj h).symm

/-- What `locks_delete_lock` does apart from the wake-ups. -/
structure Deleted (s s' : Locks) (i : InodePtr) (before : List LockPtr) (fl : LockPtr)
    (rest : List LockPtr) : Prop where
  core : ∀ p, (s'.mem p).core = (s.mem p).core
  flWait : ∀ p, (s'.mem p).flWait = (s.mem p).flWait
  allocated : s'.allocated = update s.allocated fl false
  iFlock : s'.iFlock = update s.iFlock i (before ++ rest)
  table : s'.fileLockTable = s.fileLockTable.erase fl
  frame : s'.frame = s.frame

theorem deleted_of_deleteLock
 (h : locksDeleteLock fuel s i before fl rest = some s') : Deleted s s' i before fl rest := by
  unfold locksDeleteLock at h
  split at h
  · cases h
  next s1 hwake =>
    have hsame := sameLocks_wakeUpBlocks hwake
    rw [SameLocks.of_freeLock h]
    exact { hsame with allocated := by simp [hsame.allocated, locksUnlink] }

theorem Deleted.ident
    (h : Deleted s s' i before fl rest) (p : LockPtr) : (s'.mem p).ident = (s.mem p).ident :=
  FileLock.ident_of_core (h.core p) (h.flWait p)

/-- The record after the ranges of the caller and an old lock were merged. -/
def hull (a b : FileLock) : FileLock :=
  { a with flStart := min a.flStart b.flStart, flEnd := max a.flEnd b.flEnd }

section
variable (s)
include s

theorem mergeRanges_mem (hne : caller ≠ fl) :
    (mergeRanges s caller fl).mem fl = hull (s.mem fl) (s.mem caller) ∧
      (mergeRanges s caller fl).mem caller = hull (s.mem caller) (s.mem fl) := by
  unfold mergeRanges mergeEnd mergeStart hull
  split
  all_goals
    split
    all_goals
      simp only [Locks.modify_mem_self, Locks.modify_mem_of_ne, hne, hne.symm, ne_eq,
        not_false_eq_true] at *
      constructor
      all_goals
        apply FileLock.ext <;> dsimp only
        all_goals omega

theorem mergeRanges_other (hc : p ≠ caller)
    (hf : p ≠ fl) : (mergeRanges s caller fl).mem p = s.mem p := by
  unfold mergeRanges mergeEnd mergeStart
  split
  all_goals
    split
    all_goals simp only [Locks.modify_mem_of_ne, hc, hf, ne_eq, not_false_eq_true]

theorem mergeRanges_ident (caller fl p : LockPtr) :
    ((mergeRanges s caller fl).mem p).ident = (s.mem p).ident := by
  unfold mergeRanges mergeEnd mergeStart
  split
  all_goals
    split
    all_goals
      refine (Locks.modify_field _ _ _ _ ?_).trans (Locks.modify_field _ _ _ _ ?_)
      all_goals exact fun _ => rfl

theorem takeOver_fl (caller fl : LockPtr) :
    (takeOver s caller fl).mem fl = { s.mem fl with
      flStart := (s.mem caller).flStart
      flEnd := (s.mem caller).flEnd
      flType := (s.mem caller).flType } := by
  simp [takeOver]

theorem takeOver_other (h : p ≠ fl) :
    (takeOver s caller fl).mem p = s.mem p := by
  rw [takeOver, s.modify_mem_of_ne _ h]

theorem takeOver_ident (caller fl p : LockPtr) :
    ((takeOver s caller fl).mem p).ident = (s.mem p).ident :=
  s.modify_field fl p _ fun _ => rfl

end

section
variable (s caller fl)

@[simp] theorem mergeRanges_allocated : (mergeRanges s caller fl).allocated = s.allocated := by
  unfold mergeRanges mergeEnd mergeStart
  split <;> split <;> rfl

@[simp] theorem mergeRanges_iFlock : (mergeRanges s caller fl).iFlock = s.iFlock := by
  unfold mergeRanges mergeEnd mergeStart
  split <;> split <;> rfl

@[simp] theorem mergeRanges_table : (mergeRanges s caller fl).fileLockTable = s.fileLockTable := by
  unfold mergeRanges mergeEnd mergeStart
  split <;> split <;> rfl

@[simp] theorem mergeRanges_frame : (mergeRanges s caller fl).frame = s.frame := by
  unfold mergeRanges mergeEnd mergeStart
  split <;> split <;> rfl

end

end Sbckernel.Fs
