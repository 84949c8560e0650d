import Sbckernel.Proofs.LockInv

/-!
# `flock` and the removal of locks keep the invariant

A `flock` call inserts one structure at the head of the list, deletes one lock
of its own file, or both; between the two it may have to let the waiters of the
deleted lock run. Such a lock is in no list any more but still the head of a
block list, and belongs to the call.
-/

namespace Sbckernel.Fs

open Lib Function List Locks

variable {filp : FilePtr} {new : LockPtr} {before rest : List LockPtr} {cmd : FlockCmd}
  {R : ListRule} {s s' : Locks} {t : TaskPtr} {i : InodePtr} {call : FlockCall} {fuel : Nat}
  {fInode : FilePtr → InodePtr} {signalled : Bool} {result : Option Errno}

theorem rdlck_of_no_flock_conflict {a b : FileLock} (ha : FlockLock a) (hb : FlockLock b)
    (h : flockLocksConflict a b = false) (hne : a.flFile ≠ b.flFile) :
    a.flType = .rdlck ∧ b.flType = .rdlck := by
  have hover : locksOverlap a b = true := by
    simp [locksOverlap, ha.start, ha.last, hb.start, hb.last, offsetMax]
  rw [flockLocksConflict, if_neg hne, locksConflict, if_pos hover] at h
  have hbt := hb.flType
  cases hr : a.flType with
  | rdlck => cases hs : b.flType <;> simp_all
  | wrlck => simp [hr] at h
  | unlck => exact absurd hr ha.flType

/-- A lock that conflicts with none goes to the head of the list. -/
theorem FlockList.cons {l : List LockPtr} (h : FlockList s l)
    (hnew : FlockLock (s.mem new))
    (hfree : ∀ p ∈ l, flockLocksConflict (s.mem new) (s.mem p) = false) :
    FlockList s (new :: l) := by
  refine ⟨forall_mem_cons.mpr ⟨hnew, h.locks⟩, fun p hp q hq hne => ?_⟩
  rcases mem_cons.mp hp with rfl | hpl
  · rcases mem_cons.mp hq with rfl | hql
    · exact absurd rfl hne
    · exact (rdlck_of_no_flock_conflict hnew (h.locks q hql) (hfree q hql) hne).1
  · rcases mem_cons.mp hq with rfl | hql
    · exact (rdlck_of_no_flock_conflict hnew (h.locks p hpl) (hfree p hpl) hne.symm).2
    · exact h.exclusive p hpl q hql hne

theorem sublist_unlist {p : LockPtr} (hlist : s.iFlock i = before ++ p :: rest) (j : InodePtr) :
    (update s.iFlock i (before ++ rest) j).Sublist (s.iFlock j) := by
  by_cases hj : j = i
  · rw [hj, update_self, hlist]
    exact (sublist_cons_self p rest).append_left before
  · rw [update_of_ne hj]

namespace LockInv

section
variable (h : LockInv R s)
include h

theorem delete {p : LockPtr} (hlist : s.iFlock i = before ++ p :: rest)
    (hdel : locksDeleteLock fuel s i before p rest = some s') : LockInv R s' := by
  obtain ⟨place, hp⟩ := h.placed
  obtain ⟨W, hW⟩ := h.lists
  have hd := deleted_of_deleteLock hdel
  refine ⟨⟨_, hp.deleted hlist hd⟩, ⟨_, hW.delete hp hlist hdel⟩, fun j => ?_, fun u => ?_⟩
  · exact (h.listOk j).of_core (hd.iFlock ▸ sublist_unlist hlist j) fun q _ => hd.core q
  · rw [hd.frame]
    exact (h.frameOk u).of_core fun q _ => hd.core q

/-- Tasks become runnable. -/
theorem run {r : TaskPtr → Bool} (hr : ∀ u, s.runnable u = true → r u = true) :
    LockInv R { s with runnable := r } := by
  obtain ⟨place, hp⟩ := h.placed
  obtain ⟨W, hW⟩ := h.lists
  refine ⟨⟨place, hp.congr rfl (fun _ => rfl) rfl rfl⟩, ⟨W, hW.relink
    (hW.blocks.relink (fun p hp => .inl ⟨hp, rfl, rfl, rfl⟩) (fun p hp => .inl hp)
      (fun p hp _ => hp) (fun _ _ _ => Iff.rfl) hr) fun _ _ => rfl⟩,
    fun j => (h.listOk j).of_core (.refl _) fun _ _ => rfl, fun u => ?_⟩
  exact (h.frameOk u).of_core fun _ _ => rfl

theorem flockEnter (hidle : s.frame t = .idle)
    {newFl : Option LockPtr} {wait : Bool} (halloc : newFl = none ↔ cmd = .lockUn)
    (hfresh : ∀ p ∈ newFl, s.allocated p = false) :
    LockInv R (flockEnter s t ⟨filp, flockMakeLock filp cmd, newFl, wait⟩) := by
  obtain ⟨place, hp⟩ := h.placed
  obtain ⟨W, hW⟩ := h.lists
  set s' := Fs.flockEnter s t ⟨filp, flockMakeLock filp cmd, newFl, wait⟩ with hs'
  have hmem : ∀ p, newFl ≠ some p → s'.mem p = s.mem p := by
    intro p hne
    cases newFl with
    | none => rfl
    | some new =>
      have hp : p ≠ new := fun heq => hne (congrArg some heq.symm)
      simp [hs', Fs.flockEnter, Locks.modify_mem_of_ne _ _ hp]
  have hself : ∀ new, newFl = some new → s'.mem new = flockMakeLock filp cmd := by
    intro new hnew
    subst hnew
    simp [hs', Fs.flockEnter]
  have hlinked : ∀ p, Linked s p → s'.mem p = s.mem p := fun p hlink =>
    hmem p fun heq => hp.ne_of_linked hlink (hfresh p heq) rfl
  have hframe : s'.frame =
      update s.frame t (.flock ⟨filp, flockMakeLock filp cmd, newFl, wait⟩ none) := by
    cases newFl <;> rfl
  have hiFlock : s'.iFlock = s.iFlock := by cases newFl <;> rfl
  have hnodup : newFl.toList.Nodup := by cases newFl <;> simp
  refine of_busy (h.busy t) _ ⟨_, hp.reframe hframe hnodup (fun r hr => .inr (hfresh r ?_))
    hiFlock ?_ fun r => ?_⟩ ⟨W, hW.reframe hp hframe hiFlock ?_ ?_ (fun w p hw => hw) ?_ hlinked⟩
    hiFlock hframe (fun p hlink => ?_) ⟨cmd, rfl, halloc, fun new hnew => ?_⟩
  · simpa [Frame.ptrs] using hr
  · cases newFl <;> rfl
  · rw [hidle]
    cases newFl with
    | none => simp [hs', Fs.flockEnter, Frame.ptrs]
    | some new =>
      simp only [hs', Fs.flockEnter, modify_allocated, setAllocated_allocated,
        setFrame_allocated, update_apply, Frame.ptrs]
      grind
  · cases newFl <;> rfl
  · rw [hidle]
    exact fun p => ⟨fun w hw => hw, fun hw => hw.elim⟩
  · intro p hlink
    have hnew : newFl = some p := by simpa [Frame.linked] using hlink
    rw [Locks.next, Locks.prev, hself p hnew]
    exact .inr ⟨hfresh p hnew, rfl, rfl, rfl⟩
  · rw [hlinked p (hlink.imp_right (Exists.imp fun _ => And.right))]
  · rw [hself new hnew]
    rfl

section
variable (ht : s.frame t = .flock call none)
include ht

theorem flockReturn {e : Errno}
    (hret : flockReturn s t call e = some (s', result)) : LockInv R s' := by
  obtain ⟨s1, hout, ⟨⟩⟩ := Option.map_eq_some_iff.mp hret
  have hidle : ∀ s2 : Locks, s2.mem = s.mem → s2.iFlock = s.iFlock →
      s2.fileLockTable = s.fileLockTable → s2.runnable = s.runnable → s2.frame = s.frame →
      (∀ r, s2.allocated r = true ↔ s.allocated r = true ∧ call.newFl ≠ some r) →
      LockInv R (s2.setFrame t .idle) := by
    intro s2 hmem hiFlock htable hrun hframe halloc
    refine drop (h.busy t) .idle ?_ hmem hiFlock htable hrun (ht ▸ fun _ _ hw => hw)
      (ht ▸ fun _ hu => hu.elim) nofun nofun nodup_nil nofun (fun r => ?_) trivial
    · rw [setFrame_frame, hframe]
    · rw [setFrame_allocated, halloc, ht]
      simp [Frame.ptrs]
  unfold flockOut at hout
  split at hout
  next hnone =>
    cases hout
    exact hidle s rfl rfl rfl rfl rfl (by simp [hnone])
  next new hnew =>
    obtain ⟨s2, hfree, rfl⟩ := Option.map_eq_some_iff.mp hout
    obtain rfl := SameLocks.of_freeLock hfree
    refine hidle _ rfl rfl rfl rfl rfl fun r => ?_
    rw [hnew, setAllocated_allocated, update_apply]
    grind

omit ht in
/-- A lock goes from the call to a list, or from a list to the call. -/
theorem move (fr : Frame) (hframe : s'.frame = update s.frame t fr) (hmem : s'.mem = s.mem)
    (hrun : s'.runnable = s.runnable) (hwaits : ∀ w p, fr.WaitsWith w p ↔ (s.frame t).WaitsWith w p)
    (hlinked : ∀ p, Linked s' p ↔ Linked s p) (hhead : ∀ p, Head s p → Head s' p)
    (hplaced : ∃ place, Placed s' place) (hlistOk : ∀ j, ListOk R s (s'.iFlock j))
    (hframeOk : FrameOk s t fr) : LockInv R s' := by
  obtain ⟨W, hW⟩ := h.lists
  have hblocks : Blocks s' W := by
    refine hW.blocks.relink (fun p hp => .inl ⟨(hlinked p).mp hp, ?_⟩)
      (fun p hp => .inl ((hlinked p).mpr hp)) (fun p hp _ => hhead p hp)
      (waits_update hframe hwaits) fun u hu => hrun ▸ hu
    rw [Locks.next, Locks.prev, hmem]
    exact ⟨rfl, rfl, rfl⟩
  refine ⟨hplaced, ⟨W, hW.relink hblocks fun p _ => by rw [hmem]⟩,
    fun j => (hlistOk j).of_core (.refl _) fun _ _ => by rw [hmem], fun u => ?_⟩
  rw [hframe]
  rcases eq_or_ne u t with rfl | hu
  · rw [update_self]
    exact hframeOk.of_core fun p _ => by rw [hmem]
  · rw [update_of_ne hu]
    exact (h.frameOk u).of_core fun p _ => by rw [hmem]

/-- The call's structure goes to the head of the list, and the call returns. -/
theorem flockInsert (hnew : call.newFl = some new) (hlist : FlockList s (new :: s.iFlock i)) :
    LockInv R ((locksInsertLock s i [] (s.iFlock i) new).setFrame t .idle) := by
  obtain ⟨place, hp⟩ := h.placed
  set s' := (locksInsertLock s i [] (s.iFlock i) new).setFrame t .idle with hs'
  have hptrs : (s.frame t).ptrs = [new] := by simp [ht, Frame.ptrs, hnew]
  have hmem : new ∈ (s.frame t).ptrs := by simp [hptrs]
  have hframe : s'.frame = update s.frame t .idle := rfl
  have hiFlock : s'.iFlock = update s.iFlock i (new :: s.iFlock i) := rfl
  have hin : ∀ j p, p ∈ s'.iFlock j ↔ p ∈ s.iFlock j ∨ j = i ∧ p = new := fun j p => by
    rw [hiFlock]
    exact mem_update_insert (by simp [or_comm])
  refine h.move .idle hframe rfl rfl (ht ▸ fun w p => Iff.rfl) (fun p => ?_) (fun p hp => ?_)
    ⟨_, hp.enlist (p := new) ((hp.frame t new).mp hmem)
      (show s.iFlock i = [] ++ s.iFlock i from rfl) hiFlock rfl hframe
      (by rw [hptrs]; simp [Frame.ptrs]) nodup_nil rfl⟩
    (hiFlock ▸ (forall_update_iff _ fun _ => ListOk R s).mpr ⟨.inr hlist, fun j _ => h.listOk j⟩)
    trivial
  · rw [linked_update hframe, linked_at t, ht]
    simp [hin, Frame.linked, hnew, exists_or, or_assoc, eq_comm]
  · rw [head_update hframe]
    rw [head_at t, ht] at hp
    exact hp.imp (Exists.imp fun j hj => (hin j p).mpr (.inl hj)) id

/-- A lock leaves the lists with its waiters and belongs to the call. -/
theorem flockUnlink {fl : LockPtr}
    (hlist : s.iFlock i = before ++ fl :: rest) (hfl : FlockLock (s.mem fl)) :
    LockInv R ((locksUnlink s i before rest fl).setFrame t (.flockDelete call fl)) := by
  obtain ⟨place, hp⟩ := h.placed
  set s' := (locksUnlink s i before rest fl).setFrame t (.flockDelete call fl) with hs'
  have hframe : s'.frame = update s.frame t (.flockDelete call fl) := rfl
  have hiFlock : s'.iFlock = update s.iFlock i (before ++ rest) := rfl
  have hi : fl ∈ s.iFlock i := by simp [hlist]
  have hin : ∀ j p, p ∈ s'.iFlock j ↔ p ∈ s.iFlock j ∧ p ≠ fl := hp.mem_unlist hlist
  have hheld : ∀ u, fl ∉ (s.frame u).ptrs := fun u hu => hp.not_listed hu i hi
  refine h.move (.flockDelete call fl) hframe rfl rfl (ht ▸ fun w p => Iff.rfl) (fun p => ?_)
    (fun p hp => ?_) ⟨_, hp.unlist (q := some (.task t)) hlist hiFlock rfl (by simp)
      (fun u r => ?_) (hp.ptrs_update hframe ?_) fun r => ?_⟩
    (fun j => (h.listOk j).of_core (sublist_unlist hlist j) fun _ _ => rfl) ⟨h.request ht, hfl⟩
  · rw [linked_update hframe, linked_at t, ht]
    rcases eq_or_ne p fl with rfl | hpf
    · exact iff_of_true (.inr (.inl (by simp [Frame.linked]))) (.inl ⟨i, hi⟩)
    · simp [hin, hpf, Frame.linked]
  · rw [head_update hframe]
    rw [head_at t, ht] at hp
    rcases eq_or_ne p fl with rfl | hpf
    · exact .inr (.inl rfl)
    · simpa [hin, hpf, Frame.Unlinked, hpf.symm] using hp
  · have hnot := hheld u
    rw [hframe]
    rcases eq_or_ne u t with rfl | hu
    · rw [ht] at hnot
      rw [update_self, ht]
      simp only [Frame.ptrs, mem_cons] at hnot ⊢
      grind
    · rw [update_of_ne hu]
      grind
  · have hnot := hheld t
    have hnd := hp.ptrs t
    rw [ht] at hnot hnd
    exact nodup_cons.mpr ⟨hnot, hnd⟩
  · have hfl' : s.allocated fl = true := hp.allocated_of_linked (.inl ⟨i, hi⟩)
    show s.allocated r = true ↔ _
    grind

theorem flockRepeat
    (hrepeat : flockRepeat fInode s t call signalled = some (s', result)) : LockInv R s' := by
  obtain ⟨cmd, hcall, halloc, hcore⟩ : FlockRequest s call := h.request ht
  unfold Fs.flockRepeat at hrepeat
  dsimp only at hrepeat
  split at hrepeat
  · cases hrepeat
  next new hnew =>
    have hcmd : cmd ≠ .lockUn := by
      intro heq
      rw [halloc.mpr heq] at hnew
      cases hnew
    have hlock : FlockLock (s.mem new) := by
      refine .of_core (b := flockMakeLock call.filp cmd) ((hcore new hnew).trans hcall)
        ⟨rfl, rfl, rfl, ?_, rfl, rfl⟩
      cases cmd with
      | lockSh | lockEx => simp [flockMakeLock, FlockCmd.toLockType]
      | lockUn => exact absurd rfl hcmd
    split at hrepeat
    · exact h.flockReturn ht hrepeat
    · split at hrepeat
      · exact h.flockReturn ht hrepeat
      next hposix =>
        have hflock := (h.listOk (fInode call.filp)).flockList hposix
        split at hrepeat
        next fl hfind =>
          have hfl := mem_of_find?_eq_some hfind
          have hconf := find?_some hfind
          split at hrepeat
          · exact h.flockReturn ht hrepeat
          · cases hrepeat
            refine h.sleep hfl ?_ ?_ (fun W hW u v hu hv hreach => ?_) ⟨cmd, hcall, halloc, hcore⟩
            · rw [ht]
              constructor <;> simp [Frame.linked, Frame.WaitsWith, Frame.Unlinked, Frame.ptrs, hnew,
                eq_comm]
            · rw [blocksLock, (hflock.locks fl hfl).posix, hlock.posix]
              exact hconf
            · rw [hlock.owner] at hu
              cases hu
        next hnone =>
          cases hrepeat
          refine h.flockInsert ht hnew (hflock.cons hlock fun p hp => ?_)
          simpa using find?_eq_none.mp hnone p hp

theorem flockSearch
    (hsearch : flockSearch fInode fuel s t call signalled = some (s', result)) : LockInv R s' := by
  induction fuel generalizing s with
  | zero => cases hsearch
  | succ fuel ih =>
    rw [Fs.flockSearch] at hsearch
    dsimp only at hsearch
    split at hsearch
    · exact h.flockReturn ht hsearch
    next hposix =>
      have hflock := (h.listOk (fInode call.filp)).flockList hposix
      split at hsearch
      · split at hsearch
        · exact h.flockReturn ht hsearch
        · exact h.flockRepeat ht hsearch
      next fl rest hdrop =>
        have hlist : s.iFlock (fInode call.filp) = (s.iFlock (fInode call.filp)).takeWhile
            (fun fl => decide (call.caller.flFile ≠ (s.mem fl).flFile)) ++ fl :: rest := by
          rw [← hdrop]
          exact takeWhile_append_dropWhile.symm
        split at hsearch
        · exact h.flockReturn ht hsearch
        · split at hsearch
          · obtain ⟨s1, hdel, hret⟩ := Option.bind_eq_some_iff.mp hsearch
            refine (h.delete hlist hdel).flockReturn ?_ hret
            rw [(deleted_of_deleteLock hdel).frame, ht]
          · split at hsearch
            next waiter hnext =>
              cases hsearch
              refine (h.flockUnlink ht hlist (hflock.locks fl ?_)).run fun u hu => ?_
              · rw [hlist]
                simp
              · exact Bool.or_eq_true_iff.mpr (.inr hu)
            next hnext =>
              obtain ⟨s1, hfree, hrec⟩ := Option.bind_eq_some_iff.mp hsearch
              -- with nobody to wake, freeing at once is what the unlocking call does
              have hdel : locksDeleteLock 1 s (fInode call.filp)
                  ((s.iFlock (fInode call.filp)).takeWhile
                    fun fl => decide (call.caller.flFile ≠ (s.mem fl).flFile)) fl rest =
                  some s1 := by
                simp only [locksDeleteLock, locksWakeUpBlocks, hnext]
                exact hfree
              refine ih (h.delete hlist hdel) ?_ hrec
              rw [(deleted_of_deleteLock hdel).frame, ht]

end

theorem flockResume {blocker : LockPtr} (ht : s.frame t = .flock call (some blocker))
    (hnew : call.newFl = some new) : LockInv R (flockResume s t call new blocker) := by
  have hreq := h.request ht
  refine h.resume (x := new) (a := blocker) ?_ ?_ ?_ (fun w p hw => hw) hreq
  · rw [ht]
    exact ⟨hnew, rfl⟩
  · rw [ht]
    rfl
  · rw [ht]
    rfl

theorem flockYield {thisfl : LockPtr} (ht : s.frame t = .flockDelete call thisfl)
    (hyield : flockYield fInode fuel s t call thisfl signalled = some (s', result)) :
    LockInv R s' := by
  unfold Fs.flockYield at hyield
  split at hyield
  next waiter hnext =>
    cases hyield
    exact h.run fun u hu => Bool.or_eq_true_iff.mpr (.inr hu)
  next hnext =>
    obtain ⟨s1, hfree, hsearch⟩ := Option.bind_eq_some_iff.mp hyield
    obtain rfl := SameLocks.of_freeLock hfree
    obtain ⟨hcall, -⟩ : FlockRequest s call ∧ FlockLock (s.mem thisfl) := h.request ht
    have hnd : (thisfl :: call.newFl.toList).Nodup := by
      obtain ⟨place, hp⟩ := h.placed
      have := hp.ptrs t
      rw [ht] at this
      exact this
    have hs2 : LockInv R ((s.setAllocated thisfl false).setFrame t (.flock call none)) := by
      refine drop (h.busy t) (.flock call none) rfl rfl rfl rfl rfl (ht ▸ fun _ _ hw => hw) ?_
        (fun w p hw => hw) (ht ▸ fun p hp => mem_cons_of_mem thisfl hp)
        (nodup_cons.mp hnd).2 (ht ▸ fun p hp => mem_cons_of_mem thisfl hp) (fun r => ?_)
        hcall
      · rw [ht]
        intro p hp
        cases hp
        exact hnext
      · simp only [setFrame_allocated, setAllocated_allocated, update_apply, ht,
          Frame.ptrs, mem_cons]
        grind
    refine hs2.flockSearch ?_ hsearch
    rw [setFrame_frame, update_self]

theorem removeLocks {goes : FileLock → Bool} (hlist : s.iFlock i = before ++ rest)
    (hremove : removeLocks fuel i goes before rest s = some s') : LockInv R s' := by
  induction rest generalizing s before with
  | nil =>
    cases hremove
    exact h
  | cons fl rest ih =>
    rw [Fs.removeLocks] at hremove
    split at hremove
    · obtain ⟨s1, hdel, hrec⟩ := Option.bind_eq_some_iff.mp hremove
      refine ih (h.delete hlist hdel) ?_ hrec
      rw [(deleted_of_deleteLock hdel).iFlock, update_self]
    · exact ih h (by simp [hlist]) hremove

theorem locksRemoveLocks {lastClose : Bool}
    (hremove : locksRemoveLocks fInode fuel s t filp lastClose = some s') : LockInv R s' := by
  unfold Fs.locksRemoveLocks at hremove
  split at hremove
  · cases hremove
    exact h
  next fl hfl =>
    split at hremove
    · exact h.removeLocks rfl hremove
    · exact h.removeLocks rfl hremove

end

/-! ## Every run -/

theorem boot (h : Boot s) : LockInv R s := by
  have hlinked : ∀ p, ¬Linked s p := by
    intro p hp
    rcases hp with ⟨i, hi⟩ | ⟨t, ht⟩
    · rw [h.iFlock] at hi
      cases hi
    · rw [h.frame] at ht
      cases ht
  refine ⟨⟨fun _ => none, ?_⟩, ⟨fun _ => [], ⟨⟨?_, ?_, ?_, ?_, ?_, ?_⟩, ?_, ?_⟩⟩, fun i => ?_,
    fun t => ?_⟩
  · refine ⟨fun i p => ?_, fun t p => ?_, fun p => ?_, fun i => ?_, fun t => ?_, ?_, fun p => ?_⟩
    · simp [h.iFlock]
    · simp [h.frame, Frame.ptrs]
    · simp [h.allocated]
    · simp [h.iFlock]
    · simp [h.frame, Frame.ptrs]
    · simp [h.fileLockTable]
    · simp [h.fileLockTable, h.iFlock]
  · exact ⟨fun a ha => absurd rfl ha, fun a hact => absurd hact (hlinked a), by simp, by simp,
      by simp⟩
  · exact fun p hp => absurd rfl hp
  · exact fun p w hw => by cases hw
  · exact fun t w p hw => by simp [h.frame, Frame.WaitsWith] at hw
  · exact fun t w p hw => by simp [h.frame, Frame.WaitsWith] at hw
  · exact fun q hq => absurd hq (hlinked q)
  · exact fun p w hw => by cases hw
  · refine Ranked.empty fun a b hedge => ?_
    obtain ⟨p, w, ⟨⟩, -⟩ := hedge
  · rw [h.iFlock]
    exact .inl ⟨forall_mem_nil _, R.nil s, forall_mem_nil _⟩
  · rw [h.frame]
    trivial

/-- A step keeps the invariant if the list is in order behind a request that completes. -/
theorem step (h : LockInv R s) {e : Event} (hstep : Step fInode s e s')
    (hrule : ∀ t filp req, e = .posix t filp req (some .ok) →
      R.Holds s' (s'.iFlock (fInode filp))) : LockInv R s' := by
  cases hstep with
  | posixCall idle make fresh distinct run =>
    obtain ⟨hreq, hcore⟩ := posixMakeLock_request make
    exact (h.posixEnter idle hreq hcore fresh distinct).posixRepeat (update_self ..) run
      fun he => hrule _ _ _ (congrArg (Event.posix _ _ _) he)
  | posixWake asleep awake run =>
    exact (h.posixResume asleep).posixRepeat (update_self ..) run
      fun he => hrule _ _ _ (congrArg (Event.posix _ _ _) he)
  | @flockCall _ _ _ _ newFl _ _ _ _ idle alloc fresh run =>
    refine (h.flockEnter idle alloc fresh).flockSearch ?_ run
    cases newFl <;> exact update_self ..
  | flockWake asleep new awake run =>
    refine (h.flockResume asleep new).flockRepeat ?_ run
    exact update_self ..
  | flockYield yielded run => exact h.flockYield yielded run
  | remove idle run => exact h.locksRemoveLocks run
  | signal t =>
    refine h.run fun u hu => ?_
    by_cases hut : u = t
    · rw [hut, update_self]
    · rw [update_of_ne hut, hu]

theorem of_reachable (h : (locksSystem fInode).Reachable s) : LockInv anyOrder s := by
  refine h.invariant (I := LockInv anyOrder) (fun s hs => boot hs) fun s s' hs hstep => ?_
  obtain ⟨e, he⟩ := hstep
  exact hs.step he fun _ _ _ _ => trivial

end LockInv

end Sbckernel.Fs
