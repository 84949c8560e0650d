import Mathlib.Algebra.Order.BigOperators.Group.List
import Mathlib.Algebra.Order.Group.Nat
import Sbckernel.Proofs.FlockInv

/-!
# What holds in every reachable state of the lock manager

Any number of tasks work on any number of inodes; their calls are interleaved
at the points where they sleep, and signals may wake a sleeper at any time. The
results are the absence of rings of waiting tasks together with the correctness
of the check that prevents them, the absence of lost wake-ups, and that no record
is lost.

The waiters of a lock are read off the memory: they are what the walk along
`fl_nextblock` meets before it is back at the lock.
-/

namespace Sbckernel.Fs

open Lib Relation

variable {fuel : Nat} {s s' : Locks} {t : TaskPtr} {p : LockPtr}

/-- `w` is on the block list of `p`. -/
def OnBlockList (s : Locks) (p w : LockPtr) : Prop :=
  w ≠ p ∧ TransGen (fun a b => (s.mem a).flNextblock = some b) p w

/-- `t` is on the block list of a POSIX lock that `u` owns. -/
def WaitsFor (s : Locks) (t u : TaskPtr) : Prop :=
  ∃ i, ∃ p ∈ s.iFlock i, (s.mem p).flFlags.posix = true ∧ (s.mem p).flOwner = some u ∧
    ∃ w, OnBlockList s p w ∧ (s.mem w).flOwner = some t

/-! ## Runs that can be evaluated -/

/-- A `fcntl` call: the task, the requested lock on the file `0`, and the first
of three addresses for its records. -/
structure Setlk where
  t : TaskPtr
  l : Flock
  p : LockPtr

/-- The tables before the first call. -/
def bootLocks : Locks where
  mem _ := flockMakeLock 0 .lockUn
  allocated _ := false
  iFlock _ := []
  fileLockTable := []
  runnable _ := true
  frame _ := .idle

/-- The state behind a sequence of calls that are willing to wait. -/
def setlks (fuel : Nat) : Locks → List Setlk → Option Locks
  | s, [] => some s
  | s, c :: cs =>
    if s.frame c.t = .idle ∧ (∀ q ∈ [c.p, c.p + 1, c.p + 2], s.allocated q = false) then
      (fcntlSetlk id fuel s c.t 0 0 0 c.l c.p (c.p + 1) (c.p + 2) true false).bind fun r =>
        setlks fuel r.1 cs
    else none

/-- A `fcntl` call that is made is a step. -/
theorem fcntlSetlk_step {fInode : FilePtr → InodePtr}
    {filp : FilePtr} {fPos iSize : Int} {l : Flock} {caller newFl newFl2 : LockPtr}
    {wait signalled : Bool} {result : Option Errno} (idle : s.frame t = .idle)
    (fresh : ∀ p ∈ [caller, newFl, newFl2], s.allocated p = false)
    (distinct : [caller, newFl, newFl2].Nodup)
    (h : fcntlSetlk fInode fuel s t filp fPos iSize l caller newFl newFl2 wait signalled =
      some (s', result)) :
    ∃ fl, posixMakeLock t filp fPos iSize l = some fl ∧
      Step fInode s (.posix t filp fl.request result) s' := by
  unfold fcntlSetlk at h
  split at h
  · cases h
  next fl hmake => exact ⟨fl, hmake, .posixCall idle hmake fresh distinct h⟩

/-- A sequence of calls is a run of any system that has their steps. -/
theorem reachable_setlks {S : System Locks} {cs : List Setlk}
    (hstep : ∀ c ∈ cs, ∀ s s' fl result, posixMakeLock c.t 0 0 0 c.l = some fl →
      Step id s (.posix c.t 0 fl.request result) s' → S.step s s')
    (h : S.Reachable s) (hrun : setlks fuel s cs = some s') : S.Reachable s' := by
  induction cs generalizing s with
  | nil =>
    cases hrun
    exact h
  | cons c cs ih =>
    rw [setlks] at hrun
    split at hrun
    next hfree =>
      obtain ⟨⟨s1, result⟩, hset, hrec⟩ := Option.bind_eq_some_iff.mp hrun
      obtain ⟨fl, hmake, hcall⟩ := fcntlSetlk_step hfree.1 hfree.2 (by simp) hset
      exact ih (fun c' hc' => hstep c' (.tail c hc'))
        (h.step (hstep c (.head cs) _ _ fl result hmake hcall)) hrec
    · cases hrun

theorem boot_bootLocks : Boot bootLocks := ⟨fun _ => rfl, rfl, fun _ => rfl, fun _ => rfl⟩

/-- Tasks 1 and 2 read the bytes 0 to 9 and 5 to 14, task 3 wants to write
byte 8. -/
def readersAndWriter : List Setlk :=
  [⟨1, ⟨.rdlck, 0, 0, 10⟩, 0⟩, ⟨2, ⟨.rdlck, 0, 5, 10⟩, 3⟩, ⟨3, ⟨.wrlck, 0, 8, 1⟩, 6⟩]

def contended : Locks := (setlks 8 bootLocks readersAndWriter).get (by decide)

theorem reachable_contended : (locksSystem id).Reachable contended :=
  reachable_setlks (fun _ _ _ _ _ _ _ hstep => ⟨_, hstep⟩) (.init boot_bootLocks)
    (Option.some_get _).symm

/-! ## The results -/

section
variable {W : LockPtr → List LockPtr} {fInode : FilePtr → InodePtr}

theorem LockInv.onBlockList_iff (h : LockInv R s) (hW : Blocks s W) {w : LockPtr}
    (hp : Head s p) : OnBlockList s p w ↔ w ∈ W p := by
  obtain ⟨place, hplace⟩ := h.placed
  exact (hW.rings.mem_iff_reach hp.linked (hW.head_not_waiter hplace hp)).symm

theorem LockInv.posixLock_of_owner (h : LockInv R s) {i : InodePtr}
    (hp : p ∈ s.iFlock i) (howner : (s.mem p).flOwner ≠ none) : PosixLock (s.mem p) := by
  rcases h.listOk i with hi | hi
  · exact hi.locks p hp
  · exact absurd (hi.locks p hp).owner howner

theorem LockInv.waitsFor_iff (h : LockInv R s) (hW : Blocks s W) (t u : TaskPtr) :
    WaitsFor s t u ↔ Edge s W t u := by
  obtain ⟨place, hplace⟩ := h.placed
  refine ⟨fun hwait => ?_, fun hedge => ?_⟩
  · obtain ⟨i, p, hp, -, hu, w, hw, ht⟩ := hwait
    exact ⟨p, w, (h.onBlockList_iff hW (.inl ⟨i, hp⟩)).mp hw, ht, hu⟩
  · obtain ⟨p, w, hw, ht, hu⟩ := hedge
    have howner : (s.mem p).flOwner ≠ none := by simp [hu]
    have htable := (h.tableHas hW).2 p (List.ne_nil_of_mem hw) howner
    obtain ⟨i, hp⟩ := (hplace.mem_table p).mp htable
    exact ⟨i, p, hp, (h.posixLock_of_owner hp howner).posix, hu, w,
      (h.onBlockList_iff hW (.inl ⟨i, hp⟩)).mpr hw, ht⟩

/-- No task waits for itself through others, and `posix_locks_deadlock` ends
and says whether one task waits for another. -/
theorem no_ring_of_waits (h : (locksSystem fInode).Reachable s) :
    (∀ t, ¬TransGen (WaitsFor s) t t) ∧
    ∀ my blocked : TaskPtr,
      (∃ fuel r, posixLocksDeadlock fuel s (some my) (some blocked) = some r) ∧
      ∀ fuel r, posixLocksDeadlock fuel s (some my) (some blocked) = some r →
        (r = true ↔ blocked = my ∨ TransGen (WaitsFor s) blocked my) := by
  have hinv := LockInv.of_reachable h
  obtain ⟨W, hW⟩ := hinv.lists
  have hedge : WaitsFor s = Edge s W := by
    funext t u
    exact propext (hinv.waitsFor_iff hW.blocks t u)
  rw [hedge]
  refine ⟨hW.waits.ranked.acyclic, fun my blocked => ⟨?_, fun fuel r hr => ?_⟩⟩
  · obtain ⟨rank, hrank⟩ := hW.waits.ranked
    obtain ⟨n, hn⟩ : ∃ n, ∀ p ∈ s.fileLockTable, (W p).length < n := by
      refine ⟨((s.fileLockTable.map fun p => (W p).length).sum + 1), fun p hp => ?_⟩
      have hmem : (W p).length ∈ s.fileLockTable.map fun p => (W p).length :=
        List.mem_map_of_mem hp
      exact Nat.lt_succ_of_le (List.single_le_sum (fun _ _ => Nat.zero_le _) _ hmem)
    obtain ⟨r, hr⟩ := posixLocksDeadlock_isSome hW.blocks (hinv.tableHas hW.blocks) hrank hn
      (some my) (Nat.lt_succ_self (n + rank blocked))
    exact ⟨_, r, hr⟩
  · rw [posixLocksDeadlock_iff hW.blocks (hinv.tableHas hW.blocks) (hinv.oneWait hW.blocks) hr,
      reflTransGen_iff_eq_or_transGen, eq_comm]

theorem no_ring_of_waits_contended : ∃ r, posixLocksDeadlock 8 contended (some 1) (some 3) =
    some r ∧ (r = true ↔ 3 = 1 ∨ TransGen (WaitsFor contended) 3 1) :=
  ⟨true, by decide, ((no_ring_of_waits reachable_contended).2 1 3).2 8 true (by decide)⟩

/-- The block list of `p` as a list: linked in both directions from `p` around
to `p`, or both links null. -/
structure BlockRing (s : Locks) (p : LockPtr) (ws : List LockPtr) : Prop where
  mem : ∀ w, w ∈ ws ↔ OnBlockList s p w
  nodup : (p :: ws).Nodup
  empty : ws = [] → (s.mem p).flNextblock = none ∧ (s.mem p).flPrevblock = none
  circle : ws ≠ [] →
    Seg (fun q => (s.mem q).flNextblock) (fun q => (s.mem q).flPrevblock) p ws p

/-- The lock a POSIX call sleeps for is a POSIX lock in a list as long as the
call is on its block list. -/
theorem LockInv.blocker_listed (h : LockInv R s) (hW : Lists s W none)
    {call : PosixCall} {blocker : LockPtr} (ht : s.frame t = .posix call (some blocker))
    (hw : call.caller ∈ W blocker) :
    ∃ i, blocker ∈ s.iFlock i ∧ (s.mem blocker).flFlags.posix = true := by
  have hreq := h.frameOk t
  rw [ht] at hreq
  have hconf := hW.waits.conflict blocker call.caller hw nofun
  rw [blocksLock, PosixRequest.posix hreq] at hconf
  have hposix : (s.mem blocker).flFlags.posix = true := by
    simp only [Bool.and_eq_true, decide_eq_true_eq] at hconf
    exact hconf.1.symm
  rcases hW.blocks.head blocker (List.ne_nil_of_mem hw) with ⟨i, hi⟩ | ⟨u, hu⟩
  · exact ⟨i, hi, hposix⟩
  · have hframe := h.frameOk u
    obtain ⟨call, hf⟩ := hu.eq_flockDelete
    rw [hf] at hframe
    cases hposix.symm.trans hframe.2.posix

/-- No wake-up is lost: what is linked on the block list of a POSIX lock still
conflicts with it, and a call that sleeps for a lock is linked there or has been
taken off and made runnable. -/
theorem no_lost_wake_up (h : (locksSystem fInode).Reachable s) :
    (∀ i, ∀ p ∈ s.iFlock i, (s.mem p).flFlags.posix = true →
      (∀ w, OnBlockList s p w → posixLocksConflict (s.mem w) (s.mem p) = true) ∧
      ∃ ws, BlockRing s p ws) ∧
    ∀ t call blocker, s.frame t = .posix call (some blocker) →
      ((∃ i, blocker ∈ s.iFlock i ∧ (s.mem blocker).flFlags.posix = true) ∧
        OnBlockList s blocker call.caller) ∨
      s.runnable t = true ∧ (s.mem call.caller).flNextblock = none ∧
        (s.mem call.caller).flPrevblock = none := by
  have hinv := LockInv.of_reachable h
  obtain ⟨place, hplace⟩ := hinv.placed
  obtain ⟨W, hW⟩ := hinv.lists
  refine ⟨fun i p hp hposix => ⟨fun w hw => ?_, W p, ?_⟩, fun t call blocker ht => ?_⟩
  · have hconf := hW.waits.conflict p w ((hinv.onBlockList_iff hW.blocks (.inl ⟨i, hp⟩)).mp hw)
      nofun
    rw [blocksLock, hposix, if_pos rfl, Bool.and_eq_true] at hconf
    exact hconf.2
  · have hhead : Head s p := .inl ⟨i, hp⟩
    have hfree := hW.blocks.head_not_waiter hplace hhead
    exact ⟨fun w => (hinv.onBlockList_iff hW.blocks hhead).symm,
      List.nodup_cons.mpr ⟨hfree p, hW.blocks.rings.nodup p⟩,
      fun hnil => hW.blocks.rings.null p hhead.linked hnil hfree, hW.blocks.rings.ring p⟩
  · have hwait : (s.frame t).WaitsWith call.caller blocker := by
      rw [ht]
      exact ⟨rfl, rfl⟩
    by_cases hw : call.caller ∈ W blocker
    · obtain ⟨i, hi, hposix⟩ := hinv.blocker_listed hW ht hw
      exact .inl ⟨⟨i, hi, hposix⟩, (hinv.onBlockList_iff hW.blocks (.inl ⟨i, hi⟩)).mpr hw⟩
    · have hrun := (hW.blocks.asleep t call.caller blocker hwait).resolve_left hw
      exact .inr ⟨hrun, hW.blocks.waiter_null hplace hwait hw⟩

theorem no_lost_wake_up_contended : posixLocksConflict (contended.mem 6) (contended.mem 1) = true :=
  ((no_lost_wake_up reachable_contended).1 0 1 (by decide) (by decide)).1 6
    ⟨by decide, .single (by decide)⟩

/-- No record is lost or freed while it is in use: what is allocated is in the list of one inode,
and so in `file_lock_table`, or in the hands of one call. -/
theorem records_accounted (h : (locksSystem fInode).Reachable s) (p : LockPtr) :
    (s.allocated p = true ↔ p ∈ s.fileLockTable ∨ ∃ t, p ∈ (s.frame t).ptrs) ∧
    (p ∈ s.fileLockTable ↔ ∃ i, p ∈ s.iFlock i) ∧ s.fileLockTable.Nodup ∧
    (∀ i, (s.iFlock i).Nodup ∧ ∀ j, p ∈ s.iFlock i → p ∈ s.iFlock j → i = j) ∧
    ∀ t, p ∈ (s.frame t).ptrs → (∀ i, p ∉ s.iFlock i) ∧ ∀ u, p ∈ (s.frame u).ptrs → t = u := by
  obtain ⟨place, hp⟩ := (LockInv.of_reachable h).placed
  refine ⟨?_, hp.mem_table p, hp.table, fun i => ⟨hp.nodup i, fun j => hp.inode_unique⟩,
    fun t ht => ⟨hp.not_listed ht, fun u => hp.task_unique ht⟩⟩
  simp only [hp.allocated, hp.mem_table, hp.iFlock, hp.frame]
  rcases place p with - | (i | t) <;> simp

theorem records_accounted_contended : contended.allocated 1 = true :=
  (records_accounted reachable_contended 1).1.mpr (.inl (by decide))

end

end Sbckernel.Fs
