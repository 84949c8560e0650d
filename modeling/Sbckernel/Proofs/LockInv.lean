import Sbckernel.Proofs.LockDeadlock
import Sbckernel.Proofs.LockExclusion

/-!
# The invariant of the lock manager

`LockInv` is what holds of the lock tables whenever no task is in the middle of
a segment: records have one place, block lists are circles of waiters that
conflict with their lock and do not wait in a ring, every inode's list is of one
kind and excludes what it should, and an open call's record is a proper
request. This module shows that the POSIX calls keep it, from the entry of
`posix_lock_file` over its sleeps to its return.
-/

namespace Sbckernel.Fs

open Lib Function Relation FileLock

variable {t : TaskPtr} {s s' : Locks} {l : List LockPtr} {f : Frame}
  {place : LockPtr → Option Place} {p x : LockPtr} {W : LockPtr → List LockPtr}
  {req a b fl : FileLock} {i : InodePtr} {filp : FilePtr}

/-- A record that may stand in a list of FLOCK locks. -/
structure FlockLock (fl : FileLock) : Prop where
  posix : fl.flFlags.posix = false
  flock : fl.flFlags.flock = true
  owner : fl.flOwner = none
  flType : fl.flType ≠ .unlck
  start : fl.flStart = 0
  last : fl.flEnd = offsetMax

/-- What is asked of the order of a list. It does not suffer when locks are taken out. -/
structure ListRule where
  Holds : Locks → List LockPtr → Prop
  nil : ∀ s, Holds s []
  of_core : ∀ {s s' : Locks} {l l' : List LockPtr}, Holds s l → l'.Sublist l →
    (∀ p ∈ l', (s'.mem p).core = (s.mem p).core) → Holds s' l'

/-- The rule that asks nothing. -/
def anyOrder : ListRule := ⟨fun _ _ => True, fun _ => trivial, fun _ _ _ => trivial⟩

variable {R : ListRule}

structure PosixList (R : ListRule) (s : Locks) (l : List LockPtr) : Prop where
  locks : ∀ p ∈ l, PosixLock (s.mem p)
  rule : R.Holds s l
  exclusive : ∀ p ∈ l, ∀ q ∈ l, (s.mem p).flOwner ≠ (s.mem q).flOwner →
    ∀ b, Covers (s.mem p) b → Covers (s.mem q) b → (s.mem p).flType = .rdlck

structure FlockList (s : Locks) (l : List LockPtr) : Prop where
  locks : ∀ p ∈ l, FlockLock (s.mem p)
  exclusive : ∀ p ∈ l, ∀ q ∈ l, (s.mem p).flFile ≠ (s.mem q).flFile →
    (s.mem p).flType = .rdlck

def ListOk (R : ListRule) (s : Locks) (l : List LockPtr) : Prop := PosixList R s l ∨ FlockList s l

/-- The record of a POSIX call. -/
structure PosixRequest (t : TaskPtr) (fl : FileLock) : Prop where
  posix : fl.flFlags.posix = true
  flock : fl.flFlags.flock = false
  owner : fl.flOwner = some t
  start : 0 ≤ fl.flStart
  proper : fl.flStart ≤ fl.flEnd
  last : fl.flEnd ≤ offsetMax

/-- The record of a FLOCK call, and the structure it has filled from it. -/
def FlockRequest (s : Locks) (call : FlockCall) : Prop :=
  ∃ cmd, call.caller = flockMakeLock call.filp cmd ∧ (call.newFl = none ↔ cmd = .lockUn) ∧
    ∀ new, call.newFl = some new → (s.mem new).core = call.caller

def FrameOk (s : Locks) (t : TaskPtr) : Frame → Prop
  | .idle => True
  | .posix call _ => PosixRequest t (s.mem call.caller)
  | .flock call _ => FlockRequest s call
  | .flockDelete call thisfl => FlockRequest s call ∧ FlockLock (s.mem thisfl)

structure LockInv (R : ListRule) (s : Locks) : Prop where
  placed : ∃ place, Placed s place
  lists : ∃ W, Lists s W none
  listOk : ∀ i, ListOk R s (s.iFlock i)
  frameOk : ∀ t, FrameOk s t (s.frame t)

/-- The invariant, apart from the call of one task. -/
structure Busy (R : ListRule) (s : Locks) (t : TaskPtr) : Prop where
  placed : ∃ place, Placed s place
  lists : ∃ W, Lists s W none
  listOk : ∀ i, ListOk R s (s.iFlock i)
  frameOk : ∀ u, u ≠ t → FrameOk s u (s.frame u)

/-! ## What depends on the cores only -/

theorem FlockLock.of_core (h : a.core = b.core) (hb : FlockLock b) :
    FlockLock a := by
  obtain ⟨ho, -, hg, hty, hs, he⟩ := core_eq_iff.mp h
  exact ⟨hg ▸ hb.posix, hg ▸ hb.flock, ho ▸ hb.owner, hty ▸ hb.flType, hs ▸ hb.start, he ▸ hb.last⟩

theorem PosixRequest.of_core (h : a.core = b.core) (hb : PosixRequest t b) : PosixRequest t a := by
  obtain ⟨ho, -, hg, -, hs, he⟩ := core_eq_iff.mp h
  exact ⟨hg ▸ hb.posix, hg ▸ hb.flock, ho ▸ hb.owner, hs ▸ hb.start, hs ▸ he ▸ hb.proper,
    he ▸ hb.last⟩

theorem FlockRequest.of_core {call : FlockCall} (h : FlockRequest s call)
    (hcore : ∀ new, call.newFl = some new → (s'.mem new).core = (s.mem new).core) :
    FlockRequest s' call := by
  obtain ⟨cmd, hcall, halloc, hnew⟩ := h
  exact ⟨cmd, hcall, halloc, fun new hn => (hcore new hn).trans (hnew new hn)⟩

theorem ListOk.of_core {l' : List LockPtr} (h : ListOk R s l) (hsub : l'.Sublist l)
    (hcore : ∀ p ∈ l', (s'.mem p).core = (s.mem p).core) : ListOk R s' l' := by
  have hmem := hsub.subset
  rcases h with h | h
  · refine .inl ⟨fun p hp => (h.locks p (hmem hp)).of_core (hcore p hp),
      R.of_core h.rule hsub hcore, fun p hp q hq hne b hpb hqb => ?_⟩
    obtain ⟨hpo, -, -, hpt, -, -⟩ := core_eq_iff.mp (hcore p hp)
    rw [hpo, (core_eq_iff.mp (hcore q hq)).1] at hne
    rw [hpt]
    exact h.exclusive p (hmem hp) q (hmem hq) hne b ((covers_of_core (hcore p hp) b).mp hpb)
      ((covers_of_core (hcore q hq) b).mp hqb)
  · refine .inr ⟨fun p hp => (h.locks p (hmem hp)).of_core (hcore p hp),
      fun p hp q hq hne => ?_⟩
    obtain ⟨-, hpf, -, hpt, -, -⟩ := core_eq_iff.mp (hcore p hp)
    rw [hpf, (core_eq_iff.mp (hcore q hq)).2.1] at hne
    rw [hpt]
    exact h.exclusive p (hmem hp) q (hmem hq) hne

theorem FrameOk.of_core (h : FrameOk s t f)
    (hcore : ∀ p ∈ f.linked, (s'.mem p).core = (s.mem p).core) : FrameOk s' t f := by
  cases f with
  | idle => trivial
  | posix call blocker =>
    exact PosixRequest.of_core (hcore _ (by simp [Frame.linked])) h
  | flock call blocker =>
    exact FlockRequest.of_core h fun new hn => hcore new (by simp [Frame.linked, hn])
  | flockDelete call thisfl =>
    obtain ⟨hcall, hfl⟩ := h
    exact ⟨hcall.of_core fun new hn => hcore new (by simp [Frame.linked, hn]),
      hfl.of_core (hcore _ (by simp [Frame.linked]))⟩

/-- A list whose head is not a FLOCK lock is one of POSIX locks. -/
theorem ListOk.posixList (h : ListOk R s l)
    (hhead : ∀ fl, l.head? = some fl → (s.mem fl).flFlags.flock = false) : PosixList R s l := by
  rcases h with h | h
  · exact h
  · cases l with
    | nil => exact ⟨by simp, R.nil s, by simp⟩
    | cons fl rest =>
      have hfl := (h.locks fl (by simp)).flock
      rw [hhead fl rfl] at hfl
      cases hfl

theorem ListOk.flockList (h : ListOk R s l)
    (hhead : ¬(l.head?.any fun fl => (s.mem fl).flFlags.posix) = true) : FlockList s l := by
  rcases h with h | h
  · cases l with
    | nil => exact ⟨by simp, by simp⟩
    | cons fl rest =>
      exact absurd (h.locks fl (by simp)).posix hhead
  · exact h

/-! ## Entering and leaving a call -/

theorem Placed.allocated_of_linked (h : Placed s place) (hp : Linked s p) :
    s.allocated p = true := by
  rw [h.allocated]
  rcases hp with ⟨i, hi⟩ | ⟨t, ht⟩
  · simp [(h.iFlock i p).mp hi]
  · simp [(h.frame t p).mp (Frame.ptrs_of_linked ht)]

theorem Placed.ne_of_linked (h : Placed s place) (hp : Linked s p) (hx : s.allocated x = false) :
    p ≠ x := by
  rintro rfl
  cases (h.allocated_of_linked hp).symm.trans hx

/-- The call of a task that is on no block list takes on fresh records or drops
some of its own. -/
theorem Lists.reframe
      {fr : Frame} (h : Lists s W none) (hplace : Placed s place)
    (hframe : s'.frame = update s.frame t fr) (hiFlock : s'.iFlock = s.iFlock)
    (hrun : s'.runnable = s.runnable)
    (hold : ∀ p, (∀ w, ¬(s.frame t).WaitsWith w p) ∧ ((s.frame t).Unlinked p → W p = []))
    (hfr : ∀ w p, ¬fr.WaitsWith w p) (hnew : ∀ p ∈ fr.linked, p ∈ (s.frame t).linked ∨
      s.allocated p = false ∧ s'.next p = none ∧ s'.prev p = none ∧ (s'.mem p).flWait = [])
    (hmem : ∀ p, Linked s p → s'.mem p = s.mem p) : Lists s' W none := by
  refine h.relink (h.blocks.relink (fun p hp => ?_) (fun p hp => ?_) (fun p hp hne => ?_)
    (fun u w p => ?_) (fun u hu => by rw [hrun]; exact hu)) fun p hp => by rw [hmem p hp]
  · have hkept : Linked s p → Linked s p ∧ s'.next p = s.next p ∧ s'.prev p = s.prev p ∧
        (s'.mem p).flWait = (s.mem p).flWait := by
      intro hs
      rw [Locks.next, Locks.prev, hmem p hs]
      exact ⟨hs, rfl, rfl, rfl⟩
    rcases (linked_update hframe).mp hp with hj | hf | hu
    · exact .inl (hkept (.inl (hiFlock ▸ hj)))
    · rcases hnew p hf with hf | ⟨hfree, hnull⟩
      · exact .inl (hkept (.inr ⟨t, hf⟩))
      · exact .inr ⟨fun hs => hplace.ne_of_linked hs hfree rfl, hnull⟩
    · exact .inl (hkept ((linked_at t).mpr (.inr (.inr hu))))
  · rw [linked_update hframe, hiFlock]
    rcases (linked_at t).mp hp with hj | ht | hu
    · exact .inl (.inl hj)
    · exact .inr (h.blocks.running_free hplace ht (fun w p => (hold p).1 w) fun p => (hold p).2)
    · exact .inl (.inr (.inr hu))
  · rw [head_update hframe, hiFlock]
    rcases (head_at t).mp hp with hj | ht | hu
    · exact .inl hj
    · exact absurd ((hold p).2 ht) hne
    · exact .inr (.inr hu)
  · exact waits_update hframe (fun w p => iff_of_false (hfr w p) ((hold p).1 w)) u w p

/-- `posix_make_lock` makes proper requests. -/
theorem posixMakeLock_request {fPos iSize : Int} {l : Flock}
    (h : posixMakeLock t filp fPos iSize l = some fl) : PosixRequest t fl ∧ fl.core = fl := by
  unfold posixMakeLock at h
  split at h
  · cases h
  next flType flFlags hty =>
    have hflags : flFlags.posix = true ∧ flFlags.flock = false := by
      cases hl : l.lType <;> simp [hl, FlockType.toLock, posixFlags] at hty <;>
        simp [← hty.2]
    dsimp only at h
    split at h
    · cases h
    next base hbase =>
      split at h
      · cases h
      next hneg =>
        cases h
        have hlen := l.lLen.toInt_lt
        refine ⟨⟨hflags.1, hflags.2, rfl, ?_, ?_, ?_⟩, rfl⟩
        all_goals
          simp only [offT, offsetMax] at *
          omega

/-! ## The requester's new locks -/

/-- A request without conflict shares a byte with another owner's lock only if
both are read locks. -/
theorem rdlck_of_no_conflict {q : FileLock} {b : Int} (h : posixLocksConflict req q = false)
    (hne : req.flOwner ≠ q.flOwner) (hty : req.flType ≠ .unlck) (hq : q.flType ≠ .unlck)
    (hreq : Covers req b) (hqb : Covers q b) : req.flType = .rdlck ∧ q.flType = .rdlck := by
  have hover : locksOverlap req q = true := by
    obtain ⟨h1, h2⟩ := hreq
    obtain ⟨h3, h4⟩ := hqb
    simp only [locksOverlap, Bool.and_eq_true, decide_eq_true_eq]
    omega
  rw [posixLocksConflict, if_neg hne, locksConflict, if_pos hover] at h
  cases hr : req.flType with
  | rdlck => cases hs : q.flType <;> simp_all
  | wrlck => simp [hr] at h
  | unlck => exact absurd hr hty

section
variable {locks : List LockPtr} {caller : LockPtr}
variable (hcov : Cov s i t req s' locks caller) (hlist : PosixList R s (s.iFlock i))
  (howner : req.flOwner = some t)
  (hfree : req.flType = .unlck ∨ ∀ p ∈ s.iFlock i, posixLocksConflict req (s.mem p) = false)
include hcov hlist howner hfree

theorem Cov.rdlck_of_shared {q : LockPtr} (hp : p ∈ locks) (hq : q ∈ locks)
    (hpo : (s'.mem p).flOwner = some t)
    (hqo : (s'.mem q).flOwner ≠ some t) {b : Int} (hpb : Covers (s'.mem p) b)
    (hqb : Covers (s'.mem q) b) : (s'.mem p).flType = .rdlck ∧ (s'.mem q).flType = .rdlck := by
  obtain ⟨hqi, hqc⟩ := hcov.foreign q hq hqo
  obtain ⟨hqo', -, -, hqt, -, -⟩ := core_eq_iff.mp hqc
  rw [hqo'] at hqo
  rw [covers_of_core hqc] at hqb
  rw [hqt]
  have hpty := (hcov.posix p hp).flType
  rcases hcov.own p hp hpo b hpb with ⟨hty, hreq⟩ | ⟨r, hr, hro, hrt, hrb⟩
  · rw [hty] at hpty ⊢
    rcases hfree with hun | hfree
    · exact absurd hun hpty
    · refine rdlck_of_no_conflict (hfree q hqi) ?_ hpty (hlist.locks q hqi).flType hreq hqb
      rw [howner]
      exact hqo.symm
  · rw [← hrt]
    exact ⟨hlist.exclusive r hr q hqi (by rw [hro]; exact hqo.symm) b hrb hqb,
      hlist.exclusive q hqi r hr (by rw [hro]; exact hqo) b hqb hrb⟩

theorem Cov.posixList (hrule : R.Holds s' locks) : PosixList R s' locks := by
  refine ⟨hcov.posix, hrule, fun p hp q hq hne b hpb hqb => ?_⟩
  by_cases hpo : (s'.mem p).flOwner = some t
  · refine (hcov.rdlck_of_shared hlist howner hfree hp hq hpo ?_ hpb hqb).1
    rw [← hpo]
    exact hne.symm
  · by_cases hqo : (s'.mem q).flOwner = some t
    · exact (hcov.rdlck_of_shared hlist howner hfree hq hp hqo hpo hqb hpb).2
    · obtain ⟨hpi, hpc⟩ := hcov.foreign p hp hpo
      obtain ⟨hqi, hqc⟩ := hcov.foreign q hq hqo
      obtain ⟨hpo', -, -, hpt, -, -⟩ := core_eq_iff.mp hpc
      rw [hpo', (core_eq_iff.mp hqc).1] at hne
      rw [hpt]
      exact hlist.exclusive p hpi q hqi hne b ((covers_of_core hpc b).mp hpb)
        ((covers_of_core hqc b).mp hqb)

end

theorem PosixRequest.callerOk (h : PosixRequest t req) : CallerOk s i t req req :=
  ⟨fun _ hb => .inl ⟨rfl, hb⟩, h.posix, h.flock, h.owner, rfl, h.start, h.proper, h.last⟩

/-! ## Going to sleep and coming back -/

section
variable {a : LockPtr}

theorem core_sleep (s : Locks) (t : TaskPtr) (x a : LockPtr) (f : Frame) (p : LockPtr) :
    (((sleepOn (locksInsertBlock s a x) t x).setFrame t f).mem p).core = (s.mem p).core := by
  rw [Locks.setFrame_mem, ← (sameLocks_insertBlock s a x).core p]
  exact Locks.modify_field (f := fun r => { r with flWait := t :: r.flWait }) _ x p _ fun _ => rfl

theorem core_resume (s : Locks) (t : TaskPtr) (x a : LockPtr) (f : Frame) (p : LockPtr) :
    (((locksDeleteBlock (endSleep s t x) a x).setFrame t f).mem p).core = (s.mem p).core := by
  rw [Locks.setFrame_mem, (sameLocks_deleteBlock (endSleep s t x) a x).core p]
  exact s.modify_field x p _ fun _ => rfl

/-- A record that conflicts with a lock joins its waiters, if that closes no
ring of waiting tasks. -/
theorem Lists.sleep (h : Lists s W none) (hplace : Placed s place) (ha : Head s a)
    (hf : FallsAsleep (s.frame t) f x a) (hconf : blocksLock (s.mem x) (s.mem a) = true)
    (hback : ∀ u v, (s.mem x).flOwner = some u → (s.mem a).flOwner = some v →
      ¬ReflTransGen (Edge s W) v u) :
    Lists ((sleepOn (locksInsertBlock s a x) t x).setFrame t f) (update W a (W a ++ [x])) none := by
  have hcore := core_sleep s t x a f
  have howner := fun p => (core_eq_iff.mp (hcore p)).1
  have hmem : ∀ q w, w ∈ update W a (W a ++ [x]) q → w ∈ W q ∨ q = a ∧ w = x :=
    fun q w => (mem_update_insert (by simp)).mp
  refine ⟨h.blocks.sleep hplace ha hf, fun q w hw _ => ?_, ?_⟩
  · rw [blocksLock_of_core (hcore w) (hcore q)]
    rcases hmem q w hw with hw | ⟨rfl, rfl⟩
    · exact h.waits.conflict q w hw nofun
    · exact hconf
  · have hedge : ∀ u v, Edge ((sleepOn (locksInsertBlock s a x) t x).setFrame t f)
        (update W a (W a ++ [x])) u v → Edge s W u v ∨
        (s.mem x).flOwner = some u ∧ (s.mem a).flOwner = some v := by
      intro u v huv
      obtain ⟨q, w, hw, hu, hv⟩ := huv
      rw [howner] at hu hv
      rcases hmem q w hw with hw | ⟨rfl, rfl⟩
      · exact .inl ⟨q, w, hw, hu, hv⟩
      · exact .inr ⟨hu, hv⟩
    by_cases hnew : ∃ u v, (s.mem x).flOwner = some u ∧ (s.mem a).flOwner = some v
    · obtain ⟨u, v, hu, hv⟩ := hnew
      refine h.waits.ranked.insert (hback u v hu hv) fun c d hcd => ?_
      refine (hedge c d hcd).imp_right fun ⟨hc, hd⟩ => ?_
      rw [hu] at hc
      rw [hv] at hd
      exact ⟨(Option.some.inj hc).symm, (Option.some.inj hd).symm⟩
    · refine h.waits.ranked.mono fun c d hcd => ?_
      rcases hedge c d hcd with hcd | hcd
      · exact hcd
      · exact absurd ⟨c, d, hcd⟩ hnew

theorem Lists.resume (h : Lists s W none) (hplace : Placed s place) (hx : (s.frame t).WaitsWith x a)
    (hf : f.linked = (s.frame t).linked) (hwaits : ∀ w p, ¬f.WaitsWith w p) :
    Lists ((locksDeleteBlock (endSleep s t x) a x).setFrame t f)
      (update W a ((W a).erase x)) none := by
  have hcore := core_resume s t x a f
  have howner := fun p => (core_eq_iff.mp (hcore p)).1
  have hsub : ∀ q, ∀ w ∈ update W a ((W a).erase x) q, w ∈ W q :=
    (forall_update_iff W fun q l => ∀ w ∈ l, w ∈ W q).mpr
      ⟨fun _ => List.mem_of_mem_erase, fun _ _ _ => id⟩
  refine ⟨h.blocks.resume hplace hx hf hwaits, h.waits.mono hsub
    (fun q w _ => ⟨howner w, howner q⟩) fun q w hw hq => ?_⟩
  rw [blocksLock_of_core (hcore w) (hcore q)]
  exact h.waits.conflict q w (hsub q w hw) hq

end

/-- How a segment of a POSIX call ends: the call returns, it applies its request and returns, or
it goes to sleep. -/
inductive PosixSegment (fuel : Nat) (s : Locks) (t : TaskPtr) (i : InodePtr) (call : PosixCall) :
    Locks → Option Errno → Prop
  | leave {e : Errno} (he : e ≠ .ok) : PosixSegment fuel s t i call (posixOut s t) (some e)
  | apply {s1 : Locks} {e : Errno}
      (hfree : (s.mem call.caller).flType = .unlck ∨
        ∀ p ∈ s.iFlock i, posixLocksConflict (s.mem call.caller) (s.mem p) = false)
      (happly : posixApply fuel s t i call = some (s1, e)) :
      PosixSegment fuel s t i call (posixOut s1 t) (some e)
  | sleep {fl : LockPtr} (hfl : fl ∈ s.iFlock i)
      (hconf : posixLocksConflict (s.mem call.caller) (s.mem fl) = true)
      (hhead : ∀ fl, (s.iFlock i).head? = some fl → (s.mem fl).flFlags.flock = false)
      (hdead : posixLocksDeadlock fuel s (s.mem call.caller).flOwner (s.mem fl).flOwner =
        some false) :
      PosixSegment fuel s t i call ((sleepOn (locksInsertBlock s fl call.caller) t
        call.caller).setFrame t (.posix call (some fl))) none

theorem posixRepeat_segment {fInode : FilePtr → InodePtr} {fuel : Nat} {call : PosixCall}
    {signalled : Bool} {result : Option Errno}
    (h : posixRepeat fInode fuel s t call signalled = some (s', result)) :
    PosixSegment fuel s t (fInode call.filp) call s' result := by
  unfold posixRepeat at h
  dsimp only at h
  split at h
  next hun =>
    obtain ⟨⟨s1, e⟩, happly, ⟨⟩⟩ := Option.map_eq_some_iff.mp h
    exact .apply (.inl hun) happly
  split at h
  · cases h
    exact .leave (by decide)
  next hflock =>
  split at h
  next hnone =>
    obtain ⟨⟨s1, e⟩, happly, ⟨⟩⟩ := Option.map_eq_some_iff.mp h
    refine .apply (.inr fun p hp => ?_) happly
    simpa using List.find?_eq_none.mp hnone p hp
  next fl hfind =>
  split at h
  · cases h
    exact .leave (by decide)
  split at h
  · cases h
  · cases h
    exact .leave (by decide)
  next hdead =>
  split at h
  · cases h
    exact .leave (by decide)
  · cases h
    have hconf := List.find?_some hfind
    refine .sleep (List.mem_of_find?_eq_some hfind) hconf (fun fl hfl => ?_) hdead
    rw [hfl] at hflock
    simpa using hflock

theorem posixOut_lists (s : Locks) (t : TaskPtr) :
    (posixOut s t).mem = s.mem ∧ (posixOut s t).iFlock = s.iFlock := by
  have hfree : ∀ (s : Locks) p, (kfree s p).mem = s.mem ∧ (kfree s p).iFlock = s.iFlock := by
    intro s p
    cases p <;> exact ⟨rfl, rfl⟩
  unfold posixOut
  split
  · simp [hfree]
  · exact ⟨rfl, rfl⟩

namespace LockInv

variable {call : PosixCall} {fuel : Nat}

theorem busy (h : LockInv R s) (t : TaskPtr) : Busy R s t :=
  ⟨h.placed, h.lists, h.listOk, fun u _ => h.frameOk u⟩

theorem request (h : LockInv R s) (ht : s.frame t = f) : FrameOk s t f := ht ▸ h.frameOk t

/-- The call gets another frame; cores and lists stay. -/
theorem of_busy (h : Busy R s t) (f : Frame) (hplaced : ∃ place, Placed s' place)
    (hlists : ∃ W, Lists s' W none) (hiFlock : s'.iFlock = s.iFlock)
    (hframe : s'.frame = update s.frame t f)
    (hcore : ∀ p, (∃ j, p ∈ s.iFlock j) ∨ (∃ u, u ≠ t ∧ p ∈ (s.frame u).linked) →
      (s'.mem p).core = (s.mem p).core) (hf : FrameOk s' t f) : LockInv R s' := by
  refine ⟨hplaced, hlists, fun j => ?_, fun u => ?_⟩
  · rw [hiFlock]
    exact (h.listOk j).of_core (.refl _) fun p hp => hcore p (.inl ⟨j, hp⟩)
  · rw [hframe]
    rcases eq_or_ne u t with rfl | hu
    · rwa [update_self]
    · rw [update_of_ne hu]
      exact (h.frameOk u hu).of_core fun p hp => hcore p (.inr ⟨u, hu, hp⟩)

/-- A call that is on no block list drops some of its records. -/
theorem drop (h : Busy R s t) (fr : Frame) (hframe : s'.frame = update s.frame t fr)
    (hmem : s'.mem = s.mem) (hiFlock : s'.iFlock = s.iFlock)
    (htable : s'.fileLockTable = s.fileLockTable) (hrun : s'.runnable = s.runnable)
    (hwaits : ∀ w p, ¬(s.frame t).WaitsWith w p)
    (hun : ∀ p, (s.frame t).Unlinked p → (s.mem p).flNextblock = none)
    (hfr : ∀ w p, ¬fr.WaitsWith w p) (hlinked : ∀ p ∈ fr.linked, p ∈ (s.frame t).linked)
    (hptrs : fr.ptrs.Nodup) (hsub : ∀ p ∈ fr.ptrs, p ∈ (s.frame t).ptrs)
    (hallocated : ∀ r, s'.allocated r = true ↔
      s.allocated r = true ∧ (r ∈ (s.frame t).ptrs → r ∈ fr.ptrs))
    (hframeOk : FrameOk s t fr) : LockInv R s' := by
  obtain ⟨place, hp⟩ := h.placed
  obtain ⟨W, hW⟩ := h.lists
  have hnil : ∀ p, (s.frame t).Unlinked p → W p = [] := by
    intro p hu
    by_contra hne
    have hnext : (s.mem p).flNextblock = some _ := (hW.blocks.rings.ring p hne).next_head
    rw [hun p hu] at hnext
    cases hnext
  have halloc : ∀ r, r ∈ (s.frame t).ptrs → s.allocated r = true := by
    intro r hr
    rw [hp.allocated, (hp.frame t r).mp hr]
    simp
  refine of_busy h fr ⟨_, hp.reframe hframe hptrs (fun r hr => .inl (hsub r hr)) hiFlock htable
    fun r => ?_⟩ ⟨W, hW.reframe hp hframe hiFlock hrun (fun p => ⟨fun w => hwaits w p, hnil p⟩) hfr
    (fun p hp => .inl (hlinked p hp)) fun p _ => by rw [hmem]⟩ hiFlock hframe
    (fun p _ => by rw [hmem]) (hframeOk.of_core fun p _ => by rw [hmem])
  rw [hallocated]
  grind

theorem posixEnter (h : LockInv R s) (hidle : s.frame t = .idle)
    {caller newFl newFl2 : LockPtr} {wait : Bool} (hreq : PosixRequest t fl) (hcore : fl.core = fl)
    (hfresh : ∀ p ∈ [caller, newFl, newFl2], s.allocated p = false)
    (hdistinct : [caller, newFl, newFl2].Nodup) :
    LockInv R (posixEnter s t ⟨filp, caller, some newFl, some newFl2, wait⟩ fl newFl newFl2) := by
  obtain ⟨place, hp⟩ := h.placed
  obtain ⟨W, hW⟩ := h.lists
  set s' := Fs.posixEnter s t ⟨filp, caller, some newFl, some newFl2, wait⟩ fl newFl newFl2
  have hmem : ∀ p, p ≠ caller → s'.mem p = s.mem p := fun p hne =>
    Locks.modify_mem_of_ne _ (fun _ => fl) hne
  have hself : s'.mem caller = fl := by simp [s', Fs.posixEnter]
  have hlinked : ∀ p, Linked s p → s'.mem p = s.mem p := fun p hlink =>
    hmem p (hp.ne_of_linked hlink (hfresh caller (by simp)))
  have hnull : s'.next caller = none ∧ s'.prev caller = none ∧ (s'.mem caller).flWait = [] := by
    rw [Locks.next, Locks.prev, hself, ← hcore]
    exact ⟨rfl, rfl, rfl⟩
  have hframe : s'.frame = update s.frame t
      (.posix ⟨filp, caller, some newFl, some newFl2, wait⟩ none) := rfl
  refine of_busy (h.busy t) _ ⟨_, hp.reframe hframe hdistinct (fun r hr => .inr (hfresh r hr))
    rfl rfl fun r => ?_⟩ ⟨W, hW.reframe hp hframe rfl rfl ?_ ?_ ?_ hlinked⟩ rfl hframe
    (fun p hlink => ?_) ?_
  · simp only [s', Fs.posixEnter, Locks.setFrame_allocated, Locks.modify_allocated,
      Locks.setAllocated_allocated, update_apply, hidle, Frame.ptrs]
    grind
  · rw [hidle]
    exact fun p => ⟨fun w hw => hw, fun hw => hw.elim⟩
  · exact fun w p hw => hw
  · intro p hmem
    obtain rfl := List.mem_singleton.mp hmem
    exact .inr ⟨hfresh _ (by simp), hnull⟩
  · rw [hlinked p (hlink.imp_right (Exists.imp fun _ => And.right))]
  · show PosixRequest t (s'.mem caller)
    rwa [hself]

/-- The call ends, whatever has become of its record. -/
theorem posixOut (h : Busy R s t) (ht : s.frame t = .posix call none) :
    LockInv R (posixOut s t) := by
  have hout : Fs.posixOut s t =
      (kfree (kfree (kfree s call.newFl) call.newFl2) (some call.caller)).setFrame t .idle := by
    rw [Fs.posixOut, ht]
  have hfree : ∀ s : Locks, ∀ p, (kfree s p).mem = s.mem ∧ (kfree s p).iFlock = s.iFlock ∧
      (kfree s p).fileLockTable = s.fileLockTable ∧ (kfree s p).runnable = s.runnable ∧
      (kfree s p).frame = s.frame ∧
      ∀ r, (kfree s p).allocated r = true ↔ s.allocated r = true ∧ p ≠ some r := by
    intro s p
    cases p with
    | none => simp [kfree]
    | some p =>
      refine ⟨rfl, rfl, rfl, rfl, rfl, fun r => ?_⟩
      simp only [kfree, Locks.setAllocated_allocated, update_apply]
      grind
  refine drop h .idle ?_ ?_ ?_ ?_ ?_ (ht ▸ fun _ _ hw => hw) (ht ▸ fun _ hu => hu.elim)
    (fun _ _ hw => hw) nofun List.nodup_nil nofun (fun r => ?_) trivial
  rotate_right
  · simp only [hout, Locks.setFrame_allocated, hfree, ht, Frame.ptrs]
    cases call.newFl <;> cases call.newFl2 <;> simp <;> grind
  all_goals simp [hout, hfree]

section
variable (h : LockInv R s)
include h

theorem leave (ht : s.frame t = .posix call none) : LockInv R (Fs.posixOut s t) :=
  posixOut (h.busy t) ht

/-- The call applies a request nobody's lock conflicts with, and returns. -/
theorem posixApply (ht : s.frame t = .posix call none) {e : Errno}
    (hfree : (s.mem call.caller).flType = .unlck ∨
      ∀ p ∈ s.iFlock i, posixLocksConflict (s.mem call.caller) (s.mem p) = false)
    (happly : posixApply fuel s t i call = some (s', e))
    (hrule : e = .ok → R.Holds (Fs.posixOut s' t) ((Fs.posixOut s' t).iFlock i)) :
    LockInv R (Fs.posixOut s' t) := by
  obtain ⟨place, hp⟩ := h.placed
  have hlists := posixApply_lists hp ht h.lists happly
  rcases posixApply_cases happly with ⟨-, rfl, -⟩ | ⟨rfl, hhead, -⟩
  · exact h.leave ht
  have hreq : PosixRequest t (s.mem call.caller) := h.request ht
  have hlist := (h.listOk i).posixList hhead
  obtain ⟨call', locks, caller, hfin, hcov⟩ :=
    posixApply_cov hp ht hlist.locks hreq.callerOk happly
  refine posixOut ⟨hfin.placed, hlists, fun j => ?_, fun u hu => ?_⟩ hfin.call_frame
  · by_cases hj : j = i
    · obtain ⟨hmem, hiFlock⟩ := posixOut_lists s' t
      have hrule := hrule rfl
      rw [hiFlock, hfin.list] at hrule
      rw [hj, hfin.list]
      exact .inl (hcov.posixList hlist hreq.owner hfree
        (R.of_core hrule (.refl _) fun p _ => by rw [hmem]))
    · rw [hfin.others j hj]
      refine (h.listOk j).of_core (.refl _) fun p hpj =>
        hfin.same p (fun hpi => ?_) fun hpt => ?_
      · exact hj (hp.inode_unique hpj hpi)
      · exact hp.not_listed (ht ▸ hpt) j hpj
  · rw [hfin.frame, update_of_ne hu]
    refine (h.frameOk u).of_core fun p hpu => hfin.same p (fun hpi => ?_) fun hpt => ?_
    · exact hp.not_listed (Frame.ptrs_of_linked hpu) i hpi
    · exact hu (hp.task_unique (Frame.ptrs_of_linked hpu) (ht ▸ hpt))

/-- A sleeping POSIX call is the only waiter of its task. -/
theorem waiter_owner {u a : TaskPtr} {w : LockPtr}
    (hw : (s.frame u).WaitsWith w p) (ha : (s.mem w).flOwner = some a) : u = a := by
  have hframe := h.frameOk u
  cases hf : s.frame u with
  | idle | flockDelete => simp [hf, Frame.WaitsWith] at hw
  | posix call blocker =>
    rw [hf] at hw hframe
    cases blocker with
    | none => exact hw.elim
    | some blocker =>
      obtain ⟨rfl, -⟩ := hw
      exact Option.some.inj (hframe.owner.symm.trans ha)
  | flock call blocker =>
    rw [hf] at hw hframe
    cases blocker with
    | none => exact hw.elim
    | some blocker =>
      obtain ⟨cmd, hcall, -, hnew⟩ := hframe
      have hcore := hnew w hw.1
      rw [hcall] at hcore
      have howner : (s.mem w).flOwner = none := congrArg flOwner hcore
      rw [howner] at ha
      cases ha

theorem oneWait (hW : Blocks s W) : OneWait s W := by
  intro a b c hab hac
  obtain ⟨p, w, hw, ha, hb⟩ := hab
  obtain ⟨p', w', hw', ha', hc⟩ := hac
  obtain ⟨u, hu⟩ := hW.waiter p w hw
  obtain ⟨u', hu'⟩ := hW.waiter p' w' hw'
  obtain rfl := h.waiter_owner hu ha
  obtain rfl := h.waiter_owner hu' ha'
  obtain ⟨-, rfl, -⟩ := Frame.waitsWith_unique hu hu'
  exact Option.some.inj (hb.symm.trans hc)

theorem tableHas (hW : Blocks s W) : TableHas s W := by
  obtain ⟨place, hp⟩ := h.placed
  refine ⟨fun p hpt => ?_, fun p hne howner => ?_⟩
  · have hhead : Head s p := .inl ((hp.mem_table p).mp hpt)
    exact ⟨hhead.linked, hW.head_not_waiter hp hhead⟩
  · rcases hW.head p hne with hlist | ⟨u, hu⟩
    · exact (hp.mem_table p).mpr hlist
    · have hframe := h.frameOk u
      obtain ⟨call, hf⟩ := hu.eq_flockDelete
      rw [hf] at hframe
      exact absurd hframe.2.owner howner

/-- The call keeps its records, and all cores stay. -/
theorem keep (hptrs : f.ptrs = (s.frame t).ptrs) (hframe : s'.frame = update s.frame t f)
    (hiFlock : s'.iFlock = s.iFlock) (hallocated : s'.allocated = s.allocated)
    (htable : s'.fileLockTable = s.fileLockTable) (hcore : ∀ p, (s'.mem p).core = (s.mem p).core)
    (hf : FrameOk s t f) (hlists : ∃ W, Lists s' W none) : LockInv R s' := by
  obtain ⟨place, hp⟩ := h.placed
  refine of_busy (h.busy t) f ⟨place, hp.congr hiFlock (fun u => ?_) hallocated htable⟩ hlists
    hiFlock hframe (fun p _ => hcore p) (hf.of_core fun p _ => hcore p)
  rw [hframe]
  rcases eq_or_ne u t with rfl | hu
  · rw [update_self, hptrs]
  · rw [update_of_ne hu]

theorem sleep {a : LockPtr} (ha : a ∈ s.iFlock i) (hf : FallsAsleep (s.frame t) f x a)
    (hconf : blocksLock (s.mem x) (s.mem a) = true)
    (hback : ∀ W, Blocks s W → ∀ u v, (s.mem x).flOwner = some u →
      (s.mem a).flOwner = some v → ¬ReflTransGen (Edge s W) v u) (hframeOk : FrameOk s t f) :
    LockInv R ((sleepOn (locksInsertBlock s a x) t x).setFrame t f) := by
  obtain ⟨place, hp⟩ := h.placed
  obtain ⟨W, hW⟩ := h.lists
  have hsame := sameLocks_insertBlock s a x
  exact h.keep hf.ptrs (congrArg (fun g : TaskPtr → Frame => update g t f) hsame.frame)
    hsame.iFlock hsame.allocated hsame.table (core_sleep s t x a f) hframeOk
    ⟨_, hW.sleep hp (.inl ⟨i, ha⟩) hf hconf (hback W hW.blocks)⟩

theorem resume {a : LockPtr} (hx : (s.frame t).WaitsWith x a)
    (hf : f.linked = (s.frame t).linked) (hptrs : f.ptrs = (s.frame t).ptrs)
    (hwaits : ∀ w p, ¬f.WaitsWith w p) (hframeOk : FrameOk s t f) :
    LockInv R ((locksDeleteBlock (endSleep s t x) a x).setFrame t f) := by
  obtain ⟨place, hp⟩ := h.placed
  obtain ⟨W, hW⟩ := h.lists
  have hsame := sameLocks_deleteBlock (endSleep s t x) a x
  exact h.keep hptrs (congrArg (fun g : TaskPtr → Frame => update g t f) hsame.frame) hsame.iFlock
    hsame.allocated hsame.table (core_resume s t x a f) hframeOk ⟨_, hW.resume hp hx hf hwaits⟩

/-- From `repeat` to the next sleep or the return. -/
theorem posixRepeat {fInode : FilePtr → InodePtr} (ht : s.frame t = .posix call none)
    {signalled : Bool} {result : Option Errno}
    (hrepeat : posixRepeat fInode fuel s t call signalled = some (s', result))
    (hrule : result = some .ok → R.Holds s' (s'.iFlock (fInode call.filp))) : LockInv R s' := by
  have hreq : PosixRequest t (s.mem call.caller) := h.request ht
  cases posixRepeat_segment hrepeat with
  | leave he => exact h.leave ht
  | apply hfree happly => exact h.posixApply ht hfree happly fun he => hrule (congrArg some he)
  | sleep hfl hconf hhead hdead =>
    refine h.sleep hfl ?_ ?_ (fun W hW u v hu hv hreach => ?_) hreq
    · rw [ht]
      constructor <;> simp [Frame.linked, Frame.WaitsWith, Frame.Unlinked, Frame.ptrs, eq_comm]
    · have hposix := (h.listOk _).posixList hhead
      rw [blocksLock, (hposix.locks _ hfl).posix, hreq.posix]
      exact hconf
    · rw [hu, hv] at hdead
      have := (posixLocksDeadlock_iff hW (h.tableHas hW) (h.oneWait hW) hdead).mpr hreach
      cases this

theorem posixResume {blocker : LockPtr}
    (ht : s.frame t = .posix call (some blocker)) : LockInv R (posixResume s t call blocker) := by
  have hreq := h.frameOk t
  rw [ht] at hreq
  refine h.resume (x := call.caller) (a := blocker) ?_ ?_ ?_ (fun w p hw => hw) hreq
  · rw [ht]
    exact ⟨rfl, rfl⟩
  · rw [ht]
    rfl
  · rw [ht]
    rfl

end

end LockInv

end Sbckernel.Fs
