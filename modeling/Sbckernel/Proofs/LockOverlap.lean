import Sbckernel.Proofs.PosixRefine

/-!
# Mutual exclusion by `locks_overlap`

For locks that do not end before they start, `locks_overlap` says whether they share a byte, and
then what holds of bytes is what the conflict check is meant to ensure. A request up to the
largest offset that is not merged may leave a lock which ends before it starts, and by
`locks_overlap` a write lock then overlaps a lock of another owner. Where the requests fit, no
such lock comes about, whatever `flock_lock_file` and `locks_remove_locks` do in between: these
only take locks out of a list of POSIX locks.
-/

namespace Sbckernel.Fs

open Lib

variable {fInode : FilePtr → InodePtr} {s s' : Locks}

/-- Of proper locks `locks_overlap` says whether they share a byte. -/
theorem locksOverlap_iff {a b : FileLock} (ha : a.flStart ≤ a.flEnd) (hb : b.flStart ≤ b.flEnd) :
    locksOverlap a b = true ↔ ∃ x, Covers a x ∧ Covers b x := by
  simp only [locksOverlap, Bool.and_eq_true, decide_eq_true_eq, Covers]
  constructor
  · intro h
    exact ⟨max a.flStart b.flStart, by omega⟩
  · rintro ⟨x, hx⟩
    omega

/-- A completed request fits; all other steps are free. -/
def RequestsFit (fInode : FilePtr → InodePtr) (s : Locks) : Event → Prop
  | .posix t filp req result => result = some .ok → RequestFits s (fInode filp) t req
  | _ => True

/-- All interleavings in which the requests for POSIX locks fit. -/
def fittingSystem (fInode : FilePtr → InodePtr) : System Locks where
  init := Boot
  step s s' := ∃ e, Step fInode s e s' ∧ RequestsFit fInode s e

/-- Lists of POSIX locks are in order. -/
def inOrder : ListRule where
  Holds := RepInvariant
  nil _ := ⟨by simp, by simp, .nil⟩
  of_core h hsub := (h.sublist hsub).congr

/-- A request that fits leaves the list in order. -/
theorem posix_step_inOrder {t : TaskPtr} {filp : FilePtr} {req : Request}
    (hinv : LockInv inOrder s) (hstep : Step fInode s (.posix t filp req (some .ok)) s')
    (hfits : RequestFits s (fInode filp) t req) : RepInvariant s' (s'.iFlock (fInode filp)) := by
  obtain ⟨s1, call, fuel, signalled, hinv1, ht, rfl, rfl, hiFlock, hcore, hrun⟩ :=
    posix_step_segment hinv hstep
  rcases posixRepeat_effect hrun with ⟨hne, -⟩ | ⟨-, s2, happly, hmem, hlist⟩
  · exact absurd rfl hne
  rcases posixApply_cases happly with ⟨he, -⟩ | ⟨-, hhead, -⟩
  · cases he
  rw [← requestFits_congr hiFlock hcore] at hfits
  obtain ⟨hrep, -⟩ := posixApply_refines hinv1 ht ((hinv1.listOk _).posixList hhead).rule hfits
    happly
  rw [hlist]
  exact hrep.congr fun p _ => by rw [hmem]

theorem fittingSystem_invariant (h : (fittingSystem fInode).Reachable s) : LockInv inOrder s := by
  refine h.invariant (I := LockInv inOrder) (fun s hs => .boot hs) fun s s' hs hstep => ?_
  obtain ⟨e, hstep, hfits⟩ := hstep
  refine hs.step hstep fun t filp req he => ?_
  subst he
  exact posix_step_inOrder hs hstep (hfits rfl)

/-- Mutual exclusion where the requests fit: locks of different owners that overlap and locks of
different files are read locks, and no list mixes the two kinds. -/
theorem locks_exclude (h : (fittingSystem fInode).Reachable s) (i : InodePtr) :
    (∀ p ∈ s.iFlock i, ∀ q ∈ s.iFlock i,
      (s.mem p).flFlags.posix = true → (s.mem q).flFlags.posix = true →
      (s.mem p).flOwner ≠ (s.mem q).flOwner → locksOverlap (s.mem p) (s.mem q) = true →
      (s.mem p).flType = .rdlck ∧ (s.mem q).flType = .rdlck) ∧
    (∀ p ∈ s.iFlock i, ∀ q ∈ s.iFlock i,
      (s.mem p).flFlags.flock = true → (s.mem q).flFlags.flock = true →
      (s.mem p).flFile ≠ (s.mem q).flFile →
      (s.mem p).flType = .rdlck ∧ (s.mem q).flType = .rdlck) ∧
    ((∀ p ∈ s.iFlock i, (s.mem p).flFlags.posix = true ∧ (s.mem p).flFlags.flock = false) ∨
      ∀ p ∈ s.iFlock i, (s.mem p).flFlags.flock = true ∧ (s.mem p).flFlags.posix = false) := by
  rcases (fittingSystem_invariant h).listOk i with hi | hi
  · refine ⟨?_, ?_, .inl fun p hp => ⟨(hi.locks p hp).posix, (hi.locks p hp).flock⟩⟩
    · intro p hp q hq _ _ hne hover
      obtain ⟨x, hpx, hqx⟩ :=
        (locksOverlap_iff (hi.rule.proper p hp) (hi.rule.proper q hq)).mp hover
      exact ⟨hi.exclusive p hp q hq hne x hpx hqx, hi.exclusive q hq p hp hne.symm x hqx hpx⟩
    · intro p hp q hq hflock
      rw [(hi.locks p hp).flock] at hflock
      cases hflock
  · refine ⟨?_, ?_, .inr fun p hp => ⟨(hi.locks p hp).flock, (hi.locks p hp).posix⟩⟩
    · intro p hp q hq hposix
      rw [(hi.locks p hp).posix] at hposix
      cases hposix
    · intro p hp q hq _ _ hne
      exact ⟨hi.exclusive p hp q hq hne, hi.exclusive q hq p hp hne.symm⟩

/-- The requests of the readers and the writer end below the largest offset. -/
theorem fitting_contended : (fittingSystem id).Reachable contended := by
  have hbelow : ∀ c ∈ readersAndWriter,
      (posixMakeLock c.t 0 0 0 c.l).all (·.flEnd < offsetMax) = true := by decide
  refine reachable_setlks (fun c hc s s' fl result hmake hstep => ⟨_, hstep, fun _ => ?_⟩)
    (.init boot_bootLocks) (Option.some_get _).symm
  have hend := hbelow c hc
  rw [hmake] at hend
  exact .inr (.inl (of_decide_eq_true hend))

theorem locks_exclude_contended :
    (contended.mem 1).flType = .rdlck ∧ (contended.mem 4).flType = .rdlck :=
  (locks_exclude fitting_contended 0).1 1 (by decide) 4 (by decide) (by decide) (by decide)
    (by decide) (by decide)

/-- Task 1 reads the bytes from 3 to 100 and those from 5 on, writes 20 to 30, unlocks those from
200 on and reads 25 to 40; then task 2 reads 1 to 10 and 11 to 30. -/
def shrunkWriter : List Setlk :=
  [⟨1, ⟨.rdlck, 0, 3, 98⟩, 0⟩, ⟨1, ⟨.rdlck, 0, 5, 0⟩, 3⟩, ⟨1, ⟨.wrlck, 0, 20, 11⟩, 6⟩,
    ⟨1, ⟨.unlck, 0, 200, 0⟩, 9⟩, ⟨1, ⟨.rdlck, 0, 25, 16⟩, 12⟩, ⟨2, ⟨.rdlck, 0, 1, 10⟩, 15⟩,
    ⟨2, ⟨.rdlck, 0, 11, 20⟩, 18⟩]

/-- A write lock from 20 to 2 is left, which overlaps the lock of the other task. -/
theorem write_lock_overlaps : ∃ s, (locksSystem id).Reachable s ∧ 7 ∈ s.iFlock 0 ∧
    16 ∈ s.iFlock 0 ∧ (s.mem 7).flOwner ≠ (s.mem 16).flOwner ∧
    (s.mem 7).flFlags.posix = true ∧ (s.mem 16).flFlags.posix = true ∧
    locksOverlap (s.mem 7) (s.mem 16) = true ∧ (s.mem 7).flType = .wrlck := by
  refine ⟨(setlks 8 bootLocks shrunkWriter).get (by decide), ?_, by decide⟩
  exact reachable_setlks (fun _ _ _ _ _ _ _ hstep => ⟨_, hstep⟩) (.init boot_bootLocks)
    (Option.some_get _).symm

end Sbckernel.Fs
