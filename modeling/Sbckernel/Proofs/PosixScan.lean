import Sbckernel.Proofs.LockFrames

/-!
# The rounds of `posix_lock_file`

The loop over the requester's locks has ten ways through its body. `RoundCase`
lists them once, each with the comparisons that lead to it and the state it
leaves; every property of the loop is then ten small cases and the rule of the
loop, `posixScan_ok_rule`.

`ScanOk` is the bookkeeping all of those proofs share: where the pointers of
the loop point, and that it touches no other inode's list.
-/

namespace Sbckernel.Fs

open Option

/-- An old lock of the requested type that touches or overlaps the caller's
range, as the code computes it. -/
def Touches (caller fl : FileLock) : Prop :=
  offT (caller.flStart - 1) ≤ fl.flEnd ∧ fl.flStart ≤ offT (caller.flEnd + 1)

/-- An old lock of another type that overlaps the caller's range. -/
def Meets (caller fl : FileLock) : Prop :=
  caller.flStart ≤ fl.flEnd ∧ fl.flStart ≤ caller.flEnd

section
variable (fuel : Nat) (i : InodePtr) (c : Scan) (fl : LockPtr) (rest : List LockPtr)

inductive RoundCase : Round → Prop
  | sameBelow (hty : (c.s.mem c.caller).flType = (c.s.mem fl).flType)
      (hlt : (c.s.mem fl).flEnd < offT ((c.s.mem c.caller).flStart - 1)) : RoundCase (.nextLock c)
  | sameAbove (hty : (c.s.mem c.caller).flType = (c.s.mem fl).flType)
      (hge : offT ((c.s.mem c.caller).flStart - 1) ≤ (c.s.mem fl).flEnd)
      (hgt : offT ((c.s.mem c.caller).flEnd + 1) < (c.s.mem fl).flStart) : RoundCase (.stop c)
  | absorb (s' : Locks) (hty : (c.s.mem c.caller).flType = (c.s.mem fl).flType)
      (htouch : Touches (c.s.mem c.caller) (c.s.mem fl)) (hadded : c.added = true)
      (hdel : locksDeleteLock fuel (mergeRanges c.s c.caller fl) i c.before fl rest = some s') :
      RoundCase (.deleted { c with s := s' })
  | become (hty : (c.s.mem c.caller).flType = (c.s.mem fl).flType)
      (htouch : Touches (c.s.mem c.caller) (c.s.mem fl)) (hadded : c.added = false) :
      RoundCase (.nextLock { c with s := mergeRanges c.s c.caller fl, caller := fl, added := true })
  | otherBelow (hty : (c.s.mem c.caller).flType ≠ (c.s.mem fl).flType)
      (hlt : (c.s.mem fl).flEnd < (c.s.mem c.caller).flStart) : RoundCase (.nextLock c)
  | otherAbove (hty : (c.s.mem c.caller).flType ≠ (c.s.mem fl).flType)
      (hgt : (c.s.mem c.caller).flEnd < (c.s.mem fl).flStart) : RoundCase (.stop c)
  | right (hty : (c.s.mem c.caller).flType ≠ (c.s.mem fl).flType)
      (hmeet : Meets (c.s.mem c.caller) (c.s.mem fl))
      (hend : (c.s.mem c.caller).flEnd < (c.s.mem fl).flEnd) :
      RoundCase (.stop { c.overlap fl with right := some fl })
  | covered (s' : Locks) (hty : (c.s.mem c.caller).flType ≠ (c.s.mem fl).flType)
      (hend : (c.s.mem fl).flEnd ≤ (c.s.mem c.caller).flEnd)
      (hstart : (c.s.mem c.caller).flStart ≤ (c.s.mem fl).flStart)
      (hadded : (c.overlap fl).added = true)
      (hdel : locksDeleteLock fuel c.s i c.before fl rest = some s') :
      RoundCase (.deleted { c.overlap fl with s := s' })
  | replace (s' : Locks) (hty : (c.s.mem c.caller).flType ≠ (c.s.mem fl).flType)
      (hend : (c.s.mem fl).flEnd ≤ (c.s.mem c.caller).flEnd)
      (hstart : (c.s.mem c.caller).flStart ≤ (c.s.mem fl).flStart)
      (hadded : (c.overlap fl).added = false)
      (hwake : locksWakeUpBlocks fuel c.s fl = some s') :
      RoundCase
        (.nextLock { c.overlap fl with s := takeOver s' c.caller fl, caller := fl, added := true })
  | left (hty : (c.s.mem c.caller).flType ≠ (c.s.mem fl).flType)
      (hmeet : Meets (c.s.mem c.caller) (c.s.mem fl))
      (hend : (c.s.mem fl).flEnd ≤ (c.s.mem c.caller).flEnd)
      (hstart : (c.s.mem fl).flStart < (c.s.mem c.caller).flStart) :
      RoundCase (.nextLock (c.overlap fl))

end

/-- The round ends the loop with `Q`, or the loop goes on with `P`. -/
abbrev Round.Leads (P Q : Scan → List LockPtr → Prop) (fl : LockPtr) (rest : List LockPtr) :
    Round → Prop
  | .stop c => Q c (fl :: rest)
  | .nextLock c => P { c with before := c.before ++ [fl] } rest
  | .deleted c => P c rest

variable {fuel : Nat} {i : InodePtr} {c : Scan} {fl : LockPtr} {rest : List LockPtr} {r : Round}
  {s s' : Locks} {t : TaskPtr} {call : PosixCall}

theorem roundCase_sameType (hty : (c.s.mem c.caller).flType = (c.s.mem fl).flType)
    (h : sameTypeRound fuel i c fl rest = some r) : RoundCase fuel i c fl rest r := by
  simp only [sameTypeRound] at h
  split at h
  next hlt =>
    cases h
    exact .sameBelow hty hlt
  next hge =>
    split at h
    next hgt =>
      cases h
      exact .sameAbove hty (by omega) hgt
    next hle =>
      have htouch : Touches (c.s.mem c.caller) (c.s.mem fl) := ⟨by omega, by omega⟩
      split at h
      next hadded =>
        obtain ⟨s', hdel, rfl⟩ := map_eq_some_iff.mp h
        exact .absorb s' hty htouch hadded hdel
      next hadded =>
        cases h
        exact .become hty htouch (by simpa using hadded)

theorem roundCase_otherType (hty : (c.s.mem c.caller).flType ≠ (c.s.mem fl).flType)
    (h : otherTypeRound fuel i c fl rest = some r) : RoundCase fuel i c fl rest r := by
  simp only [otherTypeRound] at h
  split at h
  next hlt =>
    cases h
    exact .otherBelow hty hlt
  next hge =>
    split at h
    next hgt =>
      cases h
      exact .otherAbove hty hgt
    next hle =>
      have hmeet : Meets (c.s.mem c.caller) (c.s.mem fl) := ⟨by omega, by omega⟩
      split at h
      next hend =>
        cases h
        exact .right hty hmeet hend
      next hend =>
        split at h
        next hstart =>
          split at h
          next hadded =>
            obtain ⟨s', hdel, rfl⟩ := map_eq_some_iff.mp h
            exact .covered s' hty (by omega) (by omega) hadded hdel
          next hadded =>
            obtain ⟨s', hwake, rfl⟩ := map_eq_some_iff.mp h
            exact .replace s' hty (by omega) (by omega) (by simpa using hadded) hwake
        next hstart =>
          cases h
          exact .left hty hmeet (by omega) (by omega)

/-- The end of the call in stages: the copy for a lock that is split, the lock
behind the new one, the lock before it. -/
theorem posixTrim_cases (h : posixTrim fuel s t i call c rest = some s') :
    ∃ s1 s2 left,
      ((s1 = s ∧ left = c.left ∧ ∀ r, c.right = some r → c.left ≠ some r) ∨
        ∃ r newFl2, c.right = some r ∧ c.left = some r ∧ call.newFl2 = some newFl2 ∧
          s1 = insertCopy s t i { call with newFl2 := none } c.before rest newFl2 r ∧
          left = some newFl2) ∧
      ((c.right = none ∧ s2 = s1) ∨
        ∃ r, c.right = some r ∧ trimRight fuel s1 c.caller r = some s2) ∧
      trimLeft? fuel s2 c.caller left = some s' := by
  unfold posixTrim at h
  split at h
  next hright =>
    exact ⟨s, s, c.left, .inl ⟨rfl, rfl, by simp [hright]⟩, .inl ⟨hright, rfl⟩, h⟩
  next r hright =>
    split at h
    next hleft =>
      split at h
      · cases h
      next newFl2 hnew =>
        obtain ⟨s2, h2, h3⟩ := bind_eq_some_iff.mp h
        exact ⟨_, s2, some newFl2, .inr ⟨r, newFl2, hright, hleft, hnew, rfl, rfl⟩,
          .inr ⟨r, hright, h2⟩, h3⟩
    next hleft =>
      obtain ⟨s2, h2, h3⟩ := bind_eq_some_iff.mp h
      refine ⟨s, s2, c.left, .inl ⟨rfl, rfl, fun r' hr' => ?_⟩, .inr ⟨r, hright, h2⟩, h3⟩
      rw [hright] at hr'
      cases hr'
      exact hleft

/-- The variables with which the loop is entered. -/
def Scan.start (s : Locks) (i : InodePtr) (call : PosixCall) : Scan where
  s := s
  before := (s.iFlock i).takeWhile fun fl =>
    decide ((s.mem call.caller).flOwner ≠ (s.mem fl).flOwner)
  caller := call.caller
  added := false
  left := none
  right := none

/-- What is left to do after the loop, as the code distinguishes it. -/
def Closes (fuel : Nat) (i : InodePtr) (t : TaskPtr) (call : PosixCall) (c : Scan)
    (rest : List LockPtr) (s' : Locks) : Prop :=
  (c.added = false ∧ (c.s.mem c.caller).flType = .unlck ∧ s' = c.s) ∨
    (c.added = true ∧ posixTrim fuel c.s t i call c rest = some s') ∨
    ∃ newFl, c.added = false ∧ (c.s.mem c.caller).flType ≠ .unlck ∧
      call.newFl = some newFl ∧
      posixTrim fuel (insertCopy c.s t i { call with newFl := none } c.before rest newFl
        c.caller) t i { call with newFl := none } c (newFl :: rest) = some s'

theorem posixApply_cases {e : Errno} (h : posixApply fuel s t i call = some (s', e)) :
    (e = .ebusy ∧ s' = s ∧ ∃ fl, (s.iFlock i).head? = some fl ∧ (s.mem fl).flFlags.flock = true) ∨
      e = .ok ∧ (∀ fl, (s.iFlock i).head? = some fl → (s.mem fl).flFlags.flock = false) ∧
      ∃ c rest, posixScan fuel i ((s.iFlock i).dropWhile fun fl =>
          decide ((s.mem call.caller).flOwner ≠ (s.mem fl).flOwner)) (Scan.start s i call) =
          some (c, rest) ∧
        Closes fuel i t call c rest s' := by
  unfold posixApply at h
  split at h
  next hflock =>
    cases h
    cases hhead : (s.iFlock i).head? with
    | none => simp [hhead] at hflock
    | some fl =>
      rw [hhead] at hflock
      exact .inl ⟨rfl, rfl, fl, rfl, hflock⟩
  next hflock =>
    have hhead : ∀ fl, (s.iFlock i).head? = some fl → (s.mem fl).flFlags.flock = false := by
      intro fl hfl
      rw [hfl] at hflock
      simpa using hflock
    dsimp only at h
    split at h
    · cases h
    next c rest hscan =>
      split at h
      next hadded =>
        obtain ⟨s1, htrim, ⟨⟩⟩ := map_eq_some_iff.mp h
        exact .inr ⟨rfl, hhead, c, rest, hscan, .inr (.inl ⟨hadded, htrim⟩)⟩
      next hadded =>
        rw [Bool.not_eq_true] at hadded
        split at h
        next hty =>
          cases h
          exact .inr ⟨rfl, hhead, c, rest, hscan, .inl ⟨hadded, hty, rfl⟩⟩
        next hty =>
          split at h
          · cases h
          next newFl hnew =>
            obtain ⟨s1, htrim, ⟨⟩⟩ := map_eq_some_iff.mp h
            exact .inr ⟨rfl, hhead, c, rest, hscan, .inr (.inr ⟨newFl, hadded, hty, hnew, htrim⟩)⟩

theorem roundCase_of_eq (h : (if (c.s.mem c.caller).flType = (c.s.mem fl).flType then
    sameTypeRound fuel i c fl rest else otherTypeRound fuel i c fl rest) = some r) :
    RoundCase fuel i c fl rest r := by
  split at h
  next hty => exact roundCase_sameType hty h
  next hty => exact roundCase_otherType hty h

end Sbckernel.Fs
