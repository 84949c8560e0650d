import Sbckernel.Lib.RangeMap
import Sbckernel.Proofs.LockExclusion

/-!
# `posix_lock_file` writes one range into a map

The locks of one owner on a file are a sorted list of ranges, and the loop of
`posix_lock_file` is the walk that writes a range into it. The walk sees the
list through pointers: passed locks, then the lock that sticks out below, then
the caller if it already stands in the list; the rest is still to come, and the
locks of other owners lie before and behind. `ScanMap` says how the two views
fit together, and each round of the loop is one rule of the walk.

The comparison with `fl_end + 1` wraps for a lock up to the largest offset. The
walk is the intended one as long as no lock of the requested type still to come
touches such a request, which is the field `wrap`.
-/

namespace Sbckernel.Fs

open Lib List FileLock

variable {p new : LockPtr} {rest O : List LockPtr} {call' : PosixCall}
variable {ty : LockType} {s s' : Locks} {caller r l : LockPtr} {v : Option LockType}
  {M : List LockPtr} {X : Option LockPtr} {c : Scan}

def FileLock.range (fl : FileLock) : Range LockType := ⟨fl.flType, fl.flStart, fl.flEnd⟩

def Locks.range (s : Locks) (p : LockPtr) : Range LockType := (s.mem p).range

/-- What the owner of a lock of this type holds on its bytes. -/
def LockType.held : LockType → Option LockType
  | .unlck => none
  | ty => some ty

theorem LockType.held_of_ne (h : ty ≠ .unlck) : ty.held = some ty := by
  cases ty with
  | rdlck => rfl
  | wrlck => rfl
  | unlck => exact absurd rfl h

theorem range_of_core {a b : FileLock} (h : a.core = b.core) : a.range = b.range := by
  obtain ⟨-, -, -, hty, hs, he⟩ := core_eq_iff.mp h
  simp [FileLock.range, hty, hs, he]

theorem offT_wrap : offT (offsetMax + 1) = -0x80000000 := rfl

/-- The loop as a walk: `O1` has been passed, `O2` is the requester's part of
what is to come, `F1` are the locks of others in front. -/
structure ScanMap (t : TaskPtr) (call : PosixCall) (F1 : List LockPtr)
    (f : Int → Option LockType) (ty : LockType) (c : Scan) (O1 O2 : List LockPtr) : Prop where
  before : c.before = F1 ++ (O1 ++ (c.left.toList ++
    if c.caller = call.caller then [] else [c.caller]))
  own : ∀ p ∈ O1 ++ (c.left.toList ++ O2), (c.s.mem p).flOwner = some t
  flType : (c.s.mem c.caller).flType = ty
  merging : Merging f ty.held (c.s.range c.caller) (O1.map c.s.range) (c.left.map c.s.range)
    (O2.map c.s.range)
  added : c.added = true → ty = .unlck ∨ c.caller ≠ call.caller
  fresh : c.added = false → c.caller = call.caller ∧ (ty = .unlck → c.left = none)
  unlck : ty = .unlck → c.caller = call.caller
  low : c.caller ≠ call.caller → ∀ p ∈ O2, (c.s.mem c.caller).flStart < (c.s.mem p).flStart
  wrap : (c.s.mem c.caller).flEnd = offsetMax → ∀ p ∈ O2, (c.s.mem p).flType = ty →
    (c.s.mem p).flEnd < (c.s.mem c.caller).flStart - 1

variable {s0 : Locks} {i : InodePtr} {t : TaskPtr} {call : PosixCall} {F1 F2 O1 O2 : List LockPtr}
  {f : Int → Option LockType} {c' : Scan} {fl : LockPtr} {fuel : Nat} {req : FileLock}

namespace ScanMap

/-- The pointers of the walk are apart from the lock at hand and the caller. -/
theorem apart (hok : ScanOk s0 i t call c (fl :: (O2 ++ F2)))
    (h : ScanMap t call F1 f ty c O1 (fl :: O2))
    (hp : p ∈ O1 ++ (c.left.toList ++ O2)) : p ≠ fl ∧ p ≠ c.caller := by
  have hnd := hok.nodup
  have hcaller : c.caller = call.caller → c.caller ∉ c.before ++ fl :: (O2 ++ F2) := by
    intro heq
    exact hok.held (by simp [Frame.ptrs, heq])
  rw [h.before] at hnd hcaller
  by_cases hc : c.caller = call.caller
  · have := hcaller hc
    simp only [hc, if_true] at hnd this
    grind
  · simp only [hc, if_false] at hnd
    grind

/-- The lists of the walk do not see a change of the lock at hand or the caller. -/
theorem merging_congr (s' : Locks) {cal : Range LockType}
    (h : Merging f ty.held cal (O1.map c.s.range) (c.left.map c.s.range) (O2.map c.s.range))
    (hrange : ∀ p ∈ O1 ++ (c.left.toList ++ O2), s'.range p = c.s.range p) :
    Merging f ty.held cal (O1.map s'.range) (c.left.map s'.range) (O2.map s'.range) := by
  rw [Option.map_congr fun p hp => hrange p (by simp [hp]),
    map_congr_left fun p hp => hrange p (by simp [hp]),
    map_congr_left fun p hp => hrange p (by simp [hp])]
  exact h

/-- The touching test of the code is the intended one. -/
theorem touch (hcov : CovScan s0 i t req c (fl :: (O2 ++ F2)))
    (htouch : Touches (c.s.mem c.caller) (c.s.mem fl)) :
    (c.s.mem c.caller).flEnd < offsetMax ∧
      (c.s.mem c.caller).flStart - 1 ≤ (c.s.mem fl).flEnd ∧
      (c.s.mem fl).flStart ≤ (c.s.mem c.caller).flEnd + 1 := by
  have hcal := hcov.cov.caller
  have hfl := (hcov.cov.posix fl (by simp)).start
  obtain ⟨h1, h2⟩ := htouch
  have hs := hcal.start
  have hp := hcal.proper
  have hl := hcal.last
  rw [offT_pred hs (by omega)] at h1
  have hlt : (c.s.mem c.caller).flEnd < offsetMax := by
    by_contra hge
    have heq : (c.s.mem c.caller).flEnd = offsetMax := by omega
    rw [heq, offT_wrap] at h2
    omega
  rw [offT_succ (by omega) hlt] at h2
  exact ⟨hlt, h1, h2⟩

section
variable (h : ScanMap t call F1 f ty c O1 (fl :: O2))
include h

theorem proper : (c.s.mem fl).flStart ≤ (c.s.mem fl).flEnd :=
  h.merging.tidy.proper (c.s.range fl) (by simp)

theorem start_lt (hp : p ∈ O2) : (c.s.mem fl).flEnd < (c.s.mem p).flStart := by
  have htidy := h.merging.tidy
  rw [tidy_append, tidy_append, map_cons, tidy_cons] at htidy
  exact (htidy.2.1.2.1.2.1 (c.s.range p) (mem_map_of_mem hp)).1

/-- While a lock starts below the caller, nothing sticks out and the caller is
not in the list. -/
theorem early (hlt : (c.s.mem fl).flStart ≤ (c.s.mem c.caller).flStart) :
    c.left = none ∧ c.caller = call.caller := by
  refine ⟨?_, ?_⟩
  · by_contra hne
    have := h.merging.lo_lt_of_left (by simpa using hne) (c.s.range fl) (by simp)
    have : (c.s.mem c.caller).flStart < (c.s.mem fl).flStart := this
    omega
  · by_contra hne
    have := h.low hne fl (by simp)
    omega

/-- A lock below the caller is passed. -/
theorem pass (hbelow : (c.s.range fl).Below (c.s.range c.caller)) :
    ScanMap t call F1 f ty { c with before := c.before ++ [fl] } (O1 ++ [fl]) O2 := by
  have hlt : (c.s.mem fl).flEnd < (c.s.mem c.caller).flStart := hbelow.1
  obtain ⟨hleft, hcaller⟩ := h.early (by have := h.proper; omega)
  have hmerging := h.merging
  rw [hleft] at hmerging
  refine ⟨?_, fun p hp => h.own p ?_, h.flType, ?_, h.added, h.fresh, h.unlck,
    fun hne => absurd hcaller hne, fun he p hp => h.wrap he p (by simp [hp])⟩
  · simp [h.before, hleft, hcaller]
  · simp only [mem_append, mem_cons, not_mem_nil, or_false] at hp ⊢
    tauto
  · simp only [hleft, map_append]
    exact hmerging.pass hbelow

/-- `added` after a round that meets a lock of another type. -/
theorem overlap_added
    (hadded : (c.overlap fl).added = true) : ty = .unlck ∨ c.caller ≠ call.caller := by
  simp only [Scan.overlap] at hadded
  split at hadded
  next hun => exact .inl (h.flType.symm.trans hun)
  · exact h.added hadded

variable (hadded : c'.added = true)
  (hbefore : c'.before = F1 ++ (O1 ++ (c.left.toList ++
    if c'.caller = call.caller then [] else [c'.caller])))
include hadded hbefore

/-- A round that takes the lock at hand out of the walk and leaves the caller, which may be
another record now, with the range `R`. -/
theorem taken {R : Range LockType} (hleft : c'.left = c.left)
    (hcore : ∀ p ∈ O1 ++ (c.left.toList ++ O2), (c'.s.mem p).core = (c.s.mem p).core)
    (hcaller : ty = .unlck ↔ c'.caller = call.caller) (hR : c'.s.range c'.caller = R)
    (htag : R.tag = ty)
    (hmerging : Merging f ty.held R (O1.map c.s.range) (c.left.map c.s.range) (O2.map c.s.range))
    (hlow : ∀ p ∈ O2, R.lo < (c.s.mem p).flStart)
    (hwrap : R.hi = offsetMax → ∀ p ∈ O2, (c.s.mem p).flType = ty → (c.s.mem p).flEnd < R.lo - 1) :
    ScanMap t call F1 f ty c' O1 O2 := by
  subst hR
  have hO2 : ∀ p ∈ O2, (c'.s.mem p).core = (c.s.mem p).core := fun p hp => hcore p (by simp [hp])
  refine ⟨hleft ▸ hbefore, fun p hp => ?_, htag, ?_, fun _ => ?_, fun hf => ?_, hcaller.mp,
    fun _ p hp => ?_, fun he p hp hpt => ?_⟩
  · rw [hleft] at hp
    rw [(core_eq_iff.mp (hcore p hp)).1]
    refine h.own p ?_
    simp only [mem_append, mem_cons] at hp ⊢
    tauto
  · rw [hleft]
    exact merging_congr _ hmerging fun p hp => range_of_core (hcore p hp)
  · exact (Decidable.em (ty = .unlck)).imp_right (mt hcaller.mpr)
  · cases hadded.symm.trans hf
  · rw [(core_eq_iff.mp (hO2 p hp)).2.2.2.2.1]
    exact hlow p hp
  · obtain ⟨-, -, -, hty, -, hend⟩ := core_eq_iff.mp (hO2 p hp)
    rw [hend]
    exact hwrap he p hp (hty.symm.trans hpt)

/-- The lock at hand is joined to the caller; either record is the caller from now on. -/
theorem joined (hok : ScanOk s0 i t call c (fl :: (O2 ++ F2)))
    (hcov : CovScan s0 i t req c (fl :: (O2 ++ F2)))
    (hty : (c.s.mem c.caller).flType = (c.s.mem fl).flType)
    (htouch : Touches (c.s.mem c.caller) (c.s.mem fl)) (hleft : c'.left = c.left)
    (hcore : ∀ p, (c'.s.mem p).core = ((mergeRanges c.s c.caller fl).mem p).core)
    (hcaller : c'.caller = c.caller ∨ c'.caller = fl)
    (hne : ty ≠ .unlck → c'.caller ≠ call.caller) : ScanMap t call F1 f ty c' O1 O2 := by
  have hunlck : ty ≠ .unlck := by
    rw [← h.flType, hty]
    exact (hcov.cov.posix fl (by simp)).flType
  have hrange : c'.s.range c'.caller = (c.s.range c.caller).hull (c.s.range fl) := by
    rcases hcaller with hc | hc
    · rw [hc, Locks.range, range_of_core (hcore _), (mergeRanges_mem c.s hok.caller_ne).2]
      rfl
    · rw [hc, Locks.range, range_of_core (hcore _), (mergeRanges_mem c.s hok.caller_ne).1]
      simp [hull, FileLock.range, Range.hull, Locks.range, hty, Int.min_comm, Int.max_comm]
  obtain ⟨hend, h1, h2⟩ := touch hcov htouch
  refine h.taken hadded hbefore hleft (fun p hp => ?_) (iff_of_false hunlck (hne hunlck)) hrange
    h.flType (h.merging.absorb ?_ hty.symm h1 h2) (fun p hp => ?_) fun hmax p hp _ => ?_
  · obtain ⟨hpf, hpc⟩ := h.apart hok hp
    rw [hcore, mergeRanges_other c.s hpc hpf]
  · rw [LockType.held_of_ne hunlck, ← h.flType]
    rfl
  · have hlt := h.start_lt hp
    have hfl := h.proper
    simp only [Range.hull, Locks.range, FileLock.range]
    omega
  · -- a lock up to the largest offset is the last
    have hlt := h.start_lt hp
    have hlast := (hcov.cov.posix p (by simp [hp])).last
    have hproper : (c.s.mem p).flStart ≤ (c.s.mem p).flEnd :=
      h.merging.tidy.proper (c.s.range p) (by simp [mem_map_of_mem hp])
    simp only [Range.hull, Locks.range, FileLock.range] at hmax
    omega

/-- The caller covers the lock at hand, and keeps its range. -/
theorem swallowed (hend : (c.s.mem fl).flEnd ≤ (c.s.mem c.caller).flEnd)
    (hstart : (c.s.mem c.caller).flStart ≤ (c.s.mem fl).flStart)
    (hleft : c'.left = (c.overlap fl).left)
    (hcore : ∀ p ∈ O1 ++ (c.left.toList ++ O2), (c'.s.mem p).core = (c.s.mem p).core)
    (hcaller : ty = .unlck ↔ c'.caller = call.caller)
    (hrange : c'.s.range c'.caller = c.s.range c.caller) : ScanMap t call F1 f ty c' O1 O2 := by
  have hnl : ¬(c.s.mem fl).flStart < (c.s.mem c.caller).flStart := by omega
  refine h.taken hadded hbefore ?_ hcore hcaller hrange h.flType (h.merging.swallow hstart hend)
    (fun p hp => ?_) fun he p hp => h.wrap he p (by simp [hp])
  · rw [hleft, Scan.overlap, if_neg hnl]
  · have := h.start_lt hp
    have := h.proper
    show (c.s.mem c.caller).flStart < (c.s.mem p).flStart
    omega

end

end ScanMap

/-- How the loop ends: behind the caller there is only what lies above it, or
first the lock `r` that sticks out above. -/
inductive ScanEnd (s0 : Locks) (i : InodePtr) (t : TaskPtr) (call : PosixCall) (req : FileLock)
    (F1 F2 : List LockPtr) (f : Int → Option LockType) (ty : LockType) :
    Scan → List LockPtr → Prop
  | above {c : Scan} {O1 : List LockPtr} (O2 : List LockPtr) (hok : ScanOk s0 i t call c (O2 ++ F2))
      (hcov : CovScan s0 i t req c (O2 ++ F2)) (h : ScanMap t call F1 f ty c O1 O2)
      (hright : c.right = none)
      (habove : ∀ p ∈ O2, (c.s.range c.caller).Below (c.s.range p)) :
      ScanEnd s0 i t call req F1 F2 f ty c (O2 ++ F2)
  | right {c : Scan} {O1 O2 : List LockPtr} {r : LockPtr}
      (hok : ScanOk s0 i t call c (r :: (O2 ++ F2)))
      (hcov : CovScan s0 i t req c (r :: (O2 ++ F2)))
      (h : ScanMap t call F1 f ty c O1 (r :: O2))
      (hty : (c.s.mem c.caller).flType ≠ (c.s.mem r).flType)
      (hmeet : Meets (c.s.mem c.caller) (c.s.mem r))
      (hend : (c.s.mem c.caller).flEnd < (c.s.mem r).flEnd) :
      ScanEnd s0 i t call req F1 F2 f ty { c.overlap r with right := some r } (r :: (O2 ++ F2))

theorem ScanMap.round {r : Round} (hok : ScanOk s0 i t call c (fl :: (O2 ++ F2)))
    (hcov : CovScan s0 i t req c (fl :: (O2 ++ F2))) (h : ScanMap t call F1 f ty c O1 (fl :: O2))
    (hr : c.right = none) (hcase : RoundCase fuel i c fl (O2 ++ F2) r) :
    r.Leads (fun c rest => ∃ O1 O2, rest = O2 ++ F2 ∧ ScanMap t call F1 f ty c O1 O2)
      (ScanEnd s0 i t call req F1 F2 f ty) fl (O2 ++ F2) := by
  have hcal := hcov.cov.caller
  have hs := hcal.start
  have hp := hcal.proper
  have hl := hcal.last
  -- a lock that becomes the caller is another record than the request's
  have hbecomes : c.added = false → c.caller = call.caller ∧ fl ≠ call.caller := by
    intro hadded
    have hcaller := (h.fresh hadded).1
    exact ⟨hcaller, fun heq => hok.caller_ne (hcaller.trans heq.symm)⟩
  cases hcase with
  | sameAbove hty hge hgt =>
    rw [offT_pred hs (by omega)] at hge
    have hlt : (c.s.mem c.caller).flEnd < offsetMax := by
      by_contra hmax
      have := h.wrap (by omega) fl (by simp) (hty.symm.trans h.flType)
      omega
    rw [offT_succ (by omega) hlt] at hgt
    refine .above (fl :: O2) hok hcov h hr
      (forall_mem_map.mp (h.merging.above_of_head ⟨?_, fun _ => hgt⟩))
    show (c.s.mem c.caller).flEnd < (c.s.mem fl).flStart
    omega
  | otherAbove hty hgt =>
    exact .above (fl :: O2) hok hcov h hr
      (forall_mem_map.mp (h.merging.above_of_head ⟨hgt, fun heq => absurd heq hty⟩))
  | right hty hmeet hend => exact .right hok hcov h hty hmeet hend
  | sameBelow hty hlt =>
    rw [offT_pred hs (by omega)] at hlt
    exact ⟨_, O2, rfl, h.pass ⟨by show (c.s.mem fl).flEnd < (c.s.mem c.caller).flStart; omega,
      fun _ => by show (c.s.mem fl).flEnd + 1 < (c.s.mem c.caller).flStart; omega⟩⟩
  | otherBelow hty hlt => exact ⟨_, O2, rfl, h.pass ⟨hlt, fun heq => absurd heq.symm hty⟩⟩
  | left hty hmeet hend hstart =>
    obtain ⟨hleft, hcaller⟩ := h.early (Int.le_of_lt hstart)
    have hmerging := h.merging
    rw [hleft] at hmerging
    refine ⟨O1, O2, rfl, ?_, fun p hp => h.own p ?_, h.flType, ?_, h.overlap_added,
      fun hadd => ?_, h.unlck, fun hne => absurd hcaller hne,
      fun he p hp => h.wrap he p (by simp [hp])⟩
    · have hleft' : (c.overlap fl).left = some fl := by simp [Scan.overlap, hstart]
      have hcaller' : (c.overlap fl).caller = call.caller := hcaller
      have hbefore' : (c.overlap fl).before = c.before := rfl
      simp [hleft', hcaller', hbefore', h.before, hleft, hcaller]
    · simpa [Scan.overlap, hstart, hleft] using hp
    · simp only [Scan.overlap, hstart, if_true, Option.map_some]
      exact hmerging.overhang (Ne.symm hty) hstart hmeet.1 hend
    · simp only [Scan.overlap] at hadd
      split at hadd
      · cases hadd
      next hun => exact ⟨hcaller, fun heq => absurd (h.flType.trans heq) hun⟩
  | become hty htouch hadded =>
    obtain ⟨hcaller, hfl⟩ := hbecomes hadded
    exact ⟨O1, O2, rfl, h.joined rfl (by simp [h.before, hcaller, hfl]) hok hcov hty htouch rfl
      (fun _ => rfl) (.inr rfl) fun _ => hfl⟩
  | replace s' hty hend hstart hadded hwake =>
    have hunlck : ty ≠ .unlck := by
      intro heq
      simp [Scan.overlap, h.flType.trans heq] at hadded
    obtain ⟨hcaller, hfl⟩ := hbecomes (by simpa [Scan.overlap, h.flType, hunlck] using hadded)
    have hsame := sameLocks_wakeUpBlocks hwake
    refine ⟨O1, O2, rfl, h.swallowed rfl ?_ hend hstart rfl (fun p hp => ?_)
      (iff_of_false hunlck hfl) ?_⟩
    · simp [Scan.overlap, h.before, hcaller, hfl]
    · rw [takeOver_other s' (h.apart hok hp).1, hsame.core]
    · rw [Locks.range, takeOver_fl, Locks.range, ← range_of_core (hsame.core c.caller)]
      rfl
  | absorb s' hty htouch hadded hdel =>
    exact ⟨O1, O2, rfl, h.joined hadded h.before hok hcov hty htouch rfl
      (deleted_of_deleteLock hdel).core (.inl rfl) (h.added hadded).resolve_left⟩
  | covered s' hty hend hstart hadded hdel =>
    have hcore := (deleted_of_deleteLock hdel).core
    exact ⟨O1, O2, rfl, h.swallowed hadded h.before hend hstart rfl (fun p _ => hcore p)
      ⟨h.unlck, fun heq => (h.overlap_added hadded).resolve_right fun hne => hne heq⟩
      (range_of_core (hcore c.caller))⟩

theorem posixScan_map (hF2 : ∀ p ∈ F2, (s.mem p).flOwner ≠ some t) {c0 : Scan}
    (hok : ScanOk s i t call c0 (O2 ++ F2)) (hr : c0.right = none)
    (hcov : CovScan s i t req c0 (O2 ++ F2)) (h : ScanMap t call F1 f ty c0 O1 O2)
    (hscan : posixScan fuel i (O2 ++ F2) c0 = some (c, rest)) :
    ScanEnd s i t call req F1 F2 f ty c rest := by
  have howner : ∀ {c : Scan} {l : List LockPtr} (p : LockPtr), ScanOk s i t call c l →
      (c.s.mem p).flOwner = (s.mem p).flOwner := fun p hok => congrArg Prod.fst (hok.ident p)
  refine (posixScan_ok_rule
    (P := fun c rest => CovScan s i t req c rest ∧
      ∃ O1 O2, rest = O2 ++ F2 ∧ ScanMap t call F1 f ty c O1 O2)
    (Q := ScanEnd s i t call req F1 F2 f ty)
    ?_ ?_ ?_ hok hr ⟨hcov, O1, O2, rfl, h⟩ hscan).2
  · intro c hok hr hP
    obtain ⟨hcov, O1, O2, hl, h⟩ := hP
    obtain ⟨rfl, -⟩ := append_eq_nil_iff.mp hl.symm
    rw [hl] at hok hcov ⊢
    exact .above [] hok hcov h hr nofun
  · intro c fl rest hok hr hP hne
    obtain ⟨hcov, O1, O2, hl, h⟩ := hP
    cases O2 with
    | nil =>
      rw [hl] at hok hcov ⊢
      exact .above [] hok hcov h hr nofun
    | cons p O2' =>
      cases hl
      exact absurd (hcov.cov.caller.owner.trans (h.own fl (by simp)).symm) hne
  · intro c fl rest r hok hr hP heq hcase
    obtain ⟨hcov, O1, O2, hl, h⟩ := hP
    have hcov' := CovScan.round hok hcov hr heq hcase
    -- the lock at hand belongs to the requester, so it is the first of `O2`
    cases O2 with
    | nil =>
      refine absurd ?_ (hF2 fl (by rw [nil_append] at hl; simp [← hl]))
      rw [← howner fl hok, ← heq]
      exact hcov.cov.caller.owner
    | cons p O2 =>
      cases hl
      have h' := h.round hok hcov hr hcase
      cases r with
      | stop c' => exact h'
      | nextLock c' => exact ⟨hcov', h'⟩
      | deleted c' => exact ⟨hcov', h'⟩

/-! ## The end of the call -/

/-- The requester's part of the list is tidy and holds the map `f`. -/
structure Written (s : Locks) (i : InodePtr) (t : TaskPtr) (F1 F2 : List LockPtr)
    (f : Int → Option LockType) (O : List LockPtr) : Prop where
  list : s.iFlock i = F1 ++ (O ++ F2)
  own : ∀ p ∈ O, (s.mem p).flOwner = some t
  tidy : Tidy (O.map s.range)
  map : ∀ b, lookup (O.map s.range) b = f b

/-- The walk after the loop: `M` is the new lock's place in the list, empty when
the request was to unlock. -/
structure Closing (i : InodePtr) (t : TaskPtr) (F1 F2 : List LockPtr) (f : Int → Option LockType)
    (v : Option LockType) (caller : LockPtr) (s : Locks) (O1 : List LockPtr) (X : Option LockPtr)
    (M O2 : List LockPtr) : Prop where
  list : s.iFlock i = F1 ++ (O1 ++ (X.toList ++ (M ++ (O2 ++ F2))))
  nodup : (s.iFlock i).Nodup
  own : ∀ p ∈ O1 ++ (X.toList ++ (M ++ O2)), (s.mem p).flOwner = some t
  apart : caller ∉ O1 ++ (X.toList ++ O2)
  start : 0 ≤ (s.mem caller).flStart
  last : (s.mem caller).flEnd ≤ offsetMax
  mid : M = [] ∧ v = none ∨ ∃ q, M = [q] ∧ s.range q = s.range caller ∧
    v = some (s.mem caller).flType
  merging : Merging f v (s.range caller) (O1.map s.range) (X.map s.range) (O2.map s.range)

variable {g : FileLock → FileLock}

theorem shrink_range (h : locksWakeUpBlocks fuel (s.modify p g) p = some s') :
    s'.range p = (g (s.mem p)).range := by
  rw [Locks.range, range_of_core ((sameLocks_wakeUpBlocks h).core p), Locks.modify_mem_self]

/-- Shrinking a lock leaves owners and lists alone. -/
theorem shrink_owner (hg : ∀ r, (g r).ident = r.ident)
    (h : locksWakeUpBlocks fuel (s.modify p g) p = some s') (q : LockPtr) :
    (s'.mem q).flOwner = (s.mem q).flOwner := by
  have hident := (sameLocks_wakeUpBlocks h).ident q
  rw [s.modify_field p q _ hg] at hident
  exact congrArg Prod.fst hident

namespace Closing

theorem ne_of_mid (h : Closing i t F1 F2 f v caller s O1 X M O2) {q : LockPtr} (hq : q ∈ M)
    (hp : p ∈ O1 ++ (X.toList ++ O2)) : q ≠ p := by
  have hnd := h.nodup
  rw [h.list] at hnd
  grind

/-- Changing locks of the walk in place. -/
theorem update {X' : Option LockPtr} {O1' : List LockPtr}
    (h : Closing i t F1 F2 f v caller s O1 X M O2) (hiFlock : s'.iFlock = s.iFlock)
    (howner : ∀ p, (s'.mem p).flOwner = (s.mem p).flOwner)
    (hcaller : (s'.mem caller).core = (s.mem caller).core)
    (hmid : ∀ q ∈ M, (s'.mem q).core = (s.mem q).core) (hlist : O1' ++ X'.toList = O1 ++ X.toList)
    (hmerging : Merging f v (s.range caller) (O1'.map s'.range) (X'.map s'.range)
      (O2.map s'.range)) : Closing i t F1 F2 f v caller s' O1' X' M O2 := by
  obtain ⟨-, -, -, hty, hs, he⟩ := core_eq_iff.mp hcaller
  have hassoc : ∀ l : List LockPtr, O1' ++ (X'.toList ++ l) = O1 ++ (X.toList ++ l) := by
    intro l
    rw [← append_assoc, hlist, append_assoc]
  refine ⟨?_, hiFlock ▸ h.nodup, fun p hp => ?_, ?_, hs ▸ h.start, he ▸ h.last, ?_, ?_⟩
  · rw [hiFlock, h.list, hassoc]
  · rw [hassoc] at hp
    rw [howner]
    exact h.own p hp
  · rw [hassoc]
    exact h.apart
  · rcases h.mid with hM | ⟨q, rfl, hq, hv⟩
    · exact .inl hM
    · refine .inr ⟨q, rfl, ?_, by rw [hv, hty]⟩
      rw [Locks.range, range_of_core (hmid q (by simp)), Locks.range, range_of_core hcaller]
      exact hq
  · rw [Locks.range, range_of_core hcaller]
    exact hmerging

/-- Once `r` is cut, everything to come is above the new lock. -/
theorem above_of_cut (h : Closing i t F1 F2 f v caller s' O1 X M (r :: O2))
    (hcaller : s'.range caller = s.range caller)
    (hr : s'.range r = { s.range r with lo := (s.range caller).hi + 1 })
    (hty : (s.mem caller).flType ≠ (s.mem r).flType) :
    ∀ p ∈ r :: O2, (s'.range caller).Below (s'.range p) := by
  refine forall_mem_map.mp (h.merging.above_of_head ?_)
  rw [hcaller, hr]
  exact ⟨Int.lt_succ _, fun heq => absurd heq hty⟩

theorem cutRight (h : Closing i t F1 F2 f v caller s O1 X M (r :: O2))
    (hty : (s.mem caller).flType ≠ (s.mem r).flType) (hmeet : Meets (s.mem caller) (s.mem r))
    (hstart : (s.mem caller).flStart ≤ (s.mem r).flStart)
    (hend : (s.mem caller).flEnd < (s.mem r).flEnd) (hlast : (s.mem r).flEnd ≤ offsetMax)
    (htrim : trimRight fuel s caller r = some s') :
    Closing i t F1 F2 f v caller s' O1 X M (r :: O2) ∧
      ∀ p ∈ r :: O2, (s'.range caller).Below (s'.range p) := by
  have hne : ∀ p ∈ O1 ++ (X.toList ++ O2), p ≠ r := by
    have hnd := h.nodup
    rw [h.list] at hnd
    grind
  have hcr : caller ≠ r := by grind
  have hrange : ∀ p ∈ O1 ++ (X.toList ++ O2), s'.range p = s.range p := fun p hp =>
    range_of_core (shrink_core htrim (hne p hp))
  have hproper : (s.mem caller).flStart ≤ (s.mem caller).flEnd := h.merging.proper
  have hr : s'.range r = { s.range r with lo := (s.range caller).hi + 1 } := by
    rw [shrink_range htrim, offT_succ (by have := h.start; omega) (by omega)]
    rfl
  have hX : X.map s'.range = X.map s.range :=
    Option.map_congr fun x hx => hrange x (by simp [hx])
  have hcut : Closing i t F1 F2 f v caller s' O1 X M (r :: O2) := by
    refine h.update (sameLocks_wakeUpBlocks htrim).iFlock ?_ (shrink_core htrim hcr)
      (fun q hq => shrink_core htrim ?_) rfl ?_
    · refine shrink_owner ?_ htrim
      exact fun _ => rfl
    · exact h.ne_of_mid hq (by simp)
    · rw [map_cons, hr, hX, map_congr_left fun p hp => hrange p (by simp [hp]),
        map_congr_left fun p hp => hrange p (by simp [hp])]
      exact h.merging.cutRight hstart hmeet.2 hend
  exact ⟨hcut, hcut.above_of_cut (range_of_core (shrink_core htrim hcr)) hr hty⟩

theorem cutLeft (h : Closing i t F1 F2 f v caller s O1 (some l) M O2)
    (htrim : trimLeft fuel s caller l = some s') :
    Closing i t F1 F2 f v caller s' (O1 ++ [l]) none M O2 := by
  have hne : ∀ p ∈ O1 ++ O2, p ≠ l := by
    have hnd := h.nodup
    rw [h.list] at hnd
    grind
  have hcl : caller ≠ l := by
    have := h.apart
    grind
  have hrange : ∀ p ∈ O1 ++ O2, s'.range p = s.range p := fun p hp =>
    range_of_core (shrink_core htrim (hne p hp))
  have hproper : (s.mem caller).flStart ≤ (s.mem caller).flEnd := h.merging.proper
  have hl : s'.range l = { s.range l with hi := (s.range caller).lo - 1 } := by
    rw [shrink_range htrim, offT_pred h.start (by have := h.last; omega)]
    rfl
  refine h.update (sameLocks_wakeUpBlocks htrim).iFlock ?_ (shrink_core htrim hcl)
    (fun q hq => shrink_core htrim ?_) (by simp) ?_
  · refine shrink_owner ?_ htrim
    exact fun _ => rfl
  · exact h.ne_of_mid hq (by simp)
  · rw [map_append, map_singleton, hl, map_congr_left fun p hp => hrange p (by simp [hp]),
      map_congr_left fun p hp => hrange p (by simp [hp])]
    exact h.merging.cutLeft

theorem finish (h : Closing i t F1 F2 f v caller s O1 none M O2)
    (habove : ∀ p ∈ O2, (s.range caller).Below (s.range p)) :
    Written s i t F1 F2 f (O1 ++ (M ++ O2)) := by
  have hmid : M.map s.range = [] ∧ v = none ∨
      M.map s.range = [s.range caller] ∧ v = some (s.range caller).tag := by
    rcases h.mid with ⟨rfl, hv⟩ | ⟨q, rfl, hq, hv⟩
    · exact .inl ⟨rfl, hv⟩
    · exact .inr ⟨by simp [hq], hv⟩
  obtain ⟨htidy, hmap⟩ := Merging.finish h.merging (fun y hy => by
    obtain ⟨p, hp, rfl⟩ := mem_map.mp hy
    exact habove p hp) hmid
  refine ⟨?_, fun p hp => h.own p (by simpa using hp), ?_, ?_⟩
  · rw [h.list]
    simp
  · rw [map_append, map_append]
    exact htidy
  · rw [map_append, map_append]
    exact hmap

end Closing

/-- The copy of `r` keeps the part before the new lock and `r` the part behind
it. -/
theorem Closing.split {s1 s2 : Locks}
    (h : Closing i t F1 F2 f v caller s O1 none M (r :: O2)) (hnew : new ∉ s.iFlock i)
    (hcn : caller ≠ new) (hty : (s.mem caller).flType ≠ (s.mem r).flType)
    (hstart : (s.mem r).flStart < (s.mem caller).flStart)
    (hend : (s.mem caller).flEnd < (s.mem r).flEnd) (hlast : (s.mem r).flEnd ≤ offsetMax)
    {before : List LockPtr} (hbefore : before = F1 ++ O1) (hrest : rest = M ++ (r :: O2 ++ F2))
    (hins : s1 = insertCopy s t i call' before rest new r)
    (hright : trimRight fuel s1 caller r = some s2)
    (hleft : trimLeft fuel s2 caller new = some s') :
    Closing i t F1 F2 f v caller s' (O1 ++ [new]) none M (r :: O2) ∧
      ∀ p ∈ r :: O2, (s'.range caller).Below (s'.range p) := by
  have hlist : s.iFlock i = F1 ++ (O1 ++ (M ++ (r :: (O2 ++ F2)))) := by
    rw [h.list]
    simp
  rw [hlist] at hnew
  have hnd := h.nodup
  rw [hlist] at hnd
  have hcr : caller ≠ r := by grind
  have hnr : new ≠ r := by grind
  have hmem1 : ∀ p, p ≠ new → s1.mem p = s.mem p := by
    intro p hp
    rw [hins, FinOk.insertCopy_mem_of_ne hp]
  have hnew1 : s1.mem new = (s.mem r).core := by rw [hins, FinOk.insertCopy_mem_self]
  have hcore : ∀ p, p ≠ new → p ≠ r → (s'.mem p).core = (s.mem p).core := by
    intro p hpn hpr
    rw [shrink_core hleft hpn, shrink_core hright hpr, hmem1 p hpn]
  have hcal2 : (s2.mem caller).core = (s.mem caller).core := by
    rw [shrink_core hright hcr, hmem1 caller hcn]
  obtain ⟨-, -, -, htyc, hsc, hec⟩ := core_eq_iff.mp (hcore caller hcn hcr)
  have hproper : (s.mem caller).flStart ≤ (s.mem caller).flEnd := h.merging.proper
  have hstart0 := h.start
  have hrange : ∀ p, p ≠ new → p ≠ r → s'.range p = s.range p := fun p hpn hpr =>
    range_of_core (hcore p hpn hpr)
  have hr : s'.range r = { s.range r with lo := (s.range caller).hi + 1 } := by
    rw [Locks.range, range_of_core (shrink_core hleft hnr.symm), ← Locks.range,
      shrink_range hright, hmem1 caller hcn, offT_succ (by omega) (by omega), Locks.range,
      hmem1 r hnr.symm]
    rfl
  have hn : s'.range new = { s.range r with hi := (s.range caller).lo - 1 } := by
    rw [shrink_range hleft, (core_eq_iff.mp hcal2).2.2.2.2.1, offT_pred hstart0 (by omega)]
    show { s2.range new with hi := (s.mem caller).flStart - 1 } = _
    rw [Locks.range, range_of_core (shrink_core hright hnr), hnew1]
    rfl
  have hiFlock : s'.iFlock i = before ++ new :: rest := by
    rw [(sameLocks_wakeUpBlocks hleft).iFlock, Locks.modify_iFlock,
      (sameLocks_wakeUpBlocks hright).iFlock, Locks.modify_iFlock, hins]
    simp [insertCopy, locksInsertLock]
  have hown2 : ∀ p, p ≠ new → (s'.mem p).flOwner = (s.mem p).flOwner := by
    intro p hp
    rw [← hmem1 p hp]
    refine (shrink_owner ?_ hleft p).trans (shrink_owner ?_ hright p)
    all_goals exact fun _ => rfl
  have hown3 : (s'.mem new).flOwner = some t := by
    refine ((shrink_owner ?_ hleft new).trans (shrink_owner ?_ hright new)).trans ?_
    · exact fun _ => rfl
    · exact fun _ => rfl
    · rw [hnew1]
      exact h.own r (by simp)
  have hcut : Closing i t F1 F2 f v caller s' (O1 ++ [new]) none M (r :: O2) := by
    refine ⟨?_, ?_, fun p hp => ?_, ?_, hsc ▸ hstart0, hec ▸ h.last, ?_, ?_⟩
    · rw [hiFlock, hbefore, hrest]
      simp
    · rw [hiFlock, hbefore, hrest]
      grind
    · by_cases hpn : p = new
      · exact hpn ▸ hown3
      · rw [hown2 p hpn]
        exact h.own p (by simpa [hpn] using hp)
    · have := h.apart
      grind
    · rcases h.mid with hM | ⟨q, rfl, hq, hv⟩
      · exact .inl hM
      · refine .inr ⟨q, rfl, ?_, by rw [hv, htyc]⟩
        rw [hrange q (by grind) (by grind), hrange caller hcn hcr, hq]
    · have hO1 : O1.map s'.range = O1.map s.range :=
        map_congr_left fun p hp => hrange p (by grind) (by grind)
      have hO2 : O2.map s'.range = O2.map s.range :=
        map_congr_left fun p hp => hrange p (by grind) (by grind)
      rw [hrange caller hcn hcr, map_append, map_singleton, map_cons, hr, hn, hO1, hO2]
      exact Merging.split h.merging (Ne.symm hty) hstart hend
  exact ⟨hcut, hcut.above_of_cut (hrange caller hcn hcr) hr hty⟩

/-- The last stage: the lock that sticks out below, if there is one. -/
theorem Closing.trims_left (h : Closing i t F1 F2 f v caller s O1 X M O2)
    (habove : ∀ p ∈ O2, (s.range caller).Below (s.range p))
    (htrim : trimLeft? fuel s caller X = some s') : ∃ O, Written s' i t F1 F2 f O := by
  cases X with
  | none =>
    cases htrim
    exact ⟨_, h.finish habove⟩
  | some l =>
    refine ⟨_, (h.cutLeft htrim).finish fun p hp => ?_⟩
    have hnd := h.nodup
    rw [h.list] at hnd
    have hpl : p ≠ l := by grind
    have hcl : caller ≠ l := by
      have := h.apart
      grind
    rw [Locks.range, Locks.range, range_of_core (shrink_core htrim hcl),
      range_of_core (shrink_core htrim hpl)]
    exact habove p hp

theorem Closing.trims_right
    (h : Closing i t F1 F2 f v caller s O1 X M (r :: O2)) (hcaller : c.caller = caller)
    (hty : (s.mem caller).flType ≠ (s.mem r).flType) (hmeet : Meets (s.mem caller) (s.mem r))
    (hend : (s.mem caller).flEnd < (s.mem r).flEnd) (hlast : (s.mem r).flEnd ≤ offsetMax)
    (hr : c.right = some r)
    (hl : c.left = if (s.mem r).flStart < (s.mem caller).flStart then some r else X)
    (hearly : (s.mem r).flStart < (s.mem caller).flStart →
      X = none ∧ c.before = F1 ++ O1 ∧ rest = M ++ (r :: O2 ++ F2))
    (hnew : ∀ n, call'.newFl2 = some n → n ∉ s.iFlock i ∧ caller ≠ n)
    (htrim : posixTrim fuel s t i call' c rest = some s') : ∃ O, Written s' i t F1 F2 f O := by
  obtain ⟨s1, s2, left, h1, h2, h3⟩ := posixTrim_cases htrim
  subst hcaller
  obtain ⟨r', hr', h2⟩ := h2.resolve_left fun hnone => by simp [hr] at hnone
  rw [hr] at hr'
  cases hr'
  rcases h1 with ⟨rfl, rfl, hne⟩ | ⟨r', new, hr', hl', hnew', hins, rfl⟩
  · have hge : ¬(s1.mem r).flStart < (s1.mem c.caller).flStart := by
      intro hlt
      rw [if_pos hlt] at hl
      exact hne r hr hl
    rw [if_neg hge] at hl
    rw [hl] at h3
    obtain ⟨hcut, habove⟩ := h.cutRight hty hmeet (Int.not_lt.mp hge) hend hlast h2
    exact hcut.trims_left habove h3
  · rw [hr] at hr'
    cases hr'
    have hlt : (s.mem r).flStart < (s.mem c.caller).flStart := by
      by_contra hge
      rw [if_neg hge] at hl
      have hmem : r ∈ X.toList := by simp [← hl, hl']
      have hnd := h.nodup
      rw [h.list] at hnd
      grind
    obtain ⟨rfl, hbefore, hrest⟩ := hearly hlt
    obtain ⟨hn, hcn⟩ := hnew new hnew'
    obtain ⟨hcut, habove⟩ := h.split hn hcn hty hlt hend hlast hbefore hrest hins h2 h3
    exact ⟨_, hcut.finish habove⟩

theorem posixTrim_of_right_none (h : c.right = none) :
    posixTrim fuel s t i call' c rest = trimLeft? fuel s c.caller c.left := by
  rw [posixTrim, h]

section
variable (h : ScanMap t call F1 f ty c O1 O2) (hok : ScanOk s i t call c (O2 ++ F2))
  (hcov : CovScan s i t req c (O2 ++ F2))
include h hok hcov

/-- The walk goes over into its last stage. -/
theorem ScanMap.closing (hadded : ty = .unlck ∨ c.caller ≠ call.caller) :
    Closing i t F1 F2 f ty.held c.caller c.s O1 c.left
      (if c.caller = call.caller then [] else [c.caller]) O2 := by
  have hcal := hcov.cov.caller
  have hnd := hok.nodup
  have hlist := hok.list
  rw [← hlist] at hnd
  have hbefore := h.before
  have hheld : c.caller = call.caller → c.caller ∉ c.before ++ (O2 ++ F2) := fun heq =>
    hok.held (by simp [Frame.ptrs, heq])
  refine ⟨?_, hnd, fun p hp => ?_, ?_, hcal.start, hcal.last, ?_, h.merging⟩
  · rw [hlist, hbefore]
    simp
  · by_cases hpc : p = c.caller
    · rw [hpc]
      exact hcal.owner
    · refine h.own p ?_
      simp only [mem_append] at hp ⊢
      grind
  · rw [hlist, hbefore] at hnd
    rw [hbefore] at hheld
    by_cases hc : c.caller = call.caller
    · grind
    · simp only [hc, if_false] at hnd
      grind
  · by_cases hc : c.caller = call.caller
    · rw [if_pos hc]
      have hun := hadded.resolve_right fun hne => hne hc
      exact .inl ⟨rfl, by rw [hun]; rfl⟩
    · rw [if_neg hc]
      refine .inr ⟨c.caller, rfl, rfl, ?_⟩
      rw [h.flType, LockType.held_of_ne fun hun => hc (h.unlck hun)]

/-- Likewise when the new lock is still to be put in. -/
theorem ScanMap.closing_insert (call' : PosixCall)
    (hcaller : c.caller = call.caller) (hty : ty ≠ .unlck)
    (hnew : new ∈ (Frame.posix call none).ptrs) (hne : c.caller ≠ new) :
    Closing i t F1 F2 f ty.held c.caller
      (insertCopy c.s t i call' c.before (O2 ++ F2) new c.caller) O1 c.left [new] O2 := by
  have hcal := hcov.cov.caller
  have hnd := hok.nodup
  have hbefore := h.before
  rw [if_pos hcaller] at hbefore
  have hheld : c.caller ∉ c.before ++ (O2 ++ F2) := hok.held (by simp [Frame.ptrs, hcaller])
  have hnew' := hok.held hnew
  rw [hbefore] at hnd hheld hnew'
  have hmem : ∀ p, p ≠ new →
      (insertCopy c.s t i call' c.before (O2 ++ F2) new c.caller).mem p = c.s.mem p := fun p hp =>
    FinOk.insertCopy_mem_of_ne hp
  have hrange : ∀ p ∈ O1 ++ (c.left.toList ++ O2),
      (insertCopy c.s t i call' c.before (O2 ++ F2) new c.caller).range p = c.s.range p := by
    intro p hp
    rw [Locks.range, hmem p (by grind), Locks.range]
  have hiFlock : (insertCopy c.s t i call' c.before (O2 ++ F2) new c.caller).iFlock i =
      c.before ++ new :: (O2 ++ F2) := by
    simp [insertCopy, locksInsertLock]
  refine ⟨?_, ?_, fun p hp => ?_, by grind, ?_, ?_, .inr ⟨new, rfl, ?_, ?_⟩, ?_⟩
  · rw [hiFlock, hbefore]
    simp
  · rw [hiFlock, hbefore]
    grind
  · by_cases hpn : p = new
    · rw [hpn, FinOk.insertCopy_mem_self]
      exact hcal.owner
    · rw [hmem p hpn]
      refine h.own p ?_
      simp only [mem_append, mem_cons, not_mem_nil, hpn, or_false, false_or] at hp ⊢
      exact hp
  · rw [hmem _ hne]
    exact hcal.start
  · rw [hmem _ hne]
    exact hcal.last
  · rw [Locks.range, FinOk.insertCopy_mem_self, Locks.range, hmem _ hne]
    rfl
  · rw [hmem _ hne, h.flType, LockType.held_of_ne hty]
  · rw [Locks.range, hmem _ hne]
    exact merging_congr _ h.merging hrange

theorem ScanMap.written_above (hptrs : (Frame.posix call none).ptrs.Nodup) (hright : c.right = none)
    (habove : ∀ p ∈ O2, (c.s.range c.caller).Below (c.s.range p))
    (hend : Closes fuel i t call c (O2 ++ F2) s') : ∃ O, Written s' i t F1 F2 f O := by
  rcases hend with ⟨hadded, hun, rfl⟩ | ⟨hadded, htrim⟩ | ⟨new, hadded, hty, hnew, htrim⟩
  · have hun' := h.flType.symm.trans hun
    have hclosing := h.closing hok hcov (.inl hun')
    rw [(h.fresh hadded).2 hun'] at hclosing
    exact ⟨_, hclosing.finish habove⟩
  · rw [posixTrim_of_right_none hright] at htrim
    exact (h.closing hok hcov (h.added hadded)).trims_left habove htrim
  · rw [posixTrim_of_right_none hright] at htrim
    have hrel := call.releases_newFl hnew hptrs
    have hne : c.caller ≠ new := (h.fresh hadded).1 ▸ hrel.ne_caller.symm
    have hheld := hok.held hrel.mem
    refine (h.closing_insert hok hcov _ (h.fresh hadded).1 (h.flType ▸ hty) hrel.mem hne).trims_left
      (fun p hp => ?_) htrim
    rw [Locks.range, Locks.range, FinOk.insertCopy_mem_of_ne hne,
      FinOk.insertCopy_mem_of_ne (by grind)]
    exact habove p hp

end

theorem ScanMap.written_right
    (hok : ScanOk s i t call c (r :: (O2 ++ F2))) (hcov : CovScan s i t req c (r :: (O2 ++ F2)))
    (h : ScanMap t call F1 f ty c O1 (r :: O2)) (hptrs : (Frame.posix call none).ptrs.Nodup)
    (hty : (c.s.mem c.caller).flType ≠ (c.s.mem r).flType)
    (hmeet : Meets (c.s.mem c.caller) (c.s.mem r))
    (hover : (c.s.mem c.caller).flEnd < (c.s.mem r).flEnd)
    (hend : Closes fuel i t call { c.overlap r with right := some r } (r :: (O2 ++ F2)) s') :
    ∃ O, Written s' i t F1 F2 f O := by
  have hlast := (hcov.cov.posix r (by simp)).last
  have hearly : (c.s.mem r).flStart < (c.s.mem c.caller).flStart →
      c.left = none ∧ c.caller = call.caller ∧ c.before = F1 ++ O1 := by
    intro hlt
    obtain ⟨hleft, hcaller⟩ := h.early (Int.le_of_lt hlt)
    exact ⟨hleft, hcaller, by simp [h.before, hleft, hcaller]⟩
  have hnewFl2 : ∀ n, call.newFl2 = some n → n ∉ c.before ++ r :: (O2 ++ F2) ∧
      c.caller ≠ n ∧ call.newFl ≠ some n := by
    intro n hn
    have hheld := hok.held (p := n) (by simp [Frame.ptrs, hn])
    simp only [Frame.ptrs, hn] at hptrs
    refine ⟨hheld, fun heq => ?_, by grind⟩
    rcases hok.caller with hc | hc
    · rw [← heq, hc] at hptrs
      grind
    · exact hheld (by simp [← heq, hc])
  rcases hend with ⟨hadded, hun, rfl⟩ | ⟨hadded, htrim⟩ | ⟨new, hadded, hun, hnew, htrim⟩
  · have hun' : (c.s.mem c.caller).flType = .unlck := hun
    simp [Scan.overlap, hun'] at hadded
  · refine (h.closing hok hcov (h.overlap_added hadded)).trims_right
      (c := { c.overlap r with right := some r }) rfl hty hmeet hover hlast rfl rfl
      (fun hlt => ?_) (fun n hn => ?_) htrim
    · obtain ⟨hleft, hcaller, hbefore⟩ := hearly hlt
      exact ⟨hleft, hbefore, by simp [hcaller]⟩
    · rw [hok.list]
      exact ⟨(hnewFl2 n hn).1, (hnewFl2 n hn).2.1⟩
  · have hrel := call.releases_newFl hnew hptrs
    have hun' : (c.s.mem c.caller).flType ≠ .unlck := hun
    have hadded' : c.added = false := by simpa [Scan.overlap, hun'] using hadded
    obtain ⟨hcaller, -⟩ := h.fresh hadded'
    have hne : c.caller ≠ new := hcaller ▸ hrel.ne_caller.symm
    have hheld := hok.held hrel.mem
    have hrn : r ≠ new := by grind
    have hclosing := h.closing_insert hok hcov { call with newFl := none } hcaller
      (h.flType ▸ hun') hrel.mem hne
    have hmem1 {p : LockPtr} (hp : p ≠ new) : (insertCopy c.s t i { call with newFl := none }
        c.before (r :: O2 ++ F2) new c.caller).mem p = c.s.mem p :=
      FinOk.insertCopy_mem_of_ne hp
    rw [← hmem1 hne, ← hmem1 hrn] at hty hmeet hover hearly
    rw [← hmem1 hrn] at hlast
    refine hclosing.trims_right (c := { c.overlap r with right := some r }) rfl hty hmeet hover
      hlast rfl ?_ (fun hlt => ?_) (fun n hn => ?_) htrim
    · rw [hmem1 hne, hmem1 hrn]
      rfl
    · obtain ⟨hleft, -, hbefore⟩ := hearly hlt
      exact ⟨hleft, hbefore, rfl⟩
    · obtain ⟨hn1, hn2, hn3⟩ := hnewFl2 n hn
      refine ⟨?_, hn2⟩
      simp only [insertCopy, locksInsertLock, Locks.setFrame_iFlock, Locks.setFlock_iFlock,
        Function.update_self]
      grind

/-- The first loop over the list stops at the block of the requester. -/
theorem skip_block (ho : (s.mem call.caller).flOwner = some t)
    (hlist : s.iFlock i = F1 ++ (O ++ F2)) (hown : ∀ p ∈ O, (s.mem p).flOwner = some t)
    (hforeign : ∀ p ∈ F1 ++ F2, (s.mem p).flOwner ≠ some t) (hnil : O = [] → F2 = []) :
    (s.iFlock i).takeWhile (fun p =>
        decide ((s.mem call.caller).flOwner ≠ (s.mem p).flOwner)) = F1 ∧
      (s.iFlock i).dropWhile (fun p =>
        decide ((s.mem call.caller).flOwner ≠ (s.mem p).flOwner)) = O ++ F2 := by
  have hskip : ∀ p ∈ F1, decide ((s.mem call.caller).flOwner ≠ (s.mem p).flOwner) = true := by
    intro p hpF
    rw [ho]
    simpa using fun heq => hforeign p (by simp [hpF]) heq.symm
  rw [hlist, takeWhile_append_of_pos hskip, dropWhile_append_of_pos hskip]
  cases O with
  | nil => simp [hnil rfl]
  | cons p O => simp [hown p (by simp), ho]

/-- `posix_lock_file` writes the request into the requester's map. -/
theorem posixApply_written {place : LockPtr → Option Place} (hp : Placed s place)
    (ht : s.frame t = .posix call none) (hposix : ∀ p ∈ s.iFlock i, PosixLock (s.mem p))
    (hcaller : CallerOk s i t (s.mem call.caller) (s.mem call.caller))
    (hlist : s.iFlock i = F1 ++ (O ++ F2)) (hown : ∀ p ∈ O, (s.mem p).flOwner = some t)
    (hforeign : ∀ p ∈ F1 ++ F2, (s.mem p).flOwner ≠ some t) (hnil : O = [] → F2 = [])
    (htidy : Tidy (O.map s.range)) (hwrap : (s.mem call.caller).flEnd = offsetMax → ∀ p ∈ O,
      (s.mem p).flType = (s.mem call.caller).flType →
      (s.mem p).flEnd < (s.mem call.caller).flStart - 1)
    (hf : ∀ b, f b = if (s.range call.caller).Covers b then (s.mem call.caller).flType.held
      else lookup (O.map s.range) b)
    (h : posixApply fuel s t i call = some (s', .ok)) : ∃ O', Written s' i t F1 F2 f O' := by
  rcases posixApply_cases h with ⟨he, -⟩ | ⟨-, -, c, rest, hscan, hend⟩
  · cases he
  obtain ⟨hbefore, hdrop⟩ := skip_block hcaller.owner hlist hown hforeign hnil
  have hok := ScanOk.start (i := i) hp ht
  rw [hdrop] at hok hscan
  have hcov : CovScan s i t (s.mem call.caller) (Scan.start s i call) (O ++ F2) :=
    ⟨hok.list ▸ Cov.start hposix hcaller, nofun, nofun⟩
  have hmap : ScanMap t call F1 f (s.mem call.caller).flType (Scan.start s i call) [] O := by
    refine ⟨?_, ?_, rfl, Merging.start htidy hcaller.proper hf, nofun, fun _ => ⟨rfl, fun _ => rfl⟩,
      fun _ => rfl, fun hne => absurd rfl hne, hwrap⟩
    · show (s.iFlock i).takeWhile _ = _
      rw [hbefore]
      simp [Scan.start]
    · simpa [Scan.start] using hown
  have hptrs := hp.ptrs t
  rw [ht] at hptrs
  cases posixScan_map (fun p hpF => hforeign p (by simp [hpF])) hok rfl hcov hmap hscan with
  | above _ hok hcov h hright habove => exact h.written_above hok hcov hptrs hright habove hend
  | right hok hcov h hty hmeet hover =>
    exact h.written_right hok hcov hptrs hty hmeet hover hend

end Sbckernel.Fs
