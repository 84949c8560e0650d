import Sbckernel.Proofs.LockPlaces

/-!
# Mutual exclusion of file locks

A lock excludes others from the bytes it covers. The conflict check runs over
the whole list before a lock goes in, but `posix_lock_file` then merges,
shrinks, splits and retypes locks in place, so what has to be shown is that
none of this covers a byte that was not checked: after the call, every byte of
every lock of the requester was either in the request or in a lock of the same
type that the requester had before.

A lock whose start lies behind its end covers nothing. Such locks exist: a
request up to the largest offset can leave the list unsorted, and a later one
then shrinks a lock past its own start. `locks_overlap` may still count it as
overlapping others, so exclusion is stated for bytes here.
-/

namespace Sbckernel.Fs

open FileLock FinOk

variable {a b req fl caller : FileLock} {s s' s0 : Locks} {rest : List LockPtr} {call : PosixCall}
  {fuel : Nat} {c' : Scan} {i : InodePtr} {t : TaskPtr}

def Covers (fl : FileLock) (b : Int) : Prop := fl.flStart ≤ b ∧ b ≤ fl.flEnd
  deriving Decidable

/-- A record that may stand in a list of POSIX locks. -/
structure PosixLock (fl : FileLock) : Prop where
  posix : fl.flFlags.posix = true
  flock : fl.flFlags.flock = false
  owner : ∃ o, fl.flOwner = some o
  flType : fl.flType ≠ .unlck
  start : 0 ≤ fl.flStart
  last : fl.flEnd ≤ offsetMax

/-- Every byte of the record was requested in `req`, or lies in a lock of the
same type that `t` had in the list of `i` in `s0`. -/
def Justified (s0 : Locks) (i : InodePtr) (t : TaskPtr) (req fl : FileLock) : Prop :=
  ∀ b, Covers fl b → (fl.flType = req.flType ∧ Covers req b) ∨
    ∃ q ∈ s0.iFlock i, (s0.mem q).flOwner = some t ∧ (s0.mem q).flType = fl.flType ∧
      Covers (s0.mem q) b

/-- The record that `caller` points to. -/
structure CallerOk (s0 : Locks) (i : InodePtr) (t : TaskPtr) (req fl : FileLock) : Prop where
  justified : Justified s0 i t req fl
  posix : fl.flFlags.posix = true
  flock : fl.flFlags.flock = false
  owner : fl.flOwner = some t
  flType : fl.flType = req.flType
  start : 0 ≤ fl.flStart
  proper : fl.flStart ≤ fl.flEnd
  last : fl.flEnd ≤ offsetMax

theorem PosixLock.of_core (h : a.core = b.core) (hb : PosixLock b) : PosixLock a := by
  obtain ⟨ho, -, hg, hty, hs, he⟩ := core_eq_iff.mp h
  exact ⟨hg ▸ hb.posix, hg ▸ hb.flock, ho ▸ hb.owner, hty ▸ hb.flType, hs ▸ hb.start, he ▸ hb.last⟩

theorem covers_of_core (h : a.core = b.core) (x : Int) : Covers a x ↔ Covers b x := by
  obtain ⟨-, -, -, -, hs, he⟩ := core_eq_iff.mp h
  rw [Covers, Covers, hs, he]

theorem Justified.of_core (h : a.core = b.core)
    (hb : Justified s0 i t req b) : Justified s0 i t req a := by
  intro x hx
  obtain ⟨-, -, -, hty, -, -⟩ := core_eq_iff.mp h
  rw [hty]
  exact hb x ((covers_of_core h x).mp hx)

/-- A smaller range of the same type needs no further justification. -/
theorem Justified.shrink (hb : Justified s0 i t req b) (hty : a.flType = b.flType)
    (hs : b.flStart ≤ a.flStart) (he : a.flEnd ≤ b.flEnd) : Justified s0 i t req a := by
  intro x hx
  rw [hty]
  exact hb x ⟨Int.le_trans hs hx.1, Int.le_trans hx.2 he⟩

theorem CallerOk.of_core (h : a.core = b.core)
    (hb : CallerOk s0 i t req b) : CallerOk s0 i t req a := by
  obtain ⟨ho, -, hg, hty, hs, he⟩ := core_eq_iff.mp h
  exact ⟨hb.justified.of_core h, hg ▸ hb.posix, hg ▸ hb.flock, ho ▸ hb.owner, hty ▸ hb.flType,
    hs ▸ hb.start, hs ▸ he ▸ hb.proper, he ▸ hb.last⟩

theorem CallerOk.posixLock (h : CallerOk s0 i t req fl) (hty : fl.flType ≠ .unlck) : PosixLock fl :=
  ⟨h.posix, h.flock, ⟨t, h.owner⟩, hty, h.start, h.last⟩

/-- An old lock of the requester that has taken over the caller's range and
type. -/
theorem CallerOk.transfer (hc : CallerOk s0 i t req caller)
    (hposix : fl.flFlags.posix = true) (hflock : fl.flFlags.flock = false)
    (howner : fl.flOwner = some t) (hty : fl.flType = caller.flType)
    (hs : fl.flStart = caller.flStart) (he : fl.flEnd = caller.flEnd) : CallerOk s0 i t req fl := by
  refine ⟨hc.justified.shrink hty (by omega) (by omega), hposix, hflock, howner,
    hty.trans hc.flType, ?_, ?_, ?_⟩
  · rw [hs]
    exact hc.start
  · rw [hs, he]
    exact hc.proper
  · rw [he]
    exact hc.last

/-- The caller and an old lock that touches it leave no gap, even where the
comparison with `fl_end + 1` wraps. -/
theorem CallerOk.hull (hc : CallerOk s0 i t req caller)
    (hfl : PosixLock fl) (hj : Justified s0 i t req fl) (hty : caller.flType = fl.flType)
    (htouch : Touches caller fl) : CallerOk s0 i t req (hull caller fl) := by
  refine ⟨fun b hb => ?_, hc.posix, hc.flock, hc.owner, hc.flType, ?_, ?_, ?_⟩
  · have hcovers : Covers caller b ∨ Covers fl b := by
      obtain ⟨-, -, -, -, -, hs, hp, hl⟩ := hc
      obtain ⟨h1, h2⟩ := htouch
      have := hfl.start
      simp only [Covers, Fs.hull, offT, offsetMax] at *
      omega
    rcases hcovers with hb | hb
    · exact hc.justified b hb
    · have := hj b hb
      rw [← hty] at this
      exact this
  · have := hc.start
    have := hfl.start
    simp only [Fs.hull]
    omega
  · have := hc.proper
    simp only [Fs.hull]
    omega
  · have := hc.last
    have := hfl.last
    simp only [Fs.hull]
    omega

/-- What the call keeps while it works on the list of `i`. -/
structure Cov (s0 : Locks) (i : InodePtr) (t : TaskPtr) (req : FileLock) (s : Locks)
    (locks : List LockPtr) (caller : LockPtr) : Prop where
  foreign : ∀ p ∈ locks, (s.mem p).flOwner ≠ some t →
    p ∈ s0.iFlock i ∧ (s.mem p).core = (s0.mem p).core
  own : ∀ p ∈ locks, (s.mem p).flOwner = some t → Justified s0 i t req (s.mem p)
  posix : ∀ p ∈ locks, PosixLock (s.mem p)
  caller : CallerOk s0 i t req (s.mem caller)

namespace Cov

variable
  {locks locks' : List LockPtr} {caller caller' : LockPtr}

/-- Locks that stay as they are, and locks of the requester that are justified
anew. -/
theorem update (h : Cov s0 i t req s locks caller)
    (hlocks : ∀ p ∈ locks', (p ∈ locks ∧ (s'.mem p).core = (s.mem p).core) ∨
      (s'.mem p).flOwner = some t ∧ Justified s0 i t req (s'.mem p) ∧ PosixLock (s'.mem p))
    (hcaller : CallerOk s0 i t req (s'.mem caller')) : Cov s0 i t req s' locks' caller' := by
  refine ⟨fun p hp ho => ?_, fun p hp ho => ?_, fun p hp => ?_, hcaller⟩
  · rcases hlocks p hp with ⟨hmem, hcore⟩ | ⟨howner, -⟩
    · have howner := (core_eq_iff.mp hcore).1
      obtain ⟨h1, h2⟩ := h.foreign p hmem (howner ▸ ho)
      exact ⟨h1, hcore.trans h2⟩
    · exact absurd howner ho
  · rcases hlocks p hp with ⟨hmem, hcore⟩ | ⟨-, hj, -⟩
    · have howner := (core_eq_iff.mp hcore).1
      exact (h.own p hmem (howner ▸ ho)).of_core hcore
    · exact hj
  · rcases hlocks p hp with ⟨hmem, hcore⟩ | ⟨-, -, hk⟩
    · exact (h.posix p hmem).of_core hcore
    · exact hk

theorem start (hposix : ∀ p ∈ s.iFlock i, PosixLock (s.mem p))
    (hcaller : CallerOk s i t req (s.mem caller)) : Cov s i t req s (s.iFlock i) caller :=
  ⟨fun _ hp _ => ⟨hp, rfl⟩, fun p hp ho _ hb => .inr ⟨p, hp, ho, rfl, hb⟩, hposix, hcaller⟩

/-- A copy of a record of the requester goes into the list. -/
theorem insert {before : List LockPtr} {new fl : LockPtr}
    (h : Cov s0 i t req s (before ++ rest) caller) (hnew : new ∉ before ++ rest)
    (hne : caller ≠ new) (howner : (s.mem fl).flOwner = some t)
    (hj : Justified s0 i t req (s.mem fl)) (hk : PosixLock (s.mem fl)) :
    Cov s0 i t req (insertCopy s t i call before rest new fl) (before ++ new :: rest) caller := by
  refine h.update (fun p hp => ?_) ?_
  · by_cases hpn : p = new
    · subst hpn
      rw [insertCopy_mem_self]
      exact .inr ⟨howner, hj.of_core rfl, PosixLock.of_core (b := s.mem fl) rfl hk⟩
    · refine .inl ⟨?_, by rw [insertCopy_mem_of_ne hpn]⟩
      simp only [List.mem_append, List.mem_cons, hpn, false_or] at hp ⊢
      exact hp
  · rw [insertCopy_mem_of_ne hne]
    exact h.caller

/-- A lock of the requester shrinks in place. -/
theorem trim {p : LockPtr} {f : FileLock → FileLock} (h : Cov s0 i t req s locks caller)
    (hp : p ∈ locks) (hne : caller ≠ p) (howner : (s.mem p).flOwner = some t)
    (hf : ∀ r, (f r).ident = r.ident) (hty : (f (s.mem p)).flType = (s.mem p).flType)
    (hs : (s.mem p).flStart ≤ (f (s.mem p)).flStart) (he : (f (s.mem p)).flEnd ≤ (s.mem p).flEnd)
    (hwake : locksWakeUpBlocks fuel (s.modify p f) p = some s') :
    Cov s0 i t req s' locks caller := by
  have hsame := sameLocks_wakeUpBlocks hwake
  have hk := h.posix p hp
  obtain ⟨ho, -, hg, -⟩ : (f (s.mem p)).flOwner = (s.mem p).flOwner ∧
      (f (s.mem p)).flFile = (s.mem p).flFile ∧ (f (s.mem p)).flFlags = (s.mem p).flFlags ∧
      (f (s.mem p)).flWait = (s.mem p).flWait := by
    simpa [FileLock.ident] using hf (s.mem p)
  refine h.update (fun q hq => ?_) (h.caller.of_core ?_)
  · by_cases hqp : q = p
    · subst hqp
      have hcore := hsame.core q
      rw [Locks.modify_mem_self] at hcore
      refine .inr ⟨?_, ((h.own q hq howner).shrink hty hs he).of_core hcore, ?_⟩
      · rw [(core_eq_iff.mp hcore).1, ho]
        exact howner
      · refine PosixLock.of_core hcore ⟨hg ▸ hk.posix, hg ▸ hk.flock, ho ▸ hk.owner,
          hty ▸ hk.flType, Int.le_trans hk.start hs, Int.le_trans he hk.last⟩
    · exact .inl ⟨hq, by rw [hsame.core, s.modify_mem_of_ne f hqp]⟩
  · rw [hsame.core, s.modify_mem_of_ne f hne]

end Cov

/-- The loop's part of it: the two locks that are shrunk at the end belong to
the requester and reach into its range. -/
structure CovScan (s0 : Locks) (i : InodePtr) (t : TaskPtr) (req : FileLock) (c : Scan)
    (rest : List LockPtr) : Prop where
  cov : Cov s0 i t req c.s (c.before ++ rest) c.caller
  left : ∀ l, c.left = some l → (c.s.mem l).flOwner = some t ∧
    (c.s.mem c.caller).flStart ≤ (c.s.mem l).flEnd
  right : ∀ r, c.right = some r → (c.s.mem r).flOwner = some t ∧
    (c.s.mem r).flStart ≤ (c.s.mem c.caller).flEnd ∧
    (c.s.mem c.caller).flEnd < (c.s.mem r).flEnd

namespace CovScan

variable
  {c : Scan} {fl : LockPtr}

section
variable (hok : ScanOk s0 i t call c (fl :: rest))
include hok

/-- The two records of a merge both hold the joined range. -/
theorem merged (h : CovScan s0 i t req c (fl :: rest))
    (hfl : (c.s.mem fl).flOwner = some t) (hty : (c.s.mem c.caller).flType = (c.s.mem fl).flType)
    (htouch : Touches (c.s.mem c.caller) (c.s.mem fl)) :
    CallerOk s0 i t req ((mergeRanges c.s c.caller fl).mem fl) ∧
      CallerOk s0 i t req ((mergeRanges c.s c.caller fl).mem c.caller) ∧ req.flType ≠ .unlck := by
  have hmem : fl ∈ c.before ++ fl :: rest := by simp
  have hk := h.cov.posix fl hmem
  have hhull := h.cov.caller.hull hk (h.cov.own fl hmem hfl) hty htouch
  have hfl' : CallerOk s0 i t req (hull (c.s.mem fl) (c.s.mem c.caller)) :=
    hhull.transfer hk.posix hk.flock hfl hty.symm (Int.min_comm _ _) (Int.max_comm _ _)
  rw [(mergeRanges_mem c.s hok.caller_ne).1, (mergeRanges_mem c.s hok.caller_ne).2]
  exact ⟨hfl', hhull, h.cov.caller.flType ▸ hty ▸ hk.flType⟩

theorem left_ne (hr : c.right = none) {l : LockPtr}
    (hl : c.left = some l) : l ≠ fl ∧ l ≠ c.caller := by
  obtain ⟨hmem, hne⟩ := hok.left l hl
  refine ⟨fun heq => ?_, hne⟩
  rcases hmem with hmem | hmem
  · exact hok.fl_not_before (heq ▸ hmem)
  · rw [hr] at hmem
    cases hmem

omit hok in
/-- A round changes records to ones that stand for the request, leaves the others alone and
does not move the start of the caller up. -/
theorem goto (h : CovScan s0 i t req c (fl :: rest)) (hr : c'.right = none)
    (hcaller : CallerOk s0 i t req (c'.s.mem c'.caller)) (hlocks : ∀ p ∈ c'.before ++ rest,
      p ∈ c.before ++ fl :: rest ∧ (c'.s.mem p).core = (c.s.mem p).core ∨
        CallerOk s0 i t req (c'.s.mem p) ∧ req.flType ≠ .unlck)
    (hleft : ∀ l, c'.left = some l → c.left = some l ∧ (c'.s.mem l).core = (c.s.mem l).core)
    (hstart : (c'.s.mem c'.caller).flStart ≤ (c.s.mem c.caller).flStart) :
    CovScan s0 i t req c' rest := by
  refine ⟨h.cov.update (fun p hp => ?_) hcaller, fun l hl => ?_, fun r hr' => ?_⟩
  · refine (hlocks p hp).imp_right ?_
    rintro ⟨hp', hunlck⟩
    exact ⟨hp'.owner, hp'.justified, hp'.posixLock (hp'.flType ▸ hunlck)⟩
  · obtain ⟨hl, hcore⟩ := hleft l hl
    obtain ⟨ho, -, -, -, -, he⟩ := core_eq_iff.mp hcore
    obtain ⟨hlo, hle⟩ := h.left l hl
    exact ⟨ho.trans hlo, by omega⟩
  · cases hr.symm.trans hr'

theorem round {r : Round} (h : CovScan s0 i t req c (fl :: rest)) (hr : c.right = none)
    (howner : (c.s.mem c.caller).flOwner = (c.s.mem fl).flOwner)
    (hcase : RoundCase fuel i c fl rest r) :
    r.Leads (CovScan s0 i t req) (CovScan s0 i t req) fl rest := by
  have hfl : (c.s.mem fl).flOwner = some t := howner ▸ h.cov.caller.owner
  have happend : ∀ p, p ∈ (c.before ++ [fl]) ++ rest → p ∈ c.before ++ fl :: rest := by simp
  have hkeep : CovScan s0 i t req { c with before := c.before ++ [fl] } rest :=
    h.goto hr h.cov.caller (fun p hp => .inl ⟨happend p hp, rfl⟩) (fun l hl => ⟨hl, rfl⟩) Int.le_rfl
  have hsub := (List.sublist_cons_self fl rest).append_left c.before
  cases hcase with
  | sameAbove => exact h
  | otherAbove => exact h
  | right hty hmeet hend =>
    refine ⟨h.cov, fun l hl => ?_, fun r hr => ?_⟩
    · simp only [Scan.overlap] at hl ⊢
      split at hl
      · cases hl
        exact ⟨hfl, hmeet.1⟩
      · exact h.left l hl
    · cases hr
      exact ⟨hfl, hmeet.2, hend⟩
  | sameBelow => exact hkeep
  | otherBelow => exact hkeep
  | left hty hmeet hend hstart =>
    refine ⟨hkeep.cov, fun l hl => ?_, hkeep.right⟩
    simp only [Scan.overlap, hstart, if_true] at hl
    cases hl
    exact ⟨hfl, hmeet.1⟩
  | become hty htouch hadded =>
    obtain ⟨hmerge, hcaller, hunlck⟩ := merged hok h hfl hty htouch
    refine h.goto hr hmerge (fun p hp => ?_) (fun l hl => ⟨hl, ?_⟩) ?_
    · by_cases hpf : p = fl
      · exact .inr ⟨hpf ▸ hmerge, hunlck⟩
      · by_cases hpc : p = c.caller
        · exact .inr ⟨hpc ▸ hcaller, hunlck⟩
        · exact .inl ⟨happend p hp, by rw [mergeRanges_other c.s hpc hpf]⟩
    · obtain ⟨hlf, hlc⟩ := left_ne hok hr hl
      rw [mergeRanges_other c.s hlc hlf]
    · rw [(mergeRanges_mem c.s hok.caller_ne).1]
      exact Int.min_le_right _ _
  | replace s' hty hend hstart hadded hwake =>
    have hsame := sameLocks_wakeUpBlocks hwake
    have hunlck : (c.s.mem c.caller).flType ≠ .unlck := by
      intro heq
      simp [Scan.overlap, heq] at hadded
    have hleft : ¬(c.s.mem fl).flStart < (c.s.mem c.caller).flStart := by omega
    obtain ⟨-, -, -, hty', hs, he⟩ := core_eq_iff.mp (hsame.core c.caller)
    obtain ⟨hfo, -, hfg, -, -, -⟩ := core_eq_iff.mp (hsame.core fl)
    have hk := h.cov.posix fl (by simp)
    have htake : CallerOk s0 i t req ((takeOver s' c.caller fl).mem fl) := by
      rw [takeOver_fl]
      exact h.cov.caller.transfer (by rw [hfg]; exact hk.posix) (by rw [hfg]; exact hk.flock)
        (by rw [hfo]; exact hfl) hty' hs he
    refine h.goto hr htake (fun p hp => ?_) (fun l hl => ?_) ?_
    · by_cases hpf : p = fl
      · exact .inr ⟨hpf ▸ htake, h.cov.caller.flType ▸ hunlck⟩
      · refine .inl ⟨happend p hp, ?_⟩
        rw [takeOver_other _ hpf]
        exact hsame.core p
    · simp only [Scan.overlap, hleft, if_false] at hl
      refine ⟨hl, ?_⟩
      rw [takeOver_other _ (left_ne hok hr hl).1]
      exact hsame.core l
    · rw [takeOver_fl]
      exact Int.le_of_eq hs
  | absorb s' hty htouch hadded hdel =>
    have hcore := (deleted_of_deleteLock hdel).core
    obtain ⟨-, hcaller, hunlck⟩ := merged hok h hfl hty htouch
    have hcaller' := hcaller.of_core (hcore c.caller)
    refine h.goto hr hcaller' (fun p hp => ?_) (fun l hl => ⟨hl, ?_⟩) ?_
    · by_cases hpc : p = c.caller
      · exact .inr ⟨hpc ▸ hcaller', hunlck⟩
      · have hpf : p ≠ fl := by
          rintro rfl
          exact (List.mem_append.mp hp).elim hok.fl_not_before hok.fl_not_rest
        exact .inl ⟨hsub.subset hp, by rw [hcore, mergeRanges_other c.s hpc hpf]⟩
    · obtain ⟨hlf, hlc⟩ := left_ne hok hr hl
      rw [hcore, mergeRanges_other c.s hlc hlf]
    · rw [(core_eq_iff.mp (hcore c.caller)).2.2.2.2.1,
        (mergeRanges_mem c.s hok.caller_ne).2]
      exact Int.min_le_left _ _
  | covered s' hty hend hstart hadded hdel =>
    have hcore := (deleted_of_deleteLock hdel).core
    have hleft : ¬(c.s.mem fl).flStart < (c.s.mem c.caller).flStart := by omega
    refine h.goto hr (h.cov.caller.of_core (hcore c.caller))
      (fun p hp => .inl ⟨hsub.subset hp, hcore p⟩) (fun l hl => ⟨?_, hcore l⟩)
      (Int.le_of_eq (core_eq_iff.mp (hcore c.caller)).2.2.2.2.1)
    simpa only [Scan.overlap, hleft, if_false] using hl

end

end CovScan

/-- Shrinking a lock leaves the others alone. -/
theorem shrink_core {p q : LockPtr} {g : FileLock → FileLock}
    (h : locksWakeUpBlocks fuel (s.modify q g) q = some s') (hp : p ≠ q) :
    (s'.mem p).core = (s.mem p).core := by
  rw [(sameLocks_wakeUpBlocks h).core, s.modify_mem_of_ne _ hp]

theorem offT_pred {x : Int} (h0 : 0 ≤ x) (h1 : x ≤ offsetMax) : offT (x - 1) = x - 1 := by
  simp only [offT, offsetMax] at *
  omega

theorem offT_succ {x : Int} (h0 : 0 ≤ x) (h1 : x < offsetMax) : offT (x + 1) = x + 1 := by
  simp only [offT, offsetMax] at *
  omega

/-- The locks that are still to be shrunk belong to the requester and reach into the range of the
caller. -/
structure Overhang (t : TaskPtr) (s : Locks) (caller : LockPtr) (left right : Option LockPtr) :
    Prop where
  left : ∀ l, left = some l → caller ≠ l ∧ (s.mem l).flOwner = some t ∧
    (s.mem caller).flStart ≤ (s.mem l).flEnd
  right : ∀ r, right = some r → caller ≠ r ∧ (s.mem r).flOwner = some t ∧
    (s.mem r).flStart ≤ (s.mem caller).flEnd ∧ (s.mem caller).flEnd < (s.mem r).flEnd

theorem Overhang.congr {caller : LockPtr} {left right : Option LockPtr}
    (h : Overhang t s caller left right) (hcaller : (s'.mem caller).core = (s.mem caller).core)
    (hleft : ∀ l, left = some l → (s'.mem l).core = (s.mem l).core)
    (hright : ∀ r, right = some r → (s'.mem r).core = (s.mem r).core) :
    Overhang t s' caller left right := by
  obtain ⟨-, -, -, -, hcs, hce⟩ := core_eq_iff.mp hcaller
  refine ⟨fun l hl => ?_, fun r hr => ?_⟩
  · obtain ⟨ho, -, -, -, -, he⟩ := core_eq_iff.mp (hleft l hl)
    rw [ho, hcs, he]
    exact h.left l hl
  · obtain ⟨ho, -, -, -, hs, he⟩ := core_eq_iff.mp (hright r hr)
    rw [ho, hs, hce, he]
    exact h.right r hr

theorem Cov.trims {call0 : PosixCall} {c : Scan}
    (hfin : FinOk s0 i t call0 s call (c.before ++ rest))
    (h : Cov s0 i t req s (c.before ++ rest) c.caller)
    (hcaller : c.caller = call.caller ∨ c.caller ∈ c.before)
    (hleft : ∀ l, c.left = some l → l ∈ c.before ++ rest)
    (hright : ∀ r, c.right = some r → r ∈ c.before ++ rest)
    (hover : Overhang t s c.caller c.left c.right)
    (htrim : posixTrim fuel s t i call c rest = some s') :
    ∃ call' locks, FinOk s0 i t call0 s' call' locks ∧ Cov s0 i t req s' locks c.caller := by
  refine (posixTrim_rule (P := fun s rest left right =>
    Cov s0 i t req s (c.before ++ rest) c.caller ∧ Overhang t s c.caller left right)
    hfin hleft hright ⟨h, hover⟩ ?_ ?_ ?_ htrim).imp
      fun _ h' => h'.elim fun _ h' => ⟨_, h'.1, h'.2.1⟩
  · intro call' r new _ hl hr hnew hnc
    have hrm := hright r hr
    obtain ⟨hrc, hro, hrs, hre⟩ := hover.right r hr
    have hout := hfin.held hnew
    have hcn : c.caller ≠ new := by
      rintro rfl
      exact hcaller.elim hnc fun hc => hout (List.mem_append_left _ hc)
    have hrn : r ≠ new := fun heq => hout (heq ▸ hrm)
    refine ⟨h.insert hout hcn hro (h.own r hrm hro) (h.posix r hrm), fun l hl => ?_,
      fun r' hr' => ?_⟩
    · cases hl
      rw [insertCopy_mem_self, insertCopy_mem_of_ne hcn]
      have hproper := h.caller.proper
      refine ⟨hcn, hro, ?_⟩
      simp only [FileLock.core]
      omega
    · cases hr'
      rw [insertCopy_mem_of_ne hrn, insertCopy_mem_of_ne hcn]
      exact ⟨hrc, hro, hrs, hre⟩
  · intro s1 s2 call' rest left r _ hrm hne h1 htrim1
    obtain ⟨hcov, hover⟩ := h1
    obtain ⟨hrc, hro, hrs, hre⟩ := hover.right r rfl
    have hlast := (hcov.posix r hrm).last
    have hcs := hcov.caller.start
    have hcp := hcov.caller.proper
    have hoff := offT_succ (x := (s1.mem c.caller).flEnd) (by omega) (by omega)
    refine ⟨hcov.trim hrm hrc hro ?_ ?_ ?_ ?_ htrim1, ?_⟩
    · exact fun _ => rfl
    · rfl
    · dsimp only
      omega
    · exact Int.le_refl _
    · have hleft : Overhang t s1 c.caller left none := ⟨hover.left, by simp⟩
      refine hleft.congr (shrink_core htrim1 hrc) (fun l hl => ?_) (by simp)
      exact shrink_core htrim1 fun heq => hne (heq ▸ hl)
  · intro s1 s2 call' rest l _ hlm h1 htrim1
    obtain ⟨hcov, hover⟩ := h1
    obtain ⟨hlc, hlo, hle⟩ := hover.left l rfl
    have hcs := hcov.caller.start
    have hcp := hcov.caller.proper
    have hce := hcov.caller.last
    have hoff := offT_pred hcs (by omega)
    refine ⟨hcov.trim hlm hlc hlo ?_ ?_ ?_ ?_ htrim1, by simp, by simp⟩
    · exact fun _ => rfl
    · rfl
    · exact Int.le_refl _
    · dsimp only
      omega

/-- The whole of `posix_lock_file` behind its conflict check. -/
theorem posixApply_cov {place : LockPtr → Option Place} (hp : Placed s place)
    (ht : s.frame t = .posix call none) (hposix : ∀ p ∈ s.iFlock i, PosixLock (s.mem p))
    (hcaller : CallerOk s i t (s.mem call.caller) (s.mem call.caller))
    (h : posixApply fuel s t i call = some (s', .ok)) :
    ∃ call' locks caller, FinOk s i t call s' call' locks ∧
      Cov s i t (s.mem call.caller) s' locks caller := by
  rcases posixApply_cases h with ⟨he, -⟩ | ⟨-, -, c, rest, hscan, hend⟩
  · cases he
  have hok := ScanOk.start (i := i) hp ht
  have hstart : CovScan s i t (s.mem call.caller) (Scan.start s i call) _ :=
    ⟨hok.list ▸ Cov.start hposix hcaller, nofun, nofun⟩
  obtain ⟨hok', hcov⟩ := posixScan_ok_rule (P := CovScan s i t (s.mem call.caller))
    (Q := CovScan s i t (s.mem call.caller)) (fun _ _ _ h => h) (fun _ _ _ _ _ h _ => h)
    (fun _ _ _ _ hok hr h howner hcase => h.round hok hr howner hcase) hok rfl hstart hscan
  have hover : Overhang t c.s c.caller c.left c.right := by
    refine ⟨fun l hl => ⟨(hok'.left l hl).2.symm, hcov.left l hl⟩, fun r hr => ?_⟩
    obtain ⟨rest', rfl⟩ := hok'.right r hr
    exact ⟨hok'.caller_ne, hcov.right r hr⟩
  rcases hend with ⟨-, -, rfl⟩ | ⟨-, htrim⟩ | ⟨newFl, -, hty, hnew, htrim⟩
  · exact ⟨call, _, c.caller, hok'.finOk, hcov.cov⟩
  · obtain ⟨call', locks, hfin, hc⟩ :=
      Cov.trims hok'.finOk hcov.cov hok'.caller (fun _ => hok'.left_mem) (fun _ => hok'.right_mem)
        hover htrim
    exact ⟨call', locks, c.caller, hfin, hc⟩
  · obtain ⟨hmem, hne, hfin1⟩ := hok'.finOk.insert_newFl hnew c.caller
    have hout := hok'.finOk.held hmem
    have hcn : c.caller ≠ newFl := by
      rintro rfl
      exact hok'.caller.elim hne fun hc => hout (List.mem_append_left _ hc)
    have hsame : ∀ p ∈ c.before ++ rest, ((insertCopy c.s t i { call with newFl := none } c.before
        rest newFl c.caller).mem p).core = (c.s.mem p).core := by
      intro p hp
      have hpn : p ≠ newFl := fun heq => hout (heq ▸ hp)
      rw [insertCopy_mem_of_ne hpn]
    have hin := (List.sublist_cons_self newFl rest).append_left c.before
    have hc := hcov.cov.caller
    obtain ⟨call', locks, hfin, hc⟩ := Cov.trims hfin1
      (hcov.cov.insert hout hcn hc.owner hc.justified (hc.posixLock hty)) hok'.caller
      (fun l hl => hin.subset (hok'.left_mem hl)) (fun r hr => hin.subset (hok'.right_mem hr))
      (hover.congr (by rw [insertCopy_mem_of_ne hcn]) (fun l hl => hsame l (hok'.left_mem hl))
        fun r hr => hsame r (hok'.right_mem hr)) htrim
    exact ⟨call', locks, c.caller, hfin, hc⟩

end Sbckernel.Fs
