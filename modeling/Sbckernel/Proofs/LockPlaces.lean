import Sbckernel.Lib.Update
import Sbckernel.Proofs.PosixScan

/-!
# Every record has one place

A record that is allocated is either in the list of one inode or held by one
task's open call, and in neither twice. That is what makes the pointer code
safe to reason about: a write through one pointer is not seen through another,
and nothing that is freed is still in a list. The ghost map `place` records
where each record is, and each operation moves one record or a few.
-/

namespace Sbckernel.Fs

open Lib Function List

variable {p new : LockPtr} {c' c : Scan} {s s0 s' : Locks} {i : InodePtr} {t : TaskPtr}
  {call call0 : PosixCall} {fuel : Nat} {rest before : List LockPtr} {fr : Frame}

inductive Place where
  | inode (i : InodePtr)
  | task (t : TaskPtr)

/-- The records a call holds. -/
def Frame.ptrs : Frame → List LockPtr
  | .idle => []
  | .posix call _ => call.caller :: (call.newFl.toList ++ call.newFl2.toList)
  | .flock call _ => call.newFl.toList
  | .flockDelete call thisfl => thisfl :: call.newFl.toList

structure Placed (s : Locks) (place : LockPtr → Option Place) : Prop where
  iFlock : ∀ i p, p ∈ s.iFlock i ↔ place p = some (.inode i)
  frame : ∀ t p, p ∈ (s.frame t).ptrs ↔ place p = some (.task t)
  allocated : ∀ p, s.allocated p = true ↔ place p ≠ none
  nodup : ∀ i, (s.iFlock i).Nodup
  ptrs : ∀ t, (s.frame t).ptrs.Nodup
  table : s.fileLockTable.Nodup
  mem_table : ∀ p, p ∈ s.fileLockTable ↔ ∃ i, p ∈ s.iFlock i

namespace Placed

variable {place : LockPtr → Option Place}

section
variable (h : Placed s place)
include h

theorem congr (hiFlock : s'.iFlock = s.iFlock)
    (hframe : ∀ t, (s'.frame t).ptrs = (s.frame t).ptrs) (hallocated : s'.allocated = s.allocated)
    (htable : s'.fileLockTable = s.fileLockTable) : Placed s' place where
  iFlock := by rw [hiFlock]; exact h.iFlock
  frame t := by rw [hframe]; exact h.frame t
  allocated := by rw [hallocated]; exact h.allocated
  nodup := by rw [hiFlock]; exact h.nodup
  ptrs t := by rw [hframe]; exact h.ptrs t
  table := by rw [htable]; exact h.table
  mem_table := by rw [htable, hiFlock]; exact h.mem_table

theorem same (hs : SameLocks s s') : Placed s' place :=
  h.congr hs.iFlock (fun t => by rw [hs.frame]) hs.allocated hs.table

theorem modify (q : LockPtr) (f : FileLock → FileLock) : Placed (s.modify q f) place :=
  h.congr rfl (fun _ => rfl) rfl rfl

theorem mergeRanges (q r : LockPtr) : Placed (mergeRanges s q r) place :=
  h.congr (by simp) (by simp) (by simp) (by simp)

theorem ptrs_update (hframe : s'.frame = update s.frame t fr)
    (hptrs : fr.ptrs.Nodup) (u : TaskPtr) : (s'.frame u).ptrs.Nodup := by
  rw [hframe]
  rcases eq_or_ne u t with rfl | hu
  · rwa [update_self]
  · rw [update_of_ne hu]
    exact h.ptrs u

/-- A record some task holds is in no list. -/
theorem not_listed (hp : p ∈ (s.frame t).ptrs) (i : InodePtr) : p ∉ s.iFlock i := by
  intro hi
  rw [h.frame] at hp
  rw [h.iFlock, hp] at hi
  cases hi

theorem inode_unique {j : InodePtr} (hi : p ∈ s.iFlock i) (hj : p ∈ s.iFlock j) : i = j := by
  rw [h.iFlock] at hi hj
  rw [hi] at hj
  cases hj
  rfl

theorem task_unique {u : TaskPtr} (ht : p ∈ (s.frame t).ptrs)
    (hu : p ∈ (s.frame u).ptrs) : t = u := by
  rw [h.frame] at ht hu
  rw [ht] at hu
  cases hu
  rfl

theorem mem_unlist (hlist : s.iFlock i = before ++ p :: rest) (j : InodePtr) (r : LockPtr) :
    r ∈ update s.iFlock i (before ++ rest) j ↔ r ∈ s.iFlock j ∧ r ≠ p := by
  rcases eq_or_ne j i with rfl | hj
  · have hnd := h.nodup j
    rw [hlist] at hnd
    rw [update_self, hlist]
    grind
  · have := fun hp : p ∈ s.iFlock j => hj (h.inode_unique hp (by simp [hlist]))
    rw [update_of_ne hj]
    grind

/-- A listed record leaves the lists, for a task or for good. -/
theorem unlist (hlist : s.iFlock i = before ++ p :: rest)
    (hiFlock : s'.iFlock = update s.iFlock i (before ++ rest))
    (htable : s'.fileLockTable = s.fileLockTable.erase p) {q : Option Place}
    (hq : ∀ j, q ≠ some (.inode j)) (hframe : ∀ t r, r ∈ (s'.frame t).ptrs ↔
      r ∈ (s.frame t).ptrs ∧ r ≠ p ∨ r = p ∧ q = some (.task t))
    (hptrs : ∀ t, (s'.frame t).ptrs.Nodup) (hallocated : ∀ r, s'.allocated r = true ↔
      s.allocated r = true ∧ r ≠ p ∨ r = p ∧ q ≠ none) : Placed s' (update place p q) := by
  have hmem : ∀ j r, r ∈ s'.iFlock j ↔ r ∈ s.iFlock j ∧ r ≠ p := hiFlock ▸ h.mem_unlist hlist
  refine ⟨fun j r => ?_, fun t r => ?_, fun r => ?_, hiFlock ▸ nodup_update h.nodup ?_, hptrs, ?_,
    fun r => ?_⟩
  · rw [hmem, h.iFlock]
    by_cases hr : r = p
    · subst hr
      simp [hq j]
    · simp [hr]
  · rw [hframe, h.frame]
    by_cases hr : r = p
    · subst hr
      simp
    · simp [hr]
  · rw [hallocated, h.allocated]
    by_cases hr : r = p
    · subst hr
      simp
    · simp [hr]
  · have hnd := h.nodup i
    rw [hlist] at hnd
    grind
  · rw [htable]
    exact h.table.erase p
  · rw [htable, h.table.mem_erase_iff, h.mem_table]
    simp only [hmem, exists_and_right]
    exact and_comm

theorem deleted (hlist : s.iFlock i = before ++ p :: rest)
    (hdel : Deleted s s' i before p rest) : Placed s' (update place p none) := by
  have hp : place p = some (.inode i) := (h.iFlock i p).mp (by simp [hlist])
  refine h.unlist hlist hdel.iFlock hdel.table (by simp) (fun t r => ?_) (fun t => ?_)
    (fun r => ?_)
  · rw [hdel.frame]
    have := h.frame t p
    grind
  · rw [hdel.frame]
    exact h.ptrs t
  · rw [hdel.allocated]
    by_cases hr : r = p
    · subst hr
      simp
    · simp [hr]

/-- A record a task holds goes into an inode's list. -/
theorem enlist (hp : place p = some (.task t)) (hlist : s.iFlock i = before ++ rest)
    (hiFlock : s'.iFlock = update s.iFlock i (before ++ p :: rest))
    (htable : s'.fileLockTable = p :: s.fileLockTable) (hframe : s'.frame = update s.frame t fr)
    (hfr : ∀ r, r ∈ fr.ptrs ↔ r ∈ (s.frame t).ptrs ∧ r ≠ p) (hptrs : fr.ptrs.Nodup)
    (hallocated : s'.allocated = s.allocated) :
    Placed s' (update place p (some (.inode i))) := by
  have hnot : ∀ j, p ∉ s.iFlock j := by
    intro j hj
    rw [h.iFlock, hp] at hj
    cases hj
  have hmem : ∀ j r, r ∈ s'.iFlock j ↔ r ∈ s.iFlock j ∨ j = i ∧ r = p := fun j r => by
    rw [hiFlock]
    exact mem_update_insert (by grind)
  refine ⟨fun j r => ?_, fun u r => ?_, fun r => ?_, hiFlock ▸ nodup_update h.nodup ?_,
    h.ptrs_update hframe hptrs, ?_, fun r => ?_⟩
  · rw [hmem, h.iFlock]
    by_cases hr : r = p
    · subst hr
      simp [hp, eq_comm]
    · simp [hr]
  · rw [hframe]
    rcases eq_or_ne u t with rfl | hu
    · rw [update_self, hfr, h.frame, update_apply]
      grind
    · rw [update_of_ne hu, h.frame, update_apply]
      grind
  · rw [hallocated, h.allocated]
    by_cases hr : r = p
    · subst hr
      simp [hp]
    · simp [hr]
  · have := h.nodup i
    grind
  · rw [htable, nodup_cons, h.mem_table]
    exact ⟨fun ⟨j, hj⟩ => hnot j hj, h.table⟩
  · rw [htable, mem_cons, h.mem_table]
    simp only [hmem]
    constructor
    · intro hr
      rcases hr with hr | ⟨j, hj⟩
      · exact ⟨i, Or.inr ⟨rfl, hr⟩⟩
      · exact ⟨j, Or.inl hj⟩
    · intro ⟨j, hj⟩
      rcases hj with hj | ⟨-, hr⟩
      · exact Or.inr ⟨j, hj⟩
      · exact Or.inl hr

/-- A task's call takes fresh records and frees what it no longer holds. -/
theorem reframe (hframe : s'.frame = update s.frame t fr) (hptrs : fr.ptrs.Nodup)
    (hnew : ∀ r ∈ fr.ptrs, r ∈ (s.frame t).ptrs ∨ s.allocated r = false)
    (hiFlock : s'.iFlock = s.iFlock) (htable : s'.fileLockTable = s.fileLockTable)
    (hallocated : ∀ r, s'.allocated r = true ↔
      r ∈ fr.ptrs ∨ s.allocated r = true ∧ r ∉ (s.frame t).ptrs) :
    Placed s' fun r =>
      if r ∈ fr.ptrs then some (.task t) else if r ∈ (s.frame t).ptrs then none
      else place r := by
  have hnot : ∀ r ∈ fr.ptrs, place r = some (.task t) ∨ place r = none := by
    intro r hr
    rcases hnew r hr with hr | hr
    · exact Or.inl ((h.frame t r).mp hr)
    · refine Or.inr (not_not.mp fun hne => ?_)
      rw [(h.allocated r).mpr hne] at hr
      cases hr
  refine ⟨fun j r => ?_, fun u r => ?_, fun r => ?_, fun j => ?_, h.ptrs_update hframe hptrs, ?_,
    fun r => ?_⟩
  · rw [hiFlock, h.iFlock]
    have := h.frame t r
    grind
  · rw [hframe]
    by_cases hu : u = t
    · subst hu
      rw [update_self]
      have := h.frame u r
      grind
    · rw [update_of_ne hu, h.frame]
      have := h.frame t r
      grind
  · rw [hallocated, h.allocated]
    grind
  · rw [hiFlock]
    exact h.nodup j
  · rw [htable]
    exact h.table
  · rw [htable, hiFlock]
    exact h.mem_table r

end

end Placed

/-! ## Pointers of the loop -/

/-- Where the pointers of the loop point while it runs on the list of `i` for
the call that task `t` has open. -/
structure ScanOk (s0 : Locks) (i : InodePtr) (t : TaskPtr) (call : PosixCall) (c : Scan)
    (rest : List LockPtr) : Prop where
  placed : ∃ place, Placed c.s place
  list : c.s.iFlock i = c.before ++ rest
  others : ∀ j, j ≠ i → c.s.iFlock j = s0.iFlock j
  frame : c.s.frame = s0.frame
  task : s0.frame t = .posix call none
  caller : c.caller = call.caller ∨ c.caller ∈ c.before
  left : ∀ l, c.left = some l → (l ∈ c.before ∨ c.right = some l) ∧ l ≠ c.caller
  right : ∀ r, c.right = some r → ∃ rest', rest = r :: rest'
  subset : ∀ p ∈ c.before ++ rest, p ∈ s0.iFlock i
  ident : ∀ p, (c.s.mem p).ident = (s0.mem p).ident
  same : ∀ p, p ∉ s0.iFlock i → p ≠ call.caller → (c.s.mem p).core = (s0.mem p).core

namespace ScanOk

variable
  {fl : LockPtr}

theorem nodup (h : ScanOk s0 i t call c rest) : (c.before ++ rest).Nodup := by
  obtain ⟨place, hp⟩ := h.placed
  rw [← h.list]
  exact hp.nodup i

theorem call_frame (h : ScanOk s0 i t call c rest) : c.s.frame t = .posix call none := by
  rw [h.frame, h.task]

/-- The records the call holds are not in the list. -/
theorem held (h : ScanOk s0 i t call c rest)
    (hp : p ∈ (Frame.posix call none).ptrs) : p ∉ c.before ++ rest := by
  obtain ⟨place, hplace⟩ := h.placed
  rw [← h.list]
  exact hplace.not_listed (t := t) (by rw [h.call_frame]; exact hp) i

section
variable (h : ScanOk s0 i t call c (fl :: rest))
include h

theorem caller_ne : c.caller ≠ fl := by
  intro heq
  rcases h.caller with hc | hc
  · exact h.held (p := fl) (by simp [Frame.ptrs, ← heq, hc]) (by simp)
  · rw [heq] at hc
    exact (nodup_append.mp h.nodup).2.2 fl hc fl (by simp) rfl

theorem fl_not_before : fl ∉ c.before :=
  fun hmem => (nodup_append.mp h.nodup).2.2 fl hmem fl (by simp) rfl

theorem fl_not_rest : fl ∉ rest :=
  (nodup_cons.mp (nodup_append.mp h.nodup).2.1).1

/-- A record outside the inode's list is not one the round writes to. -/
theorem outside (hp : p ∉ s0.iFlock i) (hp' : p ≠ call.caller) : p ≠ fl ∧ p ≠ c.caller := by
  refine ⟨fun heq => hp (heq ▸ h.subset fl (by simp)), fun heq => ?_⟩
  rcases h.caller with hc | hc
  · exact hp' (heq.trans hc)
  · exact hp (heq ▸ h.subset c.caller (by simp [hc]))

/-- Going on to the next lock, whatever the round did to the records. -/
theorem advance (hr : c.right = none) (hplaced : ∃ place, Placed c'.s place)
    (hiFlock : c'.s.iFlock = c.s.iFlock) (hframe : c'.s.frame = c.s.frame)
    (hbefore : c'.before = c.before) (hcaller : c'.caller = c.caller ∨ c'.caller = fl)
    (hleft : c'.left = c.left ∨ c'.left = some fl ∧ c'.caller = c.caller)
    (hright : c'.right = c.right) (hident : ∀ p, (c'.s.mem p).ident = (c.s.mem p).ident)
    (hcore : ∀ p, p ≠ fl → p ≠ c.caller → (c'.s.mem p).core = (c.s.mem p).core) :
    ScanOk s0 i t call { c' with before := c'.before ++ [fl] } rest := by
  refine ⟨hplaced, ?_, fun j hj => ?_, hframe.trans h.frame, h.task, ?_, fun l hl => ?_,
    fun r hr' => ?_, fun p hp => ?_, fun p => (hident p).trans (h.ident p), fun p hp hp' => ?_⟩
  · simp [hiFlock, h.list, hbefore]
  · simp only [hiFlock, h.others j hj]
  · rcases hcaller with hc | hc
    · rcases h.caller with hc' | hc'
      · exact Or.inl (hc.trans hc')
      · exact Or.inr (by simp [hbefore, hc, hc'])
    · exact Or.inr (by simp [hc])
  · rcases hleft with hl' | ⟨hl', hc⟩
    · obtain ⟨hmem, hne⟩ := h.left l (hl' ▸ hl)
      rcases hmem with hmem | hmem
      · refine ⟨Or.inl (by simp [hbefore, hmem]), ?_⟩
        rcases hcaller with hc | hc
        · exact hc ▸ hne
        · intro heq
          exact h.fl_not_before (hc ▸ heq ▸ hmem)
      · rw [hr] at hmem
        cases hmem
    · rw [hl'] at hl
      cases hl
      exact ⟨Or.inl (by simp), hc ▸ h.caller_ne.symm⟩
  · rw [hright, hr] at hr'
    cases hr'
  · refine h.subset p ?_
    simpa [hbefore] using hp
  · obtain ⟨hfl, hc⟩ := h.outside hp hp'
    exact (hcore p hfl hc).trans (h.same p hp hp')

/-- Dropping the lock from the list after merging it or finding it covered. -/
theorem drop (hr : c.right = none) {s1 : Locks}
    (hp : ∃ place, Placed s1 place) (hiFlock : s1.iFlock = c.s.iFlock)
    (hframe : s1.frame = c.s.frame) (hdel : locksDeleteLock fuel s1 i c.before fl rest = some c'.s)
    (hbefore : c'.before = c.before) (hcaller : c'.caller = c.caller) (hleft : c'.left = c.left)
    (hright : c'.right = c.right) (hident : ∀ p, (s1.mem p).ident = (c.s.mem p).ident)
    (hcore : ∀ p, p ≠ fl → p ≠ c.caller → (s1.mem p).core = (c.s.mem p).core) :
    ScanOk s0 i t call c' rest := by
  have hd := deleted_of_deleteLock hdel
  obtain ⟨place, hp⟩ := hp
  refine ⟨⟨_, hp.deleted (by rw [hiFlock, h.list]) hd⟩, ?_, fun j hj => ?_, ?_, h.task, ?_,
    fun l hl => ?_, fun r hr' => ?_, fun p hp' => ?_,
    fun p => ((hd.ident p).trans (hident p)).trans (h.ident p), fun p hp' hp'' => ?_⟩
  · simp [hd.iFlock, hbefore]
  · rw [hd.iFlock, update_of_ne hj, hiFlock, h.others j hj]
  · rw [hd.frame, hframe, h.frame]
  · rw [hcaller, hbefore]
    exact h.caller
  · rw [hbefore, hcaller, hright]
    exact h.left l (hleft ▸ hl)
  · rw [hright, hr] at hr'
    cases hr'
  · rw [hbefore] at hp'
    exact h.subset p (((sublist_cons_self fl rest).append_left c.before).subset hp')
  · obtain ⟨hfl, hc⟩ := h.outside hp' hp''
    rw [hd.core, hcore p hfl hc, h.same p hp' hp'']

theorem round {r : Round} (hr : c.right = none) (hcase : RoundCase fuel i c fl rest r) :
    r.Leads (fun c rest => ScanOk s0 i t call c rest ∧ c.right = none) (ScanOk s0 i t call) fl
      rest := by
  obtain ⟨place, hp⟩ := h.placed
  have hkeep : ScanOk s0 i t call { c with before := c.before ++ [fl] } rest :=
    h.advance hr h.placed rfl rfl rfl (.inl rfl) (.inl rfl) rfl (fun _ => rfl) fun _ _ _ => rfl
  cases hcase with
  | sameAbove => exact h
  | otherAbove => exact h
  | right hty hmeet hend =>
    refine { h with left := fun l hl => ?_, right := fun r hr => ⟨rest, ?_⟩ }
    · simp only [Scan.overlap] at hl
      split at hl
      · cases hl
        exact ⟨Or.inr rfl, h.caller_ne.symm⟩
      · obtain ⟨hmem, hne⟩ := h.left l hl
        rcases hmem with hmem | hmem
        · exact ⟨Or.inl hmem, hne⟩
        · rw [hr] at hmem
          cases hmem
    · cases hr
      rfl
  | sameBelow => exact ⟨hkeep, hr⟩
  | otherBelow => exact ⟨hkeep, hr⟩
  | become =>
    refine ⟨h.advance hr ⟨place, hp.mergeRanges ..⟩ (by simp) (by simp) rfl (.inr rfl) (.inl rfl)
      rfl (mergeRanges_ident c.s c.caller fl) fun p hfl hc => ?_, hr⟩
    rw [mergeRanges_other c.s hc hfl]
  | replace s' hty hend hstart hadded hwake =>
    have hsame := sameLocks_wakeUpBlocks hwake
    have hleft : ¬(c.s.mem fl).flStart < (c.s.mem c.caller).flStart := by omega
    refine ⟨h.advance hr ⟨place, ?_⟩ hsame.iFlock hsame.frame rfl (.inr rfl) (.inl ?_) rfl
      (fun p => (takeOver_ident _ _ _ p).trans (hsame.ident p)) fun p hfl hc => ?_, hr⟩
    · exact (hp.same hsame).congr rfl (fun _ => rfl) rfl rfl
    · simp [Scan.overlap, hleft]
    · rw [takeOver_other _ hfl]
      exact hsame.core p
  | left hty hmeet hend hstart =>
    refine ⟨h.advance hr ⟨place, hp⟩ rfl rfl rfl (.inl rfl) (.inr ⟨?_, rfl⟩) rfl
      (fun _ => rfl) fun _ _ _ => rfl, hr⟩
    simp [Scan.overlap, hstart]
  | absorb s' hty htouch hadded hdel =>
    refine ⟨h.drop hr ⟨place, hp.mergeRanges ..⟩ (by simp) (by simp) hdel rfl rfl rfl rfl
      (mergeRanges_ident c.s c.caller fl) fun p hfl hc => ?_, hr⟩
    rw [mergeRanges_other c.s hc hfl]
  | covered s' hty hend hstart hadded hdel =>
    have hleft : ¬(c.s.mem fl).flStart < (c.s.mem c.caller).flStart := by omega
    refine ⟨h.drop hr ⟨place, hp⟩ rfl rfl hdel rfl rfl ?_ rfl (fun _ => rfl)
      fun _ _ _ => rfl, hr⟩
    simp [Scan.overlap, hleft]

end

end ScanOk

theorem ScanOk.start {place : LockPtr → Option Place} (h : Placed s place)
    (ht : s.frame t = .posix call none) :
    ScanOk s i t call (Scan.start s i call) ((s.iFlock i).dropWhile fun fl =>
      decide ((s.mem call.caller).flOwner ≠ (s.mem fl).flOwner)) := by
  have hsplit : s.iFlock i = (Scan.start s i call).before ++ (s.iFlock i).dropWhile fun fl =>
      decide ((s.mem call.caller).flOwner ≠ (s.mem fl).flOwner) :=
    takeWhile_append_dropWhile.symm
  refine ⟨⟨place, h⟩, hsplit, fun _ _ => rfl, rfl, ht, .inl rfl, ?_, ?_, fun p hp => ?_,
    fun _ => rfl, fun _ _ _ => rfl⟩
  · intro l hl
    cases hl
  · intro r hr
    cases hr
  · rw [hsplit]
    exact hp

/-- The rule of the loop, with its bookkeeping done: what the rounds keep the loop keeps. -/
theorem posixScan_ok_rule {P Q : Scan → List LockPtr → Prop}
    (hnil : ∀ c, ScanOk s0 i t call c [] → c.right = none → P c [] → Q c [])
    (hother : ∀ c fl rest, ScanOk s0 i t call c (fl :: rest) → c.right = none →
      P c (fl :: rest) → (c.s.mem c.caller).flOwner ≠ (c.s.mem fl).flOwner → Q c (fl :: rest))
    (hround : ∀ c fl rest r, ScanOk s0 i t call c (fl :: rest) → c.right = none →
      P c (fl :: rest) → (c.s.mem c.caller).flOwner = (c.s.mem fl).flOwner →
      RoundCase fuel i c fl rest r → r.Leads P Q fl rest) {c c' : Scan}
    {rest rest' : List LockPtr} (hok : ScanOk s0 i t call c rest) (hr : c.right = none)
    (hP : P c rest) (h : posixScan fuel i rest c = some (c', rest')) :
    ScanOk s0 i t call c' rest' ∧ Q c' rest' := by
  induction rest generalizing c with
  | nil =>
    cases h
    exact ⟨hok, hnil c' hok hr hP⟩
  | cons fl rest ih =>
    rw [posixScan] at h
    split at h
    next hne =>
      cases h
      exact ⟨hok, hother c' fl rest hok hr hP hne⟩
    next heq =>
      have hleads {r : Round} := hround c fl rest r hok hr hP (not_not.mp heq)
      split at h
      · cases h
      next c1 hround =>
        cases h
        have hcase := roundCase_of_eq hround
        exact ⟨hok.round hr hcase, hleads hcase⟩
      all_goals
        rename_i c1 hround
        have hcase := roundCase_of_eq hround
        obtain ⟨hok', hr'⟩ := hok.round hr hcase
        exact ih hok' hr' (hleads hcase) h

/-! ## The end of the call -/

/-- The bookkeeping behind the loop: the call that `s0` had open as `call0` is
now `call`, having given some of its records to the list of `i`. -/
structure FinOk (s0 : Locks) (i : InodePtr) (t : TaskPtr) (call0 : PosixCall) (s : Locks)
    (call : PosixCall) (locks : List LockPtr) : Prop where
  placed : ∃ place, Placed s place
  list : s.iFlock i = locks
  others : ∀ j, j ≠ i → s.iFlock j = s0.iFlock j
  frame : s.frame = update s0.frame t (.posix call none)
  task : s0.frame t = .posix call0 none
  caller : call.caller = call0.caller
  ptrs : ∀ p ∈ (Frame.posix call none).ptrs, p ∈ (Frame.posix call0 none).ptrs
  subset : ∀ p ∈ locks, p ∈ s0.iFlock i ∨ p ∈ (Frame.posix call0 none).ptrs
  ident : ∀ p, p ∉ (Frame.posix call0 none).ptrs → (s.mem p).ident = (s0.mem p).ident
  same : ∀ p, p ∉ s0.iFlock i → p ∉ (Frame.posix call0 none).ptrs →
    (s.mem p).core = (s0.mem p).core

theorem ScanOk.finOk (h : ScanOk s0 i t call c rest) :
    FinOk s0 i t call c.s call (c.before ++ rest) where
  __ := h
  frame := by rw [← h.task, update_eq_self, h.frame]
  caller := rfl
  ptrs _ hp := hp
  subset p hp := .inl (h.subset p hp)
  ident p _ := h.ident p
  same p hp hp' := h.same p hp fun heq => hp' (by simp [Frame.ptrs, heq])

namespace FinOk

variable {locks : List LockPtr} (h : FinOk s0 i t call0 s call locks)
include h

theorem call_frame : s.frame t = .posix call none := by
  rw [h.frame, update_self]

theorem held (hp : p ∈ (Frame.posix call none).ptrs) : p ∉ locks := by
  obtain ⟨place, hplace⟩ := h.placed
  rw [← h.list]
  exact hplace.not_listed (t := t) (by rw [h.call_frame]; exact hp) i

end FinOk

/-- The call gives up one of its new structures. -/
structure PosixCall.Releases (call call' : PosixCall) (new : LockPtr) : Prop where
  mem : new ∈ (Frame.posix call none).ptrs
  caller : call'.caller = call.caller
  ptrs : ∀ r, r ∈ (Frame.posix call' none).ptrs ↔ r ∈ (Frame.posix call none).ptrs ∧ r ≠ new
  nodup : (Frame.posix call' none).ptrs.Nodup

namespace PosixCall

theorem Releases.ne_caller {call' : PosixCall} (h : call.Releases call' new) :
    new ≠ call.caller := fun heq =>
  ((h.ptrs _).mp (by simp [Frame.ptrs, h.caller])).2 heq.symm

theorem releases_newFl (hnew : call.newFl = some new)
    (hnd : (Frame.posix call none).ptrs.Nodup) : call.Releases { call with newFl := none } new := by
  obtain ⟨filp, caller, newFl, newFl2, wait⟩ := call
  subst hnew
  cases newFl2 <;> refine ⟨?_, rfl, ?_, ?_⟩ <;> simp [Frame.ptrs] at hnd ⊢ <;> grind

theorem releases_newFl2 (hnew : call.newFl2 = some new)
    (hnd : (Frame.posix call none).ptrs.Nodup) :
    call.Releases { call with newFl2 := none } new := by
  obtain ⟨filp, caller, newFl, newFl2, wait⟩ := call
  subst hnew
  cases newFl <;> refine ⟨?_, rfl, ?_, ?_⟩ <;> simp [Frame.ptrs] at hnd ⊢ <;> grind

end PosixCall

namespace FinOk

variable {call' : PosixCall} {locks : List LockPtr} {fl : LockPtr}

theorem insertCopy_mem_self :
    (insertCopy s t i call before rest new fl).mem new = (s.mem fl).core := by
  simp [insertCopy, locksInsertLock, locksInitLock]

theorem insertCopy_mem_of_ne (hp : p ≠ new) :
    (insertCopy s t i call before rest new fl).mem p = s.mem p :=
  s.modify_mem_of_ne (fun _ => (s.mem fl).core) hp

/-- One of the new structures goes into the list. -/
theorem insert (h : FinOk s0 i t call0 s call (before ++ rest)) (hrel : call.Releases call' new)
    (fl : LockPtr) :
    FinOk s0 i t call0 (insertCopy s t i call' before rest new fl) call'
      (before ++ new :: rest) := by
  obtain ⟨place, hp⟩ := h.placed
  have hplace : place new = some (.task t) :=
    (hp.frame t new).mp (by rw [h.call_frame]; exact hrel.mem)
  refine ⟨⟨_, hp.enlist hplace h.list rfl rfl rfl (h.call_frame ▸ hrel.ptrs) hrel.nodup rfl⟩, ?_,
    fun j hj => ?_, ?_, h.task, hrel.caller.trans h.caller,
    fun p hp => h.ptrs p ((hrel.ptrs p).mp hp).1, fun p hp => ?_, fun p hp => ?_,
    fun p hp hp' => ?_⟩
  · simp [insertCopy, locksInsertLock]
  · simp [insertCopy, locksInsertLock, locksInitLock, hj, h.others]
  · simp [insertCopy, locksInsertLock, locksInitLock, h.frame]
  · simp only [mem_append, mem_cons] at hp
    rcases hp with hp | rfl | hp
    · exact h.subset p (by simp [hp])
    · exact .inr (h.ptrs p hrel.mem)
    · exact h.subset p (by simp [hp])
  · have hne : p ≠ new := fun heq => hp (heq ▸ h.ptrs new hrel.mem)
    rw [insertCopy_mem_of_ne hne]
    exact h.ident p hp
  · have hne : p ≠ new := fun heq => hp' (heq ▸ h.ptrs new hrel.mem)
    rw [insertCopy_mem_of_ne hne]
    exact h.same p hp hp'

/-- A lock of the list is changed in place and its waiters are woken. -/
theorem trim (h : FinOk s0 i t call0 s call locks) (hp : p ∈ locks) {f : FileLock → FileLock}
    (hf : ∀ r, (f r).ident = r.ident) (hwake : locksWakeUpBlocks fuel (s.modify p f) p = some s') :
    FinOk s0 i t call0 s' call locks := by
  have hsame := sameLocks_wakeUpBlocks hwake
  obtain ⟨place, hplace⟩ := h.placed
  refine ⟨⟨place, (hplace.modify p f).same hsame⟩, hsame.iFlock ▸ h.list,
    fun j hj => hsame.iFlock ▸ h.others j hj, hsame.frame ▸ h.frame, h.task, h.caller, h.ptrs,
    h.subset, fun q hq => ?_, fun q hq hq' => ?_⟩
  · rw [hsame.ident, s.modify_field p q _ hf]
    exact h.ident q hq
  · have hne : q ≠ p := by
      intro heq
      rcases h.subset p hp with hp' | hp'
      · exact hq (heq ▸ hp')
      · exact hq' (heq ▸ hp')
    rw [hsame.core, s.modify_mem_of_ne f hne]
    exact h.same q hq hq'

end FinOk

theorem FinOk.ptrs_nodup {locks : List LockPtr} (h : FinOk s0 i t call0 s call locks) :
    (Frame.posix call none).ptrs.Nodup := by
  obtain ⟨place, hp⟩ := h.placed
  rw [← h.call_frame]
  exact hp.ptrs t

/-- The request becomes a lock of its own. -/
theorem FinOk.insert_newFl (h : FinOk s0 i t call0 s call (before ++ rest))
    (hnew : call.newFl = some new) (fl : LockPtr) :
    new ∈ (Frame.posix call none).ptrs ∧ new ≠ call.caller ∧
      FinOk s0 i t call0 (insertCopy s t i { call with newFl := none } before rest new fl)
        { call with newFl := none } (before ++ new :: rest) := by
  have hrel := call.releases_newFl hnew h.ptrs_nodup
  exact ⟨hrel.mem, hrel.ne_caller, h.insert hrel fl⟩

theorem ScanOk.right_mem (h : ScanOk s0 i t call c rest) (hr : c.right = some p) :
    p ∈ c.before ++ rest := by
  obtain ⟨rest', rfl⟩ := h.right p hr
  simp

theorem ScanOk.left_mem (h : ScanOk s0 i t call c rest) (hl : c.left = some p) :
    p ∈ c.before ++ rest := by
  rcases (h.left p hl).1 with hmem | hmem
  · exact mem_append_left _ hmem
  · exact h.right_mem hmem

/-- The stages behind the loop with their bookkeeping done: what is said about the state, the
rest of the list and the locks that are still to be shrunk holds at the end. -/
theorem posixTrim_rule {P : Locks → List LockPtr → Option LockPtr → Option LockPtr → Prop}
    (hfin : FinOk s0 i t call0 s call (c.before ++ rest))
    (hleft : ∀ l, c.left = some l → l ∈ c.before ++ rest)
    (hright : ∀ r, c.right = some r → r ∈ c.before ++ rest) (hP : P s rest c.left c.right)
    (hinsert : ∀ call' r new,
      FinOk s0 i t call0 (insertCopy s t i call' c.before rest new r) call'
        (c.before ++ new :: rest) →
      c.left = some r → c.right = some r → new ∈ (Frame.posix call none).ptrs →
      new ≠ call.caller → P (insertCopy s t i call' c.before rest new r) (new :: rest) new r)
    (hcutRight : ∀ s1 s2 call' rest left r, FinOk s0 i t call0 s1 call' (c.before ++ rest) →
      r ∈ c.before ++ rest → left ≠ some r → P s1 rest left r →
      trimRight fuel s1 c.caller r = some s2 → P s2 rest left none)
    (hcutLeft : ∀ s1 s2 call' rest l, FinOk s0 i t call0 s1 call' (c.before ++ rest) →
      l ∈ c.before ++ rest → P s1 rest (some l) none → trimLeft fuel s1 c.caller l = some s2 →
      P s2 rest none none) (h : posixTrim fuel s t i call c rest = some s') :
    ∃ call' rest', FinOk s0 i t call0 s' call' (c.before ++ rest') ∧ P s' rest' none none := by
  obtain ⟨s1, s2, left, h1, h2, h3⟩ := posixTrim_cases h
  obtain ⟨call1, rest1, hfin1, hleft1, hright1, hP1⟩ : ∃ call1 rest1,
      FinOk s0 i t call0 s1 call1 (c.before ++ rest1) ∧
      (∀ l, left = some l → l ∈ c.before ++ rest1) ∧
      (∀ r, c.right = some r → r ∈ c.before ++ rest1 ∧ left ≠ some r) ∧
      P s1 rest1 left c.right := by
    rcases h1 with ⟨rfl, rfl, hne⟩ | ⟨r, newFl2, hr, hl, hnew, rfl, rfl⟩
    · exact ⟨call, rest, hfin, hleft, fun r hr => ⟨hright r hr, hne r hr⟩, hP⟩
    · have hrel := call.releases_newFl2 hnew hfin.ptrs_nodup
      have hfin1 := hfin.insert hrel r
      refine ⟨_, newFl2 :: rest, hfin1, ?_, fun r' hr' => ?_,
        hr ▸ hinsert _ r newFl2 hfin1 hl hr hrel.mem hrel.ne_caller⟩
      · intro l hl'
        cases hl'
        simp
      · have hmem' := hright r' hr'
        refine ⟨((sublist_cons_self newFl2 rest).append_left c.before).subset hmem', ?_⟩
        rintro ⟨⟩
        exact hfin.held hrel.mem hmem'
  obtain ⟨hfin2, hP2⟩ : FinOk s0 i t call0 s2 call1 (c.before ++ rest1) ∧ P s2 rest1 left none := by
    rcases h2 with ⟨hr, rfl⟩ | ⟨r, hr, htrim⟩
    · exact ⟨hfin1, hr ▸ hP1⟩
    · obtain ⟨hmem, hne⟩ := hright1 r hr
      rw [hr] at hP1
      refine ⟨hfin1.trim hmem ?_ htrim, hcutRight s1 s2 call1 rest1 left r hfin1 hmem hne hP1 htrim⟩
      exact fun _ => rfl
  refine ⟨call1, rest1, ?_⟩
  cases left with
  | none =>
    cases h3
    exact ⟨hfin2, hP2⟩
  | some l =>
    have hmem := hleft1 l rfl
    refine ⟨hfin2.trim hmem ?_ h3, hcutLeft s2 s' call1 rest1 l hfin2 hmem hP2 h3⟩
    exact fun _ => rfl

end Sbckernel.Fs
