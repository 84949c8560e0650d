import Sbckernel.Lib.WaitGraph
import Sbckernel.Proofs.LockBlocks

/-!
# Waiters still have something to wait for

`Waits` says of a state and its block lists that every waiter conflicts with
the lock it waits for and that following waits from task to task leads
downwards in some ranking. Both survive whatever `posix_lock_file` does to the
list: a lock that keeps its waiters only ever grows and keeps its type, and a
lock that shrinks, changes its type or goes loses all of them.
-/

namespace Sbckernel.Fs

open Lib Function

variable {fuel : Nat} {s s' : Locks} {i : InodePtr} {before rest : List LockPtr}
  {fl caller : LockPtr} {c' : Scan} {place : LockPtr → Option Place} {t : TaskPtr}
  {call : PosixCall} {w p p' : FileLock} {f : FileLock → FileLock}

/-- The waiter `w` and the lock `p` are of one kind, and conflict under the
check for that kind. -/
def blocksLock (w p : FileLock) : Bool :=
  w.flFlags.posix = p.flFlags.posix &&
    if p.flFlags.posix then posixLocksConflict w p else flockLocksConflict w p

/-- The task `a` is on the block list of a lock that `b` owns. -/
def Edge (s : Locks) (W : LockPtr → List LockPtr) (a b : TaskPtr) : Prop :=
  ∃ p w, w ∈ W p ∧ (s.mem w).flOwner = some a ∧ (s.mem p).flOwner = some b

/-- `x` is a lock that is about to wake its waiters and is exempt. -/
structure Waits (s : Locks) (W : LockPtr → List LockPtr) (x : Option LockPtr) : Prop where
  conflict : ∀ p w, w ∈ W p → x ≠ some p → blocksLock (s.mem w) (s.mem p) = true
  ranked : Ranked (Edge s W)

namespace Waits

variable {W W' : LockPtr → List LockPtr} {x x' : Option LockPtr}

theorem mono (h : Waits s W x) (hsub : ∀ p w, w ∈ W' p → w ∈ W p)
    (howner : ∀ p w, w ∈ W' p → (s'.mem w).flOwner = (s.mem w).flOwner ∧
      (s'.mem p).flOwner = (s.mem p).flOwner)
    (hconf : ∀ p w, w ∈ W' p → x' ≠ some p → blocksLock (s'.mem w) (s'.mem p) = true) :
    Waits s' W' x' := by
  refine ⟨hconf, h.ranked.mono fun a b hab => ?_⟩
  obtain ⟨p, w, hw, ha, hb⟩ := hab
  obtain ⟨how, hop⟩ := howner p w hw
  exact ⟨p, w, hsub p w hw, how ▸ ha, hop ▸ hb⟩

end Waits

theorem blocksLock_of_core {w' : FileLock} (hw : w'.core = w.core) (hp : p'.core = p.core) :
    blocksLock w' p' = blocksLock w p := by
  show blocksLock w'.core p'.core = blocksLock w.core p.core
  rw [hw, hp]

/-- A lock that grows and keeps its type keeps blocking. -/
theorem blocksLock_grow (h : blocksLock w p = true)
    (hid : p'.ident = p.ident) (hty : p'.flType = p.flType) (hs : p'.flStart ≤ p.flStart)
    (he : p.flEnd ≤ p'.flEnd) : blocksLock w p' = true := by
  obtain ⟨ho, hf, hg, -⟩ : p'.flOwner = p.flOwner ∧ p'.flFile = p.flFile ∧
      p'.flFlags = p.flFlags ∧ p'.flWait = p.flWait := by simpa [FileLock.ident] using hid
  have hover : locksOverlap w p = true → locksOverlap w p' = true := by
    simp only [locksOverlap, Bool.and_eq_true, decide_eq_true_eq]
    omega
  have hconf : locksConflict w p = true → locksConflict w p' = true := by
    simp only [locksConflict, hty]
    split
    next hov => simp [hover hov]
    · simp
  simp only [blocksLock, posixLocksConflict, flockLocksConflict, ho, hf, hg,
    Bool.and_eq_true] at h ⊢
  refine ⟨h.1, ?_⟩
  obtain ⟨-, h⟩ := h
  split
  next hposix =>
    simp only [hposix, if_true] at h
    split
    next heq => simp [heq] at h
    next hne =>
      rw [if_neg hne] at h
      exact hconf h
  next hposix =>
    simp only [hposix] at h
    split
    next heq => simp [heq] at h
    next hne =>
      rw [if_neg hne] at h
      exact hconf h

/-- The block lists of a state, and what they say. -/
structure Lists (s : Locks) (W : LockPtr → List LockPtr) (x : Option LockPtr) : Prop where
  blocks : Blocks s W
  waits : Waits s W x

namespace Lists

variable {W : LockPtr → List LockPtr} {x : Option LockPtr} {p : LockPtr}

/-- Changing a lock in place without touching its links or its queue. -/
theorem modify (h : Lists s W x) (hp : ∀ q, p ∉ W q)
    (hid : ∀ r, (f r).ident = r.ident) (hnext : ∀ r, (f r).flNextblock = r.flNextblock)
    (hprev : ∀ r, (f r).flPrevblock = r.flPrevblock) {x' : Option LockPtr}
    (hx : ∀ q, x' ≠ some q → x ≠ some q)
    (hgrow : x' ≠ some p → W p = [] ∨ (f (s.mem p)).flType = (s.mem p).flType ∧
      (f (s.mem p)).flStart ≤ (s.mem p).flStart ∧ (s.mem p).flEnd ≤ (f (s.mem p)).flEnd) :
    Lists (s.modify p f) W x' := by
  have hmem : ∀ q w, w ∈ W q → (s.modify p f).mem w = s.mem w := by
    intro q w hw
    exact s.modify_mem_of_ne f fun heq => hp q (heq ▸ hw)
  have hident : ∀ q, ((s.modify p f).mem q).ident = (s.mem q).ident := fun q =>
    s.modify_field p q _ hid
  have howner : ∀ q, ((s.modify p f).mem q).flOwner = (s.mem q).flOwner := fun q =>
    congrArg Prod.fst (hident q)
  have hwait : ∀ q, ((s.modify p f).mem q).flWait = (s.mem q).flWait := fun q =>
    congrArg (fun r => r.2.2.2) (hident q)
  refine ⟨h.blocks.relink (fun q hq => .inl ⟨hq, ?_, ?_, hwait q⟩) (fun q hq => .inl hq)
    (fun q hq _ => hq) (fun t w q => Iff.rfl) (fun t ht => ht), h.waits.mono (fun q w hw => hw)
    (fun q w hw => ⟨howner w, howner q⟩) fun q w hw hxq => ?_⟩
  · rw [next_modify s p hnext]
  · rw [prev_modify s p hprev]
  · rw [hmem q w hw]
    have hold := h.waits.conflict q w hw (hx q hxq)
    by_cases hqp : q = p
    · subst hqp
      rcases hgrow hxq with hnil | ⟨hty, hs, he⟩
      · rw [hnil] at hw
        cases hw
      · rw [Locks.modify_mem_self]
        exact blocksLock_grow hold (hid _) hty hs he
    · rw [s.modify_mem_of_ne f hqp]
      exact hold

/-- A lock wakes its waiters; it is exempt no more. -/
theorem wake (h : Lists s W x) (hplace : Placed s place) (hp : Head s p)
    (hx : ∀ q, x = some q → q = p) (hwake : locksWakeUpBlocks fuel s p = some s') :
    Lists s' (update W p []) none := by
  have hsame := sameLocks_wakeUpBlocks hwake
  have hsub : ∀ q, ∀ w ∈ update W p [] q, w ∈ W q ∧ q ≠ p :=
    (forall_update_iff W fun q l => ∀ w ∈ l, w ∈ W q ∧ q ≠ p).mpr
      ⟨List.forall_mem_nil _, fun _ hq _ hw => ⟨hw, hq⟩⟩
  have howner : ∀ q, (s'.mem q).flOwner = (s.mem q).flOwner := fun q =>
    (FileLock.core_eq_iff.mp (hsame.core q)).1
  refine ⟨h.blocks.wake hplace hp hwake, h.waits.mono (fun q w hw => (hsub q w hw).1)
    (fun q w hw => ⟨howner w, howner q⟩) fun q w hw _ => ?_⟩
  obtain ⟨hw', hqp⟩ := hsub q w hw
  rw [blocksLock_of_core (hsame.core w) (hsame.core q)]
  exact h.waits.conflict q w hw' fun heq => hqp (hx q heq)

end Lists

theorem deleteBlock_unlink (s : Locks) (i : InodePtr) (before rest : List LockPtr)
    (fl a w : LockPtr) :
    locksDeleteBlock (locksUnlink s i before rest fl) a w =
      locksUnlink (locksDeleteBlock s a w) i before rest fl := by
  unfold locksDeleteBlock
  have hmem : ∀ q, (locksUnlink s i before rest fl).mem q = s.mem q := fun _ => rfl
  rw [hmem]
  split
  · rw [apply_ite fun s => locksUnlink s i before rest fl]
    rfl
  · rfl

/-- The wake-ups do not depend on whether the lock is still in the lists. -/
theorem wakeUpBlocks_unlink (fuel : Nat) (s : Locks) (i : InodePtr) (before rest : List LockPtr)
    (fl a : LockPtr) :
    locksWakeUpBlocks fuel (locksUnlink s i before rest fl) a =
      (locksWakeUpBlocks fuel s a).map (locksUnlink · i before rest fl) := by
  induction fuel generalizing s with
  | zero => rfl
  | succ fuel ih =>
    have hmem : (locksUnlink s i before rest fl).mem = s.mem := rfl
    rw [locksWakeUpBlocks, locksWakeUpBlocks, hmem]
    cases hnext : (s.mem a).flNextblock with
    | none => rfl
    | some w =>
      rw [← ih, ← deleteBlock_unlink]
      rfl

theorem deleteLock_eq (h : locksDeleteLock fuel s i before fl rest = some s') :
    ∃ s1, locksWakeUpBlocks fuel s fl = some s1 ∧
      s' = (locksUnlink s1 i before rest fl).setAllocated fl false := by
  unfold locksDeleteLock at h
  rw [wakeUpBlocks_unlink] at h
  cases hwake : locksWakeUpBlocks fuel s fl with
  | none => simp [hwake] at h
  | some s1 =>
    rw [hwake] at h
    exact ⟨s1, rfl, SameLocks.of_freeLock h⟩

namespace Lists

variable {W : LockPtr → List LockPtr} {p : LockPtr}

section
variable (h : Lists s W none)
include h

/-- A change that leaves cores and circles alone. -/
theorem relink (hblocks : Blocks s' W)
    (hcore : ∀ q, Linked s q → (s'.mem q).core = (s.mem q).core) : Lists s' W none := by
  have hhead : ∀ q w, w ∈ W q → Linked s q := fun q w hw =>
    (h.blocks.head q (List.ne_nil_of_mem hw)).linked
  refine ⟨hblocks, h.waits.mono (fun q w hw => hw) (fun q w hw => ⟨?_, ?_⟩) fun q w hw hx => ?_⟩
  · exact (FileLock.core_eq_iff.mp (hcore w (h.blocks.linked_waiter hw))).1
  · exact (FileLock.core_eq_iff.mp (hcore q (hhead q w hw))).1
  · rw [blocksLock_of_core (hcore w (h.blocks.linked_waiter hw)) (hcore q (hhead q w hw))]
    exact h.waits.conflict q w hw hx

/-- `locks_delete_lock`: the waiters are woken and the lock is gone. -/
theorem delete (hplace : Placed s place) (hlist : s.iFlock i = before ++ p :: rest)
    (hdel : locksDeleteLock fuel s i before p rest = some s') : Lists s' (update W p []) none := by
  obtain ⟨s1, hwake, rfl⟩ := deleteLock_eq hdel
  have hsame := sameLocks_wakeUpBlocks hwake
  have hhead : Head s p := .inl ⟨i, by simp [hlist]⟩
  have h1 := h.wake hplace hhead nofun hwake
  have hp1 := h1.blocks.head_not_waiter (hplace.same hsame) (hhead.same hsame)
  have hmem : ∀ j q, q ∈ ((locksUnlink s1 i before rest p).setAllocated p false).iFlock j ↔
      q ∈ s1.iFlock j ∧ q ≠ p := (hplace.same hsame).mem_unlist (hsame.iFlock ▸ hlist)
  refine h1.relink (h1.blocks.relink (fun q hq => .inl ⟨?_, rfl, rfl, rfl⟩) (fun q hq => ?_)
    (fun q hq hne => ?_) (fun t w q => Iff.rfl) (fun t ht => ht)) fun q _ => rfl
  · rcases hq with ⟨j, hj⟩ | hq
    · exact .inl ⟨j, ((hmem j q).mp hj).1⟩
    · exact .inr hq
  · by_cases hqp : q = p
    · subst hqp
      exact .inr ⟨update_self .., hp1⟩
    · rcases hq with ⟨j, hj⟩ | hq
      · exact .inl (.inl ⟨j, (hmem j q).mpr ⟨hj, hqp⟩⟩)
      · exact .inl (.inr hq)
  · have hqp : q ≠ p := by
      intro heq
      simp [heq] at hne
    rcases hq with ⟨j, hj⟩ | hq
    · exact .inl ⟨j, (hmem j q).mpr ⟨hj, hqp⟩⟩
    · exact .inr hq

theorem mergeStart (hc : ∀ q, caller ∉ W q)
    (hf : ∀ q, fl ∉ W q) : Lists (mergeStart s caller fl) W none := by
  unfold Fs.mergeStart
  split
  next hlt =>
    refine h.modify hf ?_ ?_ ?_ (fun _ hx => hx) fun _ =>
      .inr ⟨rfl, Int.le_of_lt hlt, Int.le_refl _⟩
    all_goals exact fun _ => rfl
  next hge =>
    refine h.modify hc ?_ ?_ ?_ (fun _ hx => hx) fun _ =>
      .inr ⟨rfl, Int.not_lt.mp hge, Int.le_refl _⟩
    all_goals exact fun _ => rfl

theorem mergeEnd (hc : ∀ q, caller ∉ W q)
    (hf : ∀ q, fl ∉ W q) : Lists (mergeEnd s caller fl) W none := by
  unfold Fs.mergeEnd
  split
  next hlt =>
    refine h.modify hf ?_ ?_ ?_ (fun _ hx => hx) fun _ =>
      .inr ⟨rfl, Int.le_refl _, Int.le_of_lt hlt⟩
    all_goals exact fun _ => rfl
  next hge =>
    refine h.modify hc ?_ ?_ ?_ (fun _ hx => hx) fun _ =>
      .inr ⟨rfl, Int.le_refl _, Int.not_lt.mp hge⟩
    all_goals exact fun _ => rfl

theorem merge (hc : ∀ q, caller ∉ W q)
    (hf : ∀ q, fl ∉ W q) : Lists (mergeRanges s caller fl) W none :=
  (h.mergeStart hc hf).mergeEnd hc hf

end

end Lists

/-! ## Through the call -/

section
variable {s0 : Locks} {c : Scan}
     {W : LockPtr → List LockPtr}

theorem ScanOk.caller_free (hok : ScanOk s0 i t call c rest) (h : Blocks c.s W) (q : LockPtr) :
    c.caller ∉ W q := by
  obtain ⟨place, hp⟩ := hok.placed
  rcases hok.caller with hc | hc
  · have hframe := hok.call_frame
    refine (h.running_free (t := t) hp ?_ ?_ ?_).2 q
    · rw [hframe, hc]
      simp [Frame.linked]
    · rw [hframe]
      exact fun _ _ hw => hw
    · rw [hframe]
      exact fun _ hw => hw.elim
  · exact h.head_not_waiter hp (.inl ⟨i, by simp [hok.list, hc]⟩) q

section
variable (hok : ScanOk s0 i t call c (fl :: rest))
include hok

theorem ScanOk.fl_head : Head c.s fl :=
  .inl ⟨i, by simp [hok.list]⟩

theorem ScanOk.lists_round {r : Round} (h : ∃ W, Lists c.s W none)
    (hcase : RoundCase fuel i c fl rest r) :
    r.Leads (fun c _ => ∃ W, Lists c.s W none) (fun c _ => ∃ W, Lists c.s W none) fl rest := by
  obtain ⟨W, h⟩ := h
  obtain ⟨place, hp⟩ := hok.placed
  have hfree := h.blocks.head_not_waiter hp hok.fl_head
  cases hcase with
  | sameAbove | otherAbove | right | sameBelow | otherBelow | left => exact ⟨W, h⟩
  | become => exact ⟨W, h.merge (hok.caller_free h.blocks) hfree⟩
  | replace s' hty hend hstart hadded hwake =>
    have h' := h.wake hp hok.fl_head nofun hwake
    have hsame := sameLocks_wakeUpBlocks hwake
    have hfree' := h'.blocks.head_not_waiter (hp.same hsame) (hok.fl_head.same hsame)
    refine ⟨update W fl [], ?_⟩
    show Lists (takeOver s' c.caller fl) _ none
    unfold takeOver
    refine h'.modify hfree' ?_ ?_ ?_ (fun _ hx => hx) fun _ => .inl (update_self ..)
    all_goals exact fun _ => rfl
  | absorb s' hty htouch hadded hdel =>
    have h' := h.merge (hok.caller_free h.blocks) hfree
    exact ⟨_, h'.delete (hp.mergeRanges ..) (by rw [mergeRanges_iFlock, hok.list]) hdel⟩
  | covered s' hty hend hstart hadded hdel => exact ⟨_, h.delete hp hok.list hdel⟩

end

end

section
variable {s0 : Locks} {call0 call' : PosixCall}
  {locks : List LockPtr} {new p : LockPtr}

/-- A new lock has no waiters and disturbs none. -/
theorem FinOk.lists_insert (hfin : FinOk s0 i t call0 s call (before ++ rest))
    (hcaller : call'.caller = call.caller) (hnew : new ∈ (Frame.posix call none).ptrs)
    (hne : new ≠ call.caller) (h : ∃ W, Lists s W none) :
    ∃ W, Lists (insertCopy s t i call' before rest new fl) W none := by
  obtain ⟨W, h⟩ := h
  obtain ⟨place, hp⟩ := hfin.placed
  have hframe : (insertCopy s t i call' before rest new fl).frame =
      update s.frame t (.posix call' none) := rfl
  have hmem : ∀ j q, q ∈ (insertCopy s t i call' before rest new fl).iFlock j ↔
      q ∈ s.iFlock j ∨ j = i ∧ q = new := fun j q =>
    mem_update_insert (W := s.iFlock) (by rw [hfin.list]; grind)
  have hlinked : ∀ q, Linked (insertCopy s t i call' before rest new fl) q ↔
      Linked s q ∨ q = new := by
    intro q
    rw [linked_update hframe, linked_at t, hfin.call_frame]
    simp only [hmem, Frame.linked, hcaller]
    grind
  have hnot : ¬Linked s new := by
    intro hl
    rcases hl with ⟨j, hj⟩ | ⟨u, hu⟩
    · exact hp.not_listed (by rw [hfin.call_frame]; exact hnew) j hj
    · obtain rfl := hp.task_unique (by rw [hfin.call_frame]; exact hnew)
        (Frame.ptrs_of_linked hu)
      rw [hfin.call_frame] at hu
      exact hne (by simpa [Frame.linked] using hu)
  have hsame : ∀ q, Linked s q →
      (insertCopy s t i call' before rest new fl).mem q = s.mem q := by
    intro q hq
    exact FinOk.insertCopy_mem_of_ne fun heq => hnot (heq ▸ hq)
  refine ⟨W, h.relink (h.blocks.relink (fun q hq => ?_) (fun q hq => .inl ?_) (fun q hq _ => ?_)
    (waits_update hframe (hfin.call_frame ▸ fun _ _ => Iff.rfl)) (fun u hu => hu))
    fun q hq => by rw [hsame q hq]⟩
  · rcases (hlinked q).mp hq with hq | rfl
    · rw [Locks.next, Locks.prev, hsame q hq]
      exact .inl ⟨hq, rfl, rfl, rfl⟩
    · rw [Locks.next, Locks.prev, FinOk.insertCopy_mem_self]
      exact .inr ⟨hnot, rfl, rfl, rfl⟩
  · exact (hlinked q).mpr (.inl hq)
  · rw [head_update hframe]
    rw [head_at t, hfin.call_frame] at hq
    exact hq.imp_left (Exists.imp fun j hj => (hmem j q).mpr (.inl hj))

/-- A lock that is changed in place wakes its waiters. -/
theorem FinOk.lists_trim (hfin : FinOk s0 i t call0 s call locks) (hp : p ∈ locks)
    (hid : ∀ r, (f r).ident = r.ident) (hnext : ∀ r, (f r).flNextblock = r.flNextblock)
    (hprev : ∀ r, (f r).flPrevblock = r.flPrevblock) (h : ∃ W, Lists s W none)
    (hwake : locksWakeUpBlocks fuel (s.modify p f) p = some s') : ∃ W, Lists s' W none := by
  obtain ⟨W, h⟩ := h
  obtain ⟨place, hplace⟩ := hfin.placed
  have hhead : Head s p := .inl ⟨i, hfin.list ▸ hp⟩
  have h1 : Lists (s.modify p f) W (some p) :=
    h.modify (h.blocks.head_not_waiter hplace hhead) hid hnext hprev nofun
      fun hne => absurd rfl hne
  exact ⟨_, h1.wake (hplace.modify p f) hhead (fun q hq => (Option.some.inj hq).symm) hwake⟩

theorem FinOk.lists_trims {c : Scan} (hfin : FinOk s0 i t call0 s call (c.before ++ rest))
    (hleft : ∀ l, c.left = some l → l ∈ c.before ++ rest)
    (hright : ∀ r, c.right = some r → r ∈ c.before ++ rest) (h : ∃ W, Lists s W none)
    (htrim : posixTrim fuel s t i call c rest = some s') : ∃ W, Lists s' W none := by
  refine (posixTrim_rule (P := fun s _ _ _ => ∃ W, Lists s W none) hfin hleft hright h ?_ ?_ ?_
    htrim).elim fun _ ⟨_, _, h'⟩ => h'
  · intro call' r new hfin' _ _ hnew hne
    exact hfin.lists_insert (hfin'.caller.trans hfin.caller.symm) hnew hne h
  · intro s1 s2 call' rest left r hfin1 hr _ h1 htrim1
    refine hfin1.lists_trim hr ?_ ?_ ?_ h1 htrim1
    all_goals exact fun _ => rfl
  · intro s1 s2 call' rest l hfin1 hl h1 htrim1
    refine hfin1.lists_trim hl ?_ ?_ ?_ h1 htrim1
    all_goals exact fun _ => rfl

end

theorem posixApply_lists {e : Errno} (hp : Placed s place) (ht : s.frame t = .posix call none)
    (hlists : ∃ W, Lists s W none) (h : posixApply fuel s t i call = some (s', e)) :
    ∃ W, Lists s' W none := by
  rcases posixApply_cases h with ⟨-, rfl, -⟩ | ⟨-, -, c, rest, hscan, hend⟩
  · exact hlists
  have hok := ScanOk.start (i := i) hp ht
  obtain ⟨hok', hc⟩ := posixScan_ok_rule (P := fun c _ => ∃ W, Lists c.s W none)
    (Q := fun c _ => ∃ W, Lists c.s W none) (fun _ _ _ h => h) (fun _ _ _ _ _ h _ => h)
    (fun _ _ _ _ hok _ h _ hcase => hok.lists_round h hcase) hok rfl hlists hscan
  rcases hend with ⟨-, -, rfl⟩ | ⟨-, htrim⟩ | ⟨newFl, -, -, hnew, htrim⟩
  · exact hc
  · exact hok'.finOk.lists_trims (fun _ => hok'.left_mem) (fun _ => hok'.right_mem) hc htrim
  · obtain ⟨hmem, hne, hfin⟩ := hok'.finOk.insert_newFl hnew c.caller
    have hin := (List.sublist_cons_self newFl rest).append_left c.before
    exact hfin.lists_trims (fun l hl => hin.subset (hok'.left_mem hl))
      (fun r hr => hin.subset (hok'.right_mem hr))
      (hok'.finOk.lists_insert rfl hmem hne hc) htrim

end Sbckernel.Fs
