import Sbckernel.Lib.Ring
import Sbckernel.Proofs.LockPlaces

/-!
# The block lists

Every lock that has waiters heads a circular list of their records, in the
order they went to sleep. `Blocks` says this of a whole state, with a ghost map
`W` from each lock to its waiters, and ties the lists to the tasks: a record is
on a list only while its task sleeps, and a sleeping task whose record is on no
list has been made runnable. Only three things ever change `W`: a task going to
sleep, a task coming back from its sleep, and a lock waking all its waiters.
-/

namespace Sbckernel.Fs

open Lib Function List Fs.Frame

variable {a w p x : LockPtr} {W : LockPtr → List LockPtr} {s s' : Locks} {f : Frame} {t : TaskPtr}
  {place : LockPtr → Option Place} {active : LockPtr → Prop} {fuel : Nat}

def Locks.next (s : Locks) (p : LockPtr) : Option LockPtr := (s.mem p).flNextblock

def Locks.prev (s : Locks) (p : LockPtr) : Option LockPtr := (s.mem p).flPrevblock

section
variable (s : Locks) (p : LockPtr) (q : Option LockPtr) (f : FileLock → FileLock)

@[simp] theorem next_setNextblock : (s.setNextblock p q).next = update s.next p q :=
  comp_update FileLock.flNextblock s.mem p _

@[simp] theorem prev_setPrevblock : (s.setPrevblock p q).prev = update s.prev p q :=
  comp_update FileLock.flPrevblock s.mem p _

variable {f} in
theorem next_modify (hf : ∀ r, (f r).flNextblock = r.flNextblock) :
    (s.modify p f).next = s.next :=
  funext fun r => s.modify_field p r _ hf

variable {f} in
theorem prev_modify (hf : ∀ r, (f r).flPrevblock = r.flPrevblock) :
    (s.modify p f).prev = s.prev :=
  funext fun r => s.modify_field p r _ hf

@[simp] theorem next_setPrevblock : (s.setPrevblock p q).next = s.next :=
  next_modify s p fun _ => rfl

@[simp] theorem prev_setNextblock : (s.setNextblock p q).prev = s.prev :=
  prev_modify s p fun _ => rfl

end

section
variable (s : Locks) (t : TaskPtr) (x : LockPtr) (f : Frame)

@[simp] theorem next_setFrame : (s.setFrame t f).next = s.next := rfl

@[simp] theorem prev_setFrame : (s.setFrame t f).prev = s.prev := rfl

@[simp] theorem next_sleepOn : (sleepOn s t x).next = s.next :=
  next_modify s x (f := fun r => { r with flWait := t :: r.flWait }) fun _ => rfl

@[simp] theorem prev_sleepOn : (sleepOn s t x).prev = s.prev :=
  prev_modify s x (f := fun r => { r with flWait := t :: r.flWait }) fun _ => rfl

@[simp] theorem next_endSleep : (endSleep s t x).next = s.next :=
  next_modify s x (f := fun r => { r with flWait := r.flWait.erase t }) fun _ => rfl

@[simp] theorem prev_endSleep : (endSleep s t x).prev = s.prev :=
  prev_modify s x (f := fun r => { r with flWait := r.flWait.erase t }) fun _ => rfl

theorem sleepOn_flWait (q : LockPtr) : ((sleepOn s t x).mem q).flWait =
    if q = x then t :: (s.mem x).flWait else (s.mem q).flWait :=
  (congrFun (comp_update FileLock.flWait s.mem x _) q).trans (update_apply ..)

theorem endSleep_flWait (q : LockPtr) : ((endSleep s t x).mem q).flWait =
    if q = x then (s.mem x).flWait.erase t else (s.mem q).flWait :=
  (congrFun (comp_update FileLock.flWait s.mem x _) q).trans (update_apply ..)

end

theorem next_insertBlock (s : Locks) (a x : LockPtr) :
    (locksInsertBlock s a x).next =
      update (update s.next ((s.prev a).getD a) (some x)) x (some a) := by
  simp [locksInsertBlock]
  rfl

theorem prev_insertBlock (s : Locks) (a x : LockPtr) :
    (locksInsertBlock s a x).prev =
      update (update s.prev a (some x)) x (some ((s.prev a).getD a)) := by
  simp [locksInsertBlock]
  rfl

theorem links_deleteBlock {n : LockPtr} (hp : s.prev w = some p) (hn : s.next w = some n) :
    (locksDeleteBlock s a w).next = Rings.eraseNext s.next a w p n ∧
      (locksDeleteBlock s a w).prev = Rings.erasePrev s.next s.prev a w p n := by
  have hp' : (s.mem w).flPrevblock = some p := hp
  have hn' : (s.mem w).flNextblock = some n := hn
  have hnext : ∀ s' : Locks, (s'.mem a).flNextblock = s'.next a := fun _ => rfl
  simp only [locksDeleteBlock, hp', hn', hnext, Rings.eraseNext, Rings.erasePrev,
    next_setNextblock, next_setPrevblock]
  split
  next halone => simp
  · simp

theorem runnable_deleteBlock (s : Locks) (a w : LockPtr) :
    (locksDeleteBlock s a w).runnable = s.runnable := by
  unfold locksDeleteBlock
  split
  · dsimp only
    split <;> rfl
  · rfl

/-- The first waiter is taken off and woken. -/
theorem rings_wakeUpFirst {ws : List LockPtr}
    {q : List TaskPtr} (h : Rings active s.next s.prev W) (hW : W p = w :: ws) :
    s.next p = some w ∧
      Rings active (locksDeleteBlock (s.wakeUp q) p w).next
        (locksDeleteBlock (s.wakeUp q) p w).prev (update W p ws) := by
  obtain ⟨pr, n, hpr, hn, hrings⟩ := h.erase (a := p) (w := w) (by simp [hW])
  have hlinks := links_deleteBlock (s := s.wakeUp q) (a := p) hpr hn
  have hhead := (h.ring p (by simp [hW])).next_head
  refine ⟨by simpa [hW] using hhead, ?_⟩
  rw [hlinks.1, hlinks.2]
  rw [hW, erase_cons_head] at hrings
  exact hrings

/-- A lock wakes all its waiters and heads no circle afterwards. -/
theorem rings_wakeUpBlocks (h : Rings active s.next s.prev W) (hact : active p)
    (hp : ∀ q, p ∉ W q) (hwake : locksWakeUpBlocks fuel s p = some s') :
    Rings active s'.next s'.prev (update W p []) ∧
      ∀ t, s'.runnable t = true ↔ s.runnable t = true ∨ ∃ w ∈ W p, t ∈ (s.mem w).flWait := by
  induction fuel generalizing s W with
  | zero => cases hwake
  | succ fuel ih =>
    rw [locksWakeUpBlocks] at hwake
    cases hW : W p with
    | nil =>
      have hnone : (s.mem p).flNextblock = none := (h.null p hact hW hp).1
      rw [hnone] at hwake
      cases hwake
      have hsame : update W p [] = W := by
        rw [← hW]
        exact update_eq_self p W
      rw [hsame]
      simp [h]
    | cons w ws =>
      obtain ⟨hnext, hrings⟩ := rings_wakeUpFirst (q := (s.mem w).flWait) h hW
      have hsome : (s.mem p).flNextblock = some w := hnext
      rw [hsome] at hwake
      have hsub : ∀ q, p ∉ update W p ws q := (forall_update_iff W fun _ l => p ∉ l).mpr
        ⟨fun hq => hp p (hW ▸ mem_cons_of_mem w hq), fun q _ => hp q⟩
      obtain ⟨hr, hrun⟩ := ih hrings hsub hwake
      rw [update_idem] at hr
      refine ⟨hr, fun t => ?_⟩
      have hsame := sameLocks_deleteBlock (s.wakeUp (s.mem w).flWait) p w
      rw [hrun, runnable_deleteBlock, update_self]
      simp only [hsame.flWait]
      simp only [Locks.wakeUp, Bool.or_eq_true, decide_eq_true_eq, mem_cons, exists_eq_or_imp]
      tauto

/-! ## Lists and tasks -/

/-- The records of a call whose links are set up. -/
def Frame.linked : Frame → List LockPtr
  | .idle => []
  | .posix call _ => [call.caller]
  | .flock call _ => call.newFl.toList
  | .flockDelete call thisfl => thisfl :: call.newFl.toList

/-- The call sleeps with the record `w` for the lock `p`. -/
def Frame.WaitsWith : Frame → LockPtr → LockPtr → Prop
  | .posix call (some blocker), w, p => call.caller = w ∧ blocker = p
  | .flock call (some blocker), w, p => call.newFl = some w ∧ blocker = p
  | _, _, _ => False

/-- The call waits for the waiters of `p`, which it has unlinked. -/
def Frame.Unlinked : Frame → LockPtr → Prop
  | .flockDelete _ thisfl, p => thisfl = p
  | _, _ => False

theorem Frame.Unlinked.eq_flockDelete (h : f.Unlinked p) :
    ∃ call, f = .flockDelete call p := by
  cases f with
  | flockDelete call thisfl =>
    cases h
    exact ⟨call, rfl⟩
  | _ => exact h.elim

theorem Frame.linked_of_waitsWith (h : f.WaitsWith w p) :
    w ∈ f.linked := by
  cases f with
  | idle => exact h.elim
  | posix call blocker =>
    cases blocker with
    | none => exact h.elim
    | some b => simp [Frame.linked, ← h.1]
  | flock call blocker =>
    cases blocker with
    | none => exact h.elim
    | some b => simp [Frame.linked, h.1]
  | flockDelete call thisfl => exact h.elim

theorem Frame.waitsWith_unique {w' p' : LockPtr} (h : f.WaitsWith w p)
    (h' : f.WaitsWith w' p') : w = w' ∧ p = p' ∧ ∀ q, ¬f.Unlinked q := by
  cases f with
  | idle => exact h.elim
  | posix call blocker =>
    cases blocker with
    | none => exact h.elim
    | some b =>
      obtain ⟨rfl, rfl⟩ := h
      exact ⟨h'.1, h'.2, fun _ hq => hq⟩
  | flock call blocker =>
    cases blocker with
    | none => exact h.elim
    | some b =>
      obtain ⟨hnew, rfl⟩ := h
      exact ⟨Option.some.inj (hnew.symm.trans h'.1), h'.2, fun _ hq => hq⟩
  | flockDelete call thisfl => exact h.elim

theorem Frame.linked_of_unlinked (h : f.Unlinked p) : p ∈ f.linked := by
  cases f with
  | idle | posix | flock => exact h.elim
  | flockDelete call thisfl =>
    cases h
    simp [Frame.linked]

theorem Frame.ptrs_of_linked (h : p ∈ f.linked) : p ∈ f.ptrs := by
  cases f with
  | idle => exact h
  | posix call blocker =>
    simp only [Frame.linked, mem_singleton] at h
    simp [Frame.ptrs, h]
  | flock call blocker => exact h
  | flockDelete call thisfl => exact h

def Linked (s : Locks) (p : LockPtr) : Prop :=
  (∃ i, p ∈ s.iFlock i) ∨ ∃ t, p ∈ (s.frame t).linked

/-- A lock that may have waiters. -/
def Head (s : Locks) (p : LockPtr) : Prop :=
  (∃ i, p ∈ s.iFlock i) ∨ ∃ t, (s.frame t).Unlinked p

theorem linked_update (hframe : s'.frame = update s.frame t f) : Linked s' p ↔
    (∃ i, p ∈ s'.iFlock i) ∨ p ∈ f.linked ∨ ∃ u, u ≠ t ∧ p ∈ (s.frame u).linked := by
  rw [Linked, hframe, exists_update_iff s.frame fun _ f => p ∈ f.linked]

theorem head_update (hframe : s'.frame = update s.frame t f) : Head s' p ↔
    (∃ i, p ∈ s'.iFlock i) ∨ f.Unlinked p ∨ ∃ u, u ≠ t ∧ (s.frame u).Unlinked p := by
  rw [Head, hframe, exists_update_iff s.frame fun _ f => f.Unlinked p]

theorem linked_at (t : TaskPtr) : Linked s p ↔ (∃ i, p ∈ s.iFlock i) ∨ p ∈ (s.frame t).linked ∨
    ∃ u, u ≠ t ∧ p ∈ (s.frame u).linked :=
  linked_update (update_eq_self t s.frame).symm

theorem head_at (t : TaskPtr) : Head s p ↔ (∃ i, p ∈ s.iFlock i) ∨ (s.frame t).Unlinked p ∨
    ∃ u, u ≠ t ∧ (s.frame u).Unlinked p :=
  head_update (update_eq_self t s.frame).symm

theorem waits_update (hframe : s'.frame = update s.frame t f)
    (hf : ∀ w p, f.WaitsWith w p ↔ (s.frame t).WaitsWith w p) (u : TaskPtr) (w p : LockPtr) :
    (s'.frame u).WaitsWith w p ↔ (s.frame u).WaitsWith w p := by
  rw [hframe]
  rcases eq_or_ne u t with rfl | hu
  · rw [update_self, hf]
  · rw [update_of_ne hu]

theorem Placed.linked_unique (h : Placed s place) {u : TaskPtr}
    (ht : p ∈ (s.frame t).linked) (hu : p ∈ (s.frame u).linked) : t = u :=
  h.task_unique (ptrs_of_linked ht) (ptrs_of_linked hu)

/-- A running call with the frame `fr` goes to sleep for `a` with its record `x`, and then has the
frame `f`. -/
structure FallsAsleep (fr f : Frame) (x a : LockPtr) : Prop where
  record : x ∈ fr.linked
  runs : ∀ w p, ¬fr.WaitsWith w p
  kept : ∀ p, ¬fr.Unlinked p
  linked : f.linked = fr.linked
  ptrs : f.ptrs = fr.ptrs
  waits : ∀ w p, f.WaitsWith w p ↔ w = x ∧ p = a

structure Blocks (s : Locks) (W : LockPtr → List LockPtr) : Prop where
  rings : Rings (Linked s) s.next s.prev W
  head : ∀ p, W p ≠ [] → Head s p
  waiter : ∀ p w, w ∈ W p → ∃ t, (s.frame t).WaitsWith w p
  asleep : ∀ t w p, (s.frame t).WaitsWith w p → w ∈ W p ∨ s.runnable t = true
  queue : ∀ t w p, (s.frame t).WaitsWith w p → (s.mem w).flWait = [t]
  noQueue : ∀ q, Linked s q → (∀ t p, ¬(s.frame t).WaitsWith q p) → (s.mem q).flWait = []

theorem Head.linked (h : Head s p) : Linked s p := by
  rcases h with h | ⟨t, ht⟩
  · exact .inl h
  · exact .inr ⟨t, linked_of_unlinked ht⟩

theorem Head.same (h : Head s p) (hs : SameLocks s s') : Head s' p := by
  rw [Head, hs.iFlock, hs.frame]
  exact h

/-- Of the records that calls have set up, only the one being deleted may have waiters. -/
theorem Head.unlinked (h : Head s p)
    (hplace : Placed s place) (hp : p ∈ (s.frame t).linked) : (s.frame t).Unlinked p := by
  rcases h with ⟨i, hi⟩ | ⟨u, hu⟩
  · exact absurd hi (hplace.not_listed (ptrs_of_linked hp) i)
  · obtain rfl := hplace.linked_unique hp (linked_of_unlinked hu)
    exact hu

namespace Blocks

theorem linked_waiter (h : Blocks s W) (hw : w ∈ W p) : Linked s w := by
  obtain ⟨t, ht⟩ := h.waiter p w hw
  exact .inr ⟨t, linked_of_waitsWith ht⟩

/-- A lock that may have waiters is not itself a waiter's record. -/
theorem head_not_waiter (h : Blocks s W) (hplace : Placed s place) (hp : Head s p)
    (q : LockPtr) : p ∉ W q := by
  intro hq
  obtain ⟨t, ht⟩ := h.waiter q p hq
  exact (waitsWith_unique ht ht).2.2 p
    (hp.unlinked hplace (linked_of_waitsWith ht))

/-- A change that leaves the circles alone: records that were set up keep their
links, new ones come with null links, and what goes is in no circle. -/
theorem relink (h : Blocks s W)
    (hlinked : ∀ p, Linked s' p → (Linked s p ∧ s'.next p = s.next p ∧ s'.prev p = s.prev p ∧
      (s'.mem p).flWait = (s.mem p).flWait) ∨
      ¬Linked s p ∧ s'.next p = none ∧ s'.prev p = none ∧ (s'.mem p).flWait = [])
    (hgone : ∀ p, Linked s p → Linked s' p ∨ W p = [] ∧ ∀ q, p ∉ W q)
    (hhead : ∀ p, Head s p → W p ≠ [] → Head s' p)
    (hwaits : ∀ t w p, (s'.frame t).WaitsWith w p ↔ (s.frame t).WaitsWith w p)
    (hrun : ∀ t, s.runnable t = true → s'.runnable t = true) : Blocks s' W := by
  have hkeep : ∀ q, Linked s q → Linked s' q → s'.next q = s.next q ∧ s'.prev q = s.prev q ∧
      (s'.mem q).flWait = (s.mem q).flWait := by
    intro q hq hq'
    rcases hlinked q hq' with ⟨-, hlink⟩ | ⟨hno, -⟩
    · exact hlink
    · exact absurd hq hno
  have hcircle : ∀ a q, q ∈ a :: W a → W a ≠ [] → Linked s q ∧ Linked s' q := by
    intro a q hq ha
    rcases mem_cons.mp hq with rfl | hq
    · have hs := (h.head q ha).linked
      refine ⟨hs, ?_⟩
      rcases hgone q hs with hs' | ⟨hnil, -⟩
      · exact hs'
      · exact absurd hnil ha
    · have hs := h.linked_waiter hq
      refine ⟨hs, ?_⟩
      rcases hgone q hs with hs' | ⟨-, hno⟩
      · exact hs'
      · exact absurd hq (hno a)
  have hwaiter : ∀ t w p, (s'.frame t).WaitsWith w p → Linked s w ∧ Linked s' w := by
    intro t w p hw
    exact ⟨.inr ⟨t, linked_of_waitsWith ((hwaits t w p).mp hw)⟩,
      .inr ⟨t, linked_of_waitsWith hw⟩⟩
  refine ⟨⟨fun a ha => ?_, fun a hact ha ha' => ?_, h.rings.nodup, h.rings.apart, h.rings.flat⟩,
    fun p hp => hhead p (h.head p hp) hp, fun p w hw => ?_, fun t w p hw => ?_,
    fun t w p hw => ?_, fun q hq hno => ?_⟩
  · refine (h.rings.ring a ha).congr (fun q hq => ?_) (fun q hq => ?_)
    · obtain ⟨hs, hs'⟩ := hcircle a q hq ha
      exact (hkeep q hs hs').1
    · obtain ⟨hs, hs'⟩ := hcircle a q (by simpa [or_comm] using hq) ha
      exact (hkeep q hs hs').2.1
  · rcases hlinked a hact with ⟨hs, hn, hp, -⟩ | ⟨-, hn, hp, -⟩
    · rw [hn, hp]
      exact h.rings.null a hs ha ha'
    · exact ⟨hn, hp⟩
  · obtain ⟨t, ht⟩ := h.waiter p w hw
    exact ⟨t, (hwaits t w p).mpr ht⟩
  · rcases h.asleep t w p ((hwaits t w p).mp hw) with hmem | hr
    · exact .inl hmem
    · exact .inr (hrun t hr)
  · obtain ⟨hs, hs'⟩ := hwaiter t w p hw
    rw [(hkeep w hs hs').2.2]
    exact h.queue t w p ((hwaits t w p).mp hw)
  · rcases hlinked q hq with ⟨hs, -, -, hw⟩ | ⟨-, -, -, hw⟩
    · rw [hw]
      exact h.noQueue q hs fun t p ht => hno t p ((hwaits t q p).mpr ht)
    · exact hw

section
variable (h : Blocks s W)
include h

section
variable (hplace : Placed s place)
include hplace

/-- The record of a task that is not asleep is in no circle. -/
theorem running_free (hx : x ∈ (s.frame t).linked) (hrun : ∀ w p, ¬(s.frame t).WaitsWith w p)
    (hun : ∀ p, (s.frame t).Unlinked p → W p = []) : W x = [] ∧ ∀ q, x ∉ W q := by
  refine ⟨?_, fun q hq => ?_⟩
  · by_contra hne
    exact hne (hun x ((h.head x hne).unlinked hplace hx))
  · obtain ⟨u, hu⟩ := h.waiter q x hq
    obtain rfl := hplace.linked_unique hx (linked_of_waitsWith hu)
    exact hrun x q hu

theorem wake (hp : Head s p)
    (hwake : locksWakeUpBlocks fuel s p = some s') : Blocks s' (update W p []) := by
  have hsame := sameLocks_wakeUpBlocks hwake
  have hlinked : Linked s' = Linked s := by
    funext q
    rw [Linked, Linked, hsame.iFlock, hsame.frame]
  obtain ⟨hrings, hrun⟩ :=
    rings_wakeUpBlocks h.rings hp.linked (h.head_not_waiter hplace hp) hwake
  have hsub : ∀ q, ∀ w ∈ update W p [] q, w ∈ W q :=
    (forall_update_iff W fun q l => ∀ w ∈ l, w ∈ W q).mpr ⟨forall_mem_nil _, fun _ _ _ => id⟩
  refine ⟨by rw [hlinked]; exact hrings, fun q hq => ?_, fun q w hw => ?_, fun t w q hw => ?_,
    fun t w q hw => ?_, fun q hq hno => ?_⟩
  · have hqp : q ≠ p := by
      intro heq
      simp [heq] at hq
    rw [update_of_ne hqp] at hq
    exact (h.head q hq).same hsame
  · rw [hsame.frame]
    exact h.waiter q w (hsub q w hw)
  · rw [hsame.frame] at hw
    by_cases hq : q = p
    · subst hq
      rcases h.asleep t w q hw with hmem | hr
      · refine .inr ((hrun t).mpr (.inr ⟨w, hmem, ?_⟩))
        rw [h.queue t w q hw]
        simp
      · exact .inr ((hrun t).mpr (.inl hr))
    · rw [update_of_ne hq]
      rcases h.asleep t w q hw with hmem | hr
      · exact .inl hmem
      · exact .inr ((hrun t).mpr (.inl hr))
  · rw [hsame.flWait]
    rw [hsame.frame] at hw
    exact h.queue t w q hw
  · rw [hsame.flWait]
    rw [hlinked] at hq
    rw [hsame.frame] at hno
    exact h.noQueue q hq hno

/-- A task gets another frame and puts its record `x` on a block list or takes it off. -/
theorem reframe {W' : LockPtr → List LockPtr}
    (hrings : Rings (Linked s) s'.next s'.prev W') (hiFlock : s'.iFlock = s.iFlock)
    (hframe : s'.frame = update s.frame t f) (hrun : ∀ u, u ≠ t → s'.runnable u = s.runnable u)
    (hwait : ∀ q, q ≠ x → (s'.mem q).flWait = (s.mem q).flWait) (hx : x ∈ (s.frame t).linked)
    (hf : f.linked = (s.frame t).linked) (hun : ∀ p, ¬(s.frame t).Unlinked p)
    (hold : ∀ w p, (s.frame t).WaitsWith w p → w = x)
    (hnew : ∀ w p, f.WaitsWith w p → w = x ∧ (s'.mem x).flWait = [t])
    (hnone : (∀ p, ¬f.WaitsWith x p) → (s'.mem x).flWait = [])
    (hmem : ∀ q w, w ≠ x → (w ∈ W' q ↔ w ∈ W q)) (hon : ∀ q, x ∈ W' q ↔ f.WaitsWith x q)
    (hhead : ∀ q, x ∈ W' q → Head s q) : Blocks s' W' := by
  have hself : s'.frame t = f := by rw [hframe, update_self]
  have hother : ∀ u, u ≠ t → s'.frame u = s.frame u := fun u hu => by
    rw [hframe, update_of_ne hu]
  have hlinked : Linked s' = Linked s := by
    have hlinks : ∀ u, (s'.frame u).linked = (s.frame u).linked := by
      intro u
      rcases eq_or_ne u t with rfl | hu
      · rw [hself, hf]
      · rw [hother u hu]
    funext q
    simp only [Linked, hiFlock, hlinks]
  -- the record of another task is not `x`
  have hne : ∀ u w q, u ≠ t → (s.frame u).WaitsWith w q → w ≠ x := fun u w q hu hw heq =>
    hu (hplace.linked_unique (heq ▸ linked_of_waitsWith hw) hx)
  refine ⟨hlinked ▸ hrings, fun q hq => ?_, fun q w hw => ?_, fun u w q hw => ?_,
    fun u w q hw => ?_, fun q hq hno => ?_⟩
  · obtain ⟨w, hw⟩ := exists_mem_of_ne_nil _ hq
    have hs : Head s q := by
      rcases eq_or_ne w x with rfl | hwx
      · exact hhead q hw
      · exact h.head q (ne_nil_of_mem ((hmem q w hwx).mp hw))
    rw [Head, hiFlock]
    refine hs.imp_right fun ⟨u, hu⟩ => ⟨u, ?_⟩
    rwa [hother u fun heq => hun q (heq ▸ hu)]
  · rcases eq_or_ne w x with rfl | hwx
    · exact ⟨t, hself ▸ (hon q).mp hw⟩
    · obtain ⟨u, hu⟩ := h.waiter q w ((hmem q w hwx).mp hw)
      exact ⟨u, by rwa [hother u fun heq => hwx (hold w q (heq ▸ hu))]⟩
  · rcases eq_or_ne u t with rfl | hu
    · rw [hself] at hw
      obtain rfl := (hnew w q hw).1
      exact .inl ((hon q).mpr hw)
    · rw [hother u hu] at hw
      rw [hmem q w (hne u w q hu hw), hrun u hu]
      exact h.asleep u w q hw
  · rcases eq_or_ne u t with rfl | hu
    · rw [hself] at hw
      obtain ⟨rfl, hq⟩ := hnew w q hw
      exact hq
    · rw [hother u hu] at hw
      rw [hwait w (hne u w q hu hw)]
      exact h.queue u w q hw
  · rcases eq_or_ne q x with rfl | hqx
    · exact hnone fun p hp => hno t p (hself ▸ hp)
    · rw [hwait q hqx]
      refine h.noQueue q (hlinked ▸ hq) fun u r hu => hno u r ?_
      rwa [hother u fun heq => hqx (hold q r (heq ▸ hu))]

/-- A task goes to sleep on the block list of `a` with its record `x`. -/
theorem sleep (ha : Head s a) (hf : FallsAsleep (s.frame t) f x a) :
    Blocks ((sleepOn (locksInsertBlock s a x) t x).setFrame t f) (update W a (W a ++ [x])) := by
  obtain ⟨hx, hrun, hun, hf, -, hwaits⟩ := hf
  obtain ⟨hWx, hxW⟩ := h.running_free hplace hx hrun fun p hp => absurd hp (hun p)
  have haW := h.head_not_waiter hplace ha
  have hxa : x ≠ a := by
    rintro rfl
    exact hun x (ha.unlinked hplace hx)
  have hrings := h.rings.insert haW ha.linked hWx hxW hxa
  rw [← next_insertBlock, ← prev_insertBlock] at hrings
  have hsame := sameLocks_insertBlock s a x
  have hxwait : (s.mem x).flWait = [] := by
    refine h.noQueue x (.inr ⟨t, hx⟩) fun u q hu => ?_
    obtain rfl := hplace.linked_unique hx (linked_of_waitsWith hu)
    exact hrun x q hu
  have hmem : ∀ q w, w ∈ update W a (W a ++ [x]) q ↔ w ∈ W q ∨ q = a ∧ w = x :=
    fun q w => mem_update_insert (by simp)
  refine h.reframe hplace (x := x) (t := t) (f := f) ?_ hsame.iFlock
    (congrArg (fun g : TaskPtr → Frame => update g t f) hsame.frame)
    (fun u hu => update_of_ne hu ..) (fun q hq => ?_) hx hf hun (fun w p hw => absurd hw (hrun w p))
    (fun w p hw => ⟨((hwaits w p).mp hw).1, ?_⟩) (fun hno => ?_) (fun q w hw => by simp [hmem, hw])
    (fun q => by simp [hmem, hwaits, hxW q]) fun q hq => ?_
  · rw [next_setFrame, next_sleepOn, prev_setFrame, prev_sleepOn]
    exact hrings
  · rw [Locks.setFrame_mem, sleepOn_flWait, if_neg hq, hsame.flWait]
  · rw [Locks.setFrame_mem, sleepOn_flWait, if_pos rfl, hsame.flWait, hxwait]
  · exact absurd ((hwaits x a).mpr ⟨rfl, rfl⟩) (hno a)
  · obtain hq | ⟨rfl, -⟩ := (hmem q x).mp hq
    · exact absurd hq (hxW q)
    · exact ha

/-- Where the record of a sleeping call can be linked. -/
theorem waiter_only (hx : (s.frame t).WaitsWith x a) : W x = [] ∧ ∀ q, x ∈ W q → q = a := by
  have hlink := linked_of_waitsWith hx
  refine ⟨?_, fun q hq => ?_⟩
  · by_contra hne
    exact (waitsWith_unique hx hx).2.2 x ((h.head x hne).unlinked hplace hlink)
  · obtain ⟨u, hu⟩ := h.waiter q x hq
    obtain rfl := hplace.linked_unique hlink (linked_of_waitsWith hu)
    exact (waitsWith_unique hu hx).2.1

/-- A sleeping call that was taken off the block list has null links. -/
theorem waiter_null
    (hx : (s.frame t).WaitsWith x a) (hmem : x ∉ W a) : s.next x = none ∧ s.prev x = none := by
  obtain ⟨hWx, hxW⟩ := h.waiter_only hplace hx
  exact h.rings.null x (.inr ⟨t, linked_of_waitsWith hx⟩) hWx
    fun q hq => hmem (hxW q hq ▸ hq)

/-- A task comes back from its sleep with the record `x` for `a`, whether it was
woken by the lock or by a signal. -/
theorem resume (hx : (s.frame t).WaitsWith x a)
    (hf : f.linked = (s.frame t).linked) (hwaits : ∀ w p, ¬f.WaitsWith w p) :
    Blocks ((locksDeleteBlock (endSleep s t x) a x).setFrame t f) (update W a ((W a).erase x)) := by
  have hlink := linked_of_waitsWith hx
  obtain ⟨-, hxW⟩ := h.waiter_only hplace hx
  have hsame := sameLocks_deleteBlock (endSleep s t x) a x
  have hrings : Rings (Linked s) (locksDeleteBlock (endSleep s t x) a x).next
      (locksDeleteBlock (endSleep s t x) a x).prev (update W a ((W a).erase x)) := by
    by_cases hmem : x ∈ W a
    · obtain ⟨p, n, hp, hn, hr⟩ := h.rings.erase hmem
      have hlinks := links_deleteBlock (s := endSleep s t x) (a := a)
        (by rw [prev_endSleep]; exact hp) (by rw [next_endSleep]; exact hn)
      rw [hlinks.1, hlinks.2, next_endSleep, prev_endSleep]
      exact hr
    · have hnull := h.waiter_null hplace hx hmem
      have hnone : ((endSleep s t x).mem x).flNextblock = none := by
        have : (endSleep s t x).next x = none := by rw [next_endSleep]; exact hnull.1
        exact this
      have hstay : locksDeleteBlock (endSleep s t x) a x = endSleep s t x := by
        unfold locksDeleteBlock
        rw [hnone]
      rw [hstay, next_endSleep, prev_endSleep, erase_of_not_mem hmem, update_eq_self]
      exact h.rings
  have hmem : ∀ q w, w ∈ update W a ((W a).erase x) q ↔ w ∈ W q ∧ w ≠ x :=
    fun q w => mem_update_erase (h.rings.nodup a) hxW
  refine h.reframe hplace (t := t) (x := x) (f := f) hrings hsame.iFlock
    (congrArg (fun g : TaskPtr → Frame => update g t f) hsame.frame)
    (fun u _ => congrFun (runnable_deleteBlock (endSleep s t x) a x) u) (fun q hq => ?_) hlink hf
    (waitsWith_unique hx hx).2.2 (fun w p hw => (waitsWith_unique hw hx).1)
    (fun w p hw => absurd hw (hwaits w p)) (fun _ => ?_) (fun q w hw => by simp [hmem, hw])
    (fun q => by simp [hmem, hwaits]) fun q hq => absurd rfl ((hmem q x).mp hq).2
  · rw [Locks.setFrame_mem, hsame.flWait, endSleep_flWait, if_neg hq]
  · rw [Locks.setFrame_mem, hsame.flWait, endSleep_flWait, if_pos rfl, h.queue t x a hx]
    simp

end

end

end Blocks

end Sbckernel.Fs
