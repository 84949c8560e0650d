import Sbckernel.Lib.Reach
import Sbckernel.Proofs.SemQueue

/-!
# No wake-up is lost

Whatever changes a value calls `update_queue` before it returns. The calls that do
not (a `semop` that has to sleep, one that a signal ends) leave the values alone:
the first puts an element at the end of the queue that has just been tried, the
second takes one out. So between two calls everything in the queue has to wait, and
the queue is in the order of insertion.
-/

namespace Sbckernel.Ipc

open Lib Function List

/-- A set between two calls; nothing refers to one that has been removed. -/
structure Settled (s : SemState) : Prop where
  waiting : s.live = true → ∃ l, SemInv s l ∧ ∀ q ∈ l, Blocked s q
  removed : s.live = false → ∀ t, s.pending.prev t = none ∧ s.undo t = none

/-- Calls that do not set values and do not remove the set. -/
inductive OpStep : SemState → SemState → Prop
  | semop (s : SemState) (current : Task) (sops : List Sembuf) (permitted memory : Bool) :
      s.asleep current = false → OpStep s (sysSemop s current sops permitted memory).1
  | awake (s : SemState) (current : Task) :
      s.asleep current = true → OpStep s (semopAwake s current).1
  | exit (s : SemState) (current : Task) : OpStep s (semExit s current)

inductive SemStep : SemState → SemState → Prop
  | op {s s' : SemState} : OpStep s s' → SemStep s s'
  | setval (s : SemState) (semnum : Nat) (val : Int) (permitted : Bool) :
      SemStep s (semctlSetval s semnum val permitted).1
  | setall (s : SemState) (array : Nat → Nat) (permitted : Bool) :
      SemStep s (semctlSetall s array permitted).1
  | rmid (s : SemState) (permitted : Bool) : SemStep s (semctlRmid s permitted).1

/-- A set from `newary` on. -/
def semaphores : System SemState where
  init := fun s => ∃ nsems, s = newary nsems
  step := SemStep

section
variable {s s' : SemState} {l : List Task} {current : Task} {sops : List Sembuf}

theorem settled_newary (nsems : Nat) : Settled (newary nsems) where
  waiting := fun _ => ⟨[], ⟨TailQueue.rep_empty, fun _ => ⟨le_refl 0, Int.zero_le_ofNat _⟩,
    nofun, nofun, .nil, nofun⟩, nofun⟩
  removed := nofun

theorem SemInv.settled (h : SemInv s l) (hlive : s.live = true) (hb : ∀ q ∈ l, Blocked s q) :
    Settled s := ⟨fun _ => ⟨l, h, hb⟩, fun hdead => by rw [hlive] at hdead; cases hdead⟩

/-- A change of values, with the `update_queue` that follows it. -/
theorem SemInv.settled_updateQueue (h : SemInv s l) (hlive : s.live = true) :
    Settled (updateQueue s) := by
  obtain ⟨l', hinv, hran, hall⟩ := updateQueue_spec h
  exact hinv.settled (hran.live.trans hlive) hall

/-! ## `sys_semop` -/

/-- The state with an undo structure for the task, if it needs one. -/
def withUndo (s : SemState) (current : Task) (needed : Bool) : SemState :=
  if needed then { s with undo := update s.undo current (some fun _ => 0) } else s

theorem withUndo_eq (s : SemState) (current : Task) (needed : Bool) :
    ∃ undo, withUndo s current needed = { s with undo := undo } ∧
      ∀ t, undo t = none → s.undo t = none := by
  rw [withUndo]
  split
  · refine ⟨_, rfl, fun t hnone => ?_⟩
    rcases eq_or_ne t current with rfl | ht
    · cases (update_self ..).symm.trans hnone
    · rwa [update_of_ne ht] at hnone
  · exact ⟨s.undo, rfl, fun _ => id⟩

theorem tracks_withUndo (needed : Bool) (hneeded : needed = true → s.undo current = none)
    (h : Tracks s) : Tracks (withUndo s current needed) := by
  intro t n
  rw [withUndo]
  split
  next hnew =>
    have htn := h t n
    rw [SemState.semadj] at htn ⊢
    dsimp only
    rcases eq_or_ne t current with rfl | ht
    · rw [hneeded hnew] at htn
      rwa [update_self]
    · rwa [update_of_ne ht]
  · exact h t n

/-- The state in which `sys_semop` goes to sleep. -/
def fallAsleep (s : SemState) (current : Task) (sops : List Sembuf) : SemState :=
  let s := { s with queue := update s.queue current ⟨sops, none⟩ }
  let s := insertIntoQueue s current
  { s with asleep := update s.asleep current true }

/-- What `sys_semop` does to a set. -/
inductive Semop (s : SemState) (current : Task) (sops : List Sembuf) : SemState → Prop
  | fail : Semop s current sops s
  | perform (needed : Bool) : s.live = true → (needed = true → s.undo current = none) →
      (∀ sop ∈ sops, sop.undo = true → (withUndo s current needed).undo current ≠ none) →
      (trySemop s.semBase sops).1 = .ok →
      Semop s current sops (updateQueue (doSemop current (withUndo s current needed) sops))
  | wait (needed : Bool) : s.live = true → (needed = true → s.undo current = none) →
      (∀ sop ∈ sops, sop.undo = true → (withUndo s current needed).undo current ≠ none) →
      (trySemop s.semBase sops).1 = .sleep →
      Semop s current sops (fallAsleep (withUndo s current needed) current sops)

theorem sysSemop_semop (h : s.live = true → InRange s.semBase) (current : Task)
    (sops : List Sembuf) (permitted memory : Bool) :
    Semop s current sops (sysSemop s current sops permitted memory).1 := by
  rw [sysSemop]
  split
  · exact .fail
  split
  · exact .fail
  split
  · exact .fail
  next hlive =>
    rw [not_not] at hlive
    split
    · exact .fail
    split
    · exact .fail
    rw [trySemop_eq (h hlive)]
    have hflags : ∀ sop ∈ sops, sop.undo = true →
        (withUndo s current (sops.any Sembuf.undo && (s.undo current).isNone)).undo current ≠
        none := by
      intro sop hsop hflag
      rw [withUndo, any_eq_true.mpr ⟨sop, hsop, hflag⟩, Bool.true_and]
      split
      · simp
      next hsome => simpa using hsome
    have hneeded : (sops.any Sembuf.undo && (s.undo current).isNone) = true →
        s.undo current = none := fun hand =>
      Option.isNone_iff_eq_none.mp (Bool.and_eq_true_iff.mp hand).2
    cases htry : (trySemop s.semBase sops).1 with
    | error e => exact .fail
    | ok =>
      dsimp only
      split
      · exact .fail
      · rw [if_pos rfl]
        exact .perform _ hlive hneeded hflags htry
    | sleep =>
      dsimp only
      split
      · exact .fail
      · rw [if_neg nofun]
        exact .wait _ hlive hneeded hflags htry

/-- The element at the end is the newest one. -/
theorem SemInv.fallAsleep (h : SemInv s l) (hcur : current ∉ l)
    (hflags : ∀ sop ∈ sops, sop.undo = true → s.undo current ≠ none) :
    SemInv (fallAsleep s current sops) (l ++ [current]) := by
  have hne : ∀ {q}, q ∈ l → q ≠ current := fun hq heq => hcur (heq ▸ hq)
  have hmem : ∀ {q}, q ∈ l ++ [current] → q ∈ l ∨ q = current := by simp
  constructor
  case rep => exact h.rep.insertTail hcur
  case values => exact h.values
  case sleeping =>
    intro q hq
    show update s.asleep current true q = true
    rcases hmem hq with hq | rfl
    · rw [update_of_ne (hne hq), h.sleeping q hq]
    · exact update_self ..
  case undone =>
    intro q hq sop hsop
    change sop ∈ (update s.queue current ⟨sops, none⟩ q).sops at hsop
    rcases hmem hq with hq | rfl
    · rw [update_of_ne (hne hq)] at hsop
      exact h.undone q hq sop hsop
    · rw [update_self] at hsop
      exact hflags sop hsop
  case fifo =>
    show (l ++ [current]).Pairwise fun a b =>
      update s.inserted current s.clock a < update s.inserted current s.clock b
    refine pairwise_append.mpr ⟨h.fifo.imp_of_mem ?_, pairwise_singleton .., ?_⟩
    · intro a b ha hb hab
      rwa [update_of_ne (hne ha), update_of_ne (hne hb)]
    · intro a ha b hb
      rw [mem_singleton.mp hb, update_self, update_of_ne (hne ha)]
      exact h.past a ha
  case past =>
    intro q hq
    show update s.inserted current s.clock q < s.clock + 1
    rcases hmem hq with hq | rfl
    · rw [update_of_ne (hne hq)]
      exact Nat.lt_succ_of_lt (h.past q hq)
    · rw [update_self]
      exact Nat.lt_succ_self _

theorem blocked_fallAsleep (htry : (trySemop s.semBase sops).1 = .sleep)
    (hb : ∀ q ∈ l, Blocked s q) : ∀ q ∈ l ++ [current], Blocked (fallAsleep s current sops) q := by
  intro q hq
  show (trySemop s.semBase (update s.queue current ⟨sops, none⟩ q).sops).1 = .sleep
  by_cases hcur : q = current
  · rwa [hcur, update_self]
  · rw [update_of_ne hcur]
    rw [mem_append, mem_singleton] at hq
    exact hb q (hq.resolve_right hcur)

theorem SemInv.withUndo (h : SemInv s l) (current : Task) (needed : Bool) :
    SemInv (withUndo s current needed) l := by
  obtain ⟨undo, heq, hundo⟩ := withUndo_eq s current needed
  rw [heq]
  exact h.sublist (.refl l) h.rep h.values fun q _ => hundo q

/-- `sys_semop` by a task that is not asleep. -/
theorem Semop.settled (h : Settled s) (hcur : s.asleep current = false)
    (hop : Semop s current sops s') : Settled s' ∧ (Tracks s → Tracks s') := by
  cases hop with
  | fail => exact ⟨h, id⟩
  | perform needed hlive hneeded hflags htry =>
    obtain ⟨l, hinv, -⟩ := h.waiting hlive
    have htracks := tracks_withUndo needed hneeded
    have hundo := hinv.withUndo current needed
    obtain ⟨undo1, hwith, -⟩ := withUndo_eq s current needed
    rw [hwith] at hflags htracks hundo ⊢
    obtain ⟨base, hseq⟩ := (tryForward_ok hundo.values).mp htry
    obtain ⟨-, hbase, undo, performed, heq, hnone, hdone⟩ := doSemop_spec current hundo.values hseq
    have hinv' : SemInv (doSemop current { s with undo := undo1 } sops) l := by
      rw [heq]
      exact hundo.sublist (.refl l) hundo.rep hbase fun q _ => (hnone q).mp
    have hlive' : (doSemop current { s with undo := undo1 } sops).live = true := by
      rw [heq]
      exact hlive
    obtain ⟨-, -, hran, -⟩ := updateQueue_spec hinv'
    exact ⟨hinv'.settled_updateQueue hlive', fun ht => hran.tracks (hdone (htracks ht) hflags)⟩
  | wait needed hlive hneeded hflags htry =>
    obtain ⟨l, hinv, hb⟩ := h.waiting hlive
    have hout : current ∉ l := fun hmem => by cases (hinv.sleeping current hmem).symm.trans hcur
    have htracks := tracks_withUndo needed hneeded
    have hsleep := (hinv.withUndo current needed).fallAsleep hout hflags
    obtain ⟨undo, hwith, -⟩ := withUndo_eq s current needed
    rw [hwith] at htracks hsleep ⊢
    exact ⟨hsleep.settled hlive (blocked_fallAsleep htry hb), htracks⟩

/-! ## Leaving the queue -/

/-- The task is not queued and not asleep any more. -/
def dequeued (s : SemState) (current : Task) : SemState :=
  { removeFromQueue s current with asleep := update s.asleep current false }

theorem removeFromQueue_of_prev_none (h : s.pending.prev current = none) :
    removeFromQueue s current = s := by
  rw [removeFromQueue, TailQueue.remove_of_prev_none h]

theorem SemInv.dequeued (h : SemInv s l) (current : Task) :
    ∃ l', l'.Sublist l ∧ current ∉ l' ∧ SemInv (dequeued s current) l' := by
  have hasleep : ∀ {q}, q ≠ current → s.asleep q = true →
      update s.asleep current false q = true := fun hq hs => by
    rwa [update_of_ne hq]
  by_cases hmem : current ∈ l
  · obtain ⟨l1, l2, rfl⟩ := append_of_mem hmem
    obtain ⟨-, hnd, hdisj⟩ := nodup_append.mp h.rep.nodup
    have hout : current ∉ l1 ++ l2 := by grind
    have hsub : (l1 ++ l2).Sublist (l1 ++ current :: l2) :=
      (List.Sublist.refl l1).append (sublist_cons_self current l2)
    exact ⟨l1 ++ l2, hsub, hout, h.sublist hsub h.rep.remove h.values (fun _ _ => id)
      fun q hq => hasleep fun heq => hout (heq ▸ hq)⟩
  · have hrep : (s.pending.remove current).Rep l := by
      rw [TailQueue.remove_of_prev_none (h.rep.prev_eq_none.mpr hmem)]
      exact h.rep
    exact ⟨l, .refl l, hmem, h.sublist (.refl l) hrep h.values (fun _ _ => id)
      fun q hq => hasleep fun heq => hmem (heq ▸ hq)⟩

theorem dequeued_settled (h : Settled s) (current : Task) : Settled (dequeued s current) where
  waiting := fun hlive => by
    obtain ⟨l, hinv, hb⟩ := h.waiting hlive
    obtain ⟨l', hsub, -, hinv'⟩ := hinv.dequeued current
    exact ⟨l', hinv', fun q hq => hb q (hsub.subset hq)⟩
  removed := fun hdead t => by
    obtain ⟨hprev, hundo⟩ := h.removed hdead t
    refine ⟨?_, hundo⟩
    show (s.pending.remove current).prev t = none
    rwa [TailQueue.remove_of_prev_none (h.removed hdead current).1]

theorem semopAwake_eq (s : SemState) (current : Task) :
    (semopAwake s current).1 = dequeued s current := by
  rw [semopAwake, dequeued]
  dsimp only
  split
  next hprev =>
    rw [removeFromQueue_of_prev_none hprev]
    split <;> rfl
  · rfl

/-! ## `sem_exit` -/

/-- The undo structure of a task is gone, with the operations on its record. -/
def forget (s : SemState) (current : Task) : SemState :=
  { s with
    undo := update s.undo current none
    performed := s.performed.filter fun p => p.task ≠ current }

theorem Settled.asleep_of_prev (h : Settled s) (hprev : s.pending.prev current ≠ none) :
    s.asleep current = true := by
  cases hlive : s.live with
  | false => exact absurd (h.removed hlive current).1 hprev
  | true =>
    obtain ⟨l, hinv, -⟩ := h.waiting hlive
    exact hinv.sleeping current (by_contra fun hout => hprev (hinv.rep.prev_eq_none.mpr hout))

theorem semExit_eq (h : Settled s) : semExit s current =
    match s.undo current with
    | none => dequeued s current
    | some semadj => updateQueue (undoAll (forget (dequeued s current) current) semadj) := by
  have hremove : (if s.asleep current ∧ s.pending.prev current ≠ none
      then removeFromQueue s current else s) = removeFromQueue s current := by
    by_cases hprev : s.pending.prev current = none
    · rw [removeFromQueue_of_prev_none hprev, ite_self]
    · rw [if_pos ⟨h.asleep_of_prev hprev, hprev⟩]
  rw [semExit, hremove]
  rfl

theorem total_forget (performed : List Performed) (current t : Task) (n : Nat) :
    total (performed.filter fun p => p.task ≠ current) t n =
      if t = current then 0 else total performed t n := by
  induction performed with
  | nil => simp [total]
  | cons p performed ih =>
    rw [filter_cons, total_cons]
    by_cases hp : p.task = current
    · rw [if_neg (by simp [hp]), ih]
      grind
    · rw [if_pos (by simp [hp]), total_cons, ih]
      grind

theorem tracks_forget (h : Tracks s) (current : Task) : Tracks (forget s current) := by
  intro t n
  have htn := h t n
  rw [SemState.semadj] at htn ⊢
  show _ = short (-total (s.performed.filter _) t n)
  rw [total_forget, forget]
  dsimp only
  rcases eq_or_ne t current with rfl | ht
  · rw [update_self, if_pos rfl]
    rfl
  · rwa [update_of_ne ht, if_neg ht]

theorem inRange_undoAll (h : InRange s.semBase) (semadj : Nat → Int) :
    InRange (undoAll s semadj).semBase := by
  intro n
  rw [undoAll]
  dsimp only
  split
  · split
    · exact ⟨le_refl 0, by decide⟩
    next hneg => exact ⟨not_lt.mp hneg, (short_range _).2⟩
  · exact h n

/-- `sem_exit` of any task. -/
theorem semExit_settled (h : Settled s) (current : Task) :
    Settled (semExit s current) ∧ (Tracks s → Tracks (semExit s current)) := by
  rw [semExit_eq h]
  cases hundo : s.undo current with
  | none => exact ⟨dequeued_settled h current, id⟩
  | some semadj =>
    have hlive : s.live = true := by
      cases hlive : s.live with
      | true => rfl
      | false => cases (h.removed hlive current).2.symm.trans hundo
    obtain ⟨l, hinv, -⟩ := h.waiting hlive
    obtain ⟨l', -, hout, hinv'⟩ := hinv.dequeued current
    have hinv'' : SemInv (undoAll (forget (dequeued s current) current) semadj) l' := by
      refine hinv'.sublist (.refl l') hinv'.rep (inRange_undoAll hinv'.values semadj) ?_
      intro q hq hnone
      change update s.undo current none q = none at hnone
      have hne : q ≠ current := fun heq => hout (heq ▸ hq)
      rwa [update_of_ne hne] at hnone
    obtain ⟨-, -, hran, -⟩ := updateQueue_spec hinv''
    exact ⟨hinv''.settled_updateQueue hlive, fun ht => hran.tracks (tracks_forget ht current)⟩

/-! ## `sys_semctl` -/

theorem semctlSetval_settled (h : Settled s) (semnum : Nat) (val : Int) (permitted : Bool) :
    Settled (semctlSetval s semnum val permitted).1 := by
  rw [semctlSetval]
  split
  · exact h
  next hlive =>
    split
    · exact h
    split
    · exact h
    next hval =>
      split
      · exact h
      rw [not_not] at hlive
      obtain ⟨l, hinv, -⟩ := h.waiting hlive
      rw [semvmx] at hval
      refine SemInv.settled_updateQueue (l := l) ?_ hlive
      refine hinv.sublist (.refl l) hinv.rep (hinv.values.update ?_ (short_range _).2)
        fun q _ => Option.map_eq_none_iff.mp
      rw [short_of_range (by omega) (by omega)]
      omega

theorem semctlSetall_settled (h : Settled s) (array : Nat → Nat) (permitted : Bool) :
    Settled (semctlSetall s array permitted).1 := by
  rw [semctlSetall]
  split
  · exact h
  next hlive =>
    split
    · exact h
    next hval =>
      split
      · exact h
      rw [not_not] at hlive
      obtain ⟨l, hinv, -⟩ := h.waiting hlive
      refine SemInv.settled_updateQueue (l := l) ?_ hlive
      refine hinv.sublist (.refl l) hinv.rep ?_ fun q _ => Option.map_eq_none_iff.mp
      intro n
      dsimp only
      split
      next hn =>
        have hmax : (array n : Int) ≤ 32767 := not_lt.mp fun hlt => hval ⟨n, hn, hlt⟩
        rw [short_of_range (by omega) hmax]
        exact ⟨Int.natCast_nonneg _, hmax⟩
      · exact hinv.values n

/-- The walk of `freeary` marks every element that is left. -/
theorem wakeAll_spec {Q : TailQueue Task} {l1 l2 : List Task} {n : Nat} (hrep : Q.Rep (l1 ++ l2))
    (hnext : s.pending.next = Q.next) (hn : l2.length < n) :
    (wakeAll n s l2.head?).live = s.live ∧ (wakeAll n s l2.head?).undo = s.undo ∧
    ∀ t, t ∈ l2 ∨ s.pending.prev t = none → (wakeAll n s l2.head?).pending.prev t = none := by
  induction l2 generalizing s l1 n with
  | nil =>
    obtain ⟨n, rfl⟩ : ∃ k, n = k + 1 := ⟨n - 1, by simp at hn; omega⟩
    exact ⟨rfl, rfl, fun t ht => ht.resolve_left nofun⟩
  | cons q l2 ih =>
    obtain ⟨n, rfl⟩ : ∃ k, n = k + 1 := ⟨n - 1, by simp at hn; omega⟩
    rw [head?_cons, wakeAll]
    dsimp only
    rw [hnext, hrep.next_eq]
    rw [append_cons] at hrep
    refine (ih hrep ?_ ?_).imp id (And.imp id fun hprev t ht => hprev t ?_)
    · rfl
    · simp at hn
      omega
    · show t ∈ l2 ∨ update s.pending.prev q none t = none
      rcases eq_or_ne t q with rfl | htq
      · exact .inr (update_self ..)
      · rw [update_of_ne htq]
        exact ht.imp_left fun hmem => (mem_cons.mp hmem).resolve_left htq

theorem semctlRmid_settled (h : Settled s) (permitted : Bool) :
    Settled (semctlRmid s permitted).1 := by
  rw [semctlRmid]
  split
  · exact h
  next hlive =>
    split
    · rw [not_not] at hlive
      obtain ⟨l, hinv, -⟩ := h.waiting hlive
      have hwake := wakeAll_spec (s := { s with live := false, undo := fun _ => none })
        (show s.pending.Rep ([] ++ l) from hinv.rep) rfl (Nat.lt_succ_of_le hinv.length_le)
      rw [← hinv.rep.first_eq] at hwake
      obtain ⟨hdead, hundo, hprev⟩ := hwake
      refine ⟨fun hl => ?_, fun _ t => ⟨hprev t ?_, congrFun hundo t⟩⟩
      · cases hdead.symm.trans hl
      · exact or_iff_not_imp_left.mpr (hinv.rep.outside t)
    · exact h

/-! ## Every run -/

theorem opStep_settled (h : Settled s) (hop : OpStep s s') :
    Settled s' ∧ (Tracks s → Tracks s') := by
  cases hop with
  | semop current sops permitted memory hcur =>
    refine (sysSemop_semop (fun hlive => ?_) current sops permitted memory).settled h hcur
    obtain ⟨l, hinv, -⟩ := h.waiting hlive
    exact hinv.values
  | awake current hcur =>
    rw [semopAwake_eq]
    exact ⟨dequeued_settled h current, id⟩
  | exit current => exact semExit_settled h current

theorem semStep_settled (h : Settled s) (hstep : SemStep s s') : Settled s' := by
  cases hstep with
  | op hop => exact (opStep_settled h hop).1
  | setval semnum val permitted => exact semctlSetval_settled h semnum val permitted
  | setall array permitted => exact semctlSetall_settled h array permitted
  | rmid permitted => exact semctlRmid_settled h permitted

theorem reachable_settled (h : semaphores.Reachable s) : Settled s :=
  h.invariant (fun _ ⟨nsems, heq⟩ => heq ▸ settled_newary nsems) fun _ _ => semStep_settled

/-- What is queued between two calls has to wait, and the queue is in order. -/
theorem semaphores_lose_no_wakeup (h : semaphores.Reachable s) :
    (s.live = true → ∃ l, s.pending.Rep l ∧ s.pending.last = l.getLast?.elim .head .next ∧
      (l.Pairwise fun a b => s.inserted a < s.inserted b) ∧
      ∀ q ∈ l, (trySemop s.semBase (s.queue q).sops).1 = .sleep) ∧
    (s.live = false → ∀ q, s.pending.prev q = none) := by
  have hsettled := reachable_settled h
  refine ⟨fun hlive => ?_, fun hdead q => (hsettled.removed hdead q).1⟩
  obtain ⟨l, hinv, hb⟩ := hsettled.waiting hlive
  exact ⟨l, hinv.rep, hinv.rep.seg.end_eq_getLast, hinv.fifo, hb⟩

end

def takeOne : Sembuf := ⟨0, -1, false, true, by decide⟩

/-- A set of one semaphore with a task that waits for it. -/
def oneWaiting : SemState := (sysSemop (newary 1) 0 [takeOne] true true).1

theorem semaphores_lose_no_wakeup_one :
    oneWaiting.pending.first = some 0 ∧ oneWaiting.live = true ∧
    ∃ l, oneWaiting.pending.Rep l ∧ oneWaiting.pending.last = l.getLast?.elim .head .next ∧
      (l.Pairwise fun a b => oneWaiting.inserted a < oneWaiting.inserted b) ∧
      ∀ q ∈ l, (trySemop oneWaiting.semBase (oneWaiting.queue q).sops).1 = .sleep :=
  ⟨by decide, by decide, (semaphores_lose_no_wakeup (.step (.init ⟨1, rfl⟩)
      (.op (.semop (newary 1) 0 [takeOne] true true rfl)))).1 (by decide)⟩

end Sbckernel.Ipc
