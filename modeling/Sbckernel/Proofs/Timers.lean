import Sbckernel.Proofs.TimerWheel

/-!
# Every timer is called once, when it is due

The history of a run determines which timers are due and when: the last event
of a timer decides, an addition makes it due at its expiry or at
`timer_jiffies`, whichever is later, a deletion or a call ends that. The
invariant of a run is that the wheel holds exactly the timers the history
says, and everything about calls is read off it: a call takes the head of the
current slot, and a timer in the current slot is due now.

Deletions and additions may come at any point, also from a callback in the
middle of an iteration. A timer added there for the current tick or earlier
goes to the slot being emptied and is called in the same iteration.
-/

namespace Sbckernel.Kernel

open Lib List

variable {τ : Type} [DecidableEq τ] {t : τ} {log : List (TimerEvent τ)}

/-- What an event makes of its timer. -/
def TimerEvent.due : TimerEvent τ → Option Nat
  | .add _ e now => some (max e now)
  | .del _ => none
  | .call _ _ => none

/-- The due time of a timer after a history: its last event decides. -/
def dueAfter (log : List (TimerEvent τ)) (t : τ) : Option Nat :=
  log.foldl (fun d ev => if ev.timer = t then ev.due else d) none

theorem dueAfter_snoc (log : List (TimerEvent τ)) (ev : TimerEvent τ) (t : τ) :
    dueAfter (log ++ [ev]) t = if ev.timer = t then ev.due else dueAfter log t := by
  rw [dueAfter, foldl_append]
  rfl

theorem dueAfter_snoc_eq_update (log : List (TimerEvent τ)) (ev : TimerEvent τ) :
    dueAfter (log ++ [ev]) = Function.update (dueAfter log) ev.timer ev.due := by
  funext t
  rw [dueAfter_snoc]
  split
  · next h => rw [← h, Function.update_self]
  · next h => rw [Function.update_of_ne (Ne.symm h)]

theorem dueAfter_append_of_other {l : List (TimerEvent τ)}
    (h : ∀ ev ∈ l, ev.timer ≠ t) : dueAfter (log ++ l) t = dueAfter log t := by
  induction l generalizing log with
  | nil => rw [append_nil]
  | cons ev l ih =>
    rw [append_cons, ih fun ev' h' => h ev' (mem_cons_of_mem _ h'),
      dueAfter_snoc, if_neg (h ev mem_cons_self)]

/-- The last event of a timer that is due is the addition that made it so. -/
theorem exists_add_of_dueAfter {D : Nat} :
    dueAfter log t = some D →
    ∃ e now, (log.filter fun ev => ev.timer = t).getLast? = some (.add t e now) ∧
      D = max e now := by
  induction log using List.reverseRecOn with
  | nil =>
    intro h
    cases h
  | append_singleton log ev ih =>
    intro h
    rw [dueAfter_snoc] at h
    rw [filter_append]
    by_cases ht : ev.timer = t
    · rw [if_pos ht] at h
      have hlast : ([ev].filter fun ev => ev.timer = t) = [ev] := by simp [ht]
      rw [hlast, getLast?_concat]
      cases ev with
      | add u e now =>
        obtain rfl : u = t := ht
        exact ⟨e, now, rfl, (Option.some.inj h).symm⟩
      | del u => cases h
      | call u now => cases h
    · rw [if_neg ht] at h
      have hlast : ([ev].filter fun ev => ev.timer = t) = [] := by simp [ht]
      rw [hlast, append_nil]
      exact ih h

/-- In a history calls are made to timers due at that very tick, and additions
to timers that are not due. -/
structure History (log : List (TimerEvent τ)) : Prop where
  call : ∀ pre post t now, log = pre ++ .call t now :: post → dueAfter pre t = some now
  add : ∀ pre post t e now, log = pre ++ .add t e now :: post → dueAfter pre t = none

theorem History.snoc {ev : TimerEvent τ} (h : History log)
    (hcall : ∀ t now, ev = .call t now → dueAfter log t = some now)
    (hadd : ∀ t e now, ev = .add t e now → dueAfter log t = none) : History (log ++ [ev]) := by
  have hsplit : ∀ {pre post : List (TimerEvent τ)} {x : TimerEvent τ},
      log ++ [ev] = pre ++ x :: post →
      (ev = x ∧ log = pre) ∨ ∃ post', log = pre ++ x :: post' := by
    intro pre post x hx
    cases post using List.reverseRecOn with
    | nil =>
      obtain ⟨h1, h2⟩ := append_inj' hx rfl
      exact Or.inl ⟨(List.cons.inj h2).1, h1⟩
    | append_singleton post y =>
      rw [← cons_append, ← append_assoc] at hx
      exact Or.inr ⟨post, (append_inj' hx rfl).1⟩
  refine ⟨fun pre post t now hx => ?_, fun pre post t e now hx => ?_⟩
  · rcases hsplit hx with ⟨hev, rfl⟩ | ⟨post', hlog⟩
    · exact hcall t now hev
    · exact h.call pre post' t now hlog
  · rcases hsplit hx with ⟨hev, rfl⟩ | ⟨post', hlog⟩
    · exact hadd t e now hev
    · exact h.add pre post' t e now hlog

namespace Timers

/-- The wheel holds what the history says, and `timer_jiffies` is at most one
tick ahead of the clock. -/
structure Inv (s : Timers τ) : Prop where
  wheel : Wheel.WheelOk (if s.running then 5 else 1) (dueAfter s.log) s.wheel
  clock : s.jiffies.toNat < 2 ^ 31
  running_le : s.running = true → s.wheel.timerJiffies.toNat ≤ s.jiffies.toNat
  le : s.wheel.timerJiffies.toNat ≤ s.jiffies.toNat + 1
  history : History s.log

variable {s : Timers τ}

theorem addTimer_timerJiffies (w : Wheel τ) (t : τ) (e : ULong) :
    (w.addTimer t e).timerJiffies = w.timerJiffies := by
  rw [Wheel.addTimer, Wheel.internalAddTimer]
  split_ifs <;> rfl

theorem Inv.add (h : Inv s) {e : ULong} (hp : ¬ s.wheel.Pending t) (he : e.toNat < 2 ^ 31) :
    Inv { s with
      wheel := s.wheel.addTimer t e
      log := s.log ++ [.add t e.toNat s.wheel.timerJiffies.toNat] } := by
  have hnone : dueAfter s.log t = none := by
    rw [h.wheel.pending_iff] at hp
    simpa using hp
  have htime := addTimer_timerJiffies s.wheel t e
  refine ⟨?_, h.clock, ?_, ?_, ?_⟩
  · rw [dueAfter_snoc_eq_update]
    exact h.wheel.addTimer hnone he
  · exact htime ▸ h.running_le
  · exact htime ▸ h.le
  · refine h.history.snoc nofun fun u e' now hu => ?_
    cases hu
    exact hnone

theorem Inv.del (h : Inv s) (t : τ) :
    Inv { s with wheel := (s.wheel.delTimer t).1, log := s.log ++ [.del t] } := by
  refine ⟨?_, h.clock, h.running_le, h.le, ?_⟩
  · rw [dueAfter_snoc_eq_update]
    exact h.wheel.detachTimer t
  · exact h.history.snoc nofun nofun

theorem Inv.call (h : Inv s) {rest : List τ} (hs : s.wheel.slot 0 (s.wheel.index 0) = t :: rest) :
    Inv { s with
      wheel := s.wheel.detachTimer t
      log := s.log ++ [.call t s.wheel.timerJiffies.toNat] } := by
  have hdue : dueAfter s.log t = some s.wheel.timerJiffies.toNat :=
    h.wheel.due_now (by rw [hs]; exact mem_cons_self)
  refine ⟨?_, h.clock, h.running_le, h.le, ?_⟩
  · rw [dueAfter_snoc_eq_update]
    exact h.wheel.detachTimer t
  · refine h.history.snoc (fun u now hu => ?_) nofun
    cases hu
    exact hdue

theorem Inv.tick (h : Inv s) (hj : (s.jiffies + 1).toNat < 2 ^ 31) :
    Inv { s with jiffies := s.jiffies + 1 } := by
  have hadd : (s.jiffies + 1).toNat = s.jiffies.toNat + 1 := by
    have := h.clock
    rw [BitVec.toNat_add]
    exact Nat.mod_eq_of_lt (by simp; omega)
  have hle := h.le
  refine ⟨h.wheel, hj, fun hr => ?_, ?_, h.history⟩
  · simp only [hadd]
    omega
  · simp only [hadd]
    omega

theorem Inv.enter (h : Inv s) (hr : s.running = false)
    (hc : 0 ≤ (s.jiffies - s.wheel.timerJiffies).toInt) :
    Inv { s with wheel := s.wheel.cascade, running := true } := by
  have hw := h.wheel
  rw [hr] at hw
  obtain ⟨hok, htime⟩ := Wheel.WheelOk.cascade hw
  refine ⟨hok, h.clock, fun _ => htime ▸ ?_, htime ▸ h.le, h.history⟩
  -- the loop condition is the comparison it is meant to be
  have hle := h.le
  rw [BitVec.toInt_eq_toNat_cond, BitVec.toNat_sub] at hc
  show s.wheel.timerJiffies.toNat ≤ s.jiffies.toNat
  split at hc <;> omega

theorem Inv.leave (h : Inv s) (hr : s.running = true) (hs : s.wheel.slot 0 (s.wheel.index 0) = []) :
    Inv { s with wheel := s.wheel.advance, running := false } := by
  have hw := h.wheel
  rw [hr] at hw
  have hle := h.running_le hr
  have hlt : s.wheel.timerJiffies.toNat < 2 ^ 31 := Nat.lt_of_le_of_lt hle h.clock
  refine ⟨hw.advance hlt hs, h.clock, fun hf => (by cases hf), ?_, h.history⟩
  show (s.wheel.timerJiffies + 1).toNat ≤ _
  rw [BitVec.toNat_add, Nat.mod_eq_of_lt (by simp; omega)]
  exact Nat.succ_le_succ hle

theorem inv_reachable (h : (system τ).Reachable s) : Inv s := by
  refine System.Reachable.invariant (I := Inv) ?_ ?_ h
  · intro s hs
    subst hs
    exact ⟨Wheel.wheelOk_init, show (0 : ULong).toNat < 2 ^ 31 by decide,
      fun hf => (by cases hf), Nat.zero_le _,
      ⟨fun pre post t now hx => by simp at hx, fun pre post t e now hx => by simp at hx⟩⟩
  · intro s s' hs hstep
    cases hstep with
    | add t e hp he => exact hs.add hp he
    | del t => exact hs.del t
    | tick hj => exact hs.tick hj
    | enter hr hc => exact hs.enter hr hc
    | call hr hslot => exact hs.call hslot
    | leave hr hslot => exact hs.leave hr hslot

/-- The next event of a timer after one of its additions. -/
theorem History.after_add {pre post : List (TimerEvent τ)} {e now : Nat}
    (h : History log) (hlog : log = pre ++ .add t e now :: post) :
    (post.find? (fun ev => ev.timer = t) = none → dueAfter log t = some (max e now)) ∧
      ∀ ev, post.find? (fun ev => ev.timer = t) = some ev →
        ev = .del t ∨ ev = .call t (max e now) := by
  have hstart : dueAfter (pre ++ [.add t e now]) t = some (max e now) := by
    rw [dueAfter_snoc, if_pos (by rfl)]
    rfl
  refine ⟨fun hnone => ?_, fun ev hev => ?_⟩
  · rw [hlog, append_cons, dueAfter_append_of_other, hstart]
    intro ev hmem ht
    have := find?_eq_none.1 hnone ev hmem
    simp [ht] at this
  · obtain ⟨ht, p1, p2, hpost, hp1⟩ := find?_eq_some_iff_append.1 hev
    have ht' : ev.timer = t := by simpa using ht
    have hdue : dueAfter ((pre ++ [.add t e now]) ++ p1) t = some (max e now) := by
      rw [dueAfter_append_of_other, hstart]
      intro ev' hmem ht''
      have := hp1 ev' hmem
      simp [ht''] at this
    have hlog' : log = ((pre ++ [.add t e now]) ++ p1) ++ ev :: p2 := by
      rw [hlog, hpost]
      simp
    cases ev with
    | add u e' now' =>
      obtain rfl : u = t := ht'
      rw [h.add _ _ _ _ _ hlog'] at hdue
      cases hdue
    | del u =>
      obtain rfl : u = t := ht'
      exact Or.inl rfl
    | call u now' =>
      obtain rfl : u = t := ht'
      have hcall := h.call _ _ _ _ hlog'
      rw [hdue] at hcall
      rw [Option.some.inj hcall]
      exact Or.inr rfl

/-- Timers fire exactly. After an addition the next thing that happens to the
timer is its deletion or its call in the iteration whose `timer_jiffies` is
the later of its expiry and `timer_jiffies` at the addition, and as long as
neither has happened that iteration is not over and the timer is on the
wheel. And a timer is only ever called for an addition that nothing has
answered yet. -/
theorem timers_exact (h : (system τ).Reachable s) :
    (∀ pre post t e now, s.log = pre ++ .add t e now :: post →
      (post.find? (fun ev => ev.timer = t) = none →
        s.wheel.timerJiffies.toNat ≤ max e now ∧ s.wheel.Pending t) ∧
      ∀ ev, post.find? (fun ev => ev.timer = t) = some ev →
        ev = .del t ∨ ev = .call t (max e now)) ∧
    ∀ pre post t now, s.log = pre ++ .call t now :: post →
      ∃ e now', (pre.filter fun ev => ev.timer = t).getLast? = some (.add t e now') ∧
        now = max e now' := by
  have hinv := inv_reachable h
  refine ⟨fun pre post t e now hlog => ?_, fun pre post t now hlog => ?_⟩
  · obtain ⟨hnone, hsome⟩ := History.after_add hinv.history hlog
    refine ⟨fun hn => ?_, hsome⟩
    have hdue := hnone hn
    exact ⟨hinv.wheel.not_overdue hdue, (hinv.wheel.pending_iff t).2 (by rw [hdue]; rfl)⟩
  · exact exists_add_of_dueAfter (hinv.history.call pre post t now hlog)

/-- A timer added at tick 0 for tick 1 is called in the iteration of tick 1. -/
theorem timers_exact_next_tick :
    ∃ s : Timers Nat, (system Nat).Reachable s ∧ s.log = [.add 7 1 0, .call 7 1] ∧
      (TimerEvent.call 7 1 = .del 7 ∨ TimerEvent.call 7 1 = .call 7 (max 1 0)) := by
  have h1 : (system Nat).Reachable _ := .step (.init rfl)
    (.add 7 1 (fun hp => by cases (Wheel.wheelOk_init.pending_iff 7).1 hp) (by decide))
  have h2 : (system Nat).Reachable _ := .step h1 (.tick (by decide))
  have h3 : (system Nat).Reachable _ := .step h2 (.enter rfl (by decide))
  have h4 : (system Nat).Reachable _ := .step h3 (.leave rfl rfl)
  have h5 : (system Nat).Reachable _ := .step h4 (.enter rfl (by decide))
  have h6 : (system Nat).Reachable _ := .step h5 (.call rfl rfl)
  exact ⟨_, h6, rfl, ((timers_exact h6).1 [] [.call 7 1] 7 1 0 rfl).2 _ rfl⟩

end Timers

end Sbckernel.Kernel
