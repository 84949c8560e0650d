import Sbckernel.Proofs.SemOps

/-!
# The queue of a semaphore set

`update_queue` walks the queue while it takes elements out of it. An element that
is taken out keeps its `next`, so the walk goes on where it would have gone. Every
pass but the last makes the queue shorter, and no queue has more elements than
there are tasks, so the passes end. The last pass has woken nobody: it has tried
every element that is left, all in the values that stay, and changed nothing.
-/

namespace Sbckernel.Ipc

open Lib

/-- The state of a set between two calls, with its queue as a list. -/
structure SemInv (s : SemState) (l : List Task) : Prop where
  rep : s.pending.Rep l
  values : InRange s.semBase
  sleeping : ∀ q ∈ l, s.asleep q = true
  undone : ∀ q ∈ l, ∀ sop ∈ (s.queue q).sops, sop.undo = true → s.undo q ≠ none
  fifo : l.Pairwise fun a b => s.inserted a < s.inserted b
  past : ∀ q ∈ l, s.inserted q < s.clock

/-- The operations of a queued task have to wait. -/
def Blocked (s : SemState) (q : Task) : Prop := (trySemop s.semBase (s.queue q).sops).1 = .sleep

/-- What `update_queue` may have done. -/
structure Ran (s s' : SemState) : Prop where
  live : s'.live = s.live
  semNsems : s'.semNsems = s.semNsems
  asleep : s'.asleep = s.asleep
  undo : ∀ t, s'.undo t = none ↔ s.undo t = none
  tracks : Tracks s → Tracks s'

section
variable {s s' s'' : SemState} {q : Task} {l l1 l2 : List Task}

theorem Ran.refl (s : SemState) : Ran s s := ⟨rfl, rfl, rfl, fun _ => .rfl, id⟩

theorem Ran.trans (h : Ran s s') (h' : Ran s' s'') : Ran s s'' where
  live := h'.live.trans h.live
  semNsems := h'.semNsems.trans h.semNsems
  asleep := h'.asleep.trans h.asleep
  undo := fun t => (h'.undo t).trans (h.undo t)
  tracks := h'.tracks ∘ h.tracks

/-- What has to be looked at when elements leave the queue and values change. -/
theorem SemInv.sublist {l' : List Task} (h : SemInv s l) (hsub : l'.Sublist l)
    (hrep : s'.pending.Rep l') (hbase : InRange s'.semBase)
    (hundo : ∀ q ∈ l', s'.undo q = none → s.undo q = none)
    (hasleep : ∀ q ∈ l', s.asleep q = true → s'.asleep q = true := by exact fun _ _ => id)
    (hsops : ∀ q ∈ l', (s'.queue q).sops = (s.queue q).sops := by exact fun _ _ => rfl)
    (hinserted : s'.inserted = s.inserted := by rfl) (hclock : s'.clock = s.clock := by rfl) :
    SemInv s' l' where
  rep := hrep
  values := hbase
  sleeping := fun q hq => hasleep q hq (h.sleeping q (hsub.subset hq))
  undone := fun q hq sop hsop hflag hnone =>
    h.undone q (hsub.subset hq) sop (hsops q hq ▸ hsop) hflag (hundo q hq hnone)
  fifo := hinserted ▸ h.fifo.sublist hsub
  past := fun q hq => by
    rw [hinserted, hclock]
    exact h.past q (hsub.subset hq)

/-- An element leaves the queue, with what its operations have done. -/
theorem SemInv.leave (h : SemInv s (l1 ++ q :: l2)) {base : Nat → Int}
    {undo : Task → Option (Nat → Int)} (performed : List Performed) (status : Option Errno)
    (hbase : InRange base) (hundo : ∀ t, undo t = none ↔ s.undo t = none) :
    SemInv { s with
      semBase := base
      undo := undo
      performed := performed
      queue := Function.update s.queue q { s.queue q with status := status }
      pending := s.pending.remove q } (l1 ++ l2) := by
  refine h.sublist ((List.Sublist.refl l1).append (List.sublist_cons_self q l2)) h.rep.remove hbase
    (fun r _ => (hundo r).mp) (fun _ _ => id) ?_
  intro r _
  dsimp only
  by_cases hrq : r = q
  · rw [hrq, Function.update_self]
  · rw [Function.update_of_ne hrq]

/-- One element of a pass. It stays where it is and nothing changes, or it leaves. -/
theorem updatePass_some (h : SemInv s (l1 ++ q :: l2)) (n : Nat) (wokeup : Bool) :
    (Blocked s q ∧ updatePass (n + 1) s (some q) wokeup = updatePass n s l2.head? wokeup) ∨
    ∃ s', updatePass (n + 1) s (some q) wokeup = updatePass n s' l2.head? true ∧
      SemInv s' (l1 ++ l2) ∧ Ran s s' := by
  have hmem : q ∈ l1 ++ q :: l2 := List.mem_append_right l1 (.head l2)
  have hnext := h.rep.next_eq
  obtain ⟨m, hprev⟩ := Option.ne_none_iff_exists'.mp (h.rep.seg.prev_ne hmem)
  have hafter : (s.pending.remove q).next q = l2.head? :=
    (TailQueue.remove_next hprev).trans hnext
  rw [updatePass, trySemop_eq h.values]
  cases htry : (trySemop s.semBase (s.queue q).sops).1 with
  | sleep => exact .inl ⟨htry, by rw [← hnext]⟩
  | ok =>
    obtain ⟨base, hseq⟩ := (tryForward_ok h.values).mp htry
    obtain ⟨-, hbase, undo, performed, heq, hundo, htracks⟩ := doSemop_spec q h.values hseq
    refine .inr ⟨_, ?_, h.leave performed none hbase hundo, rfl, rfl, rfl, hundo, ?_⟩
    · dsimp only
      rw [heq]
      dsimp only [removeFromQueue]
      rw [hafter]
    · intro ht
      have := htracks ht fun sop hsop => h.undone q hmem sop hsop
      rw [heq] at this
      exact this
  | error e =>
    refine .inr ⟨_, ?_, h.leave s.performed (some e) h.values fun _ => .rfl, rfl, rfl, rfl,
      fun _ => .rfl, id⟩
    dsimp only [removeFromQueue]
    rw [hafter]

/-- A pass from a place of the queue to its end. -/
theorem updatePass_spec {n : Nat} {wokeup w : Bool} (h : SemInv s (l1 ++ l2)) (hn : l2.length < n)
    (heq : updatePass n s l2.head? wokeup = (s', w)) :
    ∃ l', l'.Sublist l2 ∧ SemInv s' (l1 ++ l') ∧ Ran s s' ∧
      (w = false → wokeup = false ∧ s' = s ∧ l' = l2 ∧ ∀ q ∈ l2, Blocked s q) ∧
      (w = true → wokeup = true ∨ l'.length < l2.length) := by
  induction l2 generalizing s l1 n wokeup with
  | nil =>
    obtain ⟨n, rfl⟩ : ∃ k, n = k + 1 := ⟨n - 1, by simp at hn; omega⟩
    cases heq
    exact ⟨[], .slnil, h, .refl _, fun hw => ⟨hw, rfl, rfl, nofun⟩, .inl⟩
  | cons q l2 ih =>
    obtain ⟨n, rfl⟩ : ∃ k, n = k + 1 := ⟨n - 1, by simp at hn; omega⟩
    have hn' : l2.length < n := by simp at hn; omega
    rw [List.head?_cons] at heq
    rcases updatePass_some h n wokeup with ⟨hq, hpass⟩ | ⟨s1, hpass, h1, hran1⟩
    · rw [hpass] at heq
      rw [List.append_cons] at h
      obtain ⟨l', hsub, hinv, hran, hnot, hwoke⟩ := ih h hn' heq
      rw [List.append_assoc] at hinv
      refine ⟨q :: l', hsub.cons_cons q, hinv, hran, fun hw => ?_, fun hw => ?_⟩
      · obtain ⟨hwokeup, hs, hl, hall⟩ := hnot hw
        exact ⟨hwokeup, hs, hl ▸ rfl, List.forall_mem_cons.mpr ⟨hq, hall⟩⟩
      · exact (hwoke hw).imp_right fun hlt => Nat.succ_lt_succ hlt
    · rw [hpass] at heq
      obtain ⟨l', hsub, hinv, hran, hnot, -⟩ := ih h1 hn' heq
      refine ⟨l', hsub.cons q, hinv, hran1.trans hran, fun hw => ?_, fun _ =>
        .inr (Nat.lt_succ_of_le hsub.length_le)⟩
      cases (hnot hw).1

theorem SemInv.length_le (h : SemInv s l) : l.length ≤ nrTasks := by
  have hcard := h.rep.nodup.length_le_card
  rwa [Fintype.card_fin] at hcard

theorem updateLoop_spec {n : Nat} (h : SemInv s l) (hn : l.length < n) :
    ∃ l', SemInv (updateLoop n s) l' ∧ Ran s (updateLoop n s) ∧
      ∀ q ∈ l', Blocked (updateLoop n s) q := by
  induction n generalizing s l with
  | zero => exact absurd hn (Nat.not_lt_zero _)
  | succ n ih =>
    rw [updateLoop]
    generalize hpass : updatePass (nrTasks + 1) s s.pending.first false = r
    obtain ⟨s', w⟩ := r
    rw [h.rep.first_eq] at hpass
    obtain ⟨l', -, hinv, hran, hnot, hwoke⟩ :=
      updatePass_spec (show SemInv s ([] ++ l) from h) (Nat.lt_succ_of_le h.length_le) hpass
    rw [List.nil_append] at hinv
    cases w with
    | false =>
      obtain ⟨-, rfl, rfl, hall⟩ := hnot rfl
      exact ⟨l', h, .refl s', hall⟩
    | true =>
      have hlt : l'.length < l.length := (hwoke rfl).resolve_left nofun
      obtain ⟨l'', hinv', hran', hall⟩ := ih hinv (by omega)
      exact ⟨l'', hinv', hran.trans hran', hall⟩

/-- After `update_queue` everything that is queued has to wait. -/
theorem updateQueue_spec (h : SemInv s l) :
    ∃ l', SemInv (updateQueue s) l' ∧ Ran s (updateQueue s) ∧ ∀ q ∈ l', Blocked (updateQueue s) q :=
  updateLoop_spec h (Nat.lt_succ_of_le h.length_le)

end

end Sbckernel.Ipc
