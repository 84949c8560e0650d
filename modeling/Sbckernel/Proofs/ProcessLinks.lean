import Mathlib.Data.List.Perm.Subperm
import Sbckernel.Kernel.Process
import Sbckernel.Lib.Queues

/-!
# The links between tasks

`Kin` says what the pointers of the task structures spell: the ring of all tasks, and for
each task the list of its children. `REMOVE_LINKS` takes a task out of both, `SET_LINKS`
puts it in, and the loop of `exit_notify` takes the first child off a list that it leaves
with a stale pointer until the next round.
-/

namespace Sbckernel.Kernel.Process

open Lib Function List

variable {n cur : Nat}

/-! ## What the macros do to each pointer -/

theorem leaveYounger_self (younger older : Nat → Option Nat) (x : Nat) :
    leaveYounger younger older x x = younger x := by
  unfold leaveYounger
  cases older x with
  | none => rfl
  | some o =>
    by_cases hxo : x = o
    · rw [← hxo]
      exact update_self ..
    · exact update_of_ne hxo _ _

theorem removeLinks_eq (l : Links) (p : Nat) : removeLinks l p = { l with
    nextTask := update l.nextTask (l.prevTask p) (l.nextTask p)
    prevTask := update l.prevTask (l.nextTask p) (l.prevTask p)
    pCptr := leaveFirst l.pCptr l.pYsptr l.pOsptr (l.pPptr p) p
    pYsptr := leaveYounger l.pYsptr l.pOsptr p
    pOsptr := leaveOlder l.pYsptr l.pOsptr p } := by
  have hprev : update l.prevTask (l.nextTask p) (l.prevTask p) p = l.prevTask p := by
    rw [update_apply]
    split <;> rfl
  have hself := leaveYounger_self l.pYsptr l.pOsptr p
  unfold leaveYounger at hself
  unfold removeLinks leaveFirst leaveYounger leaveOlder
  dsimp only
  rw [hprev]
  cases ho : l.pOsptr p with
  | none => cases l.pYsptr p <;> simp [ho]
  | some o =>
    rw [ho] at hself
    dsimp only at hself ⊢
    rw [hself]
    cases l.pYsptr p <;> simp [ho]

theorem setLinks_eq (l : Links) {p : Nat} (hp : p ≠ initTask) : setLinks l p = { l with
    nextTask := update (update l.nextTask p initTask) (l.prevTask initTask) p
    prevTask := update (update l.prevTask p (l.prevTask initTask)) initTask p
    pCptr := update l.pCptr (l.pPptr p) (some p)
    pYsptr := joinYounger l.pCptr l.pYsptr (l.pPptr p) p
    pOsptr := update l.pOsptr p (l.pCptr (l.pPptr p)) } := by
  unfold setLinks joinYounger
  dsimp only
  rw [update_self, update_of_ne hp.symm]
  cases l.pCptr (l.pPptr p) <;> rfl

theorem adoptLinks_eq (l : Links) (cur p : Nat) : adoptLinks l cur p =
    let first := update l.pCptr cur (l.pOsptr p)
    { l with
      pPptr := update l.pPptr p (l.pOpptr p)
      pCptr := update first (l.pOpptr p) (some p)
      pYsptr := joinYounger first l.pYsptr (l.pOpptr p) p
      pOsptr := update l.pOsptr p (first (l.pOpptr p)) } := by
  unfold adoptLinks joinYounger
  dsimp only
  rw [update_self, update_self]
  cases update l.pCptr cur (l.pOsptr p) (l.pOpptr p) <;>
    simp only [update_self]

theorem setLinks_parents (l : Links) (p : Nat) :
    (setLinks l p).pPptr = l.pPptr ∧ (setLinks l p).pOpptr = l.pOpptr := by
  unfold setLinks
  dsimp only
  split <;> exact ⟨rfl, rfl⟩

theorem removeLinks_parents (l : Links) (p : Nat) :
    (removeLinks l p).pPptr = l.pPptr ∧ (removeLinks l p).pOpptr = l.pOpptr := by
  rw [removeLinks_eq]
  exact ⟨rfl, rfl⟩

theorem relink_parents (l : Links) (p parent : Nat) :
    (relink l p parent).pPptr = update l.pPptr p parent ∧
      (relink l p parent).pOpptr = l.pOpptr := by
  obtain ⟨hset, hset'⟩ := setLinks_parents
    { removeLinks l p with pPptr := update (removeLinks l p).pPptr p parent } p
  obtain ⟨hrem, hrem'⟩ := removeLinks_parents l p
  refine ⟨hset.trans ?_, hset'.trans hrem'⟩
  rw [hrem]

/-! ## The ring and the lists of children -/

/-- The tasks of the ring, behind `init_task`, and the children of the active tasks. -/
structure Kin (l : Links) (tasks : List Nat) (active : Nat → Prop) (back : Nat → Option Nat)
    (C : Nat → List Nat) : Prop where
  circle : Circle l.nextTask l.prevTask (initTask :: tasks)
  nodup : (initTask :: tasks).Nodup
  family : Family active back l.pCptr l.pYsptr l.pOsptr C
  mem : ∀ p q, q ∈ C p ↔ q ∈ tasks ∧ l.pPptr q = p

section
variable {l : Links} {tasks : List Nat} {active : Nat → Prop} {back : Nat → Option Nat}
  {C : Nat → List Nat} {p : Nat}

section
variable (h : Kin l tasks active back C)
include h

theorem Kin.ne_initTask (hp : p ∈ tasks) : p ≠ initTask := by
  intro heq
  exact (nodup_cons.mp h.nodup).1 (heq ▸ hp)

theorem Kin.removeLinks (hp : p ∈ tasks) (hback : back (l.pPptr p) = none) :
    Kin (removeLinks l p) (tasks.erase p) active back
      (update C (l.pPptr p) ((C (l.pPptr p)).erase p)) := by
  have hmem : p ∈ C (l.pPptr p) := (h.mem _ _).mpr ⟨hp, rfl⟩
  rw [removeLinks_eq]
  refine ⟨h.circle.remove h.nodup hp, h.nodup.sublist (erase_sublist.cons_cons initTask),
    h.family.leave hmem hback, ?_⟩
  intro q r
  have hnd := (nodup_cons.mp h.nodup).2
  by_cases hq : q = l.pPptr p
  · rw [hq, update_self, (h.family.nodup _).mem_erase_iff, hnd.mem_erase_iff, h.mem]
    exact and_assoc.symm
  · rw [update_of_ne hq, hnd.mem_erase_iff, h.mem]
    constructor
    · intro hr
      exact ⟨⟨fun heq => hq (hr.2.symm.trans (congrArg l.pPptr heq)), hr.1⟩, hr.2⟩
    · intro hr
      exact ⟨hr.1.2, hr.2⟩

/-- The parent of a task that is not linked. -/
theorem Kin.setParent (hp : p ∉ tasks) (parent opptr : Nat) :
    Kin { l with
      pPptr := update l.pPptr p parent
      pOpptr := update l.pOpptr p opptr } tasks active back C := by
  refine ⟨h.circle, h.nodup, h.family, ?_⟩
  intro q r
  rw [h.mem]
  refine and_congr_right fun hr => ?_
  have hne : r ≠ p := fun heq => hp (heq ▸ hr)
  show _ ↔ update l.pPptr p parent r = q
  rw [update_of_ne hne]

omit h in
/-- Tasks without children become active, and cease to be. -/
theorem Kin.activate (h : Kin l tasks active (fun _ => none) C) (active' : Nat → Prop)
    (first : Nat → Option Nat) (hfirst : ∀ p, active p → active' p → first p = l.pCptr p)
    (hnew : ∀ p, active' p → ¬active p → first p = none)
    (hold : ∀ p, active p → ¬active' p → C p = []) :
    Kin { l with pCptr := first } tasks active' (fun _ => none) C :=
  ⟨h.circle, h.nodup, h.family.activate hfirst (fun p hp hact => ⟨hnew p hp hact, rfl⟩) hold, h.mem⟩

theorem Kin.setLinks (hp : p ∉ initTask :: tasks)
    (hparent : active (l.pPptr p)) (hback : back (l.pPptr p) = none) :
    Kin (setLinks l p) (tasks ++ [p]) active back (update C (l.pPptr p) (p :: C (l.pPptr p))) := by
  have hinit : p ≠ initTask := fun heq => hp (heq ▸ mem_cons_self)
  have htasks : p ∉ tasks := fun hmem => hp (mem_cons_of_mem initTask hmem)
  rw [setLinks_eq l hinit]
  refine ⟨h.circle.push h.nodup hp, ?_, h.family.join hparent hback ?_, ?_⟩
  · rw [← cons_append]
    refine nodup_append.mpr ⟨h.nodup, nodup_singleton p, ?_⟩
    intro a ha b hb heq
    rw [mem_singleton] at hb
    exact hp (hb ▸ heq ▸ ha)
  · intro q hmem
    exact htasks ((h.mem q p).mp hmem).1
  · intro q r
    by_cases hq : q = l.pPptr p
    · rw [hq, update_self, mem_cons, h.mem, mem_append, mem_singleton]
      constructor
      · rintro (rfl | hr)
        · exact ⟨.inr rfl, rfl⟩
        · exact ⟨.inl hr.1, hr.2⟩
      · rintro ⟨hr | rfl, hparent⟩
        · exact .inr ⟨hr, hparent⟩
        · exact .inl rfl
    · rw [update_of_ne hq, h.mem, mem_append, mem_singleton]
      constructor
      · intro hr
        exact ⟨.inl hr.1, hr.2⟩
      · rintro ⟨hr | rfl, hparent⟩
        · exact ⟨hr, hparent⟩
        · exact absurd hparent.symm hq

omit h in
/-- A task gets another parent. -/
theorem Kin.relink (h : Kin l tasks active (fun _ => none) C) (hp : p ∈ tasks) {parent : Nat}
    (hparent : active parent) :
    ∃ C', Kin (relink l p parent) (tasks.erase p ++ [p]) active (fun _ => none) C' := by
  have hnd := (nodup_cons.mp h.nodup).2
  have hout := h.removeLinks hp rfl
  have hnot : p ∉ tasks.erase p := hnd.not_mem_erase
  have hset := hout.setParent hnot parent (Process.removeLinks l p |>.pOpptr p)
  rw [update_eq_self] at hset
  refine ⟨_, hset.setLinks ?_ ?_ rfl⟩
  · intro hmem
    rcases mem_cons.mp hmem with heq | hmem
    · exact h.ne_initTask hp heq
    · exact hnot hmem
  · simpa only [update_self] using hparent

/-- The first child goes back to its original parent. -/
theorem Kin.adopt {rest : List Nat} (hcur : C cur = p :: rest) (hne : l.pOpptr p ≠ cur)
    (hback : ∀ q ≠ cur, back q = none) (hactive : active (l.pOpptr p)) :
    ∃ C' back', Kin (adoptLinks l cur p) tasks active back' C' ∧ C' cur = rest ∧
      ∀ q ≠ cur, back' q = none := by
  have hp : p ∈ C cur := hcur ▸ mem_cons_self
  have hpop := h.family.pop hcur
  have hnotin : ∀ q, p ∉ update C cur rest q := by
    intro q hmem
    by_cases hq : q = cur
    · rw [hq, update_self] at hmem
      exact (nodup_cons.mp (hcur ▸ h.family.nodup cur)).1 hmem
    · rw [update_of_ne hq] at hmem
      exact hq (h.family.apart q cur p hmem hp)
  have hjoin := hpop.join (p := l.pOpptr p) (x := p) hactive
    ((update_of_ne hne _ _).trans (hback _ hne)) hnotin
  rw [adoptLinks_eq]
  refine ⟨update (update C cur rest) (l.pOpptr p)
    (p :: update C cur rest (l.pOpptr p)), update back cur (some p),
    ⟨h.circle, h.nodup, hjoin, ?_⟩, ?_, ?_⟩
  · intro q r
    show _ ↔ r ∈ tasks ∧ update l.pPptr p (l.pOpptr p) r = q
    by_cases hr : r = p
    · rw [hr, update_self]
      by_cases hq : q = l.pOpptr p
      · rw [hq, update_self]
        exact ⟨fun _ => ⟨((h.mem cur p).mp hp).1, rfl⟩, fun _ => mem_cons_self⟩
      · rw [update_of_ne hq]
        exact ⟨fun hmem => absurd hmem (hnotin q), fun hmem => absurd hmem.2.symm hq⟩
    · have hold : r ∈ update C cur rest q ↔ r ∈ C q := by
        by_cases hq : q = cur
        · rw [hq, update_self, hcur, mem_cons]
          exact ⟨.inr, fun hmem => hmem.resolve_left hr⟩
        · rw [update_of_ne hq]
      rw [update_of_ne hr, ← h.mem, ← hold]
      by_cases hq : q = l.pOpptr p
      · rw [hq, update_self, mem_cons]
        exact ⟨fun hmem => hmem.resolve_left hr, .inr⟩
      · rw [update_of_ne hq]
  · rw [update_of_ne hne.symm, update_self]
  · intro q hq
    exact (update_of_ne hq _ _).trans (hback q hq)

/-- When the list is empty nothing stale is left. -/
theorem Kin.settle (hback : ∀ q ≠ cur, back q = none)
    (hnil : C cur = []) : Kin l tasks active (fun _ => none) C := by
  refine { h with family := h.family.rebase fun q hq => ?_ }
  exact (hback q fun heq => hq (heq ▸ hnil)).symm

/-! ## The walks -/

omit h in
theorem walkTasks_eq {next prev : Nat → Nat} {a : Nat} {ws : List Nat}
    (h : Seg (fun x => some (next x)) (fun x => some (prev x)) a ws initTask)
    (hws : ∀ w ∈ ws, w ≠ initTask) (hn : ws.length < n) :
    walkTasks next n (next a) = ws := by
  induction ws generalizing a n with
  | nil =>
    cases n with
    | zero => exact absurd hn (Nat.not_lt_zero _)
    | succ n => exact if_pos (Option.some.inj h.1)
  | cons w ws ih =>
    obtain ⟨hnext, -, hrest⟩ := h
    cases n with
    | zero => exact absurd hn (Nat.not_lt_zero _)
    | succ n =>
      rw [Option.some.inj hnext, walkTasks, if_neg (hws w mem_cons_self),
        ih hrest (fun v hv => hws v (mem_cons_of_mem w hv)) (Nat.lt_of_succ_lt_succ hn)]

theorem Kin.walk_eq (hn : tasks.length < n) :
    walkTasks l.nextTask n (l.nextTask initTask) = tasks :=
  walkTasks_eq h.circle (fun _ hw => h.ne_initTask hw) hn

theorem Kin.length_children (p : Nat) : (C p).length ≤ tasks.length :=
  List.Subperm.length_le ((h.family.nodup p).subperm fun q hq => ((h.mem p q).mp hq).1)

theorem Kin.children_eq (hp : active p)
    (hn : tasks.length ≤ n) : walkOlder l.pOsptr n (l.pCptr p) = C p := by
  obtain ⟨b, hrow⟩ := h.family.row p hp
  exact hrow.walkOlder_eq ((h.length_children p).trans hn)

end

end

end Sbckernel.Kernel.Process
