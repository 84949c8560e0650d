import Sbckernel.Proofs.LockWaits

/-!
# `posix_locks_deadlock` follows the chain of waits

A task sleeps with one record, so at most one lock has it on its block list
and the search through `file_lock_table` finds the one edge that leaves the
task, if there is one. Under a ranking of the edges the `goto` loop goes down
at every turn; it ends, and it answers whether the chain reaches `my_task`.
-/

namespace Sbckernel.Fs

open Lib Relation List

variable {s : Locks} {W : LockPtr → List LockPtr} {a blocked : TaskPtr} {fl : LockPtr}
  {table : List LockPtr} {fuel : Nat}

/-- The walk around a block list, from a point where `ws` is still to come. -/
theorem blockListHas_spec {active : LockPtr → Prop} (h : Rings active s.next s.prev W)
    (fuel : Nat) (task : Option TaskPtr) {xs ws : List LockPtr}
    (hW : W fl = xs ++ ws) (bfl : LockPtr) (hseg : ∀ w rest, ws = w :: rest → bfl = w)
    (hend : ws = [] → bfl = fl) : (∀ r, blockListHas fuel s fl task bfl = some r →
      (r = true ↔ ∃ w ∈ ws, (s.mem w).flOwner = task)) ∧
      (ws.length < fuel → ∃ r, blockListHas fuel s fl task bfl = some r) := by
  induction fuel generalizing xs ws bfl with
  | zero => exact ⟨nofun, by omega⟩
  | succ fuel ih =>
    rw [blockListHas]
    cases ws with
    | nil => simp [hend rfl]
    | cons w rest =>
      obtain rfl := hseg w rest rfl
      have hne : bfl ≠ fl := by
        intro heq
        refine h.not_mem_self fl ?_
        rw [hW, ← heq]
        simp
      rw [if_neg hne]
      split
      next howner => simp [howner]
      next howner =>
        have hring := h.ring fl (by simp [hW])
        rw [hW] at hring
        have hnext := (seg_append.mp hring).2.next_head
        have hsome : (s.mem bfl).flNextblock = some ((rest ++ [fl]).head (by simp)) := hnext
        rw [hsome]
        obtain ⟨h1, h2⟩ := ih (hW.trans (append_cons ..)) ((rest ++ [fl]).head (by simp))
          (fun w rest' hrest => by simp [hrest]) (fun hrest => by simp [hrest])
        refine ⟨fun r hr => ?_, fun hlen => h2 (by simpa using hlen)⟩
        rw [h1 r hr]
        simp [howner]

/-- What the answer of the search through the table means. -/
def BlockerIs (s : Locks) (W : LockPtr → List LockPtr) (task : Option TaskPtr)
    (table : List LockPtr) : Option LockPtr → Prop
  | none => ∀ p ∈ table, (s.mem p).flOwner ≠ none → ∀ w ∈ W p, (s.mem w).flOwner ≠ task
  | some p => p ∈ table ∧ (s.mem p).flOwner ≠ none ∧ ∃ w ∈ W p, (s.mem w).flOwner = task

theorem BlockerIs.cons {task : Option TaskPtr} {r : Option LockPtr} (h : BlockerIs s W task table r)
    (hfl : (s.mem fl).flOwner ≠ none → ∀ w ∈ W fl, (s.mem w).flOwner ≠ task) :
    BlockerIs s W task (fl :: table) r := by
  cases r with
  | none => exact forall_mem_cons.mpr ⟨hfl, h⟩
  | some p => exact ⟨mem_cons_of_mem fl h.1, h.2⟩

theorem findBlocker_spec (h : Blocks s W) (fuel : Nat) (task : Option TaskPtr)
    (htable : ∀ p ∈ table, Linked s p ∧ ∀ q, p ∉ W q) :
    (∀ r, findBlocker fuel s task table = some r → BlockerIs s W task table r) ∧
      ((∀ p ∈ table, (W p).length < fuel) → ∃ r, findBlocker fuel s task table = some r) := by
  induction table with
  | nil =>
    refine ⟨fun r hr => ?_, fun _ => ⟨none, rfl⟩⟩
    cases hr
    exact nofun
  | cons fl table ih =>
    obtain ⟨ihsound, ihsome⟩ := ih fun p hp => htable p (mem_cons_of_mem fl hp)
    obtain ⟨hlinked, hfree⟩ := htable fl (mem_cons_self ..)
    -- skipping `fl` is right when nobody on its list is the task
    have hskip : ((s.mem fl).flOwner ≠ none → ∀ w ∈ W fl, (s.mem w).flOwner ≠ task) →
        (∀ r, findBlocker fuel s task table = some r → BlockerIs s W task (fl :: table) r) ∧
          ((∀ p ∈ fl :: table, (W p).length < fuel) →
            ∃ r, findBlocker fuel s task table = some r) := by
      intro hfl
      exact ⟨fun r hr => (ihsound r hr).cons hfl,
        fun hlen => ihsome fun p hp => hlen p (mem_cons_of_mem fl hp)⟩
    rw [findBlocker]
    split
    next owner bfl howner hnext =>
      have hne : W fl ≠ [] := by
        intro hnil
        have hnull : (s.mem fl).flNextblock = none := (h.rings.null fl hlinked hnil hfree).1
        rw [hnext] at hnull
        cases hnull
      have hhead : some bfl = some ((W fl ++ [fl]).head (by simp)) :=
        hnext.symm.trans (h.rings.ring fl hne).next_head
      obtain ⟨hsound, hsome⟩ := blockListHas_spec h.rings fuel task
        (show W fl = [] ++ W fl from rfl) bfl
        (fun w rest hrest => by simpa [hrest] using hhead) (fun hnil => absurd hnil hne)
      split
      next hnone =>
        refine ⟨nofun, fun hlen => ?_⟩
        obtain ⟨r, hr⟩ := hsome (hlen fl (mem_cons_self ..))
        rw [hnone] at hr
        cases hr
      next htrue =>
        refine ⟨fun r hr => ?_, fun _ => ⟨_, rfl⟩⟩
        cases hr
        exact ⟨mem_cons_self .., by simp [howner], (hsound true htrue).mp rfl⟩
      next hfalse =>
        refine hskip fun _ w hw heq => ?_
        have := (hsound false hfalse).mpr ⟨w, hw, heq⟩
        cases this
    next hno =>
      refine hskip fun howner w hw => ?_
      obtain ⟨o, ho⟩ := Option.ne_none_iff_exists'.mp howner
      exact absurd (h.rings.ring fl (ne_nil_of_mem hw)).next_head (hno o _ ho)

/-- At most one lock has a given task on its block list. -/
def OneWait (s : Locks) (W : LockPtr → List LockPtr) : Prop :=
  ∀ a b c, Edge s W a b → Edge s W a c → b = c

/-- The edges are those the search through the table sees. -/
def TableHas (s : Locks) (W : LockPtr → List LockPtr) : Prop :=
  (∀ p ∈ s.fileLockTable, Linked s p ∧ ∀ q, p ∉ W q) ∧
    ∀ p, W p ≠ [] → (s.mem p).flOwner ≠ none → p ∈ s.fileLockTable

theorem no_edge_of_blockerIs (htable : TableHas s W)
    (h : BlockerIs s W (some a) s.fileLockTable none) (b : TaskPtr) : ¬Edge s W a b := by
  intro hedge
  obtain ⟨p, w, hw, ha, hb⟩ := hedge
  have howner : (s.mem p).flOwner ≠ none := by simp [hb]
  exact h p (htable.2 p (ne_nil_of_mem hw) howner) howner w hw ha

theorem edge_of_blockerIs {p : LockPtr} (h : BlockerIs s W (some a) s.fileLockTable (some p)) :
    ∃ b, (s.mem p).flOwner = some b ∧ Edge s W a b := by
  obtain ⟨-, howner, w, hw, ha⟩ := h
  obtain ⟨b, hb⟩ := Option.ne_none_iff_exists'.mp howner
  exact ⟨b, hb, p, w, hw, ha, hb⟩

/-- Following the only edge out of `a`. -/
theorem reach_iff_of_edge (hone : OneWait s W) {b m : TaskPtr} (hab : Edge s W a b)
    (hne : m ≠ a) : ReflTransGen (Edge s W) a m ↔ ReflTransGen (Edge s W) b m := by
  refine ⟨fun hreach => ?_, fun hreach => hreach.head hab⟩
  rcases hreach.cases_head with rfl | ⟨c, hac, hcm⟩
  · exact absurd rfl hne
  · obtain rfl := hone a b c hab hac
    exact hcm

/-- The answer is 1 exactly when the chain of waits leads to `my_task`. -/
theorem posixLocksDeadlock_iff (h : Blocks s W) (htable : TableHas s W) (hone : OneWait s W)
    {my : TaskPtr} {r : Bool} (hr : posixLocksDeadlock fuel s (some my) (some blocked) = some r) :
    r = true ↔ ReflTransGen (Edge s W) blocked my := by
  induction fuel generalizing blocked with
  | zero => cases hr
  | succ fuel ih =>
    rw [posixLocksDeadlock] at hr
    split at hr
    next heq =>
      cases hr
      cases heq
      simp [ReflTransGen.refl]
    next hne =>
      have hne' : my ≠ blocked := fun heq => hne (congrArg some heq)
      have hfind := (findBlocker_spec h fuel (some blocked) htable.1).1
      split at hr
      · cases hr
      next hnone =>
        cases hr
        have hno := no_edge_of_blockerIs htable (hfind none hnone)
        refine ⟨nofun, fun hreach => ?_⟩
        rcases hreach.cases_head with rfl | ⟨c, hc, -⟩
        · exact absurd rfl hne'
        · exact absurd hc (hno c)
      next fl hsome =>
        obtain ⟨b, hb, hedge⟩ := edge_of_blockerIs (hfind (some fl) hsome)
        rw [reach_iff_of_edge hone hedge hne']
        split at hr
        next heq =>
          cases hr
          rw [hb] at heq
          cases heq
          simp [ReflTransGen.refl]
        · rw [hb] at hr
          exact ih hr

/-- The `goto` loop ends. -/
theorem posixLocksDeadlock_isSome (h : Blocks s W) (htable : TableHas s W) {rank : TaskPtr → Nat}
    (hrank : ∀ a b, Edge s W a b → rank b < rank a) {n : Nat}
    (hlen : ∀ p ∈ s.fileLockTable, (W p).length < n) (my : Option TaskPtr)
    (hfuel : n + rank blocked < fuel) :
    ∃ r, posixLocksDeadlock fuel s my (some blocked) = some r := by
  induction fuel generalizing blocked with
  | zero => omega
  | succ fuel ih =>
    rw [posixLocksDeadlock]
    split
    · exact ⟨true, rfl⟩
    · obtain ⟨hsound, hsome⟩ :=
        findBlocker_spec h fuel (some blocked) htable.1
      obtain ⟨r, hr⟩ := hsome fun p hp => by
        have := hlen p hp
        omega
      rw [hr]
      cases r with
      | none => exact ⟨false, rfl⟩
      | some fl =>
        obtain ⟨b, hb, hedge⟩ := edge_of_blockerIs (hsound (some fl) hr)
        dsimp only
        split
        · exact ⟨true, rfl⟩
        · rw [hb]
          have := hrank blocked b hedge
          exact ih (by omega)

end Sbckernel.Fs
