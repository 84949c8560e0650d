import Mathlib.Data.List.TakeWhile
import Sbckernel.Proofs.LockSystem
import Sbckernel.Proofs.PosixMap

/-!
# POSIX locks as a map from bytes to types

What an owner holds at a byte is read off the inode's list. A request that
completes should change this map for its owner on its range and nowhere else,
and leave the list in order: one block for each owner, sorted, disjoint, and
merged wherever two neighbours have the same type.

The one thing in the way is `caller->fl_end + 1` for a request up to the largest
offset, which wraps to the smallest one: an old lock of the requested type that
touches the request then looks as if it lay behind it and is not merged.
`RequestFits` excludes exactly this, and every run of requests that fit keeps the
list and the map as they should be.
-/

namespace Sbckernel.Fs

open Lib List FileLock Option

variable {p q r : LockPtr} {fInode : FilePtr → InodePtr} {fuel : Nat} {call : PosixCall}
  {result : Option Errno}

/-- The order of an inode's list. -/
structure RepInvariant (s : Locks) (l : List LockPtr) : Prop where
  contiguous : ∀ p q r, [p, q, r].Sublist l → (s.mem p).flOwner = (s.mem r).flOwner →
    (s.mem q).flOwner = (s.mem p).flOwner
  proper : ∀ p ∈ l, (s.mem p).flStart ≤ (s.mem p).flEnd
  sorted : l.Pairwise fun p q => (s.mem p).flOwner = (s.mem q).flOwner →
    (s.mem p).flEnd < (s.mem q).flStart ∧
      ((s.mem p).flType = (s.mem q).flType → (s.mem p).flEnd + 1 < (s.mem q).flStart)

/-- The type that `o` holds at the byte `b` according to the list. -/
def heldIn (s : Locks) (l : List LockPtr) (o : TaskPtr) (b : Int) : Option LockType :=
  (l.find? fun p => decide ((s.mem p).flOwner = some o ∧ Covers (s.mem p) b)).map
    fun p => (s.mem p).flType

def heldType (s : Locks) (i : InodePtr) (o : TaskPtr) (b : Int) : Option LockType :=
  heldIn s (s.iFlock i) o b

/-- The request is not one up to the largest offset that touches an old lock of
its type. -/
def RequestFits (s : Locks) (i : InodePtr) (t : TaskPtr) (req : Request) : Prop :=
  req.flType = .unlck ∨ req.flEnd < offsetMax ∨
    ∀ p ∈ s.iFlock i, (s.mem p).flOwner = some t → (s.mem p).flType = req.flType →
      (s.mem p).flEnd < req.flStart - 1

section
variable {s s' : Locks} {l : List LockPtr} {t o : TaskPtr} {b : Int} {i : InodePtr}

theorem heldIn_append (s : Locks) (l l' : List LockPtr) (o : TaskPtr) (b : Int) :
    heldIn s (l ++ l') o b = (heldIn s l o b).or (heldIn s l' o b) := by
  simp only [heldIn, find?_append]
  cases l.find? fun p => decide ((s.mem p).flOwner = some o ∧ Covers (s.mem p) b) <;> rfl

theorem heldIn_foreign (h : ∀ p ∈ l, (s.mem p).flOwner ≠ some o) : heldIn s l o b = none := by
  have hnone : l.find? (fun p => decide ((s.mem p).flOwner = some o ∧ Covers (s.mem p) b)) =
      none := by
    rw [find?_eq_none]
    intro p hp
    simp [h p hp]
  rw [heldIn, hnone]
  rfl

theorem heldIn_own (h : ∀ p ∈ l, (s.mem p).flOwner = some o) :
    heldIn s l o b = lookup (l.map s.range) b := by
  induction l with
  | nil => rfl
  | cons p l ih =>
    have hp := h p (by simp)
    have ih' := ih fun q hq => h q (by simp [hq])
    rw [map_cons, lookup_cons, ← ih']
    by_cases hb : Covers (s.mem p) b
    · rw [if_pos (show (s.range p).Covers b from hb)]
      simp [heldIn, hp, hb, Locks.range, FileLock.range]
    · rw [if_neg (show ¬(s.range p).Covers b from hb)]
      simp [heldIn, hp, hb]

theorem heldIn_congr (h : ∀ p ∈ l, (s'.mem p).core = (s.mem p).core) :
    heldIn s' l o b = heldIn s l o b := by
  induction l with
  | nil => rfl
  | cons p l ih =>
    have ih' := ih fun q hq => h q (by simp [hq])
    have hcore := h p (by simp)
    obtain ⟨ho, -, -, hty, -, -⟩ := core_eq_iff.mp hcore
    rw [← singleton_append, heldIn_append, heldIn_append, ih']
    congr 1
    by_cases hp : (s.mem p).flOwner = some o ∧ Covers (s.mem p) b
    · simp [heldIn, ho, covers_of_core hcore, hp, hty]
    · simp [heldIn, ho, covers_of_core hcore, hp]

theorem RepInvariant.sublist {l' : List LockPtr} (h : RepInvariant s l) (hsub : l'.Sublist l) :
    RepInvariant s l' :=
  ⟨fun p q r hpqr => h.contiguous p q r (hpqr.trans hsub),
    fun p hp => h.proper p (hsub.subset hp), h.sorted.sublist hsub⟩

theorem RepInvariant.congr (h : RepInvariant s l)
    (hcore : ∀ p ∈ l, (s'.mem p).core = (s.mem p).core) : RepInvariant s' l := by
  have heq := fun p hp => core_eq_iff.mp (hcore p hp)
  refine ⟨fun p q r hsub ho => ?_, fun p hp => ?_, ?_⟩
  · have hmem := hsub.subset
    have hp := hmem (show p ∈ [p, q, r] by simp)
    have hq := hmem (show q ∈ [p, q, r] by simp)
    have hr := hmem (show r ∈ [p, q, r] by simp)
    rw [(heq p hp).1, (heq r hr).1] at ho
    rw [(heq q hq).1, (heq p hp).1]
    exact h.contiguous p q r hsub ho
  · obtain ⟨-, -, -, -, hs, he⟩ := heq p hp
    rw [hs, he]
    exact h.proper p hp
  · refine h.sorted.imp_of_mem fun hp hq hpq ho => ?_
    obtain ⟨hpo, -, -, hpt, -, hpe⟩ := heq _ hp
    obtain ⟨hqo, -, -, hqt, hqs, -⟩ := heq _ hq
    rw [hpo, hqo] at ho
    rw [hpe, hqs, hpt, hqt]
    exact hpq ho

/-- The locks of one owner are a block in the list. -/
theorem RepInvariant.block (h : RepInvariant s l) (t : TaskPtr) :
    ∃ F1 O F2, l = F1 ++ (O ++ F2) ∧ (∀ p ∈ O, (s.mem p).flOwner = some t) ∧
      (∀ p ∈ F1 ++ F2, (s.mem p).flOwner ≠ some t) ∧ (O = [] → F2 = []) ∧ Tidy (O.map s.range) := by
  let own := fun p => decide ((s.mem p).flOwner = some t)
  have hl : l = l.takeWhile (fun p => !own p) ++ l.dropWhile (fun p => !own p) :=
    takeWhile_append_dropWhile.symm
  have hr : l.dropWhile (fun p => !own p) = (l.dropWhile fun p => !own p).takeWhile own ++
      (l.dropWhile fun p => !own p).dropWhile own := takeWhile_append_dropWhile.symm
  have hF1 : ∀ p ∈ l.takeWhile (fun p => !own p), (s.mem p).flOwner ≠ some t := by
    intro p hp
    simpa [own] using mem_takeWhile_imp hp
  have hO : ∀ p ∈ (l.dropWhile fun p => !own p).takeWhile own, (s.mem p).flOwner = some t := by
    intro p hp
    simpa [own] using mem_takeWhile_imp hp
  generalize l.takeWhile (fun p => !own p) = F1 at hl hF1
  generalize hrest : l.dropWhile (fun p => !own p) = rest at hl hr hO
  generalize hO' : rest.takeWhile own = O at hr hO
  generalize hF' : rest.dropWhile own = F2 at hr
  have hnil : O = [] → F2 = [] := by
    intro hnil
    rw [hnil, nil_append] at hr
    cases hF : F2 with
    | nil => rfl
    | cons p F =>
      have h1 := head?_dropWhile_not (fun p => !own p) l
      have h2 := head?_dropWhile_not own rest
      rw [hrest, hr, hF] at h1
      rw [hF', hF] at h2
      simp only [head?_cons, Bool.not_eq_false'] at h1 h2
      simp [h1] at h2
  refine ⟨F1, O, F2, by rw [← hr]; exact hl, hO, fun p hp => ?_, hnil, ?_⟩
  · rcases mem_append.mp hp with hp | hp
    · exact hF1 p hp
    · cases hOc : O with
      | nil =>
        rw [hnil hOc] at hp
        cases hp
      | cons q O1 =>
        cases hFc : F2 with
        | nil =>
          rw [hFc] at hp
          cases hp
        | cons r F =>
          -- the lock behind the block would stand between two of the block
          have hq : (s.mem q).flOwner = some t := hO q (by simp [hOc])
          have hr' : (s.mem r).flOwner ≠ some t := by
            have h2 := head?_dropWhile_not own rest
            rw [hF', hFc] at h2
            simpa [own] using h2
          rw [hFc] at hp
          rcases mem_cons.mp hp with rfl | hp
          · exact hr'
          · intro hpt
            refine hr' ((h.contiguous q r p ?_ (hq.trans hpt.symm)).trans hq)
            rw [hl, hr, hOc, hFc]
            refine List.Sublist.trans ?_ (sublist_append_right _ _)
            rw [cons_append]
            refine List.Sublist.cons_cons q (List.Sublist.trans ?_
              (sublist_append_right _ _))
            exact List.Sublist.cons_cons r (singleton_sublist.mpr hp)
  · have hsub : O.Sublist l := by
      rw [hl, hr]
      exact (sublist_append_left _ _).trans (sublist_append_right _ _)
    refine ⟨fun x hx => ?_, ?_⟩
    · obtain ⟨p, hp, rfl⟩ := mem_map.mp hx
      exact h.proper p (hsub.subset hp)
    · rw [pairwise_map]
      refine (h.sorted.sublist hsub).imp_of_mem fun hp hq hpq => ?_
      exact hpq ((hO _ hp).trans (hO _ hq).symm)

/-- Where three elements in order can lie around a middle part. -/
theorem sublist_three {A B C : List LockPtr} (h : [p, q, r].Sublist (A ++ (B ++ C))) :
    [p, q, r].Sublist (A ++ C) ∨ (p ∈ A ∧ q ∈ B ∧ r ∈ C) ∨ (p ∈ B ∧ r ∈ C) ∨ (p ∈ A ∧ r ∈ B) ∨
      (p ∈ B ∧ q ∈ B ∧ r ∈ B) := by
  obtain ⟨l1, l2, hl, h1, h2⟩ := sublist_append_iff.mp h
  obtain ⟨l3, l4, rfl, h3, h4⟩ := sublist_append_iff.mp h2
  have hA := h1.subset
  have hB := h3.subset
  have hC : ∀ x ∈ l4, x ∈ C := fun x hx => h4.subset hx
  cases l3 with
  | nil =>
    refine .inl ?_
    rw [hl, nil_append]
    exact h1.append h4
  | cons x l3 =>
    clear h h2 h3 h4
    rcases l1 with _ | ⟨a, _ | ⟨b, _ | ⟨c, l1⟩⟩⟩
    all_goals rcases l3 with _ | ⟨y, _ | ⟨z, l3⟩⟩
    all_goals
      simp only [nil_append, cons_append, List.cons.injEq, cons_subset]
        at hl hA hB
      clear h1
      grind

section
variable {F1 F2 O O' : List LockPtr} (h : RepInvariant s (F1 ++ (O ++ F2)))
  (hown : ∀ p ∈ O, (s.mem p).flOwner = some t)
  (hforeign : ∀ p ∈ F1 ++ F2, (s.mem p).flOwner ≠ some t) (hnil : O = [] → F2 = [])
  (hown' : ∀ p ∈ O', (s'.mem p).flOwner = some t)
include h hown hforeign hnil hown'

/-- The locks of the others keep their order when the block of `t` changes. -/
theorem RepInvariant.contiguous_write
    (howner : ∀ p ∈ F1 ++ F2, (s'.mem p).flOwner = (s.mem p).flOwner)
    (hsub : [p, q, r].Sublist (F1 ++ (O' ++ F2))) (ho : (s'.mem p).flOwner = (s'.mem r).flOwner) :
    (s'.mem q).flOwner = (s'.mem p).flOwner := by
  have hforeign' : ∀ p ∈ F1 ++ F2, (s'.mem p).flOwner ≠ some t := by
    intro p hp
    rw [howner p hp]
    exact hforeign p hp
  rcases sublist_three hsub with hF | ⟨hp, hq, hr⟩ | ⟨hp, hr⟩ | ⟨hp, hr⟩ | ⟨hp, hq, hr⟩
  · have hmem := hF.subset
    rw [howner p (hmem (by simp)), howner r (hmem (by simp))] at ho
    rw [howner p (hmem (by simp)), howner q (hmem (by simp))]
    exact h.contiguous p q r (hF.trans ((sublist_append_right O F2).append_left F1)) ho
  · -- the old block stood between the same two locks
    cases hOc : O with
    | nil =>
      rw [hnil hOc] at hr
      cases hr
    | cons x O1 =>
      rw [howner p (by simp [hp]), howner r (by simp [hr])] at ho
      have hx := h.contiguous p x r ?_ ho
      · rw [hown x (by simp [hOc])] at hx
        exact absurd hx.symm (hforeign p (by simp [hp]))
      · rw [hOc]
        exact (singleton_sublist.mpr hp).append (List.Sublist.cons_cons x
          ((singleton_sublist.mpr hr).trans (sublist_append_right _ _)))
  · exact absurd (ho.symm.trans (hown' p hp)) (hforeign' r (by simp [hr]))
  · exact absurd (ho.trans (hown' r hr)) (hforeign' p (by simp [hp]))
  · rw [hown' q hq, hown' p hp]

/-- A new block for `t` in place of the old one. -/
theorem RepInvariant.write (hcore : ∀ p ∈ F1 ++ F2, (s'.mem p).core = (s.mem p).core)
    (htidy : Tidy (O'.map s'.range)) : RepInvariant s' (F1 ++ (O' ++ F2)) := by
  have howner := fun p hp => (core_eq_iff.mp (hcore p hp)).1
  have hsub : (F1 ++ F2).Sublist (F1 ++ (O ++ F2)) :=
    (sublist_append_right O F2).append_left F1
  have hkeep : RepInvariant s' (F1 ++ F2) := (h.sublist hsub).congr hcore
  refine ⟨fun p q r hs ho => h.contiguous_write hown hforeign hnil hown' howner hs ho,
    fun p hp => ?_, ?_⟩
  · simp only [mem_append] at hp
    rcases hp with hp | hp | hp
    · exact hkeep.proper p (by simp [hp])
    · exact htidy.proper (s'.range p) (mem_map_of_mem hp)
    · exact hkeep.proper p (by simp [hp])
  · obtain ⟨h1, h2, h12⟩ := pairwise_append.mp hkeep.sorted
    refine pairwise_append.mpr ⟨h1, pairwise_append.mpr ⟨?_, h2,
      fun p hp q hq ho => ?_⟩, fun p hp q hq ho => ?_⟩
    · refine (pairwise_map.mp htidy.sorted).imp ?_
      exact fun hpq _ => hpq
    · refine absurd (ho.symm.trans (hown' p hp)) ?_
      rw [howner q (by simp [hq])]
      exact hforeign q (by simp [hq])
    · rcases mem_append.mp hq with hq | hq
      · refine absurd (ho.trans (hown' q hq)) ?_
        rw [howner p (by simp [hp])]
        exact hforeign p (by simp [hp])
      · exact h12 p hp q hq ho

end

/-- A segment of a POSIX call applies its request, or leaves lists and locks
alone. -/
theorem posixRepeat_effect {signalled : Bool}
    (h : posixRepeat fInode fuel s t call signalled = some (s', result)) :
    (result ≠ some .ok ∧ s'.iFlock = s.iFlock ∧ ∀ p, (s'.mem p).core = (s.mem p).core) ∨
      result = some .ok ∧ ∃ s1, posixApply fuel s t (fInode call.filp) call = some (s1, .ok) ∧
        s'.mem = s1.mem ∧ s'.iFlock = s1.iFlock := by
  cases posixRepeat_segment h with
  | leave he =>
    obtain ⟨hmem, hiFlock⟩ := posixOut_lists s t
    exact .inl ⟨fun h => he (some.inj h), hiFlock, fun p => by rw [hmem]⟩
  | @apply s1 e _ happly =>
    obtain ⟨hmem, hiFlock⟩ := posixOut_lists s1 t
    rcases posixApply_cases happly with ⟨rfl, rfl, -⟩ | ⟨rfl, -⟩
    · exact .inl ⟨by simp, hiFlock, fun p => by rw [hmem]⟩
    · exact .inr ⟨rfl, s1, happly, hmem, hiFlock⟩
  | @sleep fl =>
    exact .inl ⟨nofun, (sameLocks_insertBlock s fl call.caller).iFlock,
      core_sleep s t call.caller fl _⟩

theorem request_of_core {a b : FileLock} (h : a.core = b.core) : a.request = b.request := by
  obtain ⟨-, -, -, hty, hs, he⟩ := core_eq_iff.mp h
  rw [FileLock.request, FileLock.request, hty, hs, he]

/-- A step of a POSIX call is a segment from a state in which the call runs. -/
theorem posix_step_segment {filp : FilePtr} {req : Request} (hinv : LockInv R s)
    (h : Step fInode s (.posix t filp req result) s') :
    ∃ s1 call fuel signalled, LockInv R s1 ∧ s1.frame t = .posix call none ∧ call.filp = filp ∧
      (s1.mem call.caller).request = req ∧ s1.iFlock = s.iFlock ∧
      (∀ i, ∀ p ∈ s.iFlock i, (s1.mem p).core = (s.mem p).core) ∧
      posixRepeat fInode fuel s1 t call signalled = some (s', result) := by
  cases h with
  | posixCall idle make fresh distinct run =>
    obtain ⟨hreq, hcore⟩ := posixMakeLock_request make
    refine ⟨_, _, _, _, hinv.posixEnter idle hreq hcore fresh distinct,
      Function.update_self .., rfl, ?_, rfl, fun i p hp => ?_, run⟩
    · simp [posixEnter]
    · obtain ⟨place, hplace⟩ := hinv.placed
      rw [posixEnter, Locks.setFrame_mem, Locks.modify_mem_of_ne]
      · rfl
      · exact hplace.ne_of_linked (.inl ⟨i, hp⟩) (fresh _ (by simp))
  | posixWake asleep awake run =>
    exact ⟨_, _, _, _, hinv.posixResume asleep, Function.update_self .., rfl,
      request_of_core (core_resume s t _ _ _ _), (sameLocks_deleteBlock _ _ _).iFlock,
      fun i p _ => core_resume s t _ _ _ p, run⟩

/-- What the application of a request that fits does to the list and the map. -/
theorem posixApply_refines (hinv : LockInv R s) (ht : s.frame t = .posix call none)
    (hrep : RepInvariant s (s.iFlock i)) (hfits : RequestFits s i t (s.mem call.caller).request)
    (h : posixApply fuel s t i call = some (s', .ok)) :
    RepInvariant s' (s'.iFlock i) ∧
      (∀ j, j ≠ i → s'.iFlock j = s.iFlock j ∧
        ∀ p ∈ s.iFlock j, (s'.mem p).core = (s.mem p).core) ∧
      ∀ o b, heldType s' i o b = if o = t ∧ Covers (s.mem call.caller) b
        then (s.mem call.caller).flType.held else heldType s i o b := by
  obtain ⟨place, hp⟩ := hinv.placed
  have hreq : PosixRequest t (s.mem call.caller) := hinv.request ht
  rcases posixApply_cases h with ⟨he, -⟩ | ⟨-, hhead, -⟩
  · cases he
  have hposix := (hinv.listOk i).posixList hhead
  obtain ⟨call', locks, caller, hfin, hcov⟩ :=
    posixApply_cov hp ht hposix.locks hreq.callerOk h
  obtain ⟨F1, O, F2, hlist, hown, hforeign, hnil, htidy⟩ := hrep.block t
  have hwrap : (s.mem call.caller).flEnd = offsetMax → ∀ p ∈ O,
      (s.mem p).flType = (s.mem call.caller).flType →
      (s.mem p).flEnd < (s.mem call.caller).flStart - 1 := by
    intro hmax p hpO hty
    have hpi : p ∈ s.iFlock i := by simp [hlist, hpO]
    rcases hfits with hun | hlt | hfree
    · exact absurd (hty.trans hun) (hposix.locks p hpi).flType
    · have : (s.mem call.caller).flEnd < offsetMax := hlt
      omega
    · exact hfree p hpi (hown p hpO) hty
  obtain ⟨O', hw⟩ := posixApply_written hp ht hposix.locks hreq.callerOk hlist hown hforeign hnil
    htidy hwrap (fun b => rfl) h
  -- the locks of the others have stayed
  have hstay : ∀ p ∈ F1 ++ F2, (s'.mem p).core = (s.mem p).core := by
    intro p hpF
    have hpl : p ∈ locks := by
      rw [← hfin.list, hw.list]
      simp only [mem_append] at hpF ⊢
      tauto
    by_cases hpt : (s'.mem p).flOwner = some t
    · have hpi : p ∈ s.iFlock i := by
        rw [hlist]
        simp only [mem_append] at hpF ⊢
        tauto
      have hident := hfin.ident p fun hheld => hp.not_listed (ht ▸ hheld) i hpi
      have howner : (s'.mem p).flOwner = (s.mem p).flOwner := congrArg Prod.fst hident
      exact absurd (howner ▸ hpt) (hforeign p hpF)
    · exact (hcov.foreign p hpl hpt).2
  rw [hlist] at hrep
  refine ⟨?_, fun j hj => ⟨hfin.others j hj, fun p hpj => ?_⟩, fun o b => ?_⟩
  · rw [hw.list]
    exact hrep.write hown hforeign hnil hw.own hstay hw.tidy
  · refine hfin.same p (fun hpi => hj (hp.inode_unique hpj hpi)) fun hheld => ?_
    exact hp.not_listed (ht ▸ hheld) j hpj
  · rw [heldType, heldType, hw.list, hlist, heldIn_append, heldIn_append, heldIn_append,
      heldIn_append]
    have hF1 : heldIn s' F1 o b = heldIn s F1 o b :=
      heldIn_congr fun p hpF => hstay p (by simp [hpF])
    have hF2 : heldIn s' F2 o b = heldIn s F2 o b :=
      heldIn_congr fun p hpF => hstay p (by simp [hpF])
    rw [hF1, hF2]
    by_cases hot : o = t
    · subst hot
      rw [heldIn_foreign fun p hpF => hforeign p (by simp [hpF]),
        heldIn_foreign fun p hpF => hforeign p (by simp [hpF]), heldIn_own hw.own, hw.map b,
        heldIn_own hown]
      simp only [none_or, or_none, true_and]
      rfl
    · have hO : heldIn s O o b = none := heldIn_foreign fun p hpO heq => by
        rw [hown p hpO] at heq
        exact hot (some.inj heq).symm
      have hO' : heldIn s' O' o b = none := heldIn_foreign fun p hpO heq => by
        rw [hw.own p hpO] at heq
        exact hot (some.inj heq).symm
      rw [hO, hO', if_neg fun h => hot h.1]

/-! ## A request that does not fit -/

/-- The loop for a request up to the largest offset, while a lock of the
requested type that touches the request is still to come. -/
structure MissScan (s0 : Locks) (t : TaskPtr) (call : PosixCall) (req : FileLock) (c : Scan)
    (rest : List LockPtr) : Prop where
  range : c.s.range c.caller = req.range
  same : ∀ p ∈ rest, (c.s.mem p).core = (s0.mem p).core
  left : ∀ l, c.left = some l → (c.s.mem l).flType ≠ req.flType
  added : c.added = true → c.caller ≠ call.caller
  missed : ∃ O F, rest = O ++ F ∧ (∀ p ∈ O, (s0.mem p).flOwner = some t) ∧
    ∃ p ∈ O, (s0.mem p).flType = req.flType ∧ req.flStart - 1 ≤ (s0.mem p).flEnd

namespace MissScan

variable {s0 : Locks} {req : FileLock} {c c' : Scan} {fl : LockPtr}
  {rest : List LockPtr}

theorem missed_tail (h : MissScan s0 t call req c (fl :: rest))
    (hfl : ¬((s0.mem fl).flType = req.flType ∧ req.flStart - 1 ≤ (s0.mem fl).flEnd)) :
    ∃ O F, rest = O ++ F ∧ (∀ p ∈ O, (s0.mem p).flOwner = some t) ∧
      ∃ p ∈ O, (s0.mem p).flType = req.flType ∧ req.flStart - 1 ≤ (s0.mem p).flEnd := by
  obtain ⟨O, F, hrest, hown, p, hp, hpt⟩ := h.missed
  cases O with
  | nil => cases hp
  | cons q O =>
    cases hrest
    refine ⟨O, F, rfl, fun r hr => hown r (by simp [hr]), p, ?_, hpt⟩
    rcases mem_cons.mp hp with rfl | hp
    · exact absurd hpt hfl
    · exact hp

theorem fields (h : MissScan s0 t call req c rest) :
    (c.s.mem c.caller).flType = req.flType ∧ (c.s.mem c.caller).flStart = req.flStart ∧
      (c.s.mem c.caller).flEnd = req.flEnd :=
  ⟨congrArg Range.tag h.range, congrArg Range.lo h.range, congrArg Range.hi h.range⟩

theorem not_unlck (hcov : CovScan s0 i t req c rest) (h : MissScan s0 t call req c rest) :
    (c.s.mem c.caller).flType ≠ .unlck := by
  obtain ⟨O, F, rfl, hown, p, hp, hpt, -⟩ := h.missed
  obtain ⟨-, -, -, hpt', -, -⟩ := core_eq_iff.mp (h.same p (by simp [hp]))
  rw [h.fields.1, ← hpt, ← hpt']
  exact (hcov.cov.posix p (by simp [hp])).flType

/-- The comparison that wraps lets nothing touch the request. -/
theorem not_touches (hmax : (c.s.mem c.caller).flEnd = offsetMax)
    (hfl : 0 ≤ (c.s.mem fl).flStart) : ¬Touches (c.s.mem c.caller) (c.s.mem fl) := by
  intro htouch
  have := htouch.2
  rw [hmax, offT_wrap] at this
  omega

/-- At the stop there is a lock of the requested type behind the place of the
new one that should have been merged with it. -/
theorem round {r : Round} (hok : ScanOk s0 i t call c (fl :: rest))
    (hcov : CovScan s0 i t req c (fl :: rest)) (h : MissScan s0 t call req c (fl :: rest))
    (hr : c.right = none) (hmax : req.flEnd = offsetMax)
    (hproper : (s0.mem fl).flStart ≤ (s0.mem fl).flEnd) (hcase : RoundCase fuel i c fl rest r) :
    r.Leads (MissScan s0 t call req) (fun c' _ => c' = c ∧ (s0.mem fl).flType = req.flType) fl
      rest := by
  obtain ⟨hty0, hs0, he0⟩ := h.fields
  obtain ⟨-, -, -, htfl, hsfl, hefl⟩ := core_eq_iff.mp (h.same fl (by simp))
  have hcal := hcov.cov.caller
  have hk := hcov.cov.posix fl (by simp)
  have hsame : ∀ p ∈ rest, (c.s.mem p).core = (s0.mem p).core := fun p hp => h.same p (by simp [hp])
  have htail := fun hty : (c.s.mem c.caller).flType ≠ (c.s.mem fl).flType =>
    h.missed_tail fun hfl => hty (hty0.trans (hfl.1.symm.trans htfl.symm))
  cases hcase with
  | sameAbove hty hge hgt => exact ⟨rfl, htfl.symm.trans (hty.symm.trans hty0)⟩
  | otherAbove | right =>
    have := hk.last
    omega
  | sameBelow hty hlt =>
    rw [offT_pred hcal.start (by have := hcal.proper; have := hcal.last; omega)] at hlt
    exact ⟨h.range, hsame, h.left, h.added, h.missed_tail fun hfl => by omega⟩
  | otherBelow hty hlt =>
    exact ⟨h.range, hsame, h.left, h.added, htail hty⟩
  | become _ htouch | absorb _ _ htouch =>
    exact absurd htouch (not_touches (he0.trans hmax) hk.start)
  | left hty hmeet hend hstart =>
    have hadd : (c.overlap fl).added = true → c.added = true := by
      intro hadd
      simpa [Scan.overlap, h.not_unlck hcov] using hadd
    refine ⟨h.range, hsame, fun l hl => ?_, fun ha => h.added (hadd ha), htail hty⟩
    simp only [Scan.overlap, hstart, if_true] at hl ⊢
    cases hl
    exact fun heq => hty (hty0.trans heq.symm)
  | replace s' hty hend hstart hadded hwake =>
    have hsame' := sameLocks_wakeUpBlocks hwake
    have hnl : ¬(c.s.mem fl).flStart < (c.s.mem c.caller).flStart := by omega
    have hother : ∀ p, p ≠ fl → ((takeOver s' c.caller fl).mem p).core = (c.s.mem p).core := by
      intro p hp
      rw [takeOver_other s' hp, hsame'.core]
    refine ⟨?_, fun p hp => ?_, fun l hl => ?_, fun _ heq => ?_, htail hty⟩
    · rw [← h.range]
      show ((takeOver s' c.caller fl).mem fl).range = (c.s.mem c.caller).range
      rw [takeOver_fl, ← range_of_core (hsame'.core c.caller)]
      rfl
    · rw [hother p fun heq => hok.fl_not_rest (heq ▸ hp)]
      exact hsame p hp
    · simp only [Scan.overlap, hnl, if_false] at hl ⊢
      have hlf : l ≠ fl := (CovScan.left_ne hok hr hl).1
      rw [(core_eq_iff.mp (hother l hlf)).2.2.2.1]
      exact h.left l hl
    · have hheld := hok.held (p := call.caller) (by simp [Frame.ptrs])
      have heq' : fl = call.caller := heq
      exact hheld (by simp [heq'])
  | covered s' hty hend hstart hadded hdel =>
    have hd := deleted_of_deleteLock hdel
    have hnl : ¬(c.s.mem fl).flStart < (c.s.mem c.caller).flStart := by omega
    refine ⟨?_, fun p hp => ?_, fun l hl => ?_, fun ha => ?_, htail hty⟩
    · rw [← h.range]
      exact range_of_core (hd.core c.caller)
    · rw [hd.core]
      exact h.same p (by simp [hp])
    · simp only [Scan.overlap, hnl, if_false] at hl
      rw [(core_eq_iff.mp (hd.core l)).2.2.2.1]
      exact h.left l hl
    · simp only [Scan.overlap, h.not_unlck hcov, if_false] at ha
      exact h.added ha

end MissScan

/-- The whole loop for a request that does not fit. -/
theorem posixScan_misses {req : FileLock} {c0 c : Scan}
    {rest0 rest : List LockPtr} (hrep : RepInvariant s (s.iFlock i)) (hmax : req.flEnd = offsetMax)
    (hok : ScanOk s i t call c0 rest0) (hr : c0.right = none) (hcov : CovScan s i t req c0 rest0)
    (h : MissScan s t call req c0 rest0) (hscan : posixScan fuel i rest0 c0 = some (c, rest)) :
    ScanOk s i t call c rest ∧ ∃ fl rest', rest = fl :: rest' ∧ c.right = none ∧
      CovScan s i t req c rest ∧ MissScan s t call req c rest ∧
      (s.mem fl).flOwner = some t ∧ (s.mem fl).flType = req.flType := by
  have hfirst : ∀ {c : Scan} {l : List LockPtr}, MissScan s t call req c l →
      ∃ fl l', l = fl :: l' ∧ (s.mem fl).flOwner = some t := by
    intro c l h
    obtain ⟨O, F, rfl, hown, p, hp, -⟩ := h.missed
    cases O with
    | nil => cases hp
    | cons q O => exact ⟨q, O ++ F, rfl, hown q (by simp)⟩
  refine posixScan_ok_rule
    (P := fun c rest => CovScan s i t req c rest ∧ MissScan s t call req c rest)
    (Q := fun c rest => ∃ fl rest', rest = fl :: rest' ∧ c.right = none ∧
      CovScan s i t req c rest ∧ MissScan s t call req c rest ∧
      (s.mem fl).flOwner = some t ∧ (s.mem fl).flType = req.flType)
    ?_ ?_ ?_ hok hr ⟨hcov, h⟩ hscan
  · intro c hok hr hP
    obtain ⟨fl, l', ⟨⟩, -⟩ := hfirst hP.2
  · intro c fl rest hok hr hP hne
    obtain ⟨fl', l', ⟨⟩, ho⟩ := hfirst hP.2
    have hident : (c.s.mem fl).flOwner = (s.mem fl).flOwner := congrArg Prod.fst (hok.ident fl)
    exact absurd (hP.1.cov.caller.owner.trans (hident.trans ho).symm) hne
  · intro c fl rest r hok hr hP heq hcase
    obtain ⟨hcov, h⟩ := hP
    have hcov' := CovScan.round hok hcov hr heq hcase
    have h' := h.round hok hcov hr hmax (hrep.proper fl (hok.subset fl (by simp))) hcase
    cases r with
    | stop c' =>
      obtain ⟨fl', l', ⟨⟩, ho⟩ := hfirst h
      obtain ⟨rfl, hty⟩ := h'
      exact ⟨fl, rest, rfl, hr, hcov, h, ho, hty⟩
    | nextLock c' => exact ⟨hcov', h'⟩
    | deleted c' => exact ⟨hcov', h'⟩

/-- A lock that reaches up to the largest offset with another of its owner and
type behind it. -/
theorem not_repInvariant {caller k f : LockPtr} {X : Option LockPtr}
    (hsub : [k, f].Sublist (s.iFlock i)) (ho : (s.mem k).flOwner = (s.mem f).flOwner)
    (hty : (s.mem k).flType = (s.mem f).flType) (hend : (s.mem k).flEnd = offsetMax)
    (hstart : (s.mem f).flStart ≤ offsetMax)
    (hleft : ∀ l, X = some l → (s.mem l).flType ≠ (s.mem f).flType)
    (htrim : trimLeft? fuel s caller X = some s') : ¬RepInvariant s' (s'.iFlock i) := by
  have hkeep : s'.iFlock = s.iFlock ∧ ∀ p, (s.mem p).flType = (s.mem f).flType →
      (s'.mem p).core = (s.mem p).core := by
    cases X with
    | none =>
      cases htrim
      exact ⟨rfl, fun _ _ => rfl⟩
    | some l =>
      refine ⟨(sameLocks_wakeUpBlocks htrim).iFlock, fun p hp => shrink_core htrim ?_⟩
      intro hpl
      exact hleft l rfl (hpl ▸ hp)
  obtain ⟨hiFlock, hcore⟩ := hkeep
  obtain ⟨hko, -, -, -, -, hke⟩ := core_eq_iff.mp (hcore k hty)
  obtain ⟨hfo, -, -, -, hfs, -⟩ := core_eq_iff.mp (hcore f rfl)
  intro hrep
  rw [hiFlock] at hrep
  have hpair := hrep.sorted.sublist hsub
  rw [pairwise_pair, hko, hfo, hke, hfs] at hpair
  have := (hpair ho).1
  omega

/-- Such a request leaves two locks of one type that overlap or touch. -/
theorem posixApply_misses (hinv : LockInv R s) (ht : s.frame t = .posix call none)
    (hrep : RepInvariant s (s.iFlock i)) (hfits : ¬RequestFits s i t (s.mem call.caller).request)
    (h : posixApply fuel s t i call = some (s', .ok)) : ¬RepInvariant s' (s'.iFlock i) := by
  obtain ⟨place, hp⟩ := hinv.placed
  have hreq : PosixRequest t (s.mem call.caller) := hinv.request ht
  have hcaller := hreq.callerOk (s := s) (i := i)
  rcases posixApply_cases h with ⟨he, -⟩ | ⟨-, hhead, c, rest, hscan, hend⟩
  · cases he
  have hposix := (hinv.listOk i).posixList hhead
  obtain ⟨F1, O, F2, hlist, hown, hforeign, hnil, -⟩ := hrep.block t
  simp only [RequestFits, not_or, not_forall] at hfits
  obtain ⟨-, hmax, p, hpl, hpo, hpt, hpe⟩ := hfits
  have hmax' : (s.mem call.caller).flEnd = offsetMax := by
    have := hcaller.last
    have : ¬(s.mem call.caller).flEnd < offsetMax := hmax
    omega
  have hpO : p ∈ O := by
    rw [hlist] at hpl
    simp only [mem_append] at hpl
    rcases hpl with hF | hO | hF
    · exact absurd hpo (hforeign p (by simp [hF]))
    · exact hO
    · exact absurd hpo (hforeign p (by simp [hF]))
  have hok := ScanOk.start (i := i) hp ht
  rw [(skip_block hcaller.owner hlist hown hforeign hnil).2] at hok hscan
  have hcov : CovScan s i t (s.mem call.caller) (Scan.start s i call) (O ++ F2) :=
    ⟨hok.list ▸ Cov.start hposix.locks hcaller, nofun, nofun⟩
  have hmiss : MissScan s t call (s.mem call.caller) (Scan.start s i call) (O ++ F2) :=
    ⟨rfl, fun _ _ => rfl, nofun, nofun, O, F2, rfl, hown, p, hpO, hpt, not_lt.mp hpe⟩
  obtain ⟨hok, fl, rest, rfl, hright, hcov, hmiss, hflo, hflt⟩ := posixScan_misses hrep hmax' hok
    rfl hcov hmiss hscan
  obtain ⟨hct, -, hce⟩ := hmiss.fields
  obtain ⟨ho, -, -, hft, hfs, -⟩ := core_eq_iff.mp (hmiss.same fl (by simp))
  rw [hflo] at ho
  rw [hflt] at hft
  have hfl : (c.s.mem fl).flStart ≤ offsetMax := by
    have := hrep.proper fl (hok.subset fl (by simp))
    have := (hposix.locks fl (hok.subset fl (by simp))).last
    omega
  have hco := hcov.cov.caller.owner
  rcases hend with ⟨-, hun, -⟩ | ⟨hadded, htrim⟩ | ⟨new, -, -, hnew, htrim⟩
  · exact absurd hun (hmiss.not_unlck hcov)
  · rw [posixTrim_of_right_none hright] at htrim
    refine not_repInvariant ?_ (hco.trans ho.symm) (hct.trans hft.symm) (hce.trans hmax') hfl
      (fun l hl => hft ▸ hmiss.left l hl) htrim
    rw [hok.list]
    exact (singleton_sublist.mpr (hok.caller.resolve_left (hmiss.added hadded))).append
      (by simp)
  · rw [posixTrim_of_right_none hright] at htrim
    have hptrs := hp.ptrs t
    rw [ht] at hptrs
    have hout := hok.held (call.releases_newFl hnew hptrs).mem
    have hmem : ∀ p ∈ c.before ++ fl :: rest, (insertCopy c.s t i { call with newFl := none }
        c.before (fl :: rest) new c.caller).mem p = c.s.mem p := by
      intro p hp
      exact FinOk.insertCopy_mem_of_ne fun heq => hout (heq ▸ hp)
    have hcopy : ((insertCopy c.s t i { call with newFl := none }
        c.before (fl :: rest) new c.caller).mem new).core = (c.s.mem c.caller).core := by
      rw [FinOk.insertCopy_mem_self]
      rfl
    obtain ⟨hno, -, -, hnt, -, hne⟩ := core_eq_iff.mp hcopy
    have hfl' := hmem fl (by simp)
    refine not_repInvariant (k := new) (f := fl) ?_ ?_ ?_ ?_ ?_ (fun l hl => ?_) htrim
    · simp [insertCopy, locksInsertLock]
    · rw [hno, hfl', hco, ho]
    · rw [hnt, hfl', hct, hft]
    · rw [hne, hce, hmax']
    · rw [hfl']
      exact hfl
    · have hlb := ((hok.left l hl).1).resolve_right fun hr => by simp [hright] at hr
      rw [hmem l (by simp [hlb]), hfl', hft]
      exact hmiss.left l hl

/-! ## Runs of requests -/

/-- The steps of `posix_lock_file` for requests that fit, and signals. -/
def PosixFits (fInode : FilePtr → InodePtr) (s : Locks) : Event → Prop
  | .posix t filp req result => result = some .ok → RequestFits s (fInode filp) t req
  | .signal _ => True
  | .flock .. => False
  | .remove .. => False

def posixSystem (fInode : FilePtr → InodePtr) : System Locks where
  init := Boot
  step s s' := ∃ e, Step fInode s e s' ∧ PosixFits fInode s e

/-- `s'` is what the request should make of `s`: nothing if it has not
completed, and else its type on its range for its owner. -/
structure PosixWrites (fInode : FilePtr → InodePtr) (s : Locks) (t : TaskPtr) (filp : FilePtr)
    (req : Request) (result : Option Errno) (s' : Locks) : Prop where
  rep : ∀ i, RepInvariant s' (s'.iFlock i)
  map : ∀ i o b, heldType s' i o b =
    if result = some .ok ∧ i = fInode filp ∧ o = t ∧ req.flStart ≤ b ∧ b ≤ req.flEnd
    then req.flType.held else heldType s i o b

variable {filp : FilePtr} {req : Request}

theorem requestFits_congr (hiFlock : s'.iFlock = s.iFlock)
    (hcore : ∀ i, ∀ p ∈ s.iFlock i, (s'.mem p).core = (s.mem p).core) :
    RequestFits s' i t req ↔ RequestFits s i t req := by
  rw [RequestFits, RequestFits, hiFlock]
  refine or_congr .rfl (or_congr .rfl (forall₂_congr fun p hp => ?_))
  obtain ⟨ho, -, -, hty, -, he⟩ := core_eq_iff.mp (hcore i p hp)
  rw [ho, hty, he]

/-- A request does what it should exactly if it fits or does not complete. -/
theorem posix_step_writes (hinv : LockInv R s) (hrep : ∀ i, RepInvariant s (s.iFlock i))
    (hstep : Step fInode s (.posix t filp req result) s') :
    PosixWrites fInode s t filp req result s' ↔
      (result = some .ok → RequestFits s (fInode filp) t req) := by
  obtain ⟨s1, call, fuel, signalled, hinv1, ht, rfl, rfl, hiFlock, hcore, hrun⟩ :=
    posix_step_segment hinv hstep
  have hrep1 : ∀ i, RepInvariant s1 (s1.iFlock i) := fun i => by
    rw [hiFlock]
    exact (hrep i).congr (hcore i)
  have hheld1 : ∀ i o b, heldType s1 i o b = heldType s i o b := fun i o b => by
    rw [heldType, heldType, hiFlock, heldIn_congr (hcore i)]
  rcases posixRepeat_effect hrun with ⟨hres, hlist, hsame⟩ | ⟨rfl, s2, happly, hmem, hlist⟩
  · have hcore' : ∀ i, ∀ p ∈ s1.iFlock i, (s'.mem p).core = (s1.mem p).core := fun _ p _ => hsame p
    refine iff_of_true ⟨fun i => ?_, fun i o b => ?_⟩ fun h => absurd h hres
    · rw [hlist]
      exact (hrep1 i).congr (hcore' i)
    · rw [if_neg fun h => hres h.1, ← hheld1, heldType, heldType, hlist, heldIn_congr (hcore' i)]
  · have hcore2 : ∀ i, ∀ p ∈ s2.iFlock i, (s'.mem p).core = (s2.mem p).core :=
      fun _ _ _ => by rw [hmem]
    rw [← requestFits_congr hiFlock hcore]
    refine ⟨fun hw _ => ?_, fun hfits => ?_⟩
    · by_contra hfits
      refine posixApply_misses hinv1 ht (hrep1 _) hfits happly ?_
      have hrep' := hw.rep (fInode call.filp)
      rw [hlist] at hrep'
      exact hrep'.congr fun p _ => by rw [hmem]
    · obtain ⟨hrep2, hothers, hmap⟩ := posixApply_refines hinv1 ht (hrep1 _) (hfits rfl)
        happly
      have hheld2 : ∀ i o b, heldType s' i o b = heldType s2 i o b := fun i o b => by
        rw [heldType, heldType, hlist, heldIn_congr (hcore2 i)]
      refine ⟨fun j => ?_, fun j o b => ?_⟩
      · rw [hlist]
        refine RepInvariant.congr ?_ (hcore2 j)
        by_cases hj : j = fInode call.filp
        · rw [hj]
          exact hrep2
        · rw [(hothers j hj).1]
          exact (hrep1 j).congr (hothers j hj).2
      · rw [hheld2, ← hheld1]
        by_cases hj : j = fInode call.filp
        · rw [hj, hmap]
          exact if_congr (by simp [Covers, FileLock.request]) rfl rfl
        · rw [if_neg fun h => hj h.2.1, heldType, heldType, (hothers j hj).1,
            heldIn_congr (hothers j hj).2]

theorem posixSystem_invariant (h : (posixSystem fInode).Reachable s) :
    LockInv anyOrder s ∧ ∀ i, RepInvariant s (s.iFlock i) := by
  refine h.invariant (I := fun s => LockInv anyOrder s ∧ ∀ i, RepInvariant s (s.iFlock i))
    (fun s hs => ⟨LockInv.boot hs, fun i => ?_⟩) fun s s' hs hstep => ?_
  · rw [hs.iFlock i]
    exact ⟨nofun, nofun, .nil⟩
  · obtain ⟨e, hstep, hfits⟩ := hstep
    refine ⟨hs.1.step hstep fun _ _ _ _ => trivial, ?_⟩
    cases e with
    | posix t filp req result => exact ((posix_step_writes hs.1 hs.2 hstep).mpr hfits).rep
    | signal t =>
      cases hstep
      exact fun i => (hs.2 i).congr fun _ _ => rfl
    | flock => cases hfits
    | remove => cases hfits

/-- POSIX locks refine a byte map: in a run of requests that fit the lists are
in order throughout, and the next request does what it should if and only if it
fits too or does not complete. -/
theorem posix_locks_refine (h : (posixSystem fInode).Reachable s) :
    (∀ i, RepInvariant s (s.iFlock i)) ∧
    ∀ t filp req result s', Step fInode s (.posix t filp req result) s' →
      (PosixWrites fInode s t filp req result s' ↔
        (result = some .ok → RequestFits s (fInode filp) t req)) := by
  obtain ⟨hinv, hrep⟩ := posixSystem_invariant h
  exact ⟨hrep, fun t filp req result s' hstep => posix_step_writes hinv hrep hstep⟩

/-- Task 1 makes a call for the file `0` with its records at `p`. -/
def setlk (s : Locks) (l : Flock) (p : LockPtr) : Option (Locks × Option Errno) :=
  fcntlSetlk id 8 s 1 0 0 0 l p (p + 1) (p + 2) true false

/-- It reads the bytes 0 to 10, then 5 to the end, then unlocks 0 to 10. -/
def reader : Locks × Option Errno := (setlk bootLocks ⟨.rdlck, 0, 0, 11⟩ 0).get (by decide)

def readerToEnd : Locks × Option Errno := (setlk reader.1 ⟨.rdlck, 0, 5, 0⟩ 3).get (by decide)

def readerUnlocked : Locks × Option Errno :=
  (setlk readerToEnd.1 ⟨.unlck, 0, 0, 11⟩ 6).get (by decide)

theorem setlk_step {s : Locks} {l : Flock} {r : Locks × Option Errno} (hrun : setlk s l p = some r)
    (idle : s.frame 1 = .idle) (fresh : ∀ q ∈ [p, p + 1, p + 2], s.allocated q = false)
    (hresult : r.2 = result) (hreq : (posixMakeLock 1 0 0 0 l).map FileLock.request = some req) :
    Step id s (.posix 1 0 req result) r.1 := by
  obtain ⟨s', result'⟩ := r
  obtain ⟨fl, hmake, hstep⟩ := fcntlSetlk_step idle fresh (by simp) hrun
  rw [hmake] at hreq
  cases hreq
  exact hresult ▸ hstep

theorem reachable_reader : (posixSystem id).Reachable reader.1 :=
  .step (.init boot_bootLocks)
    ⟨.posix 1 0 ⟨.rdlck, 0, 10⟩ (some .ok),
      setlk_step (some_get _).symm (by decide) (by decide) (by decide) (by decide),
      fun _ => .inr (.inl (by decide))⟩

theorem step_readerToEnd :
    Step id reader.1 (.posix 1 0 ⟨.rdlck, 5, offsetMax⟩ (some .ok)) readerToEnd.1 :=
  setlk_step (some_get _).symm (by decide) (by decide) (by decide) (by decide)

theorem step_readerUnlocked :
    Step id readerToEnd.1 (.posix 1 0 ⟨.unlck, 0, 10⟩ (some .ok)) readerUnlocked.1 :=
  setlk_step (some_get _).symm (by decide) (by decide) (by decide) (by decide)

/-- The second request is not merged with the first, and the third then finds
the wrong lock first and leaves byte 3 locked. -/
theorem reader_stays_locked :
    (posixSystem id).Reachable reader.1 ∧
    Step id reader.1 (.posix 1 0 ⟨.rdlck, 5, offsetMax⟩ (some .ok)) readerToEnd.1 ∧
    ¬RepInvariant readerToEnd.1 (readerToEnd.1.iFlock 0) ∧
    Step id readerToEnd.1 (.posix 1 0 ⟨.unlck, 0, 10⟩ (some .ok)) readerUnlocked.1 ∧
    heldType readerUnlocked.1 0 1 3 = some .rdlck := by
  refine ⟨reachable_reader, step_readerToEnd, fun hrep => ?_, step_readerUnlocked, by decide⟩
  have hpair := hrep.sorted.sublist (show [4, 1].Sublist (readerToEnd.1.iFlock 0) by decide)
  rw [pairwise_pair] at hpair
  exact absurd (hpair (by decide)).1 (by decide)

theorem posix_locks_refine_reader :
    PosixWrites id reader.1 1 0 ⟨.rdlck, 5, offsetMax⟩ (some .ok) readerToEnd.1 ↔
      (some Errno.ok = some .ok → RequestFits reader.1 0 1 ⟨.rdlck, 5, offsetMax⟩) :=
  (posix_locks_refine reachable_reader).2 _ _ _ _ _ step_readerToEnd

end

end Sbckernel.Fs
