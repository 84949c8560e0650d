import Sbckernel.Ipc.Ids
import Sbckernel.Lib.Reach

/-!
# Keys of IPC objects

`findkey` sees an object only if its slot is not above `max_semid`, and `newary`
raises `max_semid` when it has the memory, not when it takes the slot. A task that
sleeps in `kmalloc` with a slot above the bound is therefore invisible, and a second
call for the same key takes a slot of its own. The other gap is in `findkey`: it does
not start again after a sleep, so it misses an object that has been put into a slot
it has already passed.

These are the only two. In a run in which no slot is taken for a key while another
task allocates for it, and no object is put into a slot that a creating `findkey` for
its key has passed, a key has at most one object, and whatever a call returns is the
identifier of that one.
-/

namespace Sbckernel.Ipc.Ids

open Lib Function

variable {slots : Nat → Slot} {o : Object} {p : Phase} {max left : Nat}

/-- The slot holds an object with this key. -/
def Keyed (s : Table) (n : Nat) (key : Int) : Prop := ∃ o, s.slots n = .live o ∧ o.key = key

/-- The task is in `kmalloc` and has taken the slot. -/
def Allocates (s : Table) (t : Task) (r : Request) (id : Nat) : Prop :=
  ∃ left, s.phase t = .kmalloc r id left

structure Inv (s : Table) : Prop where
  bounded : ∀ n key, Keyed s n key → n ≤ s.maxId
  alone : ∀ m n key, key ≠ ipcPrivate → Keyed s m key → Keyed s n key → m = n
  reserved : ∀ t r id, Allocates s t r id → s.slots id = .noid
  owner : ∀ t t' r r' id, Allocates s t r id → Allocates s t' r' id → t = t'
  creator : ∀ t t' r r' id id', Allocates s t r id → Allocates s t' r' id' → r.key = r'.key →
    r.key ≠ ipcPrivate → t = t'
  fresh : ∀ t r id, Allocates s t r id → r.key ≠ ipcPrivate → ∀ n, ¬Keyed s n r.key
  passed : ∀ t r id, s.phase t = .findkey r id → r.creat = true → r.key ≠ ipcPrivate →
    ∀ n < id, ¬Keyed s n r.key

/-! ## `findkey` -/

section
variable {s s' : Table} {t : Task} {r : Request} {key : Int} {n id m : Nat}

/-- Where the loop has ended, in front of `e` at the latest. -/
def Scan.stop (e : Nat) : Scan → Nat
  | .found id | .sleep id => id
  | .missing => e

theorem findkeyLoop_passed {e : Nat} {r : Scan} (h : findkeyLoop slots key n id = r)
    (he : id + n = e) (hlo : id ≤ m) (hm : m < r.stop e) (ho : slots m = .live o) :
    o.key ≠ key := by
  induction n generalizing id with
  | zero =>
    cases h
    exact absurd hm (Nat.not_lt.mpr (he ▸ hlo))
  | succ n ih =>
    rw [findkeyLoop] at h
    by_cases heq : m = id
    · subst heq
      rw [ho] at h
      dsimp only at h
      split at h
      · cases h
        exact absurd hm (Nat.lt_irrefl m)
      next hne => exact Ne.symm hne
    · split at h
      · cases h
        exact absurd hm (Nat.not_lt.mpr hlo)
      · exact ih h (by omega) (by omega)
      · split at h
        · cases h
          exact absurd hm (Nat.not_lt.mpr hlo)
        · exact ih h (by omega) (by omega)

theorem findkeyLoop_found (h : findkeyLoop slots key n id = .found m) :
    ∃ o, slots m = .live o ∧ o.key = key := by
  induction n generalizing id with
  | zero => cases h
  | succ n ih =>
    rw [findkeyLoop] at h
    split at h
    · cases h
    · exact ih h
    next o ho =>
      split at h
      next hkey =>
        cases h
        exact ⟨o, ho, hkey.symm⟩
      · exact ih h

/-- A scan that ends, with what it has seen before. -/
theorem findkey_passed {scan : Scan} (hscan : findkey s key id = scan)
    (hpassed : ∀ n < id, ¬Keyed s n key) :
    ∀ n < scan.stop (id + (s.maxId + 1 - id)), ¬Keyed s n key := by
  rintro n hn ⟨o, ho, hkey⟩
  by_cases hlt : n < id
  · exact hpassed n hlt ⟨o, ho, hkey⟩
  · exact findkeyLoop_passed hscan rfl (Nat.not_lt.mp hlt) hn ho hkey

/-! ## Changes of a phase and of a slot -/

theorem goto_phase (s : Table) (t t' : Task) (p : Phase) :
    (goto s t p).phase t' = if t' = t then p else s.phase t' := update_apply ..

theorem Allocates.of_goto {t' : Task} (h : Allocates (goto s t p) t' r id) :
    (t' = t ∧ ∃ left, p = .kmalloc r id left) ∨ (t' ≠ t ∧ Allocates s t' r id) := by
  obtain ⟨left, hleft⟩ := h
  rw [goto_phase] at hleft
  split at hleft
  next ht => exact .inl ⟨ht, left, hleft⟩
  next ht => exact .inr ⟨ht, left, hleft⟩

/-- A task moves on; what it then claims must hold. -/
theorem Inv.goto (h : Inv s) (hkmalloc : ∀ r id left, p = .kmalloc r id left → s.slots id = .noid ∧
      (∀ t' ≠ t, ∀ r', ¬Allocates s t' r' id) ∧
      (r.key ≠ ipcPrivate → (∀ n, ¬Keyed s n r.key) ∧
        ∀ t' ≠ t, ∀ r' id', Allocates s t' r' id' → r'.key ≠ r.key))
    (hfindkey : ∀ r id, p = .findkey r id → r.creat = true → r.key ≠ ipcPrivate →
      ∀ n < id, ¬Keyed s n r.key) : Inv (goto s t p) where
  __ := h
  reserved := fun t' r id ha => by
    rcases ha.of_goto with ⟨-, left, hp⟩ | ⟨-, ha⟩
    · exact (hkmalloc r id left hp).1
    · exact h.reserved t' r id ha
  owner := fun t1 t2 r1 r2 id ha1 ha2 => by
    rcases ha1.of_goto with ⟨rfl, left1, hp1⟩ | ⟨hne1, hs1⟩ <;>
      rcases ha2.of_goto with ⟨ht2, left2, hp2⟩ | ⟨hne2, hs2⟩
    · exact ht2.symm
    · exact absurd hs2 ((hkmalloc r1 id left1 hp1).2.1 t2 hne2 r2)
    · subst ht2
      exact absurd hs1 ((hkmalloc r2 id left2 hp2).2.1 t1 hne1 r1)
    · exact h.owner t1 t2 r1 r2 id hs1 hs2
  creator := fun t1 t2 r1 r2 id1 id2 ha1 ha2 hkey hpriv => by
    rcases ha1.of_goto with ⟨rfl, left1, hp1⟩ | ⟨hne1, hs1⟩ <;>
      rcases ha2.of_goto with ⟨ht2, left2, hp2⟩ | ⟨hne2, hs2⟩
    · exact ht2.symm
    · exact absurd hkey.symm (((hkmalloc r1 id1 left1 hp1).2.2 hpriv).2 t2 hne2 r2 id2 hs2)
    · subst ht2
      exact absurd hkey
        (((hkmalloc r2 id2 left2 hp2).2.2 (hkey ▸ hpriv)).2 t1 hne1 r1 id1 hs1)
    · exact h.creator t1 t2 r1 r2 id1 id2 hs1 hs2 hkey hpriv
  fresh := fun t' r id ha hpriv => by
    rcases ha.of_goto with ⟨-, left, hp⟩ | ⟨-, ha⟩
    · exact ((hkmalloc r id left hp).2.2 hpriv).1
    · exact h.fresh t' r id ha hpriv
  passed := fun t' r id hphase => by
    rw [goto_phase] at hphase
    split at hphase
    · exact hfindkey r id hphase
    · exact h.passed t' r id hphase

theorem Inv.goto_idle (h : Inv s) : Inv (Ids.goto s t .idle) := h.goto nofun nofun

theorem Keyed.of_setSlot {x : Slot} {seq : Nat} {used : Int} (h : Keyed { s with
    slots := update s.slots id x, maxId := max, seq := seq, used := used } n key) :
    (n = id ∧ ∃ o, x = .live o ∧ o.key = key) ∨ (n ≠ id ∧ Keyed s n key) := by
  obtain ⟨o, ho, hkey⟩ := h
  change update s.slots id x n = .live o at ho
  by_cases hn : n = id
  · rw [hn, update_self] at ho
    exact .inl ⟨hn, o, ho, hkey⟩
  · rw [update_of_ne hn] at ho
    exact .inr ⟨hn, o, ho, hkey⟩

/-- One slot changes, and with it the bound. -/
theorem Inv.setSlot (h : Inv s) (id : Nat) (x : Slot) (max seq : Nat) (used : Int)
    (hmax : ∀ n key, n ≠ id → Keyed s n key → n ≤ max)
    (hnoid : ∀ t r, Allocates s t r id → x = .noid)
    (hlive : ∀ o, x = .live o → id ≤ max ∧ (o.key ≠ ipcPrivate →
      (∀ n ≠ id, ¬Keyed s n o.key) ∧ (∀ t r id', Allocates s t r id' → r.key ≠ o.key) ∧
      ∀ t r id', s.phase t = .findkey r id' → r.creat = true → r.key = o.key → id' ≤ id)) :
    Inv { s with slots := update s.slots id x, maxId := max, seq := seq, used := used } := by
  constructor
  case bounded =>
    intro n key hn
    rcases hn.of_setSlot with ⟨rfl, o, hx, -⟩ | ⟨hne, hn⟩
    · exact (hlive o hx).1
    · exact hmax n key hne hn
  case alone =>
    intro m n key hpriv hm hn
    rcases hm.of_setSlot with ⟨rfl, o, hx, rfl⟩ | ⟨hne, hm'⟩ <;>
      rcases hn.of_setSlot with ⟨hid, o', hx', hkey⟩ | ⟨hne', hn'⟩
    · exact hid.symm
    · exact absurd hn' (((hlive o hx).2 hpriv).1 n hne')
    · subst hid hkey
      exact absurd hm' (((hlive o' hx').2 hpriv).1 m hne)
    · exact h.alone m n key hpriv hm' hn'
  case reserved =>
    intro t r id' ha
    show update s.slots id x id' = .noid
    by_cases hid : id' = id
    · subst hid
      rw [update_self]
      exact hnoid t r ha
    · rw [update_of_ne hid]
      exact h.reserved t r id' ha
  case owner => exact h.owner
  case creator => exact h.creator
  case fresh =>
    intro t r id' ha hpriv n hn
    rcases hn.of_setSlot with ⟨-, o, hx, hkey⟩ | ⟨-, hn⟩
    · exact ((hlive o hx).2 (hkey ▸ hpriv)).2.1 t r id' ha hkey.symm
    · exact h.fresh t r id' ha hpriv n hn
  case passed =>
    intro t r id' hphase hcreat hpriv n hlt hn
    rcases hn.of_setSlot with ⟨rfl, o, hx, hkey⟩ | ⟨-, hn⟩
    · exact absurd (((hlive o hx).2 (hkey ▸ hpriv)).2.2 t r id' hphase hcreat hkey.symm)
        (Nat.not_le.mpr hlt)
    · exact h.passed t r id' hphase hcreat hpriv n hlt hn

/-! ## What a step keeps -/

/-- A step that opens neither of the two gaps: it takes no slot for a key for which another
task allocates, and puts no object where a `findkey` for its key has already been. -/
structure Careful (s s' : Table) : Prop where
  take : ∀ t r id, Allocates s' t r id → ¬Allocates s t r id → r.key ≠ ipcPrivate →
    ∀ t' r' id', Allocates s t' r' id' → r'.key ≠ r.key
  put : ∀ id o, s'.slots id = .live o → s.slots id = .noid → o.key ≠ ipcPrivate →
    ∀ t r id', s.phase t = .findkey r id' → r.creat = true → r.key = o.key → id' ≤ id

variable {K : Kind}

theorem newObject_inv (h : Inv s) (hnot : ∀ id, ¬Allocates s t r id)
    (habsent : r.key ≠ ipcPrivate → ∀ n, ¬Keyed s n r.key)
    (hcareful : Careful s (newObject K s t r).1) : Inv (newObject K s t r).1 := by
  rw [newObject] at hcareful ⊢
  split
  · exact h.goto_idle
  next hbad =>
    rw [if_neg hbad] at hcareful
    split
    · exact h.goto_idle
    next hfull =>
      rw [if_neg hfull] at hcareful
      split
      · exact h.goto_idle
      next id hfind =>
        rw [hfind] at hcareful
        have hunused : s.slots id = .unused := by simpa using List.find?_some hfind
        have hnone : ∀ t' r', ¬Allocates s t' r' id := fun t' r' ha => by
          cases hunused.symm.trans (h.reserved t' r' id ha)
        have hslot := h.setSlot id .noid s.maxId s.seq
          (if K.early then s.used + K.units r.size else s.used)
          (fun n key _ => h.bounded n key) (fun t' r' ha => absurd ha (hnone t' r')) (by simp)
        refine hslot.goto ?_ (by simp)
        rintro r' id' left hp
        cases hp
        refine ⟨update_self .., fun t' _ r' => hnone t' r', fun hpriv => ⟨?_, ?_⟩⟩
        · intro n hn
          rcases Keyed.of_setSlot hn with ⟨-, o, hx, -⟩ | ⟨-, hn⟩
          · cases hx
          · exact habsent hpriv n hn
        · intro t' _ r' id' ha
          exact hcareful.take t r id ⟨K.more, by rw [goto_phase, if_pos rfl]⟩
            (hnot id) hpriv t' r' id' ha

/-- A `kmalloc` returns. -/
theorem newAllocated_inv (h : Inv s) (hphase : s.phase t = .kmalloc r id left)
    (memory : Bool) (hcareful : Careful s (newAllocated K s t r id left memory).1) :
    Inv (newAllocated K s t r id left memory).1 := by
  have ha : Allocates s t r id := ⟨left, hphase⟩
  -- once the task is out of `kmalloc` the slot is nobody's
  have hidle : ∀ {t' r' id'}, Allocates (Ids.goto s t .idle) t' r' id' →
      t' ≠ t ∧ Allocates s t' r' id' := fun ha' =>
    ha'.of_goto.resolve_left fun ⟨_, _, hp⟩ => nomatch hp
  have hnone : ∀ t' r', ¬Allocates (Ids.goto s t .idle) t' r' id := fun t' r' ha' =>
    (hidle ha').1 (h.owner t' t r' r id (hidle ha').2 ha)
  unfold newAllocated at hcareful ⊢
  split
  · exact (h.goto_idle (t := t)).setSlot id .unused s.maxId s.seq _
      (fun n key _ => h.bounded n key) (fun t' r' ha' => absurd ha' (hnone t' r')) nofun
  next hmemory =>
    rw [if_neg hmemory] at hcareful
    cases left with
    | succ left =>
      refine h.goto ?_ nofun
      rintro r' id' left' hp
      cases hp
      exact ⟨h.reserved t r id ha, fun t' hne r' ha' => hne (h.owner t' t r' r id ha' ha),
        fun hpriv => ⟨h.fresh t r id ha hpriv, fun t' hne r' id' ha' hkey =>
          hne (h.creator t' t r' r id' id ha' ha hkey (hkey ▸ hpriv))⟩⟩
    | zero =>
      refine (h.goto_idle (t := t)).setSlot id (.live ⟨r.key, s.seq, r.size, false⟩)
        (if id > s.maxId then id else s.maxId) s.seq _ ?_
        (fun t' r' ha' => absurd ha' (hnone t' r')) ?_
      · intro n key _ hn
        have := h.bounded n key hn
        split <;> omega
      · rintro o ho
        cases ho
        refine ⟨by split <;> omega, fun hpriv => ⟨fun n _ => h.fresh t r id ha hpriv n, ?_, ?_⟩⟩
        · intro t' r' id' ha' hkey
          exact (hidle ha').1 (h.creator t' t r' r id' id (hidle ha').2 ha hkey (hkey ▸ hpriv))
        · intro t' r' id' hfind hcreat hkey
          rw [goto_phase] at hfind
          split at hfind
          · cases hfind
          · exact hcareful.put id _ (update_self ..) (h.reserved t r id ha) hpriv t' r' id'
              hfind hcreat hkey

/-- A `get` up to where it sleeps or returns. -/
theorem sysGetScanned_inv (h : Inv s) (hnot : ∀ id, ¬Allocates s t r id)
    (hpassed : r.creat = true → r.key ≠ ipcPrivate → ∀ n < id, ¬Keyed s n r.key)
    (hcareful : Careful s (sysGetScanned K s t r (findkey s r.key id)).1) :
    Inv (sysGetScanned K s t r (findkey s r.key id)).1 := by
  generalize hscan : findkey s r.key id = scan at hcareful ⊢
  cases scan with
  | sleep m =>
    refine h.goto nofun ?_
    rintro r' m' hp hcreat hpriv
    cases hp
    exact findkey_passed hscan (hpassed hcreat hpriv)
  | missing =>
    rw [sysGetScanned] at hcareful ⊢
    split
    · exact h.goto_idle
    next hcreat =>
      rw [if_neg hcreat] at hcareful
      refine newObject_inv h hnot (fun hpriv n hn => ?_) hcareful
      have hlt := h.bounded n r.key hn
      exact findkey_passed hscan (hpassed (not_not.mp hcreat) hpriv) n (by rw [Scan.stop]; omega) hn
  | found m =>
    rw [sysGetScanned]
    split <;> exact h.goto_idle

theorem le_lowerMax (hn : n < max) (hslot : slots n ≠ .unused) :
    n ≤ lowerMax slots max := by
  induction max with
  | zero => omega
  | succ max ih =>
    rw [lowerMax]
    split
    next hunused =>
      exact ih (Nat.lt_of_le_of_ne (Nat.le_of_lt_succ hn) fun heq => hslot (heq ▸ hunused))
    · exact Nat.le_of_lt_succ hn

theorem lower_eq (s : Table) (id : Nat) : lower s id =
    { s with maxId := if id = s.maxId then lowerMax s.slots s.maxId else s.maxId } := by
  rw [lower]
  split <;> rfl

/-- The two steps of a removal may come in either order. -/
theorem freeObject_eq (K : Kind) (s : Table) (id : Nat) (o : Object) :
    ∃ slots, (∀ n ≠ id, slots n = s.slots n) ∧ freeObject K s id o = { s with
      slots := update s.slots id .unused
      maxId := if id = s.maxId then lowerMax slots s.maxId else s.maxId
      seq := (s.seq + 1) % (2 ^ 31 / K.mni) % 65536
      used := s.used - K.units o.size } := by
  cases K with
  | shm =>
    refine ⟨update s.slots id .unused, fun n hne => update_of_ne hne .., ?_⟩
    rw [freeObject, lower_eq]
    rfl
  | sem | msg =>
    refine ⟨s.slots, fun _ _ => rfl, ?_⟩
    rw [freeObject, lower_eq]
    · rfl
    · exact nofun

theorem freeObject_inv (h : Inv s) (ho : s.slots id = .live o) : Inv (freeObject K s id o) := by
  obtain ⟨slots, hslots, heq⟩ := freeObject_eq K s id o
  rw [heq]
  refine h.setSlot id .unused _ _ _ ?_ ?_ nofun
  · intro n key hne hn
    have hle := h.bounded n key hn
    split
    next hid =>
      obtain ⟨o', ho', -⟩ := hn
      refine le_lowerMax (Nat.lt_of_le_of_ne hle fun heq => hne (heq.trans hid.symm)) ?_
      rw [hslots n hne, ho']
      exact nofun
    · exact hle
  · intro t r ha
    cases ho.symm.trans (h.reserved t r id ha)

/-- A segment is marked; its key stays. -/
theorem dest_inv (h : Inv s) (ho : s.slots id = .live o) :
    Inv { s with slots := update s.slots id (.live { o with dest := true }) } := by
  refine h.setSlot id _ s.maxId s.seq s.used (fun n key _ => h.bounded n key) ?_ ?_
  · intro t r ha
    cases ho.symm.trans (h.reserved t r id ha)
  · rintro o' ho'
    cases ho'
    refine ⟨h.bounded id o.key ⟨o, ho, rfl⟩, fun hpriv => ⟨?_, ?_, ?_⟩⟩
    · exact fun n hne hn => hne (h.alone n id o.key hpriv hn ⟨o, ho, rfl⟩)
    · exact fun t r id' ha hkey => h.fresh t r id' ha (hkey ▸ hpriv) id ⟨o, ho, hkey.symm⟩
    · intro t r id' hphase hcreat hkey
      exact Nat.not_lt.mp fun hlt =>
        h.passed t r id' hphase hcreat (hkey ▸ hpriv) id hlt ⟨o, ho, hkey.symm⟩

/-! ## What a call returns -/

/-- The request of the call that takes the step. -/
def requestOf (s : Table) : Action → Option Request
  | .get _ r => some r
  | .wake t =>
    match s.phase t with
    | .findkey r _ => some r
    | _ => none
  | .kmalloc t _ =>
    match s.phase t with
    | .kmalloc r _ _ => some r
    | _ => none
  | _ => none

/-- The identifier of a live object with this key. -/
def Identifies (K : Kind) (s : Table) (key : Int) (i : Nat) : Prop :=
  ∃ n o, s.slots n = .live o ∧ o.key = key ∧ i = o.seq * K.mni + n

variable {i : Nat}

theorem newObject_result (s : Table) (t : Task) (r : Request) :
    (newObject K s t r).2 ≠ some (.ok i) := by
  rw [newObject]
  repeat' split
  all_goals simp

theorem sysGetScanned_ok (h : (sysGetScanned K s t r (findkey s r.key id)).2 = some (.ok i)) :
    Identifies K (sysGetScanned K s t r (findkey s r.key id)).1 r.key i := by
  generalize hscan : findkey s r.key id = scan at h ⊢
  cases scan with
  | sleep m => cases h
  | missing =>
    rw [sysGetScanned] at h
    split at h
    · cases h
    · exact absurd h (newObject_result s t r)
  | found m =>
    obtain ⟨o, ho, hkey⟩ := findkeyLoop_found hscan
    rw [sysGetScanned, ho] at h ⊢
    refine ⟨m, o, ho, hkey, ?_⟩
    dsimp only at h
    cases hex : K.existing r o with
    | error e =>
      rw [hex] at h
      cases h
    | ok =>
      rw [hex] at h
      cases h
      rfl

theorem newAllocated_ok {memory : Bool}
    (h : (newAllocated K s t r id left memory).2 = some (.ok i)) :
    Identifies K (newAllocated K s t r id left memory).1 r.key i := by
  unfold newAllocated at h ⊢
  split at h
  · cases h
  next hmemory =>
    rw [if_neg hmemory]
    cases left with
    | succ left => cases h
    | zero =>
      cases h
      exact ⟨id, _, update_self .., rfl, rfl⟩

/-- What a step keeps, and what it returns. -/
theorem step_spec {a : Action} {out : Table × Option Result} (h : Inv s)
    (hstep : step K s a = some out) (hcareful : Careful s out.1) :
    Inv out.1 ∧ ∀ i, out.2 = some (.ok i) →
      ∃ r, requestOf s a = some r ∧ Identifies K out.1 r.key i := by
  cases a with
  | get t r =>
    rw [step] at hstep
    split at hstep
    next hidle =>
      have hnot : ∀ id, ¬Allocates s t r id := fun id ⟨_, ha⟩ => by cases hidle.symm.trans ha
      have hout : sysGet K s t r = out := Option.some.inj hstep
      rw [sysGet] at hout
      split at hout
      · subst hout
        exact ⟨h.goto_idle, nofun⟩
      split at hout
      next hpriv =>
        subst hout
        exact ⟨newObject_inv h hnot (fun hne => absurd hpriv hne) hcareful,
          fun _ hi => absurd hi (newObject_result s t r)⟩
      · subst hout
        exact ⟨sysGetScanned_inv h hnot (fun _ _ n hn => absurd hn (Nat.not_lt_zero n)) hcareful,
          fun _ hi => ⟨r, rfl, sysGetScanned_ok hi⟩⟩
    · cases hstep
  | wake t =>
    rw [step] at hstep
    split at hstep
    next r id hphase =>
      have hnot : ∀ id, ¬Allocates s t r id := fun id ⟨_, ha⟩ => by cases hphase.symm.trans ha
      cases hstep
      exact ⟨sysGetScanned_inv h hnot (h.passed t r id hphase) hcareful,
        fun _ hi => ⟨r, by rw [requestOf, hphase], sysGetScanned_ok hi⟩⟩
    · cases hstep
  | kmalloc t memory =>
    rw [step] at hstep
    split at hstep
    next r id left hphase =>
      cases hstep
      exact ⟨newAllocated_inv h hphase memory hcareful,
        fun _ hi => ⟨r, by rw [requestOf, hphase], newAllocated_ok hi⟩⟩
    · cases hstep
  | remove id =>
    rw [step] at hstep
    split at hstep
    next o ho =>
      cases hstep
      exact ⟨freeObject_inv h ho, nofun⟩
    · cases hstep
  | dest id =>
    unfold step at hstep
    dsimp only at hstep
    split at hstep
    next o ho =>
      cases hstep
      exact ⟨dest_inv h ho, nofun⟩
    · cases hstep

/-! ## Every run -/

/-- All interleavings. -/
def gets (K : Kind) : System Table where
  init := fun s => s = init
  step := fun s s' => ∃ a out, step K s a = some (s', out)

/-- The runs without the two gaps. -/
def carefulGets (K : Kind) : System Table where
  init := fun s => s = init
  step := fun s s' => (∃ a out, step K s a = some (s', out)) ∧ Careful s s'

theorem inv_init : Inv init where
  bounded := fun _ _ ⟨_, ho, _⟩ => nomatch ho
  alone := fun _ _ _ _ ⟨_, ho, _⟩ => nomatch ho
  reserved := fun _ _ _ ⟨_, ha⟩ => nomatch ha
  owner := fun _ _ _ _ _ ⟨_, ha⟩ => nomatch ha
  creator := fun _ _ _ _ _ _ ⟨_, ha⟩ => nomatch ha
  fresh := fun _ _ _ ⟨_, ha⟩ => nomatch ha
  passed := nofun

theorem carefulGets_inv (h : (carefulGets K).Reachable s) : Inv s :=
  h.invariant (fun _ h0 => h0 ▸ inv_init) fun _ _ hinv ⟨⟨_, _, hstep⟩, hcareful⟩ =>
    (step_spec hinv hstep hcareful).1

theorem Inv.identifies_unique (h : Inv s) {j : Nat} (hkey : key ≠ ipcPrivate)
    (hi : Identifies K s key i) (hj : Identifies K s key j) : j = i := by
  obtain ⟨m, o, ho, hm, rfl⟩ := hi
  obtain ⟨n, o', ho', hn, rfl⟩ := hj
  have heq := h.alone m n key hkey ⟨o, ho, hm⟩ ⟨o', ho', hn⟩
  subst heq
  cases ho.symm.trans ho'
  rfl

/-- One object for a key, and every call for the key that succeeds returns its identifier. -/
theorem keys_unique (h : (carefulGets K).Reachable s) :
    (∀ m n o o', s.slots m = .live o → s.slots n = .live o' → o.key = o'.key →
      o.key ≠ ipcPrivate → m = n) ∧
    ∀ a s' i, step K s a = some (s', some (.ok i)) → Careful s s' →
      ∃ r, requestOf s a = some r ∧ Identifies K s' r.key i ∧
        (r.key ≠ ipcPrivate → ∀ j, Identifies K s' r.key j → j = i) := by
  have hinv := carefulGets_inv h
  refine ⟨fun m n o o' ho ho' hkey hpriv => ?_, fun a s' i hstep hcareful => ?_⟩
  · exact hinv.alone m n o.key hpriv ⟨o, ho, rfl⟩ ⟨o', ho', hkey.symm⟩
  · obtain ⟨hinv', hok⟩ := step_spec hinv hstep hcareful
    obtain ⟨r, hr, hi⟩ := hok i rfl
    exact ⟨r, hr, hi, fun hpriv j hj => hinv'.identifies_unique hpriv hi hj⟩

end

/-! ## Runs through the gaps -/

/-- A call that creates an object of size 1. -/
def create (key : Int) : Request := ⟨key, 1, true, false, true⟩

/-- All allocations of a call succeed. -/
def allocate (K : Kind) (t : Task) : List Action := List.replicate (K.more + 1) (.kmalloc t true)

/-- Slot 0 is in use. Tasks 1 and 2 take slots 1 and 2, both above the bound. -/
def invisible (K : Kind) : List Action :=
  [.get 0 (create 7)] ++ allocate K 0 ++ [.get 1 (create 5), .get 2 (create 5)] ++
    allocate K 1 ++ allocate K 2

/-- Slots 0 to 2 are in use, 1 is freed and taken by task 3, 0 is freed. Tasks 1 and 2 sleep
at slot 1; then task 1 creates its object in slot 0, which task 2 has passed. -/
def overtaken (K : Kind) : List Action :=
  [.get 0 (create 7)] ++ allocate K 0 ++ [.get 0 (create 8)] ++ allocate K 0 ++
    [.get 0 (create 9)] ++ allocate K 0 ++ [.remove 1, .get 3 (create 8), .remove 0] ++
    [.get 1 (create 5), .get 2 (create 5)] ++ allocate K 3 ++ [.wake 1] ++ allocate K 1 ++
    [.wake 2] ++ allocate K 2

theorem run_two {K : Kind} {l : List Action} {m n : Nat} {o' : Object}
    (h : (System.runActions (step K) init l).map (fun s => (s.slots m, s.slots n)) =
      some (.live o, .live o')) :
    ∃ s, (gets K).Reachable s ∧ s.slots m = .live o ∧ s.slots n = .live o' := by
  obtain ⟨s, hrun, hslots⟩ := Option.map_eq_some_iff.mp h
  obtain ⟨hm, hn⟩ := Prod.mk.inj hslots
  have hinit : (gets K).Reachable init := .init rfl
  exact ⟨s, hinit.runActions (fun _ a _ out hstep => ⟨a, out, hstep⟩) hrun, hm, hn⟩

/-- Two live objects with the key 5, through either gap. -/
def TwoLive (K : Kind) : Prop :=
  (∃ s, (gets K).Reachable s ∧
    s.slots 1 = .live ⟨5, 0, 1, false⟩ ∧ s.slots 2 = .live ⟨5, 0, 1, false⟩) ∧
  ∃ s, (gets K).Reachable s ∧
    s.slots 0 = .live ⟨5, 2, 1, false⟩ ∧ s.slots 3 = .live ⟨5, 2, 1, false⟩

theorem twoLive (K : Kind) : TwoLive K := by
  refine ⟨run_two (l := invisible K) ?_, run_two (l := overtaken K) ?_⟩ <;>
    cases K <;> decide

theorem keys_not_unique : TwoLive .sem ∧ TwoLive .msg ∧ TwoLive .shm :=
  ⟨twoLive .sem, twoLive .msg, twoLive .shm⟩

/-! A run without a gap: one task creates a set, another asks for it. -/

def taken : Table := (sysGet .sem init 0 (create 5)).1

def created : Table := (newAllocated .sem taken 0 (create 5) 0 0 true).1

theorem taken_phase : ∀ t, taken.phase t = .idle ∨ taken.phase t = .kmalloc (create 5) 0 0 := by
  decide +kernel

theorem created_idle : ∀ t, created.phase t = .idle := by decide +kernel

theorem careful_of_idle {s s' : Table} (hs : ∀ t, s.phase t = .idle) : Careful s s' where
  take := fun _ _ _ _ _ _ t' _ _ ⟨_, ha⟩ => by cases (hs t').symm.trans ha
  put := fun _ _ _ _ _ t _ _ hphase => by cases (hs t).symm.trans hphase

theorem careful_taken_created : Careful taken created where
  take := fun t _ _ ⟨_, ha⟩ => by cases (created_idle t).symm.trans ha
  put := fun _ _ _ _ _ t _ _ hphase => by
    rcases taken_phase t with h | h <;> cases h.symm.trans hphase

theorem created_reachable : (carefulGets .sem).Reachable created :=
  .step (.step (.init rfl) ⟨⟨.get 0 (create 5), none, rfl⟩, careful_of_idle fun _ => rfl⟩)
    ⟨⟨.kmalloc 0 true, some (.ok 0), rfl⟩, careful_taken_created⟩

theorem keys_unique_second : ∃ s', step .sem created (.get 1 (create 5)) = some (s', some (.ok 0)) ∧
    Identifies .sem s' 5 0 ∧ ∀ j, Identifies .sem s' 5 j → j = 0 := by
  have hstep : step .sem created (.get 1 (create 5)) =
      some (goto created 1 .idle, some (.ok 0)) := rfl
  obtain ⟨r, hr, hi, hall⟩ := (keys_unique created_reachable).2 _ _ _ hstep
    (careful_of_idle created_idle)
  cases hr
  exact ⟨_, hstep, hi, hall (by decide)⟩

end Sbckernel.Ipc.Ids
