import Mathlib.Data.Fintype.Prod
import Sbckernel.Fs.Dcache
import Sbckernel.Lib.Queues

/-!
# The links of the directory cache and the lists they stand for

The links are read as three lists: the entries that hold a name, in the order in which
they were filled, and the entries of each level from its head on. A hash queue is the
part of the first list with its hash, and a level's circle is its list. Every call then
does on the links what it does on the lists (`step_refines`); in particular no null link
is followed and every walk along a queue ends.
-/

namespace Sbckernel.Fs.Dcache

open Lib Function List

variable {dir : Inode} {name : List UInt8} {d : Data} {q : Fin 32} {l : List Entry} {level : Level}

/-! ## The cache as lists -/

/-- The entries that hold a name, the last one filled first, and the entries of each level in
the order in which they will be used again. -/
structure Cache where
  entries : List (Entry × Data)
  lru1 : List Entry
  lru2 : List Entry

namespace Cache

variable (c : Cache)

def lru : Level → List Entry
  | .level1 => c.lru1
  | .level2 => c.lru2

def setLru (level : Level) (l : List Entry) : Cache :=
  match level with
  | .level1 => { c with lru1 := l }
  | .level2 => { c with lru2 := l }

/-- The entry goes to the end of its level. -/
def touch (de : Entry) : Cache :=
  c.setLru de.level ((c.lru de.level).erase de ++ [de])

def find (dir : Inode) (name : List UInt8) : Option (Entry × Data) :=
  c.entries.find? fun x => Matches dir name x.2

def without (de : Entry) : List (Entry × Data) := c.entries.filter fun x => x.1 ≠ de

/-- The first entry of the level is used again. -/
def fill (level : Level) (d : Data) : Cache :=
  match c.lru level with
  | [] => c
  | de :: rest => { c.setLru level (rest ++ [de]) with entries := (de, d) :: c.without de }

def setIno (de : Entry) (ino : UInt32) : Cache :=
  { c with entries := c.entries.map fun x =>
    if x.1 = de then (x.1, { x.2 with ino := ino }) else x }

def moveToLevel2 (de : Entry) (d : Data) : Cache :=
  if de.level = .level2 then c.touch de else c.fill .level2 d

def lookup (dir : Inode) (name : List UInt8) : Cache × Option UInt32 :=
  if name.length > dcacheNameLen then (c, none)
  else
    match c.find dir name with
    | none => (c, none)
    | some (de, d) => (c.moveToLevel2 de d, some d.ino)

def add (dir : Inode) (name : List UInt8) (ino : UInt32) : Cache :=
  if name.length > dcacheNameLen then c
  else
    match c.find dir name with
    | some (de, _) => (c.setIno de ino).touch de
    | none => c.fill .level1 ⟨dir.iDev, dir.iIno, dir.iVersion, ino, name⟩

def step : Call → Cache × Option UInt32
  | .lookup dir name => c.lookup dir name
  | .add dir name ino => (c.add dir name ino, none)

def init : Cache where
  entries := []
  lru1 := (List.range 128).map (entryAt .level1)
  lru2 := (List.range 128).map (entryAt .level2)

end Cache

/-! ## What the links stand for -/

def hashOf (d : Data) : Fin 32 := hashFn ⟨d.dcDev, d.dir, d.version⟩ d.name

/-- The part of the entries in a hash queue. -/
def queued (entries : List (Entry × Data)) (q : Fin 32) : List (Entry × Data) :=
  entries.filter fun x => hashOf x.2 = q

def chain (entries : List (Entry × Data)) (q : Fin 32) : List Node :=
  (queued entries q).map fun x => .entry x.1

structure Refines (s : State) (c : Cache) : Prop where
  data : ∀ x ∈ c.entries, s.data x.1 = x.2
  nodup : (c.entries.map Prod.fst).Nodup
  queues : Queues Node.hash s.next s.prev (chain c.entries)
  lru : ∀ level, Circle s.nextLru s.prevLru (c.lru level)
  head : ∀ level, (c.lru level).head? = some (s.head level)
  level : ∀ level de, de ∈ c.lru level ↔ de.level = level
  lruNodup : ∀ level, (c.lru level).Nodup

theorem Matches.hashOf (h : Matches dir name d) : hashOf d = hashFn dir name := by
  obtain ⟨hdev, hino, hversion, hname⟩ := h
  rw [Dcache.hashOf, hdev, hino, hversion, hname]

theorem mem_chain {entries : List (Entry × Data)} {n : Node} :
    n ∈ chain entries q ↔ ∃ x ∈ entries, hashOf x.2 = q ∧ n = .entry x.1 := by
  simp only [chain, queued, mem_map, mem_filter, decide_eq_true_eq, and_assoc, eq_comm (a := n)]

/-- There are 256 entries. -/
theorem length_le_of_nodup (h : l.Nodup) : l.length ≤ 256 := by
  have hinj : Injective fun de : Entry => (decide (de.level = .level1), de.index) := by
    rintro ⟨level, i⟩ ⟨level', j⟩ heq
    obtain ⟨hlevel, hindex⟩ := Prod.mk.inj heq
    cases level <;> cases level' <;> simp_all
  have hle := List.Nodup.length_le_card (h.map hinj)
  simpa using hle

section
variable {s : State} {c : Cache} {de : Entry}

/-! ## The levels -/

theorem lru_setLru (c : Cache) (level level' : Level) (l : List Entry) :
    (c.setLru level l).lru level' = if level' = level then l else c.lru level' := by
  cases level <;> cases level' <;> rfl

theorem entries_setLru (c : Cache) (level : Level) (l : List Entry) :
    (c.setLru level l).entries = c.entries := by
  cases level <;> rfl

section
variable (h : Refines s c)
include h

theorem Refines.lru_eq (level : Level) : ∃ rest, c.lru level = s.head level :: rest :=
  head?_eq_some_iff.mp (h.head level)

/-- A level whose circle has been relinked in another order. -/
theorem Refines.relink {s' : State}
    (hdata : s'.data = s.data) (hnext : s'.next = s.next) (hprev : s'.prev = s.prev)
    (hnextLru : ∀ de : Entry, de.level ≠ level → s'.nextLru de = s.nextLru de)
    (hprevLru : ∀ de : Entry, de.level ≠ level → s'.prevLru de = s.prevLru de)
    (hothers : ∀ level' ≠ level, s'.head level' = s.head level')
    (hcircle : Circle s'.nextLru s'.prevLru l) (hhead : l.head? = some (s'.head level))
    (hperm : l.Perm (c.lru level)) : Refines s' (c.setLru level l) where
  data := by
    rw [entries_setLru, hdata]
    exact h.data
  nodup := by
    rw [entries_setLru]
    exact h.nodup
  queues := by
    rw [entries_setLru, hnext, hprev]
    exact h.queues
  lru level' := by
    rw [lru_setLru]
    split
    · exact hcircle
    next hne =>
      refine (h.lru level').congr (fun de hde => ?_) (fun de hde => ?_)
      all_goals rw [h.level] at hde
      · exact hnextLru de (hde ▸ hne)
      · exact hprevLru de (hde ▸ hne)
  head level' := by
    rw [lru_setLru]
    split
    next heq =>
      rw [heq]
      exact hhead
    next hne =>
      rw [hothers level' hne]
      exact h.head level'
  level level' de := by
    rw [lru_setLru]
    split
    next heq => rw [hperm.mem_iff, h.level, heq]
    · exact h.level level' de
  lruNodup level' := by
    rw [lru_setLru]
    split
    · exact hperm.nodup_iff.mpr (h.lruNodup level)
    · exact h.lruNodup level'

theorem advance_refines {rest : List Entry} (hlru : c.lru level = s.head level :: rest) :
    Refines (advance s level) (c.setLru level (rest ++ [s.head level])) := by
  have hcircle := h.lru level
  rw [hlru] at hcircle
  obtain ⟨hturned, hhead⟩ := hcircle.turn
  refine h.relink rfl rfl rfl (fun _ _ => rfl) (fun _ _ => rfl) (fun level' hne => ?_) hturned ?_ ?_
  · exact update_of_ne hne ..
  · rw [hhead]
    exact congrArg some (update_self (f := s.head) level (s.nextLru (s.head level))).symm
  · rw [hlru]
    exact perm_append_singleton ..

theorem updateLru_refines (de : Entry) : Refines (updateLru s de) (c.touch de) := by
  obtain ⟨rest, hlru⟩ := h.lru_eq de.level
  rw [updateLru, Cache.touch]
  split
  next heq =>
    have hadvance := advance_refines h hlru
    rw [← heq] at hlru hadvance
    rw [hlru, erase_cons_head]
    exact hadvance
  next hne =>
    have hde : de ∈ c.lru de.level := (h.level _ _).mpr rfl
    have hcircle := h.lru de.level
    have hnd := h.lruNodup de.level
    rw [hlru] at hcircle hnd
    have hrest : de ∈ rest := (mem_cons.mp (hlru ▸ hde)).resolve_left hne
    have herase : (c.lru de.level).erase de ++ [de] =
        s.head de.level :: (rest.erase de ++ [de]) := by
      rw [hlru, erase_cons_tail (by simpa using Ne.symm hne), cons_append]
    have hprev : ∀ x ∈ c.lru de.level, update s.prevLru (s.nextLru de) (s.prevLru de) x ∈
        c.lru de.level := by
      intro x hx
      by_cases hxn : x = s.nextLru de
      · rw [hxn, update_self]
        exact ((h.lru _).mem hde).2
      · rw [update_of_ne hxn]
        exact ((h.lru _).mem hx).2
    have hout : ∀ x ∈ c.lru de.level, ∀ y : Entry, y.level ≠ de.level → y ≠ x := by
      rintro x hx y hy rfl
      exact hy ((h.level _ _).mp hx)
    have hhead : s.head de.level ∈ c.lru de.level := by
      rw [hlru]
      exact mem_cons_self
    rw [herase]
    refine h.relink rfl rfl rfl (fun y hy => ?_) (fun y hy => ?_) (fun _ _ => rfl)
      (hcircle.move hnd hrest) rfl ?_
    · exact (update_of_ne (hout _ (hprev _ hhead) y hy) ..).trans
        ((update_of_ne (hout _ hde y hy) ..).trans
          (update_of_ne (hout _ ((h.lru _).mem hde).2 y hy) ..))
    · exact (update_of_ne (hout _ hhead y hy) ..).trans
        ((update_of_ne (hout _ hde y hy) ..).trans
          (update_of_ne (hout _ ((h.lru _).mem hde).1 y hy) ..))
    · rw [hlru]
      exact ((perm_append_singleton ..).trans (perm_cons_erase hrest).symm).cons _

/-! ## The hash queues -/

omit h in
theorem Refines.head_ne_entry (q : Fin 32) : Node.entry de ≠ .hash q := by
  intro h
  cases h

omit h in
theorem chain_without (c : Cache) (de : Entry) (q : Fin 32) :
    chain (c.without de) q = (chain c.entries q).filter fun n => n ≠ .entry de := by
  simp only [chain, queued, Cache.without, filter_filter, filter_map]
  congr 1
  refine filter_congr fun x _ => ?_
  simp [Bool.and_comm]

/-- The entry leaves its queue, if it is in one. -/
theorem removeHash_refines (de : Entry) :
    ∃ s', removeHash s de = some s' ∧ Refines s' { c with entries := c.without de } ∧
      s'.data = s.data := by
  have hsub : c.without de ⊆ c.entries := filter_subset_self _
  have hnodup : ((c.without de).map Prod.fst).Nodup :=
    h.nodup.sublist (filter_sublist.map _)
  by_cases hde : ∃ d, (de, d) ∈ c.entries
  · obtain ⟨d, hd⟩ := hde
    have hmem : Node.entry de ∈ chain c.entries (hashOf d) := mem_chain.mpr ⟨_, hd, rfl, rfl⟩
    obtain ⟨p, n, hp, hn, hqueues⟩ := h.queues.erase hmem
    have hchain : chain (c.without de) = update (chain c.entries) (hashOf d)
        ((chain c.entries (hashOf d)).erase (.entry de)) := by
      funext q
      rw [chain_without]
      by_cases hq : q = hashOf d
      · subst hq
        rw [update_self, (h.queues.nodup _).erase_eq_filter]
        refine filter_congr fun x _ => ?_
        rw [decide_not]
        rfl
      · rw [update_of_ne hq, filter_eq_self]
        intro n hn
        refine decide_eq_true fun heq => hq ?_
        exact h.queues.apart _ _ _ (heq ▸ hn) hmem
    rw [← hchain] at hqueues
    refine ⟨unlink s de n p, ?_, ⟨fun x hx => h.data x (hsub hx), hnodup, hqueues, h.lru, h.head,
      h.level, h.lruNodup⟩, rfl⟩
    rw [removeHash, hn, hp]
    rfl
  · have hfree : s.next (.entry de) = none := by
      refine h.queues.free _ (fun q => Refines.head_ne_entry q) fun q hq => ?_
      obtain ⟨x, hx, -, ⟨⟩⟩ := mem_chain.mp hq
      exact hde ⟨x.2, hx⟩
    have hsame : c.without de = c.entries := by
      refine filter_eq_self.mpr fun x hx => decide_eq_true fun heq => hde ⟨x.2, ?_⟩
      rw [← heq]
      exact hx
    refine ⟨s, by rw [removeHash, hfree], ?_, rfl⟩
    rw [hsame]
    exact h

omit h in
theorem chain_cons (de : Entry) (d : Data) (l : List (Entry × Data)) :
    chain ((de, d) :: l) = update (chain l) (hashOf d) (.entry de :: chain l (hashOf d)) := by
  funext q
  by_cases hq : q = hashOf d
  · subst hq
    simp [chain, queued]
  · simp [chain, queued, hq, Ne.symm hq]

/-- An entry that is in no queue is filled and goes into one. -/
theorem addHash_refines (hde : ∀ x ∈ c.entries, x.1 ≠ de) :
    ∃ s', addHash { s with data := update s.data de d } de (hashOf d) = some s' ∧
      Refines s' { c with entries := (de, d) :: c.entries } := by
  have hout : ∀ q, Node.entry de ∉ chain c.entries q := by
    intro q hq
    obtain ⟨x, hx, -, ⟨⟩⟩ := mem_chain.mp hq
    exact hde x hx rfl
  obtain ⟨n, hn, hqueues⟩ := h.queues.push (hashOf d) (fun q => Refines.head_ne_entry q) hout
  rw [← chain_cons] at hqueues
  refine ⟨link { s with data := update s.data de d } de (hashOf d) n, ?_, forall_mem_cons.mpr
    ⟨update_self .., fun x hx => (update_of_ne (hde x hx) ..).trans (h.data x hx)⟩,
    ?_, hqueues, h.lru, h.head, h.level, h.lruNodup⟩
  · rw [addHash, hn]
    rfl
  · refine nodup_cons.mpr ⟨fun hmem => ?_, h.nodup⟩
    obtain ⟨x, hx, heq⟩ := mem_map.mp hmem
    exact hde x hx heq

theorem fill_refines (level : Level) (d : Data) :
    ∃ s', fill (advance s level) (s.head level) d (hashOf d) = some s' ∧
      Refines s' (c.fill level d) := by
  obtain ⟨rest, hlru⟩ := h.lru_eq level
  obtain ⟨s1, hremove, hrefines, -⟩ := removeHash_refines (advance_refines h hlru) (s.head level)
  have hout : ∀ x ∈ (c.setLru level (rest ++ [s.head level])).without (s.head level),
      x.1 ≠ s.head level := fun x hx => of_decide_eq_true (mem_filter.mp hx).2
  obtain ⟨s2, hadd, hrefines2⟩ := addHash_refines hrefines (d := d) hout
  refine ⟨s2, ?_, ?_⟩
  · rw [fill, hremove]
    exact hadd
  · rw [Cache.fill, hlru]
    rw [Cache.without, entries_setLru] at hrefines2
    exact hrefines2

/-! ## `find_entry` -/

omit h in
/-- The walk along a queue. -/
theorem findFrom_eq {l : List (Entry × Data)}
    {a : Node} {fuel : Nat} (hdata : ∀ x ∈ l, s.data x.1 = x.2)
    (hseg : Seg s.next s.prev a (l.map fun x => .entry x.1) (.hash q)) (hfuel : l.length < fuel) :
    (s.next a).bind (findFrom s dir name q fuel) =
      some ((l.find? fun x => Matches dir name x.2).map Prod.fst) := by
  induction l generalizing a fuel with
  | nil =>
    obtain ⟨fuel, rfl⟩ := Nat.exists_eq_succ_of_ne_zero (Nat.ne_of_gt hfuel)
    rw [hseg.1, Option.bind_some, findFrom, if_pos rfl]
    rfl
  | cons x l ih =>
    obtain ⟨fuel, rfl⟩ := Nat.exists_eq_succ_of_ne_zero (Nat.ne_zero_of_lt hfuel)
    obtain ⟨hnext, -, hrest⟩ := hseg
    rw [hnext, Option.bind_some, findFrom, hdata x mem_cons_self]
    by_cases hm : Matches dir name x.2
    · rw [if_pos hm, find?_cons, decide_eq_true hm]
      rfl
    · rw [if_neg hm, find?_cons, decide_eq_false hm]
      exact ih (fun y hy => hdata y (mem_cons_of_mem _ hy)) hrest (Nat.lt_of_succ_lt_succ hfuel)

omit h in
/-- What is looked for can only be in the queue of its hash. -/
theorem find_queued (l : List (Entry × Data)) (dir : Inode) (name : List UInt8) :
    (queued l (hashFn dir name)).find? (fun x => Matches dir name x.2) =
      l.find? fun x => Matches dir name x.2 := by
  rw [queued, find?_filter]
  congr 1
  funext x
  by_cases hm : Matches dir name x.2
  · simp [hm, hm.hashOf]
  · simp [hm]

theorem findEntry_eq (dir : Inode) (name : List UInt8) :
    findEntry s dir name = some ((c.find dir name).map Prod.fst) := by
  rw [findEntry, Cache.find, ← find_queued]
  by_cases hnil : queued c.entries (hashFn dir name) = []
  · rw [hnil, h.queues.alone _ (by rw [chain, hnil]; rfl), Option.bind_some, findFrom, if_pos rfl]
    rfl
  · have hsub : queued c.entries (hashFn dir name) ⊆ c.entries := filter_subset_self _
    have hnodup : ((queued c.entries (hashFn dir name)).map Prod.fst).Nodup :=
      h.nodup.sublist (filter_sublist.map _)
    have hlength := length_le_of_nodup hnodup
    rw [length_map] at hlength
    refine findFrom_eq (fun x hx => h.data x (hsub hx)) (h.queues.ring _ ?_) (by omega)
    rw [chain, Ne, map_eq_nil_iff]
    exact hnil

/-! ## The calls -/

omit h in
theorem find_matches {x : Entry × Data} (h : c.find dir name = some x) : Matches dir name x.2 := by
  have hx := find?_some h
  exact of_decide_eq_true hx

omit h in
theorem chain_setIno (c : Cache) (de : Entry) (ino : UInt32) :
    chain (c.setIno de ino).entries = chain c.entries := by
  funext q
  simp only [chain, queued, Cache.setIno]
  induction c.entries with
  | nil => rfl
  | cons x l ih =>
    have hhash : hashOf (if x.1 = de then (x.1, { x.2 with ino := ino }) else x).2 =
        hashOf x.2 := by
      split <;> rfl
    have hfst : (if x.1 = de then (x.1, { x.2 with ino := ino }) else x).1 = x.1 := by
      split <;> rfl
    rw [map_cons, filter_cons, filter_cons, hhash]
    split
    · rw [map_cons, map_cons, ih, hfst]
    · exact ih

theorem setIno_refines (de : Entry) (ino : UInt32) :
    Refines (setIno s de ino) (c.setIno de ino) where
  __ := h
  data := by
    intro x hx
    obtain ⟨y, hy, rfl⟩ := mem_map.mp hx
    have hdata := h.data y hy
    by_cases hde : y.1 = de
    · rw [if_pos hde, ← hde]
      refine (update_self ..).trans ?_
      rw [hdata]
    · rw [if_neg hde]
      exact (update_of_ne hde ..).trans hdata
  nodup := by
    have hfst : (c.setIno de ino).entries.map Prod.fst = c.entries.map Prod.fst := by
      rw [Cache.setIno, map_map]
      refine map_congr_left fun x _ => ?_
      rw [comp_apply]
      split <;> rfl
    rw [hfst]
    exact h.nodup
  queues := by
    rw [chain_setIno]
    exact h.queues

theorem moveToLevel2_refines (hdata : s.data de = d) :
    ∃ s', moveToLevel2 s de (hashOf d) = some s' ∧ Refines s' (c.moveToLevel2 de d) := by
  rw [moveToLevel2, Cache.moveToLevel2, hdata]
  split
  · exact ⟨_, rfl, updateLru_refines h de⟩
  · exact fill_refines h .level2 d

theorem lookup_refines (dir : Inode) (name : List UInt8) :
    ∃ s', dcacheLookup s dir name = some (s', (c.lookup dir name).2) ∧
      Refines s' (c.lookup dir name).1 := by
  rw [dcacheLookup, Cache.lookup]
  split
  · exact ⟨s, rfl, h⟩
  rw [findEntry_eq h]
  cases hfind : c.find dir name with
  | none => exact ⟨s, rfl, h⟩
  | some x =>
    obtain ⟨de, d⟩ := x
    have hdata : s.data de = d := h.data _ (mem_of_find?_eq_some hfind)
    have hhash : hashFn dir name = hashOf d := (find_matches hfind).hashOf.symm
    obtain ⟨s', hmove, hrefines⟩ := moveToLevel2_refines h hdata
    refine ⟨s', ?_, hrefines⟩
    show (moveToLevel2 s de (hashFn dir name)).map _ = _
    rw [hhash, hmove, hdata]
    rfl

theorem add_refines (dir : Inode) (name : List UInt8) (ino : UInt32) :
    ∃ s', dcacheAdd s dir name ino = some s' ∧ Refines s' (c.add dir name ino) := by
  rw [dcacheAdd, Cache.add]
  split
  · exact ⟨s, rfl, h⟩
  rw [findEntry_eq h]
  cases hfind : c.find dir name with
  | none => exact fill_refines h .level1 ⟨dir.iDev, dir.iIno, dir.iVersion, ino, name⟩
  | some x => exact ⟨_, rfl, updateLru_refines (setIno_refines h x.1 ino) x.1⟩

/-- A call does on the links what it does on the lists. -/
theorem step_refines (call : Call) :
    ∃ s', step s call = some (s', (c.step call).2) ∧ Refines s' (c.step call).1 := by
  cases call with
  | lookup dir name => exact lookup_refines h dir name
  | add dir name ino =>
    obtain ⟨s', hadd, hrefines⟩ := add_refines h dir name ino
    refine ⟨s', ?_, hrefines⟩
    rw [step, hadd]
    rfl

end

end

/-! ## The start -/

section
theorem nextLru_entryAt (level : Level) (i : Nat) :
    nameCacheInit.nextLru (entryAt level i) = entryAt level (i + 1) := by
  simp only [nameCacheInit, entryAt, Entry.mk.injEq, true_and]
  ext
  simp [Fin.val_add]

theorem prevLru_entryAt (level : Level) (i : Nat) :
    nameCacheInit.prevLru (entryAt level (i + 1)) = entryAt level i := by
  simp only [nameCacheInit, entryAt, Entry.mk.injEq, true_and]
  ext
  simp only [Fin.sub_def, Fin.ofNat]
  omega

/-- The entries are linked one by one. -/
theorem seg_init (level : Level) (i n : Nat) :
    Seg (fun x => some (nameCacheInit.nextLru x)) (fun x => some (nameCacheInit.prevLru x))
      (entryAt level i) ((List.range' (i + 1) n).map (entryAt level))
      (entryAt level (i + n + 1)) := by
  induction n generalizing i with
  | zero => exact ⟨congrArg some (nextLru_entryAt ..), congrArg some (prevLru_entryAt ..)⟩
  | succ n ih =>
    rw [range'_succ, map_cons, show i + (n + 1) + 1 = i + 1 + n + 1 by omega]
    exact ⟨congrArg some (nextLru_entryAt ..), congrArg some (prevLru_entryAt ..), ih (i + 1)⟩

theorem lru_init (level : Level) : Cache.init.lru level = (List.range 128).map (entryAt level) := by
  cases level <;> rfl

theorem init_refines : Refines nameCacheInit Cache.init where
  data := forall_mem_nil _
  nodup := nodup_nil
  queues :=
    { ring := fun _ h => absurd rfl h
      alone := fun _ _ => rfl
      free := fun x hx _ => by
        cases x with
        | hash q => exact absurd rfl (hx q)
        | entry de => rfl
      nodup := fun _ => nodup_nil
      apart := nofun
      heads := nofun
      inj := fun _ _ h => Node.hash.inj h }
  lru level := by
    rw [lru_init]
    exact seg_init level 0 127
  head level := by
    rw [lru_init]
    rfl
  level level de := by
    rw [lru_init, mem_map]
    constructor
    · rintro ⟨i, -, rfl⟩
      rfl
    · rintro rfl
      refine ⟨de.index, mem_range.mpr de.index.isLt, ?_⟩
      rw [entryAt, Fin.ofNat_val_eq_self]
  lruNodup level := by
    rw [lru_init]
    refine List.Nodup.map_on (fun i hi j hj heq => ?_) nodup_range
    have hval := congrArg (fun de => de.index.val) heq
    rw [mem_range] at hi hj
    simpa [entryAt, Nat.mod_eq_of_lt hi, Nat.mod_eq_of_lt hj] using hval

end

end Sbckernel.Fs.Dcache
