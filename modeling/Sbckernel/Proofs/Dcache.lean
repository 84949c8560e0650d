import Sbckernel.Proofs.DcacheLists

/-!
# When the directory cache is coherent

A hit at level 1 is copied to level 2, and the original stays where it is, behind the copy
in the same queue. So there may be two entries for one name, and `dcache_add` sets the
inode number of the first of them only. The copy can be used for another name before the
original is, and then the old number is found again: `stale_hit` is such a run.

What the cache needs is that a `dcache_add` leaves no entry with another number for its
name. In the runs in which that is so, all entries for a name have the number of the last
`dcache_add`, and a hit gives it.
-/

namespace Sbckernel.Fs.Dcache

open Lib Function List

abbrev Key := Inode × List UInt8

def keyOf (d : Data) : Key := (⟨d.dcDev, d.dir, d.version⟩, d.name)

theorem matches_iff {dir : Inode} {name : List UInt8} {d : Data} :
    Matches dir name d ↔ keyOf d = (dir, name) := by
  obtain ⟨dev, ino, version⟩ := dir
  simp [Matches, keyOf, and_assoc]

def Call.name : Call → List UInt8
  | .lookup _ name => name
  | .add _ name _ => name

/-- The number that the last `dcache_add` for each key gave. -/
def record (last : Key → Option UInt32) : Call → Key → Option UInt32
  | .lookup _ _ => last
  | .add dir name ino => update last (dir, name) (some ino)

/-- A `dcache_add` leaves no entry for its key with another number. -/
def Careful (s : State) : Call → Prop
  | .lookup _ _ => True
  | .add dir name ino => ∀ de, s.next (.entry de) ≠ none → Matches dir name (s.data de) →
      findEntry s dir name = some (some de) ∨ (s.data de).ino = ino

/-- The cache, with the numbers that have been given. -/
def dcache : System (State × (Key → Option UInt32)) where
  init x := x = (nameCacheInit, fun _ => none)
  step x y := ∃ call r, call.name ≠ [] ∧ step x.1 call = some (y.1, r) ∧ y.2 = record x.2 call

/-- The runs in which every call is careful. -/
def carefulDcache : System (State × (Key → Option UInt32)) where
  init x := x = (nameCacheInit, fun _ => none)
  step x y := ∃ call r, call.name ≠ [] ∧ Careful x.1 call ∧ step x.1 call = some (y.1, r) ∧
    y.2 = record x.2 call

/-- Every entry has the number that was given last. -/
def Coherent (c : Cache) (last : Key → Option UInt32) : Prop :=
  ∀ x ∈ c.entries, x.2.name.length ≤ dcacheNameLen ∧ last (keyOf x.2) = some x.2.ino

section
variable {s : State} {c : Cache} {last : Key → Option UInt32}

theorem entries_touch (c : Cache) (de : Entry) : (c.touch de).entries = c.entries :=
  entries_setLru ..

theorem mem_entries_fill {level : Level} {d : Data} {x : Entry × Data}
    (h : x ∈ (c.fill level d).entries) : x.2 = d ∨ x ∈ c.entries := by
  rw [Cache.fill] at h
  split at h
  · exact .inr h
  · rcases mem_cons.mp h with rfl | h
    · exact .inl rfl
    · exact .inr (mem_of_mem_filter h)

theorem Coherent.lookup (h : Coherent c last) (dir : Inode) (name : List UInt8) :
    Coherent (c.lookup dir name).1 last := by
  rw [Cache.lookup]
  split
  · exact h
  split
  · exact h
  next de d hfind =>
    intro x hx
    rw [Cache.moveToLevel2] at hx
    split at hx
    · rw [entries_touch] at hx
      exact h x hx
    · rcases mem_entries_fill hx with heq | hx
      · rw [heq]
        exact h _ (mem_of_find?_eq_some hfind)
      · exact h x hx

/-- An add with no entry for its key, or with the first of them found and the others right. -/
theorem Coherent.add (h : Coherent c last) (hnodup : (c.entries.map Prod.fst).Nodup)
    {dir : Inode} {name : List UInt8} {ino : UInt32}
    (hcareful : ∀ x ∈ c.entries, keyOf x.2 = (dir, name) →
      (c.find dir name).map Prod.fst = some x.1 ∨ x.2.ino = ino) :
    Coherent (c.add dir name ino) (update last (dir, name) (some ino)) := by
  rw [Cache.add]
  split
  next hlong =>
    intro x hx
    obtain ⟨hlen, hlast⟩ := h x hx
    refine ⟨hlen, ?_⟩
    rw [update_of_ne, hlast]
    intro heq
    rw [← (Prod.mk.inj heq).2] at hlong
    omega
  next hshort =>
  split
  next de d hfind =>
    intro x hx
    rw [entries_touch] at hx
    obtain ⟨y, hy, rfl⟩ := mem_map.mp hx
    obtain ⟨hlen, hlast⟩ := h y hy
    by_cases hde : y.1 = de
    · rw [if_pos hde]
      refine ⟨hlen, ?_⟩
      have hyd : y = (de, d) :=
        inj_on_of_nodup_map hnodup hy (mem_of_find?_eq_some hfind) hde
      have hkey : keyOf y.2 = (dir, name) := by
        rw [hyd]
        exact matches_iff.mp (find_matches hfind)
      exact (congrArg (update last _ _) hkey).trans (update_self ..)
    · rw [if_neg hde]
      refine ⟨hlen, ?_⟩
      by_cases hkey : keyOf y.2 = (dir, name)
      · rw [hkey, update_self]
        rcases hcareful y hy hkey with hfound | hino
        · rw [hfind] at hfound
          exact absurd (Option.some.inj hfound).symm hde
        · rw [hino]
      · rw [update_of_ne hkey, hlast]
  next hfind =>
    intro x hx
    rcases mem_entries_fill hx with heq | hx
    · rw [heq]
      exact ⟨Nat.le_of_not_lt hshort, update_self ..⟩
    · obtain ⟨hlen, hlast⟩ := h x hx
      refine ⟨hlen, ?_⟩
      rw [update_of_ne, hlast]
      intro hkey
      have hnot := find?_eq_none.mp hfind x hx
      exact hnot (decide_eq_true (matches_iff.mpr hkey))

/-- What a careful call is, on the lists. -/
theorem careful_entries (h : Refines s c) {dir : Inode} {name : List UInt8} {ino : UInt32}
    (hcareful : Careful s (.add dir name ino)) :
    ∀ x ∈ c.entries, keyOf x.2 = (dir, name) →
      (c.find dir name).map Prod.fst = some x.1 ∨ x.2.ino = ino := by
  intro x hx hkey
  have hdata := h.data x hx
  have hqueued : s.next (.entry x.1) ≠ none :=
    h.queues.next_ne_none (mem_chain.mpr ⟨x, hx, rfl, rfl⟩)
  have hfound := hcareful x.1 hqueued (by rwa [hdata, matches_iff])
  rw [findEntry_eq h, hdata] at hfound
  exact hfound.imp_left Option.some.inj

theorem coherent_step (h : Refines s c) (hlast : Coherent c last) {call : Call}
    (hcareful : Careful s call) : Coherent (c.step call).1 (record last call) := by
  cases call with
  | lookup dir name => exact hlast.lookup dir name
  | add dir name ino => exact hlast.add h.nodup (careful_entries h hcareful)

end

theorem reachable_coherent {x : State × (Key → Option UInt32)} (h : carefulDcache.Reachable x) :
    ∃ c, Refines x.1 c ∧ Coherent c x.2 := by
  refine h.invariant (I := fun x => ∃ c, Refines x.1 c ∧ Coherent c x.2) ?_ ?_
  · rintro x rfl
    exact ⟨Cache.init, init_refines, forall_mem_nil _⟩
  · rintro ⟨s, last⟩ ⟨s', last'⟩ ⟨c, hrefines, hcoherent⟩ ⟨call, r, -, hcareful, hstep, rfl⟩
    obtain ⟨s'', hstep', hrefines'⟩ := step_refines hrefines call
    rw [hstep'] at hstep
    cases hstep
    exact ⟨_, hrefines', coherent_step hrefines hcoherent hcareful⟩

/-- `dcache_lookup` returns, and if it finds the name, it gives the number of the last
`dcache_add` for it. -/
theorem lookup_coherent {x : State × (Key → Option UInt32)} (h : carefulDcache.Reachable x)
    (dir : Inode) (name : List UInt8) :
    ∃ s' r, dcacheLookup x.1 dir name = some (s', r) ∧
      ∀ ino, r = some ino → x.2 (dir, name) = some ino := by
  obtain ⟨c, hrefines, hcoherent⟩ := reachable_coherent h
  obtain ⟨s', hlookup, -⟩ := lookup_refines hrefines dir name
  refine ⟨s', _, hlookup, fun ino hino => ?_⟩
  rw [Cache.lookup] at hino
  split at hino
  · cases hino
  split at hino
  · cases hino
  next de d hfind =>
    cases hino
    rw [← matches_iff.mp (find_matches hfind)]
    exact (hcoherent _ (mem_of_find?_eq_some hfind)).2

theorem lookup_coherent_added : ∃ x, carefulDcache.Reachable x ∧
    ∃ s', dcacheLookup x.1 ⟨3, 2, 1⟩ [97, 98] = some (s', some 17) ∧
      x.2 (⟨3, 2, 1⟩, [97, 98]) = some 17 := by
  obtain ⟨s, hadd, hrefines⟩ := step_refines init_refines (.add ⟨3, 2, 1⟩ [97, 98] 17)
  have hcareful : Careful nameCacheInit (.add ⟨3, 2, 1⟩ [97, 98] 17) := fun _ h => absurd rfl h
  have hreach : carefulDcache.Reachable (s, record (fun _ => none) (.add ⟨3, 2, 1⟩ [97, 98] 17)) :=
    .step (.init rfl) ⟨.add ⟨3, 2, 1⟩ [97, 98] 17, none, cons_ne_nil _ _, hcareful, hadd, rfl⟩
  obtain ⟨s', r, hlookup, hlast⟩ := lookup_coherent hreach ⟨3, 2, 1⟩ [97, 98]
  obtain ⟨s'', hlookup', -⟩ := lookup_refines hrefines ⟨3, 2, 1⟩ [97, 98]
  have hfound : ((Cache.init.step (.add ⟨3, 2, 1⟩ [97, 98] 17)).1.lookup ⟨3, 2, 1⟩ [97, 98]).2 =
      some 17 := by decide
  rw [hfound] at hlookup'
  have hr : r = some 17 := congrArg Prod.snd (Option.some.inj (hlookup.symm.trans hlookup'))
  subst hr
  exact ⟨_, hreach, s', hlookup, hlast 17 rfl⟩

/-! ## A stale hit -/

/-- A run on the lists is a run of the cache. -/
theorem reachable_calls {s : State} {last : Key → Option UInt32} {c : Cache}
    (h : dcache.Reachable (s, last)) (hrefines : Refines s c) {calls : List Call}
    (hnames : ∀ call ∈ calls, call.name ≠ []) :
    ∃ s', dcache.Reachable (s', calls.foldl record last) ∧
      Refines s' (calls.foldl (fun c call => (c.step call).1) c) := by
  induction calls generalizing s last c with
  | nil => exact ⟨s, h, hrefines⟩
  | cons call calls ih =>
    obtain ⟨s', hstep, hrefines'⟩ := step_refines hrefines call
    refine ih (h.step (t := (s', record last call)) ?_) hrefines' fun call' hcall =>
      hnames call' (mem_cons_of_mem _ hcall)
    exact ⟨call, _, hnames call mem_cons_self, hstep, rfl⟩

/-- One name in each of many directories. -/
def dirOf (n : Nat) : Inode := ⟨n.toUInt16, 1, 1⟩

/-- The name is added in directory 0 with the number 1, found, and added again with the number 2,
which the copy at level 2 gets. Then 128 other names are found for the first time, and the last
of them is copied over that copy. There is an entry for it at level 1 since directory 1 had got
its own before directory 0. -/
def overwritten : List Call :=
  [.add (dirOf 1) [97] 7, .add (dirOf 0) [97] 1, .lookup (dirOf 0) [97], .add (dirOf 0) [97] 2] ++
    (List.range 126).flatMap
      (fun i => [.add (dirOf (i + 2)) [97] 7, .lookup (dirOf (i + 2)) [97]]) ++
    [.lookup (dirOf 1) [97], .add (dirOf 128) [97] 7, .lookup (dirOf 128) [97]]

/-- The last `dcache_add` gave the number 2, and the number 1 is found. -/
theorem stale_hit : ∃ x, dcache.Reachable x ∧ x.2 (dirOf 0, [97]) = some 2 ∧
    ∃ s', dcacheLookup x.1 (dirOf 0) [97] = some (s', some 1) := by
  obtain ⟨hnames, hlast, hfound⟩ : (∀ call ∈ overwritten, call.name ≠ []) ∧
      overwritten.foldl record (fun _ => none) (dirOf 0, [97]) = some 2 ∧
      ((overwritten.foldl (fun c call => (c.step call).1) Cache.init).lookup (dirOf 0) [97]).2 =
        some 1 := by decide +kernel
  obtain ⟨s, hreach, hrefines⟩ := reachable_calls (.init rfl) init_refines hnames
  obtain ⟨s', hlookup, -⟩ := lookup_refines hrefines (dirOf 0) [97]
  rw [hfound] at hlookup
  generalize overwritten.foldl record (fun _ => none) = last at hreach hlast
  exact ⟨(s, last), hreach, hlast, s', hlookup⟩

end Sbckernel.Fs.Dcache
