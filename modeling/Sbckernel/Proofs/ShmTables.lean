import Sbckernel.Ipc.Shm
import Sbckernel.Lib.Tally

/-!
# Counting the pages of shared memory

The tables of the live segments are the rows of one table, a row for each
identifier. A store into a page of a live segment changes one cell of it, `newseg`
adds a row of empty cells and `killseg` takes a row away, after it has walked through
it and taken each cell off the counters.
-/

namespace Sbckernel.Ipc.Shm

open Lib Function

variable {slot : Slot}

/-- The length of the table of an identifier. -/
def len (s : State) (id : Nat) : Nat :=
  match s.shmSegs id with
  | .live shp => s.shmNpages shp
  | _ => 0

/-- An entry of the table of an identifier. -/
def cell (s : State) (id i : Nat) : Pte :=
  match s.shmSegs id with
  | .live shp => s.shmPages shp i
  | _ => .none

/-- The sum of a value over the entries of all live tables. -/
def count (f : Pte → Int) (s : State) : Int := tally f (Finset.range shmmni) (len s) (cell s)

def isPresent : Pte → Int
  | .present _ => 1
  | _ => 0

def isSwap : Pte → Int
  | .swap _ => 1
  | _ => 0

def holds (e : Entry) : Pte → Int
  | .swap entry => if entry = e then 1 else 0
  | _ => 0

theorem holds_nonneg (e : Entry) (pte : Pte) : 0 ≤ holds e pte := by
  cases pte with
  | none => exact le_rfl
  | present page => exact le_rfl
  | swap entry =>
    rw [holds]
    split <;> omega

/-- An entry is taken or freed once more. -/
theorem update_succ (g : Entry → Nat) (e e' : Entry) :
    (update g e (g e + 1) e' : Int) = g e' + holds e' (.swap e) := by
  rw [holds]
  by_cases he : e = e'
  · subst he
    rw [update_self, if_pos rfl]
    push_cast
    rfl
  · rw [update_of_ne (Ne.symm he), if_neg he]
    omega

/-- Different identifiers are of different segments. -/
structure Segments (s : State) : Prop where
  distinct : ∀ id id' shp, s.shmSegs id = .live shp → s.shmSegs id' = .live shp → id = id'
  ids : ∀ id shp, s.shmSegs id = .live shp → id < shmmni

section
variable {s : State} {f : Pte → Int} {id idx : Nat} {shp : Seg}

/-- An identifier loses its segment. -/
theorem Segments.clear {s' : State} (h : Segments s)
    (hsegs : s'.shmSegs = update s.shmSegs id slot) (hslot : ∀ shp, slot ≠ .live shp) :
    Segments s' := by
  have hsub : ∀ id shp, s'.shmSegs id = .live shp → s.shmSegs id = .live shp := by
    intro id' shp hlive
    rw [hsegs, update_apply] at hlive
    split at hlive
    · exact absurd hlive (hslot shp)
    · exact hlive
  exact ⟨fun id id' shp hlive hlive' =>
    h.distinct id id' shp (hsub id shp hlive) (hsub id' shp hlive'),
    fun id shp hlive => h.ids id shp (hsub id shp hlive)⟩

theorem Segments.newseg (h : Segments s) (hid : id < shmmni) (hshp : ¬Live s shp) {numpages : Nat} :
    Segments (Shm.newseg s id shp numpages) := by
  have hcases : ∀ id' shp', (Shm.newseg s id shp numpages).shmSegs id' = .live shp' →
      (id' = id ∧ shp' = shp) ∨ s.shmSegs id' = .live shp' ∧ shp' ≠ shp := by
    intro id' shp' hlive
    have hlive' : update s.shmSegs id (.live shp) id' = .live shp' := hlive
    rw [update_apply] at hlive'
    split at hlive'
    next hid' =>
      cases hlive'
      exact .inl ⟨hid', rfl⟩
    · exact .inr ⟨hlive', fun heq => hshp ⟨id', h.ids id' shp' hlive', heq ▸ hlive'⟩⟩
  refine ⟨fun id1 id2 shp' h1 h2 => ?_, fun id' shp' hlive => ?_⟩
  · rcases hcases id1 shp' h1 with ⟨rfl, rfl⟩ | ⟨hlive1, hne⟩
    · rcases hcases id2 shp' h2 with ⟨rfl, -⟩ | ⟨-, hne⟩
      · rfl
      · exact absurd rfl hne
    · rcases hcases id2 shp' h2 with ⟨-, heq⟩ | ⟨hlive2, -⟩
      · exact absurd heq hne
      · exact h.distinct id1 id2 shp' hlive1 hlive2
  · rcases hcases id' shp' hlive with ⟨rfl, -⟩ | ⟨hlive', -⟩
    · exact hid
    · exact h.ids id' shp' hlive'

theorem len_live (h : s.shmSegs id = .live shp) : len s id = s.shmNpages shp := by
  rw [len, h]

theorem cell_live (h : s.shmSegs id = .live shp) (i : Nat) : cell s id i = s.shmPages shp i := by
  rw [cell, h]

/-- A store into a live table. -/
theorem count_setPage (h : Segments s) (hlive : s.shmSegs id = .live shp)
    (hidx : idx < s.shmNpages shp) (pte : Pte) :
    count f (setPage s shp idx pte) = count f s + (f pte - f (s.shmPages shp idx)) := by
  have hset : ∀ i, cell (setPage s shp idx pte) id i = update (s.shmPages shp) idx pte i := by
    intro i
    rw [cell_live (s := setPage s shp idx pte) hlive, setPage]
    exact congrFun (update_self ..) i
  have hrow : ∀ i ≠ idx, cell (setPage s shp idx pte) id i = cell s id i := fun i hi => by
    rw [hset, cell_live hlive, update_of_ne hi]
  have hother : ∀ id' ∈ Finset.range shmmni, id' ≠ id →
      cell (setPage s shp idx pte) id' = cell s id' := by
    intro id' _ hne
    funext i
    rw [cell, cell]
    show (match s.shmSegs id' with | .live shp' => _ | _ => _) = _
    split
    next shp' hlive' =>
      have hshp : shp' ≠ shp := fun heq => hne (h.distinct id' id shp (heq ▸ hlive') hlive)
      exact congrFun (update_of_ne hshp ..) i
    · rfl
  have hchange : count f (setPage s shp idx pte) =
      count f s + (f (cell (setPage s shp idx pte) id idx) - f (cell s id idx)) :=
    tally_change (Finset.mem_range.mpr (h.ids id shp hlive))
      (by rw [len_live (s := setPage s shp idx pte) hlive]; exact hidx) hrow hother
  rwa [hset, update_self, cell_live hlive] at hchange

/-- A change of the slot of one identifier that leaves the other tables alone. -/
theorem count_slot {s' : State} (hid : id < shmmni)
    (hsegs : ∀ id' ≠ id, s'.shmSegs id' = s.shmSegs id')
    (hsame : ∀ id' ≠ id, ∀ shp, s.shmSegs id' = .live shp →
      s'.shmPages shp = s.shmPages shp ∧ s'.shmNpages shp = s.shmNpages shp) :
    count f s' = count f s +
      (rowTally f (len s' id) (cell s' id) - rowTally f (len s id) (cell s id)) := by
  refine tally_row (Finset.mem_range.mpr hid) fun id' _ hne => ?_
  have hlen : len s' id' = len s id' := by
    rw [len, len, hsegs id' hne]
    split
    next shp hlive => exact (hsame id' hne shp hlive).2
    · rfl
  have hcell : cell s' id' = cell s id' := by
    funext i
    rw [cell, cell, hsegs id' hne]
    split
    next shp hlive => rw [(hsame id' hne shp hlive).1]
    · rfl
  rw [hlen, hcell]

theorem rowTally_dead (h : ∀ shp, s.shmSegs id ≠ .live shp) :
    rowTally f (len s id) (cell s id) = 0 := by
  have hlen : len s id = 0 := by
    rw [len]
    split
    next shp hlive => exact absurd hlive (h shp)
    · rfl
  rw [hlen]
  exact rowTally_zero ..

theorem rowTally_live (h : s.shmSegs id = .live shp) :
    rowTally f (len s id) (cell s id) = rowTally f (s.shmNpages shp) (s.shmPages shp) := by
  have hcell : cell s id = s.shmPages shp := funext fun i => cell_live h i
  rw [len_live h, hcell]

/-- `newseg` adds a table of empty entries. -/
theorem count_newseg (hid : id < shmmni) (hnoid : s.shmSegs id = .noid) (hshp : ¬Live s shp)
    (h : Segments s) (hf : f .none = 0) (numpages : Nat) :
    count f (newseg s id shp numpages) = count f s := by
  have hlive : (newseg s id shp numpages).shmSegs id = .live shp := update_self ..
  rw [count_slot (s := s) hid (fun id' hne => update_of_ne hne ..) ?_, rowTally_live hlive,
    rowTally_dead fun shp' hlive' => ?_, rowTally_eq_zero fun i _ => ?_]
  · omega
  · rw [newseg]
    dsimp only
    rw [update_self]
    exact hf
  · rw [hnoid] at hlive'
    cases hlive'
  · intro id' hne shp' hlive'
    have hne' : shp' ≠ shp := fun heq => hshp ⟨id', h.ids id' shp' hlive', heq ▸ hlive'⟩
    exact ⟨update_of_ne hne' .., update_of_ne hne' ..⟩

/-- A slot changes to one without a table. -/
theorem count_segs (hid : id < shmmni) (hslot : ∀ shp, slot ≠ .live shp) (max : Nat) :
    count f { s with shmSegs := update s.shmSegs id slot, maxShmid := max } =
      count f s - rowTally f (len s id) (cell s id) := by
  rw [count_slot hid (fun id' hne => update_of_ne hne ..) fun _ _ _ _ => by exact ⟨rfl, rfl⟩,
    rowTally_dead fun shp => ?_]
  · omega
  · dsimp only
    rw [update_self]
    exact hslot shp

/-- No table comes or goes. -/
theorem count_dead (hid : id < shmmni) (hdead : ∀ shp, s.shmSegs id ≠ .live shp)
    (hslot : ∀ shp, slot ≠ .live shp) :
    count f { s with shmSegs := update s.shmSegs id slot } = count f s := by
  rw [count_segs hid hslot s.maxShmid, rowTally_dead hdead, Int.sub_zero]

/-! ## `killseg` -/

/-- The loop of `killseg` takes what it walks over off the counters. -/
theorem killPages_eq (shp : Seg) (n i : Nat) (s : State) : ∃ freed,
    killPages shp n i s = { s with
      shmRss := s.shmRss - rowTally isPresent n fun j => s.shmPages shp (i + j)
      shmSwp := s.shmSwp - rowTally isSwap n fun j => s.shmPages shp (i + j)
      freed := freed } ∧
    ∀ e, (freed e : Int) = s.freed e + rowTally (holds e) n fun j => s.shmPages shp (i + j) := by
  induction n generalizing i s with
  | zero => exact ⟨s.freed, by simp [killPages, rowTally_zero], fun e => by simp [rowTally_zero]⟩
  | succ n ih =>
    rw [killPages]
    simp only [rowTally_from _ (s.shmPages shp)]
    cases hpte : s.shmPages shp i with
    | none =>
      obtain ⟨freed, heq, hfreed⟩ := ih (i + 1) s
      exact ⟨freed, by rw [heq]; simp [isPresent, isSwap], fun e => by rw [hfreed]; simp [holds]⟩
    | present page =>
      obtain ⟨freed, heq, hfreed⟩ := ih (i + 1) { s with shmRss := s.shmRss - 1 }
      refine ⟨freed, ?_, fun e => by rw [hfreed]; simp [holds]⟩
      rw [heq]
      simp [isPresent, isSwap, sub_sub]
    | swap entry =>
      obtain ⟨freed, heq, hfreed⟩ := ih (i + 1) { swapFree s entry with shmSwp := s.shmSwp - 1 }
      refine ⟨freed, ?_, fun e => ?_⟩
      · rw [heq]
        simp [isPresent, isSwap, swapFree, sub_sub]
      · rw [hfreed]
        show (update s.freed entry (s.freed entry + 1) e : Int) + _ = _
        rw [update_succ]
        exact add_assoc ..

/-- What `killseg` takes off the counters is what it takes out of the tables. -/
theorem killseg_spec (hid : id < shmmni) (hlive : s.shmSegs id = .live shp) :
    ∃ max rss swp freed, killseg s id = { s with
      shmSegs := update s.shmSegs id .unused
      maxShmid := max
      shmRss := rss
      shmSwp := swp
      freed := freed } ∧
    rss - count isPresent (killseg s id) = s.shmRss - count isPresent s ∧
    swp - count isSwap (killseg s id) = s.shmSwp - count isSwap s ∧
    ∀ e, freed e + count (holds e) (killseg s id) = s.freed e + count (holds e) s ∧
      count (holds e) (killseg s id) ≤ count (holds e) s := by
  obtain ⟨max, hmax⟩ : ∃ max, max = if id = s.maxShmid
    then lowerMax (update s.shmSegs id .unused) s.maxShmid else s.maxShmid := ⟨_, rfl⟩
  have hkill : killseg s id = killPages shp (s.shmNpages shp) 0
      { s with shmSegs := update s.shmSegs id .unused, maxShmid := max } := by
    rw [killseg, hlive, hmax]
  obtain ⟨freed, heq, hfreed⟩ := killPages_eq shp (s.shmNpages shp) 0
    { s with shmSegs := update s.shmSegs id .unused, maxShmid := max }
  have hrow : (fun j => s.shmPages shp (0 + j)) = s.shmPages shp :=
    funext fun j => by rw [Nat.zero_add]
  simp only [hrow] at heq hfreed
  have hcount : ∀ f, count f (killseg s id) =
      count f s - rowTally f (s.shmNpages shp) (s.shmPages shp) := by
    intro f
    have hsegs := count_segs (f := f) (s := s) hid
      (fun shp (h : .unused = Slot.live shp) => nomatch h) max
    rw [rowTally_live hlive] at hsegs
    rw [hkill, heq]
    exact hsegs
  refine ⟨max, _, _, freed, hkill.trans heq, ?_, ?_, fun e => ?_⟩
  · rw [hcount]
    omega
  · rw [hcount]
    omega
  · have := rowTally_nonneg (holds_nonneg e) (s.shmNpages shp) (s.shmPages shp)
    rw [hcount, hfreed]
    omega

end

end Sbckernel.Ipc.Shm
