import Mathlib.Data.List.Nodup
import Mathlib.Data.List.Perm.Subperm
import Sbckernel.Lib.Chain
import Sbckernel.Mm.Swapfile

/-!
# The list of swap areas

The list is kept by priority, and the areas that may be written to are on it. The cursor
`swap_list.next` is on the list, or -1 when the list is empty. It is empty while the only
area is being turned off, and then `swap_free`, which `try_to_unuse` calls for every page
that it brings in, reads the priority of `swap_info[-1]` (`reads_below`). No other call
does that, and it does no harm, since the cursor is -1 before and after.
-/

namespace Sbckernel.Swap

open Lib Function List Option

/-- The list, from its head on, and the cursor. -/
structure Linked (s : State) (l : List Nat) : Prop where
  chain : Chain (fun t => (s.info t).next) s.head l none
  nodup : l.Nodup
  sorted : l.Pairwise fun t u => (s.info u).prio ≤ (s.info t).prio
  cursor : s.next = none ∧ l = [] ∨ ∃ t ∈ l, s.next = some t

structure ListInv (s : State) (l : List Nat) : Prop extends Linked s l where
  mem : ∀ t, t ∈ l ↔ (s.info t).flags = .writeok
  bound : ∀ t, (s.info t).flags ≠ .unused → t < s.nrSwapfiles
  nr : s.nrSwapfiles ≤ maxSwapfiles
  busy : ∀ t b, s.busy t = some b → (s.info t).flags = .used

section
variable {s s' : State} {l l1 l2 rest l' : List Nat} {type e t : Nat} {call : Call}
variable {p q : SwapInfo} {fuel i n low o : Nat} {b : Busy}

theorem ListInv.lt_max (h : ListInv s l) (ht : type ∈ l) : type < maxSwapfiles := by
  refine Nat.lt_of_lt_of_le (h.bound type ?_) h.nr
  rw [(h.mem type).mp ht]
  decide

theorem ListInv.length_le (h : ListInv s l) : l.length ≤ maxSwapfiles := by
  have hsub : l ⊆ List.range maxSwapfiles := fun t ht => mem_range.mpr (h.lt_max ht)
  have hle := (subperm_of_subset h.nodup hsub).length_le
  rwa [length_range] at hle

/-- What the list does not see: everything but the links, the priorities and the flags. -/
structure SameList (s s' : State) : Prop where
  flags : ∀ t, (s'.info t).flags = (s.info t).flags
  prio : ∀ t, (s'.info t).prio = (s.info t).prio
  link : ∀ t, (s'.info t).next = (s.info t).next
  head : s'.head = s.head
  nr : s'.nrSwapfiles = s.nrSwapfiles
  busy : s'.busy = s.busy

theorem SameList.refl (s : State) : SameList s s :=
  ⟨fun _ => rfl, fun _ => rfl, fun _ => rfl, rfl, rfl, rfl⟩

theorem setInfo_self (s : State) (type : Nat) (p : SwapInfo) : (setInfo s type p).info type = p :=
  update_self ..

theorem setInfo_of_ne (hne : t ≠ type) (s : State) (p : SwapInfo) :
    (setInfo s type p).info t = s.info t :=
  update_of_ne hne ..

theorem setInfo_sameList (hflags : p.flags = (s.info type).flags)
    (hprio : p.prio = (s.info type).prio) (hlink : p.next = (s.info type).next) :
    SameList s (setInfo s type p) := by
  refine ⟨fun t => ?_, fun t => ?_, fun t => ?_, rfl, rfl, rfl⟩
  all_goals
    by_cases hne : t = type
    · subst hne
      rw [setInfo_self]
      assumption
    · rw [setInfo_of_ne hne]

theorem SameList.pages (h : SameList s s') (pages : Int) :
    SameList s { s' with nrSwapPages := pages } := { h with }

theorem Linked.congr (h : Linked s l) (hlink : ∀ t ∈ l, (s'.info t).next = (s.info t).next)
    (hprio : ∀ t ∈ l, (s'.info t).prio = (s.info t).prio) (hhead : s'.head = s.head)
    (hcursor : s'.next = none ∧ l = [] ∨ ∃ t ∈ l, s'.next = some t) : Linked s' l where
  chain := by
    rw [hhead]
    exact h.chain.congr hlink
  nodup := h.nodup
  sorted := by
    refine List.Pairwise.imp_of_mem (fun {t u} ht hu hle => ?_) h.sorted
    rwa [hprio t ht, hprio u hu]
  cursor := hcursor

theorem ListInv.congr (h : ListInv s l) (hsame : SameList s s')
    (hcursor : s'.next = none ∧ l = [] ∨ ∃ t ∈ l, s'.next = some t) : ListInv s' l where
  toLinked :=
    h.toLinked.congr (fun t _ => hsame.link t) (fun t _ => hsame.prio t) hsame.head hcursor
  mem t := by
    rw [hsame.flags]
    exact h.mem t
  bound t ht := by
    rw [hsame.flags] at ht
    rw [hsame.nr]
    exact h.bound t ht
  nr := by
    rw [hsame.nr]
    exact h.nr
  busy t b hb := by
    rw [hsame.busy] at hb
    rw [hsame.flags]
    exact h.busy t b hb

/-- The cursor has not moved, or to the head. -/
theorem ListInv.same (h : ListInv s l) (hsame : SameList s s') (hnext : s'.next = s.next) :
    ListInv s' l := by
  refine h.congr hsame ?_
  rw [hnext]
  exact h.cursor

theorem ListInv.rewound (h : ListInv s l) (hsame : SameList s s') (hnext : s'.next = s.head) :
    ListInv s' l := by
  refine h.congr hsame ?_
  rw [hnext, h.chain.start]
  cases l with
  | nil => exact .inl ⟨rfl, rfl⟩
  | cons t l => exact .inr ⟨t, mem_cons_self, rfl⟩

/-! ## `get_swap_page` -/

/-- The second loop of `scan_swap_map` is the one that looks for a slot. -/
def FirstFree (p : SwapInfo) : Prop := p.clusterNr = 0 ∨ firstFree p p.clusterNext = none
  deriving Decidable

theorem scanFrom_congr (hmap : q.swapMap = p.swapMap)
    (hlock : q.swapLockmap = p.swapLockmap) : scanFrom q n o = scanFrom p n o := by
  induction n generalizing o with
  | zero => rfl
  | succ n ih =>
    have htaken : Taken q o ↔ Taken p o := by
      rw [Taken, Taken, hmap, hlock]
    rw [scanFrom, scanFrom, ih]
    simp only [htaken]

theorem scanFrom_eq_some (h : scanFrom p n o = some i) : ¬Taken p i ∧ o ≤ i ∧ i < o + n := by
  induction n generalizing o with
  | zero => cases h
  | succ n ih =>
    rw [scanFrom] at h
    grind

theorem scanFrom_eq_none (h : scanFrom p n o = none) (hlow : o ≤ i) (hhigh : i < o + n) :
    Taken p i := by
  induction n generalizing o with
  | zero => omega
  | succ n ih =>
    rw [scanFrom] at h
    grind

theorem firstFree_congr (hmap : q.swapMap = p.swapMap) (hlock : q.swapLockmap = p.swapLockmap)
    (hbit : q.highestBit = p.highestBit) (low : Nat) : firstFree q low = firstFree p low := by
  rw [firstFree, firstFree, hbit]
  exact scanFrom_congr hmap hlock

theorem firstFree_eq_some (h : firstFree p low = some o) : ¬Taken p o ∧ o ≤ p.highestBit := by
  obtain ⟨hfree, hlow, hhigh⟩ := scanFrom_eq_some h
  exact ⟨hfree, by omega⟩

/-- What `scan_swap_map` does: a slot is taken, or only the cluster changes. -/
inductive Scan (p : SwapInfo) : SwapInfo × Nat → Prop where
  | took {o low c : Nat} (hfree : ¬Taken p o) (hhigh : o ≤ p.highestBit)
      (hlow : low = p.lowestBit ∨ low = o ∧ FirstFree p ∧ firstFree p p.lowestBit = some o) :
      Scan p (gotPage { p with lowestBit := low, clusterNr := c } o)
  | full {c n : Nat} (hnone : firstFree p p.lowestBit = none) :
      Scan p ({ p with clusterNr := c, clusterNext := n }, 0)

theorem scanFirstFree_scan (hfirst : FirstFree p) (n : Nat) :
    Scan p (scanFirstFree { p with clusterNext := n }) := by
  have hcongr : firstFree { p with clusterNext := n, clusterNr := swapClusterMax } p.lowestBit =
      firstFree p p.lowestBit := by
    apply firstFree_congr <;> rfl
  rw [scanFirstFree]
  rw [hcongr]
  cases hfind : firstFree p p.lowestBit with
  | none => exact .full hfind
  | some o =>
    obtain ⟨hfree, hhigh⟩ := firstFree_eq_some hfind
    exact .took hfree hhigh (.inr ⟨rfl, hfirst, hfind⟩)

theorem scanSwapMap_scan (p : SwapInfo) : Scan p (scanSwapMap p) := by
  rw [scanSwapMap]
  split
  · cases hfind : firstFree p p.clusterNext with
    | none => exact scanFirstFree_scan (.inr hfind) _
    | some o =>
      obtain ⟨hfree, hhigh⟩ := firstFree_eq_some hfind
      exact .took hfree hhigh (.inl rfl)
  next hnr => exact scanFirstFree_scan (.inl (not_not.mp hnr)) p.clusterNext

theorem Scan.fields {r : SwapInfo × Nat} (h : Scan p r) :
    r.1.flags = p.flags ∧ r.1.prio = p.prio ∧ r.1.next = p.next := by
  cases h <;> exact ⟨rfl, rfl, rfl⟩

theorem tryArea_same (s : State) (type : Nat) :
    SameList s (tryArea s type).1 ∧ (tryArea s type).1.next = s.next := by
  rw [tryArea]
  split
  · obtain ⟨hflags, hprio, hlink⟩ := (scanSwapMap_scan (s.info type)).fields
    dsimp only
    split
    · exact ⟨(setInfo_sameList hflags hprio hlink).pages _, rfl⟩
    · exact ⟨setInfo_sameList hflags hprio hlink, rfl⟩
  · exact ⟨.refl s, rfl⟩

theorem samePrio_eq_some (h : samePrio s type = some t) :
    (s.info type).next = some t := by
  rw [samePrio] at h
  split at h
  next hnext =>
    split at h
    · cases h
    · cases h
      exact hnext
  · cases h

/-- The areas that the loop of `get_swap_page` looks at, one after the other. -/
inductive Search : State → List Nat → State → Nat → Prop where
  | exhausted (s : State) : Search s [] s 0
  | found {s : State} {t : Nat} (h : (tryArea s t).2 ≠ 0) :
      Search s [t]
        { (tryArea s t).1 with next := (samePrio (tryArea s t).1 t).or (tryArea s t).1.head }
        (swpEntry t (tryArea s t).2)
  | failed {s s' : State} {t e : Nat} {ts : List Nat} (h : (tryArea s t).2 = 0)
      (hrest : Search (tryArea s t).1 ts s' e) : Search s (t :: ts) s' e

/-- A slot was found: the cursor moves on. -/
theorem found_inv (h : ListInv s l) (ht : type ∈ l) :
    ListInv { s with next := (samePrio s type).or s.head } l := by
  obtain ⟨l1, l2, rfl⟩ := append_of_mem ht
  cases hsame : samePrio s type with
  | none => exact h.rewound { SameList.refl s with } rfl
  | some t =>
    refine h.congr ⟨fun _ => rfl, fun _ => rfl, fun _ => rfl, rfl, rfl, rfl⟩ (.inr ⟨t, ?_, rfl⟩)
    have hnext := h.chain.next_eq
    rw [samePrio_eq_some hsame] at hnext
    cases l2 with
    | nil => cases hnext
    | cons u l2 =>
      cases hnext
      simp

theorem Search.listInv {ts : List Nat} (h : Search s ts s' e) (hinv : ListInv s l)
    (hts : ts ⊆ l) : ListInv s' l := by
  induction h with
  | exhausted s => exact hinv
  | found =>
    obtain ⟨hsame, hcursor⟩ := tryArea_same _ _
    exact found_inv (hinv.same hsame hcursor) (hts mem_cons_self)
  | failed _ _ ih =>
    obtain ⟨hsame, hcursor⟩ := tryArea_same _ _
    exact ih (hinv.same hsame hcursor) (subset_of_cons_subset hts)

theorem swpEntry_ne_zero {offset : Nat} (h : offset ≠ 0) : swpEntry type offset ≠ 0 := by
  rw [swpEntry]
  omega

/-- What the loop of `get_swap_page` has to do yet: `rest` are the areas that it will not miss. -/
def Finishes (l rest : List Nat) (s : State) (r : Option (State × Nat)) : Prop :=
  ∃ ts s' e, r = some (s', e) ∧ Search s ts s' e ∧ ts ⊆ l ∧ (e = 0 → rest ⊆ ts)

/-- The area is tried, and if it is full the loop goes on. -/
theorem Finishes.round {rest' : List Nat} {r : Option (State × Nat)} (ht : type ∈ l)
    (hrest : rest' ⊆ type :: rest)
    (h : (tryArea s type).2 = 0 → Finishes l rest (tryArea s type).1 r) :
    Finishes l rest' s (if (tryArea s type).2 ≠ 0 then
      some ({ (tryArea s type).1 with
          next := (samePrio (tryArea s type).1 type).or (tryArea s type).1.head },
        swpEntry type (tryArea s type).2) else r) := by
  split
  next hgot =>
    exact ⟨[type], _, _, rfl, .found hgot, by simpa using ht,
      fun he => absurd he (swpEntry_ne_zero hgot)⟩
  next hgot =>
    obtain ⟨ts, s', e, heq, hsearch, hts, hall⟩ := h (not_not.mp hgot)
    refine ⟨type :: ts, s', e, heq, .failed (not_not.mp hgot) hsearch,
      cons_subset.mpr ⟨ht, hts⟩, ?_⟩
    intro he t hmem
    rcases mem_cons.mp (hrest hmem) with rfl | hmem
    · exact mem_cons_self
    · exact mem_cons_of_mem _ (hall he hmem)

/-- The second round ends at the end of the list. -/
theorem getLoop_wrapped (h : ListInv s l) (hl : l = l1 ++ type :: l2)
    (hfuel : l2.length < fuel) : Finishes l (type :: l2) s (getLoop fuel s type true) := by
  induction fuel generalizing s l1 l2 type with
  | zero => omega
  | succ fuel ih =>
    have hinv := h.same (tryArea_same s type).1 (tryArea_same s type).2
    have hnext := (hl ▸ hinv.chain).next_eq
    rw [getLoop]
    refine .round (by simp [hl]) (List.Subset.refl _) fun _ => ?_
    rw [if_pos rfl, hnext]
    cases l2 with
    | nil => exact ⟨[], _, _, rfl, .exhausted _, by simp, by simp⟩
    | cons u l2 => exact ih hinv (hl.trans (append_cons ..)) (Nat.lt_of_succ_lt_succ hfuel)

/-- The first round ends where the priority changes. -/
theorem getLoop_finishes (h : ListInv s l) (hl : l = l1 ++ type :: l2)
    (hfuel : l2.length + l.length < fuel) : Finishes l l s (getLoop fuel s type false) := by
  induction fuel generalizing s l1 l2 type with
  | zero => omega
  | succ fuel ih =>
    have ht : type ∈ l := by simp [hl]
    have hinv := h.same (tryArea_same s type).1 (tryArea_same s type).2
    rw [getLoop]
    refine .round ht (subset_cons_self ..) fun _ => ?_
    rw [if_neg Bool.false_ne_true]
    cases hsame : samePrio (tryArea s type).1 type with
    | none =>
      -- The search begins again at the head, and now goes to the end.
      rw [hinv.chain.start]
      cases l with
      | nil => cases ht
      | cons u l =>
        refine getLoop_wrapped hinv (nil_append _).symm ?_
        rw [length_cons] at hfuel
        omega
    | some t =>
      have hnext := (hl ▸ hinv.chain).next_eq
      rw [samePrio_eq_some hsame] at hnext
      cases l2 with
      | nil => cases hnext
      | cons u l2 =>
        cases hnext
        refine ih hinv (hl.trans (append_cons ..)) ?_
        rw [length_cons] at hfuel
        omega

/-- Two rounds are enough. -/
theorem getSwapPage_finishes (h : ListInv s l) (hpages : s.nrSwapPages ≠ 0) :
    Finishes l l s (getSwapPage s) := by
  rw [getSwapPage]
  rcases h.cursor with ⟨hnext, rfl⟩ | ⟨t, ht, hnext⟩
  · rw [hnext]
    exact ⟨[], _, _, rfl, .exhausted s, by simp, by simp⟩
  · obtain ⟨l1, l2, rfl⟩ := append_of_mem ht
    rw [hnext]
    dsimp only
    rw [if_neg hpages]
    refine getLoop_finishes h rfl ?_
    have hlen := h.length_le
    simp only [length_append, length_cons] at hlen ⊢
    omega

theorem getSwapPage_of_zero (hpages : s.nrSwapPages = 0) : getSwapPage s = some (s, 0) := by
  rw [getSwapPage]
  cases s.next with
  | none => rfl
  | some t => exact if_pos hpages

theorem getSwapPage_listInv (h : ListInv s l) :
    ∃ s' e, getSwapPage s = some (s', e) ∧ ListInv s' l := by
  by_cases hpages : s.nrSwapPages = 0
  · exact ⟨s, 0, getSwapPage_of_zero hpages, h⟩
  · obtain ⟨ts, s', e, heq, hsearch, hts, -⟩ := getSwapPage_finishes h hpages
    exact ⟨s', e, heq, hsearch.listInv h hts⟩

/-! ## Walks along the list -/

theorem walk_eq (stop : SwapInfo → Bool) {i : Option Nat} (prev : Option Nat)
    (h : Chain (fun t => (s.info t).next) i l none) (hfuel : l.length < fuel) :
    ∃ l1 l2, l = l1 ++ l2 ∧ (∀ t ∈ l1, stop (s.info t) = false) ∧
      (∀ t ∈ l2.head?, stop (s.info t) = true) ∧
      walk s stop fuel prev i = some (l1.getLast?.or prev, l2.head?) := by
  induction l generalizing fuel i prev with
  | nil =>
    obtain ⟨fuel, rfl⟩ := Nat.exists_eq_succ_of_ne_zero (Nat.ne_zero_of_lt hfuel)
    cases h
    exact ⟨[], [], rfl, by simp, by simp, rfl⟩
  | cons t l ih =>
    obtain ⟨fuel, rfl⟩ := Nat.exists_eq_succ_of_ne_zero (Nat.ne_zero_of_lt hfuel)
    obtain ⟨rfl, hl⟩ := h
    rw [walk]
    split
    next hstop => exact ⟨[], t :: l, rfl, by simp, by simpa using hstop, rfl⟩
    next hstop =>
      obtain ⟨l1, l2, rfl, hl1, hl2, heq⟩ := ih (some t) hl (Nat.lt_of_succ_lt_succ hfuel)
      refine ⟨t :: l1, l2, rfl, ?_, hl2, ?_⟩
      · exact forall_mem_cons.mpr ⟨by simpa using hstop, hl1⟩
      · rw [heq, getLast?_cons]
        cases l1.getLast? <;> rfl

/-- Nothing but the links of the areas, the head and the cursor has changed. -/
structure Relinked (s s' : State) : Prop where
  info : ∀ t, s'.info t = { s.info t with next := (s'.info t).next }
  nr : s'.nrSwapfiles = s.nrSwapfiles
  pages : s'.nrSwapPages = s.nrSwapPages
  busy : s'.busy = s.busy

theorem Relinked.trans {s'' : State} (h : Relinked s s') (h' : Relinked s' s'') :
    Relinked s s'' where
  info t := by
    rw [h'.info t, h.info t]
  nr := h'.nr.trans h.nr
  pages := h'.pages.trans h.pages
  busy := h'.busy.trans h.busy

theorem Relinked.prio (h : Relinked s s') (t : Nat) : (s'.info t).prio = (s.info t).prio := by
  rw [h.info t]

theorem Relinked.sorted (h : Relinked s s')
    (hs : l.Pairwise fun t u => (s.info u).prio ≤ (s.info t).prio) :
    l.Pairwise fun t u => (s'.info u).prio ≤ (s'.info t).prio :=
  hs.imp fun {t u} hle => by
    rwa [h.prio t, h.prio u]

theorem Relinked.flags (h : Relinked s s') (t : Nat) : (s'.info t).flags = (s.info t).flags := by
  rw [h.info t]

theorem setNext_links (s : State) (type : Nat) (n : Option Nat) :
    (fun t => ((setInfo s type { s.info type with next := n }).info t).next) =
      update (fun t => (s.info t).next) type n := by
  funext t
  by_cases hne : t = type
  · subst hne
    rw [setInfo_self, update_self]
  · rw [setInfo_of_ne hne, update_of_ne hne]

theorem setNext_relinked (s : State) (type : Nat) (n : Option Nat) :
    Relinked s (setInfo s type { s.info type with next := n }) := by
  refine ⟨fun t => ?_, rfl, rfl, rfl⟩
  by_cases hne : t = type
  · subst hne
    rw [setInfo_self]
  · rw [setInfo_of_ne hne]

theorem sorted_insert (hsorted : (l1 ++ l2).Pairwise fun t u => (s.info u).prio ≤ (s.info t).prio)
    (hl1 : ∀ t ∈ l1, (s.info type).prio < (s.info t).prio)
    (hl2 : ∀ t ∈ l2.head?, (s.info t).prio ≤ (s.info type).prio) :
    (l1 ++ type :: l2).Pairwise fun t u => (s.info u).prio ≤ (s.info t).prio := by
  obtain ⟨hs1, hs2, hs12⟩ := pairwise_append.mp hsorted
  refine pairwise_append.mpr ⟨hs1, pairwise_cons.mpr ⟨?_, hs2⟩,
    fun t ht => forall_mem_cons.mpr ⟨(hl1 t ht).le, hs12 t ht⟩⟩
  cases l2 with
  | nil => nofun
  | cons u l2 =>
    have hu := hl2 u rfl
    exact forall_mem_cons.mpr ⟨hu, fun t ht => le_trans ((pairwise_cons.mp hs2).1 t ht) hu⟩

/-- The area goes between those with a higher priority and the others. -/
theorem insertArea_linked (h : Linked s l) (hlen : l.length ≤ maxSwapfiles) (htype : type ∉ l)
    (hins : insertArea s type = some s') :
    ∃ l', Linked s' l' ∧ Relinked s s' ∧ ∀ t, t ∈ l' ↔ t = type ∨ t ∈ l := by
  obtain ⟨l1, l2, rfl, hl1, hl2, hwalk⟩ :=
    walk_eq (fun q => (s.info type).prio ≥ q.prio) none h.chain (Nat.lt_succ_of_le hlen)
  have hsorted := sorted_insert h.sorted (fun t ht => by simpa using hl1 t ht)
    (fun t ht => by simpa using hl2 t ht)
  have hnodup : (l1 ++ type :: l2).Nodup :=
    nodup_middle.mpr (nodup_cons.mpr ⟨htype, h.nodup⟩)
  have hmem : ∀ t, t ∈ l1 ++ type :: l2 ↔ t = type ∨ t ∈ l1 ++ l2 := fun t => by
    simp only [mem_append, mem_cons]
    tauto
  have hlinks := setNext_links s type l2.head?
  have hrel := setNext_relinked s type l2.head?
  rw [insertArea, hwalk, map_some] at hins
  cases hlast : l1.getLast? with
  | none =>
    rw [hlast] at hins
    cases hins
    cases getLast?_eq_none_iff.mp hlast
    have hhead : s.head = l2.head? := h.chain.start.trans (or_none)
    refine ⟨type :: l2, ⟨⟨rfl, ?_⟩, hnodup, ?_, .inr ⟨type, mem_cons_self, rfl⟩⟩,
      ⟨hrel.info, rfl, rfl, rfl⟩, hmem⟩
    · show Chain _ ((setInfo s type { s.info type with next := l2.head? }).info type).next l2 none
      rw [setInfo_self, ← hhead]
      refine h.chain.congr fun t ht => ?_
      have hne : t ≠ type := fun heq => htype (heq ▸ ht)
      exact congrArg SwapInfo.next (setInfo_of_ne hne ..)
    · exact hrel.sorted hsorted
  | some q =>
    rw [hlast] at hins
    cases hins
    have hrel' := hrel.trans (setNext_relinked _ q (some type))
    refine ⟨l1 ++ type :: l2, ⟨?_, hnodup, ?_, ?_⟩, hrel', hmem⟩
    · have hchain := h.chain.insert h.nodup htype hlast
      rw [or_none, ← hlinks, ← setNext_links] at hchain
      exact hchain
    · exact hrel'.sorted hsorted
    · rcases h.cursor with ⟨-, hnil⟩ | ⟨t, ht, hnext⟩
      · rw [(append_eq_nil_iff.mp hnil).1] at hlast
        cases hlast
      · exact .inr ⟨t, (hmem t).mpr (.inr ht), hnext⟩

/-- The cursor leaves the area that was taken off. -/
theorem cursor_linked (h : Linked s (l1 ++ type :: l2))
    (hchain : Chain (fun t => (s'.info t).next) s'.head (l1 ++ l2) none) (hrel : Relinked s s')
    (hnext : s'.next = s.next) :
    Linked (if s'.next = some type then { s' with next := s'.head } else s') (l1 ++ l2) ∧
      Relinked s (if s'.next = some type then { s' with next := s'.head } else s') := by
  have hsub : (l1 ++ l2).Sublist (l1 ++ type :: l2) := (sublist_cons_self ..).append_left l1
  have hsorted := hrel.sorted (h.sorted.sublist hsub)
  split
  · refine ⟨⟨hchain, h.nodup.sublist hsub, hsorted, ?_⟩, { hrel with }⟩
    rw [hchain.start]
    cases l1 ++ l2 with
    | nil => exact .inl ⟨rfl, rfl⟩
    | cons t l => exact .inr ⟨t, mem_cons_self, rfl⟩
  next hne =>
    refine ⟨⟨hchain, h.nodup.sublist hsub, hsorted, ?_⟩, hrel⟩
    rw [hnext] at hne ⊢
    rcases h.cursor with ⟨-, hnil⟩ | ⟨t, ht, hcur⟩
    · simp at hnil
    · refine .inr ⟨t, ?_, hcur⟩
      have htype : t ≠ type := fun heq => hne (heq ▸ hcur)
      simpa [htype] using ht

theorem removeArea_linked (h : Linked s (l1 ++ type :: l2)) :
    Linked (removeArea s l1.getLast? type) (l1 ++ l2) ∧
      Relinked s (removeArea s l1.getLast? type) := by
  unfold removeArea
  cases hlast : l1.getLast? with
  | none =>
    cases getLast?_eq_none_iff.mp hlast
    exact cursor_linked h h.chain.2 ⟨fun _ => rfl, rfl, rfl, rfl⟩ rfl
  | some q =>
    have hchain := h.chain.remove h.nodup hlast
    rw [← setNext_links] at hchain
    exact cursor_linked h hchain (setNext_relinked ..) rfl

/-! ## Steps -/

/-- What a step does. The calls around the locks of the slots change a lock and who waits for
one. -/
inductive Effect (s : State) : Call → State → Nat → Prop where
  | swapon (prefer : Option Nat) : Effect s (.swapon prefer) (sysSwapon s prefer) 0
  | swaponDone {type : Nat} {found : Option Found} {s' : State} (hb : s.busy type = some .swapon)
      (hvalid : ∀ f ∈ found, f.Valid) (h : swaponDone s type found = some s') :
      Effect s (.swaponDone type found) (idle s' type) 0
  | swapoff {inode : Inode} {s' : State} (h : sysSwapoff s inode = some s') :
      Effect s (.swapoff inode) s' 0
  | swapoffDone {type : Nat} {unused : Bool} {s' : State} (hb : s.busy type = some .swapoff)
      (h : swapoffDone s type unused = some s') :
      Effect s (.swapoffDone type unused) (idle s' type) 0
  | getSwapPage {s' : State} {e : Nat} (h : getSwapPage s = some (s', e)) :
      Effect s .getSwapPage s' e
  | swapDuplicate (entry : Nat) : Effect s (.swapDuplicate entry) (swapDuplicate s entry) 0
  | swapFree (entry : Nat) : Effect s (.swapFree entry) (swapFree s entry) 0
  | waits (call : Call) (sleepers : List (Nat × Nat)) :
      Effect s call { s with sleepers := sleepers } 0
  | locks (call : Call) (type offset : Nat) (b : Bool) (sleepers : List (Nat × Nat)) :
      Effect s call { setLock s type offset b with sleepers := sleepers } 0

theorem step_effect (h : step s call = some (s', e)) :
    Effect s call s' e := by
  cases call with
  | swapon prefer =>
    cases h
    exact .swapon prefer
  | swaponDone type found =>
    obtain ⟨⟨hb, hvalid⟩, h⟩ := ite_none_right_eq_some.mp h
    obtain ⟨s1, hdone, ⟨⟩⟩ := map_eq_some_iff.mp h
    exact .swaponDone hb hvalid hdone
  | swapoff inode =>
    obtain ⟨s1, hoff, ⟨⟩⟩ := map_eq_some_iff.mp h
    exact .swapoff hoff
  | swapoffDone type unused =>
    obtain ⟨hb, h⟩ := ite_none_right_eq_some.mp h
    obtain ⟨s1, hdone, ⟨⟩⟩ := map_eq_some_iff.mp h
    exact .swapoffDone hb hdone
  | getSwapPage => exact .getSwapPage h
  | swapDuplicate entry =>
    cases h
    exact .swapDuplicate entry
  | swapFree entry =>
    cases h
    exact .swapFree entry
  | rwSwapPage entry =>
    cases h
    rw [rwSwapPage]
    split
    · split
      · exact .waits ..
      · exact .locks _ _ _ true s.sleepers
    · exact .waits _ s.sleepers
  | retryLock type offset =>
    cases h
    rw [retryLock]
    split
    · exact .locks _ _ _ true _
    · exact .waits _ s.sleepers
  | rwDone type offset =>
    cases h
    rw [rwDone]
    split
    · exact .locks _ _ _ false s.sleepers
    · exact .waits _ s.sleepers
  | swapAfterUnlockPage entry =>
    cases h
    rw [swapAfterUnlockPage]
    split
    · exact .locks _ _ _ false s.sleepers
    · exact .waits _ s.sleepers

/-- An area that is not on the list changes. -/
theorem Linked.setInfo (h : Linked s l) (htype : type ∉ l) (p : SwapInfo) :
    Linked (setInfo s type p) l := by
  have hinfo : ∀ t ∈ l, (Swap.setInfo s type p).info t = s.info t := fun t ht =>
    setInfo_of_ne (show t ≠ type from fun heq => htype (heq ▸ ht)) ..
  exact h.congr (fun t ht => congrArg SwapInfo.next (hinfo t ht))
    (fun t ht => congrArg SwapInfo.prio (hinfo t ht)) rfl h.cursor

/-- Nothing changes that the list is made of. -/
theorem Linked.same (h : Linked s l) (hinfo : s'.info = s.info) (hhead : s'.head = s.head)
    (hnext : s'.next = s.next) : Linked s' l := by
  refine h.congr ?_ ?_ hhead ?_
  · simp [hinfo]
  · simp [hinfo]
  · rw [hnext]
    exact h.cursor

section
variable (h : ListInv s l)
include h

/-- One area comes or goes. -/
theorem ListInv.change (hlinked : Linked s' l')
    (hmem : ∀ t ≠ type, t ∈ l' ↔ t ∈ l) (hflags : ∀ t ≠ type, (s'.info t).flags = (s.info t).flags)
    (hbusy : ∀ t ≠ type, s'.busy t = s.busy t) (hnr : s.nrSwapfiles ≤ s'.nrSwapfiles)
    (hmax : s'.nrSwapfiles ≤ maxSwapfiles) (htype : type < s'.nrSwapfiles)
    (hmem' : type ∈ l' ↔ (s'.info type).flags = .writeok)
    (hbusy' : ∀ b, s'.busy type = some b → (s'.info type).flags = .used) : ListInv s' l' where
  toLinked := hlinked
  mem t := by
    by_cases hne : t = type
    · rw [hne]
      exact hmem'
    · rw [hmem t hne, hflags t hne]
      exact h.mem t
  bound t ht := by
    by_cases hne : t = type
    · rw [hne]
      exact htype
    · rw [hflags t hne] at ht
      exact Nat.lt_of_lt_of_le (h.bound t ht) hnr
  nr := hmax
  busy t b hb := by
    by_cases hne : t = type
    · rw [hne] at hb ⊢
      exact hbusy' b hb
    · rw [hbusy t hne] at hb
      rw [hflags t hne]
      exact h.busy t b hb

theorem ListInv.not_mem (hflags : (s.info type).flags ≠ .writeok) : type ∉ l :=
  fun ht => hflags ((h.mem type).mp ht)

theorem ListInv.busy_not_mem (hb : s.busy type = some b) : type ∉ l := by
  apply h.not_mem
  rw [h.busy type b hb]
  decide

theorem ListInv.busy_lt (hb : s.busy type = some b) : type < s.nrSwapfiles := by
  apply h.bound
  rw [h.busy type b hb]
  decide

theorem findUnused_flags : (s.info (findUnused s s.nrSwapfiles)).flags = .unused := by
  rw [findUnused]
  cases hfind : (List.range s.nrSwapfiles).find? fun type => (s.info type).flags = .unused with
  | none =>
    by_contra hflags
    exact Nat.lt_irrefl _ (h.bound _ hflags)
  | some t => simpa using find?_some hfind

theorem sysSwapon_listInv (prefer : Option Nat) : ListInv (sysSwapon s prefer) l := by
  have hflags := findUnused_flags h
  rw [sysSwapon]
  split
  · exact h
  next hlt =>
    have htype : findUnused s s.nrSwapfiles ∉ l := h.not_mem (by rw [hflags]; decide)
    refine h.change ((h.setInfo htype _).same rfl rfl rfl) (fun _ _ => Iff.rfl)
      (fun t hne => congrArg SwapInfo.flags (setInfo_of_ne hne ..))
      (fun t hne => update_of_ne hne ..) (Nat.le_max_left ..) ?_ (Nat.le_max_right ..)
      ?_ ?_
    · exact Nat.max_le.mpr ⟨h.nr, Nat.lt_of_not_le hlt⟩
    · refine iff_of_false htype ?_
      rw [setInfo_self]
      exact Flags.noConfusion
    · intro b _
      rw [setInfo_self]

end

theorem idle_busy (s : State) (type : Nat) : (idle s type).busy type = none :=
  update_self ..

section
variable (h : ListInv s l)
include h

/-- An area that is not on the list is given up. -/
theorem drop_listInv (hb : s.busy type = some b) (hp : p.flags = .unused)
    (pages : Int) : ListInv (idle { setInfo s type p with nrSwapPages := pages } type) l := by
  have htype := h.busy_not_mem hb
  refine h.change ((h.setInfo htype p).same rfl rfl rfl) (fun _ _ => Iff.rfl)
    (fun t hne => congrArg SwapInfo.flags (setInfo_of_ne hne s p))
    (fun t hne => update_of_ne hne ..) le_rfl h.nr (h.busy_lt hb) ?_ ?_
  · refine iff_of_false htype ?_
    show ((setInfo s type p).info type).flags ≠ .writeok
    rw [setInfo_self, hp]
    decide
  · intro b' hb'
    rw [idle_busy] at hb'
    cases hb'

/-- An area that was not on the list is on it. -/
theorem put_listInv (hb : s.busy type = some b)
    (hlinked : Linked s' l') (hmem : ∀ t, t ∈ l' ↔ t = type ∨ t ∈ l)
    (hflags : ∀ t ≠ type, (s'.info t).flags = (s.info t).flags)
    (htype : (s'.info type).flags = .writeok) (hnr : s'.nrSwapfiles = s.nrSwapfiles)
    (hbusy : s'.busy = s.busy) : ListInv (idle s' type) l' := by
  refine h.change (hlinked.same rfl rfl rfl) (fun t hne => ?_) hflags
    (fun t hne => ?_) hnr.ge (hnr.trans_le h.nr) ((h.busy_lt hb).trans_eq hnr.symm) ?_ ?_
  · rw [hmem]
    exact or_iff_right hne
  · rw [← hbusy]
    exact update_of_ne hne ..
  · exact iff_of_true ((hmem type).mpr (.inl rfl)) htype
  · intro b' hb'
    rw [idle_busy] at hb'
    cases hb'

theorem enter_listInv (hb : s.busy type = some b) (hp : p.flags = .writeok) {pages : Int}
    (hins : insertArea { setInfo s type p with nrSwapPages := pages } type = some s') :
    ∃ l', ListInv (idle s' type) l' := by
  have htype := h.busy_not_mem hb
  have hlinked : Linked { setInfo s type p with nrSwapPages := pages } l :=
    (h.setInfo htype p).same rfl rfl rfl
  obtain ⟨l', hlinked', hrel, hmem⟩ := insertArea_linked hlinked h.length_le htype hins
  refine ⟨l', put_listInv h hb hlinked' hmem ?_ ?_ hrel.nr hrel.busy⟩
  · intro t hne
    rw [hrel.flags]
    exact congrArg SwapInfo.flags (setInfo_of_ne hne s p)
  · rw [hrel.flags]
    exact (congrArg SwapInfo.flags (setInfo_self s type p)).trans hp

omit h in
theorem setFlags_linked (h : Linked s l) (f : Flags) :
    Linked (setInfo s type { s.info type with flags := f }) l := by
  refine h.congr (fun t _ => ?_) (fun t _ => ?_) rfl h.cursor
  all_goals
    by_cases hne : t = type
    · rw [hne, setInfo_self]
    · rw [setInfo_of_ne hne]

theorem swapoffDone_listInv (hb : s.busy type = some .swapoff) {unused : Bool}
    (hdone : swapoffDone s type unused = some s') : ∃ l', ListInv (idle s' type) l' := by
  rw [swapoffDone] at hdone
  split at hdone
  · cases hdone
    exact ⟨l, drop_listInv h hb rfl _⟩
  · obtain ⟨s1, hins, rfl⟩ := map_eq_some_iff.mp hdone
    obtain ⟨l', hlinked, hrel, hmem⟩ :=
      insertArea_linked h.toLinked h.length_le (h.busy_not_mem hb) hins
    refine ⟨l', put_listInv h hb (setFlags_linked hlinked .writeok) hmem ?_ ?_ hrel.nr hrel.busy⟩
    · intro t hne
      rw [setInfo_of_ne hne, hrel.flags]
    · rw [setInfo_self]

theorem sysSwapoff_listInv {inode : Inode} (hoff : sysSwapoff s inode = some s') :
    ∃ l', ListInv s' l' := by
  obtain ⟨l1, l2, rfl, -, -, hwalk⟩ :=
    walk_eq (swapoffMatch inode) none h.chain (Nat.lt_succ_of_le h.length_le)
  rw [sysSwapoff, hwalk, map_some, or_none] at hoff
  cases l2 with
  | nil =>
    cases hoff
    exact ⟨_, h⟩
  | cons type l2 =>
    cases hoff
    obtain ⟨hlinked, hrel⟩ := removeArea_linked h.toLinked
    have htype : type ∉ l1 ++ l2 := (nodup_cons.mp (nodup_middle.mp h.nodup)).1
    have hflags : (s.info type).flags = .writeok := (h.mem type).mp (by simp)
    have hlt : type < s.nrSwapfiles := h.bound type (by rw [hflags]; decide)
    have hlinked' : Linked
        { setInfo (removeArea s l1.getLast? type) type
            { (removeArea s l1.getLast? type).info type with flags := .used } with
          busy := update (removeArea s l1.getLast? type).busy type (some .swapoff) }
        (l1 ++ l2) :=
      (setFlags_linked hlinked .used).same rfl rfl rfl
    have hused : ((setInfo (removeArea s l1.getLast? type) type
        { (removeArea s l1.getLast? type).info type with flags := .used }).info type).flags =
          .used := by
      rw [setInfo_self]
    refine ⟨l1 ++ l2, h.change hlinked' ?_ ?_ ?_ hrel.nr.ge (hrel.nr.trans_le h.nr)
      (hlt.trans_eq hrel.nr.symm) (iff_of_false htype ?_) fun _ _ => hused⟩
    · intro t hne
      simp [hne]
    · intro t hne
      rw [← hrel.flags t]
      exact congrArg SwapInfo.flags (setInfo_of_ne hne ..)
    · intro t hne
      rw [← hrel.busy]
      exact update_of_ne hne ..
    · intro hflags'
      cases hused.symm.trans hflags'

omit h in
theorem setMap_sameList (s : State) (type : Nat) (m : Nat → Nat) :
    SameList s (setInfo s type { s.info type with swapMap := m }) :=
  setInfo_sameList rfl rfl rfl

theorem swapDuplicate_listInv (entry : Nat) : ListInv (swapDuplicate s entry) l := by
  rw [swapDuplicate]
  split
  · dsimp only
    split
    · exact h
    · exact h.same (setMap_sameList ..) rfl
  · exact h

end

theorem release_same (s : State) (type offset : Nat) :
    SameList s (release s type offset) ∧ (release s type offset).next = s.next := by
  rw [release]
  split
  · exact ⟨.refl s, rfl⟩
  · split
    · exact ⟨(setMap_sameList ..).pages _, rfl⟩
    · exact ⟨setMap_sameList .., rfl⟩

section
variable (h : ListInv s l)
include h

theorem rewind_listInv (type : Nat) : ListInv (rewind s type) l := by
  rw [rewind]
  split
  · exact h.rewound { SameList.refl s with } rfl
  · exact h

theorem swapFree_listInv (entry : Nat) : ListInv (swapFree s entry) l := by
  rw [swapFree]
  split
  · obtain ⟨hsame, hnext⟩ := release_same _ _ _
    exact rewind_listInv
      ((h.same (setInfo_sameList (by rfl) (by rfl) (by rfl)) rfl).same hsame hnext) _
  · exact h

theorem step_listInv (hstep : step s call = some (s', e)) :
    ∃ l', ListInv s' l' := by
  cases step_effect hstep with
  | swapon prefer => exact ⟨l, sysSwapon_listInv h prefer⟩
  | @swaponDone type found _ hb _ hdone =>
    cases found with
    | none =>
      cases hdone
      exact ⟨l, drop_listInv h hb rfl s.nrSwapPages⟩
    | some found => exact enter_listInv h hb rfl hdone
  | swapoff hoff => exact sysSwapoff_listInv h hoff
  | swapoffDone hb hdone => exact swapoffDone_listInv h hb hdone
  | getSwapPage hget =>
    obtain ⟨s1, e1, heq, hinv⟩ := getSwapPage_listInv h
    cases heq.symm.trans hget
    exact ⟨l, hinv⟩
  | swapDuplicate entry => exact ⟨l, swapDuplicate_listInv h entry⟩
  | swapFree entry => exact ⟨l, swapFree_listInv h entry⟩
  | waits => exact ⟨l, h.same { SameList.refl s with } rfl⟩
  | locks _ type offset b =>
    have hsame : SameList s (setLock s type offset b) := setInfo_sameList rfl rfl rfl
    exact ⟨l, h.same { hsame with } rfl⟩

end

theorem init_listInv (below : Int) : ListInv (init below) [] where
  chain := rfl
  nodup := nodup_nil
  sorted := List.Pairwise.nil
  cursor := .inl ⟨rfl, rfl⟩
  mem t := iff_of_false (by simp) (by simp [init, blank])
  bound t ht := absurd rfl ht
  nr := Nat.zero_le _
  busy t b hb := by cases hb

end

/-! ## Runs -/

def swaps (below : Int) : System State where
  init s := s = init below
  step s s' := ∃ call e, step s call = some (s', e)

theorem listInv {below : Int} (h : (swaps below).Reachable s) : ∃ l, ListInv s l := by
  refine h.invariant (I := fun s => ∃ l, ListInv s l) ?_ ?_
  · rintro s rfl
    exact ⟨[], init_listInv below⟩
  · rintro s s' ⟨l, hinv⟩ ⟨call, e, hstep⟩
    exact step_listInv hinv hstep

/-- The call reads `swap_info[swap_list.next]`. -/
def Reads (s : State) : Call → Prop
  | .getSwapPage => s.next ≠ none ∧ s.nrSwapPages ≠ 0
  | .swapFree entry => Frees s entry
  | _ => False

/-- In `swap_free` some area is on the list. -/
def Listed (s : State) : Call → Prop
  | .swapFree _ => s.head ≠ none
  | _ => True

theorem ListInv.cursor_of_reads {l : List Nat} (h : ListInv s l)
    (hreads : Reads s call) (hlisted : Listed s call) : ∃ t ∈ l, s.next = some t := by
  rcases h.cursor with ⟨hnext, rfl⟩ | hcur
  · cases call with
    | getSwapPage => exact absurd hnext hreads.1
    | swapFree entry => exact absurd h.chain hlisted
    | _ => exact hreads.elim
  · exact hcur

theorem swap_list_sound {below : Int} {s : State} (h : (swaps below).Reachable s) :
    (∃ l, Chain (fun t => (s.info t).next) s.head l none ∧
      l.Pairwise (fun t u => (s.info u).prio ≤ (s.info t).prio) ∧
      ∀ t, t ∈ l ↔ (s.info t).flags = .writeok) ∧
    (∀ call, Listed s call → Reads s call →
      ∃ t, s.next = some t ∧ t < s.nrSwapfiles ∧ (s.info t).flags = .writeok) ∧
    ∃ s' e, getSwapPage s = some (s', e) := by
  obtain ⟨l, hinv⟩ := listInv h
  refine ⟨⟨l, hinv.chain, hinv.sorted, hinv.mem⟩, ?_, ?_⟩
  · intro call hlisted hreads
    obtain ⟨t, ht, hnext⟩ := hinv.cursor_of_reads hreads hlisted
    have hflags := (hinv.mem t).mp ht
    exact ⟨t, hnext, hinv.bound t (by rw [hflags]; decide), hflags⟩
  · obtain ⟨s', e, heq, -⟩ := getSwapPage_listInv hinv
    exact ⟨s', e, heq⟩

/-- Two areas; the one with the lower priority is turned off. -/
theorem swap_list_sound_two : ∃ s, (swaps 0).Reachable s ∧ (s.info 0).flags = .used ∧
    Frees s (swpEntry 0 1) ∧ s.next = some 1 ∧ 1 < s.nrSwapfiles := by
  have hinit : (swaps 0).Reachable (init 0) := .init rfl
  obtain ⟨s, hreach, hused, hhead, hfrees, hone⟩ := hinit.runs (f := step) (g := fun _ _ => True)
    (l := [.swapon none, .swaponDone 0 (some ⟨none, 1, [1]⟩), .getSwapPage,
      .swapon (some 3), .swaponDone 1 (some ⟨none, 2, [1, 2]⟩), .swapoff ⟨0, true, 1⟩])
    (p := fun s => (s.info 0).flags = .used ∧ s.head ≠ none ∧ Frees s (swpEntry 0 1) ∧
      s.next = some 1) (fun _ a _ e _ hstep => ⟨a, e, hstep⟩) (by decide)
  obtain ⟨t, hnext, hlt, -⟩ := (swap_list_sound hreach).2.1 (.swapFree (swpEntry 0 1)) hhead hfrees
  cases hone.symm.trans hnext
  exact ⟨s, hreach, hused, hfrees, hnext, hlt⟩

/-- The only area is turned off, and its page has been read back. -/
theorem reads_below : ∃ s, (swaps 0).Reachable s ∧ s.busy 0 = some .swapoff ∧
    Reads s (.swapFree (swpEntry 0 1)) ∧ s.next = none := by
  have hinit : (swaps 0).Reachable (init 0) := .init rfl
  obtain ⟨s, hreach, hbusy, hfrees, hnext⟩ := hinit.runs (f := step) (g := fun _ _ => True)
    (l := [.swapon none, .swaponDone 0 (some ⟨none, 1, [1]⟩), .getSwapPage, .swapoff ⟨0, true, 1⟩,
      .rwSwapPage (swpEntry 0 1), .rwDone 0 1])
    (p := fun s => s.busy 0 = some .swapoff ∧ Frees s (swpEntry 0 1) ∧ s.next = none)
    (fun _ a _ e _ hstep => ⟨a, e, hstep⟩) (by decide)
  exact ⟨s, hreach, hbusy, hfrees, hnext⟩

end Sbckernel.Swap
