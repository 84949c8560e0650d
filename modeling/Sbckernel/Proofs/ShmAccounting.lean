import Sbckernel.Lib.Reach
import Sbckernel.Proofs.ShmTables

/-!
# The accounts of shared memory

`shm_rss` is to be the number of pages in memory and `shm_swp` the number of pages in
swap space. `shm_swap_in` looks at its entry again after each sleep, and is right. Two
routines are not. `shm_swap` stores the swap entry before it writes the page and
changes the counters after it, so while it writes both are off by one. And
`shm_unuse_page` does not look again at all: when the page has been read in by somebody
else in the meantime, it stores its own page over the other one, counts it a second time
and frees the swap entry a second time. Nobody looks again whether the segment still
exists.

In a run in which what `shm_unuse_page` has read stays in its slot while it sleeps, and
no segment goes away for which a task reads a page in, the counters are off by exactly
the number of pages that are being written, and each swap entry that has been taken and
not freed is in one slot.
-/

namespace Sbckernel.Ipc.Shm

open Lib Function Option Finset

def isWriting : Phase → Int
  | .write _ _ => 1
  | _ => 0

/-- The number of pages that `shm_swap` is writing. -/
def writing (s : State) : Int := ∑ t : Task, isWriting (s.phase t)

/-- The segment of a task that reads a page in is there, and so is the entry that
`shm_unuse_page` has read. -/
def Calm (s : State) : Phase → Prop
  | .swapInPage shp _ => Live s shp
  | .swapInRead shp _ _ _ => Live s shp
  | .unusePage _ _ shp n entry => Live s shp ∧ s.shmPages shp n = .swap entry
  | .unuseRead _ _ shp n entry _ => Live s shp ∧ s.shmPages shp n = .swap entry
  | _ => True

instance (s : State) (p : Phase) : Decidable (Calm s p) := by
  cases p <;> unfold Calm <;> infer_instance

/-- Nobody has interfered with a task that sleeps. -/
def Undisturbed (s : State) : Prop := ∀ t, Calm s (s.phase t)
  deriving Decidable

/-- The index of a task that reads a page in is within the table. -/
def InTable (s : State) : Phase → Prop
  | .swapInPage shp idx => idx < s.shmNpages shp
  | .swapInRead shp idx _ _ => idx < s.shmNpages shp
  | .unusePage _ _ shp n _ => n < s.shmNpages shp
  | .unuseRead _ _ shp n _ _ => n < s.shmNpages shp
  | _ => True

structure Books (s : State) : Prop where
  segs : Segments s
  rss : s.shmRss = count isPresent s + writing s
  swp : s.shmSwp = count isSwap s - writing s
  ledger : ∀ e, (s.taken e : Int) = s.freed e + count (holds e) s
  once : ∀ e, count (holds e) s ≤ 1
  bounds : ∀ t, InTable s (s.phase t)

section
variable {s s' : State} {f : Pte → Int} {t : Task} {id idx n type m : Nat} {shp : Seg} {e : Entry}
  {page : Page} {p : Phase} {counter : Int}

theorem goto_phase (s : State) (t t' : Task) (p : Phase) :
    (goto s t p).phase t' = if t' = t then p else s.phase t' := update_apply ..

theorem writing_goto (s : State) (t : Task) (p : Phase) :
    writing (goto s t p) = writing s + (isWriting p - isWriting (s.phase t)) := by
  have hchange : writing (goto s t p) =
      writing s + (isWriting ((goto s t p).phase t) - isWriting (s.phase t)) :=
    sum_change (mem_univ t) fun t' _ hne => by rw [goto_phase, if_neg hne]
  rwa [goto_phase, if_pos rfl] at hchange

theorem Books.bounds_goto (h : Books s) (hp : InTable s p) (t' : Task) :
    InTable s ((Shm.goto s t p).phase t') := by
  rw [goto_phase]
  split
  · exact hp
  · exact h.bounds t'

/-- A task moves on without touching the tables and the counters. -/
theorem Books.goto (h : Books s) (hwriting : isWriting p = isWriting (s.phase t))
    (hp : InTable s p) : Books (Shm.goto s t p) := by
  have hw : writing (Shm.goto s t p) = writing s := by
    rw [writing_goto, hwriting]
    omega
  refine ⟨⟨h.segs.distinct, h.segs.ids⟩, ?_, ?_, h.ledger, h.once, h.bounds_goto hp⟩
  · rw [hw]
    exact h.rss
  · rw [hw]
    exact h.swp

/-- The entry `o` of a table changes to `n`, and the counters change with it. -/
theorem Books.repage (h : Books s) (hsegs : Segments s') {o n : Pte}
    (hcount : ∀ f : Pte → Int, count f s' = count f s + (f n - f o))
    (hrss : s'.shmRss - writing s' = s.shmRss - writing s + (isPresent n - isPresent o))
    (hswp : s'.shmSwp + writing s' = s.shmSwp + writing s + (isSwap n - isSwap o))
    (hledger : ∀ e, (s'.taken e : Int) - s'.freed e =
      s.taken e - s.freed e + (holds e n - holds e o))
    (honce : ∀ e, count (holds e) s + (holds e n - holds e o) ≤ 1)
    (hbounds : ∀ t, InTable s' (s'.phase t)) : Books s' := by
  have hr := h.rss
  have hs := h.swp
  refine ⟨hsegs, by rw [hcount]; omega, by rw [hcount]; omega, fun e => ?_, fun e => ?_, hbounds⟩
  · have := h.ledger e
    have := hledger e
    rw [hcount]
    omega
  · rw [hcount]
    exact honce e

/-- The page is in memory and its swap entry is free. -/
def readIn (s : State) (shp : Seg) (idx : Nat) (e : Entry) (page : Page) : State :=
  { setPage s shp idx (.present page) with
    shmRss := s.shmRss + 1
    shmSwp := s.shmSwp - 1
    freed := update s.freed e (s.freed e + 1) }

section
variable (h : Books s) (hlive : s.shmSegs id = .live shp) (hidx : idx < s.shmNpages shp)
include h hlive hidx

theorem Books.readIn
    (hpte : s.shmPages shp idx = .swap e) (page : Page) : Books (Shm.readIn s shp idx e page) := by
  refine h.repage ⟨h.segs.distinct, h.segs.ids⟩
    (fun f => hpte ▸ count_setPage h.segs hlive hidx (.present page)) ?_ ?_ (fun e' => ?_)
    (fun e' => ?_) h.bounds
  · show s.shmRss + 1 - writing s = s.shmRss - writing s + (1 - 0)
    omega
  · show s.shmSwp - 1 + writing s = s.shmSwp + writing s + (0 - 1)
    omega
  · show (s.taken e' : Int) - update s.freed e (s.freed e + 1) e' =
      s.taken e' - s.freed e' + (0 - holds e' (.swap e))
    rw [update_succ]
    omega
  · have honce := h.once e'
    have hheld := holds_nonneg e' (.swap e)
    show count (holds e') s + (0 - holds e' (.swap e)) ≤ 1
    omega

/-! ## `shm_swap_in` -/

/-- The first use of a page. -/
theorem Books.fill (hpte : s.shmPages shp idx = .none) (page : Page) :
    Books (setPage { s with shmRss := s.shmRss + 1 } shp idx (.present page)) := by
  refine h.repage ⟨h.segs.distinct, h.segs.ids⟩
    (fun f => hpte ▸ count_setPage h.segs hlive hidx (.present page)) ?_ ?_
    (fun e' => (Int.add_zero _).symm) (fun e' => by simpa [holds] using h.once e') h.bounds
  · show s.shmRss + 1 - writing s = s.shmRss - writing s + (1 - 0)
    omega
  · show s.shmSwp + writing s = s.shmSwp + writing s + (0 - 0)
    omega

theorem Books.swapInRepeat (hphase : isWriting (s.phase t) = 0) (page : Page) :
    Books (Shm.swapInRepeat s t shp idx page) := by
  rw [Shm.swapInRepeat]
  split
  · exact h.goto hphase.symm trivial
  next hpte => exact (h.fill hlive hidx hpte page).goto hphase.symm trivial
  next entry hpte => exact h.goto hphase.symm hidx

theorem Books.swapInDone (hphase : isWriting (s.phase t) = 0) (e : Entry) (page : Page) :
    Books (Shm.swapInDone s t shp idx e page) := by
  rw [Shm.swapInDone]
  split
  · exact h.swapInRepeat hlive hidx hphase page
  next hpte => exact (h.readIn hlive hidx (not_not.mp hpte) page).goto hphase.symm trivial

end

theorem Books.shmSwapIn (h : Books s) (hphase : s.phase t = .idle) (id idx : Nat) :
    Books (Shm.shmSwapIn s t id idx) := by
  have hidle : Books (Shm.goto s t .idle) := h.goto (by rw [hphase]) trivial
  rw [Shm.shmSwapIn]
  split
  · exact hidle
  split
  next shp _ =>
    split
    · exact hidle
    next hidx =>
      split
      · exact hidle
      · exact h.goto (by rw [hphase]; rfl) (not_le.mp hidx)
  · exact hidle

/-! ## `shm_unuse` -/

theorem unusePages_some {left : Nat} (h : unusePages s type shp left n = some (m, e)) :
    n ≤ m ∧ m < n + left ∧ s.shmPages shp m = .swap e := by
  induction left generalizing n with
  | zero => cases h
  | succ left ih =>
    have hrest : unusePages s type shp left (n + 1) = some (m, e) →
        n ≤ m ∧ m < n + (left + 1) ∧ s.shmPages shp m = .swap e := fun hnext => by
      obtain ⟨hlo, hhi, hswap⟩ := ih hnext
      exact ⟨by omega, by omega, hswap⟩
    rw [unusePages] at h
    split at h
    next entry hpte =>
      split at h
      · cases h
        exact ⟨by omega, by omega, hpte⟩
      · exact hrest h
    · exact hrest h

/-- The loops of `shm_unuse` find an entry in a table, or end. -/
theorem Books.unuseFrom (h : Books s) (hphase : isWriting (s.phase t) = 0) (type left i n : Nat) :
    Books (Shm.unuseFrom s t type left i n) := by
  induction left generalizing i n with
  | zero => exact h.goto hphase.symm trivial
  | succ left ih =>
    rw [Shm.unuseFrom]
    split
    next shp hlive =>
      split
      next m e hsome =>
        obtain ⟨hlo, hhi, -⟩ := unusePages_some hsome
        exact h.goto hphase.symm (show m < s.shmNpages shp by omega)
      · exact ih (i + 1) 0
    · exact ih (i + 1) 0

/-! ## `shm_swap` -/

theorem scanTable_take {look : Look} {idx : Nat}
    (h : scanTable s look shp n idx counter = .take m page) :
    idx ≤ m ∧ m < idx + n ∧ s.shmPages shp m = .present page := by
  induction n generalizing idx counter with
  | zero => cases h
  | succ n ih =>
    have hrest : ∀ {counter}, scanTable s look shp n (idx + 1) counter = .take m page →
        idx ≤ m ∧ m < idx + (n + 1) ∧ s.shmPages shp m = .present page := fun hscan => by
      obtain ⟨hlo, hhi, hpte⟩ := ih hscan
      exact ⟨by omega, by omega, hpte⟩
    rw [scanTable] at h
    split at h
    next page' hpte =>
      split at h
      · exact hrest h
      split at h
      · cases h
      split at h
      · exact hrest h
      · cases h
        exact ⟨by omega, by omega, hpte⟩
    · exact hrest h

theorem scanIds_take {look : Nat → Look} {ids : List Nat} {swapIdx : Nat}
    (h : scanIds s look ids swapIdx counter = .take id shp idx page) :
    s.shmSegs id = .live shp ∧ idx < s.shmNpages shp ∧ s.shmPages shp idx = .present page := by
  induction ids generalizing swapIdx counter with
  | nil => cases h
  | cons id' ids ih =>
    rw [scanIds] at h
    split at h
    · cases h
    split at h
    next shp' hlive =>
      split at h
      · exact ih h
      split at h
      · exact ih h
      · cases h
      next idx' page' htable =>
        cases h
        obtain ⟨hlo, hhi, hpte⟩ := scanTable_take htable
        exact ⟨hlive, by omega, hpte⟩
    · exact ih h

/-- The entry has taken the place of a page that is being written. -/
def swapOut (s : State) (t : Task) (id : Nat) (shp : Seg) (idx : Nat) (e : Entry) (page : Page) :
    State :=
  goto (setPage { s with
      taken := update s.taken e (s.taken e + 1)
      swapId := id
      swapIdx := idx + 1 } shp idx (.swap e)) t (.write e page)

section
variable (h : Books s)
include h

theorem Books.swapOut (hlive : s.shmSegs id = .live shp) (hidx : idx < s.shmNpages shp)
    (hpte : s.shmPages shp idx = .present page) (havail : s.taken e = s.freed e)
    (hphase : isWriting (s.phase t) = 0) : Books (Shm.swapOut s t id shp idx e page) := by
  have hw : writing (Shm.swapOut s t id shp idx e page) = writing s + (1 - isWriting (s.phase t)) :=
    writing_goto _ t (.write e page)
  refine h.repage ⟨h.segs.distinct, h.segs.ids⟩
    (fun f => hpte ▸ count_setPage h.segs hlive hidx (.swap e)) ?_ ?_ (fun e' => ?_) (fun e' => ?_)
    (h.bounds_goto (p := .write e page) trivial)
  · show s.shmRss - writing _ = s.shmRss - writing s + (0 - 1)
    omega
  · show s.shmSwp + writing _ = s.shmSwp + writing s + (1 - 0)
    omega
  · show (update s.taken e (s.taken e + 1) e' : Int) - s.freed e' =
      s.taken e' - s.freed e' + (holds e' (.swap e) - 0)
    rw [update_succ]
    omega
  · have honce := h.once e'
    have hledger := h.ledger e
    show count (holds e') s + ((if e = e' then 1 else 0) - 0) ≤ 1
    split
    next he =>
      subst he
      omega
    · omega

/-- `shm_swap` up to its sleep. -/
theorem Books.shmSwap (hphase : s.phase t = .idle) (prio : Nat)
    {swapNr : Option Entry} (havail : swapNr.all (available s) = true) {look : Nat → Look}
    (hswap : Shm.shmSwap s t prio swapNr look = some s') : Books s' := by
  have hidle : Books (Shm.goto s t .idle) := h.goto (by rw [hphase]) trivial
  unfold Shm.shmSwap at hswap
  dsimp only at hswap
  split at hswap
  · cases hswap
    exact hidle
  split at hswap
  · cases hswap
    exact hidle
  next e =>
    split at hswap
    · cases hswap
    next swapId swapIdx hscan =>
      cases hswap
      -- the entry goes back
      refine ⟨⟨h.segs.distinct, h.segs.ids⟩, hidle.rss, hidle.swp, fun e' => ?_, h.once,
        hidle.bounds⟩
      have hledger := h.ledger e'
      show (update s.taken e (s.taken e + 1) e' : Int) =
        update s.freed e (s.freed e + 1) e' + count (holds e') s
      rw [update_succ, update_succ]
      omega
    next id shp idx page hscan =>
      cases hswap
      obtain ⟨hlive, hidx, hpte⟩ := scanIds_take hscan
      exact h.swapOut hlive hidx hpte (by simpa [available] using havail) (by rw [hphase]; rfl)

/-- `shm_swap` behind its sleep. -/
theorem Books.swapWritten (hphase : isWriting (s.phase t) = 1) : Books (Shm.swapWritten s t) := by
  have hw : writing (Shm.swapWritten s t) = writing s + (0 - isWriting (s.phase t)) :=
    writing_goto _ t .idle
  have hrss := h.rss
  have hswp := h.swp
  refine ⟨⟨h.segs.distinct, h.segs.ids⟩, ?_, ?_, h.ledger, h.once, fun t' => ?_⟩
  · rw [hw]
    show s.shmRss - 1 = count isPresent s + _
    omega
  · rw [hw]
    show s.shmSwp + 1 = count isSwap s - _
    omega
  · exact h.bounds_goto (p := .idle) trivial t'

/-! ## Segments -/

/-- A table comes or goes, and the counters go with it. -/
theorem Books.of_slots (hsegs : Segments s') (hphase : s'.phase = s.phase)
    (htaken : s'.taken = s.taken)
    (hrss : s'.shmRss - count isPresent s' = s.shmRss - count isPresent s)
    (hswp : s'.shmSwp - count isSwap s' = s.shmSwp - count isSwap s)
    (hfreed : ∀ e, s'.freed e + count (holds e) s' = s.freed e + count (holds e) s ∧
      count (holds e) s' ≤ count (holds e) s)
    (hbounds : ∀ t, InTable s' (s.phase t)) : Books s' := by
  have hw : writing s' = writing s := by rw [writing, writing, hphase]
  have hr := h.rss
  have hs := h.swp
  refine ⟨hsegs, by omega, by omega, fun e => ?_, fun e => ?_, fun t => ?_⟩
  · rw [htaken, h.ledger, (hfreed e).1]
  · exact (hfreed e).2.trans (h.once e)
  · rw [hphase]
    exact hbounds t

/-- A slot without a table changes to another one. -/
theorem Books.dead (hid : id < shmmni) (hdead : ∀ shp, s.shmSegs id ≠ .live shp) {slot : Slot}
    (hslot : ∀ shp, slot ≠ .live shp) : Books { s with shmSegs := update s.shmSegs id slot } := by
  have hcount : ∀ f : Pte → Int,
      count f { s with shmSegs := update s.shmSegs id slot } = count f s :=
    fun f => count_dead hid hdead hslot
  refine h.of_slots (h.segs.clear rfl hslot) rfl rfl ?_ ?_ (fun e => ?_) h.bounds
  · rw [hcount]
  · rw [hcount]
  · rw [hcount]
    exact ⟨rfl, le_rfl⟩

theorem Books.killseg (hid : id < shmmni) : Books (Shm.killseg s id) := by
  cases hslot : s.shmSegs id with
  | unused | noid =>
    rw [Shm.killseg, hslot]
    exact h
  | live shp =>
    obtain ⟨max, rss, swp, freed, heq, hrss, hswp, hfreed⟩ := killseg_spec hid hslot
    rw [heq] at hrss hswp hfreed ⊢
    exact h.of_slots (h.segs.clear rfl (by simp)) rfl rfl hrss hswp hfreed h.bounds

/-- No task sleeps on the address of the new segment. -/
theorem Books.newseg (hu : Undisturbed s) (hid : id < shmmni) (hnoid : s.shmSegs id = .noid)
    (hshp : ¬Live s shp) (numpages : Nat) : Books (Shm.newseg s id shp numpages) := by
  have hcount : ∀ f : Pte → Int, f .none = 0 →
      count f (Shm.newseg s id shp numpages) = count f s :=
    fun f hf => count_newseg hid hnoid hshp h.segs hf numpages
  refine h.of_slots (h.segs.newseg hid hshp) rfl rfl ?_ ?_ (fun e => ?_) fun t => ?_
  · rw [hcount isPresent rfl]
    rfl
  · rw [hcount isSwap rfl]
    rfl
  · rw [hcount (holds e) rfl]
    exact ⟨rfl, le_rfl⟩
  · have hkeep : ∀ {shp' n}, Live s shp' → n < s.shmNpages shp' →
        n < (Shm.newseg s id shp numpages).shmNpages shp' := by
      intro shp' n hlive hn
      have hne : shp' ≠ shp := fun heq => hshp (heq ▸ hlive)
      show n < update s.shmNpages shp numpages shp'
      rwa [update_of_ne hne]
    have hcalm := hu t
    have hin := h.bounds t
    cases hp : s.phase t with
    | idle | write => trivial
    | swapInPage | swapInRead =>
      rw [hp] at hcalm hin
      exact hkeep hcalm hin
    | unusePage | unuseRead =>
      rw [hp] at hcalm hin
      exact hkeep hcalm.1 hin

end

/-! ## Runs -/

theorem books_init : Books init := by
  have hcount : ∀ f : Pte → Int, count f init = 0 := fun f => by
    rw [count, tally]
    exact sum_eq_zero fun id _ => rowTally_dead (s := init) fun shp => nofun
  have hw : writing init = 0 := sum_eq_zero fun t _ => rfl
  refine ⟨⟨fun _ _ _ => nofun, fun _ _ => nofun⟩, ?_, ?_, fun e => ?_, fun e => ?_,
    fun t => trivial⟩
  · rw [hcount, hw]
    rfl
  · rw [hcount, hw]
    rfl
  · rw [hcount]
    rfl
  · rw [hcount]
    exact zero_le_one

theorem Books.step {a : Action} (h : Books s) (hu : Undisturbed s)
    (hstep : Shm.step s a = some s') : Books s' := by
  cases a with
  | reserve id | newsegFailed id =>
    obtain ⟨⟨hid, hslot⟩, rfl⟩ := ite_some_none_eq_some.mp hstep
    exact h.dead hid (by rw [hslot]; exact fun _ => nofun) fun _ => nofun
  | newseg id shp numpages =>
    obtain ⟨⟨hid, hslot, hshp⟩, rfl⟩ := ite_some_none_eq_some.mp hstep
    exact h.newseg hu hid hslot hshp numpages
  | killseg id =>
    obtain ⟨hid, rfl⟩ := ite_some_none_eq_some.mp hstep
    exact h.killseg hid
  | swapIn t id idx =>
    obtain ⟨⟨-, hphase⟩, rfl⟩ := ite_some_none_eq_some.mp hstep
    exact h.shmSwapIn hphase id idx
  | getFreePage t page =>
    have hcalm := hu t
    have hin := h.bounds t
    rw [Shm.step] at hstep
    split at hstep
    next shp idx hphase =>
      rw [hphase] at hcalm hin
      obtain ⟨id, -, hlive⟩ := hcalm
      cases page with
      | none =>
        cases hstep
        exact h.goto (by rw [hphase]; rfl) trivial
      | some page =>
        cases hstep
        exact h.swapInRepeat hlive hin (by rw [hphase]; rfl) page
    next type i shp n entry hphase =>
      rw [hphase] at hin
      cases hstep
      exact h.goto (by rw [hphase]; rfl) hin
    · cases hstep
  | readSwapPage t =>
    have hcalm := hu t
    have hin := h.bounds t
    rw [Shm.step] at hstep
    split at hstep
    next shp idx entry page hphase =>
      rw [hphase] at hcalm hin
      obtain ⟨id, -, hlive⟩ := hcalm
      cases hstep
      exact h.swapInDone hlive hin (by rw [hphase]; rfl) entry page
    next type i shp n entry page hphase =>
      rw [hphase] at hcalm hin
      obtain ⟨⟨id, -, hlive⟩, hpte⟩ := hcalm
      cases hstep
      have hnot : isWriting (s.phase t) = 0 := by rw [hphase]; rfl
      exact (h.readIn hlive hin hpte page).unuseFrom hnot type _ i _
    · cases hstep
  | swap t prio swapNr look =>
    obtain ⟨⟨hphase, havail⟩, hswap⟩ := ite_none_right_eq_some.mp hstep
    exact h.shmSwap hphase prio havail hswap
  | writeSwapPage t =>
    rw [Shm.step] at hstep
    split at hstep
    next hphase =>
      cases hstep
      exact h.swapWritten (by rw [hphase]; rfl)
    · cases hstep
  | unuse t type =>
    obtain ⟨hphase, rfl⟩ := ite_some_none_eq_some.mp hstep
    exact h.unuseFrom (by rw [hphase]; rfl) type shmmni 0 0

/-- All interleavings of the routines. -/
def tables : System State where
  init s := s = init
  step s s' := ∃ a, step s a = some s'

/-- The runs in which nobody interferes with a task that sleeps. -/
def undisturbedTables : System State where
  init s := s = init
  step s s' := (∃ a, step s a = some s') ∧ Undisturbed s'

theorem undisturbedTables_books (h : undisturbedTables.Reachable s) : Books s ∧ Undisturbed s := by
  refine h.invariant (I := fun s => Books s ∧ Undisturbed s) ?_ ?_
  · rintro s rfl
    exact ⟨books_init, fun _ => trivial⟩
  · rintro s s' ⟨hbooks, hu⟩ ⟨⟨a, hstep⟩, hu'⟩
    exact ⟨hbooks.step hu hstep, hu'⟩

/-- The entry `e` is in the slot `idx` of the identifier `id`. -/
def StoredAt (s : State) (e : Entry) (id idx : Nat) : Prop :=
  id < shmmni ∧ idx < len s id ∧ cell s id idx = .swap e

theorem Books.stored_unique (h : Books s) {id' idx' : Nat} (hat : StoredAt s e id idx)
    (hat' : StoredAt s e id' idx') : id = id' ∧ idx = idx' := by
  obtain ⟨hid, hidx, hcell⟩ := hat
  obtain ⟨hid', hidx', hcell'⟩ := hat'
  refine tally_unique (holds_nonneg e) (z := .none) rfl (h.once e) (mem_range.mpr hid) hidx
    (mem_range.mpr hid') hidx' ?_ ?_
  · rw [hcell, holds, if_pos rfl]
  · rw [hcell', holds, if_pos rfl]

theorem writing_eq_zero_iff : writing s = 0 ↔ ∀ t, isWriting (s.phase t) = 0 := by
  have hnonneg : ∀ t ∈ univ, 0 ≤ isWriting (s.phase t) := fun t _ => by
    cases s.phase t <;> simp [isWriting]
  rw [writing, sum_eq_zero_iff_of_nonneg hnonneg]
  exact ⟨fun h t => h t (mem_univ t), fun h t _ => h t⟩

/-- Each counter is the number of entries of its kind in the tables of the live segments. -/
def Counted (s : State) : Prop := s.shmRss = count isPresent s ∧ s.shmSwp = count isSwap s

/-- A swap entry is in one slot at most, and has been freed as often as it has been taken but
for the one time that it is in a slot. -/
structure SwapEntries (s : State) : Prop where
  unique : ∀ {e id idx id' idx'}, StoredAt s e id idx → StoredAt s e id' idx' →
    id = id' ∧ idx = idx'
  ledger : ∀ e, (s.taken e : Int) = s.freed e + count (holds e) s

/-- While nobody interferes with a task that sleeps, the swap entries are in order and the
counters are off by the number of pages that are being written. -/
theorem shm_accounting (h : undisturbedTables.Reachable s) :
    SwapEntries s ∧ s.shmRss = count isPresent s + writing s ∧
      s.shmSwp = count isSwap s - writing s ∧ (Counted s ↔ ∀ t, isWriting (s.phase t) = 0) := by
  obtain ⟨hbooks, -⟩ := undisturbedTables_books h
  have hrss := hbooks.rss
  have hswp := hbooks.swp
  refine ⟨⟨hbooks.stored_unique, hbooks.ledger⟩, hrss, hswp, ?_⟩
  rw [← writing_eq_zero_iff]
  constructor
  · rintro ⟨hcounted, -⟩
    omega
  · intro hzero
    exact ⟨by omega, by omega⟩

end

/-- No segment is locked and no page is in use. -/
def anyPage : Nat → Look := fun _ => ⟨fun _ => false, fun _ => false, fun _ => false⟩

/-- A page of a new segment is used and then taken for swapping. -/
def swapOutRun : List Action :=
  [.reserve 0, .newseg 0 0 1, .swapIn 0 0 0, .getFreePage 0 (some 10), .swap 0 0 (some 256) anyPage]

def run (s : State) (a : Action) : Option (State × Unit) := (step s a).map fun s' => (s', ())

def undisturbedRun (s : State) (a : Action) : Option (State × Unit) :=
  ((step s a).filter fun s' => Undisturbed s').map fun s' => (s', ())

theorem shm_accounting_written : ∃ s, undisturbedTables.Reachable s ∧ s.shmSwp = 1 ∧
    s.taken 256 = s.freed 256 + 1 ∧ SwapEntries s ∧ Counted s := by
  have hinit : undisturbedTables.Reachable init := .init rfl
  have hstep : ∀ s a s' u, True → undisturbedRun s a = some (s', u) →
      undisturbedTables.step s s' := by
    rintro s a s' u - h
    obtain ⟨s'', hstep, ⟨⟩⟩ := map_eq_some_iff.mp h
    obtain ⟨hstep, hu⟩ := filter_eq_some_iff.mp hstep
    exact ⟨⟨a, hstep⟩, of_decide_eq_true hu⟩
  obtain ⟨s, hreach, hswp, htaken, hfreed, hidle⟩ := hinit.runs (f := undisturbedRun)
    (g := fun _ _ => True) (l := swapOutRun ++ [.writeSwapPage 0])
    (p := fun s => s.shmSwp = 1 ∧ s.taken 256 = 1 ∧ s.freed 256 = 0 ∧
      ∀ t, isWriting (s.phase t) = 0)
    hstep (by decide +kernel)
  obtain ⟨hentries, -, -, hcounted⟩ := shm_accounting hreach
  exact ⟨s, hreach, hswp, by rw [htaken, hfreed], hentries, hcounted.mpr hidle⟩

/-- While the first task reads the page for `shm_unuse`, the second one reads it for its own
use. -/
def readTwice : List Action :=
  [.writeSwapPage 0, .unuse 0 0, .getFreePage 0 (some 11), .swapIn 1 0 0, .getFreePage 1 (some 12),
    .readSwapPage 1, .readSwapPage 0]

/-- A page that is being written is counted as one in memory; and a page that is read in twice
is counted twice, and its swap entry freed twice. -/
theorem shm_miscounted :
    (∃ s, tables.Reachable s ∧ s.shmRss = 1 ∧ count isPresent s = 0 ∧ s.shmSwp = 0 ∧
      count isSwap s = 1) ∧
    ∃ s, tables.Reachable s ∧ (∀ t, s.phase t = .idle) ∧ s.shmRss = 2 ∧ count isPresent s = 1 ∧
      s.shmSwp = -1 ∧ count isSwap s = 0 ∧ s.taken 256 = 1 ∧ s.freed 256 = 2 := by
  have hinit : tables.Reachable init := .init rfl
  have hstep : ∀ s a s' u, True → run s a = some (s', u) → tables.step s s' := by
    rintro s a s' u - h
    obtain ⟨s'', hstep, ⟨⟩⟩ := map_eq_some_iff.mp h
    exact ⟨a, hstep⟩
  constructor
  · exact hinit.runs (l := swapOutRun) hstep (by decide +kernel)
  · exact hinit.runs (l := swapOutRun ++ readTwice) hstep (by decide +kernel)

end Sbckernel.Ipc.Shm
