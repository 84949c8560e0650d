import Mathlib.Data.List.Nodup
import Sbckernel.Fs.BrwPage

/-!
# Page I/O unlocks the page once, and shows only data that was read

While `brw_page` looks at the blocks, those before the current one are settled (`Settled`):
the count of a buffer is one if it is to be given to `ll_rw_block`, and zero otherwise, and
a buffer that is marked up to date holds the data of its block. From then on the page is
in flight (`Flying`): the counts that are not zero are those of the blocks that have not
completed, so the one that finds all counts zero is the last one, and it is the only one
that does. The page is marked up to date by the walk over the ring that finds all buffers
up to date.

A copy from the buffer cache is believed without a look at its buffer when that had to be
read first. The results are about the runs in which this read did not fail.
-/

namespace Sbckernel.Fs.BrwPage

open Function List BufferHead

variable {rest : List Nat} {s s' : State} {i j : Nat}

/-- The data of the block. -/
def Held.good : Held → Bool
  | .nothing => false
  | .zeroes => true
  | .copied uptodate => uptodate
  | .fromDisk => true

/-! ## The ring -/

theorem mem_ring (hi : i < s.blocks) (hj : j < s.blocks) :
    j ∈ ring s i := by
  refine mem_map.mpr ⟨(j + s.blocks - i) % s.blocks, ?_, ?_⟩
  · exact mem_range.mpr (Nat.mod_lt _ (by omega))
  · rw [Nat.add_mod_mod, show i + (j + s.blocks - i) = j + s.blocks by omega, Nat.add_mod_right,
      Nat.mod_eq_of_lt hj]

theorem lt_of_mem_ring (hj : j ∈ ring s i) : j < s.blocks := by
  obtain ⟨k, hk, rfl⟩ := mem_map.mp hj
  exact Nat.mod_lt _ (Nat.zero_lt_of_lt (mem_range.mp hk))

theorem freeAsyncBuffers_eq (s : State) (l : List Nat) :
    ∃ bh reuseList, freeAsyncBuffers s l = { s with bh := bh, reuseList := reuseList } := by
  induction l generalizing s with
  | nil => exact ⟨s.bh, s.reuseList, rfl⟩
  | cons j l ih =>
    unfold freeAsyncBuffers
    split
    next htemp =>
      obtain ⟨bh, reuseList, heq⟩ :=
        ih (setBh { s with reuseList := j :: s.reuseList } j { s.bh j with freeOnIo := false })
      exact ⟨bh, reuseList, heq⟩
    next htemp => exact ⟨s.bh, s.reuseList, rfl⟩

/-! ## The invariant -/

/-- The blocks below `n` have been looked at. -/
structure Settled (s : State) (n : Nat) : Prop where
  le : n ≤ s.blocks
  locked : s.page.pgLocked = true
  stale : s.page.pgUptodate = false
  unlocks : s.unlocks = 0
  request : ∀ i, s.request i = .none
  arr : ∀ i ∈ s.arr, i < n
  nodup : s.arr.Nodup
  temporary : ∀ i < n, (s.bh i).freeOnIo = true
  count : ∀ i < n, (s.bh i).bCount = if i ∈ s.arr then 1 else 0
  sound : s.rw = .read → ∀ i < n, (s.bh i).uptodate = true → (s.held i).good = true
  ready : s.rw = .read → ∀ i < n, i ∉ s.arr → (s.held i).good = true

/-- The buffers in `rest` are still to be queued, and some block has not completed. -/
structure Flying (s : State) (rest : List Nat) : Prop where
  locked : s.page.pgLocked = true
  unlocks : s.unlocks = 0
  arr : ∀ i ∈ s.arr, i < s.blocks
  nodup : rest.Nodup
  rest : ∀ i ∈ rest, i ∈ s.arr ∧ s.request i = .none
  request : ∀ i, i ∉ s.arr → s.request i = .none
  busy : ∃ i ∈ s.arr, s.request i ≠ .complete
  temporary : ∀ i < s.blocks, (s.bh i).freeOnIo = true
  count : ∀ i < s.blocks,
    (s.bh i).bCount = if i ∈ s.arr ∧ s.request i ≠ .complete then 1 else 0
  sound : s.rw = .read → ∀ i < s.blocks, (s.bh i).uptodate = true → (s.held i).good = true
  page : s.rw = .read → s.page.pgUptodate = true → ∀ i < s.blocks, (s.held i).good = true

/-- All is over. -/
structure Done (s : State) : Prop where
  unlocked : s.page.pgLocked = false
  unlocks : s.unlocks = 1
  arr : ∀ i ∈ s.arr, s.request i = .complete
  request : ∀ i, i ∉ s.arr → s.request i = .none
  page : s.rw = .read → s.page.pgUptodate = true → ∀ i < s.blocks, (s.held i).good = true

/-- What holds at each place of `brw_page`. -/
def Inv (s : State) : Prop :=
  match s.phase with
  | .start => Initial s
  | .look i => i < s.blocks ∧ Settled s i
  | .wait i => i < s.blocks ∧ Settled s i ∧ (s.bh i).freeOnIo = true ∧ (s.bh i).bCount = 1
  | .submit => Flying s s.arr
  | .queue rest => rest ≠ [] ∧ Flying s rest
  | .returned => (∃ rest, Flying s rest) ∨ Done s

/-- The block `i` is the next one, and its buffer and data are replaced. -/
theorem Settled.next (h : Settled s i) (hi : i < s.blocks) {bh : BufferHead} (held : Held)
    {arr : List Nat} (htemp : bh.freeOnIo = true)
    (harr : (arr = s.arr ∧ bh.bCount = 0 ∧ (s.rw = .read → held.good = true)) ∨
      (arr = s.arr ++ [i] ∧ bh.bCount = 1 ∧ (s.rw = .read → bh.uptodate = false))) :
    Settled { s with
      bh := update s.bh i bh
      held := update s.held i held
      arr := arr } (i + 1) := by
  have hnotin : i ∉ s.arr := fun hmem => lt_irrefl i (h.arr i hmem)
  have := h.arr
  have := h.temporary
  have := h.count
  have := h.sound
  have := h.ready
  obtain ⟨rfl, hcount, hgood⟩ | ⟨rfl, hcount, hstale⟩ := harr
  · refine ⟨hi, h.locked, h.stale, h.unlocks, h.request, ?_, h.nodup, ?_, ?_, ?_, ?_⟩ <;>
      grind [update_apply]
  · have hnodup : (s.arr ++ [i]).Nodup := by simpa using h.nodup.concat hnotin
    refine ⟨hi, h.locked, h.stale, h.unlocks, h.request, ?_, hnodup, ?_, ?_, ?_, ?_⟩ <;>
      grind [update_apply]

theorem Settled.afterLoop (h : Settled s s.blocks) : Inv (afterLoop s) := by
  unfold BrwPage.afterLoop
  split
  next hne =>
    obtain ⟨j, hj⟩ := exists_mem_of_ne_nil s.arr hne
    have hnot : ∀ i, s.request i ≠ .complete := fun i => by simp [h.request i]
    exact {
      locked := h.locked
      unlocks := h.unlocks
      arr := h.arr
      nodup := h.nodup
      rest := fun i hi => ⟨hi, h.request i⟩
      request := fun i _ => h.request i
      busy := ⟨j, hj, hnot j⟩
      temporary := h.temporary
      count := fun i hi => by simp [hnot i, h.count i hi]
      sound := h.sound
      page := fun _ hup => absurd (h.stale.symm.trans hup) Bool.false_ne_true }
  next hnil =>
    have hnil : s.arr = [] := not_ne_iff.mp hnil
    obtain ⟨bh, reuseList, heq⟩ := freeAsyncBuffers_eq s (ring s 0)
    rw [heq]
    exact .inr {
      unlocked := rfl
      unlocks := congrArg (· + 1) h.unlocks
      arr := fun i hi => absurd (hnil ▸ hi) not_mem_nil
      request := fun i _ => h.request i
      page := fun hread _ i hi => h.ready hread i hi (hnil ▸ not_mem_nil) }

theorem Settled.nextBlock (h : Settled s (i + 1)) : Inv (nextBlock s i) := by
  have hle := h.le
  unfold BrwPage.nextBlock
  split
  next hmore => exact ⟨hmore, { h with }⟩
  next hlast =>
    have heq : i + 1 = s.blocks := by omega
    exact (heq ▸ h).afterLoop

theorem Settled.withoutRequest (h : Settled s i) (hi : i < s.blocks)
    (htemp : (s.bh i).freeOnIo = true) (hcount : (s.bh i).bCount = 1) {held : Held}
    (hgood : s.rw = .read → held.good = true) : Inv (withoutRequest s i held) := by
  refine Settled.nextBlock (s := setHeld (setBh s i _) i held) ?_
  exact h.next hi held htemp (.inl ⟨rfl, by rw [hcount], hgood⟩)

theorem Settled.needsRequest (h : Settled s i) (hi : i < s.blocks)
    (htemp : (s.bh i).freeOnIo = true) (hcount : (s.bh i).bCount = 1) : Inv (needsRequest s i) := by
  have hnext : ∀ bh : BufferHead, bh.freeOnIo = true → bh.bCount = 1 →
      (s.rw = .read → bh.uptodate = false) →
      Inv (BrwPage.nextBlock { setBh s i bh with arr := s.arr ++ [i] } i) := by
    intro bh htemp hcount hstale
    refine Settled.nextBlock ?_
    have hset := h.next hi (s.held i) htemp (.inr ⟨rfl, hcount, hstale⟩)
    rw [update_eq_self] at hset
    exact hset
  unfold BrwPage.needsRequest
  split
  next hread => exact hnext _ htemp hcount fun _ => rfl
  next hwrite => exact hnext _ htemp hcount fun hread => absurd hread hwrite

/-- The buffer of the block itself does not count yet. -/
theorem Settled.setBh (h : Settled s i) (bh : BufferHead) : Settled (setBh s i bh) i := by
  have hother : ∀ j < i, (BrwPage.setBh s i bh).bh j = s.bh j := fun j hj =>
    update_of_ne hj.ne _ _
  exact { h with
    temporary := fun j hj => hother j hj ▸ h.temporary j hj
    count := fun j hj => hother j hj ▸ h.count j hj
    sound := fun hread j hj => hother j hj ▸ h.sound hread j hj }

theorem Settled.lookBlock (h : Settled s i) (hi : i < s.blocks) (cached : Option Bool) :
    Inv (lookBlock s i cached) := by
  have hset := h.setBh { s.bh i with freeOnIo := true, bCount := 1, uptodate := true }
  have hbh : (BrwPage.setBh s i
      { s.bh i with freeOnIo := true, bCount := 1, uptodate := true }).bh i =
      { s.bh i with freeOnIo := true, bCount := 1, uptodate := true } := update_self ..
  have htemp := congrArg freeOnIo hbh
  have hcount := congrArg bCount hbh
  unfold BrwPage.lookBlock
  dsimp only
  split
  next hhole => exact hset.withoutRequest hi htemp hcount fun _ => rfl
  next hblock =>
    split
    · refine hset.withoutRequest hi htemp hcount fun hread => ?_
      rw [if_pos hread]
      rfl
    · exact ⟨hi, { hset with }, htemp, hcount⟩
    · exact hset.needsRequest hi htemp hcount

/-! ## In flight -/

/-- At most the block `i` has another buffer, another state of its request or other data. -/
structure Changed (s s' : State) (i : Nat) : Prop where
  rw : s'.rw = s.rw
  blocks : s'.blocks = s.blocks
  arr : s'.arr = s.arr
  bh : ∀ j ≠ i, s'.bh j = s.bh j
  request : ∀ j ≠ i, s'.request j = s.request j
  held : ∀ j ≠ i, s'.held j = s.held j

theorem Flying.change {rest' : List Nat} (h : Flying s rest) (hc : Changed s s' i)
    (hi : i ∈ s.arr) (hpage : s'.page.pgLocked = true) (hunlocks : s'.unlocks = 0)
    (htemp : (s'.bh i).freeOnIo = true)
    (hcount : (s'.bh i).bCount = if s'.request i ≠ .complete then 1 else 0) (hnodup : rest'.Nodup)
    (hrest : ∀ j ∈ rest', j ∈ rest ∧ j ≠ i) (hbusy : ∃ j ∈ s.arr, s'.request j ≠ .complete)
    (hsound : s.rw = .read → (s'.bh i).uptodate = true → (s'.held i).good = true)
    (hgood : s.rw = .read → s'.page.pgUptodate = true → ∀ j < s.blocks, (s'.held j).good = true) :
    Flying s' rest' := by
  obtain ⟨hrw, hblocks, harr, hbh, hrequest, hheld⟩ := hc
  have hrest' := h.rest
  have hnone := h.request
  have htemp' := h.temporary
  have hcount' := h.count
  have hsound' := h.sound
  rw [← hrw, ← hblocks] at hgood
  refine ⟨hpage, hunlocks, harr ▸ hblocks ▸ h.arr, hnodup, ?_, ?_, harr ▸ hbusy, ?_, ?_, ?_, hgood⟩
  all_goals grind

theorem Flying.count_one (h : Flying s rest) (hi : i ∈ s.arr)
    (hreq : s.request i ≠ .complete) : (s.bh i).bCount = 1 := by
  rw [h.count i (h.arr i hi), if_pos ⟨hi, hreq⟩]

theorem Flying.queueBlock (h : Flying s (i :: rest)) : Flying (queueBlock s i rest) rest := by
  obtain ⟨hi, hnone⟩ := h.rest i mem_cons_self
  obtain ⟨hnotin, hnodup⟩ := nodup_cons.mp h.nodup
  have hreq : s.request i ≠ .complete := by simp [hnone]
  have hbh : (BrwPage.queueBlock s i rest).bh i = { s.bh i with lock := true } :=
    update_self ..
  have hreq' : (BrwPage.queueBlock s i rest).request i = .queued := update_self ..
  have hchanged : Changed s (BrwPage.queueBlock s i rest) i :=
    ⟨rfl, rfl, rfl, fun j hj => update_of_ne hj _ _,
      fun j hj => update_of_ne hj _ _, fun _ _ => rfl⟩
  refine h.change hchanged hi h.locked h.unlocks (hbh ▸ h.temporary i (h.arr i hi)) ?_ hnodup ?_
    ⟨i, hi, by simp [hreq']⟩ (fun hread => hbh ▸ h.sound hread i (h.arr i hi)) h.page
  · rw [hbh, hreq']
    exact h.count_one hi hreq
  · exact fun j hj => ⟨mem_cons_of_mem i hj, ne_of_mem_of_not_mem hj hnotin⟩

/-- A request that is not the first state is one of the array's. -/
theorem Flying.mem_arr (h : Flying s rest) (hreq : s.request i ≠ .none) : i ∈ s.arr := by
  by_contra hnot
  exact hreq (h.request i hnot)

theorem Flying.ne_rest (h : Flying s rest) (hreq : s.request i ≠ .none) :
    ∀ j ∈ rest, j ∈ rest ∧ j ≠ i := by
  exact fun j hj => ⟨hj, fun heq => hreq (heq ▸ (h.rest j hj).2)⟩

/-- What `mark_buffer_uptodate` does to the buffer, and what it says about the page. -/
theorem markBufferUptodate_cases (s : State) (i : Nat) (flag : Bool) :
    ∃ page : Page, page.pgLocked = s.page.pgLocked ∧
      (page.pgUptodate = true → s.page.pgUptodate = true ∨
        flag = true ∧ ∀ j ∈ ring s i, j ≠ i → (s.bh j).uptodate = true) ∧
      markBufferUptodate s i flag =
        { s with bh := update s.bh i { s.bh i with uptodate := flag }, page := page } := by
  unfold markBufferUptodate
  cases flag with
  | false => exact ⟨s.page, rfl, Or.inl, rfl⟩
  | true =>
    rw [if_pos rfl]
    dsimp only
    split
    next hall =>
      refine ⟨{ s.page with pgUptodate := true }, rfl, fun _ => .inr ⟨rfl, fun j hj hne => ?_⟩, rfl⟩
      have hup := all_eq_true.mp hall j hj
      rwa [show (setBh s i { s.bh i with uptodate := true }).bh j = s.bh j from
        update_of_ne hne _ _] at hup
    next hall => exact ⟨s.page, rfl, Or.inl, rfl⟩

theorem Flying.markBlock (h : Flying s rest) (hreq : s.request i = .queued)
    (ok : Bool) : Flying (markBlock s i ok) rest := by
  have hne : s.request i ≠ .none := by simp [hreq]
  have hi := h.mem_arr hne
  have hlt := h.arr i hi
  have hone : (s.bh i).bCount = 1 := h.count_one hi (by simp [hreq])
  -- The data of the block, and what was said of the data before.
  obtain ⟨held, hheld, hgood, hkeep, heq⟩ : ∃ held : Held,
      update s.held i held i = held ∧
      (s.rw = .read → ok = true → held.good = true) ∧
      (s.rw = .read → (s.held i).good = true → held.good = true) ∧
      (if ok ∧ s.rw = .read then setHeld s i .fromDisk else s) =
        { s with held := update s.held i held } := by
    by_cases hread : ok ∧ s.rw = .read
    · exact ⟨.fromDisk, update_self .., fun _ _ => rfl, fun _ _ => rfl, if_pos hread⟩
    · exact ⟨s.held i, update_self .., fun hr hok => absurd ⟨hok, hr⟩ hread, fun _ hgood => hgood,
        by rw [if_neg hread, update_eq_self]⟩
  obtain ⟨page, hpage, hup, hmark⟩ :=
    markBufferUptodate_cases { s with held := update s.held i held } i ok
  unfold BrwPage.markBlock
  rw [heq]
  show Flying (setRequest (markBufferUptodate _ i ok) i .marked) rest
  rw [hmark]
  have hchanged : Changed s (setRequest { s with
      held := update s.held i held
      bh := update s.bh i { s.bh i with uptodate := ok }
      page := page } i .marked) i :=
    ⟨rfl, rfl, rfl, fun j hj => update_of_ne hj _ _,
      fun j hj => update_of_ne hj _ _, fun j hj => update_of_ne hj _ _⟩
  have hbh : (update s.bh i { s.bh i with uptodate := ok }) i =
      { s.bh i with uptodate := ok } := update_self ..
  have hreq' : update s.request i .marked i = .marked := update_self ..
  refine h.change hchanged hi (hpage.trans h.locked) h.unlocks ?_ ?_ h.nodup (h.ne_rest hne)
    ⟨i, hi, ?_⟩ ?_ ?_
  · exact (congrArg freeOnIo hbh).trans (h.temporary i hlt)
  · show (update s.bh i _ i).bCount = if update s.request i _ i ≠ _ then 1 else 0
    rw [hbh, hreq']
    exact hone
  · simp [setRequest]
  · intro hread hok
    show (update s.held i held i).good = true
    rw [hheld]
    exact hgood hread ((congrArg uptodate hbh).symm.trans hok)
  · intro hread hset j hj
    show (update s.held i held j).good = true
    by_cases hji : j = i
    · rw [hji, hheld]
      rcases hup hset with hset | ⟨hok, -⟩
      · exact hkeep hread (h.page hread hset i hlt)
      · exact hgood hread hok
    · rw [update_of_ne hji]
      rcases hup hset with hset | ⟨-, hall⟩
      · exact h.page hread hset j hj
      · exact h.sound hread j hj (hall j (mem_ring (s := s) hlt hj) hji)

/-- `unlock_buffer` for a buffer whose block has just completed. -/
theorem unlockBuffer_eq (htemp : (s.bh i).freeOnIo = true) (hlocked : s.page.pgLocked = true)
    (hone : (s.bh i).bCount = 1) :
    ∃ page : Page, page.pgLocked = true ∧ page.pgUptodate = s.page.pgUptodate ∧
      unlockBuffer s i =
        let t := { s with
          bh := update s.bh i { s.bh i with lock := false, bCount := 0 }
          page := page }
        if (ring t i).any fun j => (t.bh j).bCount ≠ 0 then t
        else unlockPage (freeAsyncBuffers t (ring t i)) := by
  refine ⟨if (s.bh i).uptodate then s.page else { s.page with pgError := true }, ?_, ?_, ?_⟩
  · split <;> exact hlocked
  · split <;> rfl
  · cases hup : (s.bh i).uptodate <;>
      simp [BrwPage.unlockBuffer, setBh, htemp, hlocked, hone, hup]

/-- Some other buffer still counts, or the page is unlocked. -/
theorem unlockBuffer_cases (hi : i < s.blocks) (htemp : (s.bh i).freeOnIo = true)
    (hlocked : s.page.pgLocked = true) (hone : (s.bh i).bCount = 1) :
    ∃ page : Page, page.pgLocked = true ∧ page.pgUptodate = s.page.pgUptodate ∧
      ((∃ j < s.blocks, j ≠ i ∧ (s.bh j).bCount ≠ 0 ∧ unlockBuffer s i = { s with
          bh := update s.bh i { s.bh i with lock := false, bCount := 0 }, page := page }) ∨
        (∀ j < s.blocks, j ≠ i → (s.bh j).bCount = 0) ∧ ∃ bh reuseList, unlockBuffer s i =
          unlockPage { s with bh := bh, page := page, reuseList := reuseList }) := by
  obtain ⟨page, hlocked', hup, heq⟩ := unlockBuffer_eq htemp hlocked hone
  refine ⟨page, hlocked', hup, ?_⟩
  rw [heq]
  dsimp only
  split
  next hany =>
    obtain ⟨j, hmem, hcount⟩ := any_eq_true.mp hany
    have hji : j ≠ i := by
      rintro rfl
      simp at hcount
    exact .inl ⟨j, lt_of_mem_ring hmem, hji, by simpa [hji] using hcount, rfl⟩
  next hany =>
    refine .inr ⟨fun j hj hji => ?_, ?_⟩
    · by_contra hcount
      exact hany (any_eq_true.mpr ⟨j, mem_ring hi hj, by simpa [hji] using hcount⟩)
    · obtain ⟨bh, reuseList, hfree⟩ := freeAsyncBuffers_eq { s with
        bh := update s.bh i { s.bh i with lock := false, bCount := 0 }, page := page } _
      exact ⟨bh, reuseList, congrArg unlockPage hfree⟩

theorem Flying.unlockBuffer_frame (h : Flying s rest)
    (hnone : s.request i ≠ .none) (hdone : s.request i ≠ .complete) :
    (unlockBuffer s i).phase = s.phase ∧ (unlockBuffer s i).arr = s.arr ∧
      (unlockBuffer s i).request = s.request := by
  have hi := h.mem_arr hnone
  obtain ⟨page, -, -, ⟨j, -, -, -, heq⟩ | ⟨-, bh, reuseList, heq⟩⟩ := unlockBuffer_cases
    (h.arr i hi) (h.temporary i (h.arr i hi)) h.locked (h.count_one hi hdone)
  · exact heq ▸ ⟨rfl, rfl, rfl⟩
  · exact heq ▸ ⟨rfl, rfl, rfl⟩

/-- The walk of `unlock_buffer` finds a count that is not zero iff some block is not complete. -/
theorem Flying.unlockBuffer (h : Flying s rest) (hreq : s.request i = .marked) :
    Flying (setRequest (unlockBuffer s i) i .complete) rest ∨
      Done (setRequest (unlockBuffer s i) i .complete) := by
  have hne : s.request i ≠ .none := by simp [hreq]
  have hi := h.mem_arr hne
  have hlt := h.arr i hi
  have hone : (s.bh i).bCount = 1 := h.count_one hi (by simp [hreq])
  obtain ⟨page, hlocked, hup, ⟨j, hj, hji, hcount, heq⟩ | ⟨hzero, bh, reuseList, heq⟩⟩ :=
    unlockBuffer_cases hlt (h.temporary i hlt) h.locked hone
  · have hbusy : j ∈ s.arr ∧ s.request j ≠ .complete := by
      by_contra hnot
      exact hcount (by rw [h.count j hj, if_neg hnot])
    rw [heq]
    refine .inl (h.change (i := i) ⟨rfl, rfl, rfl, fun j hj => update_of_ne hj _ _,
      fun j hj => update_of_ne hj _ _, fun _ _ => rfl⟩ hi hlocked h.unlocks ?_ ?_ h.nodup
      (h.ne_rest hne) ⟨j, hbusy.1, ?_⟩ ?_ fun hread huptodate =>
        h.page hread (hup.symm.trans huptodate))
    · simp [setRequest, h.temporary i hlt]
    · simp [setRequest]
    · simpa [setRequest, hji] using hbusy.2
    · simpa [setRequest] using fun hread => h.sound hread i hlt
  · rw [heq]
    refine .inr ⟨rfl, congrArg (· + 1) h.unlocks, fun j hj => ?_, fun j hj => ?_,
      fun hread huptodate => h.page hread (hup.symm.trans huptodate)⟩
    · show update s.request i .complete j = .complete
      have := hzero j (h.arr j hj)
      have := h.count j (h.arr j hj)
      have hj : j ∈ s.arr := hj
      grind [update_apply]
    · exact (update_of_ne (ne_of_mem_of_not_mem hi hj).symm ..).trans (h.request j hj)

theorem Flying.submitBlocks (h : Flying s s.arr) (taken : Bool) : Inv (submitBlocks s taken) := by
  cases taken with
  | true =>
    obtain ⟨j, hj, -⟩ := h.busy
    exact ⟨ne_nil_of_mem hj, { h with }⟩
  | false =>
    refine .inl ⟨s.arr, { h with temporary := ?_, count := ?_, sound := ?_ }⟩
    · intro j hj
      show freeOnIo (if j ∈ s.arr then _ else _) = true
      split <;> exact h.temporary j hj
    · intro j hj
      refine Eq.trans ?_ (h.count j hj)
      show bCount (if j ∈ s.arr then _ else _) = _
      split <;> rfl
    · intro hread j hj
      show uptodate (if j ∈ s.arr then _ else _) = true → _
      split
      · exact fun hup => absurd hup Bool.false_ne_true
      · exact h.sound hread j hj

theorem Initial.brwPage (h : Initial s) (created : Bool) : Inv (brwPage s created) := by
  have harr : ∀ i, i ∉ s.arr := fun i => h.arr ▸ not_mem_nil
  cases created with
  | true =>
    exact ⟨h.blocks, {
      le := Nat.zero_le _
      locked := h.locked
      stale := rfl
      unlocks := h.unlocks
      request := h.request
      arr := fun i hi => absurd hi (harr i)
      nodup := show s.arr.Nodup from h.arr ▸ nodup_nil
      temporary := fun _ hi => absurd hi (Nat.not_lt_zero _)
      count := fun _ hi => absurd hi (Nat.not_lt_zero _)
      sound := fun _ _ hi => absurd hi (Nat.not_lt_zero _)
      ready := fun _ _ hi => absurd hi (Nat.not_lt_zero _) }⟩
  | false =>
    exact .inr {
      unlocked := rfl
      unlocks := congrArg (· + 1) h.unlocks
      arr := fun i hi => absurd hi (harr i)
      request := fun i _ => h.request i
      page := fun _ hup => absurd hup Bool.false_ne_true }

/-- A request that is on its way belongs to a page in flight. -/
theorem Inv.flying (h : Inv s) (hnone : s.request i ≠ .none) (hdone : s.request i ≠ .complete) :
    (∃ rest, s.phase = .queue rest ∧ rest ≠ [] ∧ Flying s rest) ∨
      (s.phase = .returned ∧ ∃ rest, Flying s rest) := by
  unfold Inv at h
  split at h
  · exact absurd (h.request i) hnone
  · exact absurd (h.2.request i) hnone
  · exact absurd (h.2.1.request i) hnone
  · exact absurd (h.rest i (h.mem_arr hnone)).2 hnone
  next rest hphase => exact .inl ⟨rest, hphase, h⟩
  next hphase =>
    rcases h with h | h
    · exact .inr ⟨hphase, h⟩
    · by_cases hi : i ∈ s.arr
      · exact absurd (h.arr i hi) hdone
      · exact absurd (h.request i hi) hnone

theorem markBlock_phase (s : State) (i : Nat) (ok : Bool) : (markBlock s i ok).phase = s.phase := by
  unfold BrwPage.markBlock
  obtain ⟨page, -, -, heq⟩ :=
    markBufferUptodate_cases (if ok ∧ s.rw = .read then setHeld s i .fromDisk else s) i ok
  dsimp only
  rw [heq]
  split <;> rfl

theorem Inv.markBlock (h : Inv s) (hreq : s.request i = .queued) (ok : Bool) :
    Inv (markBlock s i ok) := by
  have hphase' := markBlock_phase s i ok
  have hne : s.request i ≠ .none := by simp [hreq]
  have hnot : s.request i ≠ .complete := by simp [hreq]
  rcases h.flying hne hnot with ⟨rest, hphase, hnil, hfly⟩ | ⟨hphase, rest, hfly⟩
  · rw [Inv, hphase', hphase]
    exact ⟨hnil, hfly.markBlock hreq ok⟩
  · rw [Inv, hphase', hphase]
    exact .inl ⟨rest, hfly.markBlock hreq ok⟩

theorem Inv.unlockBuffer (h : Inv s) (hreq : s.request i = .marked) :
    Inv (setRequest (unlockBuffer s i) i .complete) := by
  have hne : s.request i ≠ .none := by simp [hreq]
  have hnot : s.request i ≠ .complete := by simp [hreq]
  rcases h.flying hne hnot with ⟨rest, hphase, hnil, hfly⟩ | ⟨hphase, rest, hfly⟩
  · obtain ⟨hphase', harr', hrequest⟩ := hfly.unlockBuffer_frame hne hnot
    rw [Inv, show (setRequest (BrwPage.unlockBuffer s i) i .complete).phase = .queue rest from
      hphase'.trans hphase]
    rcases hfly.unlockBuffer hreq with hfly' | hdone
    · exact ⟨hnil, hfly'⟩
    · -- The blocks that are not queued have not completed.
      exfalso
      obtain ⟨j, hj⟩ := exists_mem_of_ne_nil rest hnil
      obtain ⟨harr, hnone⟩ := hfly.rest j hj
      have hji := (hfly.ne_rest hne j hj).2
      have hcomplete := hdone.arr j (harr' ▸ harr)
      simp [setRequest, hji, hrequest, hnone] at hcomplete
  · have hphase' := (hfly.unlockBuffer_frame hne hnot).1.trans hphase
    rw [Inv, show (setRequest (BrwPage.unlockBuffer s i) i .complete).phase =
      .returned from hphase']
    rcases hfly.unlockBuffer hreq with hfly' | hdone
    · exact .inl ⟨rest, hfly'⟩
    · exact .inr hdone

/-! ## Every run -/

/-- A buffer of the cache that had to be read is up to date once it has been waited for. -/
def CopiesFresh (s : State) : Action → Prop
  | .waited uptodate => s.rw = .read → uptodate = true
  | _ => True

instance decidableCopiesFresh (s : State) (a : Action) : Decidable (CopiesFresh s a) :=
  match a with
  | .waited uptodate => inferInstanceAs (Decidable (s.rw = .read → uptodate = true))
  | .brwPage _ | .look _ | .submit _ | .queue | .mark _ _ | .unlock _ => isTrue trivial

theorem Inv.step {a : Action} (h : Inv s) (hfresh : CopiesFresh s a)
    (hstep : step s a = some s') : Inv s' := by
  cases a with
  | brwPage created =>
    obtain ⟨hphase, rfl⟩ := Option.ite_some_none_eq_some.mp hstep
    simp only [Inv, hphase] at h
    exact h.brwPage created
  | look cached =>
    dsimp only [BrwPage.step] at hstep
    split at hstep
    next i hphase =>
      cases hstep
      simp only [Inv, hphase] at h
      exact h.2.lookBlock h.1 cached
    · cases hstep
  | waited uptodate =>
    dsimp only [BrwPage.step] at hstep
    split at hstep
    next i hphase =>
      cases hstep
      simp only [Inv, hphase] at h
      obtain ⟨hi, hset, htemp, hcount⟩ := h
      refine hset.withoutRequest hi htemp hcount fun hread => ?_
      rw [if_pos hread]
      exact hfresh hread
    · cases hstep
  | submit taken =>
    obtain ⟨hphase, rfl⟩ := Option.ite_some_none_eq_some.mp hstep
    simp only [Inv, hphase] at h
    exact h.submitBlocks taken
  | queue =>
    dsimp only [BrwPage.step] at hstep
    split at hstep
    next i rest hphase =>
      cases hstep
      simp only [Inv, hphase] at h
      have hfly := h.2.queueBlock
      by_cases hrest : rest = []
      · rw [Inv, show (BrwPage.queueBlock s i rest).phase = .returned from if_pos hrest]
        exact .inl ⟨rest, hfly⟩
      · rw [Inv, show (BrwPage.queueBlock s i rest).phase = .queue rest from if_neg hrest]
        exact ⟨hrest, hfly⟩
    · cases hstep
  | mark i ok =>
    obtain ⟨hreq, rfl⟩ := Option.ite_some_none_eq_some.mp hstep
    exact h.markBlock hreq ok
  | unlock i =>
    obtain ⟨hreq, rfl⟩ := Option.ite_some_none_eq_some.mp hstep
    exact h.unlockBuffer hreq

theorem reachable_inv (h : (pageIo CopiesFresh).Reachable s) : Inv s := by
  refine h.invariant (I := Inv) ?_ ?_
  · intro s h0
    rw [Inv, h0.phase]
    exact h0
  · rintro s s' hinv ⟨a, hfresh, hstep⟩
    exact hinv.step hfresh hstep

theorem Flying.not_all_complete (h : Flying s rest) : ¬∀ i ∈ s.arr, s.request i = .complete := by
  intro hall
  obtain ⟨i, hi, hbusy⟩ := h.busy
  exact hbusy (hall i hi)

/-- The page is unlocked once, when `brw_page` has queued all blocks and the last of them has
completed, and what a read marks up to date has been read. -/
theorem page_io_sound (h : (pageIo CopiesFresh).Reachable s) :
    ((s.page.pgLocked = true ∧ s.unlocks = 0) ∨
      (s.page.pgLocked = false ∧ s.unlocks = 1 ∧ s.phase = .returned ∧
        ∀ i ∈ s.arr, s.request i = .complete)) ∧
    (s.phase = .returned → (∀ i ∈ s.arr, s.request i = .complete) → s.unlocks = 1) ∧
    (s.rw = .read → s.phase ≠ .start → s.page.pgUptodate = true →
      ∀ i < s.blocks, (s.held i).good = true) := by
  have hinv := reachable_inv h
  unfold Inv at hinv
  split at hinv
  next hphase =>
    exact ⟨.inl ⟨hinv.locked, hinv.unlocks⟩, by simp [hphase], by simp [hphase]⟩
  next i hphase =>
    exact ⟨.inl ⟨hinv.2.locked, hinv.2.unlocks⟩, by simp [hphase], by simp [hinv.2.stale]⟩
  next i hphase =>
    exact ⟨.inl ⟨hinv.2.1.locked, hinv.2.1.unlocks⟩, by simp [hphase], by simp [hinv.2.1.stale]⟩
  · exact ⟨.inl ⟨hinv.locked, hinv.unlocks⟩, fun _ hall => absurd hall hinv.not_all_complete,
      fun hread _ => hinv.page hread⟩
  · exact ⟨.inl ⟨hinv.2.locked, hinv.2.unlocks⟩,
      fun _ hall => absurd hall hinv.2.not_all_complete, fun hread _ => hinv.2.page hread⟩
  next hphase =>
    rcases hinv with ⟨rest, hfly⟩ | hdone
    · exact ⟨.inl ⟨hfly.locked, hfly.unlocks⟩,
        fun _ hall => absurd hall hfly.not_all_complete, fun hread _ => hfly.page hread⟩
    · exact ⟨.inr ⟨hdone.unlocked, hdone.unlocks, hphase, hdone.arr⟩,
        fun _ _ => hdone.unlocks, fun hread _ => hdone.page hread⟩

/-- A page of some blocks that is to be read, the first of them a hole. -/
def lockedPage (blocks : Nat) : State where
  rw := .read
  bmap := true
  blocks := blocks
  b i := i
  page := ⟨true, false, false⟩
  bh _ := newBuffer
  arr := []
  request _ := .none
  held _ := .nothing
  phase := .start
  unlocks := 0
  reuseList := []

theorem lockedPage_reachable (allowed : State → Action → Prop) (n : Nat) :
    (pageIo allowed).Reachable (lockedPage (n + 1)) :=
  .init ⟨Nat.succ_pos n, rfl, rfl, rfl, fun _ => rfl, fun _ => rfl, rfl⟩

/-- A hole, a block that is copied and two that are read, the last one first. -/
theorem page_io_sound_four :
    ∃ s, (pageIo CopiesFresh).Reachable s ∧ s.page = ⟨false, true, false⟩ ∧ s.unlocks = 1 ∧
      ∀ i < 4, (s.held i).good = true := by
  obtain ⟨s, hreach, hrw, hblocks, hphase, hpage, hunlocks⟩ :=
    (lockedPage_reachable CopiesFresh 3).folds (f := step) (g := CopiesFresh)
      (l := [.brwPage true, .look none, .look (some false), .waited true, .look none, .look none,
        .submit true, .queue, .queue, .mark 3 true, .mark 2 true, .unlock 3, .unlock 2])
      (p := fun s => s.rw = .read ∧ s.blocks = 4 ∧ s.phase = .returned ∧
        s.page = ⟨false, true, false⟩ ∧ s.unlocks = 1)
      (fun _ a _ hfresh hstep => ⟨a, hfresh, hstep⟩) (by decide)
  obtain ⟨-, -, hgood⟩ := page_io_sound hreach
  refine ⟨s, hreach, hpage, hunlocks, ?_⟩
  rw [← hblocks]
  exact hgood hrw (by rw [hphase]; exact Phase.noConfusion) (by rw [hpage])

/-- A block is in the buffer cache, but reading it fails: the page is marked up to date. -/
theorem stale_copy_uptodate :
    ∃ s, (pageIo fun _ _ => True).Reachable s ∧ s.rw = .read ∧ s.page = ⟨false, true, false⟩ ∧
      s.held 1 = .copied false := by
  exact (lockedPage_reachable _ 1).folds (f := step) (g := fun _ _ => True)
    (l := [.brwPage true, .look none, .look (some false), .waited false])
    (fun _ a _ hg hstep => ⟨a, hg, hstep⟩) (by decide)

end Sbckernel.Fs.BrwPage
