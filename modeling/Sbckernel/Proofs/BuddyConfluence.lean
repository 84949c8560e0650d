import Sbckernel.Proofs.Buddy

/-!
# The free lists depend on the free pages alone

Coalescing is eager: `free_pages_ok` joins a block with its buddy whenever the
bitmap shows the buddy free, and `EXPAND` never leaves two halves behind. So
the queues always hold a packed family, and a packed family is determined by
its points. Two histories that leave the same pages free leave the same
blocks on every list, however they got there, and giving back everything an
excursion of allocations took, in any order, restores the lists.

Only the lists as sets are restored. The order of a queue does depend on the
history, since blocks are pushed at its head.
-/

namespace Sbckernel.Mm.Pages

open Lib

variable {endMem endMem' : Word} {s t : Pages} {F G : Set Block}

/-- The same free pages, the same blocks on every list. -/
theorem Inv.queue_iff_of_listed (hs : Inv endMem s F) (ht : Inv endMem' t G)
    (h : ∀ p, s.Listed p ↔ t.Listed p) (o b : Nat) : b ∈ s.mem.queue o ↔ b ∈ t.mem.queue o := by
  have hcov : cover F = cover G := by
    ext p
    rw [← hs.listed_iff, ← ht.listed_iff, h]
  rw [hs.rep.mem_queue, ht.rep.mem_queue, hs.rep.packed.ext ht.rep.packed hcov]

/-- A run of allocations and the blocks it hands out, first one first. -/
inductive AllocRun : Pages → List (Word × Nat) → Pages → Prop
  | done (s : Pages) : AllocRun s [] s
  | alloc {s t : Pages} {m : PageAlloc} {b : Word} {blocks : List (Word × Nat)}
      (order : Nat) (dma : Bool) (canDma : Nat → Bool) : order < nrMemLists →
      s.mem.rmqueue order dma canDma = some (m, b) →
      AllocRun ⟨m, (b, order) :: s.allocated, s.released⟩ blocks t →
      AllocRun s ((b, order) :: blocks) t

/-- The pages of a list of blocks. -/
def pagesOf (blocks : List (Word × Nat)) : Set Nat :=
  {p | ∃ a ∈ blocks, (blockOf a).Has p}

theorem pagesOf_cons (a : Word × Nat) (blocks : List (Word × Nat)) :
    pagesOf (a :: blocks) = {p | (blockOf a).Has p} ∪ pagesOf blocks := by
  ext p
  simp [pagesOf]

theorem pagesOf_perm {l l' : List (Word × Nat)} (h : l.Perm l') : pagesOf l = pagesOf l' := by
  ext p
  simp only [pagesOf, h.mem_iff]

/-- What a run of allocations takes from the free pages is what it hands
out. -/
theorem AllocRun.spec {blocks : List (Word × Nat)} (hrun : AllocRun s blocks t) :
    ∀ {F : Set Block}, Inv endMem s F → ∃ G, Inv endMem t G ∧
      pagesOf blocks ∪ cover G = cover F ∧ t.allocated.Perm (blocks ++ s.allocated) := by
  induction hrun with
  | done s =>
    intro F h
    refine ⟨F, h, ?_, List.Perm.refl _⟩
    ext p
    simp [pagesOf]
  | @alloc s t m b blocks order dma canDma ho hr hrun ih =>
    intro F h
    obtain ⟨F', h', hcov'⟩ := h.alloc ho hr
    obtain ⟨G, hG, hcov, hperm⟩ := ih h'
    refine ⟨G, hG, ?_, hperm.trans List.perm_middle⟩
    rw [pagesOf_cons, Set.union_assoc, hcov, hcov']

/-- Giving back a list of blocks, each as it was handed out. -/
def freeAll (m : PageAlloc) (blocks : List (Word × Nat)) : Option PageAlloc :=
  blocks.foldlM (fun m a => m.freePagesOk a.1 a.2) m

theorem freeAll_spec : ∀ (blocks : List (Word × Nat)) {s : Pages} {F : Set Block},
    Inv endMem s F → blocks.Subperm s.allocated →
    ∃ t G, freeAll s.mem blocks = some t.mem ∧ Inv endMem t G ∧
      cover G = pagesOf blocks ∪ cover F := by
  intro blocks
  induction blocks with
  | nil =>
    intro s F h _
    refine ⟨s, F, rfl, h, ?_⟩
    ext p
    simp [pagesOf]
  | cons a blocks ih =>
    intro s F h hsub
    have ha : a ∈ s.allocated := hsub.subset List.mem_cons_self
    obtain ⟨m, F1, hm, -⟩ := h.freePagesOk ha
    obtain ⟨F', h', hcov'⟩ := h.free ha hm
    have hsub' : blocks.Subperm (s.allocated.erase a) := by
      have := hsub.erase a
      rwa [List.erase_cons_head] at this
    obtain ⟨t, G, hrun, hG, hcov⟩ := ih h' hsub'
    refine ⟨t, G, ?_, hG, ?_⟩
    · rw [freeAll, List.foldlM_cons, hm]
      exact hrun
    · rw [hcov, hcov', pagesOf_cons, ← Set.union_assoc,
        Set.union_comm (pagesOf blocks) {p | (blockOf a).Has p}]

/-- The free lists are a function of the free pages: two runs that end with the
same pages free have the same blocks on every list, and giving back all that a
run of allocations took, in any order, restores every list. -/
theorem free_lists_confluent (hs : (system endMem).Reachable s) :
    (∀ (endMem' : Word) (t : Pages), (system endMem').Reachable t →
      (∀ p, s.Listed p ↔ t.Listed p) →
      ∀ o < nrMemLists, ∀ b, b ∈ s.mem.queue o ↔ b ∈ t.mem.queue o) ∧
    ∀ (blocks given : List (Word × Nat)) (t : Pages), AllocRun s blocks t →
      given.Perm blocks → ∃ m, freeAll t.mem given = some m ∧
        ∀ o < nrMemLists, ∀ b, b ∈ m.queue o ↔ b ∈ s.mem.queue o := by
  obtain ⟨F, hF⟩ := inv_reachable hs
  constructor
  · intro endMem' t ht hsame o _ b
    obtain ⟨G, hG⟩ := inv_reachable ht
    exact hF.queue_iff_of_listed hG hsame o b
  · intro blocks given t hrun hperm
    obtain ⟨G, hG, hcov, halloc⟩ := hrun.spec hF
    have hsub : given.Subperm t.allocated :=
      (hperm.subperm.trans (List.sublist_append_left _ _).subperm).trans halloc.symm.subperm
    obtain ⟨u, H, hfree, hH, hcovH⟩ := freeAll_spec given hG hsub
    refine ⟨u.mem, hfree, fun o _ b => ?_⟩
    refine hH.queue_iff_of_listed hF (fun p => ?_) o b
    rw [hH.listed_iff, hF.listed_iff, hcovH, pagesOf_perm hperm, hcov]

/-- Taking one page of a pair and giving it back joins the pair again. -/
theorem free_lists_confluent_pair :
    ∃ t, AllocRun ⟨pairMem, [], [0, 1]⟩ [(1, 0)] t ∧
      ∃ m, freeAll t.mem [(1, 0)] = some m ∧
        ∀ o < nrMemLists, ∀ b, b ∈ m.queue o ↔ b ∈ pairMem.queue o := by
  have hrun : AllocRun ⟨pairMem, [], [0, 1]⟩ [(1, 0)] _ :=
    .alloc 0 false (fun _ => false) (by decide) rfl (.done _)
  exact ⟨_, hrun, (free_lists_confluent reachable_pair).2 _ _ _ hrun (List.Perm.refl _)⟩

end Sbckernel.Mm.Pages
