import Sbckernel.Proofs.KmallocFree

/-!
# `kmalloc` hands out disjoint blocks

The invariant holds in every state. What it does not give is that the block is as large as
what was asked for: `realsize`, an `unsigned int`, is the size and the header modulo
`2 ^ 32`, and a size of `2 ^ 32 - 8` or more gets a block of 32 bytes (`kmalloc_overflow`).
In the runs without such sizes a live block has its bytes for itself.
-/

namespace Sbckernel.Kmalloc

open Lib Function

variable {s : State} {F : Nat → List Nat} {D : Nat → Bool} {L : Bucket → List Nat}

/-! ## Runs -/

def Call.Small : Call → Prop
  | .kmalloc size _ _ => size + headerSize < 2 ^ 32
  | .kfree _ => True

instance decidableSmall (call : Call) : Decidable call.Small :=
  match call with
  | .kmalloc size _ _ => inferInstanceAs (Decidable (size + headerSize < 2 ^ 32))
  | .kfree _ => .isTrue trivial

def heap : System State where
  init s := ∃ desc hdr, s = init desc hdr
  step s s' := ∃ call r, step s call = some (s', r)

/-- The runs in which the size with the header never overflows. -/
def smallHeap : System State where
  init s := ∃ desc hdr, s = init desc hdr
  step s s' := ∃ call r, call.Small ∧ step s call = some (s', r)

theorem init_inv (desc : Nat → PageDescriptor) (hdr : Nat → BlockHeader) :
    Inv (init desc hdr) (fun _ => []) (fun _ => false) fun _ => [] where
  nodup := List.nodup_nil
  page := List.forall_mem_nil _
  chain _ := rfl
  listNodup _ := List.nodup_nil
  listed _ _ := ⟨fun h => absurd h List.not_mem_nil, fun h => absurd h.1 List.not_mem_nil⟩
  live _ _ h := by cases h
  cached _ _ h := absurd rfl h
  cacheInj _ _ _ _ h := absurd rfl h

/-- The sizes that have been asked for. -/
def SmallLive (s : State) : Prop := ∀ x size, s.live x = some size → size + headerSize < 2 ^ 32

theorem step_inv {s' : State} {call : Call} {r : Nat} (h : Inv s F D L)
    (hstep : step s call = some (s', r)) :
    (∃ F' D' L', Inv s' F' D' L') ∧ (call.Small → SmallLive s → SmallLive s') := by
  cases call with
  | kmalloc size dma grant =>
    obtain ⟨⟨hsize, hgranted⟩, heq⟩ := Option.ite_none_right_eq_some.mp hstep
    have hs' : (kmalloc s size dma grant).1 = s' := congrArg Prod.fst (Option.some.inj heq)
    rw [← hs']
    rcases kmalloc_cases h hgranted with hnone | ⟨s0, F', D', L', order, page, p, heq', hsource,
      hlive, ho, hfits⟩
    · rw [hnone]
      exact ⟨⟨F, D, L, h⟩, fun _ => id⟩
    · rw [heq']
      obtain ⟨F'', L'', hinv⟩ := hsource.inv_foundIt hsize hfits
      refine ⟨⟨F'', D', L'', hinv⟩, fun hcall hsmall x size' hx => ?_⟩
      by_cases hxp : x = p + headerSize
      · rw [hxp] at hx
        cases (update_self ..).symm.trans hx
        exact hcall
      · have hold := (update_of_ne hxp ..).symm.trans hx
        rw [hlive] at hold
        exact hsmall x size' hold
  | kfree y =>
    obtain ⟨hlive, heq⟩ := Option.ite_none_right_eq_some.mp hstep
    obtain ⟨s'', hfree, hupdate, F', L', hinv⟩ := kfree_inv h hlive
    rw [hfree] at heq
    cases heq
    refine ⟨⟨F', D, L', hinv⟩, fun _ hsmall x size hx => ?_⟩
    rw [hupdate] at hx
    by_cases hxy : x = y
    · rw [hxy, update_self] at hx
      cases hx
    · rw [update_of_ne hxy] at hx
      exact hsmall x size hx

theorem reachable_inv (h : smallHeap.Reachable s) : (∃ F D L, Inv s F D L) ∧ SmallLive s := by
  refine h.invariant (I := fun s => (∃ F D L, Inv s F D L) ∧ SmallLive s) ?_ ?_
  · rintro s ⟨desc, hdr, rfl⟩
    refine ⟨⟨_, _, _, init_inv desc hdr⟩, fun x size hx => ?_⟩
    cases hx
  · rintro s s' ⟨⟨F, D, L, hinv⟩, hsmall⟩ ⟨call, r, hcall, hstep⟩
    obtain ⟨hinv', hsmall'⟩ := step_inv hinv hstep
    exact ⟨hinv', hsmall' hcall hsmall⟩

/-! ## The blocks that have been handed out -/

/-- The pages of a list have free blocks, and every block of such a page is live or on its chain,
once. -/
def ListOk (s : State) (l : List Nat) : Prop :=
  l.Nodup ∧ ∀ page ∈ l, page ∈ s.areas ∧
    ∃ free, Chain (bhNext s) (ptr (s.desc page).firstfree) free none ∧
    free.Nodup ∧ (s.desc page).nfree = free.length ∧ 0 < free.length ∧
    (∀ p ∈ free, p ∈ blocks page (orderOf s page)) ∧
    ∀ p ∈ blocks page (orderOf s page), s.live (p + headerSize) = none ↔ p ∈ free

/-- The bytes of a block that has been handed out, inside their area. -/
def Usable (s : State) (x size : Nat) : Prop :=
  ∃ page ∈ s.areas, page + descriptorSize + headerSize ≤ x ∧
    x + size ≤ page + pageSize * 2 ^ gfporder (orderOf s page)

section
variable {x x' size size' : Nat}

theorem Inv.listOk (h : Inv s F D L) (b : Bucket) : ListOk s (L b) := by
  refine ⟨h.listNodup b, fun page hpage => ?_⟩
  obtain ⟨hmem, -, hF⟩ := (h.listed b page).mp hpage
  have hok := h.page page hmem
  refine ⟨hmem, F page, hok.chain, hok.nodup, hok.nfree, List.length_pos_iff.mpr hF,
    fun p hp => (hok.free p hp).1, fun p hp => ⟨fun hlive => ?_, fun hin => (hok.free p hin).2.2⟩⟩
  by_contra hout
  obtain ⟨-, size, hsize, -⟩ := hok.used p hp hout
  rw [hlive] at hsize
  cases hsize

/-- A live block, with its header, is inside a block of its area. -/
theorem Inv.in_block (h : Inv s F D L) (hsmall : SmallLive s) (hx : s.live x = some size) :
    ∃ page ∈ s.areas, ∃ p ∈ blocks page (orderOf s page), x = p + headerSize ∧
      x + size ≤ p + blockSize (orderOf s page) ∧ page + descriptorSize ≤ p ∧
      p + blockSize (orderOf s page) ≤ page + pageSize * 2 ^ gfporder (orderOf s page) := by
  obtain ⟨page, hpage, p, hp, rfl⟩ := h.live x size hx
  have hok := h.page page hpage
  have hout : p ∉ F page := by
    intro hin
    rw [(hok.free p hin).2.2] at hx
    cases hx
  obtain ⟨-, size', hsize, -, hfits⟩ := hok.used p hp hout
  cases hx.symm.trans hsize
  rw [Nat.mod_eq_of_lt (hsmall _ _ hx)] at hfits
  obtain ⟨hlow, hhigh, -⟩ := block_bounds hok.order hp
  exact ⟨page, hpage, p, hp, rfl, by omega, hlow, hhigh⟩

/-- Areas do not overlap. -/
theorem Inv.areas_apart (h : Inv s F D L) {a a' : Nat} (ha : a ∈ s.areas) (ha' : a' ∈ s.areas)
    (hne : a ≠ a') : a + pageSize * 2 ^ gfporder (orderOf s a) ≤ a' ∨
      a' + pageSize * 2 ^ gfporder (orderOf s a') ≤ a := by
  have hok := h.page a ha
  have hok' := h.page a' ha'
  rcases Nat.lt_or_ge a a' with hlt | hge
  · refine .inl (hok'.owned.apart hok.owned hne.symm hok'.aligned hok.aligned (Nat.le_refl a') ?_
      (Nat.le_of_lt hlt))
    exact Nat.lt_add_of_pos_right (Nat.mul_pos (by decide) (Nat.two_pow_pos _))
  · refine .inr (hok.owned.apart hok'.owned hne hok.aligned hok'.aligned (Nat.le_refl a) ?_ hge)
    exact Nat.lt_add_of_pos_right (Nat.mul_pos (by decide) (Nat.two_pow_pos _))

theorem Inv.live_apart (h : Inv s F D L) (hsmall : SmallLive s) (hx : s.live x = some size)
    (hx' : s.live x' = some size') (hne : x ≠ x') :
    x + size + headerSize ≤ x' ∨ x' + size' + headerSize ≤ x := by
  obtain ⟨a, ha, p, hp, rfl, hle, hlow, hhigh⟩ := h.in_block hsmall hx
  obtain ⟨a', ha', p', hp', rfl, hle', hlow', hhigh'⟩ := h.in_block hsmall hx'
  by_cases heq : a = a'
  · subst heq
    have hap := blocks_apart hp hp' fun heq => hne (congrArg (· + headerSize) heq)
    omega
  · have hap := h.areas_apart ha ha' heq
    omega

end

/-- In every state the lists are in order, a page without a free block is on none of them, and a
block that has been handed out has the bytes that were asked for, with its header apart from all
other live blocks and from all descriptors. What `kmalloc` returns was not live, and `kfree`
returns. -/
theorem kmalloc_disjoint {s : State} (h : smallHeap.Reachable s) :
    (∀ b, ∃ l, Chain (nextPage s) (ptr (s.lists b)) l none ∧ ListOk s l) ∧
    (∀ page ∈ s.areas, (s.desc page).nfree = 0 → ∀ b l,
      Chain (nextPage s) (ptr (s.lists b)) l none → page ∉ l) ∧
    (∀ x size, s.live x = some size → Usable s x size ∧
      (∀ x' size', s.live x' = some size' → x' ≠ x →
        x + size + headerSize ≤ x' ∨ x' + size' + headerSize ≤ x) ∧
      ∀ page ∈ s.areas, x + size ≤ page ∨ page + descriptorSize + headerSize ≤ x) ∧
    (∀ size dma grant, size + headerSize < 2 ^ 32 → granted s size grant →
      let r := kmalloc s size dma grant
      r.2 = 0 ∨ s.live r.2 = none ∧ r.1.live = update s.live r.2 (some size)) ∧
    ∀ x, s.live x ≠ none → ∃ s', kfree s x = some s' ∧ s'.live = update s.live x none := by
  obtain ⟨⟨F, D, L, hinv⟩, hsmall⟩ := reachable_inv h
  refine ⟨fun b => ⟨L b, hinv.chain b, hinv.listOk b⟩, fun page _ hzero b l hl hmem => ?_,
    fun x size hx => ⟨?_, fun x' size' hx' hne => hinv.live_apart hsmall hx hx' hne.symm,
      fun page hpage => ?_⟩, fun size dma grant _ hgranted => ?_,
    fun x hx => ?_⟩
  · rw [hl.unique (hinv.chain b)] at hmem
    obtain ⟨-, free, -, -, hnfree, hpos, -⟩ := (hinv.listOk b).2 page hmem
    omega
  · obtain ⟨page, hpage, p, hp, rfl, hle, hlow, hhigh⟩ := hinv.in_block hsmall hx
    exact ⟨page, hpage, by omega, by omega⟩
  · obtain ⟨a, ha, p, hp, rfl, hle, hlow, hhigh⟩ := hinv.in_block hsmall hx
    by_cases heq : a = page
    · subst heq
      right
      omega
    · have hap := hinv.areas_apart ha hpage heq
      omega
  · rcases kmalloc_cases hinv hgranted with hnone | ⟨s0, F', D', L', order, page, p, heq, hsource,
      hlive, -, -⟩
    · exact .inl (congrArg Prod.snd hnone)
    · right
      rw [heq, ← hlive]
      exact ⟨hsource.not_live, rfl⟩
  · obtain ⟨s', hfree, hupdate, -⟩ := kfree_inv hinv hx
    exact ⟨s', hfree, hupdate⟩

def blank : State := init (fun _ => ⟨0, 0, 0, 0⟩) fun _ => ⟨0, 0⟩

/-- Two blocks of 24 bytes and one of 16 are handed out, and the first is freed. -/
def someCalls : List Call :=
  [.kmalloc 24 false (some 4096), .kmalloc 16 false none, .kmalloc 24 true (some 8192), .kfree 4120]

theorem kmalloc_disjoint_calls : ∃ s, smallHeap.Reachable s ∧ s.live 4152 = some 16 ∧
    s.live 8216 = some 24 ∧ (4152 + 16 + headerSize ≤ 8216 ∨ 8216 + 24 + headerSize ≤ 4152) := by
  have hinit : smallHeap.Reachable blank := .init ⟨_, _, rfl⟩
  obtain ⟨s, hreach, hfirst, hsecond⟩ := hinit.runs (f := step) (g := fun _ call => call.Small)
    (l := someCalls) (p := fun s => s.live 4152 = some 16 ∧ s.live 8216 = some 24)
    (fun _ call _ r hsmall hstep => ⟨call, r, hsmall, hstep⟩) (by decide +kernel)
  obtain ⟨-, -, hblocks, -⟩ := kmalloc_disjoint hreach
  exact ⟨s, hreach, hfirst, hsecond, (hblocks _ _ hfirst).2.1 _ _ hsecond (by decide)⟩

/-- With its header, a size of `2 ^ 32 - 8` is 0. -/
theorem kmalloc_overflow : ∃ s, heap.Reachable s ∧ s.areas = [4096] ∧
    gfporder (orderOf s 4096) = 0 ∧ s.live 4120 = some (2 ^ 32 - 8) ∧ s.live 4152 = some 24 := by
  have hinit : heap.Reachable blank := .init ⟨_, _, rfl⟩
  exact hinit.runs (f := step) (g := fun _ _ => True)
    (l := [.kmalloc (2 ^ 32 - 8) false (some 4096), .kmalloc 24 false none])
    (fun _ a _ r _ hstep => ⟨a, r, hstep⟩) (by decide +kernel)

end Sbckernel.Kmalloc
