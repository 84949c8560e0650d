import Mathlib.Data.Set.Lattice
import Mathlib.Data.Nat.Bitwise

/-!
# Dyadic blocks and packed families of them

A dyadic block of order `o` is a run of `2 ^ o` consecutive naturals that
starts at a multiple of `2 ^ o`. Two blocks are nested or disjoint, never
anything in between, and every block of order `o` has one sibling with which
it makes up its parent of order `o + 1`.

A family of blocks is *packed* up to a cap when its members are disjoint and
no two siblings below the cap are both in it. That is the shape an eagerly
coalescing allocator keeps its free memory in, and the theorem to take away
is `Packed.ext`: a packed family is determined by the set of points it
covers. The other lemmas are the four moves such an allocator makes, each
stated for a family and one loose block beside it: absorb the sibling, settle
the block, take a block out, cut a block in half.
-/

namespace Sbckernel.Lib

variable {p : Nat} {b a : Block}

/-- The `2 ^ order` points from `idx * 2 ^ order` on. -/
structure Block where
  order : Nat
  idx : Nat
deriving DecidableEq, Repr

namespace Block

/-- Membership of a point, phrased so that `omega` and division lemmas can
work with it. -/
def Has (b : Block) (p : Nat) : Prop := p / 2 ^ b.order = b.idx
  deriving Decidable

/-- The first point of a block. -/
def base (b : Block) : Nat := b.idx * 2 ^ b.order

/-- The other half of the parent. -/
def sibling (b : Block) : Block := ⟨b.order, b.idx ^^^ 1⟩

def parent (b : Block) : Block := ⟨b.order + 1, b.idx / 2⟩

theorem has_iff : b.Has p ↔ b.base ≤ p ∧ p < b.base + 2 ^ b.order := by
  have hpos : 0 < 2 ^ b.order := Nat.two_pow_pos _
  rw [Has, Nat.div_eq_iff hpos, base]
  omega

theorem has_base (b : Block) : b.Has b.base :=
  has_iff.2 ⟨Nat.le_refl _, by have := Nat.two_pow_pos b.order; omega⟩

theorem has_div (p o : Nat) : (mk o (p / 2 ^ o)).Has p := rfl

theorem eq_of_has (ho : a.order = b.order) (ha : a.Has p) (hb : b.Has p) : a = b := by
  obtain ⟨o, i⟩ := a
  obtain ⟨o', j⟩ := b
  obtain rfl : o = o' := ho
  obtain rfl : p / 2 ^ o = i := ha
  obtain rfl : p / 2 ^ o = j := hb
  rfl

theorem base_injective_of_order (ho : a.order = b.order) (hb : a.base = b.base) : a = b :=
  eq_of_has ho a.has_base (hb ▸ b.has_base)

/-- A block that meets a block of at least its order lies inside it. -/
theorem has_of_le {q : Nat} (ho : a.order ≤ b.order)
    (ha : a.Has p) (hb : b.Has p) (hq : a.Has q) : b.Has q := by
  have hsplit : ∀ x, x / 2 ^ b.order = x / 2 ^ a.order / 2 ^ (b.order - a.order) := by
    intro x
    rw [Nat.div_div_eq_div_mul, ← Nat.pow_add, Nat.add_sub_cancel' ho]
  unfold Has at *
  rw [hsplit, hq, ← ha, ← hsplit, hb]

theorem sibling_order (b : Block) : b.sibling.order = b.order := rfl

theorem xor_one_cases (i : Nat) :
    (i % 2 = 0 ∧ i ^^^ 1 = i + 1) ∨ (i % 2 = 1 ∧ i ^^^ 1 = i - 1) := by
  rcases Nat.mod_two_eq_zero_or_one i with h | h
  · exact Or.inl ⟨h, Nat.xor_one_of_even (Nat.even_iff.2 h)⟩
  · exact Or.inr ⟨h, Nat.xor_one_of_odd (Nat.odd_iff.2 h)⟩

theorem sibling_ne (b : Block) : b.sibling ≠ b := by
  intro h
  have hi : b.idx ^^^ 1 = b.idx := congrArg idx h
  rcases xor_one_cases b.idx with ⟨h2, hx⟩ | ⟨h2, hx⟩ <;> omega

theorem sibling_even (o i : Nat) : (mk o (2 * i)).sibling = ⟨o, 2 * i + 1⟩ := by
  rw [sibling, Nat.xor_one_of_even (even_two_mul i)]

theorem sibling_sibling (b : Block) : b.sibling.sibling = b := by
  obtain ⟨o, i⟩ := b
  simp only [sibling, mk.injEq, true_and]
  rw [Nat.xor_assoc, Nat.xor_self, Nat.xor_zero]

theorem sibling_parent (b : Block) : b.sibling.parent = b.parent := by
  simp only [parent, sibling, mk.injEq, true_and]
  rcases xor_one_cases b.idx with ⟨h2, hx⟩ | ⟨h2, hx⟩ <;> omega

theorem sibling_idx_div (b : Block) : b.sibling.idx / 2 = b.idx / 2 :=
  congrArg idx b.sibling_parent

/-- The parent is exactly the two halves. -/
theorem parent_has : b.parent.Has p ↔ b.Has p ∨ b.sibling.Has p := by
  simp only [Has, parent, sibling, Nat.pow_succ, ← Nat.div_div_eq_div_mul]
  generalize p / 2 ^ b.order = x
  rcases xor_one_cases b.idx with ⟨h2, hx⟩ | ⟨h2, hx⟩ <;> omega

/-- Siblings are the two blocks of one order below one parent. -/
theorem eq_or_eq_sibling (ho : a.order = b.order)
    (hp : a.idx / 2 = b.idx / 2) : a = b ∨ a = b.sibling := by
  obtain ⟨o, i⟩ := a
  obtain ⟨o', j⟩ := b
  obtain rfl : o = o' := ho
  simp only [sibling, mk.injEq, true_and]
  have hp' : i / 2 = j / 2 := hp
  rcases xor_one_cases j with ⟨h2, hx⟩ | ⟨h2, hx⟩ <;> omega

end Block

/-- The points a family of blocks covers. -/
def cover (F : Set Block) : Set Nat := {p | ∃ b ∈ F, b.Has p}

theorem cover_insert (x : Block) (F : Set Block) :
    cover (insert x F) = {p | x.Has p} ∪ cover F := by
  ext p
  simp [cover]

/-- A block beside a family: none of its points is covered. -/
def Loose (x : Block) (F : Set Block) : Prop := ∀ p, x.Has p → p ∉ cover F

theorem Loose.notMem {x : Block} {F : Set Block} (h : Loose x F) : x ∉ F :=
  fun hx => h x.base x.has_base ⟨x, hx, x.has_base⟩

/-- Disjoint blocks of order at most `cap`, no two of them siblings that could
still be joined. -/
structure Packed (cap : Nat) (F : Set Block) : Prop where
  order_le : ∀ b ∈ F, b.order ≤ cap
  disjoint : ∀ a ∈ F, ∀ b ∈ F, ∀ p, a.Has p → b.Has p → a = b
  apart : ∀ b ∈ F, b.order < cap → b.sibling ∉ F

theorem packed_empty (cap : Nat) : Packed cap ∅ :=
  ⟨fun _ h => h.elim, fun _ h => h.elim, fun _ h => h.elim⟩

section Packed

open Block

variable {cap : Nat} {F G : Set Block} {x : Block}

section
variable (hF : Packed cap F)
include hF

/-- A covered block lies inside a single member. The induction is on the order
of the block: if its halves were in two members, those would be the halves
themselves, and a packed family holds no two siblings. -/
theorem Packed.exists_of_covered :
    ∀ {b : Block}, b.order ≤ cap → (∀ p, b.Has p → p ∈ cover F) →
      ∃ c ∈ F, b.order ≤ c.order ∧ ∀ p, b.Has p → c.Has p := by
  intro b
  obtain ⟨o, i⟩ := b
  induction o generalizing i with
  | zero =>
    intro _ hcov
    obtain ⟨c, hc, hp⟩ := hcov _ (has_base _)
    exact ⟨c, hc, Nat.zero_le _, fun q hq =>
      has_of_le (Nat.zero_le _) (has_base _) hp hq⟩
  | succ o ih =>
    intro ho hcov
    have hle : o + 1 ≤ cap := ho
    -- the lower half, its sibling the upper half, and their parent
    have hpar : (Block.mk o (2 * i)).parent = ⟨o + 1, i⟩ := by
      simp only [Block.parent, Block.mk.injEq, true_and]
      omega
    have hhalf : ∀ p, (Block.mk o (2 * i)).Has p ∨
        (Block.mk o (2 * i)).sibling.Has p ↔ (Block.mk (o + 1) i).Has p := by
      intro p
      rw [← hpar, parent_has]
    obtain ⟨c, hc, hco, hcin⟩ := ih (2 * i) (by simp only; omega)
      (fun p hp => hcov p ((hhalf p).1 (Or.inl hp)))
    obtain ⟨d, hd, hdo, hdin⟩ := ih (Block.mk o (2 * i)).sibling.idx
      (by simp only; omega)
      (fun p hp => hcov p ((hhalf p).1 (Or.inr hp)))
    have hbase := has_base (Block.mk o (2 * i))
    have hsbase := has_base (Block.mk o (2 * i)).sibling
    rcases Nat.lt_or_ge o c.order with hlt | hge
    · exact ⟨c, hc, hlt, fun q hq => has_of_le (a := ⟨o + 1, i⟩) hlt
        ((hhalf _).1 (Or.inl hbase)) (hcin _ hbase) hq⟩
    · rcases Nat.lt_or_ge o d.order with hlt' | hge'
      · exact ⟨d, hd, hlt', fun q hq => has_of_le (a := ⟨o + 1, i⟩) hlt'
          ((hhalf _).1 (Or.inr hsbase)) (hdin _ hsbase) hq⟩
      · -- both members are exactly the halves, which are siblings
        have hc_eq : c = Block.mk o (2 * i) :=
          eq_of_has (Nat.le_antisymm hge hco) (hcin _ hbase) hbase
        have hd_eq : d = (Block.mk o (2 * i)).sibling :=
          eq_of_has (Nat.le_antisymm hge' hdo) (hdin _ hsbase) hsbase
        subst hc_eq hd_eq
        exact absurd hd (hF.apart _ hc (by simp only; omega))

theorem Packed.subset_of_cover (hG : Packed cap G)
    (h : cover F ⊆ cover G) (h' : cover G ⊆ cover F) : F ⊆ G := by
  intro b hb
  obtain ⟨c, hc, hbc, hin⟩ := hG.exists_of_covered (hF.order_le b hb)
    (fun p hp => h ⟨b, hb, hp⟩)
  obtain ⟨d, hd, hcd, hin'⟩ := hF.exists_of_covered (hG.order_le c hc)
    (fun p hp => h' ⟨c, hc, hp⟩)
  have hbase := b.has_base
  have hbd : b = d := hF.disjoint b hb d hd _ hbase (hin' _ (hin _ hbase))
  subst hbd
  have hbc' : b = c :=
    eq_of_has (Nat.le_antisymm hbc hcd) hbase (hin _ hbase)
  exact hbc' ▸ hc

/-- A packed family is determined by what it covers. -/
theorem Packed.ext (hG : Packed cap G) (h : cover F = cover G) : F = G :=
  Set.Subset.antisymm
    (hF.subset_of_cover hG (le_of_eq h) (le_of_eq h.symm))
    (hG.subset_of_cover hF (le_of_eq h.symm) (le_of_eq h))

theorem Packed.diff (b : Block) : Packed cap (F \ {b}) :=
  ⟨fun a ha => hF.order_le a ha.1, fun a ha c hc => hF.disjoint a ha.1 c hc.1,
   fun a ha ho h => hF.apart a ha.1 ho h.1⟩

/-- A member taken out is loose beside the rest. -/
theorem Packed.loose_diff (hb : b ∈ F) : Loose b (F \ {b}) := by
  rintro p hp ⟨c, ⟨hc, hne⟩, hcp⟩
  exact hne (hF.disjoint b hb c hc p hp hcp).symm

end

theorem cover_diff (hb : b ∈ F) : {p | b.Has p} ∪ cover (F \ {b}) = cover F := by
  rw [← cover_insert, Set.insert_sdiff_singleton, Set.insert_eq_of_mem hb]

/-- A loose block with no sibling to join settles. -/
theorem Packed.insert (hF : Packed cap F) (hx : Loose x F) (ho : x.order ≤ cap)
    (hs : x.order < cap → x.sibling ∉ F) : Packed cap (insert x F) := by
  refine ⟨?_, ?_, ?_⟩
  · rintro b (rfl | hb)
    · exact ho
    · exact hF.order_le b hb
  · rintro a (rfl | ha) b (rfl | hb) p hap hbp
    · rfl
    · exact absurd ⟨b, hb, hbp⟩ (hx p hap)
    · exact absurd ⟨a, ha, hap⟩ (hx p hbp)
    · exact hF.disjoint a ha b hb p hap hbp
  · rintro b (rfl | hb) hlt
    · rintro (h | h)
      · exact b.sibling_ne h
      · exact hs hlt h
    · rintro (h | h)
      · subst h
        exact hs hlt (by rw [sibling_sibling]; exact hb)
      · exact hF.apart b hb hlt h

/-- Absorbing the sibling leaves the parent loose. -/
theorem Loose.parent (hF : Packed cap F) (hx : Loose x F)
    (hs : x.sibling ∈ F) : Loose x.parent (F \ {x.sibling}) := by
  intro p hp hcov
  rcases parent_has.1 hp with h | h
  · obtain ⟨c, hc, hcp⟩ := hcov
    exact hx p h ⟨c, hc.1, hcp⟩
  · exact hF.loose_diff hs p h hcov

theorem cover_parent (hs : x.sibling ∈ F) :
    {p | x.parent.Has p} ∪ cover (F \ {x.sibling}) = {p | x.Has p} ∪ cover F := by
  rw [← cover_diff hs, ← Set.union_assoc]
  congr 1
  ext p
  exact parent_has

/-- Cutting a loose block: either half settles, the other stays loose. -/
theorem Packed.insert_half (hF : Packed cap F) (hx : Loose x.parent F) (ho : x.order < cap) :
    Packed cap (Set.insert x F) ∧ Loose x.sibling (Set.insert x F) := by
  have hin : ∀ p, x.Has p → x.parent.Has p := fun p hp =>
    parent_has.2 (Or.inl hp)
  have hin' : ∀ p, x.sibling.Has p → x.parent.Has p := fun p hp =>
    parent_has.2 (Or.inr hp)
  have hl : Loose x F := fun p hp => hx p (hin p hp)
  have hr : Loose x.sibling F := fun p hp => hx p (hin' p hp)
  refine ⟨hF.insert hl (Nat.le_of_lt ho) fun _ => hr.notMem, ?_⟩
  rintro p hp ⟨c, rfl | hc, hcp⟩
  · exact c.sibling_ne (eq_of_has rfl hp hcp)
  · exact hr p hp ⟨c, hc, hcp⟩

theorem cover_half (x : Block) (F : Set Block) :
    {p | x.sibling.Has p} ∪ cover (Set.insert x F) = {p | x.parent.Has p} ∪ cover F := by
  have h := cover_insert x F
  rw [show Set.insert x F = insert x F from rfl, h, ← Set.union_assoc]
  congr 1
  ext p
  simp only [Set.mem_union, Set.mem_ofPred_eq, parent_has]
  exact or_comm

end Packed

end Sbckernel.Lib
