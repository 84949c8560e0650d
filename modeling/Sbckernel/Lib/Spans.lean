import Mathlib.Algebra.Order.Ring.Int

/-!
# Ordered spans of integers

Each element of a list stands for the span from `lo` up to `hi`. A span with
`hi < lo` covers nothing, but it has a place in the order all the same. The list
is gapless from `x` on if each span starts no later than the one before it ends;
for ordered spans that are not turned around this says exactly that everything
up to the last end is covered, and each point once. A tiling is a list of spans
that are not empty and follow one another.
-/

namespace Sbckernel.Lib.Spans

open List

variable {α : Type*} {lo hi : α → Int} {l l' : List α} {a : α} {x p y : Int}

variable (lo hi) in
/-- No span starts before the start or the end of one in front of it. -/
def Ordered (l : List α) : Prop := l.Pairwise fun a b => lo a ≤ lo b ∧ hi a ≤ lo b

variable (lo hi) in
def Covers (l : List α) (p : Int) : Prop := ∃ a ∈ l, lo a ≤ p ∧ p < hi a

variable (lo hi) in
def Gapless : List α → Int → Prop
  | [], _ => True
  | a :: l, x => lo a ≤ x ∧ Gapless l (hi a)

variable (hi) in
/-- Where a gapless list that starts at `x` ends. -/
def stop : Int → List α → Int
  | x, [] => x
  | _, a :: l => stop (hi a) l

theorem ordered_append :
    Ordered lo hi (l ++ l') ↔ Ordered lo hi l ∧ Ordered lo hi l' ∧
      ∀ a ∈ l, ∀ b ∈ l', lo a ≤ lo b ∧ hi a ≤ lo b := pairwise_append

theorem ordered_cons :
    Ordered lo hi (a :: l) ↔ (∀ b ∈ l, lo a ≤ lo b ∧ hi a ≤ lo b) ∧ Ordered lo hi l :=
  pairwise_cons

theorem covers_append : Covers lo hi (l ++ l') p ↔ Covers lo hi l p ∨ Covers lo hi l' p := by
  simp only [Covers, mem_append, or_and_right, exists_or]

theorem covers_cons : Covers lo hi (a :: l) p ↔ (lo a ≤ p ∧ p < hi a) ∨ Covers lo hi l p := by
  simp [Covers]

theorem not_covers_nil : ¬Covers lo hi ([] : List α) p := by simp [Covers]

/-- A gapless list covers everything in front of its bounds. -/
theorem Gapless.covers (h : Gapless lo hi l x) (ha : a ∈ l) (hx : x ≤ p)
    (hp : p < lo a ∨ p < hi a) : Covers lo hi l p := by
  induction l generalizing x with
  | nil => cases ha
  | cons b l ih =>
    rw [covers_cons]
    by_cases hpb : p < hi b
    · exact .inl ⟨h.1.trans hx, hpb⟩
    · rcases mem_cons.mp ha with rfl | ha
      · have := h.1
        omega
      · exact .inr (ih h.2 ha (not_lt.mp hpb))

/-- An ordered list that covers everything up to `m` is gapless. -/
theorem gapless_of_covers {m : Int} (hord : Ordered lo hi l) (hproper : ∀ a ∈ l, lo a ≤ hi a)
    (hx : ∀ a ∈ l, x ≤ lo a) (hm : ∀ a ∈ l, hi a ≤ m)
    (hcov : ∀ p, x ≤ p → p < m → Covers lo hi l p) : Gapless lo hi l x := by
  induction l generalizing x with
  | nil => trivial
  | cons b l ih =>
    obtain ⟨hb, hl⟩ := ordered_cons.mp hord
    have hxb := hx b (by simp)
    have hbp := hproper b (by simp)
    have hbm := hm b (by simp)
    have hbx : lo b ≤ x := by
      by_contra hlt
      obtain ⟨a, ha, hax, -⟩ := hcov x le_rfl (by omega)
      rcases mem_cons.mp ha with rfl | ha
      · omega
      · have := (hb a ha).1
        omega
    refine ⟨hbx, ih hl (fun a ha => hproper a (by simp [ha])) (fun a ha => (hb a ha).2)
      (fun a ha => hm a (by simp [ha])) fun p hp hpm => ?_⟩
    rcases covers_cons.mp (hcov p (by omega) hpm) with ⟨-, hlt⟩ | hcov
    · omega
    · exact hcov

variable (hi) in
theorem stop_mem (x : Int) (l : List α) : stop hi x l = x ∨ ∃ a ∈ l, stop hi x l = hi a := by
  induction l generalizing x with
  | nil => exact .inl rfl
  | cons b l ih =>
    rcases ih (hi b) with h | ⟨a, ha, h⟩
    · exact .inr ⟨b, by simp, h⟩
    · exact .inr ⟨a, by simp [ha], h⟩

theorem le_stop (hord : Ordered lo hi l) (hproper : ∀ a ∈ l, lo a ≤ hi a)
    (hx : ∀ a ∈ l, x ≤ lo a) : x ≤ stop hi x l ∧ ∀ a ∈ l, hi a ≤ stop hi x l := by
  induction l generalizing x with
  | nil => exact ⟨le_rfl, nofun⟩
  | cons b l ih =>
    obtain ⟨hb, hl⟩ := ordered_cons.mp hord
    obtain ⟨hle, hall⟩ := ih hl (fun a ha => hproper a (by simp [ha])) fun a ha => (hb a ha).2
    have hxb := hx b (by simp)
    have hbp := hproper b (by simp)
    exact ⟨(hxb.trans hbp).trans hle, forall_mem_cons.mpr ⟨hle, hall⟩⟩

/-- The lengths of a gapless list add up. -/
theorem Gapless.sum_eq (h : Gapless lo hi l x) (hord : Ordered lo hi l)
    (hx : ∀ a ∈ l, x ≤ lo a) : x + (l.map fun a => hi a - lo a).sum = stop hi x l := by
  induction l generalizing x with
  | nil => simp [stop]
  | cons b l ih =>
    obtain ⟨hb, hl⟩ := ordered_cons.mp hord
    have hsum := ih h.2 hl fun a ha => (hb a ha).2
    have hxb : x = lo b := le_antisymm (hx b (by simp)) h.1
    rw [stop, ← hsum, map_cons, sum_cons, hxb]
    omega

/-! ## Tilings -/

variable (lo hi) in
/-- Spans that are not empty, each of which starts where the one before it ends. -/
def Tiles : Int → List α → Int → Prop
  | x, [], y => x = y
  | x, a :: l, y => lo a = x ∧ lo a < hi a ∧ Tiles (hi a) l y

theorem tiles_append {x z : Int} :
    Tiles lo hi x (l ++ l') z ↔ ∃ y, Tiles lo hi x l y ∧ Tiles lo hi y l' z := by
  induction l generalizing x with
  | nil => simp [Tiles]
  | cons a l ih => simp [Tiles, ih, and_assoc]

/-- The spans of a tiling lie between its ends. -/
theorem Tiles.bounds (h : Tiles lo hi x l y) :
    x ≤ y ∧ ∀ a ∈ l, x ≤ lo a ∧ lo a < hi a ∧ hi a ≤ y := by
  induction l generalizing x with
  | nil => exact ⟨le_of_eq h, nofun⟩
  | cons b l ih =>
    obtain ⟨rfl, hlt, htail⟩ := h
    obtain ⟨hle, hall⟩ := ih htail
    refine ⟨hlt.le.trans hle, forall_mem_cons.mpr ⟨⟨le_rfl, hlt, hle⟩, fun a ha => ?_⟩⟩
    obtain ⟨h1, h2⟩ := hall a ha
    exact ⟨hlt.le.trans h1, h2⟩

theorem Tiles.covers (h : Tiles lo hi x l y) (hx : x ≤ p) (hp : p < y) :
    Covers lo hi l p := by
  induction l generalizing x with
  | nil =>
    have : x = y := h
    omega
  | cons a l ih =>
    obtain ⟨rfl, -, htail⟩ := h
    rw [covers_cons]
    by_cases hpa : p < hi a
    · exact .inl ⟨hx, hpa⟩
    · exact .inr (ih htail (not_lt.mp hpa))

/-- Two spans of a tiling are the same or do not meet. -/
theorem Tiles.disjoint (h : Tiles lo hi x l y) {b : α} (ha : a ∈ l) (hb : b ∈ l) :
    a = b ∨ hi a ≤ lo b ∨ hi b ≤ lo a := by
  induction l generalizing x with
  | nil => cases ha
  | cons c l ih =>
    obtain ⟨-, -, htail⟩ := h
    have hbehind := fun a ha => (htail.bounds.2 a ha).1
    rcases mem_cons.mp ha with rfl | hal <;> rcases mem_cons.mp hb with rfl | hbl
    · exact .inl rfl
    · exact .inr (.inl (hbehind b hbl))
    · exact .inr (.inr (hbehind a hal))
    · exact ih htail hal hbl

end Sbckernel.Lib.Spans
