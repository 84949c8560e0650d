import Mathlib.Data.List.Basic

/-!
# Maps stored as sorted ranges

A list of tagged ranges stands for a partial map from the integers to tags. The
list is tidy if its ranges are not empty, sorted, disjoint, and never adjacent
under the same tag. Writing a range into such a map can be done in one walk:
ranges below the new one are passed, touching ranges of its tag are absorbed
into it, covered ranges are dropped, and the two ranges that may stick out on
either side are cut. `Merging` is the invariant of that walk; each thing the
walk may do with the next range is one lemma, and `finish` says that what it
ends with is tidy and is the map that was asked for.
-/

namespace Sbckernel.Lib

open List

variable {τ : Type*}

structure Range (τ : Type*) where
  tag : τ
  lo : Int
  hi : Int

namespace Range

def Covers (r : Range τ) (b : Int) : Prop := r.lo ≤ b ∧ b ≤ r.hi
  deriving Decidable

/-- `x` ends before `y` starts, with a gap if they have the same tag. -/
def Below (x y : Range τ) : Prop := x.hi < y.lo ∧ (x.tag = y.tag → x.hi + 1 < y.lo)

theorem Below.mono {x y x' y' : Range τ} (h : x.Below y) (hx : x'.tag = x.tag) (hxhi : x'.hi ≤ x.hi)
    (hy : y'.tag = y.tag) (hylo : y.lo ≤ y'.lo) : x'.Below y' := by
  obtain ⟨hlt, hgap⟩ := h
  refine ⟨by omega, fun heq => ?_⟩
  have := hgap (hx ▸ hy ▸ heq)
  omega

/-- The smallest range around both, with the tag of the first. -/
def hull (x y : Range τ) : Range τ := ⟨x.tag, min x.lo y.lo, max x.hi y.hi⟩

end Range

open Range

structure Tidy (l : List (Range τ)) : Prop where
  proper : ∀ x ∈ l, x.lo ≤ x.hi
  sorted : l.Pairwise Below

theorem tidy_nil : Tidy ([] : List (Range τ)) := ⟨nofun, .nil⟩

theorem tidy_cons {x : Range τ} {l : List (Range τ)} :
    Tidy (x :: l) ↔ x.lo ≤ x.hi ∧ (∀ y ∈ l, x.Below y) ∧ Tidy l := by
  refine ⟨fun h => ?_, fun ⟨hx, hbelow, hl⟩ => ?_⟩
  · obtain ⟨hbelow, hl⟩ := pairwise_cons.mp h.sorted
    obtain ⟨hx, hproper⟩ := forall_mem_cons.mp h.proper
    exact ⟨hx, hbelow, hproper, hl⟩
  · exact ⟨forall_mem_cons.mpr ⟨hx, hl.proper⟩, pairwise_cons.mpr ⟨hbelow, hl.sorted⟩⟩

theorem tidy_append {l l' : List (Range τ)} :
    Tidy (l ++ l') ↔ Tidy l ∧ Tidy l' ∧ ∀ x ∈ l, ∀ y ∈ l', x.Below y := by
  induction l with
  | nil => simp [tidy_nil]
  | cons x l ih =>
    simp only [cons_append, tidy_cons, ih, mem_append, forall_mem_cons]
    grind

/-- A range is replaced by pieces of it. -/
theorem tidy_replace {r : Range τ} {zs mid ys : List (Range τ)} (h : Tidy (zs ++ r :: ys))
    (hmid : Tidy mid) (hin : ∀ x ∈ mid, x.tag = r.tag ∧ r.lo ≤ x.lo ∧ x.hi ≤ r.hi) :
    Tidy (zs ++ (mid ++ ys)) := by
  rw [tidy_append, tidy_cons] at h
  obtain ⟨hzs, ⟨-, hr, hys⟩, hbelow⟩ := h
  refine tidy_append.mpr ⟨hzs, tidy_append.mpr ⟨hmid, hys, fun x hx y hy => ?_⟩,
    fun x hx y hy => ?_⟩
  · obtain ⟨htag, -, hhi⟩ := hin x hx
    exact (hr y hy).mono htag hhi rfl (Int.le_refl _)
  · rcases mem_append.mp hy with hy | hy
    · obtain ⟨htag, hlo, -⟩ := hin y hy
      exact (hbelow x hx r (by simp)).mono rfl (Int.le_refl _) htag hlo
    · exact hbelow x hx y (by simp [hy])

/-- The tag at `b`. -/
def lookup (l : List (Range τ)) (b : Int) : Option τ :=
  (l.find? fun x => decide (x.Covers b)).map Range.tag

@[simp] theorem lookup_nil (b : Int) : lookup ([] : List (Range τ)) b = none := rfl

theorem lookup_cons (x : Range τ) (l : List (Range τ)) (b : Int) :
    lookup (x :: l) b = if x.Covers b then some x.tag else lookup l b := by
  by_cases h : x.Covers b <;> simp [lookup, h]

theorem lookup_append (l l' : List (Range τ)) (b : Int) :
    lookup (l ++ l') b = (lookup l b).or (lookup l' b) := by
  induction l with
  | nil => simp
  | cons x l ih =>
    rw [cons_append, lookup_cons, lookup_cons, ih]
    split <;> rfl

theorem lookup_eq_none {l : List (Range τ)} {b : Int} (h : ∀ x ∈ l, ¬x.Covers b) :
    lookup l b = none := by
  induction l with
  | nil => rfl
  | cons x l ih =>
    rw [lookup_cons, if_neg (h x (by simp))]
    exact ih fun y hy => h y (by simp [hy])

/-- The walk has passed `xs`, keeps in mind a range `left` that sticks out below
the new range `cal`, and has `ys` before it. The map it is to end with is `f`,
with the value `v` on the new range. -/
structure Merging (f : Int → Option τ) (v : Option τ) (cal : Range τ) (xs : List (Range τ))
    (left : Option (Range τ)) (ys : List (Range τ)) : Prop where
  tidy : Tidy (xs ++ (left.toList ++ ys))
  proper : cal.lo ≤ cal.hi
  below : ∀ x ∈ xs, x.Below cal
  sticksOut : ∀ l, left = some l →
    l.tag ≠ cal.tag ∧ l.lo < cal.lo ∧ cal.lo ≤ l.hi ∧ l.hi ≤ cal.hi
  map : ∀ b, f b = if cal.Covers b then v else lookup (xs ++ (left.toList ++ ys)) b

namespace Merging

variable {f : Int → Option τ} {v : Option τ} {cal r : Range τ} {xs ys : List (Range τ)}
  {left : Option (Range τ)}

theorem start {l : List (Range τ)} (hl : Tidy l) (hcal : cal.lo ≤ cal.hi)
    (hf : ∀ b, f b = if cal.Covers b then v else lookup l b) : Merging f v cal [] none l :=
  ⟨hl, hcal, nofun, nofun, hf⟩

/-- Behind a range that sticks out below, everything starts inside the new
range or above it. -/
theorem lo_lt_of_left (h : Merging f v cal xs left ys) (hleft : left ≠ none) :
    ∀ y ∈ ys, cal.lo < y.lo := by
  intro y hy
  obtain ⟨l, rfl⟩ := Option.ne_none_iff_exists'.mp hleft
  obtain ⟨-, hl, -⟩ := tidy_append.mp h.tidy
  have hbelow : l.Below y := by
    rw [Option.toList_some, singleton_append, tidy_cons] at hl
    exact hl.2.1 y hy
  have := h.sticksOut l rfl
  have := hbelow.1
  omega

/-- What is behind a range above the new one is above it too. -/
theorem above_of_head (h : Merging f v cal xs left (r :: ys)) (hr : cal.Below r) :
    ∀ y ∈ r :: ys, cal.Below y := by
  have htidy := h.tidy
  rw [tidy_append, tidy_append, tidy_cons] at htidy
  obtain ⟨hproper, hbelow, -⟩ := htidy.2.1.2.1
  intro y hy
  rcases mem_cons.mp hy with rfl | hy
  · exact hr
  · have h1 := hr.1
    have h2 := (hbelow y hy).1
    exact ⟨by omega, fun _ => by omega⟩

theorem below_snoc (h : Merging f v cal xs left ys) (hr : r.Below cal) :
    ∀ x ∈ xs ++ [r], x.Below cal :=
  forall_mem_append.mpr ⟨h.below, forall_mem_singleton.mpr hr⟩

theorem below_cut (h : Merging f v cal xs left ys) (htag : r.tag ≠ cal.tag) :
    ∀ x ∈ xs ++ [{ r with hi := cal.lo - 1 }], x.Below cal :=
  h.below_snoc ⟨Int.sub_one_lt_iff.mpr (Int.le_refl _), fun hxt => absurd hxt htag⟩

theorem pass (h : Merging f v cal xs none (r :: ys)) (hr : r.Below cal) :
    Merging f v cal (xs ++ [r]) none ys := by
  refine ⟨by simpa using h.tidy, h.proper, h.below_snoc hr, nofun, fun b => ?_⟩
  rw [h.map b]
  simp

theorem overhang (h : Merging f v cal xs none (r :: ys)) (htag : r.tag ≠ cal.tag)
    (hlo : r.lo < cal.lo) (hhi : cal.lo ≤ r.hi) (hle : r.hi ≤ cal.hi) :
    Merging f v cal xs (some r) ys := by
  refine ⟨h.tidy, h.proper, h.below, fun l hl => ?_, h.map⟩
  cases hl
  exact ⟨htag, hlo, hhi, hle⟩

/-- A range is cut down to the pieces of it outside the new one. -/
theorem recut {xs' zs us ys' : List (Range τ)} {left' : Option (Range τ)}
    (h : Merging f v cal xs left ys) (mid : List (Range τ))
    (hold : xs ++ (left.toList ++ ys) = zs ++ r :: us)
    (hnew : xs' ++ (left'.toList ++ ys') = zs ++ (mid ++ us)) (hmid : Tidy mid)
    (hin : ∀ x ∈ mid, x.tag = r.tag ∧ r.lo ≤ x.lo ∧ x.hi ≤ r.hi)
    (hmap : ∀ b, ¬cal.Covers b → lookup mid b = if r.Covers b then some r.tag else none)
    (hbelow : ∀ x ∈ xs', x.Below cal) (hleft : left' = none ∨ left' = left) :
    Merging f v cal xs' left' ys' := by
  refine ⟨?_, h.proper, hbelow, fun l hl => ?_, fun b => ?_⟩
  · rw [hnew]
    exact tidy_replace (hold ▸ h.tidy) hmid hin
  · rcases hleft with rfl | rfl
    · cases hl
    · exact h.sticksOut l hl
  · rw [h.map b, hold, hnew]
    split
    · rfl
    next hb =>
      rw [lookup_append, lookup_append, lookup_append, lookup_cons, hmap b hb]
      split <;> simp

section
variable (h : Merging f v cal xs left (r :: ys))
include h

theorem swallow (hlo : cal.lo ≤ r.lo) (hhi : r.hi ≤ cal.hi) : Merging f v cal xs left ys := by
  refine h.recut [] (append_assoc ..).symm (append_assoc ..).symm tidy_nil nofun
    (fun b hb => ?_) h.below (.inr rfl)
  have hr : ¬r.Covers b := fun hr => hb ⟨by have := hr.1; omega, by have := hr.2; omega⟩
  rw [if_neg hr]
  rfl

/-- A range of the same tag that touches the new one is absorbed by it. -/
theorem absorb (hv : v = some cal.tag) (htag : r.tag = cal.tag) (hlo : cal.lo - 1 ≤ r.hi)
    (hhi : r.lo ≤ cal.hi + 1) : Merging f v (cal.hull r) xs left ys := by
  have htidy := h.tidy
  rw [← append_assoc] at htidy
  obtain ⟨-, hr, hbelow⟩ := tidy_append.mp htidy
  refine ⟨?_, ?_, fun x hx => ?_, fun l hl => ?_, fun b => ?_⟩
  · rw [← append_assoc]
    exact tidy_replace htidy tidy_nil nofun
  · have := h.proper
    simp only [hull]
    omega
  · have h1 := h.below x hx
    have h2 := hbelow x (by simp [hx]) r (by simp)
    refine ⟨?_, fun hxt => ?_⟩
    · have := h1.1
      have := h2.1
      simp only [hull]
      omega
    · have := h1.2 hxt
      have := h2.2 (hxt.trans htag.symm)
      simp only [hull]
      omega
  · obtain ⟨hlt, h1, h2, h3⟩ := h.sticksOut l hl
    have := h.lo_lt_of_left (by simp [hl]) r (by simp)
    refine ⟨hlt, ?_, ?_, ?_⟩
    all_goals
      simp only [hull]
      omega
  · rw [h.map b, ← append_assoc, ← append_assoc]
    by_cases hcal : cal.Covers b
    · have hhull : (cal.hull r).Covers b := by
        simp only [Covers, hull] at hcal ⊢
        omega
      rw [if_pos hcal, if_pos hhull]
    · rw [if_neg hcal]
      by_cases hrb : r.Covers b
      · have hhull : (cal.hull r).Covers b := by
          simp only [Covers, hull] at hrb ⊢
          omega
        rw [if_pos hhull, lookup_append, lookup_eq_none, Option.none_or, lookup_cons, if_pos hrb,
          htag, hv]
        intro x hx hxb
        have := (hbelow x hx r (by simp)).1
        have := hxb.2
        have := hrb.1
        omega
      · have hhull : ¬(cal.hull r).Covers b := by
          simp only [Covers, hull] at hcal hrb ⊢
          omega
        simp only [lookup_append, lookup_cons, if_neg hhull, if_neg hrb]

/-- The range that sticks out above is cut where the new one ends. -/
theorem cutRight (hlo : cal.lo ≤ r.lo) (hmeet : r.lo ≤ cal.hi) (hhi : cal.hi < r.hi) :
    Merging f v cal xs left ({ r with lo := cal.hi + 1 } :: ys) := by
  refine h.recut [{ r with lo := cal.hi + 1 }] (append_assoc ..).symm
    (append_assoc ..).symm (tidy_cons.mpr ⟨hhi, nofun, tidy_nil⟩) ?_ (fun b hb => ?_) h.below
    (.inr rfl)
  · simp
    omega
  · refine (lookup_cons ..).trans (if_congr ?_ rfl rfl)
    simp only [Covers] at hb ⊢
    omega

end

/-- The range that sticks out below is cut where the new one starts. -/
theorem cutLeft (h : Merging f v cal xs (some r) ys) :
    Merging f v cal (xs ++ [{ r with hi := cal.lo - 1 }]) none ys := by
  obtain ⟨htag, h1, h2, h3⟩ := h.sticksOut r rfl
  have hproper : r.lo ≤ cal.lo - 1 := by omega
  refine h.recut [{ r with hi := cal.lo - 1 }] rfl (append_assoc ..)
    (tidy_cons.mpr ⟨hproper, nofun, tidy_nil⟩) ?_ (fun b hb => ?_) (h.below_cut htag) (.inl rfl)
  · simp
    omega
  · refine (lookup_cons ..).trans (if_congr ?_ rfl rfl)
    simp only [Covers] at hb ⊢
    omega

/-- A range that sticks out on both sides is cut in two. -/
theorem split (h : Merging f v cal xs none (r :: ys)) (htag : r.tag ≠ cal.tag)
    (hlo : r.lo < cal.lo) (hhi : cal.hi < r.hi) :
    Merging f v cal (xs ++ [{ r with hi := cal.lo - 1 }]) none
      ({ r with lo := cal.hi + 1 } :: ys) := by
  have hproper := h.proper
  have hlow : r.lo ≤ cal.lo - 1 := by omega
  refine h.recut [{ r with hi := cal.lo - 1 }, { r with lo := cal.hi + 1 }] rfl
    (append_assoc ..) (tidy_cons.mpr ⟨hlow, fun y hy => ?_, tidy_cons.mpr ⟨hhi, nofun, tidy_nil⟩⟩)
    ?_ (fun b hb => ?_) (h.below_cut htag) (.inl rfl)
  · rw [mem_singleton.mp hy]
    exact ⟨by dsimp only; omega, fun _ => by dsimp only; omega⟩
  · simp
    omega
  · have hcut : r.Covers b ↔ ({ r with hi := cal.lo - 1 } : Range τ).Covers b ∨
        ({ r with lo := cal.hi + 1 } : Range τ).Covers b := by
      simp only [Covers] at hb ⊢
      omega
    simp only [lookup_cons, lookup_nil, hcut]
    grind

/-- Nothing touches the new range any more: it goes in, unless the request was
to erase. -/
theorem finish (h : Merging f v cal xs none ys) (habove : ∀ y ∈ ys, cal.Below y)
    {mid : List (Range τ)} (hmid : mid = [] ∧ v = none ∨ mid = [cal] ∧ v = some cal.tag) :
    Tidy (xs ++ (mid ++ ys)) ∧ ∀ b, lookup (xs ++ (mid ++ ys)) b = f b := by
  have htidy := h.tidy
  have hmap := h.map
  rw [Option.toList_none, nil_append] at htidy
  simp only [Option.toList_none, nil_append] at hmap
  have hout : ∀ b, cal.Covers b → ∀ x ∈ xs ++ ys, ¬x.Covers b := by
    intro b hb x hx hxb
    simp only [Covers] at hb hxb
    rcases mem_append.mp hx with hx | hx
    · have := (h.below x hx).1
      omega
    · have := (habove x hx).1
      omega
  rcases hmid with ⟨rfl, rfl⟩ | ⟨rfl, rfl⟩
  · refine ⟨htidy, fun b => ?_⟩
    rw [hmap b]
    split
    next hb => exact lookup_eq_none (hout b hb)
    · rfl
  · refine ⟨?_, fun b => ?_⟩
    · obtain ⟨hxs, hys, hbelow⟩ := tidy_append.mp htidy
      rw [tidy_append, singleton_append, tidy_cons]
      exact ⟨hxs, ⟨h.proper, habove, hys⟩, fun x hx =>
        forall_mem_cons.mpr ⟨h.below x hx, hbelow x hx⟩⟩
    · rw [hmap b, singleton_append, lookup_append, lookup_cons, lookup_append]
      split
      next hb =>
        rw [lookup_eq_none fun x hx => hout b hb x (by simp [hx]), Option.none_or]
      · rfl

end Merging

end Sbckernel.Lib
