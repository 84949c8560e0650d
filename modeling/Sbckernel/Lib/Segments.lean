import Mathlib.Data.Nat.ModEq

/-!
# Maps that are stored as lists of segments

A segment is a half-open interval of numbers with a tag. A sorted list of
segments is a partial map from numbers to tags, and an algorithm on the list is
judged by what it does to that map: `cut` takes a range out, `patch` changes the
tags in a range, and joining two neighbours with one tag changes nothing.

Two more things are followed through each of these. The bounds that occur are
old ones or the bounds of the range, so that any property of them (being
aligned, being small) persists; and the length of the whole list, counted in a
unit that divides all bounds.
-/

namespace Sbckernel.Lib

open List

structure Segment (τ : Type*) where
  tag : τ
  lo : Nat
  hi : Nat

namespace Segment

variable {τ : Type*} {l l' m m' : List (Segment τ)} {s t : Segment τ} {x a e lo hi : Nat}
variable {Q : Nat → Prop} {f : τ → τ}

def Has (s : Segment τ) (x : Nat) : Prop := s.lo ≤ x ∧ x < s.hi
  deriving Decidable

/-- The map that a list stands for. -/
def tagAt : List (Segment τ) → Nat → Option τ
  | [], _ => none
  | s :: l, x => if s.Has x then some s.tag else tagAt l x

theorem tagAt_append : tagAt (l ++ l') x = (tagAt l x).or (tagAt l' x) := by
  induction l with
  | nil => rfl
  | cons s l ih =>
    by_cases hs : s.Has x
    · simp [tagAt, hs]
    · simp [tagAt, hs, ih]

theorem tagAt_cons_eq : tagAt (s :: l) x =
    if s.lo ≤ x ∧ x < s.hi then some s.tag else tagAt l x := rfl

theorem tagAt_cons : tagAt (s :: l) x = (tagAt [s] x).or (tagAt l x) :=
  tagAt_append (l := [s])

theorem tagAt_eq_none (h : ∀ s ∈ l, ¬s.Has x) : tagAt l x = none := by
  induction l with
  | nil => rfl
  | cons s l ih =>
    rw [tagAt, if_neg (h s (by simp))]
    exact ih fun t ht => h t (by simp [ht])

/-- The segments are not empty and lie apart, in order. -/
structure Sorted (l : List (Segment τ)) : Prop where
  proper : ∀ s ∈ l, s.lo < s.hi
  apart : l.Pairwise fun s t => s.hi ≤ t.lo

theorem sorted_append :
    Sorted (l ++ l') ↔ Sorted l ∧ Sorted l' ∧ ∀ s ∈ l, ∀ t ∈ l', s.hi ≤ t.lo := by
  refine ⟨fun h => ?_, fun ⟨h, h', hlt⟩ => ?_⟩
  · obtain ⟨hp, hp'⟩ := forall_mem_append.mp h.proper
    obtain ⟨hl, hl', hlt⟩ := pairwise_append.mp h.apart
    exact ⟨⟨hp, hl⟩, ⟨hp', hl'⟩, hlt⟩
  · exact ⟨forall_mem_append.mpr ⟨h.proper, h'.proper⟩,
      pairwise_append.mpr ⟨h.apart, h'.apart, hlt⟩⟩

theorem sorted_cons : Sorted (s :: l) ↔ s.lo < s.hi ∧ Sorted l ∧ ∀ t ∈ l, s.hi ≤ t.lo := by
  have hone : Sorted [s] ↔ s.lo < s.hi :=
    ⟨fun h => h.proper s (by simp), fun h => ⟨by simpa using h, pairwise_singleton ..⟩⟩
  rw [← singleton_append, sorted_append, hone]
  simp

/-- The bounds of the segments have a property. -/
def Edges (Q : Nat → Prop) (l : List (Segment τ)) : Prop := ∀ s ∈ l, Q s.lo ∧ Q s.hi

theorem edges_append : Edges Q (l ++ l') ↔ Edges Q l ∧ Edges Q l' :=
  forall_mem_append

theorem Edges.mono {R : Nat → Prop} (h : Edges Q l) (hQR : ∀ x, Q x → R x) : Edges R l :=
  fun s hs => ⟨hQR _ (h s hs).1, hQR _ (h s hs).2⟩

/-- The length of all segments together, in a unit. -/
def size (u : Nat) (l : List (Segment τ)) : Nat := (l.map fun s => (s.hi - s.lo) / u).sum

theorem size_append (u : Nat) : size u (l ++ l') = size u l + size u l' := by
  simp [size]

theorem size_singleton (u : Nat) : size u [s] = (s.hi - s.lo) / u := by
  simp [size]

/-- Each segment that is missing takes a unit at least. -/
theorem size_lt_of_sublist {u : Nat} (h : l <+ l') (hne : l ≠ l')
    (hunit : ∀ s ∈ l', 1 ≤ (s.hi - s.lo) / u) : size u l < size u l' := by
  have hsize : size u l + l'.length ≤ size u l' + l.length := by
    clear hne
    induction h with
    | slnil => exact le_rfl
    | cons s _ ih | cons_cons s _ ih =>
      have := hunit s (by simp)
      have := ih fun t ht => hunit t (by simp [ht])
      simp only [size, map_cons, sum_cons, length_cons] at *
      omega
  have hlength : l.length ≠ l'.length := fun heq => hne (h.eq_of_length heq)
  have := h.length_le
  omega

/-- Where a segment lies, which is all that the two above depend on. -/
def bounds (s : Segment τ) : Nat × Nat := (s.lo, s.hi)

theorem edges_congr (h : l'.map bounds = l.map bounds) (hQ : Edges Q l) : Edges Q l' := by
  have hb : ∀ b ∈ l.map bounds, Q b.1 ∧ Q b.2 := forall_mem_map.mpr hQ
  rw [← h] at hb
  exact forall_mem_map.mp hb

theorem size_congr (u : Nat) (h : l'.map bounds = l.map bounds) : size u l' = size u l := by
  have hsize : ∀ m : List (Segment τ),
      size u m = ((m.map bounds).map fun b => (b.2 - b.1) / u).sum := fun m => by
    rw [map_map]
    rfl
  rw [hsize, h, ← hsize]

/-- Sorted segments between `x` and `e` are together no longer than the way
from `x` to `e`. -/
theorem Sorted.size_le (h : Sorted l) (u : Nat) (hx : x ≤ e) (hlo : ∀ s ∈ l, x ≤ s.lo)
    (hhi : ∀ s ∈ l, s.hi ≤ e) : x + size u l ≤ e := by
  induction l generalizing x with
  | nil => exact hx
  | cons s l ih =>
    obtain ⟨hs, hl, hlt⟩ := sorted_cons.mp h
    have hrest := ih hl (hhi s (by simp)) hlt fun t ht => hhi t (by simp [ht])
    have hdiv := Nat.div_le_self (s.hi - s.lo) u
    have := hlo s (by simp)
    simp only [size, map_cons, sum_cons] at hrest ⊢
    omega

/-! ## Taking out a range -/

/-- The segment from `lo` to `hi`, unless it is empty. -/
def part (tag : τ) (lo hi : Nat) : List (Segment τ) := if lo < hi then [⟨tag, lo, hi⟩] else []

theorem part_of_lt (tag : τ) (h : lo < hi) : part tag lo hi = [⟨tag, lo, hi⟩] :=
  if_pos h

theorem part_self (tag : τ) (x : Nat) : part tag x x = [] := if_neg (lt_irrefl x)

theorem mem_part {tag : τ} (h : t ∈ part tag lo hi) : t = ⟨tag, lo, hi⟩ := by
  rw [part] at h
  split at h
  · exact mem_singleton.mp h
  · cases h

theorem tagAt_part (tag : τ) (lo hi : Nat) :
    tagAt (part tag lo hi) x = if lo ≤ x ∧ x < hi then some tag else none := by
  rw [part]
  split
  · rfl
  · rw [if_neg (by omega)]
    rfl

theorem edges_part (tag : τ) (hlo : Q lo) (hhi : Q hi) :
    Edges Q (part tag lo hi) := by
  intro t ht
  rw [mem_part ht]
  exact ⟨hlo, hhi⟩

theorem size_part (u : Nat) (tag : τ) (lo hi : Nat) : size u (part tag lo hi) = (hi - lo) / u := by
  rw [part]
  split
  · exact size_singleton u
  · rw [Nat.sub_eq_zero_of_le (by omega)]
    simp [size]

/-- What is left of a segment without the range from `a` to `e`. -/
def cut (a e : Nat) (s : Segment τ) : List (Segment τ) :=
  if s.hi ≤ a ∨ e ≤ s.lo ∨ e ≤ a then [s] else part s.tag s.lo a ++ part s.tag e s.hi

/-- How much of a segment lies in the range. -/
def overlap (u a e : Nat) (s : Segment τ) : Nat := (min s.hi e - max s.lo a) / u

theorem tagAt_cut (a e : Nat) (s : Segment τ) (x : Nat) :
    tagAt (cut a e s) x = if a ≤ x ∧ x < e then none else tagAt [s] x := by
  rw [cut, tagAt_cons_eq]
  by_cases hx : a ≤ x ∧ x < e
  · rw [if_pos hx]
    split
    next hout => rw [tagAt_cons_eq, if_neg (by omega)]; rfl
    · rw [tagAt_append, tagAt_part, tagAt_part, if_neg (by omega), if_neg (by omega)]; rfl
  · rw [if_neg hx]
    split
    · rfl
    next hin =>
      rw [tagAt_append, tagAt_part, tagAt_part]
      by_cases hxa : s.lo ≤ x ∧ x < a
      · rw [if_pos hxa, Option.some_or, if_pos (by omega)]
      · rw [if_neg hxa, Option.none_or]
        exact if_congr (by omega) rfl rfl

theorem mem_cut (h : t ∈ cut a e s) : s.lo ≤ t.lo ∧ t.hi ≤ s.hi := by
  rw [cut] at h
  split at h
  · rw [mem_singleton.mp h]
    exact ⟨le_rfl, le_rfl⟩
  next hin =>
    rcases mem_append.mp h with h | h
    · rw [mem_part h]
      exact ⟨le_rfl, by simp only; omega⟩
    · rw [mem_part h]
      exact ⟨by simp only; omega, le_rfl⟩

theorem proper_cut (hs : s.lo < s.hi) (h : t ∈ cut a e s) : t.lo < t.hi := by
  simp only [cut, part] at h
  split_ifs at h <;> simp at h <;> grind

/-- What is left lies outside the range. -/
theorem cut_out (hae : a < e) (h : t ∈ cut a e s) : t.hi ≤ a ∨ e ≤ t.lo := by
  rw [cut] at h
  split at h
  next hout =>
    rw [mem_singleton.mp h]
    omega
  · rcases mem_append.mp h with h | h
    · rw [mem_part h]
      exact .inl le_rfl
    · rw [mem_part h]
      exact .inr le_rfl

/-- How many ends of a range lie inside of segments. -/
def pieces (a e : Nat) (l : List (Segment τ)) : Nat :=
  if e ≤ a then 0
  else l.countP (fun s => s.lo < a ∧ a < s.hi) + l.countP fun s => s.lo < e ∧ e < s.hi

theorem pieces_append : pieces a e (l ++ l') = pieces a e l + pieces a e l' := by
  simp only [pieces, countP_append]
  split <;> omega

/-- Segments outside the range stay. -/
theorem cut_of_out (h : ∀ s ∈ l, s.hi ≤ a ∨ e ≤ s.lo ∨ e ≤ a) :
    l.flatMap (cut a e) = l ∧ (∀ u, (l.map (overlap u a e)).sum = 0) ∧ pieces a e l = 0 := by
  induction l with
  | nil => simp [pieces]
  | cons s l ih =>
    obtain ⟨hcut, hsum, hpieces⟩ := ih fun t ht => h t (by simp [ht])
    have hs := h s (by simp)
    refine ⟨?_, fun u => ?_, ?_⟩
    · rw [flatMap_cons, hcut, cut, if_pos hs]
      rfl
    · rw [map_cons, sum_cons, hsum, overlap,
        Nat.sub_eq_zero_of_le (show min s.hi e ≤ max s.lo a by omega), Nat.zero_div]
    · rw [← singleton_append, pieces_append, hpieces, pieces]
      simp only [countP_singleton, decide_eq_true_eq]
      split_ifs <;> omega

/-- Of a list only the segments that meet the range matter. -/
theorem cut_middle (hl : ∀ s ∈ l, s.hi ≤ a) (hl' : ∀ s ∈ l', e ≤ s.lo) (m : List (Segment τ)) :
    (l ++ (m ++ l')).flatMap (cut a e) = l ++ (m.flatMap (cut a e) ++ l') ∧
      (∀ u, ((l ++ (m ++ l')).map (overlap u a e)).sum = (m.map (overlap u a e)).sum) ∧
      pieces a e (l ++ (m ++ l')) = pieces a e m := by
  obtain ⟨hcut, hsum, hpieces⟩ := cut_of_out (e := e) fun s hs => .inl (hl s hs)
  obtain ⟨hcut', hsum', hpieces'⟩ := cut_of_out (a := a) fun s hs => .inr (.inl (hl' s hs))
  simp [hcut, hcut', hsum, hsum', hpieces, hpieces', pieces_append]

/-- Where all segments meet the range, each end of it inside of one leaves a piece. -/
theorem length_flatMap_cut (hae : a < e) (h : ∀ s ∈ l, a < s.hi ∧ s.lo < e) :
    (l.flatMap (cut a e)).length = pieces a e l := by
  induction l with
  | nil => simp [pieces]
  | cons s l ih =>
    obtain ⟨ha, he⟩ := h s (by simp)
    have hcut : (cut a e s).length = pieces a e [s] := by
      rw [cut, if_neg (by omega), pieces, if_neg (by omega), length_append, part, part]
      simp only [countP_singleton, decide_eq_true_eq, ha, he, and_true, true_and,
        apply_ite List.length, length_singleton, length_nil]
    rw [flatMap_cons, length_append, hcut, ih fun t ht => h t (by simp [ht]), ← pieces_append]
    rfl

/-- Only the part of the range inside the segment matters. -/
theorem cut_clip (ha : a < s.hi) (he : s.lo < e) (hae : a < e) (hs : s.lo < s.hi) :
    cut (max s.lo a) (min s.hi e) s = cut a e s := by
  have hleft : part s.tag s.lo (max s.lo a) = part s.tag s.lo a := by
    by_cases h : s.lo < a
    · rw [max_eq_right h.le]
    · rw [max_eq_left (by omega), part, part, if_neg (lt_irrefl _), if_neg h]
  have hright : part s.tag (min s.hi e) s.hi = part s.tag e s.hi := by
    by_cases h : e < s.hi
    · rw [min_eq_right h.le]
    · rw [min_eq_left (by omega), part, part, if_neg (lt_irrefl _), if_neg h]
  rw [cut, cut, if_neg (by omega), if_neg (by omega), hleft, hright]

theorem tagAt_flatMap_cut (a e : Nat) (l : List (Segment τ)) (x : Nat) :
    tagAt (l.flatMap (cut a e)) x = if a ≤ x ∧ x < e then none else tagAt l x := by
  induction l with
  | nil => simp [tagAt]
  | cons s l ih =>
    rw [flatMap_cons, tagAt_append, tagAt_cut, ih, tagAt_cons (l := l)]
    split <;> rfl

theorem edges_cut (ha : Q a) (he : Q e) (h : Edges Q [s]) : Edges Q (cut a e s) := by
  obtain ⟨hlo, hhi⟩ := h s (by simp)
  rw [cut]
  split
  · exact h
  · exact edges_append.mpr ⟨edges_part _ hlo ha, edges_part _ he hhi⟩

theorem edges_flatMap_cut (ha : Q a) (he : Q e) (h : Edges Q l) :
    Edges Q (l.flatMap (cut a e)) := by
  intro t ht
  obtain ⟨s, hs, hst⟩ := mem_flatMap.mp ht
  exact edges_cut ha he (fun r hr => h r (mem_singleton.mp hr ▸ hs)) t hst

theorem size_cut {u : Nat} (ha : u ∣ a) (he : u ∣ e) (hlo : u ∣ s.lo)
    (hhi : u ∣ s.hi) : size u (cut a e s) + overlap u a e s = size u [s] := by
  rw [cut, overlap, size_singleton]
  split
  next hout =>
    rw [size_singleton, Nat.sub_eq_zero_of_le (show min s.hi e ≤ max s.lo a by omega)]
    simp
  next hin =>
    rw [size_append, size_part, size_part, ← Nat.add_div_of_dvd_right (Nat.dvd_sub ha hlo),
      ← Nat.add_div_of_dvd_right (Nat.dvd_add (Nat.dvd_sub ha hlo) (Nat.dvd_sub hhi he))]
    congr 1
    omega

theorem size_flatMap_cut {u : Nat} (ha : u ∣ a) (he : u ∣ e) (h : Edges (u ∣ ·) l) :
    size u (l.flatMap (cut a e)) + (l.map (overlap u a e)).sum = size u l := by
  induction l with
  | nil => rfl
  | cons s l ih =>
    have hs := size_cut ha he (h s (by simp)).1 (h s (by simp)).2
    have hl := ih fun t ht => h t (by simp [ht])
    rw [flatMap_cons, size_append, map_cons, sum_cons, ← singleton_append, size_append]
    omega

/-! ## Changing the tags in a range -/

/-- `l'` is `l` with the tags from `a` to `e` changed by `f`, over the same
points and without new bounds apart from these two. -/
structure Patched (a e : Nat) (f : τ → τ) (l l' : List (Segment τ)) : Prop where
  tagAt : ∀ x, tagAt l' x = if a ≤ x ∧ x < e then (tagAt l x).map f else tagAt l x
  edges : ∀ Q : Nat → Prop, Q a → Q e → Edges Q l → Edges Q l'
  size : ∀ u, u ∣ a → u ∣ e → Edges (u ∣ ·) l → size u l' = size u l

/-- An empty range. -/
theorem Patched.refl (a : Nat) (f : τ → τ) (l : List (Segment τ)) : Patched a a f l l :=
  ⟨fun x => by rw [if_neg (by omega)], fun _ _ _ h => h, fun _ _ _ _ => rfl⟩

/-- A change inside a list. -/
theorem Patched.inside (h : Patched a e f m m') (hl : ∀ s ∈ l, s.hi ≤ a)
    (hl' : ∀ s ∈ l', e ≤ s.lo) : Patched a e f (l ++ (m ++ l')) (l ++ (m' ++ l')) := by
  refine ⟨fun x => ?_, fun Q ha he hQ => ?_, fun u ha he hQ => ?_⟩
  · rw [tagAt_append, tagAt_append, tagAt_append, tagAt_append, h.tagAt]
    split
    next hx =>
      rw [tagAt_eq_none (l := l) fun s hs hin => ?_, tagAt_eq_none (l := l') fun s hs hin => ?_]
      · simp
      · have := hl' s hs
        exact absurd hin.1 (by omega)
      · have := hl s hs
        exact absurd hin.2 (by omega)
    · rfl
  · rw [edges_append, edges_append] at hQ ⊢
    exact ⟨hQ.1, h.edges Q ha he hQ.2.1, hQ.2.2⟩
  · rw [edges_append, edges_append] at hQ
    rw [size_append, size_append, size_append, size_append, h.size u ha he hQ.2.1]

/-- Two changes of adjoining ranges one after the other. -/
theorem Patched.trans {b : Nat} (h : Patched a b f l m) (h' : Patched b e f m l') (hab : a ≤ b)
    (hbe : b ≤ e) (hb : ∀ Q : Nat → Prop, Q a → Q e → Edges Q l → Q b) : Patched a e f l l' := by
  refine ⟨fun x => ?_, fun Q ha he hQ => ?_, fun u ha he hQ => ?_⟩
  · rw [h'.tagAt, h.tagAt]
    by_cases hx : a ≤ x ∧ x < b
    · rw [if_neg (by omega), if_pos hx, if_pos (by omega)]
    · rw [if_neg hx]
      exact if_congr (by omega) rfl rfl
  · exact h'.edges Q (hb Q ha he hQ) he (h.edges Q ha (hb Q ha he hQ) hQ)
  · have hub := hb (u ∣ ·) ha he hQ
    rw [h'.size u hub he (h.edges (u ∣ ·) ha hub hQ), h.size u ha hub hQ]

/-- The parts of a segment when the tag of the range is changed. -/
def patch (a e : Nat) (f : τ → τ) (s : Segment τ) : List (Segment τ) :=
  part s.tag s.lo a ++ (part (f s.tag) a e ++ part s.tag e s.hi)

theorem patched_patch (f : τ → τ) (hlo : s.lo ≤ a) (hae : a ≤ e) (hhi : e ≤ s.hi) :
    Patched a e f [s] (patch a e f s) := by
  refine ⟨fun x => ?_, fun Q ha he hQ => ?_, fun u ha he hu => ?_⟩
  · rw [patch, tagAt_append, tagAt_append, tagAt_part, tagAt_part, tagAt_part, tagAt_cons_eq]
    by_cases hx : a ≤ x ∧ x < e
    · rw [if_neg (by omega), if_pos hx, if_pos hx, Option.none_or, Option.some_or,
        if_pos (by omega)]
      rfl
    · rw [if_neg hx, if_neg hx, Option.none_or]
      by_cases hxa : s.lo ≤ x ∧ x < a
      · rw [if_pos hxa, Option.some_or, if_pos (by omega)]
      · rw [if_neg hxa, Option.none_or]
        exact if_congr (by omega) rfl rfl
  · obtain ⟨hlo', hhi'⟩ := hQ s (by simp)
    exact edges_append.mpr ⟨edges_part _ hlo' ha,
      edges_append.mpr ⟨edges_part _ ha he, edges_part _ he hhi'⟩⟩
  · obtain ⟨hlo', hhi'⟩ := hu s (by simp)
    have hla := Nat.dvd_sub ha hlo'
    have hae' := Nat.dvd_sub he ha
    rw [patch, size_append, size_append, size_part, size_part, size_part, size_singleton,
      ← Nat.add_div_of_dvd_right hae', ← Nat.add_div_of_dvd_right hla]
    congr 1
    omega

/-- Nothing is to be done where `f` keeps the tag. -/
theorem patched_keep (hf : f s.tag = s.tag) : Patched a e f [s] [s] := by
  refine ⟨fun x => ?_, fun _ _ _ h => h, fun _ _ _ _ => rfl⟩
  by_cases hx : s.Has x
  · simp [Segment.tagAt, hx, hf]
  · simp [Segment.tagAt, hx]

/-! ## Joining neighbours -/

/-- `l'` is another list for the same map. -/
structure Retiled (l l' : List (Segment τ)) : Prop where
  tagAt : ∀ x, tagAt l' x = tagAt l x
  edges : ∀ Q : Nat → Prop, Edges Q l → Edges Q l'
  size : ∀ u, Edges (u ∣ ·) l → size u l' = size u l

theorem Retiled.refl (l : List (Segment τ)) : Retiled l l :=
  ⟨fun _ => rfl, fun _ h => h, fun _ _ => rfl⟩

theorem Retiled.trans (h : Retiled l m) (h' : Retiled m l') : Retiled l l' :=
  ⟨fun x => (h'.tagAt x).trans (h.tagAt x), fun Q hQ => h'.edges Q (h.edges Q hQ),
    fun u hu => (h'.size u (h.edges _ hu)).trans (h.size u hu)⟩

theorem retiled_join (htag : s.tag = t.tag) (hmeet : s.hi = t.lo) (hs : s.lo ≤ s.hi)
    (ht : t.lo ≤ t.hi) : Retiled (l ++ s :: t :: l') (l ++ { s with hi := t.hi } :: l') := by
  refine ⟨fun x => ?_, fun Q hQ => ?_, fun u hu => ?_⟩
  · rw [tagAt_append, tagAt_append]
    congr 1
    simp only [tagAt_cons_eq, ← htag]
    by_cases hx : s.lo ≤ x ∧ x < s.hi
    · rw [if_pos hx, if_pos (by omega)]
    · rw [if_neg hx]
      exact if_congr (by omega) rfl rfl
  · rw [edges_append] at hQ ⊢
    refine ⟨hQ.1, forall_mem_cons.mpr ⟨⟨(hQ.2 s (by simp)).1, (hQ.2 t (by simp)).2⟩,
      fun r hr => ?_⟩⟩
    exact hQ.2 r (by simp [hr])
  · obtain ⟨-, hu⟩ := edges_append.mp hu
    have hdvd := Nat.dvd_sub (hu s (by simp)).2 (hu s (by simp)).1
    rw [size_append, size_append]
    simp only [Segment.size, map_cons, sum_cons]
    rw [← Nat.add_assoc ((s.hi - s.lo) / u), ← Nat.add_div_of_dvd_right hdvd]
    congr 3
    omega

/-! ## Putting in a segment -/

/-- `l'` is `l` with the segment `s` on top. -/
structure Inserted (s : Segment τ) (l l' : List (Segment τ)) : Prop where
  tagAt : ∀ x, tagAt l' x = if s.lo ≤ x ∧ x < s.hi then some s.tag else tagAt l x
  edges : ∀ Q : Nat → Prop, Q s.lo → Q s.hi → Edges Q l → Edges Q l'
  size : ∀ u, u ∣ s.lo → u ∣ s.hi → Edges (u ∣ ·) l → size u l' = size u l + (s.hi - s.lo) / u

theorem inserted_between (hl : ∀ t ∈ l, t.hi ≤ s.lo) : Inserted s (l ++ l') (l ++ s :: l') := by
  refine ⟨fun x => ?_, fun Q hlo hhi hQ => ?_, fun u _ _ _ => ?_⟩
  · rw [tagAt_append, tagAt_append, tagAt_cons_eq]
    split
    next hx =>
      rw [tagAt_eq_none fun t ht hin => ?_, Option.none_or]
      have := hl t ht
      exact absurd hin.2 (by omega)
    · rfl
  · rw [edges_append] at hQ ⊢
    exact ⟨hQ.1, forall_mem_cons.mpr ⟨⟨hlo, hhi⟩, hQ.2⟩⟩
  · rw [← singleton_append, size_append, size_append, size_append, size_singleton]
    omega

theorem Inserted.retiled (h : Inserted s l m) (h' : Retiled m l') : Inserted s l l' := by
  refine ⟨fun x => (h'.tagAt x).trans (h.tagAt x), fun Q hlo hhi hQ => ?_, fun u hlo hhi hu => ?_⟩
  · exact h'.edges Q (h.edges Q hlo hhi hQ)
  · rw [h'.size u (h.edges _ hlo hhi hu), h.size u hlo hhi hu]

end Segment

end Sbckernel.Lib
