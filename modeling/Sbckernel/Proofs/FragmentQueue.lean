import Mathlib.Algebra.Order.BigOperators.Group.List
import Mathlib.Data.List.TakeWhile
import Sbckernel.Lib.Spans
import Sbckernel.Net.IpFragment

/-!
# The fragments of one queue

The fragments of a queue are ordered spans, whatever has been received: a new one
is put behind those that start in front of it and cut where the one before it
ends, and those behind it are cut or thrown away. Nothing is lost by this: the
new fragment and the old ones together cover what they covered before.

A fragment that ends before the one in front of it does is turned around by the
cut and gets a negative length. It stays in the queue.
-/

namespace Sbckernel.Net

open Lib Spans List

/-- Where the data of a received fragment end in the datagram. -/
def SkBuff.fragEnd (skb : SkBuff) : Int := skb.iph.offset + skb.iph.totLen.toNat - skb.iph.hlen

namespace Ipfrag

/-- The fields of a queued fragment, in terms of what has been received. -/
structure Sound (fp : Ipfrag) : Prop where
  last : fp.last = fp.skb.fragEnd
  len : fp.len = fp.last - fp.offset
  ptr : fp.ptr = fp.offset - fp.skb.iph.offset
  start : (fp.skb.iph.offset : Int) ≤ fp.offset

/-- The part of a fragment from `x` on. -/
def cutTo (fp : Ipfrag) (x : Int) : Ipfrag :=
  { fp with offset := x, len := fp.last - x, ptr := fp.ptr + (x - fp.offset) }

theorem Sound.cutTo {fp : Ipfrag} (h : fp.Sound) {x : Int} (hx : fp.offset ≤ x) :
    (fp.cutTo x).Sound := by
  refine ⟨h.last, rfl, ?_, h.start.trans hx⟩
  show fp.ptr + (x - fp.offset) = x - fp.skb.iph.offset
  rw [h.ptr]
  omega

end Ipfrag

structure Chained (fragments : List Ipfrag) : Prop where
  ordered : Ordered Ipfrag.offset Ipfrag.last fragments
  sound : ∀ fp ∈ fragments, fp.Sound

section
variable {l l' : List Ipfrag} {fp : Ipfrag} {last p : Int}

theorem chained_append : Chained (l ++ l') ↔ Chained l ∧ Chained l' ∧
    ∀ a ∈ l, ∀ b ∈ l', a.offset ≤ b.offset ∧ a.last ≤ b.offset := by
  refine ⟨fun ⟨ho, hs⟩ => ?_, fun ⟨⟨ho, hs⟩, ⟨ho', hs'⟩, hlt⟩ => ?_⟩
  · obtain ⟨hl, hl', hlt⟩ := ordered_append.mp ho
    obtain ⟨hs, hs'⟩ := forall_mem_append.mp hs
    exact ⟨⟨hl, hs⟩, ⟨hl', hs'⟩, hlt⟩
  · exact ⟨ordered_append.mpr ⟨ho, ho', hlt⟩, forall_mem_append.mpr ⟨hs, hs'⟩⟩

theorem chained_cons : Chained (fp :: l) ↔ fp.Sound ∧ Chained l ∧
    ∀ b ∈ l, fp.offset ≤ b.offset ∧ fp.last ≤ b.offset := by
  have hone : Chained [fp] ↔ fp.Sound :=
    ⟨fun h => h.sound fp mem_cons_self, fun h => ⟨pairwise_singleton .., by simpa using h⟩⟩
  rw [← singleton_append, chained_append, hone]
  simp

/-! ## The fragments behind a new one -/

/-- What is left of the succeeding fragments behind `last`. -/
def clip (last : Int) : List Ipfrag → List Ipfrag
  | [] => []
  | fp :: next =>
    if last ≤ fp.offset then fp :: next
    else if fp.last ≤ last then clip last next
    else fp.cutTo last :: next

/-- The loop of `ip_defrag` computes this. Once a fragment has been cut and not
thrown away the ones behind it start after it, so that `next` is always the
fragment looked at. -/
theorem trimLoop_spec (h : Chained l) (last : Int) :
    ∃ freed, trimLoop last [] l = ⟨[], clip last l, freed⟩ ∧
      freed.map Ipfrag.skb ++ (clip last l).map Ipfrag.skb = l.map Ipfrag.skb := by
  induction l with
  | nil => exact ⟨[], rfl, rfl⟩
  | cons fp l ih =>
    obtain ⟨hfp, hl, hlt⟩ := chained_cons.mp h
    rw [trimLoop, clip]
    by_cases hout : fp.offset ≥ last
    · rw [if_pos hout, if_pos hout]
      exact ⟨[], rfl, rfl⟩
    · have hlen : fp.len - (last - fp.offset) = fp.last - last := by
        rw [hfp.len]
        omega
      have hoffset : fp.offset + (last - fp.offset) = last := by omega
      rw [if_neg hout, if_neg hout, head?_nil, Option.getD_none]
      dsimp only
      rw [hlen, hoffset]
      by_cases hall : fp.last ≤ last
      · obtain ⟨freed, htrim, hfreed⟩ := ih hl
        rw [if_pos (by omega), if_pos hall, htrim]
        exact ⟨_, rfl, congrArg (fp.skb :: ·) hfreed⟩
      · rw [if_neg (by omega), if_neg hall]
        have hbreak : trimLoop last [fp.cutTo last] l = ⟨[], fp.cutTo last :: l, []⟩ := by
          cases l with
          | nil => rfl
          | cons b l =>
            have := (hlt b (by simp)).2
            rw [trimLoop, if_pos (by omega)]
            rfl
        exact ⟨[], hbreak, rfl⟩

/-- Each fragment that is left is a piece of an old one and lies behind `last`. -/
theorem clip_spec (h : Chained l) (last : Int) : Chained (clip last l) ∧
    (∀ a ∈ clip last l, last ≤ a.offset ∧ ∃ b ∈ l, b.offset ≤ a.offset ∧ a.last = b.last ∧
      a.skb = b.skb ∧ (0 ≤ b.len → 0 ≤ a.len)) ∧
    (∀ b ∈ l, b.last ≤ last ∨ ∃ a ∈ clip last l, a.last = b.last) ∧
    ∀ p, last ≤ p → (Covers Ipfrag.offset Ipfrag.last (clip last l) p ↔
      Covers Ipfrag.offset Ipfrag.last l p) := by
  induction l with
  | nil => exact ⟨h, nofun, nofun, fun _ _ => Iff.rfl⟩
  | cons fp l ih =>
    obtain ⟨hfp, hl, hlt⟩ := chained_cons.mp h
    rw [clip]
    split
    next hout =>
      refine ⟨h, fun a ha => ⟨?_, a, ha, le_rfl, rfl, rfl, id⟩, fun b hb => .inr ⟨b, hb, rfl⟩,
        fun _ _ => Iff.rfl⟩
      rcases mem_cons.mp ha with rfl | ha
      · exact hout
      · exact hout.trans (hlt a ha).1
    next hin =>
      split
      next hall =>
        obtain ⟨hchain, hfrom, hkeep, hcov⟩ := ih hl
        refine ⟨hchain, fun a ha => ?_, forall_mem_cons.mpr ⟨.inl hall, hkeep⟩, fun p hp => ?_⟩
        · obtain ⟨hle, b, hb, hab⟩ := hfrom a ha
          exact ⟨hle, b, by simp [hb], hab⟩
        · rw [hcov p hp, covers_cons]
          exact ⟨.inr, fun hor => hor.resolve_left fun hfp => by omega⟩
      next hall =>
        have hcut := hfp.cutTo (x := last) (by omega)
        refine ⟨chained_cons.mpr ⟨hcut, hl, fun b hb => ⟨?_, (hlt b hb).2⟩⟩, fun a ha => ?_,
          forall_mem_cons.mpr ⟨.inr ⟨_, mem_cons_self .., rfl⟩,
            fun b hb => .inr ⟨b, by simp [hb], rfl⟩⟩,
          fun p hp => ?_⟩
        · show last ≤ b.offset
          have := (hlt b hb).2
          omega
        · rcases mem_cons.mp ha with rfl | ha
          · refine ⟨le_rfl, fp, by simp, ?_, rfl, rfl, fun _ => ?_⟩
            · show fp.offset ≤ last
              omega
            · show 0 ≤ fp.last - last
              omega
          · have := (hlt a ha).2
            exact ⟨by omega, a, by simp [ha], le_rfl, rfl, rfl, id⟩
        · rw [covers_cons, covers_cons]
          exact or_congr_left ⟨fun hin => ⟨by omega, hin.2⟩, fun hin => ⟨hp, hin.2⟩⟩

/-! ## The fragments in front of a new one -/

theorem fragsBefore_append (offset : Int) (l : List Ipfrag) :
    fragsBefore offset l ++ fragsBehind offset l = l := takeWhile_append_dropWhile ..

theorem mem_fragsBefore {offset : Int} (h : fp ∈ fragsBefore offset l) : fp.offset < offset := by
  simpa using mem_takeWhile_imp h

/-- The fragments behind start at the new one or after it. -/
theorem mem_fragsBehind (hl : Chained l) {offset : Int} (h : fp ∈ fragsBehind offset l) :
    offset ≤ fp.offset := by
  induction l with
  | nil => cases h
  | cons a l ih =>
    obtain ⟨-, hl, hlt⟩ := chained_cons.mp hl
    rw [fragsBehind, dropWhile_cons] at h
    split at h
    · exact ih hl h
    next ha =>
      have ha' : offset ≤ a.offset := by simpa using ha
      rcases mem_cons.mp h with rfl | h
      · exact ha'
      · exact ha'.trans (hlt fp h).1

variable (skb : SkBuff)

/-- A new fragment after the cut. -/
def newFrag (before : List Ipfrag) : Ipfrag :=
  let i := overlapBefore skb.iph.offset before
  { offset := skb.iph.offset + i
    last := skb.fragEnd
    len := skb.fragEnd - (skb.iph.offset + i)
    skb := skb
    ptr := i }

theorem overlapBefore_nonneg (offset : Int) (before : List Ipfrag) :
    0 ≤ overlapBefore offset before := by
  rw [overlapBefore]
  split
  · exact le_rfl
  · split
    · omega
    · exact le_rfl

theorem newFrag_sound (before : List Ipfrag) : (newFrag skb before).Sound := by
  have := overlapBefore_nonneg skb.iph.offset before
  refine ⟨rfl, rfl, ?_, ?_⟩
  · show overlapBefore _ _ = skb.iph.offset + overlapBefore _ _ - skb.iph.offset
    omega
  · show (skb.iph.offset : Int) ≤ skb.iph.offset + overlapBefore _ _
    omega

/-- It starts behind all fragments in front of it. -/
theorem le_newFrag (hl : Chained l) (hbefore : ∀ a ∈ l, a.offset < skb.iph.offset) :
    ∀ a ∈ l, a.offset ≤ (newFrag skb l).offset ∧ a.last ≤ (newFrag skb l).offset := by
  intro a ha
  have hi := overlapBefore_nonneg skb.iph.offset l
  have hle : a.last ≤ skb.iph.offset + overlapBefore skb.iph.offset l := by
    cases hlast : l.getLast? with
    | none =>
      rw [getLast?_eq_none_iff.mp hlast] at ha
      cases ha
    | some prev =>
      obtain ⟨l1, rfl⟩ := getLast?_eq_some_iff.mp hlast
      have hprev : prev.last ≤ skb.iph.offset + overlapBefore skb.iph.offset (l1 ++ [prev]) := by
        rw [overlapBefore, hlast]
        dsimp only
        split <;> omega
      rcases mem_append.mp ha with ha1 | ha1
      · have := ((chained_append.mp hl).2.2 a ha1 prev (by simp)).2
        have := hbefore prev (by simp)
        omega
      · rw [mem_singleton.mp ha1]
        exact hprev
  have := hbefore a ha
  exact ⟨by show a.offset ≤ skb.iph.offset + overlapBefore _ _; omega, hle⟩

/-- What lies between the start of the new data and the cut is there already. -/
theorem covers_of_overlap (hbefore : ∀ a ∈ l, a.offset < skb.iph.offset)
    (hp : skb.iph.offset ≤ p) (hcut : p < (newFrag skb l).offset) :
    Covers Ipfrag.offset Ipfrag.last l p := by
  have hcut' : p < skb.iph.offset + overlapBefore skb.iph.offset l := hcut
  rw [overlapBefore] at hcut'
  split at hcut'
  · omega
  next prev hprev =>
    split at hcut'
    · have hmem := mem_of_getLast? hprev
      have := hbefore prev hmem
      exact ⟨prev, hmem, by omega, by omega⟩
    · omega

/-- It is turned around only if it ends before one in front of it does. -/
theorem newFrag_len_nonneg {skb : SkBuff} (hheader : skb.iph.hlen ≤ skb.iph.totLen.toNat)
    (hl : ∀ a ∈ l, a.last ≤ skb.fragEnd) : 0 ≤ (newFrag skb l).len := by
  show 0 ≤ skb.fragEnd - (skb.iph.offset + overlapBefore skb.iph.offset l)
  have hend : (skb.iph.offset : Int) ≤ skb.fragEnd := by
    rw [SkBuff.fragEnd]
    omega
  rw [overlapBefore]
  split
  · omega
  next prev hprev =>
    have := hl prev (mem_of_getLast? hprev)
    split <;> omega

/-! ## The insertion -/

/-- The fragments of a queue after a new one. -/
def insertFrag (l : List Ipfrag) : List Ipfrag :=
  fragsBefore skb.iph.offset l ++
    newFrag skb (fragsBefore skb.iph.offset l) :: clip skb.fragEnd (fragsBehind skb.iph.offset l)

/-- The fragments of a queue when there was no memory for the new one. -/
def trimFrags (l : List Ipfrag) : List Ipfrag :=
  fragsBefore skb.iph.offset l ++ clip skb.fragEnd (fragsBehind skb.iph.offset l)

theorem chained_split (h : Chained l) (offset : Int) :
    Chained (fragsBefore offset l) ∧ Chained (fragsBehind offset l) ∧
      ∀ a ∈ fragsBefore offset l, ∀ b ∈ fragsBehind offset l,
        a.offset ≤ b.offset ∧ a.last ≤ b.offset := by
  rw [← fragsBefore_append offset l] at h
  exact chained_append.mp h

/-- Nothing behind the new fragment starts in front of it. -/
theorem newFrag_le (h : Chained l) : ∀ b ∈ fragsBehind skb.iph.offset l,
      (newFrag skb (fragsBefore skb.iph.offset l)).offset ≤ b.offset := by
  intro b hb
  have hle := mem_fragsBehind h hb
  obtain ⟨-, -, hlt⟩ := chained_split h skb.iph.offset
  show skb.iph.offset + overlapBefore _ _ ≤ b.offset
  rw [overlapBefore]
  split
  · omega
  next prev hprev =>
    have := (hlt prev (mem_of_getLast? hprev) b hb).2
    split <;> omega

theorem chained_trimFrags (h : Chained l) : Chained (trimFrags skb l) := by
  obtain ⟨hbefore, hbehind, hlt⟩ := chained_split h skb.iph.offset
  obtain ⟨hclip, hfrom, -, -⟩ := clip_spec hbehind skb.fragEnd
  refine chained_append.mpr ⟨hbefore, hclip, fun a ha b hb => ?_⟩
  obtain ⟨-, c, hc, hle, -⟩ := hfrom b hb
  obtain ⟨h1, h2⟩ := hlt a ha c hc
  exact ⟨h1.trans hle, h2.trans hle⟩

theorem chained_insertFrag (h : Chained l) : Chained (insertFrag skb l) := by
  obtain ⟨hbefore, hclip, hlt⟩ := chained_append.mp (chained_trimFrags skb h)
  obtain ⟨-, hfrom, -, -⟩ := clip_spec (chained_split h skb.iph.offset).2.1 skb.fragEnd
  refine chained_append.mpr ⟨hbefore, chained_cons.mpr ⟨newFrag_sound .., hclip, fun b hb => ?_⟩,
    fun a ha => forall_mem_cons.mpr
      ⟨le_newFrag skb hbefore (fun a ha => mem_fragsBefore ha) a ha, hlt a ha⟩⟩
  obtain ⟨hle, c, hc, hcb, -⟩ := hfrom b hb
  exact ⟨(newFrag_le skb h c hc).trans hcb, hle⟩

/-- The new fragment adds what it brings, and nothing else is lost. -/
theorem covers_insertFrag (h : Chained l) : Covers Ipfrag.offset Ipfrag.last (insertFrag skb l) p ↔
      Covers Ipfrag.offset Ipfrag.last l p ∨ (skb.iph.offset ≤ p ∧ p < skb.fragEnd) := by
  obtain ⟨-, hfrom, -, hcov⟩ := clip_spec (chained_split h skb.iph.offset).2.1 skb.fragEnd
  have hsplit : Covers Ipfrag.offset Ipfrag.last l p ↔
      Covers Ipfrag.offset Ipfrag.last (fragsBefore skb.iph.offset l) p ∨
        Covers Ipfrag.offset Ipfrag.last (fragsBehind skb.iph.offset l) p := by
    rw [← covers_append, fragsBefore_append]
  have hstart : (newFrag skb (fragsBefore skb.iph.offset l)).offset ≤ p → skb.iph.offset ≤ p := by
    have := (newFrag_sound skb (fragsBefore skb.iph.offset l)).start
    exact fun hle => this.trans hle
  have hnew := covers_of_overlap (l := fragsBefore skb.iph.offset l) (p := p) skb fun a ha =>
    mem_fragsBefore ha
  rw [insertFrag, covers_append, covers_cons, hsplit]
  constructor
  · rintro (hc | ⟨hle, hlt⟩ | hc)
    · exact .inl (.inl hc)
    · exact .inr ⟨hstart hle, hlt⟩
    · obtain ⟨a, ha, hle, -⟩ := id hc
      exact .inl (.inr ((hcov p ((hfrom a ha).1.trans hle)).mp hc))
  · rintro ((hc | hc) | ⟨hle, hlt⟩)
    · exact .inl hc
    · by_cases hp : skb.fragEnd ≤ p
      · exact .inr (.inr ((hcov p hp).mpr hc))
      · obtain ⟨b, hb, hle, -⟩ := hc
        exact .inr (.inl ⟨(newFrag_le skb h b hb).trans hle, not_le.mp hp⟩)
    · by_cases hcut : p < (newFrag skb (fragsBefore skb.iph.offset l)).offset
      · exact .inl (hnew hle hcut)
      · exact .inr (.inl ⟨not_lt.mp hcut, hlt⟩)

/-- Whatever end a fragment had, some fragment still has, or one beyond it. -/
theorem reach_insertFrag (h : Chained l) : (∃ a ∈ insertFrag skb l, a.last = skb.fragEnd) ∧
      ∀ b ∈ l, ∃ a ∈ insertFrag skb l, b.last ≤ a.last := by
  obtain ⟨-, -, hkeep, -⟩ := clip_spec (chained_split h skb.iph.offset).2.1 skb.fragEnd
  have hnew : newFrag skb (fragsBefore skb.iph.offset l) ∈ insertFrag skb l := by simp [insertFrag]
  refine ⟨⟨_, hnew, rfl⟩, fun b hb => ?_⟩
  rw [← fragsBefore_append skb.iph.offset l] at hb
  rcases mem_append.mp hb with hb | hb
  · exact ⟨b, by simp [insertFrag, hb], le_rfl⟩
  · rcases hkeep b hb with hle | ⟨a, ha, heq⟩
    · exact ⟨_, hnew, hle⟩
    · exact ⟨a, by simp [insertFrag, ha], heq.ge⟩

/-- Every fragment is the new one or a piece of an old one. -/
theorem mem_insertFrag (h : Chained l) (ha : fp ∈ insertFrag skb l) :
    fp = newFrag skb (fragsBefore skb.iph.offset l) ∨
      ∃ b ∈ l, fp.skb = b.skb ∧ (0 ≤ b.len → 0 ≤ fp.len) := by
  obtain ⟨-, hfrom, -, -⟩ := clip_spec (chained_split h skb.iph.offset).2.1 skb.fragEnd
  rcases mem_append.mp ha with ha | ha
  · exact .inr ⟨fp, (takeWhile_subset _) ha, rfl, id⟩
  · rcases mem_cons.mp ha with rfl | ha
    · exact .inl rfl
    · obtain ⟨-, b, hb, -, -, hskb, hlen⟩ := hfrom fp ha
      exact .inr ⟨b, (dropWhile_subset _) hb, hskb, hlen⟩

/-- What the fragments of a list are charged for. -/
def charge (l : List Ipfrag) : Int :=
  ((l.map Ipfrag.skb).map fun skb => (skb.truesize : Int) + sizeofIpfrag).sum

theorem charge_append (l l' : List Ipfrag) : charge (l ++ l') = charge l + charge l' := by
  simp [charge]

theorem charge_cons (fp : Ipfrag) (l : List Ipfrag) :
    charge (fp :: l) = fp.skb.truesize + sizeofIpfrag + charge l := by
  simp [charge]

theorem foldl_refund (l : List Ipfrag) (mem : Int) : l.foldl refund mem = mem - charge l := by
  induction l generalizing mem with
  | nil => simp [charge]
  | cons fp l ih =>
    rw [foldl_cons, ih, charge_cons, refund]
    omega

theorem charge_nonneg (l : List Ipfrag) : 0 ≤ charge l := by
  refine sum_nonneg fun x hx => ?_
  obtain ⟨skb, -, rfl⟩ := mem_map.mp hx
  simp only [sizeofIpfrag]
  omega

end

namespace Ipq

/-- `qp->len` after a fragment: a last fragment sets it. -/
def lenAfter (qp : Ipq) (skb : SkBuff) : Int := if skb.iph.mf then qp.len else skb.fragEnd

/-- The queue with a fragment put in. -/
def insert (qp : Ipq) (skb : SkBuff) : Ipq :=
  { qp with len := qp.lenAfter skb, fragments := insertFrag skb qp.fragments }

/-- The queue when there was no memory for the fragment. -/
def trim (qp : Ipq) (skb : SkBuff) : Ipq :=
  { qp with len := qp.lenAfter skb, fragments := trimFrags skb qp.fragments }

end Ipq

/-- The queue after `ip_defrag` has looked for a place, and the memory charged. -/
theorem ipInsert_spec (alloc : Alloc) {qp : Ipq} (h : Chained qp.fragments) (skb : SkBuff)
    (mem : Int) :
    ∃ mem', ipInsert alloc qp skb mem =
        (if alloc.ipfrag then qp.insert skb else qp.trim skb, mem', alloc.ipfrag) ∧
      mem' - charge (if alloc.ipfrag then qp.insert skb else qp.trim skb).fragments =
        mem - charge qp.fragments ∧ mem' ≤ mem + sizeofIpfrag + skb.truesize := by
  obtain ⟨freed, htrim, hfreed⟩ :=
    trimLoop_spec (chained_split h skb.iph.offset).2.1 skb.fragEnd
  have hcharge : charge freed +
      charge (clip skb.fragEnd (fragsBehind skb.iph.offset qp.fragments)) =
        charge (fragsBehind skb.iph.offset qp.fragments) := by
    rw [← charge_append, charge, charge, map_append, hfreed]
  have hall : charge qp.fragments = charge (fragsBefore skb.iph.offset qp.fragments) +
      charge (fragsBehind skb.iph.offset qp.fragments) := by
    rw [← charge_append, fragsBefore_append]
  have hfree := charge_nonneg freed
  have hqp : (if skb.iph.mf then qp else { qp with len := skb.fragEnd }) =
      { qp with len := qp.lenAfter skb } := by
    rw [Ipq.lenAfter]
    cases skb.iph.mf <;> rfl
  rw [ipInsert, show (skb.iph.offset : Int) + skb.iph.totLen.toNat - skb.iph.hlen = skb.fragEnd
    from rfl, hqp, htrim, nil_append, foldl_refund, ipFragCreate]
  cases alloc.ipfrag with
  | false =>
    refine ⟨_, rfl, ?_, ?_⟩
    · show mem - charge freed - charge (trimFrags skb qp.fragments) = _
      rw [trimFrags, charge_append]
      omega
    · simp only [sizeofIpfrag]
      omega
  | true =>
    refine ⟨_, rfl, ?_, ?_⟩
    · show mem - charge freed + sizeofIpfrag + skb.truesize -
        charge (insertFrag skb qp.fragments) = _
      rw [insertFrag, charge_append, charge_cons, newFrag]
      dsimp only
      omega
    · show mem - charge freed + sizeofIpfrag + skb.truesize ≤ _
      omega

end Sbckernel.Net
