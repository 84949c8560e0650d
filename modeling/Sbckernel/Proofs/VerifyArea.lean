import Sbckernel.Mm.VerifyArea
import Sbckernel.Proofs.AddressSpace

/-!
# `verify_area` is exact, but for one sum

The loops stand on an area that holds a byte of the range, with all bytes before it
checked. They go on while the next area starts where this one ends; the first byte that is
in no area, or in one without the flag, is a byte of the range, since the end of the range
has not been reached. The two loops over areas differ in when they look at the flags, and
are the same function after that.

The loop over pages counts them: `size - 1` and the place of the first byte in its page are
added up, and this sum may wrap. Then only the first pages are checked.
-/

namespace Sbckernel.Mm

open Lib List

/-- Some area with the flag has the byte. -/
def Allowed (s : MmStruct) (ps : List VmPtr) (flag : VmFlags) (b : Nat) : Prop :=
  ∃ p ∈ ps, (s.mem p).vmStart ≤ b ∧ b < (s.mem p).vmEnd ∧ (s.mem p).vmFlags &&& flag ≠ 0

/-- The right answer for a range. -/
def Verdict (s : MmStruct) (ps : List VmPtr) (flag : VmFlags) (start size : Nat) (r : Errno) :
    Prop :=
  (r = .ok ∧ start + size < 2 ^ 32 ∧ ∀ b, start ≤ b → b < start + size → Allowed s ps flag b) ∨
    (r = .efault ∧ ∃ b, start ≤ b ∧ b < start + size ∧ ¬Allowed s ps flag b)

section
variable {s : MmStruct} {ps l l' : List VmPtr} {p : VmPtr} {flag : VmFlags} {start size b a k : Nat}
  {r : Errno}

section
variable (h : AreaList s (l ++ p :: l'))
include h

theorem not_allowed_of_flag (hlo : (s.mem p).vmStart ≤ b)
    (hhi : b < (s.mem p).vmEnd) (hflag : (s.mem p).vmFlags &&& flag = 0) :
    ¬Allowed s (l ++ p :: l') flag b := by
  rintro ⟨q, hq, hqlo, hqhi, hqflag⟩
  -- a byte is in one area only
  rcases mem_append.mp hq with hql | hq
  · have hle := h.left_le hql
    omega
  · rcases mem_cons.mp hq with rfl | hqr
    · exact hqflag hflag
    · have hle := h.le_right hqr
      omega

/-- The byte behind an area is in no area if the next one does not start there. -/
theorem not_allowed_of_gap
    (hgap : ∀ q, (s.mem p).vmNext = some q → (s.mem p).vmEnd ≠ (s.mem q).vmStart) :
    ¬Allowed s (l ++ p :: l') flag (s.mem p).vmEnd := by
  rintro ⟨q, hq, hqlo, hqhi, -⟩
  rcases mem_append.mp hq with hql | hq
  · have hle := h.left_le hql
    have hproper := h.proper (p := p) (by simp)
    omega
  rcases mem_cons.mp hq with rfl | hqr
  · omega
  cases l' with
  | nil => cases hqr
  | cons r l' =>
    have hnext := hgap r h.next_eq
    have hpr := h.le_right mem_cons_self
    have hproper := h.proper (p := r) (by simp)
    rcases mem_cons.mp hqr with rfl | hqr
    · omega
    · have hrq := (append_cons l p _ ▸ h).le_right hqr
      omega

/-! ## The loops over areas -/

/-- The common part of the two loops: the flags of the area have been looked at. -/
def verifyFlag (s : MmStruct) (flag : VmFlags) (start size : Nat) : Nat → VmPtr → Errno
  | 0, _ => .efault
  | n + 1, vma =>
    if wordSub (s.mem vma).vmEnd start ≥ size then .ok
    else
      match (s.mem vma).vmNext with
      | none => .efault
      | some next =>
        if (s.mem vma).vmEnd ≠ (s.mem next).vmStart then .efault
        else if (s.mem next).vmFlags &&& flag = 0 then .efault
        else verifyFlag s flag start size n next

omit h in
theorem verifyWrite_eq (s : MmStruct) (start size n : Nat) (vma : VmPtr) :
    verifyWrite s start size n vma = verifyFlag s vmWrite start size n vma := by
  induction n generalizing vma with
  | zero => rfl
  | succ n ih =>
    unfold verifyWrite verifyFlag
    refine if_congr Iff.rfl rfl ?_
    cases (s.mem vma).vmNext with
    | none => rfl
    | some next => exact if_congr Iff.rfl rfl (if_congr Iff.rfl rfl (ih next))

omit h in
theorem verifyRead_eq (s : MmStruct) (start size n : Nat) (vma : VmPtr) :
    verifyRead s start size n vma =
      if (s.mem vma).vmFlags &&& vmRead = 0 then .efault
      else verifyFlag s vmRead start size n vma := by
  induction n generalizing vma with
  | zero => exact (ite_self _).symm
  | succ n ih =>
    unfold verifyRead verifyFlag
    refine if_congr Iff.rfl rfl (if_congr Iff.rfl rfl ?_)
    cases (s.mem vma).vmNext with
    | none => rfl
    | some next => exact if_congr Iff.rfl rfl (ih next)

/-- The step to the next area, with what is left to do there: it fails at the byte behind this
one, or the next area begins there and has the flag. -/
theorem next_area (rest : VmPtr → Errno) (hr : r = match (s.mem p).vmNext with
      | none => .efault
      | some q =>
        if (s.mem p).vmEnd ≠ (s.mem q).vmStart then .efault
        else if (s.mem q).vmFlags &&& flag = 0 then .efault
        else rest q) :
    r = .efault ∧ ¬Allowed s (l ++ p :: l') flag (s.mem p).vmEnd ∨
      ∃ q m, l' = q :: m ∧ (s.mem q).vmStart = (s.mem p).vmEnd ∧
        (s.mem p).vmEnd < (s.mem q).vmEnd ∧ (s.mem q).vmFlags &&& flag ≠ 0 ∧ r = rest q := by
  rw [h.next_eq] at hr
  cases l' with
  | nil => exact .inl ⟨hr, not_allowed_of_gap h fun q hq =>
      absurd (h.next_eq.symm.trans hq) (by simp)⟩
  | cons q m =>
    have hproper := h.proper (p := q) (by simp)
    dsimp only [head?_cons] at hr
    split at hr
    next hne =>
      refine .inl ⟨hr, not_allowed_of_gap h fun q' hq => ?_⟩
      cases h.next_eq.symm.trans hq
      exact hne
    next hadj =>
      rw [not_not] at hadj
      split at hr
      next hoff =>
        have hlist := append_cons l p (q :: m)
        rw [hlist] at h ⊢
        exact .inl ⟨hr, not_allowed_of_flag h hadj.ge (hadj ▸ hproper) hoff⟩
      next hon => exact .inr ⟨q, m, rfl, hadj.symm, hadj ▸ hproper, hon, hr⟩

/-- The loop stands on an area that holds a byte of the range and has the flag. -/
theorem verifyFlag_verdict {n : Nat} (hn : l'.length < n)
    (hstart : start < (s.mem p).vmEnd) (hreach : (s.mem p).vmStart < start + size)
    (hflag : (s.mem p).vmFlags &&& flag ≠ 0)
    (hdone : ∀ b, start ≤ b → b < (s.mem p).vmStart → Allowed s (l ++ p :: l') flag b) :
    Verdict s (l ++ p :: l') flag start size (verifyFlag s flag start size n p) := by
  induction n generalizing l p l' with
  | zero => exact absurd hn (Nat.not_lt_zero _)
  | succ n ih =>
    have hword := h.word p (by simp)
    have hself : ∀ b, start ≤ b → b < (s.mem p).vmEnd → Allowed s (l ++ p :: l') flag b := by
      intro b hb hend
      by_cases hbefore : b < (s.mem p).vmStart
      · exact hdone b hb hbefore
      · exact ⟨p, by simp, Nat.le_of_not_lt hbefore, hend, hflag⟩
    unfold verifyFlag
    rw [wordSub_of_le hstart.le hword]
    split
    next hfits =>
      refine .inl ⟨rfl, by omega, fun b hb hend => hself b hb ?_⟩
      omega
    next hfits =>
      -- The byte behind the area is in the range.
      rcases next_area h (verifyFlag s flag start size n) rfl with
        ⟨hfault, hnot⟩ | ⟨q, m, rfl, hadj, hproper, hon, heq⟩
      · exact .inr ⟨hfault, (s.mem p).vmEnd, by omega, by omega, hnot⟩
      · rw [append_cons] at h hself ⊢
        rw [length_cons] at hn
        rw [heq]
        exact ih h (by omega) (by omega) (by omega) hon fun b hb hend => hself b hb (hadj ▸ hend)

end

/-! ## The loop over pages -/

/-- What the loop finds out: `k` pages behind the one at `a`. -/
def PagesVerdict (s : MmStruct) (ps : List VmPtr) (k a : Nat) (r : Errno) : Prop :=
  (r = .ok ∧ a + (k + 1) * pageSize < 2 ^ 32 ∧
      ∀ b, a ≤ b → b < a + (k + 1) * pageSize → Allowed s ps vmWrite b) ∨
    (r = .efault ∧ ∃ j, 0 < j ∧ j ≤ k ∧ ¬Allowed s ps vmWrite (a + j * pageSize))

/-- One page more, which is allowed. -/
theorem PagesVerdict.cons (h : PagesVerdict s ps k (a + pageSize) r)
    (hpage : ∀ b, a ≤ b → b < a + pageSize → Allowed s ps vmWrite b) :
    PagesVerdict s ps (k + 1) a r := by
  have hsum : ∀ j, a + pageSize + j * pageSize = a + (j + 1) * pageSize := by
    intro j
    rw [Nat.add_mul, one_mul]
    omega
  obtain ⟨rfl, hword, hall⟩ | ⟨rfl, j, hpos, hle, hnot⟩ := h
  · rw [hsum] at hword hall
    refine .inl ⟨rfl, hword, fun b hb hend => ?_⟩
    by_cases hfirst : b < a + pageSize
    · exact hpage b hb hfirst
    · exact hall b (Nat.le_of_not_lt hfirst) hend
  · rw [hsum] at hnot
    exact .inr ⟨rfl, j + 1, Nat.succ_pos j, Nat.succ_le_succ hle, hnot⟩

/-- A page that begins below the end of an area lies below it. -/
theorem page_le {e : Nat} (ha : pageSize ∣ a) (he : pageSize ∣ e) (hlt : a < e) :
    a + pageSize ≤ e := by
  obtain ⟨c, rfl⟩ := ha
  obtain ⟨d, rfl⟩ := he
  rw [← Nat.mul_add_one]
  exact Nat.mul_le_mul_left _ (Nat.lt_of_mul_lt_mul_left hlt)

theorem wpFaultPages_verdict (h : AreaList s (l ++ p :: l'))
    (haligned : ∀ q ∈ l ++ p :: l', pageSize ∣ (s.mem q).vmEnd)
    (ha : pageSize ∣ a) (hlo : (s.mem p).vmStart ≤ a) (hhi : a < (s.mem p).vmEnd)
    (hflag : (s.mem p).vmFlags &&& vmWrite ≠ 0) :
    PagesVerdict s (l ++ p :: l') k a (wpFaultPages s k a p) := by
  induction k generalizing l p l' a with
  | zero =>
    have hword := h.word p (by simp)
    have hpage := page_le ha (haligned p (by simp)) hhi
    refine .inl ⟨rfl, by omega, fun b hb hend => ?_⟩
    exact ⟨p, by simp, by omega, by omega, hflag⟩
  | succ k ih =>
    have hword := h.word p (by simp)
    have hpage := page_le ha (haligned p (by simp)) hhi
    have hself : ∀ b, a ≤ b → b < a + pageSize → Allowed s (l ++ p :: l') vmWrite b := by
      intro b hb hend
      exact ⟨p, by simp, by omega, by omega, hflag⟩
    have ha' : pageSize ∣ a + pageSize := Nat.dvd_add ha dvd_rfl
    unfold wpFaultPages
    dsimp only
    rw [wrap, Nat.mod_eq_of_lt (lt_of_le_of_lt hpage hword)]
    split
    next hin => exact (ih h haligned ha' (by omega) hin hflag).cons hself
    next hout =>
      have hend : a + 1 * pageSize = (s.mem p).vmEnd := by omega
      rw [one_mul] at hend
      rw [hend]
      simp only [ne_comm (a := (s.mem _).vmStart)]
      rcases next_area h (wpFaultPages s k (s.mem p).vmEnd) rfl with
        ⟨hfault, hnot⟩ | ⟨q, m, rfl, hadj, hproper, hon, heq⟩
      · exact .inr ⟨hfault, 1, Nat.one_pos, by omega, by rwa [one_mul, hend]⟩
      · rw [append_cons] at h hself haligned ⊢
        rw [hend] at ha'
        refine (congrArg (PagesVerdict s _ (k + 1) a) heq).mpr (PagesVerdict.cons ?_ hself)
        rw [hend]
        exact ih h haligned ha' hadj.le hproper hon

section
variable (h : AreaList s (l ++ p :: l'))
  (haligned : ∀ q ∈ l ++ p :: l', pageSize ∣ (s.mem q).vmStart ∧ pageSize ∣ (s.mem q).vmEnd)
include h haligned

theorem checkWpFaultByHand_verdict (hlo : (s.mem p).vmStart ≤ start) (hhi : start < (s.mem p).vmEnd)
    (hflag : (s.mem p).vmFlags &&& vmWrite ≠ 0) (hsize : 0 < size) (hword : size < 2 ^ 32)
    (hsum : size - 1 + start % pageSize < 2 ^ 32) :
    Verdict s (l ++ p :: l') vmWrite start size (checkWpFaultByHand s p start size) := by
  have hpages : 0 < pageSize := by decide
  have hstart : pageMask start + start % pageSize = start := by
    rw [pageMask, Nat.mul_comm]
    exact Nat.div_add_mod start pageSize
  have hlo' : (s.mem p).vmStart ≤ pageMask start := le_pageMask (haligned p (by simp)).1 hlo
  have hverdict := wpFaultPages_verdict (k := (size - 1 + start % pageSize) / pageSize)
    (a := pageMask start) h (fun q hq => (haligned q hq).2) (Nat.dvd_mul_left pageSize _) hlo'
    (by omega) hflag
  have hdiv := Nat.div_add_mod (size - 1 + start % pageSize) pageSize
  have hmod := Nat.mod_lt (size - 1 + start % pageSize) hpages
  have hmod' := Nat.mod_lt start hpages
  unfold checkWpFaultByHand
  dsimp only
  rw [wordSub_of_le hsize hword, wrap, Nat.mod_eq_of_lt hsum]
  generalize (size - 1 + start % pageSize) / pageSize = k at hverdict hdiv ⊢
  obtain ⟨hok, hend, hall⟩ | ⟨hfault, j, hpos, hle, hnot⟩ := hverdict
  · rw [Nat.add_mul, one_mul, Nat.mul_comm k] at hend hall
    refine .inl ⟨hok, by omega, fun b hb hlt => hall b ?_ ?_⟩
    · omega
    · omega
  · have hj := Nat.mul_le_mul_left pageSize hle
    have hone := Nat.le_mul_of_pos_right pageSize hpos
    rw [Nat.mul_comm j] at hnot
    exact .inr ⟨hfault, _, by omega, by omega, hnot⟩

/-! ## `verify_area` -/

theorem goodArea_verdict (hlo : (s.mem p).vmStart ≤ start) (hhi : start < (s.mem p).vmEnd)
    (hsize : 0 < size) (hword : size < 2 ^ 32) {wpWorksOk : Bool} {type : VerifyType}
    (hsum : wpWorksOk = false → type = .verifyWrite → (s.mem p).vmFlags &&& vmWrite ≠ 0 →
      size - 1 + start % pageSize < 2 ^ 32) :
    Verdict s (l ++ p :: l') type.flag start size (goodArea wpWorksOk s type p start size) := by
  have hfuel : l'.length < s.live + 1 := by
    have hlen := h.length_le
    rw [length_append, length_cons] at hlen
    omega
  have hbad : (s.mem p).vmFlags &&& type.flag = 0 →
      Verdict s (l ++ p :: l') type.flag start size .efault := by
    intro hoff
    exact .inr ⟨rfl, start, le_rfl, by omega, not_allowed_of_flag h hlo hhi hoff⟩
  have hgood : (s.mem p).vmFlags &&& type.flag ≠ 0 →
      Verdict s (l ++ p :: l') type.flag start size
        (verifyFlag s type.flag start size (s.live + 1) p) := by
    intro hon
    exact verifyFlag_verdict h hfuel hhi (by omega) hon fun b hb hlt => absurd hlt (by omega)
  unfold goodArea
  cases type with
  | verifyRead =>
    dsimp only
    rw [verifyRead_eq]
    split
    next hoff => exact hbad hoff
    next hon => exact hgood hon
  | verifyWrite =>
    dsimp only
    split
    next hoff => exact hbad hoff
    next hon =>
      split
      next hhand =>
        exact checkWpFaultByHand_verdict h haligned hlo hhi hon hsize hword
          (hsum (Bool.eq_false_of_not_eq_true hhand) rfl hon)
      next hok =>
        rw [verifyWrite_eq]
        exact hgood hon

/-- The area that `expand_stack` makes. -/
def grownDown (area : VmArea) (address : Nat) : VmArea :=
  { area with
    vmStart := pageMask address
    vmOffset := area.vmOffset - BitVec.ofNat 32 (wordSub area.vmStart (pageMask address)) }

/-- The limits let the area grow down to the page of `address`. -/
def MayGrow (cur : Current) (s : MmStruct) (vma : VmPtr) (address : Nat) : Prop :=
  wordSub (s.mem vma).vmEnd (pageMask address) ≤ cur.rlimStack ∧
    wrap (wrap (s.totalVm.toNat * pageSize) + wordSub (s.mem vma).vmStart (pageMask address)) ≤
      cur.rlimAs

/-- `expand_stack` refuses, or the first area above the address now has its page. -/
theorem expandStack_list (cur : Current) (hbelow : start < (s.mem p).vmStart)
    (hl : ∀ q ∈ l, (s.mem q).vmEnd ≤ start) :
    ¬MayGrow cur s p start ∧ expandStack cur s p start = (s, .enomem) ∨
      MayGrow cur s p start ∧ ∃ s', expandStack cur s p start = (s', .ok) ∧
        AreaList s' (l ++ p :: l') ∧ s'.mem p = grownDown (s.mem p) start ∧
        ∀ q ≠ p, s'.mem q = s.mem q := by
  unfold expandStack MayGrow
  dsimp only
  split
  next hrefused => exact .inl ⟨by omega, rfl⟩
  next hgrown =>
    have hproper := h.proper (p := p) (by simp)
    have hmask : pageMask start ≤ start := Nat.div_mul_le_self ..
    have hleft : ∀ q ∈ l, (s.mem q).vmEnd ≤ pageMask start := fun q hq =>
      le_pageMask (haligned q (by simp [hq])).2 (hl q hq)
    have hlist : AreaList (s.set p (grownDown (s.mem p) start)) (l ++ p :: l') :=
      h.set rfl (show pageMask start < (s.mem p).vmEnd by omega) (h.word p (by simp)) hleft
        fun q hq => h.le_right hq
    have hself : (s.set p (grownDown (s.mem p) start)).mem p = _ := MmStruct.set_mem_self
    exact .inr ⟨by omega, _, rfl, hlist.congr (fun _ _ => rfl) rfl rfl fun _ _ hq => hq, hself,
      fun q hq => MmStruct.set_mem_of_ne hq⟩

end

/-- The stack was to grow, and `expand_stack` refused. -/
def GrowthRefused (cur : Current) (s : MmStruct) (start : Nat) : Prop :=
  ∃ vma, findVma s start = some vma ∧ (s.mem vma).vmStart > start ∧
    (s.mem vma).vmFlags &&& vmGrowsdown ≠ 0 ∧ (expandStack cur s vma start).2 ≠ .ok

/-- What `verify_area` leaves behind: the same state, or the one after the growth of an area. -/
def Grown (cur : Current) (s s' : MmStruct) (start : Nat) : Prop :=
  s' = s ∨ ∃ vma, findVma s start = some vma ∧ (s.mem vma).vmFlags &&& vmGrowsdown ≠ 0 ∧
    expandStack cur s vma start = (s', .ok)

/-- `verify_area` answers for the areas that are there after it. -/
def Exact (cur : Current) (wpWorksOk : Bool) (s : MmStruct) (ps : List VmPtr) (type : VerifyType)
    (start size : Nat) : Prop :=
  ∃ s' r, verifyArea cur wpWorksOk false s type start size = (s', r) ∧
    AreaList s' ps ∧ Grown cur s s' start ∧
    ((r = .ok ∧ start + size < 2 ^ 32 ∧
        ∀ b, start ≤ b → b < start + size → Allowed s' ps type.flag b) ∨
      (r = .efault ∧ (GrowthRefused cur s start ∨
        ∃ b, start ≤ b ∧ b < start + size ∧ ¬Allowed s' ps type.flag b)))

/-- The pages are looked at by hand: the first byte is in a writable area, or in the page down to
which one may grow. -/
def ByHand (cur : Current) (wpWorksOk : Bool) (s : MmStruct) (type : VerifyType) (start : Nat) :
    Prop :=
  wpWorksOk = false ∧ type = .verifyWrite ∧ ∃ vma, findVma s start = some vma ∧
    (s.mem vma).vmFlags &&& vmWrite ≠ 0 ∧
    (start < (s.mem vma).vmStart →
      (s.mem vma).vmFlags &&& vmGrowsdown ≠ 0 ∧ MayGrow cur s vma start)

section
variable {cur : Current} {wpWorksOk : Bool} {type : VerifyType} (h : AreaList s ps)
  (haligned : ∀ q ∈ ps, pageSize ∣ (s.mem q).vmStart ∧ pageSize ∣ (s.mem q).vmEnd)
  (hsize : 1 ≤ size) (hword : size < 2 ^ 32)
include h haligned hsize hword

theorem exact_of_sum
    (hsum : ByHand cur wpWorksOk s type start → size - 1 + start % pageSize < 2 ^ 32) :
    Exact cur wpWorksOk s ps type start size := by
  unfold Exact verifyArea
  rw [if_neg (by simp; omega)]
  -- The first byte is in no area.
  have hout : (∀ p ∈ ps, ¬((s.mem p).vmStart ≤ start ∧ start < (s.mem p).vmEnd)) →
      ∃ b, start ≤ b ∧ b < start + size ∧ ¬Allowed s ps type.flag b := by
    intro hnone
    refine ⟨start, le_rfl, by omega, ?_⟩
    rintro ⟨q, hq, hlo, hhi, -⟩
    exact hnone q hq ⟨hlo, hhi⟩
  obtain ⟨hfind, hnone⟩ | ⟨l, p, l', rfl, hfind, hhi, hl⟩ := h.findVma_cases start
  · rw [hfind]
    refine ⟨s, .efault, rfl, h, .inl rfl, .inr ⟨rfl, .inr (hout fun p hp hin => ?_)⟩⟩
    have hle := hnone p hp
    omega
  · rw [hfind]
    dsimp only
    split
    next hbelow =>
      split
      next hfixed =>
        refine ⟨s, .efault, rfl, h, .inl rfl, .inr ⟨rfl, .inr (hout fun q hq hin => ?_)⟩⟩
        rcases mem_append.mp hq with hql | hq
        · have hle := hl q hql
          omega
        · rcases mem_cons.mp hq with rfl | hqr
          · omega
          · have hle := h.le_right hqr
            omega
      next hgrows =>
        obtain ⟨-, hrefused⟩ | ⟨hmay, s', hgrown, hlist, hself, hother⟩ :=
          expandStack_list h haligned cur hbelow hl
        · rw [hrefused]
          refine ⟨s, .efault, rfl, h, .inl rfl, .inr ⟨rfl, .inl ⟨p, hfind, hbelow, hgrows, ?_⟩⟩⟩
          rw [hrefused]
          exact Errno.noConfusion
        · rw [hgrown]
          have hstart : (s'.mem p).vmStart = pageMask start := congrArg VmArea.vmStart hself
          have hend : (s'.mem p).vmEnd = (s.mem p).vmEnd := by rw [hself, grownDown]
          have hflags : (s'.mem p).vmFlags = (s.mem p).vmFlags := by rw [hself, grownDown]
          have haligned' : ∀ q ∈ l ++ p :: l',
              pageSize ∣ (s'.mem q).vmStart ∧ pageSize ∣ (s'.mem q).vmEnd := by
            intro q hq
            by_cases hqp : q = p
            · rw [hqp, hstart, hend]
              exact ⟨Nat.dvd_mul_left .., (haligned p (by simp)).2⟩
            · rw [hother q hqp]
              exact haligned q hq
          have hmask : pageMask start ≤ start := Nat.div_mul_le_self ..
          have hverdict := goodArea_verdict hlist haligned' (by omega) (by omega) hsize hword
            fun hwp htype hon => hsum ⟨hwp, htype, p, hfind, hflags ▸ hon, fun _ => ⟨hgrows, hmay⟩⟩
          refine ⟨s', _, rfl, hlist, .inr ⟨p, hfind, hgrows, hgrown⟩, ?_⟩
          exact hverdict.imp id fun hbad => ⟨hbad.1, .inr hbad.2⟩
    next habove =>
      have hverdict := goodArea_verdict h haligned (by omega) hhi hsize hword
        fun hwp htype hon => hsum ⟨hwp, htype, p, hfind, hon, fun hlt => absurd hlt habove⟩
      refine ⟨s, _, rfl, h, .inl rfl, ?_⟩
      exact hverdict.imp id fun hbad => ⟨hbad.1, .inr hbad.2⟩

omit h haligned in
/-- If the sum wraps it is less than a page, and one page is looked at. -/
theorem checkWpFaultByHand_wraps (hsum : 2 ^ 32 ≤ size - 1 + start % pageSize) (vma : VmPtr) :
    checkWpFaultByHand s vma start size = .ok := by
  have hmod := Nat.mod_lt start (show 0 < pageSize by decide)
  have hpage : pageSize = 4096 := rfl
  have hzero : wrap (size - 1 + start % pageSize) / pageSize = 0 := by
    rw [wrap, Nat.mod_eq_sub_mod hsum, Nat.mod_eq_of_lt (by omega)]
    exact Nat.div_eq_of_lt (by omega)
  unfold checkWpFaultByHand
  dsimp only
  rw [wordSub_of_le hsize hword, hzero]
  rfl

theorem verifyArea_wrapped (hhand : ByHand cur wpWorksOk s type start)
    (hsum : 2 ^ 32 ≤ size - 1 + start % pageSize) :
    (verifyArea cur wpWorksOk false s type start size).2 = .ok := by
  obtain ⟨rfl, rfl, vma, hfind, hon, hgrow⟩ := hhand
  obtain ⟨hnone, -⟩ | ⟨l, p, l', rfl, hfind', -, hl⟩ := h.findVma_cases start
  · cases hnone.symm.trans hfind
  cases hfind'.symm.trans hfind
  have hwrap : ∀ s', (s'.mem vma).vmFlags = (s.mem vma).vmFlags →
      goodArea false s' .verifyWrite vma start size = .ok := by
    intro s' hflags
    rw [goodArea, hflags, if_neg hon, if_pos Bool.false_ne_true]
    exact checkWpFaultByHand_wraps hsize hword hsum vma
  unfold verifyArea
  rw [if_neg (by simp; omega), hfind]
  dsimp only
  split
  next hbelow =>
    obtain ⟨hgrows, hmay⟩ := hgrow hbelow
    obtain ⟨hnot, -⟩ | ⟨-, s', hgrown, -, hself, -⟩ := expandStack_list h haligned cur hbelow hl
    · exact absurd hmay hnot
    · rw [if_neg hgrows, hgrown]
      exact hwrap s' (by rw [hself, grownDown])
  next => exact hwrap s rfl

/-- `verify_area` is exact unless the pages are looked at by hand and their sum wraps. -/
theorem verifyArea_exact : Exact cur wpWorksOk s ps type start size ↔
    ¬(ByHand cur wpWorksOk s type start ∧ 2 ^ 32 ≤ size - 1 + start % pageSize) := by
  constructor
  · rintro ⟨s', r, heq, -, -, hverdict⟩ ⟨hhand, hsum⟩
    have hok := verifyArea_wrapped h haligned hsize hword hhand hsum
    rw [heq] at hok
    obtain ⟨-, hfits, -⟩ | ⟨hfault, -⟩ := hverdict
    · have hmod := Nat.mod_le start pageSize
      omega
    · cases hok.symm.trans hfault
  · intro hnot
    exact exact_of_sum h haligned hsize hword fun hhand =>
      Nat.not_le.mp fun hsum => hnot ⟨hhand, hsum⟩

end

end

/-! ## Two pages -/

/-- Half of each page is written to. -/
theorem verifyArea_exact_twoPages :
    (verifyArea richTask false false twoPages .verifyWrite 0x10800 0x1000).2 = .ok ∧
      ∃ s' ps, AreaList s' ps ∧
        ∀ b, 0x10800 ≤ b → b < 0x10800 + 0x1000 → Allowed s' ps vmWrite b := by
  have hok : (verifyArea richTask false false twoPages .verifyWrite 0x10800 0x1000).2 = .ok := by
    decide
  obtain ⟨ps, hcounted⟩ := reachable_counted twoPages_reachable
  have hexact : Exact richTask false twoPages ps .verifyWrite 0x10800 0x1000 :=
    (verifyArea_exact hcounted.list
      (fun q hq => ⟨(hcounted.user_word hq).1.1, (hcounted.user_word hq).2.1⟩)
      (by decide) (by decide)).mpr fun hwrap => absurd hwrap.2 (by decide)
  obtain ⟨s', r, heq, hlist, -, hgood | hbad⟩ := hexact
  · exact ⟨hok, s', ps, hlist, hgood.2.2⟩
  · rw [heq, hbad.1] at hok
    cases hok

/-- The size is so large that its sum with the place in the page wraps: one page is looked at,
and the range is accepted though it wraps, and though it goes on behind the two pages. -/
theorem verifyArea_wraps :
    addressSpace.Reachable twoPages ∧
      (verifyArea richTask false false twoPages .verifyWrite 0x10fff 0xffffffff).2 = .ok ∧
      2 ^ 32 ≤ 0x10fff + 0xffffffff ∧
      (twoPages.mmapAvl.inorder.all fun p => (twoPages.mem p).vmEnd ≤ 0x12000) = true :=
  ⟨twoPages_reachable, by decide, by decide, by decide⟩

end Sbckernel.Mm
