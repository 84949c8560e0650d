import Sbckernel.Proofs.TimerWheel

/-!
# Timers and the wrap of `jiffies`

`internal_add_timer` goes by the difference of two words, which does not see where `jiffies`
wraps, and for timers that are not near also by the words themselves. The distance alone decides
where the comparison `expires < timer_jiffies` is right about what is past.
-/

namespace Sbckernel.Kernel.Wheel

variable {τ : Type}

/-- The ticks that a slot of `tvecs[n]` does not tell apart. -/
def stride (n : Nat) : Nat := if n = 0 then 1 else 2 ^ shift n

/-- The ticks from `T` on until `run_timer_list` comes to slot `i` of `tvecs[n]`. -/
def ticksTo (T : ULong) (n i : Nat) : Nat :=
  (i * stride n + 2 ^ 32 - T.toNat) % (stride n * if n = 0 then 256 else 64)

theorem ticksTo_slotOf (e T : ULong) {d : Nat} (hd : (e - T).toNat = d) :
    ticksTo T (level d) (slotOf (level d) e.toNat) = d - e.toNat % stride (level d) := by
  rw [BitVec.toNat_sub] at hd
  have hT := T.isLt
  have hspec := level_spec (d := d) (by omega)
  generalize level d = n at hspec
  obtain ⟨rfl, hnear⟩ | ⟨hn, h5, hlo, hhi⟩ := hspec
  · simp only [ticksTo, slotOf, stride, if_pos]
    omega
  · simp only [ticksTo, slotOf, stride, if_neg hn]
    obtain rfl | rfl | rfl | rfl : n = 1 ∨ n = 2 ∨ n = 3 ∨ n = 4 := by omega
    all_goals
      simp only [shift, tvrBits, tvnBits] at hlo hhi ⊢
      omega

section Filed
variable {w : Wheel τ} {t : τ} {n i n' i' d : Nat}

theorem insertTimer_ne : w.insertTimer t n i ≠ w := by
  intro heq
  have hslot := slot_insertTimer (w := w) (t := t) (n := n) (i := i) n i
  rw [heq, if_pos ⟨rfl, rfl⟩] at hslot
  exact List.cons_ne_self _ _ hslot.symm

theorem insertTimer_inj (heq : w.insertTimer t n i = w.insertTimer t n' i') : n = n' ∧ i = i' := by
  have hslot := slot_insertTimer (w := w) (t := t) (n := n) (i := i) n i
  rw [if_pos ⟨rfl, rfl⟩, heq, slot_insertTimer] at hslot
  by_contra hne
  rw [if_neg hne] at hslot
  exact List.cons_ne_self _ _ hslot.symm

/-- A timer that the comparison is wrong about is filed as past when it is ahead, and when it is
past in `tv5` or nowhere. -/
theorem internalAddTimer_of_not_inOrder (h : ¬InOrder (w.expires t) w.timerJiffies)
    (hd : (w.expires t - w.timerJiffies).toNat = d) :
    0 < d ∧ d < 2 ^ 31 ∧ w.internalAddTimer t = w.insertTimer t 0 (w.index 0) ∨
      2 ^ 31 ≤ d ∧
        (w.internalAddTimer t = w ∨ ∃ i, w.internalAddTimer t = w.insertTimer t 4 i) := by
  rw [InOrder, hd, not_or] at h
  obtain ⟨hfar, hwrong⟩ := h
  simp only [internalAddTimer, hd, vector_bounds]
  rw [if_neg (by omega), if_neg (by omega), if_neg (by omega), if_neg hfar]
  split
  next hlt =>
    refine .inl ⟨by omega, not_le.mp fun hle => hwrong ⟨fun _ => hle, fun _ => hlt⟩, rfl⟩
  next hlt =>
    refine .inr ⟨not_lt.mp fun hsmall => hwrong ⟨fun h => absurd h hlt, fun h => by omega⟩, ?_⟩
    split
    · exact .inr ⟨_, rfl⟩
    · exact .inl rfl

/-- `internal_add_timer` files the timer in slot `i` of `tvecs[n]`: not as past when it is ahead,
and in the slot that runs next when it is past. -/
def Filed (w : Wheel τ) (t : τ) (n i : Nat) : Prop :=
  let d := (w.expires t - w.timerJiffies).toNat
  w.internalAddTimer t = w.insertTimer t n i ∧
    (0 < d → d < 2 ^ 31 → ¬(n = 0 ∧ i = w.index 0)) ∧ (2 ^ 31 ≤ d → n = 0 ∧ i = w.index 0)

theorem Filed.inOrder (h : Filed w t n i) : InOrder (w.expires t) w.timerJiffies := by
  obtain ⟨heq, hahead, hpast⟩ := h
  by_contra hwrong
  obtain ⟨hpos, hlt, hcur⟩ | ⟨hge, hself | ⟨j, htv5⟩⟩ := internalAddTimer_of_not_inOrder hwrong rfl
  · exact hahead hpos hlt (insertTimer_inj (heq.symm.trans hcur))
  · exact insertTimer_ne (heq.symm.trans hself)
  · have h4 := (insertTimer_inj (heq.symm.trans htv5)).1
    rw [(hpast hge).1] at h4
    cases h4

theorem InOrder.filed (h : InOrder (w.expires t) w.timerJiffies)
    (hi : w.index 0 = w.timerJiffies.toNat % 256)
    (hd : (w.expires t - w.timerJiffies).toNat = d) :
    if d < 2 ^ 31 then Filed w t (level d) (slotOf (level d) (w.expires t).toNat)
    else Filed w t 0 (w.index 0) := by
  have heq := internalAddTimer_eq h hd
  simp only [Filed, hd]
  split
  next hlt =>
    rw [if_pos hlt] at heq
    refine ⟨heq, fun hpos _ ⟨hn, hslot⟩ => ?_, fun hle => absurd hlt (not_lt.mpr hle)⟩
    obtain ⟨_, hnear⟩ | ⟨hn', _⟩ := level_spec (d := d) (by omega)
    · rw [hn, slotOf, if_pos rfl, hi] at hslot
      rw [BitVec.toNat_sub] at hd
      omega
    · exact hn' hn
  next hge =>
    rw [if_neg hge] at heq
    exact ⟨heq, fun _ hlt => absurd hlt hge, fun _ => ⟨trivial, trivial⟩⟩

theorem mod_stride_le (hd : d < 2 ^ 32) (x : Nat) : x % stride (level d) ≤ d := by
  obtain ⟨hn, _⟩ | ⟨hn, _, hlo, _⟩ := level_spec hd
  · rw [stride, if_pos hn, Nat.mod_one]
    exact Nat.zero_le d
  · rw [stride, if_neg hn]
    exact (Nat.mod_lt x (Nat.two_pow_pos _)).le.trans hlo

end Filed

/-- Both wheels file the timer in the same vector, and in slots that are equally far away. -/
def Alike (w w' : Wheel τ) (t : τ) : Prop :=
  ∃ n i i', Filed w t n i ∧ Filed w' t n i' ∧
    ticksTo w'.timerJiffies n i' = ticksTo w.timerJiffies n i

/-- The slots of a timer ahead and of the same timer `c` ticks later are equally far away when `c`
is a multiple of what their vector tells apart, and only then. -/
theorem ticksTo_shifted {e T e' T' c : ULong} {d : Nat} (he : e' = e + c)
    (hd : (e - T).toNat = d) (hd' : (e' - T').toNat = d) :
    ticksTo T' (level d) (slotOf (level d) e'.toNat) =
      ticksTo T (level d) (slotOf (level d) e.toNat) ↔ stride (level d) ∣ c.toNat := by
  have hd32 : d < 2 ^ 32 := hd ▸ (e - T).isLt
  have hdvd : stride (level d) ∣ 2 ^ 32 := by
    rw [stride, level]
    split_ifs <;> decide
  have hmod : e'.toNat % stride (level d) = (e.toNat + c.toNat) % stride (level d) := by
    rw [he, BitVec.toNat_add, Nat.mod_mod_of_dvd _ hdvd]
  have hle := mod_stride_le hd32 e.toNat
  have hle' := mod_stride_le hd32 (e.toNat + c.toNat)
  rw [ticksTo_slotOf e T hd, ticksTo_slotOf e' T' hd', hmod]
  constructor
  · intro heq
    have hcongr : e.toNat + c.toNat ≡ e.toNat + 0 [MOD stride (level d)] := by
      rw [Nat.ModEq, add_zero]
      omega
    exact (Nat.modEq_zero_iff_dvd).mp (Nat.ModEq.add_left_cancel' _ hcongr)
  · intro hc
    rw [Nat.add_mod, Nat.mod_eq_zero_of_dvd hc, add_zero, Nat.mod_mod]

/-- A timer and the same timer `c` ticks later, on either side of a wrap, are filed alike, in the
right vector and not dropped, exactly when the comparison is right about both and, for a timer
ahead, `c` is a multiple of what its vector tells apart. -/
theorem placement_wraps (w w' : Wheel τ) (t : τ) (c : ULong)
    (hT : w'.timerJiffies = w.timerJiffies + c) (he : w'.expires t = w.expires t + c)
    (hi : w.index 0 = w.timerJiffies.toNat % 256)
    (hi' : w'.index 0 = w'.timerJiffies.toNat % 256) :
    Alike w w' t ↔
      InOrder (w.expires t) w.timerJiffies ∧ InOrder (w'.expires t) w'.timerJiffies ∧
        ((w.expires t - w.timerJiffies).toNat < 2 ^ 31 →
          stride (level (w.expires t - w.timerJiffies).toNat) ∣ c.toNat) := by
  generalize hd : (w.expires t - w.timerJiffies).toNat = d
  have hd' : (w'.expires t - w'.timerJiffies).toNat = d := by
    rw [he, hT, add_sub_add_right_eq_sub, hd]
  constructor
  · rintro ⟨n, i, i', hfiled, hfiled', hticks⟩
    refine ⟨hfiled.inOrder, hfiled'.inOrder, fun hlt => ?_⟩
    have hplace := internalAddTimer_eq hfiled.inOrder hd
    have hplace' := internalAddTimer_eq hfiled'.inOrder hd'
    rw [if_pos hlt, hfiled.1] at hplace
    rw [if_pos hlt, hfiled'.1] at hplace'
    obtain ⟨rfl, rfl⟩ := insertTimer_inj hplace
    obtain ⟨_, rfl⟩ := insertTimer_inj hplace'
    exact (ticksTo_shifted he hd hd').mp hticks
  · rintro ⟨hord, hord', hc⟩
    have hfiled := hord.filed hi hd
    have hfiled' := hord'.filed hi' hd'
    by_cases hlt : d < 2 ^ 31
    · rw [if_pos hlt] at hfiled hfiled'
      exact ⟨_, _, _, hfiled, hfiled', (ticksTo_shifted he hd hd').mpr (hc hlt)⟩
    · rw [if_neg hlt] at hfiled hfiled'
      refine ⟨0, _, _, hfiled, hfiled', ?_⟩
      simp only [hi, hi', ticksTo, stride, if_pos]
      omega

/-- An empty wheel at `T`, and one timer that expires at `e`. -/
def emptyAt (T e : ULong) : Wheel Unit :=
  ⟨fun _ => ⟨T.toNat % 256, fun _ => []⟩, T, fun _ => e⟩

theorem placement_wraps_ahead : Alike (emptyAt 0 300) (emptyAt 0xffffff00 44) () := by
  refine (placement_wraps (emptyAt 0 300) (emptyAt 0xffffff00 44) () 0xffffff00
    rfl rfl rfl rfl).mpr ⟨.inl ?_, .inl ?_, fun _ => ?_⟩
  all_goals decide

/-- A timer 2^26 ticks ahead is filed as past where `jiffies` wraps, and in `tv5` elsewhere. One
that has just expired is dropped. Slots of `tv2` on 256 ticks are not all as far away. -/
theorem misplaced_at_wrap :
    (emptyAt 0xfc000000 0).internalAddTimer () = (emptyAt 0xfc000000 0).insertTimer () 0 0 ∧
    (emptyAt 0 0x4000000).internalAddTimer () = (emptyAt 0 0x4000000).insertTimer () 4 1 ∧
    (emptyAt 0 0xffffffff).internalAddTimer () = emptyAt 0 0xffffffff ∧
    (emptyAt 0 300).internalAddTimer () = (emptyAt 0 300).insertTimer () 1 1 ∧
    (emptyAt 1 301).internalAddTimer () = (emptyAt 1 301).insertTimer () 1 1 ∧
    ticksTo 0 1 1 = 256 ∧ ticksTo 1 1 1 = 255 :=
  ⟨rfl, rfl, rfl, rfl, rfl, rfl, rfl⟩

end Sbckernel.Kernel.Wheel
