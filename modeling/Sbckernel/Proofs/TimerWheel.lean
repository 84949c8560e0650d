import Sbckernel.Kernel.Timer

/-!
# Where the timer wheel keeps its timers

Every pending timer has a due time: its expiry, or `timer_jiffies` when it was
added with an expiry already past. `WheelOk` says where a timer with a given
due time may be filed. In `tv1` the due time is within the next 256 ticks and
the slot is its low byte. In a higher vector of granularity `b` the due time
divided by `b` lies in a window of 64 that starts at the next slot to be
cascaded, and the slot is its residue. So no two different quotients share a
slot, and when a slot comes up for cascading everything in it falls due
before the slot after it.

The start of a vector's window depends on whether the current tick's cascade
has reached it. The parameter `m` says how far the cascade is: vectors below
`m` are past the current tick, the others still wait for it, and the two
readings differ only where `b` divides `timer_jiffies`. Between iterations `m`
is 1, while timers are called it is 5, and `cascade_timers` moves it by one.
-/

namespace Sbckernel.Kernel

open Function List

namespace Wheel

variable {τ : Type} {n T D i m b m' d : Nat} {t : τ} {w' : Wheel τ}

/-! ## The small operations -/

section Fields

variable (w : Wheel τ) (t : τ) (n i : Nat) (l : List τ)

@[simp] theorem slot_setSlot (m j : Nat) :
    (w.setSlot n i l).slot m j = if m = n ∧ j = i then l else w.slot m j := by
  simp only [slot, setSlot]
  by_cases hm : m = n
  · subst hm
    by_cases hj : j = i <;> simp [hj]
  · simp [hm]

@[simp] theorem slot_setIndex (m j : Nat) : (w.setIndex n i).slot m j = w.slot m j := by
  simp only [slot, setIndex]
  split <;> rfl

@[simp] theorem index_setSlot (m : Nat) : (w.setSlot n i l).index m = w.index m := by
  simp only [index, setSlot]
  split <;> rfl

@[simp] theorem index_setIndex (m : Nat) :
    (w.setIndex n i).index m = if m = n then i else w.index m := by
  simp only [index, setIndex]
  split <;> rfl

@[simp] theorem slot_insertTimer (m j : Nat) :
    (w.insertTimer t n i).slot m j = if m = n ∧ j = i then t :: w.slot m j else w.slot m j := by
  rw [insertTimer, slot_setSlot]
  split
  · next h => rw [h.1, h.2]
  · rfl

theorem mem_insertTimer {u : τ} {j : Nat} : u ∈ (w.insertTimer t n i).slot m j ↔
    (u = t ∧ m = n ∧ j = i) ∨ u ∈ w.slot m j := by
  rw [slot_insertTimer]
  split
  · next h => simp [h]
  · next h => simp [h]

@[simp] theorem index_insertTimer (m : Nat) : (w.insertTimer t n i).index m = w.index m :=
  index_setSlot ..

end Fields

/-! ## Placement -/

/-- The granularity of `tvecs[n]` is `2 ^ shift n`. -/
def shift (n : Nat) : Nat := tvrBits + (n - 1) * tvnBits

/-- The window of `tvecs[n]` starts here when the cascade of tick `T` is at
vector `m`. -/
def windowStart (m T n : Nat) : Nat :=
  if n < m then T / 2 ^ shift n + 1 else (T + 2 ^ shift n - 1) / 2 ^ shift n

theorem windowStart_ge (h : m ≤ n) :
    windowStart m T n = (T + 2 ^ shift n - 1) / 2 ^ shift n :=
  if_neg (by omega)

theorem windowStart_lt (h : n < m) : windowStart m T n = T / 2 ^ shift n + 1 :=
  if_pos h

theorem ceil_of_dvd (hb : 0 < b) (hd : b ∣ T) : (T + b - 1) / b = T / b := by
  obtain ⟨q, rfl⟩ := hd
  rw [Nat.add_sub_assoc hb, Nat.mul_add_div hb, Nat.mul_div_cancel_left _ hb,
    Nat.div_eq_of_lt (by omega), Nat.add_zero]

theorem ceil_of_not_dvd (hb : 0 < b) (hd : ¬ b ∣ T) : (T + b - 1) / b = T / b + 1 := by
  have hdiv := Nat.div_add_mod T b
  have hlt := Nat.mod_lt T hb
  have hsplit : T + b - 1 = b * (T / b + 1) + (T % b - 1) := by
    rw [Nat.mul_add, Nat.mul_one]
    omega
  rw [hsplit, Nat.mul_add_div hb, Nat.div_eq_of_lt (show T % b - 1 < b by omega), Nat.add_zero]

/-- A timer due at `D` may be in slot `i` of `tvecs[n]`. -/
def Placed (m T n i D : Nat) : Prop :=
  if n = 0 then D % 256 = i ∧ T ≤ D ∧ D < T + 256
  else n < 5 ∧ D / 2 ^ shift n % 64 = i ∧ windowStart m T n ≤ D / 2 ^ shift n ∧
    D / 2 ^ shift n < windowStart m T n + 64

theorem placed_zero : Placed m T 0 i D ↔ D % 256 = i ∧ T ≤ D ∧ D < T + 256 := by
  rw [Placed, if_pos rfl]

theorem placed_pos (hn : n ≠ 0) :
    Placed m T n i D ↔ n < 5 ∧ D / 2 ^ shift n % 64 = i ∧
      windowStart m T n ≤ D / 2 ^ shift n ∧ D / 2 ^ shift n < windowStart m T n + 64 := by
  rw [Placed, if_neg hn]

theorem Placed.range (h : Placed m T n i D) : n < noofTvecs ∧ i < tvrSize := by
  have h5 : noofTvecs = 5 := rfl
  have h256 : tvrSize = 256 := rfl
  by_cases hn : n = 0
  · subst hn
    rw [placed_zero] at h
    omega
  · rw [placed_pos hn] at h
    omega

theorem Placed.congr (h : Placed m T n i D)
    (hstart : n ≠ 0 → n < 5 → windowStart m' T n = windowStart m T n) : Placed m' T n i D := by
  by_cases hn : n = 0
  · subst hn
    exact h
  · rw [placed_pos hn] at h ⊢
    rwa [hstart hn h.1]

/-- A due time more than one but less than 64 slots away is in the window,
wherever the cascade is. -/
theorem placed_of_range (hn : n ≠ 0) (h5 : n < 5) (hlo : T + 2 ^ shift n ≤ D)
    (hhi : D < T + 2 ^ shift n * 64) : Placed m T n (D / 2 ^ shift n % 64) D := by
  have hb : 0 < 2 ^ shift n := Nat.two_pow_pos _
  rw [placed_pos hn]
  have hlow : T / 2 ^ shift n + 1 ≤ D / 2 ^ shift n := by
    rw [← Nat.add_div_right _ hb]
    exact Nat.div_le_div_right hlo
  have hceil : (T + 2 ^ shift n - 1) / 2 ^ shift n ≤ T / 2 ^ shift n + 1 := by
    rw [← Nat.add_div_right _ hb]
    exact Nat.div_le_div_right (by omega)
  have hup : D / 2 ^ shift n < (T + 2 ^ shift n - 1) / 2 ^ shift n + 64 := by
    rw [← Nat.add_mul_div_left _ _ hb]
    refine Nat.lt_of_lt_of_le (Nat.lt_succ_self _) ?_
    rw [Nat.succ_eq_add_one, ← Nat.add_div_right _ hb]
    exact Nat.div_le_div_right (by omega)
  unfold windowStart
  split <;> omega

/-- The slots are filed by the words' low bits. -/
theorem and_tvrMask (x : Nat) : x &&& tvrMask = x % 256 :=
  Nat.and_two_pow_sub_one_eq_mod x 8

theorem and_tvnMask (x : Nat) : x &&& tvnMask = x % 64 :=
  Nat.and_two_pow_sub_one_eq_mod x 6

section
variable {w : Wheel τ}

/-- The vector for a timer `d` ticks ahead. -/
def level (d : Nat) : Nat :=
  if d < 2 ^ 8 then 0 else if d < 2 ^ 14 then 1 else if d < 2 ^ 20 then 2
  else if d < 2 ^ 26 then 3 else 4

/-- The slot of `tvecs[n]` for a timer that expires at `e`. -/
def slotOf (n e : Nat) : Nat := if n = 0 then e % 256 else e / 2 ^ shift n % 64

theorem level_spec (hd : d < 2 ^ 32) : level d = 0 ∧ d < 256 ∨
    level d ≠ 0 ∧ level d < 5 ∧ 2 ^ shift (level d) ≤ d ∧ d < 2 ^ shift (level d) * 64 := by
  simp only [level, shift, tvrBits, tvnBits]
  split_ifs <;> simp <;> omega

/-- The numbers that `internal_add_timer` compares the distance with. -/
theorem vector_bounds : tvrSize = 2 ^ 8 ∧ 1 <<< (tvrBits + tvnBits) = 2 ^ 14 ∧
    1 <<< (tvrBits + 2 * tvnBits) = 2 ^ 20 ∧ 1 <<< (tvrBits + 3 * tvnBits) = 2 ^ 26 :=
  ⟨rfl, rfl, rfl, rfl⟩

/-- Whether `expires < timer_jiffies` is right about a timer that is not near. -/
def InOrder (expires timerJiffies : ULong) : Prop :=
  (expires - timerJiffies).toNat < 2 ^ 26 ∨
    (expires < timerJiffies ↔ 2 ^ 31 ≤ (expires - timerJiffies).toNat)

/-- Where `internal_add_timer` files a timer: by its distance alone. -/
theorem internalAddTimer_eq (h : InOrder (w.expires t) w.timerJiffies)
    (hd : (w.expires t - w.timerJiffies).toNat = d) :
    w.internalAddTimer t =
      if d < 2 ^ 31 then w.insertTimer t (level d) (slotOf (level d) (w.expires t).toNat)
      else w.insertTimer t 0 (w.index 0) := by
  rw [InOrder, hd] at h
  simp only [internalAddTimer, hd, and_tvrMask, and_tvnMask, Nat.shiftRight_eq_div_pow, level,
    vector_bounds]
  iterate 4
    split
    · rw [if_pos (by omega)]
      rfl
  have hpast := h.resolve_left (by assumption)
  split
  next hlt => rw [if_neg (not_lt.mpr (hpast.mp hlt))]
  next hlt =>
    have hd := not_le.mp fun hd => hlt (hpast.mpr hd)
    rw [if_pos hd, if_pos (by omega)]
    rfl

/-- Where `internal_add_timer` files a timer: in a slot that is right for its
due time at any point of the cascade, and in a vector of smaller granularity
than the distance to it. -/
theorem internalAddTimer_spec (m : Nat) (hT : w.timerJiffies.toNat ≤ 2 ^ 31)
    (he : (w.expires t).toNat < 2 ^ 31) (hi : w.index 0 = w.timerJiffies.toNat % 256) :
    ∃ n i, w.internalAddTimer t = w.insertTimer t n i ∧
      Placed m w.timerJiffies.toNat n i (max (w.expires t).toNat w.timerJiffies.toNat) ∧
      (n ≠ 0 → w.timerJiffies.toNat ≤ (w.expires t).toNat) ∧
      ∀ k, k ≠ 0 → w.timerJiffies.toNat ≤ (w.expires t).toNat →
        (w.expires t).toNat < w.timerJiffies.toNat + 2 ^ shift k → n < k := by
  have hidx := BitVec.toNat_sub (w.expires t) w.timerJiffies
  have hord : InOrder (w.expires t) w.timerJiffies := .inr <| by
    rw [BitVec.lt_def]
    omega
  rw [internalAddTimer_eq hord hidx]
  generalize w.timerJiffies.toNat = T at *
  generalize (w.expires t).toNat = e at *
  rcases Nat.lt_or_ge e T with hlate | hpast
  · -- already past: the current slot
    rw [if_neg (by omega)]
    refine ⟨0, _, rfl, placed_zero.2 ?_, fun h => absurd rfl h, fun k hk h => absurd h (by omega)⟩
    omega
  · have hd : (2 ^ 32 - T + e) % 2 ^ 32 = e - T := by omega
    rw [hd, if_pos (by omega), Nat.max_eq_left hpast]
    refine ⟨_, _, rfl, ?_⟩
    generalize hn : level (e - T) = n
    obtain ⟨hn0, hnear⟩ | ⟨hn0, h5, hlo, hhi⟩ := hn ▸ level_spec (d := e - T) (by omega)
    · rw [hn0]
      exact ⟨placed_zero.2 ⟨rfl, hpast, by omega⟩, fun h => absurd rfl h,
        fun k hk _ _ => Nat.pos_of_ne_zero hk⟩
    · rw [slotOf, if_neg hn0]
      refine ⟨placed_of_range hn0 h5 (by omega) (by omega), fun _ => hpast, fun k hk _ h2 => ?_⟩
      have hlt : 2 ^ shift n < 2 ^ shift k := by omega
      have := (Nat.pow_lt_pow_iff_right (by decide : 1 < 2)).1 hlt
      simp only [shift, tvrBits, tvnBits] at this
      omega

end

/-! ## The invariant of the wheel -/

/-- The wheel holds exactly the timers that are due, each once and in its
place, when the cascade of the current tick is at vector `m`. -/
structure WheelOk (m : Nat) (due : τ → Option Nat) (w : Wheel τ) : Prop where
  time : w.timerJiffies.toNat ≤ 2 ^ 31
  index_zero : w.index 0 = w.timerJiffies.toNat % 256
  index_pos : ∀ n, n ≠ 0 → n < 5 →
    w.index n = windowStart m w.timerJiffies.toNat n % 64
  nodup : ∀ n i, (w.slot n i).Nodup
  unique : ∀ t n i n' i', t ∈ w.slot n i → t ∈ w.slot n' i' → n = n' ∧ i = i'
  placed : ∀ t n i, t ∈ w.slot n i → ∃ D, due t = some D ∧
    Placed m w.timerJiffies.toNat n i D ∧
    (n ≠ 0 → (w.expires t).toNat = D ∧ D < 2 ^ 31)
  complete : ∀ t D, due t = some D → ∃ n i, t ∈ w.slot n i

section WheelOk

variable {due : τ → Option Nat} {w : Wheel τ}

theorem wheelOk_init : WheelOk 1 (fun _ => none) (wheelInit τ) where
  time := Nat.zero_le _
  index_zero := rfl
  index_pos := by
    intro n hn h5
    show 0 = windowStart 1 0 n % 64
    rw [windowStart, if_neg (by omega), Nat.zero_add,
      Nat.div_eq_of_lt (Nat.sub_lt (Nat.two_pow_pos _) Nat.one_pos)]
  nodup := fun _ _ => nodup_nil
  unique := by simp [wheelInit, slot]
  placed := by simp [wheelInit, slot]
  complete := by simp

section
variable (h : WheelOk m due w)
include h

theorem WheelOk.pending_iff (t : τ) : w.Pending t ↔ (due t).isSome := by
  refine ⟨fun hp => ?_, fun hd => ?_⟩
  · obtain ⟨n, _, i, _, hm⟩ := hp
    obtain ⟨D, hD, _⟩ := h.placed t n i hm
    rw [hD]
    rfl
  · obtain ⟨D, hD⟩ := Option.isSome_iff_exists.1 hd
    obtain ⟨n, i, hm⟩ := h.complete t D hD
    obtain ⟨D', _, hpl, _⟩ := h.placed t n i hm
    exact ⟨n, hpl.range.1, i, hpl.range.2, hm⟩

theorem WheelOk.not_mem (ht : due t = none) (n i : Nat) : t ∉ w.slot n i := by
  intro hm
  obtain ⟨D, hD, _⟩ := h.placed t n i hm
  rw [ht] at hD
  cases hD

/-- A wheel with the same slots, another index or another time. -/
theorem WheelOk.move (hslot : ∀ n i, w'.slot n i = w.slot n i) (hexpires : w'.expires = w.expires)
    (htime : w'.timerJiffies.toNat ≤ 2 ^ 31) (hzero : w'.index 0 = w'.timerJiffies.toNat % 256)
    (hpos : ∀ n, n ≠ 0 → n < 5 → w'.index n = windowStart m' w'.timerJiffies.toNat n % 64)
    (hplaced : ∀ t n i D, t ∈ w.slot n i → Placed m w.timerJiffies.toNat n i D →
      Placed m' w'.timerJiffies.toNat n i D) : WheelOk m' due w' where
  time := htime
  index_zero := hzero
  index_pos := hpos
  nodup n i := hslot n i ▸ h.nodup n i
  unique := by
    simp only [hslot]
    exact h.unique
  placed t n i ht := by
    rw [hslot] at ht
    obtain ⟨D, hD, hpl, hexp⟩ := h.placed t n i ht
    exact ⟨D, hD, hplaced t n i D ht hpl, hexpires ▸ hexp⟩
  complete := by
    simp only [hslot]
    exact h.complete

theorem WheelOk.congr (hslot : ∀ n i, w'.slot n i = w.slot n i)
    (hindex : ∀ n, w'.index n = w.index n) (htime : w'.timerJiffies = w.timerJiffies)
    (hexpires : w'.expires = w.expires) : WheelOk m due w' := by
  refine h.move hslot hexpires (htime ▸ h.time) ?_ (fun n hn h5 => ?_) fun _ _ _ _ _ hpl =>
    htime ▸ hpl
  · rw [hindex, htime, h.index_zero]
  · rw [hindex, htime, h.index_pos n hn h5]

/-- Where no later vector's granularity divides the tick, the cascade is over. -/
theorem WheelOk.settled
    (hnd : ∀ n, m ≤ n → n < 5 → ¬ 2 ^ shift n ∣ w.timerJiffies.toNat) : WheelOk 5 due w := by
  have hsame : ∀ n, n < 5 →
      windowStart 5 w.timerJiffies.toNat n = windowStart m w.timerJiffies.toNat n := by
    intro n h5
    rw [windowStart_lt h5]
    rcases Nat.lt_or_ge n m with hlt | hge
    · rw [windowStart_lt hlt]
    · rw [windowStart_ge hge, ceil_of_not_dvd (Nat.two_pow_pos _) (hnd n hge h5)]
  refine h.move (fun _ _ => rfl) rfl h.time h.index_zero ?_ ?_
  · intro n hn h5
    rw [hsame n h5]
    exact h.index_pos n hn h5
  · exact fun t n i D _ hpl => hpl.congr fun _ => hsame n

/-- A timer in the current slot is due now. -/
theorem WheelOk.due_now (ht : t ∈ w.slot 0 (w.index 0)) :
    due t = some w.timerJiffies.toNat := by
  obtain ⟨D, hD, hpl, _⟩ := h.placed t 0 _ ht
  rw [placed_zero, h.index_zero] at hpl
  rw [hD]
  congr 1
  omega

theorem WheelOk.not_overdue (hD : due t = some D) : w.timerJiffies.toNat ≤ D := by
  obtain ⟨n, i, hm⟩ := h.complete t D hD
  obtain ⟨D', hD', hpl, _⟩ := h.placed t n i hm
  rw [hD] at hD'
  obtain rfl := Option.some.inj hD'
  by_cases hn : n = 0
  · subst hn
    exact (placed_zero.1 hpl).2.1
  · obtain ⟨_, _, hlo, _⟩ := (placed_pos hn).1 hpl
    have hb : 0 < 2 ^ shift n := Nat.two_pow_pos _
    have hge : (w.timerJiffies.toNat + 2 ^ shift n - 1) / 2 ^ shift n ≤ D / 2 ^ shift n := by
      refine Nat.le_trans ?_ hlo
      unfold windowStart
      split
      · rw [← Nat.add_div_right _ hb]
        exact Nat.div_le_div_right (by omega)
      · exact Nat.le_refl _
    have h1 := Nat.div_mul_le_self D (2 ^ shift n)
    have h2 := Nat.lt_div_mul_add hb (a := w.timerJiffies.toNat + 2 ^ shift n - 1)
    have h3 := Nat.mul_le_mul_right (2 ^ shift n) hge
    omega

end

/-- The end of an iteration whose slot has been emptied. -/
theorem WheelOk.advance (h : WheelOk 5 due w) (hT : w.timerJiffies.toNat < 2 ^ 31)
    (he : w.slot 0 (w.index 0) = []) : WheelOk 1 due w.advance := by
  have htime : w.advance.timerJiffies.toNat = w.timerJiffies.toNat + 1 := by
    show (w.timerJiffies + 1).toNat = _
    rw [BitVec.toNat_add]
    exact Nat.mod_eq_of_lt (by simp; omega)
  have hstart : ∀ n, n ≠ 0 → n < 5 → windowStart 1 (w.timerJiffies.toNat + 1) n =
      windowStart 5 w.timerJiffies.toNat n := by
    intro n hn h5
    have hb : 0 < 2 ^ shift n := Nat.two_pow_pos _
    rw [windowStart_lt h5, windowStart_ge (Nat.pos_of_ne_zero hn), ← Nat.add_div_right _ hb]
    congr 1
    omega
  have hidx : ∀ n, w.advance.index n =
      if n = 0 then (w.index 0 + 1) &&& tvrMask else w.index n := fun n => index_setIndex ..
  refine h.move (fun n i => slot_setIndex ..) rfl (by omega) ?_ ?_ ?_
  · rw [hidx, if_pos rfl, and_tvrMask, htime, h.index_zero]
    omega
  · intro n hn h5
    rw [hidx, if_neg hn, htime, hstart n hn h5]
    exact h.index_pos n hn h5
  · intro t n i D ht hpl
    rw [htime]
    by_cases hn : n = 0
    · subst hn
      have hne : i ≠ w.index 0 := by
        intro hi
        rw [hi, he] at ht
        cases ht
      rw [placed_zero] at hpl ⊢
      rw [h.index_zero] at hne
      omega
    · rw [placed_pos hn] at hpl ⊢
      rw [hstart n hn hpl.1]
      exact hpl

variable [DecidableEq τ]

theorem WheelOk.insertTimer (h : WheelOk m due w)
    (ht : due t = none) (hpl : Placed m w.timerJiffies.toNat n i D)
    (he : n ≠ 0 → (w.expires t).toNat = D ∧ D < 2 ^ 31) :
    WheelOk m (update due t (some D)) (w.insertTimer t n i) where
  time := h.time
  index_zero := by rw [index_insertTimer]; exact h.index_zero
  index_pos := by intro k hk h5; rw [index_insertTimer]; exact h.index_pos k hk h5
  nodup := by
    intro k j
    rw [slot_insertTimer]
    split
    · exact nodup_cons.2 ⟨h.not_mem ht k j, h.nodup k j⟩
    · exact h.nodup k j
  unique := by
    intro u k j k' j' hu hu'
    have := h.not_mem ht
    have := h.unique u k j k' j'
    simp only [mem_insertTimer] at hu hu'
    grind
  placed := by
    intro u k j hu
    rcases (mem_insertTimer ..).mp hu with ⟨rfl, rfl, rfl⟩ | hm
    · exact ⟨D, update_self .., hpl, he⟩
    · have hne : u ≠ t := fun he => h.not_mem ht k j (he ▸ hm)
      rw [update_of_ne hne]
      exact h.placed u k j hm
  complete := by
    intro u D' hu
    by_cases hut : u = t
    · exact ⟨n, i, (mem_insertTimer ..).mpr (.inl ⟨hut, rfl, rfl⟩)⟩
    · rw [update_of_ne hut] at hu
      obtain ⟨k, j, hm⟩ := h.complete u D' hu
      exact ⟨k, j, (mem_insertTimer ..).mpr (.inr hm)⟩

theorem WheelOk.detachTimer (h : WheelOk m due w) (t : τ) :
    WheelOk m (update due t none) (w.detachTimer t) where
  __ := h
  nodup := fun n i => (h.nodup n i).erase t
  unique := fun u n i n' i' hu hu' =>
    h.unique u n i n' i' (mem_of_mem_erase hu) (mem_of_mem_erase hu')
  placed := by
    intro u n i hu
    obtain ⟨hne, hm⟩ := (h.nodup n i).mem_erase_iff.1 hu
    rw [update_of_ne hne]
    exact h.placed u n i hm
  complete := by
    intro u D hu
    by_cases hut : u = t
    · subst hut
      rw [update_self] at hu
      cases hu
    · rw [update_of_ne hut] at hu
      obtain ⟨n, i, hm⟩ := h.complete u D hu
      exact ⟨n, i, (h.nodup n i).mem_erase_iff.2 ⟨hut, hm⟩⟩

/-- The invariant does not see the expiry of a timer that is not pending. -/
theorem WheelOk.setExpires (h : WheelOk m due w) (ht : due t = none) (e : ULong) :
    WheelOk m due { w with expires := fun u => if u = t then e else w.expires u } where
  __ := h
  placed := by
    intro u n i hu
    have hne : u ≠ t := fun he => h.not_mem ht n i (he ▸ hu)
    simp only [if_neg hne]
    exact h.placed u n i hu

theorem WheelOk.addTimer (h : WheelOk m due w) {e : ULong} (ht : due t = none)
    (he : e.toNat < 2 ^ 31) :
    WheelOk m (update due t (some (max e.toNat w.timerJiffies.toNat))) (w.addTimer t e) := by
  have h' := h.setExpires ht e
  obtain ⟨n, i, heq, hpl, hpast, _⟩ :=
    internalAddTimer_spec m h'.time (t := t) (by simpa using he) h'.index_zero
  simp only [if_pos] at hpl hpast
  rw [Wheel.addTimer, heq]
  refine h'.insertTimer ht hpl fun hn => ?_
  simp only [if_pos]
  rw [Nat.max_eq_left (hpast hn)]
  exact ⟨rfl, he⟩

/-! ## The cascade -/

/-- Emptying the slot that is due: each of its timers falls due before the next
slot of this vector and so moves to a finer one. The induction walks down the
list of the slot; what is left of it is still filed, what is behind has
moved. -/
theorem cascade_fold (hn : n ≠ 0) : ∀ (l : List τ) {w : Wheel τ},
    WheelOk m due (w.setSlot n i l) →
    (∀ t ∈ l, ∀ D, due t = some D → w.timerJiffies.toNat ≤ D ∧
      D < w.timerJiffies.toNat + 2 ^ shift n) →
    WheelOk m due ((l.foldl internalAddTimer w).setSlot n i []) ∧
      (l.foldl internalAddTimer w).timerJiffies = w.timerJiffies ∧
      ∀ k, (l.foldl internalAddTimer w).index k = w.index k := by
  intro l
  induction l with
  | nil => exact fun h _ => ⟨h, rfl, fun _ => rfl⟩
  | cons t l ih =>
    intro w h hl
    have hmem : t ∈ (w.setSlot n i (t :: l)).slot n i := by simp
    obtain ⟨D, hD, hplD, hexp⟩ := h.placed t n i hmem
    obtain ⟨hexpD, hD31⟩ := hexp hn
    have hexpw : (w.expires t).toNat = D := hexpD
    obtain ⟨hTD, hDlt⟩ := hl t mem_cons_self D hD
    have hidx : w.index 0 = w.timerJiffies.toNat % 256 := by
      have := h.index_zero
      rwa [index_setSlot] at this
    obtain ⟨n', i', heq, hpl, _, hless⟩ :=
      internalAddTimer_spec m (w := w) h.time (t := t) (hexpw ▸ hD31) hidx
    rw [hexpw, Nat.max_eq_left hTD] at hpl
    have hlt : n' < n := hless n hn (hexpw ▸ hTD) (hexpw ▸ hDlt)
    have hne : n' ≠ n := Nat.ne_of_lt hlt
    -- take `t` out of the slot, then file it anew
    have hdet : WheelOk m (update due t none) (w.setSlot n i l) := by
      refine (h.detachTimer t).congr (fun k j => ?_) (fun k => ?_) rfl rfl
      · show _ = ((w.setSlot n i (t :: l)).slot k j).erase t
        by_cases hkj : k = n ∧ j = i
        · simp [hkj]
        · rw [erase_of_not_mem fun hm => hkj (h.unique t k j n i hm hmem)]
          simp [hkj]
      · show _ = (w.setSlot n i (t :: l)).index k
        simp
    have hins := hdet.insertTimer (t := t) (update_self ..) hpl (fun _ => ⟨hexpw, hD31⟩)
    have hdue : update (update due t none) t (some D) = due := by
      rw [update_idem, ← hD, update_eq_self]
    rw [hdue] at hins
    have hins' : WheelOk m due ((w.internalAddTimer t).setSlot n i l) := by
      rw [heq]
      exact hins.congr (fun k j => by simp only [slot_setSlot, slot_insertTimer]; grind) (by simp)
        rfl rfl
    obtain ⟨hok, htime, hindex⟩ := ih hins' (by
      intro u hu D' hD'
      rw [heq]
      exact hl u (mem_cons_of_mem _ hu) D' hD')
    refine ⟨hok, htime.trans (by rw [heq]; rfl), fun k => ?_⟩
    rw [foldl_cons, hindex k, heq, index_insertTimer]

/-- One call of `cascade_timers`, on a vector whose granularity divides the
current tick. -/
theorem WheelOk.cascadeTimers (h : WheelOk n due w) (hn : n ≠ 0) (h5 : n < 5)
    (hd : 2 ^ shift n ∣ w.timerJiffies.toNat) :
    WheelOk (n + 1) due (w.cascadeTimers n) ∧
      (w.cascadeTimers n).timerJiffies = w.timerJiffies ∧
      (w.cascadeTimers n).index n = (w.timerJiffies.toNat / 2 ^ shift n + 1) % 64 := by
  have hb : 0 < 2 ^ shift n := Nat.two_pow_pos _
  generalize hT : w.timerJiffies.toNat = T at *
  have hstart : windowStart n T n = T / 2 ^ shift n := by
    rw [windowStart_ge (Nat.le_refl n), ceil_of_dvd hb hd]
  have hi : w.index n = T / 2 ^ shift n % 64 := by
    have := h.index_pos n hn h5
    rwa [hT, hstart] at this
  have hslot : ∀ t ∈ w.slot n (w.index n), ∀ D, due t = some D →
      w.timerJiffies.toNat ≤ D ∧ D < w.timerJiffies.toNat + 2 ^ shift n := by
    intro t ht D hD
    obtain ⟨D', hD', hpl, _⟩ := h.placed t n _ ht
    rw [hD] at hD'
    obtain rfl := Option.some.inj hD'
    rw [placed_pos hn, hT, hstart, hi] at hpl
    obtain ⟨_, hres, hlo, hhi⟩ := hpl
    -- one quotient in the window has this residue
    have hq : D / 2 ^ shift n = T / 2 ^ shift n := by omega
    have h1 := Nat.div_mul_le_self D (2 ^ shift n)
    have h2 := Nat.lt_div_mul_add hb (a := D)
    rw [hq, Nat.div_mul_cancel hd] at h1 h2
    omega
  have hstart' : WheelOk n due (w.setSlot n (w.index n) (w.slot n (w.index n))) :=
    h.congr (fun k j => by simp; grind) (by simp) rfl rfl
  obtain ⟨hok, htime, hindex⟩ := cascade_fold hn _ hstart' hslot
  have hother : ∀ k, k ≠ n → windowStart (n + 1) T k = windowStart n T k := by
    intro k hk
    unfold windowStart
    rcases Nat.lt_or_ge k n with hlt | hge
    · rw [if_pos hlt, if_pos (by omega)]
    · rw [if_neg (by omega), if_neg (by omega)]
  have hnew : windowStart (n + 1) T n = T / 2 ^ shift n + 1 := windowStart_lt (Nat.lt_succ_self n)
  have hnext : (w.index n + 1) &&& tvnMask = (T / 2 ^ shift n + 1) % 64 := by
    rw [and_tvnMask, hi]
    omega
  have htimeT : (w.cascadeTimers n).timerJiffies = w.timerJiffies := htime
  refine ⟨?_, htimeT, ?_⟩
  · refine hok.move (fun k j => slot_setIndex ..) rfl (htimeT ▸ h.time) ?_ ?_ ?_
    · rw [htimeT, Wheel.cascadeTimers, index_setIndex, if_neg (Ne.symm hn), index_setSlot, hindex]
      exact h.index_zero
    · intro k hk hk5
      rw [htimeT, hT, Wheel.cascadeTimers, index_setIndex]
      split
      · next hkn => rw [hkn, hnew, hnext]
      · next hkn =>
          rw [index_setSlot, hindex, hother k hkn, ← hT]
          exact h.index_pos k hk hk5
    · intro t k j D ht (hpl' : Placed n
        ((w.slot n (w.index n)).foldl internalAddTimer w).timerJiffies.toNat k j D)
      rw [htime, hT] at hpl'
      rw [htimeT, hT]
      by_cases hkn : k = n
      · subst hkn
        have hji : j ≠ w.index k := by
          intro hj
          subst hj
          simp at ht
        rw [placed_pos hn, hstart] at hpl'
        rw [placed_pos hn, hnew]
        omega
      · exact hpl'.congr fun _ _ => hother k hkn
  · rw [Wheel.cascadeTimers, index_setIndex, if_pos rfl, hnext]

theorem shift_succ (hn : n ≠ 0) : shift (n + 1) = shift n + 6 := by
  simp only [shift, tvrBits, tvnBits]
  omega

theorem dvd_of_le {k : Nat} (hkn : k ≤ n) (hd : 2 ^ shift n ∣ T) : 2 ^ shift k ∣ T := by
  refine Nat.dvd_trans (Nat.pow_dvd_pow 2 ?_) hd
  simp only [shift, tvrBits, tvnBits]
  omega

/-- The whole `do … while`: it goes on exactly while the granularity of the
next vector divides the tick. -/
theorem WheelOk.cascadeFrom : ∀ (left n : Nat) {w : Wheel τ}, WheelOk n due w → n ≠ 0 →
    left + n = 5 → 2 ^ shift n ∣ w.timerJiffies.toNat →
    WheelOk 5 due (w.cascadeFrom left n) ∧
      (w.cascadeFrom left n).timerJiffies = w.timerJiffies := by
  intro left
  induction left with
  | zero =>
    intro n w h hn hsum hd
    obtain rfl : n = 5 := by omega
    exact ⟨h, rfl⟩
  | succ left ih =>
    intro n w h hn hsum hd
    obtain ⟨hok, htime, hindex⟩ := h.cascadeTimers hn (by omega) hd
    have hb : 0 < 2 ^ shift n := Nat.two_pow_pos _
    -- the index is 1 when the slot just emptied was the first of its round
    have hdvd : (w.cascadeTimers n).index n = 1 ↔
        2 ^ shift (n + 1) ∣ (w.cascadeTimers n).timerJiffies.toNat := by
      rw [hindex, htime, shift_succ hn, Nat.pow_add]
      obtain ⟨q, hq⟩ := hd
      rw [hq, Nat.mul_div_cancel_left _ hb, Nat.mul_dvd_mul_iff_left hb]
      omega
    rw [Wheel.cascadeFrom]
    split
    · next hone =>
        obtain ⟨hok', htime'⟩ := ih (n + 1) hok (Nat.succ_ne_zero n) (by omega) (hdvd.1 hone)
        exact ⟨hok', htime'.trans htime⟩
    · next hone =>
        refine ⟨hok.settled fun k hk _ hdk => hone (hdvd.2 (dvd_of_le hk hdk)), htime⟩

theorem WheelOk.cascade (h : WheelOk 1 due w) :
    WheelOk 5 due w.cascade ∧ w.cascade.timerJiffies = w.timerJiffies := by
  have hs1 : 2 ^ shift 1 = 256 := rfl
  rw [Wheel.cascade]
  split
  · next h0 =>
      have hd : 2 ^ shift 1 ∣ w.timerJiffies.toNat := by
        rw [hs1]
        exact Nat.dvd_of_mod_eq_zero (h.index_zero.symm.trans h0)
      exact h.cascadeFrom 4 1 (by decide) rfl hd
  · next h0 =>
      refine ⟨h.settled fun n hn _ hd => h0 ?_, rfl⟩
      have := dvd_of_le hn hd
      rw [hs1] at this
      exact h.index_zero.trans (Nat.mod_eq_zero_of_dvd this)

end WheelOk

end Wheel

end Sbckernel.Kernel
