import Sbckernel.Net.TcpWindow

/-!
# The offered window is sound

With a clamp that is zero or between 2 and 65535, the computed window is a proper 16-bit
number, and no division by zero happens. While the right edge of the old window is less
than half the sequence space away, the signed comparison with the old window then decides
which right edge is further right.
-/

namespace Sbckernel.Net.TcpWindow

open BitVec

/-- The event is not a call, or the clamp and the distance to the last choice are such
that the call is safe. -/
def Tame (sk : Sock) (e : Event) : Prop :=
  e = .select → (sk.windowClamp = 0 ∨ 2 ≤ sk.windowClamp.toNat ∧ sk.windowClamp.toNat < 2 ^ 16) ∧
    (sk.ackedSeq - sk.lastwinSeq).toNat ≤ 2 ^ 31 - 2 ^ 16

/-- The event does not divide by zero, the right edge does not move left, and a window that
is returned reaches up to it. -/
def Sound (sk : Sock) (e : Event) : Prop :=
  ∃ r ∈ handle sk e, ¬before (rightEdge r.1) (rightEdge sk) ∧
    ∀ w ∈ r.2, w.setWidth 32 = rightEdge r.1 - r.1.ackedSeq

/-- `P` holds at each event of a run. -/
def Always (P : Sock → Event → Prop) : Sock → List Event → Prop
  | _, [] => True
  | sk, e :: l => P sk e ∧ ∀ r ∈ handle sk e, Always P r.1 l

instance (sk : Sock) (e : Event) : Decidable (Tame sk e) := inferInstanceAs (Decidable (_ → _))

instance (sk : Sock) (e : Event) : Decidable (Sound sk e) :=
  inferInstanceAs (Decidable (∃ r ∈ handle sk e, _))

instance Always.decidable (P : Sock → Event → Prop) [∀ sk e, Decidable (P sk e)] :
    ∀ sk es, Decidable (Always P sk es)
  | _, [] => isTrue trivial
  | sk, e :: l =>
    have := fun r : Sock × Option (BitVec 16) => Always.decidable P r.1 l
    inferInstanceAs (Decidable (P sk e ∧ ∀ r ∈ handle sk e, Always P r.1 l))

variable {sk : Sock}

theorem minwin_ne_zero (h : 2 ≤ (maxwin sk).toNat) : minwin sk ≠ 0 := by
  have hwide (x : BitVec 16) (hx : x ≠ 0) : x.setWidth 32 ≠ 0 := by bv_omega
  have hhalf : maxwin sk / 2 ≠ 0 := by
    intro h0
    have := congrArg BitVec.toNat h0
    simp [toNat_udiv] at this
    omega
  unfold minwin
  grind

theorem tcpNewWindow_lt (h : 2 ≤ (maxwin sk).toNat ∧ (maxwin sk).toNat < 2 ^ 16) :
    ∃ b w, tcpNewWindow sk = some ({ sk with rcvbuf := b }, w) ∧ w.toNat < 2 ^ 16 := by
  have hmin := minwin_ne_zero h.1
  have hle (w : BitVec 32) : (if w > maxwin sk then maxwin sk else w).toNat < 2 ^ 16 := by
    split
    next => exact h.2
    next hw => exact Nat.lt_of_le_of_lt (not_lt.mp hw) h.2
  simp only [tcpNewWindow, if_neg hmin]
  split <;> dsimp only
  all_goals
    split
    next => exact ⟨_, _, rfl, by decide⟩
    next => split <;> exact ⟨_, _, rfl, hle _⟩

theorem tcpOldWindow_toInt (h : (sk.ackedSeq - sk.lastwinSeq).toNat ≤ 2 ^ 31 - 2 ^ 16) :
    (tcpOldWindow sk).toInt = sk.window.toNat - (sk.ackedSeq - sk.lastwinSeq).toNat := by
  have hwin := sk.window.isLt
  have hwide : (sk.window.setWidth 32).toNat = sk.window.toNat := by
    rw [toNat_setWidth, Nat.mod_eq_of_lt (by omega)]
  rw [tcpOldWindow, toInt_sub, toInt_eq_toNat_of_lt (by omega),
    toInt_eq_toNat_of_lt (by omega), hwide]
  exact Int.bmod_eq_of_le (by omega) (by omega)

theorem setWidth_setWidth {x : BitVec 32} (h : x.toNat < 2 ^ 16) :
    (x.setWidth 16).setWidth 32 = x := by
  apply eq_of_toNat_eq
  rw [toNat_setWidth, toNat_setWidth]
  omega

theorem tcpSelectWindow_sound (h : Tame sk .select) : Sound sk .select := by
  obtain ⟨hclamp, hnear⟩ := h rfl
  have hmaxwin : 2 ≤ (maxwin sk).toNat ∧ (maxwin sk).toNat < 2 ^ 16 := by
    unfold maxwin
    split
    next => decide
    next hne => exact hclamp.resolve_left hne
  obtain ⟨b, w, hnew, hw⟩ := tcpNewWindow_lt hmaxwin
  have hold := tcpOldWindow_toInt hnear
  have hwint : w.toInt = w.toNat := toInt_eq_toNat_of_lt (by omega)
  have hwin := sk.window.isLt
  simp only [Sound, handle, tcpSelectWindow, hnew, Option.bind_eq_bind, Option.bind_some]
  split
  next hgt =>
    -- The new right edge lies as far to the right as the new window exceeds the old one.
    refine ⟨_, rfl, ?_, ?_⟩
    · have hedge : sk.ackedSeq + w - rightEdge sk = w - tcpOldWindow sk := by
        unfold rightEdge tcpOldWindow
        grind
      change (tcpOldWindow sk).toInt < w.toInt at hgt
      rw [before, rightEdge, setWidth_setWidth hw, hedge, toInt_sub,
        Int.bmod_eq_of_le (by omega) (by omega)]
      omega
    · rintro _ ⟨⟩
      simp only [rightEdge]
      grind
  next hle =>
    refine ⟨_, rfl, by simp [before, rightEdge], ?_⟩
    rintro _ ⟨⟩
    change ¬(tcpOldWindow sk).toInt < w.toInt at hle
    have hpos := (tcpOldWindow sk).toInt_eq_toNat_cond
    change ((tcpOldWindow sk).setWidth 16).setWidth 32 = rightEdge sk - sk.ackedSeq
    rw [setWidth_setWidth (by omega), rightEdge, tcpOldWindow]
    grind

theorem Tame.sound {e : Event} (h : Tame sk e) : Sound sk e := by
  cases e with
  | select => exact tcpSelectWindow_sound h
  | acked | tuned => exact ⟨_, rfl, by simp [before, rightEdge], nofun⟩

/-- A run of tame events, from any socket, is sound. -/
theorem window_sound {es : List Event} (h : Always Tame sk es) : Always Sound sk es := by
  induction es generalizing sk with
  | nil => trivial
  | cons e l ih =>
    refine ⟨h.1.sound, ?_⟩
    intro r hr
    exact ih (h.2 r hr)

/-- A socket at the start of a connection. -/
def fresh (seq rcvbuf windowClamp : BitVec 32) : Sock where
  window := 0
  lastwinSeq := seq
  ackedSeq := seq
  rcvbuf := rcvbuf
  rmemAlloc := 0
  mss := 1460
  mtu := 1500
  windowClamp := windowClamp

theorem window_sound_fresh :
    Always Sound (fresh 5 65535 0) [.select, .acked 1460, .tuned 65535 3000 536 1500 2, .select] :=
  window_sound (by decide)

/-- A clamp of 1 makes the divisor zero. A clamp of 65536 makes the window 0 when enough
memory gets free, and the right edge moves left. So it does when half the sequence space
has been acknowledged since the last choice. -/
theorem window_unsound :
    ¬Always Sound (fresh 5 65535 1) [.select] ∧
      ¬Always Sound (fresh 5 65535 65536) [.select, .tuned 262144 0 1460 1500 65536, .select] ∧
      ¬Always Sound (fresh 5 65535 0) [.select, .acked 0x80000000, .select] := by
  have hselect (clamp : BitVec 32) (h : clamp = 0 ∨ clamp = 65536) :
      handle (fresh 5 65535 clamp) .select =
        some ({ fresh 5 65535 clamp with window := 32120 }, some 32120) := by
    rcases h with rfl | rfl <;> decide
  refine ⟨by decide, fun h => ?_, fun h => ?_⟩
  · exact absurd ((h.2 _ (hselect 65536 (.inr rfl))).2 _ rfl).1 (by decide)
  · exact absurd ((h.2 _ (hselect 0 (.inl rfl))).2 _ rfl).1 (by decide)

end Sbckernel.Net.TcpWindow
