import Sbckernel.Net.TcpOptions

/-!
# What `tcp_options` reads

The kind of an option and its length are fetched together, also for the kinds that have
none, and neither is compared with what is left of the header. So behind a kind that is the
last byte of the header a byte of the payload is read, and a maximum segment size may be
taken from there as well. One of zero bytes is taken as it is.
-/

namespace Sbckernel.Net.TcpOptions

open List

/-- Options that end with the header: every kind has a byte behind it, and a maximum segment
size that counts is there and not zero. -/
inductive WellFormed (syn : Bool) : List UInt8 → Prop
  | nil : WellFormed syn []
  | eol (b : UInt8) (l : List UInt8) : WellFormed syn (tcpoptEol :: b :: l)
  | nop {b : UInt8} {l : List UInt8} : WellFormed syn (b :: l) →
      WellFormed syn (tcpoptNop :: b :: l)
  | short {kind size : UInt8} (l : List UInt8) : kind ≠ tcpoptEol → kind ≠ tcpoptNop →
      size ≤ 2 → WellFormed syn (kind :: size :: l)
  | mss {hi lo : UInt8} {l : List UInt8} : syn = true → ntohs hi lo ≠ 0 → WellFormed syn l →
      WellFormed syn (tcpoptMss :: 4 :: hi :: lo :: l)
  | other {kind size : UInt8} {l : List UInt8} : kind ≠ tcpoptEol → kind ≠ tcpoptNop →
      ¬size ≤ 2 → ¬(kind = tcpoptMss ∧ size = 4 ∧ syn) → WellFormed syn (l.drop (size.toNat - 2)) →
      WellFormed syn (kind :: size :: l)

section
variable {syn mssSeen : Bool} {fuel mtu : Nat} {l : List UInt8}

theorem optionsFrom_zero (ptr : List UInt8) :
    optionsFrom syn fuel 0 ptr mtu mssSeen = some (mtu, mssSeen) := by
  cases fuel <;> rfl

/-- What is left behind an option, whatever comes behind the options. -/
theorem optionsFrom_drop {size : UInt8} (hsize : ¬size ≤ 2) (payload : List UInt8) :
    optionsFrom syn fuel (l.length + 2 - size.toNat) ((l ++ payload).drop (size.toNat - 2)) mtu
        mssSeen =
      optionsFrom syn fuel (l.drop (size.toNat - 2)).length (l.drop (size.toNat - 2) ++ payload) mtu
        mssSeen := by
  have hlt : 2 < size.toNat := UInt8.lt_iff_toNat_lt.mp (UInt8.not_le.mp hsize)
  have hlength : l.length + 2 - size.toNat = (l.drop (size.toNat - 2)).length := by
    rw [length_drop]
    omega
  rw [hlength]
  rcases Nat.le_total (size.toNat - 2) l.length with hle | hle
  · rw [drop_append_of_le_length hle]
  · rw [drop_eq_nil_of_le hle, length_nil, optionsFrom_zero, optionsFrom_zero]

/-- The bytes behind well-formed options do not matter. -/
theorem WellFormed.optionsFrom (h : WellFormed syn l) (hmtu : 0 < mtu) (hfuel : l.length ≤ fuel) :
    ∃ r : Nat × Bool, 0 < r.1 ∧
      ∀ payload, TcpOptions.optionsFrom syn fuel l.length (l ++ payload) mtu mssSeen = some r := by
  induction h generalizing fuel mtu mssSeen with
  | nil => exact ⟨(mtu, mssSeen), hmtu, fun _ => optionsFrom_zero _⟩
  | eol b l =>
    obtain ⟨fuel, rfl⟩ := Nat.exists_eq_add_of_lt hfuel
    exact ⟨(mtu, mssSeen), hmtu, fun _ => rfl⟩
  | nop _ ih =>
    obtain ⟨fuel, rfl⟩ := Nat.exists_eq_add_of_lt hfuel
    exact ih hmtu (Nat.le_add_right ..)
  | short l heol hnop hsize =>
    obtain ⟨fuel, rfl⟩ := Nat.exists_eq_add_of_lt hfuel
    exact ⟨(mtu, mssSeen), hmtu, fun _ => (if_neg (Nat.succ_ne_zero _)).trans
      ((if_neg heol).trans ((if_neg hnop).trans (if_pos hsize)))⟩
  | mss hsyn hvalue _ ih =>
    subst hsyn
    obtain ⟨fuel, rfl⟩ := Nat.exists_eq_add_of_lt hfuel
    exact ih (Nat.lt_min.mpr ⟨hmtu, Nat.pos_of_ne_zero hvalue⟩) (by simp; omega)
  | @other kind size l heol hnop hsize hmss _ ih =>
    obtain ⟨fuel, rfl⟩ := Nat.exists_eq_add_of_lt hfuel
    obtain ⟨r, hr, hrest⟩ := @ih mssSeen ((size :: l).length + fuel) mtu hmtu (by simp; omega)
    refine ⟨r, hr, fun payload => ?_⟩
    rw [← hrest payload, ← optionsFrom_drop hsize]
    exact (if_neg (Nat.succ_ne_zero _)).trans
      ((if_neg heol).trans ((if_neg hnop).trans ((if_neg hsize).trans (if_neg hmss))))

/-- The segment size only gets smaller. -/
theorem optionsFrom_le {length : Nat} {r : Nat × Bool}
    (h : optionsFrom syn fuel length l mtu mssSeen = some r) : r.1 ≤ mtu := by
  fun_induction optionsFrom syn fuel length l mtu mssSeen <;> grind

/-- A run that finds all its bytes in the options, and ends with a segment size, is one over
well-formed options. -/
theorem wellFormed_of_optionsFrom {r : Nat × Bool} (hfuel : l.length ≤ fuel)
    (h : optionsFrom syn fuel l.length l mtu mssSeen = some r) (hr : 0 < r.1) :
    WellFormed syn l := by
  induction fuel generalizing l mtu mssSeen with
  | zero =>
    rw [length_eq_zero_iff.mp (Nat.le_zero.mp hfuel)]
    exact .nil
  | succ fuel ih =>
    match l with
    | [] => exact .nil
    | [_] => simp [optionsFrom] at h
    | kind :: size :: l =>
      have hlength : (size :: l).length ≤ fuel := Nat.le_of_succ_le_succ hfuel
      unfold optionsFrom at h
      simp only [length_cons, Nat.succ_ne_zero, if_false] at h
      split at h
      · next heol => exact heol ▸ .eol size l
      split at h
      · next hnop => exact hnop ▸ .nop (ih hlength h)
      split at h
      · next heol hnop hsize => exact .short l heol hnop hsize
      split at h
      · next hmss =>
        obtain ⟨rfl, rfl, hsyn⟩ := hmss
        match l with
        | [] | [_] => simp at h
        | hi :: lo :: l =>
          have hmin : 0 < min mtu (ntohs hi lo) := Nat.lt_of_lt_of_le hr (optionsFrom_le h)
          refine .mss hsyn (by omega) (ih ?_ h)
          simp only [length_cons] at hlength
          omega
      · next heol hnop hsize hmss =>
        have hdrop : optionsFrom syn fuel _ _ mtu mssSeen = _ := optionsFrom_drop hsize [] (l := l)
        simp only [append_nil] at hdrop
        refine .other heol hnop hsize hmss (ih ?_ (hdrop.symm.trans h))
        simp only [length_cons, length_drop] at hlength ⊢
        omega

end

/-- `tcp_options` reads nothing but the header, whatever the payload is, and leaves an `mss` of
one byte at least, exactly if the options are well-formed. -/
theorem tcp_options_in_header {sk : Sock} {syn : Bool} {doff : Nat} {options : List UInt8}
    (hmtu : 32 ≤ sk.mtu) (hwindow : 32 ≤ sk.maxWindow)
    (hlength : options.length = doff * 4 - 20) :
    (∃ sk', tcpOptions sk syn doff options = some sk' ∧
      (∀ payload, tcpOptions sk syn doff (options ++ payload) = some sk') ∧ 1 ≤ sk'.mss) ↔
      WellFormed syn options := by
  simp only [tcpOptions, ← hlength]
  constructor
  · rintro ⟨sk', hrun, -, hmss⟩
    obtain ⟨⟨mtu, mssSeen⟩, hr, rfl⟩ := Option.map_eq_some_iff.mp hrun
    refine wellFormed_of_optionsFrom (Nat.le_refl _) hr ?_
    dsimp only at hmss ⊢
    split at hmss <;> omega
  · intro h
    obtain ⟨⟨mtu, mssSeen⟩, hpos, hall⟩ := h.optionsFrom (Nat.lt_of_lt_of_le (by decide) hmtu)
      (Nat.le_refl _)
    refine ⟨_, ?_, fun payload => by rw [hall]; rfl, ?_⟩
    · have hnone := hall []
      rw [append_nil] at hnone
      rw [hnone]
      rfl
    · dsimp only at hpos ⊢
      split <;> omega

/-- A socket as `tcp_conn_request` leaves it. -/
def ethernet : Sock := ⟨1460, 32768, 0, 0⟩

theorem tcp_options_in_header_mss : ∃ sk', tcpOptions ethernet true 6 [2, 4, 2, 24] = some sk' ∧
    (∀ payload, tcpOptions ethernet true 6 ([2, 4, 2, 24] ++ payload) = some sk') ∧
      1 ≤ sk'.mss :=
  (tcp_options_in_header (by decide) (by decide) rfl).mpr (.mss rfl (by decide) .nil)

/-- The last byte of a header is the kind of a maximum segment size, and its length and value
are those of the payload. Behind a last byte that has no length one is read as well. And a
value of zero gives an `mss` of zero. -/
theorem options_read_payload :
    tcpOptions ethernet true 6 [1, 1, 1, 1] = none ∧
    (tcpOptions ethernet true 6 ([1, 1, 1, 2] ++ [4, 0, 50])).map Sock.mss = some 50 ∧
    (tcpOptions ethernet true 6 ([1, 1, 1, 2] ++ [0, 0, 50])).map Sock.mss = some 536 ∧
    (tcpOptions ethernet true 6 [2, 4, 0, 0]).map Sock.mss = some 0 := by
  decide

end Sbckernel.Net.TcpOptions
