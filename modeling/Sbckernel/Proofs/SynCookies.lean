import Sbckernel.Net.SynCookies

/-!
# What a SYN cookie brings back

The index survives in the three bits the cookie leaves free, so an ACK within two minutes
restores the `mtu` of the request. From 64 on it is the largest smaller one of the table,
but above 4312 the search reads behind the table.
-/

namespace Sbckernel.Net.SynCookies

open Kernel

theorem cookieMtu_get : ∀ i < 8, cookieMtu[i]? = some (cookieMtu.getD i 0) := by decide

theorem cookieMtu_sorted :
    ∀ i < 7, ∀ e ∈ cookieMtu, ¬(cookieMtu.getD i 0 < e ∧ e < cookieMtu.getD (i + 1) 0) := by
  decide

/-- The search ends at an entry with the `mtu` between it and the next one. -/
theorem pickMtu_spec {mtu i : Nat} (hlarge : mtu ≤ 4312) (hi : i < 7)
    (hfrom : cookieMtu.getD i 0 ≤ mtu) :
    ∃ j < 7, pickMtu mtu i = some j ∧
      cookieMtu.getD j 0 ≤ mtu ∧ mtu ≤ cookieMtu.getD (j + 1) 0 := by
  fun_induction pickMtu mtu i with
  | case1 i hnone => exact nomatch hnone.symm.trans (cookieMtu_get (i + 1) (by omega))
  | case2 i next hnext h ih =>
    cases hnext.symm.trans (cookieMtu_get (i + 1) (by omega))
    have hlast : i ≠ 6 := by
      rintro rfl
      exact Nat.not_lt.mpr hlarge h.1
    exact ih (by omega) h.1.le
  | case3 i next hnext h =>
    cases hnext.symm.trans (cookieMtu_get (i + 1) (by omega))
    exact ⟨i, hi, rfl, hfrom, Nat.not_lt.mp fun hgt => h ⟨hgt, hi⟩⟩

theorem and_index : ∀ i < 8, BitVec.ofNat 32 i &&& 0x7 = BitVec.ofNat 32 i ∧
    BitVec.ofNat 32 i &&& 0xfffffff8 = 0 := by decide

/-- The low three bits of a cookie are free for the index. -/
theorem split_cookie {i : Nat} (hi : i < 8) (seq : ULong) :
    ((seq &&& 0xfffff8) ||| BitVec.ofNat 32 i) &&& 0x7 = BitVec.ofNat 32 i ∧
    ((seq &&& 0xfffff8) ||| BitVec.ofNat 32 i) &&& 0xfffffff8 = seq &&& 0xfffff8 := by
  have hlow : (0xfffff8 &&& 0x7 : ULong) = 0 := rfl
  rw [BitVec.and_or_distrib_right, BitVec.and_or_distrib_right, BitVec.and_assoc, hlow,
    BitVec.and_assoc, (and_index i hi).1, (and_index i hi).2]
  exact ⟨by simp, BitVec.or_zero⟩

variable (hashTransform : (Fin 16 → ULong) → Fin 16 → ULong) (secret : Fin 2 → Fin 16 → ULong)
  (daddr saddr seq jiffies : ULong) (source dest : BitVec 16)

theorem pickMtu_of_lt {mtu : Nat} (h : mtu < 64) : pickMtu mtu 0 = some 0 := by
  rw [pickMtu, cookieMtu_get 1 (by omega)]
  exact if_neg fun hmore => absurd hmore.1 (by simp [cookieMtu]; omega)

theorem pickMtu_of_gt {mtu i : Nat} (h : 4312 < mtu) (hi : i ≤ 7) : pickMtu mtu i = none := by
  fun_induction pickMtu mtu i with
  | case1 => rfl
  | case2 i next hnext h ih => exact ih (by omega)
  | case3 i next hnext hstop =>
    rcases hi.lt_or_eq with hi | rfl
    · cases hnext.symm.trans (cookieMtu_get (i + 1) (by omega))
      have hle : ∀ i < 7, cookieMtu.getD (i + 1) 0 ≤ 4312 := by decide
      exact absurd ⟨(hle i hi).trans_lt h, hi⟩ hstop
    · cases hnext

/-- The request is answered from inside the table and the ACK is accepted with the largest
smaller `mtu`. -/
def Restored (mtu : Nat) (jiffies' : ULong) : Prop :=
  ∃ cookie e,
    tcpConnRequest hashTransform secret daddr saddr source dest seq mtu jiffies =
      some (cookie, e) ∧
    tcpRcv hashTransform secret daddr saddr source dest (seq + 1) (cookie + 1) jiffies' =
      some e ∧
    e ≤ mtu ∧ ∀ e' ∈ cookieMtu, ¬(e < e' ∧ e' < mtu)

theorem restored_of_mtu {mtu : Nat} {jiffies' d : ULong} (hsmall : 64 ≤ mtu)
    (hlarge : mtu ≤ 4312) (hd : d ≤ 2) (hack : jiffies' / (60 * hz) = jiffies / (60 * hz) + d) :
    Restored hashTransform secret daddr saddr seq jiffies source dest mtu jiffies' := by
  obtain ⟨i, hi, hpick, hle, hnext⟩ := pickMtu_spec hlarge (i := 0) (by omega) hsmall
  have hget := cookieMtu_get i (by omega)
  refine ⟨_, _, by rw [tcpConnRequest, hpick, Option.bind_eq_bind, Option.bind_some, hget]; rfl,
    ?_, hle, fun e' he' hbetween =>
      cookieMtu_sorted i hi e' he' ⟨hbetween.1, hbetween.2.trans_le hnext⟩⟩
  have hcookie := split_cookie (i := i) (by omega)
  have hd : d = 0 ∨ d = 1 ∨ d = 2 := by bv_omega
  simp only [tcpRcv, BitVec.add_sub_cancel, hack, secureTcpSynCookie, hcookie,
    BitVec.toNat_ofNat, Nat.mod_eq_of_lt (show i < 2 ^ 32 by omega)]
  rw [if_pos, hget]
  rcases hd with rfl | rfl | rfl
  · simp
  · simp
  · simp

/-- An ACK in the same minute or one of the next two restores the connection exactly if the
`mtu` is from 64 to 4312. -/
theorem tcpRcv_tcpConnRequest {mtu : Nat} {jiffies' d : ULong} (hd : d ≤ 2)
    (hack : jiffies' / (60 * hz) = jiffies / (60 * hz) + d) :
    Restored hashTransform secret daddr saddr seq jiffies source dest mtu jiffies' ↔
      64 ≤ mtu ∧ mtu ≤ 4312 := by
  refine ⟨?_, fun h => restored_of_mtu _ _ _ _ _ _ _ _ h.1 h.2 hd hack⟩
  rintro ⟨cookie, e, hrequest, -, hle, -⟩
  refine ⟨Nat.not_lt.mp fun hsmall => ?_, Nat.not_lt.mp fun hlarge => ?_⟩
  · rw [tcpConnRequest, pickMtu_of_lt hsmall] at hrequest
    cases hrequest
    omega
  · rw [tcpConnRequest, pickMtu_of_gt hlarge (by omega)] at hrequest
    cases hrequest

theorem tcpRcv_tcpConnRequest_ethernet :
    Restored (fun tmp => tmp) (fun _ _ => 0) 1 2 5 6000 3 4 1460 18000 :=
  (tcpRcv_tcpConnRequest _ _ _ _ _ _ _ _ (d := 2) (by decide) (by decide)).mpr (by decide)

/-- A larger `mtu` is searched for behind the table, and a smaller one becomes 64. -/
theorem tcpConnRequest_fails :
    tcpConnRequest (fun tmp => tmp) (fun _ _ => 0) 1 2 3 4 5 4313 0 = none ∧
    ∃ cookie, tcpConnRequest (fun tmp => tmp) (fun _ _ => 0) 1 2 3 4 5 63 0 = some (cookie, 64) ∧
      tcpRcv (fun tmp => tmp) (fun _ _ => 0) 1 2 3 4 (5 + 1) (cookie + 1) 0 = some 64 := by
  refine ⟨?_, 0, ?_, ?_⟩
  · simp [tcpConnRequest, pickMtu, cookieMtu]
  · rw [tcpConnRequest, pickMtu]
    rfl
  · decide

end Sbckernel.Net.SynCookies
