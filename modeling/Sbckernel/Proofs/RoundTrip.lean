import Sbckernel.Proofs.Overlap

/-!
# From `ip_fragment` to `ip_defrag`

The pieces that `ip_fragment` makes of a datagram tile it, and they go on doing so
when a piece is cut up once more: the bits that `ip_forward` hands on say where it
starts and whether more follows. Two pieces of a tiling are the same or do not
meet. Hence no piece lies inside another, and the datagram is covered exactly when
no piece is missing.
-/

namespace Sbckernel.Net

open Lib Spans List SkBuff

variable {offset base mtu ptr left : Nat} {more : Bool} {allocSkb : Nat → Option Nat}
  {ps : List SkBuff}

/-! ## The field `frag_off` -/

/-- `frag_off` as the loop fills it in. -/
def fragOffOf (offset : Nat) (more : Bool) : BitVec 16 :=
  if more then BitVec.ofNat 16 (offset / 8) ||| ipMf else BitVec.ofNat 16 (offset / 8)

theorem toNat_fragOffOf (h : offset < 65536) (more : Bool) :
    (fragOffOf offset more).toNat = offset / 8 + if more then 8192 else 0 := by
  have hlt : offset / 8 < 2 ^ 13 := by omega
  have hofNat : (BitVec.ofNat 16 (offset / 8)).toNat = offset / 8 := by
    rw [BitVec.toNat_ofNat]
    omega
  cases more with
  | false => exact hofNat
  | true =>
    show (BitVec.ofNat 16 (offset / 8) ||| ipMf).toNat = offset / 8 + 2 ^ 13
    have hor := Nat.two_pow_add_eq_or_of_lt hlt 1
    rw [BitVec.toNat_or, hofNat, Nat.or_comm, Nat.add_comm]
    exact (hor.trans (by rw [Nat.mul_one]; rfl)).symm.trans (by rw [Nat.mul_one])

/-- A flag, by its bit. -/
theorem and_twoPow_eq_zero (x : BitVec 16) {i : Nat} (hi : i < 16) :
    x &&& BitVec.twoPow 16 i = 0 ↔ x.toNat / 2 ^ i % 2 = 0 := by
  have hbit : x.getLsbD i = decide (x.toNat / 2 ^ i % 2 = 1) := by
    rw [← BitVec.testBit_toNat, Nat.testBit_eq_decide_div_mod_eq]
  have htwo : BitVec.twoPow 16 i ≠ 0 := by
    intro h
    have := congrArg (BitVec.getLsbD · i) h
    simp [hi] at this
  rw [BitVec.and_twoPow, hbit]
  by_cases h : x.toNat / 2 ^ i % 2 = 1
  · simp only [h, decide_true, if_true]
    exact ⟨fun heq => absurd heq htwo, nofun⟩
  · simp only [h, decide_false, Bool.false_eq_true, if_false]
    exact ⟨fun _ => by omega, fun _ => rfl⟩

theorem fragOffOf_fields (h : offset < 65536) (haligned : offset % 8 = 0)
    (more : Bool) : ((fragOffOf offset more &&& ipOffset).toNat * 8 = offset) ∧
      (fragOffOf offset more &&& ipMf = 0 ↔ more = false) ∧ fragOffOf offset more &&& ipDf = 0 := by
  have hnat := toNat_fragOffOf h more
  refine ⟨?_, ?_, ?_⟩
  · rw [BitVec.toNat_and, show ipOffset.toNat = 2 ^ 13 - 1 from rfl,
      Nat.and_two_pow_sub_one_eq_mod, hnat]
    cases more <;> simp <;> omega
  · rw [show ipMf = BitVec.twoPow 16 13 from rfl, and_twoPow_eq_zero _ (by omega), hnat]
    cases more <;> simp <;> omega
  · rw [show ipDf = BitVec.twoPow 16 14 from rfl, and_twoPow_eq_zero _ (by omega), hnat]
    cases more <;> simp <;> omega

theorem Iphdr.offset_mod (iph : Iphdr) : iph.offset % 8 = 0 := Nat.mul_mod_left ..

/-! ## The pieces -/

/-- One of the pieces of a datagram. -/
structure Datagram.Piece (d : Datagram) (p : SkBuff) : Prop where
  same : sameDatagram p.iph d.iph = true
  hlen : p.iph.hlen = d.iph.hlen
  totLen : p.iph.totLen.toNat = p.iph.hlen + p.data.length
  inside : p.iph.offset + p.data.length ≤ d.payload.length
  bytes : ∀ i : Nat, i < p.data.length → p.byteAt i = d.payload[p.iph.offset + i]?
  mf : p.iph.mf = false ↔ p.iph.offset + p.data.length = d.payload.length
  fragOff : p.iph.fragOff = fragOffOf p.iph.offset p.iph.mf

/-- Where a fragment starts. -/
def SkBuff.fragStart (skb : SkBuff) : Int := skb.iph.offset

section
variable {d : Datagram} {p skb : SkBuff} {ipSendCheck : Iphdr → BitVec 16}

theorem Datagram.Piece.fragEnd (h : d.Piece p) : p.fragEnd = p.iph.offset + p.data.length := by
  rw [SkBuff.fragEnd, h.totLen]
  omega

theorem Datagram.Piece.slice (h : d.Piece p) : d.Slice p where
  same := h.same
  hlen := h.hlen.le
  header := by
    rw [h.totLen]
    omega
  inside := by
    rw [h.fragEnd]
    exact_mod_cast h.inside
  bytes := fun i hi => h.bytes i (by rw [h.totLen] at hi; omega)
  last := fun hmf => by
    rw [h.fragEnd]
    exact_mod_cast h.mf.mp hmf

/-- A buffer from which a piece is cut: its data are those of the datagram from
`base` on, up to its end or not. -/
structure Datagram.Source (d : Datagram) (skb : SkBuff) (base : Nat) (more : Bool) : Prop where
  same : sameDatagram skb.iph d.iph = true
  hlen : skb.iph.hlen = d.iph.hlen
  inside : base + skb.data.length ≤ d.payload.length
  bytes : ∀ i : Nat, i < skb.data.length → skb.byteAt i = d.payload[base + i]?
  more : more = false ↔ base + skb.data.length = d.payload.length

/-- What the loop sends for `len` bytes from `ptr` on. -/
def pieceOf (ipSendCheck : Iphdr → BitVec 16) (skb : SkBuff) (truesize ptr len offset : Nat)
    (more : Bool) : SkBuff :=
  ipQueueXmit ipSendCheck
    { iph := { skb.iph with fragOff := fragOffOf offset more }
      data := (List.range len).map fun (i : Nat) => skb.byteAt (ptr + i : Nat)
      truesize := truesize
      pktType := 0
      protocol := ethPIp }

theorem Datagram.Source.piece {len : Nat} {b : Bool} (h : d.Source skb base more)
    (haligned : (base + ptr) % 8 = 0) (hlen : ptr + len ≤ skb.data.length)
    (hb : b = false ↔ base + ptr + len = d.payload.length) (ipSendCheck : Iphdr → BitVec 16)
    (truesize : Nat) :
    d.Piece (pieceOf ipSendCheck skb truesize ptr len (base + ptr) b) ∧
      (pieceOf ipSendCheck skb truesize ptr len (base + ptr) b).iph.offset = base + ptr ∧
      (pieceOf ipSendCheck skb truesize ptr len (base + ptr) b).data.length = len := by
  have hinside := h.inside
  have hsize := d.size
  have hhlen := h.hlen
  obtain ⟨hoffset, hmf, -⟩ := fragOffOf_fields (by omega) haligned b
  have hdata : (pieceOf ipSendCheck skb truesize ptr len (base + ptr) b).data.length = len := by
    simp [pieceOf, ipQueueXmit]
  have hiph : (pieceOf ipSendCheck skb truesize ptr len (base + ptr) b).iph.offset = base + ptr :=
    hoffset
  have hflag : (pieceOf ipSendCheck skb truesize ptr len (base + ptr) b).iph.mf = b := by
    cases b with
    | false => exact decide_eq_false (not_not.mpr (hmf.mpr rfl))
    | true => exact decide_eq_true fun h0 => Bool.noConfusion (hmf.mp h0)
  refine ⟨⟨h.same, h.hlen, ?_, ?_, fun i hi => ?_, ?_, ?_⟩, hiph, hdata⟩
  · show (BitVec.ofNat 16 (skb.iph.hlen + ((List.range len).map _).length)).toNat = skb.iph.hlen + _
    rw [BitVec.toNat_ofNat, hdata, length_map, length_range]
    omega
  · rw [hiph, hdata]
    omega
  · rw [hdata] at hi
    rw [hiph, SkBuff.byteAt, if_pos (by omega), Int.toNat_natCast, pieceOf, ipQueueXmit]
    have hbyte := h.bytes (ptr + i) (by omega)
    rw [← Nat.add_assoc] at hbyte
    simpa [hi] using hbyte
  · rw [hflag, hb, hiph, hdata]
  · rw [hiph, hflag]
    rfl

/-- How much one round of the loop takes. -/
def stepLen (mtu left : Nat) : Nat :=
  let len := if left > mtu then mtu else left
  if len < left then len / 8 * 8 else len

theorem stepLen_spec (hmtu : 8 ≤ mtu) (hleft : left ≠ 0) :
    0 < stepLen mtu left ∧ stepLen mtu left ≤ left ∧
      (stepLen mtu left < left → stepLen mtu left % 8 = 0) := by
  simp only [stepLen]
  split_ifs <;> omega

theorem ipFragmentLoop_succ {fuel k truesize : Nat} (hleft : left ≠ 0)
    (halloc : allocSkb k = some truesize) :
    ipFragmentLoop ipSendCheck allocSkb skb mtu more (fuel + 1) k ptr left offset =
      pieceOf ipSendCheck skb truesize ptr (stepLen mtu left) offset
          (decide (left - stepLen mtu left > 0 ∨ more = true)) ::
        ipFragmentLoop ipSendCheck allocSkb skb mtu more fuel (k + 1) (ptr + stepLen mtu left)
          (left - stepLen mtu left) (offset + stepLen mtu left) := by
  rw [ipFragmentLoop, if_neg hleft, halloc, pieceOf, fragOffOf]
  simp only [decide_eq_true_eq]
  rfl

/-- The loop of `ip_fragment` tiles what is left with pieces. -/
theorem ipFragmentLoop_tiles (h : d.Source skb base more) (halloc : ∀ k, (allocSkb k).isSome)
    (hmtu : 8 ≤ mtu) (fuel k ptr left : Nat) (hfuel : left ≤ fuel)
    (hleft : ptr + left = skb.data.length) (haligned : left = 0 ∨ (base + ptr) % 8 = 0) :
    (∀ p ∈ ipFragmentLoop ipSendCheck allocSkb skb mtu more fuel k ptr left (base + ptr),
        d.Piece p) ∧
      Tiles fragStart SkBuff.fragEnd (base + ptr)
        (ipFragmentLoop ipSendCheck allocSkb skb mtu more fuel k ptr left (base + ptr))
        (base + skb.data.length) := by
  induction fuel generalizing k ptr left with
  | zero =>
    rw [ipFragmentLoop]
    refine ⟨nofun, ?_⟩
    show (base + ptr : Int) = base + skb.data.length
    omega
  | succ fuel ih =>
    by_cases hne : left = 0
    · rw [ipFragmentLoop, if_pos hne]
      refine ⟨nofun, ?_⟩
      show (base + ptr : Int) = base + skb.data.length
      omega
    · obtain ⟨truesize, htruesize⟩ := Option.isSome_iff_exists.mp (halloc k)
      obtain ⟨hpos, hle, hstep⟩ := stepLen_spec hmtu hne
      have hmore : decide (left - stepLen mtu left > 0 ∨ more = true) = false ↔
          base + ptr + stepLen mtu left = d.payload.length := by
        have := h.inside
        rw [decide_eq_false_iff_not, not_or, Bool.not_eq_true, h.more]
        omega
      obtain ⟨hpiece, hoffset, hlength⟩ := h.piece (haligned.resolve_left hne) (by omega) hmore
        ipSendCheck truesize
      obtain ⟨hpieces, htiles⟩ := ih (k + 1) (ptr + stepLen mtu left) (left - stepLen mtu left)
        (by omega) (by omega) (by omega)
      rw [ipFragmentLoop_succ hne htruesize, Nat.add_assoc]
      refine ⟨forall_mem_cons.mpr ⟨hpiece, hpieces⟩, ?_, ?_, ?_⟩
      · rw [fragStart, hoffset]
        exact Int.natCast_add ..
      · rw [fragStart, hpiece.fragEnd, hlength]
        omega
      · rw [hpiece.fragEnd, hoffset, hlength]
        convert htiles using 1
        omega

/-- The call, for the values of `is_frag` that say where the buffer starts and
whether more follows. -/
theorem Datagram.Source.ipFragment_tiles {hardHeaderLen devMtu : Nat} (h : d.Source skb base more)
    (ipSendCheck : Iphdr → BitVec 16) (isFrag : Nat) (hbase : base % 8 = 0)
    (hdf : skb.iph.fragOff &&& ipDf = 0)
    (htotLen : skb.iph.totLen.toNat = skb.iph.hlen + skb.data.length)
    (hmore : decide (isFrag % 2 = 1) = more)
    (hstart : (if isFrag / 2 % 2 = 1 then skb.iph.offset else 0) = base)
    (halloc : ∀ k, (allocSkb k).isSome) (hmtu : skb.iph.hlen + hardHeaderLen + 8 ≤ devMtu) :
    (∀ p ∈ ipFragment ipSendCheck allocSkb skb hardHeaderLen devMtu isFrag, d.Piece p) ∧
      Tiles fragStart SkBuff.fragEnd base
        (ipFragment ipSendCheck allocSkb skb hardHeaderLen devMtu isFrag)
        (base + skb.data.length) := by
  have hleft : skb.iph.totLen.toNat - skb.iph.hlen = skb.data.length := by omega
  rw [ipFragment]
  rw [if_neg (not_not.mpr hdf), if_neg (by omega), hleft, hmore, hstart]
  exact ipFragmentLoop_tiles h halloc (by omega) skb.data.length 0 0 skb.data.length le_rfl
    (by omega) (.inr hbase)

theorem isFragOf_fields (iph : Iphdr) : decide (isFragOf iph % 2 = 1) = iph.mf ∧
    (if isFragOf iph / 2 % 2 = 1 then iph.offset else 0) = iph.offset := by
  rw [isFragOf]
  by_cases hoffset : iph.offset = 0 <;> cases iph.mf <;> simp [hoffset]

/-- The pieces into which a datagram without options has been cut, by `ip_fragment`
where it comes from and again by a router for some of the pieces. -/
inductive Pieces (d : Datagram) : List SkBuff → Prop
  | fragment {orig : SkBuff} {ipSendCheck : Iphdr → BitVec 16} {allocSkb : Nat → Option Nat}
      {hardHeaderLen devMtu : Nat} (hiph : orig.iph = d.iph)
      (hdata : orig.data = d.payload.map some)
      (hihl : d.iph.ihl = 5) (hdf : d.iph.fragOff &&& ipDf = 0)
      (htotLen : d.iph.totLen.toNat = d.iph.hlen + d.payload.length)
      (halloc : ∀ k, (allocSkb k).isSome) (hmtu : d.iph.hlen + hardHeaderLen + 8 ≤ devMtu) :
      Pieces d (ipFragment ipSendCheck allocSkb orig hardHeaderLen devMtu 0)
  | again {l l' : List SkBuff} {p : SkBuff} {ipSendCheck : Iphdr → BitVec 16}
      {allocSkb : Nat → Option Nat} {hardHeaderLen devMtu : Nat} (h : Pieces d (l ++ p :: l'))
      (halloc : ∀ k, (allocSkb k).isSome) (hmtu : p.iph.hlen + hardHeaderLen + 8 ≤ devMtu) :
      Pieces d (l ++ ipFragment ipSendCheck allocSkb p hardHeaderLen devMtu (isFragOf p.iph) ++ l')

theorem Datagram.Piece.df (h : d.Piece p) : p.iph.fragOff &&& ipDf = 0 := by
  have := h.inside
  have := d.size
  rw [h.fragOff]
  exact (fragOffOf_fields (by omega) p.iph.offset_mod p.iph.mf).2.2

theorem Datagram.Piece.source (h : d.Piece p) : d.Source p p.iph.offset p.iph.mf :=
  { h with more := h.mf }

/-- However often they are cut, the pieces tile the datagram. -/
theorem Pieces.tiles (h : Pieces d ps) : (∀ p ∈ ps, d.Piece p) ∧
    Tiles fragStart SkBuff.fragEnd 0 ps d.payload.length := by
  induction h with
  | @fragment orig ipSendCheck allocSkb hardHeaderLen devMtu hiph hdata _ hdf htotLen halloc hmtu =>
    have hlength : orig.data.length = d.payload.length := by rw [hdata, length_map]
    have hsource : d.Source orig 0 false := by
      refine ⟨hiph ▸ sameDatagram_refl _, by rw [hiph], by omega, fun i hi => ?_, by simp [hlength]⟩
      rw [SkBuff.byteAt, if_pos (by omega), Int.toNat_natCast, hdata, Nat.zero_add]
      rw [hlength] at hi
      simp [hi]
    have hcut := hsource.ipFragment_tiles ipSendCheck 0 rfl (hiph ▸ hdf)
      (by rw [hiph, hlength, htotLen]) rfl rfl halloc (hiph ▸ hmtu)
    rw [hlength, Int.natCast_zero, zero_add] at hcut
    exact hcut
  | @again l l' p ipSendCheck allocSkb hardHeaderLen devMtu _ halloc hmtu ih =>
    obtain ⟨hpieces, htiles⟩ := ih
    have hp := hpieces p (by simp)
    obtain ⟨hmore, hstart⟩ := isFragOf_fields p.iph
    have hcut := hp.source.ipFragment_tiles ipSendCheck (isFragOf p.iph) p.iph.offset_mod
      hp.df hp.totLen hmore hstart halloc hmtu
    obtain ⟨hbefore, hbehind⟩ := forall_mem_append.mp hpieces
    refine ⟨forall_mem_append.mpr ⟨forall_mem_append.mpr ⟨hbefore, hcut.1⟩,
      (forall_mem_cons.mp hbehind).2⟩, ?_⟩
    obtain ⟨y, hl, hstart, -, hl'⟩ := tiles_append.mp htiles
    rw [hp.fragEnd] at hl'
    exact tiles_append.mpr ⟨_, tiles_append.mpr ⟨y, hl, hstart ▸ hcut.2⟩, hl'⟩

theorem Pieces.totLen (h : Pieces d ps) :
    d.iph.totLen = BitVec.ofNat 16 (d.iph.hlen + d.payload.length) := by
  induction h with
  | fragment _ _ _ _ htotLen =>
    rw [← htotLen, BitVec.ofNat_toNat, BitVec.setWidth_eq]
  | again _ _ _ ih => exact ih

/-! ## Delivering them -/

/-- A buffer that has come in with the header and the data of `p`. -/
def SkBuff.Carries (g p : SkBuff) : Prop := g.iph = p.iph ∧ g.data = p.data

theorem Datagram.Piece.carried (h : d.Piece p) (hg : skb.Carries p) : d.Piece skb := by
  obtain ⟨iph, data, truesize, pktType, protocol⟩ := skb
  obtain ⟨rfl, rfl⟩ := hg
  exact { h with }

theorem Datagram.Piece.data_of_length (h : d.Piece p) (hoffset : p.iph.offset = 0)
    (hlength : p.data.length = d.payload.length) : p.data = d.payload.map some := by
  refine ext_getElem (by simp [hlength]) fun i hi _ => ?_
  have hbyte := h.bytes i hi
  rw [hoffset, Nat.zero_add, SkBuff.byteAt, if_pos (by omega), Int.toNat_natCast,
    getElem?_eq_getElem hi, getElem?_eq_getElem (by omega)] at hbyte
  simpa using hbyte

section
variable {received : List SkBuff}

/-- What has been received of a tiling covers the datagram if nothing is missing. -/
theorem covered_iff (htiles : Tiles fragStart SkBuff.fragEnd 0 ps d.payload.length)
    (hfrom : ∀ g ∈ received, ∃ p ∈ ps, g.Carries p) :
    d.CoveredBy received ↔ ∀ p ∈ ps, ∃ g ∈ received, g.Carries p := by
  have hends : ∀ {g p : SkBuff}, g.Carries p → g.fragEnd = p.fragEnd := by
    rintro g p ⟨hiph, -⟩
    rw [SkBuff.fragEnd, SkBuff.fragEnd, hiph]
  constructor
  · intro hcov p hp
    obtain ⟨-, hproper, hend⟩ := htiles.bounds.2 p hp
    obtain ⟨g, hg, hle, hlt⟩ := hcov p.iph.offset (by rw [fragStart] at hproper; omega)
    obtain ⟨q, hq, hcarries⟩ := hfrom g hg
    rw [hends hcarries] at hlt
    rw [hcarries.1] at hle
    obtain ⟨-, hproper', -⟩ := htiles.bounds.2 q hq
    rcases htiles.disjoint hp hq with rfl | hpq | hqp
    · exact ⟨g, hg, hcarries⟩
    · rw [fragStart] at hproper hpq
      omega
    · rw [fragStart] at hqp
      omega
  · intro hall p hp
    obtain ⟨a, ha, hle, hlt⟩ := htiles.covers (p := p) (by omega) (by omega)
    obtain ⟨g, hg, hcarries⟩ := hall a ha
    refine ⟨g, hg, ?_, hends hcarries ▸ hlt⟩
    rw [hcarries.1]
    rw [fragStart] at hle
    omega

theorem eq_first_of_tiles {first : SkBuff} {rest : List SkBuff} {y : Int}
    (htiles : Tiles fragStart SkBuff.fragEnd 0 (first :: rest) y) (hp : p ∈ first :: rest)
    (hoffset : p.iph.offset = 0) : p = first := by
  have hstart : p.fragStart = 0 := by
    rw [fragStart, hoffset]
    rfl
  have hproper := (htiles.bounds.2 p hp).2.1
  obtain ⟨hfirst, hlt, -⟩ := id htiles
  rcases htiles.disjoint hp (mem_cons_self ..) with h | h | h
  · exact h
  · omega
  · omega

theorem exists_last (hpieces : ∀ p ∈ ps, d.Piece p)
    (htiles : Tiles fragStart SkBuff.fragEnd 0 ps d.payload.length) (hne : d.payload ≠ []) :
    ∃ p ∈ ps, p.iph.mf = false := by
  have hpos := length_pos_iff.mpr hne
  obtain ⟨a, ha, -, hlt⟩ := htiles.covers (p := d.payload.length - 1) (by omega) (by omega)
  have hle := (htiles.bounds.2 a ha).2.2
  rw [(hpieces a ha).fragEnd] at hlt hle
  exact ⟨a, ha, (hpieces a ha).mf.mpr (by omega)⟩

/-- No piece of a tiling lies inside another. -/
theorem notInside_of_tiles (htiles : Tiles fragStart SkBuff.fragEnd 0 ps d.payload.length)
    (hfrom : ∀ g ∈ received, ∃ p ∈ ps, g.Carries p) : received.Pairwise NotInside := by
  refine pairwise_of_forall_mem_list fun a ha b hb => ?_
  obtain ⟨p, hp, hap, -⟩ := hfrom a ha
  obtain ⟨q, hq, hbq, -⟩ := hfrom b hb
  rw [NotInside, SkBuff.fragEnd, SkBuff.fragEnd, hap, hbq]
  show ¬(q.iph.offset < p.iph.offset ∧ p.fragEnd < q.fragEnd)
  have hp' := (htiles.bounds.2 p hp).2.1
  have hq' := (htiles.bounds.2 q hq).2.1
  have hdisjoint := htiles.disjoint hp hq
  simp only [fragStart] at hp' hq' hdisjoint
  rcases hdisjoint with rfl | hpq | hqp <;> omega

end

end

/-- Pieces of a datagram, cut once or again, are delivered in any order and any number
of times. When the last missing one arrives, and not before, the datagram is
returned: its data, and the header of the first piece with the length it had. -/
theorem fragments_round_trip {d : Datagram} {first : SkBuff} {rest : List SkBuff}
    (hpieces : Pieces d (first :: rest)) {s s1 s2 : IpState} {tr : List (SkBuff × Option SkBuff)}
    {skb : SkBuff} {r : Option SkBuff} {truesize : Nat} (hs : ipReassembly.Reachable s)
    (hnone : queueOf d.iph s.ipqueue = none) (hrun : Delivery d.iph s tr s1)
    (hmem : s1.ipFragMem ≤ ipfragHighThresh)
    (hcall : ipDefrag (.enough truesize) s1 skb = some (s2, r))
    (hfrom : ∀ g ∈ skb :: tr.map Prod.fst, ∃ p ∈ first :: rest, g.Carries p)
    (hmissing : ∃ p ∈ first :: rest, ∀ g ∈ tr.map Prod.fst, ¬g.Carries p)
    (hlast : ∀ p ∈ first :: rest, ∃ g ∈ skb :: tr.map Prod.fst, g.Carries p) :
    (∀ a ∈ tr, a.2 = none) ∧ ∃ g, r = some g ∧ g.data = d.payload.map some ∧
      g.iph = { first.iph with fragOff := 0, totLen := d.iph.totLen } := by
  obtain ⟨hps, htiles⟩ := hpieces.tiles
  have hreceived : ∀ g ∈ skb :: tr.map Prod.fst, d.Piece g := by
    intro g hg
    obtain ⟨p, hp, hcarries⟩ := hfrom g hg
    exact (hps p hp).carried hcarries
  have hslices := fun g hg => (hreceived g hg).slice
  have hopen : ¬d.CoveredBy (tr.map Prod.fst) := by
    rw [covered_iff htiles fun g hg => hfrom g (mem_cons_of_mem _ hg)]
    obtain ⟨p, hp, hnot⟩ := hmissing
    intro hall
    obtain ⟨g, hg, hcarries⟩ := hall p hp
    exact hnot g hg hcarries
  have hcov := (covered_iff htiles hfrom).mpr hlast
  have hne : d.payload ≠ [] := fun hnil => hopen fun p hp => by simp [hnil] at hp
  obtain ⟨hnones, hwhole, hgathered, hfrag⟩ :=
    hrun.next (reachable_ipInv hs) hnone hmem hcall hslices hopen
  have hfirst := hps first (by simp)
  have hstart : first.iph.offset = 0 := Int.natCast_eq_zero.mp htiles.1
  have hheader : ∀ g ∈ skb :: tr.map Prod.fst, g.iph.offset = 0 → g.iph = first.iph := by
    intro g hg hg0
    obtain ⟨p, hp, hcarries⟩ := hfrom g hg
    rw [hcarries.1] at hg0 ⊢
    rw [eq_first_of_tiles htiles hp hg0]
  refine ⟨hnones, ?_⟩
  by_cases h : skb.iph.Whole
  · have hskb := hreceived skb (by simp)
    have hlength : skb.data.length = d.payload.length := by
      have := hskb.mf.mp h.1
      have := h.2
      omega
    refine ⟨skb, hwhole h, hskb.data_of_length h.2 hlength, ?_⟩
    rw [← hheader skb (by simp) h.2, hpieces.totLen, ← hskb.hlen, ← hlength, ← hskb.totLen,
      BitVec.ofNat_toNat, BitVec.setWidth_eq]
    have hfragOff : skb.iph.fragOff = 0 := by
      rw [hskb.fragOff, h.1, h.2]
      rfl
    rw [← hfragOff]
  · obtain ⟨p, hp, hmf⟩ := exists_last hps htiles hne
    obtain ⟨g, hg, hcarries⟩ := hlast p hp
    obtain ⟨hdone, datagram, hglue, hdata, hiph⟩ := hgathered.glue hslices hcov hne
      (hgathered.upright (notInside_of_tiles htiles hfrom)) ⟨g, hg, hcarries.1 ▸ hmf⟩ truesize
    refine ⟨datagram, by rw [hfrag h, if_pos hdone, hglue], hdata, ?_⟩
    obtain ⟨g0, hg0, hcarries⟩ := hlast first (by simp)
    obtain ⟨g1, hg1, hoffset, heq⟩ := hgathered.header ⟨g0, hg0, by rw [hcarries.1, hstart]⟩
    rw [hiph, heq, hheader g1 hg1 hoffset, hpieces.totLen, hfirst.hlen]

/-- `bytes32` in a buffer, and the two pieces of it for a device with an MTU of 50. -/
def buffer32 : SkBuff where
  iph := bytes32.iph
  data := bytes32.payload.map some
  truesize := 300
  pktType := 0
  protocol := ethPIp

def lowHalf : SkBuff := pieceOf (fun _ => 0) buffer32 300 0 16 0 true

def highHalf : SkBuff := pieceOf (fun _ => 0) buffer32 300 16 16 16 false

theorem pieces32 : Pieces bytes32 [lowHalf, highHalf] := by
  have hcut : ipFragment (fun _ => 0) (fun _ => some 300) buffer32 14 50 0 =
      [lowHalf, highHalf] := by
    decide
  exact hcut ▸ .fragment rfl rfl rfl rfl rfl (fun _ => rfl) (by decide)

theorem fragments_round_trip_halves : ∃ g s1, ipDefrag (.enough 500) s1 lowHalf =
    some (⟨[], 0⟩, some g) ∧ g.data = bytes32.payload.map some := by
  have hhigh : ipDefrag (.enough 500) ⟨[], 0⟩ highHalf =
      some (⟨[(newQueue highHalf.iph).insert highHalf], 452⟩, none) := by decide
  have hlow : ipDefrag (.enough 500) ⟨[(newQueue highHalf.iph).insert highHalf], 452⟩ lowHalf =
      some (⟨[], 0⟩, ipGlue (.enough 500)
        ((ipRefresh ((newQueue highHalf.iph).insert highHalf) lowHalf.iph).insert lowHalf)) := by
    decide
  obtain ⟨-, g, hr, hdata, -⟩ := fragments_round_trip pieces32 (.init rfl) rfl
    (.own .nil (by decide) (by decide) hhigh) (by decide) hlow
    (by simp [SkBuff.Carries]) ⟨lowHalf, by simp, by simp [SkBuff.Carries]; decide⟩
    (by simp [SkBuff.Carries])
  exact ⟨g, _, hr ▸ hlow, hdata⟩

end Sbckernel.Net
