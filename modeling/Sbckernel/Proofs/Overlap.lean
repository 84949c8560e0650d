import Sbckernel.Proofs.Delivery

/-!
# Overlapping slices of one datagram

All fragments received are slices of one datagram, in any order and overlapping in
any way. The queue then covers what has been received, so that nothing is returned
before the slices cover the datagram. When they do, the datagram is returned unless
a queued fragment has been turned around: a slice that ends before the fragment in
front of it does gets a negative length by the cut, and `ip_glue` gives up over it,
or `ip_done` takes its end for that of the data before it.
-/

namespace Sbckernel.Net

open Lib Spans List

/-- A datagram before it is cut up. -/
structure Datagram where
  iph : Iphdr
  payload : List UInt8
  size : iph.hlen + payload.length ≤ 65535

/-- A fragment that carries a part of the datagram. Only one that ends it may say
so. -/
structure Datagram.Slice (d : Datagram) (skb : SkBuff) : Prop where
  same : sameDatagram skb.iph d.iph = true
  hlen : skb.iph.hlen ≤ d.iph.hlen
  header : skb.iph.hlen ≤ skb.iph.totLen.toNat
  inside : skb.fragEnd ≤ d.payload.length
  bytes : ∀ i : Nat, i < skb.iph.totLen.toNat - skb.iph.hlen →
    skb.byteAt i = d.payload[skb.iph.offset + i]?
  last : skb.iph.mf = false → skb.fragEnd = d.payload.length

instance (d : Datagram) (skb : SkBuff) : Decidable (d.Slice skb) :=
  decidable_of_iff (sameDatagram skb.iph d.iph = true ∧ skb.iph.hlen ≤ d.iph.hlen ∧
      skb.iph.hlen ≤ skb.iph.totLen.toNat ∧ skb.fragEnd ≤ d.payload.length ∧
      (∀ i : Nat, i < skb.iph.totLen.toNat - skb.iph.hlen →
        skb.byteAt i = d.payload[skb.iph.offset + i]?) ∧
      (skb.iph.mf = false → skb.fragEnd = d.payload.length))
    ⟨fun ⟨h1, h2, h3, h4, h5, h6⟩ => ⟨h1, h2, h3, h4, h5, h6⟩,
      fun h => ⟨h.same, h.hlen, h.header, h.inside, h.bytes, h.last⟩⟩

def Datagram.CoveredBy (d : Datagram) (received : List SkBuff) : Prop :=
  ∀ p : Nat, p < d.payload.length →
    ∃ skb ∈ received, skb.iph.offset ≤ p ∧ (p : Int) < skb.fragEnd

instance (d : Datagram) (received : List SkBuff) : Decidable (d.CoveredBy received) :=
  inferInstanceAs (Decidable (∀ p : Nat, p < d.payload.length → _))

/-- The data behind the header. -/
def SkBuff.payload (skb : SkBuff) : List (Option UInt8) :=
  skb.data.take (skb.iph.totLen.toNat - skb.iph.hlen)

/-- The later of two fragments does not end before the earlier, unless it starts no
later. -/
def NotInside (later earlier : SkBuff) : Prop :=
  ¬(earlier.iph.offset < later.iph.offset ∧ later.fragEnd < earlier.fragEnd)

/-- What holds of a queue that has received slices of `d`. -/
structure Gathered (d : Datagram) (received : List SkBuff) (qp : Ipq) : Prop where
  filled : FilledFrom received qp
  same : sameDatagram d.iph qp.iph = true
  hlen : qp.iph.hlen ≤ d.iph.hlen
  header : (∃ skb ∈ received, skb.iph.offset = 0) →
    ∃ skb ∈ received, skb.iph.offset = 0 ∧ qp.iph = skb.iph
  reached : qp.Reached
  covers : ∀ p, Covers Ipfrag.offset Ipfrag.last qp.fragments p ↔
    ∃ skb ∈ received, skb.iph.offset ≤ p ∧ p < skb.fragEnd
  pending : (∀ skb ∈ received, skb.iph.mf = true) → qp.len = 0
  closed : (∃ skb ∈ received, skb.iph.mf = false) → qp.len = d.payload.length
  upright : received.Pairwise NotInside → ∀ fp ∈ qp.fragments, 0 ≤ fp.len

section
variable {d : Datagram} {received : List SkBuff} {skb : SkBuff} {iph : Iphdr} {q qp : Ipq}
  {s s1 s' : IpState} {r : Option SkBuff} {tr : List (SkBuff × Option SkBuff)} {alloc : Alloc}

theorem gathered_new (hskb : d.Slice skb) : Gathered d [] (newQueue skb.iph) where
  filled := ⟨⟨.nil, nofun⟩, rfl, nofun⟩
  same := sameDatagram_symm hskb.same
  hlen := hskb.hlen
  header := fun ⟨_, h, _⟩ => nomatch h
  reached := fun h => absurd rfl h
  covers := fun _ => ⟨fun h => absurd h not_covers_nil, fun ⟨_, h, _⟩ => nomatch h⟩
  pending := fun _ => rfl
  closed := fun ⟨_, h, _⟩ => nomatch h
  upright := fun _ => nofun

/-- One more slice. -/
theorem Gathered.arrive (h : Gathered d received q) (hskb : d.Slice skb) :
    Gathered d (skb :: received) ((ipRefresh q skb.iph).insert skb) := by
  obtain ⟨-, hfrag, hlen, hiph⟩ := ipRefresh_eq q skb.iph
  obtain ⟨hfilled, hsame⟩ := h.filled.refresh (sameDatagram_trans hskb.same h.same)
  have hreached : (ipRefresh q skb.iph).Reached := by
    rw [Ipq.Reached, hfrag, hlen]
    exact h.reached
  have hlenAfter : ((ipRefresh q skb.iph).insert skb).len =
      if skb.iph.mf then q.len else skb.fragEnd := by
    show (ipRefresh q skb.iph).lenAfter skb = _
    rw [Ipq.lenAfter, hlen]
  refine ⟨hfilled.insert hsame, sameDatagram_trans (sameDatagram_symm hskb.same) hsame, ?_,
    fun hfirst => ?_, reached_insert hfilled.chained hreached skb,
    fun p => ?_, fun hmf => ?_, fun hlast => ?_, fun hinside fp hfp => ?_⟩
  · show (ipRefresh q skb.iph).iph.hlen ≤ _
    rcases hiph with ⟨heq, -⟩ | ⟨heq, -⟩
    · rw [heq]
      exact hskb.hlen
    · rw [heq]
      exact h.hlen
  · by_cases hoffset : skb.iph.offset = 0
    · exact ⟨skb, by simp, hoffset, by rw [ipRefresh, if_pos hoffset]; rfl⟩
    · obtain ⟨g, hg, hg0⟩ := hfirst
      rcases mem_cons.mp hg with rfl | hg
      · exact absurd hg0 hoffset
      · obtain ⟨g', hg', hg'0, heq⟩ := h.header ⟨g, hg, hg0⟩
        exact ⟨g', by simp [hg'], hg'0, by rw [ipRefresh, if_neg hoffset]; exact heq⟩
  · show Covers _ _ (insertFrag skb (ipRefresh q skb.iph).fragments) p ↔ _
    rw [covers_insertFrag skb hfilled.chained, hfrag, h.covers]
    simp [or_comm]
  · obtain ⟨hmf, hmfs⟩ := forall_mem_cons.mp hmf
    rw [hlenAfter, if_pos hmf]
    exact h.pending hmfs
  · rw [hlenAfter]
    cases hmf : skb.iph.mf with
    | false => exact hskb.last hmf
    | true =>
      obtain ⟨g, hg, hgmf⟩ := hlast
      rcases mem_cons.mp hg with rfl | hg
      · rw [hmf] at hgmf
        cases hgmf
      · exact h.closed ⟨g, hg, hgmf⟩
  · obtain ⟨hnew, hold⟩ := pairwise_cons.mp hinside
    rcases mem_insertFrag skb hfilled.chained hfp with rfl | ⟨b, hb, -, hlen⟩
    · refine newFrag_len_nonneg hskb.header fun a ha => ?_
      have hmem := (takeWhile_subset _) ha
      obtain ⟨hlast, -, -, hstart⟩ := hfilled.chained.sound a hmem
      have := mem_fragsBefore ha
      have hnot := hnew _ (hfilled.origin a hmem).1
      rw [NotInside, not_and, not_lt] at hnot
      exact hlast ▸ hnot (by omega)
    · exact hlen (h.upright hold b (hfrag ▸ hb))

/-- A length is known once a last slice is there. -/
theorem Gathered.len_ne_zero (h : Gathered d received qp) (hlen : qp.len ≠ 0) :
    ∃ skb ∈ received, skb.iph.mf = false := by
  by_contra hnone
  refine hlen (h.pending fun skb hskb => ?_)
  by_contra hmf
  exact hnone ⟨skb, hskb, by simpa using hmf⟩

/-- `ip_done` does not say so too early. -/
theorem Gathered.covered_of_done (h : Gathered d received qp) (hdone : ipDone qp = true) :
    d.CoveredBy received := by
  obtain ⟨hne, hgap⟩ := (ipDone_iff qp).mp hdone
  obtain ⟨fp, hfp, hle⟩ := h.reached hne
  rw [h.closed (h.len_ne_zero hne)] at hle
  intro p hp
  obtain ⟨skb, hskb, hin⟩ := (h.covers p).mp (hgap.covers hfp (by omega) (.inr (by omega)))
  exact ⟨skb, hskb, by omega⟩

/-- The datagram put together. -/
theorem Gathered.glue (h : Gathered d received qp) (hslices : ∀ skb ∈ received, d.Slice skb)
    (hcov : d.CoveredBy received) (hne : d.payload ≠ []) (hlens : ∀ fp ∈ qp.fragments, 0 ≤ fp.len)
    (hlast : ∃ skb ∈ received, skb.iph.mf = false) (truesize : Nat) :
    ipDone qp = true ∧ ∃ r, ipGlue (.enough truesize) qp = some r ∧ r.data = d.payload.map some ∧
      r.iph = { qp.iph with
        fragOff := 0
        totLen := BitVec.ofNat 16 (qp.iph.hlen + d.payload.length) } := by
  have hpos := length_pos_iff.mpr hne
  have hlen := h.closed hlast
  obtain ⟨hchained, hihlen, horigin⟩ := h.filled
  have hends : ∀ fp ∈ qp.fragments, fp.offset ≤ fp.last ∧ fp.last ≤ d.payload.length := by
    intro fp hfp
    have hsound := hchained.sound fp hfp
    have hlen := hsound.len
    have hlast := hsound.last
    have := hlens fp hfp
    have := (hslices _ (horigin fp hfp).1).inside
    omega
  have hgap : Gapless Ipfrag.offset Ipfrag.last qp.fragments 0 := by
    refine gapless_of_covers hchained.ordered (fun fp hfp => (hends fp hfp).1) (fun fp hfp => ?_)
      (fun fp hfp => (hends fp hfp).2) fun p hp hlt => ?_
    · have := (hchained.sound fp hfp).start
      omega
    · obtain ⟨skb, hskb, hle, hlt⟩ := hcov p.toNat (by omega)
      exact (h.covers p).mpr ⟨skb, hskb, by omega, by omega⟩
  have hfits : ∀ fp ∈ qp.fragments, 0 ≤ fp.len ∧ fp.offset + fp.len ≤ qp.len := by
    intro fp hfp
    have := hends fp hfp
    have := (hchained.sound fp hfp).len
    omega
  have hsize : qp.ihlen + qp.len ≤ 65535 := by
    have := h.hlen
    have := d.size
    omega
  obtain ⟨hall, hsum⟩ := complete_of_reach hchained hgap hfits (h.reached (by omega))
  obtain ⟨fp, hfp, -⟩ := hall 0 le_rfl (by omega)
  cases hfirst : qp.fragments.head? with
  | none =>
    rw [head?_eq_none_iff.mp hfirst] at hfp
    cases hfp
  | some first =>
    refine ⟨(ipDone_iff qp).mpr ⟨by omega, hgap⟩, _, ipGlue_of_fits hsize hfits rfl hfirst, ?_, ?_⟩
    · refine ext_getElem (by simp [glued, hlen]) fun p hp hp' => ?_
      have hpn : p < d.payload.length := by simpa using hp'
      have hbyte : (qp.fragments.map Ipfrag.copy).foldl Copy.run (fun _ => none) p =
          d.payload[p]? := by
        rcases run_copies hchained.sound (fun _ => none) p with
          ⟨fp, hfp, hle, hlt, heq⟩ | ⟨hnone, -⟩
        · obtain ⟨hlast, -, -, hstart⟩ := hchained.sound fp hfp
          rw [hlast, SkBuff.fragEnd] at hlt
          have hbytes := (hslices _ (horigin fp hfp).1).bytes (p - fp.skb.iph.offset) (by omega)
          rw [show fp.skb.iph.offset + (p - fp.skb.iph.offset) = p by omega] at hbytes
          rw [heq, ← hbytes]
          congr 1
          omega
        · exact absurd (hall p (by omega) (by omega)) hnone
      simpa [glued, hpn] using hbyte
    · show ({ qp.iph with fragOff := 0, totLen := BitVec.ofInt 16 (_ + _) } : Iphdr) = _
      rw [hsum, hlen, ← Int.natCast_add, BitVec.ofInt_natCast]

/-- The queue of the datagram, if there is one. -/
def Awaits (d : Datagram) (received : List SkBuff) : Option Ipq → Prop
  | none => received = []
  | some qp => Gathered d received qp

theorem Awaits.arrive {q : Option Ipq} (h : Awaits d received q) (hskb : d.Slice skb) :
    Gathered d (skb :: received) ((readyQueue q skb.iph).insert skb) := by
  cases q with
  | none =>
    obtain rfl : received = [] := h
    exact (gathered_new hskb).arrive hskb
  | some qp => exact Gathered.arrive h hskb

/-- A slice that is no fragment is the whole datagram. -/
theorem Datagram.Slice.covers_of_whole (h : d.Slice skb) (hwhole : skb.iph.Whole)
    (hmem : skb ∈ received) : d.CoveredBy received := by
  intro p hp
  have := h.last hwhole.1
  have := hwhole.2
  exact ⟨skb, hmem, by omega, by omega⟩

theorem Datagram.Slice.size (h : d.Slice skb) : skb.iph.totLen.toNat + skb.iph.offset ≤ 65535 := by
  have hinside := h.inside
  have := h.hlen
  have := d.size
  rw [SkBuff.fragEnd] at hinside
  omega

theorem arrival_of_call (hs : IpInv s)
    (hmem : s.ipFragMem ≤ ipfragHighThresh) (hcall : ipDefrag alloc s skb = some (s', r)) :
    Arrival alloc skb s s' r := by
  obtain ⟨s1, r1, heq, harrival, -⟩ :=
    ipDefrag_arrival alloc skb hmem fun q hq => (hs.queues q hq).chained
  obtain ⟨rfl, rfl⟩ := Prod.mk.inj (Option.some.inj (heq.symm.trans hcall))
  exact harrival

theorem Arrival.eq_of_whole
    (h : Arrival alloc skb s s' r) (hwhole : skb.iph.Whole) : r = some skb := by
  cases h with
  | whole | replaced => rfl
  | refused h | oversize h | failed h | queued h | glued h => exact absurd hwhole h

/-- Nothing is returned while something is missing, and nothing is lost. -/
theorem Delivery.awaits
    (h : Delivery d.iph s tr s1) (hs : IpInv s) (hnone : queueOf d.iph s.ipqueue = none)
    (hslices : ∀ a ∈ tr, d.Slice a.1) (hopen : ¬d.CoveredBy (tr.map Prod.fst)) :
    (∀ a ∈ tr, a.2 = none) ∧ Awaits d (tr.map Prod.fst) (queueOf d.iph s1.ipqueue) := by
  induction h with
  | nil =>
    rw [hnone]
    exact ⟨nofun, rfl⟩
  | @own tr s1 s2 skb r truesize hrun hsame hmem hcall ih =>
    obtain ⟨hskb, hslices⟩ := forall_mem_cons.mp hslices
    have hopen' : ¬d.CoveredBy (tr.map Prod.fst) := by
      intro hcov
      refine hopen fun p hp => ?_
      obtain ⟨g, hg, hin⟩ := hcov p hp
      exact ⟨g, mem_cons_of_mem _ hg, hin⟩
    obtain ⟨hnone', hawaits⟩ := ih hslices hopen'
    have hgathered := hawaits.arrive hskb
    rw [queueOf_congr hsame] at hgathered ⊢
    rcases (arrival_of_call (hrun.ipInv hs) hmem hcall).queueOf_own
      (fun hwhole => hopen (hskb.covers_of_whole hwhole (by simp))) hskb.size with
      ⟨-, rfl, heq⟩ | ⟨hdone, -⟩
    · rw [heq]
      exact ⟨forall_mem_cons.mpr ⟨rfl, hnone'⟩, hgathered⟩
    · exact absurd (hgathered.covered_of_done hdone) hopen
  | @other tr s1 s2 skb r alloc hrun hother hmem hcall ih =>
    rw [(arrival_of_call (hrun.ipInv hs) hmem hcall).queueOf_other hother]
    exact ih hslices hopen
  | expires _ hother ih =>
    rw [queueOf_skip hother] at ih
    exact ih hslices hopen

/-- The arrival after which nothing may be missing. -/
theorem Delivery.next {s2 : IpState} {truesize : Nat} (hrun : Delivery d.iph s tr s1) (hs : IpInv s)
    (hnone : queueOf d.iph s.ipqueue = none) (hmem : s1.ipFragMem ≤ ipfragHighThresh)
    (hcall : ipDefrag (.enough truesize) s1 skb = some (s2, r))
    (hslices : ∀ g ∈ skb :: tr.map Prod.fst, d.Slice g) (hopen : ¬d.CoveredBy (tr.map Prod.fst)) :
    (∀ a ∈ tr, a.2 = none) ∧ (skb.iph.Whole → r = some skb) ∧
      Gathered d (skb :: tr.map Prod.fst)
        ((readyQueue (queueOf skb.iph s1.ipqueue) skb.iph).insert skb) ∧
      (¬skb.iph.Whole → r =
        if ipDone ((readyQueue (queueOf skb.iph s1.ipqueue) skb.iph).insert skb) then
          ipGlue (.enough truesize) ((readyQueue (queueOf skb.iph s1.ipqueue) skb.iph).insert skb)
        else none) := by
  obtain ⟨hskb, hothers⟩ := forall_mem_cons.mp hslices
  have harrival := arrival_of_call (hrun.ipInv hs) hmem hcall
  obtain ⟨hnones, hawaits⟩ :=
    hrun.awaits hs hnone (fun a ha => hothers _ (mem_map_of_mem ha)) hopen
  rw [queueOf_congr hskb.same] at hawaits
  refine ⟨hnones, harrival.eq_of_whole, hawaits.arrive hskb, fun hfrag => ?_⟩
  rcases harrival.queueOf_own hfrag hskb.size with ⟨hdone, hr, -⟩ | ⟨hdone, hr⟩
  · rw [hdone, if_neg Bool.false_ne_true, hr]
  · rw [hdone, if_pos rfl, hr]

/-- What `ip_defrag` returned is the datagram. -/
def Datagram.Returned (d : Datagram) (r : Option SkBuff) : Prop :=
  ∃ skb, r = some skb ∧ skb.payload = d.payload.map some

theorem Datagram.Slice.returned_of_whole (h : d.Slice skb) (hwhole : skb.iph.Whole) :
    d.Returned (some skb) := by
  refine ⟨skb, rfl, ext_getElem? fun i => ?_⟩
  have hend := h.last hwhole.1
  have hfragEnd : skb.fragEnd = skb.iph.offset + skb.iph.totLen.toNat - skb.iph.hlen := rfl
  have hoffset := hwhole.2
  rw [SkBuff.payload, getElem?_take, getElem?_map]
  split
  next hi =>
    have hbyte := h.bytes i (by omega)
    rw [hoffset, zero_add, SkBuff.byteAt, if_pos (by omega), Int.toNat_natCast] at hbyte
    have hi' : i < d.payload.length := by omega
    rw [getElem?_eq_getElem hi'] at hbyte ⊢
    exact Option.join_eq_some_iff.mp hbyte
  next hi => rw [getElem?_eq_none (by omega), Option.map_none]

theorem Gathered.returned (h : Gathered d received qp) {r : SkBuff}
    (hdata : r.data = d.payload.map some) (hiph : r.iph = { qp.iph with
      fragOff := 0
      totLen := BitVec.ofNat 16 (qp.iph.hlen + d.payload.length) }) : d.Returned (some r) := by
  refine ⟨r, rfl, ?_⟩
  have htake : r.iph.totLen.toNat - r.iph.hlen = d.payload.length := by
    have := h.hlen
    have := d.size
    rw [hiph]
    show (BitVec.ofNat 16 (qp.iph.hlen + d.payload.length)).toNat - qp.iph.hlen = _
    rw [BitVec.toNat_ofNat]
    omega
  rw [SkBuff.payload, htake, hdata, ← length_map (f := some), take_length]

/-- The chain that `ip_done` looks at when `skb` arrives. -/
def chainWith (s : IpState) (skb : SkBuff) : List Ipfrag :=
  match ipQueueFor (.enough 0) s skb.iph with
  | (none, _) => []
  | (some (_, qp, _), mem) => (ipInsert (.enough 0) qp skb mem).1.fragments

theorem chainWith_eq (hs : IpInv s) (skb : SkBuff) : chainWith s skb =
    ((readyQueue (queueOf skb.iph s.ipqueue) skb.iph).insert skb).fragments := by
  rw [chainWith]
  rcases ipQueueFor_cases (.enough 0) s skb.iph with ⟨h | h, -⟩ | ⟨before, qp, behind, mem, heq, hq⟩
  · cases h
  · cases h
  · have hchained := hq.chained fun q hq => (hs.queues q hq).chained
    obtain ⟨mem', hinsert, -⟩ := ipInsert_spec (.enough 0) hchained skb mem
    rw [heq]
    dsimp only
    rw [hinsert, ← hq.ready.1]
    rfl

end

/-- When slices of a datagram first cover it, it is returned exactly if the last of
them is the whole datagram, or one of them is marked as the last and no fragment in
the queue has been turned around. That is so whenever none lies inside one that has
been received before. -/
theorem overlap_returned_iff {d : Datagram} {s s1 s2 : IpState}
    {tr : List (SkBuff × Option SkBuff)} {skb : SkBuff} {r : Option SkBuff} {truesize : Nat}
    (hs : ipReassembly.Reachable s) (hnone : queueOf d.iph s.ipqueue = none)
    (hrun : Delivery d.iph s tr s1) (hmem : s1.ipFragMem ≤ ipfragHighThresh)
    (hcall : ipDefrag (.enough truesize) s1 skb = some (s2, r))
    (hslices : ∀ g ∈ skb :: tr.map Prod.fst, d.Slice g) (hopen : ¬d.CoveredBy (tr.map Prod.fst))
    (hcov : d.CoveredBy (skb :: tr.map Prod.fst)) :
    (∀ a ∈ tr, a.2 = none) ∧
      (d.Returned r ↔ skb.iph.Whole ∨ ((∀ fp ∈ chainWith s1 skb, 0 ≤ fp.len) ∧
        ∃ g ∈ skb :: tr.map Prod.fst, g.iph.mf = false)) ∧
      ((skb :: tr.map Prod.fst).Pairwise NotInside → ∀ fp ∈ chainWith s1 skb, 0 ≤ fp.len) := by
  obtain ⟨hskb, -⟩ := forall_mem_cons.mp hslices
  have hinv := reachable_ipInv hs
  obtain ⟨hnones, hwhole, hgathered, hfrag⟩ := hrun.next hinv hnone hmem hcall hslices hopen
  rw [chainWith_eq (hrun.ipInv hinv)]
  refine ⟨hnones, ⟨fun hret => ?_, fun hcond => ?_⟩, hgathered.upright⟩
  · rw [or_iff_not_imp_left]
    intro hnot
    obtain ⟨g, rfl, -⟩ := hret
    have hr := hfrag hnot
    split at hr
    next hdone =>
      refine ⟨fun fp hfp => ((ipGlue_eq_some.mp hr.symm).2.1 fp hfp).1, ?_⟩
      exact hgathered.len_ne_zero ((ipDone_iff _).mp hdone).1
    · cases hr
  · by_cases h : skb.iph.Whole
    · rw [hwhole h]
      exact hskb.returned_of_whole h
    · have hne : d.payload ≠ [] := fun hnil => hopen fun p hp => by simp [hnil] at hp
      obtain ⟨hlens, hlast⟩ := hcond.resolve_left h
      obtain ⟨hdone, g, hglue, hdata, hiph⟩ :=
        hgathered.glue hslices hcov hne hlens hlast truesize
      rw [hfrag h, if_pos hdone, hglue]
      exact hgathered.returned hdata hiph

/-- A slice of a datagram. -/
def Datagram.slice (d : Datagram) (start len : Nat) (mf : Bool) : SkBuff where
  iph := { d.iph with
    totLen := BitVec.ofNat 16 (d.iph.hlen + len)
    fragOff := BitVec.ofNat 16 (start / 8) ||| if mf then ipMf else 0 }
  data := ((d.payload.drop start).take len).map some
  truesize := 300
  pktType := 0
  protocol := ethPIp

/-- A datagram of 32 bytes. -/
def bytes32 : Datagram where
  iph := { firstEight.iph with totLen := 52, fragOff := 0 }
  payload := (List.range 32).map UInt8.ofNat
  size := by decide

/-- The queue of `bytes32` with the bytes from 8 on. -/
def tailQueue : Ipq := (newQueue (bytes32.slice 8 24 false).iph).insert (bytes32.slice 8 24 false)

theorem delivery_tail : Delivery bytes32.iph ⟨[], 0⟩ [(bytes32.slice 8 24 false, none)]
    ⟨[tailQueue], 452⟩ := by
  have hcall : ipDefrag (.enough 500) ⟨[], 0⟩ (bytes32.slice 8 24 false) =
      some (⟨[tailQueue], 452⟩, none) := by decide
  exact .own .nil (by decide) (by decide) hcall

theorem overlap_returned_iff_two : ∃ r, bytes32.Returned r ∧
    ipDefrag (.enough 500) ⟨[tailQueue], 452⟩ (bytes32.slice 0 16 true) = some (⟨[], 0⟩, r) := by
  have hcall : ipDefrag (.enough 500) ⟨[tailQueue], 452⟩ (bytes32.slice 0 16 true) =
      some (⟨[], 0⟩, ipGlue (.enough 500)
        ((ipRefresh tailQueue (bytes32.slice 0 16 true).iph).insert
          (bytes32.slice 0 16 true))) := by decide
  refine ⟨_, (overlap_returned_iff (.init rfl) rfl delivery_tail (by decide) hcall ?_ ?_ ?_).2.1.mpr
    (.inr ?_), hcall⟩
  all_goals decide

/-- Eight bytes inside those that are queued already get a negative length, and the
datagram is lost when the first eight arrive. -/
theorem overlap_lost : ∃ tr s1 skb, Delivery bytes32.iph ⟨[], 0⟩ tr s1 ∧
    (∀ g ∈ skb :: tr.map Prod.fst, bytes32.Slice g) ∧
    (∃ g ∈ skb :: tr.map Prod.fst, g.iph.mf = false) ∧ ¬bytes32.CoveredBy (tr.map Prod.fst) ∧
    bytes32.CoveredBy (skb :: tr.map Prod.fst) ∧
    ipDefrag (.enough 500) s1 skb = some (⟨[], 0⟩, none) := by
  have hcall : ipDefrag (.enough 500) ⟨[tailQueue], 452⟩ (bytes32.slice 16 8 true) =
      some (⟨[tailQueue.insert (bytes32.slice 16 8 true)], 780⟩, none) := by decide
  refine ⟨_, _, bytes32.slice 0 8 true, .own delivery_tail (by decide) (by decide) hcall, ?_⟩
  decide

end Sbckernel.Net
