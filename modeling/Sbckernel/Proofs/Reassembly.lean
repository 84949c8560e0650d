import Sbckernel.Proofs.FragmentMemory

/-!
# Reassembly of hostile fragments

Whatever fragments arrive, each copy of `ip_glue` stays inside both buffers: the
loop checks the one, and a queued fragment never claims more than was received
of it.

That the copies fill the whole datagram is not checked. It holds if some queued
fragment reaches `qp->len`. The fragment that sets `qp->len` does, and nothing
that is queued later can undo it; but `ip_defrag` sets `qp->len` and throws away
overlapping fragments before it knows whether there is memory for the new one. If
there is none, `ip_done` no longer sees that the end is missing, and the new
buffer goes out with bytes that were never written.
-/

namespace Sbckernel.Net

open Lib Spans List

variable {truesize : Nat} {first : Ipfrag} {skb : SkBuff}

/-! ## `ip_done` and `ip_glue` -/

/-- The copy that `ip_glue` makes for a fragment. -/
def Ipfrag.copy (fp : Ipfrag) : Copy := ⟨fp.offset, fp.skb, fp.ptr, fp.len⟩

/-- The buffer that `ip_glue` builds. -/
def glued (qp : Ipq) (truesize : Nat) (first : Ipfrag) : SkBuff where
  iph := { qp.iph with
    fragOff := 0
    totLen := BitVec.ofInt 16 (qp.iph.hlen + ((qp.fragments.map Ipfrag.copy).map Copy.len).sum) }
  data := (List.range qp.len.toNat).map fun (p : Nat) =>
    (qp.fragments.map Ipfrag.copy).foldl Copy.run (fun _ => none) p
  truesize := truesize
  pktType := first.skb.pktType
  protocol := first.skb.protocol

section
variable {alloc : Alloc} {qp : Ipq} {l : List Ipfrag} {ihlen skbLen p : Int} {c : Copy} {r : SkBuff}

theorem ipDoneLoop_iff (l : List Ipfrag) (x : Int) :
    ipDoneLoop l x = true ↔ Gapless Ipfrag.offset Ipfrag.last l x := by
  induction l generalizing x with
  | nil => exact ⟨fun _ => trivial, fun _ => rfl⟩
  | cons fp l ih =>
    rw [ipDoneLoop, Gapless, ← ih]
    split
    next h => exact ⟨nofun, fun hle => absurd hle.1 (not_le.mpr h)⟩
    next h => exact ⟨fun hl => ⟨not_lt.mp h, hl⟩, fun hl => hl.2⟩

theorem ipDone_iff (qp : Ipq) :
    ipDone qp = true ↔ qp.len ≠ 0 ∧ Gapless Ipfrag.offset Ipfrag.last qp.fragments 0 := by
  rw [ipDone, ← ipDoneLoop_iff]
  split
  next h => exact ⟨nofun, fun hne => absurd h hne.1⟩
  next h => exact ⟨fun hl => ⟨h, hl⟩, fun hl => hl.2⟩

/-- Each copy is one of a fragment that has passed the check. -/
theorem mem_ipGlueLoop (h : c ∈ (ipGlueLoop ihlen skbLen l).1) :
    ∃ fp ∈ l, c = fp.copy ∧ 0 ≤ fp.len ∧ fp.offset + ihlen + fp.len ≤ skbLen := by
  induction l with
  | nil => cases h
  | cons fp l ih =>
    rw [ipGlueLoop] at h
    split at h
    · cases h
    next hfits =>
      rcases mem_cons.mp h with rfl | h
      · exact ⟨fp, by simp, rfl, by omega⟩
      · obtain ⟨b, hb, hcopy⟩ := ih h
        exact ⟨b, by simp [hb], hcopy⟩

theorem ipGlueLoop_eq (ihlen skbLen : Int) (l : List Ipfrag) :
    ((∀ fp ∈ l, 0 ≤ fp.len ∧ fp.offset + ihlen + fp.len ≤ skbLen) ∧
        ipGlueLoop ihlen skbLen l = (l.map Ipfrag.copy, true)) ∨
      ((∃ fp ∈ l, fp.len < 0 ∨ skbLen < fp.offset + ihlen + fp.len) ∧
        (ipGlueLoop ihlen skbLen l).2 = false) := by
  induction l with
  | nil => exact .inl ⟨nofun, rfl⟩
  | cons fp l ih =>
    rw [ipGlueLoop]
    split
    next hout => exact .inr ⟨⟨fp, by simp, hout⟩, rfl⟩
    next hfits =>
      rcases ih with ⟨hall, heq⟩ | ⟨⟨b, hb, hout⟩, heq⟩
      · rw [heq]
        exact .inl ⟨forall_mem_cons.mpr ⟨by omega, hall⟩, rfl⟩
      · exact .inr ⟨⟨b, by simp [hb], hout⟩, heq⟩

theorem ipGlue_of_fits (hsize : qp.ihlen + qp.len ≤ 65535)
    (hall : ∀ fp ∈ qp.fragments, 0 ≤ fp.len ∧ fp.offset + fp.len ≤ qp.len)
    (halloc : alloc.skb = some truesize) (hfirst : qp.fragments.head? = some first) :
    ipGlue alloc qp = some (glued qp truesize first) := by
  obtain ⟨iph, len, ihlen, timer, fragments⟩ := qp
  obtain ⟨l, rfl⟩ : ∃ l, fragments = first :: l := head?_eq_some_iff.mp hfirst
  rcases ipGlueLoop_eq ihlen (ihlen + len) (first :: l) with ⟨-, heq⟩ | ⟨⟨fp, hfp, hout⟩, -⟩
  · rw [ipGlue]
    rw [if_neg (not_lt.mpr hsize), halloc, heq]
    rfl
  · have := hall fp hfp
    dsimp only at this
    omega

/-- `ip_glue` returns a datagram if it fits, if there is memory for it and if no
fragment is turned around or ends behind it. -/
theorem ipGlue_eq_some : ipGlue alloc qp = some r ↔
    qp.ihlen + qp.len ≤ 65535 ∧ (∀ fp ∈ qp.fragments, 0 ≤ fp.len ∧ fp.offset + fp.len ≤ qp.len) ∧
      ∃ truesize first, alloc.skb = some truesize ∧ qp.fragments.head? = some first ∧
        r = glued qp truesize first := by
  refine ⟨fun h => ?_, fun ⟨hsize, hall, truesize, first, halloc, hfirst, hr⟩ => ?_⟩
  · have h' := h
    obtain ⟨iph, len, ihlen, timer, fragments⟩ := qp
    rw [ipGlue] at h'
    split at h'
    · cases h'
    next hsize =>
      cases halloc : alloc.skb with
      | none =>
        rw [halloc] at h'
        cases h'
      | some truesize =>
        rw [halloc] at h'
        rcases ipGlueLoop_eq ihlen (ihlen + len) fragments with ⟨hall, -⟩ | ⟨-, hstuck⟩
        · have hfits : ∀ fp ∈ fragments, 0 ≤ fp.len ∧ fp.offset + fp.len ≤ len := by
            intro fp hfp
            have := hall fp hfp
            omega
          refine ⟨not_lt.mp hsize, hfits, truesize, ?_⟩
          cases fragments with
          | nil => cases h'
          | cons first l =>
            have hglue : ipGlue alloc ⟨iph, len, ihlen, timer, first :: l⟩ = some _ :=
              ipGlue_of_fits (not_lt.mp hsize) hfits halloc rfl
            exact ⟨first, rfl, rfl, Option.some.inj (h.symm.trans hglue)⟩
        · rw [show ipGlueLoop ihlen (ihlen + len) fragments =
            ((ipGlueLoop ihlen (ihlen + len) fragments).1, false) from Prod.ext rfl hstuck] at h'
          cases h'
  · rw [hr]
    exact ipGlue_of_fits hsize hall halloc hfirst

theorem glued_totLen :
    ((glued qp truesize first).iph.totLen.toNat : Int) =
      (qp.iph.hlen + ((qp.fragments.map Ipfrag.copy).map Copy.len).sum) % 65536 := by
  show (((BitVec.ofInt 16 _).toNat : Nat) : Int) = _
  rw [BitVec.toNat_ofInt]
  omega

theorem glued_byteAt {p : Nat} (hp : p < qp.len.toNat) :
    (glued qp truesize first).byteAt p =
      (qp.fragments.map Ipfrag.copy).foldl Copy.run (fun _ => none) p := by
  rw [SkBuff.byteAt, if_pos (by omega), Int.toNat_natCast, glued]
  simp [hp]

theorem glue_len_nonneg (h : Chained qp.fragments) (hr : ipGlue alloc qp = some r) :
    0 ≤ qp.len := by
  obtain ⟨-, hfits, truesize, first, -, hfirst, -⟩ := ipGlue_eq_some.mp hr
  have hmem := mem_of_head? hfirst
  have := hfits first hmem
  have := (h.sound first hmem).start
  omega

/-- After the copies a byte of the buffer is that of a fragment which covers its
place, if there is one. -/
theorem run_copies (hl : ∀ fp ∈ l, fp.Sound) (buffer : Int → Option UInt8) (p : Int) :
    (∃ fp ∈ l, fp.offset ≤ p ∧ p < fp.last ∧
        (l.map Ipfrag.copy).foldl Copy.run buffer p = fp.skb.byteAt (p - fp.skb.iph.offset)) ∨
      (¬Covers Ipfrag.offset Ipfrag.last l p ∧
        (l.map Ipfrag.copy).foldl Copy.run buffer p = buffer p) := by
  induction l generalizing buffer with
  | nil => exact .inr ⟨not_covers_nil, rfl⟩
  | cons fp l ih =>
    obtain ⟨hfp, hl⟩ := forall_mem_cons.mp hl
    rw [map_cons, foldl_cons]
    rcases ih hl (Copy.run buffer fp.copy) with ⟨b, hb, hcov⟩ | ⟨hnone, heq⟩
    · exact .inl ⟨b, by simp [hb], hcov⟩
    · have hrun : Copy.run buffer fp.copy p = if fp.offset ≤ p ∧ p < fp.offset + fp.len then
          fp.skb.byteAt (fp.ptr + (p - fp.offset)) else buffer p := rfl
      have hlen := hfp.len
      rw [heq, hrun]
      split
      next hin =>
        refine .inl ⟨fp, by simp, hin.1, by omega, ?_⟩
        rw [hfp.ptr]
        congr 1
        omega
      next hout =>
        refine .inr ⟨fun hcov => ?_, rfl⟩
        rcases covers_cons.mp hcov with hin | hcov
        · exact hout ⟨hin.1, by omega⟩
        · exact hnone hcov

/-- Gapless fragments that reach the end and do not go beyond it cover each place
once. -/
theorem complete_of_reach {len : Int} (h : Chained l) (hgap : Gapless Ipfrag.offset Ipfrag.last l 0)
    (hfits : ∀ fp ∈ l, 0 ≤ fp.len ∧ fp.offset + fp.len ≤ len) (hreach : ∃ fp ∈ l, len ≤ fp.last) :
    (∀ p, 0 ≤ p → p < len → Covers Ipfrag.offset Ipfrag.last l p) ∧
      ((l.map Ipfrag.copy).map Copy.len).sum = len := by
  have hends : ∀ fp ∈ l, fp.offset ≤ fp.last ∧ fp.last ≤ len := by
    intro fp hfp
    have := hfits fp hfp
    have := (h.sound fp hfp).len
    omega
  have hstart : ∀ fp ∈ l, 0 ≤ fp.offset := by
    intro fp hfp
    have := (h.sound fp hfp).start
    omega
  obtain ⟨a, ha, hle⟩ := hreach
  refine ⟨fun p hp hlt => hgap.covers ha hp (.inr (by omega)), ?_⟩
  have hsum := hgap.sum_eq h.ordered hstart
  have hlens : (l.map fun fp => fp.last - fp.offset) = (l.map Ipfrag.copy).map Copy.len := by
    rw [map_map]
    exact map_congr_left fun fp hfp => (h.sound fp hfp).len.symm
  have hstop := (le_stop h.ordered (fun fp hfp => (hends fp hfp).1) hstart).2 a ha
  rw [hlens, zero_add] at hsum
  rw [hsum]
  refine le_antisymm ?_ (hle.trans hstop)
  rcases stop_mem Ipfrag.last 0 l with h0 | ⟨b, hb, hstop⟩
  · have := hstart a ha
    have := hends a ha
    omega
  · rw [hstop]
    exact (hends b hb).2

end

/-! ## Queues and what has been received -/

/-- A fragment as a driver delivers it: at least the header, at most what has been
received, and that has been written. -/
structure SkBuff.Received (skb : SkBuff) : Prop where
  header : skb.iph.hlen ≤ skb.iph.totLen.toNat
  length : skb.iph.totLen.toNat ≤ skb.iph.hlen + skb.data.length
  written : ∀ b ∈ skb.data, b ≠ none

theorem SkBuff.Received.byteAt (h : skb.Received) {i : Int} (hi : 0 ≤ i)
    (hlt : skb.iph.offset + i < skb.fragEnd) : ∃ b, skb.byteAt i = some b := by
  have hlen : i.toNat < skb.data.length := by
    have := h.length
    rw [fragEnd] at hlt
    omega
  rw [SkBuff.byteAt, if_pos hi, getElem?_eq_getElem hlen, Option.join_some]
  exact Option.ne_none_iff_exists'.mp (h.written _ (getElem_mem hlen))

theorem sameDatagram_iff {iph iph' : Iphdr} : sameDatagram iph iph' = true ↔
    iph.id = iph'.id ∧ iph.saddr = iph'.saddr ∧ iph.daddr = iph'.daddr ∧
      iph.protocol = iph'.protocol := by
  simp [sameDatagram, and_assoc]

/-- What holds of a queue filled with received fragments. -/
structure FilledFrom (received : List SkBuff) (qp : Ipq) : Prop where
  chained : Chained qp.fragments
  ihlen : qp.ihlen = qp.iph.hlen
  origin : ∀ fp ∈ qp.fragments, fp.skb ∈ received ∧ sameDatagram fp.skb.iph qp.iph = true

/-- Some fragment reaches the length that a last fragment has set. -/
def Ipq.Reached (qp : Ipq) : Prop := qp.len ≠ 0 → ∃ fp ∈ qp.fragments, qp.len ≤ fp.last

section
variable {alloc : Alloc} {iph : Iphdr} {s s' : IpState} {before behind : List Ipq}
  {qp : Ipq} {mem : Int} {received : List SkBuff} {r : Option SkBuff}

theorem FilledFrom.cons (h : FilledFrom received qp) (skb : SkBuff) :
    FilledFrom (skb :: received) qp :=
  ⟨h.chained, h.ihlen, fun fp hfp => ⟨by simp [(h.origin fp hfp).1], (h.origin fp hfp).2⟩⟩

theorem FilledFrom.refresh (h : FilledFrom received qp) (hsame : sameDatagram iph qp.iph = true) :
    FilledFrom received (ipRefresh qp iph) ∧ sameDatagram iph (ipRefresh qp iph).iph = true := by
  obtain ⟨-, hfrag, -, hiph⟩ := ipRefresh_eq qp iph
  obtain ⟨hchained, hihlen, horigin⟩ := h
  rw [← hfrag] at hchained horigin
  rcases hiph with ⟨hiph, hlen⟩ | ⟨hiph, hlen⟩
  · refine ⟨⟨hchained, by rw [hiph, hlen], fun fp hfp => ⟨(horigin fp hfp).1, ?_⟩⟩, ?_⟩
    · have hfp := (horigin fp hfp).2
      rw [sameDatagram_iff] at hsame hfp ⊢
      rw [hiph, hsame.1, hsame.2.1, hsame.2.2.1, hsame.2.2.2]
      exact hfp
    · rw [hiph, sameDatagram_iff]
      exact ⟨rfl, rfl, rfl, rfl⟩
  · exact ⟨⟨hchained, by rw [hiph, hlen, hihlen], by rw [hiph]; exact horigin⟩,
      by rw [hiph]; exact hsame⟩

/-- The queue for a fragment has been filled like all others. -/
theorem QueueFor.filledFrom (h : QueueFor iph s before qp behind mem)
    (hs : ∀ q ∈ s.ipqueue, FilledFrom received q) :
    FilledFrom received qp ∧ sameDatagram iph qp.iph = true := by
  cases h with
  | @found _ _ q hfirst => exact (hs q (by simp [hfirst.split])).refresh hfirst.same
  | created =>
    exact ⟨⟨⟨.nil, nofun⟩, rfl, nofun⟩, sameDatagram_iff.mpr ⟨rfl, rfl, rfl, rfl⟩⟩

theorem QueueFor.reached (h : QueueFor iph s before qp behind mem)
    (hs : ∀ q ∈ s.ipqueue, q.Reached) : qp.Reached := by
  cases h with
  | @found _ _ q hfirst =>
    obtain ⟨-, hfrag, hlen, -⟩ := ipRefresh_eq q iph
    rw [Ipq.Reached, hfrag, hlen]
    exact hs q (by simp [hfirst.split])
  | created => exact fun h => absurd rfl h

theorem FilledFrom.insert (h : FilledFrom received qp) (hsame : sameDatagram skb.iph qp.iph = true)
    : FilledFrom (skb :: received) (qp.insert skb) := by
  refine ⟨chained_insertFrag skb h.chained, h.ihlen, fun fp hfp => ?_⟩
  rcases mem_insertFrag skb h.chained hfp with rfl | ⟨b, hb, heq, -⟩
  · exact ⟨mem_cons_self .., hsame⟩
  · rw [heq]
    exact (h.cons skb).origin b hb

theorem FilledFrom.trim (h : FilledFrom received qp) (skb : SkBuff) :
    FilledFrom received (qp.trim skb) := by
  obtain ⟨-, hfrom, -, -⟩ := clip_spec (chained_split h.chained skb.iph.offset).2.1 skb.fragEnd
  refine ⟨chained_trimFrags skb h.chained, h.ihlen, fun fp hfp => ?_⟩
  rcases mem_append.mp hfp with hfp | hfp
  · exact h.origin fp ((takeWhile_subset _) hfp)
  · obtain ⟨-, b, hb, -, -, heq, -⟩ := hfrom fp hfp
    rw [heq]
    exact h.origin b ((dropWhile_subset _) hb)

/-- The fragment that sets the length reaches it, and none that is queued later
changes that. -/
theorem reached_insert (h : Chained qp.fragments) (hr : qp.Reached) (skb : SkBuff) :
    (qp.insert skb).Reached := by
  obtain ⟨hnew, hold⟩ := reach_insertFrag skb h
  show qp.lenAfter skb ≠ 0 → ∃ fp ∈ insertFrag skb qp.fragments, qp.lenAfter skb ≤ fp.last
  rw [Ipq.lenAfter]
  split
  · intro hne
    obtain ⟨b, hb, hle⟩ := hr hne
    obtain ⟨a, ha, hle'⟩ := hold b hb
    exact ⟨a, ha, hle.trans hle'⟩
  · obtain ⟨a, ha, heq⟩ := hnew
    exact fun _ => ⟨a, ha, heq.ge⟩

theorem reached_trim (h : Chained qp.fragments) (hr : qp.Reached) (hmf : skb.iph.mf = true)
    (hend : qp.len = 0 ∨ skb.fragEnd < qp.len) : (qp.trim skb).Reached := by
  obtain ⟨-, -, hkeep, -⟩ := clip_spec (chained_split h skb.iph.offset).2.1 skb.fragEnd
  have hlen : qp.lenAfter skb = qp.len := if_pos hmf
  show qp.lenAfter skb ≠ 0 → ∃ fp ∈ trimFrags skb qp.fragments, qp.lenAfter skb ≤ fp.last
  rw [hlen]
  intro hne
  obtain ⟨b, hb, hle⟩ := hr hne
  rw [← fragsBefore_append skb.iph.offset qp.fragments] at hb
  rcases mem_append.mp hb with hb | hb
  · exact ⟨b, by simp [trimFrags, hb], hle⟩
  · rcases hkeep b hb with hend' | ⟨a, ha, heq⟩
    · omega
    · exact ⟨a, by simp [trimFrags, ha], heq ▸ hle⟩

end

/-! ## All runs -/

/-- The queues, and the fragments received so far. -/
structure Traffic where
  ip : IpState
  received : List SkBuff

/-- A received fragment arrives in a state where `P` allows it, or a timer runs
out. -/
inductive TrafficStep (P : Alloc → IpState → SkBuff → Prop) : Traffic → Traffic → Prop
  | arrives {alloc : Alloc} {s s' : IpState} {received : List SkBuff} {skb : SkBuff}
      {r : Option SkBuff} (hskb : skb.Received) (hp : P alloc s skb)
      (h : ipDefrag alloc s skb = some (s', r)) :
      TrafficStep P ⟨s, received⟩ ⟨s', skb :: received⟩
  | expires {before behind : List Ipq} {qp : Ipq} {mem : Int} {received : List SkBuff}
      (h : qp.timer = true) :
      TrafficStep P ⟨⟨before ++ qp :: behind, mem⟩, received⟩
        ⟨ipExpire before qp behind mem, received⟩

def traffic (P : Alloc → IpState → SkBuff → Prop) : System Traffic where
  init t := t = ⟨⟨[], 0⟩, []⟩
  step := TrafficStep P

/-- If there is no memory to queue a fragment it is not a last one, and ends in
front of the end that is known of its datagram. -/
def Spares (alloc : Alloc) (s : IpState) (skb : SkBuff) : Prop :=
  alloc.ipfrag = true ∨ (skb.iph.mf = true ∧
    ∀ qp ∈ s.ipqueue, sameDatagram skb.iph qp.iph = true → qp.len = 0 ∨ skb.fragEnd < qp.len)

/-- A call of `ip_glue` that copies within its buffers, and whose datagram is made
of received bytes. -/
structure GlueSafe (received : List SkBuff) (alloc : Alloc) (qp : Ipq) : Prop where
  copies : ∀ c ∈ (ipGlueLoop qp.ihlen (qp.ihlen + qp.len) qp.fragments).1,
    0 ≤ c.len ∧ 0 ≤ c.offset ∧ c.offset + c.len ≤ qp.len ∧ 0 ≤ c.ptr ∧
      c.ptr + c.len ≤ c.skb.data.length
  totLen : ∀ r, ipGlue alloc qp = some r → (r.iph.totLen.toNat : Int) = r.iph.hlen + qp.len
  bytes : ∀ r, ipGlue alloc qp = some r → (r.data.length : Int) = qp.len ∧
    ∀ p : Nat, p < r.data.length → ∃ skb ∈ received, sameDatagram skb.iph qp.iph = true ∧
      skb.iph.offset ≤ p ∧ (p : Int) < skb.fragEnd ∧
      ∃ b, skb.byteAt (p - skb.iph.offset) = some b ∧ r.byteAt p = some b

structure TrafficInv (t : Traffic) : Prop where
  received : ∀ skb ∈ t.received, skb.Received
  queues : ∀ qp ∈ t.ip.ipqueue, FilledFrom t.received qp

section
variable {alloc : Alloc} {s s' : IpState} {r : Option SkBuff} {qp : Ipq}
  {received : List SkBuff} {t t' : Traffic} {P : Alloc → IpState → SkBuff → Prop}

theorem TrafficInv.step (h : TrafficInv t) (hstep : TrafficStep P t t') : TrafficInv t' := by
  cases hstep with
  | @arrives alloc s s' received skb r hskb _ hcall =>
    refine ⟨forall_mem_cons.mpr ⟨hskb, h.received⟩, fun q hq => ?_⟩
    obtain ⟨s1, hsuffix, harrival, -⟩ := ipDefrag_cases hcall fun q hq => (h.queues q hq).chained
    have hs1 : ∀ q ∈ s1.ipqueue, FilledFrom received q := fun q hq => h.queues q (hsuffix.subset hq)
    rcases harrival.mem_ipqueue hq with hq | ⟨before, qp, behind, mem, hfor, hqp⟩
    · exact (hs1 q hq).cons skb
    · obtain ⟨hfilled, hsame⟩ := hfor.filledFrom hs1
      rcases hqp with rfl | ⟨-, rfl⟩ | rfl
      · exact hfilled.cons skb
      · exact (hfilled.trim skb).cons skb
      · exact hfilled.insert hsame
  | expires =>
    refine ⟨h.received, fun q hq => h.queues q ?_⟩
    rcases mem_append.mp hq with hq | hq <;> simp [hq]

theorem reached_step (h : TrafficInv t) (hr : ∀ q ∈ t.ip.ipqueue, q.Reached)
    (hstep : TrafficStep Spares t t') : ∀ q ∈ t'.ip.ipqueue, q.Reached := by
  cases hstep with
  | @arrives alloc s s' received skb r _ hspares hcall =>
    intro q hq
    obtain ⟨s1, hsuffix, harrival, -⟩ := ipDefrag_cases hcall fun q hq => (h.queues q hq).chained
    have hs1 : ∀ q ∈ s1.ipqueue, q.Reached := fun q hq => hr q (hsuffix.subset hq)
    rcases harrival.mem_ipqueue hq with hq | ⟨before, qp, behind, mem, hfor, hqp⟩
    · exact hs1 q hq
    · have hreached := hfor.reached hs1
      have hchained := hfor.chained fun q hq => (h.queues q (hsuffix.subset hq)).chained
      rcases hqp with rfl | ⟨halloc, rfl⟩ | rfl
      · exact hreached
      · rcases hspares with hfrag | ⟨hmf, hend⟩
        · rw [halloc] at hfrag
          cases hfrag
        · refine reached_trim hchained hreached hmf ?_
          cases hfor with
          | @found _ _ q hfirst =>
            rw [(ipRefresh_eq q skb.iph).2.2.1]
            exact hend q (hsuffix.subset (by simp [hfirst.split])) hfirst.same
          | created => exact .inl rfl
      · exact reached_insert hchained hreached skb
  | expires =>
    intro q hq
    rcases mem_append.mp hq with hq | hq <;> exact hr q (by simp [hq])

theorem reachable_traffic (h : (traffic Spares).Reachable t) :
    TrafficInv t ∧ ∀ q ∈ t.ip.ipqueue, q.Reached := by
  refine h.invariant (I := fun t => TrafficInv t ∧ ∀ q ∈ t.ip.ipqueue, q.Reached)
    (fun t hinit => ?_) fun t t' ht hstep => ⟨ht.1.step hstep, reached_step ht.1 ht.2 hstep⟩
  obtain rfl : t = ⟨⟨[], 0⟩, []⟩ := hinit
  exact ⟨⟨nofun, nofun⟩, nofun⟩

/-- The copies stay within the buffers whether or not the end has been reached. -/
theorem copies_within (hreceived : ∀ skb ∈ received, skb.Received) (h : FilledFrom received qp) :
    ∀ c ∈ (ipGlueLoop qp.ihlen (qp.ihlen + qp.len) qp.fragments).1, 0 ≤ c.len ∧ 0 ≤ c.offset ∧
      c.offset + c.len ≤ qp.len ∧ 0 ≤ c.ptr ∧ c.ptr + c.len ≤ c.skb.data.length := by
  intro c hc
  obtain ⟨fp, hfp, rfl, hlen, hfits⟩ := mem_ipGlueLoop hc
  obtain ⟨hlast, hlen', hptr, hstart⟩ := h.chained.sound fp hfp
  have hlength := (hreceived _ (h.origin fp hfp).1).length
  rw [SkBuff.fragEnd] at hlast
  show 0 ≤ fp.len ∧ 0 ≤ fp.offset ∧ fp.offset + fp.len ≤ qp.len ∧ 0 ≤ fp.ptr ∧
    fp.ptr + fp.len ≤ fp.skb.data.length
  omega

theorem FilledFrom.glueSafe (hreceived : ∀ skb ∈ received, skb.Received)
    (h : FilledFrom received qp) (hdone : ipDone qp = true) (hreached : qp.Reached) :
    GlueSafe received alloc qp := by
  obtain ⟨hne, hgap⟩ := (ipDone_iff qp).mp hdone
  have hcomplete : ∀ r, ipGlue alloc qp = some r → _ := fun r hr =>
    complete_of_reach h.chained hgap (ipGlue_eq_some.mp hr).2.1 (hreached hne)
  refine ⟨copies_within hreceived h, fun r hr => ?_, fun r hr => ?_⟩
  · obtain ⟨-, hsum⟩ := hcomplete r hr
    obtain ⟨hsize, -, truesize, first, -, -, rfl⟩ := ipGlue_eq_some.mp hr
    rw [h.ihlen] at hsize
    have hlen := glue_len_nonneg h.chained hr
    rw [glued_totLen, hsum]
    show _ = (qp.iph.hlen : Int) + qp.len
    omega
  · obtain ⟨hcov, -⟩ := hcomplete r hr
    have hlen := glue_len_nonneg h.chained hr
    obtain ⟨-, -, truesize, first, -, -, rfl⟩ := ipGlue_eq_some.mp hr
    have hlength : (glued qp truesize first).data.length = qp.len.toNat := by simp [glued]
    refine ⟨by omega, fun p hp => ?_⟩
    rw [hlength] at hp
    rw [glued_byteAt hp]
    rcases run_copies h.chained.sound (fun _ => none) p with ⟨fp, hfp, hle, hlt, heq⟩ | ⟨hnone, -⟩
    · obtain ⟨hmem, hsame⟩ := h.origin fp hfp
      obtain ⟨hlast, -, -, hstart⟩ := h.chained.sound fp hfp
      obtain ⟨b, hb⟩ := (hreceived _ hmem).byteAt (i := p - fp.skb.iph.offset) (by omega) (by omega)
      exact ⟨fp.skb, hmem, hsame, by omega, hlast ▸ hlt, b, hb, heq.trans hb⟩
    · exact absurd (hcov p (by omega) (by omega)) hnone

end

/-- In every run in which a fragment for which there is no memory is not a last one
and ends in front of the known end, `ip_glue` copies received bytes only, within its
buffers, and all that the datagram has. -/
theorem reassembly_safe {t : Traffic} (h : (traffic Spares).Reachable t) {alloc : Alloc}
    {skb : SkBuff} {s' : IpState} {r : Option SkBuff} (hskb : skb.Received)
    (hcall : ipDefrag alloc t.ip skb = some (s', r)) :
    ((skb.iph.Whole ∧ r = some skb) ∨ r = (ipDefragGlues alloc t.ip skb).bind (ipGlue alloc)) ∧
      ∀ qp, ipDefragGlues alloc t.ip skb = some qp → GlueSafe (skb :: t.received) alloc qp := by
  refine ⟨ipDefrag_result hcall, fun qp hglues => ?_⟩
  obtain ⟨hinv, hreached⟩ := reachable_traffic h
  obtain ⟨s1, hsuffix, -, hglue⟩ := ipDefrag_cases hcall fun q hq => (hinv.queues q hq).chained
  obtain ⟨hdone, before, q, behind, mem, hfor, rfl⟩ := hglue qp hglues
  obtain ⟨hfilled, hsame⟩ := hfor.filledFrom fun q hq => hinv.queues q (hsuffix.subset hq)
  have hreached' := hfor.reached fun q hq => hreached q (hsuffix.subset hq)
  exact (hfilled.insert hsame).glueSafe (forall_mem_cons.mpr ⟨hskb, hinv.received⟩) hdone
    (reached_insert hfilled.chained hreached' skb)

theorem firstEight_received : firstEight.Received := ⟨by decide, by decide, by decide +kernel⟩

/-- The last eight bytes of the datagram. -/
def lastEight : SkBuff := { firstEight with iph := { firstEight.iph with fragOff := 1 } }

theorem lastEight_received : lastEight.Received := ⟨by decide, by decide, by decide +kernel⟩

theorem reassembly_safe_two :
    ipDefragGlues (.enough 500) ⟨[firstQueue], 452⟩ lastEight = some (firstQueue.insert lastEight) ∧
      ipGlue (.enough 500) (firstQueue.insert lastEight) ≠ none ∧
      GlueSafe [lastEight, firstEight] (.enough 500) (firstQueue.insert lastEight) := by
  have hfirst : ipDefrag (.enough 500) ⟨[], 0⟩ firstEight = some (⟨[firstQueue], 452⟩, none) := by
    decide
  have h : (traffic Spares).Reachable ⟨⟨[firstQueue], 452⟩, [firstEight]⟩ :=
    .step (.init rfl) (.arrives firstEight_received (.inl rfl) hfirst)
  have hlast : ipDefrag (.enough 500) ⟨[firstQueue], 452⟩ lastEight =
      some (⟨[], 0⟩, ipGlue (.enough 500) (firstQueue.insert lastEight)) := by decide
  have hglues : ipDefragGlues (.enough 500) ⟨[firstQueue], 452⟩ lastEight =
      some (firstQueue.insert lastEight) := by decide
  exact ⟨hglues, by decide, (reassembly_safe h lastEight_received hlast).2 _ hglues⟩

/-- There is no memory for the last fragment, and the first one completes the
datagram without it. -/
theorem reassembly_unsafe : ∃ t s' qp r, (traffic fun _ _ _ => True).Reachable t ∧
    ipDefragGlues (.enough 500) t.ip firstEight = some qp ∧
    ipDefrag (.enough 500) t.ip firstEight = some (s', some r) ∧
    qp.len = 16 ∧ r.data.length = 16 ∧ r.iph.totLen = 28 ∧ r.byteAt 8 = none := by
  have hfailed : ipDefrag { Alloc.enough 500 with ipfrag := false } ⟨[], 0⟩ lastEight =
      some (⟨[{ newQueue lastEight.iph with len := 16 }], 124⟩, none) := by decide
  have h : (traffic fun _ _ _ => True).Reachable
      ⟨⟨[{ newQueue lastEight.iph with len := 16 }], 124⟩, [lastEight]⟩ :=
    .step (.init rfl) (.arrives lastEight_received trivial hfailed)
  refine ⟨_, ⟨[], 0⟩,
    { newQueue firstEight.iph with len := 16, fragments := [newFrag firstEight []] },
    glued { newQueue firstEight.iph with len := 16, fragments := [newFrag firstEight []] } 500
      (newFrag firstEight []), h, ?_⟩
  decide

end Sbckernel.Net
