import Sbckernel.Proofs.FragmentQueue

/-!
# What an arriving fragment does

A call of `ip_defrag`, once the evictor has run, ends in one of seven ways. They
are the constructors of `Arrival`, which names the queue the fragment went to and
what became of it; everything that is said about runs of `ip_defrag` below goes
through them.
-/

namespace Sbckernel.Net

open List

/-- What a queue gives back. -/
def queueCharge (qp : Ipq) : Int := sizeofIpq + (64 + 8) + charge qp.fragments

theorem ipFree_eq (qp : Ipq) (mem : Int) : ipFree qp mem = mem - queueCharge qp := by
  have hfold : qp.fragments.foldl (fun mem fp => mem - fp.skb.truesize - sizeofIpfrag) mem =
      mem - charge qp.fragments := foldl_refund qp.fragments mem
  rw [ipFree, hfold, queueCharge]
  omega

/-- What `ip_create` puts into the list. -/
def newQueue (iph : Iphdr) : Ipq :=
  { iph := iph, len := 0, ihlen := iph.hlen, timer := true, fragments := [] }

/-- A datagram that is no fragment. -/
def Iphdr.Whole (iph : Iphdr) : Prop := iph.mf = false ∧ iph.offset = 0

/-- The first queue of a datagram, between the others. -/
structure First (iph : Iphdr) (l before : List Ipq) (qp : Ipq) (behind : List Ipq) : Prop where
  split : l = before ++ qp :: behind
  same : sameDatagram iph qp.iph = true
  before : ∀ q ∈ before, sameDatagram iph q.iph = false

/-- The queue that `ip_defrag` works on, its place in the list, and the memory
charged. -/
inductive QueueFor (iph : Iphdr) (s : IpState) : List Ipq → Ipq → List Ipq → Int → Prop
  | found {before behind : List Ipq} {qp : Ipq} (h : First iph s.ipqueue before qp behind) :
      QueueFor iph s before (ipRefresh qp iph) behind s.ipFragMem
  | created (h : ∀ q ∈ s.ipqueue, sameDatagram iph q.iph = false) :
      QueueFor iph s [] (newQueue iph) s.ipqueue (s.ipFragMem + sizeofIpq + (64 + 8))

/-- The ways in which `ip_defrag` ends. -/
inductive Arrival (alloc : Alloc) (skb : SkBuff) (s : IpState) : IpState → Option SkBuff → Prop
  | whole (h : skb.iph.Whole) (hnone : ∀ q ∈ s.ipqueue, sameDatagram skb.iph q.iph = false) :
      Arrival alloc skb s s (some skb)
  | replaced (h : skb.iph.Whole) {before behind : List Ipq} {qp : Ipq}
      (hfirst : First skb.iph s.ipqueue before qp behind) :
      Arrival alloc skb s ⟨before ++ behind, s.ipFragMem - queueCharge qp⟩ (some skb)
  | refused (h : ¬skb.iph.Whole) (halloc : alloc.ipq = false ∨ alloc.iph = false) :
      Arrival alloc skb s s none
  | oversize (h : ¬skb.iph.Whole) {before behind : List Ipq} {qp : Ipq} {mem : Int}
      (hq : QueueFor skb.iph s before qp behind mem)
      (hsize : 65535 < skb.iph.totLen.toNat + skb.iph.offset) :
      Arrival alloc skb s ⟨before ++ qp :: behind, mem⟩ none
  | failed (h : ¬skb.iph.Whole) {before behind : List Ipq} {qp : Ipq} {mem mem' : Int}
      (hq : QueueFor skb.iph s before qp behind mem) (halloc : alloc.ipfrag = false)
      (hmem : mem' - queueCharge (qp.trim skb) = mem - queueCharge qp)
      (hle : mem' ≤ mem + sizeofIpfrag + skb.truesize) :
      Arrival alloc skb s ⟨before ++ qp.trim skb :: behind, mem'⟩ none
  | queued (h : ¬skb.iph.Whole) {before behind : List Ipq} {qp : Ipq} {mem mem' : Int}
      (hq : QueueFor skb.iph s before qp behind mem)
      (hsize : skb.iph.totLen.toNat + skb.iph.offset ≤ 65535)
      (hdone : ipDone (qp.insert skb) = false)
      (hmem : mem' - queueCharge (qp.insert skb) = mem - queueCharge qp)
      (hle : mem' ≤ mem + sizeofIpfrag + skb.truesize) :
      Arrival alloc skb s ⟨before ++ qp.insert skb :: behind, mem'⟩ none
  | glued (h : ¬skb.iph.Whole) {before behind : List Ipq} {qp : Ipq} {mem : Int}
      (hq : QueueFor skb.iph s before qp behind mem)
      (hsize : skb.iph.totLen.toNat + skb.iph.offset ≤ 65535)
      (hdone : ipDone (qp.insert skb) = true) :
      Arrival alloc skb s ⟨before ++ behind, mem - queueCharge qp⟩ (ipGlue alloc (qp.insert skb))

/-- The queue that `ip_defrag` hands to `ip_glue`, if it comes to that. -/
def ipDefragGlues (alloc : Alloc) (s : IpState) (skb : SkBuff) : Option Ipq :=
  let evicted := if s.ipFragMem > ipfragHighThresh then ipEvictor s.ipqueue s.ipFragMem else some s
  match evicted with
  | none => none
  | some s =>
    if ¬skb.iph.mf ∧ skb.iph.offset = 0 then none
    else
      match ipQueueFor alloc s skb.iph with
      | (none, _) => none
      | (some (_, qp, _), mem) =>
        if skb.iph.totLen.toNat + skb.iph.offset > 65535 then none
        else
          match ipInsert alloc qp skb mem with
          | (_, _, false) => none
          | (qp, _, true) => if ipDone qp then some qp else none

section
variable {alloc : Alloc} {skb : SkBuff} {iph : Iphdr} {s s' : IpState} {l before behind : List Ipq}
  {qp : Ipq} {mem : Int} {r : Option SkBuff}

/-! ## Finding the queue -/

theorem ipFind_some (h : ipFind iph l = some (before, qp, behind)) :
    ∃ qp0, qp = { qp0 with timer := false } ∧ First iph l before qp0 behind := by
  induction l generalizing before with
  | nil => cases h
  | cons q l ih =>
    rw [ipFind] at h
    split at h
    next hsame =>
      cases h
      exact ⟨q, rfl, rfl, hsame, nofun⟩
    next hother =>
      split at h
      · cases h
      next before' found behind' hfind =>
        cases h
        obtain ⟨qp0, heq, rfl, hsame, hbefore⟩ := ih hfind
        exact ⟨qp0, heq, rfl, hsame, forall_mem_cons.mpr ⟨by simpa using hother, hbefore⟩⟩

theorem ipFind_none (h : ipFind iph l = none) : ∀ q ∈ l, sameDatagram iph q.iph = false := by
  induction l with
  | nil => nofun
  | cons q l ih =>
    rw [ipFind] at h
    split at h
    · cases h
    next hother =>
      split at h
      next hfind => exact forall_mem_cons.mpr ⟨by simpa using hother, ih hfind⟩
      · cases h

theorem ipRefresh_eq (qp : Ipq) (iph : Iphdr) :
    (ipRefresh qp iph).timer = true ∧ (ipRefresh qp iph).fragments = qp.fragments ∧
      (ipRefresh qp iph).len = qp.len ∧
      ((ipRefresh qp iph).iph = iph ∧ (ipRefresh qp iph).ihlen = iph.hlen ∨
        (ipRefresh qp iph).iph = qp.iph ∧ (ipRefresh qp iph).ihlen = qp.ihlen) := by
  rw [ipRefresh]
  split
  · exact ⟨rfl, rfl, rfl, .inl ⟨rfl, rfl⟩⟩
  · exact ⟨rfl, rfl, rfl, .inr ⟨rfl, rfl⟩⟩

/-- Stopping the timer first makes no difference: it is started again. -/
theorem ipRefresh_timer (qp : Ipq) (iph : Iphdr) :
    ipRefresh { qp with timer := false } iph = ipRefresh qp iph := by
  rw [ipRefresh, ipRefresh]
  split <;> rfl

theorem ipQueueFor_cases (alloc : Alloc) (s : IpState) (iph : Iphdr) :
    ((alloc.ipq = false ∨ alloc.iph = false) ∧ ipQueueFor alloc s iph = (none, s.ipFragMem)) ∨
      ∃ before qp behind mem, ipQueueFor alloc s iph = (some (before, qp, behind), mem) ∧
        QueueFor iph s before qp behind mem := by
  rw [ipQueueFor]
  cases hfind : ipFind iph s.ipqueue with
  | some found =>
    obtain ⟨before, qp, behind⟩ := found
    obtain ⟨qp0, rfl, hfirst⟩ := ipFind_some hfind
    dsimp only
    rw [ipRefresh_timer]
    exact .inr ⟨_, _, _, _, rfl, .found hfirst⟩
  | none =>
    rw [ipCreate]
    cases hipq : alloc.ipq with
    | false => exact .inl ⟨.inl rfl, rfl⟩
    | true =>
      cases hiph : alloc.iph with
      | false =>
        refine .inl ⟨.inr rfl, Prod.ext rfl ?_⟩
        show s.ipFragMem + sizeofIpq - sizeofIpq = s.ipFragMem
        omega
      | true => exact .inr ⟨_, _, _, _, rfl, .created (ipFind_none hfind)⟩

theorem QueueFor.chained (h : QueueFor iph s before qp behind mem)
    (hs : ∀ q ∈ s.ipqueue, Chained q.fragments) : Chained qp.fragments := by
  cases h with
  | @found _ _ q hfirst =>
    rw [(ipRefresh_eq q iph).2.1]
    exact hs q (by simp [hfirst.split])
  | created => exact ⟨.nil, nofun⟩

/-! ## The call -/

theorem ipEvictor_some (h : ipEvictor l mem = some s') :
    s'.ipqueue <:+ l ∧ s'.ipFragMem ≤ ipfragLowThresh := by
  induction l generalizing mem with
  | nil =>
    rw [ipEvictor] at h
    split at h
    · cases h
    next hle =>
      cases h
      exact ⟨suffix_rfl, not_lt.mp hle⟩
  | cons q l ih =>
    rw [ipEvictor] at h
    split at h
    · obtain ⟨hsuffix, hle⟩ := ih h
      exact ⟨hsuffix.trans (suffix_cons ..), hle⟩
    next hle =>
      cases h
      exact ⟨suffix_rfl, not_lt.mp hle⟩

/-- Below the threshold nothing is evicted and the call returns. -/
theorem ipDefrag_arrival (alloc : Alloc) (skb : SkBuff) (hmem : s.ipFragMem ≤ ipfragHighThresh)
    (hs : ∀ q ∈ s.ipqueue, Chained q.fragments) :
    ∃ s' r, ipDefrag alloc s skb = some (s', r) ∧ Arrival alloc skb s s' r ∧
      ∀ qp, ipDefragGlues alloc s skb = some qp → ipDone qp = true ∧
        ∃ before q behind mem, QueueFor skb.iph s before q behind mem ∧ qp = q.insert skb := by
  rw [ipDefrag, ipDefragGlues, if_neg (not_lt.mpr hmem)]
  dsimp only
  by_cases hwhole : ¬skb.iph.mf = true ∧ skb.iph.offset = 0
  · have h : skb.iph.Whole := ⟨by simpa using hwhole.1, hwhole.2⟩
    rw [if_pos hwhole, if_pos hwhole, ipReplace]
    refine ⟨_, _, rfl, ?_, nofun⟩
    cases hfind : ipFind skb.iph s.ipqueue with
    | none => exact .whole h (ipFind_none hfind)
    | some found =>
      obtain ⟨before, qp, behind⟩ := found
      obtain ⟨qp0, rfl, hfirst⟩ := ipFind_some hfind
      dsimp only
      rw [ipFree_eq, show queueCharge { qp0 with timer := false } = queueCharge qp0 from rfl]
      exact .replaced h hfirst
  · have h : ¬skb.iph.Whole := fun hw => hwhole ⟨by simp [hw.1], hw.2⟩
    rw [if_neg hwhole, if_neg hwhole]
    rcases ipQueueFor_cases alloc s skb.iph with ⟨halloc, heq⟩ | ⟨before, qp, behind, mem, heq, hq⟩
    · rw [heq]
      exact ⟨_, _, rfl, .refused h halloc, nofun⟩
    · rw [heq]
      dsimp only
      rw [ipDefragQueue]
      by_cases hsize : skb.iph.totLen.toNat + skb.iph.offset > 65535
      · rw [if_pos hsize, if_pos hsize]
        exact ⟨_, _, rfl, .oversize h hq hsize, nofun⟩
      · obtain ⟨mem', hinsert, hmem', hle⟩ := ipInsert_spec alloc (hq.chained hs) skb mem
        rw [if_neg hsize, if_neg hsize, hinsert]
        cases hfrag : alloc.ipfrag with
        | false =>
          rw [hfrag, if_neg Bool.false_ne_true] at hmem'
          refine ⟨_, _, rfl, .failed h hq hfrag ?_ hle, nofun⟩
          rw [queueCharge, queueCharge]
          omega
        | true =>
          rw [hfrag, if_pos rfl] at hmem'
          dsimp only
          rw [if_pos rfl]
          cases hdone : ipDone (qp.insert skb) with
          | false =>
            refine ⟨_, _, rfl, .queued h hq (not_lt.mp hsize) hdone ?_ hle, nofun⟩
            rw [queueCharge, queueCharge]
            omega
          | true =>
            have hfree : ipFree (qp.insert skb) mem' = mem - queueCharge qp := by
              rw [ipFree_eq, queueCharge, queueCharge]
              omega
            refine ⟨⟨before ++ behind, ipFree (qp.insert skb) mem'⟩, _, rfl, ?_, ?_⟩
            · rw [hfree]
              exact .glued h hq (not_lt.mp hsize) hdone
            · intro q hglue
              obtain rfl : qp.insert skb = q := Option.some.inj hglue
              exact ⟨hdone, _, _, _, _, hq, rfl⟩

/-- Each queue has been there before, or is the one of the fragment. -/
theorem Arrival.mem_ipqueue (h : Arrival alloc skb s s' r) {q : Ipq} (hq : q ∈ s'.ipqueue) :
    q ∈ s.ipqueue ∨ ∃ before qp behind mem, QueueFor skb.iph s before qp behind mem ∧
      (q = qp ∨ (alloc.ipfrag = false ∧ q = qp.trim skb) ∨ q = qp.insert skb) := by
  have hothers : ∀ {before qp behind mem}, QueueFor skb.iph s before qp behind mem →
      ∀ a, a ∈ before ∨ a ∈ behind → a ∈ s.ipqueue := by
    intro before qp behind mem hfor a ha
    cases hfor with
    | found hfirst => rcases ha with ha | ha <;> simp [hfirst.split, ha]
    | created => simpa using ha
  have hupdated : ∀ {before qp behind mem qp'}, QueueFor skb.iph s before qp behind mem →
      q ∈ before ++ qp' :: behind → q ∈ s.ipqueue ∨ q = qp' := by
    intro before qp behind mem qp' hfor hmem
    rcases mem_append.mp hmem with ha | ha
    · exact .inl (hothers hfor q (.inl ha))
    · rcases mem_cons.mp ha with rfl | ha
      · exact .inr rfl
      · exact .inl (hothers hfor q (.inr ha))
  cases h with
  | whole => exact .inl hq
  | replaced _ hfirst =>
    rcases mem_append.mp hq with hq | hq <;> exact .inl (by simp [hfirst.split, hq])
  | refused => exact .inl hq
  | oversize _ hfor => exact (hupdated hfor hq).imp_right fun heq => ⟨_, _, _, _, hfor, .inl heq⟩
  | failed _ hfor halloc =>
    exact (hupdated hfor hq).imp_right fun heq =>
      ⟨_, _, _, _, hfor, .inr (.inl ⟨halloc, heq⟩)⟩
  | queued _ hfor =>
    exact (hupdated hfor hq).imp_right fun heq => ⟨_, _, _, _, hfor, .inr (.inr heq)⟩
  | glued _ hfor => exact .inl (hothers hfor q (mem_append.mp hq))

/-- For a fragment the call returns what `ip_glue` does, if it comes to that. -/
theorem ipDefrag_result (h : ipDefrag alloc s skb = some (s', r)) :
    (skb.iph.Whole ∧ r = some skb) ∨ r = (ipDefragGlues alloc s skb).bind (ipGlue alloc) := by
  unfold ipDefrag at h
  unfold ipDefragGlues
  generalize (if s.ipFragMem > ipfragHighThresh then ipEvictor s.ipqueue s.ipFragMem
    else some s) = evicted at h ⊢
  cases evicted with
  | none => cases h
  | some s1 =>
    dsimp only at h ⊢
    split at h
    next hwhole =>
      cases h
      exact .inl ⟨⟨by simpa using hwhole.1, hwhole.2⟩, rfl⟩
    next hwhole =>
      refine .inr ?_
      rw [if_neg hwhole]
      generalize ipQueueFor alloc s1 skb.iph = found at h ⊢
      rcases found with ⟨_ | ⟨before, qp, behind⟩, mem⟩
      · cases h
        rfl
      · unfold ipDefragQueue at h
        dsimp only at h ⊢
        split
        next hsize =>
          rw [if_pos hsize] at h
          cases h
          rfl
        next hsize =>
          rw [if_neg hsize] at h
          split
          next hinsert =>
            rw [hinsert] at h
            cases h
            rfl
          next qp' mem' hinsert =>
            rw [hinsert] at h
            dsimp only at h
            cases hdone : ipDone qp' with
            | false | true =>
              rw [hdone] at h
              cases h
              rfl

/-- Above the threshold the call is one on what the evictor leaves. -/
theorem ipDefrag_evict (alloc : Alloc) (skb : SkBuff) {s1 : IpState}
    (h : (if s.ipFragMem > ipfragHighThresh then ipEvictor s.ipqueue s.ipFragMem else some s) =
      some s1) :
    s1.ipqueue <:+ s.ipqueue ∧ s1.ipFragMem ≤ ipfragHighThresh ∧
      ipDefrag alloc s skb = ipDefrag alloc s1 skb ∧
      ipDefragGlues alloc s skb = ipDefragGlues alloc s1 skb := by
  have hsmall : s1.ipqueue <:+ s.ipqueue ∧ s1.ipFragMem ≤ ipfragHighThresh := by
    split at h
    · obtain ⟨hsuffix, hle⟩ := ipEvictor_some h
      exact ⟨hsuffix, hle.trans (by decide)⟩
    next hle =>
      cases h
      exact ⟨suffix_rfl, not_lt.mp hle⟩
  have hlow := not_lt.mpr hsmall.2
  refine ⟨hsmall.1, hsmall.2, ?_, ?_⟩
  · rw [ipDefrag, ipDefrag, h, if_neg hlow]
  · rw [ipDefragGlues, ipDefragGlues, h, if_neg hlow]

/-- A call that returns is an arrival after an eviction. -/
theorem ipDefrag_cases (h : ipDefrag alloc s skb = some (s', r))
    (hs : ∀ q ∈ s.ipqueue, Chained q.fragments) :
    ∃ s1, s1.ipqueue <:+ s.ipqueue ∧ Arrival alloc skb s1 s' r ∧
      ∀ qp, ipDefragGlues alloc s skb = some qp → ipDone qp = true ∧
        ∃ before q behind mem, QueueFor skb.iph s1 before q behind mem ∧ qp = q.insert skb := by
  cases hevict : (if s.ipFragMem > ipfragHighThresh then ipEvictor s.ipqueue s.ipFragMem
      else some s) with
  | none =>
    rw [ipDefrag, hevict] at h
    cases h
  | some s1 =>
    obtain ⟨hsuffix, hle, hcall, hglues⟩ := ipDefrag_evict alloc skb hevict
    obtain ⟨s2, r2, heq, harrival, hglue⟩ :=
      ipDefrag_arrival alloc skb hle fun q hq => hs q (hsuffix.subset hq)
    obtain ⟨rfl, rfl⟩ : s2 = s' ∧ r2 = r := by simpa using heq.symm.trans (hcall.symm.trans h)
    exact ⟨s1, hsuffix, harrival, by rw [hglues]; exact hglue⟩

end

end Sbckernel.Net
