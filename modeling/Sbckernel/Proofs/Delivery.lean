import Sbckernel.Proofs.Reassembly

/-!
# The queue of one datagram

Fragments of many datagrams arrive interleaved. What they do to the queue of one
datagram depends on that datagram's fragments alone: an arrival of another one
leaves it as it is, whether or not there is memory for it, and so does the timer
of another queue.
-/

namespace Sbckernel.Net

/-- The queue that `ip_find` would find. -/
def queueOf (key : Iphdr) (l : List Ipq) : Option Ipq := l.find? fun q => sameDatagram key q.iph

/-- The queue as `ip_defrag` makes it ready for a fragment. -/
def readyQueue (q : Option Ipq) (iph : Iphdr) : Ipq := ipRefresh (q.getD (newQueue iph)) iph

/-- Arrivals, newest first, of the fragments of one datagram with what `ip_defrag`
returned for each, while fragments of others come in and other queues expire.
Nothing is evicted, and for this datagram there is always memory. -/
inductive Delivery (key : Iphdr) (s : IpState) : List (SkBuff × Option SkBuff) → IpState → Prop
  | nil : Delivery key s [] s
  | own {tr : List (SkBuff × Option SkBuff)} {s1 s2 : IpState} {skb : SkBuff} {r : Option SkBuff}
      {truesize : Nat} (h : Delivery key s tr s1) (hsame : sameDatagram skb.iph key = true)
      (hmem : s1.ipFragMem ≤ ipfragHighThresh)
      (hcall : ipDefrag (.enough truesize) s1 skb = some (s2, r)) :
      Delivery key s ((skb, r) :: tr) s2
  | other {tr : List (SkBuff × Option SkBuff)} {s1 s2 : IpState} {skb : SkBuff} {r : Option SkBuff}
      {alloc : Alloc} (h : Delivery key s tr s1) (hother : sameDatagram skb.iph key = false)
      (hmem : s1.ipFragMem ≤ ipfragHighThresh)
      (hcall : ipDefrag alloc s1 skb = some (s2, r)) : Delivery key s tr s2
  | expires {tr : List (SkBuff × Option SkBuff)} {before behind : List Ipq} {qp : Ipq} {mem : Int}
      (h : Delivery key s tr ⟨before ++ qp :: behind, mem⟩)
      (hother : sameDatagram key qp.iph = false) :
      Delivery key s tr (ipExpire before qp behind mem)

section
variable {key iph : Iphdr} {alloc : Alloc} {skb : SkBuff} {s s1 s2 : IpState} {r : Option SkBuff}
  {l before behind : List Ipq} {q qp : Ipq} {mem : Int}

theorem queueOf_skip (h : sameDatagram key q.iph = false) :
    queueOf key (before ++ q :: behind) = queueOf key (before ++ behind) := by
  simp [queueOf, List.find?_append, h]

theorem First.queueOf (h : First iph l before qp behind) : queueOf iph l = some qp := by
  have hnone : before.find? (fun q => sameDatagram iph q.iph) = none :=
    List.find?_eq_none.mpr fun q hq => by simp [h.before q hq]
  rw [h.split, Net.queueOf, List.find?_append, hnone]
  simp [h.same]

theorem queueOf_congr (h : sameDatagram iph key = true) : queueOf key l = queueOf iph l := by
  rw [sameDatagram_iff] at h
  unfold queueOf sameDatagram
  rw [h.1, h.2.1, h.2.2.1, h.2.2.2]

theorem queueOf_none (h : ∀ q ∈ l, sameDatagram key q.iph = false) : queueOf key l = none :=
  List.find?_eq_none.mpr fun q hq => by simp [h q hq]

theorem sameDatagram_trans {iph' iph'' : Iphdr} (h : sameDatagram iph iph' = true)
    (h' : sameDatagram iph' iph'' = true) : sameDatagram iph iph'' = true := by
  rw [sameDatagram_iff] at h h' ⊢
  rw [h.1, h.2.1, h.2.2.1, h.2.2.2]
  exact h'

theorem sameDatagram_symm {iph' : Iphdr} (h : sameDatagram iph iph' = true) :
    sameDatagram iph' iph = true := by
  rw [sameDatagram_iff] at h ⊢
  exact ⟨h.1.symm, h.2.1.symm, h.2.2.1.symm, h.2.2.2.symm⟩

/-- A fragment of another datagram belongs to another queue. -/
theorem sameDatagram_other (hother : sameDatagram iph key = false)
    (hsame : sameDatagram iph q.iph = true) : sameDatagram key q.iph = false := by
  rw [Bool.eq_false_iff] at hother ⊢
  exact fun h => hother (sameDatagram_trans hsame (sameDatagram_symm h))

theorem sameDatagram_refl (iph : Iphdr) : sameDatagram iph iph = true :=
  sameDatagram_iff.mpr ⟨rfl, rfl, rfl, rfl⟩

theorem sameDatagram_refresh (h : sameDatagram iph q.iph = true) :
    sameDatagram iph (ipRefresh q iph).iph = true := by
  rcases (ipRefresh_eq q iph).2.2.2 with ⟨heq, -⟩ | ⟨heq, -⟩
  · rw [heq]
    exact sameDatagram_refl iph
  · rw [heq]
    exact h

/-- The queue for a fragment is the one that was there, or a new one, made ready; and
whatever of that datagram is put in its place is what `ip_find` finds next. -/
theorem QueueFor.ready (h : QueueFor iph s before qp behind mem) :
    qp = readyQueue (queueOf iph s.ipqueue) iph ∧ sameDatagram iph qp.iph = true ∧
      ∀ qp', sameDatagram iph qp'.iph = true →
        queueOf iph (before ++ qp' :: behind) = some qp' := by
  cases h with
  | @found _ _ q hfirst =>
    refine ⟨?_, sameDatagram_refresh hfirst.same, fun qp' hsame => ?_⟩
    · rw [hfirst.queueOf]
      rfl
    · exact First.queueOf ⟨rfl, hsame, hfirst.before⟩
  | created hnone =>
    refine ⟨?_, sameDatagram_refl iph, fun qp' hsame => ?_⟩
    · rw [queueOf_none hnone, readyQueue, Option.getD_none, ipRefresh]
      split <;> rfl
    · exact First.queueOf ⟨rfl, hsame, List.forall_mem_nil _⟩

/-- An arrival leaves the queues of other datagrams alone. -/
theorem Arrival.queueOf_other (h : Arrival alloc skb s1 s2 r)
    (hother : sameDatagram skb.iph key = false) :
    queueOf key s2.ipqueue = queueOf key s1.ipqueue := by
  have hfor : ∀ {before qp behind mem}, QueueFor skb.iph s1 before qp behind mem →
      queueOf key (before ++ behind) = queueOf key s1.ipqueue := by
    intro before qp behind mem hfor
    cases hfor with
    | found hfirst =>
      rw [hfirst.split, queueOf_skip (sameDatagram_other hother hfirst.same)]
    | created => rfl
  have hskip : ∀ {before qp behind mem qp'}, QueueFor skb.iph s1 before qp behind mem →
      qp'.iph = qp.iph → queueOf key (before ++ qp' :: behind) = queueOf key s1.ipqueue := by
    intro before qp behind mem qp' hq hiph
    rw [queueOf_skip (sameDatagram_other hother (hiph ▸ hq.ready.2.1)), hfor hq]
  cases h with
  | whole => rfl
  | replaced _ hfirst =>
    show queueOf key (_ ++ _) = _
    rw [hfirst.split, queueOf_skip (sameDatagram_other hother hfirst.same)]
  | refused => rfl
  | oversize _ hq | failed _ hq | queued _ hq => exact hskip hq rfl
  | glued _ hq => exact hfor hq

/-- An arrival for which there is memory. -/
theorem Arrival.queueOf_own {truesize : Nat} (h : Arrival (.enough truesize) skb s1 s2 r)
    (hfrag : ¬skb.iph.Whole) (hsize : skb.iph.totLen.toNat + skb.iph.offset ≤ 65535) :
    (ipDone ((readyQueue (queueOf skb.iph s1.ipqueue) skb.iph).insert skb) = false ∧ r = none ∧
        queueOf skb.iph s2.ipqueue =
          some ((readyQueue (queueOf skb.iph s1.ipqueue) skb.iph).insert skb)) ∨
      (ipDone ((readyQueue (queueOf skb.iph s1.ipqueue) skb.iph).insert skb) = true ∧
        r = ipGlue (.enough truesize)
          ((readyQueue (queueOf skb.iph s1.ipqueue) skb.iph).insert skb)) := by
  cases h with
  | whole h | replaced h => exact absurd h hfrag
  | refused _ halloc => rcases halloc with h | h <;> cases h
  | oversize _ _ h => omega
  | failed _ _ h => cases h
  | queued _ hq _ hdone =>
    obtain ⟨hqp, hsame, hfind⟩ := hq.ready
    rw [← hqp]
    exact .inl ⟨hdone, rfl, hfind _ hsame⟩
  | glued _ hq _ hdone =>
    obtain ⟨hqp, -, -⟩ := hq.ready
    rw [← hqp]
    exact .inr ⟨hdone, rfl⟩

/-- The invariant of all queues along a delivery. -/
theorem Delivery.ipInv {tr : List (SkBuff × Option SkBuff)} (h : Delivery key s tr s1)
    (hs : IpInv s) : IpInv s1 := by
  induction h with
  | nil => exact hs
  | own _ _ _ hcall ih | other _ _ _ hcall ih => exact ipDefrag_ipInv ih hcall
  | expires _ _ ih =>
    rw [ipExpire, ipFree_eq]
    exact (ipInv_middle.mp ih).2

end

end Sbckernel.Net
