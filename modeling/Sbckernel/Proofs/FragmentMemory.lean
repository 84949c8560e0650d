import Sbckernel.Proofs.FragmentArrival

/-!
# The memory charged for fragments

`ip_frag_mem` is the sum over all queues of what each of them would give back in
`ip_free`. Every path of `ip_defrag` keeps it so, the failing ones too, and leaves
every queue with its timer running. `ip_evictor` can therefore not run out of
queues: without any, nothing is charged.
-/

namespace Sbckernel.Net

open Lib List

theorem queueCharge_nonneg (qp : Ipq) : 0 ≤ queueCharge qp := by
  have := charge_nonneg qp.fragments
  rw [queueCharge, sizeofIpq]
  omega

/-- A queue between two calls. -/
structure QueueOk (qp : Ipq) : Prop where
  timer : qp.timer = true
  chained : Chained qp.fragments

structure IpInv (s : IpState) : Prop where
  mem : s.ipFragMem = (s.ipqueue.map queueCharge).sum
  queues : ∀ qp ∈ s.ipqueue, QueueOk qp

section
variable {alloc : Alloc} {skb : SkBuff} {iph : Iphdr} {s s' : IpState} {l before behind : List Ipq}
  {qp : Ipq} {mem : Int} {r : Option SkBuff}

theorem ipInv_middle : IpInv ⟨before ++ qp :: behind, mem⟩ ↔
    QueueOk qp ∧ IpInv ⟨before ++ behind, mem - queueCharge qp⟩ := by
  refine ⟨fun ⟨hmem, hqueues⟩ => ?_, fun ⟨hqp, hmem, hqueues⟩ => ⟨?_, ?_⟩⟩
  · obtain ⟨hbefore, hqp, hbehind⟩ :=
      by simpa only [forall_mem_append, forall_mem_cons] using hqueues
    refine ⟨hqp, ?_, forall_mem_append.mpr ⟨hbefore, hbehind⟩⟩
    simp only [map_append, map_cons, sum_append, sum_cons] at hmem ⊢
    omega
  · simp only [map_append, map_cons, sum_append, sum_cons] at hmem ⊢
    omega
  · obtain ⟨hbefore, hbehind⟩ := forall_mem_append.mp hqueues
    exact forall_mem_append.mpr ⟨hbefore, forall_mem_cons.mpr ⟨hqp, hbehind⟩⟩

/-! ## The evictor -/

theorem ipEvictor_spec (h : IpInv ⟨l, mem⟩) :
    ∃ s', ipEvictor l mem = some s' ∧ IpInv s' ∧ s'.ipFragMem ≤ ipfragLowThresh := by
  induction l generalizing mem with
  | nil =>
    have hmem : mem = 0 := h.mem
    refine ⟨⟨[], mem⟩, ?_, h, ?_⟩
    · rw [ipEvictor, hmem]
      rfl
    · rw [hmem]
      decide
  | cons qp l ih =>
    rw [ipEvictor]
    split
    · rw [ipFree_eq]
      have h' : IpInv ⟨[] ++ qp :: l, mem⟩ := h
      exact ih (ipInv_middle.mp h').2
    next hle => exact ⟨_, rfl, h, not_lt.mp hle⟩

/-! ## `ip_defrag` -/

theorem QueueFor.ipInv (h : QueueFor iph s before qp behind mem) (hs : IpInv s) :
    QueueOk qp ∧ IpInv ⟨before ++ behind, mem - queueCharge qp⟩ ∧
      mem ≤ s.ipFragMem + sizeofIpq + (64 + 8) := by
  cases h with
  | @found _ _ q hfirst =>
    have h' : IpInv ⟨before ++ q :: behind, s.ipFragMem⟩ := by
      rw [← hfirst.split]
      exact hs
    obtain ⟨hok, hinv⟩ := ipInv_middle.mp h'
    obtain ⟨htimer, hfrag, -⟩ := ipRefresh_eq q iph
    refine ⟨⟨htimer, hfrag ▸ hok.chained⟩, ?_, ?_⟩
    · rw [queueCharge, hfrag]
      exact hinv
    · simp only [sizeofIpq]
      omega
  | created =>
    refine ⟨⟨rfl, ⟨.nil, forall_mem_nil _⟩⟩, ?_, le_rfl⟩
    rw [show s.ipFragMem + sizeofIpq + (64 + 8) - queueCharge (newQueue iph) = s.ipFragMem by
      rw [queueCharge, newQueue, charge]
      simp only [map_nil, sum_nil]
      omega]
    exact hs

/-- A queue that has changed goes back into its place. -/
theorem QueueFor.ipInv_update (h : QueueFor iph s before qp behind mem) (hs : IpInv s)
    {qp' : Ipq} {mem' : Int} (hok : QueueOk qp → QueueOk qp')
    (hmem : mem' - queueCharge qp' = mem - queueCharge qp) :
    IpInv ⟨before ++ qp' :: behind, mem'⟩ := by
  obtain ⟨hqp, hinv, -⟩ := h.ipInv hs
  exact ipInv_middle.mpr ⟨hok hqp, hmem ▸ hinv⟩

theorem Arrival.ipInv (h : Arrival alloc skb s s' r) (hs : IpInv s) : IpInv s' ∧
    s'.ipFragMem ≤ s.ipFragMem + sizeofIpq + (64 + 8) + sizeofIpfrag + skb.truesize := by
  have hipq : sizeofIpq = 52 := rfl
  have hipfrag : sizeofIpfrag = 28 := rfl
  cases h with
  | whole | refused => exact ⟨hs, by omega⟩
  | @replaced _ before behind qp hfirst =>
    have h' : IpInv ⟨before ++ qp :: behind, s.ipFragMem⟩ := by
      rw [← hfirst.split]
      exact hs
    have := queueCharge_nonneg qp
    exact ⟨(ipInv_middle.mp h').2, by show s.ipFragMem - queueCharge qp ≤ _; omega⟩
  | @oversize _ before behind qp mem hq =>
    have := (hq.ipInv hs).2.2
    exact ⟨hq.ipInv_update hs id rfl, by show mem ≤ _; omega⟩
  | @failed _ before behind qp mem mem' hq _ hmem hle =>
    have := (hq.ipInv hs).2.2
    refine ⟨hq.ipInv_update hs (fun hok => ⟨hok.timer, ?_⟩) hmem, by show mem' ≤ _; omega⟩
    exact chained_trimFrags skb hok.chained
  | @queued _ before behind qp mem mem' hq _ _ hmem hle =>
    have := (hq.ipInv hs).2.2
    refine ⟨hq.ipInv_update hs (fun hok => ⟨hok.timer, ?_⟩) hmem, by show mem' ≤ _; omega⟩
    exact chained_insertFrag skb hok.chained
  | @glued _ before behind qp mem hq =>
    have := (hq.ipInv hs).2.2
    have := queueCharge_nonneg qp
    exact ⟨(hq.ipInv hs).2.1, by show mem - queueCharge qp ≤ _; omega⟩

/-- Every call of `ip_defrag` returns, and keeps the invariant. -/
theorem ipDefrag_spec (h : IpInv s) (alloc : Alloc) (skb : SkBuff) :
    ∃ s' r, ipDefrag alloc s skb = some (s', r) ∧ IpInv s' ∧
      s'.ipFragMem ≤ ipfragHighThresh + sizeofIpq + (64 + 8) + sizeofIpfrag + skb.truesize := by
  obtain ⟨s1, hevict, h1⟩ : ∃ s1, (if s.ipFragMem > ipfragHighThresh then
      ipEvictor s.ipqueue s.ipFragMem else some s) = some s1 ∧ IpInv s1 := by
    split
    · obtain ⟨s1, heq, h1, -⟩ := ipEvictor_spec h
      exact ⟨s1, heq, h1⟩
    · exact ⟨s, rfl, h⟩
  obtain ⟨-, hle, hcall, -⟩ := ipDefrag_evict alloc skb hevict
  obtain ⟨s', r, heq, harrival, -⟩ :=
    ipDefrag_arrival alloc skb hle fun q hq => (h1.queues q hq).chained
  obtain ⟨hinv, hmem⟩ := harrival.ipInv h1
  exact ⟨s', r, hcall.trans heq, hinv, by omega⟩

theorem ipDefrag_ipInv (h : IpInv s) (hcall : ipDefrag alloc s skb = some (s', r)) : IpInv s' := by
  obtain ⟨s1, r1, heq, hinv, -⟩ := ipDefrag_spec h alloc skb
  obtain ⟨rfl, -⟩ := Prod.mk.inj (Option.some.inj (heq.symm.trans hcall))
  exact hinv

end

/-! ## All runs -/

/-- A fragment arrives, or a timer runs out. -/
inductive IpStep : IpState → IpState → Prop
  | ipDefrag {alloc : Alloc} {s s' : IpState} {skb : SkBuff} {r : Option SkBuff}
      (h : ipDefrag alloc s skb = some (s', r)) : IpStep s s'
  | ipExpire {before behind : List Ipq} {qp : Ipq} {mem : Int} (h : qp.timer = true) :
      IpStep ⟨before ++ qp :: behind, mem⟩ (ipExpire before qp behind mem)

def ipReassembly : System IpState where
  init s := s = ⟨[], 0⟩
  step := IpStep

theorem reachable_ipInv {s : IpState} (h : ipReassembly.Reachable s) : IpInv s := by
  refine h.invariant (fun s hinit => ?_) fun s s' hs hstep => ?_
  · obtain rfl : s = ⟨[], 0⟩ := hinit
    exact ⟨rfl, nofun⟩
  · cases hstep with
    | ipDefrag hcall => exact ipDefrag_ipInv hs hcall
    | ipExpire =>
      rw [ipExpire, ipFree_eq]
      exact (ipInv_middle.mp hs).2

/-- The memory charged for fragments is that of the queues, every queue has a
running timer, no call can panic, and the evictor brings the memory down. -/
theorem fragment_memory_exact {s : IpState} (h : ipReassembly.Reachable s) :
    s.ipFragMem = (s.ipqueue.map fun qp => sizeofIpq + 72 +
        (qp.fragments.map fun fp => sizeofIpfrag + (fp.skb.truesize : Int)).sum).sum ∧
      (∀ qp ∈ s.ipqueue, qp.timer = true) ∧
      (∃ s', ipEvictor s.ipqueue s.ipFragMem = some s' ∧ s'.ipFragMem ≤ ipfragLowThresh) ∧
      ∀ alloc skb, ipDefrag alloc s skb ≠ none := by
  have hinv := reachable_ipInv h
  refine ⟨?_, fun qp hqp => (hinv.queues qp hqp).timer, ?_, fun alloc skb hnone => ?_⟩
  · rw [hinv.mem]
    refine congrArg List.sum (map_congr_left fun qp _ => ?_)
    rw [queueCharge, charge, map_map]
    refine congrArg₂ (· + ·) rfl (congrArg List.sum (map_congr_left fun fp _ => ?_))
    exact add_comm ..
  · obtain ⟨s', heq, -, hle⟩ := ipEvictor_spec hinv
    exact ⟨s', heq, hle⟩
  · obtain ⟨s', r, heq, -⟩ := ipDefrag_spec hinv alloc skb
    rw [hnone] at heq
    cases heq

/-- The first eight bytes of a datagram. -/
def firstEight : SkBuff where
  iph :=
    { ihl := 5, version := 4, tos := 0, totLen := 28, id := 7, fragOff := ipMf, ttl := 64
      protocol := 17, check := 0, saddr := 1, daddr := 2, options := [] }
  data := List.replicate 8 (some 0xAA)
  truesize := 300
  pktType := 0
  protocol := ethPIp

/-- No allocation fails. -/
def Alloc.enough (truesize : Nat) : Alloc :=
  { ipq := true, iph := true, ipfrag := true, skb := some truesize }

def firstQueue : Ipq :=
  { iph := firstEight.iph, len := 0, ihlen := 20, timer := true
    fragments := [newFrag firstEight []] }

theorem fragment_memory_exact_first : ipReassembly.Reachable ⟨[firstQueue], 452⟩ ∧
    (∀ qp ∈ [firstQueue], qp.timer = true) ∧
      ∀ alloc skb, ipDefrag alloc ⟨[firstQueue], 452⟩ skb ≠ none := by
  have hstep : ipDefrag (.enough 500) ⟨[], 0⟩ firstEight = some (⟨[firstQueue], 452⟩, none) := by
    decide
  have h : ipReassembly.Reachable ⟨[firstQueue], 452⟩ :=
    .step (.init rfl) (.ipDefrag hstep)
  obtain ⟨-, htimer, -, hpanic⟩ := fragment_memory_exact h
  exact ⟨h, htimer, hpanic⟩

end Sbckernel.Net
