import Mathlib.Algebra.Order.Ring.Int
import Sbckernel.Lib.Reach

/-!
# Fragments of IP datagrams (`net/ipv4/ip_fragment.c`)

`ip_fragment` breaks a datagram into pieces, `ip_defrag` puts received pieces
together again. Fields of headers are in the byte order of the host. A buffer is
its IP header and the bytes behind it; a byte that was never written is `none`,
and pointers into a buffer count from the end of the header.

The queues of incomplete datagrams are the list `ipqueue`, newest first, and the
fragments of a queue are a list too; of the timer of a queue only whether it runs
is kept. Every allocation may fail. The statistics, the messages and the ICMP
replies are left out, and so is `ip_options_fragment`, which does nothing to a
header without options.
-/

namespace Sbckernel.Net

structure Iphdr where
  ihl : BitVec 4
  version : BitVec 4
  tos : BitVec 8
  totLen : BitVec 16
  id : BitVec 16
  fragOff : BitVec 16
  ttl : BitVec 8
  protocol : BitVec 8
  check : BitVec 16
  saddr : BitVec 32
  daddr : BitVec 32
  options : List (BitVec 8)
  deriving DecidableEq, Repr

def ipDf : BitVec 16 := 0x4000
def ipMf : BitVec 16 := 0x2000
def ipOffset : BitVec 16 := 0x1FFF

namespace Iphdr

/-- `iph->ihl * 4`. -/
def hlen (iph : Iphdr) : Nat := iph.ihl.toNat * 4

/-- `(ntohs(iph->frag_off) & IP_OFFSET) << 3`. -/
def offset (iph : Iphdr) : Nat := (iph.fragOff &&& ipOffset).toNat * 8

def mf (iph : Iphdr) : Bool := iph.fragOff &&& ipMf ≠ 0

end Iphdr

/-- `struct sk_buff`. -/
structure SkBuff where
  iph : Iphdr
  data : List (Option UInt8)
  truesize : Nat
  pktType : Nat
  protocol : BitVec 16
  deriving DecidableEq, Repr

/-- The byte at a place behind the header, if it lies in the buffer and has been
written. -/
def SkBuff.byteAt (skb : SkBuff) (i : Int) : Option UInt8 :=
  if 0 ≤ i then skb.data[i.toNat]?.join else none

/-! ## `ip_fragment` -/

def ethPIp : BitVec 16 := 0x0800

/-- What `ip_queue_xmit` fills in: the length, and the checksum, here any function
of the header. -/
def ipQueueXmit (ipSendCheck : Iphdr → BitVec 16) (skb : SkBuff) : SkBuff :=
  let iph := { skb.iph with totLen := BitVec.ofNat 16 (skb.iph.hlen + skb.data.length) }
  { skb with iph := { iph with check := ipSendCheck iph } }

/-- The loop of `ip_fragment`, with the pieces it sends. `allocSkb` gives the
`truesize` of the `k`th buffer, or fails. -/
def ipFragmentLoop (ipSendCheck : Iphdr → BitVec 16) (allocSkb : Nat → Option Nat) (skb : SkBuff)
    (mtu : Nat) (more : Bool) : Nat → Nat → Nat → Nat → Nat → List SkBuff
  | 0, _, _, _, _ => []
  | n + 1, k, ptr, left, offset =>
    if left = 0 then []
    else
      let len := if left > mtu then mtu else left
      let len := if len < left then len / 8 * 8 else len
      match allocSkb k with
      | none => []
      | some truesize =>
        let fragOff := BitVec.ofNat 16 (offset / 8)
        let fragOff := if left - len > 0 ∨ more then fragOff ||| ipMf else fragOff
        let skb2 : SkBuff :=
          { iph := { skb.iph with fragOff := fragOff }
            data := (List.range len).map fun (i : Nat) => skb.byteAt (ptr + i : Nat)
            truesize := truesize
            pktType := 0
            protocol := ethPIp }
        ipQueueXmit ipSendCheck skb2 ::
          ipFragmentLoop ipSendCheck allocSkb skb mtu more n (k + 1) (ptr + len) (left - len)
            (offset + len)

/-- The pieces of `skb` for a device. The lengths are never negative where the
source goes on, so that subtraction may stop at zero. -/
def ipFragment (ipSendCheck : Iphdr → BitVec 16) (allocSkb : Nat → Option Nat) (skb : SkBuff)
    (hardHeaderLen devMtu isFrag : Nat) : List SkBuff :=
  let left := skb.iph.totLen.toNat - skb.iph.hlen
  let hlen := skb.iph.hlen + hardHeaderLen
  let mtu := devMtu - hlen
  if skb.iph.fragOff &&& ipDf ≠ 0 then []
  else if mtu < 8 then []
  else
    let offset := if isFrag / 2 % 2 = 1 then skb.iph.offset else 0
    ipFragmentLoop ipSendCheck allocSkb skb mtu (isFrag % 2 = 1) left 0 0 left offset

/-- The bits that `ip_rcv` keeps of a fragment for `ip_forward`: `IPFWD_FRAGMENT`
and `IPFWD_LASTFRAG`. -/
def isFragOf (iph : Iphdr) : Nat := (if iph.mf then 1 else 0) + if iph.offset ≠ 0 then 2 else 0

/-! ## Queues of fragments -/

def ipfragHighThresh : Int := 256 * 1024
def ipfragLowThresh : Int := 192 * 1024

def sizeofIpq : Int := 52
def sizeofIpfrag : Int := 28

/-- `struct ipfrag`; `last` is the field `end`. -/
structure Ipfrag where
  offset : Int
  last : Int
  len : Int
  skb : SkBuff
  ptr : Int
  deriving DecidableEq, Repr

/-- `struct ipq`. -/
structure Ipq where
  iph : Iphdr
  len : Int
  ihlen : Int
  timer : Bool
  fragments : List Ipfrag
  deriving DecidableEq, Repr

structure IpState where
  ipqueue : List Ipq
  ipFragMem : Int
  deriving DecidableEq, Repr

/-- The outcomes of the allocations that one call may ask for: the queue, its
header, the fragment, and the `truesize` of the buffer for the whole datagram. -/
structure Alloc where
  ipq : Bool
  iph : Bool
  ipfrag : Bool
  skb : Option Nat

/-- `ip_free`: what is left of `ip_frag_mem`. -/
def ipFree (qp : Ipq) (mem : Int) : Int :=
  qp.fragments.foldl (fun mem fp => mem - fp.skb.truesize - sizeofIpfrag) mem - (64 + 8) - sizeofIpq

/-- `ip_evictor`; `none` is the panic. -/
def ipEvictor : List Ipq → Int → Option IpState
  | [], mem => if mem > ipfragLowThresh then none else some ⟨[], mem⟩
  | qp :: ipqueue, mem =>
    if mem > ipfragLowThresh then ipEvictor ipqueue (ipFree qp mem) else some ⟨qp :: ipqueue, mem⟩

def sameDatagram (iph iph' : Iphdr) : Bool :=
  iph.id = iph'.id && iph.saddr = iph'.saddr && iph.daddr = iph'.daddr &&
    iph.protocol = iph'.protocol

/-- `ip_find`: the queue, with its timer stopped, and the queues around it. -/
def ipFind (iph : Iphdr) : List Ipq → Option (List Ipq × Ipq × List Ipq)
  | [] => none
  | qp :: next =>
    if sameDatagram iph qp.iph then some ([], { qp with timer := false }, next)
    else
      match ipFind iph next with
      | none => none
      | some (before, found, behind) => some (qp :: before, found, behind)

def ipCreate (alloc : Alloc) (iph : Iphdr) (mem : Int) : Option Ipq × Int :=
  if ¬alloc.ipq then (none, mem)
  else if ¬alloc.iph then (none, mem + sizeofIpq - sizeofIpq)
  else
    (some { iph := iph, len := 0, ihlen := iph.hlen, timer := true, fragments := [] },
      mem + sizeofIpq + (64 + 8))

def ipFragCreate (alloc : Alloc) (offset last : Int) (skb : SkBuff) (ptr mem : Int) :
    Option Ipfrag × Int :=
  if ¬alloc.ipfrag then (none, mem)
  else
    (some { offset := offset, last := last, len := last - offset, skb := skb, ptr := ptr },
      mem + sizeofIpfrag + skb.truesize)

/-! ## `ip_done` and `ip_glue` -/

def ipDoneLoop : List Ipfrag → Int → Bool
  | [], _ => true
  | fp :: next, offset => if fp.offset > offset then false else ipDoneLoop next fp.last

def ipDone (qp : Ipq) : Bool := if qp.len = 0 then false else ipDoneLoop qp.fragments 0

/-- One `memcpy` of `ip_glue`, to a place behind the header of the new buffer. -/
structure Copy where
  offset : Int
  skb : SkBuff
  ptr : Int
  len : Int
  deriving DecidableEq, Repr

/-- The bytes behind the new header after a copy. -/
def Copy.run (buffer : Int → Option UInt8) (c : Copy) : Int → Option UInt8 :=
  fun p =>
    if c.offset ≤ p ∧ p < c.offset + c.len then c.skb.byteAt (c.ptr + (p - c.offset)) else buffer p

/-- The loop of `ip_glue`: the copies it makes, and whether it gets through. -/
def ipGlueLoop (ihlen skbLen : Int) : List Ipfrag → List Copy × Bool
  | [] => ([], true)
  | fp :: next =>
    if fp.len < 0 ∨ fp.offset + ihlen + fp.len > skbLen then ([], false)
    else
      match ipGlueLoop ihlen skbLen next with
      | (copies, through) => (⟨fp.offset, fp.skb, fp.ptr, fp.len⟩ :: copies, through)

/-- `ip_glue`. The queue is freed in any case. -/
def ipGlue (alloc : Alloc) (qp : Ipq) : Option SkBuff :=
  let len := qp.ihlen + qp.len
  if len > 65535 then none
  else
    match alloc.skb with
    | none => none
    | some truesize =>
      match ipGlueLoop qp.ihlen len qp.fragments, qp.fragments with
      | (copies, true), first :: _ =>
        let buffer := copies.foldl Copy.run fun _ => none
        let count := (copies.map Copy.len).sum
        some
          { iph := { qp.iph with
              fragOff := 0
              totLen := BitVec.ofInt 16 (qp.iph.hlen + count) }
            data := (List.range qp.len.toNat).map fun (p : Nat) => buffer p
            truesize := truesize
            pktType := first.skb.pktType
            protocol := first.skb.protocol }
      | _, _ => none

/-! ## `ip_defrag` -/

/-- The fragments in front of a new one. -/
def fragsBefore (offset : Int) (fragments : List Ipfrag) : List Ipfrag :=
  fragments.takeWhile fun fp => decide (fp.offset < offset)

/-- The fragments from `next` on. -/
def fragsBehind (offset : Int) (fragments : List Ipfrag) : List Ipfrag :=
  fragments.dropWhile fun fp => decide (fp.offset < offset)

/-- How far a new fragment has to be cut because of the one in front of it. -/
def overlapBefore (offset : Int) (before : List Ipfrag) : Int :=
  match before.getLast? with
  | none => 0
  | some prev => if offset < prev.last then prev.last - offset else 0

/-- What the loop over the succeeding fragments leaves: fragments in the chain
before `next`, those from `next` on, and those it has freed. -/
structure Trimmed where
  passed : List Ipfrag
  next : List Ipfrag
  freed : List Ipfrag

/-- The loop over the succeeding fragments; `kept` are those from `next` up to
`tmp`. The overlap is computed from `next->offset`. -/
def trimLoop (last : Int) : List Ipfrag → List Ipfrag → Trimmed
  | kept, [] => ⟨[], kept, []⟩
  | kept, tmp :: tfp =>
    if tmp.offset ≥ last then ⟨[], kept ++ tmp :: tfp, []⟩
    else
      let next := kept.head?.getD tmp
      let i := last - next.offset
      let tmp := { tmp with len := tmp.len - i, offset := tmp.offset + i, ptr := tmp.ptr + i }
      if tmp.len ≤ 0 then
        let rest := trimLoop last [] tfp
        { rest with passed := kept ++ rest.passed, freed := tmp :: rest.freed }
      else trimLoop last (kept ++ [tmp]) tfp

/-- What goes back to `ip_frag_mem` for a fragment that is thrown away. -/
def refund (mem : Int) (fp : Ipfrag) : Int := mem - fp.skb.truesize - sizeofIpfrag

/-- `ip_defrag` from the place of the fragment on, up to its insertion, and
whether that succeeded. -/
def ipInsert (alloc : Alloc) (qp : Ipq) (skb : SkBuff) (mem : Int) : Ipq × Int × Bool :=
  let offset : Int := skb.iph.offset
  let last := offset + skb.iph.totLen.toNat - skb.iph.hlen
  let qp := if skb.iph.mf then qp else { qp with len := last }
  let before := fragsBefore offset qp.fragments
  let i := overlapBefore offset before
  let trimmed := trimLoop last [] (fragsBehind offset qp.fragments)
  let mem := trimmed.freed.foldl refund mem
  match ipFragCreate alloc (offset + i) last skb i mem with
  | (none, mem) => ({ qp with fragments := before ++ (trimmed.passed ++ trimmed.next) }, mem, false)
  | (some tfp, mem) => ({ qp with fragments := before ++ tfp :: trimmed.next }, mem, true)

/-- The rest of `ip_defrag`: the queue, unless it has been freed, and the
datagram. -/
def ipDefragQueue (alloc : Alloc) (qp : Ipq) (skb : SkBuff) (mem : Int) :
    Option Ipq × Int × Option SkBuff :=
  if skb.iph.totLen.toNat + skb.iph.offset > 65535 then (some qp, mem, none)
  else
    match ipInsert alloc qp skb mem with
    | (qp, mem, false) => (some qp, mem, none)
    | (qp, mem, true) =>
      if ipDone qp then (none, ipFree qp mem, ipGlue alloc qp) else (some qp, mem, none)

/-- The queue for a fragment that has been found: the first fragment brings the
header, and the timer runs again. -/
def ipRefresh (qp : Ipq) (iph : Iphdr) : Ipq :=
  let qp := if iph.offset = 0 then { qp with ihlen := iph.hlen, iph := iph } else qp
  { qp with timer := true }

/-- The queue for a fragment, with the queues in front of it and behind it: the
one that `ip_find` finds, or a new one in front of all. -/
def ipQueueFor (alloc : Alloc) (s : IpState) (iph : Iphdr) :
    Option (List Ipq × Ipq × List Ipq) × Int :=
  match ipFind iph s.ipqueue with
  | some (before, qp, behind) => (some (before, ipRefresh qp iph, behind), s.ipFragMem)
  | none =>
    match ipCreate alloc iph s.ipFragMem with
    | (none, mem) => (none, mem)
    | (some qp, mem) => (some ([], qp, s.ipqueue), mem)

/-- A datagram that is no fragment takes the place of its fragments. -/
def ipReplace (s : IpState) (iph : Iphdr) : IpState :=
  match ipFind iph s.ipqueue with
  | some (before, qp, behind) => ⟨before ++ behind, ipFree qp s.ipFragMem⟩
  | none => s

/-- `ip_defrag`; `none` is the panic of `ip_evictor`. -/
def ipDefrag (alloc : Alloc) (s : IpState) (skb : SkBuff) : Option (IpState × Option SkBuff) :=
  let evicted := if s.ipFragMem > ipfragHighThresh then ipEvictor s.ipqueue s.ipFragMem else some s
  match evicted with
  | none => none
  | some s =>
    if ¬skb.iph.mf ∧ skb.iph.offset = 0 then some (ipReplace s skb.iph, some skb)
    else
      match ipQueueFor alloc s skb.iph with
      | (none, mem) => some (⟨s.ipqueue, mem⟩, none)
      | (some (before, qp, behind), mem) =>
        match ipDefragQueue alloc qp skb mem with
        | (some qp, mem, result) => some (⟨before ++ qp :: behind, mem⟩, result)
        | (none, mem, result) => some (⟨before ++ behind, mem⟩, result)

/-- `ip_expire` for the queue between `before` and `behind`. -/
def ipExpire (before : List Ipq) (qp : Ipq) (behind : List Ipq) (mem : Int) : IpState :=
  ⟨before ++ behind, ipFree qp mem⟩

end Sbckernel.Net
