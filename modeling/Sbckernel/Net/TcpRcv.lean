import Mathlib.Data.List.DropRight
import Sbckernel.Net.TcpWindow

/-!
# Receiving on a passive connection (`net/ipv4/tcp_input.c`)

`tcp_conn_request` makes a socket in `SYN_RECV`. Segments alone then take it no further than
`ESTABLISHED`, `CLOSE_WAIT` and `CLOSE`, and these are the states here; nobody has shut the
socket down. `tcp_sequence` reads the window that was last offered, which the acks that are
sent may change. Left out is what these functions do to the send queue, the timers, urgent
data and statistics. Whether the queue is over its limit is an argument of `tcp_rcv`.
-/

namespace Sbckernel.Net.TcpRcv

open TcpWindow

inductive TcpState where
  | synRecv
  | established
  | closeWait
  | close
  deriving DecidableEq, Repr

structure SkBuff where
  seq : BitVec 32
  endSeq : BitVec 32
  fin : Bool
  acked : Bool := false
  deriving DecidableEq, Repr

/-- The header of a segment and the length of its data. -/
structure Segment where
  seq : BitVec 32
  ackSeq : BitVec 32
  syn : Bool := false
  fin : Bool := false
  rst : Bool := false
  ack : Bool := false
  len : Nat := 0
  deriving DecidableEq, Repr

/-- `end_seq` without the `syn`. -/
def Segment.dataEnd (th : Segment) : BitVec 32 :=
  th.seq + BitVec.ofNat 32 (th.fin.toNat + th.len)

def Segment.endSeq (th : Segment) : BitVec 32 := th.dataEnd + BitVec.ofNat 32 th.syn.toNat

structure Sock where
  state : TcpState
  zapped : Bool
  synSeq : BitVec 32
  sentSeq : BitVec 32
  rcvAckSeq : BitVec 32
  ackedSeq : BitVec 32
  lastwinSeq : BitVec 32
  window : BitVec 16
  receiveQueue : List SkBuff
  deriving DecidableEq, Repr

/-- The new socket with the initial sequence numbers of both sides, behind
`tcp_send_synack`. -/
def tcpConnRequest (iss irs : BitVec 32) (window : BitVec 16) : Sock where
  state := .synRecv
  zapped := false
  synSeq := irs
  sentSeq := iss + 1
  rcvAckSeq := iss
  ackedSeq := irs + 1
  lastwinSeq := irs + 1
  window := window
  receiveQueue := []

def tcpFin : TcpState → TcpState
  | .synRecv | .established => .closeWait
  | s => s

/-- `tcp_queue_ack` for the buffers behind the new one that are reached. -/
def queueAcks (state : TcpState) (ackSeq : BitVec 32) :
    List SkBuff → TcpState × BitVec 32 × List SkBuff
  | [] => (state, ackSeq, [])
  | next :: l =>
    if after next.seq ackSeq then (state, ackSeq, next :: l)
    else if after next.endSeq ackSeq then
      let r := queueAcks (if next.fin then tcpFin state else state) next.endSeq l
      (r.1, r.2.1, { next with acked := true } :: r.2.2)
    else
      let r := queueAcks state ackSeq l
      (r.1, r.2.1, next :: r.2.2)

variable (sk : Sock)

/-- `tcp_insert_skb` looks for the place from the back. -/
def tcpQueue (skb : SkBuff) : Sock :=
  let front := sk.receiveQueue.rdropWhile fun p => after p.seq skb.seq
  let behind := sk.receiveQueue.rtakeWhile fun p => after p.seq skb.seq
  if ¬after skb.seq sk.ackedSeq ∧ after skb.endSeq sk.ackedSeq then
    let r := queueAcks (if skb.fin then tcpFin sk.state else sk.state) skb.endSeq behind
    { sk with
      state := r.1
      ackedSeq := r.2.1
      receiveQueue := front ++ { skb with acked := true } :: r.2.2 }
  else { sk with receiveQueue := front ++ skb :: behind }

def removeDupsFrom (skb : SkBuff) : List SkBuff → List SkBuff
  | [] => [skb]
  | next :: l =>
    if before next.endSeq skb.endSeq then removeDupsFrom skb l
    else if next.seq ≠ skb.seq then skb :: removeDupsFrom next l
    else removeDupsFrom next l

def tcpRemoveDups : List SkBuff → List SkBuff
  | [] => []
  | skb :: l => removeDupsFrom skb l

def pruneQueue (l : List SkBuff) : List SkBuff :=
  tcpRemoveDups (l.rdropWhile fun skb => !skb.acked)

def tcpSequence (seq endSeq : BitVec 32) : Prop :=
  let endWindow := sk.lastwinSeq + sk.window.setWidth 32
  seq = endWindow ∧ seq = endSeq ∨ before seq endWindow ∧ ¬before endSeq sk.ackedSeq
  deriving Decidable

def tcpReset : Sock := { sk with zapped := true, state := .close }

/-- The socket and whether the segment is worth looking at further. -/
def tcpAck (ack : BitVec 32) : Sock × Bool :=
  if after ack sk.sentSeq ∨ before ack sk.rcvAckSeq then (sk, !after ack sk.sentSeq)
  else
    ({ sk with
      rcvAckSeq := ack
      state := if sk.state = .synRecv then .established else sk.state }, true)

def tcpData (th : Segment) : Sock :=
  if th.len = 0 ∧ ¬th.fin then sk
  else tcpQueue sk { seq := th.seq, endSeq := th.endSeq, fin := th.fin }

def tcpRcv (th : Segment) (full : Bool) : Sock :=
  if sk.zapped ∨ sk.state = .close then sk
  else if sk.state = .synRecv ∧ th.syn ∧ th.seq + 1 = sk.ackedSeq then sk
  else if ¬tcpSequence sk th.seq th.dataEnd then sk
  else if th.rst then tcpReset sk
  else if th.syn ∧ th.seq ≠ sk.synSeq then tcpReset sk
  else if ¬th.ack then sk
  else match tcpAck sk th.ackSeq with
    | (sk, false) => sk
    | (sk, true) =>
      let sk := tcpData sk th
      if full then { sk with receiveQueue := pruneQueue sk.receiveQueue } else sk

/-- A segment arrives, or a window is offered. -/
inductive Input where
  | segment (th : Segment) (full : Bool)
  | offer (window : BitVec 16)
  deriving DecidableEq, Repr

def step : Input → Sock
  | .segment th full => tcpRcv sk th full
  | .offer window => { sk with window, lastwinSeq := sk.ackedSeq }

end Sbckernel.Net.TcpRcv
