import Mathlib.Algebra.Order.Ring.Int

/-!
# The window TCP offers (`net/ipv4/tcp_output.c`, `include/net/tcp.h`)

`window` is the last window chosen and `lastwin_seq` the place it counts from, so the
other side may send up to the right edge `lastwin_seq + window`. `int` and `unsigned long`
have 32 bits, `window`, `mss` and `mtu` have 16. A division by zero is `none`.
-/

namespace Sbckernel.Net.TcpWindow

structure Sock where
  window : BitVec 16
  lastwinSeq : BitVec 32
  ackedSeq : BitVec 32
  rcvbuf : BitVec 32
  rmemAlloc : BitVec 32
  mss : BitVec 16
  mtu : BitVec 16
  windowClamp : BitVec 32
  deriving DecidableEq, Repr

def before (seq1 seq2 : BitVec 32) : Prop := (seq1 - seq2).toInt < 0
  deriving Decidable

def after (seq1 seq2 : BitVec 32) : Prop := (seq2 - seq1).toInt < 0
  deriving Decidable

def maxWindow : BitVec 32 := 32767

variable (sk : Sock)

def maxwin : BitVec 32 := if sk.windowClamp = 0 then maxWindow else sk.windowClamp

def minwin : BitVec 32 :=
  let minwin :=
    if sk.mss ≠ 0 then sk.mss.setWidth 32
    else if sk.mtu ≠ 0 then sk.mtu.setWidth 32
    else 1
  if minwin > maxwin sk / 2 then maxwin sk / 2 else minwin

def tcpNewWindow : Option (Sock × BitVec 32) :=
  let window := sk.window.setWidth 32
  let minwin := minwin sk
  let freeSpace := sk.rcvbuf.sdiv 2
  let (sk', freeSpace) :=
    if freeSpace < minwin then ({ sk with rcvbuf := minwin * 2 }, minwin) else (sk, freeSpace)
  let freeSpace := freeSpace - sk.rmemAlloc.sdiv 2
  -- avoidance of the silly window syndrome
  if (freeSpace - minwin).toInt < 0 then some (sk', 0)
  else
    let atMost := fun window => if window > maxwin sk then maxwin sk else window
    if window ≤ freeSpace - minwin ∨ window > freeSpace then
      if minwin = 0 then none else some (sk', atMost (freeSpace / minwin * minwin))
    else some (sk', atMost window)

def tcpOldWindow : BitVec 32 :=
  sk.window.setWidth 32 - (sk.ackedSeq - sk.lastwinSeq)

def tcpSelectWindow : Option (Sock × BitVec 16) := do
  let (sk, window) ← tcpNewWindow sk
  let oldwin := tcpOldWindow sk
  if oldwin.toInt < window.toInt then
    return ({ sk with window := window.setWidth 16, lastwinSeq := sk.ackedSeq },
      window.setWidth 16)
  else return (sk, oldwin.setWidth 16)

/-- What happens to a socket: the window is chosen for a segment, `acked_seq` moves
forward, or the fields the window depends on get other values. -/
inductive Event where
  | select
  | acked (n : BitVec 32)
  | tuned (rcvbuf rmemAlloc : BitVec 32) (mss mtu : BitVec 16) (windowClamp : BitVec 32)
  deriving DecidableEq, Repr

/-- The socket afterwards, and the window returned. -/
def handle : Event → Option (Sock × Option (BitVec 16))
  | .select => (tcpSelectWindow sk).map fun r => (r.1, some r.2)
  | .acked n => some ({ sk with ackedSeq := sk.ackedSeq + n }, none)
  | .tuned rcvbuf rmemAlloc mss mtu windowClamp =>
    some ({ sk with rcvbuf, rmemAlloc, mss, mtu, windowClamp }, none)

def rightEdge : BitVec 32 := sk.lastwinSeq + sk.window.setWidth 32

end Sbckernel.Net.TcpWindow
