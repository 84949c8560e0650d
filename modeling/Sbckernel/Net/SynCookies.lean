import Sbckernel.Kernel.Itimer

/-!
# SYN cookies (`net/ipv4/tcp_input.c` and `drivers/char/random.c`)

A request that finds no room is answered with a sequence number that the final ACK
brings back: a hash of the connection and the minute, with an index into `cookie_mtu`
in the low three bits. `HASH_TRANSFORM` and the two secrets are arguments.
-/

namespace Sbckernel.Net.SynCookies

open Function Kernel

def cookieMtu : List Nat := [64, 256, 512, 536, 1024, 1440, 1460, 4312]

/-- The loop of `tcp_conn_request`. To read behind the table is to fail. -/
def pickMtu (mtu mtuIndex : Nat) : Option Nat :=
  match cookieMtu[mtuIndex + 1]? with
  | none => none
  | some next => if mtu > next ∧ mtuIndex < 7 then pickMtu mtu (mtuIndex + 1) else some mtuIndex
termination_by 7 - mtuIndex

variable (hashTransform : (Fin 16 → ULong) → Fin 16 → ULong) (secret : Fin 2 → Fin 16 → ULong)
  (daddr saddr : ULong) (source dest : BitVec 16)

def secureTcpSynCookie (saddr daddr : ULong) (sport dport : BitVec 16) (sseq count : ULong) :
    ULong :=
  let ports := (sport.setWidth 32 <<< 16) + dport.setWidth 32
  let tmp := update (update (update (secret 0) 8 saddr) 9 daddr) 10 ports
  let seq := hashTransform tmp 1
  let tmp := update (update (update (update (secret 1) 8 saddr) 9 daddr) 10 ports) 11 count
  let seq := seq + (sseq + (count <<< 24) + (hashTransform tmp 1 &&& 0x00ffffff))
  seq &&& 0xfffff8

/-- The sequence number and the `mtu` that `tcp_conn_request` gives the new socket. -/
def tcpConnRequest (seq : ULong) (mtu : Nat) (jiffies : ULong) : Option (ULong × Nat) := do
  let mtuIndex ← pickMtu mtu 0
  let mtu ← cookieMtu[mtuIndex]?
  let cookie := secureTcpSynCookie hashTransform secret daddr saddr source dest seq
    (jiffies / (60 * hz))
  pure (cookie ||| BitVec.ofNat 32 mtuIndex, mtu)

/-- The test of `tcp_rcv`, with the `mtu` of the connection if it passes. -/
def tcpRcv (seq ackSeq jiffies : ULong) : Option Nat :=
  let ackedSeq := ackSeq - 1
  let mtuIndex := ackedSeq &&& 0x7
  let count := jiffies / (60 * hz)
  let ackedSeq := ackedSeq &&& 0xfffffff8
  let cookie := secureTcpSynCookie hashTransform secret daddr saddr source dest (seq - 1)
  if ackedSeq = cookie count ∨ ackedSeq = cookie (count - 1) ∨ ackedSeq = cookie (count - 2) then
    cookieMtu[mtuIndex.toNat]?
  else none

end Sbckernel.Net.SynCookies
