import Mathlib.Logic.Basic

/-!
# Options of a segment (`tcp_options` of `net/ipv4/tcp_input.c`)

A pointer into the packet is the list of the bytes from there on: first what is left of
the options, then the payload. To read behind the end is to fail.
-/

namespace Sbckernel.Net.TcpOptions

def tcpoptEol : UInt8 := 0
def tcpoptNop : UInt8 := 1
def tcpoptMss : UInt8 := 2

/-- The fields of `struct sock` that are read or set. -/
structure Sock where
  mtu : Nat
  maxWindow : Nat
  mss : Nat
  maxUnacked : Nat
deriving DecidableEq

/-- Two bytes of the packet as an `unsigned short`. -/
def ntohs (hi lo : UInt8) : Nat := hi.toNat * 256 + lo.toNat

/-- The loop, with `sk->mtu` and `mss_seen`. A `length` below zero ends it like zero. -/
def optionsFrom (syn : Bool) :
    Nat → (length : Nat) → (ptr : List UInt8) → (mtu : Nat) → (mssSeen : Bool) → Option (Nat × Bool)
  | 0, _, _, mtu, mssSeen => some (mtu, mssSeen)
  | fuel + 1, length, ptr, mtu, mssSeen =>
    if length = 0 then some (mtu, mssSeen)
    else
      match ptr with
      | opcode :: opsize :: ptr =>
        if opcode = tcpoptEol then some (mtu, mssSeen)
        else if opcode = tcpoptNop then
          optionsFrom syn fuel (length - 1) (opsize :: ptr) mtu mssSeen
        else if opsize ≤ 2 then some (mtu, mssSeen)
        else if opcode = tcpoptMss ∧ opsize = 4 ∧ syn then
          match ptr with
          | hi :: lo :: ptr => optionsFrom syn fuel (length - 4) ptr (min mtu (ntohs hi lo)) true
          | _ => none
        else
          optionsFrom syn fuel (length - opsize.toNat) (ptr.drop (opsize.toNat - 2)) mtu mssSeen
      | _ => none

/-- `tcp_options` with the bytes behind the `struct tcphdr`, which takes 20. -/
def tcpOptions (sk : Sock) (syn : Bool) (doff : Nat) (packet : List UInt8) : Option Sock :=
  let length := doff * 4 - 20
  (optionsFrom syn length length packet sk.mtu false).map fun (mtu, mssSeen) =>
    let mtu := if syn ∧ ¬mssSeen then min mtu 536 else mtu
    let mss := min sk.maxWindow mtu
    { sk with mtu := mtu, mss := mss, maxUnacked := 2 * mss % 65536 }

end Sbckernel.Net.TcpOptions
