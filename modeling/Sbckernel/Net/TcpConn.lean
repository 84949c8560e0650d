import Mathlib.Logic.Function.Basic

/-!
# Options of a new connection (`tcp_conn_request` of `net/ipv4/tcp_input.c`)

What `tcp_conn_request` does with blocks of options. What `ip_options_echo` makes of
the options of a request is an argument, and so is which calls fail. The fields of the
two sockets other than `opt` are left out.
-/

namespace Sbckernel.Net.TcpConn

open Function

abbrev OptPtr := Nat

structure Syn (Options : Type) where
  /-- The listener is dead or its backlog is full. -/
  refused : Bool := false
  /-- There is memory for a socket. -/
  sock : Bool := true
  /-- `optlen` and the options themselves. -/
  opt : Option (Nat × Options)
  /-- What `kmalloc` returns for a block of options. -/
  block : Option OptPtr
  /-- `tcp_send_synack` does not destroy the new socket. -/
  kept : Bool := true

/-- `opt` of the listener, the blocks in use, and `opt` of the new socket if there is
one. -/
structure State (Options : Type) where
  skOpt : Option OptPtr
  blocks : OptPtr → Option Options
  newsk : Option (Option OptPtr)

variable {Options : Type}

/-- `destroy_sock` of the new socket. -/
def destroySock (s : State Options) : State Options :=
  match s.newsk with
  | some (some p) => { s with blocks := update s.blocks p none, newsk := none }
  | _ => { s with newsk := none }

def tcpSendSynack (s : State Options) (kept : Bool) : State Options :=
  if kept then s else destroySock s

/-- `tcp_conn_request`. The block is allocated for `sk->opt`, not for `newsk->opt`. -/
def tcpConnRequest (echo : Options → Option Options) (s : State Options) (r : Syn Options) :
    State Options :=
  if r.refused ∨ ¬r.sock then s
  else
    let s := { s with newsk := some none }
    match r.opt with
    | none => tcpSendSynack s r.kept
    | some (optlen, opt) =>
      if optlen = 0 then tcpSendSynack s r.kept
      else
        let s := { s with skOpt := r.block }
        match r.block with
        | none => { s with newsk := none }
        | some p =>
          match echo opt with
          | none => { s with blocks := update s.blocks p none, newsk := none }
          | some e => tcpSendSynack { s with blocks := update s.blocks p (some e) } r.kept

end Sbckernel.Net.TcpConn
