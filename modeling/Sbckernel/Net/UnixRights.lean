import Mathlib.Tactic.Common

/-!
# Control messages of `unix_recvmsg` (`net/unix/af_unix.c`)

`unix_copyrights` makes a copy of the control buffer, `unix_detach_fds` stores descriptors in it,
and `unix_returnrights` copies it back and frees it. The model keeps where the copy is written and
how often it is freed. Of the control buffer it needs `msg_controllen` and the first word,
`cmsg_len`. What a sleep in `unix_data_wait` brings is an argument. Left out are the data, the
sender's name and the locks; `kmalloc` has memory.
-/

namespace Sbckernel.Net.UnixRights

/-- `sizeof(struct cmsghdr)`. -/
def cmsghdrSize : Nat := 12

structure SkBuff where
  len : Nat
  /-- The descriptors that hang on the buffer, if there are any. -/
  filp : Option Nat := none

/-- What there is after a sleep. -/
structure Wake where
  arrived : List SkBuff
  shutdown : Bool := false
  signal : Bool := false

structure Call where
  oob : Bool := false
  peek : Bool := false
  noblock : Bool := false
  /-- The socket is of type `SOCK_DGRAM`. -/
  dgram : Bool := false
  err : Bool := false
  /-- `msg_controllen` and `cmsg_len`, if there is a control buffer. -/
  control : Option (Int × BitVec 32) := none
  iov : List Nat
  size : Nat

/-- The ways out of `unix_recvmsg`. `noData` are the returns where the queue is empty. -/
inductive Exit where
  | oob | error | invalid | noData | out
  deriving DecidableEq

/-- The copy of the control buffer, by its size and `cmsg_len`. -/
abbrev Copy := Nat × BitVec 32

def unixCopyrights (len : Int) (cmsgLen : BitVec 32) : Option Copy :=
  if len > 256 ∨ len ≤ 0 then none else some (len.toNat, cmsgLen)

/-- The offsets where `unix_detach_fds` stores a descriptor, when `unused` ones can be had. -/
def unixDetachFds (fdnum unused : Nat) : Option Copy → List Nat
  | none => []
  | some (_, cmsgLen) =>
    let cmnum := ((cmsgLen - 12#32) / 4#32).toNat
    (List.range (min (min cmnum fdnum) unused)).map fun i => cmsghdrSize + 4 * i

structure Recv where
  copied : Nat := 0
  done : Nat := 0
  iov : List Nat
  queue : List SkBuff
  shutdown : Bool
  waits : List Wake
  unused : Nat
  /-- The offsets in the copy that were written. -/
  writes : List Nat := []

/-- The loops of `unix_recvmsg`, at the test of the inner one. -/
def recvLoop (c : Call) (cm : Option Copy) : Nat → Recv → Option (Exit × Recv)
  | 0, _ => none
  | fuel + 1, r =>
    match r.iov with
    | [] => some (.out, r)
    | len :: iov =>
      if ¬r.done < len then recvLoop c cm fuel { r with iov, done := 0 }
      else if r.copied ≠ 0 ∧ c.peek ∨ r.copied = c.size then some (.out, r)
      else
        match r.queue with
        | [] =>
          if r.shutdown ∨ r.copied ≠ 0 ∨ c.noblock then some (.noData, r)
          else
            match r.waits with
            | [] => none
            | w :: waits =>
              if w.signal then some (.noData, r)
              else recvLoop c cm fuel { r with queue := w.arrived, shutdown := w.shutdown, waits }
        | skb :: queue =>
          let num := min skb.len (len - r.done)
          let stored := skb.filp.elim [] fun fdnum => unixDetachFds fdnum r.unused cm
          let r := { r with
            copied := r.copied + num, done := r.done + num, queue
            unused := r.unused - stored.length, writes := r.writes ++ stored }
          let left := if c.peek then skb.len else skb.len - num
          -- put the skb back if we didn't use it up
          if left ≠ 0 then recvLoop c cm fuel { r with queue := { len := left } :: queue }
          else if c.dgram ∨ cm.isSome then some (.out, r)
          else recvLoop c cm fuel r

/-- What a call has done to the copy. -/
structure Result where
  exit : Exit
  /-- The copy, if one was made. -/
  copy : Option Copy := none
  writes : List Nat := []
  kfrees : Nat := 0

/-- `unix_recvmsg`. The test of `msg_controllen` is one of unsigned words, and a negative length
passes it. -/
def unixRecvmsg (fuel : Nat) (c : Call) (queue : List SkBuff) (shutdown : Bool) (waits : List Wake)
    (unused : Nat) : Option Result :=
  if c.oob then some { exit := .oob }
  else if c.err then some { exit := .error }
  else
    let copy := c.control.bind fun p => unixCopyrights p.1 p.2
    if c.control.any fun p => 0 ≤ p.1 ∧ p.1 < (cmsghdrSize : Int) then
      some { exit := .invalid, copy, kfrees := copy.toList.length }
    else
      (recvLoop c copy fuel { iov := c.iov, queue, shutdown, waits, unused }).map fun p =>
        { exit := p.1, copy, writes := p.2.writes
          kfrees := if p.1 = .out then copy.toList.length else 0 }

end Sbckernel.Net.UnixRights
