import Sbckernel.Ipc.Basic

/-!
# Message queues (`ipc/msg.c`)

One queue, which stays, and the tasks that send to it and receive from it; the calls
of the kernel to `kerneld` are left out. Messages lie in memory and are linked
through `msg_next`. The three counters are `ushort`s.

A sender may lose the processor in two places: it sleeps while the queue is full, and
`memcpy_fromfs` may fault. By then it has found space and memory, and when it goes on
it puts the message into the queue without another look at the space. A receiver
sleeps while there is no message for it. What a receiver copies out is out of the queue
already, so that is part of the step.

Whether the caller has the permission, whether it has a signal, and the address that
`kmalloc` returns are arguments of a step. `sent` and `received` are for the record
only.
-/

namespace Sbckernel.Ipc.Msg

open Function

def msgmax : Nat := 4056
def msgmnb : Int := 16384

abbrev Addr := Fin (2 ^ 32)

instance addrNonempty : NeZero (2 ^ 32) := ⟨by decide⟩

/-- Conversion to `long`. -/
def long (x : Int) : Int := (x + 2 ^ 31) % 2 ^ 32 - 2 ^ 31

/-- `struct msg` apart from its pointer. -/
structure Message where
  type : Int
  ts : Nat
  spot : List UInt8
  deriving DecidableEq, Repr

/-- The arguments of `msgsnd`; the text is read later. -/
structure Send where
  msgsz : Nat
  mtype : Int
  nowait : Bool
  deriving DecidableEq, Repr

/-- The arguments of `msgrcv`. -/
structure Receive where
  msgsz : Nat
  msgtyp : Int
  noerror : Bool
  except : Bool
  nowait : Bool
  range : -2 ^ 31 ≤ msgtyp ∧ msgtyp < 2 ^ 31
  deriving DecidableEq

/-- Where the call of a task is. -/
inductive Phase where
  | idle
  | wwait (r : Send)
  | copying (r : Send) (msgh : Addr)
  | rwait (r : Receive)
  deriving DecidableEq

structure Queue where
  msgFirst : Option Addr
  msgLast : Option Addr
  msgNext : Addr → Option Addr
  msg : Addr → Message
  allocated : Addr → Bool
  msgCbytes : Int
  msgQnum : Int
  msgQbytes : Int
  phase : Task → Phase
  sent : List Message
  received : List Message

/-- The queue as `newque` makes it, with any number of bytes it may hold. -/
def newque (qbytes : Int) : Queue where
  msgFirst := none
  msgLast := none
  msgNext := fun _ => none
  msg := fun _ => ⟨0, 0, []⟩
  allocated := fun _ => false
  msgCbytes := 0
  msgQnum := 0
  msgQbytes := qbytes
  phase := fun _ => .idle
  sent := []
  received := []

variable (s : Queue)

def goto (t : Task) (p : Phase) : Queue := { s with phase := update s.phase t p }

/-- What a call returns: nothing for `msgsnd`, the message for `msgrcv`. -/
abbrev Result := Except Errno (Option Message)

/-! ## `msgsnd` -/

/-- `real_msgsnd` from `slept` up to the copy; `memory` is what `kmalloc` returns. -/
def msgsndSlept (t : Task) (r : Send) (permitted signal : Bool) (memory : Option Addr) :
    Queue × Option Result :=
  if ¬permitted then (goto s t .idle, some (.error .eacces))
  else if r.msgsz + s.msgCbytes > s.msgQbytes then
    if r.nowait then (goto s t .idle, some (.error .eagain))
    else if signal then (goto s t .idle, some (.error .eintr))
    else (goto s t (.wwait r), none)
  else
    match memory with
    | none => (goto s t .idle, some (.error .enomem))
    | some msgh =>
      (goto { s with allocated := update s.allocated msgh true } t (.copying r msgh), none)

def realMsgsnd (t : Task) (r : Send) (permitted signal : Bool) (memory : Option Addr) :
    Queue × Option Result :=
  if r.msgsz > msgmax then (goto s t .idle, some (.error .einval))
  else if r.mtype < 1 then (goto s t .idle, some (.error .einval))
  else msgsndSlept s t r permitted signal memory

/-- Put a message at the end of the queue. -/
def link (msgh : Addr) : Queue :=
  match s.msgFirst with
  | none => { s with msgFirst := some msgh, msgLast := some msgh }
  | some _ =>
    match s.msgLast with
    | none => s
    | some last =>
      { s with msgNext := update s.msgNext last (some msgh), msgLast := some msgh }

/-- `real_msgsnd` behind the copy. -/
def msgsndCopied (t : Task) (r : Send) (msgh : Addr) (text : List UInt8) : Queue × Option Result :=
  let m : Message := ⟨r.mtype, r.msgsz, text⟩
  let s := { s with
    msgNext := update s.msgNext msgh none
    msg := update s.msg msgh m }
  let s := link s msgh
  let s := { s with
    msgCbytes := ushort (s.msgCbytes + r.msgsz)
    msgQnum := ushort (s.msgQnum + 1)
    sent := s.sent ++ [m] }
  (goto s t .idle, some (.ok none))

/-! ## `msgrcv` -/

/-- A loop along `msg_next` that stops at the first message it looks for. -/
def firstFrom (s : Queue) (p : Addr → Bool) : Nat → Option Addr → Option Addr
  | 0, _ => none
  | _ + 1, none => none
  | n + 1, some tmsg => if p tmsg then some tmsg else firstFrom s p n (s.msgNext tmsg)

/-- Such a loop from `msg_first`. There are no more messages than addresses. -/
def first (s : Queue) (p : Addr → Bool) : Option Addr := firstFrom s p (2 ^ 32 + 1) s.msgFirst

/-- The loop for the least type. -/
def leastFrom (s : Queue) : Nat → Addr → Option Addr → Addr
  | 0, leastp, _ => leastp
  | _ + 1, leastp, none => leastp
  | n + 1, leastp, some tmsg =>
    leastFrom s n (if (s.msg tmsg).type < (s.msg leastp).type then tmsg else leastp)
      (s.msgNext tmsg)

/-- The search of `real_msgrcv`. -/
def findMsg (s : Queue) (msgtyp : Int) (except : Bool) : Option Addr :=
  if msgtyp = 0 then s.msgFirst
  else if msgtyp > 0 then
    if except then first s fun tmsg => (s.msg tmsg).type ≠ msgtyp
    else first s fun tmsg => (s.msg tmsg).type = msgtyp
  else
    match s.msgFirst with
    | none => none
    | some a =>
      let leastp := leastFrom s (2 ^ 32 + 1) a (some a)
      if (s.msg leastp).type ≤ long (-msgtyp) then some leastp else none

/-- Lead the pointers past a message. -/
def bypass (s : Queue) (nmsg : Addr) : Queue :=
  if some nmsg = s.msgFirst then { s with msgFirst := s.msgNext nmsg }
  else
    match first s fun tmsg => s.msgNext tmsg = some nmsg with
    | none => s
    | some tmsg =>
      { s with
        msgNext := update s.msgNext tmsg (s.msgNext nmsg)
        msgLast := if some nmsg = s.msgLast then some tmsg else s.msgLast }

/-- Take a message of this size off the counters. -/
def uncount (ts : Nat) : Queue :=
  let s := { s with msgQnum := ushort (s.msgQnum - 1) }
  let s := if s.msgQnum = 0 then { s with msgLast := none, msgFirst := none } else s
  { s with msgCbytes := ushort (s.msgCbytes - ts) }

/-- Take a message out of the queue. -/
def unlink (nmsg : Addr) : Queue := uncount (bypass s nmsg) (s.msg nmsg).ts

/-- The part of a message that is copied out. -/
def Message.copied (m : Message) (msgsz : Nat) : Message :=
  let msgsz := if msgsz > m.ts then m.ts else msgsz
  { m with ts := msgsz, spot := m.spot.take msgsz }

/-- One turn of the loop of `real_msgrcv`. -/
def msgrcvTurn (t : Task) (r : Receive) (permitted signal : Bool) : Queue × Option Result :=
  if ¬permitted then (goto s t .idle, some (.error .eacces))
  else
    match findMsg s r.msgtyp r.except with
    | some nmsg =>
      if r.msgsz < (s.msg nmsg).ts ∧ ¬r.noerror then (goto s t .idle, some (.error .e2big))
      else
        let m := s.msg nmsg
        let s := unlink s nmsg
        let s := { s with
          allocated := update s.allocated nmsg false
          received := s.received ++ [m] }
        (goto s t .idle, some (.ok (some (m.copied r.msgsz))))
    | none =>
      if r.nowait then (goto s t .idle, some (.error .enomsg))
      else if signal then (goto s t .idle, some (.error .eintr))
      else (goto s t (.rwait r), none)

def realMsgrcv (t : Task) (r : Receive) (permitted signal : Bool) : Queue × Option Result :=
  if r.msgsz ≥ 2 ^ 31 then (goto s t .idle, some (.error .einval))
  else msgrcvTurn s t r permitted signal

/-! ## Steps -/

inductive Action where
  | send (t : Task) (r : Send) (permitted signal : Bool) (memory : Option Addr)
  | sendWake (t : Task) (permitted signal : Bool) (memory : Option Addr)
  | copied (t : Task) (text : List UInt8)
  | receive (t : Task) (r : Receive) (permitted signal : Bool)
  | receiveWake (t : Task) (permitted signal : Bool)

/-- `kmalloc` returns memory that is not in use. -/
def usable : Option Addr → Bool
  | none => true
  | some a => !s.allocated a

/-- One step, with the result of the call if it returns in it. -/
def step : Action → Option (Queue × Option Result)
  | .send t r permitted signal memory =>
    if s.phase t = .idle ∧ usable s memory then some (realMsgsnd s t r permitted signal memory)
    else none
  | .sendWake t permitted signal memory =>
    match s.phase t with
    | .wwait r =>
      if usable s memory then some (msgsndSlept s t r permitted signal memory) else none
    | _ => none
  | .copied t text =>
    match s.phase t with
    | .copying r msgh =>
      if text.length = r.msgsz then some (msgsndCopied s t r msgh text) else none
    | _ => none
  | .receive t r permitted signal =>
    if s.phase t = .idle then some (realMsgrcv s t r permitted signal) else none
  | .receiveWake t permitted signal =>
    match s.phase t with
    | .rwait r => some (msgrcvTurn s t r permitted signal)
    | _ => none

end Sbckernel.Ipc.Msg
