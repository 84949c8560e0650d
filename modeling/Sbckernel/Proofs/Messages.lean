import Sbckernel.Lib.Reach
import Sbckernel.Proofs.MsgQueue

/-!
# Message queues as lists

What a queue is for: `msgsnd` puts a message at the end of a list, `msgrcv` takes the
one out that its type asks for, or says that there is none, or waits. A queue is that
list, with its length and its total size in the two counters, as long as both fit into
a `ushort`. The size is bounded by `msg_qbytes` (unless senders race), the length is
not: messages may be empty.

The one request that is not answered as it should be is the one for the least `long`,
which is its own negative.
-/

namespace Sbckernel.Ipc.Msg

open Lib Function List

/-- The total size of messages. -/
def size (L : List Message) : Nat := (L.map Message.ts).sum

/-- The messages that the pointers of the queue lead through, to the last. -/
def Contents (s : Queue) (L : List Message) : Prop :=
  ∃ l, Chain s.msgNext s.msgFirst l none ∧ s.msgLast = l.getLast? ∧ L = l.map s.msg

/-- What a step of a call is to do with the list. -/
inductive Outcome (L : List Message) : Call → Option Result → List Message → Prop
  | check (r : Send) (out : Option Result) : out ≠ some (.ok none) → Outcome L (.check r) out L
  | append (r : Send) (text : List UInt8) :
      Outcome L (.append r text) (some (.ok none)) (L ++ [⟨r.mtype, r.msgsz, text⟩])
  | refused (r : Receive) (e : Errno) : e = .eacces ∨ e = .einval →
      Outcome L (.receive r) (some (.error e)) L
  | tooBig (r : Receive) (before : List Message) (m : Message) (after : List Message) :
      L = before ++ m :: after → Picks r.msgtyp r.except before m after →
      r.msgsz < m.ts → r.noerror = false → Outcome L (.receive r) (some (.error .e2big)) L
  | got (r : Receive) (before : List Message) (m : Message) (after : List Message) :
      L = before ++ m :: after → Picks r.msgtyp r.except before m after →
      m.ts ≤ r.msgsz ∨ r.noerror = true →
      Outcome L (.receive r) (some (.ok (some (m.copied r.msgsz)))) (before ++ after)
  | nothing (r : Receive) (out : Option Result) :
      (∀ before m after, L = before ++ m :: after → ¬Picks r.msgtyp r.except before m after) →
      Waits r out → Outcome L (.receive r) out L

section
variable {s s' : Queue} {l l' l1 l2 : List Addr} {a : Addr} {c : Call} {out : Option Result}
variable {L : List Message}

theorem MsgInv.contents (h : MsgInv s l) : Contents s (l.map s.msg) := ⟨l, h.chain, h.last, rfl⟩

theorem MsgInv.contents_eq (h : MsgInv s l) (hL : Contents s L) : L = l.map s.msg := by
  obtain ⟨l', hchain, -, rfl⟩ := hL
  rw [h.chain.unique hchain]

theorem size_append (L L' : List Message) : size (L ++ L') = size L + size L' := by
  rw [size, map_append, sum_append]
  rfl

theorem size_middle (L L' : List Message) (m : Message) :
    size (L ++ m :: L') = size (L ++ L') + m.ts := by
  rw [size_append, size_append]
  simp only [size, map_cons, sum_cons]
  omega

theorem map_update (ha : a ∉ l) (m : Message) :
    (l ++ [a]).map (update s.msg a m) = l.map s.msg ++ [m] := by
  rw [map_append, map_singleton, update_self]
  congr 1
  exact map_congr_left fun b hb => update_of_ne (fun heq : b = a => ha (heq ▸ hb)) ..

theorem remaining_removed (hlen : (l1 ++ a :: l2).length ≤ 65536) :
    remaining (l1 ++ l2) = l1 ++ l2 := by
  refine remaining_of_lt ?_
  simp only [length_append, length_cons] at hlen ⊢
  omega

/-- `msg_cbytes` is the size as far as a `ushort` holds it. -/
theorem Effect.cbytes (hlen : l.length ≤ 65536) (heff : Effect s l c out s' l')
    (h : s.msgCbytes = ushort (size (l.map s.msg))) :
    s'.msgCbytes = ushort (size (l'.map s'.msg)) := by
  cases heff with
  | check _ hquiet | refused _ _ hquiet | tooBig _ _ _ _ _ _ _ _ hquiet | nothing _ _ _ hquiet =>
    rw [hquiet.cbytes, hquiet.msg, h]
  | append r text a ha hmsg hcbytes =>
    rw [hcbytes, hmsg, map_update ha, size_append, h, ushort, ushort, ushort]
    simp only [size, map_singleton, sum_singleton]
    push_cast
    omega
  | got r l1 a l2 hl hpicks hfits hmsg hcbytes =>
    subst hl
    rw [map_append, map_cons, size_middle, ← map_append] at h
    rw [remaining_removed hlen, hcbytes, hmsg, h, ushort, ushort, ushort]
    push_cast
    omega

theorem Effect.qbytes (heff : Effect s l c out s' l') : s'.msgQbytes = s.msgQbytes := by
  cases heff with
  | append _ _ _ _ _ _ hqbytes | got _ _ _ _ _ _ _ _ _ hqbytes => exact hqbytes
  | check _ hquiet | refused _ _ hquiet | tooBig _ _ _ _ _ _ _ _ hquiet | nothing _ _ _ hquiet =>
    exact hquiet.qbytes

/-! ## The order of messages of one type -/

def ofType (type : Int) (L : List Message) : List Message := L.filter fun m => m.type = type

/-- Of each type, what has been received and what is queued is what has been sent, in order. -/
def InOrder (s : Queue) (L : List Message) : Prop :=
  ∀ type, ofType type s.received ++ ofType type L = ofType type s.sent

theorem ofType_append (type : Int) (L L' : List Message) :
    ofType type (L ++ L') = ofType type L ++ ofType type L' := filter_append ..

/-- The first message of its type may be taken out first. -/
theorem ofType_picked {before after : List Message} {m : Message} {type : Int}
    (hfirst : ∀ x ∈ before, x.type ≠ m.type) :
    ofType type [m] ++ ofType type (before ++ after) = ofType type (before ++ m :: after) := by
  rw [append_cons before m after]
  simp only [ofType_append]
  rw [← append_assoc]
  congr 1
  by_cases hm : m.type = type
  · have hnil : ofType type before = [] :=
      filter_eq_nil_iff.mpr fun x hx => by simpa [← hm] using hfirst x hx
    rw [hnil, append_nil, nil_append]
  · have hnil : ofType type [m] = [] := filter_eq_nil_iff.mpr fun x hx => by
      rw [mem_singleton.mp hx]
      simpa using hm
    rw [hnil, append_nil, nil_append]

theorem Effect.inOrder (hlen : l.length ≤ 65536) (heff : Effect s l c out s' l')
    (h : InOrder s (l.map s.msg)) : InOrder s' (l'.map s'.msg) := by
  have hquietOrder : Quiet s s' → InOrder s' (l.map s'.msg) := fun hquiet type => by
    rw [hquiet.msg, hquiet.received, hquiet.sent]
    exact h type
  cases heff with
  | check _ hquiet | refused _ _ hquiet | tooBig _ _ _ _ _ _ _ _ hquiet | nothing _ _ _ hquiet =>
    exact hquietOrder hquiet
  | append r text a ha hmsg hcbytes hqbytes hsent hreceived =>
    intro type
    rw [hmsg, map_update ha, hsent, hreceived, ofType_append, ofType_append, ← append_assoc, h type]
  | got r l1 a l2 hl hpicks hfits hmsg hcbytes hqbytes hsent hreceived =>
    subst hl
    intro type
    have hbefore := h type
    rw [map_append, map_cons] at hbefore
    rw [remaining_removed hlen, hmsg, hsent, hreceived, ofType_append, map_append,
      append_assoc, ofType_picked hpicks.type_ne, hbefore]

/-! ## Every run -/

/-- All interleavings, for any `msg_qbytes`. -/
def queues : System Queue where
  init := fun s => ∃ qbytes, 0 ≤ qbytes ∧ qbytes < 65536 ∧ s = newque qbytes
  step := fun s s' => ∃ act out, step s act = some (s', out)

theorem msgInv_newque (qbytes : Int) : MsgInv (newque qbytes) [] :=
  ⟨.nil, rfl, rfl, nofun, rfl, nofun, nofun⟩

/-- What holds in those runs, with the addresses. -/
structure Sound (s : Queue) (l : List Addr) : Prop where
  inv : MsgInv s l
  length : l.length < 65536
  size : size (l.map s.msg) < 65536
  cbytes : s.msgCbytes = ushort (Msg.size (l.map s.msg))
  order : InOrder s (l.map s.msg)

end

/-! ## Samples -/

/-- An empty message of type 1. -/
def emptySend : Send := ⟨0, 1, false⟩

/-- A queue with one message, from its sender's two steps. -/
def oneChecked : Queue := (realMsgsnd (newque msgmnb) 0 emptySend true false (some 0)).1

def oneQueued : Queue := (msgsndCopied oneChecked 0 emptySend 0 []).1

theorem oneChecked_inv : MsgInv oneChecked [] := (msgInv_newque msgmnb).allocate rfl

theorem newque_init : queues.init (newque msgmnb) := ⟨msgmnb, by decide, by decide, rfl⟩

theorem step_oneChecked : step (newque msgmnb) (.send 0 emptySend true false (some 0)) =
    some (oneChecked, none) := rfl

theorem step_oneQueued : step oneChecked (.copied 0 []) = some (oneQueued, some (.ok none)) := rfl

theorem link_frame (s : Queue) (a : Addr) : ∃ first last next,
    link s a = { s with msgFirst := first, msgLast := last, msgNext := next } := by
  rw [link]
  repeat' split
  all_goals exact ⟨_, _, _, rfl⟩

theorem msgsndCopied_frame (s : Queue) (t : Task) (r : Send) (a : Addr) (text : List UInt8) :
    (msgsndCopied s t r a text).1.phase = update s.phase t .idle ∧
    (msgsndCopied s t r a text).1.allocated = s.allocated ∧
    (msgsndCopied s t r a text).1.msgCbytes = ushort (s.msgCbytes + r.msgsz) ∧
    (msgsndCopied s t r a text).1.msgQbytes = s.msgQbytes := by
  rw [msgsndCopied]
  obtain ⟨first, last, next, heq⟩ := link_frame { s with
    msgNext := update s.msgNext a none
    msg := update s.msg a ⟨r.mtype, r.msgsz, text⟩ } a
  rw [heq]
  exact ⟨rfl, rfl, rfl, rfl⟩

end Sbckernel.Ipc.Msg
