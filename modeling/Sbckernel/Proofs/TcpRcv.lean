import Sbckernel.Net.TcpRcv

/-!
# No data before the handshake

A socket in `SYN_RECV` has `iss` as the last ack it received and `iss + 1` as what it has
sent. An ack behind `iss + 1` is refused, and so the segment is; but `iss` itself passes as
the ack of the handshake, and an ack before `iss` passes as an old one, whose data is good.
-/

namespace Sbckernel.Net.TcpRcv

open TcpWindow

variable {iss irs : BitVec 32} {sk : Sock}

/-- Not the ack of the handshake; and, of the others, none that is not behind `iss`, and no
`syn` in another place than the first one. -/
def Fits (iss irs : BitVec 32) : Input → Prop
  | .segment th _ => th.ackSeq ≠ iss + 1 ∧ (th.ack → after th.ackSeq iss) ∧ (th.syn → th.seq = irs)
  | .offer _ => True

/-- A socket without data, in `SYN_RECV` as it was made or reset. -/
structure Unopened (iss irs : BitVec 32) (sk : Sock) : Prop where
  state : sk.state = .synRecv ∨ sk.state = .close
  synSeq : sk.synSeq = irs
  sentSeq : sk.sentSeq = iss + 1
  rcvAckSeq : sk.rcvAckSeq = iss
  ackedSeq : sk.ackedSeq = irs + 1
  receiveQueue : sk.receiveQueue = []

theorem after_succ {a b : BitVec 32} (h : after a b) (hne : a ≠ b + 1) : after a (b + 1) := by
  simp only [after, BitVec.toInt_neg_iff] at h ⊢
  bv_omega

theorem Unopened.tcpAck (h : Unopened iss irs sk) {ack : BitVec 32} (hafter : after ack iss)
    (hne : ack ≠ iss + 1) : tcpAck sk ack = (sk, false) := by
  have hsent : after ack sk.sentSeq := h.sentSeq ▸ after_succ hafter hne
  rw [TcpRcv.tcpAck, if_pos (.inl hsent), decide_eq_true hsent, Bool.not_true]

/-- The one way out of `SYN_RECV`. -/
def ResetBy (sk : Sock) (i : Input) : Prop :=
  ∃ th full, i = .segment th full ∧ th.rst ∧ tcpSequence sk th.seq th.dataEnd

theorem Unopened.step (h : Unopened iss irs sk) {i : Input} (hfits : Fits iss irs i) :
    Unopened iss irs (step sk i) ∧ ((step sk i).state = sk.state ∨ ResetBy sk i) := by
  cases i with
  | offer w => exact ⟨{ h with }, .inl rfl⟩
  | segment th full =>
    obtain ⟨hne, hack, hsyn⟩ := hfits
    have hsame : Unopened iss irs sk ∧ (sk.state = sk.state ∨ ResetBy sk (.segment th full)) :=
      ⟨h, .inl rfl⟩
    simp only [TcpRcv.step, tcpRcv]
    split
    next => exact hsame
    split
    next => exact hsame
    split
    next => exact hsame
    next hseq =>
      split
      next hrst => exact ⟨{ h with state := .inr rfl }, .inr ⟨th, full, rfl, hrst, not_not.mp hseq⟩⟩
      split
      next hother => exact absurd (h.synSeq ▸ hsyn hother.1) hother.2
      split
      next => exact hsame
      next hhas =>
        rw [h.tcpAck (hack (not_not.mp hhas)) hne]
        exact hsame

/-- The socket of a connection request after the inputs. -/
def afterInputs (iss irs : BitVec 32) (window : BitVec 16) (inputs : List Input) : Sock :=
  inputs.foldl step (tcpConnRequest iss irs window)

theorem afterInputs_snoc (window : BitVec 16) (l : List Input) (i : Input) :
    afterInputs iss irs window (l ++ [i]) = step (afterInputs iss irs window l) i :=
  List.foldl_concat ..

theorem unopened_inputs (window : BitVec 16) {inputs : List Input}
    (h : ∀ i ∈ inputs, Fits iss irs i) : Unopened iss irs (afterInputs iss irs window inputs) := by
  induction inputs using List.reverseRecOn with
  | nil => exact ⟨.inl rfl, rfl, rfl, rfl, rfl, rfl⟩
  | append_singleton l i ih =>
    rw [afterInputs_snoc]
    exact ((ih fun j hj => h j (by simp [hj])).step (h i (by simp))).1

/-- Inputs that fit put nothing on the queue, acknowledge nothing and leave the socket in
`SYN_RECV`, unless one of them is an `rst` in the window. -/
theorem handshake_first (window : BitVec 16) {inputs : List Input}
    (h : ∀ i ∈ inputs, Fits iss irs i) :
    (afterInputs iss irs window inputs).receiveQueue = [] ∧
      (afterInputs iss irs window inputs).ackedSeq = irs + 1 ∧
      ((afterInputs iss irs window inputs).state = .synRecv ∨
        (afterInputs iss irs window inputs).state = .close ∧
          ∃ l i l', inputs = l ++ i :: l' ∧ ResetBy (afterInputs iss irs window l) i) := by
  have hopen := unopened_inputs window h
  refine ⟨hopen.receiveQueue, hopen.ackedSeq, hopen.state.imp_right fun hclose => ⟨hclose, ?_⟩⟩
  clear hopen
  induction inputs using List.reverseRecOn with
  | nil => cases hclose
  | append_singleton l i ih =>
    have hl : ∀ j ∈ l, Fits iss irs j := fun j hj => h j (by simp [hj])
    rw [afterInputs_snoc] at hclose
    rcases ((unopened_inputs window hl).step (h i (by simp))).2 with hsame | hreset
    · obtain ⟨l1, j, l2, rfl, hj⟩ := ih hl (hsame ▸ hclose)
      exact ⟨l1, j, l2 ++ [i], by simp, hj⟩
    · exact ⟨l, i, [], rfl, hreset⟩

/-- An ack of something else, a segment without an ack and an `rst`. -/
def attempts : List Input :=
  [.segment { seq := 6, ackSeq := 2000, ack := true, len := 10 } false,
    .segment { seq := 6, ackSeq := 0, fin := true } true, .offer 100,
    .segment { seq := 6, ackSeq := 0, rst := true } false]

theorem handshake_first_attempts : (afterInputs 1000 5 4096 attempts).receiveQueue = [] ∧
    (afterInputs 1000 5 4096 attempts).state = .close :=
  ⟨(handshake_first 4096 (by simp [attempts, Fits, after])).1, by decide⟩

/-- Data with a `fin` comes in with an old ack; `iss` opens the connection; and a `syn` in
another place closes it. -/
theorem handshake_skipped :
    (let sk := afterInputs 1000 5 4096
      [.segment { seq := 6, ackSeq := 900, ack := true, fin := true, len := 10 } false]
    sk.receiveQueue ≠ [] ∧ sk.ackedSeq = 17 ∧ sk.state = .closeWait) ∧
    (afterInputs 1000 5 4096
      [.segment { seq := 6, ackSeq := 1000, ack := true } false]).state = .established ∧
    (afterInputs 1000 5 4096
      [.segment { seq := 7, ackSeq := 0, syn := true } false]).state = .close := by
  decide

end Sbckernel.Net.TcpRcv
