import Sbckernel.Net.TcpConn

/-!
# A connection request and its listener

A request with options overwrites the pointer of the listener. The block it had is
lost, and if `ip_options_echo` fails the listener keeps a pointer to a freed one.
-/

namespace Sbckernel.Net.TcpConn

variable {Options : Type} {echo : Options → Option Options} {r : Syn Options}
  {s s' : State Options}

/-- The listener has its options as before, the new socket has the echo of those of
the request, and no other block is left over. -/
structure Clean (echo : Options → Option Options) (r : Syn Options) (s s' : State Options) :
    Prop where
  skOpt : s'.skOpt = s.skOpt
  owned : ∀ p, s.skOpt = some p → s'.blocks p = s.blocks p
  echoed : ∀ opt, s'.newsk = some opt → opt.bind s'.blocks =
    r.opt.bind fun o => if o.1 = 0 then none else echo o.2
  used : ∀ p, s'.blocks p ≠ none → s.blocks p ≠ none ∨ s'.newsk = some (some p)

theorem clean_synack (hopt : ∀ o, r.opt = some o → o.1 = 0) (kept : Bool) :
    Clean echo r s (tcpSendSynack { s with newsk := some none } kept) := by
  cases kept with
  | false => exact ⟨rfl, fun _ _ => rfl, nofun, fun _ hp => .inl hp⟩
  | true =>
    refine ⟨rfl, fun _ _ => rfl, fun opt heq => ?_, fun _ hp => .inl hp⟩
    cases heq
    cases ho : r.opt with
    | none => rfl
    | some o => exact (if_pos (hopt o ho)).symm

/-- A request is handled properly exactly if it has no options, or fails before it
changes the pointer of the listener or without a block for a listener without one. -/
theorem conn_request_clean_iff (hnew : s.newsk = none)
    (hsk : ∀ p, s.skOpt = some p → s.blocks p ≠ none)
    (hblock : ∀ p, r.block = some p → s.blocks p = none) :
    Clean echo r s (tcpConnRequest echo s r) ↔ r.refused ∨ ¬r.sock ∨
      (∀ o, r.opt = some o → o.1 = 0) ∨ s.skOpt = none ∧ r.block = none := by
  rw [← or_assoc, tcpConnRequest]
  split
  next hearly =>
    refine ⟨fun _ => .inl hearly, fun _ => ⟨rfl, fun _ _ => rfl, fun _ h => ?_, fun _ => .inl⟩⟩
    rw [hnew] at h
    cases h
  next hlate =>
    rw [or_iff_right hlate]
    dsimp only
    cases hopt : r.opt with
    | none => exact ⟨fun _ => .inl nofun, fun _ => clean_synack (by simp [hopt]) r.kept⟩
    | some o =>
      dsimp only
      split
      next hzero =>
        have hall : ∀ o', some o = some o' → o'.1 = 0 := fun o' heq => Option.some.inj heq ▸ hzero
        exact ⟨fun _ => .inl hall, fun _ => clean_synack (hopt ▸ hall) r.kept⟩
      next hne =>
        rw [or_iff_right fun hall => hne (hall o rfl)]
        -- the new block would have to be the one that the listener had
        have hsame : ∀ p, r.block = some p → s.skOpt ≠ some p := fun p hp heq =>
          hsk p heq (hblock p hp)
        cases hb : r.block with
        | none =>
          refine ⟨fun h => ⟨h.skOpt.symm, rfl⟩, fun h => ⟨h.1.symm, ?_, nofun, fun _ => .inl⟩⟩
          exact fun _ _ => rfl
        | some p =>
          refine ⟨fun h => absurd ?_ (hsame p hb), fun h => nomatch h.2⟩
          have hsk' := h.skOpt.symm
          revert hsk'
          cases echo o.2 with
          | none => exact id
          | some e => cases r.kept <;> exact id

/-- A listener with the options 7 in block 1. -/
def oneListener : State Nat := ⟨some 1, fun p => if p = 1 then some 7 else none, none⟩

theorem conn_request_clean_iff_plain : Clean some { opt := none, block := some 2 } oneListener
    (tcpConnRequest some oneListener { opt := none, block := some 2 }) :=
  (conn_request_clean_iff rfl (fun _ h => by cases h; decide) fun _ h => by cases h; decide).mpr
    (.inr (.inr (.inl nofun)))

/-- The request is answered with the options 9 in block 2. Block 1 is lost, and the new
socket has no options; if there is no echo, block 2 is freed. -/
theorem listener_options_lost : ∃ r : Syn Nat, r.opt = some (4, 9) ∧ oneListener.blocks 2 = none ∧
    (tcpConnRequest some oneListener r).skOpt = some 2 ∧
    (tcpConnRequest some oneListener r).blocks 1 = some 7 ∧
    (tcpConnRequest some oneListener r).newsk = some none ∧
    (tcpConnRequest (fun _ => none) oneListener r).skOpt = some 2 ∧
    (tcpConnRequest (fun _ => none) oneListener r).blocks 2 = none :=
  ⟨{ opt := some (4, 9), block := some 2 }, by decide⟩

end Sbckernel.Net.TcpConn
