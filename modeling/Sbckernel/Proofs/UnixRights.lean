import Sbckernel.Net.UnixRights

/-!
# When the copy of a control message is safe

How many descriptors are stored is read from the user's buffer, so `cmsg_len` has to tell the
truth about `msg_controllen`. The copy is freed on the way through `out` and when it is too short
for a header, and not where the call returns from an empty queue.
-/

namespace Sbckernel.Net.UnixRights

/-- The offsets of words that lie in the copy. -/
def Inside (cm : Option Copy) (writes : List Nat) : Prop :=
  ∀ w ∈ writes, ∃ size cmsgLen, cm = some (size, cmsgLen) ∧ w + 4 ≤ size

/-- How many of `fdnum` descriptors are stored, for which `cmsg_len` has room and `unused` ones
can be had. -/
def stored (cmsgLen : BitVec 32) (fdnum unused : Nat) : Nat :=
  min (min ((cmsgLen - 12#32) / 4#32).toNat fdnum) unused

/-- Something is to be received. -/
def Call.Asks (c : Call) : Prop := (∃ len ∈ c.iov, len ≠ 0) ∧ c.size ≠ 0

/-- The message that is there for the call, or arrives before it gives up. -/
def firstMessage (c : Call) : List SkBuff → Bool → List Wake → Option SkBuff
  | skb :: _, _, _ => some skb
  | [], _, [] => none
  | [], shutdown, w :: waits =>
    if shutdown ∨ c.noblock ∨ w.signal then none else firstMessage c w.arrived w.shutdown waits

/-- The descriptors of a message fit in a copy of `size` bytes. -/
def Fits (size : Nat) (cmsgLen : BitVec 32) (unused : Nat) (skb : SkBuff) : Prop :=
  ∀ fdnum, skb.filp = some fdnum →
    stored cmsgLen fdnum unused = 0 ∨ cmsghdrSize + 4 * stored cmsgLen fdnum unused ≤ size

/-- A call that makes a copy and does not refuse it gets a message, if it asks for one, whose
descriptors fit. -/
def Call.Safe (c : Call) (queue : List SkBuff) (shutdown : Bool) (waits : List Wake)
    (unused : Nat) : Prop :=
  c.oob ∨ c.err ∨ ∀ len cmsgLen, c.control = some (len, cmsgLen) → (cmsghdrSize : Int) ≤ len →
    len ≤ 256 → c.Asks → ∃ skb, firstMessage c queue shutdown waits = some skb ∧
      Fits len.toNat cmsgLen unused skb

section
variable {c : Call} {cm : Option Copy} {copy : Copy} {fuel : Nat} {r r' : Recv} {e : Exit}

theorem inside_nil : Inside cm [] := nofun

theorem inside_stored_iff {size n : Nat} {cmsgLen : BitVec 32} :
    Inside (some (size, cmsgLen)) ((List.range n).map fun i => cmsghdrSize + 4 * i) ↔
      n = 0 ∨ cmsghdrSize + 4 * n ≤ size := by
  simp only [Inside, List.forall_mem_map, List.mem_range, Option.some.injEq, Prod.mk.injEq]
  constructor
  · intro h
    refine or_iff_not_imp_left.mpr fun hn => ?_
    obtain ⟨_, _, ⟨rfl, rfl⟩, hle⟩ := h (n - 1) (by omega)
    omega
  · rintro h i hi
    exact ⟨size, cmsgLen, ⟨rfl, rfl⟩, by omega⟩

/-- Without a copy nothing is stored. -/
theorem recvLoop_writes_of_none (hrun : recvLoop c none fuel r = some (e, r')) :
    r'.writes = r.writes := by
  have hstored : ∀ (filp : Option Nat) (unused : Nat),
      (filp.elim [] fun fdnum => unixDetachFds fdnum unused none) = [] := by
    rintro (_ | _) _ <;> rfl
  fun_induction recvLoop c none fuel r with
  | case1 | case6 => cases hrun
  | case2 | case4 | case5 | case7 =>
    cases hrun
    rfl
  | case3 | case8 =>
    rename_i ih
    exact ih hrun
  -- a buffer was taken from the queue
  | case9 | case11 =>
    rename_i ih
    rw [ih hrun]
    exact (congrArg (_ ++ ·) (hstored _ _)).trans (List.append_nil _)
  | case10 =>
    rw [Option.some.injEq, Prod.mk.injEq] at hrun
    rw [← hrun.2]
    exact (congrArg (_ ++ ·) (hstored _ _)).trans (List.append_nil _)

/-- What is left of a message has no descriptors, and with a copy it is all that the call gets. -/
theorem recvLoop_left {left : Nat} {queue : List SkBuff} (hq : r.queue = { len := left } :: queue)
    (hrun : recvLoop c (some copy) fuel r = some (e, r')) : e = .out ∧ r'.writes = r.writes := by
  fun_induction recvLoop c (some copy) fuel r generalizing left queue with
  | case1 | case6 => cases hrun
  | case2 | case4 =>
    cases hrun
    exact ⟨rfl, rfl⟩
  | case3 =>
    rename_i ih
    exact ih hq hrun
  | case5 _ _ _ _ _ _ _ hqueue | case7 _ _ _ _ _ _ _ hqueue | case8 _ _ _ _ _ _ _ hqueue =>
    cases hqueue.symm.trans hq
  | case9 _ _ _ _ _ _ _ _ _ hqueue =>
    rename_i ih
    cases hqueue.symm.trans hq
    obtain ⟨he, hwrites⟩ := ih rfl hrun
    exact ⟨he, hwrites.trans (List.append_nil _)⟩
  | case10 _ _ _ _ _ _ _ _ _ hqueue =>
    cases hqueue.symm.trans hq
    rw [Option.some.injEq, Prod.mk.injEq] at hrun
    exact ⟨hrun.1.symm, hrun.2 ▸ List.append_nil _⟩
  | case11 =>
    rename_i hcopy _
    simp at hcopy

theorem asks_of_lt {len : Nat} {iov : List Nat} (hcopied : r.copied = 0) (hiov : r.iov = len :: iov)
    (hlen : ¬¬r.done < len) (hout : ¬(r.copied ≠ 0 ∧ c.peek ∨ r.copied = c.size)) :
    (∃ len ∈ r.iov, len ≠ 0) ∧ c.size ≠ 0 :=
  ⟨⟨len, hiov ▸ List.mem_cons_self, by omega⟩, fun hsize => hout (.inr (hcopied.trans hsize.symm))⟩

/-- With a copy the call gets one message, and gives up if there is none. -/
theorem recvLoop_first (hcopied : r.copied = 0) (hdone : r.done = 0)
    (hrun : recvLoop c (some copy) fuel r = some (e, r')) :
    if (∃ len ∈ r.iov, len ≠ 0) ∧ c.size ≠ 0 then
      match firstMessage c r.queue r.shutdown r.waits with
      | none => e = .noData
      | some skb => e = .out ∧ r'.writes =
          r.writes ++ skb.filp.elim [] fun fdnum => unixDetachFds fdnum r.unused (some copy)
    else e = .out ∧ r'.writes = r.writes := by
  fun_induction recvLoop c (some copy) fuel r with
  | case1 | case6 => cases hrun
  | case2 _ _ hiov =>
    cases hrun
    simp [hiov]
  | case3 _ r len iov hiov hlen ih =>
    have hzero : len = 0 := by omega
    simpa [hiov, hzero] using ih hcopied rfl hrun
  | case4 _ _ _ _ _ _ hout =>
    cases hrun
    simp_all
  -- the call gives up
  | case5 _ r _ _ hiov hlen hout hqueue hquit =>
    rw [Option.some.injEq, Prod.mk.injEq] at hrun
    rw [if_pos (asks_of_lt hcopied hiov hlen hout), hqueue, ← hrun.1]
    cases r.waits with
    | nil => rfl
    | cons w waits =>
      have hgives : r.shutdown = true ∨ c.noblock = true ∨ w.signal = true := by tauto
      rw [firstMessage, if_pos hgives]
  | case7 _ r _ _ hiov hlen hout hqueue hquit w waits hwaits hsignal =>
    rw [Option.some.injEq, Prod.mk.injEq] at hrun
    rw [if_pos (asks_of_lt hcopied hiov hlen hout), hqueue, hwaits, ← hrun.1]
    simp [firstMessage, hsignal]
  | case8 _ r _ _ hiov hlen hout hqueue hquit w waits hwaits hsignal ih =>
    have hgoes : ¬(r.shutdown = true ∨ c.noblock = true ∨ w.signal = true) := by tauto
    rw [hqueue, hwaits, firstMessage, if_neg hgoes]
    exact ih hcopied hdone hrun
  -- a message was taken from the queue
  | case9 _ r _ _ hiov hlen hout skb queue hqueue =>
    obtain ⟨he, hwrites⟩ := recvLoop_left rfl hrun
    rw [if_pos (asks_of_lt hcopied hiov hlen hout), hqueue, firstMessage]
    exact ⟨he, hwrites⟩
  | case10 _ r _ _ hiov hlen hout skb queue hqueue =>
    rw [Option.some.injEq, Prod.mk.injEq] at hrun
    rw [if_pos (asks_of_lt hcopied hiov hlen hout), hqueue, firstMessage]
    exact ⟨hrun.1.symm, hrun.2 ▸ rfl⟩
  | case11 =>
    rename_i hcopy _
    simp at hcopy

end

/-- What is stored of a message's descriptors lies in the copy if they fit. -/
theorem inside_iff_fits {size unused : Nat} {cmsgLen : BitVec 32} {skb : SkBuff} :
    Inside (some (size, cmsgLen)) (skb.filp.elim [] fun fdnum =>
      unixDetachFds fdnum unused (some (size, cmsgLen))) ↔ Fits size cmsgLen unused skb := by
  unfold Fits
  cases skb.filp with
  | none => exact iff_of_true inside_nil nofun
  | some fdnum =>
    simp only [Option.elim_some, Option.some.injEq, forall_eq']
    exact inside_stored_iff

/-- A call that returns has written its copy only inside and freed it once exactly if it is safe:
the copy is not freed where the call gives up, and `cmsg_len` is not compared with its size. -/
theorem rights_safe {fuel : Nat} {c : Call} {queue : List SkBuff} {shutdown : Bool}
    {waits : List Wake} {unused : Nat} {res : Result}
    (hrun : unixRecvmsg fuel c queue shutdown waits unused = some res) :
    Inside res.copy res.writes ∧ res.kfrees = res.copy.toList.length ↔
      c.Safe queue shutdown waits unused := by
  rw [unixRecvmsg] at hrun
  split at hrun
  · next hoob =>
    cases hrun
    exact iff_of_true ⟨inside_nil, rfl⟩ (.inl hoob)
  split at hrun
  · next herr =>
    cases hrun
    exact iff_of_true ⟨inside_nil, rfl⟩ (.inr (.inl herr))
  next hoob herr =>
  dsimp only at hrun
  split at hrun
  · next hinvalid =>
    cases hrun
    refine iff_of_true ⟨inside_nil, rfl⟩ (.inr (.inr fun len cmsgLen hcontrol hlen => ?_))
    simp [hcontrol] at hinvalid
    omega
  next hvalid =>
  obtain ⟨⟨e, r⟩, hloop, rfl⟩ := Option.map_eq_some_iff.mp hrun
  dsimp only
  cases hcopy : c.control.bind fun p => unixCopyrights p.1 p.2 with
  | none =>
    rw [hcopy] at hloop
    rw [recvLoop_writes_of_none hloop]
    refine iff_of_true ⟨inside_nil, by simp⟩ (.inr (.inr fun len cmsgLen hcontrol hlen hle => ?_))
    simp only [hcontrol, Option.bind_some, unixCopyrights, cmsghdrSize] at hcopy hlen
    split at hcopy
    · omega
    · cases hcopy
  | some copy =>
    rw [hcopy] at hloop
    obtain ⟨⟨len, cmsgLen⟩, hcontrol, hsome⟩ := Option.bind_eq_some_iff.mp hcopy
    have hlen : ((cmsghdrSize : Int) ≤ len ∧ len ≤ 256) ∧ copy = (len.toNat, cmsgLen) := by
      simp only [unixCopyrights] at hsome
      split at hsome
      · cases hsome
      · simp only [hcontrol, Option.any_some, decide_eq_true_eq] at hvalid
        exact ⟨by omega, (Option.some.inj hsome).symm⟩
    obtain ⟨⟨hlo, hhi⟩, rfl⟩ := hlen
    have hsafe : c.Safe queue shutdown waits unused ↔ (c.Asks → ∃ skb,
        firstMessage c queue shutdown waits = some skb ∧ Fits len.toNat cmsgLen unused skb) := by
      simp [Call.Safe, hoob, herr, hcontrol, hlo, hhi]
    have hfirst := recvLoop_first rfl rfl hloop
    rw [hsafe]
    split at hfirst
    · next hasks =>
      dsimp only at hfirst
      split at hfirst
      · next hnone =>
        simp [hfirst, hnone, show c.Asks from hasks]
      · next skb hskb =>
        rw [hfirst.1, hfirst.2, List.nil_append, inside_iff_fits]
        simp [hskb, show c.Asks from hasks]
    · next hasks =>
      rw [hfirst.1, hfirst.2]
      exact iff_of_true ⟨inside_nil, rfl⟩ fun h => absurd h hasks

/-- Two descriptors come with a byte, and there is room for one. -/
theorem rights_safe_one :
    Inside (some (16, 16)) [12] ∧ 1 = (some (16, 16) : Option Copy).toList.length := by
  have hrun : unixRecvmsg 5 { control := some (16, 16), iov := [1], size := 1 } [⟨1, some 2⟩] false
    [] 9 = some ⟨.out, some (16, 16), [12], 1⟩ := rfl
  refine (rights_safe hrun).mpr (.inr (.inr fun len cmsgLen h _ _ _ =>
    ⟨_, rfl, fun fdnum hf => ?_⟩))
  cases h
  cases hf
  decide

/-- A header without room whose `cmsg_len` says otherwise: the descriptors land behind the copy.
And a call that finds the queue empty leaves its copy behind. -/
theorem rights_unsafe :
    (∃ res, unixRecvmsg 5 { control := some (12, 40), iov := [1], size := 1 } [⟨1, some 7⟩] false
      [] 9 = some res ∧ res.copy = some (12, 40) ∧ 12 ∈ res.writes) ∧
    ∃ res, unixRecvmsg 5 { control := some (16, 16), iov := [1], size := 1, noblock := true }
      [] false
      [] 9 = some res ∧ res.copy.isSome ∧ res.kfrees = 0 :=
  ⟨⟨_, rfl, by decide⟩, _, rfl, by decide⟩

end Sbckernel.Net.UnixRights
