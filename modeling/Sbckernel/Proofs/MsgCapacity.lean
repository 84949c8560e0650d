import Sbckernel.Lib.Tally
import Sbckernel.Proofs.Messages

/-!
# The capacity of a message queue

`msgsnd` looks at the space, copies the text, which may fault and sleep, and then adds
the size without another look. While it sleeps others may find the same space. So the
counter stays within `msg_qbytes` as long as every sender that finds space would also find
it behind all those that are still copying.
-/

namespace Sbckernel.Ipc.Msg

open Lib Function

/-- The space that has been granted to a sender which has not used it yet. -/
def Phase.granted : Phase → Int
  | .copying r _ => r.msgsz
  | _ => 0

/-- The space that has been granted to all of them. -/
def granted (s : Queue) : Int := weight Phase.granted Finset.univ s.phase

/-- The message for which a step looks at the space, and has memory. -/
def asks (s : Queue) : Action → Option Send
  | .send _ r permitted _ memory =>
    if r.msgsz ≤ msgmax ∧ 1 ≤ r.mtype ∧ permitted ∧ memory.isSome then some r else none
  | .sendWake t permitted _ memory =>
    match s.phase t with
    | .wwait r => if permitted ∧ memory.isSome then some r else none
    | _ => none
  | _ => none

section
variable {s s' : Queue} {l l' : List Addr} {c : Call} {out : Option Result} {act : Action}
  {t : Task} {r : Send} {text : List UInt8}

/-- `msg_cbytes` is the size of what is queued, and within the bound. -/
def WithinCapacity (s : Queue) : Prop :=
  ∃ L, Contents s L ∧ s.msgCbytes = size L ∧ s.msgCbytes ≤ s.msgQbytes

/-- A message for which there is space also has it when the others have used theirs. -/
def Fits (s : Queue) (act : Action) : Prop :=
  ∀ r, asks s act = some r → r.msgsz + s.msgCbytes ≤ s.msgQbytes →
    r.msgsz + s.msgCbytes + granted s ≤ s.msgQbytes

/-- There are less than 65535 messages in the queue when one is added. -/
def Counts (s : Queue) (act : Action) : Prop :=
  ∀ r text L, callOf s act = some (.append r text) → Contents s L → L.length + 1 < 65536

/-- The runs in which senders only use what is left, and in which `msg_qnum` does not wrap. -/
def fittingQueues : System Queue where
  init := queues.init
  step := fun s s' => ∃ act out, step s act = some (s', out) ∧ Fits s act ∧ Counts s act

/-! ## The space that is granted -/

theorem granted_update {p : Phase} (h : s'.phase = update s.phase t p) :
    granted s' = granted s + (p.granted - (s.phase t).granted) := by
  rw [granted, h, weight_update (Finset.mem_univ t)]
  rfl

theorem granted_eq {p : Phase} (h : s'.phase = update s.phase t p)
    (hp : p.granted = (s.phase t).granted) : granted s' = granted s := by
  rw [granted_update h, hp, sub_self, add_zero]

theorem granted_nonneg (s : Queue) : 0 ≤ granted s := by
  unfold granted weight
  refine Finset.sum_nonneg fun t _ => ?_
  cases s.phase t with
  | copying r a => exact Int.natCast_nonneg r.msgsz
  | idle | wwait | rwait => exact le_rfl

theorem unlink_phase (s : Queue) (a : Addr) : (unlink s a).phase = s.phase := by
  have hbypass : (bypass s a).phase = s.phase := by
    rw [bypass]
    repeat' split
    all_goals rfl
  rw [unlink, uncount]
  dsimp only
  split <;> exact hbypass

/-- A sender that has looked at the space has been granted it, or has not. -/
theorem msgsndSlept_granted (hphase : (s.phase t).granted = 0) (r : Send)
    (permitted signal : Bool) (memory : Option Addr) :
    granted (msgsndSlept s t r permitted signal memory).1 = granted s ∨
      permitted = true ∧ memory.isSome = true ∧ r.msgsz + s.msgCbytes ≤ s.msgQbytes ∧
        granted (msgsndSlept s t r permitted signal memory).1 = granted s + r.msgsz := by
  have hrest : ∀ {p : Phase}, p.granted = 0 → granted (goto s t p) = granted s :=
    fun hp => granted_eq rfl (hp.trans hphase.symm)
  unfold msgsndSlept
  split
  next => exact .inl (hrest rfl)
  next hpermitted =>
    split
    next =>
      refine .inl ?_
      split_ifs
      all_goals exact hrest rfl
    next hfull =>
      cases memory with
      | none => exact .inl (hrest rfl)
      | some a =>
        refine .inr ⟨not_not.mp hpermitted, rfl, not_lt.mp hfull, ?_⟩
        rw [granted_update (s := s) (t := t) (p := .copying r a) rfl, hphase, sub_zero]
        rfl

theorem msgrcvTurn_granted (hphase : (s.phase t).granted = 0) (r : Receive)
    (permitted signal : Bool) : granted (msgrcvTurn s t r permitted signal).1 = granted s := by
  have hrest : ∀ {s' : Queue} {p : Phase}, s'.phase = s.phase → p.granted = 0 →
      granted (goto s' t p) = granted s := by
    intro s' p hs' hp
    refine granted_eq (t := t) (p := p) ?_ (hp.trans hphase.symm)
    rw [← hs']
    rfl
  rw [msgrcvTurn]
  split
  · exact hrest rfl rfl
  split
  · split
    · exact hrest rfl rfl
    · exact hrest (unlink_phase s _) rfl
  · split_ifs
    all_goals exact hrest rfl rfl

/-- An append uses what was granted, and a look at the space may grant more. -/
theorem step_granted (hstep : step s act = some (s', out)) :
    (∃ r text, callOf s act = some (.append r text) ∧ granted s' + r.msgsz = granted s) ∨
      (∀ r text, callOf s act ≠ some (.append r text)) ∧ (granted s' = granted s ∨
        ∃ r, asks s act = some r ∧ r.msgsz + s.msgCbytes ≤ s.msgQbytes ∧
          granted s' = granted s + r.msgsz) := by
  cases act with
  | send t r permitted signal memory =>
    rw [step] at hstep
    obtain ⟨⟨hidle, -⟩, hstep⟩ := Option.ite_none_right_eq_some.mp hstep
    have hphase : (s.phase t).granted = 0 := by rw [hidle]; rfl
    refine .inr ⟨by simp [callOf], ?_⟩
    rw [realMsgsnd] at hstep
    split_ifs at hstep with hbig htype
    · cases hstep
      exact .inl (granted_eq (t := t) rfl hphase.symm)
    · cases hstep
      exact .inl (granted_eq (t := t) rfl hphase.symm)
    · have hslept := msgsndSlept_granted hphase r permitted signal memory
      rw [Option.some.inj hstep] at hslept
      refine hslept.imp_right ?_
      rintro ⟨hpermitted, hmemory, hspace, hgranted⟩
      exact ⟨r, if_pos ⟨not_lt.mp hbig, by omega, hpermitted, hmemory⟩, hspace, hgranted⟩
  | sendWake t permitted signal memory =>
    cases hp : s.phase t with
    | wwait r =>
      rw [step, hp] at hstep
      obtain ⟨-, hstep⟩ := Option.ite_none_right_eq_some.mp hstep
      have hslept := msgsndSlept_granted (t := t) (by rw [hp]; rfl) r permitted signal memory
      rw [Option.some.inj hstep] at hslept
      refine .inr ⟨by simp [callOf, hp], hslept.imp_right ?_⟩
      rintro ⟨hpermitted, hmemory, h⟩
      refine ⟨r, ?_, h⟩
      rw [asks, hp]
      exact if_pos ⟨hpermitted, hmemory⟩
    | _ => simp [step, hp] at hstep
  | copied t text =>
    cases hp : s.phase t with
    | copying r a =>
      rw [step, hp] at hstep
      obtain ⟨-, hstep⟩ := Option.ite_none_right_eq_some.mp hstep
      refine .inl ⟨r, text, by rw [callOf, hp], ?_⟩
      have hframe := (msgsndCopied_frame s t r a text).1
      rw [Option.some.inj hstep] at hframe
      rw [granted_update hframe, hp]
      simp only [Phase.granted]
      omega
    | _ => simp [step, hp] at hstep
  | receive t r permitted signal =>
    rw [step] at hstep
    obtain ⟨hidle, hstep⟩ := Option.ite_none_right_eq_some.mp hstep
    have hphase : (s.phase t).granted = 0 := by rw [hidle]; rfl
    refine .inr ⟨by simp [callOf], .inl ?_⟩
    rw [realMsgrcv] at hstep
    split_ifs at hstep
    · cases hstep
      exact granted_eq (t := t) rfl hphase.symm
    · have hturn := msgrcvTurn_granted hphase r permitted signal
      rwa [Option.some.inj hstep] at hturn
  | receiveWake t permitted signal =>
    cases hp : s.phase t with
    | rwait r =>
      rw [step, hp] at hstep
      have hturn := msgrcvTurn_granted (t := t) (by rw [hp]; rfl) r permitted signal
      rw [Option.some.inj hstep] at hturn
      exact .inr ⟨by simp [callOf, hp], .inl hturn⟩
    | _ => simp [step, hp] at hstep

/-! ## Every run -/

structure Bounded (s : Queue) (l : List Addr) : Prop where
  inv : MsgInv s l
  length : l.length < 65536
  cbytes : s.msgCbytes = size (l.map s.msg)
  le : s.msgCbytes + granted s ≤ s.msgQbytes
  qbytes : s.msgQbytes < 65536

/-- Only an append makes the queue bigger. -/
theorem Effect.size_le (hlen : l.length ≤ 65536) (heff : Effect s l c out s' l')
    (hnot : ∀ r text, c ≠ .append r text) :
    size (l'.map s'.msg) ≤ size (l.map s.msg) ∧ l'.length ≤ l.length := by
  cases heff with
  | check _ hquiet | refused _ _ hquiet | tooBig _ _ _ _ _ _ _ _ hquiet | nothing _ _ _ hquiet =>
    rw [hquiet.msg]
    exact ⟨le_rfl, le_rfl⟩
  | append r text => exact absurd rfl (hnot r text)
  | got r l1 a l2 hl hpicks hfits hmsg =>
    subst hl
    rw [remaining_removed hlen, hmsg, List.map_append, List.map_append, List.map_cons, size_middle]
    simp only [List.length_append, List.length_cons]
    exact ⟨Nat.le_add_right .., by omega⟩

theorem Effect.size_append (heff : Effect s l (.append r text) out s' l') :
    size (l'.map s'.msg) = size (l.map s.msg) + r.msgsz ∧ l'.length = l.length + 1 := by
  cases heff with
  | append r text a ha hmsg hcbytes =>
    rw [hmsg, map_update ha, Msg.size_append, List.length_append]
    exact ⟨rfl, rfl⟩

/-- What is queued and what has been granted stay within the bound together. -/
theorem Bounded.step (hs : Bounded s l) (hstep : step s act = some (s', out)) (hfits : Fits s act)
    (hcounts : Counts s act) : ∃ l', Bounded s' l' := by
  obtain ⟨c, l', hcall, hinv, heff⟩ := step_effect hs.inv hstep
  have hle : l.length ≤ 65536 := hs.length.le
  have hc := hs.cbytes
  have hq := hs.qbytes
  have hbound := hs.le
  have hsize : (size (l'.map s'.msg) : Int) + granted s' ≤ s.msgQbytes ∧ l'.length < 65536 := by
    obtain ⟨r, text, happ, hgranted⟩ | ⟨hnot, hgranted⟩ := step_granted hstep
    · have hfew := hcounts r text _ happ hs.inv.contents
      cases hcall.symm.trans happ
      obtain ⟨hsize, hlen⟩ := heff.size_append
      rw [List.length_map] at hfew
      omega
    · obtain ⟨hsize, hlen⟩ := heff.size_le hle fun r text heq => hnot r text (heq ▸ hcall)
      have hlength := hs.length
      obtain hsame | ⟨r, hasks, hspace, hmore⟩ := hgranted
      · omega
      · have hroom := hfits r hasks hspace
        omega
  have hpos := granted_nonneg s
  have hpos' := granted_nonneg s'
  have hcbytes : s'.msgCbytes = size (l'.map s'.msg) := by
    rw [heff.cbytes hle (by rw [ushort_of_range (by omega) (by omega)]; exact hc),
      ushort_of_range (by omega) (by omega)]
  exact ⟨l', hinv, hsize.2, hcbytes, by rw [hcbytes, heff.qbytes]; exact hsize.1,
    by rw [heff.qbytes]; exact hq⟩

theorem granted_newque (qbytes : Int) : granted (newque qbytes) = 0 := by
  unfold granted weight
  exact Finset.sum_eq_zero fun _ _ => rfl

/-- Where senders only use what is left, the counter is right and within the bound. -/
theorem queue_capacity (h : fittingQueues.Reachable s) : WithinCapacity s := by
  obtain ⟨l, hs⟩ : ∃ l, Bounded s l := by
    refine h.invariant (I := fun s => ∃ l, Bounded s l) ?_ ?_
    · rintro _ ⟨qbytes, hlo, hhi, rfl⟩
      refine ⟨[], msgInv_newque qbytes, by decide, rfl, ?_, hhi⟩
      rw [granted_newque]
      exact hlo
    · rintro s s' ⟨l, hs⟩ ⟨act, out, hstep, hfits, hcounts⟩
      exact hs.step hstep hfits hcounts
  have hpos := granted_nonneg s
  have hle := hs.le
  exact ⟨_, hs.inv.contents, hs.cbytes, by omega⟩

end

theorem oneQueued_fitting : fittingQueues.Reachable oneQueued := by
  refine .step (.step (.init newque_init) ⟨_, _, step_oneChecked, fun r hasks hspace => ?_, nofun⟩)
    ⟨_, _, step_oneQueued, nofun, fun r text L hcall hL => ?_⟩
  · rw [granted_newque, add_zero]
    exact hspace
  · rw [oneChecked_inv.contents_eq hL]
    decide

theorem queue_capacity_one : WithinCapacity oneQueued := queue_capacity oneQueued_fitting

/-- A message of the greatest size. -/
def bigSend : Send := ⟨msgmax, 1, false⟩

/-- Five senders find space in an empty queue before the first of them has copied its text. -/
def fiveSenders : List Action :=
  let tasks : List (Task × Addr) := [(0, 0), (1, 1), (2, 2), (3, 3), (4, 4)]
  (tasks.map fun p => .send p.1 bigSend true false (some p.2)) ++
    tasks.map fun p => .copied p.1 (List.replicate msgmax 0)

/-- Five times 4056 bytes in a queue for 16384. -/
theorem queue_overfull : ∃ s, queues.Reachable s ∧ s.msgQbytes = 16384 ∧ s.msgCbytes = 20280 ∧
    ¬WithinCapacity s := by
  have hinit : queues.Reachable (newque msgmnb) := .init newque_init
  obtain ⟨s, hreach, hqbytes, hcbytes⟩ := hinit.runs (f := step) (g := fun _ _ => True)
    (l := fiveSenders) (p := fun s => s.msgQbytes = 16384 ∧ s.msgCbytes = 20280)
    (fun _ a _ out _ hstep => ⟨a, out, hstep⟩) (by decide +kernel)
  refine ⟨s, hreach, hqbytes, hcbytes, ?_⟩
  rintro ⟨-, -, -, hle⟩
  omega

end Sbckernel.Ipc.Msg
