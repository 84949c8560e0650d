import Mathlib.Data.Fintype.Card
import Sbckernel.Ipc.Msg
import Sbckernel.Lib.Chain

/-!
# The pointers of a message queue

The messages of a queue are a list: `msg_first` leads through it and `msg_last` is
its last element. Taking a message out repairs the two pointers in four situations,
by its place (first or not) and by what `msg_qnum` then says. That counter is a
`ushort`, so it is the length up to a multiple of 65536. When it becomes zero the
queue is made empty, whatever is in it.

The searches are searches in the list: the first message, the first of a kind, the
first of the least type.
-/

namespace Sbckernel.Ipc.Msg

open Lib Function List Option

/-- The queue as a list of addresses. A message that is being copied is not in it. -/
structure MsgInv (s : Queue) (l : List Addr) : Prop where
  nodup : l.Nodup
  chain : Chain s.msgNext s.msgFirst l none
  last : s.msgLast = l.getLast?
  used : ∀ a ∈ l, s.allocated a = true
  qnum : s.msgQnum = ushort l.length
  copying : ∀ t r a, s.phase t = .copying r a → a ∉ l ∧ s.allocated a = true
  distinct : ∀ t t' r r' a, s.phase t = .copying r a → s.phase t' = .copying r' a → t = t'

section
variable {s : Queue} {l l1 l2 : List Addr} {a : Addr} {r : Send}
  {n : Nat} {q : Option Addr} {p : Phase}

theorem MsgInv.length_le (h : MsgInv s l) : l.length ≤ 2 ^ 32 := by
  have hcard := h.nodup.length_le_card
  rwa [Fintype.card_fin] at hcard

/-! ## Searches -/

theorem firstFrom_eq {p : Addr → Bool} (h : Chain s.msgNext q l none)
    (hn : l.length < n) : firstFrom s p n q = l.find? p := by
  induction n generalizing q l with
  | zero => exact absurd hn (Nat.not_lt_zero _)
  | succ n ih =>
    cases l with
    | nil =>
      cases h
      rfl
    | cons b l =>
      rw [h.1, firstFrom, find?_cons]
      cases hp : p b with
      | true => rfl
      | false => exact ih h.2 (Nat.lt_of_succ_lt_succ hn)

theorem MsgInv.first_eq (h : MsgInv s l) (p : Addr → Bool) : first s p = l.find? p :=
  firstFrom_eq h.chain (Nat.lt_succ_of_le h.length_le)

/-- The first of the least values of a list that is split there. -/
def FirstLeast (f : Addr → Int) (before : List Addr) (b : Addr) (after : List Addr) : Prop :=
  (∀ x ∈ before, f b < f x) ∧ ∀ x ∈ after, f b ≤ f x

/-- The loop has the first least of what it has seen. -/
theorem leastFrom_spec {leastp : Addr} (h : Chain s.msgNext q l none)
    (hn : l.length < n) (hleast : FirstLeast (fun x => (s.msg x).type) l1 leastp l2) :
    ∃ k1 k2, l1 ++ leastp :: l2 ++ l = k1 ++ leastFrom s n leastp q :: k2 ∧
      FirstLeast (fun x => (s.msg x).type) k1 (leastFrom s n leastp q) k2 := by
  induction l generalizing q n leastp l1 l2 with
  | nil =>
    obtain ⟨n, rfl⟩ : ∃ k, n = k + 1 := ⟨n - 1, by simp at hn; omega⟩
    cases h
    exact ⟨l1, l2, append_nil _, hleast⟩
  | cons b l ih =>
    obtain ⟨n, rfl⟩ : ∃ k, n = k + 1 := ⟨n - 1, by simp at hn; omega⟩
    rw [h.1, leastFrom]
    have hn' : l.length < n := by simp at hn; omega
    split
    next hlt =>
      -- everything so far is at least the old least
      have hb : FirstLeast (fun x => (s.msg x).type) (l1 ++ leastp :: l2) b [] := by
        refine ⟨fun x hx => ?_, nofun⟩
        rcases mem_append.mp hx with hx | hx
        · have := hleast.1 x hx
          dsimp only at this ⊢
          omega
        · rcases mem_cons.mp hx with rfl | hx
          · exact hlt
          · have := hleast.2 x hx
            dsimp only at this ⊢
            omega
      obtain ⟨k1, k2, heq, hk⟩ := ih h.2 hn' hb
      exact ⟨k1, k2, by rw [← heq]; simp, hk⟩
    next hge =>
      have hb : FirstLeast (fun x => (s.msg x).type) l1 leastp (l2 ++ [b]) := by
        refine ⟨hleast.1, fun x hx => ?_⟩
        rcases mem_append.mp hx with hx | hx
        · exact hleast.2 x hx
        · cases mem_singleton.mp hx
          exact not_lt.mp hge
      obtain ⟨k1, k2, heq, hk⟩ := ih h.2 hn' hb
      exact ⟨k1, k2, by rw [← heq]; simp, hk⟩

/-- The message that `msgrcv` is to return, with those before and behind it. -/
def Picks (msgtyp : Int) (except : Bool) (before : List Message) (m : Message)
    (after : List Message) : Prop :=
  if msgtyp = 0 then before = []
  else if msgtyp > 0 then
    if except then m.type ≠ msgtyp ∧ ∀ x ∈ before, x.type = msgtyp
    else m.type = msgtyp ∧ ∀ x ∈ before, x.type ≠ msgtyp
  else m.type ≤ -msgtyp ∧ (∀ x ∈ before, m.type < x.type) ∧ ∀ x ∈ after, m.type ≤ x.type

/-- The least message of a queue that is not empty. -/
theorem MsgInv.least (h : MsgInv s l) (hfirst : s.msgFirst = some a) :
    ∃ l1 l2, l = l1 ++ leastFrom s (2 ^ 32 + 1) a (some a) :: l2 ∧
      FirstLeast (fun x => (s.msg x).type) l1 (leastFrom s (2 ^ 32 + 1) a (some a)) l2 := by
  have hchain := h.chain
  have hlen := h.length_le
  cases l with
  | nil =>
    rw [hfirst] at hchain
    cases hchain
  | cons b l =>
    cases hfirst.symm.trans hchain.1
    -- the first turn of the loop compares the first message with itself
    rw [leastFrom, ite_self]
    have hlen' : l.length < 2 ^ 32 := hlen
    obtain ⟨k1, k2, heq, hk⟩ := leastFrom_spec hchain.2 hlen'
      (show FirstLeast _ [] a [] from ⟨nofun, nofun⟩)
    exact ⟨k1, k2, heq, hk⟩

section
variable {msgtyp : Int} {except : Bool} {before after : List Message} {m : Message}

theorem picks_zero : Picks 0 except before m after ↔ before = [] := Iff.rfl

/-- What a positive `msgtyp` asks for. -/
def wanted (msgtyp : Int) (except : Bool) (m : Message) : Bool := decide (m.type = msgtyp) != except

theorem picks_pos (h : 0 < msgtyp) : Picks msgtyp except before m after ↔
    wanted msgtyp except m = true ∧ ∀ x ∈ before, wanted msgtyp except x ≠ true := by
  rw [Picks, if_neg (by omega), if_pos h]
  cases except <;> simp [wanted]

theorem picks_least (h : msgtyp < 0) : Picks msgtyp except before m after ↔
    m.type ≤ -msgtyp ∧ (∀ x ∈ before, m.type < x.type) ∧ ∀ x ∈ after, m.type ≤ x.type := by
  rw [Picks, if_neg (by omega), if_neg (by omega)]

/-- A message that is picked is the first of its type. -/
theorem Picks.type_ne (h : Picks msgtyp except before m after) : ∀ x ∈ before, x.type ≠ m.type := by
  intro x hx
  rcases lt_trichotomy msgtyp 0 with hneg | rfl | hpos
  · have := ((picks_least hneg).mp h).2.1 x hx
    omega
  · rw [picks_zero.mp h] at hx
    cases hx
  · obtain ⟨hm, hall⟩ := (picks_pos hpos).mp h
    exact fun heq => hall x hx (by rwa [wanted, heq])

theorem findMsg_pos (h : 0 < msgtyp) : findMsg s msgtyp except =
    first s fun tmsg => wanted msgtyp except (s.msg tmsg) := by
  rw [findMsg, if_neg (by omega), if_pos h]
  cases except <;> simp [wanted]

theorem findMsg_neg (h : msgtyp < 0) (hfirst : s.msgFirst = some a) : findMsg s msgtyp except =
    if (s.msg (leastFrom s (2 ^ 32 + 1) a (some a))).type ≤ long (-msgtyp)
    then some (leastFrom s (2 ^ 32 + 1) a (some a)) else none := by
  rw [findMsg, if_neg (by omega), if_neg (by omega), hfirst]

theorem findMsg_some (h : MsgInv s l) (hmin : -2 ^ 31 ≤ msgtyp)
    (hfind : findMsg s msgtyp except = some a) :
    ∃ l1 l2, l = l1 ++ a :: l2 ∧ Picks msgtyp except (l1.map s.msg) (s.msg a) (l2.map s.msg) := by
  rcases lt_trichotomy msgtyp 0 with hneg | rfl | hpos
  · cases hfirst : s.msgFirst with
    | none =>
      rw [findMsg, if_neg (by omega), if_neg (by omega), hfirst] at hfind
      cases hfind
    | some b =>
      rw [findMsg_neg hneg hfirst] at hfind
      split at hfind
      next hle =>
        cases hfind
        obtain ⟨l1, l2, heq, hleast⟩ := h.least hfirst
        have : long (-msgtyp) ≤ -msgtyp := by
          rw [long]
          omega
        exact ⟨l1, l2, heq, (picks_least hneg).mpr ⟨by omega, forall_mem_map.mpr hleast.1,
          forall_mem_map.mpr hleast.2⟩⟩
      · cases hfind
  · have hchain := h.chain
    rw [show s.msgFirst = some a from hfind] at hchain
    cases l with
    | nil => cases hchain
    | cons b l =>
      cases hchain.1
      exact ⟨[], l, rfl, picks_zero.mpr rfl⟩
  · rw [findMsg_pos hpos, h.first_eq] at hfind
    obtain ⟨ha, l1, l2, heq, hbefore⟩ := find?_eq_some_iff_append.mp hfind
    refine ⟨l1, l2, heq, (picks_pos hpos).mpr ⟨ha, ?_⟩⟩
    exact forall_mem_map.mpr fun x hx => by simpa using hbefore x hx

end

/-! ## Taking a message out -/

/-- What is left when `msg_qnum` counts this many messages. -/
def remaining (l : List Addr) : List Addr := if l.length % 65536 = 0 then [] else l

theorem remaining_of_lt (h : l.length < 65536) : remaining l = l := by
  rw [remaining]
  split
  next hmod => exact (length_eq_zero_iff.mp (by omega)).symm
  · rfl

theorem remaining_sublist : (remaining l).Sublist l := by
  rw [remaining]
  split
  · exact nil_sublist l
  · exact .refl l

theorem bypass_eq (h : MsgInv s (l1 ++ a :: l2)) : ∃ first last next,
    bypass s a = { s with msgFirst := first, msgLast := last, msgNext := next } ∧
    Chain next first (l1 ++ l2) none ∧ (l1 ++ l2 ≠ [] → last = (l1 ++ l2).getLast?) := by
  obtain ⟨-, hndr, hdisj⟩ := nodup_append.mp h.nodup
  cases hq : l1.getLast? with
  | none =>
    have hl1 : l1 = [] := getLast?_eq_none_iff.mp hq
    subst hl1
    refine ⟨s.msgNext a, s.msgLast, s.msgNext, ?_, h.chain.2, fun hne => ?_⟩
    · rw [bypass, if_pos h.chain.1.symm]
    · rw [h.last]
      exact getLast?_cons_of_ne_nil hne
  | some q =>
    have hne : some a ≠ s.msgFirst := by
      intro heq
      rw [h.chain.start] at heq
      cases l1 with
      | nil => cases hq
      | cons c l1 => exact hdisj c (.head l1) a (.head l2) (some.inj heq).symm
    refine ⟨s.msgFirst, if some a = s.msgLast then some q else s.msgLast,
      update s.msgNext q (s.msgNext a), ?_, h.chain.remove h.nodup hq, fun _ => ?_⟩
    · rw [bypass, if_neg hne, h.first_eq, h.chain.find?_before h.nodup hq]
    · rw [h.last]
      cases l2 with
      | nil =>
        rw [append_nil, hq, if_pos (by simp)]
      | cons b l2 =>
        have hlast : (l1 ++ a :: b :: l2).getLast? = (b :: l2).getLast? := by
          rw [getLast?_append, getLast?_cons_cons, getLast?_cons, some_or]
        rw [hlast, if_neg, getLast?_append, getLast?_cons, some_or]
        intro heq
        exact (nodup_cons.mp hndr).1 (mem_of_getLast? heq.symm)

theorem uncount_eq (s : Queue) (ts : Nat) : uncount s ts = { s with
    msgFirst := if ushort (s.msgQnum - 1) = 0 then none else s.msgFirst
    msgLast := if ushort (s.msgQnum - 1) = 0 then none else s.msgLast
    msgQnum := ushort (s.msgQnum - 1)
    msgCbytes := ushort (s.msgCbytes - ts) } := by
  rw [uncount]
  split <;> rfl

theorem unlink_eq (h : MsgInv s (l1 ++ a :: l2)) : ∃ first last next,
    unlink s a = { s with
      msgFirst := first
      msgLast := last
      msgNext := next
      msgQnum := ushort (l1 ++ l2).length
      msgCbytes := ushort (s.msgCbytes - (s.msg a).ts) } ∧
    Chain next first (remaining (l1 ++ l2)) none ∧ last = (remaining (l1 ++ l2)).getLast? := by
  obtain ⟨first, last, next, heq, hchain, hlast⟩ := bypass_eq h
  have hqnum : ushort (s.msgQnum - 1) = ushort (l1 ++ l2).length := by
    rw [h.qnum, ushort, ushort, ushort]
    simp only [length_append, length_cons]
    omega
  refine ⟨_, _, next, by rw [unlink, heq, uncount_eq]; dsimp only; rw [hqnum], ?_⟩
  rw [remaining]
  by_cases hzero : (l1 ++ l2).length % 65536 = 0
  · have hushort : ushort (l1 ++ l2).length = 0 := by
      rw [ushort]
      omega
    rw [if_pos hushort, if_pos hushort, if_pos hzero]
    exact ⟨rfl, rfl⟩
  · have hushort : ushort (l1 ++ l2).length ≠ 0 := by
      rw [ushort]
      omega
    rw [if_neg hushort, if_neg hushort, if_neg hzero]
    exact ⟨hchain, hlast fun hnil => hzero (by rw [hnil]; rfl)⟩

/-! ## What a step does -/

/-- The part of a call that a step runs. -/
inductive Call where
  | check (r : Send)
  | append (r : Send) (text : List UInt8)
  | receive (r : Receive)

def callOf (s : Queue) : Action → Option Call
  | .send _ r _ _ _ => some (.check r)
  | .sendWake t _ _ _ =>
    match s.phase t with
    | .wwait r => some (.check r)
    | _ => none
  | .copied t text =>
    match s.phase t with
    | .copying r _ => some (.append r text)
    | _ => none
  | .receive _ r _ _ => some (.receive r)
  | .receiveWake t _ _ =>
    match s.phase t with
    | .rwait r => some (.receive r)
    | _ => none

/-- Nothing that is seen of the queue changes. -/
structure Quiet (s s' : Queue) : Prop where
  msg : s'.msg = s.msg
  cbytes : s'.msgCbytes = s.msgCbytes
  qbytes : s'.msgQbytes = s.msgQbytes
  sent : s'.sent = s.sent
  received : s'.received = s.received

/-- How a `msgrcv` ends or pauses that has found nothing. -/
def Waits (r : Receive) (out : Option Result) : Prop :=
  if r.nowait then out = some (.error .enomsg) else out = some (.error .eintr) ∨ out = none

/-- Everything a step can do to a queue. -/
inductive Effect (s : Queue) (l : List Addr) : Call → Option Result → Queue → List Addr → Prop
  | check (r : Send) {out : Option Result} {s' : Queue} : Quiet s s' → out ≠ some (.ok none) →
      Effect s l (.check r) out s' l
  | append (r : Send) (text : List UInt8) (a : Addr) {s' : Queue} : a ∉ l →
      s'.msg = update s.msg a ⟨r.mtype, r.msgsz, text⟩ →
      s'.msgCbytes = ushort (s.msgCbytes + r.msgsz) → s'.msgQbytes = s.msgQbytes →
      s'.sent = s.sent ++ [⟨r.mtype, r.msgsz, text⟩] → s'.received = s.received →
      Effect s l (.append r text) (some (.ok none)) s' (l ++ [a])
  | refused (r : Receive) (e : Errno) {s' : Queue} : Quiet s s' → e = .eacces ∨ e = .einval →
      Effect s l (.receive r) (some (.error e)) s' l
  | tooBig (r : Receive) (l1 : List Addr) (a : Addr) (l2 : List Addr) {s' : Queue} :
      l = l1 ++ a :: l2 →
      Picks r.msgtyp r.except (l1.map s.msg) (s.msg a) (l2.map s.msg) →
      r.msgsz < (s.msg a).ts → r.noerror = false → Quiet s s' →
      Effect s l (.receive r) (some (.error .e2big)) s' l
  | got (r : Receive) (l1 : List Addr) (a : Addr) (l2 : List Addr) {s' : Queue} :
      l = l1 ++ a :: l2 →
      Picks r.msgtyp r.except (l1.map s.msg) (s.msg a) (l2.map s.msg) →
      (s.msg a).ts ≤ r.msgsz ∨ r.noerror = true →
      s'.msg = s.msg → s'.msgCbytes = ushort (s.msgCbytes - (s.msg a).ts) →
      s'.msgQbytes = s.msgQbytes → s'.sent = s.sent → s'.received = s.received ++ [s.msg a] →
      Effect s l (.receive r) (some (.ok (some ((s.msg a).copied r.msgsz)))) s'
        (remaining (l1 ++ l2))
  | nothing (r : Receive) {out : Option Result} {s' : Queue} :
      findMsg s r.msgtyp r.except = none → Waits r out → Quiet s s' →
      Effect s l (.receive r) out s' l

variable {t : Task}

theorem quiet_goto (s : Queue) (t : Task) (p : Phase) : Quiet s (goto s t p) :=
  ⟨rfl, rfl, rfl, rfl, rfl⟩

theorem goto_phase (s : Queue) (t t' : Task) (p : Phase) :
    (goto s t p).phase t' = if t' = t then p else s.phase t' := update_apply ..

theorem copying_of_goto {t' : Task}
    (heq : (Msg.goto s t p).phase t' = .copying r a) (hp : ∀ r a, p ≠ .copying r a) :
    t' ≠ t ∧ s.phase t' = .copying r a := by
  rw [goto_phase] at heq
  split at heq
  · exact absurd heq (hp r a)
  next hne => exact ⟨hne, heq⟩

/-- A task moves on to a place where it holds no message. -/
theorem MsgInv.goto (h : MsgInv s l) (hp : ∀ r a, p ≠ .copying r a) :
    MsgInv (Msg.goto s t p) l :=
  { h with
    copying := fun t' r a heq => h.copying t' r a (copying_of_goto heq hp).2
    distinct := fun t1 t2 r1 r2 a h1 h2 =>
      h.distinct t1 t2 r1 r2 a (copying_of_goto h1 hp).2 (copying_of_goto h2 hp).2 }

/-- The sender has memory for its message. -/
theorem MsgInv.allocate (h : MsgInv s l) (ha : s.allocated a = false) :
    MsgInv (Msg.goto { s with allocated := update s.allocated a true } t (.copying r a)) l := by
  have hout : a ∉ l := fun hmem => by cases ha.symm.trans (h.used a hmem)
  have hother : ∀ {t' r'}, s.phase t' ≠ .copying r' a := fun heq => by
    cases ha.symm.trans (h.copying _ _ a heq).2
  have hmore : ∀ {b}, s.allocated b = true → update s.allocated a true b = true := by
    intro b hb
    by_cases hba : b = a
    · rw [hba, update_self]
    · rwa [update_of_ne hba]
  refine ⟨h.nodup, h.chain, h.last, fun b hb => hmore (h.used b hb), h.qnum, ?_, ?_⟩
  · intro t' r' b heq
    rw [goto_phase] at heq
    split at heq
    · cases heq
      exact ⟨hout, update_self ..⟩
    · obtain ⟨hb, hused⟩ := h.copying t' r' b heq
      exact ⟨hb, hmore hused⟩
  · intro t1 t2 r1 r2 b h1 h2
    rw [goto_phase] at h1 h2
    split at h1 <;> split at h2
    next ht1 ht2 => exact ht1.trans ht2.symm
    · cases h1
      exact absurd h2 hother
    · cases h2
      exact absurd h1 hother
    · exact h.distinct t1 t2 r1 r2 b h1 h2

theorem msgsndSlept_effect (h : MsgInv s l) {memory : Option Addr} (hmem : usable s memory = true)
    (r : Send) (permitted signal : Bool) :
    MsgInv (msgsndSlept s t r permitted signal memory).1 l ∧
    Effect s l (.check r) (msgsndSlept s t r permitted signal memory).2
      (msgsndSlept s t r permitted signal memory).1 l := by
  have hstay : ∀ {p : Phase} {out : Option Result}, (∀ r a, p ≠ .copying r a) →
      out ≠ some (.ok none) →
      MsgInv (Msg.goto s t p) l ∧ Effect s l (.check r) out (Msg.goto s t p) l :=
    fun hp hout => ⟨h.goto hp, .check r (quiet_goto s t _) hout⟩
  unfold msgsndSlept
  split
  · exact hstay nofun nofun
  split
  · split
    · exact hstay nofun nofun
    split
    · exact hstay nofun nofun
    · exact hstay nofun nofun
  · split
    · exact hstay nofun nofun
    next msgh =>
      refine ⟨h.allocate (by simpa [usable] using hmem), .check r ⟨rfl, rfl, rfl, rfl, rfl⟩ nofun⟩

theorem link_eq (hchain : Chain s.msgNext s.msgFirst l none) (hnd : l.Nodup)
    (hlast : s.msgLast = l.getLast?) (ha : a ∉ l) (hnext : s.msgNext a = none) :
    ∃ first next, link s a = { s with msgFirst := first, msgNext := next, msgLast := some a } ∧
      Chain next first (l ++ [a]) none := by
  cases hq : l.getLast? with
  | none =>
    have hl : l = [] := getLast?_eq_none_iff.mp hq
    subst hl
    refine ⟨some a, s.msgNext, ?_, rfl, hnext⟩
    rw [link, show s.msgFirst = none from hchain]
  | some q =>
    refine ⟨s.msgFirst, update s.msgNext q (some a), ?_, hchain.snoc hnd hq ha hnext⟩
    rw [link, hlast, hq]
    cases l with
    | nil => cases hq
    | cons b l => rw [hchain.1]

theorem msgsndCopied_effect (h : MsgInv s l) (hphase : s.phase t = .copying r a)
    (text : List UInt8) :
    MsgInv (msgsndCopied s t r a text).1 (l ++ [a]) ∧
    Effect s l (.append r text) (msgsndCopied s t r a text).2 (msgsndCopied s t r a text).1
      (l ++ [a]) := by
  obtain ⟨ha, hused⟩ := h.copying t r a hphase
  have hchain : Chain (update s.msgNext a none) s.msgFirst l none :=
    h.chain.congr fun b hb => update_of_ne (fun heq : b = a => ha (heq ▸ hb)) ..
  obtain ⟨first, next, heq, hlink⟩ := link_eq (s := { s with
      msgNext := update s.msgNext a none
      msg := update s.msg a ⟨r.mtype, r.msgsz, text⟩ })
    hchain h.nodup h.last ha (update_self ..)
  rw [msgsndCopied]
  rw [heq]
  refine ⟨?_, .append r text a ha rfl rfl rfl rfl rfl⟩
  constructor
  case nodup =>
    refine nodup_append.mpr ⟨h.nodup, nodup_singleton a, fun x hx y hy hxy => ha ?_⟩
    rwa [← mem_singleton.mp hy, ← hxy]
  case chain => exact hlink
  case last => exact (getLast?_concat ..).symm
  case used =>
    intro b hb
    rcases mem_append.mp hb with hb | hb
    · exact h.used b hb
    · rw [mem_singleton.mp hb]
      exact hused
  case qnum =>
    show ushort (s.msgQnum + 1) = ushort (l ++ [a]).length
    rw [h.qnum, ushort, ushort, ushort, length_append, length_singleton]
    omega
  case copying =>
    intro t' r' b hb
    obtain ⟨hne, hb⟩ := copying_of_goto hb (by simp)
    refine ⟨fun hmem => ?_, (h.copying t' r' b hb).2⟩
    rcases mem_append.mp hmem with hmem | hmem
    · exact (h.copying t' r' b hb).1 hmem
    · rw [mem_singleton.mp hmem] at hb
      exact hne (h.distinct t' t r' r a hb hphase)
  case distinct =>
    intro t1 t2 r1 r2 b h1 h2
    exact h.distinct t1 t2 r1 r2 b (copying_of_goto h1 (by simp)).2 (copying_of_goto h2 (by simp)).2

theorem ushort_remaining (l : List Addr) : ushort l.length = ushort (remaining l).length := by
  rw [remaining]
  split
  · rw [ushort, ushort, length_nil]
    omega
  · rfl

/-- A message is out of the queue and its memory is free again. -/
theorem MsgInv.free (h : MsgInv s (l1 ++ a :: l2)) (m : Message) :
    MsgInv (Msg.goto { unlink s a with
      allocated := update (unlink s a).allocated a false
      received := (unlink s a).received ++ [m] } t .idle) (remaining (l1 ++ l2)) := by
  obtain ⟨first, last, next, heq, hchain, hlast⟩ := unlink_eq h
  rw [heq]
  have hsub : (remaining (l1 ++ l2)).Sublist (l1 ++ a :: l2) :=
    remaining_sublist.trans ((List.Sublist.refl l1).append (sublist_cons_self a l2))
  have hout : a ∉ remaining (l1 ++ l2) := fun hmem => by
    have hnd := h.nodup
    rw [nodup_middle, nodup_cons] at hnd
    exact hnd.1 (remaining_sublist.subset hmem)
  constructor
  case nodup => exact h.nodup.sublist hsub
  case chain => exact hchain
  case last => exact hlast
  case used =>
    intro b hb
    show update s.allocated a false b = true
    rw [update_of_ne fun heq : b = a => hout (heq ▸ hb)]
    exact h.used b (hsub.subset hb)
  case qnum => exact ushort_remaining _
  case copying =>
    intro t' r' b hb
    obtain ⟨hmem, hused⟩ := h.copying t' r' b (copying_of_goto hb (by simp)).2
    refine ⟨fun hin => hmem (hsub.subset hin), ?_⟩
    show update s.allocated a false b = true
    rwa [update_of_ne fun heq : b = a => hmem (heq ▸ mem_append_right l1 (.head l2))]
  case distinct =>
    intro t1 t2 r1 r2 b h1 h2
    exact h.distinct t1 t2 r1 r2 b (copying_of_goto h1 (by simp)).2 (copying_of_goto h2 (by simp)).2

theorem msgrcvTurn_effect (h : MsgInv s l) (r : Receive) (permitted signal : Bool) :
    ∃ l', MsgInv (msgrcvTurn s t r permitted signal).1 l' ∧
      Effect s l (.receive r) (msgrcvTurn s t r permitted signal).2
        (msgrcvTurn s t r permitted signal).1 l' := by
  have hidle : MsgInv (Msg.goto s t .idle) l := h.goto nofun
  rw [msgrcvTurn]
  split
  · exact ⟨l, hidle, .refused r _ (quiet_goto s t _) (.inl rfl)⟩
  split
  next nmsg hfind =>
    obtain ⟨l1, l2, rfl, hpicks⟩ := findMsg_some h r.range.1 hfind
    split
    next hbig =>
      exact ⟨_, hidle, .tooBig r l1 nmsg l2 rfl hpicks hbig.1 (by simpa using hbig.2)
        (quiet_goto s t _)⟩
    next hbig =>
      have hfits : (s.msg nmsg).ts ≤ r.msgsz ∨ r.noerror = true := by
        by_cases hlt : r.msgsz < (s.msg nmsg).ts
        · exact .inr (by simpa using fun hno => hbig ⟨hlt, hno⟩)
        · exact .inl (not_lt.mp hlt)
      refine ⟨_, h.free _, ?_⟩
      obtain ⟨first, last, next, heq, -, -⟩ := unlink_eq h
      rw [heq]
      exact .got r l1 nmsg l2 rfl hpicks hfits rfl rfl rfl rfl rfl
  next hfind =>
    split
    next hnowait =>
      exact ⟨l, hidle, .nothing r hfind (by rw [Waits, if_pos hnowait]) (quiet_goto s t _)⟩
    next hnowait =>
      split
      · exact ⟨l, hidle, .nothing r hfind (by rw [Waits, if_neg hnowait]; exact .inl rfl)
          (quiet_goto s t _)⟩
      · exact ⟨l, h.goto nofun, .nothing r hfind (by rw [Waits, if_neg hnowait]; exact .inr rfl)
          (quiet_goto s t _)⟩

/-- Every step is one of the effects. -/
theorem step_effect {act : Action} {s' : Queue} {out : Option Result} (h : MsgInv s l)
    (hstep : step s act = some (s', out)) :
    ∃ c l', callOf s act = some c ∧ MsgInv s' l' ∧ Effect s l c out s' l' := by
  cases act with
  | send t r permitted signal memory =>
    rw [step] at hstep
    split at hstep
    next hguard =>
      rw [realMsgsnd] at hstep
      have hfail : ∀ {e}, some (goto s t .idle, some (.error e)) = some (s', out) →
          ∃ c l', callOf s (.send t r permitted signal memory) = some c ∧ MsgInv s' l' ∧
            Effect s l c out s' l' := by
        intro e heq
        cases heq
        exact ⟨_, l, rfl, h.goto nofun, .check r (quiet_goto s t _) nofun⟩
      split at hstep
      · exact hfail hstep
      split at hstep
      · exact hfail hstep
      · have heff := msgsndSlept_effect (t := t) h hguard.2 r permitted signal
        rw [some.inj hstep] at heff
        exact ⟨_, l, rfl, heff.1, heff.2⟩
    · cases hstep
  | sendWake t permitted signal memory =>
    rw [step] at hstep
    split at hstep
    next r hphase =>
      split at hstep
      next hguard =>
        have heff := msgsndSlept_effect (t := t) h hguard r permitted signal
        rw [some.inj hstep] at heff
        exact ⟨_, l, by rw [callOf, hphase], heff.1, heff.2⟩
      · cases hstep
    · cases hstep
  | copied t text =>
    rw [step] at hstep
    split at hstep
    next r a hphase =>
      split at hstep
      · have heff := msgsndCopied_effect h hphase text
        rw [some.inj hstep] at heff
        exact ⟨_, l ++ [a], by rw [callOf, hphase], heff.1, heff.2⟩
      · cases hstep
    · cases hstep
  | receive t r permitted signal =>
    rw [step] at hstep
    split at hstep
    · rw [realMsgrcv] at hstep
      split at hstep
      · cases hstep
        exact ⟨_, l, rfl, h.goto nofun, .refused r _ (quiet_goto s t _) (.inr rfl)⟩
      · have heff := msgrcvTurn_effect (t := t) h r permitted signal
        rw [some.inj hstep] at heff
        obtain ⟨l', hinv, heff⟩ := heff
        exact ⟨_, l', rfl, hinv, heff⟩
    · cases hstep
  | receiveWake t permitted signal =>
    rw [step] at hstep
    split at hstep
    next r hphase =>
      have heff := msgrcvTurn_effect (t := t) h r permitted signal
      rw [some.inj hstep] at heff
      obtain ⟨l', hinv, heff⟩ := heff
      exact ⟨_, l', by rw [callOf, hphase], hinv, heff⟩
    · cases hstep

end

end Sbckernel.Ipc.Msg
