import Sbckernel.Fs.Pipe

/-!
# Pipes are first in, first out, and small writes are not torn

Every path to a copy tests the lock and takes it without sleeping in between, so one
task copies at most. What a task that works on the pipe has to know about the others is
`Around`: they sleep, with their own calls. With the lock in its hand it finds the bytes
in order at the head of its loop, and it leaves them in order but for the chunk that it
is about to copy: a reader has taken its chunk off the ring, a writer has added room for
its chunk at the end.

A small write waits for enough room, and nobody else can take it away before the write
has its last chunk. So it is either not begun or done when the lock is free.
-/

namespace Sbckernel.Fs.Pipe

open Lib List

variable {p : Phase} {read : Int} {pos chars : Nat} {nonblock : Bool}
open Circular (window store)

/-- The call of a task that writes. -/
def callOf : Phase → Option Call
  | .writeSleep call _ _ _ => some call
  | .writeCopy call _ _ _ _ _ => some call
  | _ => none

def Copies : Phase → Prop
  | .readCopy _ _ _ _ => True
  | .writeCopy _ _ _ _ _ _ => True
  | _ => False

/-- The bytes of a call stand together, `n` of them. -/
def Run (l : List (Call × UInt8)) (c : Call) (n : Int) : Prop :=
  ∃ pre mid post, l = pre ++ mid ++ post ∧ (∀ e ∈ mid, e.1 = c) ∧ (∀ e ∈ pre ++ post, e.1 ≠ c) ∧
    mid.length = n

/-- They stand at the end. -/
def Tail (l : List (Call × UInt8)) (c : Call) (n : Int) : Prop :=
  ∃ pre mid, l = pre ++ mid ∧ (∀ e ∈ mid, e.1 = c) ∧ (∀ e ∈ pre, e.1 ≠ c) ∧ mid.length = n

/-- A call that is over has written all or nothing. -/
def Whole (l : List (Call × UInt8)) (c : Call) : Prop := Run l c 0 ∨ Run l c c.size

section
variable {l : List (Call × UInt8)} {c c' : Call} {n : Int}

theorem Tail.run (h : Tail l c n) : Run l c n := by
  obtain ⟨pre, mid, rfl, hmid, hpre, hlen⟩ := h
  exact ⟨pre, mid, [], by simp, hmid, by simpa using hpre, hlen⟩

theorem tail_zero (h : ∀ e ∈ l, e.1 ≠ c) : Tail l c 0 :=
  ⟨l, [], by simp, forall_mem_nil _, h, rfl⟩

theorem Tail.append (h : Tail l c n) (bytes : List UInt8) :
    Tail (l ++ bytes.map fun b => (c, b)) c (n + bytes.length) := by
  obtain ⟨pre, mid, rfl, hmid, hpre, hlen⟩ := h
  refine ⟨pre, mid ++ bytes.map fun b => (c, b), by simp, ?_, hpre, by simp [hlen]⟩
  grind

/-- Bytes of another call come behind. -/
theorem Run.append (h : Run l c n) (hne : c' ≠ c) (bytes : List UInt8) :
    Run (l ++ bytes.map fun b => (c', b)) c n := by
  obtain ⟨pre, mid, post, rfl, hmid, hpre, hlen⟩ := h
  refine ⟨pre, mid, post ++ bytes.map fun b => (c', b), by simp, hmid, ?_, hlen⟩
  grind

theorem Whole.run (h : Whole l c) : ∃ n, Run l c n :=
  h.elim (fun h => ⟨_, h⟩) fun h => ⟨_, h⟩

theorem Whole.append (h : Whole l c) (hne : c' ≠ c) (bytes : List UInt8) :
    Whole (l ++ bytes.map fun b => (c', b)) c :=
  h.imp (fun h => h.append hne bytes) fun h => h.append hne bytes

end

theorem chunk_le (max avail : Nat) {count : Int} (h : count > 0) :
    chunk max avail count ≤ max ∧ chunk max avail count ≤ avail ∧
      (chunk max avail count : Int) ≤ count := by
  rw [chunk]
  split <;> split <;> omega

/-! ## What a task finds -/

section
variable {τ : Type*}

/-- The task is not copying, and a writer that sleeps has not lost its room: a small write has
not begun. -/
def Sleeps (s : State τ) : Phase → Prop
  | .writeSleep c count free _ => c.id < s.calls ∧ 0 < count ∧ 0 < free ∧
      (c.size ≤ pipeBuf → count = c.size ∧ free = c.size ∧ ∀ e ∈ s.accepted, e.1 ≠ c)
  | p => ¬Copies p

/-- All but the task `t` are in order. `own` is its call, `out` what it has taken off the ring
and not copied yet, and `room` the length of the chunk that it has not copied in yet. -/
structure Around (s : State τ) (t : τ) (own : Option Call) (out : List UInt8) (room : Nat) :
    Prop where
  start : s.start < pipeBuf
  len : s.len ≤ pipeBuf
  others : ∀ t' ≠ t, Sleeps s (s.phase t')
  distinct : ∀ t' ≠ t, ∀ t'' ≠ t, ∀ c, callOf (s.phase t') = some c →
    callOf (s.phase t'') = some c → t' = t''
  apart : ∀ t' ≠ t, ∀ c, callOf (s.phase t') = some c → own ≠ some c
  ids : ∀ e ∈ s.accepted, e.1.id < s.calls
  ownId : ∀ c, own = some c → c.id < s.calls
  content : s.delivered ++ (out ++ window s.base pipeBuf s.start (s.len - room)) =
    s.accepted.map Prod.snd
  runs : ∀ c : Call, c.size ≤ pipeBuf → own ≠ some c → Whole s.accepted c

/-- Nobody copies. -/
structure Quiet (s : State τ) : Prop where
  start : s.start < pipeBuf
  len : s.len ≤ pipeBuf
  lock : s.lock = 0
  sleeps : ∀ t, Sleeps s (s.phase t)
  distinct : ∀ t t' c, callOf (s.phase t) = some c → callOf (s.phase t') = some c → t = t'
  ids : ∀ e ∈ s.accepted, e.1.id < s.calls
  content : s.delivered ++ window s.base pipeBuf s.start s.len = s.accepted.map Prod.snd
  runs : ∀ c : Call, c.size ≤ pipeBuf → Whole s.accepted c

/-- A reader copies a chunk out. -/
structure Reads (s : State τ) (t : τ) (count read : Int) (pos chars : Nat) : Prop where
  phase : s.phase t = .readCopy count read pos chars
  lock : s.lock = 1
  fits : pos + chars ≤ pipeBuf
  around : Around s t none (window s.base pipeBuf pos chars) 0

/-- What a writer has to do is still to be done, and for a small write there is room. -/
structure Begun (s : State τ) (c : Call) (count : Int) (chars : Nat) : Prop where
  nonneg : 0 ≤ count
  small : c.size ≤ pipeBuf → count ≤ pipeFree s ∧ Tail s.accepted c (c.size - count - chars)

/-- A writer copies a chunk in. -/
structure Writes (s : State τ) (t : τ) (c : Call) (count written : Int) (pos chars : Nat)
    (nonblock : Bool) : Prop where
  phase : s.phase t = .writeCopy c count written pos chars nonblock
  lock : s.lock = 1
  fits : pos + chars ≤ pipeBuf
  within : chars ≤ s.len
  place : pos % pipeBuf = (s.start + (s.len - chars)) % pipeBuf
  around : Around s t (some c) [] chars
  begun : Begun s c count chars

inductive PipeInv (s : State τ) : Prop
  | quiet (h : Quiet s)
  | reads {t : τ} {count read : Int} {pos chars : Nat} (h : Reads s t count read pos chars)
  | writes {t : τ} {c : Call} {count written : Int} {pos chars : Nat} {nonblock : Bool}
      (h : Writes s t c count written pos chars nonblock)

variable {s : State τ} {t : τ} {own : Option Call} {out : List UInt8} {room : Nat} {c : Call}
  {count written free : Int}

theorem not_copies_of_sleeps (h : Sleeps s p) : ¬Copies p := by
  cases p <;> first | exact h | exact not_false

/-- What `Sleeps` reads of a state. -/
theorem Sleeps.mono {s' : State τ} (h : Sleeps s p) (hcalls : s.calls ≤ s'.calls)
    (haccepted : ∀ c, callOf p = some c → (∀ e ∈ s.accepted, e.1 ≠ c) →
      ∀ e ∈ s'.accepted, e.1 ≠ c) : Sleeps s' p := by
  cases p with
  | writeSleep c count free written =>
    obtain ⟨hid, hcount, hfree, hsmall⟩ := h
    refine ⟨hid.trans_le hcalls, hcount, hfree, fun hsize => ?_⟩
    obtain ⟨hall, hfree', hnone⟩ := hsmall hsize
    exact ⟨hall, hfree', haccepted c rfl hnone⟩
  | idle => exact h
  | readSleep count => exact h
  | readCopy count read pos chars => exact h
  | writeCopy c count written pos chars nonblock => exact h

theorem Sleeps.callOf_lt (h : Sleeps s p) (hcall : callOf p = some c) : c.id < s.calls := by
  cases p <;> cases hcall
  · exact h.1
  · exact absurd trivial h

/-- A task takes its turn. -/
theorem Quiet.around (h : Quiet s) (hphase : callOf (s.phase t) = own) : Around s t own [] 0 where
  __ := h
  others t' _ := h.sleeps t'
  distinct t' _ t'' _ c := h.distinct t' t'' c
  apart t' hne c hcall := by
    rintro rfl
    exact hne (h.distinct t' t c hcall hphase)
  ownId c hown := (h.sleeps t).callOf_lt (hphase.trans hown)
  runs c hsmall _ := h.runs c hsmall

theorem Reads.copies (h : Reads s t count read pos chars) : Copies (s.phase t) := by
  rw [h.phase]
  trivial

theorem Writes.copies (h : Writes s t c count written pos chars nonblock) : Copies (s.phase t) := by
  rw [h.phase]
  trivial

/-- Nobody copies, or one task does. -/
theorem PipeInv.copier (h : PipeInv s) : Quiet s ∨ ∃ t out room, s.lock = 1 ∧
    Copies (s.phase t) ∧ Around s t (callOf (s.phase t)) out room := by
  cases h with
  | quiet h => exact .inl h
  | reads h | writes h => exact .inr ⟨_, _, _, h.lock, h.copies, by rw [h.phase]; exact h.around⟩

/-- A task takes its turn when the lock is free. -/
theorem PipeInv.around (h : PipeInv s) (hlock : s.lock = 0) (hphase : callOf (s.phase t) = own) :
    Around s t own [] 0 := by
  rcases h.copier with h | ⟨u, out, room, h, -⟩
  · exact h.around hphase
  · exact absurd (hlock.symm.trans h) (by decide)

theorem PipeInv.sleeps (h : PipeInv s) (ht : ¬Copies (s.phase t)) : Sleeps s (s.phase t) := by
  rcases h.copier with h | ⟨u, out, room, -, hu, h⟩
  · exact h.sleeps t
  · exact h.others t fun heq => ht (heq ▸ hu)

theorem PipeInv.callOf_lt (h : PipeInv s) (hcall : callOf (s.phase t) = some c) :
    c.id < s.calls := by
  rcases h.copier with h | ⟨u, out, room, -, -, h⟩
  · exact (h.sleeps t).callOf_lt hcall
  · rcases eq_or_ne t u with rfl | hne
    · exact h.ownId c hcall
    · exact (h.others t hne).callOf_lt hcall

theorem PipeInv.bounds (h : PipeInv s) :
    s.start < pipeBuf ∧ s.len ≤ pipeBuf ∧ ∀ e ∈ s.accepted, e.1.id < s.calls := by
  rcases h.copier with h | ⟨u, out, room, -, -, h⟩
  · exact ⟨h.start, h.len, h.ids⟩
  · exact ⟨h.start, h.len, h.ids⟩

theorem PipeInv.of_some {p : State τ × Option Result} {s' : State τ} {r : Option Result}
    (h : PipeInv p.1) (heq : some p = some (s', r)) : PipeInv s' := by
  cases heq
  exact h

theorem Around.eq_of_copies {u : τ} (h : Around s t own out room) (hu : Copies (s.phase u)) :
    u = t := by
  by_contra hne
  exact not_copies_of_sleeps (h.others u hne) hu

theorem PipeInv.alone {u : τ} (h : PipeInv s) (ht : Copies (s.phase t)) (hu : Copies (s.phase u)) :
    t = u := by
  rcases h.copier with h | ⟨v, out, room, -, -, h⟩
  · exact absurd ht (not_copies_of_sleeps (h.sleeps t))
  · exact (h.eq_of_copies ht).trans (h.eq_of_copies hu).symm

/-- The task that copies is the one that the invariant tells about. -/
theorem PipeInv.reading (h : PipeInv s)
    (hphase : s.phase t = .readCopy count read pos chars) : Reads s t count read pos chars := by
  have ht : Copies (s.phase t) := hphase ▸ trivial
  cases h with
  | quiet h => exact absurd ht (not_copies_of_sleeps (h.sleeps t))
  | reads h =>
    cases h.around.eq_of_copies ht
    cases hphase.symm.trans h.phase
    exact h
  | writes h =>
    cases h.around.eq_of_copies ht
    cases hphase.symm.trans h.phase

theorem PipeInv.writing (h : PipeInv s)
    (hphase : s.phase t = .writeCopy c count written pos chars nonblock) :
    Writes s t c count written pos chars nonblock := by
  have ht : Copies (s.phase t) := hphase ▸ trivial
  cases h with
  | quiet h => exact absurd ht (not_copies_of_sleeps (h.sleeps t))
  | reads h =>
    cases h.around.eq_of_copies ht
    cases hphase.symm.trans h.phase
  | writes h =>
    cases h.around.eq_of_copies ht
    cases hphase.symm.trans h.phase
    exact h

/-! A new call gets a number. -/

def newCall (s : State τ) : State τ := { s with calls := s.calls + 1 }

theorem Around.newCall (h : Around s t own out room) : Around (Pipe.newCall s) t own out room where
  __ := h
  others t' hne := (h.others t' hne).mono (Nat.le_succ _) fun _ _ => id
  ids e he := Nat.lt_succ_of_lt (h.ids e he)
  ownId c hc := Nat.lt_succ_of_lt (h.ownId c hc)

theorem PipeInv.newCall (h : PipeInv s) : PipeInv (Pipe.newCall s) := by
  cases h with
  | quiet h =>
    exact .quiet { h with
      sleeps := fun t => (h.sleeps t).mono (Nat.le_succ _) fun _ _ => id
      ids := fun e he => Nat.lt_succ_of_lt (h.ids e he) }
  | reads h => exact .reads { h with around := h.around.newCall }
  | writes h =>
    exact .writes { h with around := h.around.newCall, begun := { h.begun with } }

/-- The task takes up a call that nobody has. -/
theorem Around.adopt (h : Around s t none [] 0) (hid : c.id < s.calls)
    (hfresh : ∀ u, callOf (s.phase u) ≠ some c) : Around s t (some c) [] 0 :=
  { h with
    apart := fun t' _ c' hc' heq => hfresh t' (hc'.trans heq.symm)
    ownId := fun c' hc' => by
      cases hc'
      exact hid
    runs := fun c' hsmall _ => h.runs c' hsmall (Option.some_ne_none c').symm }

theorem init_quiet (base : Nat → UInt8) : Quiet (init base : State τ) where
  start := (by decide : 0 < pipeBuf)
  len := Nat.zero_le _
  lock := rfl
  sleeps _ := not_false
  distinct _ _ _ h := by cases h
  ids := forall_mem_nil _
  content := rfl
  runs _ _ := .inl (tail_zero (forall_mem_nil _)).run

/-- What `Around` reads of a state. -/
theorem Around.congr (h : Around s t own out room) (s' : State τ) (hstart : s'.start < pipeBuf)
    (hlen : s'.len ≤ pipeBuf) (hphase : ∀ t' ≠ t, s'.phase t' = s.phase t')
    (hcalls : s'.calls = s.calls) (haccepted : s'.accepted = s.accepted)
    {out' : List UInt8} {room' : Nat}
    (hcontent : s'.delivered ++ (out' ++ window s'.base pipeBuf s'.start (s'.len - room')) =
      s'.accepted.map Prod.snd) : Around s' t own out' room' where
  start := hstart
  len := hlen
  others t' hne := hphase t' hne ▸ (h.others t' hne).mono hcalls.ge fun _ _ => haccepted ▸ id
  distinct t' hne' t'' hne'' := by
    rw [hphase t' hne', hphase t'' hne'']
    exact h.distinct t' hne' t'' hne''
  apart t' hne := hphase t' hne ▸ h.apart t' hne
  ids := haccepted ▸ hcalls ▸ h.ids
  ownId := hcalls ▸ h.ownId
  content := hcontent
  runs := haccepted ▸ h.runs

theorem Around.lock (h : Around s t own out room) : Around (takeLock s) t own out room :=
  h.congr (takeLock s) h.start h.len (fun _ _ => rfl) rfl rfl h.content

theorem Around.unlock (h : Around s t own out room) : Around (Pipe.unlock s) t own out room :=
  h.congr (Pipe.unlock s) h.start h.len (fun _ _ => rfl) rfl rfl h.content

variable [DecidableEq τ] {n : Nat}

/-- Bytes of the task's own call are copied in. -/
theorem Around.copiedIn (h : Around s t (some c) [] room) {bytes : List UInt8}
    (hroom : room ≤ s.len) (hn : bytes.length ≤ room) (hfits : pos + bytes.length ≤ pipeBuf)
    (hplace : pos % pipeBuf = (s.start + (s.len - room)) % pipeBuf) :
    Around (Pipe.copiedIn s t c pos bytes) t (some c) [] (room - bytes.length) where
  __ := h
  others t' hne := by
    refine (h.others t' hne).mono (Nat.le_refl _) fun c' hcall hnone e he => ?_
    rcases mem_append.mp he with he | he
    · exact hnone e he
    · obtain ⟨b, -, rfl⟩ := mem_map.mp he
      exact fun heq => h.apart t' hne c' hcall (congrArg some heq)
  ids e he := by
    rcases mem_append.mp he with he | he
    · exact h.ids e he
    · obtain ⟨b, -, rfl⟩ := mem_map.mp he
      exact h.ownId c rfl
  content := by
    have hlen := h.len
    have hcontent := h.content
    show s.delivered ++ ([] ++ window (store s.base pos bytes) pipeBuf s.start
      (s.len - (room - bytes.length))) = (s.accepted ++ bytes.map fun b => (c, b)).map Prod.snd
    rw [show s.len - (room - bytes.length) = s.len - room + bytes.length by omega,
      Circular.window_store hplace hfits (by omega), map_append, ← hcontent, map_map]
    simp [Function.comp_def]
  runs c' hsmall hne := (h.runs c' hsmall hne).append (fun heq => hne (congrArg some heq)) bytes

theorem PipeInv.enter (h : PipeInv s) : PipeInv (s.enter t) := by
  cases h with
  | quiet h => exact .quiet { h with }
  | reads h => exact .reads { h with around := { h.around with } }
  | writes h => exact .writes { h with around := { h.around with }, begun := { h.begun with } }

theorem goto_phase (s : State τ) (t t' : τ) (p : Phase) :
    (goto s t p).phase t' = if t' = t then p else s.phase t' := Function.update_apply ..

theorem goto_other {t' : τ} (hne : t' ≠ t) : (goto s t p).phase t' = s.phase t' := by
  rw [goto_phase, if_neg hne]

theorem goto_self (s : State τ) (t : τ) (p : Phase) : (goto s t p).phase t = p := by
  rw [goto_phase, if_pos rfl]

/-- The task goes to sleep or returns, without the lock. -/
theorem Around.settle (h : Around s t own [] 0) (hlock : s.lock = 0) (hp : Sleeps s p)
    (hcall : ∀ c, callOf p = some c → own = some c)
    (hown : ∀ c, own = some c → c.size ≤ pipeBuf → Whole s.accepted c) : Quiet (goto s t p) where
  __ := h
  lock := hlock
  sleeps t' := by
    rw [goto_phase]
    split
    · exact hp
    next hne => exact h.others t' hne
  distinct t' t'' c := by
    have := h.distinct
    have := h.apart
    rw [goto_phase, goto_phase]
    grind
  runs c hsmall := by
    by_cases hc : own = some c
    · exact hown c hc hsmall
    · exact h.runs c hsmall hc

/-- The task itself goes on. -/
theorem Around.move (h : Around s t own out room) (p : Phase) :
    Around (goto s t p) t own out room :=
  h.congr (goto s t p) h.start h.len (fun _ hne => goto_other hne) rfl rfl h.content

/-- Another task goes to sleep or returns. -/
theorem Around.other (h : Around s t own out room) {t' : τ} (hne : t' ≠ t) (hp : Sleeps s p)
    (hcall : ∀ c, callOf p = some c →
      callOf (s.phase t') = some c ∨ own ≠ some c ∧ ∀ u ≠ t, callOf (s.phase u) ≠ some c) :
    Around (goto s t' p) t own out room where
  __ := h
  others u hu := by
    rw [goto_phase]
    split
    · exact hp
    · exact h.others u hu
  distinct u hu v hv c := by
    have := h.distinct
    rw [goto_phase, goto_phase]
    grind
  apart u hu c := by
    have := h.apart
    rw [goto_phase]
    grind

/-- A task that does not copy goes to sleep or returns. A call that it takes up is new. -/
theorem PipeInv.goto (h : PipeInv s) (ht : ¬Copies (s.phase t)) (hp : Sleeps s p)
    (hcall : ∀ c, callOf p = some c →
      callOf (s.phase t) = some c ∨ ∀ u, callOf (s.phase u) ≠ some c) :
    PipeInv (Pipe.goto s t p) := by
  cases h with
  | quiet h =>
    refine .quiet { h with sleeps := fun u => ?_, distinct := fun u v c => ?_ }
    · rw [goto_phase]
      split
      · exact hp
      · exact h.sleeps u
    · have := h.distinct
      rw [goto_phase, goto_phase]
      grind
  | @reads u count read pos chars h =>
    have hne : t ≠ u := fun heq => ht (heq ▸ h.copies)
    refine .reads (t := u) ⟨(goto_other hne.symm).trans h.phase, h.lock, h.fits,
      h.around.other hne hp fun c hc => ?_⟩
    exact (hcall c hc).imp_right fun hfresh => ⟨(Option.some_ne_none c).symm, fun v _ => hfresh v⟩
  | @writes u c count written pos chars nonblock h =>
    have hne : t ≠ u := fun heq => ht (heq ▸ h.copies)
    refine .writes (t := u) ⟨(goto_other hne.symm).trans h.phase, h.lock, h.fits, h.within,
      h.place, h.around.other hne hp fun c' hc => ?_, ⟨h.begun.nonneg, h.begun.small⟩⟩
    refine (hcall c' hc).imp_right fun hfresh => ⟨fun heq => hfresh u ?_, fun v _ => hfresh v⟩
    rw [h.phase]
    exact heq

/-! ## Reading -/

/-- The head of the loop of `pipe_read`. -/
theorem readLoop_inv (h : Around s t none [] 0) (hlock : s.lock = 1) (count read : Int)
    (look : Look) : PipeInv (readLoop s t count read look).1 := by
  rw [readLoop]
  split
  next hmore =>
    obtain ⟨hcount, hlen⟩ := hmore
    obtain ⟨hmax, havail, -⟩ := chunk_le (pipeBuf - s.start) s.len hcount
    generalize chunk (pipeBuf - s.start) s.len count = chars at hmax havail ⊢
    have hstart := h.start
    have hmod := Nat.mod_lt (s.start + chars) (show pipeBuf > 0 by decide)
    have hle : s.len - chars ≤ pipeBuf := by
      have := h.len
      omega
    refine .reads (t := t) ⟨goto_self .., hlock, by omega,
      (h.congr (takeOut s chars) hmod hle (fun _ _ => rfl) rfl rfl ?_).move _⟩
    have hcontent := h.content
    rw [nil_append, Nat.sub_zero, show s.len = chars + (s.len - chars) by omega,
      Circular.window_add] at hcontent
    exact hcontent
  · refine .quiet (h.unlock.settle ?_ not_false nofun nofun)
    show s.lock - 1 = 0
    omega

theorem readLocked_inv (h : Around s t none [] 0) (hlock : s.lock = 0) (count : Int)
    (look : Look) : PipeInv (readLocked s t count look).1 := by
  refine readLoop_inv h.lock ?_ count 0 look
  show s.lock + 1 = 1
  omega

theorem readWait_inv (h : PipeInv s) (ht : ¬Copies (s.phase t)) (hphase : callOf (s.phase t) = none)
    (count : Int) (look : Look) : PipeInv (readWait s t count look).1 := by
  have hidle : PipeInv (Pipe.goto s t .idle) := h.goto ht not_false nofun
  rw [readWait]
  split
  · split
    · exact hidle
    split
    · exact hidle
    · exact h.goto ht not_false nofun
  next hfree =>
    have hlock : s.lock = 0 := by omega
    exact readLocked_inv (h.around hlock hphase) hlock count look

theorem pipeRead_inv (h : PipeInv s) (hphase : s.phase t = .idle) (count : Int) (nonblock : Bool)
    (look : Look) : PipeInv (pipeRead s t count nonblock look).1 := by
  have ht : ¬Copies (s.phase t) := hphase ▸ not_false
  have hcall : callOf (s.phase t) = none := hphase ▸ rfl
  have hidle : PipeInv (Pipe.goto s t .idle) := h.goto ht not_false nofun
  rw [pipeRead]
  split
  · split
    · exact hidle
    next hlock =>
      split
      · exact hidle
      · exact readLocked_inv (h.around (not_not.mp hlock) hcall) (not_not.mp hlock) count look
  · exact readWait_inv h ht hcall count look

theorem readCopied_inv (h : Reads s t count read pos chars) (hn : n ≤ chars) (look : Look) :
    PipeInv (readCopied s t count read pos chars n look).1 := by
  have hcontent := h.around.content
  have hfits := h.fits
  rw [show chars = n + (chars - n) by omega, Circular.window_add] at hcontent
  rw [readCopied]
  split
  next hall =>
    subst hall
    refine readLoop_inv (h.around.congr (copiedOut s t pos n) h.around.start h.around.len
      (fun _ _ => rfl) rfl rfl ?_) h.lock count read look
    rw [Nat.sub_self, Circular.window_zero, append_nil] at hcontent
    show s.delivered ++ window s.base pipeBuf pos n ++ _ = _
    rw [append_assoc]
    exact hcontent
  next hrest =>
    have hlt : pos + n < pipeBuf := by omega
    rw [Nat.mod_eq_of_lt hlt, append_assoc] at hcontent
    refine .reads (t := t) ⟨goto_self .., h.lock, by omega,
      (h.around.congr (copiedOut s t pos n) h.around.start h.around.len (fun _ _ => rfl) rfl rfl
        ?_).move _⟩
    show s.delivered ++ window s.base pipeBuf pos n ++ _ = _
    rw [append_assoc]
    exact hcontent

/-! ## Writing -/

/-- The head of the inner loop of `pipe_write`. -/
theorem writeChunk_inv (h : Around s t (some c) [] 0) (hlock : s.lock = 1)
    (hbegun : Begun s c count 0) {s' : State τ}
    (hchunk : writeChunk s t c count written nonblock = some s') : PipeInv s' := by
  obtain ⟨⟨hcount, -⟩, rfl⟩ := Option.ite_some_none_eq_some.mp hchunk
  obtain ⟨hmax, havail, hle⟩ := chunk_le (pipeBuf - pipeEnd s) (pipeFree s) hcount
  generalize chunk (pipeBuf - pipeEnd s) (pipeFree s) count = chars at hmax havail hle ⊢
  have hend : pipeEnd s < pipeBuf := Nat.mod_lt _ (by decide)
  have hlen := h.len
  rw [pipeFree] at havail
  have hback : s.len + chars - chars = s.len := by omega
  refine .writes (t := t) ⟨goto_self .., hlock, by omega, Nat.le_add_left .., ?_,
    (h.congr (addRoom s chars) h.start ?_ (fun _ _ => rfl) rfl rfl ?_).move _, ⟨by omega, ?_⟩⟩
  · show pipeEnd s % pipeBuf = (s.start + (s.len + chars - chars)) % pipeBuf
    rw [hback, pipeEnd, Nat.mod_mod]
  · show s.len + chars ≤ pipeBuf
    omega
  · show s.delivered ++ ([] ++ window s.base pipeBuf s.start (s.len + chars - chars)) = _
    rw [hback]
    exact h.content
  · intro hsmall
    obtain ⟨hroom, htail⟩ := hbegun.small hsmall
    rw [pipeFree] at hroom
    refine ⟨?_, ?_⟩
    · show count - chars ≤ ((pipeBuf - (s.len + chars) : Nat) : Int)
      omega
    · rwa [show c.size - (count - chars) - chars = c.size - count - (0 : Nat) by omega]

/-- The inner loop is left when all is written, or for want of room. -/
theorem writeChunk_none (h : writeChunk s t c count written nonblock = none) :
    count ≤ 0 ∨ pipeFree s = 0 := by
  by_contra hmore
  rw [writeChunk, if_pos (by omega)] at h
  cases h

/-- The waiting loop of `pipe_write`, with what the task knows when it must sleep or return and
when it takes the lock. -/
theorem writeWait_inv (hgoto : ∀ p, Sleeps s p → (∀ c', callOf p = some c' → c' = c) →
      PipeInv (goto s t p)) (haround : s.lock = 0 → Around s t (some c) [] 0)
    (hsleeps : Sleeps s (.writeSleep c count free written)) (nonblock : Bool) (look : Look) :
    PipeInv (writeWait s t c count free written nonblock look).1 := by
  have hidle : PipeInv (goto s t .idle) := hgoto .idle not_false nofun
  obtain ⟨-, hcount, hfree, hsmall⟩ := id hsleeps
  rw [writeWait]
  split
  · split
    · exact hidle
    split
    · exact hidle
    split
    · exact hidle
    · exact hgoto _ hsleeps fun c' hc => (Option.some.inj hc).symm
  next henough =>
    have hlock : s.lock = 0 := by omega
    have hbegun : Begun (takeLock s) c count 0 := by
      refine ⟨hcount.le, fun hsize => ?_⟩
      obtain ⟨hall, hfree', hnone⟩ := hsmall hsize
      refine ⟨?_, ?_⟩
      · show count ≤ pipeFree s
        omega
      · rw [show c.size - count - (0 : Nat) = 0 by omega]
        exact tail_zero hnone
    split
    next s' hchunk =>
      refine writeChunk_inv (haround hlock).lock ?_ hbegun hchunk
      show s.lock + 1 = 1
      omega
    next hnone =>
      have hfull : count ≤ 0 ∨ pipeFree (takeLock s) = 0 := writeChunk_none hnone
      rw [show pipeFree (takeLock s) = pipeFree s from rfl] at hfull
      omega

theorem writeCopied_inv (h : Writes s t c count written pos chars nonblock) {bytes : List UInt8}
    (hn : bytes.length ≤ chars) (look : Look) :
    PipeInv (writeCopied s t c count written pos chars nonblock bytes look).1 := by
  have hfits := h.fits
  have hwithin := h.within
  have haround := h.around.copiedIn hwithin hn (by omega) h.place
  have hsmall : c.size ≤ pipeBuf → count ≤ pipeFree s ∧
      Tail (copiedIn s t c pos bytes).accepted c
      (c.size - count - (chars - bytes.length : Nat)) := by
    intro hsize
    obtain ⟨hroom, htail⟩ := h.begun.small hsize
    refine ⟨hroom, ?_⟩
    rw [show c.size - count - ((chars - bytes.length : Nat) : Int) =
      c.size - count - chars + bytes.length by omega]
    exact htail.append bytes
  rw [writeCopied]
  split
  next hall =>
    rw [hall, Nat.sub_self] at haround hsmall
    split
    next s' hchunk => exact writeChunk_inv haround h.lock ⟨h.begun.nonneg, hsmall⟩ hchunk
    next hnone =>
      have hfull : count ≤ 0 ∨ pipeFree (copiedIn s t c pos bytes) = 0 := writeChunk_none hnone
      rw [show pipeFree (copiedIn s t c pos bytes) = pipeFree s from rfl] at hfull
      have hlock : (unlock (copiedIn s t c pos bytes)).lock = 0 := by
        show s.lock - 1 = 0
        have := h.lock
        omega
      rw [writeLoop]
      split
      next hmore =>
        -- only a write that is not small can be left over
        have hbig : ¬c.size ≤ pipeBuf := fun hsize => by
          omega
        refine writeWait_inv (fun p hp hcall => .quiet (haround.unlock.settle hlock hp ?_ ?_))
          (fun _ => haround.unlock) ⟨?_, hmore, by decide, fun hsize => absurd hsize hbig⟩ ..
        · exact fun c' hc => congrArg some (hcall c' hc).symm
        · rintro c' ⟨⟩ hsize
          exact absurd hsize hbig
        · exact h.around.ownId c rfl
      next hdone =>
        refine .quiet (haround.unlock.settle hlock not_false nofun ?_)
        rintro c' ⟨⟩ hsize
        obtain ⟨-, htail⟩ := hsmall hsize
        have hzero : count = 0 := by
          have := h.begun.nonneg
          omega
        rw [hzero, Int.sub_zero, Nat.cast_zero, Int.sub_zero] at htail
        exact .inr htail.run
  next hrest =>
    have hplace : (pos + bytes.length) % pipeBuf =
        (s.start + (s.len - (chars - bytes.length))) % pipeBuf := by
      rw [show s.start + (s.len - (chars - bytes.length)) =
        s.start + (s.len - chars) + bytes.length by omega]
      exact Nat.ModEq.add_right _ h.place
    exact .writes (t := t) ⟨goto_self .., h.lock, by omega, by
      show chars - bytes.length ≤ s.len
      omega, hplace, haround.move _, ⟨h.begun.nonneg, hsmall⟩⟩

theorem pipeWrite_inv (h : PipeInv s) (hphase : s.phase t = .idle) (count : Int) (nonblock : Bool)
    (look : Look) : PipeInv (pipeWrite s t count nonblock look).1 := by
  have ht : ¬Copies (s.phase t) := hphase ▸ not_false
  have hnew := h.newCall
  have hfresh : ∀ u, callOf ((newCall s).phase u) ≠ some ⟨s.calls, count⟩ := fun u hcall =>
    Nat.lt_irrefl _ (h.callOf_lt (t := u) hcall)
  rw [pipeWrite]
  split
  · exact h.goto ht not_false nofun
  rw [writeLoop]
  split
  next hcount =>
    refine writeWait_inv (fun p hp hcall => hnew.goto ht hp fun c hc => .inr ?_) (fun hlock => ?_)
      ⟨Nat.lt_succ_self _, hcount, ?_, fun hsize => ⟨rfl, if_pos hsize, fun e he heq => ?_⟩⟩ ..
    · rw [hcall c hc]
      exact hfresh
    · refine (hnew.around hlock ?_).adopt (Nat.lt_succ_self _) hfresh
      exact congrArg callOf hphase
    · split
      · exact hcount
      · decide
    · have hlt := h.bounds.2.2 e he
      rw [heq] at hlt
      exact Nat.lt_irrefl _ hlt
  · exact hnew.goto ht not_false nofun

theorem wake_inv (h : PipeInv s) {call : Call}
    (hphase : s.phase t = .writeSleep call count free written) (look : Look) :
    PipeInv (writeWait s t call count free written false look).1 := by
  have ht : ¬Copies (s.phase t) := hphase ▸ not_false
  have hcall : callOf (s.phase t) = some call := by rw [hphase, callOf]
  have hsleeps := h.sleeps ht
  rw [hphase] at hsleeps
  refine writeWait_inv (fun p hp hc => h.goto ht hp fun c' hc' => .inl ?_)
    (fun hlock => h.around hlock hcall) hsleeps false look
  rw [hc c' hc']
  exact hcall

/-! ## What a call returns -/

/-- The counter of a call is what it has copied, together with the chunk in its hand. -/
def Paid (moved : Nat) : Phase → Prop
  | .idle => True
  | .readSleep _ => moved = 0
  | .readCopy _ read _ chars => moved + chars = read
  | .writeSleep _ _ _ written => moved = written
  | .writeCopy _ _ written _ chars _ => moved + chars = written

/-- The task goes on from `s`, or returns what it has copied. The others are not touched. -/
structure Pays (s : State τ) (t : τ) (r : State τ × Option Result) : Prop where
  others : ∀ u ≠ t, r.1.phase u = s.phase u ∧ r.1.moved u = s.moved u
  own : Paid (r.1.moved t) (r.1.phase t)
  result : ∀ n, r.2 = some (.bytes n) → r.1.moved t = n

section
variable {s' : State τ} {r : State τ × Option Result} {look : Look}

omit [DecidableEq τ] in
theorem Pays.congr (h : Pays s' t r) (hphase : s'.phase = s.phase)
    (hmoved : ∀ u ≠ t, s'.moved u = s.moved u) : Pays s t r :=
  { h with others := fun u hu => ⟨(h.others u hu).1.trans (congrFun hphase u),
      (h.others u hu).2.trans (hmoved u hu)⟩ }

theorem pays_goto (hp : Paid (s.moved t) p) : Pays s t (goto s t p, none) := by
  refine ⟨fun _ hu => ⟨goto_other hu, rfl⟩, ?_, nofun⟩
  rw [goto_self]
  exact hp

theorem pays_finish {result : Result} (hr : ∀ n, result = .bytes n → s.moved t = n) :
    Pays s t (finish s t result) :=
  { pays_goto (p := .idle) trivial with result := fun n hn => hr n (Option.some.inj hn) }

theorem readLoop_pays (h : s.moved t = read) : Pays s t (readLoop s t count read look) := by
  rw [readLoop]
  split
  · refine (pays_goto (s := takeOut s _) ?_).congr rfl fun _ _ => rfl
    rw [← h]
    rfl
  · refine (pays_finish (s := unlock s) fun n hn => h.trans ?_).congr rfl fun _ _ => rfl
    split_ifs at hn <;> simp_all

theorem readLocked_pays (h : s.moved t = 0) : Pays s t (readLocked s t count look) :=
  (readLoop_pays (s := takeLock s) (congrArg Nat.cast h)).congr rfl fun _ _ => rfl

theorem readWait_pays (h : s.moved t = 0) : Pays s t (readWait s t count look) := by
  rw [readWait]
  split_ifs
  · exact pays_finish fun n hn => by simp_all
  · exact pays_finish nofun
  · exact pays_goto h
  · exact readLocked_pays h

theorem pipeRead_pays (h : s.moved t = 0) (nonblock : Bool) :
    Pays s t (pipeRead s t count nonblock look) := by
  rw [pipeRead]
  split_ifs
  · exact pays_finish nofun
  · exact pays_finish nofun
  · exact pays_finish fun n hn => by simp_all
  · exact readLocked_pays h
  · exact readWait_pays h

theorem readCopied_pays (h : s.moved t + chars = read) (hn : n ≤ chars) :
    Pays s t (readCopied s t count read pos chars n look) := by
  have hmoved : ((copiedOut s t pos n).moved t : Int) = s.moved t + n := by simp [copiedOut]
  have hothers : ∀ u ≠ t, (copiedOut s t pos n).moved u = s.moved u := fun u hu =>
    Function.update_of_ne hu ..
  rw [readCopied]
  split
  · exact (readLoop_pays (by omega)).congr rfl hothers
  · refine (pays_goto ?_).congr rfl hothers
    show ((copiedOut s t pos n).moved t : Int) + (chars - n : Nat) = read
    omega

theorem writeChunk_pays (h : s.moved t = written)
    (hchunk : writeChunk s t c count written nonblock = some s') : Pays s t (s', none) := by
  obtain ⟨-, rfl⟩ := Option.ite_some_none_eq_some.mp hchunk
  refine (pays_goto (s := addRoom s _) ?_).congr rfl fun _ _ => rfl
  rw [← h]
  rfl

theorem writeWait_pays (h : s.moved t = written) :
    Pays s t (writeWait s t c count free written nonblock look) := by
  have hor : ∀ error n, writtenOr written error = .bytes n → (∀ m, error ≠ .bytes m) →
      s.moved t = n := by
    intro error n hn herror
    rw [writtenOr] at hn
    split at hn
    · exact h.trans (Result.bytes.inj hn)
    · exact absurd hn (herror n)
  rw [writeWait]
  split
  · split_ifs
    any_goals exact pays_finish fun n hn => hor _ n hn nofun
    exact pays_goto h
  · split
    next s' hchunk =>
      exact (writeChunk_pays (s := takeLock s) h hchunk).congr rfl fun _ _ => rfl
    · exact pays_finish fun n hn => h.trans (Result.bytes.inj hn)

theorem writeLoop_pays (h : s.moved t = written) :
    Pays s t (writeLoop s t c count free written nonblock look) := by
  rw [writeLoop]
  split
  · exact writeWait_pays h
  · exact pays_finish fun n hn => h.trans (Result.bytes.inj hn)

theorem pipeWrite_pays (h : s.moved t = 0) : Pays s t (pipeWrite s t count nonblock look) := by
  rw [pipeWrite]
  split
  · exact pays_finish nofun
  · exact (writeLoop_pays (s := newCall s) (by simp [newCall, h])).congr rfl fun _ _ => rfl

theorem writeCopied_pays {bytes : List UInt8} (h : s.moved t + chars = written)
    (hn : bytes.length ≤ chars) :
    Pays s t (writeCopied s t c count written pos chars nonblock bytes look) := by
  have hmoved : ((copiedIn s t c pos bytes).moved t : Int) = s.moved t + bytes.length := by
    simp [copiedIn]
  have hothers : ∀ u ≠ t, (copiedIn s t c pos bytes).moved u = s.moved u := fun u hu =>
    Function.update_of_ne hu ..
  rw [writeCopied]
  split
  · split
    next s' hchunk => exact (writeChunk_pays (by omega) hchunk).congr rfl hothers
    · refine (writeLoop_pays (s := unlock (copiedIn s t c pos bytes)) ?_).congr rfl hothers
      show ((copiedIn s t c pos bytes).moved t : Int) = written
      omega
  · refine (pays_goto ?_).congr rfl hothers
    show ((copiedIn s t c pos bytes).moved t : Int) + (chars - bytes.length : Nat) = written
    omega

/-- One step of a task, when the counters of all tasks are right. -/
theorem step_pays {a : Action τ} {result : Option Result} (h : ∀ u, Paid (s.moved u) (s.phase u))
    (hstep : step s a = some (s', result)) :
    (∀ u, Paid (s'.moved u) (s'.phase u)) ∧
      ∀ n, result = some (.bytes n) → s'.moved a.task = n := by
  have hpays : Pays s a.task (s', result) := by
    have henter : ∀ {t}, (s.enter t).moved t = 0 := by simp [State.enter]
    have hothers : ∀ {t u : τ}, u ≠ t → (s.enter t).moved u = s.moved u := fun hu =>
      Function.update_of_ne hu ..
    cases a with
    | read t count nonblock look =>
      obtain ⟨-, heq⟩ := Option.ite_none_right_eq_some.mp hstep
      exact Option.some.inj heq ▸ (pipeRead_pays henter nonblock).congr rfl fun _ => hothers
    | write t count nonblock look =>
      obtain ⟨-, heq⟩ := Option.ite_none_right_eq_some.mp hstep
      exact Option.some.inj heq ▸ (pipeWrite_pays henter).congr rfl fun _ => hothers
    | wake t look =>
      have ht := h t
      rw [Pipe.step] at hstep
      split at hstep
      next hphase =>
        rw [hphase] at ht
        exact Option.some.inj hstep ▸ readWait_pays ht
      next hphase =>
        rw [hphase] at ht
        exact Option.some.inj hstep ▸ writeWait_pays ht
      · cases hstep
    | copyOut t n look =>
      have ht := h t
      rw [Pipe.step] at hstep
      split at hstep
      next hphase =>
        obtain ⟨⟨-, hn⟩, heq⟩ := Option.ite_none_right_eq_some.mp hstep
        rw [hphase] at ht
        exact Option.some.inj heq ▸ readCopied_pays ht hn
      · cases hstep
    | copyIn t bytes look =>
      have ht := h t
      rw [Pipe.step] at hstep
      split at hstep
      next hphase =>
        obtain ⟨⟨-, hn⟩, heq⟩ := Option.ite_none_right_eq_some.mp hstep
        rw [hphase] at ht
        exact Option.some.inj heq ▸ writeCopied_pays ht hn
      · cases hstep
  refine ⟨fun u => ?_, hpays.result⟩
  rcases eq_or_ne u a.task with rfl | hu
  · exact hpays.own
  · obtain ⟨hphase, hmoved⟩ := hpays.others u hu
    show Paid ((s', result).1.moved u) ((s', result).1.phase u)
    rw [hphase, hmoved]
    exact h u

end

/-! ## Runs -/

theorem PipeInv.step {a : Action τ} {s' : State τ} {r : Option Result} (h : PipeInv s)
    (hstep : Pipe.step s a = some (s', r)) : PipeInv s' := by
  cases a with
  | read t count nonblock look =>
    obtain ⟨hphase, heq⟩ := Option.ite_none_right_eq_some.mp hstep
    exact .of_some (pipeRead_inv h.enter hphase count nonblock look) heq
  | write t count nonblock look =>
    obtain ⟨hphase, heq⟩ := Option.ite_none_right_eq_some.mp hstep
    exact .of_some (pipeWrite_inv h.enter hphase count nonblock look) heq
  | wake t look =>
    rw [Pipe.step] at hstep
    split at hstep
    next hphase =>
      exact .of_some (readWait_inv h (hphase ▸ not_false) (hphase ▸ rfl) _ look) hstep
    next hphase => exact .of_some (wake_inv h hphase look) hstep
    · cases hstep
  | copyOut t n look =>
    rw [Pipe.step] at hstep
    split at hstep
    next hphase =>
      obtain ⟨⟨-, hn⟩, heq⟩ := Option.ite_none_right_eq_some.mp hstep
      exact .of_some (readCopied_inv (h.reading hphase) hn look) heq
    · cases hstep
  | copyIn t bytes look =>
    rw [Pipe.step] at hstep
    split at hstep
    next hphase =>
      obtain ⟨⟨-, hn⟩, heq⟩ := Option.ite_none_right_eq_some.mp hstep
      exact .of_some (writeCopied_inv (h.writing hphase) hn look) heq
    · cases hstep

/-- Any number of tasks read from one pipe and write to it. -/
def pipes (τ : Type*) [DecidableEq τ] : System (State τ) where
  init s := ∃ base, s = init base
  step s s' := ∃ a r, Pipe.step s a = some (s', r)

theorem reachable_inv (h : (pipes τ).Reachable s) :
    PipeInv s ∧ ∀ t, Paid (s.moved t) (s.phase t) := by
  refine h.invariant (I := fun s => PipeInv s ∧ ∀ t, Paid (s.moved t) (s.phase t)) ?_ ?_
  · rintro s ⟨base, rfl⟩
    exact ⟨.quiet (init_quiet base), fun _ => trivial⟩
  · rintro s s' ⟨hinv, hpaid⟩ ⟨a, r, hstep⟩
    exact ⟨hinv.step hstep, (step_pays hpaid hstep).1⟩

/-- What has been taken out and what is in the ring is what has come in, in order. A chunk that
a reader copies has left the ring and is not all delivered; a chunk that a writer copies has its
place at the end of the ring. A write of at most `PIPE_BUF` bytes is not torn, and it is all there
or not there at all unless it is being copied. A call returns the number of the bytes that it has
copied. -/
theorem pipes_fifo (h : (pipes τ).Reachable s) :
    s.start < pipeBuf ∧ s.len ≤ pipeBuf ∧
    (∀ t t', Copies (s.phase t) → Copies (s.phase t') → t = t') ∧
    ((∀ t, ¬Copies (s.phase t)) →
      s.delivered ++ window s.base pipeBuf s.start s.len = s.accepted.map Prod.snd) ∧
    (∀ t count read pos chars, s.phase t = .readCopy count read pos chars →
      s.delivered ++ (window s.base pipeBuf pos chars ++ window s.base pipeBuf s.start s.len) =
        s.accepted.map Prod.snd) ∧
    (∀ t c count written pos chars nonblock,
      s.phase t = .writeCopy c count written pos chars nonblock → chars ≤ s.len ∧
        s.delivered ++ window s.base pipeBuf s.start (s.len - chars) = s.accepted.map Prod.snd) ∧
    (∀ c : Call, c.size ≤ pipeBuf → (∃ n, Run s.accepted c n) ∧
      ((∀ t count written pos chars nonblock,
        s.phase t ≠ .writeCopy c count written pos chars nonblock) → Whole s.accepted c)) ∧
    ∀ a s' n, step s a = some (s', some (.bytes n)) → s'.moved a.task = n := by
  obtain ⟨hinv, hpaid⟩ := reachable_inv h
  refine ⟨hinv.bounds.1, hinv.bounds.2.1, fun t t' => hinv.alone, fun hnone => ?_, ?_, ?_, ?_,
    fun a s' n hstep => (step_pays hpaid hstep).2 n rfl⟩
  · cases hinv with
    | quiet h => exact h.content
    | reads h | writes h => exact absurd h.copies (hnone _)
  · intro t count read pos chars hphase
    exact (hinv.reading hphase).around.content
  · intro t c count written pos chars nonblock hphase
    have hwrites := hinv.writing hphase
    exact ⟨hwrites.within, hwrites.around.content⟩
  · intro c hsmall
    cases hinv with
    | quiet h => exact ⟨(h.runs c hsmall).run, fun _ => h.runs c hsmall⟩
    | reads h =>
      have hwhole := h.around.runs c hsmall (Option.some_ne_none c).symm
      exact ⟨hwhole.run, fun _ => hwhole⟩
    | @writes t c' _ _ _ _ _ h =>
      by_cases hown : c' = c
      · subst hown
        exact ⟨⟨_, (h.begun.small hsmall).2.run⟩, fun hnone => absurd h.phase (hnone _ _ _ _ _ _)⟩
      · have hwhole := h.around.runs c hsmall fun heq => hown (Option.some.inj heq)
        exact ⟨hwhole.run, fun _ => hwhole⟩

/-- Task 0 writes two bytes, and task 1 takes the first of them while task 2 waits to write. -/
def handOn : List (Action (Fin 3)) :=
  let look := ⟨true, true, false⟩
  [.write 0 2 false look, .copyIn 0 [7] look, .write 2 1 false look, .copyIn 0 [8] look,
    .read 1 1 true look, .copyOut 1 1 look, .wake 2 look]

theorem pipes_fifo_hand_on : ∃ s, (pipes (Fin 3)).Reachable s ∧ s.start = 1 ∧ s.len = 2 ∧
    s.delivered = [7] ∧ s.accepted.map Prod.snd = [7, 8] ∧
    s.delivered ++ window s.base pipeBuf s.start (s.len - 1) = s.accepted.map Prod.snd := by
  have hinit : (pipes (Fin 3)).Reachable (init fun _ => 0) := .init ⟨_, rfl⟩
  obtain ⟨s, hreach, hstart, hlen, hdelivered, haccepted, hphase⟩ := hinit.runs (f := step)
    (g := fun _ _ => True) (l := handOn)
    (p := fun s => s.start = 1 ∧ s.len = 2 ∧ s.delivered = [7] ∧
      s.accepted.map Prod.snd = [7, 8] ∧ s.phase 2 = .writeCopy ⟨1, 1⟩ 0 1 2 1 false)
    (fun _ a _ r _ hstep => ⟨a, r, hstep⟩) (by decide)
  obtain ⟨-, -, -, -, -, hwriting, -⟩ := pipes_fifo hreach
  exact ⟨s, hreach, hstart, hlen, hdelivered, haccepted, (hwriting 2 _ _ _ _ _ _ hphase).2⟩

end

end Sbckernel.Fs.Pipe
