import Sbckernel.Proofs.ProcessLinks

/-!
# The process tree

`Core` is what the process tree depends on: the links, the table, the places of the tasks,
their pids and which of them are zombies. Sending a signal, waking a task up and going to
sleep do not change it, so that only a few steps are left to be looked at: a new task is
linked, a fork fails, a task gets another parent, a zombie is released, and a task exits.

The invariant has three parts. `Linked` is the tree itself with the table, `Placed` says
which places go together, and `Booked` is about the pids and what has exited.
-/

namespace Sbckernel.Kernel.Process

open Lib Function List

variable {pc : Pc} {i a p cur nr pid init code : Nat} {flags : CloneFlags} {released : List Nat}
  {s : State}

structure Core where
  pid : Nat → Nat
  zombie : Nat → Bool
  live : Nat → Bool
  links : Links
  task : Nat → Option Nat
  nrTasks : Nat
  pc : Nat → Pc
  panic : Bool
  forks : Nat
  serial : Nat → Nat
  pidFrom : Nat → Nat
  exited : List Nat
  released : List Nat

def State.core (s : State) : Core where
  pid a := (s.mem a).pid
  zombie a := (s.mem a).state == .zombie
  live := s.live
  links := s.links
  task := s.task
  nrTasks := s.nrTasks
  pc := s.pc
  panic := s.panic
  forks := s.forks
  serial := s.serial
  pidFrom := s.pidFrom
  exited := s.exited
  released := s.released

/-! ## Steps that the tree does not see -/

section
variable {s' s'' : State} {sig : Nat}

theorem core_setMem_eq (s : State) (p : Nat) (t : TaskStruct) : (setMem s p t).core =
    { s.core with
      pid := update s.core.pid p t.pid
      zombie := update s.core.zombie p (t.state == .zombie) } := by
  have hmem : ∀ a, ((setMem s p t).mem a).pid = update s.core.pid p t.pid a ∧
      (((setMem s p t).mem a).state == .zombie) =
        update s.core.zombie p (t.state == .zombie) a := by
    intro a
    unfold setMem
    dsimp only
    by_cases ha : a = p
    · rw [ha, update_self, update_self, update_self]
      exact ⟨rfl, rfl⟩
    · rw [update_of_ne ha, update_of_ne ha, update_of_ne ha]
      exact ⟨rfl, rfl⟩
  rw [← funext fun a => (hmem a).1, ← funext fun a => (hmem a).2]
  rfl

theorem core_setMem {t : TaskStruct} (hpid : t.pid = (s.mem p).pid)
    (hzombie : (t.state == .zombie) = ((s.mem p).state == .zombie)) :
    (setMem s p t).core = s.core := by
  rw [core_setMem_eq, hpid, hzombie, show (s.mem p).pid = s.core.pid p from rfl,
    show ((s.mem p).state == .zombie) = s.core.zombie p from rfl, update_eq_self,
    update_eq_self]

/-- A task that is woken up runs, and the run queue has at most gained it. -/
theorem wakeUpProcess_eq (s : State) (p : Nat) : ∃ l, wakeUpProcess s p =
    { setMem s p { s.mem p with state := .running } with runQueue := l } ∧
    (∀ a ∈ l, a ∈ s.runQueue ∨ a = p) ∧ (s.runQueue.Nodup → l.Nodup) := by
  unfold wakeUpProcess
  dsimp only
  split
  · exact ⟨s.runQueue, rfl, fun _ => .inl, id⟩
  next hnot =>
    have hp : p ∉ s.runQueue := fun hp => hnot (.inr hp)
    exact ⟨s.runQueue ++ [p], rfl, by simp,
      fun h => h.append (nodup_singleton p) (by simpa using hp)⟩

theorem core_wakeUpProcess (h : (s.mem p).state ≠ .zombie) : (wakeUpProcess s p).core = s.core := by
  obtain ⟨l, heq, -⟩ := wakeUpProcess_eq s p
  rw [heq]
  exact core_setMem (s := s) rfl (by simp [h])

theorem core_schedule (s : State) (cur : Nat) : (schedule s cur).core = s.core := by
  unfold schedule
  split
  · rfl
  next hstate =>
    split
    · exact core_setMem rfl (by simp [hstate])
    · rfl
  · rfl

/-- A signal may wake the task up. -/
def Restless (s : State) (a : Nat) : Prop :=
  (s.mem a).state = .interruptible ∨ (s.mem a).state = .stopped

/-- Some of the tasks that a signal may wake up have been. -/
structure Stirs (s s' : State) : Prop where
  pc : s'.pc = s.pc
  queue : ∀ a ∈ s'.runQueue, a ∈ s.runQueue ∨ Restless s a
  nodup : s.runQueue.Nodup → s'.runQueue.Nodup
  state : ∀ a, (s'.mem a).state = (s.mem a).state ∨ Restless s a ∧ (s'.mem a).state = .running

theorem Stirs.refl (s : State) : Stirs s s := ⟨rfl, fun _ => .inl, id, fun _ => .inl rfl⟩

theorem Stirs.restless (h : Stirs s s') {a : Nat} (ha : Restless s' a) : Restless s a := by
  rcases h.state a with heq | ⟨hrest, -⟩
  · unfold Restless at ha ⊢
    rw [heq] at ha
    exact ha
  · exact hrest

theorem Stirs.trans (h : Stirs s s') (h' : Stirs s' s'') : Stirs s s'' := by
  refine ⟨h'.pc.trans h.pc, ?_, fun hnd => h'.nodup (h.nodup hnd), ?_⟩
  · intro a ha
    rcases h'.queue a ha with ha | ha
    · exact h.queue a ha
    · exact .inr (h.restless ha)
  · intro a
    rcases h'.state a with heq | ⟨hrest, hrun⟩
    · rw [heq]
      exact h.state a
    · exact .inr ⟨h.restless hrest, hrun⟩

theorem Stirs.ite {q : Prop} [Decidable q] (h : q → Stirs s s') :
    Stirs s (if q then s' else s) := by
  split
  next hq => exact h hq
  · exact .refl s

/-- What signals do to other fields is not seen. -/
theorem Stirs.setMem {u : TaskStruct} (h : u.state = (s.mem p).state) : Stirs s (setMem s p u) := by
  refine ⟨rfl, fun _ => .inl, id, fun a => .inl ?_⟩
  simp only [Process.setMem, update_apply]
  split
  next ha => rw [ha, h]
  · rfl

theorem Stirs.wake (h : Restless s p) : Stirs s (wakeUpProcess s p) := by
  obtain ⟨l, heq, hl, hnodup⟩ := wakeUpProcess_eq s p
  rw [heq]
  refine ⟨rfl, fun a ha => (hl a ha).imp_right fun (hap : a = p) => hap ▸ h, hnodup, fun a => ?_⟩
  · simp only [Process.setMem, update_apply]
    split
    next ha => exact .inr ⟨ha ▸ h, rfl⟩
    · exact .inl rfl

/-- Signals have been sent, which the tree does not see. -/
structure Signals (s s' : State) : Prop extends Stirs s s' where
  core : s'.core = s.core

theorem Signals.refl (s : State) : Signals s s := ⟨.refl s, rfl⟩

theorem Signals.trans (h : Signals s s') (h' : Signals s' s'') : Signals s s'' :=
  ⟨h.toStirs.trans h'.toStirs, h'.core.trans h.core⟩

theorem Signals.ite {q : Prop} [Decidable q] (h : q → Signals s s') :
    Signals s (if q then s' else s) := by
  split
  next hq => exact h hq
  · exact .refl s

theorem Signals.setMem {u : TaskStruct} (hpid : u.pid = (s.mem p).pid := by rfl)
    (h : u.state = (s.mem p).state := by rfl) : Signals s (setMem s p u) :=
  ⟨.setMem h, core_setMem hpid (by rw [h])⟩

/-- Nobody wakes a zombie up. -/
theorem Signals.wake (h : Restless s p) : Signals s (wakeUpProcess s p) := by
  refine ⟨.wake h, core_wakeUpProcess ?_⟩
  rcases h with h | h
  · exact h.trans_ne TaskState.noConfusion
  · exact h.trans_ne TaskState.noConfusion

/-- A stopped task goes on. -/
theorem Signals.resume {u : TaskStruct} (hpid : u.pid = (s.mem p).pid)
    (hu : u.state = (s.mem p).state) (h : (s.mem p).state = .stopped) :
    Signals s (wakeUpProcess (Process.setMem s p u) p) := by
  refine (Signals.setMem hpid hu).trans (Signals.wake (.inr ?_))
  simp [Process.setMem, hu, h]

theorem signals_generate {sighand : Nat} : Signals s (generate s sig p sighand) := by
  unfold generate
  split
  · exact .refl s
  · refine (Signals.setMem).trans (Signals.ite fun hq => Signals.wake ?_)
    exact .inl hq.1

theorem signals_prepareSignal : Signals s (prepareSignal s sig p) := by
  have hwake : Signals s (if (s.mem p).state = .stopped then wakeUpProcess s p else s) :=
    Signals.ite fun hq => Signals.wake (.inr hq)
  unfold prepareSignal
  dsimp only
  split
  · split
    · refine (hwake.trans ?_).trans Signals.setMem
      exact Signals.setMem
    · exact Signals.setMem
  · split
    · exact hwake.trans Signals.setMem
    · exact .refl s

theorem signals_sendSig (s : State) (cur sig p : Nat) (priv : Bool) :
    Signals s (sendSig s cur sig p priv).1 := by
  unfold sendSig
  split
  · exact .refl s
  · split
    · exact .refl s
    · split
      · exact .refl s
      · split
        · exact .refl s
        · exact signals_prepareSignal.trans signals_generate

theorem signals_forceSig (s : State) (sig p : Nat) : Signals s (forceSig s sig p) := by
  unfold forceSig
  split
  · exact .refl s
  next sighand _ =>
    refine Signals.trans ?_ (Signals.ite fun hq => Signals.wake (.inl hq))
    refine (Signals.setMem).trans (Signals.ite fun _ => ?_)
    exact ⟨⟨rfl, fun _ => .inl, id, fun _ => .inl rfl⟩, rfl⟩

theorem signals_killPg {pgrp : Nat} : Signals s (killPg s cur pgrp sig) := by
  unfold killPg
  split
  · exact .refl s
  · generalize forEachTask s = l
    induction l generalizing s with
    | nil => exact .refl s
    | cons p l ih =>
      rw [foldl_cons]
      exact (Signals.ite fun _ => signals_sendSig s cur sig p true).trans ih

theorem signals_wakeOrphans {pgrp : Nat} : Signals s (wakeOrphans s cur pgrp) :=
  signals_killPg.trans signals_killPg

theorem signals_notifyParent (s : State) (tsk sig : Nat) : Signals s (notifyParent s tsk sig) :=
  (signals_sendSig s tsk sig _ true).trans (Signals.ite fun hq => Signals.wake (.inl hq.2))

theorem signals_copySighand (s : State) (cur p : Nat) (mem : Option Nat) :
    Signals s (copySighand s cur p mem) := by
  cases mem with
  | none => exact Signals.setMem
  | some sig =>
    have hset : Signals s (setMem s p { s.mem p with sig := some sig }) := Signals.setMem rfl rfl
    exact { hset with }

end

/-! ## The invariant -/

/-- The ring, the lists of children and the table. -/
structure Linked (c : Core) (tasks : List Nat) : Prop where
  kin : ∃ C, Kin c.links tasks (· ∈ initTask :: tasks) (fun _ => none) C
  table : ∀ a, a ∈ initTask :: tasks ↔ ∃ i < maxTasks, c.task i = some a
  slot : ∀ i j a, c.task i = some a → c.task j = some a → i = j
  bound : ∀ i a, c.task i = some a → i < maxTasks
  swapper : c.task 0 = some initTask
  init : ∃ p ∈ tasks, c.task 1 = some p
  count : c.nrTasks = tasks.length + 1

/-- The places of the tasks. -/
structure Placed (c : Core) (tasks : List Nat) : Prop where
  gone : ∀ a, c.pc a ≠ .gone ↔ a ∈ initTask :: tasks ∧ c.zombie a = false
  live : ∀ a ∈ initTask :: tasks, c.live a = true
  init : ∀ p, c.task 1 = some p → (c.pc p).acts = true
  exiting : ∀ t code, c.pc t = .exiting code → t ≠ initTask ∧ c.task 1 ≠ some t
  parent : ∀ q ∈ tasks, (c.pc (c.links.pPptr q)).acts = true
  original : ∀ q ∈ tasks, (c.pc (c.links.pOpptr q)).acts = true
  fork : ∀ t stage p nr flags, c.pc t = .fork stage p nr flags → stage ≠ .stack →
    p ∈ tasks ∧ c.pc p = .unborn ∧ c.links.pOpptr p = t ∧ c.task nr = some p
  unborn : ∀ p, c.pc p = .unborn → ∃ stage nr flags, stage ≠ .stack ∧
    c.pc (c.links.pOpptr p) = .fork stage p nr flags
  stack : ∀ t p nr flags, c.pc t = .fork .stack p nr flags →
    c.live p = true ∧ p ∉ initTask :: tasks ∧
      ∀ t' nr' flags', c.pc t' = .fork .stack p nr' flags' → t' = t

/-- The pids, and what has exited. -/
structure Booked (c : Core) (tasks : List Nat) : Prop where
  zero : c.pid initTask = 0
  pids : ∀ a ∈ initTask :: tasks, ∀ b ∈ initTask :: tasks, c.pid a = c.pid b →
    c.pidFrom a = c.pidFrom b
  serials : ∀ a ∈ initTask :: tasks, c.serial a < c.forks
  distinct : ∀ a ∈ initTask :: tasks, ∀ b ∈ initTask :: tasks, c.serial a = c.serial b → a = b
  exited : ∀ a ∈ initTask :: tasks, c.zombie a = true ↔ c.serial a ∈ c.exited
  known : ∀ n ∈ c.exited, n < c.forks
  released : ∀ n, n ∈ c.released ↔ n ∈ c.exited ∧ ∀ a ∈ initTask :: tasks, c.serial a ≠ n
  once : c.released.Nodup
  panic : c.panic = false

structure Tree (c : Core) (tasks : List Nat) : Prop where
  linked : Linked c tasks
  placed : Placed c tasks
  booked : Booked c tasks

/-- A zombie whose status is being stored is a child of the task that stores it. -/
def Reaping (c : Core) (tasks : List Nat) : Prop :=
  ∀ t p, c.pc t = .reap p → p ∈ tasks ∧ c.zombie p = true ∧ c.links.pPptr p = t

section
variable {c : Core} {tasks : List Nat} {t : Nat}

theorem Pc.ne_gone (h : pc.acts = true) : pc ≠ .gone := by
  rintro rfl
  cases h

theorem Pc.ne_unborn (h : pc.acts = true) : pc ≠ .unborn := by
  rintro rfl
  cases h

theorem Placed.mem (h : Placed c tasks) (ht : (c.pc t).acts = true) : t ∈ initTask :: tasks :=
  ((h.gone t).mp (Pc.ne_gone ht)).1

theorem Placed.not_zombie (h : Placed c tasks) (ht : (c.pc t).acts = true) : c.zombie t = false :=
  ((h.gone t).mp (Pc.ne_gone ht)).2

theorem acts_update {pc : Nat → Pc} {x : Pc} (hx : x.acts = true)
    (ha : (pc a).acts = true) : (update pc i x a).acts = true := by
  rw [update_apply]
  split
  · exact hx
  · exact ha

/-- Two tasks have moved. -/
theorem pc_cases {pc : Nat → Pc} {x y z : Pc} (h : update (update pc p x) cur y a = z) :
    a = cur ∧ z = y ∨ a = p ∧ z = x ∨ a ≠ p ∧ a ≠ cur ∧ pc a = z := by
  rcases update_eq_iff.mp h with ⟨hac, h⟩ | ⟨hac, h⟩
  · exact .inl ⟨hac, h.symm⟩
  · rcases update_eq_iff.mp h with ⟨hap, h⟩ | ⟨hap, h⟩
    · exact .inr (.inl ⟨hap, h.symm⟩)
    · exact .inr (.inr ⟨hap, hac, h⟩)

/-- Two tasks have moved, the second one to user mode. -/
theorem settled_cases {pc : Nat → Pc} {x : Pc} (hx : x = .gone ∨ x = .user) (a : Nat) :
    (a = p ∨ a = cur) ∧ (update (update pc p x) cur .user a = .gone ∨
      update (update pc p x) cur .user a = .user) ∨
    ¬(a = p ∨ a = cur) ∧ update (update pc p x) cur .user a = pc a := by
  rcases pc_cases (rfl : update (update pc p x) cur .user a = _)
    with ⟨ha, h⟩ | ⟨ha, h⟩ | ⟨hap, hac, h⟩
  · exact .inl ⟨.inr ha, .inr h⟩
  · exact .inl ⟨.inl ha, by rwa [h]⟩
  · exact .inr ⟨not_or.mpr ⟨hap, hac⟩, h.symm⟩

/-- A task that acts goes on to another place. -/
theorem Placed.setPc (h : Placed c tasks) (hold : (c.pc t).acts = true) (hnew : pc.acts = true)
    (hexit : ∀ code, pc = .exiting code → t ≠ initTask ∧ c.task 1 ≠ some t)
    (hfork : ∀ stage p nr flags, pc = .fork stage p nr flags → stage ≠ .stack →
      p ∈ tasks ∧ c.pc p = .unborn ∧ c.links.pOpptr p = t ∧ c.task nr = some p)
    (hunborn : ∀ p, c.pc p = .unborn → c.links.pOpptr p = t → ∃ stage nr flags,
      stage ≠ .stack ∧ pc = .fork stage p nr flags)
    (hstack : ∀ p nr flags, pc = .fork .stack p nr flags →
      c.live p = true ∧ p ∉ initTask :: tasks ∧
        ∀ t' nr' flags', c.pc t' = .fork .stack p nr' flags' → t' = t) :
    Placed { c with pc := update c.pc t pc } tasks := by
  have hborn : ∀ a, c.pc a = .unborn → a ≠ t := fun a ha hat => Pc.ne_unborn hold (hat ▸ ha)
  refine ⟨?_, h.live, fun p hp => acts_update hnew (h.init p hp), ?_,
    fun q hq => acts_update hnew (h.parent q hq), fun q hq => acts_update hnew (h.original q hq),
    ?_, ?_, ?_⟩
  · intro a
    rw [← h.gone]
    by_cases hat : a = t
    · simp [hat, Pc.ne_gone hold, Pc.ne_gone hnew]
    · simp [hat]
  · intro a code ha
    rcases update_eq_iff.mp ha with ⟨rfl, hpc⟩ | ⟨-, hpc⟩
    · exact hexit code hpc
    · exact h.exiting a code hpc
  · intro a stage p nr flags ha hstage
    obtain ⟨hp, hpc, hrest⟩ : p ∈ tasks ∧ c.pc p = .unborn ∧ c.links.pOpptr p = a ∧
        c.task nr = some p := by
      rcases update_eq_iff.mp ha with ⟨rfl, hpc⟩ | ⟨-, hpc⟩
      · exact hfork stage p nr flags hpc hstage
      · exact h.fork a stage p nr flags hpc hstage
    exact ⟨hp, update_eq_iff.mpr (.inr ⟨hborn p hpc, hpc⟩), hrest⟩
  · intro p hp
    rcases update_eq_iff.mp hp with ⟨-, hpc⟩ | ⟨-, hpc⟩
    · exact absurd hpc (Pc.ne_unborn hnew)
    · by_cases ho : c.links.pOpptr p = t
      · simpa [ho] using hunborn p hpc ho
      · simpa [ho] using h.unborn p hpc
  · intro a p nr flags ha
    rcases update_eq_iff.mp ha with ⟨rfl, hpc⟩ | ⟨hne, hpc⟩
    · obtain ⟨hlive, hp, huniq⟩ := hstack p nr flags hpc
      refine ⟨hlive, hp, fun t' nr' flags' ht' => ?_⟩
      rcases update_eq_iff.mp ht' with ⟨hta, -⟩ | ⟨-, hpc'⟩
      · exact hta
      · exact huniq t' nr' flags' hpc'
    · obtain ⟨hlive, hp, huniq⟩ := h.stack a p nr flags hpc
      refine ⟨hlive, hp, fun t' nr' flags' ht' => ?_⟩
      rcases update_eq_iff.mp ht' with ⟨hta, hpc'⟩ | ⟨-, hpc'⟩
      · exact hta ▸ ((hstack p nr' flags' hpc').2.2 a nr flags hpc).symm
      · exact huniq t' nr' flags' hpc'

/-- The place is not one in `do_fork`. -/
def Pc.noFork : Pc → Bool
  | .fork _ _ _ _ => false
  | _ => true

/-- A task moves between places outside `do_fork`. -/
theorem Placed.move (h : Placed c tasks) (hold : (c.pc t).acts = true)
    (hfork : (c.pc t).noFork = true) (hnew : pc.acts = true) (hfork' : pc.noFork = true)
    (hexit : ∀ code, pc = .exiting code → t ≠ initTask ∧ c.task 1 ≠ some t) :
    Placed { c with pc := update c.pc t pc } tasks := by
  have hno : ∀ stage p nr flags, pc ≠ .fork stage p nr flags := by
    intro stage p nr flags heq
    rw [heq] at hfork'
    exact Bool.false_ne_true hfork'
  refine h.setPc hold hnew hexit (fun stage p nr flags heq => absurd heq (hno stage p nr flags)) ?_
    fun p nr flags heq => absurd heq (hno .stack p nr flags)
  intro p hp ho
  obtain ⟨stage, nr, flags, -, hpc⟩ := h.unborn p hp
  rw [ho] at hpc
  rw [hpc] at hfork
  exact absurd hfork Bool.false_ne_true

/-- Tasks return to user mode or are gone, and the others stay where they are. -/
theorem Placed.settle (h : Placed c tasks) {c' : Core} {tasks' : List Nat} {M : Nat → Prop}
    (hpc : ∀ a, M a ∧ (c'.pc a = .gone ∨ c'.pc a = .user) ∨ ¬M a ∧ c'.pc a = c.pc a)
    (hgone : ∀ a, c'.pc a ≠ .gone ↔ a ∈ initTask :: tasks' ∧ c'.zombie a = false)
    (hlive : ∀ a ∈ initTask :: tasks', c'.live a = true)
    (hparent : ∀ q ∈ tasks', (c'.pc (c'.links.pPptr q)).acts = true)
    (horig : ∀ q ∈ tasks', (c'.pc (c'.links.pOpptr q)).acts = true)
    (hinit : ∀ p, c'.task 1 = some p → c.task 1 = some p ∧ (c'.pc p).acts = true)
    (hfork : ∀ t stage q nr flags, ¬M t → c.pc t = .fork stage q nr flags → stage ≠ .stack →
      q ∈ tasks' ∧ ¬M q ∧ c'.links.pOpptr q = t ∧ c'.task nr = some q)
    (hunborn : ∀ q, ¬M q → c.pc q = .unborn →
      ¬M (c.links.pOpptr q) ∧ c'.links.pOpptr q = c.links.pOpptr q)
    (hstack : ∀ t q nr flags, c.pc t = .fork .stack q nr flags →
      c'.live q = true ∧ q ∉ initTask :: tasks') : Placed c' tasks' := by
  have hsame : ∀ a, ¬M a → c'.pc a = c.pc a := fun a ha => ((hpc a).resolve_left fun h => ha h.1).2
  -- What is in `do_fork` or `do_exit`, or is not born, has not moved.
  have hback : ∀ a pc, c'.pc a = pc → pc ≠ .gone → pc ≠ .user → ¬M a ∧ c.pc a = pc := by
    intro a pc ha hgone huser
    rcases hpc a with ⟨-, h | h⟩ | ⟨hm, h⟩
    · exact absurd (ha.symm.trans h) hgone
    · exact absurd (ha.symm.trans h) huser
    · exact ⟨hm, h.symm.trans ha⟩
  refine ⟨hgone, hlive, fun p hp => (hinit p hp).2, ?_, hparent, horig, ?_, ?_, ?_⟩
  · intro t code ht
    obtain ⟨ht0, ht1⟩ := h.exiting t code (hback t _ ht nofun nofun).2
    exact ⟨ht0, fun hslot => ht1 (hinit t hslot).1⟩
  · intro t stage q nr flags ht hstage
    obtain ⟨hm, ht⟩ := hback t _ ht nofun nofun
    obtain ⟨hq, hqm, hopp, hnr⟩ := hfork t stage q nr flags hm ht hstage
    exact ⟨hq, (hsame q hqm).trans (h.fork t stage q nr flags ht hstage).2.1, hopp, hnr⟩
  · intro q hq
    obtain ⟨hm, hq⟩ := hback q _ hq nofun nofun
    obtain ⟨hom, hopp⟩ := hunborn q hm hq
    obtain ⟨stage, nr, flags, hstage, hf⟩ := h.unborn q hq
    exact ⟨stage, nr, flags, hstage, by rw [hopp, hsame _ hom, hf]⟩
  · intro t q nr flags ht
    obtain ⟨-, ht⟩ := hback t _ ht nofun nofun
    obtain ⟨hqlive, hq⟩ := hstack t q nr flags ht
    exact ⟨hqlive, hq, fun t' nr' flags' ht' =>
      (h.stack t q nr flags ht).2.2 t' nr' flags' (hback t' _ ht' nofun nofun).2⟩

/-! ## A new task -/

/-- What `linkTask` does to the tree. -/
def Core.link (c : Core) (cur p nr pid : Nat) (flags : CloneFlags) : Core :=
  { c with
    pid := update c.pid p pid
    zombie := update c.zombie p false
    links := Process.setLinks { c.links with
      pPptr := update c.links.pPptr p cur
      pOpptr := update c.links.pOpptr p cur
      pCptr := update c.links.pCptr p none } p
    task := update c.task nr (some p)
    nrTasks := c.nrTasks + 1
    pc := update (update c.pc p .unborn) cur (.fork .files p nr flags)
    forks := c.forks + 1
    serial := update c.serial p c.forks
    pidFrom := update c.pidFrom p (if flags.pid then c.pidFrom cur else c.forks) }

theorem core_linkTask (s : State) (cur p nr pid : Nat) (flags : CloneFlags) :
    (linkTask s cur p nr pid flags).core = s.core.link cur p nr pid flags :=
  congrArg (fun c : Core =>
    { s.core.link cur p nr pid flags with pid := c.pid, zombie := c.zombie })
    (core_setMem_eq s p (newTask (s.mem cur) pid))

theorem mem_snoc : a ∈ initTask :: (tasks ++ [p]) ↔ a ∈ initTask :: tasks ∨ a = p := by
  simp [or_assoc]

theorem forall_mem_snoc {P : Nat → Prop} : (∀ a ∈ initTask :: (tasks ++ [p]), P a) ↔
    (∀ a ∈ initTask :: tasks, P a) ∧ P p := by
  simp [or_imp, forall_and, and_assoc]

theorem Linked.link (h : Linked c tasks) (flags : CloneFlags)
    (hcur : cur ∈ initTask :: tasks) (hp : p ∉ initTask :: tasks) (hnr : nr < maxTasks)
    (hfree : c.task nr = none) : Linked (c.link cur p nr pid flags) (tasks ++ [p]) := by
  have hnew : ∀ i, c.task i ≠ some p := fun i hi => hp ((h.table p).mpr ⟨i, h.bound i p hi, hi⟩)
  have htask : ∀ i a, (c.link cur p nr pid flags).task i = some a ↔
      i = nr ∧ a = p ∨ c.task i = some a := by
    intro i a
    refine update_eq_iff.trans ?_
    rcases eq_or_ne i nr with rfl | hi
    · simp [hfree, eq_comm]
    · simp [hi]
  have hold : ∀ i a, c.task i = some a → (c.link cur p nr pid flags).task i = some a :=
    fun i a ha => (htask i a).mpr (.inr ha)
  refine ⟨?_, ?_, ?_, ?_, hold 0 initTask h.swapper, ?_, ?_⟩
  · obtain ⟨C, hkin⟩ := h.kin
    have hne : ∀ q ∈ initTask :: tasks, q ≠ p := fun q hq heq => hp (heq ▸ hq)
    have hact := hkin.activate (· ∈ initTask :: (tasks ++ [p]))
      (update c.links.pCptr p none)
      (fun q hq _ => update_of_ne (hne q hq) _ _)
      (fun q hq hnot => by
        rw [(mem_snoc.mp hq).resolve_left hnot, update_self])
      (fun q hq hnot => absurd (mem_snoc.mpr (.inl hq)) hnot)
    have hset := (hact.setParent (fun hmem => hp (mem_cons_of_mem _ hmem)) cur cur).setLinks
      hp (by
        simp only [update_self]
        exact mem_snoc.mpr (.inl hcur)) rfl
    exact ⟨_, hset⟩
  · intro a
    simp only [mem_snoc, h.table, htask, and_or_left, exists_or]
    rw [or_comm]
    exact or_congr_left ⟨fun ha => ⟨nr, hnr, rfl, ha⟩, fun ⟨_, _, _, ha⟩ => ha⟩
  · intro i j a hi hj
    rcases (htask i a).mp hi with ⟨hir, hip⟩ | hi'
    · rcases (htask j a).mp hj with ⟨hjr, -⟩ | hj'
      · rw [hir, hjr]
      · exact absurd (hip ▸ hj') (hnew j)
    · rcases (htask j a).mp hj with ⟨-, hjp⟩ | hj'
      · exact absurd (hjp ▸ hi') (hnew i)
      · exact h.slot i j a hi' hj'
  · intro i a hi
    rcases (htask i a).mp hi with ⟨rfl, -⟩ | hi
    · exact hnr
    · exact h.bound i a hi
  · obtain ⟨q, hq, hslot⟩ := h.init
    exact ⟨q, mem_append_left _ hq, hold 1 q hslot⟩
  · show c.nrTasks + 1 = _
    rw [h.count, length_append]
    rfl

theorem Placed.link (h : Placed c tasks) {nr' : Nat} {flags' : CloneFlags}
    (hpc : c.pc cur = .fork .stack p nr' flags') (hinit : c.task 1 ≠ none)
    (hfree : c.task nr = none) : Placed (c.link cur p nr pid flags) (tasks ++ [p]) := by
  obtain ⟨hlive, hp, huniq⟩ := h.stack cur p nr' flags' hpc
  have hcur : cur ∈ initTask :: tasks := h.mem (by simp [hpc, Pc.acts])
  have hpcur : p ≠ cur := fun heq => hp (heq ▸ hcur)
  have hgone : c.pc p = .gone := by
    by_contra hne
    exact hp ((h.gone p).mp hne).1
  have hne : ∀ a ∈ initTask :: tasks, a ≠ p := fun a ha heq => hp (heq ▸ ha)
  have hpco : ∀ a, a ≠ p → a ≠ cur → (c.link cur p nr pid flags).pc a = c.pc a :=
    fun a hap hac => (update_of_ne hac _ _).trans (update_of_ne hap _ _)
  have hact : ∀ a, (c.pc a).acts = true → ((c.link cur p nr pid flags).pc a).acts = true := by
    intro a ha
    refine acts_update rfl ?_
    rwa [update_of_ne (hne a (h.mem ha))]
  obtain ⟨hpptr, hopptr⟩ : (c.link cur p nr pid flags).links.pPptr =
        update c.links.pPptr p cur ∧
      (c.link cur p nr pid flags).links.pOpptr = update c.links.pOpptr p cur :=
    setLinks_parents _ p
  -- The parents of all tasks, the new one included.
  have hparents : ∀ f : Nat → Nat, (∀ q ∈ tasks, (c.pc (f q)).acts = true) → ∀ q ∈ tasks ++ [p],
      ((c.link cur p nr pid flags).pc (update f p cur q)).acts = true := by
    intro f hf q hq
    rw [update_apply]
    split
    · simp [Core.link, Pc.acts]
    next hqp => exact hact _ (hf q (by simpa [hqp] using hq))
  have hold : ∀ i q, c.task i = some q → (c.link cur p nr pid flags).task i = some q := by
    intro i q hi
    refine update_eq_iff.mpr (.inr ⟨?_, hi⟩)
    rintro rfl
    exact absurd (hfree.symm.trans hi) (Option.some_ne_none q).symm
  have h1 : (c.link cur p nr pid flags).task 1 = c.task 1 := by
    obtain ⟨q, hq⟩ := Option.ne_none_iff_exists'.mp hinit
    rw [hq, hold 1 q hq]
  refine ⟨?_, ?_, fun q hq => hact q (h.init q (h1 ▸ hq)), ?_, hpptr ▸ hparents _ h.parent,
    hopptr ▸ hparents _ h.original, ?_, ?_, ?_⟩
  · intro a
    rw [mem_snoc]
    rcases eq_or_ne a p with rfl | hap
    · simp [Core.link, hpcur]
    · rw [or_iff_left hap, show (c.link cur p nr pid flags).zombie a = c.zombie a from
        update_of_ne hap _ _, ← h.gone]
      rcases eq_or_ne a cur with rfl | hac
      · simp [Core.link, hpc]
      · rw [hpco a hap hac]
  · intro a ha
    rcases mem_snoc.mp ha with ha | rfl
    · exact h.live a ha
    · exact hlive
  · intro a code ha
    rcases pc_cases ha with ⟨-, ha⟩ | ⟨-, ha⟩ | ⟨-, -, ha⟩
    · cases ha
    · cases ha
    · exact h1 ▸ h.exiting a code ha
  · intro a stage q nr2 flags2 ha hstage
    rw [hopptr]
    rcases pc_cases ha with ⟨hac, ha⟩ | ⟨-, ha⟩ | ⟨-, hac, ha⟩
    · cases ha
      simp [Core.link, hpcur, hac]
    · cases ha
    · obtain ⟨hq, hunborn, hopp, hslot⟩ := h.fork a stage q nr2 flags2 ha hstage
      have hqp := hne q (mem_cons_of_mem _ hq)
      have hqcur : q ≠ cur := by
        rintro rfl
        cases hpc.symm.trans hunborn
      exact ⟨mem_append_left _ hq, (hpco q hqp hqcur).trans hunborn,
        (update_of_ne hqp _ _).trans hopp, hold _ _ hslot⟩
  · intro q hq
    rw [hopptr]
    rcases pc_cases hq with ⟨-, hq⟩ | ⟨rfl, -⟩ | ⟨hqp, -, hq⟩
    · cases hq
    · exact ⟨.files, nr, flags, ForkStage.noConfusion, by simp [Core.link]⟩
    · obtain ⟨stage, nr2, flags2, hstage, hfork⟩ := h.unborn q hq
      refine ⟨stage, nr2, flags2, hstage, ?_⟩
      rw [update_of_ne hqp, hpco _ ?_ ?_]
      · exact hfork
      · intro heq
        rw [heq, hgone] at hfork
        cases hfork
      · intro heq
        rw [heq, hpc] at hfork
        cases hfork
        exact hstage rfl
  · intro a q nr2 flags2 ha
    rcases pc_cases ha with ⟨-, ha⟩ | ⟨-, ha⟩ | ⟨-, hac, ha⟩
    · cases ha
    · cases ha
    · obtain ⟨hqlive, hq, hquniq⟩ := h.stack a q nr2 flags2 ha
      refine ⟨hqlive, ?_, fun a' nr3 flags3 ha' => ?_⟩
      · rw [mem_snoc]
        rintro (hmem | hqp)
        · exact hq hmem
        · exact hac (huniq a nr2 flags2 (hqp ▸ ha))
      · rcases pc_cases ha' with ⟨-, ha'⟩ | ⟨-, ha'⟩ | ⟨-, -, ha'⟩
        · cases ha'
        · cases ha'
        · exact hquniq a' nr3 flags3 ha'

theorem Booked.link (h : Booked c tasks) (hcur : cur ∈ initTask :: tasks)
    (hp : p ∉ initTask :: tasks) (hpid : (flags.pid = true ∧ pid = c.pid cur) ∨
      (flags.pid = false ∧ ∀ a ∈ initTask :: tasks, c.pid a ≠ pid)) :
    Booked (c.link cur p nr pid flags) (tasks ++ [p]) := by
  -- What is known of the old tasks is as before.
  have hold {β : Type} (f : Nat → β) (x : β) {a : Nat} (ha : a ∈ initTask :: tasks) :
      update f p x a = f a := update_of_ne (fun (heq : a = p) => hp (heq ▸ ha)) ..
  have hnew : c.forks ∉ c.exited := fun hmem => lt_irrefl _ (h.known _ hmem)
  have hfrom : ∀ a ∈ initTask :: tasks, c.pid a = pid →
      c.pidFrom a = if flags.pid then c.pidFrom cur else c.forks := by
    intro a ha heq
    rcases hpid with ⟨hclone, hpid⟩ | ⟨-, hfresh⟩
    · rw [if_pos hclone]
      exact h.pids a ha cur hcur (heq.trans hpid)
    · exact absurd heq (hfresh a ha)
  refine ⟨?_, ?_, ?_, ?_, ?_, fun n hn => Nat.lt_succ_of_lt (h.known n hn), fun n => ?_, h.once,
    h.panic⟩
  · exact (hold c.pid pid mem_cons_self).trans h.zero
  · simp +contextual only [forall_mem_snoc, Core.link, hold, update_self]
    exact ⟨fun a ha => ⟨h.pids a ha, hfrom a ha⟩,
      fun b hb heq => (hfrom b hb heq.symm).symm, fun _ => trivial⟩
  · simp +contextual only [forall_mem_snoc, Core.link, hold, update_self]
    exact ⟨fun a ha => Nat.lt_succ_of_lt (h.serials a ha), Nat.lt_succ_self _⟩
  · simp +contextual only [forall_mem_snoc, Core.link, hold, update_self]
    exact ⟨fun a ha => ⟨h.distinct a ha, fun heq => absurd heq (h.serials a ha).ne⟩,
      fun b hb heq => absurd heq.symm (h.serials b hb).ne, fun _ => trivial⟩
  · simp +contextual only [forall_mem_snoc, Core.link, hold, update_self]
    exact ⟨h.exited, by simp [hnew]⟩
  · simp +contextual only [forall_mem_snoc, Core.link, hold, update_self, ne_eq]
    rw [h.released]
    exact and_congr_right fun hn => ⟨fun hall => ⟨hall, fun heq => hnew (heq ▸ hn)⟩, And.left⟩

/-! ## A task leaves the table -/

/-- What `release` and the end of a fork that fails do, when `cur` returns from them. -/
def Core.unlink (c : Core) (cur p i : Nat) (released : List Nat) : Core :=
  { c with
    links := Process.removeLinks c.links p
    task := update c.task i none
    nrTasks := c.nrTasks - 1
    live := update c.live p false
    pc := update (update c.pc p .gone) cur .user
    released := released }

theorem mem_cons_erase (hnd : (initTask :: tasks).Nodup) (hp : p ∈ tasks) :
    a ∈ initTask :: tasks.erase p ↔ a ∈ initTask :: tasks ∧ a ≠ p := by
  obtain ⟨hinit, hnd⟩ := nodup_cons.mp hnd
  rw [mem_cons, mem_cons, hnd.mem_erase_iff]
  constructor
  · rintro (rfl | ha)
    · exact ⟨.inl rfl, fun heq => hinit (heq ▸ hp)⟩
    · exact ⟨.inr ha.2, ha.1⟩
  · rintro ⟨rfl | ha, hne⟩
    · exact .inl rfl
    · exact .inr ⟨hne, ha⟩

theorem Linked.unlink (h : Linked c tasks) (hp : p ∈ tasks) (hslot : c.task i = some p)
    (hinit : c.task 1 ≠ some p) (hchild : ∀ q ∈ tasks, c.links.pPptr q ≠ p) :
    Linked (c.unlink cur p i released) (tasks.erase p) := by
  obtain ⟨C, hkin⟩ := h.kin
  have hmem := fun a => mem_cons_erase hkin.nodup hp (a := a)
  have hp0 : p ≠ initTask := hkin.ne_initTask hp
  have hsome : ∀ j a, (c.unlink cur p i released).task j = some a ↔ c.task j = some a ∧ a ≠ p := by
    intro j a
    show update c.task i none j = some a ↔ _
    by_cases hj : j = i
    · rw [hj, update_self, hslot]
      exact ⟨fun heq => absurd heq.symm (Option.some_ne_none a), fun heq =>
        absurd (Option.some.inj heq.1).symm heq.2⟩
    · rw [update_of_ne hj]
      refine ⟨fun ha => ⟨ha, fun heq => hj (h.slot j i p (heq ▸ ha) hslot)⟩, And.left⟩
  refine ⟨?_, ?_, ?_, ?_, (hsome 0 initTask).mpr ⟨h.swapper, hp0.symm⟩, ?_, ?_⟩
  · have hout := hkin.removeLinks hp rfl
    refine ⟨_, hout.activate (· ∈ initTask :: tasks.erase p) _ (fun _ _ _ => rfl)
      (fun q hq hnot => absurd ((hmem q).mp hq).1 hnot) ?_⟩
    intro q hq hnot
    have hqp : q = p := by
      by_contra hne
      exact hnot ((hmem q).mpr ⟨hq, hne⟩)
    refine eq_nil_iff_forall_not_mem.mpr fun r hr => ?_
    obtain ⟨hr, hparent⟩ := (hout.mem q r).mp hr
    rw [(removeLinks_parents c.links p).1, hqp] at hparent
    exact hchild r (mem_of_mem_erase hr) hparent
  · intro a
    rw [hmem, h.table]
    constructor
    · rintro ⟨⟨j, hj, ha⟩, hne⟩
      exact ⟨j, hj, (hsome j a).mpr ⟨ha, hne⟩⟩
    · rintro ⟨j, hj, ha⟩
      obtain ⟨ha, hne⟩ := (hsome j a).mp ha
      exact ⟨⟨j, hj, ha⟩, hne⟩
  · intro j k a hj hk
    exact h.slot j k a ((hsome j a).mp hj).1 ((hsome k a).mp hk).1
  · intro j a hj
    exact h.bound j a ((hsome j a).mp hj).1
  · obtain ⟨q, hq, hslot1⟩ := h.init
    have hqp : q ≠ p := fun heq => hinit (heq ▸ hslot1)
    exact ⟨q, (mem_erase_of_ne hqp).mpr hq, (hsome 1 q).mpr ⟨hslot1, hqp⟩⟩
  · show c.nrTasks - 1 = _
    rw [h.count, length_erase_of_mem hp]
    have hpos := length_pos_of_mem hp
    omega

theorem Placed.unlink (h : Placed c tasks) (hnd : (initTask :: tasks).Nodup) (hp : p ∈ tasks)
    (hslot : c.task i = some p) (hcur : (c.pc cur).acts = true) (hpc : ¬(c.pc p).acts = true)
    (honly : ∀ t stage nr flags, c.pc t = .fork stage p nr flags → stage ≠ .stack → t = cur)
    (hcurs : ∀ q, c.pc q = .unborn → c.links.pOpptr q = cur → q = p) :
    Placed (c.unlink cur p i released) (tasks.erase p) := by
  have hmem := fun a => mem_cons_erase hnd hp (a := a)
  have hpcur : p ≠ cur := fun heq => hpc (heq ▸ hcur)
  obtain ⟨hpptr, hopptr⟩ := removeLinks_parents c.links p
  have hact : ∀ a, (c.pc a).acts = true → ((c.unlink cur p i released).pc a).acts = true := by
    intro a ha
    refine acts_update rfl ?_
    rwa [update_of_ne fun (heq : a = p) => hpc (heq ▸ ha)]
  have hsome : ∀ j a, (c.unlink cur p i released).task j = some a → c.task j = some a := by
    intro j a ha
    rcases update_eq_iff.mp ha with ⟨-, ha⟩ | ⟨-, ha⟩
    · cases ha
    · exact ha
  refine h.settle (settled_cases (.inl rfl)) (fun a => ?_) (fun a ha => ?_)
    (fun q hq => hpptr ▸ hact _ (h.parent q (mem_of_mem_erase hq)))
    (fun q hq => hopptr ▸ hact _ (h.original q (mem_of_mem_erase hq)))
    (fun q hq => ⟨hsome 1 q hq, hact q (h.init q (hsome 1 q hq))⟩) ?_ ?_ ?_
  · rw [hmem, show (c.unlink cur p i released).zombie = c.zombie from rfl, and_right_comm, ← h.gone]
    rcases pc_cases (rfl : (c.unlink cur p i released).pc a = _) with
      ⟨rfl, h⟩ | ⟨rfl, h⟩ | ⟨hap, -, h⟩
    · simp [h, Pc.ne_gone hcur, hpcur.symm]
    · simp [h]
    · rw [← h, and_iff_left hap]
  · obtain ⟨ha, hap⟩ := (hmem a).mp ha
    exact (update_of_ne hap _ _).trans (h.live a ha)
  · intro t stage q nr flags ht hf hstage
    obtain ⟨hq, hunborn, hopp, hnr⟩ := h.fork t stage q nr flags hf hstage
    have hqp : q ≠ p := fun heq => ht (.inr (honly t stage nr flags (heq ▸ hf) hstage))
    have hqc : q ≠ cur := fun heq => Pc.ne_unborn hcur (heq ▸ hunborn)
    have hnri : nr ≠ i := fun heq => hqp (Option.some.inj (hnr.symm.trans (heq ▸ hslot)))
    exact ⟨(mem_erase_of_ne hqp).mpr hq, not_or.mpr ⟨hqp, hqc⟩, hopptr ▸ hopp,
      (update_of_ne hnri _ _).trans hnr⟩
  · intro q hq hunborn
    obtain ⟨stage, nr, flags, -, hfork⟩ := h.unborn q hunborn
    refine ⟨not_or.mpr ⟨fun heq => hpc ?_, fun heq => hq (.inl (hcurs q hunborn heq))⟩,
      congrFun hopptr q⟩
    rw [← heq, hfork]
    rfl
  · intro t q nr flags ht
    obtain ⟨hlive, hq, -⟩ := h.stack t q nr flags ht
    have hqp : q ≠ p := fun heq => hq (heq ▸ mem_cons_of_mem _ hp)
    exact ⟨(update_of_ne hqp _ _).trans hlive, fun hq' => hq ((hmem q).mp hq').1⟩

/-- The task that leaves the table has not exited, or it counts as released. -/
theorem Booked.unlink (h : Booked c tasks) (hnd : (initTask :: tasks).Nodup) (hp : p ∈ tasks)
    (hreleased : (c.zombie p = false ∧ released = c.released) ∨
      (c.zombie p = true ∧ released = c.released ++ [c.serial p])) :
    Booked (c.unlink cur p i released) (tasks.erase p) := by
  have hmem := fun a => mem_cons_erase hnd hp (a := a)
  have hp' : p ∈ initTask :: tasks := mem_cons_of_mem _ hp
  have hsub : ∀ a ∈ initTask :: tasks.erase p, a ∈ initTask :: tasks :=
    fun a ha => ((hmem a).mp ha).1
  -- Nobody else has the number of the task that leaves.
  have hother : ∀ n, (∀ a ∈ initTask :: tasks.erase p, c.serial a ≠ n) ↔
      n = c.serial p ∨ ∀ a ∈ initTask :: tasks, c.serial a ≠ n := by
    intro n
    constructor
    · refine fun hall => or_iff_not_imp_left.mpr fun hn a ha => ?_
      rcases eq_or_ne a p with rfl | hap
      · exact Ne.symm hn
      · exact hall a ((hmem a).mpr ⟨ha, hap⟩)
    · rintro (rfl | hall) a ha
      · exact fun heq => ((hmem a).mp ha).2 (h.distinct a (hsub a ha) p hp' heq)
      · exact hall a (hsub a ha)
  have hnot : c.serial p ∉ c.released := fun hin => ((h.released _).mp hin).2 p hp' rfl
  have hexit := h.exited p hp'
  refine ⟨h.zero, fun a ha b hb => h.pids a (hsub a ha) b (hsub b hb),
    fun a ha => h.serials a (hsub a ha), fun a ha b hb => h.distinct a (hsub a ha) b (hsub b hb),
    fun a ha => h.exited a (hsub a ha), h.known, fun n => ?_, ?_, h.panic⟩
  · refine Iff.trans ?_ (and_congr_right' (hother n)).symm
    change n ∈ released ↔ n ∈ c.exited ∧ _
    rw [and_or_left, ← h.released]
    rcases hreleased with ⟨hzombie, rfl⟩ | ⟨hzombie, rfl⟩
    · rw [hzombie, iff_comm] at hexit
      refine (or_iff_right ?_).symm
      rintro ⟨hin, rfl⟩
      exact Bool.false_ne_true (hexit.mp hin)
    · rw [mem_append, mem_singleton, or_comm]
      refine or_congr_left ⟨fun hn => ⟨hn ▸ hexit.mp hzombie, hn⟩, And.right⟩
  · rcases hreleased with ⟨-, rfl⟩ | ⟨-, rfl⟩
    · exact h.once
    · exact h.once.append (nodup_singleton _) (by simpa using hnot)

/-! ## Another parent -/

theorem Tree.relink (h : Tree c tasks) (hp : p ∈ tasks) {parent : Nat}
    (hparent : (c.pc parent).acts = true) :
    Tree { c with links := Process.relink c.links p parent } (tasks.erase p ++ [p]) := by
  obtain ⟨C, hkin⟩ := h.linked.kin
  have hperm : (tasks.erase p ++ [p]).Perm tasks :=
    (perm_append_singleton _ _).trans (perm_cons_erase hp).symm
  have hmem' : ∀ a, a ∈ tasks.erase p ++ [p] ↔ a ∈ tasks := fun _ => hperm.mem_iff
  have hmem : ∀ a, a ∈ initTask :: (tasks.erase p ++ [p]) ↔ a ∈ initTask :: tasks :=
    fun _ => (hperm.cons _).mem_iff
  obtain ⟨hpptr, hopptr⟩ := relink_parents c.links p parent
  refine ⟨⟨?_, by simpa only [hmem] using h.linked.table, h.linked.slot, h.linked.bound,
    h.linked.swapper, by simpa only [hmem'] using h.linked.init, ?_⟩, ?_, ?_⟩
  · obtain ⟨C', hkin'⟩ := hkin.relink hp (h.placed.mem hparent)
    refine ⟨C', ?_⟩
    rw [funext fun a => propext (hmem a)]
    exact hkin'
  · rw [hperm.length_eq]
    exact h.linked.count
  · obtain ⟨hgone, hlive, hinit, hexit, hpar, horig, hfork, hunborn, hstack⟩ := h.placed
    have hpar' : ∀ q ∈ tasks, (c.pc ((Process.relink c.links p parent).pPptr q)).acts = true := by
      intro q hq
      rw [hpptr, update_apply]
      split
      · exact hparent
      · exact hpar q hq
    refine ⟨by simpa only [hmem] using hgone, by simpa only [hmem] using hlive, hinit, hexit,
      by simpa only [hmem'] using hpar', ?_, ?_, ?_, by simpa only [hmem] using hstack⟩
    · simpa only [hmem', hopptr] using horig
    · simpa only [hmem', hopptr] using hfork
    · simpa only [hopptr] using hunborn
  · obtain ⟨hzero, hpids, hserials, hdistinct, hexited, hknown, hreleased, honce, hpanic⟩ :=
      h.booked
    exact ⟨hzero, by simpa only [hmem] using hpids, by simpa only [hmem] using hserials,
      by simpa only [hmem] using hdistinct, by simpa only [hmem] using hexited, hknown,
      by simpa only [hmem] using hreleased, honce, hpanic⟩

/-! ## Exit -/

theorem core_forgetOriginalParent (s : State) (father : Nat) :
    (forgetOriginalParent s father).core =
    { s.core with links := { s.links with
      pOpptr := fun q => if q ∈ forEachTask s ∧ s.links.pOpptr q = father then
        (s.task 1).getD initTask else s.links.pOpptr q } } := by
  unfold forgetOriginalParent
  generalize forEachTask s = l
  induction l generalizing s with
  | nil =>
    simp only [not_mem_nil, false_and, if_false, foldl_nil]
    rfl
  | cons p l ih =>
    rw [foldl_cons, ih]
    by_cases hp : s.links.pOpptr p = father
    · rw [if_pos hp]
      have hcore : (setMem s p { s.mem p with exitSignal := sigChld }).core = s.core :=
        core_setMem rfl rfl
      refine congrArg₂ (fun (c : Core) opptr =>
        { c with links := { s.links with pOpptr := opptr } }) hcore (funext fun q => ?_)
      change (if q ∈ l ∧ update s.links.pOpptr p ((s.task 1).getD initTask) q = father then
        (s.task 1).getD initTask else update s.links.pOpptr p _ q) = _
      rcases eq_or_ne q p with rfl | hqp
      · rw [update_self]
        exact (ite_self _).trans (if_pos ⟨mem_cons_self, hp⟩).symm
      · simp [hqp]
    · rw [if_neg hp]
      refine congrArg (fun opptr => { s.core with links := { s.links with pOpptr := opptr } })
        (funext fun q => ?_)
      rcases eq_or_ne q p with rfl | hqp
      · simp [hp]
      · simp [hqp]

theorem core_adopt (s : State) (cur p : Nat) :
    (adopt s cur p).core = { s.core with links := adoptLinks s.links cur p } := by
  have hset : ({ setMem s p { s.mem p with ptraced := false, tracesys := false } with
      links := adoptLinks s.links cur p } : State).core =
      { s.core with links := adoptLinks s.links cur p } := by
    have hcore : (setMem s p { s.mem p with ptraced := false, tracesys := false }).core = s.core :=
      core_setMem rfl rfl
    exact congrArg (fun c : Core => { c with links := adoptLinks s.links cur p }) hcore
  exact (Signals.ite fun _ => signals_wakeOrphans).core.trans
    ((Signals.ite fun _ => signals_notifyParent _ _ _).core.trans hset)

/-- The loop of `exit_notify` gives all children to their original parents. -/
theorem core_adoptAll {n : Nat} {active : Nat → Prop} {back : Nat → Option Nat} {C : Nat → List Nat}
    (h : Kin s.links tasks active back C) (hcur : active cur) (hback : ∀ q ≠ cur, back q = none)
    (hopptr : ∀ q ∈ C cur, s.links.pOpptr q ≠ cur ∧ active (s.links.pOpptr q))
    (hn : (C cur).length ≤ n) :
    ∃ l C', (adoptAll n s cur).core = { s.core with links := l } ∧
      Kin l tasks active (fun _ => none) C' ∧ C' cur = [] ∧ l.pOpptr = s.links.pOpptr ∧
      ∀ q, l.pPptr q = if q ∈ C cur then s.links.pOpptr q else s.links.pPptr q := by
  induction n generalizing s back C with
  | zero =>
    have hnil : C cur = [] := length_eq_zero_iff.mp (Nat.le_zero.mp hn)
    refine ⟨s.links, C, rfl, h.settle hback hnil, hnil, rfl, fun q => ?_⟩
    rw [hnil, if_neg not_mem_nil]
  | succ n ih =>
    obtain ⟨b, hrow⟩ := h.family.row cur hcur
    unfold adoptAll
    cases hC : C cur with
    | nil =>
      rw [hC] at hrow
      rw [hrow.2]
      exact ⟨s.links, C, rfl, h.settle hback hC, hC, rfl, fun q => (if_neg not_mem_nil).symm⟩
    | cons p rest =>
      have hnd := h.family.nodup cur
      rw [hC] at hrow hn hnd
      rw [hrow.1]
      obtain ⟨hne, hactive⟩ := hopptr p (hC ▸ mem_cons_self)
      obtain ⟨C', back', hkin, hrest, hback'⟩ := h.adopt hC hne hback hactive
      have hcore := core_adopt s cur p
      have hlinks : (adopt s cur p).links = adoptLinks s.links cur p :=
        congrArg Core.links hcore
      have hadopt := adoptLinks_eq s.links cur p
      rw [← hlinks] at hkin
      obtain ⟨l, C'', hcore', hkin', hnil, hopp, hpptr⟩ := ih hkin hback'
        (by
          intro q hq
          rw [hrest] at hq
          rw [hlinks, hadopt]
          exact hopptr q (hC ▸ mem_cons_of_mem p hq))
        (by rw [hrest]; exact Nat.le_of_succ_le_succ hn)
      refine ⟨l, C'', ?_, hkin', hnil, ?_, ?_⟩
      · rw [hcore', hcore]
      · rw [hopp, hlinks, hadopt]
      · intro q
        have hq := hpptr q
        rw [hlinks, hadopt, hrest] at hq
        dsimp only at hq
        rw [hq]
        by_cases hqp : q = p
        · rw [hqp, update_self, if_neg (nodup_cons.mp hnd).1, if_pos mem_cons_self]
        · rw [update_of_ne hqp]
          simp only [mem_cons, hqp, false_or]

theorem Linked.forEachTask_eq (h : Linked s.core tasks) : forEachTask s = tasks := by
  obtain ⟨C, hkin⟩ := h.kin
  have hcount : s.nrTasks = tasks.length + 1 := h.count
  exact hkin.walk_eq (by omega)

/-- `l` is what `exit_notify` makes of the links: no task has `cur` for its parent. -/
structure Orphaned (old l : Links) (tasks : List Nat) (cur init : Nat) : Prop where
  kin : ∃ C, Kin l tasks (· ∈ initTask :: tasks) (fun _ => none) C
  left : ∀ q ∈ tasks, l.pPptr q ≠ cur
  opptr : ∀ q ∈ tasks, l.pOpptr q = if old.pOpptr q = cur then init else old.pOpptr q
  pptr : ∀ q ∈ tasks, l.pPptr q = if old.pPptr q = cur then l.pOpptr q else old.pPptr q

theorem core_exitNotify (h : Linked s.core tasks)
    (hcur : cur ∈ initTask :: tasks) (hslot : s.task 1 = some init) (hne : init ≠ cur)
    (hopptr : ∀ q ∈ tasks, s.links.pOpptr q ∈ initTask :: tasks) :
    ∃ l, (exitNotify s cur).core = { s.core with links := l } ∧
      Orphaned s.links l tasks cur init := by
  obtain ⟨C, hkin⟩ := h.kin
  have hinit : init ∈ initTask :: tasks := (h.table init).mpr ⟨1, by decide, hslot⟩
  have hforget := core_forgetOriginalParent s cur
  rw [h.forEachTask_eq, hslot, Option.getD_some] at hforget
  unfold exitNotify
  dsimp only
  -- The signals in between change nothing.
  generalize hs1 : forgetOriginalParent s cur = s1 at hforget
  generalize hs3 : notifyParent _ cur _ = s3
  have hcore3 : s3.core = s1.core := by
    rw [← hs3]
    exact ((Signals.ite fun _ => signals_wakeOrphans).trans (signals_notifyParent _ _ _)).core
  rw [hforget] at hcore3
  have hlinks : s3.links = { s.links with
      pOpptr := fun q => if q ∈ tasks ∧ s.links.pOpptr q = cur then init else s.links.pOpptr q } :=
    congrArg Core.links hcore3
  have hnr : s3.nrTasks = tasks.length + 1 := (congrArg Core.nrTasks hcore3).trans h.count
  have hopp : ∀ q ∈ tasks, s3.links.pOpptr q =
      if s.links.pOpptr q = cur then init else s.links.pOpptr q := by
    intro q hq
    rw [hlinks]
    simp only [hq, true_and]
  have hkin3 : Kin s3.links tasks (· ∈ initTask :: tasks) (fun _ => none) C := by
    rw [hlinks]
    exact { hkin with }
  obtain ⟨l, C', hcore, hkin', hnil, hopp', hpptr⟩ := core_adoptAll (n := s3.nrTasks) hkin3 hcur
    (fun _ _ => rfl)
    (by
      intro q hq
      have hqt := ((hkin.mem cur q).mp hq).1
      rw [hopp q hqt]
      split
      · exact ⟨hne, hinit⟩
      next hqc => exact ⟨hqc, hopptr q hqt⟩)
    (by
      rw [hnr]
      exact (hkin.length_children cur).trans (Nat.le_succ _))
  refine ⟨l, ?_, ⟨C', hkin'⟩, ?_, ?_, ?_⟩
  · rw [hcore, hcore3]
  · intro q hq hqc
    have hmem := (hkin'.mem cur q).mpr ⟨hq, hqc⟩
    rw [hnil] at hmem
    cases hmem
  · intro q hq
    rw [hopp', hopp q hq]
  · intro q hq
    rw [hpptr q, hopp', show s.links.pPptr = s3.links.pPptr by rw [hlinks]]
    simp only [hkin3.mem, hq, true_and]

/-- What `do_exit` leaves of the tree. -/
def Core.exit (c : Core) (cur : Nat) (l : Links) : Core :=
  { c with
    zombie := update c.zombie cur true
    exited := c.exited ++ [c.serial cur]
    links := l
    pc := update c.pc cur .gone }

theorem core_doExit (h : Tree s.core tasks)
    (hpc : s.pc cur = .exiting code) (hslot : s.task 1 = some init) :
    ∃ l, (doExit s cur code).core = s.core.exit cur l ∧ Orphaned s.links l tasks cur init := by
  have hne : init ≠ cur := fun heq => (h.placed.exiting cur code hpc).2 (heq ▸ hslot)
  have hcur : cur ∈ initTask :: tasks := by
    refine h.placed.mem ?_
    rw [show s.core.pc cur = .exiting code from hpc]
    rfl
  unfold doExit
  generalize hs1 :
    ({ setMem s cur { s.mem cur with sig := none, state := .zombie, exitCode := code } with
      exited := s.exited ++ [s.serial cur] } : State) = s1
  have hcore1 : s1.core = { s.core with
      zombie := update s.core.zombie cur true
      exited := s.exited ++ [s.serial cur] } := by
    rw [← hs1]
    have hset := core_setMem_eq s cur
      { s.mem cur with sig := none, state := .zombie, exitCode := code }
    rw [show (s.mem cur).pid = s.core.pid cur from rfl, update_eq_self] at hset
    exact congrArg (fun c : Core => { c with exited := s.exited ++ [s.serial cur] }) hset
  have hlinked : Linked s1.core tasks := by
    rw [hcore1]
    exact { h.linked with }
  obtain ⟨l, hcore, hrest⟩ := core_exitNotify hlinked hcur
    ((congrFun (congrArg Core.task hcore1) 1).trans hslot) hne
    (by
      intro q hq
      rw [show s1.links = s.links from congrArg Core.links hcore1]
      exact h.placed.mem (h.placed.original q hq))
  rw [show s1.links = s.links from congrArg Core.links hcore1] at hrest
  refine ⟨l, ?_, hrest⟩
  refine (core_schedule _ _).trans ?_
  have hset : (setPc (exitNotify s1 cur) cur .gone).core =
      { (exitNotify s1 cur).core with pc := update (exitNotify s1 cur).core.pc cur .gone } :=
    rfl
  rw [hset, hcore, hcore1]
  rfl

theorem Placed.exit (h : Placed c tasks) {l : Links} (hpc : c.pc cur = .exiting code)
    (hslot : c.task 1 = some init) (ho : Orphaned c.links l tasks cur init) :
    Placed (c.exit cur l) tasks := by
  have hic : init ≠ cur := fun heq => (h.exiting cur code hpc).2 (heq ▸ hslot)
  have hpccur : (c.exit cur l).pc cur = .gone := update_self ..
  have hpco : ∀ a ≠ cur, (c.exit cur l).pc a = c.pc a := fun a ha => update_of_ne ha _ _
  have hact : ∀ a ≠ cur, (c.pc a).acts = true → ((c.exit cur l).pc a).acts = true := by
    intro a ha
    rw [hpco a ha]
    exact id
  have horig : ∀ q ∈ tasks, l.pOpptr q ≠ cur ∧ (c.pc (l.pOpptr q)).acts = true := by
    intro q hq
    rw [ho.opptr q hq]
    split
    · exact ⟨hic, h.init init hslot⟩
    next hqc => exact ⟨hqc, h.original q hq⟩
  -- The task that exits is not in `do_fork`, so it is no original parent of one not born.
  have hsame : ∀ t stage q nr flags, c.pc t = .fork stage q nr flags → stage ≠ .stack →
      t ≠ cur ∧ l.pOpptr q = t := by
    intro t stage q nr flags ht hstage
    obtain ⟨hq, -, hopp, -⟩ := h.fork t stage q nr flags ht hstage
    have htc : t ≠ cur := by
      rintro rfl
      cases hpc.symm.trans ht
    exact ⟨htc, by rw [ho.opptr q hq, hopp, if_neg htc]⟩
  refine h.settle (M := (· = cur)) (fun a => ?_) (fun a => ?_) h.live (fun q hq => ?_)
    (fun q hq => hact _ (horig q hq).1 (horig q hq).2) (fun p hp => ⟨hp, ?_⟩) ?_ ?_ ?_
  · rcases eq_or_ne a cur with rfl | hac
    · exact .inl ⟨rfl, .inl hpccur⟩
    · exact .inr ⟨hac, hpco a hac⟩
  · rcases eq_or_ne a cur with rfl | hac
    · simp [Core.exit]
    · rw [hpco a hac, h.gone, show (c.exit cur l).zombie a = _ from update_of_ne hac _ _]
  · refine hact _ (ho.left q hq) ?_
    rw [show (c.exit cur l).links.pPptr q = l.pPptr q from rfl, ho.pptr q hq]
    split
    · exact (horig q hq).2
    · exact h.parent q hq
  · cases Option.some.inj (hp.symm.trans hslot)
    exact hact _ hic (h.init _ hslot)
  · intro t stage q nr flags _ hf hstage
    obtain ⟨hq, hunborn, -, hnr⟩ := h.fork t stage q nr flags hf hstage
    refine ⟨hq, ?_, (hsame t stage q nr flags hf hstage).2, hnr⟩
    rintro rfl
    cases hpc.symm.trans hunborn
  · intro q _ hunborn
    obtain ⟨stage, nr, flags, hstage, hfork⟩ := h.unborn q hunborn
    exact hsame _ stage q nr flags hfork hstage
  · exact fun t q nr flags ht => ⟨(h.stack t q nr flags ht).1, (h.stack t q nr flags ht).2.1⟩

theorem Booked.exit (h : Booked c tasks) {l : Links} (hcur : cur ∈ initTask :: tasks) :
    Booked (c.exit cur l) tasks := by
  refine { h with exited := ?_, known := ?_, released := ?_ }
  · show ∀ a ∈ _, update c.zombie cur true a = true ↔
      c.serial a ∈ c.exited ++ [c.serial cur]
    intro a ha
    rw [mem_append, mem_singleton]
    by_cases hac : a = cur
    · rw [hac, update_self]
      exact ⟨fun _ => .inr rfl, fun _ => rfl⟩
    · have hne : c.serial a ≠ c.serial cur := fun heq => hac (h.distinct a ha cur hcur heq)
      rw [update_of_ne hac, h.exited a ha, or_iff_left hne]
  · intro n hn
    rcases mem_append.mp hn with hn | hn
    · exact h.known n hn
    · rw [mem_singleton.mp hn]
      exact h.serials cur hcur
  · show ∀ n, n ∈ c.released ↔ n ∈ c.exited ++ [c.serial cur] ∧ ∀ a ∈ _, c.serial a ≠ n
    intro n
    rw [h.released, mem_append, mem_singleton]
    constructor
    · intro hn
      exact ⟨.inl hn.1, hn.2⟩
    · intro hn
      exact ⟨hn.1.resolve_right fun heq => hn.2 cur hcur heq.symm, hn.2⟩

theorem Tree.doExit (h : Tree s.core tasks)
    (hpc : s.pc cur = .exiting code) : Tree (doExit s cur code).core tasks := by
  obtain ⟨init, -, hslot⟩ := h.linked.init
  obtain ⟨l, hcore, ho⟩ := core_doExit h hpc hslot
  have hacts : (s.core.pc cur).acts = true := by
    rw [show s.core.pc cur = .exiting code from hpc]
    rfl
  rw [hcore]
  exact ⟨{ h.linked with kin := ho.kin }, h.placed.exit hpc hslot ho,
    h.booked.exit (h.placed.mem hacts)⟩

/-! ## The other steps of `do_fork` -/

/-- The new task is woken up. -/
theorem Placed.born (h : Placed c tasks) {stage : ForkStage}
    (hpc : c.pc cur = .fork stage p nr flags) (hstage : stage ≠ .stack) :
    Placed { c with pc := update (update c.pc p .user) cur .user } tasks := by
  obtain ⟨hp, hunborn, hopp, hslot⟩ := h.fork cur stage p nr flags hpc hstage
  have hact : ∀ a, (c.pc a).acts = true → (update (update c.pc p .user) cur .user a).acts = true :=
    fun a ha => acts_update rfl (acts_update rfl ha)
  refine h.settle (settled_cases (.inr rfl)) (fun a => ?_) h.live
    (fun q hq => hact _ (h.parent q hq)) (fun q hq => hact _ (h.original q hq))
    (fun q hq => ⟨hq, hact q (h.init q hq)⟩) ?_ ?_ ?_
  · rw [← h.gone]
    rcases pc_cases (rfl : update (update c.pc p .user) cur .user a = _)
      with ⟨rfl, h⟩ | ⟨rfl, h⟩ | ⟨-, -, h⟩
    · simp [hpc]
    · simp [h, hunborn]
    · simp [← h]
  · intro t stage' q nr' flags' ht hf hstage'
    obtain ⟨hq, hqun, hqopp, hqnr⟩ := h.fork t stage' q nr' flags' hf hstage'
    refine ⟨hq, ?_, hqopp, hqnr⟩
    rintro (rfl | rfl)
    · exact ht (.inr (hqopp.symm.trans hopp))
    · cases hpc.symm.trans hqun
  · intro q hq hqun
    obtain ⟨stage', nr', flags', -, hfork⟩ := h.unborn q hqun
    refine ⟨?_, rfl⟩
    rintro (heq | heq)
    · rw [heq, hunborn] at hfork
      cases hfork
    · rw [heq, hpc] at hfork
      cases hfork
      exact hq (.inl rfl)
  · exact fun t q nr' flags' ht => ⟨(h.stack t q nr' flags' ht).1, (h.stack t q nr' flags' ht).2.1⟩

end

end Sbckernel.Kernel.Process
