import Sbckernel.Proofs.Processes

/-!
# A new process does not run before it is complete

What is on the run queue has been started and has not exited (`Queued`). A task that is not
born is in `TASK_UNINTERRUPTIBLE`, and a signal wakes up only a task that sleeps in
`TASK_INTERRUPTIBLE` or is stopped (`Stirs`). `PTRACE_KILL` does not look at the state, so
the results are about the runs in which it is not used on such a task.
-/

namespace Sbckernel.Kernel.Process

open Lib Function Option

/-- No task is killed by a tracer before `do_fork` has woken it up. -/
def NoEarlyKill (s : State) : Action → Prop
  | .ptrace _ .kill pid _ => ∀ child ∈ getTask s pid, s.pc child ≠ .unborn
  | _ => True

section
variable {s s' s'' : State} {tasks : List Nat} {t p cur sig nr : Nat} {flags : CloneFlags}
  {stage : ForkStage} {a : Action}

/-! ## Signals -/

/-- Links do not matter for the run queue. -/
theorem Stirs.links (h : Stirs s s') (l : Links) : Stirs s { s' with links := l } := { h with }

theorem stirs_forgetOriginalParent (s : State) (father : Nat) :
    Stirs s (forgetOriginalParent s father) := by
  unfold forgetOriginalParent
  generalize forEachTask s = l
  induction l generalizing s with
  | nil => exact .refl s
  | cons p l ih =>
    rw [List.foldl_cons]
    refine (Stirs.ite fun _ => ?_).trans (ih _)
    exact (Stirs.setMem (u := { s.mem p with exitSignal := sigChld }) rfl).links _

theorem stirs_adopt (s : State) (cur p : Nat) : Stirs s (adopt s cur p) := by
  have hset : Stirs s { setMem s p { s.mem p with ptraced := false, tracesys := false } with
      links := adoptLinks s.links cur p } :=
    (Stirs.setMem (u := { s.mem p with ptraced := false, tracesys := false }) rfl).links _
  exact (hset.trans (Stirs.ite fun _ => (signals_notifyParent _ _ _).toStirs)).trans
    (Stirs.ite fun _ => signals_wakeOrphans.toStirs)

theorem stirs_adoptAll (n : Nat) (s : State) (cur : Nat) : Stirs s (adoptAll n s cur) := by
  induction n generalizing s with
  | zero => exact .refl s
  | succ n ih =>
    unfold adoptAll
    split
    · exact .refl s
    next p _ => exact (stirs_adopt s cur p).trans (ih _)

theorem stirs_exitNotify (s : State) (cur : Nat) : Stirs s (exitNotify s cur) := by
  refine Stirs.trans ?_ (stirs_adoptAll _ _ _)
  refine Stirs.trans ?_ (signals_notifyParent _ _ _).toStirs
  exact (stirs_forgetOriginalParent s cur).trans
    (Stirs.ite fun _ => signals_wakeOrphans.toStirs)

/-! ## The run queue -/

/-- What is on the run queue has been started and has not exited, and neither a task that is
not born nor a structure that is no task waits for a signal. -/
structure Queued (s : State) : Prop where
  started : ∀ a ∈ s.runQueue, (s.pc a).acts = true
  nodup : s.runQueue.Nodup
  unborn : ∀ a, s.pc a = .unborn → (s.mem a).state = .uninterruptible
  asleep : ∀ a, Restless s a → (s.pc a).acts = true

theorem Queued.stirs (h : Queued s) (hs : Stirs s s') : Queued s' := by
  refine ⟨?_, hs.nodup h.nodup, ?_, ?_⟩
  · intro a ha
    rw [hs.pc]
    rcases hs.queue a ha with ha | ha
    · exact h.started a ha
    · exact h.asleep a ha
  · intro a ha
    rw [hs.pc] at ha
    rcases hs.state a with heq | ⟨hrest, -⟩
    · exact heq.trans (h.unborn a ha)
    · have hacts := h.asleep a hrest
      rw [ha] at hacts
      cases hacts
  · intro a ha
    rw [hs.pc]
    exact h.asleep a (hs.restless ha)

/-- Tasks move, and others than those on the queue and those that sleep may stop to act. -/
theorem Queued.change (hq : ∀ a ∈ s'.runQueue, (s.pc a).acts = true) (hnodup : s'.runQueue.Nodup)
    (hacts : ∀ a, (s.pc a).acts = true → a ∈ s'.runQueue ∨ Restless s' a → (s'.pc a).acts = true)
    (hunborn : ∀ a, s'.pc a = .unborn → (s'.mem a).state = .uninterruptible)
    (hrest : ∀ a, Restless s' a → (s.pc a).acts = true) : Queued s' :=
  ⟨fun a ha => hacts a (hq a ha) (.inl ha), hnodup, hunborn,
    fun a ha => hacts a (hrest a ha) (.inr ha)⟩

section
variable (h : Queued s)
include h

/-- The current task sets its own state. -/
theorem Queued.setState (hacts : (s.pc t).acts = true) (u : TaskStruct) :
    Queued (setMem s t u) := by
  refine Queued.change h.started h.nodup (fun _ ha _ => ha) ?_ ?_
  · intro a ha
    have hat : a ≠ t := fun heq => Pc.ne_unborn hacts (heq ▸ ha)
    simpa [setMem, hat] using h.unborn a ha
  · intro a ha
    rcases eq_or_ne a t with rfl | hat
    · exact hacts
    · exact h.asleep a (by simpa [Restless, setMem, hat] using ha)

/-- A task is woken up that has been started. -/
theorem Queued.wake (hacts : (s.pc p).acts = true) : Queued (wakeUpProcess s p) := by
  obtain ⟨l, heq, hl, hnodup⟩ := wakeUpProcess_eq s p
  rw [heq]
  refine { h.setState hacts _ with started := ?_, nodup := hnodup h.nodup }
  intro a ha
  rcases hl a ha with ha | rfl
  · exact h.started a ha
  · exact hacts

theorem Queued.schedule (hacts : (s.pc t).acts = true) :
    Queued (Process.schedule s t) := by
  have herase : Queued { s with runQueue := s.runQueue.erase t } :=
    ⟨fun a ha => h.started a (List.mem_of_mem_erase ha), h.nodup.erase t, h.unborn, h.asleep⟩
  unfold Process.schedule
  split
  · exact h
  · split
    · exact h.setState hacts _
    · exact herase
  · exact herase

/-- A task that has been started goes to another place. -/
theorem Queued.setPc {pc : Pc} (hnew : pc.acts = true) :
    Queued (Process.setPc s t pc) := by
  refine Queued.change h.started h.nodup (fun a ha _ => acts_update hnew ha) ?_ h.asleep
  intro a ha
  rcases update_eq_iff.mp ha with ⟨-, ha⟩ | ⟨-, ha⟩
  · exact absurd ha (Pc.ne_unborn hnew)
  · exact h.unborn a ha

theorem Queued.returns (value : Int) : Queued (Process.returns s t value) := by
  have huser : Queued (Process.setPc s t .user) := h.setPc rfl
  exact { huser with }

/-- A structure that does not run is no task any more. -/
theorem Queued.gone (hnot : (s.pc p).acts = false) :
    Queued (Process.setPc s p .gone) := by
  refine Queued.change h.started h.nodup (fun a ha _ => ?_) ?_ h.asleep
  · have hap : a ≠ p := fun heq => Bool.false_ne_true (hnot.symm.trans (heq ▸ ha))
    simpa [Process.setPc, hap] using ha
  · intro a ha
    rcases update_eq_iff.mp ha with ⟨-, ha⟩ | ⟨-, ha⟩
    · cases ha
    · exact h.unborn a ha

/-! ## Steps -/

omit h in
theorem getPid_eq {r : State × Nat} (h : getPid s t flags = some r) :
    ∃ last, r.1 = { s with lastPid := last } := by
  unfold getPid at h
  split at h
  · cases h
    exact ⟨s.lastPid, rfl⟩
  · obtain ⟨pid, -, rfl⟩ := map_eq_some_iff.mp h
    exact ⟨pid, rfl⟩

theorem Queued.linkTask (hp : s.pc p = .gone) (nr pid : Nat) (flags : CloneFlags) :
    Queued (linkTask s t p nr pid flags) := by
  refine Queued.change h.started h.nodup (fun a ha _ => ?_) ?_ ?_
  · have hap : a ≠ p := fun heq => Pc.ne_gone ha (heq ▸ hp)
    exact acts_update rfl (by rwa [update_of_ne hap])
  · intro a ha
    show (update s.mem p (newTask (s.mem t) pid) a).state = _
    rcases pc_cases ha with ⟨-, ha⟩ | ⟨rfl, -⟩ | ⟨hap, -, ha⟩
    · cases ha
    · rw [update_self]
      rfl
    · rw [update_of_ne hap]
      exact h.unborn a ha
  · intro a ha
    have ha : (update s.mem p (newTask (s.mem t) pid) a).state = .interruptible ∨
      (update s.mem p (newTask (s.mem t) pid) a).state = .stopped := ha
    rcases eq_or_ne a p with rfl | hap
    · simp [newTask] at ha
    · exact h.asleep a (by simpa [Restless, hap] using ha)

theorem Queued.forkStack (hp : s.pc p = .gone) {ok : Bool}
    (hstep : Process.forkStack s t p flags ok = some s') : Queued s' := by
  have hfree : Queued (kfree s p) := { h with }
  unfold Process.forkStack at hstep
  split at hstep
  · split at hstep
    · cases hstep
      exact hfree.returns _
    · obtain ⟨r, hr, rfl⟩ := map_eq_some_iff.mp hstep
      obtain ⟨last, hlast⟩ := getPid_eq hr
      have hq : Queued { s with lastPid := last } := { h with }
      rw [hlast]
      exact hq.linkTask hp _ _ _
  · cases hstep
    exact hfree.returns _

theorem Queued.forkDone (flags : CloneFlags) :
    Queued (Process.forkDone s t p flags) := by
  have hset : Stirs s (setMem s p { s.mem p with exitSignal := flags.csignal }) := Stirs.setMem rfl
  have huser : Queued (Process.setPc (setMem s p { s.mem p with exitSignal := flags.csignal }) p
      .user) := (h.stirs hset).setPc rfl
  refine Queued.returns (huser.wake ?_) _
  show (update s.pc p .user p).acts = true
  rw [update_self]
  rfl

theorem Queued.forkCopy
    {mem : Option Nat} (hstep : Process.forkCopy s t stage p nr flags mem = some s') :
    Queued s' := by
  cases stage with
  | files | fs =>
    cases hstep
    exact h.setPc rfl
  | sighand =>
    unfold Process.forkCopy at hstep
    dsimp only at hstep
    split at hstep
    · cases hstep
      exact h.setPc rfl
    · cases hstep
      exact (h.stirs (signals_copySighand s t p mem).toStirs).setPc rfl
  | mm =>
    unfold Process.forkCopy at hstep
    dsimp only at hstep
    split at hstep
    · cases hstep
      exact h.forkDone flags
    · cases hstep
      exact h.setPc rfl
  | stack | cleanupSighand | cleanupFs | cleanupFiles | cleanup => cases hstep

theorem Queued.forkCleanup (hp : s.pc p = .unborn)
    (hstep : Process.forkCleanup s t stage p nr flags = some s') :
    Queued s' := by
  cases stage with
  | cleanupSighand =>
    cases hstep
    have hset : Stirs s (setMem s p { s.mem p with sig := none }) := Stirs.setMem rfl
    exact (h.stirs hset).setPc rfl
  | cleanupFs | cleanupFiles =>
    cases hstep
    exact h.setPc rfl
  | cleanup =>
    cases hstep
    have hgone : Queued (Process.setPc s p .gone) := h.gone (by rw [hp]; rfl)
    exact { hgone.returns (t := t) (-12) with }
  | stack | files | fs | sighand | mm => cases hstep

theorem Queued.doExit {code : Nat} (hpc : s.pc t = .exiting code) :
    Queued (Process.doExit s t code) := by
  have hacts : (s.pc t).acts = true := hpc ▸ rfl
  unfold Process.doExit
  dsimp only
  generalize hs1 :
    ({ setMem s t { s.mem t with sig := none, state := .zombie, exitCode := code } with
      exited := s.exited ++ [s.serial t] } : State) = s1
  have hq1 : Queued s1 := by
    rw [← hs1]
    exact { h.setState hacts { s.mem t with sig := none, state := .zombie, exitCode := code } with }
  have hzombie1 : (s1.mem t).state = .zombie := by simp [← hs1, setMem]
  have hstirs := stirs_exitNotify s1 t
  have hq := hq1.stirs hstirs
  -- A zombie is not woken up.
  have hzombie : ((exitNotify s1 t).mem t).state = .zombie := by
    rcases hstirs.state t with heq | ⟨hrest, -⟩
    · exact heq.trans hzombie1
    · simp [Restless, hzombie1] at hrest
  generalize exitNotify s1 t = s2 at hq hzombie
  have hleft : Process.schedule (Process.setPc s2 t .gone) t =
      { Process.setPc s2 t .gone with runQueue := s2.runQueue.erase t } := by
    unfold Process.schedule
    rw [show ((Process.setPc s2 t .gone).mem t).state = .zombie from hzombie]
    rfl
  rw [hleft]
  refine Queued.change (fun a ha => hq.started a (List.mem_of_mem_erase ha)) (hq.nodup.erase t)
    (fun a ha hqueue => ?_) ?_ hq.asleep
  · have hat : a ≠ t := by
      rintro rfl
      rcases hqueue with hqueue | hrest
      · exact hq.nodup.not_mem_erase hqueue
      · simp [Restless, Process.setPc, hzombie] at hrest
    simpa [Process.setPc, hat] using ha
  · intro a ha
    rcases update_eq_iff.mp ha with ⟨-, ha⟩ | ⟨-, ha⟩
    · cases ha
    · exact hq.unborn a ha

theorem Queued.wait4Scan {pid : Int} {options : WaitOptions}
    (hacts : (s.pc t).acts = true) : Queued (Process.wait4Scan s t pid options) := by
  unfold Process.wait4Scan
  split
  · exact h.setPc rfl
  · exact h.setPc rfl
  · split
    · exact h.returns 0
    · split
      · exact h.returns (-512)
      · exact (h.setState hacts _).schedule hacts
  · exact h.returns (-10)

theorem Queued.reaped (hp : (s.pc p).acts = false) :
    Queued (Process.reaped s t p) := by
  unfold Process.reaped
  split
  · have hlinks : Queued { s with links := relink s.links p (s.links.pOpptr p) } := { h with }
    exact (hlinks.stirs (signals_notifyParent _ _ _).toStirs).returns _
  · refine Queued.returns ?_ _
    unfold release
    split
    · exact h
    · split
      · exact { h.gone hp with }
      · exact { h with }

end

theorem stirs_ptraceAttach (s : State) (cur child : Nat) :
    Stirs s (ptraceAttach s cur child).1 := by
  unfold ptraceAttach
  split
  · exact .refl s
  · split
    · exact .refl s
    · split
      · exact .refl s
      · refine Stirs.trans ?_ (signals_sendSig _ _ _ _ _).toStirs
        have hset : Stirs s (setMem s child { s.mem child with ptraced := true }) :=
          Stirs.setMem rfl
        exact hset.trans (Stirs.ite fun _ => (Stirs.refl _).links _)

theorem stirs_ptraceDetach (h : (s.mem p).state = .stopped) (data : Nat) :
    Stirs s (ptraceDetach s p data).1 := by
  unfold ptraceDetach
  split
  · exact .refl s
  · refine Stirs.links ?_ _
    refine Stirs.trans ?_ (Stirs.setMem (by rfl))
    exact (Signals.resume (by rfl) (by rfl) h).toStirs

theorem Queued.ptraceKill (h : Queued s) (hp : (s.mem p).state ≠ .zombie → (s.pc p).acts = true) :
    Queued (Process.ptraceKill s p).1 := by
  unfold Process.ptraceKill
  split
  · exact h
  next hstate =>
    exact (h.wake (hp hstate)).stirs (Stirs.setMem (by rfl))

theorem Queued.sysPtrace (h : Queued s) {request : Request} {pid data : Nat}
    (hkill : request = .kill → ∀ child ∈ getTask s pid, (s.mem child).state ≠ .zombie →
      (s.pc child).acts = true) : Queued (Process.sysPtrace s t request pid data).1 := by
  refine sysPtrace_rule h (h.stirs (Stirs.setMem rfl)) ?_ ?_ ?_
  · exact fun child _ _ => h.stirs (stirs_ptraceAttach s t child)
  · exact fun child _ hstate => ⟨fun tracesys => h.stirs
      (signals_ptraceResume hstate data tracesys).toStirs, h.stirs (stirs_ptraceDetach hstate data)⟩
  · exact fun child hget hrequest => h.ptraceKill (hkill hrequest child hget)

/-- What is not born and not a zombie has been started. -/
theorem Tree.acts (htree : Tree s.core tasks) (hp : p ∈ tasks) (hborn : s.pc p ≠ .unborn)
    (hstate : (s.mem p).state ≠ .zombie) : (s.pc p).acts = true := by
  have hne : s.core.pc p ≠ .gone :=
    (htree.placed.gone p).mpr ⟨List.mem_cons_of_mem _ hp, beq_eq_false_iff_ne.mpr hstate⟩
  have hne : s.pc p ≠ .gone := hne
  cases hpc : s.pc p with
  | unborn => exact absurd hpc hborn
  | gone => exact absurd hpc hne
  | user | fork | exiting | wait4 | reap | report => rfl

theorem Queued.stepTask (h : Queued s) (htree : Tree s.core tasks) (hreap : Reaping s.core tasks)
    (hno : NoEarlyKill s a) (hstep : Process.stepTask s t a = some s') :
    Queued s' := by
  have hacts : s.pc t = .user → (s.pc t).acts = true := fun hpc => hpc ▸ rfl
  cases a with
  | fork _ flags mem =>
    obtain ⟨-, rfl⟩ := ite_some_none_eq_some.mp hstep
    cases mem with
    | none => exact h.returns (-12)
    | some p =>
      have hlive : Queued { s with live := update s.live p true } := { h with }
      exact hlive.setPc rfl
  | forkStack _ ok =>
    dsimp only [Process.stepTask] at hstep
    split at hstep
    next p nr flags hpc =>
      have hp := (htree.placed.stack t p nr flags hpc).2.1
      have hgone : s.core.pc p = .gone := by
        by_contra hne
        exact hp ((htree.placed.gone p).mp hne).1
      exact h.forkStack hgone hstep
    · cases hstep
  | forkCopy _ mem =>
    dsimp only [Process.stepTask] at hstep
    split at hstep
    · exact h.forkCopy hstep
    · cases hstep
  | forkCleanup _ =>
    dsimp only [Process.stepTask] at hstep
    split at hstep
    next stage p nr flags hpc =>
      have hstage : stage ≠ .stack := by
        intro heq
        rw [heq] at hstep
        cases hstep
      exact h.forkCleanup (htree.placed.fork t stage p nr flags hpc hstage).2.1 hstep
    · cases hstep
  | exit _ code | wait4 _ pid options =>
    obtain ⟨-, rfl⟩ := ite_some_none_eq_some.mp hstep
    exact h.setPc rfl
  | exitNotify _ =>
    dsimp only [Process.stepTask] at hstep
    split at hstep
    next code hpc =>
      cases hstep
      exact h.doExit hpc
    · cases hstep
  | scan _ =>
    dsimp only [Process.stepTask] at hstep
    split at hstep
    next pid options hpc =>
      cases hstep
      exact h.wait4Scan (by rw [hpc]; rfl)
    · cases hstep
  | stored _ =>
    dsimp only [Process.stepTask] at hstep
    split at hstep
    next p hpc =>
      cases hstep
      refine h.reaped (Bool.eq_false_iff.mpr fun hp => ?_)
      have hzombie := (hreap t p hpc).2.1
      rw [htree.placed.not_zombie hp] at hzombie
      exact Bool.false_ne_true hzombie
    next p hpc =>
      cases hstep
      have hset : Stirs s (setMem s p { s.mem p with exitCode := 0 }) := Stirs.setMem rfl
      exact (h.stirs hset).returns _
    · cases hstep
  | ptrace _ request pid data =>
    obtain ⟨-, rfl⟩ := ite_some_none_eq_some.mp hstep
    have hq : Queued (Process.sysPtrace s t request pid data).1 := by
      refine h.sysPtrace ?_
      intro hkill child hget hstate
      rw [hkill] at hno
      exact htree.acts (htree.linked.getTask_mem hget) (hno child hget) hstate
    exact { hq with }
  | sendSig _ sig p priv =>
    obtain ⟨-, rfl⟩ := ite_some_none_eq_some.mp hstep
    exact h.stirs (signals_sendSig s t sig p priv).toStirs
  | stop _ code notify =>
    obtain ⟨hpc, rfl⟩ := ite_some_none_eq_some.mp hstep
    have hset := h.setState (hacts hpc.1) { s.mem t with state := .stopped, exitCode := code }
    have hstirs := Signals.ite (q := notify = true) fun _ => signals_notifyParent
      (setMem s t { s.mem t with state := .stopped, exitCode := code }) t sigChld
    refine (hset.stirs hstirs.toStirs).schedule ?_
    rw [hstirs.pc]
    exact hacts hpc.1
  | sleep _ interruptible =>
    obtain ⟨hpc, rfl⟩ := ite_some_none_eq_some.mp hstep
    exact (h.setState hpc.1 _).schedule hpc.1
  | forceSig _ _ => cases hstep
  | wake _ => cases hstep

theorem Queued.step (h : Queued s) (htree : Tree s.core tasks) (hreap : Reaping s.core tasks)
    (hno : NoEarlyKill s a) (hstep : step s a = some s') : Queued s' := by
  cases a with
  | forceSig sig p =>
    obtain ⟨-, rfl⟩ := ite_some_none_eq_some.mp hstep
    exact h.stirs (signals_forceSig s sig p).toStirs
  | wake t =>
    obtain ⟨⟨hacts, -⟩, rfl⟩ := ite_some_none_eq_some.mp hstep
    exact h.wake hacts
  | _ =>
    obtain ⟨-, hstep⟩ := ite_none_right_eq_some.mp hstep
    exact h.stepTask htree hreap hno hstep

theorem Initial.queued (h : Initial s) : Queued s := by
  have hrest : ∀ a, ¬Restless s a := fun a ha => ha.elim (h.awake a).1 (h.awake a).2
  refine ⟨?_, by simp [h.runQueue], ?_, fun a ha => absurd ha (hrest a)⟩
  · intro a ha
    rw [h.runQueue, List.mem_singleton] at ha
    rw [h.pc, ha]
    rfl
  · intro a ha
    rw [h.pc] at ha
    split at ha <;> cases ha

/-- Both guards. A zombie that is released twice may in between have become the task that a fork
is making, so this needs the guard of the process tree, too. -/
def Allowed (s : State) (a : Action) : Prop := NoLateAttach s a ∧ NoEarlyKill s a

theorem reachable_queued (h : (processes Allowed).Reachable s) :
    ∃ tasks, Tree s.core tasks ∧ Queued s := by
  have hboth : ∃ tasks, Tree s.core tasks ∧ Reaping s.core tasks ∧ Queued s := by
    refine h.invariant (I := fun s => ∃ tasks, Tree s.core tasks ∧ Reaping s.core tasks ∧ Queued s)
      ?_ ?_
    · intro s h0
      obtain ⟨tasks, htree, hreap⟩ := reachable_tree (.init h0)
      exact ⟨tasks, htree, hreap, h0.queued⟩
    · rintro s s' ⟨tasks, htree, hreap, hq⟩ ⟨a, hallowed, hstep⟩
      obtain ⟨tasks', htree', hkeep⟩ := htree.step hreap hallowed.1 hstep
      exact ⟨tasks', htree', hkeep hreap, hq.step htree hreap hallowed.2 hstep⟩
  obtain ⟨tasks, htree, -, hq⟩ := hboth
  exact ⟨tasks, htree, hq⟩

/-- The task that `do_fork` is making is not on the run queue, and neither is a task structure
that is free. -/
theorem new_task_not_queued (h : (processes Allowed).Reachable s) :
    (∀ t stage p nr flags, s.pc t = .fork stage p nr flags → p ∉ s.runQueue) ∧
      ∀ p, s.live p = false → p ∉ s.runQueue := by
  obtain ⟨tasks, htree, hq⟩ := reachable_queued h
  constructor
  · intro t stage p nr flags hpc hmem
    have hacts := hq.started p hmem
    by_cases hstage : stage = .stack
    · rw [hstage] at hpc
      exact (htree.placed.stack t p nr flags hpc).2.1 (htree.placed.mem hacts)
    · rw [show s.pc p = .unborn from (htree.placed.fork t stage p nr flags hpc hstage).2.1] at hacts
      cases hacts
  · intro p hfree hmem
    have hlive := htree.placed.live p (htree.placed.mem (hq.started p hmem))
    rw [show s.core.live p = false from hfree] at hlive
    exact Bool.false_ne_true hlive

end

/-! ## Runs -/

/-- `init` forks up to the copy of the memory. -/
def forksHalf (p : Nat) : List Action :=
  [.fork 1 (forkFlags false) (some p), .forkStack 1 true, .forkCopy 1 (some 0),
    .forkCopy 1 (some 0), .forkCopy 1 (some p)]

/-- The copy of the memory fails. -/
def forksFail : List Action :=
  [.forkCopy 1 none, .forkCleanup 1, .forkCleanup 1, .forkCleanup 1, .forkCleanup 1]

instance decidableNoEarlyKill (s : State) (a : Action) : Decidable (NoEarlyKill s a) := by
  unfold NoEarlyKill
  split <;> infer_instance

instance decidableAllowed (s : State) (a : Action) : Decidable (Allowed s a) :=
  inferInstanceAs (Decidable (_ ∧ _))

/-- Another task attaches to the new one and sends signals to it, and then the fork fails. -/
theorem new_task_not_queued_three :
    ∃ s, (processes Allowed).Reachable s ∧ s.ret 2 = 0 ∧ s.ret 1 = -12 ∧ s.live 3 = false ∧
      3 ∉ s.runQueue := by
  obtain ⟨s, hreach, hattach, hfork, hlive⟩ := (boot_reachable Allowed).folds (f := step)
    (g := Allowed) (l := forks 1 2 false ++ forksHalf 3 ++ [.ptrace 2 .attach 3 0,
      .sendSig 2 sigKill 3 false, .sendSig 2 sigCont 3 false, .forceSig sigKill 3] ++ forksFail)
    (p := fun s => s.ret 2 = 0 ∧ s.ret 1 = -12 ∧ s.live 3 = false)
    (fun _ a _ hallowed hstep => ⟨a, hallowed, hstep⟩) (by decide +kernel)
  exact ⟨s, hreach, hattach, hfork, hlive, (new_task_not_queued hreach).2 3 hlive⟩

-- `NoEarlyKill` alone is not enough: the structure of a zombie is released and taken by a new
-- fork, the task that attached late releases it once more, and the fork wakes it up.
example : ∃ s, (processes NoEarlyKill).Reachable s ∧ 3 ∈ s.runQueue ∧ s.live 3 = false :=
  (boot_reachable _).folds (f := step) (g := NoEarlyKill)
    (l := forks 1 2 false ++ forks 1 3 false ++ exits 3 ++ waits 1 ++ [.ptrace 2 .attach 3 0] ++
      waits 2 ++ [.stored 1] ++ waits 1 ++ [.stored 1] ++ forksHalf 3 ++ [.stored 2,
      .forkCopy 1 (some 0)])
    (fun _ a _ hno hstep => ⟨a, hno, hstep⟩) (by decide +kernel)

/-- Another task attaches to the new one and kills it with `PTRACE_KILL`, which puts it on
the run queue. There it stays when the fork fails and the structure is freed. -/
theorem free_task_queued :
    (∃ s, (processes fun _ _ => True).Reachable s ∧ 3 ∈ s.runQueue ∧
      s.pc 1 = .fork .mm 3 3 (forkFlags false)) ∧
    ∃ s, (processes fun _ _ => True).Reachable s ∧ 3 ∈ s.runQueue ∧ s.live 3 = false := by
  have hstep : ∀ s a s', True → step s a = some s' → (processes fun _ _ => True).step s s' :=
    fun _ a _ hg hstep => ⟨a, hg, hstep⟩
  constructor
  · exact (boot_reachable _).folds (l := forks 1 2 false ++ forksHalf 3 ++
      [.ptrace 2 .attach 3 0, .ptrace 2 .kill 3 0]) hstep (by decide +kernel)
  · exact (boot_reachable _).folds (l := forks 1 2 false ++ forksHalf 3 ++
      [.ptrace 2 .attach 3 0, .ptrace 2 .kill 3 0] ++ forksFail) hstep (by decide +kernel)

end Sbckernel.Kernel.Process
