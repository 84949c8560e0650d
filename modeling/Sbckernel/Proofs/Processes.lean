import Sbckernel.Proofs.ProcessTree

/-!
# Every run keeps the process tree

Each step is brought down to one of the changes of the tree. `sys_wait4` sleeps while it
stores the status of a zombie, so there the tree must still be the one it has seen: the
zombie is a child of the task that stores its status (`Reaping`). This is so unless another
task attaches to the zombie in the meantime.
-/

namespace Sbckernel.Kernel.Process

open Lib Function List Option

/-- The tree is one again, and what is being reaped is so still. -/
def Keeps (tasks : List Nat) (s s' : State) : Prop :=
  ∃ tasks', Tree s'.core tasks' ∧ (Reaping s.core tasks → Reaping s'.core tasks')

section
variable {s : State} {c : Core} {tasks : List Nat} {t p : Nat}
variable {s' : State} {pc : Pc} {nr pid : Nat} {flags : CloneFlags} {stage : ForkStage}

section
variable (h : Tree s.core tasks)
include h

theorem Tree.quiet (hcore : s'.core = s.core) : Keeps tasks s s' := by
  refine ⟨tasks, ?_, ?_⟩
  · rw [hcore]
    exact h
  · rw [hcore]
    exact id

omit h in
theorem Keeps.congr {s'' : State} (h : Keeps tasks s s') (hcore : s''.core = s'.core) :
    Keeps tasks s s'' := by
  obtain ⟨tasks', htree, hreap⟩ := h
  rw [← hcore] at htree hreap
  exact ⟨tasks', htree, hreap⟩

omit h in
theorem Reaping.setPc (h : Reaping c tasks) (hpc : ∀ p, pc ≠ .reap p) :
    Reaping { c with pc := update c.pc t pc } tasks := by
  intro a p ha
  rcases update_eq_iff.mp ha with ⟨-, ha⟩ | ⟨-, ha⟩
  · exact absurd ha (hpc p)
  · exact h a p ha

/-- Another place, with the same tree. -/
theorem Tree.setPc (hplaced : Placed { s.core with pc := update s.pc t pc } tasks)
    (hpc : ∀ p, pc ≠ .reap p) : Keeps tasks s (Process.setPc s t pc) :=
  ⟨tasks, ⟨{ h.linked with }, hplaced, { h.booked with }⟩, fun hreap => hreap.setPc hpc⟩

theorem Tree.move (hold : (s.pc t).acts = true)
    (hfork : (s.pc t).noFork = true) (hnew : pc.acts = true) (hfork' : pc.noFork = true)
    (hexit : ∀ code, pc = .exiting code → t ≠ initTask ∧ s.task 1 ≠ some t)
    (hpc : ∀ p, pc ≠ .reap p) : Keeps tasks s (Process.setPc s t pc) :=
  h.setPc (h.placed.move hold hfork hnew hfork' hexit) hpc

/-- A call that is not `do_fork` returns. -/
theorem Tree.returns (hold : (s.pc t).acts = true)
    (hfork : (s.pc t).noFork = true) (value : Int) : Keeps tasks s (Process.returns s t value) :=
  (h.move hold hfork rfl rfl (fun _ => Pc.noConfusion) fun _ => Pc.noConfusion).congr rfl

/-- What is not gone is no zombie. -/
theorem Tree.state_ne (ht : s.pc t ≠ .gone) : (s.mem t).state ≠ .zombie := by
  have hzombie : ((s.mem t).state == .zombie) = false := ((h.placed.gone t).mp ht).2
  simpa using hzombie

omit h in
/-- The original parent of a task that is not born is in `do_fork`. -/
theorem Placed.unborn_of (h : Placed c tasks) (hp : c.pc p = .unborn) (ho : c.links.pOpptr p = t) :
    ∃ stage nr flags, stage ≠ .stack ∧ c.pc t = .fork stage p nr flags :=
  ho ▸ h.unborn p hp

/-- A task that does not act leaves the table, and the call of `t` returns. -/
theorem Tree.unlink {i : Nat} {released : List Nat} (hp : p ∈ tasks) (hslot : s.task i = some p)
    (hacts : (s.core.pc t).acts = true) (hnacts : ¬(s.core.pc p).acts = true)
    (honly : ∀ t' stage nr flags, s.core.pc t' = .fork stage p nr flags → stage ≠ .stack → t' = t)
    (hcurs : ∀ q, s.core.pc q = .unborn → s.core.links.pOpptr q = t → q = p)
    (hreleased : (s.core.zombie p = false ∧ released = s.core.released) ∨
      (s.core.zombie p = true ∧ released = s.core.released ++ [s.core.serial p]))
    (hno : Reaping s.core tasks → ∀ a, s.pc a = .reap p → a = t)
    (hcore : s'.core = s.core.unlink t p i released) : Keeps tasks s s' := by
  obtain ⟨C, hkin⟩ := h.linked.kin
  refine ⟨tasks.erase p, ?_, ?_⟩
  · rw [hcore]
    exact ⟨h.linked.unlink hp hslot (fun heq => hnacts (h.placed.init p heq))
        fun q hq heq => hnacts (heq ▸ h.placed.parent q hq),
      h.placed.unlink hkin.nodup hp hslot hacts hnacts honly hcurs,
      h.booked.unlink hkin.nodup hp hreleased⟩
  · rw [hcore]
    intro hreap a q ha
    rcases pc_cases ha with ⟨-, ha⟩ | ⟨-, ha⟩ | ⟨-, hat, ha⟩
    · cases ha
    · cases ha
    · obtain ⟨hq, hzombie, hpptr⟩ := hreap a q ha
      have hqp : q ≠ p := fun heq => hat (hno hreap a (heq ▸ ha))
      exact ⟨(mem_erase_of_ne hqp).mpr hq, hzombie,
        (congrFun (removeLinks_parents s.links p).1 q).trans hpptr⟩

/-! ## `do_fork` -/

omit h in
/-- Which structures are allocated matters for those in the table and the new ones only. -/
theorem Placed.setLive (h : Placed c tasks) (live : Nat → Bool)
    (htasks : ∀ a ∈ initTask :: tasks, live a = true)
    (hstack : ∀ t p nr flags, c.pc t = .fork .stack p nr flags → live p = true) :
    Placed { c with live := live } tasks := by
  refine { h with live := htasks, stack := ?_ }
  intro t p nr flags ht
  exact ⟨hstack t p nr flags ht, (h.stack t p nr flags ht).2⟩

theorem Tree.doFork (hpc : s.pc t = .user) (flags : CloneFlags)
    {mem : Option Nat} (hmem : mem.all (fun p => !s.live p) = true) :
    Keeps tasks s (Process.doFork s t flags mem) := by
  have hacts : (s.pc t).acts = true := hpc ▸ rfl
  cases mem with
  | none => exact h.returns hacts (hpc ▸ rfl) (-12)
  | some p =>
    have hdead : ¬s.live p = true := by simpa using hmem
    have hlive : ∀ a, s.live a = true → update s.live p true a = true := by
      intro a ha
      simp [update_apply, ha]
    have hplaced := h.placed.setLive (update s.live p true)
      (fun a ha => hlive a (h.placed.live a ha))
      fun a q nr fl ha => hlive q (h.placed.stack a q nr fl ha).1
    refine ⟨tasks, ⟨{ h.linked with }, hplaced.setPc hacts rfl (fun _ => Pc.noConfusion) ?_ ?_ ?_,
      { h.booked with }⟩, fun hreap => Reaping.setPc hreap fun _ => Pc.noConfusion⟩
    · intro stage q nr fl heq hstage
      cases heq
      exact absurd rfl hstage
    · intro q hq ho
      obtain ⟨stage, nr, fl, -, hfork⟩ := h.placed.unborn_of hq ho
      cases hpc.symm.trans hfork
    · intro q nr fl heq
      cases heq
      exact ⟨update_self .., fun hmem => hdead (h.placed.live p hmem),
        fun a nr' fl' ha => absurd (h.placed.stack a p nr' fl' ha).1 hdead⟩

/-- A fork that fails before the new task is linked. -/
theorem Tree.forkEarly (hpc : s.pc t = .fork .stack p nr flags)
    (value : Int) : Keeps tasks s (Process.returns (kfree s p) t value) := by
  obtain ⟨-, hp, huniq⟩ := h.placed.stack t p nr flags hpc
  have hacts : (s.pc t).acts = true := hpc ▸ rfl
  have hplaced : Placed { s.core with pc := update s.pc t .user } tasks := by
    refine h.placed.setPc hacts rfl (fun _ => Pc.noConfusion) (fun _ _ _ _ => Pc.noConfusion) ?_
      fun _ _ _ => Pc.noConfusion
    intro q hq ho
    obtain ⟨stage, nr', fl, hstage, hfork⟩ := h.placed.unborn_of hq ho
    cases hpc.symm.trans hfork
    exact absurd rfl hstage
  refine ⟨tasks, ⟨{ h.linked with }, hplaced.setLive (update s.live p false) ?_ ?_,
    { h.booked with }⟩, fun hreap => Reaping.setPc hreap fun _ => Pc.noConfusion⟩
  · intro a ha
    have hap : a ≠ p := fun heq => hp (heq ▸ ha)
    rw [update_of_ne hap]
    exact h.placed.live a ha
  · intro a q nr' fl ha
    rcases update_eq_iff.mp ha with ⟨-, ha⟩ | ⟨hat, ha⟩
    · cases ha
    · have hqp : q ≠ p := fun heq => hat (huniq a nr' fl (heq ▸ ha))
      rw [update_of_ne hqp]
      exact (h.placed.stack a q nr' fl ha).1

omit h in
theorem findEmptyProcess_free (h : findEmptyProcess s t = some nr) :
    nr < maxTasks ∧ s.task nr = none := by
  unfold findEmptyProcess at h
  dsimp only at h
  split at h
  · cases h
  · split at h
    · cases h
    · have hmem := mem_of_find?_eq_some h
      have hfree := find?_some h
      exact ⟨mem_range.mp hmem, isNone_iff_eq_none.mp hfree⟩

omit h in
theorem nextPid_unused {n last : Nat} (h : nextPid s n last = some pid) :
    pidUsed s pid = false ∧ pid ≠ 0 := by
  induction n generalizing last with
  | zero => cases h
  | succ n ih =>
    obtain ⟨next, hnext, hne⟩ :
        ∃ next, (if 0x8000 ≤ last + 1 then 1 else last + 1) = next ∧ next ≠ 0 := by
      refine ⟨_, rfl, ?_⟩
      split
      · exact Nat.one_ne_zero
      · exact Nat.succ_ne_zero last
    unfold nextPid at h
    rw [hnext] at h
    dsimp only at h
    split at h
    · exact ih h
    next hfree =>
      cases h
      exact ⟨Bool.eq_false_iff.mpr hfree, hne⟩

omit h in
theorem getPid_spec {r : State × Nat} (h : getPid s t flags = some r)
    (htree : Tree s.core tasks) : r.1.core = s.core ∧
      ((flags.pid = true ∧ r.2 = s.core.pid t) ∨
        (flags.pid = false ∧ ∀ a ∈ initTask :: tasks, s.core.pid a ≠ r.2)) := by
  unfold getPid at h
  split at h
  next hclone =>
    cases h
    exact ⟨rfl, .inl ⟨hclone, rfl⟩⟩
  next hclone =>
    obtain ⟨pid, hpid, rfl⟩ := map_eq_some_iff.mp h
    obtain ⟨hused, hzero⟩ := nextPid_unused hpid
    refine ⟨rfl, .inr ⟨Bool.eq_false_iff.mpr hclone, ?_⟩⟩
    intro a ha heq
    rcases mem_cons.mp ha with rfl | ha
    · rw [htree.booked.zero] at heq
      exact hzero heq.symm
    · unfold pidUsed at hused
      rw [htree.linked.forEachTask_eq] at hused
      have hno := any_eq_false.mp hused a ha
      have hpida : (s.mem a).pid = pid := heq
      simp [hpida] at hno

omit h in
theorem Reaping.link (h : Reaping c tasks) {cur : Nat}
    (hp : p ∉ initTask :: tasks) : Reaping (c.link cur p nr pid flags) (tasks ++ [p]) := by
  intro a q ha
  rcases pc_cases ha with ⟨-, ha⟩ | ⟨-, ha⟩ | ⟨-, -, ha⟩
  · cases ha
  · cases ha
  · obtain ⟨hq, hzombie, hpptr⟩ := h a q ha
    have hqp : q ≠ p := fun heq => hp (heq ▸ mem_cons_of_mem _ hq)
    refine ⟨mem_append_left _ hq, (update_of_ne hqp _ _).trans hzombie, ?_⟩
    refine (congrFun (setLinks_parents _ p).1 q).trans ?_
    exact (update_of_ne hqp _ _).trans hpptr

theorem Tree.forkStack (hpc : s.pc t = .fork .stack p nr flags) {ok : Bool}
    (hstep : Process.forkStack s t p flags ok = some s') : Keeps tasks s s' := by
  unfold Process.forkStack at hstep
  split at hstep
  · split at hstep
    · cases hstep
      exact h.forkEarly hpc (-11)
    next nr' hnr =>
      obtain ⟨r, hr, rfl⟩ := map_eq_some_iff.mp hstep
      obtain ⟨hcore, hpid⟩ := getPid_spec hr h
      obtain ⟨hlt, hfree⟩ := findEmptyProcess_free hnr
      obtain ⟨-, hp, -⟩ := h.placed.stack t p nr flags hpc
      have hacts : (s.core.pc t).acts = true := by
        rw [show s.core.pc t = _ from hpc]
        rfl
      have hmem := h.placed.mem hacts
      obtain ⟨init, -, hinit⟩ := h.linked.init
      refine ⟨tasks ++ [p], ?_, ?_⟩
      · rw [core_linkTask, hcore]
        exact ⟨h.linked.link flags hmem hp hlt hfree,
          h.placed.link hpc (hinit.symm ▸ some_ne_none init) hfree,
          h.booked.link hmem hp hpid⟩
      · rw [core_linkTask, hcore]
        exact fun hreap => hreap.link hp
  · cases hstep
    exact h.forkEarly hpc (-12)

/-- `do_fork` goes on to another of its steps. -/
theorem Tree.forkNext {stage' : ForkStage}
    (hpc : s.pc t = .fork stage p nr flags) (hstage : stage ≠ .stack) (hstage' : stage' ≠ .stack)
    (hcore : s'.core = s.core) : Keeps tasks s (Process.setPc s' t (.fork stage' p nr flags)) := by
  have hacts : (s.pc t).acts = true := hpc ▸ rfl
  have hset : Keeps tasks s (Process.setPc s t (.fork stage' p nr flags)) := by
    refine h.setPc ?_ fun _ => Pc.noConfusion
    refine h.placed.setPc hacts rfl (fun _ => Pc.noConfusion) ?_ ?_ ?_
    · intro stage1 q nr1 flags1 heq hstage1
      cases heq
      exact h.placed.fork t stage p nr flags hpc hstage
    · intro q hq ho
      obtain ⟨stage1, nr1, flags1, hstage1, hfork⟩ := h.placed.unborn_of hq ho
      cases hpc.symm.trans hfork
      exact ⟨stage', nr, flags, hstage', rfl⟩
    · intro q nr1 flags1 heq
      cases heq
      exact absurd rfl hstage'
  refine hset.congr ?_
  exact congrArg (fun c : Core => { c with
    pc := update c.pc t (.fork stage' p nr flags) }) hcore

section
variable (hpc : s.pc t = .fork stage p nr flags)
include hpc

theorem Tree.forkDone (hstage : stage ≠ .stack) : Keeps tasks s (Process.forkDone s t p flags) := by
  obtain ⟨-, hunborn, -⟩ := h.placed.fork t stage p nr flags hpc hstage
  have hstate : (s.mem p).state ≠ .zombie := h.state_ne (hunborn.trans_ne Pc.noConfusion)
  have hcore : (Process.forkDone s t p flags).core = { s.core with
      pc := update (update s.pc p .user) t .user } := by
    unfold Process.forkDone
    have hset : (setMem s p { s.mem p with exitSignal := flags.csignal }).core = s.core :=
      core_setMem rfl rfl
    have hwake := core_wakeUpProcess
      (s := Process.setPc (setMem s p { s.mem p with exitSignal := flags.csignal }) p .user)
      (p := p) (by simpa [Process.setPc, setMem] using hstate)
    have hall := hwake.trans (congrArg (fun c : Core => { c with
      pc := update c.pc p .user }) hset)
    exact congrArg (fun c : Core => { c with pc := update c.pc t .user }) hall
  refine ⟨tasks, ?_, ?_⟩
  · rw [hcore]
    exact ⟨{ h.linked with }, h.placed.born hpc hstage, { h.booked with }⟩
  · rw [hcore]
    intro hreap
    exact (hreap.setPc (t := p) fun _ => Pc.noConfusion).setPc fun _ => Pc.noConfusion

theorem Tree.forkCopy {mem : Option Nat}
    (hstep : Process.forkCopy s t stage p nr flags mem = some s') : Keeps tasks s s' := by
  cases stage with
  | files | fs =>
    cases hstep
    refine h.forkNext hpc ForkStage.noConfusion ?_ rfl
    split <;> exact ForkStage.noConfusion
  | sighand =>
    unfold Process.forkCopy at hstep
    dsimp only at hstep
    split at hstep
    · cases hstep
      exact h.forkNext hpc ForkStage.noConfusion ForkStage.noConfusion rfl
    · cases hstep
      refine h.forkNext hpc ForkStage.noConfusion ?_ (signals_copySighand s t p mem).core
      split <;> exact ForkStage.noConfusion
  | mm =>
    unfold Process.forkCopy at hstep
    dsimp only at hstep
    split at hstep
    · cases hstep
      exact h.forkDone hpc ForkStage.noConfusion
    · cases hstep
      exact h.forkNext hpc ForkStage.noConfusion ForkStage.noConfusion rfl
  | stack | cleanupSighand | cleanupFs | cleanupFiles | cleanup => cases hstep

/-- The end of a fork that fails. -/
theorem Tree.forkFailed (hstage : stage ≠ .stack) :
    Keeps tasks s (Process.forkFailed s t p nr) := by
  obtain ⟨hp, hunborn, hopp, hslot⟩ := h.placed.fork t stage p nr flags hpc hstage
  have hacts : (s.pc t).acts = true := hpc ▸ rfl
  have hnacts : ¬(s.core.pc p).acts = true := by simp [hunborn, Pc.acts]
  have hzombie : s.core.zombie p = false :=
    ((h.placed.gone p).mp (hunborn.trans_ne Pc.noConfusion)).2
  refine h.unlink hp hslot hacts hnacts ?_ ?_ (.inl ⟨hzombie, rfl⟩) ?_ rfl
  · intro t' stage' nr' flags' ht' hstage'
    exact (h.placed.fork t' stage' p nr' flags' ht' hstage').2.2.1.symm.trans hopp
  · intro q hq ho
    obtain ⟨stage', nr', flags', -, hfork⟩ := h.placed.unborn_of hq ho
    cases hpc.symm.trans hfork
    rfl
  · intro hreap a ha
    exact absurd ((hreap a p ha).2.1.symm.trans hzombie) Bool.noConfusion

theorem Tree.forkCleanup
    (hstep : Process.forkCleanup s t stage p nr flags = some s') : Keeps tasks s s' := by
  cases stage with
  | cleanupSighand =>
    cases hstep
    exact h.forkNext hpc ForkStage.noConfusion ForkStage.noConfusion (core_setMem rfl rfl)
  | cleanupFs | cleanupFiles =>
    cases hstep
    exact h.forkNext hpc ForkStage.noConfusion ForkStage.noConfusion rfl
  | cleanup =>
    cases hstep
    exact h.forkFailed hpc ForkStage.noConfusion
  | stack | files | fs | sighand | mm => cases hstep

end

/-! ## `do_exit` and `sys_wait4` -/

theorem Tree.exitKeeps {code : Nat} (hpc : s.pc t = .exiting code) :
    Keeps tasks s (Process.doExit s t code) := by
  obtain ⟨init, -, hslot⟩ := h.linked.init
  obtain ⟨l, hcore, ho⟩ := core_doExit h hpc hslot
  refine ⟨tasks, h.doExit hpc, ?_⟩
  rw [hcore]
  intro hreap a q ha
  rcases update_eq_iff.mp ha with ⟨-, ha⟩ | ⟨hat, ha⟩
  · cases ha
  · obtain ⟨hq, hzombie, hpptr⟩ := hreap a q ha
    refine ⟨hq, by simp [Core.exit, update_apply, hzombie], ?_⟩
    exact ((ho.pptr q hq).trans (if_neg (hpptr.trans_ne hat))).trans hpptr

end

theorem scanChildren_zombie {pid : Int} {options : WaitOptions} {flag : Bool} {l : List Nat}
    (h : scanChildren s t pid options flag l = .zombie p) : p ∈ l ∧ (s.mem p).state = .zombie := by
  induction l generalizing flag with
  | nil => cases h
  | cons q l ih =>
    unfold scanChildren at h
    dsimp only at h
    split at h
    · split at h
      · cases h
      · split at h
        next hstate =>
          cases h
          exact ⟨mem_cons_self, hstate⟩
        · obtain ⟨hp, hstate⟩ := ih h
          exact ⟨mem_cons_of_mem q hp, hstate⟩
    · obtain ⟨hp, hstate⟩ := ih h
      exact ⟨mem_cons_of_mem q hp, hstate⟩

theorem Tree.wait4Scan (h : Tree s.core tasks) {pid : Int} {options : WaitOptions}
    (hpc : s.pc t = .wait4 pid options) : Keeps tasks s (Process.wait4Scan s t pid options) := by
  have hacts : (s.pc t).acts = true := hpc ▸ rfl
  have hfork : (s.pc t).noFork = true := hpc ▸ rfl
  have hmem := h.placed.mem hacts
  obtain ⟨C, hkin⟩ := h.linked.kin
  have hcount : s.nrTasks = tasks.length + 1 := h.linked.count
  have hchildren : children s t = C t := hkin.children_eq hmem (by omega)
  unfold Process.wait4Scan
  split
  · exact h.move hacts hfork rfl rfl (fun _ => Pc.noConfusion) fun _ => Pc.noConfusion
  next p hscan =>
    obtain ⟨hp, hstate⟩ := scanChildren_zombie hscan
    rw [hchildren, hkin.mem] at hp
    refine ⟨tasks, ⟨{ h.linked with },
      h.placed.move hacts hfork rfl rfl fun _ => Pc.noConfusion, { h.booked with }⟩, ?_⟩
    intro hreap a q ha
    rcases update_eq_iff.mp ha with ⟨rfl, heq⟩ | ⟨-, ha⟩
    · cases heq
      exact ⟨hp.1, beq_iff_eq.mpr hstate, hp.2⟩
    · exact hreap a q ha
  · split
    · exact h.returns hacts hfork 0
    · split
      · exact h.returns hacts hfork (-512)
      · have hstate := h.state_ne (Pc.ne_gone hacts)
        exact h.quiet ((core_schedule _ _).trans (core_setMem rfl (by simp [hstate])))
  · exact h.returns hacts hfork (-10)

/-- A task gets another parent while its status is not being stored. -/
theorem Tree.relinkKeeps (h : Tree s.core tasks) (hp : p ∈ tasks) (parent : Nat)
    (hparent : (s.pc parent).acts = true) (hno : Reaping s.core tasks → ∀ a, s.pc a ≠ .reap p) :
    Keeps tasks s { s with links := Process.relink s.links p parent } := by
  refine ⟨tasks.erase p ++ [p], h.relink hp hparent, ?_⟩
  intro hreap a q ha
  obtain ⟨hq, hzombie, hpptr⟩ := hreap a q ha
  have hqp : q ≠ p := fun heq => hno hreap a (heq ▸ ha)
  refine ⟨mem_append_left _ ((mem_erase_of_ne hqp).mpr hq), hzombie, ?_⟩
  refine (congrFun (relink_parents s.links p parent).1 q).trans ?_
  rw [update_of_ne hqp]
  exact hpptr

/-- The slot of a task is found. -/
theorem Linked.find_slot (h : Linked s.core tasks) (hp : p ∈ tasks) :
    ∃ i, ((List.range' 1 (maxTasks - 1)).find? fun i => s.task i == some p) = some i ∧
      s.task i = some p := by
  obtain ⟨j, hj, hslot⟩ := (h.table p).mp (mem_cons_of_mem _ hp)
  have hj0 : j ≠ 0 := by
    intro heq
    obtain ⟨C, hkin⟩ := h.kin
    rw [heq, h.swapper] at hslot
    exact hkin.ne_initTask hp (some.inj hslot).symm
  have hfound : ((List.range' 1 (maxTasks - 1)).find?
      fun i => s.task i == some p).isSome = true := by
    rw [find?_isSome]
    refine ⟨j, ?_, beq_iff_eq.mpr hslot⟩
    rw [mem_range'_1]
    omega
  obtain ⟨i, hi⟩ := isSome_iff_exists.mp hfound
  have hslot' := find?_some hi
  exact ⟨i, hi, beq_iff_eq.mp hslot'⟩

theorem Tree.reaped (h : Tree s.core tasks) (hreap : Reaping s.core tasks)
    (hpc : s.pc t = .reap p) : Keeps tasks s (Process.reaped s t p) := by
  obtain ⟨hp, hzombie, hpptr⟩ := hreap t p hpc
  have hacts : (s.pc t).acts = true := hpc ▸ rfl
  have hfork : (s.pc t).noFork = true := hpc ▸ rfl
  have hgone : s.core.pc p = .gone := by
    by_contra hne
    exact Bool.false_ne_true (((h.placed.gone p).mp hne).2.symm.trans hzombie)
  have hpt : p ≠ t := by
    rintro rfl
    cases hpc.symm.trans hgone
  -- No other task stores the status of this zombie.
  have honly : ∀ a, s.pc a = .reap p → a = t := fun a ha => (hreap a p ha).2.2.symm.trans hpptr
  unfold Process.reaped
  split
  next hne =>
    -- The call returns, and the zombie goes back to its original parent.
    have hmoved : Tree (Process.setPc s t .user).core tasks := ⟨{ h.linked with },
      h.placed.move hacts hfork rfl rfl fun _ => Pc.noConfusion, { h.booked with }⟩
    have horig : ((Process.setPc s t .user).pc (s.links.pOpptr p)).acts = true :=
      acts_update rfl (h.placed.original p hp)
    have hno : ∀ a, (Process.setPc s t .user).pc a ≠ .reap p := by
      intro a ha
      rcases update_eq_iff.mp ha with ⟨-, ha⟩ | ⟨hat, ha⟩
      · cases ha
      · exact hat (honly a ha)
    obtain ⟨tasks', htree, hkeep⟩ := hmoved.relinkKeeps hp _ horig fun _ => hno
    have hkeeps : Keeps tasks s { Process.setPc s t .user with
        links := Process.relink s.links p (s.links.pOpptr p) } :=
      ⟨tasks', htree, fun hr => hkeep (Reaping.setPc hr fun _ => Pc.noConfusion)⟩
    exact hkeeps.congr (congrArg (fun c : Core => { c with pc := update c.pc t .user })
      (signals_notifyParent { s with links := Process.relink s.links p (s.links.pOpptr p) } p
        (s.mem p).exitSignal).core)
  next hsame =>
    obtain ⟨i, hfind, hslot⟩ := h.linked.find_slot hp
    refine h.unlink hp hslot hacts
      (by simp [hgone, Pc.acts]) ?_ ?_ (.inr ⟨hzombie, rfl⟩) (fun _ => honly) ?_
    · intro t' stage nr flags ht' hstage
      cases hgone.symm.trans (h.placed.fork t' stage p nr flags ht' hstage).2.1
    · intro q hq ho
      obtain ⟨stage, nr, flags, -, hf⟩ := h.placed.unborn_of hq ho
      cases hpc.symm.trans hf
    · unfold release
      rw [if_neg hpt, hfind]
      rfl

/-! ## `sys_ptrace` -/

theorem Linked.getTask_mem (h : Linked s.core tasks) (hget : getTask s pid = some p) :
    p ∈ tasks := by
  obtain ⟨i, hi, hslot⟩ := exists_of_findSome?_eq_some hget
  have hslot : s.task i = some p := (filter_eq_some_iff.mp hslot).1
  have hmem := (h.table p).mpr ⟨i, h.bound i p hslot, hslot⟩
  rcases mem_cons.mp hmem with rfl | hmem
  · have hi0 := h.slot i 0 initTask hslot h.swapper
    rw [hi0, mem_range'_1] at hi
    exact absurd hi.1 (by decide)
  · exact hmem

/-- No zombie is attached to while its status is being stored. -/
def NoLateAttach (s : State) : Action → Prop
  | .ptrace _ .attach pid _ =>
    ∀ child ∈ getTask s pid, ∀ a ∈ initTask :: forEachTask s, s.pc a ≠ .reap child
  | _ => True

theorem Tree.ptraceAttach (h : Tree s.core tasks) (hacts : (s.pc t).acts = true) (hp : p ∈ tasks)
    (hno : ∀ a, s.pc a ≠ .reap p) : Keeps tasks s (Process.ptraceAttach s t p).1 := by
  unfold Process.ptraceAttach
  split
  · exact h.quiet rfl
  · split
    · exact h.quiet rfl
    · split
      · exact h.quiet rfl
      · generalize hs1 : setMem s p { s.mem p with ptraced := true } = s1
        have hcore : s1.core = s.core := by
          rw [← hs1]
          exact core_setMem rfl rfl
        have hpc : s1.pc = s.pc := congrArg Core.pc hcore
        have hlinked : Keeps tasks s (if s1.links.pPptr p ≠ t then
            { s1 with links := Process.relink s1.links p t } else s1) := by
          split
          · rw [← hcore] at h
            obtain ⟨tasks', htree, hkeep⟩ := h.relinkKeeps hp t (by rwa [hpc]) fun _ => by rwa [hpc]
            rw [hcore] at hkeep
            exact ⟨tasks', htree, hkeep⟩
          · exact h.quiet hcore
        exact hlinked.congr (signals_sendSig _ _ _ _ _).core

theorem signals_ptraceResume (h : (s.mem p).state = .stopped) (data : Nat) (tracesys : Bool) :
    Signals s (ptraceResume s p data tracesys).1 := by
  unfold ptraceResume
  split
  · exact .refl s
  · exact .resume (by rfl) (by rfl) h

theorem core_ptraceKill (s : State) (p : Nat) : (ptraceKill s p).1.core = s.core := by
  unfold ptraceKill
  split
  · rfl
  next hstate => exact (core_setMem (by rfl) (by rfl)).trans (core_wakeUpProcess hstate)

theorem Tree.ptraceDetach (h : Tree s.core tasks) (hp : p ∈ tasks)
    (hstate : (s.mem p).state = .stopped) (data : Nat) :
    Keeps tasks s (Process.ptraceDetach s p data).1 := by
  unfold Process.ptraceDetach
  split
  · exact h.quiet rfl
  · dsimp only
    generalize hs1 : setMem (wakeUpProcess (setMem s p _) p) p _ = s1
    have hcore : s1.core = s.core := by
      rw [← hs1]
      refine (core_setMem (by rfl) (by rfl)).trans (Signals.core ?_)
      exact .resume (by rfl) (by rfl) hstate
    have hpc : s1.pc = s.pc := congrArg Core.pc hcore
    have hlinks : s1.links = s.links := congrArg Core.links hcore
    have horig := h.placed.original p hp
    rw [← hcore] at h
    obtain ⟨tasks', htree, hkeep⟩ := h.relinkKeeps hp (s1.links.pOpptr p)
      (by rw [hpc, hlinks]; exact horig) (by
        intro hreap a ha
        have hz := (hreap a p ha).2.1
        rw [hcore, show s.core.zombie p = ((s.mem p).state == .zombie) from rfl, hstate] at hz
        exact Bool.false_ne_true hz)
    rw [hcore] at hkeep
    exact ⟨tasks', htree, hkeep⟩

/-- What `sys_ptrace` comes down to. -/
theorem sysPtrace_rule {P : State → Prop} {request : Request} {data : Nat} (hquiet : P s)
    (htraceme : P (setMem s t { s.mem t with ptraced := true }))
    (hattach : ∀ child, getTask s pid = some child → request = .attach →
      P (ptraceAttach s t child).1)
    (hstopped : ∀ child, getTask s pid = some child → (s.mem child).state = .stopped →
      (∀ tracesys, P (ptraceResume s child data tracesys).1) ∧ P (ptraceDetach s child data).1)
    (hkill : ∀ child, getTask s pid = some child → request = .kill → P (ptraceKill s child).1) :
    P (Process.sysPtrace s t request pid data).1 := by
  unfold Process.sysPtrace
  cases hget : getTask s pid with
  | none => split_ifs <;> first | exact hquiet | exact htraceme
  | some child =>
    dsimp only
    split_ifs with _ _ _ hatt _ hstop
    any_goals first | exact hquiet | exact htraceme | exact hattach child hget hatt
    have hstate : request ≠ .kill → (s.mem child).state = .stopped := by
      intro hne
      by_contra hnot
      exact hstop ⟨hnot, hne⟩
    split
    · exact (hstopped child hget (hstate Request.noConfusion)).1 false
    · exact (hstopped child hget (hstate Request.noConfusion)).1 true
    · exact (hstopped child hget (hstate Request.noConfusion)).1 false
    · exact hkill child hget rfl
    · exact (hstopped child hget (hstate Request.noConfusion)).2
    · exact hquiet

theorem Tree.sysPtrace (h : Tree s.core tasks) (hacts : (s.pc t).acts = true) {request : Request}
    {data : Nat} (hno : request = .attach → ∀ child ∈ getTask s pid, ∀ a, s.pc a ≠ .reap child) :
    Keeps tasks s (Process.sysPtrace s t request pid data).1 := by
  refine sysPtrace_rule (h.quiet rfl) (h.quiet (core_setMem rfl rfl)) ?_ ?_ fun child _ _ =>
    h.quiet (core_ptraceKill s child)
  · exact fun child hget hattach =>
      h.ptraceAttach hacts (h.linked.getTask_mem hget) (hno hattach child hget)
  · exact fun child hget hstate => ⟨fun tracesys => h.quiet
      (signals_ptraceResume hstate data tracesys).core,
      h.ptraceDetach (h.linked.getTask_mem hget) hstate data⟩

/-! ## Every run -/

theorem Tree.stepTask (h : Tree s.core tasks) (hreap : Reaping s.core tasks) {a : Action}
    (hno : NoLateAttach s a) (hstep : Process.stepTask s t a = some s') : Keeps tasks s s' := by
  have hacts : s.pc t = .user → (s.pc t).acts = true := fun hpc => hpc ▸ rfl
  have hfork : s.pc t = .user → (s.pc t).noFork = true := fun hpc => hpc ▸ rfl
  have hstate : (s.pc t).acts = true → (s.mem t).state ≠ .zombie :=
    fun hact => h.state_ne (Pc.ne_gone hact)
  cases a with
  | fork _ flags mem =>
    obtain ⟨hpc, rfl⟩ := ite_some_none_eq_some.mp hstep
    exact h.doFork hpc.1 flags hpc.2
  | forkStack _ ok =>
    dsimp only [Process.stepTask] at hstep
    split at hstep
    next p nr flags hpc => exact h.forkStack hpc hstep
    · cases hstep
  | forkCopy _ mem =>
    dsimp only [Process.stepTask] at hstep
    split at hstep
    next stage p nr flags hpc => exact h.forkCopy hpc hstep
    · cases hstep
  | forkCleanup _ =>
    dsimp only [Process.stepTask] at hstep
    split at hstep
    next stage p nr flags hpc => exact h.forkCleanup hpc hstep
    · cases hstep
  | exit _ code =>
    obtain ⟨hpc, rfl⟩ := ite_some_none_eq_some.mp hstep
    exact h.move (hacts hpc.1) (hfork hpc.1) rfl rfl (fun _ _ => hpc.2) fun _ => Pc.noConfusion
  | exitNotify _ =>
    dsimp only [Process.stepTask] at hstep
    split at hstep
    next code hpc =>
      cases hstep
      exact h.exitKeeps hpc
    · cases hstep
  | wait4 _ pid options =>
    obtain ⟨hpc, rfl⟩ := ite_some_none_eq_some.mp hstep
    exact h.move (hacts hpc) (hfork hpc) rfl rfl (fun _ => Pc.noConfusion) fun _ => Pc.noConfusion
  | scan _ =>
    dsimp only [Process.stepTask] at hstep
    split at hstep
    next pid options hpc =>
      cases hstep
      exact h.wait4Scan hpc
    · cases hstep
  | stored _ =>
    dsimp only [Process.stepTask] at hstep
    split at hstep
    next p hpc =>
      cases hstep
      exact h.reaped hreap hpc
    next p hpc =>
      cases hstep
      have hret := h.returns (t := t) (by rw [hpc]; rfl) (by rw [hpc]; rfl) (s.mem p).pid
      have hset : (setMem s p { s.mem p with exitCode := 0 }).core = s.core := core_setMem rfl rfl
      exact hret.congr (congrArg (fun c : Core => { c with
        pc := update c.pc t .user }) hset)
    · cases hstep
  | ptrace _ request pid data =>
    obtain ⟨hpc, rfl⟩ := ite_some_none_eq_some.mp hstep
    refine (h.sysPtrace (hacts hpc) ?_).congr rfl
    intro hattach child hget a ha
    rw [hattach] at hno
    have hact : (s.pc a).acts = true := by
      rw [ha]
      rfl
    exact hno child hget a (h.linked.forEachTask_eq.symm ▸ h.placed.mem hact) ha
  | sendSig _ sig p priv =>
    obtain ⟨-, rfl⟩ := ite_some_none_eq_some.mp hstep
    exact h.quiet (signals_sendSig s t sig p priv).core
  | stop _ code notify =>
    obtain ⟨hpc, rfl⟩ := ite_some_none_eq_some.mp hstep
    have hset : (setMem s t { s.mem t with state := .stopped, exitCode := code }).core = s.core :=
      core_setMem rfl (by simp [hstate (hacts hpc.1)])
    refine h.quiet ((core_schedule _ _).trans ?_)
    exact (Signals.ite fun _ => signals_notifyParent _ _ _).core.trans hset
  | sleep _ interruptible =>
    obtain ⟨hpc, rfl⟩ := ite_some_none_eq_some.mp hstep
    refine h.quiet ((core_schedule _ _).trans (core_setMem rfl ?_))
    cases interruptible <;> simp [hstate hpc.1]
  | forceSig _ _ => cases hstep
  | wake _ => cases hstep

theorem Tree.step (h : Tree s.core tasks) (hreap : Reaping s.core tasks) {a : Action}
    (hno : NoLateAttach s a) (hstep : step s a = some s') : Keeps tasks s s' := by
  cases a with
  | forceSig sig p =>
    obtain ⟨-, rfl⟩ := ite_some_none_eq_some.mp hstep
    exact h.quiet (signals_forceSig s sig p).core
  | wake t =>
    obtain ⟨⟨-, hstate⟩, rfl⟩ := ite_some_none_eq_some.mp hstep
    refine h.quiet (core_wakeUpProcess ?_)
    rcases hstate with hstate | hstate
    · exact hstate.trans_ne TaskState.noConfusion
    · exact hstate.trans_ne TaskState.noConfusion
  | _ =>
    obtain ⟨-, hstep⟩ := ite_none_right_eq_some.mp hstep
    exact h.stepTask hreap hno hstep

theorem mem_first {a : Nat} : a ∈ initTask :: [1] ↔ a ≤ 1 := by
  rw [mem_cons, mem_singleton, initTask]
  omega

/-- The first process is the only child of the swapper. -/
theorem Initial.kin (h : Initial s) : Kin s.links [1] (· ∈ initTask :: [1]) (fun _ => none)
    (fun p => if p = initTask then [1] else []) := by
  have hchild : ∀ p x, x ∈ (if p = initTask then [1] else []) ↔ p = initTask ∧ x = 1 := by
    intro p x
    split_ifs with hp <;> simp [hp]
  refine ⟨?_, by decide, ⟨?_, fun p hp => ?_, fun p => ?_, fun p q x hp hq => ?_⟩, fun p q => ?_⟩
  · exact ⟨congrArg some h.nextTask.1, congrArg some h.prevTask.2, congrArg some h.nextTask.2,
      congrArg some h.prevTask.1⟩
  · intro p hp
    rcases Nat.le_one_iff_eq_zero_or_eq_one.mp (mem_first.mp hp) with rfl | rfl
    · exact ⟨some 1, h.pCptr.1, (h.siblings 1 le_rfl).1, rfl, (h.siblings 1 le_rfl).2⟩
    · exact ⟨none, rfl, h.pCptr.2⟩
  · exact if_neg fun (heq : p = initTask) => hp (heq ▸ mem_cons_self)
  · split_ifs <;> simp
  · rw [((hchild p x).mp hp).1, ((hchild q x).mp hq).1]
  · rw [hchild, mem_singleton, and_comm]
    refine and_congr_right fun hq => ?_
    rw [hq, (h.parents 1 le_rfl).1]
    exact eq_comm

theorem Initial.tree (h : Initial s) : Tree s.core [1] := by
  have hmem : ∀ a, a ∈ initTask :: [1] ↔ a ≤ 1 := fun a => mem_first
  have htask : ∀ i a, s.core.task i = some a ↔ i = a ∧ a ≤ 1 := by
    intro i a
    rw [show s.core.task i = _ from h.task i]
    split_ifs <;> simp [initTask] <;> omega
  have huser : ∀ a ≤ 1, s.core.pc a = .user := fun a ha => (h.pc a).trans (if_pos ha)
  -- Nobody is in a call.
  have hplace : ∀ a pc, s.core.pc a = pc → pc = .user ∨ pc = .gone := by
    intro a pc ha
    rw [← ha, show s.core.pc a = _ from h.pc a]
    split
    · exact .inl rfl
    · exact .inr rfl
  have hzombie : ∀ a ≤ 1, s.core.zombie a = false := fun a ha => by simp [State.core, h.state a ha]
  have hpid : ∀ a ≤ 1, s.core.pid a = a := by
    intro a ha
    rcases Nat.le_one_iff_eq_zero_or_eq_one.mp ha with rfl | rfl
    · exact h.pid.1
    · exact h.pid.2
  have hserial : ∀ a ≤ 1, s.core.serial a = a := fun a ha => (h.serial a ha).1
  have hexited : s.core.exited = [] := h.exited.1
  have hreleased : s.core.released = [] := h.exited.2
  have hparent : ∀ q ∈ [1], s.core.links.pPptr q = initTask ∧ s.core.links.pOpptr q = initTask :=
    fun q hq => h.parents q (mem_singleton.mp hq).le
  refine ⟨⟨⟨_, h.kin⟩, ?_, ?_, ?_, (htask 0 0).mpr (by simp),
    ⟨1, by simp, (htask 1 1).mpr (by simp)⟩,
    h.nrTasks⟩, ⟨?_, fun a ha => (h.live a).mpr ((hmem a).mp ha), ?_, ?_, ?_, ?_, ?_, ?_, ?_⟩,
    ⟨h.pid.1, ?_, ?_, ?_, ?_, by simp [hexited], by simp [hreleased, hexited], by simp [hreleased],
      h.panic⟩⟩
  · intro a
    simp only [hmem, htask]
    refine ⟨fun ha => ⟨a, ha.trans_lt (by decide), rfl, ha⟩, fun ⟨_, _, _, ha⟩ => ha⟩
  · intro i j a hi hj
    rw [((htask i a).mp hi).1, ((htask j a).mp hj).1]
  · intro i a hi
    obtain ⟨rfl, hle⟩ := (htask i a).mp hi
    exact hle.trans_lt (by decide)
  · intro a
    rw [hmem]
    by_cases ha : a ≤ 1
    · simp [huser a ha, hzombie a ha, ha]
    · simp [show s.core.pc a = _ from (h.pc a).trans (if_neg ha), ha]
  · intro p hp
    rw [huser p ((htask 1 p).mp hp).2]
    rfl
  · exact fun a code ha => (hplace a _ ha).elim nofun nofun
  · intro q hq
    rw [(hparent q hq).1, huser initTask (Nat.zero_le 1)]
    rfl
  · intro q hq
    rw [(hparent q hq).2, huser initTask (Nat.zero_le 1)]
    rfl
  · exact fun a stage p nr flags ha => (hplace a _ ha).elim nofun nofun
  · exact fun p hp => (hplace p _ hp).elim nofun nofun
  · exact fun a p nr flags ha => (hplace a _ ha).elim nofun nofun
  · intro a ha b hb heq
    rw [hpid a ((hmem a).mp ha), hpid b ((hmem b).mp hb)] at heq
    rw [heq]
  · intro a ha
    rw [hserial a ((hmem a).mp ha), show s.core.forks = 2 from h.forks]
    exact Nat.lt_succ_of_le ((hmem a).mp ha)
  · intro a ha b hb heq
    rwa [hserial a ((hmem a).mp ha), hserial b ((hmem b).mp hb)] at heq
  · intro a ha
    simp [hzombie a ((hmem a).mp ha), hexited]

theorem reachable_tree (h : (processes NoLateAttach).Reachable s) :
    ∃ tasks, Tree s.core tasks ∧ Reaping s.core tasks := by
  refine h.invariant (I := fun s => ∃ tasks, Tree s.core tasks ∧ Reaping s.core tasks) ?_ ?_
  · intro s h0
    refine ⟨[1], h0.tree, ?_⟩
    intro a p ha
    have hpc := h0.pc a
    rw [show s.pc a = .reap p from ha] at hpc
    split at hpc
    · cases hpc
    · cases hpc
  · rintro s s' ⟨tasks, htree, hreap⟩ ⟨a, hallowed, hstep⟩
    obtain ⟨tasks', htree', hkeep⟩ := htree.step hreap hallowed hstep
    exact ⟨tasks', htree', hkeep hreap⟩

/-- The ring of tasks is the table, the lists of children are the tasks by their parents, the
parents are in the table and have not exited, a pid is shared only with the task that got it
and those cloned from there with `CLONE_PID`, and what has exited is a zombie in the table or
has been released, once. -/
theorem process_tree (h : (processes NoLateAttach).Reachable s) :
    ∃ (tasks : List Nat) (C : Nat → List Nat),
      (Circle s.links.nextTask s.links.prevTask (initTask :: tasks) ∧ (initTask :: tasks).Nodup ∧
        (∀ a, a ∈ initTask :: tasks ↔ ∃ i < maxTasks, s.task i = some a) ∧
        s.nrTasks = (initTask :: tasks).length) ∧
      (∀ p ∈ initTask :: tasks,
        (∃ b, Row s.links.pYsptr s.links.pOsptr none (s.links.pCptr p) (C p) b none) ∧
        (C p).Nodup ∧ ∀ q, q ∈ C p ↔ q ∈ tasks ∧ s.links.pPptr q = p) ∧
      (∀ q ∈ tasks,
        (s.links.pPptr q ∈ initTask :: tasks ∧ (s.mem (s.links.pPptr q)).state ≠ .zombie) ∧
        s.links.pOpptr q ∈ initTask :: tasks ∧ (s.mem (s.links.pOpptr q)).state ≠ .zombie) ∧
      (∀ a ∈ initTask :: tasks, ∀ b ∈ initTask :: tasks, (s.mem a).pid = (s.mem b).pid →
        s.pidFrom a = s.pidFrom b) ∧
      (∀ a ∈ initTask :: tasks, (s.mem a).state = .zombie ↔ s.serial a ∈ s.exited) ∧
      (∀ n, n ∈ s.released ↔ n ∈ s.exited ∧ ∀ a ∈ initTask :: tasks, s.serial a ≠ n) ∧
      s.released.Nodup ∧ s.panic = false := by
  obtain ⟨tasks, htree, -⟩ := reachable_tree h
  obtain ⟨C, hkin⟩ := htree.linked.kin
  have hzombie : ∀ a, s.core.zombie a = true ↔ (s.mem a).state = .zombie := fun a => beq_iff_eq
  have hparent : ∀ a, (s.pc a).acts = true → a ∈ initTask :: tasks ∧ (s.mem a).state ≠ .zombie :=
    fun a ha => ⟨htree.placed.mem ha, htree.state_ne (Pc.ne_gone ha)⟩
  refine ⟨tasks, C, ⟨hkin.circle, hkin.nodup, htree.linked.table, htree.linked.count⟩, ?_, ?_,
    htree.booked.pids, ?_, htree.booked.released, htree.booked.once, htree.booked.panic⟩
  · intro p hp
    exact ⟨hkin.family.row p hp, hkin.family.nodup p, hkin.mem p⟩
  · intro q hq
    exact ⟨hparent _ (htree.placed.parent q hq), hparent _ (htree.placed.original q hq)⟩
  · intro a ha
    rw [← hzombie]
    exact htree.booked.exited a ha

end

/-! ## Runs -/

instance decidableNoLateAttach (s : State) (a : Action) : Decidable (NoLateAttach s a) := by
  cases a with
  | ptrace _ request pid _ =>
    cases request with
    | attach =>
      exact inferInstanceAs (Decidable (∀ child ∈ getTask s pid, ∀ a ∈ initTask :: forEachTask s,
        s.pc a ≠ .reap child))
    | _ => exact isTrue trivial
  | _ => exact isTrue trivial

/-- `init_task` and `init`, both of the superuser. -/
def boot : State where
  mem p :=
    { state := .running, ptraced := false, tracesys := false, signal := 0, blocked := 0
      sig := some 0, pid := p, pgrp := p, session := p, uid := 0, euid := 0, suid := 0, gid := 0
      egid := 0, sgid := 0, dumpable := true, exitSignal := 17, exitCode := 0, rlimNproc := 256 }
  live p := p ≤ 1
  links :=
    { nextTask := fun p => if p = 0 then 1 else 0
      prevTask := fun p => if p = 0 then 1 else 0
      pOpptr := fun _ => 0
      pPptr := fun _ => 0
      pCptr := fun p => if p = 0 then some 1 else none
      pYsptr := fun _ => none
      pOsptr := fun _ => none }
  task i := if i = 0 then some 0 else if i = 1 then some 1 else none
  nrTasks := 2
  lastPid := 1
  runQueue := [1]
  action _ _ := .dfl
  pc p := if p ≤ 1 then .user else .gone
  ret _ := 0
  panic := false
  forks := 2
  serial p := p
  pidFrom p := p
  exited := []
  released := []

theorem boot_reachable (allowed : State → Action → Prop) : (processes allowed).Reachable boot := by
  refine .init ⟨⟨rfl, rfl⟩, ⟨rfl, rfl⟩, fun _ _ => ⟨rfl, rfl⟩, ⟨rfl, rfl⟩, fun _ _ => ⟨rfl, rfl⟩,
    fun _ => rfl, ?_, rfl, fun _ _ => ⟨rfl, rfl⟩, ?_, ⟨rfl, rfl⟩, rfl, fun _ => rfl, rfl, rfl,
    fun _ _ => ⟨rfl, rfl⟩, ⟨rfl, rfl⟩⟩
  · exact fun p => decide_eq_true_iff
  · exact fun p => ⟨TaskState.noConfusion, TaskState.noConfusion⟩

/-- What `do_fork` shares, besides the signal at the exit of the child. -/
def forkFlags (pid : Bool) : CloneFlags := ⟨false, false, false, false, pid, 17⟩

/-- A fork that succeeds. -/
def forks (t p : Nat) (pid : Bool) : List Action :=
  [.fork t (forkFlags pid) (some p), .forkStack t true, .forkCopy t (some 0), .forkCopy t (some 0),
    .forkCopy t (some p), .forkCopy t (some 0)]

/-- A call of `sys_wait4` that finds a zombie. -/
def waits (t : Nat) : List Action := [.wait4 t (-1) ⟨false, false, false⟩, .scan t]

/-- A task exits. -/
def exits (t : Nat) : List Action := [.exit t 0, .exitNotify t]

/-- A child exits and is waited for, and another one shares the pid of its parent. -/
theorem process_tree_two :
    ∃ s tasks, (processes NoLateAttach).Reachable s ∧ s.exited = [2] ∧ s.released = [2] ∧
      (s.mem 3).pid = 1 ∧ (∀ a, a ∈ initTask :: tasks ↔ ∃ i < maxTasks, s.task i = some a) ∧
      (initTask :: tasks).length = 3 := by
  obtain ⟨s, hreach, hexited, hreleased, hpid, hnr⟩ := (boot_reachable _).folds (f := step)
    (g := NoLateAttach)
    (l := forks 1 2 false ++ exits 2 ++ waits 1 ++ [.stored 1] ++ forks 1 3 true)
    (p := fun s => s.exited = [2] ∧ s.released = [2] ∧ (s.mem 3).pid = 1 ∧ s.nrTasks = 3)
    (fun _ a _ hallowed hstep => ⟨a, hallowed, hstep⟩) (by decide +kernel)
  obtain ⟨tasks, C, ⟨-, -, htable, hcount⟩, -⟩ := process_tree hreach
  exact ⟨s, tasks, hreach, hexited, hreleased, hpid, htable, hcount.symm.trans hnr⟩

/-- `init` stores the status of a zombie when another task attaches to the zombie and begins
to store its status as well. `init` takes the zombie back and releases it, and then it is
released for a second time. -/
theorem released_twice :
    ∃ s, (processes fun _ _ => True).Reachable s ∧ s.exited = [3] ∧ s.released = [3] ∧
      s.panic = true := by
  exact (boot_reachable _).folds (f := step) (g := fun _ _ => True)
    (l := forks 1 2 false ++ forks 1 3 false ++ exits 3 ++ waits 1 ++ [.ptrace 2 .attach 3 0] ++
      waits 2 ++ [.stored 1] ++ waits 1 ++ [.stored 1, .stored 2])
    (fun _ a _ hg hstep => ⟨a, hg, hstep⟩) (by decide +kernel)

end Sbckernel.Kernel.Process
