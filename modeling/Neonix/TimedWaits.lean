import Neonix.Timers

/-! # Timers and sleeping tasks stay in step

    Each timer belongs to a sleeping task and each sleeping task has one timer,
    in the runs in which no signal wakes a sleeping task and no task sleeps for
    zero or for `2^31` milliseconds or more: `sys_kill` leaves the timer behind,
    and `task_block` adds no timer for a timeout that is not positive.

    `Tasks` is the part of the invariant that does not speak of the running
    task; `Tasks.map` is the one rule for the stores of a step. -/

namespace NeonixTimedWaits

open NeonixMachine NeonixTask NeonixTaskSpecs NeonixRuns NeonixLinkedList NeonixTimers
open NeonixProcesses hiding Event boot exec Enabled system

variable {P P' : Nat → Option Proc} {waiters timers : List Nat}

/-- The task sleeps. -/
def Asleep (P : Nat → Option Proc) (i : Nat) : Prop := ∃ p, P i = some p ∧ p.state = .sleeping

/-- The timers are those of the sleeping tasks, one each. -/
structure Paired (P : Nat → Option Proc) (timers : List Nat) : Prop where
  once : timers.Nodup
  asleep : ∀ i, i ∈ timers ↔ Asleep P i

/-- The timers are in step with the sleeping tasks; a task that sleeps is on the
    sleep list, a wake-up source points at a blocked task only, and the idle
    task never blocks. -/
structure Tasks (P : Nat → Option Proc) (waiters timers : List Nat) : Prop where
  paired : Paired P timers
  node : ∀ i p, P i = some p → p.state = .sleeping → p.node = some .sleepList
  pointed : ∀ i ∈ waiters, ∃ p, P i = some p ∧ p.state = .blocked ∧ p.node = some .blockList
  pointedOnce : waiters.Nodup
  idle : ∀ p, P idle_task = some p → p.state = .running ∨ p.state = .ready

/-- The running task neither sleeps nor is blocked. -/
def Awake (P : Nat → Option Proc) (i : Nat) : Prop :=
  ∀ p, P i = some p → p.state ≠ .sleeping ∧ p.state ≠ .blocked

/-- A store to the tasks that puts none to sleep, wakes none of the sleeping and
    leaves those alone a wake-up source points at. -/
theorem Tasks.map {f : Nat → Proc → Proc} (h : Tasks P waiters timers)
    (hP : ∀ j, P' j = (P j).map (f j))
    (hsleep : ∀ j q, P j = some q → ((f j q).state = .sleeping ↔ q.state = .sleeping))
    (hnode : ∀ j q, P j = some q → q.state = .sleeping → (f j q).node = q.node)
    (hpointed : ∀ j ∈ waiters, ∀ q, P j = some q →
      (f j q).state = q.state ∧ (f j q).node = q.node)
    (hidle : ∀ q, P idle_task = some q → q.state = .running ∨ q.state = .ready →
      (f idle_task q).state = .running ∨ (f idle_task q).state = .ready) :
    Tasks P' waiters timers := by
  have hback : ∀ {i p}, P' i = some p → ∃ q, P i = some q ∧ f i q = p := by
    intro i p hp
    rw [hP] at hp
    exact Option.map_eq_some_iff.mp hp
  constructor
  · refine ⟨h.paired.once, ?_⟩
    intro i
    rw [h.paired.asleep]
    constructor
    · rintro ⟨q, hq, hs⟩
      exact ⟨f i q, by rw [hP, hq]; rfl, (hsleep i q hq).mpr hs⟩
    · rintro ⟨p, hp, hs⟩
      obtain ⟨q, hq, rfl⟩ := hback hp
      exact ⟨q, hq, (hsleep i q hq).mp hs⟩
  · intro i p hp hs
    obtain ⟨q, hq, rfl⟩ := hback hp
    have hqs := (hsleep i q hq).mp hs
    rw [hnode i q hq hqs]
    exact h.node i q hq hqs
  · intro i hi
    obtain ⟨q, hq, hs, hn⟩ := h.pointed i hi
    obtain ⟨hfs, hfn⟩ := hpointed i hi q hq
    exact ⟨f i q, by rw [hP, hq]; rfl, hfs.trans hs, hfn.trans hn⟩
  · exact h.pointedOnce
  · intro p hp
    obtain ⟨q, hq, rfl⟩ := hback hp
    exact hidle q hq (h.idle q hq)

/-- No wake-up source points at the running task. -/
theorem Tasks.notPointed {i : Nat} (h : Tasks P waiters timers) (ha : Awake P i) : i ∉ waiters := by
  intro hi
  obtain ⟨p, hp, hs, -⟩ := h.pointed i hi
  exact (ha p hp).2 hs

/-- The running task does not sleep. -/
theorem Awake.notAsleep {i : Nat} (ha : Awake P i) : ¬ Asleep P i := by
  rintro ⟨p, hp, hs⟩
  exact (ha p hp).1 hs

/-- The task `schedule` picks is neither asleep nor pointed at. -/
theorem Tasks.picked {s : Sched} (h : Tasks s.proc waiters timers) (policy : Policy) :
    ∀ p, s.proc (policy.pick s) = some p → p.state = .running ∨ p.state = .ready := by
  intro p hp
  rcases canPick_proc (policy.canPick s) with ⟨-, -, q, hq, hs⟩ | hidle
  · rw [hp] at hq
    rw [Option.some.inj hq]
    exact Or.inr hs
  · rw [hidle] at hp
    exact h.idle p hp

/-- A switch. -/
theorem Tasks.pick {s : Sched} (h : Tasks s.proc waiters timers) (policy : Policy) :
    Tasks (schedule s policy).proc waiters timers ∧
      Awake (schedule s policy).proc (schedule s policy).current := by
  refine ⟨h.map (proc_schedule policy) ?_ (fun _ _ _ _ => rfl) ?_ ?_, ?_⟩
  · intro j q hq
    dsimp only
    split_ifs with hj hc
    · subst hj
      refine iff_of_false nofun fun hs => ?_
      rcases h.picked policy q hq with hr | hr
      · rw [hs] at hr
        cases hr
      · rw [hs] at hr
        cases hr
    · exact iff_of_false nofun fun hs => by rw [hc.2] at hs; cases hs
    · rfl
  · intro j hj q hq
    obtain ⟨q', hq', hs, -⟩ := h.pointed j hj
    rw [hq] at hq'
    obtain rfl := Option.some.inj hq'
    refine ⟨?_, rfl⟩
    dsimp only
    split_ifs with hp hc
    · subst hp
      rcases h.picked policy q hq with hr | hr
      · rw [hs] at hr
        cases hr
      · rw [hs] at hr
        cases hr
    · rw [hc.2] at hs
      cases hs
    · rfl
  · intro q _ hi
    dsimp only
    split_ifs
    · exact Or.inl rfl
    · exact Or.inr rfl
    · exact hi
  · intro p hp
    rw [proc_schedule, schedule_current] at hp
    obtain ⟨q, -, rfl⟩ := Option.map_eq_some_iff.mp hp
    dsimp only
    rw [if_pos rfl]
    exact ⟨nofun, nofun⟩

/-- Fewer wake-up sources. -/
theorem Tasks.fewer {waiters' : List Nat} (h : Tasks P waiters timers)
    (hsub : waiters'.Sublist waiters) : Tasks P waiters' timers :=
  { h with
    pointed := fun i hi => h.pointed i (hsub.subset hi)
    pointedOnce := h.pointedOnce.sublist hsub }

/-- A wake-up of a task that does not sleep and that no source points at any more. -/
theorem Tasks.woken {s k : Sched} {i : Nat} {r : Int} (h : Tasks s.proc waiters timers)
    (hw : Wakes s k i r) (hi : ¬ Asleep s.proc i) (hn : i ∉ waiters) :
    Tasks k.proc waiters timers := by
  refine h.map hw.proc ?_ ?_ ?_ ?_
  · intro j q hq
    split_ifs with hj
    · subst hj
      exact iff_of_false nofun fun hs => hi ⟨q, hq, hs⟩
    · rfl
  · intro j q hq hs
    split_ifs with hj
    · subst hj
      exact absurd ⟨q, hq, hs⟩ hi
    · rfl
  · intro j hj q _
    rw [if_neg]
    · exact ⟨rfl, rfl⟩
    · rintro rfl
      exact hn hj
  · intro q _ hr
    split_ifs
    · exact Or.inr rfl
    · exact hr

theorem Awake.woken {s k : Sched} {i c : Nat} {r : Int} (ha : Awake s.proc c)
    (hw : Wakes s k i r) : Awake k.proc c := by
  intro p hp
  rw [hw.proc] at hp
  obtain ⟨q, hq, rfl⟩ := Option.map_eq_some_iff.mp hp
  split_ifs
  · exact ⟨nofun, nofun⟩
  · exact ha q hq

/-- A timer fires: its task wakes, and the timer is gone. -/
theorem Tasks.fired {s k : Sched} {i : Nat} {r : Int} (h : Tasks s.proc waiters (i :: timers))
    (hw : Wakes s k i r) : Tasks k.proc waiters timers := by
  obtain ⟨hnot, honce⟩ := List.nodup_cons.mp h.paired.once
  obtain ⟨p, hp, hs⟩ := (h.paired.asleep i).mp List.mem_cons_self
  have hnw : i ∉ waiters := by
    intro hi
    obtain ⟨q, hq, hqs, -⟩ := h.pointed i hi
    rw [hp] at hq
    rw [← Option.some.inj hq, hs] at hqs
    cases hqs
  have hother : ∀ {j}, j ≠ i → k.proc j = s.proc j := by
    intro j hj
    rw [hw.proc]
    cases s.proc j with
    | none => rfl
    | some q => rw [Option.map_some, if_neg hj]
  have hself : k.proc i = some { p with node := none, status := r, state := .ready } := by
    rw [hw.proc, hp, Option.map_some, if_pos rfl]
  have hasleep : ∀ {j}, Asleep k.proc j → j ≠ i := by
    rintro j ⟨q, hq, hqs⟩ rfl
    rw [hself] at hq
    rw [← Option.some.inj hq] at hqs
    cases hqs
  constructor
  · refine ⟨honce, ?_⟩
    intro j
    constructor
    · intro hj
      have hji : j ≠ i := by
        rintro rfl
        exact hnot hj
      rw [Asleep, hother hji]
      exact (h.paired.asleep j).mp (List.mem_cons_of_mem _ hj)
    · intro ha
      have hji := hasleep ha
      rw [Asleep, hother hji] at ha
      exact (List.mem_cons.mp ((h.paired.asleep j).mpr ha)).resolve_left hji
  · intro j q hq hqs
    rw [hother (hasleep ⟨q, hq, hqs⟩)] at hq
    exact h.node j q hq hqs
  · intro j hj
    rw [hother (fun heq => hnw (heq ▸ hj))]
    exact h.pointed j hj
  · exact h.pointedOnce
  · intro q hq
    by_cases hi : idle_task = i
    · rw [hi, hself] at hq
      rw [← Option.some.inj hq]
      exact Or.inr rfl
    · rw [hother hi] at hq
      exact h.idle q hq

/-- `timer_wakeup` wakes tasks that sleep, each with its timer, and touches no
    other. -/
theorem timerWakeup_tasks {j : BitVec 32} {list list' : List Timer} {s k : Sched} {c : Nat}
    (he : timerWakeup j list s = .ok (list', k))
    (h : Tasks s.proc waiters (list.map Timer.task)) (ha : Awake s.proc c) :
    Tasks k.proc waiters (list'.map Timer.task) ∧ Awake k.proc c ∧ k.current = s.current ∧
      k.waiters = s.waiters ∧ ∀ i p, s.proc i = some p → p.state ≠ .sleeping →
      k.proc i = some p := by
  induction list generalizing s with
  | nil =>
      rw [timerWakeup] at he
      split at he
      · cases he
      · obtain ⟨rfl, rfl⟩ := Prod.mk.inj (Except.ok.inj he)
        exact ⟨h, ha, rfl, rfl, fun i p hp _ => hp⟩
  | cons timer rest ih =>
      rw [timerWakeup] at he
      split at he
      · have hw : Wakes s (defaultTimeout s timer) timer.task (-ETIME) := wakes_taskUnblock _ _
        have hasleep : Asleep s.proc timer.task :=
          (h.paired.asleep timer.task).mp List.mem_cons_self
        obtain ⟨ht, haw, hcur, hwait, hkeep⟩ := ih he (h.fired hw) (ha.woken hw)
        refine ⟨ht, haw, hcur.trans hw.current, hwait, ?_⟩
        intro i p hp hs
        refine hkeep i p ?_ hs
        have hi : i ≠ timer.task := by
          rintro rfl
          obtain ⟨q, hq, hqs⟩ := hasleep
          rw [hp] at hq
          rw [Option.some.inj hq] at hs
          exact hs hqs
        rw [hw.proc, hp, Option.map_some, if_neg hi]
      · obtain ⟨rfl, rfl⟩ := Prod.mk.inj (Except.ok.inj he)
        exact ⟨h, ha, rfl, rfl, fun i p hp _ => hp⟩

/-! ## Stores to the running task -/

section Put

variable {c : Nat} {g : Proc → Proc}

theorem asleep_put (hP : ∀ j, P' j = (P j).map fun p => if j = c then g p else p) (j : Nat) :
    Asleep P' j ↔ if j = c then ∃ p, P c = some p ∧ (g p).state = .sleeping else Asleep P j := by
  by_cases hj : j = c
  · subst hj
    rw [if_pos rfl, Asleep, hP]
    constructor
    · rintro ⟨q, hq, hs⟩
      obtain ⟨p, hp, rfl⟩ := Option.map_eq_some_iff.mp hq
      rw [if_pos rfl] at hs
      exact ⟨p, hp, hs⟩
    · rintro ⟨p, hp, hs⟩
      refine ⟨g p, ?_, hs⟩
      rw [hp, Option.map_some, if_pos rfl]
  · have hsame : P' j = P j := by
      rw [hP]
      cases P j with
      | none => rfl
      | some q => rw [Option.map_some, if_neg hj]
    rw [if_neg hj, Asleep, hsame, Asleep]

/-- The running task is stored to and does not go to sleep. -/
theorem Paired.put (h : Paired P timers) (ha : Awake P c)
    (hP : ∀ j, P' j = (P j).map fun p => if j = c then g p else p)
    (hg : ∀ p, P c = some p → (g p).state ≠ .sleeping) : Paired P' timers := by
  refine ⟨h.once, ?_⟩
  intro j
  rw [h.asleep, asleep_put hP]
  by_cases hj : j = c
  · subst hj
    rw [if_pos rfl]
    exact iff_of_false ha.notAsleep fun ⟨p, hp, hs⟩ => hg p hp hs
  · rw [if_neg hj]

/-- The running task goes to sleep and has a timer. -/
theorem Paired.sleep (h : Paired P timers) (ha : Awake P c)
    (hP : ∀ j, P' j = (P j).map fun p => if j = c then g p else p)
    (hg : ∃ p, P c = some p ∧ (g p).state = .sleeping) : Paired P' (c :: timers) := by
  constructor
  · exact List.nodup_cons.mpr ⟨fun hc => ha.notAsleep ((h.asleep c).mp hc), h.once⟩
  · intro j
    rw [List.mem_cons, h.asleep, asleep_put hP]
    by_cases hj : j = c
    · rw [if_pos hj]
      exact iff_of_true (Or.inl hj) hg
    · rw [if_neg hj]
      exact or_iff_right hj

/-- The rest of the invariant after a store to the running task. -/
theorem Tasks.put {timers' : List Nat} (h : Tasks P waiters timers) (ha : Awake P c)
    (hc : c ≠ idle_task) (hP : ∀ j, P' j = (P j).map fun p => if j = c then g p else p)
    (hg : ∀ p, P c = some p → (g p).state = .sleeping → (g p).node = some .sleepList)
    (hpaired : Paired P' timers') : Tasks P' waiters timers' := by
  have hother : ∀ {j}, j ≠ c → P' j = P j := by
    intro j hj
    rw [hP]
    cases P j with
    | none => rfl
    | some q => rw [Option.map_some, if_neg hj]
  constructor
  · exact hpaired
  · intro j q hq hs
    by_cases hj : j = c
    · subst hj
      rw [hP] at hq
      obtain ⟨p, hp, rfl⟩ := Option.map_eq_some_iff.mp hq
      rw [if_pos rfl] at hs ⊢
      exact hg p hp hs
    · rw [hother hj] at hq
      exact h.node j q hq hs
  · intro j hj
    rw [hother]
    · exact h.pointed j hj
    · rintro rfl
      exact h.notPointed ha hj
  · exact h.pointedOnce
  · intro q hq
    rw [hother (Ne.symm hc)] at hq
    exact h.idle q hq

end Put

/-- A wake-up source takes note of a task that blocks. -/
theorem Tasks.point {c : Nat} {p : Proc} (h : Tasks P waiters timers) (hc : c ∉ waiters)
    (hp : P c = some p) (hs : p.state = .blocked) (hn : p.node = some .blockList) :
    Tasks P (c :: waiters) timers := by
  refine { h with pointed := ?_, pointedOnce := List.nodup_cons.mpr ⟨hc, h.pointedOnce⟩ }
  intro i hi
  rcases List.mem_cons.mp hi with rfl | hi
  · exact ⟨p, hp, hs, hn⟩
  · exact h.pointed i hi

/-- The timers of the sleeping tasks, and a running task that is awake. -/
structure Timed (s : State) (timers : List Nat) : Prop where
  tasks : Tasks s.proc s.sched.waiters timers
  awake : Awake s.proc s.current

variable {s : State}

/-- A step that ends with a switch. -/
theorem Tasks.switched {k : Sched} (h : Tasks k.proc k.waiters timers) (obs : List Obs)
    (policy : Policy) : Timed (s.switched obs (schedule k policy)) timers := by
  obtain ⟨htasks, hawake⟩ := h.pick policy
  exact ⟨htasks, hawake⟩

/-- The running task blocks, on something other than the sleep list. -/
theorem Timed.block {k s' : Sched} {list : WaitList} {state : TaskState} {policy : Policy}
    (h : Timed s timers) (hc : s.current ≠ idle_task) (hstate : state ≠ .sleeping)
    (hpoint : k = s.sched ∨ k = { s.sched with waiters := s.current :: s.sched.waiters } ∧
      list = .blockList ∧ state = .blocked)
    (hb : taskBlock k list state policy = .ok s') : Timed (s.switched [] s') timers := by
  obtain ⟨m, rfl, ⟨p, hp, -⟩, -, hmw, -, hm⟩ := taskBlock_spec hb
  have hkproc : k.proc = s.proc ∧ k.current = s.current := by
    rcases hpoint with rfl | ⟨rfl, -⟩
    · exact ⟨rfl, rfl⟩
    · exact ⟨rfl, rfl⟩
  rw [hkproc.1, hkproc.2] at hp
  have hm' : ∀ j, m.proc j = (s.proc j).map fun p =>
      if j = s.current then { p with node := some list, state := state } else p := by
    intro j
    rw [hm, hkproc.1, hkproc.2]
  have hput : Tasks m.proc s.sched.waiters timers :=
    h.tasks.put h.awake hc hm' (fun _ _ hs => absurd hs hstate)
      (h.tasks.paired.put h.awake hm' fun _ _ => hstate)
  have htasks : Tasks m.proc m.waiters timers := by
    rw [hmw]
    rcases hpoint with rfl | ⟨rfl, rfl, rfl⟩
    · exact hput
    · refine hput.point (h.tasks.notPointed h.awake) (p := { p with node := _, state := _ }) ?_ rfl rfl
      rw [hm', hp, Option.map_some, if_pos rfl]
  exact htasks.switched [] policy

/-- `task_exit` up to its clean-up. -/
theorem Timed.exitMark {k : Sched} {status : Int} (h : Timed s timers) (hc : s.current ≠ idle_task)
    (he : exitMark s.sched status = .ok k) (log : List Obs) :
    Timed { sched := k, log := log } timers ∧ s.current ∉ timers := by
  obtain ⟨p, -, -, -, hkc, hkw, -, hproc⟩ := exitMark_spec he
  refine ⟨⟨?_, ?_⟩, fun hmem => h.awake.notAsleep ((h.tasks.paired.asleep _).mp hmem)⟩
  · show Tasks k.proc k.waiters timers
    rw [hkw]
    exact h.tasks.put h.awake hc hproc (fun _ _ hs => nomatch hs)
      (h.tasks.paired.put h.awake hproc fun _ _ => nofun)
  · intro q hq
    change k.proc k.current = some q at hq
    rw [hkc, hproc] at hq
    obtain ⟨r, -, rfl⟩ := Option.map_eq_some_iff.mp hq
    rw [if_pos rfl]
    exact ⟨nofun, nofun⟩

/-- The end of `task_exit` wakes a waiting task only. -/
theorem Timed.exitFinish {k : Sched} {policy : Policy} (h : Timed s timers)
    (he : exitFinish s.sched policy = .ok k) (obs : List Obs) :
    Timed (s.switched obs k) timers := by
  obtain ⟨p, m, rfl, -, -, hmw, -, hm⟩ := exitFinish_spec he
  have hcases : ∀ j q,
      (wakeProc p j (reparentProc p j q)).state = q.state ∧
        (wakeProc p j (reparentProc p j q)).node = q.node ∨
      (wakeProc p j (reparentProc p j q)).state = .ready ∧ q.state = .waiting := by
    intro j q
    simp only [wakeProc, reparentProc]
    split_ifs with h1 h2 h3
    · exact Or.inr ⟨rfl, h2.2.1⟩
    · exact Or.inl ⟨rfl, rfl⟩
    · exact Or.inr ⟨rfl, h3.2.1⟩
    · exact Or.inl ⟨rfl, rfl⟩
  have htasks : Tasks m.proc m.waiters timers := by
    rw [hmw]
    refine h.tasks.map hm ?_ ?_ ?_ ?_
    · intro j q _
      rcases hcases j q with ⟨hs, -⟩ | ⟨hs, hq⟩
      · rw [hs]
      · rw [hs, hq]
        exact iff_of_false (by rintro ⟨⟩) (by rintro ⟨⟩)
    · intro j q _ hs
      rcases hcases j q with ⟨-, hn⟩ | ⟨-, hq⟩
      · exact hn
      · rw [hs] at hq
        cases hq
    · intro j hj q hq
      rcases hcases j q with hsame | ⟨-, hw⟩
      · exact hsame
      · obtain ⟨q', hq', hs, -⟩ := h.tasks.pointed j hj
        rw [show s.proc j = some q from hq] at hq'
        rw [← Option.some.inj hq', hw] at hs
        cases hs
    · intro q _ hr
      rcases hcases idle_task q with ⟨hs, -⟩ | ⟨hs, -⟩
      · rw [hs]
        exact hr
      · exact Or.inr hs
  exact htasks.switched obs policy

/-- A child is ready. -/
theorem Timed.fork {k : Sched} {c : Nat} (h : Timed s timers) (hf : taskFork s.sched = .ok (c, k))
    (log : List Obs) : Timed { sched := k, log := log } timers := by
  obtain ⟨p, hp, -, -, hfree, -, hkc, hkw, -, hproc⟩ := taskFork_spec hf
  have hfree : s.proc c = none := hfree
  have hother : ∀ {j q}, s.proc j = some q → j ≠ c := by
    rintro j q hq rfl
    rw [hfree] at hq
    cases hq
  have hkeep : ∀ {j q}, s.proc j = some q → k.proc j = some q := by
    intro j q hq
    rw [hproc, if_neg (hother hq)]
    exact hq
  have hback : ∀ {j q}, k.proc j = some q → q.state = .ready ∨ s.proc j = some q := by
    intro j q hq
    rw [hproc] at hq
    split_ifs at hq
    · rw [← Option.some.inj hq]
      exact Or.inl rfl
    · exact Or.inr hq
  refine ⟨⟨⟨h.tasks.paired.once, ?_⟩, ?_, ?_, ?_, ?_⟩, ?_⟩
  · intro i
    rw [h.tasks.paired.asleep]
    constructor
    · rintro ⟨q, hq, hs⟩
      exact ⟨q, hkeep hq, hs⟩
    · rintro ⟨q, hq, hs⟩
      rcases hback hq with hr | hq
      · rw [hs] at hr
        cases hr
      · exact ⟨q, hq, hs⟩
  · intro i q hq hs
    rcases hback hq with hr | hq
    · rw [hs] at hr
      cases hr
    · exact h.tasks.node i q hq hs
  · intro i hi
    change i ∈ k.waiters at hi
    rw [hkw] at hi
    obtain ⟨q, hq, hs⟩ := h.tasks.pointed i hi
    exact ⟨q, hkeep hq, hs⟩
  · show k.waiters.Nodup
    rw [hkw]
    exact h.tasks.pointedOnce
  · intro q hq
    rcases hback hq with hr | hq
    · exact Or.inr hr
    · exact h.tasks.idle q hq
  · intro q hq
    change k.proc k.current = some q at hq
    rw [hkc] at hq
    rw [hkeep (show s.proc s.sched.current = some p from hp)] at hq
    exact h.awake q ((show s.proc s.sched.current = some p from hp).trans hq)

/-- The slot of a dead task is emptied. -/
theorem Tasks.clear {i : Nat} {q : Proc} (h : Tasks P waiters timers) (hq : P i = some q)
    (hs : q.state = .died) (hP : ∀ j, P' j = if j = i then none else P j) :
    Tasks P' waiters timers := by
  have hback : ∀ {j p}, P' j = some p → P j = some p := by
    intro j p hp
    rw [hP] at hp
    split_ifs at hp
    exact hp
  have hkeep : ∀ {j p}, P j = some p → p.state ≠ .died → P' j = some p := by
    intro j p hp hne
    rw [hP, if_neg]
    · exact hp
    · rintro rfl
      rw [hq] at hp
      rw [← Option.some.inj hp] at hne
      exact hne hs
  constructor
  · refine ⟨h.paired.once, ?_⟩
    intro j
    rw [h.paired.asleep]
    constructor
    · rintro ⟨p, hp, hps⟩
      exact ⟨p, hkeep hp (by rw [hps]; exact nofun), hps⟩
    · rintro ⟨p, hp, hps⟩
      exact ⟨p, hback hp, hps⟩
  · intro j p hp hps
    exact h.node j p (hback hp) hps
  · intro j hj
    obtain ⟨p, hp, hps, hn⟩ := h.pointed j hj
    exact ⟨p, hkeep hp (by rw [hps]; exact nofun), hps, hn⟩
  · exact h.pointedOnce
  · intro p hp
    exact h.idle p (hback hp)

/-- One turn of the loop of `task_waitpid`. -/
theorem Timed.waitpidTurn {s' : State} {pid : Int} {policy : Policy} (h : Timed s timers)
    (hc : s.current ≠ idle_task) (hw : waitpidTurn s pid policy = .ok s') : Timed s' timers := by
  obtain ⟨task, -, hw⟩ := bind_eq_ok hw
  have hid : ∀ {g : Proc → Proc}, (∀ p, (g p).state = p.state ∧ (g p).node = p.node) →
      ∀ {k : Sched}, k.waiters = s.sched.waiters → k.current = s.current →
      (∀ j, k.proc j = (s.proc j).map fun p => if j = s.current then g p else p) →
      Timed { s with sched := k } timers := by
    intro g hg k hkw hkc hproc
    refine ⟨?_, ?_⟩
    · show Tasks k.proc k.waiters timers
      rw [hkw]
      refine h.tasks.put h.awake hc hproc ?_ (h.tasks.paired.put h.awake hproc ?_)
      · intro p hp hs
        rw [(hg p).2]
        exact h.tasks.node _ p hp ((hg p).1.symm.trans hs)
      · intro p hp hs
        exact h.awake.notAsleep ⟨p, hp, (hg p).1.symm.trans hs⟩
    · intro q hq
      change k.proc k.current = some q at hq
      rw [hkc, hproc] at hq
      obtain ⟨p, hp, rfl⟩ := Option.map_eq_some_iff.mp hq
      rw [if_pos rfl, (hg p).1]
      exact h.awake p hp
  have hret : Timed { s with sched := returnUser s.sched } timers :=
    hid (g := fun p => { p with pc := .user }) (fun _ => ⟨rfl, rfl⟩) rfl rfl
      (proc_returnUser s.sched)
  cases hscan : waitScan s.sched task.toProc pid with
  | noChild =>
      rw [hscan] at hw
      rw [← Except.ok.inj hw]
      exact hret
  | reap i child =>
      rw [hscan] at hw
      rw [← Except.ok.inj hw]
      have hchild := (waitScan_reap hscan).1
      have hdied := (waitScan_reap hscan).2.2
      obtain ⟨q, hq, hqs⟩ : ∃ q, (returnUser s.sched).proc i = some q ∧ q.state = .died := by
        rw [proc_returnUser, hchild, Option.map_some]
        refine ⟨_, rfl, ?_⟩
        split_ifs
        · exact hdied
        · exact hdied
      refine ⟨hret.tasks.clear hq hqs (proc_clearSlot _ i), ?_⟩
      intro p hp
      change (clearSlot (returnUser s.sched) i).proc s.current = some p at hp
      rw [proc_clearSlot] at hp
      split_ifs at hp
      exact hret.awake p hp
  | block =>
      rw [hscan] at hw
      obtain ⟨k, hb, hw⟩ := bind_eq_ok hw
      rw [← Except.ok.inj hw]
      have hset := hid (g := fun p => { p with waitpid := pid, pc := .inWaitpid pid })
        (fun _ => ⟨rfl, rfl⟩) rfl rfl (k := s.sched.modify s.current fun t =>
          { t with waitpid := pid, pc := .inWaitpid pid })
        (proc_modify (fun p => { p with waitpid := pid, pc := .inWaitpid pid }) fun _ => rfl)
      have hne : TaskState.waiting ≠ .sleeping := nofun
      exact hset.block hc hne (Or.inl rfl) hb

/-! ## Signals -/

/-- The signal may be sent to the task, and the task sleeps. -/
def SignalledAsleep (sig : Nat) : Option Proc → Prop
  | none => False
  | some p => MINSIG ≤ sig ∧ sig ≤ MAXSIG ∧ p.uid ≠ KERNEL_USER ∧ p.pid ≠ 1 ∧ p.state = .sleeping

instance (sig : Nat) : (p : Option Proc) → Decidable (SignalledAsleep sig p)
  | none => inferInstanceAs (Decidable False)
  | some _ => inferInstanceAs (Decidable (_ ∧ _))

/-- `sys_kill` finds its target asleep and wakes it. -/
def WakesSleeper (s : Sched) (pid sig : Nat) : Prop :=
  SignalledAsleep sig ((getTask s pid).bind s.proc)

instance (s : Sched) (pid sig : Nat) : Decidable (WakesSleeper s pid sig) :=
  inferInstanceAs (Decidable (SignalledAsleep _ _))

/-- `sys_kill` wakes nobody, a waiting task, or a sleeping one. -/
theorem sysKill_cases (s : Sched) (pid sig : Nat) :
    (SameProcs s (sysKill s pid sig) ∧ ¬ WakesSleeper s pid sig) ∨
      ∃ i p, s.proc i = some p ∧ Wakes s (sysKill s pid sig) i (-EINTR) ∧
        (p.state = .waiting ∧ ¬ WakesSleeper s pid sig ∨
          p.state = .sleeping ∧ WakesSleeper s pid sig) := by
  have hsame : SameProcs s s := ⟨fun _ => rfl, rfl, rfl, rfl⟩
  rw [sysKill, WakesSleeper]
  by_cases hsig : sig < MINSIG ∨ sig > MAXSIG
  · rw [if_pos hsig]
    refine Or.inl ⟨hsame, ?_⟩
    cases (getTask s pid).bind s.proc with
    | none => exact id
    | some p =>
      rintro ⟨hmin, hmax, -⟩
      rcases hsig with h | h
      · exact absurd hmin (Nat.not_le.mpr h)
      · exact absurd hmax (Nat.not_le.mpr h)
  rw [if_neg hsig]
  cases hg : getTask s pid with
  | none => exact Or.inl ⟨hsame, id⟩
  | some i =>
      dsimp only
      rw [Option.bind_some]
      cases ht : s.task_table i with
      | none =>
          rw [show s.proc i = none by rw [Sched.proc, ht]; rfl]
          exact Or.inl ⟨hsame, id⟩
      | some task =>
          rw [proc_of_task ht]
          dsimp only
          by_cases hu : task.uid = KERNEL_USER
          · rw [if_pos hu]
            exact Or.inl ⟨hsame, fun hw => hw.2.2.1 hu⟩
          rw [if_neg hu]
          by_cases h1 : task.pid = 1
          · rw [if_pos h1]
            exact Or.inl ⟨hsame, fun hw => hw.2.2.2.1 h1⟩
          rw [if_neg h1]
          have hsignal : SameProcs s
              (s.modify i fun t => { t with signal := t.signal ||| sigmask sig }) :=
            sameProcs_modify (fun _ => rfl)
          by_cases hw : task.state = .waiting ∨ task.state = .sleeping
          · rw [if_pos hw]
            refine Or.inr ⟨i, task.toProc, proc_of_task ht, ⟨?_, rfl⟩, ?_⟩
            · intro j
              rw [proc_taskUnblock, hsignal.proc]
            · rcases hw with hw | hw
              · refine Or.inl ⟨hw, fun hc => ?_⟩
                have hs := hc.2.2.2.2
                rw [hw] at hs
                cases hs
              · exact Or.inr ⟨hw, Nat.not_lt.mp fun h => hsig (Or.inl h),
                  Nat.not_lt.mp fun h => hsig (Or.inr h), hu, h1, hw⟩
          · rw [if_neg hw]
            exact Or.inl ⟨hsignal, fun hc => hw (Or.inr hc.2.2.2.2)⟩

/-! ## Steps -/

/-- The same timers in another order. -/
theorem Tasks.perm {timers' : List Nat} (h : Tasks P waiters timers) (hp : timers'.Perm timers) :
    Tasks P waiters timers' := by
  refine { h with paired := ⟨hp.nodup_iff.mpr h.paired.once, ?_⟩ }
  intro i
  rw [hp.mem_iff]
  exact h.paired.asleep i

/-- The timers of the sleeping tasks are determined by the tasks. -/
theorem Paired.mem_iff {timers' : List Nat} (h : Paired P timers) (h' : Paired P timers')
    (i : Nat) :
    i ∈ timers ↔ i ∈ timers' :=
  (h.asleep i).trans (h'.asleep i).symm

/-- No task sleeps for zero or for what the kernel reads as a negative number of
    milliseconds, and no signal finds its target asleep. -/
def KeepsStep (s : Clock) : Event → Prop
  | .sleep ms _ => 0 < ms.toInt
  | .process (.kill pid sig) => ¬ WakesSleeper s.state.sched pid sig
  | .tick | .process _ => True

instance (s : Clock) : (e : Event) → Decidable (KeepsStep s e)
  | .sleep _ _ => inferInstanceAs (Decidable (_ < _))
  | .tick => inferInstanceAs (Decidable True)
  | .process e => match e with
    | .kill _ _ => inferInstanceAs (Decidable (¬ _))
    | .fork | .exit _ _ | .exitMark _ | .exitFinish _ | .waitpid _ _ | .resume _ | .yield _
    | .block _ _ | .wake _ | .wakeList _ | .sleep _ | .timeout _ =>
        inferInstanceAs (Decidable True)

/-- The timers after a step are those of the sleeping tasks, or they are not. -/
structure Outcome (s : Clock) (kept : Prop) : Prop where
  timed : kept → Timed s.state s.timed
  broken : ¬ kept → ¬ Paired s.state.proc s.timed

/-- `task_sleep`: a sleeping task has a timer if the timeout is positive. -/
theorem Timed.sleep {s : Clock} {k : Sched} {ms : BitVec 32} {policy : Policy}
    (h : Timed s.state s.timed) (hc : s.state.current ≠ idle_task)
    (hb : taskBlock s.state.sched .sleepList .sleeping policy = .ok k) :
    Outcome { s with
      state := s.state.switched [] k
      timer_list := if 0 < ms.toInt then timerAdd s ms else s.timer_list } (0 < ms.toInt) := by
  obtain ⟨m, rfl, ⟨p, hp, -⟩, -, hmw, -, hm⟩ := taskBlock_spec hb
  have hasleep : ∃ p, s.state.proc s.state.current = some p ∧
      ({ p with node := some .sleepList, state := .sleeping } : Proc).state = .sleeping :=
    ⟨p, hp, rfl⟩
  have htasks : Tasks m.proc m.waiters (s.state.current :: s.timed) := by
    rw [hmw]
    exact h.tasks.put h.awake hc hm (fun _ _ _ => rfl)
      (h.tasks.paired.sleep h.awake hm hasleep)
  constructor
  · intro hms
    have hperm : ((timerAdd s ms).map Timer.task).Perm (s.state.current :: s.timed) :=
      (insertSort_perm _ _ _).map Timer.task
    rw [Clock.timed, if_pos hms]
    exact (htasks.perm hperm).switched [] policy
  · intro hms hpaired
    rw [Clock.timed, if_neg hms] at hpaired
    have hin := ((htasks.pick policy).1.paired.mem_iff hpaired s.state.current).mp
      List.mem_cons_self
    exact h.awake.notAsleep ((h.tasks.paired.asleep _).mp hin)

/-- `sys_kill` leaves the timer of a task it wakes. -/
theorem Timed.kill {s : Clock} (h : Timed s.state s.timed) (pid sig : Nat) :
    Outcome { s with state := { s.state with sched := sysKill s.state.sched pid sig } }
      (¬ WakesSleeper s.state.sched pid sig) := by
  have hwaiters := (sysKill_spec (s := s.state.sched) pid sig).1
  rcases sysKill_cases s.state.sched pid sig with ⟨hsame, hnot⟩ | ⟨i, p, hp, hw, hcase⟩
  · refine ⟨fun _ => ⟨?_, ?_⟩, fun hn => absurd hnot hn⟩
    · show Tasks (sysKill s.state.sched pid sig).proc (sysKill s.state.sched pid sig).waiters _
      rw [hwaiters, show (sysKill s.state.sched pid sig).proc = s.state.proc from
        funext hsame.proc]
      exact h.tasks
    · show Awake (sysKill s.state.sched pid sig).proc (sysKill s.state.sched pid sig).current
      rw [hsame.current, show (sysKill s.state.sched pid sig).proc = s.state.proc from
        funext hsame.proc]
      exact h.awake
  have hnw : i ∉ s.state.sched.waiters := by
    intro hi
    obtain ⟨q, hq, hqs, -⟩ := h.tasks.pointed i hi
    rw [show s.state.proc i = some p from hp] at hq
    rw [← Option.some.inj hq] at hqs
    rcases hcase with ⟨hps, -⟩ | ⟨hps, -⟩
    · rw [hps] at hqs
      cases hqs
    · rw [hps] at hqs
      cases hqs
  rcases hcase with ⟨hps, hnot⟩ | ⟨hps, hyes⟩
  · refine ⟨fun _ => ⟨?_, ?_⟩, fun hn => absurd hnot hn⟩
    · show Tasks (sysKill s.state.sched pid sig).proc (sysKill s.state.sched pid sig).waiters _
      rw [hwaiters]
      refine h.tasks.woken hw ?_ hnw
      rintro ⟨q, hq, hqs⟩
      rw [hp] at hq
      rw [← Option.some.inj hq, hps] at hqs
      cases hqs
    · show Awake (sysKill s.state.sched pid sig).proc (sysKill s.state.sched pid sig).current
      rw [hw.current]
      exact h.awake.woken hw
  · refine ⟨fun hn => absurd hyes hn, fun _ hpaired => ?_⟩
    have hmem : i ∈ s.timed := (h.tasks.paired.asleep i).mpr ⟨p, hp, hps⟩
    have hfired := (h.tasks.perm (List.perm_cons_erase hmem).symm).fired hw
    have hin := (hpaired.mem_iff hfired.paired i).mp hmem
    exact h.tasks.paired.once.not_mem_erase hin

/-- A step of the process model, other than a signal. -/
theorem Timed.process {s : Clock} {s' : State} {e : NeonixProcesses.Event}
    (h : Timed s.state s.timed) (hu : Untimed e = true) (hkill : ∀ pid sig, e ≠ .kill pid sig)
    (hen : NeonixProcesses.Enabled s.state e) (he : NeonixProcesses.exec s.state e = .ok s') :
    Timed s' s.timed ∧ (Exits e = true → s.state.current ∉ s.timed) := by
  cases e with
  | fork =>
      obtain ⟨⟨c, k⟩, hf, he⟩ := bind_eq_ok he
      rw [← Except.ok.inj he]
      exact ⟨h.fork hf _, nofun⟩
  | exit status policy =>
      obtain ⟨k, hx, he⟩ := bind_eq_ok he
      obtain ⟨m, hmark, hfin⟩ := bind_eq_ok hx
      rw [← Except.ok.inj he]
      obtain ⟨hm, hcur⟩ := h.exitMark hen.1 hmark s.state.log
      exact ⟨hm.exitFinish hfin _, fun _ => hcur⟩
  | exitMark status =>
      obtain ⟨k, hmark, he⟩ := bind_eq_ok he
      rw [← Except.ok.inj he]
      obtain ⟨hm, hcur⟩ := h.exitMark hen.1 hmark (.exited s.state.current status :: s.state.log)
      exact ⟨hm, fun _ => hcur⟩
  | exitFinish policy =>
      obtain ⟨k, hfin, he⟩ := bind_eq_ok he
      rw [← Except.ok.inj he]
      exact ⟨h.exitFinish hfin _, nofun⟩
  | waitpid pid policy => exact ⟨h.waitpidTurn hen.1 he, nofun⟩
  | resume policy =>
      refine ⟨?_, nofun⟩
      rw [NeonixProcesses.exec] at he
      split at he
      · exact h.waitpidTurn hen he
      · cases he
  | kill pid sig => exact absurd rfl (hkill pid sig)
  | yield policy =>
      rw [← Except.ok.inj he]
      exact ⟨h.tasks.switched [] policy, nofun⟩
  | block list policy =>
      obtain ⟨k, hb, he⟩ := bind_eq_ok he
      rw [← Except.ok.inj he]
      have hne : TaskState.blocked ≠ .sleeping := nofun
      refine ⟨h.block hen.1 hne ?_ hb, nofun⟩
      rw [pointers]
      split_ifs with hl
      · exact Or.inr ⟨rfl, hl, rfl⟩
      · exact Or.inl rfl
  | wake i =>
      rw [← Except.ok.inj he]
      have hi : i ∈ s.state.sched.waiters := hen
      obtain ⟨q, hq, hqs, -⟩ := h.tasks.pointed i hi
      have hw : Wakes s.state.sched (taskUnblock s.state.sched i EOK) i EOK :=
        wakes_taskUnblock i EOK
      have hnot : ¬ Asleep s.state.proc i := by
        rintro ⟨p, hp, hps⟩
        rw [hq] at hp
        rw [← Option.some.inj hp, hqs] at hps
        cases hps
      have htasks : Tasks (taskUnblock s.state.sched i EOK).proc (s.state.sched.waiters.erase i)
          s.timed :=
        (h.tasks.fewer List.erase_sublist).woken hw hnot h.tasks.pointedOnce.not_mem_erase
      have hawake : Awake (taskUnblock s.state.sched i EOK).proc s.state.current :=
        h.awake.woken hw
      exact ⟨⟨htasks, hawake⟩, nofun⟩
  | wakeList i =>
      rw [← Except.ok.inj he]
      have hi : ((s.state.proc i).bind Proc.node).any viaList = true := hen
      have hw : Wakes s.state.sched (taskUnblock s.state.sched i EOK) i EOK :=
        wakes_taskUnblock i EOK
      have hnot : ¬ Asleep s.state.proc i := by
        rintro ⟨p, hp, hps⟩
        rw [hp, Option.bind_some, h.tasks.node i p hp hps] at hi
        cases hi
      have hnw : i ∉ s.state.sched.waiters := by
        intro hin
        obtain ⟨p, hp, -, hn⟩ := h.tasks.pointed i hin
        rw [hp, Option.bind_some, hn] at hi
        cases hi
      have htasks : Tasks (taskUnblock s.state.sched i EOK).proc s.state.sched.waiters s.timed :=
        h.tasks.woken hw hnot hnw
      have hawake : Awake (taskUnblock s.state.sched i EOK).proc s.state.current :=
        h.awake.woken hw
      exact ⟨⟨htasks, hawake⟩, nofun⟩
  | sleep policy => cases hu
  | timeout i => cases hu

/-- A timer list without timers of the task stays as it is. -/
theorem timerRemove_eq {s : Clock} {task : Nat} (h : task ∉ s.timed) :
    timerRemove s task = s.timer_list := by
  refine List.filter_eq_self.mpr ?_
  intro timer ht
  refine decide_eq_true ?_
  rintro rfl
  exact h (List.mem_map_of_mem ht)

/-- What a step does to the timers and the sleeping tasks. -/
theorem Timed.step {s s' : Clock} {e : Event} (h : Timed s.state s.timed)
    (hs : system.step s e s') : Outcome s' (KeepsStep s e) := by
  obtain ⟨hen, he⟩ := hs
  cases e with
  | sleep ms policy =>
      obtain ⟨k, hb, he⟩ := bind_eq_ok he
      rw [← Except.ok.inj he]
      exact h.sleep hen.1 hb
  | tick =>
      obtain ⟨⟨list, k⟩, hw, he⟩ := bind_eq_ok he
      rw [← Except.ok.inj he]
      obtain ⟨htasks, hawake, hcur, hwait, -⟩ := timerWakeup_tasks hw h.tasks h.awake
      refine ⟨fun _ => ⟨?_, ?_⟩, fun hn => absurd trivial hn⟩
      · show Tasks k.proc k.waiters (list.map Timer.task)
        rw [hwait]
        exact htasks
      · show Awake k.proc k.current
        rw [hcur]
        exact hawake
  | process e =>
      by_cases hkill : ∃ pid sig, e = .kill pid sig
      · obtain ⟨pid, sig, rfl⟩ := hkill
        rw [← Except.ok.inj he]
        exact h.kill pid sig
      · have hkeeps : KeepsStep s (.process e) := by
          cases e
          case kill pid sig => exact absurd ⟨pid, sig, rfl⟩ hkill
          all_goals trivial
        obtain ⟨state, hx, he⟩ := bind_eq_ok he
        rw [← Except.ok.inj he]
        obtain ⟨htimed, hexits⟩ :=
          h.process hen.1 (fun pid sig heq => hkill ⟨pid, sig, heq⟩) hen.2 hx
        refine ⟨fun _ => ?_, fun hn => absurd hkeeps hn⟩
        by_cases hexit : Exits e = true
        · rw [Clock.timed]
          dsimp only
          rw [if_pos hexit, timerRemove_eq (hexits hexit)]
          exact htimed
        · rw [Clock.timed]
          dsimp only
          rw [if_neg hexit]
          exact htimed

theorem timed_boot {first : Nat} : Timed (boot first).state (boot first).timed := by
  have hstate : ∀ {i p}, (boot first).state.proc i = some p →
      p.state = .running ∨ p.state = .ready := by
    intro i p hp
    obtain ⟨t, ht, rfl⟩ := proc_eq_some.mp hp
    obtain ⟨t', -, rfl⟩ := Option.map_eq_some_iff.mp ht
    show (if i = first then TaskState.running else TaskState.ready) = _ ∨ _
    split_ifs
    · exact Or.inl rfl
    · exact Or.inr rfl
  have hne : ∀ {i p}, (boot first).state.proc i = some p →
      p.state ≠ .sleeping ∧ p.state ≠ .blocked := by
    intro i p hp
    rcases hstate hp with hs | hs
    · rw [hs]
      exact ⟨nofun, nofun⟩
    · rw [hs]
      exact ⟨nofun, nofun⟩
  refine ⟨⟨⟨List.nodup_nil, ?_⟩, ?_, nofun, List.nodup_nil, fun p hp => hstate hp⟩,
    fun p hp => hne hp⟩
  · intro i
    exact iff_of_false List.not_mem_nil fun ⟨p, hp, hs⟩ => (hne hp).1 hs
  · intro i p hp hs
    exact absurd hs (hne hp).1

theorem timed_reach {s : Clock} (h : Reach system KeepsStep s) : Timed s.state s.timed := by
  have hinit : ∀ s, system.init s → Timed s.state s.timed := by
    rintro s ⟨first, -, rfl⟩
    exact timed_boot
  have hstep : ∀ s e s', Timed s.state s.timed → KeepsStep s e → system.step s e s' →
      Timed s'.state s'.timed := by
    intro s e s' hs hk hst
    exact (hs.step hst).timed hk
  exact h.invariant hinit hstep

/-- In the runs whose steps all meet the condition the timers are those of the
    sleeping tasks, one each, and a tick changes sleeping tasks only.  A step that
    does not meet it ends with a timer of a task that does not sleep, or with a
    sleeping task without a timer. -/
theorem timers_in_step {s : Clock} (h : Reach system KeepsStep s) :
    Paired s.state.proc s.timed ∧
      (∀ e s', system.step s e s' → (Paired s'.state.proc s'.timed ↔ KeepsStep s e)) ∧
      ∀ s', system.step s .tick s' → ∀ i p, s.state.proc i = some p → p.state ≠ .sleeping →
        s'.state.proc i = some p := by
  have ht := timed_reach h
  refine ⟨ht.tasks.paired, ?_, ?_⟩
  · intro e s' hst
    have hout := ht.step hst
    constructor
    · intro hp
      by_contra hk
      exact hout.broken hk hp
    · intro hk
      exact (hout.timed hk).tasks.paired
  · rintro s' ⟨-, he⟩ i p hp hs
    obtain ⟨⟨list, k⟩, hw, he⟩ := bind_eq_ok he
    rw [← Except.ok.inj he]
    obtain ⟨-, -, -, -, hkeep⟩ := timerWakeup_tasks hw ht.tasks ht.awake
    exact hkeep i p hp hs

/-- A task sleeps for 20 ms and two ticks pass: its timer has fired. -/
theorem timers_in_step_fired : ∃ s : Clock, s.timed = [] ∧ s.jiffies = 2 ∧
    Paired s.state.proc s.timed := by
  have hrun : (follow KeepsStep Enabled exec (boot 2) [.sleep 20 (.prefer 1), .tick, .tick]).map
      (fun s => (s.timed, s.jiffies)) = some ([], 2) := by
    decide +kernel
  obtain ⟨s, hs, hobs⟩ := Option.map_eq_some_iff.mp hrun
  obtain ⟨htimed, hjiffies⟩ := Prod.mk.inj hobs
  exact ⟨s, htimed, hjiffies,
    (timers_in_step (Reach.follow _ (.start ⟨2, by decide, rfl⟩) hs)).1⟩

/-- The test task sleeps for 20 ms and the init task signals it: it is ready, and
    its timer stays. -/
theorem killed_sleeper_timer : ∃ s, Reach system free s ∧ ¬ Paired s.state.proc s.timed := by
  have hrun : (follow free Enabled exec (boot 2)
      [.sleep 20 (.prefer 1), .process (.kill 2 14)]).map
      (fun s => (s.timed, (s.state.proc 2).map Proc.state)) = some ([2], some .ready) := by
    decide +kernel
  obtain ⟨s, hs, hobs⟩ := Option.map_eq_some_iff.mp hrun
  obtain ⟨htimed, hstate⟩ := Prod.mk.inj hobs
  refine ⟨s, Reach.follow _ (.start ⟨2, by decide, rfl⟩) hs, fun hp => ?_⟩
  obtain ⟨p, hproc, hsleep⟩ := (hp.asleep 2).mp (by rw [htimed]; exact List.mem_singleton.mpr rfl)
  rw [hproc, Option.map_some, hsleep] at hstate
  cases hstate

end NeonixTimedWaits
