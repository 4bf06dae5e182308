import Neonix.Task

/-! # What the task operations do to the processes

    Every operation but `task_fork` and the emptying of a slot acts on the
    processes slot by slot: it is `Sched.proc` mapped by a function of the
    slot.  A switch is described by the task it picks and by what it does to the
    two tasks it involves. -/

namespace NeonixTaskSpecs

open NeonixMachine NeonixTask

variable {s s' : Sched}

theorem proc_eq_some {i : Nat} {p : Proc} :
    s.proc i = some p ↔ ∃ t, s.task_table i = some t ∧ t.toProc = p :=
  Option.map_eq_some_iff

theorem proc_of_task {i : Nat} {t : Task} (h : s.task_table i = some t) :
    s.proc i = some t.toProc := by
  rw [Sched.proc, h]
  rfl

theorem runningTask_eq {t : Task} : runningTask s = .ok t ↔ s.task_table s.current = some t := by
  rw [runningTask]
  cases s.task_table s.current with
  | none => constructor <;> intro h <;> cases h
  | some u =>
      constructor
      · intro h
        rw [Except.ok.inj h]
      · intro h
        rw [Option.some.inj h]

/-- What a store through a task pointer does to the processes. -/
theorem proc_modify {i : Nat} {f : Task → Task} (g : Proc → Proc)
    (h : ∀ t, (f t).toProc = g t.toProc) (j : Nat) :
    (s.modify i f).proc j = (s.proc j).map fun p => if j = i then g p else p := by
  show (Function.update s.task_table i ((s.task_table i).map f) j).map Task.toProc = _
  by_cases hj : j = i
  · subst hj
    rw [Function.update_self, Sched.proc]
    cases s.task_table j with
    | none => rfl
    | some t => simp [h]
  · rw [Function.update_of_ne hj, Sched.proc]
    cases s.task_table j with
    | none => rfl
    | some t => simp [hj]

/-- What a loop over the table does to the processes. -/
theorem proc_forEach {f : Nat → Task → Task} (g : Nat → Proc → Proc)
    (h : ∀ i t, (f i t).toProc = g i t.toProc) (j : Nat) :
    (s.forEach f).proc j = (s.proc j).map (g j) := by
  show ((s.task_table j).map (f j)).map Task.toProc = ((s.task_table j).map Task.toProc).map (g j)
  cases s.task_table j with
  | none => rfl
  | some t => exact congrArg some (h j t)

@[simp] theorem modify_current (i : Nat) (f : Task → Task) :
    (s.modify i f).current = s.current := rfl
@[simp] theorem modify_waiters (i : Nat) (f : Task → Task) :
    (s.modify i f).waiters = s.waiters := rfl
@[simp] theorem modify_timers (i : Nat) (f : Task → Task) :
    (s.modify i f).timers = s.timers := rfl
@[simp] theorem forEach_current (f : Nat → Task → Task) :
    (s.forEach f).current = s.current := rfl
@[simp] theorem forEach_waiters (f : Nat → Task → Task) :
    (s.forEach f).waiters = s.waiters := rfl
@[simp] theorem forEach_timers (f : Nat → Task → Task) :
    (s.forEach f).timers = s.timers := rfl

@[simp] theorem schedule_current (policy : Policy) :
    (schedule s policy).current = policy.pick s := rfl
@[simp] theorem schedule_waiters (policy : Policy) :
    (schedule s policy).waiters = s.waiters := rfl
@[simp] theorem schedule_timers (policy : Policy) :
    (schedule s policy).timers = s.timers := rfl

/-- `schedule` moves the running task to ready and the picked one to running. -/
theorem proc_schedule (policy : Policy) (j : Nat) :
    (schedule s policy).proc j = (s.proc j).map fun p =>
      { p with state := if j = policy.pick s then .running
                        else if j = s.current ∧ p.state = .running then .ready
                        else p.state } := by
  show Sched.proc (Sched.modify (Sched.modify s s.current _) (policy.pick s) _) j = _
  rw [proc_modify (fun p => { p with state := .running }) (fun _ => rfl),
    proc_modify (fun p => { p with state := if p.state = .running then .ready else p.state })
      (fun _ => rfl)]
  cases s.proc j with
  | none => rfl
  | some p =>
      by_cases hn : j = policy.pick s
      · by_cases hc : j = s.current
        · rw [← hn, ← hc]
          simp
        · rw [← hn]
          simp [hc]
      · by_cases hc : j = s.current
        · rw [← hc]
          simp [hn]
        · simp [hn, hc]

theorem proc_taskUnblock (i : Nat) (reason : Int) (j : Nat) :
    (taskUnblock s i reason).proc j = (s.proc j).map fun p =>
      if j = i then { p with node := none, status := reason, state := .ready } else p :=
  proc_modify (fun p => { p with node := none, status := reason, state := .ready })
    (fun _ => rfl) j

@[simp] theorem taskUnblock_current (i : Nat) (reason : Int) :
    (taskUnblock s i reason).current = s.current := rfl
@[simp] theorem taskUnblock_waiters (i : Nat) (reason : Int) :
    (taskUnblock s i reason).waiters = s.waiters := rfl
@[simp] theorem taskUnblock_timers (i : Nat) (reason : Int) :
    (taskUnblock s i reason).timers = s.timers := rfl

/-- The processes, the running task and the wake-up sources are the same. -/
structure SameProcs (s s' : Sched) : Prop where
  proc : ∀ j, s'.proc j = s.proc j
  current : s'.current = s.current
  waiters : s'.waiters = s.waiters
  timers : s'.timers = s.timers

theorem SameProcs.trans {s'' : Sched} (h : SameProcs s s') (h' : SameProcs s' s'') :
    SameProcs s s'' :=
  ⟨fun j => (h'.proc j).trans (h.proc j), h'.current.trans h.current,
    h'.waiters.trans h.waiters, h'.timers.trans h.timers⟩

/-- A store that only touches the scheduler's part of a task. -/
theorem sameProcs_modify {i : Nat} {f : Task → Task} (h : ∀ t, (f t).toProc = t.toProc) :
    SameProcs s (s.modify i f) := by
  refine ⟨?_, rfl, rfl, rfl⟩
  intro j
  rw [proc_modify id h j]
  cases s.proc j <;> simp

/-- Telling the session touches signals only. -/
theorem sameProcs_taskKillSession (task : Task) : SameProcs s (taskKillSession s task) := by
  rw [taskKillSession]
  by_cases hl : task.sid ≠ task.pid
  · rw [if_pos hl]
    exact ⟨fun _ => rfl, rfl, rfl, rfl⟩
  · rw [if_neg hl]
    refine ⟨?_, rfl, rfl, rfl⟩
    intro j
    rw [proc_forEach (fun _ p => p) (by intro i t; split <;> rfl) j]
    cases s.proc j <;> rfl

/-- Telling the father touches signals only. -/
theorem sameProcs_taskTellFather {task : Task} (h : taskTellFather s task = .ok s') :
    SameProcs s s' := by
  rw [taskTellFather] at h
  by_cases hp : task.ppid = 0
  · rw [if_pos hp] at h
    rw [← Except.ok.inj h]
    exact ⟨fun _ => rfl, rfl, rfl, rfl⟩
  · rw [if_neg hp] at h
    cases hf : slots.find? fun i => ((s.task_table i).map (·.pid)) = some task.ppid with
    | none => rw [hf] at h; cases h
    | some i =>
        rw [hf] at h
        rw [← Except.ok.inj h]
        exact sameProcs_modify (fun _ => rfl)

/-- A father with the right `pid` is found. -/
theorem taskTellFather_ok {task : Task} {p : Proc}
    (h : task.ppid ≠ 0 → task.ppid ∈ slots ∧ s.proc task.ppid = some p ∧ p.pid = task.ppid) :
    ∃ s', taskTellFather s task = .ok s' := by
  by_cases hp : task.ppid = 0
  · exact ⟨s, by rw [taskTellFather, if_pos hp]⟩
  · obtain ⟨hmem, hproc, hpid⟩ := h hp
    obtain ⟨t, ht, rfl⟩ := proc_eq_some.mp hproc
    rw [taskTellFather, if_neg hp]
    cases hf : slots.find? fun i => ((s.task_table i).map (·.pid)) = some task.ppid with
    | none =>
        have hno := List.find?_eq_none.mp hf _ hmem
        rw [ht] at hno
        exact absurd hpid (by simpa using hno)
    | some i => exact ⟨_, rfl⟩

/-- What `task_exit` has done when its clean-up starts. -/
theorem exitMark_spec {status : Int} (h : exitMark s status = .ok s') :
    ∃ p, s.proc s.current = some p ∧ p.node = none ∧ p.state = .running ∧
      s'.current = s.current ∧ s'.waiters = s.waiters ∧
      s'.timers = s.timers.filter (· ≠ s.current) ∧
      ∀ j, s'.proc j = (s.proc j).map fun q =>
        if j = s.current then { q with state := .died, status := status, pc := .inExit } else q := by
  obtain ⟨task, htask, h⟩ := bind_eq_ok h
  obtain ⟨_, hcheck, h⟩ := bind_eq_ok h
  obtain ⟨s₁, htell, h⟩ := bind_eq_ok h
  obtain ⟨hnode, hstate⟩ := of_check hcheck
  have hsame := (sameProcs_taskKillSession task).trans (sameProcs_taskTellFather htell)
  rw [← Except.ok.inj h]
  refine ⟨task.toProc, proc_of_task (runningTask_eq.mp htask), hnode, hstate, hsame.current,
    hsame.waiters, ?_, ?_⟩
  · show s₁.timers.filter (· ≠ s₁.current) = _
    rw [hsame.timers, hsame.current]
    rfl
  · intro j
    show s₁.proc j = _
    rw [hsame.proc]
    exact proc_modify (fun q => { q with state := .died, status := status, pc := .inExit })
      (fun _ => rfl) j

/-- A running task with a father, or with none, is marked. -/
theorem exitMark_ok {p : Proc} (hp : s.proc s.current = some p) (hnode : p.node = none)
    (hstate : p.state = .running)
    (hfather : p.ppid ≠ 0 → p.ppid ∈ slots ∧ ∃ q, s.proc p.ppid = some q ∧ q.pid = p.ppid)
    (status : Int) : ∃ s', exitMark s status = .ok s' := by
  obtain ⟨task, htask, rfl⟩ := proc_eq_some.mp hp
  rw [exitMark, runningTask_eq.mpr htask, bind_ok, check_pos ⟨hnode, hstate⟩, bind_ok]
  have hmark : ∀ j, (s.modify s.current fun t =>
      { t with state := .died, status := status, pc := .inExit }).proc j = (s.proc j).map fun q =>
        if j = s.current then { q with state := .died, status := status, pc := .inExit } else q :=
    proc_modify (fun q => { q with state := .died, status := status, pc := .inExit })
      (fun _ => rfl)
  have hsame := sameProcs_taskKillSession (s := s.modify s.current fun t =>
    { t with state := .died, status := status, pc := .inExit }) task
  obtain ⟨r, hr⟩ : ∃ r, taskTellFather (taskKillSession (s.modify s.current fun t =>
      { t with state := .died, status := status, pc := .inExit }) task) task = .ok r := by
    by_cases h0 : task.ppid = 0
    · exact ⟨_, by rw [taskTellFather, if_pos h0]⟩
    · obtain ⟨hmem, q, hq, hpid⟩ := hfather h0
      refine taskTellFather_ok
        (p := if task.ppid = s.current then { q with state := .died, status := status, pc := .inExit }
          else q) (fun _ => ⟨hmem, ?_, ?_⟩)
      · rw [hsame.proc, hmark, hq]
        rfl
      · split_ifs <;> exact hpid
  dsimp only
  rw [hr]
  exact ⟨_, rfl⟩

theorem proc_reparent (task : Task) (j : Nat) :
    (reparent s task).proc j = (s.proc j).map fun p =>
      if 2 ≤ j ∧ p.ppid = task.pid then { p with ppid := task.ppid } else p := by
  refine proc_forEach
    (fun i p => if 2 ≤ i ∧ p.ppid = task.pid then { p with ppid := task.ppid } else p) ?_ j
  intro i t
  split <;> rfl

/-- The father's wake-up, slot by slot. -/
def wakeProc (task : Proc) (j : Nat) (p : Proc) : Proc :=
  if j = task.ppid ∧ p.state = .waiting ∧ (p.waitpid = -1 ∨ p.waitpid = task.pid) then
    { p with node := none, status := EOK, state := .ready }
  else p

theorem wakeFather_spec {task : Task} (h : wakeFather s task = .ok s') :
    s'.current = s.current ∧ s'.waiters = s.waiters ∧ s'.timers = s.timers ∧
      ∀ j, s'.proc j = (s.proc j).map (wakeProc task.toProc j) := by
  rw [wakeFather] at h
  cases hp : s.task_table task.ppid with
  | none => rw [hp] at h; cases h
  | some parent =>
      rw [hp] at h
      dsimp only at h
      by_cases hw : parent.state = .waiting ∧
          (parent.waitpid = -1 ∨ parent.waitpid = task.pid)
      · rw [if_pos hw] at h
        rw [← Except.ok.inj h]
        refine ⟨rfl, rfl, rfl, ?_⟩
        intro j
        rw [proc_taskUnblock]
        by_cases hj : j = task.ppid
        · subst hj
          rw [proc_of_task hp]
          simp [wakeProc, hw]
        · cases s.proc j <;> simp [wakeProc, hj]
      · rw [if_neg hw] at h
        rw [← Except.ok.inj h]
        refine ⟨rfl, rfl, rfl, ?_⟩
        intro j
        by_cases hj : j = task.ppid
        · subst hj
          rw [proc_of_task hp]
          have hno : ¬ (True ∧ parent.toProc.state = .waiting ∧
              (parent.toProc.waitpid = -1 ∨ parent.toProc.waitpid = task.pid)) :=
            fun hc => hw hc.2
          simp [wakeProc, hno]
        · cases s.proc j <;> simp [wakeProc, hj]

/-- What `schedule` may pick, in terms of the processes. -/
theorem canPick_proc {n : Nat} (h : CanPick s n) :
    (n ∈ slots ∧ n ≠ s.current ∧ ∃ p, s.proc n = some p ∧ p.state = .ready) ∨ n = idle_task := by
  rcases h with ⟨hmem, hne, t, ht, hs⟩ | ⟨hn, -⟩
  · exact Or.inl ⟨hmem, hne, t.toProc, proc_of_task ht, hs⟩
  · exact Or.inr hn

/-- What `task_fork` that returns has done. -/
theorem taskFork_spec {c : Nat} (h : taskFork s = .ok (c, s')) :
    ∃ p, s.proc s.current = some p ∧ p.node = none ∧ p.state = .running ∧
      s.proc c = none ∧ c ∈ slots ∧
      s'.current = s.current ∧ s'.waiters = s.waiters ∧ s'.timers = s.timers ∧
      ∀ j, s'.proc j = if j = c then some { p with pid := c, ppid := p.pid, state := .ready }
        else s.proc j := by
  obtain ⟨task, htask, h⟩ := bind_eq_ok h
  obtain ⟨_, hcheck, h⟩ := bind_eq_ok h
  obtain ⟨hnode, hstate⟩ := of_check hcheck
  cases hf : freeSlot s with
  | none =>
      rw [hf] at h
      cases h
  | some pid =>
      rw [hf] at h
      obtain ⟨rfl, rfl⟩ := Prod.mk.inj (Except.ok.inj h)
      have hfree : s.task_table pid = none := by simpa using List.find?_some hf
      refine ⟨task.toProc, proc_of_task (runningTask_eq.mp htask), hnode, hstate, ?_,
        List.mem_of_find?_eq_some hf, rfl, rfl, rfl, ?_⟩
      · rw [Sched.proc, hfree]
        rfl
      · intro j
        by_cases hj : j = pid
        · subst hj
          rw [if_pos rfl]
          show (Function.update s.task_table j _ j).map Task.toProc = _
          rw [Function.update_self]
          rfl
        · rw [if_neg hj]
          show (Function.update s.task_table pid _ j).map Task.toProc = _
          rw [Function.update_of_ne hj]
          rfl

/-- A task that blocks puts itself on a list and switches. -/
theorem taskBlock_spec {list : WaitList} {state : TaskState} {policy : Policy}
    (h : taskBlock s list state policy = .ok s') :
    ∃ k, s' = schedule k policy ∧ (∃ p, s.proc s.current = some p ∧ p.node = none) ∧
      k.current = s.current ∧ k.waiters = s.waiters ∧ k.timers = s.timers ∧
      ∀ j, k.proc j = (s.proc j).map fun p =>
        if j = s.current then { p with node := some list, state := state } else p := by
  obtain ⟨task, htask, h⟩ := bind_eq_ok h
  obtain ⟨_, hcheck, h⟩ := bind_eq_ok h
  obtain ⟨_, hstate, h⟩ := bind_eq_ok h
  refine ⟨_, (Except.ok.inj h).symm, ⟨task.toProc, proc_of_task (runningTask_eq.mp htask),
    of_check hcheck⟩, rfl, rfl, rfl, ?_⟩
  exact proc_modify (fun p => { p with node := some list, state := state }) (fun _ => rfl)

/-- The children's new father, slot by slot. -/
def reparentProc (task : Proc) (j : Nat) (p : Proc) : Proc :=
  if 2 ≤ j ∧ p.ppid = task.pid then { p with ppid := task.ppid } else p

/-- The end of `task_exit`: the children are handed on, the father is woken,
    and the task switches away. -/
theorem exitFinish_spec {policy : Policy} (h : exitFinish s policy = .ok s') :
    ∃ p k, s' = schedule k policy ∧ s.proc s.current = some p ∧
      k.current = s.current ∧ k.waiters = s.waiters ∧ k.timers = s.timers ∧
      ∀ j, k.proc j = (s.proc j).map fun q => wakeProc p j (reparentProc p j q) := by
  obtain ⟨task, htask, h⟩ := bind_eq_ok h
  obtain ⟨k, hwake, h⟩ := bind_eq_ok h
  obtain ⟨hcur, hwait, htim, hproc⟩ := wakeFather_spec hwake
  refine ⟨task.toProc, k, (Except.ok.inj h).symm, proc_of_task (runningTask_eq.mp htask), hcur,
    hwait, htim, ?_⟩
  intro j
  rw [hproc, proc_reparent, Option.map_map]
  rfl

/-- The father is there, so the end of `task_exit` does not stop. -/
theorem exitFinish_ok {p q : Proc} (hp : s.proc s.current = some p)
    (hq : s.proc p.ppid = some q) (policy : Policy) : ∃ s', exitFinish s policy = .ok s' := by
  obtain ⟨task, htask, rfl⟩ := proc_eq_some.mp hp
  have hfather : ∃ r, (reparent s task).task_table task.ppid = some r := by
    obtain ⟨t, ht, -⟩ := proc_eq_some.mp hq
    have hr := proc_reparent (s := s) task task.ppid
    rw [proc_of_task ht] at hr
    obtain ⟨r, hr, -⟩ := proc_eq_some.mp hr
    exact ⟨r, hr⟩
  obtain ⟨r, hr⟩ := hfather
  rw [exitFinish, runningTask_eq.mpr htask, bind_ok]
  dsimp only
  rw [wakeFather, hr]
  dsimp only
  by_cases hw : r.state = .waiting ∧ (r.waitpid = -1 ∨ r.waitpid = task.pid)
  · rw [if_pos hw]
    exact ⟨_, rfl⟩
  · rw [if_neg hw]
    exact ⟨_, rfl⟩

/-! ## The scan of `task_waitpid` -/

theorem hasMatch_iff {task : Proc} {pid : Int} {i : Nat} :
    hasMatch s task pid i = true ↔ ∃ q, s.proc i = some q ∧ Matches task pid i q := by
  rw [hasMatch, Sched.proc]
  cases s.task_table i with
  | none => simp
  | some t => simp

theorem deadMatch_iff {task : Proc} {pid : Int} {i : Nat} :
    deadMatch s task pid i = true ↔
      ∃ q, s.proc i = some q ∧ Matches task pid i q ∧ q.state = .died := by
  rw [deadMatch, Sched.proc]
  cases s.task_table i with
  | none => simp
  | some t => simp

/-- The child a scan reaps is a dead match. -/
theorem waitScan_reap {task : Proc} {pid : Int} {i : Nat} {child : Task}
    (h : waitScan s task pid = .reap i child) :
    s.proc i = some child.toProc ∧ Matches task pid i child.toProc ∧ child.state = .died := by
  rw [waitScan] at h
  cases hf : slots.find? (deadMatch s task pid) with
  | none =>
      rw [hf] at h
      dsimp only at h
      split at h <;> cases h
  | some k =>
      rw [hf] at h
      dsimp only at h
      cases hk : s.task_table k with
      | none =>
          rw [hk] at h
          cases h
      | some t =>
          rw [hk] at h
          cases h
          obtain ⟨q, hq, hm, hs⟩ := deadMatch_iff.mp (List.find?_some hf)
          rw [proc_of_task hk] at hq
          obtain rfl := Option.some.inj hq
          exact ⟨proc_of_task hk, hm, hs⟩

/-- A scan that blocks has seen a child it waits for, and no dead one. -/
theorem waitScan_block {task : Proc} {pid : Int} (h : waitScan s task pid = .block) :
    (∃ j q, s.proc j = some q ∧ Matches task pid j q) ∧
      ∀ j ∈ slots, ∀ q, s.proc j = some q → Matches task pid j q → q.state ≠ .died := by
  rw [waitScan] at h
  cases hf : slots.find? (deadMatch s task pid) with
  | none =>
      rw [hf] at h
      dsimp only at h
      by_cases ha : slots.any (hasMatch s task pid) = true
      · obtain ⟨j, -, hj⟩ := List.any_eq_true.mp ha
        refine ⟨⟨j, hasMatch_iff.mp hj⟩, ?_⟩
        intro k hk q hq hm hs
        exact List.find?_eq_none.mp hf k hk (deadMatch_iff.mpr ⟨q, hq, hm, hs⟩)
      · rw [if_neg ha] at h
        cases h
  | some k =>
      rw [hf] at h
      dsimp only at h
      split at h <;> cases h

/-! ## Wake-ups -/

/-- Exactly task `i` is made ready. -/
structure Wakes (s s' : Sched) (i : Nat) (reason : Int) : Prop where
  proc : ∀ j, s'.proc j = (s.proc j).map fun p =>
    if j = i then { p with node := none, status := reason, state := .ready } else p
  current : s'.current = s.current

theorem wakes_taskUnblock (i : Nat) (reason : Int) : Wakes s (taskUnblock s i reason) i reason :=
  ⟨proc_taskUnblock i reason, rfl⟩

/-- `sys_kill` sets a signal, and wakes a task that waits or sleeps. -/
theorem sysKill_spec (pid sig : Nat) :
    (sysKill s pid sig).waiters = s.waiters ∧ (sysKill s pid sig).timers = s.timers ∧
      (SameProcs s (sysKill s pid sig) ∨
        ∃ i p, s.proc i = some p ∧ p.uid ≠ KERNEL_USER ∧
          (p.state = .waiting ∨ p.state = .sleeping) ∧
          Wakes s (sysKill s pid sig) i (-EINTR)) := by
  have hsame : SameProcs s s := ⟨fun _ => rfl, rfl, rfl, rfl⟩
  rw [sysKill]
  by_cases hsig : sig < MINSIG ∨ sig > MAXSIG
  · rw [if_pos hsig]
    exact ⟨rfl, rfl, Or.inl hsame⟩
  rw [if_neg hsig]
  cases hg : getTask s pid with
  | none => exact ⟨rfl, rfl, Or.inl hsame⟩
  | some i =>
      dsimp only
      cases ht : s.task_table i with
      | none => exact ⟨rfl, rfl, Or.inl hsame⟩
      | some task =>
          dsimp only
          by_cases hu : task.uid = KERNEL_USER
          · rw [if_pos hu]
            exact ⟨rfl, rfl, Or.inl hsame⟩
          rw [if_neg hu]
          by_cases h1 : task.pid = 1
          · rw [if_pos h1]
            exact ⟨rfl, rfl, Or.inl hsame⟩
          rw [if_neg h1]
          have hsig : SameProcs s
              (s.modify i fun t => { t with signal := t.signal ||| sigmask sig }) :=
            sameProcs_modify (fun _ => rfl)
          by_cases hw : task.state = .waiting ∨ task.state = .sleeping
          · rw [if_pos hw]
            refine ⟨rfl, rfl, Or.inr ⟨i, task.toProc, proc_of_task ht, hu, hw, ?_⟩⟩
            refine ⟨?_, rfl⟩
            intro j
            rw [proc_taskUnblock, hsig.proc]
          · rw [if_neg hw]
            exact ⟨rfl, rfl, Or.inl hsig⟩

end NeonixTaskSpecs
