import Neonix.Processes

/-! # `TASK_DIED` is final, where nothing can wake the dead

    `task_exit` marks the task dead before its clean-up.  The clean-up calls
    `iput` and `close`, and these reach `device_request` and `lock_acquire`,
    which overwrite the state with `TASK_BLOCKED` when another task holds the
    device or the lock; the wake-up then makes the dead task ready.  A device
    pointer left behind by an early wake-up of the same task does the same.

    The route: `Buried` says that no wake-up source can reach a dead task.  It
    is kept by every step of a run in which no dead task blocks and no task
    exits with a pointer left behind, and a buried task is never picked. -/

namespace NeonixDiedTerminal

open NeonixMachine NeonixTask NeonixTaskSpecs NeonixProcesses NeonixRuns

/-- Since its exit and until it is reaped a task is dead and is not picked. -/
def Terminal (P : Nat → Option Proc) (log : List Obs) : Prop :=
  ∀ newer i status older, log = newer ++ .exited i status :: older →
    (∀ parent st, .reaped parent i st ∉ newer) →
      (∃ p, P i = some p ∧ p.state = .died) ∧ .picked i ∉ newer

/-- No wake-up source reaches the task, and it is not the idle task. -/
structure Buried (waiters timers : List Nat) (i : Nat) (p : Proc) : Prop where
  node : p.node = none
  pc : p.pc = .inExit
  waiters : i ∉ waiters
  timers : i ∉ timers
  idle : i ≠ idle_task

/-- Every slot holds its own task, and the dead are buried. -/
def Graves (P : Nat → Option Proc) (waiters timers : List Nat) : Prop :=
  ∀ i p, P i = some p → p.pid = i ∧ (p.state = .died → Buried waiters timers i p)

/-- The dead of the first table are dead in the second. -/
def Stay (P P' : Nat → Option Proc) : Prop :=
  ∀ i p, P i = some p → p.state = .died → ∃ q, P' i = some q ∧ q.state = .died

variable {P P' P'' : Nat → Option Proc} {waiters timers : List Nat}

theorem Stay.trans (h : Stay P P') (h' : Stay P' P'') : Stay P P'' := by
  intro i p hp hs
  obtain ⟨q, hq, hqs⟩ := h i p hp hs
  exact h' i q hq hqs

/-- A store that leaves the dead where they are. -/
theorem Stay.map {f : Nat → Proc → Proc} (hP : ∀ j, P' j = (P j).map (f j))
    (hf : ∀ j q, P j = some q → q.state = .died → (f j q).state = .died) : Stay P P' := by
  intro i p hp hs
  exact ⟨f i p, by rw [hP, hp]; rfl, hf i p hp hs⟩

/-- A step without an observation. -/
theorem Terminal.stay {log : List Obs} (h : Terminal P log) (hs : Stay P P') : Terminal P' log := by
  intro newer i status older hlog hreap
  obtain ⟨⟨p, hp, hps⟩, hpick⟩ := h newer i status older hlog hreap
  exact ⟨hs i p hp hps, hpick⟩

/-- A step with an observation: an exit leaves a dead task, and what was dead
    stays dead unpicked unless this reaps it. -/
theorem Terminal.cons {log : List Obs} {o : Obs} (h : Terminal P log)
    (hexit : ∀ i status, o = .exited i status → ∃ p, P' i = some p ∧ p.state = .died)
    (hstay : ∀ i p, P i = some p → p.state = .died →
      (∃ q, P' i = some q ∧ q.state = .died) ∧ o ≠ .picked i ∨ ∃ w st, o = .reaped w i st) :
    Terminal P' (o :: log) := by
  intro newer i status older hlog hreap
  cases newer with
  | nil =>
      obtain ⟨rfl, -⟩ := List.cons.inj hlog
      exact ⟨hexit i status rfl, by simp⟩
  | cons o' newer =>
      obtain ⟨rfl, hrest⟩ := List.cons.inj hlog
      obtain ⟨⟨p, hp, hps⟩, hpick⟩ := h newer i status older hrest
        (fun w st hmem => hreap w st (List.mem_cons_of_mem _ hmem))
      rcases hstay i p hp hps with ⟨hq, hne⟩ | ⟨w, st, rfl⟩
      · refine ⟨hq, ?_⟩
        intro hmem
        rcases List.mem_cons.mp hmem with heq | hmem
        · exact hne heq.symm
        · exact hpick hmem
      · exact absurd List.mem_cons_self (hreap w st)

/-- A store that keeps every `pid` and buries the newly dead. -/
theorem Graves.map {f : Nat → Proc → Proc} {waiters' timers' : List Nat}
    (h : Graves P waiters timers) (hP : ∀ j, P' j = (P j).map (f j))
    (hpid : ∀ j q, P j = some q → (f j q).pid = q.pid)
    (hdied : ∀ j q, P j = some q → (f j q).state = .died →
      (q.state = .died → Buried waiters timers j q) → Buried waiters' timers' j (f j q)) :
    Graves P' waiters' timers' := by
  intro i p hp
  rw [hP] at hp
  obtain ⟨q, hq, rfl⟩ := Option.map_eq_some_iff.mp hp
  obtain ⟨hqp, hqd⟩ := h i q hq
  exact ⟨(hpid i q hq).trans hqp, fun hs => hdied i q hq hs hqd⟩

/-- The invariant of the runs without a wake-up of the dead. -/
structure DiedInv (s : State) : Prop where
  graves : Graves s.proc s.sched.waiters s.sched.timers
  terminal : Terminal s.proc s.log

/-- No dead task blocks in its clean-up, and no task exits while a wake-up
    source still points at it. -/
def CleanExit (s : State) : Event → Prop
  | .block _ _ => (s.proc s.current).map Proc.state ≠ some .died
  | .exitMark _ | .exit _ _ => s.current ∉ s.sched.waiters
  | _ => True

instance (s : State) : (e : Event) → Decidable (CleanExit s e)
  | .block _ _ => inferInstanceAs (Decidable (_ ≠ _))
  | .exitMark _ | .exit _ _ => inferInstanceAs (Decidable (_ ∉ _))
  | .fork | .exitFinish _ | .waitpid _ _ | .resume _ | .kill _ _ | .yield _ | .wake _
  | .wakeList _ | .sleep _ | .timeout _ => inferInstanceAs (Decidable True)

/-! ## The steps -/

/-- A switch disturbs no grave and picks no dead task. -/
theorem Graves.schedule {s : Sched} (h : Graves s.proc s.waiters s.timers) (policy : Policy) :
    Graves (schedule s policy).proc s.waiters s.timers ∧
      ∀ i p, s.proc i = some p → p.state = .died →
        (∃ q, (schedule s policy).proc i = some q ∧ q.state = .died) ∧ policy.pick s ≠ i := by
  refine ⟨?_, ?_⟩
  · refine h.map (proc_schedule policy) (fun _ _ _ => rfl) ?_
    intro j q _ hs hq
    dsimp only at hs
    split_ifs at hs
    obtain ⟨hn, hpc, hw, ht, hi⟩ := hq hs
    exact ⟨hn, hpc, hw, ht, hi⟩
  · intro i p hp hs
    have hne : policy.pick s ≠ i := by
      rintro rfl
      rcases canPick_proc (policy.canPick s) with ⟨-, -, q, hq, hqs⟩ | hidle
      · rw [hp] at hq
        rw [← Option.some.inj hq, hs] at hqs
        cases hqs
      · exact ((h _ p hp).2 hs).idle hidle
    refine ⟨⟨{ p with state := .died }, ?_, rfl⟩, hne⟩
    rw [proc_schedule, hp, Option.map_some, if_neg (Ne.symm hne), if_neg (by rw [hs]; simp), hs]

/-- A step that ends with a switch. -/
theorem DiedInv.switched {k : Sched} {policy : Policy} {log : List Obs}
    (hg : Graves k.proc k.waiters k.timers) (ht : Terminal k.proc log) :
    DiedInv { sched := schedule k policy, log := .picked (schedule k policy).current :: log } := by
  obtain ⟨hgraves, hstay⟩ := hg.schedule policy
  refine ⟨hgraves, ht.cons ?_ ?_⟩
  · intro i status heq
    cases heq
  · intro i p hp hs
    obtain ⟨hq, hne⟩ := hstay i p hp hs
    refine Or.inl ⟨hq, ?_⟩
    intro heq
    exact hne (Obs.picked.inj heq)

/-- A wake-up of a task that is not dead. -/
theorem DiedInv.woken {s : State} {k : Sched} {i : Nat} {r : Int} (h : DiedInv s)
    (hw : Wakes s.sched k i r) (hlive : ∀ p, s.proc i = some p → p.state ≠ .died)
    (hwaiters : ∀ j ∈ k.waiters, j ∈ s.sched.waiters)
    (htimers : ∀ j ∈ k.timers, j ∈ s.sched.timers) : DiedInv { s with sched := k } := by
  refine ⟨h.graves.map hw.proc ?_ ?_, h.terminal.stay (Stay.map hw.proc ?_)⟩
  · intro j q _
    split_ifs <;> rfl
  · intro j q _ hs hq
    split_ifs at hs ⊢
    obtain ⟨hn, hpc, hjw, hjt, hji⟩ := hq hs
    exact ⟨hn, hpc, fun hmem => hjw (hwaiters j hmem), fun hmem => hjt (htimers j hmem), hji⟩
  · intro j q hq hs
    split_ifs with hj
    · subst hj
      exact absurd hs (hlive q hq)
    · exact hs

/-- A live running task blocks. -/
theorem DiedInv.block {s : State} {k s' : Sched} {list : WaitList} {state : TaskState}
    {policy : Policy} (h : DiedInv s) (hlive : ∀ p, s.proc s.current = some p → p.state ≠ .died)
    (hkc : k.current = s.current) {g : Proc → Proc} (hg : ∀ p, (g p).pid = p.pid)
    (hproc : ∀ j, k.proc j = (s.proc j).map fun p => if j = s.current then g p else p)
    (hstate : state ≠ .died)
    (hwaiters : ∀ j ∈ k.waiters, j = s.current ∨ j ∈ s.sched.waiters)
    (htimers : ∀ j ∈ k.timers, j = s.current ∨ j ∈ s.sched.timers)
    (hb : taskBlock k list state policy = .ok s') : DiedInv (s.switched [] s') := by
  obtain ⟨m, rfl, -, hmc, hmw, hmt, hm⟩ := taskBlock_spec hb
  have hm' : ∀ j, m.proc j = (s.proc j).map fun p =>
      if j = s.current then { g p with node := some list, state := state } else p := by
    intro j
    rw [hm, hproc, hkc, Option.map_map]
    cases s.proc j with
    | none => rfl
    | some q =>
        by_cases hj : j = s.current
        · simp [hj]
        · simp [hj]
  refine DiedInv.switched (k := m) ?_ (h.terminal.stay (Stay.map hm' ?_))
  · rw [hmw, hmt]
    refine h.graves.map hm' ?_ ?_
    · intro j q _
      split_ifs
      · exact hg q
      · rfl
    · intro j q _ hs hq
      split_ifs at hs ⊢ with hj
      · exact absurd hs hstate
      · obtain ⟨hn, hpc, hjw, hjt, hji⟩ := hq hs
        refine ⟨hn, hpc, ?_, ?_, hji⟩
        · intro hmem
          rcases hwaiters j hmem with hc | hc
          · exact hj hc
          · exact hjw hc
        · intro hmem
          rcases htimers j hmem with hc | hc
          · exact hj hc
          · exact hjt hc
  · intro j q hq hs
    split_ifs with hj
    · subst hj
      exact absurd hs (hlive q hq)
    · exact hs

/-- `task_exit` up to its clean-up buries the running task. -/
theorem DiedInv.exitMark {s : State} {k : Sched} {status : Int} (h : DiedInv s)
    (hcur : s.current ≠ idle_task) (hclean : s.current ∉ s.sched.waiters)
    (he : exitMark s.sched status = .ok k) :
    DiedInv { sched := k, log := .exited s.current status :: s.log } := by
  obtain ⟨p, hp, hnode, -, hkc, hkw, hkt, hproc⟩ := exitMark_spec he
  refine ⟨?_, h.terminal.cons ?_ ?_⟩
  · show Graves k.proc k.waiters k.timers
    rw [hkw, hkt]
    refine h.graves.map hproc ?_ ?_
    · intro j q _
      split_ifs <;> rfl
    · intro j q hq hs hbur
      split_ifs at hs ⊢ with hj
      · subst hj
        rw [show s.proc s.sched.current = s.sched.proc s.sched.current from rfl, hp] at hq
        obtain rfl := Option.some.inj hq
        exact ⟨hnode, rfl, hclean, by simp, hcur⟩
      · obtain ⟨hn, hpc, hjw, hjt, hji⟩ := hbur hs
        exact ⟨hn, hpc, hjw, fun hmem => hjt (List.mem_filter.mp hmem).1, hji⟩
  · intro i st heq
    obtain ⟨rfl, rfl⟩ := Obs.exited.inj heq
    refine ⟨{ p with state := .died, status := status, pc := .inExit }, ?_, rfl⟩
    show k.proc s.sched.current = _
    rw [hproc, hp]
    simp
  · intro i q hq hs
    refine Or.inl ⟨?_, by simp⟩
    have hstay : Stay s.proc k.proc := Stay.map hproc (by
      intro j r _ hrs
      split_ifs
      · rfl
      · exact hrs)
    exact hstay i q hq hs

/-- The end of `task_exit` moves fathers and wakes a waiting task only. -/
theorem DiedInv.exitFinish {s : State} {k : Sched} {policy : Policy} (h : DiedInv s)
    (he : exitFinish s.sched policy = .ok k) : DiedInv (s.switched [] k) := by
  obtain ⟨p, m, rfl, -, -, hmw, hmt, hm⟩ := exitFinish_spec he
  have hcases : ∀ j q, (wakeProc p j (reparentProc p j q)).pid = q.pid ∧
      ((wakeProc p j (reparentProc p j q)).state = q.state ∧
        (wakeProc p j (reparentProc p j q)).node = q.node ∧
        (wakeProc p j (reparentProc p j q)).pc = q.pc ∨
      (wakeProc p j (reparentProc p j q)).state = .ready ∧ q.state = .waiting) := by
    intro j q
    simp only [wakeProc, reparentProc]
    split_ifs with h1 h2 h3
    · exact ⟨rfl, Or.inr ⟨rfl, h2.2.1⟩⟩
    · exact ⟨rfl, Or.inl ⟨rfl, rfl, rfl⟩⟩
    · exact ⟨rfl, Or.inr ⟨rfl, h3.2.1⟩⟩
    · exact ⟨rfl, Or.inl ⟨rfl, rfl, rfl⟩⟩
  refine DiedInv.switched (k := m) ?_ (h.terminal.stay (Stay.map hm ?_))
  · rw [hmw, hmt]
    refine h.graves.map hm (fun j q _ => (hcases j q).1) ?_
    intro j q _ hs hq
    rcases (hcases j q).2 with ⟨hst, hn, hpc⟩ | ⟨hst, -⟩
    · rw [hst] at hs
      obtain ⟨hqn, hqpc, hjw, hjt, hji⟩ := hq hs
      exact ⟨hn.trans hqn, hpc.trans hqpc, hjw, hjt, hji⟩
    · rw [hst] at hs
      cases hs
  · intro j q _ hs
    rcases (hcases j q).2 with ⟨hst, -⟩ | ⟨-, hw⟩
    · exact hst.trans hs
    · rw [hs] at hw
      cases hw

/-- A task outside `task_exit` is not dead. -/
theorem DiedInv.alive {s : State} (h : DiedInv s) {pc : KernelPc} (hpc : s.pc = some pc)
    (hne : pc ≠ .inExit) : ∀ p, s.proc s.current = some p → p.state ≠ .died := by
  intro p hp hs
  have hx := ((h.graves _ p hp).2 hs).pc
  rw [State.pc, hp] at hpc
  exact hne (hx.symm.trans (Option.some.inj hpc)).symm

/-- One turn of the loop of `task_waitpid`: a reap empties the slot of a dead
    child, and says so. -/
theorem DiedInv.waitpidTurn {s t : State} {pid : Int} {policy : Policy} (h : DiedInv s)
    (hlive : ∀ p, s.proc s.current = some p → p.state ≠ .died)
    (hw : waitpidTurn s pid policy = .ok t) : DiedInv t := by
  obtain ⟨task, -, hw⟩ := bind_eq_ok hw
  have hret : Graves (returnUser s.sched).proc s.sched.waiters s.sched.timers := by
    refine h.graves.map (proc_returnUser s.sched) ?_ ?_
    · intro j q _
      split_ifs <;> rfl
    · intro j q hq hs hbur
      split_ifs at hs ⊢ with hj
      · subst hj
        exact absurd hs (hlive q hq)
      · obtain ⟨hn, hpc, hjw, hjt, hji⟩ := hbur hs
        exact ⟨hn, hpc, hjw, hjt, hji⟩
  have hstay : Stay s.proc (returnUser s.sched).proc := Stay.map (proc_returnUser s.sched) (by
    intro j q _ hs
    split_ifs <;> exact hs)
  cases hscan : waitScan s.sched task.toProc pid with
  | noChild =>
      rw [hscan] at hw
      rw [← Except.ok.inj hw]
      exact ⟨hret, h.terminal.stay hstay⟩
  | reap i child =>
      rw [hscan] at hw
      rw [← Except.ok.inj hw]
      have hpid : child.pid = i := (h.graves i _ (waitScan_reap hscan).1).1
      refine ⟨?_, (h.terminal.stay hstay).cons ?_ ?_⟩
      · intro j q hq
        rw [show State.proc _ j = (clearSlot (returnUser s.sched) i).proc j from rfl,
          proc_clearSlot] at hq
        split_ifs at hq
        exact hret j q hq
      · intro _ _ heq
        cases heq
      · intro j q hq hs
        by_cases hj : j = i
        · subst hj
          exact Or.inr ⟨task.pid, child.status, by rw [hpid]⟩
        · refine Or.inl ⟨⟨q, ?_, hs⟩, by simp⟩
          rw [show State.proc _ j = (clearSlot (returnUser s.sched) i).proc j from rfl,
            proc_clearSlot, if_neg hj]
          exact hq
  | block =>
      rw [hscan] at hw
      obtain ⟨k, hb, hw⟩ := bind_eq_ok hw
      rw [← Except.ok.inj hw]
      refine DiedInv.block (k := s.sched.modify s.current fun t =>
          { t with waitpid := pid, pc := .inWaitpid pid })
        (g := fun p => { p with waitpid := pid, pc := .inWaitpid pid }) h hlive rfl (fun _ => rfl)
        ?_ (by simp) (fun j hj => Or.inr hj) (fun j hj => Or.inr hj) hb
      exact proc_modify (fun p => { p with waitpid := pid, pc := .inWaitpid pid }) (fun _ => rfl)

/-- Every step of a run in which the dead are left alone keeps the invariant. -/
theorem DiedInv.step {s t : State} {e : Event} (h : DiedInv s) (hg : CleanExit s e)
    (hs : system.step s e t) : DiedInv t := by
  obtain ⟨hen, hex⟩ := hs
  have hid : ∀ j, s.sched.proc j = (s.proc j).map fun p => if j = s.current then id p else p := by
    intro j
    rw [show s.sched.proc j = s.proc j from rfl]
    cases s.proc j <;> simp
  cases e with
  | fork =>
      obtain ⟨⟨c, k⟩, hf, hex⟩ := bind_eq_ok hex
      rw [← Except.ok.inj hex]
      obtain ⟨p, -, -, -, hfree, -, -, hkw, hkt, hproc⟩ := taskFork_spec hf
      refine ⟨?_, h.terminal.cons ?_ ?_⟩
      · show Graves k.proc k.waiters k.timers
        rw [hkw, hkt]
        intro i q hq
        rw [hproc] at hq
        split_ifs at hq with hi
        · rw [← Option.some.inj hq]
          refine ⟨hi.symm, ?_⟩
          intro hs
          cases hs
        · exact h.graves i q hq
      · intro _ _ heq
        cases heq
      · intro i q hq hs
        refine Or.inl ⟨⟨q, ?_, hs⟩, by simp⟩
        show k.proc i = _
        rw [hproc, if_neg]
        · exact hq
        · rintro rfl
          rw [show s.proc i = s.sched.proc i from rfl, hfree] at hq
          cases hq
  | exit status policy =>
      obtain ⟨k, he, hex⟩ := bind_eq_ok hex
      rw [← Except.ok.inj hex]
      obtain ⟨m, hm, hk⟩ := bind_eq_ok he
      exact (h.exitMark hen.1 hg hm).exitFinish hk
  | exitMark status =>
      obtain ⟨k, he, hex⟩ := bind_eq_ok hex
      rw [← Except.ok.inj hex]
      exact h.exitMark hen.1 hg he
  | exitFinish policy =>
      obtain ⟨k, he, hex⟩ := bind_eq_ok hex
      rw [← Except.ok.inj hex]
      exact h.exitFinish he
  | waitpid pid policy => exact h.waitpidTurn (h.alive hen.2 (by simp)) hex
  | resume policy =>
      simp only [exec] at hex
      split at hex
      next hpc => exact h.waitpidTurn (h.alive hpc (by simp)) hex
      next => cases hex
  | kill pid sig =>
      rw [← Except.ok.inj hex]
      obtain ⟨hkw, hkt, hsame | ⟨i, p, hp, -, hst, hwakes⟩⟩ := sysKill_spec (s := s.sched) pid sig
      · refine ⟨?_, h.terminal.stay ?_⟩
        · show Graves (sysKill s.sched pid sig).proc _ _
          rw [show (sysKill s.sched pid sig).proc = s.sched.proc from funext hsame.proc, hkw, hkt]
          exact h.graves
        · intro i q hq hs
          exact ⟨q, (hsame.proc i).trans hq, hs⟩
      · refine h.woken hwakes ?_ (fun j hj => hkw ▸ hj) (fun j hj => hkt ▸ hj)
        intro q hq hs
        rw [show s.proc i = s.sched.proc i from rfl, hp] at hq
        rw [Option.some.inj hq, hs] at hst
        simp at hst
  | yield policy =>
      rw [← Except.ok.inj hex]
      exact DiedInv.switched h.graves h.terminal
  | block list policy =>
      obtain ⟨k, hb, hex⟩ := bind_eq_ok hex
      rw [← Except.ok.inj hex]
      have hlive : ∀ p, s.proc s.current = some p → p.state ≠ .died := by
        intro p hp hs
        refine hg ?_
        rw [hp, Option.map_some, hs]
      by_cases hl : list = .blockList
      · rw [pointers, if_pos hl] at hb
        exact h.block (k := { s.sched with waiters := s.current :: s.sched.waiters }) hlive rfl
          (fun _ => rfl) hid (by simp) (fun j hj => List.mem_cons.mp hj) (fun j hj => Or.inr hj) hb
      · rw [pointers, if_neg hl] at hb
        exact h.block hlive rfl (fun _ => rfl) hid (by simp) (fun j hj => Or.inr hj)
          (fun j hj => Or.inr hj) hb
  | wake i =>
      rw [← Except.ok.inj hex]
      refine h.woken (r := EOK) ⟨proc_taskUnblock i EOK, rfl⟩ ?_
        (fun j hj => List.mem_of_mem_erase hj) (fun j hj => hj)
      intro p hp hs
      exact ((h.graves i p hp).2 hs).waiters hen
  | wakeList i =>
      rw [← Except.ok.inj hex]
      refine h.woken (wakes_taskUnblock i EOK) ?_ (fun j hj => hj) (fun j hj => hj)
      intro p hp hs
      rw [Enabled, hp, Option.bind_some, ((h.graves i p hp).2 hs).node] at hen
      cases hen
  | sleep policy =>
      obtain ⟨k, hb, hex⟩ := bind_eq_ok hex
      rw [← Except.ok.inj hex]
      exact h.block (k := { s.sched with timers := s.current :: s.sched.timers })
        (h.alive hen.2 (by simp)) rfl (fun _ => rfl) hid (by simp) (fun j hj => Or.inr hj)
        (fun j hj => List.mem_cons.mp hj) hb
  | timeout i =>
      rw [← Except.ok.inj hex]
      refine h.woken (r := -ETIME) ⟨proc_taskUnblock i (-ETIME), rfl⟩ ?_
        (fun j hj => hj) (fun j hj => List.mem_of_mem_erase hj)
      intro p hp hs
      exact ((h.graves i p hp).2 hs).timers hen

theorem diedInv_boot {first : Nat} : DiedInv (boot first) := by
  refine ⟨?_, ?_⟩
  · intro i p hp
    obtain ⟨t, ht, rfl⟩ := Option.map_eq_some_iff.mp hp
    obtain ⟨u, hu, rfl⟩ := Option.map_eq_some_iff.mp ht
    have hpid := bootTable_pid hu
    refine ⟨hpid, ?_⟩
    intro hs
    dsimp only at hs
    split_ifs at hs
  · intro newer i status older heq
    exact absurd heq (by simp [boot])

/-- In every run in which no dead task blocks in its clean-up and no task exits
    while a wake-up source points at it, a task that has exited is dead and is
    not picked until it is reaped. -/
theorem died_terminal {s : State} (h : Reach system CleanExit s) : Terminal s.proc s.log := by
  have hinv : DiedInv s := by
    refine h.invariant ?_ ?_
    · rintro s ⟨first, -, rfl⟩
      exact diedInv_boot
    · intro s e t hs hg hst
      exact hs.step hg hst
  exact hinv.terminal

/-- A clean-up during which the other tasks run on: the second task exits while
    the first waits for the device, and its father reaps it. -/
theorem died_terminal_exit : ∃ s : State,
    s.log = [.reaped 1 3 7, .picked 1, .exited 3 7, .picked 3, .forked 1 3] ∧
      Terminal s.proc s.log := by
  have hrun : (follow CleanExit Enabled exec (boot 1)
      [.fork, .block .blockList (.prefer 3), .exitMark 7, .wake 1, .exitFinish (.prefer 1),
        .waitpid 3 .ticks]).map (·.log) =
      some [.reaped 1 3 7, .picked 1, .exited 3 7, .picked 3, .forked 1 3] := by
    decide
  obtain ⟨s, hs, hlog⟩ := Option.map_eq_some_iff.mp hrun
  exact ⟨s, hlog, died_terminal (Reach.follow _ (.start ⟨1, by decide, rfl⟩) hs)⟩

/-- The exit of task 2 finds the device busy with the request of task 1: its
    `iput` blocks it, the end of the request wakes it, and it is picked. -/
theorem dead_task_runs : ¬ ∀ s, Reach system free s → Terminal s.proc s.log := by
  intro hall
  have hrun : (follow free Enabled exec (boot 1)
      [.block .blockList (.prefer 2), .exitMark 5, .block .blockList .ticks, .wake 1,
        .yield (.prefer 1), .wake 2, .yield (.prefer 2)]).map (·.log) =
      some [.picked 2, .picked 1, .picked 0, .exited 2 5, .picked 2] := by
    decide
  obtain ⟨s, hs, hlog⟩ := Option.map_eq_some_iff.mp hrun
  have hterm := hall s (Reach.follow _ (.start ⟨1, by decide, rfl⟩) hs)
  obtain ⟨-, hpick⟩ := hterm [.picked 2, .picked 1, .picked 0] 2 5 [.picked 2] hlog (by simp)
  exact hpick (by simp)

end NeonixDiedTerminal
