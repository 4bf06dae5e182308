import Mathlib.Tactic.IntervalCases
import Neonix.Processes

/-! # The process tree

    Every father is there and alive, a task in `TASK_WAITING` waits for a child
    and has no dead one it waits for, and a zombie is reaped once, with the
    status it exited with.

    The route: `Tree` states what holds of the processes alone.  Most steps move
    no `pid` and no `ppid` and bury nobody, and `Tree.quiet` keeps the tree
    through all of them; `fork`, `exit` and the emptying of a slot are the three
    steps that change its shape.  That no task is its own ancestor
    (`Tree.rank`) is what makes handing children on to the grandfather safe.
    The log part rests on one fact: of a dead task, the log last speaks of its
    exit. -/

namespace NeonixProcessTree

open NeonixMachine NeonixTask NeonixTaskSpecs NeonixProcesses NeonixRuns

/-- What holds of each task by itself. -/
structure Slot (i : Nat) (p : Proc) : Prop where
  bound : i ∈ slots
  pid : p.pid = i
  node : p.state = .ready ∨ p.state = .running ∨ p.state = .died → p.node = none
  low : i < 2 → p.ppid = 0
  idle : i = idle_task → p.uid = KERNEL_USER ∧ (p.state = .ready ∨ p.state = .running)

/-- A waiting task has a child it waits for, and no dead one. -/
def Waits (P : Nat → Option Proc) (w : Proc) : Prop :=
  (∃ j q, P j = some q ∧ Matches w w.waitpid j q) ∧
    ∀ j q, P j = some q → Matches w w.waitpid j q → q.state ≠ .died

/-- The processes form a forest whose inner tasks are alive. -/
structure Tree (P : Nat → Option Proc) (current : Nat) (waiters : List Nat) : Prop where
  slot : ∀ i p, P i = some p → Slot i p
  low : ∀ i < 2, ∃ p, P i = some p
  rank : ∃ rank : Nat → Nat, ∀ i p, P i = some p → p.ppid ≠ 0 → rank p.ppid < rank i
  parent : ∀ i p, P i = some p → p.ppid ≠ 0 → ∃ q, P p.ppid = some q ∧ q.state ≠ .died
  waiting : ∀ i p, P i = some p → p.state = .waiting → Waits P p
  running : ∀ i p, P i = some p → p.state = .running → i = current
  blocked : ∀ i ∈ waiters, ∃ p, P i = some p ∧ p.state = .blocked ∧ p.node = some .blockList
  nodup : waiters.Nodup

/-- The tree of a scheduler state. -/
def TreeOf (s : Sched) : Prop := Tree s.proc s.current s.waiters

/-- The running task is in the table and marked so. -/
def Runs (s : Sched) : Prop := ∃ p, s.proc s.current = some p ∧ p.state = .running

variable {P P' : Nat → Option Proc} {current current' : Nat} {waiters waiters' : List Nat}

/-! ## Steps that leave the shape of the tree alone -/

/-- A store that moves no `pid` and no `ppid` and neither buries nor revives. -/
structure Quiet (P : Nat → Option Proc) (f : Nat → Proc → Proc) : Prop where
  pid : ∀ j q, P j = some q → (f j q).pid = q.pid
  ppid : ∀ j q, P j = some q → (f j q).ppid = q.ppid
  died : ∀ j q, P j = some q → (f j q).state = .died → q.state = .died

theorem Waits.quiet {f : Nat → Proc → Proc} {w : Proc} (h : Waits P w)
    (hP : ∀ j, P' j = (P j).map (f j)) (hf : Quiet P f) : Waits P' w := by
  obtain ⟨⟨j, q, hq, hm⟩, hdead⟩ := h
  have hiff : ∀ j q, P j = some q →
      (Matches w w.waitpid j (f j q) ↔ Matches w w.waitpid j q) := by
    intro j q hq
    rw [Matches, Matches, hf.pid j q hq, hf.ppid j q hq]
  refine ⟨⟨j, f j q, by rw [hP, hq]; rfl, (hiff j q hq).mpr hm⟩, ?_⟩
  intro k r hr hmr hs
  rw [hP] at hr
  obtain ⟨q, hq, rfl⟩ := Option.map_eq_some_iff.mp hr
  exact hdead k q hq ((hiff k q hq).mp hmr) (hf.died k q hq hs)

/-- What is left to show of a store that leaves the shape alone. -/
theorem Tree.quiet {f : Nat → Proc → Proc} (h : Tree P current waiters)
    (hP : ∀ j, P' j = (P j).map (f j)) (hf : Quiet P f)
    (hslot : ∀ j q, P j = some q → Slot j (f j q))
    (hwait : ∀ j q, P j = some q → (f j q).state = .waiting → Waits P (f j q))
    (hrun : ∀ j q, P j = some q → (f j q).state = .running → j = current')
    (hwaiters : ∀ i ∈ waiters', ∃ q, P i = some q ∧ (f i q).state = .blocked ∧
      (f i q).node = some .blockList)
    (hnodup : waiters'.Nodup) : Tree P' current' waiters' := by
  have hback : ∀ {j r}, P' j = some r → ∃ q, P j = some q ∧ f j q = r := by
    intro j r hr
    rw [hP] at hr
    exact Option.map_eq_some_iff.mp hr
  have hfwd : ∀ {j q}, P j = some q → P' j = some (f j q) := by
    intro j q hq
    rw [hP, hq]
    rfl
  refine ⟨?_, ?_, ?_, ?_, ?_, ?_, ?_, hnodup⟩
  · intro i p hp
    obtain ⟨q, hq, rfl⟩ := hback hp
    exact hslot i q hq
  · intro i hi
    obtain ⟨p, hp⟩ := h.low i hi
    exact ⟨_, hfwd hp⟩
  · obtain ⟨rank, hrank⟩ := h.rank
    refine ⟨rank, ?_⟩
    intro i p hp hne
    obtain ⟨q, hq, rfl⟩ := hback hp
    rw [hf.ppid i q hq] at hne ⊢
    exact hrank i q hq hne
  · intro i p hp hne
    obtain ⟨q, hq, rfl⟩ := hback hp
    rw [hf.ppid i q hq] at hne ⊢
    obtain ⟨r, hr, hs⟩ := h.parent i q hq hne
    exact ⟨_, hfwd hr, fun hd => hs (hf.died _ r hr hd)⟩
  · intro i p hp hs
    obtain ⟨q, hq, rfl⟩ := hback hp
    exact (hwait i q hq hs).quiet hP hf
  · intro i p hp hs
    obtain ⟨q, hq, rfl⟩ := hback hp
    exact hrun i q hq hs
  · intro i hi
    obtain ⟨q, hq, hs⟩ := hwaiters i hi
    exact ⟨_, hfwd hq, hs⟩

/-- The tree speaks of the processes, the running task and the waiters only. -/
theorem TreeOf.same {s s' : Sched} (h : TreeOf s) (hsame : SameProcs s s') : TreeOf s' := by
  have hproc : s'.proc = s.proc := funext hsame.proc
  rw [TreeOf, hproc, hsame.current, hsame.waiters]
  exact h

/-- A switch keeps the tree, and the task it picks runs. -/
theorem TreeOf.schedule {s : Sched} (h : TreeOf s) (policy : Policy) :
    TreeOf (schedule s policy) ∧ Runs (schedule s policy) := by
  -- the picked task was ready, or is the idle task
  have hpick : ∃ p, s.proc (policy.pick s) = some p ∧ p.node = none ∧
      (p.state = .ready ∨ p.state = .running) := by
    rcases canPick_proc (policy.canPick s) with ⟨-, -, p, hp, hs⟩ | hidle
    · exact ⟨p, hp, (h.slot _ p hp).node (Or.inl hs), Or.inl hs⟩
    · rw [hidle]
      obtain ⟨p, hp⟩ := h.low idle_task (by decide)
      have hs := ((h.slot _ p hp).idle rfl).2
      exact ⟨p, hp, (h.slot _ p hp).node (hs.imp id Or.inl), hs⟩
  obtain ⟨n, hn, hnode, hstate⟩ := hpick
  refine ⟨?_, ?_⟩
  · refine Tree.quiet h (proc_schedule policy) ⟨fun _ _ _ => rfl, fun _ _ _ => rfl, ?_⟩
      ?_ ?_ ?_ ?_ h.nodup
    · intro j q hq hd
      dsimp only at hd
      split_ifs at hd
      exact hd
    · intro j q hq
      have hslot := h.slot j q hq
      refine ⟨hslot.bound, hslot.pid, ?_, hslot.low, ?_⟩
      · intro hs
        dsimp only at hs ⊢
        split_ifs at hs with h1 h2
        · rw [h1, hn] at hq
          rw [← Option.some.inj hq]
          exact hnode
        · exact hslot.node (Or.inr (Or.inl h2.2))
        · exact hslot.node hs
      · intro hi
        refine ⟨(hslot.idle hi).1, ?_⟩
        dsimp only
        split_ifs with h1 h2
        · exact Or.inr rfl
        · exact Or.inl rfl
        · exact (hslot.idle hi).2
    · intro j q hq hs
      dsimp only at hs
      split_ifs at hs
      exact h.waiting j q hq hs
    · intro j q hq hs
      dsimp only at hs
      split_ifs at hs with h1 h2
      · exact h1
      · exact absurd ⟨h.running j q hq hs, hs⟩ h2
    · intro i hi
      obtain ⟨q, hq, hs, hl⟩ := h.blocked i hi
      refine ⟨q, hq, ?_, hl⟩
      have h1 : i ≠ policy.pick s := by
        rintro rfl
        rw [hn] at hq
        rw [← Option.some.inj hq] at hs
        rcases hstate with h | h <;> rw [h] at hs <;> cases hs
      simp [h1, hs]
  · refine ⟨{ n with state := .running }, ?_, rfl⟩
    rw [proc_schedule, schedule_current, hn]
    simp

/-- Waking a task that is neither running nor dead keeps the tree. -/
theorem Tree.wake {s s' : Sched} {i : Nat} {reason : Int} {p : Proc} (h : TreeOf s)
    (hp : s.proc i = some p) (hlive : p.node ≠ none ∨ p.state = .waiting ∨ p.state = .sleeping)
    (hw : Wakes s s' i reason) (hsub : ∀ j ∈ waiters', j ∈ s.waiters ∧ j ≠ i)
    (hnodup : waiters'.Nodup) : Tree s'.proc s'.current waiters' := by
  have hstate : p.state ≠ .running ∧ p.state ≠ .died := by
    rcases hlive with hl | hl | hl
    · exact ⟨fun hs => hl ((h.slot i p hp).node (Or.inr (Or.inl hs))),
        fun hs => hl ((h.slot i p hp).node (Or.inr (Or.inr hs)))⟩
    · constructor <;> rw [hl] <;> intro h <;> cases h
    · constructor <;> rw [hl] <;> intro h <;> cases h
  rw [hw.current]
  refine Tree.quiet h hw.proc ⟨?_, ?_, ?_⟩ ?_ ?_ ?_ ?_ hnodup
  · intro j q _
    split_ifs <;> rfl
  · intro j q _
    split_ifs <;> rfl
  · intro j q hq hd
    split_ifs at hd with hj
    exact hd
  · intro j q hq
    have hslot := h.slot j q hq
    split_ifs with hj
    · exact ⟨hslot.bound, hslot.pid, fun _ => rfl, hslot.low,
        fun hi => ⟨(hslot.idle hi).1, Or.inl rfl⟩⟩
    · exact hslot
  · intro j q hq hs
    split_ifs at hs ⊢ with hj
    exact h.waiting j q hq hs
  · intro j q hq hs
    split_ifs at hs with hj
    exact h.running j q hq hs
  · intro j hj
    obtain ⟨hmem, hne⟩ := hsub j hj
    obtain ⟨q, hq, hs⟩ := h.blocked j hmem
    refine ⟨q, hq, ?_⟩
    rw [if_neg hne]
    exact hs

/-- Blocking a running task keeps the tree where it may wait: a task that goes
    to `TASK_WAITING` has to wait for a child. -/
theorem Tree.block {k : Nat → Option Proc} {s : Sched} {g : Proc → Proc} (h : TreeOf s)
    (hcur : s.current ≠ idle_task) (hruns : Runs s)
    (hk : ∀ j, k j = (s.proc j).map fun p => if j = s.current then g p else p)
    (hg : ∀ p, (g p).pid = p.pid ∧ (g p).ppid = p.ppid)
    (hstate : ∀ p, (g p).state = .blocked ∨ (g p).state = .waiting ∨ (g p).state = .sleeping)
    (hwait : ∀ p, s.proc s.current = some p → (g p).state = .waiting → Waits s.proc (g p))
    (hwaiters : ∀ i ∈ waiters', i ∈ s.waiters ∨
      i = s.current ∧ ∀ p, (g p).state = .blocked ∧ (g p).node = some .blockList)
    (hnodup : waiters'.Nodup) : Tree k s.current waiters' := by
  obtain ⟨r, hr, hrs⟩ := hruns
  have hnot : ∀ p state, state = TaskState.ready ∨ state = .running ∨ state = .died →
      (g p).state ≠ state := by
    intro p state hor heq
    rcases hstate p with h | h | h <;> rw [h] at heq <;> subst heq <;> simp at hor
  refine Tree.quiet h hk ⟨?_, ?_, ?_⟩ ?_ ?_ ?_ ?_ hnodup
  · intro j q _
    split_ifs
    · exact (hg q).1
    · rfl
  · intro j q _
    split_ifs
    · exact (hg q).2
    · rfl
  · intro j q _ hd
    split_ifs at hd
    · exact absurd hd (hnot q .died (by simp))
    · exact hd
  · intro j q hq
    have hslot := h.slot j q hq
    split_ifs with hj
    · refine ⟨hslot.bound, (hg q).1.trans hslot.pid, ?_,
        fun hl => (hg q).2.trans (hslot.low hl), ?_⟩
      · intro hs
        exact absurd rfl (hnot q _ hs)
      · intro hi
        exact absurd (hj.symm.trans hi) hcur
    · exact hslot
  · intro j q hq hs
    split_ifs at hs ⊢ with hj
    · subst hj
      exact hwait q hq hs
    · exact h.waiting j q hq hs
  · intro j q hq hs
    split_ifs at hs with hj
    · exact hj
    · exact h.running j q hq hs
  · intro i hi
    rcases hwaiters i hi with hmem | ⟨rfl, hgi⟩
    · obtain ⟨q, hq, hs⟩ := h.blocked i hmem
      refine ⟨q, hq, ?_⟩
      by_cases hj : i = s.current
      · -- the running task is not blocked
        rw [hj, hr] at hq
        rw [← Option.some.inj hq, hrs] at hs
        exact absurd hs.1 (by simp)
      · rw [if_neg hj]
        exact hs
    · refine ⟨r, hr, ?_⟩
      rw [if_pos rfl]
      exact hgi r

/-! ## Steps that change the shape of the tree -/

/-- `task_fork` hangs a leaf under the running task. -/
theorem TreeOf.fork {s s' : Sched} {c : Nat} (h : TreeOf s) (hf : taskFork s = .ok (c, s')) :
    TreeOf s' ∧ Runs s' := by
  obtain ⟨p, hp, hnode, hstate, hfree, hmem, hcur, hwait, -, hproc⟩ := taskFork_spec hf
  have hpid : p.pid = s.current := (h.slot _ p hp).pid
  have hcne : ∀ {i q}, s.proc i = some q → i ≠ c := by
    rintro i q hq rfl
    rw [hfree] at hq
    cases hq
  have hold : ∀ {i q}, s.proc i = some q → s'.proc i = some q := by
    intro i q hq
    rw [hproc, if_neg (hcne hq)]
    exact hq
  have hc2 : ¬ c < 2 := by
    intro hlt
    obtain ⟨q, hq⟩ := h.low c hlt
    exact hcne hq rfl
  have hback : ∀ {i r}, s'.proc i = some r → s.proc i = some r ∨
      i = c ∧ r = { p with pid := c, ppid := p.pid, state := .ready } := by
    intro i r hr
    rw [hproc] at hr
    by_cases hi : i = c
    · rw [if_pos hi] at hr
      exact Or.inr ⟨hi, (Option.some.inj hr).symm⟩
    · rw [if_neg hi] at hr
      exact Or.inl hr
  refine ⟨?_, ?_⟩
  · rw [TreeOf, hcur, hwait]
    refine ⟨?_, ?_, ?_, ?_, ?_, ?_, ?_, h.nodup⟩
    · intro i r hr
      rcases hback hr with hr | ⟨rfl, rfl⟩
      · exact h.slot i r hr
      · exact ⟨hmem, rfl, fun _ => hnode, fun hlt => absurd hlt hc2,
          fun hi => absurd (hi ▸ Nat.zero_lt_two) hc2⟩
    · intro i hi
      obtain ⟨q, hq⟩ := h.low i hi
      exact ⟨q, hold hq⟩
    · -- the child is ranked one above its father
      obtain ⟨rank, hrank⟩ := h.rank
      refine ⟨Function.update rank c (rank s.current + 1), ?_⟩
      intro i r hr hne
      rcases hback hr with hr | ⟨rfl, rfl⟩
      · obtain ⟨q, hq, -⟩ := h.parent i r hr hne
        rw [Function.update_of_ne (hcne hq), Function.update_of_ne (hcne hr)]
        exact hrank i r hr hne
      · rw [Function.update_self, show p.pid = s.current from hpid,
          Function.update_of_ne (hcne hp)]
        exact Nat.lt_succ_self _
    · intro i r hr hne
      rcases hback hr with hr | ⟨rfl, rfl⟩
      · obtain ⟨q, hq, hs⟩ := h.parent i r hr hne
        exact ⟨q, hold hq, hs⟩
      · refine ⟨p, hold (by rw [show p.pid = s.current from hpid]; exact hp), ?_⟩
        rw [hstate]
        simp
    · intro i r hr hs
      rcases hback hr with hr | ⟨rfl, rfl⟩
      · obtain ⟨⟨j, q, hq, hm⟩, hdead⟩ := h.waiting i r hr hs
        refine ⟨⟨j, q, hold hq, hm⟩, ?_⟩
        intro k u hu hmu
        rcases hback hu with hu | ⟨rfl, rfl⟩
        · exact hdead k u hu hmu
        · simp
      · cases hs
    · intro i r hr hs
      rcases hback hr with hr | ⟨rfl, rfl⟩
      · exact h.running i r hr hs
      · cases hs
    · intro i hi
      obtain ⟨q, hq, hs⟩ := h.blocked i hi
      exact ⟨q, hold hq, hs⟩
  · exact ⟨p, by rw [hcur]; exact hold hp, hstate⟩

/-- What `task_exit` has done to each task when it switches away. -/
def exitProc (task : Proc) (current : Nat) (status : Int) (j : Nat) (q : Proc) : Proc :=
  wakeProc task j (reparentProc task j
    (if j = current then { q with state := .died, status := status, pc := .inExit } else q))

/-- `task_exit` with a clean-up that does not block, up to its switch. -/
theorem taskExit_spec {s s' : Sched} {status : Int} {policy : Policy}
    (h : taskExit s status policy = .ok s') :
    ∃ p k, s' = schedule k policy ∧ s.proc s.current = some p ∧ p.state = .running ∧
      k.current = s.current ∧ k.waiters = s.waiters ∧
      ∀ j, k.proc j = (s.proc j).map (exitProc p s.current status j) := by
  obtain ⟨m, hmark, hfin⟩ := bind_eq_ok h
  obtain ⟨p, hp, -, hs, hcur, hwait, -, hproc⟩ := exitMark_spec hmark
  obtain ⟨p', k, hk, hp', hcur', hwait', -, hproc'⟩ := exitFinish_spec hfin
  refine ⟨p, k, hk, hp, hs, hcur'.trans hcur, hwait'.trans hwait, ?_⟩
  -- the mark leaves `pid` and `ppid`, all the end of `task_exit` reads
  have hpp : p' = { p with state := .died, status := status, pc := .inExit } := by
    rw [hcur, hproc, hp] at hp'
    simpa using (Option.some.inj hp').symm
  intro j
  rw [hproc', hproc, Option.map_map, hpp]
  rfl

section Exit

variable {task : Proc} {status : Int}

theorem wakeProc_state (j : Nat) (q : Proc) :
    (wakeProc task j q).state = q.state ∨ (wakeProc task j q).state = .ready ∧
      (wakeProc task j q).node = none ∧ q.state = .waiting := by
  rw [wakeProc]
  split_ifs with h
  · exact Or.inr ⟨rfl, rfl, h.2.1⟩
  · exact Or.inl rfl

@[simp] theorem wakeProc_pid (j : Nat) (q : Proc) : (wakeProc task j q).pid = q.pid := by
  rw [wakeProc]; split_ifs <;> rfl
@[simp] theorem wakeProc_ppid (j : Nat) (q : Proc) : (wakeProc task j q).ppid = q.ppid := by
  rw [wakeProc]; split_ifs <;> rfl
@[simp] theorem wakeProc_uid (j : Nat) (q : Proc) : (wakeProc task j q).uid = q.uid := by
  rw [wakeProc]; split_ifs <;> rfl
@[simp] theorem wakeProc_waitpid (j : Nat) (q : Proc) :
    (wakeProc task j q).waitpid = q.waitpid := by
  rw [wakeProc]; split_ifs <;> rfl
@[simp] theorem reparentProc_pid (j : Nat) (q : Proc) : (reparentProc task j q).pid = q.pid := by
  rw [reparentProc]; split_ifs <;> rfl
@[simp] theorem reparentProc_uid (j : Nat) (q : Proc) : (reparentProc task j q).uid = q.uid := by
  rw [reparentProc]; split_ifs <;> rfl
@[simp] theorem reparentProc_state (j : Nat) (q : Proc) :
    (reparentProc task j q).state = q.state := by
  rw [reparentProc]; split_ifs <;> rfl
@[simp] theorem reparentProc_node (j : Nat) (q : Proc) :
    (reparentProc task j q).node = q.node := by
  rw [reparentProc]; split_ifs <;> rfl
@[simp] theorem reparentProc_waitpid (j : Nat) (q : Proc) :
    (reparentProc task j q).waitpid = q.waitpid := by
  rw [reparentProc]; split_ifs <;> rfl

@[simp] theorem exitProc_pid (c j : Nat) (q : Proc) :
    (exitProc task c status j q).pid = q.pid := by
  rw [exitProc, wakeProc_pid, reparentProc_pid]; split_ifs <;> rfl
@[simp] theorem exitProc_uid (c j : Nat) (q : Proc) :
    (exitProc task c status j q).uid = q.uid := by
  rw [exitProc, wakeProc_uid, reparentProc_uid]; split_ifs <;> rfl
@[simp] theorem exitProc_waitpid (c j : Nat) (q : Proc) :
    (exitProc task c status j q).waitpid = q.waitpid := by
  rw [exitProc, wakeProc_waitpid, reparentProc_waitpid]; split_ifs <;> rfl

theorem exitProc_ppid (c j : Nat) (q : Proc) :
    (exitProc task c status j q).ppid =
      if 2 ≤ j ∧ q.ppid = task.pid then task.ppid else q.ppid := by
  rw [exitProc, wakeProc_ppid, reparentProc]
  split_ifs <;> rfl

/-- The exiting task is dead, with its status. -/
theorem exitProc_self (c : Nat) (q : Proc) :
    (exitProc task c status c q).state = .died ∧ (exitProc task c status c q).status = status ∧
      (exitProc task c status c q).node = q.node := by
  rw [exitProc, if_pos rfl, wakeProc, if_neg (by simp), reparentProc]
  split_ifs <;> exact ⟨rfl, rfl, rfl⟩

/-- Any other task is as it was but for its father, or the woken father. -/
theorem exitProc_other (task : Proc) (status : Int) {c j : Nat} (q : Proc) (hj : j ≠ c) :
    ((exitProc task c status j q).state = q.state ∧
        (exitProc task c status j q).status = q.status ∧
        (exitProc task c status j q).node = q.node ∧
        ¬ (j = task.ppid ∧ q.state = .waiting ∧ (q.waitpid = -1 ∨ q.waitpid = task.pid))) ∨
      ((exitProc task c status j q).state = .ready ∧
        (exitProc task c status j q).node = none ∧ q.state = .waiting) := by
  rw [exitProc, if_neg hj, wakeProc]
  by_cases hw : j = task.ppid ∧ (reparentProc task j q).state = .waiting ∧
      ((reparentProc task j q).waitpid = -1 ∨ (reparentProc task j q).waitpid = task.pid)
  · rw [if_pos hw]
    rw [reparentProc_state] at hw
    exact Or.inr ⟨rfl, rfl, hw.2.1⟩
  · rw [if_neg hw]
    rw [reparentProc_state, reparentProc_waitpid] at hw
    refine Or.inl ⟨by simp, ?_, by simp, hw⟩
    rw [reparentProc]
    split_ifs <;> rfl

end Exit

/-- `task_exit` cuts a leaf of the living tasks and hands its children on. -/
theorem TreeOf.exit {s s' : Sched} {status : Int} {policy : Policy} (h : TreeOf s)
    (hidle : s.current ≠ idle_task) (he : taskExit s status policy = .ok s') :
    TreeOf s' ∧ Runs s' := by
  obtain ⟨p, k, rfl, hp, hps, hcur, hwait, hproc⟩ := taskExit_spec he
  refine TreeOf.schedule (s := k) ?_ policy
  rw [TreeOf, hcur, hwait]
  generalize hc : s.current = c at *
  have hpid : p.pid = c := (h.slot c p hp).pid
  obtain ⟨rank, hrank⟩ := h.rank
  have hback : ∀ {j r}, k.proc j = some r →
      ∃ q, s.proc j = some q ∧ exitProc p c status j q = r := by
    intro j r hr
    rw [hproc] at hr
    exact Option.map_eq_some_iff.mp hr
  have hfwd : ∀ {j q}, s.proc j = some q → k.proc j = some (exitProc p c status j q) := by
    intro j q hq
    rw [hproc, hq]
    rfl
  -- the father of the exiting task is another task
  have hfather : p.ppid ≠ 0 → p.ppid ≠ c := by
    intro hne heq
    have hlt := hrank c p hp hne
    rw [heq] at hlt
    exact Nat.lt_irrefl _ hlt
  -- a living task other than the exiting one does not die
  have hlive : ∀ {j q}, s.proc j = some q → q.state ≠ .died → j ≠ c →
      (exitProc p c status j q).state ≠ .died := by
    intro j q hq hs hj
    rcases exitProc_other p status q hj with ⟨hst, -⟩ | ⟨hst, -⟩
    · rw [hst]
      exact hs
    · rw [hst]
      simp
  refine ⟨?_, ?_, ⟨rank, ?_⟩, ?_, ?_, ?_, ?_, h.nodup⟩
  · intro i r hr
    obtain ⟨q, hq, rfl⟩ := hback hr
    have hslot := h.slot i q hq
    refine ⟨hslot.bound, (exitProc_pid c i q).trans hslot.pid, ?_, ?_, ?_⟩
    · intro hst
      by_cases hi : i = c
      · subst hi
        rw [hp] at hq
        rw [← Option.some.inj hq, (exitProc_self i p).2.2]
        exact (h.slot i p hp).node (Or.inr (Or.inl hps))
      · rcases exitProc_other p status q hi with ⟨hs, -, hn, -⟩ | ⟨-, hn, -⟩
        · rw [hn]
          rw [hs] at hst
          exact hslot.node hst
        · exact hn
    · intro hlt
      rw [exitProc_ppid, if_neg (by omega)]
      exact hslot.low hlt
    · intro hi
      rw [exitProc_uid]
      refine ⟨(hslot.idle hi).1, ?_⟩
      have hic : i ≠ c := by
        rw [hi]
        exact fun heq => hidle heq.symm
      rcases exitProc_other p status q hic with ⟨hs, -⟩ | ⟨hs, -⟩
      · rw [hs]
        exact (hslot.idle hi).2
      · exact Or.inl hs
  · intro i hi
    obtain ⟨q, hq⟩ := h.low i hi
    exact ⟨_, hfwd hq⟩
  · -- a child handed on is ranked above its father, and so above its grandfather
    intro i r hr hne
    obtain ⟨q, hq, rfl⟩ := hback hr
    rw [exitProc_ppid] at hne ⊢
    by_cases hcond : 2 ≤ i ∧ q.ppid = p.pid
    · rw [if_pos hcond] at hne ⊢
      have hq0 : q.ppid ≠ 0 := by
        rw [hcond.2, hpid]
        exact hidle
      have h1 := hrank i q hq hq0
      rw [hcond.2, hpid] at h1
      exact Nat.lt_trans (hrank c p hp hne) h1
    · rw [if_neg hcond] at hne ⊢
      exact hrank i q hq hne
  · intro i r hr hne
    obtain ⟨q, hq, rfl⟩ := hback hr
    rw [exitProc_ppid] at hne ⊢
    by_cases hcond : 2 ≤ i ∧ q.ppid = p.pid
    · rw [if_pos hcond] at hne ⊢
      obtain ⟨f, hf, hfs⟩ := h.parent c p hp hne
      exact ⟨_, hfwd hf, hlive hf hfs (hfather hne)⟩
    · rw [if_neg hcond] at hne ⊢
      obtain ⟨f, hf, hfs⟩ := h.parent i q hq hne
      refine ⟨_, hfwd hf, hlive hf hfs ?_⟩
      intro heq
      have h2 : 2 ≤ i := by
        by_contra hlt
        exact hne ((h.slot i q hq).low (by omega))
      exact hcond ⟨h2, heq.trans hpid.symm⟩
  · intro i r hr hs
    obtain ⟨w, hw, rfl⟩ := hback hr
    by_cases hi : i = c
    · subst hi
      rw [(exitProc_self i w).1] at hs
      cases hs
    rcases exitProc_other p status w hi with ⟨hst, -, -, hnot⟩ | ⟨hst, -⟩
    · rw [hst] at hs
      have hwpid : w.pid = i := (h.slot i w hw).pid
      obtain ⟨⟨j, q, hq, hm⟩, hdead⟩ := h.waiting i w hw hs
      -- the exiting task is no child it waits for, or it would have been woken
      have hnm : ¬ Matches w w.waitpid c p := by
        rintro ⟨-, hpp, hor⟩
        refine hnot ⟨hwpid.symm.trans hpp.symm, hs, ?_⟩
        rcases hor with hor | hor
        · exact Or.inr hor
        · exact Or.inl hor
      have hkeep : ∀ {m u}, s.proc m = some u → u.ppid = w.pid →
          (exitProc p c status m u).ppid = u.ppid := by
        intro m u hu hpp
        rw [exitProc_ppid, if_neg]
        rintro ⟨-, hc'⟩
        exact hi (hwpid.symm.trans (hpp.symm.trans (hc'.trans hpid)))
      refine ⟨⟨j, _, hfwd hq, ?_⟩, ?_⟩
      · obtain ⟨h2, hpp, hor⟩ := hm
        refine ⟨h2, ?_, ?_⟩
        · rw [hkeep hq hpp, exitProc_pid]
          exact hpp
        · rw [exitProc_waitpid, exitProc_pid]
          exact hor
      · intro m r hr hmr hrs
        obtain ⟨u, hu, rfl⟩ := hback hr
        obtain ⟨h2, hpp, hor⟩ := hmr
        rw [exitProc_ppid, exitProc_pid] at hpp
        rw [exitProc_waitpid, exitProc_pid] at hor
        by_cases hcond : 2 ≤ m ∧ u.ppid = p.pid
        · -- a child of the exiting task handed to a father that waits for another
          rw [if_pos hcond] at hpp
          rcases hor with hor | hor
          · have hmu : (j : Int) = m := by
              rw [← (h.slot j q hq).pid, ← (h.slot m u hu).pid, ← hor]
              rcases hm.2.2 with hjm | hjm
              · exact hjm.symm
              · rw [hjm] at hor
                omega
            have hjm : j = m := by exact_mod_cast hmu
            subst hjm
            rw [hq] at hu
            obtain rfl := Option.some.inj hu
            exact hi (hwpid.symm.trans (hm.2.1.symm.trans (hcond.2.trans hpid)))
          · exact hnot ⟨hwpid.symm.trans hpp.symm, hs, Or.inl hor⟩
        · rw [if_neg hcond] at hpp
          have hmc : m ≠ c := by
            rintro rfl
            rw [hp] at hu
            obtain rfl := Option.some.inj hu
            exact hnm ⟨h2, hpp, hor⟩
          exact hlive hu (hdead m u hu ⟨h2, hpp, hor⟩) hmc hrs
    · rw [hst] at hs
      cases hs
  · intro i r hr hs
    obtain ⟨q, hq, rfl⟩ := hback hr
    by_cases hi : i = c
    · exact hi
    · rcases exitProc_other p status q hi with ⟨hst, -⟩ | ⟨hst, -⟩
      · rw [hst] at hs
        exact (h.running i q hq hs).trans hc
      · rw [hst] at hs
        cases hs
  · intro i hi
    obtain ⟨q, hq, hs, hn⟩ := h.blocked i hi
    have hic : i ≠ c := by
      rintro rfl
      rw [hp] at hq
      rw [← Option.some.inj hq, hps] at hs
      cases hs
    rcases exitProc_other p status q hic with ⟨hst, -, hnd, -⟩ | ⟨-, -, hw⟩
    · exact ⟨_, hfwd hq, hst.trans hs, hnd.trans hn⟩
    · rw [hw] at hs
      cases hs

/-- Emptying the slot of a dead child of the running task keeps the tree. -/
theorem TreeOf.clear {s : Sched} {i : Nat} {q : Proc} (h : TreeOf s) (hruns : Runs s)
    (hq : s.proc i = some q) (hs : q.state = .died) (hi : 2 ≤ i) :
    TreeOf (clearSlot s i) ∧ Runs (clearSlot s i) := by
  have hproc := proc_clearSlot s i
  have hback : ∀ {j r}, (clearSlot s i).proc j = some r → s.proc j = some r := by
    intro j r hr
    rw [hproc] at hr
    split_ifs at hr
    exact hr
  have hfwd : ∀ {j r}, s.proc j = some r → r.state ≠ .died →
      (clearSlot s i).proc j = some r := by
    intro j r hr hne
    rw [hproc, if_neg]
    · exact hr
    · rintro rfl
      rw [hq] at hr
      rw [← Option.some.inj hr] at hne
      exact hne hs
  obtain ⟨c, hc, hcs⟩ := hruns
  refine ⟨⟨?_, ?_, ?_, ?_, ?_, ?_, ?_, h.nodup⟩, c, hfwd hc (by rw [hcs]; simp), hcs⟩
  · intro j r hr
    exact h.slot j r (hback hr)
  · intro j hj
    obtain ⟨r, hr⟩ := h.low j hj
    refine ⟨r, ?_⟩
    rw [hproc, if_neg (by omega)]
    exact hr
  · obtain ⟨rank, hrank⟩ := h.rank
    exact ⟨rank, fun j r hr hne => hrank j r (hback hr) hne⟩
  · intro j r hr hne
    obtain ⟨f, hf, hfs⟩ := h.parent j r (hback hr) hne
    exact ⟨f, hfwd hf hfs, hfs⟩
  · intro j w hw hws
    obtain ⟨⟨m, u, hu, hm⟩, hdead⟩ := h.waiting j w (hback hw) hws
    exact ⟨⟨m, u, hfwd hu (hdead m u hu hm), hm⟩, fun n v hv => hdead n v (hback hv)⟩
  · intro j r hr hrs
    exact h.running j r (hback hr) hrs
  · intro j hj
    obtain ⟨r, hr, hrs, hn⟩ := h.blocked j hj
    exact ⟨r, hfwd hr (by rw [hrs]; simp), hrs, hn⟩

/-! ## The log -/

/-- The task an observation is about; a switch is about none. -/
def Obs.about : Obs → Option Nat
  | .forked _ child => some child
  | .exited pid _ => some pid
  | .reaped _ child _ => some child
  | .picked _ => none

/-- The last observation about a task. -/
def lastAbout (log : List Obs) (i : Nat) : Option Obs :=
  log.find? fun o => Obs.about o = some i

theorem lastAbout_cons_self {o : Obs} {i : Nat} (log : List Obs) (h : Obs.about o = some i) :
    lastAbout (o :: log) i = some o :=
  List.find?_cons_of_pos (by simpa using h)

theorem lastAbout_cons_other {o : Obs} {i : Nat} (log : List Obs) (h : Obs.about o ≠ some i) :
    lastAbout (o :: log) i = lastAbout log i :=
  List.find?_cons_of_neg (by simpa using h)

/-- Every reap follows the exit of that child, with its status, and nothing else
    happened to the pid in between. -/
def ReapsExact (log : List Obs) : Prop :=
  ∀ newer parent child status older,
    log = newer ++ .reaped parent child status :: older →
      lastAbout older child = some (.exited child status)

theorem ReapsExact.cons {o : Obs} {log : List Obs} (h : ReapsExact log)
    (ho : ∀ parent child status, o = .reaped parent child status →
      lastAbout log child = some (.exited child status)) : ReapsExact (o :: log) := by
  intro newer parent child status older heq
  cases newer with
  | nil =>
      obtain ⟨rfl, rfl⟩ := List.cons.inj heq
      exact ho _ _ _ rfl
  | cons o' newer =>
      obtain ⟨-, hlog⟩ := List.cons.inj heq
      exact h newer parent child status older hlog

/-- Of a dead task the log last speaks of its exit. -/
def DeadLogged (P : Nat → Option Proc) (log : List Obs) : Prop :=
  ∀ i p, P i = some p → p.state = .died → lastAbout log i = some (.exited i p.status)

/-- An observation about no dead task. -/
theorem DeadLogged.cons {log : List Obs} {o : Obs} (h : DeadLogged P log)
    (hP : ∀ i p, P' i = some p → p.state = .died →
      Obs.about o ≠ some i ∧ ∃ q, P i = some q ∧ q.state = .died ∧ q.status = p.status) :
    DeadLogged P' (o :: log) := by
  intro i p hp hs
  obtain ⟨ho, q, hq, hqs, hst⟩ := hP i p hp hs
  rw [lastAbout_cons_other log ho, ← hst]
  exact h i q hq hqs

/-! ## Every reachable state -/

/-- The invariant of the process system. -/
structure TreeInv (s : State) : Prop where
  tree : TreeOf s.sched
  runs : Runs s.sched
  dead : DeadLogged s.proc s.log
  reaps : ReapsExact s.log

/-- The steps with a clean-up that does not block and no stale timer. -/
def Claimed (_ : State) : Event → Prop
  | .exitMark _ | .exitFinish _ | .timeout _ => False
  | _ => True

instance (s : State) : (e : Event) → Decidable (Claimed s e)
  | .exitMark _ | .exitFinish _ | .timeout _ => inferInstanceAs (Decidable False)
  | .fork | .exit _ _ | .waitpid _ _ | .resume _ | .kill _ _ | .yield _ | .block _ _ | .wake _
  | .wakeList _ | .sleep _ => inferInstanceAs (Decidable True)

/-- The dead are as they were. -/
def SameDead (P P' : Nat → Option Proc) : Prop :=
  ∀ i p, P' i = some p → p.state = .died → ∃ q, P i = some q ∧ q.state = .died ∧ q.status = p.status

theorem SameDead.trans {P'' : Nat → Option Proc} (h : SameDead P P') (h' : SameDead P' P'') :
    SameDead P P'' := by
  intro i p hp hs
  obtain ⟨q, hq, hqs, hst⟩ := h' i p hp hs
  obtain ⟨r, hr, hrs, hst'⟩ := h i q hq hqs
  exact ⟨r, hr, hrs, hst'.trans hst⟩

/-- A store that leaves the dead alone and makes none. -/
theorem SameDead.map {f : Nat → Proc → Proc} (hP : ∀ j, P' j = (P j).map (f j))
    (hf : ∀ j q, P j = some q → (f j q).state = .died →
      q.state = .died ∧ q.status = (f j q).status) : SameDead P P' := by
  intro i p hp hs
  rw [hP] at hp
  obtain ⟨q, hq, rfl⟩ := Option.map_eq_some_iff.mp hp
  exact ⟨q, hq, hf i q hq hs⟩

theorem sameDead_schedule (s : Sched) (policy : Policy) :
    SameDead s.proc (schedule s policy).proc := by
  refine SameDead.map (proc_schedule policy) ?_
  intro j q _ hs
  dsimp only at hs ⊢
  split_ifs at hs
  exact ⟨hs, rfl⟩

theorem sameDead_wakes {s s' : Sched} {i : Nat} {reason : Int} (h : Wakes s s' i reason) :
    SameDead s.proc s'.proc := by
  refine SameDead.map h.proc ?_
  intro j q _ hs
  split_ifs at hs ⊢
  exact ⟨hs, rfl⟩

theorem sameDead_same {s s' : Sched} (h : SameProcs s s') : SameDead s.proc s'.proc := by
  rw [show s'.proc = s.proc from funext h.proc]
  exact fun i p hp hs => ⟨p, hp, hs, rfl⟩

/-- The same dead, and an observation about no task of the table. -/
theorem TreeInv.next {s : State} {k : Sched} (h : TreeInv s) (htree : TreeOf k) (hruns : Runs k)
    (hdead : SameDead s.proc k.proc) : TreeInv { s with sched := k } := by
  refine ⟨htree, hruns, ?_, h.reaps⟩
  intro i p hp hs
  obtain ⟨q, hq, hqs, hst⟩ := hdead i p hp hs
  rw [← hst]
  exact h.dead i q hq hqs

theorem TreeInv.switched {s : State} {k : Sched} (h : TreeInv s) (htree : TreeOf k)
    (hruns : Runs k) (hdead : SameDead s.proc k.proc) : TreeInv (s.switched [] k) := by
  refine ⟨htree, hruns, ?_, ?_⟩
  · refine DeadLogged.cons h.dead ?_
    intro i p hp hs
    exact ⟨by simp [Obs.about], hdead i p hp hs⟩
  · refine h.reaps.cons ?_
    intro _ _ _ heq
    cases heq

theorem TreeInv.woken {s : State} {k : Sched} {i : Nat} {p : Proc} {reason : Int} (h : TreeInv s)
    (hp : s.proc i = some p) (hlive : p.node ≠ none ∨ p.state = .waiting ∨ p.state = .sleeping)
    (hw : Wakes s.sched k i reason) (hsub : ∀ j ∈ waiters', j ∈ s.sched.waiters ∧ j ≠ i)
    (hkw : k.waiters = waiters') (hnodup : waiters'.Nodup) : TreeInv { s with sched := k } := by
  refine h.next ?_ ?_ (sameDead_wakes hw)
  · rw [TreeOf, hkw]
    exact Tree.wake h.tree hp hlive hw hsub hnodup
  · obtain ⟨c, hc, hcs⟩ := h.runs
    refine ⟨c, ?_, hcs⟩
    rw [hw.current, hw.proc, hc]
    have hci : s.sched.current ≠ i := by
      rintro rfl
      rw [show s.sched.proc s.sched.current = some p from hp] at hc
      obtain rfl := Option.some.inj hc
      rcases hlive with hl | hl | hl
      · exact hl ((h.tree.slot _ p hp).node (Or.inr (Or.inl hcs)))
      · rw [hcs] at hl
        cases hl
      · rw [hcs] at hl
        cases hl
    simp [hci]

/-! ## The steps -/

/-- A store to the running task that moves only `pc` and `waitpid`. -/
theorem TreeOf.store {s : Sched} {f : Task → Task} {g : Proc → Proc} (h : TreeOf s)
    (hruns : Runs s) (hf : ∀ t, (f t).toProc = g t.toProc)
    (hg : ∀ p, (g p).pid = p.pid ∧ (g p).ppid = p.ppid ∧ (g p).uid = p.uid ∧
      (g p).state = p.state ∧ (g p).node = p.node ∧ (g p).status = p.status) :
    TreeOf (s.modify s.current f) ∧ Runs (s.modify s.current f) ∧
      SameDead s.proc (s.modify s.current f).proc := by
  have hmap := proc_modify (s := s) (i := s.current) g hf
  obtain ⟨c, hc, hcs⟩ := hruns
  refine ⟨?_, ?_, ?_⟩
  · refine Tree.quiet h hmap ⟨?_, ?_, ?_⟩ ?_ ?_ ?_ ?_ h.nodup
    · intro j q _
      split_ifs
      · exact (hg q).1
      · rfl
    · intro j q _
      split_ifs
      · exact (hg q).2.1
      · rfl
    · intro j q _ hd
      split_ifs at hd
      · rw [(hg q).2.2.2.1] at hd
        exact hd
      · exact hd
    · intro j q hq
      have hslot := h.slot j q hq
      split_ifs
      · obtain ⟨h1, h2, h3, h4, h5, -⟩ := hg q
        refine ⟨hslot.bound, h1.trans hslot.pid, ?_, fun hl => h2.trans (hslot.low hl), ?_⟩
        · rw [h4, h5]
          exact hslot.node
        · rw [h3, h4]
          exact hslot.idle
      · exact hslot
    · intro j q hq hs
      -- the running task is not a waiting one
      have hjc : ∀ hj : j = s.current, q.state ≠ .waiting := by
        rintro rfl hw
        rw [hc] at hq
        rw [← Option.some.inj hq, hcs] at hw
        cases hw
      split_ifs at hs ⊢ with hj
      · rw [(hg q).2.2.2.1] at hs
        exact absurd hs (hjc hj)
      · exact h.waiting j q hq hs
    · intro j q hq hs
      split_ifs at hs with hj
      · exact hj
      · exact h.running j q hq hs
    · intro i hi
      obtain ⟨q, hq, hs, hn⟩ := h.blocked i hi
      refine ⟨q, hq, ?_⟩
      split_ifs
      · rw [(hg q).2.2.2.1, (hg q).2.2.2.2.1]
        exact ⟨hs, hn⟩
      · exact ⟨hs, hn⟩
  · refine ⟨g c, ?_, (hg c).2.2.2.1.trans hcs⟩
    show Sched.proc _ s.current = _
    rw [hmap, hc]
    simp
  · refine SameDead.map hmap ?_
    intro j q _ hs
    split_ifs at hs ⊢
    · obtain ⟨-, -, -, h4, -, h6⟩ := hg q
      exact ⟨h4 ▸ hs, h6.symm⟩
    · exact ⟨hs, rfl⟩

/-- A task that blocks has left its slot alive. -/
theorem sameDead_block {s k : Sched} {list : WaitList} {state : TaskState} (hstate : state ≠ .died)
    (hk : ∀ j, k.proc j = (s.proc j).map fun p =>
      if j = s.current then { p with node := some list, state := state } else p) :
    SameDead s.proc k.proc := by
  refine SameDead.map hk ?_
  intro j q _ hs
  split_ifs at hs ⊢
  · exact absurd hs hstate
  · exact ⟨hs, rfl⟩

/-- The running task blocks on a list that is no wait for a child. -/
theorem TreeInv.block {s : State} {k s' : Sched} {list : WaitList} {state : TaskState}
    {policy : Policy} (h : TreeInv s) (hcur : s.current ≠ idle_task)
    (hproc : k.proc = s.proc) (hkc : k.current = s.current)
    (hstate : state = .blocked ∨ state = .sleeping)
    (hwaiters : k.waiters = s.sched.waiters ∨
      k.waiters = s.current :: s.sched.waiters ∧ state = .blocked ∧ list = .blockList)
    (hb : taskBlock k list state policy = .ok s') : TreeInv (s.switched [] s') := by
  obtain ⟨m, rfl, -, hmc, hmw, -, hm⟩ := taskBlock_spec hb
  rw [hproc, hkc] at hm
  have hdied : state ≠ .died := by
    rcases hstate with rfl | rfl <;> simp
  have hwaiting : state ≠ .waiting := by
    rcases hstate with rfl | rfl <;> simp
  have htree : TreeOf m := by
    rw [TreeOf, hmc, hkc]
    refine Tree.block (g := fun p => { p with node := some list, state := state }) h.tree hcur
      h.runs hm (fun _ => ⟨rfl, rfl⟩) ?_ ?_ ?_ ?_
    · intro _
      exact hstate.imp id Or.inr
    · intro _ _ hs
      exact absurd hs hwaiting
    · intro i hi
      rw [hmw] at hi
      rcases hwaiters with hw | ⟨hw, hs, hl⟩
      · rw [hw] at hi
        exact Or.inl hi
      · rw [hw] at hi
        rcases List.mem_cons.mp hi with rfl | hi
        · exact Or.inr ⟨rfl, fun _ => ⟨hs, by rw [hl]⟩⟩
        · exact Or.inl hi
    · rw [hmw]
      rcases hwaiters with hw | ⟨hw, -, -⟩
      · rw [hw]
        exact h.tree.nodup
      · rw [hw]
        refine List.nodup_cons.mpr ⟨?_, h.tree.nodup⟩
        intro hmem
        obtain ⟨q, hq, hs, -⟩ := h.tree.blocked _ hmem
        obtain ⟨c, hc, hcs⟩ := h.runs
        rw [show s.sched.proc s.current = some c from hc] at hq
        rw [← Option.some.inj hq, hcs] at hs
        cases hs
  obtain ⟨ht, hr⟩ := htree.schedule policy
  refine h.switched ht hr ?_
  exact (sameDead_block hdied hm).trans (sameDead_schedule m policy)

/-- A task that blocks in `task_waitpid`. -/
def waitProc (pid : Int) (p : Proc) : Proc :=
  { p with waitpid := pid, pc := .inWaitpid pid, node := some .blockList, state := .waiting }

/-- One turn of the loop of `task_waitpid`. -/
theorem TreeInv.waitpidTurn {s t : State} {pid : Int} {policy : Policy} (h : TreeInv s)
    (hcur : s.current ≠ idle_task) (hw : waitpidTurn s pid policy = .ok t) : TreeInv t := by
  obtain ⟨task, htask, hw⟩ := bind_eq_ok hw
  have hp := proc_of_task (runningTask_eq.mp htask)
  obtain ⟨hret, hruns, hdead⟩ : TreeOf (returnUser s.sched) ∧ Runs (returnUser s.sched) ∧
      SameDead s.proc (returnUser s.sched).proc :=
    h.tree.store (g := fun p => { p with pc := .user }) h.runs (fun _ => rfl)
      (fun _ => ⟨rfl, rfl, rfl, rfl, rfl, rfl⟩)
  cases hscan : waitScan s.sched task.toProc pid with
  | noChild =>
      rw [hscan] at hw
      rw [← Except.ok.inj hw]
      exact h.next hret hruns hdead
  | reap i child =>
      rw [hscan] at hw
      rw [← Except.ok.inj hw]
      obtain ⟨hq, ⟨h2, -, -⟩, hs⟩ := waitScan_reap hscan
      have hpid : child.pid = i := (h.tree.slot i _ hq).pid
      have hi : i ≠ s.current := by
        rintro rfl
        obtain ⟨c, hc, hcs⟩ := h.runs
        rw [show s.sched.proc s.current = some c from hc] at hq
        rw [Option.some.inj hq] at hcs
        rw [show child.state = .running from hcs] at hs
        cases hs
      have hq' : (returnUser s.sched).proc i = some child.toProc := by
        rw [proc_returnUser, hq]
        simp [show i ≠ s.sched.current from hi]
      obtain ⟨ht, hr⟩ := hret.clear hruns hq' hs h2
      refine ⟨ht, hr, ?_, ?_⟩
      · refine DeadLogged.cons h.dead ?_
        intro j p hpj hpjs
        rw [show State.proc _ j = (clearSlot (returnUser s.sched) i).proc j from rfl,
          proc_clearSlot] at hpj
        split_ifs at hpj with hj
        refine ⟨?_, hdead j p hpj hpjs⟩
        rw [Obs.about, hpid]
        exact fun heq => hj (Option.some.inj heq).symm
      · refine h.reaps.cons ?_
        rintro _ _ _ heq
        cases heq
        rw [hpid]
        exact h.dead i _ hq hs
  | block =>
      rw [hscan] at hw
      obtain ⟨k, hb, hw⟩ := bind_eq_ok hw
      rw [← Except.ok.inj hw]
      obtain ⟨m, rfl, -, hmc, hmw, -, hm⟩ := taskBlock_spec hb
      have hm' : ∀ j, m.proc j = (s.sched.proc j).map fun p =>
          if j = s.current then waitProc pid p else p := by
        intro j
        rw [hm, proc_modify (fun p => { p with waitpid := pid, pc := .inWaitpid pid })
          (fun _ => rfl), Option.map_map]
        cases s.sched.proc j with
        | none => rfl
        | some q =>
            by_cases hj : j = s.current
            · subst hj
              simp [waitProc, State.current]
            · simp [hj, show j ≠ s.sched.current from hj]
      obtain ⟨⟨j, q, hq, hmq⟩, hnone⟩ := waitScan_block hscan
      have htree : TreeOf m := by
        rw [TreeOf, hmc, hmw]
        refine Tree.block (s := s.sched) (g := waitProc pid) h.tree hcur h.runs hm'
          (fun _ => ⟨rfl, rfl⟩) (fun _ => Or.inr (Or.inl rfl)) ?_ ?_
          h.tree.nodup
        · intro p hpc _
          rw [hp] at hpc
          obtain rfl := Option.some.inj hpc
          refine ⟨⟨j, q, hq, hmq⟩, ?_⟩
          intro i r hr hmr
          exact hnone i (h.tree.slot i r hr).bound r hr hmr
        · exact fun i hi => Or.inl hi
      obtain ⟨ht, hr⟩ := htree.schedule policy
      refine h.switched ht hr (SameDead.trans ?_ (sameDead_schedule m policy))
      refine SameDead.map hm' ?_
      intro i r _ hs
      split_ifs at hs ⊢
      · cases hs
      · exact ⟨hs, rfl⟩

/-- Every claimed step keeps the invariant. -/
theorem TreeInv.step {s t : State} {e : Event} (h : TreeInv s) (hg : Claimed s e)
    (hs : system.step s e t) : TreeInv t := by
  obtain ⟨hen, hex⟩ := hs
  cases e with
  | exitMark _ => exact hg.elim
  | exitFinish _ => exact hg.elim
  | timeout _ => exact hg.elim
  | fork =>
      obtain ⟨⟨c, k⟩, hf, hex⟩ := bind_eq_ok hex
      rw [← Except.ok.inj hex]
      obtain ⟨htree, hruns⟩ := h.tree.fork hf
      obtain ⟨p, -, -, -, hfree, -, -, -, -, hproc⟩ := taskFork_spec hf
      refine ⟨htree, hruns, ?_, ?_⟩
      · refine DeadLogged.cons h.dead ?_
        intro i q hq hqs
        rw [show State.proc _ i = k.proc i from rfl, hproc] at hq
        split_ifs at hq with hi
        · rw [← Option.some.inj hq] at hqs
          cases hqs
        · have hne : some c ≠ some i := fun heq => hi (Option.some.inj heq).symm
          exact ⟨hne, q, hq, hqs, rfl⟩
      · refine h.reaps.cons ?_
        intro _ _ _ heq
        cases heq
  | exit status policy =>
      obtain ⟨k, he, hex⟩ := bind_eq_ok hex
      rw [← Except.ok.inj hex]
      obtain ⟨htree, hruns⟩ := h.tree.exit hen.1 he
      obtain ⟨p, m, rfl, hp, hps, -, -, hproc⟩ := taskExit_spec he
      refine ⟨htree, hruns, ?_, ?_⟩
      · intro i q hq hqs
        obtain ⟨r, hr, hrs, hst⟩ := sameDead_schedule m policy i q hq hqs
        rw [← hst]
        show lastAbout (.picked _ :: .exited s.current status :: s.log) i = _
        rw [lastAbout_cons_other _ (by simp [Obs.about])]
        rw [hproc] at hr
        obtain ⟨u, hu, rfl⟩ := Option.map_eq_some_iff.mp hr
        by_cases hi : i = s.sched.current
        · subst hi
          rw [lastAbout_cons_self _ rfl, (exitProc_self _ u).2.1]
          rfl
        · have hne : Obs.about (.exited s.current status) ≠ some i :=
            fun heq => hi (Option.some.inj (show some s.sched.current = some i from heq)).symm
          rw [lastAbout_cons_other _ hne]
          rcases exitProc_other p status u hi with
            ⟨hst', hstatus, -⟩ | ⟨hst', -⟩
          · rw [hst'] at hrs
            rw [hstatus]
            exact h.dead i u hu hrs
          · rw [hst'] at hrs
            cases hrs
      · refine ReapsExact.cons (ReapsExact.cons h.reaps ?_) ?_ <;>
          · intro _ _ _ heq
            cases heq
  | waitpid pid policy => exact h.waitpidTurn hen.1 hex
  | resume policy =>
      simp only [exec] at hex
      split at hex
      · exact h.waitpidTurn hen hex
      · cases hex
  | kill pid sig =>
      rw [← Except.ok.inj hex]
      obtain ⟨hw, -, hsame | ⟨i, p, hp, -, hst, hwakes⟩⟩ := sysKill_spec (s := s.sched) pid sig
      · refine h.next (h.tree.same hsame) ?_ (sameDead_same hsame)
        rw [Runs, hsame.current, hsame.proc]
        exact h.runs
      · have hne : ∀ j ∈ s.sched.waiters, j ∈ s.sched.waiters ∧ j ≠ i := by
          intro j hj
          refine ⟨hj, ?_⟩
          rintro rfl
          obtain ⟨q, hq, hqs, -⟩ := h.tree.blocked j hj
          rw [hp] at hq
          rw [← Option.some.inj hq] at hqs
          rw [hqs] at hst
          simp at hst
        exact h.woken hp (Or.inr hst) hwakes hne hw h.tree.nodup
  | yield policy =>
      rw [← Except.ok.inj hex]
      obtain ⟨ht, hr⟩ := h.tree.schedule policy
      exact h.switched ht hr (sameDead_schedule s.sched policy)
  | block list policy =>
      obtain ⟨k, hb, hex⟩ := bind_eq_ok hex
      rw [← Except.ok.inj hex]
      by_cases hl : list = .blockList
      · rw [pointers, if_pos hl] at hb
        exact h.block (k := { s.sched with waiters := s.current :: s.sched.waiters }) hen.1 rfl rfl
          (Or.inl rfl) (Or.inr ⟨rfl, rfl, hl⟩) hb
      · rw [pointers, if_neg hl] at hb
        exact h.block hen.1 rfl rfl (Or.inl rfl) (Or.inl rfl) hb
  | wake i =>
      rw [← Except.ok.inj hex]
      obtain ⟨p, hp, -, hn⟩ := h.tree.blocked i hen
      have hwakes : Wakes s.sched { taskUnblock s.sched i EOK with
          waiters := (taskUnblock s.sched i EOK).waiters.erase i } i EOK :=
        ⟨proc_taskUnblock i EOK, rfl⟩
      refine h.woken hp (Or.inl (by rw [hn]; simp)) hwakes ?_ rfl (h.tree.nodup.erase i)
      intro j hj
      exact ⟨List.mem_of_mem_erase hj, fun heq => (h.tree.nodup.not_mem_erase) (heq ▸ hj)⟩
  | wakeList i =>
      rw [← Except.ok.inj hex]
      obtain ⟨list, hbind, hvia⟩ := (Option.any_eq_true _ _).mp hen
      obtain ⟨p, hp, hn⟩ := Option.bind_eq_some_iff.mp hbind
      refine h.woken hp (Or.inl (by rw [hn]; simp)) (wakes_taskUnblock i EOK) ?_ rfl h.tree.nodup
      intro j hj
      refine ⟨hj, ?_⟩
      rintro rfl
      obtain ⟨q, hq, -, hqn⟩ := h.tree.blocked j hj
      rw [show s.sched.proc j = some p from hp] at hq
      rw [← Option.some.inj hq, hn] at hqn
      rw [Option.some.inj hqn] at hvia
      cases hvia
  | sleep policy =>
      obtain ⟨k, hb, hex⟩ := bind_eq_ok hex
      rw [← Except.ok.inj hex]
      exact h.block (k := { s.sched with timers := s.current :: s.sched.timers }) hen.1 rfl rfl
        (Or.inr rfl) (Or.inl rfl) hb

private theorem bootTable_eq {i : Nat} {t : Task} (h : bootTable i = some t) :
    i < 3 ∧ t.pid = i ∧ t.node = none ∧ t.ppid = 0 ∧ t.state = .ready ∧
      (i = idle_task → t.uid = KERNEL_USER) := by
  rw [bootTable] at h
  split_ifs at h with h0 h1 h2
  all_goals
    rw [← Option.some.inj h]
    subst_vars
    simp [bootTask, idle_task, NORMAL_USER, KERNEL_USER]

/-- The invariant holds when the first task starts. -/
theorem treeInv_boot {first : Nat} (hf : first < 3) : TreeInv (boot first) := by
  have hproc : ∀ {i p}, (boot first).proc i = some p → ∃ t, bootTable i = some t ∧
      p = { t.toProc with state := if i = first then .running else .ready } := by
    intro i p hp
    obtain ⟨t, ht, rfl⟩ := Option.map_eq_some_iff.mp hp
    obtain ⟨u, hu, rfl⟩ := Option.map_eq_some_iff.mp ht
    exact ⟨u, hu, rfl⟩
  have hsome : ∀ {i}, i < 3 → ∃ p, (boot first).proc i = some p ∧
      p.state = if i = first then .running else .ready := by
    intro i hi
    have ht : ∃ t, bootTable i = some t := by
      interval_cases i <;> exact ⟨_, rfl⟩
    obtain ⟨t, ht⟩ := ht
    refine ⟨{ t.toProc with state := if i = first then .running else .ready }, ?_, rfl⟩
    show ((Option.map _ (bootTable i)).map Task.toProc) = _
    rw [ht]
    rfl
  have hstate : ∀ {i p}, (boot first).proc i = some p → p.state = .ready ∨ p.state = .running := by
    intro i p hp
    obtain ⟨t, -, rfl⟩ := hproc hp
    dsimp only
    split_ifs
    · exact Or.inr rfl
    · exact Or.inl rfl
  refine ⟨⟨?_, ?_, ⟨id, ?_⟩, ?_, ?_, ?_, ?_, List.nodup_nil⟩, ?_, ?_, ?_⟩
  · intro i p hp
    have hs := hstate hp
    obtain ⟨t, ht, rfl⟩ := hproc hp
    obtain ⟨hi, hpid, hnode, hpp, -, hu⟩ := bootTable_eq ht
    exact ⟨List.mem_range.mpr (Nat.lt_trans hi (by decide)), hpid, fun _ => hnode, fun _ => hpp,
      fun h0 => ⟨hu h0, hs⟩⟩
  · intro i hi
    obtain ⟨p, hp, -⟩ := hsome (Nat.lt_succ_of_lt hi)
    exact ⟨p, hp⟩
  · intro i p hp hne
    obtain ⟨t, ht, rfl⟩ := hproc hp
    exact absurd (bootTable_eq ht).2.2.2.1 hne
  · intro i p hp hne
    obtain ⟨t, ht, rfl⟩ := hproc hp
    exact absurd (bootTable_eq ht).2.2.2.1 hne
  · intro i p hp hs
    rcases hstate hp with h | h <;> rw [h] at hs <;> cases hs
  · intro i p hp hs
    obtain ⟨t, ht, rfl⟩ := hproc hp
    by_contra hne
    rw [show (boot first).sched.current = first from rfl] at hne
    simp [hne] at hs
  · intro i hi
    cases hi
  · obtain ⟨p, hp, hs⟩ := hsome hf
    exact ⟨p, hp, by rw [hs, if_pos rfl]⟩
  · intro i p hp hs
    rcases hstate hp with h | h <;> rw [h] at hs <;> cases hs
  · intro newer parent child status older heq
    exact absurd heq (by simp [boot])

theorem treeInv_reach {s : State} (h : Reach system Claimed s) : TreeInv s := by
  refine h.invariant ?_ ?_
  · rintro s ⟨first, hf, rfl⟩
    exact treeInv_boot hf
  · intro s e t hs hg hst
    exact hs.step hg hst

/-- `task_exit` of a user task finds its father. -/
theorem TreeInv.exit_ok {s : State} (h : TreeInv s) (status : Int) (policy : Policy) :
    ∃ k, taskExit s.sched status policy = .ok k := by
  obtain ⟨p, hp, hps⟩ := h.runs
  obtain ⟨task, htask, rfl⟩ := proc_eq_some.mp hp
  have hnode := (h.tree.slot _ _ hp).node (Or.inr (Or.inl hps))
  obtain ⟨m, hm⟩ := exitMark_ok hp hnode hps (fun hne => by
    obtain ⟨q, hq, -⟩ := h.tree.parent _ _ hp hne
    exact ⟨(h.tree.slot _ q hq).bound, q, hq, (h.tree.slot _ q hq).pid⟩) status
  obtain ⟨p, hp', -, -, hcur, -, -, hproc⟩ := exitMark_spec hm
  rw [hp] at hp'
  obtain rfl := Option.some.inj hp'
  -- the father, or the idle task for an orphan, is in the table
  have hfather : ∃ q, m.proc task.ppid = some q := by
    obtain ⟨q, hq⟩ : ∃ q, s.sched.proc task.ppid = some q := by
      by_cases hne : task.ppid = 0
      · rw [hne]
        exact h.tree.low 0 Nat.zero_lt_two
      · obtain ⟨q, hq, -⟩ := h.tree.parent _ _ hp hne
        exact ⟨q, hq⟩
    exact ⟨_, by rw [hproc, hq]; rfl⟩
  obtain ⟨q, hq⟩ := hfather
  have hself : m.proc m.current =
      some { task.toProc with state := .died, status := status, pc := .inExit } := by
    rw [hcur, hproc, hp]
    simp
  obtain ⟨k, hk⟩ := exitFinish_ok hself hq policy
  exact ⟨k, by rw [taskExit, hm, bind_ok, hk]⟩

/-- In every state a run of forks, exits, waits, kills and switches reaches:
    each father is there, carries the pid and is alive, so that `task_exit` does
    not stop; a waiting task has a child it waits for and no dead one; and each
    reap returns the status of the exit before it, once. -/
theorem process_tree {s : State} (h : Reach system Claimed s) :
    (∀ i p, s.proc i = some p → p.ppid ≠ 0 →
      ∃ q, s.proc p.ppid = some q ∧ q.pid = p.ppid ∧ q.state ≠ .died) ∧
    (∀ status policy, ∃ k, taskExit s.sched status policy = .ok k) ∧
    (∀ i p, s.proc i = some p → p.state = .waiting → Waits s.proc p) ∧
    ReapsExact s.log := by
  have hinv := treeInv_reach h
  refine ⟨?_, hinv.exit_ok, hinv.tree.waiting, hinv.reaps⟩
  intro i p hp hne
  obtain ⟨q, hq, hs⟩ := hinv.tree.parent i p hp hne
  exact ⟨q, hq, (hinv.tree.slot _ q hq).pid, hs⟩

/-- A father forks, waits, is woken by the exit of the child and reaps it. -/
theorem process_tree_wait : ∃ s : State,
    s.log = [.reaped 1 3 7, .picked 1, .exited 3 7, .picked 3, .forked 1 3] ∧
    (∀ i p, s.proc i = some p → p.ppid ≠ 0 →
      ∃ q, s.proc p.ppid = some q ∧ q.pid = p.ppid ∧ q.state ≠ .died) ∧
    (∀ status policy, ∃ k, taskExit s.sched status policy = .ok k) ∧
    (∀ i p, s.proc i = some p → p.state = .waiting → Waits s.proc p) ∧
    ReapsExact s.log := by
  have hrun : (follow Claimed Enabled exec (boot 1)
      [.fork, .waitpid (-1) (.prefer 3), .exit 7 (.prefer 1), .resume .ticks]).map (·.log) =
      some [.reaped 1 3 7, .picked 1, .exited 3 7, .picked 3, .forked 1 3] := by
    decide
  obtain ⟨s, hs, hlog⟩ := Option.map_eq_some_iff.mp hrun
  exact ⟨s, hlog, process_tree (Reach.follow _ (.start ⟨1, by decide, rfl⟩) hs)⟩

end NeonixProcessTree
