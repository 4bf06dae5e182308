import Neonix.Runs
import Neonix.Signals

/-! # The mask of a task over whole runs

    Tasks run user code, change their masks and actions, send and take signals,
    come back from handlers and fork.  A delivery ORs the mask of the action
    into the mask of the task, and an action keeps the mask it was given. -/

namespace NeonixSignalMask

open NeonixMachine NeonixRuns NeonixWordMemory NeonixSignals
open NeonixTask (sigmask MINSIG MAXSIG SIGHUP SIGCHLD KERNEL_USER TASK_NR)

structure State where
  task_table : Nat → Option Task

def State.put (s : State) (t : Nat) (task : Option Task) : State :=
  { s with task_table := Function.update s.task_table t task }

/-- `get_task`. -/
def getTask (s : State) (pid : Int) : Option Nat :=
  (List.range TASK_NR).find? fun i => (s.task_table i).any fun task => task.pid = pid

/-- `sys_kill`, without the wake-up of a task that waits. -/
def sysKill (s : State) (pid sig : Int) : State × BitVec 32 :=
  if sig < MINSIG ∨ sig > MAXSIG then (s, EOF)
  else
    match getTask s pid with
    | none => (s, EOF)
    | some i =>
        match s.task_table i with
        | none => (s, EOF)
        | some task =>
            if task.uid = KERNEL_USER then (s, EOF)
            else if task.pid = 1 then (s, EOF)
            else (s.put i (some { task with signal := task.signal ||| sigmask sig.toNat }), 0)

/-- `task_fork`: the child is a copy with its own `pid`, which gets 0. -/
def taskFork (s : State) (task : Task) : Res State :=
  match (List.range TASK_NR).find? fun i => (s.task_table i).isNone with
  | none => .error .panic
  | some i => .ok (s.put i (some { task with pid := i, iframe := { task.iframe with eax := 0 } }))

inductive Event where
  /-- the task runs its own code for a while -/
  | user (t : Nat) (iframe : IntrFrame) (memory : Memory)
  | ssetmask (t : Nat) (newmask : BitVec 32)
  | signal (t : Nat) (sig : Int) (handler restorer : BitVec 32)
  | sigaction (t : Nat) (sig : Int) (action oldaction : BitVec 32)
  | kill (t : Nat) (pid sig : Int)
  /-- `task_exit` tells another task -/
  | tell (t sig : Nat)
  /-- `task_signal` -/
  | deliver (t : Nat)
  /-- a handler returned into `restorer` -/
  | restore (t : Nat)
  | fork (t : Nat)
  /-- `task_waitpid` empties the slot of a dead task -/
  | reap (t : Nat)

def Event.task : Event → Nat
  | .user t _ _ | .ssetmask t _ | .signal t _ _ _ | .sigaction t _ _ _ | .kill t _ _ | .tell t _
  | .deliver t | .restore t | .fork t | .reap t => t

/-- The step of an event of a task. -/
def execTask (s : State) (t : Nat) (task : Task) : Event → Res State
  | .user _ iframe memory => .ok (s.put t (some { task with iframe := iframe, memory := memory }))
  | .ssetmask _ newmask => .ok (s.put t (some (sysSsetmask task newmask).1))
  | .signal _ sig handler restorer =>
      .ok (s.put t (some (sysSignal task sig handler restorer).1))
  | .sigaction _ sig action oldaction =>
      .ok (s.put t (some (sysSigaction task sig action oldaction).1))
  | .kill _ pid sig => .ok (sysKill s pid sig).1
  | .tell _ sig => .ok (s.put t (some { task with signal := task.signal ||| sigmask sig }))
  | .deliver _ => do
      match ← taskSignal task with
      | .returns task => return s.put t (some task)
      | .exits task _ => return s.put t (some { task with died := true })
  | .restore _ => .ok (s.put t (some (restorer task)))
  | .fork _ => taskFork s task
  | .reap _ => .ok (s.put t none)

def exec (s : State) (e : Event) : Res State :=
  match s.task_table e.task with
  | none => .error .outOfBounds
  | some task => execTask s e.task task e

/-- Dead tasks are told and reaped, the others run. -/
def Enabled (s : State) (e : Event) : Prop :=
  ((s.task_table e.task).any fun task =>
    match e with
    | .tell _ sig => sig = SIGHUP ∨ sig = SIGCHLD
    | .reap _ => task.died
    | _ => !task.died) = true

instance (s : State) (e : Event) : Decidable (Enabled s e) := inferInstanceAs (Decidable (_ = _))

/-- Tasks are created with an empty mask. -/
def Init (s : State) : Prop := ∀ t task, s.task_table t = some task → task.blocked = 0

def system : System State Event := execSystem Init Enabled exec

/-- `SIGKILL` is not blocked, so a pending one is in the map of `task_signal`. -/
def Killable (task : Task) : Prop :=
  task.blocked &&& sigmask SIGKILL = 0 ∧
    (task.signal &&& sigmask SIGKILL ≠ 0 → task.map &&& sigmask SIGKILL ≠ 0)

def AllKillable (s : State) : Prop := ∀ t task, s.task_table t = some task → Killable task

/-- A handler that is entered has an action whose mask is without `SIGKILL`. -/
def Unmasking (s : State) : Event → Prop
  | .deliver t => ∀ task sig, s.task_table t = some task → Handles task sig →
      (task.actions (sig - 1)).mask &&& sigmask SIGKILL = 0
  | .user _ _ _ | .ssetmask _ _ | .signal _ _ _ _ | .sigaction _ _ _ _ | .kill _ _ _ | .tell _ _
  | .restore _ | .fork _ | .reap _ => True

instance (s : State) : (e : Event) → Decidable (Unmasking s e)
  | .deliver t =>
      decidable_of_iff (((s.task_table t).all fun task => (lowest task.map).all fun sig =>
          decide (Handles task sig → (task.actions (sig - 1)).mask &&& sigmask SIGKILL = 0)) = true)
        (by
          constructor
          · intro h task sig ht hh
            rw [ht, Option.all_some, hh.1, Option.all_some] at h
            exact of_decide_eq_true h hh
          · intro h
            cases ht : s.task_table t with
            | none => rfl
            | some task =>
                cases hsig : lowest task.map with
                | none =>
                    rw [Option.all_some, hsig]
                    rfl
                | some sig =>
                    rw [Option.all_some, hsig, Option.all_some]
                    exact decide_eq_true (h task sig ht))
  | .user _ _ _ | .ssetmask _ _ | .signal _ _ _ _ | .sigaction _ _ _ _ | .kill _ _ _ | .tell _ _
  | .restore _ | .fork _ | .reap _ => inferInstanceAs (Decidable True)

/-! ## One step -/

variable {s t : State} {task : Task} {e : Event} {i j : Nat}

/-- The second half of `Killable` follows from the first. -/
theorem killable_iff : Killable task ↔ task.blocked.getLsbD (SIGKILL - 1) = false := by
  have hbit : task.blocked &&& sigmask SIGKILL = 0 ↔
      task.blocked.getLsbD (SIGKILL - 1) = false := by
    rw [← not_iff_not, Bool.not_eq_false]
    exact and_sigmask (by decide)
  constructor
  · intro h
    exact hbit.mp h.1
  · intro h
    refine ⟨hbit.mpr h, fun hs => ?_⟩
    rw [and_sigmask (by decide)] at hs ⊢
    rw [NeonixSignals.Task.map, BitVec.getLsbD_and, BitVec.getLsbD_not, hs, h]
    rfl

theorem put_task : (s.put i (some task)).task_table i = some task := Function.update_self ..

/-- A store of a task that can be killed. -/
theorem AllKillable.put (h : AllKillable s) (ht : ∀ x, task = x → Killable x) :
    AllKillable (s.put i (some task)) := by
  intro j x hx
  by_cases hj : j = i
  · rw [hj, put_task] at hx
    exact ht x (Option.some.inj hx)
  · exact h j x ((Function.update_of_ne hj ..).symm.trans hx)

/-- A store that keeps the mask. -/
theorem AllKillable.same (h : AllKillable s) {old : Task} (ht : s.task_table i = some old)
    (hb : task.blocked = old.blocked) : AllKillable (s.put j (some task)) := by
  refine h.put fun x hx => ?_
  rw [← hx, killable_iff, hb]
  exact killable_iff.mp (h i old ht)

/-- `sys_ssetmask` never blocks `SIGKILL`. -/
theorem sysSsetmask_killable {newmask : BitVec 32} (h : Killable task) :
    Killable (sysSsetmask task newmask).1 := by
  rw [sysSsetmask]
  by_cases hm : newmask = EOF
  · rw [if_pos hm]
    exact h
  · rw [if_neg hm, killable_iff]
    show (newmask &&& ~~~ sigmask SIGKILL).getLsbD (SIGKILL - 1) = false
    rw [BitVec.getLsbD_and, BitVec.getLsbD_not, sigmask_bit (by decide), decide_eq_true rfl,
      Bool.not_true, Bool.and_false, Bool.and_false]

/-- The mask a handler runs under. -/
theorem enterHandler_killable {sig : Nat} {action : Sigaction} (h : Killable task) :
    Killable (enterHandler task sig action) ↔ action.mask &&& sigmask SIGKILL = 0 := by
  have hmask : (enterHandler task sig action).blocked = task.blocked ||| action.mask := rfl
  have hbit : action.mask &&& sigmask SIGKILL = 0 ↔ action.mask.getLsbD (SIGKILL - 1) = false := by
    rw [← not_iff_not, Bool.not_eq_false]
    exact and_sigmask (by decide)
  rw [killable_iff, hmask, BitVec.getLsbD_or, killable_iff.mp h, Bool.false_or, hbit]

/-- `sys_kill` changes no mask. -/
theorem sysKill_killable {pid sig : Int} (h : AllKillable s) :
    AllKillable (sysKill s pid sig).1 := by
  rw [sysKill]
  by_cases hsig : sig < MINSIG ∨ sig > MAXSIG
  · rw [if_pos hsig]
    exact h
  rw [if_neg hsig]
  cases hi : getTask s pid with
  | none => exact h
  | some i =>
      dsimp only
      cases ht : s.task_table i with
      | none => exact h
      | some task =>
          dsimp only
          by_cases hu : task.uid = KERNEL_USER
          · rw [if_pos hu]
            exact h
          rw [if_neg hu]
          by_cases hp : task.pid = 1
          · rw [if_pos hp]
            exact h
          rw [if_neg hp]
          exact h.same ht rfl

/-- The step of `task_signal` keeps the masks free of `SIGKILL` exactly where no
    handler with `SIGKILL` in its mask is entered. -/
theorem deliver_killable (h : AllKillable s) (ht : s.task_table i = some task)
    (hx : execTask s i task (.deliver i) = .ok t) : AllKillable t ↔ Unmasking s (.deliver i) := by
  obtain ⟨d, hd, hput⟩ := bind_eq_ok hx
  have hother : ∀ {sig}, lowest task.map = some sig → ¬ Handles task sig →
      Unmasking s (.deliver i) := by
    intro sig hsig hn task' sig' ht' hh
    obtain rfl := Option.some.inj (ht.symm.trans ht')
    obtain rfl := Option.some.inj (hsig.symm.trans hh.1)
    exact absurd hh hn
  rcases taskSignal_cases hd with ⟨hmap, rfl⟩ | ⟨sig, hsig, hcase⟩
  · -- nothing to deliver
    obtain rfl := Except.ok.inj hput
    refine iff_of_true (h.same ht rfl) fun task' sig' ht' hh => ?_
    obtain rfl := Option.some.inj (ht.symm.trans ht')
    have hnone := hh.1
    rw [hmap, lowest_zero] at hnone
    cases hnone
  · rcases hcase with ⟨hn, ⟨-, status, rfl⟩ | rfl⟩ | ⟨hh, rfl⟩
    · obtain rfl := Except.ok.inj hput
      exact iff_of_true (h.same ht rfl) (hother hsig hn)
    · obtain rfl := Except.ok.inj hput
      exact iff_of_true (h.same ht rfl) (hother hsig hn)
    · obtain rfl := Except.ok.inj hput
      have hclear := killable_iff.mp (h i task ht)
      have hstart : Killable { task with signal := task.signal &&& ~~~ sigmask sig } :=
        killable_iff.mpr hclear
      constructor
      · intro hall task' sig' ht' hh'
        obtain rfl := Option.some.inj (ht.symm.trans ht')
        obtain rfl := Option.some.inj (hsig.symm.trans hh'.1)
        exact (enterHandler_killable hstart).mp (hall i _ put_task)
      · intro hmask
        refine h.put fun x hx' => ?_
        rw [← hx']
        exact (enterHandler_killable hstart).mpr (hmask task sig ht hh)

/-- Every step keeps the masks free of `SIGKILL` exactly where it enters no
    handler with `SIGKILL` in its mask. -/
theorem step_killable (h : AllKillable s) (hx : exec s e = .ok t) :
    AllKillable t ↔ Unmasking s e := by
  rw [exec] at hx
  cases ht : s.task_table e.task with
  | none =>
      rw [ht] at hx
      cases hx
  | some task =>
      rw [ht] at hx
      have htask : Killable task := h _ task ht
      cases e with
      | user i iframe memory =>
          obtain rfl := Except.ok.inj hx
          exact iff_of_true (h.same ht rfl) trivial
      | ssetmask i newmask =>
          obtain rfl := Except.ok.inj hx
          refine iff_of_true (h.put fun x hx' => ?_) trivial
          rw [← hx']
          exact sysSsetmask_killable htask
      | signal i sig handler restorer =>
          obtain rfl := Except.ok.inj hx
          refine iff_of_true (h.same ht ?_) trivial
          rw [sysSignal]
          split_ifs
          · rfl
          · rfl
      | sigaction i sig action oldaction =>
          obtain rfl := Except.ok.inj hx
          refine iff_of_true (h.same ht ?_) trivial
          rw [sysSigaction]
          split_ifs
          · rfl
          · rfl
          · rfl
      | kill i pid sig =>
          obtain rfl := Except.ok.inj hx
          exact iff_of_true (sysKill_killable h) trivial
      | tell i sig =>
          obtain rfl := Except.ok.inj hx
          exact iff_of_true (h.same ht rfl) trivial
      | deliver i => exact deliver_killable h ht hx
      | restore i =>
          obtain rfl := Except.ok.inj hx
          refine iff_of_true (h.put fun x hx' => ?_) trivial
          rw [← hx', killable_iff]
          exact killable_iff.mp (sysSsetmask_killable htask)
      | fork i =>
          refine iff_of_true ?_ trivial
          change taskFork s task = .ok t at hx
          rw [taskFork] at hx
          cases hfind : (List.range TASK_NR).find? fun i => (s.task_table i).isNone with
          | none =>
              rw [hfind] at hx
              cases hx
          | some child =>
              rw [hfind] at hx
              obtain rfl := Except.ok.inj hx
              exact h.same ht rfl
      | reap i =>
          obtain rfl := Except.ok.inj hx
          refine iff_of_true (fun j x hj => ?_) trivial
          by_cases hji : j = i
          · rw [hji] at hj
            cases (Function.update_self ..).symm.trans hj
          · exact h j x ((Function.update_of_ne hji ..).symm.trans hj)

theorem init_killable (h : Init s) : AllKillable s := by
  intro t task ht
  rw [killable_iff, h t task ht]
  decide

/-- In every run in which no handler with `SIGKILL` in its mask is entered, no
    task blocks `SIGKILL`; and the next step keeps it so exactly where it enters
    no such handler. -/
theorem sigkill_unblocked (h : Reach system Unmasking s) :
    AllKillable s ∧ ∀ e t, Enabled s e → exec s e = .ok t → (AllKillable t ↔ Unmasking s e) := by
  have hall : AllKillable s := by
    refine h.invariant (fun s (hs : Init s) => init_killable hs) fun s e t hs hg hstep => ?_
    exact (step_killable hs hstep.2).mpr hg
  exact ⟨hall, fun e t _ hx => step_killable hall hx⟩

/-! ## A task that blocks `SIGKILL` -/

/-- A `sigaction_t` at 0x1000 with `SIGKILL` in its mask, `frame` aside. -/
def maskingMemory : Memory :=
  storeAction (fun _ => 0) 0x1000
    { handler := 0x2000, mask := sigmask SIGKILL, flags := 0, restorer := 0x3000 }

def userFrame : IntrFrame :=
  { eax := 0, ecx := 0, edx := 0, eip := 0x1000, eflags := 0x202, esp := 0x8000 }

/-- A task of a normal user in slot 3. -/
def oneTask : State where
  task_table i :=
    if i = 3 then
      some { uid := 1000, pid := 3, died := false, signal := 0, blocked := 0, iframe := userFrame
             actions := fun _ => { handler := SIG_DFL, mask := 0, flags := 0, restorer := 0 }
             memory := maskingMemory }
    else none

theorem oneTask_init : Init oneTask := by
  intro t task ht
  change (if t = 3 then _ else _) = some task at ht
  split_ifs at ht
  rw [← Option.some.inj ht]

/-- The task registers a handler for `SIGUSR1` that masks `SIGKILL`, and takes
    the signal. -/
def maskingRun : List Event := [.sigaction 3 10 0x1000 0, .kill 3 3 10, .deliver 3]

theorem sigkill_blocked : ¬ ∀ s, Reach system free s → AllKillable s := by
  intro h
  have hend : ((follow free Enabled exec oneTask maskingRun).any fun s =>
    (s.task_table 3).any fun task => task.blocked.getLsbD (SIGKILL - 1)) = true := by decide +kernel
  obtain ⟨s, hs, hb⟩ := (Option.any_eq_true ..).mp hend
  obtain ⟨task, ht, hbit⟩ := (Option.any_eq_true ..).mp hb
  have hstart : Reach system free oneTask := Reach.start oneTask_init
  have hfree := killable_iff.mp (h s (hstart.follow maskingRun hs) 3 task ht)
  rw [hbit] at hfree
  cases hfree

/-- The handler of `sys_signal` masks nothing; the task forks and is killed. -/
def plainRun : List Event :=
  [.signal 3 10 0x2000 0x3000, .kill 3 3 10, .deliver 3, .fork 3, .kill 0 3 9]

theorem sigkill_unblocked_plain : ∃ s, follow Unmasking Enabled exec oneTask plainRun = some s ∧
    AllKillable s := by
  have hrun : (follow Unmasking Enabled exec oneTask plainRun).isSome = true := by decide +kernel
  obtain ⟨s, hs⟩ := Option.isSome_iff_exists.mp hrun
  have hstart : Reach system Unmasking oneTask := Reach.start oneTask_init
  exact ⟨s, hs, (sigkill_unblocked (hstart.follow plainRun hs)).1⟩

end NeonixSignalMask
