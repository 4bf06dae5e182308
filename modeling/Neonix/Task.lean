import Neonix.Machine
import Mathlib.Logic.Function.Basic

/-! # `kernel/task.c`: the task table and the scheduler

    A task is identified with its slot of `task_table`: `get_free_task` stores
    the slot number in `pid`, and a task keeps its page until `task_waitpid`
    empties the slot.  The kernel is not preempted, so the code between two
    blocking points is one step of one task; `pc` says where in the kernel a
    task that is not running sits.

    `proc` is the part of a task the process tree is about; the rest of the
    record are the scheduler's counters and the signal bitmap. -/

namespace NeonixTask

open NeonixMachine

def TASK_NR : Nat := 64
def KERNEL_USER : Nat := 0
def NORMAL_USER : Nat := 1000
def MINSIG : Nat := 1
def MAXSIG : Nat := 31
def SIGHUP : Nat := 1
def SIGCHLD : Nat := 17
def EOK : Int := 0
def EINTR : Int := 4
def ETIME : Int := 62

/-- `SIGMASK(sig)`. -/
def sigmask (sig : Nat) : BitVec 32 := 1#32 <<< (sig - 1)

/-- `task_state_t`. -/
inductive TaskState where
  | init | running | ready | blocked | sleeping | waiting | died
  deriving DecidableEq, Repr

/-- The list a task's `node` is linked on. -/
inductive WaitList where
  | blockList | sleepList | waitList
  | mutexWaiters (mutex : Nat)
  deriving DecidableEq, Repr

/-- Where in the kernel a task sits: at a system call boundary, inside the loop
    of `task_waitpid` with the argument it was called with, or past the start
    of `task_exit`. -/
inductive KernelPc where
  | user
  | inWaitpid (pid : Int)
  | inExit
  deriving DecidableEq, Repr

/-- The part of `task_t` the process tree is about; `node` is the list the
    task's list node is linked on, `none` for `next = prev = NULL`. -/
structure Proc where
  state : TaskState
  node : Option WaitList
  uid : Nat
  pid : Nat
  ppid : Nat
  status : Int
  waitpid : Int
  pc : KernelPc
  deriving DecidableEq

structure Task extends Proc where
  priority : Nat
  ticks : Int
  jiffies : Nat
  sid : Nat
  signal : BitVec 32

/-- The kernel as the scheduler sees it.  `waiters` are the tasks a wake-up
    source outside this file points at (`request_t.task`, `ctrl->waiter`, the
    waiters of a pipe, a mutex, the keyboard, a serial line, the buffer wait
    list); `timers` are the tasks of the timers with the default handler. -/
structure Sched where
  task_table : Nat → Option Task
  current : Nat
  waiters : List Nat
  timers : List Nat

/-- The slots of `task_table`. -/
def slots : List Nat := List.range TASK_NR

def idle_task : Nat := 0

def Sched.proc (s : Sched) (i : Nat) : Option Proc := (s.task_table i).map Task.toProc

/-- `running_task()`. -/
def runningTask (s : Sched) : Res Task :=
  match s.task_table s.current with
  | some task => .ok task
  | none => .error .outOfBounds

/-- Store through a task pointer. -/
def Sched.modify (s : Sched) (i : Nat) (f : Task → Task) : Sched :=
  { s with task_table := Function.update s.task_table i ((s.task_table i).map f) }

/-- A loop over `task_table` whose body touches the task of its own slot. -/
def Sched.forEach (s : Sched) (f : Nat → Task → Task) : Sched :=
  { s with task_table := fun i => (s.task_table i).map (f i) }

/-! ## Scheduling -/

/-- The candidate `task_search` keeps while it walks the table. -/
def searchStep (s : Sched) (state : TaskState) (best : Option (Nat × Task)) (i : Nat) :
    Option (Nat × Task) :=
  match s.task_table i with
  | none => best
  | some ptr =>
      if ptr.state ≠ state then best
      else if i = s.current then best
      else match best with
        | none => some (i, ptr)
        | some (j, task) =>
            if task.ticks < ptr.ticks ∨ ptr.jiffies < task.jiffies then some (i, ptr)
            else some (j, task)

/-- `task_search(TASK_READY)`. -/
def taskSearch (s : Sched) : Nat :=
  match slots.foldl (searchStep s .ready) none with
  | some (i, _) => i
  | none => idle_task

/-- The tasks `task_search(TASK_READY)` may pick: a ready task other than the
    running one, or the idle task when there is none.  Which one it is depends
    on the tick counters. -/
def CanPick (s : Sched) (next : Nat) : Prop :=
  (next ∈ slots ∧ next ≠ s.current ∧ ∃ t, s.task_table next = some t ∧ t.state = .ready) ∨
    (next = idle_task ∧
      ∀ i ∈ slots, i ≠ s.current → ∀ t, s.task_table i = some t → t.state ≠ .ready)

private theorem search_fold (s : Sched) :
    ∀ (l : List Nat) (best : Option (Nat × Task)),
      (∀ i t, best = some (i, t) →
        i ≠ s.current ∧ s.task_table i = some t ∧ t.state = .ready) →
      (∀ i t, l.foldl (searchStep s .ready) best = some (i, t) →
        (i ∈ l ∨ best = some (i, t)) ∧ i ≠ s.current ∧ s.task_table i = some t ∧
          t.state = .ready) ∧
      (l.foldl (searchStep s .ready) best = none →
        best = none ∧
          ∀ i ∈ l, i ≠ s.current → ∀ t, s.task_table i = some t → t.state ≠ .ready) := by
  intro l
  induction l with
  | nil =>
      intro best hbest
      refine ⟨?_, ?_⟩
      · intro i t h
        exact ⟨Or.inr h, hbest i t h⟩
      · intro h
        exact ⟨h, fun i hi => absurd hi (by simp)⟩
  | cons j l ih =>
      intro best hbest
      -- the candidate after slot `j`: the old one, or slot `j` itself
      have hstep : (searchStep s .ready best j = best ∧
            (best = none → j ≠ s.current →
              ∀ t, s.task_table j = some t → t.state ≠ .ready)) ∨
          ∃ t, searchStep s .ready best j = some (j, t) ∧ j ≠ s.current ∧
            s.task_table j = some t ∧ t.state = .ready := by
        simp only [searchStep]
        cases hj : s.task_table j with
        | none => exact Or.inl ⟨rfl, fun _ _ t ht => nomatch ht⟩
        | some ptr =>
            by_cases hs : ptr.state = .ready
            · by_cases hc : j = s.current
              · refine Or.inl ⟨by simp [hs, hc], ?_⟩
                intro _ hne
                exact absurd hc hne
              · cases best with
                | none => exact Or.inr ⟨ptr, by simp [hs, hc], hc, rfl, hs⟩
                | some b =>
                    obtain ⟨k, task⟩ := b
                    by_cases hb : task.ticks < ptr.ticks ∨ ptr.jiffies < task.jiffies
                    · exact Or.inr ⟨ptr, by simp [hs, hc, hb], hc, rfl, hs⟩
                    · exact Or.inl ⟨by simp [hs, hc, hb], fun h => nomatch h⟩
            · refine Or.inl ⟨by simp [hs], ?_⟩
              intro _ _ t ht
              rw [← Option.some.inj ht]
              exact hs
      rw [List.foldl_cons]
      rcases hstep with ⟨heq, hnone⟩ | ⟨u, heq, hc, hj, hs⟩
      · rw [heq]
        obtain ⟨hsome, hnil⟩ := ih best hbest
        refine ⟨?_, ?_⟩
        · intro i t h
          obtain ⟨hmem, hrest⟩ := hsome i t h
          exact ⟨hmem.imp (List.mem_cons_of_mem j) id, hrest⟩
        · intro h
          obtain ⟨hb, hall⟩ := hnil h
          refine ⟨hb, ?_⟩
          intro i hi
          rcases List.mem_cons.mp hi with rfl | hi
          · exact hnone hb
          · exact hall i hi
      · rw [heq]
        obtain ⟨hsome, hnil⟩ := ih (some (j, u)) (by
          intro i t h
          obtain ⟨rfl, rfl⟩ := Prod.mk.inj (Option.some.inj h)
          exact ⟨hc, hj, hs⟩)
        refine ⟨?_, ?_⟩
        · intro i t h
          obtain ⟨hmem, hrest⟩ := hsome i t h
          refine ⟨Or.inl ?_, hrest⟩
          rcases hmem with hmem | hmem
          · exact List.mem_cons_of_mem j hmem
          · rw [(Prod.mk.inj (Option.some.inj hmem)).1]
            exact List.mem_cons_self
        · intro h
          exact absurd (hnil h).1 (by simp)

/-- The search picks a task it may pick. -/
theorem taskSearch_canPick (s : Sched) : CanPick s (taskSearch s) := by
  obtain ⟨hsome, hnil⟩ := search_fold s slots none (fun i t h => nomatch h)
  cases hf : slots.foldl (searchStep s .ready) none with
  | none =>
      rw [show taskSearch s = idle_task by rw [taskSearch, hf]]
      exact Or.inr ⟨rfl, (hnil hf).2⟩
  | some b =>
      obtain ⟨i, t⟩ := b
      obtain ⟨hmem, hc, ht, hs⟩ := hsome i t hf
      rw [show taskSearch s = i by rw [taskSearch, hf]]
      rcases hmem with hmem | hmem
      · exact Or.inl ⟨hmem, hc, t, ht, hs⟩
      · exact nomatch hmem

/-- A choice of the next task in every state, each one `task_search` may make.
    A run gives every switch its own, so runs cover every interleaving. -/
structure Policy where
  pick : Sched → Nat
  canPick : ∀ s, CanPick s (pick s)

/-- The choice the tick counters of the state make. -/
def Policy.ticks : Policy := ⟨taskSearch, taskSearch_canPick⟩

/-- Switch to task `n` where it is ready. -/
def Policy.prefer (n : Nat) : Policy where
  pick := fun s =>
    if n ∈ slots ∧ n ≠ s.current ∧ ((s.task_table n).map (·.state)) = some .ready then n
    else taskSearch s
  canPick := by
    intro s
    by_cases h : n ∈ slots ∧ n ≠ s.current ∧ ((s.task_table n).map (·.state)) = some .ready
    · rw [if_pos h]
      obtain ⟨hmem, hne, hst⟩ := h
      obtain ⟨t, ht, hs⟩ := Option.map_eq_some_iff.mp hst
      exact Or.inl ⟨hmem, hne, t, ht, hs⟩
    · rw [if_neg h]
      exact taskSearch_canPick s

/-- `schedule()`. -/
def schedule (s : Sched) (policy : Policy) : Sched :=
  let next := policy.pick s
  let s := s.modify s.current fun t =>
    { t with
      state := if t.state = .running then .ready else t.state
      ticks := if t.ticks = 0 then t.priority else t.ticks }
  let s := s.modify next fun t => { t with state := .running }
  { s with current := next }

/-- `task_block(running_task(), list, state, TIMELESS)`. -/
def taskBlock (s : Sched) (list : WaitList) (state : TaskState) (policy : Policy) :
    Res Sched := do
  let task ← runningTask s
  check (task.node = none)
  check (state ≠ .ready ∧ state ≠ .running)
  let s := s.modify s.current fun t => { t with node := some list, state := state }
  return schedule s policy

/-- `task_unblock`. -/
def taskUnblock (s : Sched) (i : Nat) (reason : Int) : Sched :=
  s.modify i fun t => { t with node := none, status := reason, state := .ready }

/-! ## Fork -/

/-- The first empty slot. -/
def freeSlot (s : Sched) : Option Nat := slots.find? fun i => (s.task_table i).isNone

/-- `task_fork`: the slot of the child. -/
def taskFork (s : Sched) : Res (Nat × Sched) := do
  let task ← runningTask s
  check (task.node = none ∧ task.state = .running)
  match freeSlot s with
  | none => .error .panic
  | some pid =>
      let child : Task :=
        { task with pid := pid, ppid := task.pid, ticks := task.priority, state := .ready }
      return (pid, { s with task_table := Function.update s.task_table pid (some child) })

/-! ## Exit -/

/-- `task_kill_session`. -/
def taskKillSession (s : Sched) (task : Task) : Sched :=
  if task.sid ≠ task.pid then s
  else s.forEach fun i child =>
    if i = s.current ∨ task.sid ≠ child.sid then child
    else { child with signal := child.signal ||| sigmask SIGHUP }

/-- `task_tell_father`. -/
def taskTellFather (s : Sched) (task : Task) : Res Sched :=
  if task.ppid = 0 then .ok s
  else match slots.find? fun i => ((s.task_table i).map (·.pid)) = some task.ppid with
    | none => .error .panic
    | some i => .ok (s.modify i fun t => { t with signal := t.signal ||| sigmask SIGCHLD })

/-- `task_exit` up to the clean-up: the task is marked dead, its session and
    its father are told, and its timers are removed. -/
def exitMark (s : Sched) (status : Int) : Res Sched := do
  let task ← runningTask s
  check (task.node = none ∧ task.state = .running)
  let s := s.modify s.current fun t => { t with state := .died, status := status, pc := .inExit }
  let s := taskKillSession s task
  let s ← taskTellFather s task
  return { s with timers := s.timers.filter (· ≠ s.current) }

/-- The loop of `task_exit` that hands the children on. -/
def reparent (s : Sched) (task : Task) : Sched :=
  s.forEach fun i child =>
    if 2 ≤ i ∧ child.ppid = task.pid then { child with ppid := task.ppid } else child

/-- The wake-up of a father that waits for this task. -/
def wakeFather (s : Sched) (task : Task) : Res Sched :=
  match s.task_table task.ppid with
  | none => .error .outOfBounds
  | some parent =>
      if parent.state = .waiting ∧ (parent.waitpid = -1 ∨ parent.waitpid = task.pid) then
        .ok (taskUnblock s task.ppid EOK)
      else .ok s

/-- `task_exit` from the end of the clean-up on. -/
def exitFinish (s : Sched) (policy : Policy) : Res Sched := do
  let task ← runningTask s
  let s := reparent s task
  let s ← wakeFather s task
  return schedule s policy

/-- `task_exit` with a clean-up that does not block. -/
def taskExit (s : Sched) (status : Int) (policy : Policy) : Res Sched := do
  let s ← exitMark s status
  exitFinish s policy

/-! ## Wait -/

/-- The children the loop of `task_waitpid` looks at. -/
def Matches (task : Proc) (pid : Int) (i : Nat) (ptr : Proc) : Prop :=
  2 ≤ i ∧ ptr.ppid = task.pid ∧ (pid = ptr.pid ∨ pid = -1)

instance (task : Proc) (pid : Int) (i : Nat) (ptr : Proc) :
    Decidable (Matches task pid i ptr) := inferInstanceAs (Decidable (_ ∧ _ ∧ _))

/-- A slot that holds a child the loop of `task_waitpid` looks at. -/
def hasMatch (s : Sched) (task : Proc) (pid : Int) (i : Nat) : Bool :=
  match s.task_table i with
  | some ptr => decide (Matches task pid i ptr.toProc)
  | none => false

/-- A slot that holds such a child in `TASK_DIED`. -/
def deadMatch (s : Sched) (task : Proc) (pid : Int) (i : Nat) : Bool :=
  match s.task_table i with
  | some ptr => decide (Matches task pid i ptr.toProc ∧ ptr.state = .died)
  | none => false

/-- What one turn of the loop of `task_waitpid` leads to. -/
inductive WaitResult where
  | reap (i : Nat) (child : Task)
  | block
  | noChild

/-- One scan of the table by `task_waitpid`: the first dead match ends it, and
    `has_child` is read only when there is none. -/
def waitScan (s : Sched) (task : Proc) (pid : Int) : WaitResult :=
  match slots.find? (deadMatch s task pid) with
  | some i =>
      match s.task_table i with
      | some child => .reap i child
      | none => .noChild
  | none => if slots.any (hasMatch s task pid) then .block else .noChild

/-! ## Signals -/

/-- `get_task`. -/
def getTask (s : Sched) (pid : Nat) : Option Nat :=
  slots.find? fun i => ((s.task_table i).map (·.pid)) = some pid

/-- `sys_kill`, with the state it leaves. -/
def sysKill (s : Sched) (pid sig : Nat) : Sched :=
  if sig < MINSIG ∨ sig > MAXSIG then s
  else match getTask s pid with
    | none => s
    | some i => match s.task_table i with
      | none => s
      | some task =>
          if task.uid = KERNEL_USER then s
          else if task.pid = 1 then s
          else
            let s := s.modify i fun t => { t with signal := t.signal ||| sigmask sig }
            if task.state = .waiting ∨ task.state = .sleeping then taskUnblock s i (-EINTR)
            else s

end NeonixTask
