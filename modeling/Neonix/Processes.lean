import Neonix.Runs
import Neonix.TaskSpecs

/-! # Processes as a transition system

    A step is the code one task runs between two points where the kernel can
    switch, or one interrupt.  The event of a step names the system call and its
    arguments; the policy of a switch is part of the event, so a run chooses
    every interleaving the scheduler admits.  The log records the forks, exits,
    reaps and switches of a run, the newest first. -/

namespace NeonixProcesses

open NeonixMachine NeonixTask NeonixTaskSpecs NeonixRuns

/-- What a run of the process system shows. -/
inductive Obs where
  | forked (parent child : Nat)
  | exited (pid : Nat) (status : Int)
  | reaped (parent child : Nat) (status : Int)
  | picked (pid : Nat)
  deriving DecidableEq, Repr

structure State where
  sched : Sched
  log : List Obs

def State.proc (s : State) : Nat → Option Proc := s.sched.proc

def State.current (s : State) : Nat := s.sched.current

/-- Where in the kernel the running task is. -/
def State.pc (s : State) : Option KernelPc := (s.proc s.current).map Proc.pc

inductive Event where
  /-- `fork` -/
  | fork
  /-- `exit` with a clean-up that does not block -/
  | exit (status : Int) (policy : Policy)
  /-- `exit` up to its clean-up -/
  | exitMark (status : Int)
  /-- `exit` from the end of its clean-up on -/
  | exitFinish (policy : Policy)
  /-- `waitpid` up to the point where it returns or blocks -/
  | waitpid (pid : Int) (policy : Policy)
  /-- the next turn of the loop of `task_waitpid` -/
  | resume (policy : Policy)
  | kill (pid sig : Nat)
  /-- `task_yield`, also from the clock interrupt -/
  | yield (policy : Policy)
  /-- the running task waits for a device, a lock or a buffer -/
  | block (list : WaitList) (policy : Policy)
  /-- a wake-up source uses its task pointer -/
  | wake (i : Nat)
  /-- a mutex or the buffer cache wakes the tail of its list -/
  | wakeList (i : Nat)
  /-- `sleep` -/
  | sleep (policy : Policy)
  /-- a timer with the default handler fires -/
  | timeout (i : Nat)

/-- The state after a switch. -/
def State.switched (s : State) (obs : List Obs) (sched : Sched) : State :=
  { sched := sched, log := .picked sched.current :: (obs ++ s.log) }

/-- The running task returns from `task_waitpid`. -/
def returnUser (s : Sched) : Sched := s.modify s.current fun t => { t with pc := .user }

/-- `task_table[i] = NULL`. -/
def clearSlot (s : Sched) (i : Nat) : Sched :=
  { s with task_table := Function.update s.task_table i none }

theorem proc_returnUser (s : Sched) (j : Nat) :
    (returnUser s).proc j = (s.proc j).map fun p =>
      if j = s.current then { p with pc := .user } else p :=
  proc_modify (fun p => { p with pc := .user }) (fun _ => rfl) j

theorem proc_clearSlot (s : Sched) (i j : Nat) :
    (clearSlot s i).proc j = if j = i then none else s.proc j := by
  show (Function.update s.task_table i none j).map Task.toProc = _
  by_cases hj : j = i
  · subst hj
    rw [Function.update_self, if_pos rfl]
    rfl
  · rw [Function.update_of_ne hj, if_neg hj]
    rfl

/-- One turn of the loop of `task_waitpid`. -/
def waitpidTurn (s : State) (pid : Int) (policy : Policy) : Res State := do
  let task ← runningTask s.sched
  match waitScan s.sched task.toProc pid with
  | .reap i child =>
      return { sched := clearSlot (returnUser s.sched) i
               log := .reaped task.pid child.pid child.status :: s.log }
  | .block =>
      let k := s.sched.modify s.current fun t => { t with waitpid := pid, pc := .inWaitpid pid }
      let k ← taskBlock k .blockList .waiting policy
      return s.switched [] k
  | .noChild => return { s with sched := returnUser s.sched }

/-- The lists whose wake-up goes through the list and not through a pointer. -/
def viaList : WaitList → Bool
  | .waitList | .mutexWaiters _ => true
  | .blockList | .sleepList => false

/-- The wake-up sources that point at the running task once it blocks. -/
def pointers (s : Sched) (list : WaitList) : Sched :=
  if list = .blockList then { s with waiters := s.current :: s.waiters } else s

/-- The step of an event that can happen. -/
def exec (s : State) : Event → Res State
  | .fork => do
      let (child, k) ← taskFork s.sched
      return { sched := k, log := .forked s.current child :: s.log }
  | .exit status policy => do
      let k ← taskExit s.sched status policy
      return s.switched [.exited s.current status] k
  | .exitMark status => do
      let k ← exitMark s.sched status
      return { sched := k, log := .exited s.current status :: s.log }
  | .exitFinish policy => do
      let k ← exitFinish s.sched policy
      return s.switched [] k
  | .waitpid pid policy => waitpidTurn s pid policy
  | .resume policy =>
      match s.pc with
      | some (.inWaitpid pid) => waitpidTurn s pid policy
      | _ => .error .outOfBounds
  | .kill pid sig => return { s with sched := sysKill s.sched pid sig }
  | .yield policy => return s.switched [] (schedule s.sched policy)
  | .block list policy => do
      let k ← taskBlock (pointers s.sched list) list .blocked policy
      return s.switched [] k
  | .wake i =>
      let k := taskUnblock s.sched i EOK
      return { s with sched := { k with waiters := k.waiters.erase i } }
  | .wakeList i => return { s with sched := taskUnblock s.sched i EOK }
  | .sleep policy => do
      let k := { s.sched with timers := s.current :: s.sched.timers }
      let k ← taskBlock k .sleepList .sleeping policy
      return s.switched [] k
  | .timeout i =>
      let k := taskUnblock s.sched i (-ETIME)
      return { s with sched := { k with timers := k.timers.erase i } }

/-- A task other than the idle task runs, at a system call boundary. -/
def AtCall (s : State) : Prop := s.current ≠ idle_task ∧ s.pc = some .user

instance (s : State) : Decidable (AtCall s) := inferInstanceAs (Decidable (_ ∧ _))

/-- When an event can happen. -/
def Enabled (s : State) : Event → Prop
  | .fork | .exit _ _ | .exitMark _ | .waitpid _ _ | .kill _ _ | .sleep _ => AtCall s
  | .exitFinish _ => s.pc = some .inExit
  -- `exec` stops a `resume` of a task that is not in `task_waitpid`
  | .resume _ => s.current ≠ idle_task
  | .yield _ => True
  | .block list _ =>
      s.current ≠ idle_task ∧ list ≠ .sleepList ∧ (s.pc = some .user ∨ s.pc = some .inExit)
  | .wake i => i ∈ s.sched.waiters
  | .wakeList i => ((s.proc i).bind Proc.node).any viaList
  | .timeout i => i ∈ s.sched.timers

instance (s : State) : (e : Event) → Decidable (Enabled s e)
  | .fork | .exit _ _ | .exitMark _ | .waitpid _ _ | .kill _ _ | .sleep _ =>
      inferInstanceAs (Decidable (AtCall s))
  | .exitFinish _ => inferInstanceAs (Decidable (_ = _))
  | .resume _ => inferInstanceAs (Decidable (_ ≠ _))
  | .yield _ => inferInstanceAs (Decidable True)
  | .block _ _ => inferInstanceAs (Decidable (_ ∧ _ ∧ _))
  | .wake _ | .timeout _ => inferInstanceAs (Decidable (_ ∈ _))
  | .wakeList _ => inferInstanceAs (Decidable (_ = _))

/-- The table `task_init` leaves. -/
def bootTask (pid priority uid : Nat) : Task where
  state := .ready
  node := none
  uid := uid
  pid := pid
  ppid := 0
  status := 0
  waitpid := 0
  pc := .user
  priority := priority
  ticks := priority
  jiffies := 0
  sid := 0
  signal := 0

/-- `task_init`: the idle, init and test tasks, before the first switch. -/
def bootTable (i : Nat) : Option Task :=
  if i = 0 then some (bootTask 0 1 KERNEL_USER)
  else if i = 1 then some (bootTask 1 5 NORMAL_USER)
  else if i = 2 then some (bootTask 2 5 NORMAL_USER)
  else none

theorem bootTable_pid {i : Nat} {t : Task} (h : bootTable i = some t) : t.pid = i := by
  rw [bootTable] at h
  split_ifs at h
  all_goals
    rw [← Option.some.inj h]
    subst_vars
    rfl

/-- The first switch goes to one of the tasks `task_init` made. -/
def boot (first : Nat) : State where
  sched :=
    { task_table := fun i => (bootTable i).map fun t =>
        { t with state := if i = first then .running else .ready }
      current := first
      waiters := []
      timers := [] }
  log := []

/-- The process system: any of the tasks `task_init` made runs first. -/
def system : System State Event :=
  execSystem (fun s => ∃ first < 3, s = boot first) Enabled exec

end NeonixProcesses
