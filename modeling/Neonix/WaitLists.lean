import Neonix.LinkedNodes
import Neonix.Processes

/-! # The wait lists of the scheduler

    The list nodes of the tasks, with their pointers: `block_list`, `sleep_list`,
    the `wait_list` of the buffer cache and the waiters of the mutexes.  The node of
    a task is the one of its slot in `nodes`; the field `node` of a task is not used
    here.  A fault is told apart by where it stops: at a list node or elsewhere. -/

namespace NeonixWaitLists

open NeonixMachine NeonixTask NeonixTaskSpecs NeonixProcesses NeonixRuns NeonixLinkedNodes

/-- An assertion on a list node that fails, or a null pointer in a list; or
    another reason to stop. -/
inductive Fault where
  | link
  | stop (why : Stop)
  deriving DecidableEq, Repr

abbrev Outcome (α : Type) := Except Fault α

/-- A call that looks at no list node. -/
def lift {α : Type} (r : Res α) : Outcome α := r.mapError Fault.stop

/-- `assert(exp)` on a list node. -/
def assertLink (p : Prop) [Decidable p] : Outcome Unit := if p then .ok () else .error .link

/-- A list operation. -/
def listOp {α : Type} : Option α → Outcome α
  | none => .error .link
  | some a => .ok a

abbrev WaitNodes := Nodes WaitList Nat

/-- The tasks and their list nodes. -/
structure State where
  sched : Sched
  nodes : WaitNodes

/-- `node.next == NULL && node.prev == NULL`. -/
def Unlinked (n : WaitNodes) (i : Nat) : Prop :=
  n.next (.node i) = none ∧ n.prev (.node i) = none

instance (n : WaitNodes) (i : Nat) : Decidable (Unlinked n i) := inferInstanceAs (Decidable (_ ∧ _))

/-- More turns than a list of tasks has nodes. -/
def turns : Nat := TASK_NR + 1

/-- `task_block(running_task(), list, state, timeout_ms)`. -/
def taskBlock (s : State) (list : WaitList) (state : TaskState) (policy : Policy) :
    Outcome State := do
  let _ ← lift (runningTask s.sched)
  assertLink (Unlinked s.nodes s.sched.current)
  lift (check (state ≠ .ready ∧ state ≠ .running))
  let nodes ← listOp (push s.nodes list (.node s.sched.current) turns)
  let sched := s.sched.modify s.sched.current fun t => { t with state := state }
  return { sched := schedule sched policy, nodes := nodes }

/-- `if (task->node.next) list_remove(&task->node);` -/
def unlink (n : WaitNodes) (i : Nat) : Outcome WaitNodes :=
  if n.next (.node i) ≠ none then listOp (remove n (.node i)) else return n

/-- `task_unblock`. -/
def taskUnblock (s : State) (i : Nat) (reason : Int) : Outcome State := do
  let nodes ← unlink s.nodes i
  assertLink (Unlinked nodes i)
  return { sched := s.sched.modify i fun t => { t with status := reason, state := .ready }
           nodes := nodes }

/-- The end of `brelse`. -/
def brelse (s : State) : Outcome State :=
  if isEmpty s.nodes .waitList = true then return s
  else do
    let (node, nodes) ← listOp (popBack s.nodes .waitList)
    match node with
    | .node i => taskUnblock { s with nodes := nodes } i EOK
    | _ => .error .link

/-- `mutex_unlock`, behind the store to `value`. -/
def mutexUnlock (s : State) (mutex : Nat) (policy : Policy) : Outcome State :=
  if isEmpty s.nodes (.mutexWaiters mutex) = true then return s
  else
    match s.nodes.prev (.tail (.mutexWaiters mutex)) with
    | some (.node i) => do
        let s ← taskUnblock s i EOK
        return { s with sched := schedule s.sched policy }
    | _ => .error .link

/-- `task_fork`; the node of the child is copied with the page. -/
def taskFork (s : State) : Outcome State := do
  assertLink (Unlinked s.nodes s.sched.current)
  let (child, sched) ← lift (NeonixTask.taskFork s.sched)
  let nodes := s.nodes.setNext (.node child) (s.nodes.next (.node s.sched.current))
  let nodes := nodes.setPrev (.node child) (s.nodes.prev (.node s.sched.current))
  return { sched := sched, nodes := nodes }

/-- `task_exit` up to the clean-up. -/
def exitMark (s : State) (status : Int) : Outcome State := do
  assertLink (Unlinked s.nodes s.sched.current)
  let sched ← lift (NeonixTask.exitMark s.sched status)
  return { s with sched := sched }

/-- The wake-up of a father that waits for this task. -/
def wakeFather (s : State) (task : Task) : Outcome State :=
  match s.sched.task_table task.ppid with
  | none => .error (.stop .outOfBounds)
  | some parent =>
      if parent.state = .waiting ∧ (parent.waitpid = -1 ∨ parent.waitpid = task.pid) then
        taskUnblock s task.ppid EOK
      else return s

/-- `task_exit` from the end of the clean-up on. -/
def exitFinish (s : State) (policy : Policy) : Outcome State := do
  let task ← lift (runningTask s.sched)
  let s ← wakeFather { s with sched := reparent s.sched task } task
  return { s with sched := schedule s.sched policy }

/-- One turn of the loop of `task_waitpid`. -/
def waitpidTurn (s : State) (pid : Int) (policy : Policy) : Outcome State := do
  let task ← lift (runningTask s.sched)
  match waitScan s.sched task.toProc pid with
  | .reap i _ => return { s with sched := clearSlot (returnUser s.sched) i }
  | .block =>
      let sched := s.sched.modify s.sched.current fun t =>
        { t with waitpid := pid, pc := .inWaitpid pid }
      taskBlock { s with sched := sched } .blockList .waiting policy
  | .noChild => return { s with sched := returnUser s.sched }

/-- `sys_kill`. -/
def sysKill (s : State) (pid sig : Nat) : Outcome State :=
  if sig < MINSIG ∨ sig > MAXSIG then return s
  else match getTask s.sched pid with
    | none => return s
    | some i => match s.sched.task_table i with
      | none => return s
      | some task =>
          if task.uid = KERNEL_USER then return s
          else if task.pid = 1 then return s
          else
            let s := { s with sched := s.sched.modify i fun t =>
              { t with signal := t.signal ||| sigmask sig } }
            if task.state = .waiting ∨ task.state = .sleeping then taskUnblock s i (-EINTR)
            else return s

inductive Event where
  | fork
  | exit (status : Int) (policy : Policy)
  | exitMark (status : Int)
  | exitFinish (policy : Policy)
  | waitpid (pid : Int) (policy : Policy)
  | resume (policy : Policy)
  | kill (pid sig : Nat)
  | yield (policy : Policy)
  | block (list : WaitList) (policy : Policy)
  /-- a wake-up source uses a task pointer, however old -/
  | wake (i : Nat)
  | brelse
  | mutexUnlock (mutex : Nat) (policy : Policy)
  | sleep (policy : Policy)
  /-- a timer with the default handler fires -/
  | timeout (i : Nat)

/-- Where in the kernel the running task is. -/
def State.pc (s : State) : Option KernelPc := (s.sched.proc s.sched.current).map Proc.pc

/-- The step of an event that can happen. -/
def exec (s : State) : Event → Outcome State
  | .fork => taskFork s
  | .exit status policy => do exitFinish (← exitMark s status) policy
  | .exitMark status => exitMark s status
  | .exitFinish policy => exitFinish s policy
  | .waitpid pid policy => waitpidTurn s pid policy
  | .resume policy =>
      match s.pc with
      | some (.inWaitpid pid) => waitpidTurn s pid policy
      | _ => .error (.stop .outOfBounds)
  | .kill pid sig => sysKill s pid sig
  | .yield policy => return { s with sched := schedule s.sched policy }
  | .block list policy => taskBlock s list .blocked policy
  | .wake i => taskUnblock s i EOK
  | .brelse => brelse s
  | .mutexUnlock mutex policy => mutexUnlock s mutex policy
  | .sleep policy => taskBlock s .sleepList .sleeping policy
  | .timeout i => taskUnblock s i (-ETIME)

/-- When an event can happen: the idle task does not block, and wake-up sources may
    use any task pointer at any time. -/
def Enabled (s : State) : Event → Prop
  | .fork | .exit _ _ | .exitMark _ | .waitpid _ _ | .kill _ _ | .sleep _ =>
      s.sched.current ≠ idle_task ∧ s.pc = some .user
  | .exitFinish _ => s.pc = some .inExit
  | .resume _ | .block _ _ | .mutexUnlock _ _ => s.sched.current ≠ idle_task
  | .yield _ | .wake _ | .brelse | .timeout _ => True

instance (s : State) : (e : Event) → Decidable (Enabled s e)
  | .fork | .exit _ _ | .exitMark _ | .waitpid _ _ | .kill _ _ | .sleep _ =>
      inferInstanceAs (Decidable (_ ∧ _))
  | .exitFinish _ => inferInstanceAs (Decidable (_ = _))
  | .resume _ | .block _ _ | .mutexUnlock _ _ => inferInstanceAs (Decidable (_ ≠ _))
  | .yield _ | .wake _ | .brelse | .timeout _ => inferInstanceAs (Decidable True)

/-- `list_init` of every list, with the nodes of new tasks. -/
def bootNodes : WaitNodes where
  next
    | .head l => some (.tail l)
    | _ => none
  prev
    | .tail l => some (.head l)
    | _ => none

/-- Any of the tasks `task_init` made runs first. -/
def system : System State Event :=
  execSystem (fun s => ∃ first < 3, s = ⟨(boot first).sched, bootNodes⟩) Enabled exec

end NeonixWaitLists
