import Neonix.LinkedList
import Neonix.Processes

/-! # `kernel/timer.c` and the clock: timed waits

    The process model with its timers made explicit: `timer_list` holds the
    timers with the default handler, sorted by the time they expire, and the
    clock interrupt runs `timer_wakeup`.  `sleep` is the only call here that
    adds a timer.  The list of timers of the process model itself stays empty;
    its `sleep` and `timeout` events are replaced by those of this module. -/

namespace NeonixTimers

open NeonixMachine NeonixTask NeonixProcesses NeonixRuns NeonixLinkedList

/-- `JIFFY`, the value of `jiffy`: the milliseconds of a tick. -/
def JIFFY : BitVec 32 := 10

/-- `EOF` as `timer_expires` returns it. -/
def EOF : BitVec 32 := -1#32

/-- `timer_t` with `handler = NULL`. -/
structure Timer where
  task : Nat
  expires : BitVec 32
  deriving DecidableEq

structure Clock where
  state : State
  timer_list : List Timer
  jiffies : BitVec 32

/-- The tasks of the timers. -/
def Clock.timed (s : Clock) : List Nat := s.timer_list.map Timer.task

/-- `timer_add(expire_ms, NULL, NULL)`; the list compares the times as `int`. -/
def timerAdd (s : Clock) (expire_ms : BitVec 32) : List Timer :=
  let timer := { task := s.state.current, expires := s.jiffies + expire_ms / JIFFY }
  insertSort (fun t => t.expires.toInt) timer s.timer_list

/-- `timer_remove`. -/
def timerRemove (s : Clock) (task : Nat) : List Timer :=
  s.timer_list.filter fun timer => timer.task ≠ task

/-- `default_timeout`. -/
def defaultTimeout (s : Sched) (timer : Timer) : Sched := taskUnblock s timer.task (-ETIME)

/-- The loop of `timer_wakeup`.  With an empty list `timer_expires` returns `EOF`,
    and the head of the list is no timer. -/
def timerWakeup (jiffies : BitVec 32) : List Timer → Sched → Res (List Timer × Sched)
  | [], s => if EOF ≤ jiffies then .error .outOfBounds else .ok ([], s)
  | timer :: rest, s =>
      if timer.expires ≤ jiffies then timerWakeup jiffies rest (defaultTimeout s timer)
      else .ok (timer :: rest, s)

inductive Event where
  /-- `task_sleep`, with the `int` that `task_block` reads -/
  | sleep (ms : BitVec 32) (policy : Policy)
  /-- `jiffies++` and `timer_wakeup` of the clock interrupt -/
  | tick
  /-- a step of the process model -/
  | process (e : NeonixProcesses.Event)

/-- The steps of the process model in which the running task starts to exit. -/
def Exits : NeonixProcesses.Event → Bool
  | .exit _ _ | .exitMark _ => true
  | .fork | .exitFinish _ | .waitpid _ _ | .resume _ | .kill _ _ | .yield _ | .block _ _
  | .wake _ | .wakeList _ | .sleep _ | .timeout _ => false

/-- The steps of the process model that this module keeps. -/
def Untimed : NeonixProcesses.Event → Bool
  | .sleep _ | .timeout _ => false
  | .fork | .exit _ _ | .exitMark _ | .exitFinish _ | .waitpid _ _ | .resume _ | .kill _ _
  | .yield _ | .block _ _ | .wake _ | .wakeList _ => true

/-- The step of an event that can happen. -/
def exec (s : Clock) : Event → Res Clock
  | .sleep ms policy => do
      let k ← taskBlock s.state.sched .sleepList .sleeping policy
      return { s with
        state := s.state.switched [] k
        timer_list := if 0 < ms.toInt then timerAdd s ms else s.timer_list }
  | .tick => do
      let jiffies := s.jiffies + 1
      let (list, k) ← timerWakeup jiffies s.timer_list s.state.sched
      return { state := { s.state with sched := k }, timer_list := list, jiffies := jiffies }
  | .process e => do
      let state ← NeonixProcesses.exec s.state e
      return { s with
        state := state
        timer_list := if Exits e then timerRemove s s.state.current else s.timer_list }

/-- When an event can happen. -/
def Enabled (s : Clock) : Event → Prop
  | .sleep _ _ => AtCall s.state
  | .tick => True
  | .process e => Untimed e = true ∧ NeonixProcesses.Enabled s.state e

instance (s : Clock) : (e : Event) → Decidable (Enabled s e)
  | .sleep _ _ => inferInstanceAs (Decidable (AtCall _))
  | .tick => inferInstanceAs (Decidable True)
  | .process _ => inferInstanceAs (Decidable (_ ∧ _))

/-- The first switch, with no timer and the clock at zero. -/
def boot (first : Nat) : Clock where
  state := NeonixProcesses.boot first
  timer_list := []
  jiffies := 0

/-- The process system with a clock. -/
def system : System Clock Event :=
  execSystem (fun s => ∃ first < 3, s = boot first) Enabled exec

end NeonixTimers
