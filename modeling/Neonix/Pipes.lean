import Neonix.Fifo
import Neonix.Runs
import Neonix.Task

/-! # `fs/pipe.c`: tasks that read and write one pipe

    A step is one turn of the loop of `pipe_read` or `pipe_write`: the task
    blocks, moves a byte, or is done.  `current` is the task that is in the
    middle of its loop, so tasks switch only where one blocks or returns.

    `returned` are the bytes a task's completed calls of `pipe_read` gave it,
    `stored` the bytes `pipe_write` has put into the pipe. -/

namespace NeonixPipes

open NeonixByteBits NeonixMachine NeonixFifo NeonixRuns NeonixTask

/-- The fields of a pipe's `inode_t`; `fifo` is what `desc` points to. -/
structure Pipe where
  fifo : Fifo
  rxwaiter : Option Nat
  txwaiter : Option Nat

/-- What a turn of the loop of `pipe_read` does. -/
inductive ReadTurn where
  | waits (pipe : Pipe)
  | takes (pipe : Pipe) (byte : Byte) (woken : Option Nat)

/-- One turn of the loop of `pipe_read`; `waited` says that the task stands
    behind the `task_block`. -/
def pipeReadTurn (p : Pipe) (t : Nat) (waited : Bool) : Res ReadTurn :=
  if waited = false ∧ p.fifo.Empty then do
    check (p.rxwaiter = none)
    return .waits { p with rxwaiter := some t }
  else do
    let (byte, fifo) ← fifoGet p.fifo
    return .takes { p with fifo := fifo, txwaiter := none } byte p.txwaiter

/-- What a turn of the loop of `pipe_write` does. -/
inductive WriteTurn where
  | waits (pipe : Pipe)
  | puts (pipe : Pipe) (woken : Option Nat)

/-- One turn of the loop of `pipe_write`. -/
def pipeWriteTurn (p : Pipe) (t : Nat) (byte : Byte) (waited : Bool) : Res WriteTurn :=
  if waited = false ∧ p.fifo.Full then do
    check (p.txwaiter = none)
    return .waits { p with txwaiter := some t }
  else do
    let fifo ← fifoPut p.fifo byte
    return .puts { p with fifo := fifo, rxwaiter := none } p.rxwaiter

/-- Where a task stands. -/
inductive Pc where
  | user
  /-- in the loop of `pipe_read`, with the bytes read so far -/
  | reading (count : Int) (buf : List Byte) (waited : Bool)
  /-- in the loop of `pipe_write`, with the bytes left to write -/
  | writing (buf : List Byte) (waited : Bool)
  deriving DecidableEq

/-- The bytes the call of `pipe_read` a task is in has read. -/
def Pc.buf : Pc → List Byte
  | .reading _ buf _ => buf
  | .user | .writing _ _ => []

structure State where
  pipe : Pipe
  state : Nat → TaskState
  pc : Nat → Pc
  current : Option Nat
  returned : Nat → List Byte
  stored : List Byte

def State.setPc (s : State) (t : Nat) (p : Pc) : State :=
  { s with pc := Function.update s.pc t p }

def State.setState (s : State) (t : Nat) (x : TaskState) : State :=
  { s with state := Function.update s.state t x }

/-- `task_unblock(waiter, EOK)` of a waiter, if there is one. -/
def State.unblock (s : State) : Option Nat → State
  | none => s
  | some t => s.setState t .ready

/-- `pipe_read` after a turn. -/
def afterRead (s : State) (t : Nat) (count : Int) (buf : List Byte) : ReadTurn → State
  | .waits pipe =>
      ({ s with pipe := pipe, current := none }.setPc t (.reading count buf true)).setState t .blocked
  | .takes pipe byte woken =>
      ({ s with pipe := pipe, current := some t }.setPc t
        (.reading count (buf ++ [byte]) false)).unblock woken

/-- `pipe_write` after a turn. -/
def afterWrite (s : State) (t : Nat) (byte : Byte) (buf : List Byte) : WriteTurn → State
  | .waits pipe =>
      ({ s with pipe := pipe, current := none }.setPc t
        (.writing (byte :: buf) true)).setState t .blocked
  | .puts pipe woken =>
      ({ s with pipe := pipe, current := some t, stored := s.stored ++ [byte] }.setPc t
        (.writing buf false)).unblock woken

/-- `return nr` of `pipe_read`. -/
def readReturn (s : State) (t : Nat) (buf : List Byte) : State :=
  { s with current := none, returned := Function.update s.returned t (s.returned t ++ buf) }.setPc t
    .user

inductive Event where
  /-- a call of `pipe_read` with this `count` -/
  | read (t : Nat) (count : Int)
  /-- a call of `pipe_write` with these bytes -/
  | write (t : Nat) (buf : List Byte)
  /-- the next turn of a task's loop -/
  | turn (t : Nat)

def Event.task : Event → Nat
  | .read t _ | .write t _ | .turn t => t

/-- The step of an event that can happen. -/
def exec (s : State) : Event → Res State
  | .read t count => .ok ({ s with current := some t }.setPc t (.reading count [] false))
  | .write t buf => .ok ({ s with current := some t }.setPc t (.writing buf false))
  | .turn t =>
      match s.pc t with
      | .user => .ok s
      | .reading count buf waited =>
          if waited = true ∨ (buf.length : Int) < count then do
            return afterRead s t count buf (← pipeReadTurn s.pipe t waited)
          else .ok (readReturn s t buf)
      | .writing [] _ => .ok ({ s with current := none }.setPc t .user)
      | .writing (byte :: buf) waited => do
          return afterWrite s t byte buf (← pipeWriteTurn s.pipe t byte waited)

/-- When an event can happen: no other task is in the middle of its loop, and
    the task is ready. -/
def Enabled (s : State) : Event → Prop
  | .read t _ | .write t _ => s.pc t = .user ∧ s.state t = .ready ∧ s.current = none
  | .turn t => s.pc t ≠ .user ∧ s.state t = .ready ∧ (s.current = none ∨ s.current = some t)

instance (s : State) : (e : Event) → Decidable (Enabled s e)
  | .read _ _ | .write _ _ | .turn _ => inferInstanceAs (Decidable (_ ∧ _))

/-- `get_pipe_inode`, with every task ready and outside the pipe. -/
structure Init (s : State) : Prop where
  empty : s.pipe.fifo.contents = []
  length : 2 ≤ s.pipe.fifo.length
  rxwaiter : s.pipe.rxwaiter = none
  txwaiter : s.pipe.txwaiter = none
  state : ∀ t, s.state t = .ready
  pc : ∀ t, s.pc t = .user
  current : s.current = none
  returned : ∀ t, s.returned t = []
  stored : s.stored = []

def system : System State Event := execSystem Init Enabled exec

/-! ## What the tasks behind their test rely on -/

/-- The task has found the pipe empty and waits, or has been woken. -/
def Pc.BehindRead : Pc → Prop
  | .reading _ _ true => True
  | .user | .reading _ _ false | .writing _ _ => False

/-- The task has found the pipe full and waits, or has been woken. -/
def Pc.BehindWrite : Pc → Prop
  | .writing _ true => True
  | .user | .reading _ _ _ | .writing _ false => False

instance : (p : Pc) → Decidable p.BehindRead
  | .user | .reading _ _ false | .writing _ _ => inferInstanceAs (Decidable False)
  | .reading _ _ true => inferInstanceAs (Decidable True)

instance : (p : Pc) → Decidable p.BehindWrite
  | .user | .reading _ _ _ | .writing _ false => inferInstanceAs (Decidable False)
  | .writing _ true => inferInstanceAs (Decidable True)

/-- One side of a pipe: its waiter slot, the tasks behind its test, and what it
    gets stuck on. -/
structure Side (waiter : Option Nat) (behind : Nat → Prop) (state : Nat → TaskState)
    (stuck : Prop) : Prop where
  slot : ∀ t, waiter = some t ↔ behind t ∧ state t = .blocked
  single : ∀ t u, behind t → behind u → t = u
  waits : waiter ≠ none → stuck
  woken : ∀ t, behind t → state t ≠ .blocked → ¬ stuck

section Side

variable {waiter : Option Nat} {behind behind' : Nat → Prop} {state state' : Nat → TaskState}
  {stuck stuck' : Prop} {t : Nat}

/-- Where a side is stuck and nobody waits, nobody is behind its test. -/
theorem Side.nobody (h : Side none behind state stuck) (hs : stuck) (u : Nat) : ¬ behind u := by
  intro hu
  by_cases hb : state u = .blocked
  · exact absurd ((h.slot u).mpr ⟨hu, hb⟩) nofun
  · exact h.woken u hu hb hs

/-- A task finds the side stuck and waits. -/
theorem Side.block (h : Side none behind state stuck) (hs : stuck)
    (hb : ∀ u, behind' u ↔ behind u ∨ u = t) (hst : state' t = .blocked) :
    Side (some t) behind' state' stuck := by
  have honly : ∀ u, behind' u ↔ u = t := fun u =>
    (hb u).trans (or_iff_right (h.nobody hs u))
  refine ⟨fun u => ?_, fun u v hu hv => ?_, fun _ => hs, fun u hu hne => ?_⟩
  · rw [honly u]
    constructor
    · intro hu
      obtain rfl := Option.some.inj hu
      exact ⟨rfl, hst⟩
    · rintro ⟨rfl, -⟩
      rfl
  · exact ((honly u).mp hu).trans ((honly v).mp hv).symm
  · rw [(honly u).mp hu] at hne
    exact absurd hst hne

/-- A task passes its own test, or goes on behind it. -/
theorem Side.pass (h : Side waiter behind state stuck)
    (hroom : stuck' → ∀ u, behind u → u = t) (hb : ∀ u, behind' u ↔ behind u ∧ u ≠ t)
    (hst : ∀ u, u ≠ t → behind u → state' u ≠ .blocked) : Side none behind' state' stuck' := by
  have hready : ∀ u, behind' u → state' u ≠ .blocked := fun u hu =>
    hst u ((hb u).mp hu).2 ((hb u).mp hu).1
  refine ⟨fun u => ?_, fun u v hu hv => ?_, fun hx => absurd rfl hx, fun u hu _ hs => ?_⟩
  · exact iff_of_false nofun fun hx => hready u hx.1 hx.2
  · exact h.single u v ((hb u).mp hu).1 ((hb v).mp hv).1
  · exact ((hb u).mp hu).2 (hroom hs u ((hb u).mp hu).1)

/-- A side nobody waits at. -/
theorem Side.waiter_none (h : Side waiter behind state stuck) (hn : ¬ stuck) : waiter = none := by
  by_contra hw
  exact hn (h.waits hw)

/-- The tasks behind the test of a side that is not stuck have been woken. -/
theorem Side.ready (h : Side waiter behind state stuck) (hn : ¬ stuck) {u : Nat} (hu : behind u) :
    state u ≠ .blocked := by
  intro hb
  have hw := (h.slot u).mpr ⟨hu, hb⟩
  rw [h.waiter_none hn] at hw
  cases hw

/-- The other side makes the side move again and wakes its waiter. -/
theorem Side.serve (h : Side waiter behind state stuck) (hn : ¬ stuck')
    (hb : ∀ u, behind' u ↔ behind u) (hst : ∀ u, behind u → state' u ≠ .blocked) :
    Side none behind' state' stuck' := by
  refine ⟨fun u => ?_, fun u v hu hv => ?_, fun hx => absurd rfl hx, fun u _ _ => hn⟩
  · exact iff_of_false nofun fun hx => hst u ((hb u).mp hx.1) hx.2
  · exact h.single u v ((hb u).mp hu) ((hb v).mp hv)

/-- A step the side does not notice. -/
theorem Side.frame (h : Side waiter behind state stuck) (hb : ∀ u, behind' u ↔ behind u)
    (hst : ∀ u, behind u → state' u = state u) : Side waiter behind' state' stuck := by
  refine ⟨fun u => ?_, fun u v hu hv => ?_, h.waits, fun u hu hne => ?_⟩
  · rw [h.slot u, hb u]
    exact and_congr_right fun hu => by rw [hst u hu]
  · exact h.single u v ((hb u).mp hu) ((hb v).mp hv)
  · rw [hst u ((hb u).mp hu)] at hne
    exact h.woken u ((hb u).mp hu) hne

end Side

end NeonixPipes
