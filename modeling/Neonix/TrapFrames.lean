import Neonix.ContextSwitches

/-! # Interrupts and system calls: `handler.asm`

    An interrupt leaves a frame on the stack of the kernel, and what the handler
    does lies below it, the switches to other tasks included.  The child of a
    `fork` gets a copy of the frame. -/

namespace NeonixTrapFrames

open NeonixAssembly NeonixWordMemory NeonixRuns NeonixContextSwitches

def KERNEL_CODE_SELECTOR : Word := 8
def KERNEL_DATA_SELECTOR : Word := 16

/-- The flags a gate clears: IF, TF, NT, RF and VM. -/
def GATE_FLAGS : Word := 0x34300

/-- The processor goes through an interrupt gate, from user code to the stack of the
    task segment. -/
def interrupt (c : Cpu) (esp0 handler : Word) : Cpu :=
  let outer := { c with esp := esp0, ss := KERNEL_DATA_SELECTOR }.pushAll [c.ss, c.esp]
  let c' := if c.cs &&& 3 ≠ 0 then outer else c
  { c'.pushAll [c.eflags, c.cs, c.eip] with
    cs := KERNEL_CODE_SELECTOR
    eip := handler
    eflags := c.eflags &&& ~~~GATE_FLAGS }

/-- What the processor pushes first where the stack changes. -/
def outerWords (u : Cpu) : List Word := if u.cs &&& 3 ≠ 0 then [u.esp, u.ss] else []

/-- `intr_frame_t` of an interrupted processor, with an `eax` to go back to. -/
def intrFrame (u : Cpu) (eax vector dummy vector0 error : Word) : List Word :=
  [vector, u.edi, u.esi, u.ebp, dummy, u.ebx, u.edx, u.ecx, eax, u.gs, u.fs, u.es, u.ds, vector0,
    error, u.eip, u.cs, u.eflags] ++ outerWords u

/-- There is a frame. -/
def Trapped (m : Memory) (base : Word) (u : Cpu) (eax : Word) : Prop :=
  ∃ vector dummy vector0 error, Holds m base (intrFrame u eax vector dummy vector0 error)

/-- The bytes of the frame. -/
def frameSize (u : Cpu) : Nat := if u.cs &&& 3 ≠ 0 then 80 else 72

/-- `task_signal` leaves the frame: no signal is delivered. -/
structure Quiet (signal : Cpu → Cpu) (base : Word) (n : Nat) : Prop where
  esp : ∀ c, (signal c).esp = c.esp
  cs : ∀ c, (signal c).cs = c.cs
  frame : ∀ c, Same c.memory (signal c).memory base n

variable {c u : Cpu} {m m' : Memory} {base eax esp0 : Word} {signal check : Cpu → Cpu}

/-! ## Frames -/

theorem intrFrame_length (u : Cpu) (eax vector dummy vector0 error : Word) :
    4 * (intrFrame u eax vector dummy vector0 error).length = frameSize u := by
  rw [intrFrame, frameSize, outerWords]
  split
  · rfl
  · rfl

theorem Trapped.same (h : Trapped m base u eax) (hs : Same m m' base (frameSize u)) :
    Trapped m' base u eax := by
  obtain ⟨vector, dummy, vector0, error, h⟩ := h
  refine ⟨vector, dummy, vector0, error, h.same hs (intrFrame_length ..).le ?_⟩
  rw [frameSize]
  split
  · decide
  · decide

/-- The handler, and the code it calls, use the stack below the frame. -/
def Below (p base : Word) (n : Nat) (s : State) : Event → Prop
  | .run cpu => s.current = p → Same s.cpu.memory cpu.memory base n
  | .switch _ => s.current = p → (s.cpu.esp - 16 - p).toNat + 24 ≤ (base - p).toNat
  | .free task => task ≠ p
  | .create _ _ | .fork _ _ => True

variable {s t : State} {p q : Word} {n : Nat} {es : List Event}

/-- A process that calls `fork`. -/
def user : Cpu where
  eax := 2
  ecx := 11
  edx := 12
  ebx := 13
  esp := 0x8000000
  ebp := 0x8000010
  esi := 14
  edi := 15
  gs := 0
  fs := 0x2b
  es := 0x2b
  ds := 0x2b
  eip := 0x1000000
  cs := 0x23
  eflags := 0x202
  ss := 0x2b
  memory := fun _ => 0

/-- The process is in its system call. -/
def calling (c : Cpu) : State := next bootState (.run c)

/-- It has a child on the page 0x2000, and calls `task_switch(0x2000)`. -/
def forked (c : Cpu) : State := next (calling c) (.fork 0x2000 0x5000)

end NeonixTrapFrames
