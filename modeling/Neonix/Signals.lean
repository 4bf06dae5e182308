import Neonix.Machine
import Neonix.Task
import Neonix.WordMemory

/-! # `kernel/signal.c`: masks, actions, delivery and return

    A task as the signal calls see it: its bitmaps and actions, the registers
    that `iret` will load, and its memory.  `taskSignal` builds the frame of a
    handler, `restorer` is the assembly the handler returns into. -/

namespace NeonixSignals

open NeonixMachine NeonixWordMemory
open NeonixTask (sigmask MINSIG MAXSIG SIGCHLD KERNEL_USER)

def SIGKILL : Nat := 9

def SIG_NOMASK : BitVec 32 := 0x40000000

def SIG_ONESHOT : BitVec 32 := 0x80000000

def SIG_DFL : BitVec 32 := 0

def SIG_IGN : BitVec 32 := 1

def EOF : BitVec 32 := -1

def EPERM : BitVec 32 := 1

/-- `sigaction_t`. -/
structure Sigaction where
  handler : BitVec 32
  mask : BitVec 32
  flags : BitVec 32
  restorer : BitVec 32

/-- The registers of `intr_frame_t` that signals are about. -/
structure IntrFrame where
  eax : BitVec 32
  ecx : BitVec 32
  edx : BitVec 32
  eip : BitVec 32
  eflags : BitVec 32
  esp : BitVec 32
  deriving DecidableEq

structure Task where
  uid : Nat
  pid : Int
  died : Bool
  signal : BitVec 32
  blocked : BitVec 32
  actions : Nat → Sigaction
  iframe : IntrFrame
  memory : Memory

/-! ## Masks and actions -/

/-- `sys_ssetmask`: the task and what is returned. -/
def sysSsetmask (task : Task) (newmask : BitVec 32) : Task × BitVec 32 :=
  if newmask = EOF then (task, -EPERM)
  else ({ task with blocked := newmask &&& ~~~ sigmask SIGKILL }, task.blocked)

/-- A signal no action is registered for. -/
def Refused (sig : Int) : Prop := sig < MINSIG ∨ sig > MAXSIG ∨ sig = SIGKILL

instance (sig : Int) : Decidable (Refused sig) := inferInstanceAs (Decidable (_ ∨ _))

/-- `task->actions[sig - 1] = action`. -/
def Task.setAction (task : Task) (sig : Nat) (action : Sigaction) : Task :=
  { task with actions := Function.update task.actions (sig - 1) action }

/-- The action `sys_signal` registers. -/
def signalAction (handler restorer : BitVec 32) : Sigaction where
  mask := 0
  handler := handler
  flags := SIG_ONESHOT ||| SIG_NOMASK
  restorer := restorer

/-- `sys_signal`. -/
def sysSignal (task : Task) (sig : Int) (handler restorer : BitVec 32) : Task × BitVec 32 :=
  if Refused sig then (task, EOF)
  else (task.setAction sig.toNat (signalAction handler restorer), handler)

/-- A `sigaction_t` in memory. -/
def loadAction (m : Memory) (p : BitVec 32) : Sigaction where
  handler := load m (p + 0)
  mask := load m (p + 4)
  flags := load m (p + 8)
  restorer := load m (p + 12)

def storeAction (m : Memory) (p : BitVec 32) (action : Sigaction) : Memory :=
  store (store (store (store m (p + 0) action.handler) (p + 4) action.mask) (p + 8) action.flags)
    (p + 12) action.restorer

/-- The action `sys_sigaction` registers for a signal. -/
def normalAction (sig : Nat) (action : Sigaction) : Sigaction :=
  if action.flags &&& SIG_NOMASK ≠ 0 then { action with mask := 0 }
  else { action with mask := action.mask ||| sigmask sig }

/-- `sys_sigaction`, with its two pointers. -/
def sysSigaction (task : Task) (sig : Int) (action oldaction : BitVec 32) : Task × BitVec 32 :=
  if Refused sig then (task, EOF)
  else
    let memory :=
      if oldaction ≠ 0 then storeAction task.memory oldaction (task.actions (sig.toNat - 1))
      else task.memory
    ({ task with memory := memory }.setAction sig.toNat
      (normalAction sig.toNat (loadAction memory action)), 0)

/-! ## Delivery -/

/-- The pending signals that are not blocked. -/
def Task.map (task : Task) : BitVec 32 := task.signal &&& ~~~ task.blocked

/-- The signal `task_signal` takes from its map: the lowest one. -/
def lowest (map : BitVec 32) : Option Nat :=
  (List.range' 1 MAXSIG).find? fun sig => map &&& sigmask sig ≠ 0

/-- `signal_frame_t`, stored field by field below `esp`. -/
def storeFrame (task : Task) (sig : Nat) (action : Sigaction) (frame : BitVec 32) : Memory :=
  let m := store task.memory (frame + 28) task.iframe.eip
  let m := store m (frame + 24) task.iframe.eflags
  let m := store m (frame + 20) task.iframe.edx
  let m := store m (frame + 16) task.iframe.ecx
  let m := store m (frame + 12) task.iframe.eax
  let m := store m (frame + 8) EOF
  let m := if action.flags &&& SIG_NOMASK ≠ 0 then store m (frame + 8) task.blocked else m
  let m := store m (frame + 4) (BitVec.ofNat 32 sig)
  store m (frame + 0) action.restorer

/-- The part of `task_signal` that makes the task run its handler. -/
def enterHandler (task : Task) (sig : Nat) (action : Sigaction) : Task :=
  let frame := task.iframe.esp - 32
  let after := if action.flags &&& SIG_ONESHOT ≠ 0 then { action with handler := SIG_DFL } else action
  { task with
    memory := storeFrame task sig action frame
    iframe := { task.iframe with esp := frame, eip := action.handler }
    actions := Function.update task.actions (sig - 1) after
    blocked := task.blocked ||| action.mask }

/-- How `task_signal` ends: it returns, or the task ends. -/
inductive Delivered where
  | returns (task : Task)
  | exits (task : Task) (status : BitVec 32)

/-- `task_signal`. -/
def taskSignal (task : Task) : Res Delivered :=
  if task.map = 0 then .ok (.returns task)
  else do
    check (task.uid ≠ KERNEL_USER)
    match lowest task.map with
    | none => .error .outOfBounds
    | some sig =>
        let task := { task with signal := task.signal &&& ~~~ sigmask sig }
        let action := task.actions (sig - 1)
        if action.handler = SIG_IGN then return .returns task
        else if action.handler = SIG_DFL ∧ sig = SIGCHLD then return .returns task
        else if action.handler = SIG_DFL then return .exits task (sigmask sig)
        else return .returns (enterHandler task sig action)

/-- The next signal the task takes has a handler. -/
def Handles (task : Task) (sig : Nat) : Prop :=
  lowest task.map = some sig ∧ (task.actions (sig - 1)).handler ≠ SIG_DFL ∧
    (task.actions (sig - 1)).handler ≠ SIG_IGN

instance (task : Task) (sig : Nat) : Decidable (Handles task sig) :=
  inferInstanceAs (Decidable (_ ∧ _))

/-! ## Return -/

/-- The flags `popf` leaves alone in user mode: `IF`, `IOPL`, `VM`, `VIF` and `VIP`. -/
def PRIVILEGED : BitVec 32 := 0x001A3200

def popf (eflags saved : BitVec 32) : BitVec 32 :=
  (saved &&& ~~~ PRIVILEGED) ||| (eflags &&& PRIVILEGED)

/-- `restorer`, started with `esp` at the `sig` of its frame.  The call of
    `ssetmask` uses the stack below its argument only. -/
def restorer (task : Task) : Task :=
  let m := task.memory
  let esp := task.iframe.esp + 4
  let task := (sysSsetmask task (load m esp)).1
  let esp := esp + 4
  { task with
    iframe :=
      { eax := load m esp
        ecx := load m (esp + 4)
        edx := load m (esp + 8)
        eflags := popf task.iframe.eflags (load m (esp + 12))
        eip := load m (esp + 16)
        esp := esp + 20 } }

/-! ## What delivery can do -/

variable {task framed : Task} {sig : Nat} {d : Delivered}

theorem sigmask_bit {k : Nat} (hk : k < 32) :
    (sigmask sig).getLsbD k = decide (k = sig - 1) := by
  rw [sigmask, ← BitVec.twoPow_eq, BitVec.getLsbD_twoPow]
  by_cases h : sig - 1 = k
  · simp [h, hk]
  · simp [h, Ne.symm h]

theorem and_sigmask {x : BitVec 32} (hle : sig ≤ 32) :
    x &&& sigmask sig ≠ 0 ↔ x.getLsbD (sig - 1) = true := by
  constructor
  · intro h
    by_contra hx
    refine h (BitVec.eq_of_getLsbD_eq fun k hk => ?_)
    show _ = BitVec.getLsbD 0#32 k
    rw [BitVec.getLsbD_and, sigmask_bit hk, BitVec.getLsbD_zero]
    by_cases hks : k = sig - 1
    · rw [hks, Bool.eq_false_iff.mpr hx, Bool.false_and]
    · rw [decide_eq_false hks, Bool.and_false]
  · intro h hx
    have hbit : (x &&& sigmask sig).getLsbD (sig - 1) = BitVec.getLsbD 0#32 (sig - 1) := by
      rw [hx]
      rfl
    rw [BitVec.getLsbD_and, sigmask_bit (by omega), h, BitVec.getLsbD_zero,
      decide_eq_true rfl] at hbit
    cases hbit

theorem lowest_zero : lowest 0 = none := by decide

/-- A signal that is taken is pending and not blocked. -/
theorem lowest_spec (h : lowest task.map = some sig) :
    1 ≤ sig ∧ sig ≤ MAXSIG ∧ task.signal.getLsbD (sig - 1) = true ∧
      task.blocked.getLsbD (sig - 1) = false := by
  rw [lowest] at h
  have hmem := List.mem_range'_1.mp (List.mem_of_find?_eq_some h)
  have hfound := List.find?_some h
  have hbit := of_decide_eq_true hfound
  have hmax : MAXSIG = 31 := rfl
  rw [and_sigmask (by omega), Task.map, BitVec.getLsbD_and, BitVec.getLsbD_not,
    Bool.and_eq_true, Bool.and_eq_true, Bool.not_eq_true'] at hbit
  exact ⟨hmem.1, by omega, hbit.1, hbit.2.2⟩

/-- What `task_signal` did when it returned. -/
theorem taskSignal_cases (h : taskSignal task = .ok d) :
    (task.map = 0 ∧ d = .returns task) ∨
    ∃ sig, lowest task.map = some sig ∧
      ((¬ Handles task sig ∧ ((sig ≠ SIGCHLD ∧ ∃ status, d = .exits
          { task with signal := task.signal &&& ~~~ sigmask sig } status) ∨
        d = .returns { task with signal := task.signal &&& ~~~ sigmask sig })) ∨
      (Handles task sig ∧ d = .returns (enterHandler
        { task with signal := task.signal &&& ~~~ sigmask sig } sig (task.actions (sig - 1))))) := by
  rw [taskSignal] at h
  by_cases hmap : task.map = 0
  · rw [if_pos hmap] at h
    exact Or.inl ⟨hmap, (Except.ok.inj h).symm⟩
  · rw [if_neg hmap] at h
    obtain ⟨_, -, hd⟩ := bind_eq_ok h
    cases hsig : lowest task.map with
    | none =>
        rw [hsig] at hd
        cases hd
    | some sig =>
        rw [hsig] at hd
        refine Or.inr ⟨sig, rfl, ?_⟩
        dsimp only at hd
        by_cases hign : (task.actions (sig - 1)).handler = SIG_IGN
        · rw [if_pos hign] at hd
          exact Or.inl ⟨fun hh => hh.2.2 hign, Or.inr (Except.ok.inj hd).symm⟩
        · rw [if_neg hign] at hd
          by_cases hdfl : (task.actions (sig - 1)).handler = SIG_DFL
          · refine Or.inl ⟨fun hh => hh.2.1 hdfl, ?_⟩
            by_cases hchld : sig = SIGCHLD
            · rw [if_pos ⟨hdfl, hchld⟩] at hd
              exact Or.inr (Except.ok.inj hd).symm
            · rw [if_neg fun hx => hchld hx.2, if_pos hdfl] at hd
              exact Or.inl ⟨hchld, _, (Except.ok.inj hd).symm⟩
          · rw [if_neg fun hx => hdfl hx.1, if_neg hdfl] at hd
            exact Or.inr ⟨⟨hsig, hdfl, hign⟩, (Except.ok.inj hd).symm⟩

end NeonixSignals
