import Neonix.Machine

/-! # `kernel/mutex.c`: mutexes and re-entrant locks

    The code of `mutex_lock` between two blocking points is one turn of its
    loop: the mutex is taken, or the task goes on the list of waiters.
    `list_push` puts a waiter first and `mutex_unlock` wakes the last. -/

namespace NeonixMutex

open NeonixMachine

/-- `lock_t` with its `mutex_t`; `repeat` is a `u32`. -/
structure Lock where
  holder : Option Nat
  repeats : Nat
  value : Bool
  waiters : List Nat
  deriving DecidableEq

/-- `lock_init`. -/
def lockInit : Lock := { holder := none, repeats := 0, value := false, waiters := [] }

/-- What one turn of the loop of `mutex_lock` leads to. -/
inductive Turn where
  | acquired
  | waits
  deriving DecidableEq

/-- One turn of the loop of `mutex_lock`, and what `lock_acquire` does once the
    mutex is taken. -/
def mutexTurn (l : Lock) (task : Nat) : Res (Lock × Turn) :=
  if l.value then .ok ({ l with waiters := task :: l.waiters }, .waits)
  else do
    check (l.repeats = 0)
    return ({ l with value := true, holder := some task, repeats := 1 }, .acquired)

/-- `lock_acquire` up to its first blocking point. -/
def lockAcquire (l : Lock) (task : Nat) : Res (Lock × Turn) :=
  if l.holder ≠ some task then mutexTurn l task
  else .ok ({ l with repeats := (l.repeats + 1) % 2 ^ 32 }, .acquired)

/-- `mutex_unlock`: the waiter it wakes before it yields. -/
def mutexUnlock (l : Lock) : Res (Lock × Option Nat) := do
  check (l.value = true)
  return ({ l with value := false, waiters := l.waiters.dropLast }, l.waiters.getLast?)

/-- `lock_release`. -/
def lockRelease (l : Lock) (task : Nat) : Res (Lock × Option Nat) := do
  check (l.holder = some task)
  if l.repeats > 1 then
    return ({ l with repeats := l.repeats - 1 }, none)
  else
    check (l.repeats = 1)
    mutexUnlock { l with holder := none, repeats := 0 }

/-- A lock nobody holds. -/
def Lock.Unheld (l : Lock) : Prop := l.holder = none ∧ l.repeats = 0 ∧ l.value = false

/-- A lock a task holds once. -/
def Lock.HeldBy (l : Lock) (task : Nat) : Prop :=
  l.holder = some task ∧ l.repeats = 1 ∧ l.value = true

variable {l l' : Lock} {task other : Nat}

/-- A task that finds the lock unheld holds it. -/
theorem mutexTurn_unheld (h : l.Unheld) :
    mutexTurn l task = .ok ({ l with value := true, holder := some task, repeats := 1 },
      .acquired) := by
  rw [mutexTurn, h.2.2, if_neg Bool.false_ne_true, check_pos h.2.1, bind_ok]
  rfl

/-- A task that finds the lock held waits. -/
theorem mutexTurn_held (h : l.HeldBy other) :
    mutexTurn l task = .ok ({ l with waiters := task :: l.waiters }, .waits) := by
  rw [mutexTurn, h.2.2, if_pos rfl]

/-- The only holder gives the lock up. -/
theorem lockRelease_held (h : l.HeldBy task) :
    lockRelease l task = .ok
      ({ holder := none, repeats := 0, value := false, waiters := l.waiters.dropLast },
        l.waiters.getLast?) := by
  rw [lockRelease, check_pos h.1, bind_ok, h.2.1, if_neg (Nat.lt_irrefl 1), check_pos rfl, bind_ok,
    mutexUnlock, check_pos h.2.2, bind_ok]
  rfl

end NeonixMutex
