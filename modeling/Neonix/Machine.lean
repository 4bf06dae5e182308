import Mathlib.Algebra.Ring.Int.Defs
import Mathlib.Algebra.Ring.Nat
import Mathlib.Tactic.Common
import Neonix.Outcome

/-! # Kernel calls that can stop

    `assertion_failure` and `panic` print and spin forever (`lib/assert.c`), so
    a call that reaches one never returns.  An access outside the object a
    pointer points into has no defined continuation.  Both end the modelled
    call: a kernel function returns `Res α`. -/

namespace NeonixMachine

/-- Why a call did not return. -/
inductive Stop where
  /-- an `assert` failed -/
  | assertion
  /-- `panic` was called -/
  | panic
  /-- a load or store outside the object, or through a null or wild pointer -/
  | outOfBounds
  /-- an `assert` on a reference count of `memory_map` failed -/
  | refcount
  deriving DecidableEq, Repr

abbrev Res (α : Type) := Except Stop α

/-- `assert(exp)`. -/
def check (p : Prop) [Decidable p] : Res Unit :=
  if p then .ok () else .error .assertion

@[simp] theorem check_pos {p : Prop} [Decidable p] (h : p) : check p = .ok () :=
  if_pos h

@[simp] theorem check_neg {p : Prop} [Decidable p] (h : ¬ p) :
    check p = .error .assertion := if_neg h

/-- An assertion that did not stop the call held. -/
theorem of_check {p : Prop} [Decidable p] (h : check p = .ok ()) : p := by
  by_contra hn
  rw [check_neg hn] at h
  cases h

/-- What a sequence of two kernel calls that returned went through. -/
theorem bind_eq_ok {α β : Type} {x : Res α} {f : α → Res β} {b : β}
    (h : x >>= f = .ok b) : ∃ a, x = .ok a ∧ f a = .ok b := by
  cases x with
  | error e => cases h
  | ok a => exact ⟨a, rfl, h⟩

@[simp] theorem bind_ok {α β : Type} (a : α) (f : α → Res β) :
    ((.ok a : Res α) >>= f) = f a := rfl

@[simp] theorem bind_error {α β : Type} (e : Stop) (f : α → Res β) :
    ((.error e : Res α) >>= f) = .error e := rfl

/-- The rule for an assertion that is not a bad reason to stop. -/
theorem ends_check {bad : Stop → Prop} {p : Prop} [Decidable p] {Q : Unit → Prop}
    (hb : ¬ bad .assertion) (hQ : p → Q ()) : NeonixOutcome.Ends bad (check p) Q := by
  by_cases h : p
  · rw [check_pos h]
    exact hQ h
  · rw [check_neg h]
    exact hb

@[simp] theorem pure_eq_ok {α : Type} (a : α) : (pure a : Res α) = .ok a := rfl

end NeonixMachine
