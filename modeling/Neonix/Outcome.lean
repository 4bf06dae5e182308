import Mathlib.Algebra.Ring.Int.Defs
import Mathlib.Algebra.Ring.Nat
import Mathlib.Tactic.Common

/-! # Calls that may stop, and loops of them

    `Ends bad x Q` is a triple without a precondition: the call `x` returns a
    value with `Q`, or stops for a reason that is not `bad`.  With `bad := fun
    _ => True` it is total correctness, with `bad := fun _ => False` partial
    correctness.  `forLoop` is the loop `for (i = lo; i < lo + n; i++)`, and
    `Ends.forLoop` its invariant rule; everything else about a call is derived
    with `Ends.bind` along its statements. -/

namespace NeonixOutcome

universe u v

variable {ε : Type v} {α β σ : Type u} {bad : ε → Prop}

/-- `x` returns with `Q`, or stops for no bad reason. -/
def Ends (bad : ε → Prop) (x : Except ε α) (Q : α → Prop) : Prop :=
  match x with
  | .ok a => Q a
  | .error e => ¬ bad e

@[simp] theorem ends_ok {a : α} {Q : α → Prop} : Ends bad (.ok a : Except ε α) Q ↔ Q a := Iff.rfl

@[simp] theorem ends_error {e : ε} {Q : α → Prop} :
    Ends bad (.error e : Except ε α) Q ↔ ¬ bad e := Iff.rfl

/-- What a call that returned satisfies. -/
theorem Ends.of_ok {x : Except ε α} {Q : α → Prop} {a : α} (h : Ends bad x Q)
    (hx : x = .ok a) : Q a := by
  subst hx
  exact h

/-- A call does not stop for a bad reason. -/
theorem Ends.not_bad {x : Except ε α} {Q : α → Prop} {e : ε} (h : Ends bad x Q) (he : bad e) :
    x ≠ .error e := by
  rintro rfl
  exact h he

theorem Ends.mono {x : Except ε α} {Q R : α → Prop} (h : Ends bad x Q) (hQR : ∀ a, Q a → R a) :
    Ends bad x R := by
  cases x with
  | ok a => exact hQR a h
  | error e => exact h

theorem Ends.and {x : Except ε α} {Q R : α → Prop} (h : Ends bad x Q) (h' : Ends bad x R) :
    Ends bad x fun a => Q a ∧ R a := by
  cases x with
  | ok a => exact ⟨h, h'⟩
  | error e => exact h

/-- Nothing is said of a call that may stop. -/
theorem Ends.any (x : Except ε α) : Ends (fun _ => False) x fun _ => True := by
  cases x with
  | error e => exact not_false
  | ok a => trivial

/-- The rule for a sequence of two calls. -/
theorem Ends.bind {x : Except ε α} {f : α → Except ε β} {Q : α → Prop} {R : β → Prop}
    (h : Ends bad x Q) (hf : ∀ a, Q a → Ends bad (f a) R) : Ends bad (x >>= f) R := by
  cases x with
  | ok a => exact hf a h
  | error e => exact h

/-- The rule for a call on two branches. -/
theorem Ends.ite {p : Prop} [Decidable p] {x y : Except ε α} {Q : α → Prop}
    (ht : p → Ends bad x Q) (he : ¬ p → Ends bad y Q) : Ends bad (if p then x else y) Q := by
  by_cases h : p
  · rw [if_pos h]
    exact ht h
  · rw [if_neg h]
    exact he h

/-- `for (i = lo; i < lo + n; i++) s = f(i, s);` -/
def forLoop (f : Nat → σ → Except ε σ) : Nat → Nat → σ → Except ε σ
  | _, 0, s => .ok s
  | lo, n + 1, s => f lo s >>= forLoop f (lo + 1) n

/-- Two bodies that do the same at the steps of the loop. -/
theorem forLoop_congr {f g : Nat → σ → Except ε σ} (n : Nat) : ∀ (lo : Nat) (s : σ),
    (∀ i s, lo ≤ i → i < lo + n → f i s = g i s) → forLoop f lo n s = forLoop g lo n s := by
  induction n with
  | zero => exact fun _ _ _ => rfl
  | succ n ih =>
      intro lo s h
      rw [NeonixOutcome.forLoop, NeonixOutcome.forLoop, h lo s Nat.le.refl (by omega)]
      exact congrArg _ (funext fun t => ih (lo + 1) t fun i s hi hin => h i s (by omega) (by omega))

/-- The invariant rule for the loop. -/
theorem Ends.forLoop (bad : ε → Prop) (f : Nat → σ → Except ε σ) (lo n : Nat) (s : σ)
    (I : Nat → σ → Prop) (hs : I lo s)
    (hf : ∀ i s, lo ≤ i → i < lo + n → I i s → Ends bad (f i s) (I (i + 1))) :
    Ends bad (forLoop f lo n s) (I (lo + n)) := by
  induction n generalizing lo s with
  | zero => exact hs
  | succ n ih =>
      refine Ends.bind (hf lo s Nat.le.refl (by omega) hs) fun t ht => ?_
      rw [show lo + (n + 1) = lo + 1 + n by omega]
      exact ih (lo + 1) t ht fun i s hi hin => hf i s (by omega) (by omega)

end NeonixOutcome
