import Neonix.Outcome

/-! # Calls that read and change a state

    A call takes fuel, which bounds the loops that have no bound of their own,
    and a state, and returns a value and a state or stops.  `Triple bad P x Q`
    says that the call `x`, started with `P`, returns with `Q` or stops for a
    reason that is not `bad`, whatever the fuel. -/

namespace NeonixCalls

open NeonixOutcome

/-- A call on states `σ` that may stop for a reason in `ε`. -/
abbrev Call (σ ε α : Type) : Type := ReaderT Nat (StateT σ (Except ε)) α

variable {σ ε α β : Type} {bad : ε → Prop} {P P' : σ → Prop} {Q Q' : α → σ → Prop}
  {R : β → σ → Prop} {x y : Call σ ε α}

def Triple (bad : ε → Prop) (P : σ → Prop) (x : Call σ ε α) (Q : α → σ → Prop) : Prop :=
  ∀ n s, P s → Ends bad (x n s) fun r => Q r.1 r.2

/-- Stop. -/
def stop (e : ε) : Call σ ε α := fun _ _ => .error e

/-- `for (i = lo; i < lo + n; i++) f(i);` -/
def loop (f : Nat → Call σ ε Unit) : Nat → Nat → Call σ ε Unit
  | _, 0 => Pure.pure ()
  | lo, n + 1 => do
      f lo
      loop f (lo + 1) n

/-- `if (p) x;` -/
def onlyIf (p : Prop) [Decidable p] (x : Call σ ε Unit) : Call σ ε Unit :=
  if p then x else Pure.pure ()

/-- The fuel. -/
def fuel : Call σ ε Nat := fun n s => .ok (n, s)

/-- What a call that returned satisfies. -/
theorem Triple.of_ok {n : Nat} {s s' : σ} {a : α} (h : Triple bad P x Q) (hs : P s)
    (hx : x n s = .ok (a, s')) : Q a s' := by
  have hend := h n s hs
  rw [hx] at hend
  exact hend

/-- A call after one that returned. -/
theorem bind_run {n : Nat} {s s' : σ} {a : α} {f : α → Call σ ε β} (h : x n s = .ok (a, s')) :
    (x >>= f) n s = f a n s' := by
  show (x n s >>= fun r => f r.1 n r.2) = _
  rw [h]
  rfl

theorem Triple.conseq (h : Triple bad P x Q) (hP : ∀ s, P' s → P s)
    (hQ : ∀ a s, Q a s → Q' a s) : Triple bad P' x Q' :=
  fun n s hs => Ends.mono (h n s (hP s hs)) fun r => hQ r.1 r.2

/-- A weaker result. -/
theorem Triple.post (h : Triple bad P x Q) (hQ : ∀ a s, Q a s → Q' a s) : Triple bad P x Q' :=
  h.conseq (fun _ hs => hs) hQ

/-- A stronger start. -/
theorem Triple.pre (h : Triple bad P x Q) (hP : ∀ s, P' s → P s) : Triple bad P' x Q :=
  h.conseq hP fun _ _ hq => hq

/-- A fact about one call that says less about its stops. -/
theorem Triple.also {bad' : ε → Prop} (h : Triple bad P x Q) (h' : Triple bad' P' x Q') :
    Triple bad (fun s => P s ∧ P' s) x fun a s => Q a s ∧ Q' a s := by
  intro n s hs
  have hx := h n s hs.1
  have hx' := h' n s hs.2
  cases hr : x n s with
  | error e =>
      rw [hr] at hx
      exact hx
  | ok r =>
      rw [hr] at hx hx'
      exact ⟨hx, hx'⟩

/-- Two facts about one call. -/
theorem Triple.and (h : Triple bad P x Q) (h' : Triple bad P' x Q') :
    Triple bad (fun s => P s ∧ P' s) x fun a s => Q a s ∧ Q' a s :=
  h.also h'

theorem Triple.pure {a : α} {Q : α → σ → Prop} : Triple bad (Q a) (Pure.pure a) Q :=
  fun _ _ hs => hs

/-- The rule for two calls one after the other. -/
theorem Triple.bind {f : α → Call σ ε β} (h : Triple bad P x Q)
    (hf : ∀ a, Triple bad (Q a) (f a) R) : Triple bad P (x >>= f) R :=
  fun n s hs => Ends.bind (h n s hs) fun r hr => hf r.1 n r.2 hr

/-- The rule for a call on two branches. -/
theorem Triple.ite {p : Prop} [Decidable p] (ht : p → Triple bad P x Q)
    (he : ¬ p → Triple bad P y Q) : Triple bad P (if p then x else y) Q := by
  by_cases h : p
  · rw [if_pos h]
    exact ht h
  · rw [if_neg h]
    exact he h

/-- The state is read: the rest is proved for the state read. -/
theorem Triple.read {f : σ → Call σ ε β}
    (hf : ∀ s, P s → Triple bad (fun t => t = s) (f s) R) : Triple bad P (get >>= f) R :=
  fun n s hs => hf s hs n s rfl

/-- The state is changed. -/
theorem Triple.modify {g : σ → σ} {Q : PUnit → σ → Prop} (hg : ∀ s, P s → Q ⟨⟩ (g s)) :
    Triple bad P (modify g : Call σ ε PUnit) Q :=
  fun _ s hs => hg s hs

theorem Triple.stop {e : ε} (h : ¬ bad e) : Triple bad P (stop e : Call σ ε α) Q :=
  fun _ _ _ => h

theorem Triple.fuel {Q : Nat → σ → Prop} (h : ∀ n s, P s → Q n s) :
    Triple bad P (fuel : Call σ ε Nat) Q :=
  fun n s hs => h n s hs

/-- The invariant rule for the loop. -/
theorem Triple.loop {f : Nat → Call σ ε Unit} {I : Nat → σ → Prop} (lo n : Nat)
    (hf : ∀ i, lo ≤ i → i < lo + n → Triple bad (I i) (f i) fun _ => I (i + 1)) :
    Triple bad (I lo) (loop f lo n) fun _ => I (lo + n) := by
  induction n generalizing lo with
  | zero => exact fun _ _ hs => hs
  | succ n ih =>
      refine Triple.bind (hf lo Nat.le.refl (by omega)) fun _ => ?_
      rw [show lo + (n + 1) = lo + 1 + n by omega]
      exact ih (lo + 1) fun i hi hin => hf i (by omega) (by omega)

/-- A stop that never happens. -/
theorem Triple.absurd (h : ∀ s, ¬ P s) : Triple bad P x Q :=
  fun _ s hs => (h s hs).elim

/-! ## One statement after the other

    With the state at hand before a statement, `From s x Q` says what the call `x`
    does from there on. -/

/-- The call from a known state. -/
def From (bad : ε → Prop) (s : σ) (x : Call σ ε α) (Q : α → σ → Prop) : Prop :=
  Triple bad (fun t => t = s) x Q

theorem Triple.intro (h : ∀ s, P s → From bad s x Q) : Triple bad P x Q :=
  fun n s hs => h s hs n s rfl

section From

variable {s : σ} {a : α}

theorem Triple.start (h : Triple bad P x Q) (hs : P s) : From bad s x Q :=
  h.pre fun _ ht => ht ▸ hs

theorem From.pure (h : Q a s) : From bad s (Pure.pure a) Q := by
  rintro _ _ rfl
  exact h

theorem From.post (h : From bad s x Q) (hQ : ∀ a s, Q a s → Q' a s) : From bad s x Q' :=
  Triple.post h hQ

/-- A fact about one call that says less about its stops. -/
theorem From.also {bad' : ε → Prop} (h : From bad s x Q) (h' : From bad' s x Q') :
    From bad s x fun a t => Q a t ∧ Q' a t :=
  (Triple.also h h').pre fun _ ht => ⟨ht, ht⟩

/-- Two facts about one call. -/
theorem From.and (h : From bad s x Q) (h' : From bad s x Q') :
    From bad s x fun a t => Q a t ∧ Q' a t :=
  h.also h'

theorem From.bind {f : α → Call σ ε β} (h : From bad s x Q)
    (hf : ∀ a t, Q a t → From bad t (f a) R) : From bad s (x >>= f) R :=
  Triple.bind h fun a => Triple.intro (hf a)

theorem From.get {f : σ → Call σ ε β} (h : From bad s (f s) R) : From bad s (get >>= f) R := by
  rintro n _ rfl
  exact h n _ rfl

theorem From.set {g : σ → σ} {f : PUnit → Call σ ε β} (h : From bad (g s) (f ⟨⟩) R) :
    From bad s ((modify g : Call σ ε PUnit) >>= f) R := by
  rintro n _ rfl
  exact h n _ rfl

/-- The call ends with a store. -/
theorem From.store {g : σ → σ} {Q : PUnit → σ → Prop} (h : Q ⟨⟩ (g s)) :
    From bad s (modify g : Call σ ε PUnit) Q := by
  rintro _ _ rfl
  exact h

theorem From.ite {p : Prop} [Decidable p] (ht : p → From bad s x Q) (he : ¬ p → From bad s y Q) :
    From bad s (if p then x else y) Q :=
  Triple.ite ht he

theorem From.stop {e : ε} (h : ¬ bad e) : From bad s (NeonixCalls.stop e : Call σ ε α) Q :=
  Triple.stop h

theorem From.onlyIf {p : Prop} [Decidable p] {x : Call σ ε Unit} {f : Unit → Call σ ε β}
    (ht : p → From bad s (x >>= f) R) (he : ¬ p → From bad s (f ()) R) :
    From bad s (onlyIf p x >>= f) R := by
  rw [NeonixCalls.onlyIf]
  by_cases h : p
  · rw [if_pos h]
    exact ht h
  · rw [if_neg h]
    exact he h

/-- A call that never stops returns. -/
theorem From.returns (fuel : Nat) (h : From (fun _ => True) s x Q) :
    ∃ a t, x fuel s = .ok (a, t) ∧ Q a t := by
  have hend := h fuel s rfl
  cases hx : x fuel s with
  | error why =>
      rw [hx] at hend
      exact absurd trivial hend
  | ok r =>
      rw [hx] at hend
      exact ⟨r.1, r.2, rfl, hend⟩

/-- What every run that returns does. -/
theorem From.of_runs (h : ∀ n a t, x n s = .ok (a, t) → Q a t) : From (fun _ => False) s x Q := by
  rintro n _ rfl
  cases hx : x n _ with
  | error e => exact not_false
  | ok r => exact h n r.1 r.2 hx

end From

end NeonixCalls
