import Mathlib.Logic.Relation

/-! # Runs of a guarded transition system

    A system is a set of starting states and a step relation labelled by
    events.  Runs are restricted by a GUARD: a predicate on the state before a
    step and the event, `fun _ _ => True` for unrestricted runs.  The rule
    `Reach.invariant` is the only induction over runs the development needs: a
    property that holds at the start and is kept by every guarded step holds in
    every state a guarded run reaches. -/

namespace NeonixRuns

variable {σ ε : Type*}

/-- Starting states and labelled steps. -/
structure System (σ ε : Type*) where
  init : σ → Prop
  step : σ → ε → σ → Prop

/-- The events of a finite run from one state to another, each step meeting the
    guard. -/
inductive Run (S : System σ ε) (guard : σ → ε → Prop) : σ → List ε → σ → Prop where
  | nil (s : σ) : Run S guard s [] s
  | snoc {s t u : σ} {es : List ε} {e : ε} :
      Run S guard s es t → guard t e → S.step t e u → Run S guard s (es ++ [e]) u

/-- The states reached by guarded runs from the starting states. -/
def Reach (S : System σ ε) (guard : σ → ε → Prop) (s : σ) : Prop :=
  ∃ s₀ es, S.init s₀ ∧ Run S guard s₀ es s

/-- The guard that admits every step. -/
def free : σ → ε → Prop := fun _ _ => True

instance (s : σ) (e : ε) : Decidable (free s e) := inferInstanceAs (Decidable True)

variable {S : System σ ε} {guard : σ → ε → Prop}

theorem Reach.start {s : σ} (h : S.init s) : Reach S guard s :=
  ⟨s, [], h, .nil s⟩

theorem Reach.step {s t : σ} {e : ε} (h : Reach S guard s) (hg : guard s e)
    (hs : S.step s e t) : Reach S guard t := by
  obtain ⟨s₀, es, h0, hr⟩ := h
  exact ⟨s₀, es ++ [e], h0, hr.snoc hg hs⟩

/-- A guard that admits more reaches more. -/
theorem Reach.mono {guard' : σ → ε → Prop} {s : σ} (h : Reach S guard s)
    (hg : ∀ s e, guard s e → guard' s e) : Reach S guard' s := by
  obtain ⟨s₀, es, h0, hr⟩ := h
  refine ⟨s₀, es, h0, ?_⟩
  clear h0
  induction hr with
  | nil => exact .nil _
  | snoc _ hge hst ih => exact ih.snoc (hg _ _ hge) hst

/-- A property kept by every guarded step is kept by a whole guarded run. -/
theorem Run.preserves {Inv : σ → Prop}
    (hstep : ∀ s e t, Inv s → guard s e → S.step s e t → Inv t)
    {s t : σ} {es : List ε} (hr : Run S guard s es t) (hs : Inv s) : Inv t := by
  induction hr with
  | nil => exact hs
  | snoc _ hg hst ih => exact hstep _ _ _ ih hg hst

/-- The invariant rule. -/
theorem Reach.invariant {Inv : σ → Prop} (hinit : ∀ s, S.init s → Inv s)
    (hstep : ∀ s e t, Inv s → guard s e → S.step s e t → Inv t)
    {s : σ} (h : Reach S guard s) : Inv s := by
  obtain ⟨s₀, es, h0, hr⟩ := h
  exact hr.preserves hstep (hinit s₀ h0)

/-! ## Systems given by a step function

    The step of an event is what a function computes where the event is enabled
    and the function returns.  Such a system can be run, and what a run computes
    is reachable. -/

section Exec

variable {α : Type*} {init : σ → Prop} {enabled : σ → ε → Prop} {exec : σ → ε → Except α σ}

/-- The system of a step function that may stop. -/
def execSystem (init : σ → Prop) (enabled : σ → ε → Prop) (exec : σ → ε → Except α σ) :
    System σ ε where
  init := init
  step := fun s e t => enabled s e ∧ exec s e = .ok t

variable [∀ s e, Decidable (guard s e)] [∀ s e, Decidable (enabled s e)]

variable (guard enabled exec) in
/-- The state a list of events leads to, where the guard admits each, each is
    enabled and the step function returns. -/
def follow : σ → List ε → Option σ
  | s, [] => some s
  | s, e :: es =>
      if guard s e ∧ enabled s e then (exec s e).toOption.bind fun t => follow t es else none

/-- Following events stays among the reachable states. -/
theorem Reach.follow : ∀ (es : List ε) {s t : σ}, Reach (execSystem init enabled exec) guard s →
    follow guard enabled exec s es = some t → Reach (execSystem init enabled exec) guard t := by
  intro es
  induction es with
  | nil =>
      intro s t h hf
      rw [← Option.some.inj hf]
      exact h
  | cons e es ih =>
      intro s t h hf
      rw [NeonixRuns.follow] at hf
      by_cases he : guard s e ∧ enabled s e
      · rw [if_pos he] at hf
        obtain ⟨u, hu, hf⟩ := Option.bind_eq_some_iff.mp hf
        refine ih (h.step he.1 ⟨he.2, ?_⟩) hf
        cases hx : exec s e with
        | error _ =>
            rw [hx] at hu
            cases hu
        | ok v =>
            rw [hx] at hu
            rw [Option.some.inj hu]
      · rw [if_neg he] at hf
        cases hf

end Exec

/-! ## Calls that answer

    A list of calls to a component that answers each of them.  A component
    implements another where each answer is the same and a relation between the
    two states is kept: `answers_simulated` is the induction over the calls. -/

section Answers

variable {τ ω α β : Type*} {call : ε → σ → Except α (ω × σ)} {spec : ε → τ → Except β (ω × τ)}

variable (call) in
/-- The answers to a list of calls, and the state they leave. -/
def answers : List ε → σ → Except α (List ω × σ)
  | [], s => .ok ([], s)
  | e :: es, s => do
      let (r, s) ← call e s
      let (rs, s) ← answers es s
      return (r :: rs, s)

theorem answers_cons {e : ε} {es : List ε} {s s' t : σ} {r : ω} {rs : List ω}
    (hcall : call e s = .ok (r, s')) (hrest : answers call es s' = .ok (rs, t)) :
    answers call (e :: es) s = .ok (r :: rs, t) := by
  rw [answers, hcall]
  show (answers call es s' >>= fun x => pure (r :: x.1, x.2)) = .ok (r :: rs, t)
  rw [hrest]
  rfl

/-- What a list of calls that all answered went through. -/
theorem answers_cons_eq_ok {e : ε} {es : List ε} {s t : σ} {rs : List ω}
    (h : answers call (e :: es) s = .ok (rs, t)) :
    ∃ r rs' s', call e s = .ok (r, s') ∧ answers call es s' = .ok (rs', t) ∧ rs = r :: rs' := by
  rw [answers] at h
  cases hcall : call e s with
  | error _ =>
      rw [hcall] at h
      cases h
  | ok x =>
      obtain ⟨r, s'⟩ := x
      rw [hcall] at h
      replace h : (answers call es s' >>= fun x => pure (r :: x.1, x.2)) = .ok (rs, t) := h
      cases hrest : answers call es s' with
      | error _ =>
          rw [hrest] at h
          cases h
      | ok x =>
          rw [hrest] at h
          obtain ⟨rfl, rfl⟩ := Prod.mk.inj (Except.ok.inj h)
          exact ⟨r, x.1, s', rfl, hrest, rfl⟩

/-- A component that answers each call as another does answers each list of calls
    as the other does. -/
theorem answers_simulated {R : σ → τ → Prop}
    (h : ∀ e s t r t', R s t → spec e t = .ok (r, t') → ∃ s', call e s = .ok (r, s') ∧ R s' t') :
    ∀ (es : List ε) (s : σ) (t : τ) (rs : List ω) (t' : τ), R s t →
      answers spec es t = .ok (rs, t') → ∃ s', answers call es s = .ok (rs, s') ∧ R s' t' := by
  intro es
  induction es with
  | nil =>
      intro s t rs t' hR hspec
      obtain ⟨rfl, rfl⟩ := Prod.mk.inj (Except.ok.inj hspec)
      exact ⟨s, rfl, hR⟩
  | cons e es ih =>
      intro s t rs t' hR hspec
      obtain ⟨r, rs', u, hone, hrest, rfl⟩ := answers_cons_eq_ok hspec
      obtain ⟨s₁, hcall, hR₁⟩ := h e s t r u hR hone
      obtain ⟨s', hcalls, hR'⟩ := ih s₁ u rs' t' hR₁ hrest
      exact ⟨s', answers_cons hcall hcalls, hR'⟩

end Answers

end NeonixRuns
