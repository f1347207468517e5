import Mathlib.Data.List.Basic

/-! # Runs of steps that may fail

A run takes one step after the other and stops at a step that fails. If a state that meets
an invariant has a property, and a step that meets a condition keeps the invariant while any
other step loses the property, then the property holds throughout a run exactly when every
step of the run meets the condition.
-/

namespace LeechJit.StepRuns

variable {σ τ ε : Type*}

/-- The property holds at the start of the run and after every step that it takes. -/
def Throughout (apply : σ → τ → Except ε σ) (property : σ → Prop) (state : σ)
    (steps : List τ) : Prop :=
  ∀ front back after, steps = front ++ back → front.foldlM apply state = .ok after →
    property after

/-- Every step that the run takes meets the condition in the state where it is taken. -/
def EachStep (apply : σ → τ → Except ε σ) (condition : σ → τ → Prop) (state : σ)
    (steps : List τ) : Prop :=
  ∀ front step back before after, steps = front ++ step :: back →
    front.foldlM apply state = .ok before → apply before step = .ok after →
    condition before step

variable {apply : σ → τ → Except ε σ} {property invariant : σ → Prop}
  {condition : σ → τ → Prop} {state next : σ} {head : τ} {rest steps : List τ}

theorem run_cons (stepping : apply state head = .ok next) (front : List τ) :
    (head :: front).foldlM apply state = front.foldlM apply next := by
  rw [List.foldlM_cons, stepping]
  rfl

theorem run_cons_eq_ok {front : List τ} {after : σ}
    (result : (head :: front).foldlM apply state = .ok after) :
    ∃ next, apply state head = .ok next ∧ front.foldlM apply next = .ok after := by
  rw [List.foldlM_cons] at result
  cases stepping : apply state head with
  | error problem =>
      rw [stepping] at result
      cases result
  | ok next =>
      rw [stepping] at result
      exact ⟨next, rfl, result⟩

/-- What every step of a run keeps holds at its end. -/
theorem keeps_run (invariant : σ → Prop) (keeps : ∀ state, ∀ step ∈ steps, ∀ after, invariant state →
      apply state step = .ok after → invariant after)
    (start : invariant state) {final : σ} (result : steps.foldlM apply state = .ok final) :
    invariant final := by
  induction steps generalizing state with
  | nil =>
      cases result
      exact start
  | cons head rest induction =>
      rcases run_cons_eq_ok result with ⟨next, stepping, later⟩
      apply induction (fun state step member => keeps state step (.tail _ member))
        (keeps state head (.head _) next start stepping) later

theorem Throughout.start (holds : Throughout apply property state steps) : property state :=
  holds [] steps state rfl rfl

theorem Throughout.later (holds : Throughout apply property state (head :: rest))
    (stepping : apply state head = .ok next) : Throughout apply property next rest := by
  intro front back after split result
  exact holds (head :: front) back after (by rw [split, List.cons_append])
    ((run_cons stepping front).trans result)

theorem throughout_cons (start : property state)
    (later : ∀ next, apply state head = .ok next → Throughout apply property next rest) :
    Throughout apply property state (head :: rest) := by
  intro front back after split result
  cases front with
  | nil =>
      cases result
      exact start
  | cons first front =>
      cases split
      rcases run_cons_eq_ok result with ⟨next, stepping, rested⟩
      exact later next stepping front back after rfl rested

theorem EachStep.first (each : EachStep apply condition state (head :: rest))
    (stepping : apply state head = .ok next) : condition state head :=
  each [] head rest state next rfl rfl stepping

theorem EachStep.later (each : EachStep apply condition state (head :: rest))
    (stepping : apply state head = .ok next) : EachStep apply condition next rest := by
  intro front step back before after split result taken
  exact each (head :: front) step back before after (by rw [split, List.cons_append])
    ((run_cons stepping front).trans result) taken

theorem eachStep_cons (first : ∀ next, apply state head = .ok next → condition state head)
    (later : ∀ next, apply state head = .ok next → EachStep apply condition next rest) :
    EachStep apply condition state (head :: rest) := by
  intro front step back before after split result taken
  cases front with
  | nil =>
      cases result
      cases split
      exact first after taken
  | cons _ front =>
      cases split
      rcases run_cons_eq_ok result with ⟨next, stepping, rested⟩
      exact later next stepping front step back before after rfl rested taken

/-- The property holds throughout the run exactly when every step meets the condition. -/
theorem throughout_iff_eachStep (implies : ∀ state, invariant state → property state)
    (keeps : ∀ state step after, invariant state → apply state step = .ok after →
      condition state step → invariant after)
    (needs : ∀ state step after, invariant state → apply state step = .ok after →
      property after → condition state step)
    (start : invariant state) :
    Throughout apply property state steps ↔ EachStep apply condition state steps := by
  induction steps generalizing state with
  | nil =>
      constructor
      · intro _ front step back before after split
        simp at split
      · intro _ front back after split result
        cases List.append_eq_nil_iff.mp split.symm with
        | intro none _ =>
            subst none
            cases result
            exact implies state start
  | cons head rest induction =>
      constructor
      · intro holds
        have first : ∀ next, apply state head = .ok next → condition state head :=
          fun next stepping => needs state head next start stepping (holds.later stepping).start
        apply eachStep_cons first
        intro next stepping
        have kept := keeps state head next start stepping (first next stepping)
        exact (induction kept).mp (holds.later stepping)
      · intro each
        apply throughout_cons (implies state start)
        intro next stepping
        have kept := keeps state head next start stepping (each.first stepping)
        exact (induction kept).mpr (each.later stepping)

end LeechJit.StepRuns
