import Mathlib.Logic.Relation

/-! # Runs of deterministic steps

A step goes on, returns a result, or there is none and the run is stuck. One system of
steps follows another along a relation of their states if it matches every step, by one
step of its own or by none, unless something is amiss at that point.
-/

namespace LeechJit

/-- What a step comes to. -/
inductive Outcome (State Result : Type*) where
  | goes (next : State)
  | returns (result : Result)

namespace Steps

variable {State State' Result : Type*} {step : State → Option (Outcome State Result)}
  {step' : State' → Option (Outcome State' Result)} {state next : State} {result : Result}

def Reaches (step : State → Option (Outcome State Result)) : State → State → Prop :=
  Relation.ReflTransGen fun state next => step state = some (.goes next)

/-- The run ends with a result. -/
inductive Completes (step : State → Option (Outcome State Result)) : State → Result → Prop where
  | returns {state : State} {result : Result} (last : step state = some (.returns result)) :
      Completes step state result
  | goes {state next : State} {result : Result} (first : step state = some (.goes next))
      (rest : Completes step next result) : Completes step state result

/-- The outcome of a run of at most `fuel` steps; `some none` is a run that is stuck. -/
def runFor (step : State → Option (Outcome State Result)) : Nat → State → Option (Option Result)
  | 0, _ => none
  | fuel + 1, state =>
      match step state with
      | none => some none
      | some (.returns result) => some (some result)
      | some (.goes next) => runFor step fuel next

/-! ## Runs are deterministic -/

theorem Completes.tail (completes : Completes step state result)
    (first : step state = some (.goes next)) : Completes step next result := by
  cases completes with
  | returns last => cases first.symm.trans last
  | goes again rest =>
      cases first.symm.trans again
      exact rest

theorem Completes.later (completes : Completes step state result)
    (reaches : Reaches step state next) : Completes step next result := by
  induction reaches with
  | refl => exact completes
  | tail _ last induction => exact induction.tail last

theorem Completes.has_step (completes : Completes step state result) : step state ≠ none := by
  cases completes with
  | returns last => simp [last]
  | goes first _ => simp [first]

theorem Reaches.completes (reaches : Reaches step state next)
    (completes : Completes step next result) : Completes step state result := by
  induction reaches using Relation.ReflTransGen.head_induction_on with
  | refl => exact completes
  | head first _ induction => exact .goes first induction

/-- A run that gets stuck does not end. -/
theorem Reaches.not_completes (reaches : Reaches step state next) (stuck : step next = none)
    (result : Result) : ¬ Completes step state result :=
  fun completes => (completes.later reaches).has_step stuck

theorem completes_of_runFor {fuel : Nat} (ran : runFor step fuel state = some (some result)) :
    Completes step state result := by
  induction fuel generalizing state with
  | zero => cases ran
  | succ fuel induction =>
      cases here : step state with
      | none => simp [runFor, here] at ran
      | some outcome =>
          cases outcome with
          | returns found =>
              simp only [runFor, here, Option.some.injEq] at ran
              exact .returns (ran ▸ here)
          | goes next =>
              simp only [runFor, here] at ran
              exact .goes here (induction ran)

theorem not_completes_of_runFor {fuel : Nat} (ran : runFor step fuel state = some none) :
    ¬ Completes step state result := by
  induction fuel generalizing state with
  | zero => cases ran
  | succ fuel induction =>
      intro completes
      cases here : step state with
      | none => exact completes.has_step here
      | some outcome =>
          cases outcome with
          | returns found => simp [runFor, here] at ran
          | goes next =>
              simp only [runFor, here] at ran
              exact induction ran (completes.tail here)

/-- A run that is stuck has come to a state without a step. -/
theorem exists_stuck_of_runFor {fuel : Nat} (ran : runFor step fuel state = some none) :
    ∃ last, Reaches step state last ∧ step last = none := by
  induction fuel generalizing state with
  | zero => cases ran
  | succ fuel induction =>
      cases here : step state with
      | none => exact ⟨state, .refl, here⟩
      | some outcome =>
          cases outcome with
          | returns found => simp [runFor, here] at ran
          | goes next =>
              simp only [runFor, here] at ran
              rcases induction ran with ⟨last, reaches, stuck⟩
              exact ⟨last, .head here reaches, stuck⟩

/-! ## Following along a relation -/

/-- Two states step alike, to related states. -/
structure Matches (step : State → Option (Outcome State Result))
    (step' : State' → Option (Outcome State' Result)) (related : State → State' → Prop)
    (state : State) (state' : State') : Prop where
  stuck : step state = none → step' state' = none
  goes : ∀ next, step state = some (.goes next) →
    ∃ next', step' state' = some (.goes next') ∧ related next next'
  returns : ∀ result, step state = some (.returns result) → step' state' = some (.returns result)

section Matching

variable {related : State → State' → Prop} {state' : State'}

/-- One action, performed in both systems. -/
theorem Matches.of_map {Action : Type*} {action : Option Action}
    {perform : Action → Outcome State Result} {perform' : Action → Outcome State' Result}
    (here : step state = action.map perform) (here' : step' state' = action.map perform')
    (goes : ∀ act next, action = some act → perform act = .goes next →
      ∃ next', perform' act = .goes next' ∧ related next next')
    (returns : ∀ act result, perform act = .returns result → perform' act = .returns result) :
    Matches step step' related state state' := by
  cases action with
  | none =>
      constructor
      case stuck => exact fun _ => here'
      case goes =>
        intro next first
        cases here.symm.trans first
      case returns =>
        intro result last
        cases here.symm.trans last
  | some act =>
      constructor
      case stuck =>
        intro stuck
        cases here.symm.trans stuck
      case goes =>
        intro next first
        rcases goes act next rfl (Option.some.inj (here.symm.trans first)) with
          ⟨next', performs, follow⟩
        exact ⟨next', here'.trans (congrArg some performs), follow⟩
      case returns =>
        intro result last
        exact here'.trans (congrArg some (returns act result
          (Option.some.inj (here.symm.trans last))))

/-- What each step of the first system keeps can be said of the states along with it. -/
theorem Matches.and {holds : State → Prop} (alike : Matches step step' related state state')
    (kept : ∀ next, step state = some (.goes next) → holds next) :
    Matches step step' (fun state state' => related state state' ∧ holds state) state state' where
  stuck := alike.stuck
  goes next first := by
    rcases alike.goes next first with ⟨next', first', follow⟩
    exact ⟨next', first', follow, kept next first⟩
  returns := alike.returns

/-- A run goes on until it steps like one that waits for it. -/
theorem exists_matching (measure : State → Nat)
    (alike : ∀ state state', related state state' → Matches step step' related state state' ∨
      ∃ next, step state = some (.goes next) ∧ related next state' ∧ measure next < measure state)
    (isRelated : related state state') :
    ∃ last, Reaches step state last ∧ Matches step step' related last state' := by
  induction fuel : measure state using Nat.strongRecOn generalizing state with
  | _ fuel induction =>
      rcases alike state state' isRelated with matched | ⟨next, first, follow, less⟩
      · exact ⟨state, .refl, matched⟩
      · rcases induction _ (by omega) follow rfl with ⟨last, reaches, matched⟩
        exact ⟨last, .head first reaches, matched⟩

/-- Systems end with the same results whose related states match, or where the second waits
for the first, finitely often. -/
theorem completes_iff_of_waits (measure : State → Nat)
    (alike : ∀ state state', related state state' → Matches step step' related state state' ∨
      ∃ next, step state = some (.goes next) ∧ related next state' ∧ measure next < measure state)
    (isRelated : related state state') :
    Completes step state result ↔ Completes step' state' result := by
  constructor
  · intro completes
    induction completes generalizing state' with
    | returns last =>
        rcases alike _ _ isRelated with matched | ⟨next, first, -⟩
        · exact .returns (matched.returns _ last)
        · cases last.symm.trans first
    | goes first _ induction =>
        rcases alike _ _ isRelated with matched | ⟨next, again, follow, -⟩
        · rcases matched.goes _ first with ⟨next', first', follow⟩
          exact .goes first' (induction follow)
        · cases first.symm.trans again
          exact induction follow
  · intro completes
    induction completes generalizing state with
    | returns last =>
        rcases exists_matching measure alike isRelated with ⟨caught, reaches, matched⟩
        apply reaches.completes
        cases here : step caught with
        | none => cases (matched.stuck here).symm.trans last
        | some outcome =>
            cases outcome with
            | returns found =>
                cases (matched.returns found here).symm.trans last
                exact .returns here
            | goes next =>
                rcases matched.goes next here with ⟨next', first', -⟩
                cases first'.symm.trans last
    | goes first _ induction =>
        rcases exists_matching measure alike isRelated with ⟨caught, reaches, matched⟩
        apply reaches.completes
        cases here : step caught with
        | none => cases (matched.stuck here).symm.trans first
        | some outcome =>
            cases outcome with
            | returns found => cases (matched.returns found here).symm.trans first
            | goes next =>
                rcases matched.goes next here with ⟨next', first', follow⟩
                cases first'.symm.trans first
                exact .goes here (induction follow)

/-- Systems whose related states match end with the same results. -/
theorem completes_iff
    (alike : ∀ state state', related state state' → Matches step step' related state state')
    (isRelated : related state state') :
    Completes step state result ↔ Completes step' state' result :=
  completes_iff_of_waits (fun _ => 0) (fun state state' both => .inl (alike state state' both))
    isRelated

end Matching

/-- What the second system reaches when the first ends, if every step of the first is one
or more steps of the second, or none. -/
theorem Completes.carried {Result' : Type*} {carries : State' → Option (Outcome State' Result')}
    {related : State → State' → Prop} {done : Result → State' → Prop}
    (goes : ∀ state state' next, related state state' → step state = some (.goes next) →
      ∃ next', Reaches carries state' next' ∧ related next next')
    (returns : ∀ state state' result, related state state' →
      step state = some (.returns result) → ∃ last, Reaches carries state' last ∧ done result last)
    (completes : Completes step state result) {state' : State'} (isRelated : related state state') :
    ∃ last, Reaches carries state' last ∧ done result last := by
  induction completes generalizing state' with
  | returns last => exact returns _ _ _ isRelated last
  | goes first _ induction =>
      rcases goes _ _ _ isRelated first with ⟨next', reached, follow⟩
      rcases induction follow with ⟨last, later, isDone⟩
      exact ⟨last, reached.trans later, isDone⟩

/-- The second system follows the first, unless something is amiss. -/
structure Follows (step : State → Option (Outcome State Result))
    (step' : State' → Option (Outcome State' Result)) (related amiss : State → State' → Prop) :
    Prop where
  goes : ∀ state state' next, related state state' → step state = some (.goes next) →
    related next state' ∨
      (∃ next', step' state' = some (.goes next') ∧ related next next') ∨ amiss state state'
  returns : ∀ state state' result, related state state' → step state = some (.returns result) →
    step' state' = some (.returns result) ∨ amiss state state'

/-- Two runs have come to a point where something is amiss. -/
def GoesAmiss (step : State → Option (Outcome State Result))
    (step' : State' → Option (Outcome State' Result)) (related amiss : State → State' → Prop)
    (start : State) (start' : State') : Prop :=
  ∃ state state', Reaches step start state ∧ Reaches step' start' state' ∧
    related state state' ∧ amiss state state'

namespace Follows

variable {related amiss : State → State' → Prop} {state' : State'}

theorem reaches (follows : Follows step step' related amiss) (isRelated : related state state')
    (reaches : Reaches step state next) :
    (∃ next', Reaches step' state' next' ∧ related next next') ∨
      GoesAmiss step step' related amiss state state' := by
  induction reaches with
  | refl => exact .inl ⟨state', .refl, isRelated⟩
  | tail earlier last induction =>
      rcases induction with ⟨middle', reached, between⟩ | goesAmiss
      · rcases follows.goes _ _ _ between last with stays | ⟨next', first', follow⟩ | amiss
        · exact .inl ⟨middle', reached, stays⟩
        · exact .inl ⟨next', reached.tail first', follow⟩
        · exact .inr ⟨_, middle', earlier, reached, between, amiss⟩
      · exact .inr goesAmiss

theorem completes (follows : Follows step step' related amiss) (isRelated : related state state')
    (completes : Completes step state result) :
    Completes step' state' result ∨ GoesAmiss step step' related amiss state state' := by
  induction completes generalizing state' with
  | returns last =>
      rcases follows.returns _ _ _ isRelated last with last' | amiss
      · exact .inl (.returns last')
      · exact .inr ⟨_, state', .refl, .refl, isRelated, amiss⟩
  | goes first _ induction =>
      rcases follows.goes _ _ _ isRelated first with stays | ⟨next', first', follow⟩ | amiss
      · rcases induction stays with done | ⟨last, last', reached, reached', both⟩
        · exact .inl done
        · exact .inr ⟨last, last', .head first reached, reached', both⟩
      · rcases induction follow with done | ⟨last, last', reached, reached', both⟩
        · exact .inl (.goes first' done)
        · exact .inr ⟨last, last', .head first reached, .head first' reached', both⟩
      · exact .inr ⟨_, state', .refl, .refl, isRelated, amiss⟩

end Follows

end Steps

end LeechJit
