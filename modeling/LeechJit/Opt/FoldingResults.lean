import LeechJit.Opt.FoldingExact
import LeechJit.Opt.FoldingFlows
import LeechJit.Opt.PeepHoleMirrors

/-! # Results before and after constant folding

After a fold the constant has the value that the instruction has in the execution before,
whenever it has one. An execution that comes to the instruction goes on, because its
operands are there, so that no result is lost and none is new.
-/

namespace LeechJit.Opt

open IR Store Steps

/-- Where a round folds an instruction, the constant is what the instruction means. -/
def Round.Agrees {World : Type} (meaning : Meaning World) (round : Round) : Prop :=
  ∀ val, ConstantFolding.fold round.store round.id = .ok val →
    (∀ oper left right, ConstantFolding.BinOpOn round.store round.id oper left right →
      meaning.binOp oper left right = some val) ∧
    ∀ dest src, ConstantFolding.CastOn round.store round.id dest src →
      meaning.cast dest src = some val

namespace ConstantFolding

variable {World : Type} {meaning : Meaning World} {args : List ConstVal} {store store' : Store}
  {func : Function} {id key : InstId} {inst : Inst} {val : ConstVal} {values : Values}
  {config config' next : Config World} {rest : List InstId} {world : World}
  {result : Option ConstVal × World}

/-! ## Operands that are constants -/

theorem exists_of_constAt (isConst : constAt store id = some val) :
    ∃ inst, store.insts id = some inst ∧ inst.kind = .kConst val := by
  unfold constAt at isConst
  split at isConst
  case h_1 found =>
      cases isConst
      exact ⟨_, found, rfl⟩
  case h_2 => cases isConst

/-- Constants that have values have their own. -/
theorem map_values {inputs : List InstId} {consts : List ConstVal}
    (hold : store.ConstsHold values) (isConsts : inputs.map (constAt store) = consts.map some)
    (filled : ∀ input ∈ inputs, ∃ held, values input = some held) :
    inputs.map values = consts.map some := by
  rw [← isConsts]
  apply List.map_congr_left
  intro input isInput
  have member : constAt store input ∈ consts.map some := by
    rw [← isConsts]
    exact List.mem_map_of_mem isInput
  rcases List.mem_map.mp member with ⟨const, -, isConst⟩
  rcases filled input isInput with ⟨held, holds⟩
  rcases exists_of_constAt isConst.symm with ⟨inst, found, kind⟩
  rw [holds, hold input inst const held found kind holds, isConst]

/-- An operation or a cast that is executed finds its operands. -/
theorem filled_of_act {inputs : List InstId} {consts : List ConstVal} {action : Action World}
    {type : ValueType} {kind : InstKind}
    (isConsts : inputs.map (constAt store) = consts.map some)
    (isFolded : (∃ oper left right, kind = .kBinOp oper ∧ consts = [left, right]) ∨
      ∃ src, kind = .kCast ∧ consts = [src])
    (acts : meaning.act args type kind (inputs.map values) world = some action) :
    ∀ input ∈ inputs, ∃ held, values input = some held := by
  have length : inputs.length = consts.length := by simpa using congrArg List.length isConsts
  rcases isFolded with ⟨oper, left, right, rfl, rfl⟩ | ⟨src, rfl, rfl⟩
  · rcases List.length_eq_two.mp length with ⟨lhs, rhs, rfl⟩
    rcases Meaning.act_binOp acts with ⟨lval, rval, -, isLeft, isRight, -⟩
    simp only [List.map_cons, List.getElem?_cons_zero, List.getElem?_cons_succ,
      Option.some.injEq] at isLeft isRight
    intro input isInput
    rcases List.mem_pair.mp isInput with rfl | rfl
    · exact ⟨lval, isLeft⟩
    · exact ⟨rval, isRight⟩
  · rcases List.length_eq_one_iff.mp length with ⟨source, rfl⟩
    intro input isInput
    cases List.mem_singleton.mp isInput
    cases holds : values source with
    | none => simp [Meaning.act, Meaning.operand, holds] at acts
    | some held => exact ⟨held, rfl⟩

/-! ## Where the executions are -/

/-- The constant has the value of the instruction. -/
structure FoldMirrors (meaning : Meaning World) (store store' : Store) (func : Function)
    (id : InstId) (val : ConstVal) (config config' : Config World) : Prop
    extends PeepHole.Mirrors meaning store store' func id (some (.kConst val)) config config' where
  moved : config'.values store.nextInst = config.values id
  movedEntered : config'.entered store.nextInst = config.entered id

section Fold

variable (flows : store.Flows func) (flows' : store'.Flows func)
  (rewritten : store.Rewritten { id | id ∈ store.listed func } id (some (.kConst val))
    (foldedInputs store id) store')
  (folds : fold store id = .ok val)
  (agrees : (Round.mk .constantFolding store id).Agrees meaning)

section Start

include flows flows' rewritten

theorem foldMirrors_start (world : World) :
    FoldMirrors meaning store store' func id val (store.start func world)
      (store'.start func world) where
  toMirrors := PeepHole.mirrors_start flows rewritten flows' world
  moved := rfl
  movedEntered := rfl

end Start

section Old

include flows rewritten folds agrees

/-- On its constants the instruction yields the constant it is folded to. -/
theorem act_folded (found : store.insts id = some inst) (hold : store.ConstsHold config.values)
    (filled : (∃ action, meaning.act args inst.type inst.kind (inst.reads config) config.world =
        some action) ∨ ∀ input ∈ inst.inputs, ∃ held, config.values input = some held) :
    meaning.act args inst.type inst.kind (inst.reads config) config.world =
      some (.value (some val) config.world) := by
  have formed := flows.linked.formed id rewritten.oldMem
  rcases fold_cases formed folds with ⟨again, consts, foundAgain, isConsts, cases⟩
  cases Option.some.inj (found.symm.trans foundAgain)
  have isFolded : (∃ oper left right, inst.kind = .kBinOp oper ∧ consts = [left, right]) ∨
      ∃ src, inst.kind = .kCast ∧ consts = [src] := by
    rcases cases with ⟨oper, left, right, kind, isPair, -⟩ | ⟨src, kind, isOne, -⟩
    · exact .inl ⟨oper, left, right, kind, isPair⟩
    · exact .inr ⟨src, kind, isOne⟩
  have notPhi : inst.kind.isPhi = false := by
    rcases isFolded with ⟨oper, left, right, kind, -⟩ | ⟨src, kind, -⟩ <;>
      · rw [kind]
        rfl
  rw [reads_of_not_phi notPhi] at filled ⊢
  have allFilled : ∀ input ∈ inst.inputs, ∃ held, config.values input = some held := by
    rcases filled with ⟨action, acts⟩ | filled
    · exact filled_of_act isConsts isFolded acts
    · exact filled
  rw [map_values hold isConsts allFilled]
  rcases cases with ⟨oper, left, right, kind, rfl, operation⟩ | ⟨src, kind, rfl, cast⟩
  · have means := (agrees val folds).1 oper left right operation
    simp [kind, Meaning.act, Meaning.operand, means]
  · have means := (agrees val folds).2 inst.type src cast
    simp [kind, Meaning.act, Meaning.operand, means]

end Old

include flows flows' rewritten

omit flows flows' in
/-- The constant is executed when the instruction is. -/
theorem step_new (mirrors : FoldMirrors meaning store store' func id val config config')
    (isRest : config.rest = id :: rest) :
    store'.step meaning args config' = some (.goes { config' with
      values := Function.update config'.values store.nextInst (some val),
      rest := store.remaining id (some (.kConst val)) rest }) := by
  rcases rewritten.added _ rfl with ⟨inst', found', kind, -⟩
  have isRest' : config'.rest =
      store.nextInst :: store.remaining id (some (.kConst val)) rest := by
    rw [mirrors.rest, isRest, remaining_cons_old rfl]
  rw [step_eq isRest' found', kind]
  rfl

theorem foldMirrors_old (mirrors : FoldMirrors meaning store store' func id val config config')
    (isRest : config.rest = id :: rest)
    (goes : store.step meaning args config = some (.goes { config with
      values := Function.update config.values id (some val), rest })) :
    FoldMirrors meaning store store' func id val
      { config with values := Function.update config.values id (some val), rest }
      { config' with
        values := Function.update config'.values store.nextInst (some val),
        rest := store.remaining id (some (.kConst val)) rest } where
  coherent := coherent_next flows mirrors.coherent goes
  coherent' := by
    have goes' : store'.step meaning args config' = _ := step_new rewritten mirrors isRest
    exact coherent_next flows' mirrors.coherent' goes'
  pred := mirrors.pred
  bb := mirrors.bb
  world := mirrors.world
  rest := rfl
  values key notOld notNew := by
    have other : key ≠ store.nextInst := fun equal => notNew ⟨rfl, equal⟩
    dsimp only
    rw [Function.update_of_ne other, Function.update_of_ne notOld]
    exact mirrors.values key notOld notNew
  entered := mirrors.entered
  moved := by
    dsimp only
    rw [Function.update_self, Function.update_self]
  movedEntered := mirrors.movedEntered

omit flows' rewritten in
/-- Whoever used the instruction reads the same from the constant. -/
theorem reads_folded {inst inst' : Inst}
    (mirrors : FoldMirrors meaning store store' func id val config config')
    (member : key ∈ store.listed func) (found : store.insts key = some inst)
    (kind : inst'.kind = inst.kind)
    (inputs : inst'.inputs = inst.inputs.map (redirect id store.nextInst)) :
    inst'.reads config' = inst.reads config := by
  have listed : ∀ input ∈ inst.inputs, input ∈ store.listed func := by
    rw [← inputs_eq found]
    exact flows.linked.inputs key member
  apply reads_eq kind inputs mirrors.pred
  · intro _ input isInput
    by_cases isOld : input = id
    · rw [redirect, if_pos isOld, isOld]
      exact mirrors.moved
    · rw [redirect, if_neg isOld]
      exact mirrors.values_old flows.linked (listed input isInput) isOld
  · intro vars _ input entry matched _
    have isInput := (List.of_mem_zip matched).1
    by_cases isOld : input = id
    · rw [redirect, if_pos isOld, isOld]
      exact mirrors.movedEntered
    · rw [redirect, if_neg isOld]
      exact mirrors.entered_old flows.linked (listed input isInput) isOld

theorem matches_others (mirrors : FoldMirrors meaning store store' func id val config config')
    (isRest : config.rest = key :: rest) (notOld : key ≠ id) :
    Matches (store.step meaning args) (store'.step meaning args)
      (FoldMirrors meaning store store' func id val) config config' := by
  have member := mirrors.listed isRest
  have notNew := flows.linked.ne_nextInst member
  rcases PeepHole.exists_bare flows rewritten member notOld with
    ⟨inst, inst', found, found', bare, inputs⟩
  rw [foldedInputs, if_neg notNew, inputs_eq found] at inputs
  have isRest' : config'.rest = key :: store.remaining id (some (.kConst val)) rest := by
    rw [mirrors.rest, isRest, remaining_cons_of_ne notOld]
  have here : store.step meaning args config = _ := step_eq isRest found
  have here' : store'.step meaning args config' = _ := step_eq isRest' found'
  rw [Inst.type_of_bare bare, Inst.kind_of_bare bare, mirrors.world,
    reads_folded flows mirrors member found (Inst.kind_of_bare bare) inputs]
    at here'
  apply Matches.of_map here here'
  case goes =>
    intro action next isAction performs
    have goes : store.step meaning args config = some (.goes next) := by
      rw [here, isAction, Option.map_some, performs]
    have coherent := coherent_next flows mirrors.coherent goes
    have coherent' : ∀ next', store'.perform config' key
        (store.remaining id (some (.kConst val)) rest) action = .goes next' →
        ∃ front, Coherent meaning store' func front next' := by
      intro next' performs'
      have goes' : store'.step meaning args config' = some (.goes next') := by
        rw [here', isAction, Option.map_some, performs']
      exact coherent_next flows' mirrors.coherent' goes'
    rcases mirrors.perform flows rewritten performs coherent coherent' with
      ⟨next', performs', follow⟩
    refine ⟨next', performs', ⟨follow, ?_, ?_⟩⟩
    · cases action with
      | value held world =>
          cases performs
          cases performs'
          dsimp only
          rw [Function.update_of_ne notNew.symm, Function.update_of_ne (Ne.symm notOld)]
          exact mirrors.moved
      | jump target =>
          cases performs
          cases performs'
          exact mirrors.moved
      | ret held => cases performs
    · cases action with
      | value held world =>
          cases performs
          cases performs'
          exact mirrors.movedEntered
      | jump target =>
          cases performs
          cases performs'
          exact mirrors.moved
      | ret held => cases performs
  case returns =>
    intro action result performs
    rw [← performs]
    cases action with
    | ret held => rw [Store.perform, Store.perform, mirrors.world]
    | value _ _ | jump _ => cases performs

omit flows' in
include folds agrees in
theorem step_old (mirrors : FoldMirrors meaning store store' func id val config config')
    (isRest : config.rest = id :: rest) (found : store.insts id = some inst)
    (filled : (∃ action, meaning.act args inst.type inst.kind (inst.reads config) config.world =
        some action) ∨ ∀ input ∈ inst.inputs, ∃ held, config.values input = some held) :
    store.step meaning args config = some (.goes { config with
      values := Function.update config.values id (some val), rest }) := by
  rcases mirrors.coherent with ⟨front, coherent⟩
  rw [step_eq isRest found, act_folded flows rewritten folds agrees found coherent.consts filled]
  rfl

include folds agrees

/-- The execution after the fold follows the one before. -/
theorem follows_folded : Follows (store.step meaning args) (store'.step meaning args)
    (FoldMirrors meaning store store' func id val) (fun _ _ => False) := by
  have folded : ∀ config config' outcome rest,
      FoldMirrors meaning store store' func id val config config' → config.rest = id :: rest →
      store.step meaning args config = some outcome → outcome = .goes { config with
        values := Function.update config.values id (some val), rest } := by
    intro config config' outcome rest mirrors isRest steps
    rcases step_eq_some steps with ⟨own, others, inst, action, isOwn, found, acts, -⟩
    cases isRest.symm.trans isOwn
    have goes := step_old flows rewritten folds agrees mirrors isRest found (.inl ⟨action, acts⟩)
    exact Option.some.inj (steps.symm.trans goes)
  constructor
  case goes =>
    intro config config' next mirrors goes
    rcases step_eq_some goes with ⟨key, rest, inst, action, isRest, -⟩
    by_cases isOld : key = id
    · subst isOld
      have same := folded config config' _ rest mirrors isRest goes
      cases same
      exact .inr (.inl ⟨_, step_new rewritten mirrors isRest,
        foldMirrors_old flows flows' rewritten mirrors isRest goes⟩)
    · exact .inr (.inl ((matches_others flows flows' rewritten mirrors isRest isOld).goes next goes))
  case returns =>
    intro config config' result mirrors returns
    rcases step_eq_some returns with ⟨key, rest, inst, action, isRest, -⟩
    by_cases isOld : key = id
    · subst isOld
      cases folded config config' _ rest mirrors isRest returns
    · exact .inl ((matches_others flows flows' rewritten mirrors isRest isOld).returns result returns)

end Fold

section Strict

variable (strict : store.Strict func)
  (rewritten : store.Rewritten { id | id ∈ store.listed func } id (some (.kConst val))
    (foldedInputs store id) store')
  (folds : fold store id = .ok val)
  (agrees : (Round.mk .constantFolding store id).Agrees meaning)

include strict rewritten folds agrees

/-- Both executions step alike, since the operands of what is folded are there. -/
theorem matches_folded (mirrors : FoldMirrors meaning store store' func id val config config')
    (progressing : ∃ front, Progressing meaning store func front config) :
    Matches (store.step meaning args) (store'.step meaning args)
      (fun config config' => FoldMirrors meaning store store' func id val config config' ∧
        ∃ front, Progressing meaning store func front config) config config' := by
  have flows' := flows_folded rewritten strict.flows
  rcases progressing with ⟨front, progressing⟩
  apply Matches.and _ fun next goes => progressing.step strict goes
  cases isRest : config.rest with
  | nil =>
      have stuck : store.step meaning args config = none := by simp [Store.step, isRest]
      have stuck' : store'.step meaning args config' = none := by
        simp [Store.step, mirrors.rest, isRest, remaining]
      constructor
      case stuck => exact fun _ => stuck'
      case goes =>
        intro next goes
        cases stuck.symm.trans goes
      case returns =>
        intro result returns
        cases stuck.symm.trans returns
  | cons key rest =>
      by_cases isOld : key = id
      · subst isOld
        have placed := progressing.placed
        rw [isRest] at placed
        rcases fold_cases (strict.linked.formed key rewritten.oldMem) folds with
          ⟨inst, consts, found, isConsts, cases⟩
        have notPhi : inst.kind.isPhi = false := by
          rcases cases with ⟨oper, left, right, kind, -⟩ | ⟨src, kind, -⟩ <;>
            · rw [kind]
              rfl
        have filled : ∀ input ∈ inst.inputs, ∃ held, config.values input = some held := by
          intro input isInput
          have member : constAt store input ∈ consts.map some := by
            rw [← isConsts]
            exact List.mem_map_of_mem isInput
          rcases List.mem_map.mp member with ⟨const, -, isConst⟩
          rcases exists_of_constAt isConst.symm with ⟨other, otherFound, kind⟩
          apply progressing.filled input
          · refine ⟨other, otherFound, by rw [kind]; rfl, ?_⟩
            intro callee isCall
            cases kind.symm.trans isCall
          · exact strict.usesDefined.uses config.bb progressing.bbMem front key rest placed inst
              found notPhi input isInput (Set.mem_univ _)
        have goes : store.step meaning args config = _ :=
          step_old strict.flows rewritten folds agrees mirrors isRest found (.inr filled)
        constructor
        case stuck =>
          intro stuck
          cases goes.symm.trans stuck
        case goes =>
          intro next first
          cases goes.symm.trans first
          exact ⟨_, step_new rewritten mirrors isRest,
            foldMirrors_old strict.flows flows' rewritten mirrors isRest goes⟩
        case returns =>
          intro result returns
          cases goes.symm.trans returns
      · exact matches_others strict.flows flows' rewritten mirrors isRest isOld

end Strict

/-! ## Rounds and runs -/

/-- A fold loses no result. -/
theorem results_foldInst (flows : store.Flows func) (member : id ∈ store.listed func)
    (agrees : (Round.mk .constantFolding store id).Agrees meaning)
    (returns : foldInst store id = .ok store')
    (results : store.Results func meaning args world result) :
    store'.Results func meaning args world result := by
  rcases foldInst_rewritten flows.linked member returns with ⟨val, folds, rewritten⟩
  have flows' := flows_folded rewritten flows
  rcases (follows_folded flows flows' rewritten folds agrees).completes
    (foldMirrors_start flows flows' rewritten world) results with results' | ⟨-, -, -, -, -, amiss⟩
  · exact results'
  · cases amiss

/-- A fold changes no result if every definition dominates its uses. -/
theorem results_foldInst_iff (strict : store.Strict func) (member : id ∈ store.listed func)
    (agrees : (Round.mk .constantFolding store id).Agrees meaning)
    (returns : foldInst store id = .ok store') :
    store'.Strict func ∧ (store'.Results func meaning args world result ↔
      store.Results func meaning args world result) := by
  rcases foldInst_rewritten strict.linked member returns with ⟨val, folds, rewritten⟩
  have flows' := flows_folded rewritten strict.flows
  refine ⟨strict_folded rewritten strict, ?_⟩
  have alike : ∀ config config', (FoldMirrors meaning store store' func id val config config' ∧
      ∃ front, Progressing meaning store func front config) →
      Matches (store.step meaning args) (store'.step meaning args) _ config config' :=
    fun _ _ both => matches_folded strict rewritten folds agrees both.1 both.2
  exact (completes_iff alike ⟨foldMirrors_start strict.flows flows' rewritten world, [],
    progressing_start strict world⟩).symm

theorem results_rounds_iff {candidates : List InstId} (strict : store.Strict func)
    (pending : ∀ id ∈ candidates, Pending store func id)
    (agrees : ∀ round ∈ Opt.rounds foldInst candidates store,
      (Round.mk .constantFolding round.1 round.2).Agrees meaning)
    (returns : candidates.foldlM foldInst store = .ok store') :
    store'.Results func meaning args world result ↔
      store.Results func meaning args world result := by
  induction candidates generalizing store with
  | nil =>
      cases returns
      rfl
  | cons id rest induction =>
      rw [List.foldlM_cons] at returns
      rcases Result.bind_eq_ok.mp returns with ⟨next, first, later⟩
      have round : Pass.constantFolding.rewrite store id = .ok next := first
      have member := Pass.mem_listed (pending id List.mem_cons_self) round
      rcases Pass.housed strict.toHoused member round with ⟨-, pendingNext⟩
      simp only [rounds, first, List.forall_mem_cons] at agrees
      have step : next.Strict func ∧ (next.Results func meaning args world result ↔
          store.Results func meaning args world result) :=
        results_foldInst_iff strict member agrees.1 first
      have pendingRest : ∀ other ∈ rest, Pending next func other := fun other otherMem =>
        pendingNext other (pending other (List.mem_cons_of_mem _ otherMem))
      exact (induction step.1 pendingRest agrees.2 later).trans step.2

/-! ## What the operators ought to mean -/

/-- Operators and casts mean what they ought to compute. Division and the bounds check, which
are not folded, may mean anything. -/
structure Intends (meaning : Meaning World) : Prop where
  binOp : ∀ oper, oper ≠ .kDiv → oper ≠ .kBoundsCheck → ∀ left right,
    meaning.binOp oper left right = operatorValue oper left right
  cast : ∀ dest src, meaning.cast dest src = convert dest src

theorem not_div_of_binEval {oper : BinOp.Oper} {left right : ConstVal}
    (evaluated : binEval oper left right = .ok val) : oper ≠ .kDiv ∧ oper ≠ .kBoundsCheck := by
  constructor <;>
    · rintro rfl
      unfold binEval at evaluated
      split at evaluated
      case h_6 => cases evaluated
      all_goals
        rcases Result.map_eq_ok.mp evaluated with ⟨held, evaluated, -⟩
        cases evaluated

/-- Folding is right about everything but the comparison of a constant with itself. -/
theorem agrees_of_intends {round : Round} (intends : Intends meaning)
    (strictly : ∀ held, ¬ BinOpOn round.store round.id .kLE held held) :
    round.Agrees meaning := by
  intro val folds
  constructor
  · intro oper left right operation
    rw [operation.fold_eq] at folds
    rcases not_div_of_binEval folds with ⟨notDiv, notCheck⟩
    rw [intends.binOp oper notDiv notCheck, binEval_eq_ok folds]
    rintro ⟨rfl, rfl⟩
    exact strictly left operation
  · intro dest src cast
    rw [cast.fold_eq, castEval_eq_ok] at folds
    rcases folds with ⟨rfl, rfl⟩
    rw [intends.cast, convert_own]

/-- A run changes no result of an execution, unless it folds the comparison of a constant
with itself. -/
theorem folding_keeps_results (wellFormed : store.WellFormed func) (intends : Intends meaning)
    (strictly : ∀ round ∈ Pass.constantFolding.rounds store func, ∀ held,
      ¬ BinOpOn round.store round.id .kLE held held)
    (returns : run store func = .ok store') (args : List ConstVal) (world : World)
    (result : Option ConstVal × World) :
    store'.Results func meaning args world result ↔
      store.Results func meaning args world result := by
  rcases Result.bind_eq_ok.mp returns with ⟨candidates, collected, folding⟩
  have collecting : Pass.constantFolding.candidates store func = .ok candidates := collected
  have pending := Pass.pending_candidates wellFormed.housed collecting
  apply results_rounds_iff wellFormed.strict pending _ folding
  intro round member
  apply agrees_of_intends intends
  simp only [Pass.rounds, collecting, List.forall_mem_map] at strictly
  exact strictly round member

/-- A loop that counts up to the sum of two constants. -/
def countingLoop : Store :=
  .ofTables
    [{ type := .I32, kind := .kConst (.I32 4), users := [3, 5], bb := some 0 },
      { type := .I32, kind := .kConst (.I32 2), users := [3], bb := some 0 },
      { type := .I32, kind := .kConst (.I32 1), users := [6], bb := some 0 },
      { type := .I32, kind := .kBinOp .kAdd, users := [7], bb := some 0, inputs := [0, 1] },
      { kind := .kJump 1, bb := some 0 },
      { type := .I32, kind := .kPhi [⟨0, 0⟩, ⟨6, 1⟩], users := [6, 9], bb := some 1,
        inputs := [0, 6] },
      { type := .I32, kind := .kBinOp .kAdd, users := [5, 7], bb := some 1, inputs := [5, 2] },
      { type := .I32, kind := .kBinOp .kEQ, users := [8], bb := some 1, inputs := [6, 3] },
      { kind := .kIf 2 1, bb := some 1, inputs := [7] },
      { kind := .kRet, bb := some 2, inputs := [5] }]
    [{ instructions := [0, 1, 2, 3, 4], succ := [1] },
      { instructions := [5, 6, 7, 8], pred := [0, 1], succ := [2, 1], id := 1 },
      { instructions := [9], pred := [1], id := 2 }] []

def counting : Function :=
  { bbs := [0, 1, 2], resType := .I32 }

/-- Everything means what it ought to; every call ends the execution. -/
def intended : Meaning Unit where
  binOp := operatorValue
  unaryOp _ val := some val
  cast := convert
  isTrue val := val.toInt ≠ 0
  call _ _ _ := none

theorem intends_intended : Intends intended :=
  ⟨fun _ _ _ _ _ => rfl, fun _ _ => rfl⟩

theorem folding_keeps_results_counting :
    ∃ store', run countingLoop counting = .ok store' ∧
      (store'.Results counting intended [] () (some (.I32 5), ()) ↔
        countingLoop.Results counting intended [] () (some (.I32 5), ())) := by
  have strictly : ∀ round ∈ Pass.constantFolding.rounds countingLoop counting, ∀ held,
      ¬ BinOpOn round.store round.id .kLE held held := by
    rintro round member held ⟨inst, lhs, rhs, found, kind, -⟩
    have same : round.store = countingLoop ∧ round.id = 3 := by
      have rounds : Pass.constantFolding.rounds countingLoop counting =
          [⟨.constantFolding, countingLoop, 3⟩] := rfl
      rw [rounds, List.mem_singleton] at member
      rw [member]
      exact ⟨rfl, rfl⟩
    rw [same.1, same.2] at found
    cases found
    cases kind
  exact ⟨_, rfl, folding_keeps_results (checkWellFormed_sound rfl) intends_intended strictly rfl
    [] () _⟩

end ConstantFolding

end LeechJit.Opt
