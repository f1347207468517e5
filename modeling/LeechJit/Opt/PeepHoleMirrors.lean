import Mathlib.Data.List.Permutation
import LeechJit.Opt.PeepHoleValues
import LeechJit.Opt.SsaValid

/-! # Executions before and after a round

After a rewrite the execution is at the same instruction with the same values, the
instruction that has left and the one in its place apart. Where the rule puts an operand
in place of an operation, it has the value of the operation wherever that is used.
-/

namespace LeechJit.Opt.PeepHole

open IR Store Steps

variable {World : Type} {meaning : Meaning World} {args : List ConstVal} {store store' : Store}
  {func : Function} {old id value key : InstId} {new : Option InstKind}
  {operands : InstId → List InstId} {config config' next : Config World} {rest : List InstId}

/-- The execution after a rewrite is where the one before is. -/
structure Mirrors (meaning : Meaning World) (store store' : Store) (func : Function)
    (old : InstId) (new : Option InstKind) (config config' : Config World) : Prop where
  coherent : ∃ front, Coherent meaning store func front config
  coherent' : ∃ front, Coherent meaning store' func front config'
  pred : config'.pred = config.pred
  bb : config'.bb = config.bb
  world : config'.world = config.world
  rest : config'.rest = store.remaining old new config.rest
  values : ∀ key, key ≠ old → ¬ (new.isSome ∧ key = store.nextInst) →
    config'.values key = config.values key
  entered : ∀ key, key ≠ old → ¬ (new.isSome ∧ key = store.nextInst) →
    config'.entered key = config.entered key

section Rewriting

variable (flows : store.Flows func)
  (rewritten : store.Rewritten { id | id ∈ store.listed func } old new operands store')

include flows rewritten

theorem mirrors_start (flows' : store'.Flows func) (world : World) :
    Mirrors meaning store store' func old new (store.start func world)
      (store'.start func world) where
  coherent := ⟨[], coherent_start flows world⟩
  coherent' := ⟨[], coherent_start flows' world⟩
  pred := rfl
  bb := rfl
  world := rfl
  rest := flows.toHoused.instructions_eq rewritten flows.closed.entry_mem
  values _ _ _ := rfl
  entered _ _ _ := rfl

/-- Of what stays in the function nothing but the operands has changed. -/
theorem exists_bare (member : id ∈ store.listed func) (notOld : id ≠ old) :
    ∃ inst inst', store.insts id = some inst ∧ store'.insts id = some inst' ∧
      inst'.bare = inst.bare ∧ inst'.inputs = operands id := by
  rcases flows.linked.stored id member with ⟨inst, found⟩
  rcases rewritten.kept id member notOld inst found with ⟨inst', found', bare⟩
  refine ⟨inst, inst', found, found', bare, ?_⟩
  rw [← inputs_eq found']
  exact rewritten.operands id (.inl ⟨member, notOld⟩)

end Rewriting

namespace Mirrors

theorem listed (mirrors : Mirrors meaning store store' func old new config config')
    (isRest : config.rest = id :: rest) : id ∈ store.listed func := by
  rcases mirrors.coherent with ⟨front, coherent⟩
  apply Consistent.mem_listed coherent.bbMem
  simp [coherent.placed, isRest]

/-- What is in the function and stays has the same value. -/
theorem values_old (mirrors : Mirrors meaning store store' func old new config config')
    (linked : store.Linked { id | id ∈ store.listed func }) (member : key ∈ store.listed func)
    (notOld : key ≠ old) : config'.values key = config.values key :=
  mirrors.values key notOld fun both => linked.ne_nextInst member both.2

theorem entered_old (mirrors : Mirrors meaning store store' func old new config config')
    (linked : store.Linked { id | id ∈ store.listed func }) (member : key ∈ store.listed func)
    (notOld : key ≠ old) : config'.entered key = config.entered key :=
  mirrors.entered key notOld fun both => linked.ne_nextInst member both.2

section Perform

variable (flows : store.Flows func)
  (rewritten : store.Rewritten { id | id ∈ store.listed func } old new operands store')
  (mirrors : Mirrors meaning store store' func old new config config')

include flows rewritten mirrors

/-- The same action leads to where the other execution gets. -/
theorem perform {action : Action World}
    (performs : store.perform config id rest action = .goes next)
    (coherent : ∃ front, Coherent meaning store func front next)
    (coherent' : ∀ next', store'.perform config' id (store.remaining old new rest) action =
      .goes next' → ∃ front, Coherent meaning store' func front next') :
    ∃ next', store'.perform config' id (store.remaining old new rest) action = .goes next' ∧
      Mirrors meaning store store' func old new next next' := by
  cases action with
  | value val world =>
      cases performs
      refine ⟨_, rfl, coherent, coherent' _ rfl, mirrors.pred, mirrors.bb, rfl, rfl, ?_,
        mirrors.entered⟩
      intro key notOld notNew
      dsimp only
      by_cases same : key = id
      · rw [same, Function.update_self, Function.update_self]
      · rw [Function.update_of_ne same, Function.update_of_ne same]
        exact mirrors.values key notOld notNew
  | jump target =>
      cases performs
      have targetMem : target ∈ func.bbs := by
        rcases coherent with ⟨front, coherent⟩
        exact coherent.bbMem
      exact ⟨_, rfl, coherent, coherent' _ rfl, congrArg some mirrors.bb, rfl, mirrors.world,
        flows.toHoused.instructions_eq rewritten targetMem, mirrors.values, mirrors.values⟩
  | ret val => cases performs

/-- Two executions at an instruction that stays do the same if it does. -/
theorem matches_of_act (flows' : store'.Flows func) (isRest : config.rest = id :: rest) (notOld : id ≠ old)
    (acts : ∀ inst inst', store.insts id = some inst → store'.insts id = some inst' →
      inst'.bare = inst.bare → inst'.inputs = operands id →
      meaning.act args inst.type inst.kind (inst'.reads config') config.world =
        meaning.act args inst.type inst.kind (inst.reads config) config.world) :
    Matches (store.step meaning args) (store'.step meaning args)
      (Mirrors meaning store store' func old new) config config' := by
  rcases exists_bare flows rewritten (mirrors.listed isRest) notOld with
    ⟨inst, inst', found, found', bare, inputs⟩
  have isRest' : config'.rest = id :: store.remaining old new rest := by
    rw [mirrors.rest, isRest, remaining_cons_of_ne notOld]
  have here : store.step meaning args config = _ := step_eq isRest found
  have here' : store'.step meaning args config' = _ := step_eq isRest' found'
  rw [Inst.type_of_bare bare, Inst.kind_of_bare bare, mirrors.world,
    acts inst inst' found found' bare inputs] at here'
  constructor
  case stuck =>
    intro stuck
    rw [here, Option.map_eq_none_iff] at stuck
    rw [here', stuck]
    rfl
  case goes =>
    intro next goes
    have coherent := coherent_next flows mirrors.coherent goes
    rw [here, Option.map_eq_some_iff] at goes
    rcases goes with ⟨action, isAction, performs⟩
    have coherent' : ∀ next', store'.perform config' id (store.remaining old new rest) action =
        .goes next' → ∃ front, Coherent meaning store' func front next' := by
      intro next' performs'
      have goes' : store'.step meaning args config' = some (.goes next') := by
        rw [here', isAction, Option.map_some, performs']
      exact coherent_next flows' mirrors.coherent' goes'
    rcases mirrors.perform flows rewritten performs coherent coherent' with
      ⟨next', performs', follow⟩
    refine ⟨next', ?_, follow⟩
    rw [here', isAction, Option.map_some, performs']
  case returns =>
    intro result returns
    rw [here, Option.map_eq_some_iff] at returns
    rcases returns with ⟨action, isAction, performs⟩
    rw [here', isAction, Option.map_some, ← performs]
    cases action with
    | ret val => rw [Store.perform, Store.perform, mirrors.world]
    | value _ _ | jump _ => cases performs

end Perform

/-- The execution after the rewrite waits while the operation that has left is executed. -/
theorem skip (flows : store.Flows func)
    (mirrors : Mirrors meaning store store' func old none config config')
    (oldBinOp : store.IsBinOp old) (isRest : config.rest = old :: rest)
    (goes : store.step meaning args config = some (.goes next)) :
    Mirrors meaning store store' func old none next config' := by
  have coherent := coherent_next flows mirrors.coherent goes
  rcases oldBinOp with ⟨inst, oper, found, kind⟩
  rcases step_binOp isRest found kind goes with ⟨-, -, val, -, -, -, equal⟩
  cases equal
  refine ⟨coherent, mirrors.coherent', mirrors.pred, mirrors.bb, mirrors.world, ?_, ?_, mirrors.entered⟩
  · rw [mirrors.rest, isRest, remaining_cons_old_none]
  · intro key notOld notNew
    dsimp only
    rw [Function.update_of_ne notOld]
    exact mirrors.values key notOld notNew

end Mirrors

/-! ## An operand in place of an operation -/

section Replaced

variable (flows : store.Flows func) (flows' : store'.Flows func)
  (evaluates : Evaluates meaning) (oldBinOp : store.IsBinOp old)
  (isReplacement : replacement store old = some value) (different : value ≠ old)
  (rewritten : store.Rewritten { id | id ∈ store.listed func } old none
    (fun key => (store.inputs key).map (redirect old value)) store')
  (mirrors : Mirrors meaning store store' func old none config config')

include flows evaluates oldBinOp isReplacement different rewritten mirrors

/-- Whoever used the operation reads the same from the operand. -/
theorem reads_replaced {inst inst' : Inst} (isRest : config.rest = id :: rest)
    (found : store.insts id = some inst) (kind : inst'.kind = inst.kind)
    (inputs : inst'.inputs = inst.inputs.map (redirect old value)) :
    inst'.reads config' = inst.reads config := by
  rcases mirrors.coherent with ⟨front, coherent⟩
  have placed := coherent.placed
  rw [isRest] at placed
  have isNeeded : old ∈ store.nonConstants func := oldBinOp.mem_nonConstants
  have notNew : ∀ key, ¬ ((none : Option InstKind).isSome = true ∧ key = store.nextInst) := by
    simp
  apply reads_eq kind inputs mirrors.pred
  · intro notPhi input isInput
    by_cases isOld : input = old
    · subst isOld
      have defined := flows.defined.uses config.bb coherent.bbMem front id rest placed inst found
        notPhi input isInput isNeeded
      rw [redirect, if_pos rfl, mirrors.values value different (notNew value)]
      exact (value_of_replacement evaluates coherent.consts isReplacement
        (coherent.computed input oldBinOp defined)).symm
    · rw [redirect, if_neg isOld]
      exact mirrors.values input isOld (notNew input)
  · intro vars isPhi input entry matched isPred
    by_cases isOld : input = old
    · subst isOld
      have defined := flows.defined.phiUses config.bb coherent.bbMem id (by simp [placed]) inst
        vars found isPhi input entry matched isNeeded
      rw [redirect, if_pos rfl, mirrors.entered value different (notNew value)]
      exact (value_of_replacement evaluates coherent.constsEntered isReplacement
        (coherent.atEntry entry.bb isPred.symm input oldBinOp defined)).symm
    · rw [redirect, if_neg isOld]
      exact mirrors.entered input isOld (notNew input)

include flows'

theorem matches_replaced (isRest : config.rest = id :: rest) (notOld : id ≠ old) :
    Matches (store.step meaning args) (store'.step meaning args)
      (Mirrors meaning store store' func old none) config config' := by
  apply mirrors.matches_of_act flows rewritten flows' isRest notOld
  intro inst inst' found found' bare inputs
  rw [inputs_eq found] at inputs
  rw [reads_replaced flows evaluates oldBinOp isReplacement different rewritten mirrors isRest
    found (Inst.kind_of_bare bare) inputs]

omit mirrors

theorem follows_replaced : Follows (store.step meaning args) (store'.step meaning args)
    (Mirrors meaning store store' func old none) (fun _ _ => False) := by
  have alike : ∀ config config' id rest, Mirrors meaning store store' func old none config config' →
      config.rest = id :: rest → id ≠ old →
      Matches (store.step meaning args) (store'.step meaning args)
        (Mirrors meaning store store' func old none) config config' :=
    fun _ _ _ _ mirrors => matches_replaced flows flows' evaluates oldBinOp isReplacement different
      rewritten mirrors
  constructor
  case goes =>
    intro config config' next mirrors goes
    rcases step_eq_some goes with ⟨id, rest, inst, action, isRest, -⟩
    by_cases isOld : id = old
    · subst isOld
      exact .inl (mirrors.skip flows oldBinOp isRest goes)
    · exact .inr (.inl ((alike config config' id rest mirrors isRest isOld).goes next goes))
  case returns =>
    intro config config' result mirrors returns
    rcases step_eq_some returns with ⟨id, rest, inst, action, isRest, -⟩
    have notOld : id ≠ old := by
      rintro rfl
      rcases oldBinOp with ⟨own, oper, found, kind⟩
      have goes := step_binOp isRest found kind returns
      rcases goes with ⟨-, -, val, -, -, -, equal⟩
      cases equal
    exact .inl ((alike config config' id rest mirrors isRest notOld).returns result returns)

end Replaced

/-! ## Operands that have changed sides -/

/-- An operation that commutes does the same on its operands the other way round. -/
theorem act_swapped {oper : BinOp.Oper} {type : ValueType} {left right : Option ConstVal}
    {world : World} (evaluates : Evaluates meaning) (commutes : oper = .kAdd ∨ oper = .kOr) :
    meaning.act args type (.kBinOp oper) [left, right] world =
      meaning.act args type (.kBinOp oper) [right, left] world := by
  have comm : ∀ lhs rhs, meaning.binOp oper lhs rhs = meaning.binOp oper rhs lhs := by
    intro lhs rhs
    have notDiv : oper ≠ .kDiv := by
      rcases commutes with rfl | rfl <;> simp
    have notCheck : oper ≠ .kBoundsCheck := by
      rcases commutes with rfl | rfl <;> simp
    rw [evaluates oper notDiv notCheck, evaluates oper notDiv notCheck, binEval_comm commutes]
  cases left <;> cases right <;> simp [Meaning.act, Meaning.operand]
  rw [comm]

namespace Swapped

variable {scope : Set InstId} (swapped : Swapped store id store')

include swapped

theorem perform_eq {action : Action World} :
    store'.perform config key rest action = store.perform config key rest action := by
  cases action with
  | jump target => simp only [perform, enter, swapped.instructions]
  | value _ _ | ret _ => rfl

theorem start_eq (world : World) : store'.start func world = store.start func world := by
  simp only [start, swapped.instructions]

/-- The operation whose operands have changed sides acts the same. -/
theorem act_reads {inst inst' : Inst} {oper : BinOp.Oper} {type : ValueType} {world : World}
    (linked : store.Linked scope) (member : id ∈ scope) (evaluates : Evaluates meaning)
    (found : store.insts id = some inst) (found' : store'.insts id = some inst')
    (kind : inst.kind = .kBinOp oper) (kind' : inst'.kind = inst.kind)
    (commutes : oper = .kAdd ∨ oper = .kOr) :
    meaning.act args type inst.kind (inst'.reads config) world =
      meaning.act args type inst.kind (inst.reads config) world := by
  rcases linked.two_inputs member found kind with ⟨lhs, rhs, inputs⟩
  have perm := swapped.inputs
  rw [inputs_eq found, inputs, inputs_eq found'] at perm
  rw [reads_of_binOp kind, reads_of_binOp (kind'.trans kind), inputs, kind]
  rcases List.perm_pair.mp perm with same | other
  · rw [same]
  · rw [other]
    exact act_swapped evaluates commutes

/-- The steps are the same. -/
theorem step_eq (linked : store.Linked scope) (member : id ∈ scope)
    (evaluates : Evaluates meaning) (commutes : store' = store ∨ Commutes store id) :
    store'.step meaning args = store.step meaning args := by
  rcases commutes with rfl | ⟨own, oper, foundOwn, kindOwn, commutes⟩
  · rfl
  funext config
  cases isRest : config.rest with
  | nil => simp [Store.step, isRest]
  | cons key rest =>
      cases found : store.insts key with
      | none =>
          have found' := swapped.relinked.insts_none.mpr found
          simp [Store.step, isRest, found, found']
      | some inst =>
          have found' := swapped.relinked.insts found
          have performs : store'.perform config key rest = store.perform config key rest :=
            funext fun action => swapped.perform_eq
          rw [Store.step_eq isRest found, Store.step_eq isRest found', performs]
          congr 1
          by_cases isId : key = id
          · subst isId
            cases Option.some.inj (found.symm.trans foundOwn)
            exact swapped.act_reads linked member evaluates found found' kindOwn rfl commutes
          · have same : store'.inputs key = inst.inputs := by
              rw [swapped.others key isId, inputs_eq found]
            congr 1
            exact reads_congr rfl same

end Swapped

end LeechJit.Opt.PeepHole
