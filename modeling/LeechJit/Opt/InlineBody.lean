import LeechJit.IR.MoreValues
import LeechJit.IR.Progress
import LeechJit.Opt.InlineExpansion

/-! # Through the blocks of a callee

While the execution before is at the call, the one after goes through the blocks of the callee,
with the arguments for its parameters, and leaves them with the result of the callee.
-/

namespace LeechJit.Opt.Inlining

open IR Store Steps Bindings

variable {World : Type} {store store' : Store} {caller source target : Function}
  {call id : InstId} {meaning : Meaning World} {args vals : List ConstVal} {world : World}
  {config config' next inner : Config World} {outer values values' : Values}
  {front rest : List InstId} {inst : Inst} {val : Option ConstVal}
  {result : Option ConstVal × World}

/-- The operands of the call are what the callee is called with. -/
def PassedOn (store : Store) (call : InstId) (outer : Values) (vals : List ConstVal) : Prop :=
  ∀ (idx : Nat) arg, (store.inputs call)[idx]? = some arg → outer arg = vals[idx]?

theorem passedOn_of_map (areVals : (store.inputs call).map outer = vals.map some) :
    PassedOn store call outer vals := by
  intro idx arg isArg
  have same := congrArg (fun list => list[idx]?) areVals
  simp only [List.getElem?_map, isArg, Option.map_some] at same
  cases held : vals[idx]? with
  | none => simp [held] at same
  | some val =>
      rw [held] at same
      exact Option.some.inj same

/-- The definition of an argument comes before the call. -/
theorem not_argument {callee : FuncId} {bb : BlockId} (grounded : store.Grounded caller)
    (member : call ∈ store.listed caller) (isCall : store.kindOf call = some (.kCall callee))
    (bbMem : bb ∈ caller.bbs) (split : store.instructions bb = front ++ id :: rest)
    (defined : call = id ∨ store.DefinedBefore caller call bb front) : id ∉ store.inputs call := by
  rcases grounded.stored call member with ⟨inst, found⟩
  rw [kindOf_eq found, Option.some.injEq] at isCall
  have notPhi : inst.kind.isPhi = false := by
    rw [isCall]
    rfl
  rw [inputs_eq found]
  exact grounded.not_uses bbMem split found notPhi defined

/-- A phi takes the value of the entry for the block the execution comes from. -/
theorem step_phi {entries : List PhiEntry} {entry : PhiEntry} {held : ConstVal}
    (isRest : config.rest = id :: rest) (found : store.insts id = some inst)
    (kind : inst.kind = .kPhi entries) (inputs : inst.inputs = entries.map PhiEntry.val)
    (nodup : (entries.map PhiEntry.bb).Nodup) (member : entry ∈ entries)
    (isPred : config.pred = some entry.bb) (isHeld : config.entered entry.val = some held) :
    store.step meaning args config = some (.goes
      { config with values := Function.update config.values id (some held), rest }) := by
  have operands : inst.reads config = [some held] := by
    have one := filter_entry nodup member
    simp only [Inst.reads, kind, inputs, zip_vars, isPred, List.filter_map, Function.comp_def]
    rw [one, List.map_singleton, List.map_singleton, isHeld]
  rw [step_eq isRest found, operands, kind]
  rfl

namespace Expansion

section

variable (expansion : Expansion store store' caller source call)

/-- What an expansion needs to do as the call did. -/
structure Faithful : Prop where
  isCall : ∃ callee, store.kindOf call = some (.kCall callee)
  grounded : store.Grounded caller
  body : store.Grounded source
  apart : ∀ id ∈ store.listed caller, id ∉ store.listed source
  noParams : ∀ bb ∈ source.bbs, bb ≠ expansion.first → ∀ id ∈ store.instructions bb,
    ∀ idx, store.kindOf id ≠ some (.kParam idx)
  notEntered : ∀ bb ∈ source.bbs, expansion.first ∉ store.succs bb
  outgoing : ∀ succ ∈ store.succs expansion.bb, ¬ HasPhi store succ
  entryPhis : ¬ HasPhi store expansion.first
  entrySuccs : ∀ succ ∈ store.succs expansion.first, ¬ HasPhi store succ
  behind : ∀ id ∈ expansion.back, ∀ vars, store.kindOf id ≠ some (.kPhi vars)

/-- The block that has the instructions of a block of the callee. -/
def into (bb : BlockId) : BlockId := if bb = expansion.first then expansion.bb else bb

/-- An execution of the callee, and how far the other one is in its blocks. -/
structure Inside (outer : Values) (inner config' : Config World) : Prop where
  bbMem : inner.bb ∈ source.bbs
  placed : ∃ front, store.instructions inner.bb = front ++ inner.rest
  bb : config'.bb = expansion.into inner.bb
  trails : Trails store store' (paramsOf store expansion.first) expansion.after inner.rest
    config'.rest
  world : config'.world = inner.world
  outer : ∀ id ∈ store.listed caller, id ≠ call → Gives (outer id) (config'.values id)
  values : ∀ operand now, operand ∈ store.listed source →
    BoundTo store expansion.first call operand now →
      Gives (inner.values operand) (config'.values now)
  entered : inner.bb ≠ expansion.first → ∃ pred ∈ source.bbs, inner.pred = some pred ∧
    config'.pred = some (expansion.into pred) ∧ inner.bb ∈ store.succs pred ∧
    ∀ operand now, operand ∈ store.listed source →
      BoundTo store expansion.first call operand now →
        Gives (inner.entered operand) (config'.entered now)

/-- The other execution has left the blocks of the callee with its result. -/
structure Left (outer : Values) (result : Option ConstVal × World) (config' : Config World) :
    Prop where
  bb : config'.bb = expansion.after
  rest : config'.rest = expansion.back
  world : config'.world = result.2
  outer : ∀ id ∈ store.listed caller, id ≠ call → Gives (outer id) (config'.values id)
  value : Gives result.1 (config'.values expansion.value)

include expansion in
theorem call_listed : call ∈ store.listed caller := by
  apply Consistent.mem_listed expansion.bbMem
  rw [expansion.here]
  simp

end

variable {expansion : Expansion store store' caller source call}
  (faithful : expansion.Faithful)

include faithful

theorem Faithful.arg_listed {arg : InstId} (isArg : arg ∈ store.inputs call) :
    arg ∈ store.listed caller ∧ arg ≠ call := by
  have listed := expansion.call_listed
  refine ⟨faithful.grounded.inputs call listed arg isArg, ?_⟩
  rintro rfl
  rcases faithful.isCall with ⟨callee, isCall⟩
  exact not_argument faithful.grounded listed isCall expansion.bbMem expansion.here (.inl rfl) isArg

/-! ## Through the blocks of the callee -/

namespace Inside

variable (inside : expansion.Inside outer inner config')

include inside

omit faithful in
theorem listed (isRest : inner.rest = id :: rest) : id ∈ store.listed source := by
  rcases inside.placed with ⟨front, placed⟩
  exact Consistent.mem_listed inside.bbMem (by simp [placed, isRest])

/-- A value of the callee gets the same value in both executions. -/
theorem update (isRest : inner.rest = id :: rest)
    (notParam : id ∉ paramsOf store expansion.first) {operand now : InstId}
    (member : operand ∈ store.listed source)
    (boundTo : BoundTo store expansion.first call operand now) :
    Gives (Function.update inner.values id val operand)
      (Function.update config'.values id val now) := by
  have own := inside.listed isRest
  by_cases isId : operand = id
  · subst isId
    cases boundTo with
    | argument isParam _ _ _ => exact absurd isParam notParam
    | kept _ =>
        rw [Function.update_self, Function.update_self]
        exact .refl _
  · have nowOther : now ≠ id := by
      rintro rfl
      cases boundTo with
      | argument _ _ isArg _ =>
          exact faithful.apart now (faithful.arg_listed (List.mem_of_getElem? isArg)).1 own
      | kept _ => exact isId rfl
    rw [Function.update_of_ne isId, Function.update_of_ne nowOther]
    exact inside.values operand now member boundTo

/-- A parameter has the value of the argument, which is there already. -/
theorem param (passedOn : PassedOn store call outer vals)
    (isRest : inner.rest = id :: rest) (isParam : id ∈ paramsOf store expansion.first)
    (later : Trails store store' (paramsOf store expansion.first) expansion.after rest
      config'.rest)
    (steps : store.step meaning vals inner = some (.goes next)) :
    expansion.Inside outer next config' := by
  rcases mem_paramsOf isParam with ⟨-, idx, kind⟩
  rcases step_eq_some steps with ⟨again, others, inst, action, isRest', found, acts, performs⟩
  cases isRest.symm.trans isRest'
  rw [kindOf_eq found, Option.some.injEq] at kind
  rw [kind] at acts
  simp only [Meaning.act, Option.bind_eq_bind, Option.bind_eq_some_iff] at acts
  rcases acts with ⟨held, isHeld, equal⟩
  cases equal
  cases performs
  rcases inside.placed with ⟨front, placed⟩
  constructor
  case bbMem => exact inside.bbMem
  case placed => exact ⟨front ++ [id], by simp [placed, isRest]⟩
  case bb => exact inside.bb
  case trails => exact later
  case world => exact inside.world
  case outer => exact inside.outer
  case entered => exact inside.entered
  case values =>
    intro operand now member boundTo
    dsimp only
    by_cases isId : operand = id
    · subst isId
      cases boundTo with
      | kept notParam => exact absurd isParam notParam
      | argument _ isKind isArg _ =>
          rw [kindOf_eq found, kind, Option.some.injEq, InstKind.kParam.injEq] at isKind
          subst isKind
          rcases faithful.arg_listed (List.mem_of_getElem? isArg) with ⟨inCaller, notCall⟩
          have given := inside.outer now inCaller notCall
          rw [passedOn idx now isArg, isHeld] at given
          rwa [Function.update_self]
    · rw [Function.update_of_ne isId]
      exact inside.values operand now member boundTo

/-- What is kept of the callee reads the same values, or more. -/
theorem reads (isRest : inner.rest = id :: rest) (found : store.insts id = some inst)
    {inst' : Inst} (kind : inst'.kind = inst.kind)
    (inputs : List.Forall₂ (BoundTo store expansion.first call) inst.inputs inst'.inputs) :
    List.Forall₂ Gives (inst.reads inner) (inst'.reads config') := by
  have member := inside.listed isRest
  have operands : ∀ input ∈ inst.inputs, input ∈ store.listed source := by
    intro input isInput
    rw [← inputs_eq found] at isInput
    exact faithful.body.inputs id member input isInput
  have hasPhi : ∀ vars, inst.kind = .kPhi vars → HasPhi store inner.bb := by
    intro vars isPhi
    rcases inside.placed with ⟨front, placed⟩
    refine ⟨id, ?_, vars, by rw [kindOf_eq found, isPhi]⟩
    simp [placed, isRest]
  apply reads_gives kind inputs
  · intro _ input now isInput boundTo
    exact inside.values input now (operands input isInput) boundTo
  · intro vars isPhi
    have notFirst : inner.bb ≠ expansion.first := fun isFirst =>
      faithful.entryPhis (isFirst ▸ hasPhi vars isPhi)
    rcases inside.entered notFirst with ⟨pred, predMem, isPred, isPred', edge, entered⟩
    have predNotFirst : pred ≠ expansion.first := fun isFirst =>
      faithful.entrySuccs _ (isFirst ▸ edge) (hasPhi vars isPhi)
    refine ⟨?_, ?_⟩
    · rw [isPred, isPred', into, if_neg predNotFirst]
    · intro input now entry matched _ boundTo
      exact entered input now (operands input (List.of_mem_zip matched).1) boundTo

/-- What is kept of the callee does the same. -/
theorem acts {action : Action World} (isRest : inner.rest = id :: rest)
    (notParam : id ∉ paramsOf store expansion.first) (notRet : store.kindOf id ≠ some .kRet)
    (found : store.insts id = some inst)
    (acts : meaning.act vals inst.type inst.kind (inst.reads inner) inner.world = some action) :
    ∃ inst', store'.insts id = some inst' ∧
      meaning.act args inst'.type inst'.kind (inst'.reads config') config'.world =
        some action := by
  rcases inside.placed with ⟨front, placed⟩
  have inBlock : id ∈ store.instructions inner.bb := by simp [placed, isRest]
  have kindNotParam : ∀ idx, inst.kind ≠ .kParam idx := by
    intro idx isParam
    have kind : store.kindOf id = some (.kParam idx) := by rw [kindOf_eq found, isParam]
    by_cases isFirst : inner.bb = expansion.first
    · apply notParam
      rw [paramsOf, List.mem_filter, answer_isParam]
      exact ⟨isFirst ▸ inBlock, idx, kind⟩
    · exact faithful.noParams _ inside.bbMem isFirst id inBlock idx kind
  rcases expansion.calleeStays id (inside.listed isRest) notParam notRet inst found with
    ⟨inst', found', type, kind, inputs⟩
  refine ⟨inst', found', ?_⟩
  rw [type, kind, inside.world, Meaning.act_args kindNotParam]
  exact Meaning.act_gives (inside.reads faithful isRest found kind inputs) acts

/-- A value that the callee computes is there in the other execution as well. -/
theorem computes {rest' : List InstId}
    (isRest : inner.rest = id :: rest) (notParam : id ∉ paramsOf store expansion.first)
    (later : Trails store store' (paramsOf store expansion.first) expansion.after rest rest') :
    expansion.Inside outer { inner with values := Function.update inner.values id val, rest, world }
      { config' with
        values := Function.update config'.values id val, rest := rest', world } := by
  rcases inside.placed with ⟨front, placed⟩
  rw [isRest] at placed
  constructor
  case bbMem => exact inside.bbMem
  case placed => exact ⟨front ++ [id], by simp [placed]⟩
  case bb => exact inside.bb
  case trails => exact later
  case world => rfl
  case entered => exact inside.entered
  case values =>
    intro operand now member boundTo
    exact inside.update faithful isRest notParam member boundTo
  case outer =>
    intro key inCaller notCall
    have different : key ≠ id := fun same =>
      faithful.apart key inCaller (same ▸ inside.listed isRest)
    dsimp only
    rw [Function.update_of_ne different]
    exact inside.outer key inCaller notCall

/-- Both executions take an edge of the callee, which does not lead to its first block. -/
theorem moves {target : BlockId} (edge : target ∈ store.succs inner.bb) :
    expansion.Inside outer (store.enter target inner) (store'.enter target config') := by
  have targetMem := faithful.body.closed.succs_mem _ inside.bbMem _ edge
  have notFirst : target ≠ expansion.first := fun isFirst =>
    faithful.notEntered _ inside.bbMem (isFirst ▸ edge)
  constructor
  case bbMem => exact targetMem
  case placed => exact ⟨[], rfl⟩
  case bb => exact (if_neg notFirst).symm
  case trails => exact expansion.trails target targetMem notFirst
  case world => exact inside.world
  case outer => exact inside.outer
  case values => exact inside.values
  case entered =>
    exact fun _ => ⟨inner.bb, inside.bbMem, rfl, congrArg some inside.bb, edge, inside.values⟩

/-- One step of the callee that goes on. -/
theorem goes (passedOn : PassedOn store call outer vals)
    (steps : store.step meaning vals inner = some (.goes next)) : ∃ next',
    Reaches (store'.step meaning args) config' next' ∧ expansion.Inside outer next next' := by
  rcases step_eq_some steps with ⟨id, rest, inst, action, isRest, found, acts, performs⟩
  rcases inside.placed with ⟨front, placed⟩
  have trails := inside.trails
  rw [isRest] at trails placed
  generalize isNow : config'.rest = now at trails
  cases trails with
  | param isParam later =>
      exact ⟨config', .refl, inside.param faithful passedOn isRest isParam (isNow ▸ later) steps⟩
  | @keep _ _ rest' notParam notRet later =>
      have same : ∃ inst', store'.insts id = some inst' ∧ meaning.act args inst'.type inst'.kind
          (inst'.reads config') config'.world = some action :=
        inside.acts faithful isRest notParam notRet found acts
      rcases same with ⟨inst', found', acts'⟩
      have steps' : store'.step meaning args config' =
          some (store'.perform config' id rest' action) := by
        rw [step_eq isNow found', acts', Option.map_some]
      cases action with
      | value val world =>
          cases performs
          exact ⟨_, .single steps', inside.computes faithful isRest notParam later⟩
      | jump target =>
          cases performs
          have edge := (faithful.body.branches inside.bbMem placed found (Meaning.target_mem acts)).2
          exact ⟨_, .single steps', inside.moves faithful edge⟩
      | ret val => cases performs
  | ret isRet isJump =>
      rw [kindOf_eq found, Option.some.injEq] at isRet
      rw [isRet] at acts
      cases operands : inst.reads inner with
      | nil =>
          rw [operands] at acts
          cases acts
          cases performs
      | cons first others =>
          rw [operands] at acts
          simp only [Meaning.act, Option.map_eq_some_iff] at acts
          rcases acts with ⟨held, -, equal⟩
          cases equal
          cases performs

omit faithful in
/-- The jump that stands for a return goes behind the call. -/
theorem jumps (isRest : inner.rest = id :: rest) (isRet : store.kindOf id = some .kRet) :
    store'.step meaning args config' =
      some (.goes (store'.enter expansion.after config')) := by
  have trails := inside.trails
  rw [isRest] at trails
  generalize isNow : config'.rest = now at trails
  cases trails with
  | param isParam later =>
      rcases (mem_paramsOf isParam).2 with ⟨idx, kind⟩
      cases isRet.symm.trans kind
  | keep notParam notRet later => exact absurd isRet notRet
  | ret _ isJump =>
      rcases kindOf_ne_none.mp (isJump ▸ Option.some_ne_none _) with ⟨inst, found⟩
      rw [kindOf_eq found, Option.some.injEq] at isJump
      rw [step_eq isNow found, isJump]
      rfl

/-- What is returned is the value of the operand. -/
theorem returned (isRest : inner.rest = id :: rest) (found : store.insts id = some inst)
    (isRet : inst.kind = .kRet) {value : InstId}
    (fromHere : ReturnedFrom store expansion.first call id value)
    (acts : meaning.act vals inst.type inst.kind (inst.reads inner) inner.world =
      some (.ret val)) : ∃ held, val = some held ∧ config'.values value = some held := by
  rcases fromHere with ⟨operand, isOperand, boundTo⟩
  have member := faithful.body.inputs id (inside.listed isRest) operand
    (List.mem_of_getElem? isOperand)
  rw [inputs_eq found] at isOperand
  have notPhi : inst.kind.isPhi = false := by
    rw [isRet]
    rfl
  rw [reads_of_not_phi notPhi, isRet] at acts
  cases inputs : inst.inputs with
  | nil =>
      rw [inputs] at isOperand
      cases isOperand
  | cons first others =>
      rw [inputs] at isOperand acts
      cases isOperand
      simp only [List.map_cons, Meaning.act, Option.map_eq_some_iff] at acts
      rcases acts with ⟨held, isHeld, equal⟩
      cases equal
      exact ⟨held, rfl, inside.values _ value member boundTo held isHeld⟩

/-- A return of the callee leads behind the call. -/
theorem returns (steps : store.step meaning vals inner = some (.returns result)) : ∃ last,
    Reaches (store'.step meaning args) config' last ∧ expansion.Left outer result last := by
  rcases step_eq_some steps with ⟨id, rest, inst, action, isRest, found, acts, performs⟩
  cases action with
  | value _ _ | jump _ => cases performs
  | ret val =>
      cases performs
      have isRet := Meaning.kind_of_act_ret acts
      have kind : store.kindOf id = some .kRet := by rw [kindOf_eq found, isRet]
      have jumps : store'.step meaning args config' =
          some (.goes (store'.enter expansion.after config')) := inside.jumps isRest kind
      rcases inside.placed with ⟨front, placed⟩
      have inBlock : id ∈ store.instructions inner.bb := by simp [placed, isRest]
      cases expansion.returning with
      | single lists returned =>
          have fromHere := returned id (inside.listed isRest) kind
          rcases inside.returned faithful isRest found isRet fromHere acts with
            ⟨held, rfl, isHeld⟩
          refine ⟨_, .single jumps, rfl, lists, inside.world, inside.outer, ?_⟩
          intro other isOther
          exact isHeld.trans isOther
      | phi lists elsewhere foundPhi kindPhi inputs nodup absent returned =>
          rcases returned inner.bb inside.bbMem id inBlock kind with
            ⟨entry, member, isBB, fromHere⟩
          rcases inside.returned faithful isRest found isRet fromHere acts with
            ⟨held, rfl, isHeld⟩
          have notFirst : inner.bb ≠ expansion.first := fun isFirst =>
            elsewhere id (isFirst ▸ inBlock) kind
          have isPred : some config'.bb = some entry.bb := by
            rw [inside.bb, into, if_neg notFirst, isBB]
          refine ⟨_, .tail (.single jumps) (step_phi lists foundPhi kindPhi inputs nodup member
            isPred isHeld), rfl, rfl, inside.world, ?_, ?_⟩
          · intro key inCaller notCall
            have different : key ≠ expansion.value := by
              rintro rfl
              rcases faithful.grounded.stored _ inCaller with ⟨other, stored⟩
              cases absent.symm.trans stored
            dsimp only
            rw [Function.update_of_ne different]
            exact inside.outer key inCaller notCall
          · dsimp only
            rw [Function.update_self]
            exact .refl _

end Inside

end Expansion

end LeechJit.Opt.Inlining
