import LeechJit.Opt.InlineBody
import LeechJit.Opt.InlineMatching

/-! # Results of executions after inlining

Outside of the callee both executions step alike, and a use of the call reads what the callee
returned when the call was executed last.
-/

namespace LeechJit.Opt.Inlining

open IR Store Steps Bindings

variable {World : Type} {store store' : Store} {caller source target : Function}
  {call id : InstId} {meaning : Meaning World} {args vals : List ConstVal} {world : World}
  {config config' next inner : Config World} {outer values values' : Values}
  {front rest : List InstId} {inst : Inst} {val : Option ConstVal}
  {result : Option ConstVal × World}

/-- What a meaning says of the calls of a function is what its executions result in. -/
def Realizes (store : Store) (meaning : Meaning World) (callee : FuncId) (source : Function) :
    Prop :=
  ∀ vals world result, meaning.call callee vals world = some result →
    store.Results source meaning vals world result

namespace Expansion

section

variable (expansion : Expansion store store' caller source call)

/-- The block that has the end of a block of the caller. -/
def exit (bb : BlockId) : BlockId := if bb = expansion.bb then expansion.after else bb

/-- The values of the caller are there, with what the callee returned for the call. -/
structure Carries (defined : Prop) (values values' : Values) : Prop where
  others : ∀ id ∈ store.listed caller, id ≠ call → Gives (values id) (values' id)
  called : defined → Gives (values call) (values' expansion.value)

/-- Where the executions are in the block of the call, or in another one. -/
inductive Place (front : List InstId) (config config' : Config World) : Prop
  | other (notBB : config.bb ≠ expansion.bb) (bb : config'.bb = config.bb)
      (rest : config'.rest = config.rest)
  | before {middle : List InstId} (isBB : config.bb = expansion.bb) (bb : config'.bb = config.bb)
      (rest : config.rest = middle ++ call :: expansion.back)
      (rest' : config'.rest = middle ++ expansion.entry)
  | behind (isBB : config.bb = expansion.bb) (called : call ∈ front)
      (bb : config'.bb = expansion.after) (rest : config'.rest = config.rest)

/-- Both executions are in the caller, with `front` behind the one before. -/
structure Outside (front : List InstId) (config config' : Config World) : Prop where
  bbMem : config.bb ∈ caller.bbs
  placed : store.instructions config.bb = front ++ config.rest
  place : expansion.Place front config config'
  world : config'.world = config.world
  values : expansion.Carries (store.DefinedBefore caller call config.bb front) config.values
    config'.values
  entered : call ∉ front → config'.pred = config.pred.map expansion.exit ∧
    ∀ pred, config.pred = some pred → config.bb ∈ store.succs pred ∧
      expansion.Carries (store.DefinedAtEnd caller call pred) config.entered config'.entered

end

variable {expansion : Expansion store store' caller source call}
  (faithful : expansion.Faithful)

include faithful

/-- What comes after the call in its block. -/
theorem Faithful.mem_back {bb : BlockId} (bbMem : bb ∈ caller.bbs)
    (placed : store.instructions bb = front ++ id :: rest) (called : call ∈ front) :
    id ∈ expansion.back := by
  have inBlock : call ∈ store.instructions bb := by simp [placed, called]
  have inBB : call ∈ store.instructions expansion.bb := by simp [expansion.here]
  cases faithful.grounded.home_unique bbMem expansion.bbMem inBlock inBB
  rcases List.append_of_mem called with ⟨before, between, rfl⟩
  rw [List.append_assoc, List.cons_append] at placed
  cases (faithful.grounded.split_unique expansion.bbMem expansion.here placed).1
  have parts := expansion.here.symm.trans placed
  rw [List.append_cancel_left_eq, List.cons.injEq] at parts
  rw [parts.2]
  simp

omit faithful in
theorem Carries.gives {defined : Prop} (carries : expansion.Carries defined values values')
    (member : id ∈ store.listed caller) (isDefined : id = call → defined) :
    Gives (values id) (values' (subst call expansion.value id)) := by
  by_cases isCall : id = call
  · subst isCall
    rw [subst_self]
    exact carries.called (isDefined rfl)
  · rw [subst_of_ne isCall]
    exact carries.others id member isCall

omit faithful in
theorem Carries.update {defined defined' : Prop}
    (carries : expansion.Carries defined values values') (notCall : id ≠ call)
    (still : defined' → defined ∧ id ≠ expansion.value) :
    expansion.Carries defined' (Function.update values id val)
      (Function.update values' id val) where
  others key member keyNotCall := by
    by_cases same : key = id
    · rw [same, Function.update_self, Function.update_self]
      exact .refl _
    · rw [Function.update_of_ne same, Function.update_of_ne same]
      exact carries.others key member keyNotCall
  called isDefined := by
    rcases still isDefined with ⟨before, different⟩
    rw [Function.update_of_ne notCall.symm, Function.update_of_ne different.symm]
    exact carries.called before

namespace Outside

variable (outside : expansion.Outside front config config')

include outside

omit faithful in
theorem listed (isRest : config.rest = id :: rest) : id ∈ store.listed caller :=
  Consistent.mem_listed outside.bbMem (by simp [outside.placed, isRest])

/-- The other instructions of the caller read the same values, or more. -/
theorem reads (isRest : config.rest = id :: rest) (notCall : id ≠ call)
    (found : store.insts id = some inst) {inst' : Inst} (kind : inst'.kind = inst.kind)
    (inputs : inst'.inputs = inst.inputs.map (subst call expansion.value)) :
    List.Forall₂ Gives (inst.reads config) (inst'.reads config') := by
  have member := outside.listed isRest
  have placed := outside.placed
  rw [isRest] at placed
  have operands : ∀ input ∈ inst.inputs, input ∈ store.listed caller := by
    intro input isInput
    rw [← inputs_eq found] at isInput
    exact faithful.grounded.inputs id member input isInput
  have related : List.Forall₂ (fun input now => now = subst call expansion.value input)
      inst.inputs inst'.inputs := by
    rw [inputs, List.forall₂_map_right_iff, List.forall₂_same]
    exact fun _ _ => rfl
  apply reads_gives kind related
  · rintro notPhi input now isInput rfl
    apply outside.values.gives (operands input isInput)
    rintro rfl
    exact faithful.grounded.usesDefined.uses _ outside.bbMem front id rest placed inst found notPhi
      input isInput (Set.mem_univ _)
  · intro vars isPhi
    have inBlock : id ∈ store.instructions config.bb := by simp [placed]
    have hasPhi : HasPhi store config.bb :=
      ⟨id, inBlock, vars, by rw [kindOf_eq found, isPhi]⟩
    have ahead : call ∉ front := fun called =>
      faithful.behind id (faithful.mem_back outside.bbMem placed called) vars
        (by rw [kindOf_eq found, isPhi])
    rcases outside.entered ahead with ⟨isPred', entered⟩
    cases isPred : config.pred with
    | none =>
        refine ⟨by rw [isPred', isPred, Option.map_none], ?_⟩
        intro input now entry _ fromPred
        cases fromPred
    | some pred =>
        rcases entered pred isPred with ⟨edge, carries⟩
        have notBB : pred ≠ expansion.bb := fun isBB =>
          faithful.outgoing _ (isBB ▸ edge) hasPhi
        refine ⟨?_, ?_⟩
        · rw [isPred', isPred, Option.map_some, exit, if_neg notBB]
        · rintro input now entry matched fromPred rfl
          cases fromPred
          apply carries.gives (operands input (List.of_mem_zip matched).1)
          rintro rfl
          exact faithful.grounded.usesDefined.phiUses _ outside.bbMem id inBlock inst vars found isPhi
            input entry matched (Set.mem_univ _)

/-- The other instructions of the caller do the same. -/
theorem acts {action : Action World} (isRest : config.rest = id :: rest) (notCall : id ≠ call)
    (found : store.insts id = some inst)
    (acts : meaning.act args inst.type inst.kind (inst.reads config) config.world =
      some action) : ∃ inst', store'.insts id = some inst' ∧
      meaning.act args inst'.type inst'.kind (inst'.reads config') config'.world =
        some action := by
  rcases expansion.callerStays id (outside.listed isRest) notCall inst found with
    ⟨inst', found', type, kind, inputs⟩
  refine ⟨inst', found', ?_⟩
  rw [type, kind, outside.world]
  exact Meaning.act_gives (outside.reads faithful isRest notCall found kind inputs) acts

omit faithful in
/-- Both executions come to the same instruction, unless it is the call. -/
theorem ahead (isRest : config.rest = id :: rest) (notCall : id ≠ call) :
    ∃ rest', config'.rest = id :: rest' ∧ ∀ next next' : Config World,
      next.bb = config.bb → next'.bb = config'.bb → next.rest = rest → next'.rest = rest' →
        expansion.Place (front ++ [id]) next next' := by
  cases outside.place with
  | other notBB bb same =>
      refine ⟨rest, same.trans isRest, ?_⟩
      intro next next' isBB isBB' isNext isNext'
      exact .other (isBB ▸ notBB) (isBB'.trans (bb.trans isBB.symm)) (isNext'.trans isNext.symm)
  | @before middle isBB bb here there =>
      cases middle with
      | nil =>
          rw [isRest] at here
          exact absurd (List.cons.inj here).1 notCall
      | cons first middle =>
          rw [isRest, List.cons_append, List.cons.injEq] at here
          rcases here with ⟨rfl, here⟩
          refine ⟨middle ++ expansion.entry, there, ?_⟩
          intro next next' nextBB nextBB' isNext isNext'
          exact .before (nextBB.trans isBB) (nextBB'.trans (bb.trans nextBB.symm))
            (isNext.trans here) isNext'
  | behind isBB called bb same =>
      refine ⟨rest, same.trans isRest, ?_⟩
      intro next next' nextBB nextBB' isNext isNext'
      exact .behind (nextBB.trans isBB) (List.mem_append_left _ called) (nextBB'.trans bb)
        (isNext'.trans isNext.symm)

/-- The definition of an argument is not executed again before the call is. -/
theorem ne_value (isRest : config.rest = id :: rest)
    (defined : store.DefinedBefore caller call config.bb front) : id ≠ expansion.value := by
  rintro rfl
  have isArg := expansion.valueOf (outside.listed isRest)
  have placed := outside.placed
  rw [isRest] at placed
  rcases faithful.isCall with ⟨callee, isCall⟩
  exact not_argument faithful.grounded expansion.call_listed isCall outside.bbMem placed
    (.inr defined) isArg

end Outside

omit faithful in
theorem place_entered {bb : BlockId} (isBB : config.bb = bb) (isBB' : config'.bb = bb)
    (bbMem : bb ∈ caller.bbs) (rest : config.rest = store.instructions bb)
    (rest' : config'.rest = store'.instructions bb) : expansion.Place [] config config' := by
  by_cases same : bb = expansion.bb
  · subst same
    exact .before isBB (isBB'.trans isBB.symm) (rest.trans expansion.here)
      (rest'.trans expansion.there)
  · refine .other (isBB ▸ same) (isBB'.trans isBB.symm) ?_
    rw [rest', rest, expansion.others bb bbMem same]

theorem outside_start (sameRoot : root target = root caller) :
    expansion.Outside [] (store.start caller world) (store'.start target world) where
  bbMem := faithful.grounded.closed.entry_mem
  placed := rfl
  place := place_entered rfl sameRoot faithful.grounded.closed.entry_mem rfl
    (congrArg store'.instructions sameRoot)
  world := rfl
  values := ⟨fun _ _ _ => .of_none, fun _ => .of_none⟩
  entered _ := by
    refine ⟨rfl, ?_⟩
    intro pred isPred
    cases isPred

namespace Outside

variable (outside : expansion.Outside front config config')

include outside

theorem afterValue (isRest : config.rest = id :: rest) (notCall : id ≠ call)
    (found : store.insts id = some inst)
    (acts : meaning.act args inst.type inst.kind (inst.reads config) config.world =
      some (.value val world)) : ∃ next', store'.step meaning args config' = some (.goes next') ∧
      expansion.Outside (front ++ [id])
        { config with values := Function.update config.values id val, rest, world } next' := by
  rcases outside.acts faithful isRest notCall found acts with ⟨inst', found', acts'⟩
  rcases outside.ahead isRest notCall with ⟨rest', isRest', place⟩
  refine ⟨_, by rw [step_eq isRest' found', acts', Option.map_some, perform], ?_⟩
  constructor
  case bbMem => exact outside.bbMem
  case placed => simp [outside.placed, isRest]
  case place => exact place _ _ rfl rfl rfl rfl
  case world => rfl
  case values =>
    apply outside.values.update notCall
    intro defined
    have before : store.DefinedBefore caller call config.bb front := by
      rcases defined with inFront | outside
      · rw [List.mem_append, List.mem_singleton] at inFront
        exact .inl (inFront.resolve_right notCall.symm)
      · exact .inr outside
    exact ⟨before, outside.ne_value faithful isRest before⟩
  case entered =>
    intro notFront
    exact outside.entered fun inFront => notFront (List.mem_append_left _ inFront)

theorem afterJump {target : BlockId} (isRest : config.rest = id :: rest) (notCall : id ≠ call)
    (found : store.insts id = some inst)
    (acts : meaning.act args inst.type inst.kind (inst.reads config) config.world =
      some (.jump target)) :
    store'.step meaning args config' = some (.goes (store'.enter target config')) ∧
      expansion.Outside [] (store.enter target config) (store'.enter target config') := by
  rcases outside.acts faithful isRest notCall found acts with ⟨inst', found', acts'⟩
  rcases outside.ahead isRest notCall with ⟨rest', isRest', -⟩
  have placed := outside.placed
  rw [isRest] at placed
  rcases faithful.grounded.branches outside.bbMem placed found (Meaning.target_mem acts) with
    ⟨rfl, edge⟩
  have targetMem := faithful.grounded.closed.succs_mem _ outside.bbMem _ edge
  have isExit : config'.bb = expansion.exit config.bb := by
    rw [exit]
    cases outside.place with
    | other notBB bb _ => rw [if_neg notBB, bb]
    | before _ _ here _ =>
        have isLast : call ∈ config.rest := by simp [here]
        rw [isRest, List.mem_singleton] at isLast
        exact absurd isLast.symm notCall
    | behind isBB _ bb _ => rw [if_pos isBB, bb]
  have atEnd : store.DefinedAtEnd caller call config.bb →
      store.DefinedBefore caller call config.bb front :=
    definedBefore_of_atEnd placed notCall.symm
  refine ⟨by rw [step_eq isRest' found', acts', Option.map_some, perform], ?_⟩
  constructor
  case bbMem => exact targetMem
  case placed => rfl
  case place => exact place_entered rfl rfl targetMem rfl rfl
  case world => exact outside.world
  case values =>
    refine ⟨outside.values.others, ?_⟩
    exact fun defined => outside.values.called (atEnd (definedAtEnd_of_edge edge defined))
  case entered =>
    refine fun _ => ⟨congrArg some isExit, ?_⟩
    intro pred isPred
    cases isPred
    exact ⟨edge, outside.values.others, fun defined => outside.values.called (atEnd defined)⟩

theorem at_call (isRest : config.rest = call :: rest) : config.bb = expansion.bb ∧
    config'.bb = expansion.bb ∧ rest = expansion.back ∧ config'.rest = expansion.entry := by
  have placed := outside.placed
  have grounded := faithful.grounded
  rw [isRest] at placed
  have inBlock : call ∈ store.instructions config.bb := by simp [placed]
  have inBB : call ∈ store.instructions expansion.bb := by simp [expansion.here]
  have isBB := grounded.home_unique outside.bbMem expansion.bbMem inBlock inBB
  have front_eq := (grounded.split_unique expansion.bbMem (isBB ▸ placed) expansion.here).1
  have parts := (isBB ▸ placed).symm.trans expansion.here
  rw [front_eq, List.append_cancel_left_eq, List.cons.injEq] at parts
  cases outside.place with
  | other notBB _ _ => exact absurd isBB notBB
  | @before middle _ bb here there =>
      have again := outside.placed
      rw [here, isBB, ← List.append_assoc] at again
      have longer := (grounded.split_unique expansion.bbMem expansion.here again).1
      rw [front_eq, List.self_eq_append_right] at longer
      rw [longer, List.nil_append] at there
      exact ⟨isBB, bb.trans isBB, parts.2, there⟩
  | behind _ called _ _ =>
      rw [front_eq] at called
      rcases List.append_of_mem called with ⟨before, between, split⟩
      have again := expansion.here
      rw [split, List.append_assoc, List.cons_append] at again
      have shorter := (grounded.split_unique expansion.bbMem expansion.here again).1
      rw [split] at shorter
      simp at shorter

/-- At the call the other execution is at the beginning of the callee. -/
theorem enters (isRest : config.rest = call :: rest) :
    expansion.Inside config.values (store.start source config.world) config' := by
  rcases outside.at_call faithful isRest with ⟨-, isBB, -, isRest'⟩
  constructor
  case bbMem => exact faithful.body.closed.entry_mem
  case placed => exact ⟨[], rfl⟩
  case bb =>
    rw [isBB, into]
    exact (if_pos expansion.isFirst).symm
  case trails =>
    rw [isRest']
    have trails := expansion.entryTrails
    rwa [← expansion.isFirst] at trails ⊢
  case world => exact outside.world
  case outer => exact outside.values.others
  case values => exact fun _ _ _ _ => .of_none
  case entered => exact fun notFirst => absurd expansion.isFirst notFirst

/-- While one execution is at the call, the other one goes through the callee. -/
theorem afterCall {callee : FuncId} (isCall : store.kindOf call = some (.kCall callee))
    (realizes : Realizes store meaning callee source) (isRest : config.rest = call :: rest)
    (found : store.insts call = some inst)
    (acts : meaning.act args inst.type inst.kind (inst.reads config) config.world =
      some (.value val world)) : ∃ next', Reaches (store'.step meaning args) config' next' ∧
      expansion.Outside (front ++ [call])
        { config with values := Function.update config.values call val, rest, world } next' := by
  rcases outside.at_call faithful isRest with ⟨isBB, -, rfl, -⟩
  rw [kindOf_eq found, Option.some.injEq] at isCall
  have notPhi : inst.kind.isPhi = false := by
    rw [isCall]
    rfl
  rw [reads_of_not_phi notPhi, isCall] at acts
  rcases Meaning.act_call acts with ⟨vals, returned, areVals, calls, equal⟩
  cases equal
  have passedOn : PassedOn store call config.values vals := by
    apply passedOn_of_map
    rw [inputs_eq found, areVals]
  have carried : ∃ last, Reaches (store'.step meaning args) config' last ∧
      expansion.Left config.values returned last :=
    Completes.carried (fun _ _ _ inside steps => inside.goes faithful passedOn steps)
      (fun _ _ _ inside steps => inside.returns faithful steps)
      (realizes vals config.world returned calls) (outside.enters faithful isRest)
  rcases carried with ⟨last, reaches, left⟩
  refine ⟨last, reaches, ?_⟩
  constructor
  case bbMem => exact outside.bbMem
  case placed => simp [outside.placed, isRest]
  case place => exact .behind isBB (by simp) left.bb left.rest
  case world => exact left.world
  case entered => exact fun notFront => absurd (by simp) notFront
  case values =>
    constructor
    · intro key inCaller notCall
      dsimp only
      rw [Function.update_of_ne notCall]
      exact left.outer key inCaller notCall
    · intro _
      dsimp only
      rw [Function.update_self]
      exact left.value

/-- One step of the caller that goes on. -/
theorem goes {callee : FuncId} (isCall : store.kindOf call = some (.kCall callee))
    (realizes : Realizes store meaning callee source)
    (steps : store.step meaning args config = some (.goes next)) : ∃ next',
    Reaches (store'.step meaning args) config' next' ∧
      ∃ front', expansion.Outside front' next next' := by
  rcases step_eq_some steps with ⟨id, rest, inst, action, isRest, found, acts, performs⟩
  cases action with
  | value val world =>
      cases performs
      by_cases here : id = call
      · subst here
        rcases outside.afterCall faithful isCall realizes isRest found acts with
          ⟨next', reaches, outside'⟩
        exact ⟨next', reaches, _, outside'⟩
      · rcases outside.afterValue faithful isRest here found acts with ⟨next', steps', outside'⟩
        exact ⟨next', .single steps', _, outside'⟩
  | jump target =>
      cases performs
      have notCall : id ≠ call := by
        rintro rfl
        rw [kindOf_eq found, Option.some.injEq] at isCall
        rw [isCall] at acts
        rcases Meaning.act_call acts with ⟨_, _, -, -, equal⟩
        cases equal
      rcases outside.afterJump faithful isRest notCall found acts with ⟨steps', outside'⟩
      exact ⟨_, .single steps', _, outside'⟩
  | ret val => cases performs

theorem returns {callee : FuncId} (isCall : store.kindOf call = some (.kCall callee))
    (steps : store.step meaning args config = some (.returns result)) :
    store'.step meaning args config' = some (.returns result) := by
  rcases step_eq_some steps with ⟨id, rest, inst, action, isRest, found, acts, performs⟩
  cases action with
  | value _ _ | jump _ => cases performs
  | ret val =>
      cases performs
      have notCall : id ≠ call := by
        rintro rfl
        rw [kindOf_eq found, Meaning.kind_of_act_ret acts] at isCall
        cases isCall
      rcases outside.acts faithful isRest notCall found acts with ⟨inst', found', acts'⟩
      rcases outside.ahead isRest notCall with ⟨rest', isRest', -⟩
      rw [step_eq isRest' found', acts', Option.map_some, perform, outside.world]

end Outside

/-- The function with the expansion ends with the results of the one with the call. -/
theorem results {callee : FuncId} (isCall : store.kindOf call = some (.kCall callee))
    (realizes : Realizes store meaning callee source) (sameRoot : root target = root caller)
    (completes : store.Results caller meaning args world result) :
    store'.Results target meaning args world result := by
  have goes : ∀ config config' next : Config World,
      (∃ front, expansion.Outside front config config') →
      store.step meaning args config = some (.goes next) → ∃ next',
        Reaches (store'.step meaning args) config' next' ∧
          ∃ front, expansion.Outside front next next' := by
    rintro config config' next ⟨front, outside⟩ steps
    exact outside.goes faithful isCall realizes steps
  have returns : ∀ (config config' : Config World) result,
      (∃ front, expansion.Outside front config config') →
      store.step meaning args config = some (.returns result) → ∃ last,
        Reaches (store'.step meaning args) config' last ∧
          store'.step meaning args last = some (.returns result) := by
    rintro config config' result ⟨front, outside⟩ steps
    exact ⟨config', .refl, outside.returns faithful isCall steps⟩
  rcases Completes.carried goes returns completes ⟨[], outside_start faithful sameRoot⟩ with
    ⟨last, reaches, ends⟩
  exact reaches.completes (.returns ends)

end Expansion

/-! ## Inlining a call -/

/-- Parameters stand in the first block only, which is not entered again. -/
structure EnteredOnce (store : Store) (source : Function) : Prop where
  params : ∀ bb ∈ source.bbs, bb ≠ root source → ∀ id ∈ store.instructions bb, ∀ idx,
    store.kindOf id ≠ some (.kParam idx)
  notEntered : ∀ bb ∈ source.bbs, root source ∉ store.succs bb

theorem enteredOnce_of_paramsOf
    (params : ∀ bb ∈ source.bbs, bb ≠ root source → paramsOf store bb = [])
    (notEntered : ∀ bb ∈ source.bbs, root source ∉ store.succs bb) :
    EnteredOnce store source where
  params bb bbMem notRoot id inBlock idx isParam := by
    have member : id ∈ paramsOf store bb := by
      rw [paramsOf, List.mem_filter, answer_isParam]
      exact ⟨inBlock, idx, isParam⟩
    rw [params bb bbMem notRoot] at member
    cases member
  notEntered := notEntered

theorem inlinable_of_wellFormed {func callee : FuncId}
    (found : store.functions callee = some source) (different : callee ≠ func)
    (value : source.resType ≠ .None) (wellFormed : store.WellFormed source) :
    Inlinable store func callee := by
  have bbs : store.shape.bbs callee = source.bbs := Shape.bbs_eq found
  refine ⟨⟨different, ?_⟩, ?_, ?_⟩
  · intro function again
    cases Option.some.inj (found.symm.trans again)
    exact value
  · rw [bbs]
    exact edgesAgree_of_wellFormed wellFormed
  · intro first isFirst
    rw [bbs] at isFirst
    rcases wellFormed.branches first (List.mem_of_mem_head? isFirst) with
      ⟨front, last, inst, ends, stored, terminates, -⟩
    exact ⟨last, inst.kind, by rw [ends, List.getLast?_concat], kindOf_eq stored, terminates⟩

section Site

variable {func callee : FuncId} {bb : BlockId} (site : Site func call store store')

theorem Site.first_eq : site.first = root site.source := by
  rw [root, site.blocks]
  rfl

theorem Site.rootBB_store : rootBB store site.callee = .ok site.first := by
  have nonempty : site.source.bbs ≠ [] := by simp [site.blocks]
  rw [rootBB, function_eq_ok.mpr site.sourceFound, Result.ok_bind, makeBBGraph_eq nonempty,
    site.first_eq]
  rfl

theorem Site.expansion_first (expansion : Expansion store store' site.caller site.source call) :
    expansion.first = site.first :=
  expansion.isFirst.symm.trans site.first_eq.symm

theorem Site.expansion_bb (expansion : Expansion store store' site.caller site.source call) :
    expansion.bb = site.bb := by
  have here : call ∈ store.instructions expansion.bb := by simp [expansion.here]
  have there : call ∈ store.instructions site.bb := by simp [site.here]
  exact site.tidy.settled.home_unique here there

theorem Site.faithful (prepared : site.Prepared) (enteredOnce : EnteredOnce store site.source)
    (behind : ∀ bb ∈ site.caller.bbs, ∀ front back,
      store.instructions bb = front ++ call :: back → ∀ id ∈ back, ∀ vars,
        store.kindOf id ≠ some (.kPhi vars))
    (expansion : Expansion store store' site.caller site.source call) : expansion.Faithful := by
  have isFirst := site.expansion_first expansion
  have isBB := site.expansion_bb expansion
  constructor
  case isCall => exact ⟨site.callee, site.isCall⟩
  case grounded => exact prepared.caller
  case body => exact prepared.callee
  case apart =>
    intro id inCaller inCallee
    exact site.not_callee_of_caller ((mem_listed_iff site.callerFound).mp inCaller)
      ((mem_listed_iff site.sourceFound).mp inCallee)
  case noParams =>
    intro bb bbMem notFirst
    rw [← expansion.isFirst] at notFirst
    exact enteredOnce.params bb bbMem notFirst
  case notEntered =>
    rw [← expansion.isFirst]
    exact enteredOnce.notEntered
  case outgoing =>
    rw [isBB]
    exact prepared.fits.outgoing
  case entryPhis =>
    rw [isFirst]
    exact prepared.fits.entryPhis site.first site.head_callee
  case entrySuccs =>
    rw [isFirst]
    exact prepared.fits.entrySuccs site.first site.head_callee
  case behind => exact behind _ expansion.bbMem _ _ expansion.here

/-- The blocks of the callee come behind those of the caller. -/
theorem Site.exists_target : ∃ target, store'.functions func = some target ∧
    root target = root site.caller := by
  refine ⟨_, (site.functions func).trans (if_pos rfl), ?_⟩
  have bbMem := Site.Prepared.bb_mem site
  cases bbs : site.caller.bbs with
  | nil =>
      rw [bbs] at bbMem
      cases bbMem
  | cons first others => simp [root, bbs]

end Site

/-- A call in a well-formed function that is inlined has a site, and all that its inlining
rests on. -/
theorem exists_prepared {func callee : FuncId} {bb : BlockId} (built : store.Built)
    (callerFound : store.functions func = some caller)
    (sourceFound : store.functions callee = some source)
    (wellFormed : store.WellFormed caller) (calleeWellFormed : store.WellFormed source)
    (different : callee ≠ func) (value : source.resType ≠ .None) (bbMem : bb ∈ caller.bbs)
    (inBlock : call ∈ store.instructions bb) (isCall : store.kindOf call = some (.kCall callee))
    (seated : Seated store (root source) call) (fits : Fits store bb callee)
    (inlines : doInline func store call = .ok store') :
    ∃ site : Site func call store store', site.callee = callee ∧ site.caller = caller ∧
      site.source = source ∧ site.Prepared := by
  have callerBBs : store.shape.bbs func = caller.bbs := Shape.bbs_eq callerFound
  have calledIn : CalledIn store func call := ⟨bb, callerBBs.symm ▸ bbMem, inBlock⟩
  have sites : Nonempty (Site func call store store') := by
    apply doInline_site built.tidy calledIn _ _ inlines
    · intro again isAgain
      cases isCall.symm.trans isAgain
      exact different
    · intro again function isAgain found
      cases isCall.symm.trans isAgain
      cases sourceFound.symm.trans found
      exact value
  rcases sites with ⟨site⟩
  have sameCallee : site.callee = callee := by
    have same := site.isCall.symm.trans isCall
    rwa [Option.some.injEq, InstKind.kCall.injEq] at same
  have sameCaller : site.caller = caller :=
    Option.some.inj (site.callerFound.symm.trans callerFound)
  have sameSource : site.source = source := by
    have found := site.sourceFound
    rw [sameCallee] at found
    exact Option.some.inj (found.symm.trans sourceFound)
  have sameBB : site.bb = bb := by
    have here : call ∈ store.instructions site.bb := by simp [site.here]
    exact built.tidy.settled.home_unique here inBlock
  subst sameCallee sameCaller sameSource sameBB
  rw [← site.first_eq] at seated
  refine ⟨site, rfl, rfl, rfl, ?_⟩
  exact {
    ledger := .of_built built, bindable := .of_built built site.rootBB_store, seated,
    caller := wellFormed.grounded, callee := calleeWellFormed.grounded,
    inlinable := inlinable_of_wellFormed sourceFound different value calleeWellFormed, fits }

/-- Function 0 of `subtraction`, and function 1 before it is inlined into. -/
def subtracts : Function :=
  { bbs := [0], resType := .I64, args := [.I64, .I64] }

def callsSubtracts : Function :=
  { bbs := [1], resType := .I64 }

/-- Differences, and calls that yield them. -/
def subtracting : Meaning Unit where
  binOp
    | .kSub, .I64 lhs, .I64 rhs => some (.I64 (lhs - rhs))
    | _, _, _ => none
  unaryOp _ _ := none
  cast _ _ := none
  isTrue _ := false
  call
    | 0, [.I64 lhs, .I64 rhs], world => some (some (.I64 (lhs - rhs)), world)
    | _, _, _ => none

theorem call_subtracting {result : Option ConstVal × Unit}
    (calls : subtracting.call 0 vals () = some result) :
    ∃ lhs rhs, vals = [.I64 lhs, .I64 rhs] ∧ result = (some (.I64 (lhs - rhs)), ()) := by
  unfold subtracting at calls
  dsimp only at calls
  split at calls
  · cases calls
    exact ⟨_, _, rfl, rfl⟩
  · cases calls

/-- No instruction is a phi. -/
theorem not_hasPhi (tidy : store.Tidy) (noPhis : ∀ id < store.nextInst, phiVars store id = none)
    (bb : BlockId) : ¬ HasPhi store bb := by
  rintro ⟨id, inBlock, vars, isPhi⟩
  have below : id < store.nextInst := by
    apply tidy.settled.allocated
    rw [tidy.settled.knows bb id inBlock]
    simp
  cases (noPhis id below).symm.trans (phiVars_eq_some.mpr isPhi)

/-- Without phis only the returns matter. -/
theorem fits_of_noPhis {callee : FuncId} {bb : BlockId} (noPhis : ∀ bb, ¬ HasPhi store bb)
    (found : store.functions callee = some source) (closed : (store.cfg source).Closed)
    (sole : retOf store (root source) ≠ none → ∀ other ∈ source.bbs,
      retOf store other ≠ none → other = root source) : Fits store bb callee where
  outgoing succ _ := noPhis succ
  entryPhis first _ := noPhis first
  entrySuccs _ _ succ _ := noPhis succ
  soleReturn first isFirst returns function again other reachable returnsOther := by
    cases Option.some.inj (found.symm.trans again)
    have isRoot : root source = first := by
      rw [Shape.bbs_eq (show store.shape.functions callee = some source from found)] at isFirst
      rw [root, List.headD_eq_head?_getD, isFirst]
      rfl
    subst isRoot
    exact sole returns other (closed.mem_of_reachable reachable) returnsOther

section Subtraction

variable (built : (subtraction 0 1).foldlM BuildStep.apply Store.empty = .ok store)

include built

theorem runFor_subtraction (lhs rhs : BitVec 64) :
    runFor (store.step subtracting [.I64 lhs, .I64 rhs]) 4 (store.start subtracts ()) =
      some (some (some (.I64 (lhs - rhs)), ())) := by
  cases built
  rfl

theorem realizes_subtraction : Realizes store subtracting 0 subtracts := by
  intro vals world result calls
  rcases call_subtracting calls with ⟨lhs, rhs, rfl, rfl⟩
  exact completes_of_runFor (runFor_subtraction built lhs rhs)

theorem noPhis_subtraction (bb : BlockId) : ¬ HasPhi store bb := by
  apply not_hasPhi (Built.tidy ⟨subtraction 0 1, built⟩)
  cases built
  decide

theorem seated_subtraction : Seated store 0 6 := by
  cases built
  exact seated_of_kinds (show _ = (List.range 2).map _ from rfl) (by decide)

theorem fits_subtraction : Fits store 1 0 := by
  have facts : store.functions 0 = some subtracts ∧ store.checkWellFormed subtracts = true := by
    cases built
    exact ⟨rfl, rfl⟩
  apply fits_of_noPhis (noPhis_subtraction built) facts.1 (checkWellFormed_sound facts.2).closed
  exact fun _ other otherMem _ => List.mem_singleton.mp otherMem

end Subtraction

end LeechJit.Opt.Inlining
