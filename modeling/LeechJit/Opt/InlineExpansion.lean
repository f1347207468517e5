import LeechJit.IR.Grounded
import LeechJit.Opt.InlineFits
import LeechJit.Opt.InlineOperands

/-! # What one inlined call leaves

The block of the call goes on with the first block of the callee, whose parameters are gone
and whose returns are jumps to the rest of that block. Everything else stays where it was,
with its operands redirected.
-/

namespace LeechJit.Opt.Inlining

open IR Store Bindings LeechJit.Graph

variable {store store' : Store} {func : FuncId} {call id param value : InstId} {bb after : BlockId}
  {ids rest params : List InstId}

/-- What the instructions of a block of the callee have become. -/
inductive Trails (store store' : Store) (params : List InstId) (after : BlockId) :
    List InstId → List InstId → Prop
  | nil : Trails store store' params after [] []
  | param {id : InstId} {rest rest' : List InstId} (isParam : id ∈ params)
      (later : Trails store store' params after rest rest') :
      Trails store store' params after (id :: rest) rest'
  | keep {id : InstId} {rest rest' : List InstId} (notParam : id ∉ params)
      (notRet : store.kindOf id ≠ some .kRet)
      (later : Trails store store' params after rest rest') :
      Trails store store' params after (id :: rest) (id :: rest')
  | ret {id jump : InstId} (isRet : store.kindOf id = some .kRet)
      (isJump : store'.kindOf jump = some (.kJump after)) (inputs : store'.inputs jump = []) :
      Trails store store' params after [id] [jump]

/-- The instruction that is left of one, with operands in this relation. -/
def Stays (operands : List InstId → List InstId → Prop) (store store' : Store) (id : InstId) :
    Prop :=
  ∀ inst, store.insts id = some inst → ∃ inst', store'.insts id = some inst' ∧
    inst'.type = inst.type ∧ inst'.kind = inst.kind ∧ operands inst.inputs inst'.inputs

/-- The value that is returned from block `bb`. -/
def ReturnedFrom (store : Store) (first : BlockId) (call ret value : InstId) : Prop :=
  ∃ operand, (store.inputs ret)[0]? = some operand ∧ BoundTo store first call operand value

/-- How the returned value comes to the block behind the call. -/
inductive Returning (store store' : Store) (source : Function) (first after : BlockId)
    (call : InstId) (back : List InstId) : InstId → Prop
  | single {value : InstId} (lists : store'.instructions after = back)
      (returned : ∀ ret ∈ store.listed source, store.kindOf ret = some .kRet →
        ReturnedFrom store first call ret value) :
      Returning store store' source first after call back value
  | phi {value : InstId} {inst : Inst} {entries : List PhiEntry}
      (lists : store'.instructions after = value :: back)
      (elsewhere : ∀ ret ∈ store.instructions first, store.kindOf ret ≠ some .kRet)
      (found : store'.insts value = some inst) (kind : inst.kind = .kPhi entries)
      (inputs : inst.inputs = entries.map PhiEntry.val)
      (nodup : (entries.map PhiEntry.bb).Nodup) (absent : store.insts value = none)
      (returned : ∀ bb ∈ source.bbs, ∀ ret ∈ store.instructions bb,
        store.kindOf ret = some .kRet →
          ∃ entry ∈ entries, entry.bb = bb ∧ ReturnedFrom store first call ret entry.val)
      (origins : ∀ entry ∈ entries, entry.bb ∈ source.bbs ∧
        ∃ ret ∈ store.instructions entry.bb, store.kindOf ret = some .kRet ∧
          ReturnedFrom store first call ret entry.val) :
      Returning store store' source first after call back value

/-- A function in which the call of another one has been replaced by the blocks of that one. -/
structure Expansion (store store' : Store) (caller source : Function) (call : InstId) where
  bb : BlockId
  first : BlockId
  after : BlockId
  front : List InstId
  back : List InstId
  entry : List InstId
  value : InstId
  bbMem : bb ∈ caller.bbs
  here : store.instructions bb = front ++ call :: back
  there : store'.instructions bb = front ++ entry
  isFirst : root source = first
  entryTrails : Trails store store' (paramsOf store first) after (store.instructions first) entry
  trails : ∀ bb ∈ source.bbs, bb ≠ first →
    Trails store store' (paramsOf store first) after (store.instructions bb)
      (store'.instructions bb)
  others : ∀ other ∈ caller.bbs, other ≠ bb →
    store'.instructions other = store.instructions other
  callerStays : ∀ id ∈ store.listed caller, id ≠ call →
    Stays (fun inputs inputs' => inputs' = inputs.map (subst call value)) store store' id
  calleeStays : ∀ id ∈ store.listed source, id ∉ paramsOf store first →
    store.kindOf id ≠ some .kRet → Stays (List.Forall₂ (BoundTo store first call)) store store' id
  returning : Returning store store' source first after call back value
  valueOf : value ∈ store.listed caller → value ∈ store.inputs call

/-! ## The blocks of the callee -/

theorem trails_of_no_ret (noRet : ∀ id ∈ ids, store.kindOf id ≠ some .kRet) :
    Trails store store' params after ids (ids.filter (· ∉ params)) := by
  induction ids with
  | nil => exact .nil
  | cons id rest induction =>
      rw [List.forall_mem_cons] at noRet
      by_cases isParam : id ∈ params
      · rw [List.filter_cons_of_neg (by simpa using isParam)]
        exact .param isParam (induction noRet.2)
      · rw [List.filter_cons_of_pos (by simpa using isParam)]
        exact .keep isParam noRet.1 (induction noRet.2)

theorem trails_of_ret {ret jump : InstId} (noRet : ∀ id ∈ ids, store.kindOf id ≠ some .kRet)
    (isRet : store.kindOf ret = some .kRet)
    (isJump : store'.kindOf jump = some (.kJump after)) (inputs : store'.inputs jump = []) :
    Trails store store' params after (ids ++ [ret]) (ids.filter (· ∉ params) ++ [jump]) := by
  induction ids with
  | nil => exact .ret isRet isJump inputs
  | cons id rest induction =>
      rw [List.forall_mem_cons] at noRet
      by_cases isParam : id ∈ params
      · rw [List.filter_cons_of_neg (by simpa using isParam)]
        exact .param isParam (induction noRet.2)
      · rw [List.filter_cons_of_pos (by simpa using isParam)]
        exact .keep isParam noRet.1 (induction noRet.2)

theorem forall₂_head {relation : InstId → InstId → Prop} {now : InstId}
    (related : List.Forall₂ relation ids rest) (isFirst : rest[0]? = some now) :
    ∃ value, ids[0]? = some value ∧ relation value now := by
  cases related with
  | nil => cases isFirst
  | cons head _ =>
      cases isFirst
      exact ⟨_, rfl, head⟩

/-! ## What stays of an instruction -/

/-- The type and the kind of an instruction. -/
def faceOf (store : Store) (id : InstId) : Option (ValueType × InstKind) :=
  (store.shape.insts id).map fun inst => (inst.type, inst.kind)

theorem faceOf_eq (store : Store) (id : InstId) :
    faceOf store id = (store.insts id).map fun inst => (inst.type, inst.kind) := by
  simp [faceOf, shape, Function.comp_def, Inst.bare]

theorem stays_of_face {operands : List InstId → List InstId → Prop}
    (face : faceOf store' id = faceOf store id)
    (related : operands (store.inputs id) (store'.inputs id)) : Stays operands store store' id := by
  intro inst found
  rw [faceOf_eq, faceOf_eq, found] at face
  rcases Option.map_eq_some_iff.mp face with ⟨inst', found', same⟩
  rw [inputs_eq found, inputs_eq found'] at related
  exact ⟨inst', found', congrArg Prod.fst same, congrArg Prod.snd same, related⟩

namespace Site

variable (site : Site func call store store')

include site

theorem split_face (id : InstId) : faceOf site.split id = faceOf store id := by
  rw [faceOf, site.splitShape]
  simp only [Shape.splice, Shape.relink, Shape.setList, Shape.setBBs, Shape.addBB,
    Shape.setFunction]
  rw [faceOf]
  split_ifs <;> cases store.shape.insts id <;> rfl

theorem inputs_face (notParam : id ∉ site.params) :
    faceOf site.inputs id = faceOf store id := by
  rw [← site.split_face, faceOf, faceOf, site.inputsShape]
  simp [Shape.eraseInsts, notParam]

theorem outputs_face (below : id < store.nextInst) (notParam : id ∉ site.params)
    (notRet : id ∉ site.rets) : faceOf site.outputs id = faceOf store id := by
  have belowMerged := Nat.lt_of_lt_of_le below site.merged_nextInst
  rw [← site.inputs_face notParam, faceOf, faceOf, site.returned.insts id belowMerged,
    if_neg notRet, site.isMerged.insts (site.inputs_nextInst ▸ below)]

theorem face_outputs (notCall : id ≠ call) : faceOf store' id = faceOf site.outputs id := by
  have removed : site.removed.shape.insts id = site.joined.shape.insts id := by
    rw [site.removedShape]
    simp [Shape.eraseInsts, notCall]
  have emptied : (site.outputs.shape.splice site.bb site.first []
      (site.outputs.instructions site.first)).lists site.first = [] := by
    simp [Shape.splice, Shape.relink, Shape.setList, site.bb_ne_first.symm]
  have joined : site.joined.shape.insts id = (site.outputs.shape.splice site.bb site.first []
      (site.outputs.instructions site.first)).insts id := by
    rw [site.joinedShape]
    simp [Shape.dropBB, Shape.setFunction, emptied]
  have final : store'.shape.insts id = site.removed.shape.insts id := by
    rw [site.finalShape]
    rfl
  rw [faceOf, faceOf, final, removed, joined]
  simp only [Shape.splice, Shape.relink, Shape.setList, Shape.setBBs]
  split_ifs <;> cases site.outputs.shape.insts id <;> rfl

theorem face (below : id < store.nextInst) (notParam : id ∉ site.params)
    (notRet : id ∉ site.rets) (notCall : id ≠ call) : faceOf store' id = faceOf store id := by
  rw [site.face_outputs notCall, site.outputs_face below notParam notRet]

end Site

/-! ## What the callee brings along -/

theorem edgesAgree_of_wellFormed {function : Function} (wellFormed : store.WellFormed function) :
    EdgesAgree store function.bbs where
  mirrored := wellFormed.mirrored
  follow bb bbMem := by
    rcases wellFormed.branches bb bbMem with ⟨front, last, inst, ends, found, -, succs, -⟩
    rw [succs, lastTargets, ends, List.getLast?_concat, Option.elim_some, targetsOf,
      kindOf_eq found, Option.elim_some]
  succsMem := wellFormed.closed.succs_mem
  predsMem := wellFormed.predsMem
  targetsMem bb bbMem id inBlock target isTarget := by
    rcases List.append_of_mem inBlock with ⟨front, back, split⟩
    cases found : store.insts id with
    | none =>
        rw [targetsOf, kindOf_eq_none.mpr found] at isTarget
        cases isTarget
    | some inst =>
        rw [targetsOf, kindOf_eq found, Option.elim_some] at isTarget
        have edge := (wellFormed.grounded.branches bbMem split found isTarget).2
        exact wellFormed.closed.succs_mem bb bbMem target edge

/-- A block returns at its end only. -/
theorem exists_last {function : Function} (grounded : store.Grounded function)
    (bbMem : bb ∈ function.bbs) : ∃ front last, store.instructions bb = front ++ [last] ∧
      ∀ id ∈ front, store.kindOf id ≠ some .kRet := by
  rcases grounded.ends bb bbMem with ⟨front, last, inst, ends, -, -, -, notTerminators⟩
  refine ⟨front, last, ends, ?_⟩
  intro id inFront isRet
  rcases kindOf_ne_none.mp (isRet ▸ Option.some_ne_none _) with ⟨other, found⟩
  rw [kindOf_eq found, Option.some.injEq] at isRet
  have notTerminator := notTerminators id inFront other found
  rw [isRet] at notTerminator
  cases notTerminator

theorem retOf_of_mem {function : Function} {ret : InstId} (grounded : store.Grounded function)
    (bbMem : bb ∈ function.bbs) (inBlock : ret ∈ store.instructions bb)
    (isRet : store.kindOf ret = some .kRet) : retOf store bb = some ret := by
  rcases exists_last grounded bbMem with ⟨front, last, ends, noRet⟩
  rw [ends, List.mem_append, List.mem_singleton] at inBlock
  rcases inBlock with inFront | rfl
  · exact absurd isRet (noRet ret inFront)
  · rw [retOf_eq_some, ends, List.getLast?_concat]
    exact ⟨rfl, isRet⟩

namespace Site

variable (site : Site func call store store')

/-- What the inlining of a call rests on: users sets that are exact, parameters in their places,
and a caller and a callee whose executions find their operands. -/
structure Prepared : Prop where
  ledger : Ledger store
  bindable : Bindable store site.first
  seated : Seated store site.first call
  caller : store.Grounded site.caller
  callee : store.Grounded site.source
  inlinable : Inlinable store func site.callee
  fits : Fits store site.bb site.callee

/-- The store `middle` in which users of the call read `value`, before the returns go. -/
structure Delivery (value : InstId) (middle : Store) : Prop where
  delivers : Delivers site.inputs site.rets middle value
  ledger : Ledger middle
  grows : store.nextInst ≤ middle.nextInst
  merged : middle.nextInst = site.merged.nextInst
  inputs : ∀ key, key ≠ store.nextInst →
    middle.inputs key = (site.inputs.inputs key).map (subst call value)
  older : ∀ ret ∈ site.rets, ret < middle.nextInst
  replacing : replaceRets store.nextBlock site.rets middle = .ok site.outputs

variable {site}

section Delivery

variable {middle : Store} (delivery : site.Delivery value middle)

include delivery

/-- Only the returns and the call go. -/
theorem Delivery.kept (below : id < middle.nextInst) (notRet : id ∉ site.rets)
    (notCall : id ≠ call) :
    store'.inputs id = middle.inputs id ∧ store'.kindOf id = middle.kindOf id := by
  rw [site.final_operands.1, if_neg notCall, site.kindOf_outputs notCall]
  exact (replaceRets_operands delivery.older delivery.replacing).2.1 id below notRet

theorem Delivery.inputs_new (new : middle.nextInst ≤ id) (stored : store'.kindOf id ≠ none) :
    store'.inputs id = [] := by
  have notCall : id ≠ call := by
    rintro rfl
    rw [kindOf_eq_none.mpr site.call_gone] at stored
    exact stored rfl
  rw [site.final_operands.1, if_neg notCall]
  apply (replaceRets_operands delivery.older delivery.replacing).2.2.1 id new
  rw [site.kindOf_outputs notCall] at stored
  rcases kindOf_ne_none.mp stored with ⟨inst, found⟩
  exact site.outputsTidy.settled.allocated id (by simp [homeOf_eq found])

end Delivery

variable (prepared : site.Prepared)

namespace Prepared

omit prepared in
theorem bb_mem (site : Site func call store store') : site.bb ∈ site.caller.bbs := by
  have callerBBs : store.shape.bbs func = site.caller.bbs := Shape.bbs_eq site.callerFound
  exact callerBBs ▸ site.bbMem

omit prepared in
theorem call_mem (site : Site func call store store') : call ∈ store.listed site.caller :=
  (mem_listed_iff site.callerFound).mpr site.call_calledIn

include prepared

theorem not_self : call ∉ store.inputs call := by
  have kind := site.isCall
  rw [kindOf_eq site.instFound, Option.some.injEq] at kind
  have notPhi : site.inst.kind.isPhi = false := by
    rw [kind]
    rfl
  rw [inputs_eq site.instFound]
  exact prepared.caller.not_uses (bb_mem site) site.here site.instFound notPhi (.inl rfl)

theorem arg_apart {arg : InstId} (isArg : arg ∈ store.inputs call) :
    arg ∉ paramsOf store site.first := by
  have inCaller := prepared.caller.inputs call (call_mem site) arg isArg
  intro isParam
  exact site.not_first_of_caller ((mem_listed_iff site.callerFound).mp inCaller)
    (mem_paramsOf isParam).1

theorem closed : site.ClosedCallee := site.closed_of_inlinable prepared.inlinable

theorem mem_order {bb : BlockId} (bbMem : bb ∈ site.source.bbs) : bb ∈ site.order :=
  (site.mem_order prepared.callee.closed).mpr (prepared.callee.reachable bb bbMem)

theorem mem_rets {ret : InstId} (bbMem : bb ∈ site.source.bbs)
    (inBlock : ret ∈ store.instructions bb) (isRet : store.kindOf ret = some .kRet) :
    retOf site.inputs bb = some ret ∧ ret ∈ site.rets := by
  have returns : retOf site.inputs bb = some ret := by
    rw [site.retOf_inputs prepared.inlinable (site.mem_calleeBBs.mpr bbMem)]
    exact retOf_of_mem prepared.callee bbMem inBlock isRet
  exact ⟨returns, site.mem_rets.mpr ⟨bb, prepared.mem_order bbMem, returns⟩⟩

/-! ### Parameters -/

omit prepared in
theorem sameParams (site : Site func call store store') :
    SameParams store site.split site.first where
  toSameOperands := site.split_operands
  kinds := site.split_kindOf
  lists := site.callee_lists site.first_mem

theorem bound : Ledger site.inputs ∧ site.inputs.instructions site.first =
      (store.instructions site.first).filter (· ∉ paramsOf store site.first) ∧
    ∀ user ∉ paramsOf store site.first, List.Forall₂ (BoundTo store site.first call)
      (store.inputs user) (site.inputs.inputs user) := by
  have same := sameParams site
  have present : site.split.blocks site.first ≠ none := by
    apply site.splitTidy.apart.present site.callee site.first
    rw [Shape.bbs, show site.split.shape.functions site.callee = _ from
      site.split_functions site.callee, if_neg site.different.symm, site.sourceFound]
    simp [site.blocks]
  have bindable := same.bindable prepared.bindable present
  have apart : ∀ arg ∈ site.split.inputs call, arg ∉ paramsOf site.split site.first := by
    rw [same.inputs, same.paramsOf]
    exact fun arg => prepared.arg_apart
  have adjusting := (adjustInputs_eq_ok_iff bindable site.rootBB_split).mp site.adjustingInputs
  rcases (same.seated prepared.seated).bound bindable apart adjusting with ⟨binds, lists, inputs⟩
  have ledger := prepared.ledger.congr site.split_operands site.split_kindOf
    (congrArg Shape.nextInst site.splitShape)
  refine ⟨ledger.binds binds, ?_, ?_⟩
  · rw [lists, same.lists, same.paramsOf]
  · intro user notParam
    rw [← same.paramsOf] at notParam
    have operands := inputs user notParam
    rw [same.inputs] at operands
    exact operands.imp fun _ _ => same.boundTo

theorem mem_params : id ∈ site.params ↔ id ∈ paramsOf store site.first := by
  constructor
  · intro member
    rw [paramsOf, List.mem_filter, answer_isParam, ← site.split_kindOf,
      ← site.callee_lists site.first_mem]
    exact ⟨site.paramsIn.subset member, site.paramKinds id member⟩
  · intro member
    by_contra notParam
    have inFirst : id ∈ site.inputs.instructions site.first := by
      rw [site.inputs_lists, if_pos rfl, site.callee_lists site.first_mem]
      exact List.mem_diff_of_mem (mem_paramsOf member).1 notParam
    rw [prepared.bound.2.1, List.mem_filter] at inFirst
    simp [member] at inFirst

/-! ### Operands -/

/-- What an operand of the callee becomes is not the call. -/
theorem bound_ne_call {operand now : InstId} (member : id ∈ store.listed site.source)
    (uses : operand ∈ store.inputs id) (boundTo : BoundTo store site.first call operand now) :
    now ≠ call := by
  cases boundTo with
  | argument _ _ isArg _ =>
      rintro rfl
      exact prepared.not_self (List.mem_of_getElem? isArg)
  | kept _ =>
      rintro rfl
      have inCallee := prepared.callee.inputs id member _ uses
      exact site.not_callee_of_caller site.call_calledIn
        ((mem_listed_iff site.sourceFound).mp inCallee)

omit prepared in
theorem ret_listed (site : Site func call store store') (closed : site.ClosedCallee)
    {ret : InstId} (isRet : ret ∈ site.rets) : ret ∈ store.listed site.source :=
  (mem_listed_iff site.sourceFound).mpr (site.rets_calledIn closed isRet)

theorem ret_not_param {ret : InstId} (isRet : ret ∈ site.rets) :
    store.kindOf ret = some .kRet ∧ ret ∉ paramsOf store site.first := by
  rcases site.mem_rets.mp isRet with ⟨bb, ordered, returns⟩
  have inCallee := site.order_subset prepared.closed ordered
  rw [site.retOf_inputs prepared.inlinable inCallee] at returns
  have kind := (retOf_eq_some.mp returns).2
  exact ⟨kind, not_mem_paramsOf kind (by simp)⟩

theorem delivery : ∃ value middle, site.Delivery value middle := by
  rcases prepared.bound with ⟨ledger, -, bound⟩
  rcases site.outputs_steps with ⟨middle, merging, tidy, replacing⟩
  have stored : ∀ ret ∈ site.rets, site.inputs.homeOf ret ≠ none := by
    intro ret isRet
    rcases site.mem_rets.mp isRet with ⟨bb, -, returns⟩
    rw [knowsBlocks_retOf site.inputsTidy returns]
    simp
  have below : ∀ ret ∈ site.rets, ret < site.inputs.nextInst := fun ret isRet =>
    site.inputsTidy.settled.allocated ret (stored ret isRet)
  have callOlder : call ≠ site.inputs.nextInst := by
    rw [site.inputs_nextInst]
    exact Nat.ne_of_lt (site.below_of_calledIn site.call_calledIn)
  have apart : ∀ ret ∈ site.rets, call ∉ site.inputs.inputs ret := by
    intro ret isRet uses
    have backwards := (bound ret (prepared.ret_not_param isRet).2).flip
    rcases exists_of_mem backwards backwards uses with ⟨operand, isOperand, boundTo, -⟩
    exact prepared.bound_ne_call (ret_listed site prepared.closed isRet) isOperand boundTo rfl
  rcases mergeRets_operands ledger (fun ret isRet => Nat.ne_of_lt (below ret isRet)) callOlder apart
    merging with ⟨middleLedger, value, delivers, inputs⟩
  have merged : middle.nextInst = site.merged.nextInst := by
    rcases (mergeRets_shape site.inputsTidy stored merging).2 with
      ⟨one, same⟩ | ⟨many, vars, -, same⟩
    · rcases site.isMerged with ⟨-, again⟩ | ⟨many, -⟩
      · rw [again]
        exact congrArg Shape.nextInst same
      · exact absurd one many
    · rcases site.isMerged with ⟨one, -⟩ | ⟨-, others, -, again⟩
      · exact absurd one many
      · rw [again]
        exact congrArg Shape.nextInst same
  have grows : store.nextInst ≤ middle.nextInst := merged ▸ site.merged_nextInst
  have older : ∀ ret ∈ site.rets, ret < middle.nextInst := by
    intro ret isRet
    exact Nat.lt_of_lt_of_le (below ret isRet) (site.inputs_nextInst ▸ grows)
  rw [site.inputs_nextInst] at inputs
  exact ⟨value, middle, delivers, middleLedger, grows, merged, inputs, older, replacing⟩

/-! ### Blocks -/

theorem inputs_block (bbMem : bb ∈ site.source.bbs) : site.inputs.instructions bb =
    (store.instructions bb).filter (· ∉ paramsOf store site.first) := by
  by_cases isFirst : bb = site.first
  · rw [isFirst]
    exact prepared.bound.2.1
  · rw [site.inputs_lists, if_neg isFirst, site.callee_lists (site.mem_calleeBBs.mpr bbMem)]
    symm
    rw [List.filter_eq_self]
    intro id inBlock
    apply decide_eq_true
    intro isParam
    exact isFirst (site.tidy.settled.home_unique inBlock (mem_paramsOf isParam).1)

/-- A jump behind the call stands for the return of a block of the callee. -/
theorem jump_for_return {front : List InstId} {last : InstId} (bbMem : bb ∈ site.source.bbs)
    (ends : store.instructions bb = front ++ [last]) (isRet : store.kindOf last = some .kRet)
    (noRet : ∀ id ∈ front, store.kindOf id ≠ some .kRet) : ∃ jump,
    site.outputs.instructions bb = front.filter (· ∉ paramsOf store site.first) ++ [jump] ∧
      store'.kindOf jump = some (.kJump store.nextBlock) ∧ store'.inputs jump = [] := by
  have inBlock : last ∈ store.instructions bb := by simp [ends]
  rcases prepared.mem_rets bbMem inBlock isRet with ⟨returns, isReturn⟩
  rcases site.returned.replaced last isReturn with
    ⟨inst, home, jump, found, isHome, -, new, replaced, jumps, -⟩
  have isBB := site.merged_home returns
  rw [found, Option.map_some, isHome] at isBB
  cases isBB
  have notParam : last ∉ paramsOf store site.first := not_mem_paramsOf isRet (by simp)
  have notFront : last ∉ front.filter (· ∉ paramsOf store site.first) := by
    intro inFront
    exact noRet last (List.mem_filter.mp inFront).1 isRet
  have lists := prepared.inputs_block bbMem
  rw [ends, List.filter_append, List.filter_cons_of_pos (by simpa using notParam),
    List.filter_nil] at lists
  have notCall : jump ≠ call := by
    rintro rfl
    have below := site.below_of_calledIn site.call_calledIn
    exact Nat.not_le_of_lt below (site.merged_nextInst.trans new)
  have isJump : store'.kindOf jump = some (.kJump store.nextBlock) := by
    rw [site.kindOf_outputs notCall, kindOf_shape, jumps]
    rfl
  refine ⟨jump, replaced.trans ?_, isJump, ?_⟩
  · rw [site.merged_lists (site.callee_ne_after (site.mem_calleeBBs.mpr bbMem)), lists,
      List.erase_append_right _ notFront]
    simp
  · rcases prepared.delivery with ⟨value, middle, delivery⟩
    exact delivery.inputs_new (delivery.merged.trans_le new) (isJump ▸ Option.some_ne_none _)

theorem trails (bbMem : bb ∈ site.source.bbs) :
    Trails store store' (paramsOf store site.first) store.nextBlock (store.instructions bb)
      (site.outputs.instructions bb) := by
  have member := site.mem_calleeBBs.mpr bbMem
  rcases exists_last prepared.callee bbMem with ⟨front, last, ends, noRet⟩
  by_cases isRet : store.kindOf last = some .kRet
  · rcases prepared.jump_for_return bbMem ends isRet noRet with ⟨jump, lists, isJump, inputs⟩
    rw [ends, lists]
    exact trails_of_ret noRet isRet isJump inputs
  · have noReturn : retOf site.inputs bb = none := by
      rw [site.retOf_inputs prepared.inlinable member, Option.eq_none_iff_forall_ne_some]
      intro ret returns
      rcases retOf_eq_some.mp returns with ⟨atEnd, kind⟩
      rw [ends, List.getLast?_concat, Option.some.injEq] at atEnd
      exact isRet (atEnd ▸ kind)
    rw [(site.outputs_of_not (.inr noReturn)).1, site.merged_lists (site.callee_ne_after member),
      prepared.inputs_block bbMem]
    apply trails_of_no_ret
    intro id inBlock
    rw [ends, List.mem_append, List.mem_singleton] at inBlock
    rcases inBlock with inFront | rfl
    · exact noRet id inFront
    · exact isRet

/-- The block of the call ends with what is left of the first block of the callee. -/
theorem lists_bb : store'.instructions site.bb =
    site.front ++ site.outputs.instructions site.first := by
  have notOrdered : site.bb ∉ site.order := fun ordered =>
    site.callee_ne_bb (site.order_subset prepared.closed ordered) rfl
  have old := site.ne_after (site.tidy.apart.present func _ site.bbMem)
  have nodup := site.tidy.settled.nodup site.bb
  rw [site.here, List.nodup_middle, List.nodup_cons, List.mem_append, not_or] at nodup
  rw [site.lists, if_neg site.bb_ne_first, if_pos rfl, (site.outputs_of_not (.inl notOrdered)).1,
    site.merged_lists old, site.inputs_lists, if_neg site.bb_ne_first, site.split_lists_bb,
    List.append_assoc, List.erase_append_right _ nodup.1.1]
  simp

omit prepared in
theorem lists_callee (bbMem : bb ∈ site.source.bbs) (notFirst : bb ≠ site.first) :
    store'.instructions bb = site.outputs.instructions bb := by
  rw [site.lists, if_neg notFirst, if_neg (site.callee_ne_bb (site.mem_calleeBBs.mpr bbMem))]

/-! ### What is returned -/

theorem returned_of_rets {ret value : InstId} (isReturn : ret ∈ site.rets)
    (returned : (site.inputs.inputs ret)[0]? = some value) :
    ReturnedFrom store site.first call ret value :=
  forall₂_head (prepared.bound.2.2 ret (prepared.ret_not_param isReturn).2) returned

/-- A callee that does not return once does not return from its first block. -/
theorem not_ret_first (many : site.rets.length ≠ 1) :
    ∀ ret ∈ store.instructions site.first, store.kindOf ret ≠ some .kRet := by
  intro ret inFirst isRet
  apply many
  apply site.sole_return prepared.inlinable prepared.callee.closed prepared.fits
  have firstMem := site.mem_calleeBBs.mp site.first_mem
  rw [retOf_of_mem prepared.callee firstMem inFirst isRet]
  simp

/-- A return of the callee is the last instruction of its block. -/
theorem ret_at_home {ret : InstId} (isReturn : ret ∈ site.rets) : ∃ bb ∈ site.source.bbs,
    ret ∈ store.instructions bb ∧ store.kindOf ret = some .kRet ∧
      site.inputs.homeOf ret = some (some bb) := by
  rcases site.mem_rets.mp isReturn with ⟨bb, ordered, returns⟩
  have inCallee := site.order_subset prepared.closed ordered
  have home := knowsBlocks_retOf site.inputsTidy returns
  rw [site.retOf_inputs prepared.inlinable inCallee] at returns
  rcases retOf_eq_some.mp returns with ⟨atEnd, isRet⟩
  exact ⟨bb, site.mem_calleeBBs.mp inCallee, List.mem_of_getLast? atEnd, isRet, home⟩

/-- A callee that does not return once gets a phi with an entry for each of its returns. -/
theorem returning_phi {entries : List PhiEntry} (many : site.rets.length ≠ 1)
    (isEntry : List.Forall₂ (EntryOf site.inputs) site.rets entries)
    (inputs : store'.inputs store.nextInst = entries.map PhiEntry.val)
    (isPhi : store'.kindOf store.nextInst = some (.kPhi entries)) :
    Returning store store' site.source site.first store.nextBlock call site.back
      store.nextInst := by
  rcases site.new_phi prepared.closed many with ⟨vars, listed, isPhi', nodup, -⟩
  cases isPhi.symm.trans isPhi'
  have lists : store'.instructions store.nextBlock = store.nextInst :: site.back := by
    rcases site.lists_after prepared.closed with lists | ⟨-, lists⟩
    · rw [lists] at listed
      have below := site.below_of_calledIn ⟨site.bb, site.bbMem, site.back_subset listed⟩
      exact absurd below (Nat.lt_irrefl _)
    · exact lists
  have absent : store.insts store.nextInst = none := by
    rw [← kindOf_eq_none]
    by_contra stored
    exact Nat.lt_irrefl _ (prepared.ledger.allocated _ stored)
  rcases kindOf_ne_none.mp (isPhi ▸ Option.some_ne_none _) with ⟨inst, found⟩
  rw [kindOf_eq found, Option.some.injEq] at isPhi
  rw [inputs_eq found] at inputs
  apply Returning.phi lists (prepared.not_ret_first many) found isPhi inputs nodup absent
  · intro bb bbMem ret inBlock isRet
    rcases prepared.mem_rets bbMem inBlock isRet with ⟨returns, isReturn⟩
    rcases exists_of_mem isEntry isEntry isReturn with ⟨entry, member, isOwn, -⟩
    have home := isOwn.2
    rw [knowsBlocks_retOf site.inputsTidy returns] at home
    exact ⟨entry, member, (Option.some.inj (Option.some.inj home)).symm,
      prepared.returned_of_rets isReturn isOwn.1⟩
  · intro entry member
    rcases exists_of_mem isEntry.flip isEntry.flip member with ⟨ret, isReturn, isOwn, -⟩
    rcases prepared.ret_at_home isReturn with ⟨bb, bbMem, inBlock, isRet, home⟩
    cases Option.some.inj (Option.some.inj (home.symm.trans isOwn.2))
    exact ⟨bbMem, ret, inBlock, isRet, prepared.returned_of_rets isReturn isOwn.1⟩

/-- What a callee returns that returns once takes the place of the call. -/
theorem returning_single {ret value : InstId} (only : site.rets = [ret])
    (returned : ReturnedFrom store site.first call ret value) :
    Returning store store' site.source site.first store.nextBlock call site.back value := by
  have lists : store'.instructions store.nextBlock = site.back := by
    rcases site.lists_after prepared.closed with lists | ⟨many, -⟩
    · exact lists
    · rw [only] at many
      exact absurd rfl many
  apply Returning.single lists
  intro other member isRet
  rcases List.mem_flatMap.mp member with ⟨bb, bbMem, inBlock⟩
  have isOther := (prepared.mem_rets bbMem inBlock isRet).2
  rw [only, List.mem_singleton] at isOther
  exact isOther ▸ returned

/-- What is returned is a value of the caller only where it is an argument. -/
theorem returned_argument {ret value : InstId} (isReturn : ret ∈ site.rets)
    (returned : ReturnedFrom store site.first call ret value)
    (inCaller : value ∈ store.listed site.caller) : value ∈ store.inputs call := by
  rcases returned with ⟨operand, isOperand, boundTo⟩
  cases boundTo with
  | argument _ _ isArg _ => exact List.mem_of_getElem? isArg
  | kept _ =>
      have inCallee := prepared.callee.inputs ret (ret_listed site prepared.closed isReturn) _
        (List.mem_of_getElem? isOperand)
      exact absurd ((mem_listed_iff site.sourceFound).mp inCallee)
        (site.not_callee_of_caller ((mem_listed_iff site.callerFound).mp inCaller))

/-- Users of the call read what the callee returns. -/
theorem returning : ∃ value,
    Returning store store' site.source site.first store.nextBlock call site.back value ∧
    (value ∈ store.listed site.caller → value ∈ store.inputs call) ∧
    ∀ key, key < store.nextInst → key ∉ site.rets → key ≠ call →
      store'.inputs key = (site.inputs.inputs key).map (subst call value) := by
  rcases prepared.delivery with ⟨value, middle, delivery⟩
  have inputs : ∀ key, key < store.nextInst → key ∉ site.rets → key ≠ call →
      store'.inputs key = (site.inputs.inputs key).map (subst call value) := by
    intro key below notRet notCall
    rw [(delivery.kept (Nat.lt_of_lt_of_le below delivery.grows) notRet notCall).1,
      delivery.inputs key (Nat.ne_of_lt below)]
  cases delivery.delivers with
  | @single ret value only first =>
      have isReturn : ret ∈ site.rets := only ▸ List.mem_cons_self
      have returned := prepared.returned_of_rets isReturn first
      exact ⟨value, prepared.returning_single only returned,
        prepared.returned_argument isReturn returned, inputs⟩
  | @phi entries many isEntry entryInputs isPhi =>
      rw [site.inputs_nextInst] at entryInputs isPhi inputs
      have callOlder := site.below_of_calledIn site.call_calledIn
      have notRet : store.nextInst ∉ site.rets := by
        intro isRet
        rcases site.mem_rets.mp isRet with ⟨bb, -, returns⟩
        exact Nat.lt_irrefl _ (site.inputs_nextInst ▸ site.ret_below returns)
      have below := delivery.ledger.allocated store.nextInst (isPhi ▸ Option.some_ne_none _)
      rcases delivery.kept below notRet (Nat.ne_of_gt callOlder) with ⟨newInputs, newKind⟩
      refine ⟨store.nextInst, ?_, ?_, inputs⟩
      · exact prepared.returning_phi many isEntry (newInputs.trans entryInputs)
          (newKind.trans isPhi)
      · intro inCaller
        have older := site.below_of_calledIn ((mem_listed_iff site.callerFound).mp inCaller)
        exact absurd older (Nat.lt_irrefl _)

/-! ### All of it -/

/-- Operands that are not parameters stay when the parameters are bound. -/
theorem inputs_same (notParam : id ∉ paramsOf store site.first)
    (apart : ∀ input ∈ store.inputs id, input ∉ paramsOf store site.first) :
    site.inputs.inputs id = store.inputs id := by
  have own : List.Forall₂ (fun operand now => operand ∈ store.inputs id ∧
      BoundTo store site.first call operand now) (store.inputs id) (site.inputs.inputs id) :=
    (List.forall₂_and_left ..).mpr ⟨fun _ isInput => isInput, prepared.bound.2.2 id notParam⟩
  have same : List.Forall₂ Eq (store.inputs id) (site.inputs.inputs id) := by
    apply own.imp
    rintro operand now ⟨isInput, boundTo⟩
    cases boundTo with
    | argument isParam _ _ _ => exact absurd isParam (apart operand isInput)
    | kept _ => rfl
  exact (List.forall₂_eq_eq_eq ▸ same : store.inputs id = site.inputs.inputs id).symm

theorem caller_inputs (member : id ∈ store.listed site.caller) :
    site.inputs.inputs id = store.inputs id := by
  have notParam : ∀ other ∈ store.listed site.caller, other ∉ paramsOf store site.first :=
    fun other inCaller isParam => site.not_first_of_caller
      ((mem_listed_iff site.callerFound).mp inCaller) (mem_paramsOf isParam).1
  apply prepared.inputs_same (notParam id member)
  exact fun input isInput => notParam input (prepared.caller.inputs id member input isInput)

theorem expansion : ∃ expansion : Expansion store store' site.caller site.source call,
    expansion.after = store.nextBlock := by
  rcases prepared.returning with ⟨value, returning, valueOf, inputs⟩
  have isFirst : root site.source = site.first := by
    rw [root, site.blocks]
    rfl
  have callerBBs : store.shape.bbs func = site.caller.bbs := Shape.bbs_eq site.callerFound
  refine ⟨{
    bb := site.bb, first := site.first, after := store.nextBlock, front := site.front,
    back := site.back, entry := site.outputs.instructions site.first, value,
    bbMem := bb_mem site,
    here := site.here, there := prepared.lists_bb, isFirst,
    entryTrails := prepared.trails (site.mem_calleeBBs.mp site.first_mem), trails := ?_,
    others := ?_, callerStays := ?_, calleeStays := ?_, returning, valueOf }, rfl⟩
  · intro bb bbMem notFirst
    rw [lists_callee bbMem notFirst]
    exact prepared.trails bbMem
  · intro other otherMem different
    have member : other ∈ store.shape.bbs func := by
      rwa [callerBBs]
    exact (site.caller_block prepared.closed member different).1
  · intro id member notCall
    have calledIn := (mem_listed_iff site.callerFound).mp member
    have below := site.below_of_calledIn calledIn
    have notParam := site.not_param_of_caller calledIn
    have notRet : id ∉ site.rets := fun isRet =>
      site.not_callee_of_caller calledIn (site.rets_calledIn prepared.closed isRet)
    apply stays_of_face (site.face below notParam notRet notCall)
    rw [inputs id below notRet notCall, prepared.caller_inputs member]
  · intro id member notParam notReturn
    have calledIn := (mem_listed_iff site.sourceFound).mp member
    have below := site.below_of_calledIn calledIn
    have notRet : id ∉ site.rets := fun isRet => notReturn (prepared.ret_not_param isRet).1
    have notCall : id ≠ call := by
      rintro rfl
      exact site.not_callee_of_caller site.call_calledIn calledIn
    apply stays_of_face (site.face below (mt prepared.mem_params.mp notParam) notRet notCall)
    rw [inputs id below notRet notCall]
    have own : List.Forall₂ (fun operand now => operand ∈ store.inputs id ∧
        BoundTo store site.first call operand now) (store.inputs id) (site.inputs.inputs id) :=
      (List.forall₂_and_left ..).mpr ⟨fun _ isInput => isInput, prepared.bound.2.2 id notParam⟩
    rw [List.forall₂_map_right_iff]
    apply own.imp
    rintro operand now ⟨isInput, boundTo⟩
    rwa [subst_of_ne (prepared.bound_ne_call member isInput boundTo)]

end Prepared

end Site

end LeechJit.Opt.Inlining
