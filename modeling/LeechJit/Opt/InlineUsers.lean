import LeechJit.IR.Operands
import LeechJit.Opt.InlineSite
import LeechJit.Opt.UsersExact

/-! # Users that inlining leaves behind

The calls and the returns go without giving up their operands, which keep them as users.
-/

namespace LeechJit.Opt.Inlining

open IR Store LeechJit.Graph

variable {store store' : Store} {func callee : FuncId} {bb after : BlockId} {call id : InstId}

/-- An instruction stands in one function only. -/
theorem CalledIn.unique {key : FuncId} (tidy : store.Tidy) (calledIn : CalledIn store func id)
    (other : CalledIn store key id) : func = key := by
  rcases calledIn with ⟨bb, bbMem, inBlock⟩
  rcases other with ⟨home, homeMem, inHome⟩
  apply tidy.apart.disjoint func key bb bbMem
  rw [tidy.settled.home_unique inBlock inHome]
  exact homeMem

theorem kindOf_eq_none : store.kindOf id = none ↔ store.insts id = none := by
  cases found : store.insts id <;> simp [kindOf, found]

/-! ## What the steps do to operands and users -/

theorem splitBBAfter_operands (result : splitBBAfter store func call = .ok (after, store')) :
    SameOperands store store' := by
  rcases Result.bind_eq_ok.mp result with ⟨⟨newBB, added⟩, adding, continued⟩
  rcases Result.bind_eq_ok.mp continued with ⟨inst, -, continued⟩
  rcases Result.bind_eq_ok.mp continued with ⟨bb, -, continued⟩
  rcases Result.bind_eq_ok.mp continued with ⟨pivot, -, continued⟩
  rcases Result.bind_eq_ok.mp continued with ⟨spliced, splicing, equal⟩
  cases equal
  exact (SameOperands.appendBB adding).trans (.splice splicing)

theorem absorbFirstBB_operands {first : BlockId} (rooted : rootBB store callee = .ok first)
    (different : bb ≠ first) (result : absorbFirstBB store bb callee = .ok store') :
    SameOperands store store' := by
  rcases Result.bind_eq_ok.mp result with ⟨again, rootedAgain, continued⟩
  cases rooted.symm.trans rootedAgain
  rcases Result.bind_eq_ok.mp continued with ⟨spliced, splicing, erasing⟩
  have emptied := (spliceAll_shape different splicing).2
  rcases Result.bind_eq_ok.mp splicing with ⟨source, -, moving⟩
  exact (SameOperands.splice moving).trans (.eraseBB emptied erasing)

theorem adjustParams_keeps {idx : Nat} {params : List InstId}
    (result : adjustParams bb call idx params store = .ok store') :
    KeepsUsers params store store' := by
  induction params generalizing idx store with
  | nil =>
      cases result
      exact .refl _
  | cons param params induction =>
      rcases Result.bind_eq_ok.mp result with ⟨inst, -, continued⟩
      cases operand : inst.inputs[idx]? with
      | none =>
          rw [operand] at continued
          cases continued
          exact .refl _
      | some input =>
          rw [operand] at continued
          rcases Result.bind_eq_ok.mp continued with ⟨moved, moving, continued⟩
          rcases Result.bind_eq_ok.mp continued with ⟨smaller, erasing, later⟩
          apply (((KeepsUsers.setUsersFrom moving).trans (.eraseInst erasing)).trans
            (induction later)).mono
          intro key member
          simpa [or_assoc] using member

/-- A call without operands leaves the parameters alone. -/
theorem adjustParams_none {params : List InstId} (noInputs : store.inputs call = [])
    (result : adjustParams bb call 0 params store = .ok store') : store' = store := by
  cases params with
  | nil =>
      cases result
      rfl
  | cons param params =>
      rcases Result.bind_eq_ok.mp result with ⟨inst, found, continued⟩
      rw [inputs_eq (inst_eq_ok.mp found)] at noInputs
      rw [noInputs] at continued
      cases continued
      rfl

theorem adjustInputs_keeps {first : BlockId} (rooted : rootBB store callee = .ok first)
    (result : adjustInputs store call callee = .ok store') :
    KeepsUsers (store.instructions first) store store' := by
  rcases Result.bind_eq_ok.mp result with ⟨again, rootedAgain, continued⟩
  cases rooted.symm.trans rootedAgain
  rcases Result.bind_eq_ok.mp continued with ⟨block, found, continued⟩
  rcases Result.bind_eq_ok.mp continued with ⟨params, copying, adjusting⟩
  rcases copyIf_eq_ok copying with ⟨rfl, -⟩
  rw [instructions_eq (block_eq_ok.mp found)]
  exact (adjustParams_keeps adjusting).mono (List.filter_subset_self _)

theorem adjustInputs_none (noInputs : store.inputs call = [])
    (result : adjustInputs store call callee = .ok store') : store' = store := by
  rcases Result.bind_eq_ok.mp result with ⟨first, -, continued⟩
  rcases Result.bind_eq_ok.mp continued with ⟨block, -, continued⟩
  rcases Result.bind_eq_ok.mp continued with ⟨params, -, adjusting⟩
  exact adjustParams_none noInputs adjusting

theorem addRets_keeps {phi : InstId} {rets : List InstId}
    (result : addRets phi rets store = .ok store') : KeepsUsers [] store store' := by
  induction rets generalizing store with
  | nil =>
      cases result
      exact .refl _
  | cons ret rest induction =>
      rcases Result.bind_eq_ok.mp result with ⟨inst, -, continued⟩
      rcases Result.bind_eq_ok.mp continued with ⟨val, -, continued⟩
      rcases Result.bind_eq_ok.mp continued with ⟨bb, -, continued⟩
      rcases Result.bind_eq_ok.mp continued with ⟨next, adding, later⟩
      have one : KeepsUsers [] store next := .addNode adding
      exact one.trans (induction later)

theorem mergePhi_keeps {resType : ValueType} {rets : List InstId} {phi : InstId}
    {pushed filled : Store} (allocated : store.Allocated)
    (pushing : store.pushInstFront after (.phi resType) = .ok (phi, pushed))
    (adding : addRets phi rets pushed = .ok filled)
    (moving : filled.setUsersFrom phi call = .ok store') : KeepsUsers [call] store store' := by
  have push : KeepsUsers [] store pushed := .adds allocated (pushInstFront_adds pushing).2
  exact (push.trans (addRets_keeps adding)).trans (.setUsersFrom moving)

theorem mergeRets_keeps {resType : ValueType} {rets : List InstId} (allocated : store.Allocated)
    (result : mergeRets store call resType after rets = .ok store') :
    KeepsUsers [call] store store' := by
  cases rets with
  | nil =>
      rcases Result.bind_eq_ok.mp result with ⟨⟨phi, pushed⟩, pushing, continued⟩
      rcases Result.bind_eq_ok.mp continued with ⟨filled, adding, moving⟩
      exact mergePhi_keeps allocated pushing adding moving
  | cons ret rest =>
      cases rest with
      | nil =>
          rcases Result.bind_eq_ok.mp result with ⟨inst, -, continued⟩
          rcases Result.bind_eq_ok.mp continued with ⟨val, -, moving⟩
          exact .setUsersFrom moving
      | cons other rest =>
          rcases Result.bind_eq_ok.mp result with ⟨⟨phi, pushed⟩, pushing, continued⟩
          rcases Result.bind_eq_ok.mp continued with ⟨filled, adding, moving⟩
          exact mergePhi_keeps allocated pushing adding moving

theorem replaceRets_keeps {rets : List InstId} (settled : store.Settled)
    (result : replaceRets after rets store = .ok store') : KeepsUsers rets store store' := by
  induction rets generalizing store with
  | nil =>
      cases result
      exact .refl _
  | cons ret rest induction =>
      rcases Result.bind_eq_ok.mp result with ⟨inst, -, continued⟩
      rcases Result.bind_eq_ok.mp continued with ⟨bb, -, continued⟩
      rcases Result.bind_eq_ok.mp continued with ⟨erased, erasing, continued⟩
      rcases Result.bind_eq_ok.mp continued with ⟨⟨jump, next⟩, pushing, later⟩
      have erasedSettled := (eraseInst_taken erasing).settled settled
      have push : KeepsUsers [] erased next :=
        .adds erasedSettled.allocated (pushInstBack_adds pushing).2
      have rounds := induction (pushInstBack_settled erasedSettled pushing) later
      exact ((KeepsUsers.eraseInst erasing).trans push).trans rounds

/-- What happens to the returns of a callee that returns a value. -/
theorem adjustOutputs_steps {function : Function} (tidy : store.Tidy)
    (found : store.functions callee = some function) (value : function.resType ≠ .None)
    (result : adjustOutputs store call callee after = .ok store') : ∃ rets middle,
      rets = (store.cfg function).depthFirstSearchPreOrder.filterMap (retOf store) ∧
        mergeRets store call function.resType after rets = .ok middle ∧ middle.Tidy ∧
        replaceRets after rets middle = .ok store' := by
  rcases Result.bind_eq_ok.mp result with ⟨again, foundAgain, continued⟩
  cases Option.some.inj (found.symm.trans (function_eq_ok.mp foundAgain))
  rw [if_neg value] at continued
  rcases Result.bind_eq_ok.mp continued with ⟨graph, making, continued⟩
  rcases Result.bind_eq_ok.mp continued with ⟨rets, collecting, continued⟩
  rcases Result.bind_eq_ok.mp continued with ⟨merged, merging, replacing⟩
  have nonempty : function.bbs ≠ [] := by
    intro isEmpty
    simp [makeBBGraph, isEmpty] at making
  rw [makeBBGraph_eq nonempty] at making
  cases making
  have isRets := (collectRets_eq_ok collecting).1
  refine ⟨rets, merged, isRets, merging, ?_, replacing⟩
  refine (mergeRets_shape tidy ?_ merging).1
  intro ret member
  rw [isRets, List.mem_filterMap] at member
  rcases member with ⟨bb, -, isRet⟩
  rw [knowsBlocks_retOf tidy isRet]
  simp

namespace Site

variable (site : Site func call store store')

include site

theorem split_functions (key : FuncId) : site.split.functions key =
    if key = func then some { site.caller with bbs := site.caller.bbs ++ [store.nextBlock] }
    else store.functions key := by
  have functions : site.split.functions = Function.update store.functions func
      (some { site.caller with bbs := site.caller.bbs ++ [store.nextBlock] }) :=
    congrArg Shape.functions site.splitShape
  rw [functions, Function.update_apply]

theorem inputs_source : site.inputs.functions site.callee = some site.source := by
  have functions : site.inputs.functions = site.split.functions :=
    congrArg Shape.functions site.inputsShape
  rw [functions, site.split_functions, if_neg site.different.symm, site.sourceFound]

theorem rootBB_split : rootBB site.split site.callee = .ok site.first := by
  rcases Result.bind_eq_ok.mp site.adjustingInputs with ⟨first, rooted, -⟩
  rcases rootBB_eq_ok rooted with ⟨function, rest, found, blocks⟩
  rw [site.split_functions, if_neg site.different.symm, site.sourceFound] at found
  cases found
  cases site.blocks.symm.trans blocks
  exact rooted

theorem rootBB_outputs : rootBB site.outputs site.callee = .ok site.first := by
  rcases Result.bind_eq_ok.mp site.absorbing with ⟨first, rooted, -⟩
  rcases rootBB_eq_ok rooted with ⟨function, rest, found, blocks⟩
  have functions : site.outputs.functions = site.inputs.functions := by
    rw [← merged_functions site.isMerged]
    exact site.returned.functions
  rw [functions, site.inputs_source] at found
  cases found
  cases site.blocks.symm.trans blocks
  exact rooted

theorem outputs_steps : ∃ middle,
    mergeRets site.inputs call site.source.resType store.nextBlock site.rets = .ok middle ∧
      middle.Tidy ∧ replaceRets store.nextBlock site.rets middle = .ok site.outputs := by
  rcases adjustOutputs_steps site.inputsTidy site.inputs_source site.value site.adjustingOutputs with
    ⟨rets, middle, isRets, merging, tidy, replacing⟩
  rw [← site.isOrder, ← site.isRets] at isRets
  subst isRets
  exact ⟨middle, merging, tidy, replacing⟩

theorem split_operands : SameOperands store site.split :=
  splitBBAfter_operands site.splitting

/-- Once the callee has been adjusted only the call goes. -/
theorem final_operands :
    (∀ key, store'.inputs key = if key = call then [] else site.outputs.inputs key) ∧
      ∀ key, store'.users key = if key = call then [] else site.outputs.users key := by
  have joined := absorbFirstBB_operands site.rootBB_outputs site.bb_ne_first site.absorbing
  have removed := eraseInst_operands site.erasing
  have final := SameOperands.spliceBBs site.moving
  constructor
  · intro key
    rw [final.inputs, removed.1, joined.inputs]
  · intro key
    rw [final.users, removed.2, joined.users]

/-- Who used a value that stays is still among its users, erased or not. -/
theorem users_kept {val user : InstId} (isUser : user ∈ store.users val)
    (notParam : val ∉ store.instructions site.first ∨ store.inputs call = [])
    (notRet : val ∉ site.rets) (notCall : val ≠ call) : user ∈ store'.users val := by
  have inSplit : user ∈ site.split.users val := by
    rw [site.split_operands.users]
    exact isUser
  have inInputs : user ∈ site.inputs.users val := by
    cases notParam with
    | inl elsewhere =>
        apply adjustInputs_keeps site.rootBB_split site.adjustingInputs val _ user inSplit
        rw [site.split_lists (site.ne_after site.first_present) site.bb_ne_first.symm]
        exact elsewhere
    | inr noInputs =>
        rw [← site.split_operands.inputs] at noInputs
        rw [adjustInputs_none noInputs site.adjustingInputs]
        exact inSplit
  rcases site.outputs_steps with ⟨middle, merging, tidy, replacing⟩
  have outputs := (mergeRets_keeps site.inputsTidy.settled.allocated merging).trans
    (replaceRets_keeps tidy.settled replacing)
  rw [site.final_operands.2, if_neg notCall]
  apply outputs val _ user inInputs
  simp [notCall, notRet]

/-! ## What is gone -/

theorem call_gone : store'.insts call = none := by
  have final : store'.shape.insts = site.removed.shape.insts := by
    rw [site.finalShape]
    rfl
  have gone : store'.shape.insts call = none := by
    rw [final, site.removedShape]
    simp [Shape.eraseInsts]
  simpa [shape] using gone

theorem ret_gone {ret : InstId} (isRet : ret ∈ site.rets) : store'.insts ret = none := by
  cases decEq ret call with
  | isTrue same => rw [same, site.call_gone]
  | isFalse different =>
      rcases site.mem_rets.mp isRet with ⟨bb, -, returns⟩
      have below := Nat.lt_of_lt_of_le (site.inputs_nextInst ▸ site.ret_below returns)
        site.merged_nextInst
      rw [← kindOf_eq_none, site.kindOf_outputs different, kindOf_shape,
        site.returned.insts ret below, if_pos isRet]
      rfl

/-- What does not exist is not made again. -/
theorem stays_gone {gone : InstId} (below : gone < store.nextInst) (absent : store.insts gone = none) :
    store'.insts gone = none := by
  have noKind := kindOf_eq_none.mpr absent
  have notCall : gone ≠ call := by
    rintro rfl
    cases site.instFound.symm.trans absent
  have notParam : gone ∉ site.params := by
    intro member
    rcases site.paramKinds gone member with ⟨idx, isParam⟩
    rw [site.split_kindOf, noKind] at isParam
    cases isParam
  have notRet : gone ∉ site.rets := by
    intro member
    rcases site.mem_rets.mp member with ⟨bb, -, returns⟩
    have isRet := (retOf_eq_some.mp returns).2
    rw [site.inputs_kindOf notParam, noKind] at isRet
    cases isRet
  rw [← kindOf_eq_none, site.kindOf below notParam notRet notCall, noKind]

/-! ## Caller and callee -/

theorem not_first_of_caller (calledIn : CalledIn store func id) :
    id ∉ store.instructions site.first := by
  rcases calledIn with ⟨bb, bbMem, inBlock⟩
  intro inFirst
  apply site.first_not_mem
  rw [site.tidy.settled.home_unique inFirst inBlock]
  exact bbMem

theorem callee_ne_bb {bb : BlockId} (member : bb ∈ store.shape.bbs site.callee) : bb ≠ site.bb := by
  rintro rfl
  exact site.different (site.tidy.apart.disjoint func site.callee _ site.bbMem member)

theorem callee_lists {bb : BlockId} (member : bb ∈ store.shape.bbs site.callee) :
    site.split.instructions bb = store.instructions bb :=
  site.split_lists (site.callee_ne_after member) (site.callee_ne_bb member)


theorem inputs_subset {bb : BlockId} {id : InstId} (inBlock : id ∈ site.inputs.instructions bb) :
    id ∈ site.split.instructions bb := by
  rw [site.inputs_lists] at inBlock
  split_ifs at inBlock
  · exact List.diff_subset _ _ inBlock
  · exact inBlock

theorem rets_calledIn (closed : site.ClosedCallee) {ret : InstId} (isRet : ret ∈ site.rets) :
    CalledIn store site.callee ret := by
  rcases site.mem_rets.mp isRet with ⟨bb, ordered, returns⟩
  have member := site.order_subset closed ordered
  refine ⟨bb, member, ?_⟩
  rw [← site.callee_lists member]
  exact site.inputs_subset (List.mem_of_getLast? (retOf_eq_some.mp returns).1)

theorem not_callee_of_caller (calledIn : CalledIn store func id) :
    ¬ CalledIn store site.callee id :=
  fun other => site.different (calledIn.unique site.tidy other)

theorem params_calledIn {param : InstId} (isParam : param ∈ site.params) :
    CalledIn store site.callee param := by
  refine ⟨site.first, site.first_mem, ?_⟩
  rw [← site.callee_lists site.first_mem]
  exact site.paramsIn.subset isParam

theorem not_param_of_caller (calledIn : CalledIn store func id) : id ∉ site.params :=
  fun isParam => site.not_callee_of_caller calledIn (site.params_calledIn isParam)

theorem call_calledIn : CalledIn store func call := by
  refine ⟨site.bb, site.bbMem, ?_⟩
  rw [site.here]
  simp

/-- What is in the callee comes into the caller. -/
theorem calledIn_callee (notParam : id ∉ site.params) (notRet : id ∉ site.rets)
    (calledIn : CalledIn store site.callee id) : CalledIn store' func id := by
  have bbs := site.bbs func
  rw [if_pos rfl] at bbs
  have notCall : id ≠ call := by
    rintro rfl
    exact site.not_callee_of_caller site.call_calledIn calledIn
  rcases calledIn with ⟨bb, member, inBlock⟩
  rw [← site.callee_lists member] at inBlock
  have inOutputs := site.mem_outputs inBlock notParam notRet
  cases decEq bb site.first with
  | isTrue isFirst =>
      refine ⟨site.bb, by rw [bbs]; simp [site.bbMem], ?_⟩
      rw [site.lists, if_neg site.bb_ne_first, if_pos rfl, List.mem_erase_of_ne notCall]
      exact List.mem_append_right _ (isFirst ▸ inOutputs)
  | isFalse notFirst =>
      have inRest := site.mem_calleeBBs.mp member
      rw [site.blocks, List.mem_cons] at inRest
      refine ⟨bb, by rw [bbs]; simp [inRest.resolve_left notFirst], ?_⟩
      rw [site.lists, if_neg notFirst, if_neg (site.callee_ne_bb member)]
      exact inOutputs

end Site

/-! ## Exact users of a function -/

/-- The operands of a function are its own, and so are the users, which are those that use. -/
structure Exact (store : Store) (func : FuncId) : Prop where
  inputs : ∀ id, CalledIn store func id → ∀ input ∈ store.inputs id, CalledIn store func input
  users : ∀ value, CalledIn store func value → ∀ user,
    user ∈ store.users value ↔ CalledIn store func user ∧ value ∈ store.inputs user

theorem stored_of_calledIn (tidy : store.Tidy) (calledIn : CalledIn store func id) :
    ∃ inst, store.insts id = some inst := by
  rcases calledIn with ⟨bb, -, inBlock⟩
  have knows := tidy.settled.knows bb id inBlock
  cases found : store.insts id with
  | none =>
      rw [homeOf, found] at knows
      cases knows
  | some inst => exact ⟨inst, rfl⟩

theorem mem_listed_iff {function : Function} (found : store.functions func = some function) :
    id ∈ store.listed function ↔ CalledIn store func id := by
  rw [listed, List.mem_flatMap, CalledIn,
    Shape.bbs_eq (show store.shape.functions func = some function from found)]

theorem usersExact_iff_exact {function : Function} (tidy : store.Tidy)
    (found : store.functions func = some function) :
    UsersExact store function ↔ Exact store func := by
  constructor
  · intro exact
    constructor
    · intro id member input isInput
      rw [← mem_listed_iff found] at member ⊢
      exact (exact.inputsStored id member input isInput).1
    · intro value member user
      rw [← mem_listed_iff found] at member ⊢
      exact exact.users value member user
  · intro exact
    constructor
    · intro value member user
      rw [mem_listed_iff found] at member ⊢
      exact exact.users value member user
    · intro id member input isInput
      rw [mem_listed_iff found] at member ⊢
      have inputMem := exact.inputs id member input isInput
      exact ⟨inputMem, stored_of_calledIn tidy inputMem⟩
    · intro id member user isUser
      rw [mem_listed_iff found] at member
      exact stored_of_calledIn tidy ((exact.users id member user).mp isUser).1

/-! ## Users that are gone -/

/-- An instruction that is gone is a user of `val`, which is in the function. -/
structure Stale (store : Store) (func : FuncId) (gone val : InstId) : Prop where
  absent : store.insts gone = none
  below : gone < store.nextInst
  isUser : gone ∈ store.users val
  calledIn : CalledIn store func val

theorem Site.nextInst (site : Site func call store store') : store.nextInst ≤ store'.nextInst := by
  have final : store'.nextInst = site.removed.nextInst := congrArg Shape.nextInst site.finalShape
  have removed : site.removed.nextInst = site.joined.nextInst :=
    congrArg Shape.nextInst site.removedShape
  have joined : site.joined.nextInst = site.outputs.nextInst :=
    congrArg Shape.nextInst site.joinedShape
  rw [final, removed, joined]
  exact site.merged_nextInst.trans site.returned.nextInst

theorem Site.stale (site : Site func call store store') (closed : site.ClosedCallee)
    {gone val : InstId} (stale : Stale store func gone val) (notCall : val ≠ call) :
    Stale store' func gone val where
  absent := site.stays_gone stale.below stale.absent
  below := Nat.lt_of_lt_of_le stale.below site.nextInst
  isUser := by
    apply site.users_kept stale.isUser (.inl (site.not_first_of_caller stale.calledIn)) _ notCall
    intro isRet
    exact site.not_callee_of_caller stale.calledIn (site.rets_calledIn closed isRet)
  calledIn := by
    apply site.calledIn_caller (site.not_param_of_caller stale.calledIn) _ notCall stale.calledIn
    intro isRet
    exact site.not_callee_of_caller stale.calledIn (site.rets_calledIn closed isRet)

theorem Stale.not_exact (stale : Stale store func id call) (tidy : store.Tidy) :
    ¬ Exact store func := by
  intro exact
  have calledIn := ((exact.users call stale.calledIn id).mp stale.isUser).1
  rcases stored_of_calledIn tidy calledIn with ⟨inst, found⟩
  cases stale.absent.symm.trans found

/-! ## Where the first users are left behind -/

/-- A call of one return or several has the value of a return. -/
theorem mergeRets_returns {resType : ValueType} {rets : List InstId} (some' : rets ≠ [])
    (result : mergeRets store call resType after rets = .ok store') :
    ∃ ret ∈ rets, ∃ val, val ∈ store.inputs ret := by
  cases rets with
  | nil => exact absurd rfl some'
  | cons ret rest =>
      refine ⟨ret, List.mem_cons_self, ?_⟩
      cases rest with
      | nil =>
          rcases Result.bind_eq_ok.mp result with ⟨inst, found, continued⟩
          rcases Result.bind_eq_ok.mp continued with ⟨val, isInput, -⟩
          refine ⟨val, ?_⟩
          rw [inputs_eq (inst_eq_ok.mp found)]
          exact List.mem_of_getElem? (inputAt_eq_ok.mp isInput)
      | cons other rest =>
          rcases Result.bind_eq_ok.mp result with ⟨⟨phi, pushed⟩, pushing, continued⟩
          rcases Result.bind_eq_ok.mp continued with ⟨filled, adding, -⟩
          rcases Result.bind_eq_ok.mp adding with ⟨inst, found, continued⟩
          rcases Result.bind_eq_ok.mp continued with ⟨val, isInput, -⟩
          refine ⟨val, ?_⟩
          have member := List.mem_of_getElem? (inputAt_eq_ok.mp isInput)
          rw [← inputs_eq (inst_eq_ok.mp found), (pushInstFront_adds pushing).2.inputs] at member
          split_ifs at member
          · cases member
          · exact member

namespace Site

variable (site : Site func call store store')

include site

/-- An argument of the call keeps the call as a user. -/
theorem stale_of_argument (closed : site.ClosedCallee) (exact : Exact store func) {val : InstId}
    (isInput : val ∈ store.inputs call) (notCall : val ≠ call) : Stale store' func call val := by
  have valIn := exact.inputs call site.call_calledIn val isInput
  have isUser := (exact.users val valIn call).mpr ⟨site.call_calledIn, isInput⟩
  have notRet : val ∉ site.rets := fun isRet =>
    site.not_callee_of_caller valIn (site.rets_calledIn closed isRet)
  constructor
  · exact site.call_gone
  · exact Nat.lt_of_lt_of_le (site.below_of_calledIn site.call_calledIn) site.nextInst
  · exact site.users_kept isUser (.inl (site.not_first_of_caller valIn)) notRet notCall
  · exact site.calledIn_caller (site.not_param_of_caller valIn) notRet notCall valIn

theorem inputs_eq_split (noInputs : store.inputs call = []) : site.inputs = site.split := by
  rw [← site.split_operands.inputs] at noInputs
  exact adjustInputs_none noInputs site.adjustingInputs

theorem not_param (noInputs : store.inputs call = []) (id : InstId) : id ∉ site.params := by
  intro member
  rcases site.paramKinds id member with ⟨idx, isParam⟩
  have erased : site.inputs.kindOf id = none := by
    rw [kindOf_shape, site.inputsShape]
    simp [Shape.eraseInsts, member]
  rw [site.inputs_eq_split noInputs, isParam] at erased
  cases erased

/-- A returned value keeps the return as a user. -/
theorem stale_of_return (closed : site.ClosedCallee) (exact : Exact store site.callee)
    (values : ∀ user, CalledIn store site.callee user → ∀ input ∈ store.inputs user,
      store.kindOf input ≠ some .kRet)
    (noInputs : store.inputs call = []) (returns : site.rets ≠ []) :
    ∃ ret val, Stale store' func ret val ∧ CalledIn store site.callee val := by
  rcases site.outputs_steps with ⟨middle, merging, -, -⟩
  rcases mergeRets_returns returns merging with ⟨ret, isRet, val, isInput⟩
  rw [site.inputs_eq_split noInputs, site.split_operands.inputs] at isInput
  have retIn := site.rets_calledIn closed isRet
  have valIn := exact.inputs ret retIn val isInput
  have isUser := (exact.users val valIn ret).mpr ⟨retIn, isInput⟩
  have notCall : val ≠ call := by
    rintro rfl
    exact site.not_callee_of_caller site.call_calledIn valIn
  have notRet : val ∉ site.rets := by
    intro member
    rcases site.mem_rets.mp member with ⟨bb, -, isLast⟩
    have kind := (retOf_eq_some.mp isLast).2
    rw [site.inputs_kindOf (site.not_param noInputs val)] at kind
    exact values ret retIn val isInput kind
  refine ⟨ret, val, ?_, valIn⟩
  constructor
  · exact site.ret_gone isRet
  · exact Nat.lt_of_lt_of_le (site.below_of_calledIn retIn) site.nextInst
  · exact site.users_kept isUser (.inr noInputs) notRet notCall
  · exact site.calledIn_callee (site.not_param noInputs val) notRet valIn

end Site

end LeechJit.Opt.Inlining
