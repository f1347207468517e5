import LeechJit.IR.Precedence
import LeechJit.Opt.InlineSteps

/-! # Inlining one call

A site is a call with the stores its inlining goes through.
-/

namespace LeechJit.Opt.Inlining

open IR Store LeechJit.Graph

/-- The call stands in a block of the function. -/
def CalledIn (store : Store) (func : FuncId) (call : InstId) : Prop :=
  ∃ bb ∈ store.shape.bbs func, call ∈ store.instructions bb

/-- One call on the way from `store` to `store'`, of a callee that returns a value. -/
structure Site (func : FuncId) (call : InstId) (store store' : Store) where
  inst : Inst
  callee : FuncId
  bb : BlockId
  front : List InstId
  back : List InstId
  caller : Function
  source : Function
  first : BlockId
  rest : List BlockId
  params : List InstId
  order : List BlockId
  rets : List InstId
  merged : Shape
  split : Store
  inputs : Store
  outputs : Store
  joined : Store
  removed : Store
  tidy : store.Tidy
  instFound : store.insts call = some inst
  kind : inst.kind = .kCall callee
  different : func ≠ callee
  value : source.resType ≠ .None
  verified : verify store inst = .ok true
  home : store.homeOf call = some (some bb)
  bbMem : bb ∈ store.shape.bbs func
  here : store.instructions bb = front ++ call :: back
  callerFound : store.functions func = some caller
  sourceFound : store.functions callee = some source
  blocks : source.bbs = first :: rest
  splitting : splitBBAfter store func call = .ok (store.nextBlock, split)
  splitTidy : split.Tidy
  splitShape : split.shape =
    (store.shape.addBB func caller).splice store.nextBlock bb (front ++ [call]) back
  paramsIn : params.Sublist (split.instructions first)
  paramKinds : ∀ param ∈ params, ∃ idx, split.kindOf param = some (.kParam idx)
  adjustingInputs : adjustInputs split call callee = .ok inputs
  inputsTidy : inputs.Tidy
  inputsShape : inputs.shape = split.shape.eraseInsts first params
  isOrder : order = (inputs.cfg source).depthFirstSearchPreOrder
  isRets : rets = order.filterMap (retOf inputs)
  nonempty : ∀ bb ∈ order, inputs.instructions bb ≠ []
  adjustingOutputs : adjustOutputs inputs call callee store.nextBlock = .ok outputs
  isMerged : Merged inputs source.resType store.nextBlock rets merged
  returned : Returned store.nextBlock rets merged outputs.shape
  outputsTidy : outputs.Tidy
  absorbing : absorbFirstBB outputs bb callee = .ok joined
  joinedShape : joined.shape = ((outputs.shape.splice bb first [] (outputs.instructions first)).dropBB
    first).setFunction callee { source with bbs := rest }
  joinedTidy : joined.Tidy
  erasing : joined.eraseInst bb call = .ok removed
  removedShape : removed.shape = joined.shape.eraseInsts bb [call]
  removedTidy : removed.Tidy
  moving : removed.spliceBBs func store.nextBlock callee = .ok store'
  finalShape : store'.shape = (removed.shape.setFunction callee { source with bbs := [] }).setFunction
    func { caller with bbs := caller.bbs ++ rest ++ [store.nextBlock] }
  tidy' : store'.Tidy

variable {store store' : Store} {func : FuncId} {call : InstId}

theorem merged_functions {inputs : Store} {resType : ValueType} {after : BlockId}
    {rets : List InstId} {merged : Shape} (isMerged : Merged inputs resType after rets merged) :
    merged.functions = inputs.functions := by
  rcases isMerged with ⟨-, rfl⟩ | ⟨-, vars, -, rfl⟩ <;> rfl

theorem doInline_site (tidy : store.Tidy) (calledIn : CalledIn store func call)
    (others : ∀ callee, store.kindOf call = some (.kCall callee) → callee ≠ func)
    (value : ∀ callee function, store.kindOf call = some (.kCall callee) →
      store.functions callee = some function → function.resType ≠ .None)
    (result : doInline func store call = .ok store') : Nonempty (Site func call store store') := by
  rcases Result.bind_eq_ok.mp result with ⟨inst, found, continued⟩
  rcases Result.bind_eq_ok.mp continued with ⟨verified, verifying, continued⟩
  rcases Result.bind_eq_ok.mp continued with ⟨⟨⟩, isVerified, continued⟩
  rcases Result.bind_eq_ok.mp continued with ⟨bb, getting, continued⟩
  rcases Result.bind_eq_ok.mp continued with ⟨callee, calling, continued⟩
  rcases Result.bind_eq_ok.mp continued with ⟨⟨after, split⟩, splitting, continued⟩
  rcases Result.bind_eq_ok.mp continued with ⟨inputs, adjustingInputs, continued⟩
  rcases Result.bind_eq_ok.mp continued with ⟨outputs, adjustingOutputs, continued⟩
  rcases Result.bind_eq_ok.mp continued with ⟨joined, absorbing, continued⟩
  rcases Result.bind_eq_ok.mp continued with ⟨removed, erasing, moving⟩
  rw [inst_eq_ok] at found
  rw [assert_eq_ok] at isVerified
  subst isVerified
  have kind : inst.kind = .kCall callee := by
    cases is : inst.kind <;> rw [getCallee, is] at calling <;> cases calling
    rfl
  have kindAt : store.kindOf call = some (.kCall callee) := by rw [kindOf_eq found, kind]
  have different : func ≠ callee := (others callee kindAt).symm
  rcases splitBBAfter_shape tidy splitting with
    ⟨rfl, caller, home, front, back, callerFound, isHome, here, splitShape, splitTidy⟩
  have isBB : home = bb := by
    rw [homeOf_eq found] at isHome
    rw [Inst.getBB, Option.some.inj isHome] at getting
    cases getting
    rfl
  subst isBB
  have bbMem : home ∈ store.shape.bbs func := by
    rcases calledIn with ⟨other, otherMem, inOther⟩
    have inHome : call ∈ store.instructions home := by simp [here]
    rw [tidy.settled.home_unique inHome inOther]
    exact otherMem
  rcases adjustInputs_shape splitTidy adjustingInputs with
    ⟨source, first, rest, params, foundSource, blocks, paramsIn, paramKinds, inputsShape, inputsTidy⟩
  have splitFunctions : ∀ key, split.functions key =
      if key = func then some { caller with bbs := caller.bbs ++ [store.nextBlock] }
      else store.functions key := by
    intro key
    refine (congrFun (congrArg Shape.functions splitShape) key).trans ?_
    by_cases isFunc : key = func <;>
      simp [Shape.splice, Shape.relink, Shape.setList, Shape.setBBs, Shape.addBB, Shape.setFunction,
        Store.shape, isFunc]
  have sourceFound : store.functions callee = some source := by
    rw [← foundSource, splitFunctions, if_neg different.symm]
  have inputsFunctions : inputs.functions = split.functions :=
    congrArg Shape.functions inputsShape
  have inputsSource : inputs.functions callee = some source := by
    rw [inputsFunctions, foundSource]
  have isValue := value callee source kindAt sourceFound
  rcases adjustOutputs_shape inputsTidy inputsSource isValue adjustingOutputs with
    ⟨order, rets, merged, isOrder, isRets, nonempty, isMerged, returned, outputsTidy⟩
  have outputsFunctions : outputs.functions = split.functions := by
    rw [← inputsFunctions, ← merged_functions isMerged]
    exact returned.functions
  have notFirst : home ≠ first := by
    intro equal
    apply different
    apply tidy.apart.disjoint func callee home bbMem
    rw [Shape.bbs_eq sourceFound, blocks, equal]
    exact List.mem_cons_self
  rcases absorbFirstBB_shape outputsTidy (by rw [outputsFunctions, foundSource]) blocks notFirst
    absorbing with ⟨joinedShape, joinedTidy⟩
  rcases eraseInst_tidy joinedTidy erasing with ⟨removedShape, removedTidy⟩
  rcases spliceBBs_shape different moving with
    ⟨source', caller', foundSource', foundCaller', -, finalShape⟩
  have removedFunctions : ∀ key, removed.functions key =
      if key = callee then some { source with bbs := rest } else split.functions key := by
    intro key
    have same : removed.functions = joined.functions := congrArg Shape.functions removedShape
    rw [same]
    refine (congrFun (congrArg Shape.functions joinedShape) key).trans ?_
    by_cases isCallee : key = callee
    · simp [Shape.setFunction, isCallee]
    · rw [if_neg isCallee, ← outputsFunctions]
      simp [Shape.setFunction, Shape.dropBB, Shape.splice, Shape.relink, Shape.setList, Shape.setBBs,
        Store.shape, isCallee]
  rw [removedFunctions, if_pos rfl] at foundSource'
  rw [removedFunctions, if_neg different, splitFunctions, if_pos rfl] at foundCaller'
  cases foundSource'
  cases foundCaller'
  have freshBB : store.nextBlock ∉ caller.bbs := by
    have callerBBs : store.shape.bbs func = caller.bbs := Shape.bbs_eq callerFound
    rw [← callerBBs]
    exact fun member => tidy.apart.fresh (tidy.apart.present func _ member)
  have order_eq : (caller.bbs ++ [store.nextBlock]).takeWhile (· ≠ store.nextBlock) ++ rest ++
      (caller.bbs ++ [store.nextBlock]).dropWhile (· ≠ store.nextBlock) =
        caller.bbs ++ rest ++ [store.nextBlock] := by
    have passes : ∀ bb ∈ caller.bbs, decide (bb ≠ store.nextBlock) = true := by
      intro bb member
      apply decide_eq_true
      rintro rfl
      exact freshBB member
    rw [List.takeWhile_append_of_pos passes, List.dropWhile_append_of_pos passes]
    simp
  have tidy' : store'.Tidy := by
    constructor
    · have lists : store'.instructions = removed.instructions := congrArg Shape.lists finalShape
      have homes : ∀ key, store'.homeOf key = removed.homeOf key := by
        intro key
        rw [homeOf_shape, homeOf_shape, finalShape]
        rfl
      have nextInst : store'.nextInst = removed.nextInst := congrArg Shape.nextInst finalShape
      exact SameHomes.settled ⟨homes, fun bb => congrFun lists bb, nextInst⟩ removedTidy.settled
    · rw [finalShape]
      have funcFound : removed.shape.functions func =
          some { caller with bbs := caller.bbs ++ [store.nextBlock] } := by
        change removed.functions func = _
        rw [removedFunctions, if_neg different, splitFunctions, if_pos rfl]
      have calleeFound : removed.shape.functions callee = some { source with bbs := rest } := by
        change removed.functions callee = _
        rw [removedFunctions, if_pos rfl]
      apply removedTidy.apart.moveBBs different funcFound calleeFound
      dsimp only
      rw [order_eq, List.append_assoc, List.append_assoc]
      exact List.perm_append_comm.append_left _
  rw [order_eq] at finalShape
  exact ⟨{
    inst, callee, bb := home, front, back, caller, source, first, rest, params, order, rets, merged,
    split, inputs, outputs, joined, removed, tidy, instFound := found, kind, different,
    value := isValue, verified := verifying, home := isHome, bbMem, here, callerFound, sourceFound,
    blocks, splitting, splitTidy, splitShape, paramsIn, paramKinds, adjustingInputs, inputsTidy,
    inputsShape, isOrder, isRets, nonempty, adjustingOutputs, isMerged, returned, outputsTidy,
    absorbing, joinedShape, joinedTidy, erasing, removedShape, removedTidy, moving, finalShape, tidy' }⟩

namespace Site

variable (site : Site func call store store')

include site

theorem bb_ne_first : site.bb ≠ site.first := by
  intro equal
  apply site.different
  apply site.tidy.apart.disjoint func site.callee site.bb site.bbMem
  rw [Shape.bbs_eq site.sourceFound, site.blocks, equal]
  exact List.mem_cons_self

theorem first_mem : site.first ∈ store.shape.bbs site.callee := by
  rw [Shape.bbs_eq site.sourceFound, site.blocks]
  exact List.mem_cons_self

theorem first_not_mem : site.first ∉ store.shape.bbs func := fun member =>
  site.different (site.tidy.apart.disjoint func site.callee site.first member site.first_mem)

theorem first_present : store.shape.present site.first :=
  site.tidy.apart.present site.callee site.first site.first_mem

theorem ne_after {bb : BlockId} (present : store.shape.present bb) : bb ≠ store.nextBlock := by
  rintro rfl
  exact site.tidy.apart.fresh present

/-! ### Functions and blocks -/

theorem removed_functions (key : FuncId) : site.removed.functions key =
    if key = site.callee then some { site.source with bbs := site.rest }
    else if key = func then some { site.caller with bbs := site.caller.bbs ++ [store.nextBlock] }
    else store.functions key := by
  have same : site.removed.functions = site.joined.functions :=
    congrArg Shape.functions site.removedShape
  have outputs : site.outputs.functions = site.split.functions := by
    have inputs : site.inputs.functions = site.split.functions :=
      congrArg Shape.functions site.inputsShape
    rw [← inputs, ← merged_functions site.isMerged]
    exact site.returned.functions
  have split : site.split.functions = Function.update store.functions func
      (some { site.caller with bbs := site.caller.bbs ++ [store.nextBlock] }) :=
    congrArg Shape.functions site.splitShape
  have joined : site.joined.functions = Function.update site.outputs.functions site.callee
      (some { site.source with bbs := site.rest }) :=
    congrArg Shape.functions site.joinedShape
  rw [same, joined, outputs, split]
  simp only [Function.update_apply]

theorem functions (key : FuncId) : store'.functions key =
    if key = func then
      some { site.caller with bbs := site.caller.bbs ++ site.rest ++ [store.nextBlock] }
    else if key = site.callee then some { site.source with bbs := [] }
    else store.functions key := by
  have final : store'.functions = Function.update (Function.update site.removed.functions site.callee
      (some { site.source with bbs := [] })) func
      (some { site.caller with bbs := site.caller.bbs ++ site.rest ++ [store.nextBlock] }) :=
    congrArg Shape.functions site.finalShape
  rw [final, Function.update_apply, Function.update_apply, site.removed_functions]
  split_ifs <;> rfl

theorem bbs (key : FuncId) : store'.shape.bbs key =
    if key = func then store.shape.bbs func ++ site.rest ++ [store.nextBlock]
    else if key = site.callee then [] else store.shape.bbs key := by
  have callerBBs : store.shape.bbs func = site.caller.bbs := Shape.bbs_eq site.callerFound
  rw [callerBBs, Shape.bbs, show store'.shape.functions key = store'.functions key from rfl,
    site.functions]
  split_ifs <;> rfl

theorem outputs_shape_frame : site.outputs.shape.excess = store.shape.excess ∧
    site.outputs.shape.present = site.split.shape.present ∧
    site.outputs.shape.nextBlock = store.nextBlock + 1 := by
  have inputs : site.inputs.shape.excess = store.shape.excess ∧
      site.inputs.shape.present = site.split.shape.present ∧
      site.inputs.shape.nextBlock = store.nextBlock + 1 := by
    rw [site.inputsShape, site.splitShape]
    exact ⟨rfl, rfl, rfl⟩
  have merged : site.merged.excess = site.inputs.shape.excess ∧
      site.merged.present = site.inputs.shape.present ∧
      site.merged.nextBlock = site.inputs.shape.nextBlock := by
    rcases site.isMerged with ⟨-, same⟩ | ⟨-, vars, -, same⟩ <;> rw [same] <;> exact ⟨rfl, rfl, rfl⟩
  rw [site.returned.excess, site.returned.present, site.returned.nextBlock, merged.1, merged.2.1,
    merged.2.2]
  exact inputs

theorem nextBlock : store'.nextBlock = store.nextBlock + 1 := by
  have final : store'.nextBlock = site.removed.nextBlock := congrArg Shape.nextBlock site.finalShape
  have removed : site.removed.nextBlock = site.joined.nextBlock :=
    congrArg Shape.nextBlock site.removedShape
  have joined : site.joined.nextBlock = site.outputs.nextBlock :=
    congrArg Shape.nextBlock site.joinedShape
  rw [final, removed, joined]
  exact site.outputs_shape_frame.2.2

theorem present (bb : BlockId) : store'.shape.present bb ↔
    (store.shape.present bb ∨ bb = store.nextBlock) ∧ bb ≠ site.first := by
  have outputs := congrFun site.outputs_shape_frame.2.1 bb
  have split := congrFun (congrArg Shape.present site.splitShape) bb
  have final : store'.shape.present bb = (site.outputs.shape.present bb ∧ bb ≠ site.first) := by
    rw [site.finalShape, Shape.setFunction, Shape.setFunction, site.removedShape, Shape.eraseInsts,
      site.joinedShape]
    rfl
  rw [final, outputs, split]
  rfl

/-! ### Links -/

/-- Where the block of the call leads to in the end. -/
def targets : List BlockId :=
  (site.outputs.instructions site.bb ++ site.outputs.instructions site.first).getLast?.elim []
    site.outputs.targetsOf

theorem succs (bb : BlockId) : store'.succs bb =
    if bb = site.first then [] else if bb = site.bb then site.targets
    else site.outputs.succs bb := by
  have final : store'.succs = site.removed.succs := congrArg Shape.succs site.finalShape
  have removed : site.removed.succs = site.joined.succs := congrArg Shape.succs site.removedShape
  have joined : site.joined.succs = Function.update
      (site.outputs.shape.splice site.bb site.first [] (site.outputs.instructions site.first)).succs
      site.first [] := congrArg Shape.succs site.joinedShape
  rw [final, removed, joined, Function.update_apply]
  split_ifs with isFirst isBB
  · rfl
  · rw [isBB]
    simp only [Shape.splice, Shape.relink, Shape.setList, Function.update_self, Shape.lastTargets]
    rw [targets]
    congr 1
    funext id
    rw [← shape_targetsOf]
    simp only [Shape.targetsOf, Shape.setBBs]
    split_ifs <;> cases site.outputs.shape.insts id <;> rfl
  · simp [Shape.splice, Shape.relink, Shape.setList, Shape.setBBs, isBB, Store.shape]

theorem excess {succ : BlockId} (notFirst : succ ≠ site.first) (pred : BlockId) :
    store'.excess pred succ = store.excess pred succ +
      if pred = site.first then ((site.outputs.succs site.first).count succ : Int) else 0 := by
  have final : store'.excess = site.removed.excess := congrArg Shape.excess site.finalShape
  have removed : site.removed.excess = site.joined.excess := congrArg Shape.excess site.removedShape
  have joined := congrFun (congrFun (congrArg Shape.excess site.joinedShape) pred) succ
  have outputs : site.outputs.excess = store.excess := site.outputs_shape_frame.1
  rw [final, removed]
  refine joined.trans ?_
  simp only [Shape.setFunction, Shape.dropBB, Shape.splice, Shape.relink, Shape.setList,
    Shape.setBBs, if_neg notFirst, Function.update_apply, Store.shape, outputs]
  by_cases isFirst : pred = site.first
  · have notBB : pred ≠ site.bb := by
      rw [isFirst]
      exact site.bb_ne_first.symm
    rw [if_pos isFirst, if_pos isFirst, if_neg notBB, isFirst]
    omega
  · rw [if_neg isFirst, if_neg isFirst]
    omega

/-! ### What the steps do to the blocks of the callee -/

theorem mem_calleeBBs {bb : BlockId} : bb ∈ store.shape.bbs site.callee ↔ bb ∈ site.source.bbs := by
  rw [Shape.bbs_eq site.sourceFound]

theorem split_succs {bb : BlockId} (old : bb ≠ store.nextBlock) :
    site.split.succs bb = store.succs bb := by
  have succs := congrFun (congrArg Shape.succs site.splitShape) bb
  refine succs.trans ?_
  simp [Shape.splice, Shape.relink, Shape.setList, Shape.setBBs, Shape.addBB, Shape.setFunction, old,
    Store.shape]

theorem split_lists {bb : BlockId} (old : bb ≠ store.nextBlock) (notBB : bb ≠ site.bb) :
    site.split.instructions bb = store.instructions bb := by
  have lists := congrFun (congrArg Shape.lists site.splitShape) bb
  refine lists.trans ?_
  simp [Shape.splice, Shape.relink, Shape.setList, Shape.setBBs, Shape.addBB, Shape.setFunction, old,
    notBB, Store.shape]

theorem split_kindOf (id : InstId) : site.split.kindOf id = store.kindOf id := by
  rw [kindOf_shape, kindOf_shape, site.splitShape]
  simp only [Shape.splice, Shape.relink, Shape.setList, Shape.setBBs, Shape.addBB, Shape.setFunction]
  split_ifs <;> cases store.shape.insts id <;> rfl

theorem inputs_succs (bb : BlockId) : site.inputs.succs bb = site.split.succs bb :=
  congrFun (congrArg Shape.succs site.inputsShape) bb

theorem inputs_lists (bb : BlockId) : site.inputs.instructions bb =
    if bb = site.first then (site.split.instructions bb).diff site.params
    else site.split.instructions bb := by
  have lists := congrFun (congrArg Shape.lists site.inputsShape) bb
  refine lists.trans ?_
  by_cases isFirst : bb = site.first <;> simp [Shape.eraseInsts, isFirst, Store.shape]

theorem inputs_kindOf {id : InstId} (notParam : id ∉ site.params) :
    site.inputs.kindOf id = store.kindOf id := by
  rw [← site.split_kindOf, kindOf_shape, kindOf_shape, site.inputsShape]
  simp [Shape.eraseInsts, notParam]

theorem merged_succs (bb : BlockId) : site.merged.succs bb = site.inputs.succs bb := by
  rcases site.isMerged with ⟨-, same⟩ | ⟨-, vars, -, same⟩ <;> rw [same] <;> rfl

theorem merged_lists {bb : BlockId} (old : bb ≠ store.nextBlock) :
    site.merged.lists bb = site.inputs.instructions bb := by
  rcases site.isMerged with ⟨-, same⟩ | ⟨-, vars, -, same⟩
  · rw [same]
    rfl
  · rw [same]
    simp [Shape.place, Shape.setList, Shape.setInst, old, Store.shape]

/-- The callee leads to blocks of its own only. -/
def ClosedCallee : Prop :=
  ∀ bb ∈ store.shape.bbs site.callee, ∀ succ ∈ store.succs bb, succ ∈ store.shape.bbs site.callee

theorem callee_ne_after {bb : BlockId} (member : bb ∈ store.shape.bbs site.callee) :
    bb ≠ store.nextBlock :=
  site.ne_after (site.tidy.apart.present site.callee bb member)

theorem closed_cfg (closed : site.ClosedCallee) : (site.inputs.cfg site.source).Closed where
  nodup := by
    have nodup := site.tidy.apart.nodup site.callee
    rwa [Shape.bbs_eq site.sourceFound] at nodup
  entry_mem := by simp [cfg, graphOf, root, site.blocks]
  succs_mem := by
    intro bb member succ edge
    change succ ∈ site.source.bbs
    have inCallee := site.mem_calleeBBs.mpr member
    apply site.mem_calleeBBs.mp
    apply closed bb inCallee
    rw [← site.split_succs (site.callee_ne_after inCallee), ← site.inputs_succs]
    exact edge

/-- The blocks the callee can enter are its own. -/
theorem order_subset (closed : site.ClosedCallee) {bb : BlockId} (member : bb ∈ site.order) :
    bb ∈ store.shape.bbs site.callee := by
  rw [site.isOrder] at member
  apply site.mem_calleeBBs.mpr
  apply (site.closed_cfg closed).mem_of_reachable
  exact (mem_preOrder (site.closed_cfg closed)).mp member

theorem first_mem_order : site.first ∈ site.order := by
  rw [site.isOrder]
  have entry : (site.inputs.cfg site.source).entryPoint = site.first := by
    simp [cfg, graphOf, root, site.blocks]
  rw [← entry]
  exact List.mem_of_head? preOrder_head

/-! ### What the returns do -/

theorem ret_below {bb : BlockId} {ret : InstId} (isRet : retOf site.inputs bb = some ret) :
    ret < site.inputs.nextInst := by
  apply site.inputsTidy.settled.allocated
  rw [knowsBlocks_retOf site.inputsTidy isRet]
  simp

theorem merged_home {bb : BlockId} {ret : InstId} (isRet : retOf site.inputs bb = some ret) :
    (site.merged.insts ret).map Inst.bb = some (some bb) := by
  rw [site.isMerged.insts (site.ret_below isRet), ← homeOf_shape]
  exact knowsBlocks_retOf site.inputsTidy isRet

theorem mem_rets {ret : InstId} : ret ∈ site.rets ↔ ∃ bb ∈ site.order, retOf site.inputs bb = some ret := by
  rw [site.isRets, List.mem_filterMap]

/-- A block without a return stays as it is. -/
theorem outputs_of_not {bb : BlockId} (noRet : bb ∉ site.order ∨ retOf site.inputs bb = none) :
    site.outputs.instructions bb = site.merged.lists bb ∧
      site.outputs.succs bb = site.split.succs bb := by
  have others := site.returned.others bb (by
    intro ret member equal
    rcases site.mem_rets.mp member with ⟨home, homeMem, isRet⟩
    rw [site.merged_home isRet] at equal
    cases equal
    cases noRet with
    | inl notMem => exact notMem homeMem
    | inr none => cases none.symm.trans isRet)
  refine ⟨others.1, others.2.trans ?_⟩
  rw [site.merged_succs, site.inputs_succs]

theorem outputs_of_ret {bb : BlockId} {ret : InstId} (member : bb ∈ site.order)
    (isRet : retOf site.inputs bb = some ret) : site.outputs.succs bb = [store.nextBlock] := by
  rcases site.returned.replaced ret (site.mem_rets.mpr ⟨bb, member, isRet⟩) with
    ⟨inst, home, jump, found, isHome, -, -, -, -, leads, -⟩
  have same := site.merged_home isRet
  rw [found, Option.map_some, isHome] at same
  cases same
  exact leads

theorem inputs_nextInst : site.inputs.nextInst = store.nextInst := by
  have inputs : site.inputs.nextInst = site.split.nextInst :=
    congrArg Shape.nextInst site.inputsShape
  have split : site.split.nextInst = store.nextInst := congrArg Shape.nextInst site.splitShape
  rw [inputs, split]

theorem merged_nextInst : store.nextInst ≤ site.merged.nextInst := by
  rw [← site.inputs_nextInst]
  rcases site.isMerged with ⟨-, same⟩ | ⟨-, vars, -, same⟩ <;> rw [same]
  · exact le_rfl
  · exact Nat.le_succ _

theorem outputs_kindOf {id : InstId} (below : id < store.nextInst) (notParam : id ∉ site.params)
    (notRet : id ∉ site.rets) : site.outputs.kindOf id = store.kindOf id := by
  have belowMerged := Nat.lt_of_lt_of_le below site.merged_nextInst
  rw [← site.inputs_kindOf notParam, kindOf_shape, kindOf_shape,
    site.returned.insts id belowMerged, if_neg notRet,
    site.isMerged.insts (site.inputs_nextInst ▸ below)]

/-! ### What is in the blocks -/

theorem split_lists_bb : site.split.instructions site.bb = site.front ++ [call] := by
  have lists := congrFun (congrArg Shape.lists site.splitShape) site.bb
  refine lists.trans ?_
  have old := site.ne_after (site.tidy.apart.present func _ site.bbMem)
  simp [Shape.splice, Shape.relink, Shape.setList, old]

theorem split_lists_after : site.split.instructions store.nextBlock = site.back := by
  have lists := congrFun (congrArg Shape.lists site.splitShape) store.nextBlock
  refine lists.trans ?_
  have absent : store.blocks store.nextBlock = none := not_not.mp site.tidy.apart.fresh
  simp [Shape.splice, Shape.relink, Shape.setList, Shape.setBBs, Shape.addBB, Shape.setFunction,
    Store.shape, instructions, absent]

theorem lists (bb : BlockId) : store'.instructions bb =
    if bb = site.first then []
    else if bb = site.bb then
      (site.outputs.instructions site.bb ++ site.outputs.instructions site.first).erase call
    else site.outputs.instructions bb := by
  have final : store'.instructions = site.removed.instructions :=
    congrArg Shape.lists site.finalShape
  have removed : site.removed.instructions = Function.update site.joined.instructions site.bb
      ((site.joined.instructions site.bb).diff [call]) := congrArg Shape.lists site.removedShape
  have joined : site.joined.instructions = Function.update
      (site.outputs.shape.splice site.bb site.first [] (site.outputs.instructions site.first)).lists
      site.first [] := congrArg Shape.lists site.joinedShape
  rw [final, removed, joined]
  simp only [Function.update_apply, Shape.splice, Shape.relink, Shape.setList, Shape.setBBs,
    List.diff_cons, List.diff_nil]
  by_cases isBB : bb = site.bb
  · rw [if_pos isBB, isBB, if_neg site.bb_ne_first, if_neg site.bb_ne_first, if_pos rfl, if_pos trivial,
      if_neg site.bb_ne_first]
    rfl
  · rw [if_neg isBB, if_neg isBB, if_neg isBB]
    split_ifs <;> rfl

/-- Only the call goes after the blocks of the callee have been adjusted. -/
theorem kindOf_outputs {id : InstId} (notCall : id ≠ call) :
    store'.kindOf id = site.outputs.kindOf id := by
  have final : store'.shape.insts = site.removed.shape.insts := by
    rw [site.finalShape]
    rfl
  have removed : site.removed.shape.insts id = site.joined.shape.insts id := by
    rw [site.removedShape]
    simp [Shape.eraseInsts, notCall]
  have emptied : (site.outputs.shape.splice site.bb site.first []
      (site.outputs.instructions site.first)).lists site.first = [] := by
    simp [Shape.splice, Shape.relink, Shape.setList, site.bb_ne_first.symm]
  have joined : site.joined.shape.insts id = (site.outputs.shape.splice site.bb site.first []
      (site.outputs.instructions site.first)).insts id := by
    rw [site.joinedShape]
    simp [Shape.dropBB, Shape.setFunction, emptied]
  rw [kindOf_shape, kindOf_shape, final, removed, joined]
  simp only [Shape.splice, Shape.relink, Shape.setList, Shape.setBBs]
  split_ifs <;> cases site.outputs.shape.insts id <;> rfl

theorem kindOf {id : InstId} (below : id < store.nextInst) (notParam : id ∉ site.params)
    (notRet : id ∉ site.rets) (notCall : id ≠ call) : store'.kindOf id = store.kindOf id := by
  rw [site.kindOf_outputs notCall, site.outputs_kindOf below notParam notRet]

/-- What is neither a parameter nor a return stays in its list until the blocks are joined. -/
theorem mem_outputs {bb : BlockId} {id : InstId} (inSplit : id ∈ site.split.instructions bb)
    (notParam : id ∉ site.params) (notRet : id ∉ site.rets) :
    id ∈ site.outputs.instructions bb := by
  have inInputs : id ∈ site.inputs.instructions bb := by
    rw [site.inputs_lists]
    split_ifs
    · exact List.mem_diff_of_mem inSplit notParam
    · exact inSplit
  have inMerged : id ∈ site.merged.lists bb := by
    by_cases isAfter : bb = store.nextBlock
    · subst isAfter
      rcases site.isMerged with ⟨-, same⟩ | ⟨-, vars, -, same⟩
      · rw [same]
        exact inInputs
      · rw [same]
        simp [Shape.place, Shape.setList, inInputs]
    · rw [site.merged_lists isAfter]
      exact inInputs
  by_cases returns : ∃ ret, bb ∈ site.order ∧ retOf site.inputs bb = some ret
  · rcases returns with ⟨ret, member, isRet⟩
    rcases site.returned.replaced ret (site.mem_rets.mpr ⟨bb, member, isRet⟩) with
      ⟨inst, home, jump, found, isHome, -, -, replaced, -⟩
    have same := site.merged_home isRet
    rw [found, Option.map_some, isHome] at same
    cases same
    have notSelf : id ≠ ret := by
      rintro rfl
      exact notRet (site.mem_rets.mpr ⟨bb, member, isRet⟩)
    rw [show site.outputs.instructions bb = site.outputs.shape.lists bb from rfl, replaced]
    exact List.mem_append_left _ ((List.mem_erase_of_ne notSelf).mpr inMerged)
  · have noRet : bb ∉ site.order ∨ retOf site.inputs bb = none := by
      by_cases member : bb ∈ site.order
      · right
        rw [Option.eq_none_iff_forall_ne_some]
        exact fun ret isRet => returns ⟨ret, member, isRet⟩
      · exact .inl member
    rw [(site.outputs_of_not noRet).1]
    exact inMerged

theorem not_param_of_kind {id : InstId} {kind : InstKind} (isKind : store.kindOf id = some kind)
    (notParam : ∀ idx, kind ≠ .kParam idx) : id ∉ site.params := by
  intro member
  rcases site.paramKinds id member with ⟨idx, isParam⟩
  rw [site.split_kindOf, isKind] at isParam
  exact notParam idx (Option.some.inj isParam)

theorem not_ret_of_kind {id : InstId} {kind : InstKind} (isKind : store.kindOf id = some kind)
    (notParam : ∀ idx, kind ≠ .kParam idx) (notRet : kind ≠ .kRet) : id ∉ site.rets := by
  intro member
  rcases site.mem_rets.mp member with ⟨bb, -, isRet⟩
  have retKind := (retOf_eq_some.mp isRet).2
  rw [site.inputs_kindOf (site.not_param_of_kind isKind notParam), isKind] at retKind
  exact notRet (Option.some.inj retKind)

/-- What is in the caller stays there. -/
theorem calledIn_caller {id : InstId} (notParam : id ∉ site.params) (notRet : id ∉ site.rets)
    (notCall : id ≠ call) (calledIn : CalledIn store func id) : CalledIn store' func id := by
  have bbs := site.bbs func
  rw [if_pos rfl] at bbs
  rcases calledIn with ⟨bb, bbMem, inBlock⟩
  have present := site.tidy.apart.present func bb bbMem
  have old := site.ne_after present
  have notFirst : bb ≠ site.first := fun equal => site.first_not_mem (equal ▸ bbMem)
  have afterFirst := (site.ne_after site.first_present).symm
  have afterBB := (site.ne_after (site.tidy.apart.present func _ site.bbMem)).symm
  cases decEq bb site.bb with
  | isTrue isBB =>
      rw [isBB, site.here, List.mem_append, List.mem_cons] at inBlock
      rcases inBlock with inFront | isCall | inBack
      · refine ⟨site.bb, by rw [bbs]; simp [site.bbMem], ?_⟩
        have inSplit : id ∈ site.split.instructions site.bb := by
          rw [site.split_lists_bb]
          exact List.mem_append_left _ inFront
        rw [site.lists, if_neg site.bb_ne_first, if_pos rfl, List.mem_erase_of_ne notCall]
        exact List.mem_append_left _ (site.mem_outputs inSplit notParam notRet)
      · exact absurd isCall notCall
      · refine ⟨store.nextBlock, by rw [bbs]; simp, ?_⟩
        rw [site.lists, if_neg afterFirst, if_neg afterBB]
        exact site.mem_outputs (site.split_lists_after.symm ▸ inBack) notParam notRet
  | isFalse notBB =>
      refine ⟨bb, by rw [bbs]; simp [bbMem], ?_⟩
      rw [site.lists, if_neg notFirst, if_neg notBB]
      exact site.mem_outputs ((site.split_lists old notBB).symm ▸ inBlock) notParam notRet

theorem below_of_calledIn {id : InstId} {key : FuncId} (calledIn : CalledIn store key id) :
    id < store.nextInst := by
  rcases calledIn with ⟨bb, -, inBlock⟩
  apply site.tidy.settled.allocated
  rw [site.tidy.settled.knows bb id inBlock]
  simp

theorem stays_in_caller {id : InstId} {kind : InstKind} (isKind : store.kindOf id = some kind)
    (notParam : ∀ idx, kind ≠ .kParam idx) (notRet : kind ≠ .kRet) (notCall : id ≠ call)
    (calledIn : CalledIn store func id) :
    CalledIn store' func id ∧ store'.kindOf id = some kind := by
  have outParams := site.not_param_of_kind isKind notParam
  have outRets := site.not_ret_of_kind isKind notParam notRet
  refine ⟨site.calledIn_caller outParams outRets notCall calledIn, ?_⟩
  rw [site.kindOf (site.below_of_calledIn calledIn) outParams outRets notCall, isKind]

end Site

/-! ## All calls -/

/-- The calls that are still to be inlined. -/
structure Pending (store : Store) (func : FuncId) (calls : List InstId) : Prop where
  nodup : calls.Nodup
  calledIn : ∀ call ∈ calls, CalledIn store func call
  callee : ∀ call ∈ calls, ∃ callee, callee ≠ func ∧ store.kindOf call = some (.kCall callee) ∧
    ∀ function, store.functions callee = some function → function.resType ≠ .None

theorem Pending.site {rest : List InstId} (pending : Pending store func (call :: rest))
    (tidy : store.Tidy) (result : doInline func store call = .ok store') :
    Nonempty (Site func call store store') := by
  rcases pending.callee call List.mem_cons_self with ⟨callee, different, isCall, value⟩
  apply doInline_site tidy (pending.calledIn call List.mem_cons_self) _ _ result
  · intro again isAgain
    cases isCall.symm.trans isAgain
    exact different
  · intro again function isAgain
    cases isCall.symm.trans isAgain
    exact value function

theorem Site.pending {rest : List InstId} (site : Site func call store store')
    (pending : Pending store func (call :: rest)) : Pending store' func rest := by
  have nodup := List.nodup_cons.mp pending.nodup
  have stays : ∀ other ∈ rest, ∀ callee, store.kindOf other = some (.kCall callee) →
      CalledIn store' func other ∧ store'.kindOf other = some (.kCall callee) := by
    intro other member callee isCall
    apply site.stays_in_caller isCall
    · intro idx equal
      cases equal
    · intro equal
      cases equal
    · rintro rfl
      exact nodup.1 member
    · exact pending.calledIn other (List.mem_cons_of_mem _ member)
  constructor
  · exact nodup.2
  · intro other member
    rcases pending.callee other (List.mem_cons_of_mem _ member) with ⟨callee, -, isCall, -⟩
    exact (stays other member callee isCall).1
  · intro other member
    rcases pending.callee other (List.mem_cons_of_mem _ member) with ⟨callee, different, isCall, value⟩
    refine ⟨callee, different, (stays other member callee isCall).2, ?_⟩
    intro function found
    rw [site.functions, if_neg different] at found
    split_ifs at found with isCallee
    · cases found
      exact site.value
    · exact value function found

/-- What each inlining keeps holds after all of them. -/
theorem Pending.run {holds : Store → Prop} {calls : List InstId} (pending : Pending store func calls)
    (tidy : store.Tidy) (start : holds store)
    (step : ∀ {store store' : Store} {call : InstId}, Site func call store store' → holds store →
      holds store')
    (result : calls.foldlM (doInline func) store = .ok store') : holds store' ∧ store'.Tidy := by
  induction calls generalizing store with
  | nil =>
      cases result
      exact ⟨start, tidy⟩
  | cons call rest induction =>
      rw [List.foldlM_cons] at result
      rcases Result.bind_eq_ok.mp result with ⟨next, first, later⟩
      rcases pending.site tidy first with ⟨site⟩
      exact induction (site.pending pending) site.tidy' (step site start) later

theorem isCall_eq_true {id : InstId} {holds : Bool} (result : isCall store id = .ok holds) :
    holds = true ↔ ∃ callee, store.kindOf id = some (.kCall callee) := by
  rcases Result.bind_eq_ok.mp result with ⟨inst, found, continued⟩
  rw [kindOf_eq (inst_eq_ok.mp found)]
  cases kind : inst.kind <;> rw [kind] at continued <;> cases continued <;> simp

/-- A call that is reached is a candidate. -/
theorem mem_candidates {function : Function} {calls : List InstId}
    (found : store.functions func = some function) (closed : (store.cfg function).Closed)
    (result : fillCandidates store func = .ok calls) {id : InstId} : id ∈ calls ↔
      ∃ bb, (store.cfg function).Reachable bb ∧ id ∈ store.instructions bb ∧
        ∃ callee, store.kindOf id = some (.kCall callee) := by
  rcases Result.bind_eq_ok.mp result with ⟨again, foundAgain, continued⟩
  rcases Result.bind_eq_ok.mp continued with ⟨graph, making, collecting⟩
  cases Option.some.inj (found.symm.trans (function_eq_ok.mp foundAgain))
  have nonempty : function.bbs ≠ [] := List.ne_nil_of_mem closed.entry_mem
  rw [makeBBGraph_eq nonempty] at making
  cases making
  rcases collect_eq_ok collecting with ⟨rfl, decided⟩
  rw [List.mem_filter, List.mem_flatMap]
  constructor
  · rintro ⟨⟨bb, ordered, inBlock⟩, chosen⟩
    rcases decided id (List.mem_flatMap.mpr ⟨bb, ordered, inBlock⟩) with ⟨holds, answered⟩
    refine ⟨bb, (mem_reversePostOrder closed).mp ordered, inBlock, (isCall_eq_true answered).mp ?_⟩
    simpa [answered, answer] using chosen
  · rintro ⟨bb, reachable, inBlock, isCall⟩
    have ordered := (mem_reversePostOrder closed).mpr reachable
    rcases decided id (List.mem_flatMap.mpr ⟨bb, ordered, inBlock⟩) with ⟨holds, answered⟩
    refine ⟨⟨bb, ordered, inBlock⟩, ?_⟩
    have isTrue := (isCall_eq_true answered).mpr isCall
    simp [answered, answer, isTrue]

theorem inOrder_nodup (tidy : store.Tidy) (function : Function) :
    (store.inOrder function).Nodup := by
  rw [inOrder, List.nodup_flatMap]
  refine ⟨fun bb _ => tidy.settled.nodup bb, ?_⟩
  apply reversePostOrder_nodup.imp
  intro bb other different id inBlock inOther
  exact different (tidy.settled.home_unique inBlock inOther)

/-- The calls are collected in reverse postorder. -/
theorem candidates_sublist {function : Function} {calls : List InstId}
    (found : store.functions func = some function)
    (result : fillCandidates store func = .ok calls) :
    calls.Sublist (store.inOrder function) := by
  rcases Result.bind_eq_ok.mp result with ⟨again, foundAgain, continued⟩
  rcases Result.bind_eq_ok.mp continued with ⟨graph, making, collecting⟩
  cases Option.some.inj (found.symm.trans (function_eq_ok.mp foundAgain))
  have nonempty : function.bbs ≠ [] := by
    intro isEmpty
    simp [makeBBGraph, isEmpty] at making
  rw [makeBBGraph_eq nonempty] at making
  cases making
  rw [(collect_eq_ok collecting).1]
  exact List.filter_sublist

theorem candidates_nodup {calls : List InstId} (tidy : store.Tidy)
    (result : fillCandidates store func = .ok calls) : calls.Nodup := by
  rcases Result.bind_eq_ok.mp result with ⟨function, found, -⟩
  exact (candidates_sublist (function_eq_ok.mp found) result).nodup (inOrder_nodup tidy function)

/-- A callee that returns a value and is not the caller. -/
structure ReturnsValue (store : Store) (func callee : FuncId) : Prop where
  different : callee ≠ func
  value : ∀ function, store.functions callee = some function → function.resType ≠ .None

theorem pending_candidates {function : Function} {calls : List InstId} (tidy : store.Tidy)
    (found : store.functions func = some function) (closed : (store.cfg function).Closed)
    (callees : ∀ id, CalledIn store func id → ∀ callee, store.kindOf id = some (.kCall callee) →
      ReturnsValue store func callee)
    (result : fillCandidates store func = .ok calls) : Pending store func calls := by
  have calledIn : ∀ id ∈ calls, CalledIn store func id ∧
      ∃ callee, store.kindOf id = some (.kCall callee) := by
    intro id member
    rcases (mem_candidates found closed result).mp member with ⟨bb, reachable, inBlock, isCall⟩
    refine ⟨⟨bb, ?_, inBlock⟩, isCall⟩
    rw [Shape.bbs_eq (show store.shape.functions func = some function from found)]
    exact closed.mem_of_reachable reachable
  constructor
  · exact candidates_nodup tidy result
  · exact fun id member => (calledIn id member).1
  · intro id member
    rcases calledIn id member with ⟨called, callee, isCall⟩
    have fits := callees id called callee isCall
    exact ⟨callee, fits.different, isCall, fits.value⟩

end LeechJit.Opt.Inlining
