import LeechJit.Opt.InlineRoutes

/-! # Definitions after inlining

What was defined before the call is available in the blocks of the callee, and so is what was
available there before. Behind the call there is what the callee returned.
-/

namespace LeechJit.Opt.Inlining

open IR Store Bindings

variable {store store' : Store} {caller source target : Function} {func : FuncId}
  {call id value operand now ret : InstId} {bb pred other : BlockId} {front back : List InstId}
  {vars : List PhiEntry}

namespace Expansion

variable (expansion : Expansion store store' caller source call)

/-- An expansion whose blocks lead where they should, of a callee that returns. -/
structure Placed (target : Function) : Prop
    extends expansion.Faithful, expansion.Routed target where
  callerNames : store.NamesPreds caller
  calleeNames : store.NamesPreds source
  returns : ∃ bb ∈ source.bbs, retOf store bb ≠ none

/-- The values that are there when a block is entered. -/
inductive AvailableAt : BlockId → InstId → Prop
  | caller {bb : BlockId} {value : InstId} (bbMem : bb ∈ caller.bbs)
      (reaches : value ∈ store.reaches caller bb) :
      AvailableAt bb (subst call expansion.value value)
  | before {bb : BlockId} {value : InstId} (outside : bb ∉ caller.bbs)
      (defined : store.DefinedBefore caller value expansion.bb expansion.front) :
      AvailableAt bb value
  | inside {bb : BlockId} {operand now : InstId} (bbMem : bb ∈ source.bbs)
      (notFirst : bb ≠ expansion.first) (reaches : operand ∈ store.reaches source bb)
      (boundTo : BoundTo store expansion.first call operand now) : AvailableAt bb now
  | returned (lists : store'.instructions expansion.after = expansion.back) :
      AvailableAt expansion.after expansion.value

/-- The values that are there when a block ends. -/
def AtEnd (bb : BlockId) (value : InstId) : Prop :=
  value ∈ store'.instructions bb ∨ expansion.AvailableAt bb value

/-- Nothing is defined before the first block of the callee. -/
theorem ne_first_of_reaches (reaches : operand ∈ store.reaches source bb) :
    bb ≠ expansion.first := by
  rintro rfl
  rw [← expansion.isFirst] at reaches
  exact not_reaches_root reaches

namespace Placed

variable {expansion : Expansion store store' caller source call}
  (placed : expansion.Placed target)

include placed

/-! ## Where the call stands -/

theorem call_not_mem (bbMem : bb ∈ caller.bbs) (notBB : bb ≠ expansion.bb) :
    call ∉ store.instructions bb := by
  intro inBlock
  have here : call ∈ store.instructions expansion.bb := by simp [expansion.here]
  exact notBB (placed.grounded.home_unique bbMem expansion.bbMem inBlock here)

theorem call_not_front : call ∉ expansion.front ∧ call ∉ expansion.back := by
  have nodup := placed.grounded.instructions_nodup expansion.bbMem
  rw [expansion.here] at nodup
  rw [← not_or, ← List.mem_append]
  exact (List.nodup_cons.mp (List.nodup_middle.mp nodup)).1

theorem ne_call_of_before (defined : store.DefinedBefore caller value expansion.bb
    expansion.front) : value ≠ call := by
  rintro rfl
  rcases defined with inFront | ⟨dom, domMem, inDom, different, -⟩
  · exact placed.call_not_front.1 inFront
  · exact placed.call_not_mem domMem different inDom

theorem arg_before {arg : InstId} (isArg : arg ∈ store.inputs call) :
    store.DefinedBefore caller arg expansion.bb expansion.front := by
  rcases placed.isCall with ⟨callee, isCall⟩
  rcases placed.grounded.stored call expansion.call_listed with ⟨inst, found⟩
  rw [kindOf_eq found, Option.some.injEq] at isCall
  have notPhi : inst.kind.isPhi = false := by
    rw [isCall]
    rfl
  rw [inputs_eq found] at isArg
  exact placed.grounded.usesDefined.uses _ expansion.bbMem _ _ _ expansion.here inst found notPhi
    arg isArg (Set.mem_univ _)

/-- What a block of the callee branches to is another block of it than the first one. -/
theorem callee_succ (bbMem : bb ∈ source.bbs) (edge : other ∈ store.succs bb) :
    other ∈ source.bbs ∧ other ≠ expansion.first := by
  refine ⟨placed.body.closed.succs_mem bb bbMem other edge, ?_⟩
  rintro rfl
  exact placed.notEntered bb bbMem edge

/-- A block with a return leads nowhere. -/
theorem not_ret_of_succ (bbMem : bb ∈ source.bbs) (edge : other ∈ store.succs bb)
    (inBlock : id ∈ store.instructions bb) : store.kindOf id ≠ some .kRet := by
  intro isRet
  rcases List.append_of_mem inBlock with ⟨front, back, split⟩
  rcases kindOf_ne_none.mp (isRet ▸ Option.some_ne_none _) with ⟨inst, found⟩
  rw [kindOf_eq found, Option.some.injEq] at isRet
  have succs := (placed.body.last_of_terminator bbMem split found (by rw [isRet]; rfl)).2
  rw [succs, isRet] at edge
  cases edge

/-! ## What is there when a block ends -/

/-- What was defined before the call is there for the instructions of the callee. -/
theorem before_callee (bbMem : bb ∈ source.bbs)
    (defined : store.DefinedBefore caller value expansion.bb expansion.front) :
    value ∈ expansion.lead bb ∨ expansion.AvailableAt (expansion.into bb) value := by
  by_cases isFirst : bb = expansion.first
  · rw [lead, into, if_pos isFirst, if_pos isFirst]
    have notCall := placed.ne_call_of_before defined
    rw [definedBefore_iff_reaches] at defined
    refine defined.imp_right fun reaches => ?_
    have available : expansion.AvailableAt expansion.bb (subst call expansion.value value) :=
      .caller expansion.bbMem reaches
    rwa [subst_of_ne notCall] at available
  · rw [into, if_neg isFirst]
    exact .inr (.before (fun inCaller => placed.disjoint bb inCaller bbMem) defined)

theorem before_atEnd (bbMem : bb ∈ source.bbs)
    (defined : store.DefinedBefore caller value expansion.bb expansion.front) :
    expansion.AtEnd (expansion.into bb) value := by
  rcases expansion.body bbMem with ⟨ids, lists, -⟩
  refine (placed.before_callee bbMem defined).imp_left fun inLead => ?_
  rw [lists]
  exact List.mem_append_left _ inLead

/-- What a value of the callee has become is there where the value was. -/
theorem bound_atEnd (bbMem : bb ∈ source.bbs)
    (defined : (operand ∈ store.instructions bb ∧ store.kindOf operand ≠ some .kRet) ∨
      operand ∈ store.reaches source bb)
    (boundTo : BoundTo store expansion.first call operand now) :
    expansion.AtEnd (expansion.into bb) now := by
  have isBound := boundTo
  cases boundTo with
  | argument _ _ isArg _ =>
      exact placed.before_atEnd bbMem (placed.arg_before (List.mem_of_getElem? isArg))
  | kept notParam =>
      rcases defined with ⟨inBlock, notRet⟩ | reaches
      · rcases expansion.body bbMem with ⟨ids, lists, trails⟩
        left
        rw [lists]
        exact List.mem_append_right _ (trails.mem inBlock notParam notRet)
      · have notFirst := expansion.ne_first_of_reaches reaches
        rw [expansion.into_ne_first bb notFirst]
        exact .inr (.inside bbMem notFirst reaches isBound)

/-- What is returned is there where it is returned. -/
theorem returned_atEnd (bbMem : bb ∈ source.bbs) (inBlock : ret ∈ store.instructions bb)
    (isRet : store.kindOf ret = some .kRet)
    (returned : ReturnedFrom store expansion.first call ret value) :
    expansion.AtEnd (expansion.into bb) value := by
  rcases returned with ⟨operand, isOperand, boundTo⟩
  apply placed.bound_atEnd bbMem _ boundTo
  rcases List.append_of_mem inBlock with ⟨front, back, split⟩
  rcases kindOf_ne_none.mp (isRet ▸ Option.some_ne_none _) with ⟨inst, found⟩
  rw [kindOf_eq found, Option.some.injEq] at isRet
  have isInput := List.mem_of_getElem? isOperand
  rw [inputs_eq found] at isInput
  have defined := placed.body.usesDefined.uses bb bbMem front ret back split inst found
    (by rw [isRet]; rfl) operand isInput (Set.mem_univ _)
  rw [definedBefore_iff_reaches] at defined
  refine defined.imp_left fun inFront => ⟨by simp [split, inFront], ?_⟩
  -- A return is the last instruction of its block.
  intro isRet'
  rcases List.append_of_mem inFront with ⟨before, between, rfl⟩
  rcases kindOf_ne_none.mp (isRet' ▸ Option.some_ne_none _) with ⟨other, foundOther⟩
  rw [kindOf_eq foundOther, Option.some.injEq] at isRet'
  rw [List.append_assoc, List.cons_append] at split
  have isLast := (placed.body.last_of_terminator bbMem split foundOther (by rw [isRet']; rfl)).1
  simp at isLast

/-- In the other blocks of the caller there is what was there. -/
theorem caller_atEnd (bbMem : bb ∈ caller.bbs) (notBB : bb ≠ expansion.bb)
    (defined : value ∈ store.instructions bb ∨ value ∈ store.reaches caller bb) :
    expansion.AtEnd bb (subst call expansion.value value) := by
  rcases defined with inBlock | reaches
  · left
    have notCall : value ≠ call := by
      rintro rfl
      exact placed.call_not_mem bbMem notBB inBlock
    rwa [subst_of_ne notCall, expansion.others bb bbMem notBB]
  · exact .inr (.caller bbMem reaches)

omit placed in
theorem value_atEnd : expansion.AtEnd expansion.after expansion.value := by
  cases expansion.returning with
  | single lists _ => exact .inr (.returned lists)
  | phi lists _ _ _ _ _ _ _ _ =>
      left
      rw [lists]
      exact List.mem_cons_self

omit placed in
theorem back_subset : expansion.back ⊆ store'.instructions expansion.after := by
  cases expansion.returning with
  | single lists _ => exact lists ▸ List.Subset.refl _
  | phi lists _ _ _ _ _ _ _ _ => exact lists ▸ List.subset_cons_self _ _

/-- Behind the call there is what was in its block. -/
theorem after_atEnd
    (defined : value ∈ store.instructions expansion.bb ∨
      value ∈ store.reaches caller expansion.bb) :
    expansion.AtEnd expansion.after (subst call expansion.value value) := by
  have early : store.DefinedBefore caller value expansion.bb expansion.front →
      expansion.AtEnd expansion.after (subst call expansion.value value) := by
    intro defined
    rw [subst_of_ne (placed.ne_call_of_before defined)]
    exact .inr (.before placed.fresh.1 defined)
  rcases defined with inBlock | reaches
  · rw [expansion.here, List.mem_append, List.mem_cons] at inBlock
    rcases inBlock with inFront | rfl | inBack
    · exact early (.inl inFront)
    · rw [subst_self]
      exact value_atEnd
    · have notCall : value ≠ call := by
        rintro rfl
        exact placed.call_not_front.2 inBack
      rw [subst_of_ne notCall]
      exact .inl (back_subset inBack)
  · exact early (definedBefore_iff_reaches.mpr (.inr reaches))

/-! ## Along the edges -/

theorem kinds_of_mem (bbMem : bb ∈ target.bbs) : (bb ∈ caller.bbs ∧ bb ≠ expansion.bb) ∨
    (∃ own ∈ source.bbs, bb = expansion.into own) ∨ bb = expansion.after := by
  rcases (placed.mem_bbs bb).mp bbMem with inCaller | ⟨inCallee, notFirst⟩ | isAfter
  · by_cases isBB : bb = expansion.bb
    · refine .inr (.inl ⟨expansion.first, ?_, by rw [into, if_pos rfl, isBB]⟩)
      have closed := placed.body.closed.entry_mem
      rwa [show (store.cfg source).entryPoint = expansion.first from expansion.isFirst] at closed
    · exact .inl ⟨inCaller, isBB⟩
  · exact .inr (.inl ⟨bb, inCallee, (expansion.into_ne_first bb notFirst).symm⟩)
  · exact .inr (.inr isAfter)

theorem succs_into (bbMem : bb ∈ source.bbs) (edge : other ∈ store'.succs (expansion.into bb)) :
    other ∈ store.succs bb ∨ (other = expansion.after ∧ retOf store bb ≠ none) := by
  rw [placed.inside bb bbMem] at edge
  split_ifs at edge with noReturn
  · exact .inl edge
  · exact .inr ⟨List.mem_singleton.mp edge, noReturn⟩

theorem closed_target : (store'.cfg target).Closed where
  nodup := placed.nodup
  entry_mem := by
    have rootMem : root caller ∈ caller.bbs := placed.grounded.closed.entry_mem
    change root target ∈ target.bbs
    rw [placed.sameRoot]
    exact (placed.mem_bbs _).mpr (.inl rootMem)
  succs_mem := by
    intro bb bbMem succ edge
    change succ ∈ store'.succs bb at edge
    apply (placed.mem_bbs succ).mpr
    have inCaller : ∀ pred ∈ caller.bbs, succ ∈ store.succs pred → succ ∈ caller.bbs :=
      fun pred predMem => placed.grounded.closed.succs_mem pred predMem succ
    rcases placed.kinds_of_mem bbMem with ⟨bbMem, notBB⟩ | ⟨own, ownMem, rfl⟩ | rfl
    · rw [placed.others bb bbMem notBB] at edge
      exact .inl (inCaller bb bbMem edge)
    · rcases placed.succs_into ownMem edge with edge | ⟨isAfter, -⟩
      · exact .inr (.inl (placed.callee_succ ownMem edge))
      · exact .inr (.inr isAfter)
    · rw [placed.afterwards] at edge
      exact .inl (inCaller _ expansion.bbMem edge)

theorem available_caller (bbMem : bb ∈ caller.bbs) (isAvailable : expansion.AvailableAt bb id) :
    ∃ value ∈ store.reaches caller bb, id = subst call expansion.value value := by
  cases isAvailable with
  | @caller _ value _ reaches => exact ⟨value, reaches, rfl⟩
  | before outside _ => exact absurd bbMem outside
  | inside inCallee _ _ _ => exact absurd inCallee (placed.disjoint bb bbMem)
  | returned _ => exact absurd bbMem placed.fresh.1

/-- What is there in a block of the caller was there where the block is entered from. -/
theorem flow_caller (predMem : pred ∈ caller.bbs) (edge : bb ∈ store.succs pred)
    (isAvailable : expansion.AvailableAt bb id) : ∃ value, id = subst call expansion.value value ∧
      (value ∈ store.instructions pred ∨ value ∈ store.reaches caller pred) := by
  have inCaller := placed.grounded.closed.succs_mem pred predMem bb edge
  rcases placed.available_caller inCaller isAvailable with ⟨value, reaches, isValue⟩
  exact ⟨value, isValue, (reaches_pred edge reaches).symm⟩

theorem flow_callee (predMem : pred ∈ source.bbs) (edge : bb ∈ store.succs pred)
    (isAvailable : expansion.AvailableAt bb id) : expansion.AtEnd (expansion.into pred) id := by
  rcases placed.callee_succ predMem edge with ⟨inCallee, -⟩
  cases isAvailable with
  | caller bbMem _ => exact absurd inCallee (placed.disjoint bb bbMem)
  | before _ defined => exact placed.before_atEnd predMem defined
  | inside _ _ reaches boundTo =>
      apply placed.bound_atEnd predMem _ boundTo
      rcases reaches_pred edge reaches with reaches | inBlock
      · exact .inr reaches
      · exact .inl ⟨inBlock, placed.not_ret_of_succ predMem edge inBlock⟩
  | returned _ => exact absurd inCallee placed.fresh.2

theorem flow_after (predMem : pred ∈ source.bbs) (returns : retOf store pred ≠ none)
    (isAvailable : expansion.AvailableAt expansion.after id) :
    expansion.AtEnd (expansion.into pred) id := by
  generalize isAfter : expansion.after = bb at isAvailable
  cases isAvailable with
  | caller bbMem _ => exact absurd (isAfter ▸ bbMem) placed.fresh.1
  | before _ defined => exact placed.before_atEnd predMem defined
  | inside bbMem _ _ _ => exact absurd (isAfter ▸ bbMem) placed.fresh.2
  | returned lists =>
      rcases Option.ne_none_iff_exists'.mp returns with ⟨ret, isRet⟩
      rcases retOf_eq_some.mp isRet with ⟨atEnd, kind⟩
      have inBlock := List.mem_of_getLast? atEnd
      apply placed.returned_atEnd predMem inBlock kind
      cases expansion.returning with
      | single _ returned => exact returned ret (Consistent.mem_listed predMem inBlock) kind
      | phi again _ _ _ _ _ _ _ _ =>
          rw [again] at lists
          exact absurd (congrArg List.length lists) (by simp)

theorem availability : Dominance.Available (store'.cfg target).Edge (root target)
    store'.defines fun bb => { id | expansion.AvailableAt bb id } where
  start id isAvailable := by
    rw [placed.sameRoot] at isAvailable
    have rootMem : root caller ∈ caller.bbs := placed.grounded.closed.entry_mem
    rcases placed.available_caller rootMem isAvailable with ⟨value, reaches, -⟩
    exact not_reaches_root reaches
  flow pred bb reachable edge id isAvailable := by
    change bb ∈ store'.succs pred at edge
    apply Or.symm
    rcases placed.kinds_of_mem (placed.closed_target.mem_of_reachable reachable) with
      ⟨predMem, notBB⟩ | ⟨own, ownMem, rfl⟩ | rfl
    · rw [placed.others pred predMem notBB] at edge
      rcases placed.flow_caller predMem edge isAvailable with ⟨value, rfl, defined⟩
      exact placed.caller_atEnd predMem notBB defined
    · rcases placed.succs_into ownMem edge with edge | ⟨rfl, returns⟩
      · exact placed.flow_callee ownMem edge isAvailable
      · exact placed.flow_after ownMem returns isAvailable
    · rw [placed.afterwards] at edge
      rcases placed.flow_caller expansion.bbMem edge isAvailable with ⟨value, rfl, defined⟩
      exact placed.after_atEnd defined

/-! ## Operands -/

/-- An operand of what stays in the caller. -/
theorem caller_input {inst' : Inst} (bbMem : bb ∈ caller.bbs)
    (split : store.instructions bb = front ++ id :: back) (notCall : id ≠ call)
    (found' : store'.insts id = some inst') (notPhi : inst'.kind.isPhi = false)
    (isInput : value ∈ inst'.inputs) :
    ∃ operand, value = subst call expansion.value operand ∧
      (operand ∈ front ∨ operand ∈ store.reaches caller bb) := by
  have member : id ∈ store.listed caller := Consistent.mem_listed bbMem (by simp [split])
  rcases placed.grounded.stored id member with ⟨inst, found⟩
  rcases expansion.callerStays id member notCall inst found with ⟨again, foundAgain, -, kind, inputs⟩
  cases Option.some.inj (found'.symm.trans foundAgain)
  rw [inputs] at isInput
  rcases List.mem_map.mp isInput with ⟨operand, isOperand, rfl⟩
  have defined := placed.grounded.usesDefined.uses bb bbMem front id back split inst found
    (kind ▸ notPhi) operand isOperand (Set.mem_univ _)
  exact ⟨operand, rfl, definedBefore_iff_reaches.mp defined⟩

/-- An operand of what stays of the callee. -/
theorem callee_input {inst' : Inst} (bbMem : bb ∈ source.bbs)
    (split : store.instructions bb = front ++ id :: back)
    (notParam : id ∉ paramsOf store expansion.first) (notRet : store.kindOf id ≠ some .kRet)
    (found' : store'.insts id = some inst') (notPhi : inst'.kind.isPhi = false)
    (isInput : value ∈ inst'.inputs) :
    ∃ operand, BoundTo store expansion.first call operand value ∧
      (operand ∈ front ∨ operand ∈ store.reaches source bb) := by
  have member : id ∈ store.listed source := Consistent.mem_listed bbMem (by simp [split])
  rcases placed.body.stored id member with ⟨inst, found⟩
  rcases expansion.calleeStays id member notParam notRet inst found with
    ⟨again, foundAgain, -, kind, related⟩
  cases Option.some.inj (found'.symm.trans foundAgain)
  rcases exists_of_mem related.flip related.flip isInput with ⟨operand, isOperand, boundTo, -⟩
  have defined := placed.body.usesDefined.uses bb bbMem front id back split inst found
    (kind ▸ notPhi) operand isOperand (Set.mem_univ _)
  exact ⟨operand, boundTo, definedBefore_iff_reaches.mp defined⟩

theorem uses_caller {inst' : Inst} (bbMem : bb ∈ caller.bbs) (notBB : bb ≠ expansion.bb)
    (split : store'.instructions bb = front ++ id :: back)
    (found' : store'.insts id = some inst') (notPhi : inst'.kind.isPhi = false)
    (isInput : value ∈ inst'.inputs) : value ∈ front ∨ expansion.AvailableAt bb value := by
  rw [expansion.others bb bbMem notBB] at split
  have apart : ∀ other ∈ store.instructions bb, other ≠ call := by
    rintro other inBlock rfl
    exact placed.call_not_mem bbMem notBB inBlock
  have notCall : id ≠ call := apart id (by simp [split])
  rcases placed.caller_input bbMem split notCall found' notPhi isInput with
    ⟨operand, rfl, inFront | reaches⟩
  · left
    rwa [subst_of_ne (apart operand (by simp [split, inFront]))]
  · exact .inr (.caller bbMem reaches)

/-- Before the call its block is as it was. -/
theorem uses_front {inst' : Inst} (split : expansion.front = front ++ id :: back)
    (found' : store'.insts id = some inst') (notPhi : inst'.kind.isPhi = false)
    (isInput : value ∈ inst'.inputs) :
    value ∈ front ∨ expansion.AvailableAt expansion.bb value := by
  have apart : ∀ other ∈ expansion.front, other ≠ call := by
    rintro other inFront rfl
    exact placed.call_not_front.1 inFront
  have here : store.instructions expansion.bb = front ++ id :: (back ++ call :: expansion.back) := by
    rw [expansion.here, split]
    simp
  have notCall : id ≠ call := apart id (by simp [split])
  rcases placed.caller_input expansion.bbMem here notCall found' notPhi isInput with
    ⟨operand, rfl, inFront | reaches⟩
  · left
    rwa [subst_of_ne (apart operand (by simp [split, inFront]))]
  · exact .inr (.caller expansion.bbMem reaches)

theorem uses_callee {inst' : Inst} {ids : List InstId} (bbMem : bb ∈ source.bbs)
    (trails : Trails store store' (paramsOf store expansion.first) expansion.after
      (store.instructions bb) ids) (split : ids = front ++ id :: back)
    (found' : store'.insts id = some inst') (notPhi : inst'.kind.isPhi = false)
    (isInput : value ∈ inst'.inputs) :
    value ∈ expansion.lead bb ++ front ∨ expansion.AvailableAt (expansion.into bb) value := by
  rcases trails.split split with ⟨-, inputs⟩ | ⟨before, behind, here, notParam, notRet, kept⟩
  · rw [inputs_eq found'] at inputs
    rw [inputs] at isInput
    cases isInput
  · rcases placed.callee_input bbMem here notParam notRet found' notPhi isInput with
      ⟨operand, boundTo, defined⟩
    have isBound := boundTo
    cases boundTo with
    | argument _ _ isArg _ =>
        have defined := placed.arg_before (List.mem_of_getElem? isArg)
        exact (placed.before_callee bbMem defined).imp_left (List.mem_append_left _)
    | kept operandNotParam =>
        rcases defined with inBefore | reaches
        · exact .inl (List.mem_append_right _ (kept _ inBefore operandNotParam))
        · have notFirst := expansion.ne_first_of_reaches reaches
          rw [expansion.into_ne_first bb notFirst]
          exact .inr (.inside bbMem notFirst reaches isBound)

/-- Behind the call there is what was there, with what the callee returned for the call. -/
theorem uses_back {inst' : Inst} (split : expansion.back = front ++ id :: back)
    (found' : store'.insts id = some inst') (notPhi : inst'.kind.isPhi = false)
    (isInput : value ∈ inst'.inputs) :
    value ∈ front ∨ value = expansion.value ∨
      store.DefinedBefore caller value expansion.bb expansion.front := by
  have apart : ∀ other ∈ expansion.back, other ≠ call := by
    rintro other inBack rfl
    exact placed.call_not_front.2 inBack
  have here : store.instructions expansion.bb =
      (expansion.front ++ call :: front) ++ id :: back := by
    rw [expansion.here, split]
    simp
  have early : ∀ operand, store.DefinedBefore caller operand expansion.bb expansion.front →
      store.DefinedBefore caller (subst call expansion.value operand) expansion.bb
        expansion.front := by
    intro operand defined
    rwa [subst_of_ne (placed.ne_call_of_before defined)]
  have notCall : id ≠ call := apart id (by simp [split])
  rcases placed.caller_input expansion.bbMem here notCall found' notPhi isInput with
    ⟨operand, rfl, inFront | reaches⟩
  · rw [List.mem_append, List.mem_cons] at inFront
    rcases inFront with inFront | rfl | inFront
    · exact .inr (.inr (early operand (.inl inFront)))
    · exact .inr (.inl subst_self)
    · left
      rwa [subst_of_ne (apart operand (by simp [split, inFront]))]
  · exact .inr (.inr (early operand (definedBefore_iff_reaches.mpr (.inr reaches))))

theorem uses_after {inst' : Inst}
    (split : store'.instructions expansion.after = front ++ id :: back)
    (found' : store'.insts id = some inst') (notPhi : inst'.kind.isPhi = false)
    (isInput : value ∈ inst'.inputs) :
    value ∈ front ∨ expansion.AvailableAt expansion.after value := by
  cases expansion.returning with
  | single lists _ =>
      rcases placed.uses_back (lists ▸ split) found' notPhi isInput with
        inFront | rfl | defined
      · exact .inl inFront
      · exact .inr (.returned lists)
      · exact .inr (.before placed.fresh.1 defined)
  | phi lists _ found kind _ _ _ _ _ =>
      rw [lists] at split
      cases front with
      | nil =>
          cases split
          cases Option.some.inj (found.symm.trans found')
          rw [kind] at notPhi
          cases notPhi
      | cons head front =>
          rcases List.cons.inj split with ⟨rfl, splitBack⟩
          rcases placed.uses_back splitBack found' notPhi isInput with inFront | rfl | defined
          · exact .inl (List.mem_cons_of_mem _ inFront)
          · exact .inl List.mem_cons_self
          · exact .inr (.before placed.fresh.1 defined)

theorem uses (bbMem : bb ∈ target.bbs) (split : store'.instructions bb = front ++ id :: back)
    {inst' : Inst} (found' : store'.insts id = some inst') (notPhi : inst'.kind.isPhi = false)
    (isInput : value ∈ inst'.inputs) : value ∈ front ∨ expansion.AvailableAt bb value := by
  rcases placed.kinds_of_mem bbMem with ⟨bbMem, notBB⟩ | ⟨own, ownMem, rfl⟩ | rfl
  · exact placed.uses_caller bbMem notBB split found' notPhi isInput
  · rcases expansion.body ownMem with ⟨ids, lists, trails⟩
    rw [lists] at split
    rcases List.append_eq_append_iff.mp split with ⟨middle, rfl, isIds⟩ | ⟨middle, isLead, isBack⟩
    · exact placed.uses_callee ownMem trails isIds found' notPhi isInput
    · cases middle with
      | nil =>
          rw [List.append_nil] at isLead
          subst isLead
          have isIds : ids = [] ++ id :: back := isBack.symm
          have uses := placed.uses_callee ownMem trails isIds found' notPhi isInput
          rwa [List.append_nil] at uses
      | cons head middle =>
          rcases List.cons.inj isBack with ⟨rfl, -⟩
          have isFirst : own = expansion.first := by
            by_contra notFirst
            rw [lead, if_neg notFirst] at isLead
            simp at isLead
          rw [lead, if_pos isFirst] at isLead
          rw [into, if_pos isFirst]
          exact placed.uses_front isLead found' notPhi isInput
  · exact placed.uses_after split found' notPhi isInput

end Placed

end Expansion

end LeechJit.Opt.Inlining
