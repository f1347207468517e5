import LeechJit.Opt.InlineExpansion

/-! # Users sets after one call

Every operand was one before, but for the new phi. When the returns of the callee are operands of
nothing the users sets stay exact, up to users that are gone.
-/

namespace LeechJit.Opt.Inlining

open IR Store Bindings

variable {store store' middle : Store} {func : FuncId} {call input value user : InstId}

/-- The returns of a function are operands of nothing. -/
def ReturnsUnread (store : Store) (function : Function) : Prop :=
  ∀ ret ∈ store.listed function, store.kindOf ret = some .kRet → ∀ user, ret ∉ store.inputs user

theorem returnsUnread_of_below {function : Function} (ledger : Ledger store)
    (unread : ∀ ret ∈ store.listed function, store.kindOf ret = some .kRet →
      ∀ user < store.nextInst, ret ∉ store.inputs user) : ReturnsUnread store function := by
  intro ret member isRet user isInput
  have below := ledger.allocated user (kindOf_of_inputs isInput)
  exact unread ret member isRet user below isInput

namespace Site

variable {site : Site func call store store'} (prepared : site.Prepared)

include prepared

/-- What has operands once the parameters are bound had them before, up to the arguments. -/
theorem Prepared.operand_inputs (isInput : input ∈ site.inputs.inputs user) :
    user ∉ paramsOf store site.first ∧ ∃ operand ∈ store.inputs user,
      BoundTo store site.first call operand input := by
  have notParam : user ∉ paramsOf store site.first := by
    intro isParam
    have gone : site.inputs.shape.insts user = none := by
      rw [site.inputsShape]
      simp [Shape.eraseInsts, prepared.mem_params.mpr isParam]
    have stored := kindOf_of_inputs isInput
    rw [kindOf_shape, gone] at stored
    exact stored rfl
  refine ⟨notParam, ?_⟩
  have backwards := (prepared.bound.2.2 user notParam).flip
  rcases exists_of_mem backwards backwards isInput with ⟨operand, isOperand, boundTo, -⟩
  exact ⟨operand, isOperand, boundTo⟩

theorem Prepared.exists_user (isInput : input ∈ site.inputs.inputs user) :
    ∃ before, input ∈ store.inputs before := by
  rcases (prepared.operand_inputs isInput).2 with ⟨operand, isOperand, boundTo⟩
  cases boundTo with
  | argument _ _ isArg _ => exact ⟨call, List.mem_of_getElem? isArg⟩
  | kept _ => exact ⟨user, isOperand⟩

/-- What a return has is not the call. -/
theorem Prepared.ret_ne_call {ret : InstId} (isRet : ret ∈ site.rets)
    (isInput : input ∈ site.inputs.inputs ret) : input ≠ call := by
  rcases (prepared.operand_inputs isInput).2 with ⟨operand, isOperand, boundTo⟩
  exact prepared.bound_ne_call (Prepared.ret_listed site prepared.closed isRet) isOperand boundTo

section Delivery

variable (delivery : site.Delivery value middle)

include delivery

/-- What the users of the call read is no use of the call. -/
theorem Delivery.value_cases : value ≠ call ∧
    (value = store.nextInst ∨ ∃ ret ∈ site.rets, value ∈ site.inputs.inputs ret) := by
  cases delivery.delivers with
  | @single ret value only returned =>
      have isRet : ret ∈ site.rets := only ▸ List.mem_cons_self
      have isInput := List.mem_of_getElem? returned
      exact ⟨prepared.ret_ne_call isRet isInput, .inr ⟨ret, isRet, isInput⟩⟩
  | phi _ _ _ _ =>
      rw [site.inputs_nextInst]
      refine ⟨?_, .inl rfl⟩
      exact (Nat.ne_of_lt (site.below_of_calledIn site.call_calledIn)).symm

omit prepared in
theorem Delivery.nextInst_single (one : site.rets.length = 1) :
    middle.nextInst = store.nextInst := by
  rw [delivery.merged]
  rcases site.isMerged with ⟨-, again⟩ | ⟨many, -⟩
  · rw [again]
    exact site.inputs_nextInst
  · exact absurd one many

omit prepared in
/-- What the callee returns is merged by a phi, if at all. -/
theorem Delivery.kindOf_new (new : store.nextInst ≤ user) (below : user < middle.nextInst) :
    ∃ entries, middle.kindOf user = some (.kPhi entries) := by
  cases delivery.delivers with
  | single only _ =>
      rw [delivery.nextInst_single (by rw [only]; rfl)] at below
      exact absurd new (Nat.not_le_of_lt below)
  | @phi entries many _ _ isPhi =>
      rw [site.inputs_nextInst] at isPhi
      have isNew : user = store.nextInst := by
        rw [delivery.merged] at below
        rcases site.isMerged with ⟨one, -⟩ | ⟨-, vars, -, again⟩
        · exact absurd one many
        · rw [again] at below
          have below : user < site.inputs.nextInst + 1 := below
          rw [site.inputs_nextInst] at below
          exact Nat.le_antisymm (Nat.le_of_lt_succ below) new
      exact ⟨entries, isNew ▸ isPhi⟩

omit prepared in
/-- What the new phi has, if there is one. -/
theorem Delivery.phi_inputs (isInput : input ∈ middle.inputs store.nextInst) :
    ∃ ret ∈ site.rets, input ∈ site.inputs.inputs ret := by
  cases delivery.delivers with
  | @single ret value only returned =>
      have none := delivery.nextInst_single (by rw [only]; rfl)
      have inputs := delivery.ledger.inputs_nextInst
      rw [none] at inputs
      rw [inputs] at isInput
      cases isInput
  | @phi entries _ isEntry inputs _ =>
      rw [site.inputs_nextInst] at inputs
      rw [inputs] at isInput
      rcases List.mem_map.mp isInput with ⟨entry, entryMem, rfl⟩
      rcases exists_of_mem isEntry.flip isEntry.flip entryMem with ⟨ret, isRet, isOwn, -⟩
      exact ⟨ret, isRet, List.mem_of_getElem? isOwn.1⟩

theorem Delivery.exists_user (isInput : input ∈ middle.inputs user) :
    input = store.nextInst ∨ ∃ before, input ∈ store.inputs before := by
  by_cases isNew : user = store.nextInst
  · subst isNew
    rcases delivery.phi_inputs isInput with ⟨ret, -, isInput⟩
    exact .inr (prepared.exists_user isInput)
  · rw [delivery.inputs user isNew, mem_map_subst] at isInput
    rcases isInput with ⟨isInput, -⟩ | ⟨rfl, -⟩
    · exact .inr (prepared.exists_user isInput)
    · rcases (delivery.value_cases prepared).2 with isNew | ⟨ret, -, isInput⟩
      · exact .inl isNew
      · exact .inr (prepared.exists_user isInput)

theorem Delivery.call_unused : call ∉ middle.inputs user := by
  intro isInput
  by_cases isNew : user = store.nextInst
  · subst isNew
    rcases delivery.phi_inputs isInput with ⟨ret, isRet, isInput⟩
    exact prepared.ret_ne_call isRet isInput rfl
  · rw [delivery.inputs user isNew, mem_map_subst] at isInput
    rcases isInput with ⟨-, notCall⟩ | ⟨isValue, -⟩
    · exact notCall rfl
    · exact (delivery.value_cases prepared).1 isValue.symm

omit prepared in
/-- Nothing has operands in the end that it did not have before the returns went. -/
theorem Delivery.inputs_subset (isInput : input ∈ store'.inputs user) :
    input ∈ middle.inputs user := by
  have stored := kindOf_of_inputs isInput
  have notCall : user ≠ call := by
    rintro rfl
    exact stored (kindOf_eq_none.mpr site.call_gone)
  have notRet : user ∉ site.rets := fun isRet => stored (kindOf_eq_none.mpr (site.ret_gone isRet))
  rcases Nat.lt_or_ge user middle.nextInst with below | new
  · rwa [(delivery.kept below notRet notCall).1] at isInput
  · rw [delivery.inputs_new new stored] at isInput
    cases isInput

end Delivery

/-- Operands were operands before, or are the new phi. -/
theorem Prepared.exists_before (isInput : input ∈ store'.inputs user) :
    input = store.nextInst ∨ ∃ before, input ∈ store.inputs before := by
  rcases prepared.delivery with ⟨value, middle, delivery⟩
  exact delivery.exists_user prepared (delivery.inputs_subset isInput)

omit prepared in
theorem outputs_nextInst (site : Site func call store store') :
    store'.nextInst = site.outputs.nextInst := by
  have final : store'.shape.nextInst = site.removed.shape.nextInst := by
    rw [site.finalShape]
    rfl
  have removed : site.removed.shape.nextInst = site.joined.shape.nextInst := by
    rw [site.removedShape]
    rfl
  have joined : site.joined.shape.nextInst = site.outputs.shape.nextInst := by
    rw [site.joinedShape]
    rfl
  exact final.trans (removed.trans joined)

/-- The users sets stay exact, up to users that are gone. -/
theorem Prepared.ledger_after (unread : ReturnsUnread store site.source) : Ledger store' := by
  rcases prepared.delivery with ⟨value, middle, delivery⟩
  have outputs : Ledger site.outputs := by
    apply (replaceRets_operands delivery.older delivery.replacing).2.2.2 delivery.ledger
    intro ret isRet user isInput
    have listed := Prepared.ret_listed site prepared.closed isRet
    rcases delivery.exists_user prepared isInput with isNew | ⟨before, isInput⟩
    · have below := site.below_of_calledIn ((mem_listed_iff site.sourceFound).mp listed)
      exact Nat.ne_of_lt below isNew
    · exact unread ret listed (prepared.ret_not_param isRet).1 before isInput
  have kinds : ∀ {key}, store'.kindOf key ≠ none →
      key ≠ call ∧ site.outputs.kindOf key ≠ none := by
    intro key stored
    have notCall : key ≠ call := by
      rintro rfl
      exact stored (kindOf_eq_none.mpr site.call_gone)
    rw [site.kindOf_outputs notCall] at stored
    exact ⟨notCall, stored⟩
  rcases site.final_operands with ⟨inputs, users⟩
  constructor
  case recorded =>
    intro val user stored
    rcases kinds stored with ⟨notCall, stored⟩
    by_cases isCall : val = call
    · subst isCall
      rw [users, if_pos rfl]
      apply iff_of_false List.not_mem_nil
      exact fun isInput => delivery.call_unused prepared (delivery.inputs_subset isInput)
    · rw [users, if_neg isCall, inputs, if_neg notCall]
      exact outputs.recorded val user stored
  case below =>
    intro val user isUser
    rw [users] at isUser
    rw [outputs_nextInst site]
    split_ifs at isUser
    · cases isUser
    · exact outputs.below val user isUser
  case allocated =>
    intro key stored
    rw [outputs_nextInst site]
    exact outputs.allocated key (kinds stored).2

end Site

end LeechJit.Opt.Inlining
