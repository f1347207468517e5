import LeechJit.IR.BuiltShapes
import LeechJit.Opt.InlineBinds

/-! # Arguments for parameters

The users of the parameters in the first block of the callee use the arguments of the
call: each parameter is bound to the argument at its place among the parameters of the
block, whatever its index is.
-/

namespace LeechJit.Opt.Inlining

open IR Store Bindings

variable {store store' : Store} {first : BlockId} {callee : FuncId} {call param arg id : InstId}

/-- The parameters of a block, in the order of the block. -/
def paramsOf (store : Store) (bb : BlockId) : List InstId :=
  (store.instructions bb).filter fun id => answer (isParam store id)

theorem mem_paramsOf (member : id ∈ paramsOf store first) :
    id ∈ store.instructions first ∧ ∃ idx, store.kindOf id = some (.kParam idx) := by
  rw [paramsOf, List.mem_filter, answer_eq_true] at member
  exact ⟨member.1, (isParam_eq_true member.2).mp rfl⟩

theorem not_mem_paramsOf {kind : InstKind} (isKind : store.kindOf id = some kind)
    (notParam : ∀ idx, kind ≠ .kParam idx) : id ∉ paramsOf store first := by
  intro member
  rcases (mem_paramsOf member).2 with ⟨idx, isParam⟩
  exact notParam idx (Option.some.inj (isKind.symm.trans isParam))

/-- What a value becomes when each parameter of the block stands for the argument at its index. -/
inductive BoundTo (store : Store) (first : BlockId) (call : InstId) : InstId → InstId → Prop
  | argument {param arg : InstId} {idx : Nat} (member : param ∈ paramsOf store first)
      (isParam : store.kindOf param = some (.kParam idx))
      (isArg : (store.inputs call)[idx]? = some arg) (stays : arg ∉ paramsOf store first) :
      BoundTo store first call param arg
  | kept {value : InstId} (notParam : value ∉ paramsOf store first) :
      BoundTo store first call value value

/-- What `adjustInputs` is for: each use of a parameter is a use of the argument at its index, in
the operands and in the entries of phis, and nothing else has changed there. -/
structure ArgumentsBound (store : Store) (first : BlockId) (call : InstId) (store' : Store) :
    Prop where
  gone : store'.instructions first = (store.instructions first).filter (· ∉ paramsOf store first)
  inputs : ∀ user ∉ paramsOf store first,
    List.Forall₂ (BoundTo store first call) (store.inputs user) (store'.inputs user)
  recorded : Recorded store'
  entries : ∀ phi vars, store.kindOf phi = some (.kPhi vars) →
    ∃ vars', store'.kindOf phi = some (.kPhi vars') ∧ List.Forall₂ (fun entry entry' =>
      BoundTo store first call entry.val entry'.val ∧ entry'.bb = entry.bb) vars vars'

/-- A first block of a callee, with the parameters as their constructors made them; users sets may
have users that are gone, as inlining leaves them behind. -/
structure Bindable (store : Store) (first : BlockId) : Prop where
  recorded : Recorded store
  present : store.blocks first ≠ none
  distinct : (store.instructions first).Nodup
  stored : ∀ id ∈ store.instructions first, store.kindOf id ≠ none
  noInputs : ∀ id idx, store.kindOf id = some (.kParam idx) → store.inputs id = []

/-- There is an argument for every parameter, and where a parameter is used, its place among the
parameters leads to the argument at its index. No user that the loop follows is gone, and no phi
has a parameter in its entries, which the loop does not change. -/
structure InPlace (store : Store) (first : BlockId) (call : InstId) : Prop where
  enough : (paramsOf store first).length ≤ (store.inputs call).length
  places : ∀ param ∈ paramsOf store first, ∀ user, param ∈ store.inputs user →
    ∃ idx arg, store.kindOf param = some (.kParam idx) ∧ (store.inputs call)[idx]? = some arg ∧
      Resolves ((paramsOf store first).zip (store.inputs call)) param arg
  noneGone : NoneGone store ((paramsOf store first).zip (store.inputs call))
  entries : ∀ phi vars, store.kindOf phi = some (.kPhi vars) →
    ∀ entry ∈ vars, entry.val ∉ paramsOf store first

/-- The place of a parameter leads to the argument in the same place of the call, when the call
does not pass parameters of the block on. -/
theorem resolves_iff_place (enough : (paramsOf store first).length ≤ (store.inputs call).length)
    (apart : ∀ arg ∈ store.inputs call, arg ∉ paramsOf store first)
    (isParam : param ∈ paramsOf store first) :
    Resolves ((paramsOf store first).zip (store.inputs call)) param arg ↔
      ∃ place : Nat, (paramsOf store first)[place]? = some param ∧
        (store.inputs call)[place]? = some arg := by
  have names : ((paramsOf store first).zip (store.inputs call)).map Prod.fst =
      paramsOf store first := List.map_fst_zip enough
  rw [Resolves.iff_mem, List.mem_iff_getElem?]
  · simp only [List.getElem?_zip_eq_some]
  · rintro ⟨name, value⟩ binding
    rw [names]
    exact apart value (List.of_mem_zip binding).2
  · rw [names]
    exact isParam

theorem BoundTo.not_mem {value now : InstId} (boundTo : BoundTo store first call value now) :
    now ∉ paramsOf store first := by
  cases boundTo with
  | argument _ _ _ stays => exact stays
  | kept notParam => exact notParam

theorem Bindable.of_built (built : store.Built) (rooted : rootBB store callee = .ok first) :
    Bindable store first where
  recorded value user _ := built.tied.users value user
  present := by
    rcases rootBB_eq_ok rooted with ⟨function, rest, found, bbs⟩
    apply built.tidy.apart.present callee first
    rw [Shape.bbs_eq (show store.shape.functions callee = some function from found), bbs]
    exact List.mem_cons_self
  distinct := built.tidy.settled.nodup first
  stored id member := by
    have knows := built.tidy.settled.knows first id member
    rw [kindOf_ne_none]
    cases found : store.insts id with
    | none => simp [homeOf, found] at knows
    | some inst => exact ⟨inst, rfl⟩
  noInputs _ _ isParam := built.allShaped.param_inputs isParam

theorem Bindable.waiting (bindable : Bindable store first) :
    Waiting store first (paramsOf store first) where
  recorded := bindable.recorded
  distinct := bindable.distinct.filter _
  listed _ member := (mem_paramsOf member).1
  stored param member := bindable.stored param (mem_paramsOf member).1
  noInputs param member := by
    rcases (mem_paramsOf member).2 with ⟨idx, isParam⟩
    exact bindable.noInputs param idx isParam

/-- Going through the parameters of the first block is all there is to do. -/
theorem adjustInputs_eq_ok_iff (bindable : Bindable store first)
    (rooted : rootBB store callee = .ok first) :
    adjustInputs store call callee = .ok store' ↔
      adjustParams first call 0 (paramsOf store first) store = .ok store' := by
  rcases Option.ne_none_iff_exists'.mp bindable.present with ⟨block, found⟩
  have here := instructions_eq found
  have decided : ∀ id ∈ block.instructions, ∃ holds, isParam store id = .ok holds := by
    intro id member
    rw [← here] at member
    rcases kindOf_ne_none.mp (bindable.stored id member) with ⟨inst, stored⟩
    rw [isParam, inst_eq_ok.mpr stored, Result.ok_bind]
    cases inst.kind <;> exact ⟨_, rfl⟩
  rcases copyIf_returns decided with ⟨params, copying⟩
  have same : params = paramsOf store first := by
    rw [(copyIf_eq_ok copying).1, paramsOf, here]
  rw [adjustInputs, rooted, Result.ok_bind, block_eq_ok.mpr found, Result.ok_bind, copying,
    Result.ok_bind, same]

theorem ArgumentsBound.inPlace (bindable : Bindable store first)
    (adjusting : adjustParams first call 0 (paramsOf store first) store = .ok store')
    (notParam : call ∉ paramsOf store first) (bound : ArgumentsBound store first call store') :
    InPlace store first call := by
  have waiting := bindable.waiting
  have gone : ∀ param ∈ paramsOf store first, param ∉ store'.instructions first := by
    intro param isParam member
    rw [bound.gone, List.mem_filter] at member
    simp [isParam] at member
  have unused : ∀ param ∈ paramsOf store first, param ∉ store'.inputs call := by
    intro param isParam isInput
    have backwards : List.Forall₂ (flip (BoundTo store first call)) (store'.inputs call)
        (store.inputs call) := (bound.inputs call notParam).flip
    rcases exists_of_mem backwards backwards isInput with ⟨value, -, boundTo, -⟩
    exact boundTo.not_mem isParam
  have binds := binds_of_adjustParams waiting adjusting gone unused
  have allBound := binds.allBound bindable.distinct waiting
  have noneGone := binds.noneGone waiting
  rw [bindings, List.drop_zero] at allBound noneGone
  refine ⟨?_, ?_, noneGone, ?_⟩
  · rcases binds.length waiting with none | enough
    · simp [none]
    · simpa using enough
  · intro param isParam user uses
    have notUser : user ∉ paramsOf store first := by
      intro member
      rw [waiting.noInputs user member] at uses
      cases uses
    rcases exists_of_mem (allBound.inputs user notUser) (bound.inputs user notUser) uses with
      ⟨arg, -, resolves, boundTo⟩
    cases boundTo with
    | argument _ kind isArg _ => exact ⟨_, arg, kind, isArg, resolves⟩
    | kept notParam => exact absurd isParam notParam
  · intro phi vars isPhi entry member
    have notPhi : phi ∉ paramsOf store first := not_mem_paramsOf isPhi (by simp)
    rcases bound.entries phi vars isPhi with ⟨vars', isPhi', entries⟩
    rw [allBound.kinds, if_neg notPhi, isPhi] at isPhi'
    cases isPhi'
    exact (List.forall₂_same.mp entries entry member).1.not_mem

/-- An operand that the places of the parameters lead to is the argument at the right index. -/
theorem InPlace.boundTo (inPlace : InPlace store first call)
    (distinct : (paramsOf store first).Nodup) {user value now : InstId}
    (uses : value ∈ store.inputs user)
    (resolves : Resolves ((paramsOf store first).zip (store.inputs call)) value now) :
    BoundTo store first call value now := by
  have names : ((paramsOf store first).zip (store.inputs call)).map Prod.fst =
      paramsOf store first := List.map_fst_zip inPlace.enough
  by_cases isParam : value ∈ paramsOf store first
  · rcases inPlace.places value isParam user uses with ⟨idx, arg, kind, isArg, leads⟩
    cases leads.unique (names.symm ▸ distinct) resolves
    have stays := leads.not_mem
    rw [names] at stays
    exact .argument isParam kind isArg stays
  · rw [← names] at isParam
    cases resolves.eq_of_not_mem isParam
    rw [names] at isParam
    exact .kept isParam

theorem InPlace.argumentsBound (bindable : Bindable store first)
    (inPlace : InPlace store first call) :
    ∃ store', adjustParams first call 0 (paramsOf store first) store = .ok store' ∧
      ArgumentsBound store first call store' := by
  have waiting := bindable.waiting
  have fromStart : bindings store call 0 (paramsOf store first) =
      (paramsOf store first).zip (store.inputs call) := by rw [bindings, List.drop_zero]
  have resolved : ∀ param ∈ paramsOf store first, ∀ user, param ∈ store.inputs user →
      ∃ value, Resolves (bindings store call 0 (paramsOf store first)) param value := by
    intro param isParam user uses
    rcases inPlace.places param isParam user uses with ⟨idx, arg, -, -, leads⟩
    exact ⟨arg, fromStart ▸ leads⟩
  have enough : (paramsOf store first).length ≤ ((store.inputs call).drop 0).length :=
    inPlace.enough
  have noneGone := inPlace.noneGone
  rw [← fromStart] at noneGone
  rcases exists_binds waiting enough resolved noneGone with ⟨store', binds⟩
  have allBound := binds.allBound bindable.distinct waiting
  rw [fromStart] at allBound
  refine ⟨store', binds.adjustParams, allBound.instructions, ?_, allBound.recorded, ?_⟩
  · intro user notParam
    have used : List.Forall₂ (fun value now => value ∈ store.inputs user ∧
        Resolves ((paramsOf store first).zip (store.inputs call)) value now)
        (store.inputs user) (store'.inputs user) :=
      (List.forall₂_and_left ..).mpr ⟨fun _ member => member, allBound.inputs user notParam⟩
    exact used.imp fun _ _ both => inPlace.boundTo waiting.distinct both.1 both.2
  · intro phi vars isPhi
    have notPhi : phi ∉ paramsOf store first := not_mem_paramsOf isPhi (by simp)
    refine ⟨vars, by rw [allBound.kinds, if_neg notPhi, isPhi], ?_⟩
    exact List.forall₂_same.mpr fun entry member =>
      ⟨.kept (inPlace.entries phi vars isPhi entry member), rfl⟩

/-- The arguments are bound by the indices of the parameters exactly when the parameters stand in
the places that their indices name, as far as they are used. -/
theorem adjustInputs_bound_iff (bindable : Bindable store first)
    (rooted : rootBB store callee = .ok first)
    (isCall : store.kindOf call = some (.kCall callee)) :
    (∃ store', adjustInputs store call callee = .ok store' ∧
      ArgumentsBound store first call store') ↔ InPlace store first call := by
  have notParam : call ∉ paramsOf store first := not_mem_paramsOf isCall (by simp)
  simp only [adjustInputs_eq_ok_iff bindable rooted]
  constructor
  · rintro ⟨store', adjusting, bound⟩
    exact bound.inPlace bindable adjusting notParam
  · exact InPlace.argumentsBound bindable

/-- Function 0 subtracts its parameters, which have the indices `fst` and `snd`; function 1 calls
it with two constants. -/
def subtraction (fst snd : Nat) : List BuildStep :=
  [.newFunction 0 .I64 [.I64, .I64], .appendBB 0, .pushInstBack 0 (.param fst .I64),
    .pushInstBack 0 (.param snd .I64), .pushInstBack 0 (.binOp .kSub 0 1),
    .pushInstBack 0 (.retVal 2),
    .newFunction 1 .I64 [], .appendBB 1, .pushInstBack 1 (.constVal (.I64 7)),
    .pushInstBack 1 (.constVal (.I64 2)), .pushInstBack 1 (.call 0), .appendArg 6 4,
    .appendArg 6 5, .pushInstBack 1 (.retVal 6)]

theorem bindable_subtraction {fst snd : Nat}
    (built : (subtraction fst snd).foldlM BuildStep.apply Store.empty = .ok store) :
    rootBB store 0 = .ok 0 ∧ store.kindOf 6 = some (.kCall 0) ∧ Bindable store 0 := by
  have rooted : rootBB store 0 = .ok 0 := by
    cases built
    rfl
  refine ⟨rooted, ?_, .of_built ⟨_, built⟩ rooted⟩
  cases built
  rfl

theorem adjustInputs_bound_iff_subtraction : ∃ store,
    (subtraction 0 1).foldlM BuildStep.apply Store.empty = .ok store ∧
      ((∃ store', adjustInputs store 6 0 = .ok store' ∧ ArgumentsBound store 0 6 store') ↔
        InPlace store 0 6) := by
  have returns : ∃ store, (subtraction 0 1).foldlM BuildStep.apply Store.empty = .ok store :=
    ⟨_, rfl⟩
  rcases returns with ⟨store, built⟩
  rcases bindable_subtraction built with ⟨rooted, isCall, bindable⟩
  exact ⟨store, built, adjustInputs_bound_iff bindable rooted isCall⟩

/-- The parameter with index 1 comes first, and stands for the argument with index 0. -/
theorem not_argumentsBound_subtraction : ∃ store store' call,
    (subtraction 1 0).foldlM BuildStep.apply Store.empty = .ok store ∧
      store.insts 6 = some call ∧ verify store call = .ok true ∧ rootBB store 0 = .ok 0 ∧
      adjustInputs store 6 0 = .ok store' ∧ ¬ ArgumentsBound store 0 6 store' := by
  refine ⟨_, _, _, rfl, rfl, rfl, rfl, rfl, ?_⟩
  intro bound
  have operands := bound.inputs 2 (by decide)
  cases operands with
  | cons first _ =>
  cases first with
  | argument _ isParam isArg _ =>
      cases isParam
      cases isArg

end LeechJit.Opt.Inlining
