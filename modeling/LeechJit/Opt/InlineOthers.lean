import LeechJit.IR.SameBody
import LeechJit.Opt.InlineGrounded
import LeechJit.Opt.InlineLedger

/-! # The other functions after one call

Neither their blocks nor their instructions change, so that a callee whose turn comes later can
be inlined as before.
-/

namespace LeechJit.Opt.Inlining

open IR Store Bindings

variable {World : Type} {store store' : Store} {func callee : FuncId} {call other id : InstId}
  {source : Function} {meaning : Meaning World}

namespace Site

variable {site : Site func call store store'} (prepared : site.Prepared)

include prepared

theorem other_body (found : store.functions callee = some source) (notFunc : callee ≠ func)
    (notCallee : callee ≠ site.callee)
    (inputs : ∀ id ∈ store.listed source, ∀ input ∈ store.inputs id, input ∈ store.listed source) :
    store.SameBody store' source := by
  have closed := prepared.closed
  have bbs : store.shape.bbs callee = source.bbs := Shape.bbs_eq found
  have block : ∀ bb ∈ source.bbs, store'.instructions bb = store.instructions bb ∧
      store'.succs bb = store.succs bb := by
    rw [← bbs]
    exact fun bb member => site.other_block closed notFunc notCallee member
  have calledIn : ∀ {id}, id ∈ store.listed source → CalledIn store callee id :=
    (mem_listed_iff found).mp
  have notCall : ∀ id ∈ store.listed source, id ≠ call := by
    rintro id member rfl
    exact notFunc ((calledIn member).unique site.tidy site.call_calledIn)
  have notParam : ∀ id ∈ store.listed source, id ∉ site.params := fun id member isParam =>
    notCallee ((calledIn member).unique site.tidy (site.params_calledIn isParam))
  have notRet : ∀ id ∈ store.listed source, id ∉ site.rets := fun id member isRet =>
    notCallee ((calledIn member).unique site.tidy (site.rets_calledIn closed isRet))
  refine ⟨fun bb bbMem => (block bb bbMem).1, fun bb bbMem => (block bb bbMem).2, ?_⟩
  intro id member inst stored
  rcases prepared.returning with ⟨value, -, -, mapped⟩
  have below := site.below_of_calledIn (calledIn member)
  have stays : Stays (fun before after => after = before) store store' id := by
    apply stays_of_face
    · exact site.face below (notParam id member) (notRet id member) (notCall id member)
    · have apart : ∀ other ∈ store.listed source, other ∉ paramsOf store site.first :=
        fun other inSource => mt prepared.mem_params.mpr (notParam other inSource)
      rw [mapped id below (notRet id member) (notCall id member),
        prepared.inputs_same (apart id member)
          fun input isInput => apart input (inputs id member input isInput)]
      apply map_subst_of_not_mem
      exact fun isInput => notCall call (inputs id member call isInput) rfl
  exact stays inst stored

end Site

/-- A function whose call `call` can be inlined, and which does what the meaning says of its
calls. -/
structure Expandable (store : Store) (meaning : Meaning World) (callee : FuncId) (call : InstId)
    (source : Function) : Prop where
  found : store.functions callee = some source
  grounded : store.Grounded source
  names : store.NamesPreds source
  enteredOnce : EnteredOnce store source
  returns : ∃ bb ∈ source.bbs, retOf store bb ≠ none
  unread : ReturnsUnread store source
  seated : Seated store (root source) call
  realizes : Realizes store meaning callee source

namespace Site

variable {site : Site func call store store'} (prepared : site.Prepared)

include prepared

/-- Operands of another function's instructions were operands before. -/
theorem other_user (found : store.functions callee = some source)
    (member : id ∈ store.listed source) {user : InstId} (isInput : id ∈ store'.inputs user) :
    ∃ before, id ∈ store.inputs before := by
  rcases prepared.exists_before isInput with isNew | before
  · have below := site.below_of_calledIn ((mem_listed_iff found).mp member)
    exact absurd isNew (Nat.ne_of_lt below)
  · exact before

theorem other_seated (expandable : Expandable store meaning callee other source)
    (body : store.SameBody store' source) (otherMem : other ∈ store.listed site.caller)
    (notCall : other ≠ call) : Seated store' (root source) other := by
  have rootMem : root source ∈ source.bbs := expandable.grounded.closed.entry_mem
  have listed : ∀ id ∈ store.instructions (root source), id ∈ store.listed source :=
    fun id => Consistent.mem_listed rootMem
  have params : paramsOf store' (root source) = paramsOf store (root source) :=
    paramsOf_congr (body.lists _ rootMem)
      fun id inBlock => body.kindOf_eq expandable.grounded (listed id inBlock)
  have calledIn := (mem_listed_iff site.callerFound).mp otherMem
  have notRet : other ∉ site.rets := fun isRet =>
    site.not_callee_of_caller calledIn (site.rets_calledIn prepared.closed isRet)
  rcases prepared.returning with ⟨value, -, -, mapped⟩
  have inputs := mapped other (site.below_of_calledIn calledIn) notRet notCall
  rw [prepared.caller_inputs otherMem] at inputs
  constructor
  case enough =>
    rw [params, inputs, List.length_map]
    exact expandable.seated.enough
  case places =>
    intro place param isParam user uses
    rw [params] at isParam
    have member := listed param (mem_paramsOf (List.mem_of_getElem? isParam)).1
    rcases other_user prepared expandable.found member uses with ⟨before, uses⟩
    rw [body.kindOf_eq expandable.grounded member]
    exact expandable.seated.places place param isParam before uses

/-- A callee whose turn comes later stays as it is. -/
theorem other_expandable (expandable : Expandable store meaning callee other source)
    (notFunc : callee ≠ func) (notCallee : callee ≠ site.callee)
    (otherMem : other ∈ store.listed site.caller) (notCall : other ≠ call) :
    Expandable store' meaning callee other source := by
  have grounded := expandable.grounded
  have bbs : store.shape.bbs callee = source.bbs := Shape.bbs_eq expandable.found
  have body := other_body prepared expandable.found notFunc notCallee grounded.inputs
  constructor
  case found => exact (site.other_functions notFunc notCallee).trans expandable.found
  case grounded => exact body.grounded grounded expandable.names
  case names => exact body.namesPreds grounded expandable.names
  case enteredOnce =>
    constructor
    case params =>
      intro bb bbMem notRoot id inBlock
      rw [body.lists bb bbMem] at inBlock
      rw [body.kindOf_eq grounded (Consistent.mem_listed bbMem inBlock)]
      exact expandable.enteredOnce.params bb bbMem notRoot id inBlock
    case notEntered =>
      intro bb bbMem
      rw [body.succs bb bbMem]
      exact expandable.enteredOnce.notEntered bb bbMem
  case returns =>
    rcases expandable.returns with ⟨bb, bbMem, returns⟩
    rw [← site.other_retOf prepared.closed notFunc notCallee (bbs.symm ▸ bbMem)] at returns
    exact ⟨bb, bbMem, returns⟩
  case unread =>
    intro ret member isRet user isInput
    rw [body.listed_eq] at member
    rw [body.kindOf_eq grounded member] at isRet
    rcases other_user prepared expandable.found member isInput with ⟨before, isInput⟩
    exact expandable.unread ret member isRet before isInput
  case seated => exact other_seated prepared expandable body otherMem notCall
  case realizes =>
    intro vals world result calls
    exact body.results grounded (expandable.realizes vals world result calls)

/-- Parameters still have no operands. -/
theorem params_no_inputs
    (noInputs : ∀ id idx, store.kindOf id = some (.kParam idx) → store.inputs id = [])
    (idx : Nat) (isParam : store'.kindOf id = some (.kParam idx)) : store'.inputs id = [] := by
  rcases prepared.delivery with ⟨value, middle, delivery⟩
  rcases Nat.lt_or_ge id store.nextInst with below | new
  · rw [List.eq_nil_iff_forall_not_mem]
    intro input isInput
    have isInput := delivery.inputs_subset isInput
    rw [delivery.inputs id (Nat.ne_of_lt below)] at isInput
    rcases List.mem_map.mp isInput with ⟨operand, isOperand, -⟩
    rcases (prepared.operand_inputs isOperand).2 with ⟨before, isBefore, -⟩
    rw [noInputs id idx (site.kindOf_old below isParam)] at isBefore
    cases isBefore
  · apply delivery.inputs_new _ (isParam ▸ Option.some_ne_none _)
    by_contra below
    rw [Nat.not_le] at below
    have notRet : id ∉ site.rets := by
      intro isRet
      have listed := Prepared.ret_listed site prepared.closed isRet
      have older := site.below_of_calledIn ((mem_listed_iff site.sourceFound).mp listed)
      exact Nat.not_le_of_lt older new
    have notCall : id ≠ call := by
      rintro rfl
      exact Nat.not_le_of_lt (site.below_of_calledIn site.call_calledIn) new
    rcases delivery.kindOf_new new below with ⟨entries, isPhi⟩
    rw [← (delivery.kept below notRet notCall).2, isParam] at isPhi
    cases isPhi

end Site

end LeechJit.Opt.Inlining
