import LeechJit.Opt.InlineUsers

/-! # Calls that leave nothing behind

A call without operands whose callee never returns goes without a trace, and no call touches
the functions that it is not about.
-/

namespace LeechJit.Opt.Inlining

open IR Store LeechJit.Graph

variable {store store' : Store} {func callee : FuncId} {call id : InstId}

namespace Site

variable (site : Site func call store store')

include site

/-! ## The other functions -/

/-- A block that is neither in the callee nor the one of the call stays as it is. -/
theorem outside_block (closed : site.ClosedCallee) {bb : BlockId} (old : bb ≠ store.nextBlock)
    (notBB : bb ≠ site.bb) (apart : bb ∉ store.shape.bbs site.callee) :
    store'.instructions bb = store.instructions bb ∧ store'.succs bb = store.succs bb := by
  have notFirst : bb ≠ site.first := fun equal => apart (equal ▸ site.first_mem)
  have notOrdered : bb ∉ site.order := fun ordered => apart (site.order_subset closed ordered)
  rcases site.outputs_of_not (.inl notOrdered) with ⟨lists, succs⟩
  constructor
  · rw [site.lists, if_neg notFirst, if_neg notBB, lists, site.merged_lists old, site.inputs_lists,
      if_neg notFirst, site.split_lists old notBB]
  · rw [site.succs, if_neg notFirst, if_neg notBB, succs, site.split_succs old]

/-- Blocks of the other functions stay as they are. -/
theorem other_block (closed : site.ClosedCallee) {key : FuncId} (notFunc : key ≠ func)
    (notCallee : key ≠ site.callee) {bb : BlockId} (member : bb ∈ store.shape.bbs key) :
    store'.instructions bb = store.instructions bb ∧ store'.succs bb = store.succs bb := by
  have disjoint := site.tidy.apart.disjoint
  have notBB : bb ≠ site.bb := by
    rintro rfl
    exact notFunc (disjoint key func _ member site.bbMem)
  apply site.outside_block closed (site.ne_after (site.tidy.apart.present key bb member)) notBB
  exact fun inCallee => notCallee (disjoint key site.callee bb member inCallee)

theorem other_bbs {key : FuncId} (notFunc : key ≠ func) (notCallee : key ≠ site.callee) :
    store'.shape.bbs key = store.shape.bbs key := by
  rw [site.bbs, if_neg notFunc, if_neg notCallee]

theorem callee_bbs : store'.shape.bbs site.callee = [] := by
  rw [site.bbs, if_neg site.different.symm, if_pos rfl]

theorem other_calledIn (closed : site.ClosedCallee) {key : FuncId} (notFunc : key ≠ func)
    (notCallee : key ≠ site.callee) : CalledIn store' key id ↔ CalledIn store key id := by
  rw [CalledIn, CalledIn, site.other_bbs notFunc notCallee]
  constructor
  · rintro ⟨bb, member, inBlock⟩
    exact ⟨bb, member, (site.other_block closed notFunc notCallee member).1 ▸ inBlock⟩
  · rintro ⟨bb, member, inBlock⟩
    exact ⟨bb, member, (site.other_block closed notFunc notCallee member).1.symm ▸ inBlock⟩

theorem other_functions {key : FuncId} (notFunc : key ≠ func) (notCallee : key ≠ site.callee) :
    store'.functions key = store.functions key := by
  rw [site.functions, if_neg notFunc, if_neg notCallee]

theorem other_kindOf (closed : site.ClosedCallee) {key : FuncId} (notFunc : key ≠ func)
    (notCallee : key ≠ site.callee) (calledIn : CalledIn store key id) :
    store'.kindOf id = store.kindOf id := by
  apply site.kindOf (site.below_of_calledIn calledIn)
  · exact fun isParam => notCallee (calledIn.unique site.tidy (site.params_calledIn isParam))
  · exact fun isRet => notCallee (calledIn.unique site.tidy (site.rets_calledIn closed isRet))
  · rintro rfl
    exact notFunc (calledIn.unique site.tidy site.call_calledIn)

theorem other_retOf (closed : site.ClosedCallee) {key : FuncId} (notFunc : key ≠ func)
    (notCallee : key ≠ site.callee) {bb : BlockId} (member : bb ∈ store.shape.bbs key) :
    retOf store' bb = retOf store bb := by
  rw [retOf, retOf, (site.other_block closed notFunc notCallee member).1]
  cases atEnd : (store.instructions bb).getLast? with
  | none => rfl
  | some last =>
      have inBlock : CalledIn store key last := ⟨bb, member, List.mem_of_getLast? atEnd⟩
      simp only [Option.filter_some, site.other_kindOf closed notFunc notCallee inBlock]

/-- The graphs of the other functions stay as they are. -/
theorem other_succs (closed : site.ClosedCallee) {key : FuncId} (notFunc : key ≠ func)
    (notCallee : key ≠ site.callee) {function : Function}
    (found : store.functions key = some function) :
    ∀ bb ∈ (store.cfg function).nodes, (store'.cfg function).succs bb = (store.cfg function).succs bb := by
  intro bb member
  have inFunction : bb ∈ store.shape.bbs key := by
    rw [Shape.bbs_eq (show store.shape.functions key = some function from found)]
    exact member
  exact (site.other_block closed notFunc notCallee inFunction).2

theorem other_reachable (closed : site.ClosedCallee) {key : FuncId} (notFunc : key ≠ func)
    (notCallee : key ≠ site.callee) {function : Function}
    (found : store.functions key = some function) (before : (store.cfg function).Closed)
    {bb : BlockId} : (store'.cfg function).Reachable bb ↔ (store.cfg function).Reachable bb := by
  have sameEntry : (store'.cfg function).entryPoint = (store.cfg function).entryPoint := rfl
  exact before.reachable_iff sameEntry (site.other_succs closed notFunc notCallee found)

end Site

/-- The blocks of a function lead to blocks of the function. -/
def KeepsIn (store : Store) (func : FuncId) : Prop :=
  ∀ bb ∈ store.shape.bbs func, ∀ succ ∈ store.succs bb, succ ∈ store.shape.bbs func

theorem Site.keepsIn (site : Site func call store store') (closed : site.ClosedCallee)
    (notFunc : callee ≠ func) (keeps : KeepsIn store callee) : KeepsIn store' callee := by
  cases decEq callee site.callee with
  | isTrue same =>
      intro bb member
      rw [same, site.callee_bbs] at member
      cases member
  | isFalse different =>
      intro bb member succ isSucc
      rw [site.other_bbs notFunc different] at member ⊢
      rw [(site.other_block closed notFunc different member).2] at isSucc
      exact keeps bb member succ isSucc

/-- A call that is still to be inlined stays as it is. -/
theorem Site.pending_kindOf {rest : List InstId} (site : Site func call store store')
    (pending : Pending store func (call :: rest)) {other : InstId} (member : other ∈ rest) :
    store'.kindOf other = store.kindOf other := by
  have later := List.mem_cons_of_mem call member
  rcases pending.callee other later with ⟨callee, -, isCall, -⟩
  have notCall : other ≠ call := by
    rintro rfl
    exact (List.nodup_cons.mp pending.nodup).1 member
  rw [isCall]
  apply (site.stays_in_caller isCall _ _ notCall (pending.calledIn other later)).2
  · intro idx equal
    cases equal
  · intro equal
    cases equal

/-! ## What the later calls leave alone -/

/-- Users that are gone are not taken away by the calls inlined later. -/
theorem Stale.run {calls : List InstId} {gone val : InstId} (pending : Pending store func calls)
    (tidy : store.Tidy) (keeps : ∀ call ∈ calls, ∀ callee,
      store.kindOf call = some (.kCall callee) → KeepsIn store callee)
    (stale : Stale store func gone val) (notMem : val ∉ calls)
    (result : calls.foldlM (doInline func) store = .ok store') :
    Stale store' func gone val ∧ store'.Tidy := by
  induction calls generalizing store with
  | nil =>
      cases result
      exact ⟨stale, tidy⟩
  | cons call rest induction =>
      rw [List.foldlM_cons] at result
      rcases Result.bind_eq_ok.mp result with ⟨next, first, later⟩
      rcases pending.site tidy first with ⟨site⟩
      have isCall : store.kindOf call = some (.kCall site.callee) := by
        rw [kindOf_eq site.instFound, site.kind]
      have closed : site.ClosedCallee := keeps call List.mem_cons_self site.callee isCall
      apply induction (site.pending pending) site.tidy' _
        (site.stale closed stale (List.ne_of_not_mem_cons notMem))
        (List.not_mem_of_not_mem_cons notMem) later
      intro other member callee isCallee
      rw [site.pending_kindOf pending member] at isCallee
      rcases pending.callee other (List.mem_cons_of_mem _ member) with ⟨again, notFunc, isAgain, -⟩
      cases isCallee.symm.trans isAgain
      exact site.keepsIn closed notFunc (keeps other (List.mem_cons_of_mem _ member) callee isAgain)

/-! ## A call that leaves no users behind -/

namespace Site

variable (site : Site func call store store')

include site

/-- What a call without operands whose callee never returns does to operands and users. -/
theorem idle_operands (noInputs : store.inputs call = []) (noRets : site.rets = []) :
    (∀ key, store'.inputs key = if key = call ∨ key = store.nextInst then []
      else if key ∈ store.users call then
        (store.inputs key).map (redirect call store.nextInst)
      else store.inputs key) ∧
    ∀ key ≠ call, ∀ user, user ∈ store'.users key ↔
      (key ≠ store.nextInst ∧ user ∈ store.users key) ∨
        (key = store.nextInst ∧ user ∈ store.users call) := by
  rcases site.outputs_steps with ⟨middle, merging, -, replacing⟩
  rw [noRets] at merging replacing
  cases replacing
  rw [site.inputs_eq_split noInputs] at merging
  rcases Result.bind_eq_ok.mp merging with ⟨⟨phi, pushed⟩, pushing, continued⟩
  rcases Result.bind_eq_ok.mp continued with ⟨filled, adding, moving⟩
  cases adding
  rcases pushInstFront_adds pushing with ⟨isPhi, adds⟩
  have isNew : site.split.nextInst = store.nextInst := by
    rw [← site.inputs_eq_split noInputs, site.inputs_nextInst]
  have split := site.split_operands
  have callOld : call ≠ store.nextInst := Nat.ne_of_lt (site.below_of_calledIn site.call_calledIn)
  rw [isNew] at isPhi
  have inputs : ∀ key, pushed.inputs key =
      if key = store.nextInst then [] else store.inputs key := by
    intro key
    rw [adds.inputs, isNew, split.inputs]
    rfl
  have users : ∀ key user, user ∈ pushed.users key ↔
      key ≠ store.nextInst ∧ user ∈ store.users key := by
    intro key user
    rw [adds.users, isNew, split.users]
    simp [Construct.inputs]
  subst isPhi
  rcases setUsersFrom_eq_ok' callOld.symm moving with ⟨-, inputs', users'⟩
  constructor
  · intro key
    have fromCall : key ∈ pushed.users store.nextInst ∨ key ∈ pushed.users call ↔
        key ∈ store.users call := by
      simp [users, callOld]
    rw [site.final_operands.1, inputs', inputs]
    simp only [fromCall]
    by_cases isCall : key = call
    · simp [isCall]
    · by_cases isPhi : key = store.nextInst
      · simp [isPhi, callOld.symm]
      · simp only [isCall, isPhi, or_self, if_false]
        rfl
  · intro key notCall user
    rw [site.final_operands.2, if_neg notCall, users', users, users]
    simp [notCall, callOld]

theorem idle_outputs (noInputs : store.inputs call = []) (noRets : site.rets = []) (bb : BlockId) :
    site.outputs.instructions bb =
      if bb = store.nextBlock then store.nextInst :: site.back else site.split.instructions bb := by
  have noRet : bb ∉ site.order ∨ retOf site.inputs bb = none := by
    cases returns : retOf site.inputs bb with
    | none => exact .inr rfl
    | some ret =>
        left
        intro ordered
        have member := site.mem_rets.mpr ⟨bb, ordered, returns⟩
        rw [noRets] at member
        cases member
  rw [(site.outputs_of_not noRet).1]
  cases decEq bb store.nextBlock with
  | isFalse old => rw [if_neg old, site.merged_lists old, site.inputs_eq_split noInputs]
  | isTrue isAfter =>
      rw [if_pos isAfter, isAfter]
      rcases site.isMerged with ⟨one, -⟩ | ⟨-, vars, -, merged_eq⟩
      · rw [noRets] at one
        cases one
      · have placed : site.merged.lists store.nextBlock =
            site.inputs.nextInst :: site.inputs.instructions store.nextBlock := by
          rw [merged_eq]
          simp [Shape.place, Shape.setList]
        rw [placed, site.inputs_nextInst, site.inputs_eq_split noInputs, site.split_lists_after]

/-- Splitting its block puts nothing new into the caller. -/
theorem calledIn_of_split {bb : BlockId} (member : bb ∈ store.shape.bbs func)
    (inSplit : id ∈ site.split.instructions bb) : CalledIn store func id := by
  refine ⟨bb, member, ?_⟩
  cases decEq bb site.bb with
  | isTrue isBB =>
      rw [isBB, site.split_lists_bb] at inSplit
      rw [isBB, site.here, List.append_cons]
      exact List.mem_append_left _ inSplit
  | isFalse notBB =>
      have old := site.ne_after (site.tidy.apart.present func bb member)
      rwa [site.split_lists old notBB] at inSplit

/-- The caller then has the callee's instructions and a phi in place of the call. -/
theorem idle_calledIn (noInputs : store.inputs call = []) (noRets : site.rets = []) :
    CalledIn store' func id ↔ (CalledIn store func id ∧ id ≠ call) ∨
      CalledIn store site.callee id ∨ id = store.nextInst := by
  have notRet : ∀ id, id ∉ site.rets := by simp [noRets]
  have bbs := site.bbs func
  rw [if_pos rfl] at bbs
  have afterFirst := (site.ne_after site.first_present).symm
  have afterBB := (site.ne_after (site.tidy.apart.present func _ site.bbMem)).symm
  constructor
  · intro calledIn
    have notCall : id ≠ call := by
      rintro rfl
      rcases stored_of_calledIn site.tidy' calledIn with ⟨inst, found⟩
      cases site.call_gone.symm.trans found
    have fromCallee : ∀ {bb}, bb ∈ store.shape.bbs site.callee →
        id ∈ site.outputs.instructions bb → CalledIn store site.callee id := by
      intro bb member inBlock
      rw [site.idle_outputs noInputs noRets, if_neg (site.callee_ne_after member),
        site.callee_lists member] at inBlock
      exact ⟨bb, member, inBlock⟩
    have fromCaller : ∀ {bb}, bb ∈ store.shape.bbs func →
        id ∈ site.outputs.instructions bb → CalledIn store func id := by
      intro bb member inBlock
      rw [site.idle_outputs noInputs noRets,
        if_neg (site.ne_after (site.tidy.apart.present func bb member))] at inBlock
      exact site.calledIn_of_split member inBlock
    rcases calledIn with ⟨bb, bbMem, inBlock⟩
    rw [site.lists] at inBlock
    split_ifs at inBlock with isFirst isBB
    · cases inBlock
    · rcases List.mem_append.mp (List.mem_of_mem_erase inBlock) with inBB | inFirst
      · exact .inl ⟨fromCaller site.bbMem inBB, notCall⟩
      · exact .inr (.inl (fromCallee site.first_mem inFirst))
    · rw [bbs, List.mem_append, List.mem_append, List.mem_singleton] at bbMem
      rcases bbMem with (inCaller | inRest) | isAfter
      · exact .inl ⟨fromCaller inCaller inBlock, notCall⟩
      · have member : bb ∈ store.shape.bbs site.callee := by
          rw [site.mem_calleeBBs, site.blocks]
          exact List.mem_cons_of_mem _ inRest
        exact .inr (.inl (fromCallee member inBlock))
      · rw [isAfter, site.idle_outputs noInputs noRets, if_pos rfl] at inBlock
        rcases List.mem_cons.mp inBlock with isPhi | inBack
        · exact .inr (.inr isPhi)
        · refine .inl ⟨⟨site.bb, site.bbMem, ?_⟩, notCall⟩
          rw [site.here]
          exact List.mem_append_right _ (List.mem_cons_of_mem _ inBack)
  · rintro (⟨inCaller, notCall⟩ | inCallee | rfl)
    · exact site.calledIn_caller (site.not_param noInputs id) (notRet id) notCall inCaller
    · exact site.calledIn_callee (site.not_param noInputs id) (notRet id) inCallee
    · refine ⟨store.nextBlock, by rw [bbs]; simp, ?_⟩
      rw [site.lists, if_neg afterFirst, if_neg afterBB, site.idle_outputs noInputs noRets, if_pos rfl]
      exact List.mem_cons_self

/-- What is not in the caller keeps its operands and users. -/
theorem idle_other (noInputs : store.inputs call = []) (noRets : site.rets = [])
    (exact : Exact store func) {key : FuncId} (notFunc : key ≠ func)
    (calledIn : CalledIn store key id) : store'.inputs id = store.inputs id ∧
      ∀ user, user ∈ store'.users id ↔ user ∈ store.users id := by
  have apart : ¬ CalledIn store func id := fun other => notFunc (calledIn.unique site.tidy other)
  have notCall : id ≠ call := by
    rintro rfl
    exact apart site.call_calledIn
  have old : id ≠ store.nextInst := Nat.ne_of_lt (site.below_of_calledIn calledIn)
  have notUser : id ∉ store.users call := fun isUser =>
    apart ((exact.users call site.call_calledIn id).mp isUser).1
  rcases site.idle_operands noInputs noRets with ⟨inputs, users⟩
  constructor
  · rw [inputs, if_neg (not_or.mpr ⟨notCall, old⟩), if_neg notUser]
  · intro user
    rw [users id notCall]
    simp [old]

/-- The users sets of the caller stay exact. -/
theorem idle_exact (noInputs : store.inputs call = []) (noRets : site.rets = [])
    (caller : Exact store func) (callee : Exact store site.callee) : Exact store' func := by
  have calledIn : ∀ {id}, CalledIn store' func id ↔ (CalledIn store func id ∧ id ≠ call) ∨
      CalledIn store site.callee id ∨ id = store.nextInst := site.idle_calledIn noInputs noRets
  have notFunc := site.different.symm
  have other : ∀ {id}, CalledIn store site.callee id → store'.inputs id = store.inputs id ∧
      ∀ user, user ∈ store'.users id ↔ user ∈ store.users id :=
    fun inCallee => site.idle_other noInputs noRets caller notFunc inCallee
  have below : ∀ {key id}, CalledIn store key id → id ≠ store.nextInst := fun inFunction =>
    Nat.ne_of_lt (site.below_of_calledIn inFunction)
  have callOld := below site.call_calledIn
  have notSelf : call ∉ store.users call := by
    intro isUser
    have isInput := ((caller.users call site.call_calledIn call).mp isUser).2
    rw [noInputs] at isInput
    cases isInput
  rcases site.idle_operands noInputs noRets with ⟨inputs, users⟩
  have noPhiInputs : store'.inputs store.nextInst = [] := by
    rw [inputs, if_pos (.inr rfl)]
  -- the operands of what was in the caller
  have mem_inputs : ∀ {id input}, CalledIn store func id → id ≠ call →
      (input ∈ store'.inputs id ↔ (input ∈ store.inputs id ∧ input ≠ call) ∨
        (input = store.nextInst ∧ id ∈ store.users call)) := by
    intro id input inCaller notCall
    have usesCall := caller.users call site.call_calledIn id
    rw [inputs, if_neg (not_or.mpr ⟨notCall, below inCaller⟩)]
    by_cases isUser : id ∈ store.users call
    · rw [if_pos isUser, mem_map_redirect]
      simp [isUser, (usesCall.mp isUser).2]
    · have noCall : call ∉ store.inputs id := fun isInput => isUser (usesCall.mpr ⟨inCaller, isInput⟩)
      rw [if_neg isUser]
      constructor
      · intro isInput
        exact .inl ⟨isInput, fun isCall => noCall (isCall ▸ isInput)⟩
      · rintro (⟨isInput, -⟩ | ⟨-, absurd'⟩)
        · exact isInput
        · exact absurd absurd' isUser
  constructor
  · intro id member input isInput
    rw [calledIn]
    rcases calledIn.mp member with ⟨inCaller, notCall⟩ | inCallee | rfl
    · rcases (mem_inputs inCaller notCall).mp isInput with ⟨isInput, inputNotCall⟩ | ⟨isPhi, -⟩
      · exact .inl ⟨caller.inputs id inCaller input isInput, inputNotCall⟩
      · exact .inr (.inr isPhi)
    · rw [(other inCallee).1] at isInput
      exact .inr (.inl (callee.inputs id inCallee input isInput))
    · rw [noPhiInputs] at isInput
      cases isInput
  · intro value member user
    rw [calledIn]
    rcases calledIn.mp member with ⟨inCaller, notCall⟩ | inCallee | rfl
    · have old := below inCaller
      rw [users value notCall]
      simp only [old, ne_eq, not_false_eq_true, true_and, false_and, or_false]
      rw [caller.users value inCaller]
      constructor
      · rintro ⟨userIn, isInput⟩
        have userNotCall : user ≠ call := by
          rintro rfl
          rw [noInputs] at isInput
          cases isInput
        exact ⟨.inl ⟨userIn, userNotCall⟩, (mem_inputs userIn userNotCall).mpr (.inl ⟨isInput, notCall⟩)⟩
      · rintro ⟨⟨userIn, userNotCall⟩ | userIn | rfl, isInput⟩
        · rcases (mem_inputs userIn userNotCall).mp isInput with ⟨isInput, -⟩ | ⟨isPhi, -⟩
          · exact ⟨userIn, isInput⟩
          · exact absurd isPhi old
        · rw [(other userIn).1] at isInput
          exact absurd (callee.inputs user userIn value isInput) (site.not_callee_of_caller inCaller)
        · rw [noPhiInputs] at isInput
          cases isInput
    · rw [(other inCallee).2, callee.users value inCallee]
      constructor
      · rintro ⟨userIn, isInput⟩
        exact ⟨.inr (.inl userIn), (other userIn).1 ▸ isInput⟩
      · rintro ⟨⟨userIn, userNotCall⟩ | userIn | rfl, isInput⟩
        · rcases (mem_inputs userIn userNotCall).mp isInput with ⟨isInput, -⟩ | ⟨isPhi, -⟩
          · exact absurd inCallee
              (site.not_callee_of_caller (caller.inputs user userIn value isInput))
          · exact absurd isPhi (below inCallee)
        · exact ⟨userIn, (other userIn).1 ▸ isInput⟩
        · rw [noPhiInputs] at isInput
          cases isInput
    · rw [users _ callOld.symm]
      simp only [ne_eq, not_true_eq_false, false_and, true_and, false_or]
      constructor
      · intro isUser
        have userIn := ((caller.users call site.call_calledIn user).mp isUser).1
        have userNotCall : user ≠ call := by
          rintro rfl
          exact notSelf isUser
        exact ⟨.inl ⟨userIn, userNotCall⟩, (mem_inputs userIn userNotCall).mpr (.inr ⟨rfl, isUser⟩)⟩
      · rintro ⟨⟨userIn, userNotCall⟩ | userIn | rfl, isInput⟩
        · rcases (mem_inputs userIn userNotCall).mp isInput with ⟨isInput, -⟩ | ⟨-, isUser⟩
          · exact absurd rfl (below (caller.inputs user userIn _ isInput))
          · exact isUser
        · rw [(other userIn).1] at isInput
          exact absurd rfl (below (callee.inputs user userIn _ isInput))
        · rw [noPhiInputs] at isInput
          cases isInput

end Site

/-! ## Callees that never return -/

/-- No block the function can come to ends in a return. -/
def NeverReturns (store : Store) (func : FuncId) : Prop :=
  ∀ function, store.functions func = some function →
    ∀ bb, (store.cfg function).Reachable bb → retOf store bb = none

/-- A function of blocks and instructions of its own, with exact users, in which no return is an
operand. -/
structure Sealed (store : Store) (func : FuncId) : Prop where
  closed : ∀ function, store.functions func = some function → (store.cfg function).Closed
  exact : Exact store func
  values : ∀ user, CalledIn store func user → ∀ input ∈ store.inputs user,
    store.kindOf input ≠ some .kRet

theorem Sealed.keepsIn (isSealed : Sealed store func) : KeepsIn store func := by
  intro bb member succ isSucc
  rw [Shape.bbs] at member ⊢
  cases found : store.functions func with
  | none =>
      rw [show store.shape.functions func = none from found] at member
      cases member
  | some function =>
      rw [show store.shape.functions func = some function from found] at member ⊢
      exact (isSealed.closed function found).succs_mem bb member succ isSucc

namespace Site

variable (site : Site func call store store')

include site

theorem closed_of_cfg (closed : (store.cfg site.source).Closed) : site.ClosedCallee := by
  intro bb member succ isSucc
  rw [site.mem_calleeBBs] at member ⊢
  exact closed.succs_mem bb member succ isSucc

/-- The returns are looked for in the blocks that the callee can reach. -/
theorem mem_order (closed : (store.cfg site.source).Closed) {bb : BlockId} :
    bb ∈ site.order ↔ (store.cfg site.source).Reachable bb := by
  have sameEntry : (site.inputs.cfg site.source).entryPoint =
      (store.cfg site.source).entryPoint := rfl
  have sameSuccs : ∀ bb ∈ (store.cfg site.source).nodes,
      (site.inputs.cfg site.source).succs bb = (store.cfg site.source).succs bb := by
    intro bb member
    change site.inputs.succs bb = store.succs bb
    have inCallee := site.mem_calleeBBs.mpr member
    rw [site.inputs_succs, site.split_succs (site.callee_ne_after inCallee)]
  rw [site.isOrder, mem_preOrder (site.closed_cfg (site.closed_of_cfg closed)),
    closed.reachable_iff sameEntry sameSuccs]

theorem neverReturns_iff (closed : (store.cfg site.source).Closed)
    (noInputs : store.inputs call = []) : NeverReturns store site.callee ↔ site.rets = [] := by
  have keeps := site.closed_of_cfg closed
  have sameRets : ∀ bb ∈ site.order, retOf site.inputs bb = retOf store bb := by
    intro bb member
    have inCallee := site.order_subset keeps member
    rw [retOf, retOf, site.inputs_eq_split noInputs, site.callee_lists inCallee]
    congr 1
    funext last
    rw [site.split_kindOf]
  rw [site.isRets, List.filterMap_eq_nil_iff]
  constructor
  · intro never bb member
    rw [sameRets bb member]
    exact never site.source site.sourceFound bb ((site.mem_order closed).mp member)
  · intro noRets function found bb reachable
    cases site.sourceFound.symm.trans found
    have member := (site.mem_order closed).mpr reachable
    rw [← sameRets bb member]
    exact noRets bb member

theorem other_closed (closed : site.ClosedCallee) {key : FuncId} (notFunc : key ≠ func)
    (notCallee : key ≠ site.callee) {function : Function} (found : store.functions key = some function)
    (before : (store.cfg function).Closed) : (store'.cfg function).Closed := by
  refine ⟨before.nodup, before.entry_mem, ?_⟩
  intro bb member succ isSucc
  rw [site.other_succs closed notFunc notCallee found bb member] at isSucc
  exact before.succs_mem bb member succ isSucc

/-- The other callees stay as they are. -/
theorem idle_isSealed (noInputs : store.inputs call = []) (noRets : site.rets = [])
    (exact : Exact store func) (closed : site.ClosedCallee) {key : FuncId} (notFunc : key ≠ func)
    (notCallee : key ≠ site.callee) (isSealed : Sealed store key) : Sealed store' key := by
  have calledIn : ∀ {id}, CalledIn store' key id ↔ CalledIn store key id :=
    site.other_calledIn closed notFunc notCallee
  have other : ∀ {id}, CalledIn store key id → store'.inputs id = store.inputs id ∧
      ∀ user, user ∈ store'.users id ↔ user ∈ store.users id :=
    fun inFunction => site.idle_other noInputs noRets exact notFunc inFunction
  constructor
  · intro function found
    rw [site.other_functions notFunc notCallee] at found
    exact site.other_closed closed notFunc notCallee found (isSealed.closed function found)
  · constructor
    · intro id member input isInput
      rw [calledIn] at member ⊢
      rw [(other member).1] at isInput
      exact isSealed.exact.inputs id member input isInput
    · intro value member user
      rw [calledIn] at member ⊢
      rw [(other member).2, isSealed.exact.users value member]
      apply and_congr_right
      intro userIn
      rw [(other userIn).1]
  · intro user member input isInput
    rw [calledIn] at member
    rw [(other member).1] at isInput
    have inputIn := isSealed.exact.inputs user member input isInput
    rw [site.other_kindOf closed notFunc notCallee inputIn]
    exact isSealed.values user member input isInput

theorem other_neverReturns (closed : site.ClosedCallee) {key : FuncId} (notFunc : key ≠ func)
    (notCallee : key ≠ site.callee) (isSealed : Sealed store key) :
    NeverReturns store' key ↔ NeverReturns store key := by
  rw [NeverReturns, NeverReturns, site.other_functions notFunc notCallee]
  apply forall_congr'
  intro function
  apply forall_congr'
  intro found
  have before := isSealed.closed function found
  apply forall_congr'
  intro bb
  rw [site.other_reachable closed notFunc notCallee found before]
  apply forall_congr'
  intro reachable
  have member : bb ∈ store.shape.bbs key := by
    rw [Shape.bbs_eq (show store.shape.functions key = some function from found)]
    exact before.mem_of_reachable reachable
  rw [site.other_retOf closed notFunc notCallee member]

/-- A call that is still to be inlined uses what it used, or the new phi. -/
theorem idle_pending (noInputs : store.inputs call = []) (noRets : site.rets = []) {other : InstId}
    (below : other < store.nextInst) (notCall : other ≠ call) :
    (store'.inputs other = [] ↔ store.inputs other = []) ∧
      ∀ input ∈ store'.inputs other, input ∈ store.inputs other ∨ input = store.nextInst := by
  rw [(site.idle_operands noInputs noRets).1,
    if_neg (not_or.mpr ⟨notCall, Nat.ne_of_lt below⟩)]
  split_ifs
  · constructor
    · exact List.map_eq_nil_iff
    · intro input isInput
      rcases mem_map_redirect.mp isInput with ⟨isInput, -⟩ | ⟨isPhi, -⟩
      · exact .inl isInput
      · exact .inr isPhi
  · exact ⟨.rfl, fun input isInput => .inl isInput⟩

end Site

end LeechJit.Opt.Inlining
