import LeechJit.Opt.InlineAvailable

/-! # Functions after inlining

The new blocks are entered and end as blocks do, and the entries of phis name blocks that lead to
them. With the definitions that are available the caller stays one whose executions find their
operands.
-/

namespace LeechJit.Opt.Inlining

open IR Store Bindings

variable {store store' : Store} {caller source target : Function} {func : FuncId}
  {call id value operand now ret : InstId} {bb pred other : BlockId} {front back : List InstId}
  {vars : List PhiEntry}

/-- A block ends in the only instruction that leaves it. -/
def EndsOnce (store : Store) (bb : BlockId) : Prop :=
  ∃ front last kind, store.instructions bb = front ++ [last] ∧ store.kindOf last = some kind ∧
    kind.isTerminator = true ∧ store.succs bb = kind.targets ∧
    ∀ id ∈ front, ∀ other, store.kindOf id = some other → other.isTerminator = false

theorem EndsOnce.insts (endsOnce : EndsOnce store bb) : ∃ front last inst,
    store.instructions bb = front ++ [last] ∧ store.insts last = some inst ∧
      inst.kind.isTerminator = true ∧ store.succs bb = inst.kind.targets ∧
      ∀ id ∈ front, ∀ other, store.insts id = some other → other.kind.isTerminator = false := by
  rcases endsOnce with ⟨front, last, kind, ends, isKind, terminates, succs, goesOn⟩
  rcases kindOf_ne_none.mp (isKind ▸ Option.some_ne_none _) with ⟨inst, found⟩
  rw [kindOf_eq found, Option.some.injEq] at isKind
  subst isKind
  refine ⟨front, last, inst, ends, found, terminates, succs, ?_⟩
  exact fun id inFront other foundOther =>
    goesOn id inFront other.kind (kindOf_eq foundOther)

namespace Expansion

namespace Placed

variable {expansion : Expansion store store' caller source call}
  (placed : expansion.Placed target)

include placed

/-! ## Phis -/

theorem caller_kind (member : id ∈ store.listed caller) (notCall : id ≠ call) :
    store'.kindOf id = store.kindOf id := by
  rcases placed.grounded.stored id member with ⟨inst, found⟩
  rcases expansion.callerStays id member notCall inst found with ⟨inst', found', -, kind, -⟩
  rw [kindOf_eq found, kindOf_eq found', kind]

theorem callee_kind (member : id ∈ store.listed source)
    (notParam : id ∉ paramsOf store expansion.first) (notRet : store.kindOf id ≠ some .kRet) :
    store'.kindOf id = store.kindOf id := by
  rcases placed.body.stored id member with ⟨inst, found⟩
  rcases expansion.calleeStays id member notParam notRet inst found with
    ⟨inst', found', -, kind, -⟩
  rw [kindOf_eq found, kindOf_eq found', kind]

/-- Where the phis after the expansion come from. -/
inductive PhiAt (expansion : Expansion store store' caller source call) (bb : BlockId)
    (id : InstId) (vars : List PhiEntry) : Prop
  | caller (bbMem : bb ∈ caller.bbs) (inBlock : id ∈ store.instructions bb) (notCall : id ≠ call)
      (isPhi : store.kindOf id = some (.kPhi vars))
  | callee (bbMem : bb ∈ source.bbs) (notFirst : bb ≠ expansion.first)
      (inBlock : id ∈ store.instructions bb) (isPhi : store.kindOf id = some (.kPhi vars))
  | merged (isAfter : bb = expansion.after) (inputs : store'.inputs id = vars.map PhiEntry.val)
      (origins : ∀ entry ∈ vars, entry.bb ∈ source.bbs ∧ entry.bb ≠ expansion.first ∧
        ∃ ret ∈ store.instructions entry.bb, store.kindOf ret = some .kRet ∧
          ReturnedFrom store expansion.first call ret entry.val)

theorem mem_lead (inLead : id ∈ expansion.lead other) :
    other = expansion.first ∧ id ∈ expansion.front ∧ id ≠ call := by
  have isFirst : other = expansion.first := by
    by_contra notFirst
    rw [lead, if_neg notFirst] at inLead
    cases inLead
  rw [lead, if_pos isFirst] at inLead
  refine ⟨isFirst, inLead, ?_⟩
  rintro rfl
  exact placed.call_not_front.1 inLead

theorem phiAt_callee (ownMem : other ∈ source.bbs)
    (inBlock : id ∈ store'.instructions (expansion.into other))
    (isPhi : store'.kindOf id = some (.kPhi vars)) :
    PhiAt expansion (expansion.into other) id vars := by
  rcases expansion.body ownMem with ⟨ids, lists, trails⟩
  rw [lists, List.mem_append] at inBlock
  rcases inBlock with inLead | inIds
  · rcases placed.mem_lead inLead with ⟨isFirst, inFront, notCall⟩
    have inBlock : id ∈ store.instructions expansion.bb := by simp [expansion.here, inFront]
    rw [placed.caller_kind (Consistent.mem_listed expansion.bbMem inBlock) notCall] at isPhi
    rw [into, if_pos isFirst]
    exact .caller expansion.bbMem inBlock notCall isPhi
  · rcases List.append_of_mem inIds with ⟨front, back, split⟩
    rcases trails.split split with ⟨isJump, -⟩ | ⟨before, behind, here, notParam, notRet, -⟩
    · cases isJump.symm.trans isPhi
    · have inBlock : id ∈ store.instructions other := by simp [here]
      rw [placed.callee_kind (Consistent.mem_listed ownMem inBlock) notParam notRet] at isPhi
      have notFirst : other ≠ expansion.first := by
        rintro rfl
        exact placed.entryPhis ⟨id, inBlock, vars, isPhi⟩
      rw [expansion.into_ne_first other notFirst]
      exact .callee ownMem notFirst inBlock isPhi

theorem not_phi_back (inBack : id ∈ expansion.back) (vars : List PhiEntry) :
    store'.kindOf id ≠ some (.kPhi vars) := by
  have notCall : id ≠ call := by
    rintro rfl
    exact placed.call_not_front.2 inBack
  have inBlock : id ∈ store.instructions expansion.bb := by simp [expansion.here, inBack]
  rw [placed.caller_kind (Consistent.mem_listed expansion.bbMem inBlock) notCall]
  exact placed.behind id inBack vars

theorem phiAt_after (inBlock : id ∈ store'.instructions expansion.after)
    (isPhi : store'.kindOf id = some (.kPhi vars)) :
    PhiAt expansion expansion.after id vars := by
  cases expansion.returning with
  | single lists _ =>
      rw [lists] at inBlock
      exact absurd isPhi (placed.not_phi_back inBlock vars)
  | phi lists elsewhere found kind inputs _ _ _ origins =>
      rw [lists, List.mem_cons] at inBlock
      rcases inBlock with rfl | inBack
      · rw [kindOf_eq found, kind, Option.some.injEq, InstKind.kPhi.injEq] at isPhi
        subst isPhi
        refine .merged rfl (inputs_eq found ▸ inputs) ?_
        intro entry isEntry
        rcases origins entry isEntry with ⟨entryMem, ret, inEntry, isRet, returned⟩
        refine ⟨entryMem, ?_, ret, inEntry, isRet, returned⟩
        intro isFirst
        exact elsewhere ret (isFirst ▸ inEntry) isRet
      · exact absurd isPhi (placed.not_phi_back inBack vars)

theorem phiAt (bbMem : bb ∈ target.bbs) (inBlock : id ∈ store'.instructions bb)
    (isPhi : store'.kindOf id = some (.kPhi vars)) : PhiAt expansion bb id vars := by
  rcases placed.kinds_of_mem bbMem with ⟨bbMem, notBB⟩ | ⟨own, ownMem, rfl⟩ | rfl
  · rw [expansion.others bb bbMem notBB] at inBlock
    have notCall : id ≠ call := by
      rintro rfl
      exact placed.call_not_mem bbMem notBB inBlock
    rw [placed.caller_kind (Consistent.mem_listed bbMem inBlock) notCall] at isPhi
    exact .caller bbMem inBlock notCall isPhi
  · exact placed.phiAt_callee ownMem inBlock isPhi
  · exact placed.phiAt_after inBlock isPhi

/-- No phi of the caller has an entry for the block of the call. -/
theorem caller_entry (bbMem : bb ∈ caller.bbs) (inBlock : id ∈ store.instructions bb)
    (isPhi : store.kindOf id = some (.kPhi vars)) {entry : PhiEntry} (isEntry : entry ∈ vars) :
    entry.bb ∈ caller.bbs ∧ entry.bb ≠ expansion.bb ∧ bb ∈ store.succs entry.bb := by
  rcases (placed.callerNames bb bbMem id inBlock vars isPhi).entries entry isEntry with
    ⟨entryMem, edge⟩
  refine ⟨entryMem, ?_, edge⟩
  intro isBB
  exact placed.outgoing bb (isBB ▸ edge) ⟨id, inBlock, vars, isPhi⟩

/-- No phi of the callee has an entry for its first block. -/
theorem callee_entry (bbMem : bb ∈ source.bbs) (inBlock : id ∈ store.instructions bb)
    (isPhi : store.kindOf id = some (.kPhi vars)) {entry : PhiEntry} (isEntry : entry ∈ vars) :
    entry.bb ∈ source.bbs ∧ entry.bb ≠ expansion.first ∧ bb ∈ store.succs entry.bb := by
  rcases (placed.calleeNames bb bbMem id inBlock vars isPhi).entries entry isEntry with
    ⟨entryMem, edge⟩
  refine ⟨entryMem, ?_, edge⟩
  intro isFirst
  exact placed.entrySuccs bb (isFirst ▸ edge) ⟨id, inBlock, vars, isPhi⟩

theorem retOf_eq_none (bbMem : bb ∈ source.bbs) (edge : other ∈ store.succs bb) :
    retOf store bb = none := by
  rw [Option.eq_none_iff_forall_ne_some]
  intro ret returns
  rcases retOf_eq_some.mp returns with ⟨atEnd, isRet⟩
  exact placed.not_ret_of_succ bbMem edge (List.mem_of_getLast? atEnd) isRet

theorem namesPreds : store'.NamesPreds target := by
  intro bb bbMem id inBlock vars isPhi
  cases placed.phiAt bbMem inBlock isPhi with
  | caller inCaller inBlock notCall isPhi =>
      have member := Consistent.mem_listed inCaller inBlock
      rcases placed.grounded.stored id member with ⟨inst, found⟩
      rcases expansion.callerStays id member notCall inst found with ⟨inst', found', -, -, inputs⟩
      constructor
      case length =>
        rw [inputs_eq found', inputs, List.length_map, ← inputs_eq found]
        exact (placed.callerNames bb inCaller id inBlock vars isPhi).length
      case entries =>
        intro entry isEntry
        rcases placed.caller_entry inCaller inBlock isPhi isEntry with ⟨entryMem, notBB, edge⟩
        rw [placed.others entry.bb entryMem notBB]
        exact ⟨(placed.mem_bbs _).mpr (.inl entryMem), edge⟩
  | callee inCallee notFirst inBlock isPhi =>
      have member := Consistent.mem_listed inCallee inBlock
      have notParam : id ∉ paramsOf store expansion.first := not_mem_paramsOf isPhi (by simp)
      have notRet : store.kindOf id ≠ some .kRet := by simp [isPhi]
      rcases placed.body.stored id member with ⟨inst, found⟩
      rcases expansion.calleeStays id member notParam notRet inst found with
        ⟨inst', found', -, -, inputs⟩
      constructor
      case length =>
        rw [inputs_eq found', ← inputs.length_eq, ← inputs_eq found]
        exact (placed.calleeNames bb inCallee id inBlock vars isPhi).length
      case entries =>
        intro entry isEntry
        rcases placed.callee_entry inCallee inBlock isPhi isEntry with
          ⟨entryMem, entryNotFirst, edge⟩
        have leads := placed.inside entry.bb entryMem
        rw [if_pos (placed.retOf_eq_none entryMem edge),
          expansion.into_ne_first _ entryNotFirst] at leads
        rw [leads]
        exact ⟨(placed.mem_bbs _).mpr (.inr (.inl ⟨entryMem, entryNotFirst⟩)), edge⟩
  | merged isAfter inputs origins =>
      constructor
      case length => rw [inputs, List.length_map]
      case entries =>
        intro entry isEntry
        rcases origins entry isEntry with ⟨entryMem, notFirst, ret, inEntry, isRet, -⟩
        have returns := retOf_of_mem placed.body entryMem inEntry isRet
        have leads := placed.inside entry.bb entryMem
        rw [if_neg (by simp [returns]), expansion.into_ne_first _ notFirst] at leads
        rw [leads, isAfter]
        exact ⟨(placed.mem_bbs _).mpr (.inr (.inl ⟨entryMem, notFirst⟩)), List.mem_cons_self⟩

theorem phiUses {inst' : Inst} (bbMem : bb ∈ target.bbs) (inBlock : id ∈ store'.instructions bb)
    (found' : store'.insts id = some inst') (isPhi' : inst'.kind = .kPhi vars)
    {entry : PhiEntry} (matched : (value, entry) ∈ inst'.inputs.zip vars) :
    expansion.AtEnd entry.bb value := by
  have isEntry := (List.of_mem_zip matched).2
  have isVars : store'.kindOf id = some (.kPhi vars) := by rw [kindOf_eq found', isPhi']
  cases placed.phiAt bbMem inBlock isVars with
  | caller inCaller inBlock notCall isPhi =>
      have member := Consistent.mem_listed inCaller inBlock
      rcases placed.grounded.stored id member with ⟨inst, found⟩
      rcases expansion.callerStays id member notCall inst found with
        ⟨again, foundAgain, -, kind, inputs⟩
      cases Option.some.inj (found'.symm.trans foundAgain)
      rcases placed.caller_entry inCaller inBlock isPhi isEntry with ⟨entryMem, notBB, -⟩
      rw [inputs, List.zip_map_left] at matched
      rcases List.mem_map.mp matched with ⟨⟨operand, own⟩, isOperand, equal⟩
      cases equal
      apply placed.caller_atEnd entryMem notBB
      rw [← definedAtEnd_iff_reaches entryMem]
      exact placed.grounded.usesDefined.phiUses bb inCaller id inBlock inst vars found
        (kind ▸ isPhi') operand own isOperand (Set.mem_univ _)
  | callee inCallee _ inBlock isPhi =>
      have member := Consistent.mem_listed inCallee inBlock
      have notParam : id ∉ paramsOf store expansion.first := not_mem_paramsOf isPhi (by simp)
      have notRet : store.kindOf id ≠ some .kRet := by simp [isPhi]
      rcases placed.body.stored id member with ⟨inst, found⟩
      rcases expansion.calleeStays id member notParam notRet inst found with
        ⟨again, foundAgain, -, kind, inputs⟩
      cases Option.some.inj (found'.symm.trans foundAgain)
      rcases placed.callee_entry inCallee inBlock isPhi isEntry with ⟨entryMem, notFirst, edge⟩
      rcases exists_of_mem_zip inputs matched with ⟨operand, isOperand, boundTo⟩
      rw [← expansion.into_ne_first entry.bb notFirst]
      apply placed.bound_atEnd entryMem _ boundTo
      have defined := placed.body.usesDefined.phiUses bb inCallee id inBlock inst vars found
        (kind ▸ isPhi') operand entry isOperand (Set.mem_univ _)
      rw [definedAtEnd_iff_reaches entryMem] at defined
      exact defined.imp_left fun inEntry =>
        ⟨inEntry, placed.not_ret_of_succ entryMem edge inEntry⟩
  | merged _ inputs origins =>
      rw [← inputs_eq found', inputs, zip_vars] at matched
      rcases List.mem_map.mp matched with ⟨own, _, equal⟩
      cases equal
      rcases origins entry isEntry with ⟨entryMem, notFirst, ret, inEntry, isRet, returned⟩
      rw [← expansion.into_ne_first entry.bb notFirst]
      exact placed.returned_atEnd entryMem inEntry isRet returned

theorem supplied : store'.Supplied target fun bb => { id | expansion.AvailableAt bb id } where
  toAvailable := placed.availability
  uses _ bbMem _ _ _ split _ found notPhi _ isInput :=
    placed.uses bbMem split found notPhi isInput
  phiUses _ bbMem _ inBlock _ _ found isPhi _ _ matched :=
    placed.phiUses bbMem inBlock found isPhi matched

/-! ## The blocks are entered -/

theorem reaches_into (reachable : (store.cfg source).Reachable bb) :
    Relation.ReflTransGen (store'.cfg target).Edge expansion.bb (expansion.into bb) := by
  induction reachable with
  | refl =>
      have isFirst : (store.cfg source).entryPoint = expansion.first := expansion.isFirst
      rw [isFirst, into, if_pos rfl]
  | @tail pred bb before edge induction =>
      change bb ∈ store.succs pred at edge
      have predMem := placed.body.closed.mem_of_reachable before
      have leads := placed.inside pred predMem
      rw [if_pos (placed.retOf_eq_none predMem edge)] at leads
      rw [expansion.into_ne_first bb (placed.callee_succ predMem edge).2]
      have edge' : bb ∈ store'.succs (expansion.into pred) := leads ▸ edge
      exact induction.tail edge'

theorem reaches_after :
    Relation.ReflTransGen (store'.cfg target).Edge expansion.bb expansion.after := by
  rcases placed.returns with ⟨bb, bbMem, returns⟩
  have leads := placed.inside bb bbMem
  rw [if_neg returns] at leads
  have edge : expansion.after ∈ store'.succs (expansion.into bb) := leads ▸ List.mem_cons_self
  exact (placed.reaches_into (placed.body.reachable bb bbMem)).tail edge

theorem reachable_caller (reachable : (store.cfg caller).Reachable bb) :
    (store'.cfg target).Reachable bb := by
  induction reachable with
  | refl =>
      rw [show (store.cfg caller).entryPoint = (store'.cfg target).entryPoint
        from placed.sameRoot.symm]
      exact .refl
  | @tail pred bb before edge induction =>
      change bb ∈ store.succs pred at edge
      have predMem := placed.grounded.closed.mem_of_reachable before
      by_cases isBB : pred = expansion.bb
      · subst isBB
        have last : bb ∈ store'.succs expansion.after := placed.afterwards ▸ edge
        exact (induction.trans placed.reaches_after).tail last
      · have edge' : bb ∈ store'.succs pred := placed.others pred predMem isBB ▸ edge
        exact induction.tail edge'

theorem reachable_target (bbMem : bb ∈ target.bbs) : (store'.cfg target).Reachable bb := by
  have toBB := placed.reachable_caller (placed.grounded.reachable _ expansion.bbMem)
  rcases placed.kinds_of_mem bbMem with ⟨inCaller, -⟩ | ⟨own, ownMem, rfl⟩ | rfl
  · exact placed.reachable_caller (placed.grounded.reachable bb inCaller)
  · exact toBB.trans (placed.reaches_into (placed.body.reachable own ownMem))
  · exact toBB.trans placed.reaches_after

/-! ## The blocks end -/

/-- An instruction of the caller before the last one of its block does not end it. -/
theorem caller_goes_on {kind : InstKind} (bbMem : bb ∈ caller.bbs)
    (split : store.instructions bb = front ++ id :: back) (nonempty : back ≠ [])
    (notCall : id ≠ call) (isKind : store'.kindOf id = some kind) :
    kind.isTerminator = false := by
  rw [placed.caller_kind (Consistent.mem_listed bbMem (by simp [split])) notCall] at isKind
  rcases kindOf_ne_none.mp (isKind ▸ Option.some_ne_none _) with ⟨inst, found⟩
  rw [kindOf_eq found, Option.some.injEq] at isKind
  rw [← isKind, ← Bool.not_eq_true]
  exact fun terminates =>
    nonempty (placed.grounded.last_of_terminator bbMem split found terminates).1

theorem ends_caller (bbMem : bb ∈ caller.bbs) (notBB : bb ≠ expansion.bb) :
    EndsOnce store' bb := by
  rcases placed.grounded.ends bb bbMem with ⟨front, last, inst, ends, found, terminates, succs, -⟩
  have apart : ∀ other ∈ store.instructions bb, other ≠ call := by
    rintro other inBlock rfl
    exact placed.call_not_mem bbMem notBB inBlock
  have inBlock : last ∈ store.instructions bb := by simp [ends]
  refine ⟨front, last, inst.kind, ?_, ?_, terminates, ?_, ?_⟩
  · rw [expansion.others bb bbMem notBB, ends]
  · rw [placed.caller_kind (Consistent.mem_listed bbMem inBlock) (apart last inBlock),
      kindOf_eq found]
  · rw [placed.others bb bbMem notBB, succs]
  · intro id inFront kind isKind
    rcases List.append_of_mem inFront with ⟨before, between, rfl⟩
    rw [List.append_assoc, List.cons_append] at ends
    apply placed.caller_goes_on bbMem ends (by simp) _ isKind
    exact apart id (by simp [ends])

/-- What the caller has before the call in its block does not end the first block of the callee. -/
theorem lead_goes_on {kind : InstKind} (inLead : id ∈ expansion.lead other)
    (isKind : store'.kindOf id = some kind) : kind.isTerminator = false := by
  rcases placed.mem_lead inLead with ⟨-, inFront, notCall⟩
  rcases List.append_of_mem inFront with ⟨before, between, split⟩
  have here : store.instructions expansion.bb =
      before ++ id :: (between ++ call :: expansion.back) := by
    rw [expansion.here, split]
    simp
  exact placed.caller_goes_on expansion.bbMem here (by simp) notCall isKind

/-- What stays of the callee ends a block only where it did before. -/
theorem callee_goes_on {kind : InstKind} (member : id ∈ store.listed source)
    (notParam : id ∉ paramsOf store expansion.first) (notRet : store.kindOf id ≠ some .kRet)
    (goesOn : ∀ inst, store.insts id = some inst → inst.kind.isTerminator = false)
    (isKind : store'.kindOf id = some kind) : kind.isTerminator = false := by
  rw [placed.callee_kind member notParam notRet] at isKind
  rcases kindOf_ne_none.mp (isKind ▸ Option.some_ne_none _) with ⟨inst, found⟩
  rw [kindOf_eq found, Option.some.injEq] at isKind
  exact isKind ▸ goesOn inst found

theorem ends_callee (ownMem : other ∈ source.bbs) : EndsOnce store' (expansion.into other) := by
  rcases placed.body.ends other ownMem with
    ⟨front, last, inst, ends, found, terminates, succs, notTerminators⟩
  rcases expansion.body ownMem with ⟨ids, lists, trails⟩
  rcases exists_last placed.body ownMem with ⟨again, lastAgain, endsAgain, noRet⟩
  rcases List.append_inj' (ends.symm.trans endsAgain) rfl with ⟨rfl, isLast⟩
  cases isLast
  have inBlock : last ∈ store.instructions other := by simp [ends]
  have notParam : last ∉ paramsOf store expansion.first := by
    apply not_mem_paramsOf (kindOf_eq found)
    intro idx isParam
    rw [isParam] at terminates
    cases terminates
  rcases trails.concat ends noRet notParam with ⟨last', rfl, ended⟩
  have goesOn : ∀ id ∈ expansion.lead other ++ front.filter (· ∉ paramsOf store expansion.first),
      ∀ kind, store'.kindOf id = some kind → kind.isTerminator = false := by
    intro id member kind isKind
    rcases List.mem_append.mp member with inLead | inFront
    · exact placed.lead_goes_on inLead isKind
    · rw [List.mem_filter, decide_eq_true_eq] at inFront
      have member : id ∈ store.listed source :=
        Consistent.mem_listed ownMem (by simp [ends, inFront.1])
      exact placed.callee_goes_on member inFront.2 (noRet id inFront.1)
        (notTerminators id inFront.1) isKind
  have leads := placed.inside other ownMem
  rw [← List.append_assoc] at lists
  rcases ended with ⟨notRet, rfl⟩ | ⟨isRet, isJump⟩
  · have noReturn : retOf store other = none := by
      rw [Option.eq_none_iff_forall_ne_some]
      intro ret returns
      rw [retOf_eq_some, ends, List.getLast?_concat, Option.some.injEq] at returns
      exact notRet (returns.1 ▸ returns.2)
    rw [if_pos noReturn] at leads
    refine ⟨_, last', inst.kind, lists, ?_, terminates, leads.trans succs, goesOn⟩
    rw [placed.callee_kind (Consistent.mem_listed ownMem inBlock) notParam notRet, kindOf_eq found]
  · rw [retOf_of_mem placed.body ownMem inBlock isRet, if_neg (by simp)] at leads
    exact ⟨_, last', .kJump expansion.after, lists, isJump, rfl, leads, goesOn⟩

/-- The block of the call ends behind the call. -/
theorem back_ends : ∃ middle last inst, expansion.back = middle ++ [last] ∧ last ≠ call ∧
    store.insts last = some inst ∧ inst.kind.isTerminator = true ∧
    store.succs expansion.bb = inst.kind.targets := by
  rcases placed.grounded.ends _ expansion.bbMem with
    ⟨front, last, inst, ends, found, terminates, succs, -⟩
  have notCall : last ≠ call := by
    rintro rfl
    rcases placed.isCall with ⟨callee, isCall⟩
    rw [kindOf_eq found, Option.some.injEq] at isCall
    rw [isCall] at terminates
    cases terminates
  have here := ends.symm.trans expansion.here
  rcases List.eq_nil_or_concat expansion.back with none | ⟨middle, again, split⟩
  · rw [none] at here
    exact absurd (List.singleton_inj.mp (List.append_inj' here rfl).2) notCall
  · rw [split, List.concat_eq_append, ← List.cons_append, ← List.append_assoc] at here
    cases List.singleton_inj.mp (List.append_inj' here rfl).2
    exact ⟨middle, last, inst, by rw [split, List.concat_eq_append], notCall, found, terminates,
      succs⟩

/-- Nothing behind the call but its last instruction ends the block. -/
theorem back_goes_on {middle : List InstId} {last : InstId} {kind : InstKind}
    (isBack : expansion.back = middle ++ [last]) (inMiddle : id ∈ middle)
    (isKind : store'.kindOf id = some kind) : kind.isTerminator = false := by
  have notCall : id ≠ call := by
    rintro rfl
    exact placed.call_not_front.2 (by simp [isBack, inMiddle])
  rcases List.append_of_mem inMiddle with ⟨before, between, rfl⟩
  have here : store.instructions expansion.bb =
      (expansion.front ++ call :: before) ++ id :: (between ++ [last]) := by
    rw [expansion.here, isBack]
    simp
  exact placed.caller_goes_on expansion.bbMem here (by simp) notCall isKind

theorem ends_after : EndsOnce store' expansion.after := by
  rcases placed.back_ends with ⟨middle, last, inst, isBack, notCall, found, terminates, succs⟩
  have member : last ∈ store.listed caller := by
    apply Consistent.mem_listed expansion.bbMem
    simp [expansion.here, isBack]
  have isKind : store'.kindOf last = some inst.kind := by
    rw [placed.caller_kind member notCall, kindOf_eq found]
  have leads := placed.afterwards.trans succs
  cases expansion.returning with
  | single lists _ =>
      exact ⟨middle, last, inst.kind, lists.trans isBack, isKind, terminates, leads,
        fun _ inMiddle _ isKind => placed.back_goes_on isBack inMiddle isKind⟩
  | phi lists _ foundPhi kindPhi _ _ _ _ _ =>
      rw [isBack, ← List.cons_append] at lists
      refine ⟨_, last, inst.kind, lists, isKind, terminates, leads, ?_⟩
      intro id member kind isKind
      rcases List.mem_cons.mp member with rfl | inMiddle
      · rw [kindOf_eq foundPhi, kindPhi, Option.some.injEq] at isKind
        rw [← isKind]
        rfl
      · exact placed.back_goes_on isBack inMiddle isKind

theorem grounded_target : store'.Grounded target where
  stored := placed.stored
  inputs := placed.supplied.inputs placed.closed_target (fun _ => placed.reachable_target)
    placed.listed placed.namesPreds placed.stored
  nodup := placed.listed
  closed := placed.closed_target
  reachable _ := placed.reachable_target
  usesDefined := placed.supplied.usesDefined placed.closed_target
    (fun _ => placed.reachable_target) placed.listed placed.namesPreds
  ends bb bbMem := by
    apply EndsOnce.insts
    rcases placed.kinds_of_mem bbMem with ⟨inCaller, notBB⟩ | ⟨own, ownMem, rfl⟩ | rfl
    · exact placed.ends_caller inCaller notBB
    · exact placed.ends_callee ownMem
    · exact placed.ends_after

end Placed

end Expansion

/-! ## Inlining a call -/

theorem outgoing_of_edges {function : Function} (found : store.functions func = some function)
    (edges : EdgesAgree store function.bbs) (bbMem : bb ∈ function.bbs) :
    Outgoing store func bb := by
  have bbs : store.shape.bbs func = function.bbs := Shape.bbs_eq found
  constructor
  · rw [bbs]
    exact edges.succsMem bb bbMem
  · exact edges.follow bb bbMem
  · rw [bbs]
    intro succ succMem
    rw [Store.excess, edges.mirrored bb bbMem succ succMem]
    omega

/-- The caller has the expansion, with its blocks in place. -/
theorem Site.exists_placed (site : Site func call store store') (prepared : site.Prepared)
    (enteredOnce : EnteredOnce store site.source)
    (behind : ∀ bb ∈ site.caller.bbs, ∀ front back,
      store.instructions bb = front ++ call :: back → ∀ id ∈ back, ∀ vars,
        store.kindOf id ≠ some (.kPhi vars))
    (outgoing : Outgoing store func site.bb) (callerNames : store.NamesPreds site.caller)
    (calleeNames : store.NamesPreds site.source)
    (returns : ∃ bb ∈ site.source.bbs, retOf store bb ≠ none) :
    ∃ target, store'.functions func = some target ∧
      ∃ expansion : Expansion store store' site.caller site.source call,
        expansion.Placed target := by
  rcases prepared.expansion with ⟨expansion, isAfter⟩
  rcases site.exists_target with ⟨target, found, sameRoot⟩
  have faithful := site.faithful prepared enteredOnce behind expansion
  have routed := site.routed prepared outgoing expansion isAfter found sameRoot
  exact ⟨target, found, expansion,
    { toFaithful := faithful, toRouted := routed, callerNames, calleeNames, returns }⟩

/-- Function 0 subtracts the smaller of its parameters from the other one, function 1 doubles its
parameter, and function 2 returns the double of the distance of two constants. -/
def distances : List BuildStep :=
  [.newFunction 0 .I64 [.I64, .I64], .appendBB 0, .appendBB 0, .appendBB 0,
    .pushInstBack 0 (.param 0 .I64), .pushInstBack 0 (.param 1 .I64),
    .pushInstBack 0 (.binOp .kLE 0 1), .pushInstBack 0 (.ifInstr 2 1 2),
    .pushInstBack 1 (.binOp .kSub 1 0), .pushInstBack 1 (.retVal 4),
    .pushInstBack 2 (.binOp .kSub 0 1), .pushInstBack 2 (.retVal 6),
    .newFunction 1 .I64 [.I64], .appendBB 1, .pushInstBack 3 (.param 0 .I64),
    .pushInstBack 3 (.binOp .kAdd 8 8), .pushInstBack 3 (.retVal 9),
    .newFunction 2 .I64 [], .appendBB 2, .pushInstBack 4 (.constVal (.I64 2)),
    .pushInstBack 4 (.constVal (.I64 7)), .pushInstBack 4 (.call 0), .appendArg 13 11,
    .appendArg 13 12, .pushInstBack 4 (.call 1), .appendArg 14 13, .pushInstBack 4 (.retVal 14)]

/-- The functions of `distances` before one is inlined into another. -/
def measures : Function :=
  { bbs := [0, 1, 2], resType := .I64, args := [.I64, .I64] }

def doublesDistance : Function :=
  { bbs := [4], resType := .I64 }

section Distances

variable (built : distances.foldlM BuildStep.apply Store.empty = .ok store)

include built

theorem noPhis_distances (bb : BlockId) : ¬ HasPhi store bb := by
  apply not_hasPhi (Built.tidy ⟨distances, built⟩)
  cases built
  decide

theorem fits_measures : Fits store 4 0 := by
  have facts : store.functions 0 = some measures ∧ store.checkWellFormed measures = true ∧
      retOf store 0 = none := by
    cases built
    exact ⟨rfl, rfl, rfl⟩
  rcases facts with ⟨found, wellFormed, noReturn⟩
  apply fits_of_noPhis (noPhis_distances built) found (checkWellFormed_sound wellFormed).closed
  exact fun returns => absurd noReturn returns

theorem enteredOnce_measures : EnteredOnce store measures := by
  apply enteredOnce_of_paramsOf
  · cases built
    decide
  · cases built
    decide

theorem seated_measures : Seated store 0 13 := by
  cases built
  exact seated_of_kinds (show _ = (List.range 2).map _ from rfl) (by decide)

end Distances

end LeechJit.Opt.Inlining
