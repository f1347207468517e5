import LeechJit.Opt.Rewriting

/-! # Which rule fires

`replacement` says which operand a rule would put in place of an operation. Where
no rule does that, a round exchanges the operands at most, or merges two shifts.
-/

namespace LeechJit.Opt.PeepHole

open IR Store

def isConstAt (store : Store) (id : InstId) : Bool :=
  (store.insts id).any isConst

/-- The instruction is the constant `val`. -/
def constIs (store : Store) (val : Int) (id : InstId) : Bool :=
  (store.insts id).any fun inst => isConst inst && answer (checkForVal val inst)

/-- The operands once a constant has gone to the right. -/
def sorted (store : Store) (lhs rhs : InstId) : InstId × InstId :=
  if isConstAt store lhs && !isConstAt store rhs then (rhs, lhs) else (lhs, rhs)

def replaced (store : Store) (oper : BinOp.Oper) (lhs rhs : InstId) : Option InstId :=
  match oper with
  | .kAdd =>
      if constIs store 0 (sorted store lhs rhs).2 then some (sorted store lhs rhs).1 else none
  | .kShr => if constIs store 0 rhs then some lhs else none
  | .kOr =>
      if constIs store 0 (sorted store lhs rhs).2 then some (sorted store lhs rhs).1
      else if constIs store (-1) (sorted store lhs rhs).2 then some (sorted store lhs rhs).2
      else none
  | .kSub | .kMul | .kLE | .kEQ | .kDiv | .kBoundsCheck => none

def replacement (store : Store) (id : InstId) : Option InstId :=
  match store.insts id with
  | some { kind := .kBinOp oper, users := _ :: _, inputs := [lhs, rhs], .. } =>
      replaced store oper lhs rhs
  | _ => none

def isShrAt (store : Store) (id : InstId) : Bool :=
  (store.insts id).any fun inst => decide (inst.kind = .kBinOp .kShr)

/-- Whether a shift of `lhs` by `rhs` is merged with the shift `lhs`. -/
def shiftsMerge (store : Store) (lhs rhs : InstId) : Bool :=
  isConstAt store rhs && !constIs store 0 rhs && isShrAt store lhs && mergeable store lhs

/-- The first of two shifts that a round merges, and the amount of the second. -/
def merges (store : Store) (id : InstId) : Option (InstId × InstId) := do
  let inst ← store.insts id
  let lhs ← inst.inputs[0]?
  let rhs ← inst.inputs[1]?
  if inst.kind = .kBinOp .kShr ∧ inst.users ≠ [] ∧ shiftsMerge store lhs rhs = true then
    some (lhs, rhs)
  else none

/-- The operands of one operation may have changed sides. -/
structure Swapped (store : Store) (id : InstId) (store' : Store) : Prop where
  relinked : Relinked store store'
  users : ∀ key, store'.users key = store.users key
  others : ∀ key, key ≠ id → store'.inputs key = store.inputs key
  inputs : (store'.inputs id).Perm (store.inputs id)

variable {store store' : Store} {scope : Set InstId} {id value : InstId} {lhs rhs : InstId}

namespace Swapped

theorem refl (store : Store) (id : InstId) : Swapped store id store :=
  ⟨.refl store, fun _ => rfl, fun _ _ => rfl, .refl _⟩

theorem mem_inputs (swapped : Swapped store id store') (key input : InstId) :
    input ∈ store'.inputs key ↔ input ∈ store.inputs key := by
  by_cases isId : key = id
  · rw [isId, swapped.inputs.mem_iff]
  · rw [swapped.others key isId]

theorem isBinOp_iff (swapped : Swapped store id store') (key : InstId) :
    store'.IsBinOp key ↔ store.IsBinOp key := by
  constructor
  · rintro ⟨inst', oper, found', kind⟩
    cases found : store.insts key with
    | none =>
        rw [swapped.relinked.insts_none.mpr found] at found'
        cases found'
    | some inst =>
        cases Option.some.inj ((swapped.relinked.insts found).symm.trans found')
        exact ⟨inst, oper, found, kind⟩
  · rintro ⟨inst, oper, found, kind⟩
    exact ⟨_, oper, swapped.relinked.insts found, kind⟩

theorem linked (swapped : Swapped store id store') (linked : store.Linked scope) :
    store'.Linked scope where
  stored key member := by
    rcases linked.stored key member with ⟨inst, found⟩
    exact ⟨_, swapped.relinked.insts found⟩
  allocated key member := by
    rw [swapped.relinked.nextInst]
    exact linked.allocated key member
  formed key member inst' found' := by
    rcases linked.stored key member with ⟨inst, found⟩
    cases Option.some.inj ((swapped.relinked.insts found).symm.trans found')
    have length : (store'.inputs key).length = inst.inputs.length := by
      rw [← inputs_eq found]
      by_cases isId : key = id
      · rw [isId]
        exact swapped.inputs.length_eq
      · rw [swapped.others key isId]
    exact (linked.formed key member inst found).congr rfl length
  inputs key member input isInput :=
    linked.inputs key member input ((swapped.mem_inputs key input).mp isInput)
  users value member user := by
    rw [swapped.users, swapped.mem_inputs, linked.users value member]
  acyclic := by
    rcases linked.acyclic with ⟨rank, ordered⟩
    refine ⟨rank, ?_⟩
    intro user member userBinOp input isInput inputBinOp
    exact ordered user member ((swapped.isBinOp_iff user).mp userBinOp) input
      ((swapped.mem_inputs user input).mp isInput) ((swapped.isBinOp_iff input).mp inputBinOp)

theorem isConstAt (swapped : Swapped store id store') (key : InstId) :
    isConstAt store' key = isConstAt store key := by
  cases found : store.insts key with
  | none =>
      rw [PeepHole.isConstAt, PeepHole.isConstAt, found,
        swapped.relinked.insts_none.mpr found]
  | some inst =>
      rw [PeepHole.isConstAt, PeepHole.isConstAt, found, swapped.relinked.insts found]
      rfl

theorem constIs (swapped : Swapped store id store') (val : Int) (key : InstId) :
    constIs store' val key = constIs store val key := by
  cases found : store.insts key with
  | none => rw [PeepHole.constIs, PeepHole.constIs, found, swapped.relinked.insts_none.mpr found]
  | some inst =>
      rw [PeepHole.constIs, PeepHole.constIs, found, swapped.relinked.insts found]
      rfl

theorem leave_eq (swapped : Swapped store id store') {old : InstId} {new : Option InstKind} :
    store'.leave scope old new = store.leave scope old new := by
  rw [leave, leave, swapped.relinked.nextInst]

/-- Removing the operation afterwards is removing it from the original. -/
theorem rewritten {middle : Store} (swapped : Swapped store id middle)
    (rewritten : middle.Rewritten scope id none
      (fun key => (middle.inputs key).map (redirect id value)) store') :
    store.Rewritten scope id none (fun key => (store.inputs key).map (redirect id value))
      store' where
  oldMem := rewritten.oldMem
  linked := swapped.leave_eq ▸ rewritten.linked
  operands key member := by
    have notId : key ≠ id := by
      rcases member with ⟨-, notId⟩ | ⟨isSome, -⟩
      · exact notId
      · cases isSome
    rw [← swapped.others key notId]
    exact rewritten.operands key (swapped.leave_eq ▸ member)
  kept key member notId inst found := by
    rcases rewritten.kept key member notId _ (swapped.relinked.insts found) with
      ⟨inst', found', bare⟩
    exact ⟨inst', found', bare⟩
  added kind isNew := by cases isNew
  gone key removed _ := by
    apply rewritten.gone key _ (by simp)
    rw [swapped.relinked.insts_none]
    exact removed
  nextInst := by
    rw [← swapped.relinked.nextInst]
    exact rewritten.nextInst
  placed := by
    rcases rewritten.placed with ⟨inst', bb, block, found', home, foundBlock, inBlock, blocks⟩
    rw [swapped.relinked.blocks] at foundBlock blocks
    cases found : store.insts id with
    | none =>
        rw [swapped.relinked.insts_none.mpr found] at found'
        cases found'
    | some inst =>
        cases Option.some.inj ((swapped.relinked.insts found).symm.trans found')
        exact ⟨inst, bb, block, rfl, home, foundBlock, inBlock, blocks⟩

end Swapped

/-! ## The rules -/

theorem constIs_eq {inst : Inst} {val : Int} {holds : Bool} (found : store.insts id = some inst)
    (isConst : isConst inst = true) (checked : checkForVal val inst = .ok holds) :
    constIs store val id = holds := by
  simp [constIs, found, isConst, checked, answer]

theorem constIs_of_not_const {inst : Inst} {val : Int} (found : store.insts id = some inst)
    (notConst : ¬ isConst inst = true) : constIs store val id = false := by
  simp [constIs, found, notConst]

section Rules

variable {inst : Inst} (found : store.insts id = some inst) (isLhs : inst.inputs[0]? = some lhs)
  (isRhs : inst.inputs[1]? = some rhs)

include found isLhs isRhs

theorem doAdd_cases (result : doAdd store id = .ok store') :
    (constIs store 0 rhs = true ∧ takeOver store lhs id = .ok store') ∨
      (constIs store 0 rhs = false ∧ store' = store) := by
  simp only [doAdd, Store.inst, found, Result.ok_bind, Inst.inputAt, isLhs, isRhs] at result
  rcases Result.bind_eq_ok.mp result with ⟨const, constAt, result⟩
  have constFound : store.insts rhs = some const := inst_eq_ok.mp constAt
  split_ifs at result with isConst
  · rcases Result.bind_eq_ok.mp result with ⟨isZero, checked, result⟩
    rw [constIs_eq constFound isConst checked]
    cases isZero with
    | true => exact .inl ⟨rfl, result⟩
    | false =>
        cases result
        exact .inr ⟨rfl, rfl⟩
  · cases result
    exact .inr ⟨constIs_of_not_const constFound isConst, rfl⟩

theorem doOr_cases (result : doOr store id = .ok store') :
    (constIs store 0 rhs = true ∧ takeOver store lhs id = .ok store') ∨
      (constIs store 0 rhs = false ∧ constIs store (-1) rhs = true ∧
        takeOver store rhs id = .ok store') ∨
      (constIs store 0 rhs = false ∧ constIs store (-1) rhs = false ∧ store' = store) := by
  simp only [doOr, Store.inst, found, Result.ok_bind, Inst.inputAt, isLhs, isRhs] at result
  rcases Result.bind_eq_ok.mp result with ⟨const, constAt, result⟩
  have constFound : store.insts rhs = some const := inst_eq_ok.mp constAt
  split_ifs at result with isConst
  · rcases Result.bind_eq_ok.mp result with ⟨isZero, checked, result⟩
    rw [constIs_eq constFound isConst checked]
    cases isZero with
    | true => exact .inl ⟨rfl, result⟩
    | false =>
        rcases Result.bind_eq_ok.mp result with ⟨isOnes, checkedOnes, result⟩
        rw [constIs_eq constFound isConst checkedOnes]
        cases isOnes with
        | true => exact .inr (.inl ⟨rfl, rfl, result⟩)
        | false =>
            cases result
            exact .inr (.inr ⟨rfl, rfl, rfl⟩)
  · cases result
    rw [constIs_of_not_const constFound isConst, constIs_of_not_const constFound isConst]
    exact .inr (.inr ⟨rfl, rfl, rfl⟩)

theorem doShr_cases (result : doShr store id = .ok store') :
    (constIs store 0 rhs = true ∧ takeOver store lhs id = .ok store') ∨
      (constIs store 0 rhs = false ∧ ((shiftsMerge store lhs rhs = false ∧ store' = store) ∨
        (shiftsMerge store lhs rhs = true ∧
          ∃ left fstShamt, Nonempty (Merge store id lhs rhs left fstShamt store')))) := by
  simp only [doShr, Store.inst, found, Result.ok_bind, Inst.inputAt, isLhs, isRhs] at result
  rcases Result.bind_eq_ok.mp result with ⟨const, constAt, result⟩
  have constFound : store.insts rhs = some const := inst_eq_ok.mp constAt
  split_ifs at result with isConst
  · rcases Result.bind_eq_ok.mp result with ⟨isZero, checked, result⟩
    have zero := constIs_eq constFound isConst checked
    rw [zero]
    cases isZero with
    | true => exact .inl ⟨rfl, result⟩
    | false =>
        rcases Result.bind_eq_ok.mp result with ⟨fst, fstAt, result⟩
        have fstFound : store.insts lhs = some fst := inst_eq_ok.mp fstAt
        have const' : isConstAt store rhs = true := by simp [isConstAt, constFound, isConst]
        right
        refine ⟨rfl, ?_⟩
        by_cases isShr : fst.kind = .kBinOp .kShr
        · have isShrAt : isShrAt store lhs = true := by simp [PeepHole.isShrAt, fstFound, isShr]
          simp only [isShr, if_true] at result
          rw [shiftsMerge, const', zero, isShrAt]
          exact mergeShr_eq_ok result
        · have notShr : PeepHole.isShrAt store lhs = false := by
            simp [PeepHole.isShrAt, fstFound, isShr]
          simp only [isShr, if_false] at result
          cases result
          exact .inl ⟨by simp [shiftsMerge, notShr], rfl⟩
  · cases result
    have notConst : isConstAt store rhs = false := by simpa [isConstAt, constFound] using isConst
    exact .inr ⟨constIs_of_not_const constFound isConst,
      .inl ⟨by simp [shiftsMerge, notConst], rfl⟩⟩

end Rules

theorem moveConst_cases {inst : Inst} (found : store.insts id = some inst)
    (inputs : inst.inputs = [lhs, rhs]) (result : moveConst store id = .ok store') :
    Swapped store id store' ∧
      store'.inputs id = [(sorted store lhs rhs).1, (sorted store lhs rhs).2] := by
  have ownInputs := inputs_eq found
  rw [inputs] at ownInputs
  simp only [moveConst, Store.inst, found, Result.ok_bind, Inst.inputAt, inputs,
    List.getElem?_cons_zero, List.getElem?_cons_succ] at result
  rcases Result.bind_eq_ok.mp result with ⟨left, leftAt, result⟩
  rcases Result.bind_eq_ok.mp result with ⟨right, rightAt, result⟩
  have leftFound : store.insts lhs = some left := inst_eq_ok.mp leftAt
  have rightFound : store.insts rhs = some right := inst_eq_ok.mp rightAt
  by_cases both : isConst left = true ∧ ¬ isConst right = true
  · rw [if_pos both] at result
    rcases swapInputs_eq_ok result with ⟨first, second, isFirst, isSecond, relinked, after, users⟩
    rw [ownInputs] at isFirst isSecond after
    cases isFirst
    cases isSecond
    have swapped : store'.inputs id = [rhs, lhs] := by
      rw [after, if_pos rfl]
      rfl
    constructor
    · refine ⟨relinked, users, ?_, ?_⟩
      · intro key notId
        rw [after, if_neg notId]
      · rw [swapped, ownInputs]
        exact .swap lhs rhs []
    · rw [swapped, sorted]
      simp [isConstAt, leftFound, rightFound, both.1, both.2]
  · rw [if_neg both] at result
    cases result
    refine ⟨.refl _ id, ?_⟩
    rw [ownInputs, sorted]
    have notBoth : (isConstAt store lhs && !isConstAt store rhs) = false := by
      simpa [isConstAt, leftFound, rightFound] using both
    simp [notBoth]

/-! ## One round -/

theorem isBinOp_of_isShrAt (isShr : isShrAt store id = true) : store.IsBinOp id := by
  cases found : store.insts id with
  | none => simp [isShrAt, found] at isShr
  | some inst => exact ⟨inst, .kShr, found, by simpa [isShrAt, found] using isShr⟩

theorem not_isBinOp_of_isConstAt (const : isConstAt store id = true) : ¬ store.IsBinOp id := by
  rintro ⟨inst, oper, found, kind⟩
  simp [isConstAt, found, isConst, kind] at const

theorem merges_eq {inst : Inst} (found : store.insts id = some inst)
    (isLhs : inst.inputs[0]? = some lhs) (isRhs : inst.inputs[1]? = some rhs) :
    merges store id =
      if inst.kind = .kBinOp .kShr ∧ inst.users ≠ [] ∧ shiftsMerge store lhs rhs = true then
        some (lhs, rhs)
      else none := by
  simp [merges, found, isLhs, isRhs]

theorem merges_eq_some {fstShr rval : InstId} (merges : merges store id = some (fstShr, rval)) :
    ∃ inst, store.insts id = some inst ∧ inst.kind = .kBinOp .kShr ∧ inst.users ≠ [] ∧
      inst.inputs[0]? = some fstShr ∧ inst.inputs[1]? = some rval ∧
        shiftsMerge store fstShr rval = true := by
  simp only [PeepHole.merges, Option.bind_eq_bind, Option.bind_eq_some_iff] at merges
  rcases merges with ⟨inst, found, lhs, isLhs, rhs, isRhs, decided⟩
  split_ifs at decided with merge
  cases decided
  exact ⟨inst, found, merge.1, merge.2.1, isLhs, isRhs, merge.2.2⟩

theorem inputs_of_merges {fstShr rval : InstId} (linked : store.Linked scope) (member : id ∈ scope)
    (merges : merges store id = some (fstShr, rval)) : store.inputs id = [fstShr, rval] := by
  rcases merges_eq_some merges with ⟨inst, found, kind, -, isLhs, isRhs, -⟩
  rcases linked.two_inputs member found kind with ⟨lhs, rhs, inputs⟩
  rw [inputs] at isLhs isRhs
  cases isLhs
  cases isRhs
  rw [inputs_eq found, inputs]

theorem isConstAt_of_merges {fstShr rval : InstId}
    (merges : merges store id = some (fstShr, rval)) : isConstAt store rval = true := by
  rcases merges_eq_some merges with ⟨-, -, -, -, -, -, merge⟩
  simp only [shiftsMerge, Bool.and_eq_true] at merge
  exact merge.1.1.1

theorem replacement_of_merges {shifts : InstId × InstId} (linked : store.Linked scope)
    (member : id ∈ scope) (merges : merges store id = some shifts) :
    replacement store id = none := by
  have inputs := inputs_of_merges linked member merges
  rcases merges_eq_some merges with ⟨⟨type, kind, users, bb, operands⟩, found, isShr, used, -, -, merge⟩
  rw [inputs_eq found] at inputs
  simp only [shiftsMerge, Bool.and_eq_true, Bool.not_eq_true'] at merge
  cases isShr
  cases inputs
  cases users with
  | nil => exact absurd rfl used
  | cons user rest => simp [replacement, found, replaced, merge.1.1.2]

/-- A merge in a round has what it needs. -/
theorem fits_of_merges {fstShr rval : InstId} (linked : store.Linked scope) (member : id ∈ scope)
    (merges : merges store id = some (fstShr, rval)) :
    Merge.Fits store scope id fstShr rval := by
  rcases merges_eq_some merges with ⟨inst, found, kind, -, -, -, merge⟩
  simp only [shiftsMerge, Bool.and_eq_true] at merge
  exact
    { member := member
      binOp := ⟨inst, .kShr, found, kind⟩
      inputs := inputs_of_merges linked member merges
      fstBinOp := isBinOp_of_isShrAt merge.1.2
      rvalConst := not_isBinOp_of_isConstAt merge.1.1.1 }

/-- Exchanging the operands first makes no difference to the removal. -/
theorem Swapped.takeOver {middle : Store} (swapped : Swapped store id middle)
    (linked : store.Linked scope) (member : id ∈ scope) (binOp : store.IsBinOp id)
    (isInput : value ∈ middle.inputs id) (result : takeOver middle value id = .ok store') :
    value ∈ store.inputs id ∧
      store.Rewritten scope id none (fun key => (store.inputs key).map (redirect id value))
        store' :=
  ⟨(swapped.mem_inputs id value).mp isInput,
    swapped.rewritten (takeOver_rewritten (swapped.linked linked) member
      ((swapped.isBinOp_iff id).mpr binOp) isInput result)⟩

/-- The operands of the operation may change sides. -/
def Commutes (store : Store) (id : InstId) : Prop :=
  ∃ inst oper, store.insts id = some inst ∧ inst.kind = .kBinOp oper ∧
    (oper = .kAdd ∨ oper = .kOr)

/-- What a round that returns has done. -/
theorem fold_cases (linked : store.Linked scope) (member : id ∈ scope)
    (result : fold store id = .ok store') :
    (∃ value, replacement store id = some value ∧ value ∈ store.inputs id ∧
      store.Rewritten scope id none (fun key => (store.inputs key).map (redirect id value))
        store') ∨
    (replacement store id = none ∧ ((merges store id = none ∧ Swapped store id store' ∧
        (store' = store ∨ Commutes store id)) ∨
      ∃ fstShr rval left fstShamt, merges store id = some (fstShr, rval) ∧
        Nonempty (Merge store id fstShr rval left fstShamt store'))) := by
  rcases linked.stored id member with ⟨inst, found⟩
  have formed := linked.formed id member inst found
  rcases inst with ⟨type, kind, users, bb, inputs⟩
  cases kind with
  | kBinOp oper =>
      rcases List.length_eq_two.mp (show inputs.length = 2 from formed) with ⟨lhs, rhs, rfl⟩
      have binOp : store.IsBinOp id := ⟨_, oper, found, rfl⟩
      simp only [fold, doBinFold, Store.inst, found, Result.ok_bind] at result
      cases users with
      | nil =>
          cases result
          exact .inr ⟨by simp [replacement, found],
            .inl ⟨by simp [merges_eq found rfl rfl], .refl _ id, .inl rfl⟩⟩
      | cons user rest =>
          have isReplacement : replacement store id = replaced store oper lhs rhs := by
            simp [replacement, found]
          rw [isReplacement]
          simp only [reduceCtorEq, if_false] at result
          have ownInputs : store.inputs id = [lhs, rhs] := inputs_eq found
          cases oper with
          | kAdd =>
              rcases Result.bind_eq_ok.mp result with ⟨middle, moving, result⟩
              rcases moveConst_cases found rfl moving with ⟨swapped, after⟩
              have foundMiddle := swapped.relinked.insts found
              rw [after] at foundMiddle
              rcases doAdd_cases foundMiddle rfl rfl result with ⟨isZero, taking⟩ | ⟨notZero, rfl⟩
              · rw [swapped.constIs] at isZero
                left
                refine ⟨(sorted store lhs rhs).1, by simp [replaced, isZero], ?_⟩
                exact swapped.takeOver linked member binOp (by simp [after]) taking
              · rw [swapped.constIs] at notZero
                exact .inr ⟨by simp [replaced, notZero], .inl ⟨by simp [merges_eq found rfl rfl],
                  swapped, .inr ⟨_, _, found, rfl, .inl rfl⟩⟩⟩
          | kOr =>
              rcases Result.bind_eq_ok.mp result with ⟨middle, moving, result⟩
              rcases moveConst_cases found rfl moving with ⟨swapped, after⟩
              have foundMiddle := swapped.relinked.insts found
              rw [after] at foundMiddle
              rcases doOr_cases foundMiddle rfl rfl result with
                ⟨isZero, taking⟩ | ⟨notZero, isOnes, taking⟩ | ⟨notZero, notOnes, rfl⟩
              · rw [swapped.constIs] at isZero
                left
                refine ⟨(sorted store lhs rhs).1, by simp [replaced, isZero], ?_⟩
                exact swapped.takeOver linked member binOp (by simp [after]) taking
              · rw [swapped.constIs] at notZero isOnes
                left
                refine ⟨(sorted store lhs rhs).2, by simp [replaced, notZero, isOnes], ?_⟩
                exact swapped.takeOver linked member binOp (by simp [after]) taking
              · rw [swapped.constIs] at notZero notOnes
                exact .inr ⟨by simp [replaced, notZero, notOnes],
                  .inl ⟨by simp [merges_eq found rfl rfl], swapped,
                    .inr ⟨_, _, found, rfl, .inr rfl⟩⟩⟩
          | kShr =>
              rcases doShr_cases found rfl rfl result with
                ⟨isZero, taking⟩ | ⟨notZero, ⟨apart, rfl⟩ | ⟨merge, left, fstShamt, merged⟩⟩
              · left
                refine ⟨lhs, by simp [replaced, isZero], by simp [ownInputs], ?_⟩
                exact takeOver_rewritten linked member binOp (by simp [ownInputs]) taking
              · exact .inr ⟨by simp [replaced, notZero],
                  .inl ⟨by simp [merges_eq found rfl rfl, apart], .refl _ id, .inl rfl⟩⟩
              · right
                refine ⟨by simp [replaced, notZero], .inr ⟨lhs, rhs, left, fstShamt, ?_, merged⟩⟩
                simp [merges_eq found rfl rfl, merge]
          | kSub | kMul | kLE | kEQ | kDiv | kBoundsCheck =>
              cases result
              exact .inr ⟨rfl, .inl ⟨by simp [merges_eq found rfl rfl], .refl _ id, .inl rfl⟩⟩
  | _ => simp [fold, Store.inst, found] at result

end LeechJit.Opt.PeepHole
