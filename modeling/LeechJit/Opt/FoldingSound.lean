import LeechJit.Graph.DfsOrder
import LeechJit.IR.StoreLemmas
import LeechJit.Opt.ConstantFolding

/-! # Constant folding replaces operations by their values

`operatorValue` is what each operator ought to compute. A fold leaves a constant
in place of the instruction, in its block and in the operands of its users;
`Folding` says how far the store is from the original after some folds.
-/

namespace LeechJit.Opt.ConstantFolding

open IR

/-! ## What the operators compute -/

/-- The value of an operator at a two's complement type. -/
def intValue {width : Nat} (oper : BinOp.Oper) (left right : BitVec width) :
    Option (BitVec width) :=
  match oper with
  | .kAdd => some (left + right)
  | .kSub => some (left - right)
  | .kMul => some (left * right)
  | .kLE => some (if left.sle right then 1 else 0)
  | .kEQ => some (if left = right then 1 else 0)
  | .kShr => some (left.sshiftRight right.toNat)
  | .kOr => some (left ||| right)
  | .kDiv | .kBoundsCheck => none

/-- The value of an operator on C++ truth values. -/
def boolValue (oper : BinOp.Oper) (left right : Bool) : Option Bool :=
  match oper with
  | .kAdd | .kOr => some (left || right)
  | .kSub => some (left != right)
  | .kMul => some (left && right)
  | .kLE => some (!left || right)
  | .kEQ => some (left == right)
  | .kShr => some (left && !right)
  | .kDiv | .kBoundsCheck => none

/-- The value an operator ought to have, on operands of one type. -/
def operatorValue (oper : BinOp.Oper) : ConstVal → ConstVal → Option ConstVal
  | .I1 left, .I1 right => (boolValue oper left right).map ConstVal.I1
  | .I8 left, .I8 right => (intValue oper left right).map ConstVal.I8
  | .I16 left, .I16 right => (intValue oper left right).map ConstVal.I16
  | .I32 left, .I32 right => (intValue oper left right).map ConstVal.I32
  | .I64 left, .I64 right => (intValue oper left right).map ConstVal.I64
  | _, _ => none

/-- Arithmetic at the promoted width, cast back, is arithmetic modulo `2 ^ width`. -/
theorem arithmetic_eq_ok {width : Nat} {result : Int} {value : BitVec width}
    (computed : arithmetic width result = .ok value) : value = BitVec.ofInt width result := by
  dsimp only [arithmetic] at computed
  split at computed
  · exact (Except.ok.inj computed).symm
  · cases computed

/-- `binEval` computes the operator's value, except that it compares strictly. -/
theorem binEvalInt_eq_ok {width : Nat} (positive : 0 < width)
    {shown : BitVec width → String} {oper : BinOp.Oper} {left right value : BitVec width}
    (computed : binEvalInt shown oper left right = .ok value) :
    intValue oper left right = some value ↔ ¬ (oper = .kLE ∧ left = right) := by
  cases oper with
  | kAdd =>
      have equal := arithmetic_eq_ok computed
      rw [BitVec.ofInt_add, BitVec.ofInt_toInt, BitVec.ofInt_toInt] at equal
      simp [intValue, equal]
  | kSub =>
      have equal := arithmetic_eq_ok computed
      rw [Int.sub_eq_add_neg, BitVec.ofInt_add, BitVec.ofInt_neg, BitVec.ofInt_toInt,
        BitVec.ofInt_toInt, ← BitVec.sub_eq_add_neg] at equal
      simp [intValue, equal]
  | kMul =>
      have equal := arithmetic_eq_ok computed
      rw [BitVec.ofInt_mul, BitVec.ofInt_toInt, BitVec.ofInt_toInt] at equal
      simp [intValue, equal]
  | kLE =>
      have equal : (if left.toInt < right.toInt then (1 : BitVec width) else 0) = value :=
        Except.ok.inj computed
      by_cases same : left = right
      · subst same
        simp only [Int.lt_irrefl, if_false] at equal
        subst equal
        simp [intValue, BitVec.sle, Nat.ne_of_gt positive]
      · have differ : left.toInt ≠ right.toInt := fun numbers =>
          same (BitVec.eq_of_toInt_eq numbers)
        have strict : left.toInt ≤ right.toInt ↔ left.toInt < right.toInt := by omega
        simp [intValue, BitVec.sle, strict, ← equal, same]
  | kEQ =>
      have equal := Except.ok.inj computed
      simp [intValue, ← equal]
  | kShr =>
      simp only [binEvalInt] at computed
      split at computed
      · cases computed
      · split at computed
        · cases computed
        · have equal := Except.ok.inj computed
          simp [intValue, ← equal]
  | kOr =>
      have equal := Except.ok.inj computed
      simp [intValue, ← equal]
  | kDiv => cases computed
  | kBoundsCheck => cases computed

theorem binEvalBool_eq_ok {oper : BinOp.Oper} {left right value : Bool}
    (computed : binEvalBool oper left right = .ok value) :
    boolValue oper left right = some value ↔ ¬ (oper = .kLE ∧ left = right) := by
  cases oper <;> cases left <;> cases right <;>
    simp_all [binEvalBool, boolValue]

theorem binEval_eq_ok {oper : BinOp.Oper} {left right value : ConstVal}
    (computed : binEval oper left right = .ok value) :
    operatorValue oper left right = some value ↔ ¬ (oper = .kLE ∧ left = right) := by
  unfold binEval at computed
  split at computed
  case h_1 left right =>
    rcases Result.map_eq_ok.mp computed with ⟨result, evaluated, rfl⟩
    simpa [operatorValue] using binEvalBool_eq_ok evaluated
  case h_2 left right =>
    rcases Result.map_eq_ok.mp computed with ⟨result, evaluated, rfl⟩
    simpa [operatorValue] using binEvalInt_eq_ok (by decide) evaluated
  case h_3 left right =>
    rcases Result.map_eq_ok.mp computed with ⟨result, evaluated, rfl⟩
    simpa [operatorValue] using binEvalInt_eq_ok (by decide) evaluated
  case h_4 left right =>
    rcases Result.map_eq_ok.mp computed with ⟨result, evaluated, rfl⟩
    simpa [operatorValue] using binEvalInt_eq_ok (by decide) evaluated
  case h_5 left right =>
    rcases Result.map_eq_ok.mp computed with ⟨result, evaluated, rfl⟩
    simpa [operatorValue] using binEvalInt_eq_ok (by decide) evaluated
  case h_6 => cases computed

/-- A folded constant has the operands' type. -/
theorem binEval_type {oper : BinOp.Oper} {left right value : ConstVal}
    (computed : binEval oper left right = .ok value) :
    left.type = right.type ∧ value.type = right.type := by
  unfold binEval at computed
  split at computed
  case h_6 => cases computed
  all_goals
    rcases Result.map_eq_ok.mp computed with ⟨result, evaluated, rfl⟩
    exact ⟨rfl, rfl⟩

/-! ## One fold -/

theorem foldInst_eq_ok {store store' : Store} {id : InstId} {inst : Inst}
    (found : store.insts id = some inst) (allocated : id < store.nextInst)
    (inputsAllocated : ∀ input ∈ inst.inputs, input < store.nextInst)
    (usersAllocated : ∀ user ∈ inst.users, user < store.nextInst)
    (notOwnInput : id ∉ inst.inputs)
    (result : foldInst store id = .ok store') :
    ∃ val bb block, fold store id = .ok val ∧ inst.bb = some bb ∧
      store.blocks bb = some block ∧ id ∈ block.instructions ∧
      store'.insts = (fun key =>
        if key = id then none
        else if key = store.nextInst then
          some { type := val.type, kind := .kConst val, users := inst.users }
        else (store.insts key).map fun other =>
          let dropped := if key ∈ inst.inputs then other.dropUser id else other
          if key ∈ inst.users then dropped.replaceInput id store.nextInst else dropped) ∧
      store'.blocks = (fun key => if key = bb then
        some { block with instructions := block.instructions.replace id store.nextInst }
        else store.blocks key) ∧
      store'.nextInst = store.nextInst + 1 := by
  have newFresh : store.nextInst ≠ id := Nat.ne_of_gt allocated
  have newNotInput : store.nextInst ∉ inst.inputs := fun member =>
    absurd (inputsAllocated _ member) (lt_irrefl _)
  have newNotUser : store.nextInst ∉ inst.users := fun member =>
    absurd (usersAllocated _ member) (lt_irrefl _)
  rcases Result.bind_eq_ok.mp result with ⟨val, folded, result⟩
  rcases Result.bind_eq_ok.mp result with ⟨inst', found', allocation⟩
  have same : inst' = inst := by simpa [found] using (Store.inst_eq_ok.mp found').symm
  subst same
  simp only [Store.newInst] at allocation
  rcases Result.bind_eq_ok.mp allocation with ⟨cleared, clearing, located⟩
  rcases Result.bind_eq_ok.mp located with ⟨bb, home, replacement⟩
  have homeEq : inst'.bb = some bb := by
    cases at' : inst'.bb <;> simp [Inst.getBB, at'] at home ⊢
    exact home
  rcases Store.clearInputs_eq_ok clearing with ⟨stored, foundStored, clearedEq⟩
  have storedEq : stored = inst' := by
    simpa [Store.setInst, newFresh.symm, found] using foundStored.symm
  subst storedEq
  rcases Store.replaceInst_eq_ok replacement with
    ⟨middle, block, merging, foundBlock, member, instsEq, blocksEq, nextEq⟩
  rcases Store.setUsersFrom_eq_ok newFresh merging with ⟨new, old, foundNew, foundOld, middleEq⟩
  have newEq : new = { type := val.type, kind := .kConst val } := by
    simpa [clearedEq, Store.setInst, newNotInput, newFresh] using foundNew.symm
  have oldEq : old = { stored with inputs := [] } := by
    simpa [clearedEq, Store.setInst, newFresh.symm, notOwnInput, found] using foundOld.symm
  subst newEq oldEq
  refine ⟨val, bb, block, folded, homeEq, ?_, member, ?_, ?_, ?_⟩
  · simpa [middleEq, clearedEq, Store.setInst] using foundBlock
  · rw [instsEq]
    funext key
    by_cases isOld : key = id
    · simp [isOld]
    · by_cases isNew : key = store.nextInst
      · subst isNew
        simp [isOld, middleEq, clearedEq, Store.setInst, newNotInput, newNotUser]
      · cases other : store.insts key with
        | none => simp [isOld, isNew, middleEq, clearedEq, Store.setInst, other]
        | some otherInst =>
            simp [isOld, isNew, middleEq, clearedEq, Store.setInst, other]
  · rw [blocksEq, middleEq, clearedEq]
    rfl
  · rw [nextEq, middleEq, clearedEq]
    rfl

end LeechJit.Opt.ConstantFolding
