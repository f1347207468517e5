import LeechJit.Foundation.SignedRange
import LeechJit.Opt.FoldingValues

/-! # What folding makes of an operation

Folding knows neither division nor bounds checks, shifts by one bit less than the
width allows, reads the operand of a cast at the wrong type, and computes with the
machine's own signed arithmetic. What comes of it is told here from the operator,
the types and the constants.
-/

namespace LeechJit.IR

/-- The bits of a type. -/
def ValueType.width : ValueType → Nat
  | .None => 0
  | .I1 => 1
  | .I8 => 8
  | .I16 => 16
  | .I32 => 32
  | .I64 => 64

/-- The number a constant stands for. -/
def ConstVal.toInt : ConstVal → Int
  | .I1 val => val.toInt
  | .I8 val => val.toInt
  | .I16 val => val.toInt
  | .I32 val => val.toInt
  | .I64 val => val.toInt

end LeechJit.IR

namespace LeechJit.Opt.ConstantFolding

open IR SignedRange

variable {store : Store} {func : Function} {id : InstId} {oper : BinOp.Oper}
  {left right : ConstVal}

/-- An `ArithmeticError` is thrown. -/
def Throws (outcome : Result ConstVal) : Prop :=
  ∃ msg, outcome = .error (.arithmeticError msg)

/-- A constant is returned, or an `ArithmeticError` is thrown. -/
def Settles (outcome : Result ConstVal) : Prop :=
  (∃ val, outcome = .ok val) ∨ Throws outcome

/-! ## Operations on constants -/

/-- A binary operation whose operands are constants. -/
def BinOpOn (store : Store) (id : InstId) (oper : BinOp.Oper) (left right : ConstVal) : Prop :=
  ∃ inst lhs rhs, store.insts id = some inst ∧ inst.kind = .kBinOp oper ∧
    inst.inputAt 0 = .ok lhs ∧ inst.inputAt 1 = .ok rhs ∧
    constAt store lhs = some left ∧ constAt store rhs = some right

/-- A cast of a constant. -/
def CastOn (store : Store) (id : InstId) (dest : ValueType) (val : ConstVal) : Prop :=
  ∃ inst src, store.insts id = some inst ∧ inst.kind = .kCast ∧ inst.type = dest ∧
    inst.inputAt 0 = .ok src ∧ constAt store src = some val

theorem BinOpOn.fold_eq (operation : BinOpOn store id oper left right) :
    fold store id = binEval oper left right := by
  rcases operation with ⟨inst, lhs, rhs, stored, kind, lhsAt, rhsAt, leftConst, rightConst⟩
  simp [fold, Store.inst, stored, kind, lhsAt, rhsAt, getConst_eq_ok.mpr leftConst,
    getConst_eq_ok.mpr rightConst]

theorem CastOn.fold_eq {dest : ValueType} {val : ConstVal}
    (cast : CastOn store id dest val) : fold store id = castEval dest val := by
  rcases cast with ⟨inst, src, stored, kind, type, srcAt, srcConst⟩
  simp [fold, Store.inst, stored, kind, type, srcAt, getConst_eq_ok.mpr srcConst]

theorem constAt_of_retrieved {input : InstId} {found : Option ConstVal}
    (retrieved : store.tryRetrieveConst input = .ok found) (isSome : found.isSome) :
    ∃ val, constAt store input = some val := by
  rw [← tryRetrieveConst_eq_ok retrieved]
  exact Option.isSome_iff_exists.mp isSome

/-- What is foldable is an operation or a cast on constants. -/
theorem foldable_cases (accepted : foldable store id = .ok true) :
    (∃ oper left right, BinOpOn store id oper left right) ∨
      ∃ dest val, CastOn store id dest val := by
  rcases Result.bind_eq_ok.mp accepted with ⟨inst, stored, decided⟩
  rw [Store.inst_eq_ok] at stored
  cases kind : inst.kind with
  | kBinOp oper =>
      simp only [kind] at decided
      rcases Result.bind_eq_ok.mp decided with ⟨lhs, lhsAt, decided⟩
      rcases Result.bind_eq_ok.mp decided with ⟨leftFound, leftRetrieved, decided⟩
      cases leftFound with
      | none => cases decided
      | some left =>
          simp only [Option.isNone_some, Bool.false_eq_true, if_false] at decided
          rcases Result.bind_eq_ok.mp decided with ⟨rhs, rhsAt, decided⟩
          rcases Result.bind_eq_ok.mp decided with ⟨rightFound, rightRetrieved, isSome⟩
          rcases constAt_of_retrieved rightRetrieved (Except.ok.inj isSome) with
            ⟨right, rightConst⟩
          have leftConst := (tryRetrieveConst_eq_ok leftRetrieved).symm
          exact .inl ⟨oper, left, right, inst, lhs, rhs, stored, kind, lhsAt, rhsAt, leftConst,
            rightConst⟩
  | kCast =>
      simp only [kind] at decided
      rcases Result.bind_eq_ok.mp decided with ⟨src, srcAt, decided⟩
      rcases Result.bind_eq_ok.mp decided with ⟨found, retrieved, isSome⟩
      rcases constAt_of_retrieved retrieved (Except.ok.inj isSome) with ⟨val, srcConst⟩
      exact .inr ⟨inst.type, val, inst, src, stored, kind, rfl, srcAt, srcConst⟩
  | _ =>
      simp only [kind] at decided
      cases decided

theorem not_castOn_of_binOpOn {dest : ValueType} {val : ConstVal}
    (operation : BinOpOn store id oper left right) : ¬ CastOn store id dest val := by
  intro cast
  rcases operation with ⟨inst, lhs, rhs, stored, kind, -⟩
  rcases cast with ⟨other, src, otherStored, otherKind, -⟩
  cases Option.some.inj (stored.symm.trans otherStored)
  rw [kind] at otherKind
  cases otherKind

theorem BinOpOn.unique {oper' : BinOp.Oper} {left' right' : ConstVal}
    (operation : BinOpOn store id oper left right)
    (other : BinOpOn store id oper' left' right') :
    oper' = oper ∧ left' = left ∧ right' = right := by
  rcases operation with ⟨inst, lhs, rhs, stored, kind, lhsAt, rhsAt, leftConst, rightConst⟩
  rcases other with ⟨inst', lhs', rhs', stored', kind', lhsAt', rhsAt', leftConst', rightConst'⟩
  cases Option.some.inj (stored.symm.trans stored')
  cases kind.symm.trans kind'
  cases lhsAt.symm.trans lhsAt'
  cases rhsAt.symm.trans rhsAt'
  cases leftConst.symm.trans leftConst'
  cases rightConst.symm.trans rightConst'
  exact ⟨rfl, rfl, rfl⟩

theorem CastOn.unique {dest dest' : ValueType} {val val' : ConstVal}
    (cast : CastOn store id dest val) (other : CastOn store id dest' val') :
    dest' = dest ∧ val' = val := by
  rcases cast with ⟨inst, src, stored, kind, type, srcAt, srcConst⟩
  rcases other with ⟨inst', src', stored', kind', type', srcAt', srcConst'⟩
  cases Option.some.inj (stored.symm.trans stored')
  cases srcAt.symm.trans srcAt'
  cases srcConst.symm.trans srcConst'
  exact ⟨type'.symm.trans type, rfl⟩

/-! ## Arithmetic -/

/-- A test on the operands that the result of the operator fits into the type. -/
def OperandsFit (oper : BinOp.Oper) (width : Nat) (left right : Int) : Prop :=
  match oper with
  | .kAdd => AddFits width left right
  | .kSub => SubFits width left right
  | .kMul => MulFits width left right
  | _ => True

instance (oper : BinOp.Oper) (width : Nat) (left right : Int) :
    Decidable (OperandsFit oper width left right) := by
  unfold OperandsFit
  split <;> infer_instance

/-- What the operators compute with C++ arithmetic, before the cast back. -/
def exactResult (oper : BinOp.Oper) (left right : Int) : Option Int :=
  match oper with
  | .kAdd => some (left + right)
  | .kSub => some (left - right)
  | .kMul => some (left * right)
  | _ => none

/-- The exact result lies in the range of the promoted type, and evaluation does not
overflow. -/
def StaysInRange (oper : BinOp.Oper) (left right : ConstVal) : Prop :=
  (∀ result ∈ exactResult oper left.toInt right.toInt,
    Holds (max left.type.width 32) result) ∧
  binEval oper left right ≠ .error .signedOverflow

/-- Narrow operands are promoted to a width that holds any result; wide ones are not. -/
theorem holds_promoted_iff {width : Nat} {result : Int} {fits : Prop}
    (narrow : width < 32 → Holds 32 result) (fitting : Holds width result ↔ fits) :
    Holds (max width 32) result ↔ width < 32 ∨ fits := by
  cases Nat.lt_or_ge width 32 with
  | inl less =>
      rw [Nat.max_eq_right less.le]
      simp [narrow less, less]
  | inr wide =>
      rw [Nat.max_eq_left wide, fitting]
      simp [Nat.not_lt.mpr wide]

theorem exactResult_holds_iff {width : Nat} (positive : 0 < width)
    (sizes : 2 * width ≤ 32 ∨ 32 ≤ width) {left right : Int} (leftHolds : Holds width left)
    (rightHolds : Holds width right) :
    (∀ result ∈ exactResult oper left right, Holds (max width 32) result) ↔
      width < 32 ∨ OperandsFit oper width left right := by
  cases oper with
  | kAdd =>
      simp only [exactResult, Option.mem_some, forall_eq']
      apply holds_promoted_iff _ (holds_add_iff leftHolds)
      intro narrow
      exact (leftHolds.add rightHolds positive).wider narrow
  | kSub =>
      simp only [exactResult, Option.mem_some, forall_eq']
      apply holds_promoted_iff _ (holds_sub_iff leftHolds)
      intro narrow
      exact (leftHolds.sub rightHolds positive).wider narrow
  | kMul =>
      simp only [exactResult, Option.mem_some, forall_eq']
      apply holds_promoted_iff _ holds_mul_iff
      intro narrow
      have double : 2 * width ≤ 32 := by omega
      exact (leftHolds.mul rightHolds positive).wider double
  | _ => simp [exactResult, OperandsFit]

theorem arithmetic_overflows {width : Nat} {result : Int} :
    arithmetic width result = .error .signedOverflow ↔ ¬ Holds (max width 32) result := by
  dsimp only [arithmetic, Holds]
  split
  case isTrue within => simp [within]
  case isFalse outside => simp [outside]

theorem binEvalInt_overflows_iff {width : Nat} {shown : BitVec width → String}
    {left right : BitVec width} :
    binEvalInt shown oper left right = .error .signedOverflow ↔
      ∃ result ∈ exactResult oper left.toInt right.toInt, ¬ Holds (max width 32) result := by
  cases oper with
  | kAdd => simp [binEvalInt, exactResult, arithmetic_overflows]
  | kSub => simp [binEvalInt, exactResult, arithmetic_overflows]
  | kMul => simp [binEvalInt, exactResult, arithmetic_overflows]
  | kShr =>
      simp only [binEvalInt, exactResult, Option.not_mem_none, false_and, exists_false,
        iff_false]
      intro failed
      split at failed
      · cases failed
      · split at failed <;> cases failed
  | _ => simp [binEvalInt, exactResult]

theorem not_binEvalBool_overflows {left right : Bool} :
    binEvalBool oper left right ≠ .error .signedOverflow := by
  cases oper <;> simp [binEvalBool]
  intro failed
  split at failed <;> cases failed

theorem exactResult_bool {left right : Bool} :
    ∀ result ∈ exactResult oper left.toInt right.toInt, Holds 32 result := by
  cases oper <;> cases left <;> cases right <;> simp [exactResult] <;> decide

theorem map_eq_error {α β : Type} {change : α → β} {outcome : Result α} {fault : Fault} :
    change <$> outcome = .error fault ↔ outcome = .error fault := by
  cases outcome <;> simp [Functor.map, Except.map]

/-- Folding overflows exactly when the exact result is out of the promoted range. -/
theorem binEval_overflows_iff (sameType : left.type = right.type) :
    binEval oper left right = .error .signedOverflow ↔
      ∃ result ∈ exactResult oper left.toInt right.toInt,
        ¬ Holds (max left.type.width 32) result := by
  cases left <;> cases right <;> cases sameType
  case I1 left right =>
    have within := @exactResult_bool oper left right
    simp only [binEval, map_eq_error, not_binEvalBool_overflows, false_iff, not_exists,
      not_and, not_not]
    exact within
  all_goals
    simp only [binEval, map_eq_error]
    exact binEvalInt_overflows_iff

theorem exactResult_inRange_iff (sameType : left.type = right.type) :
    (∀ result ∈ exactResult oper left.toInt right.toInt,
        Holds (max left.type.width 32) result) ↔
      left.type.width < 32 ∨ OperandsFit oper left.type.width left.toInt right.toInt := by
  cases left <;> cases right <;> cases sameType
  case I1 left right =>
    simp only [ConstVal.type, ValueType.width, Nat.reduceLT, true_or, iff_true]
    exact exactResult_bool
  all_goals
    simp only [ConstVal.type, ValueType.width, ConstVal.toInt]
    exact exactResult_holds_iff (by decide) (by decide) (holds_toInt _) (holds_toInt _)

/-- Sums, differences and products stay in the range of the promoted type exactly when the
type is narrower than `int` or the operands fit. -/
theorem staysInRange_iff (sameType : left.type = right.type) :
    StaysInRange oper left right ↔
      left.type.width < 32 ∨ OperandsFit oper left.type.width left.toInt right.toInt := by
  rw [← exactResult_inRange_iff sameType]
  unfold StaysInRange
  rw [Ne, binEval_overflows_iff sameType]
  constructor
  · intro stays
    exact stays.1
  · intro within
    refine ⟨within, ?_⟩
    intro overflows
    rcases overflows with ⟨result, isResult, outside⟩
    exact outside (within result isResult)

theorem staysInRange_iff_square : StaysInRange .kMul (.I32 46340) (.I32 46340) :=
  (staysInRange_iff rfl).mpr (.inr (by decide))

/-- `INT32_MAX + 1` overflows in the compiler. -/
theorem not_staysInRange_max :
    binEval .kAdd (.I32 2147483647) (.I32 1) = .error .signedOverflow ∧
      ¬ StaysInRange .kAdd (.I32 2147483647) (.I32 1) := by
  have overflows : binEval .kAdd (.I32 2147483647) (.I32 1) = .error .signedOverflow := rfl
  exact ⟨overflows, fun stays => stays.2 overflows⟩

end LeechJit.Opt.ConstantFolding
