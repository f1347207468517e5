import LeechJit.IR.Coherence
import LeechJit.Opt.PeepHoleRules

/-! # What the rules compute

Where both an operation and its replacement yield a value, it is the same one; two shifts
by constants are one shift by the sum, as long as the sum is an amount in range.
-/

namespace LeechJit.Opt

open IR Store

/-- The operators mean what `binEval` computes. Division and the bounds check, which it
does not evaluate, may mean anything. -/
def Evaluates {World : Type} (meaning : Meaning World) : Prop :=
  ∀ oper, oper ≠ .kDiv → oper ≠ .kBoundsCheck → ∀ lhs rhs,
    meaning.binOp oper lhs rhs = (ConstantFolding.binEval oper lhs rhs).toOption

namespace PeepHole

open ConstantFolding

/-- The constant is what `val` is at its type. -/
def Stands (val : Int) : ConstVal → Prop
  | .I1 held => held = decide (val ≠ 0)
  | .I8 held => held = BitVec.ofInt 8 val
  | .I16 held => held = BitVec.ofInt 16 val
  | .I32 held => held = BitVec.ofInt 32 val
  | .I64 held => held = BitVec.ofInt 64 val

/-- The amount is below the digits of the type, of which the sign is none. -/
def IsAmount {width : Nat} (amount : BitVec width) : Prop :=
  0 ≤ amount.toInt ∧ amount.toInt < (width - 1 : Nat)

/-- A value of its type can be shifted by the amount. -/
def InRange : ConstVal → Prop
  | .I1 amount => amount = false
  | .I8 amount => IsAmount amount
  | .I16 amount => IsAmount amount
  | .I32 amount => IsAmount amount
  | .I64 amount => IsAmount amount

/-! ## At one width -/

section Width

variable {width : Nat} {shown : BitVec width → String} {lhs rhs held : BitVec width}

theorem ofInt_zero : BitVec.ofInt width 0 = BitVec.ofNat width 0 := rfl

theorem ofInt_neg_one : BitVec.ofInt width (-1) = BitVec.allOnes width := by
  rw [BitVec.ofInt_neg, ← BitVec.neg_one_eq_allOnes]
  rfl

theorem binEvalInt_add_zero
    (evaluated : binEvalInt shown .kAdd lhs (BitVec.ofInt width 0) = .ok held) : held = lhs := by
  simp only [binEvalInt, arithmetic, ofInt_zero, BitVec.toInt_zero, Int.add_zero,
    BitVec.ofInt_toInt] at evaluated
  split_ifs at evaluated
  cases evaluated
  rfl

theorem binEvalInt_shr_zero
    (evaluated : binEvalInt shown .kShr lhs (BitVec.ofInt width 0) = .ok held) : held = lhs := by
  simp only [binEvalInt, ofInt_zero, BitVec.toNat_zero, BitVec.sshiftRight_zero]
    at evaluated
  split_ifs at evaluated
  cases evaluated
  rfl

theorem binEvalInt_or_zero
    (evaluated : binEvalInt shown .kOr lhs (BitVec.ofInt width 0) = .ok held) : held = lhs := by
  simp only [binEvalInt, ofInt_zero, BitVec.or_zero] at evaluated
  cases evaluated
  rfl

theorem binEvalInt_or_ones
    (evaluated : binEvalInt shown .kOr lhs (BitVec.ofInt width (-1)) = .ok held) :
    held = BitVec.ofInt width (-1) := by
  rw [ofInt_neg_one] at evaluated ⊢
  simp only [binEvalInt, BitVec.or_allOnes] at evaluated
  cases evaluated
  rfl

theorem binEvalInt_add_comm :
    binEvalInt shown .kAdd lhs rhs = binEvalInt shown .kAdd rhs lhs := by
  simp only [binEvalInt, Int.add_comm]

theorem binEvalInt_or_comm :
    binEvalInt shown .kOr lhs rhs = binEvalInt shown .kOr rhs lhs := by
  simp only [binEvalInt, BitVec.or_comm]

theorem binEvalInt_shr :
    binEvalInt shown .kShr lhs rhs = .ok held ↔
      IsAmount rhs ∧ held = lhs.sshiftRight rhs.toNat := by
  simp only [binEvalInt, IsAmount]
  split_ifs with tooFar negative
  · simp [Int.not_lt.mpr tooFar]
  · simp [Int.not_le.mpr negative]
  · simp [Int.not_lt.mp negative, Int.not_le.mp tooFar, eq_comm]

theorem binEvalInt_shr_shr {second last : BitVec width}
    (first : binEvalInt shown .kShr lhs rhs = .ok held)
    (again : binEvalInt shown .kShr held second = .ok last)
    {sum : BitVec width} (added : binEvalInt shown .kAdd rhs second = .ok sum)
    (inRange : IsAmount sum) : binEvalInt shown .kShr lhs sum = .ok last := by
  rcases binEvalInt_shr.mp first with ⟨⟨rhsNonneg, rhsBound⟩, rfl⟩
  rcases binEvalInt_shr.mp again with ⟨⟨secondNonneg, secondBound⟩, rfl⟩
  have sumNonneg := inRange.1
  have sumEq : sum = BitVec.ofInt width (rhs.toInt + second.toInt) := by
    simp only [binEvalInt, arithmetic] at added
    split_ifs at added
    cases added
    rfl
  -- Two amounts are too small for their sum to wrap around.
  have small : rhs.toInt + second.toInt < (2 ^ (width - 1) : Nat) := by
    have lt : width - 2 < 2 ^ (width - 2) := Nat.lt_two_pow_self
    have double : 2 ^ (width - 1) = 2 * 2 ^ (width - 2) := by
      rw [← Nat.pow_succ']
      congr 1
      omega
    omega
  have total : sum.toInt = rhs.toInt + second.toInt := by
    rw [sumEq, BitVec.toInt_ofInt]
    have double : 2 ^ width = 2 * 2 ^ (width - 1) := by
      rw [← Nat.pow_succ']
      congr 1
      omega
    rw [double]
    apply Int.bmod_eq_of_le <;> omega
  have totalNat : sum.toNat = rhs.toNat + second.toNat := by
    have ofNat : ∀ amount : BitVec width, 0 ≤ amount.toInt → amount.toInt = amount.toNat := by
      intro amount nonneg
      exact BitVec.toInt_eq_toNat_of_lt (BitVec.toInt_pos_iff.mp nonneg)
    have sumNat := ofNat sum sumNonneg
    have rhsNat := ofNat rhs rhsNonneg
    have secondNat := ofNat second secondNonneg
    omega
  exact binEvalInt_shr.mpr ⟨inRange, by rw [totalNat, BitVec.sshiftRight_add]⟩

end Width

/-! ## At every type -/

/-- One of the four integer types. -/
structure IntType where
  width : Nat
  shown : BitVec width → String
  wrap : BitVec width → ConstVal

inductive IsIntType : IntType → Prop where
  | I8 : IsIntType ⟨8, showByte, .I8⟩
  | I16 : IsIntType ⟨16, showInt, .I16⟩
  | I32 : IsIntType ⟨32, showInt, .I32⟩
  | I64 : IsIntType ⟨64, showInt, .I64⟩

namespace IsIntType

variable {type : IntType} (isInt : IsIntType type)

include isInt

theorem binEval_eq (oper : BinOp.Oper) (lhs rhs : BitVec type.width) :
    binEval oper (type.wrap lhs) (type.wrap rhs) =
      type.wrap <$> binEvalInt type.shown oper lhs rhs := by
  cases isInt <;> rfl

theorem wrap_injective : Function.Injective type.wrap := by
  cases isInt <;>
    · intro left right same
      cases same
      rfl

theorem stands_iff {val : Int} {held : BitVec type.width} :
    Stands val (type.wrap held) ↔ held = BitVec.ofInt type.width val := by
  cases isInt <;> rfl

theorem inRange_iff {amount : BitVec type.width} :
    InRange (type.wrap amount) ↔ IsAmount amount := by
  cases isInt <;> rfl

/-- With one operand of the type the other and the result are of the type. -/
theorem of_left {oper : BinOp.Oper} {left : BitVec type.width} {rhs held : ConstVal}
    (evaluated : binEval oper (type.wrap left) rhs = .ok held) :
    ∃ right val, rhs = type.wrap right ∧ held = type.wrap val ∧
      binEvalInt type.shown oper left right = .ok val := by
  have sameType : ∃ right, rhs = type.wrap right := by
    cases isInt <;> cases rhs <;> first | exact ⟨_, rfl⟩ | cases evaluated
  rcases sameType with ⟨right, rfl⟩
  rw [isInt.binEval_eq] at evaluated
  rcases Result.map_eq_ok.mp evaluated with ⟨val, result, rfl⟩
  exact ⟨right, val, rfl, rfl, result⟩

end IsIntType

section Types

variable {oper : BinOp.Oper} {lhs rhs held : ConstVal}

/-- Operands that are evaluated have the same type. -/
theorem operand_types (evaluated : binEval oper lhs rhs = .ok held) :
    (∃ left right, lhs = .I1 left ∧ rhs = .I1 right) ∨
      ∃ type, IsIntType type ∧ ∃ left right, lhs = type.wrap left ∧ rhs = type.wrap right := by
  cases lhs with
  | I1 left =>
      cases rhs with
      | I1 right => exact .inl ⟨left, right, rfl, rfl⟩
      | _ => cases evaluated
  | I8 left =>
      cases rhs with
      | I8 right => exact .inr ⟨_, .I8, left, right, rfl, rfl⟩
      | _ => cases evaluated
  | I16 left =>
      cases rhs with
      | I16 right => exact .inr ⟨_, .I16, left, right, rfl, rfl⟩
      | _ => cases evaluated
  | I32 left =>
      cases rhs with
      | I32 right => exact .inr ⟨_, .I32, left, right, rfl, rfl⟩
      | _ => cases evaluated
  | I64 left =>
      cases rhs with
      | I64 right => exact .inr ⟨_, .I64, left, right, rfl, rfl⟩
      | _ => cases evaluated

theorem binEval_add_zero (isZero : Stands 0 rhs) (evaluated : binEval .kAdd lhs rhs = .ok held) :
    held = lhs := by
  rcases operand_types evaluated with ⟨left, right, rfl, rfl⟩ | ⟨type, isInt, left, right, rfl, rfl⟩
  · cases isZero
    cases left <;> cases evaluated <;> rfl
  · rw [isInt.stands_iff] at isZero
    rw [isInt.binEval_eq, isZero] at evaluated
    rcases Result.map_eq_ok.mp evaluated with ⟨val, result, rfl⟩
    rw [binEvalInt_add_zero result]

theorem binEval_shr_zero (isZero : Stands 0 rhs) (evaluated : binEval .kShr lhs rhs = .ok held) :
    held = lhs := by
  rcases operand_types evaluated with ⟨left, right, rfl, rfl⟩ | ⟨type, isInt, left, right, rfl, rfl⟩
  · cases isZero
    cases left <;> cases evaluated <;> rfl
  · rw [isInt.stands_iff] at isZero
    rw [isInt.binEval_eq, isZero] at evaluated
    rcases Result.map_eq_ok.mp evaluated with ⟨val, result, rfl⟩
    rw [binEvalInt_shr_zero result]

theorem binEval_or_zero (isZero : Stands 0 rhs) (evaluated : binEval .kOr lhs rhs = .ok held) :
    held = lhs := by
  rcases operand_types evaluated with ⟨left, right, rfl, rfl⟩ | ⟨type, isInt, left, right, rfl, rfl⟩
  · cases isZero
    cases left <;> cases evaluated <;> rfl
  · rw [isInt.stands_iff] at isZero
    rw [isInt.binEval_eq, isZero] at evaluated
    rcases Result.map_eq_ok.mp evaluated with ⟨val, result, rfl⟩
    rw [binEvalInt_or_zero result]

theorem binEval_or_ones (isOnes : Stands (-1) rhs) (evaluated : binEval .kOr lhs rhs = .ok held) :
    held = rhs := by
  rcases operand_types evaluated with ⟨left, right, rfl, rfl⟩ | ⟨type, isInt, left, right, rfl, rfl⟩
  · cases isOnes
    cases left <;> cases evaluated <;> rfl
  · rw [isInt.stands_iff] at isOnes
    rw [isInt.binEval_eq, isOnes] at evaluated
    rcases Result.map_eq_ok.mp evaluated with ⟨val, result, rfl⟩
    rw [binEvalInt_or_ones result, isOnes]

theorem binEval_comm (commutes : oper = .kAdd ∨ oper = .kOr) (lhs rhs : ConstVal) :
    binEval oper lhs rhs = binEval oper rhs lhs := by
  cases lhs <;> cases rhs <;> rcases commutes with rfl | rfl <;>
    simp only [binEval, binEvalBool, binEvalInt_add_comm, binEvalInt_or_comm, Int.add_comm,
      Nat.or_comm]

theorem inRange_of_shr (evaluated : binEval .kShr lhs rhs = .ok held) : InRange rhs := by
  rcases operand_types evaluated with ⟨left, right, rfl, rfl⟩ | ⟨type, isInt, left, right, rfl, rfl⟩
  · cases right with
    | true => cases left <;> cases evaluated
    | false => rfl
  · rw [isInt.binEval_eq] at evaluated
    rcases Result.map_eq_ok.mp evaluated with ⟨val, result, -⟩
    exact isInt.inRange_iff.mpr (binEvalInt_shr.mp result).1

/-- Two shifts are one by the sum of the amounts, as long as that is in range. -/
theorem binEval_shr_shr {shifted amount second sum last : ConstVal}
    (first : binEval .kShr lhs amount = .ok shifted)
    (again : binEval .kShr shifted second = .ok last)
    (added : binEval .kAdd amount second = .ok sum) (inRange : InRange sum) :
    binEval .kShr lhs sum = .ok last := by
  rcases operand_types first with ⟨left, right, rfl, rfl⟩ | ⟨type, isInt, left, right, rfl, rfl⟩
  · -- A boolean is shifted by 0 only.
    cases right with
    | true => cases left <;> cases first
    | false =>
        have isZero : Stands 0 (.I1 false) := rfl
        cases binEval_shr_zero isZero first
        cases second with
        | I1 amount =>
            cases amount with
            | true => cases left <;> cases again
            | false =>
                cases added
                exact again
        | _ => cases again
  · rcases isInt.of_left first with ⟨amount, val, sameAmount, rfl, firstAt⟩
    cases isInt.wrap_injective sameAmount
    rcases isInt.of_left again with ⟨next, final, rfl, rfl, againAt⟩
    rcases isInt.of_left added with ⟨next', total, sameNext, rfl, addedAt⟩
    cases isInt.wrap_injective sameNext
    rw [isInt.binEval_eq,
      binEvalInt_shr_shr firstAt againAt addedAt (isInt.inRange_iff.mp inRange)]
    rfl

end Types

/-! ## The operand in place of the operation -/

variable {World : Type} {meaning : Meaning World} {store : Store} {id value : InstId}
  {values : Values}

theorem stands_of_constIs {val : Int} (isConst : constIs store val id = true) :
    ∃ inst const, store.insts id = some inst ∧ inst.kind = .kConst const ∧ Stands val const := by
  cases found : store.insts id with
  | none => simp [constIs, found] at isConst
  | some inst =>
      rcases inst with ⟨type, kind, users, bb, inputs⟩
      simp only [constIs, found, Option.any_some, Bool.and_eq_true, answer_eq_true] at isConst
      cases kind with
      | kConst const =>
          refine ⟨_, const, rfl, rfl, ?_⟩
          cases type <;> cases const <;> simp_all [checkForVal, Stands]
      | _ => cases isConst.1

theorem evaluates_eq_some {oper : BinOp.Oper} {lhs rhs val : ConstVal}
    (evaluates : Evaluates meaning) (notDiv : oper ≠ .kDiv) (notCheck : oper ≠ .kBoundsCheck) :
    meaning.binOp oper lhs rhs = some val ↔ binEval oper lhs rhs = .ok val := by
  rw [evaluates oper notDiv notCheck]
  cases binEval oper lhs rhs <;> simp [Except.toOption]

/-- A constant operand has the value it is compared with. -/
theorem stands_of_holds {val : Int} {held : ConstVal} (consts : store.ConstsHold values)
    (isConst : constIs store val id = true) (holds : values id = some held) : Stands val held := by
  rcases stands_of_constIs isConst with ⟨inst, const, found, isKind, stands⟩
  rw [consts id inst const held found isKind holds]
  exact stands

/-- The operands of an operation that commutes, sorted, yield the same. -/
theorem computed_sorted {inst : Inst} {oper : BinOp.Oper} {lhs rhs : InstId}
    (evaluates : Evaluates meaning) (commutes : oper = .kAdd ∨ oper = .kOr)
    (found : store.insts id = some inst) (kind : inst.kind = .kBinOp oper)
    (inputs : inst.inputs = [lhs, rhs]) (computed : Computed meaning store values id) :
    ∃ left right val, values (sorted store lhs rhs).1 = some left ∧
      values (sorted store lhs rhs).2 = some right ∧ binEval oper left right = .ok val ∧
      values id = some val := by
  rw [← inputs_eq found] at inputs
  rcases computed.of_inputs found kind inputs with
    ⟨left, right, val, isLeft, isRight, evaluated, holds⟩
  have notDiv : oper ≠ .kDiv := by
    rcases commutes with rfl | rfl <;> simp
  have notCheck : oper ≠ .kBoundsCheck := by
    rcases commutes with rfl | rfl <;> simp
  rw [evaluates_eq_some evaluates notDiv notCheck] at evaluated
  unfold sorted
  split_ifs
  · exact ⟨right, left, val, isRight, isLeft, binEval_comm commutes left right ▸ evaluated, holds⟩
  · exact ⟨left, right, val, isLeft, isRight, evaluated, holds⟩

/-- An operation has the value of the operand a rule puts in its place. -/
theorem value_of_replacement (evaluates : Evaluates meaning) (consts : store.ConstsHold values)
    (isReplacement : replacement store id = some value)
    (computed : Computed meaning store values id) : values id = values value := by
  unfold replacement at isReplacement
  split at isReplacement
  case h_2 => cases isReplacement
  case h_1 type oper user rest bb lhs rhs found =>
    cases oper with
    | kAdd =>
        rcases computed_sorted evaluates (.inl rfl) found rfl rfl computed with
          ⟨left, right, val, isLeft, isRight, evaluated, holds⟩
        simp only [replaced] at isReplacement
        split_ifs at isReplacement with isZero
        cases isReplacement
        rw [holds, isLeft, binEval_add_zero (stands_of_holds consts isZero isRight) evaluated]
    | kOr =>
        rcases computed_sorted evaluates (.inr rfl) found rfl rfl computed with
          ⟨left, right, val, isLeft, isRight, evaluated, holds⟩
        simp only [replaced] at isReplacement
        split_ifs at isReplacement with isZero isOnes
        · cases isReplacement
          rw [holds, isLeft, binEval_or_zero (stands_of_holds consts isZero isRight) evaluated]
        · cases isReplacement
          rw [holds, isRight, binEval_or_ones (stands_of_holds consts isOnes isRight) evaluated]
    | kShr =>
        rcases computed.of_inputs found rfl (inputs_eq found) with
          ⟨left, right, val, isLeft, isRight, evaluated, holds⟩
        rw [evaluates_eq_some evaluates (by simp) (by simp)] at evaluated
        simp only [replaced] at isReplacement
        split_ifs at isReplacement with isZero
        cases isReplacement
        rw [holds, isLeft, binEval_shr_zero (stands_of_holds consts isZero isRight) evaluated]
    | kSub | kMul | kLE | kEQ | kDiv | kBoundsCheck => cases isReplacement

end PeepHole

end LeechJit.Opt
