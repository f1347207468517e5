import LeechJit.Opt.FoldingOutcomes

/-! # Which folds come out right

Shifts, casts, and whatever `foldable` accepts: the exact conditions under which a fold
does what it should.
-/

namespace LeechJit.Opt.ConstantFolding

open IR SignedRange

variable {store : Store} {func : Function} {id : InstId} {oper : BinOp.Oper}
  {left right : ConstVal}

/-! ## Shifts -/

/-- `std::numeric_limits<T>::digits`: the bits without the sign. -/
def digits : ValueType → Nat
  | .I1 => 1
  | type => type.width - 1

/-- Amounts out of range are rejected, others shift the number. -/
structure ShiftsRight (left right : ConstVal) (outcome : Result ConstVal) : Prop where
  rejects : Throws outcome ↔ right.toInt < 0 ∨ left.type.width ≤ right.toInt
  shifts : ¬ (right.toInt < 0 ∨ left.type.width ≤ right.toInt) →
    ∃ val, outcome = .ok val ∧ val.type = left.type ∧
      val.toInt = left.toInt >>> right.toInt.toNat

theorem throws_map {α : Type} {change : α → ConstVal} {outcome : Result α} :
    Throws (change <$> outcome) ↔ ∃ msg, outcome = .error (.arithmeticError msg) := by
  simp only [Throws, map_eq_error]

theorem not_throws_ok {val : ConstVal} : ¬ Throws (.ok val) := by
  intro throws
  rcases throws with ⟨msg, equal⟩
  cases equal

theorem toNat_of_nonneg {width : Nat} {val : BitVec width} (nonneg : 0 ≤ val.toInt) :
    val.toNat = val.toInt.toNat := by
  have cond := val.toInt_eq_toNat_cond
  have bound := val.isLt
  split at cond <;> omega

/-- The integer types reject an amount with the number of the sign bit as well. -/
theorem binEvalInt_shr {width : Nat} (shown : BitVec width → String)
    (left right : BitVec width) :
    ((right.toInt < 0 ∨ ((width - 1 : Nat) : Int) ≤ right.toInt) ∧
      ∃ msg, binEvalInt shown .kShr left right = .error (.arithmeticError msg)) ∨
    ((0 ≤ right.toInt ∧ right.toInt < ((width - 1 : Nat) : Int)) ∧
      binEvalInt shown .kShr left right = .ok (left.sshiftRight right.toInt.toNat)) := by
  dsimp only [binEvalInt]
  split
  case isTrue large => exact .inl ⟨.inr large, _, rfl⟩
  case isFalse small =>
    split
    case isTrue negative => exact .inl ⟨.inl negative, _, rfl⟩
    case isFalse nonneg =>
      rw [toNat_of_nonneg (not_lt.mp nonneg)]
      exact .inr ⟨⟨by omega, by omega⟩, rfl⟩

/-- Folding rejects an amount that is negative or not below the number of digits. -/
theorem binEval_shr (sameType : left.type = right.type) :
    ((right.toInt < 0 ∨ (digits left.type : Int) ≤ right.toInt) ∧
      Throws (binEval .kShr left right)) ∨
    ((0 ≤ right.toInt ∧ right.toInt < digits left.type) ∧
      ∃ val, binEval .kShr left right = .ok val ∧ val.type = left.type ∧
        val.toInt = left.toInt >>> right.toInt.toNat) := by
  cases left <;> cases right <;> cases sameType
  case I1 left right =>
    cases right with
    | true => exact .inl ⟨.inr (Int.le_refl 1), _, rfl⟩
    | false =>
        refine .inr ⟨⟨Int.le_refl 0, Int.zero_lt_one⟩, _, rfl, rfl, ?_⟩
        cases left <;> decide
  all_goals
    rename_i left right
    simp only [binEval, throws_map]
    cases binEvalInt_shr _ left right with
    | inl rejected => exact .inl rejected
    | inr shifted =>
        refine .inr ⟨shifted.1, _, congrArg _ shifted.2, rfl, ?_⟩
        exact BitVec.toInt_sshiftRight

theorem digits_of_ne (type : ValueType) (notI1 : type ≠ .I1) : digits type = type.width - 1 := by
  cases type <;> simp_all [digits]

theorem width_pos (val : ConstVal) : 0 < val.type.width := by
  cases val <;> simp [ConstVal.type, ValueType.width]

theorem throws_shr_iff (sameType : left.type = right.type) :
    Throws (binEval .kShr left right) ↔
      right.toInt < 0 ∨ (digits left.type : Int) ≤ right.toInt := by
  rcases binEval_shr sameType with ⟨rejected, throws⟩ | ⟨accepted, val, folded, -⟩
  · exact iff_of_true throws rejected
  · rw [folded]
    apply iff_of_false not_throws_ok
    omega

theorem binEval_shiftsRight_iff (sameType : left.type = right.type) :
    ShiftsRight left right (binEval .kShr left right) ↔
      ((right.toInt < 0 ∨ (digits left.type : Int) ≤ right.toInt) ↔
        (right.toInt < 0 ∨ (left.type.width : Int) ≤ right.toInt)) := by
  constructor
  · intro shiftsRight
    rw [← throws_shr_iff sameType]
    exact shiftsRight.rejects
  · intro sameRange
    constructor
    · rw [throws_shr_iff sameType]
      exact sameRange
    · intro accepted
      rcases binEval_shr sameType with ⟨rejected, -⟩ | ⟨-, shifted⟩
      · exact absurd (sameRange.mp rejected) accepted
      · exact shifted

/-- A shift of two constants is folded right exactly when its type is `I1` or the amount is
not the width less one. -/
theorem shiftsRight_iff (shift : BinOpOn store id .kShr left right)
    (sameType : left.type = right.type) :
    ShiftsRight left right (fold store id) ↔
      left.type = .I1 ∨ right.toInt ≠ left.type.width - 1 := by
  rw [shift.fold_eq, binEval_shiftsRight_iff sameType]
  cases decEq left.type .I1 with
  | isTrue isI1 => simp [isI1, digits, ValueType.width]
  | isFalse notI1 =>
      have limit := digits_of_ne left.type notI1
      have positive := width_pos left
      simp only [notI1, false_or, limit]
      omega

/-- One block that applies an operator to two constants of one type and returns. -/
def operation (oper : BinOp.Oper) (left right : ConstVal) : Store :=
  .ofTables
    [{ type := left.type, kind := .kConst left, users := [2], bb := some 0 },
      { type := right.type, kind := .kConst right, users := [2], bb := some 0 },
      { type := left.type, kind := .kBinOp oper, users := [3], bb := some 0, inputs := [0, 1] },
      { kind := .kRet, bb := some 0, inputs := [2] }]
    [{ instructions := [0, 1, 2, 3] }] []

theorem operation_wellFormed (oper : BinOp.Oper) (left right : ConstVal) :
    (operation oper left right).WellFormed oneBlock := by
  apply Store.checkWellFormed_sound
  cases left <;> cases right <;> rfl

theorem operation_binOpOn (oper : BinOp.Oper) (left right : ConstVal) :
    BinOpOn (operation oper left right) 2 oper left right :=
  ⟨_, 0, 1, rfl, rfl, rfl, rfl, rfl, rfl⟩

theorem shiftsRight_iff_mid :
    ShiftsRight (.I64 32) (.I64 2) (fold (operation .kShr (.I64 32) (.I64 2)) 2) ↔
      (ConstVal.I64 32).type = .I1 ∨
        (ConstVal.I64 2).toInt ≠ (ConstVal.I64 32).type.width - 1 :=
  shiftsRight_iff (operation_binOpOn .kShr (.I64 32) (.I64 2)) rfl

/-- `x >> 63` is rejected at `I64`. -/
theorem not_shiftsRight_last :
    (operation .kShr (.I64 (-32)) (.I64 63)).WellFormed oneBlock ∧
      Throws (fold (operation .kShr (.I64 (-32)) (.I64 63)) 2) ∧
      ¬ ShiftsRight (.I64 (-32)) (.I64 63)
        (fold (operation .kShr (.I64 (-32)) (.I64 63)) 2) := by
  have throws : Throws (fold (operation .kShr (.I64 (-32)) (.I64 63)) 2) := ⟨_, rfl⟩
  refine ⟨operation_wellFormed .kShr _ _, throws, ?_⟩
  intro shiftsRight
  cases shiftsRight.rejects.mp throws with
  | inl negative => exact absurd negative (by decide)
  | inr large => exact absurd large (by decide)

/-! ## Casts -/

/-- The constant converted to a type, as C++ converts it. -/
def convert (dest : ValueType) (val : ConstVal) : Option ConstVal :=
  match dest with
  | .None => none
  | .I1 => some (.I1 (decide (val.toInt ≠ 0)))
  | .I8 => some (.I8 (BitVec.ofInt 8 val.toInt))
  | .I16 => some (.I16 (BitVec.ofInt 16 val.toInt))
  | .I32 => some (.I32 (BitVec.ofInt 32 val.toInt))
  | .I64 => some (.I64 (BitVec.ofInt 64 val.toInt))

theorem convert_own (val : ConstVal) : convert val.type val = some val := by
  cases val with
  | I1 val => cases val <;> rfl
  | _ => simp [convert, ConstVal.type, ConstVal.toInt, BitVec.ofInt_toInt]

theorem castEval_eq_ok {dest : ValueType} {val result : ConstVal} :
    castEval dest val = .ok result ↔ val.type = dest ∧ val = result := by
  cases val <;> cases dest <;> simp [castEval, ConstVal.type]

theorem not_throws_castEval {dest : ValueType} {val : ConstVal} :
    ¬ Throws (castEval dest val) := by
  cases val <;> cases dest <;> simp [Throws, castEval, ConstVal.type]

/-- A cast that is accepted becomes its operand converted to the type of the cast exactly
when the operand has this type already. -/
theorem casts_iff {inst : Inst} (stored : store.insts id = some inst)
    (isCast : inst.kind = .kCast) (accepted : foldable store id = .ok true) :
    ∃ src val, inst.inputAt 0 = .ok src ∧ constAt store src = some val ∧
      ((∃ result, convert inst.type val = some result ∧ fold store id = .ok result) ↔
        val.type = inst.type) := by
  rcases foldable_cases accepted with ⟨oper, left, right, operation⟩ | ⟨dest, val, cast⟩
  · rcases operation with ⟨other, lhs, rhs, otherStored, kind, -⟩
    cases Option.some.inj (stored.symm.trans otherStored)
    rw [isCast] at kind
    cases kind
  · have folded := cast.fold_eq
    rcases cast with ⟨other, src, otherStored, kind, rfl, srcAt, srcConst⟩
    cases Option.some.inj (stored.symm.trans otherStored)
    refine ⟨src, val, srcAt, srcConst, ?_⟩
    rw [folded]
    constructor
    · intro converted
      rcases converted with ⟨result, -, evaluated⟩
      exact (castEval_eq_ok.mp evaluated).1
    · intro sameType
      refine ⟨val, ?_, castEval_eq_ok.mpr ⟨sameType, rfl⟩⟩
      rw [← sameType]
      exact convert_own val

def castTo (dest : ValueType) : Inst :=
  { type := dest, kind := .kCast, users := [2], bb := some 0, inputs := [0] }

/-- One block that casts a constant and returns it. -/
def conversion (dest : ValueType) (val : ConstVal) : Store :=
  .ofTables
    [{ type := val.type, kind := .kConst val, users := [1], bb := some 0 },
      castTo dest,
      { kind := .kRet, bb := some 0, inputs := [1] }]
    [{ instructions := [0, 1, 2] }] []

theorem conversion_wellFormed (dest : ValueType) (val : ConstVal) :
    (conversion dest val).WellFormed oneBlock := by
  apply Store.checkWellFormed_sound
  cases val <;> rfl

theorem casts_iff_own :
    ∃ src val, (castTo .I64).inputAt 0 = .ok src ∧
      constAt (conversion .I64 (.I64 7)) src = some val ∧
      ((∃ result, convert (castTo .I64).type val = some result ∧
          fold (conversion .I64 (.I64 7)) 1 = .ok result) ↔ val.type = (castTo .I64).type) := by
  have stored : (conversion .I64 (.I64 7)).insts 1 = some (castTo .I64) := rfl
  exact casts_iff stored rfl rfl

/-- A cast of an `I32` constant to `I64` reads it as if it were an `I64` constant. -/
theorem not_casts_widening :
    (conversion .I64 (.I32 7)).WellFormed oneBlock ∧
      foldable (conversion .I64 (.I32 7)) 1 = .ok true ∧
      fold (conversion .I64 (.I32 7)) 1 = .error .badCast ∧
      ¬ ∃ result, convert .I64 (.I32 7) = some result ∧
        fold (conversion .I64 (.I32 7)) 1 = .ok result := by
  refine ⟨conversion_wellFormed .I64 (.I32 7), rfl, rfl, ?_⟩
  intro converted
  rcases converted with ⟨result, -, folded⟩
  cases folded

/-! ## Whatever is accepted -/

theorem binEvalInt_outcome {width : Nat} (shown : BitVec width → String) (oper : BinOp.Oper)
    (left right : BitVec width) :
    (oper = .kDiv ∨ oper = .kBoundsCheck) ∧
      binEvalInt shown oper left right = .error .unreachable ∨
    ¬ (oper = .kDiv ∨ oper = .kBoundsCheck) ∧
      (binEvalInt shown oper left right = .error .signedOverflow ∨
        (∃ val, binEvalInt shown oper left right = .ok val) ∨
        ∃ msg, binEvalInt shown oper left right = .error (.arithmeticError msg)) := by
  have arithmeticOutcome : ∀ result, arithmetic width result = .error .signedOverflow ∨
      (∃ val, arithmetic width result = .ok val) ∨
      ∃ msg, arithmetic width result = .error (.arithmeticError msg) := by
    intro result
    dsimp only [arithmetic]
    split
    · exact .inr (.inl ⟨_, rfl⟩)
    · exact .inl rfl
  cases oper with
  | kAdd => exact .inr ⟨by decide, arithmeticOutcome _⟩
  | kSub => exact .inr ⟨by decide, arithmeticOutcome _⟩
  | kMul => exact .inr ⟨by decide, arithmeticOutcome _⟩
  | kLE => exact .inr ⟨by decide, .inr (.inl ⟨_, rfl⟩)⟩
  | kEQ => exact .inr ⟨by decide, .inr (.inl ⟨_, rfl⟩)⟩
  | kShr =>
      refine .inr ⟨by decide, .inr ?_⟩
      cases binEvalInt_shr shown left right with
      | inl rejected => exact .inr rejected.2
      | inr shifted => exact .inl ⟨_, shifted.2⟩
  | kOr => exact .inr ⟨by decide, .inr (.inl ⟨_, rfl⟩)⟩
  | kDiv => exact .inl ⟨by decide, rfl⟩
  | kBoundsCheck => exact .inl ⟨by decide, rfl⟩

theorem binEvalBool_outcome (oper : BinOp.Oper) (left right : Bool) :
    (oper = .kDiv ∨ oper = .kBoundsCheck) ∧
      binEvalBool oper left right = .error .unreachable ∨
    ¬ (oper = .kDiv ∨ oper = .kBoundsCheck) ∧
      ((∃ val, binEvalBool oper left right = .ok val) ∨
        ∃ msg, binEvalBool oper left right = .error (.arithmeticError msg)) := by
  cases oper with
  | kDiv => exact .inl ⟨by decide, rfl⟩
  | kBoundsCheck => exact .inl ⟨by decide, rfl⟩
  | kShr =>
      refine .inr ⟨by decide, ?_⟩
      cases right with
      | true => exact .inr ⟨_, rfl⟩
      | false => exact .inl ⟨_, rfl⟩
  | _ => exact .inr ⟨by decide, .inl ⟨_, rfl⟩⟩

theorem settles_map {α : Type} {change : α → ConstVal} {outcome : Result α} :
    Settles (change <$> outcome) ↔
      (∃ val, outcome = .ok val) ∨ ∃ msg, outcome = .error (.arithmeticError msg) := by
  unfold Settles
  rw [throws_map]
  cases outcome <;> simp [Functor.map, Except.map]

/-- Evaluation aborts on the two operators it does not know; on the others it settles unless
it overflows. -/
theorem binEval_outcome (oper : BinOp.Oper) (sameType : left.type = right.type) :
    (oper = .kDiv ∨ oper = .kBoundsCheck) ∧ binEval oper left right = .error .unreachable ∨
    ¬ (oper = .kDiv ∨ oper = .kBoundsCheck) ∧
      (binEval oper left right = .error .signedOverflow ∨ Settles (binEval oper left right)) := by
  cases left <;> cases right <;> cases sameType
  case I1 left right =>
    simp only [binEval, map_eq_error, settles_map]
    cases binEvalBool_outcome oper left right with
    | inl unknown => exact .inl unknown
    | inr known => exact .inr ⟨known.1, .inr known.2⟩
  all_goals
    simp only [binEval, map_eq_error, settles_map]
    exact binEvalInt_outcome _ oper _ _

theorem not_settles_error {fault : Fault} (other : ∀ msg, fault ≠ .arithmeticError msg) :
    ¬ Settles (.error fault) := by
  intro settles
  rcases settles with ⟨val, equal⟩ | ⟨msg, equal⟩
  · cases equal
  · exact other msg (Except.error.inj equal)

theorem binEval_settles_iff (sameType : left.type = right.type) :
    Settles (binEval oper left right) ↔
      ¬ (oper = .kDiv ∨ oper = .kBoundsCheck) ∧
        (left.type.width < 32 ∨
          OperandsFit oper left.type.width left.toInt right.toInt) := by
  rw [← exactResult_inRange_iff sameType]
  have overflows : binEval oper left right = .error .signedOverflow ↔ _ :=
    binEval_overflows_iff sameType
  rcases binEval_outcome oper sameType with ⟨unknown, aborts⟩ | ⟨known, outcome⟩
  · rw [aborts]
    exact iff_of_false (not_settles_error (by simp)) fun both => both.1 unknown
  · cases outcome with
    | inl overflow =>
        rw [overflow]
        apply iff_of_false (not_settles_error (by simp))
        rcases overflows.mp overflow with ⟨result, isResult, outside⟩
        exact fun both => outside (both.2 result isResult)
    | inr settles =>
        apply iff_of_true settles
        refine ⟨known, ?_⟩
        intro result isResult
        by_contra outside
        have overflow := overflows.mpr ⟨result, isResult, outside⟩
        rw [overflow] at settles
        exact not_settles_error (by simp) settles

theorem castEval_settles_iff {dest : ValueType} {val : ConstVal} :
    Settles (castEval dest val) ↔ val.type = dest := by
  simp [Settles, not_throws_castEval, castEval_eq_ok]

/-- Operations on two constants have operands of one type. -/
def SameTypes (store : Store) (id : InstId) : Prop :=
  ∀ oper left right, BinOpOn store id oper left right → left.type = right.type

/-- An operation with a known operator whose operands fit, or a cast to the type that the
constant has. -/
structure Evaluable (store : Store) (id : InstId) : Prop where
  binOp : ∀ oper left right, BinOpOn store id oper left right →
    ¬ (oper = .kDiv ∨ oper = .kBoundsCheck) ∧
      (left.type.width < 32 ∨ OperandsFit oper left.type.width left.toInt right.toInt)
  cast : ∀ dest val, CastOn store id dest val → val.type = dest

theorem fold_settles_iff (accepted : foldable store id = .ok true)
    (sameTypes : SameTypes store id) : Settles (fold store id) ↔ Evaluable store id := by
  rcases foldable_cases accepted with ⟨oper, left, right, operation⟩ | ⟨dest, val, cast⟩
  · rw [operation.fold_eq, binEval_settles_iff (sameTypes oper left right operation)]
    constructor
    · intro known
      constructor
      · intro oper' left' right' other
        rcases operation.unique other with ⟨rfl, rfl, rfl⟩
        exact known
      · intro dest val cast
        exact absurd cast (not_castOn_of_binOpOn operation)
    · intro evaluable
      exact evaluable.binOp oper left right operation
  · rw [cast.fold_eq, castEval_settles_iff]
    constructor
    · intro sameType
      constructor
      · intro oper left right operation
        exact absurd cast (not_castOn_of_binOpOn operation)
      · intro dest' val' other
        rcases cast.unique other with ⟨rfl, rfl⟩
        exact sameType
    · intro evaluable
      exact evaluable.cast dest val cast

theorem foldable_of_found {toFold : List InstId} (found : findFoldable store func = .ok toFold)
    (member : id ∈ toFold) : foldable store id = .ok true := by
  rcases Result.bind_eq_ok.mp found with ⟨graph, -, collecting⟩
  rcases Store.collect_eq_ok collecting with ⟨rfl, -⟩
  rw [List.mem_filter, Store.answer_eq_true] at member
  exact member.2

/-- Every fold of a function settles exactly when none of the accepted instructions is a
division, a bounds check, an overflow or a cast to another type. -/
theorem folds_settle_iff {toFold : List InstId} (found : findFoldable store func = .ok toFold)
    (sameTypes : ∀ id ∈ toFold, SameTypes store id) :
    (∀ id ∈ toFold, Settles (fold store id)) ↔ ∀ id ∈ toFold, Evaluable store id := by
  constructor
  · intro settles id member
    have accepted := foldable_of_found found member
    exact (fold_settles_iff accepted (sameTypes id member)).mp (settles id member)
  · intro evaluable id member
    have accepted := foldable_of_found found member
    exact (fold_settles_iff accepted (sameTypes id member)).mpr (evaluable id member)

theorem operation_found (oper : BinOp.Oper) (left right : ConstVal) :
    findFoldable (operation oper left right) oneBlock = .ok [2] := rfl

theorem operation_sameTypes (sameType : left.type = right.type) :
    ∀ id ∈ [2], SameTypes (operation oper left right) id := by
  intro id member oper' left' right' other
  rw [List.mem_singleton] at member
  subst member
  rcases (operation_binOpOn oper left right).unique other with ⟨rfl, rfl, rfl⟩
  exact sameType

theorem folds_settle_iff_sum :
    (∀ id ∈ [2], Settles (fold (operation .kAdd (.I64 32) (.I64 10)) id)) ↔
      ∀ id ∈ [2], Evaluable (operation .kAdd (.I64 32) (.I64 10)) id :=
  folds_settle_iff (operation_found .kAdd _ _) (operation_sameTypes rfl)

/-- The division `6 / 3` is accepted, and then folding it aborts. -/
theorem not_folds_settle_quotient :
    (operation .kDiv (.I64 6) (.I64 3)).WellFormed oneBlock ∧
      findFoldable (operation .kDiv (.I64 6) (.I64 3)) oneBlock = .ok [2] ∧
      fold (operation .kDiv (.I64 6) (.I64 3)) 2 = .error .unreachable ∧
      ¬ ∀ id ∈ [2], Settles (fold (operation .kDiv (.I64 6) (.I64 3)) id) := by
  refine ⟨operation_wellFormed .kDiv _ _, operation_found .kDiv _ _, rfl, ?_⟩
  intro settles
  exact not_settles_error (by simp) (settles 2 (.head _))

end LeechJit.Opt.ConstantFolding
