import Mathlib.Algebra.Order.Ring.Int
import Mathlib.Tactic.Linarith

/-! # Signed arithmetic in a range

The numbers a signed type of some width holds, and tests on two operands, made without
leaving the range, that tell whether their sum, difference or product is one of them.
-/

namespace LeechJit.SignedRange

/-- The value is one of a signed type with so many bits. -/
def Holds (bits : Nat) (value : Int) : Prop :=
  -(2 ^ (bits - 1) : Int) ≤ value ∧ value < 2 ^ (bits - 1)

instance (bits : Nat) (value : Int) : Decidable (Holds bits value) := by
  unfold Holds
  infer_instance

def AddFits (bits : Nat) (left right : Int) : Prop :=
  if 0 ≤ right then left ≤ 2 ^ (bits - 1) - 1 - right
  else -(2 ^ (bits - 1)) - right ≤ left

def SubFits (bits : Nat) (left right : Int) : Prop :=
  if 0 ≤ right then -(2 ^ (bits - 1)) + right ≤ left
  else left ≤ 2 ^ (bits - 1) - 1 + right

/-- The largest size of a product of the sign its factors give it. -/
def productLimit (bits : Nat) (left right : Int) : Nat :=
  if left < 0 ↔ right < 0 then 2 ^ (bits - 1) - 1 else 2 ^ (bits - 1)

def MulFits (bits : Nat) (left right : Int) : Prop :=
  right = 0 ∨ left.natAbs ≤ productLimit bits left right / right.natAbs

instance (bits : Nat) (left right : Int) : Decidable (AddFits bits left right) := by
  unfold AddFits
  infer_instance

instance (bits : Nat) (left right : Int) : Decidable (SubFits bits left right) := by
  unfold SubFits
  infer_instance

instance (bits : Nat) (left right : Int) : Decidable (MulFits bits left right) := by
  unfold MulFits
  infer_instance

variable {bits more : Nat} {left right value : Int}

theorem Holds.wider (holds : Holds bits value) (le : bits ≤ more) : Holds more value := by
  have powers : (2 : Int) ^ (bits - 1) ≤ 2 ^ (more - 1) :=
    pow_le_pow_right₀ (by decide) (Nat.sub_le_sub_right le 1)
  exact ⟨by linarith [holds.1], by linarith [holds.2]⟩

theorem holds_add_iff (leftHolds : Holds bits left) :
    Holds bits (left + right) ↔ AddFits bits left right := by
  unfold Holds at leftHolds ⊢
  unfold AddFits
  split <;> omega

theorem holds_sub_iff (leftHolds : Holds bits left) :
    Holds bits (left - right) ↔ SubFits bits left right := by
  unfold Holds at leftHolds ⊢
  unfold SubFits
  split <;> omega

theorem product_of_sameSign (sameSign : left < 0 ↔ right < 0) :
    left * right = left.natAbs * right.natAbs := by
  have nonneg : 0 ≤ left * right := by
    cases lt_or_ge left 0 with
    | inl negative => exact (mul_pos_of_neg_of_neg negative (sameSign.mp negative)).le
    | inr leftNonneg =>
        have rightNonneg : 0 ≤ right := by omega
        exact mul_nonneg leftNonneg rightNonneg
  rw [← Nat.cast_mul, ← Int.natAbs_mul, Int.natAbs_of_nonneg nonneg]

theorem product_of_otherSign (otherSign : ¬ (left < 0 ↔ right < 0)) :
    left * right = -(left.natAbs * right.natAbs) := by
  have nonpos : left * right ≤ 0 := by
    cases lt_or_ge left 0 with
    | inl negative =>
        have rightNonneg : 0 ≤ right := by omega
        exact mul_nonpos_of_nonpos_of_nonneg negative.le rightNonneg
    | inr leftNonneg =>
        have rightNonpos : right ≤ 0 := by omega
        exact mul_nonpos_of_nonneg_of_nonpos leftNonneg rightNonpos
  rw [← Nat.cast_mul, ← Int.natAbs_mul, Int.ofNat_natAbs_of_nonpos nonpos, neg_neg]

theorem holds_mul_iff_limit :
    Holds bits (left * right) ↔
      left.natAbs * right.natAbs ≤ productLimit bits left right := by
  have positive : (0 : Int) < 2 ^ (bits - 1) := by positivity
  have size : ((2 ^ (bits - 1) : Nat) : Int) = 2 ^ (bits - 1) := by norm_cast
  unfold Holds productLimit
  split
  case isTrue sameSign =>
    rw [product_of_sameSign sameSign, ← Nat.cast_mul]
    omega
  case isFalse otherSign =>
    rw [product_of_otherSign otherSign, ← Nat.cast_mul]
    omega

theorem holds_mul_iff : Holds bits (left * right) ↔ MulFits bits left right := by
  rw [holds_mul_iff_limit]
  unfold MulFits
  cases Decidable.em (right = 0) with
  | inl zero => simp [zero]
  | inr nonzero =>
      have positive : 0 < right.natAbs := Int.natAbs_pos.mpr nonzero
      rw [Nat.le_div_iff_mul_le positive]
      simp [nonzero]

/-! ## Results at twice the width -/

theorem Holds.natAbs_le (holds : Holds bits value) : value.natAbs ≤ 2 ^ (bits - 1) := by
  have size : ((2 ^ (bits - 1) : Nat) : Int) = 2 ^ (bits - 1) := by norm_cast
  unfold Holds at holds
  omega

theorem Holds.add (leftHolds : Holds bits left) (rightHolds : Holds bits right)
    (positive : 0 < bits) : Holds (bits + 1) (left + right) := by
  have double : (2 : Int) ^ bits = 2 * 2 ^ (bits - 1) := by
    rw [← pow_succ', Nat.sub_add_cancel positive]
  unfold Holds at leftHolds rightHolds ⊢
  rw [Nat.add_sub_cancel, double]
  constructor <;> linarith [leftHolds.1, leftHolds.2, rightHolds.1, rightHolds.2]

theorem Holds.sub (leftHolds : Holds bits left) (rightHolds : Holds bits right)
    (positive : 0 < bits) : Holds (bits + 1) (left - right) := by
  have double : (2 : Int) ^ bits = 2 * 2 ^ (bits - 1) := by
    rw [← pow_succ', Nat.sub_add_cancel positive]
  unfold Holds at leftHolds rightHolds ⊢
  rw [Nat.add_sub_cancel, double]
  constructor <;> linarith [leftHolds.1, leftHolds.2, rightHolds.1, rightHolds.2]

theorem Holds.mul (leftHolds : Holds bits left) (rightHolds : Holds bits right)
    (positive : 0 < bits) : Holds (2 * bits) (left * right) := by
  have sizes : left.natAbs * right.natAbs ≤ 2 ^ (bits - 1) * 2 ^ (bits - 1) :=
    Nat.mul_le_mul leftHolds.natAbs_le rightHolds.natAbs_le
  have double : 2 ^ (2 * bits - 1) = 2 * (2 ^ (bits - 1) * 2 ^ (bits - 1)) := by
    rw [← pow_add, ← pow_succ']
    congr 1
    omega
  have square : 0 < 2 ^ (bits - 1) * 2 ^ (bits - 1) := by positivity
  rw [holds_mul_iff_limit]
  unfold productLimit
  split <;> omega

theorem holds_toInt (value : BitVec bits) : Holds bits value.toInt :=
  ⟨BitVec.le_toInt value, BitVec.toInt_lt⟩

end LeechJit.SignedRange
