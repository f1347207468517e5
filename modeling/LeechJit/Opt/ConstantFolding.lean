import Mathlib.Algebra.Ring.Int.Defs
import LeechJit.Graph.Dfs
import LeechJit.IR.Function

/-! # Constant folding -/

namespace LeechJit.Opt

open IR

/-! ## Evaluation of operators

Operands narrower than `int` are promoted to it; overflow of the promoted type
is undefined behaviour.
-/

namespace ConstantFolding

/-- The result of signed arithmetic at the promoted width, cast back. -/
def arithmetic (width : Nat) (result : Int) : Result (BitVec width) :=
  let promoted := max width 32
  if -(2 ^ (promoted - 1) : Int) ≤ result ∧ result < 2 ^ (promoted - 1) then
    .ok (BitVec.ofInt width result)
  else .error .signedOverflow

def shiftAmountMessage (amount : String) (width : Nat) : String :=
  "Shift amount (which is " ++ amount ++ ") exceeds the width of type (" ++
    toString width ++ ")"

/-- `binEval` at the integer types; `shown` is how a stream prints the type. -/
def binEvalInt {width : Nat} (shown : BitVec width → String) (oper : BinOp.Oper)
    (lval rval : BitVec width) : Result (BitVec width) :=
  match oper with
  | .kAdd => arithmetic width (lval.toInt + rval.toInt)
  | .kSub => arithmetic width (lval.toInt - rval.toInt)
  | .kMul => arithmetic width (lval.toInt * rval.toInt)
  | .kLE => .ok (if lval.toInt < rval.toInt then 1 else 0)
  | .kEQ => .ok (if lval = rval then 1 else 0)
  | .kShr =>
      -- `std::numeric_limits<T>::digits` leaves the sign bit out.
      let kWidth := width - 1
      if rval.toInt ≥ kWidth then
        .error (.arithmeticError (shiftAmountMessage (shown rval) kWidth))
      else if rval.toInt < 0 then .error (.arithmeticError "Shamt is negative")
      else .ok (lval.sshiftRight rval.toNat)
  | .kOr => .ok (lval ||| rval)
  | .kBoundsCheck | .kDiv => .error .unreachable

/-- `binEval<bool>`: the operands are promoted to `int`, the result is cast back. -/
def binEvalBool (oper : BinOp.Oper) (lval rval : Bool) : Result Bool :=
  match oper with
  | .kAdd => .ok (decide (lval.toInt + rval.toInt ≠ 0))
  | .kSub => .ok (decide (lval.toInt - rval.toInt ≠ 0))
  | .kMul => .ok (lval && rval)
  | .kLE => .ok (decide (lval.toInt < rval.toInt))
  | .kEQ => .ok (decide (lval = rval))
  | .kShr =>
      if rval.toInt ≥ 1 then .error (.arithmeticError (shiftAmountMessage "1" 1))
      else .ok (decide (lval.toNat >>> rval.toNat ≠ 0))
  | .kOr => .ok (decide (lval.toNat ||| rval.toNat ≠ 0))
  | .kBoundsCheck | .kDiv => .error .unreachable

/-- An `int8_t` is printed as a character. -/
def showByte (val : BitVec 8) : String := String.singleton (Char.ofNat val.toNat)

def showInt {width : Nat} (val : BitVec width) : String := toString val.toInt

def binEval (oper : BinOp.Oper) (lval rval : ConstVal) : Result ConstVal :=
  match lval, rval with
  | .I1 lval, .I1 rval => ConstVal.I1 <$> binEvalBool oper lval rval
  | .I8 lval, .I8 rval => ConstVal.I8 <$> binEvalInt showByte oper lval rval
  | .I16 lval, .I16 rval => ConstVal.I16 <$> binEvalInt showInt oper lval rval
  | .I32 lval, .I32 rval => ConstVal.I32 <$> binEvalInt showInt oper lval rval
  | .I64 lval, .I64 rval => ConstVal.I64 <$> binEvalInt showInt oper lval rval
  -- `LJIT_ASSERT(lval->getType() == rval->getType())`
  | _, _ => .error .assertFailed

/-- `castEval`: the constant is read at the type it is cast to. -/
def castEval (type : ValueType) (val : ConstVal) : Result ConstVal :=
  if type = .None then .error .unreachable
  else if val.type = type then .ok val
  else .error .badCast

/-! ## The pass -/

def foldable (store : Store) (id : InstId) : Result Bool := do
  let inst ← store.inst id
  match inst.kind with
  | .kBinOp _ => do
      let lhs ← store.tryRetrieveConst (← inst.inputAt 0)
      if lhs.isNone then return false
      let rhs ← store.tryRetrieveConst (← inst.inputAt 1)
      return rhs.isSome
  | .kCast => do
      let src ← store.tryRetrieveConst (← inst.inputAt 0)
      return src.isSome
  | _ => return false

/-- `static_cast<const ConstVal<T> *>` after the check that it is a constant. -/
def getConst (store : Store) (id : InstId) : Result ConstVal := do
  match ← store.tryRetrieveConst id with
  | some val => return val
  | none => .error .assertFailed

def fold (store : Store) (id : InstId) : Result ConstVal := do
  let inst ← store.inst id
  match inst.kind with
  | .kBinOp oper => do
      let lval ← getConst store (← inst.inputAt 0)
      let rval ← getConst store (← inst.inputAt 1)
      binEval oper lval rval
  | .kCast => do
      let srcV ← getConst store (← inst.inputAt 0)
      castEval inst.type srcV
  | _ => .error .unreachable

def findFoldable (store : Store) (func : Function) : Result (List InstId) := do
  let graph ← store.makeBBGraph func
  store.collect (foldable store) graph.depthFirstSearchReversePostOrder

/-- One round of the loop of `run`. -/
def foldInst (store : Store) (id : InstId) : Result Store := do
  let val ← fold store id
  let inst ← store.inst id
  let (newInst, store) := store.newInst { type := val.type, kind := .kConst val }
  let store ← store.clearInputs id
  let bb ← inst.getBB
  store.replaceInst bb id newInst

def run (store : Store) (func : Function) : Result Store := do
  let toFold ← findFoldable store func
  toFold.foldlM foldInst store

end ConstantFolding

end LeechJit.Opt
