import LeechJit.IR.Inst

/-! # Constructors of instructions

Operands come in through `addInput`, one after the other. Two classes get
operands later as well: a phi through `addNode`, a call through `appendArg`.
-/

namespace LeechJit.IR

/-- A call of a constructor. -/
inductive Construct where
  | constVal (val : ConstVal)
  | ifInstr (cond : InstId) (trueBB falseBB : BlockId)
  | jumpInstr (target : BlockId)
  | phi (type : ValueType)
  | unaryOp (oper : UnaryOp.Oper) (val : InstId)
  | binOp (oper : BinOp.Oper) (lhs rhs : InstId)
  | ret
  | retVal (toRet : InstId)
  | param (idx : Nat) (type : ValueType)
  | call (callee : FuncId)
  | cast (destT : ValueType) (srcV : InstId)
  deriving DecidableEq, Repr

namespace Construct

def kind : Construct → InstKind
  | constVal val => .kConst val
  | ifInstr _ trueBB falseBB => .kIf trueBB falseBB
  | jumpInstr target => .kJump target
  | phi _ => .kPhi []
  | unaryOp oper _ => .kUnaryOp oper
  | binOp oper _ _ => .kBinOp oper
  | ret | retVal _ => .kRet
  | param idx _ => .kParam idx
  | call callee => .kCall callee
  | cast _ _ => .kCast

def inputs : Construct → List InstId
  | ifInstr cond _ _ => [cond]
  | unaryOp _ val => [val]
  | binOp _ lhs rhs => [lhs, rhs]
  | retVal toRet => [toRet]
  | cast _ srcV => [srcV]
  | constVal _ | jumpInstr _ | phi _ | ret | param _ _ | call _ => []

/-- The type the constructor gives the new instruction. -/
def type (store : Store) : Construct → Result ValueType
  | constVal val => .ok val.type
  | phi type | param _ type => .ok type
  | unaryOp _ val => Inst.type <$> store.inst val
  | binOp _ _ rhs => Inst.type <$> store.inst rhs
  | cast destT _ => .ok destT
  | call callee =>
      match store.functions callee with
      | some func => .ok func.resType
      | none => .error .badPointer
  | ifInstr _ _ _ | jumpInstr _ | ret | retVal _ => .ok .None

end Construct

namespace Store

/-- The loop over the operands of a constructor. -/
def addInputs (id : InstId) : List InstId → Store → Result Store
  | [], store => .ok store
  | val :: rest, store => do
      let store ← store.addInput id val
      addInputs id rest store

/-- The operands have to exist before the instruction does. -/
def construct (store : Store) (new : Construct) : Result (InstId × Store) := do
  let type ← new.type store
  let _ ← new.inputs.mapM store.inst
  let store' ← addInputs store.nextInst new.inputs
    (store.newInst { type := type, kind := new.kind }).2
  return (store.nextInst, store')

/-- `Phi::addNode`. -/
def addNode (store : Store) (phi val : InstId) (bb : BlockId) : Result Store := do
  let inst ← store.inst phi
  match inst.kind with
  | .kPhi vars =>
      let store := store.setInst phi { inst with kind := .kPhi (vars ++ [⟨val, bb⟩]) }
      store.addInput phi val
  | _ => .error .badCast

/-- `Call::appendArg`. -/
def appendArg (store : Store) (call arg : InstId) : Result Store := do
  let inst ← store.inst call
  match inst.kind with
  | .kCall _ => store.addInput call arg
  | _ => .error .badCast

end Store

end LeechJit.IR
