import LeechJit.Common

/-! # Instructions and the store that holds them

Instructions, blocks and functions refer to each other by pointer; here a
pointer is a key of the store. Every `Value` of the source is an instruction.
-/

namespace LeechJit.IR

abbrev InstId := Nat
abbrev BlockId := Nat
abbrev FuncId := Nat

/-- `Type`. -/
inductive ValueType where
  | None
  | I1
  | I8
  | I16
  | I32
  | I64
  deriving DecidableEq, Repr

/-- The value of a `ConstVal`, at one of the five types that have constants. -/
inductive ConstVal where
  | I1 (val : Bool)
  | I8 (val : BitVec 8)
  | I16 (val : BitVec 16)
  | I32 (val : BitVec 32)
  | I64 (val : BitVec 64)
  deriving DecidableEq, Repr

def ConstVal.type : ConstVal → ValueType
  | .I1 _ => .I1
  | .I8 _ => .I8
  | .I16 _ => .I16
  | .I32 _ => .I32
  | .I64 _ => .I64

namespace BinOp

inductive Oper where
  | kAdd
  | kSub
  | kMul
  | kDiv
  | kLE
  | kEQ
  | kShr
  | kOr
  | kBoundsCheck
  deriving DecidableEq, Repr

end BinOp

namespace UnaryOp

inductive Oper where
  | kZeroCheck
  deriving DecidableEq, Repr

end UnaryOp

structure PhiEntry where
  val : InstId
  bb : BlockId
  deriving DecidableEq, Repr

/-- The class of an instruction with the fields of that class. -/
inductive InstKind where
  | kIf (trueBB falseBB : BlockId)
  | kConst (val : ConstVal)
  | kJump (target : BlockId)
  | kBinOp (oper : BinOp.Oper)
  | kRet
  | kCast
  | kPhi (vars : List PhiEntry)
  | kCall (callee : FuncId)
  | kParam (idx : Nat)
  | kUnaryOp (oper : UnaryOp.Oper)
  deriving DecidableEq, Repr

structure Inst where
  type : ValueType := .None
  kind : InstKind
  /-- A set without order. -/
  users : List InstId := []
  bb : Option BlockId := none
  inputs : List InstId := []
  deriving DecidableEq, Repr

def Inst.inputAt (inst : Inst) (idx : Nat) : Result InstId :=
  match inst.inputs[idx]? with
  | some input => .ok input
  | none => .error .assertFailed

def Inst.dropUser (inst : Inst) (user : InstId) : Inst :=
  { inst with users := inst.users.filter (· ≠ user) }

/-- `std::replace` over the inputs. -/
def Inst.replaceInput (inst : Inst) (other this : InstId) : Inst :=
  { inst with inputs := inst.inputs.map fun input => if input = other then this else input }

def producesValue : InstKind → Bool
  | .kConst _ | .kBinOp _ | .kUnaryOp _ | .kCast | .kPhi _ | .kCall _ | .kParam _ => true
  | .kJump _ | .kRet | .kIf _ _ => false

def InstKind.isPhi : InstKind → Bool
  | .kPhi _ => true
  | _ => false

theorem Inst.not_phi {inst : Inst} {oper : BinOp.Oper} (kind : inst.kind = .kBinOp oper) :
    inst.kind.isPhi = false := by
  rw [kind]
  rfl

structure BasicBlock where
  instructions : List InstId := []
  pred : List BlockId := []
  succ : List BlockId := []
  id : Nat := 0
  deriving DecidableEq, Repr

structure Function where
  bbs : List BlockId := []
  resType : ValueType := .None
  args : List ValueType := []
  deriving DecidableEq, Repr

/-! ## The store -/

structure Store where
  insts : InstId → Option Inst
  blocks : BlockId → Option BasicBlock
  functions : FuncId → Option Function
  /-- Keys from here on are free. -/
  nextInst : InstId
  nextBlock : BlockId

namespace Store

def inst (store : Store) (id : InstId) : Result Inst :=
  match store.insts id with
  | some inst => .ok inst
  | none => .error .badPointer

def block (store : Store) (id : BlockId) : Result BasicBlock :=
  match store.blocks id with
  | some block => .ok block
  | none => .error .badPointer

def setInst (store : Store) (id : InstId) (inst : Inst) : Store :=
  { store with insts := fun key => if key = id then some inst else store.insts key }

def setBlock (store : Store) (id : BlockId) (block : BasicBlock) : Store :=
  { store with blocks := fun key => if key = id then some block else store.blocks key }

/-- Allocates an instruction. -/
def newInst (store : Store) (inst : Inst) : InstId × Store :=
  (store.nextInst, { store.setInst store.nextInst inst with nextInst := store.nextInst + 1 })

def removeUser (store : Store) (value user : InstId) : Result Store := do
  let inst ← store.inst value
  return store.setInst value (inst.dropUser user)

def addUser (store : Store) (value user : InstId) : Result Store := do
  let inst ← store.inst value
  return store.setInst value { inst with users := inst.users.insert user }

/-! ## Operations of `Inst` and `Value` -/

def addInput (store : Store) (id val : InstId) : Result Store := do
  let store ← store.addUser val id
  let inst ← store.inst id
  return store.setInst id { inst with inputs := inst.inputs ++ [val] }

def setInput (store : Store) (id : InstId) (idx : Nat) (newInput : InstId) :
    Result Store := do
  let inst ← store.inst id
  let inp ← inst.inputAt idx
  let store ← if inst.inputs.count inp = 1 then store.removeUser inp id else .ok store
  let inst ← store.inst id
  let store := store.setInst id { inst with inputs := inst.inputs.set idx newInput }
  store.addUser newInput id

/-- The loop of `clearInputs`. -/
def clearUses (id : InstId) : List InstId → Store → Result Store
  | [], store => .ok store
  | input :: rest, store => do
      let inst ← store.inst input
      assert (id ∈ inst.users)
      let store ← store.removeUser input id
      clearUses id rest store

def clearInputs (store : Store) (id : InstId) : Result Store := do
  let inst ← store.inst id
  let store ← clearUses id inst.inputs store
  let inst ← store.inst id
  return store.setInst id { inst with inputs := [] }

def swapInputs (store : Store) (id : InstId) (lhs rhs : Nat) : Result Store := do
  let inst ← store.inst id
  let left ← inst.inputAt lhs
  let right ← inst.inputAt rhs
  return store.setInst id { inst with inputs := (inst.inputs.set lhs right).set rhs left }

/-- The loop of `setUsersFrom`. -/
def replaceInputs (other this : InstId) : List InstId → Store → Result Store
  | [], store => .ok store
  | user :: rest, store => do
      let inst ← store.inst user
      replaceInputs other this rest (store.setInst user (inst.replaceInput other this))

/-- `this->setUsersFrom(other)`. -/
def setUsersFrom (store : Store) (this other : InstId) : Result Store := do
  let thisInst ← store.inst this
  let otherInst ← store.inst other
  let merged := thisInst.users ++ otherInst.users.filter (· ∉ thisInst.users)
  let store := store.setInst this { thisInst with users := merged }
  let otherInst ← store.inst other
  let store := store.setInst other { otherInst with users := [] }
  let thisInst ← store.inst this
  replaceInputs other this thisInst.users store

/-! ## Operations of `BasicBlock` -/

/-- `eraseInst`: the instruction leaves the list and is deallocated. -/
def eraseInst (store : Store) (bb : BlockId) (id : InstId) : Result Store := do
  let block ← store.block bb
  if id ∈ block.instructions then
    let store := store.setBlock bb { block with instructions := block.instructions.erase id }
    return { store with insts := fun key => if key = id then none else store.insts key }
  else .error .badPointer

def replaceInst (store : Store) (bb : BlockId) (old newInst : InstId) : Result Store := do
  let store ← store.setUsersFrom newInst old
  let block ← store.block bb
  if old ∈ block.instructions then
    let store := store.setBlock bb
      { block with instructions := block.instructions.replace old newInst }
    return { store with insts := fun key => if key = old then none else store.insts key }
  else .error .badPointer

/-- `tryRetrieveConst`, with the constant itself. -/
def tryRetrieveConst (store : Store) (val : InstId) : Result (Option ConstVal) := do
  let inst ← store.inst val
  match inst.kind with
  | .kConst val => return some val
  | _ => return none

end Store

/-- `getBB()` where the source follows the pointer at once. -/
def Inst.getBB (inst : Inst) : Result BlockId :=
  match inst.bb with
  | some bb => .ok bb
  | none => .error .badPointer

/-- `removeInst`. -/
def removeInst (store : Store) (id : InstId) : Result Store := do
  let store ← store.clearInputs id
  let inst ← store.inst id
  let bb ← inst.getBB
  store.eraseInst bb id

end LeechJit.IR
