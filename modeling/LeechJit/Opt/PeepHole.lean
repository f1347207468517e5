import Mathlib.Data.List.Dedup
import LeechJit.Graph.Dfs
import LeechJit.IR.Construct
import LeechJit.IR.Function

/-! # Peephole rewriting

The answers of the rules, whether they have rewritten something, are used by
nobody and left out.
-/

namespace LeechJit.Opt

open IR

namespace PeepHole

/-- `checkForVal<val>`: the constant is read at the type of its instruction. -/
def checkForVal (val : Int) (inst : Inst) : Result Bool :=
  match inst.type, inst.kind with
  | .None, _ => .error .unreachable
  | .I1, .kConst (.I1 held) => .ok (held == decide (val ≠ 0))
  | .I8, .kConst (.I8 held) => .ok (held == BitVec.ofInt 8 val)
  | .I16, .kConst (.I16 held) => .ok (held == BitVec.ofInt 16 val)
  | .I32, .kConst (.I32 held) => .ok (held == BitVec.ofInt 32 val)
  | .I64, .kConst (.I64 held) => .ok (held == BitVec.ofInt 64 val)
  | _, _ => .error .badCast

/-- `getInstType() == InstType::kConst`. -/
def isConst (inst : Inst) : Bool :=
  match inst.kind with
  | .kConst _ => true
  | _ => false

/-- How a rule puts `value` in place of the operation `id`. -/
def takeOver (store : Store) (value id : InstId) : Result Store := do
  let store ← store.setUsersFrom value id
  removeInst store id

/-- Rule 0 of `doAdd`: `add v0, 0`. -/
def doAdd (store : Store) (id : InstId) : Result Store := do
  let add ← store.inst id
  let lval ← add.inputAt 0
  let rval ← add.inputAt 1
  let const ← store.inst rval
  if isConst const then
    if ← checkForVal 0 const then takeOver store lval id else return store
  else return store

/-- Rule 1 of `doShr`: the shift of a shift by constants. -/
def mergeShr (store : Store) (id fstShr rval : InstId) : Result Store := do
  let fst ← store.inst fstShr
  let fstShamt ← fst.inputAt 1
  if fst.users.dedup.length > 1 then return store
  let shamt ← store.inst fstShamt
  if isConst shamt then do
    let (newAdd, store) ← store.construct (.binOp .kAdd fstShamt rval)
    let left ← fst.inputAt 0
    let store ← store.setInput id 0 left
    let store ← store.setInput id 1 newAdd
    let store ← store.clearInputs fstShr
    let bb ← fst.getBB
    store.replaceInst bb fstShr newAdd
  else return store

def doShr (store : Store) (id : InstId) : Result Store := do
  let binop ← store.inst id
  let lval ← binop.inputAt 0
  let rval ← binop.inputAt 1
  let const ← store.inst rval
  if isConst const then
    if ← checkForVal 0 const then takeOver store lval id
    else do
      let fst ← store.inst lval
      if fst.kind = .kBinOp .kShr then mergeShr store id lval rval else return store
  else return store

/-- Rules 0 and 1 of `doOr`: `or v0, 0` and `or v0, -1`. -/
def doOr (store : Store) (id : InstId) : Result Store := do
  let binop ← store.inst id
  let lval ← binop.inputAt 0
  let rval ← binop.inputAt 1
  let const ← store.inst rval
  if isConst const then
    if ← checkForVal 0 const then takeOver store lval id
    else if ← checkForVal (-1) const then takeOver store rval id
    else return store
  else return store

/-- A constant goes to the right of another operand. -/
def moveConst (store : Store) (id : InstId) : Result Store := do
  let binop ← store.inst id
  let lhs ← store.inst (← binop.inputAt 0)
  let rhs ← store.inst (← binop.inputAt 1)
  if isConst lhs ∧ ¬ isConst rhs then store.swapInputs id 0 1 else return store

def doBinFold (store : Store) (id : InstId) (oper : BinOp.Oper) : Result Store := do
  let binop ← store.inst id
  if binop.users = [] then return store
  match oper with
  | .kAdd => do
      let store ← moveConst store id
      doAdd store id
  | .kShr => doShr store id
  | .kOr => do
      let store ← moveConst store id
      doOr store id
  | .kSub | .kMul | .kLE | .kEQ | .kDiv | .kBoundsCheck => return store

def foldable (store : Store) (id : InstId) : Result Bool := do
  let inst ← store.inst id
  match inst.kind with
  | .kBinOp _ => return true
  | _ => return false

/-- One round of the loop of `run`. -/
def fold (store : Store) (id : InstId) : Result Store := do
  let inst ← store.inst id
  match inst.kind with
  | .kBinOp oper => doBinFold store id oper
  | _ => .error .unreachable

def findCandidates (store : Store) (func : Function) : Result (List InstId) := do
  let graph ← store.makeBBGraph func
  store.collect (foldable store) graph.depthFirstSearchReversePostOrder

def run (store : Store) (func : Function) : Result Store := do
  let candidates ← findCandidates store func
  candidates.foldlM fold store

end PeepHole

end LeechJit.Opt
