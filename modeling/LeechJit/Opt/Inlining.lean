import LeechJit.Graph.Dfs
import LeechJit.IR.Blocks
import LeechJit.IR.Function

/-! # Inlining

A call is replaced by the blocks of its callee, which the callee loses.
-/

namespace LeechJit.Opt

open IR

namespace Inlining

/-! ## What is inlined -/

def isCall (store : Store) (id : InstId) : Result Bool := do
  let inst ← store.inst id
  match inst.kind with
  | .kCall _ => return true
  | _ => return false

def fillCandidates (store : Store) (func : FuncId) : Result (List InstId) := do
  let function ← store.function func
  let graph ← store.makeBBGraph function
  store.collect (isCall store) graph.depthFirstSearchReversePostOrder

def getCallee (call : Inst) : Result FuncId :=
  match call.kind with
  | .kCall callee => .ok callee
  | _ => .error .badCast

/-- `std::equal` over the types of the operands; lists of two lengths are not compared. -/
def equalTypes (store : Store) : List InstId → List ValueType → Result Bool
  | [], [] => .ok true
  | val :: vals, tpy :: tpys => do
      let inst ← store.inst val
      if inst.type = tpy then equalTypes store vals tpys else return false
  | _, _ => .ok false

/-- `Call::verify`. -/
def verify (store : Store) (call : Inst) : Result Bool := do
  let callee ← getCallee call
  let function ← store.function callee
  if function.resType ≠ call.type then return false
  if call.inputs.length ≠ function.args.length then return false
  equalTypes store call.inputs function.args

/-! ## The steps of `doInline` -/

/-- `std::next` of an instruction; `none` is the end of the list. -/
def nextInst (store : Store) (bb : BlockId) (inst : InstId) : Result (Option InstId) := do
  let block ← store.block bb
  match block.instructions.dropWhile (· ≠ inst) with
  | [] => .error .badPointer
  | _ :: rest => return rest.head?

def splitBBAfter (store : Store) (func : FuncId) (inst : InstId) : Result (BlockId × Store) := do
  let (newBB, store) ← store.appendBB func
  let bb ← (← store.inst inst).getBB
  let pivot ← nextInst store bb inst
  let store ← store.splice newBB none bb pivot none
  return (newBB, store)

def isParam (store : Store) (id : InstId) : Result Bool := do
  let inst ← store.inst id
  match inst.kind with
  | .kParam _ => return true
  | _ => return false

/-- The loop of `adjustInputs`, at operand `idx` of the call. -/
def adjustParams (firstBB : BlockId) (call : InstId) : Nat → List InstId → Store → Result Store
  | _, [], store => .ok store
  | idx, param :: params, store => do
      let inst ← store.inst call
      match inst.inputs[idx]? with
      | none => return store
      | some input => do
          -- Instructions in callee function should use origins of parameters
          let store ← store.setUsersFrom input param
          let store ← store.eraseInst firstBB param
          adjustParams firstBB call (idx + 1) params store

/-- `makeBBGraph().getRoot()`. -/
def rootBB (store : Store) (func : FuncId) : Result BlockId := do
  let function ← store.function func
  let graph ← store.makeBBGraph function
  return graph.entryPoint

def adjustInputs (store : Store) (call : InstId) (callee : FuncId) : Result Store := do
  let firstBB ← rootBB store callee
  let block ← store.block firstBB
  let params ← Store.copyIf (isParam store) block.instructions
  adjustParams firstBB call 0 params store

/-- The returns at the end of the blocks. -/
def collectRets (store : Store) : List BlockId → Result (List InstId)
  | [] => .ok []
  | bb :: rest => do
      let block ← store.block bb
      match block.instructions.getLast? with
      | none => .error .assertFailed
      | some last => do
          let inst ← store.inst last
          let rets ← collectRets store rest
          return if inst.kind = .kRet then last :: rets else rets

/-- The value of each return is one operand of the phi. -/
def addRets (phi : InstId) : List InstId → Store → Result Store
  | [], store => .ok store
  | ret :: rest, store => do
      let inst ← store.inst ret
      let val ← inst.inputAt 0
      let bb ← inst.getBB
      let store ← store.addNode phi val bb
      addRets phi rest store

/-- Replace return w/ jmp -/
def replaceRets (afterCallBB : BlockId) : List InstId → Store → Result Store
  | [], store => .ok store
  | ret :: rest, store => do
      let inst ← store.inst ret
      let bb ← inst.getBB
      let store ← store.eraseInst bb ret
      let (_, store) ← store.pushInstBack bb (.jumpInstr afterCallBB)
      replaceRets afterCallBB rest store

/-- What the users of the call use instead. -/
def mergeRets (store : Store) (call : InstId) (resType : ValueType) (afterCallBB : BlockId)
    (rets : List InstId) : Result Store :=
  match rets with
  | [ret] => do
      let inst ← store.inst ret
      let retVal ← inst.inputAt 0
      store.setUsersFrom retVal call
  | rets => do
      let (phi, store) ← store.pushInstFront afterCallBB (.phi resType)
      let store ← addRets phi rets store
      store.setUsersFrom phi call

def adjustOutputs (store : Store) (call : InstId) (callee : FuncId) (afterCallBB : BlockId) :
    Result Store := do
  let function ← store.function callee
  if function.resType = .None then return store
  let graph ← store.makeBBGraph function
  let rets ← collectRets store graph.depthFirstSearchPreOrder
  let store ← mergeRets store call function.resType afterCallBB rets
  replaceRets afterCallBB rets store

/-- The first block of the callee becomes the end of the block with the call. -/
def absorbFirstBB (store : Store) (bb : BlockId) (callee : FuncId) : Result Store := do
  let calleeFstBB ← rootBB store callee
  let store ← store.spliceAll bb none calleeFstBB
  store.eraseBB callee calleeFstBB

def doInline (func : FuncId) (store : Store) (call : InstId) : Result Store := do
  let inst ← store.inst call
  let verified ← verify store inst
  assert (verified = true)
  let bb ← inst.getBB
  let callee ← getCallee inst
  let (afterCallBB, store) ← splitBBAfter store func call
  let store ← adjustInputs store call callee
  let store ← adjustOutputs store call callee afterCallBB
  let store ← absorbFirstBB store bb callee
  -- Remove call instruction from caller BB
  let store ← store.eraseInst bb call
  -- Inline function into caller graph
  store.spliceBBs func afterCallBB callee

def run (store : Store) (func : FuncId) : Result Store := do
  let candidates ← fillCandidates store func
  candidates.foldlM (doInline func) store

end Inlining

end LeechJit.Opt
