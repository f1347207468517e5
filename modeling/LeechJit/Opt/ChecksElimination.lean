import LeechJit.Graph.Dfs
import LeechJit.IR.Function

/-! # Elimination of checks

A users set is iterated in an order nobody knows; `order` gives the one it has. The
dominator tree answers for blocks.
-/

namespace LeechJit.Opt

open IR

namespace ChecksElimination

/-- `DominatorTree::isDominator` for instructions; `isDominatorBB` is that for blocks. -/
def isDominator (isDominatorBB : BlockId → BlockId → Bool) (store : Store) (dom node : InstId) :
    Result Bool :=
  if dom = node then return true
  else do
    let domInst ← store.inst dom
    let nodeInst ← store.inst node
    if domInst.bb = nodeInst.bb then
      match domInst.bb with
      | none => .error .assertFailed
      | some bb => do
          let block ← store.block bb
          return decide (node ∈ block.instructions.dropWhile (· ≠ dom))
    else do
      let domBB ← domInst.getBB
      let nodeBB ← nodeInst.getBB
      return isDominatorBB domBB nodeBB

/-- A check that `op` may be redundant to, among the users of its operand. -/
def zeroCheckUser (user : Inst) : Bool :=
  match user.kind with
  | .kUnaryOp .kZeroCheck => true
  | _ => false

def boundsCheckUser (bound : InstId) (user : Inst) : Result Bool :=
  match user.kind with
  | .kBinOp .kBoundsCheck => do
      let userBound ← user.inputAt 1
      return bound = userBound
  | _ => return false

/-- What is done to a check that another one dominates. -/
def eraseCheck (store : Store) (input op : InstId) : Result Store := do
  let store ← store.removeUser input op
  let inst ← store.inst op
  let bb ← inst.getBB
  store.eraseInst bb op

/-- The loop over the users of `input`. -/
def elimLoop (isDominatorBB : BlockId → BlockId → Bool) (isCheck : Inst → Result Bool)
    (input op : InstId) : List InstId → Store → Result Store
  | [], store => .ok store
  | user :: rest, store =>
      if op = user then elimLoop isDominatorBB isCheck input op rest store
      else do
        let inst ← store.inst user
        let check ← isCheck inst
        if check then
          let dominates ← isDominator isDominatorBB store user op
          if dominates then
            let store ← eraseCheck store input op
            elimLoop isDominatorBB isCheck input op rest store
          else elimLoop isDominatorBB isCheck input op rest store
        else elimLoop isDominatorBB isCheck input op rest store

variable (isDominatorBB : BlockId → BlockId → Bool) (order : Store → InstId → List InstId)

def zeroCheckElim (store : Store) (op : InstId) : Result Store := do
  let inst ← store.inst op
  let input ← inst.inputAt 0
  let _ ← store.inst input
  elimLoop isDominatorBB (fun user => .ok (zeroCheckUser user)) input op (order store input) store

def boundsCheckElim (store : Store) (op : InstId) : Result Store := do
  let inst ← store.inst op
  let input ← inst.inputAt 0
  let bound ← inst.inputAt 1
  let _ ← store.inst input
  elimLoop isDominatorBB (boundsCheckUser bound) input op (order store input) store

def elim (store : Store) (op : InstId) : Result Store := do
  let inst ← store.inst op
  match inst.kind with
  | .kBinOp .kBoundsCheck => boundsCheckElim isDominatorBB order store op
  | .kUnaryOp .kZeroCheck => zeroCheckElim isDominatorBB order store op
  | _ => return store

def isCandidate (store : Store) (id : InstId) : Result Bool := do
  let inst ← store.inst id
  match inst.kind with
  | .kUnaryOp .kZeroCheck => return true
  | .kBinOp .kBoundsCheck => return true
  | _ => return false

def fillCandidates (store : Store) (func : Function) : Result (List InstId) := do
  let graph ← store.makeBBGraph func
  store.collect (isCandidate store) graph.depthFirstSearchReversePostOrder

def run (store : Store) (func : Function) : Result Store := do
  let candidates ← fillCandidates store func
  candidates.foldlM (elim isDominatorBB order) store

end ChecksElimination

end LeechJit.Opt
