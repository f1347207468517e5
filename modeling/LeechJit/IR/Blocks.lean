import LeechJit.IR.Construct

/-! # Blocks and functions

Putting instructions into blocks and moving them between blocks keeps the lists of
successors and predecessors up to date, with the last instruction of a block as
the guide.
-/

namespace LeechJit.IR

namespace Store

/-! ## Links -/

def linkBBs (store : Store) (pred succ : BlockId) : Result Store := do
  let block ← store.block pred
  let store := store.setBlock pred { block with succ := block.succ ++ [succ] }
  let block ← store.block succ
  return store.setBlock succ { block with pred := block.pred ++ [pred] }

def unlinkBBs (store : Store) (pred succ : BlockId) : Result Store := do
  let block ← store.block succ
  assert (pred ∈ block.pred)
  let store := store.setBlock succ { block with pred := block.pred.erase pred }
  let block ← store.block pred
  assert (succ ∈ block.succ)
  return store.setBlock pred { block with succ := block.succ.erase succ }

/-- The loop over `m_succ` in `updateLinks`, which shortens that vector as it goes:
the loop still reads the slots it had at its start, and an erasure moves the later
elements down and leaves the last slot as it was. -/
def unlinkSuccs (bb : BlockId) (slots : List BlockId) : Nat → Nat → Store → Result Store
  | _, 0, store => .ok store
  | idx, rounds + 1, store =>
      match slots[idx]? with
      | none => .error .badPointer
      | some succ => do
          let store ← store.unlinkBBs bb succ
          let block ← store.block bb
          unlinkSuccs bb (block.succ ++ slots.drop block.succ.length) (idx + 1) rounds store

/-- The successors a block has because of its last instruction. -/
def linkLast (store : Store) (bb : BlockId) (last : InstId) : Result Store := do
  let lastInsn ← store.inst last
  match lastInsn.kind with
  | .kIf trueBB falseBB => do
      let store ← store.linkBBs bb trueBB
      store.linkBBs bb falseBB
  | .kJump target => store.linkBBs bb target
  | _ => return store

def updateLinks (store : Store) (bb : BlockId) : Result Store := do
  let block ← store.block bb
  let store ← unlinkSuccs bb block.succ 0 block.succ.length store
  let block ← store.block bb
  assert (block.succ = [])
  match block.instructions.getLast? with
  | none => return store
  | some last => store.linkLast bb last

/-! ## Instructions in blocks -/

def setBB (store : Store) (bb : BlockId) (id : InstId) : Result Store := do
  let inst ← store.inst id
  return store.setInst id { inst with bb := some bb }

/-- `std::for_each` with `setBB`. -/
def setBBs (bb : BlockId) : List InstId → Store → Result Store
  | [], store => .ok store
  | id :: rest, store => do
      let store ← store.setBB bb id
      setBBs bb rest store

def pushInstFront (store : Store) (bb : BlockId) (new : Construct) :
    Result (InstId × Store) := do
  let (id, store) ← store.construct new
  let block ← store.block bb
  let store := store.setBlock bb { block with instructions := id :: block.instructions }
  let store ← store.setBB bb id
  return (id, store)

def pushInstBack (store : Store) (bb : BlockId) (new : Construct) :
    Result (InstId × Store) := do
  let (id, store) ← store.construct new
  let block ← store.block bb
  let store := store.setBlock bb { block with instructions := block.instructions ++ [id] }
  let store ← store.setBB bb id
  let store ← store.updateLinks bb
  return (id, store)

/-- The new instruction does not get the users of the old one, nor its block. -/
def replaceInstEmplace (store : Store) (bb : BlockId) (old : InstId) (new : Construct) :
    Result Store := do
  let block ← store.block bb
  let store ← store.eraseInst bb old
  let (id, store) ← store.construct new
  return store.setBlock bb { block with instructions := block.instructions.replace old id }

/-- A list around the range from `first` to `last`; `none` is the end of the list. -/
def segment (first last : Option InstId) (ids : List InstId) :
    Result (List InstId × List InstId × List InstId) :=
  let front := ids.takeWhile fun id => decide (some id ≠ first)
  let rest := ids.dropWhile fun id => decide (some id ≠ first)
  let moved := rest.takeWhile fun id => decide (some id ≠ last)
  let back := rest.dropWhile fun id => decide (some id ≠ last)
  if (first.isSome → rest ≠ []) ∧ (last.isSome → back ≠ []) then .ok (front, moved, back)
  else .error .badPointer

def insertBefore (pos : Option InstId) (moved ids : List InstId) : Result (List InstId) :=
  match pos with
  | none => .ok (ids ++ moved)
  | some id =>
      if id ∈ ids then .ok (ids.takeWhile (· ≠ id) ++ moved ++ ids.dropWhile (· ≠ id))
      else .error .badPointer

/-- `splice(pos, first, last)`, where `first` and `last` are in block `other`. -/
def splice (store : Store) (bb : BlockId) (pos : Option InstId) (other : BlockId)
    (first last : Option InstId) : Result Store := do
  let source ← store.block other
  let (front, moved, back) ← segment first last source.instructions
  let store ← setBBs bb moved store
  let store := store.setBlock other { source with instructions := front ++ back }
  let block ← store.block bb
  let instructions ← insertBefore pos moved block.instructions
  let store := store.setBlock bb { block with instructions := instructions }
  if pos = none then store.updateLinks bb else return store

/-- `splice(pos, other)`. -/
def spliceAll (store : Store) (bb : BlockId) (pos : Option InstId) (other : BlockId) :
    Result Store := do
  let source ← store.block other
  store.splice bb pos other source.instructions.head? none

/-! ## Blocks in functions -/

def function (store : Store) (func : FuncId) : Result Function :=
  match store.functions func with
  | some function => .ok function
  | none => .error .badPointer

theorem function_eq_ok {store : Store} {func : FuncId} {function : Function} :
    store.function func = .ok function ↔ store.functions func = some function := by
  cases found : store.functions func <;> simp [Store.function, found]

def setFunction (store : Store) (func : FuncId) (function : Function) : Store :=
  { store with functions := fun key =>
      if key = func then some function else store.functions key }

/-- Allocates a block. -/
def newBlock (store : Store) (block : BasicBlock) : BlockId × Store :=
  (store.nextBlock,
    { store.setBlock store.nextBlock block with nextBlock := store.nextBlock + 1 })

/-- The id behind that of the last block. -/
def nextId (store : Store) (bbs : List BlockId) : Result Nat :=
  match bbs.getLast? with
  | none => .ok 0
  | some last => do
      let block ← store.block last
      return block.id + 1

def appendBB (store : Store) (func : FuncId) : Result (BlockId × Store) := do
  let function ← store.function func
  let idx ← store.nextId function.bbs
  let (bb, store) := store.newBlock { id := idx }
  return (bb, store.setFunction func { function with bbs := function.bbs ++ [bb] })

/-- The block goes with the instructions that are still in it. -/
def eraseBB (store : Store) (func : FuncId) (toErase : BlockId) : Result Store := do
  let function ← store.function func
  let block ← store.block toErase
  if toErase ∈ function.bbs then
    let store := store.setFunction func { function with bbs := function.bbs.erase toErase }
    return { store with
      blocks := fun key => if key = toErase then none else store.blocks key
      insts := fun key => if key ∈ block.instructions then none else store.insts key }
  else .error .badPointer

/-- `Function::splice`: the blocks of `src` come before block `pos`. -/
def spliceBBs (store : Store) (func : FuncId) (pos : BlockId) (src : FuncId) : Result Store := do
  let source ← store.function src
  let store := store.setFunction src { source with bbs := [] }
  let function ← store.function func
  if pos ∈ function.bbs then
    let front := function.bbs.takeWhile (· ≠ pos)
    let back := function.bbs.dropWhile (· ≠ pos)
    return store.setFunction func { function with bbs := front ++ source.bbs ++ back }
  else .error .badPointer

end Store

end LeechJit.IR
