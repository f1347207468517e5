import Mathlib.Logic.Function.Basic

/-! # The intrusive list

`IListNode`, `IListSentinel`, `IListBase` and `IListImpl` over an explicit heap
of nodes. A node is named by its allocation, a null pointer is `none`, and an
operation returns `none` where the source aborts (`LJIT_ASSERT`) or follows a
null pointer. A list object is named by its sentinel; an iterator is the node
it points at.
-/

namespace LeechJit.IntrusiveList

/-- The links of every node, and the nodes handed to `AllocTraits::deallocate`
so far, oldest first. -/
structure Heap (Node : Type) where
  prev : Node → Option Node
  next : Node → Option Node
  deallocated : List Node

variable {Node : Type} [DecidableEq Node]

namespace Heap

def getPrev (heap : Heap Node) (node : Node) : Option Node := heap.prev node

def getNext (heap : Heap Node) (node : Node) : Option Node := heap.next node

def setPrev (heap : Heap Node) (node : Node) (prev : Option Node) : Heap Node :=
  { heap with prev := Function.update heap.prev node prev }

def setNext (heap : Heap Node) (node : Node) (next : Option Node) : Heap Node :=
  { heap with next := Function.update heap.next node next }

/-- `IListSentinel()`: an empty list's sentinel is linked to itself. -/
def sentinel (heap : Heap Node) (list : Node) : Heap Node :=
  (heap.setPrev list (some list)).setNext list (some list)

/-- `IListSentinel::empty`. -/
def empty (heap : Heap Node) (list : Node) : Bool :=
  heap.getPrev list = some list

end Heap

/-! ## `IListBase` -/

def insertBefore (heap : Heap Node) (point toInsert : Node) : Heap Node :=
  let prev := heap.getPrev point
  let heap := match prev with
    | some node => heap.setNext node (some toInsert)
    | none => heap
  let heap := heap.setPrev toInsert prev
  let heap := heap.setNext toInsert (some point)
  heap.setPrev point (some toInsert)

def unlink (heap : Heap Node) (toRemove : Node) : Option (Heap Node) := do
  let next ← heap.getNext toRemove
  let prev ← heap.getPrev toRemove
  let heap := heap.setPrev next (some prev)
  let heap := heap.setNext prev (some next)
  let heap := heap.setNext toRemove none
  return heap.setPrev toRemove none

def moveBefore (heap : Heap Node) (point first last : Node) :
    Option (Heap Node) := do
  -- Inserting the segment before its own first node would cut the list apart.
  if point = first then none
  else if last = point ∨ first = last then return heap
  else
    let lastToIns ← heap.getPrev last
    let preFirst ← heap.getPrev first
    let heap := heap.setPrev last (some preFirst)
    let heap := heap.setNext preFirst (some last)
    let prev ← heap.getPrev point
    let heap := heap.setPrev point (some lastToIns)
    let heap := heap.setNext prev (some first)
    let heap := heap.setNext lastToIns (some point)
    return heap.setPrev first (some prev)

/-! ## `IListImpl` -/

/-- `begin()`: the node behind the sentinel. -/
def front (heap : Heap Node) (list : Node) : Option Node := heap.getNext list

/-- `insert(pos, node)`; the position is any node of the list or its sentinel. -/
def insert (heap : Heap Node) (pos node : Node) : Heap Node :=
  insertBefore heap pos node

def pushBack (heap : Heap Node) (list node : Node) : Heap Node :=
  insert heap list node

/-- `remove(pos)`: unlinks the node and advances the iterator past it. -/
def remove (heap : Heap Node) (pos : Node) : Option (Heap Node × Node) := do
  let after ← heap.getNext pos
  let heap ← unlink heap pos
  return (heap, after)

def deallocate (heap : Heap Node) (node : Node) : Heap Node :=
  { heap with deallocated := heap.deallocated ++ [node] }

/-- `erase(pos)`; the source asserts that `pos` is not `end()`. -/
def erase (heap : Heap Node) (list pos : Node) : Option (Heap Node × Node) := do
  if pos = list then none
  else
    let (heap, after) ← remove heap pos
    return (deallocate heap pos, after)

/-- `erase(first, last)`, with a bound on the rounds of its loop. -/
def eraseRange (list last : Node) : Nat → Heap Node → Node → Option (Heap Node)
  | 0, _, _ => none
  | fuel + 1, heap, first =>
      if first = last then some heap
      else do
        let (heap, after) ← erase heap list first
        eraseRange list last fuel heap after

def clear (fuel : Nat) (heap : Heap Node) (list : Node) : Option (Heap Node) := do
  let first ← front heap list
  eraseRange list list fuel heap first

/-- `splice(pos, first, last)`. -/
def splice (heap : Heap Node) (pos first last : Node) : Option (Heap Node) :=
  moveBefore heap pos first last

/-- `splice(pos, it)`. -/
def spliceOne (heap : Heap Node) (pos it : Node) : Option (Heap Node) := do
  let after ← heap.getNext it
  splice heap pos it after

/-- `splice(pos, other)`. -/
def spliceAll (heap : Heap Node) (pos other : Node) : Option (Heap Node) := do
  let first ← front heap other
  splice heap pos first other

/-- `IListImpl(IListImpl &&that)`. -/
def moveConstruct (heap : Heap Node) (list that : Node) : Option (Heap Node) :=
  spliceAll (heap.sentinel list) list that

/-! ## Walking a list -/

/-- Follow `step` from `current` until `stop`, with a bound on the length. -/
def walk (step : Node → Option Node) (stop : Node) :
    Nat → Node → Option (List Node)
  | 0, _ => none
  | fuel + 1, current =>
      if current = stop then some []
      else do
        let after ← step current
        let rest ← walk step stop fuel after
        return current :: rest

/-- From `begin()` by `operator++` to `end()`. -/
def walkForward (fuel : Nat) (heap : Heap Node) (list : Node) :
    Option (List Node) := do
  let first ← heap.getNext list
  walk heap.getNext list fuel first

/-- From the last node by `operator--` to `end()`. -/
def walkBackward (fuel : Nat) (heap : Heap Node) (list : Node) :
    Option (List Node) := do
  let last ← heap.getPrev list
  walk heap.getPrev list fuel last

/-! ## Operations of a program with any number of lists -/

inductive Operation (Node : Type) where
  | construct (list : Node)
  | moveConstruct (list that : Node)
  | insert (list pos node : Node)
  | pushBack (list node : Node)
  | remove (list pos : Node)
  | erase (list pos : Node)
  | eraseRange (list first last : Node)
  | clear (list : Node)
  | splice (list pos other first last : Node)
  | spliceOne (list pos other it : Node)
  | spliceAll (list pos other : Node)
  deriving DecidableEq, Repr

def Operation.run (fuel : Nat) (heap : Heap Node) :
    Operation Node → Option (Heap Node)
  | .construct list => some (heap.sentinel list)
  | .moveConstruct list that => IntrusiveList.moveConstruct heap list that
  | .insert _ pos node => some (IntrusiveList.insert heap pos node)
  | .pushBack list node => some (IntrusiveList.pushBack heap list node)
  | .remove _ pos => (IntrusiveList.remove heap pos).map Prod.fst
  | .erase list pos => (IntrusiveList.erase heap list pos).map Prod.fst
  | .eraseRange list first last =>
      IntrusiveList.eraseRange list last fuel heap first
  | .clear list => IntrusiveList.clear fuel heap list
  | .splice _ pos _ first last => IntrusiveList.splice heap pos first last
  | .spliceOne _ pos _ it => IntrusiveList.spliceOne heap pos it
  | .spliceAll _ pos other => IntrusiveList.spliceAll heap pos other

/-- Run a program, one operation after the other. -/
def runAll (fuel : Nat) : Heap Node → List (Operation Node) → Option (Heap Node)
  | heap, [] => some heap
  | heap, operation :: rest => do
      let heap ← operation.run fuel heap
      runAll fuel heap rest

end LeechJit.IntrusiveList
