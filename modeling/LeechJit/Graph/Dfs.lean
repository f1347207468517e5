import Mathlib.Logic.Function.Iterate
import LeechJit.Graph.GraphTraits

/-! # Depth-first search

`depthFirstSearch` with its explicit stack. A stack entry is the rest of a
node's successors together with the node; what the visitor is told is kept as a
list of events.
-/

namespace LeechJit.Graph

inductive DFSColor where
  | grey
  | black
  deriving DecidableEq, Repr

inductive Event (Node : Type) where
  | discoverNode (node : Node)
  | finishNode (node : Node)
  | backEdge (src tar : Node)
  deriving DecidableEq, Repr

structure DFSState (Node : Type) where
  visited : Node → Option DFSColor
  toVisit : List (List Node × Node)
  events : List (Event Node)

variable {Node : Type}

/-- The `find_if` over the successors still to scan: the back edges it reports,
and the first node not visited yet with the successors behind it. -/
def findUnvisited (visited : Node → Option DFSColor) (parent : Node) :
    List Node → List (Event Node) × Option (Node × List Node)
  | [] => ([], none)
  | succ :: rest =>
      match visited succ with
      | none => ([], some (succ, rest))
      | some .grey =>
          let (events, found) := findUnvisited visited parent rest
          (.backEdge parent succ :: events, found)
      | some .black => findUnvisited visited parent rest

variable [DecidableEq Node]

def visitNode (graph : Graph Node) (state : DFSState Node) (node : Node) : DFSState Node :=
  { visited := Function.update state.visited node (some .grey)
    toVisit := (graph.succs node, node) :: state.toVisit
    events := state.events ++ [.discoverNode node] }

/-- One round of the `while` loop. -/
def dfsStep (graph : Graph Node) (state : DFSState Node) : DFSState Node :=
  match state.toVisit with
  | [] => state
  | (first, parent) :: stack =>
      match findUnvisited state.visited parent first with
      | (events, none) =>
          { visited := Function.update state.visited parent (some .black)
            toVisit := stack
            events := state.events ++ events ++ [.finishNode parent] }
      | (events, some (node, rest)) =>
          visitNode graph
            { state with
              toVisit := (rest, parent) :: stack
              events := state.events ++ events } node

def dfsStart (graph : Graph Node) : DFSState Node :=
  visitNode graph { visited := fun _ => none, toVisit := [], events := [] } graph.entryPoint

/-- Each round discovers a node or finishes one, so the loop has ended after
twice as many rounds as there are nodes. -/
def dfsRun (graph : Graph Node) : DFSState Node :=
  (dfsStep graph)^[2 * graph.size] (dfsStart graph)

def depthFirstSearch (graph : Graph Node) : List (Event Node) :=
  (dfsRun graph).events

def Event.discovered? : Event Node → Option Node
  | .discoverNode node => some node
  | _ => none

def Event.finished? : Event Node → Option Node
  | .finishNode node => some node
  | _ => none

def depthFirstSearchPreOrder (graph : Graph Node) : List Node :=
  (depthFirstSearch graph).filterMap Event.discovered?

def depthFirstSearchPostOrder (graph : Graph Node) : List Node :=
  (depthFirstSearch graph).filterMap Event.finished?

def depthFirstSearchReversePostOrder (graph : Graph Node) : List Node :=
  (depthFirstSearchPostOrder graph).reverse

end LeechJit.Graph
