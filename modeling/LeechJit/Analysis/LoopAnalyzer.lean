import LeechJit.Graph.DomTree

/-! # The loop analyzer

The loops are kept in the order the analyzer allocates them, and a pointer to a
loop is its position.
-/

namespace LeechJit.Analysis

open LeechJit.Graph

abbrev LoopId := Nat

/-- `NodesToLoop`, in the order the keys were inserted. -/
abbrev NodesToLoop (Node : Type) := List (Node × LoopId)

inductive NodeOrLoop (Node : Type) where
  | node (node : Node)
  | loop (loop : LoopId)
  deriving DecidableEq, Repr

structure LoopInfo (Node : Type) where
  /-- The root loop has none. -/
  header : Option Node
  body : List (NodeOrLoop Node) := []
  backEdgesSrc : List Node := []
  inners : List LoopId := []
  outer : Option LoopId := none
  reducible : Bool := false
  root : Bool := false
  deriving DecidableEq, Repr

variable {Node : Type}

namespace LoopInfo

def addNode (info : LoopInfo Node) (node : Node) : LoopInfo Node :=
  { info with body := info.body ++ [.node node] }

def addBackEdge (info : LoopInfo Node) (node : Node) : LoopInfo Node :=
  { info with backEdgesSrc := info.backEdgesSrc ++ [node] }.addNode node

end LoopInfo

structure LoopAnalyzer (Node : Type) where
  nodesToLoop : NodesToLoop Node := []
  loops : List (LoopInfo Node) := []
  deriving DecidableEq, Repr

namespace LoopAnalyzer

def loop (analyzer : LoopAnalyzer Node) (id : LoopId) : Result (LoopInfo Node) :=
  match analyzer.loops[id]? with
  | some info => .ok info
  | none => .error .badPointer

def modifyLoop (analyzer : LoopAnalyzer Node) (id : LoopId)
    (change : LoopInfo Node → LoopInfo Node) : LoopAnalyzer Node :=
  { analyzer with loops := analyzer.loops.modify id change }

def emplaceLoop (analyzer : LoopAnalyzer Node) (info : LoopInfo Node) :
    LoopId × LoopAnalyzer Node :=
  (analyzer.loops.length, { analyzer with loops := analyzer.loops ++ [info] })

/-- `this->addInnerLoop(inner)`. -/
def addInnerLoop (analyzer : LoopAnalyzer Node) (this inner : LoopId) : LoopAnalyzer Node :=
  (analyzer.modifyLoop this fun info =>
      { info with inners := info.inners ++ [inner], body := info.body ++ [.loop inner] }).modifyLoop
    inner fun info => { info with outer := some this }

variable [DecidableEq Node]

def findLoop (analyzer : LoopAnalyzer Node) (node : Node) : Option LoopId :=
  analyzer.nodesToLoop.lookup node

/-- `unordered_map::emplace` of a node; a node that is present stays. -/
def emplaceNode (analyzer : LoopAnalyzer Node) (node : Node) (id : LoopId) :
    LoopAnalyzer Node :=
  match analyzer.findLoop node with
  | some _ => analyzer
  | none => { analyzer with nodesToLoop := analyzer.nodesToLoop ++ [(node, id)] }

/-! ## `LoopInfo::populate` -/

structure PopulateState (Node : Type) where
  analyzer : LoopAnalyzer Node
  toVisit : List (List Node × Node)
  visited : List Node

/-- What the search of `populate` does at the unvisited predecessor it found. -/
def linkNode (analyzer : LoopAnalyzer Node) (this : LoopId) (node : Node) :
    Result (LoopAnalyzer Node) :=
  match analyzer.findLoop node with
  | none =>
      .ok ((analyzer.emplaceNode node this).modifyLoop this fun info => info.addNode node)
  | some inner => do
      let info ← analyzer.loop inner
      if info.outer = none then return analyzer.addInnerLoop this inner
      else return analyzer

/-- One round of the DFS loop of `populate`. -/
def populateStep (graph : Graph Node) (this : LoopId) (header : Node)
    (state : PopulateState Node) : Result (PopulateState Node) :=
  match state.toVisit with
  | [] => .ok state
  | (first, child) :: stack =>
      match first.dropWhile fun node => decide (node = header ∨ node ∈ state.visited) with
      | [] => .ok { state with toVisit := stack }
      | unvisNode :: rest => do
          let analyzer ← state.analyzer.linkNode this unvisNode
          return {
            analyzer := analyzer
            toVisit := (graph.preds unvisNode, unvisNode) :: (rest, child) :: stack
            visited := unvisNode :: state.visited }

def populateLoop (graph : Graph Node) (this : LoopId) (header : Node) :
    Nat → PopulateState Node → Result (LoopAnalyzer Node)
  | 0, state => if state.toVisit.isEmpty then .ok state.analyzer else .error .diverges
  | fuel + 1, state =>
      if state.toVisit.isEmpty then .ok state.analyzer
      else do
        let state ← populateStep graph this header state
        populateLoop graph this header fuel state

def populate (analyzer : LoopAnalyzer Node) (graph : Graph Node) (this : LoopId) :
    Result (LoopAnalyzer Node) := do
  let info ← analyzer.loop this
  let analyzer := info.backEdgesSrc.foldl (fun analyzer backSrc =>
    analyzer.emplaceNode backSrc this) analyzer
  if info.reducible = false then return analyzer
  match info.header with
  | none => .error .badPointer
  | some header =>
      -- Each round visits a node or drops an entry of the stack.
      populateLoop graph this header (info.backEdgesSrc.length + 2 * graph.size)
        { analyzer := analyzer
          toVisit := info.backEdgesSrc.reverse.map fun src => (graph.preds src, src)
          visited := info.backEdgesSrc.reverse }

/-! ## The constructor -/

/-- What the visitor of `collectBackEdges` collects. -/
structure BackEdges (Node : Type) where
  analyzer : LoopAnalyzer Node := {}
  postOrder : List Node := []
  allNodes : List Node := []

def finishNode (state : BackEdges Node) (node : Node) : BackEdges Node :=
  if (state.analyzer.findLoop node).isSome then
    { state with postOrder := state.postOrder ++ [node] }
  else { state with allNodes := state.allNodes ++ [node] }

def backEdge (domTree : DominatorTree Node) (state : BackEdges Node) (src tar : Node) :
    Result (BackEdges Node) := do
  match state.analyzer.findLoop tar with
  | some loopId =>
      return { state with
        analyzer := state.analyzer.modifyLoop loopId fun info => info.addBackEdge src }
  | none =>
      let isReducible ← domTree.isDominator tar src
      let (loopId, analyzer) := state.analyzer.emplaceLoop
        { header := some tar, reducible := isReducible }
      return { state with
        analyzer := (analyzer.emplaceNode tar loopId).modifyLoop loopId fun info =>
          info.addBackEdge src }

def visitEvent (domTree : DominatorTree Node) (state : BackEdges Node) :
    Event Node → Result (BackEdges Node)
  | .discoverNode _ => .ok state
  | .finishNode node => .ok (finishNode state node)
  | .backEdge src tar => backEdge domTree state src tar

def collectBackEdges (graph : Graph Node) : Result (BackEdges Node) := do
  let domTree ← buildDomTree graph
  graph.depthFirstSearch.foldlM (visitEvent domTree) {}

/-- What the constructor does at one loop header. -/
def populateHeader (graph : Graph Node) (analyzer : LoopAnalyzer Node) (node : Node) :
    Result (LoopAnalyzer Node) :=
  match analyzer.findLoop node with
  | none => .error .assertFailed
  | some loopId => analyzer.populate graph loopId

/-- A node that is in no loop goes to the root loop. -/
def addFreeNode (rootLoop : LoopId) (analyzer : LoopAnalyzer Node) (node : Node) :
    LoopAnalyzer Node :=
  match analyzer.findLoop node with
  | some _ => analyzer
  | none =>
      (analyzer.emplaceNode node rootLoop).modifyLoop rootLoop fun info => info.addNode node

/-- And so does a loop that is in no other. -/
def addFreeLoop (rootLoop : LoopId) (analyzer : LoopAnalyzer Node) (loopId : LoopId) :
    Result (LoopAnalyzer Node) := do
  let info ← analyzer.loop loopId
  if loopId ≠ rootLoop ∧ info.outer = none then return analyzer.addInnerLoop rootLoop loopId
  else return analyzer

def make (graph : Graph Node) : Result (LoopAnalyzer Node) := do
  let edges ← collectBackEdges graph
  let analyzer ← edges.postOrder.foldlM (populateHeader graph) edges.analyzer
  if edges.allNodes.length + edges.postOrder.length = analyzer.nodesToLoop.length then
    return analyzer
  let (rootLoop, analyzer) := analyzer.emplaceLoop { header := none, root := true }
  let analyzer := edges.allNodes.foldl (addFreeNode rootLoop) analyzer
  (List.range analyzer.loops.length).foldlM (addFreeLoop rootLoop) analyzer

/-! ## Reading the loops -/

def getLoopInfo (analyzer : LoopAnalyzer Node) (node : Node) : Result (LoopInfo Node) :=
  match analyzer.findLoop node with
  | none => .error .assertFailed
  | some loopId => analyzer.loop loopId

omit [DecidableEq Node]

/-- `LoopInfo::getLinearOrder`. Loops nested deeper than there are loops contain
themselves. -/
def getLinearOrder (analyzer : LoopAnalyzer Node) : Nat → LoopInfo Node → Result (List Node)
  | 0, _ => .error .diverges
  | fuel + 1, info =>
      match info.header with
      | none => .error .badPointer
      | some header => do
          let parts ← info.body.reverse.mapM fun entry =>
            match entry with
            | .node node => .ok [node]
            | .loop loopId => do
                let inner ← analyzer.loop loopId
                analyzer.getLinearOrder fuel inner
          return header :: parts.flatten

/-- `LoopInfo::getLastBB`. -/
def getLastBB (analyzer : LoopAnalyzer Node) : Nat → LoopInfo Node → Result Node
  | 0, _ => .error .diverges
  | fuel + 1, info =>
      match info.body with
      | [] => .error .assertFailed
      | .node node :: _ => .ok node
      | .loop loopId :: _ => do
          let inner ← analyzer.loop loopId
          analyzer.getLastBB fuel inner

/-- The depth of nesting no chain of loops can exceed. -/
def depth (analyzer : LoopAnalyzer Node) : Nat :=
  analyzer.loops.length + 1

end LoopAnalyzer

end LeechJit.Analysis
