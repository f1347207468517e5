import LeechJit.Graph.Dfs
import LeechJit.Graph.Dsu

/-! # The dominator tree -/

namespace LeechJit.Graph

variable {Node : Type}

/-- The map from the id of a node to the nodes it immediately dominates. -/
structure DominatorTree (Node : Type) where
  id : Node → NodeId
  tree : FromIdMap (List Node)
  /-- No search meets more nodes. -/
  size : Nat

namespace DominatorTree

variable [DecidableEq Node]

/-- The loop of `isDominator` with the stack of ids still to visit. -/
def searchDommed (tree : DominatorTree Node) (node : Node) : Nat → List NodeId → Result Bool
  | _, [] => .ok false
  | 0, _ :: _ => .error .diverges
  | fuel + 1, id :: toVisit =>
      match tree.tree id with
      | none => searchDommed tree node fuel toVisit
      | some idommed =>
          if node ∈ idommed then .ok true
          else searchDommed tree node fuel ((idommed.map tree.id).reverse ++ toVisit)

def isDominator (tree : DominatorTree Node) (dom node : Node) : Result Bool :=
  if node = dom then .ok true
  else tree.searchDommed node tree.size [tree.id dom]

/-- `try_emplace` of the dominator, then `addDommed`. -/
def addDommed (tree : DominatorTree Node) (idom node : Node) : DominatorTree Node :=
  let idommed := (tree.tree (tree.id idom)).getD []
  { tree with tree := tree.tree.insert (tree.id idom) (idommed ++ [node]) }

end DominatorTree

/-! ## The builder -/

/-- The builder's maps, with the disjoint sets `calcSdoms` works on. -/
structure DomTreeBuilder (Node : Type) where
  dfsTimes : FromDFSTimeMap Node := []
  revIdMap : FromIdMap DFSTime := fun _ => none
  dfsParents : FromIdMap Node := fun _ => none
  sdoms : FromDFSTimeMap DFSTime
  idoms : FromDFSTimeMap DFSTime
  sdommed : NodeId → List Node := fun _ => []
  dsu : DSU Node := { parents := [], labels := [] }

/-- Writes through `operator[]`. -/
def FromDFSTimeMap.write {α : Type} (map : FromDFSTimeMap α) (time : DFSTime) (value : α) :
    Result (FromDFSTimeMap α) := do
  let _ ← FromDFSTimeMap.at map time
  return map.set time value

namespace DomTreeBuilder

variable (graph : Graph Node)

/-- One call of the visitor of `doDFS`; `prev` is the node it was called on before. -/
def visitNode (builder : DomTreeBuilder Node) (prev node : Node) :
    Result (DomTreeBuilder Node) := do
  let dfsTime := builder.dfsTimes.length
  let nodeId := graph.id node
  let sdoms ← FromDFSTimeMap.write builder.sdoms dfsTime dfsTime
  let idoms ← FromDFSTimeMap.write builder.idoms dfsTime dfsTime
  return { builder with
    dfsTimes := builder.dfsTimes ++ [node]
    revIdMap := builder.revIdMap.insert nodeId dfsTime
    sdoms := sdoms
    idoms := idoms
    dfsParents := builder.dfsParents.insert nodeId prev }

def visitNodes : DomTreeBuilder Node → Node → List Node → Result (DomTreeBuilder Node)
  | builder, _, [] => .ok builder
  | builder, prev, node :: rest => do
      let builder ← builder.visitNode graph prev node
      visitNodes builder node rest

/-- `m_revIdMap[id(node)]`. -/
def timeOf (builder : DomTreeBuilder Node) (node : Node) : DFSTime :=
  (builder.revIdMap (graph.id node)).getD 0

def context (builder : DomTreeBuilder Node) : DSUContext Node :=
  { id := graph.id, sdoms := builder.sdoms, rev := builder.revIdMap }

variable [DecidableEq Node]

def doDFS (builder : DomTreeBuilder Node) : Result (DomTreeBuilder Node) :=
  builder.visitNodes graph graph.entryPoint graph.depthFirstSearchPreOrder

def find (builder : DomTreeBuilder Node) (node : Node) :
    Result (Node × DomTreeBuilder Node) := do
  let (found, dsu) ← DSU.find (builder.context graph) builder.dfsTimes.length builder.dsu node
  return (found, { builder with dsu := dsu })

/-- What `findMinSdom` does at one predecessor. -/
def lowerSdom (dfsTime : DFSTime) (builder : DomTreeBuilder Node) (pred : Node) :
    Result (DomTreeBuilder Node) := do
  let (found, builder) ← builder.find graph pred
  let tm := builder.timeOf graph found
  let sdom ← FromDFSTimeMap.at builder.sdoms dfsTime
  let other ← FromDFSTimeMap.at builder.sdoms tm
  let sdoms ← FromDFSTimeMap.write builder.sdoms dfsTime (min sdom other)
  return { builder with sdoms := sdoms }

def findMinSdom (builder : DomTreeBuilder Node) (node : Node) :
    Result (DFSTime × DomTreeBuilder Node) := do
  let dfsTime := builder.timeOf graph node
  let builder ← (graph.preds node).foldlM (lowerSdom graph dfsTime) builder
  return (← FromDFSTimeMap.at builder.sdoms dfsTime, builder)

/-- What `fillIdoms` does at one node of the bucket. -/
def fillIdom (builder : DomTreeBuilder Node) (dominatee : Node) :
    Result (DomTreeBuilder Node) := do
  let (minSdom, builder) ← builder.find graph dominatee
  let dominateeTime := builder.timeOf graph dominatee
  let minSdomTime := builder.timeOf graph minSdom
  let dominateeSdomTime ← FromDFSTimeMap.at builder.sdoms dominateeTime
  let minSdomSdomTime ← FromDFSTimeMap.at builder.sdoms minSdomTime
  let idom := if dominateeSdomTime = minSdomSdomTime then dominateeSdomTime else minSdomTime
  let idoms ← FromDFSTimeMap.write builder.idoms dominateeTime idom
  return { builder with idoms := idoms }

def fillIdoms (builder : DomTreeBuilder Node) (nodeId : NodeId) :
    Result (DomTreeBuilder Node) :=
  (builder.sdommed nodeId).foldlM (fillIdom graph) builder

/-- One round of the loop of `calcSdoms`. -/
def calcSdom (builder : DomTreeBuilder Node) (node : Node) : Result (DomTreeBuilder Node) := do
  let nodeId := graph.id node
  let (sdom, builder) ← builder.findMinSdom graph node
  let first ← FromDFSTimeMap.at builder.dfsTimes 0
  if node = first then builder.fillIdoms graph nodeId
  else
    let sdomId := graph.id (← FromDFSTimeMap.at builder.dfsTimes sdom)
    let sdommed := fun id =>
      if id = sdomId then builder.sdommed id ++ [node] else builder.sdommed id
    let builder ← { builder with sdommed := sdommed }.fillIdoms graph nodeId
    let parent ← builder.dfsParents.at nodeId
    let dsu ← DSU.unite (builder.context graph) builder.dsu node parent
    return { builder with dsu := dsu }

def calcSdoms (builder : DomTreeBuilder Node) : Result (DomTreeBuilder Node) :=
  builder.dfsTimes.reverse.foldlM (calcSdom graph)
    { builder with dsu := DSU.make builder.dfsTimes }

/-- One round of the loop of `calcIdoms`. -/
def calcIdom (state : DomTreeBuilder Node × DominatorTree Node) (nodeTime : DFSTime) :
    Result (DomTreeBuilder Node × DominatorTree Node) := do
  let (builder, tree) := state
  let node ← FromDFSTimeMap.at builder.dfsTimes nodeTime
  let nodeIdomTime ← FromDFSTimeMap.at builder.idoms nodeTime
  let sdom ← FromDFSTimeMap.at builder.sdoms nodeTime
  let idom ← if nodeIdomTime ≠ sdom then FromDFSTimeMap.at builder.idoms nodeIdomTime
    else .ok nodeIdomTime
  let idoms ← FromDFSTimeMap.write builder.idoms nodeTime idom
  let idomNode ← FromDFSTimeMap.at builder.dfsTimes idom
  return ({ builder with idoms := idoms }, tree.addDommed idomNode node)

def calcIdoms (builder : DomTreeBuilder Node) : Result (DominatorTree Node) := do
  let times := (List.range builder.dfsTimes.length).tail
  let (_, tree) ← times.foldlM calcIdom
    (builder, { id := graph.id, tree := fun _ => none, size := builder.dfsTimes.length })
  return tree

end DomTreeBuilder

def buildDomTree [DecidableEq Node] (graph : Graph Node) : Result (DominatorTree Node) := do
  let builder : DomTreeBuilder Node :=
    { sdoms := List.replicate graph.size 0, idoms := List.replicate graph.size 0 }
  let builder ← builder.doDFS graph
  let builder ← builder.calcSdoms graph
  builder.calcIdoms graph

end LeechJit.Graph
