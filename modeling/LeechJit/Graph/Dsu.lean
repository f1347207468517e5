import LeechJit.Common
import LeechJit.Graph.GraphTraits

/-! # The disjoint sets of the dominator tree builder

Maps from DFS times are vectors, and an index outside of them fails an
assertion; maps from node ids are partial functions.
-/

namespace LeechJit.Graph

abbrev DFSTime := Nat
abbrev NodeId := Nat

/-- `FromDFSTimeMap`. -/
abbrev FromDFSTimeMap (α : Type) := List α

abbrev FromIdMap (α : Type) := NodeId → Option α

/-- `operator[]` of a `FromDFSTimeMap`. -/
def FromDFSTimeMap.at {α : Type} (map : FromDFSTimeMap α) (time : DFSTime) : Result α :=
  match map[time]? with
  | some value => .ok value
  | none => .error .assertFailed

/-- `unordered_map::at`. -/
def FromIdMap.at {α : Type} (map : FromIdMap α) (id : NodeId) : Result α :=
  match map id with
  | some value => .ok value
  | none => .error .outOfRange

def FromIdMap.insert {α : Type} (map : FromIdMap α) (id : NodeId) (value : α) :
    FromIdMap α :=
  fun key => if key = id then some value else map key

variable {Node : Type}

structure DSU (Node : Type) where
  parents : FromDFSTimeMap Node
  labels : FromDFSTimeMap Node
  deriving DecidableEq, Repr

/-- What the disjoint sets hold references to. -/
structure DSUContext (Node : Type) where
  id : Node → NodeId
  sdoms : FromDFSTimeMap DFSTime
  rev : FromIdMap DFSTime

namespace DSUContext

variable (context : DSUContext Node)

def getNodeTime (node : Node) : Result DFSTime :=
  context.rev.at (context.id node)

def getSdomId (node : Node) : Result DFSTime := do
  FromDFSTimeMap.at context.sdoms (← context.getNodeTime node)

end DSUContext

namespace DSU

/-- `DSU(sdoms, rev, dfsTimes)`: every node is a set of its own. -/
def make (dfsTimes : FromDFSTimeMap Node) : DSU Node :=
  { parents := dfsTimes, labels := dfsTimes }

variable [DecidableEq Node] (context : DSUContext Node)

/-- `find`. The recursion goes up the forest; `fuel` bounds its depth. -/
def find : Nat → DSU Node → Node → Result (Node × DSU Node)
  | 0, _, _ => .error .diverges
  | fuel + 1, dsu, toFind => do
      let time ← context.getNodeTime toFind
      let parent ← FromDFSTimeMap.at dsu.parents time
      if toFind = parent then return (toFind, dsu)
      let (found, dsu) ← find fuel dsu parent
      -- `parent` is a reference, read again after the call.
      let parent ← FromDFSTimeMap.at dsu.parents time
      let parLabel ← FromDFSTimeMap.at dsu.labels (← context.getNodeTime parent)
      let toFindLabel ← FromDFSTimeMap.at dsu.labels time
      let parSdom ← context.getSdomId parLabel
      let toFindSdom ← context.getSdomId toFindLabel
      let label := if parSdom < toFindSdom then parLabel else toFindLabel
      return (label,
        { parents := dsu.parents.set time found, labels := dsu.labels.set time label })

def unite (dsu : DSU Node) (node parent : Node) : Result (DSU Node) := do
  let time ← context.getNodeTime node
  let _ ← FromDFSTimeMap.at dsu.parents time
  return { dsu with parents := dsu.parents.set time parent }

end DSU

end LeechJit.Graph
