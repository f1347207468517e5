import LeechJit.Graph.DfsTree
import LeechJit.Graph.DomTree

/-! # The loops of a flow graph

What depth-first search and the dominator tree say about the loops of a graph,
without the analyzer's own data.
-/

namespace LeechJit.Graph

open Dominance

variable {Node : Type} [DecidableEq Node]

/-- The source of a back edge to `header`. -/
def Event.latch? (header : Node) : Event Node → Option Node
  | .backEdge src tar => if tar = header then some src else none
  | _ => none

/-- The sources of the back edges to `header`, in the order they are found. -/
def backEdgesSrc (graph : Graph Node) (header : Node) : List Node :=
  graph.depthFirstSearch.filterMap (Event.latch? header)

def IsHeader (graph : Graph Node) (node : Node) : Prop :=
  graph.backEdgesSrc node ≠ []

/-- The answer of the dominator tree on the first back edge to `header`. -/
def reducible (graph : Graph Node) (header : Node) : Bool :=
  match buildDomTree graph, graph.backEdgesSrc header with
  | .ok domTree, src :: _ => domTree.isDominator header src = .ok true
  | _, _ => false

/-- The nodes that reach a back edge to `header` without it. -/
def InLoop (graph : Graph Node) (header node : Node) : Prop :=
  ∃ src ∈ graph.backEdgesSrc header, ∃ nodes, Walk graph.Edge node nodes src ∧ header ∉ nodes

/-- The nodes the search backwards from the sources of the back edges to `header` meets.
It stops at the header only where that is not such a source. -/
inductive Meets (graph : Graph Node) (header : Node) : Node → Prop where
  | ofSrc {node src : Node} (isSrc : src ∈ graph.backEdgesSrc header)
      (edge : graph.Edge node src) (notHeader : node ≠ header)
      (notSrc : node ∉ graph.backEdgesSrc header) : Meets graph header node
  | ofMet {node child : Node} (met : Meets graph header child) (edge : graph.Edge node child)
      (notHeader : node ≠ header) (notSrc : node ∉ graph.backEdgesSrc header) :
      Meets graph header node

/-- The search of a loop the dominator tree calls reducible meets the headers of loops
that finish earlier only. -/
def SearchesInward (graph : Graph Node) : Prop :=
  ∀ header, graph.reducible header = true → ∀ other, graph.IsHeader other →
    graph.Meets header other → graph.finishTime other < graph.finishTime header

/-- The loops that are written out: the reducible ones and those in their bodies. -/
def Emitted (graph : Graph Node) (header : Node) : Prop :=
  graph.IsHeader header ∧ (graph.reducible header = true ∨
    ∃ outer, graph.reducible outer = true ∧ graph.InLoop outer header)

/-- No two loops fill each other's bodies. -/
structure LoopsApart (graph : Graph Node) : Prop where
  /-- The dominator tree is right about the loops it calls reducible. -/
  dominated : ∀ header, graph.reducible header = true →
    ∀ src ∈ graph.backEdgesSrc header, graph.Dominates header src
  /-- There are no two back edges from a block to a header. -/
  nodup : ∀ header, graph.Emitted header → (graph.backEdgesSrc header).Nodup
  /-- The source of a back edge is not the header of a loop. -/
  notHeader : ∀ header, graph.Emitted header →
    ∀ src ∈ graph.backEdgesSrc header, ¬ graph.IsHeader src
  /-- Nor does it have a back edge to another. -/
  unshared : ∀ left right src, graph.Emitted left → graph.Emitted right →
    src ∈ graph.backEdgesSrc left → src ∈ graph.backEdgesSrc right → left = right
  /-- A loop with the source of a back edge in it has the target in it too. -/
  enclosed : ∀ outer header src, graph.reducible outer = true → graph.Emitted header →
    outer ≠ header → src ∈ graph.backEdgesSrc header → graph.InLoop outer src →
    graph.InLoop outer header

variable {graph : Graph Node}

theorem mem_backEdgesSrc {header src : Node} :
    src ∈ graph.backEdgesSrc header ↔ .backEdge src header ∈ graph.depthFirstSearch := by
  rw [backEdgesSrc, List.mem_filterMap]
  constructor
  · rintro ⟨event, member, isLatch⟩
    cases event with
    | backEdge source target =>
        by_cases same : target = header
        · simp only [Event.latch?, same, if_true, Option.some.injEq] at isLatch
          rw [← isLatch, ← same]
          exact member
        · simp [Event.latch?, same] at isLatch
    | discoverNode node => cases isLatch
    | finishNode node => cases isLatch
  · intro member
    exact ⟨_, member, by simp [Event.latch?]⟩

theorem isHeader_iff {header : Node} :
    graph.IsHeader header ↔ ∃ src, src ∈ graph.backEdgesSrc header :=
  ⟨List.exists_mem_of_ne_nil _, fun ⟨_, isSrc⟩ => List.ne_nil_of_mem isSrc⟩

theorem isHeader_of_reducible {header : Node} (isReducible : graph.reducible header = true) :
    graph.IsHeader header := by
  intro none
  simp [reducible, none] at isReducible

theorem emitted_of_reducible {header : Node} (isReducible : graph.reducible header = true) :
    graph.Emitted header :=
  ⟨isHeader_of_reducible isReducible, .inl isReducible⟩

theorem InLoop.ne {header node : Node} (inLoop : graph.InLoop header node) : node ≠ header := by
  rcases inLoop with ⟨src, -, nodes, walk, missed⟩
  rintro rfl
  exact missed walk.start_mem

theorem InLoop.pred {header node pred : Node} (inLoop : graph.InLoop header node)
    (edge : graph.Edge pred node) (different : pred ≠ header) : graph.InLoop header pred := by
  rcases inLoop with ⟨src, isSrc, nodes, walk, missed⟩
  refine ⟨src, isSrc, pred :: nodes, .step edge walk, ?_⟩
  rw [List.mem_cons]
  exact not_or.mpr ⟨different.symm, missed⟩

theorem inLoop_of_src {header src : Node} (isSrc : src ∈ graph.backEdgesSrc header)
    (different : src ≠ header) : graph.InLoop header src :=
  ⟨src, isSrc, [src], .here src, by simpa using different.symm⟩

theorem InLoop.of_walk {header node inner : Node} {nodes : List Node}
    (inLoop : graph.InLoop header node) (walk : Walk graph.Edge inner nodes node)
    (missed : header ∉ nodes) : graph.InLoop header inner := by
  rcases inLoop with ⟨src, isSrc, others, onward, avoids⟩
  refine ⟨src, isSrc, _, walk.append onward, ?_⟩
  rw [List.mem_append]
  exact not_or.mpr ⟨missed, fun inTail => avoids (List.mem_of_mem_tail inTail)⟩

/-- A header that dominates the sources of its back edges dominates its loop. -/
theorem InLoop.dominates {header node : Node} (inLoop : graph.InLoop header node)
    (dominated : ∀ src ∈ graph.backEdgesSrc header, graph.Dominates header src) :
    graph.Dominates header node := by
  rcases inLoop with ⟨src, isSrc, nodes, walk, missed⟩
  intro before toNode
  rcases List.mem_append.mp (dominated src isSrc _ (toNode.append walk)) with
    inBefore | inTail
  · exact inBefore
  · exact absurd (List.mem_of_mem_tail inTail) missed

namespace Meets

variable {header node : Node}

theorem ne (meets : graph.Meets header node) : node ≠ header := by
  cases meets with
  | ofSrc _ _ notHeader _ => exact notHeader
  | ofMet _ _ notHeader _ => exact notHeader

theorem isHeader (meets : graph.Meets header node) : graph.IsHeader header := by
  induction meets with
  | ofSrc isSrc _ _ _ => exact List.ne_nil_of_mem isSrc
  | ofMet _ _ _ _ induction => exact induction

theorem not_src (meets : graph.Meets header node) : node ∉ graph.backEdgesSrc header := by
  cases meets with
  | ofSrc _ _ _ notSrc => exact notSrc
  | ofMet _ _ _ notSrc => exact notSrc

/-- Where the header is no source the search stays in the loop. -/
theorem inLoop (meets : graph.Meets header node) (notSrc : header ∉ graph.backEdgesSrc header) :
    graph.InLoop header node := by
  induction meets with
  | @ofSrc _ src isSrc edge notHeader _ =>
      have different : src ≠ header := by
        rintro rfl
        exact notSrc isSrc
      exact (inLoop_of_src isSrc different).pred edge notHeader
  | ofMet _ edge notHeader _ induction => exact induction.pred edge notHeader

end Meets

/-- The search meets the whole loop. -/
theorem InLoop.meets {header node : Node} (inLoop : graph.InLoop header node) :
    node ∈ graph.backEdgesSrc header ∨ graph.Meets header node := by
  rcases inLoop with ⟨src, isSrc, nodes, walk, missed⟩
  induction walk with
  | here => exact .inl isSrc
  | step first rest induction =>
      rename_i start next finish nodes
      have parts := not_or.mp (mt List.mem_cons.mpr missed)
      by_cases notSrc : start ∈ graph.backEdgesSrc header
      · exact .inl notSrc
      · right
        cases induction isSrc parts.2 with
        | inl nextSrc => exact .ofSrc nextSrc first (Ne.symm parts.1) notSrc
        | inr met => exact .ofMet met first (Ne.symm parts.1) notSrc

theorem isHeader_reachable {header : Node} (isHeader : graph.IsHeader header) :
    graph.Reachable header := by
  rcases isHeader_iff.mp isHeader with ⟨src, isSrc⟩
  have member := mem_backEdgesSrc.mp isSrc
  exact (backEdge_reachable member).tail (backEdge_edge member)

namespace LoopsApart

variable (apart : graph.LoopsApart)

include apart

theorem dominates {header node : Node} (isReducible : graph.reducible header = true)
    (inLoop : graph.InLoop header node) : graph.Dominates header node :=
  inLoop.dominates (apart.dominated header isReducible)

/-- A loop in the body of another finishes before it. -/
theorem finishTime_lt (closed : graph.Closed) {header node : Node}
    (isReducible : graph.reducible header = true) (inLoop : graph.InLoop header node)
    (reachable : graph.Reachable node) : graph.finishTime node < graph.finishTime header :=
  finishTime_lt_of_dominates closed reachable (apart.dominates isReducible inLoop)
    inLoop.ne.symm

/-- The loop of a node found in the body of a later one is in that body as well. -/
theorem inLoop_of_earlier (closed : graph.Closed) {outer inner node : Node}
    (outerReducible : graph.reducible outer = true) (inOuter : graph.InLoop outer node)
    (reachable : graph.Reachable node)
    (earlier : graph.finishTime inner < graph.finishTime outer)
    (inInner : node ∈ graph.backEdgesSrc inner ∨
      graph.reducible inner = true ∧ graph.InLoop inner node) :
    graph.InLoop outer inner := by
  have outerDominates := apart.dominates outerReducible inOuter
  have different : outer ≠ inner := by
    rintro rfl
    exact Nat.lt_irrefl _ earlier
  have walks : graph.finishTime outer < graph.finishTime inner ∨
      ∃ nodes, Walk graph.Edge inner nodes node ∧ outer ∉ nodes := by
    rcases inInner with isSrc | ⟨innerReducible, inLoop⟩
    · exact backEdge_separate closed (mem_backEdgesSrc.mp isSrc) outerDominates different
    · exact dominators_separate closed reachable outerDominates
        (apart.dominates innerReducible inLoop) different
  rcases walks with later | ⟨nodes, walk, missed⟩
  · omega
  · exact inOuter.of_walk walk missed

/-- The body of a loop in the body of another is part of that. -/
theorem inLoop_trans {outer middle node : Node} (outerReducible : graph.reducible outer = true)
    (middleReducible : graph.reducible middle = true) (inMiddle : graph.InLoop middle node)
    (inOuter : graph.InLoop outer middle) : graph.InLoop outer node := by
  rcases inMiddle with ⟨src, isSrc, nodes, walk, missed⟩
  have avoids : outer ∉ nodes := by
    intro passed
    rcases List.append_of_mem passed with ⟨front, back, rfl⟩
    have below : graph.InLoop middle outer := by
      refine ⟨src, isSrc, outer :: back, walk.split.2, ?_⟩
      exact fun member => missed (List.mem_append_right _ member)
    have equal := Dominates.antisymm
      (isHeader_reachable (isHeader_of_reducible outerReducible))
      (apart.dominates middleReducible below) (apart.dominates outerReducible inOuter)
    exact inOuter.ne equal
  have edge := backEdge_edge (mem_backEdgesSrc.mp isSrc)
  apply inOuter.of_walk (walk.snoc edge)
  rw [List.mem_append, List.mem_singleton]
  exact not_or.mpr ⟨avoids, inOuter.ne.symm⟩

end LoopsApart

end LeechJit.Graph
