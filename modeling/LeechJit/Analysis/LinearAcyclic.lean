import LeechJit.Analysis.LinearOrder
import LeechJit.Analysis.LoopForest
import LeechJit.Graph.DfsBackEdges

/-! # The linear order of acyclic graphs

Without cycles the search reports no back edges. The root loop is the only loop, and the
linear order is the reverse postorder.
-/

namespace LeechJit.Graph

open Dominance

variable {Node : Type} [DecidableEq Node]

/-- No path leads from a node back to it. -/
def Acyclic (graph : Graph Node) : Prop :=
  ∀ node ∈ graph.nodes, ¬ Relation.TransGen graph.Edge node node

variable {graph : Graph Node} {source target : Node}

/-- A back edge closes a cycle. -/
theorem cycle_of_backEdge (member : .backEdge source target ∈ graph.depthFirstSearch) :
    Relation.TransGen graph.Edge source source := by
  have edge : graph.Edge source target := backEdge_edge member
  rcases ((dfsRun_tree graph).backEdges source target member).2 with ⟨path, treePath, onPath⟩
  rcases List.append_of_mem onPath with ⟨front, back, rfl⟩
  have down := treePath.walk.split.2.reachable
  exact .head' edge down

namespace Acyclic

theorem not_backEdge (acyclic : graph.Acyclic) (closed : graph.Closed) :
    .backEdge source target ∉ graph.depthFirstSearch := by
  intro member
  have inside := closed.mem_of_reachable (backEdge_reachable member)
  exact acyclic source inside (cycle_of_backEdge member)

theorem not_isHeader (acyclic : graph.Acyclic) (closed : graph.Closed) :
    ¬ graph.IsHeader target := by
  intro isHeader
  rcases isHeader_iff.mp isHeader with ⟨source, isSrc⟩
  exact acyclic.not_backEdge closed (mem_backEdgesSrc.mp isSrc)

omit [DecidableEq Node] in
/-- Edges that lead forwards in some order close no cycle. -/
theorem of_index (closed : graph.Closed) (index : Node → Nat)
    (forwards : ∀ source ∈ graph.nodes, ∀ target ∈ graph.succs source,
      index source < index target) : graph.Acyclic := by
  have grows : ∀ source ∈ graph.nodes, ∀ target, Relation.TransGen graph.Edge source target →
      target ∈ graph.nodes ∧ index source < index target := by
    intro source inside target path
    induction path with
    | single edge => exact ⟨closed.succs_mem _ inside _ edge, forwards _ inside _ edge⟩
    | tail _ edge induction =>
        have further := forwards _ induction.1 _ edge
        exact ⟨closed.succs_mem _ induction.1 _ edge, induction.2.trans further⟩
  exact fun node inside cycle => Nat.lt_irrefl _ (grows node inside node cycle).2

/-- The reverse postorder is a topological order. -/
theorem topological (acyclic : graph.Acyclic) (closed : graph.Closed) : Topological graph :=
  topological_of_none closed fun _ _ => acyclic.not_backEdge closed

end Acyclic

end LeechJit.Graph

namespace LeechJit.Analysis

open LeechJit.Graph

variable {Node : Type} [DecidableEq Node] {cfg : Cfg Node}

/-- All nodes are in the root loop, which has no header. -/
theorem make_acyclic (acyclic : cfg.Acyclic) :
    ∃ loops, LoopAnalyzer.make cfg.toGraph = .ok loops ∧
      ∀ node ∈ cfg.nodes, ∃ info, loops.getLoopInfo node = .ok info ∧ info.header = none := by
  rcases make_keeps cfg (fun _ _ => True) (by simp [Keeps]) trivial with
    ⟨loops, root, heads, nest, done, made, finished, -, plain, -⟩
  refine ⟨loops, made, fun node member => ?_⟩
  have noHeads : ∀ header, header ∉ heads := fun header isHead =>
    acyclic.not_isHeader cfg.closed ((finished.headers header).mp isHead)
  have unowned : ∀ node, nest.owner node = none := by
    intro node
    cases owned : nest.owner node with
    | none => rfl
    | some loop =>
        exact absurd (plain.owner node loop owned).1 (acyclic.not_isHeader cfg.closed)
  cases isRoot : root with
  | none =>
      have owned := finished.needed.mp isRoot node member
      exact absurd (unowned node) owned
  | some id =>
      rcases finished.rootLoop id isRoot with ⟨-, nodes, -, stored⟩
      have found : loops.findLoop node = some id := by
        rw [finished.found node member, unowned, isRoot]
        rfl
      exact ⟨rootInfo nodes _, by rw [LoopAnalyzer.getLoopInfo, found]; exact stored, rfl⟩

theorem placeBlock_free {loops : LoopAnalyzer Node} {bb : Node} {res : List Node}
    {info : LoopInfo Node} (found : loops.getLoopInfo bb = .ok info) (free : info.header = none)
    (fresh : bb ∉ res) : placeBlock loops res bb = .ok (res ++ [bb]) := by
  rw [placeBlock, if_neg fresh, found, Result.ok_bind, if_neg fun both => by
    rw [free] at both
    cases both.1]
  rfl

theorem placeBlock_fold_free {loops : LoopAnalyzer Node} (bbs res : List Node)
    (free : ∀ bb ∈ bbs, ∃ info, loops.getLoopInfo bb = .ok info ∧ info.header = none)
    (nodup : (res ++ bbs).Nodup) : bbs.foldlM (placeBlock loops) res = .ok (res ++ bbs) := by
  induction bbs generalizing res with
  | nil => rw [List.append_nil, List.foldlM_nil, Result.pure_eq_ok]
  | cons bb rest induction =>
      rcases free bb (.head _) with ⟨info, found, noHeader⟩
      have fresh : bb ∉ res := fun inRes =>
        (List.nodup_append.mp nodup).2.2 bb inRes bb (.head _) rfl
      rw [List.append_cons] at nodup ⊢
      rw [List.foldlM_cons, placeBlock_free found noHeader fresh, Result.ok_bind]
      exact induction (res ++ [bb]) (fun other inRest => free other (.tail _ inRest)) nodup

/-- The blocks of an acyclic graph are placed in reverse postorder. -/
theorem buildLinearOrder_acyclic {loops : LoopAnalyzer Node}
    (free : ∀ node ∈ cfg.nodes, ∃ info, loops.getLoopInfo node = .ok info ∧ info.header = none) :
    buildLinearOrder cfg.toGraph loops = .ok cfg.depthFirstSearchReversePostOrder := by
  have freeOrder : ∀ bb ∈ cfg.depthFirstSearchReversePostOrder, ∃ info,
      loops.getLoopInfo bb = .ok info ∧ info.header = none := fun bb member =>
    free bb (cfg.closed.mem_of_reachable ((mem_reversePostOrder cfg.closed).mp member))
  have placed := placeBlock_fold_free cfg.depthFirstSearchReversePostOrder [] freeOrder
    reversePostOrder_nodup
  rw [buildLinearOrder, placed]
  simp

end LeechJit.Analysis
