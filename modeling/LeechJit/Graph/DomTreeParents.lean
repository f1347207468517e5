import LeechJit.Graph.DfsParents
import LeechJit.Graph.DomTreeDfs

/-! # The parents the dominator tree builder records

`doDFS` takes the node it was called on before for the parent. Depth-first search
may have turned back in between, and then the recorded node is no parent.
-/

namespace LeechJit.Graph

variable {Node : Type} [DecidableEq Node] {graph : Graph Node} {builder : DomTreeBuilder Node}
  {front back : List Node} {prev node : Node}

/-- The recorded parent is the node whose successor list `node` is discovered in: it has an edge
to `node`, and it is discovered before and finished after `node` is discovered. -/
def ParentRecorded (graph : Graph Node) (builder : DomTreeBuilder Node) (node : Node) : Prop :=
  ∃ parent, builder.dfsParents (graph.id node) = some parent ∧
    DiscoveredFrom graph parent node ∧ graph.Edge parent node ∧
    ∃ front back, graph.depthFirstSearch = front ++ .discoverNode node :: back ∧
      .discoverNode parent ∈ front ∧ .finishNode parent ∉ front

theorem NumberedUpTo.recorded_prev (numbered : NumberedUpTo graph graph.depthFirstSearchPreOrder builder)
    (split : graph.depthFirstSearchPreOrder = front ++ prev :: node :: back) :
    builder.dfsParents (graph.id node) = some prev :=
  numbered.dfsParents front.length node prev (by simp [split]) (by simp [split])

theorem NumberedUpTo.parentRecorded_iff (closed : graph.Closed)
    (numbered : NumberedUpTo graph graph.depthFirstSearchPreOrder builder)
    (split : graph.depthFirstSearchPreOrder = front ++ prev :: node :: back) :
    ParentRecorded graph builder node ↔ ∃ succ ∈ graph.succs prev, succ ∉ front ++ [prev] := by
  rw [← (foundBehind split).iff]
  have isPrev := numbered.recorded_prev split
  constructor
  · rintro ⟨parent, recorded, discovers, -⟩
    rw [isPrev, Option.some.injEq] at recorded
    rwa [recorded]
  · intro discovers
    exact ⟨prev, isPrev, discovers, discovers.edge, discovers.unfinished closed⟩

/-- Every reachable node but the entry is discovered right after some other. -/
theorem exists_prev (closed : graph.Closed) (reachable : graph.Reachable node)
    (notEntry : node ≠ graph.entryPoint) :
    ∃ front prev back, graph.depthFirstSearchPreOrder = front ++ prev :: node :: back := by
  rcases List.append_of_mem ((mem_preOrder closed).mpr reachable) with ⟨before, back, split⟩
  rcases List.eq_nil_or_concat before with rfl | ⟨front, prev, rfl⟩
  · have head : graph.depthFirstSearchPreOrder.head? = some graph.entryPoint := preOrder_head
    rw [split] at head
    exact absurd (Option.some.inj head) notEntry
  · exact ⟨front, prev, back, by simpa using split⟩

/-- The node right after some other is reachable and not the entry. -/
theorem of_prev (closed : graph.Closed)
    (split : graph.depthFirstSearchPreOrder = front ++ prev :: node :: back) :
    graph.Reachable node ∧ node ≠ graph.entryPoint := by
  have member : node ∈ graph.depthFirstSearchPreOrder := by simp [split]
  refine ⟨(mem_preOrder closed).mp member, ?_⟩
  rintro rfl
  have nodup : graph.depthFirstSearchPreOrder.Nodup := preOrder_nodup
  have head : graph.depthFirstSearchPreOrder.head? = some graph.entryPoint := preOrder_head
  rw [split] at nodup head
  cases front with
  | nil =>
      cases head
      simp at nodup
  | cons first front =>
      cases head
      simp at nodup

theorem NumberedUpTo.all_recorded_iff (closed : graph.Closed)
    (numbered : NumberedUpTo graph graph.depthFirstSearchPreOrder builder) :
    (∀ node, graph.Reachable node → node ≠ graph.entryPoint → ParentRecorded graph builder node) ↔
      ∀ node, graph.Reachable node → node ∈ graph.onwardWalk := by
  have head : graph.depthFirstSearchPreOrder.head? = some graph.entryPoint := preOrder_head
  rcases List.head?_eq_some_iff.mp head with ⟨rest, order⟩
  rw [onwardWalk_iff closed order]
  constructor
  · intro recorded
    apply onward_of_pairs
    intro front prev succ back split
    rw [← order] at split
    have reached := of_prev closed split
    have isRecorded := recorded succ reached.1 reached.2
    rcases foundBehind split with ⟨parent, -, ⟨-, isFirst⟩ | ⟨-, done⟩⟩
    · simpa using isFirst
    · rcases (numbered.parentRecorded_iff closed split).mp isRecorded with ⟨other, member, fresh⟩
      exact absurd (done other member) fresh
  · intro onwards node reachable notEntry
    rcases exists_prev closed reachable notEntry with ⟨front, prev, back, split⟩
    have isFirst := onwards.at (order ▸ split)
    have fresh := List.find?_some isFirst
    exact (numbered.parentRecorded_iff closed split).mpr
      ⟨node, List.mem_of_find?_eq_some isFirst, by simpa using fresh⟩

/-- `doDFS` records the parent of a node just when the node discovered before has a successor
left at that time, so it records all parents just when the search need never turn back. -/
theorem doDFS_parents_iff (closed : graph.Closed)
    (ids : ∀ left ∈ graph.nodes, ∀ right ∈ graph.nodes, graph.id left = graph.id right →
      left = right) :
    ∃ builder, DomTreeBuilder.doDFS graph
        { sdoms := List.replicate graph.size 0
          idoms := List.replicate graph.size 0 } = .ok builder ∧
      (∀ front prev node back, graph.depthFirstSearchPreOrder = front ++ prev :: node :: back →
        (ParentRecorded graph builder node ↔
          ∃ succ ∈ graph.succs prev, succ ∉ front ++ [prev])) ∧
      ((∀ node, graph.Reachable node → node ≠ graph.entryPoint →
          ParentRecorded graph builder node) ↔
        ∀ node, graph.Reachable node → node ∈ graph.onwardWalk) := by
  rcases doDFS_numbered closed ids with ⟨builder, result, numbered⟩
  exact ⟨builder, result, fun front prev node back => numbered.parentRecorded_iff closed,
    numbered.all_recorded_iff closed⟩

/-- Two leaves. -/
def forkGraph : Graph Nat where
  nodes := [0, 1, 2]
  entryPoint := 0
  succs
    | 0 => [1, 2]
    | _ => []
  preds
    | 0 => []
    | _ => [0]
  id node := node

theorem forkGraph_closed : forkGraph.Closed := by decide

theorem doDFS_parents_iff_fork :
    ∃ builder, DomTreeBuilder.doDFS forkGraph
        { sdoms := List.replicate forkGraph.size 0
          idoms := List.replicate forkGraph.size 0 } = .ok builder ∧
      (∀ front prev node back, forkGraph.depthFirstSearchPreOrder = front ++ prev :: node :: back →
        (ParentRecorded forkGraph builder node ↔
          ∃ succ ∈ forkGraph.succs prev, succ ∉ front ++ [prev])) ∧
      ((∀ node, forkGraph.Reachable node → node ≠ forkGraph.entryPoint →
          ParentRecorded forkGraph builder node) ↔
        ∀ node, forkGraph.Reachable node → node ∈ forkGraph.onwardWalk) :=
  doDFS_parents_iff forkGraph_closed (by decide)

/-- The second leaf has the first one recorded for its parent. -/
theorem not_doDFS_parents_fork :
    ∃ builder, DomTreeBuilder.doDFS forkGraph
        { sdoms := List.replicate forkGraph.size 0
          idoms := List.replicate forkGraph.size 0 } = .ok builder ∧
      forkGraph.Reachable 2 ∧ 2 ≠ forkGraph.entryPoint ∧ builder.dfsParents (forkGraph.id 2) = some 1 ∧
      ¬ ParentRecorded forkGraph builder 2 := by
  refine ⟨_, rfl, .single (by decide), by decide, by decide, ?_⟩
  rintro ⟨parent, recorded, -, edge, -⟩
  have isLeaf : parent = 1 := by
    have same : some 1 = some parent := recorded
    exact (Option.some.inj same).symm
  subst isLeaf
  exact absurd edge (by decide)

end LeechJit.Graph
