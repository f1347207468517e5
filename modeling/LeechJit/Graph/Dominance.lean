import LeechJit.Foundation.Dominance
import LeechJit.Graph.DfsOrder

/-! # Dominance between the nodes of a graph

A node dominates another when the search no longer finds the other once the
edges into the first are cut; this decides dominance.
-/

namespace LeechJit.Graph

open Dominance

variable {Node : Type} [DecidableEq Node] (graph : Graph Node)

/-- The graph without the edges into `dom`. -/
def without (dom : Node) : Graph Node :=
  { graph with succs := fun node => (graph.succs node).filter (· ≠ dom) }

def Dominates (dom node : Node) : Prop :=
  Dominance.Dominates graph.Edge graph.entryPoint dom node

theorem without_edge {dom source target : Node} :
    (graph.without dom).Edge source target ↔ graph.Edge source target ∧ target ≠ dom := by
  simp [without, Edge]

variable {graph}

omit [DecidableEq Node] in
theorem Closed.without [DecidableEq Node] (closed : graph.Closed) (dom : Node) :
    (graph.without dom).Closed where
  nodup := closed.nodup
  entry_mem := closed.entry_mem
  succs_mem node member succ inSuccs :=
    closed.succs_mem node member succ (List.mem_of_mem_filter inSuccs)

/-- A walk that misses `dom` survives when the edges into it are cut. -/
theorem reachable_without {dom start finish : Node} {nodes : List Node}
    (walk : Walk graph.Edge start nodes finish) (missed : dom ∉ nodes) :
    Relation.ReflTransGen (graph.without dom).Edge start finish := by
  induction walk with
  | here => exact .refl
  | step first rest induction =>
      have parts := not_or.mp (mt List.mem_cons.mpr missed)
      apply Relation.ReflTransGen.head _ (induction parts.2)
      apply graph.without_edge.mpr
      exact ⟨first, fun equal => parts.2 (equal ▸ rest.start_mem)⟩

theorem dominates_iff (closed : graph.Closed) {dom node : Node} :
    graph.Dominates dom node ↔
      dom = graph.entryPoint ∨ node ∉ (graph.without dom).depthFirstSearchPreOrder := by
  rw [mem_preOrder (closed.without dom)]
  constructor
  · intro dominates
    by_cases isEntry : dom = graph.entryPoint
    · exact .inl isEntry
    · right
      intro reachable
      rcases Walk.of_reachable reachable with ⟨nodes, walk⟩
      -- Such a walk is one of the whole graph and never enters `dom`.
      have avoids : ∀ start nodes finish, Walk (graph.without dom).Edge start nodes finish →
          start ≠ dom → Walk graph.Edge start nodes finish ∧ dom ∉ nodes := by
        intro start nodes finish walk notDom
        induction walk with
        | here last => exact ⟨.here last, by simpa using notDom.symm⟩
        | step first _ induction =>
            have parts := graph.without_edge.mp first
            have later := induction parts.2
            refine ⟨.step parts.1 later.1, ?_⟩
            rw [List.mem_cons]
            exact not_or.mpr ⟨notDom.symm, later.2⟩
      rcases avoids _ _ _ walk (fun equal => isEntry equal.symm) with ⟨whole, missed⟩
      exact missed (dominates nodes whole)
  · rintro (rfl | unreachable)
    · exact dominates_entry node
    · intro nodes walk
      by_contra missed
      exact unreachable (reachable_without walk missed)

end LeechJit.Graph
