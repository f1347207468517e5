import Mathlib.Logic.Relation

/-! # Graphs as the analyses see them -/

namespace LeechJit

/-- What `GraphTraits` reads off a graph, with the finite list of its nodes. -/
structure Graph (Node : Type) where
  nodes : List Node
  entryPoint : Node
  succs : Node → List Node
  preds : Node → List Node
  id : Node → Nat

variable {Node : Type}

namespace Graph

def size (graph : Graph Node) : Nat :=
  graph.nodes.length

def Edge (graph : Graph Node) (source target : Node) : Prop :=
  target ∈ graph.succs source

instance [DecidableEq Node] (graph : Graph Node) (source target : Node) :
    Decidable (graph.Edge source target) :=
  inferInstanceAs (Decidable (target ∈ graph.succs source))

def Reachable (graph : Graph Node) (node : Node) : Prop :=
  Relation.ReflTransGen graph.Edge graph.entryPoint node

/-- The nodes are all there is. -/
structure Closed (graph : Graph Node) : Prop where
  nodup : graph.nodes.Nodup
  entry_mem : graph.entryPoint ∈ graph.nodes
  succs_mem : ∀ node ∈ graph.nodes, ∀ succ ∈ graph.succs node, succ ∈ graph.nodes

instance [DecidableEq Node] (graph : Graph Node) : Decidable graph.Closed :=
  decidable_of_iff (graph.nodes.Nodup ∧ graph.entryPoint ∈ graph.nodes ∧
    ∀ node ∈ graph.nodes, ∀ succ ∈ graph.succs node, succ ∈ graph.nodes)
    ⟨fun holds => ⟨holds.1, holds.2.1, holds.2.2⟩,
      fun closed => ⟨closed.nodup, closed.entry_mem, closed.succs_mem⟩⟩

theorem Closed.mem_of_reachable {graph : Graph Node} (closed : graph.Closed) {node : Node}
    (reachable : graph.Reachable node) : node ∈ graph.nodes := by
  induction reachable with
  | refl => exact closed.entry_mem
  | tail _ edge induction => exact closed.succs_mem _ induction _ edge

/-- What is reachable depends on the successors of the nodes only. -/
theorem Closed.reachable_iff {graph other : Graph Node} (closed : graph.Closed)
    (entry : other.entryPoint = graph.entryPoint)
    (succs : ∀ node ∈ graph.nodes, other.succs node = graph.succs node) {node : Node} :
    other.Reachable node ↔ graph.Reachable node := by
  constructor
  · intro reachable
    induction reachable with
    | refl =>
        rw [entry]
        exact .refl
    | @tail source target _ edge induction =>
        have same := succs source (closed.mem_of_reachable induction)
        exact induction.tail (show target ∈ graph.succs source from same ▸ edge)
  · intro reachable
    induction reachable with
    | refl =>
        rw [← entry]
        exact .refl
    | @tail source target before edge induction =>
        have same := succs source (closed.mem_of_reachable before)
        exact induction.tail (show target ∈ other.succs source from same.symm ▸ edge)

end Graph

/-- A control flow graph whose blocks need not be reachable: they have distinct ids and name
each other mutually. -/
structure FlowGraph (Node : Type) [DecidableEq Node] extends Graph Node where
  closed : toGraph.Closed
  preds_mem : ∀ node ∈ nodes, ∀ pred ∈ preds node, pred ∈ nodes
  mirrored : ∀ source ∈ nodes, ∀ target ∈ nodes,
    (succs source).count target = (preds target).count source
  ids : ∀ left ∈ nodes, ∀ right ∈ nodes, id left = id right → left = right

/-- A control flow graph as the analyses expect it: all blocks are reachable,
have distinct ids, and name each other mutually. -/
structure Cfg (Node : Type) [DecidableEq Node] extends Graph Node where
  closed : toGraph.Closed
  allReachable : ∀ node ∈ nodes, toGraph.Reachable node
  preds_mem : ∀ node ∈ nodes, ∀ pred ∈ preds node, pred ∈ nodes
  mirrored : ∀ source ∈ nodes, ∀ target ∈ nodes,
    (succs source).count target = (preds target).count source
  ids : ∀ left ∈ nodes, ∀ right ∈ nodes, id left = id right → left = right

namespace Cfg

variable [DecidableEq Node] (cfg : Cfg Node)

theorem mem_preds_iff {source target : Node} (sourceMem : source ∈ cfg.nodes)
    (targetMem : target ∈ cfg.nodes) : source ∈ cfg.preds target ↔ cfg.Edge source target := by
  have counts := cfg.mirrored source sourceMem target targetMem
  rw [Graph.Edge, ← List.count_pos_iff, ← List.count_pos_iff]
  omega

end Cfg

end LeechJit
