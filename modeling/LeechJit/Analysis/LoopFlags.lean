import LeechJit.Analysis.LoopExact

/-! # The flag of a loop

The flag is the answer of the dominator tree on the first back edge that the search
meets; later ones do not change it.
-/

namespace LeechJit.Analysis

open LeechJit.Graph

variable {Node : Type} [DecidableEq Node]

/-- The loop is marked reducible when its header dominates all its latches, and only then. -/
def FlagRight (domTree : DominatorTree Node) (header : Node) (info : LoopInfo Node) : Prop :=
  info.reducible = true ↔ ∀ src ∈ info.backEdgesSrc, domTree.isDominator header src = .ok true

/-- When the header dominates the first of its latches, it dominates all of them. -/
def FirstDecides (domTree : DominatorTree Node) (graph : Graph Node) (header : Node) : Prop :=
  ∀ first rest, graph.backEdgesSrc header = first :: rest →
    domTree.isDominator header first = .ok true →
    ∀ src ∈ rest, domTree.isDominator header src = .ok true

theorem reducible_eq_true {graph : Graph Node} {domTree : DominatorTree Node} {header first : Node}
    {rest : List Node} (built : buildDomTree graph = .ok domTree)
    (latches : graph.backEdgesSrc header = first :: rest) :
    graph.reducible header = true ↔ domTree.isDominator header first = .ok true := by
  rw [reducible, built, latches]
  exact decide_eq_true_iff

/-- Each back-edge target has a loop with its latches, whose flag is right exactly when the
first latch decides. -/
theorem make_flagRight_iff (cfg : Cfg Node) :
    ∃ loops domTree, LoopAnalyzer.make cfg.toGraph = .ok loops ∧
      buildDomTree cfg.toGraph = .ok domTree ∧
      ∀ header, cfg.IsHeader header →
        (∃ id info, loops.loop id = .ok info ∧ info.header = some header) ∧
        ∀ id info, loops.loop id = .ok info → info.header = some header →
          info.backEdgesSrc = cfg.backEdgesSrc header ∧
            (FlagRight domTree header info ↔ FirstDecides domTree cfg.toGraph header) := by
  rcases make_settled cfg with ⟨loops, root, heads, nest, done, made, settled⟩
  rcases buildDomTree_treeOf cfg with ⟨domTree, -, built, -⟩
  refine ⟨loops, domTree, made, built, fun header isHeader => ⟨?_, ?_⟩⟩
  · rcases settled.loop_header isHeader with ⟨info, found, ofHeader, -⟩
    exact ⟨_, info, found, ofHeader⟩
  · intro id info found ofHeader
    rcases settled.loop_of_header found ofHeader with ⟨-, rfl⟩
    cases (settled.finished.loop header (settled.mem_heads.mpr isHeader)).symm.trans found
    refine ⟨rfl, ?_⟩
    rcases List.exists_cons_of_ne_nil isHeader with ⟨first, rest, latches⟩
    have flag := reducible_eq_true built latches
    simp only [FlagRight, FirstDecides, infoOf, flag, latches, List.forall_mem_cons,
      List.cons.injEq]
    constructor
    · rintro right _ _ ⟨rfl, rfl⟩ dominates
      exact (right.mp dominates).2
    · intro decides
      exact ⟨fun dominates => ⟨dominates, decides first rest ⟨rfl, rfl⟩ dominates⟩, And.left⟩

/-! ## A second latch that is entered from outside -/

def secondEntryGraph : Graph Nat where
  nodes := [0, 1, 2, 3]
  entryPoint := 0
  succs := fun node => match node with
    | 0 => [1, 3]
    | 1 => [2, 3]
    | _ => [1]
  preds := fun node => match node with
    | 1 => [0, 2, 3]
    | 2 => [1]
    | 3 => [0, 1]
    | _ => []
  id := fun node => node

def secondEntry : Cfg Nat where
  toGraph := secondEntryGraph
  closed := by decide
  allReachable := by
    have toHeader : secondEntryGraph.Edge 0 1 := by decide
    have toLatch : secondEntryGraph.Edge 1 2 := by decide
    have toSecond : secondEntryGraph.Edge 0 3 := by decide
    simpa [secondEntryGraph] using
      (⟨.refl, .single toHeader, (Relation.ReflTransGen.single toHeader).tail toLatch,
        .single toSecond⟩ : secondEntryGraph.Reachable 0 ∧ secondEntryGraph.Reachable 1 ∧
          secondEntryGraph.Reachable 2 ∧ secondEntryGraph.Reachable 3)
  preds_mem := by decide
  mirrored := by decide
  ids := by decide

/-- The loop of `1` is marked reducible, and `3` can be reached without it. -/
theorem not_flagRight_secondEntry :
    ∃ loops domTree id info, LoopAnalyzer.make secondEntry.toGraph = .ok loops ∧
      buildDomTree secondEntry.toGraph = .ok domTree ∧ secondEntry.IsHeader 1 ∧
      loops.loop id = .ok info ∧ info.header = some 1 ∧ info.backEdgesSrc = [2, 3] ∧
      ¬ FlagRight domTree 1 info := by
  have flagged : ∃ loops domTree, LoopAnalyzer.make secondEntry.toGraph = .ok loops ∧
      buildDomTree secondEntry.toGraph = .ok domTree ∧
      domTree.isDominator 1 3 = .ok false ∧ ∃ info, loops.loop 0 = .ok info ∧
        info.header = some 1 ∧ info.backEdgesSrc = [2, 3] ∧ info.reducible = true := by
    refine ⟨_, _, rfl, rfl, by decide, _, rfl, rfl, rfl, rfl⟩
  rcases flagged with ⟨loops, domTree, made, built, outside, info, found, ofHeader, latches, flag⟩
  refine ⟨loops, domTree, 0, info, made, built, by decide, found, ofHeader, latches, ?_⟩
  intro right
  have dominates := right.mp flag 3 (by simp [latches])
  rw [outside] at dominates
  cases dominates

end LeechJit.Analysis
