import LeechJit.Analysis.LoopAttach

/-! # Loops that are around themselves

The search of a loop can get out of it to the header of a loop that finishes later, and
takes that loop in. The loops are a forest unless it is itself in the loop it takes in.
-/

namespace LeechJit.Graph

open Relation

variable {Node : Type} [DecidableEq Node]

/-- `outer` is the loop that takes the loop of `inner` in. -/
def TakenBy (graph : Graph Node) (inner outer : Node) : Prop :=
  graph.Surrounds outer inner

/-- No loop is inside one that it took in and that finishes later. -/
def NoneTrapped (graph : Graph Node) : Prop :=
  ∀ inner outer, graph.TakenBy inner outer → graph.finishTime outer < graph.finishTime inner →
    ¬ TransGen graph.TakenBy outer inner

variable {graph : Graph Node} {inner outer : Node}

theorem TakenBy.finishTime_ne (closed : graph.Closed) (taken : graph.TakenBy inner outer) :
    graph.finishTime inner ≠ graph.finishTime outer := fun same =>
  taken.1.1 (finishTime_inj closed (isHeader_reachable taken.1.isInner) same)

/-- Going out from loop to loop the finish times grow, or there is a way back. -/
theorem takenBy_chain (closed : graph.Closed) (chain : TransGen graph.TakenBy inner outer) :
    graph.finishTime inner < graph.finishTime outer ∨ ∃ late early,
      graph.TakenBy late early ∧ graph.finishTime early < graph.finishTime late ∧
        ReflTransGen graph.TakenBy inner late ∧ ReflTransGen graph.TakenBy early outer := by
  have one : ∀ low high, graph.TakenBy low high →
      graph.finishTime low < graph.finishTime high ∨
        graph.finishTime high < graph.finishTime low := fun low high taken =>
    Nat.lt_or_gt_of_ne (taken.finishTime_ne closed)
  induction chain with
  | single taken => exact (one _ _ taken).imp_right fun back => ⟨_, _, taken, back, .refl, .refl⟩
  | tail before taken induction =>
      rcases induction with less | ⟨late, early, back, later, toLate, fromEarly⟩
      · rcases one _ _ taken with more | back
        · exact .inl (less.trans more)
        · exact .inr ⟨_, _, taken, back, before.to_reflTransGen, .refl⟩
      · exact .inr ⟨late, early, back, later, toLate, fromEarly.tail taken⟩

theorem noneTrapped_iff (closed : graph.Closed) :
    graph.NoneTrapped ↔ ∀ header, ¬ TransGen graph.TakenBy header header := by
  constructor
  · intro none header cycle
    rcases takenBy_chain closed cycle with less | ⟨late, early, back, later, toLate, fromEarly⟩
    · exact Nat.lt_irrefl _ less
    · rcases reflTransGen_iff_eq_or_transGen.mp (fromEarly.trans toLate) with same | chain
      · rw [same] at later
        exact Nat.lt_irrefl _ later
      · exact none late early back later chain
  · intro acyclic inner outer taken _ chain
    exact acyclic outer (chain.tail taken)

/-- Where no search gets out of its loop no loop is trapped. -/
theorem SearchesInward.noneTrapped (inward : graph.SearchesInward) : graph.NoneTrapped := by
  intro inner outer taken earlier
  rcases taken.1 with ⟨-, reducible, node, inside, meets, innerHeader, rfl | ⟨-, -, least⟩⟩
  · have later := inward outer reducible node innerHeader meets
    omega
  · have later := least outer (.inr ⟨reducible, inside, meets⟩)
    omega

end LeechJit.Graph

namespace LeechJit.Analysis

open LeechJit.Graph
open Relation

variable {Node : Type} [DecidableEq Node]

namespace Settled

variable {cfg : Cfg Node} {heads done : List Node} {nest : Nest Node}
  {loops : LoopAnalyzer Node} {root : Option LoopId}

variable (settled : Settled cfg heads done nest loops root)

include settled

theorem outer_of_takenBy {inner outer : Node} (taken : cfg.TakenBy inner outer) :
    loops.Outer (heads.idxOf inner) (heads.idxOf outer) := by
  have innerMem := (settled.finished.headers inner).mpr taken.1.isInner
  have outerMem := (settled.finished.headers outer).mpr taken.1.isHeader
  rw [settled.finished.outer_nest settled.plain innerMem outerMem, settled.outer_iff]
  exact taken

/-- From a loop outwards there are the loops that took it in, and then the root loop. -/
theorem outer_chain {innerId outerId : LoopId} (chain : TransGen loops.Outer innerId outerId) :
    ∃ inner ∈ heads, innerId = heads.idxOf inner ∧ (root = some outerId ∨ ∃ outer ∈ heads,
      outerId = heads.idxOf outer ∧ TransGen cfg.TakenBy inner outer) := by
  have one : ∀ inner ∈ heads, ∀ id, loops.Outer (heads.idxOf inner) id →
      root = some id ∨ ∃ outer ∈ heads, id = heads.idxOf outer ∧ cfg.TakenBy inner outer := by
    intro inner member id around
    rw [settled.finished.outer_iff member] at around
    cases taken : nest.outer inner with
    | none =>
        rw [taken] at around
        exact .inl around
    | some outer =>
        rw [taken] at around
        have surrounds := (settled.outer_iff inner outer).mp taken
        have outerMem := (settled.finished.headers outer).mpr surrounds.1.isHeader
        exact .inr ⟨outer, outerMem, (Option.some.inj around).symm, surrounds⟩
  induction chain with
  | single around =>
      rcases settled.finished.outer_header around with ⟨inner, member, rfl⟩
      refine ⟨inner, member, rfl, (one inner member _ around).imp_right ?_⟩
      rintro ⟨outer, outerMem, isId, taken⟩
      exact ⟨outer, outerMem, isId, .single taken⟩
  | tail _ around induction =>
      rcases induction with ⟨inner, member, isInner, isRoot | ⟨middle, middleMem, rfl, before⟩⟩
      · rcases settled.finished.outer_header around with ⟨header, headerMem, rfl⟩
        have below := List.idxOf_lt_length_of_mem headerMem
        rw [(settled.finished.rootLoop _ isRoot).1] at below
        exact absurd below (Nat.lt_irrefl _)
      · refine ⟨inner, member, isInner, (one middle middleMem _ around).imp_right ?_⟩
        rintro ⟨outer, outerMem, isId, taken⟩
        exact ⟨outer, outerMem, isId, before.tail taken⟩

theorem isForest_iff : loops.IsForest ↔ cfg.NoneTrapped := by
  rw [settled.finished.isForest_iff settled.plain, noneTrapped_iff cfg.closed]
  constructor
  · intro acyclic header cycle
    apply acyclic (heads.idxOf header)
    exact TransGen.lift heads.idxOf (fun _ _ => settled.outer_of_takenBy) _ _ cycle
  · intro acyclic loopId cycle
    rcases settled.outer_chain cycle with ⟨inner, member, rfl, isRoot | ⟨outer, -, same, chain⟩⟩
    · have below := List.idxOf_lt_length_of_mem member
      rw [(settled.finished.rootLoop _ isRoot).1] at below
      exact Nat.lt_irrefl _ below
    · cases (List.idxOf_inj member).mp same
      exact acyclic inner chain

end Settled

/-- The loops are a forest exactly when none is trapped in one that it took in. -/
theorem make_isForest_iff (cfg : Cfg Node) :
    ∃ loops, LoopAnalyzer.make cfg.toGraph = .ok loops ∧ (loops.IsForest ↔ cfg.NoneTrapped) := by
  rcases make_settled cfg with ⟨loops, root, heads, nest, done, made, settled⟩
  exact ⟨loops, made, settled.isForest_iff⟩

/-! ## A loop of one block inside another -/

def innerSelfLoopGraph : Graph Nat where
  nodes := [0, 1, 2]
  entryPoint := 0
  succs := fun node => match node with
    | 0 => [1]
    | 1 => [2, 1]
    | _ => [0]
  preds := fun node => match node with
    | 0 => [2]
    | 1 => [0, 1]
    | _ => [1]
  id := fun node => node

def innerSelfLoop : Cfg Nat where
  toGraph := innerSelfLoopGraph
  closed := by decide
  allReachable := by
    have toInner : innerSelfLoopGraph.Edge 0 1 := by decide
    have toLatch : innerSelfLoopGraph.Edge 1 2 := by decide
    have inner : innerSelfLoopGraph.Reachable 1 := .single toInner
    simpa [innerSelfLoopGraph] using
      (⟨.refl, inner, inner.tail toLatch⟩ : innerSelfLoopGraph.Reachable 0 ∧
        innerSelfLoopGraph.Reachable 1 ∧ innerSelfLoopGraph.Reachable 2)
  preds_mem := by decide
  mirrored := by decide
  ids := by decide

/-- The search of the inner loop goes on at its header, which is a source, and takes the
outer loop in; then the outer loop takes in the inner one. -/
theorem not_isForest_innerSelfLoop :
    ∃ loops, LoopAnalyzer.make innerSelfLoop.toGraph = .ok loops ∧ loops.Outer 0 1 ∧
      loops.Outer 1 0 ∧ ¬ loops.IsForest := by
  have made : ∃ loops, LoopAnalyzer.make innerSelfLoop.toGraph = .ok loops ∧
      loops.Outer 0 1 ∧ loops.Outer 1 0 := ⟨_, rfl, ⟨_, rfl, rfl⟩, ⟨_, rfl, rfl⟩⟩
  rcases made with ⟨loops, made, inwards, outwards⟩
  refine ⟨loops, made, inwards, outwards, ?_⟩
  intro forest
  exact forest.acyclic 0 (.tail (.single inwards) outwards)

end LeechJit.Analysis
