import LeechJit.Graph.DfsEdges
import LeechJit.Graph.NaturalLoop

/-! # Natural loops one inside another

Where the target of every back edge dominates the source, two natural loops are apart or
one is inside the other, and the one inside finishes first.
-/

namespace LeechJit.Graph

open Dominance

variable {Node : Type} [DecidableEq Node]

/-- The target of each back edge dominates its source. -/
def BackEdgesDominated (graph : Graph Node) : Prop :=
  ∀ header, ∀ src ∈ graph.backEdgesSrc header, graph.Dominates header src

/-- The natural loop of `header` contains `node`. -/
def Contains (graph : Graph Node) (header node : Node) : Prop :=
  node = header ∨ graph.InLoop header node

/-- The smallest loop that contains `node`. -/
def Innermost (graph : Graph Node) (header node : Node) : Prop :=
  graph.IsHeader header ∧ graph.Contains header node ∧
    ∀ other, graph.IsHeader other → graph.Contains other node →
      ∀ inside, graph.Contains header inside → graph.Contains other inside

/-- The smallest loop with the loop of `inner` inside it. -/
def Around (graph : Graph Node) (inner outer : Node) : Prop :=
  graph.IsHeader outer ∧ graph.InLoop outer inner ∧
    ∀ other, graph.IsHeader other → graph.InLoop other inner →
      ∀ inside, graph.Contains outer inside → graph.Contains other inside

variable {graph : Graph Node} {header other node inner outer : Node}

theorem finishTime_inj (closed : graph.Closed) (reachable : graph.Reachable node)
    (same : graph.finishTime node = graph.finishTime other) : node = other :=
  (List.idxOf_inj ((mem_postOrder closed).mpr reachable)).mp same

/-- Of the nodes with a property one finishes first. -/
theorem exists_first (holds : Node → Prop) (some : holds header) :
    ∃ first, holds first ∧ ∀ other, holds other →
      graph.finishTime first ≤ graph.finishTime other := by
  induction time : graph.finishTime header using Nat.strong_induction_on generalizing header with
  | _ time induction =>
      by_cases least : ∀ other, holds other → graph.finishTime header ≤ graph.finishTime other
      · exact ⟨header, some, least⟩
      · simp only [not_forall, not_le] at least
        rcases least with ⟨other, holdsOther, earlier⟩
        exact induction _ (time ▸ earlier) holdsOther rfl

namespace BackEdgesDominated

variable (dominated : graph.BackEdgesDominated)

include dominated

theorem dominates (inLoop : graph.InLoop header node) : graph.Dominates header node :=
  inLoop.dominates (dominated header)

theorem finishTime_lt (closed : graph.Closed) (inLoop : graph.InLoop header node)
    (reachable : graph.Reachable node) : graph.finishTime node < graph.finishTime header :=
  finishTime_lt_of_dominates closed reachable (dominated.dominates inLoop) inLoop.ne.symm

theorem finishTime_le (closed : graph.Closed) (contains : graph.Contains header node)
    (reachable : graph.Reachable node) : graph.finishTime node ≤ graph.finishTime header := by
  rcases contains with rfl | inLoop
  · exact le_refl _
  · exact (dominated.finishTime_lt closed inLoop reachable).le

theorem inLoop_trans (outerHeader : graph.IsHeader outer) (inInner : graph.InLoop inner node)
    (inOuter : graph.InLoop outer inner) : graph.InLoop outer node := by
  rcases inInner with ⟨src, isSrc, nodes, walk, missed⟩
  have avoids : outer ∉ nodes := by
    intro passed
    rcases List.append_of_mem passed with ⟨front, back, rfl⟩
    have below : graph.InLoop inner outer := by
      refine ⟨src, isSrc, outer :: back, walk.split.2, ?_⟩
      exact fun member => missed (List.mem_append_right _ member)
    have equal := Dominates.antisymm (isHeader_reachable outerHeader)
      (dominated.dominates below) (dominated.dominates inOuter)
    exact inOuter.ne equal
  have edge := backEdge_edge (mem_backEdgesSrc.mp isSrc)
  apply inOuter.of_walk (walk.snoc edge)
  rw [List.mem_append, List.mem_singleton]
  exact not_or.mpr ⟨avoids, inOuter.ne.symm⟩

theorem inLoop_of_contains (outerHeader : graph.IsHeader outer)
    (contains : graph.Contains inner node) (inOuter : graph.InLoop outer inner) :
    graph.InLoop outer node := by
  rcases contains with rfl | inInner
  · exact inOuter
  · exact dominated.inLoop_trans outerHeader inInner inOuter

theorem contains_trans (outerHeader : graph.IsHeader outer)
    (contains : graph.Contains inner node) (inOuter : graph.Contains outer inner) :
    graph.Contains outer node := by
  rcases inOuter with rfl | inOuter
  · exact contains
  · exact .inr (dominated.inLoop_of_contains outerHeader contains inOuter)

/-- Of two loops that share a node the one that finishes first is inside the other. -/
theorem inLoop_of_common (closed : graph.Closed) (reachable : graph.Reachable node)
    (innerHeader : graph.IsHeader inner) (outerHeader : graph.IsHeader outer)
    (inInner : graph.Contains inner node)
    (inOuter : graph.Contains outer node)
    (earlier : graph.finishTime inner < graph.finishTime outer) : graph.InLoop outer inner := by
  have different : outer ≠ inner := by
    rintro rfl
    exact Nat.lt_irrefl _ earlier
  rcases inOuter with rfl | inOuter
  · rcases inInner with same | inInner
    · exact absurd same different
    · have later := dominated.finishTime_lt closed inInner (isHeader_reachable outerHeader)
      omega
  · rcases inInner with rfl | inInner
    · exact inOuter
    · rcases dominators_separate closed reachable (dominated.dominates inOuter)
        (dominated.dominates inInner) different with later | ⟨nodes, walk, missed⟩
      · omega
      · exact inOuter.of_walk walk missed

theorem contains_of_common (closed : graph.Closed) (reachable : graph.Reachable node)
    (innerHeader : graph.IsHeader inner) (outerHeader : graph.IsHeader outer)
    (inInner : graph.Contains inner node) (inOuter : graph.Contains outer node)
    (earlier : graph.finishTime inner ≤ graph.finishTime outer) : graph.Contains outer inner := by
  rcases Nat.lt_or_eq_of_le earlier with less | same
  · exact .inr (dominated.inLoop_of_common closed reachable innerHeader outerHeader inInner
      inOuter less)
  · exact .inl (finishTime_inj closed (isHeader_reachable innerHeader) same)

/-! ### The smallest loop is the first to finish -/

theorem innermost_iff (closed : graph.Closed) (reachable : graph.Reachable node) :
    graph.Innermost header node ↔ graph.IsHeader header ∧ graph.Contains header node ∧
      ∀ other, graph.IsHeader other → graph.Contains other node →
        graph.finishTime header ≤ graph.finishTime other := by
  apply and_congr_right
  intro isHeader
  apply and_congr_right
  intro contains
  constructor
  · intro smallest other otherHeader inOther
    have headerIn := smallest other otherHeader inOther header (.inl rfl)
    exact dominated.finishTime_le closed headerIn (isHeader_reachable isHeader)
  · intro first other otherHeader inOther inside isInside
    have headerIn := dominated.contains_of_common closed reachable isHeader otherHeader contains
      inOther (first other otherHeader inOther)
    exact dominated.contains_trans otherHeader isInside headerIn

theorem around_iff (closed : graph.Closed) (innerReachable : graph.Reachable inner) :
    graph.Around inner outer ↔ graph.IsHeader outer ∧ graph.InLoop outer inner ∧
      ∀ other, graph.IsHeader other → graph.InLoop other inner →
        graph.finishTime outer ≤ graph.finishTime other := by
  apply and_congr_right
  intro isHeader
  apply and_congr_right
  intro inLoop
  constructor
  · intro smallest other otherHeader inOther
    have outerIn := smallest other otherHeader inOther outer (.inl rfl)
    exact dominated.finishTime_le closed outerIn (isHeader_reachable isHeader)
  · intro first other otherHeader inOther inside isInside
    have outerIn := dominated.contains_of_common closed innerReachable isHeader otherHeader
      (.inr inLoop) (.inr inOther) (first other otherHeader inOther)
    exact dominated.contains_trans otherHeader isInside outerIn

theorem exists_innermost (closed : graph.Closed) (reachable : graph.Reachable node)
    (isHeader : graph.IsHeader header) (contains : graph.Contains header node) :
    ∃ first, graph.Innermost first node := by
  rcases exists_first (fun loop => graph.IsHeader loop ∧ graph.Contains loop node)
    ⟨isHeader, contains⟩ with ⟨first, ⟨firstHeader, inFirst⟩, least⟩
  exact ⟨first, (dominated.innermost_iff closed reachable).mpr
    ⟨firstHeader, inFirst, fun other otherHeader inOther => least other ⟨otherHeader, inOther⟩⟩⟩

theorem exists_around (closed : graph.Closed) (innerReachable : graph.Reachable inner)
    (isHeader : graph.IsHeader outer) (inLoop : graph.InLoop outer inner) :
    ∃ first, graph.Around inner first := by
  rcases exists_first (fun loop => graph.IsHeader loop ∧ graph.InLoop loop inner)
    ⟨isHeader, inLoop⟩ with ⟨first, ⟨firstHeader, inFirst⟩, least⟩
  exact ⟨first, (dominated.around_iff closed innerReachable).mpr
    ⟨firstHeader, inFirst, fun other otherHeader inOther => least other ⟨otherHeader, inOther⟩⟩⟩

/-- A node in a loop is in its innermost loop, or in a loop directly inside it. -/
theorem exists_between (closed : graph.Closed) (outerHeader : graph.IsHeader outer)
    (innerHeader : graph.IsHeader inner) (inOuter : graph.InLoop outer inner) :
    ∃ between, graph.Around between outer ∧ graph.IsHeader between ∧
      graph.Contains between inner := by
  -- Go out from the inner loop, from each loop to the one around it.
  induction gap : graph.finishTime outer - graph.finishTime inner using Nat.strong_induction_on
    generalizing inner with
  | _ gap induction =>
      have innerReachable := isHeader_reachable innerHeader
      rcases dominated.exists_around closed innerReachable outerHeader inOuter with ⟨loop, around⟩
      have first := (dominated.around_iff closed innerReachable).mp around
      rcases Nat.lt_or_eq_of_le (first.2.2 outer outerHeader inOuter) with less | same
      · have loopIn := dominated.inLoop_of_common closed innerReachable first.1 outerHeader
          (.inr first.2.1) (.inr inOuter) less
        have above := dominated.finishTime_lt closed first.2.1 innerReachable
        rcases induction _ (by omega) first.1 loopIn rfl with
          ⟨between, betweenAround, isHeader, contains⟩
        exact ⟨between, betweenAround, isHeader,
          dominated.contains_trans isHeader (.inr first.2.1) contains⟩
      · have equal := finishTime_inj closed (isHeader_reachable first.1) same
        exact ⟨inner, equal ▸ around, innerHeader, .inl rfl⟩

end BackEdgesDominated

end LeechJit.Graph
