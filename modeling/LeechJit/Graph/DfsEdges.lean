import LeechJit.Graph.DfsTree

/-! # The edges of depth-first search

An edge that is no back edge leads to a node that finishes earlier.
-/

namespace LeechJit.Graph

variable {Node : Type}

structure EdgesInvariant (graph : Graph Node) (state : DFSState Node) : Prop where
  search : SearchInvariant graph state
  /-- A successor that has been passed is finished, on the stack, or right above. -/
  scanned : ∀ above first node below, state.toVisit = above ++ (first, node) :: below →
    ∃ done, graph.succs node = done ++ first ∧ ∀ succ ∈ done,
      succ ∈ finished state.events ∨ .backEdge node succ ∈ state.events ∨
        succ ∈ above.map Prod.snd
  settled : ∀ node ∈ finished state.events, ∀ succ ∈ graph.succs node,
    .backEdge node succ ∈ state.events ∨ [succ, node].Sublist (finished state.events)

namespace EdgesInvariant

variable [DecidableEq Node] {graph : Graph Node} {state next : DFSState Node}

theorem start (graph : Graph Node) : EdgesInvariant graph (dfsStart graph) where
  search := .start graph
  scanned above first node below split := by
    cases above with
    | nil =>
        cases split
        exact ⟨[], rfl, by simp⟩
    | cons entry rest =>
        have lengths := congrArg List.length split
        simp [dfsStart, visitNode] at lengths
  settled node member := by simp [dfsStart, visitNode] at member

omit [DecidableEq Node] in
/-- A successor that is visited is finished, or reported. -/
theorem seen_cases (invariant : EdgesInvariant graph state) {parent succ : Node}
    {edges : List (Event Node)} (seen : state.visited succ ≠ none)
    (complete : state.visited succ = some .grey → .backEdge parent succ ∈ edges) :
    succ ∈ finished state.events ∨ .backEdge parent succ ∈ edges := by
  cases color : state.visited succ with
  | none => exact absurd color seen
  | some shade =>
      cases shade with
      | grey => exact .inr (complete color)
      | black => exact .inl ((invariant.search.finished_iff succ).mp color)

theorem finish {first : List Node} {parent : Node} {stack : List (List Node × Node)}
    {edges : List (Event Node)} (invariant : EdgesInvariant graph state)
    (top : state.toVisit = (first, parent) :: stack)
    (seen : ∀ succ ∈ first, state.visited succ ≠ none)
    (noDiscovered : discovered edges = []) (noFinished : finished edges = [])
    (complete : ∀ succ ∈ first, state.visited succ = some .grey →
      .backEdge parent succ ∈ edges) :
    EdgesInvariant graph
      { visited := Function.update state.visited parent (some .black)
        toVisit := stack
        events := state.events ++ edges ++ [.finishNode parent] } := by
  have oneFinished : finished (state.events ++ edges ++ [.finishNode parent]) =
      finished state.events ++ [parent] := by simp [noFinished]
  have older : ∀ event, event ∈ state.events →
      event ∈ state.events ++ edges ++ [.finishNode parent] := by
    intro event member
    simp [member]
  constructor
  case search => exact invariant.search.finish top seen noDiscovered noFinished
  case scanned =>
    intro above others node below split
    dsimp only at split
    have split' : state.toVisit = ((first, parent) :: above) ++ (others, node) :: below := by
      rw [top, split]
      rfl
    rcases invariant.scanned _ others node below split' with ⟨done, succs, passed⟩
    refine ⟨done, succs, fun succ inDone => ?_⟩
    dsimp only
    rw [oneFinished, List.mem_append, List.mem_singleton]
    rcases passed succ inDone with isFinished | reported | isAbove
    · exact .inl (.inl isFinished)
    · exact .inr (.inl (older _ reported))
    · rcases List.mem_cons.mp isAbove with rfl | isAbove
      · exact .inl (.inr rfl)
      · exact .inr (.inr isAbove)
  case settled =>
    intro node member succ isSucc
    dsimp only at member ⊢
    rw [oneFinished, List.mem_append, List.mem_singleton] at member
    rw [oneFinished]
    rcases member with old | rfl
    · rcases invariant.settled node old succ isSucc with reported | pair
      · exact .inl (older _ reported)
      · exact .inr (pair.trans (List.sublist_append_left _ _))
    · have last : succ ∈ finished state.events →
          [succ, node].Sublist (finished state.events ++ [node]) := fun isFinished =>
        (List.singleton_sublist.mpr isFinished).append (.refl [node])
      rcases invariant.scanned [] first node stack top with ⟨done, succs, passed⟩
      rw [succs, List.mem_append] at isSucc
      rcases isSucc with inDone | inFirst
      · rcases passed succ inDone with isFinished | reported | isAbove
        · exact .inr (last isFinished)
        · exact .inl (older _ reported)
        · cases isAbove
      · rcases invariant.seen_cases (seen succ inFirst) (complete succ inFirst) with
          isFinished | reported
        · exact .inr (last isFinished)
        · exact .inl (by simp [reported])

theorem discover {skipped rest : List Node} {node parent : Node}
    {stack : List (List Node × Node)} {edges : List (Event Node)}
    (invariant : EdgesInvariant graph state)
    (top : state.toVisit = (skipped ++ node :: rest, parent) :: stack)
    (seen : ∀ succ ∈ skipped, state.visited succ ≠ none)
    (fresh : state.visited node = none)
    (noDiscovered : discovered edges = []) (noFinished : finished edges = [])
    (complete : ∀ succ ∈ skipped, state.visited succ = some .grey →
      .backEdge parent succ ∈ edges) :
    EdgesInvariant graph
      { visited := Function.update state.visited node (some .grey)
        toVisit := (graph.succs node, node) :: (rest, parent) :: stack
        events := state.events ++ edges ++ [.discoverNode node] } := by
  have sameFinished : finished (state.events ++ edges ++ [.discoverNode node]) =
      finished state.events := by simp [noFinished]
  have older : ∀ event, event ∈ state.events →
      event ∈ state.events ++ edges ++ [.discoverNode node] := by
    intro event member
    simp [member]
  constructor
  case search => exact invariant.search.discover top seen fresh noDiscovered noFinished
  case scanned =>
    intro above first other below split
    dsimp only at split ⊢
    rw [sameFinished]
    cases above with
    | nil =>
        cases split
        exact ⟨[], rfl, by simp⟩
    | cons entry above =>
        rw [List.cons_append, List.cons.injEq] at split
        rcases split with ⟨rfl, split⟩
        cases above with
        | nil =>
            cases split
            rcases invariant.scanned [] _ parent stack top with ⟨done, succs, passed⟩
            refine ⟨done ++ skipped ++ [node], by simp [succs], fun succ isDone => ?_⟩
            rw [List.mem_append, List.mem_append, List.mem_singleton] at isDone
            rcases isDone with (inDone | inSkipped) | rfl
            · rcases passed succ inDone with isFinished | reported | isAbove
              · exact .inl isFinished
              · exact .inr (.inl (older _ reported))
              · cases isAbove
            · rcases invariant.seen_cases (seen succ inSkipped) (complete succ inSkipped) with
                isFinished | reported
              · exact .inl isFinished
              · exact .inr (.inl (by simp [reported]))
            · exact .inr (.inr (.head _))
        | cons second above =>
            rw [List.cons_append, List.cons.injEq] at split
            rcases split with ⟨rfl, rfl⟩
            rcases invariant.scanned ((skipped ++ node :: rest, parent) :: above) first other below
              top with ⟨done, succs, passed⟩
            refine ⟨done, succs, fun succ inDone => ?_⟩
            rcases passed succ inDone with isFinished | reported | isAbove
            · exact .inl isFinished
            · exact .inr (.inl (older _ reported))
            · exact .inr (.inr (.tail _ isAbove))
  case settled =>
    intro other member succ isSucc
    dsimp only at member ⊢
    rw [sameFinished] at member ⊢
    exact (invariant.settled other member succ isSucc).imp_left (older _)

theorem iterate (invariant : EdgesInvariant graph state) (rounds : Nat) :
    EdgesInvariant graph ((dfsStep graph)^[rounds] state) := by
  induction rounds generalizing state with
  | zero => exact invariant
  | succ rounds induction =>
      rw [Function.iterate_succ_apply]
      apply induction
      have round := dfsStep_round graph state
      revert round
      generalize dfsStep graph state = next
      intro round
      cases round with
      | idle empty => exact invariant
      | finish first parent stack edges top seen noDiscovered noFinished _ complete =>
          exact invariant.finish top seen noDiscovered noFinished complete
      | discover skipped node rest parent stack edges top seen fresh noDiscovered noFinished _
          complete =>
          exact invariant.discover top seen fresh noDiscovered noFinished complete

end EdgesInvariant

section Edges

variable [DecidableEq Node] {graph : Graph Node}

/-- An edge is a back edge, or its target finishes first. -/
theorem edge_settled (closed : graph.Closed) {source target : Node}
    (reachable : graph.Reachable source) (edge : graph.Edge source target) :
    .backEdge source target ∈ graph.depthFirstSearch ∨
      graph.finishTime target < graph.finishTime source := by
  have invariant : EdgesInvariant graph (dfsRun graph) := (EdgesInvariant.start graph).iterate _
  have isFinished := (mem_postOrder closed).mpr reachable
  exact (invariant.settled source isFinished target edge).imp_right
    (idxOf_lt_of_sublist postOrder_nodup)

end Edges

end LeechJit.Graph
