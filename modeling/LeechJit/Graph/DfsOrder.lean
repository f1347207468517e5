import Mathlib.Data.Finset.Card
import LeechJit.Graph.Dfs

/-! # What depth-first search visits

`SearchInvariant` says what the loop of `depthFirstSearch` keeps from round to
round. At its end every discovered node is finished and the discovered nodes are
closed under successors, so they are exactly the reachable ones.
-/

namespace LeechJit.Graph

variable {Node : Type}

def discovered (events : List (Event Node)) : List Node :=
  events.filterMap Event.discovered?

def finished (events : List (Event Node)) : List Node :=
  events.filterMap Event.finished?

@[simp] theorem discovered_append (front back : List (Event Node)) :
    discovered (front ++ back) = discovered front ++ discovered back :=
  List.filterMap_append

@[simp] theorem finished_append (front back : List (Event Node)) :
    finished (front ++ back) = finished front ++ finished back :=
  List.filterMap_append

@[simp] theorem discovered_discoverNode (node : Node) :
    discovered [Event.discoverNode node] = [node] := rfl

@[simp] theorem finished_discoverNode (node : Node) :
    finished [Event.discoverNode node] = [] := rfl

@[simp] theorem discovered_finishNode (node : Node) :
    discovered [Event.finishNode node] = [] := rfl

@[simp] theorem finished_finishNode (node : Node) :
    finished [Event.finishNode node] = [node] := rfl

@[simp] theorem finished_backEdge (src tar : Node) :
    finished [Event.backEdge src tar] = [] := rfl

/-! ## The scan of the successors -/

/-- What the scan of `first` found: the successors it skipped are visited. -/
inductive Scanned (visited : Node → Option DFSColor) (first : List Node) :
    Option (Node × List Node) → Prop where
  | all (seen : ∀ succ ∈ first, visited succ ≠ none) : Scanned visited first none
  | found (skipped : List Node) (node : Node) (rest : List Node)
      (split : first = skipped ++ node :: rest)
      (seen : ∀ succ ∈ skipped, visited succ ≠ none) (fresh : visited node = none) :
      Scanned visited first (some (node, rest))

theorem Scanned.skip {visited : Node → Option DFSColor} {succ : Node} {rest : List Node}
    {result : Option (Node × List Node)} (scanned : Scanned visited rest result)
    (seen : visited succ ≠ none) : Scanned visited (succ :: rest) result := by
  cases scanned with
  | all others =>
      apply Scanned.all
      intro other member
      cases member with
      | head => exact seen
      | tail _ member => exact others other member
  | found skipped node rest split others fresh =>
      subst split
      apply Scanned.found (succ :: skipped) node rest rfl _ fresh
      intro other member
      cases member with
      | head => exact seen
      | tail _ member => exact others other member

theorem findUnvisited_scanned (visited : Node → Option DFSColor) (parent : Node)
    (first : List Node) : Scanned visited first (findUnvisited visited parent first).2 := by
  induction first with
  | nil => exact Scanned.all (by simp)
  | cons succ rest induction =>
      cases color : visited succ with
      | none =>
          simp only [findUnvisited, color]
          exact Scanned.found [] succ rest rfl (by simp) color
      | some shade =>
          have seen : visited succ ≠ none := by simp [color]
          cases shade with
          | grey =>
              simp only [findUnvisited, color]
              exact induction.skip seen
          | black =>
              simp only [findUnvisited, color]
              exact induction.skip seen

/-- A scan reports nothing but back edges from the scanned node to grey successors. -/
theorem findUnvisited_events (visited : Node → Option DFSColor) (parent : Node)
    (first : List Node) :
    ∀ event ∈ (findUnvisited visited parent first).1,
      ∃ succ ∈ first, visited succ = some .grey ∧ event = .backEdge parent succ := by
  induction first with
  | nil => simp [findUnvisited]
  | cons succ rest induction =>
      have later : ∀ event ∈ (findUnvisited visited parent rest).1,
          ∃ other ∈ succ :: rest, visited other = some .grey ∧
            event = .backEdge parent other := by
        intro event member
        rcases induction event member with ⟨other, inRest, grey, equal⟩
        exact ⟨other, List.mem_cons_of_mem _ inRest, grey, equal⟩
      cases color : visited succ with
      | none => simp [findUnvisited, color]
      | some shade =>
          cases shade with
          | grey =>
              simp only [findUnvisited, color]
              intro event member
              cases member with
              | head => exact ⟨succ, List.mem_cons_self, color, rfl⟩
              | tail _ member => exact later event member
          | black =>
              simp only [findUnvisited, color]
              exact later

/-- And it reports all of those it passes. -/
theorem findUnvisited_reports (visited : Node → Option DFSColor) (parent : Node)
    {first front back : List Node} {succ : Node} (split : first = front ++ succ :: back)
    (seen : ∀ other ∈ front, visited other ≠ none) (grey : visited succ = some .grey) :
    .backEdge parent succ ∈ (findUnvisited visited parent first).1 := by
  induction front generalizing first with
  | nil => simp [split, findUnvisited, grey]
  | cons head rest induction =>
      have later := induction rfl fun other inRest => seen other (.tail _ inRest)
      subst split
      cases color : visited head with
      | none => exact absurd color (seen head (.head _))
      | some shade =>
          cases shade with
          | grey => simp [findUnvisited, color, later]
          | black => simpa [findUnvisited, color] using later

theorem findUnvisited_discovered (visited : Node → Option DFSColor) (parent : Node)
    (first : List Node) : discovered (findUnvisited visited parent first).1 = [] := by
  apply List.filterMap_eq_nil_iff.mpr
  intro event member
  rcases findUnvisited_events visited parent first event member with ⟨_, _, _, rfl⟩
  rfl

theorem findUnvisited_finished (visited : Node → Option DFSColor) (parent : Node)
    (first : List Node) : finished (findUnvisited visited parent first).1 = [] := by
  apply List.filterMap_eq_nil_iff.mpr
  intro event member
  rcases findUnvisited_events visited parent first event member with ⟨_, _, _, rfl⟩
  rfl

/-! ## The rounds -/

variable [DecidableEq Node]

/-- What one round does: it finishes the node on top of the stack, or discovers
its next successor. -/
inductive Round (graph : Graph Node) (state : DFSState Node) : DFSState Node → Prop where
  | idle (empty : state.toVisit = []) : Round graph state state
  | finish (first : List Node) (parent : Node) (stack : List (List Node × Node))
      (edges : List (Event Node)) (top : state.toVisit = (first, parent) :: stack)
      (seen : ∀ succ ∈ first, state.visited succ ≠ none)
      (noDiscovered : discovered edges = []) (noFinished : finished edges = [])
      (reported : ∀ event ∈ edges, ∃ succ ∈ first, state.visited succ = some .grey ∧
        event = .backEdge parent succ)
      (complete : ∀ succ ∈ first, state.visited succ = some .grey →
        .backEdge parent succ ∈ edges) :
      Round graph state
        { visited := Function.update state.visited parent (some .black)
          toVisit := stack
          events := state.events ++ edges ++ [.finishNode parent] }
  | discover (skipped : List Node) (node : Node) (rest : List Node) (parent : Node)
      (stack : List (List Node × Node)) (edges : List (Event Node))
      (top : state.toVisit = (skipped ++ node :: rest, parent) :: stack)
      (seen : ∀ succ ∈ skipped, state.visited succ ≠ none)
      (fresh : state.visited node = none)
      (noDiscovered : discovered edges = []) (noFinished : finished edges = [])
      (reported : ∀ event ∈ edges, ∃ succ ∈ skipped ++ node :: rest,
        state.visited succ = some .grey ∧ event = .backEdge parent succ)
      (complete : ∀ succ ∈ skipped, state.visited succ = some .grey →
        .backEdge parent succ ∈ edges) :
      Round graph state
        { visited := Function.update state.visited node (some .grey)
          toVisit := (graph.succs node, node) :: (rest, parent) :: stack
          events := state.events ++ edges ++ [.discoverNode node] }

theorem dfsStep_round (graph : Graph Node) (state : DFSState Node) :
    Round graph state (dfsStep graph state) := by
  cases top : state.toVisit with
  | nil =>
      simp only [dfsStep, top]
      exact Round.idle top
  | cons entry stack =>
      rcases entry with ⟨first, parent⟩
      have scanned := findUnvisited_scanned state.visited parent first
      have noDiscovered := findUnvisited_discovered state.visited parent first
      have noFinished := findUnvisited_finished state.visited parent first
      have reported := findUnvisited_events state.visited parent first
      have complete : ∀ front succ back, first = front ++ succ :: back →
          (∀ other ∈ front, state.visited other ≠ none) → state.visited succ = some .grey →
            .backEdge parent succ ∈ (findUnvisited state.visited parent first).1 :=
        fun _ _ _ => findUnvisited_reports state.visited parent
      simp only [dfsStep, top]
      rcases found : findUnvisited state.visited parent first with ⟨edges, result⟩
      rw [found] at scanned noDiscovered noFinished reported complete
      cases scanned with
      | all seen =>
          apply Round.finish first parent stack edges top seen noDiscovered noFinished reported
          intro succ member grey
          rcases List.append_of_mem member with ⟨front, back, split⟩
          refine complete front succ back split (fun other inFront => seen other ?_) grey
          rw [split]
          exact List.mem_append_left _ inFront
      | found skipped node rest split seen fresh =>
          subst split
          apply Round.discover skipped node rest parent stack edges top seen fresh
            noDiscovered noFinished reported
          intro succ member grey
          rcases List.append_of_mem member with ⟨front, back, rfl⟩
          refine complete front succ (back ++ node :: rest) (by simp)
            (fun other inFront => seen other ?_) grey
          exact List.mem_append_left _ inFront

/-! ## The invariant -/

structure SearchInvariant (graph : Graph Node) (state : DFSState Node) : Prop where
  visited_iff : ∀ node, state.visited node ≠ none ↔ node ∈ discovered state.events
  finished_iff : ∀ node, state.visited node = some .black ↔ node ∈ finished state.events
  grey_iff : ∀ node, state.visited node = some .grey ↔ ∃ entry ∈ state.toVisit, entry.2 = node
  discoveredNodup : (discovered state.events).Nodup
  finishedNodup : (finished state.events).Nodup
  stackNodup : (state.toVisit.map Prod.snd).Nodup
  /-- The successors of a node that are not on its stack entry any more are visited. -/
  scanned : ∀ entry ∈ state.toVisit, ∃ done, graph.succs entry.2 = done ++ entry.1 ∧
    ∀ succ ∈ done, state.visited succ ≠ none
  closed : ∀ node, state.visited node = some .black →
    ∀ succ ∈ graph.succs node, state.visited succ ≠ none
  reachable : ∀ node ∈ discovered state.events, graph.Reachable node
  head : (discovered state.events).head? = some graph.entryPoint
  parent : ∀ front node back, discovered state.events = front ++ node :: back →
    front ≠ [] → ∃ parent ∈ front, graph.Edge parent node

namespace SearchInvariant

variable {graph : Graph Node} {state next : DFSState Node}

theorem start (graph : Graph Node) : SearchInvariant graph (dfsStart graph) where
  visited_iff node := by
    by_cases same : node = graph.entryPoint <;> simp [dfsStart, visitNode, same]
  finished_iff node := by
    by_cases same : node = graph.entryPoint <;> simp [dfsStart, visitNode, same]
  grey_iff node := by
    by_cases same : node = graph.entryPoint
    · simp [dfsStart, visitNode, same]
    · have different : graph.entryPoint ≠ node := fun equal => same equal.symm
      simp [dfsStart, visitNode, same, different]
  discoveredNodup := by simp [dfsStart, visitNode]
  finishedNodup := by simp [dfsStart, visitNode]
  stackNodup := by simp [dfsStart, visitNode]
  scanned := by simp [dfsStart, visitNode]
  closed node black := by
    by_cases same : node = graph.entryPoint <;> simp [dfsStart, visitNode, same] at black
  reachable := by simp [dfsStart, visitNode, Graph.Reachable, Relation.ReflTransGen.refl]
  head := by simp [dfsStart, visitNode]
  parent front node back split notFirst := by
    have lengths := congrArg List.length split
    have positive := List.length_pos_iff.mpr notFirst
    simp only [dfsStart, visitNode, List.nil_append, discovered_discoverNode,
      List.length_nil, List.length_append, List.length_cons] at lengths
    omega

omit [DecidableEq Node] in
/-- A node of the stack has been discovered. -/
theorem visited_of_mem (invariant : SearchInvariant graph state)
    {entry : List Node × Node} (member : entry ∈ state.toVisit) :
    state.visited entry.2 = some .grey :=
  (invariant.grey_iff entry.2).mpr ⟨entry, member, rfl⟩

/-- Colours change, but what is visited stays visited. -/
theorem update_ne_none {visited : Node → Option DFSColor} {node : Node} {color : DFSColor}
    {other : Node} (seen : visited other ≠ none) :
    Function.update visited node (some color) other ≠ none := by
  by_cases same : other = node
  · simp [same]
  · simpa [same] using seen

theorem finish {first : List Node} {parent : Node} {stack : List (List Node × Node)}
    {edges : List (Event Node)} (invariant : SearchInvariant graph state)
    (top : state.toVisit = (first, parent) :: stack)
    (seen : ∀ succ ∈ first, state.visited succ ≠ none)
    (noDiscovered : discovered edges = []) (noFinished : finished edges = []) :
    SearchInvariant graph
      { visited := Function.update state.visited parent (some .black)
        toVisit := stack
        events := state.events ++ edges ++ [.finishNode parent] } := by
  have parentGrey : state.visited parent = some .grey :=
    invariant.visited_of_mem (top ▸ List.mem_cons_self)
  have stackNodup := invariant.stackNodup
  rw [top, List.map_cons, List.nodup_cons] at stackNodup
  have onStack : ∀ entry ∈ stack, entry ∈ state.toVisit := fun entry member =>
    top ▸ List.mem_cons_of_mem _ member
  have notParent : ∀ entry ∈ stack, entry.2 ≠ parent := fun entry member equal =>
    stackNodup.1 (List.mem_map.mpr ⟨entry, member, equal⟩)
  have sameDiscovered : discovered (state.events ++ edges ++ [.finishNode parent]) =
      discovered state.events := by simp [noDiscovered]
  have oneFinished : finished (state.events ++ edges ++ [.finishNode parent]) =
      finished state.events ++ [parent] := by simp [noFinished]
  constructor
  case visited_iff =>
    intro node
    rw [sameDiscovered, ← invariant.visited_iff]
    by_cases same : node = parent
    · simp [same, parentGrey]
    · simp [same]
  case finished_iff =>
    intro node
    rw [oneFinished, List.mem_append, List.mem_singleton, ← invariant.finished_iff]
    by_cases same : node = parent
    · simp [same]
    · simp [same]
  case grey_iff =>
    intro node
    by_cases same : node = parent
    · subst same
      simp only [Function.update_self, Option.some.injEq, reduceCtorEq, false_iff]
      rintro ⟨entry, member, equal⟩
      exact notParent entry member equal
    · dsimp only
      rw [Function.update_of_ne same, invariant.grey_iff, top]
      constructor
      · rintro ⟨entry, member, equal⟩
        cases member with
        | head => exact absurd equal.symm same
        | tail _ member => exact ⟨entry, member, equal⟩
      · rintro ⟨entry, member, equal⟩
        exact ⟨entry, List.mem_cons_of_mem _ member, equal⟩
  case discoveredNodup =>
    rw [sameDiscovered]
    exact invariant.discoveredNodup
  case finishedNodup =>
    have fresh : parent ∉ finished state.events := by
      rw [← invariant.finished_iff, parentGrey]
      simp
    rw [oneFinished]
    exact List.nodup_append.mpr ⟨invariant.finishedNodup, List.nodup_singleton _, by
      intro node member other isParent equal
      rw [List.mem_singleton] at isParent
      exact fresh (isParent ▸ equal ▸ member)⟩
  case stackNodup => exact stackNodup.2
  case scanned =>
    intro entry member
    rcases invariant.scanned entry (onStack entry member) with ⟨done, split, doneSeen⟩
    exact ⟨done, split, fun succ inDone => update_ne_none (doneSeen succ inDone)⟩
  case closed =>
    intro node black succ member
    apply update_ne_none
    by_cases same : node = parent
    · subst same
      rcases invariant.scanned _ (top ▸ List.mem_cons_self) with ⟨done, split, doneSeen⟩
      rw [show graph.succs node = done ++ first from split, List.mem_append] at member
      cases member with
      | inl inDone => exact doneSeen succ inDone
      | inr inFirst => exact seen succ inFirst
    · dsimp only at black
      rw [Function.update_of_ne same] at black
      exact invariant.closed node black succ member
  case reachable =>
    rw [sameDiscovered]
    exact invariant.reachable
  case head =>
    rw [sameDiscovered]
    exact invariant.head
  case parent =>
    rw [sameDiscovered]
    exact invariant.parent

theorem discover {skipped rest : List Node} {node parent : Node}
    {stack : List (List Node × Node)} {edges : List (Event Node)}
    (invariant : SearchInvariant graph state)
    (top : state.toVisit = (skipped ++ node :: rest, parent) :: stack)
    (seen : ∀ succ ∈ skipped, state.visited succ ≠ none)
    (fresh : state.visited node = none)
    (noDiscovered : discovered edges = []) (noFinished : finished edges = []) :
    SearchInvariant graph
      { visited := Function.update state.visited node (some .grey)
        toVisit := (graph.succs node, node) :: (rest, parent) :: stack
        events := state.events ++ edges ++ [.discoverNode node] } := by
  have topMem : (skipped ++ node :: rest, parent) ∈ state.toVisit :=
    top ▸ List.mem_cons_self
  have onStack : ∀ entry ∈ stack, entry ∈ state.toVisit := fun entry member =>
    top ▸ List.mem_cons_of_mem _ member
  have parentGrey : state.visited parent = some .grey := invariant.visited_of_mem topMem
  have different : parent ≠ node := by
    rintro rfl
    simp [fresh] at parentGrey
  have notNode : ∀ entry ∈ stack, entry.2 ≠ node := by
    rintro entry member rfl
    have grey := invariant.visited_of_mem (onStack entry member)
    simp [fresh] at grey
  have stackNodup := invariant.stackNodup
  rw [top] at stackNodup
  have edge : graph.Edge parent node := by
    rcases invariant.scanned _ topMem with ⟨done, split, -⟩
    have split' : graph.succs parent = done ++ (skipped ++ node :: rest) := split
    simp [Edge, split']
  have notDiscovered : node ∉ discovered state.events := by
    rw [← invariant.visited_iff, fresh]
    simp
  have parentDiscovered : parent ∈ discovered state.events := by
    rw [← invariant.visited_iff, parentGrey]
    simp
  have oneDiscovered : discovered (state.events ++ edges ++ [.discoverNode node]) =
      discovered state.events ++ [node] := by simp [noDiscovered]
  have sameFinished : finished (state.events ++ edges ++ [.discoverNode node]) =
      finished state.events := by simp [noFinished]
  constructor
  case visited_iff =>
    intro other
    rw [oneDiscovered, List.mem_append, List.mem_singleton, ← invariant.visited_iff]
    by_cases same : other = node
    · simp [same]
    · simp [same]
  case finished_iff =>
    intro other
    rw [sameFinished, ← invariant.finished_iff]
    by_cases same : other = node
    · simp [same, fresh]
    · simp [same]
  case grey_iff =>
    intro other
    by_cases same : other = node
    · simp [same]
    · have other_ne : node ≠ other := fun equal => same equal.symm
      dsimp only
      rw [Function.update_of_ne same, invariant.grey_iff, top]
      simp [other_ne]
  case discoveredNodup =>
    rw [oneDiscovered]
    exact List.nodup_append.mpr ⟨invariant.discoveredNodup, List.nodup_singleton _, by
      intro other member new isNode equal
      rw [List.mem_singleton] at isNode
      exact notDiscovered (isNode ▸ equal ▸ member)⟩
  case finishedNodup =>
    rw [sameFinished]
    exact invariant.finishedNodup
  case stackNodup =>
    simp only [List.map_cons, List.nodup_cons, List.mem_cons, not_or] at stackNodup ⊢
    refine ⟨⟨different.symm, ?_⟩, stackNodup⟩
    intro member
    rcases List.mem_map.mp member with ⟨entry, inStack, equal⟩
    exact notNode entry inStack equal
  case scanned =>
    intro entry member
    cases member with
    | head => exact ⟨[], rfl, by simp⟩
    | tail _ member =>
        cases member with
        | head =>
            rcases invariant.scanned _ topMem with ⟨done, split, doneSeen⟩
            have split' : graph.succs parent = done ++ (skipped ++ node :: rest) := split
            refine ⟨done ++ skipped ++ [node], by simp [split'], ?_⟩
            intro succ inDone
            rw [List.mem_append, List.mem_append, List.mem_singleton] at inDone
            rcases inDone with (inDone | inSkipped) | rfl
            · exact update_ne_none (doneSeen succ inDone)
            · exact update_ne_none (seen succ inSkipped)
            · simp
        | tail _ member =>
            rcases invariant.scanned entry (onStack entry member) with
              ⟨done, split, doneSeen⟩
            exact ⟨done, split, fun succ inDone => update_ne_none (doneSeen succ inDone)⟩
  case closed =>
    intro other black succ member
    apply update_ne_none
    by_cases same : other = node
    · simp [same] at black
    · dsimp only at black
      rw [Function.update_of_ne same] at black
      exact invariant.closed other black succ member
  case reachable =>
    intro other member
    rw [oneDiscovered, List.mem_append, List.mem_singleton] at member
    cases member with
    | inl old => exact invariant.reachable other old
    | inr isNode =>
        subst isNode
        exact (invariant.reachable parent parentDiscovered).tail edge
  case head =>
    rw [oneDiscovered]
    rw [List.head?_append, invariant.head]
    rfl
  case parent =>
    intro front other back split notFirst
    rw [oneDiscovered] at split
    rcases List.eq_nil_or_concat back with rfl | ⟨shorter, last, rfl⟩
    · have parts := List.append_inj' (show discovered state.events ++ [node] =
        front ++ [other] from split) rfl
      rw [List.singleton_inj] at parts
      exact ⟨parent, parts.1 ▸ parentDiscovered, parts.2 ▸ edge⟩
    · have parts := List.append_inj' (show discovered state.events ++ [node] =
        (front ++ other :: shorter) ++ [last] by simpa using split) rfl
      exact invariant.parent front other shorter parts.1 notFirst

theorem round (invariant : SearchInvariant graph state) (round : Round graph state next) :
    SearchInvariant graph next := by
  cases round with
  | idle empty => exact invariant
  | finish first parent stack edges top seen noDiscovered noFinished _ =>
      exact invariant.finish top seen noDiscovered noFinished
  | discover skipped node rest parent stack edges top seen fresh noDiscovered noFinished _ =>
      exact invariant.discover top seen fresh noDiscovered noFinished

theorem iterate (invariant : SearchInvariant graph state) (rounds : Nat) :
    SearchInvariant graph ((dfsStep graph)^[rounds] state) := by
  induction rounds generalizing state with
  | zero => exact invariant
  | succ rounds induction =>
      rw [Function.iterate_succ_apply]
      exact induction (invariant.round (dfsStep_round graph state))

omit [DecidableEq Node] in
theorem discovered_length_le (invariant : SearchInvariant graph state)
    (closed : graph.Closed) : (discovered state.events).length ≤ graph.size :=
  (invariant.discoveredNodup.subperm fun node member =>
    closed.mem_of_reachable (invariant.reachable node member)).length_le

end SearchInvariant

/-! ## Termination -/

/-- Twice the nodes still to discover, and the nodes still to finish. -/
def remaining (graph : Graph Node) (state : DFSState Node) : Nat :=
  2 * (graph.size - (discovered state.events).length) + state.toVisit.length

theorem Round.remaining_lt {graph : Graph Node} {state next : DFSState Node}
    (round : Round graph state next) (closed : graph.Closed)
    (invariant : SearchInvariant graph state) (busy : state.toVisit ≠ []) :
    graph.remaining next < graph.remaining state := by
  have bound := (invariant.round round).discovered_length_le closed
  cases round with
  | idle empty => exact absurd empty busy
  | finish first parent stack edges top seen noDiscovered noFinished _ =>
      simp [remaining, top, noDiscovered]
  | discover skipped node rest parent stack edges top seen fresh noDiscovered noFinished _ =>
      simp only [discovered_append, noDiscovered, List.append_nil, discovered_discoverNode,
        List.length_append, List.length_singleton] at bound
      simp only [remaining, top, discovered_append, noDiscovered, List.append_nil,
        discovered_discoverNode, List.length_append, List.length_cons]
      omega

theorem iterate_done {graph : Graph Node} {state : DFSState Node} (closed : graph.Closed)
    (invariant : SearchInvariant graph state) (rounds : Nat)
    (enough : graph.remaining state ≤ rounds) :
    ((dfsStep graph)^[rounds] state).toVisit = [] := by
  induction rounds generalizing state with
  | zero =>
      apply List.eq_nil_of_length_eq_zero
      simp only [remaining] at enough
      simp only [Function.iterate_zero, id_eq]
      omega
  | succ rounds induction =>
      by_cases idle : state.toVisit = []
      · have stays : dfsStep graph state = state := by simp [dfsStep, idle]
        rw [Function.iterate_fixed stays]
        exact idle
      · have step := dfsStep_round graph state
        have less := step.remaining_lt closed invariant idle
        rw [Function.iterate_succ_apply]
        exact induction (invariant.round step) (by omega)

theorem dfsRun_invariant (graph : Graph Node) : SearchInvariant graph (dfsRun graph) :=
  (SearchInvariant.start graph).iterate _

theorem dfsRun_done {graph : Graph Node} (closed : graph.Closed) :
    (dfsRun graph).toVisit = [] := by
  apply iterate_done closed (SearchInvariant.start graph)
  have positive : 0 < graph.size := List.length_pos_of_mem closed.entry_mem
  simp only [remaining, dfsStart, visitNode, List.nil_append, discovered_discoverNode,
    List.length_cons, List.length_nil]
  omega

/-! ## The orders -/

section Orders

variable {graph : Graph Node}

theorem mem_preOrder_of_mem_postOrder {node : Node}
    (member : node ∈ graph.depthFirstSearchPostOrder) :
    node ∈ graph.depthFirstSearchPreOrder := by
  have invariant := dfsRun_invariant graph
  have black := (invariant.finished_iff node).mpr member
  exact (invariant.visited_iff node).mp (by simp [black])

theorem preOrder_nodup : graph.depthFirstSearchPreOrder.Nodup :=
  (dfsRun_invariant graph).discoveredNodup

theorem postOrder_nodup : graph.depthFirstSearchPostOrder.Nodup :=
  (dfsRun_invariant graph).finishedNodup

theorem preOrder_head : graph.depthFirstSearchPreOrder.head? = some graph.entryPoint :=
  (dfsRun_invariant graph).head

/-- Every node but the first is entered by an edge from one discovered before. -/
theorem preOrder_parent {front back : List Node} {node : Node}
    (split : graph.depthFirstSearchPreOrder = front ++ node :: back) (notFirst : front ≠ []) :
    ∃ parent ∈ front, graph.Edge parent node :=
  (dfsRun_invariant graph).parent front node back split notFirst

theorem mem_postOrder_of_mem_preOrder (closed : graph.Closed) {node : Node}
    (member : node ∈ graph.depthFirstSearchPreOrder) :
    node ∈ graph.depthFirstSearchPostOrder := by
  have invariant := dfsRun_invariant graph
  have done := dfsRun_done closed
  apply (invariant.finished_iff node).mp
  have seen := (invariant.visited_iff node).mpr member
  cases color : (dfsRun graph).visited node with
  | none => exact absurd color seen
  | some shade =>
      cases shade with
      | black => rfl
      | grey =>
          rcases (invariant.grey_iff node).mp color with ⟨entry, onStack, -⟩
          rw [done] at onStack
          cases onStack

theorem mem_preOrder (closed : graph.Closed) {node : Node} :
    node ∈ graph.depthFirstSearchPreOrder ↔ graph.Reachable node := by
  have invariant := dfsRun_invariant graph
  constructor
  · exact invariant.reachable node
  · intro reachable
    induction reachable with
    | refl => exact List.mem_of_head? invariant.head
    | tail _ edge induction =>
        have black := (invariant.finished_iff _).mpr
          (mem_postOrder_of_mem_preOrder closed induction)
        exact (invariant.visited_iff _).mp (invariant.closed _ black _ edge)

theorem mem_postOrder (closed : graph.Closed) {node : Node} :
    node ∈ graph.depthFirstSearchPostOrder ↔ graph.Reachable node :=
  ⟨fun member => (mem_preOrder closed).mp (mem_preOrder_of_mem_postOrder member),
    fun reachable => mem_postOrder_of_mem_preOrder closed ((mem_preOrder closed).mpr reachable)⟩

theorem mem_reversePostOrder (closed : graph.Closed) {node : Node} :
    node ∈ graph.depthFirstSearchReversePostOrder ↔ graph.Reachable node := by
  rw [depthFirstSearchReversePostOrder, List.mem_reverse]
  exact mem_postOrder closed

theorem reversePostOrder_nodup : graph.depthFirstSearchReversePostOrder.Nodup :=
  List.nodup_reverse.mpr postOrder_nodup

/-- Reverse postorder goes over the nodes, each once. -/
theorem reversePostOrder_perm (closed : graph.Closed)
    (reachable : ∀ node ∈ graph.nodes, graph.Reachable node) :
    graph.depthFirstSearchReversePostOrder.Perm graph.nodes := by
  apply (List.perm_ext_iff_of_nodup reversePostOrder_nodup closed.nodup).mpr
  intro node
  rw [mem_reversePostOrder closed]
  exact ⟨closed.mem_of_reachable, reachable node⟩

end Orders

end LeechJit.Graph
