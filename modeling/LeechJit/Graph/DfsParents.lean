import LeechJit.Graph.DfsRecursive

/-! # Which successor list a node is found in

`depthFirstSearch` discovers every node but the entry while it scans the
successors of the node on top of its stack. That node is the last one discovered
exactly when the latter has a successor left that is not discovered yet.
-/

namespace LeechJit.Graph

variable {Node : Type}

/-- The scan of the successors of `parent` comes to `node`. -/
def Scanning (state : DFSState Node) (parent node : Node) : Prop :=
  ∃ first stack edges rest, state.toVisit = (first, parent) :: stack ∧
    findUnvisited state.visited parent first = (edges, some (node, rest))

variable [DecidableEq Node] {graph : Graph Node} {state next : DFSState Node}
  {parent node : Node} {rounds : Nat}

/-- `depthFirstSearch` discovers `node` while it scans the successors of `parent`. -/
def DiscoveredFrom (graph : Graph Node) (parent node : Node) : Prop :=
  ∃ rounds, Scanning ((dfsStep graph)^[rounds] (dfsStart graph)) parent node

omit [DecidableEq Node] in
theorem findUnvisited_found {visited : Node → Option DFSColor} {skipped rest : List Node}
    (seen : ∀ succ ∈ skipped, visited succ ≠ none) (fresh : visited node = none) :
    (findUnvisited visited parent (skipped ++ node :: rest)).2 = some (node, rest) := by
  induction skipped with
  | nil => simp [findUnvisited, fresh]
  | cons succ skipped induction =>
      have later := induction fun other inSkipped => seen other (List.mem_cons_of_mem _ inSkipped)
      cases color : visited succ with
      | none => exact absurd color (seen succ List.mem_cons_self)
      | some shade => cases shade <;> simpa [findUnvisited, color] using later

omit [DecidableEq Node] in
theorem Scanning.of_top {skipped rest : List Node} {stack : List (List Node × Node)}
    (top : state.toVisit = (skipped ++ node :: rest, parent) :: stack)
    (seen : ∀ succ ∈ skipped, state.visited succ ≠ none) (fresh : state.visited node = none) :
    Scanning state parent node :=
  ⟨_, stack, _, rest, top, Prod.ext rfl (findUnvisited_found seen fresh)⟩

namespace Scanning

omit [DecidableEq Node] in
theorem fresh (scanning : Scanning state parent node) : state.visited node = none := by
  rcases scanning with ⟨first, stack, edges, rest, top, found⟩
  have scanned := findUnvisited_scanned state.visited parent first
  rw [found] at scanned
  cases scanned with
  | found skipped node rest split seen fresh => exact fresh

/-- The next round discovers the node. -/
theorem next_eq (graph : Graph Node) (scanning : Scanning state parent node) : ∃ edges rest stack,
    finished edges = [] ∧ dfsStep graph state =
      { visited := Function.update state.visited node (some .grey)
        toVisit := (graph.succs node, node) :: (rest, parent) :: stack
        events := state.events ++ edges ++ [.discoverNode node] } := by
  rcases scanning with ⟨first, stack, edges, rest, top, found⟩
  have noFinished := findUnvisited_finished state.visited parent first
  rw [found] at noFinished
  exact ⟨edges, rest, stack, noFinished, by simp [dfsStep, top, found, visitNode]⟩

omit [DecidableEq Node] in
theorem edge (scanning : Scanning state parent node) (invariant : SearchInvariant graph state) :
    graph.Edge parent node := by
  rcases scanning with ⟨first, stack, edges, rest, top, found⟩
  have scanned := findUnvisited_scanned state.visited parent first
  rw [found] at scanned
  cases scanned with
  | found skipped node rest split seen fresh =>
      rcases invariant.scanned _ (top ▸ List.mem_cons_self) with ⟨done, whole, -⟩
      have succs : graph.succs parent = done ++ first := whole
      simp [Edge, succs, split]

omit [DecidableEq Node] in
theorem grey (scanning : Scanning state parent node) (invariant : SearchInvariant graph state) :
    state.visited parent = some .grey := by
  rcases scanning with ⟨first, stack, edges, rest, top, -⟩
  exact invariant.visited_of_mem (top ▸ List.mem_cons_self)

end Scanning

/-! ## One round after another -/

theorem Round.visited (round : Round graph state next) (seen : state.visited node ≠ none) :
    next.visited node ≠ none := by
  cases round with
  | idle empty => exact seen
  | finish first parent stack edges top _ _ _ _ _ => exact SearchInvariant.update_ne_none seen
  | discover skipped other rest parent stack edges top _ _ _ _ _ _ =>
      exact SearchInvariant.update_ne_none seen

theorem Round.events (round : Round graph state next) : state.events <+: next.events := by
  cases round with
  | idle empty => exact List.prefix_rfl
  | finish first parent stack edges top _ _ _ _ _ =>
      simp [List.append_assoc]
  | discover skipped other rest parent stack edges top _ _ _ _ _ _ =>
      simp [List.append_assoc]

theorem visited_iterate (graph : Graph Node) (seen : state.visited node ≠ none) (rounds : Nat) :
    ((dfsStep graph)^[rounds] state).visited node ≠ none := by
  induction rounds generalizing state with
  | zero => exact seen
  | succ rounds induction =>
      rw [Function.iterate_succ_apply]
      exact induction ((dfsStep_round graph state).visited seen)

theorem events_iterate (graph : Graph Node) (state : DFSState Node) (rounds : Nat) :
    state.events <+: ((dfsStep graph)^[rounds] state).events := by
  induction rounds generalizing state with
  | zero => exact List.prefix_rfl
  | succ rounds induction =>
      rw [Function.iterate_succ_apply]
      exact (dfsStep_round graph state).events.trans (induction _)

/-- The state after some of the rounds. -/
theorem iterate_invariant (graph : Graph Node) (rounds : Nat) :
    SearchInvariant graph ((dfsStep graph)^[rounds] (dfsStart graph)) :=
  (SearchInvariant.start graph).iterate rounds

namespace DiscoveredFrom

theorem edge (discovers : DiscoveredFrom graph parent node) : graph.Edge parent node := by
  rcases discovers with ⟨rounds, scanning⟩
  exact scanning.edge (iterate_invariant graph rounds)

/-- A node that is scanned for is not visited, and it is visited ever after. -/
theorem rounds_le {earlier later : Nat} {other : Node}
    (first : Scanning ((dfsStep graph)^[earlier] (dfsStart graph)) parent node)
    (second : Scanning ((dfsStep graph)^[later] (dfsStart graph)) other node) :
    later ≤ earlier := by
  by_contra! less
  have visited : ((dfsStep graph)^[earlier + 1] (dfsStart graph)).visited node ≠ none := by
    rcases first.next_eq graph with ⟨edges, rest, stack, -, step⟩
    rw [Function.iterate_succ_apply', step]
    simp
  have stays := visited_iterate graph visited (later - (earlier + 1))
  rw [← Function.iterate_add_apply, Nat.sub_add_cancel less] at stays
  exact stays second.fresh

/-- A node is found in one successor list. -/
theorem unique {other : Node} (one : DiscoveredFrom graph parent node)
    (another : DiscoveredFrom graph other node) : parent = other := by
  rcases one with ⟨rounds, scanning⟩
  rcases another with ⟨others, otherScanning⟩
  have same : rounds = others :=
    Nat.le_antisymm (rounds_le otherScanning scanning) (rounds_le scanning otherScanning)
  subst same
  rcases scanning with ⟨first, stack, edges, rest, top, -⟩
  rcases otherScanning with ⟨others, lower, _, _, otherTop, -⟩
  rw [top] at otherTop
  cases otherTop
  rfl

/-- The node whose successors are scanned has been discovered and is not finished. -/
theorem unfinished (closed : graph.Closed) (discovers : DiscoveredFrom graph parent node) :
    ∃ front back, graph.depthFirstSearch = front ++ .discoverNode node :: back ∧
      .discoverNode parent ∈ front ∧ .finishNode parent ∉ front := by
  rcases discovers with ⟨rounds, scanning⟩
  have invariant := iterate_invariant graph rounds
  have grey := scanning.grey invariant
  have inside : rounds + 1 ≤ 2 * graph.size := by
    by_contra! beyond
    rcases scanning with ⟨first, stack, edges, rest, top, -⟩
    have done := dfsRun_done closed
    have idle : dfsStep graph (dfsRun graph) = dfsRun graph := by simp [dfsStep, done]
    have same : (dfsStep graph)^[rounds] (dfsStart graph) = dfsRun graph := by
      have split : rounds = rounds - 2 * graph.size + 2 * graph.size := by omega
      rw [split, Function.iterate_add_apply]
      exact Function.iterate_fixed idle _
    rw [same, done] at top
    cases top
  rcases scanning.next_eq graph with ⟨edges, rest, stack, noFinished, step⟩
  have later := events_iterate graph ((dfsStep graph)^[rounds + 1] (dfsStart graph))
    (2 * graph.size - (rounds + 1))
  rw [← Function.iterate_add_apply, Nat.sub_add_cancel inside] at later
  rcases later with ⟨back, whole⟩
  rw [Function.iterate_succ_apply', step] at whole
  refine ⟨((dfsStep graph)^[rounds] (dfsStart graph)).events ++ edges, back, ?_, ?_, ?_⟩
  · rw [depthFirstSearch, dfsRun, ← whole]
    simp
  · have isDiscovered := (invariant.visited_iff parent).mp (by simp [grey])
    exact List.mem_append_left _ (mem_discovered.mp isDiscovered)
  · rw [← mem_finished, finished_append, noFinished, List.append_nil,
      ← invariant.finished_iff, grey]
    simp

end DiscoveredFrom

/-! ## The node discovered before -/

/-- What the order of discovery says about the node before and the successor list it is
found in: the list is that of the node before, or all successors of the latter are already
discovered. -/
def FoundBehind (graph : Graph Node) (front : List Node) (prev node : Node) : Prop :=
  ∃ parent, DiscoveredFrom graph parent node ∧
    ((parent = prev ∧
        (graph.succs prev).find? (fun succ => decide (succ ∉ front ++ [prev])) = some node) ∨
      (parent ≠ prev ∧ ∀ succ ∈ graph.succs prev, succ ∈ front ++ [prev]))

/-- The last node discovered is on top of the stack, or is done with its successors. -/
def LastOnTop (graph : Graph Node) (state : DFSState Node) : Prop :=
  ∀ front last, discovered state.events = front ++ [last] →
    (∃ first stack, state.toVisit = (first, last) :: stack) ∨
      ∀ succ ∈ graph.succs last, state.visited succ ≠ none

theorem LastOnTop.round (lastOnTop : LastOnTop graph state) (search : SearchInvariant graph state)
    (round : Round graph state next) : LastOnTop graph next := by
  have searchNext := search.round round
  cases round with
  | idle empty => exact lastOnTop
  | finish first parent stack edges top seen noDiscovered noFinished _ _ =>
      intro front last split
      have same : discovered state.events = front ++ [last] := by
        simpa [noDiscovered] using split
      right
      rcases lastOnTop front last same with ⟨others, lower, onTop⟩ | done
      · rw [top] at onTop
        cases onTop
        exact searchNext.closed parent (by simp)
      · exact fun succ member => SearchInvariant.update_ne_none (done succ member)
  | discover skipped node rest parent stack edges top seen fresh noDiscovered noFinished _ _ =>
      intro front last split
      have isNode : discovered state.events ++ [node] = front ++ [last] := by
        simpa [noDiscovered] using split
      have parts := List.append_inj' isNode rfl
      rw [List.singleton_inj] at parts
      left
      exact ⟨graph.succs node, (rest, parent) :: stack, by rw [parts.2]⟩

theorem lastOnTop_iterate (graph : Graph Node) (rounds : Nat) :
    LastOnTop graph ((dfsStep graph)^[rounds] (dfsStart graph)) := by
  induction rounds with
  | zero =>
      intro front last split
      have isEntry : [graph.entryPoint] = front ++ [last] := by
        simpa [dfsStart, visitNode] using split
      have parts := List.append_inj' (show [] ++ [graph.entryPoint] = front ++ [last] from isEntry)
        rfl
      rw [List.singleton_inj] at parts
      left
      exact ⟨graph.succs graph.entryPoint, [], by simp [dfsStart, visitNode, parts.2]⟩
  | succ rounds induction =>
      rw [Function.iterate_succ_apply']
      exact induction.round (iterate_invariant graph rounds) (dfsStep_round graph _)

/-- A node is found in the list of the last one discovered, unless that list has no node left. -/
theorem LastOnTop.foundBehind {front skipped rest : List Node} {prev : Node}
    {stack : List (List Node × Node)} (lastOnTop : LastOnTop graph state)
    (search : SearchInvariant graph state) (before : discovered state.events = front ++ [prev])
    (top : state.toVisit = (skipped ++ node :: rest, parent) :: stack)
    (seen : ∀ succ ∈ skipped, state.visited succ ≠ none) (fresh : state.visited node = none) :
    (parent = prev ∧
        (graph.succs prev).find? (fun succ => decide (succ ∉ front ++ [prev])) = some node) ∨
      (parent ≠ prev ∧ ∀ succ ∈ graph.succs prev, succ ∈ front ++ [prev]) := by
  have seen_iff : ∀ other, other ∈ front ++ [prev] ↔ state.visited other ≠ none :=
    fun other => by rw [search.visited_iff, before]
  rcases search.scanned _ (top ▸ List.mem_cons_self) with ⟨done, whole, doneSeen⟩
  have succs : graph.succs parent = done ++ (skipped ++ node :: rest) := whole
  by_cases same : parent = prev
  · left
    refine ⟨same, ?_⟩
    subst same
    refine List.find?_eq_some_iff_append.mpr ⟨?_, done ++ skipped, rest, ?_, ?_⟩
    · simp only [decide_eq_true_eq, seen_iff, fresh]
      simp
    · simp [succs]
    · intro other passed
      have visited : state.visited other ≠ none :=
        (List.mem_append.mp passed).elim (doneSeen other) (seen other)
      simpa using (seen_iff other).mpr visited
  · right
    refine ⟨same, ?_⟩
    rcases lastOnTop front prev before with ⟨others, lower, onTop⟩ | done
    · rw [top] at onTop
      cases onTop
      exact absurd rfl same
    · exact fun succ member => (seen_iff succ).mpr (done succ member)

/-- In every state the nodes discovered so far are found so. -/
theorem foundBehind_iterate (graph : Graph Node) (rounds : Nat) {front back : List Node}
    {prev node : Node}
    (split : discovered ((dfsStep graph)^[rounds] (dfsStart graph)).events =
      front ++ prev :: node :: back) : FoundBehind graph front prev node := by
  induction rounds generalizing back with
  | zero =>
      have lengths := congrArg List.length split
      simp [dfsStart, visitNode] at lengths
      omega
  | succ rounds induction =>
      have search := iterate_invariant graph rounds
      have lastOnTop := lastOnTop_iterate graph rounds
      rw [Function.iterate_succ_apply'] at split
      generalize reached : (dfsStep graph)^[rounds] (dfsStart graph) = state at *
      have step := dfsStep_round graph state
      generalize dfsStep graph state = next at *
      cases step with
      | idle empty => exact induction split
      | finish first parent stack edges top seen noDiscovered noFinished _ _ =>
          have same : discovered state.events = front ++ prev :: node :: back := by
            simpa [noDiscovered] using split
          exact induction same
      | discover skipped found rest parent stack edges top seen fresh noDiscovered noFinished
          reported complete =>
          have grown : discovered state.events ++ [found] = front ++ prev :: node :: back := by
            simpa [noDiscovered] using split
          rcases List.eq_nil_or_concat back with rfl | ⟨shorter, last, rfl⟩
          · have parts := List.append_inj' (show discovered state.events ++ [found] =
              (front ++ [prev]) ++ [node] by simpa using grown) rfl
            rw [List.singleton_inj] at parts
            rcases parts with ⟨before, rfl⟩
            have scanning : Scanning state parent found := .of_top top seen fresh
            exact ⟨parent, ⟨rounds, reached ▸ scanning⟩,
              lastOnTop.foundBehind search before top seen fresh⟩
          · have parts := List.append_inj' (show discovered state.events ++ [found] =
              (front ++ prev :: node :: shorter) ++ [last] by simpa using grown) rfl
            exact induction parts.1

theorem foundBehind {front back : List Node} {prev node : Node}
    (split : graph.depthFirstSearchPreOrder = front ++ prev :: node :: back) :
    FoundBehind graph front prev node :=
  foundBehind_iterate graph (2 * graph.size) split

/-- The node before is the one whose successors are scanned if it has one left. -/
theorem FoundBehind.iff {front : List Node} {prev node : Node}
    (behind : FoundBehind graph front prev node) :
    DiscoveredFrom graph prev node ↔ ∃ succ ∈ graph.succs prev, succ ∉ front ++ [prev] := by
  rcases behind with ⟨parent, discovers, ⟨rfl, isFirst⟩ | ⟨different, done⟩⟩
  · have fresh := List.find?_some isFirst
    exact ⟨fun _ => ⟨node, List.mem_of_find?_eq_some isFirst, of_decide_eq_true fresh⟩,
      fun _ => discovers⟩
  · constructor
    · intro fromPrev
      exact absurd (discovers.unique fromPrev) different
    · rintro ⟨succ, member, fresh⟩
      exact absurd (done succ member) fresh

/-! ## The walk that never turns back -/

/-- The walk that goes on to the first successor it has not met, while there is one; `met` is
what it has met before `node`. -/
def onward (graph : Graph Node) : Nat → List Node → Node → List Node
  | 0, met, node => met ++ [node]
  | rounds + 1, met, node =>
      match (graph.succs node).find? fun succ => decide (succ ∉ met ++ [node]) with
      | none => met ++ [node]
      | some succ => onward graph rounds (met ++ [node]) succ

/-- That walk from the entry. -/
def onwardWalk (graph : Graph Node) : List Node :=
  graph.onward graph.size [] graph.entryPoint

/-- In a part of the preorder every node is found in the successor list of the node before. -/
def Onward (graph : Graph Node) (met : List Node) : Node → List Node → Prop
  | _, [] => True
  | node, succ :: rest =>
      (graph.succs node).find? (fun other => decide (other ∉ met ++ [node])) = some succ ∧
        Onward graph (met ++ [node]) succ rest

theorem mem_onward {met : List Node} {other : Node} (member : other ∈ met ++ [node]) :
    other ∈ graph.onward rounds met node := by
  induction rounds generalizing met node with
  | zero => exact member
  | succ rounds induction =>
      rw [onward]
      split
      · exact member
      · exact induction (List.mem_append_left _ member)

theorem Onward.subset {met back : List Node} (onwards : Onward graph met node back)
    (enough : back.length ≤ rounds) :
    ∀ other ∈ met ++ node :: back, other ∈ graph.onward rounds met node := by
  induction back generalizing met node rounds with
  | nil => exact fun other => mem_onward
  | cons succ rest induction =>
      rcases onwards with ⟨isFirst, later⟩
      cases rounds with
      | zero => simp at enough
      | succ rounds =>
          intro other member
          have shorter : rest.length ≤ rounds := by simpa using enough
          simp only [onward, isFirst]
          exact induction later shorter other (by simpa using member)

/-- If the walk meets the rest of the preorder, it goes along it. -/
theorem onward_of_subset (rounds : Nat) {met back : List Node}
    (split : graph.depthFirstSearchPreOrder = met ++ node :: back)
    (met_all : ∀ other ∈ back, other ∈ graph.onward rounds met node) :
    Onward graph met node back := by
  induction back generalizing met node rounds with
  | nil => trivial
  | cons succ rest induction =>
      have nodup : (met ++ node :: succ :: rest).Nodup := split ▸ preOrder_nodup
      have parts : (met ++ [node] ++ succ :: rest).Nodup := by simpa using nodup
      have apart : succ ∉ met ++ [node] := fun inFront =>
        (List.nodup_append.mp parts).2.2 succ inFront succ List.mem_cons_self rfl
      have isMet := met_all succ List.mem_cons_self
      cases rounds with
      | zero => exact absurd isMet apart
      | succ rounds =>
          rcases foundBehind split with ⟨parent, -, ⟨-, isFirst⟩ | ⟨-, done⟩⟩
          · have whole : graph.depthFirstSearchPreOrder = (met ++ [node]) ++ succ :: rest := by
              simpa using split
            refine ⟨isFirst, induction rounds whole fun other member => ?_⟩
            have inWalk := met_all other (List.mem_cons_of_mem _ member)
            simpa only [onward, isFirst] using inWalk
          · have none : (graph.succs node).find? (fun other => decide (other ∉ met ++ [node])) =
                none := by
              apply List.find?_eq_none.mpr
              intro succ member
              simp only [decide_eq_true_eq, not_not]
              exact done succ member
            simp only [onward, none] at isMet
            exact absurd isMet apart

/-- The walk passes everything reachable just when the search goes along it. -/
theorem onwardWalk_iff (closed : graph.Closed) {rest : List Node}
    (split : graph.depthFirstSearchPreOrder = graph.entryPoint :: rest) :
    (∀ node, graph.Reachable node → node ∈ graph.onwardWalk) ↔
      Onward graph [] graph.entryPoint rest := by
  constructor
  · intro all
    refine onward_of_subset graph.size (by simpa using split) fun other member => ?_
    refine all other ((mem_preOrder closed).mp ?_)
    rw [split]
    exact List.mem_cons_of_mem _ member
  · intro onwards node reachable
    have lengths := (dfsRun_invariant graph).discovered_length_le closed
    have order : discovered (dfsRun graph).events = graph.entryPoint :: rest := split
    rw [order, List.length_cons] at lengths
    have member := (mem_preOrder closed).mpr reachable
    rw [split] at member
    exact onwards.subset (by omega) node (by simpa using member)

theorem Onward.at {met back front rest : List Node} {prev succ : Node}
    (onwards : Onward graph met node back) (split : node :: back = front ++ prev :: succ :: rest) :
    (graph.succs prev).find? (fun other => decide (other ∉ met ++ front ++ [prev])) =
      some succ := by
  induction front generalizing met node back with
  | nil =>
      cases split
      simpa using onwards.1
  | cons head front induction =>
      cases back with
      | nil => simp at split
      | cons second back =>
          simp only [List.cons_append, List.cons.injEq] at split
          rcases split with ⟨rfl, split⟩
          have later := induction onwards.2 split
          simpa using later

theorem onward_of_pairs {met back : List Node}
    (pairs : ∀ front prev succ rest, node :: back = front ++ prev :: succ :: rest →
      (graph.succs prev).find? (fun other => decide (other ∉ met ++ front ++ [prev])) =
        some succ) : Onward graph met node back := by
  induction back generalizing met node with
  | nil => trivial
  | cons succ rest induction =>
      refine ⟨by simpa using pairs [] node succ rest rfl, induction fun front prev other later
        split => ?_⟩
      simpa using pairs (node :: front) prev other later (by simp [split])

end LeechJit.Graph
