import LeechJit.Graph.Dominance

/-! # The tree of depth-first search

The nodes on the stack are a walk from the entry, and they finish from the top
down. So every node is entered by a walk whose nodes finish in opposite order,
and the target of a back edge is on such a walk to its source.
-/

namespace LeechJit.Graph

open Dominance

variable {Node : Type}

/-- The order in which the nodes seen so far finish. -/
def finishOrder (state : DFSState Node) : List Node :=
  finished state.events ++ state.toVisit.map Prod.snd

/-- A walk from the entry whose nodes finish in opposite order. -/
structure TreePath (graph : Graph Node) (order path : List Node) (node : Node) : Prop where
  walk : Walk graph.Edge graph.entryPoint path node
  opposite : path.reverse.Sublist order

theorem TreePath.mono {graph : Graph Node} {order longer path : List Node} {node : Node}
    (treePath : TreePath graph order path node) (sublist : order.Sublist longer) :
    TreePath graph longer path node :=
  ⟨treePath.walk, treePath.opposite.trans sublist⟩

/-- A node that has finished is entered by no back edge any more. -/
def Silent (earlier later : Event Node) : Prop :=
  ∀ node source, earlier = .finishNode node → later ≠ .backEdge source node

structure TreeInvariant (graph : Graph Node) (state : DFSState Node) : Prop where
  search : SearchInvariant graph state
  stack : ∀ entry rest, state.toVisit = entry :: rest →
    Walk graph.Edge graph.entryPoint (state.toVisit.map Prod.snd).reverse entry.2
  paths : ∀ node ∈ finishOrder state, ∃ path, TreePath graph (finishOrder state) path node
  backEdges : ∀ source target, .backEdge source target ∈ state.events →
    graph.Edge source target ∧
      ∃ path, TreePath graph (finishOrder state) path source ∧ target ∈ path
  silent : state.events.Pairwise Silent

namespace TreeInvariant

variable [DecidableEq Node] {graph : Graph Node} {state next : DFSState Node}

theorem start (graph : Graph Node) : TreeInvariant graph (dfsStart graph) where
  search := .start graph
  stack entry rest top := by
    simp only [dfsStart, visitNode, List.cons.injEq] at top
    rcases top with ⟨rfl, rfl⟩
    exact .here _
  paths node member := by
    simp only [finishOrder, dfsStart, visitNode, List.nil_append, finished_discoverNode,
      List.map_cons, List.map_nil, List.mem_singleton] at member
    subst member
    exact ⟨[graph.entryPoint], .here _, by simp [finishOrder, dfsStart, visitNode]⟩
  backEdges := by simp [dfsStart, visitNode]
  silent := List.pairwise_singleton ..

omit [DecidableEq Node] in
/-- The walk down the stack. -/
theorem topPath (invariant : TreeInvariant graph state) {entry : List Node × Node}
    {rest : List (List Node × Node)} (top : state.toVisit = entry :: rest) :
    TreePath graph (finishOrder state) (state.toVisit.map Prod.snd).reverse entry.2 := by
  constructor
  · exact invariant.stack entry rest top
  · rw [List.reverse_reverse]
    exact List.sublist_append_right _ _

omit [DecidableEq Node] in
/-- What the scan of the top of the stack reports. -/
theorem scanned (invariant : TreeInvariant graph state) {first : List Node} {parent : Node}
    {rest : List (List Node × Node)} {edges : List (Event Node)}
    (top : state.toVisit = (first, parent) :: rest)
    (reported : ∀ event ∈ edges, ∃ succ ∈ first, state.visited succ = some .grey ∧
      event = .backEdge parent succ) {source target : Node}
    (member : .backEdge source target ∈ edges) :
    source = parent ∧ state.visited target = some .grey ∧ graph.Edge parent target ∧
      target ∈ (state.toVisit.map Prod.snd).reverse := by
  rcases reported _ member with ⟨succ, inFirst, grey, equal⟩
  cases equal
  refine ⟨rfl, grey, ?_, ?_⟩
  · rcases invariant.search.scanned _ (top ▸ List.mem_cons_self) with ⟨done, split, -⟩
    have whole : graph.succs parent = done ++ first := split
    rw [Edge, whole]
    exact List.mem_append_right _ inFirst
  · rcases (invariant.search.grey_iff _).mp grey with ⟨entry, onStack, isTarget⟩
    rw [List.mem_reverse, ← isTarget]
    exact List.mem_map_of_mem onStack

omit [DecidableEq Node] in
/-- Events keep the back edges when the order only grows. -/
theorem backEdges_append (invariant : TreeInvariant graph state) {first : List Node}
    {parent : Node} {rest : List (List Node × Node)} {edges : List (Event Node)}
    {last : Event Node} {order : List Node} (top : state.toVisit = (first, parent) :: rest)
    (reported : ∀ event ∈ edges, ∃ succ ∈ first, state.visited succ = some .grey ∧
      event = .backEdge parent succ)
    (notEdge : ∀ source target, last ≠ .backEdge source target)
    (grows : (finishOrder state).Sublist order) (source target : Node)
    (member : .backEdge source target ∈ state.events ++ edges ++ [last]) :
    graph.Edge source target ∧ ∃ path, TreePath graph order path source ∧ target ∈ path := by
  rw [List.mem_append, List.mem_append, List.mem_singleton] at member
  rcases member with (old | new) | isLast
  · rcases invariant.backEdges source target old with ⟨edge, path, treePath, onPath⟩
    exact ⟨edge, path, treePath.mono grows, onPath⟩
  · rcases invariant.scanned top reported new with ⟨rfl, -, edge, onStack⟩
    exact ⟨edge, _, (invariant.topPath top).mono grows, onStack⟩
  · exact absurd isLast.symm (notEdge source target)

omit [DecidableEq Node] in
/-- New back edges enter grey nodes. -/
theorem silent_append (invariant : TreeInvariant graph state) {first : List Node}
    {parent : Node} {edges : List (Event Node)} {last : Event Node}
    (reported : ∀ event ∈ edges, ∃ succ ∈ first, state.visited succ = some .grey ∧
      event = .backEdge parent succ)
    (notEdge : ∀ source target, last ≠ .backEdge source target) :
    (state.events ++ edges ++ [last]).Pairwise Silent := by
  have edgesSilent : edges.Pairwise Silent := by
    apply List.pairwise_of_forall_mem_list
    intro earlier inEdges later _ node source isFinish
    rcases reported earlier inEdges with ⟨_, _, _, isEdge⟩
    rw [isEdge] at isFinish
    cases isFinish
  apply List.pairwise_append.mpr
  refine ⟨List.pairwise_append.mpr ⟨invariant.silent, edgesSilent, ?_⟩,
    List.pairwise_singleton .., ?_⟩
  · intro earlier inOld later inEdges node source isFinish isEdge
    subst isFinish isEdge
    rcases reported _ inEdges with ⟨succ, _, grey, equal⟩
    cases equal
    have black := (invariant.search.finished_iff node).mpr
      (List.mem_filterMap.mpr ⟨_, inOld, rfl⟩)
    rw [grey] at black
    cases black
  · intro earlier _ later isLast node source _
    rw [List.mem_singleton] at isLast
    subst isLast
    exact notEdge source node

theorem finish {first : List Node} {parent : Node} {rest : List (List Node × Node)}
    {edges : List (Event Node)} (invariant : TreeInvariant graph state)
    (top : state.toVisit = (first, parent) :: rest)
    (seen : ∀ succ ∈ first, state.visited succ ≠ none)
    (noDiscovered : discovered edges = []) (noFinished : finished edges = [])
    (reported : ∀ event ∈ edges, ∃ succ ∈ first, state.visited succ = some .grey ∧
      event = .backEdge parent succ) :
    TreeInvariant graph
      { visited := Function.update state.visited parent (some .black)
        toVisit := rest
        events := state.events ++ edges ++ [.finishNode parent] } := by
  have sameOrder : finishOrder
      { visited := Function.update state.visited parent (some .black)
        toVisit := rest
        events := state.events ++ edges ++ [.finishNode parent] } = finishOrder state := by
    simp [finishOrder, top, noFinished]
  constructor
  case search => exact invariant.search.finish top seen noDiscovered noFinished
  case stack =>
    intro entry lower below
    have below' : rest = entry :: lower := below
    have walk := invariant.stack _ _ top
    rw [top, below'] at walk
    simp only [List.map_cons, List.reverse_cons, List.append_assoc, List.singleton_append]
      at walk
    simpa [below'] using walk.split.1
  case paths =>
    rw [sameOrder]
    exact invariant.paths
  case backEdges =>
    rw [sameOrder]
    exact invariant.backEdges_append top reported (fun _ _ equal => by cases equal)
      (List.Sublist.refl _)
  case silent => exact invariant.silent_append reported (fun _ _ equal => by cases equal)

theorem discover {skipped rest : List Node} {node parent : Node}
    {stack : List (List Node × Node)} {edges : List (Event Node)}
    (invariant : TreeInvariant graph state)
    (top : state.toVisit = (skipped ++ node :: rest, parent) :: stack)
    (seen : ∀ succ ∈ skipped, state.visited succ ≠ none)
    (fresh : state.visited node = none)
    (noDiscovered : discovered edges = []) (noFinished : finished edges = [])
    (reported : ∀ event ∈ edges, ∃ succ ∈ skipped ++ node :: rest,
      state.visited succ = some .grey ∧ event = .backEdge parent succ) :
    TreeInvariant graph
      { visited := Function.update state.visited node (some .grey)
        toVisit := (graph.succs node, node) :: (rest, parent) :: stack
        events := state.events ++ edges ++ [.discoverNode node] } := by
  have edge : graph.Edge parent node := by
    rcases invariant.search.scanned _ (top ▸ List.mem_cons_self) with ⟨done, split, -⟩
    have whole : graph.succs parent = done ++ (skipped ++ node :: rest) := split
    simp [Edge, whole]
  -- The new node finishes before the nodes on the stack.
  have order : finishOrder
      { visited := Function.update state.visited node (some .grey)
        toVisit := (graph.succs node, node) :: (rest, parent) :: stack
        events := state.events ++ edges ++ [.discoverNode node] } =
      finished state.events ++ node :: state.toVisit.map Prod.snd := by
    simp [finishOrder, top, noFinished]
  have grows : (finishOrder state).Sublist
      (finished state.events ++ node :: state.toVisit.map Prod.snd) :=
    List.Sublist.append (List.Sublist.refl _) (List.sublist_cons_self _ _)
  have walk := (invariant.stack _ _ top).snoc edge
  constructor
  case search => exact invariant.search.discover top seen fresh noDiscovered noFinished
  case stack =>
    intro entry lower below
    cases below
    simpa [top] using walk
  case paths =>
    rw [order]
    intro other member
    rw [List.mem_append, List.mem_cons] at member
    have old : other ∈ finishOrder state →
        ∃ path, TreePath graph (finished state.events ++ node :: state.toVisit.map Prod.snd)
          path other := by
      intro inOrder
      rcases invariant.paths other inOrder with ⟨path, treePath⟩
      exact ⟨path, treePath.mono grows⟩
    rcases member with isFinished | isNode | onStack
    · exact old (List.mem_append_left _ isFinished)
    · subst isNode
      refine ⟨_, walk, ?_⟩
      rw [List.reverse_append, List.reverse_reverse]
      exact List.sublist_append_right _ _
    · exact old (List.mem_append_right _ onStack)
  case backEdges =>
    rw [order]
    exact invariant.backEdges_append top reported (fun _ _ equal => by cases equal) grows
  case silent => exact invariant.silent_append reported (fun _ _ equal => by cases equal)

theorem round (invariant : TreeInvariant graph state) (round : Round graph state next) :
    TreeInvariant graph next := by
  cases round with
  | idle empty => exact invariant
  | finish first parent stack edges top seen noDiscovered noFinished reported =>
      exact invariant.finish top seen noDiscovered noFinished reported
  | discover skipped node rest parent stack edges top seen fresh noDiscovered noFinished
      reported =>
      exact invariant.discover top seen fresh noDiscovered noFinished reported

theorem iterate (invariant : TreeInvariant graph state) (rounds : Nat) :
    TreeInvariant graph ((dfsStep graph)^[rounds] state) := by
  induction rounds generalizing state with
  | zero => exact invariant
  | succ rounds induction =>
      rw [Function.iterate_succ_apply]
      exact induction (invariant.round (dfsStep_round graph state))

end TreeInvariant

/-! ## The whole search -/

/-- In a list without repetition a value before another has the lower index. -/
theorem idxOf_lt_of_sublist [DecidableEq Node] {order : List Node} {first second : Node}
    (nodup : order.Nodup) (sublist : [first, second].Sublist order) :
    order.idxOf first < order.idxOf second := by
  induction order with
  | nil => cases sublist
  | cons head rest induction =>
      have parts := List.nodup_cons.mp nodup
      have later : ∀ value ∈ rest, (head :: rest).idxOf value = rest.idxOf value + 1 := by
        intro value member
        apply List.idxOf_cons_ne
        rintro rfl
        exact parts.1 member
      cases sublist with
      | cons _ inRest =>
          have below := induction parts.2 inRest
          rw [later first (inRest.subset List.mem_cons_self),
            later second (inRest.subset (List.mem_cons_of_mem _ List.mem_cons_self))]
          omega
      | cons_cons _ inRest =>
          rw [List.idxOf_cons_self, later second (List.singleton_sublist.mp inRest)]
          omega

section Search

variable [DecidableEq Node] {graph : Graph Node}

theorem dfsRun_tree (graph : Graph Node) : TreeInvariant graph (dfsRun graph) :=
  (TreeInvariant.start graph).iterate _

theorem finishOrder_dfsRun (closed : graph.Closed) :
    finishOrder (dfsRun graph) = graph.depthFirstSearchPostOrder := by
  simp [finishOrder, dfsRun_done closed, depthFirstSearchPostOrder, finished, depthFirstSearch]

theorem depthFirstSearch_silent (graph : Graph Node) :
    graph.depthFirstSearch.Pairwise Silent :=
  (dfsRun_tree graph).silent

def finishTime (graph : Graph Node) (node : Node) : Nat :=
  graph.depthFirstSearchPostOrder.idxOf node

omit [DecidableEq Node] in
theorem TreePath.nodup {order path : List Node} {node : Node}
    (treePath : TreePath graph order path node) (orderNodup : order.Nodup) : path.Nodup :=
  List.nodup_reverse.mp (treePath.opposite.nodup orderNodup)

omit [DecidableEq Node] in
/-- On a tree path the nodes closer to the entry finish later. -/
theorem TreePath.finishes {order front back : List Node} {upper lower node : Node}
    (treePath : TreePath graph order (front ++ back) node)
    (upperMem : upper ∈ front) (lowerMem : lower ∈ back) : [lower, upper].Sublist order := by
  have forwards : [upper, lower].Sublist (front ++ back) :=
    (List.singleton_sublist.mpr upperMem).append (List.singleton_sublist.mpr lowerMem)
  exact (List.reverse_sublist.mpr forwards).trans treePath.opposite

theorem TreePath.finishTime_lt {front back : List Node} {upper lower node : Node}
    (treePath : TreePath graph graph.depthFirstSearchPostOrder (front ++ back) node)
    (upperMem : upper ∈ front) (lowerMem : lower ∈ back) :
    graph.finishTime lower < graph.finishTime upper :=
  idxOf_lt_of_sublist postOrder_nodup (treePath.finishes upperMem lowerMem)

/-- Of two nodes on a tree path the first to finish is reached last. -/
theorem TreePath.separate {path : List Node} {one other node : Node}
    (treePath : TreePath graph graph.depthFirstSearchPostOrder path node)
    (oneMem : one ∈ path) (otherMem : other ∈ path) (different : one ≠ other) :
    graph.finishTime one < graph.finishTime other ∨
      ∃ nodes, Walk graph.Edge other nodes node ∧ one ∉ nodes := by
  have nodup := treePath.nodup postOrder_nodup
  rcases List.append_of_mem otherMem with ⟨front, back, rfl⟩
  rcases List.mem_append.mp oneMem with inFront | inBack
  · right
    refine ⟨other :: back, treePath.walk.split.2, ?_⟩
    intro again
    exact (List.nodup_append.mp nodup).2.2 one inFront one again rfl
  · left
    have behind := (List.mem_cons.mp inBack).resolve_left different
    rw [List.append_cons] at treePath
    exact treePath.finishTime_lt (List.mem_append_right _ (List.mem_singleton_self other))
      behind

theorem exists_treePath (closed : graph.Closed) {node : Node}
    (reachable : graph.Reachable node) :
    ∃ path, TreePath graph graph.depthFirstSearchPostOrder path node := by
  rw [← finishOrder_dfsRun closed]
  apply (dfsRun_tree graph).paths node
  rw [finishOrder_dfsRun closed]
  exact (mem_postOrder closed).mpr reachable

/-- A node finishes before its other dominators. -/
theorem finishes_of_dominates (closed : graph.Closed) {dom node : Node}
    (reachable : graph.Reachable node) (dominates : graph.Dominates dom node)
    (different : dom ≠ node) : [node, dom].Sublist graph.depthFirstSearchPostOrder := by
  rcases exists_treePath closed reachable with ⟨path, treePath⟩
  have onPath := dominates path treePath.walk
  rcases treePath.walk.eq_concat with ⟨front, rfl⟩
  rcases List.mem_append.mp onPath with inFront | isNode
  · exact treePath.finishes inFront (List.mem_singleton_self node)
  · exact absurd (List.mem_singleton.mp isNode) different

theorem finishTime_lt_of_dominates (closed : graph.Closed) {dom node : Node}
    (reachable : graph.Reachable node) (dominates : graph.Dominates dom node)
    (different : dom ≠ node) : graph.finishTime node < graph.finishTime dom :=
  idxOf_lt_of_sublist postOrder_nodup
    (finishes_of_dominates closed reachable dominates different)

/-- Of two dominators of a node the first to finish is the closer one. -/
theorem dominators_separate (closed : graph.Closed) {one other node : Node}
    (reachable : graph.Reachable node) (oneDominates : graph.Dominates one node)
    (otherDominates : graph.Dominates other node) (different : one ≠ other) :
    graph.finishTime one < graph.finishTime other ∨
      ∃ nodes, Walk graph.Edge other nodes node ∧ one ∉ nodes := by
  rcases exists_treePath closed reachable with ⟨path, treePath⟩
  exact treePath.separate (oneDominates path treePath.walk) (otherDominates path treePath.walk)
    different

theorem backEdge_edge {source target : Node}
    (member : .backEdge source target ∈ graph.depthFirstSearch) : graph.Edge source target :=
  ((dfsRun_tree graph).backEdges source target member).1

theorem backEdge_reachable {source target : Node}
    (member : .backEdge source target ∈ graph.depthFirstSearch) : graph.Reachable source := by
  rcases ((dfsRun_tree graph).backEdges source target member).2 with ⟨path, treePath, -⟩
  exact treePath.walk.reachable

/-- The target of a back edge finishes after a dominator of the source, or reaches the
source without it. -/
theorem backEdge_separate (closed : graph.Closed) {source target dom : Node}
    (member : .backEdge source target ∈ graph.depthFirstSearch)
    (dominates : graph.Dominates dom source) (different : dom ≠ target) :
    graph.finishTime dom < graph.finishTime target ∨
      ∃ nodes, Walk graph.Edge target nodes source ∧ dom ∉ nodes := by
  rcases ((dfsRun_tree graph).backEdges source target member).2 with ⟨path, treePath, onPath⟩
  rw [finishOrder_dfsRun closed] at treePath
  exact treePath.separate (dominates path treePath.walk) onPath different

end Search

end LeechJit.Graph
