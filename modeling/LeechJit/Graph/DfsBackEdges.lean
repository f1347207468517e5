import LeechJit.Graph.DfsEdges
import LeechJit.Graph.DfsRecursive

/-! # Back edges and reverse postorder

A search scans the successors of a node once. Which of them are on the stack does not
change meanwhile, so of equal successors all are reported or none.
-/

namespace LeechJit.Graph

variable {Node : Type} [DecidableEq Node]

/-- The targets of the back edges reported for `source`, in the order of the reports. -/
def backEdgesFrom (events : List (Event Node)) (source : Node) : List Node :=
  events.filterMap fun event => match event with
    | .backEdge src tar => if src = source then some tar else none
    | _ => none

variable {graph : Graph Node} {depth : Nat} {colors colors' : Colors Node}
  {node parent succ source target : Node} {events events' front back : List (Event Node)}
  {rest : List Node}

@[simp] theorem backEdgesFrom_append (front back : List (Event Node)) (source : Node) :
    backEdgesFrom (front ++ back) source = backEdgesFrom front source ++ backEdgesFrom back source :=
  List.filterMap_append

@[simp] theorem backEdgesFrom_node (node : Node) (events : List (Event Node)) (source : Node) :
    backEdgesFrom (.discoverNode node :: events ++ [.finishNode node]) source =
      backEdgesFrom events source := by
  simp [backEdgesFrom]

theorem backEdgesFrom_self (source target : Node) (events : List (Event Node)) :
    backEdgesFrom (.backEdge source target :: events) source =
      target :: backEdgesFrom events source := by
  simp [backEdgesFrom]

theorem backEdgesFrom_other (different : source ≠ node) :
    backEdgesFrom (.backEdge source target :: events) node = backEdgesFrom events node := by
  simp [backEdgesFrom, different]

theorem mem_backEdgesFrom :
    target ∈ backEdgesFrom events source ↔ .backEdge source target ∈ events := by
  induction events with
  | nil => simp [backEdgesFrom]
  | cons event rest induction =>
      cases event with
      | backEdge src tar =>
          by_cases same : src = source
          · subst same
            simp [backEdgesFrom_self, induction]
          · simp [backEdgesFrom_other same, induction, Ne.symm same]
      | _ => simpa [backEdgesFrom] using induction

/-! ## One scan -/

/-- What is on the stack is the same before and after. -/
def SameGrey (colors colors' : Colors Node) : Prop :=
  ∀ node, colors' node = some .grey ↔ colors node = some .grey

/-- The nodes of some events report some of their successors, wherever these stand. -/
def ReportsSome (graph : Graph Node) (events : List (Event Node)) : Prop :=
  ∀ node ∈ discovered events, ∃ reported : Node → Bool,
    backEdgesFrom events node = (graph.succs node).filter reported

def ReportsOnly (events : List (Event Node)) (sources : List Node) : Prop :=
  ∀ node, node ∉ discovered events → node ∉ sources → backEdgesFrom events node = []

omit [DecidableEq Node] in
theorem discovered_cons_backEdge : discovered (.backEdge source target :: events) =
    discovered events :=
  rfl

/-- Two searches one after the other. -/
theorem ReportsSome.append {sources : List Node} (nodup : (discovered (front ++ back)).Nodup)
    (apart : ∀ node ∈ sources, node ∉ discovered (front ++ back))
    (frontOnly : ReportsOnly front []) (backOnly : ReportsOnly back sources)
    (first : ReportsSome graph front) (second : ReportsSome graph back) :
    ReportsSome graph (front ++ back) := by
  rw [discovered_append, List.nodup_append] at nodup
  intro node member
  rw [discovered_append] at member apart
  cases List.mem_append.mp member with
  | inl inFront =>
      have notBack : node ∉ discovered back := fun inBack =>
        nodup.2.2 node inFront node inBack rfl
      have notSource : node ∉ sources := fun isSource => apart node isSource member
      rcases first node inFront with ⟨reported, equal⟩
      exact ⟨reported, by rw [backEdgesFrom_append, equal, backOnly node notBack notSource,
        List.append_nil]⟩
  | inr inBack =>
      have notFront : node ∉ discovered front := fun inFront =>
        nodup.2.2 node inFront node inBack rfl
      rcases second node inBack with ⟨reported, equal⟩
      exact ⟨reported, by rw [backEdgesFrom_append, equal, frontOnly node notFront
        List.not_mem_nil, List.nil_append]⟩

/-- A search from a node that is not discovered. -/
structure Searched (graph : Graph Node) (colors : Colors Node) (events : List (Event Node))
    (colors' : Colors Node) : Prop where
  grey : SameGrey colors colors'
  only : ReportsOnly events []
  each : ReportsSome graph events

/-- The scan of successors of `parent`. -/
structure ScannedSuccs (graph : Graph Node) (parent : Node) (colors : Colors Node)
    (rest : List Node) (events : List (Event Node)) (colors' : Colors Node) : Prop where
  grey : SameGrey colors colors'
  only : ReportsOnly events [parent]
  each : ReportsSome graph events
  own : backEdgesFrom events parent = rest.filter fun succ => colors succ = some .grey

theorem Searched.of_scan (isNew : colors node = none) (fresh : node ∉ discovered events)
    (scanned : ScannedSuccs graph node (Function.update colors node (some .grey))
      (graph.succs node) events colors') :
    Searched graph colors (.discoverNode node :: events ++ [.finishNode node])
      (Function.update colors' node (some .black)) := by
  constructor
  case grey =>
    intro other
    cases decEq other node with
    | isTrue same => simp [same, isNew]
    | isFalse different =>
        simpa [different] using scanned.grey other
  case only =>
    intro other notMember _
    rw [discovered_node, List.mem_cons, not_or] at notMember
    rw [backEdgesFrom_node]
    exact scanned.only other notMember.2 (by simpa using notMember.1)
  case each =>
    intro other member
    rw [discovered_node, List.mem_cons] at member
    rw [backEdgesFrom_node]
    cases member with
    | inl same =>
        subst same
        exact ⟨_, scanned.own⟩
    | inr inside => exact scanned.each other inside

theorem ScannedSuccs.fresh {middle : Colors Node} {later : List (Event Node)}
    (isNew : colors succ = none) (nodup : (discovered (events ++ later)).Nodup)
    (apart : parent ∉ discovered (events ++ later)) (searched : Searched graph colors events middle)
    (scanned : ScannedSuccs graph parent middle rest later colors') :
    ScannedSuccs graph parent colors (succ :: rest) (events ++ later) colors' := by
  have notSearched : parent ∉ discovered events := fun inEvents =>
    apart (by rw [discovered_append]; exact List.mem_append_left _ inEvents)
  constructor
  case grey => exact fun other => (scanned.grey other).trans (searched.grey other)
  case only =>
    intro other notMember notParent
    rw [discovered_append, List.mem_append, not_or] at notMember
    rw [backEdgesFrom_append, searched.only other notMember.1 List.not_mem_nil,
      scanned.only other notMember.2 notParent, List.append_nil]
  case each =>
    have apart' : ∀ node ∈ [parent], node ∉ discovered (events ++ later) := by simpa using apart
    exact searched.each.append nodup apart' searched.only scanned.only scanned.each
  case own =>
    rw [backEdgesFrom_append, searched.only parent notSearched List.not_mem_nil, scanned.own,
      List.nil_append, List.filter_cons_of_neg (by simp [isNew])]
    apply List.filter_congr
    intro other _
    rw [decide_eq_decide]
    exact searched.grey other

theorem ScannedSuccs.backEdge (isGrey : colors succ = some .grey)
    (apart : parent ∉ discovered events)
    (scanned : ScannedSuccs graph parent colors rest events colors') :
    ScannedSuccs graph parent colors (succ :: rest) (.backEdge parent succ :: events) colors' := by
  constructor
  case grey => exact scanned.grey
  case only =>
    intro other notMember notParent
    rw [discovered_cons_backEdge] at notMember
    have different : parent ≠ other := fun same => notParent (by simp [same])
    rw [backEdgesFrom_other different]
    exact scanned.only other notMember notParent
  case each =>
    intro other member
    rw [discovered_cons_backEdge] at member
    have different : parent ≠ other := fun same => apart (same ▸ member)
    rw [backEdgesFrom_other different]
    exact scanned.each other member
  case own =>
    rw [backEdgesFrom_self, scanned.own, List.filter_cons_of_pos (by simpa using isGrey)]

theorem ScannedSuccs.skip (isBlack : colors succ = some .black)
    (scanned : ScannedSuccs graph parent colors rest events colors') :
    ScannedSuccs graph parent colors (succ :: rest) events colors' where
  grey := scanned.grey
  only := scanned.only
  each := scanned.each
  own := by rw [scanned.own, List.filter_cons_of_neg (by simp [isBlack])]

/-! ## The whole search -/

theorem searched_of_searchFrom (result : searchFrom graph depth colors node = some (events, colors'))
    (isNew : colors node = none) (nodup : (discovered events).Nodup) :
    Searched graph colors events colors' := by
  revert isNew nodup
  apply searchFrom_induct
    (fun colors node events colors' => colors node = none → (discovered events).Nodup →
      Searched graph colors events colors')
    (fun parent colors rest events colors' => parent ∉ discovered events →
      (discovered events).Nodup → ScannedSuccs graph parent colors rest events colors')
    _ _ _ _ _ result
  · intro colors node events colors' scan isNew nodup
    rw [discovered_node, List.nodup_cons] at nodup
    exact .of_scan isNew nodup.1 (scan nodup.1 nodup.2)
  · intro parent colors _ _
    constructor
    case grey => exact fun _ => Iff.rfl
    case only => exact fun _ _ _ => rfl
    case each => exact fun _ member => absurd member List.not_mem_nil
    case own => rfl
  · intro parent succ rest colors middle colors' events later isNew search scan apart nodup
    have parts := nodup
    have apartParts := apart
    rw [discovered_append, List.nodup_append] at parts
    rw [discovered_append, List.mem_append, not_or] at apartParts
    exact .fresh isNew nodup apart (search isNew parts.1) (scan apartParts.2 parts.2.1)
  · intro parent succ rest colors colors' later isGrey scan apart nodup
    exact .backEdge isGrey apart (scan apart nodup)
  · intro parent succ rest colors colors' later isBlack scan apart nodup
    exact .skip isBlack (scan apart nodup)

/-- The back edges reported for a node are its successors in order, without those that no
back edge is reported to. -/
theorem backEdgesFrom_eq (closed : graph.Closed) (reachable : graph.Reachable source) :
    backEdgesFrom graph.depthFirstSearch source = (graph.succs source).filter fun succ =>
      .backEdge source succ ∈ graph.depthFirstSearch := by
  rcases recursiveSearch_eq closed (Nat.le_refl _) with ⟨colors, searching⟩
  have searched := searched_of_searchFrom searching rfl preOrder_nodup
  rcases searched.each source ((mem_preOrder closed).mpr reachable) with ⟨reported, equal⟩
  rw [equal]
  apply List.filter_congr
  intro succ isSucc
  have reports : .backEdge source succ ∈ graph.depthFirstSearch ↔ reported succ = true := by
    rw [← mem_backEdgesFrom, equal, List.mem_filter]
    exact and_iff_right isSucc
  rw [Bool.eq_iff_iff, decide_eq_true_iff, reports]

/-- The target of a back edge finishes with the source or later. -/
theorem finishTime_le_of_backEdge (closed : graph.Closed)
    (member : .backEdge source target ∈ graph.depthFirstSearch) :
    graph.finishTime source ≤ graph.finishTime target := by
  rcases ((dfsRun_tree graph).backEdges source target member).2 with ⟨path, treePath, onPath⟩
  rw [finishOrder_dfsRun closed] at treePath
  rcases treePath.walk.eq_concat with ⟨front, rfl⟩
  cases List.mem_append.mp onPath with
  | inl inFront =>
      exact Nat.le_of_lt (treePath.finishTime_lt inFront (List.mem_singleton_self source))
  | inr isSource => rw [List.mem_singleton.mp isSource]

theorem idxOf_reverse {order : List Node} (nodup : order.Nodup) (member : node ∈ order) :
    order.reverse.idxOf node + order.idxOf node + 1 = order.length := by
  rcases List.append_of_mem member with ⟨front, back, rfl⟩
  have parts := List.nodup_middle.mp nodup
  have notMember := (List.nodup_cons.mp parts).1
  rw [List.mem_append, not_or] at notMember
  have before : (front ++ node :: back).idxOf node = front.length := by
    rw [List.idxOf_append_of_notMem notMember.1, List.idxOf_cons_self, Nat.add_zero]
  have behind : (front ++ node :: back).reverse.idxOf node = back.length := by
    rw [List.reverse_append, List.reverse_cons, List.append_assoc,
      List.idxOf_append_of_notMem (mt List.mem_reverse.mp notMember.2), List.singleton_append,
      List.idxOf_cons_self, List.length_reverse, Nat.add_zero]
  rw [before, behind, List.length_append, List.length_cons]
  omega

/-- Where a node stands in the reverse postorder. -/
def reversePostOrderIndex (graph : Graph Node) (node : Node) : Nat :=
  graph.depthFirstSearchReversePostOrder.idxOf node

theorem reversePostOrderIndex_le_iff (closed : graph.Closed) (sourceReached : graph.Reachable source)
    (targetReached : graph.Reachable target) :
    graph.reversePostOrderIndex target ≤ graph.reversePostOrderIndex source ↔
      graph.finishTime source ≤ graph.finishTime target := by
  have sourceSum := idxOf_reverse postOrder_nodup ((mem_postOrder closed).mpr sourceReached)
  have targetSum := idxOf_reverse postOrder_nodup ((mem_postOrder closed).mpr targetReached)
  rw [reversePostOrderIndex, reversePostOrderIndex, depthFirstSearchReversePostOrder, finishTime,
    finishTime]
  omega

/-- A back edge is an edge to a node at or before its source in reverse postorder. -/
theorem backEdge_iff (closed : graph.Closed) (reachable : graph.Reachable source)
    (edge : graph.Edge source target) :
    .backEdge source target ∈ graph.depthFirstSearch ↔
      graph.reversePostOrderIndex target ≤ graph.reversePostOrderIndex source := by
  rw [reversePostOrderIndex_le_iff closed reachable (reachable.tail edge)]
  constructor
  · exact finishTime_le_of_backEdge closed
  · intro later
    exact (edge_settled closed reachable edge).resolve_right (Nat.not_lt.mpr later)

omit [DecidableEq Node] in
/-- Edges that all lead forwards in an order close no cycle. -/
theorem index_lt_of_transGen {index : Node → Nat} (forwards : ∀ source target,
    graph.Reachable source → graph.Edge source target → index source < index target)
    (reachable : graph.Reachable source) (path : Relation.TransGen graph.Edge source target) :
    index source < index target := by
  have both : graph.Reachable target ∧ index source < index target := by
    induction path with
    | single edge => exact ⟨reachable.tail edge, forwards _ _ reachable edge⟩
    | tail _ edge induction =>
        exact ⟨induction.1.tail edge, induction.2.trans (forwards _ _ induction.1 edge)⟩
  exact both.2

/-- All edges lead forwards in reverse postorder. -/
structure Topological (graph : Graph Node) : Prop where
  nodup : graph.depthFirstSearchReversePostOrder.Nodup
  mem_iff : ∀ node, node ∈ graph.depthFirstSearchReversePostOrder ↔ graph.Reachable node
  forwards : ∀ source target, graph.Reachable source → graph.Edge source target →
    graph.reversePostOrderIndex source < graph.reversePostOrderIndex target

/-- Without back edges the reverse postorder is a topological order. -/
theorem topological_of_none (closed : graph.Closed)
    (none : ∀ source target, .backEdge source target ∉ graph.depthFirstSearch) :
    Topological graph where
  nodup := reversePostOrder_nodup
  mem_iff _ := mem_reversePostOrder closed
  forwards source target reachable edge :=
    Nat.lt_of_not_le (mt (backEdge_iff closed reachable edge).mpr (none source target))

/-- For every occurrence of a successor that stands at or before its source in reverse
postorder one back edge is reported, in the order of the successors, and no other. When none
is reported, there is no cycle, and the reverse postorder is a topological order. -/
theorem backEdges_exact (closed : graph.Closed) :
    (∀ source, graph.Reachable source →
      backEdgesFrom graph.depthFirstSearch source = (graph.succs source).filter fun target =>
        graph.reversePostOrderIndex target ≤ graph.reversePostOrderIndex source) ∧
    (∀ source target, .backEdge source target ∈ graph.depthFirstSearch →
      graph.Reachable source ∧ graph.Edge source target) ∧
    ((∀ source target, .backEdge source target ∉ graph.depthFirstSearch) →
      (∀ node, graph.Reachable node → ¬ Relation.TransGen graph.Edge node node) ∧
        Topological graph) := by
  refine ⟨fun source reachable => ?_, fun source target member =>
    ⟨backEdge_reachable member, backEdge_edge member⟩, fun none => ?_⟩
  · rw [backEdgesFrom_eq closed reachable]
    apply List.filter_congr
    intro target isSucc
    rw [decide_eq_decide]
    exact backEdge_iff closed reachable isSucc
  · have topological := topological_of_none closed none
    have acyclic : ∀ node, graph.Reachable node → ¬ Relation.TransGen graph.Edge node node :=
      fun node reachable cycle =>
        Nat.lt_irrefl _ (index_lt_of_transGen topological.forwards reachable cycle)
    exact ⟨acyclic, topological⟩

theorem backEdges_exact_tangled :
    (∀ source, tangledGraph.Reachable source →
      backEdgesFrom tangledGraph.depthFirstSearch source =
        (tangledGraph.succs source).filter fun target =>
          tangledGraph.reversePostOrderIndex target ≤ tangledGraph.reversePostOrderIndex source) ∧
    (∀ source target, .backEdge source target ∈ tangledGraph.depthFirstSearch →
      tangledGraph.Reachable source ∧ tangledGraph.Edge source target) ∧
    ((∀ source target, .backEdge source target ∉ tangledGraph.depthFirstSearch) →
      (∀ node, tangledGraph.Reachable node → ¬ Relation.TransGen tangledGraph.Edge node node) ∧
        Topological tangledGraph) :=
  backEdges_exact tangledGraph_closed

end LeechJit.Graph
