import LeechJit.Analysis.LoopRefine
import LeechJit.Graph.DomTreeExact

/-! # Collecting the back edges

After the search every header has a loop with the sources of its back edges, and
the headers and the other nodes stand in the order they finish.
-/

namespace LeechJit.Analysis

open LeechJit.Graph

variable {Node : Type} [DecidableEq Node]

/-- The sources of the back edges to `header` among some events. -/
def latchesIn (events : List (Event Node)) (header : Node) : List Node :=
  events.filterMap (Event.latch? header)

theorem modify_middle {α : Type} {front back : List α} {middle : α} {place : Nat}
    (isPlace : place = front.length) (change : α → α) :
    (front ++ middle :: back).modify place change = front ++ change middle :: back := by
  subst isPlace
  induction front with
  | nil => rfl
  | cons head rest induction => simpa using induction

theorem latchesIn_snoc (events : List (Event Node)) (event : Event Node) (header : Node) :
    latchesIn (events ++ [event]) header =
      latchesIn events header ++ (event.latch? header).toList := by
  rw [latchesIn, List.filterMap_append]
  cases found : event.latch? header <;> simp [latchesIn, found]

/-- The loop of `header` after some events. -/
def collectedInfo (domTree : DominatorTree Node) (events : List (Event Node)) (header : Node) :
    LoopInfo Node where
  header := some header
  body := (latchesIn events header).map .node
  backEdgesSrc := latchesIn events header
  reducible :=
    match latchesIn events header with
    | src :: _ => domTree.isDominator header src = .ok true
    | [] => false

theorem collectedInfo_add {domTree : DominatorTree Node} {events : List (Event Node)}
    {src header : Node} (known : latchesIn events header ≠ []) :
    collectedInfo domTree (events ++ [.backEdge src header]) header =
      (collectedInfo domTree events header).addBackEdge src := by
  rcases first : latchesIn events header with _ | ⟨oldest, rest⟩
  · exact absurd first known
  · simp [collectedInfo, latchesIn_snoc, Event.latch?, first, LoopInfo.addBackEdge,
      LoopInfo.addNode]

theorem collectedInfo_keep {domTree : DominatorTree Node} {events : List (Event Node)}
    {event : Event Node} {header : Node} (other : event.latch? header = none) :
    collectedInfo domTree (events ++ [event]) header = collectedInfo domTree events header := by
  simp [collectedInfo, latchesIn_snoc, other]

structure Collecting (graph : Graph Node) (domTree : DominatorTree Node)
    (events : List (Event Node)) (heads : List Node) (state : LoopAnalyzer.BackEdges Node) :
    Prop where
  nodup : heads.Nodup
  mem_heads : ∀ node, node ∈ heads ↔ latchesIn events node ≠ []
  loops : state.analyzer.loops = heads.map (collectedInfo domTree events)
  found : ∀ node, state.analyzer.findLoop node =
    if node ∈ heads then some (heads.idxOf node) else none
  keys : (state.analyzer.nodesToLoop.map Prod.fst).Nodup
  postOrder : state.postOrder =
    (finished events).filter fun node => decide (graph.IsHeader node)
  allNodes : state.allNodes =
    (finished events).filter fun node => decide (¬ graph.IsHeader node)

namespace Collecting

variable {graph : Graph Node} {domTree : DominatorTree Node} {events : List (Event Node)}
  {heads : List Node} {state : LoopAnalyzer.BackEdges Node}

theorem start (graph : Graph Node) (domTree : DominatorTree Node) :
    Collecting graph domTree [] [] {} where
  nodup := List.nodup_nil
  mem_heads := by simp [latchesIn]
  loops := rfl
  found := by simp [LoopAnalyzer.findLoop]
  keys := List.nodup_nil
  postOrder := rfl
  allNodes := rfl

/-- An event that is no back edge leaves the loops as they are. -/
theorem keepLoops (collecting : Collecting graph domTree events heads state)
    (event : Event Node) (silent : ∀ header, event.latch? header = none) :
    (∀ node, node ∈ heads ↔ latchesIn (events ++ [event]) node ≠ []) ∧
      state.analyzer.loops = heads.map (collectedInfo domTree (events ++ [event])) := by
  constructor
  · intro node
    rw [latchesIn_snoc, silent, collecting.mem_heads]
    simp
  · rw [collecting.loops]
    apply List.map_congr_left
    intro header _
    exact (collectedInfo_keep (silent header)).symm

theorem discoverNode (collecting : Collecting graph domTree events heads state) (node : Node) :
    Collecting graph domTree (events ++ [.discoverNode node]) heads state := by
  have kept := collecting.keepLoops (.discoverNode node) fun _ => rfl
  constructor
  case nodup => exact collecting.nodup
  case mem_heads => exact kept.1
  case loops => exact kept.2
  case found => exact collecting.found
  case keys => exact collecting.keys
  case postOrder => simpa using collecting.postOrder
  case allNodes => simpa using collecting.allNodes

theorem finishNode (collecting : Collecting graph domTree events heads state) {node : Node}
    (settled : graph.IsHeader node ↔ latchesIn events node ≠ []) :
    Collecting graph domTree (events ++ [.finishNode node]) heads
      (LoopAnalyzer.finishNode state node) := by
  have kept := collecting.keepLoops (.finishNode node) fun _ => rfl
  have known : (state.analyzer.findLoop node).isSome ↔ graph.IsHeader node := by
    rw [settled, ← collecting.mem_heads, collecting.found]
    by_cases member : node ∈ heads <;> simp [member]
  by_cases isHeader : graph.IsHeader node
  · simp only [LoopAnalyzer.finishNode, known.mpr isHeader, if_true]
    constructor
    case nodup => exact collecting.nodup
    case mem_heads => exact kept.1
    case loops => exact kept.2
    case found => exact collecting.found
    case keys => exact collecting.keys
    case postOrder => simp [collecting.postOrder, isHeader]
    case allNodes => simp [collecting.allNodes, isHeader]
  · simp only [LoopAnalyzer.finishNode, mt known.mp isHeader, Bool.false_eq_true, if_false]
    constructor
    case nodup => exact collecting.nodup
    case mem_heads => exact kept.1
    case loops => exact kept.2
    case found => exact collecting.found
    case keys => exact collecting.keys
    case postOrder => simp [collecting.postOrder, isHeader]
    case allNodes => simp [collecting.allNodes, isHeader]

/-- A further back edge to a header. -/
theorem backEdge_known (collecting : Collecting graph domTree events heads state)
    {src tar : Node} (known : tar ∈ heads) :
    ∃ after, LoopAnalyzer.backEdge domTree state src tar = .ok after ∧
      Collecting graph domTree (events ++ [.backEdge src tar]) heads after := by
  have found : state.analyzer.findLoop tar = some (heads.idxOf tar) := by
    rw [collecting.found, if_pos known]
  simp only [LoopAnalyzer.backEdge, found]
  refine ⟨_, rfl, ?_⟩
  have others : ∀ node, node ≠ tar → Event.latch? node (.backEdge src tar) = none := by
    intro node different
    simp [Event.latch?, different.symm]
  constructor
  case nodup => exact collecting.nodup
  case mem_heads =>
    intro node
    rw [latchesIn_snoc, collecting.mem_heads]
    by_cases same : node = tar
    · subst same
      simpa [Event.latch?] using (collecting.mem_heads node).mp known
    · rw [others node same]
      simp
  case loops =>
    simp only [LoopAnalyzer.modifyLoop, collecting.loops]
    apply modify_map collecting.nodup known
    · exact collectedInfo_add ((collecting.mem_heads tar).mp known)
    · intro node _ different
      exact collectedInfo_keep (others node different)
  case found => exact collecting.found
  case keys => exact collecting.keys
  case postOrder => simpa using collecting.postOrder
  case allNodes => simpa using collecting.allNodes

/-- The first back edge to a node makes it a header. -/
theorem backEdge_new (collecting : Collecting graph domTree events heads state)
    {src tar : Node} (new : tar ∉ heads) {found : Bool}
    (returned : domTree.isDominator tar src = .ok found) :
    ∃ after, LoopAnalyzer.backEdge domTree state src tar = .ok after ∧
      Collecting graph domTree (events ++ [.backEdge src tar]) (heads ++ [tar]) after := by
  have unknown : state.analyzer.findLoop tar = none := by rw [collecting.found, if_neg new]
  have first : latchesIn events tar = [] := by
    by_contra notNil
    exact new ((collecting.mem_heads tar).mpr notNil)
  have others : ∀ node, node ≠ tar → Event.latch? node (.backEdge src tar) = none := by
    intro node different
    simp [Event.latch?, different.symm]
  have length : state.analyzer.loops.length = heads.length := by
    rw [collecting.loops, List.length_map]
  simp only [LoopAnalyzer.backEdge, unknown, returned, Result.ok_bind, LoopAnalyzer.emplaceLoop]
  refine ⟨_, rfl, ?_⟩
  constructor
  case nodup =>
    exact List.Nodup.append collecting.nodup (List.nodup_singleton tar) (by simpa using new)
  case mem_heads =>
    intro node
    rw [latchesIn_snoc, List.mem_append, List.mem_singleton, collecting.mem_heads]
    by_cases same : node = tar
    · subst same
      simp [Event.latch?]
    · rw [others node same]
      simp [same]
  case loops =>
    have kept : heads.map (collectedInfo domTree (events ++ [.backEdge src tar])) =
        state.analyzer.loops := by
      rw [collecting.loops]
      apply List.map_congr_left
      intro header member
      exact collectedInfo_keep (others header fun equal => new (equal ▸ member))
    rw [List.map_append, kept]
    simp only [LoopAnalyzer.modifyLoop, LoopAnalyzer.emplaceNode_loops, modify_middle rfl]
    simp [collectedInfo, latchesIn_snoc, first, Event.latch?, returned, LoopInfo.addBackEdge,
      LoopInfo.addNode]
  case found =>
    intro node
    have grown : ∀ loops, LoopAnalyzer.findLoop ⟨state.analyzer.nodesToLoop, loops⟩ node =
        if node ∈ heads then some (heads.idxOf node) else none := fun _ => collecting.found node
    have unknown' : ∀ loops, LoopAnalyzer.findLoop ⟨state.analyzer.nodesToLoop, loops⟩ tar =
        none := fun _ => unknown
    simp only [LoopAnalyzer.findLoop_modifyLoop, LoopAnalyzer.findLoop_emplaceNode (unknown' _),
      grown, length]
    by_cases same : node = tar
    · subst same
      simp [List.idxOf_append_of_notMem new]
    · by_cases member : node ∈ heads
      · simp [same, member, List.idxOf_append_of_mem member]
      · simp [same, member]
  case keys => exact LoopAnalyzer.emplaceNode_keys collecting.keys
  case postOrder => simpa using collecting.postOrder
  case allNodes => simpa using collecting.allNodes

/-- The visitor goes through the events of the search. -/
theorem run {front rest : List (Event Node)} (whole : front ++ rest = graph.depthFirstSearch)
    (collecting : Collecting graph domTree front heads state)
    (returns : ∀ src tar, .backEdge src tar ∈ graph.depthFirstSearch →
      ∃ found, domTree.isDominator tar src = .ok found) :
    ∃ after heads', rest.foldlM (LoopAnalyzer.visitEvent domTree) state = .ok after ∧
      Collecting graph domTree (front ++ rest) heads' after := by
  induction rest generalizing front heads state with
  | nil => exact ⟨state, heads, rfl, by simpa using collecting⟩
  | cons event rest induction =>
      have whole' : front ++ [event] ++ rest = graph.depthFirstSearch := by simpa using whole
      have step : ∃ next heads', LoopAnalyzer.visitEvent domTree state event = .ok next ∧
          Collecting graph domTree (front ++ [event]) heads' next := by
        cases event with
        | discoverNode node => exact ⟨state, heads, rfl, collecting.discoverNode node⟩
        | finishNode node =>
            refine ⟨_, heads, rfl, collecting.finishNode ?_⟩
            -- No back edge to the node comes later.
            have quiet : latchesIn rest node = [] := by
              apply List.filterMap_eq_nil_iff.mpr
              intro later member
              have silent := depthFirstSearch_silent graph
              rw [← whole] at silent
              have pair := (List.pairwise_cons.mp (List.pairwise_append.mp silent).2.1).1
                later member
              cases later with
              | discoverNode other => rfl
              | finishNode other => rfl
              | backEdge src tar =>
                  have different : tar ≠ node := by
                    rintro rfl
                    exact pair tar src rfl rfl
                  simp [Event.latch?, different]
            have all : graph.backEdgesSrc node = latchesIn front node := by
              rw [backEdgesSrc, ← whole, List.filterMap_append]
              have none : latchesIn (.finishNode node :: rest) node = [] := quiet
              rw [latchesIn] at none
              rw [none, List.append_nil, latchesIn]
            rw [IsHeader, all]
        | backEdge src tar =>
            by_cases known : tar ∈ heads
            · rcases collecting.backEdge_known known with ⟨next, result, final⟩
              exact ⟨next, heads, result, final⟩
            · have member : .backEdge src tar ∈ graph.depthFirstSearch := by
                rw [← whole]
                exact List.mem_append_right _ (.head _)
              rcases returns src tar member with ⟨found, returned⟩
              rcases collecting.backEdge_new known returned with ⟨next, result, final⟩
              exact ⟨next, heads ++ [tar], result, final⟩
      rcases step with ⟨next, heads', visited, collecting'⟩
      rcases induction whole' collecting' with ⟨after, heads'', result, final⟩
      refine ⟨after, heads'', ?_, by simpa using final⟩
      rw [List.foldlM_cons, visited, Result.ok_bind, result]

end Collecting

/-- What the constructor starts to populate. -/
structure Collected (graph : Graph Node) (heads : List Node)
    (edges : LoopAnalyzer.BackEdges Node) : Prop where
  nodup : heads.Nodup
  headers : ∀ node, node ∈ heads ↔ graph.IsHeader node
  represents : Represents graph heads edges.analyzer (Nest.start graph)
  postOrder : edges.postOrder =
    graph.depthFirstSearchPostOrder.filter fun node => decide (graph.IsHeader node)
  allNodes : edges.allNodes =
    graph.depthFirstSearchPostOrder.filter fun node => decide (¬ graph.IsHeader node)

theorem collectBackEdges_collected (cfg : Cfg Node) :
    ∃ edges heads, LoopAnalyzer.collectBackEdges cfg.toGraph = .ok edges ∧
      Collected cfg.toGraph heads edges := by
  rcases buildDomTree_treeOf cfg with ⟨domTree, value, built, -, -, treeOf⟩
  have perm := preOrder_perm cfg
  have returns : ∀ src tar, .backEdge src tar ∈ cfg.depthFirstSearch →
      ∃ found, domTree.isDominator tar src = .ok found := by
    intro src tar member
    have reachable : cfg.Reachable tar := (backEdge_reachable member).tail (backEdge_edge member)
    rcases treeOf.isDominator_returns (.of_perm perm) ((mem_preOrder cfg.closed).mpr reachable)
      src with ⟨found, returned, -⟩
    exact ⟨found, returned⟩
  have start := Collecting.start cfg.toGraph domTree
  rcases start.run (List.nil_append cfg.depthFirstSearch) returns with ⟨edges, heads, result, collecting⟩
  rw [List.nil_append] at collecting
  refine ⟨edges, heads, ?_, ?_⟩
  · rw [LoopAnalyzer.collectBackEdges, built, Result.ok_bind, result]
  · have headers : ∀ node, node ∈ heads ↔ cfg.IsHeader node := collecting.mem_heads
    constructor
    case nodup => exact collecting.nodup
    case headers => exact headers
    case represents =>
      constructor
      case loops =>
        rw [collecting.loops]
        apply List.map_congr_left
        intro header _
        have srcs : latchesIn cfg.depthFirstSearch header = cfg.backEdgesSrc header := rfl
        rcases listed : cfg.backEdgesSrc header with _ | ⟨src, others⟩
        · simp [collectedInfo, infoOf, Nest.start, reducible, built, srcs, listed]
        · simp [collectedInfo, infoOf, Nest.start, reducible, built, srcs, listed]
      case found =>
        intro node
        rw [collecting.found]
        by_cases member : node ∈ heads
        · simp [member, Nest.start, (headers node).mp member]
        · simp [member, Nest.start, mt (headers node).mpr member]
      case keys => exact collecting.keys
      case owners =>
        intro node loop owned
        by_cases isHeader : cfg.IsHeader node
        · simp only [Nest.start, isHeader, if_true, Option.some.injEq] at owned
          exact owned ▸ (headers node).mpr isHeader
        · simp [Nest.start, isHeader] at owned
    case postOrder => exact collecting.postOrder
    case allNodes => exact collecting.allNodes

end LeechJit.Analysis
