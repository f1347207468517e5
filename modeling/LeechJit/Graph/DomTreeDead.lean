import LeechJit.Graph.DfsRecursive
import LeechJit.Graph.DomTreeRooted

/-! # The dominator tree of a graph with dead nodes

The builder numbers the nodes the entry reaches. A predecessor that has no number throws;
without such a predecessor the vectors are too long, and nothing else is different from
the graph without its dead nodes.
-/

namespace LeechJit.Graph

variable {Node : Type}

/-- A graph with the nodes the entry reaches. -/
def pruned [DecidableEq Node] (graph : Graph Node) : Graph Node where
  nodes := graph.nodes.filter (· ∈ graph.depthFirstSearchPreOrder)
  entryPoint := graph.entryPoint
  succs := graph.succs
  preds node := (graph.preds node).filter (· ∈ graph.depthFirstSearchPreOrder)
  id := graph.id

/-! ## Longer vectors -/

theorem FromDFSTimeMap.at_append {α : Type} {map : FromDFSTimeMap α} {time : DFSTime} {value : α}
    (read : FromDFSTimeMap.at map time = .ok value) (extra : List α) :
    FromDFSTimeMap.at (map ++ extra) time = .ok value := by
  rw [FromDFSTimeMap.at_eq_ok] at read ⊢
  rw [List.getElem?_append_left (List.getElem?_eq_some_iff.mp read).1, read]

theorem FromDFSTimeMap.write_append {α : Type} {map map' : FromDFSTimeMap α} {time : DFSTime}
    {value : α} (written : FromDFSTimeMap.write map time value = .ok map') (extra : List α) :
    FromDFSTimeMap.write (map ++ extra) time value = .ok (map' ++ extra) := by
  rcases Result.bind_eq_ok.mp written with ⟨old, read, equal⟩
  cases equal
  have inside := (List.getElem?_eq_some_iff.mp (FromDFSTimeMap.at_eq_ok.mp read)).1
  rw [FromDFSTimeMap.write, FromDFSTimeMap.at_append read, Result.ok_bind, Result.pure_eq_ok,
    List.set_append_left _ _ inside]

namespace DSUContext

def pad (context : DSUContext Node) (extra : List DFSTime) : DSUContext Node :=
  { context with sdoms := context.sdoms ++ extra }

theorem getSdomId_pad {context : DSUContext Node} {node : Node} {sdom : DFSTime}
    (read : context.getSdomId node = .ok sdom) (extra : List DFSTime) :
    (context.pad extra).getSdomId node = .ok sdom := by
  rcases Result.bind_eq_ok.mp read with ⟨time, numbered, stored⟩
  have numbered' : (context.pad extra).getNodeTime node = .ok time := numbered
  rw [getSdomId, numbered', Result.ok_bind]
  exact FromDFSTimeMap.at_append stored extra

end DSUContext

namespace DomTreeBuilder

variable {builder builder' : DomTreeBuilder Node} {graph : Graph Node}

def pad (builder : DomTreeBuilder Node) (extra : List DFSTime) : DomTreeBuilder Node :=
  { builder with sdoms := builder.sdoms ++ extra, idoms := builder.idoms ++ extra }

theorem visitNode_pad {prev node : Node} (extra : List DFSTime)
    (result : builder.visitNode graph prev node = .ok builder') :
    (builder.pad extra).visitNode graph prev node = .ok (builder'.pad extra) := by
  rcases Result.bind_eq_ok.mp result with ⟨sdoms, first, continued⟩
  rcases Result.bind_eq_ok.mp continued with ⟨idoms, second, equal⟩
  cases equal
  simp only [visitNode, pad, FromDFSTimeMap.write_append first, FromDFSTimeMap.write_append second,
    Result.ok_bind, Result.pure_eq_ok]

variable [DecidableEq Node]

theorem visitNodes_pad {prev : Node} {nodes : List Node} (extra : List DFSTime)
    (result : builder.visitNodes graph.pruned prev nodes = .ok builder') :
    (builder.pad extra).visitNodes graph prev nodes = .ok (builder'.pad extra) := by
  induction nodes generalizing builder prev with
  | nil =>
      cases result
      rfl
  | cons node rest induction =>
      rcases Result.bind_eq_ok.mp result with ⟨next, visiting, others⟩
      have visiting' : builder.visitNode graph prev node = .ok next := visiting
      rw [visitNodes, visitNode_pad extra visiting', Result.ok_bind]
      exact induction others

theorem dsuFind_pad {context : DSUContext Node} {fuel : Nat} {dsu : DSU Node} {node : Node}
    {found : Node × DSU Node} (extra : List DFSTime)
    (result : DSU.find context fuel dsu node = .ok found) :
    DSU.find (context.pad extra) fuel dsu node = .ok found := by
  induction fuel generalizing dsu node found with
  | zero => cases result
  | succ fuel induction =>
      have times : (context.pad extra).getNodeTime = context.getNodeTime := rfl
      rw [DSU.find, times]
      rcases Result.bind_eq_ok.mp result with ⟨time, numbered, continued⟩
      rcases Result.bind_eq_ok.mp continued with ⟨parent, stored, continued⟩
      simp only [numbered, stored, Result.ok_bind]
      split at continued
      case isTrue isRoot => rwa [if_pos isRoot]
      case isFalse notRoot =>
        rcases Result.bind_eq_ok.mp continued with ⟨above, deeper, continued⟩
        rcases Result.bind_eq_ok.mp continued with ⟨parent', stored', continued⟩
        rcases Result.bind_eq_ok.mp continued with ⟨parentTime, numbered', continued⟩
        rcases Result.bind_eq_ok.mp continued with ⟨parLabel, parLabelStored, continued⟩
        rcases Result.bind_eq_ok.mp continued with ⟨label, labelStored, continued⟩
        rcases Result.bind_eq_ok.mp continued with ⟨parSdom, parSdomStored, continued⟩
        rcases Result.bind_eq_ok.mp continued with ⟨sdom, sdomStored, equal⟩
        simp only [if_neg notRoot, induction deeper, stored', numbered', parLabelStored,
          labelStored, DSUContext.getSdomId_pad parSdomStored, DSUContext.getSdomId_pad sdomStored,
          Result.ok_bind]
        exact equal

theorem find_pad {node found : Node} (extra : List DFSTime)
    (result : builder.find graph node = .ok (found, builder')) :
    (builder.pad extra).find graph node = .ok (found, builder'.pad extra) := by
  rcases Result.bind_eq_ok.mp result with ⟨⟨other, dsu⟩, finding, equal⟩
  cases equal
  have longer : DSU.find ((builder.pad extra).context graph) (builder.pad extra).dfsTimes.length
      (builder.pad extra).dsu node = .ok (found, dsu) :=
    dsuFind_pad extra finding
  rw [find, longer]
  rfl

theorem lowerSdom_pad {dfsTime : DFSTime} {pred : Node} (extra : List DFSTime)
    (result : lowerSdom graph dfsTime builder pred = .ok builder') :
    lowerSdom graph dfsTime (builder.pad extra) pred = .ok (builder'.pad extra) := by
  rcases Result.bind_eq_ok.mp result with ⟨⟨found, middle⟩, finding, continued⟩
  rcases Result.bind_eq_ok.mp continued with ⟨sdom, read, continued⟩
  rcases Result.bind_eq_ok.mp continued with ⟨other, readOther, continued⟩
  rcases Result.bind_eq_ok.mp continued with ⟨sdoms, written, equal⟩
  cases equal
  rw [lowerSdom, find_pad extra finding]
  have same : (middle.pad extra).timeOf graph found = middle.timeOf graph found := rfl
  simp only [Result.ok_bind, same]
  simp only [pad, FromDFSTimeMap.at_append read, FromDFSTimeMap.at_append readOther,
    FromDFSTimeMap.write_append written, Result.ok_bind, Result.pure_eq_ok]

omit [DecidableEq Node] in
/-- A loop over nodes whose rounds go through on longer vectors. -/
theorem foldlM_pad {round round' : DomTreeBuilder Node → Node → Result (DomTreeBuilder Node)}
    {nodes : List Node} (extra : List DFSTime)
    (rounds : ∀ builder builder', ∀ node ∈ nodes, round builder node = .ok builder' →
      round' (builder.pad extra) node = .ok (builder'.pad extra))
    (result : nodes.foldlM round builder = .ok builder') :
    nodes.foldlM round' (builder.pad extra) = .ok (builder'.pad extra) := by
  induction nodes generalizing builder with
  | nil =>
      cases result
      rfl
  | cons node rest induction =>
      rcases Result.bind_eq_ok.mp result with ⟨next, first, others⟩
      rw [List.foldlM_cons, rounds _ _ node List.mem_cons_self first, Result.ok_bind]
      exact induction (fun _ _ other member => rounds _ _ other (List.mem_cons_of_mem _ member))
        others

theorem fillIdom_pad {dominatee : Node} (extra : List DFSTime)
    (result : fillIdom graph builder dominatee = .ok builder') :
    fillIdom graph (builder.pad extra) dominatee = .ok (builder'.pad extra) := by
  rcases Result.bind_eq_ok.mp result with ⟨⟨found, middle⟩, finding, continued⟩
  rcases Result.bind_eq_ok.mp continued with ⟨sdom, read, continued⟩
  rcases Result.bind_eq_ok.mp continued with ⟨other, readOther, continued⟩
  rcases Result.bind_eq_ok.mp continued with ⟨idoms, written, equal⟩
  cases equal
  rw [fillIdom, find_pad extra finding]
  have same : ∀ node, (middle.pad extra).timeOf graph node = middle.timeOf graph node :=
    fun _ => rfl
  simp only [Result.ok_bind, same]
  simp only [pad, FromDFSTimeMap.at_append read, FromDFSTimeMap.at_append readOther,
    FromDFSTimeMap.write_append written, Result.ok_bind, Result.pure_eq_ok]

theorem findMinSdom_pad {node : Node} {sdom : DFSTime} (extra : List DFSTime)
    (preds : graph.pruned.preds node = graph.preds node)
    (result : builder.findMinSdom graph.pruned node = .ok (sdom, builder')) :
    (builder.pad extra).findMinSdom graph node = .ok (sdom, builder'.pad extra) := by
  rcases Result.bind_eq_ok.mp result with ⟨middle, lowering, continued⟩
  rcases Result.bind_eq_ok.mp continued with ⟨found, read, equal⟩
  cases equal
  rw [preds] at lowering
  have lowered := foldlM_pad extra (fun _ _ _ _ => lowerSdom_pad extra) lowering
  have longer : (graph.preds node).foldlM
      (lowerSdom graph ((builder.pad extra).timeOf graph node)) (builder.pad extra) =
        .ok (builder'.pad extra) := lowered
  rw [findMinSdom, longer, Result.ok_bind]
  have read' : FromDFSTimeMap.at (builder'.pad extra).sdoms
      ((builder.pad extra).timeOf graph node) = .ok sdom := FromDFSTimeMap.at_append read extra
  rw [read']
  rfl

theorem fillIdoms_pad {nodeId : NodeId} (extra : List DFSTime)
    (result : builder.fillIdoms graph.pruned nodeId = .ok builder') :
    (builder.pad extra).fillIdoms graph nodeId = .ok (builder'.pad extra) :=
  foldlM_pad extra (fun _ _ _ _ => fillIdom_pad extra) result

theorem calcSdom_pad {node : Node} (extra : List DFSTime)
    (preds : graph.pruned.preds node = graph.preds node)
    (result : calcSdom graph.pruned builder node = .ok builder') :
    calcSdom graph (builder.pad extra) node = .ok (builder'.pad extra) := by
  rcases Result.bind_eq_ok.mp result with ⟨⟨sdom, middle⟩, lowering, continued⟩
  rcases Result.bind_eq_ok.mp continued with ⟨first, isFirst, continued⟩
  have isFirst' : FromDFSTimeMap.at (middle.pad extra).dfsTimes 0 = .ok first := isFirst
  rw [calcSdom, findMinSdom_pad extra preds lowering, Result.ok_bind]
  simp only [isFirst', Result.ok_bind]
  split at continued
  case isTrue isEntry =>
    rw [if_pos isEntry]
    exact fillIdoms_pad extra continued
  case isFalse notEntry =>
    rcases Result.bind_eq_ok.mp continued with ⟨sdomNode, sdomPlaced, continued⟩
    rcases Result.bind_eq_ok.mp continued with ⟨filled, filling, continued⟩
    rcases Result.bind_eq_ok.mp continued with ⟨parent, isParent, continued⟩
    rcases Result.bind_eq_ok.mp continued with ⟨dsu, uniting, equal⟩
    cases equal
    have sdomPlaced' : FromDFSTimeMap.at (middle.pad extra).dfsTimes sdom = .ok sdomNode :=
      sdomPlaced
    have filled' := fillIdoms_pad extra filling
    have isParent' : FromIdMap.at (filled.pad extra).dfsParents (graph.id node) = .ok parent :=
      isParent
    have uniting' : DSU.unite ((filled.pad extra).context graph) (filled.pad extra).dsu node
        parent = .ok dsu := uniting
    rw [if_neg notEntry, sdomPlaced', Result.ok_bind]
    refine Result.bind_eq_ok.mpr ⟨_, filled', ?_⟩
    rw [isParent', Result.ok_bind, uniting']
    rfl

theorem calcSdoms_pad (extra : List DFSTime)
    (preds : ∀ node ∈ builder.dfsTimes, graph.pruned.preds node = graph.preds node)
    (result : builder.calcSdoms graph.pruned = .ok builder') :
    (builder.pad extra).calcSdoms graph = .ok (builder'.pad extra) :=
  foldlM_pad extra (fun _ _ node member =>
    calcSdom_pad extra (preds node (List.mem_reverse.mp member))) result

omit [DecidableEq Node] in
theorem calcIdom_pad {tree : DominatorTree Node} {state : DomTreeBuilder Node × DominatorTree Node}
    {time : DFSTime} (extra : List DFSTime) (result : calcIdom (builder, tree) time = .ok state) :
    calcIdom (builder.pad extra, tree) time = .ok (state.1.pad extra, state.2) := by
  rcases Result.bind_eq_ok.mp result with ⟨node, placed, continued⟩
  rcases Result.bind_eq_ok.mp continued with ⟨idomTime, read, continued⟩
  rcases Result.bind_eq_ok.mp continued with ⟨sdom, readSdom, continued⟩
  dsimp only at continued
  simp only [calcIdom, pad, placed, FromDFSTimeMap.at_append read,
    FromDFSTimeMap.at_append readSdom, Result.ok_bind]
  split at continued
  case isTrue differs =>
    rcases Result.bind_eq_ok.mp continued with ⟨idom, corrected, continued⟩
    rcases Result.bind_eq_ok.mp continued with ⟨idoms, written, continued⟩
    rcases Result.bind_eq_ok.mp continued with ⟨idomNode, idomPlaced, equal⟩
    cases equal
    simp only [if_pos differs, FromDFSTimeMap.at_append corrected,
      FromDFSTimeMap.write_append written, idomPlaced, Result.ok_bind, Result.pure_eq_ok]
  case isFalse same =>
    rw [Result.ok_bind] at continued
    rcases Result.bind_eq_ok.mp continued with ⟨idoms, written, continued⟩
    rcases Result.bind_eq_ok.mp continued with ⟨idomNode, idomPlaced, equal⟩
    cases equal
    simp only [if_neg same, FromDFSTimeMap.write_append written, idomPlaced, Result.ok_bind,
      Result.pure_eq_ok]

theorem calcIdoms_pad {tree : DominatorTree Node} (extra : List DFSTime)
    (result : builder.calcIdoms graph.pruned = .ok tree) :
    (builder.pad extra).calcIdoms graph = .ok tree := by
  rcases Result.bind_eq_ok.mp result with ⟨⟨last, _⟩, filling, equal⟩
  cases equal
  have rounds : ∀ {times : List DFSTime} {builder : DomTreeBuilder Node}
      {start : DominatorTree Node}, times.foldlM calcIdom (builder, start) = .ok (last, tree) →
      times.foldlM calcIdom (builder.pad extra, start) = .ok (last.pad extra, tree) := by
    intro times
    induction times with
    | nil =>
        intro builder start done
        cases done
        rfl
    | cons time rest induction =>
        intro builder start done
        rcases Result.bind_eq_ok.mp done with ⟨⟨next, grown⟩, first, others⟩
        rw [List.foldlM_cons, calcIdom_pad extra first, Result.ok_bind]
        exact induction others
  refine Result.bind_eq_ok.mpr ⟨_, rounds filling, rfl⟩

/-! ## Predecessors have to be numbered -/

theorem find_keeps {node found : Node}
    (result : builder.find graph node = .ok (found, builder')) :
    builder'.revIdMap = builder.revIdMap ∧ builder.revIdMap (graph.id node) ≠ none := by
  rcases Result.bind_eq_ok.mp result with ⟨⟨other, dsu⟩, finding, equal⟩
  cases equal
  refine ⟨rfl, ?_⟩
  revert finding
  cases builder.dfsTimes.length with
  | zero => exact fun finding => nomatch finding
  | succ fuel =>
      intro finding
      rcases Result.bind_eq_ok.mp finding with ⟨time, numbered, -⟩
      have stored : builder.revIdMap (graph.id node) = some time := FromIdMap.at_eq_ok.mp numbered
      rw [stored]
      exact Option.some_ne_none time

theorem lowerSdom_keeps {dfsTime : DFSTime} {pred : Node}
    (result : lowerSdom graph dfsTime builder pred = .ok builder') :
    builder'.revIdMap = builder.revIdMap ∧ builder.revIdMap (graph.id pred) ≠ none := by
  rcases Result.bind_eq_ok.mp result with ⟨⟨found, middle⟩, finding, continued⟩
  rcases Result.bind_eq_ok.mp continued with ⟨sdom, -, continued⟩
  rcases Result.bind_eq_ok.mp continued with ⟨other, -, continued⟩
  rcases Result.bind_eq_ok.mp continued with ⟨sdoms, -, equal⟩
  cases equal
  have kept := find_keeps finding
  exact kept

theorem fillIdom_keeps {dominatee : Node}
    (result : fillIdom graph builder dominatee = .ok builder') :
    builder'.revIdMap = builder.revIdMap := by
  rcases Result.bind_eq_ok.mp result with ⟨⟨found, middle⟩, finding, continued⟩
  rcases Result.bind_eq_ok.mp continued with ⟨sdom, -, continued⟩
  rcases Result.bind_eq_ok.mp continued with ⟨other, -, continued⟩
  rcases Result.bind_eq_ok.mp continued with ⟨idoms, -, equal⟩
  cases equal
  exact (find_keeps finding).1

omit [DecidableEq Node] in
/-- What every round of a loop needs of the numbering, all rounds need. -/
theorem foldlM_keeps {round : DomTreeBuilder Node → Node → Result (DomTreeBuilder Node)}
    {nodes : List Node} (needs : FromIdMap DFSTime → Node → Prop)
    (rounds : ∀ builder builder' node, round builder node = .ok builder' →
      builder'.revIdMap = builder.revIdMap ∧ needs builder.revIdMap node)
    (result : nodes.foldlM round builder = .ok builder') :
    builder'.revIdMap = builder.revIdMap ∧ ∀ node ∈ nodes, needs builder.revIdMap node := by
  induction nodes generalizing builder with
  | nil =>
      cases result
      exact ⟨rfl, fun _ member => absurd member List.not_mem_nil⟩
  | cons node rest induction =>
      rcases Result.bind_eq_ok.mp result with ⟨next, first, others⟩
      have here := rounds _ _ _ first
      have later := induction others
      rw [here.1] at later
      refine ⟨later.1, fun other member => ?_⟩
      cases List.mem_cons.mp member with
      | inl same => exact same ▸ here.2
      | inr inRest => exact later.2 other inRest

theorem calcSdom_keeps {node : Node} (result : calcSdom graph builder node = .ok builder') :
    builder'.revIdMap = builder.revIdMap ∧
      ∀ pred ∈ graph.preds node, builder.revIdMap (graph.id pred) ≠ none := by
  rcases Result.bind_eq_ok.mp result with ⟨⟨sdom, middle⟩, lowering, continued⟩
  rcases Result.bind_eq_ok.mp continued with ⟨first, -, continued⟩
  rcases Result.bind_eq_ok.mp lowering with ⟨lowered, folding, read⟩
  rcases Result.bind_eq_ok.mp read with ⟨found, -, equal⟩
  cases equal
  have preds := foldlM_keeps (fun rev pred => rev (graph.id pred) ≠ none)
    (fun _ _ _ => lowerSdom_keeps) folding
  have filled : ∀ {builder builder' : DomTreeBuilder Node} {nodeId : NodeId},
      builder.fillIdoms graph nodeId = .ok builder' → builder'.revIdMap = builder.revIdMap :=
    fun filling => (foldlM_keeps (fun _ _ => True)
      (fun _ _ _ result => ⟨fillIdom_keeps result, trivial⟩) filling).1
  refine ⟨?_, preds.2⟩
  rw [← preds.1]
  split at continued
  case isTrue => exact filled continued
  case isFalse =>
    rcases Result.bind_eq_ok.mp continued with ⟨sdomNode, -, continued⟩
    rcases Result.bind_eq_ok.mp continued with ⟨after, filling, continued⟩
    rcases Result.bind_eq_ok.mp continued with ⟨parent, -, continued⟩
    rcases Result.bind_eq_ok.mp continued with ⟨dsu, -, equal⟩
    cases equal
    have kept := filled filling
    exact kept

omit [DecidableEq Node] in
/-- Only visited nodes are numbered. -/
theorem visitNodes_numbers {prev : Node} {nodes : List Node}
    (names : ∀ id, builder.revIdMap id ≠ none → ∃ node ∈ builder.dfsTimes, id = graph.id node)
    (result : builder.visitNodes graph prev nodes = .ok builder') :
    builder'.dfsTimes = builder.dfsTimes ++ nodes ∧
      ∀ id, builder'.revIdMap id ≠ none → ∃ node ∈ builder'.dfsTimes, id = graph.id node := by
  induction nodes generalizing builder prev with
  | nil =>
      cases result
      exact ⟨(List.append_nil _).symm, names⟩
  | cons node rest induction =>
      rcases Result.bind_eq_ok.mp result with ⟨next, visiting, others⟩
      rcases Result.bind_eq_ok.mp visiting with ⟨sdoms, -, continued⟩
      rcases Result.bind_eq_ok.mp continued with ⟨idoms, -, equal⟩
      cases equal
      have whole := induction (fun id stored => ?_) others
      · rwa [List.append_assoc, List.singleton_append] at whole
      · dsimp only [FromIdMap.insert] at stored
        by_cases isNew : id = graph.id node
        · exact ⟨node, List.mem_append_right _ (List.mem_singleton_self node), isNew⟩
        · rw [if_neg isNew] at stored
          rcases names id stored with ⟨other, member, isId⟩
          exact ⟨other, List.mem_append_left _ member, isId⟩

end DomTreeBuilder

variable [DecidableEq Node] {graph : Graph Node} {node : Node} {tree : DominatorTree Node}

/-! ## The pruned graph -/

theorem mem_pruned_nodes (closed : graph.Closed) :
    node ∈ graph.pruned.nodes ↔ graph.Reachable node := by
  rw [pruned, List.mem_filter, decide_eq_true_iff, mem_preOrder closed]
  exact and_iff_right_of_imp closed.mem_of_reachable

theorem pruned_closed (closed : graph.Closed) : graph.pruned.Closed where
  nodup := closed.nodup.filter _
  entry_mem := (mem_pruned_nodes closed).mpr .refl
  succs_mem _ member _ isSucc :=
    (mem_pruned_nodes closed).mpr (((mem_pruned_nodes closed).mp member).tail isSucc)

/-- The search does not see dead nodes. -/
theorem pruned_depthFirstSearch (closed : graph.Closed) :
    graph.pruned.depthFirstSearch = graph.depthFirstSearch := by
  have ended : (dfsRun graph.pruned).toVisit = [] := dfsRun_done (pruned_closed closed)
  have same : dfsRun graph.pruned = dfsRun graph :=
    iterate_of_done (dfsRun_done closed) (show (dfsStep graph)^[2 * graph.size] _ = _ from rfl) ended
  rw [depthFirstSearch, same, depthFirstSearch]

theorem pruned_preOrder (closed : graph.Closed) :
    graph.pruned.depthFirstSearchPreOrder = graph.depthFirstSearchPreOrder := by
  rw [depthFirstSearchPreOrder, depthFirstSearchPreOrder, pruned_depthFirstSearch closed]

/-- The part of a flow graph that the entry reaches. -/
def prunedCfg (graph : FlowGraph Node) : Cfg Node where
  toGraph := graph.pruned
  closed := pruned_closed graph.closed
  allReachable node member := (mem_pruned_nodes graph.closed).mp member
  preds_mem node member pred isPred := by
    have alive := (List.mem_filter.mp isPred).2
    rw [decide_eq_true_iff, mem_preOrder graph.closed] at alive
    exact (mem_pruned_nodes graph.closed).mpr alive
  mirrored source sourceMem target targetMem := by
    have alive := (mem_preOrder graph.closed).mpr ((mem_pruned_nodes graph.closed).mp sourceMem)
    have counted := graph.mirrored source (List.mem_filter.mp sourceMem).1 target
      (List.mem_filter.mp targetMem).1
    rw [show graph.pruned.succs = graph.succs from rfl, counted]
    exact (List.count_filter (by simpa using alive)).symm
  ids left leftMem right rightMem :=
    graph.ids left (List.mem_filter.mp leftMem).1 right (List.mem_filter.mp rightMem).1

/-! ## With and without dead nodes -/

theorem visitNodes_start {builder : DomTreeBuilder Node} {size : Nat}
    (numbering : DomTreeBuilder.doDFS graph
      { sdoms := List.replicate size 0, idoms := List.replicate size 0 } = .ok builder) :
    builder.dfsTimes = graph.depthFirstSearchPreOrder ∧
      ∀ id, builder.revIdMap id ≠ none → ∃ node ∈ builder.dfsTimes, id = graph.id node :=
  DomTreeBuilder.visitNodes_numbers (fun _ stored => absurd rfl stored) numbering

/-- Where the entry reaches all predecessors of what it reaches, dead nodes change nothing. -/
theorem buildDomTree_pruned (closed : graph.Closed)
    (preds : ∀ node ∈ graph.depthFirstSearchPreOrder, graph.pruned.preds node = graph.preds node)
    (built : buildDomTree graph.pruned = .ok tree) : buildDomTree graph = .ok tree := by
  rcases Result.bind_eq_ok.mp built with ⟨numbered, numbering, continued⟩
  rcases Result.bind_eq_ok.mp continued with ⟨builder, sdoms, idoms⟩
  have order : numbered.dfsTimes = graph.depthFirstSearchPreOrder := by
    rw [(visitNodes_start numbering).1, pruned_preOrder closed]
  let extra : List DFSTime := List.replicate (graph.size - graph.pruned.size) 0
  have lengths : graph.pruned.size ≤ graph.size := List.length_filter_le ..
  have longer : List.replicate graph.size 0 = List.replicate graph.pruned.size 0 ++ extra := by
    rw [List.replicate_append_replicate, Nat.add_sub_cancel' lengths]
  have visiting : DomTreeBuilder.visitNodes graph.pruned
      { sdoms := List.replicate graph.pruned.size 0, idoms := List.replicate graph.pruned.size 0 }
      graph.entryPoint graph.depthFirstSearchPreOrder = .ok numbered := by
    rw [← pruned_preOrder closed]
    exact numbering
  rw [← order] at preds
  have numbering' : DomTreeBuilder.doDFS graph
      { sdoms := List.replicate graph.size 0, idoms := List.replicate graph.size 0 } =
        .ok (numbered.pad extra) := by
    rw [longer]
    exact DomTreeBuilder.visitNodes_pad extra visiting
  rw [buildDomTree, numbering', Result.ok_bind, DomTreeBuilder.calcSdoms_pad extra preds sdoms,
    Result.ok_bind]
  exact DomTreeBuilder.calcIdoms_pad extra idoms

theorem pruned_preds (graph : Graph Node) (node : Node)
    (alive : ∀ pred ∈ graph.preds node, pred ∈ graph.depthFirstSearchPreOrder) :
    graph.pruned.preds node = graph.preds node := by
  apply List.filter_eq_self.mpr
  simpa using alive

/-- The builder returns only if every predecessor it meets was numbered. -/
theorem preds_of_buildDomTree (graph : FlowGraph Node)
    (built : buildDomTree graph.toGraph = .ok tree) (reachable : graph.Reachable node) :
    ∀ pred ∈ graph.preds node, graph.Reachable pred := by
  intro pred isPred
  have nodeMem := graph.closed.mem_of_reachable reachable
  rcases Result.bind_eq_ok.mp built with ⟨numbered, numbering, continued⟩
  rcases Result.bind_eq_ok.mp continued with ⟨builder, sdoms, -⟩
  rcases visitNodes_start numbering with ⟨order, names⟩
  have rounds := (DomTreeBuilder.foldlM_keeps
    (fun rev node => ∀ pred ∈ graph.preds node, rev (graph.id pred) ≠ none)
    (fun _ _ _ => DomTreeBuilder.calcSdom_keeps) sdoms).2
  have member : node ∈ numbered.dfsTimes.reverse := by
    rw [List.mem_reverse, order, mem_preOrder graph.closed]
    exact reachable
  rcases names _ (rounds node member pred isPred) with ⟨other, otherMem, sameId⟩
  rw [order, mem_preOrder graph.closed] at otherMem
  have same := graph.ids pred (graph.preds_mem node nodeMem pred isPred) other
    (graph.closed.mem_of_reachable otherMem) sameId
  rwa [same]

/-- The tree is built, with the answers of the graph without its dead nodes, exactly if no dead
node is a predecessor of a node that is alive. -/
theorem buildDomTree_dead_iff (graph : FlowGraph Node) :
    (∃ tree alive, buildDomTree graph.toGraph = .ok tree ∧
      buildDomTree graph.pruned = .ok alive ∧
      ∀ dom node, graph.Reachable dom → graph.Reachable node → ∃ answer,
        tree.isDominator dom node = .ok answer ∧ alive.isDominator dom node = .ok answer) ↔
    ∀ node, graph.Reachable node → ∀ pred ∈ graph.preds node, graph.Reachable pred := by
  constructor
  · rintro ⟨tree, -, built, -, -⟩ node reachable
    exact preds_of_buildDomTree graph built reachable
  · intro alive
    rcases buildDomTree_rooted (prunedCfg graph) with ⟨tree, built, -, orders⟩
    have preds : ∀ node ∈ graph.depthFirstSearchPreOrder,
        graph.pruned.preds node = graph.preds node := by
      intro node member
      apply pruned_preds graph.toGraph node
      intro pred isPred
      exact (mem_preOrder graph.closed).mpr
        (alive node ((mem_preOrder graph.closed).mp member) pred isPred)
    refine ⟨tree, tree, buildDomTree_pruned graph.closed preds built, built, ?_⟩
    intro dom node domReached nodeReached
    rcases orders.returns dom ((mem_pruned_nodes graph.closed).mpr domReached) node
      ((mem_pruned_nodes graph.closed).mpr nodeReached) with ⟨answer, returned⟩
    exact ⟨answer, returned, returned⟩

end LeechJit.Graph
