import LeechJit.Analysis.LoopCollect

/-! # The loops of the constructor

The root loop takes what is in no other loop; it leaves the bodies of the others
as they are.
-/

namespace LeechJit.Analysis

open LeechJit.Graph

variable {Node : Type} [DecidableEq Node]

/-- What the loops are once the constructor returns. -/
structure Forest (graph : Graph Node) (heads : List Node) (nest : Nest Node)
    (loops : LoopAnalyzer Node) : Prop where
  length : heads.length ≤ loops.loops.length
  loop : ∀ header ∈ heads, ∃ info, loops.loop (heads.idxOf header) = .ok info ∧
    info.header = some header ∧ info.reducible = graph.reducible header ∧
      info.body = (infoOf graph heads nest header).body
  owned : ∀ node loop, nest.owner node = some loop →
    loops.findLoop node = some (heads.idxOf loop)
  free : ∀ node ∈ graph.nodes, nest.owner node = none →
    ∃ id info, loops.findLoop node = some id ∧ loops.loop id = .ok info ∧ info.reducible = false

/-! ## Adding to the root loop -/

/-- The root loop with some nodes and some loops in it. -/
def rootInfo (nodes : List Node) (inners : List LoopId) : LoopInfo Node where
  header := none
  body := nodes.map .node ++ inners.map .loop
  inners := inners
  root := true

/-- A loop when the root loop `rootLoop` has taken those that are in no other. -/
def rooted (rootLoop : LoopId) (info : LoopInfo Node) : LoopInfo Node :=
  { info with outer := info.outer <|> some rootLoop }

/-- The loops that are in no other, counted from `first`. -/
def topLoops : LoopId → List (LoopInfo Node) → List LoopId
  | _, [] => []
  | first, info :: rest =>
      if info.outer = none then first :: topLoops (first + 1) rest
      else topLoops (first + 1) rest

section Root

variable {rootLoop : LoopId}

/-- The nodes that are in no loop get into the root loop, in order. -/
theorem addFreeNodes {front : List (LoopInfo Node)} {placed nodes : List Node}
    (analyzer : LoopAnalyzer Node) (nodup : nodes.Nodup)
    (loops : analyzer.loops = front ++ [rootInfo placed []]) :
    (nodes.foldl (LoopAnalyzer.addFreeNode front.length) analyzer).loops =
        front ++ [rootInfo (placed ++ nodes.filter fun node => analyzer.findLoop node = none) []] ∧
      ∀ other, (nodes.foldl (LoopAnalyzer.addFreeNode front.length) analyzer).findLoop other =
        if other ∈ nodes ∧ analyzer.findLoop other = none then some front.length
        else analyzer.findLoop other := by
  induction nodes generalizing analyzer placed with
  | nil => simp [loops]
  | cons node rest induction =>
      rw [List.nodup_cons] at nodup
      cases known : analyzer.findLoop node with
      | some id =>
          have step : LoopAnalyzer.addFreeNode front.length analyzer node = analyzer := by
            simp [LoopAnalyzer.addFreeNode, known]
          have later := induction analyzer nodup.2 loops
          rw [List.foldl_cons, step, later.1]
          refine ⟨by simp [known], ?_⟩
          intro other
          rw [later.2]
          by_cases same : other = node
          · subst same
            simp [known]
          · simp [same]
      | none =>
          generalize stepped : LoopAnalyzer.addFreeNode front.length analyzer node = next
          have found : ∀ other, next.findLoop other =
              if other = node then some front.length else analyzer.findLoop other := by
            intro other
            rw [← stepped]
            simp only [LoopAnalyzer.addFreeNode, known, LoopAnalyzer.findLoop_modifyLoop,
              LoopAnalyzer.findLoop_emplaceNode known]
          have nextLoops : next.loops = front ++ [rootInfo (placed ++ [node]) []] := by
            rw [← stepped]
            simp only [LoopAnalyzer.addFreeNode, known, LoopAnalyzer.modifyLoop,
              LoopAnalyzer.emplaceNode_loops, loops, modify_middle rfl]
            simp [rootInfo, LoopInfo.addNode]
          have later := induction next nodup.2 nextLoops
          have others : (rest.filter fun other => next.findLoop other = none) =
              rest.filter fun other => analyzer.findLoop other = none := by
            apply List.filter_congr
            intro other inRest
            have different : other ≠ node := by
              rintro rfl
              exact nodup.1 inRest
            rw [found, if_neg different]
          rw [List.foldl_cons, stepped, later.1, others]
          refine ⟨by simp [known], ?_⟩
          intro other
          rw [later.2, found]
          by_cases same : other = node
          · subst same
            simp [known]
          · simp [same]

omit [DecidableEq Node] in
theorem loop_middle {analyzer : LoopAnalyzer Node} (front back : List (LoopInfo Node))
    {info : LoopInfo Node} (loops : analyzer.loops = front ++ info :: back) :
    analyzer.loop front.length = .ok info := by
  simp [LoopAnalyzer.loop, loops]

omit [DecidableEq Node] in
/-- The loops that are in no other get into the root loop, in order. -/
theorem addFreeLoops {front back : List (LoopInfo Node)} {nodes : List Node}
    {inners : List LoopId} (analyzer : LoopAnalyzer Node)
    (isRoot : rootLoop = front.length + back.length)
    (loops : analyzer.loops = front.map (rooted rootLoop) ++ (back ++ [rootInfo nodes inners])) :
    ∃ after, (List.range' front.length (back.length + 1)).foldlM
        (LoopAnalyzer.addFreeLoop rootLoop) analyzer = .ok after ∧
      after.nodesToLoop = analyzer.nodesToLoop ∧
      after.loops = (front ++ back).map (rooted rootLoop) ++
        [rootInfo nodes (inners ++ topLoops front.length back)] := by
  induction back generalizing front inners analyzer with
  | nil =>
      have here := loop_middle (front.map (rooted rootLoop)) [] loops
      rw [List.length_map] at here
      refine ⟨analyzer, ?_, rfl, by simpa [topLoops] using loops⟩
      simp [LoopAnalyzer.addFreeLoop, here, isRoot]
  | cons info rest induction =>
      have here := loop_middle (front.map (rooted rootLoop)) _ loops
      rw [List.length_map] at here
      have shift : front.length + (info :: rest).length =
          (front ++ [info]).length + rest.length := by
        simp only [List.length_append, List.length_cons, List.length_nil]
        omega
      have isRoot' := isRoot.trans shift
      have notRoot : front.length ≠ rootLoop := by
        rw [isRoot]
        simp
      rw [List.length_cons, List.range'_succ]
      simp only [List.foldlM_cons, LoopAnalyzer.addFreeLoop, here, Result.ok_bind]
      by_cases free : info.outer = none
      · have atRoot : rootLoop = (front.map (rooted rootLoop) ++ info :: rest).length := by
          simp [isRoot]
        have loops' : (analyzer.addInnerLoop rootLoop front.length).loops =
            (front ++ [info]).map (rooted rootLoop) ++
              (rest ++ [rootInfo nodes (inners ++ [front.length])]) := by
          have grouped : analyzer.loops = (front.map (rooted rootLoop) ++ info :: rest) ++
              rootInfo nodes inners :: [] := by simp [loops]
          have length : front.length = (front.map (rooted rootLoop)).length := by simp
          simp only [LoopAnalyzer.addInnerLoop, LoopAnalyzer.modifyLoop, grouped]
          rw [modify_middle atRoot, List.append_assoc, List.cons_append, modify_middle length]
          simp [rooted, free, rootInfo]
        rcases induction _ isRoot' loops' with ⟨after, result, same, final⟩
        refine ⟨after, ?_, same, ?_⟩
        · rw [if_pos ⟨notRoot, free⟩]
          simpa using result
        · simpa [topLoops, free] using final
      · have same : rooted rootLoop info = info := by
          cases around : info.outer with
          | none => exact absurd around free
          | some outer =>
              rcases info
              cases around
              rfl
        have loops' : analyzer.loops = (front ++ [info]).map (rooted rootLoop) ++
            (rest ++ [rootInfo nodes inners]) := by
          simpa [same] using loops
        rcases induction _ isRoot' loops' with ⟨after, result, kept, final⟩
        refine ⟨after, ?_, kept, ?_⟩
        · rw [if_neg fun both => free both.2]
          simpa using result
        · simpa [topLoops, free] using final

end Root

/-! ## The constructor -/

/-- The analyzer the constructor returns; `root` is the root loop. -/
structure Finished (graph : Graph Node) (heads : List Node) (nest : Nest Node)
    (loops : LoopAnalyzer Node) (root : Option LoopId) : Prop where
  nodup : heads.Nodup
  headers : ∀ node, node ∈ heads ↔ graph.IsHeader node
  length : heads.length ≤ loops.loops.length
  loop : ∀ header ∈ heads, loops.loop (heads.idxOf header) =
    .ok { infoOf graph heads nest header with
      outer := (nest.outer header).map heads.idxOf <|> root }
  /-- The root loop has what is in no other. -/
  rootLoop : ∀ id, root = some id → id = heads.length ∧ ∃ nodes,
    (∀ node, node ∈ nodes ↔ node ∈ graph.nodes ∧ nest.owner node = none) ∧
      loops.loop id = .ok (rootInfo nodes (topLoops 0 (heads.map (infoOf graph heads nest))))
  all : ∀ id info, loops.loop id = .ok info →
    (∃ header ∈ heads, id = heads.idxOf header) ∨ root = some id
  found : ∀ node ∈ graph.nodes, loops.findLoop node = ((nest.owner node).map heads.idxOf <|> root)
  /-- There is a root loop when something is in no other. -/
  needed : root = none ↔ ∀ node ∈ graph.nodes, nest.owner node ≠ none

variable {cfg : Cfg Node} {heads done : List Node} {analyzer : LoopAnalyzer Node}
  {nest : Nest Node}

theorem Represents.known_iff {graph : Graph Node} {heads : List Node}
    {analyzer : LoopAnalyzer Node} {nest : Nest Node}
    (represents : Represents graph heads analyzer nest) {node : Node} :
    node ∈ analyzer.nodesToLoop.map Prod.fst ↔ nest.owner node ≠ none := by
  rw [LoopAnalyzer.mem_keys_iff, represents.found]
  simp

/-- The constructor counts whether all nodes are in loops. -/
theorem Represents.length_iff (represents : Represents cfg.toGraph heads analyzer nest)
    (plain : Nest.Plain cfg.toGraph done nest) :
    cfg.size = analyzer.nodesToLoop.length ↔ ∀ node ∈ cfg.nodes, nest.owner node ≠ none := by
  have inside : analyzer.nodesToLoop.map Prod.fst ⊆ cfg.nodes := by
    intro node known
    rcases Option.ne_none_iff_exists'.mp (represents.known_iff.mp known) with ⟨loop, owned⟩
    exact (plain.owner node loop owned).2.1
  constructor
  · intro full node member
    have all := (represents.keys.subperm inside).perm_of_length_le (by
      rw [List.length_map, ← full, Graph.size])
    exact represents.known_iff.mp (all.mem_iff.mpr member)
  · intro all
    have covered : cfg.nodes ⊆ analyzer.nodesToLoop.map Prod.fst := fun node member =>
      represents.known_iff.mpr (all node member)
    have one := (represents.keys.subperm inside).length_le
    have two := (cfg.closed.nodup.subperm covered).length_le
    rw [List.length_map] at one two
    exact Nat.le_antisymm two one

/-- When all nodes are in loops there is no root loop. -/
theorem Represents.finished_full {graph : Graph Node}
    (represents : Represents graph heads analyzer nest) (headsNodup : heads.Nodup)
    (headers : ∀ node, node ∈ heads ↔ graph.IsHeader node)
    (all : ∀ node ∈ graph.nodes, nest.owner node ≠ none) :
    Finished graph heads nest analyzer none where
  nodup := headsNodup
  headers := headers
  length := by rw [represents.loops, List.length_map]
  loop header member := by
    rw [represents.loop member]
    simp [infoOf]
  rootLoop := by simp
  all id info stored := by
    left
    have inside : id < heads.length := by
      by_contra outside
      simp [LoopAnalyzer.loop, represents.loops, List.getElem?_eq_none (Nat.le_of_not_lt outside)]
        at stored
    exact ⟨heads[id], List.getElem_mem inside, (headsNodup.idxOf_getElem id inside).symm⟩
  found node _ := by
    rw [represents.found]
    simp
  needed := iff_of_true rfl all

/-- The root loop takes the rest. -/
theorem Represents.finished_rooted (represents : Represents cfg.toGraph heads analyzer nest)
    (headsNodup : heads.Nodup) (headers : ∀ node, node ∈ heads ↔ cfg.IsHeader node)
    {allNodes : List Node} (nodup : allNodes.Nodup)
    (mem_allNodes : ∀ node, node ∈ allNodes ↔ node ∈ cfg.nodes ∧ ¬ cfg.IsHeader node)
    (plain : Nest.Plain cfg.toGraph done nest)
    (notAll : ¬ ∀ node ∈ cfg.nodes, nest.owner node ≠ none) :
    ∃ loops, Finished cfg.toGraph heads nest loops (some heads.length) ∧
      (List.range (allNodes.foldl (LoopAnalyzer.addFreeNode analyzer.loops.length)
        ⟨analyzer.nodesToLoop, analyzer.loops ++ [{ header := none, root := true }]⟩).loops.length
      ).foldlM (LoopAnalyzer.addFreeLoop analyzer.loops.length)
        (allNodes.foldl (LoopAnalyzer.addFreeNode analyzer.loops.length)
          ⟨analyzer.nodesToLoop, analyzer.loops ++ [{ header := none, root := true }]⟩) =
        .ok loops := by
  have length : analyzer.loops.length = heads.length := by
    rw [represents.loops, List.length_map]
  have unknown : ∀ (stored : List (LoopInfo Node)) (node : Node), LoopAnalyzer.findLoop
      (⟨analyzer.nodesToLoop, stored⟩ : LoopAnalyzer Node) node = none ↔
        nest.owner node = none := by
    intro stored node
    have found := represents.found node
    rw [LoopAnalyzer.findLoop] at found
    rw [LoopAnalyzer.findLoop, found, Option.map_eq_none_iff]
  have nodes := @addFreeNodes Node _ analyzer.loops [] allNodes
    ⟨analyzer.nodesToLoop, analyzer.loops ++ [{ header := none, root := true }]⟩ nodup rfl
  revert nodes
  generalize allNodes.foldl (LoopAnalyzer.addFreeNode analyzer.loops.length)
    ⟨analyzer.nodesToLoop, analyzer.loops ++ [{ header := none, root := true }]⟩ = filled
  rintro ⟨loops, found⟩
  rw [List.nil_append] at loops
  rcases @addFreeLoops Node _ [] analyzer.loops _ _ filled
    (by rw [List.length_nil, Nat.zero_add]) loops with ⟨after, result, same, final⟩
  rw [length, List.nil_append, List.nil_append, List.length_nil, represents.loops] at final
  refine ⟨after, ?_, ?_⟩
  · constructor
    case nodup => exact headsNodup
    case headers => exact headers
    case length =>
      rw [final]
      simp
    case loop =>
      intro header member
      have inside := List.idxOf_lt_length_of_mem member
      rw [LoopAnalyzer.loop, final, List.getElem?_append_left (by simpa using inside),
        List.getElem?_map, List.getElem?_map, List.getElem?_eq_getElem inside,
        List.getElem_idxOf inside]
      rfl
    case rootLoop =>
      intro id isRoot
      cases isRoot
      refine ⟨rfl, _, ?_, by rw [LoopAnalyzer.loop, final]; simp; rfl⟩
      intro node
      rw [List.mem_filter, decide_eq_true_iff, unknown, mem_allNodes]
      constructor
      · exact fun both => ⟨both.1.1, both.2⟩
      · rintro ⟨member, free⟩
        refine ⟨⟨member, fun isHeader => ?_⟩, free⟩
        rw [plain.own node isHeader] at free
        cases free
    case all =>
      intro id info stored
      rcases Nat.lt_trichotomy id heads.length with inside | isRoot | outside
      · exact .inl ⟨heads[id], List.getElem_mem inside,
          (headsNodup.idxOf_getElem id inside).symm⟩
      · exact .inr (congrArg some isRoot.symm)
      · have beyond : after.loops.length ≤ id := by
          rw [final]
          simp only [List.length_append, List.length_map, List.length_singleton]
          exact outside
        simp [LoopAnalyzer.loop, List.getElem?_eq_none beyond] at stored
    case found =>
      intro node member
      have isFound := found node
      rw [LoopAnalyzer.findLoop] at isFound
      rw [LoopAnalyzer.findLoop, same, isFound]
      cases owned : nest.owner node with
      | none =>
          have plainNode : ¬ cfg.IsHeader node := by
            intro isHeader
            rw [plain.own node isHeader] at owned
            cases owned
          rw [if_pos ⟨(mem_allNodes node).mpr ⟨member, plainNode⟩, (unknown _ node).mpr owned⟩, length]
          rfl
      | some loop =>
          have known := represents.found node
          rw [owned] at known
          rw [if_neg (by simp [unknown, owned])]
          simpa [LoopAnalyzer.findLoop] using known
    case needed => exact iff_of_false (by simp) notAll
  · rw [loops, List.length_append, List.length_singleton, List.range_eq_range']
    exact result

/-- The constructor returns, and what each loop that is populated keeps holds at the end. -/
theorem make_keeps (cfg : Cfg Node) (holds : List Node → Nest Node → Prop)
    (keeps : Keeps cfg holds) (start : holds [] (Nest.start cfg.toGraph)) :
    ∃ loops root heads nest done, LoopAnalyzer.make cfg.toGraph = .ok loops ∧
      Finished cfg.toGraph heads nest loops root ∧
        (∀ node, node ∈ done ↔ cfg.IsHeader node) ∧ Nest.Plain cfg.toGraph done nest ∧
          holds done nest := by
  rcases collectBackEdges_collected cfg with ⟨edges, heads, collectedEdges, collected⟩
  have tour : [] ++ edges.postOrder =
      cfg.depthFirstSearchPostOrder.filter fun node => decide (cfg.IsHeader node) :=
    collected.postOrder
  rcases populateHeaders_keeps holds collected.nodup collected.headers keeps tour
    collected.represents (.start cfg.closed) start with
    ⟨analyzer, nest, populated, represents, plain, final⟩
  have isDone : ∀ node, node ∈ [] ++ edges.postOrder ↔ cfg.IsHeader node := by
    intro node
    rw [tour, List.mem_filter, decide_eq_true_iff, mem_postOrder cfg.closed]
    exact and_iff_right_of_imp isHeader_reachable
  have sizes : edges.allNodes.length + edges.postOrder.length = cfg.size := by
    have order := (reversePostOrder_perm cfg.closed cfg.allReachable).length_eq
    rw [depthFirstSearchReversePostOrder, List.length_reverse] at order
    have parts := (List.filter_append_perm (fun node => decide (cfg.IsHeader node))
      cfg.depthFirstSearchPostOrder).length_eq
    rw [List.length_append] at parts
    rw [collected.allNodes, collected.postOrder, Graph.size]
    simp only [decide_not]
    omega
  have counted := represents.length_iff plain
  rw [← sizes] at counted
  simp only [LoopAnalyzer.make, collectedEdges, Result.ok_bind, populated]
  by_cases full : edges.allNodes.length + edges.postOrder.length = analyzer.nodesToLoop.length
  · rw [if_pos full]
    exact ⟨analyzer, none, heads, nest, _, rfl,
      represents.finished_full collected.nodup collected.headers (counted.mp full), isDone, plain,
      final⟩
  · rw [if_neg full]
    have mem_allNodes : ∀ node, node ∈ edges.allNodes ↔
        node ∈ cfg.nodes ∧ ¬ cfg.IsHeader node := by
      intro node
      rw [collected.allNodes, List.mem_filter, decide_eq_true_iff, mem_postOrder cfg.closed]
      exact and_congr_left fun _ => ⟨cfg.closed.mem_of_reachable, cfg.allReachable node⟩
    have nodup : edges.allNodes.Nodup := by
      rw [collected.allNodes]
      exact postOrder_nodup.filter _
    rcases represents.finished_rooted collected.nodup collected.headers nodup mem_allNodes plain
      (mt counted.mpr full) with ⟨loops, finished, result⟩
    exact ⟨loops, some heads.length, heads, nest, _, result, finished, isDone, plain, final⟩

/-! ## The loops that are apart -/

theorem Finished.forest {graph : Graph Node} {loops : LoopAnalyzer Node} {root : Option LoopId}
    (finished : Finished graph heads nest loops root) (plain : Nest.Plain graph done nest) :
    Forest graph heads nest loops where
  length := finished.length
  loop header member := ⟨_, finished.loop header member, rfl, rfl, rfl⟩
  owned node loop owned := by
    rw [finished.found node (plain.owner node loop owned).2.1, owned, Option.map_some]
    rfl
  free node member free := by
    cases isRoot : root with
    | none => exact absurd free (finished.needed.mp isRoot node member)
    | some id =>
        rcases finished.rootLoop id isRoot with ⟨-, nodes, -, stored⟩
        refine ⟨id, _, ?_, stored, rfl⟩
        rw [finished.found node member, free, Option.map_none, isRoot]
        rfl

theorem keeps_sound (apart : cfg.LoopsApart) :
    Keeps cfg fun front nest =>
      Nest.Sound cfg.toGraph front.reverse nest ∧ Bodies cfg nest front.reverse := by
  intro front header found nest isHeader earlier all searched _ kept
  have step := populate_sound apart kept.1 kept.2 isHeader searched
    (fun loop inDone => earlier loop (List.mem_reverse.mp inDone))
    (fun loop loopHeader less => List.mem_reverse.mpr (all loop loopHeader less))
  simpa using step

/-- The constructor returns a sound nest of loops. -/
theorem make_forest (cfg : Cfg Node) (apart : cfg.LoopsApart) :
    ∃ loops heads nest done, LoopAnalyzer.make cfg.toGraph = .ok loops ∧ heads.Nodup ∧
      (∀ node, node ∈ heads ↔ cfg.IsHeader node) ∧ Forest cfg.toGraph heads nest loops ∧
        Nest.Sound cfg.toGraph done nest ∧ Bodies cfg nest done ∧
          ∀ node, cfg.IsHeader node → node ∈ done := by
  rcases make_keeps cfg _ (keeps_sound apart)
      ⟨Nest.Sound.start cfg.toGraph, by simp [Bodies]⟩ with
    ⟨loops, root, heads, nest, done, made, finished, isDone, plain, sound, bodies⟩
  exact ⟨loops, heads, nest, _, made, finished.nodup, finished.headers, finished.forest plain, sound, bodies,
    fun node isHeader => List.mem_reverse.mpr ((isDone node).mpr isHeader)⟩

end LeechJit.Analysis
