import LeechJit.Analysis.LoopExtent

/-! # The loops of a graph whose back edges are dominated -/

namespace LeechJit.Analysis

open LeechJit.Graph
open Nesting (Item)

variable {Node : Type} [DecidableEq Node]

namespace LoopAnalyzer

omit [DecidableEq Node] in
/-- The blocks of a loop: its header, the nodes of its body, and those of the loops in it. -/
inductive HasBlock (loops : LoopAnalyzer Node) : LoopId → Node → Prop where
  | header {id : LoopId} {info : LoopInfo Node} {node : Node} (found : loops.loop id = .ok info)
      (isHeader : info.header = some node) : HasBlock loops id node
  | body {id : LoopId} {info : LoopInfo Node} {node : Node} (found : loops.loop id = .ok info)
      (inBody : .node node ∈ info.body) : HasBlock loops id node
  | inner {id innerId : LoopId} {info : LoopInfo Node} {node : Node}
      (found : loops.loop id = .ok info) (isInner : innerId ∈ info.inners)
      (inside : HasBlock loops innerId node) : HasBlock loops id node

/-- The loop of `inner` is directly in that of `outer`, which is the root loop when it is
in no other. -/
def DirectlyIn (graph : Graph Node) (inner outer : LoopInfo Node) : Prop :=
  ∃ header, inner.header = some header ∧
    ((∃ around, outer.header = some around ∧ graph.Around header around) ∨
      outer.root = true ∧ ∀ other, graph.IsHeader other → ¬ graph.InLoop other header)

/-- The loops are the natural loops of the graph. -/
structure AreNatural (graph : Graph Node) (loops : LoopAnalyzer Node) : Prop where
  each : ∀ header, graph.IsHeader header →
    ∃ id info, loops.loop id = .ok info ∧ info.header = some header
  blocks : ∀ id info header, loops.loop id = .ok info → info.header = some header →
    graph.IsHeader header ∧ ∀ node ∈ graph.nodes,
      (loops.HasBlock id node ↔ graph.Contains header node)
  innermost : ∀ node ∈ graph.nodes, ∃ info, loops.getLoopInfo node = .ok info ∧
    ((∃ header, info.header = some header ∧ graph.Innermost header node) ∨
      info.root = true ∧ ∀ header, graph.IsHeader header → ¬ graph.Contains header node)
  outer : ∀ innerId inner, loops.loop innerId = .ok inner → ∀ outerId,
    (inner.outer = some outerId ↔
      ∃ outer, loops.loop outerId = .ok outer ∧ DirectlyIn graph inner outer)
  inners : ∀ outerId outer, loops.loop outerId = .ok outer → ∀ innerId,
    (innerId ∈ outer.inners ↔
      ∃ inner, loops.loop innerId = .ok inner ∧ DirectlyIn graph inner outer)

end LoopAnalyzer

namespace Settled

variable {cfg : Cfg Node} {heads done : List Node} {nest : Nest Node}
  {loops : LoopAnalyzer Node} {root : Option LoopId}

variable (settled : Settled cfg heads done nest loops root)

include settled

/-! ## The loops one by one -/

theorem mem_heads {header : Node} : header ∈ heads ↔ cfg.IsHeader header :=
  settled.finished.headers header

theorem idxOf_inj {left right : Node} (isHeader : cfg.IsHeader left) :
    heads.idxOf left = heads.idxOf right ↔ left = right :=
  List.idxOf_inj (settled.mem_heads.mpr isHeader)

/-- The loop of a header. -/
theorem loop_header {header : Node} (isHeader : cfg.IsHeader header) :
    ∃ info, loops.loop (heads.idxOf header) = .ok info ∧ info.header = some header ∧
      info.root = false ∧ info.outer = ((nest.outer header).map heads.idxOf <|> root) :=
  ⟨_, settled.finished.loop header (settled.mem_heads.mpr isHeader), rfl, rfl, rfl⟩

theorem loop_of_header {id : LoopId} {info : LoopInfo Node} {header : Node}
    (found : loops.loop id = .ok info) (ofHeader : info.header = some header) :
    cfg.IsHeader header ∧ id = heads.idxOf header := by
  rcases settled.finished.all id info found with ⟨other, member, rfl⟩ | isRoot
  · cases (settled.finished.loop other member).symm.trans found
    cases ofHeader
    exact ⟨settled.mem_heads.mp member, rfl⟩
  · rcases settled.finished.rootLoop id isRoot with ⟨-, nodes, -, stored⟩
    cases stored.symm.trans found
    cases ofHeader

theorem loop_root {id : LoopId} (isRoot : root = some id) :
    ∃ info, loops.loop id = .ok info ∧ info.root = true ∧ info.header = none := by
  rcases settled.finished.rootLoop id isRoot with ⟨-, nodes, -, stored⟩
  exact ⟨_, stored, rfl, rfl⟩

theorem root_of_loop {id : LoopId} {info : LoopInfo Node} (found : loops.loop id = .ok info)
    (isRoot : info.root = true) : root = some id := by
  rcases settled.finished.all id info found with ⟨header, member, rfl⟩ | rootId
  · cases (settled.finished.loop header member).symm.trans found
    cases isRoot
  · exact rootId

/-! ## The blocks of a loop -/

theorem inners_iff {header : Node} (isHeader : cfg.IsHeader header) {info : LoopInfo Node}
    (found : loops.loop (heads.idxOf header) = .ok info) (innerId : LoopId) :
    innerId ∈ info.inners ↔ ∃ inner, cfg.Surrounds header inner ∧ innerId = heads.idxOf inner := by
  have member := settled.mem_heads.mpr isHeader
  rw [settled.finished.mem_inners settled.plain found]
  constructor
  · intro around
    rcases settled.finished.outer_header around with ⟨inner, innerMem, rfl⟩
    rw [settled.finished.outer_nest settled.plain innerMem member, settled.outer_iff] at around
    exact ⟨inner, around, rfl⟩
  · rintro ⟨inner, surrounds, rfl⟩
    have innerMem := settled.mem_heads.mpr surrounds.1.isInner
    rw [settled.finished.outer_nest settled.plain innerMem member, settled.outer_iff]
    exact surrounds

theorem body_iff {header node : Node} (isHeader : cfg.IsHeader header) {info : LoopInfo Node}
    (found : loops.loop (heads.idxOf header) = .ok info) :
    .node node ∈ info.body ↔ node ∈ cfg.backEdgesSrc header ∨
      cfg.Owns header node ∧ node ≠ header := by
  cases (settled.finished.loop header (settled.mem_heads.mpr isHeader)).symm.trans found
  have entries : NodeOrLoop.node node ∈ (nest.items header).map (entryOf heads) ↔
      .leaf node ∈ nest.items header := by
    rw [List.mem_map]
    constructor
    · rintro ⟨item, held, isEntry⟩
      cases item with
      | leaf node =>
          cases isEntry
          exact held
      | group inner => cases isEntry
    · exact fun held => ⟨_, held, rfl⟩
  have sources : NodeOrLoop.node node ∈ (cfg.backEdgesSrc header).map .node ↔
      node ∈ cfg.backEdgesSrc header := by simp
  simp only [infoOf, List.mem_append, sources, entries, settled.leaf_iff]
  tauto

theorem hasBlock_iff {header node : Node} (isHeader : cfg.IsHeader header) :
    loops.HasBlock (heads.idxOf header) node ↔ cfg.Gathers header node := by
  constructor
  · intro has
    generalize isId : heads.idxOf header = id at has
    induction has generalizing header with
    | header found ofHeader =>
        have same := (settled.loop_of_header found ofHeader).2
        cases (settled.idxOf_inj isHeader).mp (isId.trans same)
        exact .owned ⟨isHeader, .inl rfl⟩
    | body found inBody =>
        subst isId
        rcases (settled.body_iff isHeader found).mp inBody with isSrc | ⟨owns, -⟩
        · exact .src isSrc
        · exact .owned owns
    | inner found isInner _ induction =>
        subst isId
        rcases (settled.inners_iff isHeader found _).mp isInner with ⟨inner, surrounds, same⟩
        exact .inner surrounds (induction surrounds.1.isInner same.symm)
  · intro gathers
    induction gathers with
    | @src header node isSrc =>
        rcases settled.loop_header isHeader with ⟨info, found, -⟩
        exact .body found ((settled.body_iff isHeader found).mpr (.inl isSrc))
    | @owned header node owns =>
        rcases settled.loop_header isHeader with ⟨info, found, ofHeader, -⟩
        by_cases same : node = header
        · exact .header found (same ▸ ofHeader)
        · exact .body found ((settled.body_iff isHeader found).mpr (.inr ⟨owns, same⟩))
    | @inner header inner node surrounds _ induction =>
        rcases settled.loop_header isHeader with ⟨info, found, -⟩
        have isInner := (settled.inners_iff isHeader found _).mpr ⟨inner, surrounds, rfl⟩
        exact .inner found isInner (induction surrounds.1.isInner)

/-! ## From the graph to the loops -/

section Right

variable (dominated : cfg.BackEdgesDominated) (right : cfg.LoopsRight)

include dominated right

theorem innermost_of_right {node : Node} (inside : node ∈ cfg.nodes) :
    ∃ info, loops.getLoopInfo node = .ok info ∧
      ((∃ header, info.header = some header ∧ cfg.Innermost header node) ∨
        info.root = true ∧ ∀ header, cfg.IsHeader header → ¬ cfg.Contains header node) := by
  have isFound := settled.finished.found node inside
  cases owned : nest.owner node with
  | some header =>
      have owns := (settled.owner_iff node header).mp owned
      rcases settled.loop_header owns.1 with ⟨info, found, ofHeader, -⟩
      rw [owned] at isFound
      have read : loops.getLoopInfo node = .ok info := by
        rw [LoopAnalyzer.getLoopInfo, isFound]
        exact found
      exact ⟨info, read, .inl ⟨header, ofHeader, (right.owns_iff node inside header).mp owns⟩⟩
  | none =>
      rw [owned] at isFound
      cases isRoot : root with
      | none => exact absurd owned (settled.finished.needed.mp isRoot node inside)
      | some id =>
          rcases settled.loop_root isRoot with ⟨info, found, rootInfo, -⟩
          have read : loops.getLoopInfo node = .ok info := by
            rw [LoopAnalyzer.getLoopInfo, isFound, isRoot]
            exact found
          refine ⟨info, read, .inr ⟨rootInfo, fun header isHeader contains => ?_⟩⟩
          have reachable := cfg.allReachable node inside
          rcases dominated.exists_innermost cfg.closed reachable isHeader contains with
            ⟨first, innermost⟩
          have owns := (right.owns_iff node inside first).mpr innermost
          rw [(settled.owner_iff node first).mpr owns] at owned
          cases owned

theorem outer_of_right {innerId outerId : LoopId} {inner : LoopInfo Node}
    (found : loops.loop innerId = .ok inner) :
    inner.outer = some outerId ↔
      ∃ outer, loops.loop outerId = .ok outer ∧ LoopAnalyzer.DirectlyIn cfg.toGraph inner outer := by
  rcases settled.finished.all innerId inner found with ⟨header, member, rfl⟩ | isRoot
  · have isHeader := settled.mem_heads.mp member
    rcases settled.loop_header isHeader with ⟨again, foundAgain, ofHeader, -, isOuter⟩
    cases found.symm.trans foundAgain
    have around_iff : ∀ loop, nest.outer header = some loop ↔ cfg.Around header loop := fun loop =>
      (settled.outer_iff header loop).trans (right.surrounds_iff header isHeader loop)
    rw [isOuter]
    constructor
    · intro same
      cases around : nest.outer header with
      | some loop =>
          rw [around] at same
          have isAround := (around_iff loop).mp around
          rcases settled.loop_header isAround.1 with ⟨outer, foundOuter, ofOuter, -⟩
          refine ⟨outer, Option.some.inj same ▸ foundOuter, header, ofHeader, ?_⟩
          exact .inl ⟨loop, ofOuter, isAround⟩
      | none =>
          rw [around] at same
          rcases settled.loop_root same with ⟨outer, foundOuter, isRoot, -⟩
          refine ⟨outer, foundOuter, header, ofHeader, .inr ⟨isRoot, fun other otherHeader inLoop => ?_⟩⟩
          have reachable := isHeader_reachable isHeader
          rcases dominated.exists_around cfg.closed reachable otherHeader inLoop with
            ⟨first, isAround⟩
          rw [(around_iff first).mpr isAround] at around
          cases around
    · rintro ⟨outer, foundOuter, other, isOther, direct⟩
      cases ofHeader.symm.trans isOther
      rcases direct with ⟨loop, ofOuter, isAround⟩ | ⟨isRoot, never⟩
      · rw [(around_iff loop).mpr isAround, (settled.loop_of_header foundOuter ofOuter).2]
        rfl
      · cases around : nest.outer header with
        | some loop =>
            have isAround := (around_iff loop).mp around
            exact absurd isAround.2.1 (never loop isAround.1)
        | none => exact settled.root_of_loop foundOuter isRoot
  · rcases settled.finished.rootLoop innerId isRoot with ⟨-, nodes, -, stored⟩
    cases stored.symm.trans found
    constructor
    · intro isOuter
      cases isOuter
    · rintro ⟨outer, -, header, ofHeader, -⟩
      cases ofHeader

theorem natural_of_right : loops.AreNatural cfg.toGraph where
  each header isHeader := by
    rcases settled.loop_header isHeader with ⟨info, found, ofHeader, -⟩
    exact ⟨_, info, found, ofHeader⟩
  blocks id info header found ofHeader := by
    rcases settled.loop_of_header found ofHeader with ⟨isHeader, rfl⟩
    refine ⟨isHeader, fun node inside => ?_⟩
    exact (settled.hasBlock_iff isHeader).trans (right.gathers_iff header isHeader node inside)
  innermost _ inside := settled.innermost_of_right dominated right inside
  outer _ _ found _ := settled.outer_of_right dominated right found
  inners outerId outer found innerId := by
    rw [settled.finished.mem_inners settled.plain found]
    constructor
    · rintro ⟨inner, foundInner, around⟩
      rcases (settled.outer_of_right dominated right foundInner).mp around with
        ⟨again, foundAgain, direct⟩
      cases found.symm.trans foundAgain
      exact ⟨inner, foundInner, direct⟩
    · rintro ⟨inner, foundInner, direct⟩
      exact ⟨inner, foundInner,
        (settled.outer_of_right dominated right foundInner).mpr ⟨outer, found, direct⟩⟩

end Right

/-! ## And back -/

section Natural

variable (dominated : cfg.BackEdgesDominated) (natural : loops.AreNatural cfg.toGraph)

include natural

/-- The loop a node is put in is the one `getLoopInfo` answers. -/
theorem owns_of_natural {header node : Node} (inside : node ∈ cfg.nodes)
    (owns : cfg.Owns header node) : cfg.Innermost header node := by
  have isFound := settled.finished.found node inside
  rw [(settled.owner_iff node header).mpr owns] at isFound
  rcases settled.loop_header owns.1 with ⟨info, found, ofHeader, notRoot, -⟩
  have read : loops.getLoopInfo node = .ok info := by
    rw [LoopAnalyzer.getLoopInfo, isFound]
    exact found
  rcases natural.innermost node inside with ⟨again, readAgain, answer⟩
  cases read.symm.trans readAgain
  rcases answer with ⟨other, ofOther, innermost⟩ | ⟨isRoot, -⟩
  · cases ofHeader.symm.trans ofOther
    exact innermost
  · rw [notRoot] at isRoot
    cases isRoot

include dominated in
theorem owns_of_innermost {header node : Node} (inside : node ∈ cfg.nodes)
    (innermost : cfg.Innermost header node) : cfg.Owns header node := by
  have reachable := cfg.allReachable node inside
  have least : ∀ loop, cfg.Innermost loop node ↔ _ := fun loop =>
    dominated.innermost_iff cfg.closed reachable
  have isFound := settled.finished.found node inside
  rcases natural.innermost node inside with ⟨info, read, ⟨other, ofOther, first⟩ | ⟨-, never⟩⟩
  · have one := ((least header).mp innermost).2.2 other first.1 first.2.1
    have two := ((least other).mp first).2.2 header innermost.1 innermost.2.1
    cases finishTime_inj cfg.closed (isHeader_reachable innermost.1) (Nat.le_antisymm one two)
    rw [LoopAnalyzer.getLoopInfo] at read
    cases owned : nest.owner node with
    | some loop =>
        have owns := (settled.owner_iff node loop).mp owned
        rw [isFound, owned] at read
        have same := (settled.loop_of_header read ofOther).2
        cases (settled.idxOf_inj owns.1).mp same
        exact owns
    | none =>
        rw [isFound, owned] at read
        cases isRoot : root with
        | none => exact absurd owned (settled.finished.needed.mp isRoot node inside)
        | some id =>
            rw [isRoot] at read
            rcases settled.loop_root isRoot with ⟨again, found, -, notHeader⟩
            cases found.symm.trans read
            rw [notHeader] at ofOther
            cases ofOther
  · exact absurd innermost.2.1 (never header innermost.1)

theorem surrounds_of_natural {inner outer : Node} (isInner : cfg.IsHeader inner) :
    cfg.Surrounds outer inner ↔ cfg.Around inner outer := by
  rcases settled.loop_header isInner with ⟨info, found, ofInner, -, isOuter⟩
  have outer_iff := natural.outer _ info found
  rw [isOuter] at outer_iff
  constructor
  · intro surrounds
    have isHeader := surrounds.1.isHeader
    have around := (settled.outer_iff inner outer).mpr surrounds
    rcases (outer_iff (heads.idxOf outer)).mp (by rw [around]; rfl) with
      ⟨outerInfo, foundOuter, other, isOther, direct⟩
    cases ofInner.symm.trans isOther
    rcases settled.loop_header isHeader with ⟨again, foundAgain, ofOuter, notRoot, -⟩
    cases foundOuter.symm.trans foundAgain
    rcases direct with ⟨loop, ofLoop, isAround⟩ | ⟨isRoot, -⟩
    · cases ofOuter.symm.trans ofLoop
      exact isAround
    · rw [notRoot] at isRoot
      cases isRoot
  · intro isAround
    rcases settled.loop_header isAround.1 with ⟨outerInfo, foundOuter, ofOuter, notRoot, -⟩
    have same := (outer_iff (heads.idxOf outer)).mpr
      ⟨outerInfo, foundOuter, inner, ofInner, .inl ⟨outer, ofOuter, isAround⟩⟩
    rw [← settled.outer_iff]
    cases around : nest.outer inner with
    | some loop =>
        rw [around] at same
        have isLoop := ((settled.outer_iff inner loop).mp around).1.isHeader
        rw [(settled.idxOf_inj isLoop).mp (Option.some.inj same)]
    | none =>
        rw [around] at same
        rcases settled.loop_root same with ⟨again, foundAgain, isRoot, -⟩
        cases foundOuter.symm.trans foundAgain
        rw [notRoot] at isRoot
        cases isRoot

include dominated in
theorem right_of_natural : cfg.LoopsRight where
  gathers_iff header isHeader node inside := by
    rcases settled.loop_header isHeader with ⟨info, found, ofHeader, -⟩
    rw [← settled.hasBlock_iff isHeader]
    exact (natural.blocks _ info header found ofHeader).2 node inside
  owns_iff _ inside _ := ⟨settled.owns_of_natural natural inside,
    settled.owns_of_innermost dominated natural inside⟩
  surrounds_iff _ isInner _ := settled.surrounds_of_natural natural isInner

end Natural

end Settled

/-! ## When the loops are natural -/

/-- Where the targets of back edges dominate the sources the constructor finds the natural
loops exactly when each loop can be filled. -/
theorem make_areNatural_iff {cfg : Cfg Node} (dominated : cfg.BackEdgesDominated) :
    ∃ loops, LoopAnalyzer.make cfg.toGraph = .ok loops ∧
      (loops.AreNatural cfg.toGraph ↔ cfg.LoopsFilled) := by
  rcases make_settled cfg with ⟨loops, root, heads, nest, done, made, settled⟩
  refine ⟨loops, made, ?_⟩
  rw [← loopsRight_iff dominated]
  exact ⟨settled.right_of_natural dominated, settled.natural_of_right dominated⟩

/-! ## A loop with an exit, and a loop of one block -/

theorem areNatural_exitLoop :
    ∃ loops, LoopAnalyzer.make exitLoop.toGraph = .ok loops ∧
      loops.AreNatural exitLoop.toGraph := by
  have ofHeader : ∀ header, exitLoop.IsHeader header → header = 1 := by
    intro header isHeader
    rcases isHeader_iff.mp isHeader with ⟨src, isSrc⟩
    exact (exitLoop_src isSrc).1
  have filled : exitLoop.LoopsFilled := by
    constructor
    case unflagged =>
      intro header isHeader irreducible
      cases ofHeader header isHeader
      exact absurd irreducible (by decide)
    case selfLoop =>
      intro header _ isLatch
      rcases exitLoop_src isLatch with ⟨isOne, isTwo⟩
      exact absurd (isOne.symm.trans isTwo) (by decide)
    case linked =>
      intro inner outer isInner around
      exact absurd ((ofHeader inner isInner).trans (ofHeader outer around.1).symm) around.2.1.ne
  have dominated : exitLoop.BackEdgesDominated := by
    intro header src isSrc
    rcases exitLoop_src isSrc with ⟨rfl, rfl⟩
    exact (dominates_iff exitLoop.closed).mpr (.inr (by decide))
  rcases make_areNatural_iff dominated with ⟨loops, made, natural⟩
  exact ⟨loops, made, natural.mpr filled⟩

def selfLoopGraph : Graph Nat where
  nodes := [0, 1]
  entryPoint := 0
  succs := fun _ => [1]
  preds := fun node => match node with
    | 1 => [0, 1]
    | _ => []
  id := fun node => node

def selfLoop : Cfg Nat where
  toGraph := selfLoopGraph
  closed := by decide
  allReachable := by
    have toLoop : selfLoopGraph.Edge 0 1 := by decide
    simpa [selfLoopGraph] using
      (⟨.refl, .single toLoop⟩ : selfLoopGraph.Reachable 0 ∧ selfLoopGraph.Reachable 1)
  preds_mem := by decide
  mirrored := by decide
  ids := by decide

/-- The search starts at the block itself, and takes in what is before the loop. -/
theorem not_areNatural_selfLoop :
    selfLoop.BackEdgesDominated ∧ ∃ loops, LoopAnalyzer.make selfLoop.toGraph = .ok loops ∧
      loops.HasBlock 0 0 ∧ ¬ selfLoop.Contains 1 0 ∧ ¬ loops.AreNatural selfLoop.toGraph := by
  have isSrc : ∀ header src, src ∈ selfLoop.backEdgesSrc header → header = 1 ∧ src = 1 := by
    intro header src member
    have events : selfLoop.depthFirstSearch = [.discoverNode 0, .discoverNode 1, .backEdge 1 1,
      .finishNode 1, .finishNode 0] := by decide
    have inEvents := mem_backEdgesSrc.mp member
    rw [events] at inEvents
    simpa [and_comm] using inEvents
  have outside : ¬ selfLoop.Contains 1 0 := by
    rintro (same | ⟨src, member, nodes, walk, missed⟩)
    · cases same
    · rcases isSrc 1 src member with ⟨-, rfl⟩
      exact missed walk.finish_mem
  refine ⟨?_, ?_⟩
  · intro header src member
    rcases isSrc header src member with ⟨rfl, rfl⟩
    exact Dominance.Dominates.refl 1
  · have made : ∃ loops, LoopAnalyzer.make selfLoop.toGraph = .ok loops ∧
        ∃ info, loops.loop 0 = .ok info ∧ info.header = some 1 ∧ .node 0 ∈ info.body := by
      exact ⟨_, rfl, _, rfl, rfl, by decide⟩
    rcases made with ⟨loops, made, info, found, ofHeader, inBody⟩
    have has : loops.HasBlock 0 0 := .body found inBody
    refine ⟨loops, made, has, outside, fun natural => outside ?_⟩
    exact ((natural.blocks 0 info 1 found ofHeader).2 0 (by decide)).mp has

end LeechJit.Analysis
