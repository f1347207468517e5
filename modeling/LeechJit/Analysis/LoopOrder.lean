import LeechJit.Analysis.LinearOrder
import LeechJit.Analysis.LoopForest

/-! # The linear order of nested loops

Where the loops are apart each of them is written out once, its blocks once each,
and every block lies in one part of the order.
-/

namespace LeechJit.Analysis

open LeechJit.Graph
open Dominance
open Nesting (Item Nested Inside expand)

variable {Node : Type} [DecidableEq Node]

/-! ## How deep loops nest -/

/-- How many headers finish before this one. -/
def nestRank (graph : Graph Node) (heads : List Node) (header : Node) : Nat :=
  heads.countP fun other => decide (graph.finishTime other < graph.finishTime header)

theorem countP_lt_countP {α : Type} {values : List α} {weak strong : α → Bool}
    (implies : ∀ value ∈ values, strong value = true → weak value = true) {witness : α}
    (member : witness ∈ values) (isWeak : weak witness = true)
    (notStrong : strong witness = false) : values.countP strong < values.countP weak := by
  have same : values.countP strong = (values.filter weak).countP strong := by
    rw [List.countP_filter]
    apply List.countP_congr
    intro value inside
    rw [Bool.and_eq_true]
    exact ⟨fun isStrong => ⟨isStrong, implies value inside isStrong⟩, And.left⟩
  rw [same, List.countP_eq_length_filter (p := weak)]
  apply List.countP_lt_length_iff.mpr
  exact ⟨witness, List.mem_filter.mpr ⟨member, isWeak⟩, notStrong⟩

theorem nestRank_lt {graph : Graph Node} {heads : List Node} {inner outer : Node}
    (member : inner ∈ heads) (earlier : graph.finishTime inner < graph.finishTime outer) :
    nestRank graph heads inner < nestRank graph heads outer := by
  apply countP_lt_countP _ member
  · exact decide_eq_true earlier
  · exact decide_eq_false (Nat.lt_irrefl _)
  · intro other _ below
    rw [decide_eq_true_iff] at below ⊢
    omega

theorem nestRank_lt_length {graph : Graph Node} {heads : List Node} {header : Node}
    (member : header ∈ heads) : nestRank graph heads header < heads.length :=
  List.countP_lt_length_iff.mpr ⟨header, member, decide_eq_false (Nat.lt_irrefl _)⟩

/-! ## Writing out a loop -/

theorem mapM_eq_ok {α β : Type} {values : List α} {step : α → Result β} {value : α → β}
    (returns : ∀ item ∈ values, step item = .ok (value item)) :
    values.mapM step = .ok (values.map value) := by
  induction values with
  | nil => rfl
  | cons head rest induction =>
      rw [List.mapM_cons, returns head (.head _),
        induction fun item member => returns item (.tail _ member)]
      rfl

section Emission

variable {cfg : Cfg Node} {heads : List Node} {nest : Nest Node} {loops : LoopAnalyzer Node}
  {done : List Node}

theorem emission_nested (sound : Nest.Sound cfg.toGraph done nest) (apart : cfg.LoopsApart)
    (headers : ∀ node, node ∈ heads ↔ cfg.IsHeader node) :
    Nested (nest.emission cfg.toGraph) (nestRank cfg.toGraph heads) cfg.Emitted :=
  (sound.nested cfg.closed apart).rerank fun outer inner emitted held =>
    nestRank_lt
      ((headers inner).mpr ((sound.nested cfg.closed apart).valid_inner outer inner emitted held).1)
      ((sound.nested cfg.closed apart).rank_inner outer inner emitted held)

/-- A loop inside another is in its body. -/
theorem inLoop_of_inside (sound : Nest.Sound cfg.toGraph done nest) (apart : cfg.LoopsApart)
    {inner outer : Node} (reducible : cfg.reducible outer = true)
    (inside : Inside (nest.emission cfg.toGraph) cfg.Emitted inner outer) :
    inner = outer ∨ cfg.InLoop outer inner := by
  induction inside using Relation.ReflTransGen.head_induction_on with
  | refl => exact .inl rfl
  | head direct _ induction =>
      rcases sound.group_inLoop _ _ (sound.group_emission.mp direct.2) with
        ⟨-, middleReducible, inMiddle⟩
      right
      rcases induction with rfl | inOuter
      · exact inMiddle
      · exact apart.inLoop_trans reducible middleReducible inMiddle inOuter

/-- What is written out of a loop is its header and nodes of its body. -/
theorem inLoop_of_expand (sound : Nest.Sound cfg.toGraph done nest) (apart : cfg.LoopsApart)
    (nested : Nested (nest.emission cfg.toGraph) (nestRank cfg.toGraph heads) cfg.Emitted)
    {fuel : Nat} {outer node : Node} (reducible : cfg.reducible outer = true)
    (deep : nestRank cfg.toGraph heads outer < fuel)
    (written : node ∈ expand (nest.emission cfg.toGraph) fuel outer) :
    node = outer ∨ cfg.InLoop outer node := by
  have emitted := emitted_of_reducible reducible
  rcases (nested.mem_expand emitted deep).mp written with ⟨inner, inside, held⟩
  have innerEmitted := (nested.inside_valid inside emitted).1
  have innerIn := inLoop_of_inside sound apart reducible inside
  rcases (Nest.Sound.leaf_emission nest).mp held with rfl | isSrc | held
  · exact innerIn
  · right
    have notOuter : node ≠ outer := by
      rintro rfl
      exact apart.notHeader inner innerEmitted node isSrc emitted.1
    rcases innerIn with rfl | inOuter
    · exact inLoop_of_src isSrc notOuter
    · exact inOuter.pred (backEdge_edge (mem_backEdgesSrc.mp isSrc)) notOuter
  · right
    have inInner := (sound.leaf_inLoop node inner held).2
    rcases innerIn with rfl | inOuter
    · exact inInner.2
    · exact apart.inLoop_trans reducible inInner.1 inInner.2 inOuter

/-- `getLinearOrder` writes out the nest. -/
theorem Forest.getLinearOrder (forest : Forest cfg.toGraph heads nest loops)
    (nested : Nested (nest.emission cfg.toGraph) (nestRank cfg.toGraph heads) cfg.Emitted)
    (headers : ∀ node, node ∈ heads ↔ cfg.IsHeader node) {fuel : Nat} {header : Node}
    {info : LoopInfo Node} (emitted : cfg.Emitted header)
    (deep : nestRank cfg.toGraph heads header < fuel) (isHeader : info.header = some header)
    (body : info.body = (infoOf cfg.toGraph heads nest header).body) :
    loops.getLinearOrder fuel info = .ok (expand (nest.emission cfg.toGraph) fuel header) := by
  induction fuel generalizing header info with
  | zero => exact absurd deep (Nat.not_lt_zero _)
  | succ fuel induction =>
      have entries : info.body.reverse =
          (((cfg.backEdgesSrc header).map Item.leaf ++ nest.items header).reverse).map
            (entryOf heads) := by
        rw [body]
        simp [infoOf, entryOf, List.map_reverse]
      simp only [LoopAnalyzer.getLinearOrder, isHeader, entries, List.mapM_map]
      apply Result.bind_eq_ok.mpr
      refine ⟨(((cfg.backEdgesSrc header).map Item.leaf ++ nest.items header).reverse).map
        (Item.values (expand (nest.emission cfg.toGraph) fuel)), mapM_eq_ok ?_, ?_⟩
      · intro item member
        cases item with
        | leaf node => rfl
        | group inner =>
            have held : .group inner ∈ nest.emission cfg.toGraph header := .tail _ member
            have innerEmitted := nested.valid_inner header inner emitted held
            have lower := nested.rank_inner header inner emitted held
            rcases forest.loop inner ((headers inner).mpr innerEmitted.1) with
              ⟨info', stored, isHeader', -, body'⟩
            simp only [Function.comp_apply, entryOf, stored, Result.ok_bind, Item.values]
            exact induction innerEmitted (by omega) isHeader' body'
      · simp [expand, Nest.emission, Item.values, List.flatMap]

end Emission

/-! ## The parts of the order -/

/-- What `buildLinearOrder` writes at a block it has not visited. -/
def part (graph : Graph Node) (nest : Nest Node) (depth : Nat) (bb : Node) : List Node :=
  if graph.reducible bb = true then expand (nest.emission graph) depth bb else [bb]

/-- The order so far: parts of some of the blocks gone through, and no block twice. -/
structure Placed (graph : Graph Node) (nest : Nest Node) (depth : Nat) (front res : List Node) :
    Prop where
  nodup : res.Nodup
  origin : ∀ node ∈ res, ∃ bb ∈ front, node ∈ part graph nest depth bb ∧
    part graph nest depth bb ⊆ res

section Order

variable {cfg : Cfg Node} {heads : List Node} {nest : Nest Node} {loops : LoopAnalyzer Node}
  {done : List Node}

/-- `getLinearOrder` has the depth for every loop. -/
theorem Forest.rank_lt (forest : Forest cfg.toGraph heads nest loops)
    (headers : ∀ node, node ∈ heads ↔ cfg.IsHeader node) {header : Node}
    (reducible : cfg.reducible header = true) :
    nestRank cfg.toGraph heads header < loops.depth :=
  Nat.lt_of_lt_of_le
    (nestRank_lt_length ((headers header).mpr (isHeader_of_reducible reducible)))
    (Nat.le_trans forest.length (Nat.le_succ _))

/-- A block that is not visited yet goes through all of its part. -/
theorem Forest.placeBlock (forest : Forest cfg.toGraph heads nest loops)
    (sound : Nest.Sound cfg.toGraph done nest)
    (nested : Nested (nest.emission cfg.toGraph) (nestRank cfg.toGraph heads) cfg.Emitted)
    (headers : ∀ node, node ∈ heads ↔ cfg.IsHeader node) {res : List Node} {bb : Node}
    (member : bb ∈ cfg.nodes) :
    placeBlock loops res bb =
      .ok (if bb ∈ res then res else res ++ part cfg.toGraph nest loops.depth bb) := by
  by_cases visited : bb ∈ res
  · simp only [Analysis.placeBlock, visited, if_true]
  · simp only [Analysis.placeBlock, visited, if_false, LoopAnalyzer.getLoopInfo]
    cases owned : nest.owner bb with
    | none =>
        have notReducible : cfg.reducible bb ≠ true := by
          intro reducible
          rw [sound.header bb (isHeader_of_reducible reducible)] at owned
          cases owned
        rcases forest.free bb member owned with ⟨id, info, found, stored, isFalse⟩
        simp only [found, stored, Result.ok_bind, isFalse, Bool.false_eq_true, and_false,
          if_false, part, notReducible]
        rfl
    | some loop =>
        have isHeader := (sound.owner bb loop owned).1
        rcases forest.loop loop ((headers loop).mpr isHeader) with
          ⟨info, stored, header, reducible, body⟩
        simp only [forest.owned bb loop owned, stored, Result.ok_bind]
        by_cases isReducible : cfg.reducible bb = true
        · rw [sound.header bb (isHeader_of_reducible isReducible), Option.some.injEq] at owned
          subst owned
          have ordered := forest.getLinearOrder nested headers
            (emitted_of_reducible isReducible) (forest.rank_lt headers isReducible) header body
          rw [if_pos ⟨header, reducible.trans isReducible⟩, ordered, part, if_pos isReducible]
          rfl
        · have notHeader : ¬ (info.header = some bb ∧ info.reducible = true) := by
            rintro ⟨isBlock, flag⟩
            rw [header, Option.some.injEq] at isBlock
            subst isBlock
            exact isReducible (reducible.symm.trans flag)
          rw [if_neg notHeader, part, if_neg isReducible]
          rfl

/-- In reverse postorder the blocks before another finish after it. -/
theorem finishTime_lt_of_front {front back : List Node} {bb other : Node}
    (order : front ++ bb :: back = cfg.depthFirstSearchReversePostOrder)
    (member : other ∈ front) : cfg.finishTime bb < cfg.finishTime other := by
  have pair : [other, bb].Sublist (front ++ bb :: back) :=
    (List.singleton_sublist.mpr member).append (List.singleton_sublist.mpr (.head _))
  rw [order, depthFirstSearchReversePostOrder] at pair
  apply idxOf_lt_of_sublist postOrder_nodup
  rw [← List.reverse_reverse cfg.depthFirstSearchPostOrder]
  exact List.reverse_sublist.mpr pair

/-- A block that is not visited has nothing of its part visited. -/
theorem Placed.apart {depth : Nat} {front back res : List Node} {bb : Node}
    (placed : Placed cfg.toGraph nest depth front res)
    (sound : Nest.Sound cfg.toGraph done nest) (apart : cfg.LoopsApart)
    (nested : Nested (nest.emission cfg.toGraph) (nestRank cfg.toGraph heads) cfg.Emitted)
    (deep : ∀ header, cfg.reducible header = true →
      nestRank cfg.toGraph heads header < depth)
    (order : front ++ bb :: back = cfg.depthFirstSearchReversePostOrder) (new : bb ∉ res)
    {node : Node} (visited : node ∈ res) : node ∉ part cfg.toGraph nest depth bb := by
  intro inPart
  rcases placed.origin node visited with ⟨other, inFront, inOther, otherVisited⟩
  have later := finishTime_lt_of_front order inFront
  have otherReachable : cfg.Reachable other := by
    apply (mem_reversePostOrder cfg.closed).mp
    rw [← order]
    exact List.mem_append_left _ inFront
  by_cases reducible : cfg.reducible bb = true
  · -- No block of the loop comes before its header.
    have notInLoop : ¬ (other = bb ∨ cfg.InLoop bb other) := by
      rintro (rfl | inLoop)
      · exact Nat.lt_irrefl _ later
      · have earlier := apart.finishTime_lt cfg.closed reducible inLoop otherReachable
        omega
    rw [part, if_pos reducible] at inPart
    by_cases otherReducible : cfg.reducible other = true
    · rw [part, if_pos otherReducible] at inOther otherVisited
      rcases nested.inside_of_common (emitted_of_reducible otherReducible)
        (deep other otherReducible) (emitted_of_reducible reducible) (deep bb reducible)
        inOther inPart with inside | inside
      · exact notInLoop (inLoop_of_inside sound apart reducible inside)
      · have inExpand : bb ∈ expand (nest.emission cfg.toGraph) depth bb :=
          (nested.mem_expand (emitted_of_reducible reducible) (deep bb reducible)).mpr
            ⟨bb, .refl, .head _⟩
        exact new (otherVisited (nested.expand_subset inside
          (emitted_of_reducible otherReducible) (deep other otherReducible) inExpand))
    · rw [part, if_neg otherReducible, List.mem_singleton] at inOther
      subst inOther
      exact notInLoop (inLoop_of_expand sound apart nested reducible (deep bb reducible) inPart)
  · rw [part, if_neg reducible, List.mem_singleton] at inPart
    exact new (inPart ▸ visited)

theorem part_nodup
    (nested : Nested (nest.emission cfg.toGraph) (nestRank cfg.toGraph heads) cfg.Emitted)
    {depth : Nat} (deep : ∀ header, cfg.reducible header = true →
      nestRank cfg.toGraph heads header < depth) (bb : Node) :
    (part cfg.toGraph nest depth bb).Nodup := by
  by_cases reducible : cfg.reducible bb = true
  · rw [part, if_pos reducible]
    exact nested.expand_nodup (emitted_of_reducible reducible) (deep bb reducible)
  · rw [part, if_neg reducible]
    exact List.nodup_singleton bb

/-- One block of the reverse postorder. -/
theorem Placed.step {depth : Nat} {front back res : List Node} {bb : Node}
    (placed : Placed cfg.toGraph nest depth front res)
    (sound : Nest.Sound cfg.toGraph done nest) (apart : cfg.LoopsApart)
    (nested : Nested (nest.emission cfg.toGraph) (nestRank cfg.toGraph heads) cfg.Emitted)
    (deep : ∀ header, cfg.reducible header = true →
      nestRank cfg.toGraph heads header < depth)
    (order : front ++ bb :: back = cfg.depthFirstSearchReversePostOrder) :
    Placed cfg.toGraph nest depth (front ++ [bb])
      (if bb ∈ res then res else res ++ part cfg.toGraph nest depth bb) := by
  have old : ∀ {after : List Node}, res ⊆ after → ∀ node ∈ res, ∃ other ∈ front ++ [bb],
      node ∈ part cfg.toGraph nest depth other ∧
        part cfg.toGraph nest depth other ⊆ after := by
    intro after grows node visited
    rcases placed.origin node visited with ⟨other, inFront, inPart, all⟩
    exact ⟨other, List.mem_append_left _ inFront, inPart, List.Subset.trans all grows⟩
  by_cases visited : bb ∈ res
  · rw [if_pos visited]
    exact ⟨placed.nodup, old (List.Subset.refl res)⟩
  · rw [if_neg visited]
    constructor
    case nodup =>
      apply List.nodup_append.mpr
      refine ⟨placed.nodup, part_nodup nested deep bb, ?_⟩
      rintro node inRes other inPart rfl
      exact placed.apart sound apart nested deep order visited inRes inPart
    case origin =>
      intro node member
      rcases List.mem_append.mp member with inRes | inPart
      · exact old (List.subset_append_left _ _) node inRes
      · exact ⟨bb, List.mem_append_right _ (List.mem_singleton_self bb), inPart,
          List.subset_append_right _ _⟩

theorem Placed.run {front rest res : List Node}
    (placed : Placed cfg.toGraph nest loops.depth front res)
    (forest : Forest cfg.toGraph heads nest loops)
    (sound : Nest.Sound cfg.toGraph done nest) (apart : cfg.LoopsApart)
    (nested : Nested (nest.emission cfg.toGraph) (nestRank cfg.toGraph heads) cfg.Emitted)
    (headers : ∀ node, node ∈ heads ↔ cfg.IsHeader node)
    (order : front ++ rest = cfg.depthFirstSearchReversePostOrder) :
    ∃ after, rest.foldlM (Analysis.placeBlock loops) res = .ok after ∧
      Placed cfg.toGraph nest loops.depth (front ++ rest) after := by
  have deep : ∀ header, cfg.reducible header = true →
      nestRank cfg.toGraph heads header < loops.depth :=
    fun header reducible => forest.rank_lt headers reducible
  induction rest generalizing front res with
  | nil => exact ⟨res, rfl, by simpa using placed⟩
  | cons bb rest induction =>
      have member : bb ∈ cfg.nodes := by
        apply cfg.closed.mem_of_reachable
        apply (mem_reversePostOrder cfg.closed).mp
        rw [← order]
        exact List.mem_append_right _ (.head _)
      have next := placed.step sound apart nested deep order
      have order' : front ++ [bb] ++ rest = cfg.depthFirstSearchReversePostOrder := by
        simpa using order
      rcases induction next order' with ⟨after, result, final⟩
      refine ⟨after, ?_, by simpa using final⟩
      rw [List.foldlM_cons, forest.placeBlock sound nested headers member, Result.ok_bind, result]

theorem part_reachable (sound : Nest.Sound cfg.toGraph done nest)
    (nested : Nested (nest.emission cfg.toGraph) (nestRank cfg.toGraph heads) cfg.Emitted)
    {depth : Nat} {bb node : Node} (reachable : cfg.Reachable bb)
    (deep : cfg.reducible bb = true → nestRank cfg.toGraph heads bb < depth)
    (member : node ∈ part cfg.toGraph nest depth bb) : cfg.Reachable node := by
  by_cases reducible : cfg.reducible bb = true
  · rw [part, if_pos reducible] at member
    have emitted := emitted_of_reducible reducible
    rcases (nested.mem_expand emitted (deep reducible)).mp member with ⟨inner, inside, held⟩
    rcases (Nest.Sound.leaf_emission nest).mp held with rfl | isSrc | isLeaf
    · exact isHeader_reachable (nested.inside_valid inside emitted).1.1
    · exact backEdge_reachable (mem_backEdgesSrc.mp isSrc)
    · exact sound.leaf_reachable node inner isLeaf
  · rw [part, if_neg reducible, List.mem_singleton] at member
    exact member ▸ reachable

theorem Placed.length {order : List Node}
    (placed : Placed cfg.toGraph nest loops.depth cfg.depthFirstSearchReversePostOrder order)
    (sound : Nest.Sound cfg.toGraph done nest)
    (nested : Nested (nest.emission cfg.toGraph) (nestRank cfg.toGraph heads) cfg.Emitted)
    (deep : ∀ header, cfg.reducible header = true →
      nestRank cfg.toGraph heads header < loops.depth)
    (whole : cfg.depthFirstSearchReversePostOrder ⊆ order) :
    order.length = cfg.depthFirstSearchReversePostOrder.length := by
  have inside : order ⊆ cfg.depthFirstSearchReversePostOrder := by
    intro node member
    rcases placed.origin node member with ⟨bb, inOrder, inPart, -⟩
    have reachable := (mem_reversePostOrder cfg.closed).mp inOrder
    exact (mem_reversePostOrder cfg.closed).mpr
      (part_reachable sound nested reachable (deep bb) inPart)
  exact Nat.le_antisymm (placed.nodup.subperm inside).length_le
    (reversePostOrder_nodup.subperm whole).length_le

/-- Where the loops are apart the linear order has every block once. -/
theorem buildLinearOrder_complete (cfg : Cfg Node) (apart : cfg.LoopsApart) :
    ∃ loops order, LoopAnalyzer.make cfg.toGraph = .ok loops ∧
      buildLinearOrder cfg.toGraph loops = .ok order ∧ order.Perm cfg.nodes ∧
        validateLinOrder order = true := by
  rcases make_forest cfg apart with
    ⟨loops, heads, nest, done, made, -, headers, forest, sound, -, -⟩
  have nested := emission_nested sound apart headers
  have deep : ∀ header, cfg.reducible header = true →
      nestRank cfg.toGraph heads header < loops.depth :=
    fun header reducible => forest.rank_lt headers reducible
  have start : Placed cfg.toGraph nest loops.depth [] [] := ⟨List.nodup_nil, by simp⟩
  rcases start.run forest sound apart nested headers
    (List.nil_append cfg.depthFirstSearchReversePostOrder) with ⟨order, placedAll, placed⟩
  have sizes := placed.length sound nested deep (placeBlock_fold placedAll).1
  have built : buildLinearOrder cfg.toGraph loops = .ok order := by
    rw [buildLinearOrder, placedAll, Result.ok_bind, assert_of _ sizes]
    rfl
  refine ⟨loops, order, made, built,
    buildLinearOrder_perm cfg.closed cfg.allReachable built, ?_⟩
  rw [validateLinOrder, placed.nodup.dedup]
  exact decide_eq_true rfl

end Order

/-! ## A loop with an exit, and two loops with one back edge source -/

def exitLoopGraph : Graph Nat where
  nodes := [0, 1, 2, 3]
  entryPoint := 0
  succs := fun node => match node with
    | 0 => [1]
    | 1 => [2, 3]
    | 2 => [1]
    | _ => []
  preds := fun node => match node with
    | 1 => [0, 2]
    | 2 => [1]
    | 3 => [1]
    | _ => []
  id := fun node => node

def exitLoop : Cfg Nat where
  toGraph := exitLoopGraph
  closed := by decide
  allReachable := by
    have toHeader : exitLoopGraph.Edge 0 1 := by decide
    have toLatch : exitLoopGraph.Edge 1 2 := by decide
    have toExit : exitLoopGraph.Edge 1 3 := by decide
    have header : exitLoopGraph.Reachable 1 := .single toHeader
    simpa [exitLoopGraph] using
      (⟨.refl, header, header.tail toLatch, header.tail toExit⟩ : exitLoopGraph.Reachable 0 ∧
        exitLoopGraph.Reachable 1 ∧ exitLoopGraph.Reachable 2 ∧ exitLoopGraph.Reachable 3)
  preds_mem := by decide
  mirrored := by decide
  ids := by decide

theorem exitLoop_src {header src : Nat} (isSrc : src ∈ exitLoop.backEdgesSrc header) :
    header = 1 ∧ src = 2 := by
  have events : exitLoop.depthFirstSearch = [.discoverNode 0, .discoverNode 1, .discoverNode 2,
      .backEdge 2 1, .finishNode 2, .discoverNode 3, .finishNode 3, .finishNode 1,
      .finishNode 0] := by decide
  have member := mem_backEdgesSrc.mp isSrc
  rw [events] at member
  simpa [and_comm] using member

theorem exitLoop_apart : exitLoop.LoopsApart where
  dominated header reducible src isSrc := by
    rcases exitLoop_src isSrc with ⟨rfl, rfl⟩
    exact (dominates_iff exitLoop.closed).mpr (.inr (by decide))
  nodup header emitted := by
    rcases isHeader_iff.mp emitted.1 with ⟨src, isSrc⟩
    rcases exitLoop_src isSrc with ⟨rfl, -⟩
    decide
  notHeader header emitted src isSrc := by
    rcases exitLoop_src isSrc with ⟨rfl, rfl⟩
    decide
  unshared left right src _ _ inLeft inRight :=
    (exitLoop_src inLeft).1.trans (exitLoop_src inRight).1.symm
  enclosed outer header src reducible emitted different isSrc _ := by
    rcases isHeader_iff.mp (isHeader_of_reducible reducible) with ⟨other, isOther⟩
    exact absurd ((exitLoop_src isOther).1.trans (exitLoop_src isSrc).1.symm) different

theorem buildLinearOrder_complete_exitLoop :
    ∃ loops order, LoopAnalyzer.make exitLoop.toGraph = .ok loops ∧
      buildLinearOrder exitLoop.toGraph loops = .ok order ∧ order.Perm exitLoop.nodes ∧
        validateLinOrder order = true :=
  buildLinearOrder_complete exitLoop exitLoop_apart

/-- Two nested loops that end in the same block. -/
def sharedLatchGraph : Graph Nat where
  nodes := [0, 1, 2]
  entryPoint := 0
  succs := fun node => match node with
    | 0 => [1]
    | 1 => [2]
    | _ => [1, 0]
  preds := fun node => match node with
    | 0 => [2]
    | 1 => [0, 2]
    | _ => [1]
  id := fun node => node

def sharedLatch : Cfg Nat where
  toGraph := sharedLatchGraph
  closed := by decide
  allReachable := by
    have toInner : sharedLatchGraph.Edge 0 1 := by decide
    have toLatch : sharedLatchGraph.Edge 1 2 := by decide
    have inner : sharedLatchGraph.Reachable 1 := .single toInner
    simpa [sharedLatchGraph] using
      (⟨.refl, inner, inner.tail toLatch⟩ : sharedLatchGraph.Reachable 0 ∧
        sharedLatchGraph.Reachable 1 ∧ sharedLatchGraph.Reachable 2)
  preds_mem := by decide
  mirrored := by decide
  ids := by decide

/-- The block is in both bodies, and the assertion on the size fails. -/
theorem not_buildLinearOrder_sharedLatch :
    ¬ ∃ loops order, LoopAnalyzer.make sharedLatch.toGraph = .ok loops ∧
      buildLinearOrder sharedLatch.toGraph loops = .ok order ∧
        order.Perm sharedLatch.nodes ∧ validateLinOrder order = true := by
  rintro ⟨loops, order, made, built, -⟩
  have ran : (LoopAnalyzer.make sharedLatch.toGraph >>= buildLinearOrder sharedLatch.toGraph) =
      .error .assertFailed := rfl
  rw [made, Result.ok_bind, built] at ran
  cases ran

end LeechJit.Analysis
