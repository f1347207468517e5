import LeechJit.Graph.DomTreeIdoms
import LeechJit.Graph.Dominance

/-! # When `isDominator` is exact

The builder takes the node discovered just before for the parent of a node in the
search tree, and `find` looks at the root of the forest too. What it computes are
immediate dominators when the rule below holds at every node.
-/

namespace LeechJit.Graph

open Semidominator Dominance

variable {Node : Type} [DecidableEq Node] {cfg : Cfg Node} {order : List Node}
  {value : Nat → Nat} {tree : DominatorTree Node}

/-! ## The search for dominated nodes -/

/-- The tree hangs `child` directly below `parent`. -/
def Hung (order : List Node) (value : Nat → Nat) (parent child : Node) : Prop :=
  ∃ time other, order[time]? = some parent ∧ order[other]? = some child ∧ 0 < other ∧
    TreeParent value other time

theorem TreeOf.lower (treeOf : TreeOf cfg order value tree) {node parent : Nat}
    (positive : 0 < node) (inside : node < order.length) (isParent : TreeParent value node parent) :
    parent < node := by
  rcases treeOf.parents node positive inside with ⟨other, isLower, hangs⟩
  rw [isParent.unique hangs]
  exact isLower

theorem Hung.unique (ordered : Ordered cfg order) {left right child : Node}
    (first : Hung order value left child) (second : Hung order value right child) :
    left = right := by
  rcases first with ⟨leftTime, childTime, leftAt, childAt, -, leftHangs⟩
  rcases second with ⟨rightTime, otherTime, rightAt, otherAt, -, rightHangs⟩
  cases ordered.position childAt otherAt
  cases leftHangs.unique rightHangs
  exact Option.some.inj (leftAt.symm.trans rightAt)

/-- Nodes lower in the tree are discovered later. -/
theorem TreeOf.later (treeOf : TreeOf cfg order value tree) (ordered : Ordered cfg order)
    {upper lower : Node} (below : Relation.ReflTransGen (Hung order value) upper lower)
    {first last : Nat} (firstAt : order[first]? = some upper)
    (lastAt : order[last]? = some lower) : first ≤ last := by
  induction below generalizing last with
  | refl => exact Nat.le_of_eq (ordered.position firstAt lastAt)
  | tail _ final induction =>
      rcases final with ⟨time, other, timeAt, otherAt, positive, isParent⟩
      cases ordered.position otherAt lastAt
      have inside : last < order.length := (List.getElem?_eq_some_iff.mp lastAt).1
      have isLower := treeOf.lower positive inside isParent
      have earlier := induction timeAt
      omega

/-- The search below `dom` has popped the ids of `visited` and not met `node`. -/
structure Searching (order : List Node) (value : Nat → Nat) (dom node : Node)
    (visited stack : List Node) : Prop where
  nodup : (visited ++ stack).Nodup
  inside : ∀ other ∈ visited ++ stack, other ∈ order
  below : ∀ other ∈ visited ++ stack, Relation.ReflTransGen (Hung order value) dom other
  root : dom ∈ visited ++ stack
  closed : ∀ parent ∈ visited, ∀ child, Hung order value parent child → child ∈ visited ++ stack
  parents : ∀ child ∈ visited ++ stack, child = dom ∨
    ∃ parent ∈ visited, Hung order value parent child
  missed : ∀ parent ∈ visited, ¬ Hung order value parent node

theorem TreeOf.mem_dommed (treeOf : TreeOf cfg order value tree) (ordered : Ordered cfg order)
    {parent : Node} (member : parent ∈ order) (child : Node) :
    child ∈ (tree.tree (cfg.id parent)).getD [] ↔ Hung order value parent child := by
  rcases List.mem_iff_getElem?.mp member with ⟨time, placed⟩
  rw [treeOf.dommed time parent placed]
  constructor
  · rintro ⟨other, positive, otherAt, hangs⟩
    exact ⟨time, other, placed, otherAt, positive, hangs⟩
  · rintro ⟨same, other, sameAt, otherAt, positive, hangs⟩
    cases ordered.position placed sameAt
    exact ⟨other, positive, otherAt, hangs⟩

theorem Searching.step {dom node first : Node} {visited rest : List Node}
    (searching : Searching order value dom node visited (first :: rest))
    (treeOf : TreeOf cfg order value tree) (ordered : Ordered cfg order)
    (missed : ¬ Hung order value first node) :
    Searching order value dom node (visited ++ [first])
      (((tree.tree (cfg.id first)).getD []).reverse ++ rest) := by
  have whole : ∀ other, other ∈ visited ++ [first] ++
      (((tree.tree (cfg.id first)).getD []).reverse ++ rest) ↔
      other ∈ visited ++ first :: rest ∨ other ∈ (tree.tree (cfg.id first)).getD [] := by
    intro other
    simp only [List.mem_append, List.mem_cons, List.mem_reverse, List.not_mem_nil, or_false]
    tauto
  have firstMem : first ∈ visited ++ first :: rest := by simp
  have dommed := treeOf.mem_dommed ordered (searching.inside first firstMem)
  -- Popped once only, the node gives its children their one parent.
  have fresh : ∀ child ∈ (tree.tree (cfg.id first)).getD [], child ∉ visited ++ first :: rest := by
    intro child member present
    have hung := (dommed child).mp member
    rcases searching.parents child present with rfl | ⟨parent, parentMem, hangs⟩
    · have belowFirst := searching.below first firstMem
      rcases hung with ⟨time, other, timeAt, otherAt, positive, isParent⟩
      have inside : other < order.length := (List.getElem?_eq_some_iff.mp otherAt).1
      have isLower := treeOf.lower positive inside isParent
      have later := treeOf.later ordered belowFirst otherAt timeAt
      omega
    · have same := hangs.unique ordered hung
      have split := searching.nodup
      rw [List.nodup_append] at split
      exact split.2.2 parent parentMem first List.mem_cons_self same
  constructor
  case nodup =>
    have perm : (visited ++ [first] ++ (((tree.tree (cfg.id first)).getD []).reverse ++ rest)).Perm
        ((visited ++ first :: rest) ++ (tree.tree (cfg.id first)).getD []) := by
      rw [List.append_assoc, List.append_assoc, List.singleton_append, List.cons_append]
      apply List.Perm.append_left
      apply List.Perm.cons
      exact List.perm_append_comm.trans (List.Perm.append_left rest (List.reverse_perm _))
    rw [perm.nodup_iff, List.nodup_append]
    refine ⟨searching.nodup, treeOf.nodup _, ?_⟩
    rintro other present child member rfl
    exact fresh other member present
  case inside =>
    intro other member
    rcases (whole other).mp member with old | new
    · exact searching.inside other old
    · rcases (dommed other).mp new with ⟨-, time, -, timeAt, -⟩
      exact List.mem_of_getElem? timeAt
  case below =>
    intro other member
    rcases (whole other).mp member with old | new
    · exact searching.below other old
    · exact (searching.below first firstMem).tail ((dommed other).mp new)
  case root => exact (whole dom).mpr (.inl searching.root)
  case closed =>
    intro parent member child hung
    rw [List.mem_append, List.mem_singleton] at member
    rcases member with old | rfl
    · exact (whole child).mpr (.inl (searching.closed parent old child hung))
    · exact (whole child).mpr (.inr ((dommed child).mpr hung))
  case parents =>
    intro child member
    rcases (whole child).mp member with old | new
    · rcases searching.parents child old with isDom | ⟨parent, parentMem, hung⟩
      · exact .inl isDom
      · exact .inr ⟨parent, List.mem_append_left _ parentMem, hung⟩
    · exact .inr ⟨first, by simp, (dommed child).mp new⟩
  case missed =>
    intro parent member
    rw [List.mem_append, List.mem_singleton] at member
    rcases member with old | rfl
    · exact searching.missed parent old
    · exact missed

omit [DecidableEq Node] in
/-- A finished search has popped all nodes below `dom`. -/
theorem Searching.not_below {dom node : Node} {visited : List Node}
    (searching : Searching order value dom node visited []) :
    ¬ Relation.TransGen (Hung order value) dom node := by
  have popped : ∀ other, Relation.ReflTransGen (Hung order value) dom other →
      other ∈ visited := by
    intro other path
    induction path with
    | refl => simpa using searching.root
    | tail _ final induction => simpa using searching.closed _ induction _ final
  intro below
  rcases Relation.TransGen.tail'_iff.mp below with ⟨parent, path, final⟩
  exact searching.missed parent (popped parent path) final

theorem Searching.run {dom node : Node} {visited stack : List Node} {fuel : Nat}
    (searching : Searching order value dom node visited stack)
    (treeOf : TreeOf cfg order value tree) (ordered : Ordered cfg order)
    (enough : order.length ≤ fuel + visited.length) :
    ∃ found, tree.searchDommed node fuel (stack.map cfg.id) = .ok found ∧
      (found = true ↔ Relation.TransGen (Hung order value) dom node) := by
  induction fuel generalizing visited stack with
  | zero =>
      cases stack with
      | nil => exact ⟨false, rfl, by simpa using searching.not_below⟩
      | cons first rest =>
          have subset : (visited ++ first :: rest).length ≤ order.length :=
            (searching.nodup.subperm searching.inside).length_le
          rw [List.length_append, List.length_cons] at subset
          omega
  | succ fuel induction =>
      cases stack with
      | nil => exact ⟨false, rfl, by simpa using searching.not_below⟩
      | cons first rest =>
          have firstMem : first ∈ visited ++ first :: rest := by simp
          have dommed := treeOf.mem_dommed ordered (searching.inside first firstMem)
          have lengths : order.length ≤ fuel + (visited ++ [first]).length := by
            rw [List.length_append, List.length_singleton]
            omega
          by_cases hung : Hung order value first node
          · have member := (dommed node).mpr hung
            refine ⟨true, ?_, by simpa using .tail' (searching.below first firstMem) hung⟩
            cases stored : tree.tree (cfg.id first) with
            | none =>
                rw [stored] at member
                cases member
            | some idommed =>
                rw [stored, Option.getD_some] at member
                simp [DominatorTree.searchDommed, stored, member]
          · rcases induction (searching.step treeOf ordered hung) lengths with
              ⟨found, computed, isFound⟩
            refine ⟨found, ?_, isFound⟩
            have missed := mt (dommed node).mp hung
            cases stored : tree.tree (cfg.id first) with
            | none => simpa [DominatorTree.searchDommed, stored] using computed
            | some idommed =>
                rw [stored, Option.getD_some] at missed
                simpa [DominatorTree.searchDommed, stored, missed, treeOf.id] using computed

/-- `isDominator` searches the tree. -/
theorem TreeOf.isDominator_returns (treeOf : TreeOf cfg order value tree)
    (ordered : Ordered cfg order) {dom : Node} (domMem : dom ∈ order) (node : Node) :
    ∃ found, tree.isDominator dom node = .ok found ∧
      (found = true ↔ Relation.ReflTransGen (Hung order value) dom node) := by
  by_cases same : node = dom
  · subst same
    exact ⟨true, if_pos rfl, by simp [Relation.ReflTransGen.refl]⟩
  · have start : Searching order value dom node [] [dom] := by
      constructor
      case nodup => simp
      case inside => simpa using domMem
      case below => simp [Relation.ReflTransGen.refl]
      case root => simp
      case closed => simp
      case parents => simp
      case missed => simp
    rcases start.run treeOf ordered (Nat.le_of_eq treeOf.size.symm) with
      ⟨found, computed, isFound⟩
    simp only [List.map_cons, List.map_nil] at computed
    refine ⟨found, ?_, ?_⟩
    · rw [DominatorTree.isDominator, if_neg same, treeOf.id, computed]
    · rw [Relation.reflTransGen_iff_eq_or_transGen, or_iff_right same, ← isFound]

theorem TreeOf.isDominator (treeOf : TreeOf cfg order value tree) (ordered : Ordered cfg order)
    {dom node : Node} (domMem : dom ∈ order) :
    tree.isDominator dom node = .ok true ↔
      Relation.ReflTransGen (Hung order value) dom node := by
  rcases treeOf.isDominator_returns ordered domMem node with ⟨found, returned, isFound⟩
  rw [returned, Except.ok.injEq, isFound]

/-! ## Trees of immediate dominators -/

/-- `dom` is the immediate dominator of `node`. -/
def IsIdom (cfg : Cfg Node) (dom node : Node) : Prop :=
  Dominance.IsIdom cfg.Edge cfg.entryPoint dom node

theorem reachable_of_mem {node : Node} (member : node ∈ cfg.depthFirstSearchPreOrder) :
    Relation.ReflTransGen cfg.Edge cfg.entryPoint node :=
  (mem_preOrder cfg.closed).mp member

theorem entry_placed : cfg.depthFirstSearchPreOrder[0]? = some cfg.entryPoint := by
  rw [← List.head?_eq_getElem?]
  exact preOrder_head

/-- In a tree of immediate dominators the nodes above a node are its dominators. -/
theorem TreeOf.dominates_iff
    (treeOf : TreeOf cfg cfg.depthFirstSearchPreOrder value tree)
    (idoms : ∀ parent child, Hung cfg.depthFirstSearchPreOrder value parent child →
      IsIdom cfg parent child) {dom node : Node}
    (member : node ∈ cfg.depthFirstSearchPreOrder) :
    Relation.ReflTransGen (Hung cfg.depthFirstSearchPreOrder value) dom node ↔
      cfg.Dominates dom node := by
  have ordered : Ordered cfg cfg.depthFirstSearchPreOrder := .of_perm (preOrder_perm cfg)
  rcases List.mem_iff_getElem?.mp member with ⟨time, placed⟩
  induction time using Nat.strong_induction_on generalizing node with
  | h time induction =>
      by_cases isEntry : time = 0
      · subst isEntry
        cases Option.some.inj (entry_placed.symm.trans placed)
        constructor
        · intro below
          rcases Relation.reflTransGen_iff_eq_or_transGen.mp below with rfl | hung
          · exact Dominates.refl _
          · rcases Relation.TransGen.tail'_iff.mp hung with
              ⟨-, -, -, other, -, otherAt, positive, -⟩
            have equal := ordered.position otherAt placed
            omega
        · intro dominates
          have only := dominates _ (.here _)
          rw [List.mem_singleton] at only
          rw [only]
      · have inside := (List.getElem?_eq_some_iff.mp placed).1
        rcases treeOf.parents time (by omega) inside with ⟨parent, isLower, isParent⟩
        obtain ⟨parentNode, parentPlaced⟩ :
            ∃ parentNode, cfg.depthFirstSearchPreOrder[parent]? = some parentNode :=
          ⟨_, List.getElem?_eq_getElem (by omega)⟩
        have hung : Hung cfg.depthFirstSearchPreOrder value parentNode node :=
          ⟨parent, time, parentPlaced, placed, by omega, isParent⟩
        have above : Relation.ReflTransGen (Hung cfg.depthFirstSearchPreOrder value) dom
            parentNode ↔ cfg.Dominates dom parentNode :=
          induction parent isLower (List.mem_of_getElem? parentPlaced) parentPlaced
        have rule : cfg.Dominates dom node ↔ dom = node ∨ cfg.Dominates dom parentNode :=
          (idoms parentNode node hung).dominates_iff
        rw [rule, ← above]
        constructor
        · intro below
          rcases Relation.ReflTransGen.cases_tail below with isNode | ⟨middle, path, final⟩
          · exact .inl isNode.symm
          · cases final.unique ordered hung
            exact .inr path
        · rintro (rfl | below)
          · exact .refl
          · exact below.tail hung

/-- And only a tree of immediate dominators has that property. -/
theorem TreeOf.isIdom_of_exact
    (treeOf : TreeOf cfg cfg.depthFirstSearchPreOrder value tree)
    (exact : ∀ dom ∈ cfg.nodes, ∀ node ∈ cfg.nodes,
      Relation.ReflTransGen (Hung cfg.depthFirstSearchPreOrder value) dom node ↔
        cfg.Dominates dom node) {parent child : Node}
    (hung : Hung cfg.depthFirstSearchPreOrder value parent child) :
    IsIdom cfg parent child := by
  have perm := preOrder_perm cfg
  have ordered : Ordered cfg cfg.depthFirstSearchPreOrder := .of_perm perm
  have ⟨time, other, timeAt, otherAt, positive, isParent⟩ := hung
  have isLower := treeOf.lower positive (List.getElem?_eq_some_iff.mp otherAt).1 isParent
  have parentMem := perm.mem_iff.mp (List.mem_of_getElem? timeAt)
  have childMem := perm.mem_iff.mp (List.mem_of_getElem? otherAt)
  constructor
  case different =>
    rintro rfl
    have equal := ordered.position timeAt otherAt
    omega
  case dominates => exact (exact parent parentMem child childMem).mp (.single hung)
  case closest =>
    intro dom notChild dominates
    have reachable := reachable_of_mem (List.mem_of_getElem? otherAt)
    have domMem : dom ∈ cfg.nodes := by
      rcases Walk.of_reachable reachable with ⟨nodes, walk⟩
      rcases walk.stopAt (dominates nodes walk) with ⟨before, shorter, -⟩
      exact cfg.closed.mem_of_reachable shorter.reachable
    have below := (exact dom domMem child childMem).mpr dominates
    rcases Relation.ReflTransGen.cases_tail below with isChild | ⟨middle, path, final⟩
    · exact absurd isChild.symm notChild
    · cases final.unique ordered hung
      exact (exact dom domMem parent parentMem).mp path

/-! ## The rule -/

/-- The semidominators of the blocks in their order of discovery, when each block
also gets an edge to the one discovered next. -/
structure ChainSemis (cfg : Cfg Node) (semi : Nat → Nat) : Prop where
  entry : semi 0 = 0
  isSemi : ∀ time, 0 < time → time < cfg.depthFirstSearchPreOrder.length →
    IsSemi (ChainStep (TimeEdge cfg cfg.depthFirstSearchPreOrder)
      cfg.depthFirstSearchPreOrder.length) time (semi time)

/-- The rule of the builder: of the blocks from the semidominator on, the last one of
least semidominator has the same immediate dominator, unless it is the
semidominator itself or shares it. -/
def SemisDecide (cfg : Cfg Node) (semi : Nat → Nat) : Prop :=
  ∀ (time best : Nat) (node semiNode bestNode : Node), 0 < time →
    cfg.depthFirstSearchPreOrder[time]? = some node →
    cfg.depthFirstSearchPreOrder[semi time]? = some semiNode →
    cfg.depthFirstSearchPreOrder[best]? = some bestNode →
    IsLatestMin semi (semi time) time best →
    if semi best = semi time ∨ best = semi time then IsIdom cfg semiNode node
    else ∀ dom, IsIdom cfg dom bestNode ↔ IsIdom cfg dom node

theorem SemisDecide.isIdom (decide : SemisDecide cfg value)
    (atMost : ∀ time, value time ≤ time) {time parent : Nat}
    (isParent : TreeParent value time parent) : ∀ node parentNode, 0 < time →
      cfg.depthFirstSearchPreOrder[time]? = some node →
      cfg.depthFirstSearchPreOrder[parent]? = some parentNode → IsIdom cfg parentNode node := by
  induction isParent with
  | semi latest settled =>
      rename_i time best
      intro node parentNode positive placed parentPlaced
      have inside := (List.getElem?_eq_some_iff.mp placed).1
      have high := latest.le_high
      obtain ⟨bestNode, bestPlaced⟩ :
          ∃ bestNode, cfg.depthFirstSearchPreOrder[best]? = some bestNode :=
        ⟨_, List.getElem?_eq_getElem (by omega)⟩
      have rule := decide time best node parentNode bestNode positive placed parentPlaced
        bestPlaced latest
      rw [if_pos settled] at rule
      exact rule
  | shared latest different notSemi same induction =>
      rename_i time best parent
      intro node parentNode positive placed parentPlaced
      have inside := (List.getElem?_eq_some_iff.mp placed).1
      have high := latest.le_high
      have low := latest.low_le
      have small := atMost time
      obtain ⟨bestNode, bestPlaced⟩ :
          ∃ bestNode, cfg.depthFirstSearchPreOrder[best]? = some bestNode :=
        ⟨_, List.getElem?_eq_getElem (by omega)⟩
      obtain ⟨semiNode, semiPlaced⟩ :
          ∃ semiNode, cfg.depthFirstSearchPreOrder[value time]? = some semiNode :=
        ⟨_, List.getElem?_eq_getElem (by omega)⟩
      have rule := decide time best node semiNode bestNode positive placed semiPlaced
        bestPlaced latest
      rw [if_neg (not_or.mpr ⟨different, notSemi⟩)] at rule
      exact (rule parentNode).mp (induction bestNode parentNode (by omega) bestPlaced
        parentPlaced)

theorem TreeOf.decide_of_isIdom
    (treeOf : TreeOf cfg cfg.depthFirstSearchPreOrder value tree)
    (idoms : ∀ parent child, Hung cfg.depthFirstSearchPreOrder value parent child →
      IsIdom cfg parent child) : SemisDecide cfg value := by
  intro time best node semiNode bestNode positive placed semiPlaced bestPlaced latest
  have inside := (List.getElem?_eq_some_iff.mp placed).1
  by_cases settled : value best = value time ∨ best = value time
  · rw [if_pos settled]
    exact idoms semiNode node ⟨value time, time, semiPlaced, placed, positive,
      .semi latest settled⟩
  · rw [if_neg settled]
    have parts := not_or.mp settled
    have low := latest.low_le
    have high := latest.le_high
    have bestInside := (List.getElem?_eq_some_iff.mp bestPlaced).1
    have bestPositive : 0 < best := by omega
    rcases treeOf.parents best bestPositive bestInside with ⟨parent, isLower, isParent⟩
    obtain ⟨parentNode, parentPlaced⟩ :
        ∃ parentNode, cfg.depthFirstSearchPreOrder[parent]? = some parentNode :=
      ⟨_, List.getElem?_eq_getElem (by omega)⟩
    have ofBest := idoms parentNode bestNode
      ⟨parent, best, parentPlaced, bestPlaced, bestPositive, isParent⟩
    have ofNode := idoms parentNode node
      ⟨parent, time, parentPlaced, placed, positive, .shared latest parts.1 parts.2 isParent⟩
    intro dom
    constructor
    · intro isIdom
      rw [isIdom.unique (reachable_of_mem (List.mem_of_getElem? bestPlaced)) ofBest]
      exact ofNode
    · intro isIdom
      rw [isIdom.unique (reachable_of_mem (List.mem_of_getElem? placed)) ofNode]
      exact ofBest

/-- The dominator tree of a flow graph is exact if and only if the rule of the builder
finds immediate dominators. -/
theorem isDominator_exact_iff (cfg : Cfg Node) :
    ∃ tree semi, buildDomTree cfg.toGraph = .ok tree ∧ ChainSemis cfg semi ∧
      ((∀ dom ∈ cfg.nodes, ∀ node ∈ cfg.nodes,
        (tree.isDominator dom node = .ok true ↔ cfg.Dominates dom node)) ↔
          SemisDecide cfg semi) := by
  have perm := preOrder_perm cfg
  have ordered : Ordered cfg cfg.depthFirstSearchPreOrder := .of_perm perm
  rcases buildDomTree_treeOf cfg with ⟨tree, value, built, atMost, equations, treeOf⟩
  have semis : ChainSemis cfg value :=
    ⟨Nat.le_zero.mp (atMost 0), fun time => equations.isSemi⟩
  refine ⟨tree, value, built, semis, ?_⟩
  constructor
  · intro exact
    apply treeOf.decide_of_isIdom
    intro parent child hung
    apply treeOf.isIdom_of_exact _ hung
    intro dom domMem node nodeMem
    rw [← treeOf.isDominator ordered (perm.mem_iff.mpr domMem)]
    exact exact dom domMem node nodeMem
  · intro decide dom domMem node nodeMem
    have idoms : ∀ parent child, Hung cfg.depthFirstSearchPreOrder value parent child →
        IsIdom cfg parent child := by
      rintro parent child ⟨time, other, timeAt, otherAt, positive, isParent⟩
      exact decide.isIdom atMost isParent child parent positive otherAt timeAt
    rw [treeOf.isDominator ordered (perm.mem_iff.mpr domMem)]
    exact treeOf.dominates_iff idoms (perm.mem_iff.mpr nodeMem)

/-- A branch whose left side also jumps to its right side and to a block of its own. -/
def sideExitGraph : Graph Nat where
  nodes := [0, 1, 2, 3]
  entryPoint := 0
  succs := fun node => match node with
    | 0 => [1, 2]
    | 1 => [2, 3]
    | _ => []
  preds := fun node => match node with
    | 1 => [0]
    | 2 => [0, 1]
    | 3 => [1]
    | _ => []
  id := fun node => node

def sideExit : Cfg Nat where
  toGraph := sideExitGraph
  closed := by decide
  allReachable := by
    have toLeft : sideExitGraph.Edge 0 1 := by decide
    have toRight : sideExitGraph.Edge 1 2 := by decide
    have toExit : sideExitGraph.Edge 1 3 := by decide
    have left : sideExitGraph.Reachable 1 := .single toLeft
    simpa [sideExitGraph] using
      (⟨.refl, left, left.tail toRight, left.tail toExit⟩ : sideExitGraph.Reachable 0 ∧
        sideExitGraph.Reachable 1 ∧ sideExitGraph.Reachable 2 ∧ sideExitGraph.Reachable 3)
  preds_mem := by decide
  mirrored := by decide
  ids := by decide

/-- Block 1 is on every path to block 3, and the tree does not say so. -/
theorem not_isDominator_sideExit :
    ¬ ∃ tree, buildDomTree sideExit.toGraph = .ok tree ∧
      ∀ dom ∈ sideExit.nodes, ∀ node ∈ sideExit.nodes,
        (tree.isDominator dom node = .ok true ↔ sideExit.Dominates dom node) := by
  rintro ⟨tree, built, exact⟩
  have ran : (buildDomTree sideExit.toGraph >>= fun tree => tree.isDominator 1 3) = .ok false :=
    rfl
  rw [built, Result.ok_bind] at ran
  have dominates : sideExit.Dominates 1 3 :=
    (dominates_iff sideExit.closed).mpr (.inr (by decide))
  have found := (exact 1 (by decide) 3 (by decide)).mpr dominates
  rw [ran] at found
  cases found

end LeechJit.Graph
