import LeechJit.Graph.DomTreeExact

/-! # The dominator structure is a tree

Every block but the entry hangs below exactly one block, which was discovered before it.
So the answers of `isDominator` are a partial order with the entry above all blocks.
-/

namespace LeechJit.Graph

open Semidominator

variable {Node : Type} [DecidableEq Node] {cfg : Cfg Node} {order : List Node}
  {value : Nat → Nat} {tree : DominatorTree Node}

/-- The list `getIDommed` of the node with an id, if it has one. -/
def DominatorTree.idommed (tree : DominatorTree Node) (id : NodeId) : List Node :=
  (tree.tree id).getD []

/-- When a block is discovered. -/
def dfsTime (cfg : Cfg Node) (node : Node) : DFSTime :=
  cfg.depthFirstSearchPreOrder.idxOf node

/-- Each block but the entry is in one list, once; a block discovered earlier has the list. -/
structure Rooted (cfg : Cfg Node) (tree : DominatorTree Node) : Prop where
  owner : ∀ node ∈ cfg.nodes, node ≠ cfg.entryPoint → ∃ owner ∈ cfg.nodes,
    (tree.idommed (cfg.id owner)).count node = 1 ∧
      (∀ id, node ∈ tree.idommed id → id = cfg.id owner) ∧ dfsTime cfg owner < dfsTime cfg node
  entry : ∀ id, cfg.entryPoint ∉ tree.idommed id

/-- The answers about blocks are a partial order with the entry at its top. -/
structure OrdersBlocks (cfg : Cfg Node) (tree : DominatorTree Node) : Prop where
  returns : ∀ dom ∈ cfg.nodes, ∀ node ∈ cfg.nodes, ∃ answer, tree.isDominator dom node = .ok answer
  refl : ∀ node ∈ cfg.nodes, tree.isDominator node node = .ok true
  antisymm : ∀ dom ∈ cfg.nodes, ∀ node ∈ cfg.nodes, tree.isDominator dom node = .ok true →
    tree.isDominator node dom = .ok true → dom = node
  trans : ∀ dom ∈ cfg.nodes, ∀ middle ∈ cfg.nodes, ∀ node ∈ cfg.nodes,
    tree.isDominator dom middle = .ok true → tree.isDominator middle node = .ok true →
      tree.isDominator dom node = .ok true
  entry : ∀ node ∈ cfg.nodes, tree.isDominator cfg.entryPoint node = .ok true

/-! ## The lists of the tree -/

/-- The lists belong to numbered nodes. -/
def OwnedLists (order : List Node) (tree : DominatorTree Node) : Prop :=
  ∀ id, tree.idommed id ≠ [] → ∃ owner ∈ order, id = tree.id owner

omit [DecidableEq Node] in
theorem calcIdom_owned {builder builder' : DomTreeBuilder Node} {tree tree' : DominatorTree Node}
    {time : DFSTime} (owned : OwnedLists builder.dfsTimes tree)
    (result : DomTreeBuilder.calcIdom (builder, tree) time = .ok (builder', tree')) :
    builder'.dfsTimes = builder.dfsTimes ∧ tree'.id = tree.id ∧
      OwnedLists builder.dfsTimes tree' := by
  rcases Result.bind_eq_ok.mp result with ⟨node, -, continued⟩
  rcases Result.bind_eq_ok.mp continued with ⟨nodeIdom, -, continued⟩
  rcases Result.bind_eq_ok.mp continued with ⟨sdom, -, continued⟩
  have chosen : ∃ idom idoms idomNode, FromDFSTimeMap.at builder.dfsTimes idom = .ok idomNode ∧
      ({ builder with idoms := idoms }, tree.addDommed idomNode node) = (builder', tree') := by
    dsimp only at continued
    split at continued <;>
    · rcases Result.bind_eq_ok.mp continued with ⟨idom, -, continued⟩
      rcases Result.bind_eq_ok.mp continued with ⟨idoms, -, continued⟩
      rcases Result.bind_eq_ok.mp continued with ⟨idomNode, found, equal⟩
      exact ⟨idom, idoms, idomNode, found, Except.ok.inj equal⟩
  rcases chosen with ⟨idom, idoms, idomNode, found, equal⟩
  cases equal
  refine ⟨rfl, rfl, ?_⟩
  intro id nonempty
  by_cases isOwner : id = tree.id idomNode
  · exact ⟨idomNode, List.mem_of_getElem? (FromDFSTimeMap.at_eq_ok.mp found), isOwner⟩
  · apply owned id
    simpa [DominatorTree.idommed, DominatorTree.addDommed, FromIdMap.insert, isOwner] using nonempty

omit [DecidableEq Node] in
theorem calcIdoms_owned {builder builder' : DomTreeBuilder Node} {tree tree' : DominatorTree Node}
    {times : List DFSTime} (owned : OwnedLists builder.dfsTimes tree)
    (result : times.foldlM DomTreeBuilder.calcIdom (builder, tree) = .ok (builder', tree')) :
    OwnedLists builder.dfsTimes tree' := by
  induction times generalizing builder tree with
  | nil =>
      cases result
      exact owned
  | cons time rest induction =>
      rw [List.foldlM_cons] at result
      rcases Result.bind_eq_ok.mp result with ⟨⟨next, nextTree⟩, first, later⟩
      rcases calcIdom_owned owned first with ⟨same, -, ownedNext⟩
      rw [← same] at ownedNext ⊢
      exact induction ownedNext later

/-- The lists of the built tree belong to blocks. -/
theorem buildDomTree_owned (built : buildDomTree cfg.toGraph = .ok tree) (isId : tree.id = cfg.id) :
    ∀ id, tree.idommed id ≠ [] → ∃ owner ∈ cfg.nodes, id = cfg.id owner := by
  have perm := preOrder_perm cfg
  rcases doDFS_numbered cfg.closed cfg.ids with ⟨numberedBuilder, numbering, numbered⟩
  rcases calcSdoms_building numbered perm (fun _ => preOrder_pred cfg) with
    ⟨builder, value, sdoms, building⟩
  have computed : builder.calcIdoms cfg.toGraph = .ok tree := by
    simpa only [buildDomTree, numbering, Result.ok_bind, sdoms] using built
  rcases Result.bind_eq_ok.mp computed with ⟨⟨last, filled⟩, filling, equal⟩
  cases equal
  have start : OwnedLists builder.dfsTimes
      { id := cfg.id, tree := fun _ => none, size := builder.dfsTimes.length } := by
    intro id nonempty
    exact absurd rfl nonempty
  intro id nonempty
  rcases calcIdoms_owned start filling id nonempty with ⟨owner, member, equal⟩
  rw [building.fixed.dfsTimes] at member
  exact ⟨owner, perm.mem_iff.mp member, isId ▸ equal⟩

/-! ## The tree -/

theorem dfsTime_eq {time : Nat} {node : Node}
    (placed : cfg.depthFirstSearchPreOrder[time]? = some node) : dfsTime cfg node = time := by
  rcases List.getElem?_eq_some_iff.mp placed with ⟨inside, rfl⟩
  exact preOrder_nodup.idxOf_getElem time inside

/-- A block hangs below one block only, or is the entry. -/
theorem TreeOf.hung_or_entry (treeOf : TreeOf cfg cfg.depthFirstSearchPreOrder value tree)
    {node : Node} (member : node ∈ cfg.nodes) (notEntry : node ≠ cfg.entryPoint) :
    ∃ owner ∈ cfg.nodes, Hung cfg.depthFirstSearchPreOrder value owner node ∧
      dfsTime cfg owner < dfsTime cfg node := by
  have perm := preOrder_perm cfg
  rcases List.mem_iff_getElem?.mp (perm.mem_iff.mpr member) with ⟨time, placed⟩
  have positive : 0 < time := by
    rw [Nat.pos_iff_ne_zero]
    rintro rfl
    exact notEntry (Option.some.inj (placed.symm.trans entry_placed))
  have inside := (List.getElem?_eq_some_iff.mp placed).1
  rcases treeOf.parents time positive inside with ⟨parent, isLower, isParent⟩
  have parentInside : parent < cfg.depthFirstSearchPreOrder.length := by omega
  have parentPlaced := List.getElem?_eq_getElem parentInside
  refine ⟨_, perm.mem_iff.mp (List.getElem_mem parentInside),
    ⟨parent, time, parentPlaced, placed, positive, isParent⟩, ?_⟩
  rw [dfsTime_eq parentPlaced, dfsTime_eq placed]
  exact isLower

theorem TreeOf.rooted (treeOf : TreeOf cfg cfg.depthFirstSearchPreOrder value tree)
    (ordered : Ordered cfg cfg.depthFirstSearchPreOrder)
    (owned : ∀ id, tree.idommed id ≠ [] → ∃ owner ∈ cfg.nodes, id = cfg.id owner) :
    Rooted cfg tree := by
  have perm := preOrder_perm cfg
  have inList : ∀ owner ∈ cfg.nodes, ∀ node, node ∈ tree.idommed (cfg.id owner) ↔
      Hung cfg.depthFirstSearchPreOrder value owner node := fun owner member node =>
    treeOf.mem_dommed ordered (perm.mem_iff.mpr member) node
  constructor
  case owner =>
    intro node member notEntry
    rcases treeOf.hung_or_entry member notEntry with ⟨owner, ownerMem, hung, earlier⟩
    refine ⟨owner, ownerMem, ?_, ?_, earlier⟩
    · exact List.count_eq_one_of_mem (treeOf.nodup _) ((inList owner ownerMem node).mpr hung)
    · intro id inOther
      rcases owned id (List.ne_nil_of_mem inOther) with ⟨other, otherMem, rfl⟩
      rw [((inList other otherMem node).mp inOther).unique ordered hung]
  case entry =>
    intro id inList'
    rcases owned id (List.ne_nil_of_mem inList') with ⟨owner, ownerMem, rfl⟩
    rcases (inList owner ownerMem _).mp inList' with ⟨time, other, -, otherAt, positive, -⟩
    exact absurd (ordered.position otherAt entry_placed) (Nat.ne_of_gt positive)

/-- All blocks are below the entry. -/
theorem TreeOf.below_entry (treeOf : TreeOf cfg cfg.depthFirstSearchPreOrder value tree)
    {node : Node} (member : node ∈ cfg.nodes) :
    Relation.ReflTransGen (Hung cfg.depthFirstSearchPreOrder value) cfg.entryPoint node := by
  induction time : dfsTime cfg node using Nat.strong_induction_on generalizing node with
  | _ time induction =>
      by_cases isEntry : node = cfg.entryPoint
      · rw [isEntry]
      · rcases treeOf.hung_or_entry member isEntry with ⟨owner, ownerMem, hung, earlier⟩
        rw [time] at earlier
        exact (induction _ earlier ownerMem rfl).tail hung

theorem TreeOf.ordersBlocks (treeOf : TreeOf cfg cfg.depthFirstSearchPreOrder value tree)
    (ordered : Ordered cfg cfg.depthFirstSearchPreOrder) : OrdersBlocks cfg tree := by
  have perm := preOrder_perm cfg
  have dominates : ∀ dom ∈ cfg.nodes, ∀ node, tree.isDominator dom node = .ok true ↔
      Relation.ReflTransGen (Hung cfg.depthFirstSearchPreOrder value) dom node :=
    fun dom member node => treeOf.isDominator ordered (perm.mem_iff.mpr member)
  constructor
  case returns =>
    intro dom domMem node _
    rcases treeOf.isDominator_returns ordered (perm.mem_iff.mpr domMem) node with ⟨answer, returned, -⟩
    exact ⟨answer, returned⟩
  case refl =>
    intro node _
    exact if_pos rfl
  case antisymm =>
    intro dom domMem node nodeMem first second
    rcases List.mem_iff_getElem?.mp (perm.mem_iff.mpr domMem) with ⟨domTime, domAt⟩
    rcases List.mem_iff_getElem?.mp (perm.mem_iff.mpr nodeMem) with ⟨nodeTime, nodeAt⟩
    have down := treeOf.later ordered ((dominates dom domMem node).mp first) domAt nodeAt
    have up := treeOf.later ordered ((dominates node nodeMem dom).mp second) nodeAt domAt
    rw [Nat.le_antisymm down up] at domAt
    exact Option.some.inj (domAt.symm.trans nodeAt)
  case trans =>
    intro dom domMem middle middleMem node _ first second
    rw [dominates dom domMem]
    exact ((dominates dom domMem middle).mp first).trans
      ((dominates middle middleMem node).mp second)
  case entry =>
    intro node member
    rw [dominates _ cfg.closed.entry_mem]
    exact treeOf.below_entry member

/-- The dominator structure of a flow graph is a tree rooted at its entry, right or not. -/
theorem buildDomTree_rooted (cfg : Cfg Node) :
    ∃ tree, buildDomTree cfg.toGraph = .ok tree ∧ Rooted cfg tree ∧ OrdersBlocks cfg tree := by
  have ordered : Ordered cfg cfg.depthFirstSearchPreOrder := .of_perm (preOrder_perm cfg)
  rcases buildDomTree_treeOf cfg with ⟨tree, value, built, -, -, treeOf⟩
  exact ⟨tree, built, treeOf.rooted ordered (buildDomTree_owned built treeOf.id),
    treeOf.ordersBlocks ordered⟩

end LeechJit.Graph
