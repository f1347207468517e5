import LeechJit.Graph.DomTreeRounds

/-! # The tree that `calcIdoms` fills -/

namespace LeechJit.Graph

open Semidominator

variable {Node : Type} [DecidableEq Node] {cfg : Cfg Node} {order : List Node}
  {value : Nat → Nat} {builder : DomTreeBuilder Node} {tree : DominatorTree Node}

/-- The node below which the tree hangs another, both by their times. -/
inductive TreeParent (value : Nat → Nat) : Nat → Nat → Prop where
  | semi {node best : Nat} (latest : IsLatestMin value (value node) node best)
      (settled : value best = value node ∨ best = value node) : TreeParent value node (value node)
  | shared {node best parent : Nat} (latest : IsLatestMin value (value node) node best)
      (different : value best ≠ value node) (notSemi : best ≠ value node)
      (same : TreeParent value best parent) : TreeParent value node parent

theorem TreeParent.unique {node left right : Nat} (first : TreeParent value node left)
    (second : TreeParent value node right) : left = right := by
  induction first with
  | semi latest settled =>
      cases second with
      | semi => rfl
      | shared other different notSemi _ =>
          rw [latest.unique other] at settled
          exact absurd settled (not_or.mpr ⟨different, notSemi⟩)
  | shared latest different notSemi _ induction =>
      cases second with
      | semi other settled =>
          rw [other.unique latest] at settled
          exact absurd settled (not_or.mpr ⟨different, notSemi⟩)
      | shared other _ _ same =>
          rw [other.unique latest] at same
          exact induction same

/-- The state of `calcIdoms` when the nodes before `front` hang in the tree. -/
structure Hanging (cfg : Cfg Node) (order : List Node) (value : Nat → Nat) (front : Nat)
    (builder : DomTreeBuilder Node) (tree : DominatorTree Node) : Prop where
  dfsTimes : builder.dfsTimes = order
  idomsLength : builder.idoms.length = order.length
  sdoms : ∀ time, time < order.length → builder.sdoms[time]? = some (value time)
  settled : ∀ time, 0 < time → time < front → time < order.length →
    ∃ parent, parent < time ∧ builder.idoms[time]? = some parent ∧ TreeParent value time parent
  half : ∀ time, 0 < time → front ≤ time → time < order.length →
    ∃ idom, builder.idoms[time]? = some idom ∧ HalfIdom value time idom
  id : tree.id = cfg.id
  size : tree.size = order.length
  dommed : ∀ (time : Nat) (node : Node), order[time]? = some node → ∀ child,
    child ∈ (tree.tree (cfg.id node)).getD [] ↔ ∃ other, 0 < other ∧ other < front ∧
      order[other]? = some child ∧ TreeParent value other time
  nodup : ∀ id, ((tree.tree id).getD []).Nodup

/-- The blocks are numbered by their positions in `order`, apart by their ids. -/
structure Ordered (cfg : Cfg Node) (order : List Node) : Prop where
  nodup : order.Nodup
  ids : ∀ (left right : Nat) (leftNode rightNode : Node), order[left]? = some leftNode →
    order[right]? = some rightNode → cfg.id leftNode = cfg.id rightNode → left = right

namespace Ordered

omit [DecidableEq Node] in
theorem position [DecidableEq Node] {cfg : Cfg Node} (ordered : Ordered cfg order)
    {left right : Nat} {node : Node} (leftAt : order[left]? = some node)
    (rightAt : order[right]? = some node) : left = right :=
  ordered.ids left right node node leftAt rightAt rfl

theorem of_perm (perm : order.Perm cfg.nodes) : Ordered cfg order where
  nodup := perm.nodup_iff.mpr cfg.closed.nodup
  ids left right leftNode rightNode leftAt rightAt equal := by
    have leftMem := perm.mem_iff.mp (List.mem_of_getElem? leftAt)
    have rightMem := perm.mem_iff.mp (List.mem_of_getElem? rightAt)
    have same := cfg.ids leftNode leftMem rightNode rightMem equal
    subst same
    have nodup : order.Nodup := perm.nodup_iff.mpr cfg.closed.nodup
    exact (List.getElem?_inj (List.getElem?_eq_some_iff.mp leftAt).1 nodup).mp
      (leftAt.trans rightAt.symm)

end Ordered

/-- `addDommed` hangs one more node. -/
theorem Hanging.hang {front parent : Nat} {node parentNode : Node}
    (hanging : Hanging cfg order value front builder tree) (ordered : Ordered cfg order)
    (positive : 0 < front) (placed : order[front]? = some node)
    (parentPlaced : order[parent]? = some parentNode) (parentLt : parent < front)
    (isParent : TreeParent value front parent) :
    Hanging cfg order value (front + 1) { builder with idoms := builder.idoms.set front parent }
      (tree.addDommed parentNode node) := by
  have inside : front < order.length := (List.getElem?_eq_some_iff.mp placed).1
  have idomsInside : front < builder.idoms.length := by
    rw [hanging.idomsLength]
    exact inside
  have idEq := hanging.id
  constructor
  case dfsTimes => exact hanging.dfsTimes
  case idomsLength => simpa using hanging.idomsLength
  case sdoms => exact hanging.sdoms
  case settled =>
    intro time timePositive isLower timeInside
    by_cases same : time = front
    · subst same
      exact ⟨parent, parentLt, List.getElem?_set_self idomsInside, isParent⟩
    · have apart : front ≠ time := fun equal => same equal.symm
      simpa [List.getElem?_set_ne apart] using
        hanging.settled time timePositive (by omega) timeInside
  case half =>
    intro time timePositive isHigher timeInside
    have apart : front ≠ time := by omega
    simpa [List.getElem?_set_ne apart] using
      hanging.half time timePositive (by omega) timeInside
  case id => exact hanging.id
  case size => exact hanging.size
  case dommed =>
    intro time other otherPlaced child
    have old := hanging.dommed time other otherPlaced child
    have more : (∃ later, 0 < later ∧ later < front + 1 ∧ order[later]? = some child ∧
          TreeParent value later time) ↔
        (∃ later, 0 < later ∧ later < front ∧ order[later]? = some child ∧
          TreeParent value later time) ∨ (child = node ∧ time = parent) := by
      constructor
      · rintro ⟨later, laterPositive, isLower, laterAt, hangs⟩
        by_cases same : later = front
        · subst same
          exact .inr ⟨Option.some.inj (laterAt.symm.trans placed), hangs.unique isParent⟩
        · exact .inl ⟨later, laterPositive, by omega, laterAt, hangs⟩
      · rintro (⟨later, laterPositive, isLower, laterAt, hangs⟩ | ⟨rfl, rfl⟩)
        · exact ⟨later, laterPositive, by omega, laterAt, hangs⟩
        · exact ⟨front, positive, Nat.lt_succ_self _, placed, isParent⟩
    rw [more, ← old]
    by_cases same : cfg.id other = cfg.id parentNode
    · have equal := ordered.ids time parent other parentNode otherPlaced parentPlaced same
      simp [DominatorTree.addDommed, FromIdMap.insert, idEq, same, equal]
    · have apart : time ≠ parent := by
        rintro rfl
        exact same (congrArg cfg.id (Option.some.inj (otherPlaced.symm.trans parentPlaced)))
      simp [DominatorTree.addDommed, FromIdMap.insert, idEq, same, apart]
  case nodup =>
    intro id
    by_cases same : id = cfg.id parentNode
    · have fresh : node ∉ (tree.tree (cfg.id parentNode)).getD [] := by
        intro member
        rcases (hanging.dommed parent parentNode parentPlaced node).mp member with
          ⟨other, -, isLower, otherAt, -⟩
        have equal := ordered.position otherAt placed
        omega
      have apart : ∀ other ∈ (tree.tree (cfg.id parentNode)).getD [], other ≠ node := by
        rintro other member rfl
        exact fresh member
      simpa [DominatorTree.addDommed, FromIdMap.insert, idEq, same, List.nodup_append] using
        ⟨hanging.nodup (cfg.id parentNode), apart⟩
    · simpa [DominatorTree.addDommed, FromIdMap.insert, idEq, same] using hanging.nodup id

theorem Hanging.step {front : Nat} (hanging : Hanging cfg order value front builder tree)
    (ordered : Ordered cfg order) (below : ∀ time, 0 < time → time < order.length →
      value time < time)
    (positive : 0 < front) (inside : front < order.length) :
    ∃ builder' tree', DomTreeBuilder.calcIdom (builder, tree) front = .ok (builder', tree') ∧
      Hanging cfg order value (front + 1) builder' tree' := by
  obtain ⟨node, placed⟩ : ∃ node, order[front]? = some node :=
    ⟨_, List.getElem?_eq_getElem inside⟩
  rcases hanging.half front positive (Nat.le_refl _) inside with ⟨idom, stored, half⟩
  rcases half with ⟨best, latest, halfEq⟩
  have small := below front positive inside
  have nodeAt : FromDFSTimeMap.at builder.dfsTimes front = .ok node := by
    rw [hanging.dfsTimes]
    exact FromDFSTimeMap.at_eq_ok.mpr placed
  have storedAt : FromDFSTimeMap.at builder.idoms front = .ok idom :=
    FromDFSTimeMap.at_eq_ok.mpr stored
  have sdomAt : FromDFSTimeMap.at builder.sdoms front = .ok (value front) :=
    FromDFSTimeMap.at_eq_ok.mpr (hanging.sdoms front inside)
  have idomsInside : front < builder.idoms.length := by
    rw [hanging.idomsLength]
    exact inside
  -- The node's final parent, and the read of `calcIdom` that finds it.
  have final : ∃ parent, parent < front ∧ TreeParent value front parent ∧
      (idom = value front ∧ parent = idom ∨
        idom ≠ value front ∧ FromDFSTimeMap.at builder.idoms idom = .ok parent) := by
    by_cases sameSemi : value best = value front
    · have idomEq : idom = value front := by
        rw [halfEq, if_pos sameSemi.symm]
      exact ⟨value front, small, .semi latest (.inl sameSemi), .inl ⟨idomEq, idomEq.symm⟩⟩
    · have idomEq : idom = best := by
        rw [halfEq, if_neg fun equal => sameSemi equal.symm]
      by_cases isSemi : best = value front
      · have equal := idomEq.trans isSemi
        exact ⟨value front, small, .semi latest (.inr isSemi), .inl ⟨equal, equal.symm⟩⟩
      · have low := latest.low_le
        have high := latest.le_high
        have notSelf : best ≠ front := by
          rintro rfl
          exact sameSemi rfl
        rcases hanging.settled best (by omega) (by omega) (by omega) with
          ⟨parent, isLower, parentStored, isParent⟩
        subst idomEq
        exact ⟨parent, by omega, .shared latest sameSemi isSemi isParent,
          .inr ⟨isSemi, FromDFSTimeMap.at_eq_ok.mpr parentStored⟩⟩
  rcases final with ⟨parent, isLower, isParent, read⟩
  obtain ⟨parentNode, parentPlaced⟩ : ∃ other, order[parent]? = some other :=
    ⟨_, List.getElem?_eq_getElem (by omega)⟩
  have parentAt : FromDFSTimeMap.at builder.dfsTimes parent = .ok parentNode := by
    rw [hanging.dfsTimes]
    exact FromDFSTimeMap.at_eq_ok.mpr parentPlaced
  refine ⟨_, _, ?_, hanging.hang ordered positive placed parentPlaced isLower isParent⟩
  have written := FromDFSTimeMap.write_eq parent idomsInside
  cases read with
  | inl isSemi => simp [DomTreeBuilder.calcIdom, nodeAt, storedAt, sdomAt, ← isSemi.1,
      ← isSemi.2, written, parentAt]
  | inr isShared => simp [DomTreeBuilder.calcIdom, nodeAt, storedAt, sdomAt, isShared.1,
      isShared.2, written, parentAt]

theorem Hanging.run {front count : Nat} (hanging : Hanging cfg order value front builder tree)
    (ordered : Ordered cfg order) (below : ∀ time, 0 < time → time < order.length →
      value time < time)
    (positive : 0 < front) (inside : front + count ≤ order.length) :
    ∃ builder' tree', (List.range' front count).foldlM DomTreeBuilder.calcIdom (builder, tree) =
        .ok (builder', tree') ∧
      Hanging cfg order value (front + count) builder' tree' := by
  induction count generalizing front builder tree with
  | zero => exact ⟨builder, tree, rfl, hanging⟩
  | succ count induction =>
      rcases hanging.step ordered below positive (by omega) with
        ⟨nextBuilder, nextTree, first, hung⟩
      rcases induction hung (by omega) (by omega) with ⟨builder', tree', others, final⟩
      refine ⟨builder', tree', ?_, ?_⟩
      · rw [List.range'_succ, List.foldlM_cons, first]
        exact others
      · rw [Nat.add_assoc, Nat.add_comm 1 count] at final
        exact final

/-- What the built tree holds. -/
structure TreeOf (cfg : Cfg Node) (order : List Node) (value : Nat → Nat)
    (tree : DominatorTree Node) : Prop where
  id : tree.id = cfg.id
  size : tree.size = order.length
  dommed : ∀ (time : Nat) (node : Node), order[time]? = some node → ∀ child,
    child ∈ (tree.tree (cfg.id node)).getD [] ↔ ∃ other, 0 < other ∧
      order[other]? = some child ∧ TreeParent value other time
  nodup : ∀ id, ((tree.tree id).getD []).Nodup
  parents : ∀ time, 0 < time → time < order.length →
    ∃ parent, parent < time ∧ TreeParent value time parent

theorem Building.calcIdoms (building : Building cfg order 0 value builder)
    (ordered : Ordered cfg order) (nonempty : 0 < order.length) :
    ∃ tree, builder.calcIdoms cfg.toGraph = .ok tree ∧ TreeOf cfg order value tree := by
  have below : ∀ time, 0 < time → time < order.length → value time < time :=
    fun time positive inside => building.below time (Nat.zero_le _) positive inside
  have start : Hanging cfg order value 1 builder
      { id := cfg.id, tree := fun _ => none, size := builder.dfsTimes.length } := by
    constructor
    case dfsTimes => exact building.fixed.dfsTimes
    case idomsLength => exact building.vectors.idomsLength
    case sdoms => exact building.vectors.sdoms
    case settled =>
      intro time positive isLower inside
      omega
    case half =>
      intro time positive isHigher inside
      exact building.idoms time (Nat.zero_le _) positive inside (Nat.zero_le _)
    case id => rfl
    case size => rw [building.fixed.dfsTimes]
    case dommed =>
      intro time node placed child
      constructor
      · intro member
        cases member
      · rintro ⟨other, positive, isLower, -⟩
        omega
    case nodup => exact fun id => List.nodup_nil
  have count : 1 + (order.length - 1) = order.length := by omega
  rcases start.run ordered below Nat.zero_lt_one (Nat.le_of_eq count) with
    ⟨builder', tree, computed, hanging⟩
  rw [count] at hanging
  refine ⟨tree, ?_, ⟨hanging.id, hanging.size, ?_, hanging.nodup, ?_⟩⟩
  · have times : (List.range builder.dfsTimes.length).tail =
        List.range' 1 (order.length - 1) := by
      rw [building.fixed.dfsTimes, List.range_eq_range', List.tail_range']
    simp only [DomTreeBuilder.calcIdoms, times]
    rw [computed]
    rfl
  · intro time node placed child
    rw [hanging.dommed time node placed child]
    constructor
    · rintro ⟨other, positive, -, otherAt, hangs⟩
      exact ⟨other, positive, otherAt, hangs⟩
    · rintro ⟨other, positive, otherAt, hangs⟩
      exact ⟨other, positive, (List.getElem?_eq_some_iff.mp otherAt).1, otherAt, hangs⟩
  · intro time positive inside
    rcases hanging.settled time positive inside inside with ⟨parent, isLower, -, isParent⟩
    exact ⟨parent, isLower, isParent⟩

/-- Building the tree of a flow graph succeeds. -/
theorem buildDomTree_treeOf (cfg : Cfg Node) :
    ∃ tree value, buildDomTree cfg.toGraph = .ok tree ∧
      (∀ time, value time ≤ time) ∧
      SemiEquations (TimeEdge cfg cfg.depthFirstSearchPreOrder)
        cfg.depthFirstSearchPreOrder.length value ∧
      TreeOf cfg cfg.depthFirstSearchPreOrder value tree := by
  have perm := preOrder_perm cfg
  have nonempty : 0 < cfg.depthFirstSearchPreOrder.length := by
    rw [perm.length_eq]
    exact List.length_pos_of_mem cfg.closed.entry_mem
  rcases doDFS_numbered cfg.closed cfg.ids with ⟨numberedBuilder, numbering, numbered⟩
  rcases calcSdoms_building numbered perm (fun _ => preOrder_pred cfg) with
    ⟨builder, value, sdoms, building⟩
  rcases building.calcIdoms (.of_perm perm) nonempty with ⟨tree, idoms, treeOf⟩
  refine ⟨tree, value, ?_, building.atMost, building.equations, treeOf⟩
  simp only [buildDomTree, numbering, Result.ok_bind, sdoms, idoms]

end LeechJit.Graph
