import LeechJit.Graph.DomTreeSdoms

/-! # The rounds of `calcSdoms` -/

namespace LeechJit.Graph

open Semidominator

variable {Node : Type} [DecidableEq Node] {cfg : Cfg Node} {order : List Node}
  {value : Nat → Nat} {builder : DomTreeBuilder Node}

/-! ## One bucket -/

/-- `builder` differs from `start` in the disjoint sets and in the entries of
`idoms` for the nodes of `bucket`. -/
structure Filled (cfg : Cfg Node) (order : List Node) (value : Nat → Nat) (root : Nat)
    (start : DomTreeBuilder Node) (bucket : List Node) (builder : DomTreeBuilder Node) :
    Prop where
  fixed : Fixed cfg order builder
  vectors : Vectors order value builder
  forest : Forest order value root builder.dsu
  sdommed : builder.sdommed = start.sdommed
  filled : ∀ (time : Nat) (node : Node), order[time]? = some node → node ∈ bucket →
    ∃ idom, builder.idoms[time]? = some idom ∧ HalfIdom value time idom
  others : ∀ (time : Nat) (node : Node), order[time]? = some node → node ∉ bucket →
    builder.idoms[time]? = start.idoms[time]?

theorem Filled.step {root time : Nat} {start : DomTreeBuilder Node} {bucket : List Node}
    {dominatee : Node} (filled : Filled cfg order value root start bucket builder)
    (placed : order[time]? = some dominatee) (above : root < time)
    (isSdom : value time = root) :
    ∃ after, builder.fillIdom cfg.toGraph dominatee = .ok after ∧
      Filled cfg order value root start (bucket ++ [dominatee]) after := by
  have ⟨fixed, vectors, forest, sdommed, old, others⟩ := filled
  rcases fixed.find vectors forest placed with
    ⟨result, found, dsu, computed, foundPlaced, forest', -, isBest⟩
  have inside : time < order.length := (List.getElem?_eq_some_iff.mp placed).1
  have resultInside : result < order.length := (List.getElem?_eq_some_iff.mp foundPlaced).1
  have idomsInside : time < builder.idoms.length := by
    rw [vectors.idomsLength]
    exact inside
  have dominateeTime : DomTreeBuilder.timeOf cfg.toGraph { builder with dsu := dsu } dominatee =
      time := fixed.timeOf placed
  have foundTime : DomTreeBuilder.timeOf cfg.toGraph { builder with dsu := dsu } found =
      result := fixed.timeOf foundPlaced
  have ownSdom : FromDFSTimeMap.at builder.sdoms time = .ok (value time) :=
    FromDFSTimeMap.at_eq_ok.mpr (vectors.sdoms time inside)
  have bestSdom : FromDFSTimeMap.at builder.sdoms result = .ok (value result) :=
    FromDFSTimeMap.at_eq_ok.mpr (vectors.sdoms result resultInside)
  let idom := if value time = value result then value time else result
  have half : HalfIdom value time idom :=
    ⟨result, by rw [isSdom]; exact isBest (Nat.le_of_lt above), rfl⟩
  refine ⟨{ builder with dsu := dsu, idoms := builder.idoms.set time idom }, ?_,
    ⟨fixed.dfsTimes, fixed.times, fixed.dfsParents⟩,
    ⟨vectors.sdomsLength, by simpa using vectors.idomsLength, vectors.sdoms⟩,
    forest', sdommed, ?_, ?_⟩
  · simp only [DomTreeBuilder.fillIdom, computed, Result.ok_bind, dominateeTime, foundTime,
      ownSdom, bestSdom, FromDFSTimeMap.write_eq _ idomsInside]
    rfl
  · intro other node otherPlaced member
    by_cases same : other = time
    · subst same
      exact ⟨idom, List.getElem?_set_self idomsInside, half⟩
    · have apart : time ≠ other := fun equal => same equal.symm
      have inBucket : node ∈ bucket := by
        rcases List.mem_append.mp member with inBucket | isNew
        · exact inBucket
        · rw [List.mem_singleton] at isNew
          subst isNew
          have times := fixed.times other node otherPlaced
          rw [fixed.times time node placed] at times
          exact absurd (Option.some.inj times) apart
      simpa [List.getElem?_set_ne apart] using old other node otherPlaced inBucket
  · intro other node otherPlaced notMember
    rw [List.mem_append, List.mem_singleton, not_or] at notMember
    have apart : time ≠ other := by
      rintro rfl
      exact notMember.2 (Option.some.inj (otherPlaced.symm.trans placed))
    simpa [List.getElem?_set_ne apart] using others other node otherPlaced notMember.1

theorem Filled.run {root : Nat} {start : DomTreeBuilder Node} {bucket rest : List Node}
    (filled : Filled cfg order value root start bucket builder)
    (placed : ∀ dominatee ∈ rest, ∃ time : Nat, order[time]? = some dominatee ∧ root < time ∧
      value time = root) :
    ∃ after, rest.foldlM (DomTreeBuilder.fillIdom cfg.toGraph) builder = .ok after ∧
      Filled cfg order value root start (bucket ++ rest) after := by
  induction rest generalizing builder bucket with
  | nil => exact ⟨builder, rfl, by simpa using filled⟩
  | cons dominatee rest induction =>
      rcases placed dominatee List.mem_cons_self with ⟨time, timeAt, above, isSdom⟩
      rcases filled.step timeAt above isSdom with ⟨next, computed, filledNext⟩
      rcases induction filledNext fun other member =>
          placed other (List.mem_cons_of_mem _ member) with ⟨after, others, final⟩
      exact ⟨after, by simp [computed, others], by simpa using final⟩

/-! ## One round -/

/-- The builder when the nodes from `left` on are done. -/
structure Building (cfg : Cfg Node) (order : List Node) (left : Nat) (value : Nat → Nat)
    (builder : DomTreeBuilder Node) : Prop where
  fixed : Fixed cfg order builder
  vectors : Vectors order value builder
  forest : ∀ root, left = root + 1 → Forest order value root builder.dsu
  atMost : ∀ time, value time ≤ time
  untouched : ∀ time, time < left → value time = time
  below : ∀ time, left ≤ time → 0 < time → time < order.length → value time < time
  direct : ∀ pred time, left ≤ time → TimeEdge cfg order pred time → value time ≤ pred
  through : ∀ pred time, left ≤ time → TimeEdge cfg order pred time →
    ∀ middle, time < middle → middle ≤ pred → value time ≤ value middle
  attained : ∀ time, left ≤ time → 0 < time → time < order.length →
    ∃ pred, TimeEdge cfg order pred time ∧ (value time = pred ∨
      ∃ middle, time < middle ∧ middle ≤ pred ∧ value time = value middle)
  sdommed : ∀ (time : Nat) (node : Node), order[time]? = some node →
    ∀ dommed, dommed ∈ builder.sdommed (cfg.id node) ↔
      ∃ other, left ≤ other ∧ 0 < other ∧ order[other]? = some dommed ∧ value other = time
  idoms : ∀ time, left ≤ time → 0 < time → time < order.length → left ≤ value time →
    ∃ idom, builder.idoms[time]? = some idom ∧ HalfIdom value time idom

theorem HalfIdom.congr {left right : Nat → Nat} {node idom : Nat} (half : HalfIdom left node idom)
    (own : right node = left node)
    (same : ∀ time, left node ≤ time → time ≤ node → right time = left time) :
    HalfIdom right node idom := by
  rcases half with ⟨best, latest, equal⟩
  have low := latest.low_le
  have high := latest.le_high
  have sameBest := same best low high
  refine ⟨best, ?_, by rw [own, sameBest]; exact equal⟩
  rw [own]
  constructor
  case low_le => exact low
  case le_high => exact high
  case least =>
    intro other otherLow otherHigh
    rw [sameBest, same other otherLow otherHigh]
    exact latest.least other otherLow otherHigh
  case latest =>
    intro other isAbove otherHigh
    rw [sameBest, same other (by omega) otherHigh]
    exact latest.latest other isAbove otherHigh

/-- The predecessors of a block have DFS times. -/
theorem pred_times (perm : order.Perm cfg.nodes) {time : Nat} {node : Node}
    (placed : order[time]? = some node) :
    ∃ times : List Nat,
      List.Forall₂ (fun (time : Nat) pred => order[time]? = some pred) times (cfg.preds node) ∧
      ∀ pred, pred ∈ times ↔ TimeEdge cfg order pred time := by
  have nodup : order.Nodup := perm.nodup_iff.mpr cfg.closed.nodup
  have nodeMem := perm.mem_iff.mp (List.mem_of_getElem? placed)
  have numbered : ∀ pred ∈ cfg.preds node, order[order.idxOf pred]? = some pred := by
    intro pred member
    exact List.getElem?_idxOf (perm.mem_iff.mpr (cfg.preds_mem node nodeMem pred member))
  refine ⟨(cfg.preds node).map order.idxOf, ?_, fun pred => ?_⟩
  · rw [List.forall₂_map_left_iff, List.forall₂_same]
    exact numbered
  · rw [List.mem_map]
    constructor
    · rintro ⟨source, member, rfl⟩
      exact ⟨source, node, numbered source member, placed, member⟩
    · rintro ⟨source, target, sourceAt, targetAt, member⟩
      cases Option.some.inj (targetAt.symm.trans placed)
      have inside : order.idxOf source < order.length :=
        (List.getElem?_eq_some_iff.mp (numbered source member)).1
      exact ⟨source, member, (List.getElem?_inj inside nodup).mp
        ((numbered source member).trans sourceAt.symm)⟩

/-- What the round at `root` has done once its bucket is filled. -/
structure Rounded (cfg : Cfg Node) (order : List Node) (value : Nat → Nat) (root : Nat)
    (start : DomTreeBuilder Node) (least : Nat) (bucket : List Node)
    (builder : DomTreeBuilder Node) : Prop where
  seen : ∃ times, (∀ pred, pred ∈ times ↔ TimeEdge cfg order pred root) ∧
    LeastSeen value root times least
  small : 0 < root → least < root
  sdommed : ∀ (time : Nat) (node : Node), order[time]? = some node → ∀ dommed,
    dommed ∈ builder.sdommed (cfg.id node) ↔ dommed ∈ start.sdommed (cfg.id node) ∨
      (0 < root ∧ order[root]? = some dommed ∧ least = time)
  bucketEq : ∀ node, order[root]? = some node → bucket = start.sdommed (cfg.id node)
  filled : ∃ before, before.idoms = start.idoms ∧
    Filled cfg order (Function.update value root least) root before bucket builder

theorem Building.close {root least : Nat} {bucket : List Node} {after : DomTreeBuilder Node}
    {dsu : DSU Node} (building : Building cfg order (root + 1) value builder)
    (nodup : order.Nodup) (inside : root < order.length)
    (rounded : Rounded cfg order value root builder least bucket after)
    (linked : ∀ lower, root = lower + 1 →
      Forest order (Function.update value root least) lower dsu) :
    Building cfg order root (Function.update value root least) { after with dsu := dsu } := by
  rcases rounded.seen with ⟨times, times_iff, seen⟩
  rcases rounded.filled with ⟨before, sameIdoms, filled⟩
  have own : Function.update value root least root = least := Function.update_self ..
  have above : ∀ time, root < time → Function.update value root least time = value time :=
    fun time isAbove => Function.update_of_ne (Nat.ne_of_gt isAbove) ..
  have position : ∀ (left right : Nat) (node : Node), order[left]? = some node →
      order[right]? = some node → left = right := by
    intro left right node leftAt rightAt
    have leftInside : left < order.length := (List.getElem?_eq_some_iff.mp leftAt).1
    exact (List.getElem?_inj leftInside nodup).mp (leftAt.trans rightAt.symm)
  constructor
  case fixed => exact ⟨filled.fixed.dfsTimes, filled.fixed.times, filled.fixed.dfsParents⟩
  case vectors =>
    exact ⟨filled.vectors.sdomsLength, filled.vectors.idomsLength, filled.vectors.sdoms⟩
  case forest => exact linked
  case atMost =>
    intro time
    by_cases same : time = root
    · subst same
      rw [own]
      exact seen.le_root
    · rw [Function.update_of_ne same]
      exact building.atMost time
  case untouched =>
    intro time isBelow
    rw [Function.update_of_ne (Nat.ne_of_lt isBelow)]
    exact building.untouched time (by omega)
  case below =>
    intro time atLeast positive timeInside
    by_cases same : time = root
    · subst same
      rw [own]
      exact rounded.small positive
    · rw [above time (by omega)]
      exact building.below time (by omega) positive timeInside
  case direct =>
    intro pred time atLeast edge
    by_cases same : time = root
    · subst same
      rw [own]
      by_cases isLow : pred ≤ time
      · exact seen.direct pred ((times_iff pred).mpr edge) isLow
      · have bound := seen.le_root
        omega
    · rw [above time (by omega)]
      exact building.direct pred time (by omega) edge
  case through =>
    intro pred time atLeast edge middle isAbove atMost
    rw [above middle (by omega)]
    by_cases same : time = root
    · subst same
      rw [own]
      exact seen.through pred ((times_iff pred).mpr edge) middle isAbove atMost
    · rw [above time (by omega)]
      exact building.through pred time (by omega) edge middle isAbove atMost
  case attained =>
    intro time atLeast positive timeInside
    by_cases same : time = root
    · subst same
      rw [own]
      rcases seen.attained with atRoot | ⟨pred, member, reached⟩
      · have strict := rounded.small positive
        omega
      · refine ⟨pred, (times_iff pred).mp member, ?_⟩
        rcases reached with equal | ⟨middle, isAbove, atMost, equal⟩
        · exact .inl equal
        · exact .inr ⟨middle, isAbove, atMost, by rw [above middle isAbove]; exact equal⟩
    · rw [above time (by omega)]
      rcases building.attained time (by omega) positive timeInside with ⟨pred, edge, reached⟩
      refine ⟨pred, edge, ?_⟩
      rcases reached with equal | ⟨middle, isAbove, atMost, equal⟩
      · exact .inl equal
      · exact .inr ⟨middle, isAbove, atMost, by rw [above middle (by omega)]; exact equal⟩
  case sdommed =>
    intro time node placed dommed
    rw [rounded.sdommed time node placed, building.sdommed time node placed]
    constructor
    · rintro (⟨other, atLeast, positive, otherAt, equal⟩ | ⟨positive, rootAt, equal⟩)
      · exact ⟨other, by omega, positive, otherAt, by rw [above other (by omega)]; exact equal⟩
      · exact ⟨root, Nat.le_refl _, positive, rootAt, own.trans equal⟩
    · rintro ⟨other, atLeast, positive, otherAt, equal⟩
      by_cases same : other = root
      · subst same
        exact .inr ⟨positive, otherAt, own.symm.trans equal⟩
      · rw [above other (by omega)] at equal
        exact .inl ⟨other, by omega, positive, otherAt, equal⟩
  case idoms =>
    intro time atLeast positive timeInside valueAtLeast
    obtain ⟨node, placed⟩ : ∃ node, order[time]? = some node :=
      ⟨_, List.getElem?_eq_getElem timeInside⟩
    obtain ⟨rootNode, rootPlaced⟩ : ∃ node, order[root]? = some node :=
      ⟨_, List.getElem?_eq_getElem inside⟩
    by_cases same : time = root
    · subst same
      rw [own] at valueAtLeast
      have strict := rounded.small positive
      omega
    · have isAbove : root < time := by omega
      rw [above time isAbove] at valueAtLeast
      have inBucket : node ∈ bucket ↔ value time = root := by
        rw [rounded.bucketEq rootNode rootPlaced, building.sdommed root rootNode rootPlaced]
        constructor
        · rintro ⟨other, -, -, otherAt, equal⟩
          exact position other time node otherAt placed ▸ equal
        · intro equal
          exact ⟨time, by omega, positive, placed, equal⟩
      by_cases isSdom : value time = root
      · exact filled.filled time node placed (inBucket.mpr isSdom)
      · rcases building.idoms time (by omega) positive timeInside (by omega) with
          ⟨idom, stored, half⟩
        refine ⟨idom, ?_, half.congr (above time isAbove) fun other low high =>
          above other (by omega)⟩
        have kept := filled.others time node placed fun member => isSdom (inBucket.mp member)
        rw [sameIdoms] at kept
        exact kept.trans stored

/-- One round of `calcSdoms` handles one more node. -/
theorem Building.round {root : Nat} {node : Node}
    (building : Building cfg order (root + 1) value builder) (perm : order.Perm cfg.nodes)
    (parent : ∀ time, 0 < time → time < order.length →
      ∃ pred, pred < time ∧ TimeEdge cfg order pred time)
    (placed : order[root]? = some node) :
    ∃ after value', builder.calcSdom cfg.toGraph node = .ok after ∧
      Building cfg order root value' after := by
  have nodup : order.Nodup := perm.nodup_iff.mpr cfg.closed.nodup
  have inside : root < order.length := (List.getElem?_eq_some_iff.mp placed).1
  have startValue : Function.update value root root = value := by
    have own : value root = root := building.untouched root (by omega)
    calc
      Function.update value root root = Function.update value root (value root) := by rw [own]
      _ = value := Function.update_eq_self root value
  rcases pred_times perm placed with ⟨times, aligned, times_iff⟩
  have start : Lowering cfg order value root builder [] builder root :=
    { fixed := building.fixed
      vectors := by rw [startValue]; exact building.vectors
      forest := by rw [startValue]; exact building.forest root rfl
      least := ⟨Nat.le_refl _, by simp, by simp, .inl rfl⟩
      idoms := rfl
      sdommed := rfl }
  have untouched : ∀ other, other < root → value other = other := fun other isBelow =>
    building.untouched other (by omega)
  rcases start.run untouched inside aligned with ⟨lowered, least, preds, lowering⟩
  have ⟨fixed, vectors, forest, seen, idoms, sdommed⟩ := lowering
  rw [List.nil_append] at seen
  have nodeTime : builder.timeOf cfg.toGraph node = root := building.fixed.timeOf placed
  have sdomAt : FromDFSTimeMap.at lowered.sdoms root = .ok least :=
    FromDFSTimeMap.at_eq_ok.mpr (by simpa using vectors.sdoms root inside)
  have minSdom : builder.findMinSdom cfg.toGraph node = .ok (least, lowered) := by
    simp [DomTreeBuilder.findMinSdom, nodeTime, preds, sdomAt]
  obtain ⟨first, firstPlaced⟩ : ∃ first, order[0]? = some first :=
    ⟨_, List.getElem?_eq_getElem (by omega)⟩
  have firstAt : FromDFSTimeMap.at lowered.dfsTimes 0 = .ok first := by
    rw [fixed.dfsTimes]
    exact FromDFSTimeMap.at_eq_ok.mpr firstPlaced
  have small : 0 < root → least < root := by
    intro positive
    rcases parent root positive inside with ⟨pred, isLower, edge⟩
    have bound := seen.direct pred ((times_iff pred).mpr edge) (Nat.le_of_lt isLower)
    omega
  have bucketPlaced : ∀ dominatee ∈ builder.sdommed (cfg.id node), ∃ time : Nat,
      order[time]? = some dominatee ∧ root < time ∧
        Function.update value root least time = root := by
    intro dominatee member
    rcases (building.sdommed root node placed dominatee).mp member with
      ⟨time, atLeast, -, timeAt, equal⟩
    refine ⟨time, timeAt, by omega, ?_⟩
    rw [Function.update_of_ne (by omega)]
    exact equal
  cases root with
  | zero =>
      have isFirst : first = node := Option.some.inj (firstPlaced.symm.trans placed)
      subst isFirst
      have filledStart : Filled cfg order (Function.update value 0 least) 0 lowered [] lowered :=
        ⟨fixed, vectors, forest, rfl, by simp, by simp⟩
      have bucketPlaced' : ∀ dominatee ∈ lowered.sdommed (cfg.id first), ∃ time : Nat,
          order[time]? = some dominatee ∧ 0 < time ∧
            Function.update value 0 least time = 0 := by
        rw [sdommed]
        exact bucketPlaced
      rcases filledStart.run bucketPlaced' with ⟨after, computed, filled⟩
      have rounded : Rounded cfg order value 0 builder least
          ([] ++ lowered.sdommed (cfg.id first)) after :=
        { seen := ⟨times, times_iff, seen⟩
          small := small
          sdommed := by
            intro time other otherPlaced dommed
            rw [filled.sdommed, sdommed]
            simp
          bucketEq := by
            intro other otherPlaced
            cases Option.some.inj (otherPlaced.symm.trans placed)
            rw [List.nil_append, sdommed]
          filled := ⟨lowered, idoms, filled⟩ }
      have linked : ∀ lower, 0 = lower + 1 →
          Forest order (Function.update value 0 least) lower after.dsu := by
        intro lower equal
        omega
      refine ⟨after, _, ?_, building.close nodup inside rounded linked⟩
      simp [DomTreeBuilder.calcSdom, minSdom, firstAt, DomTreeBuilder.fillIdoms, computed]
  | succ lower =>
      have leastLt : least < lower + 1 := small (by omega)
      obtain ⟨leastNode, leastPlaced⟩ : ∃ leastNode, order[least]? = some leastNode :=
        ⟨_, List.getElem?_eq_getElem (by omega)⟩
      obtain ⟨prev, prevPlaced⟩ : ∃ prev, order[lower]? = some prev :=
        ⟨_, List.getElem?_eq_getElem (by omega)⟩
      have sameId : ∀ (left right : Nat) (leftNode rightNode : Node),
          order[left]? = some leftNode → order[right]? = some rightNode →
          cfg.id leftNode = cfg.id rightNode → left = right := by
        intro left right leftNode rightNode leftAt rightAt equal
        have leftTime := fixed.times left leftNode leftAt
        rw [equal, fixed.times right rightNode rightAt] at leftTime
        exact (Option.some.inj leftTime).symm
      have notFirst : node ≠ first := by
        rintro rfl
        have equal := sameId _ _ _ _ placed firstPlaced rfl
        omega
      have leastAt : FromDFSTimeMap.at lowered.dfsTimes least = .ok leastNode := by
        rw [fixed.dfsTimes]
        exact FromDFSTimeMap.at_eq_ok.mpr leastPlaced
      have otherBucket : cfg.id node ≠ cfg.id leastNode := by
        intro equal
        have same := sameId _ _ _ _ placed leastPlaced equal
        omega
      let marked : DomTreeBuilder Node :=
        { lowered with
          sdommed := fun id =>
            if id = cfg.id leastNode then lowered.sdommed id ++ [node]
            else lowered.sdommed id }
      have markedStart : Filled cfg order (Function.update value (lower + 1) least) (lower + 1)
          marked [] marked :=
        ⟨⟨fixed.dfsTimes, fixed.times, fixed.dfsParents⟩,
          ⟨vectors.sdomsLength, vectors.idomsLength, vectors.sdoms⟩, forest, rfl,
          by simp, by simp⟩
      have bucketSame : marked.sdommed (cfg.id node) = builder.sdommed (cfg.id node) := by
        simp [marked, otherBucket, sdommed]
      have bucketPlaced' : ∀ dominatee ∈ marked.sdommed (cfg.id node), ∃ time : Nat,
          order[time]? = some dominatee ∧ lower + 1 < time ∧
            Function.update value (lower + 1) least time = lower + 1 := by
        rw [bucketSame]
        exact bucketPlaced
      rcases markedStart.run bucketPlaced' with ⟨after, computed, filled⟩
      have parentAt : after.dfsParents.at (cfg.id node) = .ok prev :=
        FromIdMap.at_eq_ok.mpr (filled.fixed.dfsParents lower node prev placed prevPlaced)
      rcases filled.forest.unite (filled.fixed.numbered filled.vectors) placed prevPlaced with
        ⟨dsu, united, linked⟩
      have rounded : Rounded cfg order value (lower + 1) builder least
          ([] ++ marked.sdommed (cfg.id node)) after :=
        { seen := ⟨times, times_iff, seen⟩
          small := small
          sdommed := by
            intro time other otherPlaced dommed
            have isLeast : cfg.id other = cfg.id leastNode ↔ least = time := by
              constructor
              · exact fun equal => sameId _ _ _ _ leastPlaced otherPlaced equal.symm
              · rintro rfl
                rw [Option.some.inj (otherPlaced.symm.trans leastPlaced)]
            rw [filled.sdommed]
            by_cases same : cfg.id other = cfg.id leastNode
            · simp [marked, same, isLeast.mp same, placed, sdommed, eq_comm]
            · have apart : least ≠ time := fun equal => same (isLeast.mpr equal)
              simp [marked, same, apart, sdommed]
          bucketEq := by
            intro other otherPlaced
            cases Option.some.inj (otherPlaced.symm.trans placed)
            rw [List.nil_append, bucketSame]
          filled := ⟨marked, idoms, filled⟩ }
      have linkedLower : ∀ below, lower + 1 = below + 1 →
          Forest order (Function.update value (lower + 1) least) below dsu := by
        intro below equal
        cases equal
        exact linked
      refine ⟨{ after with dsu := dsu }, _, ?_,
        building.close nodup inside rounded linkedLower⟩
      have filledIn : marked.fillIdoms cfg.toGraph (cfg.id node) = .ok after := computed
      simp only [DomTreeBuilder.calcSdom, minSdom, firstAt, Result.ok_bind, notFirst, if_false,
        leastAt]
      rw [show (_ : Result (DomTreeBuilder Node)) = .ok after from filledIn]
      simp [parentAt, united]

/-! ## All rounds -/

theorem Building.run {left : Nat} (building : Building cfg order left value builder)
    (perm : order.Perm cfg.nodes)
    (parent : ∀ time, 0 < time → time < order.length →
      ∃ pred, pred < time ∧ TimeEdge cfg order pred time) (inside : left ≤ order.length) :
    ∃ after value', (order.take left).reverse.foldlM (DomTreeBuilder.calcSdom cfg.toGraph)
        builder = .ok after ∧ Building cfg order 0 value' after := by
  induction left generalizing value builder with
  | zero => exact ⟨builder, value, rfl, building⟩
  | succ left induction =>
      obtain ⟨node, placed⟩ : ∃ node, order[left]? = some node :=
        ⟨_, List.getElem?_eq_getElem (by omega)⟩
      rcases building.round perm parent placed with ⟨next, nextValue, first, built⟩
      rcases induction built (by omega) with ⟨after, value', others, final⟩
      have split : (order.take (left + 1)).reverse = node :: (order.take left).reverse := by
        rw [List.take_add_one, placed, Option.toList_some, List.reverse_append,
          List.reverse_singleton, List.singleton_append]
      refine ⟨after, value', ?_, final⟩
      rw [split, List.foldlM_cons, first]
      exact others

/-- The order of discovery, by times. -/
theorem preOrder_pred (cfg : Cfg Node) {time : Nat} (positive : 0 < time)
    (inside : time < cfg.depthFirstSearchPreOrder.length) :
    ∃ pred, pred < time ∧ TimeEdge cfg cfg.depthFirstSearchPreOrder pred time := by
  have perm := preOrder_perm cfg
  have split : cfg.depthFirstSearchPreOrder =
      cfg.depthFirstSearchPreOrder.take time ++
        cfg.depthFirstSearchPreOrder[time] :: cfg.depthFirstSearchPreOrder.drop (time + 1) := by
    rw [List.getElem_cons_drop, List.take_append_drop]
  have notFirst : cfg.depthFirstSearchPreOrder.take time ≠ [] := by
    intro isEmpty
    have lengths := congrArg List.length isEmpty
    rw [List.length_take, List.length_nil] at lengths
    omega
  rcases preOrder_parent split notFirst with ⟨parent, member, edge⟩
  rcases List.mem_iff_getElem?.mp member with ⟨pred, predAt⟩
  rw [List.getElem?_take] at predAt
  by_cases isLower : pred < time
  · rw [if_pos isLower] at predAt
    refine ⟨pred, isLower, parent, _, predAt, List.getElem?_eq_getElem inside, ?_⟩
    have parentMem := perm.mem_iff.mp (List.mem_of_getElem? predAt)
    exact (cfg.mem_preds_iff parentMem (perm.mem_iff.mp (List.getElem_mem inside))).mpr edge
  · rw [if_neg isLower] at predAt
    cases predAt

theorem NumberedUpTo.building (numbered : NumberedUpTo cfg.toGraph order builder)
    (perm : order.Perm cfg.nodes) :
    Building cfg order order.length (fun time => time)
      { builder with dsu := DSU.make builder.dfsTimes } := by
  have size : cfg.size = order.length := perm.length_eq.symm
  have edgeInside : ∀ pred time, TimeEdge cfg order pred time → time < order.length := by
    rintro pred time ⟨-, target, -, targetAt, -⟩
    exact (List.getElem?_eq_some_iff.mp targetAt).1
  constructor
  case fixed => exact ⟨numbered.dfsTimes, numbered.times, numbered.dfsParents⟩
  case vectors =>
    exact ⟨numbered.sdomsLength.trans size, numbered.idomsLength.trans size, numbered.sdoms⟩
  case forest =>
    intro root isLast
    have times := numbered.dfsTimes
    constructor
    case parentsLength => simp [DSU.make, times]
    case labelsLength => simp [DSU.make, times]
    case roots =>
      intro time inside below
      simp [DSU.make, times]
    case linked =>
      intro time inside above
      omega
  case atMost => exact fun time => Nat.le_refl time
  case untouched => exact fun time below => rfl
  case below =>
    intro time atLeast positive inside
    omega
  case direct =>
    intro pred time atLeast edge
    have inside := edgeInside pred time edge
    omega
  case through =>
    intro pred time atLeast edge
    have inside := edgeInside pred time edge
    omega
  case attained =>
    intro time atLeast positive inside
    omega
  case sdommed =>
    intro time node placed dommed
    rw [numbered.sdommed]
    constructor
    · intro member
      cases member
    · rintro ⟨other, atLeast, -, otherAt, -⟩
      have inside := (List.getElem?_eq_some_iff.mp otherAt).1
      omega
  case idoms =>
    intro time atLeast positive inside
    omega

/-- The numbers left when all rounds are done satisfy the semidominator equations. -/
theorem Building.equations (building : Building cfg order 0 value builder) :
    SemiEquations (TimeEdge cfg order) order.length value where
  below time positive inside := building.below time (Nat.zero_le _) positive inside
  direct pred time _ _ edge := building.direct pred time (Nat.zero_le _) edge
  through pred time _ edge := building.through pred time (Nat.zero_le _) edge
  attained time positive inside := by
    rcases building.attained time (Nat.zero_le _) positive inside with ⟨pred, edge, reached⟩
    have ⟨source, _, sourceAt, _⟩ := edge
    exact ⟨pred, (List.getElem?_eq_some_iff.mp sourceAt).1, edge, reached⟩

theorem calcSdoms_building (numbered : NumberedUpTo cfg.toGraph order builder)
    (perm : order.Perm cfg.nodes)
    (parent : ∀ time, 0 < time → time < order.length →
      ∃ pred, pred < time ∧ TimeEdge cfg order pred time) :
    ∃ after value, builder.calcSdoms cfg.toGraph = .ok after ∧
      Building cfg order 0 value after := by
  rcases (numbered.building perm).run perm parent (Nat.le_refl _) with
    ⟨after, value, computed, building⟩
  rw [List.take_length] at computed
  refine ⟨after, value, ?_, building⟩
  rw [DomTreeBuilder.calcSdoms, numbered.dfsTimes]
  rw [numbered.dfsTimes] at computed
  exact computed

end LeechJit.Graph
