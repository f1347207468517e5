import LeechJit.Graph.DomTreeDfs

/-! # The semidominators the builder computes

`calcSdoms` goes over the nodes from the last discovered to the first. The root
of the forest is the node it is about to handle: those above have their final
semidominators and are linked, those below are untouched.
-/

namespace LeechJit.Graph

open Semidominator

variable {Node : Type} [DecidableEq Node]

/-- An edge between DFS times, seen from the predecessor list. -/
def TimeEdge (cfg : Cfg Node) (order : List Node) (pred node : Nat) : Prop :=
  ∃ source target, order[pred]? = some source ∧ order[node]? = some target ∧
    source ∈ cfg.preds target

/-- What `fillIdoms` stores for a node: its semidominator or the node that shares
its immediate dominator. -/
def HalfIdom (value : Nat → Nat) (node idom : Nat) : Prop :=
  ∃ best, IsLatestMin value (value node) node best ∧
    idom = if value node = value best then value node else best

/-- The parts of the builder that `calcSdoms` only reads. -/
structure Fixed (cfg : Cfg Node) (order : List Node) (builder : DomTreeBuilder Node) :
    Prop where
  dfsTimes : builder.dfsTimes = order
  times : ∀ time node, order[time]? = some node →
    builder.revIdMap (cfg.id node) = some time
  dfsParents : ∀ time node prev, order[time + 1]? = some node → order[time]? = some prev →
    builder.dfsParents (cfg.id node) = some prev

/-- The vectors of the builder, with the semidominators known so far. -/
structure Vectors (order : List Node) (value : Nat → Nat) (builder : DomTreeBuilder Node) :
    Prop where
  sdomsLength : builder.sdoms.length = order.length
  idomsLength : builder.idoms.length = order.length
  sdoms : ∀ time, time < order.length → builder.sdoms[time]? = some (value time)

variable {cfg : Cfg Node} {order : List Node} {value : Nat → Nat}
  {builder : DomTreeBuilder Node}

theorem Fixed.numbered (fixed : Fixed cfg order builder)
    (vectors : Vectors order value builder) :
    Numbered (builder.context cfg.toGraph) order value where
  times := fixed.times
  sdoms := vectors.sdoms

theorem Fixed.timeOf (fixed : Fixed cfg order builder) {time : Nat} {node : Node}
    (placed : order[time]? = some node) : builder.timeOf cfg.toGraph node = time := by
  simp [DomTreeBuilder.timeOf, fixed.times time node placed]

omit [DecidableEq Node] in
/-- Lowering the root's semidominator does not disturb the forest above it. -/
theorem Forest.lower {root : Nat} {dsu : DSU Node} {lowered : Nat → Nat}
    (forest : Forest order value root dsu) (same : ∀ time, root < time → lowered time = value time)
    (lower : lowered root ≤ value root) : Forest order lowered root dsu where
  parentsLength := forest.parentsLength
  labelsLength := forest.labelsLength
  roots := forest.roots
  linked time inside above := by
    rcases forest.linked time inside above with ⟨parent, label, parentAt, labelAt, linked⟩
    have rootLe := linked.root_le
    have parentLe := linked.parent_le
    have labelLower : lowered label ≤ value label := by
      by_cases isRoot : label = root
      · rw [isRoot]
        exact lower
      · exact Nat.le_of_eq (same label (by omega))
    refine ⟨parent, label, parentAt, labelAt,
      ⟨rootLe, linked.parent_lt, parentLe, linked.label_le, ?_, ?_⟩⟩
    · intro other isAbove atMost
      rw [same other (by omega)]
      exact Nat.le_trans labelLower (linked.least other isAbove atMost)
    · intro other isAbove atMost
      rw [same other (by omega)]
      exact Nat.lt_of_le_of_lt labelLower (linked.latest other isAbove atMost)

omit [DecidableEq Node] in
/-- Linking the root to the node before it makes that node the root. -/
theorem Forest.unite {root : Nat} {dsu : DSU Node} {context : DSUContext Node} {node prev : Node}
    (numbered : Numbered context order value) (forest : Forest order value (root + 1) dsu)
    (placed : order[root + 1]? = some node) (prevPlaced : order[root]? = some prev) :
    ∃ after, DSU.unite context dsu node prev = .ok after ∧ Forest order value root after := by
  have inside : root + 1 < order.length := (List.getElem?_eq_some_iff.mp placed).1
  have parentsInside : root + 1 < dsu.parents.length := by
    rw [forest.parentsLength]
    exact inside
  have read : FromDFSTimeMap.at dsu.parents (root + 1) = .ok dsu.parents[root + 1] :=
    FromDFSTimeMap.at_eq_ok.mpr (List.getElem?_eq_getElem parentsInside)
  refine ⟨{ dsu with parents := dsu.parents.set (root + 1) prev },
    by simp [DSU.unite, numbered.getNodeTime placed, read], ?_⟩
  constructor
  case parentsLength => simpa using forest.parentsLength
  case labelsLength => exact forest.labelsLength
  case roots =>
    intro time timeInside below
    have apart : root + 1 ≠ time := by omega
    simpa [List.getElem?_set_ne apart] using forest.roots time timeInside (by omega)
  case linked =>
    intro time timeInside above
    by_cases isNew : time = root + 1
    · subst isNew
      have own := forest.roots (root + 1) inside (Nat.le_refl _)
      refine ⟨root, root + 1, ?_, own.2, ⟨Nat.le_refl _, by omega, by omega, Nat.le_refl _,
        fun other isAbove atMost => ?_, fun other isAbove atMost => by omega⟩⟩
      · rw [prevPlaced]
        exact List.getElem?_set_self parentsInside
      · have equal : other = root + 1 := by omega
        exact Nat.le_of_eq (equal ▸ rfl)
    · have apart : root + 1 ≠ time := fun equal => isNew equal.symm
      rcases forest.linked time timeInside (by omega) with
        ⟨parent, label, parentAt, labelAt, linked⟩
      have rootLe := linked.root_le
      exact ⟨parent, label, by simpa [List.getElem?_set_ne apart] using parentAt, labelAt,
        ⟨by omega, linked.parent_lt, linked.parent_le, linked.label_le, linked.least,
          linked.latest⟩⟩

/-! ## `find` on the builder -/

theorem Fixed.find {root : Nat} (fixed : Fixed cfg order builder)
    (vectors : Vectors order value builder) (forest : Forest order value root builder.dsu)
    {time : Nat} {node : Node} (placed : order[time]? = some node) :
    ∃ result found dsu, builder.find cfg.toGraph node =
        .ok (found, { builder with dsu := dsu }) ∧
      order[result]? = some found ∧ Forest order value root dsu ∧
      (time ≤ root → result = time) ∧
      (root ≤ time → IsLatestMin value root time result) := by
  have inside : time < order.length := (List.getElem?_eq_some_iff.mp placed).1
  have enough : time < builder.dfsTimes.length := by
    rw [fixed.dfsTimes]
    exact inside
  rcases forest.find (fixed.numbered vectors) placed enough with
    ⟨result, found, dsu, computed, facts⟩
  exact ⟨result, found, dsu, by simp [DomTreeBuilder.find, computed], facts.placed,
    facts.forest, facts.isRoot, facts.isBest⟩

/-! ## The semidominator of one node -/

/-- The least number seen at some predecessors of `root`, starting from `root`. -/
structure LeastSeen (value : Nat → Nat) (root : Nat) (seen : List Nat) (least : Nat) :
    Prop where
  le_root : least ≤ root
  direct : ∀ pred ∈ seen, pred ≤ root → least ≤ pred
  through : ∀ pred ∈ seen, ∀ middle, root < middle → middle ≤ pred → least ≤ value middle
  attained : least = root ∨ ∃ pred ∈ seen, least = pred ∨
    ∃ middle, root < middle ∧ middle ≤ pred ∧ least = value middle

omit [DecidableEq Node] in
theorem Vectors.lower {root : Nat} (vectors : Vectors order value builder)
    (inside : root < order.length) (least : Nat) (dsu : DSU Node) :
    Vectors order (Function.update value root least)
      { builder with dsu := dsu, sdoms := builder.sdoms.set root least } where
  sdomsLength := by simpa using vectors.sdomsLength
  idomsLength := vectors.idomsLength
  sdoms time timeInside := by
    by_cases same : time = root
    · subst same
      rw [Function.update_self]
      exact List.getElem?_set_self (by rw [vectors.sdomsLength]; exact inside)
    · have apart : root ≠ time := fun equal => same equal.symm
      rw [Function.update_of_ne same]
      simpa [List.getElem?_set_ne apart] using vectors.sdoms time timeInside

/-- `builder` differs from `start` in the disjoint sets and the root's semidominator. -/
structure Lowering (cfg : Cfg Node) (order : List Node) (value : Nat → Nat) (root : Nat)
    (start : DomTreeBuilder Node) (seen : List Nat) (builder : DomTreeBuilder Node)
    (least : Nat) : Prop where
  fixed : Fixed cfg order builder
  vectors : Vectors order (Function.update value root least) builder
  forest : Forest order (Function.update value root least) root builder.dsu
  least : LeastSeen value root seen least
  idoms : builder.idoms = start.idoms
  sdommed : builder.sdommed = start.sdommed

theorem Lowering.step {root least time : Nat} {start : DomTreeBuilder Node} {seen : List Nat}
    {pred : Node} (lowering : Lowering cfg order value root start seen builder least)
    (untouched : ∀ other, other < root → value other = other) (inside : root < order.length)
    (placed : order[time]? = some pred) :
    ∃ after least', builder.lowerSdom cfg.toGraph root pred = .ok after ∧
      Lowering cfg order value root start (seen ++ [time]) after least' := by
  have ⟨fixed, vectors, forest, seenLeast, idoms, sdommed⟩ := lowering
  rcases fixed.find vectors forest placed with
    ⟨result, found, dsu, computed, foundPlaced, forest', isRoot, isBest⟩
  have resultInside : result < order.length := (List.getElem?_eq_some_iff.mp foundPlaced).1
  have rootLength : root < builder.sdoms.length := by
    rw [vectors.sdomsLength]
    exact inside
  have own : FromDFSTimeMap.at builder.sdoms root = .ok least :=
    FromDFSTimeMap.at_eq_ok.mpr (by simpa using vectors.sdoms root inside)
  have other : FromDFSTimeMap.at builder.sdoms result =
      .ok (Function.update value root least result) :=
    FromDFSTimeMap.at_eq_ok.mpr (vectors.sdoms result resultInside)
  have foundTime : DomTreeBuilder.timeOf cfg.toGraph { builder with dsu := dsu } found = result :=
    fixed.timeOf foundPlaced
  let least' := min least (Function.update value root least result)
  have again : Function.update (Function.update value root least) root least' =
      Function.update value root least' := Function.update_idem _ _ _
  refine ⟨{ builder with dsu := dsu, sdoms := builder.sdoms.set root least' }, least', ?_,
    ⟨fixed.dfsTimes, fixed.times, fixed.dfsParents⟩, ?_, ?_, ?_, idoms, sdommed⟩
  · simp only [DomTreeBuilder.lowerSdom, computed, Result.ok_bind, foundTime, own, other,
      FromDFSTimeMap.write_eq _ rootLength]
    rfl
  · have lowered := vectors.lower inside least' dsu
    rw [again] at lowered
    exact lowered
  · apply forest'.lower
    · intro above isAbove
      have apart : above ≠ root := by omega
      simp [apart]
    · rw [Function.update_self, Function.update_self]
      exact Nat.min_le_left _ _
  · -- The call contributes the least value between the root and the predecessor.
    constructor
    case le_root => exact Nat.le_trans (Nat.min_le_left _ _) seenLeast.le_root
    case direct =>
      intro other member small
      rw [List.mem_append, List.mem_singleton] at member
      cases member with
      | inl old => exact Nat.le_trans (Nat.min_le_left _ _) (seenLeast.direct other old small)
      | inr new =>
          subst new
          have same := isRoot small
          by_cases atRoot : other = root
          · rw [atRoot]
            exact Nat.le_trans (Nat.min_le_left _ _) seenLeast.le_root
          · have below : other < root := by omega
            have known : Function.update value root least result = other := by
              rw [same, Function.update_of_ne atRoot, untouched other below]
            exact known ▸ Nat.min_le_right _ _
    case through =>
      intro other member middle isAbove atMost
      rw [List.mem_append, List.mem_singleton] at member
      cases member with
      | inl old =>
          exact Nat.le_trans (Nat.min_le_left _ _)
            (seenLeast.through other old middle isAbove atMost)
      | inr new =>
          subst new
          have best := (isBest (by omega)).least middle (by omega) atMost
          have apart : middle ≠ root := by omega
          rw [Function.update_of_ne apart] at best
          exact Nat.le_trans (Nat.min_le_right _ _) best
    case attained =>
      by_cases smaller : Function.update value root least result < least
      · right
        have equal : least' = Function.update value root least result :=
          Nat.min_eq_right (Nat.le_of_lt smaller)
        have notRoot : result ≠ root := by
          rintro rfl
          rw [Function.update_self] at smaller
          omega
        rw [Function.update_of_ne notRoot] at equal
        refine ⟨time, by simp, ?_⟩
        by_cases small : time ≤ root
        · left
          have same := isRoot small
          subst same
          rw [equal, untouched result (by omega)]
        · right
          have best := isBest (by omega)
          have low := best.low_le
          exact ⟨result, by omega, best.le_high, equal⟩
      · have equal : least' = least := Nat.min_eq_left (Nat.le_of_not_lt smaller)
        rw [equal]
        rcases seenLeast.attained with atRoot | ⟨pred, member, reached⟩
        · exact .inl atRoot
        · exact .inr ⟨pred, List.mem_append_left _ member, reached⟩

theorem Lowering.run {root least : Nat} {start : DomTreeBuilder Node} {seen : List Nat}
    {preds : List Node} (lowering : Lowering cfg order value root start seen builder least)
    (untouched : ∀ other, other < root → value other = other) (inside : root < order.length)
    {times : List Nat} (placed : List.Forall₂ (fun time pred => order[time]? = some pred)
      times preds) :
    ∃ after least', preds.foldlM (DomTreeBuilder.lowerSdom cfg.toGraph root) builder =
        .ok after ∧
      Lowering cfg order value root start (seen ++ times) after least' := by
  induction placed generalizing builder seen least with
  | nil => exact ⟨builder, least, rfl, by simpa using lowering⟩
  | cons first _ induction =>
      rename_i time pred times preds
      rcases lowering.step untouched inside first with ⟨next, nextLeast, computed, lowered⟩
      rcases induction lowered with ⟨after, final, others, finished⟩
      exact ⟨after, final, by simp [computed, others], by simpa using finished⟩

end LeechJit.Graph
