import LeechJit.Foundation.Semidominator
import LeechJit.Graph.DsuPaths

/-! # What `find` returns

The forest the builder makes is a chain: every linked node hangs, perhaps
through compressed links, below the node numbered just before it. `find` returns
the last node of least semidominator between the root and the node asked for,
the root included.
-/

namespace LeechJit.Graph

open LinkedPaths Semidominator

variable {Node : Type}

/-- What a linked node knows: `label` is best on the way up to `parent`. -/
structure Linked (value : Nat → Nat) (root time parent label : Nat) : Prop where
  root_le : root ≤ parent
  parent_lt : parent < time
  parent_le : parent ≤ label
  label_le : label ≤ time
  least : ∀ other, parent < other → other ≤ time → value label ≤ value other
  latest : ∀ other, label < other → other ≤ time → value label < value other

/-- The forest when the nodes above `root` are linked. -/
structure Forest (order : List Node) (value : Nat → Nat) (root : Nat) (dsu : DSU Node) :
    Prop where
  parentsLength : dsu.parents.length = order.length
  labelsLength : dsu.labels.length = order.length
  roots : ∀ time, time < order.length → time ≤ root →
    dsu.parents[time]? = order[time]? ∧ dsu.labels[time]? = order[time]?
  linked : ∀ time, time < order.length → root < time → ∃ parent label,
    dsu.parents[time]? = order[parent]? ∧ dsu.labels[time]? = order[label]? ∧
      Linked value root time parent label

/-! ## The chain -/

section Chain

variable {value : Nat → Nat} {root time : Nat}

/-- Every number behind `root` is linked to the one before. -/
def chain (root : Nat) : Nat → Option Nat :=
  fun time => if root < time then some (time - 1) else none

theorem chain_descending : Descending (chain root) := by
  intro time parent link
  by_cases linked : root < time
  · rw [chain, if_pos linked, Option.some.injEq] at link
    omega
  · rw [chain, if_neg linked] at link
    cases link

theorem chain_eq_none : chain root time = none ↔ time ≤ root := by
  by_cases linked : root < time
  · simp [chain, linked]
  · simp [chain, linked, Nat.le_of_not_lt linked]

theorem above_chain {upper : Nat} :
    Above (chain root) upper time ↔ upper = time ∨ (root ≤ upper ∧ upper ≤ time) := by
  constructor
  · intro above
    induction above with
    | refl => exact .inl rfl
    | @step time parent link _ induction =>
        by_cases linked : root < time
        · rw [chain, if_pos linked, Option.some.injEq] at link
          omega
        · rw [chain, if_neg linked] at link
          cases link
  · intro between
    induction time with
    | zero =>
        have same : upper = 0 := by omega
        rw [same]
        exact .refl
    | succ time induction =>
        by_cases same : upper = time + 1
        · rw [same]
          exact .refl
        · have link : chain root (time + 1) = some time := by
            rw [chain, if_pos (by omega), Nat.add_sub_cancel]
          exact .step link (induction (by omega))

theorem Linked.hangs {parent label : Nat} (linked : Linked value root time parent label) :
    Hangs (chain root) value time parent label := by
  have rootLe := linked.root_le
  have parentLe := linked.parent_le
  have labelLe := linked.label_le
  refine ⟨linked.parent_lt, above_chain.mpr (by omega), above_chain.mpr (by omega),
    fun other above less => ?_, fun other above less => ?_⟩
  · have between := above_chain.mp above
    exact linked.least other less (by omega)
  · have between := above_chain.mp above
    exact linked.latest other less (by omega)

theorem Linked.of_hangs {parent label : Nat}
    (hangs : Hangs (chain root) value time parent label) :
    Linked value root time parent label := by
  have parentLt := hangs.parent_lt
  have parentBetween := above_chain.mp hangs.parent_above
  have labelBetween := above_chain.mp hangs.label_above
  have parentLe := hangs.label_below.le chain_descending
  refine ⟨by omega, by omega, by omega, by omega, fun other less le => ?_, fun other less le => ?_⟩
  · exact hangs.least other (above_chain.mpr (by omega)) less
  · exact hangs.first other (above_chain.mpr (by omega)) less

end Chain

variable {context : DSUContext Node} {order : List Node} {value : Nat → Nat}

theorem forest_iff_links {root : Nat} {dsu : DSU Node} :
    Forest order value root dsu ↔ LinkForest order (chain root) value dsu := by
  constructor
  · intro forest
    refine ⟨forest.parentsLength, forest.labelsLength, fun time inside isRoot =>
      forest.roots time inside (chain_eq_none.mp isRoot), fun time inside isLinked => ?_⟩
    rw [Ne, chain_eq_none, Nat.not_le] at isLinked
    rcases forest.linked time inside isLinked with ⟨parent, label, parentAt, labelAt, linked⟩
    exact ⟨parent, label, parentAt, labelAt, linked.hangs⟩
  · intro forest
    refine ⟨forest.parentsLength, forest.labelsLength, fun time inside isRoot =>
      forest.roots time inside (chain_eq_none.mpr isRoot), fun time inside isLinked => ?_⟩
    have linked : chain root time ≠ none := by
      rw [Ne, chain_eq_none, Nat.not_le]
      exact isLinked
    rcases forest.linked time inside linked with ⟨parent, label, parentAt, labelAt, hangs⟩
    exact ⟨parent, label, parentAt, labelAt, .of_hangs hangs⟩

/-- What a call of `find` on the node at `time` leaves behind. -/
structure Found (order : List Node) (value : Nat → Nat) (root time : Nat) (dsu : DSU Node)
    (result : Nat) (node : Node) (after : DSU Node) : Prop where
  placed : order[result]? = some node
  forest : Forest order value root after
  isRoot : time ≤ root → result = time
  isBest : root ≤ time → IsLatestMin value root time result
  label : after.labels[time]? = some node
  framed : ∀ later, time < later →
    after.parents[later]? = dsu.parents[later]? ∧ after.labels[later]? = dsu.labels[later]?

variable [DecidableEq Node]

theorem Forest.find {root : Nat} {dsu : DSU Node} (numbered : Numbered context order value)
    (forest : Forest order value root dsu) {time fuel : Nat} {node : Node}
    (placed : order[time]? = some node) (enough : time < fuel) :
    ∃ result found after, DSU.find context fuel dsu node = .ok (found, after) ∧
      Found order value root time dsu result found after := by
  rcases (forest_iff_links.mp forest).find numbered chain_descending placed enough with
    ⟨result, found, after, returned, best⟩
  have isBest := best.isBest
  have between := above_chain.mp isBest.above
  refine ⟨result, found, after, returned, best.placed, forest_iff_links.mpr best.forest,
    fun small => by omega, fun rootLe => ?_, best.label, best.framed⟩
  refine ⟨by omega, by omega, fun other low high => ?_, fun other less high => ?_⟩
  · exact isBest.least other (above_chain.mpr (.inr ⟨low, high⟩))
  · exact isBest.first other (above_chain.mpr (by omega)) less

end LeechJit.Graph
