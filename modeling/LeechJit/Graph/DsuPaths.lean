import LeechJit.Foundation.LinkedPaths
import LeechJit.Graph.Dsu

/-! # What `find` does to the links

Every linked node hangs, perhaps through compressed links, below a node on its way up.
`find` returns the first node of least semidominator on the way up, the root included,
and leaves the forest such.
-/

namespace LeechJit.Graph

open LinkedPaths

variable {Node : Type}

theorem FromDFSTimeMap.at_eq_ok {α : Type} {map : FromDFSTimeMap α} {time : DFSTime}
    {value : α} : FromDFSTimeMap.at map time = .ok value ↔ map[time]? = some value := by
  cases found : map[time]? <;> simp [FromDFSTimeMap.at, found]

theorem FromIdMap.at_eq_ok {α : Type} {map : FromIdMap α} {id : NodeId} {value : α} :
    FromIdMap.at map id = .ok value ↔ map id = some value := by
  cases found : map id <;> simp [FromIdMap.at, found]

/-- The nodes of `order` are numbered by their positions, `value` being the
semidominators known so far. -/
structure Numbered (context : DSUContext Node) (order : List Node) (value : Nat → Nat) :
    Prop where
  times : ∀ time node, order[time]? = some node →
    context.rev (context.id node) = some time
  sdoms : ∀ time, time < order.length → context.sdoms[time]? = some (value time)

/-- The forest the disjoint sets stand for, given by the links that were made. -/
structure LinkForest (order : List Node) (links : Nat → Option Nat) (value : Nat → Nat)
    (dsu : DSU Node) : Prop where
  parentsLength : dsu.parents.length = order.length
  labelsLength : dsu.labels.length = order.length
  roots : ∀ time, time < order.length → links time = none →
    dsu.parents[time]? = order[time]? ∧ dsu.labels[time]? = order[time]?
  linked : ∀ time, time < order.length → links time ≠ none → ∃ parent label,
    dsu.parents[time]? = order[parent]? ∧ dsu.labels[time]? = order[label]? ∧
      Hangs links value time parent label

variable {context : DSUContext Node} {order : List Node} {links : Nat → Option Nat}
  {value : Nat → Nat}

namespace Numbered

theorem getNodeTime (numbered : Numbered context order value) {time : Nat} {node : Node}
    (placed : order[time]? = some node) : context.getNodeTime node = .ok time :=
  FromIdMap.at_eq_ok.mpr (numbered.times time node placed)

theorem getSdomId (numbered : Numbered context order value) {time : Nat} {node : Node}
    (placed : order[time]? = some node) : context.getSdomId node = .ok (value time) := by
  have inside : time < order.length := (List.getElem?_eq_some_iff.mp placed).1
  simp only [DSUContext.getSdomId, numbered.getNodeTime placed, Result.ok_bind]
  exact FromDFSTimeMap.at_eq_ok.mpr (numbered.sdoms time inside)

theorem injective (numbered : Numbered context order value) {left right : Nat} {node : Node}
    (leftAt : order[left]? = some node) (rightAt : order[right]? = some node) :
    left = right :=
  Option.some.inj ((numbered.times left node leftAt).symm.trans
    (numbered.times right node rightAt))

end Numbered

/-- What a call of `find` on the node at `time` leaves behind. -/
structure Best (order : List Node) (links : Nat → Option Nat) (value : Nat → Nat) (time : Nat)
    (dsu : DSU Node) (result : Nat) (node : Node) (after : DSU Node) : Prop where
  placed : order[result]? = some node
  forest : LinkForest order links value after
  isBest : IsBest links value time result
  label : after.labels[time]? = some node
  framed : ∀ later, time < later →
    after.parents[later]? = dsu.parents[later]? ∧ after.labels[later]? = dsu.labels[later]?

/-- A linked node may hang anywhere on its way up. -/
theorem LinkForest.hang {dsu : DSU Node} (forest : LinkForest order links value dsu)
    {time parent label : Nat} {parentNode labelNode : Node} (inside : time < order.length)
    (isLinked : links time ≠ none) (parentPlaced : order[parent]? = some parentNode)
    (labelPlaced : order[label]? = some labelNode) (hangs : Hangs links value time parent label) :
    LinkForest order links value
      { parents := dsu.parents.set time parentNode, labels := dsu.labels.set time labelNode } := by
  have parentsLength := forest.parentsLength
  have labelsLength := forest.labelsLength
  constructor
  case parentsLength => simpa using parentsLength
  case labelsLength => simpa using labelsLength
  case roots =>
    intro other otherInside otherRoot
    have apart : time ≠ other := by
      rintro rfl
      exact isLinked otherRoot
    simpa [List.getElem?_set_ne apart] using forest.roots other otherInside otherRoot
  case linked =>
    intro other otherInside otherLinked
    by_cases same : other = time
    · subst same
      refine ⟨parent, label, ?_, ?_, hangs⟩
      · rw [parentPlaced]
        exact List.getElem?_set_self (by omega)
      · rw [labelPlaced]
        exact List.getElem?_set_self (by omega)
    · have apart : time ≠ other := fun equal => same equal.symm
      simpa [List.getElem?_set_ne apart] using forest.linked other otherInside otherLinked

/-- A root that is linked hangs below its new parent, and is its own label. -/
theorem LinkForest.link {dsu : DSU Node} (forest : LinkForest order links value dsu)
    (descending : Descending links) {time upper : Nat} {parent : Node}
    (inside : time < order.length) (isRoot : links time = none) (less : upper < time)
    (isParent : order[upper]? = some parent) :
    LinkForest order (Function.update links time (some upper)) value
      { dsu with parents := dsu.parents.set time parent } := by
  have parentsLength := forest.parentsLength
  constructor
  case parentsLength => simpa using parentsLength
  case labelsLength => exact forest.labelsLength
  case roots =>
    intro other otherInside otherRoot
    have different : other ≠ time := by
      rintro rfl
      simp at otherRoot
    have apart : time ≠ other := fun equal => different equal.symm
    rw [Function.update_of_ne different] at otherRoot
    simpa [List.getElem?_set_ne apart] using forest.roots other otherInside otherRoot
  case linked =>
    intro other otherInside otherLinked
    by_cases same : other = time
    · subst same
      refine ⟨upper, other, ?_, (forest.roots other inside isRoot).2, .of_link descending less⟩
      rw [isParent]
      exact List.getElem?_set_self (by omega)
    · have apart : time ≠ other := fun equal => same equal.symm
      rw [Function.update_of_ne same] at otherLinked
      rcases forest.linked other otherInside otherLinked with
        ⟨above, label, parentAt, labelAt, hangs⟩
      refine ⟨above, label, ?_, labelAt, hangs.link descending isRoot less⟩
      rwa [List.getElem?_set_ne apart]

variable [DecidableEq Node]

theorem LinkForest.find {dsu : DSU Node} (numbered : Numbered context order value)
    (descending : Descending links) (forest : LinkForest order links value dsu) {time fuel : Nat}
    {node : Node} (placed : order[time]? = some node) (enough : time < fuel) :
    ∃ result found after, DSU.find context fuel dsu node = .ok (found, after) ∧
      Best order links value time dsu result found after := by
  induction fuel generalizing time node dsu with
  | zero => omega
  | succ fuel induction =>
      have inside : time < order.length := (List.getElem?_eq_some_iff.mp placed).1
      have timeAt := numbered.getNodeTime placed
      by_cases isRoot : links time = none
      · have own := forest.roots time inside isRoot
        have parentAt : FromDFSTimeMap.at dsu.parents time = .ok node :=
          FromDFSTimeMap.at_eq_ok.mpr (own.1.trans placed)
        exact ⟨time, node, dsu, by simp [DSU.find, timeAt, parentAt], placed, forest,
          .of_root isRoot, own.2.trans placed, fun _ _ => ⟨rfl, rfl⟩⟩
      · rcases forest.linked time inside isRoot with ⟨parent, label, parentAt, labelAt, hangs⟩
        have parentLt := hangs.parent_lt
        have labelLe := hangs.label_above.le descending
        have parentInside : parent < order.length := by omega
        have labelInside : label < order.length := by omega
        obtain ⟨parentNode, parentPlaced⟩ : ∃ other, order[parent]? = some other :=
          ⟨_, List.getElem?_eq_getElem parentInside⟩
        obtain ⟨labelNode, labelPlaced⟩ : ∃ other, order[label]? = some other :=
          ⟨_, List.getElem?_eq_getElem labelInside⟩
        have different : node ≠ parentNode := by
          rintro rfl
          have same := numbered.injective placed parentPlaced
          omega
        rcases induction forest parentPlaced (by omega) with
          ⟨upper, upperNode, middle, recursion, found⟩
        have framed := found.framed time parentLt
        have combined := hangs.combine descending found.isBest
        have read : FromDFSTimeMap.at dsu.parents time = .ok parentNode :=
          FromDFSTimeMap.at_eq_ok.mpr (parentAt.trans parentPlaced)
        have readAgain : FromDFSTimeMap.at middle.parents time = .ok parentNode :=
          FromDFSTimeMap.at_eq_ok.mpr (framed.1.trans (parentAt.trans parentPlaced))
        have parentTime := numbered.getNodeTime parentPlaced
        have parLabel : FromDFSTimeMap.at middle.labels parent = .ok upperNode :=
          FromDFSTimeMap.at_eq_ok.mpr found.label
        have toFindLabel : FromDFSTimeMap.at middle.labels time = .ok labelNode :=
          FromDFSTimeMap.at_eq_ok.mpr (framed.2.trans (labelAt.trans labelPlaced))
        have upperSdom := numbered.getSdomId found.placed
        have labelSdom := numbered.getSdomId labelPlaced
        let chosen := if value upper < value label then upper else label
        let chosenNode := if value upper < value label then upperNode else labelNode
        have chosenPlaced : order[chosen]? = some chosenNode := by
          by_cases better : value upper < value label
          · simpa [chosen, chosenNode, better] using found.placed
          · simpa [chosen, chosenNode, better] using labelPlaced
        have labelsLength := found.forest.labelsLength
        refine ⟨chosen, chosenNode,
          { parents := middle.parents.set time upperNode
            labels := middle.labels.set time chosenNode }, ?_, chosenPlaced, ?_, combined.2, ?_, ?_⟩
        · simp [DSU.find, timeAt, read, different, recursion, readAgain, parentTime, parLabel,
            toFindLabel, upperSdom, labelSdom, chosenNode]
        · exact found.forest.hang inside isRoot found.placed chosenPlaced combined.1
        · exact List.getElem?_set_self (by omega)
        · intro later isLater
          have apart : time ≠ later := by omega
          have rest := found.framed later (by omega)
          simpa [List.getElem?_set_ne apart] using rest

end LeechJit.Graph
