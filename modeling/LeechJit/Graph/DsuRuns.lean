import LeechJit.Graph.DsuPaths

/-! # Runs of the disjoint sets

`unite` and `find` are called in any order, and the semidominator of a root may change as
long as it is one. In every state `find` takes the root for one of the nodes it chooses
from, so it is right exactly when the root is no better than the nodes below it.
-/

namespace LeechJit.Graph

open LinkedPaths

variable {Node : Type}

/-- The disjoint sets between two calls, with the links that `unite` has made. -/
structure DSURun (Node : Type) where
  sdoms : FromDFSTimeMap DFSTime
  links : Nat → Option Nat
  dsu : DSU Node

namespace DSURun

variable (state : DSURun Node) (order : List Node) (id : Node → NodeId) (rev : FromIdMap DFSTime)

def value (time : Nat) : Nat :=
  state.sdoms.getD time 0

def context : DSUContext Node :=
  { id := id, sdoms := state.sdoms, rev := rev }

def change (root sdom : Nat) : DSURun Node :=
  { state with sdoms := state.sdoms.set root sdom }

/-- Where the label of a node is the root, the new semidominator of the root is still less than
those of the nodes in between. -/
def Keeps (root sdom : Nat) : Prop :=
  ∀ time, state.dsu.labels[time]? = order[root]? →
    ∀ other, Above state.links other time → root < other → sdom < state.value other

/-- A root itself, or a node of least semidominator on the way up to the root but without it. -/
def IsEval (time : Nat) (found : Node) : Prop :=
  ∃ result, order[result]? = some found ∧ (state.links time = none → result = time) ∧
    (state.links time ≠ none →
      Above state.links result time ∧ state.links result ≠ none ∧
        ∀ other, Above state.links other time → state.links other ≠ none →
          state.value result ≤ state.value other)

/-- The root is no better than some node below it on the way up. -/
def Askable (time : Nat) : Prop :=
  state.links time = none ∨ ∃ other, Above state.links other time ∧ state.links other ≠ none ∧
    ∀ root, Above state.links root time → state.links root = none →
      state.value other ≤ state.value root

end DSURun

variable (order : List Node) (id : Node → NodeId) (rev : FromIdMap DFSTime)

section Runs

variable [DecidableEq Node]

/-- The states that calls of `unite` and `find` lead to, while the semidominators of roots change
such that labels stay right. -/
inductive DSURun.Reached : DSURun Node → Prop
  | start (sdoms : FromDFSTimeMap DFSTime) (room : order.length ≤ sdoms.length) :
      Reached { sdoms := sdoms, links := fun _ => none, dsu := DSU.make order }
  | unite {state : DSURun Node} {time upper : Nat} {node parent : Node} {dsu : DSU Node}
      (reached : Reached state) (isRoot : state.links time = none) (less : upper < time)
      (isNode : order[time]? = some node) (isParent : order[upper]? = some parent)
      (united : DSU.unite (state.context id rev) state.dsu node parent = .ok dsu) :
      Reached { state with links := Function.update state.links time (some upper), dsu := dsu }
  | find {state : DSURun Node} {time : Nat} {node found : Node} {dsu : DSU Node}
      (reached : Reached state) (isNode : order[time]? = some node)
      (result : DSU.find (state.context id rev) order.length state.dsu node = .ok (found, dsu)) :
      Reached { state with dsu := dsu }
  | change {state : DSURun Node} {root sdom : Nat} (reached : Reached state)
      (inside : root < order.length) (isRoot : state.links root = none)
      (keeps : state.Keeps order root sdom) : Reached (state.change root sdom)

/-- What `find` returns on the node at `time` is right. -/
def DSURun.EvalRight (state : DSURun Node) (time : Nat) : Prop :=
  ∃ node found dsu, order[time]? = some node ∧
    DSU.find (state.context id rev) order.length state.dsu node = .ok (found, dsu) ∧
      state.IsEval order time found

end Runs

namespace DSURun

variable {order id rev} {state : DSURun Node}

/-- The invariant of the runs. -/
structure Kept (order : List Node) (state : DSURun Node) : Prop where
  room : order.length ≤ state.sdoms.length
  descending : Descending state.links
  forest : LinkForest order state.links state.value state.dsu

theorem numbered (times : ∀ time node, order[time]? = some node → rev (id node) = some time)
    (room : order.length ≤ state.sdoms.length) :
    Numbered (state.context id rev) order state.value where
  times := times
  sdoms time inside := by
    have read : time < state.sdoms.length := by omega
    simp [context, value, List.getElem?_eq_getElem read]

theorem change_value {root sdom : Nat} (inside : root < state.sdoms.length) :
    (state.change root sdom).value = Function.update state.value root sdom := by
  funext time
  by_cases same : time = root
  · subst same
    simp [value, change, inside]
  · have apart : root ≠ time := fun equal => same equal.symm
    simp [value, change, same, List.getElem?_set_ne apart]

namespace Kept

theorem start (sdoms : FromDFSTimeMap DFSTime) (room : order.length ≤ sdoms.length) :
    Kept order { sdoms := sdoms, links := fun _ => none, dsu := DSU.make order } where
  room := room
  descending _ _ link := by cases link
  forest :=
    { parentsLength := rfl
      labelsLength := rfl
      roots := fun _ _ _ => ⟨rfl, rfl⟩
      linked := fun _ _ linked => absurd rfl linked }

theorem unite {time upper : Nat} {node parent : Node} {dsu : DSU Node}
    (kept : Kept order state)
    (times : ∀ time node, order[time]? = some node → rev (id node) = some time)
    (isRoot : state.links time = none) (less : upper < time)
    (isNode : order[time]? = some node) (isParent : order[upper]? = some parent)
    (united : DSU.unite (state.context id rev) state.dsu node parent = .ok dsu) :
    Kept order
      { state with links := Function.update state.links time (some upper), dsu := dsu } := by
  have inside : time < order.length := (List.getElem?_eq_some_iff.mp isNode).1
  have timeAt := (numbered times kept.room).getNodeTime isNode
  have stored : dsu = { state.dsu with parents := state.dsu.parents.set time parent } := by
    simp only [DSU.unite, timeAt, Result.ok_bind] at united
    rcases Result.bind_eq_ok.mp united with ⟨-, -, equal⟩
    cases equal
    rfl
  subst stored
  exact ⟨kept.room, kept.descending.link less,
    kept.forest.link kept.descending inside isRoot less isParent⟩

theorem change {root sdom : Nat} (kept : Kept order state) (inside : root < order.length)
    (isRoot : state.links root = none) (keeps : state.Keeps order root sdom) :
    Kept order (state.change root sdom) := by
  have room := kept.room
  have forest := kept.forest
  have rootInside : root < state.sdoms.length := by omega
  refine ⟨by simpa [DSURun.change] using room, kept.descending, ?_⟩
  rw [change_value rootInside]
  refine ⟨forest.parentsLength, forest.labelsLength, forest.roots, fun time timeInside isLinked => ?_⟩
  rcases forest.linked time timeInside isLinked with ⟨parent, label, parentAt, labelAt, hangs⟩
  refine ⟨parent, label, parentAt, labelAt, hangs.change kept.descending isRoot fun isLabel => ?_⟩
  subst isLabel
  exact keeps time labelAt

/-- Two roots on one way up are the same. -/
theorem root_unique {time root other : Nat} (isRoot : state.links root = none)
    (above : Above state.links root time) (otherRoot : state.links other = none)
    (otherAbove : Above state.links other time) : other = root := by
  have onTop := Above.root_above otherRoot otherAbove above
  exact onTop.eq_root isRoot

/-- A label that is the root of the node is on the way up from it. -/
theorem label_root {root time : Nat} {other : Nat} (kept : Kept order state)
    (injective : ∀ (left right : Nat) (node : Node), order[left]? = some node →
      order[right]? = some node → left = right)
    (inside : root < order.length) (isRoot : state.links root = none)
    (isLabel : state.dsu.labels[time]? = order[root]?) (above : Above state.links other time)
    (less : root < other) :
    state.links time ≠ none ∧ state.dsu.parents[time]? = order[root]? ∧
      Hangs state.links state.value time root root := by
  have labelsLength := kept.forest.labelsLength
  have placed := List.getElem?_eq_getElem inside
  have timeInside : time < order.length := by
    have read : state.dsu.labels[time]? = some order[root] := isLabel.trans placed
    have bound := (List.getElem?_eq_some_iff.mp read).1
    omega
  have otherLe := above.le kept.descending
  have isLinked : state.links time ≠ none := by
    intro timeRoot
    have own := (kept.forest.roots time timeInside timeRoot).2
    have same := injective time root _ (own.symm.trans (isLabel.trans placed)) placed
    omega
  rcases kept.forest.linked time timeInside isLinked with ⟨parent, label, parentAt, labelAt, hangs⟩
  have labelRoot : label = root :=
    injective label root _ (labelAt.symm.trans (isLabel.trans placed)) placed
  subst labelRoot
  have parentRoot := hangs.label_below.eq_root isRoot
  subst parentRoot
  exact ⟨isLinked, parentAt, hangs⟩

/-- A root may always become better. -/
theorem keeps_of_le {root sdom : Nat} (kept : Kept order state)
    (times : ∀ time node, order[time]? = some node → rev (id node) = some time)
    (inside : root < order.length) (isRoot : state.links root = none)
    (less : sdom ≤ state.value root) : state.Keeps order root sdom := by
  intro time isLabel other above behind
  have numbering := numbered times kept.room
  have hangs := (kept.label_root (fun _ _ _ => numbering.injective) inside isRoot isLabel above
    behind).2.2
  have strict := hangs.first other above behind
  omega

end Kept

section Find

variable [DecidableEq Node]

theorem Kept.find {time : Nat} {node found : Node} {dsu : DSU Node}
    (kept : Kept order state)
    (times : ∀ time node, order[time]? = some node → rev (id node) = some time)
    (isNode : order[time]? = some node)
    (result : DSU.find (state.context id rev) order.length state.dsu node = .ok (found, dsu)) :
    Kept order { state with dsu := dsu } := by
  have inside : time < order.length := (List.getElem?_eq_some_iff.mp isNode).1
  rcases kept.forest.find (numbered times kept.room) kept.descending isNode inside with
    ⟨best, bestNode, after, returned, isBest⟩
  rw [result] at returned
  cases returned
  exact ⟨kept.room, kept.descending, isBest.forest⟩

/-- The first best node on the way up is the one that is asked for unless it is the root. -/
theorem Kept.evalRight_iff (kept : Kept order state)
    (times : ∀ time node, order[time]? = some node → rev (id node) = some time)
    {time : Nat} (inside : time < order.length) :
    EvalRight order id rev state time ↔ state.Askable time := by
  have isNode := List.getElem?_eq_getElem inside
  have numbering := numbered times kept.room
  rcases kept.forest.find numbering kept.descending isNode inside with
    ⟨best, bestNode, after, returned, found⟩
  have isBest := found.isBest
  constructor
  · rintro ⟨node, other, dsu, placed, result, isEval⟩
    cases isNode.symm.trans placed
    rw [returned] at result
    cases result
    rcases isEval with ⟨chosen, chosenAt, -, ofLinked⟩
    have same := numbering.injective chosenAt found.placed
    subst same
    by_cases isRoot : state.links time = none
    · exact .inl isRoot
    · rcases ofLinked isRoot with ⟨above, linked, -⟩
      exact .inr ⟨chosen, above, linked, fun root rootAbove _ => isBest.least root rootAbove⟩
  · intro askable
    refine ⟨order[time], bestNode, after, isNode, returned, best, found.placed, ?_, ?_⟩
    · intro isRoot
      exact isBest.above.eq_root isRoot
    · intro isLinked
      refine ⟨isBest.above, ?_, fun other above _ => isBest.least other above⟩
      intro bestRoot
      rcases askable with isRoot | ⟨other, above, linked, noWorse⟩
      · exact isLinked isRoot
      · -- The root is on top, so the other node would have been taken.
        have onTop := Above.root_above bestRoot isBest.above above
        have le := onTop.le kept.descending
        have different : best ≠ other := by
          rintro rfl
          exact linked bestRoot
        have strict := isBest.first other above (by omega)
        have least := noWorse best isBest.above bestRoot
        omega

theorem Reached.kept (reached : Reached order id rev state)
    (times : ∀ time node, order[time]? = some node → rev (id node) = some time) :
    Kept order state := by
  induction reached with
  | start sdoms room => exact .start sdoms room
  | unite _ isRoot less isNode isParent united induction =>
      exact induction.unite times isRoot less isNode isParent united
  | find _ isNode result induction => exact induction.find times isNode result
  | change _ inside isRoot keeps induction => exact induction.change inside isRoot keeps

/-! ## Changes of a root -/

/-- A child of a root whose label is the root is not looked at. -/
theorem find_of_rootLabel {context : DSUContext Node} {dsu : DSU Node} {fuel time root sdom : Nat}
    {node rootNode : Node} (timeAt : context.getNodeTime node = .ok time)
    (rootAt : context.getNodeTime rootNode = .ok root)
    (rootSdom : context.getSdomId rootNode = .ok sdom) (different : node ≠ rootNode)
    (parentAt : FromDFSTimeMap.at dsu.parents time = .ok rootNode)
    (labelAt : FromDFSTimeMap.at dsu.labels time = .ok rootNode)
    (rootParent : FromDFSTimeMap.at dsu.parents root = .ok rootNode)
    (rootLabel : FromDFSTimeMap.at dsu.labels root = .ok rootNode) :
    ∃ after, DSU.find context (fuel + 2) dsu node = .ok (rootNode, after) := by
  have ofRoot : DSU.find context (fuel + 1) dsu rootNode = .ok (rootNode, dsu) := by
    simp [DSU.find, rootAt, rootParent]
  refine ⟨{ parents := dsu.parents.set time rootNode
            labels := dsu.labels.set time rootNode }, ?_⟩
  rw [DSU.find]
  simp only [timeAt, parentAt, different, ofRoot, rootAt, rootLabel, labelAt, rootSdom,
    Result.ok_bind, Result.pure_eq_ok, if_false, Nat.lt_irrefl]

/-- Where the label of a node is the root and another node in between is as good by now, `find`
still returns the root. -/
theorem Kept.not_evalRight {root sdom time other : Nat} (kept : Kept order state)
    (times : ∀ time node, order[time]? = some node → rev (id node) = some time)
    (inside : root < order.length) (isRoot : state.links root = none)
    (isLabel : state.dsu.labels[time]? = order[root]?) (above : Above state.links other time)
    (behind : root < other) :
    time < order.length ∧ ¬ EvalRight order id rev (state.change root sdom) time := by
  have room := kept.room
  have injective : ∀ (left right : Nat) (node : Node), order[left]? = some node →
      order[right]? = some node → left = right :=
    fun _ _ _ => (numbered times kept.room).injective
  rcases kept.label_root injective inside isRoot isLabel above behind with
    ⟨isLinked, isParent, hangs⟩
  have rootLess := hangs.parent_lt
  have rootPlaced := List.getElem?_eq_getElem inside
  have timeInside : time < order.length := by
    have parentsLength := kept.forest.parentsLength
    have bound := (List.getElem?_eq_some_iff.mp (isParent.trans rootPlaced)).1
    omega
  refine ⟨timeInside, ?_⟩
  rintro ⟨node, found, dsu, placed, result, chosen, chosenAt, -, ofLinked⟩
  have numbering : Numbered ((state.change root sdom).context id rev) order
      (state.change root sdom).value :=
    numbered times (by simpa [DSURun.change] using room)
  have own := kept.forest.roots root inside isRoot
  have different : node ≠ order[root] := by
    rintro rfl
    have same := injective _ _ _ placed rootPlaced
    omega
  obtain ⟨fuel, enough⟩ : ∃ fuel, order.length = fuel + 2 := ⟨order.length - 2, by omega⟩
  have unchanged : ∃ after, DSU.find ((state.change root sdom).context id rev) (fuel + 2)
      state.dsu node = .ok (order[root], after) :=
    find_of_rootLabel (numbering.getNodeTime placed) (numbering.getNodeTime rootPlaced)
      (numbering.getSdomId rootPlaced) different
      (FromDFSTimeMap.at_eq_ok.mpr (isParent.trans rootPlaced))
      (FromDFSTimeMap.at_eq_ok.mpr (isLabel.trans rootPlaced))
      (FromDFSTimeMap.at_eq_ok.mpr (own.1.trans rootPlaced))
      (FromDFSTimeMap.at_eq_ok.mpr (own.2.trans rootPlaced))
  rcases unchanged with ⟨after, returned⟩
  rw [← enough] at returned
  have isFound : found = order[root] := by
    have equal := result.symm.trans returned
    cases equal
    rfl
  subst isFound
  have same := injective _ _ _ chosenAt rootPlaced
  subst same
  exact (ofLinked isLinked).2.1 isRoot

theorem Kept.keeps_iff {root sdom : Nat} (kept : Kept order state)
    (times : ∀ time node, order[time]? = some node → rev (id node) = some time)
    (inside : root < order.length) (isRoot : state.links root = none) :
    state.Keeps order root sdom ↔ ∀ time, time < order.length →
      (EvalRight order id rev (state.change root sdom) time ↔
        (state.change root sdom).Askable time) := by
  constructor
  · intro keeps time timeInside
    exact (kept.change inside isRoot keeps).evalRight_iff times timeInside
  · intro agrees time isLabel other above behind
    by_contra less
    have noLess : state.value other ≤ sdom := Nat.le_of_not_lt less
    have room := kept.room
    have rootInside : root < state.sdoms.length := by omega
    have wrong : time < order.length ∧ ¬ EvalRight order id rev (state.change root sdom) time :=
      kept.not_evalRight times inside isRoot isLabel above behind
    apply wrong.2
    rw [agrees time wrong.1]
    have rootAbove := (kept.label_root
      (fun _ _ _ => (numbered times kept.room).injective) inside isRoot isLabel above
      behind).2.2.label_above
    have linked : state.links other ≠ none := by
      intro otherRoot
      have same := root_unique isRoot rootAbove otherRoot above
      omega
    refine .inr ⟨other, above, linked, fun upper upperAbove upperRoot => ?_⟩
    have same := root_unique isRoot rootAbove upperRoot upperAbove
    subst same
    have different : other ≠ upper := by omega
    rw [change_value rootInside, Function.update_of_ne different, Function.update_self]
    exact noLess

/-- In every state `find` is right on the nodes below a root that is no better than some of them
on the way up, and on no others. A change of a root keeps it so exactly when labels stay right,
in particular when the root becomes better. -/
theorem evalRight_exact
    (times : ∀ time node, order[time]? = some node → rev (id node) = some time)
    (reached : Reached order id rev state) :
    (∀ time, time < order.length →
      (EvalRight order id rev state time ↔ state.Askable time)) ∧
      ∀ root sdom, root < order.length → state.links root = none →
        (state.Keeps order root sdom ↔ ∀ time, time < order.length →
          (EvalRight order id rev (state.change root sdom) time ↔
            (state.change root sdom).Askable time)) ∧
        (sdom ≤ state.value root → state.Keeps order root sdom) := by
  have kept := reached.kept times
  exact ⟨fun time inside => kept.evalRight_iff times inside, fun root sdom inside isRoot =>
    ⟨kept.keeps_iff times inside isRoot, kept.keeps_of_le times inside isRoot⟩⟩

end Find

/-! ## Three blocks in a row -/

/-- The numbering of three blocks. -/
def rowTimes : FromIdMap DFSTime :=
  fun id => if id < 3 then some id else none

theorem rowTimes_eq : ∀ (time node : Nat), [0, 1, 2][time]? = some node →
    rowTimes node = some time
  | 0, _, rfl | 1, _, rfl | 2, _, rfl => rfl

def rowStart : DSURun Nat :=
  { sdoms := [0, 1, 2], links := fun _ => none, dsu := DSU.make [0, 1, 2] }

/-- The builder has linked the last block and is at the bucket of the one before it. -/
def rowLinked : DSURun Nat :=
  { sdoms := [0, 0, 1]
    links := Function.update (fun _ => none) 2 (some 1)
    dsu := { parents := [0, 1, 1], labels := [0, 1, 2] } }

theorem rowStart_reached : Reached [0, 1, 2] (fun node => node) rowTimes rowStart :=
  .start [0, 1, 2] (Nat.le_refl 3)

theorem rowLinked_reached : Reached [0, 1, 2] (fun node => node) rowTimes rowLinked := by
  have lowered : Reached [0, 1, 2] (fun node => node) rowTimes (rowStart.change 2 1) :=
    .change rowStart_reached (by decide) rfl
      ((rowStart_reached.kept rowTimes_eq).keeps_of_le rowTimes_eq (by decide) rfl (by decide))
  let united : DSURun Nat :=
    { rowStart.change 2 1 with
      links := Function.update (fun _ => none) 2 (some 1)
      dsu := { parents := [0, 1, 1], labels := [0, 1, 2] } }
  have linked : Reached [0, 1, 2] (fun node => node) rowTimes united :=
    .unite lowered rfl (by decide) rfl rfl rfl
  have last : Reached [0, 1, 2] (fun node => node) rowTimes (united.change 1 0) :=
    .change linked (by decide) rfl
      ((linked.kept rowTimes_eq).keeps_of_le rowTimes_eq (by decide) rfl (by decide))
  exact last

theorem evalRight_exact_row :
    (∀ time, time < [0, 1, 2].length →
      (EvalRight [0, 1, 2] (fun node => node) rowTimes rowLinked time ↔ rowLinked.Askable time)) ∧
      ∀ root sdom, root < [0, 1, 2].length → rowLinked.links root = none →
        (rowLinked.Keeps [0, 1, 2] root sdom ↔ ∀ time, time < [0, 1, 2].length →
          (EvalRight [0, 1, 2] (fun node => node) rowTimes (rowLinked.change root sdom) time ↔
            (rowLinked.change root sdom).Askable time)) ∧
        (sdom ≤ rowLinked.value root → rowLinked.Keeps [0, 1, 2] root sdom) :=
  evalRight_exact rowTimes_eq rowLinked_reached

/-- `find` on the last block returns its root, the block before. -/
theorem not_evalRight_row :
    Reached [0, 1, 2] (fun node => node) rowTimes rowLinked ∧
      rowLinked.links 1 = none ∧ rowLinked.links 2 = some 1 ∧
      DSU.find (rowLinked.context (fun node => node) rowTimes) 3 rowLinked.dsu 2 =
        .ok (1, { parents := [0, 1, 1], labels := [0, 1, 1] }) ∧
      ¬ EvalRight [0, 1, 2] (fun node => node) rowTimes rowLinked 2 := by
  refine ⟨rowLinked_reached, rfl, rfl, rfl, ?_⟩
  rintro ⟨node, found, dsu, placed, result, chosen, chosenAt, -, ofLinked⟩
  cases placed
  cases result
  have isRoot : chosen = 1 := by
    have time := rowTimes_eq chosen 1 chosenAt
    exact (Option.some.inj time).symm
  subst isRoot
  exact (ofLinked (by decide)).2.1 rfl

end DSURun

end LeechJit.Graph
