import LeechJit.Foundation.Cursor
import LeechJit.IntrusiveList.IList

/-! # What the lists are for

The same operations on plain sequences: one duplicate-free sequence for each
list object, and the log of deallocated nodes. The preconditions are those of
the interface: an inserted node is in no list, positions and ranges belong to
the list they are used with, and a splice position is neither the first node of
the moved segment nor strictly inside it.
-/

namespace LeechJit.IntrusiveList

open Cursor

/-- The list objects, each named by its sentinel, what each contains, and the
nodes deallocated so far. -/
structure Sequences (Node : Type) where
  lists : List Node
  contents : Node → List Node
  freed : List Node

variable {Node : Type} [DecidableEq Node]

namespace Sequences

def initial : Sequences Node where
  lists := []
  contents _ := []
  freed := []

/-- The node is neither a sentinel nor an element. -/
def Unlinked (state : Sequences Node) (node : Node) : Prop :=
  ∀ list ∈ state.lists, node ∉ list :: state.contents list

instance (state : Sequences Node) (node : Node) : Decidable (state.Unlinked node) :=
  inferInstanceAs (Decidable (∀ list ∈ state.lists, node ∉ list :: state.contents list))

/-- The node is an element of the list or its end. -/
def IsPosition (state : Sequences Node) (list pos : Node) : Prop :=
  pos = list ∨ pos ∈ state.contents list

instance (state : Sequences Node) (list pos : Node) :
    Decidable (state.IsPosition list pos) :=
  inferInstanceAs (Decidable (_ ∨ _))

def setContents (state : Sequences Node) (list : Node) (values : List Node) :
    Sequences Node :=
  { state with contents := Function.update state.contents list values }

@[simp] theorem setContents_lists (state : Sequences Node) (list : Node)
    (values : List Node) : (state.setContents list values).lists = state.lists :=
  rfl

@[simp] theorem setContents_freed (state : Sequences Node) (list : Node)
    (values : List Node) : (state.setContents list values).freed = state.freed :=
  rfl

@[simp] theorem setContents_same (state : Sequences Node) (list : Node)
    (values : List Node) : (state.setContents list values).contents list = values :=
  by simp [setContents]

theorem setContents_other (state : Sequences Node) {list other : Node}
    (values : List Node) (different : other ≠ list) :
    (state.setContents list values).contents other = state.contents other := by
  simp [setContents, different]

/-- Move `[first, last)` of `other` to just before `pos` of `list`. -/
def moveSegment (state : Sequences Node) (list pos other first last : Node) :
    Sequences Node :=
  let moved := slice first last (state.contents other)
  let taken := state.setContents other (cut first last (state.contents other))
  taken.setContents list (insertAt pos moved (taken.contents list))

/-- What a splice may be called with. -/
structure CanSplice (state : Sequences Node)
    (list pos other first last : Node) : Prop where
  list_mem : list ∈ state.lists
  other_mem : other ∈ state.lists
  position : state.IsPosition list pos
  range : IsRange other first last (state.contents other)
  notFirst : pos ≠ first
  notInside : pos ∉ slice first last (state.contents other)

instance (state : Sequences Node) (list pos other first last : Node) :
    Decidable (state.CanSplice list pos other first last) :=
  decidable_of_iff
    (list ∈ state.lists ∧ other ∈ state.lists ∧ state.IsPosition list pos ∧
      IsRange other first last (state.contents other) ∧ pos ≠ first ∧
      pos ∉ slice first last (state.contents other))
    ⟨fun ⟨listMem, otherMem, position, range, notFirst, notInside⟩ =>
      ⟨listMem, otherMem, position, range, notFirst, notInside⟩,
    fun can => ⟨can.list_mem, can.other_mem, can.position, can.range, can.notFirst,
      can.notInside⟩⟩

/-- The first element of a list, or its end. -/
def begin (state : Sequences Node) (list : Node) : Node :=
  (state.contents list).head?.getD list

/-- The element behind `pos` in a list, or its end. -/
def after (state : Sequences Node) (list pos : Node) : Node :=
  ((onward pos (state.contents list)).tail.head?).getD list

end Sequences

namespace Operation

/-- What the interface asks of a call. -/
def Valid (state : Sequences Node) : Operation Node → Prop
  | .construct list => state.Unlinked list
  | .moveConstruct list that => state.Unlinked list ∧ that ∈ state.lists
  | .insert list pos node =>
      list ∈ state.lists ∧ state.IsPosition list pos ∧ state.Unlinked node
  | .pushBack list node => list ∈ state.lists ∧ state.Unlinked node
  | .remove list pos => list ∈ state.lists ∧ pos ∈ state.contents list
  | .erase list pos => list ∈ state.lists ∧ pos ∈ state.contents list
  | .eraseRange list first last =>
      list ∈ state.lists ∧ IsRange list first last (state.contents list)
  | .clear list => list ∈ state.lists
  | .splice list pos other first last =>
      state.CanSplice list pos other first last
  | .spliceOne list pos other it =>
      it ∈ state.contents other ∧
        state.CanSplice list pos other it (state.after other it)
  | .spliceAll list pos other =>
      state.CanSplice list pos other (state.begin other) other

instance decidableValid (state : Sequences Node) :
    (operation : Operation Node) → Decidable (operation.Valid state)
  | .construct list => inferInstanceAs (Decidable (state.Unlinked list))
  | .moveConstruct list that =>
      inferInstanceAs (Decidable (state.Unlinked list ∧ that ∈ state.lists))
  | .insert list pos node =>
      inferInstanceAs (Decidable
        (list ∈ state.lists ∧ state.IsPosition list pos ∧ state.Unlinked node))
  | .pushBack list node =>
      inferInstanceAs (Decidable (list ∈ state.lists ∧ state.Unlinked node))
  | .remove list pos =>
      inferInstanceAs (Decidable (list ∈ state.lists ∧ pos ∈ state.contents list))
  | .erase list pos =>
      inferInstanceAs (Decidable (list ∈ state.lists ∧ pos ∈ state.contents list))
  | .eraseRange list first last =>
      inferInstanceAs (Decidable
        (list ∈ state.lists ∧ IsRange list first last (state.contents list)))
  | .clear list => inferInstanceAs (Decidable (list ∈ state.lists))
  | .splice list pos other first last =>
      inferInstanceAs (Decidable (state.CanSplice list pos other first last))
  | .spliceOne list pos other it =>
      inferInstanceAs (Decidable (it ∈ state.contents other ∧
        state.CanSplice list pos other it (state.after other it)))
  | .spliceAll list pos other =>
      inferInstanceAs (Decidable (state.CanSplice list pos other (state.begin other) other))

/-- The nodes an operation erases, in order. -/
def erased (state : Sequences Node) : Operation Node → List Node
  | .erase _ pos => [pos]
  | .eraseRange list first last => slice first last (state.contents list)
  | .clear list => state.contents list
  | _ => []

/-- The operation on plain sequences. -/
def apply (state : Sequences Node) (operation : Operation Node) :
    Sequences Node :=
  let next := match operation with
    | .construct list =>
        { state.setContents list [] with lists := list :: state.lists }
    | .moveConstruct list that =>
        { (state.setContents list (state.contents that)).setContents that [] with
          lists := list :: state.lists }
    | .insert list pos node =>
        state.setContents list (insertAt pos [node] (state.contents list))
    | .pushBack list node =>
        state.setContents list (state.contents list ++ [node])
    | .remove list pos =>
        state.setContents list ((state.contents list).erase pos)
    | .erase list pos =>
        state.setContents list ((state.contents list).erase pos)
    | .eraseRange list first last =>
        state.setContents list (cut first last (state.contents list))
    | .clear list => state.setContents list []
    | .splice list pos other first last =>
        state.moveSegment list pos other first last
    | .spliceOne list pos other it =>
        state.moveSegment list pos other it (state.after other it)
    | .spliceAll list pos other =>
        state.moveSegment list pos other (state.begin other) other
  { next with freed := state.freed ++ operation.erased state }

end Operation

/-- Every operation of the program is called as the interface asks. -/
def ValidProgram : Sequences Node → List (Operation Node) → Prop
  | _, [] => True
  | state, operation :: rest =>
      operation.Valid state ∧ ValidProgram (operation.apply state) rest

instance decidableValidProgram : (state : Sequences Node) →
    (program : List (Operation Node)) → Decidable (ValidProgram state program)
  | _, [] => isTrue trivial
  | state, operation :: rest =>
      have := decidableValidProgram (operation.apply state) rest
      inferInstanceAs (Decidable (operation.Valid state ∧ _))

/-- What each operation of a program erases. -/
def erasedBatches : Sequences Node → List (Operation Node) → List (List Node)
  | _, [] => []
  | state, operation :: rest =>
      operation.erased state :: erasedBatches (operation.apply state) rest

def applyAll (state : Sequences Node) (program : List (Operation Node)) :
    Sequences Node :=
  program.foldl Operation.apply state

end LeechJit.IntrusiveList
