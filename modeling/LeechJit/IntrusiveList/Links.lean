import Mathlib.Data.List.Chain
import LeechJit.IntrusiveList.IList

/-! # What the heap operations do to links

Two nodes are linked when each points at the other. Every operation of
`IListBase` is described by the links it makes and by the links it keeps; the
stretches of a list that it does not cut stay chains.
-/

namespace LeechJit.IntrusiveList

variable {Node : Type}

/-- `left` is followed by `right`, and both nodes say so. -/
def Link (heap : Heap Node) (left right : Node) : Prop :=
  heap.next left = some right ∧ heap.prev right = some left

namespace Link

variable {heap : Heap Node} {left left' right right' : Node}

theorem right_unique (link : Link heap left right) (link' : Link heap left right') :
    right = right' :=
  Option.some.inj (link.1.symm.trans link'.1)

theorem left_unique (link : Link heap left right) (link' : Link heap left' right) :
    left = left' :=
  Option.some.inj (link.2.symm.trans link'.2)

end Link

/-- A stretch of nodes, each linked to the next. -/
def Chain (heap : Heap Node) (nodes : List Node) : Prop :=
  nodes.IsChain (Link heap)

namespace Chain

variable {heap heap' : Heap Node} {front back nodes : List Node} {left right : Node}

theorem join (first : Chain heap front) (second : Chain heap back)
    (atLast : front.getLast? = some left) (atHead : back.head? = some right)
    (link : Link heap left right) : Chain heap (front ++ back) := by
  refine List.IsChain.append first second ?_
  intro x xLast y yHead
  rw [atLast] at xLast
  rw [atHead] at yHead
  cases xLast
  cases yHead
  exact link

theorem link_of_append (chain : Chain heap (front ++ back))
    (atLast : front.getLast? = some left) (atHead : back.head? = some right) :
    Link heap left right :=
  (List.isChain_append.mp chain).2.2 left atLast right atHead

/-- A stretch survives an operation that keeps the links into its tail. -/
theorem transport (chain : Chain heap nodes)
    (kept : ∀ left right, left ∈ nodes → right ∈ nodes.tail →
      Link heap left right → Link heap' left right) :
    Chain heap' nodes :=
  List.IsChain.imp_of_mem_tail_imp kept chain

end Chain

variable [DecidableEq Node]

@[simp] theorem setPrev_next (heap : Heap Node) (node : Node) (prev : Option Node) :
    (heap.setPrev node prev).next = heap.next := rfl

@[simp] theorem setPrev_prev (heap : Heap Node) (node : Node) (prev : Option Node) :
    (heap.setPrev node prev).prev = Function.update heap.prev node prev := rfl

@[simp] theorem setNext_prev (heap : Heap Node) (node : Node) (next : Option Node) :
    (heap.setNext node next).prev = heap.prev := rfl

@[simp] theorem setNext_next (heap : Heap Node) (node : Node) (next : Option Node) :
    (heap.setNext node next).next = Function.update heap.next node next := rfl

@[simp] theorem setPrev_deallocated (heap : Heap Node) (node : Node)
    (prev : Option Node) : (heap.setPrev node prev).deallocated = heap.deallocated :=
  rfl

@[simp] theorem setNext_deallocated (heap : Heap Node) (node : Node)
    (next : Option Node) : (heap.setNext node next).deallocated = heap.deallocated :=
  rfl

/-- A fresh sentinel is linked to itself, and no other node is touched. -/
theorem sentinel_links (heap : Heap Node) (list : Node) :
    (heap.sentinel list).deallocated = heap.deallocated ∧
    Link (heap.sentinel list) list list ∧
    ∀ left right, left ≠ list → right ≠ list →
      Link heap left right → Link (heap.sentinel list) left right := by
  refine ⟨rfl, by simp [Link, Heap.sentinel], ?_⟩
  intro left right leftOther rightOther link
  simpa [Link, Heap.sentinel, leftOther, rightOther] using link

/-- Inserting a fresh node in front of `point` links it on both sides and keeps
every other link. -/
theorem insertBefore_links {heap : Heap Node} {prev point node : Node}
    (before : Link heap prev point) (notPrev : node ≠ prev) (notPoint : node ≠ point) :
    (insertBefore heap point node).deallocated = heap.deallocated ∧
    Link (insertBefore heap point node) prev node ∧
    Link (insertBefore heap point node) node point ∧
    ∀ left right, left ≠ node → right ≠ node → right ≠ point →
      Link heap left right → Link (insertBefore heap point node) left right := by
  have prevEq : heap.getPrev point = some prev := before.2
  refine ⟨by simp [insertBefore, prevEq], ?_, ?_, ?_⟩
  · simp [Link, insertBefore, prevEq, notPrev.symm, notPoint]
  · simp [Link, insertBefore, prevEq]
  · intro left right leftNew rightNew rightPoint link
    have leftPrev : left ≠ prev := fun equal =>
      rightPoint (link.right_unique (equal ▸ before))
    simpa [Link, insertBefore, prevEq, leftNew, rightNew, rightPoint, leftPrev] using link

/-- Unlinking a node joins its neighbours and keeps every link it had no part
in. -/
theorem unlink_links {heap : Heap Node} {prev node next : Node}
    (before : Link heap prev node) (behind : Link heap node next)
    (notPrev : node ≠ prev) (notNext : node ≠ next) :
    ∃ heap', unlink heap node = some heap' ∧
      heap'.deallocated = heap.deallocated ∧ Link heap' prev next ∧
      ∀ left right, left ≠ node → right ≠ node →
        Link heap left right → Link heap' left right := by
  have nextEq : heap.getNext node = some next := behind.1
  have prevEq : heap.getPrev node = some prev := before.2
  refine ⟨_, by simp only [unlink, nextEq, prevEq]; rfl, by simp, ?_, ?_⟩
  · simp [Link, notPrev.symm, notNext.symm]
  · intro left right leftOther rightOther link
    have leftPrev : left ≠ prev := fun equal =>
      rightOther (link.right_unique (equal ▸ before))
    have rightNext : right ≠ next := fun equal =>
      leftOther (link.left_unique (equal ▸ behind))
    simpa [Link, leftOther, rightOther, leftPrev, rightNext] using link

/-- Moving the nonempty segment from `first` up to `last` in front of `point`
makes three links and keeps every link into any other node. -/
theorem moveBefore_links {heap : Heap Node}
    {preFirst first lastToIns last prev point : Node}
    (intoFirst : Link heap preFirst first) (intoLast : Link heap lastToIns last)
    (intoPoint : Link heap prev point) (notFirst : point ≠ first)
    (notLast : point ≠ last) (nonempty : first ≠ last) :
    ∃ heap', moveBefore heap point first last = some heap' ∧
      heap'.deallocated = heap.deallocated ∧
      Link heap' preFirst last ∧ Link heap' prev first ∧ Link heap' lastToIns point ∧
      ∀ left right, right ≠ first → right ≠ last → right ≠ point →
        Link heap left right → Link heap' left right := by
  -- The three cut links leave three different nodes.
  have preFirst_lastToIns : preFirst ≠ lastToIns := fun equal =>
    nonempty (intoFirst.right_unique (equal ▸ intoLast))
  have preFirst_prev : preFirst ≠ prev := fun equal =>
    notFirst (intoPoint.right_unique (equal ▸ intoFirst))
  have lastToIns_prev : lastToIns ≠ prev := fun equal =>
    notLast (intoPoint.right_unique (equal ▸ intoLast))
  have lastEq : heap.getPrev last = some lastToIns := intoLast.2
  have firstEq : heap.getPrev first = some preFirst := intoFirst.2
  have pointEq : ((heap.setPrev last (some preFirst)).setNext preFirst
      (some last)).getPrev point = some prev := by
    simpa [Heap.getPrev, notLast] using intoPoint.2
  refine ⟨_, by
    simp only [moveBefore, notFirst, nonempty, notLast.symm, or_self, if_false,
      lastEq, firstEq, pointEq, Option.bind_eq_bind, Option.bind_some]
    rfl, by simp, ?_, ?_, ?_, ?_⟩
  · simp [Link, preFirst_lastToIns, preFirst_prev, notLast.symm, nonempty.symm]
  · simp [Link, lastToIns_prev.symm]
  · simp [Link, notFirst]
  · intro left right rightFirst rightLast rightPoint link
    have leftPreFirst : left ≠ preFirst := fun equal =>
      rightFirst (link.right_unique (equal ▸ intoFirst))
    have leftLastToIns : left ≠ lastToIns := fun equal =>
      rightLast (link.right_unique (equal ▸ intoLast))
    have leftPrev : left ≠ prev := fun equal =>
      rightPoint (link.right_unique (equal ▸ intoPoint))
    simpa [Link, leftPreFirst, leftLastToIns, leftPrev, rightFirst, rightLast,
      rightPoint] using link

end LeechJit.IntrusiveList
