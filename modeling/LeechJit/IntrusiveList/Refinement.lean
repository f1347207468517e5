import LeechJit.IntrusiveList.Links
import LeechJit.IntrusiveList.Sequences

/-! # The intrusive list refines sequences

`Represents` ties a heap to plain sequences: the nodes of each list form one
closed chain through its sentinel, no node is in two lists, and the deallocation
log is the abstract one. This file shows that inserting and erasing nodes keep
the heap representing the result on plain sequences.
-/

namespace LeechJit.IntrusiveList

open Cursor

variable {Node : Type}

/-- No node stands twice in a list, and none in two lists. -/
structure Sequences.WellFormed (state : Sequences Node) : Prop where
  nodup : ∀ list ∈ state.lists, (list :: state.contents list).Nodup
  /-- Each node belongs to the list it is in, and to no other. -/
  owned : ∃ owner : Node → Node, ∀ list ∈ state.lists,
    ∀ node ∈ list :: state.contents list, owner node = list

theorem Sequences.WellFormed.eq_of_mem {state : Sequences Node}
    (wellFormed : state.WellFormed) {left right node : Node}
    (leftMem : left ∈ state.lists) (rightMem : right ∈ state.lists)
    (inLeft : node ∈ left :: state.contents left)
    (inRight : node ∈ right :: state.contents right) : left = right := by
  rcases wellFormed.owned with ⟨owner, owned⟩
  exact (owned left leftMem node inLeft).symm.trans (owned right rightMem node inRight)

/-- One list is rewritten with nodes it had and nodes that were in no list. -/
theorem Sequences.WellFormed.setContents [DecidableEq Node] {state : Sequences Node}
    (wellFormed : state.WellFormed) {list : Node} {values : List Node}
    (listMem : list ∈ state.lists) (nodup : (list :: values).Nodup)
    (origin : ∀ node ∈ values, node ∈ state.contents list ∨ state.Unlinked node) :
    (state.setContents list values).WellFormed := by
  refine ⟨?_, ?_⟩
  · intro other otherMem
    by_cases same : other = list
    · subst same
      simpa using nodup
    · simpa [Sequences.setContents_other _ _ same] using
        wellFormed.nodup other otherMem
  · rcases wellFormed.owned with ⟨owner, owned⟩
    refine ⟨fun node => if node ∈ values then list else owner node, ?_⟩
    intro other otherMem node member
    by_cases same : other = list
    · subst same
      rcases List.mem_cons.mp member with rfl | inValues
      · have sentinelFresh : node ∉ values := (List.nodup_cons.mp nodup).1
        simpa [sentinelFresh] using owned node otherMem node (by simp)
      · have inNew : node ∈ values := by simpa using inValues
        simp [inNew]
    · have inOld : node ∈ other :: state.contents other := by
        simpa [Sequences.setContents_other _ _ same] using member
      have notInNew : node ∉ values := by
        intro inNew
        rcases origin node inNew with inList | unlinked
        · exact same (wellFormed.eq_of_mem otherMem listMem inOld
            (List.mem_cons_of_mem _ inList))
        · exact unlinked other otherMem inOld
      simpa [notInNew] using owned other otherMem node inOld

structure Represents (heap : Heap Node) (state : Sequences Node) : Prop where
  chained : ∀ list ∈ state.lists,
    Chain heap (list :: state.contents list ++ [list])
  wellFormed : state.WellFormed
  deallocated : heap.deallocated = state.freed

/-- A list keeps its chain when the links between its own nodes are kept. -/
theorem Represents.transport {heap heap' : Heap Node} {state : Sequences Node}
    (represents : Represents heap state) {list : Node} (listMem : list ∈ state.lists)
    (kept : ∀ left right, left ∈ list :: state.contents list →
      right ∈ list :: state.contents list → Link heap left right →
      Link heap' left right) :
    Chain heap' (list :: state.contents list ++ [list]) := by
  refine Chain.transport (represents.chained list listMem) ?_
  intro left right leftMem rightMem link
  have rightIn := List.mem_of_mem_tail rightMem
  exact kept left right (by simp at leftMem ⊢; tauto) (by simp at rightIn ⊢; tauto) link

theorem Sequences.IsPosition.mem {state : Sequences Node} {list pos : Node}
    (position : state.IsPosition list pos) : pos ∈ list :: state.contents list := by
  rcases position with rfl | member
  · simp
  · simp [member]

/-- The first node behind a cut stands neither in front of it nor again behind
it. -/
theorem not_mem_of_head {list pos : Node} {front back : List Node}
    (nodup : (list :: (front ++ back)).Nodup)
    (head : (back ++ [list]).head? = some pos) :
    pos ∉ front ∧ pos ∉ (back ++ [list]).tail := by
  have fresh := (List.nodup_cons.mp nodup).1
  have parts := List.nodup_append.mp (List.nodup_cons.mp nodup).2
  cases back with
  | nil =>
      have posEq : list = pos := by simpa using head
      subst posEq
      exact ⟨fun member => fresh (by simp [member]), by simp⟩
  | cons first rest =>
      have posEq : first = pos := by simpa using head
      subst posEq
      refine ⟨fun member => parts.2.2 first member first (by simp) rfl, ?_⟩
      intro member
      have cases : first ∈ rest ∨ first = list := by simpa using member
      rcases cases with inRest | isList
      · exact (List.nodup_cons.mp parts.2.1).1 inRest
      · exact fresh (by simp [← isList])

/-- The node in front of a position, with the link between them. -/
theorem Represents.exists_link {heap : Heap Node} {state : Sequences Node}
    {list pos : Node} (represents : Represents heap state)
    (listMem : list ∈ state.lists) {front back : List Node}
    (contents : state.contents list = front ++ back)
    (head : (back ++ [list]).head? = some pos) :
    ∃ prev, (list :: front).getLast? = some prev ∧ Link heap prev pos := by
  have chain := represents.chained list listMem
  rw [contents] at chain
  have whole : Chain heap ((list :: front) ++ (back ++ [list])) := by
    simpa using chain
  exact ⟨(list :: front).getLast (by simp), List.getLast?_eq_some_getLast _,
    whole.link_of_append (List.getLast?_eq_some_getLast (by simp)) head⟩

variable [DecidableEq Node]

namespace Represents

variable {heap heap' : Heap Node} {state : Sequences Node}
  {list pos node : Node} {values freed : List Node}

/-- One list is rewritten: its new chain is given, and every other list keeps
its links. -/
theorem setContents (represents : Represents heap state)
    (listMem : list ∈ state.lists)
    (chain : Chain heap' (list :: values ++ [list]))
    (nodup : (list :: values).Nodup)
    (others : ∀ other ∈ state.lists, other ≠ list →
      Chain heap' (other :: state.contents other ++ [other]))
    (origin : ∀ node ∈ values, node ∈ state.contents list ∨ state.Unlinked node)
    (deallocated : heap'.deallocated = freed) :
    Represents heap' { state.setContents list values with freed := freed } := by
  have wellFormed := represents.wellFormed.setContents listMem nodup origin
  refine ⟨?_, ⟨wellFormed.nodup, wellFormed.owned⟩, deallocated⟩
  intro other otherMem
  by_cases same : other = list
  · subst same
    simpa [Sequences.setContents] using chain
  · simpa [Sequences.setContents, same] using others other otherMem same

/-- `insert` puts a fresh node just before a position. -/
theorem insert (represents : Represents heap state) (listMem : list ∈ state.lists)
    (position : state.IsPosition list pos) (unlinked : state.Unlinked node) :
    Represents (insert heap pos node)
      (state.setContents list (insertAt pos [node] (state.contents list))) := by
  have nodup := represents.wellFormed.nodup list listMem
  rcases exists_split position nodup with
    ⟨front, back, contents, head, frontEq, backEq⟩
  have chain := represents.chained list listMem
  have fresh := unlinked list listMem
  rw [contents] at nodup chain fresh
  have cutFresh := not_mem_of_head nodup head
  rcases represents.exists_link listMem contents head with ⟨prev, atLast, before⟩
  have prevMem : prev ∈ list :: front := List.mem_of_getLast? atLast
  have posMem : pos ∈ back ++ [list] := List.mem_of_head? head
  have nodePrev : node ≠ prev := by
    rintro rfl
    exact fresh (by simp only [List.mem_cons, List.mem_append] at prevMem ⊢; tauto)
  have nodePos : node ≠ pos := by
    rintro rfl
    exact fresh (by simp only [List.mem_cons, List.mem_append] at posMem ⊢; tauto)
  rcases insertBefore_links before nodePrev nodePos with
    ⟨deallocated, intoNode, intoPos, kept⟩
  have parts := List.isChain_append.mp
    (show Chain heap ((list :: front) ++ (back ++ [list])) by simpa using chain)
  have frontChain : Chain (insertBefore heap pos node) (list :: front) :=
    Chain.transport parts.1 fun left right leftMem rightMem link =>
      kept left right
        (fun equal => fresh (by subst equal; simp at leftMem ⊢; tauto))
        (fun equal => fresh (by subst equal; simp at rightMem ⊢; tauto))
        (fun equal => cutFresh.1 (equal ▸ rightMem)) link
  have backChain : Chain (insertBefore heap pos node) (back ++ [list]) :=
    Chain.transport parts.2.1 fun left right leftMem rightMem link =>
      kept left right
        (fun equal => fresh (by subst equal; simp at leftMem ⊢; tauto))
        (fun equal => fresh (by
          have rightIn := List.mem_of_mem_tail rightMem
          subst equal; simp at rightIn ⊢; tauto))
        (fun equal => cutFresh.2 (equal ▸ rightMem)) link
  have value : insertAt pos [node] (state.contents list) = front ++ [node] ++ back := by
    rw [insertAt, frontEq, backEq]
  rw [value]
  refine represents.setContents listMem ?_ ?_ ?_ ?_
    (deallocated.trans represents.deallocated)
  · have nodeChain : Chain (insertBefore heap pos node) ([node] ++ (back ++ [list])) :=
      Chain.join (List.isChain_singleton node) backChain rfl head intoPos
    simpa [IntrusiveList.insert] using
      Chain.join frontChain nodeChain atLast (by simp) intoNode
  · simp only [List.nodup_cons, List.mem_append, List.nodup_append, List.mem_cons] at nodup fresh ⊢
    grind
  · intro other otherMem different
    refine represents.transport otherMem fun left right leftMem rightMem link => ?_
    have absent := unlinked other otherMem
    refine kept left right (fun equal => absent (equal ▸ leftMem))
      (fun equal => absent (equal ▸ rightMem)) ?_ link
    exact fun equal => different
      (represents.wellFormed.eq_of_mem otherMem listMem (equal ▸ rightMem) position.mem)
  · intro value member
    rw [contents]
    simp only [List.mem_append, List.mem_singleton] at member ⊢
    rcases member with (inFront | isNode) | inBack
    · exact .inl (.inl inFront)
    · exact .inr (isNode ▸ unlinked)
    · exact .inl (.inr inBack)

/-- Unlinking an element takes it out of its list. -/
theorem unlink (represents : Represents heap state) (listMem : list ∈ state.lists)
    (member : node ∈ state.contents list) :
    ∃ heap', unlink heap node = some heap' ∧
      Represents heap' (state.setContents list ((state.contents list).erase node)) := by
  have nodup := represents.wellFormed.nodup list listMem
  have chain := represents.chained list listMem
  rcases List.append_of_mem member with ⟨front, back, contents⟩
  rw [contents] at nodup chain
  have unique : list ∉ front ∧ list ≠ node ∧ list ∉ back ∧ node ∉ front ∧ node ∉ back := by
    simp only [List.nodup_cons, List.mem_append, List.nodup_append, List.mem_cons] at nodup
    grind
  rcases unique with ⟨listFront, listNode, listBack, nodeFront, nodeBack⟩
  rcases represents.exists_link listMem contents rfl with ⟨prev, prevLast, before⟩
  have whole : Chain heap ((list :: front) ++ ([node] ++ (back ++ [list]))) := by
    simpa using chain
  have parts := List.isChain_append.mp whole
  have backParts := List.isChain_append.mp parts.2.1
  obtain ⟨next, nextHead⟩ : ∃ next, (back ++ [list]).head? = some next :=
    ⟨(back ++ [list]).head (by simp), List.head?_eq_some_head _⟩
  have behind : Link heap node next := backParts.2.2 node rfl next nextHead
  have prevMem : prev ∈ list :: front := List.mem_of_getLast? prevLast
  have nextMem : next ∈ back ++ [list] := List.mem_of_head? nextHead
  rcases unlink_links before behind
      (by rintro rfl; simp at prevMem; grind) (by rintro rfl; simp at nextMem; grind) with
    ⟨heap', result, deallocated, joined, kept⟩
  have removed : (state.contents list).erase node = front ++ back := by
    rw [contents, List.erase_append_right _ nodeFront, List.erase_cons_head]
  refine ⟨heap', result, ?_⟩
  rw [removed]
  refine represents.setContents listMem ?_ ?_ ?_ ?_
    (deallocated.trans represents.deallocated)
  · have frontChain : Chain heap' (list :: front) :=
      Chain.transport parts.1 fun left right leftMem rightMem link =>
        kept left right (fun equal => by subst equal; simp at leftMem; grind)
          (fun equal => nodeFront (equal ▸ rightMem)) link
    have backChain : Chain heap' (back ++ [list]) :=
      Chain.transport backParts.2.1 fun left right leftMem rightMem link =>
        kept left right (fun equal => by subst equal; simp at leftMem; grind)
          (fun equal => by
            have rightIn := List.mem_of_mem_tail rightMem
            subst equal; simp at rightIn; grind) link
    simpa using Chain.join frontChain backChain prevLast nextHead joined
  · simp only [List.nodup_cons, List.mem_append, List.nodup_append, List.mem_cons] at nodup ⊢
    grind
  · intro other otherMem different
    refine represents.transport otherMem fun left right leftMem rightMem link => ?_
    have nodeMem : node ∈ list :: state.contents list := List.mem_cons_of_mem _ member
    exact kept left right
      (fun equal => different
        (represents.wellFormed.eq_of_mem otherMem listMem (equal ▸ leftMem) nodeMem))
      (fun equal => different
        (represents.wellFormed.eq_of_mem otherMem listMem (equal ▸ rightMem) nodeMem)) link
  · intro value valueMem
    rw [contents]
    simp only [List.mem_append, List.mem_cons] at valueMem ⊢
    tauto

/-- `remove` hands back the next position. -/
theorem remove (represents : Represents heap state) (listMem : list ∈ state.lists)
    {front back : List Node} (contents : state.contents list = front ++ node :: back) :
    ∃ heap', IntrusiveList.remove heap node = some (heap', (back ++ [list]).head (by simp)) ∧
      Represents heap' (state.setContents list ((state.contents list).erase node)) := by
  have member : node ∈ state.contents list := by simp [contents]
  rcases represents.unlink listMem member with ⟨heap', result, after⟩
  have chain := represents.chained list listMem
  rw [contents] at chain
  have parts := List.isChain_append.mp
    (show Chain heap ((list :: front) ++ ([node] ++ (back ++ [list]))) by simpa using chain)
  have behind : Link heap node ((back ++ [list]).head (by simp)) :=
    (List.isChain_append.mp parts.2.1).2.2 node rfl _ (List.head?_eq_some_head _)
  refine ⟨heap', ?_, after⟩
  have nextEq : heap.getNext node = some ((back ++ [list]).head (by simp)) := behind.1
  simp [IntrusiveList.remove, nextEq, result]

/-- `erase` removes an element and deallocates it, once. -/
theorem erase (represents : Represents heap state) (listMem : list ∈ state.lists)
    {front back : List Node} (contents : state.contents list = front ++ node :: back) :
    ∃ heap', IntrusiveList.erase heap list node =
        some (heap', (back ++ [list]).head (by simp)) ∧
      Represents heap' { state.setContents list (front ++ back) with
        freed := state.freed ++ [node] } := by
  rcases represents.remove listMem contents with ⟨heap', result, after⟩
  have nodup := represents.wellFormed.nodup list listMem
  rw [contents] at nodup
  simp only [List.nodup_cons, List.mem_append, List.nodup_append, List.mem_cons] at nodup
  have notEnd : node ≠ list := by grind
  have nodeFront : node ∉ front := by grind
  have removed : (state.contents list).erase node = front ++ back := by
    rw [contents, List.erase_append_right _ nodeFront, List.erase_cons_head]
  rw [removed] at after
  refine ⟨deallocate heap' node, ?_, ?_⟩
  · simp [IntrusiveList.erase, notEnd, result]
  · refine ⟨after.chained, ⟨after.wellFormed.nodup, after.wellFormed.owned⟩, ?_⟩
    simpa [deallocate] using after.deallocated

/-- The loop of `erase(first, last)` erases exactly the range, node by node;
the induction is on the nodes still to erase. -/
theorem eraseRange (represents : Represents heap state) (listMem : list ∈ state.lists)
    {front middle back : List Node} {first last : Node}
    (contents : state.contents list = front ++ middle ++ back)
    (firstHead : (middle ++ back ++ [list]).head? = some first)
    (lastHead : (back ++ [list]).head? = some last)
    {fuel : Nat} (enough : middle.length < fuel) :
    ∃ heap', IntrusiveList.eraseRange list last fuel heap first = some heap' ∧
      Represents heap' { state.setContents list (front ++ back) with
        freed := state.freed ++ middle } := by
  induction middle generalizing heap state first fuel with
  | nil =>
      obtain ⟨fuel, rfl⟩ : ∃ rounds, fuel = rounds + 1 := ⟨fuel - 1, by simp at enough; omega⟩
      have equal : first = last := by
        simpa [lastHead] using firstHead.symm
      refine ⟨heap, by simp [IntrusiveList.eraseRange, equal], ?_⟩
      have unchanged : state.setContents list (front ++ back) = state := by
        have same : front ++ back = state.contents list := by simp [contents]
        rw [same, Sequences.setContents, Function.update_eq_self]
      simpa [unchanged] using represents
  | cons node rest induction =>
      obtain ⟨fuel, rfl⟩ : ∃ rounds, fuel = rounds + 1 := ⟨fuel - 1, by simp at enough; omega⟩
      have firstEq : node = first := by simpa using firstHead
      subst firstEq
      have nodup := represents.wellFormed.nodup list listMem
      rw [contents] at nodup
      have notLast : node ≠ last := by
        have nodup' : (list :: ((front ++ node :: rest) ++ back)).Nodup := by
          simpa using nodup
        have fresh := not_mem_of_head nodup' lastHead
        rintro rfl
        exact fresh.1 (by simp)
      have atNode : state.contents list = front ++ node :: (rest ++ back) := by
        simpa using contents
      rcases represents.erase listMem atNode with ⟨heap₁, erased, represents₁⟩
      have headEq : (rest ++ back ++ [list]).head? =
          some ((rest ++ back ++ [list]).head (by simp)) := List.head?_eq_some_head _
      rcases induction represents₁ (by simpa using listMem) (by simp [Sequences.setContents])
          headEq (by simpa using enough) with ⟨heap₂, ran, represents₂⟩
      refine ⟨heap₂, ?_, ?_⟩
      · simp only [IntrusiveList.eraseRange, notLast, if_false, erased,
          Option.bind_eq_bind, Option.bind_some]
        exact ran
      · simpa [Sequences.setContents, Function.update_idem] using represents₂

end Represents

end LeechJit.IntrusiveList
