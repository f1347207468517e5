import LeechJit.Graph.DfsOrder
import LeechJit.Graph.DomTree
import LeechJit.Graph.DsuFind

/-! # The numbering of the dominator tree builder -/

namespace LeechJit.Graph

open Semidominator

variable {Node : Type}

theorem FromDFSTimeMap.write_eq {α : Type} {map : FromDFSTimeMap α} {time : DFSTime}
    (value : α) (inside : time < map.length) :
    FromDFSTimeMap.write map time value = .ok (map.set time value) := by
  have read : FromDFSTimeMap.at map time = .ok map[time] :=
    FromDFSTimeMap.at_eq_ok.mpr (List.getElem?_eq_getElem inside)
  simp [FromDFSTimeMap.write, read]

/-- The maps once the nodes of `front` have been numbered. -/
structure NumberedUpTo (graph : Graph Node) (front : List Node)
    (builder : DomTreeBuilder Node) : Prop where
  dfsTimes : builder.dfsTimes = front
  times : ∀ time node, front[time]? = some node →
    builder.revIdMap (graph.id node) = some time
  sdomsLength : builder.sdoms.length = graph.size
  idomsLength : builder.idoms.length = graph.size
  sdoms : ∀ time, time < front.length → builder.sdoms[time]? = some time
  idoms : ∀ time, time < front.length → builder.idoms[time]? = some time
  dfsParents : ∀ time node prev, front[time + 1]? = some node → front[time]? = some prev →
    builder.dfsParents (graph.id node) = some prev
  sdommed : ∀ id, builder.sdommed id = []

namespace NumberedUpTo

variable {graph : Graph Node} {front : List Node} {builder : DomTreeBuilder Node}

theorem visitNode {prev node : Node} (numbered : NumberedUpTo graph front builder)
    (room : front.length < graph.size)
    (fresh : ∀ other ∈ front, graph.id other ≠ graph.id node)
    (isPrev : ∀ last, front.getLast? = some last → prev = last) :
    ∃ after, builder.visitNode graph prev node = .ok after ∧
      NumberedUpTo graph (front ++ [node]) after := by
  have timesLength : builder.dfsTimes.length = front.length := by rw [numbered.dfsTimes]
  have sdomsRoom : front.length < builder.sdoms.length := by rw [numbered.sdomsLength]; exact room
  have idomsRoom : front.length < builder.idoms.length := by rw [numbered.idomsLength]; exact room
  have earlier : ∀ time (other : Node), (front ++ [node])[time]? = some other →
      (time < front.length ∧ front[time]? = some other) ∨
        (time = front.length ∧ other = node) := by
    intro time other placed
    by_cases inFront : time < front.length
    · rw [List.getElem?_append_left inFront] at placed
      exact .inl ⟨inFront, placed⟩
    · rw [List.getElem?_append_right (by omega)] at placed
      right
      by_cases isLast : time - front.length = 0
      · rw [isLast] at placed
        have equal : node = other := by simpa using placed
        exact ⟨by omega, equal.symm⟩
      · have past : [node].length ≤ time - front.length := by simp; omega
        rw [List.getElem?_eq_none past] at placed
        cases placed
  let after : DomTreeBuilder Node :=
    { builder with
      dfsTimes := builder.dfsTimes ++ [node]
      revIdMap := builder.revIdMap.insert (graph.id node) front.length
      sdoms := builder.sdoms.set front.length front.length
      idoms := builder.idoms.set front.length front.length
      dfsParents := builder.dfsParents.insert (graph.id node) prev }
  have visited : builder.visitNode graph prev node = .ok after := by
    simp only [DomTreeBuilder.visitNode, timesLength, FromDFSTimeMap.write_eq _ sdomsRoom,
      FromDFSTimeMap.write_eq _ idomsRoom, Result.ok_bind, Result.pure_eq_ok, after]
  refine ⟨after, visited, ?_⟩
  constructor
  case dfsTimes => simp [after, numbered.dfsTimes]
  case times =>
    intro time other placed
    rcases earlier time other placed with ⟨inside, inFront⟩ | ⟨rfl, rfl⟩
    · have differ := fresh other (List.mem_of_getElem? inFront)
      simpa [after, FromIdMap.insert, differ] using numbered.times time other inFront
    · simp [after, FromIdMap.insert]
  case sdomsLength => simpa [after] using numbered.sdomsLength
  case idomsLength => simpa [after] using numbered.idomsLength
  case sdoms =>
    intro time inside
    by_cases isNew : time = front.length
    · subst isNew
      exact List.getElem?_set_self sdomsRoom
    · rw [List.length_append, List.length_singleton] at inside
      have apart : front.length ≠ time := fun equal => isNew equal.symm
      simpa [after, List.getElem?_set_ne apart] using numbered.sdoms time (by omega)
  case idoms =>
    intro time inside
    by_cases isNew : time = front.length
    · subst isNew
      exact List.getElem?_set_self idomsRoom
    · rw [List.length_append, List.length_singleton] at inside
      have apart : front.length ≠ time := fun equal => isNew equal.symm
      simpa [after, List.getElem?_set_ne apart] using numbered.idoms time (by omega)
  case dfsParents =>
    intro time other before placed beforePlaced
    rcases earlier (time + 1) other placed with ⟨inside, inFront⟩ | ⟨isLast, rfl⟩
    · rcases earlier time before beforePlaced with ⟨-, beforeFront⟩ | ⟨equal, -⟩
      · have differ := fresh other (List.mem_of_getElem? inFront)
        simpa [after, FromIdMap.insert, differ] using
          numbered.dfsParents time other before inFront beforeFront
      · omega
    · rcases earlier time before beforePlaced with ⟨-, beforeFront⟩ | ⟨equal, -⟩
      · have atLast : front.getLast? = some before := by
          rw [List.getLast?_eq_getElem?, ← isLast]
          simpa using beforeFront
        simp [after, FromIdMap.insert, isPrev before atLast]
      · omega
  case sdommed => exact numbered.sdommed

theorem visitNodes {order rest : List Node} {prev : Node}
    (numbered : NumberedUpTo graph front builder) (whole : order = front ++ rest)
    (room : order.length ≤ graph.size)
    (ids : order.Pairwise fun left right => graph.id left ≠ graph.id right)
    (isPrev : ∀ last, front.getLast? = some last → prev = last) :
    ∃ after, builder.visitNodes graph prev rest = .ok after ∧
      NumberedUpTo graph order after := by
  induction rest generalizing front builder prev with
  | nil =>
      rw [List.append_nil] at whole
      subst whole
      exact ⟨builder, rfl, numbered⟩
  | cons node rest induction =>
      subst whole
      have sizes := room
      rw [List.length_append, List.length_cons] at sizes
      have fresh : ∀ other ∈ front, graph.id other ≠ graph.id node := fun other member =>
        (List.pairwise_append.mp ids).2.2 other member node List.mem_cons_self
      rcases numbered.visitNode (by omega) fresh isPrev with ⟨next, first, numberedNext⟩
      have split : front ++ node :: rest = (front ++ [node]) ++ rest := by simp
      have isLast : ∀ last, (front ++ [node]).getLast? = some last → node = last := by simp
      rcases induction numberedNext split isLast with ⟨after, others, final⟩
      exact ⟨after, by simp [DomTreeBuilder.visitNodes, first, others], final⟩

end NumberedUpTo

variable [DecidableEq Node] (cfg : Cfg Node)

/-- The order of discovery goes over all blocks. -/
theorem preOrder_perm : cfg.depthFirstSearchPreOrder.Perm cfg.nodes := by
  apply (List.perm_ext_iff_of_nodup preOrder_nodup cfg.closed.nodup).mpr
  intro node
  rw [mem_preOrder cfg.closed]
  exact ⟨cfg.closed.mem_of_reachable, cfg.allReachable node⟩

section Numbering

variable {graph : Graph Node}

theorem preOrder_ids (closed : graph.Closed)
    (ids : ∀ left ∈ graph.nodes, ∀ right ∈ graph.nodes, graph.id left = graph.id right →
      left = right) :
    graph.depthFirstSearchPreOrder.Pairwise fun left right => graph.id left ≠ graph.id right := by
  have inNodes : ∀ node ∈ graph.depthFirstSearchPreOrder, node ∈ graph.nodes :=
    fun node member => closed.mem_of_reachable ((mem_preOrder closed).mp member)
  have nodup : graph.depthFirstSearchPreOrder.Nodup := preOrder_nodup
  refine nodup.imp_of_mem ?_
  intro left right leftMem rightMem different equal
  exact different (ids left (inNodes left leftMem) right (inNodes right rightMem) equal)

theorem doDFS_numbered (closed : graph.Closed)
    (ids : ∀ left ∈ graph.nodes, ∀ right ∈ graph.nodes, graph.id left = graph.id right →
      left = right) :
    ∃ builder, DomTreeBuilder.doDFS graph
        { sdoms := List.replicate graph.size 0
          idoms := List.replicate graph.size 0 } = .ok builder ∧
      NumberedUpTo graph graph.depthFirstSearchPreOrder builder := by
  have start : NumberedUpTo graph []
      { sdoms := List.replicate graph.size 0, idoms := List.replicate graph.size 0 } :=
    { dfsTimes := rfl
      times := by simp
      sdomsLength := by simp
      idomsLength := by simp
      sdoms := by simp
      idoms := by simp
      dfsParents := by simp
      sdommed := by simp }
  have room := (dfsRun_invariant graph).discovered_length_le closed
  exact start.visitNodes rfl room (preOrder_ids closed ids) (by simp)

end Numbering

end LeechJit.Graph
