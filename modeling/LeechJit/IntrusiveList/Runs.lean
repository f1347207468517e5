import LeechJit.IntrusiveList.Splice

/-! # Programs over intrusive lists

One operation called as the interface asks runs to completion and keeps the
heap representing the plain sequences; so does every program. A list that is
represented is walked in full, in both directions.
-/

namespace LeechJit.IntrusiveList

open Cursor

variable {Node : Type} [DecidableEq Node]

/-! ## Walking a represented list -/

/-- Following a chain of steps up to `stop` lists its nodes. -/
theorem walk_chain {step : Node → Option Node} {stop current : Node}
    {nodes : List Node} {fuel : Nat}
    (chain : (nodes ++ [stop]).IsChain fun left right => step left = some right)
    (fresh : stop ∉ nodes) (enough : nodes.length < fuel)
    (head : (nodes ++ [stop]).head? = some current) :
    walk step stop fuel current = some nodes := by
  induction nodes generalizing current fuel with
  | nil =>
      obtain ⟨fuel, rfl⟩ : ∃ rounds, fuel = rounds + 1 := ⟨fuel - 1, by simp at enough; omega⟩
      have atStop : stop = current := by simpa using head
      simp [walk, atStop]
  | cons node rest induction =>
      obtain ⟨fuel, rfl⟩ : ∃ rounds, fuel = rounds + 1 := ⟨fuel - 1, by simp at enough; omega⟩
      have nodeEq : node = current := by simpa using head
      subst nodeEq
      have notStop : node ≠ stop := fun equal => fresh (by simp [equal])
      obtain ⟨next, nextHead⟩ : ∃ next, (rest ++ [stop]).head? = some next :=
        ⟨(rest ++ [stop]).head (by simp), List.head?_eq_some_head _⟩
      have parts := List.isChain_cons.mp chain
      have stepEq : step node = some next := parts.1 next nextHead
      have walked := induction parts.2 (fun member => fresh (by simp [member]))
        (by simpa using enough) nextHead
      simp [walk, notStop, stepEq, walked]

namespace Represents

variable {heap : Heap Node} {state : Sequences Node} {list : Node} {fuel : Nat}

theorem walkForward (represents : Represents heap state) (listMem : list ∈ state.lists)
    (enough : (state.contents list).length < fuel) :
    walkForward fuel heap list = some (state.contents list) := by
  have fresh := (List.nodup_cons.mp (represents.wellFormed.nodup list listMem)).1
  have parts := List.isChain_cons.mp (represents.chained list listMem)
  obtain ⟨first, firstHead⟩ : ∃ first, (state.contents list ++ [list]).head? = some first :=
    ⟨(state.contents list ++ [list]).head (by simp), List.head?_eq_some_head _⟩
  have firstEq : heap.getNext list = some first := (parts.1 first firstHead).1
  have steps : (state.contents list ++ [list]).IsChain fun left right =>
      heap.getNext left = some right := parts.2.imp fun _ _ link => link.1
  have walked := walk_chain steps fresh enough firstHead
  simp [IntrusiveList.walkForward, firstEq, walked]

theorem walkBackward (represents : Represents heap state) (listMem : list ∈ state.lists)
    (enough : (state.contents list).length < fuel) :
    walkBackward fuel heap list = some (state.contents list).reverse := by
  have fresh := (List.nodup_cons.mp (represents.wellFormed.nodup list listMem)).1
  -- The chain read from its end is a chain of `prev` steps.
  have reversed : ((list :: state.contents list ++ [list]).reverse).IsChain
      fun left right => Link heap right left :=
    List.isChain_reverse.mpr (represents.chained list listMem)
  simp only [List.cons_append, List.reverse_cons, List.reverse_append, List.reverse_nil,
    List.nil_append] at reversed
  have parts := List.isChain_cons.mp reversed
  obtain ⟨last, lastHead⟩ :
      ∃ last, ((state.contents list).reverse ++ [list]).head? = some last :=
    ⟨((state.contents list).reverse ++ [list]).head (by simp), List.head?_eq_some_head _⟩
  have lastEq : heap.getPrev list = some last := (parts.1 last lastHead).2
  have steps : ((state.contents list).reverse ++ [list]).IsChain fun left right =>
      heap.getPrev left = some right := parts.2.imp fun _ _ link => link.2
  have walked := walk_chain steps (by simpa using fresh) (by simpa using enough) lastHead
  simp [IntrusiveList.walkBackward, lastEq, walked]

/-! ## One operation -/

/-- A new list object is an empty list. -/
theorem construct (represents : Represents heap state) (unlinked : state.Unlinked list) :
    Represents (heap.sentinel list)
      { state.setContents list [] with lists := list :: state.lists } := by
  rcases sentinel_links heap list with ⟨deallocated, closed, kept⟩
  have notMem : list ∉ state.lists := fun member => unlinked list member (by simp)
  have different : ∀ other ∈ state.lists, other ≠ list := fun other otherMem equal =>
    notMem (equal ▸ otherMem)
  refine ⟨?_, ⟨?_, ?_⟩, deallocated.trans represents.deallocated⟩
  · intro other otherMem
    rcases List.mem_cons.mp otherMem with rfl | old
    · simpa [Sequences.setContents, Chain] using closed
    · simp only [Sequences.setContents, Function.update_of_ne (different other old)]
      exact represents.transport old fun left right leftMem rightMem link =>
        kept left right (fun equal => unlinked other old (equal ▸ leftMem))
          (fun equal => unlinked other old (equal ▸ rightMem)) link
  · intro other otherMem
    rcases List.mem_cons.mp otherMem with rfl | old
    · simp [Sequences.setContents]
    · simpa [Sequences.setContents, different other old] using
        represents.wellFormed.nodup other old
  · rcases represents.wellFormed.owned with ⟨owner, owned⟩
    refine ⟨fun node => if node = list then list else owner node, ?_⟩
    intro other otherMem node member
    rcases List.mem_cons.mp otherMem with rfl | old
    · have isList : node = other := by simpa [Sequences.setContents] using member
      simp [isList]
    · have inOld : node ∈ other :: state.contents other := by
        simpa [Sequences.setContents, different other old] using member
      have notList : node ≠ list := fun equal => unlinked other old (equal ▸ inOld)
      simpa [notList] using owned other old node inOld

end Represents

omit [DecidableEq Node] in
/-- The first element of a list is what `begin()` reads. -/
theorem Represents.front {heap : Heap Node} {state : Sequences Node} {list : Node}
    (represents : Represents heap state) (listMem : list ∈ state.lists) :
    front heap list = some (state.begin list) := by
  have parts := List.isChain_cons.mp (represents.chained list listMem)
  have head : (state.contents list ++ [list]).head? = some (state.begin list) := by
    cases contents : state.contents list <;> simp [Sequences.begin, contents]
  exact (parts.1 _ head).1

/-- The node behind an element is what `std::next` reads. -/
theorem Represents.getNext {heap : Heap Node} {state : Sequences Node} {list node : Node}
    (represents : Represents heap state) (listMem : list ∈ state.lists)
    (member : node ∈ state.contents list) :
    heap.getNext node = some (state.after list node) := by
  have nodup := represents.wellFormed.nodup list listMem
  have chain := represents.chained list listMem
  rcases List.append_of_mem member with ⟨front, back, contents⟩
  rw [contents] at nodup chain
  have absent : node ∉ front := by
    simp only [List.nodup_cons, List.mem_append, List.nodup_append, List.mem_cons] at nodup
    grind
  have afterEq : state.after list node = back.head?.getD list := by
    simp [Sequences.after, contents, onward_append_cons back absent]
  have parts := List.isChain_append.mp
    (show Chain heap ((list :: front) ++ ([node] ++ (back ++ [list]))) by simpa using chain)
  have head : (back ++ [list]).head? = some (back.head?.getD list) := by
    cases back <;> simp
  rw [afterEq]
  exact ((List.isChain_append.mp parts.2.1).2.2 node rfl _ head).1

/-- The whole of a list as a range. -/
theorem Sequences.begin_split {state : Sequences Node} {list : Node}
    (nodup : (list :: state.contents list).Nodup) :
    (state.contents list ++ [list]).head? = some (state.begin list) ∧
      slice (state.begin list) list (state.contents list) = state.contents list ∧
      cut (state.begin list) list (state.contents list) = [] := by
  have absent := (List.nodup_cons.mp nodup).1
  cases contents : state.contents list with
  | nil => simp [Sequences.begin, contents, slice, cut, upTo, onward]
  | cons head tail =>
      rw [contents] at absent
      have whole : onward head (head :: tail) = head :: tail := by simp [onward]
      have nothing : upTo head (head :: tail) = [] := by simp [upTo]
      simp [Sequences.begin, contents, slice, cut, whole, nothing,
        upTo_of_not_mem absent, onward_of_not_mem absent]

/-! ## Any operation, any program -/

/-- A bound on the loops of every operation in this state. -/
def Sequences.longest (state : Sequences Node) : Nat :=
  state.lists.foldr (fun list bound => (state.contents list).length + bound) 0

omit [DecidableEq Node] in
theorem Sequences.length_le_longest {state : Sequences Node} {list : Node}
    (listMem : list ∈ state.lists) : (state.contents list).length ≤ state.longest := by
  unfold longest
  generalize state.lists = lists at listMem
  induction lists with
  | nil => cases listMem
  | cons head tail induction =>
      rw [List.foldr_cons]
      rcases List.mem_cons.mp listMem with rfl | inTail
      · omega
      · have bound := induction inTail
        omega

theorem Operation.run_represents {heap : Heap Node} {state : Sequences Node}
    {operation : Operation Node} (represents : Represents heap state)
    (valid : operation.Valid state) {fuel : Nat} (enough : state.longest < fuel) :
    ∃ heap', operation.run fuel heap = some heap' ∧
      Represents heap' (operation.apply state) := by
  cases operation with
  | construct list =>
      exact ⟨_, rfl, by simpa [apply, erased] using represents.construct valid⟩
  | moveConstruct list that =>
      rcases valid with ⟨unlinked, thatMem⟩
      have started := represents.construct unlinked
      have different : that ≠ list := fun equal =>
        unlinked that thatMem (by simp [equal])
      have contents : (state.setContents list []).contents that = state.contents that :=
        Sequences.setContents_other _ _ different
      have nodup := represents.wellFormed.nodup that thatMem
      rcases Sequences.begin_split nodup with ⟨head, segmentEq, cutEq⟩
      have listFresh : list ∉ state.contents that := fun member =>
        unlinked that thatMem (by simp [member])
      have can : Sequences.CanSplice
          { state.setContents list [] with lists := list :: state.lists }
          list list that (state.begin that) that := by
        refine ⟨by simp, by simp [thatMem], .inl rfl, ?_, ?_, ?_⟩
        · simp only [contents]
          cases values : state.contents that with
          | nil => exact .inl ⟨by simp [Sequences.begin, values], rfl⟩
          | cons head tail => exact .inr ⟨by simp [Sequences.begin, values], .inl rfl⟩
        · intro equal
          have member : state.begin that ∈ state.contents that ++ [that] :=
            List.mem_of_head? head
          rw [← equal] at member
          rcases List.mem_append.mp member with inList | isThat
          · exact listFresh inList
          · exact different (List.mem_singleton.mp isThat).symm
        · simpa only [contents, segmentEq] using listFresh
      rcases started.splice can with ⟨heap', result, represents'⟩
      have frontEq : IntrusiveList.front (heap.sentinel list) that =
          some (state.begin that) := by
        have thatStarted : that ∈ list :: state.lists := by simp [thatMem]
        have read := started.front thatStarted
        simpa [Sequences.begin, contents] using read
      refine ⟨heap', ?_, ?_⟩
      · simp [run, IntrusiveList.moveConstruct, IntrusiveList.spliceAll, frontEq, result]
      · convert represents' using 1
        simp only [apply, erased, Sequences.moveSegment, contents, segmentEq, cutEq]
        simp only [Sequences.setContents, insertAt, upTo, onward]
        congr 1
        · funext other
          by_cases isList : other = list
          · simp [isList, different.symm]
          · by_cases isThat : other = that <;> simp [isList, isThat, different]
        · simp
  | insert list pos node =>
      rcases valid with ⟨listMem, position, unlinked⟩
      exact ⟨_, rfl, by simpa [apply, erased, Sequences.setContents] using
        represents.insert listMem position unlinked⟩
  | pushBack list node =>
      rcases valid with ⟨listMem, unlinked⟩
      have absent := (List.nodup_cons.mp (represents.wellFormed.nodup list listMem)).1
      have atEnd : insertAt list [node] (state.contents list) =
          state.contents list ++ [node] := by
        simp [insertAt, upTo_of_not_mem absent, onward_of_not_mem absent]
      refine ⟨_, rfl, ?_⟩
      simpa [apply, erased, atEnd, IntrusiveList.pushBack, Sequences.setContents] using
        represents.insert listMem (.inl rfl) unlinked
  | remove list pos =>
      rcases valid with ⟨listMem, member⟩
      rcases List.append_of_mem member with ⟨front, back, contents⟩
      rcases represents.remove listMem contents with ⟨heap', result, represents'⟩
      exact ⟨heap', by simp [run, result],
        by simpa [apply, erased, Sequences.setContents] using represents'⟩
  | erase list pos =>
      rcases valid with ⟨listMem, member⟩
      rcases List.append_of_mem member with ⟨front, back, contents⟩
      rcases represents.erase listMem contents with ⟨heap', result, represents'⟩
      have nodup := represents.wellFormed.nodup list listMem
      rw [contents] at nodup
      have absent : pos ∉ front := by
        simp only [List.nodup_cons, List.mem_append, List.nodup_append, List.mem_cons] at nodup
        grind
      have removed : (state.contents list).erase pos = front ++ back := by
        rw [contents, List.erase_append_right _ absent, List.erase_cons_head]
      exact ⟨heap', by simp [run, result], by simpa [apply, erased, removed] using represents'⟩
  | eraseRange list first last =>
      rcases valid with ⟨listMem, range⟩
      rcases range.exists_split (represents.wellFormed.nodup list listMem) with
        ⟨front, middle, back, contents, firstHead, lastHead, segmentEq, cutEq⟩
      have bound := Sequences.length_le_longest listMem
      rw [contents] at bound
      simp only [List.length_append] at bound
      have enough : middle.length < fuel := by omega
      rcases represents.eraseRange listMem contents firstHead lastHead enough with
        ⟨heap', result, represents'⟩
      exact ⟨heap', result, by simpa [apply, erased, segmentEq, cutEq] using represents'⟩
  | clear list =>
      have head := (Sequences.begin_split (represents.wellFormed.nodup list valid)).1
      have bound := Sequences.length_le_longest valid
      have whole : state.contents list = [] ++ state.contents list ++ [] := by simp
      have enough : (state.contents list).length < fuel := by omega
      rcases represents.eraseRange valid whole (by simpa using head) rfl enough with
        ⟨heap', result, represents'⟩
      refine ⟨heap', ?_, by simpa [apply, erased] using represents'⟩
      simp [run, IntrusiveList.clear, represents.front valid, result]
  | splice list pos other first last =>
      rcases represents.splice valid with ⟨heap', result, represents'⟩
      exact ⟨heap', result, by
        simpa [apply, erased, Sequences.moveSegment, Sequences.setContents] using represents'⟩
  | spliceOne list pos other it =>
      rcases valid with ⟨member, can⟩
      rcases represents.splice can with ⟨heap', result, represents'⟩
      refine ⟨heap', ?_, by
        simpa [apply, erased, Sequences.moveSegment, Sequences.setContents] using represents'⟩
      simp [run, IntrusiveList.spliceOne, represents.getNext can.other_mem member, result]
  | spliceAll list pos other =>
      rcases represents.splice valid with ⟨heap', result, represents'⟩
      refine ⟨heap', ?_, by
        simpa [apply, erased, Sequences.moveSegment, Sequences.setContents] using represents'⟩
      simp [run, IntrusiveList.spliceAll, represents.front valid.other_mem, result]

/-- No operation erases a node twice. -/
theorem Operation.erased_nodup {state : Sequences Node} {operation : Operation Node}
    (wellFormed : state.WellFormed) (valid : operation.Valid state) :
    (operation.erased state).Nodup := by
  cases operation <;> simp only [erased, List.nodup_nil, List.nodup_singleton]
  case eraseRange list first last =>
      have nodup := (List.nodup_cons.mp (wellFormed.nodup list valid.1)).2
      exact nodup.sublist
        ((List.takeWhile_sublist _).trans (List.dropWhile_sublist _))
  case clear list => exact (List.nodup_cons.mp (wellFormed.nodup list valid)).2

/-- The loop bound of a whole program. -/
def programBound : Sequences Node → List (Operation Node) → Nat
  | state, [] => state.longest
  | state, operation :: rest =>
      max state.longest (programBound (operation.apply state) rest)

theorem runAll_represents {program : List (Operation Node)} :
    ∀ {heap : Heap Node} {state : Sequences Node}, Represents heap state →
      ValidProgram state program → ∀ {fuel : Nat}, programBound state program < fuel →
      ∃ heap', runAll fuel heap program = some heap' ∧
        Represents heap' (applyAll state program) ∧
        (applyAll state program).freed =
          state.freed ++ (erasedBatches state program).flatten ∧
        (applyAll state program).longest < fuel ∧
        ∀ batch ∈ erasedBatches state program, batch.Nodup := by
  induction program with
  | nil =>
      intro heap state represents _ fuel enough
      exact ⟨heap, rfl, represents, by simp [applyAll, erasedBatches], enough,
        by simp [erasedBatches]⟩
  | cons operation rest induction =>
      intro heap state represents valid fuel enough
      simp only [programBound, Nat.max_lt] at enough
      rcases operation.run_represents represents valid.1 enough.1 with
        ⟨heap₁, result, represents₁⟩
      rcases induction represents₁ valid.2 enough.2 with
        ⟨heap₂, ran, represents₂, freed, bound, batches⟩
      refine ⟨heap₂, by simp [runAll, result, ran], represents₂, ?_, bound, ?_⟩
      · have freedEq : (operation.apply state).freed =
            state.freed ++ operation.erased state := rfl
        simpa [erasedBatches, freedEq, applyAll] using freed
      · intro batch member
        rcases List.mem_cons.mp member with rfl | later
        · exact Operation.erased_nodup represents.wellFormed valid.1
        · exact batches batch later

/-- What a program over lists shows: every list is walked in full both ways, and
the deallocated nodes are the erased ones, each batch without repetition. -/
structure Agrees (fuel : Nat) (heap : Heap Node) (program : List (Operation Node)) :
    Prop where
  forward : ∀ list ∈ (applyAll Sequences.initial program).lists,
    walkForward fuel heap list =
      some ((applyAll Sequences.initial program).contents list)
  backward : ∀ list ∈ (applyAll Sequences.initial program).lists,
    walkBackward fuel heap list =
      some ((applyAll Sequences.initial program).contents list).reverse
  deallocated : heap.deallocated = (erasedBatches Sequences.initial program).flatten
  batches : ∀ batch ∈ erasedBatches Sequences.initial program, batch.Nodup

theorem ValidProgram.earlier {done program : List (Operation Node)}
    {state : Sequences Node} (valid : ValidProgram state program)
    (isPrefix : done <+: program) : ValidProgram state done := by
  induction done generalizing program state with
  | nil => trivial
  | cons operation rest induction =>
      rcases isPrefix with ⟨later, rfl⟩
      exact ⟨valid.1, induction valid.2 ⟨later, rfl⟩⟩

/-- After every operation of a program that uses the lists as the interface
asks, the heap shows exactly the plain sequences. -/
theorem lists_refine_sequences (program : List (Operation Node))
    (valid : ValidProgram Sequences.initial program) (heap : Heap Node)
    (nothingFreed : heap.deallocated = []) :
    ∀ done, done <+: program → ∃ bound, ∀ fuel > bound,
      ∃ heap', runAll fuel heap done = some heap' ∧ Agrees fuel heap' done := by
  intro done isPrefix
  have start : Represents heap (Sequences.initial : Sequences Node) :=
    ⟨by simp [Sequences.initial], ⟨by simp [Sequences.initial],
      id, by simp [Sequences.initial]⟩, nothingFreed⟩
  refine ⟨programBound Sequences.initial done, fun fuel enough => ?_⟩
  rcases runAll_represents start (valid.earlier isPrefix) enough with
    ⟨heap', ran, represents, freed, bound, batches⟩
  refine ⟨heap', ran, ?_, ?_, ?_, batches⟩
  · intro list listMem
    exact represents.walkForward listMem
      ((Sequences.length_le_longest listMem).trans_lt bound)
  · intro list listMem
    exact represents.walkBackward listMem
      ((Sequences.length_le_longest listMem).trans_lt bound)
  · simpa [represents.deallocated, Sequences.initial] using freed

/-- Two lists: nodes pushed, a segment spliced across, one node moved within its
list, one erased, and the rest moved into a third list. -/
def twoLists : List (Operation Nat) :=
  [.construct 0, .construct 1, .pushBack 0 10, .pushBack 0 11, .pushBack 1 20,
    .splice 1 20 0 10 0, .spliceOne 1 10 1 20, .erase 1 11, .moveConstruct 2 1]

theorem lists_refine_sequences_two_lists :
    ∃ bound, ∀ fuel > bound, ∃ heap',
      runAll fuel ⟨fun _ => none, fun _ => none, []⟩ twoLists = some heap' ∧
        Agrees fuel heap' twoLists :=
  lists_refine_sequences twoLists (by decide) _ rfl twoLists (List.prefix_refl _)

end LeechJit.IntrusiveList
