import LeechJit.IntrusiveList.Refinement

/-! # Splicing refines moving a segment

`moveBefore` cuts at most three links. Around the cuts the lists fall into
stretches that stay chains; the three new links join them up again. The cases
are where the position stands: in another list, in front of the segment, or
behind it.
-/

namespace LeechJit.IntrusiveList

open Cursor

variable {Node : Type}

/-- What `moveBefore` leaves behind: the three new links, and every link that
does not lead into one of the three cut places. -/
structure Relinked (heap heap' : Heap Node)
    (preFirst first lastToIns last prev point : Node) : Prop where
  closes : Link heap' preFirst last
  enters : Link heap' prev first
  leaves : Link heap' lastToIns point
  kept : ∀ left right, right ≠ first → right ≠ last → right ≠ point →
    Link heap left right → Link heap' left right

theorem Relinked.stretch {heap heap' : Heap Node}
    {preFirst first lastToIns last prev point : Node}
    (relinked : Relinked heap heap' preFirst first lastToIns last prev point)
    {nodes : List Node} (chain : Chain heap nodes) (noFirst : first ∉ nodes.tail)
    (noLast : last ∉ nodes.tail) (noPoint : point ∉ nodes.tail) :
    Chain heap' nodes :=
  chain.transport fun left right _ rightMem link =>
    relinked.kept left right (fun equal => noFirst (equal ▸ rightMem))
      (fun equal => noLast (equal ▸ rightMem))
      (fun equal => noPoint (equal ▸ rightMem)) link

/-- A closed list of nodes, cut in two in front of its position `point`. -/
structure ListCut (heap : Heap Node) (list : Node) (front back : List Node)
    (prev point : Node) : Prop where
  prevLast : (list :: front).getLast? = some prev
  pointHead : (back ++ [list]).head? = some point
  link : Link heap prev point

theorem Represents.cutAt {heap : Heap Node} {state : Sequences Node}
    (represents : Represents heap state) {list pos : Node} {front back : List Node}
    (listMem : list ∈ state.lists) (contents : state.contents list = front ++ back)
    (head : (back ++ [list]).head? = some pos) :
    ∃ prev, ListCut heap list front back prev pos := by
  rcases represents.exists_link listMem contents head with ⟨prev, atLast, link⟩
  exact ⟨prev, atLast, head, link⟩

variable {heap heap' : Heap Node} {state : Sequences Node}
  {list other pos first last preFirst lastToIns prev : Node}
  {front middle back ahead rest between : List Node}

/-- The list that lost the segment is closed behind the gap. -/
theorem closed_gap (relinked : Relinked heap heap' preFirst first lastToIns last prev pos)
    (chain : Chain heap (other :: (front ++ middle ++ back) ++ [other]))
    (nodup : (other :: (front ++ middle ++ back)).Nodup)
    (preFirstLast : (other :: front).getLast? = some preFirst)
    (firstMem : first ∈ middle) (lastHead : (back ++ [other]).head? = some last)
    (posOther : pos ∉ other :: (front ++ middle ++ back)) :
    Chain heap' (other :: (front ++ back) ++ [other]) := by
  have lastFresh := not_mem_of_head nodup lastHead
  simp only [List.nodup_cons, List.mem_append, List.nodup_append] at nodup
  have parts := List.isChain_append.mp
    (show Chain heap ((other :: front) ++ (middle ++ (back ++ [other]))) by
      simpa using chain)
  have backChain := (List.isChain_append.mp parts.2.1).2.1
  have frontKept : Chain heap' (other :: front) :=
    relinked.stretch parts.1 (by grind) (by grind) (by grind)
  have backKept : Chain heap' (back ++ [other]) := by
    refine relinked.stretch backChain ?_ lastFresh.2 ?_
    · intro member
      have inBack := List.mem_of_mem_tail member
      grind
    · intro member
      have inBack := List.mem_of_mem_tail member
      grind
  simpa using Chain.join frontKept backKept preFirstLast lastHead relinked.closes

/-- The list that received the segment, when it is not the one that lost it. -/
theorem closed_target
    (relinked : Relinked heap heap' preFirst first lastToIns last prev pos)
    (middleKept : Chain heap' middle) (firstHead : middle.head? = some first)
    (lastToInsLast : middle.getLast? = some lastToIns)
    (chain : Chain heap (list :: (ahead ++ rest) ++ [list]))
    (nodup : (list :: (ahead ++ rest)).Nodup)
    (cut : ListCut heap list ahead rest prev pos)
    (firstList : first ∉ list :: (ahead ++ rest))
    (lastList : last ∉ list :: (ahead ++ rest)) :
    Chain heap' (list :: (ahead ++ middle ++ rest) ++ [list]) := by
  have posFresh := not_mem_of_head nodup cut.pointHead
  have parts := List.isChain_append.mp
    (show Chain heap ((list :: ahead) ++ (rest ++ [list])) by simpa using chain)
  have aheadKept : Chain heap' (list :: ahead) :=
    relinked.stretch parts.1 (by grind) (by grind) posFresh.1
  have restKept : Chain heap' (rest ++ [list]) := by
    refine relinked.stretch parts.2.1 ?_ ?_ posFresh.2
    · intro member
      have inRest := List.mem_of_mem_tail member
      grind
    · intro member
      have inRest := List.mem_of_mem_tail member
      grind
  have tailKept := Chain.join middleKept restKept lastToInsLast cut.pointHead relinked.leaves
  have headEq : (middle ++ (rest ++ [list])).head? = some first := by
    rw [List.head?_append, firstHead]; rfl
  simpa using Chain.join aheadKept tailKept cut.prevLast headEq relinked.enters

/-- Within one list, to a position in front of the segment: `between` is what
the segment jumps over. -/
theorem closed_forward
    (relinked : Relinked heap heap' preFirst first lastToIns last prev pos)
    (middleKept : Chain heap' middle) (firstHead : middle.head? = some first)
    (lastToInsLast : middle.getLast? = some lastToIns)
    (chain : Chain heap (list :: (ahead ++ between ++ middle ++ back) ++ [list]))
    (nodup : (list :: (ahead ++ between ++ middle ++ back)).Nodup)
    (posHead : between.head? = some pos) (prevLast : (list :: ahead).getLast? = some prev)
    (preFirstLast : between.getLast? = some preFirst)
    (lastHead : (back ++ [list]).head? = some last) :
    Chain heap' (list :: (ahead ++ middle ++ (between ++ back)) ++ [list]) := by
  have lastFresh := not_mem_of_head nodup lastHead
  have posMem : pos ∈ between := List.mem_of_head? posHead
  have firstMem : first ∈ middle := List.mem_of_head? firstHead
  have betweenTail : pos ∉ between.tail := by
    cases between with
    | nil => simp
    | cons head tail =>
        have equal : head = pos := by simpa using posHead
        simp only [List.nodup_cons, List.mem_append, List.nodup_append] at nodup
        grind
  simp only [List.nodup_cons, List.mem_append, List.nodup_append] at nodup
  have parts := List.isChain_append.mp
    (show Chain heap ((list :: ahead) ++ (between ++ (middle ++ (back ++ [list])))) by
      simpa using chain)
  have betweenParts := List.isChain_append.mp parts.2.1
  have backChain := (List.isChain_append.mp betweenParts.2.1).2.1
  have aheadKept : Chain heap' (list :: ahead) :=
    relinked.stretch parts.1 (by grind) (by grind) (by grind)
  have betweenKept : Chain heap' between := by
    refine relinked.stretch betweenParts.1 ?_ ?_ betweenTail
    · exact fun member => by have := List.mem_of_mem_tail member; grind
    · exact fun member => by have := List.mem_of_mem_tail member; grind
  have backKept : Chain heap' (back ++ [list]) := by
    refine relinked.stretch backChain ?_ lastFresh.2 ?_
    · exact fun member => by have := List.mem_of_mem_tail member; grind
    · exact fun member => by have := List.mem_of_mem_tail member; grind
  have closed := Chain.join betweenKept backKept preFirstLast lastHead relinked.closes
  have posHead' : (between ++ (back ++ [list])).head? = some pos := by
    rw [List.head?_append, posHead]; rfl
  have tailKept := Chain.join middleKept closed lastToInsLast posHead' relinked.leaves
  have firstHead' : (middle ++ (between ++ (back ++ [list]))).head? = some first := by
    rw [List.head?_append, firstHead]; rfl
  simpa using Chain.join aheadKept tailKept prevLast firstHead' relinked.enters

/-- Within one list, to a position behind the segment. -/
theorem closed_backward
    (relinked : Relinked heap heap' preFirst first lastToIns last prev pos)
    (middleKept : Chain heap' middle) (firstHead : middle.head? = some first)
    (lastToInsLast : middle.getLast? = some lastToIns)
    (chain : Chain heap (list :: (front ++ middle ++ between ++ rest) ++ [list]))
    (nodup : (list :: (front ++ middle ++ between ++ rest)).Nodup)
    (preFirstLast : (list :: front).getLast? = some preFirst)
    (lastHead : between.head? = some last) (prevLast : between.getLast? = some prev)
    (posHead : (rest ++ [list]).head? = some pos) :
    Chain heap' (list :: (front ++ between ++ middle ++ rest) ++ [list]) := by
  have posFresh := not_mem_of_head nodup posHead
  have lastMem : last ∈ between := List.mem_of_head? lastHead
  have firstMem : first ∈ middle := List.mem_of_head? firstHead
  have betweenTail : last ∉ between.tail := by
    cases between with
    | nil => simp
    | cons head tail =>
        have equal : head = last := by simpa using lastHead
        simp only [List.nodup_cons, List.mem_append, List.nodup_append] at nodup
        grind
  simp only [List.nodup_cons, List.mem_append, List.nodup_append] at nodup
  have parts := List.isChain_append.mp
    (show Chain heap ((list :: front) ++ (middle ++ (between ++ (rest ++ [list])))) by
      simpa using chain)
  have betweenParts := List.isChain_append.mp (List.isChain_append.mp parts.2.1).2.1
  have frontKept : Chain heap' (list :: front) :=
    relinked.stretch parts.1 (by grind) (by grind) (by grind)
  have betweenKept : Chain heap' between := by
    refine relinked.stretch betweenParts.1 ?_ betweenTail ?_
    · exact fun member => by have := List.mem_of_mem_tail member; grind
    · exact fun member => by have := List.mem_of_mem_tail member; grind
  have restKept : Chain heap' (rest ++ [list]) := by
    refine relinked.stretch betweenParts.2.1 ?_ ?_ posFresh.2
    · exact fun member => by have := List.mem_of_mem_tail member; grind
    · exact fun member => by have := List.mem_of_mem_tail member; grind
  have moved := Chain.join middleKept restKept lastToInsLast posHead relinked.leaves
  have firstHead' : (middle ++ (rest ++ [list])).head? = some first := by
    rw [List.head?_append, firstHead]; rfl
  have entered := Chain.join betweenKept moved prevLast firstHead' relinked.enters
  have lastHead' : (between ++ (middle ++ (rest ++ [list]))).head? = some last := by
    rw [List.head?_append, lastHead]; rfl
  simpa using Chain.join frontKept entered preFirstLast lastHead' relinked.closes

variable [DecidableEq Node]

/-- Moving a segment keeps every node in exactly one place. -/
theorem Sequences.WellFormed.moved (wellFormed : state.WellFormed)
    (listMem : list ∈ state.lists) (otherMem : other ∈ state.lists)
    (contents : state.contents other = front ++ middle ++ back)
    (target : (state.setContents other (front ++ back)).contents list = ahead ++ rest) :
    ((state.setContents other (front ++ back)).setContents list
      (ahead ++ middle ++ rest)).WellFormed := by
  have nodup := wellFormed.nodup other otherMem
  rw [contents] at nodup
  have takenNodup : (other :: (front ++ back)).Nodup := by
    simp only [List.nodup_cons, List.mem_append, List.nodup_append] at nodup ⊢
    grind
  have taken : (state.setContents other (front ++ back)).WellFormed :=
    wellFormed.setContents otherMem takenNodup fun node member => by
      rw [contents]
      simp only [List.mem_append] at member ⊢
      tauto
  -- Once taken out, the segment's nodes are in no list at all.
  have unlinked : ∀ node ∈ middle,
      (state.setContents other (front ++ back)).Unlinked node := by
    intro node member owner ownerMem inOwner
    have inOther : node ∈ other :: state.contents other := by simp [contents, member]
    by_cases same : owner = other
    · subst same
      simp only [List.nodup_cons, List.mem_append, List.nodup_append] at nodup
      simp only [Sequences.setContents_same] at inOwner
      grind
    · rw [Sequences.setContents_other _ _ same] at inOwner
      exact same (wellFormed.eq_of_mem ownerMem otherMem inOwner inOther)
  refine taken.setContents listMem ?_ ?_
  · have targetNodup := taken.nodup list listMem
    have middleFresh : ∀ node ∈ middle, node ∉ list :: (ahead ++ rest) := by
      intro node member inTarget
      rw [← target] at inTarget
      exact unlinked node member list listMem inTarget
    rw [target] at targetNodup
    simp only [List.nodup_cons, List.mem_append, List.nodup_append] at nodup targetNodup ⊢
    grind
  · intro node member
    rw [target]
    simp only [List.mem_append] at member ⊢
    rcases member with (inAhead | inMiddle) | inRest
    · exact .inl (.inl inAhead)
    · exact .inr (unlinked node inMiddle)
    · exact .inl (.inr inRest)

/-- After a splice the receiving list is a closed chain again. -/
theorem Represents.splice_target (represents : Represents heap state)
    (relinked : Relinked heap heap' preFirst first lastToIns last prev pos)
    (listMem : list ∈ state.lists) (otherMem : other ∈ state.lists)
    (contents : state.contents other = front ++ middle ++ back)
    (preFirstLast : (other :: front).getLast? = some preFirst)
    (firstHead : middle.head? = some first)
    (lastToInsLast : middle.getLast? = some lastToIns)
    (lastHead : (back ++ [other]).head? = some last) (notLast : pos ≠ last)
    (intoPos : Link heap prev pos)
    (target : (state.setContents other (front ++ back)).contents list = ahead ++ rest)
    (posHead : (rest ++ [list]).head? = some pos) :
    Chain heap' (list :: (ahead ++ middle ++ rest) ++ [list]) := by
  have nodup := represents.wellFormed.nodup other otherMem
  have chain := represents.chained other otherMem
  rw [contents] at nodup chain
  have firstMem : first ∈ middle := List.mem_of_head? firstHead
  have lastFresh := not_mem_of_head nodup lastHead
  have middleKept : Chain heap' middle := by
    have parts := List.isChain_append.mp
      (show Chain heap ((other :: front) ++ (middle ++ (back ++ [other]))) by
        simpa using chain)
    have posMem : pos ∈ list :: (ahead ++ rest) := by
      have inRest := List.mem_of_head? posHead
      simp at inRest ⊢
      tauto
    refine relinked.stretch (List.isChain_append.mp parts.2.1).1 ?_ ?_ ?_
    · cases middle with
      | nil => simp
      | cons head tail =>
          have equal : head = first := by simpa using firstHead
          simp only [List.nodup_cons, List.mem_append, List.nodup_append] at nodup
          grind
    · exact fun member => lastFresh.1 (by simp [List.mem_of_mem_tail member])
    · intro member
      have inMiddle := List.mem_of_mem_tail member
      have wellFormed := represents.wellFormed.moved listMem otherMem contents target
      have final := wellFormed.nodup list listMem
      simp only [Sequences.setContents_same, List.nodup_cons, List.mem_append,
        List.nodup_append] at final
      simp only [List.mem_cons, List.mem_append] at posMem
      grind
  by_cases same : list = other
  · subst same
    rw [Sequences.setContents_same] at target
    rcases List.append_eq_append_iff.mp target with
      ⟨between, rfl, rfl⟩ | ⟨between, rfl, rfl⟩
    · -- Behind the segment; `between` is nonempty because the position is not `last`.
      have nonempty : between ≠ [] := by
        rintro rfl
        exact notLast (Option.some.inj (posHead.symm.trans lastHead))
      have behind : state.contents list = (front ++ middle ++ between) ++ rest := by
        simpa using contents
      rcases represents.cutAt listMem behind posHead with ⟨prev', cut⟩
      have prevEq := intoPos.left_unique cut.link
      subst prevEq
      refine closed_backward relinked middleKept firstHead lastToInsLast
        (by simpa using chain) (by simpa using nodup) preFirstLast ?_ ?_ posHead
      · simpa [List.head?_append_of_ne_nil _ nonempty] using lastHead
      · have atLast := cut.prevLast
        rw [List.getLast?_cons, List.getLast?_append_of_ne_nil _ nonempty] at atLast
        simpa [List.getLast?_eq_some_getLast nonempty] using atLast
    · -- In front of the segment.
      have nonempty : between ≠ [] := by
        rintro rfl
        exact notLast (Option.some.inj (posHead.symm.trans lastHead))
      have inFront : state.contents list = ahead ++ (between ++ middle ++ back) := by
        simpa using contents
      rcases represents.cutAt listMem inFront
        (by simpa [List.head?_append_of_ne_nil _ nonempty] using posHead) with ⟨prev', cut⟩
      have prevEq := intoPos.left_unique cut.link
      subst prevEq
      refine closed_forward relinked middleKept firstHead lastToInsLast chain nodup
        ?_ cut.prevLast ?_ lastHead
      · simpa [List.head?_append_of_ne_nil _ nonempty] using posHead
      · rw [List.getLast?_cons, List.getLast?_append_of_ne_nil _ nonempty] at preFirstLast
        simpa [List.getLast?_eq_some_getLast nonempty] using preFirstLast
  · rw [Sequences.setContents_other _ _ same] at target
    have targetNodup := represents.wellFormed.nodup list listMem
    have targetChain := represents.chained list listMem
    have disjoint : ∀ node ∈ other :: state.contents other,
        node ∉ list :: state.contents list := fun node inOther inList =>
      same (represents.wellFormed.eq_of_mem listMem otherMem inList inOther)
    rw [target] at targetNodup targetChain disjoint
    rw [contents] at disjoint
    rcases represents.cutAt listMem target posHead with ⟨prev', cut⟩
    have prevEq := intoPos.left_unique cut.link
    subst prevEq
    have lastMem := List.mem_of_head? lastHead
    exact closed_target relinked middleKept firstHead lastToInsLast targetChain targetNodup
      cut (disjoint first (by simp [firstMem]))
      (disjoint last (by simp at lastMem ⊢; tauto))

/-- An empty segment, or one that stands just before the position already, is
left where it is. -/
theorem Sequences.moveSegment_eq_self (wellFormed : state.WellFormed)
    (listMem : list ∈ state.lists) (otherMem : other ∈ state.lists)
    (contents : state.contents other = front ++ middle ++ back)
    (lastHead : (back ++ [other]).head? = some last)
    (target : (state.setContents other (front ++ back)).contents list = ahead ++ rest)
    (posHead : (rest ++ [list]).head? = some pos) (trivialMove : middle = [] ∨ last = pos) :
    (state.setContents other (front ++ back)).setContents list (ahead ++ middle ++ rest) =
      state := by
  by_cases empty : middle = []
  · subst empty
    have unchanged : state.setContents other (front ++ back) = state := by
      have same : front ++ back = state.contents other := by simp [contents]
      rw [same, Sequences.setContents, Function.update_eq_self]
    rw [unchanged] at target ⊢
    have same : ahead ++ [] ++ rest = state.contents list := by simp [target]
    rw [same, Sequences.setContents, Function.update_eq_self]
  · have lastEq : last = pos := trivialMove.resolve_left empty
    subst lastEq
    have lastMem := List.mem_of_head? lastHead
    have posMem := List.mem_of_head? posHead
    have same : list = other := by
      by_contra different
      rw [Sequences.setContents_other _ _ different] at target
      have inList : last ∈ list :: state.contents list := by
        rw [target]; simp at posMem ⊢; tauto
      have inOther : last ∈ other :: state.contents other := by
        rw [contents]; simp at lastMem ⊢; tauto
      exact different (wellFormed.eq_of_mem listMem otherMem inList inOther)
    subst same
    have nodup := wellFormed.nodup list listMem
    rw [contents] at nodup
    rw [Sequences.setContents_same] at target
    have takenNodup : (list :: (front ++ back)).Nodup := by
      simp only [List.nodup_cons, List.mem_append, List.nodup_append] at nodup ⊢
      grind
    -- Both splits of the remaining list are at the same node.
    have frontSplit := not_mem_of_head takenNodup lastHead
    have aheadSplit := not_mem_of_head (target ▸ takenNodup) posHead
    have splits : ahead = front ∧ rest = back := by
      rcases List.append_eq_append_iff.mp target with
        ⟨between, rfl, rfl⟩ | ⟨between, rfl, rfl⟩ <;> cases between <;> simp_all
    rcases splits with ⟨rfl, rfl⟩
    rw [← contents, Sequences.setContents, Sequences.setContents, Function.update_idem,
      Function.update_eq_self]

/-- `splice(pos, first, last)` moves exactly the segment `[first, last)`. -/
theorem Represents.splice (represents : Represents heap state)
    (can : state.CanSplice list pos other first last) :
    ∃ heap', IntrusiveList.splice heap pos first last = some heap' ∧
      Represents heap' (state.moveSegment list pos other first last) := by
  have listMem := can.list_mem
  have otherMem := can.other_mem
  have nodup := represents.wellFormed.nodup other otherMem
  rcases can.range.exists_split nodup with
    ⟨front, middle, back, contents, firstHead, lastHead, segmentEq, cutEq⟩
  have notInside := can.notInside
  rw [segmentEq] at notInside
  rw [contents] at nodup
  have takenPosition : pos = list ∨
      pos ∈ (state.setContents other (front ++ back)).contents list := by
    rcases can.position with atEnd | member
    · exact .inl atEnd
    · by_cases same : list = other
      · subst same
        rw [contents] at member
        rw [Sequences.setContents_same]
        simp only [List.mem_append] at member ⊢
        tauto
      · rw [Sequences.setContents_other _ _ same]
        exact .inr member
  have takenNodup : (list :: (state.setContents other (front ++ back)).contents list).Nodup := by
    by_cases same : list = other
    · subst same
      rw [Sequences.setContents_same]
      simp only [List.nodup_cons, List.mem_append, List.nodup_append] at nodup ⊢
      grind
    · rw [Sequences.setContents_other _ _ same]
      exact represents.wellFormed.nodup list listMem
  rcases exists_split takenPosition takenNodup with
    ⟨ahead, rest, target, posHead, aheadEq, restEq⟩
  have moved : state.moveSegment list pos other first last =
      (state.setContents other (front ++ back)).setContents list (ahead ++ middle ++ rest) := by
    simp only [Sequences.moveSegment, segmentEq, cutEq, insertAt, aheadEq, restEq]
  rw [moved]
  by_cases trivialMove : middle = [] ∨ last = pos
  · rw [Sequences.moveSegment_eq_self represents.wellFormed listMem otherMem contents
      lastHead target posHead trivialMove]
    refine ⟨heap, ?_, represents⟩
    have stays : last = pos ∨ first = last := by
      rcases trivialMove with rfl | equal
      · exact .inr (Option.some.inj (firstHead.symm.trans (by simpa using lastHead)))
      · exact .inl equal
    simp [IntrusiveList.splice, moveBefore, can.notFirst, stays]
  · have nonempty : middle ≠ [] := fun empty => trivialMove (.inl empty)
    have notLast : pos ≠ last := fun equal => trivialMove (.inr equal.symm)
    have middleHead : middle.head? = some first := by
      simpa [List.head?_append_of_ne_nil _ nonempty] using firstHead
    have firstMem : first ∈ middle := List.mem_of_head? middleHead
    have lastFresh := not_mem_of_head nodup lastHead
    have beforeFirst : state.contents other = front ++ (middle ++ back) := by
      simpa using contents
    rcases represents.cutAt otherMem beforeFirst firstHead with ⟨preFirst, firstCut⟩
    rcases represents.cutAt otherMem contents lastHead with ⟨lastToIns, lastCut⟩
    have middleLast : middle.getLast? = some lastToIns := by
      have atLast := lastCut.prevLast
      rw [List.getLast?_cons, List.getLast?_append_of_ne_nil _ nonempty] at atLast
      simpa [List.getLast?_eq_some_getLast nonempty] using atLast
    rcases exists_split can.position (represents.wellFormed.nodup list listMem) with
      ⟨_, _, listContents, listHead, -, -⟩
    rcases represents.cutAt listMem listContents listHead with ⟨prev, posCut⟩
    rcases moveBefore_links firstCut.link lastCut.link posCut.link can.notFirst notLast
        (fun equal => lastFresh.1 (by simp [← equal, firstMem])) with
      ⟨heap', result, deallocated, closes, enters, leaves, kept⟩
    have relinked : Relinked heap heap' preFirst first lastToIns last prev pos :=
      ⟨closes, enters, leaves, kept⟩
    refine ⟨heap', result, ?_, represents.wellFormed.moved listMem otherMem contents target,
      deallocated.trans represents.deallocated⟩
    intro owner ownerMem
    by_cases isList : owner = list
    · subst isList
      rw [Sequences.setContents_same]
      exact represents.splice_target relinked ownerMem otherMem contents firstCut.prevLast
        middleHead middleLast lastHead notLast posCut.link target posHead
    · rw [Sequences.setContents_other _ _ isList]
      have posOwner : pos ∉ owner :: state.contents owner := fun member =>
        isList (represents.wellFormed.eq_of_mem ownerMem listMem member can.position.mem)
      by_cases isOther : owner = other
      · subst isOther
        rw [Sequences.setContents_same]
        rw [contents] at posOwner
        exact closed_gap relinked (contents ▸ represents.chained owner ownerMem) nodup
          firstCut.prevLast firstMem lastHead posOwner
      · rw [Sequences.setContents_other _ _ isOther]
        have away : ∀ node ∈ other :: state.contents other,
            node ∉ owner :: state.contents owner := fun node inOther inOwner =>
          isOther (represents.wellFormed.eq_of_mem ownerMem otherMem inOwner inOther)
        rw [contents] at away
        have lastMem := List.mem_of_head? lastHead
        refine represents.transport ownerMem fun left right _ rightMem link => ?_
        exact kept left right
          (fun equal => away first (by simp [firstMem]) (equal ▸ rightMem))
          (fun equal => away last (by simp at lastMem ⊢; tauto) (equal ▸ rightMem))
          (fun equal => posOwner (equal ▸ rightMem)) link

end LeechJit.IntrusiveList
