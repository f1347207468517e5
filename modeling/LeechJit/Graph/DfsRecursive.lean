import LeechJit.Graph.DfsTree

/-! # Depth-first search with recursion

The textbook search: a node is discovered, its successors are tried in order, and the
node is finished. The loop with the stack of saved iterators reports the same events.
-/

namespace LeechJit.Graph

variable {Node : Type}

abbrev Colors (Node : Type) := Node → Option DFSColor

/-- The successors in order; `visit` searches from one that is not discovered yet. -/
def scanSuccs (visit : Colors Node → Node → Option (List (Event Node) × Colors Node))
    (parent : Node) : Colors Node → List Node → Option (List (Event Node) × Colors Node)
  | colors, [] => some ([], colors)
  | colors, succ :: rest =>
      match colors succ with
      | none => do
          let (events, colors) ← visit colors succ
          let (later, colors) ← scanSuccs visit parent colors rest
          return (events ++ later, colors)
      | some .grey => do
          let (later, colors) ← scanSuccs visit parent colors rest
          return (.backEdge parent succ :: later, colors)
      | some .black => scanSuccs visit parent colors rest

variable [DecidableEq Node]

/-- The search from a node that is not discovered yet, at most `depth` calls deep. -/
def searchFrom (graph : Graph Node) :
    Nat → Colors Node → Node → Option (List (Event Node) × Colors Node)
  | 0, _, _ => none
  | depth + 1, colors, node => do
      let (events, colors) ← scanSuccs (searchFrom graph depth) node
        (Function.update colors node (some .grey)) (graph.succs node)
      return (.discoverNode node :: events ++ [.finishNode node],
        Function.update colors node (some .black))

/-- The events of the search from the entry. -/
def recursiveSearch (graph : Graph Node) (depth : Nat) : Option (List (Event Node)) :=
  (searchFrom graph depth (fun _ => none) graph.entryPoint).map Prod.fst

variable {graph : Graph Node} {depth : Nat} {colors colors' : Colors Node} {node parent succ : Node}
  {events events' : List (Event Node)} {rest : List Node}

/-! ## Induction over a search -/

section Induction

variable (search : Colors Node → Node → List (Event Node) → Colors Node → Prop)
  (scan : Node → Colors Node → List Node → List (Event Node) → Colors Node → Prop)

theorem scanSuccs_induct
    (searches : ∀ colors node events colors',
      searchFrom graph depth colors node = some (events, colors') → search colors node events colors')
    (nil : ∀ parent colors, scan parent colors [] [] colors)
    (fresh : ∀ parent succ rest colors middle colors' events later, colors succ = none →
      search colors succ events middle → scan parent middle rest later colors' →
      scan parent colors (succ :: rest) (events ++ later) colors')
    (grey : ∀ parent succ rest colors colors' later, colors succ = some .grey →
      scan parent colors rest later colors' →
      scan parent colors (succ :: rest) (.backEdge parent succ :: later) colors')
    (black : ∀ parent succ rest colors colors' later, colors succ = some .black →
      scan parent colors rest later colors' → scan parent colors (succ :: rest) later colors')
    (result : scanSuccs (searchFrom graph depth) parent colors rest = some (events, colors')) :
    scan parent colors rest events colors' := by
  induction rest generalizing colors events with
  | nil =>
      cases result
      exact nil _ _
  | cons succ rest induction =>
      rw [scanSuccs] at result
      cases color : colors succ with
      | none =>
          rw [color] at result
          rcases Option.bind_eq_some_iff.mp result with ⟨⟨found, middle⟩, searching, continued⟩
          rcases Option.bind_eq_some_iff.mp continued with ⟨⟨later, last⟩, scanning, equal⟩
          cases equal
          exact fresh _ _ _ _ _ _ _ _ color (searches _ _ _ _ searching) (induction scanning)
      | some shade =>
          rw [color] at result
          cases shade with
          | grey =>
              rcases Option.bind_eq_some_iff.mp result with ⟨⟨later, last⟩, scanning, equal⟩
              cases equal
              exact grey _ _ _ _ _ _ color (induction scanning)
          | black => exact black _ _ _ _ _ _ color (induction result)

/-- What a search and a scan report, by recursion over the calls. -/
theorem searchFrom_induct
    (visit : ∀ colors node events colors',
      scan node (Function.update colors node (some .grey)) (graph.succs node) events colors' →
      search colors node (.discoverNode node :: events ++ [.finishNode node])
        (Function.update colors' node (some .black)))
    (nil : ∀ parent colors, scan parent colors [] [] colors)
    (fresh : ∀ parent succ rest colors middle colors' events later, colors succ = none →
      search colors succ events middle → scan parent middle rest later colors' →
      scan parent colors (succ :: rest) (events ++ later) colors')
    (grey : ∀ parent succ rest colors colors' later, colors succ = some .grey →
      scan parent colors rest later colors' →
      scan parent colors (succ :: rest) (.backEdge parent succ :: later) colors')
    (black : ∀ parent succ rest colors colors' later, colors succ = some .black →
      scan parent colors rest later colors' → scan parent colors (succ :: rest) later colors')
    (result : searchFrom graph depth colors node = some (events, colors')) :
    search colors node events colors' := by
  induction depth generalizing colors node events colors' with
  | zero => cases result
  | succ depth induction =>
      rcases Option.bind_eq_some_iff.mp result with ⟨⟨found, last⟩, scanning, equal⟩
      cases equal
      apply visit
      exact scanSuccs_induct search scan (fun _ _ _ _ => induction) nil fresh grey black scanning

end Induction

/-! ## The recursion ends -/

/-- What is discovered stays discovered. -/
theorem searchFrom_keeps (result : searchFrom graph depth colors node = some (events, colors')) :
    ∀ other, colors other ≠ none → colors' other ≠ none := by
  apply searchFrom_induct (fun colors _ _ colors' => ∀ other, colors other ≠ none →
      colors' other ≠ none) (fun _ colors _ _ colors' => ∀ other, colors other ≠ none →
      colors' other ≠ none) _ _ _ _ _ result
  · intro colors node events colors' kept other seen
    have seenBefore : Function.update colors node (some .grey) other ≠ none :=
      SearchInvariant.update_ne_none seen
    exact SearchInvariant.update_ne_none (kept other seenBefore)
  · exact fun _ _ _ seen => seen
  · exact fun _ _ _ _ _ _ _ _ _ first later other seen => later other (first other seen)
  · exact fun _ _ _ _ _ _ _ kept => kept
  · exact fun _ _ _ _ _ _ _ kept => kept

/-- How many nodes are not discovered yet. -/
def unseen (graph : Graph Node) (colors : Colors Node) : Nat :=
  graph.nodes.countP fun node => (colors node).isNone

omit [DecidableEq Node] in
theorem unseen_le (graph : Graph Node)
    (kept : ∀ other, colors other ≠ none → colors' other ≠ none) :
    graph.unseen colors' ≤ graph.unseen colors := by
  apply List.countP_mono_left
  intro other _ isNone
  rw [Option.isNone_iff_eq_none] at isNone ⊢
  exact not_not.mp (mt (kept other) (not_not.mpr isNone))

theorem unseen_lt (member : node ∈ graph.nodes) (unseen : colors node = none) :
    graph.unseen (Function.update colors node (some .grey)) < graph.unseen colors := by
  rcases List.append_of_mem member with ⟨front, back, split⟩
  have fewer : ∀ nodes : List Node,
      nodes.countP (fun other => (Function.update colors node (some .grey) other).isNone) ≤
        nodes.countP fun other => (colors other).isNone := by
    intro nodes
    apply List.countP_mono_left
    intro other _ isNone
    by_cases same : other = node
    · simp [same] at isNone
    · simpa [same] using isNone
  have before := fewer front
  have behind := fewer back
  simp only [Graph.unseen, split, List.countP_append, List.countP_cons, Function.update_self, unseen]
  simp only [Option.isNone_some, Option.isNone_none, if_true]
  simp
  omega

theorem scanSuccs_total (parent : Node)
    (inside : ∀ succ ∈ rest, succ ∈ graph.nodes)
    (searches : ∀ colors node, node ∈ graph.nodes → colors node = none →
      graph.unseen colors ≤ depth → ∃ result, searchFrom graph depth colors node = some result)
    (enough : graph.unseen colors ≤ depth) :
    ∃ result, scanSuccs (searchFrom graph depth) parent colors rest = some result := by
  induction rest generalizing colors with
  | nil => exact ⟨_, rfl⟩
  | cons succ rest induction =>
      have others := fun other member => inside other (List.mem_cons_of_mem succ member)
      cases color : colors succ with
      | none =>
          rcases searches colors succ (inside succ List.mem_cons_self) color enough with
            ⟨⟨events, middle⟩, searching⟩
          have less := unseen_le graph (searchFrom_keeps searching)
          rcases induction others (Nat.le_trans less enough) with ⟨⟨later, last⟩, scanning⟩
          exact ⟨(events ++ later, last), by simp [scanSuccs, color, searching, scanning]⟩
      | some shade =>
          rcases induction others enough with ⟨⟨later, last⟩, scanning⟩
          cases shade with
          | grey => exact ⟨(.backEdge parent succ :: later, last), by
              simp [scanSuccs, color, scanning]⟩
          | black => exact ⟨(later, last), by simp [scanSuccs, color, scanning]⟩

/-- As many calls as there are nodes are enough. -/
theorem searchFrom_total (closed : graph.Closed) (member : node ∈ graph.nodes)
    (isUnseen : colors node = none) (enough : graph.unseen colors ≤ depth) :
    ∃ result, searchFrom graph depth colors node = some result := by
  induction depth generalizing colors node with
  | zero =>
      have less := unseen_lt member isUnseen
      omega
  | succ depth induction =>
      have less := unseen_lt member isUnseen
      rcases scanSuccs_total node (closed.succs_mem node member)
        (fun _ _ member isUnseen enough => induction member isUnseen enough)
        (show graph.unseen (Function.update colors node (some .grey)) ≤ depth by omega) with
        ⟨⟨events, last⟩, scanning⟩
      exact ⟨(.discoverNode node :: events ++ [.finishNode node],
        Function.update last node (some .black)), by simp [searchFrom, scanning]⟩

/-! ## The loop does the same -/

theorem dfsStep_skip {first : List Node} {stack : List (List Node × Node)}
    (edges : List (Event Node))
    (skips : findUnvisited colors parent (succ :: first) =
      (edges ++ (findUnvisited colors parent first).1, (findUnvisited colors parent first).2)) :
    dfsStep graph ⟨colors, (succ :: first, parent) :: stack, events⟩ =
      dfsStep graph ⟨colors, (first, parent) :: stack, events ++ edges⟩ := by
  simp only [dfsStep, skips]
  rcases findUnvisited colors parent first with ⟨found, next⟩
  cases next with
  | none => simp
  | some entry => simp

/-- A search is what the loop does until the node is off the stack again. -/
theorem iterate_of_searchFrom (result : searchFrom graph depth colors node = some (events, colors'))
    (stack : List (List Node × Node)) (before : List (Event Node)) :
    ∃ rounds, (dfsStep graph)^[rounds] (visitNode graph ⟨colors, stack, before⟩ node) =
      ⟨colors', stack, before ++ events⟩ := by
  revert stack before
  apply searchFrom_induct
    (fun colors node events colors' => ∀ stack before, ∃ rounds, (dfsStep graph)^[rounds]
      (visitNode graph ⟨colors, stack, before⟩ node) = ⟨colors', stack, before ++ events⟩)
    (fun parent colors first events colors' => ∀ stack before, ∃ rounds, (dfsStep graph)^[rounds + 1]
      ⟨colors, (first, parent) :: stack, before⟩ =
        ⟨Function.update colors' parent (some .black), stack,
          before ++ events ++ [.finishNode parent]⟩) _ _ _ _ _ result
  · intro colors node events colors' scanned stack before
    rcases scanned stack (before ++ [.discoverNode node]) with ⟨rounds, reached⟩
    exact ⟨rounds + 1, by simpa [visitNode] using reached⟩
  · intro parent colors stack before
    exact ⟨0, by simp [dfsStep, findUnvisited]⟩
  · intro parent succ rest colors middle colors' events later unseen searched scanned stack before
    rcases searched ((rest, parent) :: stack) before with ⟨rounds, reached⟩
    rcases scanned stack (before ++ events) with ⟨others, finished⟩
    have entered : dfsStep graph ⟨colors, (succ :: rest, parent) :: stack, before⟩ =
        visitNode graph ⟨colors, (rest, parent) :: stack, before⟩ succ := by
      simp [dfsStep, findUnvisited, unseen]
    refine ⟨others + 1 + rounds, ?_⟩
    rw [Function.iterate_succ_apply, entered, Function.iterate_add_apply, reached, finished,
      List.append_assoc before]
  · intro parent succ rest colors colors' later isGrey scanned stack before
    rcases scanned stack (before ++ [.backEdge parent succ]) with ⟨rounds, finished⟩
    refine ⟨rounds, ?_⟩
    rw [Function.iterate_succ_apply, dfsStep_skip [.backEdge parent succ]
      (by simp [findUnvisited, isGrey]), ← Function.iterate_succ_apply, finished]
    simp
  · intro parent succ rest colors colors' later isBlack scanned stack before
    rcases scanned stack before with ⟨rounds, finished⟩
    refine ⟨rounds, ?_⟩
    rw [Function.iterate_succ_apply, dfsStep_skip [] (by simp [findUnvisited, isBlack]),
      List.append_nil, ← Function.iterate_succ_apply, finished]

theorem iterate_of_done {state done : DFSState Node} {rounds : Nat} (noMore : done.toVisit = [])
    (reached : (dfsStep graph)^[rounds] state = done) {others : Nat}
    (noMore' : ((dfsStep graph)^[others] state).toVisit = []) :
    (dfsStep graph)^[others] state = done := by
  have stays : ∀ {state : DFSState Node}, state.toVisit = [] → dfsStep graph state = state := by
    intro state empty
    simp [dfsStep, empty]
  rcases Nat.le_total rounds others with less | less
  · rw [← Nat.sub_add_cancel less, Function.iterate_add_apply, reached,
      Function.iterate_fixed (stays noMore)]
  · rw [← reached, ← Nat.sub_add_cancel less, Function.iterate_add_apply,
      Function.iterate_fixed (stays noMore')]

/-- The recursive search, however deep it may go from as many calls as there are nodes on. -/
theorem recursiveSearch_eq (closed : graph.Closed) (enough : graph.size ≤ depth) :
    ∃ colors, searchFrom graph depth (fun _ => none) graph.entryPoint =
      some (graph.depthFirstSearch, colors) := by
  have start : graph.unseen (fun _ => none) ≤ depth := by
    rw [Graph.unseen, List.countP_eq_length.mpr (by simp)]
    exact enough
  rcases searchFrom_total closed closed.entry_mem rfl start with ⟨⟨events, colors⟩, searching⟩
  rcases iterate_of_searchFrom searching [] [] with ⟨rounds, reached⟩
  have same := iterate_of_done rfl reached (dfsRun_done closed)
  refine ⟨colors, ?_⟩
  rw [searching, depthFirstSearch, dfsRun, dfsStart, same]
  rfl

/-! ## Discovery and finish -/

/-- Events as a search reports them: each node with what happens until it is finished. -/
inductive Bracketed : List (Event Node) → Prop where
  | nil : Bracketed []
  | backEdge {src tar : Node} {later : List (Event Node)} (behind : Bracketed later) :
      Bracketed (.backEdge src tar :: later)
  | node {node : Node} {inside : List (Event Node)} (inner : Bracketed inside) :
      Bracketed (.discoverNode node :: inside ++ [.finishNode node])
  | append {front back : List (Event Node)} (first : Bracketed front) (second : Bracketed back) :
      Bracketed (front ++ back)

theorem bracketed_search (result : searchFrom graph depth colors node = some (events, colors')) :
    Bracketed events := by
  apply searchFrom_induct (fun _ _ events _ => Bracketed events)
    (fun _ _ _ events _ => Bracketed events) _ _ _ _ _ result
  · exact fun _ _ _ _ inner => .node inner
  · exact fun _ _ => .nil
  · exact fun _ _ _ _ _ _ _ _ _ first second => .append first second
  · exact fun _ _ _ _ _ _ _ behind => .backEdge behind
  · exact fun _ _ _ _ _ _ _ scanned => scanned

/-- Where a node is discovered among the events, and where it is finished. -/
def discoveredAt (events : List (Event Node)) (node : Node) : Nat :=
  events.idxOf (.discoverNode node)

def finishedAt (events : List (Event Node)) (node : Node) : Nat :=
  events.idxOf (.finishNode node)

/-- The time of one node is over before that of the other begins, or within it. -/
def Nested (events : List (Event Node)) (one other : Node) : Prop :=
  finishedAt events one < discoveredAt events other ∨
    discoveredAt events other ≤ discoveredAt events one ∧
      finishedAt events one ≤ finishedAt events other

omit [DecidableEq Node] in
theorem mem_discovered : node ∈ discovered events ↔ .discoverNode node ∈ events := by
  induction events with
  | nil => simp [discovered]
  | cons event rest induction => cases event <;> simp_all [discovered, Event.discovered?]

omit [DecidableEq Node] in
theorem mem_finished : node ∈ finished events ↔ .finishNode node ∈ events := by
  induction events with
  | nil => simp [finished]
  | cons event rest induction => cases event <;> simp_all [finished, Event.finished?]

omit [DecidableEq Node] in
@[simp] theorem discovered_backEdge (src tar : Node) :
    discovered [.backEdge src tar] = [] :=
  rfl

omit [DecidableEq Node] in
theorem discovered_node : discovered (.discoverNode node :: events ++ [.finishNode node]) =
    node :: discovered events := by
  rw [discovered_append, discovered_finishNode, List.append_nil]
  rfl

omit [DecidableEq Node] in
theorem Bracketed.finish_mem (bracketed : Bracketed events) :
    ∀ node, .finishNode node ∈ events ↔ .discoverNode node ∈ events := by
  intro node
  induction bracketed with
  | nil => simp
  | backEdge _ behind => simpa using behind
  | node _ inner => simp [inner, or_comm]
  | append _ _ first second => simp only [List.mem_append, first, second]

section Positions

variable {front back : List (Event Node)} {one other : Node}

theorem discoveredAt_left (member : .discoverNode node ∈ front) :
    discoveredAt (front ++ back) node = discoveredAt front node :=
  List.idxOf_append_of_mem member

theorem discoveredAt_right (notMember : .discoverNode node ∉ front) :
    discoveredAt (front ++ back) node = discoveredAt back node + front.length :=
  (List.idxOf_append_of_notMem notMember).trans (Nat.add_comm _ _)

theorem finishedAt_left (member : .finishNode node ∈ front) :
    finishedAt (front ++ back) node = finishedAt front node :=
  List.idxOf_append_of_mem member

theorem finishedAt_right (notMember : .finishNode node ∉ front) :
    finishedAt (front ++ back) node = finishedAt back node + front.length :=
  (List.idxOf_append_of_notMem notMember).trans (Nat.add_comm _ _)

theorem finishedAt_lt_length (member : .finishNode node ∈ events) :
    finishedAt events node < events.length :=
  List.idxOf_lt_length_of_mem member

/-- A pair of nodes whose times lie in the front part. -/
theorem Nested.left (bracketed : Bracketed front) (oneMem : .discoverNode one ∈ front)
    (otherMem : .discoverNode other ∈ front) :
    Nested (front ++ back) one other ↔ Nested front one other := by
  rw [Nested, Nested, discoveredAt_left oneMem, discoveredAt_left otherMem,
    finishedAt_left ((bracketed.finish_mem one).mpr oneMem),
    finishedAt_left ((bracketed.finish_mem other).mpr otherMem)]

/-- A pair of nodes whose times lie behind the front part. -/
theorem Nested.right (oneStart : .discoverNode one ∉ front) (oneEnd : .finishNode one ∉ front)
    (otherStart : .discoverNode other ∉ front) (otherEnd : .finishNode other ∉ front) :
    Nested (front ++ back) one other ↔ Nested back one other := by
  rw [Nested, Nested, discoveredAt_right oneStart, discoveredAt_right otherStart,
    finishedAt_right oneEnd, finishedAt_right otherEnd]
  omega

end Positions

/-- A node is finished after everything its search has met. -/
theorem Bracketed.nested_top {top : Node} (bracketed : Bracketed events)
    (fresh : .discoverNode top ∉ events) (member : .finishNode node ∈
      .discoverNode top :: events ++ [.finishNode top]) :
    Nested (.discoverNode top :: events ++ [.finishNode top]) node top := by
  have starts : discoveredAt (.discoverNode top :: events ++ [.finishNode top]) top = 0 :=
    List.idxOf_cons_self
  have notFinished : Event.finishNode top ∉ .discoverNode top :: events := by
    simp [bracketed.finish_mem, fresh]
  have ends : finishedAt (.discoverNode top :: events ++ [.finishNode top]) top =
      (Event.discoverNode top :: events).length := by
    rw [finishedAt_right notFinished]
    simp [finishedAt]
  have within := finishedAt_lt_length member
  rw [List.length_append, List.length_singleton] at within
  right
  rw [starts, ends]
  omega

/-- A node is discovered before it is finished. -/
theorem Bracketed.starts_first (bracketed : Bracketed events) (nodup : (discovered events).Nodup)
    (member : .discoverNode node ∈ events) :
    discoveredAt events node < finishedAt events node := by
  induction bracketed with
  | nil => cases member
  | @backEdge src tar later behind induction =>
      have inner := induction nodup (by simpa using member)
      rw [← List.singleton_append, discoveredAt_right (by simp), finishedAt_right (by simp)]
      omega
  | @node top inside inner induction =>
      rw [discovered_node, List.nodup_cons] at nodup
      rw [List.cons_append, ← List.singleton_append]
      by_cases same : node = top
      · subst same
        rw [finishedAt_right (by simp), discoveredAt_left (by simp)]
        simp [discoveredAt]
      · have isInside : .discoverNode node ∈ inside := by simpa [same] using member
        have deeper := induction nodup.2 isInside
        rw [discoveredAt_right (by simpa using same), finishedAt_right (by simp),
          discoveredAt_left isInside, finishedAt_left ((inner.finish_mem node).mpr isInside)]
        omega
  | @append front back first second inFront inBack =>
      rw [discovered_append, List.nodup_append] at nodup
      by_cases isFront : .discoverNode node ∈ front
      · rw [discoveredAt_left isFront, finishedAt_left ((first.finish_mem node).mpr isFront)]
        exact inFront nodup.1 isFront
      · have isBack := (List.mem_append.mp member).resolve_left isFront
        have later := inBack nodup.2.1 isBack
        rw [discoveredAt_right isFront, finishedAt_right (mt (first.finish_mem node).mp isFront)]
        omega

/-- The times of the nodes of a search are nested or disjoint. -/
theorem Bracketed.nested (bracketed : Bracketed events) (nodup : (discovered events).Nodup)
    {one other : Node} (oneMem : .discoverNode one ∈ events)
    (otherMem : .discoverNode other ∈ events) :
    Nested events one other ∨ Nested events other one := by
  induction bracketed with
  | nil => cases oneMem
  | @backEdge src tar later behind induction =>
      have inner := induction nodup (by simpa using oneMem) (by simpa using otherMem)
      have shift : ∀ left right : Node, Nested ([.backEdge src tar] ++ later) left right ↔
          Nested later left right := fun left right =>
        Nested.right (by simp) (by simp) (by simp) (by simp)
      rwa [← List.singleton_append, shift, shift]
  | @node top inside inner induction =>
      rw [discovered_node, List.nodup_cons] at nodup
      have fresh : .discoverNode top ∉ inside := mt mem_discovered.mpr nodup.1
      have whole : Bracketed (.discoverNode top :: inside ++ [.finishNode top]) := .node inner
      have within : ∀ left right : Node, .discoverNode left ∈ inside →
          .discoverNode right ∈ inside →
          (Nested ([.discoverNode top] ++ (inside ++ [.finishNode top])) left right ↔
            Nested inside left right) := by
        intro left right leftMem rightMem
        have leftOther : left ≠ top := fun same => fresh (same ▸ leftMem)
        have rightOther : right ≠ top := fun same => fresh (same ▸ rightMem)
        rw [Nested.right (by simp [leftOther]) (by simp) (by simp [rightOther]) (by simp),
          Nested.left inner leftMem rightMem]
      by_cases oneTop : one = top
      · subst oneTop
        exact .inr (inner.nested_top fresh ((whole.finish_mem other).mpr otherMem))
      · by_cases otherTop : other = top
        · subst otherTop
          exact .inl (inner.nested_top fresh ((whole.finish_mem one).mpr oneMem))
        · have oneInside : .discoverNode one ∈ inside := by simpa [oneTop] using oneMem
          have otherInside : .discoverNode other ∈ inside := by simpa [otherTop] using otherMem
          have deeper := induction nodup.2 oneInside otherInside
          rwa [← within one other oneInside otherInside, ← within other one otherInside oneInside]
            at deeper
  | @append front back first second inFront inBack =>
      rw [discovered_append, List.nodup_append] at nodup
      have apart : ∀ {left right : Node}, .discoverNode left ∈ front →
          .discoverNode right ∈ back → Nested (front ++ back) left right := by
        intro left right leftMem rightMem
        have notFront : .discoverNode right ∉ front := fun inFront =>
          nodup.2.2 right (mem_discovered.mpr inFront) right (mem_discovered.mpr rightMem) rfl
        have ended := finishedAt_lt_length ((first.finish_mem left).mpr leftMem)
        left
        rw [finishedAt_left ((first.finish_mem left).mpr leftMem), discoveredAt_right notFront]
        omega
      have behind : ∀ {node : Node}, .discoverNode node ∈ back →
          .discoverNode node ∉ front ∧ .finishNode node ∉ front := by
        intro node member
        have notFront : .discoverNode node ∉ front := fun inFront =>
          nodup.2.2 node (mem_discovered.mpr inFront) node (mem_discovered.mpr member) rfl
        exact ⟨notFront, mt (first.finish_mem node).mp notFront⟩
      cases List.mem_append.mp oneMem with
      | inl oneFront =>
          cases List.mem_append.mp otherMem with
          | inl otherFront =>
              rw [Nested.left first oneFront otherFront, Nested.left first otherFront oneFront]
              exact inFront nodup.1 oneFront otherFront
          | inr otherBack => exact .inl (apart oneFront otherBack)
      | inr oneBack =>
          cases List.mem_append.mp otherMem with
          | inl otherFront => exact .inr (apart otherFront oneBack)
          | inr otherBack =>
              have one := behind oneBack
              have other := behind otherBack
              rw [Nested.right one.1 one.2 other.1 other.2, Nested.right other.1 other.2 one.1 one.2]
              exact inBack nodup.2.1 oneBack otherBack

/-- The nodes an event names. -/
def Event.nodes : Event Node → List Node
  | .discoverNode node => [node]
  | .finishNode node => [node]
  | .backEdge src tar => [src, tar]

theorem count_discoverNode (node : Node) :
    events.count (.discoverNode node) = (discovered events).count node := by
  rw [discovered, List.count, List.count, List.countP_filterMap]
  apply List.countP_congr
  intro event _
  cases event <;> simp [Event.discovered?]

theorem count_finishNode (node : Node) :
    events.count (.finishNode node) = (finished events).count node := by
  rw [finished, List.count, List.count, List.countP_filterMap]
  apply List.countP_congr
  intro event _
  cases event <;> simp [Event.finished?]

/-- Only what the entry reaches is reported. -/
theorem reachable_of_event (closed : graph.Closed) {event : Event Node}
    (reported : event ∈ graph.depthFirstSearch) : ∀ node ∈ event.nodes, graph.Reachable node := by
  intro node member
  cases event with
  | discoverNode other =>
      cases List.mem_singleton.mp member
      exact (mem_preOrder closed).mp (mem_discovered.mpr reported)
  | finishNode other =>
      cases List.mem_singleton.mp member
      exact (mem_postOrder closed).mp (mem_finished.mpr reported)
  | backEdge src tar =>
      have source := backEdge_reachable reported
      cases List.mem_cons.mp member with
      | inl same =>
          subst same
          exact source
      | inr inTail =>
          cases List.mem_singleton.mp inTail
          exact source.tail (backEdge_edge reported)

/-- The loop with the stack ends, and reports what the recursive search reports: every
reachable node is discovered once and finished once, and the times of two nodes are nested
or disjoint. -/
theorem depthFirstSearch_recursive (closed : graph.Closed) (enough : graph.size ≤ depth) :
    (dfsRun graph).toVisit = [] ∧
      recursiveSearch graph depth = some graph.depthFirstSearch ∧
      (∀ node, graph.Reachable node →
        graph.depthFirstSearch.count (.discoverNode node) = 1 ∧
          graph.depthFirstSearch.count (.finishNode node) = 1 ∧
            discoveredAt graph.depthFirstSearch node < finishedAt graph.depthFirstSearch node) ∧
      (∀ event ∈ graph.depthFirstSearch, ∀ node ∈ event.nodes, graph.Reachable node) ∧
      ∀ one other, graph.Reachable one → graph.Reachable other →
        Nested graph.depthFirstSearch one other ∨ Nested graph.depthFirstSearch other one := by
  rcases recursiveSearch_eq closed enough with ⟨colors, searching⟩
  have bracketed := bracketed_search searching
  have discoverMem : ∀ node, graph.Reachable node → .discoverNode node ∈ graph.depthFirstSearch :=
    fun node reachable => mem_discovered.mp ((mem_preOrder closed).mpr reachable)
  refine ⟨dfsRun_done closed, by simp [recursiveSearch, searching], fun node reachable => ⟨?_, ?_, ?_⟩,
    fun event reported => reachable_of_event closed reported, fun one other oneReached otherReached =>
      bracketed.nested preOrder_nodup (discoverMem one oneReached) (discoverMem other otherReached)⟩
  · rw [count_discoverNode]
    exact List.count_eq_one_of_mem preOrder_nodup ((mem_preOrder closed).mpr reachable)
  · rw [count_finishNode]
    exact List.count_eq_one_of_mem postOrder_nodup ((mem_postOrder closed).mpr reachable)
  · exact bracketed.starts_first preOrder_nodup (discoverMem node reachable)

/-- Parallel edges, a cross edge, a self-loop and a node that is not reached. -/
def tangledGraph : Graph Nat where
  nodes := [0, 1, 2, 3]
  entryPoint := 0
  succs
    | 0 => [1, 1, 2]
    | 1 => [0, 1]
    | 2 => [1]
    | _ => [0]
  preds
    | 0 => [1, 3]
    | 1 => [0, 0, 1, 2]
    | 2 => [0]
    | _ => []
  id node := node

theorem tangledGraph_closed : tangledGraph.Closed := by decide

theorem depthFirstSearch_recursive_tangled :
    (dfsRun tangledGraph).toVisit = [] ∧
      recursiveSearch tangledGraph 4 = some tangledGraph.depthFirstSearch ∧
      (∀ node, tangledGraph.Reachable node →
        tangledGraph.depthFirstSearch.count (.discoverNode node) = 1 ∧
          tangledGraph.depthFirstSearch.count (.finishNode node) = 1 ∧
            discoveredAt tangledGraph.depthFirstSearch node <
              finishedAt tangledGraph.depthFirstSearch node) ∧
      (∀ event ∈ tangledGraph.depthFirstSearch, ∀ node ∈ event.nodes,
        tangledGraph.Reachable node) ∧
      ∀ one other, tangledGraph.Reachable one → tangledGraph.Reachable other →
        Nested tangledGraph.depthFirstSearch one other ∨
          Nested tangledGraph.depthFirstSearch other one :=
  depthFirstSearch_recursive tangledGraph_closed (Nat.le_refl 4)

/-- What is reported there. -/
example : tangledGraph.depthFirstSearch =
    [.discoverNode 0, .discoverNode 1, .backEdge 1 0, .backEdge 1 1, .finishNode 1,
      .discoverNode 2, .finishNode 2, .finishNode 0] := by
  decide

end LeechJit.Graph
