import Mathlib.Data.List.TakeWhile
import LeechJit.Analysis.LoopAnalyzer
import LeechJit.Graph.NaturalLoop

/-! # The search that fills a body

`populate` searches backwards from the sources of the back edges. Which nodes it
meets, and in which order, does not depend on the loops it finds them in, so the
search is one thing and the linking of what it found another.
-/

namespace LeechJit.Analysis

open LeechJit.Graph
open Dominance

variable {Node : Type} [DecidableEq Node] {cfg : Cfg Node} {header : Node}

/-- The nodes visited when the search has met `met`, the latest first. -/
def visitedNodes (cfg : Cfg Node) (header : Node) (met : List Node) : List Node :=
  met ++ (cfg.backEdgesSrc header).reverse

/-- What the loop of `populate` keeps of its stack and of the nodes it met. -/
structure BodySearch (cfg : Cfg Node) (header : Node) (toVisit : List (List Node × Node))
    (met : List Node) : Prop where
  nodup : met.Nodup
  inside : ∀ node ∈ met, node ∈ cfg.nodes
  meets : ∀ node ∈ met, cfg.Meets header node
  stacked : ∀ entry ∈ toVisit, entry.2 ∈ visitedNodes cfg header met ∧
    ∃ done, cfg.preds entry.2 = done ++ entry.1 ∧
      ∀ pred ∈ done, pred = header ∨ pred ∈ visitedNodes cfg header met
  /-- The predecessors of a node are met unless the node is still on the stack. -/
  passed : ∀ node ∈ visitedNodes cfg header met, (∃ rest, (rest, node) ∈ toVisit) ∨
    ∀ pred ∈ cfg.preds node, pred = header ∨ pred ∈ visitedNodes cfg header met

/-- What the search meets after `met`, in order. -/
structure Searched (cfg : Cfg Node) (header : Node) (met found : List Node) : Prop where
  nodup : (found ++ met).Nodup
  meets : ∀ node ∈ found, cfg.Meets header node
  inside : ∀ node ∈ found, node ∈ cfg.nodes
  closed : ∀ node, node ∈ found ∨ node ∈ visitedNodes cfg header met →
    ∀ pred ∈ cfg.preds node,
      pred = header ∨ pred ∈ found ∨ pred ∈ visitedNodes cfg header met
  entered : ∀ front node back, found = front ++ node :: back →
    ∃ child, (child ∈ front ∨ child ∈ visitedNodes cfg header met) ∧ cfg.Edge node child

/-- What the search meets after the visited nodes, in order, where it stays in the loop. -/
structure Found (cfg : Cfg Node) (header : Node) (visited found : List Node) : Prop where
  nodup : (found ++ visited).Nodup
  inLoop : ∀ node ∈ found, cfg.InLoop header node
  inside : ∀ node ∈ found, node ∈ cfg.nodes
  closed : ∀ node, node ∈ found ∨ node ∈ visited → ∀ pred ∈ cfg.preds node,
    pred = header ∨ pred ∈ found ∨ pred ∈ visited
  entered : ∀ front node back, found = front ++ node :: back →
    ∃ child, (child ∈ front ∨ child ∈ visited) ∧ cfg.Edge node child

theorem mem_visitedNodes {met : List Node} {node : Node} :
    node ∈ visitedNodes cfg header met ↔ node ∈ met ∨ node ∈ cfg.backEdgesSrc header := by
  rw [visitedNodes, List.mem_append, List.mem_reverse]

namespace BodySearch

variable {toVisit : List (List Node × Node)} {met : List Node}

/-- The top of the stack has no predecessor left. -/
theorem pop {first : List Node} {child : Node} {stack : List (List Node × Node)}
    (search : BodySearch cfg header ((first, child) :: stack) met)
    (all : ∀ pred ∈ first, pred = header ∨ pred ∈ visitedNodes cfg header met) :
    BodySearch cfg header stack met := by
  constructor
  case nodup => exact search.nodup
  case inside => exact search.inside
  case meets => exact search.meets
  case stacked => exact fun entry member => search.stacked entry (.tail _ member)
  case passed =>
    intro node member
    rcases search.passed node member with ⟨rest, onStack⟩ | preds
    · cases onStack with
      | head =>
          right
          rcases search.stacked _ (.head _) with ⟨-, done, split, doneMet⟩
          have split' : cfg.preds child = done ++ first := split
          intro pred isPred
          rw [split', List.mem_append] at isPred
          rcases isPred with inDone | inFirst
          · exact doneMet pred inDone
          · exact all pred inFirst
      | tail _ below => exact .inl ⟨rest, below⟩
    · exact .inr preds

theorem visited_inside (search : BodySearch cfg header toVisit met) {node : Node}
    (visited : node ∈ visitedNodes cfg header met) : node ∈ cfg.nodes := by
  rcases mem_visitedNodes.mp visited with isMet | isSrc
  · exact search.inside node isMet
  · exact cfg.closed.mem_of_reachable (backEdge_reachable (mem_backEdgesSrc.mp isSrc))

/-- A predecessor that was not visited is put on the stack. -/
theorem push {skipped rest : List Node} {unvisNode child : Node}
    {stack : List (List Node × Node)}
    (search : BodySearch cfg header ((skipped ++ unvisNode :: rest, child) :: stack) met)
    (seen : ∀ pred ∈ skipped, pred = header ∨ pred ∈ visitedNodes cfg header met)
    (notHeader : unvisNode ≠ header) (fresh : unvisNode ∉ visitedNodes cfg header met) :
    cfg.Edge unvisNode child ∧
      BodySearch cfg header
        ((cfg.preds unvisNode, unvisNode) :: (rest, child) :: stack) (unvisNode :: met) := by
  rcases search.stacked _ (.head _) with ⟨childVisited, done, split, doneMet⟩
  have split' : cfg.preds child = done ++ (skipped ++ unvisNode :: rest) := split
  have childVisited' : child ∈ visitedNodes cfg header met := childVisited
  have childInside := search.visited_inside childVisited'
  have isPred : unvisNode ∈ cfg.preds child := by simp [split']
  have inside := cfg.preds_mem child childInside unvisNode isPred
  have edge := (cfg.mem_preds_iff inside childInside).mp isPred
  have new := not_or.mp (mt mem_visitedNodes.mpr fresh)
  refine ⟨edge, ?_⟩
  constructor
  case nodup => exact List.nodup_cons.mpr ⟨new.1, search.nodup⟩
  case inside =>
    intro node member
    cases member with
    | head => exact inside
    | tail _ member => exact search.inside node member
  case meets =>
    intro node member
    cases member with
    | head =>
        rcases mem_visitedNodes.mp childVisited' with isMet | isSrc
        · exact .ofMet (search.meets child isMet) edge notHeader new.2
        · exact .ofSrc isSrc edge notHeader new.2
    | tail _ member => exact search.meets node member
  case stacked =>
    intro entry member
    cases member with
    | head => exact ⟨.head _, [], rfl, by simp⟩
    | tail _ member =>
        cases member with
        | head =>
            refine ⟨.tail _ childVisited', done ++ skipped ++ [unvisNode], by simp [split'], ?_⟩
            intro pred isDone
            rw [List.mem_append, List.mem_append, List.mem_singleton] at isDone
            rcases isDone with (inDone | inSkipped) | rfl
            · exact (doneMet pred inDone).imp_right (.tail _)
            · exact (seen pred inSkipped).imp_right (.tail _)
            · exact .inr (.head _)
        | tail _ member =>
            rcases search.stacked entry (.tail _ member) with ⟨isVisited, before, parts, metAll⟩
            exact ⟨.tail _ isVisited, before, parts, fun pred inBefore =>
              (metAll pred inBefore).imp_right (.tail _)⟩
  case passed =>
    intro node member
    cases member with
    | head => exact .inl ⟨_, .head _⟩
    | tail _ member =>
        rcases search.passed node member with ⟨others, onStack⟩ | preds
        · cases onStack with
          | head => exact .inl ⟨rest, .tail _ (.head _)⟩
          | tail _ below => exact .inl ⟨others, .tail _ (.tail _ below)⟩
        · exact .inr fun pred isPred => (preds pred isPred).imp_right (.tail _)

theorem length_le (search : BodySearch cfg header toVisit met) : met.length ≤ cfg.size :=
  (search.nodup.subperm search.inside).length_le

/-- The search starts with the sources of the back edges on the stack. -/
theorem start (cfg : Cfg Node) (header : Node) :
    BodySearch cfg header
      ((cfg.backEdgesSrc header).reverse.map fun src => (cfg.preds src, src)) [] where
  nodup := List.nodup_nil
  inside := by simp
  meets := by simp
  stacked entry member := by
    rcases List.mem_map.mp member with ⟨src, isSrc, rfl⟩
    exact ⟨isSrc, [], rfl, by simp⟩
  passed src member := .inl ⟨cfg.preds src, List.mem_map.mpr ⟨src, member, rfl⟩⟩

/-- When the stack is empty nothing more is found. -/
theorem searched_nil (search : BodySearch cfg header [] met) : Searched cfg header met [] where
  nodup := search.nodup
  meets := by simp
  inside := by simp
  closed node member pred isPred := by
    have isVisited : node ∈ visitedNodes cfg header met := by simpa using member
    rcases search.passed node isVisited with ⟨_, onStack⟩ | preds
    · cases onStack
    · exact (preds pred isPred).imp_right .inr
  entered front node back split := by simp at split

end BodySearch

namespace Searched

variable {met found : List Node}

theorem cons {node child : Node} (later : Searched cfg header (node :: met) found)
    (meets : cfg.Meets header node) (inside : node ∈ cfg.nodes)
    (childVisited : child ∈ visitedNodes cfg header met) (edge : cfg.Edge node child) :
    Searched cfg header met (node :: found) := by
  have shuffle : (found ++ node :: met).Perm (node :: (found ++ met)) := List.perm_middle
  constructor
  case nodup => exact shuffle.nodup_iff.mp later.nodup
  case meets =>
    intro other member
    cases member with
    | head => exact meets
    | tail _ member => exact later.meets other member
  case inside =>
    intro other member
    cases member with
    | head => exact inside
    | tail _ member => exact later.inside other member
  case closed =>
    intro other member pred isPred
    have moved : other ∈ found ∨ other ∈ visitedNodes cfg header (node :: met) := by
      simp only [List.mem_cons, visitedNodes, List.cons_append] at member ⊢
      tauto
    have known := later.closed other moved pred isPred
    simp only [List.mem_cons, visitedNodes, List.cons_append] at known ⊢
    tauto
  case entered =>
    intro front other back split
    cases front with
    | nil =>
        cases split
        exact ⟨child, .inr childVisited, edge⟩
    | cons first front =>
        cases split
        rcases later.entered front other back rfl with ⟨next, isNext, onward⟩
        refine ⟨next, ?_, onward⟩
        simp only [List.mem_cons, visitedNodes, List.cons_append] at isNext ⊢
        tauto

/-- The whole search finds exactly what there is to meet. -/
theorem mem_iff (searched : Searched cfg header [] found) {node : Node} :
    node ∈ found ↔ node ∈ cfg.nodes ∧ cfg.Meets header node := by
  constructor
  · exact fun member => ⟨searched.inside node member, searched.meets node member⟩
  · rintro ⟨inside, meets⟩
    have closed : ∀ child, child ∈ cfg.nodes →
        child ∈ found ∨ child ∈ cfg.backEdgesSrc header → ∀ other, other ∈ cfg.nodes →
          cfg.Edge other child → other ≠ header → other ∉ cfg.backEdgesSrc header →
            other ∈ found := by
      intro child childInside visited other otherInside edge notHeader notSrc
      have isPred := (cfg.mem_preds_iff otherInside childInside).mpr edge
      have known := searched.closed child (by simpa [mem_visitedNodes] using visited) other isPred
      simpa [mem_visitedNodes, notHeader, notSrc] using known
    induction meets with
    | ofSrc isSrc edge notHeader notSrc =>
        have srcInside := cfg.closed.succs_mem _ inside _ edge
        exact closed _ srcInside (.inr isSrc) _ inside edge notHeader notSrc
    | ofMet _ edge notHeader notSrc induction =>
        have childInside := cfg.closed.succs_mem _ inside _ edge
        exact closed _ childInside (.inl (induction childInside)) _ inside edge notHeader notSrc

/-- Where no source is the header, and none is found twice, the search stays in the loop. -/
theorem isFound (searched : Searched cfg header [] found)
    (nodup : (cfg.backEdgesSrc header).Nodup)
    (notHeader : ∀ src ∈ cfg.backEdgesSrc header, src ≠ header) :
    Found cfg header (cfg.backEdgesSrc header).reverse found where
  nodup := by
    have parts : found.Nodup := by simpa using searched.nodup
    rw [List.nodup_append]
    refine ⟨parts, List.nodup_reverse.mpr nodup, ?_⟩
    rintro node inFound other isSrc rfl
    exact (searched.meets node inFound).not_src (List.mem_reverse.mp isSrc)
  inLoop node member :=
    (searched.meets node member).inLoop fun isSrc => notHeader header isSrc rfl
  inside := searched.inside
  closed := searched.closed
  entered := searched.entered

end Searched

/-- The search from the sources meets the whole loop. -/
theorem Found.complete {found : List Node}
    (isFound : Found cfg header (cfg.backEdgesSrc header).reverse found) {node : Node}
    (member : node ∈ cfg.nodes) (inLoop : cfg.InLoop header node) :
    node ∈ cfg.backEdgesSrc header ∨ node ∈ found := by
  rcases inLoop with ⟨src, isSrc, nodes, walk, missed⟩
  induction walk with
  | here => exact .inl isSrc
  | step first rest induction =>
      rename_i start next finish nodes
      have parts := not_or.mp (mt List.mem_cons.mpr missed)
      have nextMem := cfg.closed.succs_mem start member next first
      have met := induction nextMem isSrc parts.2
      have isPred := (cfg.mem_preds_iff member nextMem).mpr first
      rcases isFound.closed next (by simpa [or_comm] using met) start isPred with
        isHeader | inFound | isVisited
      · exact absurd isHeader.symm parts.1
      · exact .inr inFound
      · exact .inl (List.mem_reverse.mp isVisited)

/-- One round of the loop: the stack loses its top, or a node is linked. -/
inductive PopulateRound (graph : Graph Node) (this : LoopId) (header : Node)
    (toVisit : List (List Node × Node)) (visited : List Node) : Prop where
  | popped (first : List Node) (child : Node) (stack : List (List Node × Node))
      (top : toVisit = (first, child) :: stack)
      (all : ∀ pred ∈ first, pred = header ∨ pred ∈ visited)
      (step : ∀ analyzer : LoopAnalyzer Node,
        LoopAnalyzer.populateStep graph this header ⟨analyzer, toVisit, visited⟩ =
          .ok ⟨analyzer, stack, visited⟩)
  | pushed (skipped rest : List Node) (unvisNode child : Node)
      (stack : List (List Node × Node))
      (top : toVisit = (skipped ++ unvisNode :: rest, child) :: stack)
      (seen : ∀ pred ∈ skipped, pred = header ∨ pred ∈ visited)
      (notHeader : unvisNode ≠ header) (fresh : unvisNode ∉ visited)
      (step : ∀ analyzer : LoopAnalyzer Node,
        LoopAnalyzer.populateStep graph this header ⟨analyzer, toVisit, visited⟩ =
          analyzer.linkNode this unvisNode >>= fun analyzer =>
            .ok ⟨analyzer, (graph.preds unvisNode, unvisNode) :: (rest, child) :: stack,
              unvisNode :: visited⟩)

theorem populateStep_round (graph : Graph Node) (this : LoopId) (header : Node)
    (first : List Node) (child : Node) (stack : List (List Node × Node))
    (visited : List Node) :
    PopulateRound graph this header ((first, child) :: stack) visited := by
  have split := List.takeWhile_append_dropWhile
    (p := fun node => decide (node = header ∨ node ∈ visited)) (l := first)
  have seen : ∀ pred ∈ first.takeWhile fun node => decide (node = header ∨ node ∈ visited),
      pred = header ∨ pred ∈ visited := by
    intro pred member
    simpa using List.mem_takeWhile_imp member
  rcases dropped : first.dropWhile fun node => decide (node = header ∨ node ∈ visited) with
    _ | ⟨unvisNode, rest⟩
  · rw [dropped, List.append_nil] at split
    apply PopulateRound.popped first child stack rfl
    · intro pred member
      exact seen pred (split.symm ▸ member)
    · intro analyzer
      simp only [LoopAnalyzer.populateStep, dropped]
  · rw [dropped] at split
    have unseen : ¬ (unvisNode = header ∨ unvisNode ∈ visited) := by
      have fails := List.head?_dropWhile_not
        (fun node => decide (node = header ∨ node ∈ visited)) first
      rw [dropped] at fails
      exact of_decide_eq_false fails
    apply PopulateRound.pushed _ rest unvisNode child stack (by rw [split]) seen
      (fun equal => unseen (.inl equal)) (fun member => unseen (.inr member))
    intro analyzer
    simp only [LoopAnalyzer.populateStep, dropped]
    rfl

/-- The loop ends, and has linked the nodes it found one after the other. -/
theorem BodySearch.run {toVisit : List (List Node × Node)} {met : List Node}
    (search : BodySearch cfg header toVisit met) (this : LoopId) {fuel : Nat}
    (enough : 2 * (cfg.size - met.length) + toVisit.length ≤ fuel) :
    ∃ found, Searched cfg header met found ∧ ∀ analyzer : LoopAnalyzer Node,
      LoopAnalyzer.populateLoop cfg.toGraph this header fuel
          ⟨analyzer, toVisit, visitedNodes cfg header met⟩ =
        found.foldlM (fun analyzer node => analyzer.linkNode this node) analyzer := by
  induction fuel generalizing toVisit met with
  | zero =>
      have empty : toVisit = [] := List.eq_nil_of_length_eq_zero (by omega)
      subst empty
      exact ⟨[], search.searched_nil, fun analyzer => rfl⟩
  | succ fuel induction =>
      cases toVisit with
      | nil => exact ⟨[], search.searched_nil, fun analyzer => rfl⟩
      | cons entry stack =>
          rcases entry with ⟨first, child⟩
          cases populateStep_round cfg.toGraph this header first child stack
            (visitedNodes cfg header met) with
          | popped first child stack top all step =>
              cases top
              rcases induction (search.pop all)
                (by simp only [List.length_cons] at enough; omega) with ⟨found, isFound, result⟩
              refine ⟨found, isFound, ?_⟩
              intro analyzer
              rw [← result analyzer, LoopAnalyzer.populateLoop, step]
              simp
          | pushed skipped rest unvisNode child stack top seen notHeader fresh step =>
              cases top
              have pushed := search.push seen notHeader fresh
              have bound := pushed.2.length_le
              have newMeets := pushed.2.meets unvisNode (.head _)
              have newInside := pushed.2.inside unvisNode (.head _)
              have childVisited := (search.stacked _ (.head _)).1
              rcases induction pushed.2
                (by simp only [List.length_cons] at enough bound ⊢; omega) with
                ⟨found, isFound, result⟩
              refine ⟨unvisNode :: found,
                isFound.cons newMeets newInside childVisited pushed.1, ?_⟩
              intro analyzer
              rw [LoopAnalyzer.populateLoop, step, List.foldlM_cons]
              cases linked : analyzer.linkNode this unvisNode with
              | error fault => simp
              | ok next =>
                  simp only [Result.ok_bind, List.isEmpty_cons]
                  exact result next

end LeechJit.Analysis
