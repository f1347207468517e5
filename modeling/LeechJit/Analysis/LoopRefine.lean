import LeechJit.Analysis.LoopLinks

/-! # The analyzer's loops are a nest

`heads` lists the headers in the order the loops are allocated, so a pointer to
a loop is the position of its header.
-/

namespace LeechJit.Analysis

open LeechJit.Graph
open Nesting (Item)

variable {Node : Type} [DecidableEq Node]

def entryOf (heads : List Node) : Item Node Node → NodeOrLoop Node
  | .leaf node => .node node
  | .group header => .loop (heads.idxOf header)

def innerOf (heads : List Node) : Item Node Node → Option LoopId
  | .leaf _ => none
  | .group header => some (heads.idxOf header)

/-- The loop of `header` as the analyzer keeps it. -/
def infoOf (graph : Graph Node) (heads : List Node) (nest : Nest Node) (header : Node) :
    LoopInfo Node where
  header := some header
  body := (graph.backEdgesSrc header).map .node ++ (nest.items header).map (entryOf heads)
  backEdgesSrc := graph.backEdgesSrc header
  inners := (nest.items header).filterMap (innerOf heads)
  outer := (nest.outer header).map heads.idxOf
  reducible := graph.reducible header

namespace LoopAnalyzer

variable {analyzer : LoopAnalyzer Node} {node : Node} {id : LoopId}

theorem emplaceNode_loops (analyzer : LoopAnalyzer Node) (node : Node) (id : LoopId) :
    (analyzer.emplaceNode node id).loops = analyzer.loops := by
  cases known : analyzer.findLoop node <;> simp [emplaceNode, known]

theorem findLoop_emplaceNode (unknown : analyzer.findLoop node = none) (other : Node) :
    (analyzer.emplaceNode node id).findLoop other =
      if other = node then some id else analyzer.findLoop other := by
  rw [findLoop] at unknown
  simp only [emplaceNode, findLoop, unknown, List.lookup_append, List.lookup_cons,
    List.lookup_nil]
  by_cases same : other = node
  · simp [same, unknown]
  · have differs : (other == node) = false := by simp [same]
    simp [same, differs]

@[simp] theorem findLoop_modifyLoop (change : LoopInfo Node → LoopInfo Node) :
    (analyzer.modifyLoop id change).findLoop node = analyzer.findLoop node := rfl

theorem mem_keys_iff :
    node ∈ analyzer.nodesToLoop.map Prod.fst ↔ analyzer.findLoop node ≠ none := by
  rw [findLoop, Option.ne_none_iff_isSome, List.lookup_isSome_iff, List.mem_map]
  constructor
  · rintro ⟨entry, member, rfl⟩
    exact ⟨entry, member, beq_self_eq_true _⟩
  · rintro ⟨entry, member, equal⟩
    exact ⟨entry, member, (beq_iff_eq.mp equal).symm⟩

theorem emplaceNode_keys (nodup : (analyzer.nodesToLoop.map Prod.fst).Nodup) :
    ((analyzer.emplaceNode node id).nodesToLoop.map Prod.fst).Nodup := by
  cases known : analyzer.findLoop node with
  | some other => simpa [emplaceNode, known] using nodup
  | none =>
      have fresh : node ∉ analyzer.nodesToLoop.map Prod.fst := by
        rw [mem_keys_iff, known]
        simp
      simp only [emplaceNode, known, List.map_append, List.map_cons, List.map_nil]
      exact List.Nodup.append nodup (List.nodup_singleton node) (by simpa using fresh)

end LoopAnalyzer

structure Represents (graph : Graph Node) (heads : List Node) (analyzer : LoopAnalyzer Node)
    (nest : Nest Node) : Prop where
  loops : analyzer.loops = heads.map (infoOf graph heads nest)
  found : ∀ node, analyzer.findLoop node = (nest.owner node).map heads.idxOf
  keys : (analyzer.nodesToLoop.map Prod.fst).Nodup
  owners : ∀ node loop, nest.owner node = some loop → loop ∈ heads

/-! ## Changing one loop -/

theorem modify_map {α : Type} {heads : List Node} {before after : Node → α} {change : α → α}
    {header : Node} (nodup : heads.Nodup) (member : header ∈ heads)
    (changed : after header = change (before header))
    (kept : ∀ other ∈ heads, other ≠ header → after other = before other) :
    (heads.map before).modify (heads.idxOf header) change = heads.map after := by
  induction heads with
  | nil => cases member
  | cons head rest induction =>
      have parts := List.nodup_cons.mp nodup
      by_cases same : head = header
      · subst same
        have others : rest.map after = rest.map before := by
          apply List.map_congr_left
          intro other inRest
          exact kept other (.tail _ inRest) fun equal => parts.1 (equal ▸ inRest)
        simp [changed, others]
      · have inRest := (List.mem_cons.mp member).resolve_left (Ne.symm same)
        rw [List.idxOf_cons_ne rest same, List.map_cons, List.modify_succ_cons,
          induction parts.2 inRest fun other inside => kept other (.tail _ inside),
          List.map_cons, kept head (.head _) same]

namespace Represents

variable {graph : Graph Node} {heads : List Node} {analyzer : LoopAnalyzer Node}
  {nest : Nest Node} {header : Node}

theorem loop (represents : Represents graph heads analyzer nest) (member : header ∈ heads) :
    analyzer.loop (heads.idxOf header) = .ok (infoOf graph heads nest header) := by
  have inside := List.idxOf_lt_length_of_mem member
  have stored : analyzer.loops[heads.idxOf header]? =
      some (infoOf graph heads nest header) := by
    rw [represents.loops, List.getElem?_map, List.getElem?_eq_getElem inside,
      List.getElem_idxOf inside]
    rfl
  simp only [LoopAnalyzer.loop, stored]

/-- A node that is in no loop is put in one. -/
theorem put (represents : Represents graph heads analyzer nest) (member : header ∈ heads)
    {node : Node} (free : nest.owner node = none) :
    Represents graph heads (analyzer.emplaceNode node (heads.idxOf header))
      (nest.put header node) := by
  have unknown : analyzer.findLoop node = none := by rw [represents.found, free, Option.map_none]
  constructor
  case loops => exact (LoopAnalyzer.emplaceNode_loops ..).trans represents.loops
  case found =>
    intro other
    rw [LoopAnalyzer.findLoop_emplaceNode unknown, represents.found]
    by_cases same : other = node <;> simp [Nest.put, same]
  case keys => exact LoopAnalyzer.emplaceNode_keys represents.keys
  case owners =>
    intro other loop owned
    rcases (Nest.put_owner free).mp owned with old | ⟨-, rfl⟩
    · exact represents.owners other loop old
    · exact member

/-- The source of a back edge is put in the loop unless it is in another. -/
theorem claim (represents : Represents graph heads analyzer nest) (member : header ∈ heads)
    (node : Node) :
    Represents graph heads (analyzer.emplaceNode node (heads.idxOf header))
      (Nest.claim header nest node) := by
  cases owned : nest.owner node with
  | none =>
      simp only [Nest.claim, owned]
      exact represents.put member owned
  | some inner =>
      have known : analyzer.findLoop node = some (heads.idxOf inner) := by
        rw [represents.found, owned, Option.map_some]
      simp only [Nest.claim, owned, LoopAnalyzer.emplaceNode, known]
      exact represents

theorem claims (represents : Represents graph heads analyzer nest) (member : header ∈ heads)
    (nodes : List Node) :
    Represents graph heads
      (nodes.foldl (fun analyzer node => analyzer.emplaceNode node (heads.idxOf header)) analyzer)
      (nodes.foldl (Nest.claim header) nest) := by
  induction nodes generalizing analyzer nest with
  | nil => exact represents
  | cons node rest induction => exact induction (represents.claim member node)

/-- An item is added to the body of a loop. -/
theorem addNode (represents : Represents graph heads analyzer nest) (nodup : heads.Nodup)
    (member : header ∈ heads) (node : Node) :
    Represents graph heads
      (analyzer.modifyLoop (heads.idxOf header) fun info => info.addNode node)
      (nest.add header (.leaf node)) where
  loops := by
    simp only [LoopAnalyzer.modifyLoop, represents.loops]
    apply modify_map nodup member
    · simp [infoOf, LoopInfo.addNode, Nest.add, entryOf, innerOf]
    · intro other _ different
      simp [infoOf, Nest.add, different]
  found := represents.found
  keys := represents.keys
  owners := represents.owners

/-- And so is a loop, which gets a loop around it. -/
theorem addInnerLoop (represents : Represents graph heads analyzer nest) (nodup : heads.Nodup)
    (member : header ∈ heads) {inner : Node} (innerMem : inner ∈ heads) :
    Represents graph heads
      (analyzer.addInnerLoop (heads.idxOf header) (heads.idxOf inner))
      { nest.add header (.group inner) with
        outer := Function.update nest.outer inner (some header) } where
  loops := by
    have added : (heads.map (infoOf graph heads nest)).modify (heads.idxOf header)
        (fun info => { info with
          inners := info.inners ++ [heads.idxOf inner]
          body := info.body ++ [.loop (heads.idxOf inner)] }) =
        heads.map (infoOf graph heads (nest.add header (.group inner))) := by
      apply modify_map nodup member
      · simp [infoOf, Nest.add, entryOf, innerOf]
      · intro other _ unequal
        simp [infoOf, Nest.add, unequal]
    simp only [LoopAnalyzer.addInnerLoop, LoopAnalyzer.modifyLoop, represents.loops, added]
    apply modify_map nodup innerMem
    · simp [infoOf]
    · intro other _ unequal
      simp [infoOf, unequal]
  found := represents.found
  keys := represents.keys
  owners := represents.owners

/-- What `populate` does at a node it found is what the nest does. -/
theorem link (represents : Represents graph heads analyzer nest) (nodup : heads.Nodup)
    (member : header ∈ heads) (node : Node) :
    ∃ after, analyzer.linkNode (heads.idxOf header) node = .ok after ∧
      Represents graph heads after (Nest.link header nest node) := by
  cases owned : nest.owner node with
  | none =>
      have unknown : analyzer.findLoop node = none := by
        rw [represents.found, owned, Option.map_none]
      simp only [Nest.link, owned, LoopAnalyzer.linkNode, unknown]
      exact ⟨_, rfl, (represents.put member owned).addNode nodup member node⟩
  | some inner =>
      have known : analyzer.findLoop node = some (heads.idxOf inner) := by
        rw [represents.found, owned, Option.map_some]
      have isHead := represents.owners node inner owned
      simp only [LoopAnalyzer.linkNode, known, represents.loop isHead, Result.ok_bind]
      cases around : nest.outer inner with
      | none =>
          simp only [Nest.link, owned, around, infoOf, Option.map_none, if_true]
          exact ⟨_, rfl, represents.addInnerLoop nodup member isHead⟩
      | some loop =>
          simp only [Nest.link, owned, around, infoOf, Option.map_some, reduceCtorEq, if_false]
          exact ⟨_, rfl, represents⟩

theorem links (represents : Represents graph heads analyzer nest) (nodup : heads.Nodup)
    (member : header ∈ heads) (nodes : List Node) :
    ∃ after, nodes.foldlM (fun analyzer node => analyzer.linkNode (heads.idxOf header) node)
        analyzer = .ok after ∧
      Represents graph heads after (nodes.foldl (Nest.link header) nest) := by
  induction nodes generalizing analyzer nest with
  | nil => exact ⟨analyzer, rfl, represents⟩
  | cons node rest induction =>
      rcases represents.link nodup member node with ⟨next, linked, step⟩
      rcases induction step with ⟨after, result, final⟩
      exact ⟨after, by rw [List.foldlM_cons, linked, Result.ok_bind, result], final⟩

end Represents

/-! ## Populating the loops -/

section Populate

variable {cfg : Cfg Node} {heads done : List Node} {analyzer : LoopAnalyzer Node}
  {nest : Nest Node}

theorem Represents.populate (represents : Represents cfg.toGraph heads analyzer nest)
    (nodup : heads.Nodup) {header : Node} (member : header ∈ heads) :
    ∃ after found, analyzer.populate cfg.toGraph (heads.idxOf header) = .ok after ∧
      Searched cfg header [] found ∧
        Represents cfg.toGraph heads after (nest.populate cfg.toGraph header found) := by
  have claimed := represents.claims member (cfg.backEdgesSrc header)
  have enough : 2 * (cfg.size - ([] : List Node).length) +
      ((cfg.backEdgesSrc header).reverse.map fun src => (cfg.preds src, src)).length ≤
      (cfg.backEdgesSrc header).length + 2 * cfg.size := by
    rw [List.length_map, List.length_reverse, List.length_nil]
    omega
  rcases (BodySearch.start cfg header).run (heads.idxOf header) enough with
    ⟨found, searched, result⟩
  simp only [LoopAnalyzer.populate, Nest.populate, represents.loop member, Result.ok_bind, infoOf]
  cases reducible : cfg.reducible header with
  | false => exact ⟨_, found, rfl, searched, claimed⟩
  | true =>
      rcases claimed.links nodup member found with ⟨after, linked, final⟩
      exact ⟨after, found, (result _).trans linked, searched, final⟩

/-- A loop that is populated after those that finish earlier keeps a property. -/
def Keeps (cfg : Cfg Node) (holds : List Node → Nest Node → Prop) : Prop :=
  ∀ front header found nest, cfg.IsHeader header →
    (∀ loop ∈ front, cfg.finishTime loop < cfg.finishTime header) →
    (∀ loop, cfg.IsHeader loop → cfg.finishTime loop < cfg.finishTime header → loop ∈ front) →
    Searched cfg header [] found → Nest.Plain cfg.toGraph front nest → holds front nest →
    holds (front ++ [header]) (nest.populate cfg.toGraph header found)

/-- The loops are populated in the order their headers finish. What holds at the start
and is kept by each of them holds at the end. -/
theorem populateHeaders_keeps (holds : List Node → Nest Node → Prop) (nodup : heads.Nodup)
    (headers : ∀ node, node ∈ heads ↔ cfg.IsHeader node) (keeps : Keeps cfg holds)
    {front rest : List Node} (tour : front ++ rest =
      cfg.depthFirstSearchPostOrder.filter fun node => decide (cfg.IsHeader node))
    (represents : Represents cfg.toGraph heads analyzer nest)
    (plain : Nest.Plain cfg.toGraph front nest) (start : holds front nest) :
    ∃ after next, rest.foldlM (LoopAnalyzer.populateHeader cfg.toGraph) analyzer = .ok after ∧
      Represents cfg.toGraph heads after next ∧ Nest.Plain cfg.toGraph (front ++ rest) next ∧
        holds (front ++ rest) next := by
  induction rest generalizing front analyzer nest with
  | nil => exact ⟨analyzer, nest, rfl, represents, by simpa using plain, by simpa using start⟩
  | cons header rest induction =>
      have sublist : (front ++ header :: rest).Sublist cfg.depthFirstSearchPostOrder :=
        tour ▸ List.filter_sublist
      have ordered : ∀ first second, [first, second].Sublist (front ++ header :: rest) →
          cfg.finishTime first < cfg.finishTime second := fun first second pair =>
        idxOf_lt_of_sublist postOrder_nodup (pair.trans sublist)
      have mem_tour : ∀ node, node ∈ front ++ header :: rest ↔ cfg.IsHeader node := by
        intro node
        rw [tour, List.mem_filter, decide_eq_true_iff, mem_postOrder cfg.closed]
        exact and_iff_right_of_imp isHeader_reachable
      have isHeader := (mem_tour header).mp (List.mem_append_right _ (.head _))
      have earlier : ∀ loop ∈ front, cfg.finishTime loop < cfg.finishTime header := by
        intro loop inFront
        apply ordered
        exact (List.singleton_sublist.mpr inFront).append (List.singleton_sublist.mpr (.head _))
      have all : ∀ loop, cfg.IsHeader loop → cfg.finishTime loop < cfg.finishTime header →
          loop ∈ front := by
        intro loop loopHeader less
        rcases List.mem_append.mp ((mem_tour loop).mpr loopHeader) with inFront | behind
        · exact inFront
        · rcases List.mem_cons.mp behind with rfl | inRest
          · exact absurd less (Nat.lt_irrefl _)
          · have later := ordered header loop (List.Sublist.trans
              ((List.singleton_sublist.mpr inRest).cons_cons header)
              (List.sublist_append_right front _))
            omega
      rcases represents.populate nodup ((headers header).mpr isHeader) with
        ⟨after, found, populated, searched, represents'⟩
      have isFound : analyzer.findLoop header = some (heads.idxOf header) := by
        rw [represents.found, plain.own header isHeader, Option.map_some]
      have tour' : front ++ [header] ++ rest =
          cfg.depthFirstSearchPostOrder.filter fun node => decide (cfg.IsHeader node) := by
        simpa using tour
      have start' := keeps front header found nest isHeader earlier all searched plain start
      rcases induction tour' represents' (plain.populate isHeader cfg.closed searched.inside) start' with
        ⟨final, last, result, lastRepresents, lastPlain, lastHolds⟩
      refine ⟨final, last, ?_, lastRepresents, by simpa using lastPlain, by simpa using lastHolds⟩
      rw [List.foldlM_cons, LoopAnalyzer.populateHeader, isFound]
      simp only [populated, Result.ok_bind]
      exact result

/-- Populating a loop makes the nest sound for one loop more. -/
theorem populate_sound (apart : cfg.LoopsApart) {header : Node} {found : List Node}
    (sound : Nest.Sound cfg.toGraph done nest) (bodies : Bodies cfg nest done)
    (isHeader : cfg.IsHeader header) (searched : Searched cfg header [] found)
    (earlier : ∀ loop ∈ done, cfg.finishTime loop < cfg.finishTime header)
    (all : ∀ loop, cfg.IsHeader loop → cfg.finishTime loop < cfg.finishTime header →
      loop ∈ done) :
    Nest.Sound cfg.toGraph (header :: done) (nest.populate cfg.toGraph header found) ∧
      Bodies cfg (nest.populate cfg.toGraph header found) (header :: done) := by
  have claimedSound := sound.claims isHeader
  have notDone : header ∉ done := fun inDone => Nat.lt_irrefl _ (earlier header inDone)
  have claimedItems := (Nest.claims_items header (cfg.backEdgesSrc header) nest).1
  have claimedBodies := bodies.mono (Nest.claims_grows header (cfg.backEdgesSrc header) nest)
    fun other _ => by rw [claimedItems]
  rw [Nest.populate]
  cases reducible : cfg.reducible header with
  | false =>
      refine ⟨claimedSound, ?_⟩
      intro other inDone otherReducible
      rcases List.mem_cons.mp inDone with rfl | old
      · rw [reducible] at otherReducible
        cases otherReducible
      · exact claimedBodies other old otherReducible
  | true =>
      have emitted := emitted_of_reducible reducible
      have notHeader : ∀ src ∈ cfg.backEdgesSrc header, src ≠ header := by
        rintro src isSrc rfl
        exact apart.notHeader src emitted src isSrc isHeader
      have isFound := searched.isFound (apart.nodup header emitted) notHeader
      have filling : Nest.Filling cfg.toGraph (header :: done) header := by
        constructor
        case isDone => exact .head _
        case reducible => exact reducible
        case earlier =>
          intro loop inDone
          rcases List.mem_cons.mp inDone with rfl | old
          · exact .inl rfl
          · exact .inr (earlier loop old)
        case all => exact fun loop loopHeader less => .tail _ (all loop loopHeader less)
      have start : Nest.Laid cfg.toGraph
          ((cfg.backEdgesSrc header).foldl (Nest.claim header) nest) header [] :=
        .start (by rw [claimedItems, sound.items_eq_nil notDone])
      have filled := claimedSound.links start filling cfg.closed apart isFound.inLoop
        (fun node inFound => cfg.allReachable node (isFound.inside node inFound))
        (fun node inFound => (searched.meets node inFound).not_src)
        (by simpa using searched.nodup)
      simp only [if_true]
      refine ⟨filled.1, ?_⟩
      intro other inDone otherReducible
      rcases List.mem_cons.mp inDone with rfl | old
      · exact ⟨found, isFound, filled.2⟩
      · have different : other ≠ header := fun equal => notDone (equal ▸ old)
        have grown := Nest.links_grows header found
          ((cfg.backEdgesSrc header).foldl (Nest.claim header) nest)
        rcases claimedBodies other old otherReducible with ⟨others, isOthers, laid⟩
        exact ⟨others, isOthers, laid.mono grown.1 (grown.2 other different)⟩

end Populate

end LeechJit.Analysis
