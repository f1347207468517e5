import LeechJit.Analysis.LoopNest
import LeechJit.Analysis.LoopSearch

/-! # The order of a body

The items of a body stand in the order in which the search met the nodes that
brought them in, and every node of the body is in it or in a loop in it.
-/

namespace LeechJit.Analysis

open LeechJit.Graph
open Nesting (Item)

variable {Node : Type} [DecidableEq Node]

namespace Nest

/-- Loops are only added to. -/
structure Grows (before after : Nest Node) : Prop where
  owner : ∀ node loop, before.owner node = some loop → after.owner node = some loop
  outer : ∀ inner loop, before.outer inner = some loop → after.outer inner = some loop
  items : ∀ loop, (before.items loop).Sublist (after.items loop)

omit [DecidableEq Node] in
theorem Grows.refl (nest : Nest Node) : Grows nest nest :=
  ⟨fun _ _ => id, fun _ _ => id, fun _ => .refl _⟩

omit [DecidableEq Node] in
theorem Grows.trans {before middle after : Nest Node} (first : Grows before middle)
    (second : Grows middle after) : Grows before after where
  owner node loop owned := second.owner node loop (first.owner node loop owned)
  outer inner loop around := second.outer inner loop (first.outer inner loop around)
  items loop := (first.items loop).trans (second.items loop)

theorem claims_grows (header : Node) (nodes : List Node) (nest : Nest Node) :
    Grows nest (nodes.foldl (claim header) nest) where
  owner _ _ owned := claims_owner.mpr (.inl owned)
  outer _ _ around := by
    rw [(claims_items header nodes nest).2]
    exact around
  items loop := by
    rw [(claims_items header nodes nest).1]

theorem items_add (nest : Nest Node) (header : Node) (item : Item Node Node) :
    (nest.add header item).items header = nest.items header ++ [item] := by
  simp [add]

theorem add_sublist (nest : Nest Node) (header : Node) (item : Item Node Node) (loop : Node) :
    (nest.items loop).Sublist ((nest.add header item).items loop) := by
  by_cases same : loop = header
  · subst same
    simp [add]
  · simp [add, same]

theorem link_grows (header : Node) (nest : Nest Node) (node : Node) :
    Grows nest (link header nest node) := by
  cases owned : nest.owner node with
  | none =>
      simp only [link, owned]
      exact ⟨fun _ _ old => (put_owner owned).mpr (.inl old), fun _ _ => id,
        add_sublist (nest.put header node) header (.leaf node)⟩
  | some inner =>
      cases around : nest.outer inner with
      | some loop =>
          simp only [link, owned, around]
          exact .refl nest
      | none =>
          simp only [link, owned, around]
          refine ⟨fun _ _ => id, ?_, add_sublist nest header (.group inner)⟩
          intro other loop old
          have different : other ≠ inner := by
            rintro rfl
            rw [around] at old
            cases old
          exact (Function.update_of_ne different _ _).trans old

/-! ## What stands for a node -/

/-- The item a node brings into a body. -/
def Stands (nest : Nest Node) (item : Item Node Node) (node : Node) : Prop :=
  item = .leaf node ∨ ∃ inner, item = .group inner ∧ nest.owner node = some inner

/-- The search has met the node, and the body of `header` holds it or a loop with it. -/
def Filled (graph : Graph Node) (nest : Nest Node) (header node : Node) : Prop :=
  ∃ inner, nest.owner node = some inner ∧ (.leaf node ∈ nest.items header ∨
    ∃ outer, nest.outer inner = some outer ∧
      (outer = header ∨ graph.finishTime outer < graph.finishTime header))

/-- The body of `header` after the search has met some nodes. -/
structure Laid (graph : Graph Node) (nest : Nest Node) (header : Node) (met : List Node) :
    Prop where
  filled : ∀ node ∈ met, Filled graph nest header node
  placed : ∀ item ∈ nest.items header, ∃ front node back, met = front ++ node :: back ∧
    Stands nest item node ∧ ∀ earlier ∈ front, ∀ other ∈ nest.items header,
      Stands nest other earlier → [other, item].Sublist (nest.items header)

variable {graph : Graph Node} {nest after : Nest Node} {header node : Node} {met : List Node}

omit [DecidableEq Node] in
theorem Stands.mono {item : Item Node Node} (stands : Stands nest item node)
    (grows : Grows nest after) : Stands after item node := by
  rcases stands with isLeaf | ⟨inner, isGroup, owned⟩
  · exact .inl isLeaf
  · exact .inr ⟨inner, isGroup, grows.owner node inner owned⟩

theorem Filled.mono (filled : Filled graph nest header node) (grows : Grows nest after) :
    Filled graph after header node := by
  rcases filled with ⟨inner, owned, held | ⟨outer, around, bound⟩⟩
  · exact ⟨inner, grows.owner node inner owned, .inl ((grows.items header).subset held)⟩
  · exact ⟨inner, grows.owner node inner owned, .inr ⟨outer, grows.outer inner outer around, bound⟩⟩

/-- What stands for a node that was met before does so later. -/
theorem Filled.stands {item : Item Node Node} (filled : Filled graph nest header node)
    (grows : Grows nest after) (stands : Stands after item node) : Stands nest item node := by
  rcases stands with isLeaf | ⟨inner, isGroup, owned⟩
  · exact .inl isLeaf
  · rcases filled with ⟨other, before, -⟩
    rw [grows.owner node other before, Option.some.injEq] at owned
    exact .inr ⟨inner, isGroup, owned ▸ before⟩

namespace Laid

/-- A node that brings in nothing. -/
theorem keep (laid : Laid graph nest header met) (filled : Filled graph nest header node) :
    Laid graph nest header (met ++ [node]) := by
  constructor
  case filled =>
    intro other member
    rcases List.mem_append.mp member with old | isNode
    · exact laid.filled other old
    · exact List.mem_singleton.mp isNode ▸ filled
  case placed =>
    intro item held
    rcases laid.placed item held with ⟨front, first, back, split, stands, order⟩
    exact ⟨front, first, back ++ [node], by simp [split], stands, order⟩

/-- A node that brings in an item of its own. -/
theorem snoc (laid : Laid graph nest header met) (grows : Grows nest after)
    {item : Item Node Node} (items : after.items header = nest.items header ++ [item])
    (stands : Stands after item node) (filled : Filled graph after header node)
    (new : ∀ earlier ∈ met, ¬ Stands after item earlier) :
    Laid graph after header (met ++ [node]) := by
  constructor
  case filled =>
    intro other member
    rcases List.mem_append.mp member with old | isNode
    · exact (laid.filled other old).mono grows
    · exact List.mem_singleton.mp isNode ▸ filled
  case placed =>
    intro held member
    rw [items, List.mem_append, List.mem_singleton] at member
    rcases member with old | rfl
    · rcases laid.placed held old with ⟨front, first, back, split, standsFirst, order⟩
      refine ⟨front, first, back ++ [node], by simp [split], standsFirst.mono grows, ?_⟩
      intro earlier inFront other otherHeld standsEarlier
      have inMet : earlier ∈ met := split ▸ List.mem_append_left _ inFront
      rw [items, List.mem_append, List.mem_singleton] at otherHeld
      rcases otherHeld with otherOld | rfl
      · have before := (laid.filled earlier inMet).stands grows standsEarlier
        exact (order earlier inFront other otherOld before).trans (grows.items header)
      · exact absurd standsEarlier (new earlier inMet)
    · refine ⟨met, node, [], rfl, stands, ?_⟩
      intro earlier inMet other otherHeld standsEarlier
      rw [items] at otherHeld ⊢
      rcases List.mem_append.mp otherHeld with otherOld | isItem
      · exact (List.singleton_sublist.mpr otherOld).append (.refl _)
      · exact absurd (List.mem_singleton.mp isItem ▸ standsEarlier) (new earlier inMet)

/-- Later loops leave the body as it is. -/
theorem mono (laid : Laid graph nest header met) (grows : Grows nest after)
    (items : after.items header = nest.items header) : Laid graph after header met := by
  constructor
  case filled => exact fun node member => (laid.filled node member).mono grows
  case placed =>
    rw [items]
    intro item held
    rcases laid.placed item held with ⟨front, node, back, split, stands, order⟩
    refine ⟨front, node, back, split, stands.mono grows, ?_⟩
    intro earlier inFront other otherHeld standsEarlier
    have inMet : earlier ∈ met := split ▸ List.mem_append_left _ inFront
    exact order earlier inFront other otherHeld
      ((laid.filled earlier inMet).stands grows standsEarlier)

/-- Linking the next node the search finds. -/
theorem link {done : List Node} (laid : Laid graph nest header met)
    (sound : Sound graph done nest) (filling : Filling graph done header)
    (closed : graph.Closed) (apart : graph.LoopsApart) (inLoop : graph.InLoop header node)
    (reachable : graph.Reachable node) (notSrc : node ∉ graph.backEdgesSrc header)
    (notMet : node ∉ met) (fresh : .leaf node ∉ nest.items header) :
    Laid graph (link header nest node) header (met ++ [node]) := by
  have grows := link_grows header nest node
  cases owned : nest.owner node with
  | none =>
      simp only [Nest.link, owned] at grows ⊢
      apply laid.snoc grows (items_add (nest.put header node) header (.leaf node))
      · exact .inl rfl
      · exact ⟨header, (put_owner owned).mpr (.inr ⟨rfl, rfl⟩), .inl (mem_add.mpr (.inr ⟨rfl, rfl⟩))⟩
      · rintro earlier inMet (isLeaf | ⟨inner, isGroup, -⟩)
        · cases isLeaf
          exact notMet inMet
        · cases isGroup
  | some inner =>
      cases around : nest.outer inner with
      | some outer =>
          simp only [Nest.link, owned, around]
          apply laid.keep
          exact ⟨inner, owned, .inr ⟨outer, around,
            filling.earlier outer (sound.group_done inner outer around)⟩⟩
      | none =>
          simp only [Nest.link, owned, around] at grows ⊢
          apply laid.snoc grows (items_add nest header (.group inner))
          · exact .inr ⟨inner, rfl, owned⟩
          · exact ⟨inner, owned, .inr ⟨header, Function.update_self .., .inl rfl⟩⟩
          · rintro earlier inMet (isLeaf | ⟨other, isGroup, otherOwned⟩)
            · cases isLeaf
            · cases isGroup
              -- The loop would have been linked at the earlier node.
              rcases laid.filled earlier inMet with ⟨before, beforeOwned, held | ⟨outer, is, -⟩⟩
              · have isHeader := (sound.leaf_owner earlier header held).symm.trans otherOwned
                exact (sound.owner_inLoop filling closed apart inLoop reachable notSrc fresh
                  owned).ne (Option.some.inj isHeader).symm
              · have same := beforeOwned.symm.trans otherOwned
                rw [Option.some.inj same, around] at is
                cases is

end Laid

/-- Filling the body keeps the nest sound and lays the body out. -/
theorem Sound.links {done nodes : List Node} (sound : Sound graph done nest)
    (laid : Laid graph nest header met) (filling : Filling graph done header)
    (closed : graph.Closed) (apart : graph.LoopsApart)
    (inLoop : ∀ node ∈ nodes, graph.InLoop header node)
    (reachable : ∀ node ∈ nodes, graph.Reachable node)
    (notSrc : ∀ node ∈ nodes, node ∉ graph.backEdgesSrc header) (nodup : (met ++ nodes).Nodup) :
    Sound graph done (nodes.foldl (Nest.link header) nest) ∧
      Laid graph (nodes.foldl (Nest.link header) nest) header (met ++ nodes) := by
  induction nodes generalizing nest met with
  | nil => exact ⟨sound, by simpa using laid⟩
  | cons node rest induction =>
      have first := List.mem_cons_self (a := node) (l := rest)
      have notMet : node ∉ met := by
        intro inMet
        exact (List.nodup_append.mp nodup).2.2 node inMet node first rfl
      have fresh : .leaf node ∉ nest.items header := by
        intro held
        rcases laid.placed _ held with ⟨front, other, back, split, isLeaf | ⟨_, isGroup, _⟩, -⟩
        · cases isLeaf
          exact notMet (split ▸ List.mem_append_right _ (.head _))
        · cases isGroup
      have step := sound.link filling closed apart (inLoop node first) (reachable node first)
        (notSrc node first) fresh
      have step' := laid.link sound filling closed apart (inLoop node first)
        (reachable node first) (notSrc node first) notMet fresh
      have nodup' : (met ++ [node] ++ rest).Nodup := by simpa using nodup
      have later := induction step step' (fun other member => inLoop other (.tail _ member))
        (fun other member => reachable other (.tail _ member))
        (fun other member => notSrc other (.tail _ member)) nodup'
      exact ⟨later.1, by simpa using later.2⟩

/-- Filling one body leaves the others alone. -/
theorem links_grows (header : Node) (nodes : List Node) (nest : Nest Node) :
    Grows nest (nodes.foldl (Nest.link header) nest) ∧
      ∀ other, other ≠ header → (nodes.foldl (Nest.link header) nest).items other =
        nest.items other := by
  induction nodes generalizing nest with
  | nil => exact ⟨.refl nest, fun _ _ => rfl⟩
  | cons node rest induction =>
      have later := induction (Nest.link header nest node)
      refine ⟨(link_grows header nest node).trans later.1, ?_⟩
      intro other different
      rw [List.foldl_cons, later.2 other different]
      cases owned : nest.owner node with
      | none => simp [Nest.link, owned, add, different]
      | some inner =>
          cases around : nest.outer inner with
          | none => simp [Nest.link, owned, around, add, different]
          | some outer => simp [Nest.link, owned, around]

theorem Sound.items_eq_nil {done : List Node} (sound : Sound graph done nest)
    (notDone : header ∉ done) : nest.items header = [] := by
  apply List.eq_nil_iff_forall_not_mem.mpr
  intro item held
  cases item with
  | leaf node => exact notDone (sound.leaf_inLoop node header held).1
  | group inner => exact notDone (sound.group_done inner header ((sound.group_iff _ _).mp held))

omit [DecidableEq Node] in
theorem Laid.start [DecidableEq Node] (empty : nest.items header = []) :
    Laid graph nest header [] where
  filled := by simp
  placed := by simp [empty]

end Nest

/-- The bodies of the reducible loops that have been populated. -/
def Bodies (cfg : Cfg Node) (nest : Nest Node) (done : List Node) : Prop :=
  ∀ header ∈ done, cfg.reducible header = true →
    ∃ found, Found cfg header (cfg.backEdgesSrc header).reverse found ∧
      Nest.Laid cfg.toGraph nest header found

theorem Bodies.mono {cfg : Cfg Node} {nest after : Nest Node} {done : List Node}
    (bodies : Bodies cfg nest done) (grows : Nest.Grows nest after)
    (items : ∀ header ∈ done, after.items header = nest.items header) :
    Bodies cfg after done := by
  intro header member reducible
  rcases bodies header member reducible with ⟨found, isFound, laid⟩
  exact ⟨found, isFound, laid.mono grows (items header member)⟩

end LeechJit.Analysis
