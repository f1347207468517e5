import LeechJit.Analysis.LoopBody

/-! # What populating a loop does

A node belongs to the first loop that takes it, and a loop gets the first loop around
it whose search meets one of its nodes. This is so in every graph.
-/

namespace LeechJit.Analysis

open LeechJit.Graph
open Nesting (Item)

variable {Node : Type} [DecidableEq Node]

namespace Nest

variable {graph : Graph Node} {done : List Node} {nest : Nest Node} {header : Node}

/-! ## One link -/

theorem link_owner_eq (nest : Nest Node) (header node : Node) :
    (link header nest node).owner = (claim header nest node).owner := by
  cases owned : nest.owner node with
  | none => simp [link, claim, owned]
  | some inner => cases around : nest.outer inner <;> simp [link, claim, owned, around]

theorem link_outer {node inner loop : Node} :
    (link header nest node).outer inner = some loop ↔ nest.outer inner = some loop ∨
      nest.outer inner = none ∧ nest.owner node = some inner ∧ header = loop := by
  cases owned : nest.owner node with
  | none => simp [link, owned]
  | some other =>
      cases around : nest.outer other with
      | some loop' =>
          simp only [link, owned, around, Option.some.injEq]
          constructor
          · exact .inl
          · rintro (old | ⟨free, rfl, -⟩)
            · exact old
            · rw [around] at free
              cases free
      | none =>
          simp only [link, owned, around, Option.some.injEq]
          by_cases same : inner = other
          · subst same
            simp [around]
          · simp [same, Ne.symm same]

theorem leaf_mem_link {node key loop : Node} :
    .leaf key ∈ (link header nest node).items loop ↔ .leaf key ∈ nest.items loop ∨
      nest.owner node = none ∧ loop = header ∧ key = node := by
  cases owned : nest.owner node with
  | none => simp [link, owned, mem_add]
  | some other =>
      cases around : nest.outer other with
      | some loop' => simp [link, owned, around]
      | none =>
          have added := @mem_add _ _ nest header loop (.group other) (.leaf key)
          simpa [link, owned, around] using added

theorem group_mem_link {node inner loop : Node} :
    .group inner ∈ (link header nest node).items loop ↔ .group inner ∈ nest.items loop ∨
      nest.outer inner = none ∧ nest.owner node = some inner ∧ loop = header := by
  cases owned : nest.owner node with
  | none => simp [link, owned, mem_add]
  | some other =>
      cases around : nest.outer other with
      | some loop' =>
          simp only [link, owned, around, Option.some.injEq]
          constructor
          · exact .inl
          · rintro (old | ⟨free, rfl, -⟩)
            · exact old
            · rw [around] at free
              cases free
      | none =>
          have added := @mem_add _ _ nest header loop (.group other) (.group inner)
          simp only [link, owned, around, Option.some.injEq]
          refine added.trans (or_congr_right ?_)
          constructor
          · rintro ⟨isHeader, same⟩
            cases same
            exact ⟨around, rfl, isHeader⟩
          · rintro ⟨-, rfl, isHeader⟩
            exact ⟨isHeader, rfl⟩

/-! ## All links of a search -/

theorem links_owner {nodes : List Node} {other loop : Node} :
    (nodes.foldl (link header) nest).owner other = some loop ↔
      nest.owner other = some loop ∨
        nest.owner other = none ∧ other ∈ nodes ∧ header = loop := by
  rw [← claims_owner]
  have same : ∀ left right : Nest Node, left.owner = right.owner →
      (nodes.foldl (link header) left).owner = (nodes.foldl (claim header) right).owner := by
    induction nodes with
    | nil => exact fun _ _ equal => equal
    | cons node rest induction =>
        intro left right equal
        apply induction
        funext key
        apply Option.ext
        intro owner
        rw [link_owner_eq, claim_owner, claim_owner, equal]
  rw [same nest nest rfl]

theorem owner_link_of_ne {node other : Node} (different : other ≠ node) :
    (link header nest node).owner other = nest.owner other := by
  rw [link_owner_eq]
  apply Option.ext
  intro loop
  rw [claim_owner]
  exact or_iff_left fun both => different both.2.1

theorem links_outer {nodes : List Node} (nodup : nodes.Nodup) {inner loop : Node} :
    (nodes.foldl (link header) nest).outer inner = some loop ↔
      nest.outer inner = some loop ∨ nest.outer inner = none ∧
        (∃ node ∈ nodes, nest.owner node = some inner) ∧ header = loop := by
  induction nodes generalizing nest with
  | nil => simp
  | cons node rest induction =>
      rw [List.nodup_cons] at nodup
      have free : (link header nest node).outer inner = none ↔
          nest.outer inner = none ∧ nest.owner node ≠ some inner := by
        rw [Option.eq_none_iff_forall_ne_some]
        simp only [ne_eq, link_outer, not_or, not_and]
        constructor
        · intro never
          have around := Option.eq_none_iff_forall_ne_some.mpr fun loop => (never loop).1
          exact ⟨around, fun owned => (never header).2 around owned rfl⟩
        · rintro ⟨around, notOwned⟩ loop
          exact ⟨by simp [around], fun _ owned => absurd owned notOwned⟩
      have later : (∃ other ∈ rest, (link header nest node).owner other = some inner) ↔
          ∃ other ∈ rest, nest.owner other = some inner := by
        apply exists_congr
        intro other
        apply and_congr_right
        intro inRest
        have different : other ≠ node := by
          rintro rfl
          exact nodup.1 inRest
        rw [owner_link_of_ne different]
      rw [List.foldl_cons, induction nodup.2, link_outer, free, later, List.exists_mem_cons_iff]
      tauto

theorem leaf_mem_links {nodes : List Node} {key loop : Node} :
    .leaf key ∈ (nodes.foldl (link header) nest).items loop ↔ .leaf key ∈ nest.items loop ∨
      nest.owner key = none ∧ loop = header ∧ key ∈ nodes := by
  induction nodes generalizing nest with
  | nil => simp
  | cons node rest induction =>
      rw [List.foldl_cons, induction, leaf_mem_link, List.mem_cons]
      by_cases same : key = node
      · subst same
        have owned : (link header nest key).owner key ≠ none := by
          rw [link_owner_eq, ne_eq, claim_owner_none]
          exact fun both => both.2 rfl
        simp [owned]
      · rw [owner_link_of_ne same]
        simp [same]

/-! ## Populating a loop -/

/-- Populating the loop of `header`, where the search finds `found`. -/
def populate (graph : Graph Node) (header : Node) (found : List Node) (nest : Nest Node) :
    Nest Node :=
  let claimed := (graph.backEdgesSrc header).foldl (claim header) nest
  if graph.reducible header then found.foldl (link header) claimed else claimed

/-- The loop of `header` takes `node`. -/
def Takes (graph : Graph Node) (header : Node) (found : List Node) (node : Node) : Prop :=
  node ∈ graph.backEdgesSrc header ∨ graph.reducible header = true ∧ node ∈ found

section Effects

variable {found : List Node}

theorem populate_owner {node loop : Node} :
    (nest.populate graph header found).owner node = some loop ↔
      nest.owner node = some loop ∨
        nest.owner node = none ∧ Takes graph header found node ∧ header = loop := by
  rw [populate, Takes]
  cases reducible : graph.reducible header with
  | false => simp [claims_owner]
  | true =>
      simp only [if_true, links_owner, claims_owner, claims_owner_none, true_and]
      tauto

/-- The owners `populate` looks at are those from before. -/
theorem claims_owner_of_not_src {node : Node} (notSrc : node ∉ graph.backEdgesSrc header) :
    ((graph.backEdgesSrc header).foldl (claim header) nest).owner node = nest.owner node := by
  apply Option.ext
  intro loop
  rw [claims_owner]
  exact or_iff_left fun both => notSrc both.2.1

theorem populate_outer (nodup : found.Nodup) (notSrc : ∀ node ∈ found, node ∉ graph.backEdgesSrc header)
    {inner loop : Node} :
    (nest.populate graph header found).outer inner = some loop ↔
      nest.outer inner = some loop ∨ nest.outer inner = none ∧
        (graph.reducible header = true ∧ ∃ node ∈ found, nest.owner node = some inner) ∧
          header = loop := by
  have kept := (claims_items header (graph.backEdgesSrc header) nest).2
  rw [populate]
  cases reducible : graph.reducible header with
  | false => simp [kept]
  | true =>
      have same : (∃ node ∈ found, ((graph.backEdgesSrc header).foldl (claim header) nest).owner
          node = some inner) ↔ ∃ node ∈ found, nest.owner node = some inner := by
        apply exists_congr
        intro node
        apply and_congr_right
        intro inFound
        rw [claims_owner_of_not_src (notSrc node inFound)]
      simp only [if_true, links_outer nodup, kept, same, true_and]

theorem leaf_mem_populate (notSrc : ∀ node ∈ found, node ∉ graph.backEdgesSrc header)
    {key loop : Node} :
    .leaf key ∈ (nest.populate graph header found).items loop ↔ .leaf key ∈ nest.items loop ∨
      nest.owner key = none ∧ loop = header ∧ graph.reducible header = true ∧ key ∈ found := by
  have kept := (claims_items header (graph.backEdgesSrc header) nest).1
  rw [populate]
  cases reducible : graph.reducible header with
  | false => simp [kept]
  | true =>
      simp only [if_true, leaf_mem_links, kept, true_and]
      apply or_congr_right
      constructor
      · rintro ⟨free, isHeader, inFound⟩
        rw [claims_owner_of_not_src (notSrc key inFound)] at free
        exact ⟨free, isHeader, inFound⟩
      · rintro ⟨free, isHeader, inFound⟩
        rw [claims_owner_of_not_src (notSrc key inFound)]
        exact ⟨free, isHeader, inFound⟩

end Effects

/-! ## What holds of the nest in every graph -/

/-- `done` are the headers whose loops have been populated. -/
structure Plain (graph : Graph Node) (done : List Node) (nest : Nest Node) : Prop where
  own : ∀ node, graph.IsHeader node → nest.owner node = some node
  owner : ∀ node loop, nest.owner node = some loop →
    graph.IsHeader loop ∧ node ∈ graph.nodes ∧ (node = loop ∨ loop ∈ done)
  outer : ∀ inner loop, nest.outer inner = some loop →
    graph.IsHeader inner ∧ graph.IsHeader loop ∧ loop ∈ done
  leaf_owner : ∀ node loop, .leaf node ∈ nest.items loop → nest.owner node = some loop
  group_iff : ∀ inner loop, .group inner ∈ nest.items loop ↔ nest.outer inner = some loop
  nodup : ∀ loop, (nest.items loop).Nodup

namespace Plain

theorem start (closed : graph.Closed) : Plain graph [] (Nest.start graph) where
  own node isHeader := by simp [Nest.start, isHeader]
  owner node loop owned := by
    by_cases isHeader : graph.IsHeader node
    · simp only [Nest.start, isHeader, if_true, Option.some.injEq] at owned
      subst owned
      exact ⟨isHeader, closed.mem_of_reachable (isHeader_reachable isHeader), .inl rfl⟩
    · simp [Nest.start, isHeader] at owned
  outer := by simp [Nest.start]
  leaf_owner := by simp [Nest.start]
  group_iff := by simp [Nest.start]
  nodup := by simp [Nest.start]

theorem link (plain : Plain graph done nest) {node : Node} (isDone : header ∈ done)
    (isHeader : graph.IsHeader header) (inside : node ∈ graph.nodes) :
    Plain graph done (Nest.link header nest node) := by
  have owners : ∀ key loop, (Nest.link header nest node).owner key = some loop ↔
      nest.owner key = some loop ∨ nest.owner key = none ∧ key = node ∧ header = loop := by
    intro key loop
    rw [link_owner_eq, claim_owner]
  constructor
  case own => exact fun key keyHeader => (owners key key).mpr (.inl (plain.own key keyHeader))
  case owner =>
    intro key loop owned
    rcases (owners key loop).mp owned with old | ⟨-, rfl, rfl⟩
    · exact plain.owner key loop old
    · exact ⟨isHeader, inside, .inr isDone⟩
  case outer =>
    intro inner loop around
    rcases link_outer.mp around with old | ⟨-, owned, rfl⟩
    · exact plain.outer inner loop old
    · exact ⟨(plain.owner node inner owned).1, isHeader, isDone⟩
  case leaf_owner =>
    intro key loop held
    rcases leaf_mem_link.mp held with old | ⟨free, rfl, rfl⟩
    · exact (owners key loop).mpr (.inl (plain.leaf_owner key loop old))
    · exact (owners key loop).mpr (.inr ⟨free, rfl, rfl⟩)
  case group_iff =>
    intro inner loop
    rw [group_mem_link, link_outer, plain.group_iff, eq_comm (a := loop)]
  case nodup =>
    cases owned : nest.owner node with
    | none =>
        simp only [Nest.link, owned]
        apply add_nodup plain.nodup
        intro held
        rw [plain.leaf_owner node header held] at owned
        cases owned
    | some inner =>
        cases around : nest.outer inner with
        | some loop =>
            simp only [Nest.link, owned, around]
            exact plain.nodup
        | none =>
            simp only [Nest.link, owned, around]
            apply add_nodup plain.nodup
            intro held
            rw [(plain.group_iff inner header).mp held] at around
            cases around

theorem claims (plain : Plain graph done nest) (isHeader : graph.IsHeader header)
    (closed : graph.Closed) :
    Plain graph (done ++ [header]) ((graph.backEdgesSrc header).foldl (claim header) nest) := by
  have kept := claims_items header (graph.backEdgesSrc header) nest
  constructor
  case own => exact fun node isNode => claims_owner.mpr (.inl (plain.own node isNode))
  case owner =>
    intro node loop owned
    rcases claims_owner.mp owned with old | ⟨-, isSrc, rfl⟩
    · have before := plain.owner node loop old
      exact ⟨before.1, before.2.1, before.2.2.imp_right (List.mem_append_left _)⟩
    · have reachable := backEdge_reachable (mem_backEdgesSrc.mp isSrc)
      exact ⟨isHeader, closed.mem_of_reachable reachable, .inr (by simp)⟩
  case outer =>
    rw [kept.2]
    intro inner loop around
    have before := plain.outer inner loop around
    exact ⟨before.1, before.2.1, List.mem_append_left _ before.2.2⟩
  case leaf_owner =>
    rw [kept.1]
    exact fun node loop held => claims_owner.mpr (.inl (plain.leaf_owner node loop held))
  case group_iff =>
    rw [kept.1, kept.2]
    exact plain.group_iff
  case nodup =>
    rw [kept.1]
    exact plain.nodup

theorem populate (plain : Plain graph done nest) (isHeader : graph.IsHeader header)
    (closed : graph.Closed) {found : List Node} (inside : ∀ node ∈ found, node ∈ graph.nodes) :
    Plain graph (done ++ [header]) (nest.populate graph header found) := by
  have claimed := plain.claims isHeader closed
  rw [Nest.populate]
  cases graph.reducible header with
  | false => exact claimed
  | true =>
      simp only [if_true]
      revert claimed
      generalize (graph.backEdgesSrc header).foldl (claim header) nest = before
      intro claimed
      induction found generalizing before with
      | nil => exact claimed
      | cons node rest induction =>
          apply induction (fun other inRest => inside other (.tail _ inRest))
          exact claimed.link (by simp) isHeader (inside node (.head _))

end Plain

end Nest

end LeechJit.Analysis
