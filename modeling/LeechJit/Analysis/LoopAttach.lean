import LeechJit.Analysis.LoopAcyclic
import LeechJit.Graph.LoopTree

/-! # Which loop gets what

The nest the constructor ends with, read off the graph: every node is in the loop of the
first header to claim it, and every loop in the first loop that meets a node of it. This
is so in every graph.
-/

namespace LeechJit.Graph

variable {Node : Type} [DecidableEq Node]

/-- Populating the loop of `header` comes across `node`. -/
def Claims (graph : Graph Node) (header node : Node) : Prop :=
  node ∈ graph.backEdgesSrc header ∨
    graph.reducible header = true ∧ node ∈ graph.nodes ∧ graph.Meets header node

/-- `node` is put in the loop of `header`. -/
def Owns (graph : Graph Node) (header node : Node) : Prop :=
  graph.IsHeader header ∧ (node = header ∨ ¬ graph.IsHeader node ∧ graph.Claims header node ∧
    ∀ other, graph.Claims other node → graph.finishTime header ≤ graph.finishTime other)

/-- The search of `outer` meets a node of the loop of `inner`. -/
def Links (graph : Graph Node) (outer inner : Node) : Prop :=
  inner ≠ outer ∧ graph.reducible outer = true ∧
    ∃ node ∈ graph.nodes, graph.Meets outer node ∧ graph.Owns inner node

/-- `outer` is the first to take the loop of `inner` in. -/
def Surrounds (graph : Graph Node) (outer inner : Node) : Prop :=
  graph.Links outer inner ∧
    ∀ other, graph.Links other inner → graph.finishTime outer ≤ graph.finishTime other

variable {graph : Graph Node} {header node inner outer : Node}

theorem Claims.isHeader (claims : graph.Claims header node) : graph.IsHeader header := by
  rcases claims with isSrc | ⟨-, -, meets⟩
  · exact List.ne_nil_of_mem isSrc
  · exact meets.isHeader

theorem Links.isInner (links : graph.Links outer inner) : graph.IsHeader inner := by
  rcases links with ⟨-, -, _, _, _, owns⟩
  exact owns.1

theorem Links.isHeader (links : graph.Links outer inner) : graph.IsHeader outer :=
  isHeader_of_reducible links.2.1

/-- A node that is claimed is put in a loop. -/
theorem Claims.exists_owns (claims : graph.Claims header node) (free : ¬ graph.IsHeader node) :
    ∃ first, graph.Owns first node ∧ graph.Claims first node ∧
      graph.finishTime first ≤ graph.finishTime header := by
  rcases @exists_first _ _ graph _ (fun loop => graph.Claims loop node) claims with
    ⟨first, isClaim, least⟩
  exact ⟨first, ⟨isClaim.isHeader, .inr ⟨free, isClaim, least⟩⟩, isClaim, least header claims⟩

theorem Links.exists_surrounds (links : graph.Links outer inner) :
    ∃ first, graph.Surrounds first inner ∧ graph.finishTime first ≤ graph.finishTime outer := by
  rcases @exists_first _ _ graph _ (fun loop => graph.Links loop inner) links with
    ⟨first, isLink, least⟩
  exact ⟨first, ⟨isLink, least⟩, least outer links⟩

end LeechJit.Graph

namespace LeechJit.Analysis

open LeechJit.Graph
open Nesting (Item)

variable {Node : Type} [DecidableEq Node] {cfg : Cfg Node}

/-- The nest when the loops of `done` have been populated. -/
structure Attached (cfg : Cfg Node) (done : List Node) (nest : Nest Node) : Prop where
  owner_iff : ∀ node loop, nest.owner node = some loop ↔
    cfg.Owns loop node ∧ (node = loop ∨ loop ∈ done)
  outer_iff : ∀ inner loop, nest.outer inner = some loop ↔
    cfg.Surrounds loop inner ∧ loop ∈ done
  leaf_iff : ∀ node loop, .leaf node ∈ nest.items loop ↔
    cfg.Owns loop node ∧ loop ∈ done ∧ node ≠ loop ∧ node ∉ cfg.backEdgesSrc loop

namespace Attached

theorem start (cfg : Cfg Node) : Attached cfg [] (Nest.start cfg.toGraph) where
  owner_iff node loop := by
    by_cases isHeader : cfg.IsHeader node
    · simp only [Nest.start, isHeader, if_true, Option.some.injEq]
      constructor
      · rintro rfl
        exact ⟨⟨isHeader, .inl rfl⟩, .inl rfl⟩
      · rintro ⟨-, same | inNone⟩
        · exact same
        · cases inNone
    · simp only [Nest.start, isHeader, if_false, reduceCtorEq, false_iff]
      rintro ⟨owns, rfl | inNone⟩
      · exact isHeader owns.1
      · cases inNone
  outer_iff := by simp [Nest.start]
  leaf_iff := by simp [Nest.start]

variable {front : List Node} {nest : Nest Node} {header : Node}

section Step

variable (attached : Attached cfg front nest) (isHeader : cfg.IsHeader header)
  (earlier : ∀ loop ∈ front, cfg.finishTime loop < cfg.finishTime header)
  (all : ∀ loop, cfg.IsHeader loop → cfg.finishTime loop < cfg.finishTime header → loop ∈ front)

include attached earlier all

/-- A node is free for `header` to claim when no loop before did. -/
theorem free_iff (notHeader : ¬ cfg.IsHeader node) :
    nest.owner node = none ↔ ∀ loop, cfg.Claims loop node →
      cfg.finishTime header ≤ cfg.finishTime loop := by
  rw [Option.eq_none_iff_forall_ne_some]
  constructor
  · intro never loop claims
    by_contra before
    rcases claims.exists_owns notHeader with ⟨first, owns, isClaim, least⟩
    have inFront := all first isClaim.isHeader (by omega)
    exact never first ((attached.owner_iff node first).mpr ⟨owns, .inr inFront⟩)
  · intro least loop owned
    rcases (attached.owner_iff node loop).mp owned with ⟨⟨loopHeader, same | ⟨-, claims, -⟩⟩, done⟩
    · exact notHeader (same ▸ loopHeader)
    · rcases done with same | inFront
      · exact notHeader (same ▸ loopHeader)
      · have less := earlier loop inFront
        have above := least loop claims
        omega

theorem owner_header (isHeader : cfg.IsHeader header) {found : List Node}
    (searched : Searched cfg header [] found) (node : Node) :
    nest.owner node = none ∧ Nest.Takes cfg.toGraph header found node ↔
      cfg.Owns header node ∧ node ≠ header := by
  have taken : Nest.Takes cfg.toGraph header found node ↔ cfg.Claims header node := by
    rw [Nest.Takes, Claims, searched.mem_iff]
  rw [taken]
  constructor
  · rintro ⟨free, claims⟩
    have notHeader : ¬ cfg.IsHeader node := by
      intro nodeHeader
      rw [(attached.owner_iff node node).mpr ⟨⟨nodeHeader, .inl rfl⟩, .inl rfl⟩] at free
      cases free
    have least := (attached.free_iff earlier all notHeader).mp free
    exact ⟨⟨isHeader, .inr ⟨notHeader, claims, least⟩⟩, fun same => notHeader (same ▸ isHeader)⟩
  · rintro ⟨⟨-, same | ⟨notHeader, claims, least⟩⟩, different⟩
    · exact absurd same different
    · exact ⟨(attached.free_iff earlier all notHeader).mpr least, claims⟩

/-- A loop is free for `header` to take in when no loop before did. -/
theorem outer_free_iff (inner : Node) :
    nest.outer inner = none ↔ ∀ loop, cfg.Links loop inner →
      cfg.finishTime header ≤ cfg.finishTime loop := by
  rw [Option.eq_none_iff_forall_ne_some]
  constructor
  · intro never loop links
    by_contra before
    rcases links.exists_surrounds with ⟨first, surrounds, least⟩
    have inFront := all first surrounds.1.isHeader (by omega)
    exact never first ((attached.outer_iff inner first).mpr ⟨surrounds, inFront⟩)
  · intro least loop around
    rcases (attached.outer_iff inner loop).mp around with ⟨surrounds, inFront⟩
    have less := earlier loop inFront
    have above := least loop surrounds.1
    omega

/-- The loops with a node in them that the search finds. -/
theorem links_iff {found : List Node} (searched : Searched cfg header [] found) (inner : Node) :
    (cfg.reducible header = true ∧ ∃ node ∈ found, nest.owner node = some inner) ↔
      cfg.Links header inner := by
  constructor
  · rintro ⟨reducible, node, inFound, owned⟩
    rcases searched.mem_iff.mp inFound with ⟨inside, meets⟩
    rcases (attached.owner_iff node inner).mp owned with ⟨owns, done⟩
    refine ⟨?_, reducible, node, inside, meets, owns⟩
    rintro rfl
    rcases done with same | inFront
    · exact meets.ne same
    · exact Nat.lt_irrefl _ (earlier inner inFront)
  · rintro ⟨different, reducible, node, inside, meets, owns⟩
    refine ⟨reducible, node, searched.mem_iff.mpr ⟨inside, meets⟩, ?_⟩
    apply (attached.owner_iff node inner).mpr
    refine ⟨owns, ?_⟩
    rcases owns with ⟨innerHeader, same | ⟨-, -, least⟩⟩
    · exact .inl same
    · have below := least header (.inr ⟨reducible, inside, meets⟩)
      have unequal : cfg.finishTime inner ≠ cfg.finishTime header := fun same =>
        different (finishTime_inj cfg.closed (isHeader_reachable innerHeader) same)
      exact .inr (all inner innerHeader (by omega))

end Step

theorem keeps (cfg : Cfg Node) : Keeps cfg (Attached cfg) := by
  intro front header found nest isHeader earlier all searched _ attached
  have notSrc : ∀ node ∈ found, node ∉ cfg.backEdgesSrc header :=
    fun node inFound => (searched.meets node inFound).not_src
  constructor
  case owner_iff =>
    intro node loop
    rw [Nest.populate_owner, ← and_assoc, attached.owner_header earlier all isHeader searched,
      attached.owner_iff, List.mem_append, List.mem_singleton]
    constructor
    · rintro (⟨owns, same | inFront⟩ | ⟨⟨owns, -⟩, rfl⟩)
      · exact ⟨owns, .inl same⟩
      · exact ⟨owns, .inr (.inl inFront)⟩
      · exact ⟨owns, .inr (.inr rfl)⟩
    · rintro ⟨owns, same | inFront | rfl⟩
      · exact .inl ⟨owns, .inl same⟩
      · exact .inl ⟨owns, .inr inFront⟩
      · by_cases same : node = loop
        · exact .inl ⟨owns, .inl same⟩
        · exact .inr ⟨⟨owns, same⟩, rfl⟩
  case outer_iff =>
    intro inner loop
    rw [Nest.populate_outer (by simpa using searched.nodup) notSrc,
      attached.links_iff earlier all searched, attached.outer_free_iff earlier all,
      attached.outer_iff, List.mem_append, List.mem_singleton]
    constructor
    · rintro (⟨surrounds, inFront⟩ | ⟨least, links, rfl⟩)
      · exact ⟨surrounds, .inl inFront⟩
      · exact ⟨⟨links, least⟩, .inr rfl⟩
    · rintro ⟨surrounds, inFront | rfl⟩
      · exact .inl ⟨surrounds, inFront⟩
      · exact .inr ⟨surrounds.2, surrounds.1, rfl⟩
  case leaf_iff =>
    intro node loop
    rw [Nest.leaf_mem_populate notSrc, attached.leaf_iff, List.mem_append, List.mem_singleton]
    have owned := attached.owner_header earlier all isHeader searched node
    constructor
    · rintro (⟨owns, inFront, different, plain⟩ | ⟨free, rfl, reducible, inFound⟩)
      · exact ⟨owns, .inl inFront, different, plain⟩
      · have taken := owned.mp ⟨free, .inr ⟨reducible, inFound⟩⟩
        exact ⟨taken.1, .inr rfl, taken.2, notSrc node inFound⟩
    · rintro ⟨owns, inFront | rfl, different, plain⟩
      · exact .inl ⟨owns, inFront, different, plain⟩
      · rcases owned.mpr ⟨owns, different⟩ with ⟨free, isSrc | inFound⟩
        · exact absurd isSrc plain
        · exact .inr ⟨free, rfl, inFound⟩

end Attached

/-! ## The nest at the end -/

/-- What the loops of the constructor are made of. -/
structure Settled (cfg : Cfg Node) (heads done : List Node) (nest : Nest Node)
    (loops : LoopAnalyzer Node) (root : Option LoopId) : Prop where
  finished : Finished cfg.toGraph heads nest loops root
  plain : Nest.Plain cfg.toGraph done nest
  owner_iff : ∀ node loop, nest.owner node = some loop ↔ cfg.Owns loop node
  outer_iff : ∀ inner loop, nest.outer inner = some loop ↔ cfg.Surrounds loop inner
  leaf_iff : ∀ node loop, .leaf node ∈ nest.items loop ↔
    cfg.Owns loop node ∧ node ≠ loop ∧ node ∉ cfg.backEdgesSrc loop

/-- When all loops have been populated. -/
theorem Attached.settled {loops : LoopAnalyzer Node} {root : Option LoopId}
    {heads done : List Node} {nest : Nest Node} (attached : Attached cfg done nest)
    (finished : Finished cfg.toGraph heads nest loops root)
    (plain : Nest.Plain cfg.toGraph done nest)
    (isDone : ∀ node, node ∈ done ↔ cfg.IsHeader node) :
    Settled cfg heads done nest loops root := by
  constructor
  case finished => exact finished
  case plain => exact plain
  case owner_iff =>
    intro node loop
    rw [attached.owner_iff]
    exact and_iff_left_of_imp fun owns => .inr ((isDone loop).mpr owns.1)
  case outer_iff =>
    intro inner loop
    rw [attached.outer_iff]
    exact and_iff_left_of_imp fun surrounds => (isDone loop).mpr surrounds.1.isHeader
  case leaf_iff =>
    intro node loop
    rw [attached.leaf_iff]
    apply and_congr_right
    intro owns
    exact and_iff_right ((isDone loop).mpr owns.1)

theorem make_settled (cfg : Cfg Node) :
    ∃ loops root heads nest done, LoopAnalyzer.make cfg.toGraph = .ok loops ∧
      Settled cfg heads done nest loops root := by
  rcases make_keeps cfg _ (Attached.keeps cfg) (.start cfg) with
    ⟨loops, root, heads, nest, done, made, finished, isDone, plain, attached⟩
  exact ⟨loops, root, heads, nest, done, made, attached.settled finished plain isDone⟩

end LeechJit.Analysis
