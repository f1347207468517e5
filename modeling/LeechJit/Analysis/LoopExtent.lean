import LeechJit.Analysis.LoopAttach

/-! # When the loops are the natural loops

What the constructor puts in a loop, loops inside included, against the natural loop of
its header.
-/

namespace LeechJit.Graph

open Dominance

variable {Node : Type} [DecidableEq Node]

/-- A node of a loop, or of a loop the constructor puts inside it. -/
inductive Gathers (graph : Graph Node) : Node → Node → Prop where
  | src {header node : Node} (isSrc : node ∈ graph.backEdgesSrc header) : Gathers graph header node
  | owned {header node : Node} (owns : graph.Owns header node) : Gathers graph header node
  | inner {header inner node : Node} (surrounds : graph.Surrounds header inner)
      (gathers : Gathers graph inner node) : Gathers graph header node

/-- The constructor gets the loops right. -/
structure LoopsRight (graph : Graph Node) : Prop where
  gathers_iff : ∀ header, graph.IsHeader header → ∀ node ∈ graph.nodes,
    (graph.Gathers header node ↔ graph.Contains header node)
  owns_iff : ∀ node ∈ graph.nodes, ∀ header,
    (graph.Owns header node ↔ graph.Innermost header node)
  surrounds_iff : ∀ inner, graph.IsHeader inner → ∀ outer,
    (graph.Surrounds outer inner ↔ graph.Around inner outer)

/-- What a loop needs for the search to fill it, and no more than it. -/
structure LoopsFilled (graph : Graph Node) : Prop where
  /-- A loop that is not called reducible has nothing to search for. -/
  unflagged : ∀ header, graph.IsHeader header → graph.reducible header = false →
    ∀ node ∈ graph.nodes, graph.InLoop header node → node ∈ graph.backEdgesSrc header
  /-- The search does not go on at the header, or there is nothing before it. -/
  selfLoop : ∀ header, graph.reducible header = true → header ∈ graph.backEdgesSrc header →
    header = graph.entryPoint
  /-- A loop around another searches, and can meet one of its nodes. -/
  linked : ∀ inner outer, graph.IsHeader inner → graph.Around inner outer →
    graph.reducible outer = true ∧
      ∃ node ∈ graph.nodes, graph.Innermost inner node ∧ node ∉ graph.backEdgesSrc outer

variable {graph : Graph Node} {header node inner outer : Node}

/-- All edges to the entry are back edges. -/
theorem entry_src (closed : graph.Closed) (reachable : graph.Reachable node)
    (edge : graph.Edge node graph.entryPoint) : node ∈ graph.backEdgesSrc graph.entryPoint := by
  rw [mem_backEdgesSrc]
  rcases edge_settled closed reachable edge with isBack | earlier
  · exact isBack
  · by_cases same : graph.entryPoint = node
    · rw [← same] at earlier
      exact absurd earlier (Nat.lt_irrefl _)
    · have later := finishTime_lt_of_dominates closed reachable (dominates_entry node) same
      omega

/-- A node other than the entry is entered from where it does not dominate. -/
theorem exists_entering (reachable : graph.Reachable node) (different : node ≠ graph.entryPoint) :
    ∃ pred, graph.Reachable pred ∧ graph.Edge pred node ∧ ¬ graph.Dominates node pred := by
  have onWay : ∀ last, graph.Reachable last →
      (∃ pred, graph.Reachable pred ∧ graph.Edge pred node ∧ ¬ graph.Dominates node pred) ∨
        ¬ graph.Dominates node last := by
    intro last isLast
    induction isLast with
    | refl =>
        right
        intro dominates
        have member := dominates [graph.entryPoint] (.here _)
        exact different (List.mem_singleton.mp member)
    | @tail middle last toMiddle edge induction =>
        rcases induction with found | avoided
        · exact .inl found
        · by_cases same : last = node
          · exact .inl ⟨middle, toMiddle, same ▸ edge, avoided⟩
          · right
            intro dominates
            exact avoided (Dominance.Dominates.of_edge dominates (Ne.symm same) edge)
  exact (onWay node reachable).resolve_right fun never => never (Dominates.refl node)

section Exact

variable {cfg : Cfg Node} (dominated : cfg.BackEdgesDominated)

/-! ## The loops are right when they are filled -/

namespace LoopsFilled

variable (filled : cfg.LoopsFilled)

include filled

theorem inLoop_of_meets (reducible : cfg.reducible header = true) (inside : node ∈ cfg.nodes)
    (meets : cfg.Meets header node) : cfg.InLoop header node := by
  by_cases isLatch : header ∈ cfg.backEdgesSrc header
  · have isEntry := filled.selfLoop header reducible isLatch
    induction meets with
    | @ofSrc node src isSrc edge notHeader notSrc =>
        by_cases same : src = header
        · rw [same, isEntry] at edge
          rw [isEntry] at notSrc
          exact absurd (entry_src cfg.closed (cfg.allReachable node inside) edge) notSrc
        · exact (inLoop_of_src isSrc same).pred edge notHeader
    | ofMet met edge notHeader _ induction =>
        exact (induction (cfg.closed.succs_mem _ inside _ edge)).pred edge notHeader
  · exact meets.inLoop isLatch

theorem claims_iff (isHeader : cfg.IsHeader header) (inside : node ∈ cfg.nodes)
    (different : node ≠ header) : cfg.Claims header node ↔ cfg.InLoop header node := by
  constructor
  · rintro (isSrc | ⟨reducible, -, meets⟩)
    · exact inLoop_of_src isSrc different
    · exact filled.inLoop_of_meets reducible inside meets
  · intro inLoop
    cases reducible : cfg.reducible header with
    | false => exact .inl (filled.unflagged header isHeader reducible node inside inLoop)
    | true => exact inLoop.meets.imp_right fun meets => ⟨reducible, inside, meets⟩

include dominated

theorem owns_iff (inside : node ∈ cfg.nodes) :
    cfg.Owns header node ↔ cfg.Innermost header node := by
  have reachable := cfg.allReachable node inside
  rw [dominated.innermost_iff cfg.closed reachable, Owns]
  apply and_congr_right
  intro isHeader
  constructor
  · rintro (rfl | ⟨free, claims, least⟩)
    · refine ⟨.inl rfl, fun other _ contains => ?_⟩
      exact dominated.finishTime_le cfg.closed contains reachable
    · have different : ∀ other, cfg.IsHeader other → node ≠ other := by
        rintro other otherHeader rfl
        exact free otherHeader
      refine ⟨.inr ((filled.claims_iff isHeader inside (different header isHeader)).mp claims), ?_⟩
      intro other otherHeader contains
      apply least
      have inOther := contains.resolve_left (different other otherHeader)
      exact (filled.claims_iff otherHeader inside (different other otherHeader)).mpr inOther
  · rintro ⟨rfl | inLoop, first⟩
    · exact .inl rfl
    · right
      have free : ¬ cfg.IsHeader node := by
        intro nodeHeader
        have before := dominated.finishTime_lt cfg.closed inLoop reachable
        have after := first node nodeHeader (.inl rfl)
        omega
      refine ⟨free, (filled.claims_iff isHeader inside inLoop.ne).mpr inLoop, ?_⟩
      intro other claims
      have different : node ≠ other := by
        rintro rfl
        exact free claims.isHeader
      exact first other claims.isHeader
        (.inr ((filled.claims_iff claims.isHeader inside different).mp claims))

theorem inLoop_of_links (links : cfg.Links outer inner) : cfg.InLoop outer inner := by
  rcases links with ⟨different, reducible, node, inside, meets, owns⟩
  have reachable := cfg.allReachable node inside
  have inOuter := filled.inLoop_of_meets reducible inside meets
  have isOuter := meets.isHeader
  have contains := ((filled.owns_iff dominated inside).mp owns).2.1
  rcases owns with ⟨isInner, rfl | ⟨-, -, least⟩⟩
  · exact inOuter
  · have below := least outer (.inr ⟨reducible, inside, meets⟩)
    have unequal : cfg.finishTime inner ≠ cfg.finishTime outer := fun same =>
      different (finishTime_inj cfg.closed (isHeader_reachable isInner) same)
    exact dominated.inLoop_of_common cfg.closed reachable isInner isOuter contains (.inr inOuter)
      (by omega)

theorem links_of_around (isInner : cfg.IsHeader inner) (around : cfg.Around inner outer) :
    cfg.Links outer inner := by
  rcases filled.linked inner outer isInner around with ⟨reducible, node, inside, innermost, notSrc⟩
  have inOuter := dominated.inLoop_of_contains around.1 innermost.2.1 around.2.1
  refine ⟨around.2.1.ne, reducible, node, inside, inOuter.meets.resolve_left notSrc, ?_⟩
  exact (filled.owns_iff dominated inside).mpr innermost

theorem surrounds_iff (isInner : cfg.IsHeader inner) :
    cfg.Surrounds outer inner ↔ cfg.Around inner outer := by
  have reachable := isHeader_reachable isInner
  have firstAround : ∀ loop, cfg.Around inner loop ↔ _ := fun loop =>
    dominated.around_iff cfg.closed reachable
  constructor
  · rintro ⟨links, least⟩
    refine (firstAround outer).mpr ⟨links.isHeader, filled.inLoop_of_links dominated links, ?_⟩
    intro other isHeader inOther
    rcases dominated.exists_around cfg.closed reachable isHeader inOther with ⟨first, around⟩
    have below := least first (filled.links_of_around dominated isInner around)
    exact below.trans (((firstAround first).mp around).2.2 other isHeader inOther)
  · intro around
    refine ⟨filled.links_of_around dominated isInner around, fun other links => ?_⟩
    exact ((firstAround outer).mp around).2.2 other links.isHeader
      (filled.inLoop_of_links dominated links)

theorem contains_of_gathers (gathers : cfg.Gathers header node) (isHeader : cfg.IsHeader header)
    (inside : node ∈ cfg.nodes) : cfg.Contains header node := by
  induction gathers with
  | @src header node isSrc =>
      by_cases same : node = header
      · exact .inl same
      · exact .inr (inLoop_of_src isSrc same)
  | owned owns => exact ((filled.owns_iff dominated inside).mp owns).2.1
  | inner surrounds _ induction =>
      have contains := induction surrounds.1.isInner inside
      have inLoop := filled.inLoop_of_links dominated surrounds.1
      exact .inr (dominated.inLoop_of_contains isHeader contains inLoop)

/-- A node is gathered along the loops it is in, from its innermost. -/
theorem gathers_of_contains (isHeader : cfg.IsHeader header) (inside : node ∈ cfg.nodes)
    (contains : cfg.Contains header node) : cfg.Gathers header node := by
  induction time : cfg.finishTime header using Nat.strong_induction_on generalizing header with
  | _ time induction =>
      have reachable := cfg.allReachable node inside
      rcases dominated.exists_innermost cfg.closed reachable isHeader contains with
        ⟨loop, innermost⟩
      have first := (dominated.innermost_iff cfg.closed reachable).mp innermost
      rcases Nat.lt_or_eq_of_le (first.2.2 header isHeader contains) with less | same
      · have loopIn := dominated.inLoop_of_common cfg.closed reachable first.1 isHeader first.2.1
          contains less
        rcases dominated.exists_between cfg.closed isHeader first.1 loopIn with
          ⟨between, around, isBetween, hasLoop⟩
        have before := dominated.finishTime_lt cfg.closed around.2.1 (isHeader_reachable isBetween)
        have hasNode := dominated.contains_trans isBetween first.2.1 hasLoop
        exact .inner ((filled.surrounds_iff dominated isBetween).mpr around)
          (induction _ (time ▸ before) isBetween hasNode rfl)
      · have equal := finishTime_inj cfg.closed (isHeader_reachable first.1) same
        exact .owned ((filled.owns_iff dominated inside).mpr (equal ▸ innermost))

theorem right : cfg.LoopsRight where
  gathers_iff _ isHeader _ inside :=
    ⟨fun gathers => filled.contains_of_gathers dominated gathers isHeader inside,
      filled.gathers_of_contains dominated isHeader inside⟩
  owns_iff _ inside _ := filled.owns_iff dominated inside
  surrounds_iff _ isInner _ := filled.surrounds_iff dominated isInner

end LoopsFilled

/-! ## And only then -/

namespace LoopsRight

variable (right : cfg.LoopsRight)

include right

theorem unflagged (isHeader : cfg.IsHeader header) (irreducible : cfg.reducible header = false)
    (inside : node ∈ cfg.nodes) (inLoop : cfg.InLoop header node) :
    node ∈ cfg.backEdgesSrc header := by
  have notReducible : cfg.reducible header ≠ true := by simp [irreducible]
  cases (right.gathers_iff header isHeader node inside).mpr (.inr inLoop) with
  | src isSrc => exact isSrc
  | owned owns =>
      rcases owns.2 with same | ⟨-, isSrc | ⟨reducible, -⟩, -⟩
      · exact absurd same inLoop.ne
      · exact isSrc
      · exact absurd reducible notReducible
  | inner surrounds _ => exact absurd surrounds.1.2.1 notReducible

include dominated

/-- From its header the search of a loop would get out of it. -/
theorem selfLoop (reducible : cfg.reducible header = true)
    (isLatch : header ∈ cfg.backEdgesSrc header) : header = cfg.entryPoint := by
  by_contra different
  have isHeader := isHeader_of_reducible reducible
  have closed := cfg.closed
  rcases exists_entering (isHeader_reachable isHeader) different with
    ⟨pred, reachable, edge, notDominates⟩
  have inside := closed.mem_of_reachable reachable
  have notSrc : pred ∉ cfg.backEdgesSrc header := fun isSrc =>
    notDominates (dominated header pred isSrc)
  have notHeader : pred ≠ header := by
    rintro rfl
    exact notDominates (Dominates.refl pred)
  have outside : ¬ cfg.InLoop header pred := fun inLoop =>
    notDominates (dominated.dominates inLoop)
  have meets : cfg.Meets header pred := .ofSrc isLatch edge notHeader notSrc
  have claims : cfg.Claims header pred := .inr ⟨reducible, inside, meets⟩
  -- The loop of the predecessor gets a loop around it that the header is not in.
  have owner : ∃ loop, cfg.Owns loop pred ∧ loop ≠ header := by
    have notOwned : ¬ cfg.Owns header pred := by
      intro owns
      have contains := ((right.owns_iff pred inside header).mp owns).2.1
      exact outside (contains.resolve_left notHeader)
    by_cases predHeader : cfg.IsHeader pred
    · exact ⟨pred, ⟨predHeader, .inl rfl⟩, notHeader⟩
    · rcases claims.exists_owns predHeader with ⟨loop, owns, -, -⟩
      refine ⟨loop, owns, ?_⟩
      rintro rfl
      exact notOwned owns
  rcases owner with ⟨loop, owns, different'⟩
  have links : cfg.Links header loop := ⟨different', reducible, pred, inside, meets, owns⟩
  rcases links.exists_surrounds with ⟨outer, surrounds, before⟩
  have around := (right.surrounds_iff loop owns.1 outer).mp surrounds
  have contains := ((right.owns_iff pred inside loop).mp owns).2.1
  have inOuter := dominated.inLoop_of_contains around.1 contains around.2.1
  rcases edge_settled closed reachable edge with isBack | earlier
  · exact notSrc (mem_backEdgesSrc.mpr isBack)
  · have later := dominated.finishTime_lt closed inOuter reachable
    omega

omit dominated in
theorem linked (isInner : cfg.IsHeader inner) (around : cfg.Around inner outer) :
    cfg.reducible outer = true ∧
      ∃ node ∈ cfg.nodes, cfg.Innermost inner node ∧ node ∉ cfg.backEdgesSrc outer := by
  rcases ((right.surrounds_iff inner isInner outer).mpr around).1 with
    ⟨-, reducible, node, inside, meets, owns⟩
  exact ⟨reducible, node, inside, (right.owns_iff node inside inner).mp owns, meets.not_src⟩

end LoopsRight

include dominated in
theorem loopsRight_iff : cfg.LoopsRight ↔ cfg.LoopsFilled := by
  constructor
  · intro right
    constructor
    case unflagged => exact fun _ isHeader irreducible _ => right.unflagged isHeader irreducible
    case selfLoop => exact fun _ => right.selfLoop dominated
    case linked => exact fun _ _ => right.linked
  · exact fun filled => filled.right dominated

end Exact

end LeechJit.Graph
