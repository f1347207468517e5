import LeechJit.Analysis.LoopExact

/-! # Loops in the linear order

Where the loops are apart and each of them is called reducible, `buildLinearOrder` writes
the natural loop of every header in one piece, the header first.
-/

namespace LeechJit.Graph

variable {Node : Type} [DecidableEq Node]

/-- The dominator tree calls every loop reducible. -/
def AllReducible (graph : Graph Node) : Prop :=
  ∀ header, graph.IsHeader header → graph.reducible header = true

namespace AllReducible

variable {graph : Graph Node} (all : graph.AllReducible) (apart : graph.LoopsApart)

include all apart

theorem dominated : graph.BackEdgesDominated := by
  intro header src isSrc
  exact apart.dominated header (all header (isHeader_iff.mpr ⟨src, isSrc⟩)) src isSrc

theorem filled (closed : graph.Closed) : graph.LoopsFilled := by
  constructor
  case unflagged =>
    intro header isHeader irreducible
    rw [all header isHeader] at irreducible
    cases irreducible
  case selfLoop =>
    intro header reducible isLatch
    exact absurd (isHeader_of_reducible reducible)
      (apart.notHeader header (emitted_of_reducible reducible) header isLatch)
  case linked =>
    intro inner outer isInner around
    have reducible := all outer around.1
    refine ⟨reducible, inner, closed.mem_of_reachable (isHeader_reachable isInner), ?_, ?_⟩
    · refine ⟨isInner, .inl rfl, fun other isHeader inOther node inInner => ?_⟩
      exact (all.dominated apart).contains_trans isHeader inInner inOther
    · intro isSrc
      exact apart.notHeader outer (emitted_of_reducible reducible) inner isSrc isInner

end AllReducible

end LeechJit.Graph

namespace LeechJit.Analysis

open LeechJit.Graph
open Nesting (Nested Inside expand)

variable {Node : Type} [DecidableEq Node]

/-- What two properties keep they keep together. -/
theorem Keeps.and {cfg : Cfg Node} {first second : List Node → Nest Node → Prop}
    (keepsFirst : Keeps cfg first) (keepsSecond : Keeps cfg second) :
    Keeps cfg fun front nest => first front nest ∧ second front nest := by
  intro front header found nest isHeader earlier all searched plain holds
  exact ⟨keepsFirst front header found nest isHeader earlier all searched plain holds.1,
    keepsSecond front header found nest isHeader earlier all searched plain holds.2⟩

section Order

variable {cfg : Cfg Node} {heads : List Node} {nest : Nest Node} {loops : LoopAnalyzer Node}
  {root : Option LoopId} {done : List Node}

/-! ## What a loop is written out to -/

section Written

variable {populated : List Node} (settled : Settled cfg heads populated nest loops root)
  (sound : Nest.Sound cfg.toGraph done nest)
  (nested : Nested (nest.emission cfg.toGraph) (nestRank cfg.toGraph heads) cfg.Emitted)

include settled

theorem gathers_of_leaf {header node : Node} (isHeader : cfg.IsHeader header)
    (held : .leaf node ∈ nest.emission cfg.toGraph header) : cfg.Gathers header node := by
  rcases (Nest.Sound.leaf_emission nest).mp held with rfl | isSrc | inBody
  · exact .owned ⟨isHeader, .inl rfl⟩
  · exact .src isSrc
  · exact .owned ((settled.leaf_iff node header).mp inBody).1

include sound

theorem surrounds_iff_group {outer inner : Node} :
    .group inner ∈ nest.emission cfg.toGraph outer ↔ cfg.Surrounds outer inner :=
  sound.group_emission.trans (settled.outer_iff inner outer)

theorem gathers_of_inside {inner outer node : Node} (gathers : cfg.Gathers inner node)
    (inside : Inside (nest.emission cfg.toGraph) cfg.Emitted inner outer) :
    cfg.Gathers outer node := by
  induction inside with
  | refl => exact gathers
  | tail _ direct induction =>
      exact .inner ((surrounds_iff_group settled sound).mp direct.2) induction

include nested

/-- A loop is written out to the blocks it gathers. -/
theorem mem_expand_iff (all : cfg.AllReducible) {depth : Nat} {header node : Node}
    (isHeader : cfg.IsHeader header) (deep : nestRank cfg.toGraph heads header < depth) :
    node ∈ expand (nest.emission cfg.toGraph) depth header ↔ cfg.Gathers header node := by
  have emitted := fun {loop : Node} (isLoop : cfg.IsHeader loop) =>
    emitted_of_reducible (all loop isLoop)
  rw [nested.mem_expand (emitted isHeader) deep]
  constructor
  · rintro ⟨inner, inside, held⟩
    have innerHeader := (nested.inside_valid inside (emitted isHeader)).1.1
    exact gathers_of_inside settled sound (gathers_of_leaf settled innerHeader held) inside
  · intro gathers
    induction gathers with
    | @src header node isSrc =>
        exact ⟨header, .refl, (Nest.Sound.leaf_emission nest).mpr (.inr (.inl isSrc))⟩
    | @owned header node owns =>
        refine ⟨header, .refl, (Nest.Sound.leaf_emission nest).mpr ?_⟩
        by_cases same : node = header
        · exact .inl same
        · by_cases isSrc : node ∈ cfg.backEdgesSrc header
          · exact .inr (.inl isSrc)
          · exact .inr (.inr ((settled.leaf_iff node header).mpr ⟨owns, same, isSrc⟩))
    | @inner header inner node surrounds _ induction =>
        have direct := (surrounds_iff_group settled sound).mpr surrounds
        have lower := nested.rank_inner _ _ (emitted isHeader) direct
        rcases induction surrounds.1.isInner (by omega) with ⟨lowest, inside, held⟩
        exact ⟨lowest, inside.tail ⟨emitted isHeader, direct⟩, held⟩

end Written

/-! ## Whole loops in the order -/

/-- Every loop whose header is in the order so far is in it in one piece. -/
def Whole (graph : Graph Node) (nest : Nest Node) (depth : Nat) (res : List Node) : Prop :=
  ∀ header ∈ res, graph.reducible header = true →
    expand (nest.emission graph) depth header <:+: res

theorem Whole.step {depth : Nat} {res : List Node} {bb : Node}
    (whole : Whole cfg.toGraph nest depth res)
    (nested : Nested (nest.emission cfg.toGraph) (nestRank cfg.toGraph heads) cfg.Emitted)
    (deep : ∀ header, cfg.reducible header = true →
      nestRank cfg.toGraph heads header < depth) :
    Whole cfg.toGraph nest depth
      (if bb ∈ res then res else res ++ part cfg.toGraph nest depth bb) := by
  by_cases visited : bb ∈ res
  · rw [if_pos visited]
    exact whole
  · rw [if_neg visited]
    intro header member reducible
    have emitted := emitted_of_reducible reducible
    rcases List.mem_append.mp member with old | new
    · exact (whole header old reducible).trans (List.prefix_append _ _).isInfix
    · refine List.IsInfix.trans ?_ (List.suffix_append res _).isInfix
      by_cases bbReducible : cfg.reducible bb = true
      · -- Only its own loop has the header among its items.
        have bbEmitted := emitted_of_reducible bbReducible
        rw [part, if_pos bbReducible] at new ⊢
        rcases (nested.mem_expand bbEmitted (deep bb bbReducible)).mp new with
          ⟨inner, inside, held⟩
        have innerEmitted := (nested.inside_valid inside bbEmitted).1
        cases nested.leaf_unique inner header header innerEmitted emitted held (.head _)
        exact nested.expand_infix inside bbEmitted (deep bb bbReducible)
      · rw [part, if_neg bbReducible, List.mem_singleton] at new
        exact absurd (new ▸ reducible) bbReducible

theorem Whole.run {bbs res after : List Node}
    (whole : Whole cfg.toGraph nest loops.depth res)
    (forest : Forest cfg.toGraph heads nest loops)
    (sound : Nest.Sound cfg.toGraph done nest)
    (nested : Nested (nest.emission cfg.toGraph) (nestRank cfg.toGraph heads) cfg.Emitted)
    (headers : ∀ node, node ∈ heads ↔ cfg.IsHeader node) (inside : bbs ⊆ cfg.nodes)
    (result : bbs.foldlM (Analysis.placeBlock loops) res = .ok after) :
    Whole cfg.toGraph nest loops.depth after := by
  induction bbs generalizing res with
  | nil =>
      cases result
      exact whole
  | cons bb rest induction =>
      have member : bb ∈ cfg.nodes := inside (.head _)
      rw [List.foldlM_cons, forest.placeBlock sound nested headers member,
        Result.ok_bind] at result
      have deep : ∀ header, cfg.reducible header = true →
          nestRank cfg.toGraph heads header < loops.depth :=
        fun header reducible => forest.rank_lt headers reducible
      exact induction (whole.step nested deep) (List.subset_of_cons_subset inside) result

/-- The order that is built has all loops in one piece. -/
theorem exists_whole (forest : Forest cfg.toGraph heads nest loops)
    (sound : Nest.Sound cfg.toGraph done nest) (apart : cfg.LoopsApart)
    (nested : Nested (nest.emission cfg.toGraph) (nestRank cfg.toGraph heads) cfg.Emitted)
    (headers : ∀ node, node ∈ heads ↔ cfg.IsHeader node) :
    ∃ order, buildLinearOrder cfg.toGraph loops = .ok order ∧ order.Nodup ∧
      cfg.depthFirstSearchReversePostOrder ⊆ order ∧
        Whole cfg.toGraph nest loops.depth order := by
  have start : Placed cfg.toGraph nest loops.depth [] [] := ⟨List.nodup_nil, by simp⟩
  rcases start.run forest sound apart nested headers
    (List.nil_append cfg.depthFirstSearchReversePostOrder) with ⟨order, placedAll, placed⟩
  have visited := (placeBlock_fold placedAll).1
  have sizes := placed.length sound nested
    (fun header reducible => forest.rank_lt headers reducible) visited
  have inside : cfg.depthFirstSearchReversePostOrder ⊆ cfg.nodes :=
    (reversePostOrder_perm cfg.closed cfg.allReachable).subset
  have none : Whole cfg.toGraph nest loops.depth [] := by simp [Whole]
  refine ⟨order, ?_, placed.nodup, visited, none.run forest sound nested headers inside placedAll⟩
  rw [buildLinearOrder, placedAll, Result.ok_bind, assert_of _ sizes]
  rfl

end Order

/-- Every natural loop is one piece of the linear order that begins with its header. -/
theorem buildLinearOrder_contiguous (cfg : Cfg Node) (apart : cfg.LoopsApart)
    (all : cfg.AllReducible) :
    ∃ loops order, LoopAnalyzer.make cfg.toGraph = .ok loops ∧
      buildLinearOrder cfg.toGraph loops = .ok order ∧ order.Nodup ∧
        ∀ header, cfg.IsHeader header → ∃ body, (header :: body) <:+: order ∧
          ∀ node ∈ cfg.nodes, node ∈ header :: body ↔ cfg.Contains header node := by
  rcases make_keeps cfg _ ((keeps_sound apart).and (Attached.keeps cfg))
      ⟨⟨Nest.Sound.start cfg.toGraph, by simp [Bodies]⟩, .start cfg⟩ with
    ⟨loops, root, heads, nest, done, made, finished, isDone, plain, ⟨sound, -⟩, attached⟩
  have settled := attached.settled finished plain isDone
  have forest := finished.forest plain
  have headers := finished.headers
  have nested := emission_nested sound apart headers
  rcases exists_whole forest sound apart nested headers with
    ⟨order, built, nodup, visited, whole⟩
  refine ⟨loops, order, made, built, nodup, fun header isHeader => ?_⟩
  have reducible := all header isHeader
  have deep := forest.rank_lt headers reducible
  have placed : header ∈ order :=
    visited ((mem_reversePostOrder cfg.closed).mpr (isHeader_reachable isHeader))
  -- A loop is written from its header on.
  rcases show ∃ body, expand (nest.emission cfg.toGraph) loops.depth header = header :: body from
    ⟨_, rfl⟩ with ⟨body, written⟩
  have filled := all.filled apart cfg.closed
  have right := filled.right (all.dominated apart)
  refine ⟨body, written ▸ whole header placed reducible, fun node inside => ?_⟩
  rw [← written, mem_expand_iff settled sound nested all isHeader deep]
  exact right.gathers_iff header isHeader node inside

theorem buildLinearOrder_contiguous_exitLoop :
    ∃ loops order, LoopAnalyzer.make exitLoop.toGraph = .ok loops ∧
      buildLinearOrder exitLoop.toGraph loops = .ok order ∧ order.Nodup ∧
        ∀ header, exitLoop.IsHeader header → ∃ body, (header :: body) <:+: order ∧
          ∀ node ∈ exitLoop.nodes, node ∈ header :: body ↔ exitLoop.Contains header node := by
  apply buildLinearOrder_contiguous exitLoop exitLoop_apart
  intro header isHeader
  rcases isHeader_iff.mp isHeader with ⟨src, isSrc⟩
  rcases exitLoop_src isSrc with ⟨rfl, -⟩
  decide

end LeechJit.Analysis
