import Mathlib.Order.WellFoundedSet
import LeechJit.Analysis.LoopOrder

/-! # Loops around loops

In any graph a loop is in the `inners` of exactly its outer loop, and once. So the loops
are a forest when none is around itself, and then their orders can be written out.
-/

namespace LeechJit.Analysis

open LeechJit.Graph
open Nesting (Item)

variable {Node : Type} [DecidableEq Node]

/-! ## What a forest of loops is -/

namespace LoopAnalyzer

/-- `getOuterLoop` of loop `inner` is loop `outer`. -/
def Outer (loops : LoopAnalyzer Node) (inner outer : LoopId) : Prop :=
  ∃ info, loops.loop inner = .ok info ∧ info.outer = some outer

omit [DecidableEq Node]

/-- `LoopInfo::getLinearOrder` where the header of the root loop, a null pointer, is
written out as well. -/
def linearOrder (loops : LoopAnalyzer Node) : Nat → LoopInfo Node → Result (List (Option Node))
  | 0, _ => .error .diverges
  | fuel + 1, info => do
      let parts ← info.body.reverse.mapM fun entry =>
        match entry with
        | .node node => .ok [some node]
        | .loop loopId => do
            let inner ← loops.loop loopId
            loops.linearOrder fuel inner
      return info.header :: parts.flatten

theorem mapM_map {α β γ : Type} {values : List α} {step : α → Result β} (change : β → γ)
    (step' : α → Result γ) (same : ∀ value result, step value = .ok result →
      step' value = .ok (change result)) {results : List β}
    (returns : values.mapM step = .ok results) : values.mapM step' = .ok (results.map change) := by
  induction values generalizing results with
  | nil =>
      cases returns
      rfl
  | cons head rest induction =>
      rw [List.mapM_cons] at returns ⊢
      rcases Result.bind_eq_ok.mp returns with ⟨first, isFirst, later⟩
      rcases Result.bind_eq_ok.mp later with ⟨others, areOthers, done⟩
      cases done
      rw [same head first isFirst, induction areOthers]
      rfl

theorem mapM_returns {α β : Type} (values : List α) (step : α → Result β)
    (returns : ∀ value ∈ values, ∃ result, step value = .ok result) :
    ∃ results, values.mapM step = .ok results := by
  induction values with
  | nil => exact ⟨[], rfl⟩
  | cons head rest induction =>
      rcases returns head (.head _) with ⟨first, isFirst⟩
      rcases induction fun value inRest => returns value (.tail _ inRest) with ⟨others, areOthers⟩
      rw [List.mapM_cons, isFirst, areOthers]
      exact ⟨first :: others, rfl⟩

/-- Off the root it is the order of the nodes. -/
theorem linearOrder_eq {loops : LoopAnalyzer Node} {fuel : Nat} {info : LoopInfo Node}
    {order : List Node} (result : loops.getLinearOrder fuel info = .ok order) :
    loops.linearOrder fuel info = .ok (order.map some) := by
  induction fuel generalizing info order with
  | zero => cases result
  | succ fuel induction =>
      cases isHeader : info.header with
      | none =>
          rw [getLinearOrder, isHeader] at result
          cases result
      | some header =>
          simp only [getLinearOrder, isHeader] at result
          rcases Result.bind_eq_ok.mp result with ⟨parts, entries, done⟩
          cases done
          have entries' := mapM_map (List.map some) (fun entry =>
            match entry with
            | NodeOrLoop.node node => .ok [some node]
            | .loop loopId => do
                let inner ← loops.loop loopId
                loops.linearOrder fuel inner) ?_ entries
          · rw [linearOrder, entries', Result.ok_bind, isHeader, ← List.map_flatten]
            rfl
          · intro entry result isResult
            cases entry with
            | node node =>
                cases isResult
                rfl
            | loop loopId =>
                rcases Result.bind_eq_ok.mp isResult with ⟨inner, found, inside⟩
                simp only [found, Result.ok_bind]
                exact induction inside

structure IsForest (loops : LoopAnalyzer Node) : Prop where
  acyclic : ∀ loopId, ¬ Relation.TransGen loops.Outer loopId loopId
  /-- A loop is in the inners of its outer loop, and of no other. -/
  inners : ∀ outerId info, loops.loop outerId = .ok info →
    ∀ innerId, innerId ∈ info.inners ↔ loops.Outer innerId outerId
  once : ∀ loopId info, loops.loop loopId = .ok info → info.inners.Nodup
  terminates : ∀ loopId info, loops.loop loopId = .ok info →
    ∃ fuel order, loops.linearOrder fuel info = .ok order

end LoopAnalyzer

/-! ## The inners of a loop -/

section Inners

variable {graph : Graph Node} {heads done : List Node} {nest : Nest Node}
  {loops : LoopAnalyzer Node} {root : Option LoopId}

omit [DecidableEq Node] in
theorem mem_topLoops {infos : List (LoopInfo Node)} {first loopId : LoopId} :
    loopId ∈ topLoops first infos ↔
      ∃ place info, infos[place]? = some info ∧ info.outer = none ∧ loopId = first + place := by
  induction infos generalizing first with
  | nil => simp [topLoops]
  | cons head rest induction =>
      have split : (∃ place info, (head :: rest)[place]? = some info ∧ info.outer = none ∧
            loopId = first + place) ↔ (head.outer = none ∧ loopId = first) ∨
          ∃ place info, rest[place]? = some info ∧ info.outer = none ∧
            loopId = first + 1 + place := by
        constructor
        · rintro ⟨_ | place, info, found, free, isId⟩
          · cases found
            exact .inl ⟨free, isId⟩
          · exact .inr ⟨place, info, found, free, by rw [isId, Nat.add_right_comm]; rfl⟩
        · rintro (⟨free, isId⟩ | ⟨place, info, found, free, isId⟩)
          · exact ⟨0, head, rfl, free, isId⟩
          · exact ⟨place + 1, info, found, free, by rw [isId, Nat.add_right_comm]; rfl⟩
      rw [split, topLoops]
      split_ifs with free
      · rw [List.mem_cons, induction]
        simp [free]
      · rw [induction]
        simp [free]

omit [DecidableEq Node] in
theorem topLoops_nodup (infos : List (LoopInfo Node)) (first : LoopId) :
    (topLoops first infos).Nodup := by
  induction infos generalizing first with
  | nil => exact List.nodup_nil
  | cons head rest induction =>
      rw [topLoops]
      split_ifs with free
      · refine List.nodup_cons.mpr ⟨?_, induction (first + 1)⟩
        intro member
        rcases mem_topLoops.mp member with ⟨place, info, -, -, isId⟩
        have above := Nat.le_add_right (first + 1) place
        exact absurd isId (Nat.ne_of_lt above)
      · exact induction (first + 1)

theorem Finished.outer_iff (finished : Finished graph heads nest loops root)
    {inner : Node} (member : inner ∈ heads) {outerId : LoopId} :
    loops.Outer (heads.idxOf inner) outerId ↔
      ((nest.outer inner).map heads.idxOf <|> root) = some outerId := by
  have stored := finished.loop inner member
  constructor
  · rintro ⟨info, found, around⟩
    cases stored.symm.trans found
    exact around
  · exact fun around => ⟨_, stored, around⟩

theorem Finished.outer_header (finished : Finished graph heads nest loops root)
    {innerId outerId : LoopId} (around : loops.Outer innerId outerId) :
    ∃ inner ∈ heads, innerId = heads.idxOf inner := by
  rcases around with ⟨info, found, outer⟩
  rcases finished.all innerId info found with isHeader | isRoot
  · exact isHeader
  · rcases finished.rootLoop innerId isRoot with ⟨-, nodes, -, stored⟩
    cases stored.symm.trans found
    cases outer

/-- The loop around a loop of the nest. -/
theorem Finished.outer_nest (finished : Finished graph heads nest loops root)
    (plain : Nest.Plain graph done nest)
    {inner outer : Node} (member : inner ∈ heads) (outerMem : outer ∈ heads) :
    loops.Outer (heads.idxOf inner) (heads.idxOf outer) ↔ nest.outer inner = some outer := by
  rw [finished.outer_iff member]
  cases around : nest.outer inner with
  | none =>
      simp only [Option.map_none, Option.orElse_eq_orElse, Option.orElse_none, reduceCtorEq,
        iff_false]
      intro isRoot
      have below := List.idxOf_lt_length_of_mem outerMem
      rw [(finished.rootLoop _ isRoot).1] at below
      exact Nat.lt_irrefl _ below
  | some loop =>
      have loopMem := (finished.headers loop).mpr (plain.outer inner loop around).2.1
      simp only [Option.map_some, Option.orElse_eq_orElse, Option.orElse_some, Option.some.injEq]
      exact List.idxOf_inj loopMem

/-- In every graph a loop is in the inners of its outer loop, once. -/
theorem Finished.mem_inners (finished : Finished graph heads nest loops root)
    (plain : Nest.Plain graph done nest) {outerId : LoopId}
    {info : LoopInfo Node} (found : loops.loop outerId = .ok info) (innerId : LoopId) :
    innerId ∈ info.inners ↔ loops.Outer innerId outerId := by
  rcases finished.all outerId info found with ⟨outer, outerMem, rfl⟩ | isRoot
  · cases (finished.loop outer outerMem).symm.trans found
    have listed : innerId ∈ (nest.items outer).filterMap (innerOf heads) ↔
        ∃ inner, .group inner ∈ nest.items outer ∧ heads.idxOf inner = innerId := by
      rw [List.mem_filterMap]
      constructor
      · rintro ⟨item, held, isInner⟩
        cases item with
        | leaf node => cases isInner
        | group inner => exact ⟨inner, held, Option.some.inj isInner⟩
      · rintro ⟨inner, held, rfl⟩
        exact ⟨.group inner, held, rfl⟩
    refine Iff.trans listed ?_
    constructor
    · rintro ⟨inner, held, rfl⟩
      have around := (plain.group_iff inner outer).mp held
      have innerMem := (finished.headers inner).mpr (plain.outer inner outer around).1
      exact (finished.outer_nest plain innerMem outerMem).mpr around
    · intro around
      rcases finished.outer_header around with ⟨inner, innerMem, rfl⟩
      rw [finished.outer_nest plain innerMem outerMem] at around
      exact ⟨inner, (plain.group_iff inner outer).mpr around, rfl⟩
  · rcases finished.rootLoop outerId isRoot with ⟨isLast, nodes, -, stored⟩
    cases stored.symm.trans found
    rw [rootInfo, mem_topLoops]
    constructor
    · rintro ⟨place, info, isInfo, free, rfl⟩
      rw [List.getElem?_map, Option.map_eq_some_iff] at isInfo
      rcases isInfo with ⟨inner, isInner, rfl⟩
      have innerMem := List.mem_of_getElem? isInner
      have isPlace : heads.idxOf inner = 0 + place := by
        rcases List.getElem?_eq_some_iff.mp isInner with ⟨below, rfl⟩
        rw [finished.nodup.idxOf_getElem place below, Nat.zero_add]
      rw [← isPlace, finished.outer_iff innerMem]
      rw [infoOf, Option.map_eq_none_iff] at free
      rw [free, isRoot]
      rfl
    · intro around
      rcases finished.outer_header around with ⟨inner, innerMem, rfl⟩
      have placed : heads[heads.idxOf inner]? = some inner := by
        rw [List.getElem?_eq_getElem (List.idxOf_lt_length_of_mem innerMem), List.getElem_idxOf]
      refine ⟨heads.idxOf inner, infoOf graph heads nest inner, ?_, ?_, (Nat.zero_add _).symm⟩
      · rw [List.getElem?_map, placed]
        rfl
      · rw [finished.outer_iff innerMem] at around
        cases outer : nest.outer inner with
        | none => simp [infoOf, outer]
        | some loop =>
            rw [outer, isLast] at around
            have below := List.idxOf_lt_length_of_mem
              ((finished.headers loop).mpr (plain.outer inner loop outer).2.1)
            exact absurd (Option.some.inj around) (Nat.ne_of_lt below)

def groupOf : Item Node Node → Option Node
  | .leaf _ => none
  | .group inner => some inner

omit [DecidableEq Node] in
theorem groupOf_eq_some {item : Item Node Node} {inner : Node} :
    groupOf item = some inner ↔ item = .group inner := by
  cases item <;> simp [groupOf]

theorem Finished.inners_nodup (finished : Finished graph heads nest loops root)
    (plain : Nest.Plain graph done nest) {loopId : LoopId} {info : LoopInfo Node}
    (found : loops.loop loopId = .ok info) : info.inners.Nodup := by
  rcases finished.all loopId info found with ⟨outer, outerMem, rfl⟩ | isRoot
  · cases (finished.loop outer outerMem).symm.trans found
    have groups : (nest.items outer).filterMap (innerOf heads) =
        ((nest.items outer).filterMap groupOf).map heads.idxOf := by
      rw [List.map_filterMap]
      congr 1
      funext item
      cases item <;> rfl
    have isNodup : ((nest.items outer).filterMap groupOf).Nodup := by
      apply List.Nodup.filterMap _ (plain.nodup outer)
      intro left right inner isLeft isRight
      rw [groupOf_eq_some.mp isLeft, groupOf_eq_some.mp isRight]
    change ((nest.items outer).filterMap (innerOf heads)).Nodup
    rw [groups]
    apply isNodup.map_on
    intro left leftMem right _ same
    rcases List.mem_filterMap.mp leftMem with ⟨item, held, isGroup⟩
    rw [groupOf_eq_some.mp isGroup] at held
    have around := (plain.group_iff left outer).mp held
    have innerMem := (finished.headers left).mpr (plain.outer left outer around).1
    exact (List.idxOf_inj innerMem).mp same
  · rcases finished.rootLoop loopId isRoot with ⟨-, nodes, -, stored⟩
    cases stored.symm.trans found
    exact topLoops_nodup _ _

end Inners

/-! ## Writing out the orders -/

section Orders

omit [DecidableEq Node]

variable {loops : LoopAnalyzer Node}

theorem linearOrder_mono {fuel : Nat} {info : LoopInfo Node} {order : List (Option Node)}
    (written : loops.linearOrder fuel info = .ok order) :
    loops.linearOrder (fuel + 1) info = .ok order := by
  induction fuel generalizing info order with
  | zero => cases written
  | succ fuel induction =>
      rw [LoopAnalyzer.linearOrder] at written
      rcases Result.bind_eq_ok.mp written with ⟨parts, entries, done⟩
      cases done
      have entries' := LoopAnalyzer.mapM_map (fun order => order) (fun entry =>
        match entry with
        | NodeOrLoop.node node => .ok [some node]
        | .loop loopId => do
            let inner ← loops.loop loopId
            loops.linearOrder (fuel + 1) inner) ?_ entries
      · rw [List.map_id'] at entries'
        rw [LoopAnalyzer.linearOrder, entries']
        rfl
      · intro entry result isResult
        cases entry with
        | node node => exact isResult
        | loop loopId =>
            rcases Result.bind_eq_ok.mp isResult with ⟨inner, found, inside⟩
            simp only [found, Result.ok_bind]
            exact induction inside

theorem linearOrder_mono_le {fuel more : Nat} {info : LoopInfo Node} {order : List (Option Node)}
    (written : loops.linearOrder fuel info = .ok order) (enough : fuel ≤ more) :
    loops.linearOrder more info = .ok order := by
  induction enough with
  | refl => exact written
  | step _ induction => exact linearOrder_mono induction

/-- The order of a loop is written out when those of its inners are. -/
theorem linearOrder_returns (loops : LoopAnalyzer Node) (fuel : Nat) (info : LoopInfo Node)
    (inners : ∀ loopId, .loop loopId ∈ info.body → ∃ inner order,
      loops.loop loopId = .ok inner ∧ loops.linearOrder fuel inner = .ok order) :
    ∃ order, loops.linearOrder (fuel + 1) info = .ok order := by
  have entries := LoopAnalyzer.mapM_returns info.body.reverse (fun entry =>
    match entry with
    | NodeOrLoop.node node => .ok [some node]
    | .loop loopId => do
        let inner ← loops.loop loopId
        loops.linearOrder fuel inner) ?_
  · rcases entries with ⟨parts, areParts⟩
    exact ⟨info.header :: parts.flatten, by rw [LoopAnalyzer.linearOrder, areParts]; rfl⟩
  · intro entry member
    cases entry with
    | node node => exact ⟨_, rfl⟩
    | loop loopId =>
        rcases inners loopId (List.mem_reverse.mp member) with ⟨inner, order, found, written⟩
        exact ⟨order, by simp only [found, Result.ok_bind, written]⟩

/-- One amount of fuel does for all the loops of a list. -/
theorem linearOrder_common {loopIds : List LoopId}
    (written : ∀ loopId ∈ loopIds, ∃ inner fuel order,
      loops.loop loopId = .ok inner ∧ loops.linearOrder fuel inner = .ok order) :
    ∃ fuel, ∀ loopId ∈ loopIds, ∃ inner order,
      loops.loop loopId = .ok inner ∧ loops.linearOrder fuel inner = .ok order := by
  induction loopIds with
  | nil => exact ⟨0, by simp⟩
  | cons head rest induction =>
      rcases written head (.head _) with ⟨inner, one, order, found, isOrder⟩
      rcases induction fun loopId inRest => written loopId (.tail _ inRest) with ⟨others, all⟩
      refine ⟨max one others, fun loopId member => ?_⟩
      cases member with
      | head => exact ⟨inner, order, found, linearOrder_mono_le isOrder (Nat.le_max_left ..)⟩
      | tail _ inRest =>
          rcases all loopId inRest with ⟨inner', order', found', isOrder'⟩
          exact ⟨inner', order', found', linearOrder_mono_le isOrder' (Nat.le_max_right ..)⟩

end Orders

section Acyclic

variable {graph : Graph Node} {heads done : List Node} {nest : Nest Node}
  {loops : LoopAnalyzer Node} {root : Option LoopId}

/-- The loops of a body are the inners. -/
theorem Finished.loop_mem_body (finished : Finished graph heads nest loops root)
    {loopId innerId : LoopId} {info : LoopInfo Node} (found : loops.loop loopId = .ok info) :
    .loop innerId ∈ info.body ↔ innerId ∈ info.inners := by
  rcases finished.all loopId info found with ⟨header, member, rfl⟩ | isRoot
  · cases (finished.loop header member).symm.trans found
    simp only [infoOf, List.mem_append, List.mem_map, List.mem_filterMap, reduceCtorEq, and_false,
      exists_false, false_or]
    apply exists_congr
    intro item
    cases item <;> simp [entryOf, innerOf]
  · rcases finished.rootLoop loopId isRoot with ⟨-, nodes, -, stored⟩
    cases stored.symm.trans found
    simp [rootInfo]

theorem Finished.terminates (finished : Finished graph heads nest loops root)
    (plain : Nest.Plain graph done nest)
    (acyclic : ∀ loopId, ¬ Relation.TransGen loops.Outer loopId loopId)
    {loopId : LoopId} {info : LoopInfo Node} (found : loops.loop loopId = .ok info) :
    ∃ fuel order, loops.linearOrder fuel info = .ok order := by
  have : IsStrictOrder LoopId (Relation.TransGen loops.Outer) :=
    { irrefl := acyclic, trans := fun _ _ _ => .trans }
  have inside : ∀ id info, loops.loop id = .ok info → id < loops.loops.length := by
    intro id info isLoop
    by_contra outside
    simp [LoopAnalyzer.loop, List.getElem?_eq_none (Nat.le_of_not_lt outside)] at isLoop
  have finite := (Set.finite_Iio loops.loops.length).wellFoundedOn
    (r := Relation.TransGen loops.Outer)
  -- The loops inside are written out before the loop around them.
  refine finite.induction (P := fun id => ∀ info, loops.loop id = .ok info →
    ∃ fuel order, loops.linearOrder fuel info = .ok order) (inside loopId info found) ?_ info found
  intro id _ induction info found
  have written : ∀ innerId ∈ info.inners, ∃ inner fuel order,
      loops.loop innerId = .ok inner ∧ loops.linearOrder fuel inner = .ok order := by
    intro innerId isInner
    have around := (finished.mem_inners plain found innerId).mp isInner
    rcases around with ⟨inner, foundInner, isOuter⟩
    rcases induction innerId (inside innerId inner foundInner)
      (.single ⟨inner, foundInner, isOuter⟩) inner foundInner with ⟨fuel, order, isOrder⟩
    exact ⟨inner, fuel, order, foundInner, isOrder⟩
  rcases linearOrder_common written with ⟨fuel, common⟩
  refine ⟨fuel + 1, linearOrder_returns loops fuel info fun innerId inBody => ?_⟩
  exact common innerId ((finished.loop_mem_body found).mp inBody)

theorem Finished.isForest_iff (finished : Finished graph heads nest loops root)
    (plain : Nest.Plain graph done nest) :
    loops.IsForest ↔ ∀ loopId, ¬ Relation.TransGen loops.Outer loopId loopId := by
  constructor
  · exact fun forest => forest.acyclic
  · intro acyclic
    constructor
    case acyclic => exact acyclic
    case inners => exact fun outerId info found => finished.mem_inners plain found
    case once => exact fun loopId info found => finished.inners_nodup plain found
    case terminates => exact fun loopId info found => finished.terminates plain acyclic found

end Acyclic

end LeechJit.Analysis
