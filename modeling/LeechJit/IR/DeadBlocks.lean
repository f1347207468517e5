import LeechJit.Graph.DomTreeDead
import LeechJit.IR.BlockIds

/-! # Functions with dead blocks

A function that was built is a flow graph, whichever of its blocks are reachable.
-/

namespace LeechJit.IR.Store

open LeechJit.Graph

variable {store store' : Store} {func : FuncId} {function : Function}

/-- Successors and predecessors mirror each other in all blocks. -/
theorem BuildStep.excess {step : BuildStep} (apart : store.shape.Apart)
    (mirrored : store.excess = fun _ _ => 0) (result : step.apply store = .ok store') :
    store'.excess = fun _ _ => 0 := by
  have fresh : store.blocks store.nextBlock = none := not_not.mp apart.fresh
  have same : store'.shape.excess = store.shape.excess := by
    cases step with
    | newFunction func resType args =>
        simp only [BuildStep.apply, Store.newFunction] at result
        split at result
        · cases result
          rfl
        · cases result
    | appendBB func =>
        rcases Result.map_eq_ok.mp result with ⟨⟨bb, made⟩, making, rfl⟩
        rcases appendBB_shape fresh making with ⟨-, function, -, shape_eq⟩
        rw [shape_eq]
        rfl
    | pushInstFront bb new =>
        rcases Result.map_eq_ok.mp result with ⟨⟨id, made⟩, making, rfl⟩
        rcases pushInstFront_shape making with ⟨-, type, -, shape_eq⟩
        rw [shape_eq]
        rfl
    | pushInstBack bb new =>
        rcases Result.map_eq_ok.mp result with ⟨⟨id, made⟩, making, rfl⟩
        rcases pushInstBack_shape making with ⟨-, type, -, shape_eq⟩
        rw [shape_eq]
        rfl
    | addNode phi val bb =>
        rcases addNode_shape result with ⟨inst, vars, -, -, shape_eq⟩
        rw [shape_eq]
        rfl
    | appendArg call arg =>
        rcases Result.bind_eq_ok.mp result with ⟨⟨type, kind, users, home, inputs⟩, -, adding⟩
        cases kind with
        | kCall callee => rw [(addInput_eq_ok adding).1.shape_eq]
        | _ => cases adding
  exact same.trans mirrored

theorem Built.excess (built : store.Built) : store.excess = fun _ _ => 0 := by
  have both : store.shape.Apart ∧ store.excess = fun _ _ => 0 := by
    apply built.induct (fun store => store.shape.Apart ∧ store.excess = fun _ _ => 0)
      ⟨Numbered.empty.apart, rfl⟩
    intro before step after holds result
    exact ⟨BuildStep.apart holds.1 result, BuildStep.excess holds.1 holds.2 result⟩
  exact both.2

theorem Built.mirrored (built : store.Built) (pred succ : BlockId) :
    (store.succs pred).count succ = (store.preds succ).count pred := by
  have noExcess : store.excess pred succ = 0 := by rw [built.excess]
  rw [Store.excess] at noExcess
  omega

theorem Built.grown (built : store.Built) : store.Grown := by
  rcases built with ⟨steps, result⟩
  refine ⟨steps.map .build, ?_⟩
  rw [List.foldlM_map]
  exact result

/-- Every branch stays in the function it is in. -/
def BranchesInside (store : Store) (function : Function) : Prop :=
  ∀ pred succ, succ ∈ store.succs pred → (pred ∈ function.bbs ↔ succ ∈ function.bbs)

/-- The graph of a function that was built. -/
def flowGraph (built : store.Built) (found : store.functions func = some function)
    (nonempty : function.bbs ≠ []) (inside : BranchesInside store function) :
    FlowGraph BlockId where
  toGraph := store.cfg function
  closed := by
    have numbered := built.grown.numbered
    have bbs : store.shape.bbs func = function.bbs :=
      Shape.bbs_eq (show store.shape.functions func = some function from found)
    have nodup := numbered.apart.nodup func
    rw [bbs] at nodup
    refine ⟨nodup, ?_, ?_⟩
    · cases blocks : function.bbs with
      | nil => exact absurd blocks nonempty
      | cons root rest => simp [cfg, graphOf, Store.root, blocks]
    · exact fun bb member succ isSucc => (inside bb succ isSucc).mp member
  preds_mem bb member pred isPred := by
    have isSucc : bb ∈ store.succs pred := by
      rw [← List.count_pos_iff, built.mirrored, List.count_pos_iff]
      exact isPred
    exact (inside pred bb isSucc).mpr member
  mirrored source _ target _ := built.mirrored source target
  ids left leftMem right rightMem same := by
    have numbered := built.grown.numbered
    have bbs : store.shape.bbs func = function.bbs :=
      Shape.bbs_eq (show store.shape.functions func = some function from found)
    have nodup := (numbered.increasing func).ids_nodup (numbered.apart.present func)
    rw [bbs] at nodup
    have present := numbered.apart.present func
    rw [bbs] at present
    apply List.inj_on_of_nodup_map nodup leftMem rightMem
    rcases Option.ne_none_iff_exists'.mp (present left leftMem) with ⟨leftBlock, leftFound⟩
    rcases Option.ne_none_iff_exists'.mp (present right rightMem) with ⟨rightBlock, rightFound⟩
    have equal : leftBlock.id = rightBlock.id := by
      simpa [cfg, graphOf, leftFound, rightFound] using same
    rw [idOf, idOf, leftFound, rightFound, Option.map_some, Option.map_some, equal]

/-- The dominator tree of a function is built, with the answers of the function without its dead
blocks, exactly if no dead block leads to a block that is alive. -/
theorem buildDomTree_dead_blocks_iff (built : store.Built)
    (found : store.functions func = some function) (nonempty : function.bbs ≠ [])
    (inside : BranchesInside store function) :
    (∃ graph tree alive, store.makeBBGraph function = .ok graph ∧ buildDomTree graph = .ok tree ∧
      buildDomTree graph.pruned = .ok alive ∧
      ∀ dom bb, graph.Reachable dom → graph.Reachable bb → ∃ answer,
        tree.isDominator dom bb = .ok answer ∧ alive.isDominator dom bb = .ok answer) ↔
    ∀ bb, (store.cfg function).Reachable bb →
      ∀ pred ∈ store.preds bb, (store.cfg function).Reachable pred := by
  have isGraph : store.makeBBGraph function = .ok (store.cfg function) := makeBBGraph_eq nonempty
  have deadIff := buildDomTree_dead_iff (flowGraph built found nonempty inside)
  rw [isGraph]
  constructor
  · rintro ⟨graph, tree, alive, same, answers⟩
    cases same
    exact deadIff.mp ⟨tree, alive, answers⟩
  · intro reached
    rcases deadIff.mpr reached with ⟨tree, alive, answers⟩
    exact ⟨_, tree, alive, rfl, answers⟩

/-- A dead block that jumps where the entry jumps. -/
def deadJump : List BuildStep :=
  [.newFunction 0 .None [], .appendBB 0, .appendBB 0, .appendBB 0,
    .pushInstBack 0 (.jumpInstr 1), .pushInstBack 1 .ret, .pushInstBack 2 (.jumpInstr 1)]

theorem branchesInside_of_lt (built : store.Built) (small : ∀ pred < store.nextBlock,
    ∀ succ ∈ store.succs pred, (pred ∈ function.bbs ↔ succ ∈ function.bbs)) :
    BranchesInside store function := by
  intro pred succ isSucc
  have present : store.shape.present pred := by
    intro missing
    simp [succs, missing] at isSucc
  exact small pred (built.grown.numbered.apart.allocated pred present) succ isSucc

theorem buildDomTree_dead_blocks_iff_deadJump : ∃ store function,
    deadJump.foldlM BuildStep.apply Store.empty = .ok store ∧
      store.functions 0 = some function ∧
      ((∃ graph tree alive, store.makeBBGraph function = .ok graph ∧
        buildDomTree graph = .ok tree ∧ buildDomTree graph.pruned = .ok alive ∧
        ∀ dom bb, graph.Reachable dom → graph.Reachable bb → ∃ answer,
          tree.isDominator dom bb = .ok answer ∧ alive.isDominator dom bb = .ok answer) ↔
      ∀ bb, (store.cfg function).Reachable bb →
        ∀ pred ∈ store.preds bb, (store.cfg function).Reachable pred) := by
  refine ⟨_, _, rfl, rfl, ?_⟩
  have built : Built _ := ⟨deadJump, rfl⟩
  exact buildDomTree_dead_blocks_iff built (show Store.functions _ 0 = _ from rfl) (by decide)
    (branchesInside_of_lt built (by decide))

/-- The map of the times has no entry for block 2. -/
theorem not_buildDomTree_deadJump : ∃ store function,
    deadJump.foldlM BuildStep.apply Store.empty = .ok store ∧
      store.functions 0 = some function ∧ BranchesInside store function ∧
      ¬ ∃ graph tree alive, store.makeBBGraph function = .ok graph ∧
        buildDomTree graph = .ok tree ∧ buildDomTree graph.pruned = .ok alive ∧
        ∀ dom bb, graph.Reachable dom → graph.Reachable bb → ∃ answer,
          tree.isDominator dom bb = .ok answer ∧ alive.isDominator dom bb = .ok answer := by
  refine ⟨_, _, rfl, rfl, branchesInside_of_lt ⟨deadJump, rfl⟩ (by decide), ?_⟩
  rintro ⟨graph, tree, -, same, built, -, -⟩
  cases same
  cases built

end LeechJit.IR.Store
