import LeechJit.IR.Blocks
import LeechJit.IR.Built
import LeechJit.IR.WellFormed

/-! # Edges between blocks

Linking and unlinking two blocks changes both of them, so how much the lists of
predecessors are ahead of those of successors stays the same. What a block leads to
is up to its last instruction whenever its links are brought up to date.
-/

namespace LeechJit.IR.Store

variable {store middle store' : Store} {bb : BlockId}

/-- How much more often `pred` is a predecessor of `succ` than that is its successor. -/
def excess (store : Store) (pred succ : BlockId) : Int :=
  (store.preds succ).count pred - (store.succs pred).count succ

/-- Where the instruction under a key leads to. -/
def targetsOf (store : Store) (id : InstId) : List BlockId :=
  (store.kindOf id).elim [] InstKind.targets

/-- Where the last instruction of a block leads to. -/
def lastTargets (store : Store) (bb : BlockId) : List BlockId :=
  (store.instructions bb).getLast?.elim [] store.targetsOf

theorem succs_eq {block : BasicBlock} (found : store.blocks bb = some block) :
    store.succs bb = block.succ := by
  simp [succs, found]

theorem preds_eq {block : BasicBlock} (found : store.blocks bb = some block) :
    store.preds bb = block.pred := by
  simp [preds, found]

theorem setBlock_succs {block : BasicBlock} (key : BlockId) :
    (store.setBlock bb block).succs key = if key = bb then block.succ else store.succs key := by
  by_cases same : key = bb <;> simp [succs, setBlock, same]

theorem setBlock_preds {block : BasicBlock} (key : BlockId) :
    (store.setBlock bb block).preds key = if key = bb then block.pred else store.preds key := by
  by_cases same : key = bb <;> simp [preds, setBlock, same]

/-! ## Links -/

/-- The links of block `bb` lead to `succs` now. -/
structure Linking (store store' : Store) (bb : BlockId) (succs : List BlockId) : Prop where
  same : SameInsts store store'
  excess : ∀ pred succ, store'.excess pred succ = store.excess pred succ
  succs : ∀ key, store'.succs key = if key = bb then succs else store.succs key

namespace Linking

theorem refl (store : Store) (bb : BlockId) : Linking store store bb (store.succs bb) where
  same := .refl store
  excess _ _ := rfl
  succs key := by
    by_cases same : key = bb <;> simp [same]

theorem trans {succs succs' : List BlockId} (first : Linking store middle bb succs)
    (second : Linking middle store' bb succs') : Linking store store' bb succs' where
  same := first.same.trans second.same
  excess pred succ := (second.excess pred succ).trans (first.excess pred succ)
  succs key := by
    rw [second.succs, first.succs]
    by_cases same : key = bb <;> simp [same]

theorem succs_bb {succs : List BlockId} (linking : Linking store store' bb succs) :
    store'.succs bb = succs := by
  rw [linking.succs, if_pos rfl]

end Linking

/-- Linking adds the edge at the end of both lists. -/
theorem linkBBs_edges {succ : BlockId} (result : store.linkBBs bb succ = .ok store') :
    (∀ key, store'.succs key = if key = bb then store.succs bb ++ [succ] else store.succs key) ∧
      ∀ key, store'.preds key = if key = succ then store.preds succ ++ [bb] else store.preds key := by
  rcases Result.bind_eq_ok.mp result with ⟨block, found, continued⟩
  rcases Result.bind_eq_ok.mp continued with ⟨target, foundTarget, stored⟩
  rw [block_eq_ok] at found foundTarget
  cases stored
  have targetPreds : target.pred = store.preds succ := by
    rw [← preds_eq foundTarget, setBlock_preds]
    by_cases self : succ = bb
    · rw [if_pos self, self, preds_eq found]
    · rw [if_neg self]
  have targetSuccs : target.succ = if succ = bb then store.succs bb ++ [succ]
      else store.succs succ := by
    rw [← succs_eq foundTarget, setBlock_succs, succs_eq found]
  constructor
  · intro key
    rw [setBlock_succs, setBlock_succs, targetSuccs, succs_eq found]
    by_cases isTarget : key = succ
    · rw [if_pos isTarget, isTarget]
    · rw [if_neg isTarget]
  · intro key
    rw [setBlock_preds, setBlock_preds, targetPreds]
    by_cases self : key = bb
    · rw [if_pos self, self, preds_eq found]
    · rw [if_neg self]

theorem linkBBs_linking {succ : BlockId} (result : store.linkBBs bb succ = .ok store') :
    Linking store store' bb (store.succs bb ++ [succ]) := by
  rcases linkBBs_edges result with ⟨succs, preds⟩
  refine ⟨SameInsts.linkBBs result, fun pred key => ?_, succs⟩
  rw [excess, excess, succs, preds]
  by_cases isTarget : key = succ
  · subst isTarget
    by_cases isPred : pred = bb
    · subst isPred
      simp only [if_true, List.count_append, List.count_singleton_self]
      omega
    · have differs : List.count pred [bb] = 0 := List.count_eq_zero.mpr (by simpa using isPred)
      simp [isPred, differs]
  · have differs : List.count key [succ] = 0 :=
      List.count_eq_zero.mpr (by simpa using isTarget)
    rw [if_neg isTarget]
    by_cases isPred : pred = bb
    · simp [isPred, differs]
    · simp [isPred]

/-- Unlinking takes an edge out of both lists, where it has to be. -/
theorem unlinkBBs_edges {succ : BlockId} (result : store.unlinkBBs bb succ = .ok store') :
    bb ∈ store.preds succ ∧ succ ∈ store.succs bb ∧
      (∀ key, store'.succs key = if key = bb then (store.succs bb).erase succ
        else store.succs key) ∧
      ∀ key, store'.preds key = if key = succ then (store.preds succ).erase bb
        else store.preds key := by
  rcases Result.bind_eq_ok.mp result with ⟨target, foundTarget, continued⟩
  rcases Result.bind_eq_ok.mp continued with ⟨⟨⟩, isPred, continued⟩
  rcases Result.bind_eq_ok.mp continued with ⟨block, found, continued⟩
  rcases Result.bind_eq_ok.mp continued with ⟨⟨⟩, isSucc, stored⟩
  rw [block_eq_ok] at found foundTarget
  rw [assert_eq_ok] at isPred isSucc
  cases stored
  have blockSuccs : block.succ = store.succs bb := by
    rw [← succs_eq found, setBlock_succs]
    by_cases self : bb = succ
    · rw [if_pos self, self, succs_eq foundTarget]
    · rw [if_neg self]
  have blockPreds : block.pred = if bb = succ then target.pred.erase bb else store.preds bb := by
    rw [← preds_eq found, setBlock_preds]
  have targetPreds : target.pred = store.preds succ := (preds_eq foundTarget).symm
  refine ⟨targetPreds ▸ isPred, blockSuccs ▸ isSucc, fun key => ?_, fun key => ?_⟩
  · rw [setBlock_succs, setBlock_succs, blockSuccs]
    by_cases isTarget : key = succ
    · rw [isTarget, if_pos rfl, succs_eq foundTarget]
    · rw [if_neg isTarget]
  · rw [setBlock_preds, setBlock_preds, blockPreds, targetPreds]
    by_cases self : key = bb
    · rw [if_pos self, self]
    · rw [if_neg self]

theorem unlinkBBs_linking {succ : BlockId} (result : store.unlinkBBs bb succ = .ok store') :
    Linking store store' bb ((store.succs bb).erase succ) ∧ store.blocks succ ≠ none := by
  rcases unlinkBBs_edges result with ⟨isPred, isSucc, succs, preds⟩
  have present : store.blocks succ ≠ none := by
    intro missing
    simp [Store.preds, missing] at isPred
  refine ⟨⟨SameInsts.unlinkBBs result, fun pred key => ?_, succs⟩, present⟩
  rw [excess, excess, succs, preds]
  by_cases isTarget : key = succ
  · subst isTarget
    by_cases isBlock : pred = bb
    · subst isBlock
      have one := List.count_pos_iff.mpr isPred
      have other := List.count_pos_iff.mpr isSucc
      simp only [if_true, List.count_erase_self]
      omega
    · simp [isBlock, List.count_erase_of_ne isBlock]
  · rw [if_neg isTarget]
    by_cases isBlock : pred = bb
    · subst isBlock
      simp [List.count_erase_of_ne isTarget]
    · simp [isBlock]

/-- The successors are taken away one after the other; each has to exist. -/
theorem unlinkSuccs_linking {slots : List BlockId} {idx rounds : Nat}
    (result : unlinkSuccs bb slots idx rounds store = .ok store') :
    ∃ succs, Linking store store' bb succs ∧
      ∀ succ ∈ store.succs bb, store.blocks succ = none → succ ∈ succs := by
  induction rounds generalizing slots idx store with
  | zero =>
      cases result
      exact ⟨_, .refl _ bb, fun _ member _ => member⟩
  | succ rounds induction =>
      rw [Store.unlinkSuccs] at result
      cases slot : slots[idx]? with
      | none => simp [slot] at result
      | some gone =>
          simp only [slot] at result
          rcases Result.bind_eq_ok.mp result with ⟨next, unlinking, continued⟩
          rcases Result.bind_eq_ok.mp continued with ⟨block, -, later⟩
          rcases unlinkBBs_linking unlinking with ⟨first, present⟩
          rcases induction later with ⟨succs, second, kept⟩
          refine ⟨succs, first.trans second, fun succ member missing => ?_⟩
          have different : succ ≠ gone := by
            rintro rfl
            exact present missing
          apply kept succ
          · rw [first.succs_bb]
            exact (List.mem_erase_of_ne different).mpr member
          · exact (first.same.blocks succ).mpr missing

theorem kindOf_sameInsts (same : SameInsts store store') (id : InstId) :
    store'.kindOf id = store.kindOf id := by
  rw [kindOf, kindOf, same.insts]

theorem targetsOf_sameInsts (same : SameInsts store store') (id : InstId) :
    store'.targetsOf id = store.targetsOf id := by
  rw [targetsOf, targetsOf, kindOf_sameInsts same]

theorem linkLast_linking {last : InstId} (result : store.linkLast bb last = .ok store') :
    Linking store store' bb (store.succs bb ++ store.targetsOf last) := by
  rcases Result.bind_eq_ok.mp result with ⟨inst, found, linking⟩
  rw [inst_eq_ok] at found
  have targets : store.targetsOf last = inst.kind.targets := by
    rw [targetsOf, kindOf_eq found, Option.elim_some]
  rw [targets]
  rcases inst with ⟨type, kind, users, home, inputs⟩
  cases kind with
  | kIf trueBB falseBB =>
      rcases Result.bind_eq_ok.mp linking with ⟨middle, first, second⟩
      have one := linkBBs_linking first
      have two := linkBBs_linking second
      rw [one.succs_bb, List.append_assoc] at two
      exact one.trans two
  | kJump target => exact linkBBs_linking linking
  | _ =>
      cases linking
      simpa [InstKind.targets] using Linking.refl _ bb

/-- The links of a block lead where its last instruction says. -/
theorem updateLinks_linking (result : store.updateLinks bb = .ok store') :
    Linking store store' bb (store.lastTargets bb) ∧
      ∀ succ ∈ store.succs bb, store.blocks succ ≠ none := by
  rcases Result.bind_eq_ok.mp result with ⟨block, found, continued⟩
  rcases Result.bind_eq_ok.mp continued with ⟨middle, unlinking, continued⟩
  rcases Result.bind_eq_ok.mp continued with ⟨emptied, foundEmptied, continued⟩
  rcases Result.bind_eq_ok.mp continued with ⟨⟨⟩, empty, linking⟩
  rw [block_eq_ok] at found foundEmptied
  rw [assert_eq_ok] at empty
  rcases unlinkSuccs_linking unlinking with ⟨succs, first, kept⟩
  have none : succs = [] := by
    rw [← first.succs_bb, succs_eq foundEmptied, empty]
  subst none
  have instructions : emptied.instructions = store.instructions bb := by
    rw [← first.same.instructions, instructions_eq foundEmptied]
  constructor
  · rw [instructions] at linking
    rw [lastTargets]
    cases last : (store.instructions bb).getLast? with
    | none =>
        rw [last] at linking
        cases linking
        exact first
    | some id =>
        rw [last] at linking
        have second := linkLast_linking linking
        rw [first.succs_bb, List.nil_append, targetsOf_sameInsts first.same] at second
        exact first.trans second
  · intro succ member missing
    exact absurd (kept succ member missing) (List.not_mem_nil)

end LeechJit.IR.Store
