import LeechJit.Foundation.StepRuns
import LeechJit.IR.Homes
import LeechJit.Opt.Passes

/-! # Instructions know their block

Moving and erasing instructions keeps `getBB` right; an instruction that replaces
another one gets no block, and the passes replace instructions.
-/

namespace LeechJit.Opt

open IR Store

variable {store store' : Store} {id : InstId}

/-! ## One round of a pass -/

theorem ConstantFolding.foldInst_taken (result : foldInst store id = .ok store') :
    Taken store id true store' ∧ ∃ bb, store.homeOf id = some (some bb) := by
  rcases Result.bind_eq_ok.mp result with ⟨val, -, continued⟩
  rcases Result.bind_eq_ok.mp continued with ⟨inst, found, continued⟩
  rcases Result.bind_eq_ok.mp continued with ⟨cleared, clearing, continued⟩
  rcases Result.bind_eq_ok.mp continued with ⟨bb, home, replacing⟩
  have created := (created_newInst store { type := val.type, kind := .kConst val } rfl).trans
    (.of_relinked (clearInputs_eq_ok' clearing).1)
  refine ⟨replaceInst_taken created replacing, bb, ?_⟩
  rw [homeOf_eq (inst_eq_ok.mp found)]
  cases at' : inst.bb <;> simp [Inst.getBB, at'] at home ⊢
  exact home

theorem Merge.taken {fstShr rval left fstShamt : InstId}
    (merge : Merge store id fstShr rval left fstShamt store') :
    Taken store fstShr true store' ∧ ∃ bb, store.homeOf fstShr = some (some bb) := by
  rcases construct_created merge.building with ⟨-, created⟩
  rcases setInput_eq_ok merge.moving with ⟨-, -, moved, -⟩
  rcases setInput_eq_ok merge.settling with ⟨-, -, settled, -⟩
  have cleared := (clearInputs_eq_ok' merge.clearing).1
  have all := created.trans (.of_relinked ((moved.trans settled).trans cleared))
  refine ⟨replaceInst_taken all merge.replacing, merge.bb, ?_⟩
  rw [homeOf_eq merge.fstAt, merge.home]

namespace PeepHole

theorem takeOver_taken {value : InstId} (result : takeOver store value id = .ok store') :
    Taken store id false store' ∧ ∃ bb, store.homeOf id = some (some bb) := by
  rcases Result.bind_eq_ok.mp result with ⟨moved, moving, removing⟩
  rcases removeInst_eq_ok removing with ⟨cleared, inst, bb, clearing, found, home, erasing⟩
  have same : SameHomes store cleared := (SameHomes.of_relinked (SameHomes.setUsersFrom moving)).trans
    (.of_relinked (clearInputs_eq_ok' clearing).1)
  refine ⟨.of_same same (eraseInst_taken erasing), bb, ?_⟩
  rw [← same.homes, homeOf_eq found, home]

theorem moveConst_relinked (result : moveConst store id = .ok store') : Relinked store store' := by
  rcases Result.bind_eq_ok.mp result with ⟨binop, -, continued⟩
  rcases Result.bind_eq_ok.mp continued with ⟨left, -, continued⟩
  rcases Result.bind_eq_ok.mp continued with ⟨lhs, -, continued⟩
  rcases Result.bind_eq_ok.mp continued with ⟨right, -, continued⟩
  rcases Result.bind_eq_ok.mp continued with ⟨rhs, -, swapping⟩
  split_ifs at swapping
  · rcases swapInputs_eq_ok swapping with ⟨-, -, -, -, relinked, -⟩
    exact relinked
  · cases swapping
    exact .refl _

theorem doAdd_homes (result : doAdd store id = .ok store') :
    store' = store ∨ ∃ value, takeOver store value id = .ok store' := by
  rcases Result.bind_eq_ok.mp result with ⟨inst, found, continued⟩
  rcases Result.bind_eq_ok.mp continued with ⟨lhs, isLhs, continued⟩
  rcases Result.bind_eq_ok.mp continued with ⟨rhs, isRhs, -⟩
  rcases doAdd_cases (inst_eq_ok.mp found) (inputAt_eq_ok.mp isLhs) (inputAt_eq_ok.mp isRhs)
    result with ⟨-, taking⟩ | ⟨-, same⟩
  · exact .inr ⟨lhs, taking⟩
  · exact .inl same

theorem doOr_homes (result : doOr store id = .ok store') :
    store' = store ∨ ∃ value, takeOver store value id = .ok store' := by
  rcases Result.bind_eq_ok.mp result with ⟨inst, found, continued⟩
  rcases Result.bind_eq_ok.mp continued with ⟨lhs, isLhs, continued⟩
  rcases Result.bind_eq_ok.mp continued with ⟨rhs, isRhs, -⟩
  rcases doOr_cases (inst_eq_ok.mp found) (inputAt_eq_ok.mp isLhs) (inputAt_eq_ok.mp isRhs)
    result with ⟨-, taking⟩ | ⟨-, -, taking⟩ | ⟨-, -, same⟩
  · exact .inr ⟨lhs, taking⟩
  · exact .inr ⟨rhs, taking⟩
  · exact .inl same

theorem doShr_homes {inst : Inst} (stored : store.insts id = some inst)
    (kind : inst.kind = .kBinOp .kShr) (used : inst.users ≠ [])
    (result : doShr store id = .ok store') :
    (merges store id = none ∧ (store' = store ∨ ∃ value, takeOver store value id = .ok store')) ∨
      ∃ fstShr rval left fstShamt, merges store id = some (fstShr, rval) ∧
        Nonempty (Merge store id fstShr rval left fstShamt store') := by
  rcases Result.bind_eq_ok.mp result with ⟨again, found, continued⟩
  cases Option.some.inj ((inst_eq_ok.mp found).symm.trans stored)
  rcases Result.bind_eq_ok.mp continued with ⟨lhs, isLhs, continued⟩
  rcases Result.bind_eq_ok.mp continued with ⟨rhs, isRhs, -⟩
  rw [inputAt_eq_ok] at isLhs isRhs
  rw [merges_eq stored isLhs isRhs]
  rcases doShr_cases stored isLhs isRhs result with
    ⟨isZero, taking⟩ | ⟨-, ⟨apart, same⟩ | ⟨merge, left, fstShamt, merged⟩⟩
  · left
    refine ⟨?_, .inr ⟨lhs, taking⟩⟩
    simp [shiftsMerge, isZero]
  · left
    refine ⟨?_, .inl same⟩
    simp [apart]
  · right
    refine ⟨lhs, rhs, left, fstShamt, ?_, merged⟩
    simp [kind, used, merge]

/-- A round does nothing to the lists, erases the candidate, or merges two shifts. -/
theorem fold_homes (result : fold store id = .ok store') :
    (merges store id = none ∧ (SameHomes store store' ∨
      (Taken store id false store' ∧ ∃ bb, store.homeOf id = some (some bb)))) ∨
    ∃ fstShr rval, merges store id = some (fstShr, rval) ∧
      Taken store fstShr true store' ∧ ∃ bb, store.homeOf fstShr = some (some bb) := by
  rcases Result.bind_eq_ok.mp result with ⟨⟨type, kind, users, bb, inputs⟩, found, folding⟩
  rw [inst_eq_ok] at found
  cases kind with
  | kBinOp oper =>
      rcases Result.bind_eq_ok.mp folding with ⟨again, foundAgain, rules⟩
      cases Option.some.inj ((inst_eq_ok.mp foundAgain).symm.trans found)
      have notShr : oper ≠ .kShr → merges store id = none := by
        intro other
        cases merging : merges store id with
        | none => rfl
        | some shifts =>
            rcases merges_eq_some merging with ⟨inst, stored, kind, -⟩
            cases Option.some.inj (stored.symm.trans found)
            cases kind
            exact absurd rfl other
      cases users with
      | nil =>
          cases rules
          refine .inl ⟨?_, .inl (.refl _)⟩
          simp [merges, found]
      | cons user rest =>
          simp only [reduceCtorEq, if_false] at rules
          have rule : ∀ middle, SameHomes store middle →
              (store' = middle ∨ ∃ value, takeOver middle value id = .ok store') →
              SameHomes store store' ∨
                (Taken store id false store' ∧ ∃ bb, store.homeOf id = some (some bb)) := by
            rintro middle same (rfl | ⟨value, taking⟩)
            · exact .inl same
            · rcases takeOver_taken taking with ⟨taken, bb, home⟩
              exact .inr ⟨.of_same same taken, bb, same.homes id ▸ home⟩
          cases oper with
          | kAdd =>
              rcases Result.bind_eq_ok.mp rules with ⟨middle, moving, adding⟩
              exact .inl ⟨notShr (by simp),
                rule middle (.of_relinked (moveConst_relinked moving)) (doAdd_homes adding)⟩
          | kOr =>
              rcases Result.bind_eq_ok.mp rules with ⟨middle, moving, oring⟩
              exact .inl ⟨notShr (by simp),
                rule middle (.of_relinked (moveConst_relinked moving)) (doOr_homes oring)⟩
          | kShr =>
              rcases doShr_homes found rfl (by simp) rules with
                ⟨apart, effect⟩ | ⟨fstShr, rval, left, fstShamt, merging, merge⟩
              · exact .inl ⟨apart, rule store (.refl _) effect⟩
              · exact .inr ⟨fstShr, rval, merging, merge.some.taken⟩
          | kSub | kMul | kLE | kEQ | kDiv | kBoundsCheck =>
              cases rules
              exact .inl ⟨notShr (by simp), .inl (.refl _)⟩
  | _ => cases folding

end PeepHole

/-! ## A whole run -/

namespace Pass

variable {pass : Pass} {candidates : List InstId}

/-- What has no block keeps having none. -/
theorem homeless (allocated : store.Allocated) (homeless : store.Homeless)
    (result : pass.rewrite store id = .ok store') : store'.Homeless := by
  cases pass with
  | constantFolding =>
      rcases ConstantFolding.foldInst_taken result with ⟨taken, atHome⟩
      exact taken.homeless_stays allocated atHome homeless
  | peepHole =>
      rcases PeepHole.fold_homes result with ⟨-, same | ⟨taken, atHome⟩⟩ | ⟨_, _, -, taken, atHome⟩
      · exact same.homeless homeless
      · exact taken.homeless_stays allocated atHome homeless
      · exact taken.homeless_stays allocated atHome homeless

theorem allocated (allocated : store.Allocated) (result : pass.rewrite store id = .ok store') :
    store'.Allocated := by
  cases pass with
  | constantFolding => exact (ConstantFolding.foldInst_taken result).1.allocated allocated
  | peepHole =>
      rcases PeepHole.fold_homes result with ⟨-, same | ⟨taken, -⟩⟩ | ⟨_, _, -, taken, -⟩
      · exact same.allocated allocated
      · exact taken.allocated allocated
      · exact taken.allocated allocated

theorem homeless_rounds (allocated : store.Allocated) (homeless : store.Homeless)
    (result : candidates.foldlM pass.rewrite store = .ok store') : store'.Homeless := by
  have both : store'.Allocated ∧ store'.Homeless := by
    apply StepRuns.keeps_run (fun store => store.Allocated ∧ store.Homeless) _
      ⟨allocated, homeless⟩ result
    intro before id _ after holds round
    exact ⟨Pass.allocated holds.1 round, Pass.homeless holds.1 holds.2 round⟩
  exact both.2

end Pass

/-- Folding nothing is what keeps `getBB` right. -/
theorem ConstantFolding.run_settled_iff {func : Function} (settled : store.Settled)
    (result : run store func = .ok store') :
    ((∀ bb ∈ (store.cfg func).depthFirstSearchReversePostOrder,
        ∀ key ∈ store.instructions bb, foldable store key ≠ .ok true) → store'.Settled) ∧
      (store'.KnowsBlocks → ∀ bb ∈ (store.cfg func).depthFirstSearchReversePostOrder,
        ∀ key ∈ store.instructions bb, foldable store key ≠ .ok true) := by
  rcases Result.bind_eq_ok.mp result with ⟨toFold, finding, folding⟩
  rcases Result.bind_eq_ok.mp finding with ⟨graph, making, collecting⟩
  have isCfg : graph = store.cfg func := by
    have nonempty : func.bbs ≠ [] := by
      intro isNil
      simp [makeBBGraph, isNil] at making
    rw [makeBBGraph_eq nonempty] at making
    exact (Except.ok.inj making).symm
  subst isCfg
  rcases collect_eq_ok collecting with ⟨rfl, -⟩
  constructor
  · intro none
    have empty : ((store.cfg func).depthFirstSearchReversePostOrder.flatMap
        store.instructions).filter (fun key => answer (foldable store key)) = [] := by
      rw [List.filter_eq_nil_iff]
      intro key member
      rcases List.mem_flatMap.mp member with ⟨bb, bbMem, inBlock⟩
      have notTrue := none bb bbMem key inBlock
      cases decided : foldable store key with
      | ok holds => cases holds <;> simp_all [answer]
      | error fault => simp [answer]
    rw [empty] at folding
    cases folding
    exact settled
  · intro knows bb bbMem key inBlock isTrue
    have member : key ∈ ((store.cfg func).depthFirstSearchReversePostOrder.flatMap
        store.instructions).filter (fun key => answer (foldable store key)) := by
      rw [List.mem_filter, isTrue]
      exact ⟨List.mem_flatMap.mpr ⟨bb, bbMem, inBlock⟩, rfl⟩
    rcases shape : ((store.cfg func).depthFirstSearchReversePostOrder.flatMap
        store.instructions).filter (fun key => answer (foldable store key)) with _ | ⟨first, rest⟩
    · rw [shape] at member
      cases member
    · rw [shape, List.foldlM_cons] at folding
      rcases Result.bind_eq_ok.mp folding with ⟨next, round, later⟩
      rcases foldInst_taken round with ⟨taken, bb, home⟩
      have homeless := taken.homeless settled.allocated (by simp [home])
      have allocated := taken.allocated settled.allocated
      have rounds : rest.foldlM Pass.constantFolding.rewrite next = .ok store' := later
      exact (Pass.homeless_rounds allocated homeless rounds).not_knowsBlocks knows

theorem PeepHole.rounds_settled_iff {candidates : List InstId} (settled : store.Settled)
    (result : candidates.foldlM fold store = .ok store') :
    ((∀ round ∈ Opt.rounds fold candidates store, merges round.1 round.2 = none) →
        store'.Settled) ∧
      (store'.KnowsBlocks →
        ∀ round ∈ Opt.rounds fold candidates store, merges round.1 round.2 = none) := by
  induction candidates generalizing store with
  | nil =>
      cases result
      exact ⟨fun _ => settled, by simp [rounds]⟩
  | cons id rest induction =>
      rw [List.foldlM_cons] at result
      rcases Result.bind_eq_ok.mp result with ⟨next, first, later⟩
      simp only [rounds, first, List.forall_mem_cons]
      rcases fold_homes first with ⟨apart, effect⟩ | ⟨fstShr, rval, merging, taken, bb, home⟩
      · have settledNext : next.Settled := by
          rcases effect with same | ⟨taken, -⟩
          · exact same.settled settled
          · exact taken.settled settled
        have both := induction settledNext later
        exact ⟨fun all => both.1 all.2, fun knows => ⟨apart, both.2 knows⟩⟩
      · constructor
        · rintro ⟨apart, -⟩
          cases merging.symm.trans apart
        · intro knows
          have homeless := taken.homeless settled.allocated (by simp [home])
          have allocated := taken.allocated settled.allocated
          have rounds : rest.foldlM Pass.peepHole.rewrite next = .ok store' := later
          exact absurd knows (Pass.homeless_rounds allocated homeless rounds).not_knowsBlocks

/-! ## Editing -/

/-- A step of editing; `replaceInst` gets a new instruction. -/
inductive EditStep where
  | build (step : BuildStep)
  | splice (bb : BlockId) (pos : Option InstId) (other : BlockId) (first last : Option InstId)
  | spliceAll (bb : BlockId) (pos : Option InstId) (other : BlockId)
  | replaceInst (bb : BlockId) (old : InstId) (new : Construct)
  | replaceInstEmplace (bb : BlockId) (old : InstId) (new : Construct)
  | eraseInst (bb : BlockId) (id : InstId)
  | constantFolding (func : FuncId)
  | peepHole (func : FuncId)
  deriving DecidableEq, Repr

namespace EditStep

def apply (store : Store) : EditStep → Result Store
  | build step => step.apply store
  | splice bb pos other first last => store.splice bb pos other first last
  | spliceAll bb pos other => store.spliceAll bb pos other
  | replaceInst bb old new => do
      let (newInst, store) ← store.construct new
      store.replaceInst bb old newInst
  | replaceInstEmplace bb old new => store.replaceInstEmplace bb old new
  | eraseInst bb id => store.eraseInst bb id
  | constantFolding func => do
      let function ← store.function func
      ConstantFolding.run store function
  | peepHole func => do
      let function ← store.function func
      PeepHole.run store function

/-- The step puts no new instruction in the place of another. -/
def KeepsBlocks (store : Store) : EditStep → Prop
  | build _ | splice _ _ _ _ _ | spliceAll _ _ _ | eraseInst _ _ => True
  | replaceInst _ _ _ | replaceInstEmplace _ _ _ => False
  | constantFolding func => ∀ function, store.functions func = some function →
      ∀ bb ∈ (store.cfg function).depthFirstSearchReversePostOrder,
        ∀ id ∈ store.instructions bb, ConstantFolding.foldable store id ≠ .ok true
  | peepHole func => ∀ function, store.functions func = some function →
      ∀ round ∈ Pass.peepHole.rounds store function, PeepHole.merges round.store round.id = none

variable {step : EditStep}

theorem settled_iff (settled : store.Settled) (result : step.apply store = .ok store') :
    (step.KeepsBlocks store → store'.Settled) ∧ (store'.KnowsBlocks → step.KeepsBlocks store) := by
  cases step with
  | build step => exact ⟨fun _ => BuildStep.settled settled result, fun _ => trivial⟩
  | splice bb pos other first last =>
      exact ⟨fun _ => splice_settled settled result, fun _ => trivial⟩
  | spliceAll bb pos other =>
      rcases Result.bind_eq_ok.mp result with ⟨source, -, splicing⟩
      exact ⟨fun _ => splice_settled settled splicing, fun _ => trivial⟩
  | eraseInst bb id =>
      exact ⟨fun _ => (eraseInst_taken result).settled settled, fun _ => trivial⟩
  | replaceInst bb old new =>
      rcases Result.bind_eq_ok.mp result with ⟨⟨newInst, made⟩, making, replacing⟩
      rcases construct_created making with ⟨rfl, created⟩
      have taken := replaceInst_taken created replacing
      refine ⟨False.elim, fun knows => ?_⟩
      exact (taken.homeless_of_settled settled).not_knowsBlocks knows
  | replaceInstEmplace bb old new =>
      refine ⟨False.elim, fun knows => ?_⟩
      rcases Result.bind_eq_ok.mp result with ⟨block, found, continued⟩
      rcases Result.bind_eq_ok.mp continued with ⟨erased, erasing, -⟩
      rcases eraseInst_eq_ok erasing with ⟨again, foundAgain, inBlock, -⟩
      have stored : store.homeOf old ≠ none := by
        rw [settled.knows bb old (instructions_eq foundAgain ▸ inBlock)]
        simp
      have taken := replaceInstEmplace_taken settled.allocated stored result
      exact (taken.homeless settled.allocated stored).not_knowsBlocks knows
  | constantFolding func =>
      rcases Result.bind_eq_ok.mp result with ⟨function, found, running⟩
      have isFunction := function_eq_ok.mp found
      have both := ConstantFolding.run_settled_iff settled running
      constructor
      · intro keeps
        exact both.1 (keeps function isFunction)
      · intro knows other otherFound
        cases Option.some.inj (isFunction.symm.trans otherFound)
        exact both.2 knows
  | peepHole func =>
      rcases Result.bind_eq_ok.mp result with ⟨function, found, running⟩
      have isFunction := function_eq_ok.mp found
      rcases Result.bind_eq_ok.mp running with ⟨candidates, collected, folding⟩
      have collecting : Pass.peepHole.candidates store function = .ok candidates := collected
      have both := PeepHole.rounds_settled_iff settled folding
      have rounds : ∀ other, store.functions func = some other →
          Pass.peepHole.rounds store other =
            (Opt.rounds PeepHole.fold candidates store).map fun round =>
              ⟨.peepHole, round.1, round.2⟩ := by
        intro other otherFound
        cases Option.some.inj (isFunction.symm.trans otherFound)
        simp only [Pass.rounds, collecting]
        rfl
      constructor
      · intro keeps
        apply both.1
        have all := keeps function isFunction
        rwa [rounds function isFunction, List.forall_mem_map] at all
      · intro knows other otherFound
        rw [rounds other otherFound, List.forall_mem_map]
        exact both.2 knows

end EditStep

/-- In a function that has been built and is edited, instructions know their blocks after
each step exactly when no step puts a new instruction in the place of another. -/
theorem knowsBlocks_iff_keeps {steps : List EditStep} (built : store.Built) :
    (∀ front back after, steps = front ++ back → front.foldlM EditStep.apply store = .ok after →
        after.KnowsBlocks) ↔
      ∀ front step back before after, steps = front ++ step :: back →
        front.foldlM EditStep.apply store = .ok before → step.apply before = .ok after →
        step.KeepsBlocks before := by
  apply StepRuns.throughout_iff_eachStep
  case invariant => exact Store.Settled
  case implies => exact fun store settled => settled.knows
  case keeps =>
    exact fun store step after settled result => (EditStep.settled_iff settled result).1
  case needs =>
    exact fun store step after settled result => (EditStep.settled_iff settled result).2
  case start => exact built.settled

/-- The steps that build one block, which adds two constants. -/
def addition : List BuildStep :=
  [.newFunction 0 .I64 [], .appendBB 0, .pushInstBack 0 (.constVal (.I64 2)),
    .pushInstBack 0 (.constVal (.I64 3)), .pushInstBack 0 (.binOp .kAdd 0 1),
    .pushInstBack 0 (.retVal 2)]

theorem knowsBlocks_iff_keeps_addition :
    ∃ store, store.Built ∧
      ((∀ front back after, [EditStep.peepHole 0, .eraseInst 0 3] = front ++ back →
          front.foldlM EditStep.apply store = .ok after → after.KnowsBlocks) ↔
        ∀ front step back before after,
          [EditStep.peepHole 0, .eraseInst 0 3] = front ++ step :: back →
          front.foldlM EditStep.apply store = .ok before → step.apply before = .ok after →
          step.KeepsBlocks before) :=
  ⟨_, ⟨addition, rfl⟩, knowsBlocks_iff_keeps ⟨addition, rfl⟩⟩

/-- The constant that replaces the sum has no block. -/
theorem not_knowsBlocks_folded :
    ∃ store store' const, store.Built ∧ (EditStep.constantFolding 0).apply store = .ok store' ∧
      store'.instructions 0 = [0, 1, 4, 3] ∧ store'.insts 4 = some const ∧ const.bb = none ∧
      ¬ store'.KnowsBlocks := by
  refine ⟨_, _, _, ⟨addition, rfl⟩, rfl, by decide, rfl, rfl, ?_⟩
  intro knows
  cases knows 0 4 (by decide)

end LeechJit.Opt
