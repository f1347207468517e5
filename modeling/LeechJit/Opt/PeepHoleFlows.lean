import LeechJit.IR.Coherence
import LeechJit.Opt.SsaValid

/-! # What executions rely on, after a round

The constants and the branches stay where they are. The amounts of merged shifts are
constants, so that the other values are still defined before they are used.
-/

namespace LeechJit.Opt.PeepHole

open IR Store

variable {store store' : Store} {func : Function} {old id : InstId} {new : Option InstKind}
  {operands : InstId → List InstId}

theorem not_isConst_of_isBinOp (binOp : store.IsBinOp id) : ¬ store.IsConst id := by
  rintro ⟨inst, val, found, isConst⟩
  rcases binOp with ⟨again, oper, foundAgain, kind⟩
  cases Option.some.inj (found.symm.trans foundAgain)
  cases kind.symm.trans isConst

theorem isConst_of_isConstAt (const : isConstAt store id = true) : store.IsConst id := by
  cases found : store.insts id with
  | none => simp [isConstAt, found] at const
  | some inst =>
      simp only [isConstAt, found, Option.any_some, isConst] at const
      split at const
      case h_1 val kind => exact ⟨inst, val, found, kind⟩
      case h_2 => cases const

section Rewriting

variable (flows : store.Flows func)
  (rewritten : store.Rewritten { id | id ∈ store.listed func } old new operands store')
  (oldBinOp : store.IsBinOp old)

include flows rewritten oldBinOp

theorem nonConstants_subset : store'.nonConstants func ⊆ store.nonConstants func := by
  intro id nonConst isConst
  apply nonConst
  rcases isConst with ⟨member, inst, val, found, kind⟩
  have notOld : id ≠ old := by
    rintro rfl
    exact not_isConst_of_isBinOp oldBinOp ⟨inst, val, found, kind⟩
  rcases rewritten.kept id member notOld inst found with ⟨inst', found', bare⟩
  have listed : id ∈ { id | id ∈ store'.listed func } := by
    rw [flows.toHoused.mem_listed rewritten]
    exact .inl ⟨member, notOld⟩
  exact ⟨listed, inst', val, found', (Inst.kind_of_bare bare).trans kind⟩

theorem flows_rewritten (notBranch : ∀ kind, new = some kind → kind.targets = [])
    (defined : store'.UsesDefined func (store.nonConstants func)) : store'.Flows func where
  toHoused := flows.toHoused.rewritten rewritten
  reachable bb bbMem := rewritten.cfg_eq ▸ flows.reachable bb bbMem
  defined := defined.mono (nonConstants_subset flows rewritten oldBinOp)
  branches bb bbMem front' id back' split inst' found' target isTarget := by
    rw [flows.toHoused.instructions_eq rewritten bbMem] at split
    rcases remaining_split split with ⟨front, key, back, splitBefore, rfl, place⟩
    rcases place with ⟨notOld, rfl⟩ | ⟨-, isSome, rfl⟩
    · have member : id ∈ store.listed func :=
        Consistent.mem_listed bbMem (by simp [splitBefore])
      rcases flows.linked.stored id member with ⟨inst, found⟩
      rcases rewritten.kept id member notOld inst found with ⟨again, foundAgain, bare⟩
      cases Option.some.inj (foundAgain.symm.trans found')
      rw [Inst.kind_of_bare bare] at isTarget
      rcases flows.branches bb bbMem front id back splitBefore inst found target isTarget with
        ⟨rfl, edge⟩
      rw [splitBefore, remaining_append, remaining_cons_of_ne notOld] at split
      have ends := (List.cons.inj (List.append_cancel_left split)).2
      have same : store'.cfg func = store.cfg func := rewritten.cfg_eq
      have succs : store'.succs = store.succs := congrArg Graph.succs same
      rw [succs, ← ends]
      exact ⟨remaining_of_not_mem List.not_mem_nil, edge⟩
    · rcases Option.isSome_iff_exists.mp isSome with ⟨kind, isNew⟩
      rcases rewritten.added kind isNew with ⟨again, foundAgain, kindEq, -⟩
      cases Option.some.inj (foundAgain.symm.trans found')
      rw [kindEq, notBranch kind isNew] at isTarget
      cases isTarget

end Rewriting

theorem Swapped.isConst_iff (swapped : Swapped store id store') (key : InstId) :
    store'.IsConst key ↔ store.IsConst key := by
  constructor
  · rintro ⟨inst', val, found', kind⟩
    cases found : store.insts key with
    | none =>
        rw [swapped.relinked.insts_none.mpr found] at found'
        cases found'
    | some inst =>
        cases Option.some.inj ((swapped.relinked.insts found).symm.trans found')
        exact ⟨inst, val, found, kind⟩
  · rintro ⟨inst, val, found, kind⟩
    exact ⟨_, val, swapped.relinked.insts found, kind⟩

theorem Swapped.flows (swapped : Swapped store id store') (flows : store.Flows func)
    (defined : store'.UsesDefined func (store.nonConstants func)) : store'.Flows func where
  toHoused := swapped.housed flows.toHoused
  reachable bb bbMem := swapped.cfg_eq ▸ flows.reachable bb bbMem
  defined := by
    have same : store'.nonConstants func = store.nonConstants func := by
      simp only [nonConstants, swapped.listed_eq, swapped.isConst_iff]
    rwa [same]
  branches bb bbMem front key back split inst' found' target isTarget := by
    rw [swapped.instructions] at split
    have member : key ∈ store.listed func := Consistent.mem_listed bbMem (by simp [split])
    rcases flows.linked.stored key member with ⟨inst, found⟩
    cases Option.some.inj ((swapped.relinked.insts found).symm.trans found')
    have same : store'.cfg func = store.cfg func := swapped.cfg_eq
    have succs : store'.succs = store.succs := congrArg Graph.succs same
    rw [succs]
    exact flows.branches bb bbMem front key back split inst found target isTarget

/-- A round leaves a function that can be executed. -/
theorem flows_fold (flows : store.Flows func) (pending : Pending store func id)
    (result : fold store id = .ok store') : store'.Flows func := by
  have member : id ∈ store.listed func := by
    have round : Pass.peepHole.rewrite store id = .ok store' := result
    exact Pass.mem_listed pending round
  have linked := flows.linked
  have defined : store'.UsesDefined func (store.nonConstants func) := by
    apply usesDefined_fold flows.toHoused flows.defined
      (fun key binOp => binOp.mem_nonConstants) pending result
    intro fstShr rval merges isNeeded
    have fits : Merge.Fits store { key | key ∈ store.listed func } id fstShr rval :=
      fits_of_merges linked member merges
    have rvalMem : rval ∈ store.listed func :=
      linked.inputs id member rval (by simp [fits.inputs])
    exact absurd ⟨rvalMem, isConst_of_isConstAt (isConstAt_of_merges merges)⟩ isNeeded
  rcases fold_cases linked member result with
    ⟨value, -, -, rewritten⟩ | ⟨-, ⟨-, swapped, -⟩ | ⟨fstShr, rval, left, fstShamt, merges, merge⟩⟩
  · apply flows_rewritten flows rewritten (Pass.isBinOp_of_fold result) _ defined
    intro kind isNew
    cases isNew
  · exact swapped.flows flows defined
  · have fits : Merge.Fits store { key | key ∈ store.listed func } id fstShr rval :=
      fits_of_merges linked member merges
    apply flows_rewritten flows (merge.some.rewritten linked fits) fits.fstBinOp _ defined
    intro kind isNew
    cases isNew
    rfl

end LeechJit.Opt.PeepHole
