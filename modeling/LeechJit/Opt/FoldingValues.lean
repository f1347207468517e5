import LeechJit.IR.Check
import LeechJit.Opt.FoldingRun

/-! # When constant folding keeps its promise

Folding evaluates `kLE` with the strict comparison, so it puts the wrong
constant in place of a comparison of equal operands, and only there.
-/

namespace LeechJit.Opt.ConstantFolding

open IR

/-- A binary operation on two constants. -/
def HasConstOperands (store : Store) (id : InstId) (oper : BinOp.Oper)
    (left right : ConstVal) : Prop :=
  ∃ inst lhs rhs, store.insts id = some inst ∧ inst.kind = .kBinOp oper ∧
    inst.inputs = [lhs, rhs] ∧ constAt store lhs = some left ∧
    constAt store rhs = some right

/-- Every operation on constants is replaced by its value, at its place and in
the operands of its users; what was not foldable stays but for such operands. -/
structure FoldsRight (before : Store) (func : Function) (image : InstId → InstId)
    (after : Store) : Prop where
  placed : ∀ bb ∈ func.bbs, after.instructions bb = (before.instructions bb).map image
  values : ∀ id ∈ before.listed func, ∀ oper left right,
    HasConstOperands before id oper left right → left.type = right.type →
    ∃ value inst, operatorValue oper left right = some value ∧
      after.insts (image id) = some inst ∧ inst.kind = .kConst value ∧
      inst.type = left.type
  others : ∀ id ∈ before.listed func, foldable before id = .ok false →
    image id = id ∧ ∀ inst, before.insts id = some inst → ∃ users,
      after.insts id = some { inst with inputs := inst.inputs.map image, users := users }

variable {before after : Store} {func : Function} {image : InstId → InstId}
  {done : List InstId}

theorem HasConstOperands.foldable {id : InstId} {oper : BinOp.Oper} {left right : ConstVal}
    (operands : HasConstOperands before id oper left right) :
    foldable before id = .ok true ∧ fold before id = binEval oper left right := by
  rcases operands with ⟨inst, lhs, rhs, stored, kind, inputs, leftConst, rightConst⟩
  have found : ∀ input val, constAt before input = some val →
      before.tryRetrieveConst input = .ok (some val) := by
    intro input val isConst
    rcases Result.bind_eq_ok.mp (getConst_eq_ok.mpr isConst) with ⟨result, retrieved, -⟩
    rw [retrieved, tryRetrieveConst_eq_ok retrieved, isConst]
  constructor
  · simp [ConstantFolding.foldable, Store.inst, stored, kind, inputs, Inst.inputAt,
      found lhs left leftConst, found rhs right rightConst]
  · simp [ConstantFolding.fold, Store.inst, stored, kind, inputs, Inst.inputAt,
      getConst_eq_ok.mpr leftConst, getConst_eq_ok.mpr rightConst]

theorem Folding.foldsRight (folding : Folding before func image done after)
    (decided : ∀ id ∈ before.listed func, (id ∈ done ∧ foldable before id = .ok true) ∨
      (id ∉ done ∧ foldable before id = .ok false))
    (noEqual : ∀ id ∈ before.listed func, ∀ left right,
      HasConstOperands before id .kLE left right → left ≠ right) :
    FoldsRight before func image after where
  placed bb member := by
    rcases folding.blocks bb member with ⟨block, originalAt, currentAt⟩
    rw [Store.instructions_eq originalAt, Store.instructions_eq currentAt]
  values id member oper left right operands sameType := by
    rcases decided id member with ⟨isDone, -⟩ | ⟨-, notFoldable⟩
    · rcases folding.folded id isDone with ⟨val, users, folded, stored⟩
      rw [operands.foldable.2] at folded
      have rightValue : operatorValue oper left right = some val := by
        rw [binEval_eq_ok folded]
        rintro ⟨rfl, equal⟩
        exact noEqual id member left right operands equal
      have types := binEval_type folded
      exact ⟨val, _, rightValue, stored, rfl, types.2.trans types.1.symm⟩
    · rw [operands.foldable.1] at notFoldable
      cases notFoldable
  others id member notFoldable := by
    rcases decided id member with ⟨-, isFoldable⟩ | ⟨notDone, -⟩
    · rw [isFoldable] at notFoldable
      cases notFoldable
    · refine ⟨folding.imageKept id notDone, fun inst found => ?_⟩
      rcases folding.kept id member notDone inst found with ⟨users, stored, -⟩
      exact ⟨users, stored⟩

theorem Folding.not_foldsRight (folding : Folding before func image done after)
    (decided : ∀ id ∈ before.listed func, (id ∈ done ∧ foldable before id = .ok true) ∨
      (id ∉ done ∧ foldable before id = .ok false))
    {id : InstId} (member : id ∈ before.listed func) {val : ConstVal}
    (operands : HasConstOperands before id .kLE val val) {image' : InstId → InstId}
    (foldsRight : FoldsRight before func image' after) : False := by
  rcases List.mem_flatMap.mp member with ⟨bb, bbMem, inBlock⟩
  have sameImage : image' id = image id := by
    rcases folding.blocks bb bbMem with ⟨block, originalAt, currentAt⟩
    have placed := foldsRight.placed bb bbMem
    rw [Store.instructions_eq originalAt, Store.instructions_eq currentAt] at placed
    rw [Store.instructions_eq originalAt] at inBlock
    exact (List.map_inj_left.mp placed id inBlock).symm
  rcases decided id member with ⟨isDone, -⟩ | ⟨-, notFoldable⟩
  · rcases folding.folded id isDone with ⟨result, users, folded, stored⟩
    rw [operands.foldable.2] at folded
    rcases foldsRight.values id member .kLE val val operands rfl with
      ⟨value, inst, rightValue, storedValue, kind, -⟩
    rw [sameImage, stored] at storedValue
    cases Option.some.inj storedValue
    cases kind
    exact (binEval_eq_ok folded).mp rightValue ⟨rfl, rfl⟩
  · rw [operands.foldable.1] at notFoldable
    cases notFoldable

/-- A run that returns folds every operation to its value exactly when no
less-or-equal comparison of two equal constants is folded. -/
theorem folds_right_iff (consistent : before.Consistent func)
    (returns : run before func = .ok after) :
    (∃ image, FoldsRight before func image after) ↔
      ∀ id ∈ before.listed func, ∀ left right,
        HasConstOperands before id .kLE left right → left ≠ right := by
  rcases run_folding consistent returns with ⟨image, done, folding, decided⟩
  constructor
  · rintro ⟨image', foldsRight⟩ id member left right operands rfl
    exact folding.not_foldsRight decided member operands foldsRight
  · intro noEqual
    exact ⟨image, folding.foldsRight decided noEqual⟩

/-- One block that compares two constants and returns the answer. -/
def comparison (left right : BitVec 64) : Store :=
  .ofTables
    [{ type := .I64, kind := .kConst (.I64 left), users := [2], bb := some 0 },
      { type := .I64, kind := .kConst (.I64 right), users := [2], bb := some 0 },
      { type := .I64, kind := .kBinOp .kLE, users := [3], bb := some 0, inputs := [0, 1] },
      { kind := .kRet, bb := some 0, inputs := [2] }]
    [{ instructions := [0, 1, 2, 3] }] []

def oneBlock : Function :=
  { bbs := [0], resType := .I64 }

theorem comparison_wellFormed (left right : BitVec 64) :
    (comparison left right).WellFormed oneBlock :=
  Store.checkWellFormed_sound rfl

theorem folds_right_iff_less :
    ∃ after, run (comparison 3 5) oneBlock = .ok after ∧
      ((∃ image, FoldsRight (comparison 3 5) oneBlock image after) ↔
        ∀ id ∈ (comparison 3 5).listed oneBlock, ∀ left right,
          HasConstOperands (comparison 3 5) id .kLE left right → left ≠ right) :=
  ⟨_, rfl, folds_right_iff (comparison_wellFormed 3 5).toConsistent rfl⟩

/-- `5 <= 5` is folded to 0. -/
theorem not_folds_right_equal :
    (comparison 5 5).WellFormed oneBlock ∧
      ∃ after, run (comparison 5 5) oneBlock = .ok after ∧
        ¬ ∃ image, FoldsRight (comparison 5 5) oneBlock image after := by
  have wellFormed := comparison_wellFormed 5 5
  refine ⟨wellFormed, _, rfl, ?_⟩
  rintro ⟨image', foldsRight⟩
  rcases run_folding wellFormed.toConsistent rfl with ⟨image, done, folding, decided⟩
  have operands : HasConstOperands (comparison 5 5) 2 .kLE (.I64 5) (.I64 5) :=
    ⟨_, 0, 1, rfl, rfl, rfl, rfl, rfl⟩
  exact folding.not_foldsRight decided (by decide) operands foldsRight

end LeechJit.Opt.ConstantFolding
