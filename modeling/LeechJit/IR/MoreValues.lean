import Mathlib.Data.List.Forall2
import LeechJit.IR.Execution

/-! # Executions with more values

What an instruction does when some operands have no value it does with these values as well.
-/

namespace LeechJit.IR

/-- The one value, where there is one, is the other value. -/
def Gives (val val' : Option ConstVal) : Prop :=
  ∀ held, val = some held → val' = some held

theorem Gives.refl (val : Option ConstVal) : Gives val val := fun _ isHeld => isHeld

theorem Gives.of_none {val : Option ConstVal} : Gives none val := fun _ isHeld => by cases isHeld

namespace Meaning

variable {World : Type} {meaning : Meaning World} {args args' : List ConstVal} {type : ValueType}
  {kind : InstKind} {operands operands' : List (Option ConstVal)} {world : World}
  {action : Action World} {idx : Nat} {held : ConstVal}

theorem operand_gives (more : List.Forall₂ Gives operands operands')
    (isHeld : operand operands idx = some held) : operand operands' idx = some held := by
  induction more generalizing idx with
  | nil => exact isHeld
  | cons head _ induction =>
      cases idx with
      | zero =>
          simp only [operand, List.getElem?_cons_zero, Option.join_some] at isHeld ⊢
          exact head held isHeld
      | succ idx => exact induction isHeld

theorem mapM_gives {vals : List ConstVal} (more : List.Forall₂ Gives operands operands')
    (all : operands.mapM id = some vals) : operands'.mapM id = some vals := by
  induction more generalizing vals with
  | nil => exact all
  | cons head _ induction =>
      simp only [List.mapM_cons, Option.bind_eq_bind, Option.bind_eq_some_iff] at all ⊢
      rcases all with ⟨first, isFirst, others, isOthers, equal⟩
      exact ⟨first, head first isFirst, others, induction isOthers, equal⟩

/-- More values do not change what is done. -/
theorem act_gives (more : List.Forall₂ Gives operands operands')
    (acts : meaning.act args type kind operands world = some action) :
    meaning.act args type kind operands' world = some action := by
  cases kind with
  | kConst _ | kParam _ | kJump _ => exact acts
  | kBinOp oper =>
      simp only [act, Option.bind_eq_bind, Option.bind_eq_some_iff] at acts ⊢
      rcases acts with ⟨lhs, isLhs, rhs, isRhs, later⟩
      exact ⟨lhs, operand_gives more isLhs, rhs, operand_gives more isRhs, later⟩
  | kUnaryOp _ | kCast | kPhi _ | kIf _ _ =>
      simp only [act, Option.bind_eq_bind, Option.bind_eq_some_iff] at acts ⊢
      rcases acts with ⟨input, isInput, later⟩
      exact ⟨input, operand_gives more isInput, later⟩
  | kCall callee =>
      simp only [act, Option.bind_eq_bind, Option.bind_eq_some_iff] at acts ⊢
      rcases acts with ⟨vals, areVals, later⟩
      exact ⟨vals, mapM_gives more areVals, later⟩
  | kRet =>
      cases more with
      | nil => exact acts
      | cons head _ =>
          simp only [act, Option.map_eq_some_iff] at acts ⊢
          rcases acts with ⟨val, isVal, equal⟩
          exact ⟨val, head val isVal, equal⟩

/-- Only parameters depend on the arguments. -/
theorem act_args (notParam : ∀ idx, kind ≠ .kParam idx) :
    meaning.act args type kind operands world = meaning.act args' type kind operands world := by
  cases kind with
  | kParam idx => exact absurd rfl (notParam idx)
  | _ => rfl

theorem eq_map_of_mapM {vals : List ConstVal} (all : operands.mapM id = some vals) :
    operands = vals.map some := by
  induction operands generalizing vals with
  | nil =>
      cases all
      rfl
  | cons head rest induction =>
      simp only [List.mapM_cons, Option.bind_eq_bind, Option.bind_eq_some_iff] at all
      rcases all with ⟨first, isFirst, others, areOthers, equal⟩
      cases equal
      rw [List.map_cons, ← induction areOthers]
      exact congrArg (· :: rest) isFirst

/-- A call is made with the values of all operands. -/
theorem act_call {callee : FuncId}
    (acts : meaning.act args type (.kCall callee) operands world = some action) :
    ∃ vals returned, operands = vals.map some ∧
      meaning.call callee vals world = some returned ∧
      action = .value returned.1 returned.2 := by
  simp only [act, Option.bind_eq_bind, Option.bind_eq_some_iff] at acts
  rcases acts with ⟨vals, areVals, returned, calls, equal⟩
  cases equal
  exact ⟨vals, returned, eq_map_of_mapM areVals, calls, rfl⟩

theorem kind_of_act_ret {val : Option ConstVal}
    (acts : meaning.act args type kind operands world = some (.ret val)) : kind = .kRet := by
  cases kind with
  | kRet => rfl
  | _ => simp [act, Option.bind_eq_some_iff] at acts

end Meaning

/-- Of two lists that are zipped with the same entries the related members stay together. -/
theorem forall₂_zip_filter {related : InstId → InstId → Prop} {inputs inputs' : List InstId}
    (same : List.Forall₂ related inputs inputs') (vars : List PhiEntry) (keep : PhiEntry → Bool) :
    List.Forall₂ (fun use use' => related use.1 use'.1 ∧ use ∈ inputs.zip vars ∧
        keep use.2 = true)
      ((inputs.zip vars).filter fun use => keep use.2)
      ((inputs'.zip vars).filter fun use => keep use.2) := by
  induction same generalizing vars with
  | nil => exact .nil
  | @cons input input' inputs inputs' head _ induction =>
      cases vars with
      | nil => exact .nil
      | cons entry rest =>
          simp only [List.zip_cons_cons]
          have later : List.Forall₂ (fun use use' => related use.1 use'.1 ∧
              use ∈ (input, entry) :: inputs.zip rest ∧ keep use.2 = true)
              ((inputs.zip rest).filter fun use => keep use.2)
              ((inputs'.zip rest).filter fun use => keep use.2) :=
            (induction rest).imp fun use use' both =>
              ⟨both.1, List.mem_cons_of_mem _ both.2.1, both.2.2⟩
          by_cases kept : keep entry = true
          · simp only [List.filter_cons, kept, if_true]
            exact .cons ⟨head, List.mem_cons_self, kept⟩ later
          · simp only [List.filter_cons, kept, Bool.false_eq_true, if_false]
            exact later

/-- What is read of operands that are related. -/
theorem reads_gives {World World' : Type} {config : Config World} {config' : Config World'}
    {inst inst' : Inst} {related : InstId → InstId → Prop} (kind : inst'.kind = inst.kind)
    (inputs : List.Forall₂ related inst.inputs inst'.inputs)
    (values : inst.kind.isPhi = false → ∀ input input', input ∈ inst.inputs →
      related input input' → Gives (config.values input) (config'.values input'))
    (entered : ∀ vars, inst.kind = .kPhi vars → config'.pred = config.pred ∧
      ∀ input input' entry, (input, entry) ∈ inst.inputs.zip vars →
        some entry.bb = config.pred → related input input' →
          Gives (config.entered input) (config'.entered input')) :
    List.Forall₂ Gives (inst.reads config) (inst'.reads config') := by
  cases isPhi : inst.kind with
  | kPhi vars =>
      rcases entered vars isPhi with ⟨pred, entered⟩
      have isPhi' := kind.trans isPhi
      simp only [Inst.reads, isPhi, isPhi', pred]
      rw [List.forall₂_map_left_iff, List.forall₂_map_right_iff]
      apply (forall₂_zip_filter inputs vars fun entry =>
        decide (some entry.bb = config.pred)).imp
      rintro ⟨input, entry⟩ ⟨input', entry'⟩ ⟨isRelated, member, kept⟩
      exact entered input input' entry member (of_decide_eq_true kept) isRelated
  | _ =>
      have notPhi : inst.kind.isPhi = false := by
        rw [isPhi]
        rfl
      rw [Store.reads_of_not_phi notPhi, Store.reads_of_not_phi (kind ▸ notPhi),
        List.forall₂_map_left_iff, List.forall₂_map_right_iff]
      have both : List.Forall₂ (fun input input' => input ∈ inst.inputs ∧ related input input')
          inst.inputs inst'.inputs :=
        (List.forall₂_and_left ..).mpr ⟨fun _ member => member, inputs⟩
      exact both.imp fun input input' parts => values notPhi input input' parts.1 parts.2

end LeechJit.IR
