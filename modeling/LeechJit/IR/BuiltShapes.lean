import LeechJit.IR.Built

/-! # The operands instructions are built with

Only phis and calls get operands after their construction, so every instruction that
is built has the operands of its class.
-/

namespace LeechJit.IR

theorem Inst.Shaped.congr {inst inst' : Inst} (shaped : inst.Shaped) (same : inst'.bare = inst.bare)
    (inputs : inst'.inputs = inst.inputs) : inst'.Shaped := by
  unfold Inst.Shaped at shaped ⊢
  rw [Inst.kind_of_bare same, Inst.type_of_bare same, inputs]
  exact shaped

namespace Store

variable {store store' : Store} {id : InstId} {bb : BlockId}

def AllShaped (store : Store) : Prop :=
  ∀ id inst, store.insts id = some inst → inst.Shaped

namespace AllShaped

theorem empty : Store.empty.AllShaped := by
  intro id inst found
  cases found

theorem of_insts (allShaped : store.AllShaped) (insts : store'.insts = store.insts) :
    store'.AllShaped := by
  intro id inst found
  rw [insts] at found
  exact allShaped id inst found

/-- An instruction with the operands and the bare instruction of a shaped one. -/
theorem relinked (relinked : Relinked store store')
    (shaped : ∀ id inst, store.insts id = some inst →
      ({ inst with inputs := store'.inputs id } : Inst).Shaped) : store'.AllShaped := by
  intro id inst' found'
  cases found : store.insts id with
  | none =>
      rw [relinked.insts_none.mpr found] at found'
      cases found'
  | some inst =>
      have same := relinked.insts found
      rw [found'] at same
      cases same
      exact (shaped id inst found).congr rfl rfl

theorem construct {new : Construct} (allShaped : store.AllShaped)
    (result : store.construct new = .ok (id, store')) : store'.AllShaped := by
  rcases construct_eq_ok result with ⟨rfl, -, type, typed, relinked, inputs, -⟩
  refine AllShaped.relinked relinked ?_
  intro key inst found
  rw [inputs]
  by_cases isNew : key = store.nextInst
  · simp only [newInst, setInst, isNew, if_true, Option.some.injEq] at found
    subst found
    rw [if_pos isNew]
    cases new <;> simp [Inst.Shaped, Construct.kind, Construct.inputs]
    cases typed
    rfl
  · simp only [newInst, setInst, isNew, if_false] at found
    rw [if_neg isNew, inputs_eq found]
    exact allShaped key inst found

theorem setBB (allShaped : store.AllShaped) (result : store.setBB bb id = .ok store') :
    store'.AllShaped := by
  rcases Result.bind_eq_ok.mp result with ⟨inst, found, stored⟩
  rw [inst_eq_ok] at found
  cases stored
  intro key other foundOther
  by_cases isId : key = id
  · simp only [setInst, isId, if_true, Option.some.injEq] at foundOther
    subst foundOther
    exact allShaped id inst found
  · simp only [setInst, isId, if_false] at foundOther
    exact allShaped key other foundOther

theorem addNode {phi val : InstId} (allShaped : store.AllShaped)
    (result : store.addNode phi val bb = .ok store') : store'.AllShaped := by
  rcases Result.bind_eq_ok.mp result with ⟨inst, found, adding⟩
  rw [inst_eq_ok] at found
  rcases inst with ⟨type, kind, users, home, operands⟩
  cases kind with
  | kPhi vars =>
      rcases addInput_eq_ok adding with ⟨relinked, inputs, -⟩
      refine AllShaped.relinked relinked ?_
      intro key other foundOther
      have shaped := allShaped phi _ found
      rw [inputs]
      by_cases isPhi : key = phi
      · simp only [setInst, isPhi, if_true, Option.some.injEq] at foundOther
        subst foundOther
        rw [if_pos isPhi, setInst_inputs, if_pos rfl]
        simpa [Inst.Shaped] using shaped
      · simp only [setInst, isPhi, if_false] at foundOther
        rw [if_neg isPhi, setInst_inputs, if_neg isPhi, inputs_eq foundOther]
        exact allShaped key other foundOther
  | _ => cases adding

theorem appendArg {call arg : InstId} (allShaped : store.AllShaped)
    (result : store.appendArg call arg = .ok store') : store'.AllShaped := by
  rcases Result.bind_eq_ok.mp result with ⟨inst, found, adding⟩
  rw [inst_eq_ok] at found
  rcases inst with ⟨type, kind, users, home, operands⟩
  cases kind with
  | kCall callee =>
      rcases addInput_eq_ok adding with ⟨relinked, inputs, -⟩
      refine AllShaped.relinked relinked ?_
      intro key other foundOther
      rw [inputs]
      by_cases isCall : key = call
      · subst isCall
        cases Option.some.inj (foundOther.symm.trans found)
        trivial
      · rw [if_neg isCall, inputs_eq foundOther]
        exact allShaped key other foundOther
  | _ => cases adding

end AllShaped

theorem Built.allShaped (built : store.Built) : store.AllShaped :=
  built.induct AllShaped AllShaped.empty fun _ _ _ => BuildStep.keeps AllShaped
    (fun allShaped insts _ => allShaped.of_insts insts) AllShaped.construct AllShaped.setBB
    AllShaped.addNode AllShaped.appendArg

theorem AllShaped.param_inputs (allShaped : store.AllShaped) {idx : Nat}
    (isParam : store.kindOf id = some (.kParam idx)) : store.inputs id = [] := by
  rcases Option.map_eq_some_iff.mp isParam with ⟨inst, found, kind⟩
  have shaped := allShaped id inst found
  rw [Inst.Shaped, kind] at shaped
  rw [inputs_eq found, shaped]

end Store

end LeechJit.IR
