import LeechJit.IR.Check
import LeechJit.IR.Relinked

/-! # Detaching an instruction

`clearInputs` takes the instruction out of the users set of each operand in turn and asserts
that it was there. A set holds it once, so the assertion fails at a repeated operand.
-/

namespace LeechJit.IR.Store

variable {store store' : Store} {id value : InstId} {inputs : List InstId}

/-- The instruction has no operands and is in the users set of none of its former operands;
no other membership has changed, and nothing else. -/
structure Detached (store : Store) (id : InstId) (store' : Store) : Prop where
  relinked : Relinked store store'
  inputs : ∀ key, store'.inputs key = if key = id then [] else store.inputs key
  users : ∀ key other, other ∈ store'.users key ↔
    other ∈ store.users key ∧ ¬ (key ∈ store.inputs id ∧ other = id)

/-- The users set of each operand has the instruction. -/
def Counted (store : Store) (id : InstId) (inputs : List InstId) : Prop :=
  ∀ input ∈ inputs, id ∈ store.users input

theorem exists_of_mem_users {user : InstId} (isUser : user ∈ store.users value) :
    ∃ inst, store.insts value = some inst ∧ user ∈ inst.users := by
  cases found : store.insts value with
  | none => simp [users, found] at isUser
  | some inst => exact ⟨inst, rfl, by rwa [users_eq found] at isUser⟩

/-- What the next round of the loop finds. -/
theorem users_removeUser {input : InstId} (removal : store.removeUser input id = .ok store')
    (key other : InstId) :
    other ∈ store'.users key ↔ other ∈ store.users key ∧ ¬ (key = input ∧ other = id) := by
  rw [removeUser_eq_ok removal]
  cases held : store.insts key with
  | none => simp [users, held]
  | some inst =>
      simp only [users, mapInsts_insts, held, Option.map_some, Option.elim_some]
      split <;> simp_all [Inst.dropUser]

theorem Counted.removeUser {input : InstId} {rest : List InstId}
    (counted : store.Counted id rest) (isNew : input ∉ rest)
    (removal : store.removeUser input id = .ok store') : store'.Counted id rest := by
  intro other member
  rw [users_removeUser removal]
  refine ⟨counted other member, ?_⟩
  rintro ⟨rfl, -⟩
  exact isNew member

/-- One round: the assertion holds, and the instruction leaves the users set. -/
theorem clearUses_cons {input : InstId} {rest : List InstId} :
    clearUses id (input :: rest) store = .ok store' ↔
      id ∈ store.users input ∧
        ∃ removed, store.removeUser input id = .ok removed ∧
          clearUses id rest removed = .ok store' := by
  cases found : store.insts input with
  | none => simp [clearUses, Store.inst, found, users]
  | some inst =>
      rw [users_eq found]
      cases Decidable.em (id ∈ inst.users) with
      | inl isUser => simp [clearUses, Store.inst, found, isUser, removeUser]
      | inr notUser => simp [clearUses, Store.inst, found, LeechJit.assert, notUser]

theorem clearUses_returns (nodup : inputs.Nodup) (counted : store.Counted id inputs) :
    ∃ store', clearUses id inputs store = .ok store' := by
  induction inputs generalizing store with
  | nil => exact ⟨store, rfl⟩
  | cons input rest induction =>
      have isUser := counted input (.head _)
      rcases exists_of_mem_users isUser with ⟨inst, found, -⟩
      have removal : store.removeUser input id = .ok (store.setInst input (inst.dropUser id)) := by
        simp [removeUser, Store.inst, found]
      have countedRest : store.Counted id rest := fun other member =>
        counted other (.tail _ member)
      rcases induction (List.nodup_cons.mp nodup).2
        (countedRest.removeUser (List.nodup_cons.mp nodup).1 removal) with ⟨store', cleared⟩
      exact ⟨store', clearUses_cons.mpr ⟨isUser, _, removal, cleared⟩⟩

/-- An operand whose users set has lost the instruction is not met again. -/
theorem not_mem_of_clearUses (lost : id ∉ store.users value)
    (cleared : clearUses id inputs store = .ok store') : value ∉ inputs := by
  induction inputs generalizing store with
  | nil => exact List.not_mem_nil
  | cons input rest induction =>
      rcases clearUses_cons.mp cleared with ⟨isUser, removed, removal, later⟩
      intro member
      cases member with
      | head => exact lost isUser
      | tail _ inRest =>
          have stillLost : id ∉ removed.users value := by
            rw [users_removeUser removal]
            exact fun both => lost both.1
          exact induction stillLost later inRest

theorem nodup_of_clearUses (cleared : clearUses id inputs store = .ok store') :
    inputs.Nodup := by
  induction inputs generalizing store with
  | nil => exact List.nodup_nil
  | cons input rest induction =>
      rcases clearUses_cons.mp cleared with ⟨isUser, removed, removal, later⟩
      have lost : id ∉ removed.users input := by
        rw [users_removeUser removal]
        exact fun both => both.2 ⟨rfl, rfl⟩
      exact List.nodup_cons.mpr ⟨not_mem_of_clearUses lost later, induction later⟩

theorem clearInputs_returns_iff {inst : Inst} (found : store.insts id = some inst)
    (counted : store.Counted id inst.inputs) :
    (∃ store', store.clearInputs id = .ok store') ↔ inst.inputs.Nodup := by
  constructor
  · intro returns
    rcases returns with ⟨store', cleared⟩
    rcases Result.bind_eq_ok.mp cleared with ⟨inst', found', cleared⟩
    rcases Result.bind_eq_ok.mp cleared with ⟨removed, uses, -⟩
    cases Option.some.inj (found.symm.trans (inst_eq_ok.mp found'))
    exact nodup_of_clearUses uses
  · intro nodup
    rcases clearUses_returns nodup counted with ⟨removed, uses⟩
    have kept : ∃ last, removed.insts id = some last := by
      rw [clearUses_eq_ok uses, mapInsts_insts, found]
      exact ⟨_, rfl⟩
    rcases kept with ⟨last, foundLast⟩
    refine ⟨removed.setInst id { last with inputs := [] }, ?_⟩
    simp [clearInputs, Store.inst, found, uses, foundLast]

/-- An instruction is detached exactly when it has no operand twice. -/
theorem detached_iff {inst : Inst} (found : store.insts id = some inst)
    (counted : store.Counted id inst.inputs) :
    (∃ store', store.clearInputs id = .ok store' ∧ store.Detached id store') ↔
      inst.inputs.Nodup := by
  rw [← clearInputs_returns_iff found counted]
  constructor
  · intro detaches
    rcases detaches with ⟨store', cleared, -⟩
    exact ⟨store', cleared⟩
  · intro returns
    rcases returns with ⟨store', cleared⟩
    rcases clearInputs_eq_ok' cleared with ⟨relinked, inputs, users⟩
    exact ⟨store', cleared, relinked, inputs, users⟩

def sumOf (lhs rhs : InstId) : Inst :=
  { type := .I64, kind := .kBinOp .kAdd, users := [3], bb := some 0, inputs := [lhs, rhs] }

/-- One block with two constants that returns the sum of one or both of them. -/
def sum (lhs rhs : InstId) (leftUsers rightUsers : List InstId) : Store :=
  .ofTables
    [{ type := .I64, kind := .kConst (.I64 1), users := leftUsers, bb := some 0 },
      { type := .I64, kind := .kConst (.I64 2), users := rightUsers, bb := some 0 },
      sumOf lhs rhs,
      { kind := .kRet, bb := some 0, inputs := [2] }]
    [{ instructions := [0, 1, 2, 3] }] []

theorem detached_iff_two :
    (∃ store', (sum 0 1 [2] [2]).clearInputs 2 = .ok store' ∧
        (sum 0 1 [2] [2]).Detached 2 store') ↔
      (sumOf 0 1).inputs.Nodup := by
  have found : (sum 0 1 [2] [2]).insts 2 = some (sumOf 0 1) := rfl
  exact detached_iff found (by simp [Counted, sumOf, sum, users, ofTables])

/-- `x + x` cannot be detached. -/
theorem not_detached_double :
    (sum 0 0 [2] []).WellFormed { bbs := [0], resType := .I64 } ∧
      (sum 0 0 [2] []).clearInputs 2 = .error .assertFailed ∧
      ¬ ∃ store', (sum 0 0 [2] []).clearInputs 2 = .ok store' ∧
        (sum 0 0 [2] []).Detached 2 store' := by
  have fails : (sum 0 0 [2] []).clearInputs 2 = .error .assertFailed := rfl
  refine ⟨checkWellFormed_sound rfl, fails, ?_⟩
  intro detaches
  rcases detaches with ⟨store', cleared, -⟩
  rw [fails] at cleared
  cases cleared

end LeechJit.IR.Store
