import LeechJit.IR.Construct
import LeechJit.IR.StoreLemmas

/-! # Operands and users

What the operations on operands do to the operand lists and the users sets of all
instructions; they leave everything else as it is.
-/

namespace LeechJit.IR

/-- The instruction without its operands and users. -/
def Inst.bare (inst : Inst) : Inst :=
  { inst with users := [], inputs := [] }

theorem Inst.bare_eq_iff {inst inst' : Inst} : inst'.bare = inst.bare ↔
    inst'.type = inst.type ∧ inst'.kind = inst.kind ∧ inst'.bb = inst.bb := by
  simp [Inst.bare]

theorem Inst.type_of_bare {inst inst' : Inst} (same : inst'.bare = inst.bare) :
    inst'.type = inst.type :=
  (Inst.bare_eq_iff.mp same).1

theorem Inst.kind_of_bare {inst inst' : Inst} (same : inst'.bare = inst.bare) :
    inst'.kind = inst.kind :=
  (Inst.bare_eq_iff.mp same).2.1

theorem Inst.bb_of_bare {inst inst' : Inst} (same : inst'.bare = inst.bare) :
    inst'.bb = inst.bb :=
  (Inst.bare_eq_iff.mp same).2.2

namespace Store

def inputs (store : Store) (id : InstId) : List InstId :=
  (store.insts id).elim [] Inst.inputs

def users (store : Store) (id : InstId) : List InstId :=
  (store.insts id).elim [] Inst.users

theorem inputs_eq {store : Store} {id : InstId} {inst : Inst}
    (found : store.insts id = some inst) : store.inputs id = inst.inputs := by
  simp [inputs, found]

theorem users_eq {store : Store} {id : InstId} {inst : Inst}
    (found : store.insts id = some inst) : store.users id = inst.users := by
  simp [users, found]

/-- Only operands and users differ. -/
structure Relinked (store store' : Store) : Prop where
  bare : ∀ id, (store'.insts id).map Inst.bare = (store.insts id).map Inst.bare
  blocks : store'.blocks = store.blocks
  functions : store'.functions = store.functions
  nextInst : store'.nextInst = store.nextInst
  nextBlock : store'.nextBlock = store.nextBlock

namespace Relinked

variable {store middle store' : Store}

theorem refl (store : Store) : Relinked store store :=
  ⟨fun _ => rfl, rfl, rfl, rfl, rfl⟩

theorem trans (first : Relinked store middle) (second : Relinked middle store') :
    Relinked store store' where
  bare id := (second.bare id).trans (first.bare id)
  blocks := second.blocks.trans first.blocks
  functions := second.functions.trans first.functions
  nextInst := second.nextInst.trans first.nextInst
  nextBlock := second.nextBlock.trans first.nextBlock

theorem setInst {id : InstId} {inst changed : Inst} (found : store.insts id = some inst)
    (same : changed.bare = inst.bare) : Relinked store (store.setInst id changed) where
  bare key := by
    by_cases isId : key = id
    · subst isId
      simp [Store.setInst, found, same]
    · simp [Store.setInst, isId]
  blocks := rfl
  functions := rfl
  nextInst := rfl
  nextBlock := rfl

theorem mapInsts {change : InstId → Inst → Inst}
    (same : ∀ id inst, (change id inst).bare = inst.bare) :
    Relinked store (store.mapInsts change) where
  bare id := by
    cases found : store.insts id with
    | none => simp [found]
    | some inst => simp [found, same]
  blocks := rfl
  functions := rfl
  nextInst := rfl
  nextBlock := rfl

/-- An instruction is still there, with its new operands and users. -/
theorem insts (relinked : Relinked store store') {id : InstId} {inst : Inst}
    (found : store.insts id = some inst) :
    store'.insts id = some { inst with users := store'.users id, inputs := store'.inputs id } := by
  have same := relinked.bare id
  rw [found] at same
  cases found' : store'.insts id with
  | none => simp [found'] at same
  | some inst' =>
      rw [found', Option.map_some, Option.map_some, Option.some.injEq] at same
      rw [users_eq found', inputs_eq found']
      rcases inst with ⟨type, kind, users, bb, inputs⟩
      rcases inst' with ⟨type', kind', users', bb', inputs'⟩
      simp only [Inst.bare, Inst.mk.injEq, true_and, and_true] at same
      rcases same with ⟨rfl, rfl, rfl⟩
      rfl

theorem insts_none (relinked : Relinked store store') {id : InstId} :
    store'.insts id = none ↔ store.insts id = none := by
  have same := relinked.bare id
  cases found : store.insts id <;> cases found' : store'.insts id <;> simp_all

end Relinked

/-! ## One operation after the other -/

variable {store store' : Store} {id : InstId}

theorem setInst_inputs {key : InstId} {inst : Inst} :
    (store.setInst id inst).inputs key = if key = id then inst.inputs else store.inputs key := by
  by_cases isId : key = id <;> simp [inputs, setInst, isId]

theorem setInst_users {key : InstId} {inst : Inst} :
    (store.setInst id inst).users key = if key = id then inst.users else store.users key := by
  by_cases isId : key = id <;> simp [users, setInst, isId]

theorem inputAt_eq_ok {inst : Inst} {idx : Nat} {input : InstId} :
    inst.inputAt idx = .ok input ↔ inst.inputs[idx]? = some input := by
  cases found : inst.inputs[idx]? <;> simp [Inst.inputAt, found]

theorem addUser_eq_ok {value user : InstId} (result : store.addUser value user = .ok store') :
    Relinked store store' ∧ (∀ key, store'.inputs key = store.inputs key) ∧
      ∀ key other, other ∈ store'.users key ↔
        other ∈ store.users key ∨ (key = value ∧ other = user) := by
  rcases Result.bind_eq_ok.mp result with ⟨inst, found, stored⟩
  rw [inst_eq_ok] at found
  cases stored
  refine ⟨.setInst found rfl, ?_, ?_⟩
  · intro key
    rw [setInst_inputs]
    by_cases isValue : key = value
    · rw [if_pos isValue, isValue, inputs_eq found]
    · rw [if_neg isValue]
  · intro key other
    rw [setInst_users]
    by_cases isValue : key = value
    · rw [if_pos isValue, isValue, users_eq found, List.mem_insert_iff]
      tauto
    · rw [if_neg isValue]
      tauto

theorem removeUser_eq_ok' {value user : InstId}
    (result : store.removeUser value user = .ok store') :
    Relinked store store' ∧ (∀ key, store'.inputs key = store.inputs key) ∧
      ∀ key other, other ∈ store'.users key ↔
        other ∈ store.users key ∧ ¬ (key = value ∧ other = user) := by
  rcases Result.bind_eq_ok.mp result with ⟨inst, found, stored⟩
  rw [inst_eq_ok] at found
  cases stored
  refine ⟨.setInst found rfl, ?_, ?_⟩
  · intro key
    rw [setInst_inputs]
    by_cases isValue : key = value
    · rw [if_pos isValue, isValue, inputs_eq found, Inst.dropUser]
    · rw [if_neg isValue]
  · intro key other
    rw [setInst_users]
    by_cases isValue : key = value
    · rw [if_pos isValue, isValue, users_eq found, Inst.dropUser, List.mem_filter,
        decide_eq_true_iff]
      tauto
    · rw [if_neg isValue]
      tauto

theorem addInput_eq_ok {val : InstId} (result : store.addInput id val = .ok store') :
    Relinked store store' ∧
      (∀ key, store'.inputs key =
        if key = id then store.inputs id ++ [val] else store.inputs key) ∧
      ∀ key other, other ∈ store'.users key ↔
        other ∈ store.users key ∨ (key = val ∧ other = id) := by
  rcases Result.bind_eq_ok.mp result with ⟨middle, added, continued⟩
  rcases Result.bind_eq_ok.mp continued with ⟨inst, found, stored⟩
  rw [inst_eq_ok] at found
  cases stored
  rcases addUser_eq_ok added with ⟨relinked, inputs, users⟩
  refine ⟨relinked.trans (.setInst found rfl), ?_, ?_⟩
  · intro key
    rw [setInst_inputs, ← inputs_eq found, inputs, inputs]
  · intro key other
    rw [setInst_users, ← users]
    by_cases isId : key = id
    · rw [if_pos isId, isId, users_eq found]
    · rw [if_neg isId]

theorem setInput_eq_ok {idx : Nat} {new : InstId}
    (result : store.setInput id idx new = .ok store') :
    ∃ inp, (store.inputs id)[idx]? = some inp ∧ Relinked store store' ∧
      (∀ key, store'.inputs key =
        if key = id then (store.inputs id).set idx new else store.inputs key) ∧
      ∀ key other, other ∈ store'.users key ↔
        (other ∈ store.users key ∧
          ¬ (key = inp ∧ other = id ∧ (store.inputs id).count inp = 1)) ∨
        (key = new ∧ other = id) := by
  rcases Result.bind_eq_ok.mp result with ⟨inst, found, continued⟩
  rcases Result.bind_eq_ok.mp continued with ⟨inp, isInput, continued⟩
  rw [inst_eq_ok] at found
  rw [inputAt_eq_ok] at isInput
  have drop : ∃ dropped, (do
        let inst ← dropped.inst id
        (dropped.setInst id { inst with inputs := inst.inputs.set idx new }).addUser new id) =
          .ok store' ∧
      Relinked store dropped ∧ (∀ key, dropped.inputs key = store.inputs key) ∧
      ∀ key other, other ∈ dropped.users key ↔ other ∈ store.users key ∧
        ¬ (key = inp ∧ other = id ∧ (store.inputs id).count inp = 1) := by
    rw [inputs_eq found]
    by_cases once : inst.inputs.count inp = 1
    · rw [if_pos once] at continued
      rcases Result.bind_eq_ok.mp continued with ⟨dropped, dropping, rest⟩
      exact ⟨dropped, rest, by simpa only [once, and_true] using removeUser_eq_ok' dropping⟩
    · rw [if_neg once] at continued
      exact ⟨store, continued, .refl store, fun _ => rfl, by simp [once]⟩
  rcases drop with ⟨dropped, rest, relinked, inputs, users⟩
  rcases Result.bind_eq_ok.mp rest with ⟨inst', found', added⟩
  rw [inst_eq_ok] at found'
  rcases addUser_eq_ok added with ⟨relinked', inputs', users'⟩
  have setting : Relinked dropped (dropped.setInst id
      { inst' with inputs := inst'.inputs.set idx new }) := .setInst found' rfl
  refine ⟨inp, by rw [inputs_eq found, isInput], (relinked.trans setting).trans relinked', ?_, ?_⟩
  · intro key
    rw [inputs', setInst_inputs, ← inputs_eq found', inputs, inputs]
  · intro key other
    rw [users', setInst_users, ← users]
    by_cases isId : key = id
    · rw [if_pos isId, isId, users_eq found']
    · rw [if_neg isId]

theorem swapInputs_eq_ok {lhs rhs : Nat} (result : store.swapInputs id lhs rhs = .ok store') :
    ∃ left right, (store.inputs id)[lhs]? = some left ∧ (store.inputs id)[rhs]? = some right ∧
      Relinked store store' ∧
      (∀ key, store'.inputs key =
        if key = id then ((store.inputs id).set lhs right).set rhs left else store.inputs key) ∧
      ∀ key, store'.users key = store.users key := by
  rcases Result.bind_eq_ok.mp result with ⟨inst, found, continued⟩
  rcases Result.bind_eq_ok.mp continued with ⟨left, isLeft, continued⟩
  rcases Result.bind_eq_ok.mp continued with ⟨right, isRight, stored⟩
  rw [inst_eq_ok] at found
  rw [inputAt_eq_ok] at isLeft isRight
  cases stored
  refine ⟨left, right, by rw [inputs_eq found, isLeft], by rw [inputs_eq found, isRight],
    .setInst found rfl, ?_, ?_⟩
  · intro key
    rw [setInst_inputs, inputs_eq found]
  · intro key
    rw [setInst_users]
    by_cases isId : key = id
    · rw [if_pos isId, isId, users_eq found]
    · rw [if_neg isId]

theorem clearInputs_eq_ok' (result : store.clearInputs id = .ok store') :
    Relinked store store' ∧
      (∀ key, store'.inputs key = if key = id then [] else store.inputs key) ∧
      ∀ key other, other ∈ store'.users key ↔
        other ∈ store.users key ∧ ¬ (key ∈ store.inputs id ∧ other = id) := by
  rcases clearInputs_eq_ok result with ⟨inst, found, rfl⟩
  rw [inputs_eq found]
  refine ⟨.mapInsts ?_, ?_, ?_⟩
  · intro key other
    dsimp only
    split_ifs <;> rfl
  · intro key
    cases held : store.insts key with
    | none => simp [inputs, held]
    | some other =>
        simp only [inputs, mapInsts_insts, held, Option.map_some, Option.elim_some]
        split_ifs <;> rfl
  · intro key user
    cases held : store.insts key with
    | none => simp [users, held]
    | some other =>
        simp only [users, mapInsts_insts, held, Option.map_some, Option.elim_some]
        split_ifs <;> simp_all [Inst.dropUser]

/-- `this` takes over the users of `other`. -/
theorem setUsersFrom_eq_ok' {this other : InstId} (different : this ≠ other)
    (result : store.setUsersFrom this other = .ok store') :
    Relinked store store' ∧
      (∀ key, store'.inputs key =
        if key ∈ store.users this ∨ key ∈ store.users other then
          (store.inputs key).map fun input => if input = other then this else input
        else store.inputs key) ∧
      ∀ key user, user ∈ store'.users key ↔
        (key ≠ other ∧ user ∈ store.users key) ∨ (key = this ∧ user ∈ store.users other) := by
  rcases setUsersFrom_eq_ok different result with
    ⟨thisInst, otherInst, foundThis, foundOther, rfl⟩
  rw [users_eq foundThis, users_eq foundOther]
  have merged : ∀ key, key ∈ thisInst.users ++ otherInst.users.filter (· ∉ thisInst.users) ↔
      key ∈ thisInst.users ∨ key ∈ otherInst.users := by
    intro key
    by_cases isUser : key ∈ thisInst.users <;> simp [isUser]
  refine ⟨.mapInsts ?_, ?_, ?_⟩
  · intro key inst
    dsimp only
    split_ifs <;> rfl
  · intro key
    simp only [merged]
    cases held : store.insts key with
    | none => simp [inputs, held]
    | some inst =>
        simp only [inputs, mapInsts_insts, held, Option.map_some, Option.elim_some]
        split_ifs <;> rfl
  · intro key user
    simp only [merged]
    cases held : store.insts key with
    | none =>
        have notThis : key ≠ this := by
          rintro rfl
          rw [foundThis] at held
          cases held
        simp [users, held, notThis]
    | some inst =>
        simp only [users, mapInsts_insts, held, Option.map_some, Option.elim_some,
          Inst.replaceInput, apply_ite Inst.users, ite_self]
        by_cases isThis : key = this
        · subst isThis
          cases Option.some.inj (held.symm.trans foundThis)
          rw [if_pos rfl, merged]
          simp [different]
        · rw [if_neg isThis]
          by_cases isOther : key = other
          · simp [isOther, different.symm]
          · simp [isThis, isOther]

theorem addInputs_eq_ok {vals : List InstId} (result : addInputs id vals store = .ok store') :
    Relinked store store' ∧
      (∀ key, store'.inputs key =
        if key = id then store.inputs id ++ vals else store.inputs key) ∧
      ∀ key other, other ∈ store'.users key ↔
        other ∈ store.users key ∨ (key ∈ vals ∧ other = id) := by
  induction vals generalizing store with
  | nil =>
      cases result
      refine ⟨.refl _, ?_, by simp⟩
      intro key
      by_cases isId : key = id <;> simp [isId]
  | cons val rest induction =>
      rcases Result.bind_eq_ok.mp result with ⟨middle, first, later⟩
      rcases addInput_eq_ok first with ⟨relinked, inputs, users⟩
      rcases induction later with ⟨relinked', inputs', users'⟩
      refine ⟨relinked.trans relinked', ?_, ?_⟩
      · intro key
        rw [inputs', inputs, inputs]
        by_cases isId : key = id <;> simp [isId]
      · intro key other
        rw [users', users, List.mem_cons]
        tauto

theorem mapM_inst_eq_ok {ids : List InstId} {insts : List Inst}
    (result : ids.mapM store.inst = .ok insts) :
    ∀ id ∈ ids, ∃ inst, store.insts id = some inst := by
  induction ids generalizing insts with
  | nil => simp
  | cons first rest induction =>
      rw [List.mapM_cons] at result
      rcases Result.bind_eq_ok.mp result with ⟨inst, found, continued⟩
      rcases Result.bind_eq_ok.mp continued with ⟨later, others, -⟩
      intro id member
      cases member with
      | head => exact ⟨inst, inst_eq_ok.mp found⟩
      | tail _ member => exact induction others id member

/-- A constructed instruction uses its operands; nothing else has changed. -/
theorem construct_eq_ok {new : Construct} {key : InstId}
    (result : store.construct new = .ok (key, store')) :
    key = store.nextInst ∧ (∀ val ∈ new.inputs, ∃ inst, store.insts val = some inst) ∧
      ∃ type, new.type store = .ok type ∧
      Relinked (store.newInst { type := type, kind := new.kind }).2 store' ∧
      (∀ id, store'.inputs id = if id = store.nextInst then new.inputs else store.inputs id) ∧
      ∀ id user, user ∈ store'.users id ↔
        (id ≠ store.nextInst ∧ user ∈ store.users id) ∨
          (id ∈ new.inputs ∧ user = store.nextInst) := by
  rcases Result.bind_eq_ok.mp result with ⟨type, typed, continued⟩
  rcases Result.bind_eq_ok.mp continued with ⟨read, reading, continued⟩
  rcases Result.bind_eq_ok.mp continued with ⟨filled, adding, equal⟩
  cases equal
  rcases addInputs_eq_ok adding with ⟨relinked, inputs, users⟩
  refine ⟨rfl, mapM_inst_eq_ok reading, type, typed, relinked, ?_, ?_⟩
  · intro id
    rw [inputs]
    by_cases isNew : id = store.nextInst
    · simp [isNew, Store.inputs, newInst, setInst]
    · simp [isNew, Store.inputs, newInst, setInst]
  · intro id user
    rw [users]
    by_cases isNew : id = store.nextInst
    · simp [isNew, Store.users, newInst, setInst]
    · simp [isNew, Store.users, newInst, setInst]

end Store

end LeechJit.IR
