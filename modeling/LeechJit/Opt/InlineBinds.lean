import LeechJit.Foundation.Bindings
import LeechJit.IR.Detach
import LeechJit.IR.Operands
import LeechJit.Opt.InlineSteps

/-! # Arguments for parameters, one after the other

A round of the loop makes the users of one parameter users of one operand of the call and
erases the parameter. The call may be such a user, which changes the operands that are
still to come.
-/

namespace LeechJit.Opt.Inlining

open IR Store Bindings

variable {store moved next store' : Store} {first : BlockId} {callee : FuncId} {idx : Nat}
  {call param input id : InstId} {params : List InstId}

/-! ## One parameter -/

/-- The users sets are exact, but for users that are gone. -/
def Recorded (store : Store) : Prop :=
  ∀ value user, store.kindOf user ≠ none →
    (user ∈ store.users value ↔ value ∈ store.inputs user)

theorem Recorded.mem_users {value user : InstId} (recorded : Recorded store)
    (uses : value ∈ store.inputs user) : user ∈ store.users value :=
  (recorded value user (kindOf_of_inputs uses)).mpr uses

/-- The parameters of a block that are still to be bound. -/
structure Waiting (store : Store) (first : BlockId) (params : List InstId) : Prop where
  recorded : Recorded store
  distinct : params.Nodup
  listed : ∀ param ∈ params, param ∈ store.instructions first
  stored : ∀ param ∈ params, store.kindOf param ≠ none
  noInputs : ∀ param ∈ params, store.inputs param = []

/-- The input is used instead of the parameter, which is gone. -/
structure Replaces (store : Store) (first : BlockId) (param input : InstId) (next : Store) :
    Prop where
  inputs : ∀ key, next.inputs key =
    if key = param then [] else (store.inputs key).map (subst param input)
  users : ∀ key user, user ∈ next.users key ↔
    key ≠ param ∧ (user ∈ store.users key ∨ (key = input ∧ user ∈ store.users param))
  kinds : ∀ key, next.kindOf key = if key = param then none else store.kindOf key
  instructions : next.instructions first = (store.instructions first).erase param

theorem map_subst_of_not_mem {inputs : List InstId} (unused : param ∉ inputs) :
    inputs.map (subst param input) = inputs :=
  map_redirect_of_not_mem unused

theorem mem_map_subst {value : InstId} {inputs : List InstId} :
    value ∈ inputs.map (subst param input) ↔
      (value ∈ inputs ∧ value ≠ param) ∨ (value = input ∧ param ∈ inputs) :=
  mem_map_redirect

theorem Waiting.replaces (waiting : Waiting store first (param :: params))
    (different : input ≠ param) (moving : store.setUsersFrom input param = .ok moved)
    (erasing : moved.eraseInst first param = .ok next) : Replaces store first param input next := by
  rcases setUsersFrom_eq_ok' different moving with ⟨relinked, movedInputs, movedUsers⟩
  rcases eraseInst_operands erasing with ⟨nextInputs, nextUsers⟩
  rcases eraseInst_eq_ok erasing with ⟨block, found, -, insts, blocks, -⟩
  have inputs : ∀ key, next.inputs key =
      if key = param then [] else (store.inputs key).map (subst param input) := by
    intro key
    rw [nextInputs]
    congr 1
    rw [movedInputs]
    split_ifs with isUser
    · rfl
    · rw [not_or] at isUser
      have unused := mt waiting.recorded.mem_users isUser.2
      exact (map_subst_of_not_mem unused).symm
  refine ⟨inputs, ?_, ?_, ?_⟩
  · intro key user
    rw [nextUsers]
    split_ifs with isParam
    · simp [isParam]
    · rw [movedUsers]
      tauto
  · intro key
    rw [← relinked.kindOf]
    simp only [kindOf, insts]
    split_ifs <;> rfl
  · rw [Store.instructions, blocks, ← instructions_eq (relinked.blocks ▸ found)]
    simp only [if_true, Option.elim_some]

theorem Waiting.param_unused {value : InstId} (waiting : Waiting store first (param :: params)) :
    param ∉ store.users value := by
  intro isUser
  have uses := (waiting.recorded value param (waiting.stored param List.mem_cons_self)).mp isUser
  rw [waiting.noInputs param List.mem_cons_self] at uses
  cases uses

theorem Waiting.recorded_next (waiting : Waiting store first (param :: params))
    (different : input ≠ param) (replaces : Replaces store first param input next) :
    Recorded next := by
  intro value user stored
  rw [replaces.kinds] at stored
  split_ifs at stored with isParam
  · exact absurd rfl stored
  · rw [replaces.users, replaces.inputs, if_neg isParam, mem_map_subst,
      waiting.recorded value user stored, waiting.recorded param user stored]
    by_cases isValue : value = param
    · simp [isValue, different.symm]
    · tauto

/-- No user of the value is gone. -/
def UsersStored (store : Store) (value : InstId) : Prop :=
  ∀ user ∈ store.users value, store.kindOf user ≠ none

/-- The users of a value are there before and after, when those that move are there. -/
theorem Waiting.usersStored_iff (waiting : Waiting store first (param :: params))
    (replaces : Replaces store first param input next) (different : input ≠ param)
    (ofParam : UsersStored store param) (ofInput : UsersStored store input) (value : InstId) :
    UsersStored next (subst param input value) ↔ UsersStored store value := by
  have stored : ∀ {value user}, user ∈ store.users value →
      (next.kindOf user ≠ none ↔ store.kindOf user ≠ none) := by
    intro value user isUser
    have notParam : user ≠ param := by
      rintro rfl
      exact waiting.param_unused isUser
    rw [replaces.kinds, if_neg notParam]
  by_cases isParam : value = param
  · subst isParam
    rw [subst_self]
    refine ⟨fun _ => ofParam, ?_⟩
    intro _ user isUser
    rcases ((replaces.users input user).mp isUser).2 with ofOld | ⟨-, ofNew⟩
    · exact (stored ofOld).mpr (ofInput user ofOld)
    · exact (stored ofNew).mpr (ofParam user ofNew)
  · rw [subst_of_ne isParam]
    constructor
    · intro after user isUser
      have isUserAfter := (replaces.users value user).mpr ⟨isParam, .inl isUser⟩
      exact (stored isUser).mp (after user isUserAfter)
    · intro before user isUser
      rcases ((replaces.users value user).mp isUser).2 with ofOld | ⟨-, ofNew⟩
      · exact (stored ofOld).mpr (before user ofOld)
      · exact (stored ofNew).mpr (ofParam user ofNew)

/-- An operand can be used instead of a parameter when the users of both are there. -/
theorem Waiting.exists_replaced (waiting : Waiting store first (param :: params))
    (isInput : input ∈ store.inputs id) (different : input ≠ param)
    (ofParam : UsersStored store param) (ofInput : UsersStored store input) :
    ∃ moved next, store.setUsersFrom input param = .ok moved ∧
      moved.eraseInst first param = .ok next := by
  have inputStored : store.kindOf input ≠ none := by
    rcases exists_of_mem_users (waiting.recorded.mem_users isInput) with ⟨inst, found, -⟩
    exact kindOf_ne_none.mpr ⟨inst, found⟩
  rcases exists_setUsersFrom different inputStored (waiting.stored param List.mem_cons_self)
    ofInput ofParam with ⟨moved, moving⟩
  have listed : param ∈ moved.instructions first := by
    rw [Store.instructions, (setUsersFrom_eq_ok' different moving).1.blocks]
    exact waiting.listed param List.mem_cons_self
  rcases exists_eraseInst listed with ⟨next, erasing⟩
  exact ⟨moved, next, moving, erasing⟩

theorem Waiting.not_mem (waiting : Waiting store first params)
    (isInput : (store.inputs call)[idx]? = some input) : call ∉ params := by
  intro member
  simp [waiting.noInputs call member] at isInput

theorem Waiting.call_ne (waiting : Waiting store first (param :: params))
    (isInput : (store.inputs call)[idx]? = some input) : call ≠ param :=
  List.ne_of_not_mem_cons (waiting.not_mem isInput)

theorem Waiting.ne_of_mem (waiting : Waiting store first (param :: params)) (member : id ∈ params) :
    id ≠ param := by
  rintro rfl
  exact (List.nodup_cons.mp waiting.distinct).1 member

theorem Waiting.rest (waiting : Waiting store first (param :: params)) (different : input ≠ param)
    (replaces : Replaces store first param input next) : Waiting next first params where
  recorded := waiting.recorded_next different replaces
  distinct := waiting.distinct.of_cons
  listed other member := by
    rw [replaces.instructions, List.mem_erase_of_ne (waiting.ne_of_mem member)]
    exact waiting.listed other (List.mem_cons_of_mem _ member)
  stored other member := by
    rw [replaces.kinds, if_neg (waiting.ne_of_mem member)]
    exact waiting.stored other (List.mem_cons_of_mem _ member)
  noInputs other member := by
    rw [replaces.inputs, waiting.noInputs other (List.mem_cons_of_mem _ member), List.map_nil,
      ite_self]

/-! ## All of them -/

/-- The rounds of the loop, in which no parameter is its own argument. -/
inductive Binds (first : BlockId) (call : InstId) : Nat → List InstId → Store → Store → Prop
  | done {idx : Nat} {store : Store} : Binds first call idx [] store store
  | bind {idx : Nat} {param input : InstId} {params : List InstId} {store moved next store' : Store}
      (isInput : (store.inputs call)[idx]? = some input) (different : input ≠ param)
      (moving : store.setUsersFrom input param = .ok moved)
      (erasing : moved.eraseInst first param = .ok next)
      (later : Binds first call (idx + 1) params next store') :
      Binds first call idx (param :: params) store store'

/-- What the parameters are bound to from operand `idx` of the call on. -/
def bindings (store : Store) (call : InstId) (idx : Nat) (params : List InstId) :
    List (InstId × InstId) :=
  params.zip ((store.inputs call).drop idx)

theorem bindings_cons (isInput : (store.inputs call)[idx]? = some input) :
    bindings store call idx (param :: params) =
      (param, input) :: bindings store call (idx + 1) params := by
  rcases List.getElem?_eq_some_iff.mp isInput with ⟨inside, rfl⟩
  rw [bindings, List.drop_eq_getElem_cons inside, List.zip_cons_cons, bindings]

theorem bindings_names_subset : (bindings store call idx params).map Prod.fst ⊆ params := by
  intro param member
  rcases List.mem_map.mp member with ⟨⟨first, second⟩, binding, rfl⟩
  exact (List.of_mem_zip binding).1

/-- No user of a parameter or of what it is bound to is gone. -/
def NoneGone (store : Store) (bindings : List (InstId × InstId)) : Prop :=
  ∀ binding ∈ bindings, UsersStored store binding.1 ∧ UsersStored store binding.2

theorem Waiting.noneGone_iff (waiting : Waiting store first (param :: params))
    (replaces : Replaces store first param input next) (different : input ≠ param)
    (ofParam : UsersStored store param) (ofInput : UsersStored store input)
    {rest : List (InstId × InstId)} (once : param ∉ rest.map Prod.fst) :
    NoneGone next (bindFirst param input rest) ↔ NoneGone store rest := by
  rw [NoneGone, bindFirst, List.forall_mem_map]
  apply forall₂_congr
  rintro ⟨name, arg⟩ binding
  have notParam : name ≠ param := by
    rintro rfl
    exact once (List.mem_map_of_mem binding)
  have same := waiting.usersStored_iff replaces different ofParam ofInput
  rw [← same name, ← same arg, subst_of_ne notParam]
  rfl

theorem Waiting.once (waiting : Waiting store first (param :: params)) {key : Store} :
    param ∉ (bindings key call idx params).map Prod.fst :=
  fun member => (List.nodup_cons.mp waiting.distinct).1 (bindings_names_subset member)

namespace Replaces

theorem inputs_of_ne (replaces : Replaces store first param input next) (notParam : id ≠ param) :
    next.inputs id = (store.inputs id).map (subst param input) := by
  rw [replaces.inputs, if_neg notParam]

theorem bindings (replaces : Replaces store first param input next) (notParam : call ≠ param) :
    bindings next call idx params = bindFirst param input (bindings store call idx params) := by
  rw [Inlining.bindings, replaces.inputs_of_ne notParam, ← List.map_drop, zip_map_subst,
    Inlining.bindings]

end Replaces

/-- What is left when the parameters are bound. -/
structure AllBound (store : Store) (first : BlockId) (params : List InstId)
    (bindings : List (InstId × InstId)) (store' : Store) : Prop where
  inputs : ∀ user ∉ params,
    List.Forall₂ (Resolves bindings) (store.inputs user) (store'.inputs user)
  recorded : Recorded store'
  kinds : ∀ id, store'.kindOf id = if id ∈ params then none else store.kindOf id
  instructions : store'.instructions first = (store.instructions first).filter (· ∉ params)

theorem Binds.length (waiting : Waiting store first params)
    (binds : Binds first call idx params store store') :
    params = [] ∨ idx + params.length ≤ (store.inputs call).length := by
  induction binds with
  | done => exact .inl rfl
  | @bind idx param input params store moved next store' isInput different moving erasing _
      induction =>
      right
      have replaces := waiting.replaces different moving erasing
      have inside := (List.getElem?_eq_some_iff.mp isInput).1
      have same : (next.inputs call).length = (store.inputs call).length := by
        rw [replaces.inputs_of_ne (waiting.call_ne isInput), List.length_map]
      rcases induction (waiting.rest different replaces) with rfl | later
      · exact inside
      · rw [List.length_cons]
        omega

theorem Binds.allBound (nodup : (store.instructions first).Nodup)
    (waiting : Waiting store first params) (binds : Binds first call idx params store store') :
    AllBound store first params (bindings store call idx params) store' := by
  induction binds with
  | done =>
      refine ⟨?_, waiting.recorded, by simp, by simp⟩
      intro user _
      exact List.forall₂_same.mpr fun value _ => Resolves.nil_iff.mpr rfl
  | @bind idx param input params store moved next store' isInput different moving erasing _
      induction =>
      have replaces := waiting.replaces different moving erasing
      have nextNodup : (next.instructions first).Nodup := by
        rw [replaces.instructions]
        exact nodup.erase _
      have later := induction nextNodup (waiting.rest different replaces)
      have notCall := waiting.call_ne isInput
      rw [bindings_cons isInput]
      refine ⟨?_, later.recorded, ?_, ?_⟩
      · intro user notParam
        rw [List.mem_cons, not_or] at notParam
        have resolved := later.inputs user notParam.2
        rw [replaces.inputs_of_ne notParam.1, replaces.bindings notCall,
          List.forall₂_map_left_iff] at resolved
        exact resolved.imp fun _ _ => (Resolves.cons_iff different waiting.once).mpr
      · intro id
        rw [later.kinds, replaces.kinds]
        by_cases isParam : id = param <;> simp [isParam]
      · rw [later.instructions, replaces.instructions, nodup.erase_eq_filter, List.filter_filter]
        congr 1
        funext id
        by_cases isParam : id = param <;> simp [isParam]

theorem Binds.noneGone (waiting : Waiting store first params)
    (binds : Binds first call idx params store store') :
    NoneGone store (bindings store call idx params) := by
  induction binds with
  | done =>
      intro binding member
      cases member
  | @bind idx param input params store moved next store' isInput different moving erasing _
      induction =>
      have replaces := waiting.replaces different moving erasing
      have ofParam : UsersStored store param := fun user isUser =>
        setUsersFrom_stored different moving (.inr isUser)
      have ofInput : UsersStored store input := fun user isUser =>
        setUsersFrom_stored different moving (.inl isUser)
      have later := induction (waiting.rest different replaces)
      rw [replaces.bindings (waiting.call_ne isInput),
        waiting.noneGone_iff replaces different ofParam ofInput waiting.once] at later
      rw [bindings_cons isInput]
      exact List.forall_mem_cons.mpr ⟨⟨ofParam, ofInput⟩, later⟩

/-- The loop goes through the rounds. -/
theorem Binds.adjustParams (binds : Binds first call idx params store store') :
    adjustParams first call idx params store = .ok store' := by
  induction binds with
  | done => rfl
  | @bind idx param input params store moved next store' isInput _ moving erasing _ induction =>
      have callStored : store.kindOf call ≠ none :=
        kindOf_of_inputs (List.mem_of_getElem? isInput)
      rcases kindOf_ne_none.mp callStored with ⟨inst, found⟩
      rw [inputs_eq found] at isInput
      rw [Inlining.adjustParams, inst_eq_ok.mpr found, Result.ok_bind, isInput]
      simp only [moving, erasing, Result.ok_bind]
      exact induction

/-- There are rounds for parameters that stand for a value wherever they are used. -/
theorem exists_binds (waiting : Waiting store first params)
    (enough : params.length ≤ ((store.inputs call).drop idx).length)
    (resolved : ∀ param ∈ params, ∀ user, param ∈ store.inputs user →
      ∃ value, Resolves (bindings store call idx params) param value)
    (noneGone : NoneGone store (bindings store call idx params)) :
    ∃ store', Binds first call idx params store store' := by
  induction params generalizing idx store with
  | nil => exact ⟨store, .done⟩
  | cons param params induction =>
      rw [List.length_cons, List.length_drop] at enough
      have inside : idx < (store.inputs call).length := by omega
      have isInput := List.getElem?_eq_getElem inside
      generalize (store.inputs call)[idx] = input at isInput
      have member : input ∈ store.inputs call := List.mem_of_getElem? isInput
      rw [bindings_cons isInput] at resolved noneGone
      rcases List.forall_mem_cons.mp noneGone with ⟨⟨ofParam, ofInput⟩, laterGone⟩
      have different : input ≠ param := by
        rintro rfl
        rcases resolved input List.mem_cons_self call member with ⟨value, resolves⟩
        exact Resolves.not_self waiting.once resolves
      rcases waiting.exists_replaced member different ofParam ofInput with
        ⟨moved, next, moving, erasing⟩
      have replaces := waiting.replaces different moving erasing
      have notCall := waiting.call_ne isInput
      have enoughLater : params.length ≤ ((next.inputs call).drop (idx + 1)).length := by
        rw [replaces.inputs_of_ne notCall, List.length_drop, List.length_map]
        omega
      have resolvedLater : ∀ other ∈ params, ∀ user, other ∈ next.inputs user →
          ∃ value, Resolves (bindings next call (idx + 1) params) other value := by
        intro other otherMem user uses
        rw [replaces.bindings notCall]
        rw [replaces.inputs] at uses
        split_ifs at uses
        · cases uses
        · rcases List.mem_map.mp uses with ⟨operand, isOperand, rfl⟩
          have operandMem : operand ∈ param :: params := by
            by_cases isParam : operand = param
            · exact isParam ▸ List.mem_cons_self
            · rw [subst_of_ne isParam] at otherMem
              exact List.mem_cons_of_mem _ otherMem
          rcases resolved operand operandMem user isOperand with ⟨value, resolves⟩
          exact ⟨value, (Resolves.cons_iff different waiting.once).mp resolves⟩
      have nextNoneGone : NoneGone next (bindings next call (idx + 1) params) := by
        rw [replaces.bindings notCall]
        exact (waiting.noneGone_iff replaces different ofParam ofInput waiting.once).mpr laterGone
      rcases induction (waiting.rest different replaces) enoughLater resolvedLater nextNoneGone with
        ⟨store', later⟩
      exact ⟨store', .bind isInput different moving erasing later⟩

/-! ## What the loop leaves behind -/

/-- A value that the rest of the loop does not bind stays among the operands of the call. -/
theorem adjustParams_keeps_input {value : InstId} (notParam : call ∉ params)
    (notBound : value ∉ params) (result : adjustParams first call idx params store = .ok store')
    (isInput : value ∈ store.inputs call) : value ∈ store'.inputs call := by
  induction params generalizing idx store with
  | nil =>
      cases result
      exact isInput
  | cons param params induction =>
      rw [List.mem_cons, not_or] at notParam notBound
      rcases Result.bind_eq_ok.mp result with ⟨inst, -, continued⟩
      cases operand : inst.inputs[idx]? with
      | none =>
          rw [operand] at continued
          cases continued
          exact isInput
      | some input =>
          rw [operand] at continued
          rcases Result.bind_eq_ok.mp continued with ⟨moved, moving, continued⟩
          rcases Result.bind_eq_ok.mp continued with ⟨smaller, erasing, later⟩
          apply induction notParam.2 notBound.2 later
          rw [(eraseInst_operands erasing).1, if_neg notParam.1]
          cases decEq input param with
          | isTrue same =>
              subst same
              rw [(setUsersFrom_self moving).1]
              exact isInput
          | isFalse different =>
              rw [(setUsersFrom_eq_ok' different moving).2.1]
              split_ifs
              · exact mem_map_subst.mpr (.inl ⟨isInput, notBound.1⟩)
              · exact isInput

/-- A loop that takes the parameters out of the block and out of the operands of the call has
bound them all. -/
theorem binds_of_adjustParams (waiting : Waiting store first params)
    (result : adjustParams first call idx params store = .ok store')
    (gone : ∀ param ∈ params, param ∉ store'.instructions first)
    (unused : ∀ param ∈ params, param ∉ store'.inputs call) :
    Binds first call idx params store store' := by
  induction params generalizing idx store with
  | nil =>
      cases result
      exact .done
  | cons param params induction =>
      rcases Result.bind_eq_ok.mp result with ⟨inst, found, continued⟩
      rw [inst_eq_ok] at found
      cases operand : inst.inputs[idx]? with
      | none =>
          rw [operand] at continued
          cases continued
          exact absurd (waiting.listed param List.mem_cons_self) (gone param List.mem_cons_self)
      | some input =>
          rw [operand] at continued
          rcases Result.bind_eq_ok.mp continued with ⟨moved, moving, continued⟩
          rcases Result.bind_eq_ok.mp continued with ⟨next, erasing, later⟩
          rw [← inputs_eq found] at operand
          have different : input ≠ param := by
            rintro rfl
            have notParam := waiting.not_mem operand
            rw [List.mem_cons, not_or] at notParam
            apply unused input List.mem_cons_self
            apply adjustParams_keeps_input notParam.2 (List.nodup_cons.mp waiting.distinct).1 later
            rw [(eraseInst_operands erasing).1, if_neg notParam.1, (setUsersFrom_self moving).1]
            exact List.mem_of_getElem? operand
          have replaces := waiting.replaces different moving erasing
          apply Binds.bind operand different moving erasing
          apply induction (waiting.rest different replaces) later
          · exact fun other member => gone other (List.mem_cons_of_mem _ member)
          · exact fun other member => unused other (List.mem_cons_of_mem _ member)

end LeechJit.Opt.Inlining
