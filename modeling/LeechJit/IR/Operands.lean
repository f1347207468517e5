import LeechJit.IR.Homes

/-! # Operands and users when blocks change

Moving instructions and blocks leaves operands and users alone. An instruction that is
erased is gone with its operands, and stays among the users of what it used.
-/

namespace LeechJit.IR.Store

variable {store middle store' : Store} {bb : BlockId} {id : InstId}

/-- Operands and users are as they were. -/
structure SameOperands (store store' : Store) : Prop where
  inputs : ∀ id, store'.inputs id = store.inputs id
  users : ∀ id, store'.users id = store.users id

namespace SameOperands

theorem refl (store : Store) : SameOperands store store :=
  ⟨fun _ => rfl, fun _ => rfl⟩

theorem trans (first : SameOperands store middle) (second : SameOperands middle store') :
    SameOperands store store' where
  inputs id := (second.inputs id).trans (first.inputs id)
  users id := (second.users id).trans (first.users id)

theorem of_insts (insts : store'.insts = store.insts) : SameOperands store store' where
  inputs id := by rw [Store.inputs, Store.inputs, insts]
  users id := by rw [Store.users, Store.users, insts]

theorem setInst {inst changed : Inst} (found : store.insts id = some inst)
    (inputs : changed.inputs = inst.inputs) (users : changed.users = inst.users) :
    SameOperands store (store.setInst id changed) where
  inputs key := by
    rw [setInst_inputs]
    cases decEq key id with
    | isTrue same => rw [if_pos same, same, inputs_eq found, inputs]
    | isFalse different => rw [if_neg different]
  users key := by
    rw [setInst_users]
    cases decEq key id with
    | isTrue same => rw [if_pos same, same, users_eq found, users]
    | isFalse different => rw [if_neg different]

theorem setBB (result : store.setBB bb id = .ok store') : SameOperands store store' := by
  rcases Result.bind_eq_ok.mp result with ⟨inst, found, stored⟩
  rw [inst_eq_ok] at found
  cases stored
  exact setInst found rfl rfl

theorem setBBs {ids : List InstId} (result : Store.setBBs bb ids store = .ok store') :
    SameOperands store store' := by
  induction ids generalizing store with
  | nil =>
      cases result
      exact refl _
  | cons first rest induction =>
      rcases Result.bind_eq_ok.mp result with ⟨next, one, later⟩
      exact (setBB one).trans (induction later)

theorem splice {pos first last : Option InstId} {other : BlockId}
    (result : store.splice bb pos other first last = .ok store') : SameOperands store store' := by
  rcases Result.bind_eq_ok.mp result with ⟨source, -, continued⟩
  rcases Result.bind_eq_ok.mp continued with ⟨⟨front, moved, back⟩, -, continued⟩
  rcases Result.bind_eq_ok.mp continued with ⟨told, telling, continued⟩
  rcases Result.bind_eq_ok.mp continued with ⟨block, -, continued⟩
  rcases Result.bind_eq_ok.mp continued with ⟨inserted, -, linking⟩
  apply (setBBs telling).trans
  split_ifs at linking
  · exact of_insts (SameInsts.updateLinks linking).insts
  · cases linking
    exact of_insts rfl

theorem appendBB {func : FuncId} (result : store.appendBB func = .ok (bb, store')) :
    SameOperands store store' := by
  rcases Result.bind_eq_ok.mp result with ⟨function, -, continued⟩
  rcases Result.bind_eq_ok.mp continued with ⟨idx, -, equal⟩
  cases equal
  exact of_insts rfl

theorem spliceBBs {func src : FuncId} {pos : BlockId}
    (result : store.spliceBBs func pos src = .ok store') : SameOperands store store' := by
  rcases Result.bind_eq_ok.mp result with ⟨source, -, continued⟩
  rcases Result.bind_eq_ok.mp continued with ⟨function, -, continued⟩
  split_ifs at continued
  cases continued
  exact of_insts rfl

/-- A block that goes takes no instruction with it when it is empty. -/
theorem eraseBB {func : FuncId} (empty : store.instructions bb = [])
    (result : store.eraseBB func bb = .ok store') : SameOperands store store' := by
  rcases Result.bind_eq_ok.mp result with ⟨function, -, continued⟩
  rcases Result.bind_eq_ok.mp continued with ⟨block, found, continued⟩
  rw [instructions_eq (block_eq_ok.mp found)] at empty
  split_ifs at continued
  cases continued
  apply of_insts
  funext key
  simp [empty, setFunction]

end SameOperands

/-- Whatever uses the instruction that is erased, what it used still has it as a user. -/
theorem eraseInst_operands (result : store.eraseInst bb id = .ok store') :
    (∀ key, store'.inputs key = if key = id then [] else store.inputs key) ∧
      ∀ key, store'.users key = if key = id then [] else store.users key := by
  rcases eraseInst_eq_ok result with ⟨block, -, -, insts, -⟩
  constructor
  · intro key
    simp only [inputs, insts]
    split_ifs <;> rfl
  · intro key
    simp only [users, insts]
    split_ifs <;> rfl

/-- What a new instruction does to operands and users. -/
structure Adds (store : Store) (operands : List InstId) (store' : Store) : Prop where
  inputs : ∀ key, store'.inputs key =
    if key = store.nextInst then operands else store.inputs key
  users : ∀ key user, user ∈ store'.users key ↔ (key ≠ store.nextInst ∧ user ∈ store.users key) ∨
    (key ∈ operands ∧ user = store.nextInst)

theorem Adds.trans {operands : List InstId} (adds : Adds store operands middle)
    (same : SameOperands middle store') : Adds store operands store' where
  inputs key := (same.inputs key).trans (adds.inputs key)
  users key user := by rw [same.users, adds.users]

theorem pushInstFront_adds {new : Construct} (result : store.pushInstFront bb new = .ok (id, store')) :
    id = store.nextInst ∧ Adds store new.inputs store' := by
  rcases Result.bind_eq_ok.mp result with ⟨⟨key, made⟩, making, continued⟩
  rcases Result.bind_eq_ok.mp continued with ⟨block, -, continued⟩
  rcases Result.bind_eq_ok.mp continued with ⟨placed, placing, equal⟩
  cases equal
  rcases construct_eq_ok making with ⟨isNew, -, type, -, -, inputs, users⟩
  have adds : Adds store new.inputs made := ⟨inputs, users⟩
  have listed : SameOperands made (made.setBlock bb
      { block with instructions := id :: block.instructions }) := .of_insts rfl
  exact ⟨isNew, (adds.trans listed).trans (.setBB placing)⟩

theorem pushInstBack_adds {new : Construct} (result : store.pushInstBack bb new = .ok (id, store')) :
    id = store.nextInst ∧ Adds store new.inputs store' := by
  rcases Result.bind_eq_ok.mp result with ⟨⟨key, made⟩, making, continued⟩
  rcases Result.bind_eq_ok.mp continued with ⟨block, -, continued⟩
  rcases Result.bind_eq_ok.mp continued with ⟨placed, placing, continued⟩
  rcases Result.bind_eq_ok.mp continued with ⟨linked, linking, equal⟩
  cases equal
  rcases construct_eq_ok making with ⟨isNew, -, type, -, -, inputs, users⟩
  have adds : Adds store new.inputs made := ⟨inputs, users⟩
  have listed : SameOperands made (made.setBlock bb
      { block with instructions := block.instructions ++ [id] }) := .of_insts rfl
  have linked : SameOperands placed store' := .of_insts (SameInsts.updateLinks linking).insts
  exact ⟨isNew, ((adds.trans listed).trans (.setBB placing)).trans linked⟩

/-! ## Users that are taken over -/

/-- A value that takes over its own users loses them. -/
theorem setUsersFrom_self {this : InstId} (result : store.setUsersFrom this this = .ok store') :
    (∀ key, store'.inputs key = store.inputs key) ∧
      ∀ key, store'.users key = if key = this then [] else store.users key := by
  rcases Result.bind_eq_ok.mp result with ⟨thisInst, foundThis, continued⟩
  rcases Result.bind_eq_ok.mp continued with ⟨otherInst, foundOther, continued⟩
  rcases Result.bind_eq_ok.mp continued with ⟨otherAgain, foundAgain, continued⟩
  rcases Result.bind_eq_ok.mp continued with ⟨thisAgain, foundLast, continued⟩
  rw [inst_eq_ok] at foundThis foundAgain foundLast
  simp only [setInst, if_true, Option.some.injEq] at foundAgain foundLast
  subst foundLast
  cases continued
  subst foundAgain
  constructor
  · intro key
    rw [setInst_inputs, setInst_inputs]
    split_ifs with isThis
    · rw [isThis, inputs_eq foundThis]
    · rfl
  · intro key
    rw [setInst_users, setInst_users]
    split_ifs <;> rfl

theorem exists_replaceInputs {other this : InstId} {users : List InstId}
    (stored : ∀ user ∈ users, store.kindOf user ≠ none) :
    ∃ store', replaceInputs other this users store = .ok store' := by
  induction users generalizing store with
  | nil => exact ⟨store, rfl⟩
  | cons user rest induction =>
      rcases kindOf_ne_none.mp (stored user List.mem_cons_self) with ⟨inst, found⟩
      have relinked : Relinked store (store.setInst user (inst.replaceInput other this)) :=
        .setInst found rfl
      have later : ∀ next ∈ rest,
          (store.setInst user (inst.replaceInput other this)).kindOf next ≠ none := by
        intro next member
        rw [relinked.kindOf]
        exact stored next (List.mem_cons_of_mem _ member)
      rcases induction later with ⟨store', replaced⟩
      exact ⟨store', Result.bind_eq_ok.mpr ⟨inst, inst_eq_ok.mpr found, replaced⟩⟩

theorem exists_setUsersFrom {this other : InstId} (different : this ≠ other)
    (thisStored : store.kindOf this ≠ none) (otherStored : store.kindOf other ≠ none)
    (thisUsers : ∀ user ∈ store.users this, store.kindOf user ≠ none)
    (otherUsers : ∀ user ∈ store.users other, store.kindOf user ≠ none) :
    ∃ store', store.setUsersFrom this other = .ok store' := by
  rcases kindOf_ne_none.mp thisStored with ⟨thisInst, foundThis⟩
  rcases kindOf_ne_none.mp otherStored with ⟨otherInst, foundOther⟩
  rw [users_eq foundThis] at thisUsers
  rw [users_eq foundOther] at otherUsers
  let merged := thisInst.users ++ otherInst.users.filter (· ∉ thisInst.users)
  have stored : ∀ user ∈ merged, store.kindOf user ≠ none := by
    intro user member
    cases List.mem_append.mp member with
    | inl isUser => exact thisUsers user isUser
    | inr isUser => exact otherUsers user (List.mem_of_mem_filter isUser)
  let thisMerged : Inst := { thisInst with users := merged }
  let otherEmptied : Inst := { otherInst with users := [] }
  let grown := store.setInst this thisMerged
  let emptied := grown.setInst other otherEmptied
  have otherAgain : grown.insts other = some otherInst := by
    simp only [grown, setInst, different.symm, if_false, foundOther]
  have thisAgain : emptied.insts this = some thisMerged := by
    simp only [emptied, grown, setInst, different, if_false, if_true]
  have toGrown : Relinked store grown := .setInst foundThis rfl
  have toEmptied : Relinked grown emptied := .setInst otherAgain rfl
  have storedAgain : ∀ user ∈ merged, emptied.kindOf user ≠ none := by
    intro user member
    rw [toEmptied.kindOf, toGrown.kindOf]
    exact stored user member
  rcases exists_replaceInputs storedAgain with ⟨store', replaced⟩
  exact ⟨store', Result.bind_eq_ok.mpr ⟨thisInst, inst_eq_ok.mpr foundThis,
    Result.bind_eq_ok.mpr ⟨otherInst, inst_eq_ok.mpr foundOther,
      Result.bind_eq_ok.mpr ⟨otherInst, inst_eq_ok.mpr otherAgain,
        Result.bind_eq_ok.mpr ⟨thisMerged, inst_eq_ok.mpr thisAgain, replaced⟩⟩⟩⟩⟩

theorem replaceInputs_stored {other this : InstId} {users : List InstId}
    (result : replaceInputs other this users store = .ok store') :
    ∀ user ∈ users, store.kindOf user ≠ none := by
  induction users generalizing store with
  | nil => simp
  | cons first rest induction =>
      rcases Result.bind_eq_ok.mp result with ⟨inst, found, later⟩
      rw [inst_eq_ok] at found
      have relinked : Relinked store (store.setInst first (inst.replaceInput other this)) :=
        .setInst found rfl
      intro user member
      cases member with
      | head => exact kindOf_ne_none.mpr ⟨inst, found⟩
      | tail _ member =>
          rw [← relinked.kindOf]
          exact induction later user member

/-- All users are followed, those that `this` has before as well. -/
theorem setUsersFrom_stored {this other : InstId} (different : this ≠ other)
    (result : store.setUsersFrom this other = .ok store') {user : InstId}
    (isUser : user ∈ store.users this ∨ user ∈ store.users other) : store.kindOf user ≠ none := by
  rcases Result.bind_eq_ok.mp result with ⟨thisInst, foundThis, continued⟩
  rcases Result.bind_eq_ok.mp continued with ⟨otherInst, foundOther, continued⟩
  rcases Result.bind_eq_ok.mp continued with ⟨otherAgain, foundAgain, continued⟩
  rcases Result.bind_eq_ok.mp continued with ⟨thisAgain, foundLast, replacing⟩
  rw [inst_eq_ok] at foundThis foundOther foundAgain foundLast
  rw [users_eq foundThis, users_eq foundOther] at isUser
  have merged : user ∈ thisAgain.users := by
    simp only [setInst, different, if_false, if_true, Option.some.injEq] at foundLast
    subst foundLast
    rw [List.mem_append, List.mem_filter]
    by_cases already : user ∈ thisInst.users
    · exact .inl already
    · exact .inr ⟨isUser.resolve_left already, by simpa using already⟩
  have stored := replaceInputs_stored replacing user merged
  by_cases isThis : user = this
  · exact kindOf_ne_none.mpr ⟨thisInst, isThis ▸ foundThis⟩
  · by_cases isOther : user = other
    · exact kindOf_ne_none.mpr ⟨otherInst, isOther ▸ foundOther⟩
    · simpa [kindOf, setInst, isThis, isOther] using stored
theorem exists_eraseInst (member : id ∈ store.instructions bb) :
    ∃ store', store.eraseInst bb id = .ok store' := by
  cases found : store.blocks bb with
  | none => simp [instructions, found] at member
  | some block =>
      rw [instructions_eq found] at member
      exact ⟨_, Result.bind_eq_ok.mpr ⟨block, block_eq_ok.mpr found, if_pos member⟩⟩
/-! ## Users that stay -/

/-- Whoever used a value that is not in `lost` uses it still. -/
def KeepsUsers (lost : List InstId) (store store' : Store) : Prop :=
  ∀ key ∉ lost, ∀ user ∈ store.users key, user ∈ store'.users key

namespace KeepsUsers

variable {lost more : List InstId}

theorem refl (store : Store) : KeepsUsers lost store store :=
  fun _ _ _ isUser => isUser

theorem trans (first : KeepsUsers lost store middle) (second : KeepsUsers more middle store') :
    KeepsUsers (lost ++ more) store store' := by
  intro key notLost user isUser
  rw [List.mem_append, not_or] at notLost
  exact second key notLost.2 user (first key notLost.1 user isUser)

theorem mono (keeps : KeepsUsers lost store store') (subset : lost ⊆ more) :
    KeepsUsers more store store' :=
  fun key notMore => keeps key fun member => notMore (subset member)

theorem eraseInst (result : store.eraseInst bb id = .ok store') :
    KeepsUsers [id] store store' := by
  intro key notLost user isUser
  rw [(eraseInst_operands result).2, if_neg (List.ne_of_not_mem_cons notLost)]
  exact isUser

theorem adds {operands : List InstId} (allocated : store.Allocated)
    (adds : Adds store operands store') : KeepsUsers lost store store' := by
  intro key _ user isUser
  apply (adds.users key user).mpr
  left
  refine ⟨?_, isUser⟩
  intro isNew
  cases found : store.insts key with
  | none => simp [users, found] at isUser
  | some inst =>
      have below := allocated key (by rw [homeOf_eq found]; simp)
      exact absurd isNew (Nat.ne_of_lt below)

theorem addNode {phi val : InstId} (result : store.addNode phi val bb = .ok store') :
    KeepsUsers lost store store' := by
  rcases Result.bind_eq_ok.mp result with ⟨inst, found, adding⟩
  rw [inst_eq_ok] at found
  cases kind : inst.kind with
  | kPhi vars =>
      simp only [kind] at adding
      intro key _ user isUser
      have grown : SameOperands store (store.setInst phi
          { inst with kind := .kPhi (vars ++ [⟨val, bb⟩]) }) := .setInst found rfl rfl
      apply ((addInput_eq_ok adding).2.2 key user).mpr
      left
      rw [grown.users]
      exact isUser
  | _ => simp [kind] at adding

/-- Only the users of `other` go elsewhere. -/
theorem setUsersFrom {this other : InstId} (result : store.setUsersFrom this other = .ok store') :
    KeepsUsers [other] store store' := by
  intro key notLost user isUser
  have different := List.ne_of_not_mem_cons notLost
  cases decEq this other with
  | isFalse apart =>
      apply ((setUsersFrom_eq_ok' apart result).2.2 key user).mpr
      exact .inl ⟨different, isUser⟩
  | isTrue same =>
      subst same
      rw [(setUsersFrom_self result).2, if_neg different]
      exact isUser

end KeepsUsers

end LeechJit.IR.Store
