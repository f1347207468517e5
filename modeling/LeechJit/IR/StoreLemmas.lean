import LeechJit.IR.Consistent

/-! # What the operations of the store do

Each operation that changes users sets and operands is a map over the
instructions of the store; erasing and replacing change one block as well.
-/

namespace LeechJit.IR

theorem Inst.replaceInput_twice (inst : Inst) (other this : InstId) :
    (inst.replaceInput other this).replaceInput other this = inst.replaceInput other this := by
  simp only [Inst.replaceInput, List.map_map]
  congr 1
  apply List.map_congr_left
  intro input _
  by_cases same : input = other
  · by_cases unchanged : this = other <;> simp [same, unchanged]
  · simp [same]

theorem Inst.dropUser_twice (inst : Inst) (user : InstId) :
    (inst.dropUser user).dropUser user = inst.dropUser user := by
  simp [Inst.dropUser]

namespace Store

variable {store store' : Store} {id : InstId}

theorem inst_eq_ok {inst : Inst} : store.inst id = .ok inst ↔ store.insts id = some inst := by
  cases found : store.insts id <;> simp [Store.inst, found]

theorem block_eq_ok {bb : BlockId} {block : BasicBlock} :
    store.block bb = .ok block ↔ store.blocks bb = some block := by
  cases found : store.blocks bb <;> simp [Store.block, found]

/-- Every instruction is changed by `change`. -/
def mapInsts (store : Store) (change : InstId → Inst → Inst) : Store :=
  { store with insts := fun key => (store.insts key).map (change key) }

@[simp] theorem mapInsts_blocks (change : InstId → Inst → Inst) :
    (store.mapInsts change).blocks = store.blocks := rfl

@[simp] theorem mapInsts_functions (change : InstId → Inst → Inst) :
    (store.mapInsts change).functions = store.functions := rfl

@[simp] theorem mapInsts_nextInst (change : InstId → Inst → Inst) :
    (store.mapInsts change).nextInst = store.nextInst := rfl

@[simp] theorem mapInsts_nextBlock (change : InstId → Inst → Inst) :
    (store.mapInsts change).nextBlock = store.nextBlock := rfl

@[simp] theorem mapInsts_insts (change : InstId → Inst → Inst) (key : InstId) :
    (store.mapInsts change).insts key = (store.insts key).map (change key) := rfl

theorem mapInsts_mapInsts (first second : InstId → Inst → Inst) :
    (store.mapInsts first).mapInsts second =
      store.mapInsts fun key inst => second key (first key inst) := by
  simp only [mapInsts, Option.map_map]
  rfl

theorem mapInsts_id (store : Store) : store.mapInsts (fun _ inst => inst) = store := by
  simp [mapInsts]

/-- Storing a changed instruction under its own key. -/
theorem setInst_eq_mapInsts {inst changed : Inst} (found : store.insts id = some inst)
    (change : Inst → Inst) (equal : changed = change inst) :
    store.setInst id changed =
      store.mapInsts fun key other => if key = id then change other else other := by
  subst equal
  simp only [setInst, mapInsts, Store.mk.injEq, and_true]
  funext key
  by_cases same : key = id
  · simp [same, found]
  · cases other : store.insts key <;> simp [same]

theorem removeUser_eq_ok {value user : InstId} (result : store.removeUser value user = .ok store') :
    store' = store.mapInsts fun key inst =>
      if key = value then inst.dropUser user else inst := by
  rcases Result.bind_eq_ok.mp result with ⟨inst, found, stored⟩
  cases stored
  exact setInst_eq_mapInsts (inst_eq_ok.mp found) (fun other => other.dropUser user) rfl

theorem clearUses_eq_ok {inputs : List InstId}
    (result : clearUses id inputs store = .ok store') :
    store' = store.mapInsts fun key inst =>
      if key ∈ inputs then inst.dropUser id else inst := by
  induction inputs generalizing store with
  | nil =>
      cases result
      simp [mapInsts_id]
  | cons input rest induction =>
      rcases Result.bind_eq_ok.mp result with ⟨inst, found, result⟩
      rcases Result.bind_eq_ok.mp result with ⟨_, isUser, result⟩
      rcases Result.bind_eq_ok.mp result with ⟨removed, removal, result⟩
      rw [induction result, removeUser_eq_ok removal, mapInsts_mapInsts]
      congr 1
      funext key other
      by_cases isInput : key = input
      · by_cases again : key ∈ rest <;> simp [isInput ▸ again, isInput, Inst.dropUser_twice]
      · simp [isInput]

theorem clearInputs_eq_ok (result : store.clearInputs id = .ok store') :
    ∃ inst, store.insts id = some inst ∧
      store' = store.mapInsts fun key other =>
        let dropped := if key ∈ inst.inputs then other.dropUser id else other
        if key = id then { dropped with inputs := [] } else dropped := by
  rcases Result.bind_eq_ok.mp result with ⟨inst, found, result⟩
  rcases Result.bind_eq_ok.mp result with ⟨cleared, uses, result⟩
  rcases Result.bind_eq_ok.mp result with ⟨last, foundLast, stored⟩
  cases stored
  refine ⟨inst, inst_eq_ok.mp found, ?_⟩
  rw [setInst_eq_mapInsts (inst_eq_ok.mp foundLast) (fun other => { other with inputs := [] }) rfl,
    clearUses_eq_ok uses, mapInsts_mapInsts]

theorem replaceInputs_eq_ok {other this : InstId} {users : List InstId}
    (result : replaceInputs other this users store = .ok store') :
    store' = store.mapInsts fun key inst =>
      if key ∈ users then inst.replaceInput other this else inst := by
  induction users generalizing store with
  | nil =>
      cases result
      simp [mapInsts_id]
  | cons user rest induction =>
      rcases Result.bind_eq_ok.mp result with ⟨inst, found, result⟩
      rw [induction result,
        setInst_eq_mapInsts (inst_eq_ok.mp found) (fun inst => inst.replaceInput other this) rfl,
        mapInsts_mapInsts]
      congr 1
      funext key changed
      by_cases isUser : key = user
      · by_cases again : key ∈ rest <;>
          simp [isUser ▸ again, isUser, Inst.replaceInput_twice]
      · simp [isUser]

/-- The users of `other` are merged into those of `this`, and use it instead. -/
theorem setUsersFrom_eq_ok {this other : InstId} (different : this ≠ other)
    (result : store.setUsersFrom this other = .ok store') :
    ∃ thisInst otherInst, store.insts this = some thisInst ∧
      store.insts other = some otherInst ∧
      let merged := thisInst.users ++ otherInst.users.filter (· ∉ thisInst.users)
      store' = store.mapInsts fun key inst =>
        let moved := if key = this then { inst with users := merged }
          else if key = other then { inst with users := [] } else inst
        if key ∈ merged then moved.replaceInput other this else moved := by
  rcases Result.bind_eq_ok.mp result with ⟨thisInst, foundThis, result⟩
  rcases Result.bind_eq_ok.mp result with ⟨otherInst, foundOther, result⟩
  rcases Result.bind_eq_ok.mp result with ⟨otherAgain, foundAgain, result⟩
  rcases Result.bind_eq_ok.mp result with ⟨thisAgain, foundLast, result⟩
  rw [inst_eq_ok] at foundThis foundOther foundAgain foundLast
  refine ⟨thisInst, otherInst, foundThis, foundOther, ?_⟩
  have sameOther : otherAgain = otherInst := by
    simpa [setInst, different.symm, foundOther] using foundAgain.symm
  subst sameOther
  have mergedUsers : thisAgain.users =
      thisInst.users ++ otherAgain.users.filter (· ∉ thisInst.users) := by
    simp only [setInst, different, if_false, if_true, Option.some.injEq] at foundLast
    rw [← foundLast]
  have stored := replaceInputs_eq_ok result
  rw [mergedUsers] at stored
  rw [stored]
  simp only [mapInsts, setInst, Store.mk.injEq, and_true]
  funext key
  by_cases isThis : key = this
  · subst isThis
    simp [different, foundThis]
  · by_cases isOther : key = other
    · subst isOther
      simp [isThis, foundOther]
    · simp [isThis, isOther]

/-- `newInst` takes over the users of `old` and its place in the block. -/
theorem replaceInst_eq_ok {bb : BlockId} {old new : InstId}
    (result : store.replaceInst bb old new = .ok store') :
    ∃ middle block, store.setUsersFrom new old = .ok middle ∧
      middle.blocks bb = some block ∧ old ∈ block.instructions ∧
      store'.insts = (fun key => if key = old then none else middle.insts key) ∧
      store'.blocks = (fun key => if key = bb then
        some { block with instructions := block.instructions.replace old new }
        else middle.blocks key) ∧
      store'.nextInst = middle.nextInst := by
  rcases Result.bind_eq_ok.mp result with ⟨middle, users, result⟩
  rcases Result.bind_eq_ok.mp result with ⟨block, found, result⟩
  by_cases member : old ∈ block.instructions
  · simp only [member, if_true] at result
    cases result
    exact ⟨middle, block, users, block_eq_ok.mp found, member, rfl, rfl, rfl⟩
  · simp [member] at result

end Store

end LeechJit.IR
