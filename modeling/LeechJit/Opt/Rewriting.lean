import LeechJit.IR.Linked
import LeechJit.Opt.FoldingRun
import LeechJit.Opt.PeepHole

/-! # The rewrites of the passes

A fold, a rule that puts an operand in place of an operation, and the merge of
two shifts each take one instruction out of a linked set.
-/

namespace LeechJit.Opt

open IR Store

variable {store store' : Store} {scope : Set InstId} {id value : InstId}

/-! ## An operand in place of an operation -/

/-- What is stored after an operand has taken over. -/
theorem takeOver_eq_ok (different : value ≠ id) (notSelf : id ∉ store.inputs id)
    (result : PeepHole.takeOver store value id = .ok store') :
    ∃ middle inst bb block, Relinked store middle ∧ middle.insts id = some inst ∧
      inst.bb = some bb ∧ store.blocks bb = some block ∧ id ∈ block.instructions ∧
      store'.insts = (fun key => if key = id then none else middle.insts key) ∧
      store'.blocks = (fun key => if key = bb then
        some { block with instructions := block.instructions.erase id } else store.blocks key) ∧
      store'.nextInst = store.nextInst ∧
      (∀ key, key ≠ id → store'.inputs key =
        if key ∈ store.users value ∨ key ∈ store.users id then
          (store.inputs key).map (redirect id value)
        else store.inputs key) ∧
      ∀ key, key ≠ id → ∀ user, user ∈ store'.users key ↔
        (user ∈ store.users key ∨ (key = value ∧ user ∈ store.users id)) ∧
          ¬ (key ∈ store.inputs id ∧ user = id) := by
  rcases Result.bind_eq_ok.mp result with ⟨moved, moving, removal⟩
  rcases setUsersFrom_eq_ok' different moving with ⟨relinked, inputs, users⟩
  rcases removeInst_eq_ok removal with ⟨cleared, inst, bb, clearing, found, home, erasing⟩
  rcases clearInputs_eq_ok' clearing with ⟨relinked', inputs', users'⟩
  rcases eraseInst_eq_ok erasing with
    ⟨block, foundBlock, inBlock, insts, blocks, functions, nextInst, -⟩
  have whole := relinked.trans relinked'
  have ownInputs : moved.inputs id = store.inputs id := by
    rw [inputs]
    split_ifs
    · exact map_redirect_of_not_mem notSelf
    · rfl
  rw [whole.blocks] at foundBlock
  refine ⟨cleared, inst, bb, block, whole, found, home, foundBlock, inBlock, insts, ?_, ?_, ?_, ?_⟩
  · rw [blocks, whole.blocks]
  · rw [nextInst, whole.nextInst]
  · intro key notId
    have same : store'.inputs key = cleared.inputs key := by
      simp [Store.inputs, insts, notId]
    rw [same, inputs', if_neg notId, inputs]
    rfl
  · intro key notId user
    have same : store'.users key = cleared.users key := by
      simp [Store.users, insts, notId]
    rw [same, users', users, ownInputs]
    simp [notId]

theorem takeOver_rewritten (linked : store.Linked scope) (member : id ∈ scope)
    (binOp : store.IsBinOp id) (isInput : value ∈ store.inputs id)
    (result : PeepHole.takeOver store value id = .ok store') :
    store.Rewritten scope id none (fun key => (store.inputs key).map (redirect id value))
      store' := by
  have notSelf := linked.not_self member binOp
  have different : value ≠ id := fun equal => notSelf (equal ▸ isInput)
  rcases takeOver_eq_ok different notSelf result with
    ⟨middle, inst, bb, block, relinked, found, home, foundBlock, inBlock, insts, blocks, nextInst,
      inputsAfter, usersAfter⟩
  have kept : ∀ key ∈ scope, key ≠ id → ∀ inst, store.insts key = some inst →
      ∃ inst', store'.insts key = some inst' ∧ inst'.bare = inst.bare := by
    intro key _ notId inst stored
    rw [insts]
    dsimp only
    rw [if_neg notId]
    exact ⟨_, relinked.insts stored, rfl⟩
  apply linked.rewritten (fun key => (store.inputs key).map (redirect id value))
  case oldMem => exact member
  case kept => exact kept
  case lengths => simp
  case added =>
    intro kind isNew
    cases isNew
  case gone =>
    rintro key (isNone | rfl) -
    · have isNone' := relinked.insts_none.mpr isNone
      simp [insts, isNone']
    · simp [insts]
  case nextInst =>
    rw [nextInst]
    simp
  case placed =>
    rcases linked.stored id member with ⟨original, stored⟩
    have same := relinked.insts stored
    rw [found, Option.some.injEq] at same
    refine ⟨original, bb, block, stored, ?_, foundBlock, inBlock, blocks⟩
    rw [← home, same]
  case inputs =>
    -- Of what stays, only the users of the operation have changed operands.
    intro key keyMem
    rcases Linked.mem_leave_none.mp keyMem with ⟨keyMem, notId⟩
    rw [inputsAfter key notId]
    by_cases isUser : id ∈ store.inputs key
    · rw [if_pos (.inr ((linked.users id member key).mpr ⟨keyMem, isUser⟩))]
    · rw [map_redirect_of_not_mem isUser]
      split_ifs <;> rfl
  case inputsMem =>
    intro key keyMem input isIn
    rcases Linked.mem_leave_none.mp keyMem with ⟨keyMem, notId⟩
    apply Linked.mem_leave_none.mpr
    rcases mem_map_redirect.mp isIn with ⟨isIn, notOld⟩ | ⟨rfl, -⟩
    · exact ⟨linked.inputs key keyMem input isIn, notOld⟩
    · exact ⟨linked.inputs id member input isInput, different⟩
  case users =>
    intro key keyMem user
    rcases Linked.mem_leave_none.mp keyMem with ⟨keyMem, notId⟩
    rw [usersAfter key notId, linked.users key keyMem, linked.users id member,
      Linked.mem_leave_none, mem_map_redirect]
    constructor
    · rintro ⟨⟨userMem, uses⟩ | ⟨rfl, userMem, uses⟩, notOwn⟩
      · have notUser : user ≠ id := fun equal => notOwn ⟨equal ▸ uses, equal⟩
        exact ⟨⟨userMem, notUser⟩, .inl ⟨uses, notId⟩⟩
      · have notUser : user ≠ id := fun equal => notSelf (equal ▸ uses)
        exact ⟨⟨userMem, notUser⟩, .inr ⟨rfl, uses⟩⟩
    · rintro ⟨⟨userMem, notUser⟩, ⟨uses, -⟩ | ⟨rfl, uses⟩⟩
      · exact ⟨.inl ⟨userMem, uses⟩, fun own => notUser own.2⟩
      · exact ⟨.inr ⟨rfl, userMem, uses⟩, fun own => notUser own.2⟩
  case acyclic =>
    rcases linked.acyclic with ⟨rank, ordered⟩
    refine ⟨rank, ?_⟩
    intro user userMem userBinOp input isIn inputBinOp
    rcases Linked.mem_leave_none.mp userMem with ⟨userMem, notUser⟩
    have userWas := linked.isBinOp_of_kept kept userMem notUser userBinOp
    rcases mem_map_redirect.mp isIn with ⟨isIn, notOld⟩ | ⟨rfl, uses⟩
    · have inputWas := linked.isBinOp_of_kept kept (linked.inputs user userMem input isIn)
        notOld inputBinOp
      exact ordered user userMem userWas input isIn inputWas
    · have inputWas := linked.isBinOp_of_kept kept (linked.inputs id member input isInput)
        different inputBinOp
      exact Nat.lt_trans (ordered id member binOp input isInput inputWas)
        (ordered user userMem userWas id uses binOp)

/-! ## A constant in place of a folded instruction -/

theorem fold_inputs {val : ConstVal} (folded : ConstantFolding.fold store id = .ok val) {inst : Inst}
    (found : store.insts id = some inst) (formed : inst.Formed) :
    ConstantFolding.constAt store id = none ∧
      ∀ input ∈ inst.inputs, ∃ other, ConstantFolding.constAt store input = some other := by
  have const : ∀ input other, ConstantFolding.getConst store input = .ok other →
      ConstantFolding.constAt store input = some other := fun _ _ =>
    ConstantFolding.getConst_eq_ok.mp
  rcases inst with ⟨type, kind, users, bb, inputs⟩
  cases kind with
  | kBinOp oper =>
      obtain ⟨lhs, rhs, rfl⟩ : ∃ lhs rhs, inputs = [lhs, rhs] := List.length_eq_two.mp formed
      simp only [ConstantFolding.fold, Store.inst, found, Result.ok_bind, Inst.inputAt,
        List.getElem?_cons_zero, List.getElem?_cons_succ] at folded
      rcases Result.bind_eq_ok.mp folded with ⟨left, leftConst, folded⟩
      rcases Result.bind_eq_ok.mp folded with ⟨right, rightConst, -⟩
      refine ⟨by simp [ConstantFolding.constAt, found], ?_⟩
      intro input member
      simp only [List.mem_cons, List.not_mem_nil, or_false] at member
      rcases member with rfl | rfl
      · exact ⟨left, const _ _ leftConst⟩
      · exact ⟨right, const _ _ rightConst⟩
  | kCast =>
      obtain ⟨src, rfl⟩ : ∃ src, inputs = [src] := List.length_eq_one_iff.mp formed
      simp only [ConstantFolding.fold, Store.inst, found, Result.ok_bind, Inst.inputAt,
        List.getElem?_cons_zero] at folded
      rcases Result.bind_eq_ok.mp folded with ⟨srcVal, srcConst, -⟩
      refine ⟨by simp [ConstantFolding.constAt, found], ?_⟩
      intro input member
      rw [List.mem_singleton] at member
      exact ⟨srcVal, member ▸ const _ _ srcConst⟩
  | _ => simp [ConstantFolding.fold, Store.inst, found] at folded

/-- The parts of a fold that went through. -/
structure Fold (store : Store) (id : InstId) (val : ConstVal) (store' : Store) where
  inst : Inst
  bb : BlockId
  block : BasicBlock
  found : store.insts id = some inst
  folds : ConstantFolding.fold store id = .ok val
  notSelf : id ∉ inst.inputs
  home : inst.bb = some bb
  foundBlock : store.blocks bb = some block
  inBlock : id ∈ block.instructions
  insts : store'.insts = fun key =>
    if key = id then none
    else if key = store.nextInst then
      some { type := val.type, kind := .kConst val, users := inst.users }
    else (store.insts key).map fun other =>
      let dropped := if key ∈ inst.inputs then other.dropUser id else other
      if key ∈ inst.users then dropped.replaceInput id store.nextInst else dropped
  blocks : store'.blocks = fun key =>
    if key = bb then
      some { block with instructions := block.instructions.replace id store.nextInst }
    else store.blocks key
  nextInst : store'.nextInst = store.nextInst + 1

theorem foldInst_parts (linked : store.Linked scope) (member : id ∈ scope)
    (result : ConstantFolding.foldInst store id = .ok store') :
    ∃ val, Nonempty (Fold store id val store') := by
  rcases linked.insts member with ⟨inst, found, ownInputs, ownUsers⟩
  have folds : ∃ val, ConstantFolding.fold store id = .ok val := by
    rcases Result.bind_eq_ok.mp result with ⟨val, folded, -⟩
    exact ⟨val, folded⟩
  rcases folds with ⟨val, folded⟩
  have consts := fold_inputs folded found (linked.formed id member inst found)
  have notSelf : id ∉ inst.inputs := by
    intro own
    rcases consts.2 id own with ⟨other, isConst⟩
    rw [consts.1] at isConst
    cases isConst
  have inputsAllocated : ∀ input ∈ inst.inputs, input < store.nextInst := by
    intro input isInput
    rw [ownInputs] at isInput
    exact linked.allocated input (linked.inputs id member input isInput)
  have usersAllocated : ∀ user ∈ inst.users, user < store.nextInst := by
    intro user isUser
    rw [ownUsers] at isUser
    exact linked.allocated user ((linked.users id member user).mp isUser).1
  rcases ConstantFolding.foldInst_eq_ok found (linked.allocated id member) inputsAllocated
    usersAllocated notSelf result with
    ⟨val', bb, block, folded', home, foundBlock, inBlock, insts, blocks, nextInst⟩
  cases Except.ok.inj (folded.symm.trans folded')
  exact ⟨val, ⟨inst, bb, block, found, folded, notSelf, home, foundBlock, inBlock, insts, blocks,
    nextInst⟩⟩

namespace Fold

variable {val : ConstVal} {key : InstId}

section Stored

variable (parts : Fold store id val store') (linked : store.Linked scope) (member : id ∈ scope)

include parts linked member

theorem newInst : store'.insts store.nextInst =
    some { type := val.type, kind := .kConst val, users := parts.inst.users } := by
  simp [parts.insts, (linked.ne_nextInst member).symm]

theorem userIff (user : InstId) :
    user ∈ parts.inst.users ↔ user ∈ scope ∧ id ∈ store.inputs user := by
  rw [← users_eq parts.found]
  exact linked.users id member user

omit member

theorem oldInst (keyMem : key ∈ scope) (notId : key ≠ id) :
    store'.insts key = (store.insts key).map fun other =>
      if key ∈ parts.inst.users then
        (if key ∈ parts.inst.inputs then other.dropUser id else other).replaceInput id store.nextInst
      else if key ∈ parts.inst.inputs then other.dropUser id else other := by
  rw [parts.insts]
  dsimp only
  rw [if_neg notId, if_neg (linked.ne_nextInst keyMem)]

theorem kept : ∀ key ∈ scope, key ≠ id → ∀ inst, store.insts key = some inst →
    ∃ inst', store'.insts key = some inst' ∧ inst'.bare = inst.bare := by
  intro key keyMem notId inst stored
  rw [parts.oldInst linked keyMem notId, stored]
  refine ⟨_, rfl, ?_⟩
  dsimp only
  split_ifs <;> rfl

theorem users_kept (keyMem : key ∈ scope) (notId : key ≠ id) (user : InstId) :
    user ∈ store'.users key ↔ user ∈ store.users key ∧ user ≠ id := by
  rcases linked.stored key keyMem with ⟨other, stored⟩
  have uses := linked.users key keyMem id
  rw [Store.users, parts.oldInst linked keyMem notId, stored, users_eq stored]
  rw [users_eq stored, inputs_eq parts.found] at uses
  simp only [Option.map_some, Option.elim_some, Inst.replaceInput, apply_ite Inst.users,
    ite_self]
  by_cases isInput : key ∈ parts.inst.inputs
  · simp [isInput, Inst.dropUser]
  · have notUser : id ∉ other.users := fun isIn => isInput (uses.mp isIn).2
    simp only [isInput, if_false]
    constructor
    · intro isUser
      exact ⟨isUser, fun equal => notUser (equal ▸ isUser)⟩
    · exact And.left

end Stored

/-- What the instructions use after the fold. -/
def operands (store : Store) (id key : InstId) : List InstId :=
  if key = store.nextInst then [] else (store.inputs key).map (redirect id store.nextInst)

theorem operands_new : operands store id store.nextInst = [] := if_pos rfl

theorem operands_old (old : key ≠ store.nextInst) :
    operands store id key = (store.inputs key).map (redirect id store.nextInst) := if_neg old

section Linked

variable (parts : Fold store id val store') (linked : store.Linked scope) (member : id ∈ scope)

include parts linked member

theorem inputs_after (keyMem : key ∈ store.leave scope id (some (.kConst val))) :
    store'.inputs key = operands store id key := by
  rcases Linked.mem_leave_some.mp keyMem with ⟨keyMem, notId⟩ | rfl
  · rw [operands_old (linked.ne_nextInst keyMem)]
    rcases linked.stored key keyMem with ⟨other, stored⟩
    have isUser := parts.userIff linked member key
    rw [Store.inputs, parts.oldInst linked keyMem notId, stored, inputs_eq stored]
    rw [inputs_eq stored] at isUser
    by_cases uses : id ∈ other.inputs
    · simp only [Option.map_some, Option.elim_some, if_pos (isUser.mpr ⟨keyMem, uses⟩)]
      split_ifs <;> rfl
    · have notUser : key ∉ parts.inst.users := fun isIn => uses (isUser.mp isIn).2
      rw [map_redirect_of_not_mem uses]
      simp only [Option.map_some, Option.elim_some, if_neg notUser]
      split_ifs <;> rfl
  · rw [operands_new, inputs_eq (parts.newInst linked member)]

theorem users_after (keyMem : key ∈ store.leave scope id (some (.kConst val))) (user : InstId) :
    user ∈ store'.users key ↔
      user ∈ store.leave scope id (some (.kConst val)) ∧ key ∈ operands store id user := by
  rw [Linked.mem_leave_some]
  rcases Linked.mem_leave_some.mp keyMem with ⟨keyMem, notId⟩ | rfl
  · rw [parts.users_kept linked keyMem notId, linked.users key keyMem]
    constructor
    · rintro ⟨⟨userMem, uses⟩, notUser⟩
      rw [operands_old (linked.ne_nextInst userMem), mem_map_redirect]
      exact ⟨.inl ⟨userMem, notUser⟩, .inl ⟨uses, notId⟩⟩
    · rintro ⟨⟨userMem, notUser⟩ | rfl, uses⟩
      · rw [operands_old (linked.ne_nextInst userMem), mem_map_redirect] at uses
        rcases uses with ⟨uses, -⟩ | ⟨isNew, -⟩
        · exact ⟨⟨userMem, uses⟩, notUser⟩
        · exact absurd isNew (linked.ne_nextInst keyMem)
      · rw [operands_new] at uses
        cases uses
  · rw [users_eq (parts.newInst linked member), parts.userIff linked member]
    constructor
    · rintro ⟨userMem, uses⟩
      have notUser : user ≠ id := by
        rintro rfl
        exact parts.notSelf (inputs_eq parts.found ▸ uses)
      rw [operands_old (linked.ne_nextInst userMem), mem_map_redirect]
      exact ⟨.inl ⟨userMem, notUser⟩, .inr ⟨rfl, uses⟩⟩
    · rintro ⟨⟨userMem, notUser⟩ | rfl, uses⟩
      · rw [operands_old (linked.ne_nextInst userMem), mem_map_redirect] at uses
        rcases uses with ⟨uses, -⟩ | ⟨-, uses⟩
        · exact absurd (linked.inputs user userMem _ uses) linked.fresh
        · exact ⟨userMem, uses⟩
      · rw [operands_new] at uses
        cases uses

/-- No operation uses the constant that it did not use before as an operation. -/
theorem acyclic : ∃ rank : InstId → Nat, ∀ user ∈ store.leave scope id (some (.kConst val)),
    store'.IsBinOp user → ∀ value ∈ operands store id user, store'.IsBinOp value →
      rank value < rank user := by
  rcases linked.acyclic with ⟨rank, ordered⟩
  refine ⟨rank, ?_⟩
  intro user userMem userBinOp input isIn inputBinOp
  have notNew : input ≠ store.nextInst := by
    rintro rfl
    rcases inputBinOp with ⟨other, oper, stored, kind⟩
    cases Option.some.inj (stored.symm.trans (parts.newInst linked member))
    cases kind
  have kept := parts.kept linked
  rcases Linked.mem_leave_some.mp userMem with ⟨userMem, notUser⟩ | rfl
  · rw [operands_old (linked.ne_nextInst userMem), mem_map_redirect] at isIn
    rcases isIn with ⟨isIn, notOld⟩ | ⟨isNew, -⟩
    · have userWas := linked.isBinOp_of_kept kept userMem notUser userBinOp
      have inputWas := linked.isBinOp_of_kept kept (linked.inputs user userMem input isIn)
        notOld inputBinOp
      exact ordered user userMem userWas input isIn inputWas
    · exact absurd isNew notNew
  · rw [operands_new] at isIn
    cases isIn

theorem rewritten :
    store.Rewritten scope id (some (.kConst val)) (operands store id) store' := by
  have newInst := parts.newInst linked member
  apply linked.rewritten (operands store id)
  case oldMem => exact member
  case kept => exact parts.kept linked
  case lengths =>
    intro key keyMem notId
    simp [operands_old (linked.ne_nextInst keyMem)]
  case added =>
    intro kind isNew
    cases isNew
    exact ⟨_, newInst, rfl, rfl, trivial⟩
  case gone =>
    rintro key (isNone | rfl) notNew
    · have isOld : key ≠ store.nextInst := fun equal => notNew ⟨rfl, equal⟩
      simp [parts.insts, isNone, isOld]
    · simp [parts.insts]
  case nextInst =>
    rw [parts.nextInst]
    exact ⟨Nat.le_succ _, fun _ => Nat.lt_succ_self _⟩
  case placed =>
    exact ⟨parts.inst, parts.bb, parts.block, parts.found, parts.home, parts.foundBlock,
      parts.inBlock, parts.blocks⟩
  case inputs => exact fun key keyMem => parts.inputs_after linked member keyMem
  case inputsMem =>
    intro key keyMem input isIn
    rw [Linked.mem_leave_some]
    rcases Linked.mem_leave_some.mp keyMem with ⟨keyMem, notId⟩ | rfl
    · rw [operands_old (linked.ne_nextInst keyMem), mem_map_redirect] at isIn
      rcases isIn with ⟨isIn, notOld⟩ | ⟨rfl, -⟩
      · exact .inl ⟨linked.inputs key keyMem input isIn, notOld⟩
      · exact .inr rfl
    · rw [operands_new] at isIn
      cases isIn
  case users => exact fun key keyMem => parts.users_after linked member keyMem
  case acyclic => exact parts.acyclic linked member

end Linked

end Fold

theorem foldInst_rewritten (linked : store.Linked scope) (member : id ∈ scope)
    (result : ConstantFolding.foldInst store id = .ok store') :
    ∃ val, ConstantFolding.fold store id = .ok val ∧
      store.Rewritten scope id (some (.kConst val)) (fun key =>
        if key = store.nextInst then [] else
          (store.inputs key).map (redirect id store.nextInst)) store' := by
  rcases foldInst_parts linked member result with ⟨val, ⟨parts⟩⟩
  exact ⟨val, parts.folds, parts.rewritten linked member⟩

/-! ## One shift for two -/

/-- The parts of a merge that went through. -/
structure Merge (store : Store) (id fstShr rval left fstShamt : InstId) (store' : Store) where
  fst : Inst
  shamt : Inst
  bb : BlockId
  built : Store
  moved : Store
  changed : Store
  cleared : Store
  fstAt : store.insts fstShr = some fst
  shamtAt : store.insts fstShamt = some shamt
  isLeft : fst.inputs[0]? = some left
  isShamt : fst.inputs[1]? = some fstShamt
  oneUser : ¬ fst.users.dedup.length > 1
  const : PeepHole.isConst shamt = true
  home : fst.bb = some bb
  building : store.construct (.binOp .kAdd fstShamt rval) = .ok (store.nextInst, built)
  moving : built.setInput id 0 left = .ok moved
  settling : moved.setInput id 1 store.nextInst = .ok changed
  clearing : changed.clearInputs fstShr = .ok cleared
  replacing : cleared.replaceInst bb fstShr store.nextInst = .ok store'

/-- The first of two shifts has one user and a constant amount. -/
def PeepHole.mergeable (store : Store) (fstShr : InstId) : Bool :=
  (store.insts fstShr).any fun fst =>
    decide (fst.users.dedup.length ≤ 1) &&
      (fst.inputs[1]?.bind store.insts).any PeepHole.isConst

theorem mergeShr_eq_ok {fstShr rval : InstId}
    (result : PeepHole.mergeShr store id fstShr rval = .ok store') :
    (PeepHole.mergeable store fstShr = false ∧ store' = store) ∨
      (PeepHole.mergeable store fstShr = true ∧
        ∃ left fstShamt, Nonempty (Merge store id fstShr rval left fstShamt store')) := by
  rcases Result.bind_eq_ok.mp result with ⟨fst, fstAt, continued⟩
  rcases Result.bind_eq_ok.mp continued with ⟨fstShamt, isShamt, continued⟩
  have fstFound : store.insts fstShr = some fst := inst_eq_ok.mp fstAt
  have shamtAt : fst.inputs[1]? = some fstShamt := inputAt_eq_ok.mp isShamt
  split_ifs at continued with manyUsers
  · cases continued
    left
    refine ⟨?_, rfl⟩
    simp [PeepHole.mergeable, fstFound, Nat.not_le.mpr manyUsers]
  · rcases Result.bind_eq_ok.mp continued with ⟨shamt, shamtAt', continued⟩
    have shamtFound : store.insts fstShamt = some shamt := inst_eq_ok.mp shamtAt'
    split_ifs at continued with const
    · rcases Result.bind_eq_ok.mp continued with ⟨⟨newAdd, built⟩, building, continued⟩
      rcases construct_eq_ok building with ⟨rfl, -⟩
      rcases Result.bind_eq_ok.mp continued with ⟨left, isLeft, continued⟩
      rcases Result.bind_eq_ok.mp continued with ⟨moved, moving, continued⟩
      rcases Result.bind_eq_ok.mp continued with ⟨changed, settling, continued⟩
      rcases Result.bind_eq_ok.mp continued with ⟨cleared, clearing, continued⟩
      rcases Result.bind_eq_ok.mp continued with ⟨bb, home, replacing⟩
      have homeEq : fst.bb = some bb := by
        cases at' : fst.bb <;> simp [Inst.getBB, at'] at home ⊢
        exact home
      right
      refine ⟨?_, left, fstShamt, ⟨fst, shamt, bb, built, moved, changed, cleared, fstFound,
        shamtFound, inputAt_eq_ok.mp isLeft, shamtAt, manyUsers, const, homeEq, building, moving,
        settling, clearing, replacing⟩⟩
      simp [PeepHole.mergeable, fstFound, shamtAt, shamtFound, const, Nat.not_lt.mp manyUsers]
    · cases continued
      left
      refine ⟨?_, rfl⟩
      simp [PeepHole.mergeable, fstFound, shamtAt, shamtFound, const]

namespace Merge

variable {fstShr rval left fstShamt : InstId}

/-- What the merge needs of the two shifts and of the second amount. -/
structure Fits (store : Store) (scope : Set InstId) (id fstShr rval : InstId) : Prop where
  member : id ∈ scope
  binOp : store.IsBinOp id
  inputs : store.inputs id = [fstShr, rval]
  fstBinOp : store.IsBinOp fstShr
  rvalConst : ¬ store.IsBinOp rval

/-- How the operands and users of the merge lie. -/
structure Layout (store : Store) (scope : Set InstId) (id fstShr rval left fstShamt : InstId) :
    Prop where
  fstMem : fstShr ∈ scope
  leftMem : left ∈ scope
  shamtMem : fstShamt ∈ scope
  rvalMem : rval ∈ scope
  fstInputs : store.inputs fstShr = [left, fstShamt]
  onlyUser : ∀ user ∈ scope, fstShr ∈ store.inputs user → user = id
  idFst : id ≠ fstShr
  leftFst : left ≠ fstShr
  leftId : left ≠ id
  rvalFst : rval ≠ fstShr
  rvalId : rval ≠ id
  shamtFst : fstShamt ≠ fstShr
  shamtId : fstShamt ≠ id

theorem shamt_not_binOp (merge : Merge store id fstShr rval left fstShamt store') :
    ¬ store.IsBinOp fstShamt := by
  rintro ⟨inst, oper, found, kind⟩
  cases Option.some.inj (merge.shamtAt.symm.trans found)
  have const := merge.const
  simp [PeepHole.isConst, kind] at const

theorem layout (merge : Merge store id fstShr rval left fstShamt store') (linked : store.Linked scope)
    (fits : Fits store scope id fstShr rval) :
    Layout store scope id fstShr rval left fstShamt := by
  have fstMem : fstShr ∈ scope := linked.inputs id fits.member fstShr (by simp [fits.inputs])
  have fstInputs : store.inputs fstShr = [left, fstShamt] := by
    rcases fits.fstBinOp with ⟨inst, oper, found, kind⟩
    cases Option.some.inj (merge.fstAt.symm.trans found)
    rcases linked.two_inputs fstMem merge.fstAt kind with ⟨first, second, inputs⟩
    have isLeft := merge.isLeft
    have isShamt := merge.isShamt
    rw [inputs] at isLeft isShamt
    cases isLeft
    cases isShamt
    rw [inputs_eq merge.fstAt, inputs]
  have notSelf : fstShr ∉ store.inputs fstShr := linked.not_self fstMem fits.fstBinOp
  have idFst : id ≠ fstShr := by
    rintro rfl
    apply notSelf
    rw [fits.inputs]
    exact .head _
  constructor
  case fstMem => exact fstMem
  case leftMem => exact linked.inputs fstShr fstMem _ (by simp [fstInputs])
  case shamtMem => exact linked.inputs fstShr fstMem _ (by simp [fstInputs])
  case rvalMem => exact linked.inputs id fits.member _ (by simp [fits.inputs])
  case fstInputs => exact fstInputs
  case onlyUser =>
    intro user userMem uses
    have isUser := (linked.users fstShr fstMem user).mpr ⟨userMem, uses⟩
    have idIsUser := (linked.users fstShr fstMem id).mpr
      ⟨fits.member, by simp [fits.inputs]⟩
    rw [users_eq merge.fstAt, ← List.mem_dedup] at isUser idIsUser
    have short := merge.oneUser
    rcases shape : merge.fst.users.dedup with _ | ⟨first, _ | ⟨second, rest⟩⟩
    · rw [shape] at isUser
      cases isUser
    · rw [shape, List.mem_singleton] at isUser idIsUser
      rw [isUser, idIsUser]
    · simp [shape] at short
  case idFst => exact idFst
  case leftFst =>
    intro equal
    apply notSelf
    rw [fstInputs, ← equal]
    exact .head _
  case leftId =>
    intro equal
    rcases linked.acyclic with ⟨rank, ordered⟩
    have inner := ordered id fits.member fits.binOp fstShr (by simp [fits.inputs]) fits.fstBinOp
    have outer := ordered fstShr fstMem fits.fstBinOp id (by simp [fstInputs, equal]) fits.binOp
    exact absurd inner (Nat.lt_asymm outer)
  case rvalFst =>
    rintro rfl
    exact fits.rvalConst fits.fstBinOp
  case rvalId =>
    rintro rfl
    exact fits.rvalConst fits.binOp
  case shamtFst =>
    intro equal
    exact merge.shamt_not_binOp (by rw [equal]; exact fits.fstBinOp)
  case shamtId =>
    intro equal
    exact merge.shamt_not_binOp (by rw [equal]; exact fits.binOp)

/-- What the instructions use after the merge. -/
def operands (store : Store) (id rval left fstShamt key : InstId) : List InstId :=
  if key = store.nextInst then [fstShamt, rval]
  else if key = id then [left, store.nextInst] else store.inputs key

theorem operands_new :
    operands store id rval left fstShamt store.nextInst = [fstShamt, rval] := if_pos rfl

theorem operands_id (old : id ≠ store.nextInst) :
    operands store id rval left fstShamt id = [left, store.nextInst] := by
  rw [operands, if_neg old, if_pos rfl]

theorem operands_other {key : InstId} (old : key ≠ store.nextInst) (other : key ≠ id) :
    operands store id rval left fstShamt key = store.inputs key := by
  rw [operands, if_neg old, if_neg other]

/-- The operands and users before the first shift hands its users over. -/
theorem cleared_eq (merge : Merge store id fstShr rval left fstShamt store') (linked : store.Linked scope)
    (fits : Fits store scope id fstShr rval) :
    (∃ type, Relinked (store.newInst { type := type, kind := .kBinOp .kAdd }).2 merge.cleared) ∧
      (∀ key, key ≠ fstShr → merge.cleared.inputs key =
        operands store id rval left fstShamt key) ∧
      ∀ key user, user ∈ merge.cleared.users key ↔
        (((((key ≠ store.nextInst ∧ user ∈ store.users key) ∨
              ((key = fstShamt ∨ key = rval) ∧ user = store.nextInst)) ∧
            ¬ (key = fstShr ∧ user = id)) ∨ (key = left ∧ user = id)) ∧
            ¬ (key = rval ∧ user = id ∧ left ≠ rval) ∨
          (key = store.nextInst ∧ user = id)) ∧
        ¬ ((key = left ∨ key = fstShamt) ∧ user = fstShr) := by
  have lies := merge.layout linked fits
  have oldId : id ≠ store.nextInst := Nat.ne_of_lt (linked.allocated id fits.member)
  have oldFst : fstShr ≠ store.nextInst := Nat.ne_of_lt (linked.allocated fstShr lies.fstMem)
  rcases construct_eq_ok merge.building with ⟨-, -, type, -, relinked, inputs, users⟩
  rcases setInput_eq_ok merge.moving with ⟨inp, isInp, relinked', inputs', users'⟩
  rcases setInput_eq_ok merge.settling with ⟨inp', isInp', relinked'', inputs'', users''⟩
  rcases clearInputs_eq_ok' merge.clearing with ⟨clearedRelinked, clearedInputs, clearedUsers⟩
  have builtId : merge.built.inputs id = [fstShr, rval] := by
    rw [inputs, if_neg oldId, fits.inputs]
  have movedId : merge.moved.inputs id = [left, rval] := by
    rw [inputs', if_pos rfl, builtId]
    rfl
  rw [builtId] at isInp users'
  rw [movedId] at isInp' users''
  cases isInp
  cases isInp'
  have changedFst : merge.changed.inputs fstShr = [left, fstShamt] := by
    rw [inputs'', if_neg lies.idFst.symm, inputs', if_neg lies.idFst.symm, inputs,
      if_neg oldFst, lies.fstInputs]
  refine ⟨⟨type, ((relinked.trans relinked').trans relinked'').trans clearedRelinked⟩, ?_, ?_⟩
  · intro key notFst
    rw [clearedInputs, if_neg notFst, inputs'', movedId]
    by_cases isId : key = id
    · rw [if_pos isId, isId, operands_id oldId]
      rfl
    · rw [if_neg isId, inputs', if_neg isId, inputs]
      by_cases isNew : key = store.nextInst
      · rw [if_pos isNew, isNew, operands_new]
        rfl
      · rw [if_neg isNew, operands_other isNew isId]
  · intro key user
    have once : [fstShr, rval].count fstShr = 1 := by
      simp [lies.rvalFst]
    have count : [left, rval].count rval = 1 ↔ left ≠ rval := by
      by_cases same : left = rval <;> simp [same]
    rw [clearedUsers, users'', users', users, changedFst, once, count]
    simp only [Construct.inputs, List.mem_cons, List.not_mem_nil, or_false, and_true]

section Replaced

variable (merge : Merge store id fstShr rval left fstShamt store') (linked : store.Linked scope)
  (fits : Fits store scope id fstShr rval)

include merge linked fits

/-- What is stored after the first shift has handed its users over. -/
theorem replaced_eq :
    ∃ type middle block,
      Relinked (store.newInst { type := type, kind := .kBinOp .kAdd }).2 middle ∧
      store.blocks merge.bb = some block ∧ fstShr ∈ block.instructions ∧
      store'.insts = (fun key => if key = fstShr then none else middle.insts key) ∧
      store'.blocks = (fun key => if key = merge.bb then
        some { block with instructions := block.instructions.replace fstShr store.nextInst }
        else store.blocks key) ∧
      store'.nextInst = store.nextInst + 1 := by
  have lies := merge.layout linked fits
  rcases merge.cleared_eq linked fits with ⟨⟨type, relinked⟩, -, -⟩
  rcases replaceInst_eq_ok merge.replacing with
    ⟨middle, block, moving, foundBlock, inBlock, insts, blocks, nextInst⟩
  rcases setUsersFrom_eq_ok' (linked.ne_nextInst lies.fstMem).symm moving with ⟨relinked', -, -⟩
  have whole := relinked.trans relinked'
  have sameBlocks : middle.blocks = store.blocks := whole.blocks
  rw [sameBlocks] at foundBlock blocks
  refine ⟨type, middle, block, whole, foundBlock, inBlock, insts, blocks, ?_⟩
  rw [nextInst, whole.nextInst]
  rfl

theorem kept : ∀ key ∈ scope, key ≠ fstShr → ∀ inst, store.insts key = some inst →
    ∃ inst', store'.insts key = some inst' ∧ inst'.bare = inst.bare := by
  intro key keyMem different inst stored
  rcases merge.replaced_eq linked fits with ⟨type, middle, _, whole, -, -, insts, -⟩
  have storedNew : (store.newInst { type := type, kind := .kBinOp .kAdd }).2.insts key =
      some inst := by
    simp [newInst, setInst, linked.ne_nextInst keyMem, stored]
  rw [insts]
  dsimp only
  rw [if_neg different]
  exact ⟨_, whole.insts storedNew, rfl⟩

theorem stored_new : ∃ inst, store'.insts store.nextInst = some inst ∧
    inst.kind = .kBinOp .kAdd ∧ inst.bb = none := by
  have lies := merge.layout linked fits
  rcases merge.replaced_eq linked fits with ⟨type, middle, _, whole, -, -, insts, -⟩
  have storedNew : (store.newInst { type := type, kind := .kBinOp .kAdd }).2.insts
      store.nextInst = some { type := type, kind := .kBinOp .kAdd } := by
    simp [Store.newInst, setInst]
  rw [insts]
  dsimp only
  rw [if_neg (linked.ne_nextInst lies.fstMem).symm]
  exact ⟨_, whole.insts storedNew, rfl, rfl⟩

/-- The second shift was the only one to use the first. -/
theorem unused {key : InstId} (keyMem : key ∈ store.leave scope fstShr (some (.kBinOp .kAdd))) :
    fstShr ∉ operands store id rval left fstShamt key := by
  have lies := merge.layout linked fits
  have oldId := linked.ne_nextInst fits.member
  have oldFst := linked.ne_nextInst lies.fstMem
  rcases Linked.mem_leave_some.mp keyMem with ⟨keyMem, different⟩ | rfl
  · by_cases isId : key = id
    · rw [isId, operands_id oldId]
      simp [lies.leftFst.symm, oldFst]
    · rw [operands_other (linked.ne_nextInst keyMem) isId]
      exact fun uses => isId (lies.onlyUser key keyMem uses)
  · rw [operands_new]
    simp [lies.shamtFst.symm, lies.rvalFst.symm]

theorem ne_fst {key : InstId} (keyMem : key ∈ store.leave scope fstShr (some (.kBinOp .kAdd))) :
    key ≠ fstShr := by
  rcases Linked.mem_leave_some.mp keyMem with ⟨-, different⟩ | rfl
  · exact different
  · exact (linked.ne_nextInst (merge.layout linked fits).fstMem).symm

theorem inputs_after {key : InstId}
    (keyMem : key ∈ store.leave scope fstShr (some (.kBinOp .kAdd))) :
    store'.inputs key = operands store id rval left fstShamt key := by
  have lies := merge.layout linked fits
  have notFst := merge.ne_fst linked fits keyMem
  rcases merge.cleared_eq linked fits with ⟨-, inputs, -⟩
  rcases replaceInst_eq_ok merge.replacing with ⟨middle, _, moving, -, -, insts, -, -⟩
  rcases setUsersFrom_eq_ok' (linked.ne_nextInst lies.fstMem).symm moving with ⟨-, inputs', -⟩
  have same : store'.inputs key = middle.inputs key := by
    simp [Store.inputs, insts, notFst]
  rw [same, inputs', inputs key notFst]
  split_ifs
  · exact map_redirect_of_not_mem (merge.unused linked fits keyMem)
  · rfl

/-- The users before the first shift hands its users over, and what it hands over. -/
theorem users_eq_cleared {key : InstId}
    (keyMem : key ∈ store.leave scope fstShr (some (.kBinOp .kAdd))) (user : InstId) :
    user ∈ store'.users key ↔ (key ≠ fstShr ∧ user ∈ merge.cleared.users key) ∨
      (key = store.nextInst ∧ user ∈ merge.cleared.users fstShr) := by
  have lies := merge.layout linked fits
  rcases replaceInst_eq_ok merge.replacing with ⟨middle, _, moving, -, -, insts, -, -⟩
  rcases setUsersFrom_eq_ok' (linked.ne_nextInst lies.fstMem).symm moving with ⟨-, -, users'⟩
  have same : store'.users key = middle.users key := by
    simp [Store.users, insts, merge.ne_fst linked fits keyMem]
  rw [same, users']

/-- The users of what was there before the merge. -/
theorem users_old {key : InstId} (keyMem : key ∈ scope) (different : key ≠ fstShr)
    (user : InstId) : user ∈ store'.users key ↔
      ((user ∈ scope ∧ user ≠ fstShr) ∨ user = store.nextInst) ∧
        key ∈ operands store id rval left fstShamt user := by
  have lies := merge.layout linked fits
  have oldId := linked.ne_nextInst fits.member
  have oldFst := linked.ne_nextInst lies.fstMem
  have old := linked.ne_nextInst keyMem
  rcases merge.cleared_eq linked fits with ⟨-, -, users⟩
  rw [merge.users_eq_cleared linked fits (Linked.mem_leave_some.mpr (.inl ⟨keyMem, different⟩)),
    users]
  simp only [different, old, ne_eq, not_false_eq_true, true_and, false_and, or_false,
    linked.users key keyMem]
  by_cases isNew : user = store.nextInst
  · subst isNew
    rw [operands_new]
    simp [linked.fresh, oldId.symm, oldFst.symm]
  · by_cases isId : user = id
    · subst isId
      rw [operands_id oldId, fits.inputs]
      simp only [fits.member, lies.idFst, oldId, true_and, and_false, and_true, or_false,
        not_false_eq_true, List.mem_cons, List.not_mem_nil, different, old, false_or]
      constructor
      · rintro ⟨isRval | isLeft, notBoth⟩
        · by_contra notLeft
          exact notBoth ⟨isRval, fun equal => notLeft (isRval.trans equal.symm)⟩
        · exact isLeft
      · rintro rfl
        exact ⟨.inr rfl, fun both => both.2 both.1⟩
    · rw [operands_other isNew isId]
      simp only [isNew, isId, and_false, or_false, false_and, not_false_eq_true, and_true]
      constructor
      · rintro ⟨⟨userMem, uses⟩, notFirst⟩
        refine ⟨⟨userMem, ?_⟩, uses⟩
        rintro rfl
        rw [lies.fstInputs] at uses
        exact notFirst ⟨by simpa using uses, rfl⟩
      · rintro ⟨⟨userMem, notFirst⟩, uses⟩
        exact ⟨⟨userMem, uses⟩, fun own => notFirst own.2⟩

/-- The users of the new operation. -/
theorem users_new (user : InstId) : user ∈ store'.users store.nextInst ↔
    ((user ∈ scope ∧ user ≠ fstShr) ∨ user = store.nextInst) ∧
      store.nextInst ∈ operands store id rval left fstShamt user := by
  have lies := merge.layout linked fits
  have oldId := linked.ne_nextInst fits.member
  have oldFst := linked.ne_nextInst lies.fstMem
  have apart : ∀ other ∈ scope, store.nextInst ≠ other := fun other otherMem =>
    (linked.ne_nextInst otherMem).symm
  rcases merge.cleared_eq linked fits with ⟨-, -, users⟩
  rw [merge.users_eq_cleared linked fits (Linked.mem_leave_some.mpr (.inr rfl)), users, users]
  simp only [oldFst, oldFst.symm, apart left lies.leftMem, apart fstShamt lies.shamtMem,
    apart rval lies.rvalMem, lies.leftFst.symm, lies.shamtFst.symm, lies.rvalFst.symm,
    ne_eq, not_true, not_false_eq_true, false_and, true_and, false_or, or_false, and_true,
    linked.users fstShr lies.fstMem]
  constructor
  · rintro (rfl | ⟨⟨userMem, uses⟩, notId⟩)
    · rw [operands_id oldId]
      exact ⟨.inl ⟨fits.member, lies.idFst⟩, by simp⟩
    · exact absurd (lies.onlyUser user userMem uses) notId
  · rintro ⟨⟨userMem, -⟩ | rfl, uses⟩
    · by_contra neither
      have notId : user ≠ id := fun equal => neither (.inl equal)
      rw [operands_other (linked.ne_nextInst userMem) notId] at uses
      exact linked.fresh (linked.inputs user userMem _ uses)
    · rw [operands_new] at uses
      simp only [List.mem_cons, List.not_mem_nil, or_false] at uses
      rcases uses with isShamt | isRval
      · exact absurd isShamt (apart fstShamt lies.shamtMem)
      · exact absurd isRval (apart rval lies.rvalMem)

theorem operands_mem {key input : InstId}
    (keyMem : key ∈ store.leave scope fstShr (some (.kBinOp .kAdd)))
    (isIn : input ∈ operands store id rval left fstShamt key) :
    input ∈ store.leave scope fstShr (some (.kBinOp .kAdd)) := by
  have lies := merge.layout linked fits
  have notFirst : input ≠ fstShr := fun equal =>
    merge.unused linked fits keyMem (equal ▸ isIn)
  rw [Linked.mem_leave_some]
  rcases Linked.mem_leave_some.mp keyMem with ⟨keyMem, -⟩ | rfl
  · by_cases isId : key = id
    · rw [isId, operands_id (linked.ne_nextInst fits.member)] at isIn
      simp only [List.mem_cons, List.not_mem_nil, or_false] at isIn
      rcases isIn with rfl | rfl
      · exact .inl ⟨lies.leftMem, notFirst⟩
      · exact .inr rfl
    · rw [operands_other (linked.ne_nextInst keyMem) isId] at isIn
      exact .inl ⟨linked.inputs key keyMem input isIn, notFirst⟩
  · rw [operands_new] at isIn
    simp only [List.mem_cons, List.not_mem_nil, or_false] at isIn
    rcases isIn with rfl | rfl
    · exact .inl ⟨lies.shamtMem, notFirst⟩
    · exact .inl ⟨lies.rvalMem, notFirst⟩

/-- The new operation is computed where the first shift was. -/
theorem acyclic : ∃ rank : InstId → Nat,
    ∀ user ∈ store.leave scope fstShr (some (.kBinOp .kAdd)), store'.IsBinOp user →
      ∀ value ∈ operands store id rval left fstShamt user, store'.IsBinOp value →
        rank value < rank user := by
  have lies := merge.layout linked fits
  have oldId := linked.ne_nextInst fits.member
  have kept := merge.kept linked fits
  have constOld : ∀ key ∈ scope, key ≠ fstShr → ¬ store.IsBinOp key →
      ¬ store'.IsBinOp key := fun key keyMem different notOp isOp =>
    notOp (linked.isBinOp_of_kept kept keyMem different isOp)
  rcases linked.acyclic with ⟨rank, ordered⟩
  refine ⟨Function.update rank store.nextInst (rank fstShr), ?_⟩
  have rankOld : ∀ key ∈ scope, Function.update rank store.nextInst (rank fstShr) key =
      rank key := fun key keyMem => Function.update_of_ne (linked.ne_nextInst keyMem) _ _
  have inner := ordered id fits.member fits.binOp fstShr (by simp [fits.inputs]) fits.fstBinOp
  intro user userMem userBinOp input isIn inputBinOp
  rcases Linked.mem_leave_some.mp userMem with ⟨userMem, notFirst⟩ | rfl
  · rw [rankOld user userMem]
    have userWas := linked.isBinOp_of_kept kept userMem notFirst userBinOp
    by_cases isId : user = id
    · rw [isId, operands_id oldId] at isIn
      simp only [List.mem_cons, List.not_mem_nil, or_false] at isIn
      rcases isIn with rfl | rfl
      · have inputWas := linked.isBinOp_of_kept kept lies.leftMem lies.leftFst inputBinOp
        rw [rankOld input lies.leftMem, isId]
        exact Nat.lt_trans (ordered fstShr lies.fstMem fits.fstBinOp input
          (by simp [lies.fstInputs]) inputWas) inner
      · rw [Function.update_self, isId]
        exact inner
    · rw [operands_other (linked.ne_nextInst userMem) isId] at isIn
      have inputMem := linked.inputs user userMem input isIn
      have notFst : input ≠ fstShr := fun equal =>
        isId (lies.onlyUser user userMem (equal ▸ isIn))
      rw [rankOld input inputMem]
      exact ordered user userMem userWas input isIn
        (linked.isBinOp_of_kept kept inputMem notFst inputBinOp)
  · rw [operands_new] at isIn
    simp only [List.mem_cons, List.not_mem_nil, or_false] at isIn
    rcases isIn with rfl | rfl
    · exact absurd inputBinOp
        (constOld input lies.shamtMem lies.shamtFst merge.shamt_not_binOp)
    · exact absurd inputBinOp (constOld input lies.rvalMem lies.rvalFst fits.rvalConst)

theorem rewritten :
    store.Rewritten scope fstShr (some (.kBinOp .kAdd))
      (operands store id rval left fstShamt) store' := by
  have lies := merge.layout linked fits
  rcases merge.replaced_eq linked fits with
    ⟨type, middle, block, whole, foundBlock, inBlock, insts, blocks, nextEq⟩
  apply linked.rewritten (operands store id rval left fstShamt)
  case oldMem => exact lies.fstMem
  case kept => exact merge.kept linked fits
  case lengths =>
    intro key keyMem different
    by_cases isId : key = id
    · rw [isId, operands_id (linked.ne_nextInst fits.member), fits.inputs]
      rfl
    · rw [operands_other (linked.ne_nextInst keyMem) isId]
  case added =>
    intro kind isNew
    cases isNew
    rcases merge.stored_new linked fits with ⟨inst, found, kind, homeless⟩
    refine ⟨inst, found, kind, homeless, ?_⟩
    have two := merge.inputs_after linked fits (Linked.mem_leave_some.mpr (.inr rfl))
    rw [inputs_eq found, operands_new] at two
    simp [Inst.Formed, kind, two]
  case gone =>
    rintro key (isNone | rfl) isOld
    · have notNew : key ≠ store.nextInst := fun equal => isOld ⟨rfl, equal⟩
      have isNone' : middle.insts key = none := whole.insts_none.mpr (by
        simp [Store.newInst, setInst, notNew, isNone])
      simp [insts, isNone']
    · simp [insts]
  case nextInst =>
    rw [nextEq]
    exact ⟨Nat.le_succ _, fun _ => Nat.lt_succ_self _⟩
  case placed =>
    exact ⟨merge.fst, merge.bb, block, merge.fstAt, merge.home, foundBlock, inBlock, blocks⟩
  case inputs => exact fun key keyMem => merge.inputs_after linked fits keyMem
  case inputsMem => exact fun key keyMem input isIn => merge.operands_mem linked fits keyMem isIn
  case users =>
    intro key keyMem user
    rw [Linked.mem_leave_some]
    rcases Linked.mem_leave_some.mp keyMem with ⟨keyMem, different⟩ | rfl
    · exact merge.users_old linked fits keyMem different user
    · exact merge.users_new linked fits user
  case acyclic => exact merge.acyclic linked fits

end Replaced

end Merge

end LeechJit.Opt
