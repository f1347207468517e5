import LeechJit.Foundation.Outermost
import LeechJit.IR.Check
import LeechJit.IR.Precedence
import LeechJit.IR.StoreLemmas
import LeechJit.Opt.ChecksElimination

/-! # Which checks are eliminated

A check goes when a check among the users of its operand covers it and dominates it.
Of the checks that cover one and dominate it the outermost stays, so erasing some of
them on the way changes nothing.
-/

namespace LeechJit.Opt.ChecksElimination

open IR Store

variable {before store store' : Store} {func : Function} {op user input bound : InstId}
  {isDominatorBB : BlockId → BlockId → Bool} {order : Store → InstId → List InstId}

/-- A zero check, or a bounds check. -/
def IsCheckKind (kind : InstKind) : Prop :=
  kind = .kUnaryOp .kZeroCheck ∨ kind = .kBinOp .kBoundsCheck

/-- A zero check has one operand, and a bounds check has two. -/
theorem IsCheckKind.inputs {inst : Inst} (isKind : IsCheckKind inst.kind) (shaped : inst.Shaped) :
    (inst.kind = .kUnaryOp .kZeroCheck ∧ ∃ input, inst.inputs = [input]) ∨
    (inst.kind = .kBinOp .kBoundsCheck ∧ ∃ index bound, inst.inputs = [index, bound]) := by
  rcases isKind with kind | kind
  · rw [Inst.Shaped, kind] at shaped
    exact .inl ⟨kind, List.length_eq_one_iff.mp shaped⟩
  · rw [Inst.Shaped, kind] at shaped
    exact .inr ⟨kind, List.length_eq_two.mp shaped⟩

def IsCheck (store : Store) (id : InstId) : Prop :=
  ∃ inst, store.insts id = some inst ∧ IsCheckKind inst.kind

/-- The same check: the same kind with the same operands in the same positions. -/
def SameCheck (store : Store) (op other : InstId) : Prop :=
  ∃ inst otherInst, store.insts op = some inst ∧ store.insts other = some otherInst ∧
    IsCheckKind inst.kind ∧ otherInst.kind = inst.kind ∧ otherInst.inputs = inst.inputs

/-- What the pass takes for the same check: the first operand may be any of the other's. -/
def Covers (store : Store) (op other : InstId) : Prop :=
  ∃ inst otherInst, store.insts op = some inst ∧ store.insts other = some otherInst ∧
    IsCheckKind inst.kind ∧ otherInst.kind = inst.kind ∧
    (∃ input, inst.inputs[0]? = some input ∧ input ∈ otherInst.inputs) ∧
    otherInst.inputs[1]? = inst.inputs[1]?

/-! ## One check -/

theorem dropWhile_filter {gone : List InstId} {dom : InstId} (left : dom ∉ gone)
    (ids : List InstId) :
    (ids.filter (· ∉ gone)).dropWhile (· ≠ dom) =
      (ids.dropWhile (· ≠ dom)).filter (· ∉ gone) := by
  induction ids with
  | nil => rfl
  | cons head rest induction =>
      by_cases isDom : head = dom
      · subst isDom
        rw [List.filter_cons_of_pos (by simpa using left), List.dropWhile_cons_of_neg (by simp),
          List.dropWhile_cons_of_neg (by simp), List.filter_cons_of_pos (by simpa using left)]
      · rw [List.dropWhile_cons_of_pos (by simpa using isDom)]
        by_cases isGone : head ∈ gone
        · rw [List.filter_cons_of_neg (by simpa using isGone)]
          exact induction
        · rw [List.filter_cons_of_pos (by simpa using isGone),
            List.dropWhile_cons_of_pos (by simpa using isDom)]
          exact induction

/-- The check goes from its block and from the users of `input`. -/
theorem eraseCheck_eq_ok (result : eraseCheck store input op = .ok store') :
    ∃ inst bb block, store.insts op = some inst ∧ inst.bb = some bb ∧
      store.blocks bb = some block ∧
      store'.insts = (fun key => if key = op then none
        else (store.insts key).map fun inst => if key = input then inst.dropUser op else inst) ∧
      store'.blocks = fun key => if key = bb then
        some { block with instructions := block.instructions.erase op } else store.blocks key := by
  rcases Result.bind_eq_ok.mp result with ⟨removed, removing, continued⟩
  rcases Result.bind_eq_ok.mp continued with ⟨inst, found, continued⟩
  rcases Result.bind_eq_ok.mp continued with ⟨bb, home, erasing⟩
  cases removeUser_eq_ok removing
  rcases eraseInst_eq_ok erasing with ⟨block, foundBlock, inBlock, insts, blocks, -, -, -⟩
  rw [mapInsts_blocks] at foundBlock
  rw [inst_eq_ok, mapInsts_insts] at found
  rcases Option.map_eq_some_iff.mp found with ⟨original, foundOriginal, rfl⟩
  refine ⟨original, bb, block, foundOriginal, ?_, foundBlock, insts, blocks⟩
  have sameHome : (if op = input then original.dropUser op else original).bb = original.bb := by
    split <;> rfl
  rw [Inst.getBB, sameHome] at home
  cases isHome : original.bb with
  | none =>
      rw [isHome] at home
      cases home
  | some own =>
      rw [isHome] at home
      cases home
      rfl

theorem eraseCheck_users (result : eraseCheck store input op = .ok store') {key other : InstId}
    (notOp : key ≠ op) :
    other ∈ store'.users key ↔ other ∈ store.users key ∧ ¬ (key = input ∧ other = op) := by
  rcases eraseCheck_eq_ok result with ⟨-, -, -, -, -, -, insts, -⟩
  rw [Store.users, insts, Store.users]
  simp only [if_neg notOp]
  cases store.insts key with
  | none => simp
  | some inst => by_cases isInput : key = input <;> simp [isInput, Inst.dropUser]

/-- What is left of a function after the checks `gone` have been erased. -/
structure Trimmed (before : Store) (func : Function) (gone : List InstId) (store : Store) :
    Prop where
  goneMem : ∀ id ∈ gone, id ∈ before.listed func
  insts : ∀ id ∈ before.listed func, id ∉ gone → ∀ inst, before.insts id = some inst →
    ∃ users, store.insts id = some { inst with users := users }
  erased : ∀ id ∈ gone, store.insts id = none
  lists : ∀ bb ∈ func.bbs, store.instructions bb = (before.instructions bb).filter (· ∉ gone)
  blocks : ∀ bb ∈ func.bbs, ∃ block, store.blocks bb = some block
  users : ∀ value ∈ before.listed func, value ∉ gone → ∀ user ∈ before.listed func, user ∉ gone →
    (user ∈ store.users value ↔ value ∈ before.inputs user)
  usersMem : ∀ value ∈ before.listed func, ∀ user ∈ store.users value, user ∈ before.listed func

namespace Trimmed

variable {gone : List InstId}

theorem start (wellFormed : before.WellFormed func) : Trimmed before func [] before where
  goneMem id member := by cases member
  insts id member _ inst found := ⟨inst.users, found⟩
  erased id member := by cases member
  lists bb bbMem := by simp
  blocks := wellFormed.blocks
  users value valueMem _ user userMem _ := by
    rw [wellFormed.housed.linked.users value valueMem]
    exact and_iff_right userMem
  usersMem value valueMem user isUser :=
    ((wellFormed.housed.linked.users value valueMem user).mp isUser).1

/-- Dominance between instructions that are left is what it was. -/
theorem isDominator_eq (trimmed : Trimmed before func gone store)
    (wellFormed : before.WellFormed func) {dom node : InstId} (domMem : dom ∈ before.listed func)
    (nodeMem : node ∈ before.listed func) (domLeft : dom ∉ gone) (nodeLeft : node ∉ gone) :
    isDominator isDominatorBB store dom node = isDominator isDominatorBB before dom node := by
  rcases wellFormed.inst domMem with ⟨bb, bbMem, domIn, domInst, domFound, domFits⟩
  rcases wellFormed.inst nodeMem with ⟨other, otherMem, nodeIn, nodeInst, nodeFound, nodeFits⟩
  rcases trimmed.insts dom domMem domLeft domInst domFound with ⟨domUsers, domFound'⟩
  rcases trimmed.insts node nodeMem nodeLeft nodeInst nodeFound with ⟨nodeUsers, nodeFound'⟩
  rcases wellFormed.blocks bb bbMem with ⟨block, blockFound⟩
  rcases trimmed.blocks bb bbMem with ⟨block', blockFound'⟩
  have lists := trimmed.lists bb bbMem
  rw [instructions_eq blockFound, instructions_eq blockFound'] at lists
  simp only [isDominator, Store.inst, domFound, nodeFound, domFound', nodeFound', Result.ok_bind,
    Inst.getBB, domFits.home, nodeFits.home, Store.block, blockFound, blockFound', lists,
    dropWhile_filter domLeft, List.mem_filter, nodeLeft, not_false_eq_true, decide_true, and_true]

/-- A check goes from its block and from the users of its first operand. -/
theorem eraseCheck (trimmed : Trimmed before func gone store) (wellFormed : before.WellFormed func)
    (member : op ∈ before.listed func) (left : op ∉ gone)
    (result : eraseCheck store input op = .ok store') :
    Trimmed before func (op :: gone) store' := by
  rcases eraseCheck_eq_ok result with ⟨inst, bb, block, found, home, foundBlock, insts, blocks⟩
  have instsAfter : ∀ key, key ≠ op → store'.insts key = (store.insts key).map fun inst =>
      if key = input then inst.dropUser op else inst := by
    intro key notOp
    rw [insts]
    exact if_neg notOp
  have listAfter : ∀ key, store'.instructions key =
      if key = bb then (store.instructions key).erase op else store.instructions key := by
    intro key
    rw [instructions, blocks]
    dsimp only
    split_ifs with isBlock
    · rw [isBlock, instructions_eq foundBlock]
      rfl
    · rfl
  have homeBlock : bb ∈ func.bbs ∧ op ∈ before.instructions bb := by
    rcases wellFormed.inst member with ⟨own, ownMem, inOwn, opInst, opFound, fits⟩
    rcases trimmed.insts op member left opInst opFound with ⟨users, opFound'⟩
    cases Option.some.inj (found.symm.trans opFound')
    cases Option.some.inj (home.symm.trans fits.home)
    exact ⟨ownMem, inOwn⟩
  rcases homeBlock with ⟨bbMem, inBefore⟩
  constructor
  case goneMem =>
    intro id isGone
    rcases List.mem_cons.mp isGone with rfl | isGone
    · exact member
    · exact trimmed.goneMem id isGone
  case insts =>
    intro id idMem idLeft inst found
    rw [List.mem_cons, not_or] at idLeft
    rcases trimmed.insts id idMem idLeft.2 inst found with ⟨users, found'⟩
    rw [instsAfter id idLeft.1, found']
    by_cases isInput : id = input
    · exact ⟨_, by simp [isInput, Inst.dropUser]; rfl⟩
    · exact ⟨users, by simp [isInput]⟩
  case erased =>
    intro id isGone
    by_cases isOp : id = op
    · rw [insts]
      exact if_pos isOp
    · rw [instsAfter id isOp,
        trimmed.erased id ((List.mem_cons.mp isGone).resolve_left isOp), Option.map_none]
  case lists =>
    intro key keyMem
    have lists := trimmed.lists key keyMem
    have nodup := wellFormed.instructions_nodup keyMem
    have drop : (before.instructions key).filter (· ∉ op :: gone) =
        ((before.instructions key).filter (· ∉ gone)).filter (· ≠ op) := by
      rw [List.filter_filter]
      congr 1
      funext id
      simp
    rw [drop, ← lists, listAfter]
    by_cases isBlock : key = bb
    · subst isBlock
      rw [if_pos rfl, (lists ▸ nodup.filter _ : (store.instructions key).Nodup).erase_eq_filter]
      congr 1
      funext id
      by_cases isOp : id = op <;> simp [isOp]
    · rw [if_neg isBlock]
      symm
      rw [List.filter_eq_self]
      intro id inKey
      rw [lists, List.mem_filter] at inKey
      have notOp : id ≠ op := by
        rintro rfl
        exact isBlock (wellFormed.home_unique keyMem bbMem inKey.1 inBefore)
      simpa using notOp
  case blocks =>
    intro key keyMem
    rw [blocks]
    dsimp only
    by_cases isBlock : key = bb
    · exact ⟨_, if_pos isBlock⟩
    · rw [if_neg isBlock]
      exact trimmed.blocks key keyMem
  case users =>
    intro value valueMem valueLeft user userMem userLeft
    rw [List.mem_cons, not_or] at valueLeft userLeft
    rw [eraseCheck_users result valueLeft.1,
      trimmed.users value valueMem valueLeft.2 user userMem userLeft.2]
    exact and_iff_left fun both => userLeft.1 both.2
  case usersMem =>
    intro value valueMem user isUser
    by_cases isOp : value = op
    · simp only [Store.users, insts, if_pos isOp, Option.elim_none, List.not_mem_nil] at isUser
    · exact trimmed.usersMem value valueMem user ((eraseCheck_users result isOp).mp isUser).1

end Trimmed

/-! ## The loop over the users -/

section Loop

variable {isCheck : Inst → Result Bool} {users : List InstId}

/-- Once the check is gone the loop must not ask about it again. -/
theorem elimLoop_gone (isGone : store.insts op = none)
    (result : elimLoop isDominatorBB isCheck input op users store = .ok store') :
    store' = store ∧ ∀ user ∈ users, user ≠ op →
      ∃ inst, store.insts user = some inst ∧ isCheck inst = .ok false := by
  induction users with
  | nil =>
      cases result
      exact ⟨rfl, List.forall_mem_nil _⟩
  | cons user rest induction =>
      rw [elimLoop] at result
      split_ifs at result with isOp
      · rcases induction result with ⟨same, others⟩
        exact ⟨same, List.forall_mem_cons.mpr ⟨fun different => absurd isOp.symm different, others⟩⟩
      · rcases Result.bind_eq_ok.mp result with ⟨inst, found, continued⟩
        rcases Result.bind_eq_ok.mp continued with ⟨check, checking, continued⟩
        split_ifs at continued with isTrue
        · rcases Result.bind_eq_ok.mp continued with ⟨dominates, asking, -⟩
          rw [isDominator, if_neg (Ne.symm isOp)] at asking
          rcases Result.bind_eq_ok.mp asking with ⟨_, -, asking⟩
          rcases Result.bind_eq_ok.mp asking with ⟨_, opFound, -⟩
          rw [inst_eq_ok, isGone] at opFound
          cases opFound
        · rcases induction continued with ⟨same, others⟩
          rw [Bool.not_eq_true] at isTrue
          subst isTrue
          exact ⟨same, List.forall_mem_cons.mpr ⟨fun _ => ⟨inst, inst_eq_ok.mp found, checking⟩,
            others⟩⟩

/-- The check `op` goes because of its user `user`. -/
def Justifies (isDominatorBB : BlockId → BlockId → Bool) (isCheck : Inst → Result Bool)
    (store : Store) (op user : InstId) : Prop :=
  user ≠ op ∧ ∃ inst, store.insts user = some inst ∧ isCheck inst = .ok true ∧
    isDominator isDominatorBB store user op = .ok true

/-- The loop leaves everything as it is, or one of the users makes it erase the check. -/
theorem elimLoop_cases
    (result : elimLoop isDominatorBB isCheck input op users store = .ok store') :
    (store' = store ∧ ∀ key ∈ users, ¬ Justifies isDominatorBB isCheck store op key) ∨
    (eraseCheck store input op = .ok store' ∧
      ∃ key ∈ users, Justifies isDominatorBB isCheck store op key) := by
  induction users with
  | nil =>
      cases result
      exact .inl ⟨rfl, List.forall_mem_nil _⟩
  | cons user rest induction =>
      have later (skips : ¬ Justifies isDominatorBB isCheck store op user)
          (running : elimLoop isDominatorBB isCheck input op rest store = .ok store') :
          (store' = store ∧ ∀ key ∈ user :: rest,
            ¬ Justifies isDominatorBB isCheck store op key) ∨
          (eraseCheck store input op = .ok store' ∧
            ∃ key ∈ user :: rest, Justifies isDominatorBB isCheck store op key) := by
        rcases induction running with ⟨same, kept⟩ | ⟨erasing, other, otherMem, which⟩
        · exact .inl ⟨same, List.forall_mem_cons.mpr ⟨skips, kept⟩⟩
        · exact .inr ⟨erasing, other, List.mem_cons_of_mem _ otherMem, which⟩
      rw [elimLoop] at result
      split_ifs at result with isOp
      · exact later (fun justifies => justifies.1 isOp.symm) result
      · rcases Result.bind_eq_ok.mp result with ⟨inst, found, continued⟩
        rcases Result.bind_eq_ok.mp continued with ⟨check, checking, continued⟩
        rw [inst_eq_ok] at found
        split_ifs at continued with isTrue
        · subst isTrue
          rcases Result.bind_eq_ok.mp continued with ⟨dominates, asking, continued⟩
          split_ifs at continued with isTrue
          · subst isTrue
            rcases Result.bind_eq_ok.mp continued with ⟨erased, erasing, running⟩
            have isGone : erased.insts op = none := by
              rcases Result.bind_eq_ok.mp erasing with ⟨removed, -, erasing⟩
              rcases Result.bind_eq_ok.mp erasing with ⟨_, -, erasing⟩
              rcases Result.bind_eq_ok.mp erasing with ⟨bb, -, erasing⟩
              rcases eraseInst_eq_ok erasing with ⟨_, -, -, insts, -⟩
              rw [insts]
              exact if_pos rfl
            rw [(elimLoop_gone isGone running).1]
            exact .inr ⟨erasing, user, List.mem_cons_self, Ne.symm isOp, inst, found, checking,
              asking⟩
          · apply later _ continued
            intro justifies
            rcases justifies with ⟨-, _, -, -, asked⟩
            rw [asking] at asked
            exact isTrue (Except.ok.inj asked)
        · apply later _ continued
          intro justifies
          rcases justifies with ⟨-, again, foundAgain, checked, -⟩
          cases Option.some.inj (found.symm.trans foundAgain)
          rw [checking] at checked
          exact isTrue (Except.ok.inj checked)

end Loop

/-! ## The loop over the candidates -/

/-- `order` goes through each users set. -/
def Enumerates (order : Store → InstId → List InstId) : Prop :=
  ∀ store value user, user ∈ order store value ↔ user ∈ store.users value

/-- A check that covers `op`, other than `op` itself, dominates it. -/
def Dominated (isDominatorBB : BlockId → BlockId → Bool) (store : Store) (func : Function)
    (gone : List InstId) (op : InstId) : Prop :=
  ∃ other ∈ store.listed func, other ∉ gone ∧ other ≠ op ∧ Covers store op other ∧
    isDominator isDominatorBB store other op = .ok true

theorem boundsCheckUser_eq {inst : Inst} (shaped : inst.Shaped) :
    boundsCheckUser bound inst = .ok true ↔
      inst.kind = .kBinOp .kBoundsCheck ∧ inst.inputs[1]? = some bound := by
  rcases inst with ⟨type, kind, users, bb, inputs⟩
  cases kind with
  | kBinOp oper =>
      cases oper with
      | kBoundsCheck =>
          rcases List.length_eq_two.mp shaped with ⟨first, second, rfl⟩
          simp [boundsCheckUser, Inst.inputAt, eq_comm]
      | _ => simp [boundsCheckUser]
  | _ => simp [boundsCheckUser]

section Elim

variable {gone : List InstId} {inst : Inst} {isCheck : Inst → Result Bool}

/-- `isCheck` tells the users of `input` that cover a check like `inst`. -/
structure Recognizes (isCheck : Inst → Result Bool) (inst : Inst) (input : InstId) : Prop where
  covers : ∀ other : Inst, other.Shaped → input ∈ other.inputs →
    (isCheck other = .ok true ↔ other.kind = inst.kind ∧ other.inputs[1]? = inst.inputs[1]?)
  returns : ∀ other : Inst, other.Shaped → ∃ check, isCheck other = .ok check
  blind : ∀ (other : Inst) users, isCheck { other with users := users } = isCheck other

theorem recognizes_zeroCheckUser (kind : inst.kind = .kUnaryOp .kZeroCheck)
    (inputs : inst.inputs = [input]) :
    Recognizes (fun user => .ok (zeroCheckUser user)) inst input := by
  constructor
  case covers =>
    intro user userShaped isInput
    rcases user with ⟨type, userKind, userUsers, bb, userInputs⟩
    simp only [kind, inputs]
    cases userKind with
    | kUnaryOp oper =>
        rcases List.length_eq_one_iff.mp userShaped with ⟨_, rfl⟩
        cases oper with
        | kZeroCheck => simp [zeroCheckUser]
    | _ => simp [zeroCheckUser]
  case returns => exact fun user _ => ⟨zeroCheckUser user, rfl⟩
  case blind => exact fun _ _ => rfl

theorem recognizes_boundsCheckUser (kind : inst.kind = .kBinOp .kBoundsCheck)
    (inputs : inst.inputs = [input, bound]) :
    Recognizes (boundsCheckUser bound) inst input := by
  constructor
  case covers =>
    intro user userShaped isInput
    rw [boundsCheckUser_eq userShaped, kind, inputs]
    rfl
  case returns =>
    intro user userShaped
    rcases user with ⟨type, userKind, userUsers, bb, userInputs⟩
    cases userKind with
    | kBinOp oper =>
        rcases List.length_eq_two.mp userShaped with ⟨first, second, rfl⟩
        cases oper <;> exact ⟨_, rfl⟩
    | _ => exact ⟨_, rfl⟩
  case blind => exact fun _ _ => rfl

/-- A check is looked up among the users of its first operand. -/
theorem elim_eq_loop (found : store.insts op = some inst) (shaped : inst.Shaped)
    (isKind : IsCheckKind inst.kind) :
    ∃ input isCheck, inst.inputs[0]? = some input ∧ Recognizes isCheck inst input ∧
      elim isDominatorBB order store op = (do
        let _ ← store.inst input
        elimLoop isDominatorBB isCheck input op (order store input) store) := by
  have found : store.inst op = .ok inst := inst_eq_ok.mpr found
  rcases isKind.inputs shaped with ⟨kind, input, inputs⟩ | ⟨kind, input, bound, inputs⟩
  · refine ⟨input, _, by rw [inputs]; rfl, recognizes_zeroCheckUser kind inputs, ?_⟩
    simp only [elim, zeroCheckElim, found, kind, Result.ok_bind, Inst.inputAt, inputs,
      List.getElem?_cons_zero]
  · refine ⟨input, _, by rw [inputs]; rfl, recognizes_boundsCheckUser kind inputs, ?_⟩
    simp only [elim, boundsCheckElim, found, kind, Result.ok_bind, Inst.inputAt, inputs,
      List.getElem?_cons_zero, List.getElem?_cons_succ]

/-- The users that are recognized are those that cover the check. -/
theorem Recognizes.recognized_iff (recognizes : Recognizes isCheck inst input)
    (wellFormed : before.WellFormed func) (trimmed : Trimmed before func gone store)
    (found : before.insts op = some inst) (isKind : IsCheckKind inst.kind)
    (first : inst.inputs[0]? = some input) (userMem : user ∈ before.listed func)
    (userLeft : user ∉ gone) (uses : input ∈ before.inputs user) {userInst : Inst}
    (userFound : store.insts user = some userInst) :
    isCheck userInst = .ok true ↔ Covers before op user := by
  rcases wellFormed.inst userMem with ⟨_, -, -, otherInst, otherFound, fits⟩
  rcases trimmed.insts user userMem userLeft otherInst otherFound with ⟨users, foundNow⟩
  cases Option.some.inj (userFound.symm.trans foundNow)
  rw [inputs_eq otherFound] at uses
  rw [recognizes.blind, recognizes.covers otherInst fits.shaped uses]
  constructor
  · intro alike
    exact ⟨inst, otherInst, found, otherFound, isKind, alike.1, ⟨input, first, uses⟩, alike.2⟩
  · rintro ⟨again, otherAgain, foundAgain, otherFoundAgain, -, kinds, -, second⟩
    cases Option.some.inj (found.symm.trans foundAgain)
    cases Option.some.inj (otherFound.symm.trans otherFoundAgain)
    exact ⟨kinds, second⟩

theorem Covers.uses {other : InstId} (covers : Covers before op other)
    (found : before.insts op = some inst) (first : inst.inputs[0]? = some input) :
    input ∈ before.inputs other := by
  rcases covers with ⟨again, otherInst, foundAgain, otherFound, -, -, ⟨_, first', isInput⟩, -⟩
  cases Option.some.inj (found.symm.trans foundAgain)
  cases Option.some.inj (first.symm.trans first')
  rw [inputs_eq otherFound]
  exact isInput

theorem elimLoop_trimmed (wellFormed : before.WellFormed func) (enumerates : Enumerates order)
    (trimmed : Trimmed before func gone store) (member : op ∈ before.listed func)
    (left : op ∉ gone) (found : before.insts op = some inst) (isKind : IsCheckKind inst.kind)
    (first : inst.inputs[0]? = some input) (inputLeft : input ∉ gone)
    (recognizes : Recognizes isCheck inst input)
    (result : elimLoop isDominatorBB isCheck input op (order store input) store = .ok store') :
    (store' = store ∧ ¬ Dominated isDominatorBB before func gone op) ∨
    (Trimmed before func (op :: gone) store' ∧
      Dominated isDominatorBB before func gone op) := by
  have inputMem : input ∈ before.listed func := by
    apply wellFormed.housed.linked.inputs op member
    rw [inputs_eq found]
    exact List.mem_of_getElem? first
  rcases elimLoop_cases result with ⟨same, kept⟩ | ⟨erasing, user, isUser, different, justifies⟩
  · refine .inl ⟨same, ?_⟩
    rintro ⟨other, otherMem, otherLeft, different, covers, dominates⟩
    rcases wellFormed.inst otherMem with ⟨_, -, -, otherInst, otherFound, -⟩
    rcases trimmed.insts other otherMem otherLeft otherInst otherFound with ⟨users, foundNow⟩
    have uses := covers.uses found first
    apply kept other
    · rw [enumerates, trimmed.users input inputMem inputLeft other otherMem otherLeft]
      exact uses
    · refine ⟨different, _, foundNow, ?_, ?_⟩
      · exact (recognizes.recognized_iff wellFormed trimmed found isKind first otherMem otherLeft uses
          foundNow).mpr covers
      · rw [trimmed.isDominator_eq wellFormed otherMem member otherLeft left]
        exact dominates
  · refine .inr ⟨trimmed.eraseCheck wellFormed member left erasing, ?_⟩
    rcases justifies with ⟨userInst, foundNow, checked, dominates⟩
    rw [enumerates] at isUser
    have userMem := trimmed.usersMem input inputMem user isUser
    have userLeft : user ∉ gone := by
      intro isGone
      rw [trimmed.erased user isGone] at foundNow
      cases foundNow
    rw [trimmed.users input inputMem inputLeft user userMem userLeft] at isUser
    rw [recognizes.recognized_iff wellFormed trimmed found isKind first userMem userLeft isUser
      foundNow] at checked
    rw [trimmed.isDominator_eq wellFormed userMem member userLeft left] at dominates
    exact ⟨user, userMem, userLeft, different, checked, dominates⟩

/-- A candidate is erased exactly when a check that is left dominates and covers it. -/
theorem elim_trimmed (wellFormed : before.WellFormed func) (enumerates : Enumerates order)
    (trimmed : Trimmed before func gone store) (member : op ∈ before.listed func)
    (left : op ∉ gone) (isCheck : IsCheck before op)
    (result : elim isDominatorBB order store op = .ok store') :
    (store' = store ∧ ¬ Dominated isDominatorBB before func gone op) ∨
    (Trimmed before func (op :: gone) store' ∧
      Dominated isDominatorBB before func gone op) := by
  rcases isCheck with ⟨inst, found, isKind⟩
  have shaped := wellFormed.shaped member found
  rcases trimmed.insts op member left inst found with ⟨users, foundNow⟩
  rcases elim_eq_loop foundNow shaped isKind with ⟨input, isCheck, first, recognizes, loops⟩
  rw [loops] at result
  rcases Result.bind_eq_ok.mp result with ⟨other, otherFound, running⟩
  have inputLeft : input ∉ gone := by
    intro isGone
    rw [inst_eq_ok, trimmed.erased input isGone] at otherFound
    cases otherFound
  exact elimLoop_trimmed wellFormed enumerates trimmed member left found isKind first inputLeft
    ⟨recognizes.covers, recognizes.returns, recognizes.blind⟩ running

end Elim

theorem Dominated.subset {gone gone' : List InstId}
    (dominated : Dominated isDominatorBB before func gone' op) (subset : ∀ id ∈ gone, id ∈ gone') :
    Dominated isDominatorBB before func gone op := by
  rcases dominated with ⟨other, otherMem, otherLeft, which⟩
  exact ⟨other, otherMem, fun isGone => otherLeft (subset other isGone), which⟩

/-- What the candidates `candidates` do to a function that lacks `gone`. -/
theorem foldl_trimmed {candidates gone : List InstId} (wellFormed : before.WellFormed func)
    (enumerates : Enumerates order) (trimmed : Trimmed before func gone store)
    (nodup : candidates.Nodup)
    (fresh : ∀ id ∈ candidates, id ∈ before.listed func ∧ IsCheck before id ∧ id ∉ gone)
    (result : candidates.foldlM (elim isDominatorBB order) store = .ok store') :
    ∃ gone', Trimmed before func gone' store' ∧ (∀ id ∈ gone, id ∈ gone') ∧
      (∀ id ∈ gone', id ∈ gone ∨ id ∈ candidates ∧ Dominated isDominatorBB before func [] id) ∧
      ∀ id ∈ candidates, id ∉ gone' → ¬ Dominated isDominatorBB before func gone' id := by
  induction candidates generalizing gone store with
  | nil =>
      cases result
      exact ⟨gone, trimmed, fun _ isGone => isGone, fun _ isGone => .inl isGone, by simp⟩
  | cons op rest induction =>
      rw [List.foldlM_cons] at result
      rcases Result.bind_eq_ok.mp result with ⟨next, first, later⟩
      rw [List.nodup_cons] at nodup
      rcases fresh op List.mem_cons_self with ⟨member, isCheck, left⟩
      have freshRest : ∀ id ∈ rest, id ∈ before.listed func ∧ IsCheck before id ∧ id ∉ gone :=
        fun id idMem => fresh id (List.mem_cons_of_mem _ idMem)
      rcases elim_trimmed wellFormed enumerates trimmed member left isCheck first with
        ⟨rfl, stays⟩ | ⟨trimmedNext, goes⟩
      · rcases induction trimmed nodup.2 freshRest later with
          ⟨gone', trimmed', subset, sound, complete⟩
        refine ⟨gone', trimmed', subset, ?_, ?_⟩
        · intro id isGone
          rcases sound id isGone with before | ⟨inRest, dominated⟩
          · exact .inl before
          · exact .inr ⟨List.mem_cons_of_mem _ inRest, dominated⟩
        · intro id idMem idLeft
          cases idMem with
          | head => exact fun dominated => stays (dominated.subset subset)
          | tail _ inRest => exact complete id inRest idLeft
      · have freshNext : ∀ id ∈ rest,
            id ∈ before.listed func ∧ IsCheck before id ∧ id ∉ op :: gone := by
          intro id inRest
          rcases freshRest id inRest with ⟨idMem, idCheck, idLeft⟩
          refine ⟨idMem, idCheck, ?_⟩
          rw [List.mem_cons, not_or]
          exact ⟨fun same => nodup.1 (same ▸ inRest), idLeft⟩
        rcases induction trimmedNext nodup.2 freshNext later with
          ⟨gone', trimmed', subset, sound, complete⟩
        refine ⟨gone', trimmed', fun id isGone => subset id (List.mem_cons_of_mem _ isGone),
          ?_, ?_⟩
        · intro id isGone
          rcases sound id isGone with before | ⟨inRest, dominated⟩
          · rcases List.mem_cons.mp before with rfl | before
            · exact .inr ⟨List.mem_cons_self, goes.subset (by simp)⟩
            · exact .inl before
          · exact .inr ⟨List.mem_cons_of_mem _ inRest, dominated⟩
        · intro id idMem idLeft
          cases idMem with
          | head => exact absurd (subset op List.mem_cons_self) idLeft
          | tail _ inRest => exact complete id inRest idLeft

/-! ## The run -/

/-- What one check covers is covered by what covers that. -/
theorem Covers.trans (wellFormed : before.WellFormed func) {middle other : InstId}
    (middleMem : middle ∈ before.listed func) (first : Covers before op middle)
    (second : Covers before middle other) : Covers before op other := by
  rcases first with ⟨opInst, inst, opFound, found, isKind, kinds, ⟨input, isFirst, isInput⟩, bounds⟩
  rcases second with ⟨again, otherInst, foundAgain, otherFound, -, kinds', ⟨value, isFirst', isInput'⟩,
    bounds'⟩
  cases Option.some.inj (found.symm.trans foundAgain)
  have shaped := wellFormed.shaped middleMem found
  refine ⟨opInst, otherInst, opFound, otherFound, isKind, kinds'.trans kinds, ⟨input, isFirst, ?_⟩,
    bounds'.trans bounds⟩
  rw [← kinds] at isKind
  rcases isKind.inputs shaped with ⟨-, only, inputs⟩ | ⟨-, left, right, inputs⟩
  · rw [inputs] at isInput isFirst'
    cases isFirst'
    rwa [List.mem_singleton.mp isInput]
  · rw [inputs] at isInput isFirst' bounds'
    cases isFirst'
    rcases List.mem_pair.mp isInput with rfl | rfl
    · exact isInput'
    · exact List.mem_of_getElem? bounds'

/-- `isDominator` answers dominance between the instructions of the function. -/
def AnswersDominance (isDominatorBB : BlockId → BlockId → Bool) (store : Store)
    (func : Function) : Prop :=
  ∀ dom ∈ store.listed func, ∀ node ∈ store.listed func,
    isDominator isDominatorBB store dom node = .ok true ↔
      dom = node ∨ store.StrictlyDominates func dom node

/-- In a block the one that comes first dominates. -/
theorem mem_dropWhile_iff {ids front back : List InstId} {dom node : InstId} (nodup : ids.Nodup)
    (split : ids = front ++ node :: back) (member : dom ∈ ids) :
    node ∈ ids.dropWhile (· ≠ dom) ↔ dom = node ∨ dom ∈ front := by
  rcases List.append_of_mem member with ⟨before, after, splitDom⟩
  have dropped : ids.dropWhile (· ≠ dom) = dom :: after := by
    have notBefore : dom ∉ before := by
      rw [splitDom] at nodup
      have alone := (List.nodup_cons.mp (List.nodup_middle.mp nodup)).1
      exact fun inBefore => alone (List.mem_append_left _ inBefore)
    rw [splitDom, List.dropWhile_append_of_pos, List.dropWhile_cons_of_neg (by simp)]
    intro id inBefore
    have different : id ≠ dom := fun same => notBefore (same ▸ inBefore)
    simpa using different
  rw [dropped, List.mem_cons, eq_comm]
  apply or_congr_right
  constructor
  · intro inAfter
    rcases List.append_of_mem inAfter with ⟨upTo, beyond, rfl⟩
    have again : ids = (before ++ dom :: upTo) ++ node :: beyond := by simp [splitDom]
    rw [split] at nodup again
    have alone := (List.nodup_cons.mp (List.nodup_middle.mp nodup)).1
    rw [List.mem_append, not_or] at alone
    rw [((List.append_cons_inj_of_notMem alone.1 alone.2).mp again).1]
    simp
  · intro inFront
    rcases List.append_of_mem inFront with ⟨upTo, beyond, rfl⟩
    have again : ids = upTo ++ dom :: (beyond ++ node :: back) := by simp [split]
    rw [splitDom] at nodup again
    have alone := (List.nodup_cons.mp (List.nodup_middle.mp nodup)).1
    rw [List.mem_append, not_or] at alone
    have same := ((List.append_cons_inj_of_notMem alone.1 alone.2).mp again).2
    simp [same]

/-- Where the blocks are answered for, so are the instructions. -/
theorem answersDominance_of_blocks (wellFormed : before.WellFormed func)
    (blocks : ∀ dom ∈ func.bbs, ∀ node ∈ func.bbs,
      isDominatorBB dom node = true ↔ before.BlockDominates func dom node) :
    AnswersDominance isDominatorBB before func := by
  intro dom domMem node nodeMem
  rcases wellFormed.inst domMem with ⟨bb, bbMem, domIn, domInst, domFound, domFits⟩
  rcases wellFormed.inst nodeMem with ⟨other, otherMem, nodeIn, nodeInst, nodeFound, nodeFits⟩
  rcases wellFormed.blocks bb bbMem with ⟨block, blockFound⟩
  simp only [isDominator, Store.inst, domFound, nodeFound, Result.ok_bind, Inst.getBB, domFits.home,
    nodeFits.home, Store.block, blockFound, Option.some.injEq]
  by_cases same : dom = node
  · rw [if_pos same]
    exact iff_of_true rfl (.inl same)
  · rw [if_neg same, or_iff_right same]
    by_cases sameBlock : bb = other
    · subst sameBlock
      rw [if_pos rfl]
      rcases List.append_of_mem nodeIn with ⟨front, back, split⟩
      have decides : (pure (decide (node ∈ block.instructions.dropWhile (· ≠ dom))) : Result Bool) =
          .ok true ↔ node ∈ (before.instructions bb).dropWhile (· ≠ dom) := by
        rw [instructions_eq blockFound]
        simp [pure, Except.pure]
      rw [decides, mem_dropWhile_iff (wellFormed.instructions_nodup bbMem) split domIn,
        or_iff_right same]
      constructor
      · exact fun inFront => ⟨bb, bbMem, front, back, split, .inl inFront⟩
      · rintro ⟨home, homeMem, front', back', split', defined⟩
        have isHome := wellFormed.home_unique bbMem homeMem nodeIn (by simp [split'])
        subst isHome
        rw [wellFormed.housed.front_unique bbMem split split']
        rcases defined with inFront | ⟨home, homeMem, inHome, different, -⟩
        · exact inFront
        · exact absurd (wellFormed.home_unique homeMem bbMem inHome domIn) different
    · rw [if_neg sameBlock, wellFormed.strictlyDominates_iff bbMem otherMem domIn nodeIn sameBlock,
        ← blocks bb bbMem other otherMem]
      simp [pure, Except.pure]

/-- A check that covers `op` strictly dominates it. -/
def Eliminable (store : Store) (func : Function) (op : InstId) : Prop :=
  ∃ other ∈ store.listed func, Covers store op other ∧ store.StrictlyDominates func other op

theorem dominated_iff (wellFormed : before.WellFormed func)
    (answers : AnswersDominance isDominatorBB before func) (member : op ∈ before.listed func) :
    Dominated isDominatorBB before func [] op ↔ Eliminable before func op := by
  constructor
  · rintro ⟨other, otherMem, -, different, covers, dominates⟩
    rw [answers other otherMem op member] at dominates
    exact ⟨other, otherMem, covers, dominates.resolve_left different⟩
  · rintro ⟨other, otherMem, covers, dominates⟩
    have different : other ≠ op := by
      rintro rfl
      exact Nat.lt_irrefl _ (wellFormed.idxOf_lt dominates)
    exact ⟨other, otherMem, List.not_mem_nil, different, covers,
      (answers other otherMem op member).mpr (.inr dominates)⟩

/-- The candidates are the checks, each once. -/
theorem fillCandidates_eq_ok (wellFormed : before.WellFormed func) {candidates : List InstId}
    (result : fillCandidates before func = .ok candidates) :
    candidates.Nodup ∧ ∀ id, id ∈ candidates ↔ id ∈ before.listed func ∧ IsCheck before id := by
  rcases Result.bind_eq_ok.mp result with ⟨graph, making, collecting⟩
  rw [makeBBGraph_eq wellFormed.nonempty] at making
  cases making
  rcases collect_eq_ok collecting with ⟨rfl, -⟩
  have perm : (before.inOrder func).Perm (before.listed func) := wellFormed.inOrder_perm
  constructor
  · exact (perm.nodup_iff.mpr wellFormed.nodup).filter _
  · intro id
    rw [List.mem_filter]
    change id ∈ before.inOrder func ∧ _ ↔ _
    rw [perm.mem_iff]
    apply and_congr_right
    intro member
    rcases wellFormed.inst member with ⟨_, -, -, inst, found, -⟩
    simp only [isCandidate, Store.inst, found, Result.ok_bind, IsCheck, IsCheckKind,
      Option.some.injEq, exists_eq_left']
    rcases inst with ⟨type, kind, users, bb, inputs⟩
    cases kind with
    | kUnaryOp oper => cases oper with | kZeroCheck => simp [answer]
    | kBinOp oper => cases oper <;> simp [answer]
    | _ => simp [answer]

/-- The answers of `isDominator` are a partial order of the instructions. -/
structure OrdersInsts (isDominatorBB : BlockId → BlockId → Bool) (store : Store)
    (func : Function) : Prop where
  antisymm : ∀ dom ∈ store.listed func, ∀ node ∈ store.listed func,
    isDominator isDominatorBB store dom node = .ok true →
    isDominator isDominatorBB store node dom = .ok true → dom = node
  trans : ∀ dom ∈ store.listed func, ∀ middle ∈ store.listed func, ∀ node ∈ store.listed func,
    isDominator isDominatorBB store dom middle = .ok true →
    isDominator isDominatorBB store middle node = .ok true →
    isDominator isDominatorBB store dom node = .ok true

theorem AnswersDominance.orders (wellFormed : before.WellFormed func)
    (answers : AnswersDominance isDominatorBB before func) :
    OrdersInsts isDominatorBB before func := by
  constructor
  case antisymm =>
    intro dom domMem node nodeMem down up
    cases (answers dom domMem node nodeMem).mp down with
    | inl same => exact same
    | inr below =>
        cases (answers node nodeMem dom domMem).mp up with
        | inl same => exact same.symm
        | inr above =>
            exact absurd (wellFormed.idxOf_lt below) (wellFormed.idxOf_lt above).asymm
  case trans =>
    intro dom domMem middle middleMem node nodeMem first second
    cases (answers dom domMem middle middleMem).mp first with
    | inl same => rwa [same]
    | inr above =>
        cases (answers middle middleMem node nodeMem).mp second with
        | inl same => rwa [← same]
        | inr below =>
            exact (answers dom domMem node nodeMem).mpr
              (.inr (wellFormed.strictlyDominates_trans above below))

/-- Of the checks that cover one and dominate it the outermost is not dominated itself. -/
theorem Dominated.outermost (wellFormed : before.WellFormed func)
    (orders : OrdersInsts isDominatorBB before func) (member : op ∈ before.listed func)
    (dominated : Dominated isDominatorBB before func [] op) :
    ∃ other ∈ before.listed func, other ≠ op ∧ Covers before op other ∧
      isDominator isDominatorBB before other op = .ok true ∧
      ¬ Dominated isDominatorBB before func [] other := by
  let above : InstId → InstId → Prop := fun dom node => dom ≠ node ∧ Covers before node dom ∧
    isDominator isDominatorBB before dom node = .ok true
  have irrefl : ∀ id ∈ before.listed func, ¬ above id id := fun id _ strict => strict.1 rfl
  have trans : ∀ first ∈ before.listed func, ∀ second ∈ before.listed func,
      ∀ third ∈ before.listed func, above first second → above second third → above first third := by
    rintro first firstMem second secondMem third thirdMem ⟨differ, covers, dominates⟩
      ⟨-, covers', dominates'⟩
    refine ⟨?_, covers'.trans wellFormed secondMem covers,
      orders.trans _ firstMem _ secondMem _ thirdMem dominates dominates'⟩
    rintro rfl
    exact differ (orders.antisymm _ firstMem _ secondMem dominates dominates')
  rcases exists_outermost irrefl trans member with ⟨other, otherMem, same | up, none⟩
  · subst same
    rcases dominated with ⟨dom, domMem, -, different, covers, dominates⟩
    exact absurd ⟨different, covers, dominates⟩ (none dom domMem)
  · refine ⟨other, otherMem, up.1, up.2.1, up.2.2, ?_⟩
    rintro ⟨dom, domMem, -, different, covers, dominates⟩
    exact none dom domMem ⟨different, covers, dominates⟩

/-- When `isDominator` answers with a partial order, exactly the candidates are erased that
it says another check dominates that covers them. -/
theorem foldl_gone_iff (wellFormed : before.WellFormed func) (enumerates : Enumerates order)
    (orders : OrdersInsts isDominatorBB before func) {candidates : List InstId}
    (nodup : candidates.Nodup)
    (areChecks : ∀ id ∈ candidates, id ∈ before.listed func ∧ IsCheck before id)
    (result : candidates.foldlM (elim isDominatorBB order) before = .ok store') :
    ∃ gone, Trimmed before func gone store' ∧
      ∀ id, id ∈ gone ↔ id ∈ candidates ∧ Dominated isDominatorBB before func [] id := by
  have fresh : ∀ id ∈ candidates, id ∈ before.listed func ∧ IsCheck before id ∧ id ∉ [] :=
    fun id member => ⟨(areChecks id member).1, (areChecks id member).2, List.not_mem_nil⟩
  rcases foldl_trimmed wellFormed enumerates (.start wellFormed) nodup fresh result with
    ⟨gone, trimmed, -, sound, complete⟩
  have erased : ∀ id ∈ gone, id ∈ candidates ∧ Dominated isDominatorBB before func [] id := by
    intro id isGone
    exact (sound id isGone).resolve_left List.not_mem_nil
  refine ⟨gone, trimmed, fun id => ⟨erased id, ?_⟩⟩
  rintro ⟨member, dominated⟩
  by_contra left
  rcases dominated.outermost wellFormed orders (areChecks id member).1 with
    ⟨other, otherMem, different, covers, dominates, outermost⟩
  apply complete id member left
  exact ⟨other, otherMem, fun isGone => outermost (erased other isGone).2, different, covers,
    dominates⟩

theorem gone_iff (wellFormed : before.WellFormed func) (enumerates : Enumerates order)
    (orders : OrdersInsts isDominatorBB before func)
    (result : run isDominatorBB order before func = .ok store') :
    ∃ gone, Trimmed before func gone store' ∧
      ∀ id, id ∈ gone ↔ id ∈ before.listed func ∧ IsCheck before id ∧
        Dominated isDominatorBB before func [] id := by
  rcases Result.bind_eq_ok.mp result with ⟨candidates, filling, folding⟩
  rcases fillCandidates_eq_ok wellFormed filling with ⟨nodup, isCandidate⟩
  rcases foldl_gone_iff wellFormed enumerates orders nodup (fun id => (isCandidate id).mp) folding
    with ⟨gone, trimmed, isGone⟩
  refine ⟨gone, trimmed, fun id => ?_⟩
  rw [isGone, isCandidate, and_assoc]

/-- Exactly the checks that another one covers and dominates are eliminated. -/
theorem trimmed_run (wellFormed : before.WellFormed func) (enumerates : Enumerates order)
    (answers : AnswersDominance isDominatorBB before func)
    (result : run isDominatorBB order before func = .ok store') :
    ∃ gone, Trimmed before func gone store' ∧
      ∀ id, id ∈ gone ↔ id ∈ before.listed func ∧ IsCheck before id ∧
        Eliminable before func id := by
  rcases gone_iff wellFormed enumerates (answers.orders wellFormed) result with
    ⟨gone, trimmed, isGone⟩
  refine ⟨gone, trimmed, fun id => ?_⟩
  rw [isGone]
  apply and_congr_right
  intro isListed
  rw [dominated_iff wellFormed answers isListed]

theorem Trimmed.mem_listed {gone : List InstId} (trimmed : Trimmed before func gone store)
    (id : InstId) : id ∈ store.listed func ↔ id ∈ before.listed func ∧ id ∉ gone := by
  simp only [listed, List.mem_flatMap]
  constructor
  · rintro ⟨bb, bbMem, inBlock⟩
    rw [trimmed.lists bb bbMem, List.mem_filter, decide_eq_true_iff] at inBlock
    exact ⟨⟨bb, bbMem, inBlock.1⟩, inBlock.2⟩
  · rintro ⟨⟨bb, bbMem, inBlock⟩, left⟩
    refine ⟨bb, bbMem, ?_⟩
    rw [trimmed.lists bb bbMem, List.mem_filter, decide_eq_true_iff]
    exact ⟨inBlock, left⟩

/-- A check is redundant when the same check strictly dominates it. -/
def Redundant (store : Store) (func : Function) (op : InstId) : Prop :=
  ∃ other ∈ store.listed func, SameCheck store op other ∧ store.StrictlyDominates func other op

def IsBoundsCheck (store : Store) (index bound op : InstId) : Prop :=
  ∃ inst, store.insts op = some inst ∧ inst.kind = .kBinOp .kBoundsCheck ∧
    inst.inputs = [index, bound]

/-- A bounds check of a value against itself that is eliminable is redundant. -/
def SelfChecksRedundant (store : Store) (func : Function) : Prop :=
  ∀ op ∈ store.listed func, ∀ other ∈ store.listed func, ∀ index bound,
    IsBoundsCheck store bound bound op → IsBoundsCheck store index bound other →
    store.StrictlyDominates func other op → Redundant store func op

theorem SameCheck.symm {other : InstId} (same : SameCheck before op other) :
    SameCheck before other op := by
  rcases same with ⟨inst, otherInst, found, otherFound, isKind, kinds, inputs⟩
  exact ⟨otherInst, inst, otherFound, found, kinds ▸ isKind, kinds.symm, inputs.symm⟩

theorem SameCheck.covers (wellFormed : before.WellFormed func) {other : InstId}
    (member : op ∈ before.listed func) (same : SameCheck before op other) :
    Covers before op other := by
  rcases same with ⟨inst, otherInst, found, otherFound, isKind, kinds, inputs⟩
  refine ⟨inst, otherInst, found, otherFound, isKind, kinds, ?_, by rw [inputs]⟩
  rw [inputs]
  rcases isKind.inputs (wellFormed.shaped member found) with
    ⟨-, input, isInput⟩ | ⟨-, index, bound, areInputs⟩
  · exact ⟨input, by rw [isInput]; rfl, by simp [isInput]⟩
  · exact ⟨index, by rw [areInputs]; rfl, by simp [areInputs]⟩

theorem Redundant.eliminable (wellFormed : before.WellFormed func)
    (member : op ∈ before.listed func) (redundant : Redundant before func op) :
    Eliminable before func op := by
  rcases redundant with ⟨other, otherMem, same, dominates⟩
  exact ⟨other, otherMem, same.covers wellFormed member, dominates⟩

/-- Only the operands of a bounds check can be taken for one another. -/
theorem Covers.same_or_self (wellFormed : before.WellFormed func) {other : InstId}
    (member : op ∈ before.listed func) (otherMem : other ∈ before.listed func)
    (covers : Covers before op other) : SameCheck before op other ∨
      ∃ index bound, IsBoundsCheck before bound bound op ∧ IsBoundsCheck before index bound other := by
  rcases covers with ⟨inst, otherInst, found, otherFound, isKind, kinds, ⟨input, isFirst, isInput⟩,
    bounds⟩
  have otherShaped := wellFormed.shaped otherMem otherFound
  rcases isKind.inputs (wellFormed.shaped member found) with
    ⟨kind, value, inputs⟩ | ⟨kind, index, bound, inputs⟩
  · rw [Inst.Shaped, kinds, kind] at otherShaped
    rcases List.length_eq_one_iff.mp otherShaped with ⟨otherValue, otherInputs⟩
    rw [inputs] at isFirst
    rw [otherInputs] at isInput
    cases isFirst
    cases List.mem_singleton.mp isInput
    exact .inl ⟨inst, otherInst, found, otherFound, .inl kind, kinds, otherInputs.trans inputs.symm⟩
  · rw [Inst.Shaped, kinds, kind] at otherShaped
    rcases List.length_eq_two.mp otherShaped with ⟨otherIndex, otherBound, otherInputs⟩
    rw [inputs] at isFirst bounds
    rw [otherInputs] at isInput bounds
    cases isFirst
    cases bounds
    rcases List.mem_pair.mp isInput with rfl | rfl
    · exact .inl ⟨inst, otherInst, found, otherFound, .inr kind, kinds,
        otherInputs.trans inputs.symm⟩
    · exact .inr ⟨otherIndex, input, ⟨inst, found, kind, inputs⟩,
        otherInst, otherFound, kinds.trans kind, otherInputs⟩

/-- The checks that survive are those that are not redundant, exactly when no bounds check
of a value against itself is taken for redundant to one with the same bound only. -/
theorem survives_iff_not_redundant (wellFormed : before.WellFormed func)
    (enumerates : Enumerates order) (answers : AnswersDominance isDominatorBB before func)
    (completes : run isDominatorBB order before func = .ok store') :
    (∀ op ∈ before.listed func, IsCheck before op →
      (op ∈ store'.listed func ↔ ¬ Redundant before func op)) ↔
    SelfChecksRedundant before func := by
  rcases trimmed_run wellFormed enumerates answers completes with ⟨gone, trimmed, isGone⟩
  have survives : ∀ op ∈ before.listed func, IsCheck before op →
      (op ∈ store'.listed func ↔ ¬ Eliminable before func op) := by
    intro op member isCheck
    rw [trimmed.mem_listed, isGone]
    tauto
  constructor
  · intro exactly op member other otherMem index bound opBounds otherBounds dominates
    have isCheck : IsCheck before op := by
      rcases opBounds with ⟨inst, found, kind, -⟩
      exact ⟨inst, found, .inr kind⟩
    have eliminable : Eliminable before func op := by
      rcases opBounds with ⟨inst, found, kind, inputs⟩
      rcases otherBounds with ⟨otherInst, otherFound, otherKind, otherInputs⟩
      refine ⟨other, otherMem, ⟨inst, otherInst, found, otherFound, .inr kind,
        otherKind.trans kind.symm, ⟨bound, ?_, ?_⟩, ?_⟩, dominates⟩
      · rw [inputs]
        rfl
      · simp [otherInputs]
      · rw [inputs, otherInputs]
        rfl
    by_contra notRedundant
    have stays := (exactly op member isCheck).mpr notRedundant
    exact (survives op member isCheck).mp stays eliminable
  · intro selfChecks op member isCheck
    rw [survives op member isCheck]
    apply not_congr
    constructor
    · rintro ⟨other, otherMem, covers, dominates⟩
      rcases covers.same_or_self wellFormed member otherMem with
        same | ⟨index, bound, opBounds, otherBounds⟩
      · exact ⟨other, otherMem, same, dominates⟩
      · exact selfChecks op member other otherMem index bound opBounds otherBounds dominates
    · exact fun redundant => redundant.eliminable wellFormed member

/-- A check of `v0` against `v1` is followed by one of `index` against `v1`. -/
def checks (index : InstId) (indexUsers : List InstId) : Store :=
  .ofTables
    [{ type := .I64, kind := .kParam 0, users := indexUsers, bb := some 0 },
      { type := .I64, kind := .kParam 1, users := [2, 3], bb := some 0 },
      { kind := .kBinOp .kBoundsCheck, bb := some 0, inputs := [0, 1] },
      { kind := .kBinOp .kBoundsCheck, bb := some 0, inputs := [index, 1] },
      { kind := .kRet, bb := some 0 }]
    [{ instructions := [0, 1, 2, 3, 4] }] []

def checking : Function :=
  { bbs := [0], resType := .None, args := [.I64, .I64] }

theorem answersDominance_checks {index : InstId} {indexUsers : List InstId}
    (wellFormed : (checks index indexUsers).WellFormed checking) :
    AnswersDominance (fun _ _ => true) (checks index indexUsers) checking := by
  apply answersDominance_of_blocks wellFormed
  intro dom domMem node nodeMem
  cases List.mem_singleton.mp domMem
  cases List.mem_singleton.mp nodeMem
  exact iff_of_true rfl (Dominance.Dominates.refl 0)

theorem survives_iff_not_redundant_checks :
    ∃ store', run (fun _ _ => true) Store.users (checks 0 [2, 3]) checking = .ok store' ∧
      store'.listed checking = [0, 1, 2, 4] ∧
      ((∀ op ∈ (checks 0 [2, 3]).listed checking, IsCheck (checks 0 [2, 3]) op →
        (op ∈ store'.listed checking ↔ ¬ Redundant (checks 0 [2, 3]) checking op)) ↔
      SelfChecksRedundant (checks 0 [2, 3]) checking) := by
  have wellFormed : (checks 0 [2, 3]).WellFormed checking := checkWellFormed_sound rfl
  have runs : ∃ store', run (fun _ _ => true) Store.users (checks 0 [2, 3]) checking =
      .ok store' ∧ store'.listed checking = [0, 1, 2, 4] := ⟨_, rfl, by decide⟩
  rcases runs with ⟨store', completes, isListed⟩
  exact ⟨store', completes, isListed, survives_iff_not_redundant wellFormed (fun _ _ _ => .rfl)
    (answersDominance_checks wellFormed) completes⟩

/-- The check of `v1` against itself goes although only `v0` has been checked. -/
theorem not_redundant_erased :
    (checks 1 [2]).WellFormed checking ∧
      AnswersDominance (fun _ _ => true) (checks 1 [2]) checking ∧
      Enumerates Store.users ∧
      ∃ store', run (fun _ _ => true) Store.users (checks 1 [2]) checking = .ok store' ∧
        3 ∈ (checks 1 [2]).listed checking ∧ IsCheck (checks 1 [2]) 3 ∧
        3 ∉ store'.listed checking ∧ ¬ Redundant (checks 1 [2]) checking 3 := by
  have wellFormed : (checks 1 [2]).WellFormed checking := checkWellFormed_sound rfl
  refine ⟨wellFormed, answersDominance_checks wellFormed, fun _ _ _ => .rfl, _, rfl, by decide,
    ⟨_, rfl, .inr rfl⟩, by decide, ?_⟩
  rintro ⟨other, otherMem, ⟨inst, otherInst, found, otherFound, -, kinds, inputs⟩, dominates⟩
  cases found
  have isSelf : other = 3 := by
    have isListed : other ∈ [0, 1, 2, 3, 4] := otherMem
    simp only [List.mem_cons, List.not_mem_nil, or_false] at isListed
    rcases isListed with rfl | rfl | rfl | rfl | rfl
    all_goals cases otherFound
    · cases kinds
    · cases kinds
    · cases inputs
    · rfl
    · cases kinds
  subst isSelf
  exact Nat.lt_irrefl _ (wellFormed.idxOf_lt dominates)

end LeechJit.Opt.ChecksElimination
