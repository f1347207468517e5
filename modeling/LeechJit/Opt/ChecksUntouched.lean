import LeechJit.Opt.ChecksCalls

/-! # When the pass leaves an erased check alone

In whatever order the users sets are gone through: exactly when one check at most covers
each check that goes, and no check that goes is looked up through its own value or
through its bound.
-/

namespace LeechJit.Opt.ChecksElimination

open IR Store LeechJit.Graph Traced

variable {before store store' : Store} {func : Function} {op user input : InstId}
  {isDominatorBB : BlockId → BlockId → Bool} {order : Store → InstId → List InstId}
  {isCheck : Inst → Result Bool} {users gone : List InstId} {inst : Inst}

/-! ## Loops that return -/

theorem eraseCheck_kept (result : eraseCheck store input op = .ok store') {id : InstId}
    (notOp : id ≠ op) (found : store.insts id = some inst) :
    ∃ users, store'.insts id = some { inst with users := users } := by
  rcases eraseCheck_eq_ok result with ⟨-, -, -, -, -, -, insts, -⟩
  simp only [insts, if_neg notOp, found, Option.map_some]
  cases decEq id input with
  | isTrue isInput => exact ⟨_, by rw [if_pos isInput]; rfl⟩
  | isFalse other => exact ⟨inst.users, by rw [if_neg other]⟩

/-- Each user is looked at, before the erase or after it. -/
theorem elimLoop_found
    (result : elimLoop isDominatorBB isCheck input op users store = .ok store') :
    ∀ user ∈ users, user ≠ op → store.insts user ≠ none := by
  induction users generalizing store with
  | nil => exact List.forall_mem_nil _
  | cons head rest induction =>
      rw [elimLoop] at result
      rw [List.forall_mem_cons]
      split_ifs at result with isOp
      · exact ⟨fun different => absurd isOp.symm different, induction result⟩
      · rcases Result.bind_eq_ok.mp result with ⟨inst, found, continued⟩
        rcases Result.bind_eq_ok.mp continued with ⟨check, -, continued⟩
        refine ⟨fun _ isNone => ?_, ?_⟩
        · rw [inst_eq_ok, isNone] at found
          cases found
        · split_ifs at continued
          · rcases Result.bind_eq_ok.mp continued with ⟨dominates, -, continued⟩
            split_ifs at continued
            · rcases Result.bind_eq_ok.mp continued with ⟨next, erasing, running⟩
              intro user member notOp isNone
              exact induction running user member notOp (eraseCheck_gone erasing (.inl isNone))
            · exact induction continued
          · exact induction continued

/-- A covering check behind one that makes the loop erase is fatal. -/
theorem elimLoop_first {isCheck : Inst → Result Bool}
    (blind : ∀ (inst : Inst) users, isCheck { inst with users := users } = isCheck inst)
    (justifies : Justifies isDominatorBB isCheck store op user)
    (result : elimLoop isDominatorBB isCheck input op (user :: users) store = .ok store') :
    ∀ other ∈ users, other ≠ op → ∀ inst, store.insts other = some inst →
      isCheck inst ≠ .ok true := by
  rcases justifies with ⟨notOp, userInst, userFound, checked, dominates⟩
  rw [elimLoop, if_neg (Ne.symm notOp), inst_eq_ok.mpr userFound, Result.ok_bind, checked,
    Result.ok_bind, if_pos rfl, dominates, Result.ok_bind, if_pos rfl] at result
  rcases Result.bind_eq_ok.mp result with ⟨next, erasing, running⟩
  intro other member otherNotOp inst found isTrue
  rcases (elimLoop_gone (eraseCheck_gone erasing (.inr rfl)) running).2 other member otherNotOp with
    ⟨after, foundAfter, isFalse⟩
  rcases eraseCheck_kept erasing otherNotOp found with ⟨users, kept⟩
  cases Option.some.inj (kept.symm.trans foundAfter)
  rw [blind, isTrue] at isFalse
  cases isFalse

/-- The loop returns when nothing that it looks at is gone and no other covering check is
met with the one that makes it erase. -/
theorem elimLoop_returns
    (blind : ∀ (inst : Inst) users, isCheck { inst with users := users } = isCheck inst)
    (nodup : users.Nodup)
    (known : ∀ user ∈ users, user ≠ op → ∃ inst check, store.insts user = some inst ∧
      isCheck inst = .ok check ∧
      ∃ dominates, isDominator isDominatorBB store user op = .ok dominates)
    (erases : ∃ store', eraseCheck store input op = .ok store')
    (alone : ∀ user ∈ users, Justifies isDominatorBB isCheck store op user →
      ∀ other ∈ users, other ≠ op → ∀ inst, store.insts other = some inst →
        isCheck inst = .ok true → other = user) :
    ∃ store', elimLoop isDominatorBB isCheck input op users store = .ok store' := by
  induction users with
  | nil => exact ⟨store, rfl⟩
  | cons user rest induction =>
      rw [List.nodup_cons] at nodup
      rw [List.forall_mem_cons] at known
      have later := induction nodup.2 known.2 fun other member justifies another anotherMem =>
        alone other (List.mem_cons_of_mem _ member) justifies another
          (List.mem_cons_of_mem _ anotherMem)
      rw [elimLoop]
      split_ifs with isOp
      · exact later
      · rcases known.1 (Ne.symm isOp) with ⟨inst, check, found, checking, dominates, asking⟩
        rw [inst_eq_ok.mpr found, Result.ok_bind, checking, Result.ok_bind]
        cases check with
        | false => exact later
        | true =>
            rw [if_pos rfl, asking, Result.ok_bind]
            cases dominates with
            | false => exact later
            | true =>
                rcases erases with ⟨next, erasing⟩
                rw [if_pos rfl, erasing, Result.ok_bind]
                refine ⟨next, ?_⟩
                have quiet : ∀ other ∈ rest, other ≠ op →
                    ∃ inst, next.insts other = some inst ∧ isCheck inst = .ok false := by
                  intro other member otherNotOp
                  rcases known.2 other member otherNotOp with
                    ⟨otherInst, otherCheck, otherFound, otherChecking, -⟩
                  rcases eraseCheck_kept erasing otherNotOp otherFound with ⟨users, kept⟩
                  refine ⟨_, kept, ?_⟩
                  rw [blind, otherChecking]
                  cases otherCheck with
                  | false => rfl
                  | true =>
                      have same := alone user List.mem_cons_self
                        ⟨Ne.symm isOp, inst, found, checking, asking⟩ other
                        (List.mem_cons_of_mem _ member) otherNotOp otherInst otherFound
                        otherChecking
                      exact absurd (same ▸ member) nodup.1
                rw [← result_tracedLoop, tracedLoop_quiet quiet, result_pure]

theorem eraseCheck_returns {inputInst : Inst} {bb : BlockId} {block : BasicBlock}
    (inputFound : store.insts input = some inputInst) (found : store.insts op = some inst)
    (home : inst.bb = some bb) (blockFound : store.blocks bb = some block)
    (inBlock : op ∈ block.instructions) : ∃ store', eraseCheck store input op = .ok store' := by
  have removing : store.removeUser input op =
      .ok (store.setInst input (inputInst.dropUser op)) := by
    rw [removeUser, inst_eq_ok.mpr inputFound]
    rfl
  have opFound : ∃ users, (store.setInst input (inputInst.dropUser op)).insts op =
      some { inst with users := users } := by
    cases decEq op input with
    | isTrue isInput =>
        subst isInput
        cases Option.some.inj (inputFound.symm.trans found)
        exact ⟨_, if_pos rfl⟩
    | isFalse other => exact ⟨inst.users, (if_neg other).trans found⟩
  rcases opFound with ⟨users, opFound⟩
  have isHome : ({ inst with users := users } : Inst).getBB = .ok bb := by rw [Inst.getBB, home]
  have isBlock : (store.setInst input (inputInst.dropUser op)).block bb = .ok block :=
    block_eq_ok.mpr blockFound
  rw [eraseCheck, removing, Result.ok_bind, inst_eq_ok.mpr opFound, Result.ok_bind, isHome,
    Result.ok_bind, eraseInst, isBlock, Result.ok_bind, if_pos inBlock]
  exact ⟨_, rfl⟩

theorem isDominator_returns (wellFormed : before.WellFormed func) {dom node : InstId}
    (domMem : dom ∈ before.listed func) (nodeMem : node ∈ before.listed func) :
    ∃ dominates, isDominator isDominatorBB before dom node = .ok dominates := by
  rcases wellFormed.inst domMem with ⟨bb, bbMem, -, domInst, domFound, domFits⟩
  rcases wellFormed.inst nodeMem with ⟨other, -, -, nodeInst, nodeFound, nodeFits⟩
  rcases wellFormed.blocks bb bbMem with ⟨block, blockFound⟩
  simp only [isDominator, Store.inst, domFound, nodeFound, Result.ok_bind, Inst.getBB, domFits.home,
    nodeFits.home, Store.block, blockFound]
  split_ifs <;> exact ⟨_, rfl⟩

/-- Each order in which a users set can be gone through. -/
def Iterates (order : Store → InstId → List InstId) : Prop :=
  ∀ store value, (order store value).Nodup ∧
    ∀ user, user ∈ order store value ↔ user ∈ store.users value

theorem Iterates.enumerates (iterates : Iterates order) : Enumerates order :=
  fun store value => (iterates store value).2

/-- What keeps a run from touching erased checks, in whatever order. -/
structure Undisturbed (isDominatorBB : BlockId → BlockId → Bool) (store : Store)
    (func : Function) : Prop where
  /-- One check only covers a dominated one. -/
  alone : ∀ op ∈ store.listed func, Dominated isDominatorBB store func [] op →
    ∀ other ∈ store.listed func, ∀ another ∈ store.listed func, other ≠ op → another ≠ op →
      Covers store op other → Covers store op another → other = another
  /-- A dominated check is not checked itself. -/
  operands : ∀ op ∈ store.listed func, Dominated isDominatorBB store func [] op →
    ∀ check ∈ store.listed func, IsCheck store check → (store.inputs check)[0]? ≠ some op
  /-- The bound of a dominated check is checked before. -/
  bounds : ∀ op ∈ store.listed func, Dominated isDominatorBB store func [] op →
    ∀ index bound, IsBoundsCheck store index bound op → index ≠ bound →
    ∀ check ∈ store.listed func, IsCheck store check →
      (store.inputs check)[0]? = some bound → Precedes store func check op

namespace Turn

variable (turn : Turn isDominatorBB before func op inst input isCheck gone store)

include turn

/-- A user that is gone is a bounds check that has the operand as its bound. -/
theorem boundsCheck_of_gone (wellFormed : before.WellFormed func) (inputLeft : input ∉ gone)
    (isUser : user ∈ store.users input) (isGone : user ∈ gone) :
    ∃ index, IsBoundsCheck before index input user ∧ index ≠ input := by
  have inputMem := turn.inputMem wellFormed
  have alive := mt (turn.trimmed.insts_eq_none_iff wellFormed inputMem).mp inputLeft
  rcases (turn.gone_iff user).mp isGone with ⟨⟨userMem, userInst, found, isKind⟩, -, -⟩
  rw [turn.scarred input inputMem alive user userMem (turn.trimmed.erased user isGone),
    inputs_eq found] at isUser
  rcases isUser with ⟨uses, notFirst⟩
  rcases isKind.inputs (wellFormed.shaped userMem found) with
    ⟨-, only, inputs⟩ | ⟨kind, index, bound, inputs⟩
  · rw [inputs] at uses notFirst
    exact absurd (congrArg some (List.mem_singleton.mp uses).symm) notFirst
  · rw [inputs] at uses notFirst
    have notIndex : index ≠ input := fun same => notFirst (congrArg some same)
    have isBound := (List.mem_pair.mp uses).resolve_left (Ne.symm notIndex)
    subst isBound
    exact ⟨index, ⟨userInst, found, kind, inputs⟩, notIndex⟩

theorem erases (wellFormed : before.WellFormed func) (inputLeft : input ∉ gone) :
    ∃ store', eraseCheck store input op = .ok store' := by
  have inputMem := turn.inputMem wellFormed
  rcases wellFormed.inst inputMem with ⟨_, -, -, inputInst, inputFound, -⟩
  rcases turn.trimmed.insts input inputMem inputLeft inputInst inputFound with ⟨_, inputNow⟩
  rcases wellFormed.fits turn.member turn.found with ⟨bb, bbMem, inBlock, fits⟩
  rcases turn.trimmed.insts op turn.member turn.left inst turn.found with ⟨users, foundNow⟩
  rcases turn.trimmed.blocks bb bbMem with ⟨block, blockFound⟩
  apply eraseCheck_returns inputNow foundNow fits.home blockFound
  rw [← instructions_eq blockFound, turn.trimmed.lists bb bbMem, List.mem_filter,
    decide_eq_true_iff]
  exact ⟨inBlock, turn.left⟩

/-- The turn ends when nothing that is gone is met. -/
theorem loop_returns (wellFormed : before.WellFormed func) (iterates : Iterates order)
    (undisturbed : Undisturbed isDominatorBB before func) (inputLeft : input ∉ gone) :
    ∃ store', elimLoop isDominatorBB isCheck input op (order store input) store = .ok store' := by
  have inputMem := turn.inputMem wellFormed
  have usersLeft : ∀ user ∈ store.users input, user ∈ before.listed func ∧ user ∉ gone := by
    intro user isUser
    refine ⟨turn.trimmed.usersMem input inputMem user isUser, ?_⟩
    intro isGone
    rcases turn.boundsCheck_of_gone wellFormed inputLeft isUser isGone with
      ⟨index, isBounds, different⟩
    rcases (turn.gone_iff user).mp isGone with ⟨⟨userMem, -⟩, precedes, dominated⟩
    exact Nat.lt_asymm precedes (undisturbed.bounds user userMem dominated index input isBounds
      different op turn.member turn.isCheckOp turn.inputs_first)
  apply elimLoop_returns turn.recognizes.blind (iterates store input).1 _
    (turn.erases wellFormed inputLeft)
  · intro user isUser justifies other isOther otherNotOp otherInst otherFound checked
    rw [(iterates store input).2] at isUser isOther
    rcases justifies with ⟨notOp, userInst, userFound, userChecked, dominates⟩
    rcases usersLeft user isUser with ⟨userMem, userLeft⟩
    have covers := (turn.isCheck_iff wellFormed inputLeft isUser userFound).mp userChecked
    rw [turn.trimmed.isDominator_eq wellFormed userMem turn.member userLeft turn.left] at dominates
    exact undisturbed.alone op turn.member
      ⟨user, userMem, List.not_mem_nil, notOp, covers, dominates⟩ other
      (usersLeft other isOther).1 user userMem otherNotOp notOp
      ((turn.isCheck_iff wellFormed inputLeft isOther otherFound).mp checked) covers
  · intro user isUser notOp
    rw [(iterates store input).2] at isUser
    rcases usersLeft user isUser with ⟨userMem, userLeft⟩
    rcases wellFormed.inst userMem with ⟨_, -, -, userInst, userFound, fits⟩
    rcases turn.trimmed.insts user userMem userLeft userInst userFound with ⟨_, userNow⟩
    rcases turn.recognizes.returns userInst fits.shaped with ⟨check, checked⟩
    rcases isDominator_returns wellFormed userMem turn.member with ⟨dominates, asked⟩
    rw [← turn.trimmed.isDominator_eq wellFormed userMem turn.member userLeft turn.left] at asked
    exact ⟨_, check, userNow, (turn.recognizes.blind userInst _).trans checked, dominates, asked⟩

end Turn

/-! ## The condition -/

/-- The run has no undefined behaviour, and each redundant check is erased once and left
alone after that. -/
structure NotTouchedAgain (isDominatorBB : BlockId → BlockId → Bool)
    (order : Store → InstId → List InstId) (store : Store) (func : Function) : Prop where
  completes : ∃ store', run isDominatorBB order store func = .ok store'
  erasedOnce : ∀ op ∈ store.listed func, Redundant store func op →
    ErasedOnce (tracedRun isDominatorBB order store func).events op

theorem run_returns (wellFormed : before.WellFormed func) (iterates : Iterates order)
    (orders : OrdersInsts isDominatorBB before func)
    (undisturbed : Undisturbed isDominatorBB before func) :
    ∃ store', run isDominatorBB order before func = .ok store' := by
  rw [run_eq wellFormed]
  have prefixes : ∀ front back, checksInOrder before func = front ++ back →
      ∃ store, front.foldlM (elim isDominatorBB order) before = .ok store := by
    intro front
    induction front using List.reverseRecOn with
    | nil => exact fun _ _ => ⟨before, rfl⟩
    | append_singleton front op induction =>
        intro back split
        rw [List.append_assoc, List.singleton_append] at split
        rcases induction (op :: back) split with ⟨store, running⟩
        rcases exists_turn wellFormed iterates.enumerates orders split running with
          ⟨inst, input, isCheck, gone, turn, loops⟩
        have inputLeft : input ∉ gone := by
          intro isGone
          rcases (turn.gone_iff input).mp isGone with ⟨⟨inputMem, -⟩, -, dominated⟩
          exact undisturbed.operands input inputMem dominated op turn.member turn.isCheckOp
            turn.inputs_first
        have inputMem := turn.inputMem wellFormed
        rcases wellFormed.inst inputMem with ⟨_, -, -, inputInst, inputFound, -⟩
        rcases turn.trimmed.insts input inputMem inputLeft inputInst inputFound with ⟨_, inputNow⟩
        rcases turn.loop_returns wellFormed iterates undisturbed inputLeft with ⟨next, returns⟩
        refine ⟨next, ?_⟩
        rw [List.foldlM_append, running, Result.ok_bind, List.foldlM_cons, loops,
          inst_eq_ok.mpr inputNow, Result.ok_bind, returns]
        rfl
  exact prefixes (checksInOrder before func) [] (List.append_nil _).symm

/-- The members of a users set once each, with `first` in front if it is one of them. -/
def putFirst (first : InstId) (store : Store) (value : InstId) : List InstId :=
  if first ∈ store.users value then first :: (store.users value).dedup.erase first
  else (store.users value).dedup

theorem putFirst_iterates (first : InstId) : Iterates (putFirst first) := by
  intro store value
  have nodup := List.nodup_dedup (store.users value)
  unfold putFirst
  split_ifs with isUser
  · constructor
    · exact List.nodup_cons.mpr ⟨nodup.not_mem_erase, nodup.erase first⟩
    · intro user
      rw [List.mem_cons, nodup.mem_erase_iff, List.mem_dedup]
      cases decEq user first with
      | isTrue same => simp [same, isUser]
      | isFalse different => simp [different]
  · exact ⟨nodup, fun user => List.mem_dedup⟩

theorem Covers.isCheckOp {other : InstId} (covers : Covers before op other) : IsCheck before op := by
  rcases covers with ⟨inst, _, found, -, isKind, -⟩
  exact ⟨inst, found, isKind⟩

theorem Dominated.isCheckOp (dominated : Dominated isDominatorBB before func gone op) :
    IsCheck before op := by
  rcases dominated with ⟨_, -, -, -, covers, -⟩
  exact covers.isCheckOp

section Forced

/-- A run that returns finds the operand of each check it comes to. -/
theorem operand_not_dominated (wellFormed : before.WellFormed func)
    (enumerates : Enumerates order) (orders : OrdersInsts isDominatorBB before func)
    (completes : run isDominatorBB order before func = .ok store')
    (member : op ∈ before.listed func) (dominated : Dominated isDominatorBB before func [] op)
    {check : InstId} (checkMem : check ∈ before.listed func) (isCheck : IsCheck before check) :
    (before.inputs check)[0]? ≠ some op := by
  intro isFirst
  rcases exists_passage wellFormed enumerates orders completes checkMem isCheck with ⟨passage⟩
  have same := Option.some.inj (passage.turn.inputs_first.symm.trans isFirst)
  apply passage.inputLeft
  rw [same, passage.turn.gone_iff]
  exact ⟨⟨member, dominated.isCheckOp⟩,
    precedes_of_operand wellFormed checkMem isCheck (List.mem_of_getElem? isFirst), dominated⟩

/-- A run that returns does not go through the users of a bound that keeps an erased check. -/
theorem bound_precedes (wellFormed : before.WellFormed func) (enumerates : Enumerates order)
    (orders : OrdersInsts isDominatorBB before func)
    (completes : run isDominatorBB order before func = .ok store')
    (member : op ∈ before.listed func) (dominated : Dominated isDominatorBB before func [] op)
    {index bound : InstId} (isBounds : IsBoundsCheck before index bound op)
    (different : index ≠ bound) {check : InstId} (checkMem : check ∈ before.listed func)
    (isCheck : IsCheck before check) (isFirst : (before.inputs check)[0]? = some bound) :
    Precedes before func check op := by
  rcases isBounds with ⟨inst, found, -, inputs⟩
  have isBound : bound ∈ before.inputs op ∧ (before.inputs op)[0]? ≠ some bound := by
    rw [inputs_eq found, inputs]
    exact ⟨by simp, by simpa using different⟩
  have notSame : check ≠ op := fun same => isBound.2 (same ▸ isFirst)
  have distinct : (before.inOrder func).idxOf check ≠ (before.inOrder func).idxOf op := fun same =>
    notSame ((List.idxOf_inj (wellFormed.inOrder_perm.mem_iff.mpr checkMem)).mp same)
  apply (Nat.lt_or_gt_of_ne distinct).resolve_right
  intro precedes
  rcases exists_passage wellFormed enumerates orders completes checkMem isCheck with ⟨passage⟩
  have turn := passage.turn
  have same := Option.some.inj (turn.inputs_first.symm.trans isFirst)
  have isGone := (turn.gone_iff op).mpr ⟨⟨member, dominated.isCheckOp⟩, precedes, dominated⟩
  have inputMem := turn.inputMem wellFormed
  have still : op ∈ order passage.store passage.input := by
    rw [enumerates, turn.scarred passage.input inputMem
      (mt (turn.trimmed.insts_eq_none_iff wellFormed inputMem).mp passage.inputLeft) op member
      (turn.trimmed.erased op isGone), same]
    exact isBound
  exact elimLoop_found passage.loop op still (Ne.symm notSame) (turn.trimmed.erased op isGone)

/-- With the check that dominates it in front, another one that covers it must be gone. -/
theorem gone_of_covers (wellFormed : before.WellFormed func)
    (orders : OrdersInsts isDominatorBB before func)
    (completes : ∀ order, Iterates order →
      ∃ store', run isDominatorBB order before func = .ok store')
    (member : op ∈ before.listed func) {dom other : InstId} (domMem : dom ∈ before.listed func)
    (domNotOp : dom ≠ op) (covers : Covers before op dom)
    (dominates : isDominator isDominatorBB before dom op = .ok true)
    (outermost : ¬ Dominated isDominatorBB before func [] dom)
    (otherMem : other ∈ before.listed func) (otherNotOp : other ≠ op) (otherNotDom : other ≠ dom)
    (coversToo : Covers before op other) :
    Precedes before func other op ∧ Dominated isDominatorBB before func [] other := by
  rcases completes (putFirst dom) (putFirst_iterates dom) with ⟨store', completes⟩
  rcases exists_passage wellFormed (putFirst_iterates dom).enumerates orders completes member
    covers.isCheckOp with ⟨passage⟩
  have turn := passage.turn
  have domLeft : dom ∉ passage.gone := fun isGone => outermost ((turn.gone_iff dom).mp isGone).2.2
  have domUser := turn.mem_users wellFormed passage.inputLeft domMem domLeft covers
  rcases wellFormed.inst domMem with ⟨_, -, -, domInst, domFound, -⟩
  rcases turn.trimmed.insts dom domMem domLeft domInst domFound with ⟨_, domNow⟩
  have justifies : Justifies isDominatorBB passage.isCheck passage.store op dom := by
    refine ⟨domNotOp, _, domNow,
      (turn.isCheck_iff wellFormed passage.inputLeft domUser domNow).mpr covers, ?_⟩
    rw [turn.trimmed.isDominator_eq wellFormed domMem member domLeft turn.left]
    exact dominates
  have loop := passage.loop
  rw [putFirst, if_pos domUser] at loop
  have fatal := elimLoop_first turn.recognizes.blind justifies loop
  have otherGone : other ∈ passage.gone := by
    by_contra otherLeft
    have isUser := turn.mem_users wellFormed passage.inputLeft otherMem otherLeft coversToo
    rcases wellFormed.inst otherMem with ⟨_, -, -, otherInst, otherFound, -⟩
    rcases turn.trimmed.insts other otherMem otherLeft otherInst otherFound with ⟨_, otherNow⟩
    have inRest : other ∈ (passage.store.users passage.input).dedup.erase dom := by
      rw [(List.nodup_dedup _).mem_erase_iff, List.mem_dedup]
      exact ⟨otherNotDom, isUser⟩
    exact fatal other inRest otherNotOp _ otherNow
      ((turn.isCheck_iff wellFormed passage.inputLeft isUser otherNow).mpr coversToo)
  exact ((turn.gone_iff other).mp otherGone).2

theorem undisturbed_of_completes (wellFormed : before.WellFormed func)
    (orders : OrdersInsts isDominatorBB before func)
    (completes : ∀ order, Iterates order →
      ∃ store', run isDominatorBB order before func = .ok store') :
    Undisturbed isDominatorBB before func := by
  have enumerates := (putFirst_iterates 0).enumerates
  rcases completes (putFirst 0) (putFirst_iterates 0) with ⟨store', once⟩
  have bounds : ∀ op ∈ before.listed func, Dominated isDominatorBB before func [] op →
      ∀ index bound, IsBoundsCheck before index bound op → index ≠ bound →
      ∀ check ∈ before.listed func, IsCheck before check →
        (before.inputs check)[0]? = some bound → Precedes before func check op := by
    intro op member dominated index bound isBounds different check checkMem isCheck
    exact bound_precedes wellFormed enumerates orders once member dominated isBounds different
      checkMem isCheck
  constructor
  case operands =>
    intro op member dominated check checkMem isCheck
    exact operand_not_dominated wellFormed enumerates orders once member dominated checkMem isCheck
  case bounds => exact bounds
  case alone =>
    intro op member dominated
    rcases dominated.outermost wellFormed orders member with
      ⟨dom, domMem, domNotOp, covers, dominates, outermost⟩
    have onlyDom : ∀ other ∈ before.listed func, other ≠ op → Covers before op other →
        other = dom := by
      intro other otherMem otherNotOp coversToo
      by_contra otherNotDom
      rcases gone_of_covers wellFormed orders completes member domMem domNotOp covers dominates
        outermost otherMem otherNotOp otherNotDom coversToo with ⟨precedes, otherDominated⟩
      have notSame : ¬ SameCheck before op other := by
        intro same
        rcases otherDominated.outermost wellFormed orders otherMem with
          ⟨dom', domMem', domNotOther, covers', dominates', outermost'⟩
        have opNotDom : op ≠ dom' := by
          intro isDom
          subst isDom
          exact outermost' dominated
        have back := gone_of_covers wellFormed orders completes otherMem domMem' domNotOther covers'
          dominates' outermost' member (Ne.symm otherNotOp) opNotDom
          (same.symm.covers wellFormed otherMem)
        exact Nat.lt_asymm precedes back.1
      rcases coversToo.same_or_self wellFormed member otherMem with
        same | ⟨index, bound, opBounds, otherBounds⟩
      · exact notSame same
      · rcases opBounds with ⟨inst, found, kind, inputs⟩
        cases decEq index bound with
        | isTrue alike =>
            rcases otherBounds with ⟨otherInst, otherFound, otherKind, otherInputs⟩
            exact notSame ⟨inst, otherInst, found, otherFound, .inr kind,
              otherKind.trans kind.symm, by rw [inputs, otherInputs, alike]⟩
        | isFalse different =>
            have isFirst : (before.inputs op)[0]? = some bound := by
              rw [inputs_eq found, inputs]
              rfl
            exact Nat.lt_asymm precedes (bounds other otherMem otherDominated index bound
              otherBounds different op member dominated.isCheckOp isFirst)
    intro other otherMem another anotherMem otherNotOp anotherNotOp coversOther coversAnother
    rw [onlyDom other otherMem otherNotOp coversOther,
      onlyDom another anotherMem anotherNotOp coversAnother]

end Forced

/-- An erased check is not touched again, in whatever order the users sets are gone
through, exactly when nothing disturbs the run and the tree answers for what is redundant. -/
theorem notTouchedAgain_iff (wellFormed : before.WellFormed func)
    (ids : (func.bbs.map (before.cfg func).id).Nodup) {tree : DominatorTree BlockId}
    (built : buildDomTree (before.cfg func) = .ok tree) :
    (∀ order, Iterates order → NotTouchedAgain (treeAnswers tree) order before func) ↔
      Undisturbed (treeAnswers tree) before func ∧
        ∀ op ∈ before.listed func, Redundant before func op →
          Dominated (treeAnswers tree) before func [] op := by
  have orders := ordersInsts_tree wellFormed ids built
  constructor
  · intro untouched
    refine ⟨undisturbed_of_completes wellFormed orders fun order iterates =>
      (untouched order iterates).completes, ?_⟩
    intro op member redundant
    have iterates := putFirst_iterates op
    rcases (untouched _ iterates).completes with ⟨store', completes⟩
    rcases (untouched _ iterates).erasedOnce op member redundant with ⟨front, back, split, -⟩
    apply dominated_of_erased wellFormed iterates.enumerates orders completes
    rw [split]
    simp
  · rintro ⟨undisturbed, answered⟩ order iterates
    rcases run_returns wellFormed iterates orders undisturbed with ⟨store', completes⟩
    refine ⟨⟨store', completes⟩, fun op member redundant => ?_⟩
    have dominated := answered op member redundant
    exact erasedOnce_of_completes wellFormed iterates.enumerates orders completes member
      dominated.isCheckOp dominated

/-- Three zero checks of one value. -/
def zeroChecks : Store :=
  .ofTables
    [{ type := .I64, kind := .kParam 0, users := [1, 2, 3], bb := some 0 },
      { kind := .kUnaryOp .kZeroCheck, bb := some 0, inputs := [0] },
      { kind := .kUnaryOp .kZeroCheck, bb := some 0, inputs := [0] },
      { kind := .kUnaryOp .kZeroCheck, bb := some 0, inputs := [0] },
      { kind := .kRet, bb := some 0 }]
    [{ instructions := [0, 1, 2, 3, 4] }] []

theorem notTouchedAgain_iff_zeroChecks :
    ∃ tree, buildDomTree (zeroChecks.cfg checking) = .ok tree ∧
      ((∀ order, Iterates order → NotTouchedAgain (treeAnswers tree) order zeroChecks checking) ↔
        Undisturbed (treeAnswers tree) zeroChecks checking ∧
          ∀ op ∈ zeroChecks.listed checking, Redundant zeroChecks checking op →
            Dominated (treeAnswers tree) zeroChecks checking [] op) := by
  have wellFormed : zeroChecks.WellFormed checking := checkWellFormed_sound rfl
  have ids : (checking.bbs.map (zeroChecks.cfg checking).id).Nodup := List.nodup_singleton _
  rcases buildDomTree_rooted (wellFormed.toCfg ids) with ⟨tree, built, -⟩
  exact ⟨tree, built, notTouchedAgain_iff wellFormed ids built⟩

/-- The first check in front, the third one is asked about the second after that is gone. -/
theorem touched_again :
    zeroChecks.WellFormed checking ∧ (checking.bbs.map (zeroChecks.cfg checking).id).Nodup ∧
      Iterates (putFirst 1) ∧ 2 ∈ zeroChecks.listed checking ∧ Redundant zeroChecks checking 2 ∧
      ∃ tree, buildDomTree (zeroChecks.cfg checking) = .ok tree ∧
        ¬ ErasedOnce (tracedRun (treeAnswers tree) (putFirst 1) zeroChecks checking).events 2 := by
  have wellFormed : zeroChecks.WellFormed checking := checkWellFormed_sound rfl
  have ids : (checking.bbs.map (zeroChecks.cfg checking).id).Nodup := List.nodup_singleton _
  have redundant : Redundant zeroChecks checking 2 :=
    ⟨1, by decide, ⟨_, _, rfl, rfl, .inl rfl, rfl, rfl⟩, 0, List.mem_singleton_self 0, [0, 1], [3, 4],
      rfl, .inl (by decide)⟩
  rcases buildDomTree_rooted (wellFormed.toCfg ids) with ⟨tree, built, -⟩
  refine ⟨wellFormed, ids, putFirst_iterates 1, by decide, redundant, tree, built, ?_⟩
  have noted : (tracedRun (treeAnswers tree) (putFirst 1) zeroChecks checking).events =
      [.isDominator 2 1, .isDominator 3 1, .isDominator 1 2, .eraseInst 2] ++
        [.isDominator 3 2] := rfl
  rintro ⟨front, back, split, -, silent⟩
  rw [noted] at split
  have last := congrArg List.getLast? split
  rw [List.getLast?_append, List.getLast?_append_cons] at last
  cases back with
  | nil => cases last
  | cons call rest =>
      apply silent (.isDominator 3 2)
      · exact List.mem_of_getLast? (by simpa using last.symm)
      · exact .inr rfl

end LeechJit.Opt.ChecksElimination
