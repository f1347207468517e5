import Mathlib.Data.List.TakeWhile
import LeechJit.IR.Built
import LeechJit.IR.Housed

/-! # Blocks and their instructions know each other

`homeOf` is what `getBB` answers. Which block an instruction believes to be in and
which list it stands in are changed by different operations; here is what each of
them does to the one and to the other.
-/

namespace LeechJit.IR.Store

variable {store middle store' : Store} {bb : BlockId} {id : InstId}

/-- `getBB`, for an instruction that exists. -/
def homeOf (store : Store) (id : InstId) : Option (Option BlockId) :=
  (store.insts id).map Inst.bb

/-- Every instruction in the list of a block has that block as its own. -/
def KnowsBlocks (store : Store) : Prop :=
  ∀ bb, ∀ id ∈ store.instructions bb, store.homeOf id = some (some bb)

/-- Some instruction in a list has no block. -/
def Homeless (store : Store) : Prop :=
  ∃ bb, ∃ id ∈ store.instructions bb, store.homeOf id = some none

theorem Homeless.not_knowsBlocks (homeless : store.Homeless) : ¬ store.KnowsBlocks := by
  rcases homeless with ⟨bb, id, member, home⟩
  intro knows
  cases home.symm.trans (knows bb id member)

def Allocated (store : Store) : Prop :=
  ∀ id, store.homeOf id ≠ none → id < store.nextInst

structure Settled (store : Store) : Prop where
  knows : store.KnowsBlocks
  nodup : ∀ bb, (store.instructions bb).Nodup
  allocated : store.Allocated

theorem homeOf_eq {inst : Inst} (found : store.insts id = some inst) :
    store.homeOf id = some inst.bb := by
  rw [homeOf, found, Option.map_some]

theorem homeOf_eq_none : store.homeOf id = none ↔ store.insts id = none := by
  cases found : store.insts id <;> simp [homeOf, found]

/-- An instruction that knows its block stands nowhere else. -/
theorem Settled.home_unique (settled : store.Settled) {other : BlockId}
    (inBlock : id ∈ store.instructions bb) (inOther : id ∈ store.instructions other) :
    bb = other := by
  have equal := (settled.knows bb id inBlock).symm.trans (settled.knows other id inOther)
  exact Option.some.inj (Option.some.inj equal)

/-! ## Operations that touch neither lists nor blocks of instructions -/

structure SameHomes (store store' : Store) : Prop where
  homes : ∀ id, store'.homeOf id = store.homeOf id
  lists : ∀ bb, store'.instructions bb = store.instructions bb
  nextInst : store'.nextInst = store.nextInst

namespace SameHomes

theorem refl (store : Store) : SameHomes store store :=
  ⟨fun _ => rfl, fun _ => rfl, rfl⟩

theorem trans (first : SameHomes store middle) (second : SameHomes middle store') :
    SameHomes store store' where
  homes id := (second.homes id).trans (first.homes id)
  lists bb := (second.lists bb).trans (first.lists bb)
  nextInst := second.nextInst.trans first.nextInst

theorem of_relinked (relinked : Relinked store store') : SameHomes store store' where
  homes id := by
    cases found : store.insts id with
    | none => rw [homeOf_eq_none.mpr found, homeOf_eq_none.mpr (relinked.insts_none.mpr found)]
    | some inst => rw [homeOf_eq found, homeOf_eq (relinked.insts found)]
  lists bb := by rw [instructions, instructions, relinked.blocks]
  nextInst := relinked.nextInst

theorem of_sameInsts (same : SameInsts store store') : SameHomes store store' where
  homes id := by rw [homeOf, homeOf, same.insts]
  lists := same.instructions
  nextInst := same.nextInst

theorem setInst {inst changed : Inst} (found : store.insts id = some inst)
    (same : changed.bb = inst.bb) : SameHomes store (store.setInst id changed) where
  homes key := by
    by_cases isId : key = id
    · simp [homeOf, Store.setInst, isId, found, same]
    · simp [homeOf, Store.setInst, isId]
  lists _ := rfl
  nextInst := rfl

theorem knowsBlocks_iff (same : SameHomes store store') :
    store'.KnowsBlocks ↔ store.KnowsBlocks := by
  simp only [KnowsBlocks, same.homes, same.lists]

theorem homeless (same : SameHomes store store') (homeless : store.Homeless) :
    store'.Homeless := by
  simpa only [Homeless, same.homes, same.lists] using homeless

theorem allocated (same : SameHomes store store') (allocated : store.Allocated) :
    store'.Allocated := by
  simpa only [Allocated, same.homes, same.nextInst] using allocated

theorem settled (same : SameHomes store store') (settled : store.Settled) : store'.Settled where
  knows := same.knowsBlocks_iff.mpr settled.knows
  nodup bb := same.lists bb ▸ settled.nodup bb
  allocated := same.allocated settled.allocated

/-- Handing users over, also to the instruction itself. -/
theorem setUsersFrom {this other : InstId} (result : store.setUsersFrom this other = .ok store') :
    Relinked store store' := by
  rcases Result.bind_eq_ok.mp result with ⟨thisInst, foundThis, result⟩
  rcases Result.bind_eq_ok.mp result with ⟨otherInst, foundOther, result⟩
  rcases Result.bind_eq_ok.mp result with ⟨otherAgain, foundAgain, result⟩
  rcases Result.bind_eq_ok.mp result with ⟨thisAgain, foundLast, result⟩
  rw [inst_eq_ok] at foundThis foundOther foundAgain foundLast
  have replacing := replaceInputs_eq_ok result
  rw [replacing]
  refine ((Relinked.setInst foundThis ?_).trans (Relinked.setInst foundAgain ?_)).trans
    (Relinked.mapInsts ?_)
  · rfl
  · rfl
  · intro key inst
    split_ifs <;> rfl

end SameHomes

/-! ## A new instruction -/

/-- An instruction that stands in no list and has no block is there now. -/
structure Created (store : Store) (store' : Store) : Prop where
  homes : ∀ key, store'.homeOf key =
    if key = store.nextInst then some none else store.homeOf key
  lists : ∀ bb, store'.instructions bb = store.instructions bb
  nextInst : store'.nextInst = store.nextInst + 1

theorem Created.trans (created : Created store middle) (same : SameHomes middle store') :
    Created store store' where
  homes key := (same.homes key).trans (created.homes key)
  lists bb := (same.lists bb).trans (created.lists bb)
  nextInst := same.nextInst.trans created.nextInst

theorem created_newInst (store : Store) (inst : Inst) (homeless : inst.bb = none) :
    Created store (store.newInst inst).2 where
  homes key := by
    by_cases isNew : key = store.nextInst
    · simp [homeOf, newInst, setInst, isNew, homeless]
    · simp [homeOf, newInst, setInst, isNew]
  lists _ := rfl
  nextInst := rfl

theorem construct_created {new : Construct} {key : InstId}
    (result : store.construct new = .ok (key, store')) :
    key = store.nextInst ∧ Created store store' := by
  rcases construct_eq_ok result with ⟨isNew, -, type, -, relinked, -, -⟩
  exact ⟨isNew, (created_newInst store _ rfl).trans (.of_relinked relinked)⟩

theorem Created.allocated (created : Created store store') (allocated : store.Allocated) :
    store'.Allocated := by
  intro key present
  rw [created.homes] at present
  rw [created.nextInst]
  by_cases isNew : key = store.nextInst
  · rw [isNew]
    exact Nat.lt_succ_self _
  · rw [if_neg isNew] at present
    exact Nat.lt_succ_of_lt (allocated key present)

/-- No list has the key of a new instruction. -/
theorem Settled.fresh (settled : store.Settled) (bb : BlockId) :
    store.nextInst ∉ store.instructions bb := by
  intro member
  have below := settled.allocated store.nextInst (by rw [settled.knows bb _ member]; simp)
  exact Nat.lt_irrefl _ below

theorem Created.settled (created : Created store store') (settled : store.Settled) :
    store'.Settled where
  knows bb id member := by
    rw [created.lists] at member
    rw [created.homes, if_neg]
    · exact settled.knows bb id member
    · rintro rfl
      exact settled.fresh bb member
  nodup bb := created.lists bb ▸ settled.nodup bb
  allocated := created.allocated settled.allocated

theorem setBB_homes (result : store.setBB bb id = .ok store') :
    (∀ key, store'.homeOf key = if key = id then some (some bb) else store.homeOf key) ∧
      (∀ other, store'.instructions other = store.instructions other) ∧
      store'.nextInst = store.nextInst ∧ store.homeOf id ≠ none := by
  rcases Result.bind_eq_ok.mp result with ⟨inst, found, stored⟩
  rw [inst_eq_ok] at found
  cases stored
  refine ⟨?_, fun _ => rfl, rfl, ?_⟩
  · intro key
    by_cases isId : key = id <;> simp [homeOf, setInst, isId]
  · rw [homeOf_eq found]
    simp

theorem setBBs_homes {ids : List InstId} (result : setBBs bb ids store = .ok store') :
    (∀ key, store'.homeOf key = if key ∈ ids then some (some bb) else store.homeOf key) ∧
      (∀ other, store'.instructions other = store.instructions other) ∧
      store'.nextInst = store.nextInst ∧ store'.blocks = store.blocks := by
  induction ids generalizing store with
  | nil =>
      cases result
      simp
  | cons id rest induction =>
      rcases Result.bind_eq_ok.mp result with ⟨next, first, later⟩
      have blocks : next.blocks = store.blocks := by
        rcases Result.bind_eq_ok.mp first with ⟨inst, -, stored⟩
        cases stored
        rfl
      rcases setBB_homes first with ⟨homes, lists, nextInst, -⟩
      rcases induction later with ⟨homes', lists', nextInst', blocks'⟩
      refine ⟨?_, fun other => (lists' other).trans (lists other), nextInst'.trans nextInst,
        blocks'.trans blocks⟩
      intro key
      rw [homes', homes]
      by_cases isId : key = id
      · simp [isId]
      · simp [isId]

/-! ## Building -/

theorem setBlock_instructions {block : BasicBlock} {other : BlockId} :
    (store.setBlock bb block).instructions other =
      if other = bb then block.instructions else store.instructions other := by
  by_cases isBlock : other = bb <;> simp [instructions, setBlock, isBlock]

theorem addNode_sameHomes {phi val : InstId} (result : store.addNode phi val bb = .ok store') :
    SameHomes store store' := by
  rcases Result.bind_eq_ok.mp result with ⟨⟨type, kind, users, home, inputs⟩, found, adding⟩
  rw [inst_eq_ok] at found
  cases kind with
  | kPhi vars =>
      apply SameHomes.trans _ (.of_relinked (addInput_eq_ok adding).1)
      apply SameHomes.setInst found
      rfl
  | _ => cases adding

theorem appendArg_sameHomes {call arg : InstId} (result : store.appendArg call arg = .ok store') :
    SameHomes store store' := by
  rcases Result.bind_eq_ok.mp result with ⟨⟨type, kind, users, home, inputs⟩, -, adding⟩
  cases kind with
  | kCall callee => exact .of_relinked (addInput_eq_ok adding).1
  | _ => cases adding

/-- A new instruction is put into the list of a block and told so. -/
theorem Settled.placed (front back : List InstId) (settled : store.Settled)
    (created : Created store middle) (split : store.instructions bb = front ++ back)
    (homes : ∀ key, store'.homeOf key =
      if key = store.nextInst then some (some bb) else middle.homeOf key)
    (lists : ∀ other, store'.instructions other =
      if other = bb then front ++ store.nextInst :: back else store.instructions other)
    (nextInst : store'.nextInst = middle.nextInst) : store'.Settled where
  knows other id member := by
    rw [lists] at member
    rw [homes, created.homes]
    by_cases isNew : id = store.nextInst
    · rw [if_pos isNew]
      by_cases isBlock : other = bb
      · rw [isBlock]
      · rw [if_neg isBlock, isNew] at member
        exact absurd member (settled.fresh other)
    · rw [if_neg isNew, if_neg isNew]
      apply settled.knows other id
      by_cases isBlock : other = bb
      · rw [if_pos isBlock, List.mem_append, List.mem_cons] at member
        rw [isBlock, split, List.mem_append]
        exact member.imp_right fun either => either.resolve_left isNew
      · rwa [if_neg isBlock] at member
  nodup other := by
    rw [lists]
    by_cases isBlock : other = bb
    · have nodup := settled.nodup bb
      have fresh := settled.fresh bb
      rw [split] at nodup fresh
      rw [if_pos isBlock, List.nodup_middle, List.nodup_cons]
      exact ⟨fresh, nodup⟩
    · rw [if_neg isBlock]
      exact settled.nodup other
  allocated key present := by
    have below := created.allocated settled.allocated key
    rw [homes] at present
    rw [nextInst]
    by_cases isNew : key = store.nextInst
    · rw [created.nextInst, isNew]
      exact Nat.lt_succ_self _
    · rw [if_neg isNew] at present
      exact below present

theorem pushInstFront_settled {new : Construct} (settled : store.Settled)
    (result : store.pushInstFront bb new = .ok (id, store')) : store'.Settled := by
  rcases Result.bind_eq_ok.mp result with ⟨⟨key, made⟩, making, continued⟩
  rcases Result.bind_eq_ok.mp continued with ⟨block, found, continued⟩
  rcases Result.bind_eq_ok.mp continued with ⟨placed, placing, equal⟩
  cases equal
  rcases construct_created making with ⟨rfl, created⟩
  rcases setBB_homes placing with ⟨homes, lists, nextInst, -⟩
  have here : store.instructions bb = block.instructions := by
    rw [← created.lists, instructions_eq (block_eq_ok.mp found)]
  apply settled.placed [] block.instructions created here homes _ nextInst
  intro other
  rw [lists, setBlock_instructions, created.lists]
  rfl

theorem pushInstBack_settled {new : Construct} (settled : store.Settled)
    (result : store.pushInstBack bb new = .ok (id, store')) : store'.Settled := by
  rcases Result.bind_eq_ok.mp result with ⟨⟨key, made⟩, making, continued⟩
  rcases Result.bind_eq_ok.mp continued with ⟨block, found, continued⟩
  rcases Result.bind_eq_ok.mp continued with ⟨placed, placing, continued⟩
  rcases Result.bind_eq_ok.mp continued with ⟨linked, linking, equal⟩
  cases equal
  rcases construct_created making with ⟨rfl, created⟩
  rcases setBB_homes placing with ⟨homes, lists, nextInst, -⟩
  have here : store.instructions bb = block.instructions ++ [] := by
    rw [← created.lists, instructions_eq (block_eq_ok.mp found), List.append_nil]
  apply (SameHomes.of_sameInsts (.updateLinks linking)).settled
  apply settled.placed block.instructions [] created here homes _ nextInst
  intro other
  rw [lists, setBlock_instructions, created.lists]

/-- Lists may lose instructions. -/
theorem Settled.sublists (settled : store.Settled)
    (homes : ∀ bb, ∀ id ∈ store'.instructions bb, store'.homeOf id = store.homeOf id)
    (lists : ∀ bb, (store'.instructions bb).Sublist (store.instructions bb))
    (allocated : store'.Allocated) : store'.Settled where
  knows bb id member := by
    rw [homes bb id member]
    exact settled.knows bb id ((lists bb).subset member)
  nodup bb := (settled.nodup bb).sublist (lists bb)
  allocated := allocated

theorem appendBB_settled {func : FuncId} (settled : store.Settled)
    (result : store.appendBB func = .ok (bb, store')) : store'.Settled := by
  rcases Result.bind_eq_ok.mp result with ⟨function, -, continued⟩
  rcases Result.bind_eq_ok.mp continued with ⟨idx, -, equal⟩
  cases equal
  refine settled.sublists ?_ ?_ settled.allocated
  · intro _ _ _
    rfl
  · intro other
    change ((store.setBlock store.nextBlock { id := idx }).instructions other).Sublist _
    rw [setBlock_instructions]
    split_ifs
    · exact List.nil_sublist _
    · exact .refl _

theorem BuildStep.settled {step : BuildStep} (settled : store.Settled)
    (result : step.apply store = .ok store') : store'.Settled := by
  cases step with
  | newFunction func resType args =>
      simp only [BuildStep.apply, Store.newFunction] at result
      split at result
      · cases result
        exact settled.sublists (fun _ _ _ => rfl) (fun _ => .refl _) settled.allocated
      · cases result
  | appendBB func =>
      rcases Result.map_eq_ok.mp result with ⟨⟨bb, made⟩, making, rfl⟩
      exact appendBB_settled settled making
  | pushInstFront bb new =>
      rcases Result.map_eq_ok.mp result with ⟨⟨id, made⟩, making, rfl⟩
      exact pushInstFront_settled settled making
  | pushInstBack bb new =>
      rcases Result.map_eq_ok.mp result with ⟨⟨id, made⟩, making, rfl⟩
      exact pushInstBack_settled settled making
  | addNode phi val bb => exact (addNode_sameHomes result).settled settled
  | appendArg call arg => exact (appendArg_sameHomes result).settled settled

theorem empty_settled : Store.empty.Settled where
  knows bb id member := by cases member
  nodup bb := List.nodup_nil
  allocated id present := absurd rfl present

theorem Built.settled (built : store.Built) : store.Settled :=
  built.induct Settled empty_settled fun _ _ _ => BuildStep.settled

/-! ## Erasing and replacing -/

/-- An instruction has left its list, and a new one without a block may stand there. -/
structure Taken (store : Store) (old : InstId) (isNew : Bool) (store' : Store) : Prop where
  homes : ∀ key, store'.homeOf key = if key = old then none
    else if isNew = true ∧ key = store.nextInst then some none else store.homeOf key
  placed : ∃ bb, old ∈ store.instructions bb ∧ ∀ key, store'.instructions key =
    if key = bb then
      if isNew = true then (store.instructions bb).replace old store.nextInst
      else (store.instructions bb).erase old
    else store.instructions key
  nextInst : store'.nextInst = if isNew = true then store.nextInst + 1 else store.nextInst

namespace Taken

variable {old : InstId} {isNew : Bool}

theorem of_same (same : SameHomes store middle) (taken : Taken middle old isNew store') :
    Taken store old isNew store' where
  homes key := by
    rw [taken.homes, same.homes, same.nextInst]
  placed := by
    rcases taken.placed with ⟨bb, inBlock, lists⟩
    refine ⟨bb, same.lists bb ▸ inBlock, ?_⟩
    intro key
    rw [lists, same.lists, same.lists, same.nextInst]
  nextInst := by rw [taken.nextInst, same.nextInst]

theorem allocated (taken : Taken store old isNew store') (allocated : store.Allocated) :
    store'.Allocated := by
  intro key present
  rw [taken.homes] at present
  rw [taken.nextInst]
  by_cases isOld : key = old
  · rw [if_pos isOld] at present
    exact absurd rfl present
  · rw [if_neg isOld] at present
    by_cases fresh : isNew = true ∧ key = store.nextInst
    · rw [if_pos fresh.1, fresh.2]
      exact Nat.lt_succ_self _
    · rw [if_neg fresh] at present
      have below := allocated key present
      split_ifs
      · exact Nat.lt_succ_of_lt below
      · exact below

/-- Erasing an instruction from the list it stands in. -/
theorem settled (taken : Taken store old false store') (settled : store.Settled) :
    store'.Settled := by
  rcases taken.placed with ⟨bb, inBlock, lists⟩
  have sublists : ∀ key, (store'.instructions key).Sublist (store.instructions key) := by
    intro key
    rw [lists]
    by_cases isBlock : key = bb
    · rw [if_pos isBlock, isBlock]
      exact List.erase_sublist
    · rw [if_neg isBlock]
  apply settled.sublists _ sublists (taken.allocated settled.allocated)
  intro key id member
  have notOld : id ≠ old := by
    rintro rfl
    have isBlock := settled.home_unique ((sublists key).subset member) inBlock
    rw [lists, if_pos isBlock] at member
    exact (settled.nodup bb).not_mem_erase member
  rw [taken.homes, if_neg notOld, if_neg (by simp)]

/-- The new instruction has no block. -/
theorem homeless (taken : Taken store old true store') (allocated : store.Allocated)
    (stored : store.homeOf old ≠ none) : store'.Homeless := by
  rcases taken.placed with ⟨bb, inBlock, lists⟩
  refine ⟨bb, store.nextInst, ?_, ?_⟩
  · rw [lists, if_pos rfl, if_pos rfl]
    exact mem_replace_self inBlock
  · have notOld : store.nextInst ≠ old := Nat.ne_of_gt (allocated old stored)
    rw [taken.homes, if_neg notOld, if_pos ⟨rfl, rfl⟩]

theorem homeless_of_settled (taken : Taken store old true store') (settled : store.Settled) :
    store'.Homeless := by
  rcases taken.placed with ⟨bb, inBlock, -⟩
  apply taken.homeless settled.allocated
  rw [settled.knows bb old inBlock]
  simp

/-- An instruction without a block is not taken out. -/
theorem homeless_stays (taken : Taken store old isNew store') (allocated : store.Allocated)
    (atHome : ∃ bb, store.homeOf old = some (some bb)) (homeless : store.Homeless) :
    store'.Homeless := by
  rcases homeless with ⟨bb, id, member, home⟩
  have notOld : id ≠ old := by
    rintro rfl
    rcases atHome with ⟨bb, isHome⟩
    cases home.symm.trans isHome
  have notNew : id ≠ store.nextInst := Nat.ne_of_lt (allocated id (by simp [home]))
  refine ⟨bb, id, ?_, ?_⟩
  · rcases taken.placed with ⟨other, -, lists⟩
    rw [lists]
    split_ifs with isBlock
    · rw [mem_replace_of_ne notOld notNew]
      exact isBlock ▸ member
    · rw [List.mem_erase_of_ne notOld]
      exact isBlock ▸ member
    · exact member
  · rw [taken.homes, if_neg notOld, if_neg (fun both => notNew both.2), home]

end Taken

theorem eraseInst_taken (result : store.eraseInst bb id = .ok store') :
    Taken store id false store' := by
  rcases eraseInst_eq_ok result with ⟨block, found, inBlock, insts, blocks, -, nextInst, -⟩
  have here := instructions_eq found
  constructor
  · intro key
    rw [homeOf, insts]
    by_cases isOld : key = id <;> simp [isOld, homeOf]
  · refine ⟨bb, here ▸ inBlock, ?_⟩
    intro key
    rw [instructions, blocks, here]
    by_cases isBlock : key = bb <;> simp [isBlock, instructions]
  · exact nextInst

theorem replaceInst_taken {old : InstId} (created : Created store middle)
    (result : middle.replaceInst bb old store.nextInst = .ok store') :
    Taken store old true store' := by
  rcases replaceInst_eq_ok result with
    ⟨moved, block, moving, foundBlock, inBlock, insts, blocks, nextInst⟩
  have same := created.trans (.of_relinked (SameHomes.setUsersFrom moving))
  have here := instructions_eq foundBlock
  rw [same.lists] at here
  constructor
  · intro key
    have homes := same.homes key
    rw [homeOf] at homes
    rw [homeOf, insts]
    by_cases isOld : key = old
    · simp [isOld]
    · simpa [isOld] using homes
  · refine ⟨bb, here ▸ inBlock, ?_⟩
    intro key
    have lists := same.lists key
    rw [instructions] at lists
    rw [instructions, blocks, here]
    by_cases isBlock : key = bb
    · simp [isBlock]
    · simpa [isBlock] using lists
  · exact nextInst.trans same.nextInst

theorem replaceInstEmplace_taken {old : InstId} {new : Construct} (allocated : store.Allocated)
    (stored : store.homeOf old ≠ none) (result : store.replaceInstEmplace bb old new = .ok store') :
    Taken store old true store' := by
  rcases Result.bind_eq_ok.mp result with ⟨block, found, continued⟩
  rcases Result.bind_eq_ok.mp continued with ⟨erased, erasing, continued⟩
  rcases Result.bind_eq_ok.mp continued with ⟨⟨id, made⟩, making, equal⟩
  cases equal
  rw [block_eq_ok] at found
  have here := instructions_eq found
  have taken := eraseInst_taken erasing
  rcases eraseInst_eq_ok erasing with ⟨again, foundAgain, inBlock, -, blocks, -, -, -⟩
  cases Option.some.inj (found.symm.trans foundAgain)
  rcases construct_created making with ⟨rfl, created⟩
  have sameNext : erased.nextInst = store.nextInst := taken.nextInst
  have notOld : store.nextInst ≠ old := Nat.ne_of_gt (allocated old stored)
  constructor
  · intro key
    have homes := created.homes key
    rw [taken.homes, sameNext] at homes
    refine homes.trans ?_
    by_cases isNew : key = store.nextInst
    · simp [isNew, notOld]
    · simp [isNew]
  · refine ⟨bb, here ▸ inBlock, ?_⟩
    intro key
    rw [setBlock_instructions, here, created.lists, sameNext]
    by_cases isBlock : key = bb
    · simp [isBlock]
    · simp [isBlock, instructions, blocks]
  · exact created.nextInst.trans (congrArg (· + 1) sameNext)

/-! ## Splicing -/

theorem segment_eq_ok {first last : Option InstId} {ids front moved back : List InstId}
    (result : segment first last ids = .ok (front, moved, back)) : ids = front ++ moved ++ back := by
  simp only [segment] at result
  split_ifs at result
  cases result
  rw [List.append_assoc, List.takeWhile_append_dropWhile, List.takeWhile_append_dropWhile]

theorem insertBefore_perm {pos : Option InstId} {moved ids inserted : List InstId}
    (result : insertBefore pos moved ids = .ok inserted) : inserted.Perm (moved ++ ids) := by
  cases pos with
  | none =>
      cases result
      exact List.perm_append_comm
  | some id =>
      simp only [insertBefore] at result
      split_ifs at result
      cases result
      calc
        (ids.takeWhile (· ≠ id) ++ moved ++ ids.dropWhile (· ≠ id)).Perm
            (moved ++ ids.takeWhile (· ≠ id) ++ ids.dropWhile (· ≠ id)) :=
          List.perm_append_comm.append_right _
        _ = moved ++ ids := by rw [List.append_assoc, List.takeWhile_append_dropWhile]

theorem splice_settled {pos first last : Option InstId} {other : BlockId}
    (settled : store.Settled) (result : store.splice bb pos other first last = .ok store') :
    store'.Settled := by
  rcases Result.bind_eq_ok.mp result with ⟨source, found, continued⟩
  rcases Result.bind_eq_ok.mp continued with ⟨⟨front, moved, back⟩, cutting, continued⟩
  rcases Result.bind_eq_ok.mp continued with ⟨told, telling, continued⟩
  rcases Result.bind_eq_ok.mp continued with ⟨block, foundBlock, continued⟩
  rcases Result.bind_eq_ok.mp continued with ⟨inserted, inserting, linking⟩
  have split : store.instructions other = front ++ moved ++ back := by
    rw [instructions_eq (block_eq_ok.mp found)]
    exact segment_eq_ok cutting
  have order := insertBefore_perm inserting
  rcases setBBs_homes telling with ⟨homes, lists, nextInst, -⟩
  rw [← instructions_eq (block_eq_ok.mp foundBlock), setBlock_instructions, lists] at order
  have nodupOther := settled.nodup other
  rw [split, List.append_assoc] at nodupOther
  have movedMem : ∀ id ∈ moved, id ∈ store.instructions other := by
    intro id member
    simp [split, member]
  have restMem : ∀ id ∈ front ++ back, id ∈ store.instructions other ∧ id ∉ moved := by
    intro id member
    have parts := List.nodup_append.mp nodupOther
    have behind := List.nodup_append.mp parts.2.1
    rcases List.mem_append.mp member with inFront | inBack
    · refine ⟨by simp [split, inFront], fun isMoved => ?_⟩
      exact parts.2.2 id inFront id (List.mem_append_left _ isMoved) rfl
    · refine ⟨by simp [split, inBack], fun isMoved => ?_⟩
      exact behind.2.2 id isMoved id inBack rfl
  have spliced : ((told.setBlock other { source with instructions := front ++ back }).setBlock bb
      { block with instructions := inserted }).Settled := by
    constructor
    case knows =>
      intro key id member
      change told.homeOf id = some (some key)
      rw [setBlock_instructions, setBlock_instructions, lists] at member
      rw [homes]
      by_cases isMoved : id ∈ moved
      · rw [if_pos isMoved]
        by_cases isBlock : key = bb
        · rw [isBlock]
        · rw [if_neg isBlock] at member
          by_cases isOther : key = other
          · rw [if_pos isOther] at member
            exact absurd isMoved (restMem id member).2
          · rw [if_neg isOther] at member
            exact absurd (settled.home_unique member (movedMem id isMoved)) isOther
      · rw [if_neg isMoved]
        by_cases isBlock : key = bb
        · rw [if_pos isBlock, order.mem_iff, List.mem_append] at member
          have rest := member.resolve_left isMoved
          by_cases same : bb = other
          · rw [if_pos same] at rest
            rw [isBlock, same]
            exact settled.knows other id (restMem id rest).1
          · rw [if_neg same] at rest
            rw [isBlock]
            exact settled.knows bb id rest
        · rw [if_neg isBlock] at member
          by_cases isOther : key = other
          · rw [if_pos isOther] at member
            rw [isOther]
            exact settled.knows other id (restMem id member).1
          · rw [if_neg isOther] at member
            exact settled.knows key id member
    case nodup =>
      intro key
      rw [setBlock_instructions, setBlock_instructions, lists]
      by_cases isBlock : key = bb
      · rw [if_pos isBlock, order.nodup_iff]
        by_cases same : bb = other
        · rw [if_pos same]
          have perm : (moved ++ (front ++ back)).Perm (front ++ (moved ++ back)) := by
            rw [← List.append_assoc, ← List.append_assoc]
            exact List.perm_append_comm.append_right _
          exact perm.nodup_iff.mpr nodupOther
        · rw [if_neg same, List.nodup_append]
          have parts := List.nodup_append.mp nodupOther
          refine ⟨(List.nodup_append.mp parts.2.1).1, settled.nodup bb, ?_⟩
          rintro id isMoved _ inBlock rfl
          exact same (settled.home_unique inBlock (movedMem id isMoved))
      · rw [if_neg isBlock]
        by_cases isOther : key = other
        · rw [if_pos isOther]
          have sublist : (front ++ back).Sublist (front ++ (moved ++ back)) :=
            (List.Sublist.refl front).append (List.sublist_append_right moved back)
          exact nodupOther.sublist sublist
        · rw [if_neg isOther]
          exact settled.nodup key
    case allocated =>
      intro key present
      change told.homeOf key ≠ none at present
      change key < told.nextInst
      rw [homes] at present
      rw [nextInst]
      apply settled.allocated key
      by_cases isMoved : key ∈ moved
      · rw [settled.knows other key (movedMem key isMoved)]
        simp
      · rwa [if_neg isMoved] at present
  by_cases atEnd : pos = none
  · rw [if_pos atEnd] at linking
    exact (SameHomes.of_sameInsts (.updateLinks linking)).settled spliced
  · rw [if_neg atEnd] at linking
    cases linking
    exact spliced

end LeechJit.IR.Store
