import LeechJit.IR.Tidy

/-! # Ids of blocks

A new block gets the id behind that of the last block of its function, so the ids of the
blocks of a function increase. No operation on instructions changes an id.
-/

namespace LeechJit.IR.Store

variable {store middle store' : Store} {bb : BlockId} {id : InstId} {func : FuncId}

def idOf (store : Store) (bb : BlockId) : Option Nat :=
  (store.blocks bb).map BasicBlock.id

/-- The blocks stay, with their ids and in their functions. Calls come only from new
instructions. -/
structure KeepsBlocks (store store' : Store) : Prop where
  ids : ∀ bb, store'.idOf bb = store.idOf bb
  functions : store'.functions = store.functions
  nextBlock : store'.nextBlock = store.nextBlock
  nextInst : store.nextInst ≤ store'.nextInst
  kinds : ∀ id kind, store'.kindOf id = some kind →
    (∃ old, store.kindOf id = some old ∧ ∀ callee, kind = .kCall callee → old = kind) ∨
      (store.nextInst ≤ id ∧ id < store'.nextInst)

namespace KeepsBlocks

theorem refl (store : Store) : KeepsBlocks store store where
  ids _ := rfl
  functions := rfl
  nextBlock := rfl
  nextInst := Nat.le_refl _
  kinds _ kind isKind := .inl ⟨kind, isKind, fun _ _ => rfl⟩

theorem trans (first : KeepsBlocks store middle) (second : KeepsBlocks middle store') :
    KeepsBlocks store store' where
  ids bb := (second.ids bb).trans (first.ids bb)
  functions := second.functions.trans first.functions
  nextBlock := second.nextBlock.trans first.nextBlock
  nextInst := Nat.le_trans first.nextInst second.nextInst
  kinds id kind isKind := by
    have low := first.nextInst
    have high := second.nextInst
    rcases second.kinds id kind isKind with ⟨old, isOld, same⟩ | ⟨new, below⟩
    · rcases first.kinds id old isOld with ⟨older, isOlder, same'⟩ | ⟨new, below⟩
      · refine .inl ⟨older, isOlder, fun callee isCall => ?_⟩
        have equal := same callee isCall
        rw [same' callee (equal.trans isCall), equal]
      · exact .inr ⟨new, Nat.lt_of_lt_of_le below high⟩
    · exact .inr ⟨Nat.le_trans low new, below⟩

theorem call_of_old {callee : FuncId} (keeps : KeepsBlocks store store') (old : id < store.nextInst)
    (isCall : store'.kindOf id = some (.kCall callee)) : store.kindOf id = some (.kCall callee) := by
  rcases keeps.kinds id _ isCall with ⟨kind, isKind, same⟩ | ⟨new, -⟩
  · rw [isKind, same callee rfl]
  · exact absurd old (Nat.not_lt.mpr new)

/-- Where the instructions keep their kinds. -/
theorem of_kinds (ids : ∀ bb, store'.idOf bb = store.idOf bb)
    (functions : store'.functions = store.functions)
    (nextBlock : store'.nextBlock = store.nextBlock) (nextInst : store'.nextInst = store.nextInst)
    (kinds : ∀ id, store'.kindOf id = store.kindOf id) : KeepsBlocks store store' where
  ids := ids
  functions := functions
  nextBlock := nextBlock
  nextInst := Nat.le_of_eq nextInst.symm
  kinds id kind isKind := .inl ⟨kind, (kinds id) ▸ isKind, fun _ _ => rfl⟩

theorem of_relinked (relinked : Relinked store store') : KeepsBlocks store store' := by
  apply of_kinds _ relinked.functions relinked.nextBlock relinked.nextInst relinked.kindOf
  intro bb
  rw [idOf, idOf, relinked.blocks]

theorem setBlock {block : BasicBlock} {ids : List InstId} {preds succs : List BlockId}
    (found : store.blocks bb = some block) :
    KeepsBlocks store (store.setBlock bb ⟨ids, preds, succs, block.id⟩) := by
  refine of_kinds (fun key => ?_) rfl rfl rfl (fun _ => rfl)
  by_cases isBlock : key = bb
  · simp [idOf, Store.setBlock, isBlock, found]
  · simp [idOf, Store.setBlock, isBlock]

/-- Another kind for an instruction, of a class that is no call. -/
theorem setInst {inst : Inst} (changed : Inst) (found : store.insts id = some inst)
    (calls : ∀ callee, changed.kind = .kCall callee → inst.kind = changed.kind) :
    KeepsBlocks store (store.setInst id changed) where
  ids _ := rfl
  functions := rfl
  nextBlock := rfl
  nextInst := Nat.le_refl _
  kinds key kind isKind := by
    left
    by_cases isId : key = id
    · have equal : changed.kind = kind := by simpa [kindOf, Store.setInst, isId] using isKind
      refine ⟨inst.kind, by rw [isId, kindOf_eq found], ?_⟩
      rw [← equal]
      exact calls
    · exact ⟨kind, by simpa [kindOf, Store.setInst, isId] using isKind, fun _ _ => rfl⟩

/-- Some instructions are gone. -/
theorem dropInsts (gone : InstId → Prop) [DecidablePred gone] :
    KeepsBlocks store { store with insts := fun key => if gone key then none else store.insts key }
    where
  ids _ := rfl
  functions := rfl
  nextBlock := rfl
  nextInst := Nat.le_refl _
  kinds key kind isKind := by
    left
    refine ⟨kind, ?_, fun _ _ => rfl⟩
    by_cases isGone : gone key
    · simp [kindOf, isGone] at isKind
    · simpa [kindOf, isGone] using isKind

/-! ## Operations on instructions -/

theorem linkBBs {succ : BlockId} (result : store.linkBBs bb succ = .ok store') :
    KeepsBlocks store store' := by
  rcases Result.bind_eq_ok.mp result with ⟨block, found, continued⟩
  rcases Result.bind_eq_ok.mp continued with ⟨target, foundTarget, stored⟩
  cases stored
  exact (setBlock (block_eq_ok.mp found)).trans (setBlock (block_eq_ok.mp foundTarget))

theorem unlinkBBs {succ : BlockId} (result : store.unlinkBBs bb succ = .ok store') :
    KeepsBlocks store store' := by
  rcases Result.bind_eq_ok.mp result with ⟨target, foundTarget, continued⟩
  rcases Result.bind_eq_ok.mp continued with ⟨-, -, continued⟩
  rcases Result.bind_eq_ok.mp continued with ⟨block, found, continued⟩
  rcases Result.bind_eq_ok.mp continued with ⟨-, -, stored⟩
  cases stored
  exact (setBlock (block_eq_ok.mp foundTarget)).trans (setBlock (block_eq_ok.mp found))

theorem unlinkSuccs {slots : List BlockId} {idx rounds : Nat}
    (result : unlinkSuccs bb slots idx rounds store = .ok store') : KeepsBlocks store store' := by
  induction rounds generalizing slots idx store with
  | zero =>
      cases result
      exact refl _
  | succ rounds induction =>
      rw [Store.unlinkSuccs] at result
      cases slot : slots[idx]? with
      | none => simp [slot] at result
      | some succ =>
          simp only [slot] at result
          rcases Result.bind_eq_ok.mp result with ⟨next, unlinking, continued⟩
          rcases Result.bind_eq_ok.mp continued with ⟨block, -, later⟩
          exact (unlinkBBs unlinking).trans (induction later)

theorem linkLast {last : InstId} (result : store.linkLast bb last = .ok store') :
    KeepsBlocks store store' := by
  rcases Result.bind_eq_ok.mp result with ⟨⟨type, kind, users, home, inputs⟩, -, linking⟩
  cases kind with
  | kIf trueBB falseBB =>
      rcases Result.bind_eq_ok.mp linking with ⟨middle, first, second⟩
      exact (linkBBs first).trans (linkBBs second)
  | kJump target => exact linkBBs linking
  | _ =>
      cases linking
      exact refl _

theorem updateLinks (result : store.updateLinks bb = .ok store') : KeepsBlocks store store' := by
  rcases Result.bind_eq_ok.mp result with ⟨block, -, continued⟩
  rcases Result.bind_eq_ok.mp continued with ⟨middle, unlinking, continued⟩
  rcases Result.bind_eq_ok.mp continued with ⟨emptied, -, continued⟩
  rcases Result.bind_eq_ok.mp continued with ⟨-, -, linking⟩
  apply (unlinkSuccs unlinking).trans
  cases last : emptied.instructions.getLast? with
  | none =>
      rw [last] at linking
      cases linking
      exact refl _
  | some inst =>
      rw [last] at linking
      exact linkLast linking

theorem setBB (result : store.setBB bb id = .ok store') : KeepsBlocks store store' := by
  rcases Result.bind_eq_ok.mp result with ⟨inst, found, stored⟩
  cases stored
  exact setInst _ (inst_eq_ok.mp found) fun _ _ => rfl

theorem setBBs {ids : List InstId} (result : setBBs bb ids store = .ok store') :
    KeepsBlocks store store' := by
  induction ids generalizing store with
  | nil =>
      cases result
      exact refl _
  | cons first rest induction =>
      rcases Result.bind_eq_ok.mp result with ⟨next, one, later⟩
      exact (setBB one).trans (induction later)

theorem eraseInst (result : store.eraseInst bb id = .ok store') : KeepsBlocks store store' := by
  rcases Result.bind_eq_ok.mp result with ⟨block, found, continued⟩
  split_ifs at continued
  cases continued
  exact (setBlock (block_eq_ok.mp found)).trans (dropInsts (· = id))

theorem construct {new : Construct} (result : store.construct new = .ok (id, store')) :
    KeepsBlocks store store' := by
  rcases construct_shape result with ⟨-, type, -, blocks, shape_eq⟩
  have kinds : ∀ key, store'.kindOf key =
      if key = store.nextInst then some new.kind else store.kindOf key := by
    intro key
    rw [kindOf_shape, shape_eq, kindOf_shape]
    by_cases isNew : key = store.nextInst <;> simp [Shape.setInst, isNew]
  have nextInst : store'.nextInst = store.nextInst + 1 := congrArg Shape.nextInst shape_eq
  constructor
  case ids =>
    intro key
    rw [idOf, idOf, blocks]
  case functions => exact congrArg Shape.functions shape_eq
  case nextBlock => exact congrArg Shape.nextBlock shape_eq
  case nextInst => exact nextInst ▸ Nat.le_succ _
  case kinds =>
    intro key kind isKind
    rw [kinds] at isKind
    split_ifs at isKind with isNew
    · right
      rw [nextInst, isNew]
      exact ⟨Nat.le_refl _, Nat.lt_succ_self _⟩
    · exact .inl ⟨kind, isKind, fun _ _ => rfl⟩

theorem pushInstFront {new : Construct} (result : store.pushInstFront bb new = .ok (id, store')) :
    KeepsBlocks store store' := by
  rcases Result.bind_eq_ok.mp result with ⟨⟨key, made⟩, making, continued⟩
  rcases Result.bind_eq_ok.mp continued with ⟨block, found, continued⟩
  rcases Result.bind_eq_ok.mp continued with ⟨placed, placing, equal⟩
  cases equal
  exact ((construct making).trans (setBlock (block_eq_ok.mp found))).trans (setBB placing)

theorem pushInstBack {new : Construct} (result : store.pushInstBack bb new = .ok (id, store')) :
    KeepsBlocks store store' := by
  rcases Result.bind_eq_ok.mp result with ⟨⟨key, made⟩, making, continued⟩
  rcases Result.bind_eq_ok.mp continued with ⟨block, found, continued⟩
  rcases Result.bind_eq_ok.mp continued with ⟨placed, placing, continued⟩
  rcases Result.bind_eq_ok.mp continued with ⟨linked, linking, equal⟩
  cases equal
  exact (((construct making).trans (setBlock (block_eq_ok.mp found))).trans
    (setBB placing)).trans (updateLinks linking)

theorem addNode {phi val : InstId} (result : store.addNode phi val bb = .ok store') :
    KeepsBlocks store store' := by
  rcases Result.bind_eq_ok.mp result with ⟨inst, found, adding⟩
  cases kind : inst.kind with
  | kPhi vars =>
      simp only [kind] at adding
      have changed := setInst { inst with kind := .kPhi (vars ++ [⟨val, bb⟩]) }
        (inst_eq_ok.mp found) (fun _ isCall => nomatch isCall)
      exact changed.trans (of_relinked (addInput_eq_ok adding).1)
  | _ => simp [kind] at adding

theorem appendArg {call arg : InstId} (result : store.appendArg call arg = .ok store') :
    KeepsBlocks store store' := by
  rcases Result.bind_eq_ok.mp result with ⟨⟨type, kind, users, home, inputs⟩, -, adding⟩
  cases kind with
  | kCall callee => exact of_relinked (addInput_eq_ok adding).1
  | _ => cases adding

theorem splice {pos first last : Option InstId} {other : BlockId}
    (result : store.splice bb pos other first last = .ok store') : KeepsBlocks store store' := by
  rcases Result.bind_eq_ok.mp result with ⟨source, found, continued⟩
  rcases Result.bind_eq_ok.mp continued with ⟨⟨front, moved, back⟩, -, continued⟩
  rcases Result.bind_eq_ok.mp continued with ⟨told, telling, continued⟩
  rcases Result.bind_eq_ok.mp continued with ⟨block, foundBlock, continued⟩
  rcases Result.bind_eq_ok.mp continued with ⟨inserted, -, linking⟩
  have toldSource : told.blocks other = some source := by
    rw [(setBBs_homes telling).2.2.2, block_eq_ok.mp found]
  apply (setBBs telling).trans
  apply (setBlock toldSource).trans
  split_ifs at linking
  · exact (setBlock (block_eq_ok.mp foundBlock)).trans (updateLinks linking)
  · cases linking
    exact setBlock (block_eq_ok.mp foundBlock)

theorem setUsersFrom {this other : InstId} (result : store.setUsersFrom this other = .ok store') :
    KeepsBlocks store store' :=
  of_relinked (SameHomes.setUsersFrom result)

end KeepsBlocks

/-! ## Blocks come and go -/

theorem present_iff_idOf : store.shape.present bb ↔ store.idOf bb ≠ none := by
  cases found : store.blocks bb <;> simp [shape, idOf, found]

/-- The id behind that of the last block. -/
theorem nextId_eq_ok {bbs : List BlockId} {idx : Nat} (result : store.nextId bbs = .ok idx) :
    ∀ last, bbs.getLast? = some last → ∃ low, store.idOf last = some low ∧ idx = low + 1 := by
  intro last isLast
  rw [nextId, isLast] at result
  rcases Result.bind_eq_ok.mp result with ⟨block, found, equal⟩
  cases equal
  exact ⟨block.id, by rw [idOf, block_eq_ok.mp found, Option.map_some], rfl⟩

/-- A function gets one more block. -/
structure Appended (store : Store) (func : FuncId) (store' : Store) (caller : Function) (idx : Nat) :
    Prop where
  found : store.functions func = some caller
  nextId : store.nextId caller.bbs = .ok idx
  ids : ∀ bb, store'.idOf bb = if bb = store.nextBlock then some idx else store.idOf bb
  functions : ∀ key, store'.functions key =
    if key = func then some { caller with bbs := caller.bbs ++ [store.nextBlock] }
    else store.functions key
  nextBlock : store'.nextBlock = store.nextBlock + 1
  nextInst : store'.nextInst = store.nextInst
  kinds : ∀ id, store'.kindOf id = store.kindOf id

theorem appendBB_appended (result : store.appendBB func = .ok (bb, store')) :
    bb = store.nextBlock ∧ ∃ caller idx, Appended store func store' caller idx := by
  rcases Result.bind_eq_ok.mp result with ⟨caller, found, continued⟩
  rcases Result.bind_eq_ok.mp continued with ⟨idx, next, equal⟩
  cases equal
  refine ⟨rfl, caller, idx, function_eq_ok.mp found, next, ?_, fun _ => rfl, rfl, rfl, fun _ => rfl⟩
  intro key
  by_cases isNew : key = store.nextBlock <;>
    simp [idOf, Store.setFunction, Store.setBlock, isNew]

/-- A function loses a block. -/
structure Erased (store : Store) (func : FuncId) (bb : BlockId) (store' : Store)
    (function : Function) : Prop where
  found : store.functions func = some function
  member : bb ∈ function.bbs
  ids : ∀ key, store'.idOf key = if key = bb then none else store.idOf key
  functions : ∀ key, store'.functions key =
    if key = func then some { function with bbs := function.bbs.erase bb } else store.functions key
  nextBlock : store'.nextBlock = store.nextBlock
  nextInst : store'.nextInst = store.nextInst
  kinds : ∀ id kind, store'.kindOf id = some kind → store.kindOf id = some kind

theorem eraseBB_erased (result : store.eraseBB func bb = .ok store') :
    ∃ function, Erased store func bb store' function := by
  rcases Result.bind_eq_ok.mp result with ⟨function, found, continued⟩
  rcases Result.bind_eq_ok.mp continued with ⟨block, foundBlock, continued⟩
  split_ifs at continued with member
  cases continued
  refine ⟨function, function_eq_ok.mp found, member, ?_, fun _ => rfl, rfl, rfl, ?_⟩
  · intro key
    by_cases isGone : key = bb <;> simp [idOf, Store.setFunction, isGone]
  · intro id kind isKind
    by_cases isGone : id ∈ block.instructions
    · simp [kindOf, isGone] at isKind
    · simpa [kindOf, Store.setFunction, isGone] using isKind

/-- The ids of some blocks increase. -/
def Increasing (store : Store) (bbs : List BlockId) : Prop :=
  bbs.Pairwise fun left right =>
    ∀ low high, store.idOf left = some low → store.idOf right = some high → low < high

theorem Increasing.below_nextId {bbs : List BlockId} {idx : Nat} (increasing : store.Increasing bbs)
    (result : store.nextId bbs = .ok idx) : ∀ bb ∈ bbs, ∀ low, store.idOf bb = some low → low < idx := by
  intro bb member low isLow
  rcases List.eq_nil_or_concat' bbs with rfl | ⟨front, last, rfl⟩
  · cases member
  · rcases nextId_eq_ok result last List.getLast?_concat with ⟨top, isTop, rfl⟩
    cases List.mem_append.mp member with
    | inl inFront =>
        have earlier := (List.pairwise_append.mp increasing).2.2 bb inFront last
          (List.mem_singleton_self last)
        exact Nat.lt_succ_of_lt (earlier low top isLow isTop)
    | inr isLast =>
        rw [List.mem_singleton.mp isLast, isTop] at isLow
        exact Option.some.inj isLow ▸ Nat.lt_succ_self top

theorem Increasing.ids_nodup {bbs : List BlockId} (increasing : store.Increasing bbs)
    (present : ∀ bb ∈ bbs, store.shape.present bb) : (bbs.map store.idOf).Nodup := by
  rw [List.Nodup, List.pairwise_map]
  refine increasing.imp_of_mem ?_
  intro left right leftMem _ earlier same
  cases isLow : store.idOf left with
  | none => exact present_iff_idOf.mp (present left leftMem) isLow
  | some low => exact Nat.lt_irrefl _ (earlier low low isLow (same ▸ isLow))

/-- The ids of the blocks of each function increase. -/
structure Numbered (store : Store) : Prop where
  apart : store.shape.Apart
  allocated : ∀ id kind, store.kindOf id = some kind → id < store.nextInst
  increasing : ∀ func, store.Increasing (store.shape.bbs func)

namespace Numbered

theorem bbs_eq (functions : store'.functions = store.functions) (func : FuncId) :
    store'.shape.bbs func = store.shape.bbs func := by
  rw [Shape.bbs, Shape.bbs, show store'.shape.functions = store'.functions from rfl, functions]
  rfl

theorem keepsBlocks (numbered : store.Numbered) (keeps : KeepsBlocks store store') :
    store'.Numbered := by
  have present : store'.shape.present = store.shape.present := by
    funext bb
    rw [eq_iff_iff, present_iff_idOf, present_iff_idOf, keeps.ids]
  constructor
  case apart => exact numbered.apart.congr present keeps.functions keeps.nextBlock
  case allocated =>
    intro id kind isKind
    rcases keeps.kinds id kind isKind with ⟨old, isOld, -⟩ | ⟨-, below⟩
    · exact Nat.lt_of_lt_of_le (numbered.allocated id old isOld) keeps.nextInst
    · exact below
  case increasing =>
    intro func
    rw [bbs_eq keeps.functions]
    apply (numbered.increasing func).imp
    intro left right earlier low high isLow isHigh
    rw [keeps.ids] at isLow isHigh
    exact earlier low high isLow isHigh

theorem appended {caller : Function} {idx : Nat} (numbered : store.Numbered)
    (result : store.appendBB func = .ok (bb, store')) (appended : Appended store func store' caller idx) :
    store'.Numbered := by
  have fresh : store.blocks store.nextBlock = none := not_not.mp numbered.apart.fresh
  rcases appendBB_shape fresh result with ⟨-, function, found, shape_eq⟩
  cases Option.some.inj (appended.found.symm.trans found)
  have here : store.shape.bbs func = caller.bbs :=
    Shape.bbs_eq (show store.shape.functions func = some caller from found)
  have old : ∀ key, ∀ other ∈ store.shape.bbs key, store'.idOf other = store.idOf other := by
    intro key other member
    rw [appended.ids, if_neg]
    rintro rfl
    exact numbered.apart.fresh (numbered.apart.present key _ member)
  have kept : ∀ key, store'.Increasing (store.shape.bbs key) := by
    intro key
    refine (numbered.increasing key).imp_of_mem ?_
    intro left right leftMem rightMem earlier
    rwa [old key left leftMem, old key right rightMem]
  constructor
  case apart =>
    rw [shape_eq]
    exact numbered.apart.addBB found
  case allocated =>
    intro id kind isKind
    rw [appended.kinds] at isKind
    rw [appended.nextInst]
    exact numbered.allocated id kind isKind
  case increasing =>
    intro key
    rw [shape_eq, Shape.bbs_addBB found]
    split_ifs with isFunc
    · refine List.pairwise_append.mpr ⟨kept func, List.pairwise_singleton _ _, ?_⟩
      intro left leftMem right isNew low high isLow isHigh
      have isLast : right = store.nextBlock := List.mem_singleton.mp isNew
      rw [isLast, appended.ids, if_pos rfl] at isHigh
      rw [old func left leftMem] at isLow
      rw [here] at leftMem
      have increasing := numbered.increasing func
      rw [here] at increasing
      exact Option.some.inj isHigh ▸ increasing.below_nextId appended.nextId left leftMem low isLow
    · exact kept key

theorem erased {function : Function} (numbered : store.Numbered)
    (result : store.eraseBB func bb = .ok store') (erased : Erased store func bb store' function) :
    store'.Numbered := by
  rcases eraseBB_shape result with ⟨-, again, found, member, shape_eq⟩
  cases Option.some.inj (erased.found.symm.trans found)
  constructor
  case apart =>
    rw [shape_eq]
    exact numbered.apart.dropBB found member
  case allocated =>
    intro id kind isKind
    rw [erased.nextInst]
    exact numbered.allocated id kind (erased.kinds id kind isKind)
  case increasing =>
    intro key
    have sublist : (store'.shape.bbs key).Sublist (store.shape.bbs key) := by
      rw [shape_eq, Shape.bbs_setFunction]
      split_ifs with isFunc
      · rw [isFunc, Shape.bbs_eq (show store.shape.functions func = some function from found)]
        exact List.erase_sublist
      · exact .refl _
    apply ((numbered.increasing key).sublist sublist).imp
    intro left right earlier low high isLow isHigh
    rw [erased.ids] at isLow isHigh
    split_ifs at isLow isHigh
    exact earlier low high isLow isHigh

theorem build {step : BuildStep} (numbered : store.Numbered) (result : step.apply store = .ok store') :
    store'.Numbered := by
  cases step with
  | newFunction func resType args =>
      have apart := BuildStep.apart numbered.apart result
      simp only [BuildStep.apply, Store.newFunction] at result
      split at result
      case h_1 free =>
        cases result
        refine ⟨apart, numbered.allocated, fun key => ?_⟩
        rw [setFunction_shape, Shape.bbs_setFunction]
        split_ifs
        · exact List.Pairwise.nil
        · exact numbered.increasing key
      case h_2 => cases result
  | appendBB func =>
      rcases Result.map_eq_ok.mp result with ⟨⟨bb, made⟩, making, rfl⟩
      rcases appendBB_appended making with ⟨-, caller, idx, isAppended⟩
      exact numbered.appended making isAppended
  | pushInstFront bb new =>
      rcases Result.map_eq_ok.mp result with ⟨⟨id, made⟩, making, rfl⟩
      exact numbered.keepsBlocks (.pushInstFront making)
  | pushInstBack bb new =>
      rcases Result.map_eq_ok.mp result with ⟨⟨id, made⟩, making, rfl⟩
      exact numbered.keepsBlocks (.pushInstBack making)
  | addNode phi val bb => exact numbered.keepsBlocks (.addNode result)
  | appendArg call arg => exact numbered.keepsBlocks (.appendArg result)

theorem empty : Store.empty.Numbered where
  apart := empty_apart
  allocated _ _ isKind := nomatch isKind
  increasing _ := List.Pairwise.nil

end Numbered

/-- A step of building functions, or the removal of a block. -/
inductive GrowStep where
  | build (step : BuildStep)
  | eraseBB (func : FuncId) (bb : BlockId)
  deriving DecidableEq, Repr

def GrowStep.apply (store : Store) : GrowStep → Result Store
  | build step => step.apply store
  | eraseBB func bb => store.eraseBB func bb

/-- The store after steps that have all returned. -/
def Grown (store : Store) : Prop :=
  ∃ steps, List.foldlM GrowStep.apply Store.empty steps = .ok store

theorem Numbered.grow {step : GrowStep} (numbered : store.Numbered)
    (result : step.apply store = .ok store') : store'.Numbered := by
  cases step with
  | build step => exact numbered.build result
  | eraseBB func bb =>
      rcases eraseBB_erased result with ⟨function, isErased⟩
      exact numbered.erased result isErased

theorem Grown.numbered (grown : store.Grown) : store.Numbered := by
  rcases grown with ⟨steps, result⟩
  exact StepRuns.keeps_run Numbered (fun _ _ _ _ => Numbered.grow) Numbered.empty result

end LeechJit.IR.Store
