import Mathlib.Data.List.Pairwise
import LeechJit.IR.Linked

/-! # Rewriting and the lists of the blocks

A rewrite changes one block: the instruction leaves the list, or the new one stands
in its place.
-/

namespace LeechJit.IR

theorem mem_replace_of_ne {old new id : InstId} {ids : List InstId} (notOld : id ≠ old)
    (notNew : id ≠ new) : id ∈ ids.replace old new ↔ id ∈ ids := by
  induction ids with
  | nil => simp
  | cons head rest induction =>
      rw [List.replace_cons]
      by_cases isOld : old = head
      · subst isOld
        simp [notOld, notNew]
      · rw [beq_false_of_ne isOld]
        simp [induction]

theorem mem_replace_self {old new : InstId} {ids : List InstId} (member : old ∈ ids) :
    new ∈ ids.replace old new := by
  induction ids with
  | nil => cases member
  | cons head rest induction =>
      rw [List.replace_cons]
      by_cases isOld : old = head
      · simp [isOld]
      · rw [beq_false_of_ne isOld]
        exact List.mem_cons_of_mem _ (induction ((List.mem_cons.mp member).resolve_left isOld))

/-- Without duplicates one replacement is all. -/
theorem replace_eq_map {old new : InstId} {ids : List InstId} (nodup : ids.Nodup) :
    ids.replace old new = ids.map (redirect old new) := by
  induction ids with
  | nil => rfl
  | cons head rest induction =>
      have parts := List.nodup_cons.mp nodup
      rw [List.replace_cons, List.map_cons]
      by_cases isOld : old = head
      · subst isOld
        rw [map_redirect_of_not_mem parts.1]
        simp [redirect]
      · rw [beq_false_of_ne isOld, induction parts.2, redirect, if_neg (Ne.symm isOld)]

namespace Store

variable {store store' : Store} {scope : Set InstId} {old : InstId} {new : Option InstKind}
  {operands : InstId → List InstId} {func : Function}

theorem instructions_of_blocks {home : BlockId} {block : BasicBlock}
    (found : store.blocks home = some block)
    (blocks : store'.blocks = fun key =>
      if key = home then some { block with instructions := store.standIn old new block.instructions }
      else store.blocks key) (bb : BlockId) :
    store'.instructions bb =
      if bb = home then store.standIn old new (store.instructions home) else
        store.instructions bb := by
  rw [instructions, blocks, instructions, found]
  by_cases isHome : bb = home
  · simp [isHome]
  · simp [isHome, instructions]

/-- Other instructions stay in their blocks. -/
theorem Rewritten.mem_instructions (rewritten : store.Rewritten scope old new operands store')
    {bb : BlockId} {id : InstId} (notOld : id ≠ old)
    (notNew : ¬ (new.isSome ∧ id = store.nextInst)) :
    id ∈ store'.instructions bb ↔ id ∈ store.instructions bb := by
  rcases rewritten.placed with ⟨inst, home, block, -, -, found, -, blocks⟩
  rw [instructions_of_blocks found blocks]
  by_cases isHome : bb = home
  · rw [if_pos isHome, isHome, standIn]
    split_ifs with isSome
    · exact mem_replace_of_ne notOld fun equal => notNew ⟨isSome, equal⟩
    · exact List.mem_erase_of_ne notOld
  · rw [if_neg isHome]

theorem Rewritten.mem_listed (rewritten : store.Rewritten scope old new operands store')
    {id : InstId} (notOld : id ≠ old) (notNew : ¬ (new.isSome ∧ id = store.nextInst)) :
    id ∈ store'.listed func ↔ id ∈ store.listed func := by
  simp only [listed, List.mem_flatMap, rewritten.mem_instructions notOld notNew]

/-- All stored instructions but the old one, and the new one. -/
theorem Rewritten.stored_eq (rewritten : store.Rewritten store.stored old new operands store') :
    store'.stored = store.leave store.stored old new := by
  ext id
  constructor
  · rintro ⟨inst, found⟩
    by_contra outside
    have parts := not_or.mp outside
    have gone : store.insts id = none ∨ id = old := by
      by_contra stays
      rw [not_or] at stays
      rcases Option.ne_none_iff_exists'.mp stays.1 with ⟨other, isStored⟩
      exact parts.1 ⟨⟨other, isStored⟩, stays.2⟩
    rw [rewritten.gone id gone parts.2] at found
    cases found
  · exact rewritten.linked.stored id

/-- The instructions of the function use one another only, each stands in one place,
and none is at home in a block of another function. -/
structure Housed (store : Store) (func : Function) : Prop where
  linked : store.Linked { id | id ∈ store.listed func }
  nodup : (store.listed func).Nodup
  homes : ∀ id ∈ store.listed func, ∀ inst bb, store.insts id = some inst →
    inst.bb = some bb → bb ∈ func.bbs
  closed : (store.cfg func).Closed

theorem Rewritten.cfg_eq (rewritten : store.Rewritten scope old new operands store') :
    store'.cfg func = store.cfg func := by
  rcases rewritten.placed with ⟨-, home, block, -, -, found, -, blocks⟩
  have same : ∀ bb, (store'.blocks bb = store.blocks bb) ∨
      ∃ ids, store.blocks bb = some block ∧
        store'.blocks bb = some { block with instructions := ids } := by
    intro bb
    rw [blocks]
    by_cases isHome : bb = home
    · exact .inr ⟨_, isHome ▸ found, if_pos isHome⟩
    · exact .inl (if_neg isHome)
  have fields : store'.succs = store.succs ∧ store'.preds = store.preds ∧
      (fun bb => (store'.blocks bb).elim 0 BasicBlock.id) =
        fun bb => (store.blocks bb).elim 0 BasicBlock.id := by
    refine ⟨?_, ?_, ?_⟩ <;> funext bb <;> rcases same bb with equal | ⟨ids, before, after⟩
    · rw [succs, succs, equal]
    · rw [succs, succs, before, after]; rfl
    · rw [preds, preds, equal]
    · rw [preds, preds, before, after]; rfl
    · rw [equal]
    · rw [before, after]; rfl
  rw [cfg, cfg, graphOf, graphOf, fields.1, fields.2.1, fields.2.2]

/-- What is left of a list of instructions, each of which is in it once. -/
def remaining (store : Store) (old : InstId) (new : Option InstKind) (ids : List InstId) :
    List InstId :=
  if new.isSome then ids.map (redirect old store.nextInst) else ids.filter (· ≠ old)

theorem mem_remaining {ids : List InstId} {id : InstId} (oldMem : old ∈ ids) :
    id ∈ store.remaining old new ids ↔
      (id ∈ ids ∧ id ≠ old) ∨ (new.isSome ∧ id = store.nextInst) := by
  rw [remaining]
  split_ifs with isSome
  · rw [mem_map_redirect]
    simp [isSome, oldMem]
  · simp [isSome]

theorem mem_remaining_of_ne {ids : List InstId} {id : InstId} (notOld : id ≠ old)
    (notNew : ¬ (new.isSome ∧ id = store.nextInst)) :
    id ∈ store.remaining old new ids ↔ id ∈ ids := by
  rw [remaining]
  split_ifs with isSome
  · rw [mem_map_redirect]
    have other : id ≠ store.nextInst := fun equal => notNew ⟨isSome, equal⟩
    simp [other, notOld]
  · simp [notOld]

theorem remaining_append (front back : List InstId) :
    store.remaining old new (front ++ back) =
      store.remaining old new front ++ store.remaining old new back := by
  unfold remaining
  split_ifs
  · exact List.map_append
  · exact List.filter_append ..

theorem remaining_cons_of_ne {id : InstId} (notOld : id ≠ old) (ids : List InstId) :
    store.remaining old new (id :: ids) = id :: store.remaining old new ids := by
  by_cases isSome : new.isSome = true <;> simp [remaining, isSome, redirect, notOld]

theorem remaining_cons_old (isSome : new.isSome = true) (ids : List InstId) :
    store.remaining old new (old :: ids) = store.nextInst :: store.remaining old new ids := by
  simp [remaining, isSome, redirect]

theorem remaining_cons_old_none (ids : List InstId) :
    store.remaining old none (old :: ids) = store.remaining old none ids := by
  simp [remaining]

theorem remaining_of_not_mem {ids : List InstId} (notMem : old ∉ ids) :
    store.remaining old new ids = ids := by
  rw [remaining]
  split_ifs
  · exact map_redirect_of_not_mem notMem
  · rw [List.filter_eq_self]
    intro id member
    have different : id ≠ old := fun equal => notMem (equal ▸ member)
    simp [different]

theorem standIn_eq_remaining {ids : List InstId} (nodup : ids.Nodup) :
    store.standIn old new ids = store.remaining old new ids := by
  rw [standIn, remaining, replace_eq_map nodup, nodup.erase_eq_filter]
  congr 2
  funext id
  by_cases isOld : id = old <;> simp [isOld]

namespace Housed

theorem home_unique (housed : store.Housed func) {bb other : BlockId} {id : InstId}
    (bbMem : bb ∈ func.bbs) (otherMem : other ∈ func.bbs) (inBlock : id ∈ store.instructions bb)
    (inOther : id ∈ store.instructions other) : bb = other := by
  by_contra different
  have apart := (List.nodup_flatMap.mp housed.nodup).2
  have : Std.Symm (Function.onFun List.Disjoint store.instructions) := 
    ⟨fun _ _ disjoint _ inLeft inRight => disjoint inRight inLeft⟩
  exact apart.forall bbMem otherMem different inBlock inOther

theorem instructions_eq (housed : store.Housed func)
    (rewritten : store.Rewritten { id | id ∈ store.listed func } old new operands store')
    {bb : BlockId} (bbMem : bb ∈ func.bbs) :
    store'.instructions bb = store.remaining old new (store.instructions bb) := by
  rcases rewritten.placed with ⟨inst, home, block, found, isHome, foundBlock, inBlock, blocks⟩
  have homeMem := housed.homes old rewritten.oldMem inst home found isHome
  rw [instructions_of_blocks foundBlock blocks]
  have inHome : old ∈ store.instructions home := by
    rw [Store.instructions_eq foundBlock]
    exact inBlock
  by_cases same : bb = home
  · rw [if_pos same, same]
    exact standIn_eq_remaining ((List.nodup_flatMap.mp housed.nodup).1 home homeMem)
  · rw [if_neg same, remaining_of_not_mem]
    exact fun member => same (housed.home_unique bbMem homeMem member inHome)

theorem listed_eq (housed : store.Housed func)
    (rewritten : store.Rewritten { id | id ∈ store.listed func } old new operands store') :
    store'.listed func = store.remaining old new (store.listed func) := by
  have parts : store'.listed func =
      func.bbs.flatMap fun bb => store.remaining old new (store.instructions bb) :=
    List.flatMap_congr fun bb bbMem => housed.instructions_eq rewritten bbMem
  rw [parts, listed]
  unfold remaining
  split_ifs
  · exact (List.map_flatMap ..).symm
  · exact (List.filter_flatMap ..).symm

theorem mem_listed (housed : store.Housed func)
    (rewritten : store.Rewritten { id | id ∈ store.listed func } old new operands store') :
    { id | id ∈ store'.listed func } =
      store.leave { id | id ∈ store.listed func } old new := by
  ext id
  rw [Set.mem_ofPred_eq, housed.listed_eq rewritten, mem_remaining rewritten.oldMem]
  rfl

theorem rewritten (housed : store.Housed func)
    (rewritten : store.Rewritten { id | id ∈ store.listed func } old new operands store') :
    store'.Housed func where
  linked := by
    rw [housed.mem_listed rewritten]
    exact rewritten.linked
  nodup := by
    rw [housed.listed_eq rewritten, remaining]
    split_ifs
    · apply housed.nodup.map_on
      intro left leftMem right rightMem equal
      have fresh : ∀ id ∈ store.listed func, id ≠ store.nextInst := fun id member =>
        Nat.ne_of_lt (housed.linked.allocated id member)
      simp only [redirect] at equal
      split_ifs at equal with isLeft isRight isRight
      · rw [isLeft, isRight]
      · exact absurd equal.symm (fresh right rightMem)
      · exact absurd equal (fresh left leftMem)
      · exact equal
    · exact housed.nodup.filter _
  homes id member inst' bb found' home := by
    have member' : id ∈ store.leave { id | id ∈ store.listed func } old new :=
      housed.mem_listed rewritten ▸ member
    rcases member' with ⟨isListed, notOld⟩ | ⟨isSome, rfl⟩
    · rcases housed.linked.stored id isListed with ⟨inst, found⟩
      rcases rewritten.kept id isListed notOld inst found with ⟨again, foundAgain, bare⟩
      cases Option.some.inj (foundAgain.symm.trans found')
      exact housed.homes id isListed inst bb found ((Inst.bb_of_bare bare).symm.trans home)
    · rcases Option.isSome_iff_exists.mp isSome with ⟨kind, isNew⟩
      rcases rewritten.added kind isNew with ⟨again, foundAgain, -, homeless⟩
      cases Option.some.inj (foundAgain.symm.trans found')
      rw [homeless] at home
      cases home
  closed := rewritten.cfg_eq ▸ housed.closed

end Housed

theorem Relinked.stored_eq (relinked : Relinked store store') : store'.stored = store.stored := by
  ext id
  constructor
  · rintro ⟨inst, found⟩
    by_contra isNone
    have gone : store.insts id = none := by
      by_contra some
      exact isNone (Option.ne_none_iff_exists'.mp some)
    rw [relinked.insts_none.mpr gone] at found
    cases found
  · rintro ⟨inst, found⟩
    exact ⟨_, relinked.insts found⟩

end Store

end LeechJit.IR
