import LeechJit.Foundation.StepRuns
import LeechJit.IR.BlockEdits

/-! # Branches and edges in step

In a run of edits the successors of every block are the targets of its last instruction as
long as every edit that leaves the links alone also leaves the ends of the blocks alone.
-/

namespace LeechJit.IR

namespace Store

variable {store middle store' : Store} {bb : BlockId} {id : InstId}

/-- Where a block with the instructions `ids` leads to. -/
def targetsIn (store : Store) (ids : List InstId) : List BlockId :=
  ids.getLast?.elim [] store.targetsOf

theorem shape_targetsIn (store : Store) (ids : List InstId) :
    store.shape.targetsIn ids = store.targetsIn ids := by
  rw [Shape.targetsIn, targetsIn]
  congr 1
  funext id
  exact shape_targetsOf store id

/-- The successors of every block are the targets of its last instruction, and the lists of
predecessors mirror those of successors. -/
structure InStep (store : Store) : Prop where
  succs : ∀ bb, store.succs bb = store.lastTargets bb
  mirrored : ∀ pred succ, (store.preds succ).count pred = (store.succs pred).count succ

theorem inStep_iff_shape :
    store.InStep ↔ store.shape.LinksKept ∧ ∀ pred succ, store.shape.excess pred succ = 0 := by
  have links : (∀ bb, store.succs bb = store.lastTargets bb) ↔ store.shape.LinksKept := by
    apply forall_congr'
    intro bb
    rw [shape_lastTargets]
    exact Iff.rfl
  have mirrored : (∀ pred succ, (store.preds succ).count pred = (store.succs pred).count succ) ↔
      ∀ pred succ, store.shape.excess pred succ = 0 := by
    apply forall_congr'
    intro pred
    apply forall_congr'
    intro succ
    change _ ↔ store.excess pred succ = 0
    rw [excess]
    omega
  rw [← links, ← mirrored]
  exact ⟨fun inStep => ⟨inStep.succs, inStep.mirrored⟩, fun both => ⟨both.1, both.2⟩⟩

/-! ## What the operations do -/

theorem replaceInst_shape {old newInst : InstId}
    (result : store.replaceInst bb old newInst = .ok store') :
    old ∈ store.instructions bb ∧ store'.shape =
      (store.shape.setInst old none).setList bb
        ((store.instructions bb).replace old newInst) := by
  rcases Result.bind_eq_ok.mp result with ⟨told, telling, continued⟩
  rcases Result.bind_eq_ok.mp continued with ⟨block, found, continued⟩
  have relinked := SameHomes.setUsersFrom telling
  rw [block_eq_ok] at found
  have here : block.instructions = store.instructions bb := by
    rw [← instructions_eq found, instructions, instructions, relinked.blocks]
  dsimp only at continued
  split at continued
  case isTrue member =>
    cases continued
    refine ⟨here ▸ member, ?_⟩
    have placed := setBlock_shape (block.instructions.replace old newInst) found
    rw [relinked.shape_eq] at placed
    simp only [Shape.setList, shape, Shape.mk.injEq] at placed
    simp only [shape, Shape.setInst, Shape.setList, ← here, Shape.mk.injEq]
    refine ⟨?_, placed.2.1, placed.2.2.1, placed.2.2.2.1, placed.2.2.2.2.1,
      placed.2.2.2.2.2.1, placed.2.2.2.2.2.2⟩
    funext key
    cases decEq key old with
    | isTrue same => simp [same]
    | isFalse different =>
        have kept := congrFun placed.1 key
        simpa [different] using kept
  case isFalse notMember => cases continued

theorem replaced_shape {new : Construct} {old : InstId}
    (making : store.construct new = .ok (id, middle))
    (replacing : middle.replaceInst bb old id = .ok store') :
    old ∈ store.instructions bb ∧ ∃ type, new.type store = .ok type ∧
      store'.shape = store.shape.replace bb old type new.kind := by
  rcases construct_shape making with ⟨rfl, type, typed, blocks, made⟩
  rcases replaceInst_shape replacing with ⟨member, shape_eq⟩
  have here : middle.instructions bb = store.instructions bb := by
    rw [instructions, instructions, blocks]
  rw [here] at member shape_eq
  refine ⟨member, type, typed, ?_⟩
  rw [shape_eq, made]
  rfl

theorem splice_move {pos first last : Option InstId} {other : BlockId}
    (result : store.splice bb pos other first last = .ok store') :
    ∃ front moved back inserted,
      segment first last (store.instructions other) = .ok (front, moved, back) ∧
      insertBefore pos moved (Function.update store.instructions other (front ++ back) bb) =
        .ok inserted ∧
      store'.shape = if pos = none
        then (store.shape.move bb other (front ++ back) moved inserted).relink bb
        else store.shape.move bb other (front ++ back) moved inserted := by
  rcases Result.bind_eq_ok.mp result with ⟨source, found, continued⟩
  rcases Result.bind_eq_ok.mp continued with ⟨⟨front, moved, back⟩, cutting, continued⟩
  rcases Result.bind_eq_ok.mp continued with ⟨told, telling, continued⟩
  rcases Result.bind_eq_ok.mp continued with ⟨block, foundBlock, continued⟩
  rcases Result.bind_eq_ok.mp continued with ⟨inserted, inserting, linking⟩
  rw [block_eq_ok] at found foundBlock
  have toldSource : told.blocks other = some source := by
    rw [(setBBs_homes telling).2.2.2, found]
  have toldLists : told.instructions = store.instructions :=
    funext (setBBs_homes telling).2.1
  have here : block.instructions =
      Function.update store.instructions other (front ++ back) bb := by
    rw [← instructions_eq foundBlock, setBlock_instructions, toldLists, Function.update_apply]
  have moving := setBlock_shape inserted foundBlock
  rw [setBlock_shape _ toldSource, (setBBs_shape telling).2] at moving
  refine ⟨front, moved, back, inserted, instructions_eq found ▸ cutting, here ▸ inserting, ?_⟩
  split at linking
  case isTrue atEnd =>
    rw [if_pos atEnd, updateLinks_shape linking, moving]
    rfl
  case isFalse notEnd =>
    cases linking
    rw [if_neg notEnd, moving]
    rfl

/-- A block as a whole is the segment from its first instruction on. -/
theorem segment_whole (ids : List InstId) :
    segment ids.head? none ids = .ok ([], ids, []) := by
  cases ids with
  | nil => simp [segment]
  | cons first rest => simp [segment]

end Store

/-! ## Moving instructions -/

namespace Shape

variable {shape : Shape} {bb other : BlockId} {front moved back inserted : List InstId}
  {pos : Option InstId}

/-- The lists after some instructions have moved from block `other` to block `bb`. -/
def movedLists (shape : Shape) (bb other : BlockId) (rest inserted : List InstId) :
    BlockId → List InstId :=
  Function.update (Function.update shape.lists other rest) bb inserted

/-- The moved instructions stand in their new block, the others where they stood. -/
theorem mem_movedLists (listed : shape.Listed)
    (split : shape.lists other = front ++ moved ++ back)
    (order : inserted.Perm (moved ++ Function.update shape.lists other (front ++ back) bb))
    {key : BlockId} {id : InstId}
    (member : id ∈ shape.movedLists bb other (front ++ back) inserted key) :
    (id ∈ moved ∧ key = bb) ∨ (id ∉ moved ∧ id ∈ shape.lists key) := by
  have movedMem : ∀ id ∈ moved, id ∈ shape.lists other := by
    intro id isMoved
    simp [split, isMoved]
  have stays : ∀ {id key}, id ∈ Function.update shape.lists other (front ++ back) key →
      id ∉ moved ∧ id ∈ shape.lists key := by
    intro id key inRest
    cases decEq key other with
    | isTrue same =>
        subst same
        rw [Function.update_self] at inRest
        have nodup := listed.nodup key
        rw [split, List.append_assoc] at nodup
        have perm : (front ++ (moved ++ back)).Perm (moved ++ (front ++ back)) := by
          rw [← List.append_assoc, ← List.append_assoc]
          exact List.perm_append_comm.append_right back
        have apart := (List.nodup_append.mp (perm.nodup_iff.mp nodup)).2.2
        have whole : id ∈ front ++ (moved ++ back) :=
          perm.mem_iff.mpr (List.mem_append_right _ inRest)
        rw [← List.append_assoc, ← split] at whole
        exact ⟨fun isMoved => apart id isMoved id inRest rfl, whole⟩
    | isFalse different =>
        rw [Function.update_of_ne different] at inRest
        exact ⟨fun isMoved => listed.disjoint key other different id inRest (movedMem id isMoved),
          inRest⟩
  cases decEq key bb with
  | isTrue same =>
      subst same
      rw [movedLists, Function.update_self, order.mem_iff, List.mem_append] at member
      cases member with
      | inl isMoved => exact .inl ⟨isMoved, rfl⟩
      | inr inRest => exact .inr (stays inRest)
  | isFalse different =>
      rw [movedLists, Function.update_of_ne different] at member
      exact .inr (stays member)

theorem movedLists_nodup (listed : shape.Listed)
    (split : shape.lists other = front ++ moved ++ back)
    (order : inserted.Perm (moved ++ Function.update shape.lists other (front ++ back) bb))
    (key : BlockId) : (shape.movedLists bb other (front ++ back) inserted key).Nodup := by
  have nodup := listed.nodup other
  rw [split, List.append_assoc] at nodup
  have perm : (front ++ (moved ++ back)).Perm (moved ++ (front ++ back)) := by
    rw [← List.append_assoc, ← List.append_assoc]
    exact List.perm_append_comm.append_right back
  have parts := List.nodup_append.mp (perm.nodup_iff.mp nodup)
  have rests : ∀ key, (Function.update shape.lists other (front ++ back) key).Nodup := by
    intro key
    cases decEq key other with
    | isTrue same => simpa [same] using parts.2.1
    | isFalse different => simpa [different] using listed.nodup key
  cases decEq key bb with
  | isFalse different => simpa [movedLists, different] using rests key
  | isTrue same =>
      subst same
      rw [movedLists, Function.update_self, order.nodup_iff, List.nodup_append]
      refine ⟨parts.1, rests key, fun id isMoved other' inRest equal => ?_⟩
      subst equal
      cases decEq key other with
      | isTrue same =>
          rw [same, Function.update_self] at inRest
          exact parts.2.2 id isMoved id inRest rfl
      | isFalse different =>
          rw [Function.update_of_ne different] at inRest
          exact listed.disjoint key other different id inRest (by simp [split, isMoved])

theorem Edited.listed_moved {shape' : Shape} {relinked : Option BlockId} (listed : shape.Listed)
    (edited : Edited shape shape' (shape.movedLists bb other (front ++ back) inserted) relinked)
    (split : shape.lists other = front ++ moved ++ back)
    (order : inserted.Perm (moved ++ Function.update shape.lists other (front ++ back) bb)) :
    shape'.Listed := by
  have movedMem : ∀ id ∈ moved, id ∈ shape.lists other := by
    intro id isMoved
    simp [split, isMoved]
  apply edited.listed
  · exact movedLists_nodup listed split order
  · intro left right different id inLeft inRight
    rcases mem_movedLists listed split order inLeft with ⟨isMoved, atLeft⟩ | ⟨notMoved, inLeft⟩
    · rcases mem_movedLists listed split order inRight with ⟨-, atRight⟩ | ⟨notMoved, -⟩
      · exact different (atLeft.trans atRight.symm)
      · exact notMoved isMoved
    · rcases mem_movedLists listed split order inRight with ⟨isMoved, -⟩ | ⟨-, inRight⟩
      · exact notMoved isMoved
      · exact listed.disjoint left right different id inLeft inRight
  · intro key id member
    apply Nat.lt_of_lt_of_le _ edited.grows
    rcases mem_movedLists listed split order member with ⟨isMoved, -⟩ | ⟨-, inOld⟩
    · exact listed.allocated other id (movedMem id isMoved)
    · exact listed.allocated key id inOld

/-- What is put before an instruction does not change where the block leads to. -/
theorem targetsIn_insertBefore {id : InstId} {ids : List InstId}
    (inserting : Store.insertBefore (some id) moved ids = .ok inserted) :
    shape.targetsIn inserted = shape.targetsIn ids := by
  simp only [Store.insertBefore] at inserting
  split at inserting
  case isFalse => cases inserting
  case isTrue member =>
    cases inserting
    have nonempty : ids.dropWhile (· ≠ id) ≠ [] := by
      intro none
      have all := List.dropWhile_eq_nil_iff.mp none id member
      simp at all
    have whole : shape.targetsIn ids = shape.targetsIn (ids.dropWhile (· ≠ id)) := by
      rw [← targetsIn_append nonempty, List.takeWhile_append_dropWhile]
    rw [targetsIn_append nonempty, whole]

theorem Edited.linksKept_moved_iff {shape' : Shape} (listed : shape.Listed)
    (kept : shape.LinksKept) (split : shape.lists other = front ++ moved ++ back)
    (inserting : Store.insertBefore pos moved
      (Function.update shape.lists other (front ++ back) bb) = .ok inserted)
    (edited : Edited shape shape' (shape.movedLists bb other (front ++ back) inserted)
      (if pos = none then some bb else none)) :
    shape'.LinksKept ↔ (pos = none ∧ bb = other) ∨
      shape.targetsIn (front ++ back) = shape.lastTargets other := by
  have order := Store.insertBefore_perm inserting
  have ends : ∀ key, shape'.lastTargets key =
      shape.targetsIn (shape.movedLists bb other (front ++ back) inserted key) := by
    intro key
    apply edited.lastTargets
    intro isNew
    rcases mem_movedLists listed split order isNew with ⟨isMoved, -⟩ | ⟨-, inOld⟩
    · exact listed.fresh other (by simp [split, isMoved])
    · exact listed.fresh key inOld
  have rests : ∀ key, key ≠ other →
      Function.update shape.lists other (front ++ back) key = shape.lists key :=
    fun key different => Function.update_of_ne different ..
  -- A block that is not brought up to date ends as what stays in it.
  have stays : ∀ key, (if pos = none then some bb else none) ≠ some key →
      shape'.lastTargets key =
        shape.targetsIn (Function.update shape.lists other (front ++ back) key) := by
    intro key notRelinked
    rw [ends, movedLists]
    cases decEq key bb with
    | isFalse different => rw [Function.update_of_ne different]
    | isTrue same =>
        subst same
        rw [Function.update_self]
        cases pos with
        | none => exact absurd rfl notRelinked
        | some id => exact targetsIn_insertBefore inserting
  rw [edited.linksKept_iff kept]
  constructor
  · intro all
    cases decEq bb other with
    | isTrue same =>
        subst same
        cases pos with
        | none => exact .inl ⟨rfl, rfl⟩
        | some id =>
            have here := all bb (by simp)
            rw [stays bb (by simp), Function.update_self] at here
            exact .inr here
    | isFalse different =>
        have notRelinked : (if pos = none then some bb else none) ≠ some other := by
          split <;> simp [different]
        have there := all other notRelinked
        rw [stays other notRelinked, Function.update_self] at there
        exact .inr there
  · intro condition key notRelinked
    rw [stays key notRelinked]
    cases decEq key other with
    | isFalse different => rw [rests key different, lastTargets_eq]
    | isTrue same =>
        subst same
        rw [Function.update_self]
        cases condition with
        | inl atEnd =>
            rw [atEnd.1, atEnd.2, if_pos rfl] at notRelinked
            exact absurd rfl notRelinked
        | inr equal => exact equal

end Shape

/-! ## Replacing an instruction -/

namespace Shape

variable {shape : Shape} {bb : BlockId} {old : InstId}

/-- The new instruction stands where the old one stood. -/
theorem replace_split {ids : List InstId} (new : InstId) (member : old ∈ ids) :
    ∃ front back, ids = front ++ old :: back ∧ ids.replace old new = front ++ new :: back := by
  induction ids with
  | nil => cases member
  | cons first rest induction =>
      cases decEq first old with
      | isTrue same =>
          subst same
          exact ⟨[], rest, rfl, List.replace_cons_self⟩
      | isFalse different =>
          rcases induction (List.mem_of_ne_of_mem (Ne.symm different) member) with
            ⟨front, back, split, replaced⟩
          refine ⟨first :: front, back, by rw [split, List.cons_append], ?_⟩
          rw [List.replace_cons, beq_eq_false_iff_ne.mpr (Ne.symm different), replaced]
          rfl

theorem Listed.replace_nodup (listed : shape.Listed) (member : old ∈ shape.lists bb) :
    ((shape.lists bb).replace old shape.nextInst).Nodup := by
  rcases replace_split shape.nextInst member with ⟨front, back, split, replaced⟩
  have nodup := listed.nodup bb
  have fresh := listed.fresh bb
  rw [split] at nodup fresh
  rw [replaced]
  rw [List.nodup_append, List.nodup_cons] at nodup ⊢
  simp only [List.mem_append, List.mem_cons, not_or] at fresh
  refine ⟨nodup.1, ⟨fresh.2.2, nodup.2.1.2⟩, fun id inFront other inRest equal => ?_⟩
  subst equal
  cases inRest with
  | head => exact fresh.1 inFront
  | tail _ inBack => exact nodup.2.2 id inFront id (.tail _ inBack) rfl

/-- The block still leads where it led if its last instruction is not replaced, or if the new
one leads there. -/
theorem replace_lastTargets_iff {kind : InstKind} {type : ValueType} (listed : shape.Listed)
    (member : old ∈ shape.lists bb) :
    (shape.replace bb old type kind).lastTargets bb = shape.lastTargets bb ↔
      ((shape.lists bb).getLast? = some old → kind.targets = shape.targetsOf old) := by
  have edited := replace_edited listed member type kind
  rcases replace_split shape.nextInst member with ⟨front, back, split, replaced⟩
  have here : (shape.replace bb old type kind).lists bb = front ++ shape.nextInst :: back := by
    rw [edited.lists_eq, Function.update_self, replaced]
  have fresh : shape.nextInst ∉ shape.lists bb := listed.fresh bb
  have newOld : shape.nextInst ≠ old := fun equal => fresh (equal ▸ member)
  have made : (shape.replace bb old type kind).targetsOf shape.nextInst = kind.targets := by
    simp [targetsOf, replace, setInst, setList, newOld]
  rw [lastTargets_eq, lastTargets_eq, here, split]
  cases back with
  | nil => simp [targetsIn, made]
  | cons next rest =>
      have nonempty : next :: rest ≠ [] := List.cons_ne_nil next rest
      have notLast : (front ++ old :: next :: rest).getLast? ≠ some old := by
        intro isLast
        have nodup := listed.nodup bb
        rw [split, List.nodup_append, List.nodup_cons] at nodup
        rw [List.append_cons, List.getLast?_append_of_ne_nil _ nonempty] at isLast
        exact nodup.2.1.1 (List.mem_of_getLast? isLast)
      have same : (shape.replace bb old type kind).targetsIn
          (front ++ shape.nextInst :: next :: rest) =
            shape.targetsIn (front ++ old :: next :: rest) := by
        rw [List.append_cons, List.append_cons front old, targetsIn_append nonempty,
          targetsIn_append nonempty]
        apply targetsIn_congr
        intro id inRest
        apply edited.targets bb id
        · rw [Function.update_self, replaced]
          exact List.mem_append_right _ (.tail _ inRest)
        · intro isNew
          apply fresh
          rw [← isNew, split]
          exact List.mem_append_right _ (.tail _ inRest)
      exact ⟨fun _ isLast => absurd isLast notLast, fun _ => same⟩

end Shape

/-! ## One edit -/

namespace BlockEdit

variable {store store' : Store} {edit : BlockEdit}

/-- An edit that leaves the links alone leaves the ends of the blocks alone. -/
def KeepsEnds (store : Store) : BlockEdit → Prop
  | .pushInstBack _ _ => True
  | .pushInstFront bb new => store.instructions bb = [] → new.kind.targets = []
  | .eraseInst bb toErase =>
      store.targetsIn ((store.instructions bb).erase toErase) = store.lastTargets bb
  | .replaceInst bb old new =>
      (store.instructions bb).getLast? = some old → new.kind.targets = store.targetsOf old
  | .splice bb pos other first last => (pos = none ∧ bb = other) ∨
      ∀ front moved back, Store.segment first last (store.instructions other) =
        .ok (front, moved, back) → store.targetsIn (front ++ back) = store.lastTargets other
  | .spliceAll bb pos other => (pos = none ∧ bb = other) ∨ store.lastTargets other = []

/-- The shape after an edit. -/
structure Step (store : Store) (edit : BlockEdit) (store' : Store) : Prop where
  listed : store.shape.Listed → store'.shape.Listed
  excess : store.shape.Listed → store'.shape.excess = store.shape.excess
  linksKept_iff : store.shape.Listed → store.shape.LinksKept →
    (store'.shape.LinksKept ↔ edit.KeepsEnds store)

/-- An edit of one block. -/
theorem Step.of_update {bb : BlockId} {ids : List InstId} (relinked : Option BlockId)
    (edited : store.shape.Listed → Shape.Edited store.shape store'.shape
      (Function.update store.shape.lists bb ids) relinked)
    (nodup : store.shape.Listed → ids.Nodup)
    (own : ∀ id ∈ ids, id ∈ store.shape.lists bb ∨
      (id = store.shape.nextInst ∧ store'.shape.nextInst = store.shape.nextInst + 1))
    (ends : store.shape.Listed → ((relinked ≠ some bb →
      store'.shape.lastTargets bb = store.shape.lastTargets bb) ↔ edit.KeepsEnds store)) :
    Step store edit store' where
  listed listed := (edited listed).listed_update listed (nodup listed) own
  excess listed := (edited listed).excess
  linksKept_iff listed kept :=
    ((edited listed).linksKept_update_iff listed kept).trans (ends listed)

theorem pushInstBack_step {bb : BlockId} {new : Construct} {id : InstId}
    (result : store.pushInstBack bb new = .ok (id, store')) :
    Step store (.pushInstBack bb new) store' := by
  rcases Store.pushInstBack_shape result with ⟨rfl, type, -, shape_eq⟩
  apply Step.of_update (some bb)
  · intro _
    rw [shape_eq]
    exact (Shape.place_edited store.shape bb _ type new.kind).relink bb
  · intro listed
    rw [List.nodup_append]
    refine ⟨listed.nodup bb, List.nodup_singleton _, fun id member other isNew equal => ?_⟩
    cases List.mem_singleton.mp isNew
    cases equal
    exact listed.fresh bb member
  · intro id member
    rw [List.mem_append, List.mem_singleton] at member
    exact member.imp_right fun isNew => ⟨isNew, by rw [shape_eq]; rfl⟩
  · intro _
    simp [KeepsEnds]

theorem pushInstFront_step {bb : BlockId} {new : Construct} {id : InstId}
    (result : store.pushInstFront bb new = .ok (id, store')) :
    Step store (.pushInstFront bb new) store' := by
  rcases Store.pushInstFront_shape result with ⟨rfl, type, -, shape_eq⟩
  have edited := Shape.place_edited store.shape bb (store.nextInst :: store.instructions bb) type
    new.kind
  rw [← shape_eq] at edited
  apply Step.of_update none
  · exact fun _ => edited
  · exact fun listed => List.nodup_cons.mpr ⟨listed.fresh bb, listed.nodup bb⟩
  · intro id member
    rw [List.mem_cons] at member
    exact member.symm.imp_right fun isNew => ⟨isNew, by rw [shape_eq]; rfl⟩
  · intro listed
    have here : store'.shape.lists bb = store.nextInst :: store.instructions bb := by
      rw [edited.lists_eq, Function.update_self]
    cases empty : store.instructions bb with
    | nil =>
        -- the new instruction is the last one
        have before : store.shape.lastTargets bb = [] := by
          change store.shape.targetsIn (store.instructions bb) = []
          rw [empty]
          rfl
        have now : store'.shape.lastTargets bb = new.kind.targets := by
          rw [Shape.lastTargets_eq, here, empty, shape_eq]
          exact Shape.place_targetsOf ..
        rw [before, now]
        simp [KeepsEnds, empty]
    | cons first rest =>
        have nonempty : store.shape.lists bb ≠ [] := by simp [Store.shape, empty]
        have same : store'.shape.lastTargets bb = store.shape.lastTargets bb := by
          rw [Shape.lastTargets_eq, Shape.lastTargets_eq, here]
          have split : store.nextInst :: store.instructions bb =
              [store.nextInst] ++ store.shape.lists bb := rfl
          rw [split, Shape.targetsIn_append nonempty]
          apply Shape.targetsIn_congr
          intro id member
          apply edited.targets bb id
          · rw [Function.update_self]
            exact .tail _ member
          · exact fun isNew => listed.fresh bb (isNew ▸ member)
        simp [KeepsEnds, empty, same]

theorem eraseInst_step {bb : BlockId} {toErase : InstId}
    (result : store.eraseInst bb toErase = .ok store') :
    Step store (.eraseInst bb toErase) store' := by
  rcases Store.eraseInst_shape result with ⟨member, shape_eq⟩
  have edited : store.shape.Listed → Shape.Edited store.shape store'.shape
      (Function.update store.shape.lists bb ((store.shape.lists bb).erase toErase)) none := by
    intro listed
    rw [shape_eq]
    exact Shape.eraseInsts_edited listed member
  apply Step.of_update none edited
  · exact fun listed => (listed.nodup bb).erase toErase
  · exact fun id inErased => .inl (List.mem_of_mem_erase inErased)
  · intro listed
    have here : Function.update store.shape.lists bb ((store.shape.lists bb).erase toErase) bb =
        (store.shape.lists bb).erase toErase := Function.update_self ..
    have now : store'.shape.lastTargets bb =
        store.targetsIn ((store.instructions bb).erase toErase) := by
      rw [(edited listed).lastTargets, here, Store.shape_targetsIn]
      · rfl
      · rw [here]
        exact fun inErased => listed.fresh bb (List.mem_of_mem_erase inErased)
    rw [now, Store.shape_lastTargets]
    simp [KeepsEnds]

theorem replaceInst_step {bb : BlockId} {old id : InstId} {new : Construct} {middle : Store}
    (making : store.construct new = .ok (id, middle))
    (replacing : middle.replaceInst bb old id = .ok store') :
    Step store (.replaceInst bb old new) store' := by
  rcases Store.replaced_shape making replacing with ⟨member, type, -, shape_eq⟩
  apply Step.of_update none
  · intro listed
    rw [shape_eq]
    exact Shape.replace_edited listed member type new.kind
  · exact fun listed => listed.replace_nodup member
  · intro id inReplaced
    rcases Shape.replace_split store.shape.nextInst member with ⟨front, back, split, replaced⟩
    have inNew : id ∈ front ++ store.shape.nextInst :: back := replaced ▸ inReplaced
    have inOld : id ∈ front ∨ id ∈ back → id ∈ store.instructions bb := by
      intro either
      rw [split, List.mem_append]
      exact either.imp_right (.tail _)
    rw [List.mem_append, List.mem_cons] at inNew
    rcases inNew with inFront | isNew | inBack
    · exact .inl (inOld (.inl inFront))
    · exact .inr ⟨isNew, by rw [shape_eq]; rfl⟩
    · exact .inl (inOld (.inr inBack))
  · intro listed
    rw [shape_eq, Shape.replace_lastTargets_iff listed member, Store.shape_targetsOf]
    simp [KeepsEnds, Store.shape]

theorem splice_step {bb other : BlockId} {pos first last : Option InstId}
    (result : store.splice bb pos other first last = .ok store') :
    Step store (.splice bb pos other first last) store' := by
  rcases Store.splice_move result with ⟨front, moved, back, inserted, cutting, inserting, shape_eq⟩
  have split := Store.segment_eq_ok cutting
  have order := Store.insertBefore_perm inserting
  have edited : Shape.Edited store.shape store'.shape
      (store.shape.movedLists bb other (front ++ back) inserted)
      (if pos = none then some bb else none) := by
    have moving := Shape.move_edited store.shape bb other (front ++ back) moved inserted
    rw [shape_eq]
    split
    · exact moving.relink bb
    · exact moving
  constructor
  · exact fun listed => edited.listed_moved listed split order
  · exact fun _ => edited.excess
  · intro listed kept
    rw [edited.linksKept_moved_iff listed kept split inserting, Store.shape_targetsIn,
      Store.shape_lastTargets]
    simp [KeepsEnds, cutting]

theorem spliceAll_step {bb other : BlockId} {pos : Option InstId}
    (result : store.spliceAll bb pos other = .ok store') :
    Step store (.spliceAll bb pos other) store' := by
  rcases Result.bind_eq_ok.mp result with ⟨source, found, splicing⟩
  rw [Store.block_eq_ok] at found
  rw [← Store.instructions_eq found] at splicing
  have step := splice_step splicing
  constructor
  · exact step.listed
  · exact step.excess
  · intro listed kept
    rw [step.linksKept_iff listed kept, KeepsEnds, KeepsEnds, Store.segment_whole]
    apply or_congr_right
    constructor
    · intro stays
      exact (stays [] (store.instructions other) [] rfl).symm
    · intro leadsNowhere front moved back cutting
      cases cutting
      exact leadsNowhere.symm

theorem step (result : edit.apply store = .ok store') : Step store edit store' := by
  cases edit with
  | pushInstBack bb new =>
      cases pushing : store.pushInstBack bb new with
      | error problem => simp [apply, pushing] at result
      | ok made =>
          simp only [apply, pushing] at result
          cases result
          exact pushInstBack_step pushing
  | pushInstFront bb new =>
      cases pushing : store.pushInstFront bb new with
      | error problem => simp [apply, pushing] at result
      | ok made =>
          simp only [apply, pushing] at result
          cases result
          exact pushInstFront_step pushing
  | eraseInst bb toErase => exact eraseInst_step result
  | replaceInst bb old new =>
      rcases Result.bind_eq_ok.mp result with ⟨⟨id, middle⟩, making, replacing⟩
      exact replaceInst_step making replacing
  | splice bb pos other first last => exact splice_step result
  | spliceAll bb pos other => exact spliceAll_step result

/-- One edit keeps the edges in step exactly when it keeps the ends of the blocks it does not
bring up to date. -/
theorem inStep_iff_keepsEnds (listed : store.shape.Listed) (inStep : store.InStep)
    (result : edit.apply store = .ok store') : store'.InStep ↔ edit.KeepsEnds store := by
  rw [Store.inStep_iff_shape] at inStep ⊢
  rw [← (step result).linksKept_iff listed inStep.1, (step result).excess listed]
  exact and_iff_left inStep.2

end BlockEdit

/-! ## Runs of edits -/

namespace Store

variable {store : Store}

/-- After every edit of a run the successors of every block are the targets of its last
instruction, exactly when every edit keeps the ends of the blocks it does not bring up to
date. -/
theorem inStep_throughout_iff {edits : List BlockEdit} (listed : store.shape.Listed)
    (inStep : store.InStep) :
    StepRuns.Throughout BlockEdit.apply InStep store edits ↔
      StepRuns.EachStep BlockEdit.apply (fun before edit => edit.KeepsEnds before) store edits := by
  apply StepRuns.throughout_iff_eachStep
  case invariant => exact fun store => store.shape.Listed ∧ store.InStep
  case implies => exact fun store both => both.2
  case keeps =>
    intro store edit store' both result keeps
    exact ⟨(BlockEdit.step result).listed both.1,
      (BlockEdit.inStep_iff_keepsEnds both.1 both.2 result).mpr keeps⟩
  case needs =>
    intro store edit store' both result inStep'
    exact (BlockEdit.inStep_iff_keepsEnds both.1 both.2 result).mp inStep'
  case start => exact ⟨listed, inStep⟩

theorem Settled.listed (settled : store.Settled) : store.shape.Listed where
  nodup := settled.nodup
  disjoint bb other different id inBlock inOther :=
    different (settled.home_unique inBlock inOther)
  allocated bb id member := by
    apply settled.allocated id
    rw [settled.knows bb id member]
    simp

/-- Two blocks without instructions. -/
def twoBlocks : List BuildStep :=
  [.newFunction 0 .I64 [], .appendBB 0, .appendBB 0]

theorem inStep_throughout_iff_twoBlocks :
    ∃ store : Store, store.Built ∧ store.InStep ∧
      (StepRuns.Throughout BlockEdit.apply InStep store
          [.pushInstBack 0 (.jumpInstr 1), .pushInstFront 0 (.constVal (.I64 2)),
            .spliceAll 1 none 0] ↔
        StepRuns.EachStep BlockEdit.apply (fun before edit => edit.KeepsEnds before) store
          [.pushInstBack 0 (.jumpInstr 1), .pushInstFront 0 (.constVal (.I64 2)),
            .spliceAll 1 none 0]) := by
  have built : ∃ store : Store, store.Built ∧ store.InStep := by
    refine ⟨_, ⟨twoBlocks, rfl⟩, ?_, ?_⟩
    · intro bb
      rcases bb with _ | _ | bb <;> rfl
    · intro pred succ
      rcases pred with _ | _ | pred <;> rcases succ with _ | _ | succ <;> rfl
  rcases built with ⟨store, built, inStep⟩
  exact ⟨store, built, inStep, inStep_throughout_iff built.settled.listed inStep⟩

/-- Block 0 still leads to block 1 when its jump has been erased. -/
theorem not_inStep_erased :
    ∃ store store' : Store, store.Built ∧ store.InStep ∧
      (BlockEdit.eraseInst 0 0).apply store = .ok store' ∧ store'.instructions 0 = [] ∧
      store'.succs 0 = [1] ∧ ¬ store'.InStep := by
  refine ⟨_, _, ⟨twoBlocks ++ [.pushInstBack 0 (.jumpInstr 1)], rfl⟩, ⟨?_, ?_⟩, rfl, rfl, rfl, ?_⟩
  · intro bb
    rcases bb with _ | _ | bb <;> rfl
  · intro pred succ
    rcases pred with _ | _ | pred <;> rcases succ with _ | _ | succ <;> rfl
  · intro inStep
    cases inStep.succs 0

end Store

end LeechJit.IR
