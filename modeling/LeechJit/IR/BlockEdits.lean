import LeechJit.IR.Shape

/-! # Editing the instructions of blocks

An edit puts new lists into one or two blocks, and some edits bring the links of a block up
to date. So the blocks lead where their last instructions say exactly when no edit that
leaves the links alone changes where a block ends.
-/

namespace LeechJit.IR

/-- The operations on the instructions of blocks. -/
inductive BlockEdit where
  | pushInstBack (bb : BlockId) (new : Construct)
  | pushInstFront (bb : BlockId) (new : Construct)
  | eraseInst (bb : BlockId) (toErase : InstId)
  | replaceInst (bb : BlockId) (old : InstId) (new : Construct)
  | splice (bb : BlockId) (pos : Option InstId) (other : BlockId) (first last : Option InstId)
  | spliceAll (bb : BlockId) (pos : Option InstId) (other : BlockId)
  deriving DecidableEq, Repr

def BlockEdit.apply (store : Store) : BlockEdit → Result Store
  | .pushInstBack bb new => Prod.snd <$> store.pushInstBack bb new
  | .pushInstFront bb new => Prod.snd <$> store.pushInstFront bb new
  | .eraseInst bb toErase => store.eraseInst bb toErase
  | .replaceInst bb old new => do
      let made ← store.construct new
      made.2.replaceInst bb old made.1
  | .splice bb pos other first last => store.splice bb pos other first last
  | .spliceAll bb pos other => store.spliceAll bb pos other

namespace Shape

/-- Where a block with the instructions `ids` leads to. -/
def targetsIn (shape : Shape) (ids : List InstId) : List BlockId :=
  ids.getLast?.elim [] shape.targetsOf

theorem lastTargets_eq (shape : Shape) (bb : BlockId) :
    shape.lastTargets bb = shape.targetsIn (shape.lists bb) :=
  rfl

/-- Each instruction that stands in a block stands there once and nowhere else. -/
structure Listed (shape : Shape) : Prop where
  nodup : ∀ bb, (shape.lists bb).Nodup
  disjoint : ∀ bb other, bb ≠ other → ∀ id ∈ shape.lists bb, id ∉ shape.lists other
  allocated : ∀ bb, ∀ id ∈ shape.lists bb, id < shape.nextInst

/-- The blocks lead where their last instructions say. -/
def LinksKept (shape : Shape) : Prop :=
  ∀ bb, shape.succs bb = shape.lastTargets bb

/-- What an edit does to a shape: there are new lists, and block `relinked` has its links
brought up to date. -/
structure Edited (shape shape' : Shape) (lists : BlockId → List InstId)
    (relinked : Option BlockId) : Prop where
  lists_eq : shape'.lists = lists
  excess : shape'.excess = shape.excess
  succs : ∀ bb, shape'.succs bb =
    if relinked = some bb then shape'.lastTargets bb else shape.succs bb
  grows : shape.nextInst ≤ shape'.nextInst
  targets : ∀ bb, ∀ id ∈ lists bb, id ≠ shape.nextInst →
    shape'.targetsOf id = shape.targetsOf id

variable {shape shape' : Shape} {lists : BlockId → List InstId} {relinked : Option BlockId}
  {bb : BlockId}

theorem Listed.fresh (listed : shape.Listed) (bb : BlockId) : shape.nextInst ∉ shape.lists bb :=
  fun member => Nat.lt_irrefl _ (listed.allocated bb _ member)

theorem targetsIn_congr {ids : List InstId}
    (same : ∀ id ∈ ids, shape'.targetsOf id = shape.targetsOf id) :
    shape'.targetsIn ids = shape.targetsIn ids := by
  rw [targetsIn, targetsIn]
  cases last : ids.getLast? with
  | none => rfl
  | some id => exact same id (List.mem_of_getLast? last)

theorem targetsIn_append {front back : List InstId} (nonempty : back ≠ []) :
    shape.targetsIn (front ++ back) = shape.targetsIn back := by
  rw [targetsIn, targetsIn, List.getLast?_append_of_ne_nil front nonempty]

namespace Edited

theorem lastTargets (edited : Edited shape shape' lists relinked)
    (old : shape.nextInst ∉ lists bb) : shape'.lastTargets bb = shape.targetsIn (lists bb) := by
  rw [lastTargets_eq, edited.lists_eq]
  apply targetsIn_congr
  exact fun id member => edited.targets bb id member fun isNew => old (isNew ▸ member)

/-- The links are kept if the blocks that are not brought up to date end as before. -/
theorem linksKept_iff (edited : Edited shape shape' lists relinked) (kept : shape.LinksKept) :
    shape'.LinksKept ↔
      ∀ bb, relinked ≠ some bb → shape'.lastTargets bb = shape.lastTargets bb := by
  apply forall_congr'
  intro bb
  rw [edited.succs]
  cases decEq relinked (some bb) with
  | isTrue same => simp [same]
  | isFalse different =>
      rw [if_neg different, kept bb]
      exact ⟨fun equal _ => equal.symm, fun equal => (equal different).symm⟩

/-- An edit of one block. -/
theorem linksKept_update_iff {ids : List InstId} (listed : shape.Listed) (kept : shape.LinksKept)
    (edited : Edited shape shape' (Function.update shape.lists bb ids) relinked) :
    shape'.LinksKept ↔
      (relinked ≠ some bb → shape'.lastTargets bb = shape.lastTargets bb) := by
  rw [edited.linksKept_iff kept]
  constructor
  · exact fun all => all bb
  · intro here other notRelinked
    cases decEq other bb with
    | isTrue same =>
        subst same
        exact here notRelinked
    | isFalse different =>
        have unchanged : Function.update shape.lists bb ids other = shape.lists other :=
          Function.update_of_ne different ..
        rw [edited.lastTargets (unchanged ▸ listed.fresh other), unchanged, lastTargets_eq]

theorem listed (edited : Edited shape shape' lists relinked)
    (nodup : ∀ bb, (lists bb).Nodup)
    (disjoint : ∀ bb other, bb ≠ other → ∀ id ∈ lists bb, id ∉ lists other)
    (allocated : ∀ bb, ∀ id ∈ lists bb, id < shape'.nextInst) : shape'.Listed := by
  rw [← edited.lists_eq] at nodup disjoint allocated
  exact ⟨nodup, disjoint, allocated⟩

/-- An edit of one block whose instructions stand in no other. -/
theorem listed_update {ids : List InstId} (listed : shape.Listed)
    (edited : Edited shape shape' (Function.update shape.lists bb ids) relinked)
    (nodup : ids.Nodup) (own : ∀ id ∈ ids, id ∈ shape.lists bb ∨
      (id = shape.nextInst ∧ shape'.nextInst = shape.nextInst + 1)) : shape'.Listed := by
  have apart : ∀ other, other ≠ bb → ∀ id ∈ ids, id ∉ shape.lists other := by
    intro other different id member inOther
    cases own id member with
    | inl inBlock => exact listed.disjoint bb other different.symm id inBlock inOther
    | inr isNew => exact listed.fresh other (isNew.1 ▸ inOther)
  apply edited.listed
  · intro key
    cases decEq key bb with
    | isTrue same => simpa [same] using nodup
    | isFalse different => simpa [different] using listed.nodup key
  · intro key other different id member inOther
    cases decEq key bb with
    | isTrue same =>
        subst same
        rw [Function.update_self] at member
        rw [Function.update_of_ne different.symm] at inOther
        exact apart other different.symm id member inOther
    | isFalse notKey =>
        rw [Function.update_of_ne notKey] at member
        cases decEq other bb with
        | isTrue same =>
            subst same
            rw [Function.update_self] at inOther
            exact apart key notKey id inOther member
        | isFalse notOther =>
            rw [Function.update_of_ne notOther] at inOther
            exact listed.disjoint key other different id member inOther
  · intro key id member
    cases decEq key bb with
    | isTrue same =>
        subst same
        rw [Function.update_self] at member
        cases own id member with
        | inl inBlock => exact Nat.lt_of_lt_of_le (listed.allocated key id inBlock) edited.grows
        | inr isNew =>
            rw [isNew.1, isNew.2]
            exact Nat.lt_succ_self _
    | isFalse different =>
        rw [Function.update_of_ne different] at member
        exact Nat.lt_of_lt_of_le (listed.allocated key id member) edited.grows

theorem relink (edited : Edited shape shape' lists none) (bb : BlockId) :
    Edited shape (shape'.relink bb) lists (some bb) where
  lists_eq := edited.lists_eq
  excess := edited.excess
  succs key := by
    cases decEq bb key with
    | isTrue same =>
        subst same
        rw [if_pos rfl]
        exact Function.update_self ..
    | isFalse different =>
        have other : some bb ≠ some key := fun same => different (Option.some.inj same)
        have kept : (shape'.relink bb).succs key = shape'.succs key :=
          Function.update_of_ne (Ne.symm different) ..
        rw [if_neg other, kept, edited.succs]
        simp
  grows := edited.grows
  targets := edited.targets

end Edited

/-! ## The edits -/

theorem place_edited (shape : Shape) (bb : BlockId) (ids : List InstId) (type : ValueType)
    (kind : InstKind) :
    Edited shape (shape.place bb ids type kind) (Function.update shape.lists bb ids) none where
  lists_eq := rfl
  excess := rfl
  succs _ := rfl
  grows := Nat.le_succ _
  targets key id _ old := by
    simp [targetsOf, place, setInst, setList, Function.update_of_ne old]

theorem place_targetsOf (shape : Shape) (bb : BlockId) (ids : List InstId) (type : ValueType)
    (kind : InstKind) :
    (shape.place bb ids type kind).targetsOf shape.nextInst = kind.targets := by
  simp [targetsOf, place, setInst, setList]

theorem eraseInsts_edited {id : InstId} (listed : shape.Listed) (member : id ∈ shape.lists bb) :
    Edited shape (shape.eraseInsts bb [id])
      (Function.update shape.lists bb ((shape.lists bb).erase id)) none where
  lists_eq := by simp [eraseInsts]
  excess := rfl
  succs _ := rfl
  grows := Nat.le_refl _
  targets key other inList _ := by
    have different : other ≠ id := by
      rintro rfl
      cases decEq key bb with
      | isTrue same =>
          subst same
          rw [Function.update_self] at inList
          exact (listed.nodup key).not_mem_erase inList
      | isFalse notBlock =>
          rw [Function.update_of_ne notBlock] at inList
          exact listed.disjoint key bb notBlock other inList member
    simp [targetsOf, eraseInsts, different]

/-- A new instruction in the place of an old one. -/
def replace (shape : Shape) (bb : BlockId) (old : InstId) (type : ValueType) (kind : InstKind) :
    Shape :=
  { ((shape.setInst shape.nextInst (some { type := type, kind := kind })).setInst old none).setList
      bb ((shape.lists bb).replace old shape.nextInst) with nextInst := shape.nextInst + 1 }

theorem mem_replace {ids : List InstId} {old new id : InstId} (nodup : ids.Nodup)
    (member : id ∈ ids.replace old new) : id = new ∨ (id ∈ ids ∧ id ≠ old) := by
  induction ids with
  | nil => cases member
  | cons first rest induction =>
      rw [List.nodup_cons] at nodup
      cases decEq first old with
      | isTrue same =>
          subst same
          rw [List.replace_cons_self, List.mem_cons] at member
          refine member.imp_right fun inRest => ⟨.tail _ inRest, ?_⟩
          rintro rfl
          exact nodup.1 inRest
      | isFalse different =>
          rw [List.replace_cons, beq_eq_false_iff_ne.mpr (Ne.symm different)] at member
          cases member with
          | head => exact .inr ⟨.head _, different⟩
          | tail _ inRest =>
              exact (induction nodup.2 inRest).imp_right fun kept => ⟨.tail _ kept.1, kept.2⟩

theorem replace_edited {old : InstId} (listed : shape.Listed) (member : old ∈ shape.lists bb)
    (type : ValueType) (kind : InstKind) :
    Edited shape (shape.replace bb old type kind)
      (Function.update shape.lists bb ((shape.lists bb).replace old shape.nextInst)) none where
  lists_eq := rfl
  excess := rfl
  succs _ := rfl
  grows := Nat.le_succ _
  targets key other inList isOld := by
    have different : other ≠ old := by
      rintro rfl
      cases decEq key bb with
      | isTrue same =>
          subst same
          rw [Function.update_self] at inList
          cases mem_replace (listed.nodup key) inList with
          | inl isNew => exact isOld isNew
          | inr kept => exact kept.2 rfl
      | isFalse notBlock =>
          rw [Function.update_of_ne notBlock] at inList
          exact listed.disjoint key bb notBlock other inList member
    simp [targetsOf, replace, setInst, setList, different, isOld]

/-- Instructions `moved` are taken out of block `other`, where `rest` stays, and block `bb` has
the instructions `inserted` now. -/
def move (shape : Shape) (bb other : BlockId) (rest moved inserted : List InstId) : Shape :=
  ((shape.setBBs bb moved).setList other rest).setList bb inserted

theorem move_edited (shape : Shape) (bb other : BlockId) (rest moved inserted : List InstId) :
    Edited shape (shape.move bb other rest moved inserted)
      (Function.update (Function.update shape.lists other rest) bb inserted) none where
  lists_eq := rfl
  excess := rfl
  succs _ := rfl
  grows := Nat.le_refl _
  targets key id _ _ := by
    simp only [targetsOf, move, setList, setBBs]
    split
    · cases shape.insts id <;> rfl
    · rfl

end Shape

end LeechJit.IR
