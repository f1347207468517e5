import LeechJit.IR.Shape

/-! # Tidy stores

Keys are handed out once, every block is in the list of at most one function and every
instruction in the list of at most one block. The operations on blocks keep it that way.
-/

namespace LeechJit.IR

namespace Shape

/-- The blocks of the function under a key. -/
def bbs (shape : Shape) (func : FuncId) : List BlockId :=
  (shape.functions func).elim [] Function.bbs

/-- The functions have blocks of their own. -/
structure Apart (shape : Shape) : Prop where
  allocated : ∀ bb, shape.present bb → bb < shape.nextBlock
  nodup : ∀ func, (shape.bbs func).Nodup
  present : ∀ func, ∀ bb ∈ shape.bbs func, shape.present bb
  disjoint : ∀ func other bb, bb ∈ shape.bbs func → bb ∈ shape.bbs other → func = other

variable {shape shape' : Shape}

theorem bbs_eq {func : FuncId} {function : Function} (found : shape.functions func = some function) :
    shape.bbs func = function.bbs := by
  rw [bbs, found, Option.elim_some]

theorem bbs_setFunction (shape : Shape) (func : FuncId) (function : Function) (key : FuncId) :
    (shape.setFunction func function).bbs key =
      if key = func then function.bbs else shape.bbs key := by
  by_cases same : key = func <;> simp [bbs, setFunction, same]

theorem bbs_addBB {func : FuncId} {function : Function}
    (found : shape.functions func = some function) (key : FuncId) :
    (shape.addBB func function).bbs key =
      if key = func then shape.bbs func ++ [shape.nextBlock] else shape.bbs key := by
  rw [bbs_eq found]
  exact bbs_setFunction shape func _ key

namespace Apart

theorem fresh (apart : shape.Apart) : ¬ shape.present shape.nextBlock :=
  fun present => Nat.lt_irrefl _ (apart.allocated _ present)

theorem congr (apart : shape.Apart) (present : shape'.present = shape.present)
    (functions : shape'.functions = shape.functions)
    (nextBlock : shape'.nextBlock = shape.nextBlock) : shape'.Apart := by
  have bbs : shape'.bbs = shape.bbs := by
    funext func
    rw [Shape.bbs, Shape.bbs, functions]
  constructor
  · rw [present, nextBlock]
    exact apart.allocated
  · rw [bbs]
    exact apart.nodup
  · rw [bbs, present]
    exact apart.present
  · rw [bbs]
    exact apart.disjoint

theorem addBB (apart : shape.Apart) {func : FuncId} {function : Function}
    (found : shape.functions func = some function) : (shape.addBB func function).Apart := by
  have fresh : ∀ key, shape.nextBlock ∉ shape.bbs key := fun key member =>
    apart.fresh (apart.present key _ member)
  have bbs := bbs_addBB found
  constructor
  case allocated =>
    intro bb present
    cases present with
    | inl old => exact Nat.lt_succ_of_lt (apart.allocated bb old)
    | inr new => exact new ▸ Nat.lt_succ_self _
  case nodup =>
    intro key
    rw [bbs]
    split_ifs
    · rw [List.nodup_append]
      refine ⟨apart.nodup func, List.nodup_singleton _, ?_⟩
      intro bb member other isNew equal
      rw [List.mem_singleton.mp isNew] at equal
      exact fresh func (equal ▸ member)
    · exact apart.nodup key
  case present =>
    intro key bb member
    rw [bbs] at member
    split_ifs at member
    · rw [List.mem_append, List.mem_singleton] at member
      exact member.imp (apart.present func bb) id
    · exact .inl (apart.present key bb member)
  case disjoint =>
    intro key other bb inKey inOther
    rw [bbs] at inKey inOther
    split_ifs at inKey inOther with isKey isOther isOther
    · rw [isKey, isOther]
    · rw [List.mem_append, List.mem_singleton] at inKey
      cases inKey with
      | inl old => rw [isKey, apart.disjoint func other bb old inOther]
      | inr new => exact absurd (new ▸ inOther) (fresh other)
    · rw [List.mem_append, List.mem_singleton] at inOther
      cases inOther with
      | inl old => rw [isOther, apart.disjoint key func bb inKey old]
      | inr new => exact absurd (new ▸ inKey) (fresh key)
    · exact apart.disjoint key other bb inKey inOther

/-- A function loses a block, and the block is gone. -/
theorem dropBB (apart : shape.Apart) {func : FuncId} {function : Function} {bb : BlockId}
    (found : shape.functions func = some function) (member : bb ∈ function.bbs) :
    ((shape.dropBB bb).setFunction func { function with bbs := function.bbs.erase bb }).Apart := by
  have bbs : ∀ key, ((shape.dropBB bb).setFunction func
      { function with bbs := function.bbs.erase bb }).bbs key = (shape.bbs key).erase bb := by
    intro key
    rw [bbs_setFunction]
    split_ifs with isFunc
    · rw [isFunc, bbs_eq found]
    · apply (List.erase_of_not_mem _).symm
      intro inKey
      rw [← bbs_eq found] at member
      exact isFunc (apart.disjoint key func bb inKey member)
  constructor
  case allocated =>
    intro key present
    exact apart.allocated key present.1
  case nodup =>
    intro key
    rw [bbs]
    exact (apart.nodup key).erase bb
  case present =>
    intro key other inKey
    rw [bbs, (apart.nodup key).mem_erase_iff] at inKey
    exact ⟨apart.present key other inKey.2, inKey.1⟩
  case disjoint =>
    intro key other block inKey inOther
    rw [bbs] at inKey inOther
    exact apart.disjoint key other block (List.mem_of_mem_erase inKey) (List.mem_of_mem_erase inOther)

/-- The blocks of one function go to another. -/
theorem moveBBs (apart : shape.Apart) {func src : FuncId} {function source : Function}
    {bbs : List BlockId} (different : func ≠ src) (found : shape.functions func = some function)
    (foundSource : shape.functions src = some source) (perm : bbs.Perm (function.bbs ++ source.bbs)) :
    ((shape.setFunction src { source with bbs := [] }).setFunction func
      { function with bbs := bbs }).Apart := by
  rw [← bbs_eq found, ← bbs_eq foundSource] at perm
  have moved : ∀ key, ((shape.setFunction src { source with bbs := [] }).setFunction func
      { function with bbs := bbs }).bbs key =
        if key = func then bbs else if key = src then [] else shape.bbs key := by
    intro key
    rw [bbs_setFunction, bbs_setFunction]
  -- where the blocks of a function were before
  have origin : ∀ key bb, bb ∈ ((shape.setFunction src { source with bbs := [] }).setFunction func
      { function with bbs := bbs }).bbs key →
        ∃ old, bb ∈ shape.bbs old ∧ key = if old = src then func else old := by
    intro key bb member
    rw [moved] at member
    split_ifs at member with isFunc isSrc
    · rw [perm.mem_iff, List.mem_append] at member
      cases member with
      | inl inFunc => exact ⟨func, inFunc, by rw [if_neg different, isFunc]⟩
      | inr inSrc => exact ⟨src, inSrc, by rw [if_pos rfl, isFunc]⟩
    · cases member
    · exact ⟨key, member, by rw [if_neg isSrc]⟩
  constructor
  case allocated => exact apart.allocated
  case nodup =>
    intro key
    rw [moved]
    split_ifs
    · rw [perm.nodup_iff, List.nodup_append]
      refine ⟨apart.nodup func, apart.nodup src, ?_⟩
      intro bb inFunc other inSrc equal
      exact different (apart.disjoint func src bb inFunc (equal ▸ inSrc))
    · exact List.nodup_nil
    · exact apart.nodup key
  case present =>
    intro key bb member
    rcases origin key bb member with ⟨old, inOld, -⟩
    exact apart.present old bb inOld
  case disjoint =>
    intro key other bb inKey inOther
    rcases origin key bb inKey with ⟨old, inOld, rfl⟩
    rcases origin other bb inOther with ⟨again, inAgain, rfl⟩
    rw [apart.disjoint old again bb inOld inAgain]

end Apart

end Shape

namespace Store

variable {store store' : Store}

structure Tidy (store : Store) : Prop where
  settled : store.Settled
  apart : store.shape.Apart

/-! ## Stores that were built -/

theorem BuildStep.apart {step : BuildStep} (apart : store.shape.Apart)
    (result : step.apply store = .ok store') : store'.shape.Apart := by
  have fresh : store.blocks store.nextBlock = none := not_not.mp apart.fresh
  cases step with
  | newFunction func resType args =>
      simp only [BuildStep.apply, Store.newFunction] at result
      split at result
      case h_1 free =>
        cases result
        rw [setFunction_shape]
        have bbs : ∀ key, (store.shape.setFunction func { resType := resType, args := args }).bbs key =
            store.shape.bbs key := by
          intro key
          rw [Shape.bbs_setFunction]
          split_ifs with isFunc
          · rw [isFunc, Shape.bbs]
            simp [shape, free]
          · rfl
        constructor
        · exact apart.allocated
        · intro key
          rw [bbs]
          exact apart.nodup key
        · intro key bb
          rw [bbs]
          exact apart.present key bb
        · intro key other bb
          rw [bbs, bbs]
          exact apart.disjoint key other bb
      case h_2 => cases result
  | appendBB func =>
      rcases Result.map_eq_ok.mp result with ⟨⟨bb, made⟩, making, rfl⟩
      rcases appendBB_shape fresh making with ⟨-, function, found, shape_eq⟩
      rw [shape_eq]
      exact apart.addBB found
  | pushInstFront bb new =>
      rcases Result.map_eq_ok.mp result with ⟨⟨id, made⟩, making, rfl⟩
      rcases pushInstFront_shape making with ⟨-, type, -, shape_eq⟩
      rw [shape_eq]
      exact apart.congr rfl rfl rfl
  | pushInstBack bb new =>
      rcases Result.map_eq_ok.mp result with ⟨⟨id, made⟩, making, rfl⟩
      rcases pushInstBack_shape making with ⟨-, type, -, shape_eq⟩
      rw [shape_eq]
      exact apart.congr rfl rfl rfl
  | addNode phi val bb =>
      rcases addNode_shape result with ⟨inst, vars, -, -, shape_eq⟩
      rw [shape_eq]
      exact apart.congr rfl rfl rfl
  | appendArg call arg =>
      rcases Result.bind_eq_ok.mp result with ⟨⟨type, kind, users, home, inputs⟩, -, adding⟩
      cases kind with
      | kCall callee =>
          rw [(addInput_eq_ok adding).1.shape_eq]
          exact apart
      | _ => cases adding

theorem empty_apart : Store.empty.shape.Apart := by
  constructor
  · intro bb present
    exact absurd rfl present
  · intro func
    exact List.nodup_nil
  · intro func bb member
    cases member
  · intro func other bb member
    cases member

theorem Built.tidy (built : store.Built) : store.Tidy :=
  ⟨built.settled, built.induct (fun store => store.shape.Apart) empty_apart
    fun _ _ _ => BuildStep.apart⟩

end Store

end LeechJit.IR
