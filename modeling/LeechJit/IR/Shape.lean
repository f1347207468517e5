import LeechJit.IR.Edges
import LeechJit.IR.Homes

/-! # The shape of a store

A store without operands and users: which instructions stand in which blocks, where
the blocks lead to, and which blocks the functions have. Every operation changes the
shape in a way that depends on the shape alone.
-/

namespace LeechJit.IR

structure Shape where
  /-- The instructions without operands and users. -/
  insts : InstId → Option Inst
  lists : BlockId → List InstId
  succs : BlockId → List BlockId
  excess : BlockId → BlockId → Int
  present : BlockId → Prop
  functions : FuncId → Option Function
  nextInst : InstId
  nextBlock : BlockId

namespace Shape

def targetsOf (shape : Shape) (id : InstId) : List BlockId :=
  (shape.insts id).elim [] fun inst => inst.kind.targets

def lastTargets (shape : Shape) (bb : BlockId) : List BlockId :=
  (shape.lists bb).getLast?.elim [] shape.targetsOf

def setList (shape : Shape) (bb : BlockId) (ids : List InstId) : Shape :=
  { shape with lists := Function.update shape.lists bb ids }

def setInst (shape : Shape) (id : InstId) (inst : Option Inst) : Shape :=
  { shape with insts := Function.update shape.insts id inst }

/-- The links of a block lead where its last instruction says. -/
def relink (shape : Shape) (bb : BlockId) : Shape :=
  { shape with succs := Function.update shape.succs bb (shape.lastTargets bb) }

/-- Some instructions get a block. -/
def setBBs (shape : Shape) (bb : BlockId) (ids : List InstId) : Shape :=
  { shape with insts := fun id =>
      if id ∈ ids then (shape.insts id).map fun inst => { inst with bb := some bb }
      else shape.insts id }

/-- A new instruction stands in a block. -/
def place (shape : Shape) (bb : BlockId) (ids : List InstId) (type : ValueType)
    (kind : InstKind) : Shape :=
  { (shape.setInst shape.nextInst (some { type := type, kind := kind, bb := some bb })).setList bb
      ids with nextInst := shape.nextInst + 1 }

/-- Instructions `moved` of block `other` become the end of block `bb`. -/
def splice (shape : Shape) (bb other : BlockId) (front moved : List InstId) : Shape :=
  (((shape.setBBs bb moved).setList other front).setList bb (shape.lists bb ++ moved)).relink bb

def setFunction (shape : Shape) (func : FuncId) (function : Function) : Shape :=
  { shape with functions := Function.update shape.functions func (some function) }

/-- A function gets an empty block. -/
def addBB (shape : Shape) (func : FuncId) (function : Function) : Shape :=
  { shape.setFunction func { function with bbs := function.bbs ++ [shape.nextBlock] } with
    present := fun bb => shape.present bb ∨ bb = shape.nextBlock
    nextBlock := shape.nextBlock + 1 }

/-- Some instructions of a block are gone. -/
def eraseInsts (shape : Shape) (bb : BlockId) (ids : List InstId) : Shape :=
  { shape with
    insts := fun id => if id ∈ ids then none else shape.insts id
    lists := Function.update shape.lists bb ((shape.lists bb).diff ids) }

/-- A block is gone, with what stands in it. -/
def dropBB (shape : Shape) (bb : BlockId) : Shape :=
  { shape with
    insts := fun id => if id ∈ shape.lists bb then none else shape.insts id
    lists := Function.update shape.lists bb []
    succs := Function.update shape.succs bb []
    excess := fun pred succ =>
      (if succ = bb then 0 else shape.excess pred succ + (shape.succs pred).count succ) -
        if pred = bb then 0 else ((shape.succs pred).count succ : Int)
    present := fun key => shape.present key ∧ key ≠ bb }

end Shape

namespace Store

def shape (store : Store) : Shape where
  insts id := (store.insts id).map Inst.bare
  lists := store.instructions
  succs := store.succs
  excess := store.excess
  present bb := store.blocks bb ≠ none
  functions := store.functions
  nextInst := store.nextInst
  nextBlock := store.nextBlock

variable {store middle store' : Store} {bb : BlockId} {id : InstId}

theorem shape_targetsOf (store : Store) (id : InstId) :
    store.shape.targetsOf id = store.targetsOf id := by
  cases found : store.insts id with
  | none => simp [Shape.targetsOf, shape, targetsOf, kindOf, found]
  | some inst => simp [Shape.targetsOf, shape, targetsOf, kindOf, found, Inst.bare]

theorem homeOf_shape (store : Store) (id : InstId) :
    store.homeOf id = (store.shape.insts id).map Inst.bb := by
  simp [homeOf, shape, Function.comp_def, Inst.bare]

theorem kindOf_shape (store : Store) (id : InstId) :
    store.kindOf id = (store.shape.insts id).map Inst.kind := by
  simp [kindOf, shape, Function.comp_def, Inst.bare]

theorem shape_lastTargets (store : Store) (bb : BlockId) :
    store.shape.lastTargets bb = store.lastTargets bb := by
  rw [Shape.lastTargets, lastTargets]
  congr 1
  funext id
  exact shape_targetsOf store id

/-- What the predecessors of a block are. -/
theorem count_preds (store : Store) (pred succ : BlockId) :
    ((store.preds succ).count pred : Int) =
      store.shape.excess pred succ + (store.shape.succs pred).count succ := by
  simp only [shape, excess]
  omega

theorem mem_preds_iff {pred succ : BlockId} : pred ∈ store.preds succ ↔
    0 < store.shape.excess pred succ + ((store.shape.succs pred).count succ : Int) := by
  rw [← count_preds, ← List.count_pos_iff]
  omega

/-! ## Operations on instructions -/

theorem Relinked.shape_eq (relinked : Relinked store store') : store'.shape = store.shape := by
  have same : store'.instructions = store.instructions ∧ store'.succs = store.succs ∧
      store'.excess = store.excess := by
    refine ⟨?_, ?_, ?_⟩
    · funext key
      rw [instructions, instructions, relinked.blocks]
    · funext key
      rw [succs, succs, relinked.blocks]
    · funext pred succ
      rw [excess, excess, preds, preds, succs, succs, relinked.blocks]
  have insts : (fun id => (store'.insts id).map Inst.bare) =
      fun id => (store.insts id).map Inst.bare := funext relinked.bare
  simp only [shape, same.1, same.2.1, same.2.2, insts, relinked.blocks, relinked.functions,
    relinked.nextInst, relinked.nextBlock]

theorem Linking.shape_eq {succs : List BlockId} (linking : Linking store store' bb succs) :
    store'.shape = { store.shape with succs := Function.update store.succs bb succs } := by
  have lists : store'.instructions = store.instructions := funext linking.same.instructions
  have blocks : (fun key => store'.blocks key ≠ none) = fun key => store.blocks key ≠ none := by
    funext key
    rw [ne_eq, linking.same.blocks]
  have excess : store'.excess = store.excess := by
    funext pred succ
    exact linking.excess pred succ
  have succs' : store'.succs = Function.update store.succs bb succs := by
    funext key
    rw [linking.succs, Function.update_apply]
  simp only [shape, lists, blocks, excess, succs', linking.same.insts, linking.same.functions,
    linking.same.nextInst, linking.same.nextBlock]

theorem updateLinks_shape (result : store.updateLinks bb = .ok store') :
    store'.shape = store.shape.relink bb := by
  rw [(updateLinks_linking result).1.shape_eq, Shape.relink, shape_lastTargets]
  rfl

/-- Only the list of a block changes. -/
theorem setBlock_shape {block : BasicBlock} (ids : List InstId)
    (found : store.blocks bb = some block) :
    (store.setBlock bb { block with instructions := ids }).shape = store.shape.setList bb ids := by
  have succs : (store.setBlock bb { block with instructions := ids }).succs = store.succs := by
    funext key
    rw [setBlock_succs]
    by_cases same : key = bb
    · rw [if_pos same, same, succs_eq found]
    · rw [if_neg same]
  have excess : (store.setBlock bb { block with instructions := ids }).excess = store.excess := by
    funext pred succ
    rw [excess, excess, succs, setBlock_preds]
    by_cases same : succ = bb
    · rw [if_pos same, same, preds_eq found]
    · rw [if_neg same]
  have lists : (store.setBlock bb { block with instructions := ids }).instructions =
      Function.update store.instructions bb ids := by
    funext key
    rw [setBlock_instructions, Function.update_apply]
  have blocks : (fun key => (store.setBlock bb { block with instructions := ids }).blocks key ≠
      none) = fun key => store.blocks key ≠ none := by
    funext key
    by_cases same : key = bb <;> simp [setBlock, same, found]
  simp only [shape, Shape.setList, succs, excess, lists, blocks]
  rfl

theorem eraseInst_shape (result : store.eraseInst bb id = .ok store') :
    id ∈ store.instructions bb ∧ store'.shape = store.shape.eraseInsts bb [id] := by
  rcases Result.bind_eq_ok.mp result with ⟨block, found, continued⟩
  rw [block_eq_ok] at found
  by_cases member : id ∈ block.instructions
  · simp only [member, if_true] at continued
    cases continued
    refine ⟨instructions_eq found ▸ member, ?_⟩
    have placed := setBlock_shape (block.instructions.erase id) found
    simp only [Shape.setList, shape, Shape.mk.injEq] at placed
    simp only [shape, Shape.eraseInsts, instructions_eq found, List.diff_cons, List.diff_nil,
      Shape.mk.injEq]
    refine ⟨?_, placed.2.1, placed.2.2.1, placed.2.2.2.1, placed.2.2.2.2.1, rfl, rfl, rfl⟩
    funext key
    by_cases same : key = id <;> simp [setBlock, same]
  · simp [member] at continued

theorem setBB_shape (result : store.setBB bb id = .ok store') :
    store.insts id ≠ none ∧ store'.shape = store.shape.setBBs bb [id] := by
  rcases Result.bind_eq_ok.mp result with ⟨inst, found, stored⟩
  rw [inst_eq_ok] at found
  cases stored
  refine ⟨by simp [found], ?_⟩
  simp only [shape, Shape.setBBs]
  congr 1
  funext key
  by_cases same : key = id <;> simp [setInst, same, found, Inst.bare]

theorem setBBs_shape {ids : List InstId} (result : setBBs bb ids store = .ok store') :
    (∀ id ∈ ids, store.insts id ≠ none) ∧ store'.shape = store.shape.setBBs bb ids := by
  induction ids generalizing store with
  | nil =>
      cases result
      simp [Shape.setBBs]
  | cons first rest induction =>
      rcases Result.bind_eq_ok.mp result with ⟨next, one, later⟩
      rcases setBB_shape one with ⟨present, shape_eq⟩
      rcases induction later with ⟨others, shape_eq'⟩
      constructor
      · intro id member
        cases member with
        | head => exact present
        | tail _ inRest =>
            have kept : (next.shape.insts id).isSome → (store.shape.insts id).isSome := by
              rw [shape_eq, Shape.setBBs]
              dsimp only
              split_ifs <;> simp
            have isThere := others id inRest
            simp only [shape, Option.isSome_map, Option.isSome_iff_ne_none] at kept
            exact kept isThere
      · rw [shape_eq', shape_eq]
        simp only [Shape.setBBs, Shape.mk.injEq, and_true]
        funext key
        by_cases isFirst : key = first
        · subst isFirst
          by_cases inRest : key ∈ rest <;> cases found : store.shape.insts key <;>
            simp [inRest]
        · simp [isFirst]

/-- The end of another block becomes the end of this one. -/
theorem splice_shape {other : BlockId} {first : Option InstId} (different : bb ≠ other)
    (result : store.splice bb none other first none = .ok store') :
    ∃ front moved, store.instructions other = front ++ moved ∧
      front = (store.instructions other).takeWhile (fun id => decide (some id ≠ first)) ∧
      (∀ id ∈ moved, store.insts id ≠ none) ∧
      store'.shape = store.shape.splice bb other front moved := by
  rcases Result.bind_eq_ok.mp result with ⟨source, found, continued⟩
  rcases Result.bind_eq_ok.mp continued with ⟨⟨front, moved, back⟩, cutting, continued⟩
  rcases Result.bind_eq_ok.mp continued with ⟨told, telling, continued⟩
  rcases Result.bind_eq_ok.mp continued with ⟨block, foundBlock, continued⟩
  rcases Result.bind_eq_ok.mp continued with ⟨inserted, inserting, linking⟩
  rw [block_eq_ok] at found foundBlock
  rw [if_pos rfl] at linking
  cases inserting
  have parts : front = source.instructions.takeWhile (fun id => decide (some id ≠ first)) ∧
      back = [] := by
    have cut := cutting
    simp only [segment] at cut
    split_ifs at cut
    cases cut
    refine ⟨rfl, ?_⟩
    simp
  rcases parts with ⟨isFront, rfl⟩
  have split := segment_eq_ok cutting
  rw [List.append_nil] at split
  rcases setBBs_shape telling with ⟨present, toldShape⟩
  have toldSource : told.blocks other = some source := by
    rw [(setBBs_homes telling).2.2.2, found]
  have here : block.instructions = store.instructions bb := by
    rw [← instructions_eq foundBlock, setBlock_instructions, if_neg different,
      (setBBs_homes telling).2.1]
  rw [instructions_eq found]
  refine ⟨front, moved, split, isFront, present, ?_⟩
  rw [updateLinks_shape linking, setBlock_shape _ foundBlock, List.append_nil,
    setBlock_shape _ toldSource, toldShape, here]
  rfl

/-- The old successors of a block whose links are brought up to date exist. -/
theorem splice_succs {other : BlockId} {first : Option InstId}
    (result : store.splice bb none other first none = .ok store') :
    ∀ succ ∈ store.succs bb, store.blocks succ ≠ none := by
  rcases Result.bind_eq_ok.mp result with ⟨source, found, continued⟩
  rcases Result.bind_eq_ok.mp continued with ⟨⟨front, moved, back⟩, -, continued⟩
  rcases Result.bind_eq_ok.mp continued with ⟨told, telling, continued⟩
  rcases Result.bind_eq_ok.mp continued with ⟨block, foundBlock, continued⟩
  rcases Result.bind_eq_ok.mp continued with ⟨inserted, -, linking⟩
  rw [block_eq_ok] at found foundBlock
  rw [if_pos rfl] at linking
  have toldSource : told.blocks other = some source := by
    rw [(setBBs_homes telling).2.2.2, found]
  have placed_eq := setBlock_shape inserted foundBlock
  rw [setBlock_shape _ toldSource, (setBBs_shape telling).2] at placed_eq
  have sameSuccs := congrArg Shape.succs placed_eq
  have present := congrArg Shape.present placed_eq
  intro succ member
  rw [← show _ = store.succs bb from congrFun sameSuccs bb] at member
  exact (congrFun present succ).mp ((updateLinks_linking linking).2 succ member)

/-! ## New instructions -/

theorem construct_shape {new : Construct} (result : store.construct new = .ok (id, store')) :
    id = store.nextInst ∧ ∃ type, new.type store = .ok type ∧ store'.blocks = store.blocks ∧
      store'.shape = { store.shape.setInst store.nextInst (some { type := type, kind := new.kind })
        with nextInst := store.nextInst + 1 } := by
  rcases construct_eq_ok result with ⟨isNew, -, type, typed, relinked, -, -⟩
  refine ⟨isNew, type, typed, relinked.blocks, ?_⟩
  rw [relinked.shape_eq]
  simp only [shape, Shape.setInst, newInst]
  congr 1
  funext key
  by_cases same : key = store.nextInst <;> simp [Store.setInst, same, Inst.bare]

/-- The new instruction gets its place and its block. -/
theorem placed_shape {new : Construct} {ids : List InstId} {block : BasicBlock}
    (making : store.construct new = .ok (id, middle)) (found : middle.blocks bb = some block)
    (placing : (middle.setBlock bb { block with instructions := ids }).setBB bb id = .ok store') :
    id = store.nextInst ∧ ∃ type, new.type store = .ok type ∧
      store'.shape = store.shape.place bb ids type new.kind := by
  rcases construct_shape making with ⟨rfl, type, typed, -, made⟩
  refine ⟨rfl, type, typed, ?_⟩
  rw [(setBB_shape placing).2, setBlock_shape _ found, made]
  simp only [Shape.place, Shape.setBBs, Shape.setList, Shape.setInst, Shape.mk.injEq, true_and,
    and_true]
  refine ⟨?_, rfl⟩
  funext key
  by_cases same : key = store.nextInst
  · simp [same, shape]
  · simp [same, shape]

theorem pushInstFront_shape {new : Construct}
    (result : store.pushInstFront bb new = .ok (id, store')) :
    id = store.nextInst ∧ ∃ type, new.type store = .ok type ∧
      store'.shape = store.shape.place bb (id :: store.instructions bb) type new.kind := by
  rcases Result.bind_eq_ok.mp result with ⟨⟨key, made⟩, making, continued⟩
  rcases Result.bind_eq_ok.mp continued with ⟨block, found, continued⟩
  rcases Result.bind_eq_ok.mp continued with ⟨placed, placing, equal⟩
  cases equal
  rw [block_eq_ok] at found
  have here : block.instructions = store.instructions bb := by
    have same := (construct_shape making).2
    rcases same with ⟨_, _, blocks, -⟩
    rw [instructions_eq (blocks ▸ found)]
  rw [← here]
  exact placed_shape making found placing

theorem pushInstBack_shape {new : Construct}
    (result : store.pushInstBack bb new = .ok (id, store')) :
    id = store.nextInst ∧ ∃ type, new.type store = .ok type ∧
      store'.shape = (store.shape.place bb (store.instructions bb ++ [id]) type new.kind).relink bb := by
  rcases Result.bind_eq_ok.mp result with ⟨⟨key, made⟩, making, continued⟩
  rcases Result.bind_eq_ok.mp continued with ⟨block, found, continued⟩
  rcases Result.bind_eq_ok.mp continued with ⟨placed, placing, continued⟩
  rcases Result.bind_eq_ok.mp continued with ⟨linked, linking, equal⟩
  cases equal
  rw [block_eq_ok] at found
  have here : block.instructions = store.instructions bb := by
    rcases (construct_shape making).2 with ⟨_, _, blocks, -⟩
    rw [instructions_eq (blocks ▸ found)]
  rw [← here]
  rcases placed_shape making found placing with ⟨isNew, type, typed, shape_eq⟩
  refine ⟨isNew, type, typed, ?_⟩
  rw [updateLinks_shape linking, shape_eq]

theorem pushInstBack_succs {new : Construct}
    (result : store.pushInstBack bb new = .ok (id, store')) :
    ∀ succ ∈ store.succs bb, store.blocks succ ≠ none := by
  rcases Result.bind_eq_ok.mp result with ⟨⟨key, made⟩, making, continued⟩
  rcases Result.bind_eq_ok.mp continued with ⟨block, found, continued⟩
  rcases Result.bind_eq_ok.mp continued with ⟨placed, placing, continued⟩
  rcases Result.bind_eq_ok.mp continued with ⟨linked, linking, -⟩
  rw [block_eq_ok] at found
  rcases (construct_shape making).2 with ⟨_, _, blocks, made_eq⟩
  have placed_eq : placed.shape = (made.shape.setList bb (block.instructions ++ [key])).setBBs bb
      [key] := by
    rw [(setBB_shape placing).2, setBlock_shape _ found]
  have sameSuccs : placed.succs = store.succs := by
    refine (congrArg Shape.succs placed_eq).trans ?_
    exact congrArg Shape.succs made_eq
  have present : placed.shape.present = store.shape.present := by
    rw [placed_eq, made_eq]
    rfl
  intro succ member
  have existed := (updateLinks_linking linking).2 succ (sameSuccs ▸ member)
  exact (congrFun present succ).mp existed

theorem addNode_shape {phi val : InstId} (result : store.addNode phi val bb = .ok store') :
    ∃ inst vars, store.shape.insts phi = some inst ∧ inst.kind = .kPhi vars ∧
      store'.shape = store.shape.setInst phi
        (some { inst with kind := .kPhi (vars ++ [⟨val, bb⟩]) }) := by
  rcases Result.bind_eq_ok.mp result with ⟨inst, found, adding⟩
  rw [inst_eq_ok] at found
  cases kind : inst.kind with
  | kPhi vars =>
      simp only [kind] at adding
      refine ⟨inst.bare, vars, by simp [shape, found], kind, ?_⟩
      rw [(addInput_eq_ok adding).1.shape_eq]
      simp only [shape, Shape.setInst]
      congr 1
      funext key
      by_cases same : key = phi <;> simp [Store.setInst, same, Inst.bare]
  | _ => simp [kind] at adding

/-! ## Operations on blocks -/

theorem setFunction_shape (func : FuncId) (function : Function) :
    (store.setFunction func function).shape = store.shape.setFunction func function := by
  simp only [shape, Shape.setFunction, Store.setFunction]
  congr 1
  funext key
  by_cases same : key = func <;> simp [same]

/-- A new block has nothing in it. -/
theorem appendBB_shape {func : FuncId} (fresh : store.blocks store.nextBlock = none)
    (result : store.appendBB func = .ok (bb, store')) :
    bb = store.nextBlock ∧ ∃ function, store.functions func = some function ∧
      store'.shape = store.shape.addBB func function := by
  rcases Result.bind_eq_ok.mp result with ⟨function, found, continued⟩
  rcases Result.bind_eq_ok.mp continued with ⟨idx, -, equal⟩
  rw [function_eq_ok] at found
  cases equal
  refine ⟨rfl, function, found, ?_⟩
  rw [setFunction_shape]
  have block : ∀ {γ : Type} (read : BasicBlock → γ) (default : γ), read { id := idx } = default →
      ∀ key, ((store.setBlock store.nextBlock { id := idx }).blocks key).elim default read =
        (store.blocks key).elim default read := by
    intro γ read default isDefault key
    by_cases same : key = store.nextBlock
    · simp [Store.setBlock, same, fresh, isDefault]
    · simp [Store.setBlock, same]
  have lists : (store.setBlock store.nextBlock { id := idx }).instructions = store.instructions :=
    funext fun key => block BasicBlock.instructions [] rfl key
  have succs : (store.setBlock store.nextBlock { id := idx }).succs = store.succs :=
    funext fun key => block BasicBlock.succ [] rfl key
  have preds : (store.setBlock store.nextBlock { id := idx }).preds = store.preds :=
    funext fun key => block BasicBlock.pred [] rfl key
  have excess : (store.setBlock store.nextBlock { id := idx }).excess = store.excess := by
    funext pred succ
    rw [Store.excess, Store.excess, succs, preds]
  have made : (store.newBlock { id := idx }).2.shape = { store.shape with
      present := fun key => store.shape.present key ∨ key = store.nextBlock
      nextBlock := store.nextBlock + 1 } := by
    have present : (fun key => (store.setBlock store.nextBlock { id := idx }).blocks key ≠ none) =
        fun key => store.blocks key ≠ none ∨ key = store.nextBlock := by
      funext key
      by_cases same : key = store.nextBlock <;> simp [Store.setBlock, same]
    simp only [shape, newBlock, Shape.mk.injEq, and_true]
    exact ⟨rfl, lists, succs, excess, present, rfl, rfl⟩
  refine (congrArg (fun shape => Shape.setFunction shape func _) made).trans ?_
  rfl

theorem eraseBB_shape {func : FuncId} (result : store.eraseBB func bb = .ok store') :
    store.blocks bb ≠ none ∧ ∃ function, store.functions func = some function ∧
      bb ∈ function.bbs ∧ store'.shape =
        (store.shape.dropBB bb).setFunction func { function with bbs := function.bbs.erase bb } := by
  rcases Result.bind_eq_ok.mp result with ⟨function, found, continued⟩
  rcases Result.bind_eq_ok.mp continued with ⟨block, foundBlock, continued⟩
  rw [function_eq_ok] at found
  rw [block_eq_ok] at foundBlock
  by_cases member : bb ∈ function.bbs
  · rw [if_pos member] at continued
    cases continued
    refine ⟨by simp [foundBlock], function, found, member, ?_⟩
    have read : ∀ {γ : Type} (read : BasicBlock → γ) (default : γ) (key : BlockId),
        (if key = bb then none else store.blocks key).elim default read =
          if key = bb then default else (store.blocks key).elim default read := by
      intro γ read default key
      split_ifs <;> rfl
    simp only [shape, Shape.dropBB, Shape.setFunction, Shape.mk.injEq]
    refine ⟨?_, ?_, ?_, ?_, ?_, ?_, rfl, rfl⟩
    · funext key
      simp only [instructions_eq foundBlock]
      by_cases inBlock : key ∈ block.instructions <;> simp [inBlock, Store.setFunction]
    · funext key
      rw [Function.update_apply]
      exact read BasicBlock.instructions [] key
    · funext key
      rw [Function.update_apply]
      exact read BasicBlock.succ [] key
    · funext pred succ
      have preds := read BasicBlock.pred [] succ
      have succs := read BasicBlock.succ [] pred
      simp only [excess, Store.preds, Store.succs, Store.setFunction] at preds succs ⊢
      rw [preds, succs]
      by_cases isSucc : succ = bb <;> by_cases isPred : pred = bb <;> simp [isSucc, isPred]
    · funext key
      by_cases same : key = bb <;> simp [same, Store.setFunction]
    · funext key
      by_cases same : key = func <;> simp [same, Store.setFunction]
  · rw [if_neg member] at continued
    cases continued

theorem spliceBBs_shape {func src : FuncId} {pos : BlockId} (different : func ≠ src)
    (result : store.spliceBBs func pos src = .ok store') :
    ∃ source function, store.functions src = some source ∧ store.functions func = some function ∧
      pos ∈ function.bbs ∧ store'.shape =
        (store.shape.setFunction src { source with bbs := [] }).setFunction func
          { function with bbs := function.bbs.takeWhile (· ≠ pos) ++ source.bbs ++
              function.bbs.dropWhile (· ≠ pos) } := by
  rcases Result.bind_eq_ok.mp result with ⟨source, foundSource, continued⟩
  rcases Result.bind_eq_ok.mp continued with ⟨function, found, continued⟩
  rw [function_eq_ok] at foundSource found
  have foundFunction : store.functions func = some function := by
    rw [← found]
    simp [Store.setFunction, different]
  by_cases member : pos ∈ function.bbs
  · rw [if_pos member] at continued
    cases continued
    refine ⟨source, function, foundSource, foundFunction, member, ?_⟩
    rw [setFunction_shape, setFunction_shape]
  · rw [if_neg member] at continued
    cases continued

end Store

end LeechJit.IR
