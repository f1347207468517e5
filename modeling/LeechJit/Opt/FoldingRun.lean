import LeechJit.Opt.FoldingSound

/-! # Constant folding over a whole function -/

namespace LeechJit.Opt.ConstantFolding

open IR

variable {before store store' : Store} {func : Function}

/-! ## What makes an instruction foldable -/

/-- The value of a constant instruction. -/
def constAt (store : Store) (id : InstId) : Option ConstVal :=
  match store.insts id with
  | some { kind := .kConst val, .. } => some val
  | _ => none

theorem tryRetrieveConst_eq_ok {id : InstId} {found : Option ConstVal}
    (result : store.tryRetrieveConst id = .ok found) : found = constAt store id := by
  rcases Result.bind_eq_ok.mp result with ⟨inst, stored, rest⟩
  rw [Store.inst_eq_ok] at stored
  rcases inst with ⟨type, kind, users, bb, inputs⟩
  cases kind <;> cases rest <;> simp [constAt, stored]

theorem getConst_eq_ok {id : InstId} {val : ConstVal} :
    getConst store id = .ok val ↔ constAt store id = some val := by
  cases stored : store.insts id with
  | none => simp [getConst, Store.tryRetrieveConst, Store.inst, constAt, stored]
  | some inst =>
      rcases inst with ⟨type, kind, users, bb, inputs⟩
      cases kind <;>
        simp [getConst, Store.tryRetrieveConst, Store.inst, constAt, stored]

theorem inputAt_mem {inst : Inst} {idx : Nat} {input : InstId}
    (result : inst.inputAt idx = .ok input) : input ∈ inst.inputs := by
  cases found : inst.inputs[idx]? with
  | none => simp [Inst.inputAt, found] at result
  | some other =>
      simp only [Inst.inputAt, found, Except.ok.injEq] at result
      exact List.mem_of_getElem? (result ▸ found)

/-- Every operand of a foldable instruction is a constant. -/
theorem foldable_inputs {id : InstId} {inst : Inst} (stored : store.insts id = some inst)
    (shaped : inst.Shaped) (isFoldable : foldable store id = .ok true) :
    ∀ input ∈ inst.inputs, ∃ val, constAt store input = some val := by
  rcases inst with ⟨type, kind, users, bb, inputs⟩
  cases kind with
  | kBinOp oper =>
      obtain ⟨lhs, rhs, rfl⟩ : ∃ lhs rhs, inputs = [lhs, rhs] := List.length_eq_two.mp shaped
      simp only [foldable, Store.inst, stored, Result.ok_bind, Inst.inputAt,
        List.getElem?_cons_zero, List.getElem?_cons_succ] at isFoldable
      rcases Result.bind_eq_ok.mp isFoldable with ⟨left, leftResult, continued⟩
      have leftEq := tryRetrieveConst_eq_ok leftResult
      cases left with
      | none => cases continued
      | some leftVal =>
          simp only [Option.isNone_some, Bool.false_eq_true, if_false] at continued
          rcases Result.bind_eq_ok.mp continued with ⟨right, rightResult, equal⟩
          have rightEq := tryRetrieveConst_eq_ok rightResult
          cases right with
          | none => cases equal
          | some rightVal =>
              intro input member
              simp only [List.mem_cons, List.not_mem_nil, or_false] at member
              rcases member with rfl | rfl
              · exact ⟨leftVal, leftEq.symm⟩
              · exact ⟨rightVal, rightEq.symm⟩
  | kCast =>
      obtain ⟨src, rfl⟩ : ∃ src, inputs = [src] := List.length_eq_one_iff.mp shaped
      simp only [foldable, Store.inst, stored, Result.ok_bind, Inst.inputAt,
        List.getElem?_cons_zero] at isFoldable
      rcases Result.bind_eq_ok.mp isFoldable with ⟨srcVal, srcResult, equal⟩
      have srcEq := tryRetrieveConst_eq_ok srcResult
      cases srcVal with
      | none => cases equal
      | some val =>
          intro input member
          rw [List.mem_singleton] at member
          exact ⟨val, member ▸ srcEq.symm⟩
  | _ => simp [foldable, Store.inst, stored] at isFoldable

/-- A constant is not foldable. -/
theorem not_foldable_of_const {id : InstId} {val : ConstVal}
    (isConst : constAt store id = some val) : foldable store id ≠ .ok true := by
  unfold constAt at isConst
  split at isConst
  case h_1 stored => simp [foldable, Store.inst, stored]
  case h_2 => cases isConst

/-- The value folded depends on the instruction and its operands' constants only. -/
theorem fold_congr {id : InstId} {inst inst' : Inst} (stored : before.insts id = some inst)
    (stored' : store.insts id = some inst') (kind : inst'.kind = inst.kind)
    (type : inst'.type = inst.type) (inputs : inst'.inputs = inst.inputs)
    (consts : ∀ input ∈ inst.inputs, constAt store input = constAt before input)
    {val : ConstVal} (folded : fold store id = .ok val) : fold before id = .ok val := by
  have same : ∀ input ∈ inst.inputs, ∀ val, getConst store input = .ok val →
      getConst before input = .ok val := by
    intro input member val result
    rw [getConst_eq_ok] at result ⊢
    rw [← consts input member]
    exact result
  rcases inst' with ⟨type', kind', users', bb', inputs'⟩
  simp only at kind type inputs
  subst kind type inputs
  cases at' : inst.kind with
  | kBinOp oper =>
      simp only [fold, Store.inst, stored', stored, Result.ok_bind, at'] at folded ⊢
      rcases Result.bind_eq_ok.mp folded with ⟨lhs, lhsAt, rest⟩
      rcases Result.bind_eq_ok.mp rest with ⟨left, leftConst, rest⟩
      rcases Result.bind_eq_ok.mp rest with ⟨rhs, rhsAt, rest⟩
      rcases Result.bind_eq_ok.mp rest with ⟨right, rightConst, evaluated⟩
      have lhsAt' : inst.inputAt 0 = .ok lhs := lhsAt
      have rhsAt' : inst.inputAt 1 = .ok rhs := rhsAt
      simp only [lhsAt', rhsAt', Result.ok_bind, same lhs (inputAt_mem lhsAt') left leftConst,
        same rhs (inputAt_mem rhsAt') right rightConst]
      exact evaluated
  | kCast =>
      simp only [fold, Store.inst, stored', stored, Result.ok_bind, at'] at folded ⊢
      rcases Result.bind_eq_ok.mp folded with ⟨src, srcAt, rest⟩
      rcases Result.bind_eq_ok.mp rest with ⟨srcVal, srcConst, evaluated⟩
      have srcAt' : inst.inputAt 0 = .ok src := srcAt
      simp only [srcAt', Result.ok_bind, same src (inputAt_mem srcAt') srcVal srcConst]
      exact evaluated
  | _ => simp [fold, Store.inst, stored', at'] at folded

/-! ## Between two folds -/

/-- How the store differs from the original once the instructions in `done` are
folded, the constant in place of `id` being `image id`. -/
structure Folding (before : Store) (func : Function) (image : InstId → InstId)
    (done : List InstId) (store : Store) : Prop where
  nextInst : before.nextInst ≤ store.nextInst
  doneListed : ∀ id ∈ done, id ∈ before.listed func
  doneFoldable : ∀ id ∈ done, foldable before id = .ok true
  imageNew : ∀ id ∈ done, before.nextInst ≤ image id ∧ image id < store.nextInst
  imageKept : ∀ id, id ∉ done → image id = id
  blocks : ∀ bb ∈ func.bbs, ∃ block, before.blocks bb = some block ∧
    store.blocks bb =
      some { block with instructions := block.instructions.map image }
  kept : ∀ id ∈ before.listed func, id ∉ done → ∀ inst, before.insts id = some inst →
    ∃ users, store.insts id =
        some { inst with inputs := inst.inputs.map image, users := users } ∧
      ∀ user, user ∈ users ↔ user ∈ inst.users ∧ user ∉ done
  folded : ∀ id ∈ done, ∃ val users, fold before id = .ok val ∧
    store.insts (image id) = some { type := val.type, kind := .kConst val, users := users }

namespace Folding

variable {image : InstId → InstId} {done : List InstId}

theorem start (consistent : before.Consistent func) :
    Folding before func (fun id => id) [] before where
  nextInst := Nat.le_refl _
  doneListed := by simp
  doneFoldable := by simp
  imageNew := by simp
  imageKept := by simp
  blocks bb member := by
    rcases consistent.blocks bb member with ⟨block, found⟩
    exact ⟨block, found, by simp [found]⟩
  kept id member _ inst found := ⟨inst.users, by simp [found]⟩
  folded := by simp

/-- The operands of a foldable instruction are constants and stay where they are. -/
theorem constAt_eq (folding : Folding before func image done store)
    (consistent : before.Consistent func) {id : InstId} {val : ConstVal}
    (member : id ∈ before.listed func) (isConst : constAt before id = some val) :
    id ∉ done ∧ constAt store id = some val := by
  have notDone : id ∉ done := fun isDone =>
    not_foldable_of_const isConst (folding.doneFoldable id isDone)
  rcases consistent.inst member with ⟨_, _, _, inst, found, _⟩
  rcases folding.kept id member notDone inst found with ⟨users, stored, _⟩
  refine ⟨notDone, ?_⟩
  rcases inst with ⟨type, kind, oldUsers, bb, inputs⟩
  cases kind <;> simp [constAt, found] at isConst
  simp [constAt, stored, isConst]

/-- Replacing the one occurrence of `id` redirects it in the image. -/
theorem replace_map {id new : InstId} {ids : List InstId} (nodup : ids.Nodup)
    (stays : image id = id) (apart : ∀ other ∈ ids, image other = id → other = id) :
    (ids.map image).replace id new = ids.map (Function.update image id new) := by
  induction ids with
  | nil => rfl
  | cons head tail induction =>
      have parts := List.nodup_cons.mp nodup
      rw [List.map_cons, List.map_cons, List.replace_cons]
      by_cases same : head = id
      · subst same
        have others : tail.map image = tail.map (Function.update image head new) := by
          apply List.map_congr_left
          intro other member
          have different : other ≠ head := fun equal => parts.1 (equal ▸ member)
          rw [Function.update_of_ne different]
        simp [stays, others]
      · have different : id ≠ image head := fun equal =>
          same (apart head List.mem_cons_self equal.symm)
        have later := induction parts.2 fun other member =>
          apart other (List.mem_cons_of_mem _ member)
        simp [beq_false_of_ne different, same, later]

section Step

variable {id other : InstId} {inst : Inst}

theorem allocated (folding : Folding before func image done store)
    (consistent : before.Consistent func) (otherMem : other ∈ before.listed func) :
    other < store.nextInst :=
  Nat.lt_of_lt_of_le (consistent.allocated otherMem) folding.nextInst

/-- New constants are no instructions of the original function. -/
theorem image_ne (folding : Folding before func image done store)
    (consistent : before.Consistent func) (isDone : other ∈ done) (member : id ∈ before.listed func) :
    image other ≠ id := by
  intro equal
  have new := (folding.imageNew other isDone).1
  rw [equal] at new
  exact absurd (consistent.allocated member) (Nat.not_lt.mpr new)

theorem apart (folding : Folding before func image done store)
    (consistent : before.Consistent func) (member : id ∈ before.listed func)
    (equal : image other = id) : other = id := by
  by_cases isDone : other ∈ done
  · exact absurd equal (folding.image_ne consistent isDone member)
  · exact (folding.imageKept other isDone).symm.trans equal

/-- What is to be folded uses constants only, and they are where they were. -/
theorem inputs_stay (folding : Folding before func image done store)
    (consistent : before.Consistent func) (member : id ∈ before.listed func)
    (found : before.insts id = some inst) (isFoldable : foldable before id = .ok true) :
    inst.inputs.map image = inst.inputs ∧
      (∀ input ∈ inst.inputs, constAt store input = constAt before input) ∧ id ∉ inst.inputs := by
  have inputConst := foldable_inputs found (consistent.shaped member found) isFoldable
  have inputMem := consistent.inputs_mem member found
  refine ⟨?_, ?_, ?_⟩
  · have stays : ∀ input ∈ inst.inputs, image input = input := by
      intro input isInput
      rcases inputConst input isInput with ⟨val, isConst⟩
      exact folding.imageKept input
        (folding.constAt_eq consistent (inputMem input isInput) isConst).1
    exact (List.map_congr_left stays).trans (List.map_id' inst.inputs)
  · intro input isInput
    rcases inputConst input isInput with ⟨val, isConst⟩
    rw [isConst]
    exact (folding.constAt_eq consistent (inputMem input isInput) isConst).2
  · intro own
    rcases inputConst id own with ⟨val, isConst⟩
    exact not_foldable_of_const isConst isFoldable

/-- The block of what is folded has the constant in its place, and the others stay. -/
theorem block_replaced (folding : Folding before func image done store)
    (consistent : before.Consistent func) (member : id ∈ before.listed func) (notDone : id ∉ done)
    {bb own : BlockId} (bbMem : bb ∈ func.bbs) (ownMem : own ∈ func.bbs)
    (inBlock : id ∈ before.instructions own) {block original : BasicBlock}
    (foundBlock : store.blocks own = some block) (originalAt : before.blocks bb = some original)
    (currentAt : store.blocks bb =
      some { original with instructions := original.instructions.map image }) :
    (if bb = own then
        some { block with instructions := block.instructions.replace id store.nextInst }
      else store.blocks bb) = some { original with
        instructions := original.instructions.map (Function.update image id store.nextInst) } := by
  have originalEq := Store.instructions_eq originalAt
  by_cases same : bb = own
  · subst same
    cases Option.some.inj (foundBlock.symm.trans currentAt)
    simp only [if_true, Option.some.injEq, BasicBlock.mk.injEq, and_true]
    exact replace_map (originalEq ▸ consistent.instructions_nodup bbMem)
      (folding.imageKept id notDone) fun _ _ equal => folding.apart consistent member equal
  · simp only [same, if_false, currentAt, Option.some.injEq, BasicBlock.mk.injEq, and_true]
    apply List.map_congr_left
    intro any anyMem
    have different : any ≠ id := by
      rintro rfl
      exact same (consistent.home_unique bbMem ownMem (originalEq ▸ anyMem) inBlock)
    rw [Function.update_of_ne different]

/-- The users of what is folded use the constant instead. -/
theorem inputs_redirected (folding : Folding before func image done store)
    (consistent : before.Consistent func) (member : id ∈ before.listed func) (notDone : id ∉ done)
    {new : InstId} {users : List InstId} (isUser : other ∈ users ↔ id ∈ inst.inputs) :
    (if other ∈ users then
        (inst.inputs.map image).map fun input => if input = id then new else input
      else inst.inputs.map image) = inst.inputs.map (Function.update image id new) := by
  by_cases uses : id ∈ inst.inputs
  · rw [if_pos (isUser.mpr uses), List.map_map]
    apply List.map_congr_left
    intro input isInput
    by_cases same : input = id
    · simp [same, folding.imageKept id notDone]
    · have different : image input ≠ id := fun equal =>
        same (folding.apart consistent member equal)
      simp [same, different]
  · rw [if_neg (fun isIn => uses (isUser.mp isIn))]
    apply List.map_congr_left
    intro input isInput
    have different : input ≠ id := fun equal => uses (equal ▸ isInput)
    rw [Function.update_of_ne different]

theorem step (folding : Folding before func image done store)
    (consistent : before.Consistent func) {id : InstId} (member : id ∈ before.listed func)
    (notDone : id ∉ done) (isFoldable : foldable before id = .ok true)
    (result : foldInst store id = .ok store') :
    Folding before func (Function.update image id store.nextInst) (id :: done) store' := by
  rcases consistent.inst member with ⟨bb, bbMem, inBlock, inst, found, fits⟩
  rcases folding.kept id member notDone inst found with ⟨users, stored, usersIff⟩
  rcases folding.inputs_stay consistent member found isFoldable with ⟨inputsEq, consts, notSelf⟩
  rw [inputsEq] at stored
  have inputMem := consistent.inputs_mem member found
  have usersMem : ∀ user ∈ users, user ∈ before.listed func := fun user isUser =>
    (fits.users user ((usersIff user).mp isUser).1).1
  rcases foldInst_eq_ok stored (folding.allocated consistent member)
      (fun input isInput => folding.allocated consistent (inputMem input isInput))
      (fun user isUser => folding.allocated consistent (usersMem user isUser)) notSelf result with
    ⟨val, bb', block, foldedNow, home, foundBlock, inBlock', instsEq, blocksEq, nextEq⟩
  have folded : fold before id = .ok val := fold_congr found stored rfl rfl rfl consts foldedNow
  have sameBlock : bb' = bb := Option.some.inj (home.symm.trans fits.home)
  subst sameBlock
  have newNotOld : ∀ other ∈ before.listed func, other ≠ store.nextInst :=
    fun other otherMem => Nat.ne_of_lt (folding.allocated consistent otherMem)
  constructor
  case nextInst =>
    rw [nextEq]
    exact Nat.le_succ_of_le folding.nextInst
  case doneListed =>
    intro other otherMem
    cases otherMem with
    | head => exact member
    | tail _ otherMem => exact folding.doneListed other otherMem
  case doneFoldable =>
    intro other otherMem
    cases otherMem with
    | head => exact isFoldable
    | tail _ otherMem => exact folding.doneFoldable other otherMem
  case imageNew =>
    intro other otherMem
    rw [nextEq]
    by_cases same : other = id
    · subst same
      simpa using folding.nextInst
    · have old := (List.mem_cons.mp otherMem).resolve_left same
      have bounds := folding.imageNew other old
      rw [Function.update_of_ne same]
      exact ⟨bounds.1, Nat.lt_succ_of_lt bounds.2⟩
  case imageKept =>
    intro other notMem
    have parts : other ≠ id ∧ other ∉ done := by simpa using notMem
    rw [Function.update_of_ne parts.1]
    exact folding.imageKept other parts.2
  case blocks =>
    intro other otherMem
    rcases folding.blocks other otherMem with ⟨original, originalAt, currentAt⟩
    refine ⟨original, originalAt, ?_⟩
    rw [blocksEq]
    exact folding.block_replaced consistent member notDone otherMem bbMem inBlock foundBlock
      originalAt currentAt
  case kept =>
    intro other otherMem notMem otherInst otherAt
    have parts : other ≠ id ∧ other ∉ done := by simpa using notMem
    rcases folding.kept other otherMem parts.2 otherInst otherAt with
      ⟨otherUsers, otherStored, otherUsersIff⟩
    have isUser : other ∈ users ↔ id ∈ otherInst.inputs := by
      rw [usersIff, consistent.mem_users_iff member otherMem found otherAt]
      simp [parts.2]
    refine ⟨if other ∈ inst.inputs then otherUsers.filter (· ≠ id) else otherUsers, ?_, ?_⟩
    · rw [← folding.inputs_redirected consistent member notDone isUser, instsEq]
      by_cases isInput : other ∈ inst.inputs <;> by_cases isUser : other ∈ users <;>
        simp [parts.1, newNotOld other otherMem, otherStored, isInput, isUser,
          Inst.dropUser, Inst.replaceInput]
    · intro user
      have uses := consistent.mem_users_iff otherMem member otherAt found
      by_cases isInput : other ∈ inst.inputs
      · simp only [isInput, if_true, List.mem_filter, otherUsersIff, decide_not,
          Bool.not_eq_true', decide_eq_false_iff_not, List.mem_cons, not_or]
        tauto
      · simp only [isInput, if_false, otherUsersIff, List.mem_cons, not_or]
        constructor
        · intro holds
          exact ⟨holds.1, fun equal => isInput (uses.mp (equal ▸ holds.1)), holds.2⟩
        · intro holds
          exact ⟨holds.1, holds.2.2⟩
  case folded =>
    intro other otherMem
    by_cases same : other = id
    · subst same
      refine ⟨val, users, folded, ?_⟩
      rw [instsEq, Function.update_self]
      simp [(newNotOld other member).symm]
    · have old := (List.mem_cons.mp otherMem).resolve_left same
      rcases folding.folded other old with ⟨otherVal, otherUsers, otherFolded, otherStored⟩
      have bounds := folding.imageNew other old
      have notListed : ∀ any ∈ before.listed func, image other ≠ any := fun any anyMem =>
        folding.image_ne consistent old anyMem
      have notInput : image other ∉ inst.inputs := fun isInput =>
        notListed _ (inputMem _ isInput) rfl
      have notUser : image other ∉ users := fun isUser => notListed _ (usersMem _ isUser) rfl
      refine ⟨otherVal, otherUsers, otherFolded, ?_⟩
      rw [instsEq, Function.update_of_ne same]
      simp [notListed id member, Nat.ne_of_lt bounds.2, otherStored, notInput, notUser]

end Step

theorem run (folding : Folding before func image done store)
    (consistent : before.Consistent func) {toFold : List InstId} (nodup : toFold.Nodup)
    (fresh : ∀ id ∈ toFold, id ∉ done)
    (listed : ∀ id ∈ toFold, id ∈ before.listed func ∧ foldable before id = .ok true)
    (result : toFold.foldlM foldInst store = .ok store') :
    ∃ image' done', Folding before func image' done' store' ∧
      ∀ id, id ∈ done' ↔ id ∈ done ∨ id ∈ toFold := by
  induction toFold generalizing image done store with
  | nil =>
      cases result
      exact ⟨image, done, folding, by simp⟩
  | cons id rest induction =>
      rw [List.foldlM_cons] at result
      rcases Result.bind_eq_ok.mp result with ⟨next, first, others⟩
      have parts := List.nodup_cons.mp nodup
      have here := listed id List.mem_cons_self
      have stepped := folding.step consistent here.1 (fresh id List.mem_cons_self) here.2 first
      have restFresh : ∀ other ∈ rest, other ∉ id :: done := by
        intro other member isDone
        cases isDone with
        | head => exact parts.1 member
        | tail _ isDone => exact fresh other (List.mem_cons_of_mem _ member) isDone
      rcases induction stepped parts.2 restFresh
          (fun other member => listed other (List.mem_cons_of_mem _ member)) others with
        ⟨image', done', final, members⟩
      refine ⟨image', done', final, fun other => ?_⟩
      rw [members, List.mem_cons, List.mem_cons]
      tauto

end Folding

/-- A run that returns has folded exactly the foldable instructions. -/
theorem run_folding (consistent : before.Consistent func)
    (returns : run before func = .ok store) :
    ∃ image done, Folding before func image done store ∧
      ∀ id ∈ before.listed func,
        (id ∈ done ∧ foldable before id = .ok true) ∨
          (id ∉ done ∧ foldable before id = .ok false) := by
  rcases Result.bind_eq_ok.mp returns with ⟨toFold, finding, folds⟩
  simp only [findFoldable, Store.makeBBGraph_eq consistent.nonempty, Result.ok_bind] at finding
  rcases Store.collect_eq_ok finding with ⟨rfl, decided⟩
  have perm := (Graph.reversePostOrder_perm consistent.closed consistent.reachable).flatMap_right
    before.instructions
  have nodup := (perm.nodup_iff.mpr consistent.nodup).filter fun id =>
    Store.answer (foldable before id)
  have isListed : ∀ id, id ∈ ((before.cfg func).depthFirstSearchReversePostOrder.flatMap
      before.instructions) ↔ id ∈ before.listed func := fun id => perm.mem_iff
  rcases (Folding.start consistent).run consistent nodup (by simp)
      (fun id member => by
        rw [List.mem_filter, isListed, Store.answer_eq_true] at member
        exact member) folds with ⟨image, done, folding, members⟩
  refine ⟨image, done, folding, fun id member => ?_⟩
  rcases decided id ((isListed id).mpr member) with ⟨holds, decision⟩
  have isDone := members id
  rw [List.mem_filter, isListed, Store.answer_eq_true, decision] at isDone
  cases holds with
  | true => exact .inl ⟨isDone.mpr (.inr ⟨member, rfl⟩), decision⟩
  | false =>
      refine .inr ⟨fun wasDone => ?_, decision⟩
      have either := isDone.mp wasDone
      simp at either

end LeechJit.Opt.ConstantFolding
