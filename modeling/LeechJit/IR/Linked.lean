import Mathlib.Data.Set.Basic
import LeechJit.IR.Consistent
import LeechJit.IR.Relinked

/-! # Rewriting one instruction

A set of instructions is linked when each of them is stored, has its operands in
the set, and has as its users exactly the instructions of the set that use it. A
rewrite takes one instruction out of such a set and may put a new one in its
place; what is left is linked again.
-/

namespace LeechJit.IR

/-- Operations that are folded have the operands they need. -/
def Inst.Formed (inst : Inst) : Prop :=
  match inst.kind with
  | .kBinOp _ => inst.inputs.length = 2
  | .kCast => inst.inputs.length = 1
  | _ => True

theorem Inst.Formed.congr {inst inst' : Inst} (formed : inst.Formed) (kind : inst'.kind = inst.kind)
    (length : inst'.inputs.length = inst.inputs.length) : inst'.Formed := by
  unfold Inst.Formed at formed ⊢
  rw [kind, length]
  exact formed

theorem Inst.Shaped.formed {inst : Inst} (shaped : inst.Shaped) : inst.Formed := by
  unfold Inst.Shaped at shaped
  unfold Inst.Formed
  cases kind : inst.kind <;> simp_all

/-- An operand `old` is now `new`. -/
def redirect (old new input : InstId) : InstId :=
  if input = old then new else input

theorem mem_map_redirect {old new value : InstId} {inputs : List InstId} :
    value ∈ inputs.map (redirect old new) ↔
      (value ∈ inputs ∧ value ≠ old) ∨ (value = new ∧ old ∈ inputs) := by
  simp only [List.mem_map, redirect]
  constructor
  · rintro ⟨input, member, rfl⟩
    by_cases isOld : input = old
    · simp [isOld ▸ member, isOld]
    · simp [isOld, member]
  · rintro (⟨member, different⟩ | ⟨rfl, member⟩)
    · exact ⟨value, member, if_neg different⟩
    · exact ⟨old, member, if_pos rfl⟩

theorem map_redirect_of_not_mem {old new : InstId} {inputs : List InstId} (notMem : old ∉ inputs) :
    inputs.map (redirect old new) = inputs := by
  calc
    inputs.map (redirect old new) = inputs.map id := by
      apply List.map_congr_left
      rintro input member
      have different : input ≠ old := by
        rintro rfl
        exact notMem member
      exact if_neg different
    _ = inputs := List.map_id inputs

namespace Store

def IsBinOp (store : Store) (id : InstId) : Prop :=
  ∃ inst oper, store.insts id = some inst ∧ inst.kind = .kBinOp oper

/-- The instructions that exist. -/
def stored (store : Store) : Set InstId :=
  { id | ∃ inst, store.insts id = some inst }

structure Linked (store : Store) (scope : Set InstId) : Prop where
  stored : ∀ id ∈ scope, ∃ inst, store.insts id = some inst
  allocated : ∀ id ∈ scope, id < store.nextInst
  formed : ∀ id ∈ scope, ∀ inst, store.insts id = some inst → inst.Formed
  inputs : ∀ id ∈ scope, ∀ input ∈ store.inputs id, input ∈ scope
  users : ∀ value ∈ scope, ∀ user,
    user ∈ store.users value ↔ user ∈ scope ∧ value ∈ store.inputs user
  /-- Operands are computed first. -/
  acyclic : ∃ rank : InstId → Nat, ∀ user ∈ scope, store.IsBinOp user →
    ∀ value ∈ store.inputs user, store.IsBinOp value → rank value < rank user

/-- `old` leaves; `new` is the kind of an instruction that takes its place, if any does. -/
def leave (store : Store) (scope : Set InstId) (old : InstId) (new : Option InstKind) :
    Set InstId :=
  { id | (id ∈ scope ∧ id ≠ old) ∨ (new.isSome ∧ id = store.nextInst) }

def standIn (store : Store) (old : InstId) (new : Option InstKind) (ids : List InstId) :
    List InstId :=
  if new.isSome then ids.replace old store.nextInst else ids.erase old

/-- `store'` is `store` after `old` has left; `operands` are what the others use now. -/
structure Rewritten (store : Store) (scope : Set InstId) (old : InstId)
    (new : Option InstKind) (operands : InstId → List InstId) (store' : Store) : Prop where
  oldMem : old ∈ scope
  linked : store'.Linked (store.leave scope old new)
  operands : ∀ id ∈ store.leave scope old new, store'.inputs id = operands id
  kept : ∀ id ∈ scope, id ≠ old → ∀ inst, store.insts id = some inst →
    ∃ inst', store'.insts id = some inst' ∧ inst'.bare = inst.bare
  added : ∀ kind, new = some kind →
    ∃ inst, store'.insts store.nextInst = some inst ∧ inst.kind = kind ∧ inst.bb = none
  gone : ∀ id, store.insts id = none ∨ id = old → ¬ (new.isSome ∧ id = store.nextInst) →
    store'.insts id = none
  nextInst : store.nextInst ≤ store'.nextInst ∧
    (new.isSome → store.nextInst < store'.nextInst)
  placed : ∃ inst bb block, store.insts old = some inst ∧ inst.bb = some bb ∧
    store.blocks bb = some block ∧ old ∈ block.instructions ∧
    store'.blocks = fun key =>
      if key = bb then some { block with instructions := store.standIn old new block.instructions }
      else store.blocks key

namespace Linked

variable {store : Store} {scope : Set InstId} {id value : InstId}

theorem fresh (linked : store.Linked scope) : store.nextInst ∉ scope := fun member =>
  absurd (linked.allocated _ member) (Nat.lt_irrefl _)

/-- No operation is its own operand. -/
theorem not_self (linked : store.Linked scope) (member : id ∈ scope) (binOp : store.IsBinOp id) :
    id ∉ store.inputs id := by
  rcases linked.acyclic with ⟨rank, ordered⟩
  intro isInput
  exact absurd (ordered id member binOp id isInput binOp) (Nat.lt_irrefl _)

theorem insts (linked : store.Linked scope) (member : id ∈ scope) :
    ∃ inst, store.insts id = some inst ∧ inst.inputs = store.inputs id ∧
      inst.users = store.users id := by
  rcases linked.stored id member with ⟨inst, found⟩
  exact ⟨inst, found, (inputs_eq found).symm, (users_eq found).symm⟩

theorem two_inputs (linked : store.Linked scope) (member : id ∈ scope) {inst : Inst}
    (found : store.insts id = some inst) {oper : BinOp.Oper} (kind : inst.kind = .kBinOp oper) :
    ∃ lhs rhs, inst.inputs = [lhs, rhs] := by
  have formed := linked.formed id member inst found
  unfold Inst.Formed at formed
  rw [kind] at formed
  exact List.length_eq_two.mp formed

theorem ne_nextInst (linked : store.Linked scope) (member : id ∈ scope) : id ≠ store.nextInst :=
  Nat.ne_of_lt (linked.allocated id member)

theorem mem_leave {old : InstId} {new : Option InstKind} :
    id ∈ store.leave scope old new ↔
      (id ∈ scope ∧ id ≠ old) ∨ (new.isSome ∧ id = store.nextInst) := Iff.rfl

theorem mem_leave_none {old : InstId} :
    id ∈ store.leave scope old none ↔ id ∈ scope ∧ id ≠ old := by
  simp [leave]

theorem mem_leave_some {old : InstId} {kind : InstKind} :
    id ∈ store.leave scope old (some kind) ↔
      (id ∈ scope ∧ id ≠ old) ∨ id = store.nextInst := by
  simp [leave]

/-- What has to be known of a store to see that it is linked after a rewrite. -/
theorem after {store' : Store} {old : InstId} {new : Option InstKind}
    (linked : store.Linked scope) (operands : InstId → List InstId)
    (kept : ∀ id ∈ scope, id ≠ old → ∀ inst, store.insts id = some inst →
      ∃ inst', store'.insts id = some inst' ∧ inst'.bare = inst.bare)
    (lengths : ∀ id ∈ scope, id ≠ old → (operands id).length = (store.inputs id).length)
    (added : ∀ kind, new = some kind → ∃ inst, store'.insts store.nextInst = some inst ∧
      inst.kind = kind ∧ inst.Formed)
    (nextInst : store.nextInst ≤ store'.nextInst ∧
      (new.isSome → store.nextInst < store'.nextInst))
    (inputs : ∀ id ∈ store.leave scope old new, store'.inputs id = operands id)
    (inputsMem : ∀ id ∈ store.leave scope old new, ∀ input ∈ operands id,
      input ∈ store.leave scope old new)
    (users : ∀ value ∈ store.leave scope old new, ∀ user, user ∈ store'.users value ↔
      user ∈ store.leave scope old new ∧ value ∈ operands user)
    (acyclic : ∃ rank : InstId → Nat, ∀ user ∈ store.leave scope old new,
      store'.IsBinOp user → ∀ value ∈ operands user, store'.IsBinOp value →
        rank value < rank user) :
    store'.Linked (store.leave scope old new) := by
  constructor
  case stored =>
    rintro id (⟨member, different⟩ | ⟨isSome, rfl⟩)
    · rcases linked.stored id member with ⟨inst, found⟩
      rcases kept id member different inst found with ⟨inst', found', -⟩
      exact ⟨inst', found'⟩
    · rcases Option.isSome_iff_exists.mp isSome with ⟨kind, isNew⟩
      rcases added kind isNew with ⟨inst, found, -⟩
      exact ⟨inst, found⟩
  case allocated =>
    rintro id (⟨member, -⟩ | ⟨isSome, rfl⟩)
    · exact Nat.lt_of_lt_of_le (linked.allocated id member) nextInst.1
    · exact nextInst.2 isSome
  case formed =>
    rintro id member' inst' found'
    rcases mem_leave.mp member' with ⟨member, different⟩ | ⟨isSome, rfl⟩
    · rcases linked.stored id member with ⟨inst, found⟩
      rcases kept id member different inst found with ⟨again, foundAgain, bare⟩
      cases Option.some.inj (foundAgain.symm.trans found')
      apply (linked.formed id member inst found).congr (Inst.kind_of_bare bare)
      rw [← inputs_eq found', ← inputs_eq found, inputs id member',
        lengths id member different]
    · rcases Option.isSome_iff_exists.mp isSome with ⟨kind, isNew⟩
      rcases added kind isNew with ⟨inst, found, -, formed⟩
      cases Option.some.inj (found.symm.trans found')
      exact formed
  case inputs =>
    intro id member input isInput
    rw [inputs id member] at isInput
    exact inputsMem id member input isInput
  case users =>
    intro value member user
    rw [users value member]
    constructor
    · rintro ⟨userMem, uses⟩
      exact ⟨userMem, by rwa [inputs user userMem]⟩
    · rintro ⟨userMem, uses⟩
      exact ⟨userMem, by rwa [← inputs user userMem]⟩
  case acyclic =>
    rcases acyclic with ⟨rank, ordered⟩
    refine ⟨rank, ?_⟩
    intro user userMem userBinOp value isInput
    rw [inputs user userMem] at isInput
    exact ordered user userMem userBinOp value isInput

/-- What has to be known of a store to see that it is one after a rewrite. -/
theorem rewritten {store' : Store} {old : InstId} {new : Option InstKind}
    (linked : store.Linked scope) (operands : InstId → List InstId) (oldMem : old ∈ scope)
    (kept : ∀ id ∈ scope, id ≠ old → ∀ inst, store.insts id = some inst →
      ∃ inst', store'.insts id = some inst' ∧ inst'.bare = inst.bare)
    (lengths : ∀ id ∈ scope, id ≠ old → (operands id).length = (store.inputs id).length)
    (added : ∀ kind, new = some kind → ∃ inst, store'.insts store.nextInst = some inst ∧
      inst.kind = kind ∧ inst.bb = none ∧ inst.Formed)
    (gone : ∀ id, store.insts id = none ∨ id = old → ¬ (new.isSome ∧ id = store.nextInst) →
      store'.insts id = none)
    (nextInst : store.nextInst ≤ store'.nextInst ∧
      (new.isSome → store.nextInst < store'.nextInst))
    (placed : ∃ inst bb block, store.insts old = some inst ∧ inst.bb = some bb ∧
      store.blocks bb = some block ∧ old ∈ block.instructions ∧
      store'.blocks = fun key =>
        if key = bb then some { block with instructions := store.standIn old new block.instructions }
        else store.blocks key)
    (inputs : ∀ id ∈ store.leave scope old new, store'.inputs id = operands id)
    (inputsMem : ∀ id ∈ store.leave scope old new, ∀ input ∈ operands id,
      input ∈ store.leave scope old new)
    (users : ∀ value ∈ store.leave scope old new, ∀ user, user ∈ store'.users value ↔
      user ∈ store.leave scope old new ∧ value ∈ operands user)
    (acyclic : ∃ rank : InstId → Nat, ∀ user ∈ store.leave scope old new,
      store'.IsBinOp user → ∀ value ∈ operands user, store'.IsBinOp value →
        rank value < rank user) :
    store.Rewritten scope old new operands store' where
  oldMem := oldMem
  operands := inputs
  kept := kept
  gone := gone
  nextInst := nextInst
  placed := placed
  added kind isNew := by
    rcases added kind isNew with ⟨inst, found, isKind, homeless, -⟩
    exact ⟨inst, found, isKind, homeless⟩
  linked := by
    apply linked.after operands kept lengths _ nextInst inputs inputsMem users acyclic
    intro kind isNew
    rcases added kind isNew with ⟨inst, found, isKind, -, formed⟩
    exact ⟨inst, found, isKind, formed⟩

/-- Operations that are there after a rewrite were operations before. -/
theorem isBinOp_of_kept {store' : Store} {old : InstId} (linked : store.Linked scope)
    (kept : ∀ id ∈ scope, id ≠ old → ∀ inst, store.insts id = some inst →
      ∃ inst', store'.insts id = some inst' ∧ inst'.bare = inst.bare)
    (member : id ∈ scope) (different : id ≠ old) (binOp : store'.IsBinOp id) :
    store.IsBinOp id := by
  rcases binOp with ⟨inst', oper, found', kind⟩
  rcases linked.stored id member with ⟨inst, found⟩
  rcases kept id member different inst found with ⟨again, foundAgain, bare⟩
  cases Option.some.inj (foundAgain.symm.trans found')
  exact ⟨inst, oper, found, (Inst.kind_of_bare bare).symm.trans kind⟩

end Linked

theorem eraseInst_eq_ok {store store' : Store} {bb : BlockId} {id : InstId}
    (result : store.eraseInst bb id = .ok store') :
    ∃ block, store.blocks bb = some block ∧ id ∈ block.instructions ∧
      store'.insts = (fun key => if key = id then none else store.insts key) ∧
      store'.blocks = (fun key => if key = bb then
        some { block with instructions := block.instructions.erase id } else store.blocks key) ∧
      store'.functions = store.functions ∧ store'.nextInst = store.nextInst ∧
      store'.nextBlock = store.nextBlock := by
  rcases Result.bind_eq_ok.mp result with ⟨block, found, result⟩
  by_cases member : id ∈ block.instructions
  · simp only [member, if_true] at result
    cases result
    exact ⟨block, block_eq_ok.mp found, member, rfl, rfl, rfl, rfl, rfl⟩
  · simp [member] at result

theorem removeInst_eq_ok {store store' : Store} {id : InstId}
    (result : removeInst store id = .ok store') :
    ∃ middle inst bb, store.clearInputs id = .ok middle ∧ middle.insts id = some inst ∧
      inst.bb = some bb ∧ middle.eraseInst bb id = .ok store' := by
  rcases Result.bind_eq_ok.mp result with ⟨middle, clearing, result⟩
  rcases Result.bind_eq_ok.mp result with ⟨inst, found, result⟩
  rcases Result.bind_eq_ok.mp result with ⟨bb, home, erasing⟩
  refine ⟨middle, inst, bb, clearing, inst_eq_ok.mp found, ?_, erasing⟩
  cases at' : inst.bb <;> simp [Inst.getBB, at'] at home ⊢
  exact home

end Store

end LeechJit.IR
