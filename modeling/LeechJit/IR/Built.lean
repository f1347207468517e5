import LeechJit.Foundation.StepRuns
import LeechJit.IR.Blocks
import LeechJit.IR.Linked

/-! # Functions as the constructors build them

In a store that is built step by step, users sets are exact, the operands of an
operation are older than the operation, and every phi holds its operands twice.
-/

namespace LeechJit.IR

namespace Store

/-! ## Links change no instruction -/

/-- Only links between blocks differ. -/
structure SameInsts (store store' : Store) : Prop where
  insts : store'.insts = store.insts
  instructions : ∀ bb, store'.instructions bb = store.instructions bb
  blocks : ∀ bb, store'.blocks bb = none ↔ store.blocks bb = none
  functions : store'.functions = store.functions
  nextInst : store'.nextInst = store.nextInst
  nextBlock : store'.nextBlock = store.nextBlock

namespace SameInsts

variable {store middle store' : Store}

theorem refl (store : Store) : SameInsts store store :=
  ⟨rfl, fun _ => rfl, fun _ => .rfl, rfl, rfl, rfl⟩

theorem trans (first : SameInsts store middle) (second : SameInsts middle store') :
    SameInsts store store' where
  insts := second.insts.trans first.insts
  instructions bb := (second.instructions bb).trans (first.instructions bb)
  blocks bb := (second.blocks bb).trans (first.blocks bb)
  functions := second.functions.trans first.functions
  nextInst := second.nextInst.trans first.nextInst
  nextBlock := second.nextBlock.trans first.nextBlock

theorem setBlock {bb : BlockId} {block changed : BasicBlock} (found : store.blocks bb = some block)
    (same : changed.instructions = block.instructions) :
    SameInsts store (store.setBlock bb changed) where
  insts := rfl
  instructions other := by
    by_cases isBlock : other = bb
    · simp [Store.instructions, Store.setBlock, isBlock, found, same]
    · simp [Store.instructions, Store.setBlock, isBlock]
  blocks other := by
    by_cases isBlock : other = bb
    · simp [Store.setBlock, isBlock, found]
    · simp [Store.setBlock, isBlock]
  functions := rfl
  nextInst := rfl
  nextBlock := rfl

theorem linkBBs {pred succ : BlockId} (result : store.linkBBs pred succ = .ok store') :
    SameInsts store store' := by
  rcases Result.bind_eq_ok.mp result with ⟨block, found, continued⟩
  rcases Result.bind_eq_ok.mp continued with ⟨other, foundOther, stored⟩
  cases stored
  apply trans _ (setBlock (block_eq_ok.mp foundOther) _)
  · apply setBlock (block_eq_ok.mp found)
    rfl
  · rfl

theorem unlinkBBs {pred succ : BlockId} (result : store.unlinkBBs pred succ = .ok store') :
    SameInsts store store' := by
  rcases Result.bind_eq_ok.mp result with ⟨block, found, continued⟩
  rcases Result.bind_eq_ok.mp continued with ⟨-, -, continued⟩
  rcases Result.bind_eq_ok.mp continued with ⟨other, foundOther, continued⟩
  rcases Result.bind_eq_ok.mp continued with ⟨-, -, stored⟩
  cases stored
  apply trans _ (setBlock (block_eq_ok.mp foundOther) _)
  · apply setBlock (block_eq_ok.mp found)
    rfl
  · rfl

theorem unlinkSuccs {bb : BlockId} {slots : List BlockId} {idx rounds : Nat}
    (result : unlinkSuccs bb slots idx rounds store = .ok store') : SameInsts store store' := by
  induction rounds generalizing slots idx store with
  | zero =>
      cases result
      exact refl _
  | succ rounds induction =>
      rw [Store.unlinkSuccs] at result
      cases slot : slots[idx]? with
      | none => simp [slot] at result
      | some succ =>
          simp only [slot] at result
          rcases Result.bind_eq_ok.mp result with ⟨next, unlinking, continued⟩
          rcases Result.bind_eq_ok.mp continued with ⟨block, -, later⟩
          exact (unlinkBBs unlinking).trans (induction later)

theorem linkLast {bb : BlockId} {last : InstId} (result : store.linkLast bb last = .ok store') :
    SameInsts store store' := by
  rcases Result.bind_eq_ok.mp result with ⟨inst, -, linking⟩
  rcases inst with ⟨type, kind, users, home, inputs⟩
  cases kind with
  | kIf trueBB falseBB =>
      rcases Result.bind_eq_ok.mp linking with ⟨middle, first, second⟩
      exact (linkBBs first).trans (linkBBs second)
  | kJump target => exact linkBBs linking
  | _ =>
      cases linking
      exact refl _

theorem updateLinks {bb : BlockId} (result : store.updateLinks bb = .ok store') :
    SameInsts store store' := by
  rcases Result.bind_eq_ok.mp result with ⟨block, -, continued⟩
  rcases Result.bind_eq_ok.mp continued with ⟨middle, unlinking, continued⟩
  rcases Result.bind_eq_ok.mp continued with ⟨emptied, -, continued⟩
  rcases Result.bind_eq_ok.mp continued with ⟨-, -, linking⟩
  apply (unlinkSuccs unlinking).trans
  cases last : emptied.instructions.getLast? with
  | none =>
      rw [last] at linking
      cases linking
      exact refl _
  | some inst =>
      rw [last] at linking
      exact linkLast linking

end SameInsts

/-! ## Building -/

def empty : Store where
  insts _ := none
  blocks _ := none
  functions _ := none
  nextInst := 0
  nextBlock := 0

def kindOf (store : Store) (id : InstId) : Option InstKind :=
  (store.insts id).map Inst.kind

theorem kindOf_eq {store : Store} {id : InstId} {inst : Inst} (found : store.insts id = some inst) :
    store.kindOf id = some inst.kind := by
  rw [kindOf, found, Option.map_some]

theorem Relinked.kindOf {store store' : Store} (relinked : Relinked store store') (id : InstId) :
    store'.kindOf id = store.kindOf id := by
  cases found : store.insts id with
  | none => rw [Store.kindOf, Store.kindOf, found, relinked.insts_none.mpr found]
  | some inst => rw [kindOf_eq found, kindOf_eq (relinked.insts found)]

/-- What building a function keeps up. -/
structure Tied (store : Store) : Prop where
  allocated : ∀ id, store.kindOf id ≠ none → id < store.nextInst
  formed : ∀ id kind, store.kindOf id = some kind →
    ({ kind := kind, inputs := store.inputs id } : Inst).Formed
  inputs : ∀ id, ∀ input ∈ store.inputs id, store.kindOf input ≠ none
  users : ∀ value user, user ∈ store.users value ↔ value ∈ store.inputs user
  older : ∀ id oper, store.kindOf id = some (.kBinOp oper) → ∀ input ∈ store.inputs id, input < id
  phis : ∀ id vars, store.kindOf id = some (.kPhi vars) →
    store.inputs id = vars.map PhiEntry.val

/-- Every phi of the function names the same values in its entries and in its operands. -/
def PhisAgree (store : Store) (func : Function) : Prop :=
  ∀ id ∈ store.listed func, ∀ inst vars, store.insts id = some inst → inst.kind = .kPhi vars →
    inst.inputs = vars.map PhiEntry.val

theorem kindOf_ne_none {store : Store} {id : InstId} :
    store.kindOf id ≠ none ↔ ∃ inst, store.insts id = some inst := by
  cases found : store.insts id <;> simp [kindOf, found]

theorem kindOf_of_inputs {store : Store} {id input : InstId} (member : input ∈ store.inputs id) :
    store.kindOf id ≠ none := by
  rw [kindOf_ne_none]
  cases found : store.insts id with
  | none => simp [inputs, found] at member
  | some inst => exact ⟨inst, rfl⟩

namespace Tied

variable {store store' : Store}

theorem phisAgree (tied : store.Tied) (func : Function) : store.PhisAgree func := by
  intro id _ inst vars found kind
  rw [← inputs_eq found]
  exact tied.phis id vars (by rw [kindOf_eq found, kind])

theorem linked (tied : store.Tied) : store.Linked store.stored where
  stored id member := member
  allocated id member := tied.allocated id (kindOf_ne_none.mpr member)
  formed id member inst found := by
    exact (tied.formed id inst.kind (kindOf_eq found)).congr rfl (by rw [inputs_eq found])
  inputs id _ input isInput := kindOf_ne_none.mp (tied.inputs id input isInput)
  users value _ user := by
    rw [tied.users]
    constructor
    · intro uses
      exact ⟨kindOf_ne_none.mp (kindOf_of_inputs uses), uses⟩
    · exact And.right
  acyclic := by
    refine ⟨id, ?_⟩
    rintro user - ⟨inst, oper, found, kind⟩ value isInput -
    exact tied.older user oper (by rw [kindOf_eq found, kind]) value isInput

theorem empty : Store.empty.Tied := by
  constructor <;> simp [Store.empty, kindOf, Store.inputs, Store.users]

/-- Only kinds, operands and users matter. -/
theorem congr (tied : store.Tied) (kinds : ∀ id, store'.kindOf id = store.kindOf id)
    (inputs : ∀ id, store'.inputs id = store.inputs id)
    (users : ∀ id, store'.users id = store.users id)
    (nextInst : store'.nextInst = store.nextInst) : store'.Tied where
  allocated id := by
    rw [kinds, nextInst]
    exact tied.allocated id
  formed id kind := by
    rw [kinds, inputs]
    exact tied.formed id kind
  inputs id input := by
    rw [inputs, kinds]
    exact tied.inputs id input
  users value user := by
    rw [users, inputs]
    exact tied.users value user
  older id oper := by
    rw [kinds, inputs]
    exact tied.older id oper
  phis id vars := by
    rw [kinds, inputs]
    exact tied.phis id vars

theorem of_insts (tied : store.Tied) (insts : store'.insts = store.insts)
    (nextInst : store'.nextInst = store.nextInst) : store'.Tied := by
  apply tied.congr _ _ _ nextInst
  · intro id
    rw [kindOf, insts, kindOf]
  · intro id
    rw [Store.inputs, insts, Store.inputs]
  · intro id
    rw [Store.users, insts, Store.users]

theorem construct {new : Construct} {id : InstId} (tied : store.Tied)
    (result : store.construct new = .ok (id, store')) : store'.Tied := by
  rcases construct_eq_ok result with ⟨rfl, operands, type, -, relinked, inputs, users⟩
  have fresh : store.kindOf store.nextInst = none := by
    by_contra some
    exact Nat.lt_irrefl _ (tied.allocated _ some)
  have unused : ∀ key, store.nextInst ∉ store.inputs key := fun key uses =>
    tied.inputs key _ uses fresh
  have kinds : ∀ key, store'.kindOf key =
      if key = store.nextInst then some new.kind else store.kindOf key := by
    intro key
    rw [relinked.kindOf]
    by_cases isNew : key = store.nextInst <;> simp [kindOf, newInst, setInst, isNew]
  have nextInst : store'.nextInst = store.nextInst + 1 := by
    rw [relinked.nextInst]
    rfl
  have older : ∀ val ∈ new.inputs, val < store.nextInst := fun val member =>
    tied.allocated val (kindOf_ne_none.mpr (operands val member))
  constructor
  case allocated =>
    intro key
    rw [kinds, nextInst]
    by_cases isNew : key = store.nextInst
    · simp [isNew]
    · rw [if_neg isNew]
      exact fun some => Nat.lt_succ_of_lt (tied.allocated key some)
  case formed =>
    intro key kind
    rw [kinds, inputs]
    by_cases isNew : key = store.nextInst
    · rw [if_pos isNew, if_pos isNew, Option.some.injEq]
      rintro rfl
      cases new <;> simp [Construct.kind, Construct.inputs, Inst.Formed]
    · rw [if_neg isNew, if_neg isNew]
      exact tied.formed key kind
  case inputs =>
    intro key input
    rw [inputs, kinds]
    by_cases isNew : key = store.nextInst
    · rw [if_pos isNew]
      intro member
      rw [if_neg (Nat.ne_of_lt (older input member))]
      exact kindOf_ne_none.mpr (operands input member)
    · rw [if_neg isNew]
      intro member
      by_cases inputNew : input = store.nextInst
      · rw [if_pos inputNew]
        simp
      · rw [if_neg inputNew]
        exact tied.inputs key input member
  case users =>
    intro value user
    rw [users, inputs, tied.users]
    by_cases isNew : user = store.nextInst
    · have noInputs : value ∉ store.inputs store.nextInst := fun member =>
        absurd fresh (kindOf_of_inputs member)
      simp [isNew, noInputs]
    · rw [if_neg isNew]
      constructor
      · rintro (⟨-, member⟩ | ⟨-, isNew'⟩)
        · exact member
        · exact absurd isNew' isNew
      · intro member
        have old : value ≠ store.nextInst := by
          rintro rfl
          exact unused user member
        exact .inl ⟨old, member⟩
  case older =>
    intro key oper
    rw [kinds, inputs]
    by_cases isNew : key = store.nextInst
    · rw [if_pos isNew, isNew, if_pos rfl]
      exact fun _ => older
    · rw [if_neg isNew, if_neg isNew]
      exact tied.older key oper
  case phis =>
    intro key vars
    rw [kinds, inputs]
    by_cases isNew : key = store.nextInst
    · rw [if_pos isNew, if_pos isNew, Option.some.injEq]
      intro kind
      cases new with
      | phi type =>
          cases kind
          rfl
      | _ => cases kind
    · rw [if_neg isNew, if_neg isNew]
      exact tied.phis key vars

/-- One more operand, of a phi or a call, and the entry of the phi with it. -/
theorem addInput {middle : Store} {id val : InstId} {kind : InstKind} (kind' : InstKind)
    (tied : store.Tied)
    (isKind : store.kindOf id = some kind)
    (kinds : ∀ key, middle.kindOf key = if key = id then some kind' else store.kindOf key)
    (sameInputs : ∀ key, middle.inputs key = store.inputs key)
    (sameUsers : ∀ key, middle.users key = store.users key)
    (nextInst : middle.nextInst = store.nextInst)
    (result : middle.addInput id val = .ok store') (existing : store.kindOf val ≠ none)
    (formed : ∀ inputs, ({ kind := kind', inputs := inputs } : Inst).Formed)
    (notOp : ∀ oper, kind' ≠ .kBinOp oper)
    (phis : ∀ vars', kind' = .kPhi vars' → ∃ vars bb, kind = .kPhi vars ∧
      vars' = vars ++ [⟨val, bb⟩]) : store'.Tied := by
  rcases addInput_eq_ok result with ⟨relinked, inputs, users⟩
  have kindsAfter : ∀ key, store'.kindOf key = if key = id then some kind' else store.kindOf key :=
    fun key => (relinked.kindOf key).trans (kinds key)
  have inputsAfter : ∀ key, store'.inputs key =
      if key = id then store.inputs id ++ [val] else store.inputs key := by
    intro key
    rw [inputs, sameInputs, sameInputs]
  have some' : ∀ key, store.kindOf key ≠ none → store'.kindOf key ≠ none := by
    intro key some
    rw [kindsAfter]
    by_cases isId : key = id
    · simp [isId]
    · rw [if_neg isId]
      exact some
  constructor
  case allocated =>
    intro key
    rw [kindsAfter, relinked.nextInst, nextInst]
    by_cases isId : key = id
    · intro _
      apply tied.allocated
      rw [isId, isKind]
      simp
    · rw [if_neg isId]
      exact tied.allocated key
  case formed =>
    intro key other
    rw [kindsAfter, inputsAfter]
    by_cases isId : key = id
    · rw [if_pos isId, if_pos isId, Option.some.injEq]
      rintro rfl
      exact formed _
    · rw [if_neg isId, if_neg isId]
      exact tied.formed key other
  case inputs =>
    intro key input
    rw [inputsAfter]
    by_cases isId : key = id
    · rw [if_pos isId, List.mem_append, List.mem_singleton]
      rintro (member | rfl)
      · exact some' input (tied.inputs id input member)
      · exact some' input existing
    · rw [if_neg isId]
      exact fun member => some' input (tied.inputs key input member)
  case users =>
    intro value user
    rw [users, sameUsers, tied.users, inputsAfter]
    by_cases isId : user = id
    · simp [isId]
    · simp [isId]
  case older =>
    intro key oper
    rw [kindsAfter, inputsAfter]
    by_cases isId : key = id
    · rw [if_pos isId, Option.some.injEq]
      exact fun isOp => absurd isOp (notOp oper)
    · rw [if_neg isId, if_neg isId]
      exact tied.older key oper
  case phis =>
    intro key vars'
    rw [kindsAfter, inputsAfter]
    by_cases isId : key = id
    · rw [if_pos isId, if_pos isId, Option.some.injEq]
      intro isPhi
      rcases phis vars' isPhi with ⟨vars, bb, wasPhi, rfl⟩
      rw [tied.phis id vars (isKind.trans (congrArg some wasPhi))]
      simp
    · rw [if_neg isId, if_neg isId]
      exact tied.phis key vars'

theorem addNode {phi val : InstId} {bb : BlockId} (tied : store.Tied)
    (result : store.addNode phi val bb = .ok store') : store'.Tied := by
  rcases Result.bind_eq_ok.mp result with ⟨inst, found, adding⟩
  rw [inst_eq_ok] at found
  rcases inst with ⟨type, kind, users, home, inputs⟩
  cases kind with
  | kPhi vars =>
      simp only at adding
      rcases Result.bind_eq_ok.mp adding with ⟨added, addingUser, -⟩
      rcases Result.bind_eq_ok.mp addingUser with ⟨value, valueFound, -⟩
      have existing : store.kindOf val ≠ none := by
        rw [inst_eq_ok] at valueFound
        rw [kindOf_ne_none]
        by_cases isPhi : val = phi
        · exact ⟨_, isPhi ▸ found⟩
        · exact ⟨value, by simpa [setInst, isPhi] using valueFound⟩
      apply addInput (.kPhi (vars ++ [⟨val, bb⟩])) tied (kindOf_eq found) _ _ _ _ adding existing
      · exact fun _ => trivial
      · intro oper isOp
        cases isOp
      · intro vars' isPhi
        cases isPhi
        exact ⟨vars, bb, rfl, rfl⟩
      · intro key
        by_cases isPhi : key = phi <;> simp [kindOf, setInst, isPhi]
      · intro key
        rw [setInst_inputs]
        by_cases isPhi : key = phi
        · rw [if_pos isPhi, isPhi, inputs_eq found]
        · rw [if_neg isPhi]
      · intro key
        rw [setInst_users]
        by_cases isPhi : key = phi
        · rw [if_pos isPhi, isPhi, users_eq found]
        · rw [if_neg isPhi]
      · rfl
  | _ => cases adding

theorem appendArg {call arg : InstId} (tied : store.Tied)
    (result : store.appendArg call arg = .ok store') : store'.Tied := by
  rcases Result.bind_eq_ok.mp result with ⟨inst, found, adding⟩
  rw [inst_eq_ok] at found
  rcases inst with ⟨type, kind, users, home, inputs⟩
  cases kind with
  | kCall callee =>
      rcases Result.bind_eq_ok.mp adding with ⟨added, addingUser, -⟩
      rcases Result.bind_eq_ok.mp addingUser with ⟨value, valueFound, -⟩
      have existing : store.kindOf arg ≠ none :=
        kindOf_ne_none.mpr ⟨value, inst_eq_ok.mp valueFound⟩
      apply addInput (.kCall callee) tied (kindOf_eq found) _ _ _ _ adding existing
      · exact fun _ => trivial
      · intro oper isOp
        cases isOp
      · intro vars' isPhi
        cases isPhi
      · intro key
        by_cases isCall : key = call
        · rw [if_pos isCall, isCall, kindOf_eq found]
        · rw [if_neg isCall]
      · exact fun _ => rfl
      · exact fun _ => rfl
      · rfl
  | _ => cases adding

theorem setBB {bb : BlockId} {id : InstId} (tied : store.Tied)
    (result : store.setBB bb id = .ok store') : store'.Tied := by
  rcases Result.bind_eq_ok.mp result with ⟨inst, found, stored⟩
  rw [inst_eq_ok] at found
  cases stored
  apply tied.congr
  · intro key
    by_cases isId : key = id
    · simp [kindOf, setInst, isId, found]
    · simp [kindOf, setInst, isId]
  · intro key
    rw [setInst_inputs]
    by_cases isId : key = id
    · rw [if_pos isId, isId, inputs_eq found]
    · rw [if_neg isId]
  · intro key
    rw [setInst_users]
    by_cases isId : key = id
    · rw [if_pos isId, isId, users_eq found]
    · rw [if_neg isId]
  · rfl

end Tied

/-- A step of building functions. -/
inductive BuildStep where
  | newFunction (func : FuncId) (resType : ValueType) (args : List ValueType)
  | appendBB (func : FuncId)
  | pushInstFront (bb : BlockId) (new : Construct)
  | pushInstBack (bb : BlockId) (new : Construct)
  | addNode (phi val : InstId) (bb : BlockId)
  | appendArg (call arg : InstId)
  deriving DecidableEq, Repr

/-- The function goes under a free key. -/
def newFunction (store : Store) (func : FuncId) (resType : ValueType) (args : List ValueType) :
    Result Store :=
  match store.functions func with
  | none => .ok (store.setFunction func { resType := resType, args := args })
  | some _ => .error .badPointer

def BuildStep.apply (store : Store) : BuildStep → Result Store
  | newFunction func resType args => store.newFunction func resType args
  | appendBB func => Prod.snd <$> store.appendBB func
  | pushInstFront bb new => Prod.snd <$> store.pushInstFront bb new
  | pushInstBack bb new => Prod.snd <$> store.pushInstBack bb new
  | addNode phi val bb => store.addNode phi val bb
  | appendArg call arg => store.appendArg call arg

/-- The store after steps that have all returned. -/
def Built (store : Store) : Prop :=
  ∃ steps, List.foldlM BuildStep.apply Store.empty steps = .ok store

/-- What holds of the empty store and is kept by every step holds of what is built. -/
theorem Built.induct {store : Store} (invariant : Store → Prop) (start : invariant empty)
    (keeps : ∀ store (step : BuildStep) after, invariant store → step.apply store = .ok after →
      invariant after) (built : store.Built) : invariant store := by
  rcases built with ⟨steps, result⟩
  exact StepRuns.keeps_run invariant (fun state step _ => keeps state step) start result

/-- A property of the instructions is kept by every step when the operations that change
instructions keep it. -/
theorem BuildStep.keeps (invariant : Store → Prop)
    (of_insts : ∀ {store store'}, invariant store → store'.insts = store.insts →
      store'.nextInst = store.nextInst → invariant store')
    (construct : ∀ {store store' new id}, invariant store →
      store.construct new = .ok (id, store') → invariant store')
    (setBB : ∀ {store store' bb id}, invariant store →
      store.setBB bb id = .ok store' → invariant store')
    (addNode : ∀ {store store' phi val bb}, invariant store →
      store.addNode phi val bb = .ok store' → invariant store')
    (appendArg : ∀ {store store' call arg}, invariant store →
      store.appendArg call arg = .ok store' → invariant store')
    {store store' : Store} {step : BuildStep} (holds : invariant store)
    (result : step.apply store = .ok store') : invariant store' := by
  cases step with
  | newFunction func resType args =>
      simp only [BuildStep.apply, Store.newFunction] at result
      split at result
      · cases result
        exact of_insts holds rfl rfl
      · cases result
  | appendBB func =>
      rcases Result.map_eq_ok.mp result with ⟨⟨bb, made⟩, making, rfl⟩
      rcases Result.bind_eq_ok.mp making with ⟨function, -, continued⟩
      rcases Result.bind_eq_ok.mp continued with ⟨idx, -, equal⟩
      cases equal
      exact of_insts holds rfl rfl
  | pushInstFront bb new =>
      rcases Result.map_eq_ok.mp result with ⟨⟨id, made⟩, making, rfl⟩
      rcases Result.bind_eq_ok.mp making with ⟨⟨key, fresh⟩, constructing, continued⟩
      rcases Result.bind_eq_ok.mp continued with ⟨block, -, continued⟩
      rcases Result.bind_eq_ok.mp continued with ⟨placed, placing, equal⟩
      cases equal
      apply setBB _ placing
      exact of_insts (construct holds constructing) rfl rfl
  | pushInstBack bb new =>
      rcases Result.map_eq_ok.mp result with ⟨⟨id, made⟩, making, rfl⟩
      rcases Result.bind_eq_ok.mp making with ⟨⟨key, fresh⟩, constructing, continued⟩
      rcases Result.bind_eq_ok.mp continued with ⟨block, -, continued⟩
      rcases Result.bind_eq_ok.mp continued with ⟨placed, placing, continued⟩
      rcases Result.bind_eq_ok.mp continued with ⟨linked, linking, equal⟩
      cases equal
      have same := SameInsts.updateLinks linking
      apply of_insts _ same.insts same.nextInst
      apply setBB _ placing
      exact of_insts (construct holds constructing) rfl rfl
  | addNode phi val bb => exact addNode holds result
  | appendArg call arg => exact appendArg holds result

theorem Built.tied {store : Store} (built : store.Built) : store.Tied :=
  built.induct Tied Tied.empty fun _ _ _ => BuildStep.keeps Tied Tied.of_insts Tied.construct
    Tied.setBB Tied.addNode Tied.appendArg

end Store

end LeechJit.IR
