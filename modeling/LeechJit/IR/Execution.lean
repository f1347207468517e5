import Mathlib.Logic.Function.Basic
import LeechJit.Foundation.Steps
import LeechJit.IR.WellFormed

/-! # Executing a function

The instructions of a block are executed in order. A phi takes the operand of the
predecessor the block was entered from, with the value it had at that time, so that all
phis of a block are evaluated together. What an operation yields, and what a call does to
the world, is a parameter; an operation that yields nothing ends the execution without a
result.
-/

namespace LeechJit.IR

/-- What operators, checks, casts, conditions and calls mean. -/
structure Meaning (World : Type) where
  binOp : BinOp.Oper → ConstVal → ConstVal → Option ConstVal
  unaryOp : UnaryOp.Oper → ConstVal → Option ConstVal
  cast : ValueType → ConstVal → Option ConstVal
  isTrue : ConstVal → Bool
  call : FuncId → List ConstVal → World → Option (Option ConstVal × World)

abbrev Values := InstId → Option ConstVal

/-- A point of an execution: `rest` is what is left of block `bb`. -/
structure Config (World : Type) where
  pred : Option BlockId
  bb : BlockId
  /-- The values when the block was entered. -/
  entered : Values
  values : Values
  rest : List InstId
  world : World

/-- What an instruction does with its operands. -/
inductive Action (World : Type) where
  | value (val : Option ConstVal) (world : World)
  | jump (target : BlockId)
  | ret (val : Option ConstVal)

variable {World : Type}

namespace Meaning

def operand (operands : List (Option ConstVal)) (idx : Nat) : Option ConstVal :=
  operands[idx]?.join

def act (meaning : Meaning World) (args : List ConstVal) (type : ValueType) (kind : InstKind)
    (operands : List (Option ConstVal)) (world : World) : Option (Action World) :=
  match kind with
  | .kConst val => some (.value (some val) world)
  | .kParam idx => do
      let val ← args[idx]?
      return .value (some val) world
  | .kBinOp oper => do
      let lhs ← operand operands 0
      let rhs ← operand operands 1
      let val ← meaning.binOp oper lhs rhs
      return .value (some val) world
  | .kUnaryOp oper => do
      let val ← meaning.unaryOp oper (← operand operands 0)
      return .value (some val) world
  | .kCast => do
      let val ← meaning.cast type (← operand operands 0)
      return .value (some val) world
  | .kPhi _ => do
      let val ← operand operands 0
      return .value (some val) world
  | .kCall callee => do
      let vals ← operands.mapM id
      let returned ← meaning.call callee vals world
      return .value returned.1 returned.2
  | .kIf trueBB falseBB => do
      let cond ← operand operands 0
      return .jump (if meaning.isTrue cond then trueBB else falseBB)
  | .kJump target => some (.jump target)
  | .kRet =>
      match operands with
      | [] => some (.ret none)
      | val :: _ => val.map fun val => .ret (some val)

end Meaning

/-- The values of the operands, for a phi of those that go with the predecessor. -/
def Inst.reads (inst : Inst) (config : Config World) : List (Option ConstVal) :=
  match inst.kind with
  | .kPhi vars =>
      ((inst.inputs.zip vars).filter fun use => decide (some use.2.bb = config.pred)).map
        fun use => config.entered use.1
  | _ => inst.inputs.map config.values

namespace Store

def enter (store : Store) (target : BlockId) (config : Config World) : Config World where
  pred := some config.bb
  bb := target
  entered := config.values
  values := config.values
  rest := store.instructions target
  world := config.world

def perform (store : Store) (config : Config World) (id : InstId) (rest : List InstId) :
    Action World → Outcome (Config World) (Option ConstVal × World)
  | .value val world =>
      .goes { config with values := Function.update config.values id val, rest, world }
  | .jump target => .goes (store.enter target config)
  | .ret val => .returns (val, config.world)

def step (store : Store) (meaning : Meaning World) (args : List ConstVal)
    (config : Config World) : Option (Outcome (Config World) (Option ConstVal × World)) :=
  match config.rest with
  | [] => none
  | id :: rest => do
      let inst ← store.insts id
      let action ← meaning.act args inst.type inst.kind (inst.reads config) config.world
      return store.perform config id rest action

def start (store : Store) (func : Function) (world : World) : Config World where
  pred := none
  bb := root func
  entered := fun _ => none
  values := fun _ => none
  rest := store.instructions (root func)
  world

/-- The execution of the function ends, with this result in this world. -/
def Results (store : Store) (func : Function) (meaning : Meaning World) (args : List ConstVal)
    (world : World) (result : Option ConstVal × World) : Prop :=
  Steps.Completes (store.step meaning args) (store.start func world) result

end Store

/-! ## Single steps -/

namespace Meaning

variable {meaning : Meaning World} {args : List ConstVal} {type : ValueType} {kind : InstKind}
  {operands : List (Option ConstVal)} {world : World}

/-- A jump goes to a target of its branch. -/
theorem target_mem {target : BlockId}
    (jumps : meaning.act args type kind operands world = some (.jump target)) :
    target ∈ kind.targets := by
  cases kind with
  | kIf trueBB falseBB =>
      simp only [act, Option.bind_eq_bind, Option.bind_eq_some_iff] at jumps
      rcases jumps with ⟨cond, -, equal⟩
      cases equal
      cases meaning.isTrue cond <;> simp [InstKind.targets]
  | kJump own =>
      cases jumps
      simp [InstKind.targets]
  | kRet =>
      cases operands with
      | nil => cases jumps
      | cons val rest => cases val <;> cases jumps
  | _ => simp [act, Option.bind_eq_some_iff] at jumps

/-- An operation yields the value of its operator. -/
theorem act_binOp {oper : BinOp.Oper} {action : Action World}
    (acts : meaning.act args type (.kBinOp oper) operands world = some action) :
    ∃ lhs rhs val, operands[0]? = some (some lhs) ∧ operands[1]? = some (some rhs) ∧
      meaning.binOp oper lhs rhs = some val ∧ action = .value (some val) world := by
  simp only [act, operand, Option.bind_eq_bind, Option.bind_eq_some_iff, Option.join_eq_some_iff]
    at acts
  rcases acts with ⟨lhs, isLhs, rhs, isRhs, val, evaluated, equal⟩
  cases equal
  exact ⟨lhs, rhs, val, isLhs, isRhs, evaluated, rfl⟩

theorem act_pair {oper : BinOp.Oper} {left right : Option ConstVal} :
    meaning.act args type (.kBinOp oper) [left, right] world =
      (left.bind fun lhs => right.bind fun rhs => meaning.binOp oper lhs rhs).map
        fun val => .value (some val) world := by
  cases left with
  | none => rfl
  | some lhs =>
      cases right with
      | none => rfl
      | some rhs =>
          simp only [act, operand, List.getElem?_cons_zero, List.getElem?_cons_succ,
            Option.join_some, Option.bind_eq_bind, Option.bind_some]
          cases meaning.binOp oper lhs rhs <;> rfl

end Meaning

namespace Store

variable {store : Store} {func : Function} {meaning : Meaning World} {args : List ConstVal}
  {config : Config World} {id : InstId} {rest : List InstId} {inst : Inst}

theorem step_eq (isRest : config.rest = id :: rest) (found : store.insts id = some inst) :
    store.step meaning args config =
      (meaning.act args inst.type inst.kind (inst.reads config) config.world).map
        (store.perform config id rest) := by
  simp only [step, isRest, found, Option.bind_eq_bind, Option.bind_some]
  cases meaning.act args inst.type inst.kind (inst.reads config) config.world <;> rfl

/-- A step executes the first instruction that is left. -/
theorem step_eq_some {outcome : Outcome (Config World) (Option ConstVal × World)}
    (steps : store.step meaning args config = some outcome) :
    ∃ id rest inst action, config.rest = id :: rest ∧ store.insts id = some inst ∧
      meaning.act args inst.type inst.kind (inst.reads config) config.world = some action ∧
      store.perform config id rest action = outcome := by
  cases isRest : config.rest with
  | nil => simp [step, isRest] at steps
  | cons id rest =>
      simp only [step, isRest, Option.bind_eq_bind, Option.bind_eq_some_iff] at steps
      rcases steps with ⟨inst, found, action, acts, equal⟩
      cases equal
      exact ⟨id, rest, inst, action, rfl, found, acts, rfl⟩

/-- An operation goes on with the value of its operator. -/
theorem step_binOp {oper : BinOp.Oper}
    {outcome : Outcome (Config World) (Option ConstVal × World)}
    (isRest : config.rest = id :: rest) (found : store.insts id = some inst)
    (kind : inst.kind = .kBinOp oper) (steps : store.step meaning args config = some outcome) :
    ∃ lhs rhs val, (inst.reads config)[0]? = some (some lhs) ∧
      (inst.reads config)[1]? = some (some rhs) ∧ meaning.binOp oper lhs rhs = some val ∧
      outcome = .goes { config with values := Function.update config.values id (some val), rest } := by
  rw [step_eq isRest found, kind, Option.map_eq_some_iff] at steps
  rcases steps with ⟨action, acts, performs⟩
  rcases Meaning.act_binOp acts with ⟨lhs, rhs, val, isLhs, isRhs, evaluated, rfl⟩
  exact ⟨lhs, rhs, val, isLhs, isRhs, evaluated, performs.symm⟩

theorem reads_of_not_phi (notPhi : inst.kind.isPhi = false) :
    inst.reads config = inst.inputs.map config.values := by
  unfold Inst.reads
  split
  case h_1 isPhi => simp [isPhi, InstKind.isPhi] at notPhi
  case h_2 => rfl

theorem reads_congr {inst' : Inst} (kind : inst'.kind = inst.kind)
    (inputs : inst'.inputs = inst.inputs) : inst'.reads config = inst.reads config := by
  simp only [Inst.reads, kind, inputs]

theorem reads_of_binOp {oper : BinOp.Oper} (kind : inst.kind = .kBinOp oper) :
    inst.reads config = inst.inputs.map config.values :=
  reads_of_not_phi (Inst.not_phi kind)

/-- What is read stays the same when the operands are renamed and their values with them. -/
theorem reads_eq {config' : Config World} {inst' : Inst} {rename : InstId → InstId}
    (kind : inst'.kind = inst.kind) (inputs : inst'.inputs = inst.inputs.map rename)
    (pred : config'.pred = config.pred)
    (values : inst.kind.isPhi = false → ∀ input ∈ inst.inputs,
      config'.values (rename input) = config.values input)
    (entered : ∀ vars, inst.kind = .kPhi vars → ∀ input entry,
      (input, entry) ∈ inst.inputs.zip vars → some entry.bb = config.pred →
        config'.entered (rename input) = config.entered input) :
    inst'.reads config' = inst.reads config := by
  cases isPhi : inst.kind with
  | kPhi vars =>
      have isPhi' := kind.trans isPhi
      simp only [Inst.reads, isPhi, isPhi', inputs, pred, List.zip_map_left, List.filter_map,
        List.map_map]
      apply List.map_congr_left
      rintro ⟨input, entry⟩ member
      have parts := List.mem_filter.mp member
      exact entered vars isPhi input entry parts.1 (by simpa using parts.2)
  | _ =>
      have notPhi : inst.kind.isPhi = false := by
        rw [isPhi]
        rfl
      rw [reads_of_not_phi notPhi, reads_of_not_phi (kind ▸ notPhi), inputs, List.map_map]
      exact List.map_congr_left (values notPhi)

end Store

end LeechJit.IR
