import Mathlib.Data.List.Nodup
import LeechJit.IR.Function

/-! # Consistent functions

What the constructors of the IR establish and the passes rely on: every
instruction stands in one block and knows it, operands are instructions of the
function, and the users sets are exact.
-/

namespace LeechJit.IR

/-- The operands each class of instruction has. -/
def Inst.Shaped (inst : Inst) : Prop :=
  match inst.kind with
  | .kConst val => inst.type = val.type ∧ inst.inputs = []
  | .kBinOp _ => inst.inputs.length = 2
  | .kIf _ _ | .kCast | .kUnaryOp _ => inst.inputs.length = 1
  | .kJump _ | .kParam _ => inst.inputs = []
  | .kRet => inst.inputs.length ≤ 1
  | .kPhi vars => inst.inputs = vars.map PhiEntry.val
  | .kCall _ => True

instance (inst : Inst) : Decidable inst.Shaped := by
  unfold Inst.Shaped
  split <;> infer_instance

namespace Store

def root (func : Function) : BlockId :=
  func.bbs.headD 0

/-- The graph `makeBBGraph` makes. -/
def cfg (store : Store) (func : Function) : Graph BlockId :=
  store.graphOf (root func) func.bbs

theorem makeBBGraph_eq {store : Store} {func : Function} (nonempty : func.bbs ≠ []) :
    store.makeBBGraph func = .ok (store.cfg func) := by
  cases blocks : func.bbs with
  | nil => exact absurd blocks nonempty
  | cons root rest => simp [makeBBGraph, cfg, Store.root, blocks]

/-- The instructions of a function. -/
def listed (store : Store) (func : Function) : List InstId :=
  func.bbs.flatMap store.instructions

/-- What an instruction of block `bb` of the function has to look like. -/
structure InstConsistent (store : Store) (func : Function) (bb : BlockId) (id : InstId)
    (inst : Inst) : Prop where
  home : inst.bb = some bb
  allocated : id < store.nextInst
  shaped : inst.Shaped
  inputs : ∀ input ∈ inst.inputs, input ∈ store.listed func ∧
    ∃ other, store.insts input = some other ∧ id ∈ other.users
  users : ∀ user ∈ inst.users, user ∈ store.listed func ∧
    ∃ other, store.insts user = some other ∧ id ∈ other.inputs

structure Consistent (store : Store) (func : Function) : Prop where
  nonempty : func.bbs ≠ []
  closed : (store.cfg func).Closed
  reachable : ∀ bb ∈ func.bbs, (store.cfg func).Reachable bb
  blocks : ∀ bb ∈ func.bbs, ∃ block, store.blocks bb = some block
  nodup : (store.listed func).Nodup
  insts : ∀ bb ∈ func.bbs, ∀ id ∈ store.instructions bb, ∃ inst,
    store.insts id = some inst ∧ store.InstConsistent func bb id inst

theorem instructions_eq {store : Store} {bb : BlockId} {block : BasicBlock}
    (found : store.blocks bb = some block) : store.instructions bb = block.instructions := by
  simp [instructions, found]

namespace Consistent

variable {store : Store} {func : Function}

/-- Every instruction of the function is as its block wants it. -/
theorem inst (consistent : store.Consistent func) {id : InstId}
    (member : id ∈ store.listed func) :
    ∃ bb ∈ func.bbs, id ∈ store.instructions bb ∧ ∃ inst, store.insts id = some inst ∧
      store.InstConsistent func bb id inst := by
  rcases List.mem_flatMap.mp member with ⟨bb, bbMem, inBlock⟩
  exact ⟨bb, bbMem, inBlock, consistent.insts bb bbMem id inBlock⟩

theorem fits (consistent : store.Consistent func) {id : InstId} {inst : Inst}
    (member : id ∈ store.listed func) (found : store.insts id = some inst) :
    ∃ bb ∈ func.bbs, id ∈ store.instructions bb ∧ store.InstConsistent func bb id inst := by
  rcases consistent.inst member with ⟨bb, bbMem, inBlock, again, foundAgain, fits⟩
  cases Option.some.inj (found.symm.trans foundAgain)
  exact ⟨bb, bbMem, inBlock, fits⟩

theorem shaped (consistent : store.Consistent func) {id : InstId} {inst : Inst}
    (member : id ∈ store.listed func) (found : store.insts id = some inst) : inst.Shaped := by
  rcases consistent.fits member found with ⟨_, -, -, fits⟩
  exact fits.shaped

theorem inputs_mem (consistent : store.Consistent func) {id : InstId} {inst : Inst}
    (member : id ∈ store.listed func) (found : store.insts id = some inst) :
    ∀ input ∈ inst.inputs, input ∈ store.listed func := by
  rcases consistent.fits member found with ⟨_, -, -, fits⟩
  exact fun input isInput => (fits.inputs input isInput).1

theorem mem_listed {bb : BlockId} {id : InstId} (bbMem : bb ∈ func.bbs)
    (inBlock : id ∈ store.instructions bb) : id ∈ store.listed func :=
  List.mem_flatMap.mpr ⟨bb, bbMem, inBlock⟩

theorem instructions_nodup (consistent : store.Consistent func) {bb : BlockId}
    (bbMem : bb ∈ func.bbs) : (store.instructions bb).Nodup :=
  (List.nodup_flatMap.mp consistent.nodup).1 bb bbMem

/-- Users and operands mirror each other. -/
theorem mem_users_iff (consistent : store.Consistent func) {value user : InstId}
    {valueInst userInst : Inst} (valueMem : value ∈ store.listed func)
    (userMem : user ∈ store.listed func) (valueAt : store.insts value = some valueInst)
    (userAt : store.insts user = some userInst) :
    user ∈ valueInst.users ↔ value ∈ userInst.inputs := by
  rcases consistent.fits valueMem valueAt with ⟨_, -, -, valueFits⟩
  rcases consistent.fits userMem userAt with ⟨_, -, -, userFits⟩
  constructor
  · intro isUser
    rcases (valueFits.users user isUser).2 with ⟨found, foundAt, isInput⟩
    cases Option.some.inj (foundAt.symm.trans userAt)
    exact isInput
  · intro isInput
    rcases (userFits.inputs value isInput).2 with ⟨found, foundAt, isUser⟩
    cases Option.some.inj (foundAt.symm.trans valueAt)
    exact isUser

/-- An instruction stands in one block only. -/
theorem home_unique (consistent : store.Consistent func) {bb other : BlockId} {id : InstId}
    (bbMem : bb ∈ func.bbs) (otherMem : other ∈ func.bbs) (inBlock : id ∈ store.instructions bb)
    (inOther : id ∈ store.instructions other) : bb = other := by
  rcases consistent.insts bb bbMem id inBlock with ⟨inst, found, fits⟩
  rcases consistent.insts other otherMem id inOther with ⟨again, foundAgain, fitsAgain⟩
  cases Option.some.inj (found.symm.trans foundAgain)
  exact Option.some.inj (fits.home.symm.trans fitsAgain.home)

theorem allocated (consistent : store.Consistent func) {id : InstId}
    (member : id ∈ store.listed func) : id < store.nextInst := by
  rcases consistent.inst member with ⟨_, _, _, _, _, fits⟩
  exact fits.allocated

end Consistent

end Store

end LeechJit.IR
