import LeechJit.Foundation.Dominance
import LeechJit.IR.Consistent

/-! # Well-formed SSA functions

Each use is dominated by its definition, the entries of a phi match the
predecessors of its block, each block ends in its only branch or return, whose
targets are the block's successors, and all blocks are reachable.
-/

namespace LeechJit.IR

def InstKind.targets : InstKind → List BlockId
  | .kIf trueBB falseBB => [trueBB, falseBB]
  | .kJump target => [target]
  | _ => []

def InstKind.isTerminator : InstKind → Bool
  | .kIf _ _ | .kJump _ | .kRet => true
  | _ => false

namespace Store

variable (store : Store) (func : Function)

/-- Block `dom` dominates block `bb`. -/
def BlockDominates (dom bb : BlockId) : Prop :=
  Dominance.Dominates (store.cfg func).Edge (root func) dom bb

/-- `value` is defined before the instructions behind `front` in block `bb`. -/
def DefinedBefore (value : InstId) (bb : BlockId) (front : List InstId) : Prop :=
  value ∈ front ∨ ∃ dom ∈ func.bbs, value ∈ store.instructions dom ∧ dom ≠ bb ∧
    store.BlockDominates func dom bb

/-- `value` is defined when block `bb` ends. -/
def DefinedAtEnd (value : InstId) (bb : BlockId) : Prop :=
  ∃ dom ∈ func.bbs, value ∈ store.instructions dom ∧ store.BlockDominates func dom bb

structure WellFormed : Prop extends Store.Consistent store func where
  predsMem : ∀ bb ∈ func.bbs, ∀ pred ∈ store.preds bb, pred ∈ func.bbs
  mirrored : ∀ bb ∈ func.bbs, ∀ succ ∈ func.bbs,
    (store.succs bb).count succ = (store.preds succ).count bb
  branches : ∀ bb ∈ func.bbs, ∃ front last inst, store.instructions bb = front ++ [last] ∧
    store.insts last = some inst ∧ inst.kind.isTerminator ∧
    store.succs bb = inst.kind.targets ∧
    ∀ id ∈ front, ∀ other, store.insts id = some other → other.kind.isTerminator = false
  phisFirst : ∀ bb ∈ func.bbs, ∃ phis others, store.instructions bb = phis ++ others ∧
    (∀ id ∈ phis, ∀ inst, store.insts id = some inst → inst.kind.isPhi) ∧
    ∀ id ∈ others, ∀ inst, store.insts id = some inst → inst.kind.isPhi = false
  entries : ∀ bb ∈ func.bbs, ∀ id ∈ store.instructions bb, ∀ inst vars,
    store.insts id = some inst → inst.kind = .kPhi vars →
    (vars.map PhiEntry.bb).Nodup ∧
      ∀ pred, pred ∈ vars.map PhiEntry.bb ↔ pred ∈ store.preds bb
  uses : ∀ bb ∈ func.bbs, ∀ front id back, store.instructions bb = front ++ id :: back →
    ∀ inst, store.insts id = some inst → inst.kind.isPhi = false →
    ∀ input ∈ inst.inputs, store.DefinedBefore func input bb front
  phiUses : ∀ bb ∈ func.bbs, ∀ id ∈ store.instructions bb, ∀ inst vars,
    store.insts id = some inst → inst.kind = .kPhi vars →
    ∀ entry ∈ vars, store.DefinedAtEnd func entry.val entry.bb

end Store

end LeechJit.IR
