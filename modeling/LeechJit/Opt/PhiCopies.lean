import LeechJit.IR.Built
import LeechJit.IR.Check
import LeechJit.IR.Housed
import LeechJit.Opt.Passes

/-! # The two copies of the operands of a phi

The passes change operands and not the entries of phis. The copies agree as long
as no instruction that a phi uses is taken out; an entry that names such an
instruction never comes right again.
-/

namespace LeechJit.Opt

open IR Store

variable {pass : Pass} {store store' : Store} {id : InstId} {func : Function}

/-! ## What a round does to a phi -/

namespace Pass

namespace Change

theorem linked_stored (change : pass.Change store store.stored id store')
    (linked : store.Linked store.stored) : store'.Linked store'.stored := by
  cases change with
  | swapped _ _ swapped => exact swapped.relinked.stored_eq ▸ swapped.linked linked
  | replaced _ _ _ _ rewritten => exact rewritten.stored_eq ▸ rewritten.linked
  | folded _ _ _ rewritten => exact rewritten.stored_eq ▸ rewritten.linked
  | merged _ _ _ _ _ fits merge =>
      have rewritten := merge.some.rewritten linked fits
      exact rewritten.stored_eq ▸ rewritten.linked

theorem id_eq_none (change : pass.Change store store.stored id store')
    (linked : store.Linked store.stored) (member : id ∈ store.stored)
    (vanishes : pass.vanishes store id = true) : store'.insts id = none := by
  have old : id ≠ store.nextInst := Nat.ne_of_lt (linked.allocated id member)
  cases change with
  | swapped stays _ _ =>
      rw [stays] at vanishes
      cases vanishes
  | replaced _ _ _ _ rewritten => exact rewritten.gone id (.inr rfl) fun both => old both.2
  | folded _ _ _ rewritten => exact rewritten.gone id (.inr rfl) fun both => old both.2
  | merged _ _ _ _ stays _ _ =>
      rw [stays] at vanishes
      cases vanishes

/-- What is gone stays gone. -/
theorem insts_none (change : pass.Change store store.stored id store')
    (linked : store.Linked store.stored) {key : InstId} (old : key < store.nextInst)
    (isNone : store.insts key = none) :
    store'.insts key = none ∧ key < store'.nextInst := by
  have notNew : key ≠ store.nextInst := Nat.ne_of_lt old
  cases change with
  | swapped _ _ swapped =>
      rw [swapped.relinked.nextInst]
      exact ⟨swapped.relinked.insts_none.mpr isNone, old⟩
  | replaced _ _ _ _ rewritten =>
      exact ⟨rewritten.gone key (.inl isNone) fun both => notNew both.2,
        Nat.lt_of_lt_of_le old rewritten.nextInst.1⟩
  | folded _ _ _ rewritten =>
      exact ⟨rewritten.gone key (.inl isNone) fun both => notNew both.2,
        Nat.lt_of_lt_of_le old rewritten.nextInst.1⟩
  | merged _ _ _ _ _ fits merge =>
      have rewritten := merge.some.rewritten linked fits
      exact ⟨rewritten.gone key (.inl isNone) fun both => notNew both.2,
        Nat.lt_of_lt_of_le old rewritten.nextInst.1⟩

theorem nextInst_le (change : pass.Change store store.stored id store')
    (linked : store.Linked store.stored) : store.nextInst ≤ store'.nextInst := by
  cases change with
  | swapped _ _ swapped => exact Nat.le_of_eq swapped.relinked.nextInst.symm
  | replaced _ _ _ _ rewritten => exact rewritten.nextInst.1
  | folded _ _ _ rewritten => exact rewritten.nextInst.1
  | merged _ _ _ _ _ fits merge => exact (merge.some.rewritten linked fits).nextInst.1

/-- A phi keeps its entries, its place and, if it does not use what vanishes, its operands. -/
theorem phi (func : Function) (change : pass.Change store store.stored id store')
    (linked : store.Linked store.stored) {phi : InstId} {inst : Inst} {vars : List PhiEntry}
    (found : store.insts phi = some inst) (isPhi : inst.kind = .kPhi vars) :
    ∃ inst', store'.insts phi = some inst' ∧ inst'.kind = .kPhi vars ∧
      (phi ∈ store'.listed func ↔ phi ∈ store.listed func) ∧
      ((pass.vanishes store id = true → id ∉ inst.inputs) → inst'.inputs = inst.inputs) := by
  have notOp : ¬ store.IsBinOp phi := by
    rintro ⟨other, oper, foundOther, kind⟩
    cases Option.some.inj (foundOther.symm.trans found)
    rw [isPhi] at kind
    cases kind
  have member : phi ∈ store.stored := ⟨inst, found⟩
  have old : phi ≠ store.nextInst := Nat.ne_of_lt (linked.allocated phi member)
  have inputsEq : store.inputs phi = inst.inputs := inputs_eq found
  cases change with
  | swapped _ binOp swapped =>
      have notId : phi ≠ id := fun equal => notOp (equal ▸ binOp)
      refine ⟨_, swapped.relinked.insts found, isPhi, ?_, ?_⟩
      · simp [listed, instructions, swapped.relinked.blocks]
      · intro _
        exact (swapped.others phi notId).trans inputsEq
  | replaced value vanishes _ binOp rewritten =>
      have notId : phi ≠ id := fun equal => notOp (equal ▸ binOp)
      rcases rewritten.kept phi member notId inst found with ⟨inst', found', bare⟩
      refine ⟨inst', found', (Inst.kind_of_bare bare).trans isPhi, ?_, ?_⟩
      · exact rewritten.mem_listed notId fun both => old both.2
      · intro unused
        rw [← inputs_eq found', rewritten.operands phi (.inl ⟨member, notId⟩), inputsEq]
        exact map_redirect_of_not_mem (unused vanishes)
  | folded val vanishes folds rewritten =>
      have notId : phi ≠ id := by
        rintro rfl
        simp [ConstantFolding.fold, Store.inst, found, isPhi] at folds
      rcases rewritten.kept phi member notId inst found with ⟨inst', found', bare⟩
      refine ⟨inst', found', (Inst.kind_of_bare bare).trans isPhi, ?_, ?_⟩
      · exact rewritten.mem_listed notId fun both => old both.2
      · intro unused
        rw [← inputs_eq found', rewritten.operands phi (.inl ⟨member, notId⟩), if_neg old,
          inputsEq]
        exact map_redirect_of_not_mem (unused vanishes)
  | merged fstShr rval left fstShamt stays fits merge =>
      have rewritten := merge.some.rewritten linked fits
      have notFst : phi ≠ fstShr := fun equal => notOp (equal ▸ fits.fstBinOp)
      have notId : phi ≠ id := fun equal => notOp (equal ▸ fits.binOp)
      rcases rewritten.kept phi member notFst inst found with ⟨inst', found', bare⟩
      refine ⟨inst', found', (Inst.kind_of_bare bare).trans isPhi, ?_, ?_⟩
      · exact rewritten.mem_listed notFst fun both => old both.2
      · intro _
        rw [← inputs_eq found', rewritten.operands phi (.inl ⟨member, notFst⟩),
          Merge.operands_other old notId, inputsEq]

/-- No phi comes in. -/
theorem phi_old (change : pass.Change store store.stored id store')
    (linked : store.Linked store.stored) {phi : InstId} {inst' : Inst} {vars : List PhiEntry}
    (found' : store'.insts phi = some inst') (isPhi : inst'.kind = .kPhi vars) :
    ∃ inst, store.insts phi = some inst ∧ inst.kind = .kPhi vars := by
  have back : ∀ old new operands, store.Rewritten store.stored old new operands store' →
      (∀ kind, new = some kind → kind ≠ .kPhi vars) →
        ∃ inst, store.insts phi = some inst ∧ inst.kind = .kPhi vars := by
    intro old new operands rewritten notPhi
    have member : phi ∈ store.leave store.stored old new := by
      rw [← rewritten.stored_eq]
      exact ⟨inst', found'⟩
    rcases member with ⟨⟨inst, found⟩, notOld⟩ | ⟨isSome, rfl⟩
    · rcases rewritten.kept phi ⟨inst, found⟩ notOld inst found with ⟨again, foundAgain, bare⟩
      cases Option.some.inj (foundAgain.symm.trans found')
      exact ⟨inst, found, (Inst.kind_of_bare bare).symm.trans isPhi⟩
    · rcases Option.isSome_iff_exists.mp isSome with ⟨kind, isNew⟩
      rcases rewritten.added kind isNew with ⟨again, foundAgain, kindEq, -⟩
      cases Option.some.inj (foundAgain.symm.trans found')
      exact absurd (kindEq.symm.trans isPhi) (notPhi kind isNew)
  cases change with
  | swapped _ _ swapped =>
      have member : phi ∈ store.stored := swapped.relinked.stored_eq ▸ ⟨inst', found'⟩
      rcases member with ⟨inst, found⟩
      cases Option.some.inj ((swapped.relinked.insts found).symm.trans found')
      exact ⟨inst, found, isPhi⟩
  | replaced _ _ _ _ rewritten =>
      apply back _ _ _ rewritten
      intro kind isNew
      cases isNew
  | folded _ _ _ rewritten =>
      apply back _ _ _ rewritten
      rintro kind isNew rfl
      cases isNew
  | merged _ _ _ _ _ fits merge =>
      apply back _ _ _ (merge.some.rewritten linked fits)
      rintro kind isNew rfl
      cases isNew

end Change

end Pass

/-! ## What a run does to the copies -/

/-- The round takes no instruction out that a phi uses. -/
def Round.SparesPhis (func : Function) (round : Round) : Prop :=
  round.pass.vanishes round.store round.id = true →
    ∀ phi ∈ round.store.listed func, ∀ inst vars, round.store.insts phi = some inst →
      inst.kind = .kPhi vars → round.id ∉ inst.inputs

/-- Some phi of the function has an entry for an instruction that is gone. -/
def Stale (store : Store) (func : Function) : Prop :=
  ∃ phi ∈ store.listed func, ∃ inst vars, store.insts phi = some inst ∧
    inst.kind = .kPhi vars ∧
      ∃ entry ∈ vars, entry.val < store.nextInst ∧ store.insts entry.val = none

/-- An operand is never gone, so the copies differ. -/
theorem Stale.not_agree (linked : store.Linked store.stored) (stale : Stale store func) :
    ¬ store.PhisAgree func := by
  rcases stale with ⟨phi, phiMem, inst, vars, found, isPhi, entry, entryMem, -, isNone⟩
  intro agree
  have equal := agree phi phiMem inst vars found isPhi
  have isInput : entry.val ∈ store.inputs phi := by
    rw [inputs_eq found, equal]
    exact List.mem_map_of_mem entryMem
  rcases linked.inputs phi ⟨inst, found⟩ entry.val isInput with ⟨other, stored⟩
  rw [isNone] at stored
  cases stored

namespace Pass

theorem stale (linked : store.Linked store.stored) (result : pass.rewrite store id = .ok store')
    (stale : Stale store func) : Stale store' func := by
  have change := pass.change linked (mem_stored result) result
  rcases stale with ⟨phi, phiMem, inst, vars, found, isPhi, entry, entryMem, old, isNone⟩
  rcases change.phi func linked found isPhi with ⟨inst', found', isPhi', listed, -⟩
  have gone := change.insts_none linked old isNone
  exact ⟨phi, listed.mpr phiMem, inst', vars, found', isPhi', entry, entryMem, gone.2, gone.1⟩

theorem agree (linked : store.Linked store.stored) (result : pass.rewrite store id = .ok store')
    (agree : store.PhisAgree func) (spares : (Round.mk pass store id).SparesPhis func) :
    store'.PhisAgree func := by
  have change := pass.change linked (mem_stored result) result
  intro phi phiMem inst' vars found' isPhi'
  rcases change.phi_old linked found' isPhi' with ⟨inst, found, isPhi⟩
  rcases change.phi func linked found isPhi with ⟨again, foundAgain, -, listed, same⟩
  cases Option.some.inj (foundAgain.symm.trans found')
  have phiMem := listed.mp phiMem
  rw [same fun vanishes => spares vanishes phi phiMem inst vars found isPhi]
  exact agree phi phiMem inst vars found isPhi

/-- Taking out what a phi uses leaves its entry behind. -/
theorem stale_of_not_spares (linked : store.Linked store.stored)
    (result : pass.rewrite store id = .ok store') (agree : store.PhisAgree func)
    (spares : ¬ (Round.mk pass store id).SparesPhis func) : Stale store' func := by
  have member := mem_stored result
  have change := pass.change linked member result
  simp only [Round.SparesPhis, not_forall, not_not] at spares
  rcases spares with ⟨vanishes, phi, phiMem, inst, vars, found, isPhi, isInput⟩
  rcases change.phi func linked found isPhi with ⟨inst', found', isPhi', listed, -⟩
  rw [agree phi phiMem inst vars found isPhi] at isInput
  rcases List.mem_map.mp isInput with ⟨entry, entryMem, isEntry⟩
  have gone := change.id_eq_none linked member vanishes
  have allocated : id < store'.nextInst :=
    Nat.lt_of_lt_of_le (linked.allocated id member) (change.nextInst_le linked)
  subst isEntry
  exact ⟨phi, listed.mpr phiMem, inst', vars, found', isPhi', entry, entryMem, allocated, gone⟩

end Pass

theorem Chain.stale {rounds : List Round} (chain : Chain store rounds store')
    (linked : store.Linked store.stored) (stale : Stale store func) :
    store'.Linked store'.stored ∧ Stale store' func := by
  induction chain with
  | done => exact ⟨linked, stale⟩
  | round first _ induction =>
      have change := Pass.change linked (Pass.mem_stored first) first
      exact induction (change.linked_stored linked) (Pass.stale linked first stale)

theorem Chain.phisAgree_iff {rounds : List Round} (chain : Chain store rounds store')
    (linked : store.Linked store.stored) (agree : store.PhisAgree func) :
    store'.PhisAgree func ↔ ∀ round ∈ rounds, round.SparesPhis func := by
  induction chain with
  | done => simp [agree]
  | @round store next _ pass id _ first rest induction =>
      have change := Pass.change linked (Pass.mem_stored first) first
      have linkedNext := change.linked_stored linked
      rw [List.forall_mem_cons]
      constructor
      · intro agreeAfter
        by_cases spares : (Round.mk pass store id).SparesPhis func
        · have agreeNext := Pass.agree linked first agree spares
          exact ⟨spares, (induction linkedNext agreeNext).mp agreeAfter⟩
        · have stale := rest.stale linkedNext (Pass.stale_of_not_spares linked first agree spares)
          exact absurd agreeAfter (stale.2.not_agree stale.1)
      · rintro ⟨spares, later⟩
        exact (induction linkedNext (Pass.agree linked first agree spares)).mpr later

/-- After runs that return, the copies agree exactly when no round has taken out an
instruction that a phi used. -/
theorem phisAgree_iff_spares {passes : List Pass} (built : store.Built)
    (returns : runAll func passes store = .ok store') :
    store'.PhisAgree func ↔ ∀ round ∈ allRounds func passes store, round.SparesPhis func :=
  (chain_runAll returns).phisAgree_iff built.tied.linked (built.tied.phisAgree func)

/-- The steps that build two blocks, where a phi of the second gets an instruction
of the first. -/
def handOver (new : InstId → InstId → Construct) : List BuildStep :=
  [.newFunction 0 .I64 [], .appendBB 0, .appendBB 0,
    .pushInstBack 0 (.constVal (.I64 2)), .pushInstBack 0 (.constVal (.I64 3)),
    .pushInstBack 0 (new 0 1), .pushInstBack 0 (.jumpInstr 1),
    .pushInstBack 1 (.phi .I64), .pushInstBack 1 (.retVal 4), .addNode 4 2 0]

def twoBlocks : Function :=
  { bbs := [0, 1], resType := .I64 }

theorem phisAgree_iff_spares_sub :
    ∃ store store', store.Built ∧ runAll twoBlocks [.peepHole] store = .ok store' ∧
      (store'.PhisAgree twoBlocks ↔
        ∀ round ∈ allRounds twoBlocks [.peepHole] store, round.SparesPhis twoBlocks) := by
  refine ⟨_, _, ⟨handOver (.binOp .kSub), rfl⟩, rfl, ?_⟩
  exact phisAgree_iff_spares ⟨handOver (.binOp .kSub), rfl⟩ rfl

/-- `2 + 3` is folded; the operand of the phi is the result, its entry is what was folded. -/
theorem not_phisAgree_folded :
    ∃ store store' phi vars, store.Built ∧ store.functions 0 = some twoBlocks ∧
      runAll twoBlocks [.constantFolding] store = .ok store' ∧
      4 ∈ store'.listed twoBlocks ∧ store'.insts 4 = some phi ∧ phi.kind = .kPhi vars ∧
      phi.inputs = [6] ∧ vars = [⟨2, 0⟩] ∧ store'.insts 2 = none ∧
      ¬ store'.PhisAgree twoBlocks := by
  refine ⟨_, _, _, _, ⟨handOver (.binOp .kAdd), rfl⟩, rfl, rfl, by decide, rfl, rfl, rfl, rfl, rfl, ?_⟩
  intro agree
  have equal := agree 4 (by decide) _ _ rfl rfl
  cases equal

end LeechJit.Opt
