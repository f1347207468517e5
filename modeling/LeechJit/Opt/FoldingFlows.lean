import LeechJit.IR.Progress
import LeechJit.Opt.FoldingOutcomes
import LeechJit.Opt.PeepHoleFlows

/-! # What executions rely on, after a fold

The constant stands where the instruction stood, which was no branch and no constant, so
that it is defined wherever the instruction was.
-/

namespace LeechJit.Opt.ConstantFolding

open IR Store

variable {store store' : Store} {func : Function} {id : InstId} {inst : Inst} {val : ConstVal}
  {needed needed' : Set InstId}

/-- The operands of everything but the new constant, redirected to it. -/
def foldedInputs (store : Store) (id key : InstId) : List InstId :=
  if key = store.nextInst then [] else (store.inputs key).map (redirect id store.nextInst)

/-! ## What is folded -/

theorem binOpOn_of_inputs {oper : BinOp.Oper} {lhs rhs : InstId} {left right : ConstVal}
    (found : store.insts id = some inst) (kind : inst.kind = .kBinOp oper)
    (inputs : inst.inputs = [lhs, rhs]) (leftConst : constAt store lhs = some left)
    (rightConst : constAt store rhs = some right) : BinOpOn store id oper left right :=
  ⟨inst, lhs, rhs, found, kind, by simp [Inst.inputAt, inputs], by simp [Inst.inputAt, inputs],
    leftConst, rightConst⟩

/-- A fold evaluates an operation or a cast on constants. -/
theorem fold_cases (formed : ∀ inst, store.insts id = some inst → inst.Formed)
    (folds : fold store id = .ok val) :
    ∃ inst consts, store.insts id = some inst ∧
      inst.inputs.map (constAt store) = consts.map some ∧
      ((∃ oper left right, inst.kind = .kBinOp oper ∧ consts = [left, right] ∧
          BinOpOn store id oper left right) ∨
        (∃ src, inst.kind = .kCast ∧ consts = [src] ∧ CastOn store id inst.type src)) := by
  rcases Result.bind_eq_ok.mp folds with ⟨inst, found, evaluated⟩
  rw [inst_eq_ok] at found
  have shape := formed inst found
  unfold Inst.Formed at shape
  cases kind : inst.kind with
  | kBinOp oper =>
      rw [kind] at shape
      simp only [kind] at evaluated
      rcases List.length_eq_two.mp shape with ⟨lhs, rhs, inputs⟩
      simp only [inputs, Inst.inputAt, List.getElem?_cons_zero, List.getElem?_cons_succ,
        Result.ok_bind] at evaluated
      rcases Result.bind_eq_ok.mp evaluated with ⟨left, leftAt, evaluated⟩
      rcases Result.bind_eq_ok.mp evaluated with ⟨right, rightAt, -⟩
      rw [getConst_eq_ok] at leftAt rightAt
      refine ⟨inst, [left, right], found, by simp [inputs, leftAt, rightAt], .inl ?_⟩
      exact ⟨oper, left, right, kind, rfl,
        binOpOn_of_inputs found kind inputs leftAt rightAt⟩
  | kCast =>
      rw [kind] at shape
      simp only [kind] at evaluated
      rcases List.length_eq_one_iff.mp shape with ⟨src, inputs⟩
      simp only [inputs, Inst.inputAt, List.getElem?_cons_zero, Result.ok_bind] at evaluated
      rcases Result.bind_eq_ok.mp evaluated with ⟨const, constIs, -⟩
      rw [getConst_eq_ok] at constIs
      refine ⟨inst, [const], found, by simp [inputs, constIs], .inr ⟨const, kind, rfl, ?_⟩⟩
      exact ⟨inst, src, found, kind, rfl, by simp [Inst.inputAt, inputs], constIs⟩
  | _ => simp [kind] at evaluated

/-! ## After the fold -/

section Folded

variable (housed : store.Housed func)
  (rewritten : store.Rewritten { id | id ∈ store.listed func } id (some (.kConst val))
    (foldedInputs store id) store')

include housed rewritten

theorem definedAtEnd_new {bb : BlockId} (defined : store.DefinedAtEnd func id bb) :
    store'.DefinedAtEnd func store.nextInst bb := by
  rcases defined with ⟨dom, domMem, inDom, dominates⟩
  refine ⟨dom, domMem, ?_, (rewritten.blockDominates dom).mpr dominates⟩
  rw [housed.instructions_eq rewritten domMem]
  exact (mem_remaining inDom).mpr (.inr ⟨rfl, rfl⟩)

theorem mem_listed_new : store.nextInst ∈ store'.listed func := by
  have member : store.nextInst ∈ { id | id ∈ store'.listed func } := by
    rw [housed.mem_listed rewritten]
    exact .inr ⟨rfl, rfl⟩
  exact member

omit housed in
theorem isConst_new : store'.IsConst store.nextInst := by
  rcases rewritten.added _ rfl with ⟨inst, found, kind, -⟩
  exact ⟨inst, val, found, kind⟩

/-- The definitions stay before their uses. -/
theorem usesDefined_folded (valid : store.UsesDefined func needed)
    (kept : ∀ input ∈ needed', input ∈ store.listed func → input ≠ id → input ∈ needed)
    (new : store.nextInst ∈ needed' → id ∈ needed) : store'.UsesDefined func needed' := by
  have operandsOld : ∀ key ∈ store.listed func,
      foldedInputs store id key = (store.inputs key).map (redirect id store.nextInst) :=
    fun key member => if_neg (housed.linked.ne_nextInst member)
  have notNew : ∀ input ∈ store.listed func,
      ¬ ((some (InstKind.kConst val)).isSome = true ∧ input = store.nextInst) :=
    fun input member both => housed.linked.ne_nextInst member both.2
  apply PeepHole.usesDefined_of_rewritten housed rewritten
  case notPhi =>
    intro kind isNew
    cases isNew
    rfl
  case stays =>
    intro bb bbMem front key back split notOld inst found notPhi input isInput isNeeded
    have keyMem : key ∈ store.listed func := Consistent.mem_listed bbMem (by simp [split])
    rw [operandsOld key keyMem, List.mem_map] at isInput
    rcases isInput with ⟨input, isInput, rfl⟩
    have inputMem := housed.linked.inputs key keyMem input isInput
    have defined := valid.uses bb bbMem front key back split inst found notPhi input
      (inputs_eq found ▸ isInput)
    by_cases isOld : input = id
    · rw [redirect, if_pos isOld] at isNeeded ⊢
      exact housed.definedBefore_new rewritten rfl (isOld ▸ defined (isOld ▸ new isNeeded))
    · rw [redirect, if_neg isOld] at isNeeded ⊢
      rw [housed.definedBefore_iff rewritten isOld (notNew input inputMem)]
      exact defined (kept input isNeeded inputMem isOld)
  case added =>
    intro _ bb bbMem front back split input isInput
    simp [foldedInputs] at isInput
  case phis =>
    intro bb bbMem phi inBlock notOld inst vars found isPhi value entry matched isNeeded
    have phiMem := Consistent.mem_listed bbMem inBlock
    rw [operandsOld phi phiMem, List.zip_map_left, List.mem_map] at matched
    rcases matched with ⟨⟨input, own⟩, matched, equal⟩
    cases equal
    have isInput := (List.of_mem_zip matched).1
    have inputMem := housed.linked.inputs phi phiMem input isInput
    rw [inputs_eq found] at matched
    have defined := valid.phiUses bb bbMem phi inBlock inst vars found isPhi input own matched
    by_cases isOld : input = id
    · rw [redirect, if_pos isOld] at isNeeded ⊢
      exact definedAtEnd_new housed rewritten (isOld ▸ defined (isOld ▸ new isNeeded))
    · rw [redirect, if_neg isOld] at isNeeded ⊢
      rw [housed.definedAtEnd_iff rewritten isOld (notNew input inputMem)]
      exact defined (kept input isNeeded inputMem isOld)

/-- Branches end their blocks, and lead to successors. -/
theorem branches_folded (branches : ∀ bb ∈ func.bbs, ∀ front key back,
      store.instructions bb = front ++ key :: back → ∀ inst, store.insts key = some inst →
      ∀ target ∈ inst.kind.targets, back = [] ∧ target ∈ store.succs bb) :
    ∀ bb ∈ func.bbs, ∀ front key back, store'.instructions bb = front ++ key :: back →
      ∀ inst, store'.insts key = some inst → ∀ target ∈ inst.kind.targets,
        back = [] ∧ target ∈ store'.succs bb := by
  intro bb bbMem front' key' back' split inst' found' target isTarget
  rw [housed.instructions_eq rewritten bbMem] at split
  rcases remaining_split split with ⟨front, key, back, splitBefore, rfl, place⟩
  rcases place with ⟨notOld, rfl⟩ | ⟨-, -, rfl⟩
  · have member : key' ∈ store.listed func := Consistent.mem_listed bbMem (by simp [splitBefore])
    rcases housed.linked.stored key' member with ⟨inst, found⟩
    rcases rewritten.kept key' member notOld inst found with ⟨again, foundAgain, bare⟩
    cases Option.some.inj (foundAgain.symm.trans found')
    rw [Inst.kind_of_bare bare] at isTarget
    rcases branches bb bbMem front key' back splitBefore inst found target isTarget with
      ⟨rfl, edge⟩
    rw [splitBefore, remaining_append, remaining_cons_of_ne notOld] at split
    have ends := (List.cons.inj (List.append_cancel_left split)).2
    have same : store'.cfg func = store.cfg func := rewritten.cfg_eq
    have succs : store'.succs = store.succs := congrArg Graph.succs same
    rw [succs, ← ends]
    exact ⟨remaining_of_not_mem List.not_mem_nil, edge⟩
  · rcases rewritten.added _ rfl with ⟨again, foundAgain, kind, -⟩
    cases Option.some.inj (foundAgain.symm.trans found')
    rw [kind] at isTarget
    cases isTarget

end Folded

variable (rewritten : store.Rewritten { id | id ∈ store.listed func } id (some (.kConst val))
    (foldedInputs store id) store')

include rewritten

theorem strict_folded (strict : store.Strict func) : store'.Strict func where
  toHoused := strict.toHoused.rewritten rewritten
  reachable bb bbMem := rewritten.cfg_eq ▸ strict.reachable bb bbMem
  usesDefined := usesDefined_folded strict.toHoused rewritten strict.usesDefined
    (fun _ _ _ _ => Set.mem_univ _) fun _ => Set.mem_univ _
  branches := branches_folded strict.toHoused rewritten strict.branches

theorem flows_folded (flows : store.Flows func) : store'.Flows func where
  toHoused := flows.toHoused.rewritten rewritten
  reachable bb bbMem := rewritten.cfg_eq ▸ flows.reachable bb bbMem
  defined := by
    apply usesDefined_folded flows.toHoused rewritten flows.defined
    case kept =>
      rintro input notConst member notOld ⟨-, inst, held, found, kind⟩
      rcases rewritten.kept input member notOld inst found with ⟨inst', found', bare⟩
      apply notConst
      refine ⟨?_, inst', held, found', (Inst.kind_of_bare bare).trans kind⟩
      have listed : input ∈ { key | key ∈ store'.listed func } := by
        rw [flows.toHoused.mem_listed rewritten]
        exact .inl ⟨member, notOld⟩
      exact listed
    case new =>
      intro notConst
      exact absurd ⟨mem_listed_new flows.toHoused rewritten,
        isConst_new rewritten⟩ notConst
  branches := branches_folded flows.toHoused rewritten flows.branches

end LeechJit.Opt.ConstantFolding
