import LeechJit.Opt.PeepHoleFlows
import LeechJit.Opt.PeepHoleMirrors

/-! # Executions with merged shifts

The sum of two amounts is computed where the first shift was, and the second shift is
by the sum. An execution goes on alike if the amounts can be added there and their sum is
an amount in range; otherwise it is stuck.
-/

namespace LeechJit.Opt

open IR Store Steps

namespace PeepHole

variable {World : Type} {meaning : Meaning World} {args : List ConstVal} {store store' : Store}
  {func : Function} {id key fstShr rval left fstShamt : InstId} {values : Values}
  {config config' next : Config World} {rest : List InstId}

/-- The sum of the amounts of two shifts, if both have values. -/
def amountSum (store : Store) (fstShr rval : InstId) (values : Values) : Option ConstVal := do
  let fst ← store.insts fstShr
  let fstShamt ← fst.inputs[1]?
  let first ← values fstShamt
  let second ← values rval
  (ConstantFolding.binEval .kAdd first second).toOption

/-- What an execution needs where the amounts are added, and where the sum is used. -/
structure ShiftsFit (store : Store) (id fstShr rval : InstId) (config : Config World) : Prop where
  sum : ∀ rest, config.rest = fstShr :: rest →
    ∃ total, amountSum store fstShr rval config.values = some total
  inRange : ∀ rest, config.rest = id :: rest →
    ∃ total, amountSum store fstShr rval config.values = some total ∧ InRange total

/-- The execution goes on, and the amounts do not fit. -/
def Misfit (store : Store) (meaning : Meaning World) (args : List ConstVal)
    (id fstShr rval : InstId) (config : Config World) : Prop :=
  store.step meaning args config ≠ none ∧ ¬ ShiftsFit store id fstShr rval config

theorem amountSum_eq (merge : Merge store id fstShr rval left fstShamt store') :
    amountSum store fstShr rval values = (values fstShamt).bind fun first =>
      (values rval).bind fun second =>
        (ConstantFolding.binEval .kAdd first second).toOption := by
  simp [amountSum, merge.fstAt, merge.isShamt]

theorem isShrAt_of_merges (merges : merges store id = some (fstShr, rval)) :
    isShrAt store fstShr = true := by
  rcases merges_eq_some merges with ⟨-, -, -, -, -, -, merge⟩
  simp only [shiftsMerge, Bool.and_eq_true] at merge
  exact merge.1.2

section Merged

variable (flows : store.Flows func)
  (fits : Merge.Fits store { key | key ∈ store.listed func } id fstShr rval)
  (merge : Merge store id fstShr rval left fstShamt store')
  (mirrors : Mirrors meaning store store' func fstShr (some (.kBinOp .kAdd)) config config')

include flows fits merge mirrors

/-- What is neither of the shifts does the same. -/
theorem matches_merged (flows' : store'.Flows func) (isRest : config.rest = key :: rest)
    (notFst : key ≠ fstShr) (notId : key ≠ id) :
    Matches (store.step meaning args) (store'.step meaning args)
      (Mirrors meaning store store' func fstShr (some (.kBinOp .kAdd))) config config' := by
  have layout := merge.layout flows.linked fits
  have keyMem := mirrors.listed isRest
  apply mirrors.matches_of_act flows (merge.rewritten flows.linked fits) flows' isRest notFst
  intro inst inst' found found' bare inputs
  rw [Merge.operands_other (flows.linked.ne_nextInst keyMem) notId, inputs_eq found,
    ← List.map_id' inst.inputs] at inputs
  have stays : ∀ input ∈ inst.inputs, input ∈ store.listed func ∧ input ≠ fstShr := by
    intro input isInput
    rw [← inputs_eq found] at isInput
    exact ⟨flows.linked.inputs key keyMem input isInput,
      fun isFst => notId (layout.onlyUser key keyMem (isFst ▸ isInput))⟩
  have reads : inst'.reads config' = inst.reads config := by
    apply reads_eq (Inst.kind_of_bare bare) inputs mirrors.pred
    · intro _ input isInput
      have old := stays input isInput
      exact mirrors.values_old flows.linked old.1 old.2
    · intro vars _ input entry matched _
      have old := stays input (List.of_mem_zip matched).1
      exact mirrors.entered_old flows.linked old.1 old.2
  rw [reads]

/-- Where the first shift was, the amounts are added. -/
theorem step_sum (evaluates : Evaluates meaning) (isRest : config.rest = fstShr :: rest) :
    store'.step meaning args config' =
      (amountSum store fstShr rval config.values).map fun total =>
        .goes { config' with
          values := Function.update config'.values store.nextInst (some total),
          rest := store.remaining fstShr (some (.kBinOp .kAdd)) rest } := by
  have layout := merge.layout flows.linked fits
  have rewritten := merge.rewritten flows.linked fits
  rcases rewritten.added _ rfl with ⟨inst, found, kind, -⟩
  have inputs := rewritten.operands _ (.inr ⟨rfl, rfl⟩)
  rw [inputs_eq found, Merge.operands_new] at inputs
  have isRest' : config'.rest =
      store.nextInst :: store.remaining fstShr (some (.kBinOp .kAdd)) rest := by
    rw [mirrors.rest, isRest, remaining_cons_old rfl]
  rw [step_eq isRest' found, reads_of_binOp kind, inputs, kind, List.map_cons, List.map_cons,
    List.map_nil, mirrors.values_old flows.linked layout.shamtMem layout.shamtFst,
    mirrors.values_old flows.linked layout.rvalMem layout.rvalFst, Meaning.act_pair,
    amountSum_eq merge, Option.map_map]
  simp only [evaluates .kAdd (by simp) (by simp)]
  rfl

variable (merges : merges store id = some (fstShr, rval))

include merges

/-- The amounts are added, and everything else stays as it is. -/
theorem follows_sum (flows' : store'.Flows func) (evaluates : Evaluates meaning)
    (isRest : config.rest = fstShr :: rest)
    (goes : store.step meaning args config = some (.goes next))
    {total : ConstVal} (sum : amountSum store fstShr rval config.values = some total) :
    ∃ next', store'.step meaning args config' = some (.goes next') ∧
      Mirrors meaning store store' func fstShr (some (.kBinOp .kAdd)) next next' := by
  have goes' : store'.step meaning args config' = _ :=
    step_sum flows fits merge mirrors evaluates isRest
  rw [sum, Option.map_some] at goes'
  refine ⟨_, goes', ?_⟩
  have coherent := coherent_next flows mirrors.coherent goes
  have coherent' := coherent_next flows' mirrors.coherent' goes'
  have shr := isShrAt_of_merges merges
  rcases isBinOp_of_isShrAt shr with ⟨inst, oper, found, kind⟩
  rcases step_binOp isRest found kind goes with ⟨-, -, val, -, -, -, equal⟩
  cases equal
  refine ⟨coherent, coherent', mirrors.pred, mirrors.bb, mirrors.world, rfl, ?_, mirrors.entered⟩
  intro key notFst notNew
  have isOld : key ≠ store.nextInst := fun equal => notNew ⟨rfl, equal⟩
  dsimp only
  rw [Function.update_of_ne notFst, Function.update_of_ne isOld]
  exact mirrors.values key notFst notNew

/-- The first shift is defined before the second. -/
theorem fst_computed (evaluates : Evaluates meaning) (isRest : config.rest = id :: rest) :
    ∃ val first shifted, config.values left = some val ∧ config.values fstShamt = some first ∧
      ConstantFolding.binEval .kShr val first = .ok shifted ∧
      config.values fstShr = some shifted := by
  have layout := merge.layout flows.linked fits
  rcases merges_eq_some merges with ⟨inst, found, kind, -⟩
  have inputs := fits.inputs
  rw [inputs_eq found] at inputs
  have computed : Computed meaning store config.values fstShr := by
    rcases mirrors.coherent with ⟨front, coherent⟩
    have placed := coherent.placed
    rw [isRest] at placed
    apply coherent.computed fstShr fits.fstBinOp
    exact flows.defined.uses config.bb coherent.bbMem front id rest placed inst found
      (Inst.not_phi kind) fstShr (by simp [inputs]) fits.fstBinOp.mem_nonConstants
  have isShr : merge.fst.kind = .kBinOp .kShr := by
    simpa [isShrAt, merge.fstAt] using isShrAt_of_merges merges
  rcases computed.of_inputs merge.fstAt isShr layout.fstInputs with
    ⟨val, first, shifted, isVal, isFirst, evaluated, isShifted⟩
  rw [evaluates_eq_some evaluates (by simp) (by simp)] at evaluated
  exact ⟨val, first, shifted, isVal, isFirst, evaluated, isShifted⟩

/-- The sum is defined before the second shift. -/
theorem sum_computed (flows' : store'.Flows func) (evaluates : Evaluates meaning)
    (isRest : config.rest = id :: rest) :
    ∃ total, amountSum store fstShr rval config.values = some total ∧
      config'.values store.nextInst = some total := by
  have layout := merge.layout flows.linked fits
  have rewritten := merge.rewritten flows.linked fits
  rcases merges_eq_some merges with ⟨inst, found, kind, -⟩
  rcases rewritten.kept id fits.member layout.idFst inst found with ⟨inst', found', bare⟩
  rcases rewritten.added _ rfl with ⟨add, addFound, addKind, -⟩
  have binOp : store'.IsBinOp store.nextInst := ⟨add, .kAdd, addFound, addKind⟩
  have inputs' := rewritten.operands id (.inl ⟨fits.member, layout.idFst⟩)
  have addInputs := rewritten.operands store.nextInst (.inr ⟨rfl, rfl⟩)
  rw [inputs_eq found', Merge.operands_id (flows.linked.ne_nextInst fits.member)] at inputs'
  rw [Merge.operands_new] at addInputs
  have computed : Computed meaning store' config'.values store.nextInst := by
    rcases mirrors.coherent' with ⟨front, coherent⟩
    have placed := coherent.placed
    rw [mirrors.rest, isRest, remaining_cons_of_ne layout.idFst] at placed
    apply coherent.computed store.nextInst binOp
    apply flows'.defined.uses config'.bb coherent.bbMem front id _ placed inst' found' _
      store.nextInst (by simp [inputs']) binOp.mem_nonConstants
    rw [Inst.kind_of_bare bare, kind]
    rfl
  rcases computed.of_inputs addFound addKind addInputs with
    ⟨first, second, total, isFirst, isSecond, added, isTotal⟩
  rw [mirrors.values_old flows.linked layout.shamtMem layout.shamtFst] at isFirst
  rw [mirrors.values_old flows.linked layout.rvalMem layout.rvalFst] at isSecond
  rw [evaluates .kAdd (by simp) (by simp)] at added
  refine ⟨total, ?_, isTotal⟩
  rw [amountSum_eq merge, isFirst, isSecond, Option.bind_some, Option.bind_some, added]

/-- The second shift is by the sum of the amounts. -/
theorem step_shift (flows' : store'.Flows func) (evaluates : Evaluates meaning)
    (isRest : config.rest = id :: rest) {val total : ConstVal}
    (isVal : config.values left = some val)
    (sum : amountSum store fstShr rval config.values = some total) :
    store'.step meaning args config' =
      (ConstantFolding.binEval .kShr val total).toOption.map fun last =>
        .goes { config' with
          values := Function.update config'.values id (some last),
          rest := store.remaining fstShr (some (.kBinOp .kAdd)) rest } := by
  have layout := merge.layout flows.linked fits
  have rewritten := merge.rewritten flows.linked fits
  rcases merges_eq_some merges with ⟨inst, found, kind, -⟩
  rcases rewritten.kept id fits.member layout.idFst inst found with ⟨inst', found', bare⟩
  have kind' : inst'.kind = .kBinOp .kShr := (Inst.kind_of_bare bare).trans kind
  have inputs' := rewritten.operands id (.inl ⟨fits.member, layout.idFst⟩)
  rw [inputs_eq found', Merge.operands_id (flows.linked.ne_nextInst fits.member)] at inputs'
  have isRest' : config'.rest = id :: store.remaining fstShr (some (.kBinOp .kAdd)) rest := by
    rw [mirrors.rest, isRest, remaining_cons_of_ne layout.idFst]
  rcases sum_computed flows fits merge mirrors merges flows' evaluates isRest with
    ⟨total', sum', isTotal⟩
  cases Option.some.inj (sum.symm.trans sum')
  rw [step_eq isRest' found', reads_of_binOp kind', inputs', kind', List.map_cons,
    List.map_cons, List.map_nil, mirrors.values_old flows.linked layout.leftMem layout.leftFst,
    isVal, isTotal, Meaning.act_pair, Option.bind_some, Option.bind_some,
    evaluates .kShr (by simp) (by simp), Option.map_map]
  rfl

/-- What one shift by the sum yields. -/
theorem shift_once (flows' : store'.Flows func) (evaluates : Evaluates meaning)
    (isRest : config.rest = id :: rest)
    (goes : store.step meaning args config = some (.goes next)) :
    ∃ val total last, config.values left = some val ∧
      amountSum store fstShr rval config.values = some total ∧
      (InRange total → ConstantFolding.binEval .kShr val total = .ok last) ∧
      next = { config with
        values := Function.update config.values id (some last), rest } := by
  rcases fst_computed flows fits merge mirrors merges evaluates isRest with
    ⟨val, first, shifted, isVal, isFirst, shifts, isShifted⟩
  rcases sum_computed flows fits merge mirrors merges flows' evaluates isRest with
    ⟨total, sum, -⟩
  rcases merges_eq_some merges with ⟨inst, found, kind, -⟩
  have inputs := fits.inputs
  rw [inputs_eq found] at inputs
  rcases step_binOp isRest found kind goes with
    ⟨lhs, second, last, isLhs, isSecond, evaluated, equal⟩
  rw [reads_of_binOp kind, inputs] at isLhs isSecond
  simp only [List.map_cons, List.getElem?_cons_zero, List.getElem?_cons_succ,
    Option.some.injEq] at isLhs isSecond
  cases Option.some.inj (isShifted.symm.trans isLhs)
  rw [evaluates_eq_some evaluates (by simp) (by simp)] at evaluated
  cases equal
  refine ⟨val, total, last, isVal, sum, ?_, rfl⟩
  intro inRange
  rw [amountSum_eq merge, isFirst, isSecond, Option.bind_some, Option.bind_some] at sum
  have added : ConstantFolding.binEval .kAdd first second = .ok total := by
    rwa [← evaluates .kAdd (by simp) (by simp),
      evaluates_eq_some evaluates (by simp) (by simp)] at sum
  exact binEval_shr_shr shifts evaluated added inRange

/-- With the sum in range the shift yields the same. -/
theorem follows_shift (flows' : store'.Flows func) (evaluates : Evaluates meaning)
    (isRest : config.rest = id :: rest)
    (goes : store.step meaning args config = some (.goes next))
    {total : ConstVal} (sum : amountSum store fstShr rval config.values = some total)
    (inRange : InRange total) :
    ∃ next', store'.step meaning args config' = some (.goes next') ∧
      Mirrors meaning store store' func fstShr (some (.kBinOp .kAdd)) next next' := by
  rcases shift_once flows fits merge mirrors merges flows' evaluates isRest goes with
    ⟨val, total', last, isVal, sum', yields, equal⟩
  cases Option.some.inj (sum.symm.trans sum')
  have goes' : store'.step meaning args config' = _ :=
    step_shift flows fits merge mirrors merges flows' evaluates isRest isVal sum
  rw [yields inRange] at goes'
  refine ⟨_, goes', ?_⟩
  have coherent := coherent_next flows mirrors.coherent goes
  have coherent' := coherent_next flows' mirrors.coherent' goes'
  cases equal
  refine ⟨coherent, coherent', mirrors.pred, mirrors.bb, mirrors.world, rfl, ?_, mirrors.entered⟩
  intro key notFst notNew
  dsimp only
  by_cases isId : key = id
  · rw [isId, Function.update_self, Function.update_self]
  · rw [Function.update_of_ne isId, Function.update_of_ne isId]
    exact mirrors.values key notFst notNew

/-- Without, the shift yields nothing. -/
theorem stuck_shift (flows' : store'.Flows func) (evaluates : Evaluates meaning)
    (isRest : config.rest = id :: rest)
    (goes : store.step meaning args config = some (.goes next))
    (misfit : ¬ ∃ total, amountSum store fstShr rval config.values = some total ∧
      InRange total) : store'.step meaning args config' = none := by
  rcases shift_once flows fits merge mirrors merges flows' evaluates isRest goes with
    ⟨val, total, last, isVal, sum, -, -⟩
  rw [step_shift flows fits merge mirrors merges flows' evaluates isRest isVal sum,
    Option.map_eq_none_iff]
  cases evaluated : ConstantFolding.binEval .kShr val total with
  | error err => rfl
  | ok last => exact absurd ⟨total, sum, inRange_of_shr evaluated⟩ misfit

omit mirrors

/-- An execution goes on alike until the amounts do not fit. -/
theorem follows_merged (flows' : store'.Flows func) (evaluates : Evaluates meaning) :
    Follows (store.step meaning args) (store'.step meaning args)
      (Mirrors meaning store store' func fstShr (some (.kBinOp .kAdd)))
      (fun config _ => Misfit store meaning args id fstShr rval config) := by
  constructor
  case goes =>
    intro config config' next mirrors goes
    rcases step_eq_some goes with ⟨key, rest, inst, action, isRest, -⟩
    have someStep : store.step meaning args config ≠ none := by simp [goes]
    right
    by_cases isFst : key = fstShr
    · subst isFst
      by_cases fit : ∃ total, amountSum store key rval config.values = some total
      · rcases fit with ⟨total, sum⟩
        exact .inl (follows_sum flows fits merge mirrors merges flows' evaluates isRest goes sum)
      · exact .inr ⟨someStep, fun shiftsFit => fit (shiftsFit.sum rest isRest)⟩
    · by_cases isId : key = id
      · subst isId
        by_cases fit : ∃ total, amountSum store fstShr rval config.values = some total ∧
          InRange total
        · rcases fit with ⟨total, sum, inRange⟩
          exact .inl (follows_shift flows fits merge mirrors merges flows' evaluates isRest goes
            sum inRange)
        · exact .inr ⟨someStep, fun shiftsFit => fit (shiftsFit.inRange rest isRest)⟩
      · exact .inl ((matches_merged flows fits merge mirrors flows' isRest isFst isId).goes next
          goes)
  case returns =>
    intro config config' result mirrors returns
    rcases step_eq_some returns with ⟨key, rest, inst, action, isRest, -⟩
    have notBinOp : ¬ store.IsBinOp key := by
      rintro ⟨own, oper, found, kind⟩
      have goes := step_binOp isRest found kind returns
      rcases goes with ⟨-, -, val, -, -, -, equal⟩
      cases equal
    have notFst : key ≠ fstShr := fun isFst => notBinOp (isFst ▸ fits.fstBinOp)
    have notId : key ≠ id := fun isId => notBinOp (isId ▸ fits.binOp)
    exact .inl ((matches_merged flows fits merge mirrors flows' isRest notFst notId).returns
      result returns)

end Merged

end PeepHole

end LeechJit.Opt
