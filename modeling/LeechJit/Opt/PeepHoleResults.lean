import LeechJit.Opt.MergedShifts

/-! # Results before and after peephole rewriting

A round keeps the result of every execution, unless it merges two shifts whose amounts do
not fit. Such an execution is stuck at the sum or at the shift by it, and stays so in
all later rounds.
-/

namespace LeechJit.Opt

open IR Store Steps

/-- Where an execution before the round comes to the shifts that the round merges, their
amounts fit. -/
def Round.ShiftsFit {World : Type} (meaning : Meaning World) (args : List ConstVal)
    (func : Function) (world : World) (round : Round) : Prop :=
  ∀ fstShr rval, PeepHole.merges round.store round.id = some (fstShr, rval) →
    ∀ config, Reaches (round.store.step meaning args) (round.store.start func world) config →
      PeepHole.ShiftsFit round.store round.id fstShr rval config

namespace PeepHole

variable {World : Type} {meaning : Meaning World} {args : List ConstVal} {world : World}
  {store store' : Store} {func : Function} {id value old : InstId} {new : Option InstKind}
  {operands : InstId → List InstId} {result : Option ConstVal × World}

/-! ## Stuck executions -/

/-- An addition of the pass, which knows no block. -/
def IsSum (store : Store) (id : InstId) : Prop :=
  ∃ inst, store.insts id = some inst ∧ inst.kind = .kBinOp .kAdd ∧ inst.bb = none

/-- A sum of two amounts, or a shift by one. -/
def IsMerged (store : Store) (id : InstId) : Prop :=
  IsSum store id ∨ ∃ inst sum, store.insts id = some inst ∧ inst.kind = .kBinOp .kShr ∧
    inst.inputs[1]? = some sum ∧ IsSum store sum

/-- The execution is stuck where a round has merged two shifts. -/
def Jams (meaning : Meaning World) (args : List ConstVal) (func : Function) (world : World)
    (store : Store) : Prop :=
  ∃ config id rest, Reaches (store.step meaning args) (store.start func world) config ∧
    config.rest = id :: rest ∧ IsMerged store id ∧ store.step meaning args config = none

theorem Jams.not_results (jams : Jams meaning args func world store) :
    ¬ store.Results func meaning args world result := by
  rcases jams with ⟨config, -, -, reaches, -, -, stuck⟩
  exact reaches.not_completes stuck result

theorem IsSum.not_const (isSum : IsSum store id) : ¬ isConstAt store id = true := by
  rcases isSum with ⟨inst, found, kind, -⟩
  simp [isConstAt, found, isConst, kind]

section Rewriting

variable (rewritten : store.Rewritten { id | id ∈ store.listed func } old new operands store')

include rewritten

theorem IsSum.ne_old (isSum : IsSum store id) : id ≠ old := by
  rintro rfl
  rcases isSum with ⟨inst, found, -, homeless⟩
  rcases rewritten.placed with ⟨again, home, -, foundAgain, atHome, -⟩
  cases Option.some.inj (foundAgain.symm.trans found)
  cases homeless.symm.trans atHome

theorem IsSum.kept (isSum : IsSum store id) (member : id ∈ store.listed func) :
    IsSum store' id := by
  have notOld := isSum.ne_old rewritten
  rcases isSum with ⟨inst, found, kind, homeless⟩
  rcases rewritten.kept id member notOld inst found with ⟨inst', found', bare⟩
  exact ⟨inst', found', (Inst.kind_of_bare bare).trans kind,
    (Inst.bb_of_bare bare).trans homeless⟩

theorem IsMerged.kept (linked : store.Linked { id | id ∈ store.listed func })
    (isMerged : IsMerged store id) (member : id ∈ store.listed func) (notOld : id ≠ old)
    (amount : ∀ sum, IsSum store sum → (store.inputs id)[1]? = some sum →
      (operands id)[1]? = some sum) : IsMerged store' id := by
  rcases isMerged with isSum | ⟨inst, sum, found, kind, isAmount, isSum⟩
  · exact .inl (isSum.kept rewritten member)
  · rcases rewritten.kept id member notOld inst found with ⟨inst', found', bare⟩
    have inputs' := rewritten.operands id (.inl ⟨member, notOld⟩)
    rw [← inputs_eq found] at isAmount
    rw [inputs_eq found'] at inputs'
    have sumMem := linked.inputs id member sum (List.mem_of_getElem? isAmount)
    refine .inr ⟨inst', sum, found', (Inst.kind_of_bare bare).trans kind, ?_,
      isSum.kept rewritten sumMem⟩
    rw [inputs']
    exact amount sum isSum isAmount

end Rewriting

/-- No rule puts an operand in place of a shift by a sum. -/
theorem IsMerged.ne_replaced (isMerged : IsMerged store id)
    (isReplacement : replacement store old = some value)
    (rewritten : store.Rewritten { id | id ∈ store.listed func } old new operands store') :
    id ≠ old := by
  rcases isMerged with isSum | ⟨inst, sum, found, kind, isAmount, isSum⟩
  · exact isSum.ne_old rewritten
  · rintro rfl
    unfold replacement at isReplacement
    split at isReplacement
    case h_2 => cases isReplacement
    case h_1 type oper user rest bb lhs rhs foundAgain =>
      cases Option.some.inj (found.symm.trans foundAgain)
      cases kind
      cases isAmount
      have notConst := isSum.not_const
      have notZero : constIs store 0 sum = false := by
        simp only [isConstAt, constIs] at notConst ⊢
        cases stored : store.insts sum with
        | none => rfl
        | some other =>
            rw [stored] at notConst
            simp only [Option.any_some] at notConst ⊢
            simp [notConst]
      simp [replaced, notZero] at isReplacement

theorem Swapped.isSum (swapped : Swapped store id store') {key : InstId}
    (isSum : IsSum store key) : IsSum store' key := by
  rcases isSum with ⟨inst, found, kind, homeless⟩
  exact ⟨_, swapped.relinked.insts found, kind, homeless⟩

theorem Swapped.isMerged (swapped : Swapped store id store')
    (commutes : store' = store ∨ Commutes store id) {key : InstId}
    (isMerged : IsMerged store key) : IsMerged store' key := by
  rcases commutes with rfl | ⟨own, oper, foundOwn, kindOwn, commutes⟩
  · exact isMerged
  rcases isMerged with isSum | ⟨inst, sum, found, kind, isAmount, isSum⟩
  · exact .inl (swapped.isSum isSum)
  · have notId : key ≠ id := by
      rintro rfl
      cases Option.some.inj (found.symm.trans foundOwn)
      cases kind.symm.trans kindOwn
      rcases commutes with isAdd | isOr
      · cases isAdd
      · cases isOr
    refine .inr ⟨_, sum, swapped.relinked.insts found, kind, ?_, swapped.isSum isSum⟩
    rw [← inputs_eq found, ← swapped.others key notId] at isAmount
    exact isAmount

/-! ## One round -/

section Merging

variable {fstShr rval left fstShamt : InstId} {config config' : Config World}
  (flows : store.Flows func) (flows' : store'.Flows func) (evaluates : Evaluates meaning)
  (merges : merges store id = some (fstShr, rval))
  (fits : Merge.Fits store { key | key ∈ store.listed func } id fstShr rval)
  (merge : Merge store id fstShr rval left fstShamt store')

include merges merge in
/-- The amounts of merged shifts are constants. -/
theorem IsMerged.ne_merged {key : InstId} (isMerged : IsMerged store key)
    (rewritten : store.Rewritten { id | id ∈ store.listed func } fstShr new operands store') :
    key ≠ fstShr ∧ key ≠ id := by
  rcases merges_eq_some merges with ⟨shift, shiftFound, isShr, -, -, isRval, -⟩
  rcases isMerged with isSum | ⟨inst, sum, found, kind, isAmount, isSum⟩
  · refine ⟨isSum.ne_old rewritten, ?_⟩
    rintro rfl
    rcases isSum with ⟨inst, found, kind, -⟩
    cases Option.some.inj (found.symm.trans shiftFound)
    cases kind.symm.trans isShr
  · constructor
    · rintro rfl
      cases Option.some.inj (found.symm.trans merge.fstAt)
      cases Option.some.inj (isAmount.symm.trans merge.isShamt)
      apply isSum.not_const
      simp [isConstAt, merge.shamtAt, merge.const]
    · rintro rfl
      cases Option.some.inj (found.symm.trans shiftFound)
      cases Option.some.inj (isAmount.symm.trans isRval)
      exact isSum.not_const (isConstAt_of_merges merges)

include flows flows' evaluates merges fits merge

/-- Where the amounts do not fit, the other execution is stuck. -/
theorem jams_of_misfit
    (reaches' : Reaches (store'.step meaning args) (store'.start func world) config')
    (mirrors : Mirrors meaning store store' func fstShr (some (.kBinOp .kAdd)) config config')
    (misfit : Misfit store meaning args id fstShr rval config) :
    Jams meaning args func world store' := by
  have layout := merge.layout flows.linked fits
  have rewritten := merge.rewritten flows.linked fits
  have isSum : IsSum store' store.nextInst := rewritten.added _ rfl
  rcases misfit with ⟨someStep, notFit⟩
  by_cases added : ∀ rest, config.rest = fstShr :: rest →
      ∃ total, amountSum store fstShr rval config.values = some total
  · have outOfRange : ¬ ∀ rest, config.rest = id :: rest →
        ∃ total, amountSum store fstShr rval config.values = some total ∧ InRange total :=
      fun inRange => notFit ⟨added, inRange⟩
    simp only [not_forall] at outOfRange
    rcases outOfRange with ⟨rest, isRest, outOfRange⟩
    rcases merges_eq_some merges with ⟨inst, found, kind, -⟩
    rcases Option.ne_none_iff_exists'.mp someStep with ⟨outcome, steps⟩
    rcases step_binOp isRest found kind steps with ⟨lhs, rhs, val, -, -, -, rfl⟩
    rcases rewritten.kept id fits.member layout.idFst inst found with ⟨inst', found', bare⟩
    have inputs' := rewritten.operands id (.inl ⟨fits.member, layout.idFst⟩)
    rw [inputs_eq found', Merge.operands_id (flows.linked.ne_nextInst fits.member)] at inputs'
    refine ⟨config', id, store.remaining fstShr (some (.kBinOp .kAdd)) rest, reaches', ?_, ?_, ?_⟩
    · rw [mirrors.rest, isRest, remaining_cons_of_ne layout.idFst]
    · exact .inr ⟨inst', store.nextInst, found', (Inst.kind_of_bare bare).trans kind,
        by simp [inputs'], isSum⟩
    · exact stuck_shift flows fits merge mirrors merges flows' evaluates isRest steps outOfRange
  · simp only [not_forall] at added
    rcases added with ⟨rest, isRest, notAdded⟩
    refine ⟨config', store.nextInst, store.remaining fstShr (some (.kBinOp .kAdd)) rest, reaches',
      ?_, .inl isSum, ?_⟩
    · rw [mirrors.rest, isRest, remaining_cons_old rfl]
    · rw [step_sum flows fits merge mirrors evaluates isRest, Option.map_eq_none_iff]
      exact Option.eq_none_iff_forall_not_mem.mpr fun total sum => notAdded ⟨total, sum⟩

theorem jams_of_goesAmiss
    (goesAmiss : GoesAmiss (store.step meaning args) (store'.step meaning args)
      (Mirrors meaning store store' func fstShr (some (.kBinOp .kAdd)))
      (fun config _ => Misfit store meaning args id fstShr rval config)
      (store.start func world) (store'.start func world)) :
    Jams meaning args func world store' := by
  rcases goesAmiss with ⟨config, config', -, reaches', mirrors, misfit⟩
  exact jams_of_misfit flows flows' evaluates merges fits merge reaches' mirrors misfit

end Merging

section Round

variable (flows : store.Flows func) (pending : Pending store func id)
  (evaluates : Evaluates meaning) (returns : fold store id = .ok store')

include flows pending evaluates returns

/-- An execution that is stuck at merged shifts is so after the next round. -/
theorem jams_fold (jams : Jams meaning args func world store) :
    Jams meaning args func world store' := by
  have flows' := flows_fold flows pending returns
  have member : id ∈ store.listed func := by
    have round : Pass.peepHole.rewrite store id = .ok store' := returns
    exact Pass.mem_listed pending round
  rcases jams with ⟨config, key, rest, reaches, isRest, isMerged, stuck⟩
  rcases fold_cases flows.linked member returns with
    ⟨value, isReplacement, isInput, rewritten⟩ |
      ⟨-, ⟨-, swapped, commutes⟩ | ⟨fstShr, rval, left, fstShamt, merges, merge⟩⟩
  · have oldBinOp := Pass.isBinOp_of_fold returns
    have different : value ≠ id := by
      rintro rfl
      exact flows.linked.not_self member oldBinOp isInput
    have follows : Follows (store.step meaning args) (store'.step meaning args) _ _ :=
      follows_replaced flows flows' evaluates oldBinOp isReplacement different rewritten
    rcases follows.reaches (mirrors_start flows rewritten flows' world) reaches with
      ⟨config', reaches', mirrors⟩ | ⟨-, -, -, -, -, amiss⟩
    · have notOld := isMerged.ne_replaced isReplacement rewritten
      have keyMem := mirrors.listed isRest
      refine ⟨config', key, store.remaining id none rest, reaches', ?_, ?_, ?_⟩
      · rw [mirrors.rest, isRest, remaining_cons_of_ne notOld]
      · apply isMerged.kept rewritten flows.linked keyMem notOld
        intro sum isSum isAmount
        rw [List.getElem?_map, isAmount, Option.map_some, redirect,
          if_neg (isSum.ne_old rewritten)]
      · exact (matches_replaced flows flows' evaluates oldBinOp isReplacement different rewritten
          mirrors isRest notOld).stuck stuck
    · cases amiss
  · have same : store'.step meaning args = store.step meaning args :=
      swapped.step_eq flows.linked member evaluates commutes
    refine ⟨config, key, rest, ?_, isRest, swapped.isMerged commutes isMerged, ?_⟩
    · rw [same, swapped.start_eq]
      exact reaches
    · rw [same]
      exact stuck
  · have fits : Merge.Fits store { key | key ∈ store.listed func } id fstShr rval :=
      fits_of_merges flows.linked member merges
    have rewritten := merge.some.rewritten flows.linked fits
    have follows : Follows (store.step meaning args) (store'.step meaning args) _ _ :=
      follows_merged flows fits merge.some merges flows' evaluates
    rcases follows.reaches (mirrors_start flows rewritten flows' world) reaches with
      ⟨config', reaches', mirrors⟩ | goesAmiss
    · rcases isMerged.ne_merged merges merge.some rewritten with ⟨notFst, notId⟩
      have keyMem := mirrors.listed isRest
      refine ⟨config', key, store.remaining fstShr (some (.kBinOp .kAdd)) rest, reaches',
        ?_, ?_, ?_⟩
      · rw [mirrors.rest, isRest, remaining_cons_of_ne notFst]
      · apply isMerged.kept rewritten flows.linked keyMem notFst
        intro sum _ isAmount
        rwa [Merge.operands_other (flows.linked.ne_nextInst keyMem) notId]
      · exact (matches_merged flows fits merge.some mirrors flows' isRest notFst notId).stuck stuck
    · exact jams_of_goesAmiss flows flows' evaluates merges fits merge.some goesAmiss

/-- A round keeps the result of an execution if the amounts fit. -/
theorem results_fold (results : store.Results func meaning args world result)
    (shiftsFit : (Round.mk .peepHole store id).ShiftsFit meaning args func world) :
    store'.Results func meaning args world result := by
  have flows' := flows_fold flows pending returns
  have member : id ∈ store.listed func := by
    have round : Pass.peepHole.rewrite store id = .ok store' := returns
    exact Pass.mem_listed pending round
  rcases fold_cases flows.linked member returns with
    ⟨value, isReplacement, isInput, rewritten⟩ |
      ⟨-, ⟨-, swapped, commutes⟩ | ⟨fstShr, rval, left, fstShamt, merges, merge⟩⟩
  · have oldBinOp := Pass.isBinOp_of_fold returns
    have different : value ≠ id := by
      rintro rfl
      exact flows.linked.not_self member oldBinOp isInput
    have follows : Follows (store.step meaning args) (store'.step meaning args) _ _ :=
      follows_replaced flows flows' evaluates oldBinOp isReplacement different rewritten
    rcases follows.completes (mirrors_start flows rewritten flows' world) results with
      results' | ⟨-, -, -, -, -, amiss⟩
    · exact results'
    · cases amiss
  · rw [Results, swapped.step_eq flows.linked member evaluates commutes, swapped.start_eq]
    exact results
  · have fits : Merge.Fits store { key | key ∈ store.listed func } id fstShr rval :=
      fits_of_merges flows.linked member merges
    have rewritten := merge.some.rewritten flows.linked fits
    have follows : Follows (store.step meaning args) (store'.step meaning args) _ _ :=
      follows_merged flows fits merge.some merges flows' evaluates
    rcases follows.completes (mirrors_start flows rewritten flows' world) results with
      results' | ⟨config, -, reaches, -, -, -, notFit⟩
    · exact results'
    · exact absurd (shiftsFit fstShr rval merges config reaches) notFit

/-- Otherwise the execution is stuck at the merged shifts. -/
theorem jams_of_not_shiftsFit (results : store.Results func meaning args world result)
    (notFit : ¬ (Round.mk .peepHole store id).ShiftsFit meaning args func world) :
    Jams meaning args func world store' := by
  have flows' := flows_fold flows pending returns
  have member : id ∈ store.listed func := by
    have round : Pass.peepHole.rewrite store id = .ok store' := returns
    exact Pass.mem_listed pending round
  simp only [Round.ShiftsFit, not_forall] at notFit
  rcases notFit with ⟨fstShr, rval, merges, config, reaches, notFit⟩
  rcases fold_cases flows.linked member returns with
    ⟨value, isReplacement, -⟩ | ⟨-, ⟨notMerged, -⟩ | ⟨fst, amount, left, fstShamt, merges', merge⟩⟩
  · cases isReplacement.symm.trans (replacement_of_merges flows.linked member merges)
  · cases merges.symm.trans notMerged
  · cases merges.symm.trans merges'
    have fits : Merge.Fits store { key | key ∈ store.listed func } id fstShr rval :=
      fits_of_merges flows.linked member merges
    have rewritten := merge.some.rewritten flows.linked fits
    have follows : Follows (store.step meaning args) (store'.step meaning args) _ _ :=
      follows_merged flows fits merge.some merges flows' evaluates
    rcases follows.reaches (mirrors_start flows rewritten flows' world) reaches with
      ⟨config', reaches', mirrors⟩ | goesAmiss
    · have someStep := (Completes.later results reaches).has_step
      exact jams_of_misfit flows flows' evaluates merges fits merge.some reaches' mirrors
        ⟨someStep, notFit⟩
    · exact jams_of_goesAmiss flows flows' evaluates merges fits merge.some goesAmiss

end Round

/-! ## The whole run -/

section Run

variable {candidates : List InstId}

theorem jams_rounds (evaluates : Evaluates meaning) (flows : store.Flows func)
    (pending : ∀ id ∈ candidates, Pending store func id)
    (jams : Jams meaning args func world store)
    (returns : candidates.foldlM fold store = .ok store') :
    Jams meaning args func world store' := by
  induction candidates generalizing store with
  | nil =>
      cases returns
      exact jams
  | cons id rest induction =>
      rw [List.foldlM_cons] at returns
      rcases Result.bind_eq_ok.mp returns with ⟨next, first, later⟩
      have here := pending id List.mem_cons_self
      rcases next_round flows.toHoused pending first with ⟨-, -, pendingNext⟩
      exact induction (flows_fold flows here first) pendingNext
        (jams_fold flows here evaluates first jams) later

theorem results_rounds_iff (evaluates : Evaluates meaning) (flows : store.Flows func)
    (pending : ∀ id ∈ candidates, Pending store func id)
    (results : store.Results func meaning args world result)
    (returns : candidates.foldlM fold store = .ok store') :
    store'.Results func meaning args world result ↔ ∀ round ∈ Opt.rounds fold candidates store,
      (Round.mk .peepHole round.1 round.2).ShiftsFit meaning args func world := by
  induction candidates generalizing store with
  | nil =>
      cases returns
      simp [rounds, results]
  | cons id rest induction =>
      rw [List.foldlM_cons] at returns
      rcases Result.bind_eq_ok.mp returns with ⟨next, first, later⟩
      have here := pending id List.mem_cons_self
      have flowsNext := flows_fold flows here first
      rcases next_round flows.toHoused pending first with ⟨-, -, pendingNext⟩
      simp only [rounds, first, List.forall_mem_cons]
      constructor
      · intro resultsAfter
        by_cases shiftsFit : (Round.mk .peepHole store id).ShiftsFit meaning args func world
        · have resultsNext := results_fold flows here evaluates first results shiftsFit
          exact ⟨shiftsFit, (induction flowsNext pendingNext resultsNext later).mp resultsAfter⟩
        · have jams := jams_of_not_shiftsFit flows here evaluates first results shiftsFit
          have jamsAfter := jams_rounds evaluates flowsNext pendingNext jams later
          exact absurd resultsAfter jamsAfter.not_results
      · rintro ⟨shiftsFit, shiftsFitLater⟩
        have resultsNext := results_fold flows here evaluates first results shiftsFit
        exact (induction flowsNext pendingNext resultsNext later).mpr shiftsFitLater

end Run

/-- A run keeps the results of executions exactly when, in each execution that has one, the
amounts of all shifts that are merged fit. -/
theorem results_kept_iff (evaluates : Evaluates meaning) (wellFormed : store.WellFormed func)
    (returns : run store func = .ok store') :
    (∀ result, store.Results func meaning args world result →
      store'.Results func meaning args world result) ↔
      ((∃ result, store.Results func meaning args world result) →
        ∀ round ∈ Pass.peepHole.rounds store func, round.ShiftsFit meaning args func world) := by
  rcases Result.bind_eq_ok.mp returns with ⟨candidates, collected, folding⟩
  have collecting : Pass.peepHole.candidates store func = .ok candidates := collected
  have pending := Pass.pending_candidates wellFormed.housed collecting
  have rounds : (∀ round ∈ Pass.peepHole.rounds store func,
      round.ShiftsFit meaning args func world) ↔ ∀ round ∈ Opt.rounds fold candidates store,
        (Round.mk .peepHole round.1 round.2).ShiftsFit meaning args func world := by
    simp only [Pass.rounds, collecting, List.forall_mem_map]
    rfl
  rw [rounds]
  have decides : ∀ result, store.Results func meaning args world result → _ := fun result results =>
    results_rounds_iff evaluates wellFormed.flows pending results folding
  constructor
  · rintro kept ⟨result, results⟩
    exact (decides result results).mp (kept result results)
  · intro fit result results
    exact (decides result results).mpr (fit ⟨result, results⟩)

/-! ## Single functions -/

/-- Operators as they are folded; everything else ends the execution. -/
def folding : Meaning Unit where
  binOp oper lhs rhs := (ConstantFolding.binEval oper lhs rhs).toOption
  unaryOp _ _ := none
  cast _ _ := none
  isTrue _ := false
  call _ _ _ := none

theorem evaluates_folding : Evaluates folding := fun _ _ _ _ _ => rfl

theorem results_kept_iff_shifts :
    ∃ store', run (shifts [0, 1, 3, 2, 4, 5]) shifting = .ok store' ∧
      ((∀ result, (shifts [0, 1, 3, 2, 4, 5]).Results shifting folding [.I64 40] () result →
        store'.Results shifting folding [.I64 40] () result) ↔
        ((∃ result, (shifts [0, 1, 3, 2, 4, 5]).Results shifting folding [.I64 40] () result) →
          ∀ round ∈ Pass.peepHole.rounds (shifts [0, 1, 3, 2, 4, 5]) shifting,
            round.ShiftsFit folding [.I64 40] shifting ())) :=
  ⟨_, rfl, results_kept_iff evaluates_folding (checkWellFormed_sound rfl) rfl⟩

/-- A byte is shifted by 3 and then by 4. -/
def byteShifts : Store :=
  .ofTables
    [{ type := .I8, kind := .kParam 0, users := [3], bb := some 0 },
      { type := .I8, kind := .kConst (.I8 3), users := [3], bb := some 0 },
      { type := .I8, kind := .kConst (.I8 4), users := [4], bb := some 0 },
      { type := .I8, kind := .kBinOp .kShr, users := [4], bb := some 0, inputs := [0, 1] },
      { type := .I8, kind := .kBinOp .kShr, users := [5], bb := some 0, inputs := [3, 2] },
      { kind := .kRet, bb := some 0, inputs := [4] }]
    [{ instructions := [0, 1, 2, 3, 4, 5] }] []

def shiftingByte : Function :=
  { bbs := [0], resType := .I8, args := [.I8] }

/-- A byte can be shifted by 3 and by 4, but not by 7. -/
theorem not_results_byteShifts :
    Evaluates folding ∧ byteShifts.WellFormed shiftingByte ∧
      ∃ store', run byteShifts shiftingByte = .ok store' ∧
        byteShifts.Results shiftingByte folding [.I8 127] () (some (.I8 0), ()) ∧
        ∀ result, ¬ store'.Results shiftingByte folding [.I8 127] () result := by
  refine ⟨evaluates_folding, checkWellFormed_sound rfl, _, rfl, ?_, ?_⟩
  · have ran : runFor (byteShifts.step folding [.I8 127]) 6 (byteShifts.start shiftingByte ()) =
        some (some (some (.I8 0), ())) := by rfl
    exact completes_of_runFor ran
  · intro result
    apply not_completes_of_runFor (?_ : runFor _ 6 _ = some none)
    rfl

end PeepHole

end LeechJit.Opt
