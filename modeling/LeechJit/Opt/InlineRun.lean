import LeechJit.Opt.InlineOthers

/-! # Results after inlining all calls

Each call that is inlined leaves a caller whose executions find their operands, with the results it
had, and callees that can be inlined as before.
-/

namespace LeechJit.Opt.Inlining

open IR Store

variable {World : Type} {store store' : Store} {func callee : FuncId} {call : InstId}
  {calls rest : List InstId} {caller source : Function} {meaning : Meaning World}
  {args : List ConstVal} {world : World} {result : Option ConstVal × World}

/-- The calls that are still to be inlined, in a function whose executions find their operands. -/
structure Running (store : Store) (meaning : Meaning World) (func : FuncId) (calls : List InstId)
    (caller : Function) : Prop extends Wired store func calls where
  tidy : store.Tidy
  ledger : Ledger store
  noInputs : ∀ id idx, store.kindOf id = some (.kParam idx) → store.inputs id = []
  found : store.functions func = some caller
  grounded : store.Grounded caller
  names : store.NamesPreds caller
  fits : ∀ call ∈ calls, CallFits store call
  expands : ∀ call ∈ calls, ∀ callee, store.kindOf call = some (.kCall callee) →
    ∃ source, Expandable store meaning callee call source

namespace Running

section Site

variable (running : Running store meaning func (call :: rest) caller)
  (site : Site func call store store')

include running

theorem caller_eq : site.caller = caller :=
  Option.some.inj (site.callerFound.symm.trans running.found)

theorem site_expands : Expandable store meaning site.callee call site.source := by
  rcases running.expands call List.mem_cons_self site.callee site.isCall with ⟨source, expandable⟩
  rwa [Option.some.inj (site.sourceFound.symm.trans expandable.found)]

theorem prepared : site.Prepared := by
  have expandable := running.site_expands site
  constructor
  case ledger => exact running.ledger
  case bindable =>
    constructor
    case recorded => exact running.ledger.recorded
    case present => exact running.tidy.apart.present _ _ site.first_mem
    case distinct => exact running.tidy.settled.nodup _
    case stored =>
      intro id inFirst
      exact kindOf_ne_none.mpr
        (stored_of_calledIn running.tidy ⟨site.first, site.first_mem, inFirst⟩)
    case noInputs => exact running.noInputs
  case seated =>
    rw [site.first_eq]
    exact expandable.seated
  case caller => exact running.caller_eq site ▸ running.grounded
  case callee => exact expandable.grounded
  case inlinable => exact (site.merging running.toWired).toInlinable
  case fits => exact site.fits_of_callFits (running.fits call List.mem_cons_self)

theorem exists_placed : ∃ target, store'.functions func = some target ∧
    ∃ expansion : Expansion store store' site.caller site.source call,
      expansion.Placed target := by
  have expandable := running.site_expands site
  have bbs : store.shape.bbs func = site.caller.bbs := Shape.bbs_eq site.callerFound
  apply site.exists_placed (running.prepared site) expandable.enteredOnce
  · intro bb bbMem
    exact running.behind call List.mem_cons_self bb (bbs ▸ bbMem)
  · exact site.bb_outgoing running.toWired
  · exact running.caller_eq site ▸ running.names
  · exact expandable.names
  · exact expandable.returns

include site in
/-- What the inlining of a call keeps, and that it keeps the results of the caller. -/
theorem step : ∃ target, Running store' meaning func rest target ∧
    ∀ {args world result}, store.Results caller meaning args world result →
      store'.Results target meaning args world result := by
  have prepared := running.prepared site
  have fits := prepared.fits
  rcases running.exists_placed site with ⟨target, found, expansion, placed⟩
  refine ⟨target, ?_, ?_⟩
  · constructor
    case toWired => exact site.wired running.toWired fits
    case tidy => exact site.tidy'
    case ledger => exact prepared.ledger_after (running.site_expands site).unread
    case noInputs => exact fun id idx => Site.params_no_inputs prepared running.noInputs idx
    case found => exact found
    case grounded => exact placed.grounded_target
    case names => exact placed.namesPreds
    case fits =>
      intro other member
      rw [site.callFits_iff running.toWired fits member]
      exact running.fits other (List.mem_cons_of_mem _ member)
    case expands =>
      intro other member callee isCallee
      rw [site.pending_kindOf running.toPending member] at isCallee
      have later := List.mem_cons_of_mem call member
      rcases running.expands other later callee isCallee with ⟨source, expandable⟩
      rcases site.later_callee running.toWired member isCallee with ⟨notFunc, notCallee⟩
      have notCall : other ≠ call := by
        rintro rfl
        exact (List.nodup_cons.mp running.nodup).1 member
      have listed := (mem_listed_iff site.callerFound).mpr (running.calledIn other later)
      exact ⟨source, Site.other_expandable prepared expandable notFunc notCallee listed notCall⟩
  · intro args world result completes
    rw [← running.caller_eq site] at completes
    exact Expansion.results placed.toFaithful site.isCall (running.site_expands site).realizes
      placed.sameRoot completes

end Site

/-- After all calls the function still has the results it had. -/
theorem run (running : Running store meaning func calls caller)
    (result : calls.foldlM (doInline func) store = .ok store') :
    ∃ target, store'.functions func = some target ∧ store'.Grounded target ∧
      store'.NamesPreds target ∧
        ∀ {args world result}, store.Results caller meaning args world result →
          store'.Results target meaning args world result := by
  induction calls generalizing store caller with
  | nil =>
      cases result
      exact ⟨caller, running.found, running.grounded, running.names, fun completes => completes⟩
  | cons call rest induction =>
      rw [List.foldlM_cons] at result
      rcases Result.bind_eq_ok.mp result with ⟨next, first, later⟩
      rcases running.toPending.site running.tidy first with ⟨site⟩
      rcases running.step site with ⟨middle, runningNext, kept⟩
      rcases induction runningNext later with ⟨target, found, grounded, names, keptLater⟩
      exact ⟨target, found, grounded, names, fun completes => keptLater (kept completes)⟩

end Running

/-! ## The calls of a function -/

theorem phisMatch_of_wellFormed (wellFormed : store.WellFormed source) :
    PhisMatch store source.bbs := by
  intro bb bbMem id inBlock vars isPhi
  rcases kindOf_ne_none.mp (isPhi ▸ Option.some_ne_none _) with ⟨inst, stored⟩
  rw [kindOf_eq stored, Option.some.injEq] at isPhi
  exact wellFormed.entries bb bbMem id inBlock inst vars stored isPhi

/-- A call of a well-formed function that can be inlined: not of the caller, with a value that is
returned, parameters in the places of their indices, and no phi that knows an edge that moves. -/
structure CanInline (store : Store) (meaning : Meaning World) (func : FuncId) (bb : BlockId)
    (call : InstId) (callee : FuncId) (source : Function) : Prop where
  found : store.functions callee = some source
  different : callee ≠ func
  value : source.resType ≠ .None
  wellFormed : store.WellFormed source
  enteredOnce : EnteredOnce store source
  returns : ∃ bb ∈ source.bbs, retOf store bb ≠ none
  unread : ReturnsUnread store source
  seated : Seated store (root source) call
  fits : Fits store bb callee
  realizes : Realizes store meaning callee source

namespace CanInline

variable {bb : BlockId} (canInline : CanInline store meaning func bb call callee source)

include canInline

theorem expandable : Expandable store meaning callee call source where
  found := canInline.found
  grounded := canInline.wellFormed.grounded
  names := canInline.wellFormed.namesPreds
  enteredOnce := canInline.enteredOnce
  returns := canInline.returns
  unread := canInline.unread
  seated := canInline.seated
  realizes := canInline.realizes

theorem merging : Merging store func callee where
  toInlinable := inlinable_of_wellFormed canInline.found canInline.different canInline.value
    canInline.wellFormed
  closed function again := by
    cases Option.some.inj (canInline.found.symm.trans again)
    exact canInline.wellFormed.closed
  phis := by
    rw [Shape.bbs_eq (show store.shape.functions callee = some source from canInline.found)]
    exact phisMatch_of_wellFormed canInline.wellFormed

end CanInline

/-- Inlining all calls of a well-formed function changes none of its results, and leaves a function
whose definitions dominate their uses, when each of the calls can be inlined. -/
theorem run_keeps_results (built : store.Built) (found : store.functions func = some caller)
    (wellFormed : store.WellFormed caller)
    (canInline : ∀ bb ∈ caller.bbs, ∀ call ∈ store.instructions bb, ∀ callee,
      store.kindOf call = some (.kCall callee) →
        ∃ source, CanInline store meaning func bb call callee source)
    (result : run store func = .ok store') : ∃ target, store'.functions func = some target ∧
      store'.Grounded target ∧ store'.NamesPreds target ∧
        ∀ args world result, store.Results caller meaning args world result →
          store'.Results target meaning args world result := by
  rcases Result.bind_eq_ok.mp result with ⟨calls, collecting, inlining⟩
  have bbs : store.shape.bbs func = caller.bbs := Shape.bbs_eq found
  have merging : ∀ id, CalledIn store func id → ∀ callee,
      store.kindOf id = some (.kCall callee) → Merging store func callee := by
    rintro id ⟨bb, bbMem, inBlock⟩ callee isCall
    rcases canInline bb (bbs ▸ bbMem) id inBlock callee isCall with ⟨source, can⟩
    exact can.merging
  have wired : Wired store func calls := by
    apply wired_candidates built.tidy found wellFormed.closed
      (edgesAgree_of_wellFormed wellFormed) (phisMatch_of_wellFormed wellFormed) _ merging
      collecting inlining
    exact fun bb bbMem front call back split callee isCall =>
      not_phi_behind wellFormed bbMem split isCall
  have running : Running store meaning func calls caller := by
    constructor
    case toWired => exact wired
    case tidy => exact built.tidy
    case ledger => exact .of_built built
    case noInputs => exact fun id idx => built.allShaped.param_inputs
    case found => exact found
    case grounded => exact wellFormed.grounded
    case names => exact wellFormed.namesPreds
    case fits =>
      intro call member bb inBlock callee isCall
      rcases wired.calledIn call member with ⟨home, homeMem, inHome⟩
      cases built.tidy.settled.home_unique inBlock inHome
      rcases canInline bb (bbs ▸ homeMem) call inBlock callee isCall with ⟨source, can⟩
      exact can.fits
    case expands =>
      intro call member callee isCall
      rcases wired.calledIn call member with ⟨home, homeMem, inHome⟩
      rcases canInline home (bbs ▸ homeMem) call inHome callee isCall with ⟨source, can⟩
      exact ⟨source, can.expandable⟩
  rcases running.run inlining with ⟨target, found, grounded, names, kept⟩
  exact ⟨target, found, grounded, names, fun _ _ _ => kept⟩

/-! ## The double of a distance -/

def doubles : Function :=
  { bbs := [3], resType := .I64, args := [.I64] }

/-- Comparisons, differences and sums, and the two calls of `distances`. -/
def measuring : Meaning Unit where
  binOp
    | .kLE, .I64 lhs, .I64 rhs => some (.I1 (lhs.sle rhs))
    | .kSub, .I64 lhs, .I64 rhs => some (.I64 (lhs - rhs))
    | .kAdd, .I64 lhs, .I64 rhs => some (.I64 (lhs + rhs))
    | _, _, _ => none
  unaryOp _ _ := none
  cast _ _ := none
  isTrue cond := decide (cond = .I1 true)
  call callee vals world :=
    if callee = 0 ∧ vals = [.I64 2, .I64 7] then some (some (.I64 5), world)
    else if callee = 1 ∧ vals = [.I64 5] then some (some (.I64 10), world)
    else none

section Distances

variable (built : distances.foldlM BuildStep.apply Store.empty = .ok store)

include built

theorem realizes_measures : Realizes store measuring 0 measures := by
  have ran : Steps.runFor (store.step measuring [.I64 2, .I64 7]) 6 (store.start measures ()) =
      some (some (some (.I64 5), ())) := by
    cases built
    rfl
  intro vals world result calls
  simp only [measuring, true_and, Nat.zero_ne_one, false_and, if_false] at calls
  split_ifs at calls with isVals
  · cases calls
    rw [isVals]
    exact Steps.completes_of_runFor ran

theorem realizes_doubles : Realizes store measuring 1 doubles := by
  have ran : Steps.runFor (store.step measuring [.I64 5]) 3 (store.start doubles ()) =
      some (some (some (.I64 10), ())) := by
    cases built
    rfl
  intro vals world result calls
  simp only [measuring, true_and, Nat.one_ne_zero, false_and, if_false] at calls
  split_ifs at calls with isVals
  · cases calls
    rw [isVals]
    exact Steps.completes_of_runFor ran

theorem canInline_measures : CanInline store measuring 2 4 13 0 measures := by
  have facts : store.functions 0 = some measures ∧ store.checkWellFormed measures = true ∧
      retOf store 1 ≠ none := by
    cases built
    exact ⟨rfl, rfl, by decide⟩
  constructor
  case found => exact facts.1
  case different => decide
  case value => decide
  case wellFormed => exact checkWellFormed_sound facts.2.1
  case enteredOnce => exact enteredOnce_measures built
  case returns => exact ⟨1, by decide, facts.2.2⟩
  case unread =>
    apply returnsUnread_of_below (.of_built ⟨_, built⟩)
    cases built
    decide
  case seated => exact seated_measures built
  case fits => exact fits_measures built
  case realizes => exact realizes_measures built

theorem canInline_doubles : CanInline store measuring 2 4 14 1 doubles := by
  have facts : store.functions 1 = some doubles ∧ store.checkWellFormed doubles = true ∧
      retOf store 3 ≠ none ∧ store.succs 3 = [] := by
    cases built
    exact ⟨rfl, rfl, by decide, rfl⟩
  have isBlock : ∀ bb ∈ doubles.bbs, bb = 3 := fun bb bbMem => List.mem_singleton.mp bbMem
  have wellFormed := checkWellFormed_sound facts.2.1
  constructor
  case found => exact facts.1
  case different => decide
  case value => decide
  case wellFormed => exact wellFormed
  case enteredOnce =>
    apply enteredOnce_of_paramsOf
    · exact fun bb bbMem notRoot => absurd (isBlock bb bbMem) notRoot
    · intro bb bbMem
      rw [isBlock bb bbMem, facts.2.2.2]
      exact List.not_mem_nil
  case returns => exact ⟨3, by decide, facts.2.2.1⟩
  case unread =>
    apply returnsUnread_of_below (.of_built ⟨_, built⟩)
    cases built
    decide
  case seated =>
    cases built
    exact seated_of_kinds (show _ = (List.range 1).map _ from rfl) (by decide)
  case fits =>
    apply fits_of_noPhis (noPhis_distances built) facts.1 wellFormed.closed
    exact fun _ other otherMem _ => isBlock other otherMem
  case realizes => exact realizes_doubles built

theorem canInline_distances : ∀ bb ∈ doublesDistance.bbs, ∀ call ∈ store.instructions bb, ∀ callee,
    store.kindOf call = some (.kCall callee) →
      ∃ source, CanInline store measuring 2 bb call callee source := by
  have facts : store.instructions 4 = [11, 12, 13, 14, 15] ∧
      [11, 12, 13, 14, 15].map store.kindOf = [some (.kConst (.I64 2)), some (.kConst (.I64 7)),
        some (.kCall 0), some (.kCall 1), some .kRet] := by
    cases built
    exact ⟨rfl, rfl⟩
  rcases facts with ⟨lists, kinds⟩
  simp only [List.map_cons, List.map_nil, List.cons.injEq, and_true] at kinds
  rcases kinds with ⟨isConst0, isConst1, isCall0, isCall1, isRet⟩
  intro bb bbMem call inBlock callee isCall
  cases List.mem_singleton.mp bbMem
  rw [lists] at inBlock
  simp only [List.mem_cons, List.not_mem_nil, or_false] at inBlock
  rcases inBlock with rfl | rfl | rfl | rfl | rfl
  · cases isConst0.symm.trans isCall
  · cases isConst1.symm.trans isCall
  · cases isCall0.symm.trans isCall
    exact ⟨measures, canInline_measures built⟩
  · cases isCall1.symm.trans isCall
    exact ⟨doubles, canInline_doubles built⟩
  · cases isRet.symm.trans isCall

end Distances

theorem run_keeps_results_distances : ∃ store store' target,
    distances.foldlM BuildStep.apply Store.empty = .ok store ∧ run store 2 = .ok store' ∧
      store'.functions 2 = some target ∧ store'.Grounded target ∧ store'.NamesPreds target ∧
        store'.Results target measuring [] () (some (.I64 10), ()) := by
  have runs : ∃ store store', distances.foldlM BuildStep.apply Store.empty = .ok store ∧
      run store 2 = .ok store' ∧ store.functions 2 = some doublesDistance ∧
      store.checkWellFormed doublesDistance = true ∧
      Steps.runFor (store.step measuring []) 6 (store.start doublesDistance ()) =
        some (some (some (.I64 10), ())) :=
    ⟨_, _, rfl, rfl, rfl, rfl, rfl⟩
  rcases runs with ⟨store, store', built, ran, found, wellFormed, completes⟩
  rcases run_keeps_results ⟨_, built⟩ found (checkWellFormed_sound wellFormed)
    (canInline_distances built) ran with ⟨target, found', grounded, names, kept⟩
  exact ⟨store, store', target, built, ran, found', grounded, names,
    kept [] () _ (Steps.completes_of_runFor completes)⟩

end LeechJit.Opt.Inlining
