import LeechJit.Opt.InlineFits

/-! # Phi entries after inlining

The entries of the phis match the predecessors again only where no edge that a phi knows was moved.
-/

namespace LeechJit.Opt.Inlining

open IR Store LeechJit.Graph

variable {store store' : Store} {func callee : FuncId} {call id : InstId} {vars : List PhiEntry}
  {calls rest : List InstId}

namespace Site

variable (site : Site func call store store')

include site

/-- No later call is in the block of this one. -/
theorem bb_noCalls (lined : Lined store func (call :: rest)) :
    ∀ other ∈ rest, other ∉ store'.instructions site.bb := by
  intro other member inBB
  rcases site.later_home lined member inBB with ⟨isAfter, -⟩ | ⟨-, notBB, -⟩
  · exact site.ne_after (site.tidy.apart.present func _ site.bbMem) isAfter
  · exact notBB rfl

theorem callee_noCalls (lined : Lined store func (call :: rest)) {bb : BlockId}
    (inCallee : bb ∈ store.shape.bbs site.callee) :
    ∀ other ∈ rest, other ∉ store'.instructions bb := by
  intro other member inBlock
  rcases site.later_home lined member inBlock with ⟨isAfter, -⟩ | ⟨inCaller, -, -⟩
  · exact site.callee_ne_after inCallee isAfter
  · exact site.different (site.tidy.apart.disjoint func site.callee bb inCaller inCallee)

/-- A phi that the block of the call led to keeps its entry for that block. -/
theorem wrong_outgoing (wired : Wired store func (call :: rest)) {succ : BlockId}
    (isSucc : succ ∈ store.succs site.bb) (inSucc : id ∈ store.instructions succ)
    (isPhi : store.kindOf id = some (.kPhi vars)) :
    Wrong store' func rest succ id vars site.bb := by
  have inlinable := (site.merging wired).toInlinable
  have outgoing := site.bb_outgoing wired
  have member := outgoing.succsMem succ isSucc
  have isPred : site.bb ∈ store.preds succ := by
    rw [mem_preds_iff]
    change 0 < store.excess site.bb succ + ((store.succs site.bb).count succ : Int)
    have positive := List.count_pos_iff.mpr isSucc
    rw [outgoing.excess succ member]
    omega
  constructor
  · exact site.mem_bbs.mpr (.inl member)
  · exact site.phi_stays member inSucc isPhi (site.not_behind wired.toLined isPhi)
  · exact site.kindOf_phi isPhi (site.below_of_calledIn ⟨succ, member, inSucc⟩)
  · rw [(wired.phis succ member id inSucc vars isPhi).2]
    exact fun same => site.bb_not_pred inlinable outgoing member (same.mp isPred)
  · exact site.outside_of_mem wired (.inl site.bbMem)
  · exact site.bb_noCalls wired.toLined

/-- A phi of the first block keeps its entries for blocks of the callee. -/
theorem wrong_entry (wired : Wired store func (call :: rest)) (entered : Entered store site.callee)
    (inFirst : id ∈ store.instructions site.first) (isPhi : store.kindOf id = some (.kPhi vars)) :
    ∃ pred, Wrong store' func rest site.bb id vars pred := by
  have merging := site.merging wired
  have inlinable := merging.toInlinable
  have someEntry : vars ≠ [] := by
    rintro rfl
    exact entered site.first site.head_callee id inFirst isPhi
  rcases List.exists_mem_of_ne_nil vars someEntry with ⟨entry, isEntry⟩
  have named : entry.bb ∈ vars.map PhiEntry.bb := List.mem_map_of_mem isEntry
  have isPred := ((merging.phis _ site.first_mem id inFirst vars isPhi).2 entry.bb).mp named
  have inCallee := merging.edges.predsMem _ site.first_mem _ isPred
  have notPred : entry.bb ∉ store.preds site.bb := fun isPred =>
    (wired.preds _ site.bbMem _ isPred).apart call List.mem_cons_self _ site.isCall inCallee
  refine ⟨entry.bb, ?_⟩
  constructor
  · exact site.mem_bbs.mpr (.inl site.bbMem)
  · exact site.phi_first inFirst isPhi
  · exact site.kindOf_phi isPhi (site.below_of_calledIn ⟨_, site.first_mem, inFirst⟩)
  · exact fun same => site.callee_not_pred inlinable site.bbMem inCallee notPred (same.mp named)
  · exact site.outside_of_mem wired (.inr inCallee)
  · exact site.callee_noCalls wired.toLined inCallee

/-- A phi that the first block led to gets no entry for the block of the call. -/
theorem wrong_entered (wired : Wired store func (call :: rest)) {succ : BlockId}
    (isSucc : succ ∈ store.succs site.first) (notFirst : succ ≠ site.first)
    (inSucc : id ∈ store.instructions succ) (isPhi : store.kindOf id = some (.kPhi vars)) :
    Wrong store' func rest succ id vars site.bb := by
  have merging := site.merging wired
  have inlinable := merging.toInlinable
  have outgoing := site.bb_outgoing wired
  have inCallee := merging.edges.succsMem _ site.first_mem succ isSucc
  have notCaller : ∀ {bb}, bb ∈ store.shape.bbs func → bb ∉ store.shape.bbs site.callee :=
    fun inCaller inCallee =>
      site.different (site.tidy.apart.disjoint func site.callee _ inCaller inCallee)
  have noReturn : retOf store site.first = none := by
    rw [Option.eq_none_iff_forall_ne_some]
    intro ret returns
    rw [succs_of_ret (merging.edges.follow _ site.first_mem) returns] at isSucc
    cases isSucc
  have isPred : site.bb ∈ store'.preds succ := by
    apply site.bb_pred inlinable notFirst
    · exact fun leaves => notCaller (outgoing.succsMem succ leaves) inCallee
    · rw [site.outputs_succs_first inlinable, if_pos noReturn]
      exact isSucc
  have unnamed : site.bb ∉ vars.map PhiEntry.bb := by
    rw [(merging.phis succ inCallee id inSucc vars isPhi).2]
    exact fun isPred => notCaller site.bbMem (merging.edges.predsMem succ inCallee _ isPred)
  constructor
  · exact site.mem_bbs.mpr (.inr (.inl ⟨inCallee, notFirst⟩))
  · exact site.phi_callee inCallee notFirst inSucc isPhi
  · exact site.kindOf_phi isPhi (site.below_of_calledIn ⟨succ, inCallee, inSucc⟩)
  · exact fun same => unnamed (same.mpr isPred)
  · exact site.outside_of_mem wired (.inl site.bbMem)
  · exact site.bb_noCalls wired.toLined

/-- The new phi has an entry for the first block, not for the block of the call. -/
theorem wrong_returns (wired : Wired store func (call :: rest)) {other : BlockId}
    (returnsFirst : retOf store site.first ≠ none)
    (reachable : (store.cfg site.source).Reachable other) (returns : retOf store other ≠ none)
    (different : other ≠ site.first) :
    ∃ vars, Wrong store' func rest store.nextBlock store.nextInst vars site.bb := by
  have merging := site.merging wired
  have inlinable := merging.toInlinable
  have outgoing := site.bb_outgoing wired
  have closed := site.closed_of_inlinable inlinable
  have ordered := (site.mem_order (merging.closed _ site.sourceFound)).mpr reachable
  have many : site.rets.length ≠ 1 := by
    intro one
    have isRet : ∀ bb ∈ site.order, retOf store bb ≠ none → ∃ ret ∈ site.rets,
        ret ∈ site.inputs.instructions bb := by
      intro bb ordered returns
      rw [← site.retOf_inputs inlinable (site.order_subset closed ordered)] at returns
      rcases Option.ne_none_iff_exists'.mp returns with ⟨ret, isRet⟩
      exact ⟨ret, site.mem_rets.mpr ⟨bb, ordered, isRet⟩,
        List.mem_of_getLast? (retOf_eq_some.mp isRet).1⟩
    rcases List.length_eq_one_iff.mp one with ⟨ret, single⟩
    rcases isRet _ site.first_mem_order returnsFirst with ⟨retFirst, isFirst, inFirst⟩
    rcases isRet other ordered returns with ⟨retOther, isOther, inOther⟩
    rw [single, List.mem_singleton] at isFirst isOther
    rw [isFirst] at inFirst
    rw [isOther] at inOther
    exact different (site.inputsTidy.settled.home_unique inOther inFirst)
  rcases site.new_phi closed many with ⟨vars, inNew, isPhi, -, named⟩
  have isPred : site.bb ∈ store'.preds store.nextBlock := by
    apply site.bb_pred inlinable (site.ne_after site.first_present).symm
    · exact fun isSucc =>
        site.ne_after (site.tidy.apart.present func _ (outgoing.succsMem _ isSucc)) rfl
    · rw [site.outputs_succs_first inlinable, if_neg returnsFirst]
      exact List.mem_cons_self
  have unnamed : site.bb ∉ vars.map PhiEntry.bb := by
    rw [named]
    rintro ⟨ordered, -⟩
    exact site.callee_ne_bb (site.order_subset closed ordered) rfl
  refine ⟨vars, ?_⟩
  constructor
  · exact site.mem_bbs.mpr (.inr (.inr rfl))
  · exact inNew
  · exact isPhi
  · exact fun same => unnamed (same.mpr isPred)
  · exact site.outside_of_mem wired (.inl site.bbMem)
  · exact site.bb_noCalls wired.toLined

/-- A call that does not fit makes a phi wrong. -/
theorem exists_wrong (wired : Wired store func (call :: rest)) (entered : Entered store site.callee)
    (notFits : ¬ Fits store site.bb site.callee) :
    ∃ bb id vars pred, Wrong store' func rest bb id vars pred := by
  by_contra noneWrong
  have right : ∀ bb id vars pred, ¬ Wrong store' func rest bb id vars pred :=
    fun bb id vars pred wrong => noneWrong ⟨bb, id, vars, pred, wrong⟩
  have entryPhis : ¬ HasPhi store site.first := by
    rintro ⟨id, inFirst, vars, isPhi⟩
    rcases site.wrong_entry wired entered inFirst isPhi with ⟨pred, wrong⟩
    exact right _ _ _ _ wrong
  have head : ∀ {first}, first ∈ (store.shape.bbs site.callee).head? → first = site.first := by
    intro first isFirst
    exact Option.some.inj (isFirst.symm.trans site.head_callee)
  apply notFits
  constructor
  · rintro succ isSucc ⟨id, inSucc, vars, isPhi⟩
    exact right _ _ _ _ (site.wrong_outgoing wired isSucc inSucc isPhi)
  · intro first isFirst
    rw [head isFirst]
    exact entryPhis
  · intro first isFirst succ isSucc hasPhi
    rw [head isFirst] at isSucc
    have notFirst : succ ≠ site.first := by
      rintro rfl
      exact entryPhis hasPhi
    rcases hasPhi with ⟨id, inSucc, vars, isPhi⟩
    exact right _ _ _ _ (site.wrong_entered wired isSucc notFirst inSucc isPhi)
  · intro first isFirst returnsFirst function found other reachable returns
    rw [head isFirst] at returnsFirst ⊢
    cases site.sourceFound.symm.trans found
    by_contra different
    rcases site.wrong_returns wired returnsFirst reachable returns different with ⟨vars, wrong⟩
    exact right _ _ _ _ wrong

theorem fits_of_callFits (callFits : CallFits store call) : Fits store site.bb site.callee := by
  apply callFits site.bb _ site.callee site.isCall
  rw [site.here]
  exact List.mem_append_right _ List.mem_cons_self

theorem callFits_of_fits (fits : Fits store site.bb site.callee) : CallFits store call := by
  intro bb inBlock callee isCallee
  have here : call ∈ store.instructions site.bb := by
    rw [site.here]
    exact List.mem_append_right _ List.mem_cons_self
  cases site.tidy.settled.home_unique inBlock here
  cases site.isCall.symm.trans isCallee
  exact fits

theorem other_entered (wired : Wired store func (call :: rest)) {other : InstId}
    (member : other ∈ rest) (isCallee : store.kindOf other = some (.kCall callee))
    (entered : Entered store callee) : Entered store' callee := by
  have closed := site.closed_of_lined wired.toLined
  rcases site.later_callee wired member isCallee with ⟨notFunc, notCallee⟩
  intro first isFirst id inFirst
  rw [site.other_bbs notFunc notCallee] at isFirst
  have firstMem := List.mem_of_mem_head? isFirst
  rw [(site.other_block closed notFunc notCallee firstMem).1] at inFirst
  rw [site.other_kindOf closed notFunc notCallee ⟨first, firstMem, inFirst⟩]
  exact entered first isFirst id inFirst

end Site

/-! ## All calls -/

/-- Calls that fit keep the entries of the phis as they have to be. -/
theorem Wired.phisMatch (wired : Wired store func calls) (tidy : store.Tidy)
    (fit : ∀ call ∈ calls, CallFits store call)
    (result : calls.foldlM (doInline func) store = .ok store') :
    PhisMatch store' (store'.shape.bbs func) := by
  induction calls generalizing store with
  | nil =>
      cases result
      exact wired.phis
  | cons call rest induction =>
      rw [List.foldlM_cons] at result
      rcases Result.bind_eq_ok.mp result with ⟨next, first, later⟩
      rcases wired.toPending.site tidy first with ⟨site⟩
      have fits := site.fits_of_callFits (fit call List.mem_cons_self)
      apply induction (site.wired wired fits) site.tidy' _ later
      intro other member
      rw [site.callFits_iff wired fits member]
      exact fit other (List.mem_cons_of_mem _ member)

/-- Where the entries are as they have to be all calls fitted. -/
theorem Wired.callFits (wired : Wired store func calls) (tidy : store.Tidy)
    (entered : ∀ call ∈ calls, ∀ callee, store.kindOf call = some (.kCall callee) →
      Entered store callee)
    (result : calls.foldlM (doInline func) store = .ok store')
    (matching : PhisMatch store' (store'.shape.bbs func)) : ∀ call ∈ calls, CallFits store call := by
  induction calls generalizing store with
  | nil =>
      intro call member
      cases member
  | cons call rest induction =>
      rw [List.foldlM_cons] at result
      rcases Result.bind_eq_ok.mp result with ⟨next, first, later⟩
      rcases wired.toPending.site tidy first with ⟨site⟩
      have fits : Fits store site.bb site.callee := by
        by_contra notFits
        rcases site.exists_wrong wired (entered call List.mem_cons_self _ site.isCall) notFits with
          ⟨bb, id, vars, pred, wrong⟩
        exact wrong.run (site.lined wired.toLined) site.tidy' later matching
      have others : ∀ other ∈ rest, CallFits next other := by
        apply induction (site.wired wired fits) site.tidy' _ later
        intro other member callee isCallee
        rw [site.pending_kindOf wired.toPending member] at isCallee
        exact site.other_entered wired member isCallee
          (entered other (List.mem_cons_of_mem _ member) callee isCallee)
      rw [List.forall_mem_cons]
      refine ⟨site.callFits_of_fits fits, ?_⟩
      intro other member
      exact (site.callFits_iff wired fits member).mp (others other member)

/-! ## The calls of a function -/

/-- Calls that come first are inlined first. -/
theorem candidates_ordered {function : Function} (tidy : store.Tidy)
    (found : store.functions func = some function) (closed : (store.cfg function).Closed)
    (result : fillCandidates store func = .ok calls) :
    calls.Pairwise fun call later => ∀ bb ∈ store.shape.bbs func, ∀ front back,
      store.instructions bb = front ++ call :: back → later ∉ front := by
  rw [List.pairwise_iff_forall_sublist]
  intro call later ordered bb _ front back split inFront
  have nodup := inOrder_nodup tidy function
  have inBlock : call ∈ store.instructions bb := by
    rw [split]
    exact List.mem_append_right _ List.mem_cons_self
  rcases (mem_candidates found closed result).mp (ordered.subset List.mem_cons_self) with
    ⟨home, reachable, inHome, -⟩
  cases tidy.settled.home_unique inBlock inHome
  have forward := idxOf_lt_of_sublist nodup (ordered.trans (candidates_sublist found result))
  have backward := idxOf_lt_of_sublist nodup (inOrder_sublist closed reachable split (.inl inFront))
  exact Nat.lt_asymm forward backward

theorem wired_candidates {function : Function} (tidy : store.Tidy)
    (found : store.functions func = some function) (closed : (store.cfg function).Closed)
    (edges : EdgesAgree store function.bbs) (phis : PhisMatch store function.bbs)
    (behind : ∀ bb ∈ function.bbs, ∀ front call back, store.instructions bb = front ++ call :: back →
      ∀ callee, store.kindOf call = some (.kCall callee) → ∀ id ∈ back, ∀ vars,
        store.kindOf id ≠ some (.kPhi vars))
    (callees : ∀ id, CalledIn store func id → ∀ callee, store.kindOf id = some (.kCall callee) →
      Merging store func callee)
    (collecting : fillCandidates store func = .ok calls)
    (inlining : calls.foldlM (doInline func) store = .ok store') : Wired store func calls := by
  have bbs : store.shape.bbs func = function.bbs :=
    Shape.bbs_eq (show store.shape.functions func = some function from found)
  have pending : Pending store func calls := pending_candidates tidy found closed
    (fun id called callee isCall => (callees id called callee isCall).toReturnsValue) collecting
  have merging : ∀ call ∈ calls, ∀ callee, store.kindOf call = some (.kCall callee) →
      Merging store func callee :=
    fun call member callee isCall => callees call (pending.calledIn call member) callee isCall
  refine ⟨⟨pending, ?_, ?_, candidates_ordered tidy found closed collecting⟩, ?_, ?_, ?_, merging,
    pending.distinct tidy inlining⟩
  · exact fun call member callee isCall => (merging call member callee isCall).edges.succsMem
  · intro call member bb bbMem front back split
    rcases pending.callee call member with ⟨callee, -, isCall, -⟩
    exact behind bb (bbs ▸ bbMem) front call back split callee isCall
  · rw [bbs]
    exact phis
  · intro bb bbMem pred isPred
    have predMem : pred ∈ store.shape.bbs func := by
      rw [bbs] at bbMem ⊢
      exact edges.predsMem bb bbMem pred isPred
    refine ⟨tidy.apart.allocated _ (tidy.apart.present _ _ predMem), ?_⟩
    intro call member callee isCall inCallee
    exact (merging call member callee isCall).different
      (tidy.apart.disjoint callee func pred inCallee predMem)
  · intro call _ bb bbMem _
    rw [bbs] at bbMem
    constructor
    · rw [bbs]
      exact edges.succsMem bb bbMem
    · exact edges.follow bb bbMem
    · rw [bbs]
      intro succ succMem
      rw [Store.excess, edges.mirrored bb bbMem succ succMem]
      omega

/-- After inlining the phis of the caller have an entry for each predecessor and no others, if no
phi knows an edge that a reached call moves; and only then, as far as the phis in first blocks of
callees have entries. -/
theorem run_phisMatch_iff {function : Function} (tidy : store.Tidy)
    (found : store.functions func = some function) (closed : (store.cfg function).Closed)
    (edges : EdgesAgree store function.bbs) (phis : PhisMatch store function.bbs)
    (behind : ∀ bb ∈ function.bbs, ∀ front call back, store.instructions bb = front ++ call :: back →
      ∀ callee, store.kindOf call = some (.kCall callee) → ∀ id ∈ back, ∀ vars,
        store.kindOf id ≠ some (.kPhi vars))
    (callees : ∀ id, CalledIn store func id → ∀ callee, store.kindOf id = some (.kCall callee) →
      Merging store func callee)
    (result : run store func = .ok store') :
    ((∀ bb, (store.cfg function).Reachable bb → ∀ call ∈ store.instructions bb, ∀ callee,
        store.kindOf call = some (.kCall callee) → Fits store bb callee) →
      PhisMatch store' (store'.shape.bbs func)) ∧
    ((∀ id, CalledIn store func id → ∀ callee, store.kindOf id = some (.kCall callee) →
        Entered store callee) →
      PhisMatch store' (store'.shape.bbs func) →
      ∀ bb, (store.cfg function).Reachable bb → ∀ call ∈ store.instructions bb, ∀ callee,
        store.kindOf call = some (.kCall callee) → Fits store bb callee) := by
  rcases Result.bind_eq_ok.mp result with ⟨calls, collecting, inlining⟩
  have wired : Wired store func calls :=
    wired_candidates tidy found closed edges phis behind callees collecting inlining
  constructor
  · intro fit
    apply wired.phisMatch tidy _ inlining
    intro call member bb inBlock callee isCall
    rcases (mem_candidates found closed collecting).mp member with ⟨home, reachable, inHome, -⟩
    cases tidy.settled.home_unique inBlock inHome
    exact fit bb reachable call inBlock callee isCall
  · intro entered matching bb reachable call inBlock callee isCall
    have member := (mem_candidates found closed collecting).mpr ⟨bb, reachable, inBlock, callee, isCall⟩
    apply wired.callFits tidy _ inlining matching call member bb inBlock callee isCall
    exact fun other otherMem => entered other (wired.calledIn other otherMem)

/-- In a well-formed function no phi is behind a call. -/
theorem not_phi_behind {function : Function} (wellFormed : store.WellFormed function) {bb : BlockId}
    (bbMem : bb ∈ function.bbs) {front back : List InstId}
    (split : store.instructions bb = front ++ call :: back)
    (isCall : store.kindOf call = some (.kCall callee)) :
    ∀ id ∈ back, ∀ vars, store.kindOf id ≠ some (.kPhi vars) := by
  intro id inBack vars isPhi
  rcases wellFormed.phisFirst bb bbMem with ⟨phis, others, parts, arePhis, noPhis⟩
  have noCall : call ∉ phis := by
    intro member
    rcases kindOf_ne_none.mp (isCall ▸ Option.some_ne_none _) with ⟨inst, stored⟩
    have kind := arePhis call member inst stored
    rw [kindOf_eq stored] at isCall
    rw [Option.some.inj isCall] at kind
    cases kind
  have inOthers : id ∈ others := by
    rw [split] at parts
    rcases List.append_eq_append_iff.mp parts with ⟨middle, isPhis, isBack⟩ | ⟨middle, -, isOthers⟩
    · cases middle with
      | nil =>
          have same : call :: back = others := isBack
          exact same ▸ List.mem_cons_of_mem _ inBack
      | cons head tail =>
          have isHead : call = head := (List.cons.inj isBack).1
          exact absurd (by rw [isPhis, isHead]; simp) noCall
    · rw [isOthers]
      exact List.mem_append_right _ (List.mem_cons_of_mem _ inBack)
  rcases kindOf_ne_none.mp (isPhi ▸ Option.some_ne_none _) with ⟨inst, stored⟩
  have kind := noPhis id inOthers inst stored
  rw [kindOf_eq stored] at isPhi
  rw [Option.some.inj isPhi] at kind
  cases kind

/-! ## A call in front of a phi -/

/-- Function 0 returns 5, function 1 what a phi makes of it in a second block. -/
def callThenPhi : List BuildStep :=
  [.newFunction 0 .I64 [], .appendBB 0, .pushInstBack 0 (.constVal (.I64 5)),
    .pushInstBack 0 (.retVal 0),
    .newFunction 1 .I64 [], .appendBB 1, .appendBB 1, .pushInstBack 1 (.call 0),
    .pushInstBack 1 (.jumpInstr 2), .pushInstBack 2 (.phi .I64), .addNode 4 2 1,
    .pushInstBack 2 (.retVal 4)]

/-- Function 1 of `callThenPhi` before it is inlined into. -/
def callsThenPhi : Function :=
  { bbs := [1, 2], resType := .I64 }

theorem wellFormed_callThenPhi (built : callThenPhi.foldlM BuildStep.apply Store.empty = .ok store) :
    store.WellFormed callsThenPhi ∧ store.WellFormed returnsFive := by
  cases built
  exact ⟨checkWellFormed_sound rfl, checkWellFormed_sound rfl⟩

theorem merging_callThenPhi (built : callThenPhi.foldlM BuildStep.apply Store.empty = .ok store) :
    ∀ id, CalledIn store 1 id → ∀ callee, store.kindOf id = some (.kCall callee) →
      Merging store 1 callee := by
  have wellFormed := (wellFormed_callThenPhi built).2
  cases built
  rintro id ⟨bb, bbMem, inBlock⟩ callee isCall
  have isZero : callee = 0 := by
    rcases List.mem_pair.mp bbMem with rfl | rfl
    · rcases List.mem_pair.mp inBlock with rfl | rfl <;> cases isCall
      rfl
    · rcases List.mem_pair.mp inBlock with rfl | rfl <;> cases isCall
  subst isZero
  refine ⟨⟨⟨by decide, ?_⟩, by decide, ?_⟩, ?_, by decide⟩
  · intro function found
    cases found
    decide
  · intro first isFirst
    cases isFirst
    exact ⟨1, .kRet, rfl, rfl, rfl⟩
  · intro function found
    cases found
    exact wellFormed.closed

theorem run_phisMatch_iff_callThenPhi : ∃ store store',
    callThenPhi.foldlM BuildStep.apply Store.empty = .ok store ∧ run store 1 = .ok store' ∧
      ((∀ bb, (store.cfg callsThenPhi).Reachable bb → ∀ call ∈ store.instructions bb, ∀ callee,
          store.kindOf call = some (.kCall callee) → Fits store bb callee) →
        PhisMatch store' (store'.shape.bbs 1)) ∧
      ((∀ id, CalledIn store 1 id → ∀ callee, store.kindOf id = some (.kCall callee) →
          Entered store callee) →
        PhisMatch store' (store'.shape.bbs 1) →
        ∀ bb, (store.cfg callsThenPhi).Reachable bb → ∀ call ∈ store.instructions bb, ∀ callee,
          store.kindOf call = some (.kCall callee) → Fits store bb callee) := by
  refine ⟨_, _, rfl, rfl, ?_⟩
  have wellFormed := (wellFormed_callThenPhi rfl).1
  exact run_phisMatch_iff (Built.tidy ⟨callThenPhi, rfl⟩) rfl wellFormed.closed (by decide) (by decide)
    (fun bb bbMem front call back split callee isCall =>
      not_phi_behind wellFormed bbMem split isCall)
    (merging_callThenPhi rfl) rfl

/-- The phi names the block of the call, which no longer is a predecessor. -/
theorem not_phisMatch_callThenPhi : ∃ store store',
    callThenPhi.foldlM BuildStep.apply Store.empty = .ok store ∧ store.WellFormed callsThenPhi ∧
      PhisMatch store callsThenPhi.bbs ∧ (∀ id, CalledIn store 1 id → ∀ callee, store.kindOf id = some (.kCall callee) →
        Merging store 1 callee) ∧
      run store 1 = .ok store' ∧ ¬ PhisMatch store' (store'.shape.bbs 1) := by
  have wellFormed : ∀ store, callThenPhi.foldlM BuildStep.apply Store.empty = .ok store →
      store.WellFormed callsThenPhi := fun store built => (wellFormed_callThenPhi built).1
  exact ⟨_, _, rfl, wellFormed _ rfl, by decide, merging_callThenPhi rfl, rfl, by decide⟩

end LeechJit.Opt.Inlining
