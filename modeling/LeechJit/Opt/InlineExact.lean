import LeechJit.IR.Check
import LeechJit.Opt.InlineEdges
import LeechJit.Opt.InlineIdle

/-! # Users sets after inlining

They are exact only where no call has an operand and no callee comes to a return.
-/

namespace LeechJit.Opt.Inlining

open IR Store LeechJit.Graph

variable {store store' : Store} {func callee : FuncId} {call id : InstId}

/-- A call without operands of a function that never returns. -/
structure Idle (store : Store) (call : InstId) : Prop where
  noInputs : store.inputs call = []
  never : ∀ callee, store.kindOf call = some (.kCall callee) → NeverReturns store callee

/-- The calls that are still to be inlined, with users sets exact where they have to be. -/
structure Ready (store : Store) (func : FuncId) (calls : List InstId) : Prop
    extends Pending store func calls where
  exact : Exact store func
  callees : ∀ call ∈ calls, ∀ callee, store.kindOf call = some (.kCall callee) →
    Sealed store callee
  distinct : calls.Pairwise fun call other => store.kindOf call ≠ store.kindOf other
  before : calls.Pairwise fun call later => later ∉ store.inputs call
  notSelf : ∀ call ∈ calls, call ∉ store.inputs call

namespace Site

variable (site : Site func call store store')

theorem isCall : store.kindOf call = some (.kCall site.callee) := by
  rw [kindOf_eq site.instFound, site.kind]

theorem isSealed {rest : List InstId} (ready : Ready store func (call :: rest)) :
    Sealed store site.callee :=
  ready.callees call List.mem_cons_self site.callee site.isCall

include site

theorem idle_iff {rest : List InstId} (ready : Ready store func (call :: rest)) :
    Idle store call ↔ store.inputs call = [] ∧ site.rets = [] := by
  have closed := (site.isSealed ready).closed site.source site.sourceFound
  constructor
  · intro idle
    refine ⟨idle.noInputs, ?_⟩
    exact (site.neverReturns_iff closed idle.noInputs).mp (idle.never site.callee site.isCall)
  · rintro ⟨noInputs, noRets⟩
    refine ⟨noInputs, ?_⟩
    intro callee isCallee
    cases site.isCall.symm.trans isCallee
    exact (site.neverReturns_iff closed noInputs).mpr noRets

/-- A call that is not idle leaves a user behind. -/
theorem exists_stale {rest : List InstId} (ready : Ready store func (call :: rest))
    (busy : ¬ Idle store call) : ∃ gone val, Stale store' func gone val ∧ val ∉ rest := by
  have isSealed := site.isSealed ready
  have closed : site.ClosedCallee := isSealed.keepsIn
  cases operands : store.inputs call with
  | cons val others =>
      have isInput : val ∈ store.inputs call := by
        rw [operands]
        exact List.mem_cons_self
      have notCall : val ≠ call := by
        rintro rfl
        exact ready.notSelf val List.mem_cons_self isInput
      refine ⟨call, val, site.stale_of_argument closed ready.exact isInput notCall, ?_⟩
      exact fun later => (List.pairwise_cons.mp ready.before).1 val later isInput
  | nil =>
      have returns : site.rets ≠ [] := fun noRets =>
        busy ((site.idle_iff ready).mpr ⟨operands, noRets⟩)
      rcases site.stale_of_return closed isSealed.exact isSealed.values operands returns with
        ⟨ret, val, stale, inCallee⟩
      refine ⟨ret, val, stale, ?_⟩
      intro later
      exact site.not_callee_of_caller (ready.calledIn val (List.mem_cons_of_mem _ later)) inCallee

/-- After an idle call the others are as they were. -/
theorem idle_ready {rest : List InstId} (ready : Ready store func (call :: rest))
    (idle : Idle store call) :
    Ready store' func rest ∧ ∀ other ∈ rest, Idle store' other ↔ Idle store other := by
  rcases (site.idle_iff ready).mp idle with ⟨noInputs, noRets⟩
  have isSealed := site.isSealed ready
  have closed : site.ClosedCallee := isSealed.keepsIn
  have nodup := List.nodup_cons.mp ready.nodup
  have before := List.pairwise_cons.mp ready.before
  have distinct := List.pairwise_cons.mp ready.distinct
  have pending := site.pending ready.toPending
  have kinds : ∀ other ∈ rest, store'.kindOf other = store.kindOf other :=
    fun other member => site.pending_kindOf ready.toPending member
  have below : ∀ other ∈ rest, other < store.nextInst := fun other member =>
    site.below_of_calledIn (ready.calledIn other (List.mem_cons_of_mem _ member))
  have operands := fun other (member : other ∈ rest) =>
    site.idle_pending noInputs noRets (below other member)
      (fun same => nodup.1 (same ▸ member))
  have apart : ∀ other ∈ rest, ∀ callee, store.kindOf other = some (.kCall callee) →
      callee ≠ func ∧ callee ≠ site.callee := by
    intro other member callee isCallee
    constructor
    · rcases ready.callee other (List.mem_cons_of_mem _ member) with ⟨again, notFunc, isAgain, -⟩
      cases isCallee.symm.trans isAgain
      exact notFunc
    · rintro rfl
      exact distinct.1 other member (site.isCall.trans isCallee.symm)
  have fresh : ∀ other ∈ rest, other ≠ store.nextInst :=
    fun other member => Nat.ne_of_lt (below other member)
  constructor
  · refine ⟨pending, ?_, ?_, ?_, ?_, ?_⟩
    · exact site.idle_exact noInputs noRets ready.exact isSealed.exact
    · intro other member callee isCallee
      rw [kinds other member] at isCallee
      rcases apart other member callee isCallee with ⟨notFunc, notCallee⟩
      exact site.idle_isSealed noInputs noRets ready.exact closed notFunc notCallee
        (ready.callees other (List.mem_cons_of_mem _ member) callee isCallee)
    · apply distinct.2.imp_of_mem
      intro one other oneMem otherMem different
      rwa [kinds one oneMem, kinds other otherMem]
    · apply before.2.imp_of_mem
      intro one later oneMem laterMem notInput isInput
      rcases (operands one oneMem).2 later isInput with isOld | isPhi
      · exact notInput isOld
      · exact fresh later laterMem isPhi
    · intro other member isInput
      rcases (operands other member).2 other isInput with isOld | isPhi
      · exact ready.notSelf other (List.mem_cons_of_mem _ member) isOld
      · exact fresh other member isPhi
  · intro other member
    have never : ∀ callee, store.kindOf other = some (.kCall callee) →
        (NeverReturns store' callee ↔ NeverReturns store callee) := by
      intro callee isCallee
      rcases apart other member callee isCallee with ⟨notFunc, notCallee⟩
      exact site.other_neverReturns closed notFunc notCallee
        (ready.callees other (List.mem_cons_of_mem _ member) callee isCallee)
    constructor
    · intro idle
      refine ⟨(operands other member).1.mp idle.noInputs, ?_⟩
      intro callee isCallee
      exact (never callee isCallee).mp (idle.never callee (kinds other member ▸ isCallee))
    · intro idle
      refine ⟨(operands other member).1.mpr idle.noInputs, ?_⟩
      intro callee isCallee
      rw [kinds other member] at isCallee
      exact (never callee isCallee).mpr (idle.never callee isCallee)

end Site

/-- The users sets are exact in the end if and only if every call was idle. -/
theorem Ready.exact_iff {calls : List InstId} (ready : Ready store func calls) (tidy : store.Tidy)
    (result : calls.foldlM (doInline func) store = .ok store') :
    store'.Tidy ∧ (Exact store' func ↔ ∀ call ∈ calls, Idle store call) := by
  induction calls generalizing store with
  | nil =>
      cases result
      refine ⟨tidy, ?_⟩
      simp [ready.exact]
  | cons call rest induction =>
      rw [List.foldlM_cons] at result
      rcases Result.bind_eq_ok.mp result with ⟨next, first, later⟩
      rcases ready.toPending.site tidy first with ⟨site⟩
      cases Classical.em (Idle store call) with
      | inl idle =>
          rcases site.idle_ready ready idle with ⟨readyRest, others⟩
          rcases induction readyRest site.tidy' later with ⟨tidy', exact_iff⟩
          refine ⟨tidy', exact_iff.trans ?_⟩
          rw [List.forall_mem_cons, and_iff_right idle]
          exact forall₂_congr others
      | inr busy =>
          rcases site.exists_stale ready busy with ⟨gone, val, stale, notLater⟩
          have closed : site.ClosedCallee := (site.isSealed ready).keepsIn
          have keeps : ∀ other ∈ rest, ∀ callee, next.kindOf other = some (.kCall callee) →
              KeepsIn next callee := by
            intro other member callee isCallee
            rw [site.pending_kindOf ready.toPending member] at isCallee
            have inAll := List.mem_cons_of_mem call member
            rcases ready.callee other inAll with ⟨again, notFunc, isAgain, -⟩
            cases isCallee.symm.trans isAgain
            exact site.keepsIn closed notFunc (ready.callees other inAll callee isAgain).keepsIn
          rcases stale.run (site.pending ready.toPending) site.tidy' keeps notLater later with
            ⟨staleAfter, tidy'⟩
          refine ⟨tidy', ?_⟩
          constructor
          · intro exact
            exact absurd exact (staleAfter.not_exact tidy')
          · intro allIdle
            exact absurd (allIdle call List.mem_cons_self) busy

/-! ## The calls of a function -/

/-- A callee that has been inlined has no blocks left to inline. -/
theorem Pending.callee_nonempty {calls : List InstId} (pending : Pending store func calls)
    (tidy : store.Tidy) (result : calls.foldlM (doInline func) store = .ok store') :
    ∀ call ∈ calls, ∀ callee, store.kindOf call = some (.kCall callee) →
      store.shape.bbs callee ≠ [] := by
  induction calls generalizing store with
  | nil =>
      intro call member
      cases member
  | cons call rest induction =>
      rw [List.foldlM_cons] at result
      rcases Result.bind_eq_ok.mp result with ⟨next, first, later⟩
      rcases pending.site tidy first with ⟨site⟩
      intro other member callee isCallee
      cases member with
      | head =>
          cases site.isCall.symm.trans isCallee
          exact List.ne_nil_of_mem site.first_mem
      | tail _ inRest =>
          have notEmpty := induction (site.pending pending) site.tidy' later other inRest callee
            (by rw [site.pending_kindOf pending inRest, isCallee])
          rcases pending.callee other (List.mem_cons_of_mem _ inRest) with
            ⟨again, notFunc, isAgain, -⟩
          cases isCallee.symm.trans isAgain
          rw [site.bbs, if_neg notFunc] at notEmpty
          split_ifs at notEmpty with isFirst
          · exact absurd rfl notEmpty
          · exact notEmpty

theorem Pending.distinct {calls : List InstId} (pending : Pending store func calls)
    (tidy : store.Tidy) (result : calls.foldlM (doInline func) store = .ok store') :
    calls.Pairwise fun call other => store.kindOf call ≠ store.kindOf other := by
  induction calls generalizing store with
  | nil => exact .nil
  | cons call rest induction =>
      rw [List.foldlM_cons] at result
      rcases Result.bind_eq_ok.mp result with ⟨next, first, later⟩
      rcases pending.site tidy first with ⟨site⟩
      have pendingRest := site.pending pending
      have kinds : ∀ other ∈ rest, next.kindOf other = store.kindOf other :=
        fun other member => site.pending_kindOf pending member
      apply List.Pairwise.cons
      · intro other member same
        rw [site.isCall, ← kinds other member] at same
        exact pendingRest.callee_nonempty site.tidy' later other member site.callee same.symm
          site.callee_bbs
      · apply (induction pendingRest site.tidy' later).imp_of_mem
        intro one other oneMem otherMem different
        rwa [kinds one oneMem, kinds other otherMem] at different

/-- The calls come in an order in which none uses a later one. -/
theorem candidates_before {function : Function} {calls : List InstId} (tidy : store.Tidy)
    (found : store.functions func = some function) (closed : (store.cfg function).Closed)
    (uses : ∀ bb ∈ function.bbs, ∀ front id back, store.instructions bb = front ++ id :: back →
      ∀ inst, store.insts id = some inst → inst.kind.isPhi = false →
      ∀ input ∈ inst.inputs, store.DefinedBefore function input bb front)
    (result : fillCandidates store func = .ok calls) :
    (calls.Pairwise fun call later => later ∉ store.inputs call) ∧
      ∀ call ∈ calls, call ∉ store.inputs call := by
  have sublist := candidates_sublist found result
  have nodup := inOrder_nodup tidy function
  -- what a call uses comes before it
  have comes : ∀ call ∈ calls, ∀ input ∈ store.inputs call,
      [input, call].Sublist (store.inOrder function) := by
    intro call member input isInput
    rcases (mem_candidates found closed result).mp member with
      ⟨bb, reachable, inBlock, callee, isCall⟩
    rcases List.append_of_mem inBlock with ⟨front, back, split⟩
    rcases kindOf_ne_none.mp (kindOf_of_inputs isInput) with ⟨inst, stored⟩
    rw [kindOf_eq stored] at isCall
    rw [inputs_eq stored] at isInput
    apply inOrder_sublist closed reachable split
    apply uses bb (closed.mem_of_reachable reachable) front call back split inst stored _ input isInput
    rw [Option.some.inj isCall]
    rfl
  constructor
  · rw [List.pairwise_iff_forall_sublist]
    intro call later ordered isInput
    have memCall : call ∈ calls := ordered.subset List.mem_cons_self
    have forward := idxOf_lt_of_sublist nodup (ordered.trans sublist)
    have backward := idxOf_lt_of_sublist nodup (comes call memCall later isInput)
    exact Nat.lt_asymm forward backward
  · intro call member isInput
    exact Nat.lt_irrefl _ (idxOf_lt_of_sublist nodup (comes call member call isInput))

/-- A callee with exact users and edges of its own, in which no return is an operand. -/
structure Callable (store : Store) (func callee : FuncId) : Prop
    extends ReturnsValue store func callee where
  closed : ∀ source, store.functions callee = some source → (store.cfg source).Closed
  exact : ∀ source, store.functions callee = some source → UsersExact store source
  values : ∀ user, CalledIn store callee user → ∀ input ∈ store.inputs user,
    store.kindOf input ≠ some .kRet

theorem Callable.isSealed (callable : Callable store func callee) (tidy : store.Tidy) :
    Sealed store callee where
  closed := callable.closed
  exact := by
    cases found : store.functions callee with
    | some source => exact (usersExact_iff_exact tidy found).mp (callable.exact source found)
    | none =>
        have nothing : ∀ id, ¬ CalledIn store callee id := by
          rintro id ⟨bb, member, -⟩
          rw [Shape.bbs, show store.shape.functions callee = none from found] at member
          cases member
        exact ⟨fun id member => absurd member (nothing id), fun id member => absurd member (nothing id)⟩
  values := callable.values

/-- After inlining the users sets of the caller are exact, and name nothing that is gone, if and
only if no call that is reached had an operand or a callee that comes to a return. -/
theorem run_usersExact_iff {function : Function} (tidy : store.Tidy)
    (found : store.functions func = some function) (closed : (store.cfg function).Closed)
    (exact : UsersExact store function)
    (uses : ∀ bb ∈ function.bbs, ∀ front id back, store.instructions bb = front ++ id :: back →
      ∀ inst, store.insts id = some inst → inst.kind.isPhi = false →
      ∀ input ∈ inst.inputs, store.DefinedBefore function input bb front)
    (callees : ∀ id, CalledIn store func id → ∀ callee, store.kindOf id = some (.kCall callee) →
      Callable store func callee)
    (result : run store func = .ok store') :
    (∃ function', store'.functions func = some function' ∧ UsersExact store' function') ↔
      ∀ bb, (store.cfg function).Reachable bb → ∀ id ∈ store.instructions bb, ∀ callee,
        store.kindOf id = some (.kCall callee) →
          store.inputs id = [] ∧ NeverReturns store callee := by
  rcases Result.bind_eq_ok.mp result with ⟨calls, collecting, inlining⟩
  have pending : Pending store func calls := pending_candidates tidy found closed
    (fun id called callee isCall => (callees id called callee isCall).toReturnsValue) collecting
  rcases candidates_before tidy found closed uses collecting with ⟨before, notSelf⟩
  have ready : Ready store func calls := {
    toPending := pending
    exact := (usersExact_iff_exact tidy found).mp exact
    callees := fun call member callee isCall =>
      (callees call (pending.calledIn call member) callee isCall).isSealed tidy
    distinct := pending.distinct tidy inlining
    before
    notSelf }
  rcases ready.exact_iff tidy inlining with ⟨tidy', exact_iff⟩
  have foundAfter : (∃ function', store'.functions func = some function') ∧ store'.Tidy := by
    apply pending.run tidy ⟨function, found⟩ _ inlining
    intro store store' call site _
    exact ⟨_, by rw [site.functions, if_pos rfl]⟩
  rcases foundAfter.1 with ⟨function', found'⟩
  have sameFunction : (∃ function', store'.functions func = some function' ∧
      UsersExact store' function') ↔ Exact store' func := by
    constructor
    · rintro ⟨again, foundAgain, exact'⟩
      exact (usersExact_iff_exact tidy' foundAgain).mp exact'
    · intro exact'
      exact ⟨function', found', (usersExact_iff_exact tidy' found').mpr exact'⟩
  rw [sameFunction, exact_iff]
  constructor
  · intro idle bb reachable id inBlock callee isCall
    have member := (mem_candidates found closed collecting).mpr ⟨bb, reachable, inBlock, callee, isCall⟩
    exact ⟨(idle id member).noInputs, (idle id member).never callee isCall⟩
  · intro idle call member
    rcases (mem_candidates found closed collecting).mp member with
      ⟨bb, reachable, inBlock, callee, isCall⟩
    refine ⟨(idle bb reachable call inBlock callee isCall).1, ?_⟩
    intro again isAgain
    exact (idle bb reachable call inBlock again isAgain).2

/-! ## A function that is called once -/

/-- Function 1 of `callFive` before it is inlined into. -/
def callsFive : Function :=
  { bbs := [1], resType := .I64 }

/-- Function 0 of `callFive`. -/
def returnsFive : Function :=
  { bbs := [0], resType := .I64 }

theorem wellFormed_callFive (built : callFive.foldlM BuildStep.apply Store.empty = .ok store) :
    store.WellFormed callsFive ∧ store.WellFormed returnsFive := by
  cases built
  exact ⟨checkWellFormed_sound rfl, checkWellFormed_sound rfl⟩

theorem callable_callFive (built : callFive.foldlM BuildStep.apply Store.empty = .ok store) :
    ∀ id, CalledIn store 1 id → ∀ callee, store.kindOf id = some (.kCall callee) →
      Callable store 1 callee := by
  have wellFormed := (wellFormed_callFive built).2
  intro id calledIn callee isCall
  have inlinable := inlinable_callFive built id calledIn callee isCall
  cases built
  have isZero : callee = 0 := by
    rcases calledIn with ⟨bb, bbMem, inBlock⟩
    cases List.mem_singleton.mp bbMem
    rcases List.mem_pair.mp inBlock with rfl | rfl
    · cases isCall
      rfl
    · cases isCall
  subst isZero
  refine ⟨inlinable.toReturnsValue, ?_, ?_, ?_⟩
  · intro source found
    cases found
    exact wellFormed.closed
  · intro source found
    cases found
    exact usersExact_of_housed wellFormed.housed
  · rintro user ⟨bb, bbMem, inBlock⟩ input isInput
    cases List.mem_singleton.mp bbMem
    rcases List.mem_pair.mp inBlock with rfl | rfl
    · cases isInput
    · cases List.mem_singleton.mp isInput
      decide

theorem run_usersExact_iff_callFive : ∃ store store',
    callFive.foldlM BuildStep.apply Store.empty = .ok store ∧ run store 1 = .ok store' ∧
      ((∃ function', store'.functions 1 = some function' ∧ UsersExact store' function') ↔
        ∀ bb, (store.cfg callsFive).Reachable bb → ∀ id ∈ store.instructions bb, ∀ callee,
          store.kindOf id = some (.kCall callee) →
            store.inputs id = [] ∧ NeverReturns store callee) := by
  refine ⟨_, _, rfl, rfl, ?_⟩
  have wellFormed := (wellFormed_callFive rfl).1
  exact run_usersExact_iff (Built.tidy ⟨callFive, rfl⟩) rfl wellFormed.closed
    (usersExact_of_housed wellFormed.housed) wellFormed.uses (callable_callFive rfl) rfl

/-- The return that is gone is still among the users of the constant. -/
theorem not_usersExact_callFive : ∃ store store',
    callFive.foldlM BuildStep.apply Store.empty = .ok store ∧ UsersExact store callsFive ∧
      (∀ id, CalledIn store 1 id → ∀ callee, store.kindOf id = some (.kCall callee) →
        Callable store 1 callee) ∧
      run store 1 = .ok store' ∧ store'.functions 1 = some { callsFive with bbs := [1, 2] } ∧
      ¬ UsersExact store' { callsFive with bbs := [1, 2] } := by
  have wellFormed : ∀ store, callFive.foldlM BuildStep.apply Store.empty = .ok store →
      store.WellFormed callsFive := fun store built => (wellFormed_callFive built).1
  refine ⟨_, _, rfl, usersExact_of_housed (wellFormed _ rfl).housed, callable_callFive rfl, rfl, rfl,
    ?_⟩
  intro exact
  rcases exact.usersStored 0 (by decide) 1 (by decide) with ⟨inst, found⟩
  cases found

end LeechJit.Opt.Inlining
