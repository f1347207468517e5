import LeechJit.Opt.InlinePhis

/-! # Calls in the order of their blocks

The calls of one block are inlined from the front, so that what is behind the first of them moves
to the new block with the later ones. A phi that is wrong about a block stays wrong about it.
-/

namespace LeechJit.Opt.Inlining

open IR Store LeechJit.Graph

variable {store store' : Store} {func callee : FuncId} {call id : InstId} {vars : List PhiEntry}
  {calls rest : List InstId}

/-- The calls that are still to be inlined, in the order of their blocks and behind the phis. -/
structure Lined (store : Store) (func : FuncId) (calls : List InstId) : Prop
    extends Pending store func calls where
  keeps : ∀ call ∈ calls, ∀ callee, store.kindOf call = some (.kCall callee) →
    KeepsIn store callee
  behind : ∀ call ∈ calls, ∀ bb ∈ store.shape.bbs func, ∀ front back,
    store.instructions bb = front ++ call :: back → ∀ id ∈ back, ∀ vars,
      store.kindOf id ≠ some (.kPhi vars)
  ordered : calls.Pairwise fun call later => ∀ bb ∈ store.shape.bbs func, ∀ front back,
    store.instructions bb = front ++ call :: back → later ∉ front

namespace Site

variable (site : Site func call store store')

theorem closed_of_lined (lined : Lined store func (call :: rest)) : site.ClosedCallee := by
  apply lined.keeps call List.mem_cons_self
  rw [kindOf_eq site.instFound, site.kind]

include site

theorem lists_after (closed : site.ClosedCallee) :
    store'.instructions store.nextBlock = site.back ∨ (site.rets.length ≠ 1 ∧
      store'.instructions store.nextBlock = store.nextInst :: site.back) := by
  have afterFirst := (site.ne_after site.first_present).symm
  have afterBB := (site.ne_after (site.tidy.apart.present func _ site.bbMem)).symm
  have notOrdered : store.nextBlock ∉ site.order := fun ordered =>
    site.callee_ne_after (site.order_subset closed ordered) rfl
  rw [site.lists, if_neg afterFirst, if_neg afterBB, (site.outputs_of_not (.inl notOrdered)).1]
  exact site.merged_lists_after

/-- A block of the caller that the call is not in stays as it is. -/
theorem caller_block (closed : site.ClosedCallee) {bb : BlockId} (member : bb ∈ store.shape.bbs func)
    (notBB : bb ≠ site.bb) :
    store'.instructions bb = store.instructions bb ∧ store'.succs bb = store.succs bb := by
  apply site.outside_block closed (site.ne_after (site.tidy.apart.present func bb member)) notBB
  exact fun inCallee => site.different (site.tidy.apart.disjoint func site.callee bb member inCallee)

/-- A block that is neither in the callee nor the one of the call is a predecessor where it was. -/
theorem preds_outside (closed : site.ClosedCallee) {bb pred : BlockId} (notFirst : bb ≠ site.first)
    (notBB : pred ≠ site.bb) (old : pred ≠ store.nextBlock)
    (apart : pred ∉ store.shape.bbs site.callee) :
    pred ∈ store'.preds bb ↔ pred ∈ store.preds bb := by
  have predFirst : pred ≠ site.first := fun equal => apart (equal ▸ site.first_mem)
  have excess := site.excess notFirst pred
  rw [if_neg predFirst, add_zero] at excess
  rw [mem_preds_iff, mem_preds_iff]
  change 0 < store'.excess pred bb + ((store'.succs pred).count bb : Int) ↔ _
  rw [excess, (site.outside_block closed old notBB apart).2]
  rfl

/-- The later calls are where they were, or behind the call. -/
theorem later_home (lined : Lined store func (call :: rest)) {other : InstId} (member : other ∈ rest)
    {bb : BlockId} (inBlock : other ∈ store'.instructions bb) :
    (bb = store.nextBlock ∧ other ∈ site.back) ∨
      (bb ∈ store.shape.bbs func ∧ bb ≠ site.bb ∧ other ∈ store.instructions bb) := by
  rcases (site.pending lined.toPending).calledIn other member with ⟨home, bbMem, inHome⟩
  cases site.tidy'.settled.home_unique inBlock inHome
  have calledIn := lined.calledIn other (List.mem_cons_of_mem _ member)
  have below := site.below_of_calledIn calledIn
  have apart := site.not_callee_of_caller calledIn
  cases site.origin bbMem inBlock with
  | caller inCaller here notBehind =>
      refine .inr ⟨inCaller, ?_, here⟩
      rintro rfl
      rw [site.here, List.mem_append, List.mem_cons] at here
      rcases here with inFront | isCall | inBack
      · exact (List.pairwise_cons.mp lined.ordered).1 other member site.bb site.bbMem _ _ site.here
          inFront
      · exact (List.nodup_cons.mp lined.nodup).1 (isCall ▸ member)
      · exact notBehind inBack
  | first isBB inFirst => exact absurd ⟨site.first, site.first_mem, inFirst⟩ apart
  | callee inCallee notFirst here => exact absurd ⟨bb, inCallee, here⟩ apart
  | behind isAfter inBack => exact .inl ⟨isAfter, inBack⟩
  | phi isAfter isNew many => exact absurd isNew (Nat.ne_of_lt below)
  | jump isNew isJump => exact absurd isNew (Nat.not_le_of_lt below)

/-- What is behind a later call was there before, and only the new phi came in front of it. -/
theorem later_split (lined : Lined store func (call :: rest)) {other : InstId} (member : other ∈ rest)
    {bb : BlockId} {front back : List InstId} (here : store'.instructions bb = front ++ other :: back) :
    ∃ home ∈ store.shape.bbs func, ∃ before, store.instructions home = before ++ other :: back ∧
      ∀ id ∈ front, id = store.nextInst ∨ id ∈ before := by
  have closed := site.closed_of_lined lined
  have inBlock : other ∈ store'.instructions bb := by
    rw [here]
    exact List.mem_append_right _ List.mem_cons_self
  have below := site.below_of_calledIn (lined.calledIn other (List.mem_cons_of_mem _ member))
  rcases site.later_home lined member inBlock with ⟨isAfter, -⟩ | ⟨inCaller, notBB, -⟩
  · subst isAfter
    refine ⟨site.bb, site.bbMem, ?_⟩
    rcases site.lists_after closed with same | ⟨-, same⟩
    · rw [here] at same
      refine ⟨site.front ++ call :: front, by rw [site.here, ← same, List.append_assoc]; rfl, ?_⟩
      exact fun id inFront => .inr (List.mem_append_right _ (List.mem_cons_of_mem _ inFront))
    · rw [here] at same
      cases front with
      | nil => exact absurd (List.cons.inj same).1 (Nat.ne_of_lt below)
      | cons phi front =>
          rcases List.cons.inj same with ⟨isPhi, same⟩
          refine ⟨site.front ++ call :: front, by rw [site.here, ← same, List.append_assoc]; rfl, ?_⟩
          intro id inFront
          cases inFront with
          | head => exact .inl isPhi
          | tail _ inFront =>
              exact .inr (List.mem_append_right _ (List.mem_cons_of_mem _ inFront))
  · rw [(site.caller_block closed inCaller notBB).1] at here
    exact ⟨bb, inCaller, front, here, fun id inFront => .inr inFront⟩

/-- The later calls are in order too. -/
theorem lined (lined : Lined store func (call :: rest)) : Lined store' func rest where
  toPending := site.pending lined.toPending
  keeps := by
    intro other member callee isCallee
    rw [site.pending_kindOf lined.toPending member] at isCallee
    have inAll := List.mem_cons_of_mem call member
    rcases lined.callee other inAll with ⟨again, notFunc, isAgain, -⟩
    cases isCallee.symm.trans isAgain
    exact site.keepsIn (site.closed_of_lined lined) notFunc (lined.keeps other inAll callee isAgain)
  behind := by
    intro other member bb _ front back here id inBack vars isPhi
    rcases site.later_split lined member here with ⟨home, homeMem, before, there, -⟩
    have inHome : id ∈ store.instructions home := by
      rw [there]
      exact List.mem_append_right _ (List.mem_cons_of_mem _ inBack)
    have below := site.below_of_calledIn ⟨home, homeMem, inHome⟩
    exact lined.behind other (List.mem_cons_of_mem _ member) home homeMem before back there id inBack
      vars (site.kindOf_old below isPhi)
  ordered := by
    apply (List.pairwise_cons.mp lined.ordered).2.imp_of_mem
    intro one later oneMem laterMem ordered bb _ front back here inFront
    rcases site.later_split lined oneMem here with ⟨home, homeMem, before, there, old⟩
    have below := site.below_of_calledIn (lined.calledIn later (List.mem_cons_of_mem _ laterMem))
    exact ordered home homeMem before back there
      ((old later inFront).resolve_left (Nat.ne_of_lt below))

end Site

/-! ## Phis that are wrong -/

/-- A block that has been made and is in no callee to come. -/
structure Outside (store : Store) (calls : List InstId) (bb : BlockId) : Prop where
  below : bb < store.nextBlock
  apart : ∀ call ∈ calls, ∀ callee, store.kindOf call = some (.kCall callee) →
    bb ∉ store.shape.bbs callee

/-- A phi and a block without calls of which it does not know whether it is a predecessor. -/
structure Wrong (store : Store) (func : FuncId) (calls : List InstId) (bb : BlockId) (id : InstId)
    (vars : List PhiEntry) (pred : BlockId) : Prop where
  member : bb ∈ store.shape.bbs func
  inBlock : id ∈ store.instructions bb
  isPhi : store.kindOf id = some (.kPhi vars)
  differs : ¬ (pred ∈ vars.map PhiEntry.bb ↔ pred ∈ store.preds bb)
  outside : Outside store calls pred
  noCalls : ∀ call ∈ calls, call ∉ store.instructions pred

theorem Wrong.not_phisMatch {bb pred : BlockId} (wrong : Wrong store func calls bb id vars pred) :
    ¬ PhisMatch store (store.shape.bbs func) := by
  intro matching
  exact wrong.differs ((matching bb wrong.member id wrong.inBlock vars wrong.isPhi).2 pred)

theorem Site.wrong (site : Site func call store store') (lined : Lined store func (call :: rest))
    {bb pred : BlockId} (wrong : Wrong store func (call :: rest) bb id vars pred) :
    Wrong store' func rest bb id vars pred := by
  have closed := site.closed_of_lined lined
  have notBehind : id ∉ site.back := fun inBack =>
    lined.behind call List.mem_cons_self site.bb site.bbMem _ _ site.here id inBack vars wrong.isPhi
  have isCall : store.kindOf call = some (.kCall site.callee) := by
    rw [kindOf_eq site.instFound, site.kind]
  have apart := wrong.outside.apart call List.mem_cons_self site.callee isCall
  have old : pred ≠ store.nextBlock := Nat.ne_of_lt wrong.outside.below
  have notBB : pred ≠ site.bb := by
    rintro rfl
    apply wrong.noCalls call List.mem_cons_self
    rw [site.here]
    exact List.mem_append_right _ List.mem_cons_self
  have notFirst : bb ≠ site.first := fun equal => site.first_not_mem (equal ▸ wrong.member)
  have bbs := site.bbs func
  rw [if_pos rfl] at bbs
  constructor
  · rw [bbs, List.append_assoc]
    exact List.mem_append_left _ wrong.member
  · exact site.phi_stays wrong.member wrong.inBlock wrong.isPhi notBehind
  · exact site.kindOf_phi wrong.isPhi (site.below_of_calledIn ⟨bb, wrong.member, wrong.inBlock⟩)
  · rw [site.preds_outside closed notFirst notBB old apart]
    exact wrong.differs
  · constructor
    · rw [site.nextBlock]
      exact Nat.lt_succ_of_lt wrong.outside.below
    · intro other member callee isCallee inCallee
      rw [site.pending_kindOf lined.toPending member] at isCallee
      have inAll := List.mem_cons_of_mem call member
      rcases lined.callee other inAll with ⟨again, notFunc, isAgain, -⟩
      cases isCallee.symm.trans isAgain
      rw [site.bbs, if_neg notFunc] at inCallee
      split_ifs at inCallee with emptied
      · cases inCallee
      · exact wrong.outside.apart other inAll callee isAgain inCallee
  · intro other member inPred
    rcases site.later_home lined member inPred with ⟨isAfter, -⟩ | ⟨-, -, inOld⟩
    · exact old isAfter
    · exact wrong.noCalls other (List.mem_cons_of_mem _ member) inOld

/-- A phi that is wrong stays wrong. -/
theorem Wrong.run {bb pred : BlockId} (wrong : Wrong store func calls bb id vars pred)
    (lined : Lined store func calls) (tidy : store.Tidy)
    (result : calls.foldlM (doInline func) store = .ok store') :
    ¬ PhisMatch store' (store'.shape.bbs func) := by
  induction calls generalizing store with
  | nil =>
      cases result
      exact wrong.not_phisMatch
  | cons call rest induction =>
      rw [List.foldlM_cons] at result
      rcases Result.bind_eq_ok.mp result with ⟨next, first, later⟩
      rcases lined.toPending.site tidy first with ⟨site⟩
      exact induction (site.wrong lined wrong) (site.lined lined) site.tidy' later

end LeechJit.Opt.Inlining
