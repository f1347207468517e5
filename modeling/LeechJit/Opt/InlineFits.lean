import LeechJit.Opt.InlineExact
import LeechJit.Opt.InlineLined

/-! # Calls that fit

A call that moves no edge that a phi knows leaves the phis as they have to be, and whether the
later calls fit does not depend on it.
-/

namespace LeechJit.Opt.Inlining

open IR Store LeechJit.Graph

variable {store store' : Store} {func callee : FuncId} {call id : InstId} {vars : List PhiEntry}
  {calls rest : List InstId}

/-- A callee whose phis match its predecessors. -/
structure Merging (store : Store) (func callee : FuncId) : Prop
    extends Inlinable store func callee where
  closed : ∀ function, store.functions callee = some function → (store.cfg function).Closed
  phis : PhisMatch store (store.shape.bbs callee)

/-- The phis of the first block have entries. -/
def Entered (store : Store) (callee : FuncId) : Prop :=
  ∀ first ∈ (store.shape.bbs callee).head?, ∀ id ∈ store.instructions first,
    store.kindOf id ≠ some (.kPhi [])

/-- No phi knows an edge that is moved when a call in block `bb` is inlined. -/
structure Fits (store : Store) (bb : BlockId) (callee : FuncId) : Prop where
  outgoing : ∀ succ ∈ store.succs bb, ¬ HasPhi store succ
  entryPhis : ∀ first ∈ (store.shape.bbs callee).head?, ¬ HasPhi store first
  entrySuccs : ∀ first ∈ (store.shape.bbs callee).head?, ∀ succ ∈ store.succs first,
    ¬ HasPhi store succ
  soleReturn : ∀ first ∈ (store.shape.bbs callee).head?, retOf store first ≠ none →
    ∀ function, store.functions callee = some function → ∀ other,
      (store.cfg function).Reachable other → retOf store other ≠ none → other = first

def CallFits (store : Store) (call : InstId) : Prop :=
  ∀ bb, call ∈ store.instructions bb → ∀ callee, store.kindOf call = some (.kCall callee) →
    Fits store bb callee

/-- The calls that are still to be inlined, with phis that match so far. -/
structure Wired (store : Store) (func : FuncId) (calls : List InstId) : Prop
    extends Lined store func calls where
  phis : PhisMatch store (store.shape.bbs func)
  preds : ∀ bb ∈ store.shape.bbs func, ∀ pred ∈ store.preds bb, Outside store calls pred
  outgoing : ∀ call ∈ calls, ∀ bb ∈ store.shape.bbs func, call ∈ store.instructions bb →
    Outgoing store func bb
  callees : ∀ call ∈ calls, ∀ callee, store.kindOf call = some (.kCall callee) →
    Merging store func callee
  distinct : calls.Pairwise fun call other => store.kindOf call ≠ store.kindOf other

namespace Site

variable (site : Site func call store store')

theorem head_callee : (store.shape.bbs site.callee).head? = some site.first := by
  rw [Shape.bbs_eq (show store.shape.functions site.callee = some site.source from site.sourceFound),
    site.blocks]
  rfl

theorem merging (wired : Wired store func (call :: rest)) : Merging store func site.callee :=
  wired.callees call List.mem_cons_self site.callee site.isCall

theorem bb_outgoing (wired : Wired store func (call :: rest)) : Outgoing store func site.bb := by
  apply wired.outgoing call List.mem_cons_self site.bb site.bbMem
  rw [site.here]
  exact List.mem_append_right _ List.mem_cons_self

theorem not_behind (lined : Lined store func (call :: rest))
    (isPhi : store.kindOf id = some (.kPhi vars)) : id ∉ site.back := fun inBack =>
  lined.behind call List.mem_cons_self site.bb site.bbMem _ _ site.here id inBack vars isPhi

/-- The callee of a later call is neither the caller nor the callee of this one. -/
theorem later_callee (wired : Wired store func (call :: rest)) {other : InstId}
    (member : other ∈ rest) (isCallee : store.kindOf other = some (.kCall callee)) :
    callee ≠ func ∧ callee ≠ site.callee := by
  constructor
  · exact (wired.callees other (List.mem_cons_of_mem _ member) callee isCallee).different
  · rintro rfl
    exact (List.pairwise_cons.mp wired.distinct).1 other member (site.isCall.trans isCallee.symm)

include site

/-! ## Functions that the call is not about -/

theorem other_preds (inlinable : Inlinable store func site.callee) (outgoing : Outgoing store func site.bb)
    {key : FuncId} (notFunc : key ≠ func) (notCallee : key ≠ site.callee) {bb : BlockId}
    (member : bb ∈ store.shape.bbs key) (pred : BlockId) :
    pred ∈ store'.preds bb ↔ pred ∈ store.preds bb := by
  have disjoint := site.tidy.apart.disjoint
  have old := site.ne_after (site.tidy.apart.present key bb member)
  apply site.preds_same inlinable outgoing _ old
  · exact fun isSucc => notFunc (disjoint key func bb member (outgoing.succsMem bb isSucc))
  · intro isSucc
    rcases site.entered inlinable isSucc with inCallee | isAfter
    · exact notCallee (disjoint key site.callee bb member inCallee)
    · exact old isAfter
  · rintro rfl
    exact notCallee (disjoint key site.callee _ member site.first_mem)

theorem other_hasPhi (closed : site.ClosedCallee) {key : FuncId} (notFunc : key ≠ func)
    (notCallee : key ≠ site.callee) {bb : BlockId} (member : bb ∈ store.shape.bbs key) :
    HasPhi store' bb ↔ HasPhi store bb := by
  rw [HasPhi, HasPhi, (site.other_block closed notFunc notCallee member).1]
  apply exists_congr
  intro id
  apply and_congr_right
  intro inBlock
  rw [site.other_kindOf closed notFunc notCallee ⟨bb, member, inBlock⟩]

theorem other_phisMatch (inlinable : Inlinable store func site.callee)
    (outgoing : Outgoing store func site.bb) {key : FuncId} (notFunc : key ≠ func)
    (notCallee : key ≠ site.callee) (matching : PhisMatch store (store.shape.bbs key)) :
    PhisMatch store' (store'.shape.bbs key) := by
  have closed := site.closed_of_inlinable inlinable
  rw [site.other_bbs notFunc notCallee]
  intro bb member id inBlock vars isPhi
  rw [(site.other_block closed notFunc notCallee member).1] at inBlock
  rw [site.other_kindOf closed notFunc notCallee ⟨bb, member, inBlock⟩] at isPhi
  rcases matching bb member id inBlock vars isPhi with ⟨nodup, same⟩
  refine ⟨nodup, ?_⟩
  intro pred
  rw [same, site.other_preds inlinable outgoing notFunc notCallee member]

theorem other_targetsOf (closed : site.ClosedCallee) {key : FuncId} (notFunc : key ≠ func)
    (notCallee : key ≠ site.callee) (calledIn : CalledIn store key id) :
    store'.targetsOf id = store.targetsOf id := by
  rw [targetsOf, targetsOf, site.other_kindOf closed notFunc notCallee calledIn]

theorem other_lastTargets (closed : site.ClosedCallee) {key : FuncId} (notFunc : key ≠ func)
    (notCallee : key ≠ site.callee) {bb : BlockId} (member : bb ∈ store.shape.bbs key) :
    store'.lastTargets bb = store.lastTargets bb := by
  rw [lastTargets, lastTargets, (site.other_block closed notFunc notCallee member).1]
  cases atEnd : (store.instructions bb).getLast? with
  | none => rfl
  | some last =>
      exact site.other_targetsOf closed notFunc notCallee ⟨bb, member, List.mem_of_getLast? atEnd⟩

theorem other_edges (inlinable : Inlinable store func site.callee)
    (outgoing : Outgoing store func site.bb) {key : FuncId} (notFunc : key ≠ func)
    (notCallee : key ≠ site.callee) (edges : EdgesAgree store (store.shape.bbs key)) :
    EdgesAgree store' (store'.shape.bbs key) := by
  have closed := site.closed_of_inlinable inlinable
  have block : ∀ {bb}, bb ∈ store.shape.bbs key →
      store'.instructions bb = store.instructions bb ∧ store'.succs bb = store.succs bb :=
    fun member => site.other_block closed notFunc notCallee member
  have notFirst : ∀ bb ∈ store.shape.bbs key, bb ≠ site.first := by
    rintro bb member rfl
    exact notCallee (site.tidy.apart.disjoint key site.callee _ member site.first_mem)
  rw [site.other_bbs notFunc notCallee]
  constructor
  · intro pred predMem succ succMem
    have excess := site.excess (notFirst succ succMem) pred
    rw [if_neg (notFirst pred predMem), add_zero, Store.excess, Store.excess,
      edges.mirrored pred predMem succ succMem] at excess
    omega
  · intro bb member
    rw [(block member).2, edges.follow bb member, site.other_lastTargets closed notFunc notCallee member]
  · intro bb member succ isSucc
    rw [(block member).2] at isSucc
    exact edges.succsMem bb member succ isSucc
  · intro bb member pred isPred
    rw [site.other_preds inlinable outgoing notFunc notCallee member] at isPred
    exact edges.predsMem bb member pred isPred
  · intro bb member id inBlock target isTarget
    rw [(block member).1] at inBlock
    rw [site.other_targetsOf closed notFunc notCallee ⟨bb, member, inBlock⟩] at isTarget
    exact edges.targetsMem bb member id inBlock target isTarget

/-- The other callees stay as they are. -/
theorem other_merging (inlinable : Inlinable store func site.callee)
    (outgoing : Outgoing store func site.bb) {key : FuncId} (notCallee : key ≠ site.callee)
    (merging : Merging store func key) : Merging store' func key where
  different := merging.different
  value := by
    rw [site.other_functions merging.different notCallee]
    exact merging.value
  edges := site.other_edges inlinable outgoing merging.different notCallee merging.edges
  terminated := by
    have closed := site.closed_of_inlinable inlinable
    rw [site.other_bbs merging.different notCallee]
    intro first isFirst
    rcases merging.terminated first isFirst with ⟨last, kind, atEnd, isKind, terminator⟩
    have member := List.mem_of_mem_head? isFirst
    refine ⟨last, kind, ?_, ?_, terminator⟩
    · rw [(site.other_block closed merging.different notCallee member).1, atEnd]
    · rw [site.other_kindOf closed merging.different notCallee
        ⟨first, member, List.mem_of_getLast? atEnd⟩, isKind]
  closed := by
    intro function found
    rw [site.other_functions merging.different notCallee] at found
    exact site.other_closed (site.closed_of_inlinable inlinable) merging.different notCallee found
      (merging.closed function found)
  phis := site.other_phisMatch inlinable outgoing merging.different notCallee merging.phis

/-! ## A call that fits -/

/-- A callee that only returns from its first block needs no phi. -/
theorem sole_return (inlinable : Inlinable store func site.callee)
    (closed : (store.cfg site.source).Closed) (fits : Fits store site.bb site.callee)
    (returns : retOf store site.first ≠ none) : site.rets.length = 1 := by
  rcases Option.ne_none_iff_exists'.mp returns with ⟨ret, isRet⟩
  have isRetInputs := site.retOf_inputs inlinable site.first_mem
  rw [isRet] at isRetInputs
  have same : ∀ other ∈ site.rets, other = ret := by
    intro other member
    rcases site.mem_rets.mp member with ⟨bb, ordered, isOther⟩
    have inCallee := site.order_subset (site.closed_of_inlinable inlinable) ordered
    have isOtherOld := site.retOf_inputs inlinable inCallee
    rw [isOther] at isOtherOld
    have isFirst : bb = site.first := by
      apply fits.soleReturn site.first site.head_callee returns site.source site.sourceFound bb
        ((site.mem_order closed).mp ordered)
      rw [← isOtherOld]
      simp
    rw [isFirst, isRetInputs] at isOther
    exact (Option.some.inj isOther).symm
  have nodup : site.rets.Nodup := by
    rw [site.isRets]
    apply (rets_apart site.inputsTidy (site.isOrder ▸ preOrder_nodup)).imp
    rintro one other different rfl
    exact different rfl
  have member : ret ∈ site.rets := site.mem_rets.mpr ⟨_, site.first_mem_order, isRetInputs⟩
  have replicated := List.eq_replicate_of_mem same
  rw [replicated, List.nodup_replicate] at nodup
  have positive := List.length_pos_of_mem member
  omega

theorem phisMatch (wired : Wired store func (call :: rest)) (fits : Fits store site.bb site.callee) :
    PhisMatch store' (store'.shape.bbs func) := by
  have merging := site.merging wired
  have inlinable := merging.toInlinable
  have outgoing := site.bb_outgoing wired
  have closed := merging.closed site.source site.sourceFound
  have disjoint := site.tidy.apart.disjoint
  intro bb bbMem id inBlock vars isPhi
  cases site.origin bbMem inBlock with
  | caller member here notBehind =>
      have wasPhi := site.kindOf_old (site.below_of_calledIn ⟨bb, member, here⟩) isPhi
      rcases wired.phis bb member id here vars wasPhi with ⟨nodup, same⟩
      refine ⟨nodup, ?_⟩
      intro pred
      rw [same]
      apply (site.preds_same inlinable outgoing _ _ _ (site.caller_not_entered inlinable member) pred).symm
      · exact fun equal => site.first_not_mem (equal ▸ member)
      · exact site.ne_after (site.tidy.apart.present func bb member)
      · exact fun isSucc => fits.outgoing bb isSucc ⟨id, here, vars, wasPhi⟩
  | first isBB inFirst =>
      have below := site.below_of_calledIn ⟨site.first, site.first_mem, inFirst⟩
      have wasPhi := site.kindOf_old below isPhi
      exact absurd ⟨id, inFirst, vars, wasPhi⟩ (fits.entryPhis site.first site.head_callee)
  | callee member notFirst here =>
      have wasPhi := site.kindOf_old (site.below_of_calledIn ⟨bb, member, here⟩) isPhi
      rcases merging.phis bb member id here vars wasPhi with ⟨nodup, same⟩
      refine ⟨nodup, ?_⟩
      intro pred
      rw [same]
      apply (site.preds_same inlinable outgoing notFirst (site.callee_ne_after member) _ _ pred).symm
      · exact fun isSucc =>
          site.different (disjoint func site.callee bb (outgoing.succsMem bb isSucc) member)
      · intro isSucc
        rw [site.outputs_succs_first inlinable] at isSucc
        split_ifs at isSucc with noReturn
        · exact fits.entrySuccs site.first site.head_callee bb isSucc ⟨id, here, vars, wasPhi⟩
        · exact site.callee_ne_after member (List.mem_singleton.mp isSucc)
  | behind isAfter inBack =>
      have below := site.below_of_calledIn ⟨site.bb, site.bbMem, site.back_subset inBack⟩
      exact absurd inBack (site.not_behind wired.toLined (site.kindOf_old below isPhi))
  | phi isAfter isNew many =>
      subst isAfter isNew
      have noReturn : retOf store site.first = none := by
        by_contra returns
        exact many (site.sole_return inlinable closed fits returns)
      have keeps := site.closed_of_inlinable inlinable
      rcases site.new_phi keeps many with ⟨news, -, isNewPhi, nodup, same⟩
      cases isNewPhi.symm.trans isPhi
      refine ⟨nodup, ?_⟩
      intro pred
      rw [same, site.preds_new inlinable outgoing noReturn]
      apply and_congr_right
      intro ordered
      rw [site.retOf_inputs inlinable (site.order_subset keeps ordered)]
  | jump isNew isJump => cases isJump.symm.trans isPhi

/-- The blocks of the caller have phis where they had. -/
theorem caller_hasPhi (lined : Lined store func (call :: rest))
    (fits : Fits store site.bb site.callee) {bb : BlockId} (member : bb ∈ store.shape.bbs func) :
    HasPhi store' bb ↔ HasPhi store bb := by
  have bbs := site.bbs func
  rw [if_pos rfl] at bbs
  have bbMem : bb ∈ store'.shape.bbs func := by
    rw [bbs, List.append_assoc]
    exact List.mem_append_left _ member
  have old := site.ne_after (site.tidy.apart.present func bb member)
  constructor
  · rintro ⟨id, inBlock, vars, isPhi⟩
    cases site.origin bbMem inBlock with
    | caller _ here notBehind =>
        exact ⟨id, here, vars, site.kindOf_old (site.below_of_calledIn ⟨bb, member, here⟩) isPhi⟩
    | first isBB inFirst =>
        have below := site.below_of_calledIn ⟨site.first, site.first_mem, inFirst⟩
        exact absurd ⟨id, inFirst, vars, site.kindOf_old below isPhi⟩
          (fits.entryPhis site.first site.head_callee)
    | callee inCallee notFirst here =>
        exact absurd (site.tidy.apart.disjoint func site.callee bb member inCallee) site.different
    | behind isAfter inBack => exact absurd isAfter old
    | phi isAfter isNew many => exact absurd isAfter old
    | jump isNew isJump => cases isJump.symm.trans isPhi
  · rintro ⟨id, here, vars, wasPhi⟩
    refine ⟨id, site.phi_stays member here wasPhi (site.not_behind lined wasPhi), vars, ?_⟩
    exact site.kindOf_phi wasPhi (site.below_of_calledIn ⟨bb, member, here⟩)

/-! ## The calls that come later -/

theorem mem_bbs {bb : BlockId} : bb ∈ store'.shape.bbs func ↔ bb ∈ store.shape.bbs func ∨
    (bb ∈ store.shape.bbs site.callee ∧ bb ≠ site.first) ∨ bb = store.nextBlock := by
  have nodup := site.tidy.apart.nodup site.callee
  rw [Shape.bbs_eq (show store.shape.functions site.callee = some site.source from site.sourceFound),
    site.blocks, List.nodup_cons] at nodup
  rw [site.bbs, if_pos rfl, site.mem_calleeBBs, site.blocks, List.mem_append, List.mem_append,
    List.mem_singleton, List.mem_cons, or_assoc]
  apply or_congr_right
  apply or_congr_left
  constructor
  · intro inRest
    exact ⟨.inr inRest, fun isFirst => nodup.1 (isFirst ▸ inRest)⟩
  · rintro ⟨isFirst | inRest, notFirst⟩
    · exact absurd isFirst notFirst
    · exact inRest

theorem bbs_ne_first {bb : BlockId} (member : bb ∈ store'.shape.bbs func) : bb ≠ site.first := by
  rintro rfl
  rcases site.mem_bbs.mp member with inCaller | ⟨-, different⟩ | isAfter
  · exact site.first_not_mem inCaller
  · exact different rfl
  · exact site.ne_after site.first_present isAfter

theorem caller_kindOf (closed : site.ClosedCallee) (calledIn : CalledIn store func id)
    (notCall : id ≠ call) : store'.kindOf id = store.kindOf id := by
  apply site.kindOf (site.below_of_calledIn calledIn) (site.not_param_of_caller calledIn) _ notCall
  exact fun isRet => site.not_callee_of_caller calledIn (site.rets_calledIn closed isRet)

theorem succs_new (inlinable : Inlinable store func site.callee)
    (outgoing : Outgoing store func site.bb) :
    store'.succs store.nextBlock = store.succs site.bb := by
  have afterFirst := (site.ne_after site.first_present).symm
  have afterBB := (site.ne_after (site.tidy.apart.present func _ site.bbMem)).symm
  rw [site.succs, if_neg afterFirst, if_neg afterBB,
    site.outputs_succs_after (site.closed_of_inlinable inlinable) outgoing]

/-- The block of a later call leads to where the one it was in led. -/
theorem later_succs (wired : Wired store func (call :: rest)) {other : InstId} (member : other ∈ rest)
    {bb home : BlockId} (inBlock : other ∈ store'.instructions bb)
    (inHome : other ∈ store.instructions home) : store'.succs bb = store.succs home := by
  have inlinable := (site.merging wired).toInlinable
  rcases site.later_home wired.toLined member inBlock with ⟨isAfter, inBack⟩ | ⟨inCaller, notBB, here⟩
  · subst isAfter
    cases site.tidy.settled.home_unique inHome (site.back_subset inBack)
    exact site.succs_new inlinable (site.bb_outgoing wired)
  · cases site.tidy.settled.home_unique inHome here
    exact (site.caller_block (site.closed_of_inlinable inlinable) inCaller notBB).2

/-- Whether a later call fits does not depend on this one. -/
theorem fits_iff (wired : Wired store func (call :: rest)) (fits : Fits store site.bb site.callee)
    {other : InstId} (member : other ∈ rest) (isCallee : store.kindOf other = some (.kCall callee))
    {bb home : BlockId} (inBlock : other ∈ store'.instructions bb)
    (inHome : other ∈ store.instructions home) : Fits store' bb callee ↔ Fits store home callee := by
  have inlinable := (site.merging wired).toInlinable
  have closed := site.closed_of_inlinable inlinable
  have inAll := List.mem_cons_of_mem call member
  rcases site.later_callee wired member isCallee with ⟨notFunc, notCallee⟩
  have merging := wired.callees other inAll callee isCallee
  have sameBBs := site.other_bbs notFunc notCallee
  have sameSuccs := site.later_succs wired member inBlock inHome
  have homeMem : home ∈ store.shape.bbs func := by
    rcases wired.calledIn other inAll with ⟨again, againMem, inAgain⟩
    cases site.tidy.settled.home_unique inHome inAgain
    exact againMem
  have leaves : ∀ succ ∈ store.succs home, HasPhi store' succ ↔ HasPhi store succ :=
    fun succ isSucc => site.caller_hasPhi wired.toLined fits
      ((wired.outgoing other inAll home homeMem inHome).succsMem succ isSucc)
  have inside : ∀ bb ∈ store.shape.bbs callee, HasPhi store' bb ↔ HasPhi store bb :=
    fun bb inCallee => site.other_hasPhi closed notFunc notCallee inCallee
  have succs : ∀ bb ∈ store.shape.bbs callee, store'.succs bb = store.succs bb :=
    fun bb inCallee => (site.other_block closed notFunc notCallee inCallee).2
  have returns : ∀ bb ∈ store.shape.bbs callee, retOf store' bb = retOf store bb :=
    fun bb inCallee => site.other_retOf closed notFunc notCallee inCallee
  have isMember : ∀ {first}, first ∈ (store.shape.bbs callee).head? → first ∈ store.shape.bbs callee :=
    fun isFirst => List.mem_of_mem_head? isFirst
  have functions := site.other_functions notFunc notCallee
  have reachable : ∀ function, store.functions callee = some function → ∀ bb,
      (store'.cfg function).Reachable bb ↔ (store.cfg function).Reachable bb :=
    fun function found bb =>
      site.other_reachable closed notFunc notCallee found (merging.closed function found)
  have reached : ∀ function, store.functions callee = some function → ∀ bb,
      (store.cfg function).Reachable bb → bb ∈ store.shape.bbs callee := by
    intro function found bb isReachable
    rw [Shape.bbs_eq (show store.shape.functions callee = some function from found)]
    exact (merging.closed function found).mem_of_reachable isReachable
  constructor
  · intro after
    constructor
    · intro succ isSucc
      rw [← leaves succ isSucc]
      exact after.outgoing succ (sameSuccs ▸ isSucc)
    · intro first isFirst
      rw [← inside first (isMember isFirst)]
      exact after.entryPhis first (sameBBs ▸ isFirst)
    · intro first isFirst succ isSucc
      rw [← inside succ (merging.edges.succsMem first (isMember isFirst) succ isSucc)]
      apply after.entrySuccs first (sameBBs ▸ isFirst)
      rwa [succs first (isMember isFirst)]
    · intro first isFirst returnsFirst function found bb isReachable returnsBB
      rw [← returns first (isMember isFirst)] at returnsFirst
      rw [← returns bb (reached function found bb isReachable)] at returnsBB
      exact after.soleReturn first (sameBBs ▸ isFirst) returnsFirst function (functions ▸ found) bb
        ((reachable function found bb).mpr isReachable) returnsBB
  · intro before
    constructor
    · intro succ isSucc
      rw [sameSuccs] at isSucc
      rw [leaves succ isSucc]
      exact before.outgoing succ isSucc
    · intro first isFirst
      rw [sameBBs] at isFirst
      rw [inside first (isMember isFirst)]
      exact before.entryPhis first isFirst
    · intro first isFirst succ isSucc
      rw [sameBBs] at isFirst
      rw [succs first (isMember isFirst)] at isSucc
      rw [inside succ (merging.edges.succsMem first (isMember isFirst) succ isSucc)]
      exact before.entrySuccs first isFirst succ isSucc
    · intro first isFirst returnsFirst function found bb isReachable returnsBB
      rw [sameBBs] at isFirst
      rw [functions] at found
      rw [reachable function found bb] at isReachable
      rw [returns first (isMember isFirst)] at returnsFirst
      rw [returns bb (reached function found bb isReachable)] at returnsBB
      exact before.soleReturn first isFirst returnsFirst function found bb isReachable returnsBB

theorem outside_of_other (wired : Wired store func (call :: rest)) {pred : BlockId}
    (below : pred < store'.nextBlock) (apart : ∀ other ∈ rest, ∀ callee,
      store.kindOf other = some (.kCall callee) → pred ∉ store.shape.bbs callee) :
    Outside store' rest pred := by
  refine ⟨below, ?_⟩
  intro other member callee isCallee
  rw [site.pending_kindOf wired.toPending member] at isCallee
  rcases site.later_callee wired member isCallee with ⟨notFunc, notCallee⟩
  rw [site.other_bbs notFunc notCallee]
  exact apart other member callee isCallee

/-- No block of the caller or of the callee is in a callee to come. -/
theorem outside_of_mem (wired : Wired store func (call :: rest)) {pred : BlockId}
    (member : pred ∈ store.shape.bbs func ∨ pred ∈ store.shape.bbs site.callee) :
    Outside store' rest pred := by
  have disjoint := site.tidy.apart.disjoint
  apply site.outside_of_other wired
  · rw [site.nextBlock]
    apply Nat.lt_succ_of_lt
    cases member with
    | inl inCaller => exact site.tidy.apart.allocated _ (site.tidy.apart.present _ _ inCaller)
    | inr inCallee => exact site.tidy.apart.allocated _ (site.tidy.apart.present _ _ inCallee)
  · intro other inRest callee isCallee inOther
    rcases site.later_callee wired inRest isCallee with ⟨notFunc, notCallee⟩
    cases member with
    | inl inCaller => exact notFunc (disjoint callee func pred inOther inCaller)
    | inr inCallee => exact notCallee (disjoint callee site.callee pred inOther inCallee)

theorem outside_new (wired : Wired store func (call :: rest)) :
    Outside store' rest store.nextBlock := by
  apply site.outside_of_other wired
  · rw [site.nextBlock]
    exact Nat.lt_succ_self _
  · intro other inRest callee isCallee inOther
    exact site.ne_after (site.tidy.apart.present _ _ inOther) rfl

/-- The predecessors of the blocks of the caller are in no callee to come. -/
theorem preds_apart (wired : Wired store func (call :: rest)) {bb pred : BlockId}
    (bbMem : bb ∈ store'.shape.bbs func) (isPred : pred ∈ store'.preds bb) :
    Outside store' rest pred := by
  have merging := site.merging wired
  have closed := site.closed_of_inlinable merging.toInlinable
  by_cases isBB : pred = site.bb
  · exact site.outside_of_mem wired (.inl (isBB ▸ site.bbMem))
  · by_cases isAfter : pred = store.nextBlock
    · exact isAfter ▸ site.outside_new wired
    · by_cases inCallee : pred ∈ store.shape.bbs site.callee
      · exact site.outside_of_mem wired (.inr inCallee)
      · rw [site.preds_outside closed (site.bbs_ne_first bbMem) isBB isAfter inCallee] at isPred
        rcases site.mem_bbs.mp bbMem with inCaller | ⟨inCallee', -⟩ | isNew
        · rcases wired.preds bb inCaller pred isPred with ⟨below, apart⟩
          apply site.outside_of_other wired
          · rw [site.nextBlock]
            exact Nat.lt_succ_of_lt below
          · exact fun other member => apart other (List.mem_cons_of_mem _ member)
        · exact absurd (merging.edges.predsMem bb inCallee' pred isPred) inCallee
        · rw [isNew, site.preds_after] at isPred
          cases isPred

/-- The last instruction of a block leads to where it led. -/
theorem lastTargets_same (closed : site.ClosedCallee) {bb home : BlockId} {last : InstId}
    (member : home ∈ store.shape.bbs func) (notCall : last ≠ call)
    (atEnd : (store.instructions home).getLast? = some last)
    (atEnd' : (store'.instructions bb).getLast? = some last) :
    store'.lastTargets bb = store.lastTargets home := by
  have calledIn : CalledIn store func last := ⟨home, member, List.mem_of_getLast? atEnd⟩
  rw [lastTargets, lastTargets, atEnd, atEnd', Option.elim_some, Option.elim_some, targetsOf, targetsOf,
    site.caller_kindOf closed calledIn notCall]

/-- The edges of the new block are in order while calls are left in it. -/
theorem new_outgoing (wired : Wired store func (call :: rest)) (nonempty : site.back ≠ []) :
    Outgoing store' func store.nextBlock := by
  have merging := site.merging wired
  have inlinable := merging.toInlinable
  have outgoing := site.bb_outgoing wired
  have closed := site.closed_of_inlinable inlinable
  constructor
  · intro succ isSucc
    rw [site.succs_new inlinable outgoing] at isSucc
    exact site.mem_bbs.mpr (.inl (outgoing.succsMem succ isSucc))
  · have isLast := List.getLast?_eq_getLast_of_ne_nil nonempty
    have atEnd : (store.instructions site.bb).getLast? = some (site.back.getLast nonempty) := by
      rw [site.here, List.append_cons, List.getLast?_append_of_ne_nil _ nonempty, isLast]
    have atEnd' : (store'.instructions store.nextBlock).getLast? =
        some (site.back.getLast nonempty) := by
      rcases site.lists_after closed with same | ⟨-, same⟩
      · rw [same, isLast]
      · rw [same, ← List.singleton_append, List.getLast?_append_of_ne_nil _ nonempty, isLast]
    have notCall : site.back.getLast nonempty ≠ call := by
      have nodup := site.tidy.settled.nodup site.bb
      rw [site.here] at nodup
      exact ne_of_mem_of_not_mem (List.getLast_mem nonempty)
        (List.nodup_cons.mp (List.nodup_append.mp nodup).2.1).1
    rw [site.succs_new inlinable outgoing, outgoing.follow,
      site.lastTargets_same closed site.bbMem notCall atEnd atEnd']
  · intro succ succMem
    have fresh : store.nextBlock ∉ store.preds succ := by
      intro isPred
      rcases site.mem_bbs.mp succMem with inCaller | ⟨inCallee, -⟩ | isNew
      · exact Nat.lt_irrefl _ (wired.preds succ inCaller _ isPred).below
      · exact site.callee_ne_after (merging.edges.predsMem succ inCallee _ isPred) rfl
      · rw [isNew, site.preds_after] at isPred
        cases isPred
    rw [site.excess (site.bbs_ne_first succMem), if_neg (site.ne_after site.first_present).symm,
      Store.excess, site.succs_after, List.count_eq_zero.mpr fresh]
    rfl

theorem caller_outgoing (wired : Wired store func (call :: rest)) {bb : BlockId}
    (member : bb ∈ store.shape.bbs func) (notBB : bb ≠ site.bb) (nonempty : store.instructions bb ≠ [])
    (leaves : Outgoing store func bb) : Outgoing store' func bb := by
  have merging := site.merging wired
  have closed := site.closed_of_inlinable merging.toInlinable
  have disjoint := site.tidy.apart.disjoint
  rcases site.caller_block closed member notBB with ⟨lists, succs⟩
  constructor
  · intro succ isSucc
    rw [succs] at isSucc
    exact site.mem_bbs.mpr (.inl (leaves.succsMem succ isSucc))
  · have atEnd := List.getLast?_eq_getLast_of_ne_nil nonempty
    have notCall : (store.instructions bb).getLast nonempty ≠ call := by
      have inBlock := List.getLast_mem nonempty
      intro isCall
      rw [isCall] at inBlock
      apply notBB
      apply site.tidy.settled.home_unique inBlock
      rw [site.here]
      exact List.mem_append_right _ List.mem_cons_self
    rw [succs, leaves.follow,
      site.lastTargets_same closed member notCall atEnd ((congrArg _ lists).trans atEnd)]
  · intro succ succMem
    have bbFirst : bb ≠ site.first := fun equal => site.first_not_mem (equal ▸ member)
    rw [site.excess (site.bbs_ne_first succMem), if_neg bbFirst, add_zero]
    rcases site.mem_bbs.mp succMem with inCaller | ⟨inCallee, -⟩ | isNew
    · exact leaves.excess succ inCaller
    · have notPred : bb ∉ store.preds succ := fun isPred => site.different
        (disjoint func site.callee bb member (merging.edges.predsMem succ inCallee _ isPred))
      have notSucc : succ ∉ store.succs bb := fun isSucc => site.different
        (disjoint func site.callee succ (leaves.succsMem succ isSucc) inCallee)
      rw [Store.excess, List.count_eq_zero.mpr notPred, List.count_eq_zero.mpr notSucc]
      rfl
    · have notSucc : store.nextBlock ∉ store.succs bb := fun isSucc =>
        site.ne_after (site.tidy.apart.present func _ (leaves.succsMem _ isSucc)) rfl
      rw [isNew, Store.excess, site.preds_after, List.count_eq_zero.mpr notSucc]
      rfl

/-- The edges of a later call's block are in order. -/
theorem later_outgoing (wired : Wired store func (call :: rest)) {other : InstId}
    (member : other ∈ rest) {bb : BlockId} (inBlock : other ∈ store'.instructions bb) :
    Outgoing store' func bb := by
  rcases site.later_home wired.toLined member inBlock with ⟨isAfter, inBack⟩ | ⟨inCaller, notBB, here⟩
  · rw [isAfter]
    exact site.new_outgoing wired (List.ne_nil_of_mem inBack)
  · apply site.caller_outgoing wired inCaller notBB (List.ne_nil_of_mem here)
    exact wired.outgoing other (List.mem_cons_of_mem _ member) bb inCaller here

/-- After a call that fits the others are as they were. -/
theorem wired (wired : Wired store func (call :: rest)) (fits : Fits store site.bb site.callee) :
    Wired store' func rest where
  toLined := site.lined wired.toLined
  phis := site.phisMatch wired fits
  preds := fun bb bbMem pred isPred => site.preds_apart wired bbMem isPred
  outgoing := fun other member bb _ inBlock => site.later_outgoing wired member inBlock
  callees := by
    intro other member callee isCallee
    rw [site.pending_kindOf wired.toPending member] at isCallee
    exact site.other_merging (site.merging wired).toInlinable (site.bb_outgoing wired)
      (site.later_callee wired member isCallee).2
      (wired.callees other (List.mem_cons_of_mem _ member) callee isCallee)
  distinct := by
    apply (List.pairwise_cons.mp wired.distinct).2.imp_of_mem
    intro one other oneMem otherMem different
    rwa [site.pending_kindOf wired.toPending oneMem, site.pending_kindOf wired.toPending otherMem]

theorem callFits_iff (wired : Wired store func (call :: rest))
    (fits : Fits store site.bb site.callee) {other : InstId} (member : other ∈ rest) :
    CallFits store' other ↔ CallFits store other := by
  rcases wired.calledIn other (List.mem_cons_of_mem _ member) with ⟨home, -, inHome⟩
  rcases (site.pending wired.toPending).calledIn other member with ⟨bb, -, inBlock⟩
  rw [CallFits, CallFits, site.pending_kindOf wired.toPending member]
  constructor
  · intro after again inAgain callee isCallee
    rw [← site.fits_iff wired fits member isCallee inBlock inAgain]
    exact after bb inBlock callee isCallee
  · intro before again inAgain callee isCallee
    rw [site.fits_iff wired fits member isCallee inAgain inHome]
    exact before home inHome callee isCallee

end Site

end LeechJit.Opt.Inlining
