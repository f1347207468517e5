import LeechJit.Opt.InlineSite

/-! # Edges after inlining

The first block of the callee is erased while it still is a predecessor of the blocks it
led to, and while its own branches may name it.
-/

namespace LeechJit.Opt.Inlining

open IR Store LeechJit.Graph

variable {store store' : Store} {func : FuncId} {call : InstId}

/-- The edges of some blocks are those their branches make, and stay among the blocks. -/
structure EdgesAgree (store : Store) (bbs : List BlockId) : Prop where
  mirrored : ∀ pred ∈ bbs, ∀ succ ∈ bbs,
    (store.succs pred).count succ = (store.preds succ).count pred
  follow : ∀ bb ∈ bbs, store.succs bb = store.lastTargets bb
  succsMem : ∀ bb ∈ bbs, ∀ succ ∈ store.succs bb, succ ∈ bbs
  predsMem : ∀ bb ∈ bbs, ∀ pred ∈ store.preds bb, pred ∈ bbs
  targetsMem : ∀ bb ∈ bbs, ∀ id ∈ store.instructions bb, ∀ target ∈ store.targetsOf id, target ∈ bbs

/-- A block ends in a branch or in a return. -/
def Terminated (store : Store) (bb : BlockId) : Prop :=
  ∃ last kind, (store.instructions bb).getLast? = some last ∧ store.kindOf last = some kind ∧
    kind.isTerminator = true

/-- A block that is gone is still linked to block `bb`. -/
def Scar (store : Store) (gone bb : BlockId) : Prop :=
  ¬ store.shape.present gone ∧ gone < store.nextBlock ∧
    (0 < store.excess gone bb ∨ gone ∈ store.succs bb)

theorem getLast?_diff {ids params : List InstId} {last : InstId} (atEnd : ids.getLast? = some last)
    (notParam : last ∉ params) : (ids.diff params).getLast? = some last := by
  induction params generalizing ids with
  | nil => simpa using atEnd
  | cons param rest induction =>
      rw [List.diff_cons]
      apply induction _ (List.not_mem_of_not_mem_cons notParam)
      rcases List.getLast?_eq_some_iff.mp atEnd with ⟨front, rfl⟩
      have different : last ≠ param := List.ne_of_not_mem_cons notParam
      by_cases member : param ∈ front
      · rw [List.erase_append_left _ member, List.getLast?_concat]
      · rw [List.erase_append_right _ member, List.erase_of_not_mem (by simpa using different.symm),
          List.getLast?_concat]

namespace Site

variable (site : Site func call store store')

include site

/-! ## What is left of the first block -/

/-- The last instruction of the first block, which is not a parameter. -/
theorem inputs_last {last : InstId} {kind : InstKind}
    (atEnd : (store.instructions site.first).getLast? = some last)
    (isKind : store.kindOf last = some kind) (terminator : kind.isTerminator = true) :
    (site.inputs.instructions site.first).getLast? = some last ∧ last ∉ site.params := by
  have notParam : last ∉ site.params := by
    intro member
    rcases site.paramKinds last member with ⟨idx, isParam⟩
    rw [site.split_kindOf, isKind] at isParam
    cases isParam
    cases terminator
  refine ⟨?_, notParam⟩
  rw [site.inputs_lists, if_pos rfl,
    site.split_lists (site.ne_after site.first_present) site.bb_ne_first.symm]
  exact getLast?_diff atEnd notParam

theorem scar (closed : site.ClosedCallee)
    (mirrored : ∀ succ ∈ store.shape.bbs site.callee, store.excess site.first succ = 0)
    (follow : store.succs site.first = store.lastTargets site.first)
    (ends : Terminated store site.first) :
    ∃ bb ∈ store'.shape.bbs func, Scar store' site.first bb := by
  rcases ends with ⟨last, kind, atEnd, isKind, terminator⟩
  rcases site.inputs_last atEnd isKind terminator with ⟨inputsLast, notParam⟩
  have inputsKind : site.inputs.kindOf last = some kind := by
    rw [site.inputs_kindOf notParam, isKind]
  have gone : ¬ store'.shape.present site.first := by
    rw [site.present]
    exact fun present => present.2 rfl
  have below : site.first < store'.nextBlock := by
    rw [site.nextBlock]
    exact Nat.lt_succ_of_lt (site.tidy.apart.allocated _ site.first_present)
  have leads : store.succs site.first = kind.targets := by
    rw [follow, lastTargets, atEnd, Option.elim_some, targetsOf, isKind, Option.elim_some]
  have bbs := site.bbs func
  rw [if_pos rfl] at bbs
  by_cases isRet : kind = .kRet
  · -- the new block has it as a predecessor
    subst isRet
    have returns : retOf site.inputs site.first = some last :=
      retOf_eq_some.mpr ⟨inputsLast, inputsKind⟩
    have notFirst := (site.ne_after site.first_present).symm
    have excess := site.excess notFirst site.first
    have outside : store.nextBlock ∉ store.succs site.first := fun member =>
      site.callee_ne_after (closed _ site.first_mem _ member) rfl
    have noPreds : store.preds store.nextBlock = [] := by
      have absent : store.blocks store.nextBlock = none := not_not.mp site.tidy.apart.fresh
      rw [Store.preds, absent]
      rfl
    have before : store.excess site.first store.nextBlock = 0 := by
      rw [Store.excess, noPreds, List.count_eq_zero.mpr outside]
      rfl
    rw [if_pos rfl, before, site.outputs_of_ret site.first_mem_order returns,
      List.count_singleton_self] at excess
    refine ⟨store.nextBlock, ?_, gone, below, .inl ?_⟩
    · rw [bbs]
      simp
    · rw [excess]
      exact Int.one_pos
  · have noReturn : retOf site.inputs site.first = none := by
      rw [Option.eq_none_iff_forall_ne_some]
      intro ret returns
      rcases retOf_eq_some.mp returns with ⟨retLast, retKind⟩
      cases inputsLast.symm.trans retLast
      exact isRet (Option.some.inj (inputsKind.symm.trans retKind))
    rcases site.outputs_of_not (.inr noReturn) with ⟨lists, succs⟩
    have old := site.ne_after site.first_present
    rw [site.split_succs old] at succs
    rw [site.merged_lists old] at lists
    have someTarget : ∃ target, target ∈ kind.targets := by
      cases kind with
      | kIf trueBB falseBB => exact ⟨trueBB, List.mem_cons_self⟩
      | kJump target => exact ⟨target, List.mem_cons_self⟩
      | kRet => exact absurd rfl isRet
      | _ => cases terminator
    rcases someTarget with ⟨target, isTarget⟩
    have isSucc : target ∈ store.succs site.first := leads ▸ isTarget
    have inCallee := closed _ site.first_mem _ isSucc
    by_cases isFirst : target = site.first
    · -- its own branch leads back to it
      subst isFirst
      refine ⟨site.bb, ?_, gone, below, .inr ?_⟩
      · rw [bbs]
        simp [site.bbMem]
      · have notRet : last ∉ site.rets := by
          intro member
          rcases site.mem_rets.mp member with ⟨bb, -, returns⟩
          exact isRet (Option.some.inj
            (inputsKind.symm.trans (retOf_eq_some.mp returns).2))
        have oldInst : last < store.nextInst := by
          apply site.tidy.settled.allocated
          rw [site.tidy.settled.knows _ _ (List.mem_of_getLast? atEnd)]
          simp
        have nonempty : site.outputs.instructions site.first ≠ [] := by
          intro empty
          rw [← lists, empty] at inputsLast
          cases inputsLast
        rw [site.succs, if_neg site.bb_ne_first, if_pos rfl, Site.targets,
          List.getLast?_append_of_ne_nil _ nonempty, lists, inputsLast, Option.elim_some, targetsOf,
          site.outputs_kindOf oldInst notParam notRet, isKind, Option.elim_some]
        exact isTarget
    · -- the block it led to has it as a predecessor
      refine ⟨target, ?_, gone, below, .inl ?_⟩
      · have inRest := site.mem_calleeBBs.mp inCallee
        rw [site.blocks, List.mem_cons] at inRest
        rw [bbs]
        simp [inRest.resolve_left isFirst]
      · rw [site.excess isFirst, if_pos rfl, mirrored target inCallee, succs, Int.zero_add]
        exact Int.natCast_pos.mpr (List.count_pos_iff.mpr isSucc)

/-- A block that is gone has no new branches of other blocks led to it. -/
theorem outputs_succs_gone {gone bb : BlockId} (absent : ¬ store.shape.present gone)
    (below : gone < store.nextBlock) (old : bb ≠ store.nextBlock) (isSucc : gone ∈ store.succs bb) :
    site.outputs.succs bb = store.succs bb ∧ gone ∈ site.outputs.succs bb := by
  have same : site.outputs.succs bb = site.split.succs bb := by
    by_cases returns : ∃ ret, bb ∈ site.order ∧ retOf site.inputs bb = some ret
    · rcases returns with ⟨ret, member, isRet⟩
      rcases site.returned.replaced ret (site.mem_rets.mpr ⟨bb, member, isRet⟩) with
        ⟨inst, home, jump, found, isHome, -, -, -, -, -, existed⟩
      have isBB := site.merged_home isRet
      rw [found, Option.map_some, isHome] at isBB
      cases isBB
      -- its links were brought up to date, so what they led to is there
      have leads : gone ∈ site.merged.succs bb := by
        rw [site.merged_succs, site.inputs_succs, site.split_succs old]
        exact isSucc
      have there := existed gone leads
      rw [← site.returned.present, site.outputs_shape_frame.2.1, site.splitShape] at there
      cases there with
      | inl present => exact absurd present absent
      | inr isNew => exact absurd below (isNew ▸ Nat.lt_irrefl _)
    · apply (site.outputs_of_not _).2
      by_cases member : bb ∈ site.order
      · right
        rw [Option.eq_none_iff_forall_ne_some]
        exact fun ret isRet => returns ⟨ret, member, isRet⟩
      · exact .inl member
  rw [same, site.split_succs old]
  exact ⟨rfl, isSucc⟩

theorem scar_stays {gone bb : BlockId} (member : bb ∈ store.shape.bbs func)
    (scar : Scar store gone bb) : Scar store' gone bb := by
  rcases scar with ⟨absent, below, linked⟩
  have present := site.tidy.apart.present func bb member
  have notFirst : bb ≠ site.first := fun equal => site.first_not_mem (equal ▸ member)
  have goneNotFirst : gone ≠ site.first := by
    rintro rfl
    exact absent site.first_present
  refine ⟨?_, ?_, ?_⟩
  · rw [site.present]
    rintro ⟨there | isNew, -⟩
    · exact absent there
    · exact Nat.lt_irrefl _ (isNew ▸ below)
  · rw [site.nextBlock]
    exact Nat.lt_succ_of_lt below
  · cases linked with
    | inl positive =>
        left
        rw [site.excess notFirst, if_neg goneNotFirst, Int.add_zero]
        exact positive
    | inr isSucc =>
        right
        have kept := site.outputs_succs_gone absent below (site.ne_after present) isSucc
        by_cases isBB : bb = site.bb
        · -- the links of this block were brought up to date
          exfalso
          rcases Result.bind_eq_ok.mp site.absorbing with ⟨root, -, continued⟩
          rcases Result.bind_eq_ok.mp continued with ⟨spliced, splicing, -⟩
          rcases Result.bind_eq_ok.mp splicing with ⟨source, -, moving⟩
          have there : site.outputs.shape.present gone :=
            splice_succs moving gone (isBB ▸ kept.2)
          rw [site.outputs_shape_frame.2.1, site.splitShape] at there
          cases there with
          | inl present => exact absent present
          | inr isNew => exact Nat.lt_irrefl _ (isNew ▸ below)
        · rw [site.succs, if_neg notFirst, if_neg isBB]
          exact kept.2

end Site

theorem Scar.not_edgesAgree {gone bb : BlockId} {bbs : List BlockId}
    (present : ∀ bb ∈ bbs, store.shape.present bb) (member : bb ∈ bbs) (scar : Scar store gone bb) :
    ¬ EdgesAgree store bbs := by
  rcases scar with ⟨absent, -, linked⟩
  intro edges
  apply absent
  apply present
  cases linked with
  | inl positive =>
      apply edges.predsMem bb member
      rw [mem_preds_iff]
      change 0 < store.excess gone bb + _
      omega
  | inr isSucc => exact edges.succsMem bb member gone isSucc

/-- A callee whose edges are in order and whose first block ends as blocks do. -/
structure Inlinable (store : Store) (func callee : FuncId) : Prop
    extends ReturnsValue store func callee where
  edges : EdgesAgree store (store.shape.bbs callee)
  terminated : ∀ first ∈ (store.shape.bbs callee).head?, Terminated store first

theorem Site.scar_of_inlinable (site : Site func call store store')
    (inlinable : Inlinable store func site.callee) :
    ∃ bb ∈ store'.shape.bbs func, Scar store' site.first bb := by
  have edges := inlinable.edges
  apply site.scar edges.succsMem
  · intro succ member
    rw [Store.excess, edges.mirrored _ site.first_mem succ member]
    omega
  · exact edges.follow _ site.first_mem
  · apply inlinable.terminated
    rw [Shape.bbs_eq (show store.shape.functions site.callee = some site.source from site.sourceFound),
      site.blocks]
    rfl

/-- Inlining leaves the edges in order only where it inlines nothing. -/
theorem edgesAgree_iff {function : Function} (tidy : store.Tidy)
    (found : store.functions func = some function) (nonempty : function.bbs ≠ [])
    (edges : EdgesAgree store function.bbs)
    (callees : ∀ id, CalledIn store func id → ∀ callee, store.kindOf id = some (.kCall callee) →
      Inlinable store func callee)
    (result : run store func = .ok store') :
    EdgesAgree store' (store'.shape.bbs func) ↔
      ∀ bb, (store.cfg function).Reachable bb → ∀ id ∈ store.instructions bb, ∀ callee,
        store.kindOf id ≠ some (.kCall callee) := by
  have bbs : store.shape.bbs func = function.bbs :=
    Shape.bbs_eq (show store.shape.functions func = some function from found)
  have closed : (store.cfg function).Closed := by
    have nodup := tidy.apart.nodup func
    rw [bbs] at nodup
    refine ⟨nodup, ?_, edges.succsMem⟩
    cases blocks : function.bbs with
    | nil => exact absurd blocks nonempty
    | cons root rest => simp [cfg, graphOf, Store.root, blocks]
  rcases Result.bind_eq_ok.mp result with ⟨calls, collecting, inlining⟩
  have members : ∀ id, id ∈ calls ↔ ∃ bb, (store.cfg function).Reachable bb ∧
      id ∈ store.instructions bb ∧ ∃ callee, store.kindOf id = some (.kCall callee) :=
    fun id => mem_candidates found closed collecting
  have pending : Pending store func calls := pending_candidates tidy found closed
    (fun id called callee isCall => (callees id called callee isCall).toReturnsValue) collecting
  cases calls with
  | nil =>
      cases inlining
      constructor
      · intro _ bb reachable id inBlock callee isCall
        cases (members id).mpr ⟨bb, reachable, inBlock, callee, isCall⟩
      · intro _
        rw [bbs]
        exact edges
  | cons call rest =>
      rw [List.foldlM_cons] at inlining
      rcases Result.bind_eq_ok.mp inlining with ⟨next, first, later⟩
      rcases pending.site tidy first with ⟨site⟩
      have isCall : store.kindOf call = some (.kCall site.callee) := by
        rw [kindOf_eq site.instFound, site.kind]
      have inlinable := callees call (pending.calledIn call List.mem_cons_self) site.callee isCall
      rcases site.scar_of_inlinable inlinable with ⟨bb, member, scar⟩
      have kept : (bb ∈ store'.shape.bbs func ∧ Scar store' site.first bb) ∧ store'.Tidy := by
        apply (site.pending pending).run site.tidy' ⟨member, scar⟩ _ later
        intro store store' call site' kept
        refine ⟨?_, site'.scar_stays kept.1 kept.2⟩
        rw [site'.bbs, if_pos rfl]
        simp [kept.1]
      constructor
      · intro edges'
        exact absurd edges' (kept.1.2.not_edgesAgree (kept.2.apart.present func) kept.1.1)
      · intro noCall
        rcases (members call).mp List.mem_cons_self with ⟨bb, reachable, inBlock, callee, isCall⟩
        exact absurd isCall (noCall bb reachable call inBlock callee)

/-! ## A function that is called once -/

instance (store : Store) (bbs : List BlockId) : Decidable (EdgesAgree store bbs) :=
  decidable_of_iff ((∀ pred ∈ bbs, ∀ succ ∈ bbs,
      (store.succs pred).count succ = (store.preds succ).count pred) ∧
    (∀ bb ∈ bbs, store.succs bb = store.lastTargets bb) ∧
    (∀ bb ∈ bbs, ∀ succ ∈ store.succs bb, succ ∈ bbs) ∧
    (∀ bb ∈ bbs, ∀ pred ∈ store.preds bb, pred ∈ bbs) ∧
    ∀ bb ∈ bbs, ∀ id ∈ store.instructions bb, ∀ target ∈ store.targetsOf id, target ∈ bbs)
    ⟨fun holds => ⟨holds.1, holds.2.1, holds.2.2.1, holds.2.2.2.1, holds.2.2.2.2⟩,
      fun edges => ⟨edges.mirrored, edges.follow, edges.succsMem, edges.predsMem, edges.targetsMem⟩⟩

/-- Function 0 returns 5, function 1 what function 0 returns. -/
def callFive : List BuildStep :=
  [.newFunction 0 .I64 [], .appendBB 0, .pushInstBack 0 (.constVal (.I64 5)),
    .pushInstBack 0 (.retVal 0),
    .newFunction 1 .I64 [], .appendBB 1, .pushInstBack 1 (.call 0), .pushInstBack 1 (.retVal 2)]

/-- What is known of the callee of function 1. -/
theorem inlinable_callFive (built : callFive.foldlM BuildStep.apply Store.empty = .ok store) :
    ∀ id, CalledIn store 1 id → ∀ callee, store.kindOf id = some (.kCall callee) →
      Inlinable store 1 callee := by
  cases built
  rintro id ⟨bb, bbMem, inBlock⟩ callee isCall
  cases List.mem_singleton.mp bbMem
  have isFirst : id = 2 := by
    rcases List.mem_pair.mp inBlock with rfl | rfl
    · rfl
    · cases isCall
  subst isFirst
  cases isCall
  refine ⟨⟨by decide, ?_⟩, by decide, ?_⟩
  · intro function found
    cases found
    decide
  · intro first isFirst
    cases isFirst
    exact ⟨1, .kRet, rfl, rfl, rfl⟩

theorem edgesAgree_iff_callFive : ∃ store store',
    callFive.foldlM BuildStep.apply Store.empty = .ok store ∧ run store 1 = .ok store' ∧
      (EdgesAgree store' (store'.shape.bbs 1) ↔
        ∀ bb, (store.cfg { bbs := [1], resType := .I64 }).Reachable bb →
          ∀ id ∈ store.instructions bb, ∀ callee, store.kindOf id ≠ some (.kCall callee)) := by
  refine ⟨_, _, rfl, rfl, ?_⟩
  exact edgesAgree_iff (Built.tidy ⟨callFive, rfl⟩) rfl (by decide) (by decide)
    (inlinable_callFive rfl) rfl

/-- The new block has a predecessor that is gone. -/
theorem not_edgesAgree_callFive : ∃ store store',
    callFive.foldlM BuildStep.apply Store.empty = .ok store ∧ EdgesAgree store [1] ∧
      (∀ id, CalledIn store 1 id → ∀ callee, store.kindOf id = some (.kCall callee) →
        Inlinable store 1 callee) ∧
      run store 1 = .ok store' ∧ ¬ EdgesAgree store' (store'.shape.bbs 1) := by
  refine ⟨_, _, rfl, by decide, inlinable_callFive rfl, rfl, by decide⟩

end LeechJit.Opt.Inlining
