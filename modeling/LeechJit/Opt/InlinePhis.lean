import LeechJit.Opt.InlineIdle
import LeechJit.Opt.InlinePreds

/-! # Phis after one call

The phis of the caller stay in their blocks and those of the callee in theirs, except that the
first block of the callee is the end of the block of the call now. A new phi merges the returns.
-/

namespace LeechJit.Opt.Inlining

open IR Store LeechJit.Graph

variable {store store' : Store} {func callee : FuncId} {call id : InstId} {vars : List PhiEntry}

/-- A phi with an entry for each predecessor. -/
def PhiMatches (store : Store) (bb : BlockId) (vars : List PhiEntry) : Prop :=
  (vars.map PhiEntry.bb).Nodup ∧ ∀ pred, pred ∈ vars.map PhiEntry.bb ↔ pred ∈ store.preds bb

/-- The entries of every phi match the predecessors of its block. -/
def PhisMatch (store : Store) (bbs : List BlockId) : Prop :=
  ∀ bb ∈ bbs, ∀ id ∈ store.instructions bb, ∀ vars, store.kindOf id = some (.kPhi vars) →
    PhiMatches store bb vars

def HasPhi (store : Store) (bb : BlockId) : Prop :=
  ∃ id ∈ store.instructions bb, ∃ vars, store.kindOf id = some (.kPhi vars)

instance (store : Store) (bb : BlockId) (vars : List PhiEntry) :
    Decidable (PhiMatches store bb vars) :=
  decidable_of_iff ((vars.map PhiEntry.bb).Nodup ∧
    (∀ pred ∈ vars.map PhiEntry.bb, pred ∈ store.preds bb) ∧
    ∀ pred ∈ store.preds bb, pred ∈ vars.map PhiEntry.bb)
    ⟨fun holds => ⟨holds.1, fun pred => ⟨holds.2.1 pred, holds.2.2 pred⟩⟩,
      fun same => ⟨same.1, fun pred => (same.2 pred).mp, fun pred => (same.2 pred).mpr⟩⟩

/-- The entries of an instruction that is a phi. -/
def phiVars (store : Store) (id : InstId) : Option (List PhiEntry) :=
  match store.kindOf id with
  | some (.kPhi vars) => some vars
  | _ => none

theorem phiVars_eq_some : phiVars store id = some vars ↔ store.kindOf id = some (.kPhi vars) := by
  rw [phiVars]
  split <;> simp_all

instance (store : Store) (bbs : List BlockId) : Decidable (PhisMatch store bbs) :=
  decidable_of_iff (∀ bb ∈ bbs, ∀ id ∈ store.instructions bb, ∀ vars ∈ phiVars store id,
    PhiMatches store bb vars)
    ⟨fun holds bb bbMem id inBlock vars isPhi =>
      holds bb bbMem id inBlock vars (phiVars_eq_some.mpr isPhi),
    fun matching bb bbMem id inBlock vars isPhi =>
      matching bb bbMem id inBlock vars (phiVars_eq_some.mp isPhi)⟩

theorem rets_homes (tidy : store.Tidy) (order : List BlockId) :
    (order.filterMap (retOf store)).map store.homeOf =
      (order.filter fun bb => (retOf store bb).isSome).map fun bb => some (some bb) := by
  induction order with
  | nil => rfl
  | cons bb rest induction =>
      cases returns : retOf store bb with
      | none =>
          rw [List.filterMap_cons_none returns, List.filter_cons_of_neg (by simp [returns]), induction]
      | some ret =>
          rw [List.filterMap_cons_some returns, List.filter_cons_of_pos (by simp [returns]),
            List.map_cons, List.map_cons, induction, knowsBlocks_retOf tidy returns]

namespace Site

variable (site : Site func call store store')

include site

theorem param_gone {param : InstId} (isParam : param ∈ site.params) : store'.kindOf param = none := by
  rcases site.paramKinds param isParam with ⟨idx, kind⟩
  have below := site.below_of_calledIn (site.params_calledIn isParam)
  cases decEq param call with
  | isTrue same => rw [same, kindOf_eq_none, site.call_gone]
  | isFalse notCall =>
      have belowMerged := Nat.lt_of_lt_of_le below site.merged_nextInst
      have erased : site.inputs.shape.insts param = none := by
        rw [site.inputsShape]
        simp [Shape.eraseInsts, isParam]
      rw [site.kindOf_outputs notCall, kindOf_shape, site.returned.insts param belowMerged,
        site.isMerged.insts (site.inputs_nextInst ▸ below), erased]
      split_ifs <;> rfl

/-- What is still there has the kind it had. -/
theorem kindOf_old {kind : InstKind} (below : id < store.nextInst)
    (isKind : store'.kindOf id = some kind) : store.kindOf id = some kind := by
  have notCall : id ≠ call := by
    rintro rfl
    rw [kindOf_eq_none.mpr site.call_gone] at isKind
    cases isKind
  have notParam : id ∉ site.params := by
    intro member
    rw [site.param_gone member] at isKind
    cases isKind
  have notRet : id ∉ site.rets := by
    intro member
    rw [kindOf_eq_none.mpr (site.ret_gone member)] at isKind
    cases isKind
  rw [← site.kindOf below notParam notRet notCall, isKind]

/-- A phi keeps its kind. -/
theorem kindOf_phi (isPhi : store.kindOf id = some (.kPhi vars)) (below : id < store.nextInst) :
    store'.kindOf id = some (.kPhi vars) := by
  have notCall : id ≠ call := by
    rintro rfl
    rw [kindOf_eq site.instFound, site.kind] at isPhi
    cases isPhi
  have notParam := site.not_param_of_kind isPhi (fun idx equal => by cases equal)
  have notRet := site.not_ret_of_kind isPhi (fun idx equal => by cases equal)
    (fun equal => by cases equal)
  rw [site.kindOf below notParam notRet notCall, isPhi]

theorem mem_outputs_phi {bb : BlockId} (isPhi : store.kindOf id = some (.kPhi vars))
    (inSplit : id ∈ site.split.instructions bb) : id ∈ site.outputs.instructions bb := by
  have notParam := site.not_param_of_kind isPhi (fun idx equal => by cases equal)
  have notRet := site.not_ret_of_kind isPhi (fun idx equal => by cases equal)
    (fun equal => by cases equal)
  exact site.mem_outputs inSplit notParam notRet

/-- What is in a list once the returns are replaced was there before, or is a new jump. -/
theorem of_mem_outputs {bb : BlockId} (member : id ∈ site.outputs.instructions bb) :
    id ∈ site.merged.lists bb ∨ (store.nextInst ≤ id ∧
      site.outputs.kindOf id = some (.kJump store.nextBlock)) := by
  by_cases noRet : bb ∉ site.order ∨ retOf site.inputs bb = none
  · rw [(site.outputs_of_not noRet).1] at member
    exact .inl member
  · rw [not_or, not_not] at noRet
    rcases Option.ne_none_iff_exists'.mp noRet.2 with ⟨ret, returns⟩
    rcases site.returned.replaced ret (site.mem_rets.mpr ⟨bb, noRet.1, returns⟩) with
      ⟨inst, home, jump, found, isHome, -, new, replaced, jumps, -⟩
    have isBB := site.merged_home returns
    rw [found, Option.map_some, isHome] at isBB
    cases isBB
    have placed : site.outputs.instructions bb = (site.merged.lists bb).erase ret ++ [jump] := replaced
    rw [placed, List.mem_append, List.mem_singleton] at member
    cases member with
    | inl inOld => exact .inl (List.mem_of_mem_erase inOld)
    | inr isJump =>
        right
        rw [isJump, kindOf_shape, jumps]
        exact ⟨site.merged_nextInst.trans new, rfl⟩

/-- Callees that do not return once get a phi with an entry for each return. -/
theorem new_phi (closed : site.ClosedCallee) (many : site.rets.length ≠ 1) : ∃ vars,
    store.nextInst ∈ store'.instructions store.nextBlock ∧
      store'.kindOf store.nextInst = some (.kPhi vars) ∧ (vars.map PhiEntry.bb).Nodup ∧
      ∀ pred, pred ∈ vars.map PhiEntry.bb ↔ pred ∈ site.order ∧ retOf site.inputs pred ≠ none := by
  rcases site.isMerged with ⟨one, -⟩ | ⟨-, vars, homes, merged_eq⟩
  · exact absurd one many
  · have blocks : vars.map PhiEntry.bb =
        site.order.filter fun bb => (retOf site.inputs bb).isSome := by
      have both : (vars.map PhiEntry.bb).map (fun bb => some (some bb)) =
          (site.order.filter fun bb => (retOf site.inputs bb).isSome).map
            (fun bb => some (some bb)) := by
        rw [List.map_map, ← rets_homes site.inputsTidy, ← site.isRets, homes]
        rfl
      exact List.map_injective_iff.mpr (fun _ _ same => Option.some.inj (Option.some.inj same)) both
    have afterFirst := (site.ne_after site.first_present).symm
    have afterBB := (site.ne_after (site.tidy.apart.present func _ site.bbMem)).symm
    have isNew := site.inputs_nextInst
    have placed : store.nextInst ∈ site.merged.lists store.nextBlock := by
      rw [merged_eq]
      simp [Shape.place, Shape.setList, isNew]
    have kind : site.merged.insts store.nextInst = some
        { type := site.source.resType, kind := .kPhi vars, bb := some store.nextBlock } := by
      rw [merged_eq]
      simp [Shape.place, Shape.setList, Shape.setInst, Store.shape, isNew]
    have below : store.nextInst < site.merged.nextInst := by
      rw [merged_eq]
      change store.nextInst < site.inputs.nextInst + 1
      rw [isNew]
      exact Nat.lt_succ_self _
    have notRet : store.nextInst ∉ site.rets := by
      intro member
      rcases site.mem_rets.mp member with ⟨bb, -, returns⟩
      exact Nat.lt_irrefl _ (isNew ▸ site.ret_below returns)
    have notCall : store.nextInst ≠ call :=
      (Nat.ne_of_lt (site.below_of_calledIn site.call_calledIn)).symm
    refine ⟨vars, ?_, ?_, ?_, ?_⟩
    · have notOrdered : store.nextBlock ∉ site.order := fun ordered =>
        site.callee_ne_after (site.order_subset closed ordered) rfl
      rw [site.lists, if_neg afterFirst, if_neg afterBB, (site.outputs_of_not (.inl notOrdered)).1]
      exact placed
    · rw [site.kindOf_outputs notCall, kindOf_shape, site.returned.insts _ below, if_neg notRet, kind]
      rfl
    · rw [blocks, site.isOrder]
      exact preOrder_nodup.filter _
    · intro pred
      rw [blocks, List.mem_filter, Option.isSome_iff_ne_none]

/-- What stood in a list before the returns were replaced. -/
theorem mem_merged {bb : BlockId} (old : bb ≠ store.nextBlock) (member : id ∈ site.merged.lists bb) :
    id ∈ site.split.instructions bb := by
  rw [site.merged_lists old] at member
  exact site.inputs_subset member

theorem back_subset : site.back ⊆ store.instructions site.bb := by
  intro id inBack
  rw [site.here]
  exact List.mem_append_right _ (List.mem_cons_of_mem _ inBack)

theorem merged_lists_after : site.merged.lists store.nextBlock = site.back ∨
    (site.rets.length ≠ 1 ∧ site.merged.lists store.nextBlock = store.nextInst :: site.back) := by
  have notFirst := (site.ne_after site.first_present).symm
  have inputs : site.inputs.instructions store.nextBlock = site.back := by
    rw [site.inputs_lists, if_neg notFirst, site.split_lists_after]
  rcases site.isMerged with ⟨-, merged_eq⟩ | ⟨many, vars, -, merged_eq⟩
  · left
    rw [merged_eq]
    exact inputs
  · refine .inr ⟨many, ?_⟩
    rw [← site.inputs_nextInst, ← inputs, merged_eq]
    simp [Shape.place, Shape.setList]

/-- Where the instructions of the caller come from. -/
inductive Origin (bb : BlockId) (id : InstId) : Prop where
  | caller (member : bb ∈ store.shape.bbs func) (inBlock : id ∈ store.instructions bb)
      (notBehind : id ∉ site.back)
  | first (isBB : bb = site.bb) (inFirst : id ∈ store.instructions site.first)
  | callee (member : bb ∈ store.shape.bbs site.callee) (notFirst : bb ≠ site.first)
      (inBlock : id ∈ store.instructions bb)
  | behind (isAfter : bb = store.nextBlock) (inBack : id ∈ site.back)
  | phi (isAfter : bb = store.nextBlock) (isNew : id = store.nextInst) (many : site.rets.length ≠ 1)
  | jump (isNew : store.nextInst ≤ id) (isJump : store'.kindOf id = some (.kJump store.nextBlock))

theorem origin {bb : BlockId} (bbMem : bb ∈ store'.shape.bbs func)
    (inBlock : id ∈ store'.instructions bb) : site.Origin bb id := by
  have notCall : id ≠ call := by
    rintro rfl
    have stored := site.tidy'.settled.knows bb id inBlock
    rw [homeOf, site.call_gone] at stored
    cases stored
  have nodup := site.tidy.settled.nodup site.bb
  rw [site.here, List.append_cons] at nodup
  have apart := (List.nodup_append.mp nodup).2.2
  have fromMerged : ∀ {home}, id ∈ site.outputs.instructions home →
      id ∈ site.merged.lists home ∨ site.Origin bb id := by
    intro home member
    rcases site.of_mem_outputs member with inMerged | ⟨isNew, isJump⟩
    · exact .inl inMerged
    · rw [← site.kindOf_outputs notCall] at isJump
      exact .inr (.jump isNew isJump)
  have fromCallee : ∀ {home}, home ∈ store.shape.bbs site.callee → id ∈ site.merged.lists home →
      id ∈ store.instructions home := by
    intro home member inHome
    rw [← site.callee_lists member]
    exact site.mem_merged (site.callee_ne_after member) inHome
  have bbs := site.bbs func
  rw [if_pos rfl] at bbs
  rw [site.lists] at inBlock
  split_ifs at inBlock with isFirst isBB
  · cases inBlock
  · subst isBB
    rcases List.mem_append.mp (List.mem_of_mem_erase inBlock) with inBB | inFirst
    · rcases fromMerged inBB with inMerged | known
      · have inSplit := site.mem_merged (site.ne_after (site.tidy.apart.present func _ site.bbMem))
          inMerged
        rw [site.split_lists_bb] at inSplit
        have here : id ∈ store.instructions site.bb := by
          rw [site.here, List.append_cons]
          exact List.mem_append_left _ inSplit
        exact .caller site.bbMem here fun inBack => apart id inSplit id inBack rfl
      · exact known
    · rcases fromMerged inFirst with inMerged | known
      · exact .first rfl (fromCallee site.first_mem inMerged)
      · exact known
  · rcases fromMerged inBlock with inMerged | known
    · rw [bbs, List.mem_append, List.mem_append, List.mem_singleton] at bbMem
      rcases bbMem with (inCaller | inRest) | isAfter
      · have old := site.ne_after (site.tidy.apart.present func bb inCaller)
        have inSplit := site.mem_merged old inMerged
        rw [site.split_lists old isBB] at inSplit
        refine .caller inCaller inSplit fun inBack => isBB ?_
        exact site.tidy.settled.home_unique inSplit (site.back_subset inBack)
      · have member : bb ∈ store.shape.bbs site.callee := by
          rw [site.mem_calleeBBs, site.blocks]
          exact List.mem_cons_of_mem _ inRest
        exact .callee member isFirst (fromCallee member inMerged)
      · subst isAfter
        rcases site.merged_lists_after with isBack | ⟨many, isBack⟩
        · exact .behind rfl (isBack ▸ inMerged)
        · rw [isBack] at inMerged
          rcases List.mem_cons.mp inMerged with isNew | inBack
          · exact .phi rfl isNew many
          · exact .behind rfl inBack
    · exact known

/-- A phi of the caller that is not behind the call stays in its block. -/
theorem phi_stays {bb : BlockId} (member : bb ∈ store.shape.bbs func)
    (inBlock : id ∈ store.instructions bb) (isPhi : store.kindOf id = some (.kPhi vars))
    (notBehind : id ∉ site.back) : id ∈ store'.instructions bb := by
  have present := site.tidy.apart.present func bb member
  have notFirst : bb ≠ site.first := fun equal => site.first_not_mem (equal ▸ member)
  have notCall : id ≠ call := by
    rintro rfl
    rw [kindOf_eq site.instFound, site.kind] at isPhi
    cases isPhi
  rw [site.lists, if_neg notFirst]
  cases decEq bb site.bb with
  | isTrue isBB =>
      subst isBB
      have inSplit : id ∈ site.split.instructions site.bb := by
        rw [site.here, List.append_cons, List.mem_append] at inBlock
        rw [site.split_lists_bb]
        exact inBlock.resolve_right notBehind
      rw [if_pos rfl, List.mem_erase_of_ne notCall]
      exact List.mem_append_left _ (site.mem_outputs_phi isPhi inSplit)
  | isFalse notBB =>
      rw [if_neg notBB]
      apply site.mem_outputs_phi isPhi
      rw [site.split_lists (site.ne_after present) notBB]
      exact inBlock

theorem phi_first (inFirst : id ∈ store.instructions site.first)
    (isPhi : store.kindOf id = some (.kPhi vars)) : id ∈ store'.instructions site.bb := by
  have notCall : id ≠ call := by
    rintro rfl
    rw [kindOf_eq site.instFound, site.kind] at isPhi
    cases isPhi
  rw [site.lists, if_neg site.bb_ne_first, if_pos rfl, List.mem_erase_of_ne notCall]
  apply List.mem_append_right
  apply site.mem_outputs_phi isPhi
  rw [site.callee_lists site.first_mem]
  exact inFirst

theorem phi_callee {bb : BlockId} (member : bb ∈ store.shape.bbs site.callee)
    (notFirst : bb ≠ site.first) (inBlock : id ∈ store.instructions bb)
    (isPhi : store.kindOf id = some (.kPhi vars)) : id ∈ store'.instructions bb := by
  rw [site.lists, if_neg notFirst, if_neg (site.callee_ne_bb member)]
  apply site.mem_outputs_phi isPhi
  rw [site.callee_lists member]
  exact inBlock

end Site

end LeechJit.Opt.Inlining
