import LeechJit.Opt.InlineEdges
import LeechJit.Opt.InlineUsers

/-! # Predecessors after one call

The block of the call goes on where the first block of the callee went, the new block where
the block of the call went, and the returns go to the new block.
-/

namespace LeechJit.Opt.Inlining

open IR Store LeechJit.Graph

variable {store store' : Store} {func : FuncId} {call : InstId}

theorem succs_of_ret {bb : BlockId} {ret : InstId} (follow : store.succs bb = store.lastTargets bb)
    (isRet : retOf store bb = some ret) : store.succs bb = [] := by
  rcases retOf_eq_some.mp isRet with ⟨atEnd, kind⟩
  rw [follow, lastTargets, atEnd, Option.elim_some, targetsOf, kind, Option.elim_some]
  rfl

/-- Links that have been brought up to date. -/
theorem relink_succs (shape : Shape) (bb : BlockId) :
    (shape.relink bb).succs bb = (shape.relink bb).lastTargets bb :=
  Function.update_self ..

/-- A block leads to blocks of the function, as its last instruction does, and they know it. -/
structure Outgoing (store : Store) (func : FuncId) (bb : BlockId) : Prop where
  succsMem : ∀ succ ∈ store.succs bb, succ ∈ store.shape.bbs func
  follow : store.succs bb = store.lastTargets bb
  excess : ∀ succ ∈ store.shape.bbs func, store.excess bb succ = 0

namespace Site

variable (site : Site func call store store')

include site

theorem closed_of_inlinable (inlinable : Inlinable store func site.callee) : site.ClosedCallee :=
  inlinable.edges.succsMem

theorem first_terminated (inlinable : Inlinable store func site.callee) :
    Terminated store site.first := by
  apply inlinable.terminated
  rw [Shape.bbs_eq (show store.shape.functions site.callee = some site.source from site.sourceFound),
    site.blocks]
  rfl

/-- No block of the callee ends in a parameter. -/
theorem last_not_param (inlinable : Inlinable store func site.callee) {bb : BlockId} {last : InstId}
    (atEnd : (store.instructions bb).getLast? = some last) : last ∉ site.params := by
  cases decEq bb site.first with
  | isTrue isFirst =>
      subst isFirst
      rcases site.first_terminated inlinable with ⟨again, kind, atEnd', isKind, terminator⟩
      cases atEnd.symm.trans atEnd'
      exact (site.inputs_last atEnd isKind terminator).2
  | isFalse different =>
      intro member
      have inFirst := site.paramsIn.subset member
      rw [site.callee_lists site.first_mem] at inFirst
      exact different (site.tidy.settled.home_unique (List.mem_of_getLast? atEnd) inFirst)

theorem inputs_getLast? (inlinable : Inlinable store func site.callee) {bb : BlockId}
    (member : bb ∈ store.shape.bbs site.callee) :
    (site.inputs.instructions bb).getLast? = (store.instructions bb).getLast? := by
  rw [site.inputs_lists, site.callee_lists member]
  split_ifs
  · cases atEnd : (store.instructions bb).getLast? with
    | none =>
        rw [List.getLast?_eq_none_iff.mp atEnd]
        simp
    | some last => exact getLast?_diff atEnd (site.last_not_param inlinable atEnd)
  · rfl

/-- Taking the parameters away leaves the returns. -/
theorem retOf_inputs (inlinable : Inlinable store func site.callee) {bb : BlockId}
    (member : bb ∈ store.shape.bbs site.callee) : retOf site.inputs bb = retOf store bb := by
  rw [retOf, retOf, site.inputs_getLast? inlinable member]
  cases atEnd : (store.instructions bb).getLast? with
  | none => rfl
  | some last =>
      simp only [Option.filter_some, site.inputs_kindOf (site.last_not_param inlinable atEnd)]

/-- Where the first block of the callee leads to once the returns are replaced. -/
theorem outputs_succs_first (inlinable : Inlinable store func site.callee) :
    site.outputs.succs site.first =
      if retOf store site.first = none then store.succs site.first else [store.nextBlock] := by
  have same := site.retOf_inputs inlinable site.first_mem
  cases returns : retOf store site.first with
  | none =>
      rw [returns] at same
      rw [(site.outputs_of_not (.inr same)).2, site.split_succs (site.ne_after site.first_present)]
      rfl
  | some ret =>
      rw [returns] at same
      rw [site.outputs_of_ret site.first_mem_order same]
      rfl

/-- The block of the call leads to where the first block of the callee led. -/
theorem targets_eq (inlinable : Inlinable store func site.callee) :
    site.targets = site.outputs.succs site.first := by
  have same := site.retOf_inputs inlinable site.first_mem
  have old := site.ne_after site.first_present
  rw [site.outputs_succs_first inlinable, Site.targets]
  cases returns : retOf store site.first with
  | none =>
      rw [returns] at same
      rcases site.first_terminated inlinable with ⟨last, kind, atEnd, isKind, terminator⟩
      rcases site.inputs_last atEnd isKind terminator with ⟨inputsLast, notParam⟩
      have lists := (site.outputs_of_not (.inr same)).1
      rw [site.merged_lists old] at lists
      have nonempty : site.outputs.instructions site.first ≠ [] := by
        intro empty
        rw [← lists, empty] at inputsLast
        cases inputsLast
      have notRet : last ∉ site.rets := by
        intro member
        rcases site.mem_rets.mp member with ⟨bb, -, isRet⟩
        have inBB := List.mem_of_getLast? (retOf_eq_some.mp isRet).1
        have inFirst := List.mem_of_getLast? inputsLast
        rw [site.inputsTidy.settled.home_unique inBB inFirst, same] at isRet
        cases isRet
      have below : last < store.nextInst := by
        apply site.tidy.settled.allocated
        rw [site.tidy.settled.knows _ _ (List.mem_of_getLast? atEnd)]
        simp
      rw [List.getLast?_append_of_ne_nil _ nonempty, lists, inputsLast, Option.elim_some, targetsOf,
        site.outputs_kindOf below notParam notRet, if_pos rfl,
        inlinable.edges.follow _ site.first_mem, lastTargets, atEnd, Option.elim_some, targetsOf]
  | some ret =>
      rw [returns] at same
      have isRet : ret ∈ site.rets := site.mem_rets.mpr ⟨site.first, site.first_mem_order, same⟩
      rcases site.returned.replaced ret isRet with
        ⟨inst, home, jump, found, isHome, -, -, replaced, jumps, -⟩
      have isFirst := site.merged_home same
      rw [found, Option.map_some, isHome] at isFirst
      cases isFirst
      have placed : site.outputs.instructions site.first =
          (site.merged.lists site.first).erase ret ++ [jump] := replaced
      rw [placed, ← List.append_assoc, List.getLast?_concat, Option.elim_some, ← shape_targetsOf,
        Shape.targetsOf, jumps]
      rfl

/-! ## The new predecessors -/

/-- Where the blocks lead to when the blocks of the call have been joined; the first block of the
callee is gone by then, but is still a predecessor. -/
def flow (pred : BlockId) : List BlockId :=
  if pred = site.bb then site.outputs.succs site.first else site.outputs.succs pred

theorem mem_preds (inlinable : Inlinable store func site.callee) {bb : BlockId}
    (notFirst : bb ≠ site.first) (pred : BlockId) : pred ∈ store'.preds bb ↔
      0 < store.excess pred bb + ((site.flow pred).count bb : Int) := by
  have total : store'.excess pred bb + ((store'.succs pred).count bb : Int) =
      store.excess pred bb + ((site.flow pred).count bb : Int) := by
    rw [site.excess notFirst, site.succs, site.targets_eq inlinable, flow]
    by_cases isFirst : pred = site.first
    · have notBB : pred ≠ site.bb := by
        rw [isFirst]
        exact site.bb_ne_first.symm
      rw [if_pos isFirst, if_pos isFirst, if_neg notBB, isFirst]
      simp
    · rw [if_neg isFirst, if_neg isFirst]
      split_ifs <;> omega
  rw [mem_preds_iff]
  change 0 < store'.excess pred bb + ((store'.succs pred).count bb : Int) ↔ _
  rw [total]

/-- The new block leads to where the block of the call led. -/
theorem outputs_succs_after (closed : site.ClosedCallee) (outgoing : Outgoing store func site.bb) :
    site.outputs.succs store.nextBlock = store.succs site.bb := by
  have notOrdered : store.nextBlock ∉ site.order := fun ordered =>
    site.callee_ne_after (site.order_subset closed ordered) rfl
  have targets : ∀ id, site.split.targetsOf id = store.targetsOf id := by
    intro id
    rw [targetsOf, targetsOf, site.split_kindOf]
  have relinked : site.split.succs store.nextBlock = site.split.lastTargets store.nextBlock := by
    rw [← shape_lastTargets]
    change site.split.shape.succs store.nextBlock = _
    rw [site.splitShape]
    exact relink_succs _ store.nextBlock
  rw [(site.outputs_of_not (.inl notOrdered)).2, outgoing.follow, relinked, lastTargets, lastTargets,
    site.split_lists_after, site.here]
  cases back : site.back with
  | nil =>
      rw [List.getLast?_concat, Option.elim_some, targetsOf, kindOf_eq site.instFound, site.kind]
      rfl
  | cons next later =>
      have nonempty : next :: later ≠ [] := List.cons_ne_nil next later
      rw [List.append_cons, List.getLast?_append_of_ne_nil _ nonempty]
      congr 1
      funext id
      exact targets id

theorem outputs_succs_other (closed : site.ClosedCallee) {pred : BlockId}
    (old : pred ≠ store.nextBlock) (apart : pred ∉ store.shape.bbs site.callee) :
    site.outputs.succs pred = store.succs pred := by
  have notOrdered : pred ∉ site.order := fun ordered => apart (site.order_subset closed ordered)
  rw [(site.outputs_of_not (.inl notOrdered)).2, site.split_succs old]

theorem absent_after : store.blocks store.nextBlock = none :=
  not_not.mp site.tidy.apart.fresh

theorem succs_after : store.succs store.nextBlock = [] := by
  rw [Store.succs, site.absent_after]
  rfl

theorem preds_after : store.preds store.nextBlock = [] := by
  rw [Store.preds, site.absent_after]
  rfl

theorem flow_bb : site.flow site.bb = site.outputs.succs site.first :=
  if_pos rfl

theorem flow_after (closed : site.ClosedCallee) (outgoing : Outgoing store func site.bb) :
    site.flow store.nextBlock = store.succs site.bb := by
  have old := site.ne_after (site.tidy.apart.present func _ site.bbMem)
  rw [flow, if_neg old.symm, site.outputs_succs_after closed outgoing]

/-- A return leads to the new block. -/
theorem flow_ret (inlinable : Inlinable store func site.callee) {pred : BlockId}
    (ordered : pred ∈ site.order) (returns : retOf store pred ≠ none) :
    site.flow pred = [store.nextBlock] ∧ store.succs pred = [] := by
  have member := site.order_subset (site.closed_of_inlinable inlinable) ordered
  rcases Option.ne_none_iff_exists'.mp returns with ⟨ret, isRet⟩
  have same := site.retOf_inputs inlinable member
  rw [isRet] at same
  rw [flow, if_neg (site.callee_ne_bb member)]
  exact ⟨site.outputs_of_ret ordered same, succs_of_ret (inlinable.edges.follow pred member) isRet⟩

/-- The other blocks of the callee lead to where they led. -/
theorem flow_not_ret (inlinable : Inlinable store func site.callee) {pred : BlockId}
    (member : pred ∈ store.shape.bbs site.callee)
    (notRet : ¬ (pred ∈ site.order ∧ retOf store pred ≠ none)) :
    site.flow pred = store.succs pred := by
  have same := site.retOf_inputs inlinable member
  have noRet : pred ∉ site.order ∨ retOf site.inputs pred = none := by
    rw [same]
    tauto
  rw [flow, if_neg (site.callee_ne_bb member), (site.outputs_of_not noRet).2,
    site.split_succs (site.callee_ne_after member)]

theorem flow_other (closed : site.ClosedCallee) {pred : BlockId} (notBB : pred ≠ site.bb)
    (old : pred ≠ store.nextBlock) (apart : pred ∉ store.shape.bbs site.callee) :
    site.flow pred = store.succs pred := by
  rw [flow, if_neg notBB, site.outputs_succs_other closed old apart]

/-- Where no edge is moved the predecessors stay. -/
theorem preds_same (inlinable : Inlinable store func site.callee) (outgoing : Outgoing store func site.bb)
    {bb : BlockId} (notFirst : bb ≠ site.first) (old : bb ≠ store.nextBlock)
    (notLeft : bb ∉ store.succs site.bb) (notEntered : bb ∉ site.outputs.succs site.first)
    (pred : BlockId) : pred ∈ store'.preds bb ↔ pred ∈ store.preds bb := by
  have closed := site.closed_of_inlinable inlinable
  have same : (site.flow pred).count bb = (store.succs pred).count bb := by
    by_cases isBB : pred = site.bb
    · rw [isBB, site.flow_bb, List.count_eq_zero.mpr notEntered, List.count_eq_zero.mpr notLeft]
    · by_cases isAfter : pred = store.nextBlock
      · rw [isAfter, site.flow_after closed outgoing, site.succs_after, List.count_eq_zero.mpr notLeft,
          List.count_nil]
      · by_cases member : pred ∈ store.shape.bbs site.callee
        · by_cases isRet : pred ∈ site.order ∧ retOf store pred ≠ none
          · rcases site.flow_ret inlinable isRet.1 isRet.2 with ⟨toAfter, noSuccs⟩
            rw [toAfter, noSuccs, List.count_nil, List.count_eq_zero]
            simpa using old
          · rw [site.flow_not_ret inlinable member isRet]
        · rw [site.flow_other closed isBB isAfter member]
  rw [site.mem_preds inlinable notFirst, mem_preds_iff, same]
  rfl

/-- What the callee leads to once its returns are replaced: its own blocks and the new one. -/
theorem entered (inlinable : Inlinable store func site.callee) {succ : BlockId}
    (isSucc : succ ∈ site.outputs.succs site.first) :
    succ ∈ store.shape.bbs site.callee ∨ succ = store.nextBlock := by
  rw [site.outputs_succs_first inlinable] at isSucc
  split_ifs at isSucc
  · exact .inl (inlinable.edges.succsMem _ site.first_mem succ isSucc)
  · exact .inr (List.mem_singleton.mp isSucc)

theorem caller_not_entered (inlinable : Inlinable store func site.callee) {bb : BlockId}
    (member : bb ∈ store.shape.bbs func) : bb ∉ site.outputs.succs site.first := by
  intro isSucc
  rcases site.entered inlinable isSucc with inCallee | isAfter
  · exact site.different (site.tidy.apart.disjoint func site.callee bb member inCallee)
  · exact site.ne_after (site.tidy.apart.present func bb member) isAfter

/-- The block of the call no longer leads to where it led. -/
theorem bb_not_pred (inlinable : Inlinable store func site.callee) (outgoing : Outgoing store func site.bb)
    {bb : BlockId} (member : bb ∈ store.shape.bbs func) : site.bb ∉ store'.preds bb := by
  have notFirst : bb ≠ site.first := fun equal => site.first_not_mem (equal ▸ member)
  rw [site.mem_preds inlinable notFirst, outgoing.excess bb member, site.flow_bb,
    List.count_eq_zero.mpr (site.caller_not_entered inlinable member)]
  simp

/-- Nothing in the callee leads into the caller. -/
theorem callee_not_pred (inlinable : Inlinable store func site.callee) {pred bb : BlockId}
    (member : bb ∈ store.shape.bbs func) (inCallee : pred ∈ store.shape.bbs site.callee)
    (notPred : pred ∉ store.preds bb) : pred ∉ store'.preds bb := by
  have notFirst : bb ≠ site.first := fun equal => site.first_not_mem (equal ▸ member)
  have notEntered : (site.flow pred).count bb = 0 := by
    rw [List.count_eq_zero]
    intro isSucc
    by_cases isRet : pred ∈ site.order ∧ retOf store pred ≠ none
    · rw [(site.flow_ret inlinable isRet.1 isRet.2).1] at isSucc
      exact site.ne_after (site.tidy.apart.present func bb member) (List.mem_singleton.mp isSucc)
    · rw [site.flow_not_ret inlinable inCallee isRet] at isSucc
      have inside := inlinable.edges.succsMem pred inCallee bb isSucc
      exact site.different (site.tidy.apart.disjoint func site.callee bb member inside)
  rw [site.mem_preds inlinable notFirst, notEntered, Store.excess, List.count_eq_zero.mpr notPred]
  omega

/-- What the first block of the callee led to has the block of the call as a predecessor. -/
theorem bb_pred (inlinable : Inlinable store func site.callee) {bb : BlockId}
    (notFirst : bb ≠ site.first) (notLeft : bb ∉ store.succs site.bb)
    (isEntered : bb ∈ site.outputs.succs site.first) : site.bb ∈ store'.preds bb := by
  rw [site.mem_preds inlinable notFirst, site.flow_bb, Store.excess, List.count_eq_zero.mpr notLeft]
  have positive := List.count_pos_iff.mpr isEntered
  omega

/-- If the first block does not return, the new block is entered from the returns only. -/
theorem preds_new (inlinable : Inlinable store func site.callee) (outgoing : Outgoing store func site.bb)
    (noReturn : retOf store site.first = none) (pred : BlockId) :
    pred ∈ store'.preds store.nextBlock ↔ pred ∈ site.order ∧ retOf store pred ≠ none := by
  have closed := site.closed_of_inlinable inlinable
  have notFirst := (site.ne_after site.first_present).symm
  have notOrdered : ∀ {bb}, bb ∉ store.shape.bbs site.callee →
      ¬ (bb ∈ site.order ∧ retOf store bb ≠ none) :=
    fun apart both => apart (site.order_subset closed both.1)
  have bbOutside : site.bb ∉ store.shape.bbs site.callee := fun member =>
    site.callee_ne_bb member rfl
  have newOutside : store.nextBlock ∉ store.shape.bbs site.callee := fun member =>
    site.callee_ne_after member rfl
  have notLeft : (store.succs site.bb).count store.nextBlock = 0 := by
    rw [List.count_eq_zero]
    intro isSucc
    exact site.ne_after (site.tidy.apart.present func _ (outgoing.succsMem _ isSucc)) rfl
  have notInside : ∀ bb ∈ store.shape.bbs site.callee, (store.succs bb).count store.nextBlock = 0 := by
    intro bb member
    rw [List.count_eq_zero]
    exact fun isSucc => newOutside (closed bb member _ isSucc)
  rw [site.mem_preds inlinable notFirst, Store.excess, site.preds_after, List.count_nil]
  by_cases isBB : pred = site.bb
  · subst isBB
    rw [site.flow_bb, site.outputs_succs_first inlinable, if_pos noReturn,
      notInside _ site.first_mem, notLeft]
    simp [notOrdered bbOutside]
  · by_cases isAfter : pred = store.nextBlock
    · subst isAfter
      rw [site.flow_after closed outgoing, notLeft]
      simp only [notOrdered newOutside, iff_false]
      omega
    · by_cases member : pred ∈ store.shape.bbs site.callee
      · by_cases isRet : pred ∈ site.order ∧ retOf store pred ≠ none
        · rcases site.flow_ret inlinable isRet.1 isRet.2 with ⟨toAfter, noSuccs⟩
          rw [toAfter, noSuccs]
          simp [isRet]
        · rw [site.flow_not_ret inlinable member isRet, notInside pred member]
          simp [isRet]
      · rw [site.flow_other closed isBB isAfter member]
        simp only [notOrdered member, iff_false]
        omega

end Site

end LeechJit.Opt.Inlining
