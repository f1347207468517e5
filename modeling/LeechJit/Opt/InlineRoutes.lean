import LeechJit.IR.Supplied
import LeechJit.Opt.InlineResults

/-! # Where the blocks of an expansion lead

The block of the call leads to where the first block of the callee led, the returns lead to the
rest of the block of the call, and that leads to where the block of the call led.
-/

namespace LeechJit.Opt.Inlining

open IR Store

variable {store store' : Store} {caller source target : Function} {func : FuncId}
  {call id last : InstId} {bb after : BlockId} {ids ids' params front back : List InstId}

/-! ## The instructions of a block of the callee -/

namespace Trails

variable (trails : Trails store store' params after ids ids')

include trails

/-- What stands in a block of the callee afterwards: a jump, or what stood there with the same
instructions before it, as far as they are left. -/
theorem split (placed : ids' = front ++ id :: back) :
    (store'.kindOf id = some (.kJump after) ∧ store'.inputs id = []) ∨
      ∃ before behind, ids = before ++ id :: behind ∧ id ∉ params ∧
        store.kindOf id ≠ some .kRet ∧ ∀ other ∈ before, other ∉ params → other ∈ front := by
  induction trails generalizing front with
  | nil => simp at placed
  | @param head rest rest' isParam later induction =>
      rcases induction placed with isJump | ⟨before, behind, rfl, notParam, notRet, kept⟩
      · exact .inl isJump
      · refine .inr ⟨head :: before, behind, rfl, notParam, notRet, ?_⟩
        intro other inBefore otherNotParam
        cases inBefore with
        | head => exact absurd isParam otherNotParam
        | tail _ inBefore => exact kept other inBefore otherNotParam
  | @keep head rest rest' headNotParam headNotRet later induction =>
      cases front with
      | nil =>
          cases placed
          exact .inr ⟨[], rest, rfl, headNotParam, headNotRet, by simp⟩
      | cons again front =>
          rcases List.cons.inj placed with ⟨rfl, placedRest⟩
          rcases induction placedRest with isJump | ⟨before, behind, rfl, notParam, notRet, kept⟩
          · exact .inl isJump
          · refine .inr ⟨head :: before, behind, rfl, notParam, notRet, ?_⟩
            intro other inBefore otherNotParam
            cases inBefore with
            | head => exact List.mem_cons_self
            | tail _ inBefore =>
                exact List.mem_cons_of_mem _ (kept other inBefore otherNotParam)
  | @ret ret jump isRet isJump inputs =>
      cases front with
      | nil =>
          cases placed
          exact .inl ⟨isJump, inputs⟩
      | cons again front => simp at placed

/-- What is neither a parameter nor a return stays. -/
theorem mem (inBlock : id ∈ ids) (notParam : id ∉ params) (notRet : store.kindOf id ≠ some .kRet) :
    id ∈ ids' := by
  induction trails with
  | nil => cases inBlock
  | param isParam later induction =>
      cases inBlock with
      | head => exact absurd isParam notParam
      | tail _ inRest => exact induction inRest
  | keep headNotParam headNotRet later induction =>
      cases inBlock with
      | head => exact List.mem_cons_self
      | tail _ inRest => exact List.mem_cons_of_mem _ (induction inRest)
  | ret isRet isJump inputs =>
      rw [List.mem_singleton.mp inBlock] at notRet
      exact absurd isRet notRet

/-- The last instruction stays the last one, or a jump takes its place. -/
theorem concat (parts : ids = front ++ [last]) (noRet : ∀ id ∈ front, store.kindOf id ≠ some .kRet)
    (notParam : last ∉ params) : ∃ last', ids' = front.filter (· ∉ params) ++ [last'] ∧
      (store.kindOf last ≠ some .kRet ∧ last' = last ∨
        store.kindOf last = some .kRet ∧ store'.kindOf last' = some (.kJump after)) := by
  induction trails generalizing front with
  | nil => simp at parts
  | @param head rest rest' isParam later induction =>
      cases front with
      | nil =>
          cases parts
          exact absurd isParam notParam
      | cons again front =>
          rcases List.cons.inj parts with ⟨rfl, partsRest⟩
          rw [List.forall_mem_cons] at noRet
          rw [List.filter_cons_of_neg (by simpa using isParam)]
          exact induction partsRest noRet.2
  | @keep head rest rest' headNotParam headNotRet later induction =>
      cases front with
      | nil =>
          cases parts
          cases later
          exact ⟨last, rfl, .inl ⟨headNotRet, rfl⟩⟩
      | cons again front =>
          rcases List.cons.inj parts with ⟨rfl, partsRest⟩
          rw [List.forall_mem_cons] at noRet
          rcases induction partsRest noRet.2 with ⟨last', rfl, ends⟩
          rw [List.filter_cons_of_pos (by simpa using headNotParam)]
          exact ⟨last', rfl, ends⟩
  | @ret ret jump isRet isJump inputs =>
      cases front with
      | nil =>
          cases parts
          exact ⟨jump, rfl, .inr ⟨isRet, isJump⟩⟩
      | cons again front => simp at parts

end Trails

/-! ## The blocks -/

namespace Expansion

variable (expansion : Expansion store store' caller source call)

/-- The blocks of the caller after the expansion, and where they lead. -/
structure Routed (target : Function) : Prop where
  mem_bbs : ∀ bb, bb ∈ target.bbs ↔ bb ∈ caller.bbs ∨
    (bb ∈ source.bbs ∧ bb ≠ expansion.first) ∨ bb = expansion.after
  sameRoot : root target = root caller
  nodup : target.bbs.Nodup
  listed : (store'.listed target).Nodup
  stored : ∀ id ∈ store'.listed target, ∃ inst, store'.insts id = some inst
  disjoint : ∀ bb ∈ caller.bbs, bb ∉ source.bbs
  fresh : expansion.after ∉ caller.bbs ∧ expansion.after ∉ source.bbs
  others : ∀ bb ∈ caller.bbs, bb ≠ expansion.bb → store'.succs bb = store.succs bb
  inside : ∀ bb ∈ source.bbs, store'.succs (expansion.into bb) =
    if retOf store bb = none then store.succs bb else [expansion.after]
  afterwards : store'.succs expansion.after = store.succs expansion.bb

/-- What the block that has the instructions of a block of the callee begins with. -/
def lead (bb : BlockId) : List InstId :=
  if bb = expansion.first then expansion.front else []

/-- A block of the callee comes behind what was before the call, or takes a block of its own. -/
theorem body (bbMem : bb ∈ source.bbs) : ∃ ids,
    store'.instructions (expansion.into bb) = expansion.lead bb ++ ids ∧
      Trails store store' (paramsOf store expansion.first) expansion.after
        (store.instructions bb) ids := by
  by_cases isFirst : bb = expansion.first
  · subst isFirst
    refine ⟨expansion.entry, ?_, expansion.entryTrails⟩
    rw [into, if_pos rfl, lead, if_pos rfl, expansion.there]
  · refine ⟨store'.instructions bb, ?_, expansion.trails bb bbMem isFirst⟩
    rw [into, if_neg isFirst, lead, if_neg isFirst, List.nil_append]

theorem into_ne_first (bb : BlockId) (notFirst : bb ≠ expansion.first) : expansion.into bb = bb :=
  if_neg notFirst

end Expansion

/-- A function has what its blocks have. -/
theorem listed_nodup (tidy : store.Tidy) (found : store.functions func = some source) :
    (store.listed source).Nodup := by
  have nodup : source.bbs.Nodup := by
    have nodup := tidy.apart.nodup func
    rwa [Shape.bbs_eq (show store.shape.functions func = some source from found)] at nodup
  rw [listed, List.nodup_flatMap]
  refine ⟨fun bb _ => tidy.settled.nodup bb, nodup.imp ?_⟩
  intro bb other different id inBlock inOther
  exact different (tidy.settled.home_unique inBlock inOther)

namespace Site

variable (site : Site func call store store')

include site

theorem succs_eq_flow (inlinable : Inlinable store func site.callee) {pred : BlockId}
    (notFirst : pred ≠ site.first) : store'.succs pred = site.flow pred := by
  rw [site.succs, if_neg notFirst, flow, site.targets_eq inlinable]

theorem routed (prepared : site.Prepared) (outgoing : Outgoing store func site.bb)
    (expansion : Expansion store store' site.caller site.source call)
    (isAfter : expansion.after = store.nextBlock) (found : store'.functions func = some target)
    (sameRoot : root target = root site.caller) : expansion.Routed target := by
  have closed := prepared.closed
  have inlinable := prepared.inlinable
  have callerBBs : store.shape.bbs func = site.caller.bbs := Shape.bbs_eq site.callerFound
  have targetBBs : store'.shape.bbs func = target.bbs := Shape.bbs_eq found
  have isBB := site.expansion_bb expansion
  have isFirst := site.expansion_first expansion
  have bbFresh := site.ne_after (site.tidy.apart.present func _ site.bbMem)
  constructor
  case mem_bbs =>
    intro bb
    rw [← targetBBs, site.mem_bbs, callerBBs, site.mem_calleeBBs, isFirst, isAfter]
  case sameRoot => exact sameRoot
  case nodup => exact targetBBs ▸ site.tidy'.apart.nodup func
  case listed => exact listed_nodup site.tidy' found
  case stored =>
    intro id member
    rcases List.mem_flatMap.mp member with ⟨bb, -, inBlock⟩
    have knows := site.tidy'.settled.knows bb id inBlock
    cases found : store'.insts id with
    | none => simp [homeOf, found] at knows
    | some inst => exact ⟨inst, rfl⟩
  case disjoint =>
    intro bb inCaller inCallee
    rw [← callerBBs] at inCaller
    exact site.different (site.tidy.apart.disjoint func site.callee bb inCaller
      (site.mem_calleeBBs.mpr inCallee))
  case fresh =>
    rw [isAfter]
    constructor
    · intro inCaller
      rw [← callerBBs] at inCaller
      exact site.ne_after (site.tidy.apart.present func _ inCaller) rfl
    · intro inCallee
      exact site.callee_ne_after (site.mem_calleeBBs.mpr inCallee) rfl
  case others =>
    intro bb inCaller notBB
    rw [isBB] at notBB
    rw [← callerBBs] at inCaller
    exact (site.caller_block closed inCaller notBB).2
  case inside =>
    intro bb bbMem
    have inCallee := site.mem_calleeBBs.mpr bbMem
    rw [Expansion.into, isFirst, isBB, isAfter]
    by_cases same : bb = site.first
    · subst same
      rw [if_pos rfl, site.succs_eq_flow inlinable site.bb_ne_first, site.flow_bb,
        site.outputs_succs_first inlinable]
    · rw [if_neg same, site.succs_eq_flow inlinable same]
      split_ifs with noReturn
      · exact site.flow_not_ret inlinable inCallee fun both => both.2 noReturn
      · exact (site.flow_ret inlinable (prepared.mem_order bbMem) noReturn).1
  case afterwards =>
    rw [isAfter, isBB, site.succs_eq_flow inlinable (site.ne_after site.first_present).symm,
      site.flow_after closed outgoing]

end Site

end LeechJit.Opt.Inlining
