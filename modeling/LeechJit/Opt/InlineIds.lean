import LeechJit.IR.BlockIds
import LeechJit.Opt.InlineSite

/-! # Ids of blocks under inlining

The blocks of a callee keep the ids they had there, and each call adds a block with the id
behind that of the last block. So the caller has every id once only if these do not meet.
-/

namespace LeechJit.Opt.Inlining

open IR Store

variable {store middle store' : Store} {func callee : FuncId} {call : InstId} {bb after : BlockId}

/-! ## Only three steps of the inlining touch blocks -/

theorem adjustParams_keepsBlocks {idx : Nat} {params : List InstId}
    (result : adjustParams bb call idx params store = .ok store') : KeepsBlocks store store' := by
  induction params generalizing idx store with
  | nil =>
      cases result
      exact .refl _
  | cons param rest induction =>
      rcases Result.bind_eq_ok.mp result with ⟨inst, -, continued⟩
      split at continued
      case h_1 =>
        cases continued
        exact .refl _
      case h_2 input _ =>
        rcases Result.bind_eq_ok.mp continued with ⟨redirected, redirecting, continued⟩
        rcases Result.bind_eq_ok.mp continued with ⟨erased, erasing, later⟩
        exact ((KeepsBlocks.setUsersFrom redirecting).trans (.eraseInst erasing)).trans
          (induction later)

theorem adjustInputs_keepsBlocks (result : adjustInputs store call callee = .ok store') :
    KeepsBlocks store store' := by
  rcases Result.bind_eq_ok.mp result with ⟨firstBB, -, continued⟩
  rcases Result.bind_eq_ok.mp continued with ⟨block, -, continued⟩
  rcases Result.bind_eq_ok.mp continued with ⟨params, -, adjusting⟩
  exact adjustParams_keepsBlocks adjusting

theorem addRets_keepsBlocks {phi : InstId} {rets : List InstId}
    (result : addRets phi rets store = .ok store') : KeepsBlocks store store' := by
  induction rets generalizing store with
  | nil =>
      cases result
      exact .refl _
  | cons ret rest induction =>
      rcases Result.bind_eq_ok.mp result with ⟨inst, -, continued⟩
      rcases Result.bind_eq_ok.mp continued with ⟨val, -, continued⟩
      rcases Result.bind_eq_ok.mp continued with ⟨home, -, continued⟩
      rcases Result.bind_eq_ok.mp continued with ⟨next, adding, later⟩
      exact (KeepsBlocks.addNode adding).trans (induction later)

theorem replaceRets_keepsBlocks {rets : List InstId}
    (result : replaceRets after rets store = .ok store') : KeepsBlocks store store' := by
  induction rets generalizing store with
  | nil =>
      cases result
      exact .refl _
  | cons ret rest induction =>
      rcases Result.bind_eq_ok.mp result with ⟨inst, -, continued⟩
      rcases Result.bind_eq_ok.mp continued with ⟨home, -, continued⟩
      rcases Result.bind_eq_ok.mp continued with ⟨erased, erasing, continued⟩
      rcases Result.bind_eq_ok.mp continued with ⟨⟨jump, next⟩, pushing, later⟩
      exact ((KeepsBlocks.eraseInst erasing).trans (.pushInstBack pushing)).trans (induction later)

theorem mergeRets_keepsBlocks {resType : ValueType} {rets : List InstId}
    (result : mergeRets store call resType after rets = .ok store') : KeepsBlocks store store' := by
  unfold mergeRets at result
  split at result
  · rcases Result.bind_eq_ok.mp result with ⟨inst, -, continued⟩
    rcases Result.bind_eq_ok.mp continued with ⟨retVal, -, redirecting⟩
    exact .setUsersFrom redirecting
  · rcases Result.bind_eq_ok.mp result with ⟨⟨phi, made⟩, pushing, continued⟩
    rcases Result.bind_eq_ok.mp continued with ⟨filled, adding, redirecting⟩
    exact ((KeepsBlocks.pushInstFront pushing).trans (addRets_keepsBlocks adding)).trans
      (.setUsersFrom redirecting)

theorem adjustOutputs_keepsBlocks (result : adjustOutputs store call callee after = .ok store') :
    KeepsBlocks store store' := by
  rcases Result.bind_eq_ok.mp result with ⟨function, -, continued⟩
  split_ifs at continued
  · cases continued
    exact .refl _
  · rcases Result.bind_eq_ok.mp continued with ⟨graph, -, continued⟩
    rcases Result.bind_eq_ok.mp continued with ⟨rets, -, continued⟩
    rcases Result.bind_eq_ok.mp continued with ⟨merged, merging, replacing⟩
    exact (mergeRets_keepsBlocks merging).trans (replaceRets_keepsBlocks replacing)

/-! ## One call -/

/-- What the inlining of a call does to blocks. -/
structure BlocksInlined (store : Store) (func : FuncId) (call : InstId) (store' : Store) where
  callee : FuncId
  caller : Function
  source : Function
  first : BlockId
  rest : List BlockId
  idx : Nat
  isCall : store.kindOf call = some (.kCall callee)
  callerFound : store.functions func = some caller
  sourceFound : store.functions callee = some source
  blocks : source.bbs = first :: rest
  nextId : store.nextId caller.bbs = .ok idx
  ids : ∀ bb, store'.idOf bb = if bb = first then none
    else if bb = store.nextBlock then some idx else store.idOf bb
  functions : ∀ key, store'.functions key =
    if key = func then some { caller with bbs := caller.bbs ++ rest ++ [store.nextBlock] }
    else if key = callee then some { source with bbs := [] } else store.functions key
  nextInst : store.nextInst ≤ store'.nextInst
  calls : ∀ id, id < store.nextInst → ∀ callee, store'.kindOf id = some (.kCall callee) →
    store.kindOf id = some (.kCall callee)
  apart : store'.shape.Apart

theorem apart_keepsBlocks (apart : store.shape.Apart) (keeps : KeepsBlocks store store') :
    store'.shape.Apart := by
  have present : store'.shape.present = store.shape.present := by
    funext bb
    rw [eq_iff_iff, present_iff_idOf, present_iff_idOf, keeps.ids]
  exact apart.congr present keeps.functions keeps.nextBlock

/-- Moving the blocks of a function changes lists of blocks only. -/
theorem spliceBBs_ids (result : store.spliceBBs func after callee = .ok store') :
    (∀ bb, store'.idOf bb = store.idOf bb) ∧ store'.nextInst = store.nextInst ∧
      ∀ id, store'.kindOf id = store.kindOf id := by
  rcases Result.bind_eq_ok.mp result with ⟨source, -, continued⟩
  rcases Result.bind_eq_ok.mp continued with ⟨function, -, continued⟩
  split_ifs at continued
  cases continued
  exact ⟨fun _ => rfl, rfl, fun _ => rfl⟩

theorem doInline_blocks (apart : store.shape.Apart)
    (others : ∀ callee, store.kindOf call = some (.kCall callee) → callee ≠ func)
    (result : doInline func store call = .ok store') :
    Nonempty (BlocksInlined store func call store') := by
  rcases Result.bind_eq_ok.mp result with ⟨inst, found, continued⟩
  rcases Result.bind_eq_ok.mp continued with ⟨verified, -, continued⟩
  rcases Result.bind_eq_ok.mp continued with ⟨⟨⟩, -, continued⟩
  rcases Result.bind_eq_ok.mp continued with ⟨bb, -, continued⟩
  rcases Result.bind_eq_ok.mp continued with ⟨callee, calling, continued⟩
  rcases Result.bind_eq_ok.mp continued with ⟨⟨after, split⟩, splitting, continued⟩
  rcases Result.bind_eq_ok.mp continued with ⟨inputs, adjustingInputs, continued⟩
  rcases Result.bind_eq_ok.mp continued with ⟨outputs, adjustingOutputs, continued⟩
  rcases Result.bind_eq_ok.mp continued with ⟨joined, absorbing, continued⟩
  rcases Result.bind_eq_ok.mp continued with ⟨removed, erasing, moving⟩
  rw [inst_eq_ok] at found
  have isCall : store.kindOf call = some (.kCall callee) := by
    rw [kindOf_eq found]
    cases is : inst.kind <;> rw [getCallee, is] at calling <;> cases calling
    rfl
  have different := others callee isCall
  rcases Result.bind_eq_ok.mp splitting with ⟨⟨newBB, appended⟩, appending, continued⟩
  rcases Result.bind_eq_ok.mp continued with ⟨again, -, continued⟩
  rcases Result.bind_eq_ok.mp continued with ⟨home, -, continued⟩
  rcases Result.bind_eq_ok.mp continued with ⟨pivot, -, continued⟩
  rcases Result.bind_eq_ok.mp continued with ⟨spliced, splicing, equal⟩
  cases equal
  rcases appendBB_appended appending with ⟨rfl, caller, idx, isAppended⟩
  rcases Result.bind_eq_ok.mp absorbing with ⟨first, rooting, continued⟩
  rcases Result.bind_eq_ok.mp continued with ⟨emptied, emptying, erasingBB⟩
  rcases Result.bind_eq_ok.mp emptying with ⟨firstBlock, -, moved⟩
  rcases eraseBB_erased erasingBB with ⟨source, isErased⟩
  have before : KeepsBlocks appended emptied :=
    (((KeepsBlocks.splice splicing).trans (adjustInputs_keepsBlocks adjustingInputs)).trans
      (adjustOutputs_keepsBlocks adjustingOutputs)).trans (.splice moved)
  have behind : KeepsBlocks joined removed := .eraseInst erasing
  have fresh : store.blocks store.nextBlock = none := not_not.mp apart.fresh
  have apartAppended : appended.shape.Apart := by
    rcases appendBB_shape fresh appending with ⟨-, function, foundFunc, shape_eq⟩
    rw [shape_eq]
    exact apart.addBB foundFunc
  have apartEmptied := apart_keepsBlocks apartAppended before
  have apartRemoved : removed.shape.Apart := by
    rcases eraseBB_shape erasingBB with ⟨-, function, foundFunc, member, shape_eq⟩
    apply apart_keepsBlocks _ behind
    rw [shape_eq]
    exact apartEmptied.dropBB foundFunc member
  have sourceFound : store.functions callee = some source := by
    rw [← isErased.found, before.functions, isAppended.functions, if_neg different]
  have blocks : ∃ rest, source.bbs = first :: rest := by
    rcases rootBB_eq_ok rooting with ⟨function, rest, foundFunc, blocks⟩
    have same : outputs.functions = appended.functions :=
      (((KeepsBlocks.splice splicing).trans (adjustInputs_keepsBlocks adjustingInputs)).trans
        (adjustOutputs_keepsBlocks adjustingOutputs)).functions
    rw [same, isAppended.functions, if_neg different, sourceFound] at foundFunc
    exact ⟨rest, Option.some.inj foundFunc ▸ blocks⟩
  rcases blocks with ⟨rest, blocks⟩
  have removedFunctions : ∀ key, removed.functions key =
      if key = callee then some { source with bbs := rest }
      else if key = func then some { caller with bbs := caller.bbs ++ [store.nextBlock] }
      else store.functions key := by
    intro key
    rw [behind.functions, isErased.functions, blocks, List.erase_cons_head, before.functions,
      isAppended.functions]
  rcases spliceBBs_shape different.symm moving with
    ⟨moved, function, foundSource, foundFunction, member, shape_eq⟩
  rw [removedFunctions, if_pos rfl] at foundSource
  rw [removedFunctions, if_neg different.symm, if_pos rfl] at foundFunction
  cases foundSource
  cases foundFunction
  have isNew : store.nextBlock ∉ caller.bbs := by
    intro old
    rw [← Shape.bbs_eq (show store.shape.functions func = some caller from isAppended.found)] at old
    exact apart.fresh (apart.present func _ old)
  have front : (caller.bbs ++ [store.nextBlock]).takeWhile (· ≠ store.nextBlock) = caller.bbs := by
    rw [List.takeWhile_append_of_pos (by simpa using fun bb member => ne_of_mem_of_not_mem member isNew)]
    simp
  have back : (caller.bbs ++ [store.nextBlock]).dropWhile (· ≠ store.nextBlock) =
      [store.nextBlock] := by
    rw [List.dropWhile_append_of_pos (by simpa using fun bb member => ne_of_mem_of_not_mem member isNew)]
    simp
  dsimp only at shape_eq
  rw [front, back] at shape_eq
  have callerRemoved : removed.shape.functions func =
      some { caller with bbs := caller.bbs ++ [store.nextBlock] } := by
    refine (removedFunctions func).trans ?_
    rw [if_neg different.symm, if_pos rfl]
  have sourceRemoved : removed.shape.functions callee = some { source with bbs := rest } := by
    refine (removedFunctions callee).trans ?_
    rw [if_pos rfl]
  have perm : (caller.bbs ++ rest ++ [store.nextBlock]).Perm
      (caller.bbs ++ [store.nextBlock] ++ rest) := by
    rw [List.append_assoc, List.append_assoc]
    exact List.perm_append_comm.append_left _
  have final := spliceBBs_ids moving
  have oldEmptied : store.nextInst ≤ emptied.nextInst := isAppended.nextInst ▸ before.nextInst
  refine ⟨⟨callee, caller, source, first, rest, idx, isCall, isAppended.found, sourceFound, blocks,
    isAppended.nextId, ?_, ?_, ?_, ?_, ?_⟩⟩
  · intro key
    rw [final.1, behind.ids, isErased.ids, before.ids, isAppended.ids]
  · intro key
    refine (congrFun (congrArg Shape.functions shape_eq) key).trans ?_
    simp only [Shape.setFunction, Function.update_apply]
    split_ifs with isFunc isCallee
    · rfl
    · rfl
    · refine (removedFunctions key).trans ?_
      rw [if_neg isCallee, if_neg isFunc]
  · rw [final.2.1]
    exact Nat.le_trans oldEmptied (isErased.nextInst ▸ behind.nextInst)
  · intro id below again isAgain
    rw [final.2.2] at isAgain
    have inJoined := behind.call_of_old (isErased.nextInst ▸ Nat.lt_of_lt_of_le below oldEmptied) isAgain
    have inAppended := before.call_of_old (isAppended.nextInst.symm ▸ below)
      (isErased.kinds id _ inJoined)
    rwa [isAppended.kinds] at inAppended
  · rw [shape_eq]
    have moved := apartRemoved.moveBBs different.symm callerRemoved sourceRemoved perm
    exact moved

/-! ## All calls -/

/-- Whom an instruction calls, if it is a call. -/
def calleeOf (store : Store) (id : InstId) : Option FuncId :=
  match store.kindOf id with
  | some (.kCall callee) => some callee
  | _ => none

theorem calleeOf_eq_some {id : InstId} :
    calleeOf store id = some callee ↔ store.kindOf id = some (.kCall callee) := by
  unfold calleeOf
  split
  case h_1 other isCall => simp [isCall]
  case h_2 notCall => simpa using notCall callee

/-- The blocks a callee hands over: all but its first. -/
def inner (store : Store) (callee : FuncId) : List BlockId :=
  (store.shape.bbs callee).tail

/-- The ids the caller gets, call after call; `next` is the id of the next new block. -/
def inlinedIds (store : Store) : Nat → List FuncId → List (Option Nat)
  | _, [] => []
  | next, callee :: rest =>
      (inner store callee).map store.idOf ++ some next :: inlinedIds store (next + 1) rest

namespace BlocksInlined

variable (inlined : BlocksInlined store func call store')
include inlined

theorem bbs (key : FuncId) : store'.shape.bbs key =
    if key = func then store.shape.bbs func ++ inner store inlined.callee ++ [store.nextBlock]
    else if key = inlined.callee then [] else store.shape.bbs key := by
  have here : store.shape.bbs func = inlined.caller.bbs :=
    Shape.bbs_eq (show store.shape.functions func = _ from inlined.callerFound)
  have there : store.shape.bbs inlined.callee = inlined.first :: inlined.rest := by
    rw [Shape.bbs_eq (show store.shape.functions inlined.callee = _ from inlined.sourceFound),
      inlined.blocks]
  have now : store'.shape.functions key = _ := inlined.functions key
  rw [Shape.bbs, now, here, inner, there]
  split_ifs
  · rfl
  · rfl
  · rfl

theorem first_mem : inlined.first ∈ store.shape.bbs inlined.callee := by
  rw [Shape.bbs_eq (show store.shape.functions inlined.callee = _ from inlined.sourceFound),
    inlined.blocks]
  exact List.mem_cons_self

/-- Only the first block of the callee and the new block have other ids. -/
theorem ids_eq (apart : store.shape.Apart) {key : FuncId} (member : bb ∈ store.shape.bbs key)
    (notFirst : bb ≠ inlined.first) : store'.idOf bb = store.idOf bb := by
  rw [inlined.ids, if_neg notFirst, if_neg]
  rintro rfl
  exact apart.fresh (apart.present key _ member)

theorem ne_first (apart : store.shape.Apart) {key : FuncId} (member : bb ∈ store.shape.bbs key)
    (different : key ≠ inlined.callee) : bb ≠ inlined.first := by
  rintro rfl
  exact different (apart.disjoint key inlined.callee _ member inlined.first_mem)

theorem inner_ne_first (apart : store.shape.Apart) (member : bb ∈ inner store inlined.callee) :
    bb ≠ inlined.first := by
  have nodup := apart.nodup inlined.callee
  have there : store.shape.bbs inlined.callee = inlined.first :: inlined.rest := by
    rw [Shape.bbs_eq (show store.shape.functions inlined.callee = _ from inlined.sourceFound),
      inlined.blocks]
  rw [there, List.nodup_cons] at nodup
  rw [inner, there] at member
  exact ne_of_mem_of_not_mem member nodup.1

theorem new_id (apart : store.shape.Apart) : store'.idOf store.nextBlock = some inlined.idx := by
  rw [inlined.ids, if_neg, if_pos rfl]
  intro same
  have present := apart.present _ _ inlined.first_mem
  rw [← same] at present
  exact apart.fresh present

/-- The ids the caller has now. -/
theorem map_ids (apart : store.shape.Apart) (different : inlined.callee ≠ func) :
    (store'.shape.bbs func).map store'.idOf =
      (store.shape.bbs func).map store.idOf ++ (inner store inlined.callee).map store.idOf ++
        [some inlined.idx] := by
  rw [inlined.bbs, if_pos rfl, List.map_append, List.map_append, List.map_singleton,
    inlined.new_id apart]
  congr 2
  · apply List.map_congr_left
    intro bb member
    exact inlined.ids_eq apart member (inlined.ne_first apart member different.symm)
  · apply List.map_congr_left
    intro bb member
    exact inlined.ids_eq apart (List.mem_of_mem_tail member) (inlined.inner_ne_first apart member)

/-- The next call gets the next id. -/
theorem nextId_eq (apart : store.shape.Apart) :
    store'.nextId (store'.shape.bbs func) = .ok (inlined.idx + 1) := by
  have isId := inlined.new_id apart
  rw [inlined.bbs, if_pos rfl, Store.nextId, List.getLast?_concat]
  rw [idOf, Option.map_eq_some_iff] at isId
  rcases isId with ⟨block, found, isIdx⟩
  dsimp only
  rw [block_eq_ok.mpr found, ← isIdx]
  rfl

/-- The blocks of a function that is not involved. -/
theorem inner_eq (apart : store.shape.Apart) {other : FuncId} (notFunc : other ≠ func) (notCallee : other ≠ inlined.callee) :
    (inner store' other).map store'.idOf = (inner store other).map store.idOf := by
  have same : inner store' other = inner store other := by
    rw [inner, inlined.bbs, if_neg notFunc, if_neg notCallee, inner]
  rw [same]
  apply List.map_congr_left
  intro bb member
  have inList := List.mem_of_mem_tail member
  exact inlined.ids_eq apart inList (inlined.ne_first apart inList notCallee)

end BlocksInlined

theorem inlinedIds_congr {callees : List FuncId} {next : Nat}
    (same : ∀ callee ∈ callees, (inner store' callee).map store'.idOf =
      (inner store callee).map store.idOf) :
    inlinedIds store' next callees = inlinedIds store next callees := by
  induction callees generalizing next with
  | nil => rfl
  | cons callee rest induction =>
      rw [inlinedIds, inlinedIds, same callee List.mem_cons_self,
        induction fun other member => same other (List.mem_cons_of_mem _ member)]

/-- If the instructions are calls, they are calls of these functions. -/
def CallAtMost (store : Store) : List InstId → List FuncId → Prop :=
  List.Forall₂ fun call callee => call < store.nextInst ∧
    ∀ again, store.kindOf call = some (.kCall again) → again = callee

/-- The ids of the caller's blocks after all calls. -/
theorem run_ids {calls : List InstId} {callees : List FuncId} {next : Nat}
    (apart : store.shape.Apart) (isNext : store.nextId (store.shape.bbs func) = .ok next)
    (called : CallAtMost store calls callees) (nodup : callees.Nodup) (others : func ∉ callees)
    (result : calls.foldlM (doInline func) store = .ok store') :
    (store'.shape.bbs func).map store'.idOf =
      (store.shape.bbs func).map store.idOf ++ inlinedIds store next callees := by
  induction calls generalizing store callees next with
  | nil =>
      cases result
      cases called
      exact (List.append_nil _).symm
  | cons call calls induction =>
      cases called with
      | @cons _ callee _ callees first rest =>
          rw [List.nodup_cons] at nodup
          rw [List.mem_cons, not_or] at others
          rcases Result.bind_eq_ok.mp result with ⟨after, inlining, later⟩
          have different : ∀ again, store.kindOf call = some (.kCall again) → again ≠ func := by
            intro again isAgain
            rw [first.2 again isAgain]
            exact Ne.symm others.1
          rcases doInline_blocks apart different inlining with ⟨inlined⟩
          have isCallee : inlined.callee = callee := first.2 _ inlined.isCall
          have notFunc : inlined.callee ≠ func := different _ inlined.isCall
          have isIdx : inlined.idx = next := by
            have again := inlined.nextId
            rw [← Shape.bbs_eq (show store.shape.functions func = _ from inlined.callerFound),
              isNext] at again
            exact (Except.ok.inj again).symm
          have calledAfter : CallAtMost after calls callees := by
            refine rest.imp fun id callee known => ⟨?_, fun again isAgain => ?_⟩
            · exact Nat.lt_of_lt_of_le known.1 inlined.nextInst
            · exact known.2 again (inlined.calls id known.1 again isAgain)
          have untouched : ∀ other ∈ callees, (inner after other).map after.idOf =
              (inner store other).map store.idOf := by
            intro other member
            apply inlined.inner_eq apart
            · rintro rfl
              exact others.2 member
            · rintro rfl
              exact nodup.1 (isCallee ▸ member)
          rw [induction inlined.apart (inlined.nextId_eq apart) calledAfter nodup.2 others.2 later,
            inlined.map_ids apart notFunc, isIdx, isCallee, inlinedIds_congr untouched, inlinedIds,
            List.append_assoc, List.append_assoc]
          rfl

/-! ## When the ids do not meet -/

/-- The inner blocks of the callees have ids of their own: none of the caller, none of another
callee, and none that a new block will get. -/
structure IdsApart (store : Store) (func : FuncId) (callees : List FuncId) : Prop where
  caller : ∀ callee ∈ callees, ∀ bb ∈ inner store callee, ∀ other ∈ store.shape.bbs func,
    store.idOf bb ≠ store.idOf other
  eachOther : callees.Pairwise fun left right => ∀ bb ∈ inner store left,
    ∀ other ∈ inner store right, store.idOf bb ≠ store.idOf other
  new : ∀ callee ∈ callees, ∀ bb ∈ inner store callee, ∀ next idx,
    store.nextId (store.shape.bbs func) = .ok next → store.idOf bb = some idx →
      idx < next ∨ next + callees.length ≤ idx

theorem inlinedIds_perm (store : Store) (next : Nat) (callees : List FuncId) :
    (inlinedIds store next callees).Perm
      (callees.flatMap (fun callee => (inner store callee).map store.idOf) ++
        (List.range' next callees.length).map some) := by
  induction callees generalizing next with
  | nil => exact .refl _
  | cons callee rest induction =>
      rw [inlinedIds, List.flatMap_cons, List.append_assoc]
      apply List.Perm.append_left
      refine ((induction (next + 1)).cons (some next)).trans ?_
      exact List.perm_middle.symm

theorem inner_nodup (numbered : store.Numbered) (callee : FuncId) :
    ((inner store callee).map store.idOf).Nodup := by
  have increasing : store.Increasing (inner store callee) :=
    (numbered.increasing callee).sublist (List.tail_sublist _)
  apply increasing.ids_nodup
  exact fun bb member => numbered.apart.present callee bb (List.mem_of_mem_tail member)

/-- The ids of the caller's blocks are below those of the new ones. -/
theorem caller_below_new {next idx : Nat} (numbered : store.Numbered)
    (isNext : store.nextId (store.shape.bbs func) = .ok next)
    (isOld : some idx ∈ (store.shape.bbs func).map store.idOf) : idx < next := by
  rcases List.mem_map.mp isOld with ⟨bb, member, isIdx⟩
  exact (numbered.increasing func).below_nextId isNext bb member idx isIdx

theorem inlinedIds_nodup_iff {callees : List FuncId} {next : Nat} (numbered : store.Numbered)
    (isNext : store.nextId (store.shape.bbs func) = .ok next) :
    ((store.shape.bbs func).map store.idOf ++ inlinedIds store next callees).Nodup ↔
      IdsApart store func callees := by
  rw [((inlinedIds_perm store next callees).append_left _).nodup_iff, List.nodup_append,
    List.nodup_append]
  have callerNodup := (numbered.increasing func).ids_nodup (numbered.apart.present func)
  have newNodup : ((List.range' next callees.length).map some).Nodup :=
    (List.nodup_range' ..).map (Option.some_injective Nat)
  have inNew : ∀ idx, some idx ∈ (List.range' next callees.length).map some ↔
      next ≤ idx ∧ idx < next + callees.length := by
    intro idx
    simp [List.mem_range'_1]
  have inInner : ∀ value, value ∈ callees.flatMap (fun callee => (inner store callee).map store.idOf) ↔
      ∃ callee ∈ callees, ∃ bb ∈ inner store callee, store.idOf bb = value := by
    intro value
    simp [List.mem_flatMap]
  constructor
  · rintro ⟨-, ⟨innerNodup, -, innerNew⟩, fromCaller⟩
    constructor
    case caller =>
      intro callee member bb isInner other isCaller same
      apply fromCaller _ (List.mem_map_of_mem isCaller) _ (List.mem_append_left _ _) same.symm
      exact (inInner _).mpr ⟨callee, member, bb, isInner, rfl⟩
    case eachOther =>
      apply (List.nodup_flatMap.mp innerNodup).2.imp
      intro left right apart bb isLeft other isRight same
      exact apart (List.mem_map_of_mem isLeft) (same ▸ List.mem_map_of_mem isRight)
    case new =>
      intro callee member bb isInner again idx isAgain isIdx
      cases isNext.symm.trans isAgain
      by_contra inside
      have isNew : some idx ∈ (List.range' next callees.length).map some :=
        (inNew idx).mpr (by omega)
      exact innerNew _ ((inInner _).mpr ⟨callee, member, bb, isInner, isIdx⟩) _ isNew rfl
  · intro apart
    refine ⟨callerNodup, ⟨List.nodup_flatMap.mpr ⟨?_, ?_⟩, newNodup, ?_⟩, ?_⟩
    · exact fun callee _ => inner_nodup numbered callee
    · apply apart.eachOther.imp
      intro left right differ value inLeft inRight
      rcases List.mem_map.mp inLeft with ⟨bb, isLeft, rfl⟩
      rcases List.mem_map.mp inRight with ⟨other, isRight, same⟩
      exact differ bb isLeft other isRight same.symm
    · intro value isInner other isNew same
      rcases (inInner value).mp isInner with ⟨callee, member, bb, inCallee, isValue⟩
      rcases List.mem_map.mp isNew with ⟨idx, -, rfl⟩
      have range := (inNew idx).mp isNew
      have outside := apart.new callee member bb inCallee next idx isNext (isValue.trans same)
      omega
    · intro value isCaller other isOther same
      subst same
      cases List.mem_append.mp isOther with
      | inl isInner =>
          rcases (inInner value).mp isInner with ⟨callee, member, bb, inCallee, isValue⟩
          rcases List.mem_map.mp isCaller with ⟨here, inCaller, same⟩
          exact apart.caller callee member bb inCallee here inCaller (isValue.trans same.symm)
      | inr isNew =>
          rcases List.mem_map.mp isNew with ⟨idx, -, rfl⟩
          have range := (inNew idx).mp isNew
          have below := caller_below_new numbered isNext isCaller
          omega

theorem nextId_of_present (apart : store.shape.Apart) (func : FuncId) :
    ∃ next, store.nextId (store.shape.bbs func) = .ok next := by
  rw [nextId]
  cases isLast : (store.shape.bbs func).getLast? with
  | none => exact ⟨0, rfl⟩
  | some last =>
      rcases List.eq_nil_or_concat' (store.shape.bbs func) with empty | ⟨front, again, split⟩
      · rw [empty] at isLast
        cases isLast
      · have member : last ∈ store.shape.bbs func := List.mem_of_getLast? isLast
        have present := apart.present func last member
        rcases Option.ne_none_iff_exists'.mp present with ⟨block, found⟩
        exact ⟨block.id + 1, by simp [block_eq_ok.mpr found]⟩

/-- The candidates are calls, older than what is allocated from now on. -/
theorem callAtMost_candidates {calls : List InstId} (numbered : store.Numbered)
    (result : fillCandidates store func = .ok calls) :
    CallAtMost store calls (calls.filterMap (calleeOf store)) := by
  rcases Result.bind_eq_ok.mp result with ⟨function, -, continued⟩
  rcases Result.bind_eq_ok.mp continued with ⟨graph, -, collecting⟩
  rcases collect_eq_ok collecting with ⟨chosen, decided⟩
  have isCalls : ∀ call ∈ calls, ∃ callee, store.kindOf call = some (.kCall callee) := by
    intro call member
    rw [chosen, List.mem_filter] at member
    rcases decided call member.1 with ⟨holds, answered⟩
    apply (isCall_eq_true answered).mp
    simpa [answered, answer] using member.2
  clear chosen collecting continued result
  induction calls with
  | nil => exact .nil
  | cons call rest induction =>
      rcases isCalls call List.mem_cons_self with ⟨callee, isCall⟩
      rw [List.filterMap_cons_some (calleeOf_eq_some.mpr isCall)]
      refine .cons ⟨numbered.allocated call _ isCall, fun again isAgain => ?_⟩
        (induction fun other member => isCalls other (List.mem_cons_of_mem _ member))
      cases isCall.symm.trans isAgain
      rfl

/-- In functions that were built by appending and erasing blocks every id stands once, and after
inlining the ids of the caller do so exactly if the ids of the callees keep apart. -/
theorem ids_nodup_iff {calls : List InstId} (grown : store.Grown)
    (collecting : fillCandidates store func = .ok calls)
    (distinct : (calls.filterMap (calleeOf store)).Nodup)
    (others : func ∉ calls.filterMap (calleeOf store)) (result : run store func = .ok store') :
    ((∀ key, ((store.shape.bbs key).map store.idOf).Nodup) ∧
      ((store'.shape.bbs func).map store'.idOf).Nodup) ↔
        IdsApart store func (calls.filterMap (calleeOf store)) := by
  have numbered := grown.numbered
  rcases nextId_of_present numbered.apart func with ⟨next, isNext⟩
  have inlining : calls.foldlM (doInline func) store = .ok store' := by
    simpa only [run, collecting, Result.ok_bind] using result
  rw [run_ids numbered.apart isNext (callAtMost_candidates numbered collecting) distinct others
    inlining, inlinedIds_nodup_iff numbered isNext]
  apply and_iff_right
  exact fun key => (numbered.increasing key).ids_nodup (numbered.apart.present key)

/-- Function 0 has two blocks, function 1 calls it in its only block. -/
def callTwoBlocks : List GrowStep :=
  [.build (.newFunction 0 .I64 []), .build (.appendBB 0), .build (.appendBB 0),
    .build (.pushInstBack 0 (.jumpInstr 1)), .build (.pushInstBack 1 (.constVal (.I64 5))),
    .build (.pushInstBack 1 (.retVal 1)), .build (.newFunction 1 .I64 []), .build (.appendBB 1),
    .build (.pushInstBack 2 (.call 0)), .build (.pushInstBack 2 (.retVal 3))]

theorem ids_nodup_iff_callTwoBlocks : ∃ store store',
    callTwoBlocks.foldlM GrowStep.apply Store.empty = .ok store ∧
      fillCandidates store 1 = .ok [3] ∧ run store 1 = .ok store' ∧
      (((∀ key, ((store.shape.bbs key).map store.idOf).Nodup) ∧
        ((store'.shape.bbs 1).map store'.idOf).Nodup) ↔
          IdsApart store 1 ([3].filterMap (calleeOf store))) := by
  refine ⟨_, _, rfl, rfl, rfl, ?_⟩
  exact ids_nodup_iff ⟨callTwoBlocks, rfl⟩ rfl (by decide) (by decide) rfl

/-- The second block of the callee and the new block of the caller both have id 1. -/
theorem not_ids_nodup_callTwoBlocks : ∃ store store',
    callTwoBlocks.foldlM GrowStep.apply Store.empty = .ok store ∧
      fillCandidates store 1 = .ok [3] ∧ ([3].filterMap (calleeOf store)).Nodup ∧
      1 ∉ [3].filterMap (calleeOf store) ∧ run store 1 = .ok store' ∧
      ¬ ((store'.shape.bbs 1).map store'.idOf).Nodup := by
  exact ⟨_, _, rfl, rfl, by decide, by decide, rfl, by decide⟩

end LeechJit.Opt.Inlining
