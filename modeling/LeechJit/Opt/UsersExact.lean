import LeechJit.Foundation.StepRuns
import LeechJit.IR.Check
import LeechJit.IR.Precedence
import LeechJit.Opt.Passes

/-! # Users sets after the passes

In a well-formed function the instructions are linked and each stands in one
block. Every round of the passes keeps both, so users sets stay exact.
-/

namespace LeechJit.Opt

open IR Store

/-- The users of a value are the instructions of the function that use it, and what
an instruction names exists. -/
structure UsersExact (store : Store) (func : Function) : Prop where
  users : ∀ value ∈ store.listed func, ∀ user,
    user ∈ store.users value ↔ user ∈ store.listed func ∧ value ∈ store.inputs user
  inputsStored : ∀ id ∈ store.listed func, ∀ input ∈ store.inputs id,
    input ∈ store.listed func ∧ ∃ inst, store.insts input = some inst
  usersStored : ∀ id ∈ store.listed func, ∀ user ∈ store.users id,
    ∃ inst, store.insts user = some inst

variable {pass : Pass} {store store' : Store} {id : InstId} {func : Function}

theorem usersExact_of_housed (housed : store.Housed func) : UsersExact store func where
  users := housed.linked.users
  inputsStored id member input isInput := by
    have inputMem := housed.linked.inputs id member input isInput
    exact ⟨inputMem, housed.linked.stored input inputMem⟩
  usersStored id member user isUser :=
    housed.linked.stored user ((housed.linked.users id member user).mp isUser).1

/-- A candidate that is still in a block that is reached, or has gone with an earlier
round. -/
def Pending (store : Store) (func : Function) (id : InstId) : Prop :=
  id < store.nextInst ∧ (store.insts id = none ∨
    ∃ bb ∈ func.bbs, (store.cfg func).Reachable bb ∧ id ∈ store.instructions bb)

theorem Pending.rewritten {old : InstId} {new : Option InstKind}
    {operands : InstId → List InstId} (pending : Pending store func id)
    (housed : store.Housed func)
    (rewritten : store.Rewritten { id | id ∈ store.listed func } old new operands store') :
    Pending store' func id := by
  rcases pending with ⟨allocated, here⟩
  have notNew : ¬ (new.isSome ∧ id = store.nextInst) := fun both =>
    absurd both.2 (Nat.ne_of_lt allocated)
  refine ⟨Nat.lt_of_lt_of_le allocated rewritten.nextInst.1, ?_⟩
  by_cases isOld : id = old
  · exact .inl (rewritten.gone id (.inr isOld) notNew)
  · rcases here with isNone | ⟨bb, bbMem, reachable, inBlock⟩
    · exact .inl (rewritten.gone id (.inl isNone) notNew)
    · right
      refine ⟨bb, bbMem, rewritten.cfg_eq ▸ reachable, ?_⟩
      rw [housed.instructions_eq rewritten bbMem, mem_remaining_of_ne isOld notNew]
      exact inBlock

theorem PeepHole.Swapped.instructions (swapped : PeepHole.Swapped store id store') :
    store'.instructions = store.instructions := by
  funext bb
  rw [Store.instructions, Store.instructions, swapped.relinked.blocks]

theorem PeepHole.Swapped.listed_eq (swapped : PeepHole.Swapped store id store') :
    store'.listed func = store.listed func := by
  rw [listed, listed, swapped.instructions]

theorem PeepHole.Swapped.cfg_eq (swapped : PeepHole.Swapped store id store') :
    store'.cfg func = store.cfg func := by
  have succs : store'.succs = store.succs := by
    funext bb
    rw [Store.succs, Store.succs, swapped.relinked.blocks]
  have preds : store'.preds = store.preds := by
    funext bb
    rw [Store.preds, Store.preds, swapped.relinked.blocks]
  rw [cfg, cfg, graphOf, graphOf, succs, preds, swapped.relinked.blocks]

theorem PeepHole.Swapped.housed (swapped : PeepHole.Swapped store id store')
    (housed : store.Housed func) : store'.Housed func where
  linked := by
    rw [swapped.listed_eq]
    exact swapped.linked housed.linked
  nodup := swapped.listed_eq ▸ housed.nodup
  closed := swapped.cfg_eq ▸ housed.closed
  homes key member inst' bb found' home := by
    rw [swapped.listed_eq] at member
    rcases housed.linked.stored key member with ⟨inst, found⟩
    cases Option.some.inj ((swapped.relinked.insts found).symm.trans found')
    exact housed.homes key member inst bb found home

namespace Pass

/-- A round keeps the function in order, and the candidates that are left are still
in it or gone. -/
theorem housed (housed : store.Housed func) (member : id ∈ store.listed func)
    (result : pass.rewrite store id = .ok store') :
    store'.Housed func ∧ ∀ other, Pending store func other → Pending store' func other := by
  cases pass.change housed.linked member result with
  | swapped _ _ swapped =>
      refine ⟨swapped.housed housed, ?_⟩
      rintro other ⟨allocated, here⟩
      rw [Pending, swapped.relinked.nextInst, swapped.instructions, swapped.cfg_eq,
        swapped.relinked.insts_none]
      exact ⟨allocated, here⟩
  | replaced _ _ _ _ rewritten =>
      exact ⟨housed.rewritten rewritten, fun _ pending => pending.rewritten housed rewritten⟩
  | folded _ _ _ rewritten =>
      exact ⟨housed.rewritten rewritten, fun _ pending => pending.rewritten housed rewritten⟩
  | merged _ _ _ _ _ fits merge =>
      have rewritten := merge.some.rewritten housed.linked fits
      exact ⟨housed.rewritten rewritten, fun _ pending => pending.rewritten housed rewritten⟩

/-- A candidate that a round accepts is in the function. -/
theorem mem_listed (pending : Pending store func id)
    (result : pass.rewrite store id = .ok store') : id ∈ store.listed func := by
  rcases mem_stored result with ⟨inst, found⟩
  rcases pending.2 with isNone | ⟨bb, bbMem, -, inBlock⟩
  · rw [isNone] at found
    cases found
  · exact Consistent.mem_listed bbMem inBlock

theorem housed_rounds {candidates : List InstId} (housed : store.Housed func)
    (pending : ∀ id ∈ candidates, Pending store func id)
    (result : candidates.foldlM pass.rewrite store = .ok store') : store'.Housed func := by
  induction candidates generalizing store with
  | nil =>
      cases result
      exact housed
  | cons id rest induction =>
      rw [List.foldlM_cons] at result
      rcases Result.bind_eq_ok.mp result with ⟨next, first, later⟩
      have member := mem_listed (pending id List.mem_cons_self) first
      rcases Pass.housed housed member first with ⟨housedNext, pendingNext⟩
      apply induction housedNext _ later
      intro other otherMem
      exact pendingNext other (pending other (List.mem_cons_of_mem _ otherMem))

/-- The candidates are instructions of the function. -/
theorem pending_candidates {ids : List InstId} (housed : store.Housed func)
    (result : pass.candidates store func = .ok ids) :
    ∀ id ∈ ids, Pending store func id := by
  have nonempty : func.bbs ≠ [] := List.ne_nil_of_mem housed.closed.entry_mem
  have collected : ∃ pred, store.collect pred
      (store.cfg func).depthFirstSearchReversePostOrder = .ok ids := by
    cases pass with
    | constantFolding =>
        refine ⟨ConstantFolding.foldable store, ?_⟩
        simpa [candidates, ConstantFolding.findFoldable, makeBBGraph_eq nonempty] using result
    | peepHole =>
        refine ⟨PeepHole.foldable store, ?_⟩
        simpa [candidates, PeepHole.findCandidates, makeBBGraph_eq nonempty] using result
  rcases collected with ⟨pred, collecting⟩
  rcases collect_eq_ok collecting with ⟨rfl, -⟩
  intro id member
  rcases List.mem_flatMap.mp (List.mem_filter.mp member).1 with ⟨bb, inOrder, inBlock⟩
  have reachable := (Graph.mem_reversePostOrder housed.closed).mp inOrder
  have bbMem : bb ∈ func.bbs := housed.closed.mem_of_reachable reachable
  have isListed : id ∈ store.listed func := Consistent.mem_listed bbMem inBlock
  exact ⟨housed.linked.allocated id isListed, .inr ⟨bb, bbMem, reachable, inBlock⟩⟩

theorem housed_run (housed : store.Housed func) (result : pass.run store func = .ok store') :
    store'.Housed func := by
  rw [run_eq] at result
  rcases Result.bind_eq_ok.mp result with ⟨candidates, collected, folding⟩
  exact housed_rounds housed (pending_candidates housed collected) folding

end Pass

theorem housed_runAll {passes : List Pass} (housed : store.Housed func)
    (result : runAll func passes store = .ok store') : store'.Housed func :=
  StepRuns.keeps_run (fun store => store.Housed func)
    (fun _ _ _ _ housed => Pass.housed_run housed) housed result

/-- Users sets are exact after any sequence of runs that return. -/
theorem users_exact {passes : List Pass} (wellFormed : store.WellFormed func)
    (returns : runAll func passes store = .ok store') : UsersExact store' func :=
  usersExact_of_housed (housed_runAll wellFormed.housed returns)

/-- A parameter is shifted by 1 and then by 2; `order` is the order in the block. -/
def shifts (order : List InstId) : Store :=
  .ofTables
    [{ type := .I64, kind := .kParam 0, users := [2], bb := some 0 },
      { type := .I64, kind := .kConst (.I64 1), users := [2], bb := some 0 },
      { type := .I64, kind := .kBinOp .kShr, users := [4], bb := some 0, inputs := [0, 1] },
      { type := .I64, kind := .kConst (.I64 2), users := [4], bb := some 0 },
      { type := .I64, kind := .kBinOp .kShr, users := [5], bb := some 0, inputs := [2, 3] },
      { kind := .kRet, bb := some 0, inputs := [4] }]
    [{ instructions := order }] []

def shifting : Function :=
  { bbs := [0], resType := .I64, args := [.I64] }

theorem users_exact_shifts :
    ∃ store', runAll shifting [.constantFolding, .peepHole] (shifts [0, 1, 3, 2, 4, 5]) =
        .ok store' ∧ store'.listed shifting = [0, 1, 3, 6, 4, 5] ∧
      UsersExact store' shifting := by
  have runs : ∃ store', runAll shifting [.constantFolding, .peepHole]
      (shifts [0, 1, 3, 2, 4, 5]) = .ok store' ∧
        store'.listed shifting = [0, 1, 3, 6, 4, 5] := ⟨_, rfl, by decide⟩
  rcases runs with ⟨store', returns, isListed⟩
  exact ⟨store', returns, isListed, users_exact (checkWellFormed_sound rfl) returns⟩

end LeechJit.Opt
