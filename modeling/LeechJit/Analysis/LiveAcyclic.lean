import LeechJit.Analysis.LinearAcyclic
import LeechJit.Analysis.LiveReturns
import LeechJit.IR.Check

/-! # The analyzer on acyclic code

In a function without loops everything the analyzer does returns, except that it takes an
operand from every return.
-/

namespace LeechJit.IR

/-- A well-formed function without loops. -/
structure Store.WellFormedAcyclic (store : Store) (func : Function) : Prop
    extends store.WellFormed func where
  ids : (func.bbs.map (store.cfg func).id).Nodup
  acyclic : (store.cfg func).Acyclic

/-- Every return of the function carries a value. -/
def Store.RetsCarryValues (store : Store) (func : Function) : Prop :=
  ∀ id ∈ store.listed func, ∀ inst, store.insts id = some inst → inst.kind = .kRet →
    inst.inputs ≠ []

variable {store : Store} {func : Function}

/-- The control flow graph the analyses expect. -/
def Store.WellFormedAcyclic.toCfg (wellFormed : store.WellFormedAcyclic func) : Cfg BlockId where
  toGraph := store.cfg func
  closed := wellFormed.closed
  allReachable := wellFormed.reachable
  preds_mem := wellFormed.predsMem
  mirrored := wellFormed.mirrored
  ids _ leftMem _ rightMem same := List.inj_on_of_nodup_map wellFormed.ids leftMem rightMem same

end LeechJit.IR

namespace LeechJit.Analysis

open IR LeechJit.Graph

variable {store : Store} {func : Function} {order front done : List BlockId}
  {loops : LoopAnalyzer BlockId} {numbers : LiveNumbers} {ranges after : LiveRanges}

theorem Ranged.run_returns (ordering : Ordering store func order numbers)
    (ranged : Ranged store func order loops numbers done ranges) (split : order = front ++ done)
    (carries : store.RetsCarryValues func)
    (free : ∀ bb ∈ func.bbs, ∃ info, loops.getLoopInfo bb = .ok info ∧ info.header = none) :
    ∃ after, front.reverse.foldlM (calcBlockRange store (store.cfg func) loops numbers) ranges =
      .ok after := by
  induction front using List.reverseRecOn generalizing done ranges with
  | nil => exact ⟨ranges, rfl⟩
  | append_singleton front bb induction =>
      have shifted : order = front ++ bb :: done := by
        rw [split, List.append_assoc, List.singleton_append]
      have member : bb ∈ func.bbs := by
        rw [← ordering.mem_iff, shifted]
        simp
      have blockCarries : ∀ id ∈ store.instructions bb, Carries store id := fun id inBlock =>
        carries id (Store.Consistent.mem_listed member inBlock)
      rcases ranged.block_returns ordering shifted blockCarries (free bb member) with
        ⟨next, first⟩
      rcases induction (ranged.block ordering shifted first) shifted with ⟨after, others⟩
      refine ⟨after, ?_⟩
      rw [List.reverse_append, List.reverse_singleton, List.singleton_append, List.foldlM_cons,
        first, Result.ok_bind, others]

theorem calcLiveRanges_returns (ordering : Ordering store func order numbers)
    (carries : store.RetsCarryValues func)
    (free : ∀ bb ∈ func.bbs, ∃ info, loops.getLoopInfo bb = .ok info ∧ info.header = none) :
    ∃ after, calcLiveRanges store (store.cfg func) loops numbers order = .ok after := by
  have start := Ranged.initial store func order loops numbers
  have split : order = order ++ [] := (List.append_nil _).symm
  rcases start.run_returns ordering split carries free with ⟨ranges, passed⟩
  have ranged := start.run ordering split passed
  have known : ∀ id ∈ ranges.toZero, ranges.liveIntervals id ≠ none := by
    intro id isZero
    rcases (calcBlockRange_fold_toZero passed).mp isZero with old | ⟨listed, noValue⟩
    · cases old
    · rcases List.mem_flatMap.mp listed with ⟨bb, inOrder, inBlock⟩
      have isEnd : numbers.liveNum id + 2 ∈
          endsOf store (store.cfg func) order loops numbers id order :=
        ⟨bb, List.mem_reverse.mp inOrder, .inr (.inr (.inl ⟨⟨inBlock, noValue.not_isPhi⟩, rfl⟩))⟩
      rcases (ranged.hulls id).exists_of_end isEnd with ⟨interval, found, -⟩
      simp [found]
  rcases zeroInterval_fold_returns known with ⟨after, zeroed⟩
  exact ⟨after, by rw [calcLiveRanges, passed, Result.ok_bind, zeroed]⟩

theorem make_returns (wellFormed : store.WellFormedAcyclic func)
    (carries : store.RetsCarryValues func) :
    ∃ analyzer, LivenessAnalyzer.make store (store.cfg func) = .ok analyzer := by
  let cfg := wellFormed.toCfg
  have acyclic : cfg.Acyclic := wellFormed.acyclic
  rcases make_acyclic acyclic with ⟨loops, made, free⟩
  have ordered := buildLinearOrder_acyclic free
  have perm := reversePostOrder_perm cfg.closed cfg.allReachable
  have isValid : validateLinOrder cfg.depthFirstSearchReversePostOrder = true := by
    rw [validateLinOrder, List.dedup_eq_self.mpr reversePostOrder_nodup]
    exact decide_eq_true rfl
  rcases fillLiveNumbers_returns fun bb (member : bb ∈ cfg.depthFirstSearchReversePostOrder) =>
    stored_of_mem wellFormed.toWellFormed (perm.mem_iff.mp member) with ⟨numbers, numbered⟩
  have instsNodup := (perm.flatMap_right store.instructions).nodup_iff.mpr wellFormed.nodup
  have ordering : Ordering store func cfg.depthFirstSearchReversePostOrder numbers :=
    ⟨wellFormed.toWellFormed, perm,
      fillLiveNumbers_numbering reversePostOrder_nodup instsNodup numbered⟩
  rcases calcLiveRanges_returns ordering carries free with ⟨ranges, calculated⟩
  refine ⟨⟨loops, cfg.depthFirstSearchReversePostOrder, numbers, ranges⟩, ?_⟩
  have made' : LoopAnalyzer.make (store.cfg func) = .ok loops := made
  have ordered' : buildLinearOrder (store.cfg func) loops =
      .ok cfg.depthFirstSearchReversePostOrder := ordered
  rw [LivenessAnalyzer.make, made', Result.ok_bind, ordered', Result.ok_bind,
    assert_of _ isValid, Result.ok_bind, numbered, Result.ok_bind, calculated, Result.ok_bind]
  rfl

/-- The pass takes an operand from each return it meets. -/
theorem carries_of_calcBlockRange {graph : LeechJit.Graph BlockId} {bb : BlockId} {id : InstId}
    (result : calcBlockRange store graph loops numbers ranges bb = .ok after)
    (inBlock : id ∈ store.instructions bb) : Carries store id := by
  intro inst found kind
  rcases Result.bind_eq_ok.mp result with ⟨block, blockFound, rest⟩
  rcases Result.bind_eq_ok.mp rest with ⟨initLiveSet, -, rest⟩
  rcases Result.bind_eq_ok.mp rest with ⟨afterInsts, insts, -⟩
  rw [← Store.instructions_eq (Store.block_eq_ok.mp blockFound)] at insts
  rcases foldlM_step insts (List.mem_reverse.mpr inBlock) with ⟨state, next, stepped⟩
  rcases Result.bind_eq_ok.mp stepped with ⟨again, foundAgain, rest⟩
  cases Option.some.inj ((Store.inst_eq_ok.mp foundAgain).symm.trans found)
  simp only [kind, InstKind.isPhi, Bool.false_eq_true, if_false] at rest
  rcases Result.bind_eq_ok.mp rest with ⟨interval, -, processed⟩
  rcases Result.bind_eq_ok.mp processed with ⟨inputs, consumed, -⟩
  exact carries_of_consumedInputs consumed kind

theorem carries_of_make (wellFormed : store.WellFormed func) {analyzer : LivenessAnalyzer}
    (returns : LivenessAnalyzer.make store (store.cfg func) = .ok analyzer) :
    store.RetsCarryValues func := by
  have analyzed := make_analyzed wellFormed returns
  rcases Result.bind_eq_ok.mp returns with ⟨loops, -, rest⟩
  rcases Result.bind_eq_ok.mp rest with ⟨linearOrder, -, rest⟩
  rcases Result.bind_eq_ok.mp rest with ⟨-, -, rest⟩
  rcases Result.bind_eq_ok.mp rest with ⟨numbers, -, rest⟩
  rcases Result.bind_eq_ok.mp rest with ⟨final, calculated, equal⟩
  cases equal
  rcases Result.bind_eq_ok.mp calculated with ⟨ranges, passed, -⟩
  intro id listed
  rcases List.mem_flatMap.mp listed with ⟨bb, member, inBlock⟩
  have inOrder : bb ∈ linearOrder := analyzed.ordering.mem_iff.mpr member
  rcases foldlM_step passed (List.mem_reverse.mpr inOrder) with ⟨before, next, stepped⟩
  exact carries_of_calcBlockRange stepped inBlock

/-- On a function without loops the analyzer returns exactly if every return carries a value. -/
theorem make_returns_iff (wellFormed : store.WellFormedAcyclic func) :
    (∃ graph analyzer, store.makeBBGraph func = .ok graph ∧
      LivenessAnalyzer.make store graph = .ok analyzer) ↔ store.RetsCarryValues func := by
  have isGraph : store.makeBBGraph func = .ok (store.cfg func) :=
    Store.makeBBGraph_eq wellFormed.nonempty
  rw [isGraph]
  constructor
  · rintro ⟨graph, analyzer, same, returns⟩
    cases same
    exact carries_of_make wellFormed.toWellFormed returns
  · intro carries
    rcases make_returns wellFormed carries with ⟨analyzer, returns⟩
    exact ⟨_, analyzer, rfl, returns⟩

/-- The smallest function: it returns nothing. -/
def voidReturn : Store :=
  .ofTables [{ kind := .kRet, bb := some 0 }] [{ instructions := [0], id := 0 }] []

def oneBlock : Function :=
  { bbs := [0], resType := .None }

theorem voidReturn_wellFormed : voidReturn.WellFormedAcyclic oneBlock where
  toWellFormed := Store.checkWellFormed_sound rfl
  ids := by decide
  acyclic := .of_index (by decide) (fun bb => bb) (by decide)

theorem make_returns_iff_voidReturn :
    (∃ graph analyzer, voidReturn.makeBBGraph oneBlock = .ok graph ∧
      LivenessAnalyzer.make voidReturn graph = .ok analyzer) ↔
        voidReturn.RetsCarryValues oneBlock :=
  make_returns_iff voidReturn_wellFormed

/-- The operand that the analyzer takes from the return is not there. -/
theorem not_make_voidReturn :
    voidReturn.WellFormedAcyclic oneBlock ∧
      ∃ graph, voidReturn.makeBBGraph oneBlock = .ok graph ∧
        LivenessAnalyzer.make voidReturn graph = .error .assertFailed :=
  ⟨voidReturn_wellFormed, _, rfl, rfl⟩

end LeechJit.Analysis
