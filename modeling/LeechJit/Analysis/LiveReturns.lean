import LeechJit.Analysis.LiveCover

/-! # When the pass over the blocks returns

Each step of the pass returns in the states that the steps before it leave behind. Only a
return without a value stops it.
-/

namespace LeechJit

/-- A fold whose steps return as long as something holds. -/
theorem foldlM_returns {α β : Type} (step : β → α → Result β) (values : List α)
    (holds : β → Prop) {start : β} (initially : holds start)
    (steps : ∀ value ∈ values, ∀ state, holds state →
      ∃ next, step state value = .ok next ∧ holds next) :
    ∃ final, values.foldlM step start = .ok final ∧ holds final := by
  induction values generalizing start with
  | nil => exact ⟨start, rfl, initially⟩
  | cons value rest induction =>
      rcases steps value (.head _) start initially with ⟨next, first, kept⟩
      rcases induction kept fun other inRest => steps other (.tail _ inRest) with
        ⟨final, others, atEnd⟩
      exact ⟨final, by rw [List.foldlM_cons, first, Result.ok_bind, others], atEnd⟩

theorem foldlM_returns_of_steps {α β : Type} (step : β → α → Result β) (values : List α)
    (start : β) (steps : ∀ value ∈ values, ∀ state, ∃ next, step state value = .ok next) :
    ∃ final, values.foldlM step start = .ok final := by
  rcases foldlM_returns step values (fun _ => True) trivial (fun value member state _ =>
    (steps value member state).imp fun _ result => ⟨result, trivial⟩) with ⟨final, result, -⟩
  exact ⟨final, result⟩

/-- A fold that returns has taken all its steps. -/
theorem foldlM_step {α β : Type} {step : β → α → Result β} {values : List α} {start final : β}
    (result : values.foldlM step start = .ok final) {value : α} (member : value ∈ values) :
    ∃ state next, step state value = .ok next := by
  induction values generalizing start with
  | nil => cases member
  | cons head rest induction =>
      rcases Result.bind_eq_ok.mp result with ⟨next, first, others⟩
      cases member with
      | head => exact ⟨start, next, first⟩
      | tail _ inRest => exact induction others inRest

end LeechJit

namespace LeechJit.Analysis

open IR LeechJit.Graph

variable {store : Store} {func : Function} {order front done : List BlockId}
  {loops : LoopAnalyzer BlockId} {numbers : LiveNumbers} {bb : BlockId} {val id : InstId}
  {ranges after : LiveRanges} {set set' : LiveSet}

/-- The block and its instructions are there. -/
def Stored (store : Store) (bb : BlockId) : Prop :=
  ∃ block, store.blocks bb = some block ∧
    ∀ id ∈ block.instructions, ∃ inst, store.insts id = some inst

theorem stored_of_mem (wellFormed : store.WellFormed func) (member : bb ∈ func.bbs) :
    Stored store bb := by
  rcases wellFormed.blocks bb member with ⟨block, found⟩
  refine ⟨block, found, fun id inBlock => ?_⟩
  rw [← Store.instructions_eq found] at inBlock
  rcases wellFormed.insts bb member id inBlock with ⟨inst, instFound, -⟩
  exact ⟨inst, instFound⟩

/-! ## Numbers -/

theorem numberInst_returns (numbers : LiveNumbers) (bbLiveNum : Nat)
    (found : ∃ inst, store.insts id = some inst) :
    ∃ after, numberInst store bbLiveNum numbers id = .ok after ∧
      numbers.curLive ≤ after.curLive := by
  rcases found with ⟨inst, found⟩
  rw [numberInst, Store.inst_eq_ok.mpr found, Result.ok_bind]
  refine ⟨_, rfl, ?_⟩
  cases inst.kind.isPhi <;> simp

theorem numberBlock_returns (numbers : LiveNumbers) (stored : Stored store bb) :
    ∃ after, numberBlock store numbers bb = .ok after := by
  rcases stored with ⟨block, found, insts⟩
  rcases foldlM_returns (numberInst store numbers.curLive) block.instructions
    (fun state => numbers.curLive ≤ state.curLive) (Nat.le_refl _) (fun id inBlock state grows =>
      (numberInst_returns state numbers.curLive (insts id inBlock)).imp fun _ result =>
        ⟨result.1, Nat.le_trans grows result.2⟩) with ⟨next, numbered, grows⟩
  have valid : LiveInterval.make numbers.curLive (next.curLive + kLiveNumStep) =
      .ok { start := numbers.curLive, «end» := next.curLive + kLiveNumStep } :=
    LiveInterval.make_eq_ok.mpr ⟨Nat.le_add_right_of_le grows, rfl⟩
  simp only [numberBlock, Store.block_eq_ok.mpr found, Result.ok_bind, numbered, valid]
  exact ⟨_, rfl⟩

theorem fillLiveNumbers_returns (stored : ∀ bb ∈ order, Stored store bb) :
    ∃ numbers, fillLiveNumbers store order = .ok numbers :=
  foldlM_returns_of_steps (numberBlock store) order {} fun bb member numbers =>
    numberBlock_returns numbers (stored bb member)

/-! ## Live sets -/

theorem addPhiInputs_returns (bb : BlockId) (set : LiveSet)
    (found : ∃ inst, store.insts id = some inst) :
    ∃ after, addPhiInputs store bb set id = .ok after := by
  rcases found with ⟨inst, found⟩
  rw [addPhiInputs, Store.inst_eq_ok.mpr found, Result.ok_bind]
  cases inst.kind <;> exact ⟨_, rfl⟩

theorem processSucc_returns (liveSets : BlockId → Option LiveSet) (bb : BlockId) (set : LiveSet)
    {succ : BlockId} (stored : Stored store succ) :
    ∃ after, processSucc store liveSets bb set succ = .ok after := by
  rcases stored with ⟨block, found, insts⟩
  unfold processSucc
  split
  · exact ⟨set, rfl⟩
  · rw [Store.block_eq_ok.mpr found, Result.ok_bind]
    apply foldlM_returns_of_steps
    exact fun id inBlock set => addPhiInputs_returns bb set (insts id inBlock)

theorem calcInitLiveSet_returns {graph : LeechJit.Graph BlockId}
    {liveSets : BlockId → Option LiveSet} (unknown : liveSets bb = none)
    (stored : ∀ succ ∈ graph.succs bb, Stored store succ) :
    ∃ set, calcInitLiveSet store graph liveSets bb = .ok set := by
  rw [calcInitLiveSet, assert_of _ unknown, Result.ok_bind]
  apply foldlM_returns_of_steps
  exact fun succ isSucc set => processSucc_returns liveSets bb set (stored succ isSucc)

/-! ## Instructions -/

/-- A return brings a value along. -/
def Carries (store : Store) (id : InstId) : Prop :=
  ∀ inst, store.insts id = some inst → inst.kind = .kRet → inst.inputs ≠ []

theorem consumedInputs_returns {inst : Inst} (shaped : inst.Shaped)
    (carries : inst.kind = .kRet → inst.inputs ≠ []) :
    ∃ inputs, consumedInputs inst = .ok inputs := by
  have single : inst.inputs ≠ [] →
      ∃ inputs, (do let input ← inst.inputAt 0; return [input]) = Except.ok inputs := by
    intro nonempty
    cases listed : inst.inputs with
    | nil => exact absurd listed nonempty
    | cons first rest => exact ⟨[first], by simp [Inst.inputAt, listed]⟩
  have nonempty : inst.inputs.length = 1 → inst.inputs ≠ [] := by
    intro one none
    rw [none] at one
    cases one
  cases kind : inst.kind with
  | kBinOp oper =>
      simp only [Inst.Shaped, kind] at shaped
      simp only [consumedInputs, kind]
      rcases List.length_eq_two.mp shaped with ⟨left, right, listed⟩
      exact ⟨[left, right], by simp [Inst.inputAt, listed]⟩
  | kRet =>
      simp only [consumedInputs, kind]
      exact single (carries kind)
  | kUnaryOp _ | kCast | kIf _ _ =>
      simp only [Inst.Shaped, kind] at shaped
      simp only [consumedInputs, kind]
      exact single (nonempty shaped)
  | kCall _ | kParam _ | kConst _ | kJump _ | kPhi _ =>
      simp only [consumedInputs, kind]
      exact ⟨_, rfl⟩

/-- A return without a value has no input to consume. -/
theorem carries_of_consumedInputs {inst : Inst} {inputs : List InstId}
    (result : consumedInputs inst = .ok inputs) (kind : inst.kind = .kRet) : inst.inputs ≠ [] := by
  intro none
  simp [consumedInputs, kind, Inst.inputAt, none] at result

theorem consumeInput_returns {bbLiveNum liveNum : Nat} (before : bbLiveNum ≤ liveNum)
    (state : LiveSet × LiveRanges) :
    ∃ after, consumeInput bbLiveNum liveNum state val = .ok after := by
  have valid : LiveInterval.make bbLiveNum liveNum =
      .ok { start := bbLiveNum, «end» := liveNum } := LiveInterval.make_eq_ok.mpr ⟨before, rfl⟩
  rw [consumeInput, valid]
  exact ⟨_, rfl⟩

theorem startInterval_returns {liveNum : Nat} {starts ends : Set Nat}
    {known : Option LiveInterval} (hull : Hull starts ends known)
    (later : ∀ num ∈ ends, liveNum + 2 ≤ num) :
    ∃ interval, startInterval liveNum known = .ok interval := by
  cases known with
  | none => exact ⟨_, LiveInterval.make_eq_ok.mpr ⟨Nat.le_add_right _ _, rfl⟩⟩
  | some old =>
      have bound := later old.end hull.2.1.1
      exact ⟨_, LiveInterval.validate_eq_ok.mpr ⟨Nat.le_of_add_right_le bound, rfl⟩⟩

theorem calcInstRange_returns {bbLiveNum : Nat} {inst : Inst} (found : store.insts id = some inst)
    (shaped : inst.Shaped) (carries : Carries store id) (before : bbLiveNum ≤ numbers.liveNum id)
    {starts ends : Set Nat} (hull : Hull starts ends (ranges.liveIntervals id))
    (later : ∀ num ∈ ends, numbers.liveNum id + 2 ≤ num) :
    ∃ after, calcInstRange store numbers bbLiveNum (set, ranges) id = .ok after := by
  rcases startInterval_returns hull later with ⟨interval, started⟩
  rcases consumedInputs_returns shaped (carries inst found) with ⟨inputs, consumed⟩
  simp only [calcInstRange, Store.inst_eq_ok.mpr found, Result.ok_bind]
  split
  · exact ⟨_, rfl⟩
  · simp only [started, processInputs, consumed, Result.ok_bind]
    apply foldlM_returns_of_steps
    exact fun _ _ state => consumeInput_returns before state

/-! ## A block -/

section Block

variable {graph : LeechJit.Graph BlockId} {oldStarts oldEnds : InstId → Set Nat}
  {before : LiveRanges} {rest : List InstId}

theorem Within.returns
    (within : Within store graph order numbers bb oldStarts oldEnds before [] set ranges)
    (stepwise : ∀ front id back, rest = front ++ id :: back →
      Stepwise store numbers bb oldEnds id back)
    (found : ∀ id ∈ rest, ∃ inst, store.insts id = some inst)
    (carries : ∀ id ∈ rest, Carries store id)
    (inside : ∀ id ∈ rest, (numbers.liveInterval bb).start ≤ numbers.liveNum id) :
    ∃ state, rest.reverse.foldlM
      (calcInstRange store numbers (numbers.liveInterval bb).start) (set, ranges) = .ok state := by
  induction rest with
  | nil => exact ⟨(set, ranges), rfl⟩
  | cons id rest induction =>
      have tailStepwise : ∀ front other back, rest = front ++ other :: back →
          Stepwise store numbers bb oldEnds other back := fun front other back split =>
        stepwise (id :: front) other back (by rw [split, List.cons_append])
      rcases induction tailStepwise (fun other inRest => found other (.tail _ inRest))
        (fun other inRest => carries other (.tail _ inRest))
        (fun other inRest => inside other (.tail _ inRest)) with ⟨⟨nextSet, next⟩, others⟩
      have behind := within.run tailStepwise others
      have here := stepwise [] id rest rfl
      rcases found id (.head _) with ⟨inst, instFound⟩
      rcases calcInstRange_returns instFound (here.shaped inst instFound)
        (carries id (.head _)) (inside id (.head _)) (behind.hulls id)
        (liveNum_le_of_endsIn here.fresh here.later here.inside here.past) with ⟨state, result⟩
      refine ⟨state, ?_⟩
      rw [List.reverse_cons, List.foldlM_append, others, Result.ok_bind, List.foldlM_cons, result,
        Result.ok_bind]
      rfl

end Block

theorem calcInstRange_phis_returns {bbLiveNum : Nat} {ids : List InstId}
    {state : LiveSet × LiveRanges} (phis : ∀ id ∈ ids, store.IsPhi id) :
    ids.foldlM (calcInstRange store numbers bbLiveNum) state = .ok state := by
  induction ids with
  | nil => rfl
  | cons id rest induction =>
      rcases phis id (.head _) with ⟨inst, stored, isPhi⟩
      have first : calcInstRange store numbers bbLiveNum state id = .ok state := by
        simp only [calcInstRange, Store.inst_eq_ok.mpr stored, Result.ok_bind, isPhi, if_true,
          Result.pure_eq_ok]
      rw [List.foldlM_cons, first, Result.ok_bind]
      exact induction fun other inRest => phis other (.tail _ inRest)

theorem finishInst_returns (state : LiveSet × List InstId)
    (found : ∃ inst, store.insts id = some inst) :
    ∃ after, finishInst store state id = .ok after := by
  rcases found with ⟨inst, found⟩
  rw [finishInst, Store.inst_eq_ok.mpr found, Result.ok_bind]
  exact ⟨_, rfl⟩

theorem Ranged.block_returns (ordering : Ordering store func order numbers)
    (split : order = front ++ bb :: done)
    (ranged : Ranged store func order loops numbers done ranges)
    (carries : ∀ id ∈ store.instructions bb, Carries store id)
    (free : ∃ info, loops.getLoopInfo bb = .ok info ∧ info.header = none) :
    ∃ after, calcBlockRange store (store.cfg func) loops numbers ranges bb = .ok after := by
  have member : bb ∈ order := by
    rw [split]
    simp
  have bbMem := ordering.mem_iff.mp member
  have wellFormed := ordering.wellFormed
  rcases sections wellFormed bbMem with ⟨phis, others, parts⟩
  rcases stored_of_mem wellFormed bbMem with ⟨block, found, insts⟩
  have notDone : bb ∉ done := by
    have nodup := ordering.nodup
    rw [split] at nodup
    exact (List.nodup_cons.mp (List.nodup_append.mp nodup).2.1).1
  rcases calcInitLiveSet_returns (ranged.sets.unknown bb notDone)
    (fun succ isSucc => stored_of_mem wellFormed
      (wellFormed.closed.succs_mem bb bbMem succ isSucc)) with ⟨initLiveSet, initial⟩
  have start := ranged.start ordering split initial
  have inBlock : ∀ id ∈ others, id ∈ store.instructions bb := by
    intro id inOthers
    rw [parts.whole]
    exact List.mem_append_right _ inOthers
  rw [← Store.instructions_eq found] at insts
  rcases start.returns
    (fun before id back => ordering.stepwise parts member (ranged.past ordering split))
    (fun id inOthers => insts id (inBlock id inOthers))
    (fun id inOthers => carries id (inBlock id inOthers))
    (fun id inOthers => by
      have bounds := ordering.bounds member (inBlock id inOthers) (parts.notPhis id inOthers)
      omega) with ⟨⟨set, afterInsts⟩, ofOthers⟩
  have ofInsts : block.instructions.reverse.foldlM
      (calcInstRange store numbers (numbers.liveInterval bb).start)
      (initLiveSet, updateAll ranges initLiveSet (numbers.liveInterval bb)) =
        .ok (set, afterInsts) := by
    rw [← Store.instructions_eq found, parts.whole, List.reverse_append, List.foldlM_append,
      ofOthers, Result.ok_bind]
    exact calcInstRange_phis_returns fun id isPhi => parts.isPhi id (List.mem_reverse.mp isPhi)
  rcases foldlM_returns_of_steps (finishInst store) block.instructions (set, afterInsts.toZero)
    (fun id member state => finishInst_returns state
      (insts id (by rw [Store.instructions_eq found]; exact member))) with
    ⟨⟨liveIn, toZero⟩, finished⟩
  rcases free with ⟨info, infoAt, noHeader⟩
  have notHeader : ¬ (info.header = some bb ∧ info.reducible = true) := by
    rw [noHeader]
    simp
  rw [updateAll] at ofInsts
  simp only [calcBlockRange, Store.block_eq_ok.mpr found, Result.ok_bind, initial, ofInsts,
    finished, infoAt, if_neg notHeader]
  exact ⟨_, rfl⟩

/-! ## What gets an empty interval -/

/-- An instruction that produces no value. -/
def NoValue (store : Store) (id : InstId) : Prop :=
  ∃ inst, store.insts id = some inst ∧ producesValue inst.kind = false

theorem NoValue.not_isPhi (noValue : NoValue store id) : ¬ store.IsPhi id := by
  rcases noValue with ⟨inst, stored, produces⟩
  rintro ⟨other, otherStored, isPhi⟩
  cases Option.some.inj (stored.symm.trans otherStored)
  cases kind : inst.kind <;> simp [kind, producesValue, InstKind.isPhi] at *

theorem calcInstRange_toZero {bbLiveNum : Nat} {state next : LiveSet × LiveRanges}
    (result : calcInstRange store numbers bbLiveNum state id = .ok next) :
    next.2.toZero = state.2.toZero := by
  rcases state with ⟨set, ranges⟩
  rcases next with ⟨set', after⟩
  rcases Result.bind_eq_ok.mp result with ⟨inst, found, rest⟩
  dsimp only at rest
  split at rest
  · cases rest
    rfl
  · rcases Result.bind_eq_ok.mp rest with ⟨interval, -, rest⟩
    rcases Result.bind_eq_ok.mp rest with ⟨inputs, -, folded⟩
    rw [(consumeInput_fold folded).1]
    exact (updateAll_updatedAll _ inputs _).toZero

theorem calcInstRange_fold_toZero {bbLiveNum : Nat} {ids : List InstId}
    {state next : LiveSet × LiveRanges}
    (result : ids.foldlM (calcInstRange store numbers bbLiveNum) state = .ok next) :
    next.2.toZero = state.2.toZero := by
  induction ids generalizing state with
  | nil =>
      cases result
      rfl
  | cons id rest induction =>
      rcases Result.bind_eq_ok.mp result with ⟨middle, first, others⟩
      exact (induction others).trans (calcInstRange_toZero first)

theorem finishInst_toZero {toZero toZero' : List InstId} {other : InstId}
    (result : finishInst store (set, toZero) id = .ok (set', toZero')) :
    other ∈ toZero' ↔ other ∈ toZero ∨ (other = id ∧ NoValue store other) := by
  rcases Result.bind_eq_ok.mp result with ⟨inst, found, equal⟩
  have stored := Store.inst_eq_ok.mp found
  simp only [Result.pure_eq_ok, Except.ok.injEq, Prod.mk.injEq] at equal
  rcases equal with ⟨-, rfl⟩
  have noValue_iff : other = id → (NoValue store other ↔ producesValue inst.kind = false) := by
    rintro rfl
    simp [NoValue, stored]
  cases produces : producesValue inst.kind with
  | true =>
      simp only [if_true]
      constructor
      · exact .inl
      · rintro (old | ⟨same, noValue⟩)
        · exact old
        · rw [noValue_iff same, produces] at noValue
          cases noValue
  | false =>
      simp only [Bool.false_eq_true, if_false, List.mem_append, List.mem_singleton]
      apply or_congr_right
      exact (and_iff_left_of_imp fun same => (noValue_iff same).mpr produces).symm

theorem finishInst_fold_toZero {ids toZero toZero' : List InstId} {other : InstId}
    (result : ids.foldlM (finishInst store) (set, toZero) = .ok (set', toZero')) :
    other ∈ toZero' ↔ other ∈ toZero ∨ (other ∈ ids ∧ NoValue store other) := by
  induction ids generalizing set toZero with
  | nil =>
      cases result
      simp
  | cons id rest induction =>
      rcases Result.bind_eq_ok.mp result with ⟨⟨nextSet, nextZero⟩, first, others⟩
      rw [induction others, finishInst_toZero first, List.mem_cons, or_and_right, or_assoc]

theorem calcBlockRange_toZero {graph : LeechJit.Graph BlockId}
    (result : calcBlockRange store graph loops numbers ranges bb = .ok after) :
    id ∈ after.toZero ↔
      id ∈ ranges.toZero ∨ (id ∈ store.instructions bb ∧ NoValue store id) := by
  rcases Result.bind_eq_ok.mp result with ⟨block, found, rest⟩
  rcases Result.bind_eq_ok.mp rest with ⟨initLiveSet, -, rest⟩
  rcases Result.bind_eq_ok.mp rest with ⟨⟨set, afterInsts⟩, insts, rest⟩
  rcases Result.bind_eq_ok.mp rest with ⟨⟨liveIn, toZero⟩, finished, rest⟩
  rcases Result.bind_eq_ok.mp rest with ⟨loopInfo, -, rest⟩
  have collected : id ∈ toZero ↔
      id ∈ ranges.toZero ∨ (id ∈ store.instructions bb ∧ NoValue store id) := by
    have kept := calcInstRange_fold_toZero insts
    dsimp only at kept
    rw [← updateAll, (updateAll_updatedAll ranges initLiveSet _).toZero] at kept
    rw [finishInst_fold_toZero finished, kept, Store.instructions_eq (Store.block_eq_ok.mp found)]
  split at rest
  · rcases Result.bind_eq_ok.mp rest with ⟨lastBB, -, extended⟩
    rw [(extendOverLoop_fold extended).1, (updateAll_updatedAll _ liveIn _).toZero]
    exact collected
  · cases rest
    exact collected

theorem calcBlockRange_fold_toZero {graph : LeechJit.Graph BlockId} {bbs : List BlockId}
    (result : bbs.foldlM (calcBlockRange store graph loops numbers) ranges = .ok after) :
    id ∈ after.toZero ↔
      id ∈ ranges.toZero ∨ (id ∈ bbs.flatMap store.instructions ∧ NoValue store id) := by
  induction bbs generalizing ranges with
  | nil =>
      cases result
      simp
  | cons bb rest induction =>
      rcases Result.bind_eq_ok.mp result with ⟨next, first, others⟩
      rw [induction others, calcBlockRange_toZero first, List.flatMap_cons, List.mem_append,
        or_and_right, or_assoc]

theorem zeroInterval_returns (known : ranges.liveIntervals id ≠ none) :
    ∃ after interval, zeroInterval ranges id = .ok after ∧ interval.empty = true ∧
      after = ranges.setLiveInterval id interval := by
  cases stored : ranges.liveIntervals id with
  | none => exact absurd stored known
  | some liveIn =>
      have valid : liveIn.setEnd liveIn.start = .ok { liveIn with «end» := liveIn.start } :=
        LiveInterval.validate_eq_ok.mpr ⟨Nat.le_refl _, rfl⟩
      exact ⟨_, { liveIn with «end» := liveIn.start }, by simp only [zeroInterval, stored, valid]; rfl,
        by simp [LiveInterval.empty], rfl⟩

/-- A value that has an interval keeps one. -/
theorem zeroInterval_fold_returns {ids : List InstId}
    (known : ∀ id ∈ ids, ranges.liveIntervals id ≠ none) :
    ∃ after, ids.foldlM zeroInterval ranges = .ok after := by
  rcases foldlM_returns zeroInterval ids
    (fun ranges => ∀ id ∈ ids, ranges.liveIntervals id ≠ none) known
    (fun id member ranges known => by
      rcases zeroInterval_returns (known id member) with ⟨after, interval, result, -, rfl⟩
      refine ⟨_, result, fun other otherMem => ?_⟩
      cases decEq other id with
      | isTrue same => simp [same]
      | isFalse different =>
          rw [setLiveInterval_of_ne different]
          exact known other otherMem) with ⟨after, result, -⟩
  exact ⟨after, result⟩

theorem zeroInterval_fold_empty {ids : List InstId}
    (result : ids.foldlM zeroInterval ranges = .ok after) (member : id ∈ ids) :
    ∃ interval, after.liveIntervals id = some interval ∧ interval.empty = true := by
  induction ids using List.reverseRecOn generalizing after with
  | nil => cases member
  | append_singleton front last induction =>
      rw [List.foldlM_append] at result
      rcases Result.bind_eq_ok.mp result with ⟨next, others, atLast⟩
      rcases Result.bind_eq_ok.mp atLast with ⟨final, zeroed, equal⟩
      cases equal
      cases stored : next.liveIntervals last with
      | none =>
          simp only [zeroInterval, stored] at zeroed
          cases zeroed
      | some liveIn =>
          rcases zeroInterval_returns (by simp [stored] : next.liveIntervals last ≠ none) with
            ⟨again, interval, result, isEmpty, equal⟩
          cases Except.ok.inj (zeroed.symm.trans result)
          subst equal
          cases decEq id last with
          | isTrue same =>
              subst same
              exact ⟨interval, setLiveInterval_self, isEmpty⟩
          | isFalse different =>
              rw [setLiveInterval_of_ne different]
              have inFront : id ∈ front := by simpa [different] using member
              exact induction others inFront

end LeechJit.Analysis
