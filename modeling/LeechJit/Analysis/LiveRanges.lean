import Mathlib.Order.Bounds.Basic
import LeechJit.Analysis.LiveNumbers
import LeechJit.Analysis.LiveSets

/-! # The bounds of the live intervals

An interval that is only ever updated reaches from the least start to the
greatest end it was given; the definition of a value cuts the starts given to it
so far.
-/

namespace LeechJit.Analysis

open IR LeechJit.Graph

/-- From the least of `starts` to the greatest of `ends`, and not on the stack. -/
def Hull (starts ends : Set Nat) : Option LiveInterval → Prop
  | none => starts = ∅ ∧ ends = ∅
  | some interval => IsLeast starts interval.start ∧ IsGreatest ends interval.end ∧
      interval.onStack = false

variable {starts ends : Set Nat} {ranges after : LiveRanges} {val : InstId}
  {interval : LiveInterval}

@[simp] theorem setLiveInterval_self :
    (ranges.setLiveInterval val interval).liveIntervals val = some interval :=
  Function.update_self ..

theorem setLiveInterval_of_ne {other : InstId} (different : other ≠ val) :
    (ranges.setLiveInterval val interval).liveIntervals other = ranges.liveIntervals other :=
  Function.update_of_ne different ..

theorem Hull.update (unplaced : interval.onStack = false)
    (hull : Hull starts ends (ranges.liveIntervals val)) :
    Hull (insert interval.start starts) (insert interval.end ends)
      ((ranges.updateLiveInterval val interval).liveIntervals val) := by
  cases stored : ranges.liveIntervals val with
  | none =>
      rw [stored] at hull
      simp [LiveRanges.updateLiveInterval, LiveRanges.setLiveInterval, stored, Hull, hull.1,
        hull.2, unplaced]
  | some old =>
      rw [stored] at hull
      have least := hull.1.insert interval.start
      have greatest := hull.2.1.insert interval.end
      rw [min_comm] at least
      rw [max_comm] at greatest
      simpa [LiveRanges.updateLiveInterval, LiveRanges.setLiveInterval, stored, Hull,
        LiveInterval.update] using ⟨least, greatest, hull.2.2⟩

theorem updateLiveInterval_of_ne {other : InstId} (different : other ≠ val) :
    (ranges.updateLiveInterval val interval).liveIntervals other =
      ranges.liveIntervals other := by
  cases stored : ranges.liveIntervals val <;>
    simp [LiveRanges.updateLiveInterval, LiveRanges.setLiveInterval, stored, different]

theorem updateLiveInterval_rest :
    (ranges.updateLiveInterval val interval).liveSets = ranges.liveSets ∧
      (ranges.updateLiveInterval val interval).toZero = ranges.toZero := by
  cases stored : ranges.liveIntervals val <;>
    simp [LiveRanges.updateLiveInterval, LiveRanges.setLiveInterval, stored]

/-! ## Updates of many values at once -/

/-- Every value of a list gets the same interval. -/
def updateAll (ranges : LiveRanges) (vals : List InstId) (interval : LiveInterval) :
    LiveRanges :=
  vals.foldl (fun ranges val => ranges.updateLiveInterval val interval) ranges

/-- What `updateAll` has done. -/
structure UpdatedAll (ranges : LiveRanges) (vals : List InstId) (interval : LiveInterval)
    (after : LiveRanges) : Prop where
  others : ∀ val, val ∉ vals → after.liveIntervals val = ranges.liveIntervals val
  hulls : interval.onStack = false → ∀ val ∈ vals, ∀ starts ends,
    Hull starts ends (ranges.liveIntervals val) →
    Hull (insert interval.start starts) (insert interval.end ends) (after.liveIntervals val)
  liveSets : after.liveSets = ranges.liveSets
  toZero : after.toZero = ranges.toZero

theorem updateAll_updatedAll (ranges : LiveRanges) (vals : List InstId)
    (interval : LiveInterval) : UpdatedAll ranges vals interval (updateAll ranges vals interval) := by
  induction vals generalizing ranges with
  | nil => exact ⟨fun _ _ => rfl, by simp, rfl, rfl⟩
  | cons first rest induction =>
      have ⟨others, hulls, liveSets, toZero⟩ :=
        induction (ranges.updateLiveInterval first interval)
      have sameRest : (ranges.updateLiveInterval first interval).liveSets = ranges.liveSets ∧
          (ranges.updateLiveInterval first interval).toZero = ranges.toZero :=
        updateLiveInterval_rest
      constructor
      case others =>
        intro val notMem
        rw [List.mem_cons, not_or] at notMem
        exact (others val notMem.2).trans (updateLiveInterval_of_ne notMem.1)
      case hulls =>
        intro unplaced val member starts ends hull
        by_cases inRest : val ∈ rest
        · by_cases same : val = first
          · subst same
            have again := hulls unplaced val inRest _ _ (hull.update unplaced)
            rwa [Set.insert_idem, Set.insert_idem] at again
          · apply hulls unplaced val inRest
            rw [updateLiveInterval_of_ne same]
            exact hull
        · have same : val = first := by
            simpa [inRest] using member
          subst same
          rw [updateAll, List.foldl_cons, ← updateAll, others val inRest]
          exact hull.update unplaced
      case liveSets => exact liveSets.trans sameRest.1
      case toZero => exact toZero.trans sameRest.2

theorem consumeInput_fold {bbLiveNum liveNum : Nat} {set set' : LiveSet} {inputs : List InstId}
    (result : inputs.foldlM (consumeInput bbLiveNum liveNum) (set, ranges) = .ok (set', after)) :
    after = updateAll ranges inputs { start := bbLiveNum, «end» := liveNum } ∧
      ∀ val, val ∈ set' ↔ val ∈ set ∨ val ∈ inputs := by
  induction inputs generalizing set ranges with
  | nil =>
      cases result
      simp [updateAll]
  | cons first rest induction =>
      rcases Result.bind_eq_ok.mp result with ⟨next, consumed, others⟩
      rcases Result.bind_eq_ok.mp consumed with ⟨interval, valid, equal⟩
      cases equal
      rw [(LiveInterval.make_eq_ok.mp valid).2] at others
      rcases induction others with ⟨rfl, mem_iff⟩
      refine ⟨rfl, fun val => ?_⟩
      rw [mem_iff, List.mem_insert_iff, List.mem_cons]
      tauto

theorem extendOverLoop_fold {start «end» : Nat} {vals : List InstId}
    (result : vals.foldlM (extendOverLoop start «end») ranges = .ok after) :
    after = updateAll ranges vals { start := start, «end» := «end» } ∧
      (vals ≠ [] → start ≤ «end») := by
  induction vals generalizing ranges with
  | nil =>
      cases result
      simp [updateAll]
  | cons first rest induction =>
      rcases Result.bind_eq_ok.mp result with ⟨next, extended, others⟩
      rcases Result.bind_eq_ok.mp extended with ⟨interval, valid, equal⟩
      cases equal
      have isValid := LiveInterval.make_eq_ok.mp valid
      rw [isValid.2] at others
      exact ⟨(induction others).1, fun _ => isValid.1⟩

/-! ## One instruction -/

theorem consumedInputs_eq_ok {inst : Inst} {inputs : List InstId} (shaped : inst.Shaped)
    (notPhi : inst.kind.isPhi = false) (result : consumedInputs inst = .ok inputs) :
    inputs = inst.inputs := by
  have single : (do let input ← inst.inputAt 0; return [input]) = Except.ok inputs →
      inst.inputs.length ≤ 1 → inputs = inst.inputs := by
    intro result short
    rcases Result.bind_eq_ok.mp result with ⟨input, found, equal⟩
    cases equal
    match listed : inst.inputs with
    | [] => simp [Inst.inputAt, listed] at found
    | [only] =>
        simp only [Inst.inputAt, listed, List.getElem?_cons_zero, Except.ok.injEq] at found
        rw [found]
    | _ :: _ :: _ => simp [listed] at short
  cases kind : inst.kind with
  | kPhi vars =>
      rw [kind] at notPhi
      cases notPhi
  | kBinOp oper =>
      simp only [Inst.Shaped, kind] at shaped
      simp only [consumedInputs, kind] at result
      rcases Result.bind_eq_ok.mp result with ⟨left, leftAt, rest⟩
      rcases Result.bind_eq_ok.mp rest with ⟨right, rightAt, equal⟩
      cases equal
      match listed : inst.inputs with
      | [first, second] =>
          simp only [Inst.inputAt, listed, List.getElem?_cons_zero, Except.ok.injEq] at leftAt
          simp only [Inst.inputAt, listed, List.getElem?_cons_succ, List.getElem?_cons_zero,
            Except.ok.injEq] at rightAt
          rw [leftAt, rightAt]
      | [] => simp [listed] at shaped
      | [_] => simp [listed] at shaped
      | _ :: _ :: _ :: _ => simp [listed] at shaped
  | kCall callee =>
      simp only [consumedInputs, kind, Except.ok.injEq] at result
      exact result.symm
  | kRet =>
      simp only [Inst.Shaped, kind] at shaped
      simp only [consumedInputs, kind] at result
      exact single result shaped
  | kIf trueBB falseBB =>
      simp only [Inst.Shaped, kind] at shaped
      simp only [consumedInputs, kind] at result
      exact single result (Nat.le_of_eq shaped)
  | kCast =>
      simp only [Inst.Shaped, kind] at shaped
      simp only [consumedInputs, kind] at result
      exact single result (Nat.le_of_eq shaped)
  | kUnaryOp oper =>
      simp only [Inst.Shaped, kind] at shaped
      simp only [consumedInputs, kind] at result
      exact single result (Nat.le_of_eq shaped)
  | kConst const =>
      simp only [Inst.Shaped, kind] at shaped
      simp only [consumedInputs, kind, Except.ok.injEq] at result
      rw [shaped.2, ← result]
  | kJump target =>
      simp only [Inst.Shaped, kind] at shaped
      simp only [consumedInputs, kind, Except.ok.injEq] at result
      rw [shaped, ← result]
  | kParam idx =>
      simp only [Inst.Shaped, kind] at shaped
      simp only [consumedInputs, kind, Except.ok.injEq] at result
      rw [shaped, ← result]

variable {store : Store} {numbers : LiveNumbers} {bb : BlockId} {set set' : LiveSet}

/-- What the analyzer does at an instruction that is not a phi. -/
structure InstRanged (store : Store) (numbers : LiveNumbers) (bbLiveNum : Nat) (id : InstId)
    (set : LiveSet) (ranges : LiveRanges) (set' : LiveSet) (after : LiveRanges) : Prop where
  set : ∀ val, val ∈ set' ↔ val ∈ store.operands id ∨ (val ≠ id ∧ val ∈ set)
  own : id ∉ store.operands id → ∀ starts ends, Hull starts ends (ranges.liveIntervals id) →
    (∀ end' ∈ ends, numbers.liveNum id + 2 ≤ end') →
    Hull {numbers.liveNum id} (insert (numbers.liveNum id + 2) ends) (after.liveIntervals id)
  operands : ∀ val ∈ store.operands id, val ≠ id → ∀ starts ends,
    Hull starts ends (ranges.liveIntervals val) →
    Hull (insert bbLiveNum starts) (insert (numbers.liveNum id) ends) (after.liveIntervals val)
  others : ∀ val, val ≠ id → val ∉ store.operands id →
    after.liveIntervals val = ranges.liveIntervals val
  liveSets : after.liveSets = ranges.liveSets
  toZero : after.toZero = ranges.toZero

theorem Hull.start {liveNum : Nat} {known : Option LiveInterval}
    (hull : Hull starts ends known) (later : ∀ end' ∈ ends, liveNum + 2 ≤ end')
    (computed : startInterval liveNum known = .ok interval) :
    Hull {liveNum} (insert (liveNum + 2) ends) (some interval) := by
  cases known with
  | none =>
      rw [hull.2, (LiveInterval.make_eq_ok.mp computed).2]
      simp [Hull, kLiveNumStep]
  | some old =>
      have equal := (LiveInterval.validate_eq_ok.mp computed).2
      have bound := later old.end hull.2.1.1
      subst equal
      refine ⟨isLeast_singleton, ⟨Set.mem_insert_of_mem _ hull.2.1.1, ?_⟩, hull.2.2⟩
      intro end' member
      rcases Set.mem_insert_iff.mp member with rfl | isEnd
      · exact bound
      · exact hull.2.1.2 isEnd

theorem calcInstRange_eq_ok {bbLiveNum : Nat} {id : InstId}
    (shaped : ∀ inst, store.insts id = some inst → inst.Shaped) (notPhi : ¬ store.IsPhi id)
    (result : calcInstRange store numbers bbLiveNum (set, ranges) id = .ok (set', after)) :
    InstRanged store numbers bbLiveNum id set ranges set' after := by
  rcases Result.bind_eq_ok.mp result with ⟨inst, found, rest⟩
  have stored := Store.inst_eq_ok.mp found
  have kindNotPhi : inst.kind.isPhi = false := by
    cases isPhi : inst.kind.isPhi with
    | true => exact absurd ⟨inst, stored, isPhi⟩ notPhi
    | false => rfl
  simp only [kindNotPhi, Bool.false_eq_true, if_false] at rest
  rcases Result.bind_eq_ok.mp rest with ⟨interval, computed, rest⟩
  rcases Result.bind_eq_ok.mp rest with ⟨inputs, consumed, folded⟩
  have inputsEq := consumedInputs_eq_ok (shaped inst stored) kindNotPhi consumed
  have operandsEq : store.operands id = inputs := by
    simp [Store.operands, stored, kindNotPhi, inputsEq]
  rcases consumeInput_fold folded with ⟨rfl, mem_iff⟩
  have updated := updateAll_updatedAll (ranges.setLiveInterval id interval) inputs
    { start := bbLiveNum, «end» := numbers.liveNum id }
  have kept : ∀ val, val ≠ id →
      (ranges.setLiveInterval id interval).liveIntervals val = ranges.liveIntervals val :=
    fun val different => setLiveInterval_of_ne different
  constructor
  case set =>
    intro val
    rw [mem_iff, operandsEq, List.mem_filter]
    simp only [ne_eq, decide_eq_true_eq]
    tauto
  case own =>
    intro notOwn starts ends hull later
    rw [operandsEq] at notOwn
    rw [updated.others id notOwn]
    rw [setLiveInterval_self]
    exact hull.start later computed
  case operands =>
    intro val member different starts ends hull
    rw [operandsEq] at member
    apply updated.hulls rfl val member
    rw [kept val different]
    exact hull
  case others =>
    intro val different notMem
    rw [operandsEq] at notMem
    exact (updated.others val notMem).trans (kept val different)
  case liveSets => exact updated.liveSets
  case toZero => exact updated.toZero

theorem calcInstRange_phi {bbLiveNum : Nat} {id : InstId} {state result : LiveSet × LiveRanges}
    (isPhi : store.IsPhi id)
    (computed : calcInstRange store numbers bbLiveNum state id = .ok result) : result = state := by
  rcases isPhi with ⟨inst, stored, kind⟩
  simp only [calcInstRange, Store.inst_eq_ok.mpr stored, Result.ok_bind, kind, if_true,
    Result.pure_eq_ok, Except.ok.injEq] at computed
  exact computed.symm

end LeechJit.Analysis
