import LeechJit.Analysis.Liveness
import LeechJit.Foundation.StepRuns

/-! # The intervals of the analyzer are valid

Every interval in the map starts at or before its end and has no location yet, so an
interval is known by its bounds.
-/

namespace LeechJit.IR.LiveInterval

/-- The interval does not end before it starts, and has no location. -/
structure Valid (interval : LiveInterval) : Prop where
  ordered : interval.start ≤ interval.end
  unplaced : interval = { start := interval.start, «end» := interval.end }

variable {interval other result : LiveInterval}

theorem valid_default : Valid {} :=
  ⟨Nat.le_refl _, rfl⟩

theorem valid_make {start «end» : Nat} (made : make start «end» = .ok result) :
    result.Valid := by
  rcases make_eq_ok.mp made with ⟨ordered, rfl⟩
  exact ⟨ordered, rfl⟩

theorem Valid.onStack (valid : interval.Valid) : interval.onStack = false := by
  rw [valid.unplaced]

theorem Valid.setStart {start : Nat} (valid : interval.Valid)
    (changed : interval.setStart start = .ok result) : result.Valid := by
  rcases validate_eq_ok.mp changed with ⟨ordered, rfl⟩
  refine ⟨ordered, ?_⟩
  rw [valid.unplaced]

theorem Valid.setEnd {«end» : Nat} (valid : interval.Valid)
    (changed : interval.setEnd «end» = .ok result) : result.Valid := by
  rcases validate_eq_ok.mp changed with ⟨ordered, rfl⟩
  refine ⟨ordered, ?_⟩
  rw [valid.unplaced]

theorem Valid.update (valid : interval.Valid) (validOther : other.Valid) :
    (interval.update other).Valid := by
  constructor
  · have first := valid.ordered
    have second := validOther.ordered
    simp only [LiveInterval.update]
    omega
  · rw [valid.unplaced]
    rfl

/-- Valid intervals with the same bounds are the same. -/
theorem Valid.ext (valid : interval.Valid) (validOther : other.Valid)
    (sameStart : interval.start = other.start) (sameEnd : interval.end = other.end) :
    interval = other := by
  rw [valid.unplaced, validOther.unplaced, sameStart, sameEnd]

theorem Valid.start_lt_end (valid : interval.Valid) (nonempty : interval.empty = false) :
    interval.start < interval.end := by
  apply Nat.lt_of_le_of_ne valid.ordered
  simpa [LiveInterval.empty] using nonempty

end LeechJit.IR.LiveInterval

namespace LeechJit.Analysis

open IR

/-! ## Blocks -/

theorem numberInst_liveInterval {store : Store} {bbLiveNum : Nat} {numbers after : LiveNumbers}
    {id : InstId} (result : numberInst store bbLiveNum numbers id = .ok after) :
    after.liveInterval = numbers.liveInterval := by
  rcases Result.bind_eq_ok.mp result with ⟨inst, -, equal⟩
  cases equal
  rfl

theorem numberBlock_valid {store : Store} {numbers after : LiveNumbers} {bb : BlockId}
    (valid : ∀ bb, (numbers.liveInterval bb).Valid)
    (result : numberBlock store numbers bb = .ok after) : ∀ bb, (after.liveInterval bb).Valid := by
  rcases Result.bind_eq_ok.mp result with ⟨block, -, rest⟩
  rcases Result.bind_eq_ok.mp rest with ⟨next, numbered, rest⟩
  rcases Result.bind_eq_ok.mp rest with ⟨interval, made, equal⟩
  cases equal
  have same : next.liveInterval = numbers.liveInterval := by
    apply StepRuns.keeps_run (fun state => state.liveInterval = numbers.liveInterval) _ rfl numbered
    exact fun _ _ _ _ same stepping => (numberInst_liveInterval stepping).trans same
  intro key
  cases decEq key bb with
  | isTrue same =>
      subst same
      simpa using LiveInterval.valid_make made
  | isFalse different => simpa [different, same] using valid key

theorem fillLiveNumbers_valid {store : Store} {linearOrder : List BlockId} {numbers : LiveNumbers}
    (result : fillLiveNumbers store linearOrder = .ok numbers) :
    ∀ bb, (numbers.liveInterval bb).Valid :=
  StepRuns.keeps_run (fun numbers : LiveNumbers => ∀ bb, (numbers.liveInterval bb).Valid)
    (fun _ _ _ _ valid stepping => numberBlock_valid valid stepping)
    (fun _ => LiveInterval.valid_default) result

/-! ## Values -/

/-- Every interval in the map is valid. -/
def LiveRanges.Valid (ranges : LiveRanges) : Prop :=
  ∀ val interval, ranges.liveIntervals val = some interval → interval.Valid

namespace LiveRanges.Valid

variable {store : Store} {numbers : LiveNumbers} {ranges after : LiveRanges}
  {interval : LiveInterval} {val : InstId}

theorem setLiveInterval (valid : ranges.Valid) (val : InstId) (isValid : interval.Valid) :
    (ranges.setLiveInterval val interval).Valid := by
  intro key found known
  cases decEq key val with
  | isTrue same =>
      subst same
      simp only [LiveRanges.setLiveInterval, Function.update_self, Option.some.injEq] at known
      exact known ▸ isValid
  | isFalse different =>
      simp only [LiveRanges.setLiveInterval, Function.update_of_ne different] at known
      exact valid key found known

theorem updateLiveInterval (valid : ranges.Valid) (val : InstId) (isValid : interval.Valid) :
    (ranges.updateLiveInterval val interval).Valid := by
  cases stored : ranges.liveIntervals val with
  | none =>
      simp only [LiveRanges.updateLiveInterval, stored]
      exact valid.setLiveInterval val isValid
  | some old =>
      simp only [LiveRanges.updateLiveInterval, stored]
      exact valid.setLiveInterval val ((valid val old stored).update isValid)

theorem calcInstRange {bbLiveNum : Nat} {set set' : LiveSet} {id : InstId} (valid : ranges.Valid)
    (result : Analysis.calcInstRange store numbers bbLiveNum (set, ranges) id =
      .ok (set', after)) : after.Valid := by
  rcases Result.bind_eq_ok.mp result with ⟨inst, -, rest⟩
  split at rest
  · cases rest
    exact valid
  · rcases Result.bind_eq_ok.mp rest with ⟨interval, started, rest⟩
    rcases Result.bind_eq_ok.mp rest with ⟨inputs, -, consuming⟩
    have isValid : interval.Valid := by
      cases stored : ranges.liveIntervals id with
      | none =>
          rw [stored] at started
          exact LiveInterval.valid_make started
      | some old =>
          rw [stored] at started
          exact (valid id old stored).setStart started
    apply StepRuns.keeps_run (fun state : LiveSet × LiveRanges => state.2.Valid) _
      (valid.setLiveInterval id isValid) consuming
    intro state val _ next valid stepping
    rcases Result.bind_eq_ok.mp stepping with ⟨interval, made, equal⟩
    cases equal
    exact valid.updateLiveInterval val (LiveInterval.valid_make made)

theorem calcBlockRange {graph : Graph BlockId} {loops : LoopAnalyzer BlockId} {bb : BlockId}
    (blocks : ∀ bb, (numbers.liveInterval bb).Valid) (valid : ranges.Valid)
    (result : Analysis.calcBlockRange store graph loops numbers ranges bb = .ok after) :
    after.Valid := by
  rcases Result.bind_eq_ok.mp result with ⟨block, -, rest⟩
  rcases Result.bind_eq_ok.mp rest with ⟨initLiveSet, -, rest⟩
  rcases Result.bind_eq_ok.mp rest with ⟨⟨set, passed⟩, passing, rest⟩
  rcases Result.bind_eq_ok.mp rest with ⟨⟨set', toZero⟩, -, rest⟩
  rcases Result.bind_eq_ok.mp rest with ⟨loopInfo, -, rest⟩
  have passedValid : passed.Valid := by
    apply StepRuns.keeps_run (fun state : LiveSet × LiveRanges => state.2.Valid)
      (fun state id _ next valid stepping => valid.calcInstRange stepping) _ passing
    apply List.foldlRecOn
    · exact valid
    · exact fun _ valid val _ => valid.updateLiveInterval val (blocks bb)
  split at rest
  · rcases Result.bind_eq_ok.mp rest with ⟨lastBB, -, extending⟩
    have validSets : LiveRanges.Valid { passed with
        liveSets := Function.update passed.liveSets bb (some set'), toZero := toZero } := passedValid
    apply StepRuns.keeps_run LiveRanges.Valid _ validSets extending
    intro state val _ next valid stepping
    rcases Result.bind_eq_ok.mp stepping with ⟨interval, made, equal⟩
    cases equal
    exact valid.updateLiveInterval val (LiveInterval.valid_make made)
  · cases rest
    exact passedValid

theorem zeroInterval {id : InstId} (valid : ranges.Valid)
    (result : Analysis.zeroInterval ranges id = .ok after) : after.Valid := by
  cases stored : ranges.liveIntervals id with
  | none =>
      simp only [Analysis.zeroInterval, stored] at result
      cases result
  | some liveIn =>
      simp only [Analysis.zeroInterval, stored] at result
      rcases Result.bind_eq_ok.mp result with ⟨interval, ended, equal⟩
      cases equal
      exact valid.setLiveInterval id ((valid id liveIn stored).setEnd ended)

theorem make {graph : Graph BlockId} {analyzer : LivenessAnalyzer}
    (result : LivenessAnalyzer.make store graph = .ok analyzer) : analyzer.ranges.Valid := by
  rcases Result.bind_eq_ok.mp result with ⟨loops, -, rest⟩
  rcases Result.bind_eq_ok.mp rest with ⟨linearOrder, -, rest⟩
  rcases Result.bind_eq_ok.mp rest with ⟨-, -, rest⟩
  rcases Result.bind_eq_ok.mp rest with ⟨numbers, numbered, rest⟩
  rcases Result.bind_eq_ok.mp rest with ⟨final, calculated, equal⟩
  cases equal
  rcases Result.bind_eq_ok.mp calculated with ⟨ranges, passed, zeroed⟩
  have blocks := fillLiveNumbers_valid numbered
  apply StepRuns.keeps_run LiveRanges.Valid
    (fun _ _ _ _ valid stepping => valid.zeroInterval stepping) _ zeroed
  apply StepRuns.keeps_run LiveRanges.Valid
    (fun _ _ _ _ valid stepping => valid.calcBlockRange blocks stepping) _ passed
  intro val interval known
  cases known

end LiveRanges.Valid

end LeechJit.Analysis
