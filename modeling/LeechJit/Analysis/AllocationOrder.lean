import LeechJit.Analysis.AllocationSound
import LeechJit.Analysis.ScanAgree

/-! # The order in which intervals are visited

The map of live intervals is iterated in an order that depends on addresses, and the sort
leaves intervals that start together in any order. The locations do not depend on either
exactly when ties are harmless.
-/

namespace LeechJit.Analysis

open IR

variable {store : Store} {graph : LeechJit.Graph BlockId} {keys keys' : List InstId}
  {allocator allocator' : RegAllocator}

namespace RegAllocator

/-- What the constructor can return if it meets the intervals in the order of `keys`: the sort
leaves those that start together in any order. -/
structure Returns (store : Store) (graph : LeechJit.Graph BlockId) (keys : List InstId)
    (allocator : RegAllocator) : Prop where
  analyzed : LivenessAnalyzer.make store graph = .ok allocator.liveAnalyzer
  perm : allocator.liveIntervals.Perm
    (keys.filter fun val => !(interval allocator.liveAnalyzer val).empty)
  sorted : allocator.liveIntervals.Pairwise fun left right =>
    (interval allocator.liveAnalyzer left).start ≤ (interval allocator.liveAnalyzer right).start
  scanned : linearScan allocator.liveIntervals (interval allocator.liveAnalyzer) =
    .ok allocator.scan

theorem returns_of_make (made : make store graph keys = .ok allocator) :
    Returns store graph keys allocator := by
  rcases Result.bind_eq_ok.mp made with ⟨analyzer, analyzed, rest⟩
  rcases Result.bind_eq_ok.mp rest with ⟨scan, scanned, equal⟩
  cases equal
  have total : Std.Total fun left right : InstId =>
      (interval analyzer left).start ≤ (interval analyzer right).start :=
    ⟨fun _ _ => Nat.le_total _ _⟩
  have trans : IsTrans InstId fun left right =>
      (interval analyzer left).start ≤ (interval analyzer right).start :=
    ⟨fun _ _ _ => Nat.le_trans⟩
  exact ⟨analyzed, List.perm_insertionSort _ _, List.pairwise_insertionSort _ _, scanned⟩

namespace Returns

theorem valid (returns : Returns store graph keys allocator) (val : InstId) :
    (interval allocator.liveAnalyzer val).Valid := by
  cases known : allocator.liveAnalyzer.getLiveInterval val with
  | none =>
      rw [interval, known]
      exact LiveInterval.valid_default
  | some found =>
      rw [interval, known]
      exact LiveRanges.Valid.make returns.analyzed val found known

theorem awaits (returns : Returns store graph keys allocator) (nodup : keys.Nodup) :
    ScanInvariant.Awaits (interval allocator.liveAnalyzer) [] 0
      { regPool := {}, intervals := interval allocator.liveAnalyzer, active := [], stackPos := 0 }
      allocator.liveIntervals where
  invariant := ScanInvariant.start
  nodup := returns.perm.nodup_iff.mpr (nodup.filter _)
  fresh _ _ := List.not_mem_nil
  unplaced key _ := (returns.valid key).onStack
  nonempty key member := by
    have kept := (List.mem_filter.mp (returns.perm.mem_iff.mp member)).2
    exact (returns.valid key).start_lt_end (by simpa using kept)
  sorted := returns.sorted
  notBefore _ _ := Nat.zero_le _

/-- Two allocators that give all values the same locations have the same intervals. -/
theorem intervals_eq (returns : Returns store graph keys allocator)
    (returns' : Returns store graph keys allocator') (nodup : keys.Nodup)
    (same : ∀ val, allocator'.getLocation val = allocator.getLocation val) :
    allocator'.scan.intervals = allocator.scan.intervals := by
  have sameAnalyzer : allocator'.liveAnalyzer = allocator.liveAnalyzer :=
    Except.ok.inj (returns'.analyzed.symm.trans returns.analyzed)
  have perm := returns'.perm
  rw [sameAnalyzer] at perm
  have awaits := returns.awaits nodup
  have awaits' := returns'.awaits nodup
  rw [sameAnalyzer] at awaits'
  have scanned' := returns'.scanned
  rw [sameAnalyzer] at scanned'
  rcases awaits.scan with ⟨final, last, result, invariant⟩
  cases Except.ok.inj (returns.scanned.symm.trans result)
  rcases awaits'.scan with ⟨final', last', result', invariant'⟩
  cases Except.ok.inj (scanned'.symm.trans result')
  funext val
  cases Classical.em (val ∈ allocator.liveIntervals) with
  | inl member =>
      have nonempty := awaits.nonempty val member
      have known : ∃ found, allocator.liveAnalyzer.getLiveInterval val = some found := by
        cases known : allocator.liveAnalyzer.getLiveInterval val with
        | none =>
            rw [interval, known] at nonempty
            cases nonempty
        | some found => exact ⟨found, rfl⟩
      rcases known with ⟨found, known⟩
      have notEmpty : (allocator.scan.intervals val).empty = false := by
        rw [LiveInterval.empty, invariant.start_eq, invariant.end_eq]
        exact decide_eq_false nonempty.ne
      have notEmpty' : (allocator'.scan.intervals val).empty = false := by
        rw [LiveInterval.empty, invariant'.start_eq, invariant'.end_eq]
        exact decide_eq_false nonempty.ne
      have atVal := same val
      simp only [getLocation, sameAnalyzer, known, notEmpty, notEmpty', Bool.false_eq_true, if_false,
        Option.some.injEq, Location.mk.injEq] at atVal
      have sameStart := (invariant'.start_eq val).trans (invariant.start_eq val).symm
      have sameEnd := (invariant'.end_eq val).trans (invariant.end_eq val).symm
      cases left : allocator'.scan.intervals val
      cases right : allocator.scan.intervals val
      simp only [left, right] at atVal sameStart sameEnd
      rw [sameStart, sameEnd, atVal.1, atVal.2]
  | inr notMember =>
      have notMember' : val ∉ allocator'.liveIntervals := by
        rw [perm.mem_iff, ← returns.perm.mem_iff]
        exact notMember
      rw [awaits.scan_unread (fun _ _ => rfl) result val (by simpa using notMember),
        awaits'.scan_unread (fun _ _ => rfl) result' val (by simpa using notMember')]

end Returns

/-- The locations are the same for every order in which the map can be iterated, and every order
in which the sort can leave intervals that start together, exactly when ties are harmless. -/
theorem getLocation_eq_iff (returns : Returns store graph keys allocator) (nodup : keys.Nodup) :
    (∀ keys' allocator', keys'.Perm keys → Returns store graph keys' allocator' →
        ∀ val, allocator'.getLocation val = allocator.getLocation val) ↔
      TiesHarmless (interval allocator.liveAnalyzer) [] allocator.liveIntervals := by
  have awaits := returns.awaits nodup
  constructor
  · intro same
    apply awaits.tiesHarmless (fun _ _ => rfl) returns.valid
    intro left right leftPerm rightPerm leftSorted rightSorted final final' result result'
    have leftReturns : Returns store graph keys ⟨allocator.liveAnalyzer, left, final⟩ :=
      ⟨returns.analyzed, leftPerm.trans returns.perm, leftSorted, result⟩
    have rightReturns : Returns store graph keys ⟨allocator.liveAnalyzer, right, final'⟩ :=
      ⟨returns.analyzed, rightPerm.trans returns.perm, rightSorted, result'⟩
    apply leftReturns.intervals_eq rightReturns nodup
    intro val
    rw [same keys _ (List.Perm.refl _) rightReturns, same keys _ (List.Perm.refl _) leftReturns]
  · intro harmless keys' allocator' permKeys returns' val
    have sameAnalyzer : allocator'.liveAnalyzer = allocator.liveAnalyzer :=
      Except.ok.inj (returns'.analyzed.symm.trans returns.analyzed)
    have perm := returns'.perm
    have sorted := returns'.sorted
    have scanned := returns'.scanned
    rw [sameAnalyzer] at perm sorted scanned
    have sameOrder : allocator.liveIntervals.Perm allocator'.liveIntervals :=
      returns.perm.trans ((permKeys.filter _).symm.trans perm.symm)
    have sameScan := linearScan_eq_of_perm awaits.nodup awaits.unplaced awaits.nonempty
      returns.sorted sameOrder sorted harmless
    rw [returns.scanned, scanned] at sameScan
    rw [getLocation, getLocation, sameAnalyzer, Except.ok.inj sameScan]

/-- The last block has two phis. -/
def twoPhis : Store :=
  .ofTables
    [{ type := .I1, kind := .kParam 0, users := [2], bb := some 0 },
      { type := .I64, kind := .kConst (.I64 5), users := [6, 7], bb := some 0 },
      { kind := .kIf 1 2, bb := some 0, inputs := [0] },
      { kind := .kJump 3, bb := some 1 },
      { type := .I64, kind := .kConst (.I64 7), users := [6, 7], bb := some 2 },
      { kind := .kJump 3, bb := some 2 },
      { type := .I64, kind := .kPhi [⟨1, 1⟩, ⟨4, 2⟩], users := [8], bb := some 3, inputs := [1, 4] },
      { type := .I64, kind := .kPhi [⟨4, 2⟩, ⟨1, 1⟩], users := [8], bb := some 3, inputs := [4, 1] },
      { type := .I64, kind := .kBinOp .kAdd, users := [9], bb := some 3, inputs := [6, 7] },
      { kind := .kRet, bb := some 3, inputs := [8] }]
    [{ instructions := [0, 1, 2], succ := [1, 2], id := 0 },
      { instructions := [3], pred := [0], succ := [3], id := 1 },
      { instructions := [4, 5], pred := [0], succ := [3], id := 2 },
      { instructions := [6, 7, 8, 9], pred := [1, 2], id := 3 }] []

theorem getLocation_eq_iff_twoPhis :
    ∃ allocator, Returns twoPhis (twoPhis.cfg fourBlocks) [0, 1, 4, 6, 7, 8] allocator ∧
      ((∀ keys' allocator', keys'.Perm [0, 1, 4, 6, 7, 8] →
          Returns twoPhis (twoPhis.cfg fourBlocks) keys' allocator' →
          ∀ val, allocator'.getLocation val = allocator.getLocation val) ↔
        TiesHarmless (interval allocator.liveAnalyzer) [] allocator.liveIntervals) :=
  ⟨_, returns_of_make rfl, getLocation_eq_iff (returns_of_make rfl) (by decide)⟩

/-- The phi that is met first gets the first free register. -/
theorem not_getLocation_eq_twoPhis :
    twoPhis.WellFormed fourBlocks ∧ ∃ allocator allocator',
      make twoPhis (twoPhis.cfg fourBlocks) [0, 1, 4, 6, 7, 8] = .ok allocator ∧
      make twoPhis (twoPhis.cfg fourBlocks) [0, 1, 4, 7, 6, 8] = .ok allocator' ∧
      allocator.getLocation 6 = some ⟨0, false⟩ ∧ allocator'.getLocation 6 = some ⟨1, false⟩ :=
  ⟨Store.checkWellFormed_sound rfl, _, _, rfl, rfl, by decide, by decide⟩

end RegAllocator

end LeechJit.Analysis
