import LeechJit.Analysis.AllocationOrder
import LeechJit.Analysis.LiveTight

/-! # Register allocation of acyclic code

On a function without loops whose returns carry values the allocator returns, gives a place to
every value that can be read, and gives values that are live at once different places.
-/

namespace LeechJit.Analysis

open IR LeechJit.Graph

variable {store : Store} {func : Function} {analyzer : LivenessAnalyzer} {keys : List InstId}
  {allocator : RegAllocator} {val other : InstId} {bb : BlockId}

/-! ## Placed intervals -/

namespace RegAllocator.Returns

variable {graph : LeechJit.Graph BlockId} (returns : Returns store graph keys allocator)
  (nodup : keys.Nodup)

include returns nodup

theorem invariant : ∃ now, ScanInvariant (interval allocator.liveAnalyzer)
    allocator.liveIntervals.reverse now allocator.scan := by
  rcases (returns.awaits nodup).scan with ⟨final, last, result, invariant⟩
  cases Except.ok.inj (returns.scanned.symm.trans result)
  rw [List.append_nil] at invariant
  exact ⟨last, invariant⟩

/-- The values with a place are those whose interval is not empty. -/
theorem getLocation_eq_some_iff {location : Location} :
    allocator.getLocation val = some location ↔
      (∃ interval, allocator.liveAnalyzer.getLiveInterval val = some interval ∧
        interval.empty = false) ∧
      location = ⟨(allocator.scan.intervals val).locationId,
        (allocator.scan.intervals val).onStack⟩ := by
  rcases returns.invariant nodup with ⟨now, invariant⟩
  rw [getLocation]
  cases known : allocator.liveAnalyzer.getLiveInterval val with
  | none => simp
  | some interval =>
      have same : (allocator.scan.intervals val).empty = interval.empty := by
        rw [LiveInterval.empty, invariant.start_eq, invariant.end_eq, RegAllocator.interval, known]
        rfl
      cases isEmpty : interval.empty with
      | true => simp [same, isEmpty]
      | false =>
          simp only [same, isEmpty, Bool.false_eq_true, if_false, Option.some.injEq]
          exact ⟨fun equal => ⟨⟨interval, rfl, isEmpty⟩, equal.symm⟩, fun both => both.2.symm⟩

/-- A place in a register is one there is. -/
theorem locId_lt {location : Location} (isKey : val ∈ keys)
    (found : allocator.getLocation val = some location) (inReg : location.stack = false) :
    location.locId < kNumRegs := by
  rcases returns.invariant nodup with ⟨now, invariant⟩
  rcases (returns.getLocation_eq_some_iff nodup).mp found with ⟨⟨interval, known, notEmpty⟩, rfl⟩
  apply invariant.inRange val _ inReg
  rw [List.mem_reverse, returns.perm.mem_iff, List.mem_filter]
  exact ⟨isKey, by simp [RegAllocator.interval, known, notEmpty]⟩

/-- Overlapping intervals have different places. -/
theorem getLocation_ne {valIn otherIn : LiveInterval} {left right : Location} (valKey : val ∈ keys)
    (otherKey : other ∈ keys) (different : val ≠ other)
    (valKnown : allocator.liveAnalyzer.getLiveInterval val = some valIn)
    (otherKnown : allocator.liveAnalyzer.getLiveInterval other = some otherIn)
    (overlaps : valIn.Overlaps otherIn) (leftAt : allocator.getLocation val = some left)
    (rightAt : allocator.getLocation other = some right) : left ≠ right := by
  rcases returns.invariant nodup with ⟨now, invariant⟩
  have placement := invariant.soundPlacement
  have placed : ∀ key ∈ keys, ∀ location, allocator.getLocation key = some location →
      key ∈ allocator.liveIntervals.reverse := by
    intro key isKey location found
    rcases (returns.getLocation_eq_some_iff nodup).mp found with ⟨⟨interval, known, notEmpty⟩, -⟩
    rw [List.mem_reverse, returns.perm.mem_iff, List.mem_filter]
    exact ⟨isKey, by simp [RegAllocator.interval, known, notEmpty]⟩
  have valMem := placed val valKey left leftAt
  have otherMem := placed other otherKey right rightAt
  have scanOverlaps : (allocator.scan.intervals val).Overlaps
      (allocator.scan.intervals other) := by
    rw [LiveInterval.Overlaps, invariant.start_eq, invariant.start_eq, invariant.end_eq,
      invariant.end_eq, RegAllocator.interval, RegAllocator.interval, valKnown, otherKnown]
    exact overlaps
  rcases (returns.getLocation_eq_some_iff nodup).mp leftAt with ⟨-, rfl⟩
  rcases (returns.getLocation_eq_some_iff nodup).mp rightAt with ⟨-, rfl⟩
  intro same
  rw [Location.mk.injEq] at same
  cases onStack : (allocator.scan.intervals val).onStack with
  | true =>
      exact placement.slots val valMem other otherMem different onStack
        (same.2.symm.trans onStack) same.1
  | false =>
      exact placement.registers val valMem other otherMem different scanOverlaps onStack
        (same.2.symm.trans onStack) same.1

end RegAllocator.Returns

/-- Whatever order the map is iterated in, the allocator returns if the analyzer does. -/
theorem RegAllocator.make_returns {graph : LeechJit.Graph BlockId}
    (analyzed : LivenessAnalyzer.make store graph = .ok analyzer) (nodup : keys.Nodup) :
    ∃ allocator, RegAllocator.make store graph keys = .ok allocator ∧
      allocator.liveAnalyzer = analyzer := by
  let order := buildSortedLiveIntervals analyzer keys
  have total : Std.Total fun left right : InstId =>
      (interval analyzer left).start ≤ (interval analyzer right).start :=
    ⟨fun _ _ => Nat.le_total _ _⟩
  have trans : IsTrans InstId fun left right =>
      (interval analyzer left).start ≤ (interval analyzer right).start :=
    ⟨fun _ _ _ => Nat.le_trans⟩
  have perm : order.Perm (keys.filter fun val => !(interval analyzer val).empty) :=
    List.perm_insertionSort _ _
  have unplaced : ∀ key ∈ order, (interval analyzer key).onStack = false := by
    intro key _
    cases known : analyzer.getLiveInterval key with
    | none => simp [interval, known]
    | some found =>
        have valid := LiveRanges.Valid.make analyzed key found known
        simp [interval, known, valid.onStack]
  rcases linearScan_invariant order (interval analyzer) (perm.nodup_iff.mpr (nodup.filter _))
    (List.pairwise_insertionSort _ _) unplaced with ⟨final, now, scanned, -⟩
  exact ⟨⟨analyzer, order, final⟩, by simp [make, analyzed, order, scanned], rfl⟩

/-! ## Acyclic code -/

/-- On acyclic code every value is seen around its live range. -/
theorem Straight.seenAround {order : List BlockId} {loops : LoopAnalyzer BlockId}
    (straight : Straight store func order loops) (wellFormed : store.WellFormed func)
    (isValue : IsValue store func val) : SeenAround store func loops order val := by
  rcases List.mem_flatMap.mp isValue.1 with ⟨home, homeMem, inHome⟩
  have fromHome : ∀ bb ∈ func.bbs, ∀ front rest, store.instructions bb = front ++ rest →
      Live store (store.cfg func) val bb rest →
      ∃ earlier ∈ func.bbs, order.idxOf earlier ≤ order.idxOf bb ∧
        Seen store (store.cfg func) order val earlier := by
    intro bb member front rest split live
    have touched : Live store (store.cfg func) val bb [] ∨ Uses store val bb := by
      rcases live.cases_rest with ⟨before, id, back, restSplit, -, isUse⟩ | ⟨-, atEnd⟩
      · exact .inr ⟨id, by rw [split, restSplit]; simp, isUse⟩
      · exact .inl atEnd
    have notAfter := straight.home_le_of_touches wellFormed homeMem inHome member
      ((straight.touches_iff wellFormed member).mpr touched)
    refine ⟨home, homeMem, notAfter, ?_⟩
    by_cases isPhi : store.IsPhi val
    · have used := used_of_live wellFormed member split live
      exact .inr ((straight.touches_iff wellFormed homeMem).mpr
        (touched_at_home wellFormed homeMem inHome used))
    · exact .inl ⟨inHome, isPhi⟩
  constructor
  case before =>
    rintro bb member (live | ⟨front, id, back, split, -, -, live⟩)
    · exact fromHome bb member [] _ (List.nil_append _).symm live
    · exact fromHome bb member (front ++ [id]) back (by rw [split]; simp) live
  case behind =>
    intro bb member live
    exact .inl ((straight.forwardLive_iff wellFormed member).mpr live)

/-- The interval of a phi that is used is not empty. -/
theorem nonempty_of_phi (analyzed : Analyzed store func analyzer)
    (straight : Straight store func analyzer.linearOrder analyzer.loops)
    (listed : val ∈ store.listed func) (isPhi : store.IsPhi val) (used : Used store func val) :
    ∃ interval, analyzer.getLiveInterval val = some interval ∧ interval.empty = false := by
  have wellFormed := analyzed.ordering.wellFormed
  have isValue := isValue_of_isPhi listed isPhi
  rcases List.mem_flatMap.mp listed with ⟨bb, member, inBlock⟩
  rcases tight_phi analyzed straight member inBlock isPhi used with ⟨interval, known, -, -⟩
  rcases sections wellFormed member with ⟨phis, others, parts⟩
  have live := analyzed.live_of_known isValue isPhi member inBlock parts known
  rcases analyzed.reaches_start isValue (straight.seenAround wellFormed isValue) member parts
    live with ⟨again, knownAgain, starts, ends⟩
  cases Option.some.inj (known.symm.trans knownAgain)
  exact ⟨interval, known, decide_eq_false (by omega)⟩

/-- The places of the values of a function: those that can be read have one, and of two values
one live where the other is defined they are different. -/
structure Allocates (store : Store) (func : Function) (allocator : RegAllocator) : Prop where
  located : ∀ val ∈ store.listed func, (∃ location, allocator.getLocation val = some location) ↔
    IsValue store func val ∧ (store.IsPhi val → Used store func val)
  inRange : ∀ val ∈ store.listed func, ∀ location, allocator.getLocation val = some location →
    location.stack = false → location.locId < kNumRegs
  apart : ∀ val other, val ≠ other → IsValue store func val → IsValue store func other →
    LiveAfterDef store func val other → ∀ left right, allocator.getLocation val = some left →
      allocator.getLocation other = some right → left ≠ right

/-- On a function without loops whose returns carry values the allocator returns, and its
allocation is sound. `keys` are the keys of the map of live intervals. -/
theorem allocates_acyclic (wellFormed : store.WellFormedAcyclic func)
    (carries : store.RetsCarryValues func) (nodup : keys.Nodup)
    (areKeys : ∀ analyzer, LivenessAnalyzer.make store (store.cfg func) = .ok analyzer →
      ∀ val ∈ store.listed func, (analyzer.getLiveInterval val).isSome → val ∈ keys) :
    ∃ allocator, RegAllocator.make store (store.cfg func) keys = .ok allocator ∧
      Allocates store func allocator := by
  rcases make_returns wellFormed carries with ⟨analyzer, returns⟩
  have analyzed := make_analyzed wellFormed.toWellFormed returns
  have straight := make_straight wellFormed returns
  rcases RegAllocator.make_returns returns nodup with ⟨allocator, made, rfl⟩
  have isKey := areKeys _ returns
  have placed := RegAllocator.returns_of_make made
  refine ⟨allocator, made, ?_⟩
  constructor
  case located =>
    intro val listed
    constructor
    · rintro ⟨location, found⟩
      rcases (placed.getLocation_eq_some_iff nodup).mp found with ⟨⟨interval, known, notEmpty⟩, -⟩
      constructor
      · by_contra notValue
        rcases List.mem_flatMap.mp listed with ⟨bb, member, inBlock⟩
        rcases wellFormed.insts bb member val inBlock with ⟨inst, stored, -⟩
        have noValue : NoValue store val := by
          refine ⟨inst, stored, ?_⟩
          by_contra produces
          exact notValue ⟨listed, inst, stored, by simpa using produces⟩
        rcases make_zeroes wellFormed.toWellFormed returns listed noValue with
          ⟨again, knownAgain, isEmpty⟩
        cases Option.some.inj (known.symm.trans knownAgain)
        cases notEmpty.symm.trans isEmpty
      · intro isPhi
        by_contra unused
        rcases List.mem_flatMap.mp listed with ⟨bb, member, inBlock⟩
        rw [tight_unused analyzed straight member inBlock isPhi unused] at known
        cases known
    · rintro ⟨isValue, used⟩
      have nonempty : ∃ interval, allocator.liveAnalyzer.getLiveInterval val = some interval ∧
          interval.empty = false := by
        by_cases isPhi : store.IsPhi val
        · exact nonempty_of_phi analyzed straight listed isPhi (used isPhi)
        · rcases tight_defined analyzed straight isValue isPhi with ⟨interval, known, start, ends⟩
          have bound := ends.2 (Set.mem_insert _ _)
          exact ⟨interval, known, decide_eq_false (by omega)⟩
      exact ⟨_, (placed.getLocation_eq_some_iff nodup).mpr ⟨nonempty, rfl⟩⟩
  case inRange =>
    intro val listed location found inReg
    rcases (placed.getLocation_eq_some_iff nodup).mp found with ⟨⟨interval, known, -⟩, -⟩
    exact placed.locId_lt nodup (isKey val listed (by simp [known])) found inReg
  case apart =>
    intro val other different valIsValue otherIsValue live left right leftAt rightAt
    rcases (placed.getLocation_eq_some_iff nodup).mp leftAt with ⟨⟨valIn, valKnown, -⟩, -⟩
    rcases (placed.getLocation_eq_some_iff nodup).mp rightAt with ⟨⟨otherIn, otherKnown, -⟩, -⟩
    have overlaps := overlaps_of_live wellFormed.toWellFormed returns valIsValue otherIsValue
      (straight.seenAround wellFormed.toWellFormed valIsValue)
      (straight.seenAround wellFormed.toWellFormed otherIsValue) live valKnown otherKnown
    exact placed.getLocation_ne nodup (isKey val valIsValue.1 (by simp [valKnown]))
      (isKey other otherIsValue.1 (by simp [otherKnown])) different valKnown otherKnown overlaps
      leftAt rightAt

theorem allocates_acyclic_meeting :
    ∃ allocator, RegAllocator.make meeting (meeting.cfg fourBlocks) [8, 6, 5, 4, 3, 2, 1, 0] =
      .ok allocator ∧ Allocates meeting fourBlocks allocator := by
  apply allocates_acyclic meeting_wellFormed meeting_carries (by decide)
  intro analyzer returns
  cases returns
  decide

end LeechJit.Analysis
