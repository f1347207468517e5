import LeechJit.Analysis.LinearScan
import LeechJit.Analysis.LiveExact
import LeechJit.Analysis.RegAllocator

/-! # Sound register allocation

Two values whose live ranges are seen around get locations of their own if one is
live where the other is defined: their intervals overlap there.
-/

namespace LeechJit.Analysis

open IR LeechJit.Graph Dominance

/-- `val` is live immediately after the definition of `other`; the phis of a block are
defined together at its entry. -/
def LiveAfterDef (store : Store) (func : Function) (val other : InstId) : Prop :=
  ∃ bb ∈ func.bbs, other ∈ store.instructions bb ∧
    ((¬ store.IsPhi other ∧ ∃ front back, store.instructions bb = front ++ other :: back ∧
        Live store (store.cfg func) val bb back) ∨
      (store.IsPhi other ∧ ∃ phis others, store.instructions bb = phis ++ others ∧
        (∀ id ∈ phis, store.IsPhi id) ∧ (∀ id ∈ others, ¬ store.IsPhi id) ∧
        Live store (store.cfg func) val bb others))

variable {store : Store} {func : Function} {analyzer : LivenessAnalyzer} {bb home : BlockId}
  {val : InstId}

/-! ## Values are live from their definition on -/

/-- A way around the definition of a value does not lead to where the value is live. -/
theorem live_behind_home (wellFormed : store.WellFormed func) (homeMem : home ∈ func.bbs)
    (inHome : val ∈ store.instructions home) {front rest : List InstId}
    (live : Live store (store.cfg func) val bb rest) (split : store.instructions bb = front ++ rest)
    (bbMem : bb ∈ func.bbs) {nodes : List BlockId}
    (walk : Walk (store.cfg func).Edge (Store.root func) nodes bb) : home ∈ nodes := by
  have dominated : ∀ dom ∈ func.bbs, val ∈ store.instructions dom →
      ∀ {node : BlockId} {nodes : List BlockId}, store.BlockDominates func dom node →
        Walk (store.cfg func).Edge (Store.root func) nodes node → home ∈ nodes := by
    intro dom domMem inDom node nodes dominates walk
    rw [wellFormed.home_unique homeMem domMem inHome inDom]
    exact dominates nodes walk
  induction live generalizing front nodes with
  | used isUse =>
      rename_i bb id rest
      have inBlock : id ∈ store.instructions bb := by
        rw [split]
        simp
      rcases wellFormed.insts bb bbMem id inBlock with ⟨inst, stored, -⟩
      have notPhi : inst.kind.isPhi = false := by
        cases kind : inst.kind.isPhi with
        | true => simp [Store.operands, stored, kind] at isUse
        | false => rfl
      have isInput : val ∈ inst.inputs := by
        simpa [Store.operands, stored, notPhi] using isUse
      rcases wellFormed.uses bb bbMem front id rest split inst stored notPhi val isInput with
        inFront | ⟨dom, domMem, inDom, -, dominates⟩
      · have inBb : val ∈ store.instructions bb := by
          rw [split]
          exact List.mem_append_left _ inFront
        rw [wellFormed.home_unique homeMem bbMem inHome inBb]
        exact walk.finish_mem
      · exact dominated dom domMem inDom dominates walk
  | skip _ _ induction =>
      rename_i bb id rest _ _
      have shifted : store.instructions bb = (front ++ [id]) ++ rest := by
        rw [split, List.append_assoc, List.singleton_append]
      exact induction shifted bbMem walk
  | phi jump isUse =>
      rename_i bb succ
      rcases isUse with ⟨id, inSucc, inst, vars, stored, kind, entry, entryMem, rfl, rfl⟩
      have succMem := wellFormed.closed.succs_mem entry.bb bbMem succ jump
      rcases wellFormed.phiUses succ succMem id inSucc inst vars stored kind entry entryMem with
        ⟨dom, domMem, inDom, dominates⟩
      exact dominated dom domMem inDom dominates walk
  | jump jump live induction =>
      rename_i bb succ
      have succMem := wellFormed.closed.succs_mem bb bbMem succ jump
      have longer := induction (List.nil_append _).symm succMem (walk.snoc jump)
      rw [List.mem_append, List.mem_singleton] at longer
      rcases longer with before | rfl
      · exact before
      · rcases sections wellFormed homeMem with ⟨phis, others, parts⟩
        exact absurd inHome (parts.fresh_of_live (List.nil_append _).symm live)

/-- Liveness is carried back along a walk to the definition. -/
theorem live_at_home (wellFormed : store.WellFormed func) (homeMem : home ∈ func.bbs)
    (inHome : val ∈ store.instructions home) {start finish : BlockId} {nodes : List BlockId}
    (walk : Walk (store.cfg func).Edge start nodes finish) (startMem : start ∈ func.bbs)
    (live : Live store (store.cfg func) val finish (store.instructions finish)) :
    Live store (store.cfg func) val home [] ∨
      (home ∉ nodes ∧ Live store (store.cfg func) val start (store.instructions start)) := by
  have notHome : ∀ node, Live store (store.cfg func) val node (store.instructions node) →
      home ≠ node := by
    rintro node live rfl
    rcases sections wellFormed homeMem with ⟨phis, others, parts⟩
    exact parts.fresh_of_live (List.nil_append _).symm live inHome
  induction walk with
  | here node => exact .inr ⟨by simpa using notHome node live, live⟩
  | step first rest induction =>
      rename_i start next finish nodes
      have nextMem := wellFormed.closed.succs_mem start startMem next first
      rcases induction nextMem live with atHome | ⟨notMem, liveNext⟩
      · exact .inl atHome
      · have liveOut : Live store (store.cfg func) val start [] := .jump first liveNext
        by_cases isHome : home = start
        · rw [isHome]
          exact .inl liveOut
        · have fresh : val ∉ store.instructions start := fun inStart =>
            isHome (wellFormed.home_unique homeMem startMem inHome inStart)
          have liveStart := LiveAlong.append liveOut fresh
          rw [List.append_nil] at liveStart
          refine .inr ⟨?_, liveStart⟩
          rw [List.mem_cons, not_or]
          exact ⟨isHome, notMem⟩

/-- A value that is live into some block is live at the end of its own. -/
theorem live_at_end_of_home (wellFormed : store.WellFormed func) (homeMem : home ∈ func.bbs)
    (inHome : val ∈ store.instructions home) (bbMem : bb ∈ func.bbs)
    (live : Live store (store.cfg func) val bb (store.instructions bb)) :
    Live store (store.cfg func) val home [] := by
  have entryMem := wellFormed.closed.entry_mem
  rcases Walk.of_reachable (wellFormed.reachable bb bbMem) with ⟨nodes, walk⟩
  have onWalk := live_behind_home wellFormed homeMem inHome live (List.nil_append _).symm bbMem walk
  rcases live_at_home wellFormed homeMem inHome walk entryMem live with atHome | ⟨notMem, -⟩
  · exact atHome
  · exact absurd onWalk notMem

/-! ## Around the entry of a block -/

namespace Analyzed

variable (analyzed : Analyzed store func analyzer)

include analyzed

/-- The interval of a value live behind the phis of a block reaches over its start. -/
theorem reaches_start (isValue : IsValue store func val)
    (around : SeenAround store func analyzer.loops analyzer.linearOrder val)
    (bbMem : bb ∈ func.bbs) {phis others : List InstId}
    (parts : Sections store func bb phis others)
    (live : Live store (store.cfg func) val bb others) :
    ∃ interval, analyzer.getLiveInterval val = some interval ∧
      interval.start ≤ (analyzer.numbers.liveInterval bb).start ∧
      (analyzer.numbers.liveInterval bb).start < interval.end := by
  have ordering := analyzed.ordering
  have inOrder := analyzed.mem_linearOrder bbMem
  have wellFormed := ordering.wellFormed
  have notDefines : ¬ Defines store val bb := by
    rw [parts.defines_iff]
    exact parts.fresh_of_live parts.whole live
  rcases live.cases_rest with ⟨front, id, back, split, -, isUse⟩ | ⟨-, liveOut⟩
  · have inBlock : id ∈ store.instructions bb := by
      rw [parts.whole, split]
      simp
    have inside := ordering.bounds inOrder inBlock (not_isPhi_of_mem_operands isUse)
    rcases analyzed.start_le_of_seen isValue bbMem notDefines bbMem (Nat.le_refl _)
      (.inr (.inr ⟨id, inBlock, isUse⟩)) with ⟨interval, known, start⟩
    rcases (analyzed.hulls val isValue).exists_of_end
      ⟨bb, inOrder, .inr (.inl ⟨id, inBlock, isUse, rfl⟩)⟩ with ⟨other, otherKnown, bound⟩
    cases Option.some.inj (known.symm.trans otherKnown)
    exact ⟨interval, known, start, by omega⟩
  · have nonempty := ordering.start_lt_end inOrder
    have seen : ∃ earlier ∈ func.bbs,
        analyzer.linearOrder.idxOf earlier ≤ analyzer.linearOrder.idxOf bb ∧
          Seen store (store.cfg func) analyzer.linearOrder val earlier := by
      apply around.before bb bbMem
      by_cases inBlock : val ∈ store.instructions bb
      · rcases wellFormed.branches bb bbMem with
          ⟨front, last, inst, whole, stored, isTerminator, -, -⟩
        refine .inr ⟨front, last, [], whole, ?_, inBlock, liveOut⟩
        rintro ⟨other, otherStored, isPhi⟩
        cases Option.some.inj (stored.symm.trans otherStored)
        cases kind : inst.kind <;> simp [kind, InstKind.isPhi, InstKind.isTerminator] at *
      · have whole := LiveAlong.append liveOut inBlock
        rw [List.append_nil] at whole
        exact .inl whole
    rcases seen with ⟨earlier, earlierMem, notAfter, seen⟩
    rcases analyzed.start_le_of_seen isValue bbMem notDefines earlierMem notAfter seen with
      ⟨interval, known, start⟩
    rcases analyzed.le_end_of_seenBehind isValue bbMem (around.behind bb bbMem liveOut) with
      ⟨other, otherKnown, bound⟩
    cases Option.some.inj (known.symm.trans otherKnown)
    exact ⟨interval, known, start, by omega⟩

/-- A phi with an interval is live behind the phis of its block. -/
theorem live_of_known (isValue : IsValue store func val) (isPhi : store.IsPhi val)
    (bbMem : bb ∈ func.bbs) (inBlock : val ∈ store.instructions bb) {phis others : List InstId}
    (parts : Sections store func bb phis others) {interval : LiveInterval}
    (known : analyzer.getLiveInterval val = some interval) :
    Live store (store.cfg func) val bb others := by
  have ordering := analyzed.ordering
  have wellFormed := ordering.wellFormed
  have notOther : val ∉ others := fun member => parts.notPhis val member isPhi
  have hull := analyzed.hulls val isValue
  rw [known] at hull
  -- It is enough that the value is live at the end of its block.
  have ofEnd : Live store (store.cfg func) val bb [] → Live store (store.cfg func) val bb others := by
    intro liveOut
    have whole := LiveAlong.append liveOut notOther
    rw [List.append_nil] at whole
    exact whole
  rcases mem_startsOf hull.1.1 with ⟨other, otherIn, ⟨defines, -⟩ | ⟨touches, -⟩⟩
  · exact absurd isPhi defines.2
  · have otherMem := ordering.mem_iff.mp otherIn
    by_cases same : other = bb
    · subst same
      rcases touches with forward | uses
      · exact ofEnd forward.live
      · rcases parts.uses_iff.mpr uses with ⟨id, member, isUse⟩
        rcases List.append_of_mem member with ⟨before, after, split⟩
        have notBefore : val ∉ before := fun inBefore => notOther (by rw [split]; simp [inBefore])
        rw [split]
        exact LiveAlong.append (.used isUse) notBefore
    · have fresh : val ∉ store.instructions other := fun inOther =>
        same (wellFormed.home_unique otherMem bbMem inOther inBlock)
      apply ofEnd
      apply live_at_end_of_home wellFormed bbMem inBlock otherMem
      rcases touches with forward | ⟨id, inOther, isUse⟩
      · have whole := LiveAlong.append forward.live fresh
        rw [List.append_nil] at whole
        exact whole
      · rcases List.append_of_mem inOther with ⟨before, after, split⟩
        have notBefore : val ∉ before := fun inBefore => fresh (by rw [split]; simp [inBefore])
        rw [split]
        exact LiveAlong.append (.used isUse) notBefore

end Analyzed

/-! ## The locations -/

theorem Sections.of_split {phis others phis' others' : List InstId}
    (parts : Sections store func bb phis others)
    (whole : store.instructions bb = phis' ++ others') (isPhi : ∀ id ∈ phis', store.IsPhi id)
    (notPhis : ∀ id ∈ others', ¬ store.IsPhi id) : Sections store func bb phis' others' where
  whole := whole
  isPhi := isPhi
  notPhis := notPhis
  shaped id member := by
    have defines : Defines store id bb :=
      ⟨by rw [whole]; exact List.mem_append_right _ member, notPhis id member⟩
    exact parts.shaped id (parts.defines_iff.mp defines)
  nodup := by
    rw [← whole, parts.whole]
    exact parts.nodup
  ssa := parts.ssa

/-- Where a value is live behind the definition of another, their intervals overlap. -/
theorem overlaps_of_live {other : InstId} (wellFormed : store.WellFormed func)
    (returns : LivenessAnalyzer.make store (store.cfg func) = .ok analyzer)
    (valIsValue : IsValue store func val) (otherIsValue : IsValue store func other)
    (valAround : SeenAround store func analyzer.loops analyzer.linearOrder val)
    (otherAround : SeenAround store func analyzer.loops analyzer.linearOrder other)
    (live : LiveAfterDef store func val other) {valIn otherIn : LiveInterval}
    (valKnown : analyzer.getLiveInterval val = some valIn)
    (otherKnown : analyzer.getLiveInterval other = some otherIn) :
    valIn.Overlaps otherIn := by
  have analyzed := make_analyzed wellFormed returns
  rcases live with ⟨bb, bbMem, inBlock, ⟨notPhi, front, back, split, live⟩ |
    ⟨isPhi, phis, others, whole, arePhis, areOthers, live⟩⟩
  · have covers := (covers_iff wellFormed returns valIsValue).mpr valAround
    rcases covers.afterInst bb bbMem front other back split notPhi live with
      ⟨interval, known, start, end'⟩
    cases Option.some.inj (valKnown.symm.trans known)
    have inOrder := analyzed.mem_linearOrder bbMem
    have hull := analyzed.hulls other otherIsValue
    rw [otherKnown] at hull
    have otherStart := hull.1.2 (startsOf_of_defines inOrder ⟨inBlock, notPhi⟩)
    have otherEnd := hull.2.1.2 ⟨bb, inOrder, .inr (.inr (.inl ⟨⟨inBlock, notPhi⟩, rfl⟩))⟩
    exact ⟨by omega, by omega⟩
  · rcases sections wellFormed bbMem with ⟨phis', others', parts'⟩
    have parts := parts'.of_split whole arePhis areOthers
    rcases analyzed.reaches_start valIsValue valAround bbMem parts live with
      ⟨interval, known, start, end'⟩
    cases Option.some.inj (valKnown.symm.trans known)
    have otherLive := analyzed.live_of_known otherIsValue isPhi bbMem inBlock parts otherKnown
    rcases analyzed.reaches_start otherIsValue otherAround bbMem parts otherLive with
      ⟨interval, known, otherStart, otherEnd⟩
    cases Option.some.inj (otherKnown.symm.trans known)
    exact ⟨by omega, by omega⟩

/-- A location is read off the interval the scan has placed. -/
theorem getLocation_eq_some {allocator : RegAllocator} {location : Location}
    (found : allocator.getLocation val = some location) :
    (∃ interval, allocator.liveAnalyzer.getLiveInterval val = some interval) ∧
      (allocator.scan.intervals val).start ≠ (allocator.scan.intervals val).end ∧
      location.locId = (allocator.scan.intervals val).locationId ∧
      location.stack = (allocator.scan.intervals val).onStack := by
  cases known : allocator.liveAnalyzer.getLiveInterval val with
  | none =>
      simp only [RegAllocator.getLocation, known] at found
      cases found
  | some interval =>
      simp only [RegAllocator.getLocation, known] at found
      by_cases isEmpty : (allocator.scan.intervals val).start =
          (allocator.scan.intervals val).end
      · simp [LiveInterval.empty, isEmpty] at found
      · simp only [LiveInterval.empty, isEmpty, decide_false, Bool.false_eq_true, if_false,
          Option.some.injEq] at found
        subst found
        exact ⟨⟨interval, rfl⟩, isEmpty, rfl, rfl⟩

/-- Two values that are seen around, one live where the other is defined, get
different locations. -/
theorem locations_differ {keys : List InstId} {allocator : RegAllocator}
    (wellFormed : store.WellFormed func)
    (returns : RegAllocator.make store (store.cfg func) keys = .ok allocator)
    (nodup : keys.Nodup)
    (areKeys : ∀ val ∈ store.listed func,
      (allocator.liveAnalyzer.getLiveInterval val).isSome → val ∈ keys)
    {val other : InstId} (different : val ≠ other)
    (valIsValue : IsValue store func val) (otherIsValue : IsValue store func other)
    (valAround : SeenAround store func allocator.liveAnalyzer.loops
      allocator.liveAnalyzer.linearOrder val)
    (otherAround : SeenAround store func allocator.liveAnalyzer.loops
      allocator.liveAnalyzer.linearOrder other)
    (live : LiveAfterDef store func val other) {left right : Location}
    (leftAt : allocator.getLocation val = some left)
    (rightAt : allocator.getLocation other = some right) : left ≠ right := by
  rcases Result.bind_eq_ok.mp returns with ⟨analyzer, analyzed, rest⟩
  rcases Result.bind_eq_ok.mp rest with ⟨scan, scanned, equal⟩
  cases equal
  let intervals := RegAllocator.interval analyzer
  let order := RegAllocator.buildSortedLiveIntervals analyzer keys
  have perm : order.Perm (keys.filter fun val => !(intervals val).empty) :=
    List.perm_insertionSort _ _
  have orderNodup : order.Nodup := perm.nodup_iff.mpr (nodup.filter _)
  have sorted : order.Pairwise fun left right =>
      (intervals left).start ≤ (intervals right).start := by
    have total : Std.Total fun left right : InstId =>
        (intervals left).start ≤ (intervals right).start := ⟨fun _ _ => Nat.le_total _ _⟩
    have trans : IsTrans InstId fun left right =>
        (intervals left).start ≤ (intervals right).start := ⟨fun _ _ _ => Nat.le_trans⟩
    exact List.pairwise_insertionSort _ _
  have unplaced : ∀ key ∈ order, (intervals key).onStack = false := by
    intro key _
    cases known : analyzer.getLiveInterval key with
    | none => simp [intervals, RegAllocator.interval, known]
    | some interval =>
        have fresh := (make_analyzed wellFormed analyzed).unplaced key interval known
        simpa [intervals, RegAllocator.interval, known] using fresh
  rcases linearScan_invariant order intervals orderNodup sorted unplaced with
    ⟨final, now, result, invariant⟩
  cases Except.ok.inj (scanned.symm.trans result)
  have placement := invariant.soundPlacement
  have located : ∀ key ∈ store.listed func, ∀ location,
      RegAllocator.getLocation ⟨analyzer, order, scan⟩ key = some location → ∃ interval, analyzer.getLiveInterval key = some interval ∧
        (scan.intervals key).start = interval.start ∧ (scan.intervals key).end = interval.end ∧
        key ∈ order.reverse := by
    intro key isListed location found
    rcases getLocation_eq_some found with ⟨⟨interval, known⟩, notEmpty, -, -⟩
    have sameInterval : intervals key = interval := by
      simp [intervals, RegAllocator.interval, known]
    have starts := invariant.start_eq key
    have ends := invariant.end_eq key
    rw [sameInterval] at starts ends
    refine ⟨interval, known, starts, ends, ?_⟩
    rw [List.mem_reverse, perm.mem_iff, List.mem_filter]
    refine ⟨areKeys key isListed (by simp [known]), ?_⟩
    simp only [starts, ends] at notEmpty
    simpa [sameInterval, LiveInterval.empty] using notEmpty
  rcases located val valIsValue.1 left leftAt with ⟨valIn, valKnown, valStart, valEnd, valMem⟩
  rcases located other otherIsValue.1 right rightAt with ⟨otherIn, otherKnown, otherStart, otherEnd, otherMem⟩
  have overlap := overlaps_of_live wellFormed analyzed valIsValue otherIsValue valAround
    otherAround live valKnown otherKnown
  have scanOverlap : (scan.intervals val).Overlaps (scan.intervals other) := by
    rw [LiveInterval.Overlaps, valStart, valEnd, otherStart, otherEnd]
    exact overlap
  rcases getLocation_eq_some leftAt with ⟨-, -, leftLoc, leftStack⟩
  rcases getLocation_eq_some rightAt with ⟨-, -, rightLoc, rightStack⟩
  intro same
  rw [same] at leftLoc leftStack
  have locEq := leftLoc.symm.trans rightLoc
  have stackEq := leftStack.symm.trans rightStack
  cases onStack : (scan.intervals val).onStack with
  | true =>
      have otherOnStack := stackEq.symm.trans onStack
      exact placement.slots val valMem other otherMem different onStack otherOnStack locEq
  | false =>
      have otherInReg := stackEq.symm.trans onStack
      exact placement.registers val valMem other otherMem different scanOverlap onStack
        otherInReg locEq

/-- One block that adds two constants. -/
def addition : Store :=
  .ofTables
    [{ type := .I64, kind := .kConst (.I64 1), users := [2], bb := some 0 },
      { type := .I64, kind := .kConst (.I64 2), users := [2], bb := some 0 },
      { type := .I64, kind := .kBinOp .kAdd, users := [3], bb := some 0, inputs := [0, 1] },
      { kind := .kRet, bb := some 0, inputs := [2] }]
    [{ instructions := [0, 1, 2, 3] }] []

def additionBlocks : Function :=
  { bbs := [0], resType := .I64 }

theorem addition_seenAround (loops : LoopAnalyzer BlockId) {val : InstId}
    (defines : Defines addition val 0) : SeenAround addition additionBlocks loops [0] val where
  before bb member _ := by
    rw [List.mem_singleton.mp member]
    exact ⟨0, List.mem_singleton_self 0, Nat.le_refl _, .inl defines⟩
  behind bb member live := by
    rw [List.mem_singleton.mp member] at live
    rcases LiveAlong.nil_iff.mp live with ⟨succ, ⟨jump, -⟩ | ⟨jump, -⟩⟩ <;> cases jump

theorem locations_differ_addition :
    ∃ allocator, RegAllocator.make addition (addition.cfg additionBlocks) [3, 2, 1, 0] =
        .ok allocator ∧ ∃ left right, allocator.getLocation 0 = some left ∧
      allocator.getLocation 1 = some right ∧ left ≠ right := by
  have wellFormed : addition.WellFormed additionBlocks := Store.checkWellFormed_sound rfl
  have notPhi : ∀ val ∈ [0, 1], ¬ addition.IsPhi val := by
    rintro val member ⟨inst, stored, isPhi⟩
    rcases List.mem_pair.mp member with rfl | rfl <;> cases Option.some.inj stored <;> cases isPhi
  have live : LiveAfterDef addition additionBlocks 0 1 :=
    ⟨0, by decide, by decide, .inl ⟨notPhi 1 (by decide), [0], [2, 3], rfl, .used (by decide)⟩⟩
  exact ⟨_, rfl, _, _, rfl, rfl, @locations_differ addition additionBlocks [3, 2, 1, 0] _
    wellFormed rfl (by decide) (by decide) 0 1 (by decide) ⟨by decide, _, rfl, rfl⟩ ⟨by decide, _, rfl, rfl⟩
    (addition_seenAround _ ⟨by decide, notPhi 0 (by decide)⟩)
    (addition_seenAround _ ⟨by decide, notPhi 1 (by decide)⟩) live _ _ rfl rfl⟩

/-- The instructions of the counting loop, for which the map has intervals. -/
def countingKeys : List InstId := [0, 1, 2, 3, 4, 5, 6, 7]

/-- The sum is live where the comparison is defined, and both are in one register. -/
theorem not_locations_differ_counting :
    counting.WellFormed fourBlocks ∧ countingKeys.Nodup ∧
      ∃ allocator, RegAllocator.make counting (counting.cfg fourBlocks) countingKeys =
          .ok allocator ∧
        (∀ val ∈ counting.listed fourBlocks, val ∈ countingKeys ∧
          (allocator.liveAnalyzer.getLiveInterval val).isSome) ∧
        IsValue counting fourBlocks 3 ∧ IsValue counting fourBlocks 4 ∧
        LiveAfterDef counting fourBlocks 3 4 ∧
        allocator.getLocation 3 = some ⟨2, false⟩ ∧
        allocator.getLocation 4 = some ⟨2, false⟩ := by
  have live : LiveAfterDef counting fourBlocks 3 4 := by
    have notPhi : ¬ counting.IsPhi 4 := by
      rintro ⟨inst, stored, isPhi⟩
      cases Option.some.inj stored
      cases isPhi
    exact ⟨1, by decide, by decide, .inl ⟨notPhi, [2, 3], [5], rfl, .skip (by decide) sum_live⟩⟩
  exact ⟨counting_wellFormed, by decide, _, rfl, by decide, ⟨by decide, _, rfl, rfl⟩,
    ⟨by decide, _, rfl, rfl⟩, live, rfl, rfl⟩

end LeechJit.Analysis
