import LeechJit.Analysis.LiveCover
import LeechJit.IR.Check

/-! # The intervals that cover liveness -/

namespace LeechJit.Analysis

open IR LeechJit.Graph

/-- The live interval of `val` reaches over all points where `val` is live. -/
structure Covers (store : Store) (func : Function) (analyzer : LivenessAnalyzer)
    (val : InstId) : Prop where
  afterInst : ∀ bb ∈ func.bbs, ∀ front id back,
    store.instructions bb = front ++ id :: back → ¬ store.IsPhi id →
    Live store (store.cfg func) val bb back → ∃ interval,
      analyzer.getLiveInterval val = some interval ∧
        interval.start ≤ analyzer.numbers.liveNum id ∧
        analyzer.numbers.liveNum id < interval.end
  liveOut : ∀ bb ∈ func.bbs, Live store (store.cfg func) val bb [] → ∃ interval,
    analyzer.getLiveInterval val = some interval ∧
      (analyzer.numbers.liveInterval bb).end ≤ interval.end
  liveIn : ∀ bb ∈ func.bbs, Live store (store.cfg func) val bb (store.instructions bb) →
    ∃ interval, analyzer.getLiveInterval val = some interval ∧
      interval.start ≤ (analyzer.numbers.liveInterval bb).start

/-- Block `bb` defines `val` other than by a phi, uses it, or has it live at its end
along a path that only goes forward. -/
def Seen (store : Store) (graph : Graph BlockId) (order : List BlockId) (val : InstId)
    (bb : BlockId) : Prop :=
  Defines store val bb ∨ Touches store graph order val bb

/-- `val` is seen at the end of `bb` or behind it. -/
def SeenBehind (store : Store) (func : Function) (loops : LoopAnalyzer BlockId)
    (order : List BlockId) (val : InstId) (bb : BlockId) : Prop :=
  ForwardLive store (store.cfg func) order val bb [] ∨
    (∃ later ∈ func.bbs, order.idxOf bb < order.idxOf later ∧
      Seen store (store.cfg func) order val later) ∨
    ∃ header ∈ func.bbs, ∃ last ∈ func.bbs, LoopEnds loops header last ∧
      ForwardLive store (store.cfg func) order val header (store.instructions header) ∧
      order.idxOf bb ≤ order.idxOf last

/-- The blocks that see `val` lie around those where it is live: one at or before
each block it is live in, and one at or behind each it is live out of, or the end
of a reducible loop it is seen to be live into. -/
structure SeenAround (store : Store) (func : Function) (loops : LoopAnalyzer BlockId)
    (order : List BlockId) (val : InstId) : Prop where
  before : ∀ bb ∈ func.bbs, (Live store (store.cfg func) val bb (store.instructions bb) ∨
      ∃ front id back, store.instructions bb = front ++ id :: back ∧ ¬ store.IsPhi id ∧
        val ∈ store.instructions bb ∧ Live store (store.cfg func) val bb back) →
    ∃ earlier ∈ func.bbs, order.idxOf earlier ≤ order.idxOf bb ∧
      Seen store (store.cfg func) order val earlier
  behind : ∀ bb ∈ func.bbs, Live store (store.cfg func) val bb [] →
    SeenBehind store func loops order val bb

variable {store : Store} {func : Function} {analyzer : LivenessAnalyzer} {bb : BlockId}
  {val : InstId}

namespace Analyzed

variable (analyzed : Analyzed store func analyzer)

include analyzed

theorem mem_linearOrder (member : bb ∈ func.bbs) : bb ∈ analyzer.linearOrder :=
  analyzed.ordering.mem_iff.mpr member

/-- A value has a number well before the end of its block. -/
theorem liveNum_lt_end (isValue : IsValue store func val) (member : bb ∈ func.bbs)
    (defines : Defines store val bb) :
    (analyzer.numbers.liveInterval bb).start + 2 ≤ analyzer.numbers.liveNum val ∧
      analyzer.numbers.liveNum val + 4 ≤ (analyzer.numbers.liveInterval bb).end := by
  have inOrder := analyzed.mem_linearOrder member
  have ⟨_, inst, stored, produces⟩ := isValue
  rcases analyzed.ordering.wellFormed.branches bb member with
    ⟨front, last, lastInst, whole, lastStored, isTerminator, -, -⟩
  have notLast : val ≠ last := by
    rintro rfl
    cases Option.some.inj (stored.symm.trans lastStored)
    cases kind : inst.kind <;> simp [kind, producesValue, InstKind.isTerminator] at *
  have inFront : val ∈ front := by
    simpa [whole, notLast] using defines.1
  have lastNotPhi : ¬ store.IsPhi last := by
    rintro ⟨other, otherStored, isPhi⟩
    cases Option.some.inj (lastStored.symm.trans otherStored)
    cases kind : lastInst.kind <;> simp [kind, InstKind.isPhi, InstKind.isTerminator] at *
  have increasing := analyzed.ordering.numbering.increasing bb inOrder
  rw [whole, List.pairwise_append] at increasing
  have later := increasing.2.2 val inFront last (List.mem_singleton_self last) defines.2 lastNotPhi
  have inside := analyzed.ordering.bounds inOrder defines.1 defines.2
  have lastInside := analyzed.ordering.bounds inOrder
    (by rw [whole]; simp : last ∈ store.instructions bb) lastNotPhi
  omega

theorem start_le_of_seen (isValue : IsValue store func val) (member : bb ∈ func.bbs)
    (notDefines : ¬ Defines store val bb) {earlier : BlockId} (earlierMem : earlier ∈ func.bbs)
    (notAfter : analyzer.linearOrder.idxOf earlier ≤ analyzer.linearOrder.idxOf bb)
    (seen : Seen store (store.cfg func) analyzer.linearOrder val earlier) :
    ∃ interval, analyzer.getLiveInterval val = some interval ∧
      interval.start ≤ (analyzer.numbers.liveInterval bb).start := by
  have ordering := analyzed.ordering
  have inOrder := analyzed.mem_linearOrder member
  have earlierIn := analyzed.mem_linearOrder earlierMem
  have hull := analyzed.hulls val isValue
  by_cases defined : ∃ dom ∈ analyzer.linearOrder, Defines store val dom ∧
      analyzer.linearOrder.idxOf dom ≤ analyzer.linearOrder.idxOf bb
  · rcases defined with ⟨dom, domIn, defines, domNotAfter⟩
    have different : dom ≠ bb := by
      rintro rfl
      exact notDefines defines
    have apart : analyzer.linearOrder.idxOf dom ≠ analyzer.linearOrder.idxOf bb :=
      fun equal => different ((List.idxOf_inj domIn).mp equal)
    have blocks := ordering.end_le_start domIn inOrder (by omega)
    have inside := ordering.bounds domIn defines.1 defines.2
    rcases hull.exists_of_start (startsOf_of_defines domIn defines) with ⟨interval, known, bound⟩
    exact ⟨interval, known, by omega⟩
  · have noEarlier : ∀ dom ∈ analyzer.linearOrder, Defines store val dom →
        analyzer.linearOrder.idxOf earlier < analyzer.linearOrder.idxOf dom := by
      intro dom domIn defines
      by_contra notBefore
      exact defined ⟨dom, domIn, defines, by omega⟩
    have touches : Touches store (store.cfg func) analyzer.linearOrder val earlier := by
      cases seen with
      | inl defines => exact absurd (noEarlier earlier earlierIn defines) (Nat.lt_irrefl _)
      | inr touches => exact touches
    rcases hull.exists_of_start
      (startsOf_of_touches ordering (List.nil_append _).symm earlierIn touches noEarlier) with
      ⟨interval, known, bound⟩
    have starts := (ordering.start_le_start_iff earlierIn inOrder).mpr notAfter
    exact ⟨interval, known, by omega⟩

theorem seen_of_start_le (isValue : IsValue store func val) (member : bb ∈ func.bbs)
    {interval : LiveInterval} (known : analyzer.getLiveInterval val = some interval)
    (bound : interval.start < (analyzer.numbers.liveInterval bb).end) :
    ∃ earlier ∈ func.bbs,
      analyzer.linearOrder.idxOf earlier ≤ analyzer.linearOrder.idxOf bb ∧
        Seen store (store.cfg func) analyzer.linearOrder val earlier := by
  have ordering := analyzed.ordering
  have inOrder := analyzed.mem_linearOrder member
  have hull := analyzed.hulls val isValue
  rw [known] at hull
  have notAfter : ∀ earlier ∈ analyzer.linearOrder,
      (analyzer.numbers.liveInterval earlier).start ≤ interval.start →
      analyzer.linearOrder.idxOf earlier ≤ analyzer.linearOrder.idxOf bb := by
    intro earlier earlierIn starts
    by_contra after
    have blocks := ordering.end_le_start inOrder earlierIn (by omega)
    omega
  rcases mem_startsOf hull.1.1 with
    ⟨earlier, earlierIn, ⟨defines, equal⟩ | ⟨touches, equal⟩⟩
  · have inside := ordering.bounds earlierIn defines.1 defines.2
    exact ⟨earlier, ordering.mem_iff.mp earlierIn, notAfter earlier earlierIn (by omega),
      .inl defines⟩
  · exact ⟨earlier, ordering.mem_iff.mp earlierIn,
      notAfter earlier earlierIn (Nat.le_of_eq equal.symm), .inr touches⟩

theorem le_end_of_seenBehind (isValue : IsValue store func val) (member : bb ∈ func.bbs)
    (seen : SeenBehind store func analyzer.loops analyzer.linearOrder val bb) :
    ∃ interval, analyzer.getLiveInterval val = some interval ∧
      (analyzer.numbers.liveInterval bb).end ≤ interval.end := by
  have ordering := analyzed.ordering
  have inOrder := analyzed.mem_linearOrder member
  -- It is enough to find an end that is not before the end of the block.
  suffices found : ∃ num ∈ endsOf store (store.cfg func) analyzer.linearOrder analyzer.loops
      analyzer.numbers val analyzer.linearOrder,
      (analyzer.numbers.liveInterval bb).end ≤ num by
    rcases found with ⟨num, isEnd, bound⟩
    rcases (analyzed.hulls val isValue).exists_of_end isEnd with ⟨interval, known, le⟩
    exact ⟨interval, known, Nat.le_trans bound le⟩
  rcases seen with live | ⟨later, laterMem, before, seen⟩ |
    ⟨header, headerMem, last, lastMem, ends, live, notAfter⟩
  · exact ⟨_, ⟨bb, inOrder, .inl ⟨live, rfl⟩⟩, Nat.le_refl _⟩
  · have laterIn := analyzed.mem_linearOrder laterMem
    have blocks := ordering.end_le_start inOrder laterIn before
    rcases seen with defines | live | ⟨id, inBlock, isUse⟩
    · have inside := ordering.bounds laterIn defines.1 defines.2
      exact ⟨_, ⟨later, laterIn, .inr (.inr (.inl ⟨defines, rfl⟩))⟩, by omega⟩
    · have nonempty := ordering.start_lt_end laterIn
      exact ⟨_, ⟨later, laterIn, .inl ⟨live, rfl⟩⟩, by omega⟩
    · have inside := ordering.bounds laterIn inBlock (not_isPhi_of_mem_operands isUse)
      exact ⟨_, ⟨later, laterIn, .inr (.inl ⟨id, inBlock, isUse, rfl⟩)⟩, by omega⟩
  · have lastIn := analyzed.mem_linearOrder lastMem
    exact ⟨_, ⟨header, analyzed.mem_linearOrder headerMem, .inr (.inr (.inr
      ⟨last, ends, live, rfl⟩))⟩, (ordering.end_le_end_iff inOrder lastIn).mpr notAfter⟩

theorem seenBehind_of_le_end (isValue : IsValue store func val) (member : bb ∈ func.bbs)
    {interval : LiveInterval} (known : analyzer.getLiveInterval val = some interval)
    (bound : (analyzer.numbers.liveInterval bb).end ≤ interval.end) :
    SeenBehind store func analyzer.loops analyzer.linearOrder val bb := by
  have ordering := analyzed.ordering
  have inOrder := analyzed.mem_linearOrder member
  have hull := analyzed.hulls val isValue
  rw [known] at hull
  rcases hull.2.1.1 with ⟨later, laterIn, isEnd⟩
  have laterMem := ordering.mem_iff.mp laterIn
  rcases isEnd with ⟨live, equal⟩ | ⟨id, inBlock, isUse, equal⟩ | ⟨defines, equal⟩ |
    ⟨last, ends, live, equal⟩
  · rw [equal, ordering.end_le_end_iff inOrder laterIn] at bound
    rcases Nat.eq_or_lt_of_le bound with same | before
    · rw [(List.idxOf_inj inOrder).mp same]
      exact .inl live
    · exact .inr (.inl ⟨later, laterMem, before, .inr (.inl live)⟩)
  · have inside := ordering.bounds laterIn inBlock (not_isPhi_of_mem_operands isUse)
    have before := ordering.lt_of_end_le inOrder laterIn (by omega) (equal ▸ bound)
    exact .inr (.inl ⟨later, laterMem, before, .inr (.inr ⟨id, inBlock, isUse⟩)⟩)
  · have inside := analyzed.liveNum_lt_end isValue laterMem defines
    have before := ordering.lt_of_end_le inOrder laterIn (by omega) (equal ▸ bound)
    exact .inr (.inl ⟨later, laterMem, before, .inl defines⟩)
  · -- A block outside of the function has the empty interval at 0.
    have nonempty := ordering.start_lt_end inOrder
    have lastIn : last ∈ analyzer.linearOrder := by
      by_contra outside
      rw [equal, ordering.numbering.outside last outside] at bound
      simp only at bound
      omega
    rw [equal, ordering.end_le_end_iff inOrder lastIn] at bound
    exact .inr (.inr ⟨later, laterMem, last, ordering.mem_iff.mp lastIn, ends, live, bound⟩)

end Analyzed

/-- The interval of a value covers its liveness if and only if the blocks that see
the value lie around those where it is live. -/
theorem covers_iff (wellFormed : store.WellFormed func)
    (returns : LivenessAnalyzer.make store (store.cfg func) = .ok analyzer)
    (isValue : IsValue store func val) :
    Covers store func analyzer val ↔
      SeenAround store func analyzer.loops analyzer.linearOrder val := by
  have analyzed := make_analyzed wellFormed returns
  have ordering := analyzed.ordering
  constructor
  · intro covers
    constructor
    case behind =>
      intro bb member live
      rcases covers.liveOut bb member live with ⟨interval, known, bound⟩
      exact analyzed.seenBehind_of_le_end isValue member known bound
    case before =>
      rintro bb member (live | ⟨front, id, back, split, notPhi, -, live⟩)
      · rcases covers.liveIn bb member live with ⟨interval, known, bound⟩
        have nonempty := ordering.start_lt_end (analyzed.mem_linearOrder member)
        exact analyzed.seen_of_start_le isValue member known (by omega)
      · rcases covers.afterInst bb member front id back split notPhi live with
          ⟨interval, known, bound, -⟩
        have inside := ordering.bounds (analyzed.mem_linearOrder member)
          (by rw [split]; simp : id ∈ store.instructions bb) notPhi
        exact analyzed.seen_of_start_le isValue member known (by omega)
  · intro around
    have atEnd : ∀ bb ∈ func.bbs, Live store (store.cfg func) val bb [] → ∃ interval,
        analyzer.getLiveInterval val = some interval ∧
          (analyzer.numbers.liveInterval bb).end ≤ interval.end := fun bb member live =>
      analyzed.le_end_of_seenBehind isValue member (around.behind bb member live)
    have atStart : ∀ bb ∈ func.bbs,
        Live store (store.cfg func) val bb (store.instructions bb) → ∃ interval,
        analyzer.getLiveInterval val = some interval ∧
          interval.start ≤ (analyzer.numbers.liveInterval bb).start := by
      intro bb member live
      rcases sections wellFormed member with ⟨phis, others, parts⟩
      rcases around.before bb member (.inl live) with ⟨earlier, earlierMem, notAfter, seen⟩
      exact analyzed.start_le_of_seen isValue member
        (fun defines => parts.fresh_of_live (List.nil_append _).symm live defines.1) earlierMem notAfter seen
    refine ⟨?_, atEnd, atStart⟩
    intro bb member front id back split notPhi live
    have inOrder := analyzed.mem_linearOrder member
    have inBlock : id ∈ store.instructions bb := by
      rw [split]
      simp
    have inside := ordering.bounds inOrder inBlock notPhi
    rcases sections wellFormed member with ⟨phis, others, parts⟩
    -- The interval starts at or before the instruction.
    have starts : ∃ interval, analyzer.getLiveInterval val = some interval ∧
        interval.start ≤ analyzer.numbers.liveNum id := by
      by_cases defines : Defines store val bb
      · have shifted : store.instructions bb = (front ++ [id]) ++ back := by
          rw [split, List.append_assoc, List.singleton_append]
        have notLater : val ∉ back := parts.fresh_of_live shifted live
        have bound : analyzer.numbers.liveNum val ≤ analyzer.numbers.liveNum id := by
          have increasing := ordering.numbering.increasing bb inOrder
          rw [split, List.pairwise_append] at increasing
          have valMem := defines.1
          rw [split, List.mem_append, List.mem_cons] at valMem
          rcases valMem with inFront | rfl | inBack
          · have later := increasing.2.2 val inFront id List.mem_cons_self defines.2 notPhi
            omega
          · exact Nat.le_refl _
          · exact absurd inBack notLater
        rcases (analyzed.hulls val isValue).exists_of_start
          (startsOf_of_defines inOrder defines) with ⟨interval, known, start⟩
        exact ⟨interval, known, Nat.le_trans start bound⟩
      · have seen : ∃ earlier ∈ func.bbs,
            analyzer.linearOrder.idxOf earlier ≤ analyzer.linearOrder.idxOf bb ∧
              Seen store (store.cfg func) analyzer.linearOrder val earlier := by
          apply around.before bb member
          by_cases inBb : val ∈ store.instructions bb
          · exact .inr ⟨front, id, back, split, notPhi, inBb, live⟩
          · left
            rw [split, List.mem_append, List.mem_cons, not_or, not_or] at inBb
            rw [split]
            exact LiveAlong.append (.skip inBb.2.1 live) inBb.1
        rcases seen with ⟨earlier, earlierMem, notAfter, seen⟩
        rcases analyzed.start_le_of_seen isValue member defines earlierMem notAfter seen with
          ⟨interval, known, start⟩
        exact ⟨interval, known, by omega⟩
    have ends : ∃ interval, analyzer.getLiveInterval val = some interval ∧
        analyzer.numbers.liveNum id < interval.end := by
      rcases live.cases_rest with ⟨before, user, after, backSplit, -, isUse⟩ | ⟨-, liveOut⟩
      · have userIn : user ∈ back := by
          rw [backSplit]
          simp
        have userInBlock : user ∈ store.instructions bb := by
          rw [split]
          simp [userIn]
        have userNotPhi := not_isPhi_of_mem_operands isUse
        have increasing := ordering.numbering.increasing bb inOrder
        rw [split, List.pairwise_append, List.pairwise_cons] at increasing
        have later := increasing.2.1.1 user userIn notPhi userNotPhi
        rcases (analyzed.hulls val isValue).exists_of_end
          ⟨bb, inOrder, .inr (.inl ⟨user, userInBlock, isUse, rfl⟩)⟩ with
          ⟨interval, known, bound⟩
        exact ⟨interval, known, by omega⟩
      · rcases atEnd bb member liveOut with ⟨interval, known, bound⟩
        exact ⟨interval, known, by omega⟩
    rcases starts with ⟨interval, known, start⟩
    rcases ends with ⟨interval', known', end'⟩
    cases Option.some.inj (known.symm.trans known')
    exact ⟨interval, known, start, end'⟩

/-- A loop that counts up from 1; the sum goes back to the phi of the header only. -/
def counting : Store :=
  .ofTables
    [{ type := .I64, kind := .kConst (.I64 1), users := [2, 3, 4], bb := some 0 },
      { kind := .kJump 1, bb := some 0 },
      { type := .I64, kind := .kPhi [⟨0, 0⟩, ⟨3, 2⟩], users := [3, 7], bb := some 1,
        inputs := [0, 3] },
      { type := .I64, kind := .kBinOp .kAdd, users := [2, 4], bb := some 1, inputs := [2, 0] },
      { type := .I64, kind := .kBinOp .kEQ, users := [5], bb := some 1, inputs := [3, 0] },
      { kind := .kIf 2 3, bb := some 1, inputs := [4] },
      { kind := .kJump 1, bb := some 2 },
      { kind := .kRet, bb := some 3, inputs := [2] }]
    [{ instructions := [0, 1], succ := [1], id := 0 },
      { instructions := [2, 3, 4, 5], pred := [0, 2], succ := [2, 3], id := 1 },
      { instructions := [6], pred := [1], succ := [1], id := 2 },
      { instructions := [7], pred := [1], id := 3 }] []

def fourBlocks : Function :=
  { bbs := [0, 1, 2, 3], resType := .I64 }

theorem counting_wellFormed : counting.WellFormed fourBlocks :=
  Store.checkWellFormed_sound rfl

theorem covers_iff_counting :
    ∃ analyzer, LivenessAnalyzer.make counting (counting.cfg fourBlocks) = .ok analyzer ∧
      IsValue counting fourBlocks 0 ∧
      (Covers counting fourBlocks analyzer 0 ↔
        SeenAround counting fourBlocks analyzer.loops analyzer.linearOrder 0) :=
  ⟨_, rfl, ⟨by decide, _, rfl, rfl⟩,
    covers_iff counting_wellFormed rfl ⟨by decide, _, rfl, rfl⟩⟩

/-- The sum is live at the end of the header, which the phi reads behind the back edge. -/
theorem sum_live : Live counting (counting.cfg fourBlocks) 3 1 [] := by
  have toLatch : (counting.cfg fourBlocks).Edge 1 2 := by decide
  have back : (counting.cfg fourBlocks).Edge 2 1 := by decide
  have isUse : counting.PhiUse 3 2 1 :=
    ⟨2, by decide, _, _, rfl, rfl, ⟨3, 2⟩, by decide, rfl, rfl⟩
  exact .jump toLatch (.skip (by decide) (.phi back isUse))

/-- The interval of the sum ends at the comparison. -/
theorem not_covers_counting :
    counting.WellFormed fourBlocks ∧ IsValue counting fourBlocks 3 ∧
      ∃ analyzer, LivenessAnalyzer.make counting (counting.cfg fourBlocks) = .ok analyzer ∧
        ¬ Covers counting fourBlocks analyzer 3 := by
  refine ⟨counting_wellFormed, ⟨by decide, _, rfl, rfl⟩, _, rfl, ?_⟩
  intro covers
  rcases covers.liveOut 1 (by decide) sum_live with ⟨interval, known, bound⟩
  cases Option.some.inj known
  exact absurd bound (by decide)

end LeechJit.Analysis
