import LeechJit.Analysis.LivePass

/-! # When the live intervals cover liveness

The pass meets each block once, so it sees a use behind a back edge only as far as
a loop header carries it. Its intervals cover all of a value's live range exactly
when the blocks it does see the value in lie around that range.
-/

namespace LeechJit.Analysis

open IR LeechJit.Graph

variable {store : Store} {func : Function} {order done : List BlockId}
  {loops : LoopAnalyzer BlockId} {numbers : LiveNumbers} {bb other : BlockId} {val : InstId}
  {analyzer : LivenessAnalyzer}

/-! ## Positions -/

theorem pairwise_idxOf (relation : BlockId → BlockId → Prop)
    (pairwise : order.Pairwise relation) (member : bb ∈ order) (otherMem : other ∈ order)
    (before : order.idxOf bb < order.idxOf other) : relation bb other := by
  have holds := List.pairwise_iff_getElem.mp pairwise (order.idxOf bb) (order.idxOf other)
    (List.idxOf_lt_length_iff.mpr member) (List.idxOf_lt_length_iff.mpr otherMem) before
  simpa using holds

namespace Ordering

variable (ordering : Ordering store func order numbers)

include ordering

theorem end_le_start (member : bb ∈ order) (otherMem : other ∈ order)
    (before : order.idxOf bb < order.idxOf other) :
    (numbers.liveInterval bb).end ≤ (numbers.liveInterval other).start :=
  pairwise_idxOf (fun left right =>
    (numbers.liveInterval left).end ≤ (numbers.liveInterval right).start)
    ordering.numbering.apart member otherMem before

theorem start_lt_end (member : bb ∈ order) :
    (numbers.liveInterval bb).start < (numbers.liveInterval bb).end := by
  have nonempty := ordering.numbering.nonempty bb member
  omega

theorem start_le_start_iff (member : bb ∈ order) (otherMem : other ∈ order) :
    (numbers.liveInterval bb).start ≤ (numbers.liveInterval other).start ↔
      order.idxOf bb ≤ order.idxOf other := by
  have nonempty := ordering.start_lt_end member
  have otherNonempty := ordering.start_lt_end otherMem
  rcases Nat.lt_trichotomy (order.idxOf bb) (order.idxOf other) with before | same | after
  · have apart := ordering.end_le_start member otherMem before
    omega
  · rw [(List.idxOf_inj member).mp same]
    simp
  · have apart := ordering.end_le_start otherMem member after
    omega

theorem end_le_end_iff (member : bb ∈ order) (otherMem : other ∈ order) :
    (numbers.liveInterval bb).end ≤ (numbers.liveInterval other).end ↔
      order.idxOf bb ≤ order.idxOf other := by
  have nonempty := ordering.start_lt_end member
  have otherNonempty := ordering.start_lt_end otherMem
  rcases Nat.lt_trichotomy (order.idxOf bb) (order.idxOf other) with before | same | after
  · have apart := ordering.end_le_start member otherMem before
    omega
  · rw [(List.idxOf_inj member).mp same]
    simp
  · have apart := ordering.end_le_start otherMem member after
    omega

/-- A number strictly inside a block that does not lie before the end of another. -/
theorem lt_of_end_le {num : Nat} (member : bb ∈ order) (otherMem : other ∈ order)
    (inside : num < (numbers.liveInterval other).end)
    (past : (numbers.liveInterval bb).end ≤ num) : order.idxOf bb < order.idxOf other := by
  by_contra notBefore
  have ends := (ordering.end_le_end_iff otherMem member).mpr (by omega)
  omega

end Ordering

theorem Hull.exists_of_start {starts ends : Set Nat} {known : Option LiveInterval} {num : Nat}
    (hull : Hull starts ends known) (member : num ∈ starts) :
    ∃ interval, known = some interval ∧ interval.start ≤ num := by
  cases known with
  | none =>
      rw [hull.1] at member
      cases member
  | some interval => exact ⟨interval, rfl, hull.1.2 member⟩

theorem Hull.exists_of_end {starts ends : Set Nat} {known : Option LiveInterval} {num : Nat}
    (hull : Hull starts ends known) (member : num ∈ ends) :
    ∃ interval, known = some interval ∧ num ≤ interval.end := by
  cases known with
  | none =>
      rw [hull.2] at member
      cases member
  | some interval => exact ⟨interval, rfl, hull.2.1.2 member⟩

/-! ## The starts, by positions -/

theorem mem_startsOf {num : Nat}
    (member : num ∈ startsOf store (store.cfg func) order numbers val done) :
    ∃ bb ∈ done, (Defines store val bb ∧ num = numbers.liveNum val) ∨
      (Touches store (store.cfg func) order val bb ∧ num = (numbers.liveInterval bb).start) := by
  induction done with
  | nil => cases member
  | cons bb rest induction =>
      rcases member with ⟨defines, equal⟩ | ⟨-, later | ⟨touches, equal⟩⟩
      · exact ⟨bb, List.mem_cons_self, .inl ⟨defines, equal⟩⟩
      · rcases induction later with ⟨other, inRest, found⟩
        exact ⟨other, List.mem_cons_of_mem _ inRest, found⟩
      · exact ⟨bb, List.mem_cons_self, .inr ⟨touches, equal⟩⟩

theorem startsOf_of_defines (member : bb ∈ done) (defines : Defines store val bb) :
    numbers.liveNum val ∈ startsOf store (store.cfg func) order numbers val done := by
  induction done with
  | nil => cases member
  | cons first rest induction =>
      by_cases definesFirst : Defines store val first
      · exact .inl ⟨definesFirst, rfl⟩
      · have inRest : bb ∈ rest := by
          rcases List.mem_cons.mp member with rfl | inRest
          · exact absurd defines definesFirst
          · exact inRest
        exact .inr ⟨definesFirst, .inl (induction inRest)⟩

theorem startsOf_of_touches {front : List BlockId}
    (ordering : Ordering store func order numbers) (split : order = front ++ done)
    (member : bb ∈ done) (touches : Touches store (store.cfg func) order val bb)
    (before : ∀ dom ∈ order, Defines store val dom → order.idxOf bb < order.idxOf dom) :
    (numbers.liveInterval bb).start ∈
      startsOf store (store.cfg func) order numbers val done := by
  induction done generalizing front with
  | nil => cases member
  | cons first rest induction =>
      have firstMem : first ∈ order := by
        rw [split]
        simp
      rcases List.mem_cons.mp member with rfl | inRest
      · have notDefines : ¬ Defines store val bb := fun defines =>
          Nat.lt_irrefl _ (before bb firstMem defines)
        exact .inr ⟨notDefines, .inr ⟨touches, rfl⟩⟩
      · have bbMem : bb ∈ order := by
          rw [split]
          simp [inRest]
        have later := (idxOf_lt_iff ordering.nodup split bbMem).mpr inRest
        have notDefines : ¬ Defines store val first := by
          intro defines
          have earlier := before first firstMem defines
          omega
        have shifted : order = (front ++ [first]) ++ rest := by
          rw [split, List.append_assoc, List.singleton_append]
        exact .inr ⟨notDefines, .inl (induction shifted inRest)⟩

/-! ## The run of the analyzer -/

/-- Before the first block nothing is known. -/
theorem Ranged.initial (store : Store) (func : Function) (order : List BlockId)
    (loops : LoopAnalyzer BlockId) (numbers : LiveNumbers) :
    Ranged store func order loops numbers [] {} where
  sets := ⟨by simp, fun _ _ => rfl⟩
  hulls val := ⟨rfl, by ext num; simp [endsOf]⟩
  loopsValid := by simp
  toZero := by simp

theorem Ranged.run {front : List BlockId} {ranges after : LiveRanges}
    (ordering : Ordering store func order numbers)
    (ranged : Ranged store func order loops numbers done ranges) (split : order = front ++ done)
    (result : front.reverse.foldlM (calcBlockRange store (store.cfg func) loops numbers) ranges =
      .ok after) : Ranged store func order loops numbers order after := by
  induction front using List.reverseRecOn generalizing done ranges with
  | nil =>
      cases result
      rw [List.nil_append] at split
      rw [split] at ranged ⊢
      exact ranged
  | append_singleton front bb induction =>
      rw [List.reverse_append, List.reverse_singleton, List.singleton_append] at result
      rcases Result.bind_eq_ok.mp result with ⟨next, first, others⟩
      have shifted : order = front ++ bb :: done := by
        rw [split, List.append_assoc, List.singleton_append]
      exact induction (ranged.block ordering shifted first) shifted others

theorem zeroInterval_fold {ids : List InstId} {ranges after : LiveRanges}
    (result : ids.foldlM zeroInterval ranges = .ok after) (notMem : val ∉ ids) :
    after.liveIntervals val = ranges.liveIntervals val := by
  induction ids generalizing ranges with
  | nil =>
      cases result
      rfl
  | cons id rest induction =>
      rcases Result.bind_eq_ok.mp result with ⟨next, first, others⟩
      rw [List.mem_cons, not_or] at notMem
      rw [induction others notMem.2]
      cases stored : ranges.liveIntervals id with
      | none =>
          simp only [zeroInterval, stored] at first
          cases first
      | some liveIn =>
          simp only [zeroInterval, stored] at first
          rcases Result.bind_eq_ok.mp first with ⟨interval, -, equal⟩
          cases equal
          exact setLiveInterval_of_ne notMem.1

theorem zeroInterval_unplaced {ids : List InstId} {ranges after : LiveRanges}
    (result : ids.foldlM zeroInterval ranges = .ok after)
    (unplaced : ∀ val interval, ranges.liveIntervals val = some interval →
      interval.onStack = false) :
    ∀ val interval, after.liveIntervals val = some interval → interval.onStack = false := by
  induction ids generalizing ranges with
  | nil =>
      cases result
      exact unplaced
  | cons id rest induction =>
      rcases Result.bind_eq_ok.mp result with ⟨next, first, others⟩
      apply induction others
      intro val interval known
      cases stored : ranges.liveIntervals id with
      | none =>
          simp only [zeroInterval, stored] at first
          cases first
      | some liveIn =>
          simp only [zeroInterval, stored] at first
          rcases Result.bind_eq_ok.mp first with ⟨zeroed, valid, equal⟩
          cases equal
          by_cases same : val = id
          · subst same
            rw [setLiveInterval_self] at known
            rw [← Option.some.inj known, (LiveInterval.validate_eq_ok.mp valid).2]
            exact unplaced val liveIn stored
          · rw [setLiveInterval_of_ne same] at known
            exact unplaced val interval known

/-- `val` is an instruction of the function that produces a value. -/
def IsValue (store : Store) (func : Function) (val : InstId) : Prop :=
  val ∈ store.listed func ∧
    ∃ inst, store.insts val = some inst ∧ producesValue inst.kind = true

/-- What a run of the analyzer that returns leaves behind. -/
structure Analyzed (store : Store) (func : Function) (analyzer : LivenessAnalyzer) : Prop where
  ordering : Ordering store func analyzer.linearOrder analyzer.numbers
  hulls : ∀ val, IsValue store func val →
    Hull (startsOf store (store.cfg func) analyzer.linearOrder analyzer.numbers val
        analyzer.linearOrder)
      (endsOf store (store.cfg func) analyzer.linearOrder analyzer.loops analyzer.numbers val
        analyzer.linearOrder) (analyzer.getLiveInterval val)
  unplaced : ∀ val interval, analyzer.getLiveInterval val = some interval →
    interval.onStack = false

theorem make_analyzed (wellFormed : store.WellFormed func)
    (returns : LivenessAnalyzer.make store (store.cfg func) = .ok analyzer) :
    Analyzed store func analyzer := by
  rcases Result.bind_eq_ok.mp returns with ⟨loops, -, rest⟩
  rcases Result.bind_eq_ok.mp rest with ⟨linearOrder, ordered, rest⟩
  rcases Result.bind_eq_ok.mp rest with ⟨-, -, rest⟩
  rcases Result.bind_eq_ok.mp rest with ⟨numbers, numbered, rest⟩
  rcases Result.bind_eq_ok.mp rest with ⟨final, calculated, equal⟩
  cases equal
  rcases Result.bind_eq_ok.mp calculated with ⟨ranges, passed, zeroed⟩
  have perm : linearOrder.Perm func.bbs :=
    buildLinearOrder_perm wellFormed.closed wellFormed.reachable ordered
  have nodup := perm.nodup_iff.mpr wellFormed.closed.nodup
  have instsNodup := (perm.flatMap_right store.instructions).nodup_iff.mpr wellFormed.nodup
  have ordering : Ordering store func linearOrder numbers :=
    ⟨wellFormed, perm, fillLiveNumbers_numbering nodup instsNodup numbered⟩
  have ranged := (Ranged.initial store func linearOrder loops numbers).run ordering (List.append_nil _).symm passed
  refine ⟨ordering, ?_, zeroInterval_unplaced zeroed ?_⟩
  rotate_left
  · intro val interval known
    have hull := ranged.hulls val
    rw [known] at hull
    exact hull.2.2
  rintro val ⟨-, inst, stored, produces⟩
  have notZero : val ∉ ranges.toZero := by
    intro member
    rcases ranged.toZero val member with ⟨other, otherStored, noValue⟩
    cases Option.some.inj (stored.symm.trans otherStored)
    rw [produces] at noValue
    cases noValue
  have hull := ranged.hulls val
  rw [← zeroInterval_fold zeroed notZero] at hull
  exact hull

end LeechJit.Analysis
