import LeechJit.Analysis.LiveValid
import LeechJit.Analysis.ScanApart
import LeechJit.Analysis.ScanOrder
import LeechJit.Analysis.ScanRename

/-! # Orders that agree

If the scan gives the same locations in every sorted order, then no three intervals start
together, and the order of any two that do is harmless.
-/

namespace LeechJit.Analysis

open IR

variable {Key : Type} {initial : Key → LiveInterval}

/-! ## Scans that have come apart -/

namespace ScanState

theorem expired_active {state expired : ScanState Key} {key : Key}
    (result : state.expireOldIntervals key = .ok expired) :
    expired.active = state.active.dropWhile fun other =>
      decide ((state.intervals other).end ≤ (state.intervals key).start) := by
  rcases Result.bind_eq_ok.mp result with ⟨⟨pool, active⟩, looping, equal⟩
  cases equal
  exact expireLoop_active looping

variable [DecidableEq Key] {seen processed processed' : List Key} {now : Nat}
  {left right final final' : ScanState Key} {order : List Key}

/-- They stay apart to the end. -/
theorem Apart.run (apart : Apart seen left right)
    (awaits : ScanInvariant.Awaits initial processed now left order)
    (awaits' : ScanInvariant.Awaits initial processed' now right order)
    (fresh : ∀ key ∈ order, key ∉ seen)
    (result : order.foldlM scanStep left = .ok final)
    (result' : order.foldlM scanStep right = .ok final') :
    Apart (order.reverse ++ seen) final final' := by
  induction order generalizing seen processed processed' now left right with
  | nil =>
      cases result
      cases result'
      exact apart
  | cons first rest induction =>
      rcases awaits.round with ⟨expired, next, ready, round, stepping, later⟩
      rcases awaits'.round with ⟨expired', next', ready', round', stepping', later'⟩
      rw [List.foldlM_cons, stepping] at result
      rw [List.foldlM_cons, stepping'] at result'
      have apartExpired : Apart seen expired expired' := by
        constructor
        case active =>
          rw [expired_active ready.expires, expired_active ready'.expires, apart.active]
          simp only [awaits.invariant.start_eq, awaits.invariant.end_eq, awaits'.invariant.start_eq,
            awaits'.invariant.end_eq]
        case stackPos => rw [ready.stackPos, ready'.stackPos, apart.stackPos]
        case differs =>
          rw [ready.intervals, ready'.intervals]
          exact apart.differs
      have ends : ∀ other, (expired.intervals other).end = (expired'.intervals other).end := by
        intro other
        rw [ready.invariant.end_eq, ready'.invariant.end_eq]
      have apartNext := apartExpired.round (fresh first (.head _)) ends round round'
      have freshNext : ∀ key ∈ rest, key ∉ first :: seen := by
        intro key member old
        rw [List.mem_cons] at old
        cases old with
        | inl isFirst => exact (List.nodup_cons.mp awaits.nodup).1 (isFirst ▸ member)
        | inr old => exact fresh key (.tail _ member) old
      have ended := induction apartNext later later' freshNext result result'
      rwa [List.reverse_cons, List.append_assoc, List.singleton_append]

end ScanState

/-! ## Intervals that are alike -/

namespace ScanInvariant

variable {processed : List Key} {now : Nat} {state expired next : ScanState Key} {liveIn : Key}
  {first second : Key} {rest order : List Key}

/-- Intervals that are still to be placed are as they were at the start. -/
def Unread (initial : Key → LiveInterval) (processed : List Key) (state : ScanState Key) : Prop :=
  ∀ key, key ∉ processed → state.intervals key = initial key

variable [DecidableEq Key]

theorem Unread.round (unread : Unread initial processed state)
    (ready : Ready initial processed liveIn state expired)
    (round : ScanState.Round expired liveIn next) : Unread initial (liveIn :: processed) next := by
  intro key notMem
  rw [List.mem_cons, not_or] at notMem
  have before : expired.intervals key = initial key := by
    rw [ready.intervals, unread key notMem.2]
  have notActive : key ∉ expired.active :=
    fun member => notMem.2 (ready.invariant.activeProcessed key member)
  cases round with
  | free locId pool notFull allocated =>
      rw [ScanState.enter_of_ne notMem.1, ScanState.withPool_intervals, before]
  | takes spill others full split shorter =>
      have notSpill : key ≠ spill := by
        intro equal
        apply notActive
        simp [equal, split]
      rw [ScanState.enter_of_ne notMem.1, ScanState.release_of_ne notSpill, before]
  | spills spill others full split notShorter =>
      rw [ScanState.moveToStack_of_ne _ _ notMem.1, before]

theorem Awaits.scan_unread {final : ScanState Key}
    (awaits : Awaits initial processed now state order) (unread : Unread initial processed state)
    (result : order.foldlM ScanState.scanStep state = .ok final) :
    Unread initial (order.reverse ++ processed) final := by
  induction order generalizing processed now state with
  | nil =>
      cases result
      exact unread
  | cons first rest induction =>
      rcases awaits.round with ⟨expired, next, ready, round, stepping, later⟩
      rw [List.foldlM_cons, stepping] at result
      have ended := induction later (unread.round ready round) result
      rwa [List.reverse_cons, List.append_assoc, List.singleton_append]

/-- Names of equal intervals that are still to be placed can be exchanged. -/
theorem rename_swap (unread : Unread initial processed state)
    (invariant : ScanInvariant initial processed now state)
    (firstFresh : first ∉ processed) (secondFresh : second ∉ processed)
    (alike : initial first = initial second) :
    state.rename (Equiv.swap first second) = state := by
  apply ScanState.ext
  · rfl
  · funext key
    simp only [ScanState.rename, Function.comp_apply, Equiv.symm_swap]
    cases decEq key first with
    | isTrue isFirst =>
        rw [isFirst, Equiv.swap_apply_left, unread second secondFresh, unread first firstFresh,
          alike]
    | isFalse notFirst =>
        cases decEq key second with
        | isTrue isSecond =>
            rw [isSecond, Equiv.swap_apply_right, unread second secondFresh,
              unread first firstFresh, alike]
        | isFalse notSecond => rw [Equiv.swap_apply_of_ne_of_ne notFirst notSecond]
  · have same : state.active.map (Equiv.swap first second) = state.active.map id := by
      apply List.map_congr_left
      intro key member
      have old := invariant.activeProcessed key member
      apply Equiv.swap_apply_of_ne_of_ne
      · exact fun equal => firstFresh (equal ▸ old)
      · exact fun equal => secondFresh (equal ▸ old)
    exact same.trans (List.map_id _)
  · rfl

/-- Equal intervals do not get the same location, so their order matters. -/
theorem Awaits.alike_disagree (awaits : Awaits initial processed now state (first :: second :: rest))
    (unread : Unread initial processed state) (alike : initial first = initial second) :
    ∃ final final', (first :: second :: rest).foldlM ScanState.scanStep state = .ok final ∧
      (second :: first :: rest).foldlM ScanState.scanStep state = .ok final' ∧
      final'.intervals ≠ final.intervals := by
  have nodup := awaits.nodup
  rw [List.nodup_cons, List.nodup_cons, List.mem_cons, not_or] at nodup
  rcases awaits.scan with ⟨final, last, result, invariant⟩
  have renamedRest : rest.map (Equiv.swap first second) = rest := by
    have same : rest.map (Equiv.swap first second) = rest.map id := by
      apply List.map_congr_left
      intro key member
      apply Equiv.swap_apply_of_ne_of_ne
      · exact fun equal => nodup.1.2 (equal ▸ member)
      · exact fun equal => nodup.2.1 (equal ▸ member)
    exact same.trans (List.map_id _)
  have renamed := state.scan_rename (Equiv.swap first second) (first :: second :: rest)
  rw [List.map_cons, List.map_cons, Equiv.swap_apply_left, Equiv.swap_apply_right, renamedRest,
    rename_swap unread awaits.invariant (awaits.fresh first (by simp))
      (awaits.fresh second (by simp)) alike, result] at renamed
  refine ⟨final, _, result, renamed, fun equal => ?_⟩
  have same : final.intervals second = final.intervals first := by
    have named := ScanState.rename_intervals (Equiv.swap first second) final second
    rw [Equiv.swap_apply_right] at named
    rw [← named, equal]
  have nonempty := awaits.nonempty first (by simp)
  have overlap : (initial first).Overlaps (initial second) := by
    rw [← alike]
    exact ⟨nonempty, nonempty⟩
  have sameLoc := congrArg LiveInterval.locationId same.symm
  have firstMem : first ∈ (first :: second :: rest).reverse ++ processed := by simp
  have secondMem : second ∈ (first :: second :: rest).reverse ++ processed := by simp
  cases onStack : (final.intervals first).onStack with
  | true =>
      exact invariant.slots first firstMem second secondMem nodup.1.1 onStack
        (same ▸ onStack) sameLoc
  | false =>
      exact invariant.apart first firstMem second secondMem nodup.1.1 onStack
        (same ▸ onStack) sameLoc overlap

/-! ## Orders that agree -/

/-- All sorted orders of the intervals give the same locations. -/
def Agree (initial : Key → LiveInterval) (state : ScanState Key) (order : List Key) : Prop :=
  ∀ left right : List Key, left.Perm order → right.Perm order →
    left.Pairwise (fun first second => (initial first).start ≤ (initial second).start) →
    right.Pairwise (fun first second => (initial first).start ≤ (initial second).start) →
    ∀ final final', left.foldlM ScanState.scanStep state = .ok final →
      right.foldlM ScanState.scanStep state = .ok final' → final'.intervals = final.intervals

theorem Agree.perm {order' : List Key} (agree : Agree initial state order)
    (perm : order'.Perm order) : Agree initial state order' :=
  fun left right leftPerm rightPerm => agree left right (leftPerm.trans perm) (rightPerm.trans perm)

theorem Agree.tail (agree : Agree initial state (first :: rest))
    (awaits : Awaits initial processed now state (first :: rest))
    (stepping : state.scanStep first = .ok next) : Agree initial next rest := by
  intro left right leftPerm rightPerm leftSorted rightSorted final final' result result'
  have below := (List.pairwise_cons.mp awaits.sorted).1
  apply agree (first :: left) (first :: right) (leftPerm.cons first) (rightPerm.cons first)
  · exact List.pairwise_cons.mpr
      ⟨fun key member => below key (leftPerm.mem_iff.mp member), leftSorted⟩
  · exact List.pairwise_cons.mpr
      ⟨fun key member => below key (rightPerm.mem_iff.mp member), rightSorted⟩
  · rw [List.foldlM_cons, stepping]
    exact result
  · rw [List.foldlM_cons, stepping]
    exact result'

omit [DecidableEq Key] in
/-- Two intervals that start together can come first in either order. -/
theorem Awaits.swapped (awaits : Awaits initial processed now state (first :: second :: rest))
    (together : (initial first).start = (initial second).start) :
    Awaits initial processed now state (second :: first :: rest) := by
  apply awaits.perm (List.Perm.swap first second rest)
  have sorted := awaits.sorted
  rw [List.pairwise_cons, List.pairwise_cons] at sorted ⊢
  refine ⟨fun key member => ?_, fun key member => ?_, sorted.2.2⟩
  · rw [List.mem_cons] at member
    cases member with
    | inl isFirst => rw [isFirst, together]
    | inr inRest => exact sorted.2.1 key inRest
  · exact sorted.1 key (.tail _ member)

/-- The first two intervals are placed. -/
theorem Awaits.twoSteps (awaits : Awaits initial processed now state (first :: second :: rest)) :
    ∃ after, (state.scanStep first >>= fun next => next.scanStep second) = .ok after ∧
      Awaits initial (second :: first :: processed) (initial second).start after rest ∧
      (first :: second :: rest).foldlM ScanState.scanStep state =
        rest.foldlM ScanState.scanStep after := by
  rcases awaits.step with ⟨next, stepping, later, -⟩
  rcases later.step with ⟨after, steppingAfter, last, -⟩
  refine ⟨after, ?_, last, ?_⟩
  · rw [stepping]
    exact steppingAfter
  · rw [List.foldlM_cons, stepping, Result.ok_bind, List.foldlM_cons, steppingAfter, Result.ok_bind]

/-- Orders that agree have a harmless tie, if the shorter interval comes first. -/
theorem Awaits.shorter_harmless
    (awaits : Awaits initial processed now state (first :: second :: rest))
    (agree : Agree initial state (first :: second :: rest))
    (together : (initial first).start = (initial second).start)
    (shorter : (initial first).end < (initial second).end) :
    Harmless (ends initial state.active) (initial first) (initial second) := by
  refine ⟨shorter.ne, ?_⟩
  have firstMem : first ∈ first :: second :: rest := .head _
  have secondMem : second ∈ first :: second :: rest := .tail _ (.head _)
  have firstFresh := awaits.fresh first firstMem
  have secondFresh := awaits.fresh second secondMem
  have swapped := awaits.swapped together
  rcases awaits.invariant.ready (awaits.notBefore first firstMem) with ⟨expired, ready⟩
  have meets := ready.meets firstFresh secondFresh (awaits.unplaced first firstMem)
    (awaits.unplaced second secondMem) together.symm (awaits.nonempty first firstMem) shorter
  have expires : state.expireOldIntervals second = .ok expired := by
    rw [← ready.expires, ScanState.expireOldIntervals, ScanState.expireOldIntervals,
      awaits.invariant.start_eq, awaits.invariant.start_eq, together]
  rw [← awaits.invariant.expired_ends ready.expires, max_eq_right shorter.le]
  apply Classical.byContradiction
  intro harmful
  rcases ready.apart meets firstFresh secondFresh (awaits.unplaced first firstMem)
    (awaits.unplaced second secondMem) harmful with ⟨left, right, leftSteps, rightSteps, apart⟩
  rw [← ScanState.scanStep_expired ready.expires ready.outlasts] at leftSteps
  rw [← ScanState.scanStep_expired expires meets.long_outlasts] at rightSteps
  rcases awaits.twoSteps with ⟨leftAgain, leftTwo, leftAwaits, leftRun⟩
  rcases swapped.twoSteps with ⟨rightAgain, rightTwo, rightAwaits, rightRun⟩
  cases Except.ok.inj (leftSteps.symm.trans leftTwo)
  cases Except.ok.inj (rightSteps.symm.trans rightTwo)
  rw [together] at rightAwaits
  rcases leftAwaits.scan with ⟨final, -, result, -⟩
  rcases rightAwaits.scan with ⟨final', -, result', -⟩
  have nodup := awaits.nodup
  rw [List.nodup_cons, List.nodup_cons, List.mem_cons, not_or] at nodup
  have fresh : ∀ key ∈ rest, key ∉ [first, second] := by
    intro key member old
    rcases List.mem_pair.mp old with isFirst | isSecond
    · exact nodup.1.2 (isFirst ▸ member)
    · exact nodup.2.1 (isSecond ▸ member)
  have ended := apart.run leftAwaits rightAwaits fresh result result'
  rcases ended.differs with ⟨key, -, differs⟩
  apply differs
  rw [← leftRun] at result
  rw [← rightRun] at result'
  rw [agree _ _ (List.Perm.refl _) (List.Perm.swap first second rest) awaits.sorted swapped.sorted
    final final' result result']

/-- Orders that agree have a harmless tie. -/
theorem Awaits.harmless (awaits : Awaits initial processed now state (first :: second :: rest))
    (unread : Unread initial processed state) (valid : ∀ key, (initial key).Valid)
    (agree : Agree initial state (first :: second :: rest))
    (together : (initial first).start = (initial second).start) :
    Harmless (ends initial state.active) (initial first) (initial second) := by
  have swapped := awaits.swapped together
  have agreeSwapped := agree.perm (List.Perm.swap first second rest)
  rcases Nat.lt_trichotomy (initial first).end (initial second).end with shorter | same | longer
  · exact awaits.shorter_harmless agree together shorter
  · have alike := (valid first).ext (valid second) together same
    rcases awaits.alike_disagree unread alike with ⟨final, final', result, result', differ⟩
    exact absurd (agree _ _ (List.Perm.refl _) (List.Perm.swap first second rest) awaits.sorted
      swapped.sorted final final' result result') differ
  · exact (swapped.shorter_harmless agreeSwapped together.symm longer).symm together.symm

/-! ## Three intervals -/

/-- Once an interval has been placed that ends by `bound`, every register is held by an interval
that does. -/
theorem hold_count {held : List Nat} {interval : LiveInterval} {bound : Nat}
    (sorted : held.Pairwise (· ≤ ·))
    (count : ((held.filter fun «end» => decide (interval.start < «end»)).countP fun «end» =>
      decide («end» ≤ bound)) + 1 = kNumRegs)
    (nonempty : interval.start < interval.end) (early : interval.end ≤ bound) :
    ((hold held interval).filter fun «end» => decide (interval.start < «end»)).countP
      (fun «end» => decide («end» ≤ bound)) = kNumRegs := by
  rw [hold]
  generalize isHeld : (held.filter fun «end» => decide (interval.start < «end»)) = alive at count
  have aliveSorted : alive.Pairwise (· ≤ ·) := isHeld ▸ sorted.filter _
  have aliveAbove : ∀ value ∈ alive, interval.start < value := by
    intro value member
    rw [← isHeld, List.mem_filter] at member
    exact of_decide_eq_true member.2
  have wholeSorted := aliveSorted.orderedInsert interval.end alive
  have perm := List.perm_orderedInsert (· ≤ ·) interval.end alive
  generalize alive.orderedInsert (· ≤ ·) interval.end = whole at wholeSorted perm
  have wholeCount : whole.countP (fun «end» => decide («end» ≤ bound)) = kNumRegs := by
    rw [perm.countP_eq, List.countP_cons, if_pos (decide_eq_true early), count]
  have above : ∀ value ∈ whole.take kNumRegs,
      decide (interval.start < value) = true := by
    intro value member
    have inWhole := perm.mem_iff.mp (List.mem_of_mem_take member)
    rw [List.mem_cons] at inWhole
    cases inWhole with
    | inl isNew => exact decide_eq_true (isNew ▸ nonempty)
    | inr old => exact decide_eq_true (aliveAbove value old)
  rw [List.filter_eq_self.mpr above]
  -- what is left out ends no earlier than what is held
  have parts := wholeSorted
  rw [← List.take_append_drop kNumRegs whole, List.pairwise_append] at parts
  have split := wholeCount
  rw [← List.take_append_drop kNumRegs whole, List.countP_append] at split
  cases Nat.eq_zero_or_pos ((whole.drop kNumRegs).countP fun «end» => decide («end» ≤ bound)) with
  | inl none => omega
  | inr some =>
      rcases List.countP_pos_iff.mp some with ⟨last, lastMem, lastEarly⟩
      have all : (whole.take kNumRegs).countP (fun «end» => decide («end» ≤ bound)) =
          (whole.take kNumRegs).length := by
        rw [List.countP_eq_length]
        intro value member
        exact decide_eq_true ((parts.2.2 value member last lastMem).trans
          (of_decide_eq_true lastEarly))
      have long : kNumRegs < whole.length := by
        have dropped := List.length_pos_of_mem lastMem
        rw [List.length_drop] at dropped
        omega
      rw [all, List.length_take, min_eq_left long.le]

/-- What holds after the first interval has been placed. -/
theorem Awaits.goesOn (awaits : Awaits initial processed now state (first :: rest))
    (unread : Unread initial processed state) (agree : Agree initial state (first :: rest)) :
    ∃ next, Awaits initial (first :: processed) (initial first).start next rest ∧
      Unread initial (first :: processed) next ∧ Agree initial next rest ∧
      ends initial next.active = hold (ends initial state.active) (initial first) := by
  rcases awaits.round with ⟨expired, next, ready, round, stepping, later⟩
  exact ⟨next, later, unread.round ready round, agree.tail awaits stepping,
    ready.round_ends awaits.invariant round⟩

section Three

variable {third : Key}

omit [DecidableEq Key] in
/-- Three intervals that start together can come first in any order. -/
theorem Awaits.rotated (awaits : Awaits initial processed now state (first :: second :: third :: rest))
    (together : (initial first).start = (initial second).start)
    (togetherThird : (initial second).start = (initial third).start) :
    Awaits initial processed now state (second :: third :: first :: rest) := by
  have perm : (second :: third :: first :: rest).Perm (first :: second :: third :: rest) :=
    @List.perm_middle _ first [second, third] rest
  apply awaits.perm perm
  have sorted := awaits.sorted
  simp only [List.pairwise_cons, List.mem_cons] at sorted ⊢
  refine ⟨?_, ?_, ?_, sorted.2.2.2⟩
  · intro key member
    rcases member with isThird | isFirst | inRest
    · rw [isThird, togetherThird]
    · rw [isFirst, together]
    · exact sorted.2.1 key (.inr inRest)
  · intro key member
    rcases member with isFirst | inRest
    · rw [isFirst, together, togetherThird]
    · exact sorted.2.2.1 key inRest
  · exact fun key inRest => sorted.1 key (.inr (.inr inRest))

/-- A third interval that starts together with two others does not end before them. -/
theorem Awaits.third_longer
    (awaits : Awaits initial processed now state (first :: second :: third :: rest))
    (unread : Unread initial processed state) (valid : ∀ key, (initial key).Valid)
    (agree : Agree initial state (first :: second :: third :: rest))
    (together : (initial first).start = (initial second).start)
    (togetherThird : (initial second).start = (initial third).start) :
    max (initial second).end (initial third).end < (initial first).end := by
  apply Nat.lt_of_not_ge
  intro early
  have perm : (second :: third :: first :: rest).Perm (first :: second :: third :: rest) :=
    @List.perm_middle _ first [second, third] rest
  have before := (awaits.rotated together togetherThird).harmless unread valid (agree.perm perm)
    togetherThird
  rcases awaits.goesOn unread agree with ⟨next, later, unreadNext, agreeNext, nextEnds⟩
  have after := later.harmless unreadNext valid agreeNext togetherThird
  rw [nextEnds] at after
  have countBefore := before.2
  have countAfter := after.2
  rw [← together] at countBefore countAfter
  rw [hold_count awaits.invariant.ends_sorted countBefore (awaits.nonempty first (.head _)) early]
    at countAfter
  omega

/-- No three intervals start together. -/
theorem Awaits.not_three
    (awaits : Awaits initial processed now state (first :: second :: third :: rest))
    (unread : Unread initial processed state) (valid : ∀ key, (initial key).Valid)
    (agree : Agree initial state (first :: second :: third :: rest))
    (together : (initial first).start = (initial second).start) :
    (initial second).start ≠ (initial third).start := by
  intro togetherThird
  have firstLast := awaits.third_longer unread valid agree together togetherThird
  have secondLast := (awaits.swapped together).third_longer unread valid
    (agree.perm (List.Perm.swap first second (third :: rest))) together.symm
    (together.trans togetherThird)
  omega

end Three

theorem Awaits.tiesHarmless (awaits : Awaits initial processed now state order)
    (unread : Unread initial processed state) (valid : ∀ key, (initial key).Valid)
    (agree : Agree initial state order) :
    TiesHarmless initial (ends initial state.active) order := by
  induction order generalizing processed now state with
  | nil => trivial
  | cons first rest induction =>
      rcases awaits.goesOn unread agree with ⟨next, later, unreadNext, agreeNext, nextEnds⟩
      have harmlessRest := induction later unreadNext agreeNext
      rw [nextEnds] at harmlessRest
      cases rest with
      | nil => trivial
      | cons second others =>
          refine ⟨fun together => ⟨awaits.harmless unread valid agree together, ?_⟩, harmlessRest⟩
          intro third isThird
          cases others with
          | nil => cases isThird
          | cons head tail =>
              cases isThird
              exact awaits.not_three unread valid agree together

end ScanInvariant

end LeechJit.Analysis
