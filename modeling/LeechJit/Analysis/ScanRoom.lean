import LeechJit.Analysis.ScanOrder

/-! # No needless spills

An active interval has started and not ended, so while no point lies in more intervals than
there are registers, every interval finds a register free.
-/

namespace LeechJit.IR.LiveInterval

/-- The point lies in `[start, end)`. -/
def Contains (interval : LiveInterval) (point : Nat) : Prop :=
  interval.start ≤ point ∧ point < interval.end

instance (interval : LiveInterval) (point : Nat) : Decidable (interval.Contains point) := by
  unfold Contains
  infer_instance

end LeechJit.IR.LiveInterval

namespace LeechJit.Analysis

open IR

variable {Key : Type} {initial : Key → LiveInterval} {order rest processed : List Key}
  {now : Nat} {state expired : ScanState Key} {liveIn : Key}

/-- How many of the intervals contain a point. -/
def pressure (order : List Key) (intervals : Key → LiveInterval) (point : Nat) : Nat :=
  order.countP fun key => decide ((intervals key).Contains point)

namespace ScanInvariant

/-- The active intervals and the next one all contain the point where it starts. -/
theorem Ready.active_length_lt (ready : Ready initial processed liveIn state expired)
    (fresh : liveIn ∉ processed) (nonempty : (initial liveIn).start < (initial liveIn).end)
    (within : ∀ key ∈ liveIn :: processed, key ∈ order) :
    expired.active.length < pressure order initial (initial liveIn).start := by
  have invariant := ready.invariant
  have contained : ∀ key ∈ liveIn :: expired.active,
      (initial key).Contains (initial liveIn).start := by
    intro key member
    cases member with
    | head => exact ⟨le_rfl, nonempty⟩
    | tail _ active =>
        have alive := ready.outlasts key active
        rw [invariant.start_eq, invariant.end_eq] at alive
        exact ⟨invariant.started key (invariant.activeProcessed key active), alive⟩
  have nodup : (liveIn :: expired.active).Nodup :=
    List.nodup_cons.mpr
      ⟨fun active => fresh (invariant.activeProcessed liveIn active), invariant.activeNodup⟩
  have subset : (liveIn :: expired.active) ⊆
      order.filter fun key => decide ((initial key).Contains (initial liveIn).start) := by
    intro key member
    have inOrder : key ∈ order := by
      apply within
      cases member with
      | head => exact .head _
      | tail _ active => exact .tail _ (invariant.activeProcessed key active)
    exact List.mem_filter.mpr ⟨inOrder, decide_eq_true (contained key member)⟩
  have length := (nodup.subperm subset).length_le
  rw [← List.countP_eq_length_filter] at length
  exact length

variable [DecidableEq Key]

/-- No interval has been moved to the stack. -/
def NoneMoved (initial : Key → LiveInterval) (state : ScanState Key) : Prop :=
  ∀ key, (state.intervals key).onStack = (initial key).onStack

/-- A round that has a register left moves nothing. -/
theorem NoneMoved.round {state' : ScanState Key} (noneMoved : NoneMoved initial state)
    (intervals : expired.intervals = state.intervals)
    (notFull : expired.active.length ≠ kNumRegs)
    (round : ScanState.Round expired liveIn state') : NoneMoved initial state' := by
  cases round with
  | free locId pool _ allocated =>
      intro key
      rw [ScanState.enter_onStack, ScanState.withPool_intervals, intervals]
      exact noneMoved key
  | takes spill others full => exact absurd full notFull
  | spills spill others full => exact absurd full notFull

theorem Awaits.noneMoved (awaits : Awaits initial processed now state rest)
    (within : ∀ key ∈ rest.reverse ++ processed, key ∈ order)
    (room : ∀ point, pressure order initial point ≤ kNumRegs)
    (noneMoved : NoneMoved initial state) :
    ∃ final, rest.foldlM ScanState.scanStep state = .ok final ∧ NoneMoved initial final := by
  induction rest generalizing processed now state with
  | nil => exact ⟨state, rfl, noneMoved⟩
  | cons liveIn rest induction =>
      rcases awaits.round with ⟨expired, next, ready, round, stepping, later⟩
      have known : ∀ key ∈ liveIn :: processed, key ∈ order := by
        intro key member
        apply within
        rw [List.reverse_cons, List.append_assoc, List.singleton_append]
        exact List.mem_append_right _ member
      have length := ready.active_length_lt (awaits.fresh liveIn (.head _))
        (awaits.nonempty liveIn (.head _)) known
      have notFull : expired.active.length ≠ kNumRegs :=
        Nat.ne_of_lt (length.trans_le (room _))
      have withinRest : ∀ key ∈ rest.reverse ++ liveIn :: processed, key ∈ order := by
        intro key member
        apply within
        rw [List.reverse_cons, List.append_assoc, List.singleton_append]
        exact member
      rcases induction later withinRest (noneMoved.round ready.intervals notFull round) with
        ⟨final, scanned, still⟩
      refine ⟨final, ?_, still⟩
      rw [List.foldlM_cons, stepping]
      exact scanned

end ScanInvariant

variable [DecidableEq Key]

/-- If no point is in more intervals than there are registers, none is put on the stack. -/
theorem linearScan_spills_nothing (order : List Key) (intervals : Key → LiveInterval)
    (nodup : order.Nodup)
    (sorted : order.Pairwise fun left right =>
      (intervals left).start ≤ (intervals right).start)
    (nonempty : ∀ key ∈ order, (intervals key).start < (intervals key).end)
    (unplaced : ∀ key ∈ order, (intervals key).onStack = false)
    (room : ∀ point, pressure order intervals point ≤ kNumRegs) :
    ∃ final, linearScan order intervals = .ok final ∧
      ∀ key ∈ order, (final.intervals key).onStack = false := by
  have awaits : ScanInvariant.Awaits intervals [] 0
      { regPool := {}, intervals := intervals, active := [], stackPos := 0 } order :=
    ⟨ScanInvariant.start, nodup, by simp, unplaced, nonempty, sorted, by simp⟩
  have within : ∀ key ∈ order.reverse ++ [], key ∈ order := by simp
  rcases awaits.noneMoved within room (fun _ => rfl) with
    ⟨final, scanned, noneMoved⟩
  refine ⟨final, scanned, ?_⟩
  intro key member
  rw [noneMoved key]
  exact unplaced key member

/-- Four intervals, of which three at most share a point. -/
def fitting : Fin 4 → LiveInterval
  | 0 => { start := 0, «end» := 9 }
  | 1 => { start := 1, «end» := 4 }
  | 2 => { start := 2, «end» := 6 }
  | 3 => { start := 4, «end» := 9 }

theorem fitting_room (point : Nat) : pressure [0, 1, 2, 3] fitting point ≤ kNumRegs := by
  simp only [pressure, List.countP_cons, List.countP_nil, decide_eq_true_eq]
  split_ifs <;> simp only [LiveInterval.Contains, fitting, kNumRegs] at * <;> omega

theorem linearScan_spills_nothing_fitting :
    ∃ final, linearScan [0, 1, 2, 3] fitting = .ok final ∧
      ∀ key ∈ [0, 1, 2, 3], (final.intervals key).onStack = false :=
  linearScan_spills_nothing [0, 1, 2, 3] fitting (by decide) (by decide) (by decide) (by decide)
    fitting_room

end LeechJit.Analysis
