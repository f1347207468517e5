import LeechJit.Analysis.ScanSteps

/-! # The ends of the intervals in registers

Which intervals hold registers is a question of their ends alone: of the intervals that are
still alive, those that end first.
-/

namespace LeechJit.Analysis

open IR

/-! ## The ends -/

/-- The ends of the intervals in registers once another interval has been placed: the ones
that have not ended, and the new one, as many as there are registers. -/
def hold (held : List Nat) (interval : LiveInterval) : List Nat :=
  ((held.filter fun «end» => decide (interval.start < «end»)).orderedInsert (· ≤ ·)
    interval.end).take kNumRegs

example : hold [3, 5, 8] { start := 3, «end» := 6 } = [5, 6, 8] := by decide

example : hold [4, 5, 8] { start := 3, «end» := 6 } = [4, 5, 6] := by decide

theorem orderedInsert_unique {value : Nat} {values inserted : List Nat}
    (sorted : values.Pairwise (· ≤ ·)) (insertedSorted : inserted.Pairwise (· ≤ ·))
    (perm : inserted.Perm (value :: values)) :
    values.orderedInsert (· ≤ ·) value = inserted := by
  apply List.Perm.eq_of_pairwise' (sorted.orderedInsert value values) insertedSorted
  exact (List.perm_orderedInsert (· ≤ ·) value values).trans perm.symm

/-! ## The scan -/

variable {Key : Type}

namespace ScanState

theorem expireLoop_active {start : Nat} {intervals : Key → LiveInterval}
    {pool pool' : RegisterPool kNumRegs} {active active' : List Key}
    (result : expireLoop start intervals pool active = .ok (pool', active')) :
    active' = active.dropWhile fun key => decide ((intervals key).end ≤ start) := by
  induction active generalizing pool with
  | nil =>
      cases result
      rfl
  | cons key rest induction =>
      cases Nat.lt_or_ge start (intervals key).end with
      | inl alive =>
          simp only [expireLoop, alive, if_true] at result
          cases result
          rw [List.dropWhile_cons_of_neg (by simpa using alive)]
      | inr ended =>
          simp only [expireLoop, gt_iff_lt, Nat.not_lt.mpr ended, if_false] at result
          rcases Result.bind_eq_ok.mp result with ⟨-, -, rest⟩
          rcases Result.bind_eq_ok.mp rest with ⟨pool, -, later⟩
          rw [List.dropWhile_cons_of_pos (by simpa using ended)]
          exact induction later

end ScanState

theorem dropWhile_eq_filter {values : List Nat} (sorted : values.Pairwise (· ≤ ·)) (bound : Nat) :
    values.dropWhile (fun value => decide (value ≤ bound)) =
      values.filter fun value => decide (bound < value) := by
  induction values with
  | nil => rfl
  | cons first rest induction =>
      rw [List.pairwise_cons] at sorted
      cases Nat.lt_or_ge bound first with
      | inl above =>
          rw [List.dropWhile_cons_of_neg (by simpa using above)]
          symm
          rw [List.filter_eq_self]
          intro value member
          cases member with
          | head => exact decide_eq_true above
          | tail _ inRest => exact decide_eq_true (above.trans_le (sorted.1 value inRest))
      | inr notAbove =>
          rw [List.dropWhile_cons_of_pos (by simpa using notAbove),
            List.filter_cons_of_neg (by simpa using notAbove), induction sorted.2]

namespace ScanInvariant

variable [DecidableEq Key] {initial : Key → LiveInterval} {processed : List Key} {now : Nat}
  {state state' expired : ScanState Key} {liveIn : Key}

/-- The ends of the active intervals. -/
def ends (initial : Key → LiveInterval) (active : List Key) : List Nat :=
  active.map fun key => (initial key).end

omit [DecidableEq Key] in
theorem ends_sorted (invariant : ScanInvariant initial processed now state) :
    (ends initial state.active).Pairwise (· ≤ ·) :=
  List.pairwise_map.mpr invariant.activeSorted

omit [DecidableEq Key] in
theorem expired_ends (invariant : ScanInvariant initial processed now state)
    (result : state.expireOldIntervals liveIn = .ok expired) :
    ends initial expired.active =
      (ends initial state.active).filter fun «end» => decide ((initial liveIn).start < «end») := by
  rcases Result.bind_eq_ok.mp result with ⟨⟨pool, active⟩, looping, equal⟩
  cases equal
  have dropped := ScanState.expireLoop_active looping
  simp only [invariant.start_eq, invariant.end_eq] at dropped
  rw [← dropWhile_eq_filter invariant.ends_sorted, dropped, ends, ends, List.dropWhile_map]
  rfl

/-- The new interval goes to its place among the ends. -/
theorem enter_ends (room : ScanState Key) (liveIn : Key) (locId : Nat)
    (roomEnds : ∀ key, (room.intervals key).end = (initial key).end)
    (sorted : (ends initial room.active).Pairwise (· ≤ ·)) :
    (ends initial (room.enter liveIn locId).active).Pairwise (· ≤ ·) ∧
      (ends initial (room.enter liveIn locId).active).Perm
        ((initial liveIn).end :: ends initial room.active) := by
  rw [ScanState.enter_active]
  constructor
  · rw [ends, List.pairwise_map] at sorted ⊢
    simp only [ScanState.insertByEnd, roomEnds]
    exact sorted_insert (fun key => (initial key).end) liveIn sorted
  · exact (room.insertByEnd_perm liveIn room.active).map _

/-- The ends of the active intervals after a round. -/
theorem Ready.round_ends (ready : Ready initial processed liveIn state expired)
    (invariant : ScanInvariant initial processed now state)
    (round : ScanState.Round expired liveIn state') :
    ends initial state'.active = hold (ends initial state.active) (initial liveIn) := by
  have after := ready.invariant
  have sorted := after.ends_sorted
  have endEq : ∀ key, (expired.intervals key).end = (initial key).end := after.end_eq
  rw [hold, ← invariant.expired_ends ready.expires]
  cases round with
  | free locId pool notFull allocated =>
      have both := enter_ends (expired.withPool pool) liveIn locId endEq sorted
      rw [orderedInsert_unique sorted both.1 both.2, List.take_of_length_le]
      rw [ends, List.length_map, ScanState.enter_length]
      have most := after.active_length_le
      change expired.active.length + 1 ≤ kNumRegs
      omega
  | takes spill others full split shorter =>
      rw [split, ends, List.map_append, List.pairwise_append] at sorted
      have both := enter_ends (expired.release spill others) liveIn
        (expired.intervals spill).locationId (fun key => by rw [ScanState.release_end, endEq])
        sorted.1
      rw [ScanState.release_active] at both
      -- the interval that ends last is the one too many
      have whole : (ends initial expired.active).orderedInsert (· ≤ ·) (initial liveIn).end =
          ends initial ((expired.release spill others).enter liveIn
            (expired.intervals spill).locationId).active ++ [(initial spill).end] := by
        apply orderedInsert_unique after.ends_sorted
        · rw [List.pairwise_append]
          refine ⟨both.1, List.pairwise_singleton _ _, fun value member last isLast => ?_⟩
          rw [List.mem_singleton.mp isLast]
          rw [both.2.mem_iff, List.mem_cons] at member
          cases member with
          | inl isNew =>
              rw [endEq, endEq] at shorter
              exact isNew ▸ shorter.le
          | inr old => exact sorted.2.2 value old _ (by simp)
        · rw [split, ends, ends, List.map_append]
          exact both.2.append_right _
      have count : others.length + 1 = kNumRegs := by
        rw [← full, split, List.length_append, List.length_singleton]
      rw [whole, List.take_append_of_le_length, List.take_of_length_le]
      · rw [both.2.length_eq, List.length_cons, ends, List.length_map, count]
      · rw [both.2.length_eq, List.length_cons, ends, List.length_map, count]
  | spills spill others full split notShorter =>
      have whole : (ends initial expired.active).orderedInsert (· ≤ ·) (initial liveIn).end =
          ends initial expired.active ++ [(initial liveIn).end] := by
        apply orderedInsert_unique sorted
        · rw [List.pairwise_append]
          refine ⟨sorted, List.pairwise_singleton _ _, fun value member last isLast => ?_⟩
          rw [List.mem_singleton.mp isLast]
          rw [endEq, endEq] at notShorter
          rw [split, ends, List.map_append, List.pairwise_append] at sorted
          rw [split, ends, List.map_append, List.mem_append] at member
          cases member with
          | inl other => exact (sorted.2.2 value other _ (by simp)).trans notShorter
          | inr isSpill =>
              rw [List.map_singleton, List.mem_singleton] at isSpill
              exact isSpill ▸ notShorter
        · exact List.perm_append_singleton _ _
      have length : (ends initial expired.active).length = kNumRegs := by
        rw [ends, List.length_map, full]
      rw [whole, List.take_append_of_le_length length.ge, List.take_of_length_le length.le]
      rfl

end ScanInvariant

end LeechJit.Analysis
