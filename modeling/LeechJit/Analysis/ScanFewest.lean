import Mathlib.Data.Fintype.Card
import LeechJit.Analysis.ScanOrder
import LeechJit.Foundation.Keeping

/-! # No placement spills less

The scan keeps intervals in registers, and when one is too many, it is the one that ends last
that goes to the stack. Whatever way there is to give overlapping intervals different
registers, it puts at least as many intervals on the stack.
-/

namespace LeechJit.Analysis

open IR Keeping

variable {Key : Type}

/-- A way to place intervals: overlapping ones get different registers, or one of them a place
on the stack. -/
structure Placement (order : List Key) (intervals : Key → LiveInterval) where
  register : Key → Option (Fin kNumRegs)
  apart : ∀ left ∈ order, ∀ right ∈ order, left ≠ right →
    (intervals left).Overlaps (intervals right) →
    ∀ index, register left = some index → register right ≠ some index

/-- How many intervals are not in registers. -/
def Placement.spills {order : List Key} {intervals : Key → LiveInterval}
    (placement : Placement order intervals) : Nat :=
  order.countP fun key => (placement.register key).isNone

variable [DecidableEq Key] {initial : Key → LiveInterval} {order processed : List Key} {now : Nat}
  {state expired state' : ScanState Key} {liveIn : Key}

/-- The placed intervals that are in registers. -/
def inRegisters (processed : List Key) (state : ScanState Key) : Finset Key :=
  processed.toFinset.filter fun key => (state.intervals key).onStack = false

theorem mem_inRegisters {key : Key} :
    key ∈ inRegisters processed state ↔
      key ∈ processed ∧ (state.intervals key).onStack = false := by
  rw [inRegisters, Finset.mem_filter, List.mem_toFinset]

namespace ScanInvariant

/-- The active intervals are those in registers that contain the start of the next one. -/
theorem Ready.alive_eq (ready : Ready initial processed liveIn state expired) :
    alive (fun key => (initial key).start) (fun key => (initial key).end)
      (inRegisters processed expired) (initial liveIn).start = expired.active.toFinset := by
  have invariant := ready.invariant
  ext key
  rw [alive, Finset.mem_filter, mem_inRegisters, List.mem_toFinset]
  constructor
  · rintro ⟨⟨isProcessed, inReg⟩, -, goesOn⟩
    by_contra notActive
    exact absurd (invariant.retired key isProcessed inReg notActive) (Nat.not_le.mpr goesOn)
  · intro active
    have isProcessed := invariant.activeProcessed key active
    have outlasts := ready.outlasts key active
    rw [invariant.start_eq, invariant.end_eq] at outlasts
    exact ⟨⟨isProcessed, invariant.activeInReg key active⟩, invariant.started key isProcessed,
      outlasts⟩

theorem Ready.alive_card (ready : Ready initial processed liveIn state expired) :
    (alive (fun key => (initial key).start) (fun key => (initial key).end)
      (inRegisters processed expired) (initial liveIn).start).card = expired.active.length := by
  rw [ready.alive_eq, List.toFinset_card_of_nodup ready.invariant.activeNodup]

/-- Nothing but the new interval and the one that is moved is placed by a round. -/
theorem inRegisters_eq (moved : Key) (unplaced : (initial liveIn).onStack = false)
    (fresh : liveIn ∉ processed) (invariant : ScanInvariant initial processed now expired)
    (onStack : ∀ key, (state'.intervals key).onStack =
      if key = moved then true else (expired.intervals key).onStack) :
    inRegisters (liveIn :: processed) state' =
      (insert liveIn (inRegisters processed expired)).erase moved := by
  have newInReg := (invariant.untouched liveIn fresh).trans unplaced
  ext key
  rw [mem_inRegisters, Finset.mem_erase, Finset.mem_insert, mem_inRegisters, onStack, List.mem_cons]
  by_cases isMoved : key = moved
  · simp [isMoved]
  · rw [if_neg isMoved]
    constructor
    · rintro ⟨rfl | old, inReg⟩
      · exact ⟨isMoved, .inl rfl⟩
      · exact ⟨isMoved, .inr ⟨old, inReg⟩⟩
    · rintro ⟨-, rfl | ⟨old, inReg⟩⟩
      · exact ⟨.inl rfl, newInReg⟩
      · exact ⟨.inr old, inReg⟩

/-- A round drops an interval that ends last, if there is no register left. -/
theorem Ready.keeping (ready : Ready initial processed liveIn state expired)
    (fresh : liveIn ∉ processed) (unplaced : (initial liveIn).onStack = false)
    (round : ScanState.Round expired liveIn state')
    (earlier : Kept (fun key => (initial key).start) (fun key => (initial key).end) kNumRegs
      processed (inRegisters processed expired)) :
    Kept (fun key => (initial key).start) (fun key => (initial key).end) kNumRegs
      (liveIn :: processed) (inRegisters (liveIn :: processed) state') := by
  have invariant := ready.invariant
  have sorted := invariant.activeSorted
  have newInReg := (invariant.untouched liveIn fresh).trans unplaced
  cases round with
  | free locId pool notFull allocated =>
      have same : inRegisters (liveIn :: processed) ((expired.withPool pool).enter liveIn locId) =
          insert liveIn (inRegisters processed expired) := by
        ext key
        rw [Finset.mem_insert, mem_inRegisters, mem_inRegisters, List.mem_cons,
          ScanState.enter_onStack, ScanState.withPool_intervals, or_and_right]
        exact or_congr_left (and_iff_left_of_imp fun isNew => isNew ▸ newInReg)
      rw [same]
      exact .keeps liveIn earlier
  | takes spill others full split shorter =>
      rw [invariant.end_eq, invariant.end_eq] at shorter
      have isActive : spill ∈ expired.active := by simp [split]
      rw [inRegisters_eq spill unplaced fresh invariant]
      · apply Kept.drops liveIn spill earlier (ready.alive_card.trans full)
        · rw [ready.alive_eq]
          exact Finset.mem_insert_of_mem (List.mem_toFinset.mpr isActive)
        · rw [ready.alive_eq]
          intro other member
          cases Finset.mem_insert.mp member with
          | inl isNew => exact isNew ▸ shorter.le
          | inr active =>
              rw [List.mem_toFinset, split, List.mem_append, List.mem_singleton] at active
              rw [split, List.pairwise_append] at sorted
              cases active with
              | inl isOther => exact sorted.2.2 other isOther spill (List.mem_singleton_self spill)
              | inr isSpill => rw [isSpill]
      · intro key
        rw [ScanState.enter_onStack]
        by_cases isSpill : key = spill
        · rw [isSpill, ScanState.release_self, if_pos rfl]
          rfl
        · rw [ScanState.release_of_ne isSpill, if_neg isSpill]
  | spills spill others full split notShorter =>
      rw [invariant.end_eq, invariant.end_eq] at notShorter
      rw [inRegisters_eq liveIn unplaced fresh invariant]
      · apply Kept.drops liveIn liveIn earlier (ready.alive_card.trans full)
        · exact Finset.mem_insert_self liveIn _
        · rw [ready.alive_eq]
          intro other member
          cases Finset.mem_insert.mp member with
          | inl isNew => rw [isNew]
          | inr active =>
              rw [List.mem_toFinset, split, List.mem_append, List.mem_singleton] at active
              rw [split, List.pairwise_append] at sorted
              cases active with
              | inl isOther =>
                  exact (sorted.2.2 other isOther spill (List.mem_singleton_self spill)).trans
                    notShorter
              | inr isSpill => exact isSpill ▸ notShorter
      · intro key
        by_cases isNew : key = liveIn
        · rw [isNew, ScanState.moveToStack_onStack_self, if_pos rfl]
        · rw [ScanState.moveToStack_of_ne _ _ isNew, if_neg isNew]

/-- The scan keeps the intervals that end first. -/
theorem Awaits.keeping (awaits : Awaits initial processed now state order)
    (earlier : Kept (fun key => (initial key).start) (fun key => (initial key).end) kNumRegs
      processed (inRegisters processed state)) :
    ∃ final, order.foldlM ScanState.scanStep state = .ok final ∧
      Kept (fun key => (initial key).start) (fun key => (initial key).end) kNumRegs
        (order.reverse ++ processed) (inRegisters (order.reverse ++ processed) final) := by
  induction order generalizing processed now state with
  | nil => exact ⟨state, rfl, earlier⟩
  | cons liveIn rest induction =>
      rcases awaits.round with ⟨expired, next, ready, round, stepping, later⟩
      have same : inRegisters processed expired = inRegisters processed state := by
        rw [inRegisters, inRegisters, ready.intervals]
      have keeping := ready.keeping (awaits.fresh liveIn (.head _)) (awaits.unplaced liveIn (.head _))
        round (same ▸ earlier)
      rcases induction later keeping with ⟨final, scanned, kept⟩
      refine ⟨final, ?_, ?_⟩
      · rw [List.foldlM_cons, stepping]
        exact scanned
      · rw [List.reverse_cons, List.append_assoc, List.singleton_append]
        exact kept

end ScanInvariant

/-! ## Other placements -/

namespace Placement

variable {intervals : Key → LiveInterval} (placement : Placement order intervals)

/-- What a placement keeps in registers. -/
def kept : Finset Key :=
  order.toFinset.filter fun key => (placement.register key).isNone = false

omit [DecidableEq Key] in
theorem exists_register {key : Key} {placement : Placement order intervals}
    (inReg : (placement.register key).isNone = false) :
    ∃ index, placement.register key = some index := by
  cases register : placement.register key with
  | none => simp [register] at inReg
  | some index => exact ⟨index, rfl⟩

/-- The intervals that contain a point overlap, so that they are in different registers. -/
theorem fit : Fit (fun key => (intervals key).start) (fun key => (intervals key).end) kNumRegs
    placement.kept := by
  intro point
  have distinct : ∀ left ∈ alive (fun key => (intervals key).start) (fun key => (intervals key).end)
      placement.kept point, ∀ right ∈ alive (fun key => (intervals key).start)
        (fun key => (intervals key).end) placement.kept point,
      placement.register left = placement.register right → left = right := by
    intro left leftAlive right rightAlive same
    rcases Finset.mem_filter.mp leftAlive with ⟨leftKept, leftStarted, leftGoesOn⟩
    rcases Finset.mem_filter.mp rightAlive with ⟨rightKept, rightStarted, rightGoesOn⟩
    rcases Finset.mem_filter.mp leftKept with ⟨leftMem, inReg⟩
    rcases exists_register inReg with ⟨index, isIndex⟩
    by_contra different
    exact placement.apart left (List.mem_toFinset.mp leftMem) right
      (List.mem_toFinset.mp (Finset.mem_filter.mp rightKept).1) different
      ⟨leftStarted.trans_lt rightGoesOn, rightStarted.trans_lt leftGoesOn⟩ index isIndex
      (same ▸ isIndex)
  have registers : (alive (fun key => (intervals key).start) (fun key => (intervals key).end)
      placement.kept point).image placement.register ⊆
        (Finset.univ : Finset (Fin kNumRegs)).image some := by
    intro register member
    rcases Finset.mem_image.mp member with ⟨key, isAlive, rfl⟩
    have isKept := (Finset.mem_filter.mp isAlive).1
    rcases exists_register (Finset.mem_filter.mp isKept).2 with ⟨index, isIndex⟩
    rw [isIndex]
    exact Finset.mem_image_of_mem some (Finset.mem_univ index)
  have count := Finset.card_le_card registers
  rw [Finset.card_image_of_injOn distinct,
    Finset.card_image_of_injective _ (Option.some_injective _), Finset.card_univ,
    Fintype.card_fin] at count
  exact count

end Placement

/-- Every interval is on the stack or in a register. -/
theorem countP_add_card (nodup : order.Nodup) (onStack : Key → Bool) :
    order.countP onStack + (order.toFinset.filter fun key => onStack key = false).card =
      order.length := by
  have rest : (order.toFinset.filter fun key => onStack key = false) =
      (order.filter fun key => !onStack key).toFinset := by
    rw [List.toFinset_filter]
    exact Finset.filter_congr fun key _ => by simp
  rw [rest, List.toFinset_card_of_nodup (nodup.filter _), ← List.countP_eq_length_filter,
    List.length_eq_countP_add_countP onStack]
  simp only [Bool.not_eq_true, Bool.decide_eq_false]

end LeechJit.Analysis
