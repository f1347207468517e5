import Mathlib.Data.List.TakeWhile
import LeechJit.Analysis.LinearScan

/-! # One round of the scan

When every active interval ends after the next one starts, nothing expires, and the round
does one of three things: it hands out a free register, it passes on the register of the
interval that ends last, or it puts the next interval on the stack.
-/

namespace LeechJit.Analysis

open IR

attribute [ext] ScanState

variable {Key : Type}

namespace ScanState

variable {state room expired : ScanState Key} {key other : Key} {locId : Nat}

/-- Every active interval ends after the one under `key` starts. -/
def Outlasts (state : ScanState Key) (key : Key) : Prop :=
  ∀ other ∈ state.active, (state.intervals key).start < (state.intervals other).end

/-- Nothing expires when the first active interval has not ended. -/
theorem expireOldIntervals_done
    (alive : ∀ first ∈ state.active.head?,
      (state.intervals key).start < (state.intervals first).end) :
    state.expireOldIntervals key = .ok state := by
  have loop : expireLoop (state.intervals key).start state.intervals state.regPool state.active =
      .ok (state.regPool, state.active) := by
    cases listed : state.active with
    | nil => rfl
    | cons first rest =>
        have notEnded := alive first (by rw [listed]; rfl)
        simp [expireLoop, notEnded]
  simp [ScanState.expireOldIntervals, loop]

theorem Outlasts.expireOldIntervals (outlasts : state.Outlasts key) :
    state.expireOldIntervals key = .ok state :=
  expireOldIntervals_done fun first isFirst => outlasts first (List.mem_of_head? isFirst)

/-! ## Becoming active -/

/-- Insertion behind every interval that does not end later. -/
def insertByEnd (state : ScanState Key) (key : Key) (active : List Key) : List Key :=
  active.takeWhile (fun other => decide ((state.intervals other).end ≤ (state.intervals key).end)) ++
    key :: active.dropWhile
      (fun other => decide ((state.intervals other).end ≤ (state.intervals key).end))

theorem insertByEnd_perm (state : ScanState Key) (key : Key) (active : List Key) :
    (state.insertByEnd key active).Perm (key :: active) := by
  apply List.perm_middle.trans
  rw [List.takeWhile_append_dropWhile]

theorem insertByEnd_last {active : List Key}
    (notLater : ∀ other ∈ active, (state.intervals other).end ≤ (state.intervals key).end) :
    state.insertByEnd key active = active ++ [key] := by
  have all : ∀ other ∈ active,
      decide ((state.intervals other).end ≤ (state.intervals key).end) = true :=
    fun other member => decide_eq_true (notLater other member)
  rw [insertByEnd, List.takeWhile_eq_self_iff.mpr all, List.dropWhile_eq_nil_iff.mpr all]

theorem insertByEnd_congr (ends : ∀ other, (room.intervals other).end = (state.intervals other).end)
    (key : Key) (active : List Key) : room.insertByEnd key active = state.insertByEnd key active := by
  simp only [insertByEnd, ends]

variable [DecidableEq Key]

/-- The interval under `key` becomes active in register `locId`. -/
def enter (room : ScanState Key) (key : Key) (locId : Nat) : ScanState Key :=
  (room.setLocId key locId).insertActive key

theorem enter_active : (room.enter key locId).active = room.insertByEnd key room.active := by
  simp [enter, insertActive, insertByEnd]

theorem enter_active_of (ends : ∀ other, (room.intervals other).end = (state.intervals other).end) :
    (room.enter key locId).active = state.insertByEnd key room.active := by
  rw [enter_active, insertByEnd_congr ends]

theorem mem_enter_active :
    other ∈ (room.enter key locId).active ↔ other = key ∨ other ∈ room.active := by
  rw [enter_active, (insertByEnd_perm room key room.active).mem_iff, List.mem_cons]

theorem enter_length : (room.enter key locId).active.length = room.active.length + 1 := by
  rw [enter_active, (insertByEnd_perm room key room.active).length_eq, List.length_cons]

@[simp] theorem enter_start :
    ((room.enter key locId).intervals other).start = (room.intervals other).start := by
  simp [enter, insertActive]

@[simp] theorem enter_end :
    ((room.enter key locId).intervals other).end = (room.intervals other).end := by
  simp [enter, insertActive]

@[simp] theorem enter_onStack :
    ((room.enter key locId).intervals other).onStack = (room.intervals other).onStack := by
  simp [enter, insertActive]

theorem enter_self :
    (room.enter key locId).intervals key = (room.intervals key).setLocId locId := by
  simp [enter, insertActive, setLocId, modify]

theorem enter_of_ne (different : other ≠ key) :
    (room.enter key locId).intervals other = room.intervals other := by
  simp [enter, insertActive, different]

@[simp] theorem enter_regPool : (room.enter key locId).regPool = room.regPool := rfl

@[simp] theorem enter_stackPos : (room.enter key locId).stackPos = room.stackPos := rfl

/-- An interval that starts before the new one ends is outlasted as before. -/
theorem Outlasts.enter (outlasts : room.Outlasts other)
    (startsBefore : (room.intervals other).start < (room.intervals key).end) :
    (room.enter key locId).Outlasts other := by
  intro active member
  rw [enter_start, enter_end]
  cases mem_enter_active.mp member with
  | inl isKey => exact isKey ▸ startsBefore
  | inr old => exact outlasts active old

/-! ## Making room -/

/-- The active interval `spill` goes to the stack, and `others` stay active. -/
def release (state : ScanState Key) (spill : Key) (others : List Key) : ScanState Key :=
  { state.moveToStack spill with active := others }

@[simp] theorem release_start {spill : Key} {others : List Key} :
    ((state.release spill others).intervals other).start = (state.intervals other).start := by
  simp [release]

@[simp] theorem release_end {spill : Key} {others : List Key} :
    ((state.release spill others).intervals other).end = (state.intervals other).end := by
  simp [release]

theorem release_self {spill : Key} {others : List Key} :
    (state.release spill others).intervals spill =
      ((state.intervals spill).setLocId state.stackPos).moveToStack := by
  simp [release, moveToStack, setLocId, modify]

theorem release_of_ne {spill : Key} {others : List Key} (different : other ≠ spill) :
    (state.release spill others).intervals other = state.intervals other := by
  simp [release, different]

@[simp] theorem release_active {spill : Key} {others : List Key} :
    (state.release spill others).active = others := rfl

@[simp] theorem release_regPool {spill : Key} {others : List Key} :
    (state.release spill others).regPool = state.regPool := rfl

@[simp] theorem release_stackPos {spill : Key} {others : List Key} :
    (state.release spill others).stackPos = state.stackPos + 1 := rfl

/-- A register has been handed out. -/
def withPool (state : ScanState Key) (pool : RegisterPool kNumRegs) : ScanState Key :=
  { state with regPool := pool }

section

variable {pool : RegisterPool kNumRegs}

omit [DecidableEq Key]

@[simp] theorem withPool_intervals : (state.withPool pool).intervals = state.intervals := rfl

@[simp] theorem withPool_active : (state.withPool pool).active = state.active := rfl

@[simp] theorem withPool_stackPos : (state.withPool pool).stackPos = state.stackPos := rfl

@[simp] theorem withPool_regPool : (state.withPool pool).regPool = pool := rfl

end

/-! ## A round -/

/-- A round is a round on the state in which the old intervals have expired. -/
theorem scanStep_expired (expiring : state.expireOldIntervals key = .ok expired)
    (outlasts : expired.Outlasts key) : state.scanStep key = expired.scanStep key := by
  simp only [scanStep, expiring, outlasts.expireOldIntervals]

theorem scanStep_free {pool : RegisterPool kNumRegs} (outlasts : state.Outlasts key)
    (notFull : state.active.length ≠ kNumRegs)
    (allocated : state.regPool.allocateReg = .ok (some locId, pool)) :
    state.scanStep key = .ok ((state.withPool pool).enter key locId) := by
  simp [scanStep, outlasts.expireOldIntervals, notFull, allocated, enter, withPool]

theorem scanStep_full {spill : Key} {others : List Key} (outlasts : state.Outlasts key)
    (full : state.active.length = kNumRegs) (split : state.active = others ++ [spill])
    (inReg : (state.intervals spill).onStack = false) (fresh : key ∉ state.active) :
    state.scanStep key =
      if (state.intervals key).end < (state.intervals spill).end
        then .ok ((state.release spill others).enter key (state.intervals spill).locationId)
        else .ok (state.moveToStack key) := by
  have last : state.active.getLast? = some spill := by simp [split]
  have dropped : state.active.dropLast = others := by simp [split]
  have different : key ≠ spill := by
    intro equal
    rw [split, equal] at fresh
    simp at fresh
  simp only [scanStep, outlasts.expireOldIntervals, Result.ok_bind, full, if_true,
    spillAtInterval, last, inReg, assert_of]
  split
  · -- the two intervals are changed in the other order
    congr 1
    apply ScanState.ext
    · rfl
    · funext other
      cases decEq other key with
      | isTrue same =>
          subst same
          rw [enter_self, release_of_ne different]
          simp [insertActive, different, setLocId, modify]
      | isFalse notKey =>
          rw [enter_of_ne notKey]
          cases decEq other spill with
          | isTrue same =>
              subst same
              rw [release_self]
              simp [insertActive, setLocId, modify, moveToStack, notKey]
          | isFalse notSpill =>
              rw [release_of_ne notSpill]
              simp [insertActive, notKey, notSpill]
    · rw [enter_active]
      simp [insertActive, insertByEnd, dropped]
    · rfl
  · rfl

/-- What a round can do once the old intervals have expired. -/
inductive Round (expired : ScanState Key) (key : Key) : ScanState Key → Prop
  | free (locId : Nat) (pool : RegisterPool kNumRegs) (notFull : expired.active.length ≠ kNumRegs)
      (allocated : expired.regPool.allocateReg = .ok (some locId, pool)) :
      Round expired key ((expired.withPool pool).enter key locId)
  | takes (spill : Key) (others : List Key) (full : expired.active.length = kNumRegs)
      (split : expired.active = others ++ [spill])
      (shorter : (expired.intervals key).end < (expired.intervals spill).end) :
      Round expired key
        ((expired.release spill others).enter key (expired.intervals spill).locationId)
  | spills (spill : Key) (others : List Key) (full : expired.active.length = kNumRegs)
      (split : expired.active = others ++ [spill])
      (notShorter : (expired.intervals spill).end ≤ (expired.intervals key).end) :
      Round expired key (expired.moveToStack key)

end ScanState

namespace ScanInvariant

variable [DecidableEq Key] {initial : Key → LiveInterval} {processed : List Key} {now : Nat}
  {state : ScanState Key} {liveIn : Key}

/-- A state in which the next interval is to be placed. -/
structure Ready (initial : Key → LiveInterval) (processed : List Key) (liveIn : Key)
    (state expired : ScanState Key) : Prop where
  invariant : ScanInvariant initial processed (initial liveIn).start expired
  expires : state.expireOldIntervals liveIn = .ok expired
  intervals : expired.intervals = state.intervals
  stackPos : expired.stackPos = state.stackPos
  outlasts : expired.Outlasts liveIn

omit [DecidableEq Key] in
theorem ready (invariant : ScanInvariant initial processed now state)
    (sorted : now ≤ (initial liveIn).start) :
    ∃ expired, Ready initial processed liveIn state expired := by
  rcases (invariant.later sorted).expireOldIntervals with
    ⟨expired, expires, after, intervals, stackPos, alive⟩
  refine ⟨expired, after, expires, intervals, stackPos, fun other member => ?_⟩
  rw [after.start_eq, after.end_eq]
  exact alive other member

theorem Ready.round {expired : ScanState Key} (ready : Ready initial processed liveIn state expired)
    (fresh : liveIn ∉ processed) (unplaced : (initial liveIn).onStack = false) :
    ∃ state', state.scanStep liveIn = .ok state' ∧ ScanState.Round expired liveIn state' := by
  have invariant := ready.invariant
  rw [ScanState.scanStep_expired ready.expires ready.outlasts]
  cases decEq expired.active.length kNumRegs with
  | isFalse notFull =>
      rcases invariant.allocate fresh unplaced notFull with ⟨index, pool, allocated, -⟩
      exact ⟨_, ScanState.scanStep_free ready.outlasts notFull allocated,
        .free index pool notFull allocated⟩
  | isTrue full =>
      have nonempty : expired.active ≠ [] := by
        intro empty
        rw [empty] at full
        cases full
      have split := (List.dropLast_append_getLast nonempty).symm
      have inReg := invariant.activeInReg _ (List.getLast_mem nonempty)
      have notActive : liveIn ∉ expired.active :=
        fun member => fresh (invariant.activeProcessed liveIn member)
      rw [ScanState.scanStep_full ready.outlasts full split inReg notActive]
      cases Nat.lt_or_ge (expired.intervals liveIn).end
          (expired.intervals (expired.active.getLast nonempty)).end with
      | inl shorter =>
          rw [if_pos shorter]
          exact ⟨_, rfl, .takes _ _ full split shorter⟩
      | inr notShorter =>
          rw [if_neg (Nat.not_lt.mpr notShorter)]
          exact ⟨_, rfl, .spills _ _ full split notShorter⟩

end ScanInvariant

end LeechJit.Analysis
