import Mathlib.Data.Fintype.Basic
import LeechJit.IR.LiveInterval

/-! # Linear scan register allocation

`RegisterPool` and the scan of `RegAllocator`. The live intervals are kept under
the keys of the liveness analyzer's map, and a pointer to an interval is its key.
-/

namespace LeechJit.Analysis

open IR

/-! ## The register pool -/

structure RegisterPool (NumRegs : Nat) where
  useCount : Nat := 0
  regs : Fin NumRegs → Bool := fun _ => false

namespace RegisterPool

variable {NumRegs : Nat}

/-- The first register, from `index` on, whose bit is clear. -/
def firstFree (regs : Fin NumRegs → Bool) : Option (Fin NumRegs) :=
  (List.finRange NumRegs).find? fun index => !regs index

def allocateReg (pool : RegisterPool NumRegs) :
    Result (Option Nat × RegisterPool NumRegs) :=
  if pool.useCount = NumRegs then .ok (none, pool)
  else match firstFree pool.regs with
    | some index => .ok (some index,
        { useCount := pool.useCount + 1, regs := Function.update pool.regs index true })
    | none => .error .unreachable

def deallocateReg (pool : RegisterPool NumRegs) (idx : Nat) :
    Result (RegisterPool NumRegs) := do
  assert (pool.useCount ≠ 0)
  if bound : idx < NumRegs then
    assert (pool.regs ⟨idx, bound⟩ = true)
    return { useCount := pool.useCount - 1
             regs := Function.update pool.regs ⟨idx, bound⟩ false }
  else .error .assertFailed

end RegisterPool

/-! ## The scan -/

def kNumRegs : Nat := 3

structure ScanState (Key : Type) where
  regPool : RegisterPool kNumRegs
  intervals : Key → LiveInterval
  /-- A multiset ordered by interval end, in iteration order. -/
  active : List Key
  stackPos : Nat

variable {Key : Type} [DecidableEq Key]

namespace ScanState

def modify (state : ScanState Key) (key : Key) (change : LiveInterval → LiveInterval) :
    ScanState Key :=
  { state with
    intervals := Function.update state.intervals key (change (state.intervals key)) }

def setLocId (state : ScanState Key) (key : Key) (locId : Nat) : ScanState Key :=
  state.modify key fun interval => interval.setLocId locId

/-- `std::multiset::insert`: behind every element that does not end later. -/
def insertActive (state : ScanState Key) (key : Key) : ScanState Key :=
  let notLater := fun other =>
    decide ((state.intervals other).end ≤ (state.intervals key).end)
  { state with
    active := state.active.takeWhile notLater ++ key :: state.active.dropWhile notLater }

/-- The loop of `expireOldIntervals` over the active intervals still to visit. -/
def expireLoop (start : Nat) (intervals : Key → LiveInterval) :
    RegisterPool kNumRegs → List Key → Result (RegisterPool kNumRegs × List Key)
  | pool, [] => .ok (pool, [])
  | pool, key :: rest =>
      if (intervals key).end > start then .ok (pool, key :: rest)
      else do
        assert ((intervals key).onStack = false)
        let pool ← pool.deallocateReg (intervals key).locationId
        expireLoop start intervals pool rest

def expireOldIntervals (state : ScanState Key) (liveIn : Key) :
    Result (ScanState Key) := do
  let (pool, active) ← expireLoop (state.intervals liveIn).start state.intervals
    state.regPool state.active
  return { state with regPool := pool, active := active }

def moveToStack (state : ScanState Key) (liveIn : Key) : ScanState Key :=
  let state := { state.setLocId liveIn state.stackPos with stackPos := state.stackPos + 1 }
  state.modify liveIn LiveInterval.moveToStack

def spillAtInterval (state : ScanState Key) (liveIn : Key) : Result (ScanState Key) :=
  match state.active.getLast? with
  | none => .error .assertFailed
  | some spill =>
      if (state.intervals spill).end > (state.intervals liveIn).end then do
        assert ((state.intervals spill).onStack = false)
        let state := state.setLocId liveIn (state.intervals spill).locationId
        let state := state.moveToStack spill
        let state := { state with active := state.active.dropLast }
        return state.insertActive liveIn
      else .ok (state.moveToStack liveIn)

/-- One round of the loop of `linearScan`. -/
def scanStep (state : ScanState Key) (liveIn : Key) : Result (ScanState Key) := do
  let state ← state.expireOldIntervals liveIn
  if state.active.length = kNumRegs then
    state.spillAtInterval liveIn
  else
    let (allocated, pool) ← state.regPool.allocateReg
    match allocated with
    | none => .error .assertFailed
    | some newRegId =>
        let state := { state with regPool := pool }
        return (state.setLocId liveIn newRegId).insertActive liveIn

end ScanState

namespace ScanState

variable (state : ScanState Key) (key other : Key) (locId : Nat)

@[simp] theorem setLocId_start :
    ((state.setLocId key locId).intervals other).start = (state.intervals other).start := by
  by_cases same : other = key <;> simp [setLocId, modify, same]

@[simp] theorem setLocId_end :
    ((state.setLocId key locId).intervals other).end = (state.intervals other).end := by
  by_cases same : other = key <;> simp [setLocId, modify, same]

@[simp] theorem setLocId_onStack :
    ((state.setLocId key locId).intervals other).onStack =
      (state.intervals other).onStack := by
  by_cases same : other = key <;> simp [setLocId, modify, same]

@[simp] theorem setLocId_locationId_self :
    ((state.setLocId key locId).intervals key).locationId = locId := by
  simp [setLocId, modify]

@[simp] theorem setLocId_of_ne {other : Key} (different : other ≠ key) :
    (state.setLocId key locId).intervals other = state.intervals other := by
  simp [setLocId, modify, different]

@[simp] theorem setLocId_active : (state.setLocId key locId).active = state.active := rfl

@[simp] theorem setLocId_regPool :
    (state.setLocId key locId).regPool = state.regPool := rfl

@[simp] theorem setLocId_stackPos :
    (state.setLocId key locId).stackPos = state.stackPos := rfl

@[simp] theorem moveToStack_start :
    ((state.moveToStack key).intervals other).start = (state.intervals other).start := by
  by_cases same : other = key <;>
    simp [moveToStack, setLocId, modify, same]

@[simp] theorem moveToStack_end :
    ((state.moveToStack key).intervals other).end = (state.intervals other).end := by
  by_cases same : other = key <;>
    simp [moveToStack, setLocId, modify, same]

@[simp] theorem moveToStack_onStack_self :
    ((state.moveToStack key).intervals key).onStack = true := by
  simp [moveToStack, modify]

@[simp] theorem moveToStack_locationId_self :
    ((state.moveToStack key).intervals key).locationId = state.stackPos := by
  simp [moveToStack, setLocId, modify]

@[simp] theorem moveToStack_of_ne {other : Key} (different : other ≠ key) :
    (state.moveToStack key).intervals other = state.intervals other := by
  simp [moveToStack, setLocId, modify, different]

@[simp] theorem moveToStack_active : (state.moveToStack key).active = state.active := rfl

@[simp] theorem moveToStack_regPool : (state.moveToStack key).regPool = state.regPool := rfl

@[simp] theorem moveToStack_stackPos :
    (state.moveToStack key).stackPos = state.stackPos + 1 := rfl

end ScanState

/-- `linearScan` over the sorted vector of intervals. -/
def linearScan (liveIntervals : List Key) (intervals : Key → LiveInterval) :
    Result (ScanState Key) :=
  liveIntervals.foldlM ScanState.scanStep
    { regPool := {}, intervals := intervals, active := [], stackPos := 0 }

end LeechJit.Analysis
