import Mathlib.Logic.Equiv.Basic
import LeechJit.Analysis.RegAlloc

/-! # The scan does not look at its keys

Renaming the keys of the intervals renames them in the result.
-/

namespace LeechJit.Analysis

open IR

variable {Key : Type}

namespace ScanState

/-- The state with every key renamed. -/
def rename (names : Equiv.Perm Key) (state : ScanState Key) : ScanState Key where
  regPool := state.regPool
  intervals := state.intervals ∘ names.symm
  active := state.active.map names
  stackPos := state.stackPos

variable (names : Equiv.Perm Key) (state : ScanState Key) (key : Key)

@[simp] theorem rename_intervals :
    (state.rename names).intervals (names key) = state.intervals key := by
  simp [rename]

theorem expireLoop_rename (start : Nat) (pool : RegisterPool kNumRegs) (active : List Key) :
    expireLoop start (state.rename names).intervals pool (active.map names) =
      (fun result => (result.1, result.2.map names)) <$>
        expireLoop start state.intervals pool active := by
  induction active generalizing pool with
  | nil => rfl
  | cons first rest induction =>
      simp only [List.map_cons, expireLoop, rename_intervals]
      split
      · rfl
      · cases assert ((state.intervals first).onStack = false) with
        | error problem => rfl
        | ok done =>
            cases pool.deallocateReg (state.intervals first).locationId with
            | error problem => rfl
            | ok next => exact induction next

theorem expireOldIntervals_rename :
    (state.rename names).expireOldIntervals (names key) =
      rename names <$> state.expireOldIntervals key := by
  have loop := state.expireLoop_rename names (state.intervals key).start state.regPool
    state.active
  simp only [expireOldIntervals, rename_intervals]
  change (expireLoop (state.intervals key).start (state.rename names).intervals state.regPool
    (state.active.map names) >>= _) = _
  rw [loop]
  cases expireLoop (state.intervals key).start state.intervals state.regPool state.active with
  | error problem => rfl
  | ok result => rfl

theorem insertActive_rename :
    (state.rename names).insertActive (names key) = (state.insertActive key).rename names := by
  simp only [insertActive, rename, Function.comp_apply, Equiv.symm_apply_apply, List.takeWhile_map,
    List.dropWhile_map, List.map_append, List.map_cons]
  congr 1
  simp [Function.comp_def]

/-- The state with the active interval that ends last left out. -/
def dropActive (state : ScanState Key) : ScanState Key :=
  { state with active := state.active.dropLast }

theorem dropActive_rename : (state.rename names).dropActive = state.dropActive.rename names := by
  simp [dropActive, rename, List.map_dropLast]

variable [DecidableEq Key]

theorem modify_rename (change : LiveInterval → LiveInterval) :
    (state.rename names).modify (names key) change = (state.modify key change).rename names := by
  have same := Function.update_comp_equiv state.intervals names.symm key
    (change (state.intervals key))
  simp only [modify, rename_intervals]
  simp only [rename, same, Equiv.symm_symm]

theorem setLocId_rename (locId : Nat) :
    (state.rename names).setLocId (names key) locId = (state.setLocId key locId).rename names :=
  state.modify_rename names key _

theorem moveToStack_rename :
    (state.rename names).moveToStack (names key) = (state.moveToStack key).rename names := by
  simp only [moveToStack, setLocId_rename]
  exact modify_rename names { state.setLocId key state.stackPos with stackPos := state.stackPos + 1 } key _

theorem spillAtInterval_rename :
    (state.rename names).spillAtInterval (names key) =
      rename names <$> state.spillAtInterval key := by
  have last : (state.rename names).active.getLast? = state.active.getLast?.map names :=
    List.getLast?_map ..
  simp only [spillAtInterval, last]
  cases state.active.getLast? with
  | none => rfl
  | some spill =>
      simp only [Option.map_some, rename_intervals]
      split
      · cases assert ((state.intervals spill).onStack = false) with
        | error problem => rfl
        | ok done =>
            change Except.ok ((((state.rename names).setLocId (names key)
                (state.intervals spill).locationId).moveToStack (names spill)).dropActive.insertActive
              (names key)) = _
            rw [setLocId_rename, moveToStack_rename, dropActive_rename, insertActive_rename]
            rfl
      · rw [moveToStack_rename]
        rfl

theorem scanStep_rename :
    (state.rename names).scanStep (names key) = rename names <$> state.scanStep key := by
  simp only [scanStep, expireOldIntervals_rename]
  cases state.expireOldIntervals key with
  | error problem => rfl
  | ok expired =>
      have length : (expired.rename names).active.length = expired.active.length := List.length_map _
      simp only [Functor.map, Except.map, Result.ok_bind, length]
      split
      · exact spillAtInterval_rename names expired key
      · change (expired.regPool.allocateReg >>= _) = Except.map _ (expired.regPool.allocateReg >>= _)
        cases expired.regPool.allocateReg with
        | error problem => rfl
        | ok result =>
            rcases result with ⟨none | locId, pool⟩
            · rfl
            · have set := setLocId_rename names { expired with regPool := pool } key locId
              change Except.ok ((ScanState.setLocId (rename names { expired with regPool := pool })
                (names key) locId).insertActive (names key)) = _
              rw [set, insertActive_rename]
              rfl

/-- The scan in the order of the new names. -/
theorem scan_rename (order : List Key) :
    (order.map names).foldlM scanStep (state.rename names) =
      rename names <$> order.foldlM scanStep state := by
  induction order generalizing state with
  | nil => rfl
  | cons first rest induction =>
      rw [List.map_cons, List.foldlM_cons, List.foldlM_cons, scanStep_rename]
      cases state.scanStep first with
      | error problem => rfl
      | ok next => exact induction next

end ScanState

end LeechJit.Analysis
