import Mathlib.Data.Finset.Card
import Mathlib.Data.Finset.Range
import Mathlib.Data.List.Sort
import LeechJit.Analysis.RegAlloc

/-! # Linear scan never gives overlapping intervals the same place

`ScanInvariant` ties the active set, its order by end, the pool's bits and every
assignment made so far together. Each round of the scan keeps it, so it holds
after a scan of any length.
-/

namespace LeechJit.Analysis

open IR

/-- A register is given back when it exists and its bit is set. -/
theorem RegisterPool.deallocateReg_eq_ok {NumRegs idx : Nat}
    {pool freed : RegisterPool NumRegs} :
    pool.deallocateReg idx = .ok freed ↔
      pool.useCount ≠ 0 ∧ ∃ bound : idx < NumRegs, pool.regs ⟨idx, bound⟩ = true ∧
        freed = { useCount := pool.useCount - 1
                  regs := Function.update pool.regs ⟨idx, bound⟩ false } := by
  cases Nat.decEq pool.useCount 0 with
  | isTrue none => simp [deallocateReg, none, LeechJit.assert]
  | isFalse positive =>
      cases Nat.decLt idx NumRegs with
      | isFalse outside => simp [deallocateReg, positive, outside]
      | isTrue bound =>
          cases isSet : pool.regs ⟨idx, bound⟩ with
          | false => simp [deallocateReg, positive, bound, isSet, LeechJit.assert]
          | true => simp [deallocateReg, positive, bound, isSet, eq_comm]

variable {Key : Type}

/-- What holds between two rounds, when the intervals in `processed` have been
placed and none of them starts after `now`. -/
structure ScanInvariant (initial : Key → LiveInterval) (processed : List Key) (now : Nat)
    (state : ScanState Key) : Prop where
  start_eq : ∀ key, (state.intervals key).start = (initial key).start
  end_eq : ∀ key, (state.intervals key).end = (initial key).end
  untouched : ∀ key, key ∉ processed →
    (state.intervals key).onStack = (initial key).onStack
  started : ∀ key ∈ processed, (initial key).start ≤ now
  activeNodup : state.active.Nodup
  activeProcessed : ∀ key ∈ state.active, key ∈ processed
  activeInReg : ∀ key ∈ state.active, (state.intervals key).onStack = false
  activeSorted : state.active.Pairwise fun left right =>
    (initial left).end ≤ (initial right).end
  activeDistinct : ∀ left ∈ state.active, ∀ right ∈ state.active,
    (state.intervals left).locationId = (state.intervals right).locationId → left = right
  useCount_eq : state.regPool.useCount = state.active.length
  bits : ∀ index : Fin kNumRegs, state.regPool.regs index = true ↔
    ∃ key ∈ state.active, (state.intervals key).locationId = index
  inRange : ∀ key ∈ processed, (state.intervals key).onStack = false →
    (state.intervals key).locationId < kNumRegs
  retired : ∀ key ∈ processed, (state.intervals key).onStack = false →
    key ∉ state.active → (initial key).end ≤ now
  apart : ∀ left ∈ processed, ∀ right ∈ processed, left ≠ right →
    (state.intervals left).onStack = false → (state.intervals right).onStack = false →
    (state.intervals left).locationId = (state.intervals right).locationId →
    ¬ (initial left).Overlaps (initial right)
  slotBound : ∀ key ∈ processed, (state.intervals key).onStack = true →
    (state.intervals key).locationId < state.stackPos
  slots : ∀ left ∈ processed, ∀ right ∈ processed, left ≠ right →
    (state.intervals left).onStack = true → (state.intervals right).onStack = true →
    (state.intervals left).locationId ≠ (state.intervals right).locationId

namespace ScanInvariant

variable {initial : Key → LiveInterval} {processed : List Key} {now : Nat}
  {state : ScanState Key}

/-- The active intervals hold pairwise different registers, so there are at most
as many as registers. -/
theorem active_length_le (invariant : ScanInvariant initial processed now state) :
    state.active.length ≤ kNumRegs := by
  classical
  let held := state.active.map fun key => (state.intervals key).locationId
  have nodup : held.Nodup :=
    List.Nodup.map_on invariant.activeDistinct invariant.activeNodup
  have within : held.toFinset ⊆ Finset.range kNumRegs := by
    intro locId member
    rcases List.mem_map.mp (List.mem_toFinset.mp member) with ⟨key, keyMem, rfl⟩
    exact Finset.mem_range.mpr (invariant.inRange key (invariant.activeProcessed key keyMem)
      (invariant.activeInReg key keyMem))
  have bound := Finset.card_le_card within
  rw [List.toFinset_card_of_nodup nodup, Finset.card_range] at bound
  simpa [held] using bound

/-- While fewer intervals are active than there are registers, one is free. -/
theorem exists_free (invariant : ScanInvariant initial processed now state)
    (notFull : state.active.length ≠ kNumRegs) :
    ∃ index : Fin kNumRegs, state.regPool.regs index = false := by
  classical
  by_contra allSet
  have covered : Finset.range kNumRegs ⊆
      (state.active.map fun key => (state.intervals key).locationId).toFinset := by
    intro locId member
    have bound := Finset.mem_range.mp member
    have isSet : state.regPool.regs ⟨locId, bound⟩ = true := by
      by_contra clear
      exact allSet ⟨⟨locId, bound⟩, by simpa using clear⟩
    rcases (invariant.bits ⟨locId, bound⟩).mp isSet with ⟨key, keyMem, locEq⟩
    exact List.mem_toFinset.mpr (List.mem_map.mpr ⟨key, keyMem, locEq⟩)
  have enough := (Finset.card_le_card covered).trans (List.toFinset_card_le _)
  rw [Finset.card_range, List.length_map] at enough
  have atMost := invariant.active_length_le
  omega

/-- Time may pass before the next interval starts. -/
theorem later {next : Nat} (invariant : ScanInvariant initial processed now state)
    (passes : now ≤ next) : ScanInvariant initial processed next state :=
  { invariant with
    started := fun key member => (invariant.started key member).trans passes
    retired := fun key member inReg notActive =>
      (invariant.retired key member inReg notActive).trans passes }

/-! ## Expiry -/

/-- The first active interval has ended: the register it gives back is in use. -/
theorem expireFirst {start : Nat} {pool : RegisterPool kNumRegs} {key : Key} {rest : List Key}
    (invariant : ScanInvariant initial processed start
      { state with regPool := pool, active := key :: rest })
    (ended : (state.intervals key).end ≤ start) :
    (state.intervals key).onStack = false ∧
      ∃ freed, pool.deallocateReg (state.intervals key).locationId = .ok freed ∧
        ScanInvariant initial processed start
          { state with regPool := freed, active := rest } := by
  have endEq := invariant.end_eq key
  have inReg : (state.intervals key).onStack = false :=
    invariant.activeInReg key (by simp)
  have isProcessed := invariant.activeProcessed key (by simp)
  have bound := invariant.inRange key isProcessed inReg
  have isSet : pool.regs ⟨(state.intervals key).locationId, bound⟩ = true :=
    (invariant.bits _).mpr ⟨key, by simp, rfl⟩
  have positive : pool.useCount ≠ 0 := by
    rw [invariant.useCount_eq]; simp
  have fresh := (List.nodup_cons.mp invariant.activeNodup).1
  refine ⟨inReg, _, RegisterPool.deallocateReg_eq_ok.mpr ⟨positive, bound, isSet, rfl⟩, ?_⟩
  refine { invariant with
    activeNodup := (List.nodup_cons.mp invariant.activeNodup).2
    activeProcessed := fun other member =>
      invariant.activeProcessed other (List.mem_cons_of_mem _ member)
    activeInReg := fun other member =>
      invariant.activeInReg other (List.mem_cons_of_mem _ member)
    activeSorted := (List.pairwise_cons.mp invariant.activeSorted).2
    activeDistinct := fun left leftMem right rightMem =>
      invariant.activeDistinct left (List.mem_cons_of_mem _ leftMem) right
        (List.mem_cons_of_mem _ rightMem)
    useCount_eq := ?_
    bits := ?_
    retired := ?_ }
  · have count := invariant.useCount_eq
    simp only [List.length_cons] at count
    simp [count]
  · intro index
    have old := invariant.bits index
    simp only [List.mem_cons, exists_eq_or_imp] at old
    by_cases same : index = ⟨(state.intervals key).locationId, bound⟩
    · subst same
      simp only [Function.update_self, Bool.false_eq_true, false_iff]
      rintro ⟨other, otherMem, locEq⟩
      have equal := invariant.activeDistinct other (List.mem_cons_of_mem _ otherMem)
        key (by simp) locEq
      exact fresh (equal ▸ otherMem)
    · have notKey : ¬ (state.intervals key).locationId = index := fun locEq =>
        same (Fin.ext locEq.symm)
      simp [Function.update_of_ne same, old, notKey]
  · intro other member otherReg notActive
    by_cases isKey : other = key
    · subst isKey
      rw [← endEq]
      exact ended
    · exact invariant.retired other member otherReg (by simp [isKey, notActive])

theorem expireLoop (start : Nat) {pool : RegisterPool kNumRegs} {active : List Key}
    (invariant : ScanInvariant initial processed start
      { state with regPool := pool, active := active }) :
    ∃ pool' active', ScanState.expireLoop start state.intervals pool active =
        .ok (pool', active') ∧
      ScanInvariant initial processed start
        { state with regPool := pool', active := active' } ∧
      ∀ key ∈ active', start < (initial key).end := by
  induction active generalizing pool with
  | nil => exact ⟨pool, [], rfl, invariant, by simp⟩
  | cons key rest induction =>
      by_cases alive : (state.intervals key).end > start
      · refine ⟨pool, key :: rest, by simp [ScanState.expireLoop, alive], invariant, ?_⟩
        intro other member
        have first : start < (initial key).end := invariant.end_eq key ▸ alive
        rcases List.mem_cons.mp member with rfl | inRest
        · exact first
        · exact first.trans_le ((List.pairwise_cons.mp invariant.activeSorted).1 other inRest)
      · rcases invariant.expireFirst (Nat.le_of_not_gt alive) with ⟨inReg, freed, freeing, popped⟩
        rcases induction popped with ⟨pool', active', result, after, aliveAfter⟩
        refine ⟨pool', active', ?_, after, aliveAfter⟩
        simpa [ScanState.expireLoop, alive, inReg, freeing] using result

theorem expireOldIntervals {liveIn : Key}
    (invariant : ScanInvariant initial processed (initial liveIn).start state) :
    ∃ state', state.expireOldIntervals liveIn = .ok state' ∧
      ScanInvariant initial processed (initial liveIn).start state' ∧
      state'.intervals = state.intervals ∧ state'.stackPos = state.stackPos ∧
      ∀ key ∈ state'.active, (initial liveIn).start < (initial key).end := by
  rcases expireLoop (initial liveIn).start invariant with
    ⟨pool, active, result, after, alive⟩
  refine ⟨{ state with regPool := pool, active := active }, ?_, after, rfl, rfl, alive⟩
  rw [← invariant.start_eq liveIn] at result
  simp [ScanState.expireOldIntervals, result]

/-! ## Placement -/

variable [DecidableEq Key]

omit [DecidableEq Key] in
/-- Inserting behind every element that does not end later keeps the order. -/
theorem sorted_insert (bound : Key → Nat) (key : Key) {active : List Key}
    (sorted : active.Pairwise fun left right => bound left ≤ bound right) :
    (active.takeWhile (fun other => decide (bound other ≤ bound key)) ++
      key :: active.dropWhile (fun other => decide (bound other ≤ bound key))).Pairwise
      fun left right => bound left ≤ bound right := by
  induction active with
  | nil => simp
  | cons head tail induction =>
      have parts := List.pairwise_cons.mp sorted
      by_cases notLater : bound head ≤ bound key
      · simp only [List.takeWhile_cons, notLater, decide_true, if_true, List.dropWhile_cons,
          List.cons_append]
        refine List.pairwise_cons.mpr ⟨?_, induction parts.2⟩
        intro other member
        simp only [List.mem_append, List.mem_cons] at member
        rcases member with inFront | rfl | inBack
        · exact parts.1 other (List.takeWhile_subset _ inFront)
        · exact notLater
        · exact parts.1 other (List.dropWhile_subset _ inBack)
      · simp only [List.takeWhile_cons, notLater, decide_false, Bool.false_eq_true, if_false,
          List.dropWhile_cons, List.nil_append]
        refine List.pairwise_cons.mpr ⟨?_, sorted⟩
        intro other member
        rcases List.mem_cons.mp member with rfl | inTail
        · omega
        · have step := parts.1 other inTail
          omega

omit [DecidableEq Key] in
theorem insertActive_perm (state : ScanState Key) (key : Key) :
    (state.insertActive key).active.Perm (key :: state.active) := by
  simp only [ScanState.insertActive]
  refine List.perm_middle.trans ?_
  rw [List.takeWhile_append_dropWhile]

/-- What a round has prepared before it makes `liveIn` active in register
`locId`: `others` are the active intervals that stay, the rest went to the
stack, and nobody who stays holds the register. -/
structure MovesIn (initial : Key → LiveInterval) (processed : List Key) (liveIn : Key)
    (locId : Nat) (others : List Key) (state placed : ScanState Key) : Prop where
  othersSublist : others.Sublist state.active
  othersFree : ∀ key ∈ others, (state.intervals key).locationId ≠ locId
  locBound : locId < kNumRegs
  spilled : ∀ key ∈ state.active, key ∉ others → (placed.intervals key).onStack = true
  kept : ∀ key, key ≠ liveIn → (placed.intervals key).onStack = false →
    placed.intervals key = state.intervals key
  slots : ∀ left ∈ processed, ∀ right ∈ processed, left ≠ right →
    (placed.intervals left).onStack = true → (placed.intervals right).onStack = true →
    (placed.intervals left).locationId ≠ (placed.intervals right).locationId
  slotBound : ∀ key ∈ processed, (placed.intervals key).onStack = true →
    (placed.intervals key).locationId < placed.stackPos
  untouched : ∀ key, key ∉ liveIn :: processed →
    (placed.intervals key).onStack = (initial key).onStack
  liveInReg : (placed.intervals liveIn).onStack = false
  liveInLoc : (placed.intervals liveIn).locationId = locId
  start_eq : ∀ key, (placed.intervals key).start = (initial key).start
  end_eq : ∀ key, (placed.intervals key).end = (initial key).end
  othersReg : ∀ key ∈ others, (placed.intervals key).onStack = false
  active_eq : placed.active = others
  count : placed.regPool.useCount = others.length + 1
  bits : ∀ index : Fin kNumRegs, placed.regPool.regs index = true ↔
    locId = index ∨ ∃ key ∈ others, (state.intervals key).locationId = index

omit [DecidableEq Key] in
theorem movesIn {liveIn : Key} {others : List Key} {placed : ScanState Key} {locId : Nat}
    (invariant : ScanInvariant initial processed (initial liveIn).start state)
    (fresh : liveIn ∉ processed)
    (moves : MovesIn initial processed liveIn locId others state placed) :
    ScanInvariant initial (liveIn :: processed) (initial liveIn).start
      (placed.insertActive liveIn) := by
  rcases moves with ⟨othersSublist, othersFree, locBound, spilled, kept, spilledOnce,
    slotBound, untouched, liveInReg, liveInLoc, start_eq, end_eq, othersReg, active_eq,
    count, bits⟩
  have perm : (placed.insertActive liveIn).active.Perm (liveIn :: others) :=
    active_eq ▸ insertActive_perm placed liveIn
  have memActive : ∀ key, key ∈ (placed.insertActive liveIn).active ↔
      key = liveIn ∨ key ∈ others := fun key => perm.mem_iff.trans List.mem_cons
  have othersProcessed : ∀ key ∈ others, key ∈ processed := fun key member =>
    invariant.activeProcessed key (othersSublist.subset member)
  have notOther : liveIn ∉ others := fun member => fresh (othersProcessed liveIn member)
  have othersKept : ∀ key ∈ others, placed.intervals key = state.intervals key :=
    fun key member => kept key (fun equal => notOther (equal ▸ member)) (othersReg key member)
  refine
    { start_eq := start_eq
      end_eq := end_eq
      untouched := untouched
      started := ?_
      activeNodup := perm.nodup_iff.mpr (List.nodup_cons.mpr
        ⟨notOther, invariant.activeNodup.sublist othersSublist⟩)
      activeProcessed := ?_
      activeInReg := ?_
      activeSorted := ?_
      activeDistinct := ?_
      useCount_eq := ?_
      bits := ?_
      inRange := ?_
      retired := ?_
      apart := ?_
      slotBound := ?_
      slots := ?_ }
  · intro key member
    rcases List.mem_cons.mp member with rfl | old
    · exact le_refl _
    · exact invariant.started key old
  · intro key member
    rcases (memActive key).mp member with rfl | other
    · simp
    · exact List.mem_cons_of_mem _ (othersProcessed key other)
  · intro key member
    rcases (memActive key).mp member with rfl | other
    · exact liveInReg
    · exact othersReg key other
  · have sorted := invariant.activeSorted.sublist othersSublist
    have inserted := sorted_insert (fun key => (initial key).end) liveIn sorted
    simpa only [ScanState.insertActive, end_eq, active_eq] using inserted
  · intro left leftMem right rightMem locEq
    have locEq' : (placed.intervals left).locationId =
        (placed.intervals right).locationId := locEq
    rcases (memActive left).mp leftMem with rfl | leftOther <;>
      rcases (memActive right).mp rightMem with rfl | rightOther
    · rfl
    · rw [liveInLoc, othersKept right rightOther] at locEq'
      exact (othersFree right rightOther locEq'.symm).elim
    · rw [liveInLoc, othersKept left leftOther] at locEq'
      exact (othersFree left leftOther locEq').elim
    · rw [othersKept left leftOther, othersKept right rightOther] at locEq'
      exact invariant.activeDistinct left (othersSublist.subset leftOther) right
        (othersSublist.subset rightOther) locEq'
  · rw [perm.length_eq]
    exact count
  · intro index
    refine (bits index).trans ?_
    constructor
    · rintro (rfl | ⟨key, other, locEq⟩)
      · exact ⟨liveIn, (memActive liveIn).mpr (.inl rfl), liveInLoc⟩
      · exact ⟨key, (memActive key).mpr (.inr other), by
          show (placed.intervals key).locationId = index
          rw [othersKept key other, locEq]⟩
    · rintro ⟨key, member, locEq⟩
      have locEq' : (placed.intervals key).locationId = index := locEq
      rcases (memActive key).mp member with rfl | other
      · exact .inl (liveInLoc.symm.trans locEq')
      · exact .inr ⟨key, other, by rw [← othersKept key other]; exact locEq'⟩
  · intro key member inReg
    have inReg' : (placed.intervals key).onStack = false := inReg
    show (placed.intervals key).locationId < kNumRegs
    by_cases same : key = liveIn
    · subst same
      exact liveInLoc ▸ locBound
    · have old : key ∈ processed := (List.mem_cons.mp member).resolve_left same
      have unchanged := kept key same inReg'
      rw [unchanged] at inReg' ⊢
      exact invariant.inRange key old inReg'
  · intro key member inReg notActive
    have inReg' : (placed.intervals key).onStack = false := inReg
    have different : key ≠ liveIn := fun equal =>
      notActive ((memActive key).mpr (.inl equal))
    have old : key ∈ processed := (List.mem_cons.mp member).resolve_left different
    have notOld : key ∉ state.active := by
      intro wasActive
      have gone : key ∉ others := fun other => notActive ((memActive key).mpr (.inr other))
      rw [spilled key wasActive gone] at inReg'
      exact Bool.noConfusion inReg'
    have unchanged := kept key different inReg'
    rw [unchanged] at inReg'
    exact invariant.retired key old inReg' notOld
  · -- A register is shared only with intervals that ended before this one starts.
    have newApart : ∀ key ∈ processed, key ≠ liveIn →
        (placed.intervals key).onStack = false →
        (placed.intervals key).locationId = locId →
        (initial key).end ≤ (initial liveIn).start := by
      intro key old different inReg locEq
      have unchanged := kept key different inReg
      have notOld : key ∉ state.active := by
        intro wasActive
        by_cases other : key ∈ others
        · rw [unchanged] at locEq
          exact othersFree key other locEq
        · rw [spilled key wasActive other] at inReg
          exact Bool.noConfusion inReg
      rw [unchanged] at inReg
      exact invariant.retired key old inReg notOld
    intro left leftMem right rightMem different leftReg rightReg locEq overlap
    have leftReg' : (placed.intervals left).onStack = false := leftReg
    have rightReg' : (placed.intervals right).onStack = false := rightReg
    have locEq' : (placed.intervals left).locationId =
        (placed.intervals right).locationId := locEq
    by_cases leftNew : left = liveIn
    · subst leftNew
      have old : right ∈ processed :=
        (List.mem_cons.mp rightMem).resolve_left different.symm
      have ended := newApart right old different.symm rightReg' (locEq' ▸ liveInLoc)
      exact absurd overlap.1 (Nat.not_lt.mpr ended)
    · have leftOld : left ∈ processed := (List.mem_cons.mp leftMem).resolve_left leftNew
      by_cases rightNew : right = liveIn
      · subst rightNew
        have ended := newApart left leftOld different leftReg' (locEq'.trans liveInLoc)
        exact absurd overlap.2 (Nat.not_lt.mpr ended)
      · have rightOld : right ∈ processed := (List.mem_cons.mp rightMem).resolve_left rightNew
        have leftKept := kept left leftNew leftReg'
        have rightKept := kept right rightNew rightReg'
        rw [leftKept] at leftReg' locEq'
        rw [rightKept] at rightReg' locEq'
        exact invariant.apart left leftOld right rightOld different leftReg' rightReg' locEq'
          overlap
  · intro key member onStack
    have onStack' : (placed.intervals key).onStack = true := onStack
    have different : key ≠ liveIn := by
      rintro rfl
      rw [liveInReg] at onStack'
      exact Bool.noConfusion onStack'
    exact slotBound key ((List.mem_cons.mp member).resolve_left different) onStack'
  · intro left leftMem right rightMem different leftStack rightStack
    have leftStack' : (placed.intervals left).onStack = true := leftStack
    have rightStack' : (placed.intervals right).onStack = true := rightStack
    have notLeft : left ≠ liveIn := by
      rintro rfl
      rw [liveInReg] at leftStack'
      exact Bool.noConfusion leftStack'
    have notRight : right ≠ liveIn := by
      rintro rfl
      rw [liveInReg] at rightStack'
      exact Bool.noConfusion rightStack'
    exact spilledOnce left ((List.mem_cons.mp leftMem).resolve_left notLeft) right
      ((List.mem_cons.mp rightMem).resolve_left notRight) different leftStack' rightStack'

/-- While a register is free, `liveIn` gets one. -/
theorem allocate {liveIn : Key}
    (invariant : ScanInvariant initial processed (initial liveIn).start state)
    (fresh : liveIn ∉ processed) (unplaced : (initial liveIn).onStack = false)
    (notFull : state.active.length ≠ kNumRegs) :
    ∃ index : Fin kNumRegs, ∃ pool,
      state.regPool.allocateReg = .ok (some ↑index, pool) ∧
      ScanInvariant initial (liveIn :: processed) (initial liveIn).start
        ((ScanState.setLocId { state with regPool := pool } liveIn index).insertActive
          liveIn) := by
  rcases invariant.exists_free notFull with ⟨clear, isClear⟩
  rcases found : RegisterPool.firstFree state.regPool.regs with _ | index
  · have allSet := List.find?_eq_none.mp found clear (List.mem_finRange clear)
    simp [isClear] at allSet
  · have free : state.regPool.regs index = false := by
      simpa using List.find?_some found
    have notAll : state.regPool.useCount ≠ kNumRegs := invariant.useCount_eq ▸ notFull
    have notActive : liveIn ∉ state.active := fun member =>
      fresh (invariant.activeProcessed liveIn member)
    have elsewhere : ∀ key ∈ state.active, (state.intervals key).locationId ≠ index := by
      intro key member locEq
      have isSet := (invariant.bits index).mpr ⟨key, member, locEq⟩
      simp [free] at isSet
    let pool : RegisterPool kNumRegs :=
      { useCount := state.regPool.useCount + 1
        regs := Function.update state.regPool.regs index true }
    have allocated : state.regPool.allocateReg = .ok (some ↑index, pool) := by
      simp [RegisterPool.allocateReg, notAll, found, pool]
    suffices moves : MovesIn initial processed liveIn index state.active state
        (ScanState.setLocId { state with regPool := pool } liveIn index) from
      ⟨index, pool, allocated, invariant.movesIn fresh moves⟩
    refine
      { othersSublist := List.Sublist.refl _
        othersFree := elsewhere
        locBound := index.isLt
        spilled := fun key member gone => absurd member gone
        kept := fun key different _ => by simp [different]
        slots := ?_
        slotBound := ?_
        untouched := ?_
        liveInReg := by simpa [unplaced] using invariant.untouched liveIn fresh
        liveInLoc := by simp
        start_eq := by simpa using invariant.start_eq
        end_eq := by simpa using invariant.end_eq
        othersReg := by simpa using invariant.activeInReg
        active_eq := rfl
        count := by simp [pool, invariant.useCount_eq]
        bits := ?_ }
    · intro left leftMem right rightMem different leftStack rightStack
      have leftOld : left ≠ liveIn := fun equal => fresh (equal ▸ leftMem)
      have rightOld : right ≠ liveIn := fun equal => fresh (equal ▸ rightMem)
      simp only [ne_eq, leftOld, rightOld, not_false_eq_true,
        ScanState.setLocId_of_ne] at leftStack rightStack ⊢
      exact invariant.slots left leftMem right rightMem different leftStack rightStack
    · intro key member onStack
      have old : key ≠ liveIn := fun equal => fresh (equal ▸ member)
      simp only [ne_eq, old, not_false_eq_true, ScanState.setLocId_of_ne] at onStack ⊢
      exact invariant.slotBound key member onStack
    · intro key notMember
      have notOld : key ∉ processed := fun old => notMember (List.mem_cons_of_mem _ old)
      simpa using invariant.untouched key notOld
    · intro other
      by_cases same : other = index
      · subst same
        simp [pool]
      · have different : ¬ (index : Nat) = other := fun equal => same (Fin.ext equal.symm)
        simp [pool, Function.update_of_ne same, different, invariant.bits other]

/-- `liveIn` takes over the register of the active interval that ends last. -/
theorem takeOver {liveIn spill : Key}
    (invariant : ScanInvariant initial processed (initial liveIn).start state)
    (fresh : liveIn ∉ processed) (unplaced : (initial liveIn).onStack = false)
    (last : state.active.getLast? = some spill) :
    ScanInvariant initial (liveIn :: processed) (initial liveIn).start
      (ScanState.insertActive
        { (state.setLocId liveIn (state.intervals spill).locationId).moveToStack spill with
          active := state.active.dropLast } liveIn) := by
  have split := List.dropLast_append_getLast? spill last
  have parts : (state.active.dropLast ++ [spill]).Nodup := by
    rw [split]
    exact invariant.activeNodup
  have spillMem : spill ∈ state.active := List.mem_of_getLast? last
  have spillOld := invariant.activeProcessed spill spillMem
  have spillReg := invariant.activeInReg spill spillMem
  have different : liveIn ≠ spill := fun equal => fresh (equal ▸ spillOld)
  have notSpill : ∀ key ∈ state.active.dropLast, key ≠ spill := by
    rintro key member rfl
    exact (List.nodup_append.mp parts).2.2 key member key (by simp) rfl
  have memActive : ∀ key, key ∈ state.active ↔ key ∈ state.active.dropLast ∨ key = spill := by
    intro key
    conv_lhs => rw [← split]
    simp
  have notStack : (state.intervals liveIn).onStack = false :=
    (invariant.untouched liveIn fresh).trans unplaced
  -- Past slots lie below the one the spilled interval gets.
  have oldStack : ∀ key ∈ processed, key ≠ spill →
      ((state.setLocId liveIn (state.intervals spill).locationId).moveToStack
        spill).intervals key = state.intervals key := by
    intro key member notSpilled
    have old : key ≠ liveIn := fun equal => fresh (equal ▸ member)
    simp [notSpilled, old]
  have bound : ∀ key ∈ processed, key ≠ spill →
      (state.intervals key).onStack = true →
      (state.intervals key).locationId < state.stackPos :=
    fun key member _ => invariant.slotBound key member
  suffices moves : MovesIn initial processed liveIn (state.intervals spill).locationId
      state.active.dropLast state
      { (state.setLocId liveIn (state.intervals spill).locationId).moveToStack spill with
        active := state.active.dropLast } from invariant.movesIn fresh moves
  refine
    { othersSublist := List.dropLast_sublist _
      othersFree := ?_
      locBound := invariant.inRange spill spillOld spillReg
      spilled := ?_
      kept := ?_
      slots := ?_
      slotBound := ?_
      untouched := ?_
      liveInReg := by simpa [different] using notStack
      liveInLoc := by simp [different]
      start_eq := by simpa using invariant.start_eq
      end_eq := by simpa using invariant.end_eq
      othersReg := ?_
      active_eq := rfl
      count := ?_
      bits := ?_ }
  · intro key member locEq
    exact notSpill key member (invariant.activeDistinct key
      ((memActive key).mpr (.inl member)) spill spillMem locEq)
  · intro key member gone
    rcases (memActive key).mp member with stays | rfl
    · exact absurd stays gone
    · simp
  · intro key notLiveIn inReg
    by_cases isSpill : key = spill
    · subst isSpill
      simp at inReg
    · simp [isSpill, notLiveIn]
  · intro left leftMem right rightMem notSame leftStack rightStack
    by_cases leftSpill : left = spill
    · subst leftSpill
      have rightOther : right ≠ left := notSame.symm
      simp only [oldStack right rightMem rightOther] at rightStack ⊢
      have below := bound right rightMem rightOther rightStack
      simp only [ScanState.moveToStack_locationId_self, ScanState.setLocId_stackPos]
      omega
    · by_cases rightSpill : right = spill
      · subst rightSpill
        simp only [oldStack left leftMem leftSpill] at leftStack ⊢
        have below := bound left leftMem leftSpill leftStack
        simp only [ScanState.moveToStack_locationId_self, ScanState.setLocId_stackPos]
        omega
      · simp only [oldStack left leftMem leftSpill,
          oldStack right rightMem rightSpill] at leftStack rightStack ⊢
        exact invariant.slots left leftMem right rightMem notSame leftStack rightStack
  · intro key member onStack
    by_cases isSpill : key = spill
    · subst isSpill
      simp
    · simp only [oldStack key member isSpill] at onStack ⊢
      have below := bound key member isSpill onStack
      simp only [ScanState.moveToStack_stackPos, ScanState.setLocId_stackPos]
      omega
  · intro key notMember
    have parts : key ≠ liveIn ∧ key ∉ processed := by simpa using notMember
    have notSpilled : key ≠ spill := fun equal => parts.2 (equal ▸ spillOld)
    simpa [notSpilled, parts.1] using invariant.untouched key parts.2
  · intro key member
    have active := (memActive key).mpr (.inl member)
    have old : key ≠ liveIn := fun equal =>
      fresh (equal ▸ invariant.activeProcessed key active)
    simpa [notSpill key member, old] using invariant.activeInReg key active
  · have length := congrArg List.length split
    rw [List.length_append, List.length_singleton] at length
    exact invariant.useCount_eq.trans length.symm
  · intro index
    simp only [ScanState.moveToStack_regPool, ScanState.setLocId_regPool,
      invariant.bits index, memActive]
    constructor
    · rintro ⟨key, stays | rfl, locEq⟩
      · exact .inr ⟨key, stays, locEq⟩
      · exact .inl locEq
    · rintro (locEq | ⟨key, stays, locEq⟩)
      · exact ⟨spill, .inr rfl, locEq⟩
      · exact ⟨key, .inl stays, locEq⟩

/-- With no register free and nothing ending later, `liveIn` goes to the stack. -/
theorem toStack {liveIn : Key}
    (invariant : ScanInvariant initial processed (initial liveIn).start state)
    (fresh : liveIn ∉ processed) :
    ScanInvariant initial (liveIn :: processed) (initial liveIn).start
      (state.moveToStack liveIn) := by
  have notActive : ∀ key ∈ state.active, key ≠ liveIn := fun key member equal =>
    fresh (equal ▸ invariant.activeProcessed key member)
  have onlyOld : ∀ key ∈ liveIn :: processed,
      ((state.moveToStack liveIn).intervals key).onStack = false →
      key ∈ processed ∧ (state.moveToStack liveIn).intervals key = state.intervals key := by
    intro key member inReg
    rcases List.mem_cons.mp member with rfl | old
    · simp at inReg
    · have different : key ≠ liveIn := fun equal => fresh (equal ▸ old)
      exact ⟨old, by simp [different]⟩
  refine
    { start_eq := by simpa using invariant.start_eq
      end_eq := by simpa using invariant.end_eq
      untouched := ?_
      started := ?_
      activeNodup := invariant.activeNodup
      activeProcessed := fun key member =>
        List.mem_cons_of_mem _ (invariant.activeProcessed key member)
      activeInReg := ?_
      activeSorted := invariant.activeSorted
      activeDistinct := ?_
      useCount_eq := invariant.useCount_eq
      bits := ?_
      inRange := ?_
      retired := ?_
      apart := ?_
      slotBound := ?_
      slots := ?_ }
  · intro key notMember
    have parts : key ≠ liveIn ∧ key ∉ processed := by simpa using notMember
    simpa [parts.1] using invariant.untouched key parts.2
  · intro key member
    rcases List.mem_cons.mp member with rfl | old
    · exact le_refl _
    · exact invariant.started key old
  · intro key member
    simpa [notActive key member] using invariant.activeInReg key member
  · intro left leftMem right rightMem locEq
    simp only [ne_eq, notActive left leftMem, notActive right rightMem, not_false_eq_true,
      ScanState.moveToStack_of_ne] at locEq
    exact invariant.activeDistinct left leftMem right rightMem locEq
  · intro index
    refine (invariant.bits index).trans ⟨?_, ?_⟩
    · rintro ⟨key, member, locEq⟩
      exact ⟨key, member, by simpa [notActive key member] using locEq⟩
    · rintro ⟨key, member, locEq⟩
      exact ⟨key, member, by simpa [notActive key member] using locEq⟩
  · intro key member inReg
    rcases onlyOld key member inReg with ⟨old, unchanged⟩
    rw [unchanged] at inReg ⊢
    exact invariant.inRange key old inReg
  · intro key member inReg gone
    rcases onlyOld key member inReg with ⟨old, unchanged⟩
    rw [unchanged] at inReg
    exact invariant.retired key old inReg gone
  · intro left leftMem right rightMem different leftReg rightReg
    rcases onlyOld left leftMem leftReg with ⟨leftOld, leftSame⟩
    rcases onlyOld right rightMem rightReg with ⟨rightOld, rightSame⟩
    rw [leftSame] at leftReg ⊢
    rw [rightSame] at rightReg ⊢
    exact invariant.apart left leftOld right rightOld different leftReg rightReg
  · intro key member onStack
    by_cases same : key = liveIn
    · subst same
      simp
    · have old := (List.mem_cons.mp member).resolve_left same
      simp only [ne_eq, same, not_false_eq_true, ScanState.moveToStack_of_ne] at onStack ⊢
      exact (invariant.slotBound key old onStack).trans (Nat.lt_succ_self _)
  · -- The new slot lies above all slots given so far.
    have below : ∀ key ∈ liveIn :: processed, key ≠ liveIn →
        ((state.moveToStack liveIn).intervals key).onStack = true →
        ((state.moveToStack liveIn).intervals key).locationId < state.stackPos := by
      intro key member different onStack
      have old := (List.mem_cons.mp member).resolve_left different
      simp only [ne_eq, different, not_false_eq_true, ScanState.moveToStack_of_ne] at onStack ⊢
      exact invariant.slotBound key old onStack
    intro left leftMem right rightMem different leftStack rightStack
    by_cases leftNew : left = liveIn
    · subst leftNew
      have bound := below right rightMem different.symm rightStack
      rw [ScanState.moveToStack_locationId_self]
      omega
    · by_cases rightNew : right = liveIn
      · subst rightNew
        have bound := below left leftMem different leftStack
        rw [ScanState.moveToStack_locationId_self]
        omega
      · have leftOld := (List.mem_cons.mp leftMem).resolve_left leftNew
        have rightOld := (List.mem_cons.mp rightMem).resolve_left rightNew
        simp only [ne_eq, leftNew, rightNew, not_false_eq_true,
          ScanState.moveToStack_of_ne] at leftStack rightStack ⊢
        exact invariant.slots left leftOld right rightOld different leftStack rightStack

/-! ## One round, and the whole scan -/

theorem scanStep {liveIn : Key} (invariant : ScanInvariant initial processed now state)
    (fresh : liveIn ∉ processed) (unplaced : (initial liveIn).onStack = false)
    (sorted : now ≤ (initial liveIn).start) :
    ∃ state', state.scanStep liveIn = .ok state' ∧
      ScanInvariant initial (liveIn :: processed) (initial liveIn).start state' := by
  rcases (invariant.later sorted).expireOldIntervals with
    ⟨expired, expireResult, after, -, -, -⟩
  by_cases full : expired.active.length = kNumRegs
  · rcases last : expired.active.getLast? with _ | spill
    · rw [List.getLast?_eq_none_iff.mp last] at full
      exact absurd full (by simp [kNumRegs])
    · have spillReg := after.activeInReg spill (List.mem_of_getLast? last)
      by_cases longer : (expired.intervals spill).end > (expired.intervals liveIn).end
      · exact ⟨_, by simp [ScanState.scanStep, expireResult, full, ScanState.spillAtInterval,
          last, longer, spillReg], after.takeOver fresh unplaced last⟩
      · exact ⟨_, by simp [ScanState.scanStep, expireResult, full, ScanState.spillAtInterval,
          last, longer], after.toStack fresh⟩
  · rcases after.allocate fresh unplaced full with ⟨index, pool, allocated, placed⟩
    exact ⟨_, by simp [ScanState.scanStep, expireResult, full, allocated], placed⟩

theorem scan (order : List Key) (invariant : ScanInvariant initial processed now state)
    (nodup : order.Nodup) (fresh : ∀ key ∈ order, key ∉ processed)
    (unplaced : ∀ key ∈ order, (initial key).onStack = false)
    (sorted : order.Pairwise fun left right => (initial left).start ≤ (initial right).start)
    (notBefore : ∀ key ∈ order, now ≤ (initial key).start) :
    ∃ final last, order.foldlM ScanState.scanStep state = .ok final ∧
      ScanInvariant initial (order.reverse ++ processed) last final := by
  induction order generalizing processed now state with
  | nil => exact ⟨state, now, rfl, invariant⟩
  | cons liveIn rest induction =>
      have nodupParts := List.nodup_cons.mp nodup
      have sortedParts := List.pairwise_cons.mp sorted
      rcases invariant.scanStep (fresh liveIn (by simp)) (unplaced liveIn (by simp))
        (notBefore liveIn (by simp)) with
        ⟨next, stepResult, stepInvariant⟩
      have restFresh : ∀ key ∈ rest, key ∉ liveIn :: processed := by
        intro key member old
        rcases List.mem_cons.mp old with rfl | old
        · exact nodupParts.1 member
        · exact fresh key (List.mem_cons_of_mem _ member) old
      have restUnplaced : ∀ key ∈ rest, (initial key).onStack = false := fun key member =>
        unplaced key (List.mem_cons_of_mem _ member)
      rcases induction stepInvariant nodupParts.2 restFresh restUnplaced sortedParts.2
        sortedParts.1 with
        ⟨final, last, result, finalInvariant⟩
      exact ⟨final, last, by simp [stepResult, result], by simpa using finalInvariant⟩

omit [DecidableEq Key] in
/-- Before the scan nothing is placed. -/
theorem start :
    ScanInvariant initial [] 0
      { regPool := {}, intervals := initial, active := [], stackPos := 0 } where
  start_eq _ := rfl
  end_eq _ := rfl
  untouched _ _ := rfl
  started := by simp
  activeNodup := List.nodup_nil
  activeProcessed := by simp
  activeInReg := by simp
  activeSorted := List.Pairwise.nil
  activeDistinct := by simp
  useCount_eq := rfl
  bits := by simp
  inRange := by simp
  retired := by simp
  apart := by simp
  slotBound := by simp
  slots := by simp

end ScanInvariant

/-! ## Soundness of the placement -/

/-- What a finished scan promises about the intervals it placed. -/
structure SoundPlacement (order : List Key) (intervals : Key → LiveInterval) : Prop where
  registers : ∀ left ∈ order, ∀ right ∈ order, left ≠ right →
    (intervals left).Overlaps (intervals right) →
    (intervals left).onStack = false → (intervals right).onStack = false →
    (intervals left).locationId ≠ (intervals right).locationId
  inRange : ∀ key ∈ order, (intervals key).onStack = false →
    (intervals key).locationId < kNumRegs
  slots : ∀ left ∈ order, ∀ right ∈ order, left ≠ right →
    (intervals left).onStack = true → (intervals right).onStack = true →
    (intervals left).locationId ≠ (intervals right).locationId

theorem ScanInvariant.soundPlacement {initial : Key → LiveInterval} {order : List Key}
    {now : Nat} {state : ScanState Key}
    (invariant : ScanInvariant initial order now state) :
    SoundPlacement order state.intervals where
  registers left leftMem right rightMem different overlap leftReg rightReg locEq :=
    invariant.apart left leftMem right rightMem different leftReg rightReg locEq
      (by simpa [LiveInterval.Overlaps, invariant.start_eq, invariant.end_eq] using overlap)
  inRange := invariant.inRange
  slots := invariant.slots

variable [DecidableEq Key]

theorem linearScan_invariant (order : List Key) (intervals : Key → LiveInterval)
    (nodup : order.Nodup)
    (sorted : order.Pairwise fun left right =>
      (intervals left).start ≤ (intervals right).start)
    (unplaced : ∀ key ∈ order, (intervals key).onStack = false) :
    ∃ final now, linearScan order intervals = .ok final ∧
      ScanInvariant intervals order.reverse now final := by
  rcases ScanInvariant.start.scan order nodup (by simp) unplaced sorted (by simp) with
    ⟨final, now, result, invariant⟩
  exact ⟨final, now, result, by simpa using invariant⟩

/-- The scan of any intervals sorted by start returns, keeps their bounds, and
places them soundly. -/
theorem linearScan_places_soundly (order : List Key) (intervals : Key → LiveInterval)
    (nodup : order.Nodup)
    (sorted : order.Pairwise fun left right =>
      (intervals left).start ≤ (intervals right).start)
    (unplaced : ∀ key ∈ order, (intervals key).onStack = false) :
    ∃ final, linearScan order intervals = .ok final ∧
      (∀ key, (final.intervals key).start = (intervals key).start ∧
        (final.intervals key).end = (intervals key).end) ∧
      SoundPlacement order final.intervals := by
  rcases linearScan_invariant order intervals nodup sorted unplaced with
    ⟨final, now, result, invariant⟩
  have placement := invariant.soundPlacement
  refine ⟨final, result, fun key => ⟨invariant.start_eq key, invariant.end_eq key⟩, ?_⟩
  exact
    { registers := fun left leftMem right rightMem =>
        placement.registers left (by simpa using leftMem) right (by simpa using rightMem)
      inRange := fun key member => placement.inRange key (by simpa using member)
      slots := fun left leftMem right rightMem =>
        placement.slots left (by simpa using leftMem) right (by simpa using rightMem) }

/-- Five intervals that need four registers at once, the first of them the longest. -/
def crowded : Fin 5 → LiveInterval
  | 0 => { start := 0, «end» := 20 }
  | 1 => { start := 1, «end» := 6 }
  | 2 => { start := 2, «end» := 5 }
  | 3 => { start := 3, «end» := 4 }
  | 4 => { start := 4, «end» := 9 }

theorem linearScan_places_soundly_crowded :
    ∃ final, linearScan [0, 1, 2, 3, 4] crowded = .ok final ∧
      (∀ key, (final.intervals key).start = (crowded key).start ∧
        (final.intervals key).end = (crowded key).end) ∧
      SoundPlacement [0, 1, 2, 3, 4] final.intervals :=
  linearScan_places_soundly [0, 1, 2, 3, 4] crowded (by decide) (by decide) (by decide)

end LeechJit.Analysis
