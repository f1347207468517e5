import LeechJit.Analysis.ScanTies

/-! # Scans that have come apart

Two scans over the same intervals with the same active intervals never agree again once they
have given some interval different locations: the difference stays with the interval, or goes
to the one that takes over its register.
-/

namespace LeechJit.Analysis

open IR

variable {Key : Type}

namespace ScanState

variable {state room left right left' right' : ScanState Key} {key short long spill : Key}

/-! ## Insertion -/

theorem insertByEnd_nil (state : ScanState Key) (key : Key) : state.insertByEnd key [] = [key] :=
  rfl

theorem insertByEnd_cons (state : ScanState Key) (key first : Key) (rest : List Key) :
    state.insertByEnd key (first :: rest) =
      if (state.intervals first).end ≤ (state.intervals key).end
        then first :: state.insertByEnd key rest else key :: first :: rest := by
  cases Nat.lt_or_ge (state.intervals key).end (state.intervals first).end with
  | inl later => simp [insertByEnd, Nat.not_le.mpr later]
  | inr notLater => simp [insertByEnd, notLater]

/-- Two intervals with different ends find the same places in either order. -/
theorem insertByEnd_comm (shorter : (state.intervals short).end < (state.intervals long).end)
    (active : List Key) :
    state.insertByEnd long (state.insertByEnd short active) =
      state.insertByEnd short (state.insertByEnd long active) := by
  have notLater := shorter.le
  have later := Nat.not_le.mpr shorter
  induction active with
  | nil => simp [insertByEnd_nil, insertByEnd_cons, notLater, later]
  | cons first rest induction =>
      cases Nat.lt_or_ge (state.intervals short).end (state.intervals first).end with
      | inr early =>
          simp [insertByEnd_cons, early, early.trans notLater, induction]
      | inl afterShort =>
          cases Nat.lt_or_ge (state.intervals long).end (state.intervals first).end with
          | inr between =>
              simp [insertByEnd_cons, Nat.not_le.mpr afterShort, between, notLater]
          | inl afterLong =>
              simp [insertByEnd_cons, Nat.not_le.mpr afterShort, Nat.not_le.mpr afterLong,
                notLater, later]

/-- What ends last stays last. -/
theorem insertByEnd_append (later : (state.intervals key).end < (state.intervals spill).end)
    (others : List Key) :
    state.insertByEnd key (others ++ [spill]) = state.insertByEnd key others ++ [spill] := by
  induction others with
  | nil => simp [insertByEnd_nil, insertByEnd_cons, Nat.not_le.mpr later]
  | cons first rest induction =>
      rw [List.cons_append, insertByEnd_cons, insertByEnd_cons, induction]
      split <;> rfl

/-! ## One round -/

/-- The two scans have the same active intervals, but have given some interval in `processed`
different locations. -/
structure Apart (processed : List Key) (left right : ScanState Key) : Prop where
  active : left.active = right.active
  stackPos : left.stackPos = right.stackPos
  differs : ∃ key ∈ processed,
    (left.intervals key).locationId ≠ (right.intervals key).locationId

variable [DecidableEq Key] {processed : List Key}

theorem Apart.round (apart : Apart processed left right) (fresh : key ∉ processed)
    (ends : ∀ other, (left.intervals other).end = (right.intervals other).end)
    (leftRound : Round left key left') (rightRound : Round right key right') :
    Apart (key :: processed) left' right' := by
  rcases apart.differs with ⟨other, member, differs⟩
  have notKey : other ≠ key := fun equal => fresh (equal ▸ member)
  have insertSame : ∀ active, left.insertByEnd key active = right.insertByEnd key active :=
    insertByEnd_congr ends key
  cases leftRound with
  | free leftLoc leftPool notFull allocated =>
      cases rightRound with
      | free rightLoc rightPool notFull' allocated' =>
          constructor
          case active =>
            rw [enter_active, enter_active]
            exact (insertSame left.active).trans (congrArg _ apart.active)
          case stackPos => exact apart.stackPos
          case differs =>
            refine ⟨other, .tail _ member, ?_⟩
            rw [enter_of_ne notKey, enter_of_ne notKey]
            exact differs
      | takes spill others full => exact absurd (apart.active ▸ full) notFull
      | spills spill others full => exact absurd (apart.active ▸ full) notFull
  | takes spill others full split shorter =>
      cases rightRound with
      | free rightLoc rightPool notFull => exact absurd (apart.active ▸ full) notFull
      | takes spill' others' full' split' shorter' =>
          rw [← apart.active, split] at split'
          rcases List.append_inj' split' rfl with ⟨rfl, sameSpill⟩
          cases sameSpill
          constructor
          case active =>
            rw [enter_active, enter_active, release_active, release_active,
              insertByEnd_congr (fun _ => release_end), insertByEnd_congr (fun _ => release_end)]
            exact insertSame others
          case stackPos => exact congrArg (· + 1) apart.stackPos
          case differs =>
            cases decEq other spill with
            | isTrue same =>
                -- the register goes to the new interval
                refine ⟨key, .head _, ?_⟩
                rw [enter_self, enter_self]
                exact same ▸ differs
            | isFalse notSpill =>
                refine ⟨other, .tail _ member, ?_⟩
                rw [enter_of_ne notKey, enter_of_ne notKey, release_of_ne notSpill,
                  release_of_ne notSpill]
                exact differs
      | spills spill' others' full' split' notShorter =>
          rw [← apart.active, split] at split'
          rcases List.append_inj' split' rfl with ⟨-, sameSpill⟩
          cases sameSpill
          rw [ends, ends] at shorter
          exact absurd shorter (Nat.not_lt.mpr notShorter)
  | spills spill others full split notShorter =>
      cases rightRound with
      | free rightLoc rightPool notFull => exact absurd (apart.active ▸ full) notFull
      | takes spill' others' full' split' shorter =>
          rw [← apart.active, split] at split'
          rcases List.append_inj' split' rfl with ⟨-, sameSpill⟩
          cases sameSpill
          rw [ends, ends] at notShorter
          exact absurd shorter (Nat.not_lt.mpr notShorter)
      | spills spill' others' full' split' notShorter' =>
          constructor
          case active => exact apart.active
          case stackPos => exact congrArg (· + 1) apart.stackPos
          case differs =>
            refine ⟨other, .tail _ member, ?_⟩
            rw [moveToStack_of_ne _ _ notKey, moveToStack_of_ne _ _ notKey]
            exact differs

/-! ## Two rounds in either order -/

/-- All but one of the registers are held, one of them by an interval that ends later than the two:
whichever comes second takes over its register. -/
theorem Meets.apart_room {others : List Key} {locId : Nat} (meets : room.Meets short long)
    (full : room.active.length + 1 = kNumRegs) (split : room.active = others ++ [spill])
    (later : (room.intervals long).end < (room.intervals spill).end)
    (otherLoc : (room.intervals spill).locationId ≠ locId) :
    ∃ left right, (room.enter short locId).scanStep long = .ok left ∧
      (room.enter long locId).scanStep short = .ok right ∧
      left.active = right.active ∧ left.stackPos = right.stackPos ∧
      (left.intervals short).locationId ≠ (right.intervals short).locationId := by
  have different := meets.different
  have spillMem : spill ∈ room.active := by simp [split]
  have shortSpill : short ≠ spill := fun equal => meets.shortFresh (equal ▸ spillMem)
  have longSpill : long ≠ spill := fun equal => meets.longFresh (equal ▸ spillMem)
  have laterShort := meets.shorter.trans later
  have leftStep : (room.enter short locId).scanStep long =
      .ok (((room.enter short locId).release spill (room.insertByEnd short others)).enter long
        (room.intervals spill).locationId) := by
    have outlasts : (room.enter short locId).Outlasts long :=
      meets.long_outlasts.enter meets.long_startsBefore
    have isFull : (room.enter short locId).active.length = kNumRegs := by
      rw [enter_length, full]
    have splitEnter : (room.enter short locId).active =
        room.insertByEnd short others ++ [spill] := by
      rw [enter_active, split, insertByEnd_append laterShort]
    have inReg : ((room.enter short locId).intervals spill).onStack = false := by
      rw [enter_onStack, meets.inReg spill spillMem]
    have fresh : long ∉ (room.enter short locId).active := by
      rw [mem_enter_active]
      exact not_or.mpr ⟨different.symm, meets.longFresh⟩
    rw [scanStep_full outlasts isFull splitEnter inReg fresh, enter_end, enter_end, if_pos later,
      enter_of_ne shortSpill.symm]
  have rightStep : (room.enter long locId).scanStep short =
      .ok (((room.enter long locId).release spill (room.insertByEnd long others)).enter short
        (room.intervals spill).locationId) := by
    have outlasts : (room.enter long locId).Outlasts short :=
      meets.outlasts.enter meets.short_startsBefore
    have isFull : (room.enter long locId).active.length = kNumRegs := by
      rw [enter_length, full]
    have splitEnter : (room.enter long locId).active =
        room.insertByEnd long others ++ [spill] := by
      rw [enter_active, split, insertByEnd_append later]
    have inReg : ((room.enter long locId).intervals spill).onStack = false := by
      rw [enter_onStack, meets.inReg spill spillMem]
    have fresh : short ∉ (room.enter long locId).active := by
      rw [mem_enter_active]
      exact not_or.mpr ⟨different, meets.shortFresh⟩
    rw [scanStep_full outlasts isFull splitEnter inReg fresh, enter_end, enter_end,
      if_pos laterShort, enter_of_ne longSpill.symm]
  refine ⟨_, _, leftStep, rightStep, ?_, rfl, ?_⟩
  · rw [enter_active, enter_active, release_active, release_active,
      insertByEnd_congr (fun _ => release_end), insertByEnd_congr (fun _ => release_end),
      insertByEnd_congr (fun _ => enter_end), insertByEnd_congr (fun _ => enter_end),
      insertByEnd_comm meets.shorter]
  · rw [enter_of_ne different, release_of_ne shortSpill, enter_self, enter_self]
    exact otherLoc.symm

/-- Two registers are free: the first of the two gets one, and the second the other. -/
theorem Meets.apart_free {locId otherId : Nat} {pool pool' : RegisterPool kNumRegs}
    (meets : state.Meets short long) (twoFree : state.active.length + 1 < kNumRegs)
    (allocated : state.regPool.allocateReg = .ok (some locId, pool))
    (allocatedNext : pool.allocateReg = .ok (some otherId, pool')) (otherLoc : otherId ≠ locId) :
    ∃ left right, (state.scanStep short >>= fun next => next.scanStep long) = .ok left ∧
      (state.scanStep long >>= fun next => next.scanStep short) = .ok right ∧
      left.active = right.active ∧ left.stackPos = right.stackPos ∧
      (left.intervals short).locationId ≠ (right.intervals short).locationId := by
  have different := meets.different
  have notFull : state.active.length ≠ kNumRegs := by omega
  have outlastsLong : ((state.withPool pool).enter short locId).Outlasts long :=
    Outlasts.enter meets.long_outlasts meets.long_startsBefore
  have outlastsShort : ((state.withPool pool).enter long locId).Outlasts short :=
    Outlasts.enter meets.outlasts meets.short_startsBefore
  have notFullNext : ∀ key, ((state.withPool pool).enter key locId).active.length ≠
      kNumRegs := by
    intro key
    rw [enter_length]
    exact twoFree.ne
  rw [scanStep_free meets.outlasts notFull allocated,
    scanStep_free meets.long_outlasts notFull allocated, Result.ok_bind, Result.ok_bind,
    scanStep_free outlastsLong (notFullNext short) allocatedNext,
    scanStep_free outlastsShort (notFullNext long) allocatedNext]
  refine ⟨_, _, rfl, rfl, ?_, rfl, ?_⟩
  · have first : ∀ key, ((state.withPool pool).enter key locId).active =
        state.insertByEnd key state.active := fun key => enter_active_of fun _ => rfl
    have second : ∀ key key', ((((state.withPool pool).enter key locId).withPool pool').enter
          key' otherId).active = state.insertByEnd key' (state.insertByEnd key state.active) := by
      intro key key'
      have ends : ∀ other, ((((state.withPool pool).enter key locId).withPool pool').intervals
          other).end = (state.intervals other).end := fun _ => enter_end
      rw [enter_active_of ends, withPool_active, first]
    rw [second, second]
    exact insertByEnd_comm meets.shorter state.active
  · rw [enter_of_ne different, withPool_intervals, enter_self, enter_self]
    exact otherLoc.symm

/-- No register is free, and no active interval ends later than the longer of the two: it gets
the next place on the stack when it comes first, and a later one when it comes second. -/
theorem Meets.apart_stack (meets : state.Meets short long)
    (full : state.active.length = kNumRegs) (nodup : state.active.Nodup)
    (early : ∀ other ∈ state.active, (state.intervals other).end ≤ (state.intervals long).end) :
    ∃ left right, (state.scanStep short >>= fun next => next.scanStep long) = .ok left ∧
      (state.scanStep long >>= fun next => next.scanStep short) = .ok right ∧
      left.active = right.active ∧ left.stackPos = right.stackPos ∧
      (left.intervals long).locationId ≠ (right.intervals long).locationId := by
  have different := meets.different
  have nonempty : state.active ≠ [] := by
    intro empty
    rw [empty] at full
    cases full
  have split := (List.dropLast_append_getLast nonempty).symm
  generalize state.active.dropLast = others at split
  generalize state.active.getLast nonempty = spill at split
  have spillMem : spill ∈ state.active := by simp [split]
  have inReg := meets.inReg spill spillMem
  have notLater := Nat.not_lt.mpr (early spill spillMem)
  have shortSpill : spill ≠ short := fun equal => meets.shortFresh (equal ▸ spillMem)
  have longSpill : spill ≠ long := fun equal => meets.longFresh (equal ▸ spillMem)
  have othersLength : others.length + 1 = kNumRegs := by
    rw [← full, split, List.length_append, List.length_singleton]
  have onStack : ∀ {key other}, other ∉ state.active → state.Outlasts other → spill ≠ key →
      (state.moveToStack key).scanStep other =
        if (state.intervals other).end < (state.intervals spill).end
          then .ok (((state.moveToStack key).release spill others).enter other
            (state.intervals spill).locationId)
          else .ok ((state.moveToStack key).moveToStack other) := by
    intro key other otherFresh outlasts notKey
    have outlastsKey : (state.moveToStack key).Outlasts other := by
      intro active member
      rw [moveToStack_start, moveToStack_end]
      exact outlasts active member
    have inRegKey : ((state.moveToStack key).intervals spill).onStack = false := by
      rw [moveToStack_of_ne _ _ notKey, inReg]
    rw [scanStep_full outlastsKey full split inRegKey otherFresh, moveToStack_end, moveToStack_end,
      moveToStack_of_ne _ _ notKey]
  rw [scanStep_full meets.outlasts full split inReg meets.shortFresh,
    scanStep_full meets.long_outlasts full split inReg meets.longFresh, if_neg notLater,
    Result.ok_bind,
    onStack meets.shortFresh meets.outlasts longSpill]
  cases Nat.lt_or_ge (state.intervals short).end (state.intervals spill).end with
  | inl shorter =>
      have room := meets.release split nodup
      have earlyOthers : ∀ other ∈ others,
          ((state.release spill others).intervals other).end ≤
            ((state.release spill others).intervals long).end := by
        intro other member
        rw [release_end, release_end]
        exact early other (by simp [split, member])
      rw [if_pos shorter, if_pos shorter, Result.ok_bind, room.goes_to_stack othersLength earlyOthers]
      refine ⟨_, _, rfl, rfl, ?_, rfl, ?_⟩
      · have ends : ∀ other, (((state.moveToStack long).release spill others).intervals other).end =
            ((state.release spill others).intervals other).end := by
          intro other
          rw [release_end, release_end, moveToStack_end]
        rw [moveToStack_active, enter_active, enter_active_of ends]
        rfl
      · rw [moveToStack_locationId_self, enter_of_ne different.symm, release_of_ne longSpill.symm,
          moveToStack_locationId_self]
        exact Nat.succ_ne_self _
  | inr notShorter =>
      rw [if_neg (Nat.not_lt.mpr notShorter), if_neg (Nat.not_lt.mpr notShorter), Result.ok_bind,
        onStack meets.longFresh meets.long_outlasts shortSpill,
        if_neg notLater]
      refine ⟨_, _, rfl, rfl, rfl, rfl, ?_⟩
      rw [moveToStack_locationId_self, moveToStack_of_ne _ _ different.symm,
        moveToStack_locationId_self]
      exact Nat.succ_ne_self _

end ScanState

/-! ## Ties that are not harmless -/

namespace ScanInvariant

variable {initial : Key → LiveInterval} {processed : List Key} {now : Nat}
  {state expired : ScanState Key} {short long : Key}

/-- If not all active intervals end by `bound`, the last one does not. -/
theorem last_later {active : List Key} {bound : Nat}
    (sorted : (ends initial active).Pairwise (· ≤ ·))
    (notAll : ¬ ∀ other ∈ active, (initial other).end ≤ bound) :
    ∃ others spill, active = others ++ [spill] ∧ bound < (initial spill).end := by
  have nonempty : active ≠ [] := by
    intro empty
    apply notAll
    rw [empty]
    exact fun other member => absurd member List.not_mem_nil
  refine ⟨active.dropLast, active.getLast nonempty,
    (List.dropLast_append_getLast nonempty).symm, ?_⟩
  apply Nat.lt_of_not_ge
  intro early
  apply notAll
  intro other member
  rw [← List.dropLast_append_getLast nonempty] at sorted member
  rw [ends, List.map_append, List.pairwise_append] at sorted
  rw [List.mem_append, List.mem_singleton] at member
  cases member with
  | inl isOther =>
      exact (sorted.2.2 _ (List.mem_map_of_mem isOther) _ (List.mem_singleton_self _)).trans early
  | inr isLast => exact isLast ▸ early

theorem count_of_all {active : List Key} {bound : Nat}
    (all : ∀ other ∈ active, (initial other).end ≤ bound) :
    (ends initial active).countP (fun «end» => decide («end» ≤ bound)) = active.length := by
  rw [ends, List.countP_map, List.countP_eq_length]
  exact fun other member => decide_eq_true (all other member)

variable [DecidableEq Key]

/-- Two intervals that start together and whose order is not harmless make the scans come apart. -/
theorem Ready.apart (ready : Ready initial processed short state expired)
    (meets : expired.Meets short long) (shortFresh : short ∉ processed)
    (longFresh : long ∉ processed) (shortUnplaced : (initial short).onStack = false)
    (longUnplaced : (initial long).onStack = false)
    (harmful : ((ends initial expired.active).countP fun «end» =>
      decide («end» ≤ (initial long).end)) + 1 ≠ kNumRegs) :
    ∃ left right, (expired.scanStep short >>= fun next => next.scanStep long) = .ok left ∧
      (expired.scanStep long >>= fun next => next.scanStep short) = .ok right ∧
      ScanState.Apart [short, long] left right := by
  have invariant := ready.invariant
  have sorted := invariant.ends_sorted
  have different := meets.different
  have shortApart : ∀ {first second : Result (ScanState Key)},
      (∃ left right, first = .ok left ∧ second = .ok right ∧ left.active = right.active ∧
        left.stackPos = right.stackPos ∧
        (left.intervals short).locationId ≠ (right.intervals short).locationId) →
      ∃ left right, first = .ok left ∧ second = .ok right ∧
        ScanState.Apart [short, long] left right := by
    intro first second come
    rcases come with ⟨left, right, first, second, active, stackPos, differs⟩
    exact ⟨left, right, first, second, active, stackPos, short, by simp, differs⟩
  have endEq : ∀ key, (expired.intervals key).end = (initial key).end := invariant.end_eq
  cases decEq expired.active.length kNumRegs with
  | isFalse notFull =>
      have most := invariant.active_length_le
      rcases invariant.allocate shortFresh shortUnplaced notFull with
        ⟨index, pool, allocated, entered⟩
      have entered : ScanInvariant initial (short :: processed) (initial short).start
          ((expired.withPool pool).enter short index) := entered
      have shortMem : short ∈ ((expired.withPool pool).enter short index).active :=
        ScanState.mem_enter_active.mpr (.inl rfl)
      cases decEq (expired.active.length + 1) kNumRegs with
      | isFalse notFullNext =>
          have together := meets.together
          rw [invariant.start_eq, invariant.start_eq] at together
          rw [← together] at entered
          have notFullThere : ((expired.withPool pool).enter short index).active.length ≠
              kNumRegs := by
            rw [ScanState.enter_length]
            exact notFullNext
          rcases entered.allocate (by simp [longFresh, different.symm]) longUnplaced notFullThere with
            ⟨next, poolNext, allocatedNext, both⟩
          have both : ScanInvariant initial (long :: short :: processed) (initial long).start
              ((((expired.withPool pool).enter short index).withPool poolNext).enter long next) :=
            both
          apply shortApart
          apply meets.apart_free (by omega) allocated allocatedNext
          intro same
          apply different
          apply both.activeDistinct short (ScanState.mem_enter_active.mpr (.inr shortMem)) long
            (ScanState.mem_enter_active.mpr (.inl rfl))
          rw [ScanState.enter_of_ne different, ScanState.withPool_intervals, ScanState.enter_self,
            ScanState.enter_self]
          exact same.symm
      | isTrue oneFree =>
          have notAll : ¬ ∀ other ∈ expired.active, (initial other).end ≤ (initial long).end := by
            intro all
            rw [count_of_all all] at harmful
            exact harmful oneFree
          rcases last_later sorted notAll with ⟨others, spill, split, later⟩
          have spillMem : spill ∈ expired.active := by simp [split]
          have spillShort : spill ≠ short := fun equal => meets.shortFresh (equal ▸ spillMem)
          rw [← endEq, ← endEq] at later
          rw [ScanState.scanStep_free meets.outlasts notFull allocated,
            ScanState.scanStep_free meets.long_outlasts notFull allocated]
          apply shortApart
          apply (meets.withPool pool).apart_room oneFree split later
          intro same
          apply spillShort
          apply entered.activeDistinct spill (ScanState.mem_enter_active.mpr (.inr spillMem)) short
            shortMem
          rw [ScanState.enter_of_ne spillShort, ScanState.enter_self]
          exact same
  | isTrue full =>
      cases Classical.em (∀ other ∈ expired.active, (initial other).end ≤ (initial long).end) with
      | inl all =>
          have early : ∀ other ∈ expired.active,
              (expired.intervals other).end ≤ (expired.intervals long).end := by
            intro other member
            rw [endEq, endEq]
            exact all other member
          rcases meets.apart_stack full invariant.activeNodup early with
            ⟨left, right, first, second, active, stackPos, differs⟩
          exact ⟨left, right, first, second, active, stackPos, long, by simp, differs⟩
      | inr notAll =>
          rcases last_later sorted notAll with ⟨others, spill, split, later⟩
          have othersLength : others.length + 1 = kNumRegs := by
            rw [← full, split, List.length_append, List.length_singleton]
          have notOthers : ¬ ∀ other ∈ others, (initial other).end ≤ (initial long).end := by
            intro all
            have count := count_of_all all
            apply harmful
            rw [split, ends, List.map_append, List.countP_append, ← ends, count]
            simp [Nat.not_le.mpr later, othersLength]
          have othersSorted : (ends initial others).Pairwise (· ≤ ·) := by
            rw [split, ends, List.map_append, List.pairwise_append] at sorted
            exact sorted.1
          rcases last_later othersSorted notOthers with ⟨firsts, next, splitOthers, nextLater⟩
          have spillMem : spill ∈ expired.active := by simp [split]
          have nextMem : next ∈ expired.active := by simp [split, splitOthers]
          have nextSpill : next ≠ spill := by
            intro equal
            have nodup := invariant.activeNodup
            rw [split, splitOthers, equal] at nodup
            simp [List.nodup_append] at nodup
          have inReg := meets.inReg spill spillMem
          have room := meets.release split invariant.activeNodup
          rw [← endEq, ← endEq] at later nextLater
          rw [ScanState.scanStep_full meets.outlasts full split inReg meets.shortFresh,
            ScanState.scanStep_full meets.long_outlasts full split inReg meets.longFresh,
            if_pos later, if_pos (meets.shorter.trans later)]
          apply shortApart
          apply room.apart_room othersLength splitOthers (by simpa using nextLater)
          rw [ScanState.release_of_ne nextSpill]
          exact fun same => nextSpill (invariant.activeDistinct next nextMem spill spillMem same)

end ScanInvariant

end LeechJit.Analysis
