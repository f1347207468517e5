import LeechJit.Analysis.ScanHeld

/-! # Intervals that start together

Two intervals that start together can trade places in the sorted vector without any effect on
the scan if all but one of the registers are held by intervals that end no later than the
longer of the two: then the shorter one gets the register that is left, and the longer one
a place on the stack, whichever comes first.
-/

namespace LeechJit.Analysis

open IR

variable {Key : Type}

namespace ScanState

variable {state room : ScanState Key} {short long : Key}

/-- Two intervals that start together, the first of them shorter, and a state of the scan. -/
structure Meets (state : ScanState Key) (short long : Key) : Prop where
  outlasts : state.Outlasts short
  together : (state.intervals long).start = (state.intervals short).start
  nonempty : (state.intervals short).start < (state.intervals short).end
  shorter : (state.intervals short).end < (state.intervals long).end
  shortFresh : short ∉ state.active
  longFresh : long ∉ state.active
  shortInReg : (state.intervals short).onStack = false
  longInReg : (state.intervals long).onStack = false
  inReg : ∀ other ∈ state.active, (state.intervals other).onStack = false

namespace Meets

theorem different (meets : state.Meets short long) : short ≠ long := by
  intro equal
  have shorter := meets.shorter
  rw [equal] at shorter
  exact Nat.lt_irrefl _ shorter

theorem long_outlasts (meets : state.Meets short long) : state.Outlasts long := by
  intro other member
  rw [meets.together]
  exact meets.outlasts other member

theorem long_startsBefore (meets : state.Meets short long) :
    (state.intervals long).start < (state.intervals short).end := by
  rw [meets.together]
  exact meets.nonempty

theorem short_startsBefore (meets : state.Meets short long) :
    (state.intervals short).start < (state.intervals long).end :=
  meets.nonempty.trans meets.shorter

variable [DecidableEq Key] {locId : Nat}

omit [DecidableEq Key] in
theorem withPool (meets : state.Meets short long) (pool : RegisterPool kNumRegs) :
    (state.withPool pool).Meets short long :=
  ⟨meets.outlasts, meets.together, meets.nonempty, meets.shorter, meets.shortFresh,
    meets.longFresh, meets.shortInReg, meets.longInReg, meets.inReg⟩

/-- The interval that ends last has gone to the stack. -/
theorem release {spill : Key} {others : List Key} (meets : state.Meets short long)
    (split : state.active = others ++ [spill]) (nodup : state.active.Nodup) :
    (state.release spill others).Meets short long := by
  have spillMem : spill ∈ state.active := by simp [split]
  have othersMem : ∀ other ∈ others, other ∈ state.active := by
    intro other member
    simp [split, member]
  have notSpill : ∀ other ∈ others, other ≠ spill := by
    intro other member equal
    rw [split, List.nodup_append] at nodup
    exact nodup.2.2 other member spill (List.mem_singleton_self spill) equal
  have shortOther : short ≠ spill := fun equal => meets.shortFresh (equal ▸ spillMem)
  have longOther : long ≠ spill := fun equal => meets.longFresh (equal ▸ spillMem)
  constructor
  case outlasts =>
    intro other member
    rw [release_start, release_end]
    exact meets.outlasts other (othersMem other member)
  case together => simpa using meets.together
  case nonempty => simpa using meets.nonempty
  case shorter => simpa using meets.shorter
  case shortFresh => exact fun member => meets.shortFresh (othersMem short member)
  case longFresh => exact fun member => meets.longFresh (othersMem long member)
  case shortInReg => rw [release_of_ne shortOther, meets.shortInReg]
  case longInReg => rw [release_of_ne longOther, meets.longInReg]
  case inReg =>
    intro other member
    rw [release_of_ne (notSpill other member)]
    exact meets.inReg other (othersMem other member)

/-- Once the longer interval is the last active one, the shorter one takes its register. -/
theorem takes_back (meets : room.Meets short long) (full : room.active.length + 1 = kNumRegs)
    (early : ∀ other ∈ room.active, (room.intervals other).end ≤ (room.intervals long).end) :
    (room.enter long locId).scanStep short =
      .ok (((room.enter long locId).release long room.active).enter short locId) := by
  have outlasts : (room.enter long locId).Outlasts short :=
    meets.outlasts.enter meets.short_startsBefore
  have isFull : (room.enter long locId).active.length = kNumRegs := by
    rw [enter_length, full]
  have split : (room.enter long locId).active = room.active ++ [long] := by
    rw [enter_active, insertByEnd_last early]
  have inReg : ((room.enter long locId).intervals long).onStack = false := by
    rw [enter_onStack]
    exact meets.longInReg
  have fresh : short ∉ (room.enter long locId).active := by
    rw [mem_enter_active]
    exact not_or.mpr ⟨meets.different, meets.shortFresh⟩
  have shorter : ((room.enter long locId).intervals short).end <
      ((room.enter long locId).intervals long).end := by
    rw [enter_end, enter_end]
    exact meets.shorter
  have same : ((room.enter long locId).intervals long).locationId = locId := by
    rw [enter_self]
    rfl
  rw [scanStep_full outlasts isFull split inReg fresh, if_pos shorter, same]

/-- Once the shorter interval is active, no active one ends later than the longer one, which
goes to the stack. -/
theorem goes_to_stack (meets : room.Meets short long) (full : room.active.length + 1 = kNumRegs)
    (early : ∀ other ∈ room.active, (room.intervals other).end ≤ (room.intervals long).end) :
    (room.enter short locId).scanStep long = .ok ((room.enter short locId).moveToStack long) := by
  have outlasts : (room.enter short locId).Outlasts long :=
    meets.long_outlasts.enter meets.long_startsBefore
  have isFull : (room.enter short locId).active.length = kNumRegs := by
    rw [enter_length, full]
  have nonempty : (room.enter short locId).active ≠ [] := by
    intro empty
    rw [empty] at isFull
    cases isFull
  have split := (List.dropLast_append_getLast nonempty).symm
  have lastMem := mem_enter_active.mp (List.getLast_mem nonempty)
  have inReg : ((room.enter short locId).intervals
      ((room.enter short locId).active.getLast nonempty)).onStack = false := by
    rw [enter_onStack]
    cases lastMem with
    | inl isShort => rw [isShort]; exact meets.shortInReg
    | inr old => exact meets.inReg _ old
  have fresh : long ∉ (room.enter short locId).active := by
    rw [mem_enter_active]
    exact not_or.mpr ⟨meets.different.symm, meets.longFresh⟩
  rw [scanStep_full outlasts isFull split inReg fresh, if_neg]
  rw [enter_end, enter_end, Nat.not_lt]
  cases lastMem with
  | inl isShort => rw [isShort]; exact meets.shorter.le
  | inr old => exact early _ old

/-- There is room for one of the two intervals, and no active one ends later than the longer. -/
theorem swap_room (meets : room.Meets short long) (full : room.active.length + 1 = kNumRegs)
    (early : ∀ other ∈ room.active, (room.intervals other).end ≤ (room.intervals long).end) :
    (room.enter short locId).scanStep long = (room.enter long locId).scanStep short := by
  rw [meets.goes_to_stack full early, meets.takes_back full early]
  have different := meets.different
  congr 1
  apply ScanState.ext
  · rfl
  · funext other
    cases decEq other long with
    | isTrue same =>
        subst same
        rw [enter_of_ne different.symm, release_self, enter_self]
        simp [moveToStack, setLocId, modify, enter_of_ne different.symm]
        rfl
    | isFalse notLong =>
        rw [moveToStack_of_ne _ _ notLong]
        cases decEq other short with
        | isTrue same =>
            subst same
            rw [enter_self, enter_self, release_of_ne notLong, enter_of_ne notLong]
        | isFalse notShort =>
            rw [enter_of_ne notShort, enter_of_ne notShort, release_of_ne notLong,
              enter_of_ne notLong]
  · rw [moveToStack_active, enter_active, enter_active]
    apply (insertByEnd_congr _ short room.active).symm
    intro other
    rw [release_end, enter_end]
  · rfl

end Meets

end ScanState

/-- Two intervals that start together end at different points, and all but one of the registers
are held by intervals that end no later than the longer of the two. -/
def Harmless (held : List Nat) (left right : LiveInterval) : Prop :=
  left.end ≠ right.end ∧
    ((held.filter fun «end» => decide (left.start < «end»)).countP fun «end» =>
      decide («end» ≤ max left.end right.end)) + 1 = kNumRegs

instance (held : List Nat) (left right : LiveInterval) : Decidable (Harmless held left right) :=
  inferInstanceAs (Decidable (_ ∧ _))

namespace ScanInvariant

variable {initial : Key → LiveInterval} {processed : List Key} {now : Nat}
  {state expired : ScanState Key} {short long : Key}

/-- The two intervals meet where there is room for one of them. -/
theorem Ready.meets (ready : Ready initial processed short state expired)
    (shortFresh : short ∉ processed) (longFresh : long ∉ processed)
    (shortUnplaced : (initial short).onStack = false)
    (longUnplaced : (initial long).onStack = false)
    (together : (initial long).start = (initial short).start)
    (nonempty : (initial short).start < (initial short).end)
    (shorter : (initial short).end < (initial long).end) : expired.Meets short long where
  outlasts := ready.outlasts
  together := by rw [ready.invariant.start_eq, ready.invariant.start_eq, together]
  nonempty := by rw [ready.invariant.start_eq, ready.invariant.end_eq]; exact nonempty
  shorter := by rw [ready.invariant.end_eq, ready.invariant.end_eq]; exact shorter
  shortFresh member := shortFresh (ready.invariant.activeProcessed short member)
  longFresh member := longFresh (ready.invariant.activeProcessed long member)
  shortInReg := by rw [ready.invariant.untouched short shortFresh, shortUnplaced]
  longInReg := by rw [ready.invariant.untouched long longFresh, longUnplaced]
  inReg := ready.invariant.activeInReg

/-- All but one of the registers are held by intervals that end by `bound`: nothing else is
active, or one interval that ends later. -/
theorem crowd {active : List Key} {bound : Nat}
    (sorted : (ends initial active).Pairwise (· ≤ ·)) (most : active.length ≤ kNumRegs)
    (count : ((ends initial active).countP fun «end» => decide («end» ≤ bound)) + 1 = kNumRegs) :
    (active.length + 1 = kNumRegs ∧ ∀ other ∈ active, (initial other).end ≤ bound) ∨
      ∃ others spill, active = others ++ [spill] ∧ others.length + 1 = kNumRegs ∧
        (∀ other ∈ others, (initial other).end ≤ bound) ∧ bound < (initial spill).end := by
  have length : (ends initial active).length = active.length := List.length_map _
  cases decEq active.length kNumRegs with
  | isFalse notFull =>
      have atMost := List.countP_le_length (l := ends initial active)
        (p := fun «end» => decide («end» ≤ bound))
      have all : (ends initial active).countP (fun «end» => decide («end» ≤ bound)) =
          (ends initial active).length := by omega
      rw [List.countP_eq_length] at all
      refine .inl ⟨by omega, fun other member => ?_⟩
      exact of_decide_eq_true (all _ (List.mem_map_of_mem member))
  | isTrue full =>
      have nonempty : active ≠ [] := by
        intro empty
        rw [empty] at full
        cases full
      have split := (List.dropLast_append_getLast nonempty).symm
      generalize active.dropLast = others at split
      generalize active.getLast nonempty = spill at split
      subst split
      rw [List.length_append, List.length_singleton] at full
      have parts := sorted
      rw [ends, List.map_append, List.pairwise_append] at parts
      have later : bound < (initial spill).end := by
        apply Nat.lt_of_not_ge
        intro early
        have all : (ends initial (others ++ [spill])).countP (fun «end» => decide («end» ≤ bound)) =
            (ends initial (others ++ [spill])).length := by
          rw [List.countP_eq_length]
          intro value member
          rw [ends, List.map_append, List.mem_append] at member
          cases member with
          | inl other =>
              exact decide_eq_true ((parts.2.2 value other _ (by simp)).trans early)
          | inr isSpill =>
              rw [List.map_singleton, List.mem_singleton] at isSpill
              exact decide_eq_true (isSpill ▸ early)
        rw [List.length_append, List.length_singleton] at length
        omega
      refine .inr ⟨others, spill, rfl, full, fun other member => ?_, later⟩
      have all : (ends initial others).countP (fun «end» => decide («end» ≤ bound)) =
          (ends initial others).length := by
        rw [ends, List.map_append, List.countP_append] at count
        simp only [List.map_singleton, List.countP_singleton, Nat.not_le.mpr later, decide_false,
          Bool.false_eq_true, if_false] at count
        rw [ends, List.length_map]
        omega
      rw [List.countP_eq_length] at all
      exact of_decide_eq_true (all _ (List.mem_map_of_mem member))

variable [DecidableEq Key]

/-- A register is free for one of the two intervals. -/
theorem swap_free (ready : Ready initial processed short state expired)
    (meets : expired.Meets short long) (fresh : short ∉ processed)
    (unplaced : (initial short).onStack = false) (oneFree : expired.active.length + 1 = kNumRegs)
    (early : ∀ other ∈ expired.active, (initial other).end ≤ (initial long).end) :
    (expired.scanStep short >>= fun next => next.scanStep long) =
      (expired.scanStep long >>= fun next => next.scanStep short) := by
  have notFull : expired.active.length ≠ kNumRegs := by omega
  rcases ready.invariant.allocate fresh unplaced notFull with ⟨index, pool, allocated, -⟩
  have room := meets.withPool pool
  rw [ScanState.scanStep_free meets.outlasts notFull allocated,
    ScanState.scanStep_free meets.long_outlasts notFull allocated]
  apply room.swap_room oneFree
  intro other member
  rw [ScanState.withPool_intervals, ready.invariant.end_eq, ready.invariant.end_eq]
  exact early other member

/-- The interval that ends last makes room for one of the two. -/
theorem swap_full {others : List Key} {spill : Key}
    (ready : Ready initial processed short state expired) (meets : expired.Meets short long)
    (split : expired.active = others ++ [spill]) (full : others.length + 1 = kNumRegs)
    (early : ∀ other ∈ others, (initial other).end ≤ (initial long).end)
    (later : (initial long).end < (initial spill).end) :
    (expired.scanStep short >>= fun next => next.scanStep long) =
      (expired.scanStep long >>= fun next => next.scanStep short) := by
  have room := meets.release split ready.invariant.activeNodup
  have isFull : expired.active.length = kNumRegs := by
    rw [split, List.length_append, List.length_singleton, full]
  have inReg := meets.inReg spill (by simp [split])
  have longEnds : (expired.intervals long).end < (expired.intervals spill).end := by
    rw [ready.invariant.end_eq, ready.invariant.end_eq]
    exact later
  rw [ScanState.scanStep_full meets.outlasts isFull split inReg meets.shortFresh,
    ScanState.scanStep_full meets.long_outlasts isFull split inReg meets.longFresh,
    if_pos longEnds, if_pos (meets.shorter.trans longEnds)]
  apply room.swap_room full
  intro other member
  rw [ScanState.release_end, ScanState.release_end, ready.invariant.end_eq,
    ready.invariant.end_eq]
  exact early other member

/-- The order of the two intervals makes no difference. -/
theorem scanStep_swap (invariant : ScanInvariant initial processed now state)
    (sorted : now ≤ (initial short).start)
    (shortFresh : short ∉ processed) (longFresh : long ∉ processed)
    (shortUnplaced : (initial short).onStack = false)
    (longUnplaced : (initial long).onStack = false)
    (together : (initial long).start = (initial short).start)
    (nonempty : (initial short).start < (initial short).end)
    (shorter : (initial short).end < (initial long).end)
    (harmless : Harmless (ends initial state.active) (initial short) (initial long)) :
    (state.scanStep short >>= fun next => next.scanStep long) =
      (state.scanStep long >>= fun next => next.scanStep short) := by
  rcases invariant.ready sorted with ⟨expired, ready⟩
  have meets := ready.meets shortFresh longFresh shortUnplaced longUnplaced together nonempty shorter
  have expires : state.expireOldIntervals long = .ok expired := by
    rw [← ready.expires, ScanState.expireOldIntervals, ScanState.expireOldIntervals,
      invariant.start_eq, invariant.start_eq, together]
  rw [ScanState.scanStep_expired ready.expires ready.outlasts,
    ScanState.scanStep_expired expires meets.long_outlasts]
  have count := harmless.2
  rw [← invariant.expired_ends ready.expires, max_eq_right shorter.le] at count
  cases crowd ready.invariant.ends_sorted ready.invariant.active_length_le count with
  | inl free => exact swap_free ready meets shortFresh shortUnplaced free.1 free.2
  | inr full =>
      rcases full with ⟨others, spill, split, length, early, later⟩
      exact swap_full ready meets split length early later

end ScanInvariant

end LeechJit.Analysis
