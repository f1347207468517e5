import Mathlib.Logic.Relation
import LeechJit.Analysis.ScanOrder

/-! # Every step of the scan

The scan stops at the head of its own loop, at the head of the expiry loop, and where expiry
has ended. `advance` goes from one such point to the next, so that assertions can be spoken
of one by one and the pool can be compared with the active set wherever the scan stands.
-/

namespace LeechJit.Analysis

open IR

variable {Key : Type}

/-- Where the scan stands, with the intervals it has still to take up. -/
inductive ScanPoint (Key : Type) where
  /-- the head of the loop of `linearScan` -/
  | scanning (liveIns : List Key) (state : ScanState Key)
  /-- the head of the loop of `expireOldIntervals` -/
  | expiring (liveIn : Key) (liveIns : List Key) (state : ScanState Key)
  /-- behind the call of `expireOldIntervals` -/
  | placing (liveIn : Key) (liveIns : List Key) (state : ScanState Key)

namespace ScanPoint

def state : ScanPoint Key → ScanState Key
  | scanning _ state | expiring _ _ state | placing _ _ state => state

/-- The body of the expiry loop for an interval that has ended. -/
def expire (state : ScanState Key) (key : Key) (rest : List Key) : Result (ScanState Key) := do
  assert ((state.intervals key).onStack = false)
  let pool ← state.regPool.deallocateReg (state.intervals key).locationId
  return { state with regPool := pool, active := rest }

theorem expireOldIntervals_cons {state : ScanState Key} {liveIn key : Key} {rest : List Key}
    (listed : state.active = key :: rest)
    (ended : (state.intervals key).end ≤ (state.intervals liveIn).start) :
    state.expireOldIntervals liveIn =
      expire state key rest >>= fun popped => popped.expireOldIntervals liveIn := by
  have notAlive : ¬ (state.intervals key).end > (state.intervals liveIn).start :=
    Nat.not_lt.mpr ended
  simp only [ScanState.expireOldIntervals, listed, ScanState.expireLoop, notAlive, if_false,
    expire, bind_assoc, Result.ok_bind, Result.pure_eq_ok]

variable [DecidableEq Key]

/-- What `linearScan` does once the old intervals have expired. -/
def place (state : ScanState Key) (liveIn : Key) : Result (ScanState Key) :=
  if state.active.length = kNumRegs then
    state.spillAtInterval liveIn
  else do
    let (allocated, pool) ← state.regPool.allocateReg
    match allocated with
    | none => .error .assertFailed
    | some newRegId =>
        let state := { state with regPool := pool }
        return (state.setLocId liveIn newRegId).insertActive liveIn

/-- The next point, unless the scan has ended. -/
def advance : ScanPoint Key → Option (Result (ScanPoint Key))
  | scanning [] _ => none
  | scanning (liveIn :: rest) state => some (.ok (.expiring liveIn rest state))
  | expiring liveIn liveIns state => some <|
      match state.active with
      | [] => .ok (.placing liveIn liveIns state)
      | key :: rest =>
          if (state.intervals key).end > (state.intervals liveIn).start then
            .ok (.placing liveIn liveIns state)
          else .expiring liveIn liveIns <$> expire state key rest
  | placing liveIn liveIns state => some (.scanning liveIns <$> place state liveIn)

/-- Where the scan starts. -/
def start (order : List Key) (intervals : Key → LiveInterval) : ScanPoint Key :=
  .scanning order { regPool := {}, intervals := intervals, active := [], stackPos := 0 }

/-- One point comes right after another. -/
def Next (point point' : ScanPoint Key) : Prop :=
  point.advance = some (.ok point')

/-- One point comes some time after another. -/
def Reaches : ScanPoint Key → ScanPoint Key → Prop :=
  Relation.ReflTransGen Next

/-! ## The points make up the scan -/

theorem scanStep_eq (state : ScanState Key) (liveIn : Key) :
    state.scanStep liveIn = state.expireOldIntervals liveIn >>= fun expired =>
      place expired liveIn := rfl

/-- What is left of the scan. -/
def outcome : ScanPoint Key → Result (ScanState Key)
  | scanning liveIns state => liveIns.foldlM ScanState.scanStep state
  | expiring liveIn liveIns state => do
      let state ← state.scanStep liveIn
      liveIns.foldlM ScanState.scanStep state
  | placing liveIn liveIns state => do
      let state ← place state liveIn
      liveIns.foldlM ScanState.scanStep state

/-- What a step from one point to the next can be. -/
inductive Move : ScanPoint Key → ScanPoint Key → Prop
  | takes (liveIn : Key) (rest : List Key) (state : ScanState Key) :
      Move (.scanning (liveIn :: rest) state) (.expiring liveIn rest state)
  | expires (liveIn key : Key) (liveIns rest : List Key) (state popped : ScanState Key)
      (listed : state.active = key :: rest)
      (ended : (state.intervals key).end ≤ (state.intervals liveIn).start)
      (popping : expire state key rest = .ok popped) :
      Move (.expiring liveIn liveIns state) (.expiring liveIn liveIns popped)
  | stops (liveIn : Key) (liveIns : List Key) (state : ScanState Key)
      (alive : ∀ first ∈ state.active.head?,
        (state.intervals liveIn).start < (state.intervals first).end) :
      Move (.expiring liveIn liveIns state) (.placing liveIn liveIns state)
  | places (liveIn : Key) (liveIns : List Key) (state placed : ScanState Key)
      (placing : place state liveIn = .ok placed) :
      Move (.placing liveIn liveIns state) (.scanning liveIns placed)

theorem Next.move {point point' : ScanPoint Key} (next : Next point point') :
    Move point point' := by
  unfold Next at next
  cases point with
  | scanning liveIns state =>
      cases liveIns with
      | nil => cases next
      | cons liveIn rest =>
          cases next
          exact .takes liveIn rest state
  | expiring liveIn liveIns state =>
      have stepped := Option.some.inj next
      cases listed : state.active with
      | nil =>
          simp only [listed] at stepped
          cases stepped
          exact .stops liveIn liveIns state (by simp [listed])
      | cons key rest =>
          simp only [listed] at stepped
          cases Nat.lt_or_ge (state.intervals liveIn).start (state.intervals key).end with
          | inl alive =>
              rw [if_pos alive] at stepped
              cases stepped
              exact .stops liveIn liveIns state (by simpa [listed] using alive)
          | inr ended =>
              rw [if_neg (Nat.not_lt.mpr ended)] at stepped
              rcases Result.map_eq_ok.mp stepped with ⟨popped, popping, rfl⟩
              exact .expires liveIn key liveIns rest state popped listed ended popping
  | placing liveIn liveIns state =>
      have stepped := Option.some.inj next
      rcases Result.map_eq_ok.mp stepped with ⟨placed, placing, rfl⟩
      exact .places liveIn liveIns state placed placing

/-- From a point to the next, what is left of the scan comes to the same. -/
theorem Next.outcome_eq {point point' : ScanPoint Key} (next : Next point point') :
    point'.outcome = point.outcome := by
  cases next.move with
  | takes liveIn rest state => rfl
  | expires liveIn key liveIns rest state popped listed ended popping =>
      simp only [outcome, scanStep_eq, expireOldIntervals_cons listed ended, popping,
        Result.ok_bind]
  | stops liveIn liveIns state alive =>
      simp only [outcome, scanStep_eq, ScanState.expireOldIntervals_done alive, Result.ok_bind]
  | places liveIn liveIns state placed placing =>
      simp only [outcome, placing, Result.ok_bind]

/-- The scan returns the state in which a run over the points ends. -/
theorem Reaches.linearScan_eq {order : List Key} {intervals : Key → LiveInterval}
    {final : ScanState Key} (reaches : Reaches (start order intervals) (.scanning [] final)) :
    linearScan order intervals = .ok final := by
  have same : ∀ point, Reaches (start order intervals) point →
      point.outcome = linearScan order intervals := by
    intro point reached
    induction reached with
    | refl => rfl
    | tail _ next induction => exact next.outcome_eq.trans induction
  exact (same _ reaches).symm

/-! ## What holds at every point -/

section

variable {initial : Key → LiveInterval} {liveIns : List Key} {liveIn : Key}
  {state : ScanState Key} {point point' : ScanPoint Key}

open ScanInvariant (Awaits)

/-- The invariant of the scan at each kind of point. -/
inductive Sound (initial : Key → LiveInterval) : ScanPoint Key → Prop
  | scanning (processed : List Key) (now : Nat) (liveIns : List Key) (state : ScanState Key)
      (awaits : Awaits initial processed now state liveIns) :
      Sound initial (.scanning liveIns state)
  | expiring (processed : List Key) (liveIn : Key) (liveIns : List Key) (state : ScanState Key)
      (awaits : Awaits initial processed (initial liveIn).start state (liveIn :: liveIns)) :
      Sound initial (.expiring liveIn liveIns state)
  | placing (processed : List Key) (liveIn : Key) (liveIns : List Key) (state : ScanState Key)
      (awaits : Awaits initial processed (initial liveIn).start state (liveIn :: liveIns))
      (outlasts : state.Outlasts liveIn) :
      Sound initial (.placing liveIn liveIns state)

omit [DecidableEq Key] in
/-- The next interval is taken up when it starts. -/
theorem takeUp {processed : List Key} {now : Nat}
    (awaits : Awaits initial processed now state (liveIn :: liveIns)) :
    Awaits initial processed (initial liveIn).start state (liveIn :: liveIns) := by
  refine { awaits with
    invariant := awaits.invariant.later (awaits.notBefore liveIn (.head _))
    notBefore := ?_ }
  intro key member
  cases member with
  | head => exact le_rfl
  | tail _ later => exact (List.pairwise_cons.mp awaits.sorted).1 key later

omit [DecidableEq Key] in
/-- When the first active interval has not ended, none has. -/
theorem outlasts_of_first {processed : List Key} {now : Nat}
    (invariant : ScanInvariant initial processed now state)
    (alive : ∀ first ∈ state.active.head?,
      (state.intervals liveIn).start < (state.intervals first).end) :
    state.Outlasts liveIn := by
  intro key member
  have sorted := invariant.activeSorted
  cases listed : state.active with
  | nil =>
      rw [listed] at member
      cases member
  | cons first rest =>
      rw [listed] at member sorted alive
      have firstAlive := alive first rfl
      cases member with
      | head => exact firstAlive
      | tail _ later =>
          have notBefore := (List.pairwise_cons.mp sorted).1 key later
          rw [invariant.end_eq] at firstAlive ⊢
          exact firstAlive.trans_le notBefore

/-- At a sound point the scan has ended, or it goes on to a sound point. -/
theorem Sound.advances (sound : Sound initial point) :
    point.advance = none ∨ ∃ point', Next point point' ∧ Sound initial point' := by
  cases sound with
  | scanning processed now liveIns state awaits =>
      cases liveIns with
      | nil => exact .inl rfl
      | cons liveIn rest => exact .inr ⟨_, rfl, .expiring processed liveIn rest state (takeUp awaits)⟩
  | expiring processed liveIn liveIns state awaits =>
      have invariant := awaits.invariant
      cases listed : state.active with
      | nil =>
          have outlasts : state.Outlasts liveIn := outlasts_of_first invariant (by simp [listed])
          refine .inr ⟨.placing liveIn liveIns state, ?_,
            .placing processed liveIn liveIns state awaits outlasts⟩
          simp [Next, advance, listed]
      | cons key rest =>
          cases Nat.lt_or_ge (state.intervals liveIn).start (state.intervals key).end with
          | inl alive =>
              have outlasts : state.Outlasts liveIn :=
                outlasts_of_first invariant (by simpa [listed] using alive)
              refine .inr ⟨.placing liveIn liveIns state, ?_,
                .placing processed liveIn liveIns state awaits outlasts⟩
              simp [Next, advance, listed, alive]
          | inr ended =>
              have whole : ScanInvariant initial processed (initial liveIn).start
                  { state with regPool := state.regPool, active := key :: rest } := by
                rw [← listed]
                exact invariant
              rw [invariant.start_eq] at ended
              rcases whole.expireFirst ended with ⟨inReg, freed, freeing, popped⟩
              rw [← invariant.start_eq] at ended
              refine .inr ⟨.expiring liveIn liveIns { state with regPool := freed, active := rest },
                ?_, .expiring processed liveIn liveIns _ { awaits with invariant := popped }⟩
              simp [Next, advance, listed, Nat.not_lt.mpr ended, expire, inReg, freeing]
  | placing processed liveIn liveIns state awaits outlasts =>
      rcases awaits.round with ⟨-, next, -, -, stepping, later⟩
      rw [scanStep_eq, outlasts.expireOldIntervals, Result.ok_bind] at stepping
      refine .inr ⟨.scanning liveIns next, ?_, .scanning _ _ liveIns next later⟩
      simp [Next, advance, stepping]

theorem Sound.next (sound : Sound initial point) (next : Next point point') :
    Sound initial point' := by
  cases sound.advances with
  | inl ended =>
      rw [Next, ended] at next
      cases next
  | inr advances =>
      rcases advances with ⟨other, nextOther, soundOther⟩
      cases Option.some.inj (next.symm.trans nextOther)
      exact soundOther

end

/-! ## Every point is safe -/

/-- The registers of the pool that are in use. -/
def setBits (pool : RegisterPool kNumRegs) : Finset (Fin kNumRegs) :=
  Finset.univ.filter fun index => pool.regs index = true

/-- The pool and the active set agree. -/
structure Balanced (state : ScanState Key) : Prop where
  useCount : state.regPool.useCount = state.active.length
  setBits : (setBits state.regPool).card = state.active.length
  registers : ∀ index : Fin kNumRegs, state.regPool.regs index = true ↔
    ∃ key ∈ state.active, (state.intervals key).locationId = index

/-- What the assertions of the scan and of the pool ask for, wherever the scan stands. -/
structure Safe (point : ScanPoint Key) : Prop where
  balanced : Balanced point.state
  notOnStack : ∀ key ∈ point.state.active, (point.state.intervals key).onStack = false
  deallocates : ∀ liveIn liveIns state key rest, point = .expiring liveIn liveIns state →
    state.active = key :: rest →
    (state.intervals key).end ≤ (state.intervals liveIn).start →
    state.regPool.useCount ≠ 0 ∧ ∃ bound : (state.intervals key).locationId < kNumRegs,
      state.regPool.regs ⟨(state.intervals key).locationId, bound⟩ = true
  allocates : ∀ liveIn liveIns state, point = .placing liveIn liveIns state →
    state.active.length ≠ kNumRegs →
    ∃ index pool, state.regPool.allocateReg = .ok (some index, pool)
  spills : ∀ liveIn liveIns state, point = .placing liveIn liveIns state →
    state.active.length = kNumRegs →
    ∃ spill, state.active.getLast? = some spill ∧ (state.intervals spill).onStack = false
  goesOn : ∀ fault, point.advance ≠ some (.error fault)

omit [DecidableEq Key] in
theorem balanced_of_invariant {initial : Key → LiveInterval} {processed : List Key} {now : Nat}
    {state : ScanState Key} (invariant : ScanInvariant initial processed now state) :
    Balanced state where
  useCount := invariant.useCount_eq
  registers := invariant.bits
  setBits := by
    classical
    let held := state.active.map fun key => (state.intervals key).locationId
    have nodup : held.Nodup :=
      List.Nodup.map_on invariant.activeDistinct invariant.activeNodup
    have same : (ScanPoint.setBits state.regPool).map Fin.valEmbedding = held.toFinset := by
      ext locId
      simp only [ScanPoint.setBits, Finset.mem_map, Finset.mem_filter, Finset.mem_univ, true_and,
        invariant.bits, Fin.valEmbedding_apply, List.mem_toFinset, held, List.mem_map]
      constructor
      · rintro ⟨index, ⟨key, member, locEq⟩, rfl⟩
        exact ⟨key, member, locEq⟩
      · rintro ⟨key, member, rfl⟩
        have bound := invariant.inRange key (invariant.activeProcessed key member)
          (invariant.activeInReg key member)
        exact ⟨⟨_, bound⟩, ⟨key, member, rfl⟩, rfl⟩
    rw [← Finset.card_map Fin.valEmbedding, same, List.toFinset_card_of_nodup nodup,
      List.length_map]

variable {initial : Key → LiveInterval} {point : ScanPoint Key}

omit [DecidableEq Key] in
theorem Sound.invariant (sound : Sound initial point) :
    ∃ processed now, ScanInvariant initial processed now point.state := by
  cases sound with
  | scanning processed now liveIns state awaits => exact ⟨processed, now, awaits.invariant⟩
  | expiring processed liveIn liveIns state awaits => exact ⟨processed, _, awaits.invariant⟩
  | placing processed liveIn liveIns state awaits outlasts =>
      exact ⟨processed, _, awaits.invariant⟩

theorem Sound.safe (sound : Sound initial point) : Safe point := by
  rcases sound.invariant with ⟨processed, now, invariant⟩
  constructor
  case balanced => exact balanced_of_invariant invariant
  case notOnStack => exact invariant.activeInReg
  case deallocates =>
    intro liveIn liveIns state key rest isPoint listed ended
    subst isPoint
    have isActive : key ∈ state.active := by
      rw [listed]
      exact .head _
    have bound := invariant.inRange key (invariant.activeProcessed key isActive)
      (invariant.activeInReg key isActive)
    have inUse : state.regPool.useCount = state.active.length := invariant.useCount_eq
    refine ⟨?_, bound, (invariant.bits _).mpr ⟨key, isActive, rfl⟩⟩
    rw [inUse, listed]
    exact Nat.succ_ne_zero _
  case allocates =>
    intro liveIn liveIns state isPoint notFull
    subst isPoint
    cases sound with
    | placing processed liveIn liveIns state awaits outlasts =>
        rcases awaits.invariant.allocate (awaits.fresh liveIn (.head _))
          (awaits.unplaced liveIn (.head _)) notFull with ⟨index, pool, allocated, -⟩
        exact ⟨index, pool, allocated⟩
  case spills =>
    intro liveIn liveIns state isPoint full
    subst isPoint
    cases last : state.active.getLast? with
    | none =>
        rw [List.getLast?_eq_none_iff.mp last] at full
        cases full
    | some spill => exact ⟨spill, rfl, invariant.activeInReg spill (List.mem_of_getLast? last)⟩
  case goesOn =>
    intro fault failed
    cases sound.advances with
    | inl ended =>
        rw [ended] at failed
        cases failed
    | inr advances =>
        rcases advances with ⟨point', next, -⟩
        cases next.symm.trans failed

omit [DecidableEq Key] in
theorem sound_start {order : List Key} {intervals : Key → LiveInterval} (nodup : order.Nodup)
    (sorted : order.Pairwise fun left right =>
      (intervals left).start ≤ (intervals right).start)
    (nonempty : ∀ key ∈ order, (intervals key).start < (intervals key).end)
    (unplaced : ∀ key ∈ order, (intervals key).onStack = false) :
    Sound intervals (start order intervals) := by
  apply Sound.scanning [] 0
  exact ⟨ScanInvariant.start, nodup, by simp, unplaced, nonempty, sorted, by simp⟩

theorem Sound.reaches {point' : ScanPoint Key} (sound : Sound initial point)
    (reaches : Reaches point point') : Sound initial point' := by
  induction reaches with
  | refl => exact sound
  | tail _ next induction => exact induction.next next

/-! ## The run ends -/

omit [DecidableEq Key] in
theorem expire_active {state popped : ScanState Key} {key : Key} {rest : List Key}
    (popping : expire state key rest = .ok popped) : popped.active = rest := by
  rcases Result.bind_eq_ok.mp popping with ⟨_, -, freeing⟩
  rcases Result.bind_eq_ok.mp freeing with ⟨freed, -, equal⟩
  cases equal
  rfl

theorem reaches_placing {liveIn : Key} {liveIns active : List Key} {state : ScanState Key}
    (listed : state.active = active) (sound : Sound initial (.expiring liveIn liveIns state)) :
    ∃ state', Reaches (.expiring liveIn liveIns state) (.placing liveIn liveIns state') := by
  induction active generalizing state with
  | nil =>
      refine ⟨state, .single ?_⟩
      simp [Next, advance, listed]
  | cons first later induction =>
      rcases sound.advances with ended | ⟨point', next, soundNext⟩
      · cases ended
      · cases next.move with
        | stops liveIn liveIns state alive => exact ⟨state, .single next⟩
        | expires liveIn key liveIns rest state popped listed' ended popping =>
            rw [listed] at listed'
            cases listed'
            rcases induction (expire_active popping) soundNext with ⟨state', reaches⟩
            exact ⟨state', .head next reaches⟩

theorem reaches_end {liveIns : List Key} {state : ScanState Key}
    (sound : Sound initial (.scanning liveIns state)) :
    ∃ final, Reaches (.scanning liveIns state) (.scanning [] final) := by
  induction liveIns generalizing state with
  | nil => exact ⟨state, .refl⟩
  | cons liveIn rest induction =>
      have taken : Next (.scanning (liveIn :: rest) state) (.expiring liveIn rest state) := rfl
      have soundTaken := sound.next taken
      rcases reaches_placing rfl soundTaken with ⟨expired, expires⟩
      have soundExpired := soundTaken.reaches expires
      rcases soundExpired.advances with ended | ⟨point', next, soundNext⟩
      · cases ended
      · cases next.move with
        | places liveIn liveIns state placed placing =>
            rcases induction soundNext with ⟨final, later⟩
            exact ⟨final, .head taken (expires.trans (.head next later))⟩

end ScanPoint

variable [DecidableEq Key]

/-- The scan of intervals sorted by start returns, and wherever it stands the assertions to
come hold and the pool agrees with the active set. -/
theorem linearScan_safe (order : List Key) (intervals : Key → LiveInterval)
    (nodup : order.Nodup)
    (sorted : order.Pairwise fun left right =>
      (intervals left).start ≤ (intervals right).start)
    (nonempty : ∀ key ∈ order, (intervals key).start < (intervals key).end)
    (unplaced : ∀ key ∈ order, (intervals key).onStack = false) :
    (∃ final, linearScan order intervals = .ok final ∧
      ScanPoint.Reaches (.start order intervals) (.scanning [] final)) ∧
    ∀ point, ScanPoint.Reaches (.start order intervals) point → ScanPoint.Safe point := by
  have sound := ScanPoint.sound_start nodup sorted nonempty unplaced
  constructor
  · rcases ScanPoint.reaches_end sound with ⟨final, reaches⟩
    exact ⟨final, reaches.linearScan_eq, reaches⟩
  · intro point reaches
    exact (sound.reaches reaches).safe

theorem linearScan_safe_crowded :
    (∃ final, linearScan [0, 1, 2, 3, 4] crowded = .ok final ∧
      ScanPoint.Reaches (.start [0, 1, 2, 3, 4] crowded) (.scanning [] final)) ∧
    ∀ point, ScanPoint.Reaches (.start [0, 1, 2, 3, 4] crowded) point → ScanPoint.Safe point :=
  linearScan_safe [0, 1, 2, 3, 4] crowded (by decide) (by decide) (by decide) (by decide)

end LeechJit.Analysis
