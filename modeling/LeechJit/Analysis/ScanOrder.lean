import LeechJit.Analysis.ScanTies

/-! # The order of intervals that start together

If every two intervals that start together can trade places without harm, and no three start
together, the scan ends in the same state whichever sorted order it follows.
-/

namespace LeechJit.Analysis

open IR

variable {Key : Type}

/-- In a sorted vector, next to which `held` are the ends of the intervals in registers, at most
two intervals start together, and their order is harmless. -/
def TiesHarmless (intervals : Key → LiveInterval) : List Nat → List Key → Prop
  | held, first :: second :: rest =>
      ((intervals first).start = (intervals second).start →
        Harmless held (intervals first) (intervals second) ∧
          ∀ third ∈ rest.head?, (intervals second).start ≠ (intervals third).start) ∧
      TiesHarmless intervals (hold held (intervals first)) (second :: rest)
  | _, _ => True

instance decidableTiesHarmless (intervals : Key → LiveInterval) :
    ∀ held order, Decidable (TiesHarmless intervals held order)
  | _, [] => inferInstanceAs (Decidable True)
  | _, [_] => inferInstanceAs (Decidable True)
  | held, first :: second :: rest =>
      haveI := decidableTiesHarmless intervals (hold held (intervals first)) (second :: rest)
      inferInstanceAs (Decidable (_ ∧ TiesHarmless intervals _ _))

variable {initial : Key → LiveInterval} {held : List Nat} {first second : Key}
  {rest others : List Key}

theorem TiesHarmless.tail (harmless : TiesHarmless initial held (first :: rest)) :
    TiesHarmless initial (hold held (initial first)) rest := by
  cases rest with
  | nil => trivial
  | cons second others => exact harmless.2

theorem Harmless.symm {left right : LiveInterval} (harmless : Harmless held left right)
    (together : left.start = right.start) : Harmless held right left := by
  refine ⟨harmless.1.symm, ?_⟩
  rw [← together, max_comm]
  exact harmless.2

/-- No third interval starts with the two. -/
theorem TiesHarmless.not_third {third : Key}
    (harmless : TiesHarmless initial held (first :: second :: others))
    (together : (initial first).start = (initial second).start)
    (sorted : (second :: others).Pairwise fun left right =>
      (initial left).start ≤ (initial right).start)
    (member : third ∈ others) : (initial second).start < (initial third).start := by
  cases others with
  | nil => cases member
  | cons next later =>
      rw [List.pairwise_cons, List.pairwise_cons] at sorted
      have notNext := (harmless.1 together).2 next rfl
      have below := sorted.1 next (.head _)
      have nextBelow : (initial next).start ≤ (initial third).start := by
        cases member with
        | head => exact Nat.le_refl _
        | tail _ inLater => exact sorted.2.1 third inLater
      omega

/-- Two sorted orders of the same intervals that do not begin alike begin with two intervals
that start together. -/
theorem two_orders {first' : Key} {rest' : List Key}
    (harmless : TiesHarmless initial held (first :: rest))
    (perm : (first :: rest).Perm (first' :: rest')) (nodup : (first :: rest).Nodup)
    (sorted : (first :: rest).Pairwise fun left right =>
      (initial left).start ≤ (initial right).start)
    (sorted' : (first' :: rest').Pairwise fun left right =>
      (initial left).start ≤ (initial right).start)
    (different : first ≠ first') :
    (initial first).start = (initial first').start ∧
      ∃ others others', rest = first' :: others ∧ rest' = first :: others' ∧
        others.Perm others' := by
  have nodup' := perm.nodup_iff.mp nodup
  have firstMem : first ∈ rest' :=
    List.mem_of_ne_of_mem different (perm.mem_iff.mp (.head _))
  have firstMem' : first' ∈ rest :=
    List.mem_of_ne_of_mem different.symm (perm.mem_iff.mpr (.head _))
  rw [List.pairwise_cons] at sorted'
  have sortedRest := (List.pairwise_cons.mp sorted)
  have together : (initial first).start = (initial first').start :=
    Nat.le_antisymm (sortedRest.1 first' firstMem') (sorted'.1 first firstMem)
  refine ⟨together, ?_⟩
  cases rest with
  | nil => cases firstMem'
  | cons second others =>
      have secondTogether : (initial first).start = (initial second).start := by
        have below := sortedRest.1 second (.head _)
        have above : (initial second).start ≤ (initial first').start := by
          cases firstMem' with
          | head => exact Nat.le_refl _
          | tail _ later => exact (List.pairwise_cons.mp sortedRest.2).1 first' later
        omega
      have alone : ∀ third ∈ others, (initial second).start < (initial third).start :=
        fun third member => harmless.not_third secondTogether sortedRest.2 member
      have isSecond : second = first' := by
        cases firstMem' with
        | head => rfl
        | tail _ later =>
            have above := alone first' later
            omega
      subst isSecond
      cases rest' with
      | nil => cases firstMem
      | cons second' others' =>
          have isFirst : second' = first := by
            cases firstMem with
            | head => rfl
            | tail _ later =>
                have below := (List.pairwise_cons.mp sorted'.2).1 first later
                have notSecond : second' ≠ second := by
                  intro equal
                  subst equal
                  exact (List.nodup_cons.mp nodup').1 (.head _)
                have listed := perm.mem_iff.mpr (.tail _ (.head _) : second' ∈ second :: second' :: others')
                rw [List.mem_cons, List.mem_cons] at listed
                rcases listed with isFirst | isSecond | inOthers
                · exact isFirst
                · exact absurd isSecond notSecond
                · have above := alone second' inOthers
                  omega
          subst isFirst
          refine ⟨others, others', rfl, rfl, ?_⟩
          have swapped := perm.trans (List.Perm.swap second' second others')
          exact swapped.cons_inv.cons_inv

namespace ScanInvariant

variable [DecidableEq Key] {processed : List Key} {now : Nat} {state : ScanState Key}
  {order order' : List Key}

/-- What the scan of the intervals in `order` starts from. -/
structure Awaits (initial : Key → LiveInterval) (processed : List Key) (now : Nat)
    (state : ScanState Key) (order : List Key) : Prop where
  invariant : ScanInvariant initial processed now state
  nodup : order.Nodup
  fresh : ∀ key ∈ order, key ∉ processed
  unplaced : ∀ key ∈ order, (initial key).onStack = false
  nonempty : ∀ key ∈ order, (initial key).start < (initial key).end
  sorted : order.Pairwise fun left right => (initial left).start ≤ (initial right).start
  notBefore : ∀ key ∈ order, now ≤ (initial key).start

omit [DecidableEq Key] in
theorem Awaits.perm (awaits : Awaits initial processed now state order) (perm : order'.Perm order)
    (sorted' : order'.Pairwise fun left right => (initial left).start ≤ (initial right).start) :
    Awaits initial processed now state order' where
  invariant := awaits.invariant
  nodup := perm.nodup_iff.mpr awaits.nodup
  fresh key member := awaits.fresh key (perm.mem_iff.mp member)
  unplaced key member := awaits.unplaced key (perm.mem_iff.mp member)
  nonempty key member := awaits.nonempty key (perm.mem_iff.mp member)
  sorted := sorted'
  notBefore key member := awaits.notBefore key (perm.mem_iff.mp member)

/-- The first of the intervals is placed, and the scan goes on. -/
theorem Awaits.round (awaits : Awaits initial processed now state (first :: rest)) :
    ∃ expired next, Ready initial processed first state expired ∧
      ScanState.Round expired first next ∧ state.scanStep first = .ok next ∧
      Awaits initial (first :: processed) (initial first).start next rest := by
  have fresh := awaits.fresh first (.head _)
  have unplaced := awaits.unplaced first (.head _)
  have notBefore := awaits.notBefore first (.head _)
  rcases awaits.invariant.ready notBefore with ⟨expired, ready⟩
  rcases ready.round fresh unplaced with ⟨next, stepping, round⟩
  rcases awaits.invariant.scanStep fresh unplaced notBefore with ⟨again, same, invariant⟩
  cases Except.ok.inj (stepping.symm.trans same)
  refine ⟨expired, next, ready, round, stepping, ?_⟩
  have nodup := List.nodup_cons.mp awaits.nodup
  have sorted := List.pairwise_cons.mp awaits.sorted
  constructor
  case invariant => exact invariant
  case nodup => exact nodup.2
  case fresh =>
    intro key member old
    rw [List.mem_cons] at old
    cases old with
    | inl isFirst => exact nodup.1 (isFirst ▸ member)
    | inr old => exact awaits.fresh key (.tail _ member) old
  case unplaced => exact fun key member => awaits.unplaced key (.tail _ member)
  case nonempty => exact fun key member => awaits.nonempty key (.tail _ member)
  case sorted => exact sorted.2
  case notBefore => exact sorted.1

theorem Awaits.step (awaits : Awaits initial processed now state (first :: rest)) :
    ∃ next, state.scanStep first = .ok next ∧
      Awaits initial (first :: processed) (initial first).start next rest ∧
      ends initial next.active = hold (ends initial state.active) (initial first) := by
  rcases awaits.round with ⟨expired, next, ready, round, stepping, later⟩
  exact ⟨next, stepping, later, ready.round_ends awaits.invariant round⟩

/-- The scan returns. -/
theorem Awaits.scan (awaits : Awaits initial processed now state order) :
    ∃ final last, order.foldlM ScanState.scanStep state = .ok final ∧
      ScanInvariant initial (order.reverse ++ processed) last final :=
  awaits.invariant.scan order awaits.nodup awaits.fresh awaits.unplaced awaits.sorted
    awaits.notBefore

theorem Awaits.swap (awaits : Awaits initial processed now state (first :: second :: rest))
    (together : (initial first).start = (initial second).start)
    (harmless : Harmless (ends initial state.active) (initial first) (initial second)) :
    (state.scanStep first >>= fun next => next.scanStep second) =
      (state.scanStep second >>= fun next => next.scanStep first) := by
  have firstMem : first ∈ first :: second :: rest := .head _
  have secondMem : second ∈ first :: second :: rest := .tail _ (.head _)
  cases Nat.lt_or_gt_of_ne harmless.1 with
  | inl shorter =>
      exact awaits.invariant.scanStep_swap (awaits.notBefore first firstMem)
        (awaits.fresh first firstMem) (awaits.fresh second secondMem)
        (awaits.unplaced first firstMem) (awaits.unplaced second secondMem) together.symm
        (awaits.nonempty first firstMem) shorter harmless
  | inr longer =>
      exact (awaits.invariant.scanStep_swap (awaits.notBefore second secondMem)
        (awaits.fresh second secondMem) (awaits.fresh first firstMem)
        (awaits.unplaced second secondMem) (awaits.unplaced first firstMem) together
        (awaits.nonempty second secondMem) longer (harmless.symm together)).symm

/-- The scan ends in the same state whichever sorted order it follows. -/
theorem Awaits.scan_eq (awaits : Awaits initial processed now state order)
    (perm : order.Perm order')
    (sorted' : order'.Pairwise fun left right => (initial left).start ≤ (initial right).start)
    (harmless : TiesHarmless initial (ends initial state.active) order) :
    order.foldlM ScanState.scanStep state = order'.foldlM ScanState.scanStep state := by
  generalize size : order.length = length
  induction length using Nat.strong_induction_on generalizing order order' processed now state with
  | h length induction =>
    cases order with
    | nil => rw [List.nil_perm.mp perm]
    | cons first rest =>
      cases order' with
      | nil => cases List.perm_nil.mp perm
      | cons first' rest' =>
        rcases awaits.step with ⟨next, stepping, awaitsRest, nextEnds⟩
        have harmlessRest := harmless.tail
        rw [← nextEnds] at harmlessRest
        cases decEq first first' with
        | isTrue same =>
            subst same
            rw [List.foldlM_cons, List.foldlM_cons, stepping]
            exact induction rest.length (by simp [← size]) awaitsRest perm.cons_inv
              (List.pairwise_cons.mp sorted').2 harmlessRest rfl
        | isFalse different =>
            rcases two_orders harmless perm awaits.nodup awaits.sorted sorted' different with
              ⟨together, others, others', rfl, rfl, permOthers⟩
            have trade := awaits.swap together (harmless.1 together).1
            rcases awaitsRest.step with ⟨after, steppingAfter, awaitsOthers, afterEnds⟩
            have harmlessOthers := harmlessRest.tail
            rw [← afterEnds] at harmlessOthers
            have sortedOthers := (List.pairwise_cons.mp (List.pairwise_cons.mp sorted').2).2
            have both : (state.scanStep first' >>= fun next => next.scanStep first) = .ok after := by
              rw [← trade, stepping]
              exact steppingAfter
            rcases Result.bind_eq_ok.mp both with ⟨next', stepping', steppingAfter'⟩
            rw [List.foldlM_cons, List.foldlM_cons, stepping, stepping', Result.ok_bind,
              Result.ok_bind, List.foldlM_cons, List.foldlM_cons, steppingAfter, steppingAfter']
            have smaller : others.length < length := by
              rw [← size, List.length_cons, List.length_cons]
              omega
            exact induction others.length smaller awaitsOthers permOthers sortedOthers
              harmlessOthers rfl

end ScanInvariant

/-- Whichever sorted order the scan follows, it ends in the same state. -/
theorem linearScan_eq_of_perm [DecidableEq Key] {order order' : List Key}
    (nodup : order.Nodup) (unplaced : ∀ key ∈ order, (initial key).onStack = false)
    (nonempty : ∀ key ∈ order, (initial key).start < (initial key).end)
    (sorted : order.Pairwise fun left right => (initial left).start ≤ (initial right).start)
    (perm : order.Perm order')
    (sorted' : order'.Pairwise fun left right => (initial left).start ≤ (initial right).start)
    (harmless : TiesHarmless initial [] order) :
    linearScan order initial = linearScan order' initial := by
  have awaits : ScanInvariant.Awaits initial [] 0
      { regPool := {}, intervals := initial, active := [], stackPos := 0 } order :=
    ⟨ScanInvariant.start, nodup, by simp, unplaced, nonempty, sorted, by simp⟩
  exact awaits.scan_eq perm sorted' harmless

end LeechJit.Analysis
