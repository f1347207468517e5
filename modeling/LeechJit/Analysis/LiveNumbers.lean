import LeechJit.Analysis.Liveness
import LeechJit.IR.Live
import LeechJit.IR.StoreLemmas

/-! # The numbers of `fillLiveNumbers`

Numbers grow along the linear order by steps of two, and the interval of a block
leaves a step before its first instruction and one behind its last.
-/

namespace LeechJit.Analysis

open IR LeechJit.Graph

variable {store : Store} {numbers after : LiveNumbers} {bbLiveNum : Nat}

/-- What numbering some instructions in a row does. -/
structure InstsNumbered (store : Store) (ids : List InstId) (numbers after : LiveNumbers) :
    Prop where
  liveInterval : after.liveInterval = numbers.liveInterval
  curLive : numbers.curLive ≤ after.curLive
  others : ∀ id, id ∉ ids → after.liveNum id = numbers.liveNum id
  inside : ∀ id ∈ ids, ¬ store.IsPhi id →
    numbers.curLive + 2 ≤ after.liveNum id ∧ after.liveNum id ≤ after.curLive
  increasing : ids.Pairwise fun left right => ¬ store.IsPhi left → ¬ store.IsPhi right →
    after.liveNum left + 2 ≤ after.liveNum right

theorem numberInst_eq_ok {id : InstId}
    (result : numberInst store bbLiveNum numbers id = .ok after) :
    after.liveInterval = numbers.liveInterval ∧
      (∀ other, other ≠ id → after.liveNum other = numbers.liveNum other) ∧
      ((store.IsPhi id ∧ after.curLive = numbers.curLive) ∨
        (after.curLive = numbers.curLive + 2 ∧ after.liveNum id = after.curLive)) := by
  rcases Result.bind_eq_ok.mp result with ⟨inst, found, equal⟩
  cases equal
  have stored : store.insts id = some inst := Store.inst_eq_ok.mp found
  refine ⟨rfl, fun other different => Function.update_of_ne different .., ?_⟩
  cases isPhi : inst.kind.isPhi with
  | true => exact .inl ⟨⟨inst, stored, isPhi⟩, rfl⟩
  | false => exact .inr ⟨rfl, Function.update_self ..⟩

theorem InstsNumbered.of_fold {ids : List InstId} (nodup : ids.Nodup)
    (result : ids.foldlM (numberInst store bbLiveNum) numbers = .ok after) :
    InstsNumbered store ids numbers after := by
  induction ids generalizing numbers with
  | nil =>
      cases result
      exact ⟨rfl, Nat.le_refl _, fun _ _ => rfl, by simp, .nil⟩
  | cons id rest induction =>
      rcases Result.bind_eq_ok.mp result with ⟨next, first, others⟩
      rw [List.nodup_cons] at nodup
      have numbered := induction nodup.2 others
      have ⟨sameIntervals, sameNums, atId⟩ := numberInst_eq_ok first
      have grows : numbers.curLive ≤ next.curLive := by
        rcases atId with ⟨-, equal⟩ | ⟨equal, -⟩ <;> omega
      have own : ¬ store.IsPhi id → after.liveNum id = numbers.curLive + 2 ∧
          after.liveNum id = next.curLive := by
        intro notPhi
        have kept := numbered.others id nodup.1
        rcases atId with ⟨isPhi, -⟩ | ⟨counted, equal⟩
        · exact absurd isPhi notPhi
        · omega
      constructor
      case liveInterval => exact numbered.liveInterval.trans sameIntervals
      case curLive => exact Nat.le_trans grows numbered.curLive
      case others =>
        intro other notMem
        rw [List.mem_cons, not_or] at notMem
        exact (numbered.others other notMem.2).trans (sameNums other notMem.1)
      case inside =>
        intro other member notPhi
        cases member with
        | head =>
            have atHead := own notPhi
            have later := numbered.curLive
            omega
        | tail _ member =>
            have later := numbered.inside other member notPhi
            omega
      case increasing =>
        rw [List.pairwise_cons]
        refine ⟨fun other member notPhi otherNotPhi => ?_, numbered.increasing⟩
        have atHead := own notPhi
        have later := numbered.inside other member otherNotPhi
        omega

/-- The numbers of the blocks of `order`. -/
structure Numbering (store : Store) (order : List BlockId) (numbers : LiveNumbers) :
    Prop where
  apart : order.Pairwise fun left right =>
    (numbers.liveInterval left).end ≤ (numbers.liveInterval right).start
  nonempty : ∀ bb ∈ order, (numbers.liveInterval bb).start + 2 ≤ (numbers.liveInterval bb).end
  inside : ∀ bb ∈ order, ∀ id ∈ store.instructions bb, ¬ store.IsPhi id →
    (numbers.liveInterval bb).start + 2 ≤ numbers.liveNum id ∧
      numbers.liveNum id + 2 ≤ (numbers.liveInterval bb).end
  increasing : ∀ bb ∈ order, (store.instructions bb).Pairwise fun left right =>
    ¬ store.IsPhi left → ¬ store.IsPhi right →
      numbers.liveNum left + 2 ≤ numbers.liveNum right
  outside : ∀ bb, bb ∉ order → numbers.liveInterval bb = {}
  past : ∀ bb ∈ order, (numbers.liveInterval bb).end ≤ numbers.curLive
  unplaced : ∀ bb, (numbers.liveInterval bb).onStack = false

theorem Numbering.block {order : List BlockId} {bb : BlockId}
    (numbering : Numbering store order numbers) (fresh : bb ∉ order)
    (nodup : ((order ++ [bb]).flatMap store.instructions).Nodup)
    (result : numberBlock store numbers bb = .ok after) :
    Numbering store (order ++ [bb]) after := by
  rcases Result.bind_eq_ok.mp result with ⟨block, found, rest⟩
  rcases Result.bind_eq_ok.mp rest with ⟨next, numbered, rest⟩
  rcases Result.bind_eq_ok.mp rest with ⟨interval, valid, equal⟩
  have sameNum : after.liveNum = next.liveNum := by cases equal; rfl
  have curLive : after.curLive = next.curLive + 2 := by cases equal; rfl
  have intervals : after.liveInterval = Function.update next.liveInterval bb interval := by
    cases equal
    rfl
  have instructionsEq := Store.instructions_eq (Store.block_eq_ok.mp found)
  rw [List.flatMap_append, List.flatMap_singleton, List.nodup_append] at nodup
  rw [← instructionsEq] at numbered
  have insts := InstsNumbered.of_fold nodup.2.1 numbered
  have counted := insts.curLive
  have intervalEq := (LiveInterval.make_eq_ok.mp valid).2
  have intervalStart : interval.start = numbers.curLive := by rw [intervalEq]
  have intervalEnd : interval.end = next.curLive + 2 := by rw [intervalEq]; rfl
  have own : after.liveInterval bb = interval := by
    rw [intervals]
    exact Function.update_self ..
  have old : ∀ other ∈ order, after.liveInterval other = numbers.liveInterval other := by
    intro other member
    have different : other ≠ bb := by
      rintro rfl
      exact fresh member
    rw [intervals, Function.update_of_ne different, insts.liveInterval]
  have oldNum : ∀ other ∈ order, ∀ id ∈ store.instructions other,
      after.liveNum id = numbers.liveNum id := by
    intro other member id inBlock
    rw [sameNum]
    apply insts.others
    intro inNew
    exact nodup.2.2 id (List.mem_flatMap.mpr ⟨other, member, inBlock⟩) id inNew rfl
  constructor
  case apart =>
    rw [List.pairwise_append]
    refine ⟨numbering.apart.imp_of_mem fun leftMem rightMem apart => ?_,
      List.pairwise_singleton _ _, fun left leftMem right rightMem => ?_⟩
    · rw [old _ leftMem, old _ rightMem]
      exact apart
    · rw [List.mem_singleton] at rightMem
      subst rightMem
      rw [own, old left leftMem, intervalStart]
      exact numbering.past left leftMem
  case nonempty =>
    intro other member
    rw [List.mem_append, List.mem_singleton] at member
    cases member with
    | inl earlier =>
        rw [old other earlier]
        exact numbering.nonempty other earlier
    | inr isNew =>
        subst isNew
        rw [own]
        omega
  case inside =>
    intro other member id inBlock notPhi
    rw [List.mem_append, List.mem_singleton] at member
    cases member with
    | inl earlier =>
        rw [old other earlier, oldNum other earlier id inBlock]
        exact numbering.inside other earlier id inBlock notPhi
    | inr isNew =>
        subst isNew
        rw [own]
        rw [sameNum]
        have bounds := insts.inside id inBlock notPhi
        omega
  case increasing =>
    intro other member
    rw [List.mem_append, List.mem_singleton] at member
    cases member with
    | inl earlier =>
        refine (numbering.increasing other earlier).imp_of_mem ?_
        intro left right leftMem rightMem grows leftNotPhi rightNotPhi
        rw [oldNum other earlier left leftMem, oldNum other earlier right rightMem]
        exact grows leftNotPhi rightNotPhi
    | inr isNew =>
        subst isNew
        rw [sameNum]
        exact insts.increasing
  case outside =>
    intro other notMem
    rw [List.mem_append, List.mem_singleton, not_or] at notMem
    rw [intervals, Function.update_of_ne notMem.2, insts.liveInterval]
    exact numbering.outside other notMem.1
  case past =>
    intro other member
    rw [List.mem_append, List.mem_singleton] at member
    cases member with
    | inl earlier =>
        rw [old other earlier]
        have before := numbering.past other earlier
        omega
    | inr isNew =>
        subst isNew
        rw [own]
        omega
  case unplaced =>
    intro other
    by_cases same : other = bb
    · rw [same, own, intervalEq]
    · rw [intervals, Function.update_of_ne same, insts.liveInterval]
      exact numbering.unplaced other

theorem Numbering.run {order rest : List BlockId} (numbering : Numbering store order numbers)
    (nodup : (order ++ rest).Nodup)
    (instsNodup : ((order ++ rest).flatMap store.instructions).Nodup)
    (result : rest.foldlM (numberBlock store) numbers = .ok after) :
    Numbering store (order ++ rest) after := by
  induction rest generalizing order numbers with
  | nil =>
      cases result
      rw [List.append_nil]
      exact numbering
  | cons bb rest induction =>
      rcases Result.bind_eq_ok.mp result with ⟨next, first, others⟩
      have split : order ++ bb :: rest = (order ++ [bb]) ++ rest := by simp
      rw [split] at nodup instsNodup ⊢
      have parts := List.nodup_append.mp nodup
      have fresh : bb ∉ order := fun member =>
        (List.nodup_append.mp parts.1).2.2 bb member bb (List.mem_singleton_self bb) rfl
      rw [List.flatMap_append] at instsNodup
      have numbered := numbering.block fresh (List.nodup_append.mp instsNodup).1 first
      rw [← List.flatMap_append] at instsNodup
      exact induction numbered nodup instsNodup others

theorem fillLiveNumbers_numbering {order : List BlockId} (nodup : order.Nodup)
    (instsNodup : (order.flatMap store.instructions).Nodup)
    (result : fillLiveNumbers store order = .ok after) : Numbering store order after := by
  have start : Numbering store [] {} :=
    { apart := .nil
      nonempty := by simp
      inside := by simp
      increasing := by simp
      outside := by simp
      past := by simp
      unplaced := fun _ => rfl }
  simpa using start.run nodup instsNodup result

end LeechJit.Analysis
