import LeechJit.Opt.ChecksOrder

/-! # What an erased check leaves behind

The pass takes an erased check out of the users of its first operand and out of nothing
else. So the bound of a bounds check keeps it as a user, and instructions that used the
check keep it as an operand.
-/

namespace LeechJit.Opt.ChecksElimination

open IR Store LeechJit.Graph

variable {before store store' : Store} {func : Function} {op input : InstId}
  {isDominatorBB : BlockId → BlockId → Bool} {order : Store → InstId → List InstId}

/-- The instructions of the function use each other, and each users set is exact. -/
structure LeavesNoTrace (func : Function) (store : Store) : Prop where
  inputs : ∀ id ∈ store.listed func, ∀ input ∈ store.inputs id, input ∈ store.listed func
  users : ∀ value ∈ store.listed func, ∀ user,
    user ∈ store.users value ↔ user ∈ store.listed func ∧ value ∈ store.inputs user

/-- An erased check is still a user of its operands, except of the first. -/
def Scarred (before : Store) (func : Function) (store : Store) : Prop :=
  ∀ value ∈ before.listed func, store.insts value ≠ none →
    ∀ op ∈ before.listed func, store.insts op = none →
      (op ∈ store.users value ↔ value ∈ before.inputs op ∧ (before.inputs op)[0]? ≠ some value)

namespace Trimmed

variable {gone : List InstId}

theorem insts_eq_none_iff (trimmed : Trimmed before func gone store)
    (wellFormed : before.WellFormed func) (member : op ∈ before.listed func) :
    store.insts op = none ↔ op ∈ gone := by
  constructor
  · intro isNone
    by_contra left
    rcases wellFormed.inst member with ⟨_, -, -, inst, found, -⟩
    rcases trimmed.insts op member left inst found with ⟨users, foundNow⟩
    rw [isNone] at foundNow
    cases foundNow
  · exact trimmed.erased op

theorem inputs_eq (trimmed : Trimmed before func gone store) (wellFormed : before.WellFormed func)
    (member : op ∈ before.listed func) (left : op ∉ gone) :
    store.inputs op = before.inputs op := by
  rcases wellFormed.inst member with ⟨_, -, -, inst, found, -⟩
  rcases trimmed.insts op member left inst found with ⟨users, foundNow⟩
  rw [Store.inputs_eq found, Store.inputs_eq foundNow]

end Trimmed

theorem scarred_start (wellFormed : before.WellFormed func) : Scarred before func before := by
  intro value _ _ op member isNone
  rcases wellFormed.inst member with ⟨_, -, -, inst, found, -⟩
  rw [isNone] at found
  cases found

/-- A check leaves the users of its first operand only. -/
theorem Scarred.eraseCheck {gone : List InstId} (scarred : Scarred before func store)
    (trimmed : Trimmed before func gone store) (wellFormed : before.WellFormed func)
    (member : op ∈ before.listed func) (left : op ∉ gone)
    (first : (before.inputs op)[0]? = some input)
    (result : eraseCheck store input op = .ok store') : Scarred before func store' := by
  intro value valueMem stays other otherMem isGone
  have trimmedAfter := trimmed.eraseCheck wellFormed member left result
  rw [Ne, trimmedAfter.insts_eq_none_iff wellFormed valueMem, List.mem_cons, not_or] at stays
  rw [trimmedAfter.insts_eq_none_iff wellFormed otherMem, List.mem_cons] at isGone
  rw [eraseCheck_users result stays.1]
  cases decEq other op with
  | isTrue same =>
      subst same
      rw [trimmed.users value valueMem stays.2 other member left, first]
      simp [eq_comm]
  | isFalse different =>
      have gone := (trimmed.insts_eq_none_iff wellFormed otherMem).mpr
        (isGone.resolve_left different)
      have alive := mt (trimmed.insts_eq_none_iff wellFormed valueMem).mp stays.2
      rw [scarred value valueMem alive other otherMem gone]
      exact and_iff_left fun both => different both.2

theorem Scarred.elim {gone : List InstId} (scarred : Scarred before func store)
    (trimmed : Trimmed before func gone store) (wellFormed : before.WellFormed func)
    (member : op ∈ before.listed func) (left : op ∉ gone) (isCheck : IsCheck before op)
    (result : elim isDominatorBB order store op = .ok store') : Scarred before func store' := by
  rcases isCheck with ⟨inst, found, isKind⟩
  have shaped := wellFormed.shaped member found
  rcases trimmed.insts op member left inst found with ⟨users, foundNow⟩
  rcases elim_eq_loop foundNow shaped isKind with ⟨input, isCheck, first, -, loops⟩
  rw [loops] at result
  rcases Result.bind_eq_ok.mp result with ⟨_, -, running⟩
  cases elimLoop_cases running with
  | inl kept => exact kept.1 ▸ scarred
  | inr erased =>
      apply scarred.eraseCheck trimmed wellFormed member left _ erased.1
      rw [Store.inputs_eq found]
      exact first

theorem foldl_scarred {candidates gone : List InstId} (wellFormed : before.WellFormed func)
    (enumerates : Enumerates order) (trimmed : Trimmed before func gone store)
    (scarred : Scarred before func store) (nodup : candidates.Nodup)
    (fresh : ∀ id ∈ candidates, id ∈ before.listed func ∧ IsCheck before id ∧ id ∉ gone)
    (result : candidates.foldlM (elim isDominatorBB order) store = .ok store') :
    Scarred before func store' := by
  induction candidates generalizing gone store with
  | nil =>
      cases result
      exact scarred
  | cons op rest induction =>
      rw [List.foldlM_cons] at result
      rcases Result.bind_eq_ok.mp result with ⟨next, first, later⟩
      rw [List.nodup_cons] at nodup
      rcases fresh op List.mem_cons_self with ⟨member, isCheck, left⟩
      have scarredNext := scarred.elim trimmed wellFormed member left isCheck first
      have freshRest : ∀ id ∈ rest, id ∈ before.listed func ∧ IsCheck before id ∧ id ∉ gone :=
        fun id idMem => fresh id (List.mem_cons_of_mem _ idMem)
      cases elim_trimmed wellFormed enumerates trimmed member left isCheck first with
      | inl kept =>
          cases kept.1
          exact induction trimmed scarredNext nodup.2 freshRest later
      | inr erased =>
          apply induction erased.1 scarredNext nodup.2 _ later
          intro id inRest
          rcases freshRest id inRest with ⟨idMem, idCheck, idLeft⟩
          refine ⟨idMem, idCheck, ?_⟩
          rw [List.mem_cons, not_or]
          exact ⟨fun same => nodup.1 (same ▸ inRest), idLeft⟩

theorem run_scarred (wellFormed : before.WellFormed func) (enumerates : Enumerates order)
    (result : run isDominatorBB order before func = .ok store') : Scarred before func store' := by
  rcases Result.bind_eq_ok.mp result with ⟨candidates, filling, folding⟩
  rcases fillCandidates_eq_ok wellFormed filling with ⟨nodup, isCandidate⟩
  apply foldl_scarred wellFormed enumerates (.start wellFormed) (scarred_start wellFormed) nodup _
    folding
  intro id member
  exact ⟨((isCandidate id).mp member).1, ((isCandidate id).mp member).2, List.not_mem_nil⟩

theorem Covers.inputs_subset (wellFormed : before.WellFormed func) {other : InstId}
    (member : op ∈ before.listed func) (covers : Covers before op other) :
    before.inputs op ⊆ before.inputs other := by
  rcases covers with ⟨inst, otherInst, found, otherFound, isKind, -, ⟨input, isFirst, isInput⟩, bounds⟩
  rw [Store.inputs_eq found, Store.inputs_eq otherFound]
  intro value isValue
  rcases isKind.inputs (wellFormed.shaped member found) with
    ⟨-, only, inputs⟩ | ⟨-, index, bound, inputs⟩
  · rw [inputs] at isValue isFirst
    cases isFirst
    rwa [List.mem_singleton.mp isValue]
  · rw [inputs] at isValue isFirst bounds
    cases isFirst
    rcases List.mem_pair.mp isValue with rfl | rfl
    · exact isInput
    · exact List.mem_of_getElem? bounds

/-- A check that is not used, and whose operands are all the first one. -/
structure Detachable (store : Store) (func : Function) (op : InstId) : Prop where
  unused : ∀ user ∈ store.listed func, op ∉ store.inputs user
  alike : ∀ index bound, IsBoundsCheck store index bound op → index = bound

theorem Detachable.first (wellFormed : before.WellFormed func) {value : InstId}
    (detachable : Detachable before func op) (member : op ∈ before.listed func)
    (isCheck : IsCheck before op) (isInput : value ∈ before.inputs op) :
    (before.inputs op)[0]? = some value := by
  rcases isCheck with ⟨inst, found, isKind⟩
  rw [Store.inputs_eq found] at isInput ⊢
  rcases isKind.inputs (wellFormed.shaped member found) with
    ⟨-, only, inputs⟩ | ⟨kind, index, bound, inputs⟩
  · rw [inputs] at isInput ⊢
    rw [List.mem_singleton.mp isInput]
    rfl
  · have alike := detachable.alike index bound ⟨inst, found, kind, inputs⟩
    subst alike
    rw [inputs] at isInput ⊢
    rcases List.mem_pair.mp isInput with rfl | rfl <;> rfl

section Left

variable {gone : List InstId}

/-- What a check goes for uses the same operands, and the outermost such check stays. -/
theorem LeavesNoTrace.unused (traceless : LeavesNoTrace func store)
    (trimmed : Trimmed before func gone store) (wellFormed : before.WellFormed func)
    (covered : ∀ op ∈ gone, ∃ other ∈ before.listed func, other ∉ gone ∧ Covers before op other)
    (isGone : op ∈ gone) : ∀ user ∈ before.listed func, op ∉ before.inputs user := by
  have unusedByLeft : ∀ user ∈ before.listed func, user ∉ gone → op ∉ before.inputs user := by
    intro user userMem userLeft uses
    rw [← trimmed.inputs_eq wellFormed userMem userLeft] at uses
    have opListed := traceless.inputs user ((trimmed.mem_listed user).mpr ⟨userMem, userLeft⟩)
      op uses
    exact ((trimmed.mem_listed op).mp opListed).2 isGone
  intro user userMem uses
  cases Decidable.em (user ∈ gone) with
  | inr userLeft => exact unusedByLeft user userMem userLeft uses
  | inl userGone =>
      rcases covered user userGone with ⟨other, otherMem, otherLeft, covers⟩
      exact unusedByLeft other otherMem otherLeft (covers.inputs_subset wellFormed userMem uses)

/-- A bound that is not the first operand as well keeps the check as a user. -/
theorem LeavesNoTrace.alike (traceless : LeavesNoTrace func store)
    (trimmed : Trimmed before func gone store) (scarred : Scarred before func store)
    (wellFormed : before.WellFormed func) (isGone : op ∈ gone) {index bound : InstId}
    (boundLeft : bound ∉ gone) (isBounds : IsBoundsCheck before index bound op) :
    index = bound := by
  have member := trimmed.goneMem op isGone
  rcases isBounds with ⟨inst, found, -, inputs⟩
  have isBound : bound ∈ before.inputs op := by
    rw [Store.inputs_eq found, inputs]
    simp
  have boundMem := wellFormed.housed.linked.inputs op member bound isBound
  by_contra different
  have still : op ∈ store.users bound := by
    rw [scarred bound boundMem (mt (trimmed.insts_eq_none_iff wellFormed boundMem).mp boundLeft)
      op member (trimmed.erased op isGone)]
    refine ⟨isBound, ?_⟩
    rw [Store.inputs_eq found, inputs]
    simpa using different
  have opListed := ((traceless.users bound
    ((trimmed.mem_listed bound).mpr ⟨boundMem, boundLeft⟩) op).mp still).1
  exact ((trimmed.mem_listed op).mp opListed).2 isGone

theorem leavesNoTrace_of_detachable (trimmed : Trimmed before func gone store)
    (scarred : Scarred before func store) (wellFormed : before.WellFormed func)
    (detachable : ∀ op ∈ gone, IsCheck before op ∧ Detachable before func op) :
    LeavesNoTrace func store := by
  constructor
  case inputs =>
    intro id isListed input isInput
    rcases (trimmed.mem_listed id).mp isListed with ⟨idMem, idLeft⟩
    rw [trimmed.inputs_eq wellFormed idMem idLeft] at isInput
    rw [trimmed.mem_listed]
    exact ⟨wellFormed.housed.linked.inputs id idMem input isInput,
      fun inputGone => (detachable input inputGone).2.unused id idMem isInput⟩
  case users =>
    intro value isListed user
    rcases (trimmed.mem_listed value).mp isListed with ⟨valueMem, valueLeft⟩
    rw [trimmed.mem_listed]
    cases Decidable.em (user ∈ gone) with
    | inl userGone =>
        have userMem := trimmed.goneMem user userGone
        have alive := mt (trimmed.insts_eq_none_iff wellFormed valueMem).mp valueLeft
        rcases detachable user userGone with ⟨isCheck, detachable⟩
        rw [scarred value valueMem alive user userMem (trimmed.erased user userGone)]
        apply iff_of_false
        · intro uses
          exact uses.2 (detachable.first wellFormed userMem isCheck uses.1)
        · exact fun left => left.1.2 userGone
    | inr userLeft =>
        constructor
        · intro isUser
          have userMem := trimmed.usersMem value valueMem user isUser
          rw [trimmed.inputs_eq wellFormed userMem userLeft]
          exact ⟨⟨userMem, userLeft⟩,
            (trimmed.users value valueMem valueLeft user userMem userLeft).mp isUser⟩
        · intro uses
          have userMem := uses.1.1
          rw [trimmed.users value valueMem valueLeft user userMem userLeft,
            ← trimmed.inputs_eq wellFormed userMem userLeft]
          exact uses.2

end Left

/-- The checks leave no trace exactly when those that go are not used and have no operand
but the first. -/
theorem leavesNoTrace_iff (wellFormed : before.WellFormed func)
    (ids : (func.bbs.map (before.cfg func).id).Nodup) {tree : DominatorTree BlockId}
    (built : buildDomTree (before.cfg func) = .ok tree) (enumerates : Enumerates order)
    (completes : run (treeAnswers tree) order before func = .ok store') :
    LeavesNoTrace func store' ↔
      ∀ op ∈ before.listed func, IsCheck before op →
        Dominated (treeAnswers tree) before func [] op → Detachable before func op := by
  have orders := ordersInsts_tree wellFormed ids built
  have scarred := run_scarred wellFormed enumerates completes
  rcases gone_iff wellFormed enumerates orders completes with ⟨gone, trimmed, isGone⟩
  constructor
  · intro traceless op member isCheck dominated
    have covered : ∀ op ∈ gone, ∃ other ∈ before.listed func, other ∉ gone ∧
        Covers before op other := by
      intro op opGone
      rcases (isGone op).mp opGone with ⟨opMem, -, dominated⟩
      rcases dominated.outermost wellFormed orders opMem with
        ⟨other, otherMem, -, covers, -, outermost⟩
      exact ⟨other, otherMem, fun otherGone => outermost ((isGone other).mp otherGone).2.2, covers⟩
    have unused : ∀ id ∈ gone, ∀ user ∈ before.listed func, id ∉ before.inputs user :=
      fun id => traceless.unused trimmed wellFormed covered
    have opGone := (isGone op).mpr ⟨member, isCheck, dominated⟩
    refine ⟨unused op opGone, ?_⟩
    intro index bound isBounds
    apply traceless.alike trimmed scarred wellFormed opGone _ isBounds
    intro boundGone
    apply unused bound boundGone op member
    rcases isBounds with ⟨inst, found, -, inputs⟩
    rw [Store.inputs_eq found, inputs]
    simp
  · intro detachable
    apply leavesNoTrace_of_detachable trimmed scarred wellFormed
    intro op opGone
    rcases (isGone op).mp opGone with ⟨member, isCheck, dominated⟩
    exact ⟨isCheck, detachable op member isCheck dominated⟩

theorem checking_ids (index : InstId) (indexUsers : List InstId) :
    (checking.bbs.map ((checks index indexUsers).cfg checking).id).Nodup :=
  List.nodup_singleton _

theorem leavesNoTrace_iff_checks :
    ∃ tree store', buildDomTree ((checks 0 [2, 3]).cfg checking) = .ok tree ∧
      run (treeAnswers tree) Store.users (checks 0 [2, 3]) checking = .ok store' ∧
      (LeavesNoTrace checking store' ↔
        ∀ op ∈ (checks 0 [2, 3]).listed checking, IsCheck (checks 0 [2, 3]) op →
          Dominated (treeAnswers tree) (checks 0 [2, 3]) checking [] op →
          Detachable (checks 0 [2, 3]) checking op) := by
  have wellFormed : (checks 0 [2, 3]).WellFormed checking := checkWellFormed_sound rfl
  rcases buildDomTree_rooted (wellFormed.toCfg (checking_ids 0 [2, 3])) with ⟨tree, built, -⟩
  have completes : ∃ store', run (treeAnswers tree) Store.users (checks 0 [2, 3]) checking =
      .ok store' := ⟨_, rfl⟩
  rcases completes with ⟨store', completes⟩
  exact ⟨tree, store', built, completes, leavesNoTrace_iff wellFormed (checking_ids 0 [2, 3]) built
    (fun _ _ _ => .rfl) completes⟩

/-- The erased check is still a user of the bound. -/
theorem trace_left :
    (checks 0 [2, 3]).WellFormed checking ∧
      (checking.bbs.map ((checks 0 [2, 3]).cfg checking).id).Nodup ∧ Enumerates Store.users ∧
      ∃ tree store', buildDomTree ((checks 0 [2, 3]).cfg checking) = .ok tree ∧
        run (treeAnswers tree) Store.users (checks 0 [2, 3]) checking = .ok store' ∧
        ¬ LeavesNoTrace checking store' := by
  have wellFormed : (checks 0 [2, 3]).WellFormed checking := checkWellFormed_sound rfl
  rcases buildDomTree_rooted (wellFormed.toCfg (checking_ids 0 [2, 3])) with ⟨tree, built, -⟩
  refine ⟨wellFormed, checking_ids 0 [2, 3], fun _ _ _ => .rfl, tree, _, built, rfl, ?_⟩
  intro traceless
  have isListed := ((traceless.users 1 (by decide) 3).mp (by decide)).1
  exact absurd isListed (by decide)

end LeechJit.Opt.ChecksElimination
