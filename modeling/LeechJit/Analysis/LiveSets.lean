import LeechJit.Analysis.Liveness
import LeechJit.IR.Live
import LeechJit.IR.WellFormed
import LeechJit.IR.StoreLemmas

/-! # The live sets the analyzer computes

The blocks are handled from the last of the linear order to the first, so the
set of a block knows its successors further down only.
-/

namespace LeechJit.Analysis

open IR LeechJit.Graph

variable {store : Store} {graph : Graph BlockId} {liveSets : BlockId → Option LiveSet}
  {bb : BlockId} {set after : LiveSet}

theorem addPhiInputs_eq_ok {id : InstId} (result : addPhiInputs store bb set id = .ok after)
    (val : InstId) :
    val ∈ after ↔ val ∈ set ∨ ∃ inst vars, store.insts id = some inst ∧
      inst.kind = .kPhi vars ∧ ∃ entry ∈ vars, entry.bb = bb ∧ entry.val = val := by
  rcases Result.bind_eq_ok.mp result with ⟨inst, found, equal⟩
  have stored := Store.inst_eq_ok.mp found
  cases kind : inst.kind with
  | kPhi vars =>
      simp only [kind, Result.pure_eq_ok, Except.ok.injEq] at equal
      subst equal
      simp [stored, kind, and_assoc]
  | _ =>
      simp only [kind, Result.pure_eq_ok, Except.ok.injEq] at equal
      subst equal
      simp [stored, kind]

theorem addPhiInputs_fold {ids : List InstId}
    (result : ids.foldlM (addPhiInputs store bb) set = .ok after) (val : InstId) :
    val ∈ after ↔ val ∈ set ∨ ∃ id ∈ ids, ∃ inst vars, store.insts id = some inst ∧
      inst.kind = .kPhi vars ∧ ∃ entry ∈ vars, entry.bb = bb ∧ entry.val = val := by
  induction ids generalizing set with
  | nil =>
      cases result
      simp
  | cons id rest induction =>
      rcases Result.bind_eq_ok.mp result with ⟨next, first, others⟩
      rw [induction others, addPhiInputs_eq_ok first, or_assoc]
      simp

theorem processSucc_eq_ok {succ : BlockId}
    (result : processSucc store liveSets bb set succ = .ok after) (val : InstId) :
    val ∈ after ↔ val ∈ set ∨
      (succ ≠ bb ∧ ∃ live, liveSets succ = some live ∧ val ∈ live) ∨
      ((succ = bb ∨ (liveSets succ).isSome) ∧ store.PhiUse val bb succ) := by
  have known : ∀ live, (∃ block, store.block succ = .ok block ∧
        block.instructions.foldlM (addPhiInputs store bb) (set ∪ live) = .ok after) →
      (val ∈ after ↔ (val ∈ set ∨ val ∈ live) ∨ store.PhiUse val bb succ) := by
    rintro live ⟨block, found, filled⟩
    rw [addPhiInputs_fold filled, List.mem_union_iff, Store.PhiUse,
      Store.instructions_eq (Store.block_eq_ok.mp found)]
  by_cases isSelf : succ = bb
  · subst isSelf
    simp only [processSucc, if_true] at result
    rw [known set (Result.bind_eq_ok.mp result)]
    simp
  · cases live : liveSets succ with
    | none =>
        simp only [processSucc, isSelf, if_false, live, Except.ok.injEq] at result
        subst result
        simp [isSelf]
    | some live' =>
        simp only [processSucc, isSelf, if_false, live] at result
        rw [known live' (Result.bind_eq_ok.mp result)]
        simp [isSelf, or_assoc]

theorem processSucc_fold {succs : List BlockId}
    (result : succs.foldlM (processSucc store liveSets bb) set = .ok after) (val : InstId) :
    val ∈ after ↔ val ∈ set ∨ ∃ succ ∈ succs,
      (succ ≠ bb ∧ ∃ live, liveSets succ = some live ∧ val ∈ live) ∨
      ((succ = bb ∨ (liveSets succ).isSome) ∧ store.PhiUse val bb succ) := by
  induction succs generalizing set with
  | nil =>
      cases result
      simp
  | cons succ rest induction =>
      rcases Result.bind_eq_ok.mp result with ⟨next, first, others⟩
      rw [induction others, processSucc_eq_ok first, or_assoc]
      simp

/-- The sets of the blocks that are done, and of these only. -/
structure SetsOf (store : Store) (graph : Graph BlockId) (order done : List BlockId)
    (liveSets : BlockId → Option LiveSet) : Prop where
  known : ∀ bb ∈ done, ∃ set, liveSets bb = some set ∧
    ∀ val, val ∈ set ↔ ForwardLive store graph order val bb (store.instructions bb)
  unknown : ∀ bb, bb ∉ done → liveSets bb = none

theorem SetsOf.insert {order done : List BlockId}
    (sets : SetsOf store graph order done liveSets)
    (mem_iff : ∀ val, val ∈ set ↔ ForwardLive store graph order val bb (store.instructions bb)) :
    SetsOf store graph order (bb :: done) (Function.update liveSets bb (some set)) where
  known other isDone := by
    by_cases same : other = bb
    · subst same
      exact ⟨set, Function.update_self .., mem_iff⟩
    · have old : other ∈ done := by
        simpa [same] using isDone
      rw [Function.update_of_ne same]
      exact sets.known other old
  unknown other notDone := by
    rw [List.mem_cons, not_or] at notDone
    rw [Function.update_of_ne notDone.1]
    exact sets.unknown other notDone.2

theorem idxOf_lt_iff {order front done : List BlockId} {other : BlockId} (nodup : order.Nodup)
    (split : order = front ++ bb :: done) (member : other ∈ order) :
    order.idxOf bb < order.idxOf other ↔ other ∈ done := by
  subst split
  rw [List.nodup_append] at nodup
  have fresh : bb ∉ front := fun inFront =>
    nodup.2.2 bb inFront bb List.mem_cons_self rfl
  have atFront : (front ++ bb :: done).idxOf bb = front.length := by
    rw [List.idxOf_append_of_notMem fresh, List.idxOf_cons_self, Nat.add_zero]
  rw [atFront]
  by_cases inFront : other ∈ front
  · rw [List.idxOf_append_of_mem inFront]
    have bound := List.idxOf_lt_length_iff.mpr inFront
    have notDone : other ∉ done := fun inDone =>
      nodup.2.2 other inFront other (List.mem_cons_of_mem _ inDone) rfl
    simp only [notDone, iff_false]
    omega
  · rw [List.idxOf_append_of_notMem inFront]
    by_cases same : other = bb
    · subst same
      simp [(List.nodup_cons.mp nodup.2.1).1]
    · rw [List.idxOf_cons_ne _ fun equal => same equal.symm]
      have inDone : other ∈ done := by
        simpa [inFront, same] using member
      simp only [inDone, iff_true]
      omega

theorem calcInitLiveSet_eq_ok {order front done : List BlockId} (nodup : order.Nodup)
    (split : order = front ++ bb :: done) (closed : ∀ succ ∈ graph.succs bb, succ ∈ order)
    (sets : SetsOf store graph order done liveSets)
    (result : calcInitLiveSet store graph liveSets bb = .ok set) (val : InstId) :
    val ∈ set ↔ ForwardLive store graph order val bb [] := by
  rcases Result.bind_eq_ok.mp result with ⟨-, -, filled⟩
  have done_iff : ∀ succ, (liveSets succ).isSome ↔ succ ∈ done := by
    intro succ
    by_cases isDone : succ ∈ done
    · rcases sets.known succ isDone with ⟨live, stored, -⟩
      simp [stored, isDone]
    · simp [sets.unknown succ isDone, isDone]
  rw [processSucc_fold filled, ForwardLive, LiveAlong.nil_iff]
  simp only [List.not_mem_nil, false_or]
  constructor
  · rintro ⟨succ, isSucc, ⟨-, live, stored, member⟩ | ⟨reached, isUse⟩⟩
    · have isDone : succ ∈ done := (done_iff succ).mp (by simp [stored])
      rcases sets.known succ isDone with ⟨live', stored', mem_iff⟩
      cases Option.some.inj (stored.symm.trans stored')
      have later := (idxOf_lt_iff nodup split (closed succ isSucc)).mpr isDone
      exact ⟨succ, .inr ⟨⟨isSucc, later⟩, (mem_iff val).mp member⟩⟩
    · refine ⟨succ, .inl ⟨⟨isSucc, ?_⟩, isUse⟩⟩
      rcases reached with rfl | known
      · exact Nat.le_refl _
      · exact Nat.le_of_lt ((idxOf_lt_iff nodup split (closed succ isSucc)).mpr
          ((done_iff succ).mp known))
  · rintro ⟨succ, ⟨⟨isSucc, notBefore⟩, isUse⟩ | ⟨⟨isSucc, later⟩, live⟩⟩
    · refine ⟨succ, isSucc, .inr ⟨?_, isUse⟩⟩
      rcases Nat.eq_or_lt_of_le notBefore with same | later
      · have bbMem : bb ∈ order := by
          rw [split]
          simp
        exact .inl ((List.idxOf_inj bbMem).mp same).symm
      · exact .inr ((done_iff succ).mpr ((idxOf_lt_iff nodup split (closed succ isSucc)).mp later))
    · have isDone := (idxOf_lt_iff nodup split (closed succ isSucc)).mp later
      rcases sets.known succ isDone with ⟨set', stored, mem_iff⟩
      refine ⟨succ, isSucc, .inl ⟨?_, set', stored, (mem_iff val).mpr live⟩⟩
      rintro rfl
      exact Nat.lt_irrefl _ later

end LeechJit.Analysis
