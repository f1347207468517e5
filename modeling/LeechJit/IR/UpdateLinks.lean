import LeechJit.Foundation.EraseLoop
import LeechJit.IR.Edges

/-! # When the links of a block can be brought up to date

`updateLinks` takes the old edges away in a loop over the vector it erases them from. The
loop skips every other successor and then reads stale slots, so it only gets through when
every second successor is the last one; all other edges stay as they are.
-/

namespace LeechJit.IR.Store

open EraseLoop

variable {store middle store' : Store} {bb succ : BlockId}

/-- The edges from `bb` are mirrored in the lists of predecessors. -/
def Mirrors (store : Store) (bb : BlockId) : Prop :=
  ∀ succ, (store.preds succ).count bb = (store.succs bb).count succ

/-- The predecessors other than `bb` stay as they are. -/
def OthersKept (store store' : Store) (bb : BlockId) : Prop :=
  ∀ key, (store'.preds key).filter (fun pred => decide (pred ≠ bb)) =
    (store.preds key).filter (fun pred => decide (pred ≠ bb))

theorem OthersKept.trans (first : OthersKept store middle bb)
    (second : OthersKept middle store' bb) : OthersKept store store' bb :=
  fun key => (second key).trans (first key)

theorem Linking.mirrors {succs : List BlockId} (linking : Linking store store' bb succs)
    (mirrors : Mirrors store bb) : Mirrors store' bb := by
  intro succ
  have before := mirrors succ
  have kept := linking.excess bb succ
  rw [Store.excess, Store.excess] at kept
  omega

/-! ## One edge -/

theorem filter_erase_self (values : List BlockId) (value : BlockId) :
    (values.erase value).filter (fun other => decide (other ≠ value)) =
      values.filter (fun other => decide (other ≠ value)) := by
  induction values with
  | nil => rfl
  | cons head rest induction =>
      by_cases same : head = value
      · subst same
        simp
      · rw [List.erase_cons_tail (by simpa using same)]
        simpa [same] using induction

theorem linkBBs_kept (result : store.linkBBs bb succ = .ok store') :
    OthersKept store store' bb := by
  intro key
  rw [(linkBBs_edges result).2]
  by_cases isTarget : key = succ
  · simp [isTarget]
  · simp [isTarget]

theorem unlinkBBs_kept (result : store.unlinkBBs bb succ = .ok store') :
    OthersKept store store' bb := by
  intro key
  rw [(unlinkBBs_edges result).2.2.2]
  by_cases isTarget : key = succ
  · rw [if_pos isTarget, filter_erase_self, isTarget]
  · rw [if_neg isTarget]

theorem present_of_succ (isSucc : succ ∈ store.succs bb) : store.blocks bb ≠ none := by
  intro missing
  simp [succs, missing] at isSucc

theorem exists_setBlock_block {block : BasicBlock} (present : store.blocks succ ≠ none) :
    ∃ found, (store.setBlock bb block).block succ = .ok found := by
  by_cases same : succ = bb
  · exact ⟨block, by simp [same, block_eq_ok, setBlock]⟩
  · rcases Option.ne_none_iff_exists'.mp present with ⟨found, isFound⟩
    exact ⟨found, by simp [block_eq_ok, setBlock, same, isFound]⟩

theorem exists_linkBBs (present : store.blocks bb ≠ none) (target : store.blocks succ ≠ none) :
    ∃ store', store.linkBBs bb succ = .ok store' := by
  rcases Option.ne_none_iff_exists'.mp present with ⟨block, found⟩
  have linked : ∃ other, (store.setBlock bb
      { block with succ := block.succ ++ [succ] }).block succ = .ok other :=
    exists_setBlock_block target
  rcases linked with ⟨other, foundOther⟩
  exact ⟨_, Result.bind_eq_ok.mpr ⟨block, block_eq_ok.mpr found,
    Result.bind_eq_ok.mpr ⟨other, foundOther, rfl⟩⟩⟩

/-- A mirrored edge can be taken away. -/
theorem exists_unlinkBBs (mirrors : Mirrors store bb) (isSucc : succ ∈ store.succs bb) :
    ∃ store', store.unlinkBBs bb succ = .ok store' := by
  have isPred : bb ∈ store.preds succ := by
    rw [← List.count_pos_iff, mirrors succ, List.count_pos_iff]
    exact isSucc
  have target : store.blocks succ ≠ none := by
    intro missing
    simp [preds, missing] at isPred
  rcases Option.ne_none_iff_exists'.mp target with ⟨other, foundOther⟩
  have cut : ∃ block, (store.setBlock succ
      { other with pred := other.pred.erase bb }).block bb = .ok block :=
    exists_setBlock_block (present_of_succ isSucc)
  rcases cut with ⟨block, found⟩
  have same : block.succ = store.succs bb := by
    rw [← succs_eq (block_eq_ok.mp found), setBlock_succs]
    by_cases self : bb = succ
    · rw [if_pos self, self, succs_eq foundOther]
    · rw [if_neg self]
  refine ⟨_, Result.bind_eq_ok.mpr ⟨other, block_eq_ok.mpr foundOther,
    Result.bind_eq_ok.mpr ⟨(), assert_of _ ?_, Result.bind_eq_ok.mpr ⟨block, found,
      Result.bind_eq_ok.mpr ⟨(), assert_of _ ?_, rfl⟩⟩⟩⟩⟩
  · rwa [← preds_eq foundOther]
  · rwa [same]

/-! ## The loop over the successors -/

/-- The loop does to the successors what the loop over a vector that erases from it does. -/
theorem unlinkSuccs_eraseLoop {slots : List BlockId} {idx rounds : Nat}
    (result : unlinkSuccs bb slots idx rounds store = .ok store') :
    eraseLoop (store.succs bb) slots idx rounds = some (store'.succs bb) ∧
      OthersKept store store' bb := by
  induction rounds generalizing slots idx store with
  | zero =>
      cases result
      exact ⟨rfl, fun _ => rfl⟩
  | succ rounds induction =>
      rw [Store.unlinkSuccs] at result
      cases slot : slots[idx]? with
      | none => simp [slot] at result
      | some gone =>
          simp only [slot] at result
          rcases Result.bind_eq_ok.mp result with ⟨next, unlinking, continued⟩
          rcases Result.bind_eq_ok.mp continued with ⟨block, found, later⟩
          have left := (unlinkBBs_linking unlinking).1.succs_bb
          have isSucc := (unlinkBBs_edges unlinking).2.1
          rw [← succs_eq (block_eq_ok.mp found), left] at later
          rcases induction later with ⟨loop, kept⟩
          rw [left] at loop
          rw [eraseLoop_read slot isSucc]
          exact ⟨loop, (unlinkBBs_kept unlinking).trans kept⟩

theorem exists_unlinkSuccs {slots left : List BlockId} {idx rounds : Nat}
    (mirrors : Mirrors store bb)
    (loop : eraseLoop (store.succs bb) slots idx rounds = some left) :
    ∃ store', unlinkSuccs bb slots idx rounds store = .ok store' := by
  induction rounds generalizing slots idx store with
  | zero => exact ⟨store, rfl⟩
  | succ rounds induction =>
      cases slot : slots[idx]? with
      | none => simp [eraseLoop, slot] at loop
      | some gone =>
          by_cases isSucc : gone ∈ store.succs bb
          · rcases exists_unlinkBBs mirrors isSucc with ⟨next, unlinking⟩
            have linking := (unlinkBBs_linking unlinking).1
            rw [eraseLoop_read slot isSucc, ← linking.succs_bb] at loop
            rcases induction (linking.mirrors mirrors) loop with ⟨store', later⟩
            have present : next.blocks bb ≠ none :=
              mt (linking.same.blocks bb).mp (present_of_succ isSucc)
            rcases Option.ne_none_iff_exists'.mp present with ⟨block, found⟩
            rw [succs_eq found] at later
            refine ⟨store', ?_⟩
            rw [Store.unlinkSuccs]
            simp only [slot]
            exact Result.bind_eq_ok.mpr ⟨next, unlinking,
              Result.bind_eq_ok.mpr ⟨block, block_eq_ok.mpr found, later⟩⟩
          · rw [eraseLoop_stuck slot isSucc] at loop
            cases loop

/-! ## The new edges -/

theorem linkLast_kept {last : InstId} (result : store.linkLast bb last = .ok store') :
    OthersKept store store' bb := by
  rcases Result.bind_eq_ok.mp result with ⟨inst, found, linking⟩
  rcases inst with ⟨type, kind, users, home, inputs⟩
  cases kind with
  | kIf trueBB falseBB =>
      rcases Result.bind_eq_ok.mp linking with ⟨middle, first, second⟩
      exact (linkBBs_kept first).trans (linkBBs_kept second)
  | kJump target => exact linkBBs_kept linking
  | _ =>
      cases linking
      exact fun _ => rfl

theorem exists_linkLast {last : InstId} (present : store.blocks bb ≠ none)
    (isInst : store.insts last ≠ none)
    (targets : ∀ target ∈ store.targetsOf last, store.blocks target ≠ none) :
    ∃ store', store.linkLast bb last = .ok store' := by
  rcases Option.ne_none_iff_exists'.mp isInst with ⟨inst, found⟩
  rw [targetsOf, kindOf_eq found, Option.elim_some] at targets
  have read := inst_eq_ok.mpr found
  rcases inst with ⟨type, kind, users, home, inputs⟩
  cases kind with
  | kIf trueBB falseBB =>
      rcases exists_linkBBs present (targets trueBB (by simp [InstKind.targets])) with
        ⟨middle, first⟩
      have blocks := (SameInsts.linkBBs first).blocks
      rcases exists_linkBBs (mt (blocks bb).mp present)
        (mt (blocks falseBB).mp (targets falseBB (by simp [InstKind.targets]))) with
        ⟨store', second⟩
      exact ⟨store', Result.bind_eq_ok.mpr ⟨_, read,
        Result.bind_eq_ok.mpr ⟨middle, first, second⟩⟩⟩
  | kJump target =>
      rcases exists_linkBBs present (targets target (by simp [InstKind.targets])) with
        ⟨store', linking⟩
      exact ⟨store', Result.bind_eq_ok.mpr ⟨_, read, linking⟩⟩
  | _ => exact ⟨store, Result.bind_eq_ok.mpr ⟨_, read, rfl⟩⟩

/-! ## The whole update -/

/-- What an update of the links of `bb` is for. -/
structure LinksUpdated (store store' : Store) (bb : BlockId) : Prop where
  succs : store'.succs bb = store.lastTargets bb
  preds : ∀ key, (store'.preds key).count bb = (store.lastTargets bb).count key
  otherSuccs : ∀ key, key ≠ bb → store'.succs key = store.succs key
  otherPreds : OthersKept store store' bb
  same : SameInsts store store'

/-- An update that returns has gone through the successors and does what it is for. -/
theorem updateLinks_updated (mirrors : Mirrors store bb)
    (result : store.updateLinks bb = .ok store') :
    eraseLoop (store.succs bb) (store.succs bb) 0 (store.succs bb).length = some [] ∧
      LinksUpdated store store' bb := by
  have linking := (updateLinks_linking result).1
  rcases Result.bind_eq_ok.mp result with ⟨block, found, continued⟩
  rcases Result.bind_eq_ok.mp continued with ⟨middle, unlinking, continued⟩
  rcases Result.bind_eq_ok.mp continued with ⟨emptied, foundEmptied, continued⟩
  rcases Result.bind_eq_ok.mp continued with ⟨⟨⟩, empty, linkingLast⟩
  rw [block_eq_ok] at found foundEmptied
  rw [assert_eq_ok] at empty
  rw [← succs_eq found] at unlinking
  rcases unlinkSuccs_eraseLoop unlinking with ⟨loop, kept⟩
  rw [succs_eq foundEmptied, empty] at loop
  refine ⟨loop, linking.succs_bb, fun key => ?_, fun key other => ?_, ?_, linking.same⟩
  · rw [linking.mirrors mirrors key, linking.succs_bb]
  · rw [linking.succs, if_neg other]
  · cases last : emptied.instructions.getLast? with
    | none =>
        rw [last] at linkingLast
        cases linkingLast
        exact kept
    | some id =>
        rw [last] at linkingLast
        exact kept.trans (linkLast_kept linkingLast)

theorem exists_updateLinks (mirrors : Mirrors store bb) (present : store.blocks bb ≠ none)
    (isInst : ∀ last, (store.instructions bb).getLast? = some last → store.insts last ≠ none)
    (targets : ∀ target ∈ store.lastTargets bb, store.blocks target ≠ none)
    (loop : eraseLoop (store.succs bb) (store.succs bb) 0 (store.succs bb).length = some []) :
    ∃ store', store.updateLinks bb = .ok store' := by
  rcases exists_unlinkSuccs mirrors loop with ⟨middle, unlinking⟩
  have emptied : middle.succs bb = [] := by
    have left := (unlinkSuccs_eraseLoop unlinking).1
    rw [loop] at left
    exact (Option.some.inj left).symm
  have same := SameInsts.unlinkSuccs unlinking
  have presentNow := mt (same.blocks bb).mp present
  rcases Option.ne_none_iff_exists'.mp present with ⟨block, found⟩
  rcases Option.ne_none_iff_exists'.mp presentNow with ⟨after, foundAfter⟩
  have ids : after.instructions = store.instructions bb := by
    rw [← same.instructions, instructions_eq foundAfter]
  rw [succs_eq found] at unlinking
  have empty : after.succ = [] := by rw [← succs_eq foundAfter, emptied]
  rw [updateLinks, block_eq_ok.mpr found, Result.ok_bind, unlinking, Result.ok_bind,
    block_eq_ok.mpr foundAfter, Result.ok_bind, assert_of _ empty, Result.ok_bind, ids]
  cases last : (store.instructions bb).getLast? with
  | none => exact ⟨middle, rfl⟩
  | some id =>
      rw [lastTargets, last, Option.elim_some] at targets
      apply exists_linkLast presentNow
      · rw [same.insts]
        exact isInst id last
      · intro target member
        rw [targetsOf_sameInsts same] at member
        exact mt (same.blocks target).mp (targets target member)

/-- Four blocks without instructions and edges. -/
def fourBlocks : Store where
  insts _ := none
  blocks key := if key < 4 then some { id := key } else none
  functions _ := none
  nextInst := 0
  nextBlock := 4

theorem fourBlocks_mirrors : Mirrors fourBlocks 0 := by
  intro succ
  by_cases inside : succ < 4 <;> simp [Store.preds, Store.succs, fourBlocks, inside]

theorem Mirrors.linkBBs (mirrors : Mirrors store bb) (result : store.linkBBs bb succ = .ok store') :
    Mirrors store' bb :=
  (linkBBs_linking result).mirrors mirrors

end LeechJit.IR.Store
