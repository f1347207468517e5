import Mathlib.Data.List.Flatten
import LeechJit.Graph.DfsTree
import LeechJit.IR.Housed
import LeechJit.IR.WellFormed

/-! # What is computed before what

In a well-formed function every value comes before its uses when the blocks are gone
through in reverse postorder, and being defined before is transitive.
-/

namespace LeechJit.IR.Store

variable {store : Store} {func : Function}

/-- The instructions block by block, in reverse postorder. -/
def inOrder (store : Store) (func : Function) : List InstId :=
  (store.cfg func).depthFirstSearchReversePostOrder.flatMap store.instructions

/-- Values are computed before they are used. -/
theorem inOrder_sublist (closed : (store.cfg func).Closed) {bb : BlockId}
    (reachable : (store.cfg func).Reachable bb) {front back : List InstId} {user value : InstId}
    (split : store.instructions bb = front ++ user :: back)
    (defined : store.DefinedBefore func value bb front) :
    [value, user].Sublist (store.inOrder func) := by
  have behind : [user].Sublist (store.instructions bb) := by
    rw [List.singleton_sublist, split]
    exact List.mem_append_right _ List.mem_cons_self
  rcases defined with inFront | ⟨dom, -, inDom, different, dominates⟩
  · have pair : [value, user].Sublist (store.instructions bb) := by
      rw [split]
      exact (List.singleton_sublist.mpr inFront).append
        (List.singleton_sublist.mpr List.mem_cons_self)
    have member : bb ∈ (store.cfg func).depthFirstSearchReversePostOrder :=
      (Graph.mem_reversePostOrder closed).mpr reachable
    rcases List.append_of_mem member with ⟨before, after, order⟩
    rw [inOrder, order, List.flatMap_append, List.flatMap_cons]
    exact (pair.trans (List.sublist_append_left ..)).trans (List.sublist_append_right ..)
  · have finishes := Graph.finishes_of_dominates closed reachable dominates different
    have blocks : [dom, bb].Sublist (store.cfg func).depthFirstSearchReversePostOrder :=
      List.reverse_sublist.mpr finishes
    have insts : (store.instructions dom ++ store.instructions bb).Sublist
        (store.inOrder func) := by
      have both := blocks.flatMap store.instructions
      rwa [List.flatMap_cons, List.flatMap_singleton] at both
    exact ((List.singleton_sublist.mpr inDom).append behind).trans insts

namespace WellFormed

theorem inOrder_perm (wellFormed : store.WellFormed func) :
    (store.inOrder func).Perm (store.listed func) :=
  (Graph.reversePostOrder_perm wellFormed.closed wellFormed.reachable).flatMap_right
    store.instructions

theorem housed (wellFormed : store.WellFormed func) : store.Housed func where
  nodup := wellFormed.nodup
  closed := wellFormed.closed
  homes id member inst bb found home := by
    rcases wellFormed.fits member found with ⟨own, ownMem, -, fits⟩
    cases Option.some.inj (fits.home.symm.trans home)
    exact ownMem
  linked := by
    have inputsOf : ∀ id ∈ store.listed func, ∀ input ∈ store.inputs id,
        input ∈ store.listed func ∧ ∃ other, store.insts input = some other ∧
          id ∈ other.users := by
      intro id member input isInput
      rcases wellFormed.inst member with ⟨_, -, -, inst, found, fits⟩
      rw [inputs_eq found] at isInput
      exact fits.inputs input isInput
    constructor
    case stored =>
      intro id member
      rcases wellFormed.inst member with ⟨_, -, -, inst, found, -⟩
      exact ⟨inst, found⟩
    case allocated => exact fun id member => wellFormed.allocated member
    case formed =>
      intro id member inst found
      exact (wellFormed.shaped member found).formed
    case inputs => exact fun id member input isInput => (inputsOf id member input isInput).1
    case users =>
      intro value member user
      rcases wellFormed.inst member with ⟨_, -, -, inst, found, fits⟩
      constructor
      · intro isUser
        rw [users_eq found] at isUser
        rcases fits.users user isUser with ⟨userMem, other, otherFound, uses⟩
        exact ⟨userMem, by rwa [inputs_eq otherFound]⟩
      · rintro ⟨userMem, uses⟩
        rcases (inputsOf user userMem value uses).2 with ⟨other, otherFound, isUser⟩
        rwa [users_eq otherFound]
    case acyclic =>
      refine ⟨(store.inOrder func).idxOf, ?_⟩
      rintro user member ⟨inst, oper, found, kind⟩ value isInput -
      rcases wellFormed.inst member with ⟨bb, bbMem, inBlock, -⟩
      rcases List.append_of_mem inBlock with ⟨front, back, split⟩
      have notPhi : inst.kind.isPhi = false := Inst.not_phi kind
      rw [inputs_eq found] at isInput
      have defined := wellFormed.uses bb bbMem front user back split inst found notPhi value isInput
      exact Graph.idxOf_lt_of_sublist (wellFormed.inOrder_perm.nodup_iff.mpr wellFormed.nodup)
        (inOrder_sublist wellFormed.closed (wellFormed.reachable _ bbMem) split defined)

end WellFormed

/-! ## Earlier than earlier -/

namespace Housed

variable {bb other : BlockId} {front back : List InstId} {middle value : InstId}

/-- An instruction stands in its block once. -/
theorem front_unique (housed : store.Housed func) (bbMem : bb ∈ func.bbs)
    {front' back' : List InstId} (split : store.instructions bb = front ++ middle :: back)
    (again : store.instructions bb = front' ++ middle :: back') : front = front' := by
  have nodup := (List.nodup_flatMap.mp housed.nodup).1 bb bbMem
  rw [split] at nodup again
  have alone := (List.nodup_cons.mp (List.nodup_middle.mp nodup)).1
  rw [List.mem_append, not_or] at alone
  exact ((List.append_cons_inj_of_notMem alone.1 alone.2).mp again).1

/-- The block a definition stands in is reached when its use is. -/
theorem reachable_of_definedBefore (housed : store.Housed func) (bbMem : bb ∈ func.bbs)
    (otherMem : other ∈ func.bbs) (reachable : (store.cfg func).Reachable other)
    (inBlock : middle ∈ store.instructions bb) (inFront : ∀ id ∈ front, id ∈ store.instructions other)
    (defined : store.DefinedBefore func middle other front) : (store.cfg func).Reachable bb := by
  rcases defined with here | ⟨dom, domMem, inDom, -, dominates⟩
  · rw [housed.home_unique bbMem otherMem inBlock (inFront middle here)]
    exact reachable
  · rw [housed.home_unique bbMem domMem inBlock inDom]
    rcases Dominance.Walk.of_reachable reachable with ⟨nodes, walk⟩
    rcases walk.stopAt (dominates nodes walk) with ⟨before, toDom, -⟩
    exact toDom.reachable

/-- What is defined before a definition is defined before its uses. -/
theorem definedBefore_trans (housed : store.Housed func) (bbMem : bb ∈ func.bbs)
    (otherMem : other ∈ func.bbs) (reachable : (store.cfg func).Reachable bb)
    (split : store.instructions bb = front ++ middle :: back) {later behind : List InstId}
    (splitOther : store.instructions other = later ++ behind)
    (first : store.DefinedBefore func value bb front)
    (second : store.DefinedBefore func middle other later) :
    store.DefinedBefore func value other later := by
  have inBlock : middle ∈ store.instructions bb := by simp [split]
  rcases second with here | ⟨dom, domMem, inDom, different, dominates⟩
  · have inOther : middle ∈ store.instructions other := by
      rw [splitOther]
      exact List.mem_append_left _ here
    have same := housed.home_unique bbMem otherMem inBlock inOther
    subst same
    rcases first with before | outside
    · left
      rcases List.append_of_mem here with ⟨upTo, beyond, rfl⟩
      rw [List.append_assoc, List.cons_append] at splitOther
      rw [housed.front_unique bbMem splitOther split]
      exact List.mem_append_left _ before
    · exact .inr outside
  · have same := housed.home_unique bbMem domMem inBlock inDom
    subst same
    right
    rcases first with before | ⟨outer, outerMem, inOuter, notSelf, outerDominates⟩
    · refine ⟨bb, bbMem, ?_, different, dominates⟩
      rw [split]
      exact List.mem_append_left _ before
    · refine ⟨outer, outerMem, inOuter, ?_, outerDominates.trans dominates⟩
      rintro rfl
      exact notSelf (outerDominates.antisymm reachable dominates)

theorem definedAtEnd_trans (housed : store.Housed func) (bbMem : bb ∈ func.bbs)
    (split : store.instructions bb = front ++ middle :: back)
    (first : store.DefinedBefore func value bb front)
    (second : store.DefinedAtEnd func middle other) : store.DefinedAtEnd func value other := by
  rcases second with ⟨dom, domMem, inDom, dominates⟩
  have inBlock : middle ∈ store.instructions bb := by simp [split]
  have same := housed.home_unique bbMem domMem inBlock inDom
  subst same
  rcases first with before | ⟨outer, outerMem, inOuter, -, outerDominates⟩
  · refine ⟨bb, bbMem, ?_, dominates⟩
    rw [split]
    exact List.mem_append_left _ before
  · exact ⟨outer, outerMem, inOuter, outerDominates.trans dominates⟩

end Housed

/-- The definitions of the values in `needed` strictly dominate their uses; an operand of a
phi is used at the end of the predecessor its entry names. -/
structure UsesDefined (store : Store) (func : Function) (needed : Set InstId) : Prop where
  uses : ∀ bb ∈ func.bbs, ∀ front id back, store.instructions bb = front ++ id :: back →
    ∀ inst, store.insts id = some inst → inst.kind.isPhi = false →
    ∀ input ∈ inst.inputs, input ∈ needed → store.DefinedBefore func input bb front
  phiUses : ∀ bb ∈ func.bbs, ∀ id ∈ store.instructions bb, ∀ inst vars,
    store.insts id = some inst → inst.kind = .kPhi vars →
    ∀ value entry, (value, entry) ∈ inst.inputs.zip vars → value ∈ needed →
      store.DefinedAtEnd func value entry.bb

theorem UsesDefined.mono {needed needed' : Set InstId} (defined : store.UsesDefined func needed)
    (subset : needed' ⊆ needed) : store.UsesDefined func needed' where
  uses bb bbMem front id back split inst found notPhi input isInput isNeeded :=
    defined.uses bb bbMem front id back split inst found notPhi input isInput (subset isNeeded)
  phiUses bb bbMem id inBlock inst vars found isPhi value entry matched isNeeded :=
    defined.phiUses bb bbMem id inBlock inst vars found isPhi value entry matched
      (subset isNeeded)

theorem WellFormed.usesDefined (wellFormed : store.WellFormed func) (needed : Set InstId) :
    store.UsesDefined func needed where
  uses bb bbMem front id back split inst found notPhi input isInput _ :=
    wellFormed.uses bb bbMem front id back split inst found notPhi input isInput
  phiUses bb bbMem phi inBlock inst vars found isPhi value entry matched _ := by
    have shaped := wellFormed.shaped (Consistent.mem_listed bbMem inBlock) found
    unfold Inst.Shaped at shaped
    rw [isPhi] at shaped
    have pairs : inst.inputs.zip vars = vars.map fun own => (own.val, own) := by
      calc
        inst.inputs.zip vars = (vars.map PhiEntry.val).zip (vars.map id) := by
          rw [List.map_id]
          exact congrArg (List.zip · vars) shaped
        _ = vars.map fun own => (own.val, own) := List.zip_map' ..
    rw [pairs, List.mem_map] at matched
    rcases matched with ⟨own, member, equal⟩
    cases equal
    exact wellFormed.phiUses bb bbMem phi inBlock inst vars found isPhi entry member

/-! ## Dominance between instructions -/

/-- `dom` is another instruction than `node`, and executed before it on every way to it. -/
def StrictlyDominates (store : Store) (func : Function) (dom node : InstId) : Prop :=
  ∃ bb ∈ func.bbs, ∃ front back, store.instructions bb = front ++ node :: back ∧
    store.DefinedBefore func dom bb front

namespace WellFormed

theorem idxOf_lt (wellFormed : store.WellFormed func) {dom node : InstId}
    (dominates : store.StrictlyDominates func dom node) :
    (store.inOrder func).idxOf dom < (store.inOrder func).idxOf node := by
  rcases dominates with ⟨bb, bbMem, front, back, split, defined⟩
  exact Graph.idxOf_lt_of_sublist (wellFormed.inOrder_perm.nodup_iff.mpr wellFormed.nodup)
    (inOrder_sublist wellFormed.closed (wellFormed.reachable _ bbMem) split defined)

theorem strictlyDominates_trans (wellFormed : store.WellFormed func) {outer dom node : InstId}
    (first : store.StrictlyDominates func outer dom)
    (second : store.StrictlyDominates func dom node) :
    store.StrictlyDominates func outer node := by
  rcases first with ⟨bb, bbMem, front, back, split, before⟩
  rcases second with ⟨other, otherMem, front', back', splitOther, before'⟩
  exact ⟨other, otherMem, front', back', splitOther,
    wellFormed.housed.definedBefore_trans bbMem otherMem (wellFormed.reachable bb bbMem) split
      splitOther before before'⟩

theorem strictlyDominates_iff (wellFormed : store.WellFormed func) {bb other : BlockId}
    {dom node : InstId} (bbMem : bb ∈ func.bbs) (otherMem : other ∈ func.bbs)
    (domIn : dom ∈ store.instructions bb) (nodeIn : node ∈ store.instructions other)
    (different : bb ≠ other) :
    store.StrictlyDominates func dom node ↔ store.BlockDominates func bb other := by
  constructor
  · rintro ⟨block, blockMem, front, back, split, here | ⟨home, homeMem, inHome, -, dominates⟩⟩
    · have domBlock := wellFormed.home_unique bbMem blockMem domIn (by simp [split, here])
      have nodeBlock := wellFormed.home_unique otherMem blockMem nodeIn (by simp [split])
      exact absurd (domBlock.trans nodeBlock.symm) different
    · rw [wellFormed.home_unique bbMem homeMem domIn inHome,
        wellFormed.home_unique otherMem blockMem nodeIn (by simp [split])]
      exact dominates
  · intro dominates
    rcases List.append_of_mem nodeIn with ⟨front, back, split⟩
    exact ⟨other, otherMem, front, back, split, .inr ⟨bb, bbMem, domIn, different, dominates⟩⟩

end WellFormed

end LeechJit.IR.Store
