import LeechJit.Graph.DomTreeRooted
import LeechJit.Opt.ChecksExact

/-! # The dominator tree orders the instructions

Right or not, the dominator tree answers with a partial order of the blocks, and so
`isDominator` orders the instructions: in a block by position, between blocks by the tree.
-/

namespace LeechJit.IR

variable {store : Store} {func : Function}

/-- The control flow graph of a function whose blocks have distinct ids. -/
def Store.WellFormed.toCfg (wellFormed : store.WellFormed func)
    (ids : (func.bbs.map (store.cfg func).id).Nodup) : Cfg BlockId where
  toGraph := store.cfg func
  closed := wellFormed.closed
  allReachable := wellFormed.reachable
  preds_mem := wellFormed.predsMem
  mirrored := wellFormed.mirrored
  ids _ leftMem _ rightMem same := List.inj_on_of_nodup_map ids leftMem rightMem same

end LeechJit.IR

namespace LeechJit.Opt.ChecksElimination

open IR Store LeechJit.Graph

variable {before : Store} {func : Function} {dom node : InstId} {bb other : BlockId}
  {isDominatorBB : BlockId → BlockId → Bool}

theorem mem_dropWhile_iff_idxOf {ids : List InstId} (nodup : ids.Nodup) (domMem : dom ∈ ids)
    (nodeMem : node ∈ ids) :
    node ∈ ids.dropWhile (· ≠ dom) ↔ ids.idxOf dom ≤ ids.idxOf node := by
  induction ids with
  | nil => cases nodeMem
  | cons head rest induction =>
      cases decEq head dom with
      | isTrue isDom =>
          subst isDom
          rw [List.dropWhile_cons_of_neg (by simp)]
          simp [nodeMem]
      | isFalse notDom =>
          have domRest : dom ∈ rest := (List.mem_cons.mp domMem).resolve_left (Ne.symm notDom)
          rw [List.dropWhile_cons_of_pos (by simpa using notDom)]
          cases decEq head node with
          | isTrue isNode =>
              subst isNode
              have fresh := (List.nodup_cons.mp nodup).1
              rw [List.idxOf_cons_self, List.idxOf_cons_ne _ notDom]
              apply iff_of_false
              · exact fun inRest => fresh (List.dropWhile_subset _ inRest)
              · omega
          | isFalse notNode =>
              have nodeRest : node ∈ rest := (List.mem_cons.mp nodeMem).resolve_left (Ne.symm notNode)
              rw [induction (List.nodup_cons.mp nodup).2 domRest nodeRest,
                List.idxOf_cons_ne _ notDom, List.idxOf_cons_ne _ notNode]
              omega

/-- In a block the earlier instruction dominates, between blocks the answer is the block's. -/
def AnswersByPlace (isDominatorBB : BlockId → BlockId → Bool) (store : Store)
    (bb other : BlockId) (dom node : InstId) : Prop :=
  if bb = other then (store.instructions bb).idxOf dom ≤ (store.instructions bb).idxOf node
  else isDominatorBB bb other = true

theorem isDominator_iff (wellFormed : before.WellFormed func) (bbMem : bb ∈ func.bbs)
    (otherMem : other ∈ func.bbs) (domIn : dom ∈ before.instructions bb)
    (nodeIn : node ∈ before.instructions other) :
    isDominator isDominatorBB before dom node = .ok true ↔
      AnswersByPlace isDominatorBB before bb other dom node := by
  rcases wellFormed.insts bb bbMem dom domIn with ⟨domInst, domFound, domFits⟩
  rcases wellFormed.insts other otherMem node nodeIn with ⟨nodeInst, nodeFound, nodeFits⟩
  rcases wellFormed.blocks bb bbMem with ⟨block, blockFound⟩
  unfold AnswersByPlace
  cases decEq dom node with
  | isTrue same =>
      subst same
      rw [if_pos (wellFormed.home_unique bbMem otherMem domIn nodeIn)]
      exact iff_of_true (if_pos rfl) le_rfl
  | isFalse different =>
      simp only [isDominator, different, if_false, Store.inst, domFound, nodeFound, Result.ok_bind,
        Inst.getBB, domFits.home, nodeFits.home, Store.block, blockFound, Option.some.injEq]
      cases decEq bb other with
      | isTrue sameBlock =>
          subst sameBlock
          rw [if_pos rfl, if_pos rfl,
            ← mem_dropWhile_iff_idxOf (wellFormed.instructions_nodup bbMem) domIn nodeIn,
            instructions_eq blockFound]
          simp [pure, Except.pure]
      | isFalse otherBlock =>
          rw [if_neg otherBlock, if_neg otherBlock]
          simp [pure, Except.pure]

/-- Where the blocks are ordered, so are the instructions. -/
theorem ordersInsts_of_blocks (wellFormed : before.WellFormed func)
    (antisymm : ∀ bb ∈ func.bbs, ∀ other ∈ func.bbs, isDominatorBB bb other = true →
      isDominatorBB other bb = true → bb = other)
    (trans : ∀ bb ∈ func.bbs, ∀ middle ∈ func.bbs, ∀ other ∈ func.bbs,
      isDominatorBB bb middle = true → isDominatorBB middle other = true →
      isDominatorBB bb other = true) : OrdersInsts isDominatorBB before func := by
  constructor
  case antisymm =>
    intro dom domMem node nodeMem down up
    rcases wellFormed.inst domMem with ⟨bb, bbMem, domIn, -⟩
    rcases wellFormed.inst nodeMem with ⟨other, otherMem, nodeIn, -⟩
    rw [isDominator_iff wellFormed bbMem otherMem domIn nodeIn] at down
    rw [isDominator_iff wellFormed otherMem bbMem nodeIn domIn] at up
    unfold AnswersByPlace at down up
    cases decEq bb other with
    | isTrue same =>
        subst same
        rw [if_pos rfl] at down up
        exact (List.idxOf_inj domIn).mp (Nat.le_antisymm down up)
    | isFalse different =>
        rw [if_neg different] at down
        rw [if_neg (Ne.symm different)] at up
        exact absurd (antisymm bb bbMem other otherMem down up) different
  case trans =>
    intro dom domMem mid midMem node nodeMem first second
    rcases wellFormed.inst domMem with ⟨bb, bbMem, domIn, -⟩
    rcases wellFormed.inst midMem with ⟨middle, middleMem, midIn, -⟩
    rcases wellFormed.inst nodeMem with ⟨other, otherMem, nodeIn, -⟩
    rw [isDominator_iff wellFormed bbMem middleMem domIn midIn] at first
    rw [isDominator_iff wellFormed middleMem otherMem midIn nodeIn] at second
    rw [isDominator_iff wellFormed bbMem otherMem domIn nodeIn]
    unfold AnswersByPlace at first second ⊢
    cases decEq bb middle with
    | isTrue same =>
        subst same
        rw [if_pos rfl] at first
        cases decEq bb other with
        | isTrue same =>
            subst same
            rw [if_pos rfl] at second ⊢
            exact first.trans second
        | isFalse different =>
            rw [if_neg different] at second ⊢
            exact second
    | isFalse apart =>
        rw [if_neg apart] at first
        cases decEq middle other with
        | isTrue same =>
            subst same
            rw [if_neg apart]
            exact first
        | isFalse different =>
            rw [if_neg different] at second
            have notBack : bb ≠ other := by
              intro same
              subst same
              exact apart (antisymm bb bbMem middle middleMem first second)
            rw [if_neg notBack]
            exact trans bb bbMem middle middleMem other otherMem first second

/-- The answers of a dominator tree. -/
def treeAnswers (tree : DominatorTree BlockId) (dom node : BlockId) : Bool :=
  answer (tree.isDominator dom node)

theorem treeAnswers_eq_true {tree : DominatorTree BlockId} :
    treeAnswers tree bb other = true ↔ tree.isDominator bb other = .ok true :=
  answer_eq_true

/-- The tree that the pass builds orders the instructions. -/
theorem ordersInsts_tree (wellFormed : before.WellFormed func)
    (ids : (func.bbs.map (before.cfg func).id).Nodup) {tree : DominatorTree BlockId}
    (built : buildDomTree (before.cfg func) = .ok tree) :
    OrdersInsts (treeAnswers tree) before func := by
  rcases buildDomTree_rooted (wellFormed.toCfg ids) with ⟨tree', built', -, orders⟩
  cases Except.ok.inj (built.symm.trans built')
  apply ordersInsts_of_blocks wellFormed
  · intro bb bbMem other otherMem down up
    exact orders.antisymm bb bbMem other otherMem (treeAnswers_eq_true.mp down)
      (treeAnswers_eq_true.mp up)
  · intro bb bbMem middle middleMem other otherMem first second
    exact treeAnswers_eq_true.mpr (orders.trans bb bbMem middle middleMem other otherMem
      (treeAnswers_eq_true.mp first) (treeAnswers_eq_true.mp second))

end LeechJit.Opt.ChecksElimination
