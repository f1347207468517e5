import Mathlib.Data.List.Dedup
import LeechJit.Analysis.LoopAnalyzer
import LeechJit.Graph.DfsOrder

/-! # The linear order of the blocks -/

namespace LeechJit.Analysis

open LeechJit.Graph

variable {Node : Type} [DecidableEq Node]

/-- What the loop of `buildLinearOrder` does at one block; `res` holds the visited ones. -/
def placeBlock (loops : LoopAnalyzer Node) (res : List Node) (bb : Node) :
    Result (List Node) :=
  if bb ∈ res then .ok res
  else do
    let loopInfo ← loops.getLoopInfo bb
    if loopInfo.header = some bb ∧ loopInfo.reducible then do
      let body ← loops.getLinearOrder loops.depth loopInfo
      return res ++ body
    else return res ++ [bb]

def buildLinearOrder (graph : Graph Node) (loops : LoopAnalyzer Node) :
    Result (List Node) := do
  let rpoOrder := graph.depthFirstSearchReversePostOrder
  let res ← rpoOrder.foldlM (placeBlock loops) []
  -- Missed some bb in Linear order
  assert (res.length = rpoOrder.length)
  return res

/-- As many blocks as there are in the set of them. -/
def validateLinOrder (linearOrder : List Node) : Bool :=
  linearOrder.length = linearOrder.dedup.length

/-! ## No block is missing -/

variable {loops : LoopAnalyzer Node} {graph : Graph Node}

omit [DecidableEq Node] in
theorem header_mem_getLinearOrder {fuel : Nat} {info : LoopInfo Node} {header : Node}
    {order : List Node} (isHeader : info.header = some header)
    (result : loops.getLinearOrder fuel info = .ok order) : header ∈ order := by
  cases fuel with
  | zero => cases result
  | succ fuel =>
      simp only [LoopAnalyzer.getLinearOrder, isHeader] at result
      rcases Result.bind_eq_ok.mp result with ⟨parts, -, equal⟩
      cases equal
      exact List.mem_cons_self

theorem placeBlock_eq_ok {res after : List Node} {bb : Node}
    (result : placeBlock loops res bb = .ok after) : bb ∈ after ∧ res ⊆ after := by
  by_cases visited : bb ∈ res
  · simp only [placeBlock, visited, if_true, Except.ok.injEq] at result
    subst result
    exact ⟨visited, List.Subset.refl _⟩
  · simp only [placeBlock, visited, if_false] at result
    rcases Result.bind_eq_ok.mp result with ⟨loopInfo, -, rest⟩
    by_cases isHeader : loopInfo.header = some bb ∧ loopInfo.reducible = true
    · rw [if_pos isHeader] at rest
      rcases Result.bind_eq_ok.mp rest with ⟨body, ordered, equal⟩
      cases equal
      exact ⟨List.mem_append_right _ (header_mem_getLinearOrder isHeader.1 ordered),
        List.subset_append_left _ _⟩
    · rw [if_neg isHeader] at rest
      cases rest
      exact ⟨List.mem_append_right _ (List.mem_singleton_self bb),
        List.subset_append_left _ _⟩

theorem placeBlock_fold {res after bbs : List Node}
    (result : bbs.foldlM (placeBlock loops) res = .ok after) : bbs ⊆ after ∧ res ⊆ after := by
  induction bbs generalizing res with
  | nil =>
      cases result
      exact ⟨List.nil_subset _, List.Subset.refl _⟩
  | cons bb rest induction =>
      rcases Result.bind_eq_ok.mp result with ⟨next, first, others⟩
      have ⟨restMem, nextMem⟩ := induction others
      have ⟨bbMem, resMem⟩ := placeBlock_eq_ok first
      exact ⟨List.cons_subset.mpr ⟨nextMem bbMem, restMem⟩, List.Subset.trans resMem nextMem⟩

/-- A linear order that passes the assertion on its size has every block once. -/
theorem buildLinearOrder_perm (closed : graph.Closed)
    (reachable : ∀ node ∈ graph.nodes, graph.Reachable node) {order : List Node}
    (result : buildLinearOrder graph loops = .ok order) : order.Perm graph.nodes := by
  rcases Result.bind_eq_ok.mp result with ⟨res, placed, rest⟩
  rcases Result.bind_eq_ok.mp rest with ⟨passed, sizes, equal⟩
  have lengths := assert_eq_ok.mp sizes
  cases equal
  have whole := (placeBlock_fold placed).1
  have subperm := reversePostOrder_nodup.subperm whole
  exact (subperm.perm_of_length_le (Nat.le_of_eq lengths)).symm.trans
    (reversePostOrder_perm closed reachable)

end LeechJit.Analysis
