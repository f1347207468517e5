import Mathlib.Data.Set.Basic
import LeechJit.Foundation.Dominance

/-! # Values that are there on every way to a node

Sets that hold nothing at the entry and along each edge only what was there before or is
defined at its source hold what is defined at a dominator.
-/

namespace LeechJit.Dominance

variable {α ν : Type} {edge : α → α → Prop} {entry : α} {defines available : α → Set ν}

/-- What is available at a node was defined on the way to it, whichever way that was. -/
structure Available (edge : α → α → Prop) (entry : α) (defines available : α → Set ν) : Prop where
  start : ∀ value, value ∉ available entry
  flow : ∀ source target, Relation.ReflTransGen edge entry source → edge source target →
    ∀ value ∈ available target, value ∈ available source ∨ value ∈ defines source

namespace Available

variable (availability : Available edge entry defines available) {value : ν} {node : α}

include availability

theorem passed_from {start : α} {front : List α} (reachable : Relation.ReflTransGen edge entry start)
    (walk : Walk edge start (front ++ [node]) node) (member : value ∈ available node) :
    value ∈ available start ∨ ∃ dom ∈ front, value ∈ defines dom := by
  induction front generalizing start with
  | nil =>
      cases walk with
      | here => exact .inl member
      | step _ rest => cases rest
  | cons head rest induction =>
      rcases parts : rest ++ [node] with _ | ⟨next, others⟩
      · simp at parts
      · rw [List.cons_append, parts] at walk
        cases walk with
        | step first onward =>
            rw [← parts] at onward
            rcases induction (reachable.tail first) onward with before | ⟨dom, inRest, isDef⟩
            · rcases availability.flow _ _ reachable first value before with before | isDef
              · exact .inl before
              · exact .inr ⟨_, .head _, isDef⟩
            · exact .inr ⟨dom, .tail _ inRest, isDef⟩

/-- A walk from the entry passes a definition before it comes to the node. -/
theorem passed {front : List α} (walk : Walk edge entry (front ++ [node]) node)
    (member : value ∈ available node) : ∃ dom ∈ front, value ∈ defines dom :=
  (availability.passed_from .refl walk member).resolve_left (availability.start value)

/-- Where a value that is defined once is available, its definition strictly dominates. -/
theorem dominates (unique : ∀ dom other, Relation.ReflTransGen edge entry dom →
      Relation.ReflTransGen edge entry other → value ∈ defines dom → value ∈ defines other →
        dom = other)
    (reachable : Relation.ReflTransGen edge entry node) (member : value ∈ available node) :
    ∃ dom, Relation.ReflTransGen edge entry dom ∧ value ∈ defines dom ∧ dom ≠ node ∧
      Dominates edge entry dom node := by
  have onWay : ∀ {front : List α}, Walk edge entry (front ++ [node]) node → ∀ other ∈ front,
      Relation.ReflTransGen edge entry other := by
    intro front walk other inFront
    rcases List.append_of_mem inFront with ⟨before, after, rfl⟩
    rw [List.append_assoc, List.cons_append] at walk
    exact walk.split.1.reachable
  rcases Walk.of_reachable reachable with ⟨nodes, walk⟩
  rcases walk.stopAt walk.finish_mem with ⟨shortest, first, fresh, -⟩
  rcases availability.passed first member with ⟨dom, inShortest, isDef⟩
  have isReachable := onWay first dom inShortest
  refine ⟨dom, isReachable, isDef, ?_, ?_⟩
  · rintro rfl
    exact fresh inShortest
  · intro nodes walk
    rcases walk.eq_concat with ⟨front, rfl⟩
    rcases availability.passed walk member with ⟨other, inFront, isOther⟩
    rw [unique dom other isReachable (onWay walk other inFront) isDef isOther]
    exact List.mem_append_left _ inFront

end Available

end LeechJit.Dominance
