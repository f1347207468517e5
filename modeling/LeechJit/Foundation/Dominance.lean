import Mathlib.Logic.Relation
import Mathlib.Tactic.ByContra
import Mathlib.Tactic.Tauto

/-! # Dominance in directed graphs

A node dominates another when every walk from the entry to the other passes
through it. The graph is an arbitrary relation.
-/

namespace LeechJit.Dominance

variable {α : Type} {edge : α → α → Prop} {entry : α}

/-- `Walk edge start nodes finish`: the nodes passed from `start` to `finish`. -/
inductive Walk (edge : α → α → Prop) : α → List α → α → Prop where
  | here (node : α) : Walk edge node [node] node
  | step {start next finish : α} {nodes : List α} (first : edge start next)
      (rest : Walk edge next nodes finish) : Walk edge start (start :: nodes) finish

def Dominates (edge : α → α → Prop) (entry dom node : α) : Prop :=
  ∀ nodes, Walk edge entry nodes node → dom ∈ nodes

/-- The closest node that strictly dominates another. -/
structure IsIdom (edge : α → α → Prop) (entry dom node : α) : Prop where
  different : dom ≠ node
  dominates : Dominates edge entry dom node
  closest : ∀ other, other ≠ node → Dominates edge entry other node →
    Dominates edge entry other dom

/-! ## Walks -/

namespace Walk

variable {start middle finish : α} {nodes : List α}

theorem start_mem (walk : Walk edge start nodes finish) : start ∈ nodes := by
  cases walk with
  | here => exact List.mem_cons_self
  | step => exact List.mem_cons_self

theorem finish_mem (walk : Walk edge start nodes finish) : finish ∈ nodes := by
  induction walk with
  | here => exact List.mem_cons_self
  | step _ _ induction => exact List.mem_cons_of_mem _ induction

theorem snoc {next : α} (walk : Walk edge start nodes finish) (last : edge finish next) :
    Walk edge start (nodes ++ [next]) next := by
  induction walk with
  | here => exact .step last (.here next)
  | step first _ induction => exact .step first (induction last)

theorem append {back : List α} (walk : Walk edge start nodes middle)
    (onward : Walk edge middle back finish) :
    Walk edge start (nodes ++ back.tail) finish := by
  induction walk with
  | here =>
      cases onward with
      | here => exact .here _
      | step first rest => exact .step first rest
  | step first _ induction => exact .step first (induction onward)

/-- A walk falls apart at each of its nodes. -/
theorem split {before after : List α} (walk : Walk edge start (before ++ middle :: after) finish) :
    Walk edge start (before ++ [middle]) middle ∧ Walk edge middle (middle :: after) finish := by
  induction before generalizing start with
  | nil =>
      cases walk with
      | here => exact ⟨.here _, .here _⟩
      | step first rest => exact ⟨.here _, .step first rest⟩
  | cons head rest induction =>
      rcases parts : rest ++ middle :: after with _ | ⟨next, others⟩
      · simp at parts
      · rw [List.cons_append, parts] at walk
        cases walk with
        | step first onward =>
            rw [← parts] at onward
            have later := induction onward
            exact ⟨.step first later.1, later.2⟩

theorem eq_concat (walk : Walk edge start nodes finish) : ∃ front, nodes = front ++ [finish] := by
  induction walk with
  | here node => exact ⟨[], rfl⟩
  | step first _ induction =>
      rcases induction with ⟨front, rfl⟩
      exact ⟨_ :: front, rfl⟩

/-- A walk can be stopped where it first meets a given node. -/
theorem stopAt (walk : Walk edge start nodes finish) {stop : α} (member : stop ∈ nodes) :
    ∃ before, Walk edge start (before ++ [stop]) stop ∧ stop ∉ before ∧
      ∃ after, nodes = before ++ stop :: after := by
  induction walk with
  | here node =>
      rw [List.mem_singleton] at member
      subst member
      exact ⟨[], .here _, by simp, [], rfl⟩
  | step first rest induction =>
      rename_i start next finish nodes
      by_cases same : stop = start
      · subst same
        exact ⟨[], .here _, by simp, nodes, rfl⟩
      · have later := (List.mem_cons.mp member).resolve_left same
        rcases induction later with ⟨before, walk, fresh, after, split⟩
        exact ⟨start :: before, .step first walk, by simp [same, fresh], after,
          by rw [split, List.cons_append]⟩

theorem reachable (walk : Walk edge start nodes finish) :
    Relation.ReflTransGen edge start finish := by
  induction walk with
  | here => exact .refl
  | step first _ induction => exact .head first induction

theorem of_reachable (reachable : Relation.ReflTransGen edge start finish) :
    ∃ nodes, Walk edge start nodes finish := by
  induction reachable with
  | refl => exact ⟨[start], .here start⟩
  | tail _ last induction =>
      rcases induction with ⟨nodes, walk⟩
      exact ⟨_, walk.snoc last⟩

end Walk

/-! ## Dominance is an order -/

theorem Dominates.refl (node : α) : Dominates edge entry node node :=
  fun _ walk => walk.finish_mem

theorem dominates_entry (node : α) : Dominates edge entry entry node :=
  fun _ walk => walk.start_mem

theorem Dominates.trans {outer inner node : α} (first : Dominates edge entry outer inner)
    (second : Dominates edge entry inner node) : Dominates edge entry outer node := by
  intro nodes walk
  rcases walk.stopAt (second nodes walk) with ⟨before, shorter, -, after, split⟩
  have member := first _ shorter
  rw [split]
  simp only [List.mem_append, List.mem_cons] at member ⊢
  tauto

/-- What dominates the end of an edge but is not it dominates the start. -/
theorem Dominates.of_edge {dom source target : α} (dominates : Dominates edge entry dom target)
    (different : dom ≠ target) (last : edge source target) : Dominates edge entry dom source := by
  intro nodes walk
  rcases List.mem_append.mp (dominates _ (walk.snoc last)) with before | isLast
  · exact before
  · exact absurd (List.mem_singleton.mp isLast) different

theorem Dominates.antisymm {left right : α} (reachable : Relation.ReflTransGen edge entry right)
    (first : Dominates edge entry left right) (second : Dominates edge entry right left) :
    left = right := by
  rcases Walk.of_reachable reachable with ⟨nodes, walk⟩
  rcases walk.stopAt walk.finish_mem with ⟨before, shortest, fresh, -⟩
  by_contra different
  -- Up to its first visit of `right` the walk has passed `left`, and `right` before that.
  rcases shortest.stopAt (first _ shortest) with ⟨earlier, toLeft, -, later, split⟩
  have inEarlier : right ∈ earlier := by
    have passed := second _ toLeft
    rcases List.mem_append.mp passed with inEarlier | last
    · exact inEarlier
    · exact absurd (List.mem_singleton.mp last).symm different
  rcases List.eq_nil_or_concat later with rfl | ⟨shorter, last, rfl⟩
  · have parts := List.append_inj' split rfl
    exact different (List.singleton_inj.mp parts.2).symm
  · have parts := List.append_inj' (show before ++ [right] =
      (earlier ++ left :: shorter) ++ [last] by simpa using split) rfl
    exact fresh (parts.1 ▸ List.mem_append_left _ inEarlier)

/-! ## Immediate dominators -/

theorem IsIdom.dominates_iff {dom node other : α} (idom : IsIdom edge entry dom node) :
    Dominates edge entry other node ↔ other = node ∨ Dominates edge entry other dom := by
  constructor
  · intro dominates
    by_cases same : other = node
    · exact .inl same
    · exact .inr (idom.closest other same dominates)
  · rintro (rfl | dominates)
    · exact Dominates.refl other
    · exact dominates.trans idom.dominates

theorem IsIdom.unique {left right node : α} (reachable : Relation.ReflTransGen edge entry node)
    (first : IsIdom edge entry left node) (second : IsIdom edge entry right node) :
    left = right := by
  have leftReachable : Relation.ReflTransGen edge entry left := by
    rcases Walk.of_reachable reachable with ⟨nodes, walk⟩
    rcases walk.stopAt (first.dominates nodes walk) with ⟨before, shorter, -⟩
    exact shorter.reachable
  have rightLeft := first.closest right second.different second.dominates
  have leftRight := second.closest left first.different first.dominates
  exact (rightLeft.antisymm leftReachable leftRight).symm

end LeechJit.Dominance
