import Mathlib.Logic.Relation
import Mathlib.Tactic.ByContra

/-! # Semidominators in a numbered graph

The nodes are numbers. A high path enters its target with every node in between
numbered above the target; the semidominator of a node is the least number a
high path to it starts from.
-/

namespace LeechJit.Semidominator

variable {step : Nat → Nat → Prop}

/-- A step to a node above `floor`. -/
def StepAbove (step : Nat → Nat → Prop) (floor left right : Nat) : Prop :=
  step left right ∧ floor < right

def HighPath (step : Nat → Nat → Prop) (source target : Nat) : Prop :=
  ∃ last, Relation.ReflTransGen (StepAbove step target) source last ∧ step last target

structure IsSemi (step : Nat → Nat → Prop) (node semi : Nat) : Prop where
  path : HighPath step semi node
  least : ∀ source, HighPath step source node → semi ≤ source

/-- Of the positions from `low` to `high`, the last one where `value` is least. -/
structure IsLatestMin (value : Nat → Nat) (low high pos : Nat) : Prop where
  low_le : low ≤ pos
  le_high : pos ≤ high
  least : ∀ other, low ≤ other → other ≤ high → value pos ≤ value other
  latest : ∀ other, pos < other → other ≤ high → value pos < value other

theorem IsLatestMin.unique {value : Nat → Nat} {low high left right : Nat}
    (first : IsLatestMin value low high left) (second : IsLatestMin value low high right) :
    left = right := by
  have firstLe := first.least right second.low_le second.le_high
  have secondLe := second.least left first.low_le first.le_high
  by_contra different
  rcases Nat.lt_or_gt_of_ne different with less | greater
  · have strict := first.latest right less second.le_high
    omega
  · have strict := second.latest left greater first.le_high
    omega

/-- The lowest node on a path above `floor` ends a high path. -/
theorem exists_lowest {floor source last : Nat}
    (path : Relation.ReflTransGen (StepAbove step floor) source last) :
    last = source ∨ ∃ low, floor < low ∧ low ≤ last ∧ HighPath step source low ∧
      Relation.ReflTransGen (fun left right => step left right ∧ low ≤ right) source last := by
  induction path with
  | refl => exact .inl rfl
  | tail before final induction =>
      rename_i middle last
      right
      cases induction with
      | inl same =>
          subst same
          exact ⟨last, final.2, Nat.le_refl last, ⟨_, .refl, final.1⟩,
            .single ⟨final.1, Nat.le_refl last⟩⟩
      | inr found =>
          rcases found with ⟨low, above, atMost, high, whole⟩
          by_cases isLower : low ≤ last
          · exact ⟨low, above, isLower, high, whole.tail ⟨final.1, isLower⟩⟩
          · have lower : last < low := Nat.lt_of_not_le isLower
            have higher : Relation.ReflTransGen (StepAbove step last) source middle :=
              Relation.ReflTransGen.mono
                (fun left right edge => ⟨edge.1, Nat.lt_of_lt_of_le lower edge.2⟩) _ _ whole
            have relaxed : Relation.ReflTransGen
                (fun left right => step left right ∧ last ≤ right) source middle :=
              Relation.ReflTransGen.mono
                (fun left right edge => ⟨edge.1, Nat.le_of_lt
                  (Nat.lt_of_lt_of_le lower edge.2)⟩) _ _ whole
            exact ⟨last, final.2, Nat.le_refl last, ⟨middle, higher, final.1⟩,
              relaxed.tail ⟨final.1, Nat.le_refl last⟩⟩

/-! ## Numbers that satisfy the semidominator equations

`edge` is the graph itself; a step is an edge or goes to the next number.
-/

/-- An edge, or a step to the next number, below `bound`. -/
def ChainStep (edge : Nat → Nat → Prop) (bound left right : Nat) : Prop :=
  left < bound ∧ right < bound ∧ (edge left right ∨ right = left + 1)

/-- What a pass over the nodes from the highest down computes at each node. -/
structure SemiEquations (edge : Nat → Nat → Prop) (bound : Nat) (value : Nat → Nat) :
    Prop where
  below : ∀ node, 0 < node → node < bound → value node < node
  direct : ∀ pred node, pred < bound → node < bound → edge pred node → value node ≤ pred
  through : ∀ pred node, pred < bound → edge pred node →
    ∀ middle, node < middle → middle ≤ pred → value node ≤ value middle
  attained : ∀ node, 0 < node → node < bound → ∃ pred, pred < bound ∧ edge pred node ∧
    (value node = pred ∨
      ∃ middle, node < middle ∧ middle ≤ pred ∧ value node = value middle)

namespace SemiEquations

variable {edge : Nat → Nat → Prop} {bound : Nat} {value : Nat → Nat}

/-- Steps to the next number lead upwards from a node to any later one. -/
theorem climb {floor start finish : Nat} (above : floor < start) (upwards : start ≤ finish)
    (inside : finish < bound) :
    Relation.ReflTransGen (StepAbove (ChainStep edge bound) floor) start finish := by
  induction upwards with
  | refl => exact .refl
  | step upwards induction =>
      rename_i finish
      have before : finish < bound := by omega
      have later : start ≤ finish := upwards
      apply (induction before).tail
      exact ⟨⟨before, inside, .inr rfl⟩, by omega⟩

theorem highPath (equations : SemiEquations edge bound value) :
    ∀ height node, bound - node ≤ height → 0 < node → node < bound →
      HighPath (ChainStep edge bound) (value node) node := by
  intro height
  induction height with
  | zero =>
      intro node enough positive inside
      omega
  | succ height induction =>
      intro node enough positive inside
      rcases equations.attained node positive inside with ⟨pred, predInside, isEdge, reached⟩
      cases reached with
      | inl equal =>
          rw [equal]
          exact ⟨pred, .refl, predInside, inside, .inl isEdge⟩
      | inr reached =>
          rcases reached with ⟨middle, above, atMost, equal⟩
          have middleInside : middle < bound := by omega
          rcases induction middle (by omega) (by omega) middleInside with ⟨last, path, final⟩
          have higher : Relation.ReflTransGen (StepAbove (ChainStep edge bound) node)
              (value node) middle := by
            rw [equal]
            have relaxed : Relation.ReflTransGen (StepAbove (ChainStep edge bound) node)
                (value middle) last :=
              Relation.ReflTransGen.mono
                (fun left right step => ⟨step.1, Nat.lt_trans above step.2⟩) _ _ path
            exact relaxed.tail ⟨final, above⟩
          exact ⟨pred, higher.trans (climb above atMost predInside),
            predInside, inside, .inl isEdge⟩

theorem least (equations : SemiEquations edge bound value) :
    ∀ height node, bound - node ≤ height → 0 < node → node < bound →
      ∀ source, HighPath (ChainStep edge bound) source node → value node ≤ source := by
  intro height
  induction height with
  | zero =>
      intro node enough positive inside
      omega
  | succ height induction =>
      rintro node enough positive inside source ⟨last, path, lastInside, -, final⟩
      have small := equations.below node positive inside
      rcases exists_lowest path with rfl | ⟨low, above, atMost, high, -⟩
      · rcases final with isEdge | next
        · exact equations.direct last node lastInside inside isEdge
        · omega
      · rcases final with isEdge | next
        · have first := equations.through last node lastInside isEdge low above atMost
          have second := induction low (by omega) (by omega) (by omega) source high
          omega
        · omega

/-- The numbers are the semidominators. -/
theorem isSemi (equations : SemiEquations edge bound value) {node : Nat}
    (positive : 0 < node) (inside : node < bound) :
    IsSemi (ChainStep edge bound) node (value node) where
  path := equations.highPath _ node (Nat.le_refl _) positive inside
  least := equations.least _ node (Nat.le_refl _) positive inside

end SemiEquations

end LeechJit.Semidominator
