import Mathlib.Data.List.Infix
import Mathlib.Data.List.Nodup
import Mathlib.Logic.Relation

/-! # Nested groups

Groups hold values and other groups. Where no value and no group is held twice,
the values of a group and of the groups in it are all different, and two groups
with a common value lie one in the other.
-/

namespace LeechJit.Nesting

inductive Item (ι α : Type) where
  | leaf (value : α)
  | group (name : ι)
  deriving DecidableEq, Repr

variable {ι α : Type}

def Item.values (inner : ι → List α) : Item ι α → List α
  | .leaf value => [value]
  | .group name => inner name

/-- The values of a group, in order, to a depth of nesting. -/
def expand (items : ι → List (Item ι α)) : Nat → ι → List α
  | 0, _ => []
  | depth + 1, name => (items name).flatMap (Item.values (expand items depth))

/-- The groups for which `valid` holds contain each other without sharing. -/
structure Nested (items : ι → List (Item ι α)) (rank : ι → Nat) (valid : ι → Prop) : Prop where
  valid_inner : ∀ outer inner, valid outer → .group inner ∈ items outer → valid inner
  rank_inner : ∀ outer inner, valid outer → .group inner ∈ items outer → rank inner < rank outer
  nodup : ∀ name, valid name → (items name).Nodup
  leaf_unique : ∀ left right value, valid left → valid right →
    .leaf value ∈ items left → .leaf value ∈ items right → left = right
  group_unique : ∀ left right inner, valid left → valid right →
    .group inner ∈ items left → .group inner ∈ items right → left = right

variable {items : ι → List (Item ι α)} {rank : ι → Nat} {valid : ι → Prop}

/-- `inner` is a group of `outer`. -/
def Directly (items : ι → List (Item ι α)) (valid : ι → Prop) (inner outer : ι) : Prop :=
  valid outer ∧ .group inner ∈ items outer

def Inside (items : ι → List (Item ι α)) (valid : ι → Prop) : ι → ι → Prop :=
  Relation.ReflTransGen (Directly items valid)

namespace Nested

/-- Another rank does as well if inner groups have a lower one. -/
theorem rerank (nested : Nested items rank valid) {other : ι → Nat}
    (lower : ∀ outer inner, valid outer → .group inner ∈ items outer → other inner < other outer) :
    Nested items other valid :=
  { nested with rank_inner := lower }

theorem inside_valid (nested : Nested items rank valid) {inner outer : ι}
    (inside : Inside items valid inner outer) (outerValid : valid outer) :
    valid inner ∧ (inner = outer ∨ rank inner < rank outer) := by
  induction inside using Relation.ReflTransGen.head_induction_on with
  | refl => exact ⟨outerValid, .inl rfl⟩
  | head first _ induction =>
      have lower := nested.rank_inner _ _ first.1 first.2
      refine ⟨nested.valid_inner _ _ first.1 first.2, .inr ?_⟩
      rcases induction.2 with rfl | below
      · exact lower
      · exact Nat.lt_trans lower below

/-- Two groups around one lie one in the other. -/
theorem inside_total (nested : Nested items rank valid) {name left right : ι}
    (inLeft : Inside items valid name left) (inRight : Inside items valid name right) :
    Inside items valid left right ∨ Inside items valid right left := by
  apply Relation.ReflTransGen.total_of_right_unique _ inLeft inRight
  intro inner one other inOne inOther
  exact nested.group_unique one other inner inOne.1 inOther.1 inOne.2 inOther.2

theorem mem_expand (nested : Nested items rank valid) {depth : Nat} {name : ι}
    (isValid : valid name) (deep : rank name < depth) {value : α} :
    value ∈ expand items depth name ↔
      ∃ inner, Inside items valid inner name ∧ .leaf value ∈ items inner := by
  induction depth generalizing name with
  | zero => exact absurd deep (Nat.not_lt_zero _)
  | succ depth induction =>
      simp only [expand, List.mem_flatMap]
      constructor
      · rintro ⟨item, member, isValue⟩
        cases item with
        | leaf other =>
            cases List.mem_singleton.mp isValue
            exact ⟨name, .refl, member⟩
        | group inner =>
            have lower := nested.rank_inner _ _ isValid member
            have innerValid := nested.valid_inner _ _ isValid member
            rcases (induction innerValid (by omega)).mp isValue with ⟨lowest, inside, held⟩
            exact ⟨lowest, inside.tail ⟨isValid, member⟩, held⟩
      · rintro ⟨inner, inside, held⟩
        rcases Relation.ReflTransGen.cases_tail inside with rfl | ⟨middle, below, direct⟩
        · exact ⟨.leaf value, held, List.mem_singleton_self value⟩
        · have lower := nested.rank_inner _ _ isValid direct.2
          have middleValid := nested.valid_inner _ _ isValid direct.2
          exact ⟨.group middle, direct.2,
            (induction middleValid (by omega)).mpr ⟨inner, below, held⟩⟩

theorem expand_subset (nested : Nested items rank valid) {depth : Nat} {inner outer : ι}
    (inside : Inside items valid inner outer) (outerValid : valid outer)
    (deep : rank outer < depth) :
    expand items depth inner ⊆ expand items depth outer := by
  intro value member
  have innerValid := nested.inside_valid inside outerValid
  have innerDeep : rank inner < depth := by
    rcases innerValid.2 with rfl | lower
    · exact deep
    · omega
  rcases (nested.mem_expand innerValid.1 innerDeep).mp member with ⟨lowest, below, held⟩
  exact (nested.mem_expand outerValid deep).mpr ⟨lowest, below.trans inside, held⟩

/-- Only groups of lower rank are written out on the way. -/
theorem expand_depth (nested : Nested items rank valid) {depth other : Nat} {name : ι}
    (isValid : valid name) (deep : rank name < depth) (otherDeep : rank name < other) :
    expand items depth name = expand items other name := by
  induction depth generalizing other name with
  | zero => exact absurd deep (Nat.not_lt_zero _)
  | succ depth induction =>
      cases other with
      | zero => exact absurd otherDeep (Nat.not_lt_zero _)
      | succ other =>
          rw [expand, expand]
          apply List.flatMap_congr
          intro item member
          cases item with
          | leaf value => rfl
          | group inner =>
              have lower := nested.rank_inner _ _ isValid member
              exact induction (nested.valid_inner _ _ isValid member) (by omega) (by omega)

/-- A group is written out in one piece. -/
theorem expand_infix (nested : Nested items rank valid) {depth : Nat} {inner outer : ι}
    (inside : Inside items valid inner outer) (outerValid : valid outer)
    (deep : rank outer < depth) : expand items depth inner <:+: expand items depth outer := by
  induction inside using Relation.ReflTransGen.head_induction_on with
  | refl => exact List.infix_rfl
  | @head first middle direct above induction =>
      refine List.IsInfix.trans ?_ induction
      have lower := nested.rank_inner _ _ direct.1 direct.2
      have middleDeep : rank middle < depth := by
        rcases (nested.inside_valid above outerValid).2 with rfl | below
        · exact deep
        · omega
      cases depth with
      | zero => exact absurd deep (Nat.not_lt_zero _)
      | succ depth =>
          have firstValid := nested.valid_inner _ _ direct.1 direct.2
          have same : expand items (depth + 1) first = expand items depth first :=
            nested.expand_depth firstValid (by omega) (by omega)
          rw [same, expand]
          have piece := ((List.singleton_infix_iff _ _).mpr direct.2).flatMap
            (Item.values (expand items depth))
          simpa [Item.values] using piece

/-- Groups with a common value lie one in the other. -/
theorem inside_of_common (nested : Nested items rank valid) {left right : ι} {value : α}
    {leftDepth rightDepth : Nat} (leftValid : valid left) (leftDeep : rank left < leftDepth)
    (rightValid : valid right) (rightDeep : rank right < rightDepth)
    (inLeft : value ∈ expand items leftDepth left)
    (inRight : value ∈ expand items rightDepth right) :
    Inside items valid left right ∨ Inside items valid right left := by
  rcases (nested.mem_expand leftValid leftDeep).mp inLeft with ⟨one, oneInside, oneHolds⟩
  rcases (nested.mem_expand rightValid rightDeep).mp inRight with
    ⟨other, otherInside, otherHolds⟩
  cases nested.leaf_unique one other value (nested.inside_valid oneInside leftValid).1
    (nested.inside_valid otherInside rightValid).1 oneHolds otherHolds
  exact nested.inside_total oneInside otherInside

/-- A group is not inside its neighbour. -/
theorem not_inside_of_direct (nested : Nested items rank valid) {outer left right : ι}
    (outerValid : valid outer) (leftDirect : .group left ∈ items outer)
    (rightDirect : .group right ∈ items outer) (different : left ≠ right) :
    ¬ Inside items valid left right := by
  intro inside
  rcases Relation.ReflTransGen.cases_head inside with equal | ⟨middle, direct, above⟩
  · exact different equal
  · -- The only group that holds the left one is the outer one.
    cases nested.group_unique middle outer left direct.1 outerValid direct.2 leftDirect
    have lower := nested.rank_inner _ _ outerValid rightDirect
    rcases (nested.inside_valid above
      (nested.valid_inner _ _ outerValid rightDirect)).2 with rfl | below
    · omega
    · omega

/-- Two items of a group have no value in common. -/
theorem apart (nested : Nested items rank valid) {depth : Nat} {name : ι}
    (isValid : valid name) (deep : rank name < depth + 1) {first second : Item ι α}
    (firstMem : first ∈ items name) (secondMem : second ∈ items name)
    (different : first ≠ second) {value : α}
    (inFirst : value ∈ first.values (expand items depth))
    (inSecond : value ∈ second.values (expand items depth)) : False := by
  -- A value of an inner group is held by a group of lower rank.
  have below : ∀ inner, .group inner ∈ items name → value ∈ expand items depth inner →
      ∃ lowest, valid lowest ∧ rank lowest < rank name ∧ .leaf value ∈ items lowest := by
    intro inner member isValue
    have lower := nested.rank_inner _ _ isValid member
    have innerValid := nested.valid_inner _ _ isValid member
    rcases (nested.mem_expand innerValid (by omega)).mp isValue with ⟨lowest, inside, held⟩
    have lowestValid := nested.inside_valid inside innerValid
    refine ⟨lowest, lowestValid.1, ?_, held⟩
    rcases lowestValid.2 with rfl | less
    · exact lower
    · omega
  have notBoth : ∀ inner, .group inner ∈ items name → value ∈ expand items depth inner →
      .leaf value ∉ items name := by
    intro inner member isValue held
    rcases below inner member isValue with ⟨lowest, lowestValid, lower, lowestHolds⟩
    cases nested.leaf_unique lowest name value lowestValid isValid lowestHolds held
    omega
  cases first with
  | leaf one =>
      cases List.mem_singleton.mp inFirst
      cases second with
      | leaf other =>
          cases List.mem_singleton.mp inSecond
          exact different rfl
      | group inner => exact notBoth inner secondMem inSecond firstMem
  | group left =>
      cases second with
      | leaf other =>
          cases List.mem_singleton.mp inSecond
          exact notBoth left firstMem inFirst secondMem
      | group right =>
          have unequal : left ≠ right := fun equal => different (congrArg Item.group equal)
          have leftLower := nested.rank_inner _ _ isValid firstMem
          have rightLower := nested.rank_inner _ _ isValid secondMem
          rcases nested.inside_of_common (nested.valid_inner _ _ isValid firstMem)
            (Nat.lt_of_lt_of_le leftLower (Nat.le_of_lt_succ deep))
            (nested.valid_inner _ _ isValid secondMem)
            (Nat.lt_of_lt_of_le rightLower (Nat.le_of_lt_succ deep)) inFirst inSecond with
            inside | inside
          · exact nested.not_inside_of_direct isValid firstMem secondMem unequal inside
          · exact nested.not_inside_of_direct isValid secondMem firstMem unequal.symm inside

theorem expand_nodup (nested : Nested items rank valid) {depth : Nat} {name : ι}
    (isValid : valid name) (deep : rank name < depth) : (expand items depth name).Nodup := by
  induction depth generalizing name with
  | zero => exact absurd deep (Nat.not_lt_zero _)
  | succ depth induction =>
      rw [expand, List.nodup_flatMap]
      constructor
      · intro item member
        cases item with
        | leaf value => exact List.nodup_singleton value
        | group inner =>
            have lower := nested.rank_inner _ _ isValid member
            exact induction (nested.valid_inner _ _ isValid member) (by omega)
      · apply (nested.nodup name isValid).pairwise_of_forall_ne
        intro first firstMem second secondMem different value inFirst inSecond
        exact nested.apart isValid deep firstMem secondMem different inFirst inSecond

end Nested

end LeechJit.Nesting
