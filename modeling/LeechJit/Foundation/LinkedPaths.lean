import Mathlib.Logic.Function.Basic
import Mathlib.Order.Basic

/-! # Paths of links to smaller numbers

A number with a link hangs below a smaller one, so the way up from every number ends at
a root. The least value on a way up is found from the way of one of its numbers and a
label for the rest: this is what path compression has to keep.
-/

namespace LeechJit.LinkedPaths

variable {links : Nat → Option Nat} {value : Nat → Nat}

def Descending (links : Nat → Option Nat) : Prop :=
  ∀ node parent, links node = some parent → parent < node

/-- `upper` is on the way up from a number, which starts at the number itself. -/
inductive Above (links : Nat → Option Nat) (upper : Nat) : Nat → Prop
  | refl : Above links upper upper
  | step {node parent : Nat} (link : links node = some parent) (above : Above links upper parent) :
      Above links upper node

namespace Above

variable {upper other node middle root : Nat}

theorem le (descending : Descending links) (above : Above links upper node) : upper ≤ node := by
  induction above with
  | refl => exact Nat.le_refl _
  | step link _ induction => exact Nat.le_of_lt (Nat.lt_of_le_of_lt induction (descending _ _ link))

theorem trans (first : Above links upper middle) (second : Above links middle node) :
    Above links upper node := by
  induction second with
  | refl => exact first
  | step link _ induction => exact induction.step link

/-- The way up does not branch. -/
theorem total (first : Above links upper node) (second : Above links other node) :
    Above links upper other ∨ Above links other upper := by
  induction first with
  | refl => exact .inr second
  | @step node parent link above induction =>
      cases second with
      | refl => exact .inl (above.step link)
      | step otherLink behind =>
          rw [link] at otherLink
          cases otherLink
          exact induction behind

theorem of_le (descending : Descending links) (first : Above links upper node)
    (second : Above links other node) (le : upper ≤ other) : Above links upper other := by
  rcases first.total second with above | below
  · exact above
  · have same : upper = other := Nat.le_antisymm le (below.le descending)
    exact same ▸ refl

theorem eq_root (isRoot : links root = none) (above : Above links upper root) : upper = root := by
  cases above with
  | refl => rfl
  | step link _ =>
      rw [isRoot] at link
      cases link

/-- The root is on top of the way up. -/
theorem root_above (isRoot : links root = none) (rootAbove : Above links root node)
    (above : Above links upper node) : Above links root upper := by
  rcases rootAbove.total above with onTop | below
  · exact onTop
  · rw [below.eq_root isRoot]
    exact refl

end Above

/-! ## The least value on the way up -/

/-- Of the numbers on the way up from `node`, the first one where `value` is least. -/
structure IsBest (links : Nat → Option Nat) (value : Nat → Nat) (node best : Nat) : Prop where
  above : Above links best node
  least : ∀ other, Above links other node → value best ≤ value other
  first : ∀ other, Above links other node → best < other → value best < value other

theorem IsBest.of_root {node : Nat} (isRoot : links node = none) :
    IsBest links value node node where
  above := .refl
  least other above := Nat.le_of_eq (by rw [above.eq_root isRoot])
  first other above less := by
    rw [above.eq_root isRoot] at less
    exact absurd less (Nat.lt_irrefl _)

/-- What `node` knows of the way up to `parent`: `label` is best below `parent`, or `parent`
itself is better. -/
structure Hangs (links : Nat → Option Nat) (value : Nat → Nat) (node parent label : Nat) :
    Prop where
  parent_lt : parent < node
  label_below : Above links parent label
  label_above : Above links label node
  least : ∀ other, Above links other node → parent < other → value label ≤ value other
  first : ∀ other, Above links other node → label < other → value label < value other

theorem Hangs.parent_above {node parent label : Nat}
    (hangs : Hangs links value node parent label) : Above links parent node :=
  hangs.label_below.trans hangs.label_above

/-- The way to `node` through `parent`, when `upper` is best for `parent`. -/
theorem Hangs.combine {node parent label upper : Nat} (descending : Descending links)
    (hangs : Hangs links value node parent label) (best : IsBest links value parent upper) :
    let chosen := if value upper < value label then upper else label
    Hangs links value node upper chosen ∧ IsBest links value node chosen := by
  have upperLe := best.above.le descending
  have parentLt := hangs.parent_lt
  have upperAbove := best.above.trans hangs.parent_above
  have behind : ∀ other, Above links other node → upper < other →
      value upper < value other ∨ value label ≤ value other := by
    intro other above less
    by_cases inside : other ≤ parent
    · exact .inl (best.first other (above.of_le descending hangs.parent_above inside) less)
    · exact .inr (hangs.least other above (by omega))
  have before : ∀ other, Above links other node → other ≤ upper → value upper ≤ value other :=
    fun other above le => best.least other
      ((above.of_le descending upperAbove le).trans best.above)
  by_cases better : value upper < value label
  · simp only [better, if_true]
    have strict : ∀ other, Above links other node → upper < other → value upper < value other := by
      intro other above less
      have cases := behind other above less
      omega
    refine ⟨⟨by omega, .refl, upperAbove,
      fun other above less => Nat.le_of_lt (strict other above less), strict⟩,
      upperAbove, fun other above => ?_, strict⟩
    by_cases below : upper < other
    · exact Nat.le_of_lt (strict other above below)
    · exact before other above (by omega)
  · simp only [better, if_false]
    have least : ∀ other, Above links other node → upper < other → value label ≤ value other := by
      intro other above less
      have cases := behind other above less
      omega
    refine ⟨⟨by omega, best.above.trans hangs.label_below, hangs.label_above, least,
      hangs.first⟩, hangs.label_above, fun other above => ?_, hangs.first⟩
    by_cases below : upper < other
    · exact least other above below
    · have isLess := before other above (by omega)
      omega

/-! ## A root is linked -/

section Link

variable {node parent : Nat}

theorem Descending.link (descending : Descending links) (less : parent < node) :
    Descending (Function.update links node (some parent)) := by
  intro other upper link
  by_cases same : other = node
  · subst same
    rw [Function.update_self, Option.some.injEq] at link
    omega
  · rw [Function.update_of_ne same] at link
    exact descending other upper link

theorem Above.link {upper lower : Nat} (isRoot : links node = none)
    (above : Above links upper lower) :
    Above (Function.update links node (some parent)) upper lower := by
  induction above with
  | refl => exact .refl
  | @step lower middle link _ induction =>
      have different : lower ≠ node := by
        rintro rfl
        rw [isRoot] at link
        cases link
      apply induction.step
      rwa [Function.update_of_ne different]

/-- What is on the way up now was so before, or it is on the way up from the new parent. -/
theorem Above.of_link {upper lower : Nat}
    (above : Above (Function.update links node (some parent)) upper lower) :
    Above links upper lower ∨
      (Above links node lower ∧
        Above (Function.update links node (some parent)) upper parent) := by
  induction above with
  | refl => exact .inl .refl
  | @step lower middle link above induction =>
      by_cases same : lower = node
      · subst same
        rw [Function.update_self, Option.some.injEq] at link
        subst link
        exact .inr ⟨.refl, above⟩
      · rw [Function.update_of_ne same] at link
        rcases induction with old | ⟨below, new⟩
        · exact .inl (old.step link)
        · exact .inr ⟨below.step link, new⟩

theorem Hangs.link {lower upper label : Nat} (descending : Descending links)
    (isRoot : links node = none) (less : parent < node)
    (hangs : Hangs links value lower upper label) :
    Hangs (Function.update links node (some parent)) value lower upper label := by
  -- What is new on the way up is above the old root.
  have old : ∀ other, Above (Function.update links node (some parent)) other lower →
      upper < other ∨ label < other → Above links other lower := by
    intro other above below
    rcases above.of_link with isOld | ⟨rootAbove, new⟩
    · exact isOld
    · have rootLe := (Above.root_above isRoot rootAbove hangs.parent_above).le descending
      have labelLe := hangs.label_below.le descending
      have otherLe := new.le (descending.link less)
      omega
  exact ⟨hangs.parent_lt, hangs.label_below.link isRoot,
    hangs.label_above.link isRoot,
    fun other above below => hangs.least other (old other above (.inl below)) below,
    fun other above below => hangs.first other (old other above (.inr below)) below⟩

/-- A root that is linked hangs below its new parent. -/
theorem Hangs.of_link (descending : Descending links) (less : parent < node) :
    Hangs (Function.update links node (some parent)) value node parent node := by
  have above : Above (Function.update links node (some parent)) parent node :=
    .step (Function.update_self ..) .refl
  have onTop : ∀ other, Above (Function.update links node (some parent)) other node →
      other ≤ node := fun other isAbove => isAbove.le (descending.link less)
  refine ⟨less, above, .refl, fun other isAbove below => ?_, fun other isAbove below => ?_⟩
  · have same : other = node := by
      rcases isAbove with _ | ⟨link, behind⟩
      · rfl
      · rw [Function.update_self, Option.some.injEq] at link
        subst link
        have otherLe := behind.le (descending.link less)
        omega
    exact Nat.le_of_eq (by rw [same])
  · have le := onTop other isAbove
    omega

end Link

/-! ## The value of a root changes -/

/-- `label` may be the root whose value changes if the new value is still below those behind. -/
theorem Hangs.change {node parent label root new : Nat} (descending : Descending links)
    (isRoot : links root = none)
    (keeps : label = root → ∀ other, Above links other node → root < other → new < value other)
    (hangs : Hangs links value node parent label) :
    Hangs links (Function.update value root new) node parent label := by
  have below : ∀ other, Above links other node → parent < other → other ≠ root := by
    rintro other above less rfl
    have onTop := (Above.root_above isRoot above hangs.parent_above).le descending
    omega
  have parentLe := hangs.label_below.le descending
  refine ⟨hangs.parent_lt, hangs.label_below, hangs.label_above,
    fun other above less => ?_, fun other above less => ?_⟩
  · rw [Function.update_of_ne (below other above less)]
    by_cases same : label = root
    · have onTop : parent = root := (same ▸ hangs.label_below).eq_root isRoot
      have rootLe : root < other := onTop ▸ less
      rw [same, Function.update_self]
      exact Nat.le_of_lt (keeps same other above rootLe)
    · rw [Function.update_of_ne same]
      exact hangs.least other above less
  · rw [Function.update_of_ne (below other above (by omega))]
    by_cases same : label = root
    · rw [same, Function.update_self]
      exact keeps same other above (same ▸ less)
    · rw [Function.update_of_ne same]
      exact hangs.first other above less

end LeechJit.LinkedPaths
