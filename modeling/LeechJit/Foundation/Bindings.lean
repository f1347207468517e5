import Mathlib.Data.List.Forall2
import Mathlib.Data.List.Nodup

/-! # Names bound one after the other

Every name in a list of bindings is replaced by what is bound to it, in the order of
the list and in the bindings that are left as well. What is bound may be a name of
another binding, so a name stands for the value its bindings lead to.
-/

namespace LeechJit.Bindings

variable {α : Type*}

/-- A member of the one list and what two relations have in its place in the other. -/
theorem exists_of_mem {β : Type*} {first second : α → β → Prop} {before : List α}
    {after : List β} {value : α}
    (related : List.Forall₂ first before after) (also : List.Forall₂ second before after)
    (member : value ∈ before) : ∃ now ∈ after, first value now ∧ second value now := by
  induction related with
  | nil => cases member
  | cons head _ induction =>
      cases also with
      | cons headAlso alsoRest =>
          cases member with
          | head => exact ⟨_, List.mem_cons_self, head, headAlso⟩
          | tail _ later =>
              rcases induction alsoRest later with ⟨now, nowMem, both⟩
              exact ⟨now, List.mem_cons_of_mem _ nowMem, both⟩

/-- Related lists have related members beside what they are zipped with. -/
theorem exists_of_mem_zip {β γ : Type*} {related : α → β → Prop} {before : List α}
    {after : List β} {marks : List γ} {now : β} {mark : γ}
    (all : List.Forall₂ related before after) (matched : (now, mark) ∈ after.zip marks) :
    ∃ value, (value, mark) ∈ before.zip marks ∧ related value now := by
  induction all generalizing marks with
  | nil => simp at matched
  | cons head _ induction =>
      cases marks with
      | nil => simp at matched
      | cons _ marks =>
          rw [List.zip_cons_cons, List.mem_cons] at matched
          rcases matched with equal | later
          · cases equal
            exact ⟨_, List.mem_cons_self, head⟩
          · rcases induction later with ⟨value, matched, isRelated⟩
            exact ⟨value, List.mem_cons_of_mem _ matched, isRelated⟩

/-- The value that the bindings lead to. -/
inductive Resolves (bindings : List (α × α)) : α → α → Prop
  | free {value : α} (unbound : value ∉ bindings.map Prod.fst) : Resolves bindings value value
  | bound {name arg value : α} (binding : (name, arg) ∈ bindings)
      (later : Resolves bindings arg value) : Resolves bindings name value

namespace Resolves

variable {bindings rest : List (α × α)} {name value other : α}

theorem not_mem (resolves : Resolves bindings name value) : value ∉ bindings.map Prod.fst := by
  induction resolves with
  | free unbound => exact unbound
  | bound _ _ induction => exact induction

theorem eq_of_not_mem (resolves : Resolves bindings name value)
    (unbound : name ∉ bindings.map Prod.fst) : value = name := by
  cases resolves with
  | free => rfl
  | bound binding _ => exact absurd (List.mem_map_of_mem binding) unbound

theorem nil_iff : Resolves [] name value ↔ value = name := by
  constructor
  · exact fun resolves => resolves.eq_of_not_mem (by simp)
  · rintro rfl
    exact free (by simp)

/-- Names that are bound once stand for one value each. -/
theorem unique (once : (bindings.map Prod.fst).Nodup) (resolves : Resolves bindings name value)
    (also : Resolves bindings name other) : value = other := by
  induction resolves with
  | free unbound => exact (also.eq_of_not_mem unbound).symm
  | bound binding _ induction =>
      cases also with
      | free unbound => exact absurd (List.mem_map_of_mem binding) unbound
      | bound otherBinding later =>
          cases List.inj_on_of_nodup_map once binding otherBinding rfl
          exact induction later

/-- A name that is bound to nothing but itself stands for no value. -/
theorem ne_of_self (isBound : name ∈ bindings.map Prod.fst)
    (onlySelf : ∀ arg, (name, arg) ∈ bindings → arg = name) {start : α}
    (resolves : Resolves bindings start value) : start ≠ name := by
  induction resolves with
  | free unbound =>
      rintro rfl
      exact unbound isBound
  | bound binding _ induction =>
      rintro rfl
      exact induction (onlySelf _ binding)

theorem not_self (once : name ∉ rest.map Prod.fst) :
    ¬ Resolves ((name, name) :: rest) name value := by
  intro resolves
  refine resolves.ne_of_self (by simp) ?_ rfl
  intro arg binding
  cases binding with
  | head => rfl
  | tail _ later => exact absurd (List.mem_map_of_mem later) once

/-- Where nothing that is bound is a name, the names stand for what is bound to them. -/
theorem iff_mem (unbound : ∀ binding ∈ bindings, binding.2 ∉ bindings.map Prod.fst)
    (isBound : name ∈ bindings.map Prod.fst) :
    Resolves bindings name value ↔ (name, value) ∈ bindings := by
  constructor
  · intro resolves
    cases resolves with
    | free notBound => exact absurd isBound notBound
    | bound binding later =>
        cases later.eq_of_not_mem (unbound _ binding)
        exact binding
  · exact fun binding => bound binding (free (unbound _ binding))

end Resolves

/-! ## Binding the first name -/

variable [DecidableEq α] {rest : List (α × α)} {name arg value target : α}

def subst (name arg value : α) : α :=
  if value = name then arg else value

@[simp] theorem subst_self : subst name arg name = arg := if_pos rfl

theorem subst_of_ne (different : value ≠ name) : subst name arg value = value := if_neg different

theorem subst_ne (different : arg ≠ name) : subst name arg value ≠ name := by
  by_cases isName : value = name
  · rw [isName, subst_self]
    exact different
  · rw [subst_of_ne isName]
    exact isName

/-- The bindings that are left when the name is replaced. -/
def bindFirst (name arg : α) (rest : List (α × α)) : List (α × α) :=
  rest.map (Prod.map id (subst name arg))

@[simp] theorem bindFirst_names : (bindFirst name arg rest).map Prod.fst = rest.map Prod.fst := by
  simp [bindFirst, Function.comp_def]

theorem zip_map_subst (names args : List α) :
    names.zip (args.map (subst name arg)) = bindFirst name arg (names.zip args) :=
  List.zip_map_right ..

namespace Resolves

theorem bindFirst (different : arg ≠ name) (once : name ∉ rest.map Prod.fst)
    (resolves : Resolves ((name, arg) :: rest) value target) :
    Resolves (bindFirst name arg rest) (subst name arg value) target := by
  induction resolves with
  | free unbound =>
      rw [List.map_cons, List.mem_cons, not_or] at unbound
      rw [subst_of_ne unbound.1]
      exact free (by simpa using unbound.2)
  | @bound first second target binding _ induction =>
      cases binding with
      | head =>
          rw [subst_of_ne different] at induction
          rwa [subst_self]
      | tail _ binding =>
          have notName : first ≠ name := by
            rintro rfl
            exact once (List.mem_map_of_mem binding)
          rw [subst_of_ne notName]
          exact bound (List.mem_map_of_mem binding) induction

/-- A value stands for what it is replaced by. -/
theorem of_subst (resolves : Resolves ((name, arg) :: rest) (subst name arg value) target) :
    Resolves ((name, arg) :: rest) value target := by
  by_cases isName : value = name
  · subst isName
    rw [subst_self] at resolves
    exact bound List.mem_cons_self resolves
  · rwa [subst_of_ne isName] at resolves

theorem of_bindFirst (different : arg ≠ name) (notName : value ≠ name)
    (resolves : Resolves (Bindings.bindFirst name arg rest) value target) :
    Resolves ((name, arg) :: rest) value target := by
  induction resolves with
  | free unbound =>
      apply free
      rw [List.map_cons, List.mem_cons, not_or]
      exact ⟨notName, by simpa using unbound⟩
  | bound binding _ induction =>
      rcases List.mem_map.mp binding with ⟨⟨first, second⟩, member, equal⟩
      cases equal
      have later := (induction (subst_ne different)).of_subst
      exact bound (List.mem_cons_of_mem _ member) later

/-- Replacing the first name does not change what a value stands for. -/
theorem cons_iff (different : arg ≠ name) (once : name ∉ rest.map Prod.fst) :
    Resolves ((name, arg) :: rest) value target ↔
      Resolves (Bindings.bindFirst name arg rest) (subst name arg value) target := by
  constructor
  · exact Resolves.bindFirst different once
  · exact fun resolves => (resolves.of_bindFirst different (subst_ne different)).of_subst

end Resolves

end LeechJit.Bindings
