import Mathlib.Data.Fintype.Card
import Mathlib.Data.Set.Finite.Basic

/-! # The outermost of the members above one

In a list ordered by a strict partial order there is something above which nothing lies.
-/

namespace LeechJit

variable {α : Type*} {ids : List α} {above : α → α → Prop} {start : α}

/-- Going up from a member ends at one with nothing above it. -/
theorem exists_outermost (irrefl : ∀ id ∈ ids, ¬ above id id)
    (trans : ∀ first ∈ ids, ∀ second ∈ ids, ∀ third ∈ ids,
      above first second → above second third → above first third) (member : start ∈ ids) :
    ∃ top ∈ ids, (top = start ∨ above top start) ∧ ∀ other ∈ ids, ¬ above other top := by
  let upper : { id // id ∈ ids } → { id // id ∈ ids } → Prop :=
    fun first second => above first.1 second.1
  have finite : Finite { id // id ∈ ids } := List.finite_toSet ids
  have notAboveItself : Std.Irrefl upper := ⟨fun id => irrefl id.1 id.2⟩
  have chains : IsTrans { id // id ∈ ids } upper :=
    ⟨fun first second third => trans _ first.2 _ second.2 _ third.2⟩
  have wellFounded := Finite.wellFounded_of_trans_of_irrefl upper
  have climb : ∀ id : { id // id ∈ ids }, ∃ top ∈ ids, (top = id.1 ∨ above top id.1) ∧
      ∀ other ∈ ids, ¬ above other top := by
    intro id
    induction id using wellFounded.induction with
    | h id induction =>
        cases Classical.em (∃ other ∈ ids, above other id.1) with
        | inr none => exact ⟨id.1, id.2, .inl rfl, fun other otherMem up => none ⟨other, otherMem, up⟩⟩
        | inl some =>
            rcases some with ⟨other, otherMem, up⟩
            rcases induction ⟨other, otherMem⟩ up with ⟨top, topMem, same | upper, none⟩
            · exact ⟨top, topMem, .inr (same ▸ up), none⟩
            · exact ⟨top, topMem, .inr (trans top topMem other otherMem id.1 id.2 upper up), none⟩
  exact climb ⟨start, member⟩

end LeechJit
