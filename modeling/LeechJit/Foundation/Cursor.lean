import Mathlib.Data.List.Nodup
import Mathlib.Data.List.TakeWhile

/-! # Sequences addressed by their own elements

A position in a duplicate-free sequence is named by the element that stands
there, and the position behind the last element by a value that is not in the
sequence. These are the iterators of a linked list, read on plain lists.
-/

namespace LeechJit.Cursor

variable {α : Type*} [DecidableEq α]

/-- The elements in front of `pos`. -/
def upTo (pos : α) (values : List α) : List α :=
  values.takeWhile (· ≠ pos)

/-- The elements from `pos` on. -/
def onward (pos : α) (values : List α) : List α :=
  values.dropWhile (· ≠ pos)

/-- Put `inserted` just before `pos`. -/
def insertAt (pos : α) (inserted values : List α) : List α :=
  upTo pos values ++ inserted ++ onward pos values

/-- The half-open segment `[first, last)`. -/
def slice (first last : α) (values : List α) : List α :=
  upTo last (onward first values)

/-- What is left when the segment `[first, last)` is taken out. -/
def cut (first last : α) (values : List α) : List α :=
  upTo first values ++ onward last values

/-- `[first, last)` is a range of `values`, where `stop` names the position
behind the last element. -/
def IsRange (stop first last : α) (values : List α) : Prop :=
  (first = stop ∧ last = stop) ∨
    (first ∈ values ∧ (last = stop ∨ last ∈ onward first values))

instance (stop first last : α) (values : List α) :
    Decidable (IsRange stop first last values) :=
  inferInstanceAs (Decidable (_ ∨ _))

example : slice 2 4 [1, 2, 3, 4, 5] = [2, 3] := rfl

@[simp] theorem upTo_append_onward (pos : α) (values : List α) :
    upTo pos values ++ onward pos values = values :=
  List.takeWhile_append_dropWhile

theorem upTo_of_not_mem {pos : α} {values : List α} (absent : pos ∉ values) :
    upTo pos values = values := by
  apply List.takeWhile_eq_self_iff.mpr
  intro value member
  have different : value ≠ pos := fun equal => absent (equal ▸ member)
  simpa using different

theorem onward_of_not_mem {pos : α} {values : List α} (absent : pos ∉ values) :
    onward pos values = [] := by
  apply List.dropWhile_eq_nil_iff.mpr
  intro value member
  have different : value ≠ pos := fun equal => absent (equal ▸ member)
  simpa using different

theorem upTo_append_cons {pos : α} {front : List α} (back : List α)
    (absent : pos ∉ front) : upTo pos (front ++ pos :: back) = front := by
  induction front with
  | nil => simp [upTo]
  | cons head tail induction =>
      have different : head ≠ pos := fun equal => absent (by simp [equal])
      have inTail : pos ∉ tail := fun member => absent (by simp [member])
      simpa [upTo, different] using induction inTail

theorem onward_append_cons {pos : α} {front : List α} (back : List α)
    (absent : pos ∉ front) :
    onward pos (front ++ pos :: back) = pos :: back := by
  have whole := upTo_append_onward pos (front ++ pos :: back)
  rw [upTo_append_cons back absent] at whole
  exact List.append_cancel_left whole

/-- A position is the first element of what follows it, or the end. -/
theorem exists_split {stop pos : α} {values : List α}
    (position : pos = stop ∨ pos ∈ values) (nodup : (stop :: values).Nodup) :
    ∃ front back, values = front ++ back ∧ (back ++ [stop]).head? = some pos ∧
      upTo pos values = front ∧ onward pos values = back := by
  have stopAbsent : stop ∉ values := (List.nodup_cons.mp nodup).1
  rcases position with atEnd | member
  · subst atEnd
    exact ⟨values, [], by simp, by simp, upTo_of_not_mem stopAbsent,
      onward_of_not_mem stopAbsent⟩
  · rcases List.append_of_mem member with ⟨front, back, rfl⟩
    have parts := List.nodup_append.mp (List.nodup_cons.mp nodup).2
    have absent : pos ∉ front := fun inFront =>
      parts.2.2 pos inFront pos (by simp) rfl
    exact ⟨front, pos :: back, rfl, by simp, upTo_append_cons back absent,
      onward_append_cons back absent⟩

/-- A range splits the sequence into the part in front of it, the range and
the part behind it. -/
theorem IsRange.exists_split {stop first last : α} {values : List α}
    (range : IsRange stop first last values) (nodup : (stop :: values).Nodup) :
    ∃ front middle back, values = front ++ middle ++ back ∧
      (middle ++ back ++ [stop]).head? = some first ∧
      (back ++ [stop]).head? = some last ∧
      slice first last values = middle ∧ cut first last values = front ++ back := by
  have stopAbsent : stop ∉ values := (List.nodup_cons.mp nodup).1
  rcases range with ⟨rfl, rfl⟩ | ⟨firstMember, lastPosition⟩
  · refine ⟨values, [], [], by simp, by simp, by simp, ?_, ?_⟩
    · simp [slice, onward_of_not_mem stopAbsent, upTo]
    · simp [cut, onward_of_not_mem stopAbsent, upTo_of_not_mem stopAbsent]
  · rcases Cursor.exists_split (.inr firstMember) nodup with
      ⟨front, rest, rfl, firstHead, frontEq, restEq⟩
    have restNodup : (stop :: rest).Nodup :=
      nodup.sublist ((List.sublist_append_right front rest).cons_cons stop)
    rw [restEq] at lastPosition
    rcases Cursor.exists_split lastPosition restNodup with
      ⟨middle, back, rfl, lastHead, middleEq, backEq⟩
    refine ⟨front, middle, back, by simp, firstHead, lastHead, ?_, ?_⟩
    · rw [slice, restEq, middleEq]
    · have backWhole : onward last (front ++ (middle ++ back)) = back := by
        rcases lastPosition with atEnd | member
        · subst atEnd
          rw [onward_of_not_mem stopAbsent]
          rw [onward_of_not_mem (List.nodup_cons.mp restNodup).1] at backEq
          exact backEq
        · have lastAbsent : last ∉ front := fun inFront =>
            (List.nodup_append.mp (List.nodup_cons.mp nodup).2).2.2
              last inFront last member rfl
          rcases List.append_of_mem member with ⟨before, after, equal⟩
          have inBefore : last ∉ before := by
            intro inBefore
            have whole := (List.nodup_cons.mp restNodup).2
            rw [equal] at whole
            exact (List.nodup_append.mp whole).2.2 last inBefore last (by simp) rfl
          rw [equal, onward_append_cons after inBefore] at backEq
          rw [equal, ← List.append_assoc,
            onward_append_cons after (by simp [lastAbsent, inBefore])]
          exact backEq
      rw [cut, frontEq, backWhole]

end LeechJit.Cursor
