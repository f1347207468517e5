import Mathlib.Data.List.Perm.Basic

/-! # A loop over a vector that erases from it

A loop over the slots of a vector that erases the values it reads: the values behind
an erased one move up by one slot, the slot given up keeps its value, and the loop
goes on to the next slot for as many rounds as there were values at its start.
-/

namespace LeechJit.EraseLoop

variable {α : Type*} [DecidableEq α]

/-- The rounds from slot `index` on. The vector holds `values`, in front of the slots it has given
up; there is no result when a value that is read is not in the vector any more. -/
def eraseLoop (values slots : List α) : Nat → Nat → Option (List α)
  | _, 0 => some values
  | index, rounds + 1 =>
      match slots[index]? with
      | none => none
      | some value =>
          if value ∈ values then
            let left := values.erase value
            eraseLoop left (left ++ slots.drop left.length) (index + 1) rounds
          else none

omit [DecidableEq α] in
/-- The values at the odd positions, counted from zero. -/
def everySecond : List α → List α
  | _ :: second :: rest => second :: everySecond rest
  | _ => []

example : eraseLoop [1, 2, 2, 2] [1, 2, 2, 2] 0 4 = some [] := by decide
example : eraseLoop [1, 2, 3] [1, 2, 3] 0 3 = none := by decide

theorem eraseLoop_read {values slots : List α} {index rounds : Nat} {value : α}
    (read : slots[index]? = some value) (member : value ∈ values) :
    eraseLoop values slots index (rounds + 1) =
      eraseLoop (values.erase value)
        (values.erase value ++ slots.drop (values.erase value).length) (index + 1) rounds := by
  simp [eraseLoop, read, member]

theorem eraseLoop_stuck {values slots : List α} {index rounds : Nat} {value : α}
    (read : slots[index]? = some value) (absent : value ∉ values) :
    eraseLoop values slots index (rounds + 1) = none := by
  simp [eraseLoop, read, absent]

omit [DecidableEq α] in
/-- Slots behind the vector stay as they are. -/
theorem slot_behind {left slots : List α} {slot : Nat} (behind : left.length ≤ slot) :
    (left ++ slots.drop left.length)[slot]? = slots[slot]? := by
  rw [List.getElem?_append_right behind, List.getElem?_drop, Nat.add_sub_cancel' behind]

/-- Once the loop is behind the vector it reads the same value over and over. -/
theorem eraseLoop_stale (last : α) {values slots : List α} {index : Nat}
    (stale : ∀ slot, index ≤ slot → slot < index + values.length → slots[slot]? = some last)
    (behind : values.length ≤ index) :
    eraseLoop values slots index values.length = some [] ↔ ∀ value ∈ values, value = last := by
  induction size : values.length generalizing values slots index with
  | zero =>
      have none : values = [] := List.eq_nil_of_length_eq_zero size
      simp [eraseLoop, none]
  | succ rounds induction =>
      have read := stale index (Nat.le_refl index) (by omega)
      by_cases member : last ∈ values
      · have shorter : (values.erase last).length = rounds := by
          rw [List.length_erase_of_mem member, size, Nat.add_sub_cancel]
        have same : ∀ value, value ∈ values ↔ value ∈ last :: values.erase last :=
          fun value => (List.perm_cons_erase member).mem_iff
        rw [eraseLoop_read read member, induction _ _ shorter]
        · simp [same]
        · intro slot after inside
          rw [slot_behind (by omega)]
          exact stale slot (by omega) (by omega)
        · omega
      · rw [eraseLoop_stuck read member]
        have some : values ≠ [] := List.ne_nil_of_length_pos (by omega)
        rcases List.exists_mem_of_ne_nil values some with ⟨value, isValue⟩
        simp only [reduceCtorEq, false_iff]
        intro all
        exact member (all value isValue ▸ isValue)

/-- Erasing a value that is read moves the one behind it up. -/
theorem erase_read (kept rest : List α) (first second : α) :
    ∃ kept', (kept ++ first :: second :: rest).erase first = kept' ++ rest ∧
      kept'.Perm (kept ++ [second]) := by
  by_cases earlier : first ∈ kept
  · refine ⟨kept.erase first ++ [first, second], ?_, ?_⟩
    · rw [List.erase_append_left _ earlier]
      simp
    · have back : (first :: kept.erase first).Perm kept := (List.perm_cons_erase earlier).symm
      calc kept.erase first ++ [first, second]
          _ = (kept.erase first ++ [first]) ++ [second] := by simp
          _ |>.Perm ((first :: kept.erase first) ++ [second]) :=
            (List.perm_append_singleton first _).append_right _
          _ |>.Perm (kept ++ [second]) := back.append_right _
  · refine ⟨kept ++ [second], ?_, List.Perm.refl _⟩
    rw [List.erase_append_right _ earlier]
    simp

/-- The loop erases the value it is at, and reads the slots behind it from then on. -/
theorem eraseLoop_one (last : α) (kept : List α) (value : α) :
    eraseLoop (kept ++ [value]) (kept ++ [value] ++ List.replicate kept.length last) kept.length
        (kept ++ [value]).length = some [] ↔ ∀ value ∈ kept, value = last := by
  have member : value ∈ kept ++ [value] := by simp
  have perm : ((kept ++ [value]).erase value).Perm kept :=
    ((List.perm_cons_erase member).symm.trans (List.perm_append_singleton value kept)).cons_inv
  have size : (kept ++ [value]).length = ((kept ++ [value]).erase value).length + 1 := by
    simp [perm.length_eq]
  have read : (kept ++ [value] ++ List.replicate kept.length last)[kept.length]? = some value := by
    simp
  rw [size, eraseLoop_read read member, eraseLoop_stale last _ (by simp [perm.length_eq])]
  · simp [perm.mem_iff]
  · intro slot behind inside
    rw [perm.length_eq] at inside
    rw [slot_behind (by simp [perm.length_eq]; omega), List.getElem?_append_right (by simp; omega)]
    apply List.getElem?_replicate_of_lt
    simp
    omega

/-- As long as the loop is inside the vector it erases every other of the values that it had at
its start, and leaves the last one behind in every slot it gives up. -/
theorem eraseLoop_inside (last : α) (kept rest : List α)
    (isLast : ∀ value, rest.getLast? = some value → value = last) :
    eraseLoop (kept ++ rest) (kept ++ rest ++ List.replicate kept.length last) kept.length
        (kept ++ rest).length = some [] ↔
      (∀ value ∈ kept, value = last) ∧ ∀ value ∈ everySecond rest, value = last := by
  induction rest using everySecond.induct generalizing kept with
  | case1 first second rest induction =>
      rcases erase_read kept rest first second with ⟨kept', erased, perm⟩
      have keptSize : kept'.length = kept.length + 1 := by simpa using perm.length_eq
      have size : (kept ++ first :: second :: rest).length = (kept' ++ rest).length + 1 := by
        simp [keptSize]
        omega
      have split : (kept ++ first :: second :: rest).dropLast ++ [last] =
          kept ++ first :: second :: rest := by
        apply List.dropLast_append_getLast?
        cases found : (first :: second :: rest).getLast? with
        | none => simp at found
        | some value => simp [List.getLast?_append, found, isLast value found]
      -- The slot that is given up holds the last value.
      have given : (kept ++ first :: second :: rest ++ List.replicate kept.length last).drop
          (kept' ++ rest).length = List.replicate kept'.length last := by
        have front : (kept ++ first :: second :: rest).dropLast.length =
            (kept' ++ rest).length := by
          rw [List.length_dropLast, size, Nat.add_sub_cancel]
        rw [← split, List.append_assoc, ← front, List.drop_left, keptSize]
        rfl
      have restLast : ∀ value, rest.getLast? = some value → value = last := by
        intro value found
        apply isLast value
        rw [List.getLast?_cons, List.getLast?_cons, found]
        rfl
      have read : (kept ++ first :: second :: rest ++
          List.replicate kept.length last)[kept.length]? = some first := by simp
      rw [size, eraseLoop_read read (by simp), erased, given, ← keptSize,
        induction kept' restLast]
      simp [perm.mem_iff, everySecond, or_imp, forall_and, and_assoc]
  | case2 rest short =>
      cases rest with
      | nil =>
          rw [List.append_nil, eraseLoop_stale last _ (Nat.le_refl _)]
          · simp [everySecond]
          · intro slot behind inside
            rw [List.getElem?_append_right behind]
            exact List.getElem?_replicate_of_lt (by omega)
      | cons value rest =>
          cases rest with
          | cons second rest => exact absurd rfl (short value second rest)
          | nil =>
              rw [eraseLoop_one last kept value]
              simp [everySecond]

/-- The loop takes every value out exactly when every second value is the last one. -/
theorem eraseLoop_eq_nil_iff (values : List α) :
    eraseLoop values values 0 values.length = some [] ↔
      ∀ value ∈ everySecond values, values.getLast? = some value := by
  cases found : values.getLast? with
  | none =>
      have none : values = [] := List.getLast?_eq_none_iff.mp found
      simp [none, eraseLoop, everySecond]
  | some last =>
      have inside := eraseLoop_inside last [] values
        fun value isLast => Option.some.inj (isLast.symm.trans found)
      simpa [eq_comm] using inside

end LeechJit.EraseLoop
