/-! # Ways a computation can fail

The source aborts the process, throws, or runs into undefined behaviour; each
ends the computation, and the model keeps them apart.
-/

namespace LeechJit

inductive Fault where
  /-- `LJIT_ASSERT` -/
  | assertFailed
  /-- `LJIT_UNREACHABLE` -/
  | unreachable
  /-- `ArithmeticError` -/
  | arithmeticError (msg : String)
  /-- `std::runtime_error` -/
  | runtimeError (msg : String)
  /-- `std::out_of_range`, thrown by `unordered_map::at` -/
  | outOfRange
  /-- undefined behaviour: a null or dangling pointer is followed -/
  | badPointer
  /-- undefined behaviour: an object is read at a class it does not have -/
  | badCast
  /-- undefined behaviour: signed overflow -/
  | signedOverflow
  /-- recursion that does not end -/
  | diverges
  deriving DecidableEq, Repr

abbrev Result := Except Fault

/-- `LJIT_ASSERT(cond)`. -/
def assert (cond : Prop) [Decidable cond] : Result Unit :=
  if cond then .ok () else .error .assertFailed

@[simp] theorem assert_of (cond : Prop) [Decidable cond] (holds : cond) :
    assert cond = .ok () := if_pos holds

theorem assert_eq_ok {cond : Prop} [Decidable cond] {result : Unit} :
    assert cond = .ok result ↔ cond := by
  by_cases holds : cond <;> simp [assert, holds]

@[simp] theorem Result.ok_bind {α β : Type} (value : α) (next : α → Result β) :
    (Except.ok value >>= next) = next value := rfl

@[simp] theorem Result.error_bind {α β : Type} (fault : Fault) (next : α → Result β) :
    ((Except.error fault : Result α) >>= next) = .error fault := rfl

@[simp] theorem Result.pure_eq_ok {α : Type} (value : α) :
    (pure value : Result α) = .ok value := rfl

/-- A sequence of two computations returns when both do. -/
theorem Result.bind_eq_ok {α β : Type} {first : Result α} {next : α → Result β}
    {value : β} :
    first >>= next = .ok value ↔ ∃ mid, first = .ok mid ∧ next mid = .ok value := by
  cases first <;> simp [bind, Except.bind]

theorem Result.map_eq_ok {α β : Type} {result : Result α} {change : α → β} {value : β} :
    change <$> result = .ok value ↔ ∃ mid, result = .ok mid ∧ change mid = value := by
  cases result <;> simp [Functor.map, Except.map]

end LeechJit
