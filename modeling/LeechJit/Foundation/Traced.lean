import LeechJit.Common

/-! # Computations that note what they do -/

namespace LeechJit

/-- What a computation has noted up to its end or its fault, and how it ended. -/
structure Traced (Event α : Type) where
  events : List Event
  result : Result α

namespace Traced

variable {Event State Item α β : Type} {event : Event}

def quiet (result : Result α) : Traced Event α :=
  { events := [], result := result }

def noted (event : Event) (result : Result α) : Traced Event α :=
  { events := [event], result := result }

def bind (first : Traced Event α) (next : α → Traced Event β) : Traced Event β :=
  match first.result with
  | .ok value =>
      { events := first.events ++ (next value).events, result := (next value).result }
  | .error fault => { events := first.events, result := .error fault }

instance : Monad (Traced Event) where
  pure value := quiet (.ok value)
  bind := bind

@[simp] theorem quiet_ok_bind (value : α) (next : α → Traced Event β) :
    (quiet (.ok value) >>= next) = next value := rfl

@[simp] theorem result_quiet (result : Result α) :
    (quiet result : Traced Event α).result = result := rfl

@[simp] theorem events_quiet (result : Result α) :
    (quiet result : Traced Event α).events = [] := rfl

@[simp] theorem result_noted (result : Result α) : (noted event result).result = result := rfl

@[simp] theorem events_noted (result : Result α) : (noted event result).events = [event] := rfl

@[simp] theorem result_pure (value : α) : (pure value : Traced Event α).result = .ok value := rfl

@[simp] theorem events_pure (value : α) : (pure value : Traced Event α).events = [] := rfl

/-- Noting changes nothing. -/
@[simp] theorem result_bind (first : Traced Event α) (next : α → Traced Event β) :
    (first >>= next).result = first.result >>= fun value => (next value).result := by
  change (bind first next).result = _
  unfold bind
  cases first.result <;> rfl

theorem events_bind {first : Traced Event α} {value : α} (ended : first.result = .ok value)
    (next : α → Traced Event β) :
    (first >>= next).events = first.events ++ (next value).events := by
  change (bind first next).events = _
  unfold bind
  rw [ended]

theorem events_noted_bind {result : Result α} {value : α} (ended : result = .ok value)
    (next : α → Traced Event β) :
    (noted event result >>= next).events = event :: (next value).events :=
  events_bind (ended : (noted event result).result = .ok value) next

theorem mem_events_bind {first : Traced Event α} {next : α → Traced Event β} :
    event ∈ (first >>= next).events ↔
      event ∈ first.events ∨ ∃ value, first.result = .ok value ∧ event ∈ (next value).events := by
  change event ∈ (bind first next).events ↔ _
  unfold bind
  cases first.result <;> simp

theorem result_foldlM (step : State → Item → Traced Event State) (items : List Item)
    (state : State) : (items.foldlM step state).result =
      items.foldlM (fun state item => (step state item).result) state := by
  induction items generalizing state with
  | nil => rfl
  | cons item rest induction =>
      simp only [List.foldlM_cons, result_bind]
      congr 1
      funext next
      exact induction next

/-- What a loop notes up to one of its items, at it, and after it. -/
theorem events_foldlM_split {step : State → Item → Traced Event State} {front back : List Item}
    {item : Item} {state middle next : State}
    (first : (front.foldlM step state).result = .ok middle)
    (here : (step middle item).result = .ok next) :
    ((front ++ item :: back).foldlM step state).events =
      (front.foldlM step state).events ++ (step middle item).events ++
        (back.foldlM step next).events := by
  induction front generalizing state with
  | nil =>
      cases first
      rw [List.nil_append, List.foldlM_cons, events_bind here]
      rfl
  | cons head rest induction =>
      rw [List.foldlM_cons, result_bind] at first
      rcases Result.bind_eq_ok.mp first with ⟨value, stepped, running⟩
      rw [List.cons_append, List.foldlM_cons, events_bind stepped, induction running,
        List.foldlM_cons, events_bind stepped]
      simp only [List.append_assoc]

end Traced

end LeechJit
