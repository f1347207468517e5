import LeechJit.Common

/-! # Live intervals -/

namespace LeechJit.IR

/-- The largest `std::size_t`. -/
def kInvalidRegId : Nat := 0xFFFFFFFFFFFFFFFF

structure LiveInterval where
  start : Nat := 0
  «end» : Nat := 0
  locationId : Nat := kInvalidRegId
  onStack : Bool := false
  deriving DecidableEq, Repr

namespace LiveInterval

def validate (interval : LiveInterval) : Result LiveInterval :=
  if interval.start > interval.end then
    .error (.runtimeError "Trying to create incorrect interval (start > end)")
  else .ok interval

/-- `LiveInterval(start, end)`. -/
def make (start «end» : Nat) : Result LiveInterval :=
  validate { start := start, «end» := «end» }

def setStart (interval : LiveInterval) (start : Nat) : Result LiveInterval :=
  validate { interval with start := start }

def setEnd (interval : LiveInterval) («end» : Nat) : Result LiveInterval :=
  validate { interval with «end» := «end» }

def moveToStack (interval : LiveInterval) : LiveInterval :=
  { interval with onStack := true }

def setLocId (interval : LiveInterval) (locId : Nat) : LiveInterval :=
  { interval with locationId := locId }

def empty (interval : LiveInterval) : Bool :=
  interval.start = interval.end

def update (interval other : LiveInterval) : LiveInterval :=
  { interval with
    start := min interval.start other.start
    «end» := max interval.end other.end }

/-- Each of two intervals starts before the other ends. -/
def Overlaps (left right : LiveInterval) : Prop :=
  left.start < right.end ∧ right.start < left.end

theorem validate_eq_ok {interval result : LiveInterval} :
    interval.validate = .ok result ↔ interval.start ≤ interval.end ∧ result = interval := by
  unfold validate
  by_cases invalid : interval.start > interval.end
  · simp [invalid, Nat.not_le_of_lt invalid]
  · simp [invalid, Nat.le_of_not_lt invalid, eq_comm]

theorem make_eq_ok {start «end» : Nat} {result : LiveInterval} :
    make start «end» = .ok result ↔
      start ≤ «end» ∧ result = { start := start, «end» := «end» } :=
  validate_eq_ok

@[simp] theorem setLocId_start (interval : LiveInterval) (locId : Nat) :
    (interval.setLocId locId).start = interval.start := rfl

@[simp] theorem setLocId_end (interval : LiveInterval) (locId : Nat) :
    (interval.setLocId locId).end = interval.end := rfl

@[simp] theorem setLocId_onStack (interval : LiveInterval) (locId : Nat) :
    (interval.setLocId locId).onStack = interval.onStack := rfl

@[simp] theorem setLocId_locationId (interval : LiveInterval) (locId : Nat) :
    (interval.setLocId locId).locationId = locId := rfl

@[simp] theorem moveToStack_start (interval : LiveInterval) :
    interval.moveToStack.start = interval.start := rfl

@[simp] theorem moveToStack_end (interval : LiveInterval) :
    interval.moveToStack.end = interval.end := rfl

@[simp] theorem moveToStack_onStack (interval : LiveInterval) :
    interval.moveToStack.onStack = true := rfl

@[simp] theorem moveToStack_locationId (interval : LiveInterval) :
    interval.moveToStack.locationId = interval.locationId := rfl

end LiveInterval

end LeechJit.IR
