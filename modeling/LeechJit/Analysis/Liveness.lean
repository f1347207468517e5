import Mathlib.Logic.Function.Basic
import LeechJit.Analysis.LinearOrder
import LeechJit.IR.Function
import LeechJit.IR.LiveInterval

/-! # The liveness analyzer

The numbers the source writes into instructions and blocks are kept in maps of
their own.
-/

namespace LeechJit.Analysis

open IR LeechJit.Graph

/-! ## Numbers -/

def kLiveNumStep : Nat := 2

def kLinNumStep : Nat := 1

structure LiveNumbers where
  linearNum : InstId → Nat := fun _ => 0
  liveNum : InstId → Nat := fun _ => 0
  liveInterval : BlockId → LiveInterval := fun _ => {}
  curLin : Nat := 0
  curLive : Nat := 0

/-- What `fillLiveNumbers` does at one instruction. -/
def numberInst (store : Store) (bbLiveNum : Nat) (numbers : LiveNumbers) (id : InstId) :
    Result LiveNumbers := do
  let inst ← store.inst id
  let isPhi := inst.kind.isPhi
  let curLive := if isPhi then numbers.curLive else numbers.curLive + kLiveNumStep
  return { numbers with
    liveNum := Function.update numbers.liveNum id (if isPhi then bbLiveNum else curLive)
    linearNum := Function.update numbers.linearNum id numbers.curLin
    curLin := numbers.curLin + kLinNumStep
    curLive := curLive }

/-- And at one block. -/
def numberBlock (store : Store) (numbers : LiveNumbers) (bb : BlockId) :
    Result LiveNumbers := do
  let block ← store.block bb
  let bbLiveNum := numbers.curLive
  let numbers ← block.instructions.foldlM (numberInst store bbLiveNum) numbers
  let curLive := numbers.curLive + kLiveNumStep
  let interval ← LiveInterval.make bbLiveNum curLive
  return { numbers with
    liveInterval := Function.update numbers.liveInterval bb interval
    curLive := curLive }

def fillLiveNumbers (store : Store) (linearOrder : List BlockId) : Result LiveNumbers :=
  linearOrder.foldlM (numberBlock store) {}

/-! ## Live ranges -/

/-- A set, kept as a list. -/
abbrev LiveSet := List InstId

structure LiveRanges where
  liveSets : BlockId → Option LiveSet := fun _ => none
  liveIntervals : InstId → Option LiveInterval := fun _ => none
  toZero : List InstId := []

namespace LiveRanges

def setLiveInterval (ranges : LiveRanges) (val : InstId) (interval : LiveInterval) :
    LiveRanges :=
  { ranges with
    liveIntervals := Function.update ranges.liveIntervals val (some interval) }

def updateLiveInterval (ranges : LiveRanges) (val : InstId) (interval : LiveInterval) :
    LiveRanges :=
  match ranges.liveIntervals val with
  | none => ranges.setLiveInterval val interval
  | some old => ranges.setLiveInterval val (old.update interval)

end LiveRanges

/-- The operands that the entries of a phi bring from `bb`. -/
def addPhiInputs (store : Store) (bb : BlockId) (set : LiveSet) (id : InstId) :
    Result LiveSet := do
  let inst ← store.inst id
  match inst.kind with
  | .kPhi vars => return set ∪ (vars.filter fun entry => entry.bb = bb).map PhiEntry.val
  | _ => return set

/-- `processSucc`; a block that is its own successor finds the set being filled. -/
def processSucc (store : Store) (liveSets : BlockId → Option LiveSet) (bb : BlockId)
    (set : LiveSet) (succ : BlockId) : Result LiveSet :=
  match if succ = bb then some set else liveSets succ with
  | none => .ok set
  | some succLiveSet => do
      let block ← store.block succ
      block.instructions.foldlM (addPhiInputs store bb) (set ∪ succLiveSet)

def calcInitLiveSet (store : Store) (graph : Graph BlockId)
    (liveSets : BlockId → Option LiveSet) (bb : BlockId) : Result LiveSet := do
  assert (liveSets bb = none)
  (graph.succs bb).foldlM (processSucc store liveSets bb) []

/-- The operands `processInputs` consumes. -/
def consumedInputs (inst : Inst) : Result (List InstId) :=
  match inst.kind with
  | .kBinOp _ => do
      let left ← inst.inputAt 0
      let right ← inst.inputAt 1
      return [left, right]
  | .kUnaryOp _ | .kCast | .kRet | .kIf _ _ => do
      let input ← inst.inputAt 0
      return [input]
  | .kCall _ => .ok inst.inputs
  | .kParam _ | .kConst _ | .kJump _ | .kPhi _ => .ok []

def consumeInput (bbLiveNum liveNum : Nat) (state : LiveSet × LiveRanges) (val : InstId) :
    Result (LiveSet × LiveRanges) := do
  let (set, ranges) := state
  let interval ← LiveInterval.make bbLiveNum liveNum
  return (set.insert val, ranges.updateLiveInterval val interval)

/-- `processInputs`. -/
def processInputs (inst : Inst) (bbLiveNum liveNum : Nat) (state : LiveSet × LiveRanges) :
    Result (LiveSet × LiveRanges) := do
  let inputs ← consumedInputs inst
  inputs.foldlM (consumeInput bbLiveNum liveNum) state

/-- The interval of an instruction once its definition is met. -/
def startInterval (liveNum : Nat) : Option LiveInterval → Result LiveInterval
  | none => LiveInterval.make liveNum (liveNum + kLiveNumStep)
  | some old => old.setStart liveNum

/-- What `calcLiveRanges` does at one instruction, from the last to the first. -/
def calcInstRange (store : Store) (numbers : LiveNumbers) (bbLiveNum : Nat)
    (state : LiveSet × LiveRanges) (id : InstId) : Result (LiveSet × LiveRanges) := do
  let inst ← store.inst id
  if inst.kind.isPhi then return state
  let (set, ranges) := state
  let liveNum := numbers.liveNum id
  let interval ← startInterval liveNum (ranges.liveIntervals id)
  processInputs inst bbLiveNum liveNum
    (set.filter fun val => val ≠ id, ranges.setLiveInterval id interval)

/-- Phis are no longer live; what produces no value is remembered. -/
def finishInst (store : Store) (state : LiveSet × List InstId) (id : InstId) :
    Result (LiveSet × List InstId) := do
  let inst ← store.inst id
  let (set, toZero) := state
  return (if inst.kind.isPhi then set.filter fun val => val ≠ id else set,
    if producesValue inst.kind then toZero else toZero ++ [id])

/-- A value live into a loop is live in all of it. -/
def extendOverLoop (start «end» : Nat) (ranges : LiveRanges) (val : InstId) :
    Result LiveRanges := do
  let interval ← LiveInterval.make start «end»
  return ranges.updateLiveInterval val interval

/-- What `calcLiveRanges` does at one block. -/
def calcBlockRange (store : Store) (graph : Graph BlockId) (loops : LoopAnalyzer BlockId)
    (numbers : LiveNumbers) (ranges : LiveRanges) (bb : BlockId) : Result LiveRanges := do
  let block ← store.block bb
  let bbInterval := numbers.liveInterval bb
  let initLiveSet ← calcInitLiveSet store graph ranges.liveSets bb
  let ranges := initLiveSet.foldl (fun ranges val =>
    ranges.updateLiveInterval val bbInterval) ranges
  let (set, ranges) ← block.instructions.reverse.foldlM
    (calcInstRange store numbers bbInterval.start) (initLiveSet, ranges)
  let (set, toZero) ← block.instructions.foldlM (finishInst store) (set, ranges.toZero)
  let ranges := { ranges with
    liveSets := Function.update ranges.liveSets bb (some set)
    toZero := toZero }
  let loopInfo ← loops.getLoopInfo bb
  if loopInfo.header = some bb ∧ loopInfo.reducible then do
    let lastBB ← loops.getLastBB loops.depth loopInfo
    set.foldlM (extendOverLoop bbInterval.start (numbers.liveInterval lastBB).end) ranges
  else return ranges

/-- An instruction that produces no value gets an empty interval. -/
def zeroInterval (ranges : LiveRanges) (id : InstId) : Result LiveRanges :=
  match ranges.liveIntervals id with
  | none => .error .assertFailed
  | some liveIn => do
      let interval ← liveIn.setEnd liveIn.start
      return ranges.setLiveInterval id interval

def calcLiveRanges (store : Store) (graph : Graph BlockId) (loops : LoopAnalyzer BlockId)
    (numbers : LiveNumbers) (linearOrder : List BlockId) : Result LiveRanges := do
  let ranges ← linearOrder.reverse.foldlM (calcBlockRange store graph loops numbers) {}
  ranges.toZero.foldlM zeroInterval ranges

/-! ## The analyzer -/

structure LivenessAnalyzer where
  loops : LoopAnalyzer BlockId
  linearOrder : List BlockId
  numbers : LiveNumbers
  ranges : LiveRanges

namespace LivenessAnalyzer

def make (store : Store) (graph : Graph BlockId) : Result LivenessAnalyzer := do
  let loops ← LoopAnalyzer.make graph
  let linearOrder ← buildLinearOrder graph loops
  assert (validateLinOrder linearOrder)
  let numbers ← fillLiveNumbers store linearOrder
  let ranges ← calcLiveRanges store graph loops numbers linearOrder
  return { loops, linearOrder, numbers, ranges }

def getLiveInterval (analyzer : LivenessAnalyzer) (val : InstId) : Option LiveInterval :=
  analyzer.ranges.liveIntervals val

end LivenessAnalyzer

end LeechJit.Analysis
