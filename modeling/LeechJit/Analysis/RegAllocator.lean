import Mathlib.Data.List.Sort
import LeechJit.Analysis.Liveness
import LeechJit.Analysis.RegAlloc

/-! # The register allocator -/

namespace LeechJit.Analysis

open IR

structure Location where
  locId : Nat
  stack : Bool
  deriving DecidableEq, Repr

structure RegAllocator where
  liveAnalyzer : LivenessAnalyzer
  liveIntervals : List InstId
  scan : ScanState InstId

namespace RegAllocator

/-- The interval under a key of the map. -/
def interval (analyzer : LivenessAnalyzer) (val : InstId) : LiveInterval :=
  (analyzer.getLiveInterval val).getD {}

/-- `keys` are the keys of the map of live intervals in the order it is iterated. -/
def buildSortedLiveIntervals (analyzer : LivenessAnalyzer) (keys : List InstId) :
    List InstId :=
  (keys.filter fun val => !(interval analyzer val).empty).insertionSort fun left right =>
    (interval analyzer left).start ≤ (interval analyzer right).start

def make (store : Store) (graph : Graph BlockId) (keys : List InstId) :
    Result RegAllocator := do
  let liveAnalyzer ← LivenessAnalyzer.make store graph
  let liveIntervals := buildSortedLiveIntervals liveAnalyzer keys
  let scan ← linearScan liveIntervals (interval liveAnalyzer)
  return { liveAnalyzer, liveIntervals, scan }

/-- The scan has written the locations into the intervals of the map. -/
def getLocation (allocator : RegAllocator) (val : InstId) : Option Location :=
  match allocator.liveAnalyzer.getLiveInterval val with
  | none => none
  | some _ =>
      let interval := allocator.scan.intervals val
      if interval.empty then none
      else some { locId := interval.locationId, stack := interval.onStack }

end RegAllocator

end LeechJit.Analysis
