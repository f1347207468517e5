import LeechJit.IntrusiveList.Runs
import LeechJit.Analysis.LinearScan
import LeechJit.Analysis.AllocationSound
import LeechJit.Analysis.LoopOrder
import LeechJit.Analysis.LoopExact
import LeechJit.Analysis.LoopCycles
import LeechJit.Opt.ChecksExact
import LeechJit.Opt.FoldingValues
import LeechJit.Opt.KnownBlocks
import LeechJit.Opt.PhiCopies
import LeechJit.Opt.SsaValid
import LeechJit.Graph.DomTreeExact
import LeechJit.Opt.InlineEdges
import LeechJit.Graph.DomTreeRooted
import LeechJit.Graph.DfsBackEdges
import LeechJit.IR.DeadBlocks
import LeechJit.Opt.InlineIds
import LeechJit.Analysis.LiveTight
import LeechJit.IR.EdgesInStep
import LeechJit.Analysis.AllocationOrder
import LeechJit.Opt.InlineMatching
import LeechJit.Foundation.SignedRange
import LeechJit.Opt.FoldingExact
import LeechJit.IR.Detach
import LeechJit.Analysis.ScanRoom
import LeechJit.Analysis.ScanPoints
import LeechJit.Foundation.Traced
import LeechJit.Opt.ChecksCalls
import LeechJit.Opt.ChecksUntouched
import LeechJit.Analysis.LoopFlags
import LeechJit.Foundation.Steps
import LeechJit.IR.Coherence
import LeechJit.Opt.PeepHoleValues
import LeechJit.Opt.PeepHoleMirrors
import LeechJit.Opt.PeepHoleFlows
import LeechJit.Opt.MergedShifts
import LeechJit.Opt.PeepHoleResults
import LeechJit.Foundation.EraseLoop
import LeechJit.Graph.DfsParents
import LeechJit.Graph.DomTreeParents
import LeechJit.Graph.DsuRuns
import LeechJit.IR.UpdateLinks
import LeechJit.Foundation.Bindings
import LeechJit.IR.BuiltShapes
import LeechJit.Opt.InlineArguments
import LeechJit.Analysis.AllocationAcyclic
import LeechJit.Analysis.ScanFewest
import LeechJit.IR.Progress
import LeechJit.Opt.FoldingFlows
import LeechJit.Opt.FoldingResults
import LeechJit.Opt.PassesResults
import LeechJit.Opt.ChecksResults
import LeechJit.IR.Grounded
import LeechJit.IR.MoreValues
import LeechJit.Opt.InlineBody
import LeechJit.Opt.InlineResults
import LeechJit.Analysis.LoopRuns
import LeechJit.Foundation.Availability
import LeechJit.IR.SameBody
import LeechJit.Opt.InlineAvailable
import LeechJit.Opt.InlineGrounded
import LeechJit.Opt.InlineLedger
import LeechJit.Opt.InlineOthers
import LeechJit.Opt.InlineRun
