import ReWizard.Lib.Loop
import ReWizard.Lib.OrdMap
import ReWizard.Lib.Cycle
import ReWizard.Lib.BlockPath
import ReWizard.Lib.Reorder
import ReWizard.Lib.Multimap
import ReWizard.Lib.WrapRange
import ReWizard.Lib.Digits
import ReWizard.Lib.BreadthFirst
import ReWizard.Lib.History
import ReWizard.Lib.Overlay
import ReWizard.Analysis.PassManager
import ReWizard.Analysis.Proof.TopologicalSort
import ReWizard.Analysis.Proof.RunAll
import ReWizard.Analysis.Disassembler
import ReWizard.Analysis.Machine
import ReWizard.Analysis.Units
import ReWizard.Analysis.Module
import ReWizard.Analysis.Proof.FunctionLookup
import ReWizard.Analysis.StaticControlFlowRebuilder
import ReWizard.Analysis.Proof.DecodeStep
import ReWizard.Analysis.Proof.Exploration
import ReWizard.Analysis.Fragment
import ReWizard.Analysis.Proof.DiscoveryLoop
import ReWizard.Analysis.Proof.Completeness
import ReWizard.Analysis.Proof.Normalize
import ReWizard.Analysis.Proof.BlockCover
import ReWizard.Analysis.Proof.BlockEdges
import ReWizard.Analysis.AbstractInterpretation
import ReWizard.Analysis.Proof.OpaquePredicates
import ReWizard.Analysis.DataFlow
import ReWizard.Analysis.ImportAnalysis
import ReWizard.Analysis.OpaquePredicate
import ReWizard.Analysis.HybridAnalysis
import ReWizard.Analysis.Pipeline
import ReWizard.Analysis.Proof.Alike
import ReWizard.Analysis.Proof.IndirectTargets
import ReWizard.Analysis.Proof.AddedCallSites
import ReWizard.Analysis.Proof.Lockstep
import ReWizard.Analysis.Proof.SimilarPasses
import ReWizard.Analysis.Proof.Confluence
import ReWizard.Analysis.Proof.Filing
import ReWizard.Analysis.Proof.FunctionReach
import ReWizard.Analysis.Proof.RebuilderCalls
import ReWizard.Analysis.Proof.Termination
import ReWizard.Analysis.Proof.SharedState
import ReWizard.Analysis.AnalyzePointers
import ReWizard.Analysis.Proof.PointerSafety
import ReWizard.Analysis.Proof.AddedFunctions
import ReWizard.Analysis.Proof.ReAnalyzeAll
import ReWizard.Analysis.Proof.Verdicts
import ReWizard.Analysis.Proof.CallSites
import ReWizard.Analysis.Proof.TraceOrder
import ReWizard.Analysis.Proof.Layout
import ReWizard.Analysis.Proof.DeadEdges
import ReWizard.Analysis.Proof.NormalizedBlocks
import ReWizard.Analysis.Proof.NormalizePass
import ReWizard.Analysis.Proof.Predecessors
import ReWizard.Analysis.Proof.BlockMetadata
import ReWizard.Analysis.Proof.ControlFlowGraph
import ReWizard.Analysis.XrefManager
import ReWizard.Analysis.SymbolTable
import ReWizard.Analysis.AnalysisResult
import ReWizard.Analysis.Proof.DotExport
import ReWizard.Analysis.Proof.DotText
import ReWizard.Analysis.Proof.DecodeWindows
import ReWizard.Analysis.Proof.XrefCoverage
import ReWizard.Analysis.Proof.Provenance
import ReWizard.IR.LlvmModule
import ReWizard.IR.Lifter
import ReWizard.IR.LLVMOptimizer
import ReWizard.IR.IRPasses
import ReWizard.IR.Proof.LiftBasicBlock
import ReWizard.IR.Proof.IRReferences
import ReWizard.Lib.Table
import ReWizard.Lib.Transaction
import ReWizard.Database.AnalysisDatabase
import ReWizard.Database.Proof.SaveModule
import ReWizard.Database.Persistence
import ReWizard.Database.Proof.XrefSession
import ReWizard.Database.Proof.AnnotationSession
import ReWizard.Database.Proof.Collections
import ReWizard.FileLoader.FileLoader
import ReWizard.FileLoader.Proof.CopyBounds
import ReWizard.FileLoader.Proof.RelocationBounds
import ReWizard.Lib.PositionIndex
import ReWizard.Hybrid.SimpleTraceReader
import ReWizard.Hybrid.Proof.TraceIndex
import ReWizard.Analysis.Proof.EdgeRemoval
import ReWizard.Analysis.Proof.BranchVerdicts
import ReWizard.Analysis.Proof.TracedTargets
import ReWizard.Analysis.Proof.HybridEvidence
import ReWizard.Analysis.Proof.RegisterTracking
import ReWizard.Lib.Worklist
import ReWizard.Analysis.FunctionDisassembly
import ReWizard.Analysis.Proof.Traversals
import ReWizard.Lib.LineOrder
import ReWizard.Analysis.Proof.FunctionBounds
import ReWizard.Analysis.Proof.SweptStarts
import ReWizard.Lib.ResidueRange
import ReWizard.Lib.BitwiseRange
import ReWizard.Analysis.RegisterWrites
import ReWizard.Analysis.Proof.WrittenRegisters
import ReWizard.Analysis.Proof.TransferSoundness
import ReWizard.Hybrid.Proof.FailedLoad
import ReWizard.Analysis.Proof.IntervalSoundness
import ReWizard.Analysis.Proof.BitwiseSoundness
import ReWizard.Analysis.Proof.ShiftSoundness
import ReWizard.Hybrid.BochsInstrumentationBridge
import ReWizard.Hybrid.BochsExecutor
import ReWizard.Hybrid.Proof.PageWrites
import ReWizard.Hybrid.Proof.EmulatorSession
import ReWizard.Hybrid.Proof.GuestState
import ReWizard.Hybrid.Proof.TracedRuns
import ReWizard.FileLoader.Proof.ExecutableRanges
import ReWizard.FileLoader.Proof.FailedLoads
import ReWizard.Lib.LocalUpdate
import ReWizard.FileLoader.Proof.RelocationEffect
import ReWizard.FileLoader.Proof.LoadedImage
import ReWizard.Database.Proof.BatchSaves
import ReWizard.Database.Proof.UnansweredLoads
import ReWizard.Lib.SignedOrder
import ReWizard.Database.Proof.QueryOrder
import ReWizard.Lib.Ledger
import ReWizard.Lib.Relabel
import ReWizard.Database.Proof.SaveSession
import ReWizard.Memory.MemoryMapper
import ReWizard.Analysis.AnalysisContext
import ReWizard.Analysis.Proof.ContextLifetimes
import ReWizard.Analysis.Proof.RelabelledBlocks
import ReWizard.Analysis.Proof.MovedImage
import ReWizard.Analysis.Proof.MovedRuns
import ReWizard.Analysis.Proof.MovedPasses
import ReWizard.Analysis.Proof.Settling
