import Gsim.RankedGraph
import Gsim.SortedContainers
import Gsim.TokenProtocol
import Gsim.DenseMTask
import Gsim.RuntimeSuccs
import Gsim.OwnerReadyLayout
import Gsim.OwnerReadyFacts
import Gsim.DenseExecutor
import Gsim.DenseExecutorFacts
import Gsim.StrictExecutor
import Gsim.LookaheadWorker
import Gsim.LookaheadExecutor
import Gsim.TwosComplement
import Gsim.OpFuncs
import Gsim.ConstantNode
import Gsim.FirrtlSemantics
import Gsim.ConstantFolding
import Gsim.ConstantFoldingUnary
import Gsim.ConstantFoldingExact
import Gsim.ByteStream
import Gsim.Seed2Writer
import Gsim.Seed2Reader
import Gsim.Seed2RoundTrip
import Gsim.Kahn
import Gsim.VContract
import Gsim.VContractSearch
import Gsim.VContractMerge
import Gsim.VContractLoop
import Gsim.VContractMTasks
import Gsim.VContractExact
import Gsim.OwnerReadyTags
import Gsim.LoopDetectorForest
import Gsim.LoopDetectorSorted
import Gsim.ClockGating
import Gsim.InstsDivShift
import Gsim.GuardedStatements
import Gsim.GuardedLanguage
import Gsim.StmtTree
import Gsim.StmtTreeMerge
import Gsim.StmtTreeExec
import Gsim.StmtTreeBuffer
import Gsim.StmtTreeSuper
import Gsim.StmtTreeSound
import Gsim.StmtTreeOrder
import Gsim.DepCounters
import Gsim.WorkerPool
import Gsim.DenseCoarsen
import Gsim.KosarajuExact
import Gsim.DenseSccExact
import Gsim.DenseChains
import Gsim.DenseSchedule
import Gsim.DenseLayers
import Gsim.DenseSerial
import Gsim.ExpTree
import Gsim.AliasAnalysis
import Gsim.Worklist
import Gsim.DeadNodes
import Gsim.CommonExpr
import Gsim.MergeSchedule
import Gsim.ListScheduling
import Gsim.OwnerReadySound
import Gsim.TopoSort
import Gsim.Seed2Points
import Gsim.Seed2Strict
import Gsim.Seed2Transcode
import Gsim.TaskPool
import Gsim.CanonHash
import Gsim.FirParser
import Gsim.WhenReplay
import Gsim.WhenLowering
import Gsim.ResetChunks
import Gsim.ResetStreams
import Gsim.FlagBytes
import Gsim.ActiveMasks
import Gsim.ActiveSinks
import Gsim.Seed2Budget
import Gsim.SeedText
import Gsim.ShortNames
import Gsim.InitPartition
import Gsim.ObsElision
import Gsim.ConstantMemory
import Gsim.EmitUnits
import Gsim.ChangeBrackets
import Gsim.DisjointThreads
import Gsim.PureBatches
import Gsim.PureBatchRun
import Gsim.PureBatchSound
import Gsim.PureBatchMerge
import Gsim.ConstantTree
import Gsim.ConstantPruning
import Gsim.AssignmentFolding
import Gsim.PatternTree
import Gsim.PatternCompare
import Gsim.PatternOneHot
import Gsim.ExprOpt
import Gsim.InferWidth
import Gsim.BitSlice
import Gsim.SplitNode
import Gsim.InferComponent
import Gsim.MixedRadix
import Gsim.ArrayIndex
import Gsim.AggregateType
import Gsim.AggregateScope
import Gsim.AggregateRefs
import Gsim.AggregateConnect
import Gsim.ChangeDriven
import Gsim.ActivityScan
import Gsim.ActivitySound
import Gsim.CommutingTraces
import Gsim.DenseMemory
import Gsim.DenseRun
import Gsim.DensePool
import Gsim.Reconnect
import Gsim.ExecutorsAgree
import Gsim.Seed2Replay
import Gsim.GraphPartition
