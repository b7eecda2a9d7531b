import ChainSaw.SchedulerState
import ChainSaw.Separation
import ChainSaw.Wakeup
import ChainSaw.Termination
import ChainSaw.LaneRuns
import ChainSaw.Completeness
import ChainSaw.DataflowOrder
import ChainSaw.ChainOrder
import ChainSaw.Mshr
import ChainSaw.Cutting
import ChainSaw.StartNode
import ChainSaw.MergedPieces
import ChainSaw.BothBreaks
import ChainSaw.LaneStream
import ChainSaw.RunAll
import ChainSaw.TableBounds
import ChainSaw.LaneTiming
import ChainSaw.ChainLevels
import ChainSaw.GraphLevels
import ChainSaw.DependencyCounts
import ChainSaw.BlockStructure
import ChainSaw.Lookups
import ChainSaw.IlpEdges
import ChainSaw.IlpEffects
import ChainSaw.Balance
import ChainSaw.Communication
import ChainSaw.ParameterFiles
import ChainSaw.LoopSearch
import ChainSaw.LiveInReads
import ChainSaw.MinimalChains
import ChainSaw.MainLoop
import ChainSaw.Acceptance
import ChainSaw.MessageBuffer
import ChainSaw.RubyProcessor
import ChainSaw.Accounting
