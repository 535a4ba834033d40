import Ditto.Lib.PyDict
import Ditto.Lib.Rounding
import Ditto.Lib.Cuts
import Ditto.RequestRanges
import Ditto.Dispatch
import Ditto.Shares
import Ditto.Lib.Segments
import Ditto.NetworkThread
import Ditto.Lib.DiGraph
import Ditto.Dcfg
import Ditto.Isolation
import Ditto.Lib.Mass
import Ditto.RegDistances
import Ditto.DistanceMass
import Ditto.DistanceFeedback
import Ditto.Asm
import Ditto.ShuffleBlocks
import Ditto.RegAlloc
import Ditto.MemAddrs
import Ditto.BlockAsm
import Ditto.WorkingSet
import Ditto.Labels
import Ditto.Lib.WordArray
import Ditto.Service
import Ditto.PointerChase
import Ditto.DCache
import Ditto.RedisConn
import Ditto.CacheSim
import Ditto.Lib.PyText
import Ditto.SyscallTrace
import Ditto.BracketNotation
import Ditto.Lib.TreeEdit
import Ditto.TreeDistance
import Ditto.Lib.Grouping
import Ditto.Lib.UnionFind
import Ditto.ThreadClusters
import Ditto.InstMix
import Ditto.MixTemplates
import Ditto.NetworkModel
import Ditto.Lib.Residues
import Ditto.Replicas
import Ditto.Lib.Sweep
import Ditto.LineSweep
import Ditto.Clobbers
import Ditto.WritevConn
import Ditto.Lib.EventLoop
import Ditto.Skeletons
import Ditto.ReadIndex
import Ditto.SentSegments
import Ditto.EpollServer
import Ditto.StartUp
import Ditto.ReplyRouting
import Ditto.EdgeCounts
import Ditto.BranchTrace
import Ditto.BranchRates
import Ditto.CacheStats
import Ditto.RegAccess
import Ditto.Dependencies
import Ditto.Allocation
import Ditto.Lib.Double
import Ditto.TurnCount
import Ditto.PerfLevels
import Ditto.BlockListing
import Ditto.InstCounts
import Ditto.MixWeights
import Ditto.MixFile
import Ditto.Lib.CountTrie
import Ditto.CallTrees
import Ditto.Lib.WordOrder
import Ditto.SiblingOrder
import Ditto.SyscallStats
import Ditto.DistanceBins
import Ditto.Lib.Forest
import Ditto.Lib.ForestEdit
import Ditto.Lib.PostOrder
import Ditto.Lib.TreePath
import Ditto.TreeIndex
import Ditto.Lib.Single
import Ditto.TreeEditDist
import Ditto.PathDistance
import Ditto.StrategyRun
import Ditto.ThreadServer
import Ditto.Probes
import Ditto.ProbeReport
import Ditto.Characterization
import Ditto.CostDumps
