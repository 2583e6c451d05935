import Otawa.ClpValue
import Otawa.ClpHull
import Otawa.ClpState
import Otawa.ClpProblem
import Otawa.CacheMust
import Otawa.CacheFirstLast
import Otawa.CachePers
import Otawa.WahVector
import Otawa.WahBits
import Otawa.Cfg
import Otawa.IterativeDFA
import Otawa.Dominance
import Otawa.LoopInfo
import Otawa.LoopExits
import Otawa.DataAccess
import Otawa.DecodeLru
import Otawa.FeatureDeps
import Otawa.AbsIntLite
import Otawa.EdgeTime
import Otawa.PathReads
import Otawa.SubCFG
import Otawa.LoopReductor
import Otawa.Virtualizer
import Otawa.Bitmask
import Otawa.FetchNodes
import Otawa.FetchTables
import Otawa.ClpBits
import Otawa.ClpShift
import Otawa.ClpWidening
import Otawa.BasicConstraints
import Otawa.FlowFactConstraints
import Otawa.CFGBuilder
import Otawa.ClpFilter
import Otawa.CacheAges
import Otawa.CacheMay
import Otawa.ClpRuns
import Otawa.ClpManager
import Otawa.DataPurge
import Otawa.DirtyBlocks
import Otawa.SymbolicExpr
import Otawa.BitCount
import Otawa.BitVector
import Otawa.FastState
import Otawa.WahQueries
import Otawa.DataCategories
import Otawa.LBlockBuilder
import Otawa.HaiFixPoints
import Otawa.FastLoad
import Otawa.FastSharing
import Otawa.CatConstraints
import Otawa.ContextualLoopBound
import Otawa.PersDomain
import Otawa.PowersetDFA
import Otawa.PurgeAnalysis
import Otawa.AvlInsert
import Otawa.AvlRemove
import Otawa.AvlRuns
import Otawa.ContextTree
import Otawa.ContextTreeBuild
import Otawa.ContextTreeShape
import Otawa.DelayedBuilder
import Otawa.DelayedPaths
import Otawa.LoopReductorRuns
import Otawa.StackProblem
import Otawa.StackUpdate
import Otawa.VarTextDecoder
import Otawa.SegmentTree
import Otawa.FragTable
import Otawa.Quicksort
import Otawa.BlockAllocator
import Otawa.HashTable
import Otawa.ImmList
import Otawa.SimpleGC
import Otawa.StringBuffers
import Otawa.BlockFold
import Otawa.Fletcher
import Otawa.IntegerInput
import Otawa.Md5
import Otawa.CanonicalPath
import Otawa.GlissMem
import Otawa.GlissMemCopy
import Otawa.Outcomes
import Otawa.Processor
import Otawa.KeyedStacks
import Otawa.LongestPaths
import Otawa.ParExeGraph
import Otawa.PropList
import Otawa.AbstractCacheState
import Otawa.Contenders
import Otawa.WCETComputation
import Otawa.EventGraph
import Otawa.WorkListDriver
import Otawa.CplexDump
import Otawa.DtdParser
import Otawa.ACSBuilder
import Otawa.AffectConstraint
import Otawa.HashCalls
import Otawa.OptirgRun
import Otawa.PostDominance
import Otawa.Weighter
