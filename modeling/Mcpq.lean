import Mcpq.Hierarchical.Timestamps
import Mcpq.Hierarchical.Lru
import Mcpq.Hierarchical.OneChain
import Mcpq.Hierarchical.BlockJoin
import Mcpq.Hierarchical.MatrixMultiplication
import Mcpq.Simulator.HintFree
import Mcpq.Kernel.RefCounter
import Mcpq.Kernel.LruAccounting
import Mcpq.Kernel.Fork
import Mcpq.Hierarchical.BrokenLinks
import Mcpq.Simulator.Addresses
import Mcpq.Simulator.ChainTable
import Mcpq.Simulator.ChainStructure
import Mcpq.Simulator.Levels
import Mcpq.Hierarchical.Summary
import Mcpq.Hierarchical.LocalPolicy
import Mcpq.Kernel.Exit
import Mcpq.Kernel.Relink
import Mcpq.Kernel.Descriptors
import Mcpq.Kernel.Ledger
import Mcpq.Kernel.Walk
import Mcpq.Kernel.Hate
import Mcpq.Lib.SecondChance
import Mcpq.Simulator.SecondChance
import Mcpq.Lib.RoundRobin
import Mcpq.Simulator.LoveClock
import Mcpq.Simulator.LoveLevels
import Mcpq.Kernel.Concurrent
import Mcpq.Kernel.Locks
import Mcpq.Hierarchical.LocalEviction
import Mcpq.Hierarchical.Capacity
import Mcpq.Simulator.ChainCapacity
import Mcpq.Kernel.FreePages
import Mcpq.Kernel.Visits
import Mcpq.Kernel.AnchorCall
import Mcpq.Kernel.LinkResult
import Mcpq.Kernel.AnchorLocks
import Mcpq.Kernel.Isolation
import Mcpq.Kernel.Shrink
import Mcpq.Simulator.EffectiveTime
import Mcpq.Simulator.OldestUnit
import Mcpq.Hierarchical.MatrixTrace
import Mcpq.Simulator.AccessPatterns
import Mcpq.Simulator.LoveQueue
import Mcpq.Simulator.Competitive
import Mcpq.Hierarchical.Competitive
import Mcpq.Kernel.PageAlloc.Outcome
import Mcpq.Kernel.PageAlloc.Placement
import Mcpq.Kernel.PageAlloc.Fragmentation
import Mcpq.Kernel.Vmstat.Drift
import Mcpq.Kernel.LruCache.Run
