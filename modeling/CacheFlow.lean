import CacheFlow.Lib.Accumulator
import CacheFlow.Lib.Copy
import CacheFlow.Lib.Draws
import CacheFlow.Lib.Json
import CacheFlow.Lib.JsonText
import CacheFlow.Lib.MachineInt
import CacheFlow.Lib.Moments
import CacheFlow.Lib.Observation
import CacheFlow.Lib.Oldest
import CacheFlow.Lib.Queue
import CacheFlow.Lib.Ranks
import CacheFlow.Lib.Run
import CacheFlow.Lib.Runs
import CacheFlow.Lib.Simt
import CacheFlow.Lib.Softmax
import CacheFlow.Lib.Trie
import CacheFlow.Lib.TrieOrder
import CacheFlow.Lib.Utf8
import CacheFlow.Lib.Weighted
import CacheFlow.Common
import CacheFlow.BlockManager
import CacheFlow.BlockManager.Counts
import CacheFlow.BlockManager.Ledger
import CacheFlow.BlockManager.Release
import CacheFlow.BlockManager.CopyOnWrite
import CacheFlow.BlockManager.Exclusive
import CacheFlow.MemoryPool
import CacheFlow.MemoryPool.Offsets
import CacheFlow.MemoryPool.Stack
import CacheFlow.BlockManager.Fragmentation
import CacheFlow.BlockManager.Interchange
import CacheFlow.PrefixCache
import CacheFlow.PrefixCache.Recorded
import CacheFlow.PrefixCache.Refinement
import CacheFlow.PrefixCache.System
import CacheFlow.PrefixCache.Eviction
import CacheFlow.PrefixCache.References
import CacheFlow.PrefixCache.Users
import CacheFlow.PrefixCache.Closure
import CacheFlow.PrefixCache.LeastRecent
import CacheFlow.PrefixCache.HitRate
import CacheFlow.Scheduler
import CacheFlow.BatchManager
import CacheFlow.Scheduler.Phases
import CacheFlow.Scheduler.Finished
import CacheFlow.Scheduler.Single
import CacheFlow.Scheduler.Census
import CacheFlow.Scheduler.Order
import CacheFlow.Scheduler.Accounting
import CacheFlow.Scheduler.Ownership
import CacheFlow.Scheduler.Coverage
import CacheFlow.Scheduler.Groups
import CacheFlow.Scheduler.Swap
import CacheFlow.Scheduler.Room
import CacheFlow.Scheduler.Admission
import CacheFlow.Scheduler.Newcomers
import CacheFlow.Scheduler.SeqLimit
import CacheFlow.Scheduler.Victims
import CacheFlow.Scheduler.Registry
import CacheFlow.BatchManager.Delivery
import CacheFlow.BatchManager.Abort
import CacheFlow.Scheduler.Episodes
import CacheFlow.Scheduler.CpuSpace
import CacheFlow.Scheduler.SwapKernel
import CacheFlow.BatchDecode
import CacheFlow.BatchDecode.Sample
import CacheFlow.BatchDecode.Nucleus
import CacheFlow.BatchDecode.Stats
import CacheFlow.PagedAttention
import CacheFlow.PagedAttention.Agreement
import CacheFlow.PagedAttention.Cells
import CacheFlow.PagedAttention.SharedMemory
import CacheFlow.PagedAttention.OnlineSoftmax
import CacheFlow.PagedAttention.Tiling
import CacheFlow.PagedAttention.Store
import CacheFlow.Compaction
import CacheFlow.CopyBlocks
import CacheFlow.Driver
import CacheFlow.Driver.Positions
import CacheFlow.Driver.Slots
import CacheFlow.Driver.Budgets
import CacheFlow.Driver.Tokens
import CacheFlow.Driver.Progress
import CacheFlow.Driver.Service
import CacheFlow.Driver.Livelock
import CacheFlow.Driver.Filled
import CacheFlow.Driver.FirstToken
import CacheFlow.Driver.KvHistory
import CacheFlow.Driver.Generation
import CacheFlow.BatchDecode.Distribution
import CacheFlow.Profiler.RunningStats
import CacheFlow.Profiler.Requests
import CacheFlow.Profiler.Histogram
import CacheFlow.Profiler.Percentile
import CacheFlow.Profiler.Trace
import CacheFlow.Profiler.TraceJson
import CacheFlow.Benchmarks.Iteration
import CacheFlow.Benchmarks.ClosedLoop
import CacheFlow.Benchmarks.Latency
import CacheFlow.Benchmarks.Allocation
import CacheFlow.Lib.Spans
import CacheFlow.Profiler.Session
