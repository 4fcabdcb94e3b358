import VectorDb.Lib.Bytes
import VectorDb.Lib.KeyedList
import VectorDb.Lib.BinarySearch
import VectorDb.Lib.Chunks
import VectorDb.Lib.Recency
import VectorDb.Lib.StdAlgorithms
import VectorDb.Lib.KWayMerge
import VectorDb.Lib.FirstHit
import VectorDb.Lib.TableChecksum
import VectorDb.Lib.Decoder
import VectorDb.Lib.AffineWalk
import VectorDb.Lib.Action
import VectorDb.Lib.Program
import VectorDb.Lib.Interleaving
import VectorDb.Lib.Linearization
import VectorDb.Lib.Wakeups
import VectorDb.Common.Status
import VectorDb.Common.Platform
import VectorDb.Common.BinarySerializer
import VectorDb.Common.Decoding
import VectorDb.Common.Fields
import VectorDb.Common.ThreadPool
import VectorDb.Common.PoolWakeups
import VectorDb.Common.PoolCompletion
import VectorDb.SSTable.BlockEntry
import VectorDb.MemTable.MemoryUsage
import VectorDb.MemTable.Mutation
import VectorDb.MemTable.SkipList
import VectorDb.MemTable.SkipListInvariant
import VectorDb.MemTable.MemTable
import VectorDb.MemTable.SortedMap
import VectorDb.SSTable.Block
import VectorDb.SSTable.BloomFilter
import VectorDb.SSTable.SSTableWriter
import VectorDb.SSTable.BlockRebuild
import VectorDb.SSTable.SSTableReader
import VectorDb.SSTable.ReadBack
import VectorDb.SSTable.Layout
import VectorDb.SSTable.RoundTrip
import VectorDb.SSTable.SizeLimits
import VectorDb.SSTable.IndexOverflow
import VectorDb.SSTable.TableFile
import VectorDb.Wal.Record
import VectorDb.Wal.Log
import VectorDb.Wal.Contents
import VectorDb.Wal.Durability
import VectorDb.Wal.Integrity
import VectorDb.Compaction.Catalogue
import VectorDb.Compaction.MergeFiles
import VectorDb.Compaction.MergeOutputs
import VectorDb.Compaction.RunCompaction
import VectorDb.Compaction.LevelInvariant
import VectorDb.Compaction.MergeResults
import VectorDb.Compaction.OutputSizes
import VectorDb.Compaction.Accounting
import VectorDb.Compaction.FailedCompaction
import VectorDb.Compaction.ConcurrentFlushes
import VectorDb.Compaction.Settling
import VectorDb.Engine.TableLookup
import VectorDb.Engine.FileLookup
import VectorDb.Compaction.Meaning
import VectorDb.Compaction.Renumbering
import VectorDb.Checkpoint.Checkpoint
import VectorDb.Checkpoint.Format
import VectorDb.Checkpoint.AtomicSave
import VectorDb.Recovery.RecoverMemTable
import VectorDb.Recovery.Cut
import VectorDb.Recovery.BufferDecoders
import VectorDb.SSTable.FilterRebuild
import VectorDb.SSTable.HashRange
import VectorDb.SSTable.CorruptFiles
import VectorDb.SSTable.ReadSound
import VectorDb.Engine.StorageEngine
import VectorDb.Engine.Flush
import VectorDb.Engine.Serving
import VectorDb.Engine.Moderate
import VectorDb.Engine.Reads
import VectorDb.Engine.CrashSafety
import VectorDb.Engine.Phases
import VectorDb.Engine.WriteOrder
import VectorDb.Engine.OneFlush
import VectorDb.Engine.FlushRace
import VectorDb.Lib.Trace
import VectorDb.Engine.Background
import VectorDb.Engine.CheckpointInvariant
import VectorDb.Engine.ReadRace
import VectorDb.Engine.FlushOrder
import VectorDb.Engine.ConcurrentCrash
import VectorDb.Cache.BlockCache
import VectorDb.Cache.Freshness
import VectorDb.Cache.LruInvariant
import VectorDb.Cache.Concurrency
import VectorDb.Raft.RaftState
import VectorDb.Raft.Terms
import VectorDb.Raft.Roles
import VectorDb.Wal.Truncation
import VectorDb.Wal.Scanners
import VectorDb.Wal.Acknowledgement
import VectorDb.Lib.LogicalClock
import VectorDb.Clock.HLC
import VectorDb.Clock.Causality
import VectorDb.Clock.ProductionClock
import VectorDb.Engine.CompactionRace
import VectorDb.Engine.Lifetimes
import VectorDb.Engine.CompactedReads
import VectorDb.Engine.DiskContents
import VectorDb.Engine.TableSizes
import VectorDb.Engine.PassPhases
import VectorDb.Engine.Shutdown
import VectorDb.Engine.Restart
import VectorDb.Engine.CompactionCrash
import VectorDb.Engine.AllLifetimes
import VectorDb.Engine.LsnFreshness
import VectorDb.Engine.FailedFlush
import VectorDb.Engine.OversizedFlush
import VectorDb.Engine.StalledLog
