import Lsmkv.Reset
import Lsmkv.Threads
import Lsmkv.VersionOrder
import Lsmkv.BatchRead
import Lsmkv.ConcurrentQueue
import Lsmkv.Deletes
import Lsmkv.Expiry
import Lsmkv.FileNumbers
import Lsmkv.StoreNumbers
import Lsmkv.HolderList
import Lsmkv.Iterators
import Lsmkv.Latch
import Lsmkv.LevelSizes
import Lsmkv.Lib.Deferred
import Lsmkv.Lib.Overwrite
import Lsmkv.NumberRace
import Lsmkv.LogReuse
import Lsmkv.RWLock
import Lsmkv.LockWaits
import Lsmkv.RangeRead
import Lsmkv.UringContent
import Lsmkv.VLogNumbers
import Lsmkv.DeepLevels
import Lsmkv.FirstHit
import Lsmkv.ReadRace
import Lsmkv.Renewal
import Lsmkv.ExpireCalls
import Lsmkv.LevelGet
import Lsmkv.TableIterator
import Lsmkv.UringSteps
import Lsmkv.AsyncBatch
import Lsmkv.BlockAccess
import Lsmkv.CompactionRounds
import Lsmkv.FileFailures
import Lsmkv.FilterBits
import Lsmkv.MemRecords
import Lsmkv.PosixFile
import Lsmkv.TableIteration
import Lsmkv.VLogSafety
import Lsmkv.VersionExpiry
import Lsmkv.CompactionFailures
import Lsmkv.Arena
import Lsmkv.Comparators
import Lsmkv.FileMeta
import Lsmkv.IteratorSeeks
import Lsmkv.Lib.Recency
import Lsmkv.LruCache
import Lsmkv.ModelBlock
import Lsmkv.Executor
import Lsmkv.ExecutorQueue
import Lsmkv.Reclaimer
import Lsmkv.QueueMemory
import Lsmkv.SplitReads
import Lsmkv.FileReads
