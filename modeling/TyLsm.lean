import TyLsm.Ranked
import TyLsm.OrderedMap
import TyLsm.Key
import TyLsm.MemTable
import TyLsm.Options
import TyLsm.Coding
import TyLsm.Bloom
import TyLsm.Table
import TyLsm.Iterator
import TyLsm.Merge
import TyLsm.DBIterator
import TyLsm.Version
import TyLsm.Compact
import TyLsm.Disk
import TyLsm.DB
import TyLsm.Program
import TyLsm.Rearrange
import TyLsm.Reads
import TyLsm.Invariant
import TyLsm.Flush
import TyLsm.Task
import TyLsm.Publish
import TyLsm.Compaction
import TyLsm.Execute
import TyLsm.CompactionOk
import TyLsm.CompactRange
import TyLsm.Transaction
import TyLsm.Write
import TyLsm.Recovery
import TyLsm.Runs
import TyLsm.Calls
import TyLsm.Oracle
import TyLsm.Snapshots
import TyLsm.Crash
import TyLsm.SearchOrder
import TyLsm.Rotation
import TyLsm.Replay
import TyLsm.Restorable
import TyLsm.FlushCrash
import TyLsm.Histories
import TyLsm.Levels
import TyLsm.FileNumbers
import TyLsm.FailedSyncs
import TyLsm.Conflicts
import TyLsm.GroupCommit
import TyLsm.Batches
import TyLsm.Framing
import TyLsm.Wal
import TyLsm.Codec
import TyLsm.TornTail
import TyLsm.Retention
import TyLsm.Visibility
import TyLsm.ManifestReplay
import TyLsm.OwnReads
import TyLsm.Frame
import TyLsm.Closed
import TyLsm.Phases
import TyLsm.Readers
import TyLsm.WalPrefix
import TyLsm.Gives
import TyLsm.Cache
import TyLsm.BlockLoads
import TyLsm.Cached
import TyLsm.CacheReads
import TyLsm.CacheRuns
import TyLsm.Transparent
import TyLsm.Blocks
import TyLsm.TableFormat
import TyLsm.TableFiles
import TyLsm.TableTrip
import TyLsm.Splitting
import TyLsm.Delimited
import TyLsm.BatchCodec
import TyLsm.Panics
import TyLsm.Decoders
import TyLsm.FilterAccess
import TyLsm.RejectedEdits
import TyLsm.Picker
import TyLsm.TrivialMove
import TyLsm.FlushView
import TyLsm.FlushFaults
import TyLsm.Memtables
import TyLsm.Compactors
import TyLsm.CompactionRaces
import TyLsm.RacingRuns
import TyLsm.ConcurrentCompactions
import TyLsm.Varints
import TyLsm.BlockTrip
import TyLsm.Draining
import TyLsm.TableSeek
import TyLsm.ConcatIterator
import TyLsm.LiveSnapshots
import TyLsm.LogCasts
import TyLsm.MapTraces
import TyLsm.Serializable
import TyLsm.FileOps
import TyLsm.FileNames
import TyLsm.Rendering
import TyLsm.Triples
import TyLsm.Journals
import TyLsm.Alike
import TyLsm.TornFiles
import TyLsm.OpenBytes
import TyLsm.ByteReads
import TyLsm.ByteRuns
import TyLsm.AtomicStops
import TyLsm.Listings
import TyLsm.FuzzModel
