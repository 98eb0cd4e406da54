import KuttiDB.Theory.FirstMatch
import KuttiDB.Theory.Keyed
import KuttiDB.Theory.Interleaving
import KuttiDB.QueueStore.Record
import KuttiDB.Job.Digest
import KuttiDB.Job.Engine
import KuttiDB.QueueStore.Exchange
import KuttiDB.Theory.Lookup
import KuttiDB.Theory.LittleEndian
import KuttiDB.QueueStore.GroupSync
import KuttiDB.QueueStore.SyncDiscipline
import KuttiDB.QueueStore.SyncSteps
import KuttiDB.QueueStore.SyncSafety
import KuttiDB.QueueStore.SyncWaits
import KuttiDB.QueueStore.SyncRuns
import KuttiDB.QueueStore.SyncProgress
import KuttiDB.QueueStore.SizeFlag
import KuttiDB.Stream.Store
import KuttiDB.Stream.Replay
import KuttiDB.Stream.Operations
import KuttiDB.Theory.Consecutive
import KuttiDB.Stream.Invariant
import KuttiDB.Stream.Topics
import KuttiDB.Stream.Reachable
import KuttiDB.Stream.Compaction
import KuttiDB.Stream.Mirror
import KuttiDB.Stream.LogReplay
import KuttiDB.Stream.Changes
import KuttiDB.Stream.Retention
import KuttiDB.Stream.LogRuns
import KuttiDB.Stream.FailingRuns
import KuttiDB.Stream.CommittedOffsets
import KuttiDB.Stream.Revisions
import KuttiDB.Stream.Allocation
import KuttiDB.Stream.Threads
import KuttiDB.Stream.ListPointers
import KuttiDB.Stream.DeleteRaces
import KuttiDB.Stream.DeleteRuns
import KuttiDB.Theory.LockSets
import KuttiDB.QueueStore.LockPaths
import KuttiDB.QueueStore.Reservations
import KuttiDB.QueueStore.LockRules
import KuttiDB.QueueStore.LockRuns
import KuttiDB.Stream.LogGrowth
import KuttiDB.Stream.Durability
import KuttiDB.Theory.RoundRobin
import KuttiDB.Stream.Membership
import KuttiDB.Server.Idempotency
import KuttiDB.Theory.Workers
import KuttiDB.Server.SingleFlight
import KuttiDB.Server.Sections
import KuttiDB.Server.Freshness
import KuttiDB.Server.Leases
import KuttiDB.Server.Waiting
import KuttiDB.Theory.Expiring
import KuttiDB.Cache.Local
import KuttiDB.Theory.Chains
import KuttiDB.Cache.LocalInvariant
import KuttiDB.Cache.Removal
import KuttiDB.Cache.Scan
import KuttiDB.Cache.Embedded
import KuttiDB.QueueStore.TopicMatching
import KuttiDB.Log.Checksum
import KuttiDB.QueueStore.Fields
import KuttiDB.Theory.SecureHash
import KuttiDB.Job.HashCorrect
import KuttiDB.Theory.Selection
import KuttiDB.Job.ReceiptInventory
import KuttiDB.Log.CacheLog
import KuttiDB.Cache.Expiry
import KuttiDB.Cache.Sweeping
import KuttiDB.Stream.OffsetReset
import KuttiDB.Stream.BatchRecord
import KuttiDB.Stream.LiveBytes
import KuttiDB.Stream.CompactionLimit
import KuttiDB.Cache.Memory
import KuttiDB.Server.Chunking
import KuttiDB.Server.WireFlights
import KuttiDB.Admin.Utf8
import KuttiDB.Admin.Base64
import KuttiDB.QueueStore.JobRecords
import KuttiDB.Stream.RecordBounds
import KuttiDB.Log.Damage
