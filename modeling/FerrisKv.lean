import FerrisKv.Lib.Prog
import FerrisKv.Lib.Lts
import FerrisKv.Lib.Pool
import FerrisKv.Lib.Unwinding
import FerrisKv.Lib.LittleEndian
import FerrisKv.Lib.Crc32
import FerrisKv.Lib.WriteLog
import FerrisKv.Lib.TreeMapSum
import FerrisKv.Lib.OrderedScan
import FerrisKv.Lib.PartitionPoint
import FerrisKv.Lib.Ranking
import FerrisKv.Core.Error
import FerrisKv.Core.Key
import FerrisKv.Core.Value
import FerrisKv.Core.Storage
import FerrisKv.Proofs.Core.Keyspace
import FerrisKv.Core.Hashing
import FerrisKv.Coord.Placement
import FerrisKv.Node.Wal
import FerrisKv.Proofs.Wal.Frames
import FerrisKv.Proofs.Wal.Log
import FerrisKv.Proofs.Wal.Segment
import FerrisKv.Proofs.Wal.Runs
import FerrisKv.Proofs.Wal.Faults
import FerrisKv.Proofs.Wal.Opening
import FerrisKv.Proofs.Wal.Corruption
import FerrisKv.Proofs.Wal.FailedRotation
import FerrisKv.Node.Config
import FerrisKv.Node.QuotaText
import FerrisKv.Node.Ttl
import FerrisKv.Node.Quota
import FerrisKv.Node.Throttle
import FerrisKv.Node.Watch
import FerrisKv.Node.World
import FerrisKv.Node.Service
import FerrisKv.Node.Machine
import FerrisKv.Node.Sweeper
import FerrisKv.Node.Grpc
import FerrisKv.Node.Session
import FerrisKv.Node.Concurrent
import FerrisKv.Node.Shutdown
import FerrisKv.Proofs.Node.Channels
import FerrisKv.Proofs.Node.Planning
import FerrisKv.Proofs.Node.Footprint
import FerrisKv.Proofs.Node.TtlIndex
import FerrisKv.Proofs.Node.TtlSet
import FerrisKv.Proofs.Node.StoredBytes
import FerrisKv.Proofs.Node.Ledger
import FerrisKv.Proofs.Node.Usage
import FerrisKv.Spec.Store
import FerrisKv.Proofs.Node.Durable
import FerrisKv.Proofs.Node.Replay
import FerrisKv.Proofs.Node.Represents
import FerrisKv.Proofs.Node.ScanBounds
import FerrisKv.Proofs.Node.Refines
import FerrisKv.Proofs.Node.Recovery
import FerrisKv.Proofs.Node.FailedWrites
import FerrisKv.Proofs.Node.Coverage
import FerrisKv.Proofs.Node.Effects
import FerrisKv.Proofs.Node.SweepExact
import FerrisKv.Proofs.Node.UsageRecord
import FerrisKv.Proofs.Node.Legible
import FerrisKv.Proofs.Node.Outcome
import FerrisKv.Proofs.Node.Repair
import FerrisKv.Proofs.Node.Overrides
import FerrisKv.Proofs.Node.Boot
import FerrisKv.Proofs.Node.QuotaLaw
import FerrisKv.Proofs.Node.Refusal
import FerrisKv.Proofs.Node.Published
import FerrisKv.Proofs.Node.WatchView
import FerrisKv.Proofs.Node.Collection
import FerrisKv.Proofs.Node.ScanExact
import FerrisKv.Proofs.Node.Shutdown
import FerrisKv.Proofs.Node.RateLimit
import FerrisKv.Proofs.Node.Authorization
import FerrisKv.Proofs.Node.TenantView
import FerrisKv.Proofs.Node.Isolation
import FerrisKv.Proofs.Concurrent.Stage
import FerrisKv.Proofs.Concurrent.Rotation
import FerrisKv.Proofs.Concurrent.WriteOrder
import FerrisKv.Proofs.Concurrent.Accounting
import FerrisKv.Proofs.Concurrent.Cap
import FerrisKv.Proofs.Concurrent.Sweeper
import FerrisKv.Proofs.Concurrent.Wakeup
import FerrisKv.Proofs.Concurrent.Notices
import FerrisKv.Proofs.Concurrent.Subscribers
import FerrisKv.Proofs.Concurrent.Administration
import FerrisKv.Proofs.Concurrent.Allowance
import FerrisKv.Lib.Linearize
import FerrisKv.Node.Counter
import FerrisKv.Proofs.Concurrent.Linear
import FerrisKv.Proofs.Concurrent.Counters
import FerrisKv.Node.Server
import FerrisKv.Proofs.Node.Audit
import FerrisKv.Proofs.Concurrent.Access
import FerrisKv.Proofs.Concurrent.Mirror
import FerrisKv.Proofs.Concurrent.Broadcast
import FerrisKv.Proofs.Concurrent.LogSize
import FerrisKv.Proofs.Node.Backends
import FerrisKv.Proofs.Node.QuotaListing
import FerrisKv.Proofs.Node.Limits
import FerrisKv.Proofs.Node.Heartbeats
import FerrisKv.Proofs.Node.Batch
