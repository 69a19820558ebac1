import PagePool.Bytes
import PagePool.Cache.Recency
import PagePool.Cache.Settings
import PagePool.Cache.Statistics
import PagePool.Decimal
import PagePool.Error
import PagePool.Heap.Bitmap
import PagePool.Heap.Layout
import PagePool.Heap.Table
import PagePool.Id
import PagePool.Lock.Blocking
import PagePool.Lock.Mode
import PagePool.Lock.Table
import PagePool.Lock.WaitsFor
import PagePool.Log.Checksum
import PagePool.Log.Encoding
import PagePool.Log.File
import PagePool.Log.Journal
import PagePool.Log.Memory
import PagePool.Log.Record
import PagePool.OrdMap
import PagePool.OrdSet
import PagePool.Page
import PagePool.Pool.Blocking
import PagePool.Pool.Call
import PagePool.Pool.Completion
import PagePool.Pool.Flush
import PagePool.Pool.State
import PagePool.Pool.Tasks
import PagePool.Proofs.Bytes
import PagePool.Proofs.Cache.Recency
import PagePool.Proofs.Cache.Ticks
import PagePool.Proofs.Heap.Canonical
import PagePool.Proofs.Heap.Contents
import PagePool.Proofs.Heap.Geometry
import PagePool.Proofs.Heap.Slots
import PagePool.Proofs.Lock.Acyclicity
import PagePool.Proofs.Lock.DeadlockSearch
import PagePool.Proofs.Lock.Frames
import PagePool.Proofs.Lock.Graph
import PagePool.Proofs.Lock.Held
import PagePool.Proofs.Lock.Holdings
import PagePool.Proofs.Lock.Rounds
import PagePool.Proofs.Lock.Sessions
import PagePool.Proofs.Lock.Validity
import PagePool.Proofs.Lock.WaitEdges
import PagePool.Proofs.Log.Acceptance
import PagePool.Proofs.Log.Checksum
import PagePool.Proofs.Log.Cursor
import PagePool.Proofs.Log.Damage
import PagePool.Proofs.Log.Durable
import PagePool.Proofs.Log.RoundTrip
import PagePool.Proofs.Log.Sessions
import PagePool.Proofs.Log.Torn
import PagePool.Proofs.Log.Winners
import PagePool.Proofs.Pool.Agreement
import PagePool.Proofs.Pool.Attempts
import PagePool.Proofs.Pool.Backing
import PagePool.Proofs.Pool.Bounds
import PagePool.Proofs.Pool.CommitRecords
import PagePool.Proofs.Pool.Completion
import PagePool.Proofs.Pool.Deeds
import PagePool.Proofs.Pool.Discards
import PagePool.Proofs.Pool.Durability
import PagePool.Proofs.Pool.Eviction
import PagePool.Proofs.Pool.FailedCommit
import PagePool.Proofs.Pool.Failures
import PagePool.Proofs.Pool.Flush
import PagePool.Proofs.Pool.Granted
import PagePool.Proofs.Pool.Inclusion
import PagePool.Proofs.Pool.Inserters
import PagePool.Proofs.Pool.Intact
import PagePool.Proofs.Pool.Keeping
import PagePool.Proofs.Pool.Ledger
import PagePool.Proofs.Pool.Levelling
import PagePool.Proofs.Pool.Locking
import PagePool.Proofs.Pool.Logging
import PagePool.Proofs.Pool.Newest
import PagePool.Proofs.Pool.Outcomes
import PagePool.Proofs.Pool.Owners
import PagePool.Proofs.Pool.Passes
import PagePool.Proofs.Pool.Records
import PagePool.Proofs.Pool.Recovery
import PagePool.Proofs.Pool.Requests
import PagePool.Proofs.Pool.Residency
import PagePool.Proofs.Pool.RoomSearch
import PagePool.Proofs.Pool.Scans
import PagePool.Proofs.Pool.Search
import PagePool.Proofs.Pool.Serial
import PagePool.Proofs.Pool.Standing
import PagePool.Proofs.Pool.Transparency
import PagePool.Proofs.Pool.Turns
import PagePool.Proofs.Pool.TwoPhase
import PagePool.Proofs.Pool.World
import PagePool.Proofs.Pool.WriteAhead
import PagePool.Proofs.Store.Ids
import PagePool.Proofs.Store.Opening
import PagePool.Proofs.Store.PageArray
import PagePool.Proofs.Store.Paging
import PagePool.Proofs.Store.Stored
import PagePool.Schedule
import PagePool.Store.Catalog
import PagePool.Store.Files
import PagePool.Store.PageFile
