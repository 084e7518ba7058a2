import Watukuy.Library.Program
import Watukuy.Library.OrderedMap
import Watukuy.Library.Upsert
import Watukuy.Library.Threads
import Watukuy.Library.Roles
import Watukuy.Library.ChangeLog
import Watukuy.Library.Leases
import Watukuy.Library.Sorting
import Watukuy.Library.Json
import Watukuy.Core.Types
import Watukuy.Core.Text
import Watukuy.Cursor.Strategies
import Watukuy.Core.Poller
import Watukuy.Core.Hash
import Watukuy.Diff.EventId
import Watukuy.Diff.Diff
import Watukuy.Diff.Canonicalize
import Watukuy.Diff.PageDiff
import Watukuy.Budget.Consumption
import Watukuy.Budget.Rounded
import Watukuy.Budget.Peeks
import Watukuy.Budget.RedisBudget
import Watukuy.Scheduler.Scheduler
import Watukuy.Scheduler.Invariants
import Watukuy.Stores.MemoryStore
import Watukuy.Stores.RedisStore
import Watukuy.Stores.Leases
import Watukuy.Stores.SqliteStore
import Watukuy.Stores.PostgresStore
import Watukuy.Core.Partitions
import Watukuy.Stores.Deletion
import Watukuy.Core.Effects
import Watukuy.Http.Client
import Watukuy.Core.Dispatcher
import Watukuy.Core.Runner
import Watukuy.Core.Engine
import Watukuy.Core.System
import Watukuy.Cycle.Drains
import Watukuy.Cycle.Contract
import Watukuy.Cycle.Requests
import Watukuy.Cycle.Pages
import Watukuy.Cycle.Ending
import Watukuy.Cycle.RunKey
import Watukuy.Cycle.LaneView
import Watukuy.Cycle.LaneCalls
import Watukuy.Cycle.LanePages
import Watukuy.Cycle.LaneEnding
import Watukuy.Cycle.Obeys
import Watukuy.Run.Scenarios
import Watukuy.Run.Fence
import Watukuy.Run.Fencing
import Watukuy.Run.Sequences
import Watukuy.Run.Lanes
import Watukuy.Run.Deltas
import Watukuy.Run.ChangeStream
import Watukuy.Run.FullScans
import Watukuy.Run.Sweeps
import Watukuy.Cycle.LaneKey
import Watukuy.Core.Daemon
import Watukuy.Core.LoopTimers
import Watukuy.Cycle.LaneObeys
import Watukuy.Run.Backoff
import Watukuy.Run.Completion
import Watukuy.Run.Gates
import Watukuy.Run.Halts
import Watukuy.Cycle.Stays
import Watukuy.Cycle.Deliveries
import Watukuy.Cycle.DeliveryObeys
import Watukuy.Cycle.Operators
import Watukuy.Run.Outbox
import Watukuy.Run.Conservation
import Watukuy.Run.Order
import Watukuy.Run.Crew
import Watukuy.Run.Retries
import Watukuy.Core.Consumers
import Watukuy.Run.Subscriptions
import Watukuy.Run.ForAwait
import Watukuy.Stores.Refinement
import Watukuy.Stores.Equivalence
import Watukuy.Cursor.Keyset
import Watukuy.Cursor.Walk
import Watukuy.Cursor.Overlap
import Watukuy.Cursor.CatchUp
import Watukuy.Cursor.Watermark
import Watukuy.Cursor.Backfill
import Watukuy.Run.Timetable
import Watukuy.Run.LoopEnds
import Watukuy.Run.Polls
import Watukuy.Run.FastPath
import Watukuy.Run.ActivePoller
import Watukuy.Run.Backfill
import Watukuy.Run.Repolls
import Watukuy.Run.Coercion
import Watukuy.Run.Closing
import Watukuy.Run.Rounds
import Watukuy.Run.Lines
import Watukuy.Run.Starvation
import Watukuy.Run.Stopping
import Watukuy.Library.Dedup
import Watukuy.Run.Dedup
import Watukuy.Run.Histories
import Watukuy.Run.Deletes
import Watukuy.Run.Conditional
import Watukuy.Run.Validators
import Watukuy.Run.Partitions
import Watukuy.Budget.Manager
import Watukuy.Budget.Pick
import Watukuy.Budget.Waiters
import Watukuy.Budget.Fairness
import Watukuy.Budget.Weighted
import Watukuy.Http.RateLimit
import Watukuy.Http.StructuredFields
import Watukuy.Http.ReadBack
import Watukuy.Library.Bisect
import Watukuy.Testing.VirtualClock
import Watukuy.Testing.ClockOrder
import Watukuy.Library.Select
import Watukuy.Stores.Selects
import Watukuy.Stores.SqliteAgreement
import Watukuy.Stores.PostgresAgreement
import Watukuy.Library.Keyspace
import Watukuy.Stores.Keyspace
import Watukuy.Core.Tick
import Watukuy.Library.Base64
import Watukuy.Sinks.Webhook
import Watukuy.Core.DefinePoller
import Watukuy.Budget.Policy
import Watukuy.Library.RedisDb
import Watukuy.Stores.RedisScripts
import Watukuy.Stores.RedisClient
import Watukuy.Stores.RedisLayout
import Watukuy.Stores.RedisSteps
import Watukuy.Stores.RedisWrites
import Watukuy.Stores.RedisReads
import Watukuy.Stores.RedisRuns
import Watukuy.Stores.RedisListing
import Watukuy.Cycle.Turns
import Watukuy.Run.KeysetLoops
import Watukuy.Library.JsonShape
import Watukuy.Stores.RedisJson
