import Uring.Core.Run
import Uring.Core.Table
import Uring.Core.Bytes
import Uring.Core.Semaphore
import Uring.Core.Fairness
import Uring.Core.Cells
import Uring.Core.Receipt
import Uring.Core.Round
import Uring.Core.Service
import Uring.Core.Eventually
import Uring.Core.Flatten
import Uring.Read.Geometry
import Uring.Read.Validation
import Uring.Read.Pending
import Uring.Read.Content
import Uring.Shard.State
import Uring.Shard.Ledger
import Uring.Shard.Step
import Uring.Shard.Move
import Uring.Shard.Ownership
import Uring.Shard.Conservation
import Uring.Shard.Cancel
import Uring.Shard.Order
import Uring.Shard.Wakeup
import Uring.Shard.Completions
import Uring.Shard.Delivery
import Uring.Shard.Permits
import Uring.Shard.Range
import Uring.Shard.Retry
import Uring.Shard.Contract
import Uring.Shard.Stream
import Uring.Shard.Panic
import Uring.Shard.Drain
import Uring.Shard.Escalation
import Uring.Shard.Turn
import Uring.Shard.Attempts
import Uring.Shard.Errors
import Uring.Shard.Abandon
import Uring.Driver.State
import Uring.Driver.Registry
import Uring.Driver.Caller
import Uring.Driver.Step
import Uring.Driver.Validation
import Uring.Driver.Select
import Uring.Driver.Call
import Uring.Driver.Batch
import Uring.Driver.Hold
import Uring.Driver.Exchange
import Uring.Driver.Move
import Uring.Driver.Wiring
import Uring.Driver.Admission
import Uring.Driver.Bound
import Uring.Driver.Deferral
import Uring.Driver.Protocol
import Uring.Driver.Notify
import Uring.Driver.Shutdown
import Uring.Driver.Exit
import Uring.Driver.Retire
import Uring.Driver.Budget
import Uring.Driver.Loops
import Uring.Driver.Refusal
import Uring.Driver.Service
import Uring.Driver.Causes
import Uring.Prefetch.Reader
import Uring.Prefetch.Window
import Uring.Prefetch.Order
import Uring.Prefetch.Content
import Uring.Prefetch.Session
import Uring.Diagnostics.Histogram
import Uring.Diagnostics.Snapshot
import Uring.Liveness.Progress
import Uring.Liveness.Answer
import Uring.Liveness.Shutdown
import Uring.Startup.Probe
import Uring.Startup.Launch
import Uring.Liveness.Startup
import Uring.Liveness.Loops
import Uring.Liveness.Retire
