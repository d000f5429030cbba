import GreyQueue.Lib.Table
import GreyQueue.Lib.Program
import GreyQueue.Lib.Locks
import GreyQueue.Lib.Machine
import GreyQueue.Lib.WorkQueue
import GreyQueue.Lib.Joins
import GreyQueue.Lib.Log
import GreyQueue.Lib.Decimal
import GreyQueue.Lib.Text
import GreyQueue.Lib.Json
import GreyQueue.Lib.Reader
import GreyQueue.Lib.Stamp
import GreyQueue.Lib.Unicode
import GreyQueue.Lib.Escapes
import GreyQueue.Lib.Sequence
import GreyQueue.Models
import GreyQueue.Scheduler
import GreyQueue.Session
import GreyQueue.Tasks
import GreyQueue.Protocol
import GreyQueue.Service
import GreyQueue.Recovery
import GreyQueue.Api
import GreyQueue.Change
import GreyQueue.Ownership
import GreyQueue.Rules
import GreyQueue.Refinement
import GreyQueue.History
import GreyQueue.Workload
import GreyQueue.Lifecycle
import GreyQueue.Outcome
import GreyQueue.Fencing
import GreyQueue.Dependencies
import GreyQueue.Admission
import GreyQueue.Idempotency
import GreyQueue.Frame
import GreyQueue.Workers
import GreyQueue.Takeover
import GreyQueue.WorkerLoop
import GreyQueue.Execution
import GreyQueue.Deadline
import GreyQueue.Observability
import GreyQueue.Capacity
import GreyQueue.Trail
import GreyQueue.Metrics
import GreyQueue.Backoff
import GreyQueue.Migrations
import GreyQueue.Sweep
import GreyQueue.Convergence
import GreyQueue.Locking
import GreyQueue.Executors
import GreyQueue.Reporting
import GreyQueue.Expiry
import GreyQueue.Atomicity
import GreyQueue.Replay
import GreyQueue.Acknowledgement
import GreyQueue.Leasing
import GreyQueue.Fairness
import GreyQueue.Timeline
import GreyQueue.Drainage
import GreyQueue.Storable
import GreyQueue.Submission
import GreyQueue.Detection
import GreyQueue.Heartbeats
import GreyQueue.Provenance
import GreyQueue.Middleware
import GreyQueue.Strategies
import GreyQueue.Lib.Paging
import GreyQueue.Listing
import GreyQueue.Statuses
import GreyQueue.Routes
import GreyQueue.Cancellation
import GreyQueue.Replies
import GreyQueue.Privileges
import GreyQueue.Liveness
import GreyQueue.Polling
import GreyQueue.Exposition
