import Mathlib.Algebra.Order.Floor.Ring
import Mathlib.Data.Rat.Floor
import GreyQueue.Api

/-!
# Operational metrics

The reads of `observability.py`: `worker_rows`, the `snapshot` of counters, gauges and
latencies, and the samples that `prometheus` writes.  Each read makes several statements, and
transactions of others may commit in between, so it is a function of the states that its
statements see.  A grouped count is a function whose value is zero where the group is absent,
statistics are exact rationals, and a sample keeps its value instead of the text of it.

## Main definitions

* `workerRowsOver`, `snapshotOver` — what the dashboard shows.
* `workerRows`, `snapshot` — the same while nothing commits.
* `prometheus` — the exported samples.
-/

namespace GreyQueue

open Lib

/-- An entry of `worker_rows`. -/
structure WorkerRow where
  id : String
  state : WorkerState
  capacity : ℤ
  running : ℕ
  capabilities : List String
  lastSeen : Time
  heartbeatAgeSeconds : ℚ

/-- `SELECT worker_id, count(*) ... WHERE finished_at IS NULL GROUP BY worker_id`. -/
def activeOf (db : Database) (workerId : String) : ℕ :=
  db.attempts.rows.countP fun a => a.isOpen && decide (a.workerId = workerId)

/-- `worker_rows`: the workers seen last, with their open leases.  Its statements count the
leases, read the clock and read the workers. -/
def workerRowsOver (see : ℕ → Database) (m : Moment) (limit : ℕ := 200) : List WorkerRow :=
  let workers := (see 2).workers.rows
  let ordered := (workers.insertionSort fun v w => m.workerRank v.id ≤ m.workerRank w.id)
    |>.insertionSort fun v w => w.lastSeen ≤ v.lastSeen
  (ordered.take limit).map fun w => {
    id := w.id
    state := w.state
    capacity := w.capacity
    running := activeOf (see 0) w.id
    capabilities := w.capabilities
    lastSeen := w.lastSeen
    heartbeatAgeSeconds := max 0 (m.time - w.lastSeen) }

/-- `worker_rows` on one database. -/
def workerRows (db : Database) (m : Moment) (limit : ℕ := 200) : List WorkerRow :=
  workerRowsOver (fun _ => db) m limit

/-- `avg`, or zero without rows. -/
def average (l : List ℚ) : ℚ := if l = [] then 0 else l.sum / l.length

/-- `percentile_cont`: interpolate between the ordered values, or zero without rows. -/
def percentileCont (fraction : ℚ) (l : List ℚ) : ℚ :=
  let sorted := l.insertionSort (· ≤ ·)
  let position := fraction * (l.length - 1 : ℕ)
  let lower := sorted.getD ⌊position⌋.toNat 0
  let upper := sorted.getD ⌈position⌉.toNat 0
  lower + (position - ⌊position⌋) * (upper - lower)

/-- The `duration` entry of a snapshot. -/
structure DurationStats where
  average : ℚ
  p50 : ℚ
  p95 : ℚ
  p99 : ℚ

/-- What `snapshot` returns. -/
structure Snapshot where
  version : String
  states : Status → ℕ
  queueDepth : ℕ
  admittedActive : ℕ
  queueLimit : ℕ
  saturation : ℚ
  submitted : ℕ
  completed : ℕ
  failed : ℕ
  retries : ℕ
  throughput60s : ℚ
  latencyWindowSeconds : ℕ
  duration : DurationStats
  averageQueueWait : ℚ
  workers : List WorkerRow
  workerStates : WorkerState → ℕ
  /-- The last system events, with their ids. -/
  systemEvents : List (ℕ × SystemEvent)
  /-- The last job events, with their ids. -/
  jobEvents : List (ℕ × Event)

/-- The last rows of a log with their ids, newest first. -/
def lastRows {α : Type} (log : List α) (n : ℕ) : List (ℕ × α) :=
  ((log.zipIdx 1).reverse.take n).map fun e => (e.2, e.1)

/-- Number of jobs in a state. -/
def statesOf (db : Database) (s : Status) : ℕ :=
  db.jobs.rows.countP fun j => decide (j.status = s)

/-- Number of events with a state. -/
def countsOf (db : Database) (s : EventState) : ℕ :=
  db.events.countP fun e => decide (e.state = s)

/-- The attempts that ended within the latency window. -/
def endedSince (db : Database) (since : Time) : List Attempt :=
  db.attempts.rows.filter fun a => a.finishedAt.any fun t => decide (since ≤ t)

/-- The durations of those that had started. -/
def durations (db : Database) (since : Time) : List ℚ :=
  (endedSince db since).filterMap fun a => do
    let startedAt ← a.startedAt
    let finishedAt ← a.finishedAt
    pure (finishedAt - startedAt)

/-- The queue waits of those whose job exists. -/
def queueWaits (db : Database) (since : Time) : List ℚ :=
  (endedSince db since).filterMap fun a => do
    let job ← db.jobs.find? a.jobId
    pure (a.createdAt - job.createdAt)

/-- `snapshot`, at the moments of `worker_rows` and of its own reading of the clock.  Its
statements are two counts, those of `worker_rows`, the count of the workers, the clock, the
durations, the queue waits, the throughput and the two logs. -/
def snapshotOver (see : ℕ → Database) (m n : Moment) (queueLimit : ℕ) : Snapshot :=
  let states := statesOf (see 0)
  let counts := countsOf (see 1)
  let since := n.time - 3600
  let duration := durations (see 7) since
  let throughput := (see 9).jobs.rows.countP fun j =>
    decide (j.status = .succeeded) && decide (n.time - 60 ≤ j.updatedAt)
  let depth := states .queued + states .retryWait
  let active := depth + states .leased + states .running
  { version := "1.0.0"
    states
    queueDepth := depth
    admittedActive := active
    queueLimit
    saturation := (active : ℚ) / queueLimit
    submitted := counts .submitted
    completed := counts (.entered .succeeded)
    failed := counts (.entered .failed) + counts (.entered .deadLetter)
    retries := counts (.entered .retryWait)
    throughput60s := (throughput : ℚ) / 60
    latencyWindowSeconds := 3600
    duration := {
      average := average duration
      p50 := percentileCont (1 / 2) duration
      p95 := percentileCont (95 / 100) duration
      p99 := percentileCont (99 / 100) duration }
    averageQueueWait := average (queueWaits (see 8) since)
    workers := workerRowsOver (fun i => see (i + 2)) m
    workerStates := fun s => (see 5).workers.rows.countP fun w => decide (w.state = s)
    systemEvents := lastRows (see 10).systemEvents 30
    jobEvents := lastRows (see 11).events 30 }

/-- `snapshot` on one database. -/
def snapshot (db : Database) (m n : Moment) (queueLimit : ℕ) : Snapshot :=
  snapshotOver (fun _ => db) m n queueLimit

/-- A line of the exposition format. -/
inductive MetricLine
  /-- `# TYPE metric kind`. -/
  | type (metric kind : String)
  /-- `metric{labels} value`. -/
  | sample (metric : String) (labels : List (String × String)) (value : ℚ)

/-- `worker["running"] / worker["capacity"]`. -/
def WorkerRow.utilization (w : WorkerRow) : ℚ := (w.running : ℚ) / w.capacity

/-- The per-worker series: dead workers have none. -/
def Snapshot.live (data : Snapshot) : List WorkerRow :=
  data.workers.filter fun w => decide (w.state ≠ .dead)

/-- `prometheus`. -/
def prometheus (data : Snapshot) : List MetricLine :=
  let values : List (String × ℚ) := [
    ("jobs_submitted_total", data.submitted),
    ("jobs_completed_total", data.completed),
    ("jobs_failed_total", data.failed),
    ("jobs_retried_total", data.retries),
    ("queue_depth", data.queueDepth),
    ("queue_saturation_ratio", data.saturation),
    ("throughput_per_second", data.throughput60s),
    ("queue_wait_seconds", data.averageQueueWait)]
  (values.flatMap fun (key, value) =>
    let kind := if key.endsWith "_total" then "counter" else "gauge"
    [.type ("greyqueue_" ++ key) kind, .sample ("greyqueue_" ++ key) [] value]) ++
  [.type "greyqueue_job_duration_seconds" "gauge",
    .sample "greyqueue_job_duration_seconds" [("statistic", "average")] data.duration.average,
    .sample "greyqueue_job_duration_seconds" [("statistic", "p50")] data.duration.p50,
    .sample "greyqueue_job_duration_seconds" [("statistic", "p95")] data.duration.p95,
    .sample "greyqueue_job_duration_seconds" [("statistic", "p99")] data.duration.p99,
    .type "greyqueue_workers" "gauge",
    .sample "greyqueue_workers" [("state", "HEALTHY")] (data.workerStates .healthy),
    .sample "greyqueue_workers" [("state", "SUSPECT")] (data.workerStates .suspect),
    .sample "greyqueue_workers" [("state", "DEAD")] (data.workerStates .dead),
    .sample "greyqueue_workers" [("state", "DRAINING")] (data.workerStates .draining),
    .type "greyqueue_worker_utilization" "gauge"] ++
  (data.live.map fun w =>
    .sample "greyqueue_worker_utilization" [("worker", w.id)] w.utilization) ++
  [.type "greyqueue_worker_heartbeat_age_seconds" "gauge"] ++
  data.live.map fun w =>
    .sample "greyqueue_worker_heartbeat_age_seconds" [("worker", w.id)] w.heartbeatAgeSeconds

end GreyQueue
