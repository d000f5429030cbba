import GreyQueue.Lib.Program
import GreyQueue.Scheduler

/-!
# Statements of a session

Every query and every flushed change of `service.py`, `recovery.py` and `api.py`
is one statement here.  `Sql.eval` is its meaning on the database the session sees;
a `Moment` is what the world outside the transaction contributes when the statement
runs: the clock, a fresh UUID, a random factor, the rows that other transactions
hold, and the order in which the server returns rows that no `ORDER BY` sorts.

Inserts check the unique constraints of the schema and fail with the name of the
one that is violated.
-/

namespace GreyQueue

open Lib

/-- Exceptions that leave an operation. -/
inductive Error
  /-- `service.Conflict`, status 409. -/
  | conflict (detail : String)
  /-- `service.Missing`, status 404. -/
  | missing (detail : String)
  /-- `service.Saturated`, status 429. -/
  | saturated (detail : String)
  /-- `service.Invalid`, status 422 at the field it names. -/
  | invalid (detail field : String)
  /-- `pydantic.ValidationError` of the task's arguments, by the argument names. -/
  | validation (loc : List Text)
  /-- The 401 of `identity`. -/
  | unauthorized (detail : String)
  /-- `IntegrityError`, by the constraint it violates. -/
  | integrity (constraint : String)
  /-- `OverflowError` of `astimezone`. -/
  | overflow
  /-- `AttributeError` on a missing row. -/
  | attribute (name : String)
  deriving DecidableEq

/-- What the outside world contributes to one statement. -/
structure Moment where
  /-- `clock_timestamp()`. -/
  time : Time
  /-- `now()`, the start of the transaction. -/
  start : Time
  /-- `uuid4()`. -/
  uuid : Uuid
  /-- `random.uniform(0.5, 1.5)`. -/
  uniform : ℚ := 1
  uniform_ge : 1 / 2 ≤ uniform := by norm_num
  uniform_le : uniform ≤ 3 / 2 := by norm_num
  /-- Job rows locked by other transactions. -/
  locked : Uuid → Bool := fun _ => false
  /-- Worker rows locked by other transactions. -/
  workerLocked : String → Bool := fun _ => false
  /-- Position at which the server returns a job row without `ORDER BY`. -/
  rank : Uuid → ℕ := fun _ => 0
  /-- Position at which the server returns a worker row without `ORDER BY`. -/
  workerRank : String → ℕ := fun _ => 0
  /-- Whether `pg_try_advisory_xact_lock` gets its lock. -/
  free : Bool := true

/-- Moments in which the clock stands still and UUIDs are drawn from a range of their own. -/
def Moment.still (t : ℕ) : ℕ → Moment :=
  fun n => { time := t, start := t, uuid := Fin.ofNat _ (100 * t + n) }

/-- Flushed changes. -/
inductive Write
  | addJob (job : Job)
  | setJob (job : Job)
  | addAttempt (attempt : Attempt)
  | setAttempt (attempt : Attempt)
  | addResult (result : Result)
  | addEvent (event : Event)
  | setWorker (worker : Worker)
  | addSystemEvent (event : SystemEvent)

/-- An insert that fails with the violated constraint when the primary key is taken. -/
def insertOr {ρ κ : Type} [Keyed ρ κ] [DecidableEq κ] (t : Table ρ) (row : ρ)
    (constraint : String) : Except Error (Table ρ) :=
  match t.insert? row with
  | some u => .ok u
  | none => .error (.integrity constraint)

/-- The effect of a change, under the unique constraints of the schema. -/
def Write.apply : Write → Database → Except Error Database
  | .addJob job, db =>
      if job.idempotencyKey.isSome ∧ ∃ j ∈ db.jobs.rows, j.idempotencyKey = job.idempotencyKey then
        .error (.integrity "jobs_idempotency_key_key")
      else do
        let jobs ← insertOr db.jobs job "jobs_pkey"
        .ok { db with jobs }
  | .setJob job, db => .ok { db with jobs := db.jobs.put job }
  | .addAttempt a, db =>
      if ∃ b ∈ db.attempts.rows, b.claimId = a.claimId then
        .error (.integrity "attempts_claim_id_key")
      else if a.isOpen ∧ ∃ b ∈ db.attempts.rows,
          b.isOpen ∧ b.workerId = a.workerId ∧ b.slot = a.slot then
        .error (.integrity "ix_attempt_active_slot")
      else if a.isOpen ∧ ∃ b ∈ db.attempts.rows, b.isOpen ∧ b.jobId = a.jobId then
        .error (.integrity "ix_attempt_active_job")
      else do
        let attempts ← insertOr db.attempts a "attempts_pkey"
        .ok { db with attempts }
  | .setAttempt a, db => .ok { db with attempts := db.attempts.put a }
  | .addResult r, db => do
      let results ← insertOr db.results r "results_pkey"
      .ok { db with results }
  | .addEvent e, db => .ok { db with events := db.events ++ [e] }
  | .setWorker w, db => .ok { db with workers := db.workers.put w }
  | .addSystemEvent e, db => .ok { db with systemEvents := db.systemEvents ++ [e] }

/-- `service.ACTIVE`. -/
def active : List Status := [.queued, .retryWait, .leased, .running]

/-- `service.TERMINAL`. -/
def terminal : List Status := [.succeeded, .failed, .cancelled, .deadLetter]

/-- The `WHERE` clause of recovery's first query: a held job with an open attempt that
expired at `timestamp`. -/
def leaseExpired (db : Database) (timestamp : Time) (job : Job) : Bool :=
  job.status.held && db.attempts.rows.any fun a =>
    decide (a.jobId = job.id) && a.isOpen && decide (a.expiresAt ≤ timestamp)

/-- The `WHERE` clause of recovery's second query: a waiting job whose parent failed,
was dead-lettered or cancelled. -/
def parentFailed (db : Database) (job : Job) : Bool :=
  job.dependsOn.isSome && job.status.waiting && db.jobs.rows.any fun parent =>
    decide (job.dependsOn = some parent.id) &&
      decide (parent.status ∈ [Status.failed, .deadLetter, .cancelled])

/-- The `WHERE` clause of `detect_workers`. -/
def silent (deadline : Time) (worker : Worker) : Bool :=
  decide (worker.state ≠ .dead) && decide (worker.lastSeen < deadline)

/-- `FOR UPDATE SKIP LOCKED LIMIT n` on job rows, in the order the server returns them. -/
def Moment.take (m : Moment) (limit : ℕ) (rows : List Job) : List Job :=
  ((rows.insertionSort fun a b => m.rank a.id ≤ m.rank b.id).filter
    fun j => !m.locked j.id).take limit

/-- Statements, by the type of their answer. -/
inductive Sql : Type → Type
  /-- `SELECT clock_timestamp()`. -/
  | clockTimestamp : Sql Time
  /-- The server default `now()` of an inserted row. -/
  | now : Sql Time
  /-- `uuid4()` in the client. -/
  | uuid4 : Sql Uuid
  /-- `random.uniform(0.5, 1.5)` in the client. -/
  | uniform : Sql ℚ
  /-- `pg_advisory_xact_lock(key)`. -/
  | advisoryLock (key : ℕ) : Sql Unit
  /-- `pg_try_advisory_xact_lock(key)`. -/
  | tryAdvisoryLock (key : ℕ) : Sql Bool
  /-- The worker row, `FOR UPDATE`. -/
  | worker (id : String) : Sql (Option Worker)
  /-- The job row; with `lock`, `FOR UPDATE`. -/
  | job (id : Uuid) (lock : Bool) : Sql (Option Job)
  /-- The attempt with the given token. -/
  | attempt (id : Uuid) : Sql (Option Attempt)
  /-- The attempt made by a claim request. -/
  | attemptByClaim (claimId : Uuid) : Sql (Option Attempt)
  /-- The open attempt of a worker's slot. -/
  | openAttempt (workerId : String) (slot : ℤ) : Sql (Option Attempt)
  /-- The open attempt of a job. -/
  | openAttemptOf (jobId : Uuid) : Sql (Option Attempt)
  /-- The job with an idempotency key. -/
  | jobByKey (key : String) : Sql (Option Job)
  /-- Number of jobs in the active states. -/
  | countActive : Sql ℕ
  /-- Number of jobs created at or after a time. -/
  | countSince (t : Time) : Sql ℕ
  /-- The first claimable job, `FOR UPDATE SKIP LOCKED LIMIT 1`. -/
  | nextJob (policy : Policy) (worker : Worker) (timestamp : Time) : Sql (Option Job)
  /-- Jobs with an expired lease, `FOR UPDATE SKIP LOCKED`. -/
  | expiredJobs (timestamp : Time) (limit : ℕ) : Sql (List Job)
  /-- Waiting jobs with a failed parent, `FOR UPDATE SKIP LOCKED`. -/
  | blockedJobs (limit : ℕ) : Sql (List Job)
  /-- Workers not seen since a deadline, `FOR UPDATE SKIP LOCKED`. -/
  | silentWorkers (deadline : Time) : Sql (List Worker)
  /-- `INSERT ... ON CONFLICT DO NOTHING RETURNING id`. -/
  | insertWorker (worker : Worker) : Sql Bool
  /-- A flushed change. -/
  | write (w : Write) : Sql Unit

/-- The meaning of a statement. -/
def Sql.eval {β : Type} (s : Sql β) (m : Moment) (db : Database) : Except Error (β × Database) :=
  match s with
  | .clockTimestamp => .ok (m.time, db)
  | .now => .ok (m.start, db)
  | .uuid4 => .ok (m.uuid, db)
  | .uniform => .ok (m.uniform, db)
  | .advisoryLock _ => .ok ((), db)
  | .tryAdvisoryLock _ => .ok (m.free, db)
  | .worker id => .ok (db.workers.find? id, db)
  | .job id _ => .ok (db.jobs.find? id, db)
  | .attempt id => .ok (db.attempts.find? id, db)
  | .attemptByClaim c => .ok (db.attempts.rows.find? fun a => decide (a.claimId = c), db)
  | .openAttempt w s =>
      .ok (db.attempts.rows.find? fun a =>
        decide (a.workerId = w) && decide (a.slot = s) && a.isOpen, db)
  | .openAttemptOf j =>
      .ok (db.attempts.rows.find? fun a => decide (a.jobId = j) && a.isOpen, db)
  | .jobByKey k => .ok (db.jobs.rows.find? fun j => decide (j.idempotencyKey = some k), db)
  | .countActive => .ok (db.jobs.rows.countP fun j => decide (j.status ∈ active), db)
  | .countSince t => .ok (db.jobs.rows.countP fun j => decide (t ≤ j.createdAt), db)
  | .nextJob p w t => .ok ((p.query w t db).find? fun j => !m.locked j.id, db)
  | .expiredJobs t n => .ok (m.take n (db.jobs.rows.filter (leaseExpired db t)), db)
  | .blockedJobs n => .ok (m.take n (db.jobs.rows.filter (parentFailed db)), db)
  | .silentWorkers t =>
      .ok (((db.workers.rows.filter (silent t)).insertionSort
        fun a b => m.workerRank a.id ≤ m.workerRank b.id).filter
          fun w => !m.workerLocked w.id, db)
  | .insertWorker w =>
      match db.workers.insert? w with
      | some workers => .ok (true, { db with workers })
      | none => .ok (false, db)
  | .write w => (w.apply db).map fun db' => ((), db')

instance : Handler Sql Error Database Moment := ⟨Sql.eval⟩

/-- A transaction body. -/
abbrev Tx (α : Type) := Prog Sql Error α

/-- Raise an exception. -/
def raise {α : Type} (e : Error) : Tx α := Prog.throw e

/-- `database_time`: the wall clock, read when the statement runs. -/
def databaseTime : Tx Time := Prog.issue .clockTimestamp

/-- Flush a change. -/
def flush (w : Write) : Tx Unit := Prog.issue (.write w)

/-- Append an event; its `created_at` is the server default. -/
def addEvent (jobId : Uuid) (state : EventState) : Tx Unit := do
  let now ← Prog.issue .now
  flush (.addEvent ⟨jobId, state, now⟩)

/-- Append a system event; its `created_at` is the server default. -/
def addSystemEvent (kind : SystemKind) (workerId : Option String)
    (detail : Option (Uuid × Uuid) := none) : Tx Unit := do
  let now ← Prog.issue .now
  flush (.addSystemEvent ⟨kind, workerId, detail, now⟩)

end GreyQueue
