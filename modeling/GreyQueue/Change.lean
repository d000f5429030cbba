import GreyQueue.Lib.Machine
import GreyQueue.Api

/-!
# Changes

What the transactions do to the database, said once: a committed transaction is a list
of changes, and every invariant is proved of changes.  A change carries the rows it
read; its guard says what the code checked, and its effect what it wrote.

## Main definitions

* `Change` — the atomic changes of jobs, attempts, results and workers.
* `Change.guard`, `Change.effect` — when a change may happen, and what it does.
* `Change.Timed` — what the clock readings say about a change.
* `changes` — the machine of all changes.
-/

namespace GreyQueue

open Lib

/-- The clock readings of a transition: `updated_at` and the event's `created_at`. -/
structure Stamp where
  updatedAt : Time
  now : Time

/-- Atomic changes. -/
inductive Change
  /-- A job is admitted under the given limits. -/
  | admitted (job : Job) (queueLimit submissionsPerMinute : ℕ) (now now' : Time)
  /-- A healthy worker leases a job. -/
  | lease (worker : Worker) (job : Job) (attempt : Attempt) (timestamp : Time) (s : Stamp)
  /-- A leased attempt starts. -/
  | start (job : Job) (attempt : Attempt) (startedAt : Time) (s : Stamp)
  /-- A started attempt is extended. -/
  | renew (job : Job) (attempt : Attempt) (expiresAt : Time)
  /-- A running attempt delivers an output. -/
  | succeed (job : Job) (attempt : Attempt) (output : Option Json) (finishedAt : Time) (s : Stamp)
  /-- A held attempt fails and its job waits for a retry. -/
  | retry (job : Job) (attempt : Attempt) (outcome : AttemptOutcome) (error : String)
      (finishedAt availableAt : Time) (s : Stamp)
  /-- A held attempt fails and its job ends. -/
  | fail (job : Job) (attempt : Attempt) (outcome : AttemptOutcome) (error : String)
      (retryable : Bool) (finishedAt : Time) (s : Stamp)
  /-- A waiting job is cancelled. -/
  | cancel (job : Job) (s : Stamp)
  /-- A new worker id registers. -/
  | enroll (worker : Worker)
  /-- A worker shows that it is alive. -/
  | seen (worker : Worker) (t : Time)
  /-- An operator drains a worker. -/
  | drain (worker : Worker)
  /-- Another process takes a dead id over. -/
  | takeover (worker : Worker) (body : Registration) (hash : String) (t : Time)
  /-- A silent worker is marked. -/
  | mark (worker : Worker) (state : WorkerState)
  /-- A system event. -/
  | log (event : SystemEvent)

/-- The row of a job that enters a state. -/
def Job.enter (job : Job) (state : Status) (s : Stamp) : Job :=
  { job with status := state, updatedAt := s.updatedAt }

/-- The row of a job that is leased: one more attempt. -/
def Job.leased (job : Job) (s : Stamp) : Job :=
  Job.enter { job with attemptCount := job.attemptCount + 1 } .leased s

/-- The row of an attempt that ends without success. -/
def Attempt.close (a : Attempt) (outcome : AttemptOutcome) (error : String) (finishedAt : Time) :
    Attempt :=
  { a with finishedAt := some finishedAt, outcome := some outcome, error := some error }

/-- The row of an attempt that succeeds. -/
def Attempt.deliver (a : Attempt) (output : Option Json) (finishedAt : Time) : Attempt :=
  { a with output := output, outcome := some .succeeded, finishedAt := some finishedAt }

/-- The event of a job that enters a state. -/
def entered (job : Job) (state : Status) (s : Stamp) : Event := ⟨job.id, .entered state, s.now⟩

/-- The effect of a change. -/
def Change.effect : Change → Database → Database
  | .admitted job _ _ now now', db =>
      { db with
        jobs := db.jobs.add job
        events := db.events ++ [⟨job.id, .submitted, now⟩, ⟨job.id, .entered .queued, now'⟩] }
  | .lease _ job a _ s, db =>
      { db with
        jobs := db.jobs.put (job.leased s)
        attempts := db.attempts.add a
        events := db.events ++ [entered job .leased s] }
  | .start job a startedAt s, db =>
      { db with
        jobs := db.jobs.put (job.enter .running s)
        attempts := db.attempts.put { a with startedAt := some startedAt }
        events := db.events ++ [entered job .running s] }
  | .renew _ a expiresAt, db =>
      { db with attempts := db.attempts.put { a with expiresAt } }
  | .succeed job a output finishedAt s, db =>
      { db with
        jobs := db.jobs.put (job.enter .succeeded s)
        attempts := db.attempts.put (a.deliver output finishedAt)
        results := db.results.add ⟨job.id, output, none⟩
        events := db.events ++ [entered job .succeeded s] }
  | .retry job a outcome error finishedAt availableAt s, db =>
      { db with
        jobs := db.jobs.put (Job.enter { job with availableAt } .retryWait s)
        attempts := db.attempts.put (a.close outcome error finishedAt)
        events := db.events ++ [entered job .retryWait s] }
  | .fail job a outcome error retryable finishedAt s, db =>
      let state : Status := if retryable then .deadLetter else .failed
      { db with
        jobs := db.jobs.put (job.enter state s)
        attempts := db.attempts.put (a.close outcome error finishedAt)
        results := db.results.add ⟨job.id, none, some error⟩
        events := db.events ++ [entered job state s] }
  | .cancel job s, db =>
      { db with
        jobs := db.jobs.put (job.enter .cancelled s)
        events := db.events ++ [entered job .cancelled s] }
  | .enroll w, db => { db with workers := db.workers.add w }
  | .seen w t, db =>
      { db with workers := db.workers.put { w with lastSeen := t, state := w.returning } }
  | .drain w, db =>
      { db with workers := db.workers.put { w with state := .draining, drainRequested := true } }
  | .takeover w body hash t, db =>
      { db with
        workers := db.workers.put { w with
          sessionHash := some hash, capacity := body.capacity
          capabilities := body.capabilities, state := .healthy, lastSeen := t
          drainRequested := false } }
  | .mark w state, db => { db with workers := db.workers.put { w with state } }
  | .log e, db => { db with systemEvents := db.systemEvents ++ [e] }

/-- The attempt is the open one that the job's holder owns. -/
structure Holds (db : Database) (job : Job) (a : Attempt) : Prop where
  job_row : db.jobs.find? job.id = some job
  attempt_row : db.attempts.find? a.id = some a
  attempt_job : a.jobId = job.id
  is_open : a.finishedAt = none

/-- What `admit` has checked. -/
structure Admissible (db : Database) (job : Job) (queueLimit submissionsPerMinute : ℕ) :
    Prop where
  fresh : db.jobs.find? job.id = none
  key_fresh : ∀ k, job.idempotencyKey = some k →
    ∀ j ∈ db.jobs.rows, j.idempotencyKey ≠ some k
  queue_bound : (db.jobs.rows.countP fun j => decide (j.status ∈ active)) < queueLimit
  rate_bound : (db.jobs.rows.countP fun j => decide (job.createdAt - 60 ≤ j.createdAt)) <
    submissionsPerMinute
  parent : ∀ p, job.dependsOn = some p → ∃ parent, db.jobs.find? p = some parent ∧
    (parent.status ∈ terminal → parent.status = .succeeded)
  queued : job.status = .queued
  no_attempts : job.attemptCount = 0

/-- What `claim` has checked before it creates an attempt. -/
structure Leasable (db : Database) (worker : Worker) (job : Job) (a : Attempt)
    (timestamp : Time) : Prop where
  worker_row : db.workers.find? worker.id = some worker
  healthy : worker.state = .healthy
  slot_range : 0 ≤ a.slot ∧ a.slot < worker.capacity
  job_row : db.jobs.find? job.id = some job
  ready : claimable db worker timestamp job = true
  fresh : db.attempts.find? a.id = none
  claim_fresh : ∀ b ∈ db.attempts.rows, b.claimId ≠ a.claimId
  slot_free : ∀ b ∈ db.attempts.rows, b.workerId = worker.id → b.slot = a.slot →
    b.isOpen = false
  attempt_job : a.jobId = job.id
  attempt_worker : a.workerId = worker.id
  fence : a.fence = job.attemptCount + 1
  is_new : a.finishedAt = none ∧ a.startedAt = none ∧ a.outcome = none ∧ a.output = none ∧
    a.error = none

/-- When a change may happen. -/
def Change.guard : Change → Database → Prop
  | .admitted job queueLimit submissionsPerMinute _ _, db =>
      Admissible db job queueLimit submissionsPerMinute
  | .lease w job a timestamp _, db => Leasable db w job a timestamp
  | .start job a _ _, db =>
      Holds db job a ∧ a.fence = job.attemptCount ∧ job.status = .leased
  | .renew job a _, db => Holds db job a ∧ a.fence = job.attemptCount ∧ a.startedAt.isSome
  | .succeed job a _ _ _, db =>
      Holds db job a ∧ a.fence = job.attemptCount ∧ job.status = .running ∧
        db.results.find? job.id = none
  | .retry job a outcome _ _ _ _, db =>
      Holds db job a ∧ job.status.held = true ∧ job.attemptCount ≤ job.maxRetries ∧
        outcome ≠ .succeeded ∧ (outcome = .failed → job.status = .running)
  | .fail job a outcome _ retryable _ _, db =>
      Holds db job a ∧ job.status.held = true ∧
        (retryable = true → job.maxRetries < job.attemptCount) ∧
        (retryable = false → outcome = .failed) ∧
        outcome ≠ .succeeded ∧ (outcome = .failed → job.status = .running) ∧
        db.results.find? job.id = none
  | .cancel job _, db => db.jobs.find? job.id = some job ∧ job.status.waiting = true
  | .enroll w, db =>
      db.workers.find? w.id = none ∧ w.state = .healthy ∧ w.drainRequested = false
  | .seen w _, db => db.workers.find? w.id = some w
  | .drain w, db => db.workers.find? w.id = some w ∧ w.state ≠ .dead
  | .takeover w _ hash _, db =>
      db.workers.find? w.id = some w ∧ w.state = .dead ∧ w.sessionHash.getD "" ≠ hash
  | .mark w state, db =>
      db.workers.find? w.id = some w ∧ w.state ≠ .dead ∧
        (state = .dead ∨ (state = .suspect ∧ w.state ≠ .draining))
  | .log _, _ => True

/-! ## Times -/

/-- The clock showed `t` at a moment in `A`. -/
def Reads (A : Moment → Prop) (t : Time) : Prop := ∃ m, A m ∧ t = m.time

/-- The attempt was found in time: a reading precedes its expiry. -/
def Attempt.InTime (A : Moment → Prop) (a : Attempt) : Prop := ∃ t, Reads A t ∧ t < a.expiresAt

/-- The delay after the failure of an attempt with the given fence, before jitter. -/
def Job.backoff (job : Job) (fence : ℕ) : ℚ := min (job.retryDelay * 2 ^ ((fence : ℤ) - 1)) 3600

/-- The factor of the delay: one without jitter, else a draw of `uniform`. -/
def Job.Jitter (job : Job) (u : ℚ) : Prop :=
  (job.retryJitter = false → u = 1) ∧ 1 / 2 ≤ u ∧ u ≤ 3 / 2

/-- When an attempt can fail: a worker reports it in time, recovery only expires it late. -/
def Attempt.Fails (A : Moment → Prop) (a : Attempt) (outcome : AttemptOutcome) : Prop :=
  (outcome = .failed → a.InTime A) ∧
    (outcome = .leaseExpired → ∃ t, Reads A t ∧ a.expiresAt ≤ t)

/-- The times in a change, for a transaction whose statements run at moments in `A` on a
coordinator with the given lease. -/
def Change.Timed (A : Moment → Prop) (leaseSeconds : ℚ) : Change → Prop
  | .admitted job _ _ _ _ => Reads A job.createdAt
  | .lease _ _ a timestamp _ =>
      Reads A timestamp ∧ a.expiresAt = timestamp + leaseSeconds ∧
        ∃ m, A m ∧ a.createdAt = m.start
  | .start _ a startedAt _ => a.InTime A ∧ Reads A startedAt
  | .renew job a expiresAt => a.InTime A ∧ ∃ startedAt t, a.startedAt = some startedAt ∧
      Reads A t ∧ expiresAt = min (t + leaseSeconds) (startedAt + (job.timeout + 5)) ∧
      t < expiresAt
  | .succeed _ a _ finishedAt _ => a.InTime A ∧ Reads A finishedAt
  | .retry job a outcome _ finishedAt availableAt _ =>
      a.Fails A outcome ∧ Reads A finishedAt ∧
        ∃ u, job.Jitter u ∧ availableAt = finishedAt + job.backoff job.attemptCount * u
  | .fail _ a outcome _ _ finishedAt _ => a.Fails A outcome ∧ Reads A finishedAt
  | _ => True

/-- The machine of all changes. -/
def changes : Machine Database Change := ⟨Change.guard, Change.effect⟩

@[simp] theorem changes_effect (c : Change) (db : Database) :
    changes.effect c db = c.effect db := rfl

end GreyQueue
