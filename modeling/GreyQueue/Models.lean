import GreyQueue.Lib.Json
import GreyQueue.Lib.Stamp
import GreyQueue.Lib.Table

/-!
# Rows and tables

The schema of `models.py`: workers, jobs, attempts, results, and the two append-only
event logs.  Times and durations are exact rationals in seconds; a timestamp counts
from the start of year 1 of UTC.  The identity columns of the event logs are the
positions in the lists.
-/

namespace GreyQueue

open Lib

/-- Seconds since the start of year 1 of UTC.  That `timedelta` rounds to microseconds is left
out. -/
abbrev Time := ℚ

/-- Job states. -/
inductive Status
  | queued | leased | running | succeeded | failed | cancelled | retryWait | deadLetter
  deriving DecidableEq, Repr

/-- The text of a job state. -/
def Status.name : Status → String
  | .queued => "QUEUED"
  | .leased => "LEASED"
  | .running => "RUNNING"
  | .succeeded => "SUCCEEDED"
  | .failed => "FAILED"
  | .cancelled => "CANCELLED"
  | .retryWait => "RETRY_WAIT"
  | .deadLetter => "DEAD_LETTER"

/-- What an event records: the submission, or a state the job entered. -/
inductive EventState
  | submitted
  | entered (s : Status)
  deriving DecidableEq, Repr

/-- Worker states. -/
inductive WorkerState
  | healthy | suspect | dead | draining
  deriving DecidableEq, Repr

/-- How an attempt ended. -/
inductive AttemptOutcome
  | succeeded | failed | leaseExpired
  deriving DecidableEq, Repr

/-- Kinds of system events. -/
inductive SystemKind
  | workerRegistered | workerRecovered | workerReregistered | workerDraining
  | workerSuspect | workerDead | leaseExpired
  deriving DecidableEq, Repr

/-- A row of `workers`. -/
structure Worker where
  id : String
  state : WorkerState := .healthy
  capacity : ℤ
  capabilities : List String
  sessionHash : Option String
  /-- Operator drain intent; survives the states `suspect` and `dead`. -/
  drainRequested : Bool := false
  registeredAt : Time
  lastSeen : Time

/-- A row of `jobs`. -/
structure Job where
  id : Uuid
  priority : ℤ
  timeout : ℚ
  maxRetries : ℕ
  retryDelay : ℚ
  retryJitter : Bool
  attemptCount : ℕ := 0
  idempotencyKey : Option String
  requestHash : Option String
  metadataJson : Json
  availableAt : Time
  dependsOn : Option Uuid
  task : String
  args : Json
  status : Status := .queued
  createdAt : Time
  updatedAt : Time

/-- A row of `attempts`; its `id` is the token handed to the worker. -/
structure Attempt where
  id : Uuid
  jobId : Uuid
  workerId : String
  createdAt : Time
  slot : ℤ
  claimId : Uuid
  fence : ℕ
  expiresAt : Time
  outcome : Option AttemptOutcome := none
  output : Option Json := none
  error : Option String := none
  startedAt : Option Time := none
  finishedAt : Option Time := none

/-- A row of `results`. -/
structure Result where
  jobId : Uuid
  output : Option Json
  error : Option String

/-- A row of `events`. -/
structure Event where
  jobId : Uuid
  state : EventState
  createdAt : Time

/-- A row of `system_events`; `detail` is the job and the attempt it names. -/
structure SystemEvent where
  kind : SystemKind
  workerId : Option String
  detail : Option (Uuid × Uuid) := none
  createdAt : Time

instance : Keyed Worker String := ⟨Worker.id⟩
instance : Keyed Job Uuid := ⟨Job.id⟩
instance : Keyed Attempt Uuid := ⟨Attempt.id⟩
instance : Keyed Result Uuid := ⟨Result.jobId⟩

@[simp] theorem key_worker (w : Worker) : Keyed.key w = w.id := rfl
@[simp] theorem key_job (j : Job) : Keyed.key j = j.id := rfl
@[simp] theorem key_attempt (a : Attempt) : Keyed.key a = a.id := rfl
@[simp] theorem key_result (r : Result) : Keyed.key r = r.jobId := rfl

/-- The database. -/
structure Database where
  workers : Table Worker := .empty
  jobs : Table Job := .empty
  attempts : Table Attempt := .empty
  results : Table Result := .empty
  events : List Event := []
  systemEvents : List SystemEvent := []

/-- An attempt without `finished_at`: the lease is open. -/
def Attempt.isOpen (a : Attempt) : Bool := a.finishedAt.isNone

/-- States a job can be claimed or cancelled in. -/
def Status.waiting : Status → Bool
  | .queued => true
  | .retryWait => true
  | _ => false

/-- States in which a worker holds the job. -/
def Status.held : Status → Bool
  | .leased => true
  | .running => true
  | _ => false

theorem Status.not_held_of_waiting {s : Status} (h : s.waiting = true) : ¬ s.held = true := by
  cases s with
  | queued | retryWait => decide
  | _ => cases h

theorem Status.live_of_waiting {s : Status} (h : s.waiting = true) :
    s ≠ .failed ∧ s ≠ .deadLetter := by
  cases s with
  | queued | retryWait => decide
  | _ => cases h

end GreyQueue
