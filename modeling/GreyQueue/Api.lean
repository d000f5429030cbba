import GreyQueue.Recovery

/-!
# Routes

The routes of `api.py` that change the database, each with the session check it makes
first, and one coordinator serving them: `serve` is the transaction of a request and
`commit` runs it, keeping its changes only when it returns.

A request has passed the validation of its body.  The bearer token of the route is
checked before a session is opened and is not part of the model.
-/

namespace GreyQueue

open Lib

variable [Sha256]

/-- `identity`: lock the worker row, then compare the session. -/
def identity (workerId : String) (credential : Option String) : Tx Worker := do
  match ← Prog.issue (.worker workerId) with
  | none => raise (.unauthorized "Invalid worker session")
  | some record =>
      let hashed := Sha256.hexdigest (credential.getD "")
      if record.sessionHash.getD "" = "" ∨ record.sessionHash ≠ some hashed then
        raise (.unauthorized "Invalid worker session")
      else pure record

/-- `drain`: the worker's state after the request. -/
def drain (workerId : String) : Tx WorkerState := do
  match ← Prog.issue (.worker workerId) with
  | none => raise (.missing "Worker not found")
  | some record =>
      if record.state = .dead then raise (.conflict "Worker is dead; there is nothing to drain")
      else if record.state ≠ .draining then do
        flush (.setWorker { record with state := .draining, drainRequested := true })
        addSystemEvent .workerDraining (some workerId)
        pure .draining
      else do
        flush (.setWorker { record with drainRequested := true })
        pure record.state

/-- What a returning worker is told to do: an operator's drain outlives its absence. -/
def Worker.returning (w : Worker) : WorkerState := if w.drainRequested then .draining else .healthy

/-- The row of a new worker. -/
def Registration.worker (body : Registration) (now : Time) : Worker where
  id := body.workerId
  capacity := body.capacity
  capabilities := body.capabilities
  sessionHash := some (Sha256.hexdigest body.sessionToken)
  registeredAt := now
  lastSeen := now

/-- `register`: insert the worker, acknowledge or revive its own replay, or take over a
dead id. -/
def register (body : Registration) : Tx Unit := do
  let digest := Sha256.hexdigest body.sessionToken
  let now ← Prog.issue .now
  let inserted ← Prog.issue (.insertWorker (body.worker now))
  match ← Prog.issue (.worker body.workerId) with
  | none => raise (.attribute "session_hash")
  | some record =>
      if inserted then addSystemEvent .workerRegistered (some body.workerId)
      else if record.sessionHash.getD "" = digest then
        if record.state = .dead then do
          let t ← databaseTime
          flush (.setWorker { record with lastSeen := t, state := record.returning })
          addSystemEvent .workerRecovered (some body.workerId)
        else pure ()
      else if record.state ≠ .dead then
        raise (.conflict "Worker ID is already owned; use a new ID")
      else do
        let t ← databaseTime
        flush (.setWorker { record with
          sessionHash := some digest, capacity := body.capacity
          capabilities := body.capabilities, state := .healthy, lastSeen := t
          drainRequested := false })
        addSystemEvent .workerReregistered (some body.workerId)

/-- `heartbeat`: the state the worker is told. -/
def heartbeat (workerId : String) (credential : Option String) : Tx WorkerState := do
  let record ← identity workerId credential
  let t ← databaseTime
  if record.state = .suspect ∨ record.state = .dead then
    addSystemEvent .workerRecovered (some workerId)
  flush (.setWorker { record with lastSeen := t, state := record.returning })
  pure record.returning

/-- Requests that open a transaction, with the session header where the route reads it;
the last two are the transactions of the maintenance loop. -/
inductive Request
  | submit (body : Submit)
  | cancel (jobId : Uuid)
  | drain (workerId : String)
  | register (body : Registration)
  | heartbeat (workerId : String) (credential : Option String)
  | claim (body : Claim) (credential : Option String)
  | start (jobId : Uuid) (body : Assignment) (credential : Option String)
  | renew (jobId : Uuid) (body : Assignment) (credential : Option String)
  | finish (jobId : Uuid) (body : Completion) (credential : Option String)
  | recoverJobs (limit : ℕ)
  | detectWorkers

/-- What a committed request returns. -/
inductive Response
  | submitted (job : Job) (created : Bool)
  | cancelled
  | state (s : WorkerState)
  | registered (workerId : String) (leaseSeconds heartbeatInterval : ℚ)
  | assignment (item : Option (Job × Attempt))
  | running
  | renewed (expiresAt : Time)
  | recorded
  | maintained

/-- The transaction of a request on a coordinator with the given settings. -/
def serve (config : Settings) : Request → Tx Response
  | .submit body => do
      let (job, created) ← admitJob body config.queueLimit config.submissionsPerMinute
      pure (.submitted job created)
  | .cancel jobId => do
      cancel jobId
      pure .cancelled
  | .drain workerId => do
      let s ← drain workerId
      pure (.state s)
  | .register body => do
      register body
      pure (.registered body.workerId config.leaseSeconds config.heartbeatInterval)
  | .heartbeat workerId credential => do
      let s ← heartbeat workerId credential
      pure (.state s)
  | .claim body credential => do
      let _ ← identity body.workerId credential
      let item ← claim body.workerId body.slot (some body.claimId) config.scheduler
        config.leaseSeconds
      pure (.assignment item)
  | .start jobId body credential => do
      let _ ← identity body.workerId credential
      start jobId body.workerId body.token
      pure .running
  | .renew jobId body credential => do
      let _ ← identity body.workerId credential
      let expiresAt ← renew jobId body.workerId body.token config.leaseSeconds
      pure (.renewed expiresAt)
  | .finish jobId body credential => do
      let _ ← identity body.workerId credential
      finish jobId body.workerId body.token body.json body.error body.retryable
      pure .recorded
  | .recoverJobs limit => do
      let _ ← recoverJobs limit
      pure .maintained
  | .detectWorkers => do
      detectWorkers config.suspectAfter config.deadAfter
      pure .maintained

/-- A transaction: a request, the coordinator that serves it and the moments its
statements run in. -/
structure Txn where
  config : Settings := .standard
  request : Request
  feed : ℕ → Moment

/-- The outcome of a transaction that runs alone. -/
def Txn.outcome (t : Txn) (db : Database) : Outcome Error Database Moment Response :=
  (serve t.config t.request).exec t.feed db

/-- The answer of a transaction. -/
def Txn.answer (t : Txn) (db : Database) : Except Error Response := (t.outcome db).result

/-- The database after a transaction: its changes if it returns, else a rollback. -/
def commit (db : Database) (t : Txn) : Database :=
  match t.answer db with
  | .ok _ => (t.outcome db).state
  | .error _ => db

/-- A run: transactions one after the other, from the empty database. -/
def run (txns : List Txn) : Database := txns.foldl commit {}

end GreyQueue
