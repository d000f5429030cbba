import GreyQueue.Service

/-!
# Maintenance

The two transactions of `recovery.tick`: `recover_jobs` expires leases and cancels
the waiting children of failed parents, `detect_workers` marks silent workers.
-/

namespace GreyQueue

open Lib

/-- The error of an expired lease. -/
def leaseExpiredError : String := "Lease expired; execution outcome unknown"

/-- The body of recovery's first loop: the attempt is read again under the lock of its
job, and it is failed only if it is still open and expired. -/
def expire (job : Job) : Tx Unit := do
  match ← Prog.issue (.openAttemptOf job.id) with
  | none => pure ()
  | some attempt => do
      let t ← databaseTime
      if attempt.expiresAt ≤ t then do
        failAttempt job attempt leaseExpiredError true .leaseExpired
        addSystemEvent .leaseExpired (some attempt.workerId) (some (job.id, attempt.id))
      else pure ()

/-- `recover_jobs`. -/
def recoverJobs (limit : ℕ := 100) : Tx ℕ := do
  let free ← Prog.issue (.tryAdvisoryLock 741902)
  if free then do
    let timestamp ← databaseTime
    let jobs ← Prog.issue (.expiredJobs timestamp limit)
    Prog.forEach jobs expire
    let blocked ← Prog.issue (.blockedJobs limit)
    Prog.forEach blocked fun job => do
      let _ ← transition job .cancelled
    pure jobs.length
  else pure 0

/-- The body of the loop of `detect_workers`. -/
def detect (timestamp : Time) (deadAfter : ℚ) (worker : Worker) : Tx Unit :=
  let dead := decide (deadAfter ≤ timestamp - worker.lastSeen)
  let state : WorkerState := if dead then .dead else .suspect
  if worker.state = .draining ∧ state = .suspect then pure ()
  else if worker.state ≠ state then do
    flush (.setWorker { worker with state })
    addSystemEvent (if dead then .workerDead else .workerSuspect) (some worker.id)
  else pure ()

/-- `detect_workers`. -/
def detectWorkers (suspectAfter deadAfter : ℚ) : Tx Unit := do
  let timestamp ← databaseTime
  let workers ← Prog.issue (.silentWorkers (timestamp - suspectAfter))
  Prog.forEach workers (detect timestamp deadAfter)

end GreyQueue
