import GreyQueue.Protocol

/-!
# Transactional operations

The operations of `service.py` as transaction bodies.  A row object that the source
mutates in place is threaded as a value, and each assignment to its attributes is
flushed where the source makes it, before any later check can raise.
-/

namespace GreyQueue

open Lib

/-- SHA-256 as a hexadecimal text. -/
class Sha256 where
  /-- `hashlib.sha256(text.encode()).hexdigest()`. -/
  hexdigest : String → String

/-- A digest by a table of its values; every other text has a value of its own. -/
abbrev Sha256.tabulated (table : List (String × String)) : Sha256 :=
  ⟨fun s => (table.lookup s).getD ("-" ++ s)⟩

/-- A table whose values differ and look like digests is injective. -/
theorem Sha256.tabulated_injective (table : List (String × String))
    (hnodup : (table.map Prod.snd).Nodup)
    (hhex : ∀ p ∈ table, p.2.toList.head? ≠ some '-') :
    Function.Injective (Sha256.tabulated table).hexdigest := by
  have hmem : ∀ {s v}, table.lookup s = some v → (s, v) ∈ table := by
    intro s v h
    obtain ⟨l, l', rfl, -⟩ := List.lookup_eq_some_iff.mp h
    simp
  have hfallback : ∀ {s v s'}, table.lookup s = some v → v ≠ "-" ++ s' := by
    rintro s v s' h rfl
    exact hhex _ (hmem h) (by simp)
  intro s s' h
  change (table.lookup s).getD ("-" ++ s) = (table.lookup s').getD ("-" ++ s') at h
  cases hs : table.lookup s <;> cases hs' : table.lookup s' <;>
    simp only [hs, hs', Option.getD_none, Option.getD_some] at h
  · simpa [String.ext_iff] using h
  · exact absurd h.symm (hfallback hs')
  · exact absurd h (hfallback hs)
  · have := List.inj_on_of_nodup_map hnodup (hmem hs) (hmem hs') h
    exact congrArg Prod.fst this

/-- ... and no value is empty if the table has no empty one. -/
theorem Sha256.tabulated_ne_empty (table : List (String × String)) (hne : ∀ p ∈ table, p.2 ≠ "")
    (s : String) : (Sha256.tabulated table).hexdigest s ≠ "" := by
  change (table.lookup s).getD ("-" ++ s) ≠ ""
  cases hs : table.lookup s with
  | none => simp
  | some v =>
      obtain ⟨l, l', rfl, -⟩ := List.lookup_eq_some_iff.mp hs
      exact hne (s, v) (by simp)

/-- `TRANSITIONS`. -/
def transitions : Status → List Status
  | .queued => [.leased, .cancelled]
  | .retryWait => [.leased, .cancelled]
  | .leased => [.running, .retryWait, .deadLetter]
  | .running => [.succeeded, .failed, .retryWait, .deadLetter]
  | _ => []

theorem Status.leased_mem {s : Status} (h : s.waiting = true) : .leased ∈ transitions s := by
  cases s with
  | queued | retryWait => decide
  | _ => cases h

theorem Status.cancelled_mem {s : Status} (h : s.waiting = true) :
    .cancelled ∈ transitions s := by
  cases s with
  | queued | retryWait => decide
  | _ => cases h

/-- `transition`: move a job along an edge of `transitions` and log the event. -/
def transition (job : Job) (state : Status) : Tx Job :=
  if state ∈ transitions job.status then do
    let job := { job with status := state }
    flush (.setJob job)
    let t ← databaseTime
    let job := { job with updatedAt := t }
    flush (.setJob job)
    addEvent job.id (.entered state)
    pure job
  else raise (.conflict ("Illegal transition " ++ job.status.name ++ " -> " ++ state.name))

/-- `get_job`. -/
def getJob (jobId : Uuid) (lock : Bool := false) : Tx Job := do
  match ← Prog.issue (.job jobId lock) with
  | none => raise (.missing "Job not found")
  | some job => pure job

/-! ## Admission -/

/-- The definition that is hashed: validated arguments and normalised options. -/
def definition (body : Submit) (args : Json) : Except Error Json := do
  let scheduled ← match body.scheduledAt with
    | none => pure none
    | some d => match d.astimezoneUtc with
      | none => .error .overflow
      | some micros => pure (some (isoformat micros))
  pure (.obj [
    (.ofString "task", .str (.ofString body.task)),
    (.ofString "args", args),
    (.ofString "priority", .int body.priority),
    (.ofString "timeout", .float body.timeout.toFloat),
    (.ofString "max_retries", .int body.maxRetries),
    (.ofString "retry_delay", .float body.retryDelay.toFloat),
    (.ofString "retry_jitter", .bool body.retryJitter),
    (.ofString "metadata", .obj body.metadata),
    (.ofString "scheduled_at", textOrNull scheduled),
    (.ofString "depends_on", textOrNull (body.dependsOn.map uuidText))])

/-- The digest of a definition. -/
def digest [Sha256] (d : Json) : String := Sha256.hexdigest (String.ofList d.dumps)

/-- The parent check of `admit`: it must exist and must not have failed. -/
def checkParent (dependsOn : Option Uuid) : Tx Unit :=
  match dependsOn with
  | none => pure ()
  | some parent => do
      match ← Prog.issue (.job parent false) with
      | none => raise (.invalid "Dependency job not found" "depends_on")
      | some job =>
          if job.status ∈ terminal ∧ job.status ≠ .succeeded then
            raise (.conflict "Dependency already failed or was cancelled")
          else pure ()

/-- The job row of an admitted submission. -/
def newJob (id : Uuid) (body : Submit) (args : Json) (hash : String) (timestamp : Time) : Job where
  id
  task := body.task
  args
  priority := body.priority
  timeout := body.timeout.toRat
  maxRetries := body.maxRetries
  retryDelay := body.retryDelay.toRat
  retryJitter := body.retryJitter
  idempotencyKey := body.idempotencyKey
  requestHash := some hash
  metadataJson := .obj body.metadata
  dependsOn := body.dependsOn
  availableAt := (body.scheduledAt.map fun d => (d.instant : ℚ) / 1000000).getD timestamp
  createdAt := timestamp
  updatedAt := timestamp

/-- The part of `admit` after the idempotency check: bounds, parent, insert. -/
def create (body : Submit) (args : Json) (hash : String) (queueLimit submissionsPerMinute : ℕ) :
    Tx (Job × Bool) := do
  let timestamp ← databaseTime
  let count ← Prog.issue .countActive
  let rate ← Prog.issue (.countSince (timestamp - 60))
  if queueLimit ≤ count ∨ submissionsPerMinute ≤ rate then
    raise (.saturated "Admission limit reached; retry later with the same idempotency key")
  else do
    checkParent body.dependsOn
    let id ← Prog.issue .uuid4
    let job := newJob id body args hash timestamp
    flush (.addJob job)
    addEvent job.id .submitted
    addEvent job.id (.entered .queued)
    pure (job, true)

/-- `admit`: the job, and whether it was created. -/
def admitJob [Sha256] (body : Submit) (queueLimit submissionsPerMinute : ℕ) : Tx (Job × Bool) :=
  match validate body.task body.args with
  | .error e => raise e
  | .ok args =>
    match definition body args with
    | .error e => raise e
    | .ok d => do
        let hash := digest d
        Prog.issue (.advisoryLock 741901)
        match body.idempotencyKey with
        | none => create body args hash queueLimit submissionsPerMinute
        | some key => do
            match ← Prog.issue (.jobByKey key) with
            | none => create body args hash queueLimit submissionsPerMinute
            | some existing =>
                if existing.requestHash ≠ some hash then
                  raise (.conflict "Idempotency key already used for a different definition")
                else pure (existing, false)

/-! ## Claims -/

/-- The part of `claim` that creates an attempt. -/
def lease (worker : Worker) (slot : ℤ) (claimId : Option Uuid) (policy : Policy)
    (leaseSeconds : ℚ) : Tx (Option (Job × Attempt)) := do
  let timestamp ← databaseTime
  match ← Prog.issue (.nextJob policy worker timestamp) with
  | none => pure none
  | some job => do
      let job := { job with attemptCount := job.attemptCount + 1 }
      flush (.setJob job)
      let claimId ← match claimId with
        | some c => pure c
        | none => Prog.issue .uuid4
      let id ← Prog.issue .uuid4
      let now ← Prog.issue .now
      let attempt : Attempt := {
        id, jobId := job.id, workerId := worker.id, slot, claimId, fence := job.attemptCount
        createdAt := now, expiresAt := timestamp + leaseSeconds }
      flush (.addAttempt attempt)
      let job ← transition job .leased
      pure (some (job, attempt))

/-- `claim`: replay by claim id, report an occupied slot, or lease the next job. -/
def claim (workerId : String) (slot : ℤ) (claimId : Option Uuid) (policy : Policy)
    (leaseSeconds : ℚ) : Tx (Option (Job × Attempt)) := do
  match ← Prog.issue (.worker workerId) with
  | none => raise (.missing "Register worker first")
  | some worker =>
      if slot < 0 ∨ worker.capacity ≤ slot then
        raise (.invalid "Slot is outside this worker's capacity" "slot")
      else do
        -- replays come before the health check
        let existing ← match claimId with
          | some c => Prog.issue (.attemptByClaim c)
          | none => pure none
        match existing with
        | some existing =>
            if existing.workerId ≠ workerId ∨ existing.slot ≠ slot then
              raise (.conflict "Claim ID belongs to another slot")
            else if existing.finishedAt.isSome then
              raise (.conflict "Claim is already finished")
            else do
              let job ← getJob existing.jobId
              pure (some (job, existing))
        | none => do
            match ← Prog.issue (.openAttempt workerId slot) with
            | some attempt =>
                if claimId.isSome ∧ claimId ≠ some attempt.claimId then
                  raise (.conflict "Slot is occupied")
                else do
                  let job ← getJob attempt.jobId
                  pure (some (job, attempt))
            | none =>
                if worker.state ≠ .healthy then pure none
                else lease worker slot claimId policy leaseSeconds

/-! ## Ownership -/

/-- `owned`: the job, locked, and the attempt, checked for owner, fence and expiry.
With `allowFinished` a finished attempt is returned as it is. -/
def owned (jobId : Uuid) (workerId : String) (token : Uuid) (allowFinished : Bool := false) :
    Tx (Job × Attempt) := do
  let job ← getJob jobId true
  match ← Prog.issue (.attempt token) with
  | none => raise (.conflict "Assignment does not belong to this worker")
  | some attempt =>
      if attempt.jobId ≠ jobId ∨ attempt.workerId ≠ workerId then
        raise (.conflict "Assignment does not belong to this worker")
      else if allowFinished ∧ attempt.finishedAt.isSome then pure (job, attempt)
      else if attempt.finishedAt.isSome ∨ attempt.fence ≠ job.attemptCount then
        raise (.conflict "Expired or fenced assignment")
      else do
        let t ← databaseTime
        if attempt.expiresAt ≤ t then raise (.conflict "Expired or fenced assignment")
        else pure (job, attempt)

/-- `start`. -/
def start (jobId : Uuid) (workerId : String) (token : Uuid) : Tx Unit := do
  let (job, attempt) ← owned jobId workerId token
  if job.status = .running then pure ()
  else if job.status ≠ .leased then raise (.conflict "Job is not assigned")
  else do
    let t ← databaseTime
    flush (.setAttempt { attempt with startedAt := some t })
    let _ ← transition job .running

/-- `renew`: extend a started lease, never past the execution cap. -/
def renew (jobId : Uuid) (workerId : String) (token : Uuid) (leaseSeconds : ℚ) : Tx Time := do
  let (job, attempt) ← owned jobId workerId token
  match attempt.startedAt with
  | none => raise (.conflict "Start the assignment before renewing it")
  | some startedAt => do
      let timestamp ← databaseTime
      let expiry := min (timestamp + leaseSeconds) (startedAt + (job.timeout + 5))
      if expiry ≤ timestamp then raise (.conflict "Execution deadline passed")
      else do
        flush (.setAttempt { attempt with expiresAt := expiry })
        pure expiry

/-! ## Completion -/

/-- `fail_attempt`: close the attempt, then retry, dead-letter or fail the job. -/
def failAttempt (job : Job) (attempt : Attempt) (error : String) (retryable : Bool)
    (outcome : AttemptOutcome := .failed) : Tx Unit := do
  let timestamp ← databaseTime
  flush (.setAttempt { attempt with
    finishedAt := some timestamp, outcome := some outcome, error := some error })
  if retryable ∧ job.attemptCount ≤ job.maxRetries then do
    let delay := min (job.retryDelay * 2 ^ ((job.attemptCount : ℤ) - 1)) 3600
    let delay ← if job.retryJitter then do
        let factor ← Prog.issue .uniform
        pure (delay * factor)
      else pure delay
    let job := { job with availableAt := timestamp + delay }
    flush (.setJob job)
    let _ ← transition job .retryWait
  else do
    let job ← transition job (if retryable then .deadLetter else .failed)
    flush (.addResult ⟨job.id, none, some error⟩)

/-- `attempt.output == output` on optional outputs; the row keeps the output that was written,
and the left side is what its JSONB column returns. -/
def outputEq : Option Json → Option Json → Bool
  | none, none => true
  | some v, some w => v.jsonb.pyEq w
  | _, _ => false

/-- `finish`: record a completion once, and acknowledge its exact repetition. -/
def finish (jobId : Uuid) (workerId : String) (token : Uuid) (output : Option Json)
    (error : Option String) (retryable : Bool) : Tx Unit := do
  let (job, attempt) ← owned jobId workerId token true
  if attempt.finishedAt.isSome then
    if (attempt.outcome = some .succeeded ∨ attempt.outcome = some .failed) ∧
        outputEq attempt.output output = true ∧ attempt.error = error then pure ()
    else raise (.conflict "Conflicting or expired completion replay")
  else if attempt.fence ≠ job.attemptCount then
    raise (.conflict "Expired or fenced assignment")
  else do
    let t ← databaseTime
    if attempt.expiresAt ≤ t then raise (.conflict "Expired or fenced assignment")
    else if job.status ≠ .running then
      raise (.conflict "Job must be running before completion")
    else match error with
      | some error => failAttempt job attempt error retryable
      | none => do
          let attempt := { attempt with output := output, outcome := some .succeeded }
          flush (.setAttempt attempt)
          let t ← databaseTime
          flush (.setAttempt { attempt with finishedAt := some t })
          flush (.addResult ⟨job.id, output, none⟩)
          let _ ← transition job .succeeded

/-- `cancel`. -/
def cancel (jobId : Uuid) : Tx Unit := do
  let job ← getJob jobId true
  if job.status = .cancelled then pure ()
  else if job.status ≠ .queued ∧ job.status ≠ .retryWait then
    raise (.conflict "Only waiting jobs can be cancelled")
  else do
    let _ ← transition job .cancelled

end GreyQueue
