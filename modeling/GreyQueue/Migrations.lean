import GreyQueue.Workers

/-!
# Migrations

The revisions of the schema that rewrite rows.  `DrainIntent` (`b8f1c3a7d952`) adds the
drain flag of a worker, and `SchedulingLeases` (`4c3b17726280`) everything that the first
release did not have; `7d2e9a41c0b8` between them changes indexes and the width of ids
only.  Each `upgrade` fills its columns from what the older schema knows, so a downgrade
followed by an upgrade forgets the rest.

## Main definitions

* `Database7d2e`, `Database5cb4` — the schemas below the two revisions.
* `Database4c3b` — what the upgrade of the first release leaves.

## Main results

* `drain_round_trip` — which drains survive a downgrade and an upgrade.
* `attempt_history` — which histories are rebuilt with distinct fences.
-/

namespace GreyQueue

open Lib

/-! ## Drain intent and recovery indexes -/

/-- A row of `workers` without `drain_requested`. -/
structure Worker7d2e where
  id : String
  state : WorkerState := .healthy
  capacity : ℤ
  capabilities : List String
  sessionHash : Option String
  registeredAt : Time
  lastSeen : Time

instance : Keyed Worker7d2e String := ⟨Worker7d2e.id⟩

/-- The database at revision `7d2e9a41c0b8`. -/
structure Database7d2e where
  workers : Table Worker7d2e
  jobs : Table Job
  attempts : Table Attempt
  results : Table Result
  events : List Event
  systemEvents : List SystemEvent

namespace DrainIntent

/-- The row with a column `drain_requested`, which is false by default and true for workers
that drain. -/
def addDrain (w : Worker7d2e) : Worker where
  id := w.id
  state := w.state
  capacity := w.capacity
  capabilities := w.capabilities
  sessionHash := w.sessionHash
  drainRequested := decide (w.state = .draining)
  registeredAt := w.registeredAt
  lastSeen := w.lastSeen

/-- The row without the column. -/
def dropDrain (w : Worker) : Worker7d2e where
  id := w.id
  state := w.state
  capacity := w.capacity
  capabilities := w.capabilities
  sessionHash := w.sessionHash
  registeredAt := w.registeredAt
  lastSeen := w.lastSeen

theorem key_addDrain (w : Worker7d2e) : Keyed.key (addDrain w) = Keyed.key w := rfl

theorem key_dropDrain (w : Worker) : Keyed.key (dropDrain w) = Keyed.key w := rfl

/-- `upgrade` of `b8f1c3a7d952`. -/
def upgrade (db : Database7d2e) : Database :=
  { db with workers := db.workers.map addDrain key_addDrain }

/-- `downgrade` of `b8f1c3a7d952`. -/
def downgrade (db : Database) : Database7d2e :=
  { db with workers := db.workers.map dropDrain key_dropDrain }

end DrainIntent

/-- Every worker has the drain flag it had, and is told the same when it returns. -/
def KeepsDrains (db db' : Database) : Prop :=
  ∀ k w, db.workers.find? k = some w → ∃ v, db'.workers.find? k = some v ∧
    v.drainRequested = w.drainRequested ∧ v.returning = w.returning

section Drains

variable [Sha256]

/-- **The round trip of drain intent.** The downgrade of `b8f1c3a7d952` and its upgrade give
every worker of a reachable database its drain flag back exactly when no worker is dead with
a drain. -/
theorem drain_round_trip (txns : List Txn) :
    KeepsDrains (run txns) (DrainIntent.upgrade (DrainIntent.downgrade (run txns))) ↔
      ∀ w ∈ (run txns).workers.rows, ¬ (w.state = .dead ∧ w.drainRequested = true) := by
  have hinv := run_drainInv txns
  -- the row that comes back
  have hback : ∀ {k w}, (run txns).workers.find? k = some w →
      (DrainIntent.upgrade (DrainIntent.downgrade (run txns))).workers.find? k =
        some { w with drainRequested := decide (w.state = .draining) } := by
    intro k w h
    have hdown := Table.find?_map DrainIntent.dropDrain DrainIntent.key_dropDrain h
    exact Table.find?_map DrainIntent.addDrain DrainIntent.key_addDrain hdown
  constructor
  · rintro h w hw ⟨hdead, hflag⟩
    have hrow := Table.find?_of_mem hw
    obtain ⟨v, hv, hsame, -⟩ := h w.id w hrow
    obtain rfl := Option.some.inj ((hback hrow).symm.trans hv)
    simp [hdead, hflag] at hsame
  · intro h k w hrow
    have hw := Table.mem_of_find? hrow
    obtain ⟨hdrains, hdraining⟩ := hinv w hw
    have hsame : decide (w.state = .draining) = w.drainRequested := by
      cases hflag : w.drainRequested with
      | false =>
          rw [decide_eq_false_iff_not]
          intro hs
          rw [hdraining hs] at hflag
          cases hflag
      | true =>
          rw [decide_eq_true_iff]
          exact (hdrains hflag).resolve_right fun hdead => h w hw ⟨hdead, hflag⟩
    exact ⟨_, hback hrow, hsame, by simp [Worker.returning, hsame]⟩

/-- A worker registers, is drained, and dies. -/
def drainedDeath : List Txn := [
  { request := .register .first, feed := .still 1 },
  { request := .drain "w1", feed := .still 2 },
  { request := .detectWorkers, feed := .still 20 }]

omit [Sha256] in
/-- Its drain does not come back. -/
theorem drain_round_trip_forgets :
    letI := Sha256.tabulated []
    ¬ KeepsDrains (run drainedDeath) (DrainIntent.upgrade (DrainIntent.downgrade
      (run drainedDeath))) := by
  let := Sha256.tabulated []
  have hbefore : ((run drainedDeath).workers.find? "w1").map Worker.drainRequested =
      some true := by decide +kernel
  have hafter : ((DrainIntent.upgrade (DrainIntent.downgrade
      (run drainedDeath))).workers.find? "w1").map Worker.drainRequested = some false := by
    decide +kernel
  intro h
  obtain ⟨w, hw, hflag⟩ := Option.map_eq_some_iff.mp hbefore
  obtain ⟨v, hv, hsame, -⟩ := h "w1" w hw
  rw [hv, Option.map_some, hsame, hflag] at hafter
  cases hafter

end Drains

/-! ## Scheduling, leases, retries and durable operations -/

/-- A row of `workers` of the first release. -/
structure Worker5cb4 where
  id : String
  lastSeen : Time

/-- A row of `jobs` of the first release. -/
structure Job5cb4 where
  id : Uuid
  task : String
  args : Json
  status : Status
  createdAt : Time
  updatedAt : Time

/-- A row of `attempts` of the first release. -/
structure Attempt5cb4 where
  id : Uuid
  jobId : Uuid
  workerId : String
  createdAt : Time
  startedAt : Option Time
  finishedAt : Option Time

instance : Keyed Worker5cb4 String := ⟨Worker5cb4.id⟩
instance : Keyed Job5cb4 Uuid := ⟨Job5cb4.id⟩
instance : Keyed Attempt5cb4 Uuid := ⟨Attempt5cb4.id⟩

/-- The database of the first release, with the constraints that the downgrade restores:
the states of jobs, and one open attempt for each worker. -/
structure Database5cb4 where
  workers : Table Worker5cb4
  jobs : Table Job5cb4
  attempts : Table Attempt5cb4
  results : Table Result
  events : List Event
  jobs_status_check : ∀ job ∈ jobs.rows, job.status ≠ .retryWait ∧ job.status ≠ .deadLetter
  ix_attempt_active_worker : ∀ a ∈ attempts.rows, ∀ b ∈ attempts.rows, a.finishedAt = none →
    b.finishedAt = none → a.workerId = b.workerId → a = b

/-- A row of `attempts` after the upgrade.  The outcome is copied from a job, so it may be a
state that is no outcome. -/
structure Attempt4c3b extends Attempt5cb4 where
  slot : ℤ := 0
  claimId : Uuid
  fence : ℕ := 1
  expiresAt : Time
  outcome : Option Status := none
  output : Option Json := none
  error : Option String := none

instance : Keyed Attempt4c3b Uuid := ⟨fun a => a.id⟩

/-- The database that the upgrade of the first release leaves. -/
structure Database4c3b where
  workers : Table Worker7d2e
  jobs : Table Job
  attempts : Table Attempt4c3b
  results : Table Result
  events : List Event
  systemEvents : List SystemEvent

namespace SchedulingLeases

/-- A job row with the new columns and the number of its attempts. -/
def addJobColumns (now : Time) (attempts : List Attempt5cb4) (job : Job5cb4) : Job where
  id := job.id
  priority := 0
  timeout := 15
  maxRetries := 0
  retryDelay := 1
  retryJitter := true
  attemptCount := attempts.countP fun a => decide (a.jobId = job.id)
  idempotencyKey := none
  requestHash := none
  metadataJson := .obj []
  availableAt := now
  dependsOn := none
  task := job.task
  args := job.args
  status := job.status
  createdAt := job.createdAt
  updatedAt := job.updatedAt

/-- An attempt row with the new columns; a finished one gets the state of its job. -/
def addAttemptColumns (now : Time) (genRandomUuid : Uuid → Uuid) (jobs : Table Job5cb4)
    (a : Attempt5cb4) : Attempt4c3b where
  toAttempt5cb4 := a
  claimId := genRandomUuid a.id
  expiresAt := now
  outcome := if a.finishedAt.isSome then (jobs.find? a.jobId).map Job5cb4.status else none

/-- A worker row with the new columns. -/
def addWorkerColumns (now : Time) (w : Worker5cb4) : Worker7d2e where
  id := w.id
  capacity := 1
  capabilities := ["sleep", "calculate_pi", "hash_text", "flaky"]
  sessionHash := none
  registeredAt := now
  lastSeen := w.lastSeen

theorem key_addJobColumns (now : Time) (attempts : List Attempt5cb4) (job : Job5cb4) :
    Keyed.key (addJobColumns now attempts job) = Keyed.key job := rfl

theorem key_addAttemptColumns (now : Time) (genRandomUuid : Uuid → Uuid) (jobs : Table Job5cb4)
    (a : Attempt5cb4) : Keyed.key (addAttemptColumns now genRandomUuid jobs a) = Keyed.key a := rfl

theorem key_addWorkerColumns (now : Time) (w : Worker5cb4) :
    Keyed.key (addWorkerColumns now w) = Keyed.key w := rfl

/-- `upgrade` of `4c3b17726280`: fails when two random claim ids are equal. -/
def upgrade (now : Time) (genRandomUuid : Uuid → Uuid) (db : Database5cb4) :
    Except Error Database4c3b :=
  if (db.attempts.rows.map fun a => genRandomUuid a.id).Nodup then
    .ok {
      workers := db.workers.map (addWorkerColumns now) (key_addWorkerColumns now)
      jobs := db.jobs.map (addJobColumns now db.attempts.rows) (key_addJobColumns now _)
      attempts := db.attempts.map (addAttemptColumns now genRandomUuid db.jobs)
        (key_addAttemptColumns now genRandomUuid _)
      results := db.results
      events := db.events
      systemEvents := [] }
  else .error (.integrity "attempts_claim_id_key")

/-- The columns of a job that the first release has. -/
def dropJobColumns (job : Job) : Job5cb4 where
  id := job.id
  task := job.task
  args := job.args
  status := job.status
  createdAt := job.createdAt
  updatedAt := job.updatedAt

/-- The columns of an attempt that the first release has. -/
def dropAttemptColumns (a : Attempt) : Attempt5cb4 where
  id := a.id
  jobId := a.jobId
  workerId := a.workerId
  createdAt := a.createdAt
  startedAt := a.startedAt
  finishedAt := a.finishedAt

/-- The columns of a worker that the first release has. -/
def dropWorkerColumns (w : Worker7d2e) : Worker5cb4 := ⟨w.id, w.lastSeen⟩

theorem key_dropJobColumns (job : Job) : Keyed.key (dropJobColumns job) = Keyed.key job := rfl

theorem key_dropAttemptColumns (a : Attempt) :
    Keyed.key (dropAttemptColumns a) = Keyed.key a := rfl

theorem key_dropWorkerColumns (w : Worker7d2e) :
    Keyed.key (dropWorkerColumns w) = Keyed.key w := rfl

/-- A worker holds two open attempts. -/
def Concurrent (attempts : List Attempt) : Prop :=
  ∃ a ∈ attempts, 1 < attempts.countP fun b => b.isOpen && decide (b.workerId = a.workerId)

instance (attempts : List Attempt) : Decidable (Concurrent attempts) := by
  unfold Concurrent
  infer_instance

/-- `downgrade` of `4c3b17726280`: it refuses, with the message of its `RuntimeError`, what
the constraints of the first release exclude. -/
def downgrade (db : Database7d2e) : Except String Database5cb4 :=
  if hopen : ∃ a ∈ db.attempts.rows, a.isOpen = true then
    .error "Stop workers and let active attempts finish or expire first"
  else if hstates : ∃ job ∈ db.jobs.rows, job.status = .retryWait ∨ job.status = .deadLetter then
    .error "Resolve RETRY_WAIT/DEAD_LETTER jobs before downgrading"
  else if Concurrent db.attempts.rows then
    .error "Drain concurrent worker slots before downgrading"
  else
    .ok {
      workers := db.workers.map dropWorkerColumns key_dropWorkerColumns
      jobs := db.jobs.map dropJobColumns key_dropJobColumns
      attempts := db.attempts.map dropAttemptColumns key_dropAttemptColumns
      results := db.results
      events := db.events
      jobs_status_check := by
        simp only [Table.rows_map, List.mem_map]
        rintro _ ⟨job, hjob, rfl⟩
        exact ⟨fun h => hstates ⟨job, hjob, Or.inl h⟩, fun h => hstates ⟨job, hjob, Or.inr h⟩⟩
      ix_attempt_active_worker := by
        simp only [Table.rows_map, List.mem_map]
        rintro _ ⟨a, ha, rfl⟩ _ _ hnone
        exact absurd ⟨a, ha, by rw [Attempt.isOpen, show a.finishedAt = none from hnone]; rfl⟩
          hopen }

theorem downgrade_ok {db : Database7d2e} {old : Database5cb4} (h : downgrade db = .ok old) :
    (∀ a ∈ db.attempts.rows, a.finishedAt.isSome = true) ∧
      old.jobs = db.jobs.map dropJobColumns key_dropJobColumns ∧
      old.attempts = db.attempts.map dropAttemptColumns key_dropAttemptColumns ∧
      old.results = db.results ∧ old.events = db.events := by
  unfold downgrade at h
  split_ifs at h with hopen
  cases h
  refine ⟨fun a ha => ?_, rfl, rfl, rfl, rfl⟩
  by_contra hnone
  exact hopen ⟨a, ha, by simpa [Attempt.isOpen] using hnone⟩

theorem upgrade_ok {now : Time} {genRandomUuid : Uuid → Uuid} {db : Database5cb4}
    {up : Database4c3b} (h : upgrade now genRandomUuid db = .ok up) :
    up.jobs = db.jobs.map (addJobColumns now db.attempts.rows) (key_addJobColumns now _) ∧
      up.attempts = db.attempts.map (addAttemptColumns now genRandomUuid db.jobs)
        (key_addAttemptColumns now genRandomUuid _) ∧
      up.results = db.results ∧ up.events = db.events := by
  unfold upgrade at h
  split_ifs at h
  cases h
  exact ⟨rfl, rfl, rfl, rfl⟩

/-- Claim ids that differ are accepted. -/
theorem exists_upgrade (now : Time) {genRandomUuid : Uuid → Uuid}
    (h : Function.Injective genRandomUuid) (db : Database5cb4) :
    ∃ up, upgrade now genRandomUuid db = .ok up := by
  have hnodup : (db.attempts.rows.map fun a => genRandomUuid a.id).Nodup := by
    have := db.attempts.nodup.map h
    rwa [List.map_map] at this
  exact ⟨_, if_pos hnodup⟩

end SchedulingLeases

/-- The attempts of a job after the upgrade. -/
def Database4c3b.attemptsOf (db : Database4c3b) (jobId : Uuid) : List Attempt4c3b :=
  db.attempts.rows.filter fun a => decide (a.jobId = jobId)

/-- The upgraded database has the jobs, results and events of the old one, and attempts as
the code expects them: counted, with the fences from one to the count, and with at most one
success, of a job that succeeded. -/
structure Rebuilt (db : Database) (up : Database4c3b) : Prop where
  jobs : up.jobs.rows.map (fun job => (job.id, job.task, job.args, job.status)) =
    db.jobs.rows.map fun job => (job.id, job.task, job.args, job.status)
  results : up.results = db.results
  events : up.events = db.events
  count : ∀ job ∈ up.jobs.rows, job.attemptCount = (up.attemptsOf job.id).length
  fences_nodup : ∀ job ∈ up.jobs.rows, ((up.attemptsOf job.id).map fun a => a.fence).Nodup
  fences : ∀ job ∈ up.jobs.rows, ∀ n, n ∈ (up.attemptsOf job.id).map (fun a => a.fence) ↔
    1 ≤ n ∧ n ≤ job.attemptCount
  success : ∀ job ∈ up.jobs.rows,
    ((up.attemptsOf job.id).countP fun a => decide (a.outcome = some .succeeded)) ≤ 1
  succeeded : ∀ job ∈ up.jobs.rows, ∀ a ∈ up.attemptsOf job.id,
    a.outcome = some .succeeded → job.status = .succeeded

section History

variable {db : Database} {now : Time} {genRandomUuid : Uuid → Uuid} {old : Database5cb4}
  {up : Database4c3b}
  (hdown : SchedulingLeases.downgrade (DrainIntent.downgrade db) = .ok old)
  (hup : SchedulingLeases.upgrade now genRandomUuid old = .ok up)

include hdown hup

/-- The attempts of a job come back one by one, all with fence one. -/
theorem attemptsOf_rebuilt (k : Uuid) : up.attemptsOf k = (attemptsOf db.attempts k).map fun a =>
    SchedulingLeases.addAttemptColumns now genRandomUuid old.jobs
      (SchedulingLeases.dropAttemptColumns a) := by
  obtain ⟨-, -, hattempts, -⟩ := SchedulingLeases.downgrade_ok hdown
  obtain ⟨-, hattempts', -⟩ := SchedulingLeases.upgrade_ok hup
  rw [Database4c3b.attemptsOf, hattempts', Table.rows_map, hattempts, Table.rows_map, List.map_map,
    List.filter_map]
  rfl

theorem fences_rebuilt (k : Uuid) : (up.attemptsOf k).map (fun a => a.fence) =
    List.replicate (attemptsOf db.attempts k).length 1 := by
  rw [attemptsOf_rebuilt hdown hup, List.map_map, List.eq_replicate_iff]
  refine ⟨by simp, fun n hn => ?_⟩
  obtain ⟨a, -, rfl⟩ := List.mem_map.mp hn
  rfl

/-- A job row after the round trip. -/
theorem jobs_rebuilt : up.jobs.rows = db.jobs.rows.map fun job =>
    SchedulingLeases.addJobColumns now old.attempts.rows (SchedulingLeases.dropJobColumns job) := by
  obtain ⟨-, hjobs, -⟩ := SchedulingLeases.downgrade_ok hdown
  obtain ⟨hjobs', -⟩ := SchedulingLeases.upgrade_ok hup
  rw [hjobs', Table.rows_map, hjobs, Table.rows_map, List.map_map]
  rfl

omit hup in
theorem count_rebuilt (k : Uuid) : (old.attempts.rows.countP fun a => decide (a.jobId = k)) =
    (attemptsOf db.attempts k).length := by
  obtain ⟨-, -, hattempts, -⟩ := SchedulingLeases.downgrade_ok hdown
  rw [hattempts, Table.rows_map, List.countP_map, attemptsOf, ← List.countP_eq_length_filter]
  rfl

/-- The outcome of an attempt is the state of its job. -/
theorem outcome_rebuilt {job : Job} (hjob : db.jobs.find? job.id = some job) {a : Attempt4c3b}
    (ha : a ∈ up.attemptsOf job.id) : a.outcome = some job.status := by
  obtain ⟨hfinished, hjobs, -⟩ := SchedulingLeases.downgrade_ok hdown
  rw [attemptsOf_rebuilt hdown hup] at ha
  obtain ⟨b, hb, rfl⟩ := List.mem_map.mp ha
  obtain ⟨hb, hbk⟩ := mem_attemptsOf.mp hb
  have hrow := Table.find?_map SchedulingLeases.dropJobColumns
    SchedulingLeases.key_dropJobColumns hjob
  have hdone : (SchedulingLeases.dropAttemptColumns b).finishedAt.isSome = true := hfinished b hb
  rw [SchedulingLeases.addAttemptColumns]
  simp only [hdone, if_true]
  rw [hjobs, show (SchedulingLeases.dropAttemptColumns b).jobId = job.id from hbk]
  exact congrArg (Option.map Job5cb4.status) hrow

/-- Everything but the fences and the successes of a job with several attempts comes back. -/
theorem rebuilt_iff : Rebuilt db up ↔
    ∀ job ∈ db.jobs.rows, (attemptsOf db.attempts job.id).length ≤ 1 := by
  have hjobs := jobs_rebuilt hdown hup
  constructor
  · intro h job hjob
    have hnodup := h.fences_nodup _ (hjobs ▸ List.mem_map_of_mem hjob)
    rw [fences_rebuilt hdown hup, List.nodup_replicate] at hnodup
    exact hnodup
  · intro h
    obtain ⟨-, -, -, hresults, hevents⟩ := SchedulingLeases.downgrade_ok hdown
    obtain ⟨-, -, hresults', hevents'⟩ := SchedulingLeases.upgrade_ok hup
    -- a row of the upgraded database is that of an old job
    have hrow : ∀ {P : Job → Prop}, (∀ job ∈ db.jobs.rows,
        P (SchedulingLeases.addJobColumns now old.attempts.rows
          (SchedulingLeases.dropJobColumns job))) → ∀ job ∈ up.jobs.rows, P job := by
      intro P hP job hjob
      rw [hjobs] at hjob
      obtain ⟨j, hj, rfl⟩ := List.mem_map.mp hjob
      exact hP j hj
    have hlength : ∀ k, (up.attemptsOf k).length = (attemptsOf db.attempts k).length := by
      intro k
      rw [attemptsOf_rebuilt hdown hup, List.length_map]
    refine ⟨?_, hresults'.trans hresults, hevents'.trans hevents, hrow ?_, hrow ?_, hrow ?_,
      hrow ?_, hrow ?_⟩
    · rw [hjobs, List.map_map]
      rfl
    · intro job _
      exact (count_rebuilt hdown job.id).trans (hlength job.id).symm
    · intro job hjob
      rw [fences_rebuilt hdown hup, List.nodup_replicate]
      exact h job hjob
    · intro job hjob n
      have hcount : (SchedulingLeases.addJobColumns now old.attempts.rows
          (SchedulingLeases.dropJobColumns job)).attemptCount =
            (attemptsOf db.attempts job.id).length := count_rebuilt hdown job.id
      have hle := h job hjob
      rw [fences_rebuilt hdown hup, List.mem_replicate, hcount]
      change (attemptsOf db.attempts job.id).length ≠ 0 ∧ n = 1 ↔ _
      omega
    · intro job hjob
      refine List.countP_le_length.trans ?_
      rw [hlength]
      exact h job hjob
    · intro job hjob a ha hsucceeded
      have hout := outcome_rebuilt hdown hup (Table.find?_of_mem hjob) ha
      rw [hout, Option.some.injEq] at hsucceeded
      exact hsucceeded

end History

section Runs

variable [Sha256]

/-- **Downgrade and re-upgrade of the attempt history.** A reachable database that the
downgrade of `4c3b17726280` accepts is rebuilt by its upgrade as the code relies on exactly
when no job was leased twice. -/
theorem attempt_history (txns : List Txn) {now : Time} {genRandomUuid : Uuid → Uuid}
    {old : Database5cb4} {up : Database4c3b}
    (hdown : SchedulingLeases.downgrade (DrainIntent.downgrade (run txns)) = .ok old)
    (hup : SchedulingLeases.upgrade now genRandomUuid old = .ok up) :
    Rebuilt (run txns) up ↔ ∀ job ∈ (run txns).jobs.rows, job.attemptCount ≤ 1 := by
  rw [rebuilt_iff hdown hup]
  refine forall₂_congr fun job hjob => ?_
  rw [((run_inv txns).job job (Table.find?_of_mem hjob)).length_eq]

/-- A job succeeds at its first attempt. -/
def triedOnce : List Txn := [
  { request := .submit .flaky, feed := .still 1 },
  { request := .register .first, feed := .still 2 },
  { request := .claim .first (some Registration.first.sessionToken), feed := .still 3 },
  { request := .start 104 ⟨"w1", 307⟩ (some Registration.first.sessionToken), feed := .still 4 },
  { request := .finish 104 (.empty 307) (some Registration.first.sessionToken)
    feed := .still 5 }]

/-- A job fails, is retried and succeeds. -/
def triedTwice : List Txn := [
  { request := .submit .flaky, feed := .still 1 },
  { request := .register .first, feed := .still 2 },
  { request := .claim .first (some Registration.first.sessionToken), feed := .still 3 },
  { request := .start 104 ⟨"w1", 307⟩ (some Registration.first.sessionToken), feed := .still 4 },
  { request := .finish 104 (.failure 307) (some Registration.first.sessionToken)
    feed := .still 5 },
  { request := .claim { Claim.first with claimId := 8 } (some Registration.first.sessionToken)
    feed := .still 20 },
  { request := .start 104 ⟨"w1", 2007⟩ (some Registration.first.sessionToken), feed := .still 21 },
  { request := .finish 104 (.empty 2007) (some Registration.first.sessionToken)
    feed := .still 22 }]

omit [Sha256] in
/-- The first one survives the round trip. -/
theorem attempt_history_once :
    letI := Sha256.tabulated []
    ∃ old up, SchedulingLeases.downgrade (DrainIntent.downgrade (run triedOnce)) = .ok old ∧
      SchedulingLeases.upgrade 30 id old = .ok up ∧
      (run triedOnce).jobs.rows.map Job.attemptCount = [1] ∧ Rebuilt (run triedOnce) up := by
  let := Sha256.tabulated []
  have hok : (SchedulingLeases.downgrade (DrainIntent.downgrade (run triedOnce))).isOk = true := by
    decide +kernel
  have hcounts : (run triedOnce).jobs.rows.map Job.attemptCount = [1] := by decide +kernel
  obtain ⟨old, hdown⟩ := exists_ok hok
  obtain ⟨up, hup⟩ := SchedulingLeases.exists_upgrade 30 Function.injective_id old
  have hrebuilt := (attempt_history triedOnce hdown hup).mpr fun job hjob => by
    have hmem := List.mem_map_of_mem (f := Job.attemptCount) hjob
    rw [hcounts, List.mem_singleton] at hmem
    exact hmem.le
  exact ⟨old, up, hdown, hup, by decide +kernel, hrebuilt⟩

omit [Sha256] in
/-- The second one comes back with two attempts of fence one. -/
theorem attempt_history_twice :
    letI := Sha256.tabulated []
    ∃ old up, SchedulingLeases.downgrade (DrainIntent.downgrade (run triedTwice)) = .ok old ∧
      SchedulingLeases.upgrade 30 id old = .ok up ∧
      (up.attemptsOf 104).map (fun a => a.fence) = [1, 1] ∧ ¬ Rebuilt (run triedTwice) up := by
  let := Sha256.tabulated []
  have hok : (SchedulingLeases.downgrade (DrainIntent.downgrade (run triedTwice))).isOk = true := by
    decide +kernel
  have hjobs : (run triedTwice).jobs.rows.map Job.id = [104] := by decide +kernel
  have hlength : (attemptsOf (run triedTwice).attempts 104).length = 2 := by decide +kernel
  obtain ⟨old, hdown⟩ := exists_ok hok
  obtain ⟨up, hup⟩ := SchedulingLeases.exists_upgrade 30 Function.injective_id old
  generalize run triedTwice = db at hdown hjobs hlength
  obtain ⟨job, hjob, hid⟩ : ∃ job ∈ db.jobs.rows, job.id = 104 :=
    List.mem_map.mp (hjobs ▸ List.mem_singleton_self _)
  refine ⟨old, up, hdown, hup, ?_, fun h => ?_⟩
  · rw [fences_rebuilt hdown hup, hlength]
    rfl
  · have hle := (rebuilt_iff hdown hup).mp h job hjob
    rw [hid, hlength] at hle
    omega

end Runs

end GreyQueue
