import GreyQueue.Idempotency
import GreyQueue.Leasing
import GreyQueue.Listing
import GreyQueue.WorkerLoop

/-!
# How a submission is answered

`admit` returns a job, or it rejects the body with an error that the API maps to a client error.
One more exception can escape: the scheduled time is converted to UTC before it is hashed, and
an instant outside the years 1 to 9999 of UTC raises an `OverflowError`, which nothing catches.
The entry of the job is serialised before the transaction commits, and the serialiser refuses a
value that is nested too deeply, which nothing catches either: a new job is rolled back.  A body is
answered as promised exactly when its arguments are rejected before, or its scheduled time lies
in these years and the entry of the job, if there is one, can be written.

## Main definitions

* `Submit.InRange` — the scheduled time lies in the years 1 to 9999 of UTC.
* `Submit.Writable` — the entry of the job that answers the submission can be written.
* `Promised` — the answers that the API promises to a submission.

## Main results

* `admission_errors` — the errors of `admit`.
* `create_admits`, `create_refuses` — the jobs that `admit` creates.
* `submission_answered` — the bodies that are answered as promised.
-/

namespace GreyQueue

open Lib

/-- The errors of a rejected submission. -/
def Error.Rejection : Error → Prop
  | .validation _ | .invalid _ _ | .conflict _ | .saturated _ => True
  | _ => False

/-- The scheduled time lies in the years 1 to 9999 of UTC. -/
def Submit.InRange (body : Submit) : Prop :=
  ∀ d, body.scheduledAt = some d → 0 ≤ d.instant ∧ d.instant < maxMicros

/-- The arguments of the submission pass the model of its task. -/
def Submit.Validates (body : Submit) : Prop := (validate body.task body.args).isOk = true

/-- The entry of the job can be written by a serialiser that writes the values in `encodes`. -/
def Written (encodes : Json → Bool) (job : Job) (result : Option Result) : Prop :=
  (serialize job result).values.all encodes = true

instance (encodes : Json → Bool) (job : Job) (result : Option Result) :
    Decidable (Written encodes job result) :=
  inferInstanceAs (Decidable ((serialize job result).values.all encodes = true))

/-- The status of the route, whose transaction ends in the given state.  PostgreSQL may refuse a
new job with a `DataError`, which is a client error: the insert of its row is the only statement
with unchecked values of the body.  An entry that cannot be written is an internal error. -/
def submitStatus (refuses : Job → Bool) (encodes : Json → Bool) (db : Database) :
    Except Error (Job × Bool) → ℕ
  | .ok (job, created) =>
      if created && refuses job then 422
      else if Written encodes job (db.results.find? job.id) then if created then 201 else 200
      else 500
  | .error e => e.status

/-- The answers that the API promises to a submission. -/
inductive Promised (refuses : Job → Bool) : Except Error (Job × Bool) → ℕ → Prop
  /-- The job has been created. -/
  | created (job : Job) (h : refuses job = false) : Promised refuses (.ok (job, true)) 201
  /-- The job that has been admitted for the key. -/
  | replay (job : Job) : Promised refuses (.ok (job, false)) 200
  /-- `DataError`. -/
  | data (job : Job) (h : refuses job = true) : Promised refuses (.ok (job, true)) 422
  /-- `ValidationError`. -/
  | validation (loc : List Text) : Promised refuses (.error (.validation loc)) 422
  /-- `Invalid`. -/
  | invalid (detail field : String) : Promised refuses (.error (.invalid detail field)) 422
  /-- `Conflict`. -/
  | conflict (detail : String) : Promised refuses (.error (.conflict detail)) 409
  /-- `Saturated`. -/
  | saturated (detail : String) : Promised refuses (.error (.saturated detail)) 429

/-- A job is answered as promised if its entry can be written, unless PostgreSQL refuses it. -/
theorem promised_ok {refuses : Job → Bool} {encodes : Json → Bool} {db : Database} {job : Job}
    {created : Bool} : Promised refuses (.ok (job, created))
        (submitStatus refuses encodes db (.ok (job, created))) ↔
      ((created && refuses job) = false → Written encodes job (db.results.find? job.id)) := by
  cases hdata : created && refuses job with
  | true =>
      obtain ⟨rfl, hr⟩ := Bool.and_eq_true_iff.mp hdata
      refine iff_of_true ?_ fun h => by cases h
      simpa [submitStatus, hr] using Promised.data job hr
  | false =>
      by_cases hw : Written encodes job (db.results.find? job.id)
      · refine iff_of_true ?_ fun _ => hw
        cases created with
        | false => simpa [submitStatus, hw] using Promised.replay job
        | true =>
            have hr : refuses job = false := by simpa using hdata
            simpa [submitStatus, hr, hw] using Promised.created job hr
      · refine iff_of_false ?_ fun h => hw (h rfl)
        simp only [submitStatus, hdata, hw, if_false, Bool.false_eq_true]
        intro h
        cases h

/-- An error is answered as promised if it is a rejection. -/
theorem promised_error {refuses : Job → Bool} {encodes : Json → Bool} {db : Database} {e : Error} :
    Promised refuses (.error e) (submitStatus refuses encodes db (.error e)) ↔ e.Rejection := by
  constructor
  · intro h
    cases h <;> trivial
  · intro h
    cases e with
    | validation loc => exact .validation loc
    | invalid detail field => exact .invalid detail field
    | conflict detail => exact .conflict detail
    | saturated detail => exact .saturated detail
    | _ => exact h.elim

/-! ## The errors of `admit` -/

theorem validate_rejection {task : String} {args : List (Text × Json)} {e : Error}
    (h : validate task args = .error e) : e.Rejection := by
  unfold validate at h
  split at h
  · cases h
    trivial
  · unfold ArgModel.validate at h
    simp only at h
    split at h
    · cases h
      trivial
    · split at h
      · cases h
      · cases h
        trivial

theorem Submit.validates_of_ok {body : Submit} {args : Json}
    (h : validate body.task body.args = .ok args) : body.Validates := by
  simp [Submit.Validates, h, Except.isOk, Except.toBool]

theorem Submit.not_validates_of_error {body : Submit} {e : Error}
    (h : validate body.task body.args = .error e) : ¬ body.Validates := by
  simp [Submit.Validates, h, Except.isOk, Except.toBool]

/-- The conversion to UTC fails for an instant out of range, and nothing else does. -/
theorem definition_isOk_iff (body : Submit) (args : Json) :
    (definition body args).isOk = true ↔ body.InRange := by
  cases hs : body.scheduledAt with
  | none =>
      refine iff_of_true ?_ fun d hd => by simp [hs] at hd
      simp [definition, hs, bind, Except.bind, pure, Except.pure, Except.isOk, Except.toBool]
  | some d =>
      have hrange : body.InRange ↔ 0 ≤ d.instant ∧ d.instant < maxMicros := by
        simp [Submit.InRange, hs]
      rw [hrange]
      by_cases hd : 0 ≤ d.instant ∧ d.instant < maxMicros
      · refine iff_of_true ?_ hd
        simp [definition, hs, Datetime.astimezoneUtc, hd, bind, Except.bind, pure, Except.pure,
          Except.isOk, Except.toBool]
      · refine iff_of_false ?_ hd
        simp [definition, hs, Datetime.astimezoneUtc, hd, bind, Except.bind, Except.isOk,
          Except.toBool]

/-- The program raises rejections, or its statements fail on a constraint. -/
def Rejecting {α : Type} (p : Tx α) : Prop :=
  Prog.Over (fun _ => True) (fun e => e.Rejection ∨ ∃ name, e = .integrity name) p

theorem Rejecting.bind {α β : Type} {p : Tx α} {f : α → Tx β} (hp : Rejecting p)
    (hf : ∀ a, Rejecting (f a)) : Rejecting (p >>= f) := Prog.Over.bind hp hf

theorem rejecting_issue {β : Type} (s : Sql β) : Rejecting (Prog.issue s : Tx β) :=
  ⟨trivial, fun _ => trivial⟩

theorem rejecting_raise {α : Type} {e : Error} (h : e.Rejection) : Rejecting (raise e : Tx α) :=
  Or.inl h

theorem Rejecting.error {α : Type} {p : Tx α} (hp : Rejecting p) {feed : ℕ → Moment}
    {db : Database} {e : Error} (h : (p.exec feed db).result = .error e) :
    e.Rejection ∨ ∃ name, e = .integrity name :=
  Prog.Over.error hp (fun _ _ _ _ he => Or.inr (eval_error he)) h

theorem rejecting_checkParent (dependsOn : Option Uuid) : Rejecting (checkParent dependsOn) := by
  cases dependsOn with
  | none => trivial
  | some parent =>
      refine .bind (rejecting_issue _) fun row => ?_
      cases row with
      | none => exact rejecting_raise trivial
      | some job =>
          dsimp only
          split
          · exact rejecting_raise trivial
          · trivial

theorem rejecting_create (body : Submit) (args : Json) (hash : String)
    (queueLimit submissionsPerMinute : ℕ) :
    Rejecting (create body args hash queueLimit submissionsPerMinute) := by
  refine .bind (rejecting_issue _) fun timestamp => .bind (rejecting_issue _) fun count =>
    .bind (rejecting_issue _) fun rate => ?_
  split
  · exact rejecting_raise trivial
  · exact .bind (rejecting_checkParent _) fun _ => .bind (rejecting_issue _) fun _ =>
      .bind (rejecting_issue _) fun _ => .bind (.bind (rejecting_issue _) fun _ =>
        rejecting_issue _) fun _ => .bind (.bind (rejecting_issue _) fun _ =>
          rejecting_issue _) fun _ => trivial

/-! ## The jobs that `admit` creates -/

section Creation

variable {db : Database} {body : Submit} {args : Json} {hash : String}
  {queueLimit submissionsPerMinute : ℕ}

/-- The job that `create` draws. -/
def Submit.drawn (body : Submit) (args : Json) (hash : String) (feed : ℕ → Moment) : Job :=
  newJob (feed (if body.dependsOn.isSome then 4 else 3)).uuid body args hash (feed 0).time

/-- The parent check passes exactly if the parent has not failed. -/
theorem exec_checkParent {α : Type} (dependsOn : Option Uuid) (k : Unit → Tx α)
    (feed : ℕ → Moment) :
    ((∀ p, dependsOn = some p → ∃ parent, db.jobs.find? p = some parent ∧
        (parent.status ∈ terminal → parent.status = .succeeded)) →
      (checkParent dependsOn >>= k).exec feed db =
        (k ()).exec (fun n => feed (n + if dependsOn.isSome then 1 else 0)) db) ∧
    ((¬ ∀ p, dependsOn = some p → ∃ parent, db.jobs.find? p = some parent ∧
        (parent.status ∈ terminal → parent.status = .succeeded)) →
      ∃ e, ((checkParent dependsOn >>= k).exec feed db).result = .error e) := by
  cases dependsOn with
  | none => simp [checkParent]
  | some p =>
      cases hp : db.jobs.find? p with
      | none =>
          have hread : (checkParent (some p) >>= k).exec feed db = (raise (.invalid
              "Dependency job not found" "depends_on") >>= k : Tx α).exec
                (fun n => feed (n + 1)) db := by
            rw [checkParent, Prog.bind_assoc, Prog.issue_bind,
              Prog.exec_stmt_ok (b := none) (t := db) (by rw [← hp]; rfl)]
          simp [hread, raise, hp]
      | some parent =>
          have hread : (checkParent (some p) >>= k).exec feed db =
              ((if parent.status ∈ terminal ∧ parent.status ≠ .succeeded then
                raise (.conflict "Dependency already failed or was cancelled")
              else pure ()) >>= k : Tx α).exec (fun n => feed (n + 1)) db := by
            rw [checkParent, Prog.bind_assoc, Prog.issue_bind,
              Prog.exec_stmt_ok (b := some parent) (t := db) (by rw [← hp]; rfl)]
          by_cases hfailed : parent.status ∈ terminal ∧ parent.status ≠ .succeeded
          · simp [hread, raise, hp, hfailed]
          · simp [hread, hp, hfailed]

/-- The first statements of `create`. -/
theorem exec_create (feed : ℕ → Moment) :
    (create body args hash queueLimit submissionsPerMinute).exec feed db =
      (if queueLimit ≤ (db.jobs.rows.countP fun j => decide (j.status ∈ active)) ∨
          submissionsPerMinute ≤
            db.jobs.rows.countP fun j => decide ((feed 0).time - 60 ≤ j.createdAt) then
        raise (.saturated "Admission limit reached; retry later with the same idempotency key")
      else do
        checkParent body.dependsOn
        let id ← Prog.issue .uuid4
        let job := newJob id body args hash (feed 0).time
        flush (.addJob job)
        addEvent job.id .submitted
        addEvent job.id (.entered .queued)
        pure (job, true) : Tx (Job × Bool)).exec (fun n => feed (n + 3)) db := rfl

/-- A job that passes every check is created. -/
theorem create_admits {feed : ℕ → Moment}
    (h : Admissible db (body.drawn args hash feed) queueLimit submissionsPerMinute) :
    ((create body args hash queueLimit submissionsPerMinute).exec feed db).result =
        .ok (body.drawn args hash feed, true) ∧
      ((create body args hash queueLimit submissionsPerMinute).exec feed db).state.results =
        db.results := by
  have hlimits : ¬ (queueLimit ≤ (db.jobs.rows.countP fun j => decide (j.status ∈ active)) ∨
      submissionsPerMinute ≤
        db.jobs.rows.countP fun j => decide ((feed 0).time - 60 ≤ j.createdAt)) :=
    not_or.mpr ⟨not_le.mpr h.queue_bound, not_le.mpr h.rate_bound⟩
  have hparent := (exec_checkParent body.dependsOn (fun _ => (do
    let id ← Prog.issue .uuid4
    let job := newJob id body args hash (feed 0).time
    flush (.addJob job)
    addEvent job.id .submitted
    addEvent job.id (.entered .queued)
    pure (job, true) : Tx (Job × Bool))) (fun n => feed (n + 3))).1 h.parent
  have hdraw : (0 + if body.dependsOn.isSome then 1 else 0) + 3 =
      if body.dependsOn.isSome then 4 else 3 := by
    cases body.dependsOn <;> rfl
  have hdrawn : newJob (body.drawn args hash feed).id body args hash (feed 0).time =
      body.drawn args hash feed := rfl
  have happly := apply_addJob h.fresh h.key_fresh
  rw [exec_create, if_neg hlimits, hparent, Prog.issue_bind,
    Prog.exec_stmt_ok (b := (body.drawn args hash feed).id) (t := db)
      (congrArg (fun i => Except.ok ((feed i).uuid, db)) hdraw)]
  simp only [hdrawn]
  rw [exec_flush happly]
  exact ⟨rfl, rfl⟩

/-- A job that fails a check is not created. -/
theorem create_refuses {feed : ℕ → Moment}
    (hfresh : db.jobs.find? (body.drawn args hash feed).id = none)
    (hkey : ∀ k, body.idempotencyKey = some k → ∀ j ∈ db.jobs.rows, j.idempotencyKey ≠ some k)
    (h : ¬ Admissible db (body.drawn args hash feed) queueLimit submissionsPerMinute) :
    ∃ e, ((create body args hash queueLimit submissionsPerMinute).exec feed db).result =
      .error e := by
  rw [exec_create]
  split
  · exact ⟨_, rfl⟩
  rename_i hlimits
  obtain ⟨hqueue, hrate⟩ := not_or.mp hlimits
  refine (exec_checkParent _ _ _).2 fun hparent => h ?_
  exact ⟨hfresh, hkey, not_le.mp hqueue, not_le.mp hrate, hparent, rfl, rfl⟩

end Creation

/-! ## The answers -/

section Admission

variable [Sha256] {body : Submit} {queueLimit submissionsPerMinute : ℕ}

/-- Arguments that do not pass the model of the task are rejected first. -/
theorem admitJob_invalid {db : Database} {feed : ℕ → Moment} {e : Error}
    (hv : validate body.task body.args = .error e) :
    ((admitJob body queueLimit submissionsPerMinute).exec feed db).result = .error e := by
  simp only [admitJob, hv]
  rfl

/-- The conversion to UTC has failed. -/
theorem admitJob_overflow {db : Database} {feed : ℕ → Moment} {args : Json} {e : Error}
    (hv : validate body.task body.args = .ok args) (hd : definition body args = .error e) :
    ((admitJob body queueLimit submissionsPerMinute).exec feed db).result = .error .overflow := by
  obtain rfl := definition_error hd
  simp only [admitJob, hv, hd]
  rfl

/-- What `admit` does once the definition is made raises rejections. -/
theorem rejecting_admitJob {args d : Json} (hv : validate body.task body.args = .ok args)
    (hd : definition body args = .ok d) :
    Rejecting (admitJob body queueLimit submissionsPerMinute) := by
  simp only [admitJob, hv, hd]
  refine .bind (rejecting_issue _) fun _ => ?_
  cases body.idempotencyKey with
  | none => exact rejecting_create _ _ _ _ _
  | some key =>
      refine .bind (rejecting_issue _) fun row => ?_
      cases row with
      | none => exact rejecting_create _ _ _ _ _
      | some existing =>
          dsimp only
          split
          · exact rejecting_raise trivial
          · trivial

/-- A key that is fresh for every draw violates no constraint. -/
theorem admission_ne_integrity {db : Database} {feed : ℕ → Moment}
    (hfresh : ∀ n, db.jobs.find? (feed n).uuid = none) (name : String) :
    ((admitJob body queueLimit submissionsPerMinute).exec feed db).result ≠
      .error (.integrity name) := by
  refine Prog.Sat.exec (A := fun m => db.jobs.find? m.uuid = none)
    (Q := fun r _ => r ≠ .error (.integrity name)) (sat_admitJob ?_ ?_ ?_ ?_) hfresh
  · rintro e he ⟨⟩
    exact validate_rejection he
  · rintro args e - he ⟨⟩
    cases definition_error he
  · intro args d k j _ _ _ _ _
    split <;> simp
  · intro args d _ _ hkey
    refine sat_create hkey (fun e he herr => ?_) (fun m hm hne => absurd hm hne) fun _ _ _ _ _ _ =>
      by simp
    cases herr
    exact he

/-- The job that `admit` creates for a submission whose key is new, if it admits it. -/
def Submit.created (body : Submit) (args d : Json) (feed : ℕ → Moment) : Job :=
  body.drawn args (digest d) fun n => feed (n + if body.idempotencyKey.isSome then 2 else 1)

/-- The entry of the job that answers the submission can be written: of the job that has its
key, if the definitions agree, and of the new job, if `admit` admits and PostgreSQL stores it. -/
def Submit.Writable (body : Submit) (db : Database) (queueLimit submissionsPerMinute : ℕ)
    (refuses : Job → Bool) (encodes : Json → Bool) (feed : ℕ → Moment) : Prop :=
  ∀ args d, validate body.task body.args = .ok args → definition body args = .ok d →
    (∀ job ∈ db.jobs.rows, ∀ k, body.idempotencyKey = some k → job.idempotencyKey = some k →
      job.requestHash = some (digest d) → Written encodes job (db.results.find? job.id)) ∧
    (Admissible db (body.created args d feed) queueLimit submissionsPerMinute →
      refuses (body.created args d feed) = false → Written encodes (body.created args d feed) none)

/-- A submission whose key is new is answered by `create`. -/
theorem admitJob_new {db : Database} {args d : Json}
    (hv : validate body.task body.args = .ok args) (hd : definition body args = .ok d)
    (hkey : ∀ k, body.idempotencyKey = some k → ∀ j ∈ db.jobs.rows, j.idempotencyKey ≠ some k)
    (feed : ℕ → Moment) :
    (admitJob body queueLimit submissionsPerMinute).exec feed db =
      (create body args (digest d) queueLimit submissionsPerMinute).exec
        (fun n => feed (n + if body.idempotencyKey.isSome then 2 else 1)) db := by
  simp only [admitJob, hv, hd]
  rw [Prog.issue_bind, Prog.exec_stmt_ok (b := ()) (t := db) rfl]
  cases hk : body.idempotencyKey with
  | none => rfl
  | some k =>
      have hnone : (db.jobs.rows.find? fun j => decide (j.idempotencyKey = some k)) = none := by
        simpa using hkey k hk
      simp only
      rw [Prog.issue_bind, Prog.exec_stmt_ok (b := none) (t := db) (by rw [← hnone]; rfl)]
      rfl

section Answers

variable {db : Database} {refuses : Job → Bool} {encodes : Json → Bool} {feed : ℕ → Moment}
  {args d : Json} (hv : validate body.task body.args = .ok args)
  (hd : definition body args = .ok d)

include hv hd

/-- The answer to a submission whose key is taken. -/
theorem promised_taken (hkeys : UniqueKeys db) {row : Job} (hrow : row ∈ db.jobs.rows) {k : String}
    (hk : row.idempotencyKey = some k) (hbody : body.idempotencyKey = some k) :
    Promised refuses ((admitJob body queueLimit submissionsPerMinute).exec feed db).result
        (submitStatus refuses encodes
          ((admitJob body queueLimit submissionsPerMinute).exec feed db).state
          ((admitJob body queueLimit submissionsPerMinute).exec feed db).result) ↔
      body.Writable db queueLimit submissionsPerMinute refuses encodes feed := by
  obtain ⟨hstate, hresult, -⟩ := admitJob_existing hkeys hrow hk hbody queueLimit
    submissionsPerMinute feed
  have hwritable : body.Writable db queueLimit submissionsPerMinute refuses encodes feed ↔
      (row.requestHash = some (digest d) → Written encodes row (db.results.find? row.id)) := by
    constructor
    · intro h
      exact (h args d hv hd).1 row hrow k hbody hk
    · intro h args' d' hv' hd'
      obtain rfl : args = args' := by simpa using hv.symm.trans hv'
      obtain rfl : d = d' := by simpa using hd.symm.trans hd'
      refine ⟨fun job hjob k' hk' hjk => ?_, fun hadmits => ?_⟩
      · obtain rfl := hkeys row hrow job hjob k' (hk.trans (hbody.symm.trans hk')) hjk
        exact h
      · exact absurd hk (hadmits.key_fresh k hbody row hrow)
  rw [hstate, hresult args d hv hd, hwritable]
  split
  · rename_i hhash
    rw [promised_ok]
    simp [hhash]
  · rename_i hhash
    rw [promised_error]
    simp [hhash, Error.Rejection]

/-- The answer to a submission whose key is new. -/
theorem promised_new (hinv : Inv db) (hfresh : ∀ n, db.jobs.find? (feed n).uuid = none)
    (hkey : ∀ k, body.idempotencyKey = some k → ∀ j ∈ db.jobs.rows, j.idempotencyKey ≠ some k) :
    Promised refuses ((admitJob body queueLimit submissionsPerMinute).exec feed db).result
        (submitStatus refuses encodes
          ((admitJob body queueLimit submissionsPerMinute).exec feed db).state
          ((admitJob body queueLimit submissionsPerMinute).exec feed db).result) ↔
      body.Writable db queueLimit submissionsPerMinute refuses encodes feed := by
  have hnew : db.jobs.find? (body.created args d feed).id = none := hfresh _
  have hresults : db.results.find? (body.created args d feed).id = none := by
    cases hr : db.results.find? (body.created args d feed).id with
    | none => rfl
    | some r =>
        obtain ⟨job, hjob⟩ := hinv.result_job _ r hr
        simp [hnew] at hjob
  have hwritable : body.Writable db queueLimit submissionsPerMinute refuses encodes feed ↔
      (Admissible db (body.created args d feed) queueLimit submissionsPerMinute →
        refuses (body.created args d feed) = false →
        Written encodes (body.created args d feed) none) := by
    constructor
    · intro h
      exact (h args d hv hd).2
    · intro h args' d' hv' hd'
      obtain rfl : args = args' := by simpa using hv.symm.trans hv'
      obtain rfl : d = d' := by simpa using hd.symm.trans hd'
      exact ⟨fun job hjob k hk hjk => absurd hjk (hkey k hk job hjob), h⟩
  rw [hwritable]
  by_cases hadmits : Admissible db (body.created args d feed) queueLimit submissionsPerMinute
  · obtain ⟨hresult, hstate⟩ := create_admits hadmits
    rw [admitJob_new hv hd hkey, hresult, promised_ok, hstate]
    change ((true && refuses (body.created args d feed)) = false → Written encodes
      (body.created args d feed) (db.results.find? (body.created args d feed).id)) ↔ _
    simp [hresults, hadmits]
  · obtain ⟨e, he⟩ := create_refuses hnew hkey hadmits
    rw [← admitJob_new hv hd hkey] at he
    have hrejection : e.Rejection := by
      rcases (rejecting_admitJob hv hd).error he with h | ⟨name, rfl⟩
      · exact h
      · exact absurd he (admission_ne_integrity hfresh name)
    rw [he, promised_error]
    simp [hadmits, hrejection]

end Answers

/-- **Submissions.** In every reachable state a submission is answered with a job or with a client
error if and only if its arguments are rejected, or its scheduled time lies in the years 1 to
9999 of UTC and the entry of the job that answers it can be written. -/
theorem submission_answered (txns : List Txn) (body : Submit)
    (queueLimit submissionsPerMinute : ℕ) (refuses : Job → Bool) (encodes : Json → Bool)
    {feed : ℕ → Moment} (hfresh : ∀ n, (run txns).jobs.find? (feed n).uuid = none) :
    Promised refuses ((admitJob body queueLimit submissionsPerMinute).exec feed (run txns)).result
        (submitStatus refuses encodes
          ((admitJob body queueLimit submissionsPerMinute).exec feed (run txns)).state
          ((admitJob body queueLimit submissionsPerMinute).exec feed (run txns)).result) ↔
      (body.Validates → body.InRange) ∧
        body.Writable (run txns) queueLimit submissionsPerMinute refuses encodes feed := by
  have hkeys := run_uniqueKeys txns
  have hinv := run_inv txns
  generalize run txns = db at hfresh hkeys hinv ⊢
  cases hv : validate body.task body.args with
  | error e =>
      have hvalid := Submit.not_validates_of_error hv
      have hwritable : body.Writable db queueLimit submissionsPerMinute refuses encodes feed := by
        intro args d hv'
        simp [hv] at hv'
      rw [admitJob_invalid hv, promised_error]
      simp [validate_rejection hv, hvalid, hwritable]
  | ok args =>
      have hvalid := Submit.validates_of_ok hv
      cases hd : definition body args with
      | error e =>
          have hrange : ¬ body.InRange := by
            simp [← definition_isOk_iff body args, hd, Except.isOk, Except.toBool]
          rw [admitJob_overflow hv hd, promised_error]
          simp [hvalid, hrange, Error.Rejection]
      | ok d =>
          have hrange : body.InRange := (definition_isOk_iff body args).mp (by rw [hd]; rfl)
          simp only [hrange, implies_true, true_and]
          by_cases htaken : ∃ row ∈ db.jobs.rows, ∃ k, row.idempotencyKey = some k ∧
              body.idempotencyKey = some k
          · obtain ⟨row, hrow, k, hk, hbody⟩ := htaken
            exact promised_taken hv hd hkeys hrow hk hbody
          · exact promised_new hv hd hinv hfresh fun k hk j hj hjk => htaken ⟨j, hj, k, hjk, hk⟩

end Admission

/-- The first hour of year 1, an hour east of Greenwich. -/
def Submit.early : Submit := { Submit.flaky with
  scheduledAt := some ⟨0, 3600000000, by decide, by decide⟩ }

/-- A submission for the first instant of year 1 in UTC. -/
def Submit.first : Submit := { Submit.flaky with
  scheduledAt := some ⟨3600000000, 3600000000, by decide, by decide⟩ }

/-- A list in a list, and so on. -/
def nestedLists : ℕ → Json
  | 0 => .arr []
  | n + 1 => .arr [nestedLists n]

/-- A submission with metadata that are nested deeply. -/
def Submit.nested : Submit := { Submit.flaky with
  metadata := [(.ofString "x", nestedLists 254)]
  metadata_decoded := by decide +kernel
  metadata_storable := by decide +kernel }

/-- What a serialiser with the usual limit writes. -/
def encodesJson (v : Json) : Bool := decide (v.depth ≤ 255)

theorem submission_answered_first :
    letI := Sha256.tabulated []
    (∀ n, (run []).jobs.find? (Moment.still 1 n).uuid = none) ∧
      Promised (fun _ => false)
        ((admitJob .first 10000 20000).exec (Moment.still 1) (run [])).result
        (submitStatus (fun _ => false) encodesJson
          ((admitJob .first 10000 20000).exec (Moment.still 1) (run [])).state
          ((admitJob .first 10000 20000).exec (Moment.still 1) (run [])).result) := by
  let := Sha256.tabulated []
  have hfresh : ∀ n, (run []).jobs.find? (Moment.still 1 n).uuid = none := fun _ => rfl
  refine ⟨hfresh, (submission_answered [] .first 10000 20000 (fun _ => false) encodesJson
    hfresh).mpr ⟨?_, ?_⟩⟩
  · rintro - d ⟨⟩
    decide
  · intro args d hv _
    have hargs : (validate Submit.first.task Submit.first.args).toOption.all encodesJson = true := by
      decide +kernel
    rw [hv] at hargs
    change encodesJson args = true at hargs
    refine ⟨fun job hjob => by simp [run] at hjob, fun _ _ => ?_⟩
    have hmetadata : encodesJson (.obj Submit.first.metadata) = true := by decide +kernel
    simp [Written, serialize, JobOut.values, Submit.created, Submit.drawn, newJob, hmetadata, hargs]

/-- The scheduled time has no reading in UTC, or the metadata of the new job cannot be written: the
exception escapes, with status 500. -/
theorem submission_escapes :
    letI := Sha256.tabulated []
    (Submit.early.Validates ∧
      ((admitJob .early 10000 20000).exec (Moment.still 1) (run [])).result = .error .overflow ∧
      submitStatus (fun _ => false) encodesJson
        ((admitJob .early 10000 20000).exec (Moment.still 1) (run [])).state
        ((admitJob .early 10000 20000).exec (Moment.still 1) (run [])).result = 500 ∧
      ¬ Promised (fun _ => false)
        ((admitJob .early 10000 20000).exec (Moment.still 1) (run [])).result
        (submitStatus (fun _ => false) encodesJson
          ((admitJob .early 10000 20000).exec (Moment.still 1) (run [])).state
          ((admitJob .early 10000 20000).exec (Moment.still 1) (run [])).result)) ∧
    submitStatus (fun _ => false) encodesJson
        ((admitJob .nested 10000 20000).exec (Moment.still 1) (run [])).state
        ((admitJob .nested 10000 20000).exec (Moment.still 1) (run [])).result = 500 ∧
      ¬ Promised (fun _ => false)
        ((admitJob .nested 10000 20000).exec (Moment.still 1) (run [])).result
        (submitStatus (fun _ => false) encodesJson
          ((admitJob .nested 10000 20000).exec (Moment.still 1) (run [])).state
          ((admitJob .nested 10000 20000).exec (Moment.still 1) (run [])).result) := by
  let := Sha256.tabulated []
  have hresult : ((admitJob .early 10000 20000).exec (Moment.still 1) (run [])).result =
      .error .overflow := rfl
  have hvalid : Submit.early.Validates := (by decide +kernel :
    (validate Submit.early.task Submit.early.args).isOk = true)
  have hnested : submitStatus (fun _ => false) encodesJson
        ((admitJob .nested 10000 20000).exec (Moment.still 1) (run [])).state
        ((admitJob .nested 10000 20000).exec (Moment.still 1) (run [])).result = 500 := by
    decide +kernel
  refine ⟨⟨hvalid, hresult, by rw [hresult]; rfl, fun h => ?_⟩, hnested, fun h => ?_⟩
  · rw [hresult] at h
    exact promised_error.mp h
  · rw [hnested] at h
    cases h

end GreyQueue
