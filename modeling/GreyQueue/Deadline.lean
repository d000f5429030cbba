import GreyQueue.Fencing
import GreyQueue.Frame

/-!
# The execution cap

A renewal never extends a lease past `started_at + timeout + 5`.  The first lease of an
attempt is set by the claim, from the lease of the coordinator alone, and a start leaves
it as it is: the cap holds as long as every start finds a lease that ends before the cap.

## Main definitions

* `Capped` — no started attempt is owned past its cap.
* `LeaseWithinCap` — an accepted start finds a lease that ends before the cap.

## Main results

* `execution_cap` — the cap holds along a run exactly when every start meets the condition.
-/

namespace GreyQueue

open Lib

/-! ## Starts -/

section Start

variable (db : Database) (feed : ℕ → Moment) (jobId token : Uuid) (workerId : String)

/-- The ownership check raises, or returns the held row. -/
theorem exec_owned :
    (∃ e rest, (owned jobId workerId token).exec feed db = ⟨.error e, db, rest⟩) ∨
      ∃ job a, Holds db job a ∧ a.fence = job.attemptCount ∧ a.id = token ∧
        (owned jobId workerId token).exec feed db = ⟨.ok (job, a), db, fun n => feed (n + 3)⟩ := by
  cases hjob : db.jobs.find? jobId with
  | none =>
      refine Or.inl ⟨.missing "Job not found", fun n => feed (n + 1), ?_⟩
      simp [owned, getJob, Prog.exec, Handler.eval, Sql.eval, hjob, raise]
  | some job =>
      have hid : job.id = jobId := Table.key_of_find? hjob
      cases ha : db.attempts.find? token with
      | none =>
          refine Or.inl ⟨.conflict "Assignment does not belong to this worker",
            fun n => feed (n + 2), ?_⟩
          simp [owned, getJob, Prog.exec, Handler.eval, Sql.eval, hjob, ha, raise]
      | some a =>
          have haid : a.id = token := Table.key_of_find? ha
          by_cases hown : a.jobId ≠ jobId ∨ a.workerId ≠ workerId
          · refine Or.inl ⟨.conflict "Assignment does not belong to this worker",
              fun n => feed (n + 2), ?_⟩
            simp [owned, getJob, Prog.exec, Handler.eval, Sql.eval, hjob, ha, raise, hown]
          by_cases hfence : a.finishedAt.isSome = true ∨ a.fence ≠ job.attemptCount
          · refine Or.inl ⟨.conflict "Expired or fenced assignment", fun n => feed (n + 2), ?_⟩
            simp [owned, getJob, Prog.exec, Handler.eval, Sql.eval, hjob, ha, raise, hown, hfence]
          by_cases hexp : a.expiresAt ≤ (feed 2).time
          · refine Or.inl ⟨.conflict "Expired or fenced assignment", fun n => feed (n + 3), ?_⟩
            simp [owned, getJob, Prog.exec, Handler.eval, Sql.eval, hjob, ha, raise, hown, hfence,
              databaseTime, Prog.issue, hexp]
          · push Not at hown hfence
            refine Or.inr ⟨job, a, ⟨hid ▸ hjob, haid ▸ ha, hown.1.trans hid.symm, ?_⟩, hfence.2,
              haid, ?_⟩
            · simpa using hfence.1
            · simp [owned, getJob, Prog.exec, Handler.eval, Sql.eval, hjob, ha, hown, hfence,
                databaseTime, Prog.issue, hexp]

/-- A start raises, finds the job running, or starts the held attempt at its second
reading of the clock. -/
theorem exec_start :
    (∃ e rest, (start jobId workerId token).exec feed db = ⟨.error e, db, rest⟩) ∨
      ∃ job a, Holds db job a ∧ a.id = token ∧
        ((job.status = .running ∧ ∃ rest,
          (start jobId workerId token).exec feed db = ⟨.ok (), db, rest⟩) ∨
        ∃ s rest, (Change.start job a (feed 3).time s).guard db ∧
          (start jobId workerId token).exec feed db =
            ⟨.ok (), (Change.start job a (feed 3).time s).effect db, rest⟩) := by
  rw [start, Prog.exec_bind]
  rcases exec_owned db feed jobId token workerId with ⟨e, rest, heq⟩ | ⟨job, a, hold, hf, haid, heq⟩
  · exact Or.inl ⟨e, rest, by rw [heq]⟩
  rw [heq]
  by_cases hrun : job.status = .running
  · refine Or.inr ⟨job, a, hold, haid, Or.inl ⟨hrun, fun n => feed (n + 3), ?_⟩⟩
    simp [hrun]
  by_cases hleased : job.status = .leased
  · refine Or.inr ⟨job, a, hold, haid, Or.inr ⟨⟨(feed 6).time, (feed 8).start⟩,
      fun n => feed (n + 10), ⟨hold, hf, hleased⟩, ?_⟩⟩
    simp [Prog.exec, Handler.eval, Sql.eval, databaseTime, flush, Prog.issue, transition, hleased,
      transitions, Write.apply, addEvent, Change.effect, Job.enter, entered, Table.put_put,
      Except.map]
  · refine Or.inl ⟨.conflict "Job is not assigned", fun n => feed (n + 3), ?_⟩
    simp [hrun, hleased, raise]

end Start

/-! ## The cap -/

/-- No started attempt is owned past its cap. -/
def Capped (db : Database) : Prop :=
  ∀ a ∈ db.attempts.rows, ∀ job, db.jobs.find? a.jobId = some job →
    ∀ startedAt, a.startedAt = some startedAt → a.expiresAt ≤ startedAt + (job.timeout + 5)

namespace Capped

variable {db db' : Database}

/-- The cap reads the timeout of a job, which never changes. -/
theorem of_attempts (h : Capped db) (hl : Later db db')
    (hrows : ∀ b ∈ db'.attempts.rows, b ∈ db.attempts.rows ∨
      ∀ job, db.jobs.find? b.jobId = some job → ∀ startedAt, b.startedAt = some startedAt →
        b.expiresAt ≤ startedAt + (job.timeout + 5))
    (hjobs : ∀ b ∈ db'.attempts.rows, ∃ job, db.jobs.find? b.jobId = some job) :
    Capped db' := by
  intro b hb job' hjob' startedAt hs
  obtain ⟨job, hjob⟩ := hjobs b hb
  obtain ⟨k, hk, hlater⟩ := hl.jobs _ job hjob
  obtain rfl : k = job' := Option.some.inj (hk.symm.trans hjob')
  have htimeout : k.timeout = job.timeout := by rw [hlater.1]
  rw [htimeout]
  rcases hrows b hb with hold | hnew
  · exact h b hold job hjob startedAt hs
  · exact hnew job hjob startedAt hs

/-- The attempts are left alone, or one that is held is rewritten within the cap. -/
theorem put (h : Capped db) (hinv : Inv db) (hl : Later db db') {job : Job} {a b : Attempt}
    (hold : Holds db job a) (hb : b.jobId = a.jobId)
    (hrows : db'.attempts = db.attempts.put b)
    (hcap : ∀ startedAt, b.startedAt = some startedAt →
      b.expiresAt ≤ startedAt + (job.timeout + 5)) : Capped db' := by
  have hjob : db.jobs.find? b.jobId = some job := by
    rw [hb, hold.attempt_job]
    exact hold.job_row
  refine h.of_attempts hl (fun x hx => ?_) fun x hx => ?_
  · rw [hrows] at hx
    rcases Table.mem_put.mp hx with ⟨hx, -⟩ | ⟨rfl, -⟩
    · exact Or.inl hx
    · refine Or.inr fun job' hjob' => ?_
      rw [hjob, Option.some.injEq] at hjob'
      exact hjob' ▸ hcap
  · rw [hrows] at hx
    rcases Table.mem_put.mp hx with ⟨hx, -⟩ | ⟨rfl, -⟩
    · exact hinv.attempt_job x hx
    · exact ⟨job, hjob⟩

theorem start (h : Capped db) (hinv : Inv db) {job : Job} {a : Attempt} {startedAt : Time}
    {s : Stamp} (hg : (Change.start job a startedAt s).guard db)
    (hcap : a.expiresAt ≤ startedAt + (job.timeout + 5)) :
    Capped ((Change.start job a startedAt s).effect db) := by
  refine h.put hinv (.effect hg) hg.1 (b := { a with startedAt := some startedAt }) rfl rfl ?_
  rintro _ ⟨⟩
  exact hcap

/-- Only a start can leave an attempt past its cap. -/
theorem effect (h : Capped db) (hinv : Inv db) {c : Change} (hg : c.guard db) {A : Moment → Prop}
    {l : ℚ} (htimed : c.Timed A l)
    (hstart : ∀ job a startedAt s, c = .start job a startedAt s →
      a.expiresAt ≤ startedAt + (job.timeout + 5)) : Capped (c.effect db) := by
  have hl := Later.effect hg
  -- an attempt that ends keeps its times
  have hclose : ∀ {job a} {b : Attempt}, Holds db job a → b.jobId = a.jobId →
      b.startedAt = a.startedAt → b.expiresAt = a.expiresAt →
      (c.effect db).attempts = db.attempts.put b → Capped (c.effect db) := by
    intro job a b hold hb hs he hrows
    refine h.put hinv hl hold hb hrows fun startedAt hsome => ?_
    rw [he]
    refine h a (Table.mem_of_find? hold.attempt_row) job ?_ startedAt (hs.symm.trans hsome)
    rw [hold.attempt_job]
    exact hold.job_row
  have hsame : (c.effect db).attempts = db.attempts → Capped (c.effect db) := by
    intro hrows
    refine h.of_attempts hl (fun b hb => Or.inl ?_) fun b hb => hinv.attempt_job b ?_
    · exact hrows ▸ hb
    · exact hrows ▸ hb
  cases c with
  | lease w job a t s =>
      refine h.of_attempts hl (fun b hb => ?_) fun b hb => ?_
      · rcases (Table.mem_add hg.fresh).mp hb with hb | rfl
        · exact Or.inl hb
        · exact Or.inr fun _ _ _ hs => by simp [hg.is_new.2.1] at hs
      · rcases (Table.mem_add hg.fresh).mp hb with hb | rfl
        · exact hinv.attempt_job b hb
        · exact ⟨job, hg.attempt_job ▸ hg.job_row⟩
  | start job a startedAt s => exact h.start hinv hg (hstart job a startedAt s rfl)
  | renew job a expiresAt =>
      refine h.put hinv hl hg.1 (b := { a with expiresAt }) rfl rfl fun startedAt hs => ?_
      obtain ⟨-, startedAt', t, hs', -, rfl, -⟩ := htimed
      obtain rfl : startedAt' = startedAt := Option.some.inj (hs'.symm.trans hs)
      exact min_le_right _ _
  | succeed job a o t s => exact hclose hg.1 (b := a.deliver o t) rfl rfl rfl rfl
  | retry job a o e t t' s => exact hclose hg.1 (b := a.close o e t) rfl rfl rfl rfl
  | fail job a o e r t s => exact hclose hg.1 (b := a.close o e t) rfl rfl rfl rfl
  | admitted | cancel | enroll | seen | drain | takeover | mark | log => exact hsame rfl

end Capped

/-! ## Runs -/

theorem unstarted_of_leased {db : Database} (hinv : Inv db) {job : Job} {a : Attempt}
    (hold : Holds db job a) (hs : job.status = .leased) : a.startedAt = none := by
  obtain ⟨-, -, -, -, -, hiff⟩ := hinv.holds hold
  rw [hs] at hiff
  simpa using hiff

theorem started_of_running {db : Database} (hinv : Inv db) {job : Job} {a : Attempt}
    (hold : Holds db job a) (hs : job.status = .running) : a.startedAt ≠ none := by
  obtain ⟨-, -, -, -, -, hiff⟩ := hinv.holds hold
  rw [hs] at hiff
  simpa [Option.isSome_iff_ne_none] using hiff

variable [Sha256]

/-- An accepted start finds a lease that ends before the cap, which counts from the clock
reading that becomes `started_at`. -/
def LeaseWithinCap (db : Database) (t : Txn) : Prop :=
  ∀ jobId body credential, t.request = .start jobId body credential →
    t.answer db = .ok .running → ∀ a job, db.attempts.find? body.token = some a →
      db.jobs.find? a.jobId = some job → a.startedAt = none →
      a.expiresAt ≤ (t.feed 4).time + (job.timeout + 5)

/-- A start is refused, finds the job running, or starts the attempt. -/
theorem commit_start {db : Database} {t : Txn} {jobId : Uuid} {body : Assignment}
    {credential : Option String} (hreq : t.request = .start jobId body credential) :
    (commit db t = db ∧ (t.answer db = .ok .running →
        ∃ job a, Holds db job a ∧ a.id = body.token ∧ job.status = .running)) ∨
      t.answer db = .ok .running ∧ ∃ job a s, a.id = body.token ∧
        (Change.start job a (t.feed 4).time s).guard db ∧
        commit db t = (Change.start job a (t.feed 4).time s).effect db := by
  have houtcome : t.outcome db =
      (identity body.workerId credential >>= fun _ => do
        start jobId body.workerId body.token
        pure Response.running).exec t.feed db := by
    rw [Txn.outcome, hreq]
    rfl
  have hrefused : ∀ {e rest}, t.outcome db = ⟨.error e, db, rest⟩ →
      commit db t = db ∧ (t.answer db = .ok .running →
        ∃ job a, Holds db job a ∧ a.id = body.token ∧ job.status = .running) := by
    intro e rest h
    have hans : t.answer db = .error e := by rw [Txn.answer, h]
    exact ⟨commit_error hans, by simp [hans]⟩
  cases hw : db.workers.find? body.workerId with
  | none =>
      rw [exec_identity_none hw] at houtcome
      exact Or.inl (hrefused houtcome)
  | some w =>
      rw [exec_identity hw] at houtcome
      split at houtcome
      swap
      · exact Or.inl (hrefused houtcome)
      rw [Prog.exec_bind] at houtcome
      rcases exec_start db (fun n => t.feed (n + 1)) jobId body.token body.workerId with
        ⟨e, rest, heq⟩ | ⟨job, a, hold, haid, ⟨hrun, rest, heq⟩ | ⟨s, rest, hg, heq⟩⟩
      · rw [heq] at houtcome
        exact Or.inl (hrefused houtcome)
      · rw [heq] at houtcome
        have hans : t.answer db = .ok .running := by rw [Txn.answer, houtcome]; rfl
        refine Or.inl ⟨?_, fun _ => ⟨job, a, hold, haid, hrun⟩⟩
        rw [commit, hans, houtcome]
        rfl
      · rw [heq] at houtcome
        have hans : t.answer db = .ok .running := by rw [Txn.answer, houtcome]; rfl
        refine Or.inr ⟨hans, job, a, s, haid, hg, ?_⟩
        rw [commit, hans, houtcome]
        rfl

/-- A transaction keeps the cap if it meets the condition. -/
theorem Capped.commit {db : Database} (h : Capped db) (hinv : Inv db) {t : Txn}
    (hcap : LeaseWithinCap db t) : Capped (commit db t) := by
  by_cases hstart : ∃ jobId body credential, t.request = .start jobId body credential
  · obtain ⟨jobId, body, credential, hreq⟩ := hstart
    rcases commit_start hreq with ⟨hsame, -⟩ | ⟨hans, job, a, s, haid, hg, heq⟩
    · rw [hsame]
      exact h
    · have hnone : a.startedAt = none := unstarted_of_leased hinv hg.1 hg.2.2
      have hjob : db.jobs.find? a.jobId = some job := hg.1.attempt_job ▸ hg.1.job_row
      rw [heq]
      exact h.start hinv hg (hcap _ _ _ hreq hans a job (haid ▸ hg.1.attempt_row) hjob hnone)
  · refine (commit_invariant hinv (fun c d hc hd hg hcapped => ?_) h).2
    refine hcapped.effect hd hg hc.2 ?_
    rintro job a startedAt s rfl
    have hallowed := hc.1
    cases hreq : t.request with
    | start jobId body credential => exact absurd ⟨jobId, body, credential, hreq⟩ hstart
    | _ => simp [hreq, Allowed] at hallowed

/-- A transaction that keeps the cap meets the condition. -/
theorem Capped.of_commit {db : Database} (hinv : Inv db) {t : Txn}
    (h : Capped (GreyQueue.commit db t)) : LeaseWithinCap db t := by
  intro jobId body credential hreq hans a job ha hjob hnone
  rcases commit_start hreq with ⟨-, hrunning⟩ | ⟨-, job', a', s, haid, hg, heq⟩
  · obtain ⟨job', a', hold, haid, hrun⟩ := hrunning hans
    obtain rfl : a' = a := Option.some.inj ((haid ▸ hold.attempt_row).symm.trans ha)
    exact absurd hnone (started_of_running hinv hold hrun)
  · obtain rfl : a' = a := Option.some.inj ((haid ▸ hg.1.attempt_row).symm.trans ha)
    obtain rfl : job' = job :=
      Option.some.inj ((hg.1.attempt_job ▸ hg.1.job_row).symm.trans hjob)
    rw [heq] at h
    refine h { a' with startedAt := some (t.feed 4).time } ?_ (job'.enter .running s) ?_ _ rfl
    · exact Table.mem_of_find?
        (hg.1.find?_put (b := { a' with startedAt := some (t.feed 4).time }) rfl rfl)
    · exact hg.1.attempt_job ▸ Table.find?_put_self (r := job'.enter .running s) hg.1.job_row

/-- **Execution cap on ownership.** Along a run, no started attempt is ever owned past
`started_at + timeout + 5`, and nobody starts, renews or finishes it later than that,
exactly when every accepted start finds a lease that ends before this instant. -/
theorem execution_cap (txns : List Txn) :
    (∀ pre post, txns = pre ++ post → Capped (run pre) ∧
      ∀ a ∈ (run pre).attempts.rows, ∀ job, (run pre).jobs.find? a.jobId = some job →
        ∀ startedAt, a.startedAt = some startedAt →
        ∀ feed : ℕ → Moment, (∀ n, startedAt + (job.timeout + 5) < (feed n).time) →
        ∀ (jobId : Uuid) (workerId : String),
          (((start jobId workerId a.id).exec feed (run pre)).state = run pre ∧
            ((start jobId workerId a.id).exec feed (run pre)).result ≠ .ok ()) ∧
          (∀ leaseSeconds,
            ((renew jobId workerId a.id leaseSeconds).exec feed (run pre)).state = run pre ∧
            ∀ t, ((renew jobId workerId a.id leaseSeconds).exec feed (run pre)).result ≠ .ok t) ∧
          ∀ output error retryable,
            ((finish jobId workerId a.id output error retryable).exec feed (run pre)).state =
              run pre ∧
            (((finish jobId workerId a.id output error retryable).exec feed (run pre)).result =
              .ok () → a.finishedAt.isSome = true)) ↔
    ∀ pre t post, txns = pre ++ t :: post → LeaseWithinCap (run pre) t := by
  constructor
  · intro h pre t post htxns
    refine Capped.of_commit (run_inv pre) ?_
    rw [← run_snoc]
    exact (h (pre ++ [t]) post (by simp [htxns])).1
  · intro h pre post htxns
    have hcapped : Capped (run pre) := by
      induction pre using List.reverseRecOn generalizing post with
      | nil => intro a ha; simp [run] at ha
      | append_singleton pre t ih =>
          rw [run_snoc]
          exact (ih (t :: post) (by simp [htxns])).commit (run_inv pre)
            (h pre t post (by simp [htxns]))
    refine ⟨hcapped, fun a ha job hjob startedAt hs feed hlate jobId workerId => ?_⟩
    have hstale : Stale (run pre) feed a := by
      refine Or.inr (Or.inr fun n => ?_)
      exact (hcapped a ha job hjob startedAt hs).trans (hlate n).le
    refine ⟨hstale.start ha jobId workerId, hstale.renew ha jobId workerId, fun o e r => ?_⟩
    have hfinish := hstale.finish ha (run_inv pre) jobId workerId o e r
    exact ⟨hfinish.1, fun hok => (hfinish.2 hok).1⟩

/-- A job with the default timeout of 15 seconds is claimed and started. -/
def longOwnership : List Txn := [
  { request := .submit .flaky, feed := .still 1 },
  { request := .register .first, feed := .still 2 },
  { config := .longLease
    request := .claim .first (some Registration.first.sessionToken)
    feed := .still 3 },
  { config := .longLease
    request := .start 104 ⟨"w1", 307⟩ (some Registration.first.sessionToken)
    feed := .still 4 }]

/-- It is finished 196 seconds after its start. -/
def lateFinish : Txn where
  config := .longLease
  request := .finish 104 (.empty 307) (some Registration.first.sessionToken)
  feed := .still 200

omit [Sha256] in
/-- The lease of the claim outlasts the cap, and the completion is accepted. -/
theorem execution_cap_exceeded :
    letI := Sha256.tabulated []
    ¬ Capped (run longOwnership) ∧
      (run (longOwnership ++ [lateFinish])).jobs.rows.map Job.status = [.succeeded] := by
  let := Sha256.tabulated []
  have hattempt : ((104, some 4, 303) : Uuid × Option Time × Time) ∈
      (run longOwnership).attempts.rows.map (fun a => (a.jobId, a.startedAt, a.expiresAt)) := by
    decide +kernel
  have htimeout : ((run longOwnership).jobs.find? 104).map Job.timeout = some 15 := by
    decide +kernel
  refine ⟨fun h => ?_, by decide +kernel⟩
  generalize run longOwnership = db at h hattempt htimeout
  obtain ⟨job, hjob, htimeout⟩ := Option.map_eq_some_iff.mp htimeout
  obtain ⟨a, ha, hrow⟩ := List.mem_map.mp hattempt
  simp only [Prod.mk.injEq] at hrow
  have hle := h a ha job (by rw [hrow.1]; exact hjob) 4 hrow.2.1
  rw [hrow.2.2, htimeout] at hle
  norm_num at hle

end GreyQueue
