import GreyQueue.Lifecycle

/-!
# The outcome of a job

Which completion closed an attempt, and whether it called a failure retryable, is a fact
about the run.  `Reports` reads it off the transactions, and the invariant `Reported`
ties it to the attempt and to the state of its job.

## Main definitions

* `Verdict` — what a completion says.
* `Reports txns token verdict` — the finish that closed the attempt in this run.

## Main results

* `single_outcome` — one immutable result per job, which agrees with its attempts.
-/

namespace GreyQueue

open Lib

/-! ## Verdicts -/

/-- What a completion says about an attempt. -/
inductive Verdict
  | success (output : Option Json)
  | failure (error : String) (retryable : Bool)

/-- The verdict of a completion. -/
def Completion.verdict (body : Completion) : Verdict :=
  match body.error with
  | none => .success body.json
  | some e => .failure e body.retryable

/-- The completion that a change records: the attempt and the verdict. -/
def Change.report : Change → Option (Uuid × Verdict)
  | .succeed _ a output _ _ => some (a.id, .success output)
  | .retry _ a .failed e _ _ _ => some (a.id, .failure e true)
  | .fail _ a .failed e retryable _ _ => some (a.id, .failure e retryable)
  | _ => none

/-- The row of an attempt agrees with a verdict. -/
def Attempt.Shows (a : Attempt) : Verdict → Prop
  | .success output => a.outcome = some .succeeded ∧ a.output = output
  | .failure e _ => a.outcome = some .failed ∧ a.error = some e

/-- The attempt was completed by a finish. -/
def Attempt.Completed (a : Attempt) : Prop :=
  a.outcome = some .succeeded ∨ a.outcome = some .failed

/-- An attempt that a change writes belongs to a job that is not in a final state, and if
it is completed, the change reports so. -/
theorem effect_attempt {db : Database} (hinv : Inv db) {c : Change} (hg : c.guard db)
    {x : Attempt} (hx : x ∈ (c.effect db).attempts.rows) :
    x ∈ db.attempts.rows ∨
      (∃ job, db.jobs.find? x.jobId = some job ∧ ¬ job.status.final) ∧
        (x.Completed → ∃ v, c.report = some (x.id, v) ∧ x.Shows v) := by
  -- every change but a lease rewrites an attempt that is held
  have hput : ∀ {job a b}, Holds db job a → x ∈ (db.attempts.put b).rows →
      b.jobId = a.jobId → (b.Completed → ∃ v, c.report = some (b.id, v) ∧ b.Shows v) →
      x ∈ db.attempts.rows ∨
        (∃ job, db.jobs.find? x.jobId = some job ∧ ¬ job.status.final) ∧
          (x.Completed → ∃ v, c.report = some (x.id, v) ∧ x.Shows v) := by
    intro job a b hold hx hbj hrep
    rcases Table.mem_put.mp hx with ⟨hx, -⟩ | ⟨rfl, -⟩
    · exact Or.inl hx
    · refine Or.inr ⟨⟨job, ?_, Status.not_final_of_held (hinv.holds hold).2.2.2.1⟩, hrep⟩
      rw [hbj, hold.attempt_job]
      exact hold.job_row
  have hnone : ∀ {job a}, Holds db job a → a.outcome = none :=
    fun hold => (hinv.holds hold).2.2.2.2.1.2.1
  cases c with
  | lease w job a t s =>
      rcases (Table.mem_add hg.fresh).mp hx with hx | rfl
      · exact Or.inl hx
      · refine Or.inr ⟨⟨job, hg.attempt_job ▸ hg.job_row, ?_⟩, ?_⟩
        · exact Status.not_final_of_waiting (claimable_iff.mp hg.ready).1
        · simp [Attempt.Completed, hg.is_new.2.2.1]
  | start job a t s => exact hput hg.1 hx rfl (by simp [Attempt.Completed, hnone hg.1])
  | renew job a t => exact hput hg.1 hx rfl (by simp [Attempt.Completed, hnone hg.1])
  | succeed job a o t s => exact hput hg.1 hx rfl fun _ => ⟨.success o, rfl, rfl, rfl⟩
  | retry job a o e t t' s =>
      refine hput hg.1 hx rfl fun ho => ?_
      cases o with
      | failed => exact ⟨.failure e true, rfl, rfl, rfl⟩
      | succeeded | leaseExpired => simp_all [Attempt.Completed, Attempt.close, Change.guard]
  | fail job a o e r t s =>
      refine hput hg.1 hx rfl fun ho => ?_
      cases o with
      | failed => exact ⟨.failure e r, rfl, rfl, rfl⟩
      | succeeded | leaseExpired => simp_all [Attempt.Completed, Attempt.close, Change.guard]
  | admitted | cancel | enroll | seen | drain | takeover | mark | log => exact Or.inl hx

/-- A job that a change moves to `FAILED` lost its current attempt to a permanent
failure. -/
theorem effect_failed {db : Database} (hinv : Inv db) {c : Change} (hg : c.guard db) {k : Uuid}
    {j : Job} (hj : (c.effect db).jobs.find? k = some j) (hs : j.status = .failed) :
    db.jobs.find? k = some j ∨
      ∃ b ∈ (c.effect db).attempts.rows, b.jobId = k ∧ b.fence = j.attemptCount ∧
        ∃ e, c.report = some (b.id, .failure e false) := by
  have hput : ∀ {job' : Job}, (db.jobs.put job').find? k = some j → job'.status ≠ .failed →
      db.jobs.find? k = some j := by
    intro job' hj hne
    rcases Table.find?_put_eq_some hj with ⟨-, rfl⟩ | ⟨-, hj⟩
    · exact absurd hs hne
    · exact hj
  cases c with
  | admitted job q n now now' =>
      rcases Table.find?_add_eq_some hg.fresh hj with ⟨-, rfl⟩ | hj
      · rw [hg.queued] at hs; simp at hs
      · exact Or.inl hj
  | lease w job a t s => exact Or.inl (hput hj (by simp [Job.leased, Job.enter]))
  | start job a t s => exact Or.inl (hput hj (by simp [Job.enter]))
  | succeed job a o t s => exact Or.inl (hput hj (by simp [Job.enter]))
  | retry job a o e t t' s => exact Or.inl (hput hj (by simp [Job.enter]))
  | fail job a o e r t s =>
      obtain ⟨hold, -, -, hperm, -⟩ := hg
      cases r with
      | true => exact Or.inl (hput hj (by simp [Job.enter]))
      | false =>
          obtain rfl := hperm rfl
          rcases Table.find?_put_eq_some hj with ⟨hk, rfl⟩ | ⟨-, hj⟩
          · have hb := hold.find?_put (b := a.close .failed e t) rfl rfl
            exact Or.inr ⟨_, Table.mem_of_find? hb, hold.attempt_job.trans hk,
              (hinv.holds hold).2.2.1, e, rfl⟩
          · exact Or.inl hj
  | cancel job s => exact Or.inl (hput hj (by simp [Job.enter]))
  | renew | enroll | seen | drain | takeover | mark | log => exact Or.inl hj

/-- A change completes an open attempt, which it closes, and permanent failures end the
job. -/
theorem report_spec {db : Database} {c : Change} (hg : c.guard db) {k : Uuid} {v : Verdict}
    (hr : c.report = some (k, v)) :
    ∃ a b job, db.attempts.find? k = some a ∧ a.finishedAt = none ∧
      (c.effect db).attempts.find? k = some b ∧ b.finishedAt.isSome = true ∧
      (c.effect db).jobs.find? b.jobId = some job ∧
      (∀ e, v = .failure e false → job.status = .failed) := by
  -- the job of the attempt, after the change
  have hjob : ∀ {job job' : Job} {a b : Attempt}, Holds db job a → b.jobId = a.jobId →
      job'.id = job.id → (db.jobs.put job').find? b.jobId = some job' := by
    intro job job' a b hold hbj hid
    have hrow : db.jobs.find? job'.id = some job := hid ▸ hold.job_row
    rw [hbj, hold.attempt_job, ← hid]
    exact Table.find?_put_self hrow
  cases c with
  | succeed job a o t s =>
      simp only [Change.report, Option.some.injEq, Prod.mk.injEq] at hr
      obtain ⟨rfl, rfl⟩ := hr
      exact ⟨a, a.deliver o t, job.enter .succeeded s, hg.1.attempt_row, hg.1.is_open,
        hg.1.find?_put (b := a.deliver o t) rfl rfl, rfl, hjob hg.1 rfl rfl, by simp⟩
  | retry job a o e t t' s =>
      cases o <;> simp only [Change.report, reduceCtorEq, Option.some.injEq, Prod.mk.injEq] at hr
      obtain ⟨rfl, rfl⟩ := hr
      exact ⟨a, a.close .failed e t, Job.enter { job with availableAt := t' } .retryWait s,
        hg.1.attempt_row, hg.1.is_open, hg.1.find?_put (b := a.close .failed e t) rfl rfl, rfl,
        hjob hg.1 rfl rfl, by simp⟩
  | fail job a o e q t s =>
      cases o <;> simp only [Change.report, reduceCtorEq, Option.some.injEq, Prod.mk.injEq] at hr
      obtain ⟨rfl, rfl⟩ := hr
      refine ⟨a, a.close .failed e t, job.enter (if q then .deadLetter else .failed) s,
        hg.1.attempt_row, hg.1.is_open, hg.1.find?_put (b := a.close .failed e t) rfl rfl, rfl,
        hjob hg.1 rfl rfl, ?_⟩
      intro e' he'
      cases he'
      rfl
  | admitted | lease | start | renew | cancel | enroll | seen | drain | takeover | mark | log =>
      simp [Change.report] at hr

/-- The reports of a run agree with the database: each belongs to a finished attempt,
each completed attempt shows its own, and exactly the permanent failures belong to
failed jobs. -/
structure Reported (R : Uuid → Verdict → Prop) (db : Database) : Prop where
  finished : ∀ k v, R k v → ∃ a, db.attempts.find? k = some a ∧ a.finishedAt.isSome = true
  unique : ∀ k v v', R k v → R k v' → v = v'
  completed : ∀ a ∈ db.attempts.rows, a.Completed → ∃ v, R a.id v ∧ a.Shows v
  permanent : ∀ a ∈ db.attempts.rows, ∀ e, R a.id (.failure e false) → ∃ job,
    db.jobs.find? a.jobId = some job ∧ job.status = .failed
  last : ∀ job, db.jobs.find? job.id = some job → job.status = .failed →
    ∀ a ∈ attemptsOf db.attempts job.id, a.fence = job.attemptCount →
      ∃ e, R a.id (.failure e false)

theorem Reported.effect {R : Uuid → Verdict → Prop} {db : Database} (h : Reported R db)
    (hinv : Inv db) {c : Change} (hg : c.guard db) :
    Reported (fun k v => R k v ∨ c.report = some (k, v)) (c.effect db) := by
  have hlater := Later.effect hg
  -- a finished attempt is not reported again
  have hopen : ∀ k v v', R k v → c.report ≠ some (k, v') := by
    intro k v v' hR hr
    obtain ⟨a, ha, hfin⟩ := h.finished k v hR
    obtain ⟨a', -, -, ha', hnone, -⟩ := report_spec hg hr
    rw [ha, Option.some.injEq] at ha'
    simp [ha', hnone] at hfin
  refine ⟨?_, ?_, ?_, ?_, ?_⟩
  · rintro k v (hR | hr)
    · obtain ⟨a, ha, hfin⟩ := h.finished k v hR
      obtain ⟨b, hb, hab⟩ := hlater.attempts k a ha
      exact ⟨b, hb, hab.2 hfin ▸ hfin⟩
    · obtain ⟨-, b, -, -, -, hb, hfin, -⟩ := report_spec hg hr
      exact ⟨b, hb, hfin⟩
  · rintro k v v' (hR | hr) (hR' | hr')
    · exact h.unique k v v' hR hR'
    · exact absurd hr' (hopen k v v' hR)
    · exact absurd hr (hopen k v' v hR')
    · rw [hr] at hr'; simpa using hr'
  · intro x hx ho
    rcases effect_attempt hinv hg hx with hx | ⟨-, hrep⟩
    · obtain ⟨v, hR, hv⟩ := h.completed x hx ho
      exact ⟨v, Or.inl hR, hv⟩
    · obtain ⟨v, hr, hv⟩ := hrep ho
      exact ⟨v, Or.inr hr, hv⟩
  · intro x hx e hR
    rcases hR with hR | hr
    · -- the reported attempt is finished, so it is an old row
      obtain ⟨a, ha, hfin⟩ := h.finished _ _ hR
      obtain ⟨b, hb, hab⟩ := hlater.attempts _ a ha
      obtain rfl : x = b := Table.eq_of_key hx (Table.mem_of_find? hb) (Table.key_of_find? hb).symm
      obtain rfl := hab.2 hfin
      obtain ⟨job, hjob, hs⟩ := h.permanent x (Table.mem_of_find? ha) e hR
      obtain ⟨job', hjob', hlj⟩ := hlater.jobs _ job hjob
      exact ⟨job', hjob', by rw [hlj.2.2 (by simp [hs, Status.final, transitions]), hs]⟩
    · obtain ⟨-, b, job, -, -, hb, -, hjob, hs⟩ := report_spec hg hr
      obtain rfl : x = b := Table.eq_of_key hx (Table.mem_of_find? hb) (Table.key_of_find? hb).symm
      exact ⟨job, hjob, hs e rfl⟩
  · intro job hjob hs x hx hxf
    obtain ⟨hx, hxj⟩ := mem_attemptsOf.mp hx
    have hnew := (hinv.effect hg).job job hjob
    rcases effect_failed hinv hg hjob hs with hold | ⟨b, hb, hbj, hbf, e, hr⟩
    · -- a job that had failed before: its attempts are untouched
      rcases effect_attempt hinv hg hx with hx | ⟨⟨j, hj, hnf⟩, -⟩
      · obtain ⟨e, he⟩ := h.last job hold hs x (mem_attemptsOf.mpr ⟨hx, hxj⟩) hxf
        exact ⟨e, Or.inl he⟩
      · rw [hxj, hold, Option.some.injEq] at hj
        rw [← hj] at hnf
        exact absurd (by simp [hs, Status.final, transitions]) hnf
    · -- the attempt that just failed is the current one
      have hxb : x = b := hnew.eq_of_fence (mem_attemptsOf.mpr ⟨hx, hxj⟩)
        (mem_attemptsOf.mpr ⟨hb, hbj⟩) (hxf.trans hbf.symm)
      exact ⟨e, Or.inr (hxb ▸ hr)⟩

/-- Reports accumulate along a list of changes. -/
theorem Reported.path {R : Uuid → Verdict → Prop} {db : Database} (h : Reported R db)
    (hinv : Inv db) {cs : List Change} (hp : changes.Path cs db) :
    Reported (fun k v => R k v ∨ ∃ c ∈ cs, c.report = some (k, v)) (changes.after cs db) := by
  induction cs generalizing R db with
  | nil => simpa using h
  | cons c cs ih =>
      have := ih (h.effect hinv hp.1) (hinv.effect hp.1) hp.2
      simpa [or_assoc] using this

variable [Sha256]

/-- The transaction is the finish that closes the open attempt `token`. -/
def Txn.Closes (t : Txn) (db : Database) (token : Uuid) (v : Verdict) : Prop :=
  ∃ jobId body credential, t.request = .finish jobId body credential ∧ body.token = token ∧
    body.verdict = v ∧ (∃ response, t.answer db = .ok response) ∧
    ∃ a, db.attempts.find? token = some a ∧ a.finishedAt = none

/-- In the run, the attempt `token` was completed with the given verdict. -/
def Reports (txns : List Txn) (token : Uuid) (v : Verdict) : Prop :=
  ∃ pre t post, txns = pre ++ t :: post ∧ t.Closes (run pre) token v

theorem reports_snoc {txns : List Txn} {t : Txn} {token : Uuid} {v : Verdict} :
    Reports (txns ++ [t]) token v ↔ Reports txns token v ∨ t.Closes (run txns) token v :=
  occurs_snoc (P := fun db t => t.Closes db token v)

/-- The changes of a finish report its verdict on its token. -/
theorem report_of_finish {config : Settings} {jobId : Uuid} {body : Completion}
    {credential : Option String} {c : Change}
    (hc : Allowed config (.finish jobId body credential) c) :
    c.report = some (body.token, body.verdict) ∧
      ∀ db, c.guard db → ∃ a, db.attempts.find? body.token = some a ∧ a.finishedAt = none := by
  cases c with
  | retry job x o e t t' s =>
      obtain ⟨⟨-, hx, -⟩, he, hr, rfl⟩ := hc
      exact ⟨by simp [Change.report, hx, Completion.verdict, he, hr],
        fun db hg => ⟨x, hx ▸ hg.1.attempt_row, hg.1.is_open⟩⟩
  | fail job x o e q t s =>
      obtain ⟨⟨-, hx, -⟩, he, hr, rfl⟩ := hc
      exact ⟨by simp [Change.report, hx, Completion.verdict, he, hr],
        fun db hg => ⟨x, hx ▸ hg.1.attempt_row, hg.1.is_open⟩⟩
  | succeed job x o t s =>
      obtain ⟨⟨-, hx, -⟩, he, rfl⟩ := hc
      exact ⟨by simp [Change.report, hx, Completion.verdict, he],
        fun db hg => ⟨x, hx ▸ hg.1.attempt_row, hg.1.is_open⟩⟩
  | _ => exact absurd hc (by simp [Allowed])

/-- Only a finish reports. -/
theorem finish_of_report {config : Settings} {request : Request} {c : Change}
    (hc : Allowed config request c) {token : Uuid} {v : Verdict}
    (hr : c.report = some (token, v)) :
    ∃ jobId body credential, request = .finish jobId body credential := by
  cases c with
  | retry job x o e t t' s =>
      cases o <;> simp only [Change.report, reduceCtorEq] at hr
      cases request <;> simp [Allowed] at hc ⊢
  | fail job x o e q t s =>
      cases o <;> simp only [Change.report, reduceCtorEq] at hr
      cases request <;> simp [Allowed] at hc ⊢
  | succeed job x o t s => cases request <;> simp [Allowed] at hc ⊢
  | _ => simp [Change.report] at hr

/-- What a transaction reports is what its changes report. -/
theorem closes_iff {db : Database} (hinv : Inv db) {t : Txn} {cs : List Change}
    (hp : changes.Path cs db) (hall : ∀ c ∈ cs, Allowed t.config t.request c)
    (hcommit : commit db t = changes.after cs db)
    (hok : cs ≠ [] → ∃ response, t.answer db = .ok response) (token : Uuid) (v : Verdict) :
    t.Closes db token v ↔ ∃ c ∈ cs, c.report = some (token, v) := by
  constructor
  · rintro ⟨jobId, body, credential, hreq, rfl, rfl, ⟨response, hans⟩, a, ha, hopen⟩
    obtain ⟨-, hanswer⟩ := commit_answers hinv hans
    rw [hreq] at hanswer
    obtain ⟨b, hb, -, -, hfin, -⟩ := hanswer
    -- the attempt was open before and is closed after, so there is a change
    cases cs with
    | nil =>
        rw [hcommit, changes.after_nil, ha, Option.some.injEq] at hb
        simp [← hb, hopen] at hfin
    | cons c cs =>
        have hc := hall c List.mem_cons_self
        rw [hreq] at hc
        exact ⟨c, List.mem_cons_self, (report_of_finish hc).1⟩
  · rintro ⟨c, hc, hr⟩
    obtain ⟨jobId, body, credential, hreq⟩ := finish_of_report (hall c hc) hr
    have hverdict := (report_of_finish (hreq ▸ hall c hc)).1
    rw [hr, Option.some.injEq, Prod.mk.injEq] at hverdict
    obtain ⟨rfl, rfl⟩ := hverdict
    -- the first change is guarded in `db` itself
    cases cs with
    | nil => simp at hc
    | cons d cs =>
        have hd := hall d List.mem_cons_self
        rw [hreq] at hd
        exact ⟨jobId, body, credential, hreq, rfl, rfl, hok (by simp),
          (report_of_finish hd).2 db hp.1⟩

/-- The reports of every run agree with its database. -/
theorem run_reported (txns : List Txn) : Reported (Reports txns) (run txns) := by
  induction txns using List.reverseRecOn with
  | nil =>
      have hno : ∀ k r, ¬ Reports ([] : List Txn) k r := by
        rintro k r ⟨pre, t, post, h, -⟩
        simp at h
      exact ⟨fun k r h => absurd h (hno k r), fun k r _ h => absurd h (hno k r),
        fun _ h => by simp [run] at h, fun _ h => by simp [run] at h, fun _ h => by simp [run] at h⟩
  | append_singleton txns t ih =>
      have hinv := run_inv txns
      obtain ⟨cs, hp, hall, hcommit, hok⟩ := commit_changes hinv t
      have h := ih.path hinv hp
      have hR : Reports (txns ++ [t]) =
          fun k v => Reports txns k v ∨ ∃ c ∈ cs, c.report = some (k, v) := by
        funext k v
        rw [reports_snoc, closes_iff hinv hp hall hcommit hok]
      rw [run_snoc, hcommit, hR]
      exact h

/-! ## Results -/

/-- The attempt of the job with the highest fence. -/
def Highest (db : Database) (job : Job) (a : Attempt) : Prop :=
  a ∈ attemptsOf db.attempts job.id ∧ ∀ b ∈ attemptsOf db.attempts job.id, b.fence ≤ a.fence

omit [Sha256] in
theorem highest_iff {db : Database} (hinv : Inv db) {job : Job}
    (hjob : db.jobs.find? job.id = some job) {a : Attempt} :
    Highest db job a ↔ a ∈ attemptsOf db.attempts job.id ∧ a.fence = job.attemptCount := by
  have h := hinv.job job hjob
  refine and_congr_right fun ha => ⟨fun hmax => ?_, fun hf b hb => ?_⟩
  · have hle := h.fence_mem ha
    obtain ⟨b, hb, hbf⟩ := h.exists_current (by omega)
    have := hmax b hb
    omega
  · have := (h.fence_mem hb).2
    omega

omit [Sha256] in
/-- The current attempt of a job that was tried fits its state. -/
theorem Inv.fits {db : Database} (hinv : Inv db) {job : Job}
    (hjob : db.jobs.find? job.id = some job) {a : Attempt} (ha : Highest db job a) :
    Fits job a (db.results.find? job.id) := by
  obtain ⟨ha, hf⟩ := (highest_iff hinv hjob).mp ha
  exact (hinv.job job hjob).current a ha hf

omit [Sha256] in
theorem Inv.exists_highest {db : Database} (hinv : Inv db) {job : Job}
    (hjob : db.jobs.find? job.id = some job) (hq : job.status ≠ .queued)
    (hc : job.status ≠ .cancelled) : ∃ a, Highest db job a := by
  have h := hinv.job job hjob
  obtain ⟨a, ha, hf⟩ := h.exists_current (h.tried hq hc)
  exact ⟨a, (highest_iff hinv hjob).mpr ⟨ha, hf⟩⟩

omit [Sha256] in
/-- A job has a result exactly when it ended other than by cancellation. -/
theorem Inv.result_iff {db : Database} (hinv : Inv db) {job : Job}
    (hjob : db.jobs.find? job.id = some job) :
    (db.results.find? job.id).isSome = true ↔
      job.status = .succeeded ∨ job.status = .failed ∨ job.status = .deadLetter := by
  have h := hinv.job job hjob
  rcases Nat.eq_zero_or_pos job.attemptCount with hz | hpos
  · have hnil := List.eq_nil_of_length_eq_zero (h.length_eq.trans hz)
    have hs : job.status = .queued ∨ job.status = .cancelled := by
      by_contra hn
      push Not at hn
      have := h.tried hn.1 hn.2
      omega
    rw [h.untried hnil]
    rcases hs with hs | hs <;> simp [hs]
  · obtain ⟨a, ha, hf⟩ := h.exists_current hpos
    have hfit := h.current a ha hf
    cases hs : job.status <;> simp_all [Fits]

/-- The failure of the attempt was reported as retryable, or as permanent. -/
def ReportedFailure (txns : List Txn) (token : Uuid) (retryable : Bool) : Prop :=
  ∃ error, Reports txns token (.failure error retryable)

section Job

variable {txns : List Txn} {job : Job} (hjob : (run txns).jobs.find? job.id = some job)

include hjob

/-- A job in a terminal state keeps its row and its result. -/
theorem run_terminal (hs : job.status ∈ terminal) (more : List Txn) :
    (run (txns ++ more)).jobs.find? job.id = some job ∧
      (run (txns ++ more)).results.find? job.id = (run txns).results.find? job.id := by
  have hlater := run_later txns more
  have hfinal : job.status.final := by
    cases hst : job.status <;> simp_all [terminal, Status.final, transitions]
  obtain ⟨job', hjob', hlj⟩ := hlater.jobs _ job hjob
  obtain rfl := hlj.2.2 hfinal
  refine ⟨hjob', ?_⟩
  cases hr : (run txns).results.find? job'.id with
  | some r =>
      obtain ⟨r', hr', rfl⟩ := hlater.results _ r hr
      exact hr'
  | none =>
      have hnone := ((run_inv txns).result_iff hjob).not.mp (by simp [hr])
      have := ((run_inv (txns ++ more)).result_iff hjob').not.mpr hnone
      simpa using this

/-- The attempt with the highest fence fits the status of its job. -/
theorem run_fits {a : Attempt} (ha : Highest (run txns) job a) :
    Fits job a ((run txns).results.find? job.id) := (run_inv txns).fits hjob ha

theorem succeeded_iff : job.status = .succeeded ↔
    ∃ a, Highest (run txns) job a ∧ a.outcome = some .succeeded := by
  constructor
  · intro hs
    obtain ⟨a, ha⟩ := (run_inv txns).exists_highest hjob (by simp [hs]) (by simp [hs])
    have hfit := run_fits hjob ha
    simp only [Fits, hs] at hfit
    exact ⟨a, ha, hfit.2.1⟩
  · rintro ⟨a, ha, ho⟩
    have hfit := run_fits hjob ha
    cases hs : job.status <;> simp_all [Fits, Attempt.Lost, Attempt.Pending]

/-- A permanent failure is reported for exactly the jobs that failed. -/
theorem failed_of_report {a : Attempt} (ha : Highest (run txns) job a)
    (hr : ReportedFailure txns a.id false) : job.status = .failed := by
  obtain ⟨e, hr⟩ := hr
  obtain ⟨hrow, haj⟩ := mem_attemptsOf.mp ha.1
  obtain ⟨job', hjob', hs⟩ := (run_reported txns).permanent a hrow e hr
  rw [haj, hjob, Option.some.injEq] at hjob'
  rw [hjob', hs]

theorem report_of_failed (hs : job.status = .failed) {a : Attempt}
    (ha : Highest (run txns) job a) : ReportedFailure txns a.id false := by
  obtain ⟨hmem, hf⟩ := (highest_iff (run_inv txns) hjob).mp ha
  exact (run_reported txns).last job hjob hs a hmem hf

theorem failed_iff : job.status = .failed ↔ ∃ a, Highest (run txns) job a ∧
    a.outcome = some .failed ∧ ReportedFailure txns a.id false := by
  constructor
  · intro hs
    obtain ⟨a, ha⟩ := (run_inv txns).exists_highest hjob (by simp [hs]) (by simp [hs])
    have hfit := run_fits hjob ha
    simp only [Fits, hs] at hfit
    exact ⟨a, ha, hfit.2.1, report_of_failed hjob hs ha⟩
  · rintro ⟨a, ha, -, hr⟩
    exact failed_of_report hjob ha hr

/-- The last attempt of a job that is not `FAILED` was not reported as permanent. -/
theorem report_retryable (hs : job.status ≠ .failed) {a : Attempt}
    (ha : Highest (run txns) job a) (ho : a.outcome = some .failed) :
    ReportedFailure txns a.id true := by
  obtain ⟨hrow, -⟩ := mem_attemptsOf.mp ha.1
  obtain ⟨v, hr, hv⟩ := (run_reported txns).completed a hrow (Or.inr ho)
  cases v with
  | success o => simp [Attempt.Shows, ho] at hv
  | failure e retryable =>
      cases retryable with
      | true => exact ⟨e, hr⟩
      | false => exact absurd (failed_of_report hjob ha ⟨e, hr⟩) hs

theorem deadLetter_iff : job.status = .deadLetter ↔ job.attemptCount = job.maxRetries + 1 ∧
    ∃ a, Highest (run txns) job a ∧
      ((a.outcome = some .failed ∧ ReportedFailure txns a.id true) ∨
        a.outcome = some .leaseExpired) := by
  constructor
  · intro hs
    obtain ⟨a, ha⟩ := (run_inv txns).exists_highest hjob (by simp [hs]) (by simp [hs])
    have hfit := run_fits hjob ha
    simp only [Fits, hs] at hfit
    refine ⟨hfit.2.1, a, ha, hfit.1.2.imp_left fun ho => ⟨ho, ?_⟩⟩
    exact report_retryable hjob (by simp [hs]) ha ho
  · rintro ⟨hcount, a, ha, ho⟩
    have hfit := run_fits hjob ha
    have hidle := ((run_inv txns).job job hjob).idle_bound
    cases hs : job.status with
    | deadLetter => rfl
    | failed =>
        -- one attempt is not reported both ways
        obtain ⟨e, hfalse⟩ := report_of_failed hjob hs ha
        rcases ho with ⟨-, e', htrue⟩ | ho
        · exact absurd ((run_reported txns).unique _ _ _ htrue hfalse) (by simp)
        · simp [Fits, hs, ho] at hfit
    | queued | retryWait => simp [hs, Status.waiting, hcount] at hidle
    | cancelled => simp [hs, hcount] at hidle
    | leased | running | succeeded =>
        rcases ho with ⟨ho, -⟩ | ho <;> simp [Fits, hs, ho, Attempt.Pending] at hfit

/-- An attempt below the highest fence failed or expired. -/
theorem run_past {a : Attempt} (ha : a ∈ attemptsOf (run txns).attempts job.id)
    (hnot : ¬ Highest (run txns) job a) :
    a.outcome = some .failed ∨ a.outcome = some .leaseExpired := by
  have hj := (run_inv txns).job job hjob
  have hle := (hj.fence_mem ha).2
  have hne : a.fence ≠ job.attemptCount := fun hf =>
    hnot ((highest_iff (run_inv txns) hjob).mpr ⟨ha, hf⟩)
  exact (hj.past a ha (by omega)).2

end Job

/-- **A single immutable outcome.** A result row exists exactly for the jobs that
succeeded, failed or were dead-lettered, and inserting it never conflicts.  A job in a
terminal state keeps its row and its result in every continuation of the run.  The result
agrees with the attempt with the highest fence, and every attempt below it failed or
expired. -/
theorem single_outcome (txns : List Txn) :
    (∀ t : Txn, t.answer (run txns) ≠ .error (.integrity "results_pkey")) ∧
    ∀ job ∈ (run txns).jobs.rows,
      (((run txns).results.find? job.id).isSome = true ↔
        job.status = .succeeded ∨ job.status = .failed ∨ job.status = .deadLetter) ∧
      (job.status ∈ terminal → ∀ more,
        (run (txns ++ more)).jobs.find? job.id = some job ∧
        (run (txns ++ more)).results.find? job.id = (run txns).results.find? job.id) ∧
      ((job.status = .succeeded ↔
          ∃ a, Highest (run txns) job a ∧ a.outcome = some .succeeded) ∧
        (job.status = .succeeded → ∀ a, Highest (run txns) job a →
          (run txns).results.find? job.id = some ⟨job.id, a.output, none⟩)) ∧
      ((job.status = .failed ↔ ∃ a, Highest (run txns) job a ∧ a.outcome = some .failed ∧
          ReportedFailure txns a.id false) ∧
        (job.status = .failed → ∀ a, Highest (run txns) job a →
          (run txns).results.find? job.id = some ⟨job.id, none, a.error⟩)) ∧
      ((job.status = .deadLetter ↔ job.attemptCount = job.maxRetries + 1 ∧
          ∃ a, Highest (run txns) job a ∧
            ((a.outcome = some .failed ∧ ReportedFailure txns a.id true) ∨
              a.outcome = some .leaseExpired)) ∧
        (job.status = .deadLetter → ∀ a, Highest (run txns) job a →
          (run txns).results.find? job.id = some ⟨job.id, none, a.error⟩)) ∧
      (∀ a ∈ attemptsOf (run txns).attempts job.id, ¬ Highest (run txns) job a →
        a.outcome = some .failed ∨ a.outcome = some .leaseExpired) := by
  have hinv := run_inv txns
  refine ⟨fun t hans => ?_, fun job hmem => ?_⟩
  · have hserved := t.served hinv
    rw [hans] at hserved
    rcases hserved _ rfl with h | h <;> simp at h
  have hjob : (run txns).jobs.find? job.id = some job := Table.find?_of_mem hmem
  refine ⟨hinv.result_iff hjob, run_terminal hjob, ⟨succeeded_iff hjob, fun hs a ha => ?_⟩,
    ⟨failed_iff hjob, fun hs a ha => ?_⟩, ⟨deadLetter_iff hjob, fun hs a ha => ?_⟩,
    fun a => run_past hjob⟩
  all_goals
    have hfit := run_fits hjob ha
    simp only [Fits, hs] at hfit
    exact hfit.2.2

end GreyQueue
