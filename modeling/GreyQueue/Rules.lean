import GreyQueue.Ownership

/-!
# What the operations do

One rule per statement and one specification per operation of `service.py`,
`recovery.py` and `api.py`.  An operation that returns has made a change of
`Change.lean`, with its guard established by the checks of the code; one that raises
has a database that is thrown away.

Specifications are in continuation form: to prove `Q` of every execution, prove it of
every result the operation can have.
-/

namespace GreyQueue

open Lib
open Lib.Prog (Sat sat_bind)

section Statements

variable {α β : Type} {A : Moment → Prop} {Q : Except Error α → Database → Prop} {db : Database}

/-- A statement that reads. -/
theorem sat_read {s : Sql β} {k : β → Tx α} {f : Moment → β}
    (hs : ∀ m, s.eval m db = .ok (f m, db)) (h : ∀ m, A m → Sat A (k (f m)) db Q) :
    Sat A (Prog.issue s >>= k) db Q :=
  Sat.stmt_ok (fun m _ => hs m) h

/-- A change that violates no constraint. -/
theorem sat_flush {w : Write} {db' : Database} {k : Unit → Tx α} (hs : w.apply db = .ok db')
    (h : Sat A (k ()) db' Q) : Sat A (flush w >>= k) db Q :=
  Sat.stmt_ok (f := fun _ => ()) (fun _ _ => congrArg (Except.map _) hs) fun _ _ => h

/-- A change that violates a constraint. -/
theorem sat_flush_error {w : Write} {e : Error} {k : Unit → Tx α} (hs : w.apply db = .error e)
    (h : Q (.error e) db) : Sat A (flush w >>= k) db Q :=
  Sat.stmt_error (fun _ _ => congrArg (Except.map _) hs) h

theorem sat_databaseTime {k : Time → Tx α} (h : ∀ m, A m → Sat A (k m.time) db Q) :
    Sat A (databaseTime >>= k) db Q := h

theorem sat_addEvent {id : Uuid} {s : EventState} {k : Unit → Tx α}
    (h : ∀ m, A m → Sat A (k ()) { db with events := db.events ++ [⟨id, s, m.start⟩] } Q) :
    Sat A (addEvent id s >>= k) db Q :=
  fun m hm _ _ => h m hm

theorem sat_logged {kind : SystemKind} {w : Option String} {detail : Option (Uuid × Uuid)}
    {k : Unit → Tx α} (h : ∀ now, Sat A (k ())
      { db with systemEvents := db.systemEvents ++ [⟨kind, w, detail, now⟩] } Q) :
    Sat A (addSystemEvent kind w detail >>= k) db Q :=
  fun _ _ _ _ => h _

theorem sat_addSystemEvent {kind : SystemKind} {w : Option String}
    {detail : Option (Uuid × Uuid)} {k : Unit → Tx α}
    (h : ∀ e, Sat A (k ()) { db with systemEvents := db.systemEvents ++ [e] } Q) :
    Sat A (addSystemEvent kind w detail >>= k) db Q :=
  sat_logged fun _ => h _

end Statements

/-! ## Refusals -/

/-- The text of the error that `transition` raises off its table. -/
def Illegal (detail : String) : Prop := "Illegal transition".toList <+: detail.toList

instance Illegal.decidable (detail : String) : Decidable (Illegal detail) :=
  inferInstanceAs (Decidable (_ <+: _))

/-- What an operation raises by itself: no violated constraint, no illegal transition. -/
def Error.Refusal : Error → Prop
  | .integrity _ => False
  | .conflict detail => ¬ Illegal detail
  | _ => True

theorem Error.Refusal.ne_integrity {e : Error} (h : e.Refusal) (name : String) :
    e ≠ .integrity name := by
  rintro rfl
  exact h

/-- The text of a refused token. -/
abbrev fencedError : String := "Expired or fenced assignment"

/-- A refusal of a token by `owned` or its caller.  The current attempt of a held job is
refused as expired only at a moment at which it is. -/
def Refuses (A : Moment → Prop) (db : Database) (token : Uuid) (detail : String) : Prop :=
  ¬ Illegal detail ∧ (detail = fencedError → ∀ job a, Holds db job a → a.id = token →
    a.fence = job.attemptCount → ∃ m, A m ∧ a.expiresAt ≤ m.time)

/-- Every other text. -/
theorem Refuses.of_ne {A : Moment → Prop} {db : Database} {token : Uuid} {detail : String}
    (h : ¬ Illegal detail) (hne : detail ≠ fencedError) : Refuses A db token detail :=
  ⟨h, fun h => absurd h hne⟩

/-- The attempt has expired. -/
theorem Refuses.expired {A : Moment → Prop} {db : Database} {token : Uuid} {a : Attempt}
    {m : Moment} (ha : db.attempts.find? token = some a) (hm : A m) (hexp : a.expiresAt ≤ m.time) :
    Refuses A db token fencedError := by
  refine ⟨by decide, fun _ job b hold hid _ => ⟨m, hm, ?_⟩⟩
  have hrow := hold.attempt_row
  rw [hid, ha, Option.some.injEq] at hrow
  exact hrow ▸ hexp

/-- The attempt is finished or is not the current one. -/
theorem Refuses.fenced {A : Moment → Prop} {db : Database} {token : Uuid} {job : Job} {a : Attempt}
    (hjob : db.jobs.find? a.jobId = some job) (ha : db.attempts.find? token = some a)
    (h : a.finishedAt.isSome = true ∨ a.fence ≠ job.attemptCount) :
    Refuses A db token fencedError := by
  refine ⟨by decide, fun _ job' b hold hid hf => ?_⟩
  have hrow := hold.attempt_row
  rw [hid, ha, Option.some.injEq] at hrow
  subst hrow
  rw [hold.attempt_job, hold.job_row, Option.some.injEq] at hjob
  subst hjob
  rcases h with hfin | hne
  · simp [hold.is_open] at hfin
  · exact absurd hf hne

/-! ## Transitions and ownership -/

section Service

variable {A : Moment → Prop} {db : Database}

theorem sat_transition {job : Job} {s : Status} {Q : Except Error Job → Database → Prop}
    (hs : s ∈ transitions job.status)
    (h : ∀ st : Stamp, Q (.ok (job.enter s st)) { db with
      jobs := db.jobs.put (job.enter s st)
      events := db.events ++ [entered job s st] }) :
    Sat A (transition job s) db Q := by
  rw [transition, if_pos hs]
  refine sat_flush rfl (sat_databaseTime fun m _ => sat_flush rfl (sat_addEvent fun n _ => ?_))
  have := h ⟨m.time, n.start⟩
  simpa [Table.put_put, Job.enter, entered] using this

theorem sat_getJob {jobId : Uuid} {lock : Bool} {Q : Except Error Job → Database → Prop}
    (hmissing : db.jobs.find? jobId = none → Q (.error (.missing "Job not found")) db)
    (hfound : ∀ job, db.jobs.find? jobId = some job → Q (.ok job) db) :
    Sat A (getJob jobId lock) db Q := by
  refine sat_read (fun _ => rfl) fun m _ => ?_
  cases hj : db.jobs.find? jobId with
  | none => exact hmissing hj
  | some job => exact hfound job hj

/-- `owned` returns a finished attempt when asked to, or an open one that is neither
fenced nor expired; it changes nothing. -/
theorem sat_owned {jobId token : Uuid} {workerId : String} {allowFinished : Bool}
    {Q : Except Error (Job × Attempt) → Database → Prop}
    (hmissing : db.jobs.find? jobId = none → Q (.error (.missing "Job not found")) db)
    (hconflict : ∀ d, Refuses A db token d → Q (.error (.conflict d)) db)
    (hfinished : ∀ job a, db.jobs.find? jobId = some job → db.attempts.find? token = some a →
      a.jobId = jobId → a.workerId = workerId → allowFinished = true →
      a.finishedAt.isSome = true → Q (.ok (job, a)) db)
    (hopen : ∀ job a m, A m → db.jobs.find? jobId = some job →
      db.attempts.find? token = some a → a.workerId = workerId → a.jobId = jobId →
      a.finishedAt = none → a.fence = job.attemptCount → m.time < a.expiresAt →
      Q (.ok (job, a)) db) :
    Sat A (owned jobId workerId token allowFinished) db Q := by
  refine (sat_bind _ _ _).mpr (sat_getJob hmissing fun job hjob => ?_)
  refine sat_read (fun _ => rfl) fun m _ => ?_
  cases ha : db.attempts.find? token with
  | none => exact hconflict _ (.of_ne (by decide) (by decide))
  | some a =>
      simp only
      split
      · exact hconflict _ (.of_ne (by decide) (by decide))
      rename_i hown
      obtain ⟨haj, haw⟩ : a.jobId = jobId ∧ a.workerId = workerId := by simpa using hown
      split
      · rename_i hfin
        exact hfinished job a hjob ha haj haw hfin.1 hfin.2
      split
      · exact hconflict _ (.fenced (haj ▸ hjob) ha ‹_›)
      rename_i hfence
      obtain ⟨hnone, hf⟩ : a.finishedAt = none ∧ a.fence = job.attemptCount := by
        simpa using hfence
      refine sat_databaseTime fun n hn => ?_
      split
      · exact hconflict _ (.expired ha hn ‹_›)
      · exact hopen job a n hn hjob ha haw haj hnone hf (not_le.mp ‹_›)

/-- `owned` hands a finished attempt to the finish that asks for it. -/
theorem sat_owned_finished {jobId token : Uuid} {workerId : String} {job : Job} {a : Attempt}
    {Q : Except Error (Job × Attempt) → Database → Prop} (hjob : db.jobs.find? jobId = some job)
    (ha : db.attempts.find? token = some a) (haj : a.jobId = jobId) (haw : a.workerId = workerId)
    (hfin : a.finishedAt.isSome = true) (h : Q (.ok (job, a)) db) :
    Sat A (owned jobId workerId token true) db Q := by
  refine (sat_bind _ _ _).mpr (sat_getJob (by simp [hjob]) fun job' hjob' => ?_)
  rw [hjob, Option.some.injEq] at hjob'
  subst hjob'
  refine sat_read (fun _ => rfl) fun _ _ => ?_
  simp only [ha]
  rw [if_neg (by simp [haj, haw]), if_pos ⟨trivial, hfin⟩]
  exact h

theorem insertOr_ok {ρ κ : Type} [Keyed ρ κ] [DecidableEq κ] {t : Table ρ} (row : ρ)
    (h : t.find? (Keyed.key row) = none) (constraint : String) :
    insertOr t row constraint = .ok (t.add row) := by
  obtain ⟨u, hu⟩ := Table.insert?_isSome h
  rw [insertOr, hu, Table.eq_add_of_insert? hu]

theorem insertOr_error {ρ κ : Type} [Keyed ρ κ] [DecidableEq κ] {t : Table ρ} {row r : ρ}
    (h : t.find? (Keyed.key row) = some r) (constraint : String) :
    insertOr t row constraint = .error (.integrity constraint) := by
  have hnone : t.insert? row = none := by
    refine Option.eq_none_iff_forall_ne_some.mpr fun u hu => ?_
    simp [(Table.insert?_eq_some.mp hu).1] at h
  rw [insertOr, hnone]

/-- A result of a job that has none. -/
theorem apply_addResult {r : Result} (h : db.results.find? r.jobId = none) :
    (Write.addResult r).apply db = .ok { db with results := db.results.add r } := by
  rw [Write.apply, insertOr_ok r h]
  rfl

theorem Attempt.InTime.of_time {a : Attempt} {m : Moment} (hm : A m) (h : m.time < a.expiresAt) :
    a.InTime A :=
  ⟨m.time, ⟨m, hm, rfl⟩, h⟩

theorem sat_start {jobId token : Uuid} {workerId : String} {l : ℚ}
    {Q : Except Error Unit → Database → Prop}
    (hmissing : db.jobs.find? jobId = none → Q (.error (.missing "Job not found")) db)
    (hconflict : ∀ d, Refuses A db token d → Q (.error (.conflict d)) db)
    (hrunning : ∀ job a m, A m → Holds db job a → a.fence = job.attemptCount →
      m.time < a.expiresAt → a.id = token → a.workerId = workerId → job.id = jobId →
      Q (.ok ()) db)
    (hstart : ∀ job a m t s, A m → (Change.start job a t s).guard db →
      (Change.start job a t s).Timed A l → m.time < a.expiresAt → a.id = token →
      a.workerId = workerId → job.id = jobId →
      Q (.ok ()) ((Change.start job a t s).effect db)) :
    Sat A (start jobId workerId token) db Q := by
  refine (sat_bind _ _ _).mpr (sat_owned hmissing hconflict ?_ ?_)
  · intro _ _ _ _ _ _ h
    exact absurd h (by simp)
  intro job a m hm hjob ha haw haj hopen hf ht
  have hid : job.id = jobId := Table.key_of_find? hjob
  have haid : a.id = token := Table.key_of_find? ha
  have hold : Holds db job a := ⟨hid ▸ hjob, haid ▸ ha, haj.trans hid.symm, hopen⟩
  simp only
  split
  · exact hrunning job a m hm hold hf ht haid haw hid
  split
  · exact hconflict _ (.of_ne (by decide) (by decide))
  rename_i hl
  have hl : job.status = .leased := by simpa using hl
  refine sat_databaseTime fun n hn => sat_flush rfl ((sat_bind _ _ _).mpr ?_)
  refine sat_transition (by simp [hl, transitions]) fun st => ?_
  exact hstart job a m n.time st hm ⟨hold, hf, hl⟩ ⟨.of_time hm ht, n, hn, rfl⟩ ht haid haw hid

theorem sat_renew {jobId token : Uuid} {workerId : String} {leaseSeconds : ℚ}
    {Q : Except Error Time → Database → Prop}
    (hmissing : db.jobs.find? jobId = none → Q (.error (.missing "Job not found")) db)
    (hconflict : ∀ d, Refuses A db token d → Q (.error (.conflict d)) db)
    (hrenew : ∀ job a m t, A m → (Change.renew job a t).guard db →
      (Change.renew job a t).Timed A leaseSeconds → m.time < a.expiresAt → a.id = token →
      a.workerId = workerId → job.id = jobId →
      Q (.ok t) ((Change.renew job a t).effect db)) :
    Sat A (renew jobId workerId token leaseSeconds) db Q := by
  refine (sat_bind _ _ _).mpr (sat_owned hmissing hconflict ?_ ?_)
  · intro _ _ _ _ _ _ h
    exact absurd h (by simp)
  intro job a m hm hjob ha haw haj hopen hf ht
  have hid : job.id = jobId := Table.key_of_find? hjob
  have haid : a.id = token := Table.key_of_find? ha
  have hold : Holds db job a := ⟨hid ▸ hjob, haid ▸ ha, haj.trans hid.symm, hopen⟩
  simp only
  split
  · exact hconflict _ (.of_ne (by decide) (by decide))
  rename_i startedAt hs
  refine sat_databaseTime fun n hn => ?_
  split
  · exact hconflict _ (.of_ne (by decide) (by decide))
  · rename_i hlate
    exact sat_flush rfl (hrenew job a m _ hm ⟨hold, hf, by simp [hs]⟩
      ⟨.of_time hm ht, startedAt, n.time, hs, ⟨n, hn, rfl⟩, rfl, not_le.mp hlate⟩ ht haid haw hid)

/-- `fail_attempt` on the open attempt of a held job without a result. -/
theorem sat_failAttempt {job : Job} {a : Attempt} {error : String} {retryable : Bool}
    {outcome : AttemptOutcome} {Q : Except Error Unit → Database → Prop}
    (hheld : job.status.held = true) (hrun : retryable = false → job.status = .running)
    (hres : db.results.find? job.id = none)
    (hretry : retryable = true → job.attemptCount ≤ job.maxRetries → ∀ t t' s, Reads A t →
      (∃ u, job.Jitter u ∧ t' = t + job.backoff job.attemptCount * u) →
      Q (.ok ()) ((Change.retry job a outcome error t t' s).effect db))
    (hfail : (retryable = true → job.maxRetries < job.attemptCount) → ∀ t s, Reads A t →
      Q (.ok ()) ((Change.fail job a outcome error retryable t s).effect db)) :
    Sat A (failAttempt job a error retryable outcome) db Q := by
  refine sat_databaseTime fun m hm => sat_flush rfl ?_
  have hto : ∀ s, s = Status.retryWait ∨ s = .deadLetter → s ∈ transitions job.status := by
    cases hs : job.status <;> simp_all [Status.held, transitions]
  split
  · rename_i hr
    -- the jitter only decides when the job becomes available again
    have hwait : ∀ t', (∃ u, job.Jitter u ∧ t' = m.time + job.backoff job.attemptCount * u) →
        Sat A (do
        flush (.setJob { job with availableAt := t' })
        let _ ← transition { job with availableAt := t' } .retryWait)
        { db with attempts := db.attempts.put (a.close outcome error m.time) } Q := by
      intro t' ht'
      refine sat_flush rfl ((sat_bind _ _ _).mpr ?_)
      refine sat_transition (hto _ (Or.inl rfl)) fun st => ?_
      have := hretry hr.1 hr.2 m.time t' st ⟨m, hm, rfl⟩ ht'
      simpa [Change.effect, Table.put_put, Job.enter, entered] using this
    split
    · rename_i hjitter
      exact sat_read (fun _ => rfl) fun n _ => hwait _
        ⟨n.uniform, ⟨by simp [hjitter], n.uniform_ge, n.uniform_le⟩, rfl⟩
    · exact hwait _ ⟨1, ⟨fun _ => rfl, by norm_num, by norm_num⟩, by rw [mul_one]; rfl⟩
  · rename_i hr
    have hmax : retryable = true → job.maxRetries < job.attemptCount := by
      intro h; simpa [h] using hr
    have hs : (if retryable = true then Status.deadLetter else .failed) ∈
        transitions job.status := by
      cases retryable with
      | true => exact hto _ (Or.inr rfl)
      | false => simp [hrun rfl, transitions]
    refine (sat_bind _ _ _).mpr (sat_transition hs fun st => ?_)
    exact sat_flush (apply_addResult hres) (hfail hmax m.time st ⟨m, hm, rfl⟩)

theorem sat_finish {jobId token : Uuid} {workerId : String} {output : Option Json}
    {error : Option String} {retryable : Bool} {l : ℚ} {Q : Except Error Unit → Database → Prop}
    (hmissing : db.jobs.find? jobId = none → Q (.error (.missing "Job not found")) db)
    (hconflict : ∀ d, Refuses A db token d → Q (.error (.conflict d)) db)
    (hres : ∀ job, db.jobs.find? jobId = some job → job.status.held = true →
      db.results.find? job.id = none)
    (hreplay : ∀ job a, db.jobs.find? jobId = some job → db.attempts.find? token = some a →
      a.jobId = jobId → a.workerId = workerId → a.finishedAt.isSome = true →
      (a.outcome = some .succeeded ∨ a.outcome = some .failed) →
      outputEq a.output output = true → a.error = error → Q (.ok ()) db)
    (hsucceed : error = none → ∀ job a m t s, A m →
      (Change.succeed job a output t s).guard db →
      (Change.succeed job a output t s).Timed A l →
      m.time < a.expiresAt → a.id = token → a.workerId = workerId → job.id = jobId →
      Q (.ok ()) ((Change.succeed job a output t s).effect db))
    (hretry : ∀ e, error = some e → retryable = true → ∀ job a m t t' s, A m →
      (Change.retry job a .failed e t t' s).guard db →
      (Change.retry job a .failed e t t' s).Timed A l →
      m.time < a.expiresAt → a.id = token → a.workerId = workerId → job.id = jobId →
      Q (.ok ()) ((Change.retry job a .failed e t t' s).effect db))
    (hfail : ∀ e, error = some e → ∀ job a m t s, A m →
      (Change.fail job a .failed e retryable t s).guard db →
      (Change.fail job a .failed e retryable t s).Timed A l →
      m.time < a.expiresAt → a.id = token → a.workerId = workerId → job.id = jobId →
      Q (.ok ()) ((Change.fail job a .failed e retryable t s).effect db)) :
    Sat A (finish jobId workerId token output error retryable) db Q := by
  refine (sat_bind _ _ _).mpr (sat_owned hmissing hconflict ?_ ?_)
  · intro job a hjob ha haj haw _ hfin
    simp only [hfin, if_true]
    split
    · rename_i hrep
      exact hreplay job a hjob ha haj haw hfin hrep.1 hrep.2.1 hrep.2.2
    · exact hconflict _ (.of_ne (by decide) (by decide))
  intro job a m hm hjob ha haw haj hopen hf ht
  have hid : job.id = jobId := Table.key_of_find? hjob
  have haid : a.id = token := Table.key_of_find? ha
  have hold : Holds db job a := ⟨hid ▸ hjob, haid ▸ ha, haj.trans hid.symm, hopen⟩
  simp only
  rw [if_neg (by simp [hopen]), if_neg (by simp [hf])]
  refine sat_databaseTime fun n hn => ?_
  split
  · exact hconflict _ (.expired ha hn ‹_›)
  split
  · exact hconflict _ (.of_ne (by decide) (by decide))
  rename_i hr
  have hr : job.status = .running := by simpa using hr
  have hheld : job.status.held = true := by simp [hr, Status.held]
  have hnone := hres job hjob hheld
  cases error with
  | some e =>
      have hfails : a.Fails A .failed := ⟨fun _ => .of_time hm ht, by simp⟩
      refine sat_failAttempt hheld (fun _ => hr) hnone ?_ ?_
      · intro hret hle t t' s hread hdelay
        exact hretry e rfl hret job a m t t' s hm
          ⟨hold, hheld, hle, by simp, fun _ => hr⟩ ⟨hfails, hread, hdelay⟩ ht haid haw hid
      · intro hmax t s hread
        exact hfail e rfl job a m t s hm
          ⟨hold, hheld, hmax, fun _ => rfl, by simp, fun _ => hr, hnone⟩ ⟨hfails, hread⟩
          ht haid haw hid
  | none =>
      refine sat_flush rfl (sat_databaseTime fun n' hn' => sat_flush rfl ?_)
      refine sat_flush (apply_addResult hnone) ((sat_bind _ _ _).mpr ?_)
      refine sat_transition (by simp [hr, transitions]) fun st => ?_
      have := hsucceed rfl job a m n'.time st hm ⟨hold, hf, hr, hnone⟩
        ⟨.of_time hm ht, n', hn', rfl⟩ ht haid haw hid
      simpa [Change.effect, Attempt.deliver, Table.put_put] using this

theorem sat_cancel {jobId : Uuid} {Q : Except Error Unit → Database → Prop}
    (hmissing : db.jobs.find? jobId = none → Q (.error (.missing "Job not found")) db)
    (hconflict : ∀ d, ¬ Illegal d → Q (.error (.conflict d)) db) (hdone : Q (.ok ()) db)
    (hcancel : ∀ job s, job.id = jobId → (Change.cancel job s).guard db →
      Q (.ok ()) ((Change.cancel job s).effect db)) :
    Sat A (cancel jobId) db Q := by
  refine (sat_bind _ _ _).mpr (sat_getJob hmissing fun job hjob => ?_)
  have hid : job.id = jobId := Table.key_of_find? hjob
  simp only
  split
  · exact hdone
  split
  · exact hconflict _ (by decide)
  rename_i hw
  have hw : job.status = .queued ∨ job.status = .retryWait := by
    simpa only [ne_eq, not_and_or, not_not] using hw
  refine (sat_bind _ _ _).mpr (sat_transition ?_ fun st => ?_)
  · rcases hw with hw | hw <;> simp [hw, transitions]
  · refine hcancel job st hid ⟨hid ▸ hjob, ?_⟩
    rcases hw with hw | hw <;> simp [hw, Status.waiting]

/-! ## Claims -/

/-- A fresh open attempt is checked for its primary key only. -/
theorem apply_addAttempt_eq (db : Database) (a : Attempt)
    (hclaim : ∀ b ∈ db.attempts.rows, b.claimId ≠ a.claimId)
    (hslot : ∀ b ∈ db.attempts.rows, b.workerId = a.workerId → b.slot = a.slot →
      b.isOpen = false)
    (hjob : ∀ b ∈ db.attempts.rows, b.jobId = a.jobId → b.isOpen = false) :
    (Write.addAttempt a).apply db =
      insertOr db.attempts a "attempts_pkey" >>= fun attempts => .ok { db with attempts } := by
  rw [Write.apply, if_neg (by simpa using hclaim), if_neg, if_neg]
  · rintro ⟨_, b, hb, ho, hj⟩
    simp [hjob b hb hj] at ho
  · rintro ⟨_, b, hb, ho, hw, hs⟩
    simp [hslot b hb hw hs] at ho

/-- ... which it violates at worst. -/
theorem apply_addAttempt (db : Database) (a : Attempt)
    (hclaim : ∀ b ∈ db.attempts.rows, b.claimId ≠ a.claimId)
    (hslot : ∀ b ∈ db.attempts.rows, b.workerId = a.workerId → b.slot = a.slot →
      b.isOpen = false)
    (hjob : ∀ b ∈ db.attempts.rows, b.jobId = a.jobId → b.isOpen = false) :
    (db.attempts.find? a.id = none ∧
      (Write.addAttempt a).apply db = .ok { db with attempts := db.attempts.add a }) ∨
    (db.attempts.find? a.id ≠ none ∧
      (Write.addAttempt a).apply db = .error (.integrity "attempts_pkey")) := by
  rw [apply_addAttempt_eq db a hclaim hslot hjob]
  cases hf : db.attempts.find? a.id with
  | none =>
      rw [insertOr_ok a hf]
      exact Or.inl ⟨rfl, rfl⟩
  | some b =>
      rw [insertOr_error hf]
      exact Or.inr ⟨by simp, rfl⟩

/-- The insert and the transition of a lease, once its claim id `c` is known. -/
theorem sat_insertLease {w : Worker} {slot : ℤ} {c : Uuid} {job : Job} {m : Moment}
    {leaseSeconds : ℚ} {Q : Except Error (Option (Job × Attempt)) → Database → Prop}
    (hw : db.workers.find? w.id = some w) (hhealthy : w.state = .healthy)
    (hrange : 0 ≤ slot ∧ slot < w.capacity)
    (hslot : ∀ b ∈ db.attempts.rows, b.workerId = w.id → b.slot = slot → b.isOpen = false)
    (hidle : ∀ b ∈ db.attempts.rows, b.jobId = job.id → b.isOpen = false) (hm : A m)
    (hjob : db.jobs.find? job.id = some job) (hready : claimable db w m.time job = true)
    (hpk : ∀ d, Q (.error (.integrity "attempts_pkey")) d)
    (hck : (∃ b ∈ db.attempts.rows, b.claimId = c) →
      ∀ d, Q (.error (.integrity "attempts_claim_id_key")) d)
    (hlease : ∀ a t s, (Change.lease w job a t s).guard db →
      (Change.lease w job a t s).Timed A leaseSeconds → a.slot = slot → a.claimId = c →
      Q (.ok (some (job.leased s, a))) ((Change.lease w job a t s).effect db)) :
    Sat A (do
      let id ← Prog.issue .uuid4
      let now ← Prog.issue .now
      let attempt : Attempt := {
        id, jobId := job.id, workerId := w.id, slot, claimId := c, fence := job.attemptCount + 1
        createdAt := now, expiresAt := m.time + leaseSeconds }
      flush (.addAttempt attempt)
      let job ← transition { job with attemptCount := job.attemptCount + 1 } .leased
      pure (some (job, attempt)))
      { db with jobs := db.jobs.put { job with attemptCount := job.attemptCount + 1 } } Q := by
  have hwait := (claimable_iff.mp hready).1
  refine sat_read (fun _ => rfl) fun u _ => sat_read (fun _ => rfl) fun v hv => ?_
  by_cases hused : ∃ b ∈ db.attempts.rows, b.claimId = c
  · exact sat_flush_error (if_pos hused) (hck hused _)
  have hfree : ∀ b ∈ db.attempts.rows, b.claimId ≠ c := fun b hb h => hused ⟨b, hb, h⟩
  rcases apply_addAttempt
      { db with jobs := db.jobs.put { job with attemptCount := job.attemptCount + 1 } }
      { id := u.uuid, jobId := job.id, workerId := w.id, slot, claimId := c
        fence := job.attemptCount + 1, createdAt := v.start
        expiresAt := m.time + leaseSeconds }
      hfree hslot hidle with ⟨hfresh, happly⟩ | ⟨-, herr⟩
  · refine sat_flush happly ((sat_bind _ _ _).mpr (sat_transition ?_ fun st => ?_))
    · exact Status.leased_mem hwait
    · have := hlease
        { id := u.uuid, jobId := job.id, workerId := w.id, slot, claimId := c
          fence := job.attemptCount + 1, createdAt := v.start
          expiresAt := m.time + leaseSeconds } m.time st
        { worker_row := hw, healthy := hhealthy, slot_range := hrange, job_row := hjob
          ready := hready, fresh := hfresh, claim_fresh := hfree, slot_free := hslot
          attempt_job := rfl, attempt_worker := rfl, fence := rfl
          is_new := ⟨rfl, rfl, rfl, rfl, rfl⟩ } ⟨⟨m, hm, rfl⟩, rfl, v, hv, rfl⟩ rfl rfl
      simpa [Change.effect, Job.leased, Job.enter, entered, Table.put_put] using this
  · exact sat_flush_error herr (hpk _)

theorem sat_lease {w : Worker} {slot : ℤ} {claimId : Option Uuid} {policy : Policy}
    {leaseSeconds : ℚ} {Q : Except Error (Option (Job × Attempt)) → Database → Prop}
    (hw : db.workers.find? w.id = some w) (hhealthy : w.state = .healthy)
    (hrange : 0 ≤ slot ∧ slot < w.capacity)
    (hclaim : ∀ c, claimId = some c → ∀ b ∈ db.attempts.rows, b.claimId ≠ c)
    (hslot : ∀ b ∈ db.attempts.rows, b.workerId = w.id → b.slot = slot → b.isOpen = false)
    (hidle : ∀ job, db.jobs.find? job.id = some job → job.status.waiting = true →
      ∀ b ∈ db.attempts.rows, b.jobId = job.id → b.isOpen = false)
    (hnone : Q (.ok none) db) (hpk : ∀ d, Q (.error (.integrity "attempts_pkey")) d)
    (hck : claimId = none → ∀ d, Q (.error (.integrity "attempts_claim_id_key")) d)
    (hlease : ∀ job a t s, (Change.lease w job a t s).guard db →
      (Change.lease w job a t s).Timed A leaseSeconds → a.slot = slot →
      (∀ c, claimId = some c → a.claimId = c) →
      Q (.ok (some (job.leased s, a))) ((Change.lease w job a t s).effect db)) :
    Sat A (lease w slot claimId policy leaseSeconds) db Q := by
  refine sat_databaseTime fun m hm => sat_read (fun _ => rfl) fun n _ => ?_
  cases hq : (policy.query w m.time db).find? fun j => !n.locked j.id with
  | none => exact hnone
  | some job =>
      obtain ⟨hmem, hready⟩ := mem_query.mp (List.mem_of_find?_eq_some hq)
      have hjob : db.jobs.find? job.id = some job := Table.find?_of_mem hmem
      have hidle' := hidle job hjob (claimable_iff.mp hready).1
      cases claimId with
      | some c =>
          refine sat_flush rfl (sat_insertLease hw hhealthy hrange hslot hidle' hm hjob hready hpk
            ?_ fun a t s hg ht has hac => hlease job a t s hg ht has fun c' hc => ?_)
          · rintro ⟨b, hb, hbc⟩
            exact absurd hbc (hclaim c rfl b hb)
          · exact hac.trans (Option.some.inj hc)
      | none =>
          refine sat_flush rfl (sat_read (fun _ => rfl) fun u _ => ?_)
          exact sat_insertLease hw hhealthy hrange hslot hidle' hm hjob hready hpk
            (fun _ => hck rfl) fun a t s hg ht has _ => hlease job a t s hg ht has (by simp)

/-- `claim`: refused, a replay of an open attempt made by this very claim id, the attempt
of the slot if there is no claim id, nothing to do, or a new lease. -/
theorem sat_claim {workerId : String} {slot : ℤ} {claimId : Option Uuid} {policy : Policy}
    {leaseSeconds : ℚ} {Q : Except Error (Option (Job × Attempt)) → Database → Prop}
    (hidle : ∀ job, db.jobs.find? job.id = some job → job.status.waiting = true →
      ∀ b ∈ db.attempts.rows, b.jobId = job.id → b.isOpen = false)
    (hrefused : ∀ e : Error, e.Refusal → Q (.error e) db)
    (hpk : ∀ d, Q (.error (.integrity "attempts_pkey")) d)
    (hck : claimId = none → ∀ d, Q (.error (.integrity "attempts_claim_id_key")) d)
    (hreplay : ∀ w job a, db.workers.find? workerId = some w → 0 ≤ slot ∧ slot < w.capacity →
      db.jobs.find? a.jobId = some job → a ∈ db.attempts.rows →
      (∀ c, claimId = some c → a.claimId = c) → a.workerId = workerId → a.slot = slot →
      a.finishedAt = none → Q (.ok (some (job, a))) db)
    (hnone : Q (.ok none) db)
    (hlease : ∀ w job a t s, w.id = workerId → (Change.lease w job a t s).guard db →
      (Change.lease w job a t s).Timed A leaseSeconds → a.slot = slot →
      (∀ c, claimId = some c → a.claimId = c) →
      Q (.ok (some (job.leased s, a))) ((Change.lease w job a t s).effect db)) :
    Sat A (claim workerId slot claimId policy leaseSeconds) db Q := by
  refine sat_read (fun _ => rfl) fun _ _ => ?_
  cases hw : db.workers.find? workerId with
  | none => exact hrefused _ trivial
  | some w =>
      have hid : w.id = workerId := Table.key_of_find? hw
      simp only
      split
      · exact hrefused _ trivial
      rename_i hrange
      have hrange : 0 ≤ slot ∧ slot < w.capacity := by omega
      -- a slot without an open attempt leases, if the claim id is free
      have hlease' : (∀ c, claimId = some c → ∀ b ∈ db.attempts.rows, b.claimId ≠ c) →
          (db.attempts.rows.find? fun a => decide (a.workerId = workerId) &&
            decide (a.slot = slot) && a.isOpen) = none →
          Sat A (if w.state ≠ .healthy then pure none
            else lease w slot claimId policy leaseSeconds) db Q := by
        intro hfresh ho
        have hslot : ∀ b ∈ db.attempts.rows, b.workerId = w.id → b.slot = slot →
            b.isOpen = false := by
          intro b hb hbw hbs
          simpa [hbw, hid, hbs] using List.find?_eq_none.mp ho b hb
        split
        · exact hnone
        rename_i hh
        exact sat_lease (hid ▸ hw) (by simpa using hh) hrange hfresh hslot hidle hnone hpk hck
          fun job a t s => hlease w job a t s hid
      cases claimId with
      | none =>
          refine sat_read (fun _ => rfl) fun _ _ => ?_
          cases ho : db.attempts.rows.find? fun a =>
              decide (a.workerId = workerId) && decide (a.slot = slot) && a.isOpen with
          | none => exact hlease' (by simp) ho
          | some a =>
              obtain ⟨⟨haw, has⟩, hopen⟩ : (a.workerId = workerId ∧ a.slot = slot) ∧
                  a.finishedAt = none := by simpa [Attempt.isOpen] using List.find?_some ho
              simp only [Option.isSome_none, Bool.false_eq_true, false_and, if_false]
              refine (sat_bind _ _ _).mpr
                (sat_getJob (fun _ => hrefused _ trivial) fun job hjob => ?_)
              exact hreplay w job a hw hrange hjob (List.mem_of_find?_eq_some ho) (by simp) haw has
                hopen
      | some c =>
          refine sat_read (fun _ => rfl) fun _ _ => ?_
          cases hc : db.attempts.rows.find? fun a => decide (a.claimId = c) with
          | some a =>
              have hac : a.claimId = c := by simpa using List.find?_some hc
              simp only
              split
              · exact hrefused _ (by decide : ¬ Illegal _)
              rename_i hown
              obtain ⟨haw, has⟩ : a.workerId = workerId ∧ a.slot = slot := by simpa using hown
              split
              · exact hrefused _ (by decide : ¬ Illegal _)
              refine (sat_bind _ _ _).mpr
                (sat_getJob (fun _ => hrefused _ trivial) fun job hjob => ?_)
              exact hreplay w job a hw hrange hjob (List.mem_of_find?_eq_some hc)
                (fun _ h => hac.trans (Option.some.inj h)) haw has
                (by simpa using ‹¬ a.finishedAt.isSome = true›)
          | none =>
              have hfresh : ∀ b ∈ db.attempts.rows, b.claimId ≠ c := by
                simpa using List.find?_eq_none.mp hc
              refine sat_read (fun _ => rfl) fun _ _ => ?_
              cases ho : db.attempts.rows.find? fun a =>
                  decide (a.workerId = workerId) && decide (a.slot = slot) && a.isOpen with
              | some a =>
                  -- an occupied slot always belongs to another claim id
                  have hne : c ≠ a.claimId := (hfresh a (List.mem_of_find?_eq_some ho)).symm
                  simp only
                  rw [if_pos ⟨rfl, by simpa using hne⟩]
                  exact hrefused _ (by decide : ¬ Illegal _)
              | none => exact hlease' (fun _ h => Option.some.inj h ▸ hfresh) ho

/-! ## Admission -/

theorem validate_error {task : String} {args : List (Text × Json)} {e : Error}
    (h : validate task args = .error e) : e.Refusal := by
  unfold validate ArgModel.validate at h
  split at h
  · cases h; trivial
  · simp only at h
    split at h
    · cases h; trivial
    · split at h
      · cases h
      · cases h; trivial

/-- A definition fails only where its schedule leaves the calendar. -/
theorem definition_error {body : Submit} {args : Json} {e : Error}
    (h : definition body args = .error e) : e = .overflow := by
  cases hs : body.scheduledAt with
  | none => simp [definition, hs, bind, Except.bind, pure, Except.pure] at h
  | some d =>
      cases hu : d.astimezoneUtc <;>
        simp [definition, hs, hu, bind, Except.bind, pure, Except.pure] at h
      exact h.symm

theorem sat_checkParent {dependsOn : Option Uuid} {Q : Except Error Unit → Database → Prop}
    (hrefused : ∀ e : Error, e.Refusal → Q (.error e) db)
    (hok : (∀ p, dependsOn = some p → ∃ parent, db.jobs.find? p = some parent ∧
      (parent.status ∈ terminal → parent.status = .succeeded)) → Q (.ok ()) db) :
    Sat A (checkParent dependsOn) db Q := by
  cases dependsOn with
  | none => exact hok fun _ h => by simp at h
  | some p =>
      refine sat_read (fun _ => rfl) fun _ _ => ?_
      cases hp : db.jobs.find? p with
      | none => exact hrefused _ trivial
      | some parent =>
          simp only
          split
          · exact hrefused _ (by decide : ¬ Illegal _)
          · rename_i hnot
            refine hok fun q hq => ?_
            cases hq
            refine ⟨parent, hp, fun ht => ?_⟩
            by_contra hne
            exact hnot ⟨ht, hne⟩

theorem unused_key {key : Option String}
    (hkey : ∀ k, key = some k → ∀ j ∈ db.jobs.rows, j.idempotencyKey ≠ some k) :
    ¬ (key.isSome = true ∧ ∃ j ∈ db.jobs.rows, j.idempotencyKey = key) := by
  rintro ⟨hsome, j, hj, heq⟩
  obtain ⟨k, hk⟩ := Option.isSome_iff_exists.mp hsome
  exact hkey k hk j hj (heq.trans hk)

/-- A new job whose key no job has. -/
theorem apply_addJob {job : Job} (hfresh : db.jobs.find? job.id = none)
    (hkey : ∀ k, job.idempotencyKey = some k → ∀ j ∈ db.jobs.rows, j.idempotencyKey ≠ some k) :
    (Write.addJob job).apply db = .ok { db with jobs := db.jobs.add job } := by
  rw [Write.apply, if_neg (unused_key hkey), insertOr_ok job hfresh]
  rfl

/-- `create` refuses, collides on a primary key, or admits the job. -/
theorem sat_create {body : Submit} {args : Json} {hash : String}
    {queueLimit submissionsPerMinute : ℕ} {Q : Except Error (Job × Bool) → Database → Prop}
    (hkey : ∀ k, body.idempotencyKey = some k → ∀ j ∈ db.jobs.rows, j.idempotencyKey ≠ some k)
    (hrefused : ∀ e : Error, e.Refusal → Q (.error e) db)
    (hpk : ∀ m, A m → db.jobs.find? m.uuid ≠ none → ∀ d, Q (.error (.integrity "jobs_pkey")) d)
    (hnew : ∀ id timestamp t t',
      (Change.admitted (newJob id body args hash timestamp) queueLimit submissionsPerMinute
        t t').guard db → Reads A timestamp →
      Q (.ok (newJob id body args hash timestamp, true))
        ((Change.admitted (newJob id body args hash timestamp) queueLimit submissionsPerMinute
          t t').effect db)) :
    Sat A (create body args hash queueLimit submissionsPerMinute) db Q := by
  refine sat_databaseTime fun m hm => sat_read (fun _ => rfl) fun _ _ =>
    sat_read (fun _ => rfl) fun _ _ => ?_
  simp only
  split
  · exact hrefused _ trivial
  rename_i hlimits
  refine (sat_bind _ _ _).mpr (sat_checkParent hrefused fun hparent => ?_)
  refine sat_read (fun _ => rfl) fun u hu => ?_
  cases hid : db.jobs.find? u.uuid with
  | none =>
      have happly : (Write.addJob (newJob u.uuid body args hash m.time)).apply db = _ :=
        apply_addJob hid hkey
      refine sat_flush happly (sat_addEvent fun n _ => sat_addEvent fun n' _ => ?_)
      have := hnew u.uuid m.time n.start n'.start
        { fresh := hid, key_fresh := hkey, parent := hparent
          queue_bound := not_le.mp fun h => hlimits (Or.inl h)
          rate_bound := not_le.mp fun h => hlimits (Or.inr h)
          queued := rfl, no_attempts := rfl } ⟨m, hm, rfl⟩
      simpa [Change.effect, newJob] using this
  | some j =>
      refine sat_flush_error (e := .integrity "jobs_pkey") ?_ (hpk u hu (by simp [hid]) _)
      have hnone : db.jobs.insert? (newJob u.uuid body args hash m.time) = none := by
        refine Option.eq_none_iff_forall_ne_some.mpr fun v hv => ?_
        have : db.jobs.find? u.uuid = none := (Table.insert?_eq_some.mp hv).1
        rw [hid] at this
        simp at this
      have hunused : ¬ ((newJob u.uuid body args hash m.time).idempotencyKey.isSome = true ∧
          ∃ j ∈ db.jobs.rows, j.idempotencyKey =
            (newJob u.uuid body args hash m.time).idempotencyKey) := unused_key hkey
      rw [Write.apply, if_neg hunused, insertOr, hnone]
      rfl

/-- `admit` rejects the body, answers for the job that has its key, or creates a job. -/
theorem sat_admitJob [Sha256] {body : Submit} {queueLimit submissionsPerMinute : ℕ}
    {Q : Except Error (Job × Bool) → Database → Prop}
    (hinvalid : ∀ e, validate body.task body.args = .error e → Q (.error e) db)
    (hoverflow : ∀ args e, validate body.task body.args = .ok args →
      definition body args = .error e → Q (.error e) db)
    (hexisting : ∀ args d k j, validate body.task body.args = .ok args →
      definition body args = .ok d → body.idempotencyKey = some k → j ∈ db.jobs.rows →
      j.idempotencyKey = some k →
      if j.requestHash = some (digest d) then Q (.ok (j, false)) db
      else Q (.error (.conflict "Idempotency key already used for a different definition")) db)
    (hcreate : ∀ args d, validate body.task body.args = .ok args →
      definition body args = .ok d →
      (∀ k, body.idempotencyKey = some k → ∀ j ∈ db.jobs.rows, j.idempotencyKey ≠ some k) →
      Sat A (create body args (digest d) queueLimit submissionsPerMinute) db Q) :
    Sat A (admitJob body queueLimit submissionsPerMinute) db Q := by
  unfold admitJob
  cases hv : validate body.task body.args with
  | error e => exact hinvalid e hv
  | ok args =>
      cases hd : definition body args with
      | error e => simp only [hd]; exact hoverflow args e hv hd
      | ok d =>
          simp only [hd]
          refine sat_read (fun _ => rfl) fun _ _ => ?_
          cases hk : body.idempotencyKey with
          | none => exact hcreate args d hv hd fun k h => by simp [hk] at h
          | some k =>
              refine sat_read (fun _ => rfl) fun _ _ => ?_
              cases hj : db.jobs.rows.find? fun j => decide (j.idempotencyKey = some k) with
              | none =>
                  refine hcreate args d hv hd fun k' h j hjm => ?_
                  rw [hk, Option.some.injEq] at h
                  subst h
                  simpa using List.find?_eq_none.mp hj j hjm
              | some j =>
                  have := hexisting args d k j hv hd hk (List.mem_of_find?_eq_some hj)
                    (by simpa using List.find?_some hj)
                  simp only
                  split at this
                  · rw [if_neg (not_not_intro ‹_›)]; exact this
                  · rw [if_pos ‹_›]; exact this

/-! ## Maintenance -/

/-- The body of recovery's first loop, on the current row of a held job: it leaves the job
alone only if its open attempt has not expired at some moment. -/
theorem sat_expire {job : Job} {l : ℚ} {Q : Except Error Unit → Database → Prop} (hinv : Inv db)
    (hjob : db.jobs.find? job.id = some job) (hheld : job.status.held = true)
    (hskip : (∀ a, Holds db job a → ∃ m, A m ∧ m.time < a.expiresAt) → Q (.ok ()) db)
    (hretry : ∀ a m t t' s e, A m → a.expiresAt ≤ m.time →
      (Change.retry job a .leaseExpired leaseExpiredError t t' s).guard db →
      (Change.retry job a .leaseExpired leaseExpiredError t t' s).Timed A l →
      Q (.ok ()) ((Change.log e).effect
        ((Change.retry job a .leaseExpired leaseExpiredError t t' s).effect db)))
    (hfail : ∀ a m t s e, A m → a.expiresAt ≤ m.time →
      (Change.fail job a .leaseExpired leaseExpiredError true t s).guard db →
      (Change.fail job a .leaseExpired leaseExpiredError true t s).Timed A l →
      Q (.ok ()) ((Change.log e).effect
        ((Change.fail job a .leaseExpired leaseExpiredError true t s).effect db))) :
    Sat A (expire job) db Q := by
  refine sat_read (fun _ => rfl) fun _ _ => ?_
  cases ha : db.attempts.rows.find? fun a => decide (a.jobId = job.id) && a.isOpen with
  | none =>
      refine hskip fun b hold => ?_
      have hnone := List.find?_eq_none.mp ha b (Table.mem_of_find? hold.attempt_row)
      simp [hold.attempt_job, Attempt.isOpen, hold.is_open] at hnone
  | some a =>
      obtain ⟨haj, hopen⟩ : a.jobId = job.id ∧ a.finishedAt = none := by
        simpa [Attempt.isOpen] using List.find?_some ha
      have hold : Holds db job a :=
        ⟨hjob, Table.find?_of_mem (List.mem_of_find?_eq_some ha), haj, hopen⟩
      have hres := ((hinv.job job hjob).of_held hheld).1
      refine sat_databaseTime fun m hm => ?_
      split
      · rename_i hexp
        have hfails : a.Fails A .leaseExpired := ⟨by simp, fun _ => ⟨m.time, ⟨m, hm, rfl⟩, hexp⟩⟩
        refine (sat_bind _ _ _).mpr (sat_failAttempt hheld (by simp) hres ?_ ?_)
        · intro _ hle t t' s hread hdelay
          exact sat_addSystemEvent fun e => hretry a m t t' s e hm hexp
            ⟨hold, hheld, hle, by simp, by simp⟩ ⟨hfails, hread, hdelay⟩
        · intro hmax t s hread
          exact sat_addSystemEvent fun e => hfail a m t s e hm hexp
            ⟨hold, hheld, hmax, by simp, by simp, by simp, hres⟩ ⟨hfails, hread⟩
      · rename_i hlate
        refine hskip fun b hold' => ⟨m, hm, ?_⟩
        -- a job has one open attempt
        obtain ⟨hi, hmem, hfence, -⟩ := hinv.holds hold
        obtain ⟨-, hmem', hfence', -⟩ := hinv.holds hold'
        rw [hi.eq_of_fence hmem' hmem (hfence'.trans hfence.symm)]
        exact not_le.mp hlate

theorem mem_take {m : Moment} {limit : ℕ} {rows : List Job} {job : Job}
    (h : job ∈ m.take limit rows) : job ∈ rows :=
  (List.mem_insertionSort _).mp (List.mem_of_mem_filter (List.mem_of_mem_take h))

theorem nodup_take {m : Moment} {limit : ℕ} {rows : List Job}
    (h : (rows.map Job.id).Nodup) : ((m.take limit rows).map Job.id).Nodup := by
  have hsort := ((List.perm_insertionSort (fun a b => m.rank a.id ≤ m.rank b.id) rows).map
    Job.id).nodup_iff.mpr h
  have hsub : (m.take limit rows).Sublist
      (rows.insertionSort fun a b => m.rank a.id ≤ m.rank b.id) :=
    (List.take_sublist _ _).trans List.filter_sublist
  exact (hsub.map Job.id).nodup hsort

/-- The jobs of a locking query are current rows, each once. -/
theorem current_rows {p : Job → Bool} {m : Moment} {limit : ℕ} {job : Job}
    (h : job ∈ m.take limit (db.jobs.rows.filter p)) :
    db.jobs.find? job.id = some job ∧ p job = true := by
  obtain ⟨hrow, hp⟩ := List.mem_filter.mp (mem_take h)
  exact ⟨Table.find?_of_mem hrow, hp⟩

theorem nodup_rows {p : Job → Bool} {m : Moment} {limit : ℕ} :
    ((m.take limit (db.jobs.rows.filter p)).map Job.id).Nodup :=
  nodup_take ((List.filter_sublist.map Job.id).nodup db.jobs.nodup)

/-- The workers that a tick selects: the silent ones that are not locked. -/
theorem mem_selected {deadline : Time} {m : Moment} {w : Worker} :
    w ∈ ((db.workers.rows.filter (silent deadline)).insertionSort
        fun a b => m.workerRank a.id ≤ m.workerRank b.id).filter (fun w => !m.workerLocked w.id) ↔
      db.workers.find? w.id = some w ∧ silent deadline w = true ∧ m.workerLocked w.id = false := by
  rw [List.mem_filter, List.mem_insertionSort, List.mem_filter, Bool.not_eq_true', and_assoc]
  exact and_congr_left fun _ => ⟨Table.find?_of_mem, Table.mem_of_find?⟩

/-- No worker is selected twice. -/
theorem nodup_selected {deadline : Time} {m : Moment} :
    ((((db.workers.rows.filter (silent deadline)).insertionSort
      fun a b => m.workerRank a.id ≤ m.workerRank b.id).filter
        fun w => !m.workerLocked w.id).map Worker.id).Nodup := by
  have hsort := ((List.perm_insertionSort (fun a b => m.workerRank a.id ≤ m.workerRank b.id)
    (db.workers.rows.filter (silent deadline))).map Worker.id).nodup_iff.mpr
      ((List.filter_sublist.map Worker.id).nodup db.workers.nodup)
  exact (List.filter_sublist.map Worker.id).nodup hsort

/-- One pass of the loop of `detect_workers` marks the worker or leaves it alone. -/
theorem sat_detect {w : Worker} {timestamp : Time} {deadAfter : ℚ}
    {Q : Except Error Unit → Database → Prop} (hw : db.workers.find? w.id = some w)
    (halive : w.state ≠ .dead) (hskip : Q (.ok ()) db)
    (hmark : ∀ state e, (Change.mark w state).guard db →
      Q (.ok ()) ((Change.log e).effect ((Change.mark w state).effect db))) :
    Sat A (detect timestamp deadAfter w) db Q := by
  have hset : ∀ state kind, (state = .dead ∨ (state = .suspect ∧ w.state ≠ .draining)) →
      Sat A (if w.state ≠ state then do
        flush (.setWorker { w with state })
        addSystemEvent kind (some w.id)
      else pure ()) db Q := by
    intro state kind hstate
    split
    · exact sat_flush rfl (sat_addSystemEvent fun e => hmark _ e ⟨hw, halive, hstate⟩)
    · exact hskip
  by_cases hd : deadAfter ≤ timestamp - w.lastSeen
  · simp only [detect, hd, decide_true, if_true, reduceCtorEq, and_false, if_false]
    exact hset .dead .workerDead (Or.inl rfl)
  · simp only [detect, hd, decide_false, Bool.false_eq_true, if_false, and_true]
    split
    · exact hskip
    · exact hset .suspect .workerSuspect (Or.inr ⟨rfl, ‹_›⟩)

/-! ## Routes -/

variable [Sha256]

/-- The session of a worker: the credential it accepts. -/
def Accepts (db : Database) (workerId : String) (credential : Option String) : Prop :=
  ∃ w, db.workers.find? workerId = some w ∧
    w.sessionHash = some (Sha256.hexdigest (credential.getD ""))

theorem sat_identity {workerId : String} {credential : Option String}
    {Q : Except Error Worker → Database → Prop}
    (hbad : Q (.error (.unauthorized "Invalid worker session")) db)
    (hok : ∀ w, db.workers.find? workerId = some w → Accepts db workerId credential →
      Q (.ok w) db) :
    Sat A (identity workerId credential) db Q := by
  refine sat_read (fun _ => rfl) fun _ _ => ?_
  cases hw : db.workers.find? workerId with
  | none => exact hbad
  | some w =>
      simp only
      split
      · exact hbad
      · rename_i h
        push Not at h
        exact hok w hw ⟨w, hw, h.2⟩

omit [Sha256] in
theorem sat_drain {workerId : String} {Q : Except Error WorkerState → Database → Prop}
    (hrefused : ∀ e : Error, e.Refusal → Q (.error e) db)
    (hdrain : ∀ w, w.id = workerId → (Change.drain w).guard db →
      Q (.ok .draining) ((Change.drain w).effect db) ∧
      ∀ e, Q (.ok .draining) ((Change.log e).effect ((Change.drain w).effect db))) :
    Sat A (drain workerId) db Q := by
  refine sat_read (fun _ => rfl) fun _ _ => ?_
  cases hw : db.workers.find? workerId with
  | none => exact hrefused _ trivial
  | some w =>
      have hid : w.id = workerId := Table.key_of_find? hw
      simp only
      split
      · exact hrefused _ (by decide : ¬ Illegal _)
      rename_i hdead
      obtain ⟨hplain, hlog⟩ := hdrain w hid ⟨hid ▸ hw, hdead⟩
      split
      · exact sat_flush rfl (sat_addSystemEvent hlog)
      · rename_i hs
        have hs : w.state = .draining := by simpa using hs
        refine sat_flush rfl ?_
        have : ({ w with drainRequested := true } : Worker) =
            { w with state := .draining, drainRequested := true } := by rw [← hs]
        rw [this, hs]
        exact hplain

/-- `register` inserts, acknowledges, revives, refuses, or takes over. -/
theorem sat_register {body : Registration} {Q : Except Error Unit → Database → Prop}
    (hrefused : ∀ w, db.workers.find? body.workerId = some w → w.state ≠ .dead →
      Q (.error (.conflict "Worker ID is already owned; use a new ID")) db)
    (henroll : ∀ now e, (Change.enroll (body.worker now)).guard db →
      Q (.ok ()) ((Change.log e).effect ((Change.enroll (body.worker now)).effect db)))
    (hknown : ∀ w, db.workers.find? body.workerId = some w →
      w.sessionHash.getD "" = Sha256.hexdigest body.sessionToken → w.state ≠ .dead →
      Q (.ok ()) db)
    (hrevive : ∀ w t e, w.id = body.workerId → (Change.seen w t).guard db →
      w.sessionHash.getD "" = Sha256.hexdigest body.sessionToken → w.state = .dead →
      Q (.ok ()) ((Change.log e).effect ((Change.seen w t).effect db)))
    (htake : ∀ w t e, w.id = body.workerId →
      (Change.takeover w body (Sha256.hexdigest body.sessionToken) t).guard db →
      Q (.ok ()) ((Change.log e).effect
        ((Change.takeover w body (Sha256.hexdigest body.sessionToken) t).effect db))) :
    Sat A (register body) db Q := by
  refine sat_read (fun _ => rfl) fun m _ => ?_
  cases hw : db.workers.find? body.workerId with
  | none =>
      have hins : db.workers.insert? (body.worker m.start) =
          some (db.workers.add (body.worker m.start)) := by
        obtain ⟨u, hu⟩ := Table.insert?_isSome (r := body.worker m.start) hw
        rw [hu, Table.eq_add_of_insert? hu]
      refine Prog.Sat.stmt_ok (f := fun _ => true)
        (g := fun _ => { db with workers := db.workers.add (body.worker m.start) })
        (fun n _ => ?_) fun n _ => sat_read (fun _ => rfl) fun _ _ => ?_
      · change Sql.eval (.insertWorker (body.worker m.start)) n db = _
        simp only [Sql.eval, hins]
      · have hfind : (db.workers.add (body.worker m.start)).find? body.workerId =
            some (body.worker m.start) := Table.find?_add_self (r := body.worker m.start) hw
        simp only [hfind]
        exact sat_addSystemEvent fun e => henroll m.start e ⟨hw, rfl, rfl⟩
  | some w =>
      have hid : w.id = body.workerId := Table.key_of_find? hw
      have hrow : db.workers.find? w.id = some w := hid ▸ hw
      have hins : db.workers.insert? (body.worker m.start) = none := by
        refine Option.eq_none_iff_forall_ne_some.mpr fun u hu => ?_
        have : db.workers.find? body.workerId = none := (Table.insert?_eq_some.mp hu).1
        rw [hw] at this
        simp at this
      refine Prog.Sat.stmt_ok (f := fun _ => false) (g := fun _ => db) (fun n _ => ?_)
        fun n _ => sat_read (fun _ => rfl) fun _ _ => ?_
      · change Sql.eval (.insertWorker (body.worker m.start)) n db = _
        simp only [Sql.eval, hins]
      · simp only [hw, Bool.false_eq_true, if_false]
        split
        · rename_i hsame
          split
          · rename_i hdead
            refine sat_databaseTime fun n _ => sat_flush rfl (sat_addSystemEvent fun e => ?_)
            exact hrevive w n.time e hid hrow hsame hdead
          · rename_i hdead
            exact hknown w hw hsame hdead
        · rename_i hother
          split
          · rename_i hdead
            exact hrefused w hw hdead
          · rename_i hdead
            refine sat_databaseTime fun n _ => sat_flush rfl (sat_addSystemEvent fun e => ?_)
            exact htake w n.time e hid ⟨hrow, by simpa using hdead, hother⟩

theorem sat_heartbeat {workerId : String} {credential : Option String}
    {Q : Except Error WorkerState → Database → Prop}
    (hbad : Q (.error (.unauthorized "Invalid worker session")) db)
    (hseen : ∀ w t, w.id = workerId → Accepts db workerId credential →
      (Change.seen w t).guard db → Q (.ok w.returning) ((Change.seen w t).effect db) ∧
      ∀ e, Q (.ok w.returning) ((Change.seen w t).effect ((Change.log e).effect db))) :
    Sat A (heartbeat workerId credential) db Q := by
  refine (sat_bind _ _ _).mpr (sat_identity hbad fun w hw hacc => ?_)
  have hid : w.id = workerId := Table.key_of_find? hw
  have hrow : db.workers.find? w.id = some w := hid ▸ hw
  refine sat_databaseTime fun n _ => ?_
  obtain ⟨hplain, hlog⟩ := hseen w n.time hid hacc hrow
  split
  · exact sat_addSystemEvent fun e => sat_flush rfl (hlog e)
  · exact sat_flush rfl hplain

end Service
end GreyQueue
