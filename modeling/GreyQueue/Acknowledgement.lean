import GreyQueue.Outcome
import GreyQueue.Replay

/-!
# Acknowledged completions

The first finish of an attempt that commits is recorded: its output and its error in the
row of the attempt, its retry flag only in the state that its job enters.  Every later
finish is compared with what the two columns return, so it is acknowledged whenever these
are equal under `==`: with another retry flag, and with `true` or `1.0` where `1` was
recorded.  A float that JSONB returns as another number is not even equal to itself.

## Main definitions

* `OnRecord` — the completion that closed an attempt in a run.
* `Completion.Repeats` — the same payload.
* `Completion.Mimics` — another payload that the comparison does not tell apart.

## Main results

* `onRecord_row` — the columns of a recorded completion.
* `acknowledged_once` — a run acknowledges what it has recorded, as long as no mimic is sent.
-/

namespace GreyQueue

open Lib
open Lib.Prog (Sat sat_bind)

/-! ## Payloads -/

/-- Optional outputs that are the same JSON value. -/
def sameOutput : Option Json → Option Json → Bool
  | none, none => true
  | some v, some w => v.same w
  | _, _ => false

theorem sameOutput_refl (o : Option Json) : sameOutput o o = true := by
  cases o <;> simp [sameOutput]

/-- An output that JSONB returns as it was given is equal to every text of its value. -/
theorem outputEq_of_same {o p : Option Json} (hkept : ∀ v ∈ o, v.jsonb = v)
    (h : sameOutput o p = true) : outputEq o p = true := by
  cases o <;> cases p <;> simp_all [sameOutput, outputEq, Json.pyEq_of_same]

/-- The payload is identical to that of another completion. -/
structure Completion.Repeats (body first : Completion) : Prop where
  output : sameOutput first.json body.json = true
  error : first.error = body.error
  retryable : first.retryable = body.retryable

theorem Completion.Repeats.refl (body : Completion) : body.Repeats body :=
  ⟨sameOutput_refl _, rfl, rfl⟩

/-- The error is the same and the output is equal under `==` to what JSONB returns, but the retry
flag differs, or the output holds another scalar. -/
def Completion.Mimics (body first : Completion) : Prop :=
  first.error = body.error ∧ outputEq first.json body.json = true ∧
    (first.retryable ≠ body.retryable ∨ sameOutput first.json body.json = false)

/-- What the comparison accepts is the payload or a mimic. -/
theorem Completion.repeats_or_mimics {body first : Completion} (herror : first.error = body.error)
    (houtput : outputEq first.json body.json = true) : body.Repeats first ∨ body.Mimics first := by
  by_cases hflag : first.retryable = body.retryable
  · cases hsame : sameOutput first.json body.json with
    | true => exact Or.inl ⟨hsame, herror, hflag⟩
    | false => exact Or.inr ⟨herror, houtput, Or.inr hsame⟩
  · exact Or.inr ⟨herror, houtput, Or.inl hflag⟩

theorem Completion.Mimics.not_repeats {body first : Completion} (h : body.Mimics first) :
    ¬ body.Repeats first := by
  intro hrep
  rcases h.2.2 with hflag | hsame
  · exact hflag hrep.retryable
  · simp [hrep.output] at hsame

/-! ## A finish of a finished attempt -/

section Service

variable {db : Database}

/-- A finish of a finished attempt changes nothing and is decided by the row. -/
theorem exec_finish_finished {jobId token : Uuid} {job : Job} {a : Attempt}
    (hjob : db.jobs.find? jobId = some job) (ha : db.attempts.find? token = some a)
    (hfin : a.finishedAt.isSome = true) (workerId : String) (output : Option Json)
    (error : Option String) (retryable : Bool) (feed : ℕ → Moment) :
    ((finish jobId workerId token output error retryable).exec feed db).result =
      if a.jobId ≠ jobId ∨ a.workerId ≠ workerId then
        .error (.conflict "Assignment does not belong to this worker")
      else if (a.outcome = some .succeeded ∨ a.outcome = some .failed) ∧
          outputEq a.output output = true ∧ a.error = error then .ok ()
      else .error (.conflict "Conflicting or expired completion replay") := by
  refine Sat.exec (A := fun _ => True) (Q := fun r _ => r = _) ?_ fun _ => trivial
  refine (sat_bind _ _ _).mpr ?_
  by_cases hother : a.jobId ≠ jobId ∨ a.workerId ≠ workerId
  · refine (sat_bind _ _ _).mpr (sat_getJob (by simp [hjob]) fun _ _ => ?_)
    refine sat_read (fun _ => rfl) fun _ _ => ?_
    simp only [ha]
    rw [if_pos hother, if_pos hother]
    rfl
  · obtain ⟨haj, haw⟩ : a.jobId = jobId ∧ a.workerId = workerId := by simpa using hother
    refine sat_owned_finished hjob ha haj haw hfin ?_
    simp only [hfin, if_true]
    rw [if_neg hother]
    split <;> rfl

end Service

/-! ## Requests -/

variable [Sha256]

/-- The worker row accepts the session. -/
def Trusted (db : Database) (workerId : String) (credential : Option String) : Prop :=
  ∃ w, db.workers.find? workerId = some w ∧ sessionOk w.sessionHash credential = true

section Requests

variable {db : Database} {t : Txn} {jobId : Uuid} {body : Completion} {credential : Option String}

/-- A finish without a session is refused. -/
theorem trusted_of_answer (hreq : t.request = .finish jobId body credential) {response : Response}
    (hans : t.answer db = .ok response) : Trusted db body.workerId credential := by
  rw [Txn.answer, Txn.outcome, hreq, serve] at hans
  cases hw : db.workers.find? body.workerId with
  | none =>
      rw [exec_identity_none hw] at hans
      cases hans
  | some w =>
      rw [exec_identity hw] at hans
      split at hans
      · exact ⟨w, hw, ‹_›⟩
      · cases hans

/-- A finish with a session is answered by `finish`. -/
theorem answer_trusted (hreq : t.request = .finish jobId body credential)
    (h : Trusted db body.workerId credential) :
    t.answer db = ((finish jobId body.workerId body.token body.json body.error
      body.retryable).exec (fun n => t.feed (n + 1)) db).result.map fun _ => .recorded := by
  obtain ⟨w, hw, hok⟩ := h
  rw [Txn.answer, Txn.outcome, hreq, serve, exec_identity hw, if_pos hok, Prog.exec_bind]
  cases ((finish jobId body.workerId body.token body.json body.error body.retryable).exec
    (fun n => t.feed (n + 1)) db).result <;> rfl

end Requests

/-! ## Recorded completions -/

/-- The transaction is the finish that closes an open attempt of the job. -/
def Txn.Records (t : Txn) (db : Database) (jobId : Uuid) (body : Completion) : Prop :=
  ∃ credential, t.request = .finish jobId body credential ∧
    (∃ response, t.answer db = .ok response) ∧
    ∃ a, db.attempts.find? body.token = some a ∧ a.finishedAt = none

/-- In the run, the completion closed an attempt of the job. -/
def OnRecord (txns : List Txn) (jobId : Uuid) (body : Completion) : Prop :=
  ∃ pre t post, txns = pre ++ t :: post ∧ t.Records (run pre) jobId body

theorem onRecord_snoc {txns : List Txn} {t : Txn} {jobId : Uuid} {body : Completion} :
    OnRecord (txns ++ [t]) jobId body ↔
      OnRecord txns jobId body ∨ t.Records (run txns) jobId body :=
  occurs_snoc (P := fun db t => t.Records db jobId body)

variable {txns : List Txn} {jobId : Uuid} {body : Completion}

theorem OnRecord.reports (h : OnRecord txns jobId body) : Reports txns body.token body.verdict := by
  obtain ⟨pre, t, post, heq, credential, hreq, hans, hopen⟩ := h
  exact ⟨pre, t, post, heq, jobId, body, credential, hreq, rfl, rfl, hans, hopen⟩

/-- Whatever a run reports, a completion of it has recorded. -/
theorem onRecord_of_reports {token : Uuid} {v : Verdict} (h : Reports txns token v) :
    ∃ jobId body, OnRecord txns jobId body ∧ body.token = token := by
  obtain ⟨pre, t, post, heq, jobId, body, credential, hreq, rfl, -, hans, hopen⟩ := h
  exact ⟨jobId, body, ⟨pre, t, post, heq, credential, hreq, hans, hopen⟩, rfl⟩

/-- The row of an attempt holds the output and the error of its recorded completion, exactly
and forever. -/
theorem onRecord_row (h : OnRecord txns jobId body) :
    ∃ a, (run txns).attempts.find? body.token = some a ∧ Acknowledges a jobId body ∧
      a.output = body.json := by
  have hreports := h.reports
  obtain ⟨pre, t, post, rfl, credential, hreq, ⟨response, hans⟩, -⟩ := h
  obtain ⟨-, hanswer⟩ := commit_answers (run_inv pre) hans
  rw [hreq] at hanswer
  obtain ⟨a, ha, hack⟩ := hanswer
  rw [← run_snoc] at ha
  obtain ⟨b, hb, hab⟩ := (run_later (pre ++ [t]) post).attempts _ a ha
  obtain rfl := hab.2 hack.2.2.1
  rw [List.append_assoc, List.singleton_append] at hb
  refine ⟨b, hb, hack, ?_⟩
  -- the row shows the verdict that was reported, not just one that compares equal
  have hrep := run_reported (pre ++ t :: post)
  obtain ⟨v, hv, hshows⟩ := hrep.completed b (Table.mem_of_find? hb) hack.2.2.2.1
  have hid : b.id = body.token := Table.key_of_find? hb
  obtain rfl := hrep.unique _ _ _ (hid ▸ hv) hreports
  obtain ⟨-, -, -, -, hout, herror⟩ := hack
  cases he : body.error with
  | none =>
      rw [Completion.verdict, he] at hshows
      exact hshows.2
  | some e =>
      have hnone : body.json = none := Completion.json_none (by simp [he])
      rw [hnone] at hout ⊢
      cases ho : b.output with
      | none => rfl
      | some v => simp [ho, outputEq] at hout

/-- An attempt has one recorded completion at most. -/
theorem onRecord_unique {jobId' : Uuid} {body' : Completion} (h : OnRecord txns jobId body)
    (h' : OnRecord txns jobId' body') (htoken : body'.token = body.token) :
    jobId' = jobId ∧ body' = body := by
  -- a recorded attempt is finished, so it is not recorded again
  have hold : ∀ {txns : List Txn} {t : Txn} {jobId jobId' : Uuid} {body body' : Completion},
      OnRecord txns jobId body → t.Records (run txns) jobId' body' → body'.token ≠ body.token := by
    rintro txns t jobId jobId' body body' hrec ⟨-, -, -, x, hx, hopen⟩ heq
    obtain ⟨a, ha, hack, -⟩ := onRecord_row hrec
    rw [heq, ha, Option.some.injEq] at hx
    have hfin := hack.2.2.1
    simp [hx, hopen] at hfin
  induction txns using List.reverseRecOn with
  | nil =>
      obtain ⟨pre, t, post, heq, -⟩ := h
      simp at heq
  | append_singleton txns t ih =>
      rcases onRecord_snoc.mp h with h | h <;> rcases onRecord_snoc.mp h' with h' | h'
      · exact ih h h'
      · exact absurd htoken (hold h h')
      · exact absurd htoken.symm (hold h' h)
      · obtain ⟨c, hreq, -⟩ := h
        obtain ⟨c', hreq', -⟩ := h'
        rw [hreq, Request.finish.injEq] at hreq'
        exact ⟨hreq'.1.symm, hreq'.2.1.symm⟩

/-! ## Replays -/

/-- The finish sends a mimic of the completion that is recorded for its attempt. -/
def Misleads (pre : List Txn) (t : Txn) : Prop :=
  ∃ jobId body credential first, t.request = .finish jobId body credential ∧
    Trusted (run pre) body.workerId credential ∧ OnRecord pre jobId first ∧
    first.token = body.token ∧ first.workerId = body.workerId ∧ body.Mimics first

/-- If the transaction is a finish that returns, its payload is that of the completion recorded
for its attempt; if it is one with another payload, it is refused, with a conflict if the
worker and the job are known. -/
def Truthful (pre : List Txn) (t : Txn) : Prop :=
  ∀ jobId body credential, t.request = .finish jobId body credential →
    (∀ response, t.answer (run pre) = .ok response → ∃ first,
      OnRecord (pre ++ [t]) jobId first ∧ first.token = body.token ∧ body.Repeats first) ∧
    ∀ jobId' first, OnRecord pre jobId' first → first.token = body.token → ¬ body.Repeats first →
      (∀ response, t.answer (run pre) ≠ .ok response) ∧
      (Trusted (run pre) body.workerId credential →
        (∃ job, (run pre).jobs.find? jobId = some job) →
        ∃ detail, t.answer (run pre) = .error (.conflict detail))

section Replays

variable {pre : List Txn} {t : Txn} {first : Completion} {credential : Option String}

/-- The answer to a finish of an attempt with a recorded completion. -/
theorem answer_recorded (hreq : t.request = .finish jobId body credential) {jobId' : Uuid}
    (hrec : OnRecord pre jobId' first) (htoken : first.token = body.token) {job : Job}
    (hjob : (run pre).jobs.find? jobId = some job)
    (htrust : Trusted (run pre) body.workerId credential) :
    t.answer (run pre) =
      if jobId' ≠ jobId ∨ first.workerId ≠ body.workerId then
        .error (.conflict "Assignment does not belong to this worker")
      else if outputEq first.json body.json = true ∧ first.error = body.error then .ok .recorded
      else .error (.conflict "Conflicting or expired completion replay") := by
  obtain ⟨a, ha, ⟨rfl, haw, hfin, hout, -, herror⟩, hjson⟩ := onRecord_row hrec
  rw [htoken] at ha
  rw [answer_trusted hreq htrust, exec_finish_finished hjob ha hfin, hjson, herror, haw]
  split
  · rfl
  · simp only [hout, true_and]
    split <;> rfl

/-- A finish that returns has recorded its completion, or compares equal to the one that is
recorded. -/
theorem recorded_of_answer (hreq : t.request = .finish jobId body credential) {response : Response}
    (hans : t.answer (run pre) = .ok response) :
    t.Records (run pre) jobId body ∨ ∃ first, OnRecord pre jobId first ∧
      first.token = body.token ∧ first.workerId = body.workerId ∧
      first.error = body.error ∧ outputEq first.json body.json = true := by
  have hcommitted := (commit_answers (run_inv pre) hans).2
  rw [hreq] at hcommitted
  obtain ⟨b, hb, hbj, -, -, hcompleted, -⟩ := hcommitted
  rw [← run_snoc] at hb
  have hid : b.id = body.token := Table.key_of_find? hb
  obtain ⟨v, hv, -⟩ := (run_reported (pre ++ [t])).completed b (Table.mem_of_find? hb) hcompleted
  obtain ⟨jobId', first, hfirst, htoken⟩ := onRecord_of_reports hv
  rw [hid] at htoken
  rcases onRecord_snoc.mp hfirst with hfirst | ⟨c, hreq', hrec⟩
  · -- the completed row is the recorded one, so the comparison has accepted the payload
    obtain ⟨a, ha, hack, -⟩ := onRecord_row hfirst
    obtain ⟨b', hb', hab⟩ := (run_later pre [t]).attempts _ a ha
    obtain rfl := hab.2 hack.2.2.1
    rw [htoken, hb, Option.some.injEq] at hb'
    subst hb'
    obtain rfl : jobId = jobId' := hbj.symm.trans hack.1
    obtain ⟨job, hjob⟩ := (run_inv pre).attempt_job b (Table.mem_of_find? ha)
    rw [hbj] at hjob
    have hreplay := answer_recorded hreq hfirst htoken hjob (trusted_of_answer hreq hans)
    rw [hans] at hreplay
    split at hreplay
    · cases hreplay
    · rename_i hworker
      split at hreplay
      · rename_i hequal
        exact Or.inr ⟨first, hfirst, htoken, by simpa using hworker, hequal.2, hequal.1⟩
      · cases hreplay
  · rw [hreq, Request.finish.injEq] at hreq'
    obtain ⟨rfl, rfl, -⟩ := hreq'
    exact Or.inl ⟨credential, hreq, hrec⟩

/-- One finish is truthful unless it misleads. -/
theorem truthful_iff : Truthful pre t ↔ ¬ Misleads pre t := by
  constructor
  · rintro h ⟨jobId, body, credential, first, hreq, htrust, hrec, htoken, hworker, hmimics⟩
    obtain ⟨a, ha, hack, -⟩ := onRecord_row hrec
    obtain ⟨job, hjob⟩ := (run_inv pre).attempt_job a (Table.mem_of_find? ha)
    rw [hack.1] at hjob
    refine ((h jobId body credential hreq).2 jobId first hrec htoken hmimics.not_repeats).1
      .recorded ?_
    rw [answer_recorded hreq hrec htoken hjob htrust, if_neg (by simp [hworker]),
      if_pos ⟨hmimics.2.1, hmimics.1⟩]
  · intro h jobId body credential hreq
    have hanswered : ∀ response, t.answer (run pre) = .ok response → ∃ first,
        OnRecord (pre ++ [t]) jobId first ∧ first.token = body.token ∧ body.Repeats first := by
      intro response hans
      rcases recorded_of_answer hreq hans with hrec | ⟨first, hrec, htoken, hworker, herror, hout⟩
      · exact ⟨body, onRecord_snoc.mpr (Or.inr hrec), rfl, .refl body⟩
      · refine ⟨first, onRecord_snoc.mpr (Or.inl hrec), htoken, ?_⟩
        refine (Completion.repeats_or_mimics herror hout).resolve_right fun hmimics => h ?_
        exact ⟨jobId, body, credential, first, hreq, trusted_of_answer hreq hans, hrec, htoken,
          hworker, hmimics⟩
    refine ⟨hanswered, fun jobId' first hrec htoken hdiffers => ?_⟩
    have hrefused : ∀ response, t.answer (run pre) ≠ .ok response := by
      intro response hans
      obtain ⟨first', hrec', htoken', hrep⟩ := hanswered response hans
      obtain ⟨-, rfl⟩ := onRecord_unique (onRecord_snoc.mpr (Or.inl hrec)) hrec'
        (htoken'.trans htoken.symm)
      exact hdiffers hrep
    refine ⟨hrefused, fun htrust ⟨job, hjob⟩ => ?_⟩
    have hans := answer_recorded hreq hrec htoken hjob htrust
    split at hans
    · exact ⟨_, hans⟩
    split at hans
    · exact absurd hans (hrefused _)
    · exact ⟨_, hans⟩

end Replays

/-- **Acknowledged completions.** In every run an attempt has one recorded completion at most,
and its repetition by its worker is acknowledged when it equals what JSONB returns, as it does
where JSONB returns what it was given.  Every finish that returns has the payload that is recorded
for its attempt, and every differing one is refused, if and only if no worker sends a mimic of what
it has recorded. -/
theorem acknowledged_once (txns : List Txn) :
    (∀ jobId first jobId' first', OnRecord txns jobId first → OnRecord txns jobId' first' →
      first'.token = first.token → jobId' = jobId ∧ first' = first) ∧
    (∀ (t : Txn) jobId (first body : Completion) credential, OnRecord txns jobId first →
      t.request = .finish jobId body credential → Trusted (run txns) body.workerId credential →
      first.token = body.token → first.workerId = body.workerId → body.Repeats first →
      (t.answer (run txns) = .ok .recorded ↔ outputEq first.json body.json = true) ∧
        ((∀ v ∈ first.json, v.jsonb = v) → t.answer (run txns) = .ok .recorded)) ∧
    ((∀ pre t post, txns = pre ++ t :: post → Truthful pre t) ↔
      ∀ pre t post, txns = pre ++ t :: post → ¬ Misleads pre t) := by
  refine ⟨fun _ _ _ _ => onRecord_unique, ?_, ?_⟩
  · intro t jobId first body credential hrec hreq htrust htoken hworker hrep
    obtain ⟨a, ha, hack, -⟩ := onRecord_row hrec
    obtain ⟨job, hjob⟩ := (run_inv txns).attempt_job a (Table.mem_of_find? ha)
    rw [hack.1] at hjob
    have hrecorded : t.answer (run txns) = .ok .recorded ↔
        outputEq first.json body.json = true := by
      rw [answer_recorded hreq hrec htoken hjob htrust, if_neg (by simp [hworker])]
      simp [hrep.error]
    exact ⟨hrecorded, fun hkept => hrecorded.mpr (outputEq_of_same hkept hrep.output)⟩
  · simp only [truthful_iff]

/-- An attempt that runs. -/
def runningAttempt : List Txn := [
  { request := .submit .flaky, feed := .still 1 },
  { request := .register .first, feed := .still 2 },
  { request := .claim .first (some Registration.first.sessionToken), feed := .still 3 },
  { request := .start 104 ⟨"w1", 307⟩ (some Registration.first.sessionToken), feed := .still 4 }]

/-- The attempt is finished with the given completion. -/
def finishing (t : ℕ) (body : Completion) : Txn where
  request := .finish 104 body (some Registration.first.sessionToken)
  feed := .still t

/-- The failure of `Completion.failure`, called permanent. -/
def Completion.permanent : Completion := { Completion.failure 307 with retryable := false }

/-- An output with the integer one. -/
def Completion.one : Completion where
  workerId := "w1"
  token := 307
  output := some [(.ofString "x", .int 1)]
  output_decoded := by rintro o ⟨⟩; decide +kernel
  error_length := no_error_length
  error_storable := no_error_storable

/-- The same output, with `true` for one. -/
def Completion.yes : Completion where
  workerId := "w1"
  token := 307
  output := some [(.ofString "x", .bool true)]
  output_decoded := by rintro o ⟨⟩; decide +kernel
  error_length := no_error_length
  error_storable := no_error_storable

omit [Sha256] in
/-- A completion that is acknowledged after another one of the running attempt. -/
theorem not_truthful {first body : Completion} (hfirst : first.token = 307)
    (hbody : body.token = 307) (hdiffers : ¬ body.Repeats first) :
    letI := Sha256.tabulated []
    ((finishing 5 first).answer (run runningAttempt)).isOk = true →
    ((finishing 6 body).answer (run (runningAttempt ++ [finishing 5 first]))).isOk = true →
    ¬ Truthful (runningAttempt ++ [finishing 5 first]) (finishing 6 body) := by
  let := Sha256.tabulated []
  intro hrecorded hacknowledged h
  have hopen : ((run runningAttempt).attempts.find? 307).map Attempt.finishedAt = some none := by
    decide +kernel
  obtain ⟨a, ha, hnone⟩ := Option.map_eq_some_iff.mp hopen
  obtain ⟨response, hans⟩ := exists_ok hrecorded
  obtain ⟨response', hans'⟩ := exists_ok hacknowledged
  have hrec : OnRecord (runningAttempt ++ [finishing 5 first]) 104 first :=
    ⟨runningAttempt, finishing 5 first, [], rfl, _, rfl, ⟨response, hans⟩, a, by rw [hfirst, ha],
      hnone⟩
  exact ((h 104 body _ rfl).2 104 first hrec (hfirst.trans hbody.symm) hdiffers).1 response' hans'

omit [Sha256] in
/-- A job that waits for its retry acknowledges a permanent failure, and one with the output
`1` acknowledges `true`. -/
theorem acknowledged_mimics :
    letI := Sha256.tabulated []
    ¬ Truthful (runningAttempt ++ [finishing 5 (.failure 307)]) (finishing 6 .permanent) ∧
      (run (runningAttempt ++ [finishing 5 (.failure 307)])).jobs.rows.map Job.status =
        [.retryWait] ∧
      ¬ Truthful (runningAttempt ++ [finishing 5 .one]) (finishing 6 .yes) := by
  let := Sha256.tabulated []
  refine ⟨not_truthful rfl rfl (fun h => ?_) (by decide +kernel) (by decide +kernel),
    by decide +kernel, not_truthful rfl rfl (fun h => ?_) (by decide +kernel) (by decide +kernel)⟩
  · exact absurd h.retryable (by decide)
  · exact absurd h.output (by decide +kernel)

end GreyQueue
