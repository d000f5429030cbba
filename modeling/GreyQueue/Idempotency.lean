import GreyQueue.Lib.Reader
import GreyQueue.History

/-!
# Idempotent admission

The digest of a submission is the hash of its canonical JSON text, so two submissions
have one digest exactly when they have one definition: the text forgets the order of
object members, the offset of a schedule and the type of a duration, and nothing else.

## Main definitions

* `SameDefinition` — two submissions ask for the same job.

## Main results

* `digest_eq_iff` — digests agree exactly when definitions do.
* `idempotent_admission` — a key names one job forever.
-/

namespace GreyQueue

open Lib
open Lib.Prog (Sat)

/-! ## Definitions -/

/-- The members of a definition, with the schedule as a UTC wall clock. -/
def members (body : Submit) (args : Json) (utc : Option ℕ) : List (Text × Json) := [
  (.ofString "task", .str (.ofString body.task)),
  (.ofString "args", args),
  (.ofString "priority", .int body.priority),
  (.ofString "timeout", .float body.timeout.toFloat),
  (.ofString "max_retries", .int body.maxRetries),
  (.ofString "retry_delay", .float body.retryDelay.toFloat),
  (.ofString "retry_jitter", .bool body.retryJitter),
  (.ofString "metadata", .obj body.metadata),
  (.ofString "scheduled_at", textOrNull (utc.map isoformat)),
  (.ofString "depends_on", textOrNull (body.dependsOn.map uuidText))]

/-- A definition holds the instant of the schedule, whatever its offset. -/
theorem definition_ok {body : Submit} {args d : Json} (h : definition body args = .ok d) :
    ∃ utc : Option ℕ, d = .obj (members body args utc) ∧
      utc.map Int.ofNat = body.scheduledAt.map Datetime.instant := by
  cases hs : body.scheduledAt with
  | none =>
      simp only [definition, hs, bind, Except.bind, pure, Except.pure, Except.ok.injEq] at h
      exact ⟨none, h.symm, rfl⟩
  | some t =>
      cases hu : t.astimezoneUtc with
      | none => simp [definition, hs, hu, bind, Except.bind] at h
      | some micros =>
          simp only [definition, hs, hu, bind, Except.bind, pure, Except.pure,
            Except.ok.injEq] at h
          refine ⟨some micros, h.symm, ?_⟩
          simp only [Datetime.astimezoneUtc] at hu
          split at hu
          · rename_i hr
            cases hu
            simp [hr.1]
          · cases hu

theorem keys_nodup (body : Submit) (args : Json) (utc : Option ℕ) :
    ((members body args utc).map Prod.fst).Nodup := by
  have h : (["task", "args", "priority", "timeout", "max_retries", "retry_delay", "retry_jitter",
      "metadata", "scheduled_at", "depends_on"].map Text.ofString).Nodup := by decide +kernel
  exact h

theorem wellFormed_textOrNull (t : Option (List Char)) : (textOrNull t).wellFormed = true := by
  cases t with
  | none => rfl
  | some l => exact Text.wellPaired_ofChars l

theorem wellFormed_members (body : Submit) {args : Json} (hargs : args.wellFormed = true)
    (utc : Option ℕ) : (Json.obj (members body args utc)).wellFormed = true := by
  have hmeta := body.metadata_decoded
  have hkey : ∀ s, (Text.ofString s).wellPaired = true := fun s => Text.wellPaired_ofChars _
  have hstr : ∀ s, (Json.str (.ofString s)).wellFormed = true := fun s => Text.wellPaired_ofChars _
  rw [Json.wellFormed, Bool.and_eq_true, decide_eq_true_eq, Json.wellFormedMembers_iff]
  refine ⟨keys_nodup body args utc, fun p hp => ?_⟩
  simp only [members, List.mem_cons, List.not_mem_nil, or_false] at hp
  rcases hp with rfl | rfl | rfl | rfl | rfl | rfl | rfl | rfl | rfl | rfl
  · exact ⟨hkey _, hstr _⟩
  · exact ⟨hkey _, hargs⟩
  · exact ⟨hkey _, rfl⟩
  · exact ⟨hkey _, rfl⟩
  · exact ⟨hkey _, rfl⟩
  · exact ⟨hkey _, rfl⟩
  · exact ⟨hkey _, rfl⟩
  · exact ⟨hkey _, hmeta⟩
  · exact ⟨hkey _, wellFormed_textOrNull _⟩
  · exact ⟨hkey _, wellFormed_textOrNull _⟩

theorem same_textOrNull {s t : Option (List Char)} :
    Json.same (textOrNull s) (textOrNull t) = true ↔ s = t := by
  cases s <;> cases t <;>
    simp [textOrNull, Json.same, Json.eqBy, Json.sameScalar, Text.ofChars_injective.eq_iff]

/-- Two submissions with validated arguments ask for the same job: durations are compared
as numbers, schedules as instants, and metadata as JSON values up to the order of object
members. -/
def SameDefinition (body : Submit) (args : Json) (body' : Submit) (args' : Json) : Prop :=
  body.task = body'.task ∧ Json.same args args' = true ∧ body.priority = body'.priority ∧
    body.timeout.toRat = body'.timeout.toRat ∧ body.maxRetries = body'.maxRetries ∧
    body.retryDelay.toRat = body'.retryDelay.toRat ∧ body.retryJitter = body'.retryJitter ∧
    Json.same (.obj body.metadata) (.obj body'.metadata) = true ∧
    body.scheduledAt.map Datetime.instant = body'.scheduledAt.map Datetime.instant ∧
    body.dependsOn = body'.dependsOn

instance (body : Submit) (args : Json) (body' : Submit) (args' : Json) :
    Decidable (SameDefinition body args body' args') :=
  inferInstanceAs (Decidable (_ ∧ _ ∧ _ ∧ _ ∧ _ ∧ _ ∧ _ ∧ _ ∧ _ ∧ _))

/-- The retry delay is not the float `-0.0`; a timeout is never zero. -/
def Unsigned (body : Submit) : Prop := body.retryDelay.toFloat.isNegZero = false

/-- A number other than `-0.0` has one float. -/
theorem Num.toFloat_eq_iff {x y : Num} (hx : x.toFloat.isNegZero = false)
    (hy : y.toFloat.isNegZero = false) : x.toFloat = y.toFloat ↔ x.toRat = y.toRat := by
  constructor
  · intro h
    rw [← Num.toRat_toFloat x, ← Num.toRat_toFloat y, h]
  · intro h
    exact FloatRepr.eq_of_toRat_eq hx hy (by simpa using h)

theorem timeout_unsigned (body : Submit) : body.timeout.toFloat.isNegZero = false := by
  by_contra h
  have hz : body.timeout.toRat = 0 := by
    rw [← Num.toRat_toFloat]
    simp only [FloatRepr.isNegZero, Bool.not_eq_false, Bool.and_eq_true, beq_iff_eq] at h
    simp [FloatRepr.toRat, h.2]
  have := body.timeout_range.1
  rw [hz] at this
  norm_num at this

/-- The members agree exactly when the definitions do. -/
theorem same_members_iff {body body' : Submit} {args args' : Json} {utc utc' : Option ℕ}
    (hneg : Unsigned body) (hneg' : Unsigned body')
    (hutc : utc.map Int.ofNat = body.scheduledAt.map Datetime.instant)
    (hutc' : utc'.map Int.ofNat = body'.scheduledAt.map Datetime.instant) :
    Json.same (.obj (members body args utc)) (.obj (members body' args' utc')) = true ↔
      SameDefinition body args body' args' := by
  have hschedule : utc = utc' ↔
      body.scheduledAt.map Datetime.instant = body'.scheduledAt.map Datetime.instant := by
    rw [← hutc, ← hutc', (Option.map_injective Int.ofNat_injective).eq_iff]
  have hstr : ∀ s t : String, Text.ofString s = Text.ofString t ↔ s = t := by
    intro s t
    rw [Text.ofString, Text.ofString, Text.ofChars_injective.eq_iff, String.toList_inj]
  have htimeout := Num.toFloat_eq_iff (timeout_unsigned body) (timeout_unsigned body')
  have hdelay := Num.toFloat_eq_iff hneg hneg'
  have hkeys : (members body' args' utc').map Prod.fst = (members body args utc).map Prod.fst := rfl
  rw [Json.same_obj_iff (keys_nodup body args utc) hkeys]
  simp only [members, List.forall₂_cons, List.Forall₂.nil, and_true, same_textOrNull,
    (Option.map_injective isoformat_injective).eq_iff,
    (Option.map_injective uuidText_injective).eq_iff, hschedule, SameDefinition]
  simp only [← hstr body.task, ← htimeout, ← hdelay]
  simp [Json.same, Json.eqBy, Json.sameScalar]

variable [Sha256]

/-- Digests agree exactly when definitions do. -/
theorem digest_eq_iff (hinj : Function.Injective (Sha256.hexdigest : String → String))
    {body body' : Submit} {args args' d d' : Json}
    (hargs : validate body.task body.args = .ok args)
    (hargs' : validate body'.task body'.args = .ok args') (hd : definition body args = .ok d)
    (hd' : definition body' args' = .ok d') (hneg : Unsigned body) (hneg' : Unsigned body') :
    digest d = digest d' ↔ SameDefinition body args body' args' := by
  obtain ⟨utc, rfl, hutc⟩ := definition_ok hd
  obtain ⟨utc', rfl, hutc'⟩ := definition_ok hd'
  have hwf := wellFormed_members body (validate_wellFormed body.args_decoded hargs) utc
  have hwf' := wellFormed_members body' (validate_wellFormed body'.args_decoded hargs') utc'
  rw [digest, digest, hinj.eq_iff, String.ofList_inj, Json.dumps_eq_iff hwf hwf',
    same_members_iff hneg hneg' hutc hutc']

/-! ## Keys -/

/-- An idempotency key names at most one job. -/
def UniqueKeys (db : Database) : Prop :=
  ∀ j ∈ db.jobs.rows, ∀ j' ∈ db.jobs.rows, ∀ k, j.idempotencyKey = some k →
    j'.idempotencyKey = some k → j = j'

omit [Sha256] in
theorem UniqueKeys.effect {db : Database} (h : UniqueKeys db) {c : Change} (hg : c.guard db) :
    UniqueKeys (c.effect db) := by
  rcases effect_jobs hg with ⟨job, q, n, t, t', rfl⟩ | ⟨job, job', hrow, -, hl, hjobs⟩ | hjobs
  · intro j hj j' hj' k hk hk'
    rcases (Table.mem_add hg.fresh).mp hj with hold | rfl <;>
      rcases (Table.mem_add hg.fresh).mp hj' with hold' | rfl
    · exact h j hold j' hold' k hk hk'
    · exact absurd hk (hg.key_fresh k hk' j hold)
    · exact absurd hk' (hg.key_fresh k hk j' hold')
    · rfl
  · have hkey : job'.idempotencyKey = job.idempotencyKey := by rw [hl.1]
    have hid : job'.id = job.id := by rw [hl.1]
    have hmem := Table.mem_of_find? hrow
    -- the new version stands where the old one stood
    have hcases : ∀ j ∈ (c.effect db).jobs.rows, j = job' ∨ (j ∈ db.jobs.rows ∧ j ≠ job) := by
      intro j hj
      rw [hjobs] at hj
      rcases Table.mem_put.mp hj with ⟨hj, hne⟩ | ⟨rfl, -⟩
      · exact Or.inr ⟨hj, fun he => hne (by rw [he]; exact hid.symm)⟩
      · exact Or.inl rfl
    intro j hj j' hj' k hk hk'
    rcases hcases j hj with rfl | ⟨hj, hne⟩ <;> rcases hcases j' hj' with rfl | ⟨hj', hne'⟩
    · rfl
    · exact absurd (h j' hj' job hmem k hk' (hkey ▸ hk)) hne'
    · exact absurd (h j hj job hmem k hk (hkey ▸ hk')) hne
    · exact h j hj j' hj' k hk hk'
  · rw [UniqueKeys, hjobs]
    exact h

theorem run_uniqueKeys (txns : List Txn) : UniqueKeys (run txns) :=
  (run_invariant (fun _ hj => by simp at hj) (fun _ _ _ hg h => h.effect hg) txns).2

/-- An admission whose key is taken answers for the job that has it, and changes nothing. -/
theorem admitJob_existing {db : Database} (hkeys : UniqueKeys db) {row : Job}
    (hrow : row ∈ db.jobs.rows) {k : String} (hk : row.idempotencyKey = some k)
    {body : Submit} (hbody : body.idempotencyKey = some k)
    (queueLimit submissionsPerMinute : ℕ) (feed : ℕ → Moment) :
    ((admitJob body queueLimit submissionsPerMinute).exec feed db).state = db ∧
      (∀ args d, validate body.task body.args = .ok args → definition body args = .ok d →
        ((admitJob body queueLimit submissionsPerMinute).exec feed db).result =
          if row.requestHash = some (digest d) then .ok (row, false)
          else .error (.conflict "Idempotency key already used for a different definition")) ∧
      ∀ e, (validate body.task body.args = .error e ∨
          ∃ args, validate body.task body.args = .ok args ∧ definition body args = .error e) →
        ((admitJob body queueLimit submissionsPerMinute).exec feed db).result = .error e := by
  refine Sat.exec (A := fun _ => True) (Q := fun r d' => d' = db ∧
    (∀ args d, validate body.task body.args = .ok args → definition body args = .ok d →
      r = if row.requestHash = some (digest d) then .ok (row, false)
        else .error (.conflict "Idempotency key already used for a different definition")) ∧
    ∀ e, (validate body.task body.args = .error e ∨
        ∃ args, validate body.task body.args = .ok args ∧ definition body args = .error e) →
      r = .error e) (sat_admitJob ?_ ?_ ?_ ?_) fun _ => trivial
  · intro e he
    refine ⟨rfl, fun args d hv => by simp [he] at hv, ?_⟩
    rintro e' (he' | ⟨args, hv, -⟩)
    · rw [he] at he'; cases he'; rfl
    · simp [he] at hv
  · intro args e hv he
    refine ⟨rfl, fun args' d hv' hd => ?_, ?_⟩
    · rw [hv] at hv'; cases hv'; simp [he] at hd
    · rintro e' (he' | ⟨args', hv', he'⟩)
      · simp [hv] at he'
      · rw [hv] at hv'; cases hv'; rw [he] at he'; cases he'; rfl
  · intro args d k' j hv hd hk' hj hjk
    obtain rfl : k = k' := Option.some.inj (hbody.symm.trans hk')
    obtain rfl := hkeys j hj row hrow k hjk hk
    have hnot : ∀ r : Except Error (Job × Bool), ∀ e, (validate body.task body.args = .error e ∨
        ∃ args, validate body.task body.args = .ok args ∧ definition body args = .error e) →
        r = .error e := by
      rintro r e (he | ⟨args', hv', he⟩)
      · simp [hv] at he
      · rw [hv] at hv'; cases hv'; simp [hd] at he
    have hthis : ∀ args' d', validate body.task body.args = .ok args' →
        definition body args' = .ok d' → d' = d := by
      intro args' d' hv' hd'
      rw [hv] at hv'; cases hv'; rw [hd] at hd'; cases hd'; rfl
    split
    · rename_i hhash
      refine ⟨rfl, fun args' d' hv' hd' => ?_, hnot _⟩
      rw [hthis args' d' hv' hd', if_pos hhash]
    · rename_i hhash
      refine ⟨rfl, fun args' d' hv' hd' => ?_, hnot _⟩
      rw [hthis args' d' hv' hd', if_neg hhash]
  · intro args d _ _ hfresh
    exact absurd hk (hfresh k hbody row hrow)

/-- **Idempotent admission.** In every reachable state an idempotency key names at most one
job.  Once a submission has created a job under a key, every later admission with that
key, under any limits and in any state, changes nothing: it returns that same job when
its definition is the same, raises a conflict when it has another one, and is rejected as
such when it has none, because its arguments or its schedule are invalid. -/
theorem idempotent_admission (hinj : Function.Injective (Sha256.hexdigest : String → String))
    (txns : List Txn) :
    (∀ j ∈ (run txns).jobs.rows, ∀ j' ∈ (run txns).jobs.rows, ∀ k,
      j.idempotencyKey = some k → j'.idempotencyKey = some k → j = j') ∧
    ∀ (t : Txn) (more : List Txn) (body : Submit) (k : String) (job : Job),
      t.request = .submit body → body.idempotencyKey = some k → Unsigned body →
      t.answer (run txns) = .ok (.submitted job true) →
      ∃ args row, validate body.task body.args = .ok args ∧
        (run (txns ++ t :: more)).jobs.find? job.id = some row ∧
        ∀ (body' : Submit) (queueLimit submissionsPerMinute : ℕ) (feed : ℕ → Moment),
          body'.idempotencyKey = some k → Unsigned body' →
          ((admitJob body' queueLimit submissionsPerMinute).exec feed
            (run (txns ++ t :: more))).state = run (txns ++ t :: more) ∧
          (∀ args' d', validate body'.task body'.args = .ok args' →
            definition body' args' = .ok d' →
            (SameDefinition body args body' args' →
              ((admitJob body' queueLimit submissionsPerMinute).exec feed
                (run (txns ++ t :: more))).result = .ok (row, false)) ∧
            (¬ SameDefinition body args body' args' →
              ((admitJob body' queueLimit submissionsPerMinute).exec feed
                (run (txns ++ t :: more))).result = .error (.conflict
                  "Idempotency key already used for a different definition"))) ∧
          ∀ e, (validate body'.task body'.args = .error e ∨
              ∃ args', validate body'.task body'.args = .ok args' ∧
                definition body' args' = .error e) →
            ((admitJob body' queueLimit submissionsPerMinute).exec feed
              (run (txns ++ t :: more))).result = .error e := by
  refine ⟨run_uniqueKeys txns, fun t more body k job hreq hk hneg hans => ?_⟩
  obtain ⟨-, hanswer⟩ := commit_answers (run_inv txns) hans
  rw [hreq] at hanswer
  obtain ⟨hjob, hjk, args, d, hv, hd, hhash⟩ := hanswer
  -- the row keeps its key and its digest
  have hlater := run_later (txns ++ [t]) more
  rw [run_snoc, List.append_assoc] at hlater
  obtain ⟨row, hrow, hl⟩ := hlater.jobs _ job hjob
  have hrk : row.idempotencyKey = some k := by rw [hl.1]; exact hjk.trans hk
  have hrh : row.requestHash = some (digest d) := by rw [hl.1]; exact hhash
  refine ⟨args, row, hv, hrow, fun body' q n feed hk' hneg' => ?_⟩
  obtain ⟨hstate, hresult, herror⟩ := admitJob_existing (run_uniqueKeys (txns ++ t :: more))
    (Table.mem_of_find? hrow) hrk hk' q n feed
  refine ⟨hstate, fun args' d' hv' hd' => ?_, herror⟩
  have hiff := digest_eq_iff hinj hv hv' hd hd' hneg hneg'
  rw [hresult args' d' hv' hd', hrh]
  exact ⟨fun h => if_pos (congrArg some (hiff.mpr h)),
    fun h => if_neg fun h' => h (hiff.mp (Option.some.inj h'))⟩

/-- A submission with a key, on a coordinator with the default limits. -/
def keyedSubmission : Txn where
  request := .submit { Submit.flaky with
    idempotencyKey := some "nightly"
    key_length := by decide +kernel
    key_storable := by decide +kernel }
  feed := .still 10

/-- The digest of its definition. -/
def keyedDigests : List (String × String) := [(
  "\x7b\"args\": \x7b\"failures\": 1\x7d, \"depends_on\": null, \"max_retries\": 3, " ++
  "\"metadata\": \x7b\x7d, \"priority\": 0, \"retry_delay\": 1.0, \"retry_jitter\": true, " ++
  "\"scheduled_at\": null, \"task\": \"flaky\", \"timeout\": 15.0\x7d",
  "c010fc8c1aa84b1acaa826a0cdb0699fedcec2a436718f1a2f5ef1eb8135e089")]

/-- The same definition, with its timeout written as a float. -/
def keyedReplay : Submit := { Submit.flaky with
  timeout := .float ⟨false, 15, 0, by decide⟩
  idempotencyKey := some "nightly"
  timeout_range := by decide +kernel
  key_length := by decide +kernel
  key_storable := by decide +kernel }

omit [Sha256] in
/-- A repeated submission is answered with the job, although the queue is full by then. -/
theorem idempotent_admission_replay :
    letI := Sha256.tabulated keyedDigests
    ∃ row, row.requestHash =
        some "c010fc8c1aa84b1acaa826a0cdb0699fedcec2a436718f1a2f5ef1eb8135e089" ∧
      ((admitJob keyedReplay 1 1).exec keyedSubmission.feed (run [keyedSubmission])).result =
        .ok (row, false) := by
  let := Sha256.tabulated keyedDigests
  have hinj := Sha256.tabulated_injective keyedDigests (by decide) (by decide)
  obtain ⟨args, row, hv, hrow, hreplay⟩ := (idempotent_admission hinj []).2 keyedSubmission [] _
    "nightly" _ rfl rfl rfl rfl
  cases hv
  obtain ⟨-, hsame, -⟩ := hreplay keyedReplay 1 1 keyedSubmission.feed rfl rfl
  refine ⟨row, ?_, (hsame _ _ rfl rfl).1 (by decide +kernel)⟩
  cases hrow
  decide +kernel

end GreyQueue
