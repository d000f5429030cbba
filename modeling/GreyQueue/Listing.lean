import GreyQueue.Acknowledgement
import GreyQueue.Lib.Paging
import GreyQueue.Outcome
import GreyQueue.Provenance
import GreyQueue.Workload

/-!
# What clients are shown of jobs

The reads of `GET /jobs`, `GET /jobs/{job_id}` and `GET /jobs/{job_id}/attempts`.  Each makes
two statements, and transactions of others may commit in between, so a view is a function of
the states that its statements see.  JSON values stand as they were written, whatever number
format their column returns.

## Main definitions

* `serialize`, `JobOut` — what is shown of a job.
* `View.jobs`, `View.job`, `View.attempts` — the three views.

## Main results

* `walk_shows_all` — reading the listing page by page shows every job that was there.
* `views_final` — an ending that a view shows is the one the job has from then on.
-/

namespace GreyQueue

open Lib Lib.Paging

/-- `JobOut`. -/
structure JobOut where
  id : Uuid
  task : String
  args : Json
  status : Status
  priority : ℤ
  timeout : ℚ
  maxRetries : ℕ
  attemptCount : ℕ
  metadata : Json
  availableAt : Time
  dependsOn : Option Uuid
  createdAt : Time
  updatedAt : Time
  result : Option Json
  error : Option String

/-- `serialize`, with the result row that was read for the job. -/
def serialize (job : Job) (result : Option Result) : JobOut where
  id := job.id
  task := job.task
  args := job.args
  status := job.status
  priority := job.priority
  timeout := job.timeout
  maxRetries := job.maxRetries
  attemptCount := job.attemptCount
  metadata := job.metadataJson
  availableAt := job.availableAt
  dependsOn := job.dependsOn
  createdAt := job.createdAt
  updatedAt := job.updatedAt
  result := result.bind Result.output
  error := result.bind Result.error

/-- The JSON values of an entry. -/
def JobOut.values (e : JobOut) : List Json := e.args :: e.metadata :: e.result.toList

/-- `AttemptOut`. -/
structure AttemptOut where
  id : Uuid
  workerId : String
  fence : ℕ
  outcome : Option AttemptOutcome
  error : Option String
  output : Option Json
  createdAt : Time
  startedAt : Option Time
  finishedAt : Option Time
  expiresAt : Time

/-- The entry of an attempt. -/
def Attempt.out (a : Attempt) : AttemptOut :=
  ⟨a.id, a.workerId, a.fence, a.outcome, a.error, a.output, a.createdAt, a.startedAt,
    a.finishedAt, a.expiresAt⟩

/-- `ORDER BY created_at DESC, id`. -/
def Job.newer (a b : Job) : Prop :=
  b.createdAt < a.createdAt ∨ (a.createdAt = b.createdAt ∧ a.id ≤ b.id)

instance Job.decidableNewer : DecidableRel Job.newer := fun a b =>
  inferInstanceAs (Decidable (b.createdAt < a.createdAt ∨
    (a.createdAt = b.createdAt ∧ a.id ≤ b.id)))

/-- The parameters of `GET /jobs`; an empty state is none. -/
structure JobsQuery where
  limit : ℕ := 50
  offset : ℕ := 0
  state : Option Status := none
  limit_range : 1 ≤ limit ∧ limit ≤ 200 := by decide
  offset_le : offset ≤ 1000000 := by decide

/-- The first statement of `GET /jobs`. -/
def JobsQuery.rows (q : JobsQuery) (db : Database) : List Job :=
  page ((db.jobs.rows.filter fun j => q.state.all fun s => decide (j.status = s)).insertionSort
    Job.newer) q.offset q.limit

namespace View

/-- `jobs`: the rows of the page, with the results that the second statement finds. -/
def jobs (db db' : Database) (q : JobsQuery) : List JobOut :=
  let rows := q.rows db
  let results := db'.results.rows.filter fun r => rows.any fun j => decide (r.jobId = j.id)
  rows.map fun job => serialize job (results.find? fun r => decide (r.jobId = job.id))

/-- `job`. -/
def job (db db' : Database) (jobId : Uuid) : Except Error JobOut :=
  match db.jobs.find? jobId with
  | none => .error (.missing "Job not found")
  | some job => .ok (serialize job (db'.results.find? job.id))

/-- `attempts`. -/
def attempts (db db' : Database) (jobId : Uuid) : Except Error (List AttemptOut) :=
  match db.jobs.find? jobId with
  | none => .error (.missing "Job not found")
  | some _ => .ok (((attemptsOf db'.attempts jobId).insertionSort fun a b =>
      a.fence ≤ b.fence).map Attempt.out)

end View

/-! ## The order of the listing -/

instance Job.newer_total : Std.Total Job.newer where
  total a b := by
    rcases lt_trichotomy a.createdAt b.createdAt with h | h | h
    · exact Or.inr (Or.inl h)
    · exact (le_total a.id b.id).imp (fun hid => Or.inr ⟨h, hid⟩) fun hid => Or.inr ⟨h.symm, hid⟩
    · exact Or.inl (Or.inl h)

instance Job.newer_trans : IsTrans Job Job.newer where
  trans a b c h h' := by
    rcases h with h | ⟨h, hid⟩ <;> rcases h' with h' | ⟨h', hid'⟩
    · exact Or.inl (h'.trans h)
    · exact Or.inl (h' ▸ h)
    · exact Or.inl (h ▸ h')
    · exact Or.inr ⟨h.trans h', hid.trans hid'⟩

theorem Job.newer_antisymm {a b : Job} (h : a.newer b) (h' : b.newer a) : a.id = b.id := by
  rcases h with h | ⟨h, hid⟩ <;> rcases h' with h' | ⟨h', hid'⟩
  · exact absurd h' h.not_gt
  · exact absurd h' h.ne
  · exact absurd h h'.ne
  · exact le_antisymm hid hid'

/-- Later versions of two jobs are listed in the same order. -/
theorem Job.newer_later {a b a' b' : Job} (ha : a.Later a') (hb : b.Later b') :
    a.newer b ↔ a'.newer b' := by
  rw [ha.1, hb.1]
  exact Iff.rfl

/-! ## The pages -/

theorem rows_unfiltered {q : JobsQuery} (h : q.state = none) (db : Database) :
    q.rows db = page (db.jobs.rows.insertionSort Job.newer) q.offset q.limit := by
  rw [JobsQuery.rows, h, List.filter_eq_self.mpr]
  intro _ _
  rfl

/-- A job is on the page around its position. -/
theorem mem_rows_of_rank {db : Database} {q : JobsQuery} (hstate : q.state = none) {job : Job}
    (hjob : job ∈ db.jobs.rows) (hlo : q.offset ≤ rank Job.newer db.jobs.rows job)
    (hhi : rank Job.newer db.jobs.rows job < q.offset + q.limit) : job ∈ q.rows db := by
  rw [rows_unfiltered hstate]
  refine mem_page_sorted hjob (fun y hy h h' => ?_) hlo hhi
  exact Table.eq_of_key hy hjob (Job.newer_antisymm h' h)

variable [Sha256]

/-- The listing only grows, and what is added to it pushes the others back. -/
theorem rank_mono (ω : ℕ → Txn) {n m : ℕ} (hnm : n ≤ m) {job : Job}
    (hjob : job ∈ (stateAt ω n).jobs.rows) :
    ∃ later ∈ (stateAt ω m).jobs.rows, later.id = job.id ∧
      rank Job.newer (stateAt ω n).jobs.rows job ≤ rank Job.newer (stateAt ω m).jobs.rows later := by
  obtain ⟨k, rfl⟩ := Nat.exists_eq_add_of_le hnm
  have hlater : Later (stateAt ω n) (stateAt ω (n + k)) := by
    rw [stateAt_add]
    exact run_later _ _
  obtain ⟨job', hjob', hl⟩ := hlater.jobs _ job (Table.find?_of_mem hjob)
  exact ⟨job', Table.mem_of_find? hjob', Table.key_of_find? hjob',
    rank_le_of_evolves hlater.jobs fun y y' hy => Job.newer_later hl hy⟩

/-- **No job is missed.**  Whoever reads the unfiltered listing page by page, until a page is not
full, is shown every job that was there at the first page, whatever is admitted, leased, ended
or cancelled between the pages and between the two statements of each. -/
theorem walk_shows_all (ω : ℕ → Txn) {τ : ℕ → ℕ} (hτ : Monotone τ) (τ' : ℕ → ℕ)
    {limit n : ℕ} {q : ℕ → JobsQuery}
    (hq : ∀ i, i ≤ n → (q i).limit = limit ∧ (q i).offset = i * limit ∧ (q i).state = none)
    (hshort : (View.jobs (stateAt ω (τ n)) (stateAt ω (τ' n)) (q n)).length < limit)
    {job : Job} (hjob : job ∈ (stateAt ω (τ 0)).jobs.rows) :
    ∃ i ≤ n, ∃ e ∈ View.jobs (stateAt ω (τ i)) (stateAt ω (τ' i)) (q i), e.id = job.id := by
  -- the version of the job that each page may show
  choose version hversion hid hrank using fun i => rank_mono ω (hτ (Nat.zero_le i)) hjob
  have hmono : ∀ i, rank Job.newer (stateAt ω (τ i)).jobs.rows (version i) ≤
      rank Job.newer (stateAt ω (τ (i + 1))).jobs.rows (version (i + 1)) := by
    intro i
    obtain ⟨later, hmem, hlid, hle⟩ := rank_mono ω (hτ (Nat.le_succ i)) (hversion i)
    have hsame : later = version (i + 1) :=
      Table.eq_of_key hmem (hversion (i + 1)) (hlid.trans ((hid i).trans (hid (i + 1)).symm))
    rwa [hsame] at hle
  have hlast : rank Job.newer (stateAt ω (τ n)).jobs.rows (version n) < (n + 1) * limit := by
    obtain ⟨hl, ho, hs⟩ := hq n le_rfl
    rw [View.jobs, List.length_map, rows_unfiltered hs, ← hl] at hshort
    have hlen := length_lt_of_short hshort
    rw [List.length_insertionSort, hl, ho] at hlen
    have hlt : rank Job.newer (stateAt ω (τ n)).jobs.rows (version n) <
        (stateAt ω (τ n)).jobs.rows.length := rank_lt_length (hversion n)
    rw [Nat.succ_mul]
    omega
  obtain ⟨i, hi, hlo, hhi⟩ := exists_page hmono hlast
  obtain ⟨hl, ho, hs⟩ := hq i hi
  have hmem : version i ∈ (q i).rows (stateAt ω (τ i)) := by
    refine mem_rows_of_rank hs (hversion i) ?_ ?_
    · rwa [ho]
    · rwa [ho, hl, ← Nat.succ_mul]
  exact ⟨i, hi, _, List.mem_map_of_mem hmem, hid i⟩

/-- Two jobs are submitted before the listing is read, and one while it is read. -/
def submittedMeanwhile : ℕ → Txn
  | 0 => { request := .submit .flaky, feed := .still 1 }
  | 1 => { request := .submit .flaky, feed := .still 2 }
  | 2 => { request := .submit .flaky, feed := .still 3 }
  | n + 3 => { request := .recoverJobs 100, feed := .still (n + 4) }

/-- Pages with one job each. -/
def onePerPage (i : ℕ) : JobsQuery where
  limit := 1
  offset := i % 1000
  offset_le := (Nat.mod_lt i (by decide)).le.trans (by decide)

omit [Sha256] in
/-- The older job, first on the second page, is pushed to the third one. -/
theorem walk_shows_all_meanwhile :
    letI := Sha256.tabulated []
    (stateAt submittedMeanwhile 2).jobs.rows.map Job.id = [104, 204] ∧
      ∃ i ≤ 3, ∃ e ∈ View.jobs (stateAt submittedMeanwhile (2 + i))
        (stateAt submittedMeanwhile (3 + i)) (onePerPage i), e.id = 104 := by
  let := Sha256.tabulated []
  have hids : (stateAt submittedMeanwhile 2).jobs.rows.map Job.id = [104, 204] := by
    decide +kernel
  obtain ⟨job, hjob, hid⟩ : ∃ job ∈ (stateAt submittedMeanwhile 2).jobs.rows, job.id = 104 :=
    List.mem_map.mp (by rw [hids]; exact List.mem_cons_self)
  have hshort : (View.jobs (stateAt submittedMeanwhile 5) (stateAt submittedMeanwhile 6)
      (onePerPage 3)).length < 1 := by decide +kernel
  have hmono : Monotone fun i => 2 + i := fun _ _ h => Nat.add_le_add_left h 2
  obtain ⟨i, hi, e, he, heid⟩ := walk_shows_all submittedMeanwhile hmono (fun i => 3 + i)
    (n := 3) (q := onePerPage)
    (fun i hi => ⟨rfl, (Nat.mod_eq_of_lt (by omega)).trans (Nat.mul_one i).symm, rfl⟩)
    hshort hjob
  exact ⟨hids, i, hi, e, he, heid.trans hid⟩

/-! ## Endings -/

omit [Sha256] in
/-- The attempts of a job are listed by their fences, as they stand in the table. -/
theorem attempts_eq {db db' : Database} (hinv : Inv db') {jobId : Uuid} {before after : Job}
    (hbefore : db.jobs.find? jobId = some before) (hafter : db'.jobs.find? jobId = some after) :
    View.attempts db db' jobId = .ok ((attemptsOf db'.attempts jobId).map Attempt.out) ∧
      (attemptsOf db'.attempts jobId).map Attempt.fence = List.range' 1 after.attemptCount := by
  have hid : after.id = jobId := Table.key_of_find? hafter
  have hfences := (hinv.job after (by rw [hid]; exact hafter)).fences
  rw [hid] at hfences
  refine ⟨?_, hfences⟩
  have hsorted : (attemptsOf db'.attempts jobId).Pairwise fun a b => a.fence ≤ b.fence := by
    rw [← List.pairwise_map, hfences]
    exact List.pairwise_le_range'
  rw [View.attempts, hbefore, hsorted.insertionSort_eq]

/-- What a view shows of the end of a job is final: once it shows a terminal state, every later
view shows the same, and a result or an error is only shown if the job has ended by then.  The
attempts are listed by their fences without a gap, all but the last one have failed or expired,
and the last one of an ended job has the output and the error that the job is shown with. -/
theorem views_final (txns more : List Txn) {jobId : Uuid} {e : JobOut}
    (h : View.job (run txns) (run (txns ++ more)) jobId = .ok e) :
    (e.status ∈ terminal → ∀ rest rest',
      View.job (run (txns ++ rest)) (run (txns ++ rest ++ rest')) jobId = .ok e) ∧
    (e.result.isSome = true ∨ e.error.isSome = true →
      ∃ job, (run (txns ++ more)).jobs.find? jobId = some job ∧
        (job.status = .succeeded ∨ job.status = .failed ∨ job.status = .deadLetter)) ∧
    ∃ l, View.attempts (run txns) (run (txns ++ more)) jobId = .ok l ∧
      l.map AttemptOut.fence = List.range' 1 l.length ∧ e.attemptCount ≤ l.length ∧
      (∀ a ∈ l, a.fence < l.length → a.finishedAt.isSome = true ∧
        (a.outcome = some .failed ∨ a.outcome = some .leaseExpired)) ∧
      (e.status = .succeeded ∨ e.status = .failed ∨ e.status = .deadLetter →
        ∃ a ∈ l, a.fence = l.length ∧ a.output = e.result ∧ a.error = e.error) := by
  cases hjob : (run txns).jobs.find? jobId with
  | none => simp [View.job, hjob] at h
  | some job =>
      rw [View.job, hjob, Except.ok.injEq] at h
      have hid : job.id = jobId := Table.key_of_find? hjob
      subst hid
      obtain ⟨later, hlater, hl⟩ := (run_later txns more).jobs _ job hjob
      have hinv := run_inv (txns ++ more)
      have hlid : later.id = job.id := Table.key_of_find? hlater
      have hlrow : (run (txns ++ more)).jobs.find? later.id = some later := by
        rw [hlid]
        exact hlater
      have hjinv := hinv.job later hlrow
      obtain ⟨hattempts, hfences⟩ := attempts_eq hinv hjob hlater
      rw [hlid] at hjinv
      have hlen := hjinv.length_eq
      refine ⟨fun hs rest rest' => ?_, fun hshown => ?_, _, hattempts, ?_, ?_, ?_, ?_⟩
      · have hs : job.status ∈ terminal := by rw [← h] at hs; exact hs
        obtain ⟨hjob', -⟩ := run_terminal hjob hs rest
        have hresult := (run_terminal hjob hs (rest ++ rest')).2
        rw [← (run_terminal hjob hs more).2, ← List.append_assoc] at hresult
        rw [View.job, hjob']
        change Except.ok (serialize job ((run (txns ++ rest ++ rest')).results.find? job.id)) = _
        rw [hresult, h]
      · refine ⟨later, hlater, (hinv.result_iff hlrow).mp ?_⟩
        rw [hlid]
        rw [← h] at hshown
        cases hr : (run (txns ++ more)).results.find? job.id with
        | some r => rfl
        | none => simp [serialize, hr] at hshown
      · rw [List.length_map, hlen, ← hfences, List.map_map]
        rfl
      · rw [List.length_map, hlen, ← h]
        exact hl.2.1
      · intro a ha hlt
        obtain ⟨b, hb, rfl⟩ := List.mem_map.mp ha
        rw [List.length_map, hlen] at hlt
        exact hjinv.past b hb hlt
      · intro hs
        have hstatus : e.status = job.status := by rw [← h]; rfl
        rw [hstatus] at hs
        have hterminal : job.status ∈ terminal := by
          rcases hs with hs | hs | hs <;> rw [hs] <;> decide
        obtain ⟨hsame, -⟩ := run_terminal hjob hterminal more
        obtain rfl := Option.some.inj (hlater.symm.trans hsame)
        obtain ⟨a, ha, hfence⟩ := hjinv.exists_current (hjinv.tried (by
          rcases hs with hs | hs | hs <;> simp [hs]) (by
          rcases hs with hs | hs | hs <;> simp [hs]))
        refine ⟨a.out, List.mem_map_of_mem ha, ?_, ?_⟩
        · rw [List.length_map, hlen]
          exact hfence
        · -- the result row has the output and the error of the last attempt
          have hfit := hjinv.current a ha hfence
          obtain ⟨hmem, -⟩ := mem_attemptsOf.mp ha
          have hcarries := ended_carries (txns ++ more) (Table.find?_of_mem hmem)
          rw [← h]
          rcases hs with hs | hs | hs <;> simp only [Fits, hs] at hfit
          · have hnone := hcarries hfit.1
            rw [if_pos hfit.2.1] at hnone
            simp [serialize, hfit.2.2, Attempt.out, hnone]
          · have hnone := hcarries hfit.1
            rw [hfit.2.1, if_neg (by simp)] at hnone
            simp [serialize, hfit.2.2, Attempt.out, hnone]
          · have hnone := hcarries hfit.1.1
            rw [if_neg (by rcases hfit.1.2 with ho | ho <;> simp [ho])] at hnone
            simp [serialize, hfit.2.2, Attempt.out, hnone]

omit [Sha256] in
/-- A view of a running job that the completion has overtaken. -/
theorem views_final_overtaken :
    letI := Sha256.tabulated []
    ∃ e, View.job (run runningAttempt) (run (runningAttempt ++ [finishing 5 .one])) 104 = .ok e ∧
      e.status = .running ∧ e.result.isSome = true ∧
      ∃ job, (run (runningAttempt ++ [finishing 5 .one])).jobs.find? 104 = some job ∧
        (job.status = .succeeded ∨ job.status = .failed ∨ job.status = .deadLetter) := by
  let := Sha256.tabulated []
  have hview : (View.job (run runningAttempt) (run (runningAttempt ++ [finishing 5 .one]))
      104).isOk = true := by decide +kernel
  obtain ⟨e, he⟩ := exists_ok hview
  have hfields : (View.job (run runningAttempt) (run (runningAttempt ++ [finishing 5 .one]))
      104).toOption.map (fun e => (e.status, e.result.isSome)) = some (.running, true) := by
    decide +kernel
  rw [he] at hfields
  obtain ⟨hstatus, hresult⟩ := Prod.mk.inj (Option.some.inj hfields)
  obtain ⟨-, hended, -⟩ := views_final runningAttempt [finishing 5 .one] he
  exact ⟨e, he, hstatus, hresult, hended (Or.inl hresult)⟩

end GreyQueue
