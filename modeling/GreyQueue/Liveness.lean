import Mathlib.Data.Finset.Order
import Mathlib.Data.Fintype.Card
import Mathlib.Data.Rat.Cast.Order
import GreyQueue.Acknowledgement
import GreyQueue.Convergence
import GreyQueue.Leasing

/-!
# No state is stuck

Whatever has happened, the jobs that are left can be brought to an end without the clients:
recovery expires what is held, and one healthy worker that can do the tasks finishes the rest,
each job with the first attempt it is given.  The dependencies never stand in the way: among the
jobs that wait, the oldest ones can be leased.

## Main definitions

* `Calm` — nothing is held, and nothing waits for a failed parent.
* `Able` — the worker can be given every job.

## Main results

* `Calm.exists_claimable` — a waiting job can be leased.
* `Calm.serve_one` — one claim, one start and one completion end a job.
* `backlog_ends` — every reachable state can be brought to an end.
-/

namespace GreyQueue

open Lib
open Lib.Prog (Sat sat_bind)

/-! ## What can be leased -/

/-- No job is held, and no job waits for a parent that has failed. -/
structure Calm (db : Database) : Prop where
  idle : ∀ job ∈ db.jobs.rows, job.status.held = false
  unblocked : ∀ job ∈ db.jobs.rows, job.status.waiting = true → ¬ FailedParent db job

theorem DepInv.parent_row {db : Database} (h : DepInv db) {job : Job} {p : Uuid}
    (hjob : job ∈ db.jobs.rows) (hp : job.dependsOn = some p) :
    ∃ parent, db.jobs.find? p = some parent := by
  have hmem : (job.id, job.dependsOn) ∈ lineage db.jobs := List.mem_map_of_mem hjob
  obtain ⟨pre, post, heq⟩ := List.append_of_mem hmem
  have hin : p ∈ (lineage db.jobs).map Prod.fst := by
    rw [heq, List.map_append]
    exact List.mem_append_left _ (h.grounded pre _ post heq p hp)
  simp only [lineage, List.map_map, List.mem_map, Function.comp] at hin
  obtain ⟨parent, hparent, rfl⟩ := hin
  exact ⟨parent, Table.find?_of_mem hparent⟩

/-- Among the jobs that wait there is one that can be leased, once its time has come. -/
theorem Calm.exists_claimable {db : Database} (h : Calm db) (hdep : DepInv db) {job : Job}
    (hjob : job ∈ db.jobs.rows) (hwait : job.status.waiting = true) {w : Worker} {τ : Time}
    (htask : ∀ job ∈ db.jobs.rows, job.task ∈ w.capabilities)
    (htime : ∀ job ∈ db.jobs.rows, job.availableAt ≤ τ) :
    ∃ job ∈ db.jobs.rows, claimable db w τ job = true := by
  -- the first one in the order of the dependencies
  obtain ⟨k, ⟨first, hfirst, hfwait⟩, hmin⟩ := hdep.wellFounded.has_min
    {k | ∃ job, db.jobs.find? k = some job ∧ job.status.waiting = true}
    ⟨job.id, job, Table.find?_of_mem hjob, hwait⟩
  have hmem := Table.mem_of_find? hfirst
  refine ⟨first, hmem, claimable_iff.mpr ⟨hfwait, htime first hmem, htask first hmem, ?_⟩⟩
  cases hp : first.dependsOn with
  | none => exact Or.inl rfl
  | some p =>
      right
      obtain ⟨parent, hparent⟩ := hdep.parent_row hmem hp
      have hpmem := Table.mem_of_find? hparent
      have hpid : parent.id = p := Table.key_of_find? hparent
      have hnotwait : parent.status.waiting ≠ true := fun hpw =>
        hmin p ⟨parent, hparent, hpw⟩ ⟨first, hfirst, hp⟩
      have hnotfailed : ¬ (parent.status = .failed ∨ parent.status = .deadLetter ∨
          parent.status = .cancelled) := fun hs =>
        h.unblocked first hmem hfwait ⟨p, parent, hp, hparent, hs⟩
      refine readyParent_iff.mpr ⟨parent, hpmem, by rw [hp, hpid], ?_⟩
      have hidle := h.idle parent hpmem
      cases hs : parent.status <;> simp_all [Status.waiting, Status.held]

theorem Calm.no_open {db : Database} (h : Calm db) (hinv : Inv db) :
    ∀ a ∈ db.attempts.rows, a.isOpen = false := by
  intro a ha
  by_contra hopen
  obtain ⟨job, hjob⟩ := hinv.attempt_job a ha
  have hid : job.id = a.jobId := Table.key_of_find? hjob
  have hold : Holds db job a :=
    ⟨by rw [hid]; exact hjob, Table.find?_of_mem ha, hid.symm,
      by simpa [Attempt.isOpen] using hopen⟩
  obtain ⟨-, -, -, hheld, -⟩ := hinv.holds hold
  rw [h.idle job (Table.mem_of_find? hjob)] at hheld
  cases hheld

/-! ## The owner of a lease, in time -/

section Owner

variable {A : Moment → Prop} {db : Database} {job : Job} {a : Attempt}

/-- `owned` on the current attempt of a held job, while the lease is running. -/
theorem sat_owned_held (hold : Holds db job a) (hf : a.fence = job.attemptCount)
    (hA : ∀ m, A m → m.time < a.expiresAt) (allowFinished : Bool) {α : Type}
    {k : Job × Attempt → Tx α} {Q : Except Error α → Database → Prop}
    (h : Sat A (k (job, a)) db Q) :
    Sat A (owned job.id a.workerId a.id allowFinished >>= k) db Q := by
  refine (sat_bind _ _ _).mpr ((sat_bind _ _ _).mpr
    (sat_getJob (by simp [hold.job_row]) fun job' hjob' => ?_))
  rw [hold.job_row, Option.some.injEq] at hjob'
  subst hjob'
  refine sat_read (fun _ => rfl) fun _ _ => ?_
  simp only [hold.attempt_row]
  rw [if_neg (by simp [hold.attempt_job]), if_neg (by simp [hold.is_open]),
    if_neg (by simp [hold.is_open, hf])]
  refine sat_databaseTime fun m hm => ?_
  rw [if_neg (not_le.mpr (hA m hm))]
  exact h

/-- A start of a lease that is still running. -/
theorem sat_start_leased (hold : Holds db job a) (hf : a.fence = job.attemptCount)
    (hs : job.status = .leased) (hA : ∀ m, A m → m.time < a.expiresAt) :
    Sat A (start job.id a.workerId a.id) db fun r d => r = .ok () ∧
      ∃ t s, d = (Change.start job a t s).effect db := by
  refine sat_owned_held hold hf hA false ?_
  simp only [hs]
  refine sat_databaseTime fun m _ => sat_flush rfl ((sat_bind _ _ _).mpr ?_)
  exact sat_transition (by simp [hs, transitions]) fun s => ⟨rfl, m.time, s, rfl⟩

/-- A completion of a running attempt, while its lease is running. -/
theorem sat_finish_running (hinv : Inv db) (hold : Holds db job a)
    (hs : job.status = .running) (hA : ∀ m, A m → m.time < a.expiresAt) (output : Option Json)
    (retryable : Bool) :
    Sat A (finish job.id a.workerId a.id output none retryable) db fun r d => r = .ok () ∧
      ∃ t s, (Change.succeed job a output t s).guard db ∧
        d = (Change.succeed job a output t s).effect db := by
  obtain ⟨-, -, hf, hheld, -⟩ := hinv.holds hold
  have hnone := hinv.no_result job hold.job_row hheld
  refine sat_owned_held hold hf hA true ?_
  simp only
  rw [if_neg (by simp [hold.is_open]), if_neg (by simp [hf])]
  refine sat_databaseTime fun m hm => ?_
  rw [if_neg (not_le.mpr (hA m hm)), if_neg (by simp [hs])]
  refine sat_flush rfl (sat_databaseTime fun n _ => sat_flush rfl ?_)
  refine sat_flush (apply_addResult hnone) ((sat_bind _ _ _).mpr ?_)
  refine sat_transition (by simp [hs, transitions]) fun st => ⟨rfl, n.time, st, ?_, ?_⟩
  · exact ⟨hold, hf, hs, hnone⟩
  · simp [Change.effect, Attempt.deliver, Table.put_put]

end Owner

/-! ## One job -/

/-- The worker can be given every job. -/
structure Able [Sha256] (db : Database) (k : String) (credential : Option String) (w : Worker) :
    Prop where
  row : db.workers.find? k = some w
  healthy : w.state = .healthy
  capacity : 0 < w.capacity
  session : sessionOk w.sessionHash credential = true
  tasks : ∀ job ∈ db.jobs.rows, job.task ∈ w.capabilities

/-- The clock reads `τ`, and the key that is drawn is `u`. -/
def momentAt (τ : Time) (u : Uuid) : Moment :=
  { Moment.still 0 0 with time := τ, start := τ, uuid := u }

/-- The claim of the worker's first slot. -/
def claimTxn (config : Settings) (k : String) (credential : Option String) (c u : Uuid)
    (τ : Time) : Txn where
  config
  request := .claim { Claim.first with workerId := k, claimId := c } credential
  feed := fun _ => momentAt τ u

/-- The start of an attempt of the worker. -/
def startTxn (config : Settings) (k : String) (credential : Option String) (jobId token : Uuid)
    (τ : Time) : Txn where
  config
  request := .start jobId ⟨k, token⟩ credential
  feed := fun _ => momentAt τ token

/-- The completion of an attempt of the worker. -/
def finishTxn (config : Settings) (k : String) (credential : Option String) (jobId token : Uuid)
    (τ : Time) : Txn where
  config
  request := .finish jobId { Completion.empty token with workerId := k } credential
  feed := fun _ => momentAt τ token

/-- A claim, a start or a completion of the worker, in its session. -/
def Request.Works (k : String) (credential : Option String) : Request → Prop
  | .claim body c => body.workerId = k ∧ c = credential
  | .start _ body c => body.workerId = k ∧ c = credential
  | .finish _ body c => body.workerId = k ∧ c = credential
  | _ => False

/-- The three transactions that serve a job. -/
def serveTxns (config : Settings) (k : String) (credential : Option String) (jobId c u : Uuid)
    (τ : Time) : List Txn :=
  [claimTxn config k credential c u τ, startTxn config k credential jobId u τ,
    finishTxn config k credential jobId u τ]

variable [Sha256] {db : Database} {k : String} {credential : Option String} {w : Worker}

/-- A request whose session is accepted, and whose operation returns. -/
theorem commit_identified {t : Txn} {α : Type} {p : Tx α} {f : α → Response}
    (hserve : serve t.config t.request = identity k credential >>= fun _ => p >>= fun x =>
      pure (f x)) (hw : db.workers.find? k = some w)
    (hok : sessionOk w.sessionHash credential = true) {A : Moment → Prop}
    (hA : ∀ n, A (t.feed n)) {a : α} {Q : Database → Prop}
    (hsat : Sat A p db fun r d => r = .ok a ∧ Q d) : Q (commit db t) := by
  obtain ⟨hresult, hstate⟩ := hsat.exec (f := fun n => t.feed (n + 1)) fun n => hA (n + 1)
  have houtcome : t.outcome db =
      (p >>= fun x => pure (f x)).exec (fun n => t.feed (n + 1)) db := by
    rw [Txn.outcome, hserve, exec_identity hw, if_pos hok]
  rw [Prog.exec_bind, hresult] at houtcome
  rw [commit, Txn.answer, houtcome]
  exact hstate

/-- A claim of a worker that can be given a job. -/
theorem commit_claim_calm (hinv : Inv db) (hcalm : Calm db) (hable : Able db k credential w)
    (config : Settings) {c u : Uuid} {τ : Time} (hu : db.attempts.find? u = none)
    (hc : ∀ b ∈ db.attempts.rows, b.claimId ≠ c)
    (hready : ∃ job ∈ db.jobs.rows, claimable db w τ job = true) :
    ∃ job a s, (Change.lease w job a τ s).guard db ∧ a.id = u ∧ a.workerId = k ∧
      a.expiresAt = τ + config.leaseSeconds ∧
      commit db (claimTxn config k credential c u τ) = (Change.lease w job a τ s).effect db := by
  have hid : w.id = k := Table.key_of_find? hable.row
  have hslot : ∀ b ∈ db.attempts.rows, b.workerId = k → b.slot = 0 → b.isOpen = false :=
    fun b hb _ _ => hcalm.no_open hinv b hb
  -- no row is locked, so the query has a head
  obtain ⟨job, hjob⟩ : ∃ job, config.scheduler.head w τ (momentAt τ u) db = some job := by
    obtain ⟨job, hmem, hclaimable⟩ := hready
    refine Option.isSome_iff_exists.mp (List.find?_isSome.mpr ⟨job, ?_, rfl⟩)
    exact mem_query.mpr ⟨hmem, hclaimable⟩
  obtain ⟨w', hw', hrange, hanswer⟩ := answer_admitted (u := claimTxn config k credential c u τ)
    rfl ⟨w, hable.row, hable.session, hable.capacity⟩
  rw [hable.row, Option.some.injEq] at hw'
  subst hw'
  obtain ⟨hmem, hclaimable⟩ := mem_query.mp (List.mem_of_find?_eq_some hjob)
  have hidle := hinv.idle job (Table.find?_of_mem hmem) (claimable_iff.mp hclaimable).1
  have hexec := exec_claim_free hable.row hrange hc hslot config.scheduler config.leaseSeconds
    fun n => (claimTxn config k credential c u τ).feed (n + 1)
  rw [if_neg (by simp [hable.healthy]),
    (exec_lease_some _ hjob hc (hid ▸ hslot) hidle).1 hu] at hexec
  obtain ⟨hans, hstate⟩ := hanswer hexec
  have hg : (leaseOf w 0 c config.leaseSeconds (fun _ => momentAt τ u) job).guard db :=
    leaseOf_guard (by rw [hid]; exact hable.row) hable.healthy hrange hjob hc
      (by rw [hid]; exact hslot) hu
  refine ⟨job, newAttempt w 0 c config.leaseSeconds (fun _ => momentAt τ u) job, ⟨τ, τ⟩, hg, rfl,
    hid, rfl, ?_⟩
  rw [commit, hans]
  exact hstate

section Commits

variable (config : Settings) (credential : Option String) {job : Job} {a : Attempt} {τ : Time}
  (hable : ∃ w, db.workers.find? a.workerId = some w ∧ sessionOk w.sessionHash credential = true)
  (hold : Holds db job a) (hlive : τ < a.expiresAt)

include hable hold hlive

/-- The start of a lease that is still running. -/
theorem commit_start_leased (hf : a.fence = job.attemptCount) (hs : job.status = .leased) :
    ∃ t s, (Change.start job a t s).guard db ∧
      commit db (startTxn config a.workerId credential job.id a.id τ) =
        (Change.start job a t s).effect db := by
  obtain ⟨w, hrow, hok⟩ := hable
  obtain ⟨t, s, heq⟩ := commit_identified (t := startTxn config a.workerId credential job.id a.id τ)
    (p := start job.id a.workerId a.id) rfl hrow hok (A := fun m => m.time < a.expiresAt)
    (fun _ => hlive) (Q := fun d => ∃ t s, d = (Change.start job a t s).effect db)
    (sat_start_leased hold hf hs fun _ h => h)
  exact ⟨t, s, ⟨hold, hf, hs⟩, heq⟩

/-- The completion of a running attempt, while its lease is running. -/
theorem commit_finish_running (hinv : Inv db) (hs : job.status = .running) :
    ∃ t s, commit db (finishTxn config a.workerId credential job.id a.id τ) =
      (Change.succeed job a (some (.obj [])) t s).effect db := by
  obtain ⟨w, hrow, hok⟩ := hable
  refine commit_identified (p := finish job.id a.workerId a.id (some (.obj [])) none false) rfl
    hrow hok (A := fun m => m.time < a.expiresAt) (fun _ => hlive) (a := ())
    (Q := fun d => ∃ t s, d = (Change.succeed job a (some (.obj [])) t s).effect db) ?_
  exact (sat_finish_running hinv hold hs (fun _ h => h) (some (.obj [])) false).mono
    fun r d ⟨hr, t, s, _, hd⟩ => ⟨hr, t, s, hd⟩

end Commits

/-- What one job that is served leaves behind: its row has succeeded, there is one attempt more,
and the workers are as they were. -/
structure ServedOne (db d : Database) (job : Job) : Prop where
  waiting : job.status.waiting = true
  row : db.jobs.find? job.id = some job
  jobs : ∃ job', d.jobs = db.jobs.put job' ∧ job'.id = job.id ∧ job'.status = .succeeded ∧
    job'.task = job.task ∧ job'.availableAt = job.availableAt
  attempts : d.attempts.rows.length = db.attempts.rows.length + 1
  workers : d.workers = db.workers

/-- One claim, one start and one completion end a job that waits. -/
theorem Calm.serve_one (hinv : Inv db) (hcalm : Calm db) (hable : Able db k credential w)
    (config : Settings) {c u : Uuid} {τ : Time} (hu : db.attempts.find? u = none)
    (hc : ∀ b ∈ db.attempts.rows, b.claimId ≠ c)
    (hready : ∃ job ∈ db.jobs.rows, claimable db w τ job = true) :
    ∃ job, ServedOne db ((serveTxns config k credential job.id c u τ).foldl commit db) job := by
  obtain ⟨job, a, s, hg, haid, hworker, hexpiry, hclaim⟩ :=
    commit_claim_calm hinv hcalm hable config hu hc hready
  subst haid hworker
  have hlive : τ < a.expiresAt := by
    have := config.lease_range.1
    rw [hexpiry]
    linarith
  have hrow : ∃ w, db.workers.find? a.workerId = some w ∧
      sessionOk w.sessionHash credential = true := ⟨w, hable.row, hable.session⟩
  -- the job is leased
  obtain ⟨d, hd⟩ : ∃ d, d = (Change.lease w job a τ s).effect db := ⟨_, rfl⟩
  have hinvd : Inv d := hd ▸ hinv.effect hg
  have hold : Holds d (job.leased s) a := by
    rw [hd]
    exact ⟨Table.find?_put_self (r := job.leased s) hg.job_row, Table.find?_add_self hg.fresh,
      hg.attempt_job, hg.is_new.1⟩
  obtain ⟨t, s', hge, hstart⟩ :=
    commit_start_leased config credential (by rw [hd]; exact hrow) hold hlive
      hg.fence rfl
  -- the attempt is running
  obtain ⟨e, he⟩ : ∃ e, e = (Change.start (job.leased s) a t s').effect d := ⟨_, rfl⟩
  have hinve : Inv e := he ▸ hinvd.effect hge
  have holde : Holds e ((job.leased s).enter .running s') { a with startedAt := some t } := by
    rw [he]
    refine ⟨Table.find?_put_self (r := (job.leased s).enter .running s') hold.job_row, ?_,
      hg.attempt_job, hg.is_new.1⟩
    exact Table.find?_put_self (r := { a with startedAt := some t }) hold.attempt_row
  obtain ⟨t', s'', hfinish⟩ :=
    commit_finish_running config credential (by rw [he, hd]; exact hrow) holde
      hlive hinve rfl
  have hfold : (serveTxns config a.workerId credential job.id c a.id τ).foldl commit db =
      (Change.succeed ((job.leased s).enter .running s') { a with startedAt := some t }
        (some (.obj [])) t' s'').effect e := by
    have hstart' : commit d (startTxn config a.workerId credential job.id a.id τ) = e :=
      hstart.trans he.symm
    rw [serveTxns, List.foldl_cons, hclaim, ← hd, List.foldl_cons, hstart', List.foldl_cons,
      List.foldl_nil]
    exact hfinish
  refine ⟨job, (claimable_iff.mp hg.ready).1, hg.job_row,
    ⟨((job.leased s).enter .running s').enter .succeeded s'', ?_, rfl, rfl, rfl, rfl⟩, ?_, ?_⟩
  · rw [hfold, he, hd]
    simp [Change.effect, Table.put_put, Job.leased, Job.enter]
  · rw [hfold, he, hd]
    simp [Change.effect, Table.rows_put, Table.rows_add hg.fresh]
  · rw [hfold, he, hd]
    rfl

namespace ServedOne

variable {d : Database} {job : Job}

omit [Sha256] in
theorem mem_rows (h : ServedOne db d job) {x : Job} (hx : x ∈ d.jobs.rows) :
    x.status = .succeeded ∨ x ∈ db.jobs.rows := by
  obtain ⟨job', hjobs, -, hs, -⟩ := h.jobs
  rw [hjobs] at hx
  rcases Table.mem_put.mp hx with ⟨hx, -⟩ | ⟨rfl, -⟩
  · exact Or.inr hx
  · exact Or.inl hs

omit [Sha256] in
theorem calm (h : ServedOne db d job) (hcalm : Calm db) : Calm d where
  idle := by
    intro x hx
    rcases h.mem_rows hx with hs | hx
    · simp [hs, Status.held]
    · exact hcalm.idle x hx
  unblocked := by
    rintro x hx hwait ⟨p, parent, hp, hprow, hfail⟩
    have hsame : ∀ {y : Job}, y ∈ d.jobs.rows → y.status ≠ .succeeded → y ∈ db.jobs.rows :=
      fun hy hne => (h.mem_rows hy).resolve_left hne
    have hxne : x.status ≠ .succeeded := fun hs => by simp [hs, Status.waiting] at hwait
    have hpne : parent.status ≠ .succeeded := fun hs => by simp [hs] at hfail
    have hpid : parent.id = p := Table.key_of_find? hprow
    refine hcalm.unblocked x (hsame hx hxne) hwait ⟨p, parent, hp, ?_, hfail⟩
    rw [← hpid]
    exact Table.find?_of_mem (hsame (Table.mem_of_find? hprow) hpne)

theorem able (h : ServedOne db d job) (hable : Able db k credential w) : Able d k credential w where
  row := h.workers ▸ hable.row
  healthy := hable.healthy
  capacity := hable.capacity
  session := hable.session
  tasks := by
    obtain ⟨job', hjobs, -, -, htask, -⟩ := h.jobs
    intro x hx
    rw [hjobs] at hx
    rcases Table.mem_put.mp hx with ⟨hx, -⟩ | ⟨rfl, -⟩
    · exact hable.tasks x hx
    · rw [htask]
      exact hable.tasks job (Table.mem_of_find? h.row)

omit [Sha256] in
theorem due (h : ServedOne db d job) {τ : Time} (htime : ∀ x ∈ db.jobs.rows, x.availableAt ≤ τ) :
    ∀ x ∈ d.jobs.rows, x.availableAt ≤ τ := by
  obtain ⟨job', hjobs, -, -, -, hdue⟩ := h.jobs
  intro x hx
  rw [hjobs] at hx
  rcases Table.mem_put.mp hx with ⟨hx, -⟩ | ⟨rfl, -⟩
  · exact htime x hx
  · rw [hdue]
    exact htime job (Table.mem_of_find? h.row)

omit [Sha256] in
theorem waitingJobs_lt (h : ServedOne db d job) : waitingJobs d + 1 = waitingJobs db := by
  obtain ⟨job', hjobs, hid, hs, -⟩ := h.jobs
  have hcount := Table.countP_put (fun j => j.status.waiting) (fun j => j.status.waiting) h.row hid
    fun _ _ _ => rfl
  rw [if_pos h.waiting, if_neg (by simp [hs, Status.waiting])] at hcount
  rw [waitingJobs, waitingJobs, hjobs]
  exact hcount

end ServedOne

/-! ## The whole backlog -/

omit [Sha256] in
/-- There is a key that no row has. -/
theorem exists_fresh (l : List Uuid) (h : l.length < 2 ^ 128) : ∃ u, u ∉ l := by
  have hlt : l.toFinset.card < (Finset.univ : Finset Uuid).card := by
    rw [Finset.card_univ, Fintype.card_fin]
    exact l.toFinset_card_le.trans_lt h
  obtain ⟨u, -, hu⟩ := Finset.exists_mem_notMem_of_card_lt_card hlt
  exact ⟨u, fun hmem => hu (List.mem_toFinset.mpr hmem)⟩

omit [Sha256] in
theorem terminal_of_idle {s : Status} (hwait : s.waiting = false) (hheld : s.held = false) :
    s ∈ terminal := by
  cases s <;> simp_all [Status.waiting, Status.held, terminal]

/-- One worker serves all that wait, three transactions a job. -/
theorem serve_all (config : Settings) {τ : Time} (n : ℕ) (txns : List Txn)
    (hn : waitingJobs (run txns) = n) (hcalm : Calm (run txns))
    (hable : Able (run txns) k credential w)
    (htime : ∀ job ∈ (run txns).jobs.rows, job.availableAt ≤ τ)
    (hroom : (run txns).attempts.rows.length + n ≤ 2 ^ 128) :
    ∃ work : List Txn, work.length = 3 * n ∧
      (∀ t ∈ work, t.request.Works k credential ∧ ∀ i, (t.feed i).time = τ) ∧
      ∀ job ∈ (run (txns ++ work)).jobs.rows, job.status = .succeeded ∨
        (job ∈ (run txns).jobs.rows ∧ job.status ∈ terminal) := by
  induction n generalizing txns with
  | zero =>
      refine ⟨[], rfl, by simp, fun job hjob => Or.inr ?_⟩
      rw [List.append_nil] at hjob
      have hnot := List.countP_eq_zero.mp hn job hjob
      exact ⟨hjob, terminal_of_idle (by simpa using hnot) (hcalm.idle job hjob)⟩
  | succ n ih =>
      have hpos : 0 < waitingJobs (run txns) := by omega
      obtain ⟨job, hjob, hwait⟩ := List.countP_pos_iff.mp hpos
      have hready := hcalm.exists_claimable (run_depInv txns) hjob hwait hable.tasks htime
      obtain ⟨u, hu⟩ := exists_fresh ((run txns).attempts.rows.map Attempt.id)
        (by rw [List.length_map]; omega)
      obtain ⟨c, hc⟩ := exists_fresh ((run txns).attempts.rows.map Attempt.claimId)
        (by rw [List.length_map]; omega)
      obtain ⟨next, hserved⟩ := hcalm.serve_one (run_inv txns) hable config
        (Table.find?_eq_none.mpr fun a ha heq => hu (List.mem_map.mpr ⟨a, ha, heq⟩))
        (fun a ha heq => hc (List.mem_map.mpr ⟨a, ha, heq⟩)) hready
      rw [← run_append] at hserved
      have hcount := hserved.waitingJobs_lt
      obtain ⟨work, hlength, hwork, hrows⟩ := ih _ (by omega) (hserved.calm hcalm)
        (hserved.able hable) (hserved.due htime) (by rw [hserved.attempts]; omega)
      refine ⟨serveTxns config k credential next.id c u τ ++ work, ?_, ?_, ?_⟩
      · rw [List.length_append, hlength]
        simp only [serveTxns, List.length_cons, List.length_nil]
        omega
      · intro t ht
        rcases List.mem_append.mp ht with ht | ht
        · simp only [serveTxns, List.mem_cons, List.not_mem_nil, or_false] at ht
          rcases ht with rfl | rfl | rfl <;> exact ⟨⟨rfl, rfl⟩, fun _ => rfl⟩
        · exact hwork t ht
      · intro x hx
        rw [List.append_assoc] at hrows
        rcases hrows x hx with hs | ⟨hx, hs⟩
        · exact Or.inl hs
        · exact (hserved.mem_rows hx).imp id fun hx => ⟨hx, hs⟩

/-! ## What is held -/

/-- A sweep of recovery at `τ`, with its default limit. -/
def sweepAt (config : Settings) (τ : Time) : Txn where
  config
  request := .recoverJobs 100
  feed := fun _ => momentAt τ 0

omit [Sha256] in
theorem allSweep_sweepAt (config : Settings) (τ : Time) :
    AllSweep τ fun _ => sweepAt config τ :=
  fun _ => ⟨100, by norm_num, rfl, fun _ => ⟨rfl, rfl, fun _ => rfl⟩⟩

section Sweeps

variable (txns : List Txn) {τ : Time} {sweeps : ℕ → Txn} (hsweeps : AllSweep τ sweeps)

include hsweeps

/-- Sweeps come to an end. -/
theorem exists_stable : ∃ n, Stable τ (sweepRun txns sweeps n) := by
  by_contra hnever
  have hmeasure : ∀ n, sweepMeasure τ (sweepRun txns sweeps n) + n ≤
      sweepMeasure τ (sweepRun txns sweeps 0) := by
    intro n
    induction n with
    | zero => rfl
    | succ n ih =>
        rcases sweepRun_progress hsweeps txns n with ⟨hstable, -⟩ | ⟨-, hlt⟩
        · exact absurd ⟨n, hstable⟩ hnever
        · omega
  have := hmeasure (sweepMeasure τ (sweepRun txns sweeps 0) + 1)
  omega

theorem sweepRun_workers (n : ℕ) : (sweepRun txns sweeps n).workers = (run txns).workers := by
  induction n with
  | zero => simp [sweepRun]
  | succ n ih =>
      obtain ⟨limit, -, hsweep⟩ := hsweeps n
      obtain ⟨count, cs, mid, cs', hcs, hcs', -⟩ := commit_sweep (run_inv _) hsweep
      rw [sweepRun_succ]
      refine (hcs.append hcs').invariant (I := fun d => d.workers = (run txns).workers) ?_ ih
      intro c d _ hc hd
      cases c <;> first | exact hd | exact hc.elim

theorem sweepRun_tasks (n : ℕ) {job' : Job} (h : job' ∈ (sweepRun txns sweeps n).jobs.rows) :
    ∃ job ∈ (run txns).jobs.rows, job'.task = job.task := by
  obtain ⟨job, hjob, hrec⟩ :=
    (sweepRun_recovered hsweeps txns n).job_origin (Table.find?_of_mem h)
  refine ⟨job, Table.mem_of_find? hjob, ?_⟩
  rcases hrec with ⟨rfl, -⟩ | ⟨-, ⟨t, s, rfl⟩, -⟩ | ⟨-, -, ⟨s, rfl⟩, -⟩ <;> rfl

/-- Once every lease has run out, sweeps that stop leave nothing held and nothing blocked. -/
theorem calm_of_stable {n : ℕ} (hstable : Stable τ (sweepRun txns sweeps n))
    (hexp : ∀ a ∈ (run txns).attempts.rows, a.expiresAt ≤ τ) :
    Calm (sweepRun txns sweeps n) where
  idle := by
    intro job hjob
    by_contra hheld
    have hrow := Table.find?_of_mem hjob
    have hinv : Inv (sweepRun txns sweeps n) := run_inv _
    obtain ⟨-, a, ha, -, hopen, -⟩ := (hinv.job job hrow).of_held (by simpa using hheld)
    obtain ⟨ha, haj⟩ := mem_attemptsOf.mp ha
    have hopen' := (sweepRun_recovered hsweeps txns n).open_row (Table.find?_of_mem ha) hopen.1
    have hexpired := leaseExpired_iff.mpr
      ⟨by simpa using hheld, a, ha, haj, hopen.1, hexp a (Table.mem_of_find? hopen')⟩
    rw [hstable.not_leaseExpired hrow] at hexpired
    cases hexpired
  unblocked := by
    intro job hjob hwait hfailed
    have hblocked := parentFailed_iff.mpr ⟨hwait, hfailed⟩
    rw [hstable.not_parentFailed (Table.find?_of_mem hjob)] at hblocked
    cases hblocked

end Sweeps

/-- **No state is stuck.** Whatever has happened, sweeps of recovery and one healthy worker that
can do every task bring every job to an end, from any time on: sweeps first, and then three
transactions of the worker for each job that waits, a claim, a start and a completion.  What had
not ended by then succeeds. -/
theorem backlog_ends (config : Settings) (txns : List Txn) (now : Time) (k : String)
    (credential : Option String) (w : Worker) (hable : Able (run txns) k credential w)
    (hroom : (run txns).attempts.rows.length + (run txns).jobs.rows.length ≤ 2 ^ 128) :
    ∃ (sweeps work : List Txn) (τ τ' : Time), now ≤ τ ∧ τ ≤ τ' ∧
      (∀ t ∈ sweeps, t.request = .recoverJobs 100 ∧ ∀ i, (t.feed i).time = τ) ∧
      (∀ t ∈ work, t.request.Works k credential ∧ ∀ i, (t.feed i).time = τ') ∧
      work.length = 3 * waitingJobs (run (txns ++ sweeps)) ∧
      ∀ job ∈ (run (txns ++ sweeps ++ work)).jobs.rows, job.status = .succeeded ∨
        (job ∈ (run (txns ++ sweeps)).jobs.rows ∧ job.status ∈ terminal) := by
  -- a time at which every lease has run out
  obtain ⟨τ, hτ⟩ := (insert now ((run txns).attempts.rows.map Attempt.expiresAt).toFinset).exists_le
  have hexp : ∀ a ∈ (run txns).attempts.rows, a.expiresAt ≤ τ := fun a ha =>
    hτ _ (Finset.mem_insert_of_mem (List.mem_toFinset.mpr (List.mem_map_of_mem ha)))
  have hsweeps := allSweep_sweepAt config τ
  obtain ⟨n, hstable⟩ := exists_stable txns hsweeps
  have hcalm := calm_of_stable txns hsweeps hstable hexp
  have hrecovered := sweepRun_recovered hsweeps txns n
  obtain ⟨sweeps, hlist⟩ : ∃ sweeps, sweeps = (List.range n).map fun _ => sweepAt config τ :=
    ⟨_, rfl⟩
  have hrun : sweepRun txns (fun _ => sweepAt config τ) n = run (txns ++ sweeps) := by
    rw [hlist]
    rfl
  have hable' : Able (run (txns ++ sweeps)) k credential w := by
    refine ⟨?_, hable.healthy, hable.capacity, hable.session, fun job' hjob' => ?_⟩
    · rw [← hrun, sweepRun_workers txns hsweeps]
      exact hable.row
    · obtain ⟨job, hjob, htask⟩ := sweepRun_tasks txns hsweeps n (hrun ▸ hjob')
      exact htask ▸ hable.tasks job hjob
  -- a time at which every job is due
  obtain ⟨τ', hτ'⟩ :=
    (insert τ ((run (txns ++ sweeps)).jobs.rows.map Job.availableAt).toFinset).exists_le
  have hdue : ∀ job ∈ (run (txns ++ sweeps)).jobs.rows, job.availableAt ≤ τ' := fun job hjob =>
    hτ' _ (Finset.mem_insert_of_mem (List.mem_toFinset.mpr (List.mem_map_of_mem hjob)))
  have hjobs := congrArg List.length hrecovered.job_ids
  have hattempts := congrArg List.length hrecovered.attempt_ids
  rw [hrun, List.length_map, List.length_map] at hjobs hattempts
  have hwaiting : waitingJobs (run (txns ++ sweeps)) ≤ (run (txns ++ sweeps)).jobs.rows.length :=
    List.countP_le_length
  rw [hrun] at hcalm
  obtain ⟨work, hlength, hwork, hrows⟩ :=
    serve_all config _ (txns ++ sweeps) rfl hcalm hable' hdue (by omega)
  have hnow := hτ now (Finset.mem_insert_self _ _)
  have hlater := hτ' τ (Finset.mem_insert_self _ _)
  refine ⟨sweeps, work, τ, τ', hnow, hlater, fun t ht => ?_, hwork, hlength, hrows⟩
  rw [hlist] at ht
  obtain ⟨-, -, rfl⟩ := List.mem_map.mp ht
  exact ⟨rfl, fun _ => rfl⟩

omit [Sha256] in
/-- A job is leased and another one waits for it. -/
theorem backlog_ends_leased :
    letI := Sha256.tabulated []
    ∃ (sweeps work : List Txn) (τ τ' : Time), 100 ≤ τ ∧ τ ≤ τ' ∧
      (∀ t ∈ sweeps, t.request = .recoverJobs 100 ∧ ∀ i, (t.feed i).time = τ) ∧
      (∀ t ∈ work, t.request.Works Registration.first.workerId
        (some Registration.first.sessionToken) ∧ ∀ i, (t.feed i).time = τ') ∧
      work.length = 3 * waitingJobs (run (leasedParent ++ sweeps)) ∧
      ∀ job ∈ (run (leasedParent ++ sweeps ++ work)).jobs.rows, job.status = .succeeded ∨
        (job ∈ (run (leasedParent ++ sweeps)).jobs.rows ∧ job.status ∈ terminal) := by
  let := Sha256.tabulated []
  have hrow : ((run leasedParent).workers.find? Registration.first.workerId).isSome = true := by
    decide +kernel
  obtain ⟨w, hw⟩ := Option.isSome_iff_exists.mp hrow
  have hfacts : ∀ w ∈ (run leasedParent).workers.rows, w.state = .healthy ∧ 0 < w.capacity ∧
      sessionOk w.sessionHash (some Registration.first.sessionToken) = true ∧
      ∀ job ∈ (run leasedParent).jobs.rows, job.task ∈ w.capabilities := by decide +kernel
  obtain ⟨hhealthy, hcapacity, hsession, htasks⟩ := hfacts w (Table.mem_of_find? hw)
  have hable : Able (run leasedParent) Registration.first.workerId
      (some Registration.first.sessionToken) w := ⟨hw, hhealthy, hcapacity, hsession, htasks⟩
  have hroom : (run leasedParent).attempts.rows.length + (run leasedParent).jobs.rows.length ≤
      2 ^ 128 := by decide +kernel
  exact backlog_ends .standard leasedParent 100 Registration.first.workerId
    (some Registration.first.sessionToken) w hable hroom

end GreyQueue
