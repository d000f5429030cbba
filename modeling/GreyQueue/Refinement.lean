import GreyQueue.Rules

/-!
# Transactions are lists of changes

Every request that returns has made a list of changes, each enabled where it happens
and each of the kind that the request allows.  A request that raises leaves the
database as it was, and no constraint is ever violated except by a collision of fresh
primary keys.

## Main definitions

* `Allowed` — the changes a request may make.
* `Makes` — a database is reached by enabled changes of a kind.

## Main results

* `sat_serve` — every execution of a request makes allowed changes.
* `commit_makes`, `run_inv` — the same for committed transactions and for runs.
-/

namespace GreyQueue

open Lib
open Lib.Prog (Sat sat_bind)

/-- `db'` is reached from `db` by enabled changes, all in `P`. -/
def Makes (P : Change → Prop) (db db' : Database) : Prop :=
  ∃ cs, changes.Path cs db ∧ (∀ c ∈ cs, P c) ∧ db' = changes.after cs db

namespace Makes

variable {P : Change → Prop} {db db' : Database}

theorem refl (db : Database) : Makes P db db := ⟨[], trivial, by simp, rfl⟩

theorem snoc (h : Makes P db db') {c : Change} (hg : c.guard db') (hc : P c) :
    Makes P db (c.effect db') := by
  obtain ⟨cs, hp, hall, rfl⟩ := h
  refine ⟨cs ++ [c], (changes.path_append _ _ _).mpr ⟨hp, hg, trivial⟩, ?_, by simp [changes]⟩
  intro d hd
  rcases List.mem_append.mp hd with hd | hd
  · exact hall d hd
  · rw [List.mem_singleton.mp hd]; exact hc

theorem single {c : Change} (hg : c.guard db) (hc : P c) : Makes P db (c.effect db) :=
  (refl db).snoc hg hc

/-- What every allowed change preserves, all of them preserve. -/
theorem invariant (h : Makes P db db') {I : Database → Prop}
    (hstep : ∀ c, P c → ∀ d, c.guard d → I d → I (c.effect d)) (hi : I db) : I db' := by
  obtain ⟨cs, hp, hall, rfl⟩ := h
  exact hp.invariant (fun c hc d hg => hstep c (hall c hc) d hg) hi

theorem inv (h : Makes P db db') (hi : Inv db) : Inv db' :=
  h.invariant (fun _ _ _ hg hi => hi.effect hg) hi

theorem mono {P' : Change → Prop} (h : Makes P db db') (hP : ∀ c, P c → P' c) :
    Makes P' db db' := by
  obtain ⟨cs, hp, hall, heq⟩ := h
  exact ⟨cs, hp, fun c hc => hP c (hall c hc), heq⟩

end Makes

variable [Sha256]

/-- The changes that a request may make. -/
def Allowed (config : Settings) : Request → Change → Prop
  | .submit body, .admitted job queueLimit submissionsPerMinute _ _ =>
      queueLimit = config.queueLimit ∧ submissionsPerMinute = config.submissionsPerMinute ∧
        ∃ id args d t, validate body.task body.args = .ok args ∧ definition body args = .ok d ∧
          job = newJob id body args (digest d) t
  | .cancel jobId, .cancel job _ => job.id = jobId
  | .drain workerId, .drain w => w.id = workerId
  | .drain _, .log _ => True
  | .register body, .enroll w => ∃ now, w = body.worker now
  | .register body, .seen w _ => w.id = body.workerId ∧ w.state = .dead ∧
      w.sessionHash.getD "" = Sha256.hexdigest body.sessionToken
  | .register body, .takeover w body' hash _ =>
      w.id = body.workerId ∧ body' = body ∧ hash = Sha256.hexdigest body.sessionToken
  | .register _, .log _ => True
  | .heartbeat workerId _, .seen w _ => w.id = workerId
  | .heartbeat _ _, .log _ => True
  | .claim body _, .lease w _ a _ _ =>
      w.id = body.workerId ∧ a.slot = body.slot ∧ a.claimId = body.claimId
  | .start jobId body _, .start job a _ _ =>
      job.id = jobId ∧ a.id = body.token ∧ a.workerId = body.workerId
  | .renew jobId body _, .renew job a _ =>
      job.id = jobId ∧ a.id = body.token ∧ a.workerId = body.workerId
  | .finish jobId body _, .succeed job a output _ _ =>
      (job.id = jobId ∧ a.id = body.token ∧ a.workerId = body.workerId) ∧
        body.error = none ∧ output = body.json
  | .finish jobId body _, .retry job a outcome error _ _ _ =>
      (job.id = jobId ∧ a.id = body.token ∧ a.workerId = body.workerId) ∧
        body.error = some error ∧ body.retryable = true ∧ outcome = .failed
  | .finish jobId body _, .fail job a outcome error retryable _ _ =>
      (job.id = jobId ∧ a.id = body.token ∧ a.workerId = body.workerId) ∧
        body.error = some error ∧ retryable = body.retryable ∧ outcome = .failed
  | .recoverJobs _, .retry _ _ outcome error _ _ _ =>
      outcome = .leaseExpired ∧ error = leaseExpiredError
  | .recoverJobs _, .fail _ _ outcome error retryable _ _ =>
      outcome = .leaseExpired ∧ error = leaseExpiredError ∧ retryable = true
  | .recoverJobs _, .cancel _ _ => True
  | .recoverJobs _, .log _ => True
  | .detectWorkers, .mark _ _ => True
  | .detectWorkers, .log _ => True
  | _, _ => False

/-- The changes that a request may make at moments in `A`. -/
def Timely (A : Moment → Prop) (config : Settings) (request : Request) (c : Change) : Prop :=
  Allowed config request c ∧ c.Timed A config.leaseSeconds

/-- The session check that a request has passed. -/
def Authorised (db : Database) : Request → Prop
  | .heartbeat workerId credential => Accepts db workerId credential
  | .claim body credential => Accepts db body.workerId credential
  | .start _ body credential => Accepts db body.workerId credential
  | .renew _ body credential => Accepts db body.workerId credential
  | .finish _ body credential => Accepts db body.workerId credential
  | _ => True

/-- The attempt was completed by this finish, or by one that it repeats. -/
def Acknowledges (a : Attempt) (jobId : Uuid) (body : Completion) : Prop :=
  a.jobId = jobId ∧ a.workerId = body.workerId ∧ a.finishedAt.isSome = true ∧
    (a.outcome = some .succeeded ∨ a.outcome = some .failed) ∧
    (a.output = body.json ∨ outputEq a.output body.json = true) ∧ a.error = body.error

/-- What an answer says: a created job is stored with the digest of its definition, a claim
is given an open attempt made by its claim id, and a recorded completion is on record. -/
def Answers (db' : Database) : Request → Response → Prop
  | .submit body, .submitted job true =>
      db'.jobs.find? job.id = some job ∧ job.idempotencyKey = body.idempotencyKey ∧
        ∃ args d, validate body.task body.args = .ok args ∧ definition body args = .ok d ∧
          job.requestHash = some (digest d)
  | .claim body _, .assignment (some (job, a)) =>
      db'.attempts.find? a.id = some a ∧ a.claimId = body.claimId ∧
        a.workerId = body.workerId ∧ a.slot = body.slot ∧ a.finishedAt = none ∧ a.jobId = job.id
  | .finish jobId body _, _ =>
      ∃ a, db'.attempts.find? body.token = some a ∧ Acknowledges a jobId body
  | _, _ => True

/-- An error that is not a violated constraint, unless fresh primary keys collide. -/
def Benign (e : Error) : Prop :=
  ∀ name, e = .integrity name → name = "attempts_pkey" ∨ name = "jobs_pkey"

omit [Sha256] in
theorem Benign.of_ne {e : Error} (h : ∀ name, e ≠ .integrity name) : Benign e :=
  fun name he => absurd he (h name)

/-- The postcondition of a request. -/
def Served (A : Moment → Prop) (config : Settings) (request : Request) (db : Database) :
    Except Error Response → Database → Prop
  | .ok response, db' => Makes (Timely A config request) db db' ∧ Authorised db request ∧
      Answers db' request response
  | .error e, _ => Benign e

/-! ## The loops -/

section Loops

variable {A : Moment → Prop} {db : Database} (config : Settings)

/-- The rows that a loop has still to visit are current, and satisfy `p`. -/
def Pending (p : Job → Bool) (db : Database) (jobs : List Job) : Prop :=
  (jobs.map Job.id).Nodup ∧ ∀ j ∈ jobs, db.jobs.find? j.id = some j ∧ p j = true

omit [Sha256] in
/-- Rewriting the first row leaves the others pending. -/
theorem Pending.tail {p : Job → Bool} {db db' : Database} {job : Job} (job' : Job) {jobs : List Job}
    (h : Pending p db (job :: jobs)) (hid : job'.id = job.id)
    (hjobs : db'.jobs = db.jobs.put job') : Pending p db' jobs := by
  obtain ⟨hnodup, hall⟩ := h
  rw [List.map_cons, List.nodup_cons] at hnodup
  refine ⟨hnodup.2, fun j hj => ⟨?_, (hall j (List.mem_cons_of_mem _ hj)).2⟩⟩
  have hne : job'.id ≠ j.id := by
    rw [hid]
    exact fun h' => hnodup.1 (h' ▸ List.mem_map_of_mem hj)
  rw [hjobs, Table.find?_put_ne _ hne]
  exact (hall j (List.mem_cons_of_mem _ hj)).1

omit [Sha256] in
theorem Pending.skip {p : Job → Bool} {db : Database} {job : Job} {jobs : List Job}
    (h : Pending p db (job :: jobs)) : Pending p db jobs :=
  ⟨(List.nodup_cons.mp h.1).2, fun j hj => h.2 j (List.mem_cons_of_mem _ hj)⟩

/-- The change fails only attempts of these jobs. -/
def Change.Expires (jobs : List Job) : Change → Prop
  | .retry job _ _ _ _ _ _ => job ∈ jobs
  | .fail job _ _ _ _ _ _ => job ∈ jobs
  | _ => True

/-- The changes of a recovery that has selected these jobs. -/
def Recovers (A : Moment → Prop) (config : Settings) (limit : ℕ) (jobs : List Job) (c : Change) :
    Prop :=
  Timely A config (.recoverJobs limit) c ∧ c.Expires jobs

/-- The two loops of `recover_jobs`, on held jobs. -/
theorem sat_recoverLoops {limit : ℕ} (hinv : Inv db) {jobs : List Job}
    (hjobs : Pending (fun j => j.status.held) db jobs) {Q : Except Error ℕ → Database → Prop}
    (h : ∀ n db', Makes (Recovers A config limit jobs) db db' → Q (.ok n) db') :
    Sat A (do
      Prog.forEach jobs expire
      let blocked ← Prog.issue (.blockedJobs limit)
      Prog.forEach blocked fun job => do
        let _ ← transition job .cancelled
      pure jobs.length) db Q := by
  refine (sat_bind _ _ _).mpr (Sat.forEach (I := fun rest d =>
    Makes (Recovers A config limit jobs) db d ∧ Pending (fun j => j.status.held) d rest ∧ rest ⊆ jobs) ?_ ?_ jobs db
    ⟨.refl db, hjobs, List.Subset.refl jobs⟩)
  · rintro d ⟨hmake, -⟩
    refine sat_read (fun _ => rfl) fun l' _ => (sat_bind _ _ _).mpr ?_
    refine Sat.forEach (I := fun rest d => Makes (Recovers A config limit jobs) db d ∧
      Pending (fun j => j.status.waiting) d rest) ?_ ?_ _ d ⟨hmake, nodup_rows, ?_⟩
    · rintro d ⟨hmake, -⟩
      exact h _ d hmake
    · rintro job rest d ⟨hmake, hpend⟩
      obtain ⟨hrow, hwait⟩ := hpend.2 job List.mem_cons_self
      refine (sat_bind _ _ _).mpr (sat_transition ?_ fun s => ?_)
      · exact Status.cancelled_mem hwait
      · exact ⟨hmake.snoc (c := .cancel job s) ⟨hrow, hwait⟩ ⟨⟨trivial, trivial⟩, trivial⟩,
          hpend.tail (job.enter .cancelled s) rfl rfl⟩
    · intro j hj
      obtain ⟨hrow, hp⟩ := current_rows hj
      simp only [parentFailed, Bool.and_eq_true] at hp
      exact ⟨hrow, hp.1.2⟩
  · rintro job rest d ⟨hmake, hpend, hsub⟩
    obtain ⟨hrow, hheld⟩ := hpend.2 job List.mem_cons_self
    have hmem : job ∈ jobs := hsub List.mem_cons_self
    have hrest : rest ⊆ jobs := List.Subset.trans (List.subset_cons_self job rest) hsub
    refine sat_expire (l := config.leaseSeconds) (hmake.inv hinv) hrow hheld
      (fun _ => ⟨hmake, hpend.skip, hrest⟩) ?_ ?_
    · intro a _ t t' s e _ _ hg htimed
      exact ⟨(hmake.snoc hg ⟨⟨⟨rfl, rfl⟩, htimed⟩, hmem⟩).snoc (c := .log e) trivial
          ⟨⟨trivial, trivial⟩, trivial⟩,
        hpend.tail (Job.enter { job with availableAt := t' } .retryWait s) rfl rfl, hrest⟩
    · intro a _ t s e _ _ hg htimed
      exact ⟨(hmake.snoc hg ⟨⟨⟨rfl, rfl, rfl⟩, htimed⟩, hmem⟩).snoc (c := .log e) trivial
          ⟨⟨trivial, trivial⟩, trivial⟩,
        hpend.tail (job.enter .deadLetter s) rfl rfl, hrest⟩

omit [Sha256] in
/-- The jobs that recovery selects are held. -/
theorem pending_expired {m : Moment} {timestamp : Time} {limit : ℕ} :
    Pending (fun j => j.status.held) db
      (m.take limit (db.jobs.rows.filter (leaseExpired db timestamp))) := by
  refine ⟨nodup_rows, fun j hj => ?_⟩
  obtain ⟨hrow, hp⟩ := current_rows hj
  simp only [leaseExpired, Bool.and_eq_true] at hp
  exact ⟨hrow, hp.1⟩

theorem sat_recoverJobs {limit : ℕ} (hinv : Inv db) {Q : Except Error ℕ → Database → Prop}
    (h : ∀ n db', Makes (Timely A config (.recoverJobs limit)) db db' → Q (.ok n) db') :
    Sat A (recoverJobs limit) db Q := by
  refine sat_read (fun _ => rfl) fun m _ => ?_
  split
  swap
  · exact h 0 db (.refl db)
  refine sat_databaseTime fun n _ => sat_read (fun _ => rfl) fun l _ => ?_
  exact sat_recoverLoops config hinv pending_expired
    fun k db' hmake => h k db' (hmake.mono fun _ hc => hc.1)

theorem sat_detectWorkers {suspectAfter deadAfter : ℚ} {Q : Except Error Unit → Database → Prop}
    (h : ∀ db', Makes (Timely A config .detectWorkers) db db' → Q (.ok ()) db') :
    Sat A (detectWorkers suspectAfter deadAfter) db Q := by
  refine sat_databaseTime fun m _ => sat_read (fun _ => rfl) fun n _ => ?_
  refine Sat.forEach (I := fun rest d => Makes (Timely A config .detectWorkers) db d ∧
    (rest.map Worker.id).Nodup ∧
    ∀ w ∈ rest, d.workers.find? w.id = some w ∧ w.state ≠ .dead) ?_ ?_ _ db ⟨.refl db, ?_, ?_⟩
  · rintro d ⟨hmake, -⟩
    exact h d hmake
  · rintro w rest d ⟨hmake, hnodup, hall⟩
    obtain ⟨hrow, halive⟩ := hall w List.mem_cons_self
    rw [List.map_cons, List.nodup_cons] at hnodup
    refine sat_detect hrow halive
      ⟨hmake, hnodup.2, fun v hv => hall v (List.mem_cons_of_mem _ hv)⟩ fun state e hg => ?_
    refine ⟨(hmake.snoc hg ⟨trivial, trivial⟩).snoc (c := .log e) trivial ⟨trivial, trivial⟩,
      hnodup.2, fun v hv => ?_⟩
    have hv' := hall v (List.mem_cons_of_mem _ hv)
    refine ⟨?_, hv'.2⟩
    have hne : w.id ≠ v.id := fun h' => hnodup.1 (h' ▸ List.mem_map_of_mem hv)
    exact (Table.find?_put_ne _ hne).trans hv'.1
  · exact nodup_selected
  · intro w hw
    obtain ⟨hrow, hsilent, -⟩ := mem_selected.mp hw
    simp only [silent, Bool.and_eq_true, decide_eq_true_eq] at hsilent
    exact ⟨hrow, hsilent.1⟩

end Loops

/-! ## Requests -/

variable {A : Moment → Prop} {db : Database}

omit [Sha256] in
/-- A waiting job has no open attempt. -/
theorem Inv.idle (h : Inv db) (job : Job) (hjob : db.jobs.find? job.id = some job)
    (hw : job.status.waiting = true) (b : Attempt) (hb : b ∈ db.attempts.rows)
    (hbj : b.jobId = job.id) : b.isOpen = false := by
  by_contra ho
  have ho : b.finishedAt = none := by simpa [Attempt.isOpen] using ho
  obtain ⟨-, hheld, -⟩ := (h.job job hjob).of_open (mem_attemptsOf.mpr ⟨hb, hbj⟩) ho
  exact Status.not_held_of_waiting hw hheld

omit [Sha256] in
/-- A held job has no result. -/
theorem Inv.no_result (h : Inv db) {jobId : Uuid} (job : Job)
    (hjob : db.jobs.find? jobId = some job) (hheld : job.status.held = true) :
    db.results.find? job.id = none := by
  have hid : job.id = jobId := Table.key_of_find? hjob
  exact ((h.job job (hid ▸ hjob)).of_held hheld).1

omit [Sha256] in
/-- A rewritten attempt is found under its token. -/
theorem Holds.find?_put {job : Job} {a b : Attempt} (hold : Holds db job a) (hid : b.id = a.id)
    {token : Uuid} (htoken : a.id = token) : (db.attempts.put b).find? token = some b := by
  have hrow : db.attempts.find? b.id = some a := hid ▸ hold.attempt_row
  rw [← htoken, ← hid]
  exact Table.find?_put_self hrow

omit [Sha256] in
/-- A delivered attempt acknowledges its completion. -/
theorem Acknowledges.deliver (hinv : Inv db) {job : Job} {a : Attempt} (hold : Holds db job a)
    {body : Completion} (haw : a.workerId = body.workerId) (he : body.error = none) (t : Time) :
    Acknowledges (a.deliver body.json t) job.id body := by
  obtain ⟨-, -, -, -, hpend, -⟩ := hinv.holds hold
  exact ⟨hold.attempt_job, haw, rfl, Or.inl rfl, Or.inl rfl, hpend.2.2.2.trans he.symm⟩

omit [Sha256] in
/-- A failed attempt acknowledges its completion. -/
theorem Acknowledges.close (hinv : Inv db) {job : Job} {a : Attempt} (hold : Holds db job a)
    {body : Completion} (haw : a.workerId = body.workerId) {e : String}
    (he : body.error = some e) (t : Time) :
    Acknowledges (a.close .failed e t) job.id body := by
  obtain ⟨-, -, -, -, hpend, -⟩ := hinv.holds hold
  have hout : (a.close .failed e t).output = body.json :=
    hpend.2.2.1.trans (Completion.json_none (by simp [he])).symm
  exact ⟨hold.attempt_job, haw, rfl, Or.inr rfl, Or.inl hout, he.symm⟩

/-- Every execution of a request makes allowed changes, or raises a benign error. -/
theorem sat_serve (hinv : Inv db) (config : Settings) (request : Request) :
    Sat A (serve config request) db (Served A config request db) := by
  have hbad : Benign (.unauthorized "Invalid worker session") := .of_ne (by simp)
  have hpk : Benign (.integrity "attempts_pkey") := by intro name h; cases h; exact Or.inl rfl
  have hpk' : Benign (.integrity "jobs_pkey") := by intro name h; cases h; exact Or.inr rfl
  cases request with
  | submit body =>
      refine (sat_bind _ _ _).mpr (sat_admitJob ?_ ?_ ?_ ?_)
      · intro e he
        exact .of_ne (validate_error he).ne_integrity
      · intro args e _ he
        rw [definition_error he]
        exact .of_ne (by simp)
      · intro args d k j _ _ _ _ _
        split
        · exact ⟨.refl db, trivial, trivial⟩
        · exact .of_ne (by simp)
      · intro args d hv hd hkey
        refine sat_create hkey (fun _ h => .of_ne h.ne_integrity) (fun _ _ _ _ => hpk') ?_
        intro id t n n' hg hread
        exact ⟨.single hg ⟨⟨rfl, rfl, id, args, d, t, hv, hd, rfl⟩, hread⟩, trivial,
          Table.find?_add_self hg.fresh, rfl, args, d, hv, hd, rfl⟩
  | cancel jobId =>
      refine (sat_bind _ _ _).mpr (sat_cancel (fun _ => .of_ne (by simp))
        (fun _ _ => .of_ne (by simp)) ⟨.refl db, trivial, trivial⟩ fun job s hid hg => ?_)
      exact ⟨.single hg ⟨hid, trivial⟩, trivial, trivial⟩
  | drain workerId =>
      refine (sat_bind _ _ _).mpr (sat_drain (fun _ h => .of_ne h.ne_integrity) fun w hid hg => ?_)
      have hmake := Makes.single (P := Timely A config (.drain workerId)) hg ⟨hid, trivial⟩
      exact ⟨⟨hmake, trivial, trivial⟩,
        fun e => ⟨hmake.snoc (c := .log e) trivial ⟨trivial, trivial⟩, trivial, trivial⟩⟩
  | register body =>
      refine (sat_bind _ _ _).mpr (sat_register (fun _ _ _ => .of_ne (by simp)) ?_ ?_ ?_ ?_)
      · intro now e hg
        exact ⟨(Makes.single hg ⟨⟨now, rfl⟩, trivial⟩).snoc (c := .log e) trivial
          ⟨trivial, trivial⟩, trivial, trivial⟩
      · intro w _ _ _
        exact ⟨.refl db, trivial, trivial⟩
      · intro w t e hid hg hsame hdead
        exact ⟨(Makes.single hg ⟨⟨hid, hdead, hsame⟩, trivial⟩).snoc (c := .log e) trivial
          ⟨trivial, trivial⟩, trivial, trivial⟩
      · intro w t e hid hg
        exact ⟨(Makes.single hg ⟨⟨hid, rfl, rfl⟩, trivial⟩).snoc (c := .log e) trivial
          ⟨trivial, trivial⟩, trivial, trivial⟩
  | heartbeat workerId credential =>
      refine (sat_bind _ _ _).mpr (sat_heartbeat hbad fun w t hid hacc hg => ⟨?_, fun e => ?_⟩)
      · exact ⟨.single hg ⟨hid, trivial⟩, hacc, trivial⟩
      · exact ⟨(Makes.single (c := .log e) trivial ⟨trivial, trivial⟩).snoc (c := .seen w t) hg
          ⟨hid, trivial⟩, hacc, trivial⟩
  | claim body credential =>
      refine (sat_bind _ _ _).mpr (sat_identity hbad fun v _ hacc => (sat_bind _ _ _).mpr ?_)
      refine sat_claim hinv.idle (fun _ h => .of_ne h.ne_integrity) (fun _ => hpk) (by simp) ?_
        ⟨.refl db, hacc, trivial⟩ ?_
      · intro w job a _ _ hjob ha hac haw has hopen
        exact ⟨.refl db, hacc, Table.find?_of_mem ha, hac _ rfl, haw, has, hopen,
          (Table.key_of_find? hjob).symm⟩
      · intro w job a t s hid hg htimed has hclaim
        have hac := hclaim _ rfl
        exact ⟨.single hg ⟨⟨hid, has, hac⟩, htimed⟩, hacc, Table.find?_add_self hg.fresh, hac,
          hg.attempt_worker.trans hid, has, hg.is_new.1, hg.attempt_job⟩
  | start jobId body credential =>
      refine (sat_bind _ _ _).mpr (sat_identity hbad fun v _ hacc => (sat_bind _ _ _).mpr ?_)
      refine sat_start (l := config.leaseSeconds) (fun _ => .of_ne (by simp))
        (fun _ _ => .of_ne (by simp)) ?_ ?_
      · intros
        exact ⟨.refl db, hacc, trivial⟩
      · intro job a m t s _ hg htimed _ haid haw hid
        exact ⟨.single hg ⟨⟨hid, haid, haw⟩, htimed⟩, hacc, trivial⟩
  | renew jobId body credential =>
      refine (sat_bind _ _ _).mpr (sat_identity hbad fun v _ hacc => (sat_bind _ _ _).mpr ?_)
      refine sat_renew (fun _ => .of_ne (by simp)) (fun _ _ => .of_ne (by simp)) ?_
      intro job a m t _ hg htimed _ haid haw hid
      exact ⟨.single hg ⟨⟨hid, haid, haw⟩, htimed⟩, hacc, trivial⟩
  | finish jobId body credential =>
      refine (sat_bind _ _ _).mpr (sat_identity hbad fun v _ hacc => (sat_bind _ _ _).mpr ?_)
      refine sat_finish (l := config.leaseSeconds) (fun _ => .of_ne (by simp))
        (fun _ _ => .of_ne (by simp)) hinv.no_result
        ?_ ?_ ?_ ?_
      · intro job a _ ha haj haw hfin hout hoeq herr
        exact ⟨.refl db, hacc, a, ha, haj, haw, hfin, hout, Or.inr hoeq, herr⟩
      · intro he job a m t s _ hg htimed _ haid haw hid
        subst hid
        exact ⟨.single hg ⟨⟨⟨rfl, haid, haw⟩, he, rfl⟩, htimed⟩, hacc, _,
          hg.1.find?_put (b := a.deliver body.json t) rfl haid,
          .deliver hinv hg.1 haw he t⟩
      · intro e he hr job a m t t' s _ hg htimed _ haid haw hid
        subst hid
        exact ⟨.single hg ⟨⟨⟨rfl, haid, haw⟩, he, hr, rfl⟩, htimed⟩, hacc, _,
          hg.1.find?_put (b := a.close .failed e t) rfl haid,
          .close hinv hg.1 haw he t⟩
      · intro e he job a m t s _ hg htimed _ haid haw hid
        subst hid
        exact ⟨.single hg ⟨⟨⟨rfl, haid, haw⟩, he, rfl, rfl⟩, htimed⟩, hacc, _,
          hg.1.find?_put (b := a.close .failed e t) rfl haid,
          .close hinv hg.1 haw he t⟩
  | recoverJobs limit =>
      refine (sat_bind _ _ _).mpr (sat_recoverJobs config hinv fun n db' hmake => ?_)
      exact ⟨hmake, trivial, trivial⟩
  | detectWorkers =>
      refine (sat_bind _ _ _).mpr (sat_detectWorkers config fun db' hmake => ?_)
      exact ⟨hmake, trivial, trivial⟩

/-! ## Runs -/

/-- The moments that the statements of a transaction run in. -/
def Txn.Moments (t : Txn) (m : Moment) : Prop := ∃ n, m = t.feed n

/-- What a transaction that runs alone has done. -/
theorem Txn.served (t : Txn) (hinv : Inv db) :
    Served t.Moments t.config t.request db (t.answer db) (t.outcome db).state :=
  (sat_serve hinv t.config t.request).exec fun n => ⟨n, rfl⟩

/-- A transaction that raises is rolled back. -/
theorem commit_error {t : Txn} {e : Error} (h : t.answer db = .error e) : commit db t = db := by
  rw [commit, h]

/-- A committed transaction makes allowed changes, with the times it has read; one that
raises makes none. -/
theorem commit_timely (hinv : Inv db) (t : Txn) :
    ∃ cs, changes.Path cs db ∧ (∀ c ∈ cs, Timely t.Moments t.config t.request c) ∧
      commit db t = changes.after cs db ∧
      (cs ≠ [] → ∃ response, t.answer db = .ok response) := by
  have h := t.served hinv
  cases hr : t.answer db with
  | error e => exact ⟨[], trivial, by simp, commit_error hr, by simp⟩
  | ok response =>
      rw [hr] at h
      obtain ⟨cs, hp, hall, heq⟩ := h.1
      exact ⟨cs, hp, hall, by rw [commit, hr]; exact heq, fun _ => ⟨response, rfl⟩⟩

theorem commit_changes (hinv : Inv db) (t : Txn) :
    ∃ cs, changes.Path cs db ∧ (∀ c ∈ cs, Allowed t.config t.request c) ∧
      commit db t = changes.after cs db ∧
      (cs ≠ [] → ∃ response, t.answer db = .ok response) := by
  obtain ⟨cs, hp, hall, heq, hans⟩ := commit_timely hinv t
  exact ⟨cs, hp, fun c hc => (hall c hc).1, heq, hans⟩

theorem commit_makes (hinv : Inv db) (t : Txn) :
    Makes (Allowed t.config t.request) db (commit db t) := by
  obtain ⟨cs, hp, hall, heq, -⟩ := commit_changes hinv t
  exact ⟨cs, hp, hall, heq⟩

/-- What a transaction that returned has answered. -/
theorem commit_answers (hinv : Inv db) {t : Txn} {response : Response}
    (h : t.answer db = .ok response) :
    Authorised db t.request ∧ Answers (commit db t) t.request response := by
  have hs := t.served hinv
  rw [h] at hs
  rw [commit, h]
  exact hs.2

/-- What every change of a transaction preserves, the transaction preserves. -/
theorem commit_invariant (hinv : Inv db) {t : Txn} {I : Database → Prop}
    (hstep : ∀ c d, Timely t.Moments t.config t.request c → Inv d → c.guard d → I d →
      I (c.effect d)) (h : I db) : Inv (commit db t) ∧ I (commit db t) := by
  obtain ⟨cs, hp, hall, heq, -⟩ := commit_timely hinv t
  rw [heq]
  exact hp.invariant (I := fun d => Inv d ∧ I d)
    (fun c hc d hg hd => ⟨hd.1.effect hg, hstep c d (hall c hc) hd.1 hg hd.2⟩) ⟨hinv, h⟩

/-- What every change of every transaction preserves, the run satisfies. -/
theorem run_invariant_of {I : Database → Prop} (h0 : I {}) {txns : List Txn}
    (hstep : ∀ t ∈ txns, ∀ c db, Timely t.Moments t.config t.request c → Inv db → c.guard db →
      I db → I (c.effect db)) : Inv (run txns) ∧ I (run txns) := by
  suffices h : ∀ db, Inv db ∧ I db → Inv (txns.foldl commit db) ∧ I (txns.foldl commit db) from
    h {} ⟨Inv.empty, h0⟩
  induction txns with
  | nil => exact fun _ h => h
  | cons t txns ih =>
      intro db h
      refine ih (fun u hu => hstep u (List.mem_cons_of_mem t hu)) _ ?_
      exact commit_invariant h.1 (hstep t List.mem_cons_self) h.2

theorem run_invariant {I : Database → Prop} (h0 : I {})
    (hstep : ∀ (c : Change) db, Inv db → c.guard db → I db → I (c.effect db))
    (txns : List Txn) : Inv (run txns) ∧ I (run txns) :=
  run_invariant_of h0 fun _ _ c db _ => hstep c db

/-- Every reachable database satisfies the invariant. -/
theorem run_inv (txns : List Txn) : Inv (run txns) :=
  (run_invariant (I := fun _ => True) trivial (fun _ _ _ _ _ => trivial) txns).1

end GreyQueue
