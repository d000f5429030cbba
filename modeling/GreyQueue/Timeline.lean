import GreyQueue.Leasing
import GreyQueue.Locking
import GreyQueue.Observability

/-!
# Timelines

A transaction has one start, which the server writes where the code gives no time, and
reads the clock whenever it asks for it.  It may wait for a row in between, so the two can be
far apart.  The times of one attempt are in order all the same: it is created with
the start of a claim, and started and finished with readings of transactions that had
to wait for the row of its job.  Between attempts, and between a job and its first attempt,
the order holds exactly if no claim leases what changed after it had started.

## Main definitions

* `Clocked` — what the clocks and the row locks promise.
* `Ordered` — the timelines of all jobs are in order.
* `OnTime` — the claim starts after the job that it selects was left to it.

## Main results

* `attempt_inOrder` — the times of an attempt are always in order.
* `timelines_ordered` — all timelines, along a run.
-/

namespace GreyQueue

open Lib
open Lib.Prog (Sat sat_bind)

/-- The times of an attempt are in order. -/
structure Attempt.InOrder (a : Attempt) : Prop where
  started : ∀ s, a.startedAt = some s → a.createdAt ≤ s
  finished : ∀ f, a.finishedAt = some f → a.createdAt ≤ f
  duration : ∀ s f, a.startedAt = some s → a.finishedAt = some f → s ≤ f

/-- The timelines of all jobs are in order: a job is created before its first attempt, the
times of every attempt are in order, and it is finished before the next one is created. -/
structure Ordered (db : Database) : Prop where
  attempts : ∀ a ∈ db.attempts.rows, a.InOrder
  first : ∀ job ∈ db.jobs.rows, ∀ a ∈ attemptsOf db.attempts job.id, a.fence = 1 →
    job.createdAt ≤ a.createdAt
  next : ∀ job ∈ db.jobs.rows, ∀ a ∈ attemptsOf db.attempts job.id,
    ∀ b ∈ attemptsOf db.attempts job.id, b.fence = a.fence + 1 →
    ∀ f, a.finishedAt = some f → f ≤ b.createdAt

section Waits

variable {db : Database} (hinv : Inv db) (h : Ordered db)

include hinv h

/-- No attempt is created before its job. -/
theorem Ordered.created_le {job : Job} (hjob : job ∈ db.jobs.rows) {a : Attempt}
    (ha : a ∈ attemptsOf db.attempts job.id) : job.createdAt ≤ a.createdAt := by
  have hj := hinv.job job (Table.find?_of_mem hjob)
  -- by induction on the fence: the attempt before has finished
  induction hf : a.fence using Nat.strong_induction_on generalizing a with
  | _ n ih =>
      obtain ⟨hpos, hle⟩ := hj.fence_mem ha
      rcases Nat.eq_or_lt_of_le hpos with hone | hone
      · exact h.first job hjob a ha hone.symm
      obtain ⟨b, hb, hbf⟩ : ∃ b ∈ attemptsOf db.attempts job.id, b.fence = a.fence - 1 := by
        have hmem : a.fence - 1 ∈ (attemptsOf db.attempts job.id).map Attempt.fence := by
          rw [hj.fences, List.mem_range'_1]
          omega
        exact List.mem_map.mp hmem
      have hfin := (hj.past b hb (by omega)).1
      obtain ⟨f, hf'⟩ := Option.isSome_iff_exists.mp hfin
      calc job.createdAt ≤ b.createdAt := ih (a.fence - 1) (by omega) hb hbf
        _ ≤ f := (h.attempts b (mem_attemptsOf.mp hb).1).finished f hf'
        _ ≤ a.createdAt := h.next job hjob b hb a ha (by omega) f hf'

theorem Ordered.queueWaits_nonneg (since : Time) : ∀ d ∈ queueWaits db since, 0 ≤ d := by
  intro d hd
  obtain ⟨a, ha, hd⟩ := List.mem_filterMap.mp hd
  obtain ⟨job, hjob, hd⟩ := Option.bind_eq_some_iff.mp hd
  obtain rfl := Option.some.inj hd
  have hid : job.id = a.jobId := Table.key_of_find? hjob
  have hle := h.created_le hinv (Table.mem_of_find? hjob)
    (mem_attemptsOf.mpr ⟨List.mem_of_mem_filter ha, hid.symm⟩)
  linarith

omit hinv in
theorem Ordered.durations_nonneg (since : Time) : ∀ d ∈ durations db since, 0 ≤ d := by
  intro d hd
  obtain ⟨a, ha, hd⟩ := List.mem_filterMap.mp hd
  obtain ⟨s, hs, hd⟩ := Option.bind_eq_some_iff.mp hd
  obtain ⟨f, hf, hd⟩ := Option.bind_eq_some_iff.mp hd
  obtain rfl := Option.some.inj hd
  have hle := (h.attempts a (List.mem_of_mem_filter ha)).duration s f hs hf
  linarith

end Waits

/-! ## Clocks -/

variable [Sha256]

/-- `now()` in every statement of the transaction. -/
def Txn.start (t : Txn) : Time := (t.feed 0).start

/-- The transaction changes the row of the job. -/
def Writes (db : Database) (t : Txn) (jobId : Uuid) : Prop :=
  (commit db t).jobs.find? jobId ≠ db.jobs.find? jobId

/-- The transaction is a claim. -/
def Txn.Claims (t : Txn) : Prop := ∃ body credential, t.request = .claim body credential

/-- Before its statement at position `n`, the transaction has locked the row of the job. -/
def Txn.Locked (t : Txn) (db : Database) (jobId : Uuid) (n : ℕ) : Prop :=
  (serve t.config t.request).Past
    (fun s b => ∃ mode, mode ≠ .keyShare ∧ (Lock.job jobId, mode) ∈ s.takes b) t.feed db n

/-- The moments of the transaction after it has locked the row of the job. -/
def Txn.After (t : Txn) (db : Database) (jobId : Uuid) (m : Moment) : Prop :=
  ∃ n, t.Locked db jobId n ∧ m = t.feed n

/-- What the clocks promise: a transaction has one start, and every reading of the clock
follows it, however long the transaction has waited in between.  Transactions that change the
row of one job hold its lock one after the other until they commit, so a reading that the later
one takes under the lock follows those of the earlier one.  Nothing is promised for a reading
before the lock, as a claim and a recovery take one before they select a row. -/
structure Clocked (txns : List Txn) : Prop where
  start : ∀ t ∈ txns, ∀ n, (t.feed n).start = t.start
  readings : ∀ t ∈ txns, ∀ n, t.start ≤ (t.feed n).time
  rows : ∀ pre t mid u post, txns = pre ++ t :: (mid ++ u :: post) →
    ∀ jobId, Writes (run pre) t jobId → Writes (run (pre ++ t :: mid)) u jobId →
    ∀ m n, u.Locked (run (pre ++ t :: mid)) jobId n → (t.feed m).time ≤ (u.feed n).time

theorem Clocked.of_append {txns more : List Txn} (h : Clocked (txns ++ more)) : Clocked txns where
  start := fun t ht => h.start t (List.mem_append_left _ ht)
  readings := fun t ht => h.readings t (List.mem_append_left _ ht)
  rows := fun pre t mid u post heq => h.rows pre t mid u (post ++ more) (by simp [heq])

/-- A clock that all transactions read one after the other. -/
theorem Clocked.of_pairwise {txns : List Txn} (hstart : ∀ t ∈ txns, ∀ n, (t.feed n).start = t.start)
    (hreadings : ∀ t ∈ txns, ∀ n, t.start ≤ (t.feed n).time)
    (hclock : txns.Pairwise fun t u => ∀ m n, (t.feed m).time ≤ (u.feed n).time) :
    Clocked txns := by
  refine ⟨hstart, hreadings, ?_⟩
  rintro pre t mid u post rfl jobId - - m n -
  exact (List.pairwise_cons.mp (List.pairwise_append.mp hclock).2.1).1 u (by simp) m n

/-! ## Stamps -/

/-- What a transaction does to the times of an attempt: a start gives it a reading under the lock
of its job as `started_at`, and a finish or recovery one as `finished_at`. -/
structure Stamped (db : Database) (t : Txn) (a b : Attempt) : Prop where
  later : a.Later b
  started : b.startedAt = a.startedAt ∨ (a.startedAt = none ∧
    (∃ jobId body credential, t.request = .start jobId body credential) ∧
    ∃ s, b.startedAt = some s ∧ Reads (t.After db a.jobId) s)
  finished : b.finishedAt = a.finishedAt ∨ (a.finishedAt = none ∧
    ((∃ jobId body credential, t.request = .finish jobId body credential) ∨
      ∃ limit, t.request = .recoverJobs limit) ∧
    ∃ f, b.finishedAt = some f ∧ Reads (t.After db a.jobId) f)

/-- A change that stamps an attempt does it with a reading under the lock of its job. -/
def Change.Stamps (t : Txn) (db : Database) : Change → Prop
  | .start job _ startedAt _ => Reads (t.After db job.id) startedAt
  | .succeed job _ _ finishedAt _ => Reads (t.After db job.id) finishedAt
  | .retry job _ _ _ finishedAt _ _ => Reads (t.After db job.id) finishedAt
  | .fail job _ _ _ _ finishedAt _ => Reads (t.After db job.id) finishedAt
  | _ => True

section Locks

variable {db : Database} {t : Txn} {jobId : Uuid} {credential : Option String}

/-- The request checks a session and then locks the job. -/
def Txn.LocksSecond (t : Txn) (jobId : Uuid) : Prop :=
  ∃ (workerId : String) (credential : Option String) (f : Job → Tx Response),
    serve t.config t.request = identity workerId credential >>= fun _ => getJob jobId true >>= f

theorem locksSecond_start {body : Assignment} (h : t.request = .start jobId body credential) :
    t.LocksSecond jobId := by
  refine ⟨body.workerId, credential, ?_⟩
  simp only [h, serve, start, owned, Prog.bind_assoc]
  exact ⟨_, rfl⟩

theorem locksSecond_finish {body : Completion} (h : t.request = .finish jobId body credential) :
    t.LocksSecond jobId := by
  refine ⟨body.workerId, credential, ?_⟩
  simp only [h, serve, finish, owned, Prog.bind_assoc]
  exact ⟨_, rfl⟩

/-- Its first two statements are answered alike in every moment. -/
theorem Txn.LocksSecond.lead (h : t.LocksSecond jobId) : (serve t.config t.request).Lead 2 := by
  obtain ⟨workerId, credential, f, hserve⟩ := h
  rw [hserve, identity_bind]
  refine ⟨fun _ _ _ => rfl, fun found => ?_⟩
  cases found with
  | none => trivial
  | some w =>
      simp only
      split
      · exact ⟨fun _ _ _ => rfl, fun _ => Prog.lead_zero _⟩
      · trivial

/-- When it returns, it has the lock from its third statement on. -/
theorem Txn.LocksSecond.locked (h : t.LocksSecond jobId) {response : Response}
    (hans : t.answer db = .ok response) {n : ℕ} (hn : 2 ≤ n) : t.Locked db jobId n := by
  obtain ⟨workerId, credential, f, hserve⟩ := h
  rw [Txn.answer, Txn.outcome, hserve] at hans
  cases hw : db.workers.find? workerId with
  | none =>
      rw [exec_identity_none hw] at hans
      cases hans
  | some w =>
      rw [exec_identity hw] at hans
      split at hans
      swap
      · cases hans
      rename_i hok
      cases hj : db.jobs.find? jobId with
      | none =>
          rw [getJob, Prog.issue_bind, Prog.stmt_bind,
            Prog.exec_stmt_ok (b := none) (t := db) (by rw [← hj]; rfl)] at hans
          cases hans
      | some job =>
          obtain ⟨n, rfl⟩ : ∃ i, n = i + 2 := ⟨n - 2, by omega⟩
          have hid : job.id = jobId := Table.key_of_find? hj
          rw [Txn.Locked, hserve, identity_bind,
            Prog.past_stmt_ok (b := some w) (t := db) (by rw [← hw]; rfl)]
          simp only [hok, if_true]
          rw [getJob, Prog.issue_bind, Prog.stmt_bind,
            Prog.past_stmt_ok (b := some job) (t := db) (by rw [← hj]; rfl)]
          exact Or.inr (Or.inl ⟨.update, by simp, by simp [Sql.takes, hid]⟩)

/-- A start or a finish stamps the attempt at one of its late moments. -/
theorem stamps_of_second {A : Moment → Prop} {c : Change} (hc : Timely A t.config t.request c)
    (hreq : (∃ body credential, t.request = .start jobId body credential) ∨
      ∃ body credential, t.request = .finish jobId body credential)
    (hA : ∀ m, A m → t.After db jobId m) : c.Stamps t db := by
  have hreads : ∀ {job : Job} {s : Time}, job.id = jobId → Reads A s →
      Reads (t.After db job.id) s := by
    rintro job s rfl ⟨m, hm, rfl⟩
    exact ⟨m, hA m hm, rfl⟩
  obtain ⟨hallowed, htimed⟩ := hc
  cases c with
  | start job a s st =>
      rcases hreq with ⟨body, credential, hreq⟩ | ⟨body, credential, hreq⟩ <;>
        simp only [hreq, Allowed] at hallowed
      exact hreads hallowed.1 htimed.2
  | succeed job a o s st =>
      rcases hreq with ⟨body, credential, hreq⟩ | ⟨body, credential, hreq⟩ <;>
        simp only [hreq, Allowed] at hallowed
      exact hreads hallowed.1.1 htimed.2
  | retry job a o e s s' st =>
      rcases hreq with ⟨body, credential, hreq⟩ | ⟨body, credential, hreq⟩ <;>
        simp only [hreq, Allowed] at hallowed
      exact hreads hallowed.1.1 htimed.2.1
  | fail job a o e r s st =>
      rcases hreq with ⟨body, credential, hreq⟩ | ⟨body, credential, hreq⟩ <;>
        simp only [hreq, Allowed] at hallowed
      exact hreads hallowed.1.1 htimed.2
  | _ => trivial

/-- Recovery stamps the attempts of the jobs that it has locked. -/
theorem stamps_of_recovers {A : Moment → Prop} {config : Settings} {limit : ℕ} {jobs : List Job}
    {c : Change} (hc : Recovers A config limit jobs c)
    (hA : ∀ job ∈ jobs, ∀ m, A m → t.After db job.id m) : c.Stamps t db := by
  have hreads : ∀ {job : Job} {s : Time}, job ∈ jobs → Reads A s →
      Reads (t.After db job.id) s := by
    rintro job s hjob ⟨m, hm, rfl⟩
    exact ⟨m, hA job hjob m hm, rfl⟩
  obtain ⟨⟨hallowed, htimed⟩, hexpires⟩ := hc
  cases c with
  | retry job a o e s s' st => exact hreads hexpires htimed.2.1
  | fail job a o e r s st => exact hreads hexpires htimed.2
  | start | succeed => simp [Allowed] at hallowed
  | _ => trivial

/-- The changes of a start or a finish. -/
theorem commit_second (hinv : Inv db)
    (hreq : (∃ body credential, t.request = .start jobId body credential) ∨
      ∃ body credential, t.request = .finish jobId body credential) :
    Makes (fun c => Allowed t.config t.request c ∧ c.Stamps t db) db (commit db t) := by
  have hsecond : t.LocksSecond jobId := by
    rcases hreq with ⟨body, credential, hreq⟩ | ⟨body, credential, hreq⟩
    · exact locksSecond_start hreq
    · exact locksSecond_finish hreq
  cases hans : t.answer db with
  | error e =>
      rw [commit_error hans]
      exact .refl db
  | ok response =>
      have hserved := (sat_serve (A := fun m => ∃ n, 2 ≤ n ∧ m = t.feed n) hinv t.config
        t.request).exec_late hsecond.lead fun n hn => ⟨n, hn, rfl⟩
      change Served _ _ _ _ (t.answer db) (t.outcome db).state at hserved
      rw [hans] at hserved
      rw [commit, hans]
      refine hserved.1.mono fun c hc => ⟨hc.1, stamps_of_second hc hreq ?_⟩
      rintro m ⟨n, hn, rfl⟩
      exact ⟨n, hsecond.locked hans hn, rfl⟩

/-- The changes of a recovery. -/
theorem commit_recovers (hinv : Inv db) {limit : ℕ} (hreq : t.request = .recoverJobs limit) :
    Makes (fun c => Allowed t.config t.request c ∧ c.Stamps t db) db (commit db t) := by
  cases hans : t.answer db with
  | error e =>
      rw [commit_error hans]
      exact .refl db
  | ok response =>
      have hserve : serve t.config t.request =
          (recoverJobs limit >>= fun _ => .pure .maintained) := by
        rw [hreq]
        rfl
      rw [commit, hans]
      change Makes _ db (t.outcome db).state
      rw [Txn.outcome, hserve, recoverJobs, Prog.issue_bind, Prog.stmt_bind,
        Prog.exec_stmt_ok (b := (t.feed 0).free) (t := db) rfl]
      cases hfree : (t.feed 0).free with
      | false => exact .refl db
      | true =>
          simp only [if_true, databaseTime, Prog.issue_bind, Prog.stmt_bind]
          rw [Prog.exec_stmt_ok (b := (t.feed 1).time) (t := db) rfl,
            Prog.exec_stmt_ok (b := (t.feed 2).take limit
              (db.jobs.rows.filter (leaseExpired db (t.feed 1).time))) (t := db) rfl]
          refine Sat.exec (A := fun m => ∃ n, m = t.feed (n + 3)) (Q := fun _ d => Makes _ db d)
            ?_ fun n => ⟨n, rfl⟩
          refine (sat_bind _ _ _).mpr
            (sat_recoverLoops t.config hinv pending_expired fun _ _ hmake => ?_)
          refine hmake.mono fun c hc => ⟨hreq ▸ hc.1.1, stamps_of_recovers hc ?_⟩
          -- the third statement of recovery has locked the jobs
          rintro job hjob m ⟨n, rfl⟩
          refine ⟨n + 3, ?_, rfl⟩
          rw [Txn.Locked, hserve, recoverJobs, Prog.issue_bind, Prog.stmt_bind,
            Prog.past_stmt_ok (b := (t.feed 0).free) (t := db) rfl]
          simp only [hfree, if_true, databaseTime, Prog.issue_bind, Prog.stmt_bind]
          rw [Prog.past_stmt_ok (b := (t.feed 1).time) (t := db) rfl,
            Prog.past_stmt_ok (b := (t.feed 2).take limit
              (db.jobs.rows.filter (leaseExpired db (t.feed 1).time))) (t := db) rfl]
          refine Or.inr (Or.inr (Or.inl ⟨.update, by simp, ?_⟩))
          exact List.mem_map_of_mem (f := fun j : Job => (Lock.job j.id, Mode.update)) hjob

/-- The changes of a transaction, each of which stamps an attempt with a reading under the lock
of its job. -/
theorem commit_stamps (hinv : Inv db) (t : Txn) :
    Makes (fun c => Allowed t.config t.request c ∧ c.Stamps t db) db (commit db t) := by
  cases hreq : t.request with
  | start jobId body credential => exact hreq ▸ commit_second hinv (Or.inl ⟨_, _, hreq⟩)
  | finish jobId body credential => exact hreq ▸ commit_second hinv (Or.inr ⟨_, _, hreq⟩)
  | recoverJobs limit => exact hreq ▸ commit_recovers hinv hreq
  | _ =>
      refine hreq ▸ (commit_makes hinv t).mono fun c hc => ⟨hc, ?_⟩
      cases c <;> simp_all [Allowed, Change.Stamps]

end Locks

section Stamps

variable {db : Database} {t : Txn} {a b : Attempt}

theorem Stamped.refl (db : Database) (t : Txn) (a : Attempt) : Stamped db t a a :=
  ⟨.refl a, Or.inl rfl, Or.inl rfl⟩

/-- One change of the transaction stamps the attempt. -/
theorem Stamped.effect {d : Database} {k : Uuid} (hinv : Inv d) {c : Change} (hg : c.guard d)
    (hc : Allowed t.config t.request c ∧ c.Stamps t db)
    (h : ∃ b, d.attempts.find? k = some b ∧ Stamped db t a b) :
    ∃ b, (c.effect d).attempts.find? k = some b ∧ Stamped db t a b := by
  obtain ⟨b, hb, hab⟩ := h
  -- a held attempt is rewritten, and it may be this one
  have hput : ∀ {job x y}, Holds d job x → y.id = x.id → (Stamped db t a x → Stamped db t a y) →
      (c.effect d).attempts = d.attempts.put y →
      ∃ b, (c.effect d).attempts.find? k = some b ∧ Stamped db t a b := by
    intro job x y hold hid hxy heq
    rw [heq]
    by_cases hk : x.id = k
    · have hrow := hold.attempt_row
      rw [hk, hb, Option.some.injEq] at hrow
      exact ⟨y, hold.find?_put hid hk, hxy (hrow ▸ hab)⟩
    · exact ⟨b, (Table.find?_put_ne _ (show Keyed.key y ≠ k by simpa [hid] using hk)).trans hb, hab⟩
  -- the job of a held attempt is the one that it has always had
  have hreads : ∀ {job x s}, Holds d job x → Stamped db t a x → Reads (t.After db job.id) s →
      Reads (t.After db a.jobId) s := by
    intro job x s hold hax hs
    have hjob : x.jobId = a.jobId := by rw [hax.later.1]
    rwa [← hjob, hold.attempt_job]
  have hclose : ∀ {job x y s}, Holds d job x → x.Later y → y.id = x.id →
      y.startedAt = x.startedAt → y.finishedAt = some s → Reads (t.After db job.id) s →
      ((∃ jobId body credential, t.request = .finish jobId body credential) ∨
        ∃ limit, t.request = .recoverJobs limit) →
      (c.effect d).attempts = d.attempts.put y →
      ∃ b, (c.effect d).attempts.find? k = some b ∧ Stamped db t a b := by
    intro job x y s hold hxy hid hstarted hfinished hs hreq heq
    refine hput hold hid (fun hax => ⟨hax.later.trans hxy, ?_,
      Or.inr ⟨?_, hreq, s, hfinished, hreads hold hax hs⟩⟩) heq
    · rw [hstarted]
      exact hax.started
    · rcases hax.finished with hf | ⟨hf, -⟩
      · exact hf.symm.trans hold.is_open
      · exact hf
  obtain ⟨hallowed, hstamps⟩ := hc
  cases c with
  | lease w job x s st =>
      refine ⟨b, ?_, hab⟩
      have hne : Keyed.key x ≠ k := by
        rintro rfl
        exact absurd (hg.fresh.symm.trans hb) (by simp)
      exact (Table.find?_add_ne _ hne).trans hb
  | start job x s st =>
      obtain ⟨hold, -, hleased⟩ := hg
      obtain ⟨-, -, -, -, -, hrunning⟩ := hinv.holds hold
      have hnone : x.startedAt = none := by simpa [hleased] using hrunning
      refine hput hold (y := { x with startedAt := some s }) rfl (fun hax => ?_) rfl
      refine ⟨hax.later.trans ⟨rfl, by simp [hold.is_open]⟩,
        Or.inr ⟨?_, ?_, s, rfl, hreads hold hax hstamps⟩, hax.finished⟩
      · rcases hax.started with hs | ⟨hs, -⟩
        · exact hs.symm.trans hnone
        · exact hs
      · cases hreq : t.request with
        | start jobId body credential => exact ⟨_, _, _, rfl⟩
        | _ => simp [hreq, Allowed] at hallowed
  | renew job x s =>
      refine hput hg.1 (y := { x with expiresAt := s }) rfl (fun hax => ?_) rfl
      exact ⟨hax.later.trans ⟨rfl, by simp [hg.1.is_open]⟩, hax.started, hax.finished⟩
  | succeed job x o s st =>
      refine hclose (y := x.deliver o s) hg.1 ⟨rfl, by simp [hg.1.is_open]⟩ rfl rfl rfl hstamps
        (Or.inl ?_) rfl
      cases hreq : t.request with
      | finish jobId body credential => exact ⟨_, _, _, rfl⟩
      | _ => simp [hreq, Allowed] at hallowed
  | retry job x o e s s' st =>
      refine hclose (y := x.close o e s) hg.1 ⟨rfl, by simp [hg.1.is_open]⟩ rfl rfl rfl hstamps
        ?_ rfl
      cases hreq : t.request with
      | finish jobId body credential => exact Or.inl ⟨_, _, _, rfl⟩
      | recoverJobs limit => exact Or.inr ⟨_, rfl⟩
      | _ => simp [hreq, Allowed] at hallowed
  | fail job x o e r s st =>
      refine hclose (y := x.close o e s) hg.1 ⟨rfl, by simp [hg.1.is_open]⟩ rfl rfl rfl hstamps
        ?_ rfl
      cases hreq : t.request with
      | finish jobId body credential => exact Or.inl ⟨_, _, _, rfl⟩
      | recoverJobs limit => exact Or.inr ⟨_, rfl⟩
      | _ => simp [hreq, Allowed] at hallowed
  | admitted | cancel | enroll | seen | drain | takeover | mark | log => exact ⟨b, hb, hab⟩

/-- A transaction stamps an attempt at most once. -/
theorem commit_stamped (hinv : Inv db) (t : Txn) (ha : db.attempts.find? a.id = some a) :
    ∃ b, (commit db t).attempts.find? a.id = some b ∧ Stamped db t a b :=
  ((commit_stamps hinv t).invariant
    (I := fun d => Inv d ∧ ∃ b, d.attempts.find? a.id = some b ∧ Stamped db t a b)
    (fun _ hc _ hg h => ⟨h.1.effect hg, Stamped.effect h.1 hg hc h.2⟩)
    ⟨hinv, a, ha, .refl db t a⟩).2

/-- A stamp comes with a change of the job. -/
theorem Stamped.writes (h : Stamped db t a b) (hinv : Inv db)
    (ha : db.attempts.find? a.id = some a) (hb : (commit db t).attempts.find? a.id = some b)
    (hne : b.startedAt ≠ a.startedAt ∨ b.finishedAt ≠ a.finishedAt) :
    Writes db t a.jobId := by
  have hopen : a.finishedAt = none := by
    cases hf : a.finishedAt with
    | none => rfl
    | some f =>
        obtain rfl := h.later.2 (by simp [hf])
        simp at hne
  intro hsame
  obtain ⟨job, hjob⟩ := hinv.attempt_job a (Table.mem_of_find? ha)
  have hid : job.id = a.jobId := Table.key_of_find? hjob
  rw [← hid] at hjob hsame
  have hinv' := (commit_makes hinv t).inv hinv
  -- the same job row before and after
  have hold : Holds db job a := ⟨hjob, ha, hid.symm, hopen⟩
  obtain ⟨-, -, hfence, hheld, -, hrunning⟩ := hinv.holds hold
  have hjob' : (commit db t).jobs.find? job.id = some job := hsame.trans hjob
  have hj' := hinv'.job job hjob'
  have hbj : b.jobId = a.jobId := by rw [h.later.1]
  have hbf : b.fence = a.fence := by rw [h.later.1]
  have hbmem := mem_attemptsOf.mpr ⟨Table.mem_of_find? hb, hbj.trans hid.symm⟩
  -- the job is still held, so its current attempt is still open
  obtain ⟨-, x, hx, hxf, hpend, hrunning'⟩ := hj'.of_held hheld
  obtain rfl : b = x := hj'.eq_of_fence hbmem hx (hbf.trans (hfence.trans hxf.symm))
  rcases hne with hs | hf
  · rcases h.started with heq | ⟨hnone, -, n, hsome, -⟩
    · exact hs heq
    · rw [hsome, ← hrunning, hnone] at hrunning'
      simp at hrunning'
  · exact hf (hpend.1.trans hopen.symm)

/-- A new attempt is the lease of the job that the claim selects, and carries the start of the
claim. -/
theorem commit_new (hinv : Inv db) (ha : (commit db t).attempts.find? a.id = some a)
    (hnew : db.attempts.find? a.id = none) :
    t.Claims ∧ Writes db t a.jobId ∧ a.startedAt = none ∧ a.finishedAt = none ∧
      a.createdAt = (t.feed 8).start ∧
      ∃ job, Selects db t job ∧ a.jobId = job.id ∧ a.fence = job.attemptCount + 1 := by
  obtain ⟨body, credential, hreq⟩ := claim_of_attempt hinv ha hnew
  rcases commit_or_selects hinv hreq with hsame | ⟨job, hselects⟩
  · rw [hsame, hnew] at ha
    cases ha
  obtain ⟨body', w, hg, heq⟩ := hselects.commit_eq hinv
  have hrow : (db.attempts.add (newAttempt w body'.slot body'.claimId t.config.leaseSeconds
      (fun n => t.feed (n + 4)) job)).find? a.id = some a := by
    rw [heq] at ha
    exact ha
  rcases Table.find?_add_eq_some hg.fresh hrow with ⟨-, rfl⟩ | hold
  · refine ⟨⟨body, credential, hreq⟩, fun hsame => ?_, rfl, rfl, rfl, job, hselects, rfl, rfl⟩
    -- the fence of the new attempt exceeds the old count
    have hj' := ((commit_makes hinv t).inv hinv).job job (hsame.trans hg.job_row)
    have hle := (hj'.fence_mem (mem_attemptsOf.mpr ⟨Table.mem_of_find? ha, rfl⟩)).2
    simp [newAttempt] at hle
  · rw [hnew] at hold
    cases hold

/-- A stamped attempt is in order if the stamp follows the times that it had. -/
theorem Stamped.inOrder (h : Stamped db t a b) (ha : a.InOrder)
    (hafter : (b.startedAt ≠ a.startedAt ∨ b.finishedAt ≠ a.finishedAt) →
      ∀ s, Reads (t.After db a.jobId) s →
        a.createdAt ≤ s ∧ ∀ s', a.startedAt = some s' → s' ≤ s) : b.InOrder := by
  have hcreated : b.createdAt = a.createdAt := by rw [h.later.1]
  refine ⟨fun s hs => ?_, fun f hf => ?_, fun s f hs hf => ?_⟩
  · rw [hcreated]
    rcases h.started with heq | ⟨hnone, -, s', hsome, hreads⟩
    · exact ha.started s (heq.symm.trans hs)
    · rw [hsome, Option.some.injEq] at hs
      rw [← hs]
      exact (hafter (Or.inl (by simp [hsome, hnone])) s' hreads).1
  · rw [hcreated]
    rcases h.finished with heq | ⟨hnone, -, f', hsome, hreads⟩
    · exact ha.finished f (heq.symm.trans hf)
    · rw [hsome, Option.some.injEq] at hf
      rw [← hf]
      exact (hafter (Or.inr (by simp [hsome, hnone])) f' hreads).1
  · rcases h.finished with heq | ⟨hnone, hreq, f', hsome, hreads⟩
    · -- a finished attempt is not stamped again
      obtain rfl := h.later.2 (by simp [← heq, hf])
      exact ha.duration s f hs hf
    · rcases h.started with heq | ⟨-, ⟨_, _, _, hstart⟩, -⟩
      · rw [hsome, Option.some.injEq] at hf
        rw [← hf]
        exact (hafter (Or.inr (by simp [hsome, hnone])) f' hreads).2 s (heq.symm.trans hs)
      · simp [hstart] at hreq

end Stamps

/-! ## One attempt -/

/-- The transactions that created and started an attempt, each of which changed its job. -/
structure Traced (txns : List Txn) (a : Attempt) : Prop where
  created : ∃ pre t post, txns = pre ++ t :: post ∧ Writes (run pre) t a.jobId ∧
    a.createdAt = t.start
  started : ∀ s, a.startedAt = some s → ∃ pre t post, txns = pre ++ t :: post ∧
    Writes (run pre) t a.jobId ∧ ∃ n, s = (t.feed n).time

/-- One more transaction leaves the trace of an attempt, and stamps it after it. -/
theorem Traced.snoc {txns : List Txn} {u : Txn} (h : Clocked (txns ++ [u])) {a b : Attempt}
    (htraced : Traced txns a) (horder : a.InOrder)
    (ha : (run txns).attempts.find? a.id = some a)
    (hb : (commit (run txns) u).attempts.find? a.id = some b) (hab : Stamped (run txns) u a b) :
    Traced (txns ++ [u]) b ∧ b.InOrder := by
  obtain ⟨hcreated, hstarted⟩ := htraced
  have hjob : b.jobId = a.jobId := by rw [hab.later.1]
  refine ⟨⟨?_, fun s hs => ?_⟩, hab.inOrder horder fun hne s hreads => ?_⟩
  · have hcr : b.createdAt = a.createdAt := by rw [hab.later.1]
    rw [hjob, hcr]
    exact (occurs_snoc (P := fun d t => Writes d t a.jobId ∧ a.createdAt = t.start)).mpr
      (Or.inl hcreated)
  · rw [hjob]
    refine (occurs_snoc (P := fun d t => Writes d t a.jobId ∧ ∃ n, s = (t.feed n).time)).mpr ?_
    rcases hab.started with heq | ⟨hnone, -, s', hsome, m, ⟨n, -, rfl⟩, rfl⟩
    · exact Or.inl (hstarted s (heq.symm.trans hs))
    · refine Or.inr ⟨hab.writes (run_inv txns) ha hb (Or.inl ?_), n, ?_⟩
      · simp [hsome, hnone]
      · simpa [hs] using hsome
  · -- the transaction changes the job after the ones that did so before
    have hwrites := hab.writes (run_inv txns) ha hb hne
    obtain ⟨m, ⟨n, hlocked, rfl⟩, rfl⟩ := hreads
    have hafter : ∀ {P : Txn → Prop}, (∃ pre t post, txns = pre ++ t :: post ∧
        Writes (run pre) t a.jobId ∧ P t) →
        ∃ t ∈ txns, P t ∧ ∀ m, (t.feed m).time ≤ (u.feed n).time := by
      rintro P ⟨pre, t, post, rfl, hw, hp⟩
      exact ⟨t, by simp, hp, fun m =>
        h.rows pre t post u [] (by simp) a.jobId hw hwrites m n hlocked⟩
    refine ⟨?_, fun s hs => ?_⟩
    · obtain ⟨t, ht, hc, hle⟩ := hafter hcreated
      calc a.createdAt = t.start := hc
        _ ≤ (t.feed 0).time := h.readings t (List.mem_append_left _ ht) 0
        _ ≤ (u.feed n).time := hle 0
    · obtain ⟨t, -, ⟨m, rfl⟩, hle⟩ := hafter (hstarted s hs)
      exact hle m

/-- The times of every attempt are in order, in every run. -/
theorem attempt_inOrder {txns : List Txn} (h : Clocked txns) :
    ∀ a ∈ (run txns).attempts.rows, Traced txns a ∧ a.InOrder := by
  induction txns using List.reverseRecOn with
  | nil => intro a ha; simp [run] at ha
  | append_singleton txns u ih =>
      intro b hb
      have hinv := run_inv txns
      have hbrow : (commit (run txns) u).attempts.find? b.id = some b := by
        rw [← run_snoc]
        exact Table.find?_of_mem hb
      cases hold : (run txns).attempts.find? b.id with
      | none =>
          obtain ⟨-, hwrites, hstarted, hfinished, hcreated, -⟩ := commit_new hinv hbrow hold
          refine ⟨⟨⟨txns, u, [], rfl, hwrites, hcreated.trans (h.start u (by simp) 8)⟩, ?_⟩,
            ?_, ?_, ?_⟩
          all_goals simp [hstarted, hfinished]
      | some a =>
          have hid : a.id = b.id := Table.key_of_find? hold
          obtain ⟨htraced, horder⟩ := ih h.of_append a (Table.mem_of_find? hold)
          rw [← hid] at hold hbrow
          obtain ⟨b', hb', hab⟩ := commit_stamped hinv u hold
          rw [hbrow, Option.some.injEq] at hb'
          subst hb'
          exact htraced.snoc h horder hold hbrow hab

/-! ## All attempts of a job -/

/-- If the claim leases a job, it started after the job was left to it: after it was admitted,
and after its last attempt had finished. -/
def OnTime (db : Database) (u : Txn) : Prop :=
  ∀ job, Selects db u job → (job.attemptCount = 0 → job.createdAt ≤ u.start) ∧
    ∀ a ∈ attemptsOf db.attempts job.id, a.fence = job.attemptCount →
      ∀ f, a.finishedAt = some f → f ≤ u.start

section Jobs

variable {txns : List Txn} {u : Txn}

/-- One transaction keeps the timelines in order if it is on time. -/
theorem Ordered.snoc (hclock : Clocked (txns ++ [u])) (h : Ordered (run txns))
    (htime : OnTime (run txns) u) : Ordered (run (txns ++ [u])) := by
  have hinv := run_inv txns
  have hinv' := run_inv (txns ++ [u])
  have hlater := run_later txns [u]
  have hstart : (u.feed 8).start = u.start := hclock.start u (by simp) 8
  -- a row of an old job keeps the time of its admission
  have hcreated : ∀ {job job'}, (run txns).jobs.find? job.id = some job →
      job' ∈ (run (txns ++ [u])).jobs.rows → job'.id = job.id → job'.createdAt = job.createdAt := by
    intro job job' hjob hjob' hid
    obtain ⟨j, hj, hjj⟩ := hlater.jobs _ job hjob
    obtain rfl := Table.eq_of_key hjob' (Table.mem_of_find? hj)
      (hid.trans (Table.key_of_find? hj).symm)
    rw [hjj.1]
  have hselected : ∀ {job}, Selects (run txns) u job →
      (run txns).jobs.find? job.id = some job := by
    intro job hsel
    obtain ⟨_, _, hg, -⟩ := hsel.commit_eq hinv
    exact hg.job_row
  -- an attempt is the lease of the selected job, or it has the same times in an old row
  have hcases : ∀ {job' b}, job' ∈ (run (txns ++ [u])).jobs.rows →
      b ∈ attemptsOf (run (txns ++ [u])).attempts job'.id →
      (u.Claims ∧ b.finishedAt = none ∧ b.createdAt = u.start ∧ ∃ job, Selects (run txns) u job ∧
        job'.id = job.id ∧ job'.createdAt = job.createdAt ∧ b.fence = job.attemptCount + 1) ∨
      ∃ job a, (run txns).jobs.find? job.id = some job ∧ job'.id = job.id ∧
        job'.createdAt = job.createdAt ∧ a ∈ attemptsOf (run txns).attempts job.id ∧
        Stamped (run txns) u a b := by
    intro job' b hjob' hb
    obtain ⟨hb, hbj⟩ := mem_attemptsOf.mp hb
    have hrow : (commit (run txns) u).attempts.find? b.id = some b := by
      rw [← run_snoc]
      exact Table.find?_of_mem hb
    cases hold : (run txns).attempts.find? b.id with
    | none =>
        obtain ⟨hclaims, -, -, hfin, hcr, job, hsel, hj, hf⟩ := commit_new hinv hrow hold
        have hid := hbj.symm.trans hj
        exact Or.inl ⟨hclaims, hfin, hcr.trans hstart, job, hsel, hid,
          hcreated (hselected hsel) hjob' hid, hf⟩
    | some a =>
        have hid : a.id = b.id := Table.key_of_find? hold
        rw [← hid] at hold hrow
        obtain ⟨b', hb', hab⟩ := commit_stamped hinv u hold
        rw [hrow, Option.some.injEq] at hb'
        subst hb'
        have haj : a.jobId = b.jobId := by rw [hab.later.1]
        obtain ⟨job, hjob⟩ := hinv.attempt_job a (Table.mem_of_find? hold)
        have hjid : job.id = a.jobId := Table.key_of_find? hjob
        rw [← hjid] at hjob
        have hjj : job'.id = job.id := hbj.symm.trans (haj.symm.trans hjid.symm)
        exact Or.inr ⟨job, a, hjob, hjj, hcreated hjob hjob' hjj,
          mem_attemptsOf.mpr ⟨Table.mem_of_find? hold, hjid.symm⟩, hab⟩
  refine ⟨fun a ha => (attempt_inOrder hclock a ha).2, ?_, ?_⟩
  · intro job' hjob' b hb hone
    rcases hcases hjob' hb with ⟨-, -, hcr, job, hsel, -, hjc, hf⟩ | ⟨job, a, hjob, -, hjc, ha, hab⟩
    · rw [hjc, hcr]
      exact (htime job hsel).1 (by omega)
    · have hf : b.fence = a.fence := by rw [hab.later.1]
      have hc : b.createdAt = a.createdAt := by rw [hab.later.1]
      rw [hjc, hc]
      exact h.first job (Table.mem_of_find? hjob) a ha (hf.symm.trans hone)
  · intro job' hjob' a' ha' b' hb' hnext f hf
    rcases hcases hjob' hb' with
      ⟨hclaims, -, hcr, job, hsel, hid, -, hbf⟩ | ⟨job, b, hjob, hid, -, hb, hb'⟩
    · -- the attempt before is one of the old ones, and a claim leaves its times
      rw [hcr]
      rcases hcases hjob' ha' with ⟨-, hopen, -⟩ | ⟨job₀, a, hjob₀, hid₀, -, ha, hab⟩
      · simp [hopen] at hf
      · have hrow := hselected hsel
        rw [hid.symm.trans hid₀, hjob₀, Option.some.injEq] at hrow
        subst hrow
        have haf : a'.fence = a.fence := by rw [hab.later.1]
        refine (htime job₀ hsel).2 a ha (by omega) f ?_
        rcases hab.finished with heq | ⟨-, hreq, -⟩
        · exact heq.symm.trans hf
        · obtain ⟨_, _, hclaim⟩ := hclaims
          simp [hclaim] at hreq
    · -- the attempt before had finished, so it is an old row
      have hj := hinv.job job hjob
      have hj' := hinv'.job job' (Table.find?_of_mem hjob')
      have hbf : b'.fence = b.fence := by rw [hb'.later.1]
      have hbc : b'.createdAt = b.createdAt := by rw [hb'.later.1]
      have hle := (hj.fence_mem hb).2
      obtain ⟨a, ha, haf⟩ : ∃ a ∈ attemptsOf (run txns).attempts job.id, a.fence = a'.fence := by
        have hpos := (hj'.fence_mem ha').1
        have hmem : a'.fence ∈ (attemptsOf (run txns).attempts job.id).map Attempt.fence := by
          rw [hj.fences, List.mem_range'_1]
          omega
        exact List.mem_map.mp hmem
      have hfin := (hj.past a ha (by omega)).1
      obtain ⟨harow, haj⟩ := mem_attemptsOf.mp ha
      obtain ⟨x, hx, hax⟩ := hlater.attempts _ a (Table.find?_of_mem harow)
      obtain rfl := hax.2 hfin
      obtain rfl : a' = x := hj'.eq_of_fence ha'
        (mem_attemptsOf.mpr ⟨Table.mem_of_find? hx, haj.trans hid.symm⟩) haf.symm
      rw [hbc]
      exact h.next job (Table.mem_of_find? hjob) a' ha b hb (by omega) f hf

/-- A lease keeps the timelines in order only if its claim is on time. -/
theorem Ordered.onTime (hclock : Clocked (txns ++ [u])) (h : Ordered (run (txns ++ [u]))) :
    OnTime (run txns) u := by
  intro job hsel
  have hinv := run_inv txns
  have hstart : (u.feed 8).start = u.start := hclock.start u (by simp) 8
  obtain ⟨body, w, hg, heq⟩ := hsel.commit_eq hinv
  rw [run_snoc, heq] at h
  have hjob : job.leased ⟨(u.feed 11).time, (u.feed 13).start⟩ ∈
      ((run txns).jobs.put (job.leased ⟨(u.feed 11).time, (u.feed 13).start⟩)).rows :=
    Table.mem_put.mpr (Or.inr ⟨rfl, job, Table.mem_of_find? hg.job_row, rfl⟩)
  have hmem : ∀ {a : Attempt}, a ∈ attemptsOf (run txns).attempts job.id →
      a ∈ attemptsOf ((run txns).attempts.add (newAttempt w body.slot body.claimId
        u.config.leaseSeconds (fun n => u.feed (n + 4)) job)) job.id := by
    intro a ha
    rw [attemptsOf_add hg.fresh]
    exact List.mem_append_left _ ha
  have hnew : newAttempt w body.slot body.claimId u.config.leaseSeconds
      (fun n => u.feed (n + 4)) job ∈ attemptsOf ((run txns).attempts.add
        (newAttempt w body.slot body.claimId u.config.leaseSeconds
          (fun n => u.feed (n + 4)) job)) job.id :=
    mem_attemptsOf.mpr ⟨(Table.mem_add hg.fresh).mpr (Or.inr rfl), rfl⟩
  rw [← hstart]
  refine ⟨fun hzero => h.first _ hjob _ hnew ?_, fun a ha hf f hfin => ?_⟩
  · simp [newAttempt, hzero]
  · exact h.next _ hjob a (hmem ha) _ hnew (by simp [newAttempt, hf]) f hfin

end Jobs

/-- **Timelines.** Along every run whose clocks keep their promises, the times of each attempt are
in order: created, started, finished.  All timelines are in order, from the admission of a
job through its attempts, in every state of the run if and only if no claim leases a job that
was admitted, or whose last attempt was finished, after the claim's transaction had
started.  Where they are in order, every queue wait and every duration of a snapshot is
nonnegative. -/
theorem timelines_ordered (txns : List Txn) (h : Clocked txns) :
    (∀ pre post, txns = pre ++ post → ∀ a ∈ (run pre).attempts.rows, a.InOrder) ∧
    ((∀ pre post, txns = pre ++ post → Ordered (run pre)) ↔
      ∀ pre u post, txns = pre ++ u :: post → OnTime (run pre) u) ∧
    ∀ pre post, txns = pre ++ post → Ordered (run pre) → ∀ since,
      (∀ d ∈ queueWaits (run pre) since, 0 ≤ d) ∧ ∀ d ∈ durations (run pre) since, 0 ≤ d := by
  refine ⟨?_, ⟨?_, ?_⟩, ?_⟩
  · rintro pre post rfl a ha
    exact (attempt_inOrder h.of_append a ha).2
  · rintro hordered pre u post rfl
    have hsplit : pre ++ u :: post = (pre ++ [u]) ++ post := by simp
    rw [hsplit] at h hordered
    exact Ordered.onTime h.of_append (hordered _ _ rfl)
  · rintro htime pre post rfl
    induction pre using List.reverseRecOn generalizing post with
    | nil => exact ⟨by simp [run], by simp [run], by simp [run]⟩
    | append_singleton pre u ih =>
        have hsplit : pre ++ [u] ++ post = pre ++ u :: post := by simp
        refine (ih (u :: post) (hsplit ▸ h) (hsplit ▸ htime)).snoc h.of_append ?_
        exact htime pre u post hsplit
  · intro pre post _ hordered since
    exact ⟨hordered.queueWaits_nonneg (run_inv pre) since, hordered.durations_nonneg since⟩

/-- A claim starts at time two and waits until four for its worker row; the job that it then
leases was admitted at three. -/
def waitingClaim : List Txn := [
  { request := .register .first, feed := .still 1 },
  { request := .submit .flaky, feed := .still 3 },
  { request := .claim .first (some Registration.first.sessionToken)
    feed := fun n => { Moment.still 4 n with start := 2 } },
  { request := .start 304 ⟨"w1", 407⟩ (some Registration.first.sessionToken), feed := .still 5 },
  { request := .finish 304 (.failure 407) (some Registration.first.sessionToken)
    feed := .still 6 }]

omit [Sha256] in
theorem waitingClaim_clocked :
    letI := Sha256.tabulated []
    Clocked waitingClaim := by
  let := Sha256.tabulated []
  refine .of_pairwise ?_ ?_ ?_
  · simp [waitingClaim, Txn.start, Moment.still]
  · norm_num [waitingClaim, Txn.start, Moment.still]
  · norm_num [waitingClaim, Moment.still]

omit [Sha256] in
theorem timelines_ordered_waiting :
    letI := Sha256.tabulated []
    Clocked waitingClaim ∧ ((∀ pre post, waitingClaim = pre ++ post → Ordered (run pre)) ↔
      ∀ pre u post, waitingClaim = pre ++ u :: post → OnTime (run pre) u) := by
  let := Sha256.tabulated []
  exact ⟨waitingClaim_clocked, (timelines_ordered waitingClaim waitingClaim_clocked).2.1⟩

omit [Sha256] in
/-- The attempt is created before its job, and the snapshot averages a negative wait. -/
theorem timelines_unordered :
    letI := Sha256.tabulated []
    Clocked waitingClaim ∧ ¬ Ordered (run waitingClaim) ∧
      queueWaits (run waitingClaim) 0 = [-1] := by
  let := Sha256.tabulated []
  have hwaits : queueWaits (run waitingClaim) 0 = [-1] := by decide +kernel
  refine ⟨waitingClaim_clocked, fun h => ?_, hwaits⟩
  have hle := h.queueWaits_nonneg (run_inv _) 0 (-1) (by rw [hwaits]; simp)
  norm_num at hle

end GreyQueue
