import GreyQueue.Trail

/-!
# Retries and schedules

When a job may be leased again.  A failure that leaves retries sets `available_at` from
its own reading of the clock and a delay that doubles with the fence of the attempt; no
other change moves it, and a claim takes no job before it.

## Main definitions

* `LastRetry` — the last attempt of a job that failed and was retried.
* `Submitted` — the submission that created a job.

## Main results

* `WaitInv.effect` — every change leaves `available_at` where the last failure put it.
* `effect_available`, `run_available` — it moves with the next retry only.
* `commit_claim` — a claim makes at most one lease.
* `retry_timing` — delays, claims and the retry budget along a run.
-/

namespace GreyQueue

open Lib

/-! ## One job -/

/-- The last attempt of a job that failed and was retried. -/
def LastRetry (job : Job) (attempts : List Attempt) (a : Attempt) : Prop :=
  a ∈ attempts ∧ job.retried a = true ∧ ∀ b ∈ attempts, job.retried b = true → b.fence ≤ a.fence

/-- The job waits, or has waited, for the delay after its last failure. -/
def Waits (job : Job) (attempts : List Attempt) : Prop :=
  ∀ a, LastRetry job attempts a → ∃ finishedAt u, a.finishedAt = some finishedAt ∧
    job.Jitter u ∧ job.availableAt = finishedAt + job.backoff a.fence * u

/-- A change that retries no attempt leaves the wait as it is. -/
theorem Waits.congr {job job' : Job} {l l' : List Attempt} (h : Waits job l)
    (hrows : ∀ x, x ∈ l' ∧ job'.retried x = true ↔ x ∈ l ∧ job.retried x = true)
    (havail : job'.availableAt = job.availableAt) (hdelay : job'.retryDelay = job.retryDelay)
    (hjitter : job'.retryJitter = job.retryJitter) : Waits job' l' := by
  intro a ⟨ha, hr, hlast⟩
  obtain ⟨ha', hr'⟩ := (hrows a).mp ⟨ha, hr⟩
  obtain ⟨f, u, hf, hu, heq⟩ := h a ⟨ha', hr', fun b hb hbr =>
    let ⟨hb', hbr'⟩ := (hrows b).mpr ⟨hb, hbr⟩
    hlast b hb' hbr'⟩
  refine ⟨f, u, hf, ?_, ?_⟩
  · simpa [Job.Jitter, hjitter] using hu
  · simpa [Job.backoff, havail, hdelay] using heq

/-- In a job that waits, the current attempt is the last one that was retried. -/
theorem lastRetry_current {job : Job} {l : List Attempt} {r : Option Result} (hi : JobInv job l r)
    (hwait : job.status.waiting = true) {a : Attempt} (ha : a ∈ l)
    (hf : a.fence = job.attemptCount) : LastRetry job l a := by
  refine ⟨ha, ?_, fun b hb _ => by rw [hf]; exact (hi.fence_mem hb).2⟩
  have hfits := hi.current a ha hf
  cases hs : job.status <;> simp_all [Status.waiting, Fits, Attempt.Lost, Job.retried,
    Job.endedBy, Attempt.lost]

/-- The delays grow with the fence and never exceed an hour. -/
theorem Job.backoff_mono {job : Job} (h : 0 ≤ job.retryDelay) {k : ℕ} :
    job.backoff k ≤ job.backoff (k + 1) := by
  refine min_le_min_right _ (mul_le_mul_of_nonneg_left ?_ h)
  exact zpow_le_zpow_right₀ (by norm_num) (by push_cast; omega)

theorem Job.backoff_le (job : Job) (k : ℕ) : job.backoff k ≤ 3600 := min_le_right _ _

/-! ## The database -/

/-- Every job waits for its last failure. -/
def WaitInv (db : Database) : Prop :=
  ∀ job, db.jobs.find? job.id = some job → Waits job (attemptsOf db.attempts job.id)

namespace WaitInv

variable {db db' : Database}

/-- One job is rewritten; the others and their attempts are left alone. -/
theorem put (h : WaitInv db) {job : Job} (job' : Job) (hrow : db.jobs.find? job.id = some job)
    (hid : job'.id = job.id) (hjobs : db'.jobs = db.jobs.put job')
    (hothers : ∀ k, k ≠ job.id → attemptsOf db'.attempts k = attemptsOf db.attempts k)
    (hwaits : Waits job' (attemptsOf db'.attempts job.id)) : WaitInv db' := by
  intro j hj
  rw [hjobs] at hj
  by_cases hjk : j.id = job.id
  · have hput : (db.jobs.put job').find? job'.id = some job' :=
      Table.find?_put_self (r := job') (hid ▸ hrow)
    rw [hjk, ← hid] at hj
    obtain rfl : j = job' := Option.some.inj (hj.symm.trans hput)
    exact hid ▸ hwaits
  · have hne : job'.id ≠ j.id := hid ▸ Ne.symm hjk
    rw [hothers _ hjk]
    exact h j ((Table.find?_put_ne _ hne).symm.trans hj)

/-- A held attempt is rewritten together with its job. -/
theorem move (h : WaitInv db) (hinv : Inv db) {job : Job} (job' : Job) {a b : Attempt}
    (hold : Holds db job a) (hid : job'.id = job.id) (hjobs : db'.jobs = db.jobs.put job')
    (hattempts : db'.attempts = db.attempts.put b) (hb : b.id = a.id ∧ b.jobId = a.jobId)
    (hcount : job'.attemptCount = job.attemptCount) (hretried : job'.retried b = false)
    (havail : job'.availableAt = job.availableAt) (hdelay : job'.retryDelay = job.retryDelay)
    (hjitter : job'.retryJitter = job.retryJitter) : WaitInv db' := by
  obtain ⟨hi, hmem, -, -, hpend, -⟩ := hinv.holds hold
  refine h.put job' hold.job_row hid hjobs ?_ ?_
  · intro k hk
    rw [hattempts]
    exact attemptsOf_put_ne hold.attempt_row hb.1 hb.2 (hold.attempt_job ▸ Ne.symm hk)
  · rw [hattempts, attemptsOf_put hold.attempt_row hb.1 hb.2]
    refine (h job hold.job_row).congr (fun x => ⟨?_, ?_⟩) havail hdelay hjitter
    · rintro ⟨hx, hr⟩
      rcases mem_replaced hx with rfl | ⟨hx, -⟩
      · rw [hretried] at hr
        cases hr
      · exact ⟨hx, hi.retried_move hmem hold.is_open hcount hx ▸ hr⟩
    · rintro ⟨hx, hr⟩
      -- the open attempt itself has not been retried
      have hne : x.id ≠ b.id := by
        rw [hb.1]
        intro hxa
        obtain rfl := Table.eq_of_key (mem_attemptsOf.mp hx).1 (mem_attemptsOf.mp hmem).1 hxa
        simp [Job.retried, hpend.not_lost] at hr
      refine ⟨List.mem_map.mpr ⟨x, hx, if_neg hne⟩, ?_⟩
      rw [hi.retried_move hmem hold.is_open hcount hx]
      exact hr

theorem empty : WaitInv {} := fun _ h => by simp at h

theorem effect (h : WaitInv db) (hinv : Inv db) {c : Change} (hg : c.guard db)
    {A : Moment → Prop} {l : ℚ} (htimed : c.Timed A l) : WaitInv (c.effect db) := by
  cases c with
  | admitted job q n t t' =>
      intro j hj
      by_cases hjk : job.id = j.id
      · intro a ha
        obtain ⟨k, hk⟩ := hinv.attempt_job a (mem_attemptsOf.mp ha.1).1
        rw [(mem_attemptsOf.mp ha.1).2, ← hjk, hg.fresh] at hk
        cases hk
      · exact h j ((Table.find?_add_ne _ hjk).symm.trans hj)
  | lease w job a t s =>
      have hwait := (claimable_iff.mp hg.ready).1
      have hlive := Status.live_of_waiting hwait
      refine h.put (job.leased s) hg.job_row rfl rfl ?_ ?_
      · intro k hk
        have hne : a.jobId ≠ k := hg.attempt_job ▸ Ne.symm hk
        simp [Change.effect, attemptsOf_add hg.fresh, hne]
      · have hlost : a.lost = false := by simp [Attempt.lost, hg.is_new.2.2.1]
        have hsame : ∀ x, (job.leased s).retried x = job.retried x := by
          intro x
          rw [Job.retried_eq_lost hlive.1 hlive.2, Job.retried_eq_lost] <;>
            simp [Job.leased, Job.enter]
        change Waits _ (attemptsOf (db.attempts.add a) job.id)
        rw [attemptsOf_add hg.fresh, if_pos hg.attempt_job]
        refine (h job hg.job_row).congr (fun x => ?_) rfl rfl rfl
        rw [hsame, List.mem_append, List.mem_singleton]
        constructor
        · rintro ⟨hx | rfl, hr⟩
          · exact ⟨hx, hr⟩
          · simp [Job.retried, hlost] at hr
        · rintro ⟨hx, hr⟩
          exact ⟨Or.inl hx, hr⟩
  | start job a t s =>
      obtain ⟨-, -, -, -, hpend, -⟩ := hinv.holds hg.1
      refine h.move hinv (job.enter .running s) hg.1
        (b := { a with startedAt := some t }) rfl rfl rfl ⟨rfl, rfl⟩ rfl ?_ rfl rfl rfl
      simp [Job.retried, Attempt.lost, hpend.2.1]
  | renew job a e =>
      obtain ⟨-, -, -, -, hpend, -⟩ := hinv.holds hg.1
      have hsame : db.jobs.put job = db.jobs := Table.put_self hg.1.job_row
      refine h.move hinv job hg.1 (b := { a with expiresAt := e }) rfl hsame.symm rfl
        ⟨rfl, rfl⟩ rfl ?_ rfl rfl rfl
      simp [Job.retried, Attempt.lost, hpend.2.1]
  | succeed job a o t s =>
      refine h.move hinv (job.enter .succeeded s) hg.1 (b := a.deliver o t) rfl rfl rfl
        ⟨rfl, rfl⟩ rfl ?_ rfl rfl rfl
      simp [Job.retried, Attempt.lost, Attempt.deliver]
  | retry job a o e t t' s =>
      obtain ⟨hold, -, -, hout, -⟩ := hg
      obtain ⟨hi, hmem, hfence, -⟩ := hinv.holds hold
      obtain ⟨-, -, u, hu, rfl⟩ := htimed
      refine h.put (Job.enter { job with availableAt := t + job.backoff job.attemptCount * u }
          .retryWait s) hold.job_row rfl rfl ?_ ?_
      · intro k hk
        exact attemptsOf_put_ne (b := a.close o e t) hold.attempt_row rfl rfl
          (hold.attempt_job ▸ Ne.symm hk)
      · change Waits _ (attemptsOf (db.attempts.put (a.close o e t)) job.id)
        rw [attemptsOf_put (b := a.close o e t) hold.attempt_row rfl rfl]
        rintro x ⟨hx, -, hlast⟩
        -- the attempt that is closed has the highest fence of all
        have hclosed := hlast (a.close o e t)
          (List.mem_map.mpr ⟨a, hmem, if_pos (show a.id = (a.close o e t).id from rfl)⟩) (by
            cases o <;> simp_all [Job.retried, Job.endedBy, Attempt.lost, Attempt.close, Job.enter])
        rcases mem_replaced hx with rfl | ⟨hx, hne⟩
        · exact ⟨t, u, rfl, hu, by simp [Job.enter, Job.backoff, Attempt.close, hfence]⟩
        · have hle := (hi.fence_mem hx).2
          have heq : x.fence = a.fence := Nat.le_antisymm (hfence ▸ hle) hclosed
          exact absurd (congrArg Attempt.id (hi.eq_of_fence hx hmem heq)) hne
  | fail job a o e r t s =>
      obtain ⟨hold, -⟩ := hg
      obtain ⟨-, -, hfence, -⟩ := hinv.holds hold
      refine h.move hinv (job.enter (if r then .deadLetter else .failed) s) hold
        (b := a.close o e t) rfl rfl rfl ⟨rfl, rfl⟩ rfl ?_ rfl rfl rfl
      cases r <;> simp [Job.retried, Job.endedBy, Attempt.close, Job.enter, hfence]
  | cancel job s =>
      obtain ⟨hrow, hwait⟩ := hg
      have hlive := Status.live_of_waiting hwait
      refine h.put (job.enter .cancelled s) hrow rfl rfl (fun _ _ => rfl) ?_
      refine (h job hrow).congr (fun x => ?_) rfl rfl rfl
      rw [Job.retried_eq_lost hlive.1 hlive.2, Job.retried_eq_lost] <;>
          simp [Job.enter, Change.effect]
  | enroll | seen | drain | takeover | mark | log => exact h

end WaitInv

/-! ## `available_at` -/

/-- How often the job has entered `RETRY_WAIT`. -/
def retries (db : Database) (jobId : Uuid) : ℕ := (trail db jobId).count (.entered .retryWait)

theorem Later.retries_le {db db' : Database} (h : Later db db') (k : Uuid) :
    retries db k ≤ retries db' k :=
  ((h.events.filter _).map _).sublist.count_le _

/-- A change moves `available_at` only with an entry of the job into `RETRY_WAIT`. -/
theorem effect_available {db : Database} {c : Change} (hg : c.guard db) {k : Uuid} {job job' : Job}
    (hrow : db.jobs.find? k = some job) (hrow' : (c.effect db).jobs.find? k = some job') :
    job'.availableAt = job.availableAt ∨ retries (c.effect db) k = retries db k + 1 := by
  -- a rewritten row that keeps the time
  have hput : ∀ {j : Job} (j' : Job), db.jobs.find? j.id = some j → j'.id = j.id →
      j'.availableAt = j.availableAt → (c.effect db).jobs = db.jobs.put j' →
      job'.availableAt = job.availableAt := by
    intro j j' hj hid havail heq
    rw [heq] at hrow'
    by_cases hk : j'.id = k
    · subst hk
      have hself : (db.jobs.put j').find? j'.id = some j' :=
        Table.find?_put_self (r := j') (hid ▸ hj)
      rw [hid, hj, Option.some.injEq] at hrow
      rw [hself, Option.some.injEq] at hrow'
      rw [← hrow, ← hrow', havail]
    · have hsame := (Table.find?_put_ne _ hk).symm.trans hrow'
      rw [hrow, Option.some.injEq] at hsame
      rw [hsame]
  have hsame : (c.effect db).jobs = db.jobs → job'.availableAt = job.availableAt := by
    intro heq
    rw [heq, hrow, Option.some.injEq] at hrow'
    rw [hrow']
  cases c with
  | admitted j q n t t' =>
      have hne : j.id ≠ k := by
        rintro rfl
        exact absurd (hg.fresh.symm.trans hrow) (by simp)
      have heq := (Table.find?_add_ne _ hne).symm.trans hrow'
      rw [hrow, Option.some.injEq] at heq
      exact Or.inl (by rw [heq])
  | retry j a o e t t' s =>
      by_cases hk : j.id = k
      · right
        have htrail : trail ((Change.retry j a o e t t' s).effect db) k =
            trail db k ++ [.entered .retryWait] := by
          rw [trail_append (m := [entered j .retryWait s]) rfl]
          simp [entered, hk]
        simp [retries, htrail, List.count_append]
      · left
        have hne : (Job.enter { j with availableAt := t' } .retryWait s).id ≠ k := hk
        have heq := (Table.find?_put_ne _ hne).symm.trans hrow'
        rw [hrow, Option.some.injEq] at heq
        rw [heq]
  | lease w j a t s => exact Or.inl (hput (j.leased s) hg.job_row rfl rfl rfl)
  | start j a t s => exact Or.inl (hput (j.enter .running s) hg.1.job_row rfl rfl rfl)
  | succeed j a o t s => exact Or.inl (hput (j.enter .succeeded s) hg.1.job_row rfl rfl rfl)
  | fail j a o e r t s =>
      exact Or.inl (hput (j.enter (if r then .deadLetter else .failed) s) hg.1.job_row
        rfl rfl rfl)
  | cancel j s => exact Or.inl (hput (j.enter .cancelled s) hg.1 rfl rfl rfl)
  | renew | enroll | seen | drain | takeover | mark | log => exact Or.inl (hsame rfl)

/-- From `db` to `db'`, the time at which the job is available moves with retries only. -/
def Steady (k : Uuid) (db db' : Database) : Prop :=
  Later db db' ∧ ∀ job job', db.jobs.find? k = some job → db'.jobs.find? k = some job' →
    retries db' k = retries db k → job'.availableAt = job.availableAt

theorem Steady.refl (k : Uuid) (db : Database) : Steady k db db := by
  refine ⟨.refl db, fun job job' h h' _ => ?_⟩
  rw [h, Option.some.injEq] at h'
  rw [h']

theorem Steady.effect {k : Uuid} {db db' : Database} (h : Steady k db db') {c : Change}
    (hg : c.guard db') : Steady k db (c.effect db') := by
  obtain ⟨hlater, hsteady⟩ := h
  have hstep := Later.effect hg
  refine ⟨hlater.trans hstep, fun job job' hrow hrow' heq => ?_⟩
  obtain ⟨mid, hmid, -⟩ := hlater.jobs k job hrow
  have hle := hlater.retries_le k
  have hle' := hstep.retries_le k
  rcases effect_available hg hmid hrow' with havail | hmore
  · exact havail.trans (hsteady job mid hrow hmid (by omega))
  · omega

/-! ## Runs -/

section Runs

variable [Sha256]

/-- The run has a submission that created the job, at a reading of its clock. -/
def Submitted (txns : List Txn) (job : Job) (body : Submit) (createdAt : Time) : Prop :=
  ∃ t ∈ txns, t.request = .submit body ∧ Reads t.Moments createdAt ∧
    ∃ args hash, (newJob job.id body args hash createdAt).Later job

/-- When a job that was never tried is available: when it was scheduled, or at once. -/
def Submit.availableAt (body : Submit) (createdAt : Time) : Time :=
  (body.scheduledAt.map fun d => (d.instant : ℚ) / 1000000).getD createdAt

/-- Every job comes from a submission, and is available from there until it is retried. -/
theorem run_submitted (txns : List Txn) {job : Job}
    (hjob : (run txns).jobs.find? job.id = some job) :
    ∃ body createdAt, Submitted txns job body createdAt ∧
      (retries (run txns) job.id = 0 → job.availableAt = body.availableAt createdAt) := by
  refine (run_invariant_of (I := fun db => ∀ job, db.jobs.find? job.id = some job →
    ∃ body createdAt, Submitted txns job body createdAt ∧
      (retries db job.id = 0 → job.availableAt = body.availableAt createdAt))
    (fun _ h => by simp at h) ?_).2 job hjob
  rintro t ht c db ⟨hallowed, htimed⟩ hinv hg h job hrow
  have hlater := Later.effect hg
  cases hold : db.jobs.find? job.id with
  | some j =>
      have hid : j.id = job.id := Table.key_of_find? hold
      obtain ⟨body, createdAt, ⟨u, hu, hreq, hread, args, hash, hl⟩, havail⟩ := h j (hid ▸ hold)
      obtain ⟨j', hj', hjl⟩ := hlater.jobs _ j hold
      rw [hrow, Option.some.injEq] at hj'
      subst hj'
      refine ⟨body, createdAt, ⟨u, hu, hreq, hread, args, hash, ?_⟩, fun hnone => ?_⟩
      · rw [← hid]
        exact hl.trans hjl
      · have hle := hlater.retries_le job.id
        rcases effect_available hg hold hrow with heq | hmore
        · rw [heq]
          exact havail (by rw [hid]; omega)
        · omega
  | none =>
      rcases effect_jobs hg with ⟨k, q, n, now, now', rfl⟩ | ⟨k, k', hk, -, hkl, heq⟩ | heq
      · have hkj : k.id = job.id := by
          by_contra hne
          exact absurd ((Table.find?_add_ne _ hne).symm.trans hrow) (by simp [hold])
        have hself : (db.jobs.add k).find? k.id = some k := Table.find?_add_self hg.fresh
        rw [hkj] at hself
        obtain rfl : k = job := Option.some.inj (hself.symm.trans hrow)
        cases hreq : t.request with
        | submit body =>
            rw [hreq] at hallowed
            obtain ⟨-, -, id, args, d, τ, -, -, rfl⟩ := hallowed
            exact ⟨body, τ, ⟨t, ht, hreq, htimed, args, digest d, .refl _⟩, fun _ => rfl⟩
        | _ => rw [hreq] at hallowed; exact hallowed.elim
      · have hid : k'.id = k.id := by rw [hkl.1]
        rw [heq] at hrow
        by_cases hkj : k'.id = job.id
        · rw [← hkj, hid, hk] at hold
          cases hold
        · exact absurd ((Table.find?_put_ne _ hkj).symm.trans hrow) (by simp [hold])
      · rw [heq, hold] at hrow
        cases hrow

theorem run_waitInv (txns : List Txn) : WaitInv (run txns) :=
  (run_invariant_of .empty fun _ _ _ _ hc hinv hg h => h.effect hinv hg hc.2).2

/-- Until the job is retried again, a run leaves the time at which it is available. -/
theorem run_available (txns more : List Txn) (k : Uuid) :
    Steady k (run txns) (run (txns ++ more)) := by
  induction more using List.reverseRecOn with
  | nil => rw [List.append_nil]; exact .refl k _
  | append_singleton more t ih =>
      rw [← List.append_assoc, run_snoc]
      exact (commit_invariant (run_inv _) (fun _ _ _ _ hg h => h.effect hg) ih).2

/-- A claim makes at most one lease. -/
theorem commit_claim {db : Database} (hinv : Inv db) {t : Txn} {body : Claim}
    {credential : Option String} (hreq : t.request = .claim body credential) :
    commit db t = db ∨ ∃ w job a timestamp s, (Change.lease w job a timestamp s).guard db ∧
      (Change.lease w job a timestamp s).Timed t.Moments t.config.leaseSeconds ∧
      commit db t = (Change.lease w job a timestamp s).effect db := by
  obtain ⟨cs, hp, hall, heq, -⟩ := commit_timely hinv t
  -- every change is a lease for the claim id
  have hlease : ∀ c ∈ cs, ∃ w job a timestamp s, c = .lease w job a timestamp s ∧
      a.claimId = body.claimId := by
    intro c hc
    have hallowed := (hall c hc).1
    rw [hreq] at hallowed
    cases c with
    | lease w job a τ s => exact ⟨w, job, a, τ, s, rfl, hallowed.2.2⟩
    | _ => exact hallowed.elim
  cases cs with
  | nil => exact Or.inl heq
  | cons c cs =>
      obtain ⟨w, job, a, τ, s, rfl, hac⟩ := hlease c List.mem_cons_self
      refine Or.inr ⟨w, job, a, τ, s, hp.1, (hall _ List.mem_cons_self).2, ?_⟩
      cases cs with
      | nil => exact heq
      | cons c' cs =>
          -- the second one would find the first
          obtain ⟨w', job', a', τ', s', rfl, hac'⟩ :=
            hlease c' (List.mem_cons_of_mem _ List.mem_cons_self)
          have hfresh := hp.2.1.claim_fresh a ((Table.mem_add hp.1.fresh).mpr (Or.inr rfl))
          exact absurd (hac.trans hac'.symm) hfresh

/-- A new attempt is the lease of a job. -/
theorem commit_attempt {db : Database} (hinv : Inv db) {t : Txn} {a : Attempt}
    (ha : (commit db t).attempts.find? a.id = some a) (hnew : db.attempts.find? a.id = none) :
    ∃ w job timestamp s, (Change.lease w job a timestamp s).guard db ∧
      (Change.lease w job a timestamp s).Timed t.Moments t.config.leaseSeconds := by
  obtain ⟨body, credential, hreq⟩ := claim_of_attempt hinv ha hnew
  rcases commit_claim hinv hreq with hsame | ⟨w, job, b, τ, s, hg, htimed, heq⟩
  · rw [hsame, hnew] at ha
    cases ha
  · rw [heq] at ha
    have hab : b.id = a.id := by
      by_contra hne
      exact absurd ((Table.find?_add_ne _ hne).symm.trans ha) (by simp [hnew])
    have hself : (db.attempts.add b).find? b.id = some b := Table.find?_add_self hg.fresh
    rw [hab] at hself
    obtain rfl : b = a := Option.some.inj (hself.symm.trans ha)
    exact ⟨w, job, τ, s, hg, htimed⟩

/-- A job that was never tried was never retried. -/
theorem retries_untried (txns : List Txn) {job : Job}
    (hjob : (run txns).jobs.find? job.id = some job) (h : job.attemptCount = 0) :
    retries (run txns) job.id = 0 := by
  obtain ⟨states, htrail, hf⟩ := (run_logInv txns).job job hjob
  have hnone : attemptsOf (run txns).attempts job.id = [] :=
    List.eq_nil_of_length_eq_zero (((run_inv txns).job job hjob).length_eq.trans h)
  rw [retries, count_trail htrail, hf.retryWait, hnone]
  rfl

/-- **Retry and schedule timing.** In every reachable state, the time at which a job is
available is the end of its last failure with a retry and the delay of that attempt, and it
stays there until the job is retried again; the delays grow and never exceed an hour; a job
is leased at most once more than its retries.  Every claim that makes an attempt has read a
time that is not before this one: for attempt one, the time of the submission's schedule or
admission, for attempt `k + 1`, the end of attempt `k` and its delay. -/
theorem retry_timing (txns : List Txn) :
    (∀ job ∈ (run txns).jobs.rows,
      (∀ a, LastRetry job (attemptsOf (run txns).attempts job.id) a →
        ∃ finishedAt u, a.finishedAt = some finishedAt ∧ job.Jitter u ∧
          job.availableAt = finishedAt + min (job.retryDelay * 2 ^ ((a.fence : ℤ) - 1)) 3600 * u) ∧
      (∀ more job', (run (txns ++ more)).jobs.find? job.id = some job' →
        retries (run (txns ++ more)) job.id = retries (run txns) job.id →
        job'.availableAt = job.availableAt) ∧
      (∀ k, job.backoff k ≤ job.backoff (k + 1) ∧ job.backoff k ≤ 3600) ∧
      (trail (run txns) job.id).count (.entered .leased) ≤ job.maxRetries + 1) ∧
    ∀ t : Txn, ∀ a ∈ (commit (run txns) t).attempts.rows, (run txns).attempts.find? a.id = none →
      ∃ job n, (run txns).jobs.find? a.jobId = some job ∧ a.fence = job.attemptCount + 1 ∧
        a.expiresAt = (t.feed n).time + t.config.leaseSeconds ∧
        job.availableAt ≤ (t.feed n).time ∧
        (a.fence = 1 → ∃ body createdAt, Submitted txns job body createdAt ∧
          body.availableAt createdAt ≤ (t.feed n).time) ∧
        ∀ k, 1 ≤ k → a.fence = k + 1 →
          ∃ b ∈ attemptsOf (run txns).attempts job.id, b.fence = k ∧ b.lost = true ∧
            ∃ finishedAt u, b.finishedAt = some finishedAt ∧ job.Jitter u ∧
              finishedAt + job.backoff k * u ≤ (t.feed n).time := by
  have hinv := run_inv txns
  refine ⟨fun job hjob => ?_, fun t a ha hnew => ?_⟩
  · have hrow : (run txns).jobs.find? job.id = some job := Table.find?_of_mem hjob
    refine ⟨run_waitInv txns job hrow, fun more job' hrow' => ?_, fun k => ?_, ?_⟩
    · exact (run_available txns more job.id).2 job job' hrow hrow'
    · obtain ⟨body, createdAt, ⟨-, -, -, -, args, hash, hl⟩, -⟩ := run_submitted txns hrow
      have hdelay : job.retryDelay = body.retryDelay.toRat := by rw [hl.1]; rfl
      exact ⟨Job.backoff_mono (hdelay ▸ body.retryDelay_range.1), job.backoff_le k⟩
    · obtain ⟨states, htrail, hf⟩ := (run_logInv txns).job job hrow
      rw [count_trail htrail, hf.leased]
      exact (hinv.job job hrow).bound
  · obtain ⟨w, job, τ, s, hg, ⟨m, ⟨n, rfl⟩, rfl⟩, hexp, -⟩ :=
      commit_attempt hinv (Table.find?_of_mem ha) hnew
    obtain ⟨hwait, havail, -⟩ := claimable_iff.mp hg.ready
    refine ⟨job, n, hg.attempt_job ▸ hg.job_row, hg.fence, hexp, havail, ?_, ?_⟩
    · intro hone
      obtain ⟨body, createdAt, hsub, hfirst⟩ := run_submitted txns hg.job_row
      have huntried : job.attemptCount = 0 := by have := hg.fence; omega
      refine ⟨body, createdAt, hsub, ?_⟩
      rw [← hfirst (retries_untried txns hg.job_row huntried)]
      exact havail
    · intro k hk hak
      have hcount : job.attemptCount = k := by have := hg.fence; omega
      have hi := hinv.job job hg.job_row
      obtain ⟨b, hb, hbf⟩ := hi.exists_current (by omega)
      have hlast := lastRetry_current hi hwait hb hbf
      obtain ⟨f, u, hfin, hu, heq⟩ := run_waitInv txns job hg.job_row b hlast
      have hlost : b.lost = true := (Bool.and_eq_true_iff.mp hlast.2.1).1
      refine ⟨b, hb, hbf.trans hcount, hlost, f, u, hfin, hu, ?_⟩
      rw [← hcount, ← hbf, ← heq]
      exact havail

end Runs

end GreyQueue
