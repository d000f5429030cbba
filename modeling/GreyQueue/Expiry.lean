import GreyQueue.Convergence
import GreyQueue.Fencing
import Mathlib.Algebra.Order.Floor.Div

/-!
# Expiry

Four places compare an expiry with the clock: `owned`, `finish`, the query of recovery and the
check that recovery repeats under the lock.  Before the expiry the owner passes both of its
checks and recovery keeps away; from the expiry on the owner fails both and recovery takes
the lease.

## Main definitions

* `OwnerHolds`, `OwnerRefused` — the owner passes both checks, or neither.
* `RecoveryTakes` — recovery selects the job and expires the attempt.
* `expiredRows` — the join that the query of recovery reads.
* `SweepEffect` — what one sweep has made of a database.

## Main results

* `lease_boundary` — recovery takes exactly what owners have lost.
-/

namespace GreyQueue

open Lib
open Lib.Prog (Sat sat_bind)

/-! ## The owner -/

/-- The owner passes the check of `owned` and the equal one of `finish`. -/
def OwnerHolds (feed : ℕ → Moment) (db : Database) (job : Job) (a : Attempt) : Prop :=
  (∀ allowFinished, ((owned job.id a.workerId a.id allowFinished).exec feed db).result =
    .ok (job, a)) ∧
  ∀ output error retryable, ((finish job.id a.workerId a.id output error retryable).exec feed
    db).result ≠ .error (.conflict fencedError)

/-- The owner fails both. -/
def OwnerRefused (feed : ℕ → Moment) (db : Database) (job : Job) (a : Attempt) : Prop :=
  (∀ allowFinished, ((owned job.id a.workerId a.id allowFinished).exec feed db).result =
    .error (.conflict fencedError)) ∧
  ∀ output error retryable, ((finish job.id a.workerId a.id output error retryable).exec feed
    db).result = .error (.conflict fencedError)

section Owner

variable {A : Moment → Prop} {db : Database} {job : Job} {a : Attempt}

/-- `owned` on the current attempt of a held job: only the clock decides. -/
theorem sat_owned_current (hold : Holds db job a) (hf : a.fence = job.attemptCount)
    (allowFinished : Bool) : Sat A (owned job.id a.workerId a.id allowFinished) db fun r _ =>
      (r = .ok (job, a) ∧ ∃ m, A m ∧ m.time < a.expiresAt) ∨
        (r = .error (.conflict fencedError) ∧ ∃ m, A m ∧ a.expiresAt ≤ m.time) := by
  refine (sat_bind _ _ _).mpr (sat_getJob (by simp [hold.job_row]) fun job' hjob' => ?_)
  rw [hold.job_row, Option.some.injEq] at hjob'
  subst hjob'
  refine sat_read (fun _ => rfl) fun _ _ => ?_
  simp only [hold.attempt_row]
  rw [if_neg (by simp [hold.attempt_job]), if_neg (by simp [hold.is_open]),
    if_neg (by simp [hold.is_open, hf])]
  refine sat_databaseTime fun m hm => ?_
  split
  · exact Or.inr ⟨rfl, m, hm, ‹_›⟩
  · exact Or.inl ⟨rfl, m, hm, not_le.mp ‹_›⟩

variable {feed : ℕ → Moment} {τ : Time}

/-- Before its expiry the owner holds the attempt. -/
theorem Inv.ownerHolds (hinv : Inv db) (hold : Holds db job a) (hfeed : ∀ n, (feed n).time = τ)
    (hlive : τ < a.expiresAt) : OwnerHolds feed db job a := by
  obtain ⟨-, -, hf, -⟩ := hinv.holds hold
  refine ⟨fun allowFinished => ?_, fun output error retryable => ?_⟩
  · rcases (sat_owned_current (A := fun m => m.time = τ) hold hf allowFinished).exec hfeed with
      ⟨h, -⟩ | ⟨-, m, hm, hexp⟩
    · exact h
    · exact absurd hexp (not_le.mpr (hm ▸ hlive))
  · have hsat : Sat (fun m => m.time = τ)
        (finish job.id a.workerId a.id output error retryable) db
        fun r _ => r ≠ .error (.conflict fencedError) := by
      refine sat_finish (l := 0) (by simp) ?_ hinv.no_result (by simp) (by simp) (by simp) (by simp)
      intro d hrefuse hd
      obtain rfl : d = fencedError := by simpa using hd
      obtain ⟨m, hm, hexp⟩ := hrefuse.2 rfl job a hold rfl hf
      exact absurd hexp (not_le.mpr (hm ▸ hlive))
    exact hsat.exec hfeed

/-- From its expiry on it is refused. -/
theorem Inv.ownerRefused (hinv : Inv db) (hold : Holds db job a) (hfeed : ∀ n, (feed n).time = τ)
    (hexp : a.expiresAt ≤ τ) : OwnerRefused feed db job a := by
  obtain ⟨-, -, hf, -⟩ := hinv.holds hold
  have howned : ∀ allowFinished, Sat (fun m => m.time = τ)
      (owned job.id a.workerId a.id allowFinished) db
      fun r _ => r = .error (.conflict fencedError) := by
    refine fun allowFinished => (sat_owned_current hold hf allowFinished).mono ?_
    rintro r - (⟨-, m, hm, hlive⟩ | ⟨h, -⟩)
    · exact absurd hlive (not_lt.mpr (hm ▸ hexp))
    · exact h
  refine ⟨fun allowFinished => (howned allowFinished).exec hfeed, fun output error retryable => ?_⟩
  have hsat : Sat (fun m => m.time = τ) (finish job.id a.workerId a.id output error retryable) db
      fun r _ => r = .error (.conflict fencedError) :=
    (howned true).bind (fun _ _ h => by simp at h) fun _ _ h => by simpa using h
  exact hsat.exec hfeed

end Owner

/-! ## The query -/

/-- The rows of the join of jobs and attempts that the first query of recovery keeps. -/
def expiredRows (τ : Time) (db : Database) : List (Job × Attempt) :=
  (db.jobs.rows.product db.attempts.rows).filter fun p =>
    decide (p.2.jobId = p.1.id) && p.2.isOpen && decide (p.2.expiresAt ≤ τ) && p.1.status.held

section Query

variable (τ : Time) {db : Database} (hinv : Inv db)

include hinv

/-- The expired open attempts of a job: one or none. -/
theorem length_filter_expired {job : Job} (hrow : db.jobs.find? job.id = some job) :
    ((attemptsOf db.attempts job.id).filter
      fun a => a.isOpen && decide (a.expiresAt ≤ τ)).length =
      if leaseExpired db τ job then 1 else 0 := by
  obtain ⟨hone, hzero⟩ := hinv.openAttempts_length hrow
  have hsplit : (attemptsOf db.attempts job.id).filter
      (fun a => a.isOpen && decide (a.expiresAt ≤ τ)) =
      (openAttempts db job.id).filter fun a => decide (a.expiresAt ≤ τ) := by
    rw [openAttempts, List.filter_filter]
    exact List.filter_congr fun a _ => Bool.and_comm _ _
  have hexpired : leaseExpired db τ job = true ↔ job.status.held = true ∧
      ∃ a ∈ openAttempts db job.id, a.expiresAt ≤ τ := by
    simp only [leaseExpired_iff, mem_openAttempts, mem_attemptsOf]
    grind
  rw [hsplit]
  cases hheld : job.status.held with
  | false => simp [hzero hheld, hexpired, hheld]
  | true =>
      obtain ⟨a, ha⟩ := List.length_eq_one_iff.mp (hone hheld)
      by_cases hlate : a.expiresAt ≤ τ <;> simp [ha, hexpired, hheld, hlate]

/-- Each expired lease is that of one job. -/
theorem length_expiredJobs : (expiredJobs τ db).length = expiredLeases τ db := by
  rw [expiredLeases, Table.countP_groups db.jobs Attempt.jobId _ hinv.attempt_job, expiredJobs,
    ← List.countP_eq_length_filter]
  have hgroup : ∀ job ∈ db.jobs.rows,
      (db.attempts.rows.filter fun a => decide (a.jobId = Keyed.key job)).countP
        (fun a => a.isOpen && decide (a.expiresAt ≤ τ)) =
      if leaseExpired db τ job then 1 else 0 := by
    intro job hjob
    rw [List.countP_eq_length_filter]
    exact length_filter_expired τ hinv (Table.find?_of_mem hjob)
  rw [List.map_congr_left hgroup]
  induction db.jobs.rows with
  | nil => rfl
  | cons job jobs ih => rw [List.countP_cons, List.map_cons, List.sum_cons, ih, Nat.add_comm]

/-- The join has one row for each job that it selects. -/
theorem fst_expiredRows : (expiredRows τ db).map Prod.fst = expiredJobs τ db := by
  have hgroup : ∀ job ∈ db.jobs.rows, (((db.attempts.rows.map (Prod.mk job)).filter fun p =>
      decide (p.2.jobId = p.1.id) && p.2.isOpen && decide (p.2.expiresAt ≤ τ) &&
        p.1.status.held).map Prod.fst) = if leaseExpired db τ job then [job] else [] := by
    intro job hjob
    have hrow : db.jobs.find? job.id = some job := Table.find?_of_mem hjob
    have hlength := length_filter_expired τ hinv hrow
    rw [List.filter_map, List.map_map, List.eq_replicate_of_mem (l := List.map _ _) (a := job)
      (by simp), List.length_map]
    have hfilter : (db.attempts.rows.filter ((fun p : Job × Attempt =>
        decide (p.2.jobId = p.1.id) && p.2.isOpen && decide (p.2.expiresAt ≤ τ) &&
          p.1.status.held) ∘ Prod.mk job)) =
        (attemptsOf db.attempts job.id).filter fun a => a.isOpen && decide (a.expiresAt ≤ τ) := by
      rw [attemptsOf, List.filter_filter]
      refine List.filter_congr fun a ha => ?_
      by_cases haj : a.jobId = job.id
      · by_cases hopen : a.isOpen = true
        · have hheld := ((hinv.job job hrow).of_open (mem_attemptsOf.mpr ⟨ha, haj⟩)
            (by simpa [Attempt.isOpen] using hopen)).2.1
          simp [haj, hheld]
        · have hclosed : a.isOpen = false := by simpa using hopen
          simp [hclosed]
      · simp [haj]
    rw [hfilter, hlength]
    split <;> rfl
  rw [expiredRows, List.product, List.filter_flatMap, List.map_flatMap, expiredJobs]
  generalize db.jobs.rows = jobs at hgroup
  induction jobs with
  | nil => rfl
  | cons job jobs ih =>
      rw [List.flatMap_cons, hgroup job List.mem_cons_self, List.filter_cons,
        ih fun j hj => hgroup j (List.mem_cons_of_mem _ hj)]
      split <;> rfl

end Query

/-! ## One sweep -/

/-- What one sweep at `τ` has made of `db`: the attempts in `failed` have expired, their jobs
wait for a retry or are dead-lettered, and the other attempts are as they were, with their
jobs where they are open. -/
structure SweepEffect (τ : Time) (db d : Database) (failed : List Attempt) : Prop where
  nodup : failed.Nodup
  expired : ∀ a ∈ failed, a ∈ db.attempts.rows ∧ a.Expired τ
  closed : ∀ a ∈ failed, d.attempts.find? a.id = some (a.expire τ)
  lost : ∀ a ∈ failed, ∃ job t s, db.jobs.find? a.jobId = some job ∧
    d.jobs.find? a.jobId = some (Job.enter { job with availableAt := t } job.afterLoss s)
  untouched : ∀ a ∈ db.attempts.rows, a ∉ failed → d.attempts.find? a.id = some a
  leased : ∀ a ∈ db.attempts.rows, a ∉ failed → a.finishedAt = none →
    d.jobs.find? a.jobId = db.jobs.find? a.jobId
  attempt_ids : d.attempts.rows.map Attempt.id = db.attempts.rows.map Attempt.id

section Sweep

variable {τ : Time} {db d : Database}

/-- A change of a sweep expires one lease or none. -/
theorem expiredLeases_effect {c : Change} (hg : c.guard db) (hc : c.Recovers τ db) :
    expiredLeases τ (c.effect db) + (if c.fails then 1 else 0) = expiredLeases τ db := by
  cases c with
  | retry job a o e t t' s => exact expiredLeases_close hg.1 hc.1 rfl
  | fail job a o e r t s => exact expiredLeases_close hg.1 hc.1 rfl
  | cancel job s => rfl
  | log e => rfl
  | _ => exact hc.elim

theorem Sweeps.expiredLeases {cs : List Change} (h : Sweeps τ cs db d) :
    expiredLeases τ d + cs.countP Change.fails = expiredLeases τ db := by
  obtain ⟨hp, rfl⟩ := h
  exact hp.measure (I := fun _ => True) (fun _ _ _ _ => trivial)
    (fun _ _ hg _ => expiredLeases_effect hg.1 hg.2) trivial

/-- A sweep takes as many expired leases as its limit admits. -/
theorem Swept.expiredLeases {limit n : ℕ} (h : Swept τ limit db (.ok n) d) (hinv : Inv db) :
    n = min limit (expiredLeases τ db) ∧ expiredLeases τ d + n = expiredLeases τ db := by
  obtain ⟨cs, mid, cs', hcs, hcs', hn, hfails, -, hnone, -⟩ := h
  have hfirst := hcs.expiredLeases
  have hsecond := hcs'.expiredLeases
  rw [length_expiredJobs τ hinv] at hn
  exact ⟨hn, by omega⟩

theorem exec_sweep (hinv : Inv db) (limit : ℕ) {feed : ℕ → Moment} (hfeed : ∀ n, Quiet τ (feed n)) :
    ((recoverJobs limit).exec feed db).result = .ok (min limit (expiredLeases τ db)) ∧
      Swept τ limit db (.ok (min limit (expiredLeases τ db)))
        ((recoverJobs limit).exec feed db).state := by
  have hswept := (sat_sweep hinv limit).exec hfeed
  cases hr : ((recoverJobs limit).exec feed db).result with
  | error e =>
      rw [hr] at hswept
      exact hswept.elim
  | ok n =>
      rw [hr] at hswept
      obtain ⟨rfl, -⟩ := hswept.expiredLeases hinv
      exact ⟨rfl, hswept⟩

/-- The attempts that sweeps have failed, and what has become of the others. -/
theorem Recovered.sweepEffect (h : Recovered τ db d) (hinv : Inv db) (hinv' : Inv d) :
    ∃ failed, SweepEffect τ db d failed ∧
      failed.length + expiredLeases τ d = expiredLeases τ db := by
  set p : Attempt → Bool := fun a => a.isOpen && decide (a.expiresAt ≤ τ) with hp
  have hexpired : ∀ a, p a = true ↔ a.Expired τ := fun a => by simp [hp, Attempt.Expired]
  set row : Attempt → Attempt := fun a => (d.attempts.find? a.id).getD a with hrow
  have hrows : d.attempts.rows = db.attempts.rows.map row := Table.rows_eq_map_find? h.attempt_ids
  -- a row is as it was, or was open and is closed
  have hcases : ∀ a ∈ db.attempts.rows, d.attempts.find? a.id = some (row a) ∧
      (row a = a ∨ (p a = true ∧ row a = a.expire τ)) := by
    intro a ha
    obtain ⟨b, hb, hcase⟩ := h.attempt a.id a (Table.find?_of_mem ha)
    have hb' : row a = b := by simp [hrow, hb]
    rw [hb']
    exact ⟨hb, hcase.imp id fun h => ⟨(hexpired a).mpr h.1, h.2⟩⟩
  have hclosed : ∀ a : Attempt, p (a.expire τ) = false := fun a => by
    simp [hp, Attempt.isOpen, Attempt.expire, Attempt.close]
  have hmem : ∀ {a}, a ∈ db.attempts.rows.filter (fun a => p a && !p (row a)) ↔
      a ∈ db.attempts.rows ∧ p a = true ∧ p (row a) = false := by simp
  have hdone : ∀ {a}, a ∈ db.attempts.rows.filter (fun a => p a && !p (row a)) →
      d.attempts.find? a.id = some (a.expire τ) := by
    intro a ha
    obtain ⟨ha, hpa, hpr⟩ := hmem.mp ha
    obtain ⟨hfind, hsame | ⟨-, hclose⟩⟩ := hcases a ha
    · rw [hsame, hpa] at hpr
      cases hpr
    · rw [hfind, hclose]
  have hkept : ∀ {a}, a ∈ db.attempts.rows →
      a ∉ db.attempts.rows.filter (fun a => p a && !p (row a)) →
      d.attempts.find? a.id = some a := by
    intro a ha hnot
    obtain ⟨hfind, hsame | ⟨hpa, hclose⟩⟩ := hcases a ha
    · rw [hfind, hsame]
    · exact absurd (hmem.mpr ⟨ha, hpa, by rw [hclose, hclosed]⟩) hnot
  refine ⟨db.attempts.rows.filter fun a => p a && !p (row a), ⟨?_, ?_, fun a => hdone, ?_,
    fun a => hkept, ?_, h.attempt_ids⟩, ?_⟩
  · exact List.filter_sublist.nodup (List.Nodup.of_map _ db.attempts.nodup)
  · intro a ha
    obtain ⟨ha, hpa, -⟩ := hmem.mp ha
    exact ⟨ha, (hexpired a).mp hpa⟩
  · intro a ha
    obtain ⟨hrow, hpa, -⟩ := hmem.mp ha
    have hexp : a.Expired τ := (hexpired a).mp hpa
    obtain ⟨job, hjob, -⟩ := hinv.leaseExpired hrow hexp
    have hid : job.id = a.jobId := Table.key_of_find? hjob
    obtain ⟨t, s, hjob', -⟩ := h.job_closed hinv hinv' (hid ▸ hjob) hrow hid.symm
      (by simpa [Attempt.isOpen] using hexp.1) (hdone ha)
    exact ⟨job, t, s, hjob, hid ▸ hjob'⟩
  · intro a ha hnot hopen
    obtain ⟨job, hjob⟩ := hinv.attempt_job a ha
    have hid : job.id = a.jobId := Table.key_of_find? hjob
    rw [← hid] at hjob ⊢
    rw [hjob]
    exact h.job_open hinv hinv' hjob ha hid.symm hopen (hkept ha hnot)
  · rw [expiredLeases, expiredLeases, hrows, List.countP_map, ← List.countP_eq_length_filter,
      List.countP_eq_countP_filter_add db.attempts.rows p fun a => p (row a)]
    have hstill : db.attempts.rows.countP (p ∘ row) =
        (db.attempts.rows.filter fun a => p (row a)).countP p := by
      rw [List.countP_filter]
      refine List.countP_congr fun a ha => ?_
      obtain ⟨-, hsame | ⟨hpa, -⟩⟩ := hcases a ha
      · simp [hsame]
      · simp [hpa]
    rw [hstill, List.countP_filter, List.countP_filter]
    exact Nat.add_comm _ _

/-- The database after sweeps that follow each other. -/
def sweptBy (limit : ℕ) (db : Database) (feeds : List (ℕ → Moment)) : Database :=
  feeds.foldl (fun d feed => ((recoverJobs limit).exec feed d).state) db

/-- Each sweep takes `limit` leases off, as long as there are so many. -/
theorem expiredLeases_sweptBy (hinv : Inv db) (hdep : DepInv db) (limit : ℕ)
    {feeds : List (ℕ → Moment)} (hfeeds : ∀ feed ∈ feeds, ∀ n, Quiet τ (feed n)) :
    expiredLeases τ (sweptBy limit db feeds) = expiredLeases τ db - feeds.length * limit := by
  induction feeds generalizing db with
  | nil => simp [sweptBy]
  | cons feed feeds ih =>
      obtain ⟨-, hswept⟩ := exec_sweep hinv limit (hfeeds feed List.mem_cons_self)
      obtain ⟨hinv', hdep', -⟩ := hswept.recovered hinv hdep (.refl τ db)
      obtain ⟨-, hcount⟩ := hswept.expiredLeases hinv
      have hrest := ih hinv' hdep' fun f hf => hfeeds f (List.mem_cons_of_mem _ hf)
      rw [sweptBy, List.foldl_cons, ← sweptBy, hrest, List.length_cons, Nat.add_mul, one_mul]
      omega

variable {job : Job} {a : Attempt} {limit : ℕ} {feed : ℕ → Moment}

/-- Recovery selects the job and expires the attempt. -/
def RecoveryTakes (limit : ℕ) (feed : ℕ → Moment) (τ : Time) (db : Database) (job : Job)
    (a : Attempt) : Prop :=
  job ∈ expiredJobs τ db ∧
    ((recoverJobs limit).exec feed db).state.attempts.find? a.id = some (a.expire τ)

/-- The query selects the job of an open attempt from its expiry on. -/
theorem mem_expiredJobs_iff (hinv : Inv db) (hold : Holds db job a) :
    job ∈ expiredJobs τ db ↔ a.expiresAt ≤ τ := by
  obtain ⟨hi, hmem, hf, hheld, -⟩ := hinv.holds hold
  rw [expiredJobs, List.mem_filter, leaseExpired_iff]
  constructor
  · rintro ⟨-, -, b, hb, hbj, hopen, hexp⟩
    have hbmem := mem_attemptsOf.mpr ⟨hb, hbj⟩
    rwa [hi.eq_of_fence hmem hbmem (hf.trans (hi.of_open hbmem hopen).1.symm)]
  · intro hexp
    exact ⟨Table.mem_of_find? hold.job_row, hheld, a, Table.mem_of_find? hold.attempt_row,
      hold.attempt_job, hold.is_open, hexp⟩

/-- Recovery takes an attempt from its expiry on. -/
theorem recoveryTakes_iff (hinv : Inv db) (hdep : DepInv db) (hold : Holds db job a)
    (hfeed : ∀ n, Quiet τ (feed n)) (hlimit : expiredLeases τ db ≤ limit) :
    RecoveryTakes limit feed τ db job a ↔ a.expiresAt ≤ τ := by
  constructor
  · exact fun h => (mem_expiredJobs_iff hinv hold).mp h.1
  · intro hexp
    refine ⟨(mem_expiredJobs_iff hinv hold).mpr hexp, ?_⟩
    obtain ⟨-, hswept⟩ := exec_sweep hinv limit hfeed
    obtain ⟨hinv', -, hrec⟩ := hswept.recovered hinv hdep (.refl τ db)
    obtain ⟨failed, heffect, -⟩ := hrec.sweepEffect hinv hinv'
    obtain ⟨-, hcount⟩ := hswept.expiredLeases hinv
    refine heffect.closed a ?_
    by_contra hnot
    -- an attempt that was left alone would still be counted
    have hrow := heffect.untouched a (Table.mem_of_find? hold.attempt_row) hnot
    have hpos : 0 < expiredLeases τ ((recoverJobs limit).exec feed db).state := by
      refine List.countP_pos_iff.mpr ⟨a, Table.mem_of_find? hrow, ?_⟩
      simp [Attempt.isOpen, hold.is_open, hexp]
    omega

variable [Sha256]

/-- Recovery leaves an attempt alone before its expiry, whatever is locked. -/
theorem recoverJobs_keeps (hinv : Inv db) (hold : Holds db job a)
    (hfeed : ∀ n, (feed n).time = τ) (hlive : τ < a.expiresAt) :
    ((recoverJobs limit).exec feed db).state.attempts.find? a.id = some a ∧
      ((recoverJobs limit).exec feed db).state.jobs.find? job.id = some job := by
  have hsat : Sat (fun m => m.time = τ) (recoverJobs limit) db fun _ d =>
      d.attempts.find? a.id = some a ∧ d.jobs.find? job.id = some job := by
    refine sat_recoverJobs {} hinv fun n d hmake => ?_
    suffices h : Inv d ∧ Holds d job a from ⟨h.2.attempt_row, h.2.job_row⟩
    refine hmake.invariant (I := fun d => Inv d ∧ Holds d job a) ?_ ⟨hinv, hold⟩
    rintro c ⟨hallow, htimed⟩ d hg ⟨hinvd, holdd⟩
    refine ⟨hinvd.effect hg, ?_⟩
    obtain ⟨hi, hmem, hf, hheld, -⟩ := hinvd.holds holdd
    -- a lease that is failed has expired, so it is another one
    have hother : ∀ {j b}, Holds d j b → (∃ t, Reads (fun m => m.time = τ) t ∧ b.expiresAt ≤ t) →
        b.id ≠ a.id ∧ j.id ≠ job.id := by
      rintro j b hb ⟨t, ⟨m, hm, rfl⟩, hexp⟩
      have hne : b ≠ a := by
        rintro rfl
        exact absurd hlive (not_lt.mpr (hm ▸ hexp))
      refine ⟨fun hid => hne ?_, fun hid => hne ?_⟩
      · exact Table.eq_of_key (Table.mem_of_find? hb.attempt_row)
          (Table.mem_of_find? holdd.attempt_row) hid
      · have hbmem := mem_attemptsOf.mpr
          ⟨Table.mem_of_find? hb.attempt_row, hb.attempt_job.trans hid⟩
        exact hi.eq_of_fence hbmem hmem ((hi.of_open hbmem hb.is_open).1.trans hf.symm)
    cases c with
    | retry j b o e t t' s =>
        obtain ⟨hb, hj⟩ := hother hg.1 (htimed.1.2 hallow.1)
        exact ⟨(Table.find?_put_ne _ hj).trans holdd.job_row,
          (Table.find?_put_ne _ hb).trans holdd.attempt_row, holdd.attempt_job, holdd.is_open⟩
    | fail j b o e r t s =>
        obtain ⟨hb, hj⟩ := hother hg.1 (htimed.1.2 hallow.1)
        exact ⟨(Table.find?_put_ne _ hj).trans holdd.job_row,
          (Table.find?_put_ne _ hb).trans holdd.attempt_row, holdd.attempt_job, holdd.is_open⟩
    | cancel j s =>
        have hj : j.id ≠ job.id := by
          intro hid
          have hrow := hg.1
          rw [hid, holdd.job_row, Option.some.injEq] at hrow
          have hwait := hrow ▸ hg.2
          exact Status.not_held_of_waiting hwait hheld
        exact ⟨(Table.find?_put_ne _ hj).trans holdd.job_row, holdd.attempt_row, holdd.attempt_job,
          holdd.is_open⟩
    | log e => exact ⟨holdd.job_row, holdd.attempt_row, holdd.attempt_job, holdd.is_open⟩
    | _ => exact hallow.elim
  exact hsat.exec hfeed

end Sweep

/-- **Recovery takes exactly what owners have lost.** In every reachable state and at every
time, either the owner of an open attempt passes the checks of `owned` and `finish`, or
recovery selects its job and expires it, and never both; whatever is locked, recovery leaves
what the owner holds.  The join that recovery reads has one row for each job.  While no
row is locked, a sweep fails as many expired leases as its limit admits and says how many,
and sweeps that follow each other clear them all once there are enough of them. -/
theorem lease_boundary [Sha256] (txns : List Txn) (τ : Time) :
    (∀ job a, Holds (run txns) job a → ∀ feed, (∀ n, (feed n).time = τ) →
      (OwnerHolds feed (run txns) job a ∨ OwnerRefused feed (run txns) job a) ∧
      (∀ limit sweep, (∀ n, Quiet τ (sweep n)) → expiredLeases τ (run txns) ≤ limit →
        Xor (OwnerHolds feed (run txns) job a) (RecoveryTakes limit sweep τ (run txns) job a)) ∧
      (OwnerHolds feed (run txns) job a → job ∉ expiredJobs τ (run txns) ∧
        ∀ limit sweep, (∀ n, (sweep n).time = τ) →
          ((recoverJobs limit).exec sweep (run txns)).state.attempts.find? a.id = some a ∧
          ((recoverJobs limit).exec sweep (run txns)).state.jobs.find? job.id = some job)) ∧
    (expiredRows τ (run txns)).map Prod.fst = expiredJobs τ (run txns) ∧
    ∀ limit,
      (∀ sweep, (∀ n, Quiet τ (sweep n)) →
        ((recoverJobs limit).exec sweep (run txns)).result =
          .ok (min limit (expiredLeases τ (run txns))) ∧
        ∃ failed, failed.length = min limit (expiredLeases τ (run txns)) ∧
          SweepEffect τ (run txns) ((recoverJobs limit).exec sweep (run txns)).state failed) ∧
      ∀ sweeps : List (ℕ → Moment), (∀ sweep ∈ sweeps, ∀ n, Quiet τ (sweep n)) →
        expiredLeases τ (sweptBy limit (run txns) sweeps) =
          expiredLeases τ (run txns) - sweeps.length * limit ∧
        (0 < limit → (expiredLeases τ (sweptBy limit (run txns) sweeps) = 0 ↔
          expiredLeases τ (run txns) ⌈/⌉ limit ≤ sweeps.length)) := by
  have hinv := run_inv txns
  have hdep := run_depInv txns
  refine ⟨fun job a hold feed hfeed => ?_, fst_expiredRows τ hinv, fun limit => ⟨?_, ?_⟩⟩
  · have hnever : OwnerHolds feed (run txns) job a → τ < a.expiresAt := by
      intro hholds
      by_contra hexp
      have hrefused := (hinv.ownerRefused hold hfeed (not_lt.mp hexp)).1 true
      rw [hholds.1 true] at hrefused
      cases hrefused
    refine ⟨?_, fun limit sweep hsweep hlimit => ?_,
      fun hholds => ⟨?_, fun limit sweep hsweep => ?_⟩⟩
    · rcases lt_or_ge τ a.expiresAt with hlive | hexp
      · exact Or.inl (hinv.ownerHolds hold hfeed hlive)
      · exact Or.inr (hinv.ownerRefused hold hfeed hexp)
    · have htakes := recoveryTakes_iff hinv hdep hold hsweep hlimit
      rcases lt_or_ge τ a.expiresAt with hlive | hexp
      · exact Or.inl ⟨hinv.ownerHolds hold hfeed hlive,
          fun h => absurd hlive (not_lt.mpr (htakes.mp h))⟩
      · exact Or.inr ⟨htakes.mpr hexp, fun h => absurd (hnever h) (not_lt.mpr hexp)⟩
    · exact fun hmem =>
        absurd (hnever hholds) (not_lt.mpr ((mem_expiredJobs_iff hinv hold).mp hmem))
    · exact recoverJobs_keeps hinv hold hsweep (hnever hholds)
  · intro sweep hsweep
    obtain ⟨hresult, hswept⟩ := exec_sweep hinv limit hsweep
    obtain ⟨hinv', -, hrec⟩ := hswept.recovered hinv hdep (.refl τ _)
    obtain ⟨failed, heffect, hlength⟩ := hrec.sweepEffect hinv hinv'
    obtain ⟨-, hcount⟩ := hswept.expiredLeases hinv
    exact ⟨hresult, failed, by omega, heffect⟩
  · intro sweeps hsweeps
    have hleft := expiredLeases_sweptBy hinv hdep limit hsweeps
    refine ⟨hleft, fun hpos => ?_⟩
    rw [hleft, Nat.sub_eq_zero_iff_le, ceilDiv_le_iff_le_mul hpos, Nat.mul_comm]

end GreyQueue
