import GreyQueue.Sweep
import GreyQueue.Trail

/-!
# Recovery converges

Sweeps that follow each other while nothing else runs.  Every change of a sweep takes one
expired lease or one waiting job that no success can release, so only so many sweeps change
anything.  The invariant `Recovered` says how far the sweeps have come from the database
they started in; where they stop it leaves no choice.

## Main definitions

* `sweepMeasure` — what the sweeps have still to do.
* `Recovered` — a database that sweeps have led to.
* `Settled` — the database they stop in, read off the one they started in.

## Main results

* `measure_effect` — a sweep's changes lower the measure.
* `Recovered.effect` — and undo nothing.
* `recovery_converges` — the fixpoint, its bound and its uniqueness.
-/

namespace GreyQueue

open Lib

/-! ## The measure -/

/-- The number of open leases that have expired. -/
def expiredLeases (τ : Time) (db : Database) : ℕ :=
  db.attempts.rows.countP fun a => a.isOpen && decide (a.expiresAt ≤ τ)

/-- The number of waiting jobs. -/
def waitingJobs (db : Database) : ℕ := db.jobs.rows.countP fun job => job.status.waiting

/-- The job waits for a parent that has not succeeded. -/
def stuck (db : Database) (job : Job) : Bool :=
  job.status.waiting && job.dependsOn.any fun p =>
    decide ((db.jobs.find? p).map Job.status ≠ some .succeeded)

/-- What the sweeps have still to do. -/
def sweepMeasure (τ : Time) (db : Database) : ℕ :=
  expiredLeases τ db + db.jobs.rows.countP (stuck db)

theorem sweepMeasure_le (τ : Time) (db : Database) :
    sweepMeasure τ db ≤ expiredLeases τ db + waitingJobs db := by
  refine Nat.add_le_add_left (List.countP_mono_left fun job _ h => ?_) _
  exact (Bool.and_eq_true_iff.mp h).1

section Measure

variable {τ : Time} {db db' : Database}

/-- Closing an expired lease lowers their number by one. -/
theorem expiredLeases_close {job : Job} {a : Attempt} {o : AttemptOutcome} {e : String} {t : Time}
    (hold : Holds db job a) (hexp : a.expiresAt ≤ τ)
    (hattempts : db'.attempts = db.attempts.put (a.close o e t)) :
    expiredLeases τ db' + 1 = expiredLeases τ db := by
  have hcount := Table.countP_put (s := a.close o e t)
    (fun a => a.isOpen && decide (a.expiresAt ≤ τ)) (fun a => a.isOpen && decide (a.expiresAt ≤ τ))
    hold.attempt_row rfl fun _ _ _ => rfl
  have hbefore : (a.isOpen && decide (a.expiresAt ≤ τ)) = true := by
    simp [Attempt.isOpen, hold.is_open, hexp]
  have hafter : ((a.close o e t).isOpen && decide ((a.close o e t).expiresAt ≤ τ)) = false := by
    simp [Attempt.isOpen, Attempt.close]
  rw [hbefore, hafter] at hcount
  rw [expiredLeases, expiredLeases, hattempts]
  simpa using hcount

/-- A job that does not succeed releases nobody. -/
theorem countP_stuck {job job' : Job} (hrow : db.jobs.find? job.id = some job)
    (hid : job'.id = job.id) (hjobs : db'.jobs = db.jobs.put job')
    (hs : job.status ≠ .succeeded) (hs' : job'.status ≠ .succeeded) :
    db'.jobs.rows.countP (stuck db') + (if stuck db job then 1 else 0) =
      db.jobs.rows.countP (stuck db) + if stuck db' job' then 1 else 0 := by
  rw [hjobs]
  refine Table.countP_put _ _ hrow hid fun x _ _ => ?_
  -- the other jobs find their parents as they were, or as far from a success
  have hfind : ∀ p, (db'.jobs.find? p).map Job.status = some .succeeded ↔
      (db.jobs.find? p).map Job.status = some .succeeded := by
    intro p
    rw [hjobs]
    by_cases hp : job'.id = p
    · have hself : (db.jobs.put job').find? p = some job' := by
        rw [← hp]
        exact Table.find?_put_self (r := job') (hid ▸ hrow)
      rw [hself, ← hp, hid, hrow]
      simp [hs, hs']
    · rw [Table.find?_put_ne _ hp]
  simp only [stuck, ne_eq, hfind]

theorem stuck_of_tried (hdep : DepInv db) {job : Job} (hrow : db.jobs.find? job.id = some job)
    (ht : job.Tried) {job' : Job} (hdepends : job'.dependsOn = job.dependsOn)
    (hlater : Later db db') : stuck db' job' = false := by
  have hdone := DepInv.parentDone_later hlater (hdep.tried job.id job hrow ht)
  cases hp : job.dependsOn with
  | none => simp [stuck, hdepends, hp]
  | some p =>
      obtain ⟨parent, hparent, hs⟩ := hdone p hp
      simp [stuck, hdepends, hp, hparent, hs]

/-- An expired lease is failed. -/
theorem measure_close (hdep : DepInv db) (hlater : Later db db') {job : Job} (job' : Job)
    {a : Attempt} {o : AttemptOutcome} {e : String} {t : Time} (hold : Holds db job a)
    (hheld : job.status.held = true) (hexp : a.expiresAt ≤ τ) (hid : job'.id = job.id)
    (hdepends : job'.dependsOn = job.dependsOn) (hs : job'.status ≠ .succeeded)
    (hjobs : db'.jobs = db.jobs.put job')
    (hattempts : db'.attempts = db.attempts.put (a.close o e t)) :
    sweepMeasure τ db' + 1 = sweepMeasure τ db := by
  have ht : job.Tried := Or.inr (by cases hs : job.status <;> simp_all [Status.held])
  have hunsuccessful : job.status ≠ .succeeded := by
    intro hs
    simp [hs, Status.held] at hheld
  have hleases := expiredLeases_close hold hexp hattempts
  have hwaiting := countP_stuck hold.job_row hid hjobs hunsuccessful hs
  rw [stuck_of_tried hdep hold.job_row ht rfl (.refl db),
    stuck_of_tried hdep hold.job_row ht hdepends hlater] at hwaiting
  simp only [Bool.false_eq_true, if_false] at hwaiting
  rw [sweepMeasure, sweepMeasure]
  omega

/-- A waiting job with a failed parent is cancelled. -/
theorem measure_cancel {job : Job} {s : Stamp} (hrow : db.jobs.find? job.id = some job)
    (hfailed : parentFailed db job = true) :
    sweepMeasure τ ((Change.cancel job s).effect db) + 1 = sweepMeasure τ db := by
  obtain ⟨hwait, p, parent, hp, hparent, hs⟩ := parentFailed_iff.mp hfailed
  have hunsuccessful : job.status ≠ .succeeded := by
    intro hs
    simp [hs, Status.waiting] at hwait
  have hbefore : stuck db job = true := by
    rcases hs with hs | hs | hs <;> simp [stuck, hwait, hp, hparent, hs]
  have hwaiting : ((Change.cancel job s).effect db).jobs.rows.countP
        (stuck ((Change.cancel job s).effect db)) + (if stuck db job then 1 else 0) =
      db.jobs.rows.countP (stuck db) +
        if stuck ((Change.cancel job s).effect db) (job.enter .cancelled s) then 1 else 0 :=
    countP_stuck hrow rfl rfl hunsuccessful (by simp [Job.enter])
  have hafter : stuck ((Change.cancel job s).effect db) (job.enter .cancelled s) = false := rfl
  rw [hbefore, hafter] at hwaiting
  simp only [Bool.false_eq_true, if_false, if_true] at hwaiting
  have hleases : expiredLeases τ ((Change.cancel job s).effect db) = expiredLeases τ db := rfl
  rw [sweepMeasure, sweepMeasure]
  omega

/-- A failed or cancelled job, and nothing else, is taken off the measure. -/
theorem measure_effect (hdep : DepInv db) {c : Change} (hg : c.guard db)
    (hc : c.Recovers τ db) :
    sweepMeasure τ (c.effect db) + (if c.fails || c.cancels then 1 else 0) =
      sweepMeasure τ db := by
  have hlater := Later.effect hg
  cases c with
  | retry job a o e t t' s =>
      exact measure_close hdep hlater (Job.enter { job with availableAt := t' } .retryWait s)
        hg.1 hg.2.1 hc.1 rfl rfl (by simp [Job.enter]) rfl rfl
  | fail job a o e r t s =>
      refine measure_close hdep hlater (job.enter (if r then .deadLetter else .failed) s)
        hg.1 hg.2.1 hc.1 rfl rfl ?_ rfl rfl
      cases r <;> simp [Job.enter]
  | cancel job s => exact measure_cancel hg.1 hc
  | log e => rfl
  | _ => exact hc.elim

/-- Sweeps lower the measure by the jobs they fail and cancel. -/
theorem Sweeps.measure {cs : List Change} (h : Sweeps τ cs db db') (hinv : Inv db)
    (hdep : DepInv db) :
    sweepMeasure τ db' + cs.countP (fun c => c.fails || c.cancels) = sweepMeasure τ db := by
  obtain ⟨hp, rfl⟩ := h
  refine hp.measure (I := fun d => Inv d ∧ DepInv d) ?_ ?_ ⟨hinv, hdep⟩
  · rintro c d ⟨hg, -⟩ ⟨hinv, hdep⟩
    exact ⟨hinv.effect hg, hdep.effect hinv hg⟩
  · rintro c d ⟨hg, hc⟩ ⟨-, hdep⟩
    exact measure_effect hdep hg hc

/-- No lease has expired and no waiting job has a failed parent. -/
def Stable (τ : Time) (db : Database) : Prop := expiredJobs τ db = [] ∧ blockedJobs db = []

/-- A sweep changes nothing where nothing is left to do, and makes progress elsewhere. -/
theorem Swept.progress {limit n : ℕ} (h : Swept τ limit db (.ok n) db') (hinv : Inv db)
    (hdep : DepInv db) (hlimit : 1 ≤ limit) :
    (Stable τ db ∧ db' = db) ∨ (¬ Stable τ db ∧ sweepMeasure τ db' < sweepMeasure τ db) := by
  obtain ⟨cs, mid, cs', hcs, hcs', hn, hfails, -, -, hcancels, hnil, hnil'⟩ := h
  have hdep' : DepInv mid := (hcs.invariant (I := fun d => Inv d ∧ DepInv d)
    (fun _ _ hg _ hd => ⟨hd.1.effect hg, hd.2.effect hd.1 hg⟩) ⟨hinv, hdep⟩).2
  have hfirst := hcs.measure hinv hdep
  have hsecond := hcs'.measure (hcs.inv hinv) hdep'
  by_cases hexp : expiredJobs τ db = []
  · have hzero : n = 0 := by rw [hn, hexp, List.length_nil, Nat.min_zero]
    obtain rfl : mid = db := by
      have := hcs.2
      rwa [hnil hzero] at this
    by_cases hblocked : blockedJobs mid = []
    · refine Or.inl ⟨⟨hexp, hblocked⟩, ?_⟩
      have := hcs'.2
      rwa [hnil' (by simp [hblocked])] at this
    · refine Or.inr ⟨fun hs => hblocked hs.2, ?_⟩
      have hpos := List.length_pos_iff.mpr hblocked
      have hsome : cs'.countP Change.cancels ≤ cs'.countP fun c => c.fails || c.cancels :=
        List.countP_mono_left fun c _ hc => by simp [hc]
      omega
  · refine Or.inr ⟨fun hs => hexp hs.1, ?_⟩
    have hpos := List.length_pos_iff.mpr hexp
    have hsome : cs.countP Change.fails ≤ cs.countP fun c => c.fails || c.cancels :=
      List.countP_mono_left fun c _ hc => by simp [hc]
    omega

end Measure

/-! ## How far the sweeps have come -/

/-- The state of a job whose lease has expired and was failed. -/
def Job.afterLoss (job : Job) : Status :=
  if job.attemptCount ≤ job.maxRetries then .retryWait else .deadLetter

/-- The row of a job in `db`, and the row that sweeps have made of it in `d`: the same row,
one whose lease was failed, or one that was cancelled.  Each of these is logged once. -/
def Job.Recovered (τ : Time) (db d : Database) (job job' : Job) : Prop :=
  (job' = job ∧ trail d job.id = trail db job.id) ∨
    (leaseExpired db τ job = true ∧
      (∃ t s, job' = Job.enter { job with availableAt := t } job.afterLoss s) ∧
      trail d job.id = trail db job.id ++ [.entered job.afterLoss]) ∨
    (job.status.waiting = true ∧ FailedParent d job ∧ (∃ s, job' = job.enter .cancelled s) ∧
      trail d job.id = trail db job.id ++ [.entered .cancelled])

/-- The row of an attempt whose lease was failed at `τ`. -/
def Attempt.expire (a : Attempt) (τ : Time) : Attempt := a.close .leaseExpired leaseExpiredError τ

/-- The lease is open and has expired at `τ`. -/
def Attempt.Expired (a : Attempt) (τ : Time) : Prop := a.isOpen = true ∧ a.expiresAt ≤ τ

/-- Sweeps at `τ` lead from `db` to `d`. -/
structure Recovered (τ : Time) (db d : Database) : Prop where
  job_ids : d.jobs.rows.map Job.id = db.jobs.rows.map Job.id
  attempt_ids : d.attempts.rows.map Attempt.id = db.attempts.rows.map Attempt.id
  job : ∀ k job, db.jobs.find? k = some job →
    ∃ job', d.jobs.find? k = some job' ∧ job.Recovered τ db d job'
  attempt : ∀ k a, db.attempts.find? k = some a →
    ∃ b, d.attempts.find? k = some b ∧ (b = a ∨ (a.Expired τ ∧ b = a.expire τ))

namespace Recovered

variable {τ : Time} {db d d' : Database}

theorem refl (τ : Time) (db : Database) : Recovered τ db db where
  job_ids := rfl
  attempt_ids := rfl
  job := fun _ job h => ⟨job, h, Or.inl ⟨rfl, rfl⟩⟩
  attempt := fun _ a h => ⟨a, h, Or.inl rfl⟩

/-- Every row comes from a row. -/
theorem job_origin (h : Recovered τ db d) {k : Uuid} {job' : Job}
    (hrow : d.jobs.find? k = some job') :
    ∃ job, db.jobs.find? k = some job ∧ job.Recovered τ db d job' := by
  obtain ⟨job, hjob⟩ := Table.exists_find?_iff.mpr (h.job_ids ▸ Table.exists_find?_iff.mp ⟨_, hrow⟩)
  obtain ⟨j, hj, hrec⟩ := h.job k job hjob
  rw [hrow, Option.some.injEq] at hj
  exact ⟨job, hjob, hj ▸ hrec⟩

/-- A held job has not been touched. -/
theorem held_row (h : Recovered τ db d) {job : Job} (hrow : d.jobs.find? job.id = some job)
    (hheld : job.status.held = true) :
    db.jobs.find? job.id = some job ∧ trail d job.id = trail db job.id := by
  obtain ⟨j, hj, ⟨rfl, htrail⟩ | ⟨-, ⟨t, s, rfl⟩, -⟩ | ⟨-, -, ⟨s, rfl⟩, -⟩⟩ := h.job_origin hrow
  · exact ⟨hj, htrail⟩
  · simp only [Job.enter, Job.afterLoss] at hheld
    split at hheld <;> cases hheld
  · cases hheld

/-- An open attempt has not been touched. -/
theorem open_row (h : Recovered τ db d) {a : Attempt} (hrow : d.attempts.find? a.id = some a)
    (hopen : a.finishedAt = none) : db.attempts.find? a.id = some a := by
  obtain ⟨b, hb⟩ := Table.exists_find?_iff.mpr
    (h.attempt_ids ▸ Table.exists_find?_iff.mp ⟨_, hrow⟩)
  obtain ⟨x, hx, hcase⟩ := h.attempt a.id b hb
  rw [hrow, Option.some.injEq] at hx
  rcases hcase with rfl | ⟨-, rfl⟩
  · rw [hb, hx]
  · rw [hx] at hopen
    cases hopen

/-- A waiting job whose parent has failed has not been touched. -/
theorem blocked_row (h : Recovered τ db d) (hdep : DepInv d) {job : Job}
    (hrow : d.jobs.find? job.id = some job) (hwait : job.status.waiting = true)
    (hfailed : FailedParent d job) :
    db.jobs.find? job.id = some job ∧ trail d job.id = trail db job.id := by
  obtain ⟨j, hj, ⟨rfl, htrail⟩ | ⟨-, ⟨t, s, heq⟩, -⟩ | ⟨-, -, ⟨s, rfl⟩, -⟩⟩ := h.job_origin hrow
  · exact ⟨hj, htrail⟩
  · -- a job that has been tried has a parent that succeeded
    have htried : job.Tried := by
      refine Or.inr ?_
      rw [heq]
      simp only [Job.enter, Job.afterLoss]
      split <;> simp
    obtain ⟨p, parent, hp, hparent, hs⟩ := hfailed
    obtain ⟨parent', hparent', hdone⟩ := hdep.tried job.id job hrow htried p hp
    rw [hparent, Option.some.injEq] at hparent'
    rw [hparent', hdone] at hs
    simp at hs
  · cases hwait

/-- A parent that has failed stays as it is while other jobs change. -/
theorem failedParent_put {x job : Job} (job' : Job) (h : FailedParent d x)
    (hrow : d.jobs.find? job.id = some job) (hid : job'.id = job.id) (hs : ¬ job.status.final)
    (hjobs : d'.jobs = d.jobs.put job') : FailedParent d' x := by
  obtain ⟨p, parent, hp, hparent, hfailed⟩ := h
  refine ⟨p, parent, hp, ?_, hfailed⟩
  have hne : job'.id ≠ p := by
    rintro rfl
    rw [hid, hrow, Option.some.injEq] at hparent
    refine hs ?_
    rw [hparent]
    rcases hfailed with h | h | h <;> simp [h, Status.final, transitions]
  rw [hjobs, Table.find?_put_ne _ hne]
  exact hparent

/-- One job that has not been touched enters a state. -/
theorem enter (h : Recovered τ db d) {job : Job} (job' : Job) {s : Status} {st : Stamp}
    (hrow : d.jobs.find? job.id = some job) (horigin : db.jobs.find? job.id = some job)
    (hlive : ¬ job.status.final) (hid : job'.id = job.id)
    (hjobs : d'.jobs = d.jobs.put job') (hevents : d'.events = d.events ++ [entered job s st])
    (hattempt_ids : d'.attempts.rows.map Attempt.id = db.attempts.rows.map Attempt.id)
    (hattempt : ∀ k a, db.attempts.find? k = some a →
      ∃ b, d'.attempts.find? k = some b ∧ (b = a ∨ (a.Expired τ ∧ b = a.expire τ)))
    (hself : trail d' job.id = trail d job.id ++ [.entered s] → job.Recovered τ db d' job') :
    Recovered τ db d' where
  job_ids := by
    rw [hjobs]
    exact (Table.keys_put d.jobs job').trans h.job_ids
  attempt_ids := hattempt_ids
  job := by
    intro k j hj
    have htrail := trail_append hevents k
    by_cases hk : job.id = k
    · subst hk
      rw [horigin, Option.some.injEq] at hj
      subst hj
      have hput : (d.jobs.put job').find? job'.id = some job' :=
        Table.find?_put_self (r := job') (hid ▸ hrow)
      refine ⟨job', by rw [hjobs, ← hid]; exact hput, hself ?_⟩
      rw [htrail]
      simp [entered]
    · have hne : job'.id ≠ k := hid ▸ hk
      obtain ⟨j', hj', hrec⟩ := h.job k j hj
      have hsame : trail d' k = trail d k := by
        rw [htrail]
        simp [entered, hk]
      have hjk : j.id = k := Table.key_of_find? hj
      refine ⟨j', by rw [hjobs, Table.find?_put_ne _ hne]; exact hj', ?_⟩
      rw [Job.Recovered, hjk, hsame, ← hjk]
      rcases hrec with hrec | hrec | ⟨hwait, hfailed, hrec⟩
      · exact Or.inl hrec
      · exact Or.inr (Or.inl hrec)
      · exact Or.inr (Or.inr ⟨hwait, failedParent_put job' hfailed hrow hid hlive hjobs, hrec⟩)
  attempt := hattempt

/-- A lease that has expired is failed. -/
theorem close (h : Recovered τ db d) {job : Job} (job' : Job) {a : Attempt} {st : Stamp}
    (hold : Holds d job a) (hheld : job.status.held = true) (hexp : a.expiresAt ≤ τ)
    (hjob' : ∃ t, job' = Job.enter { job with availableAt := t } job.afterLoss st)
    (hjobs : d'.jobs = d.jobs.put job') (hattempts : d'.attempts = d.attempts.put (a.expire τ))
    (hevents : d'.events = d.events ++ [entered job job.afterLoss st]) : Recovered τ db d' := by
  obtain ⟨horigin, htrail⟩ := h.held_row hold.job_row hheld
  have hopen := h.open_row hold.attempt_row hold.is_open
  have hid : job'.id = job.id := by
    obtain ⟨t, rfl⟩ := hjob'
    rfl
  refine h.enter job' hold.job_row horigin (Status.not_final_of_held hheld) hid hjobs hevents
    ?_ ?_ ?_
  · rw [hattempts]
    exact (Table.keys_put d.attempts (a.expire τ)).trans h.attempt_ids
  · intro k x hx
    rw [hattempts]
    by_cases hk : a.id = k
    · subst hk
      rw [hopen, Option.some.injEq] at hx
      subst hx
      have hput : (d.attempts.put (a.expire τ)).find? (a.expire τ).id = some (a.expire τ) :=
        Table.find?_put_self (r := a.expire τ) hold.attempt_row
      exact ⟨a.expire τ, hput, Or.inr ⟨⟨by simp [Attempt.isOpen, hold.is_open], hexp⟩, rfl⟩⟩
    · obtain ⟨b, hb, hcase⟩ := h.attempt k x hx
      have hne : (a.expire τ).id ≠ k := hk
      exact ⟨b, (Table.find?_put_ne _ hne).trans hb, hcase⟩
  · intro hlog
    refine Or.inr (Or.inl ⟨?_, ?_, by rw [hlog, htrail]⟩)
    · exact leaseExpired_iff.mpr
        ⟨hheld, a, Table.mem_of_find? hopen, hold.attempt_job, hold.is_open, hexp⟩
    · obtain ⟨t, rfl⟩ := hjob'
      exact ⟨t, st, rfl⟩

/-- A change of a sweep undoes nothing. -/
theorem effect (h : Recovered τ db d) (hdep : DepInv d) {c : Change} (hg : c.guard d)
    (hc : c.Recovers τ d) : Recovered τ db (c.effect d) := by
  cases c with
  | retry job a o e t t' s =>
      obtain ⟨hold, hheld, hmax, -⟩ := hg
      obtain ⟨hexp, rfl, rfl, rfl⟩ := hc
      have hstate : job.afterLoss = .retryWait := if_pos hmax
      refine h.close (Job.enter { job with availableAt := t' } .retryWait s) hold hheld
        hexp ⟨t', by rw [hstate]⟩ rfl rfl (by rw [hstate]; rfl)
  | fail job a o e r t s =>
      obtain ⟨hold, hheld, hmax, -⟩ := hg
      obtain ⟨hexp, rfl, rfl, rfl, rfl⟩ := hc
      have hstate : job.afterLoss = .deadLetter := if_neg (not_le.mpr (hmax rfl))
      refine h.close (job.enter .deadLetter s) hold hheld hexp
        ⟨job.availableAt, by rw [hstate]⟩ rfl rfl (by rw [hstate]; rfl)
  | cancel job s =>
      obtain ⟨hrow, hwait⟩ := hg
      obtain ⟨-, hfailed⟩ := parentFailed_iff.mp hc
      obtain ⟨horigin, htrail⟩ := h.blocked_row hdep hrow hwait hfailed
      have hlive := Status.not_final_of_waiting hwait
      refine h.enter (job.enter .cancelled s) hrow horigin hlive rfl rfl rfl
        h.attempt_ids h.attempt fun hlog => Or.inr (Or.inr ⟨hwait, ?_, ⟨s, rfl⟩, ?_⟩)
      · exact failedParent_put (job.enter .cancelled s) hfailed hrow rfl hlive rfl
      · rw [hlog, htrail]
  | log e => exact ⟨h.job_ids, h.attempt_ids, h.job, h.attempt⟩
  | _ => exact hc.elim

end Recovered

/-- A sweep goes on from where the sweeps have come. -/
theorem Swept.recovered {τ : Time} {limit n : ℕ} {db₀ db d : Database}
    (h : Swept τ limit db (.ok n) d) (hinv : Inv db) (hdep : DepInv db)
    (hrec : Recovered τ db₀ db) : Inv d ∧ DepInv d ∧ Recovered τ db₀ d := by
  obtain ⟨cs, mid, cs', hcs, hcs', -⟩ := h
  exact (hcs.append hcs').invariant (I := fun d => Inv d ∧ DepInv d ∧ Recovered τ db₀ d)
    (fun _ _ hg hc hd => ⟨hd.1.effect hg, hd.2.1.effect hd.1 hg, hd.2.2.effect hd.2.1 hg hc⟩)
    ⟨hinv, hdep, hrec⟩

/-! ## Where they stop -/

/-- An ancestor of the job has failed, was dead-lettered or cancelled. -/
def FailedAncestor (db : Database) (k : Uuid) : Prop :=
  ∃ p parent, Relation.TransGen (Parent db) p k ∧ db.jobs.find? p = some parent ∧
    (parent.status = .failed ∨ parent.status = .deadLetter ∨ parent.status = .cancelled)

/-- The database `d` in which sweeps at `τ` stop, read off the database `db` in which they
started. -/
structure Settled (τ : Time) (db d : Database) : Prop where
  no_expired : ∀ job ∈ d.jobs.rows, job.status.held = true →
    ∀ a ∈ d.attempts.rows, a.jobId = job.id → ¬ a.Expired τ
  no_blocked : ∀ job ∈ d.jobs.rows, job.status.waiting = true → ¬ FailedAncestor d job.id
  cancelled : ∀ k job job', db.jobs.find? k = some job → d.jobs.find? k = some job' →
    (job.status ≠ .cancelled ∧ job'.status = .cancelled ↔
      job.status.waiting = true ∧ FailedAncestor d k)
  failed : ∀ k a, db.attempts.find? k = some a → a.Expired τ →
    d.attempts.find? k = some (a.expire τ) ∧ ∃ job job', db.jobs.find? a.jobId = some job ∧
      d.jobs.find? a.jobId = some job' ∧ job'.status = job.afterLoss ∧
      trail d a.jobId = trail db a.jobId ++ [.entered job.afterLoss]
  job_ids : d.jobs.rows.map Job.id = db.jobs.rows.map Job.id
  job_unchanged : ∀ k job, db.jobs.find? k = some job →
    (∀ a ∈ db.attempts.rows, a.jobId = k → ¬ a.Expired τ) →
    ¬ (job.status.waiting = true ∧ FailedAncestor d k) →
    d.jobs.find? k = some job ∧ trail d k = trail db k
  attempt_ids : d.attempts.rows.map Attempt.id = db.attempts.rows.map Attempt.id
  attempt_unchanged : ∀ k a, db.attempts.find? k = some a → ¬ a.Expired τ →
    d.attempts.find? k = some a

/-- The rows of jobs have the same states, and attempts and results are the same. -/
structure Agrees (d d' : Database) : Prop where
  status : ∀ k, (d.jobs.find? k).map Job.status = (d'.jobs.find? k).map Job.status
  attempts : d.attempts = d'.attempts
  results : ∀ k, d.results.find? k = d'.results.find? k

section Stop

variable {τ : Time} {db d d' : Database}

theorem Stable.not_leaseExpired (h : Stable τ d) {job : Job}
    (hrow : d.jobs.find? job.id = some job) :
    leaseExpired d τ job = false := by
  have hnot := List.filter_eq_nil_iff.mp h.1 job (Table.mem_of_find? hrow)
  simpa using hnot

theorem Stable.not_parentFailed (h : Stable τ d) {job : Job}
    (hrow : d.jobs.find? job.id = some job) : parentFailed d job = false := by
  have hnot := List.filter_eq_nil_iff.mp h.2 job (Table.mem_of_find? hrow)
  simpa using hnot

/-- The job of an open attempt that has expired holds an expired lease. -/
theorem Inv.leaseExpired (hinv : Inv d) {a : Attempt} (ha : a ∈ d.attempts.rows)
    (hexp : a.Expired τ) :
    ∃ job, d.jobs.find? a.jobId = some job ∧ leaseExpired d τ job = true := by
  obtain ⟨job, hjob⟩ := hinv.attempt_job a ha
  have hid : job.id = a.jobId := Table.key_of_find? hjob
  have hopen : a.finishedAt = none := by simpa [Attempt.isOpen] using hexp.1
  obtain ⟨-, hheld, -⟩ := (hinv.job job (hid ▸ hjob)).of_open (mem_attemptsOf.mpr ⟨ha, hid.symm⟩)
    hopen
  exact ⟨job, hjob, leaseExpired_iff.mpr ⟨hheld, a, ha, hid.symm, hopen, hexp.2⟩⟩

/-- Where sweeps stop, every descendant of a failed job is cancelled. -/
theorem Stable.cancelled (h : Stable τ d) (hdep : DepInv d) {k : Uuid}
    (hfailed : FailedAncestor d k) :
    ∃ job, d.jobs.find? k = some job ∧ job.status = .cancelled := by
  obtain ⟨p, parent, hpk, hparent, hs⟩ := hfailed
  -- one generation
  have hstep : ∀ {b c : Uuid} {j : Job}, Parent d b c → d.jobs.find? b = some j →
      (j.status = .failed ∨ j.status = .deadLetter ∨ j.status = .cancelled) →
      ∃ job, d.jobs.find? c = some job ∧ job.status = .cancelled := by
    rintro b c j ⟨child, hc, hb⟩ hj hjs
    have hid : child.id = c := Table.key_of_find? hc
    have hunblocked := h.not_parentFailed (hid ▸ hc)
    refine ⟨child, hc, ?_⟩
    by_contra hnot
    have hidle : ¬ child.Tried := by
      intro ht
      obtain ⟨j', hj', hdone⟩ := hdep.tried c child hc ht b hb
      rw [hj, Option.some.injEq] at hj'
      rw [hj', hdone] at hjs
      simp at hjs
    have hqueued : child.status = .queued := by
      by_contra hq
      exact hidle (Or.inr ⟨hq, hnot⟩)
    have hblocked : parentFailed d child = true :=
      parentFailed_iff.mpr ⟨by rw [hqueued]; rfl, b, j, hb, hj, hjs⟩
    rw [hunblocked] at hblocked
    cases hblocked
  induction hpk with
  | single hpc => exact hstep hpc hparent hs
  | tail _ hbc ih =>
      obtain ⟨job, hjob, hc⟩ := ih
      exact hstep hbc hjob (Or.inr (Or.inr hc))

theorem FailedParent.ancestor {k : Uuid} {job job' : Job} (h : FailedParent d job)
    (hrow : d.jobs.find? k = some job') (hdepends : job'.dependsOn = job.dependsOn) :
    FailedAncestor d k := by
  obtain ⟨p, parent, hp, hparent, hs⟩ := h
  exact ⟨p, parent, .single ⟨job', hrow, hdepends.trans hp⟩, hparent, hs⟩

/-- The job of a lease that was failed has entered the state after the loss, once. -/
theorem Recovered.job_closed (h : Recovered τ db d) (hinv : Inv db) (hinv' : Inv d) {job : Job}
    {a : Attempt} (hrow : db.jobs.find? job.id = some job) (ha : a ∈ db.attempts.rows)
    (haj : a.jobId = job.id) (hopen : a.finishedAt = none)
    (hdone : d.attempts.find? a.id = some (a.expire τ)) :
    ∃ t s, d.jobs.find? job.id = some (Job.enter { job with availableAt := t } job.afterLoss s) ∧
      trail d job.id = trail db job.id ++ [.entered job.afterLoss] := by
  have hi := hinv.job job hrow
  have hamem := mem_attemptsOf.mpr ⟨ha, haj⟩
  obtain ⟨haf, hheld, -⟩ := hi.of_open hamem hopen
  obtain ⟨job', hrow', ⟨rfl, htrail⟩ | ⟨-, ⟨t, s, rfl⟩, htrail⟩ | ⟨hwait, -⟩⟩ :=
    h.job job.id job hrow
  · -- the open attempt of an untouched job is the one that was failed
    obtain ⟨-, x, hx, hxf, hpend, -⟩ := (hinv'.job job' hrow').of_held hheld
    obtain ⟨hxmem, hxj⟩ := mem_attemptsOf.mp hx
    have hxrow := h.open_row (Table.find?_of_mem hxmem) hpend.1
    obtain rfl : x = a := hi.eq_of_fence (mem_attemptsOf.mpr ⟨Table.mem_of_find? hxrow, hxj⟩) hamem
      (hxf.trans haf.symm)
    have hsame : x = x.expire τ := Option.some.inj ((Table.find?_of_mem hxmem).symm.trans hdone)
    rw [hsame] at hopen
    cases hopen
  · exact ⟨t, s, hrow', htrail⟩
  · exact absurd hheld (Status.not_held_of_waiting hwait)

/-- The job of a lease that was left alone was left alone. -/
theorem Recovered.job_open (h : Recovered τ db d) (hinv : Inv db) (hinv' : Inv d) {job : Job}
    {a : Attempt} (hrow : db.jobs.find? job.id = some job) (ha : a ∈ db.attempts.rows)
    (haj : a.jobId = job.id) (hopen : a.finishedAt = none)
    (hsame : d.attempts.find? a.id = some a) : d.jobs.find? job.id = some job := by
  obtain ⟨-, hheld, -⟩ := (hinv.job job hrow).of_open (mem_attemptsOf.mpr ⟨ha, haj⟩) hopen
  obtain ⟨job', hrow', ⟨rfl, -⟩ | ⟨-, ⟨t, s, rfl⟩, -⟩ | ⟨hwait, -⟩⟩ := h.job job.id job hrow
  · exact hrow'
  · have hmem := mem_attemptsOf.mpr ⟨Table.mem_of_find? hsame, haj⟩
    have hi' := hinv'.job (Job.enter { job with availableAt := t } job.afterLoss s) hrow'
    have hheld' := (hi'.of_open hmem hopen).2.1
    simp only [Job.enter, Job.afterLoss] at hheld'
    split at hheld' <;> cases hheld'
  · exact absurd hheld (Status.not_held_of_waiting hwait)

variable (h : Recovered τ db d) (hstable : Stable τ d) (hinv : Inv db) (hinv' : Inv d)
  (hdep : DepInv d)

include h hstable

/-- A waiting job ends cancelled exactly if its parent ends failed. -/
theorem Recovered.waiting_status {job : Job} (hrow : db.jobs.find? job.id = some job)
    (hwait : job.status.waiting = true) : ∃ job', d.jobs.find? job.id = some job' ∧
      (FailedParent d job → job'.status = .cancelled) ∧
      (¬ FailedParent d job → job'.status = job.status) := by
  obtain ⟨job', hrow', ⟨rfl, -⟩ | ⟨hexp, -⟩ | ⟨-, hfailed, ⟨s, rfl⟩, -⟩⟩ := h.job job.id job hrow
  · refine ⟨job', hrow', fun hfailed => ?_, fun _ => rfl⟩
    have hblocked := parentFailed_iff.mpr ⟨hwait, hfailed⟩
    rw [hstable.not_parentFailed hrow'] at hblocked
    cases hblocked
  · have hheld := (leaseExpired_iff.mp hexp).1
    exact absurd hheld (Status.not_held_of_waiting hwait)
  · exact ⟨_, hrow', fun _ => rfl, fun hnot => absurd hfailed hnot⟩

include hinv'

/-- Where sweeps stop, every lease that had expired was failed. -/
theorem Recovered.attempt_expired {k : Uuid} {a : Attempt} (ha : db.attempts.find? k = some a)
    (hexp : a.Expired τ) : d.attempts.find? k = some (a.expire τ) := by
  obtain ⟨b, hb, rfl | ⟨-, rfl⟩⟩ := h.attempt k a ha
  · obtain ⟨job, hjob, hlease⟩ := hinv'.leaseExpired (Table.mem_of_find? hb) hexp
    have hid : job.id = b.jobId := Table.key_of_find? hjob
    rw [hstable.not_leaseExpired (hid ▸ hjob)] at hlease
    cases hlease
  · exact hb

include hinv

/-- And so was its job, once. -/
theorem Recovered.job_expired {job : Job} (hrow : db.jobs.find? job.id = some job)
    (hexp : leaseExpired db τ job = true) :
    ∃ job', d.jobs.find? job.id = some job' ∧ job'.status = job.afterLoss ∧
      trail d job.id = trail db job.id ++ [.entered job.afterLoss] := by
  obtain ⟨-, a, ha, haj, hopen, hlate⟩ := leaseExpired_iff.mp hexp
  have hdone := h.attempt_expired hstable hinv' (Table.find?_of_mem ha)
    ⟨by simp [Attempt.isOpen, hopen], hlate⟩
  obtain ⟨t, s, hrow', htrail⟩ := h.job_closed hinv hinv' hrow ha haj hopen hdone
  exact ⟨_, hrow', rfl, htrail⟩

include hdep

/-- The database in which sweeps stop. -/
theorem Recovered.settled : Settled τ db d where
  no_expired := by
    intro job hjob hheld a ha haj hexp
    have hopen : a.finishedAt = none := by simpa [Attempt.isOpen] using hexp.1
    have hlease := leaseExpired_iff.mpr ⟨hheld, a, ha, haj, hopen, hexp.2⟩
    rw [hstable.not_leaseExpired (Table.find?_of_mem hjob)] at hlease
    cases hlease
  no_blocked := by
    intro job hjob hwait hfailed
    obtain ⟨job', hrow, hs⟩ := hstable.cancelled hdep hfailed
    obtain rfl : job = job' := Option.some.inj ((Table.find?_of_mem hjob).symm.trans hrow)
    rw [hs] at hwait
    cases hwait
  cancelled := by
    intro k job job' hrow hrow'
    constructor
    · rintro ⟨hs, hs'⟩
      obtain ⟨j, hj, hrec⟩ := h.job k job hrow
      rw [hrow', Option.some.injEq] at hj
      subst hj
      rcases hrec with ⟨rfl, -⟩ | ⟨-, ⟨t, s, rfl⟩, -⟩ | ⟨hwait, hfailed, ⟨s, rfl⟩, -⟩
      · exact absurd hs' hs
      · simp only [Job.enter, Job.afterLoss] at hs'
        split at hs' <;> cases hs'
      · exact ⟨hwait, hfailed.ancestor hrow' rfl⟩
    · rintro ⟨hwait, hfailed⟩
      obtain ⟨j, hj, hs⟩ := hstable.cancelled hdep hfailed
      rw [hrow', Option.some.injEq] at hj
      refine ⟨?_, hj ▸ hs⟩
      intro hc
      rw [hc] at hwait
      cases hwait
  failed := by
    intro k a ha hexp
    refine ⟨h.attempt_expired hstable hinv' ha hexp, ?_⟩
    obtain ⟨job, hjob, hlease⟩ := hinv.leaseExpired (Table.mem_of_find? ha) hexp
    have hid : job.id = a.jobId := Table.key_of_find? hjob
    rw [← hid] at hjob ⊢
    obtain ⟨job', hrow', hs, htrail⟩ := h.job_expired hstable hinv hinv' hjob hlease
    exact ⟨job, job', hjob, hrow', hs, htrail⟩
  job_ids := h.job_ids
  job_unchanged := by
    intro k job hrow hleases hblocked
    have hid : job.id = k := Table.key_of_find? hrow
    obtain ⟨job', hrow', ⟨rfl, htrail⟩ | ⟨hexp, -⟩ | ⟨hwait, hfailed, ⟨s, rfl⟩, -⟩⟩ :=
      h.job k job hrow
    · exact ⟨hrow', hid ▸ htrail⟩
    · obtain ⟨-, a, ha, haj, hopen, hlate⟩ := leaseExpired_iff.mp hexp
      exact absurd ⟨by simp [Attempt.isOpen, hopen], hlate⟩ (hleases a ha (haj.trans hid))
    · exact absurd ⟨hwait, hfailed.ancestor hrow' rfl⟩ hblocked
  attempt_ids := h.attempt_ids
  attempt_unchanged := by
    intro k a ha hexp
    obtain ⟨b, hb, rfl | ⟨hexp', -⟩⟩ := h.attempt k a ha
    · exact hb
    · exact absurd hexp' hexp

end Stop

/-- The result of a job follows from its state and its attempts. -/
theorem JobInv.result_eq {job job' : Job} {l : List Attempt} {r r' : Option Result}
    (h : JobInv job l r) (h' : JobInv job' l r') (hid : job.id = job'.id)
    (hs : job.status = job'.status) : r = r' := by
  have hcount : job.attemptCount = job'.attemptCount := h.length_eq.symm.trans h'.length_eq
  by_cases hnil : l = []
  · rw [h.untried hnil, h'.untried hnil]
  · have hpos : 0 < job.attemptCount := h.length_eq ▸ List.length_pos_iff.mpr hnil
    obtain ⟨a, ha, hf⟩ := h.exists_current hpos
    have hfits := h.current a ha hf
    have hfits' := h'.current a ha (hf.trans hcount)
    rw [Fits, hs] at hfits
    rw [Fits] at hfits'
    cases hst : job'.status <;> rw [hst] at hfits hfits' <;> simp_all

/-- Whether the parent of a job has failed follows from its state. -/
theorem FailedParent.congr {d d' : Database} {job : Job} (h : FailedParent d job)
    (hstatus : ∀ p, job.dependsOn = some p →
      (d.jobs.find? p).map Job.status = (d'.jobs.find? p).map Job.status) :
    FailedParent d' job := by
  obtain ⟨p, parent, hp, hparent, hs⟩ := h
  have heq := hstatus p hp
  rw [hparent, Option.map_some] at heq
  obtain ⟨parent', hparent', hs'⟩ := Option.map_eq_some_iff.mp heq.symm
  exact ⟨p, parent', hp, hparent', hs' ▸ hs⟩

section Agree

variable {τ : Time} {db d d' : Database} (h : Recovered τ db d) (hstable : Stable τ d)
  (hinv : Inv d) (h' : Recovered τ db d') (hstable' : Stable τ d') (hinv' : Inv d')

include h hstable hinv h' hstable' hinv'

/-- Sweeps stop with the same attempts. -/
theorem Recovered.attempts_eq : d.attempts = d'.attempts := by
  refine Table.ext_find? (h.attempt_ids.trans h'.attempt_ids.symm) fun k => ?_
  cases ha : db.attempts.find? k with
  | none =>
      have hnot : k ∉ db.attempts.rows.map Attempt.id := fun hk => by
        obtain ⟨a, ha'⟩ := Table.exists_find?_iff.mpr hk
        rw [ha] at ha'
        cases ha'
      have hnone : ∀ {e : Database}, e.attempts.rows.map Attempt.id =
          db.attempts.rows.map Attempt.id → e.attempts.find? k = none := by
        intro e hids
        by_contra hsome
        obtain ⟨b, hb⟩ := Option.ne_none_iff_exists'.mp hsome
        exact hnot (hids ▸ Table.exists_find?_iff.mp ⟨b, hb⟩)
      rw [hnone h.attempt_ids, hnone h'.attempt_ids]
  | some a =>
      by_cases hexp : a.Expired τ
      · rw [h.attempt_expired hstable hinv ha hexp, h'.attempt_expired hstable' hinv' ha hexp]
      · obtain ⟨b, hb, rfl | ⟨hexp', -⟩⟩ := h.attempt k a ha
        · obtain ⟨c, hc, rfl | ⟨hexp', -⟩⟩ := h'.attempt k b ha
          · rw [hb, hc]
          · exact absurd hexp' hexp
        · exact absurd hexp' hexp

/-- Sweeps stop with the same states. -/
theorem Recovered.status_eq (hinv₀ : Inv db) (hdep : DepInv db) (k : Uuid) :
    (d.jobs.find? k).map Job.status = (d'.jobs.find? k).map Job.status := by
  -- a job follows its parent
  induction k using hdep.wellFounded.induction with
  | h k ih =>
    cases hrow : db.jobs.find? k with
    | none =>
        have hnone : ∀ {e : Database}, Recovered τ db e → e.jobs.find? k = none := by
          intro e he
          by_contra hsome
          obtain ⟨j, hj⟩ := Option.ne_none_iff_exists'.mp hsome
          obtain ⟨job, hjob, -⟩ := he.job_origin hj
          rw [hrow] at hjob
          cases hjob
        rw [hnone h, hnone h']
    | some job =>
        obtain rfl : job.id = k := Table.key_of_find? hrow
        by_cases hexp : leaseExpired db τ job = true
        · obtain ⟨j, hj, hs, -⟩ := h.job_expired hstable hinv₀ hinv hrow hexp
          obtain ⟨j', hj', hs', -⟩ := h'.job_expired hstable' hinv₀ hinv' hrow hexp
          rw [hj, hj', Option.map_some, Option.map_some, hs, hs']
        · by_cases hwait : job.status.waiting = true
          · obtain ⟨j, hj, hc, hn⟩ := h.waiting_status hstable hrow hwait
            obtain ⟨j', hj', hc', hn'⟩ := h'.waiting_status hstable' hrow hwait
            have hparents := fun p (hp : job.dependsOn = some p) => ih p ⟨job, hrow, hp⟩
            rw [hj, hj', Option.map_some, Option.map_some]
            by_cases hfailed : FailedParent d job
            · rw [hc hfailed, hc' (hfailed.congr hparents)]
            · have hfailed' : ¬ FailedParent d' job := fun hf =>
                hfailed (hf.congr fun p hp => (hparents p hp).symm)
              rw [hn hfailed, hn' hfailed']
          · obtain ⟨j, hj, ⟨rfl, -⟩ | ⟨he, -⟩ | ⟨hw, -⟩⟩ := h.job job.id job hrow
            · obtain ⟨j', hj', ⟨rfl, -⟩ | ⟨he, -⟩ | ⟨hw, -⟩⟩ := h'.job j.id j hrow
              · rw [hj, hj']
              · exact absurd he hexp
              · exact absurd hw hwait
            · exact absurd he hexp
            · exact absurd hw hwait

/-- Sweeps that start in one database stop in databases that agree. -/
theorem Recovered.agrees (hinv₀ : Inv db) (hdep : DepInv db) : Agrees d d' := by
  have hstatus := h.status_eq hstable hinv h' hstable' hinv' hinv₀ hdep
  have hattempts := h.attempts_eq hstable hinv h' hstable' hinv'
  refine ⟨hstatus, hattempts, fun k => ?_⟩
  have heq := hstatus k
  cases hj : d.jobs.find? k with
  | none =>
      rw [hj, Option.map_none, eq_comm, Option.map_eq_none_iff] at heq
      have hnone : ∀ {e : Database}, Inv e → e.jobs.find? k = none → e.results.find? k = none := by
        intro e he hk
        by_contra hsome
        obtain ⟨r, hr⟩ := Option.ne_none_iff_exists'.mp hsome
        obtain ⟨job, hjob⟩ := he.result_job k r hr
        rw [hk] at hjob
        cases hjob
      rw [hnone hinv hj, hnone hinv' heq]
  | some job =>
      rw [hj, Option.map_some] at heq
      obtain ⟨job', hj', hs⟩ := Option.map_eq_some_iff.mp heq.symm
      obtain rfl : job.id = k := Table.key_of_find? hj
      have hid : job'.id = job.id := Table.key_of_find? hj'
      have hi := hinv.job job hj
      have hi' := hinv'.job job' (by rw [hid]; exact hj')
      rw [hid, ← hattempts] at hi'
      exact hi.result_eq hi' hid.symm hs.symm

end Agree

/-! ## Runs -/

section Runs

variable [Sha256]

/-- The database after the first `n` sweeps that follow a run. -/
def sweepRun (txns : List Txn) (sweeps : ℕ → Txn) (n : ℕ) : Database :=
  run (txns ++ (List.range n).map sweeps)

/-- Sweeps at `τ`, each with a limit of its own. -/
def AllSweep (τ : Time) (sweeps : ℕ → Txn) : Prop :=
  ∀ n, ∃ limit, 1 ≤ limit ∧ Sweep τ limit (sweeps n)

theorem sweepRun_succ (txns : List Txn) (sweeps : ℕ → Txn) (n : ℕ) :
    sweepRun txns sweeps (n + 1) = commit (sweepRun txns sweeps n) (sweeps n) := by
  rw [sweepRun, List.range_succ, List.map_append, ← List.append_assoc]
  exact run_snoc _ _

section Sweeps

variable {τ : Time} {sweeps : ℕ → Txn} (hsweeps : AllSweep τ sweeps) (txns : List Txn)

include hsweeps

theorem sweepRun_progress (n : ℕ) :
    (Stable τ (sweepRun txns sweeps n) ∧
        sweepRun txns sweeps (n + 1) = sweepRun txns sweeps n) ∨
      (¬ Stable τ (sweepRun txns sweeps n) ∧
        sweepMeasure τ (sweepRun txns sweeps (n + 1)) < sweepMeasure τ (sweepRun txns sweeps n)) := by
  obtain ⟨limit, hlimit, hsweep⟩ := hsweeps n
  obtain ⟨count, hswept⟩ := commit_sweep (run_inv _) hsweep
  rw [sweepRun_succ]
  exact hswept.progress (run_inv _) (run_depInv _) hlimit

/-- A sweep that changes nothing leaves nothing to do. -/
theorem sweepRun_stable {n : ℕ} (h : sweepRun txns sweeps (n + 1) = sweepRun txns sweeps n) :
    Stable τ (sweepRun txns sweeps n) := by
  rcases sweepRun_progress hsweeps txns n with ⟨hstable, -⟩ | ⟨-, hlt⟩
  · exact hstable
  · rw [h] at hlt
    exact absurd hlt (lt_irrefl _)

theorem sweepRun_of_stable {n : ℕ} (h : Stable τ (sweepRun txns sweeps n)) :
    sweepRun txns sweeps (n + 1) = sweepRun txns sweeps n := by
  rcases sweepRun_progress hsweeps txns n with ⟨-, hsame⟩ | ⟨hnot, -⟩
  · exact hsame
  · exact absurd h hnot

theorem sweepRun_recovered (n : ℕ) : Recovered τ (run txns) (sweepRun txns sweeps n) := by
  induction n with
  | zero =>
      rw [sweepRun, List.range_zero, List.map_nil, List.append_nil]
      exact .refl τ _
  | succ n ih =>
      obtain ⟨limit, -, hsweep⟩ := hsweeps n
      obtain ⟨count, hswept⟩ := commit_sweep (run_inv _) hsweep
      rw [sweepRun_succ]
      exact (hswept.recovered (run_inv _) (run_depInv _) ih).2.2

end Sweeps

/-- **Recovery and the dependency cascade converge.** From every reachable database, sweeps
with a frozen clock and with any limits change something at most as often as there are
expired leases and waiting jobs.  Where they stop, no lease has expired and no waiting job
has a failed ancestor; the jobs cancelled on the way are those that waited and have one,
every expired lease was failed once, and everything else is as it was.  Any two sequences of
sweeps stop with the same states, attempts and results. -/
theorem recovery_converges (txns : List Txn) (τ : Time) (sweeps sweeps' : ℕ → Txn)
    (hsweeps : AllSweep τ sweeps) (hsweeps' : AllSweep τ sweeps') :
    (∀ n, sweepRun txns sweeps (n + 1) ≠ sweepRun txns sweeps n →
      n < expiredLeases τ (run txns) + waitingJobs (run txns)) ∧
    (∀ n, sweepRun txns sweeps (n + 1) = sweepRun txns sweeps n →
      (∀ m, n ≤ m → sweepRun txns sweeps m = sweepRun txns sweeps n) ∧
      Settled τ (run txns) (sweepRun txns sweeps n)) ∧
    ∀ n m, sweepRun txns sweeps (n + 1) = sweepRun txns sweeps n →
      sweepRun txns sweeps' (m + 1) = sweepRun txns sweeps' m →
      Agrees (sweepRun txns sweeps n) (sweepRun txns sweeps' m) := by
  have hstop : ∀ n, sweepRun txns sweeps (n + 1) = sweepRun txns sweeps n →
      sweepRun txns sweeps (n + 2) = sweepRun txns sweeps (n + 1) := by
    intro n hn
    have hstable := sweepRun_stable hsweeps txns hn
    rw [← hn] at hstable
    exact sweepRun_of_stable hsweeps txns hstable
  refine ⟨fun n hn => ?_, fun n hn => ⟨fun m hm => ?_, ?_⟩, fun n m hn hm => ?_⟩
  · have hlt : n < sweepMeasure τ (sweepRun txns sweeps 0) :=
      settles (fun n => (sweepRun_progress hsweeps txns n).imp And.right And.right) hstop hn
    have hzero : sweepRun txns sweeps 0 = run txns := by simp [sweepRun]
    rw [hzero] at hlt
    exact hlt.trans_le (sweepMeasure_le τ _)
  · induction m, hm using Nat.le_induction with
    | base => rfl
    | succ m hm ih =>
        have hstable := sweepRun_stable hsweeps txns hn
        rw [← ih] at hstable
        exact (sweepRun_of_stable hsweeps txns hstable).trans ih
  · exact (sweepRun_recovered hsweeps txns n).settled (sweepRun_stable hsweeps txns hn)
      (run_inv _) (run_inv _) (run_depInv _)
  · exact (sweepRun_recovered hsweeps txns n).agrees (sweepRun_stable hsweeps txns hn) (run_inv _)
      (sweepRun_recovered hsweeps' txns m) (sweepRun_stable hsweeps' txns hm) (run_inv _)
      (run_inv _) (run_depInv _)

/-- A job is leased, and another one waits for it. -/
def leasedParent : List Txn := [
  { request := .submit .flaky, feed := .still 1 },
  { request := .register .first, feed := .still 2 },
  { request := .claim .first (some Registration.first.sessionToken), feed := .still 3 },
  { request := .submit { Submit.flaky with dependsOn := some 104 }, feed := .still 4 }]

/-- A sweep of one job at second fifty. -/
def singleSweep : Txn where
  request := .recoverJobs 1
  feed := .still 50

omit [Sha256] in
/-- Two sweeps are enough. -/
theorem recovery_converges_leased :
    letI := Sha256.tabulated []
    expiredLeases 50 (run leasedParent) = 1 ∧ waitingJobs (run leasedParent) = 1 ∧
      Settled 50 (run leasedParent) (sweepRun leasedParent (fun _ => singleSweep) 2) := by
  let := Sha256.tabulated []
  have hleases : expiredLeases 50 (run leasedParent) = 1 := by decide +kernel
  have hwaiting : waitingJobs (run leasedParent) = 1 := by decide +kernel
  have hsweeps : AllSweep 50 fun _ => singleSweep :=
    fun _ => ⟨1, le_rfl, rfl, fun _ => ⟨by norm_num [singleSweep, Moment.still], rfl, fun _ => rfl⟩⟩
  obtain ⟨hbound, hsettled, -⟩ := recovery_converges leasedParent 50 _ _ hsweeps hsweeps
  have hstop : sweepRun leasedParent (fun _ => singleSweep) 3 =
      sweepRun leasedParent (fun _ => singleSweep) 2 := by
    by_contra hne
    have hlt := hbound 2 hne
    rw [hleases, hwaiting] at hlt
    omega
  exact ⟨by decide +kernel, by decide +kernel, (hsettled 2 hstop).2⟩

end Runs

end GreyQueue
