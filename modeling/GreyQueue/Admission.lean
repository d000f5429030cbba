import GreyQueue.History

/-!
# Admission

The two bounds of `admit` over whole runs.  The queue bound holds because no other change
makes a job active; the rate bound is checked against the past of each admission, and
covers every window because the last job admitted into a window counted all others.
-/

namespace GreyQueue

open Lib

/-! ## Bounds -/

/-- Number of jobs in the active states. -/
def activeCount (db : Database) : ℕ := db.jobs.rows.countP fun j => decide (j.status ∈ active)

/-- Number of jobs created in the minute that ends at `T`, both ends included. -/
def windowCount (db : Database) (T : Time) : ℕ :=
  db.jobs.rows.countP fun j => decide (T - 60 ≤ j.createdAt) && decide (j.createdAt ≤ T)

/-- The admission bounds. -/
structure Bounded (queueLimit submissionsPerMinute : ℕ) (db : Database) : Prop where
  queue : activeCount db ≤ queueLimit
  rate : ∀ T, windowCount db T ≤ submissionsPerMinute

theorem mem_active_iff {s : Status} : s ∈ active ↔ ¬ s.final := by
  cases s <;> simp [active, Status.final, transitions]

theorem Bounded.admitted {db : Database} {q n : ℕ} (h : Bounded q n db) {job : Job}
    {now now' : Time} (hadm : Admissible db job q n) :
    Bounded q n ((Change.admitted job q n now now').effect db) := by
  refine ⟨?_, fun T => ?_⟩
  · have := hadm.queue_bound
    change (db.jobs.add job).rows.countP (fun j => decide (j.status ∈ active)) ≤ q
    rw [Table.countP_add _ hadm.fresh]
    split <;> omega
  · change (db.jobs.add job).rows.countP
      (fun j => decide (T - 60 ≤ j.createdAt) && decide (j.createdAt ≤ T)) ≤ n
    rw [Table.countP_add _ hadm.fresh]
    split
    · -- the new job is in the window, so the check at its own time covers the window
      rename_i hin
      simp only [Bool.and_eq_true, decide_eq_true_eq] at hin
      have hle : windowCount db T ≤
          db.jobs.rows.countP fun j => decide (job.createdAt - 60 ≤ j.createdAt) := by
        refine List.countP_mono_left fun j _ hj => ?_
        simp only [Bool.and_eq_true, decide_eq_true_eq] at hj ⊢
        linarith
      have := hadm.rate_bound
      unfold windowCount at hle
      omega
    · exact h.rate T

/-- Rewriting a job that is not in a final state keeps the bounds. -/
theorem Bounded.setJob {db db' : Database} {q n : ℕ} (h : Bounded q n db) {job job' : Job}
    (hrow : db.jobs.find? job.id = some job) (hl : job.Later job') (hs : ¬ job.status.final)
    (hjobs : db'.jobs = db.jobs.put job') : Bounded q n db' := by
  have hid : job'.id = job.id := by rw [hl.1]
  have hc : job'.createdAt = job.createdAt := by rw [hl.1]
  refine ⟨?_, fun T => ?_⟩
  · refine le_trans ?_ h.queue
    rw [activeCount, hjobs]
    exact Table.countP_put_le _ hrow hid fun _ => by simpa [mem_active_iff] using hs
  · refine le_trans ?_ (h.rate T)
    rw [windowCount, hjobs]
    exact Table.countP_put_le _ hrow hid fun hin => by rwa [hc] at hin

theorem Bounded.effect {db : Database} {q n : ℕ} (h : Bounded q n db) {c : Change}
    (hg : c.guard db) (hlimits : ∀ job q' n' t t', c = .admitted job q' n' t t' → q' = q ∧ n' = n) :
    Bounded q n (c.effect db) := by
  rcases effect_jobs hg with ⟨job, q', n', t, t', rfl⟩ | ⟨job, job', hrow, hs, hl, hjobs⟩ | hjobs
  · obtain ⟨rfl, rfl⟩ := hlimits _ _ _ _ _ rfl
    exact h.admitted hg
  · exact h.setJob hrow hl hs hjobs
  · exact ⟨by rw [activeCount, hjobs]; exact h.queue,
      fun T => by rw [windowCount, hjobs]; exact h.rate T⟩

variable [Sha256]

/-- **Admission bounds.** In a run whose submissions all use the same limits, mixed in any
order with all other requests, the number of active jobs never exceeds the queue limit,
and no minute, wherever it ends, holds more than the rate limit.  Nothing is assumed about
the clock. -/
theorem admission_bounds (txns : List Txn) (queueLimit submissionsPerMinute : ℕ)
    (hlimits : ∀ t ∈ txns, ∀ body, t.request = .submit body →
      t.config.queueLimit = queueLimit ∧
        t.config.submissionsPerMinute = submissionsPerMinute) :
    ((run txns).jobs.rows.countP fun j =>
      decide (j.status ∈ [.queued, .retryWait, .leased, .running])) ≤ queueLimit ∧
    ∀ T : Time, ((run txns).jobs.rows.countP fun j =>
      decide (T - 60 ≤ j.createdAt) && decide (j.createdAt ≤ T)) ≤ submissionsPerMinute := by
  have h : Bounded queueLimit submissionsPerMinute (run txns) := by
    refine (run_invariant_of ⟨Nat.zero_le _, fun _ => Nat.zero_le _⟩ ?_).2
    intro t ht c db hc _ hg hb
    refine hb.effect hg ?_
    rintro job q n t1 t2 rfl
    cases hreq : t.request with
    | submit body =>
        rw [hreq] at hc
        obtain ⟨hq, hn⟩ := hlimits t ht body hreq
        exact ⟨hc.1.1.trans hq, hc.1.2.1.trans hn⟩
    | _ => simp [hreq, Timely, Allowed] at hc
  exact ⟨h.queue, h.rate⟩

/-- A submission to a coordinator that admits one job. -/
def narrowSubmission (time : ℕ) : Txn where
  config := { Settings.standard with
    queueLimit := 1
    submissionsPerMinute := 1
    queueLimit_range := by norm_num
    rate_range := by norm_num }
  request := .submit .flaky
  feed := .still time

omit [Sha256] in
theorem admission_bounds_narrow :
    letI := Sha256.tabulated []
    ((run [narrowSubmission 10, narrowSubmission 11]).jobs.rows.map Job.id) = [1004] ∧
    ((run [narrowSubmission 10, narrowSubmission 11]).jobs.rows.countP fun j =>
      decide (j.status ∈ [.queued, .retryWait, .leased, .running])) ≤ 1 := by
  let := Sha256.tabulated []
  refine ⟨by decide +kernel, (admission_bounds _ 1 1 ?_).1⟩
  simp [narrowSubmission]

end GreyQueue
