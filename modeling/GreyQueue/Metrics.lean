import GreyQueue.Observability
import GreyQueue.Trail

/-!
# Conservation of the metrics

The counters of a snapshot come from the event log, its gauges from the job rows, and the
attempts are a third account of the same history.  Each equation between them holds for
one job, by its trail and its attempts, and then for the sum over all jobs.

## Main results

* `metrics_conservation` — the counters and the gauges of one state agree.
-/

namespace GreyQueue

open Lib

/-! ## One job -/

/-- A path meets a final state only at its end. -/
theorem count_final {states : List Status} {s t : Status} (hchain : states.IsChain
    fun s t => t ∈ transitions s) (hs : s.final) (hlast : states.getLast? = some t) :
    states.count s = if t = s then 1 else 0 := by
  induction states with
  | nil => cases hlast
  | cons x l ih =>
      cases l with
      | nil =>
          obtain rfl : x = t := by simpa using hlast
          simp [List.count_singleton]
      | cons y l =>
          rw [List.isChain_cons_cons] at hchain
          have hne : x ≠ s := by
            rintro rfl
            rw [hs] at hchain
            simp at hchain
          rw [List.count_cons_of_ne hne]
          exact ih hchain.2 (by simpa using hlast)

/-- One for a job in the state. -/
def Job.inState (job : Job) (s : Status) : ℕ := if job.status = s then 1 else 0

section Job

variable {job : Job} {l : List Attempt} {r : Option Result} {states : List Status}

/-- All attempts of a tried job but one have a fence below its count. -/
theorem JobInv.countP_past (h : JobInv job l r) (hpos : 0 < job.attemptCount) :
    (l.countP fun a => decide (a.fence ≠ job.attemptCount)) + 1 = l.length := by
  have hcount : (l.map Attempt.fence).count job.attemptCount = 1 := by
    rw [h.fences]
    refine List.count_eq_one_of_mem List.nodup_range' ?_
    rw [List.mem_range'_1]
    omega
  rw [List.count, List.countP_map] at hcount
  have hsplit := List.length_eq_countP_add_countP
    ((fun x => x == job.attemptCount) ∘ Attempt.fence) (l := l)
  rw [hcount] at hsplit
  rw [hsplit, Nat.add_comm]
  congr 1
  exact List.countP_congr fun a _ => by simp

/-- The current attempt is lost exactly when the job is neither held nor succeeded. -/
theorem JobInv.lost_iff (h : JobInv job l r) {a : Attempt} (ha : a ∈ l) : a.lost = true ↔
    a.fence ≠ job.attemptCount ∨
      (job.status ≠ .succeeded ∧ job.status ≠ .leased ∧ job.status ≠ .running) := by
  by_cases hf : a.fence = job.attemptCount
  · have hfits := h.current a ha hf
    cases hs : job.status <;> simp only [Fits, hs] at hfits <;>
      simp_all [Attempt.lost, Attempt.Lost, Attempt.Pending]
  · have hle := (h.fence_mem ha).2
    have hpast := (h.past a ha (by omega)).2
    simp [Attempt.lost, hpast, hf]

/-- The lost attempts of a job are its retries and the failure that ended it. -/
theorem JobInv.countP_lost (h : JobInv job l r) : l.countP Attempt.lost =
    l.countP job.retried + (job.inState .failed + job.inState .deadLetter) := by
  by_cases hended : job.status = .failed ∨ job.status = .deadLetter
  · -- every attempt is lost, and the current one ended the job
    have hone : job.inState .failed + job.inState .deadLetter = 1 := by
      rcases hended with hs | hs <;> simp [Job.inState, hs]
    have hpos : 0 < job.attemptCount := by
      refine h.tried ?_ ?_ <;> rcases hended with hs | hs <;> simp [hs]
    have hall : ∀ a ∈ l, a.lost = true := by
      intro a ha
      refine (h.lost_iff ha).mpr (Or.inr ?_)
      rcases hended with hs | hs <;> simp [hs]
    have hretried : l.countP job.retried =
        l.countP fun a => decide (a.fence ≠ job.attemptCount) := by
      refine List.countP_congr fun a ha => ?_
      rcases hended with hs | hs <;> simp [Job.retried, Job.endedBy, hall a ha, hs]
    rw [List.countP_eq_length.mpr hall, hretried, hone, h.countP_past hpos]
  · push Not at hended
    have hsame : l.countP Attempt.lost = l.countP job.retried :=
      List.countP_congr fun a _ => by rw [Job.retried_eq_lost hended.1 hended.2]
    simp [hsame, Job.inState, hended.1, hended.2]

/-- The attempts of a job are the lost ones, and the one that succeeded or is open. -/
theorem JobInv.length_eq_lost (h : JobInv job l r) : l.length = l.countP Attempt.lost +
    (job.inState .succeeded + (job.inState .leased + job.inState .running)) := by
  by_cases hcurrent : job.status = .succeeded ∨ job.status = .leased ∨ job.status = .running
  · have hone : job.inState .succeeded + (job.inState .leased + job.inState .running) = 1 := by
      rcases hcurrent with hs | hs | hs <;> simp [Job.inState, hs]
    have hpos : 0 < job.attemptCount := by
      refine h.tried ?_ ?_ <;> rcases hcurrent with hs | hs | hs <;> simp [hs]
    have hlost : l.countP Attempt.lost = l.countP fun a => decide (a.fence ≠ job.attemptCount) := by
      refine List.countP_congr fun a ha => ?_
      rw [h.lost_iff ha]
      rcases hcurrent with hs | hs | hs <;> simp [hs]
    rw [hlost, hone, h.countP_past hpos]
  · push Not at hcurrent
    have hall : ∀ a ∈ l, a.lost = true := fun a ha => (h.lost_iff ha).mpr (Or.inr hcurrent)
    simp [List.countP_eq_length.mpr hall, Job.inState, hcurrent.1, hcurrent.2.1, hcurrent.2.2]

end Job

/-! ## All jobs -/

theorem sum_inState (rows : List Job) (s : Status) :
    (rows.map fun j => j.inState s).sum = rows.countP fun j => decide (j.status = s) := by
  induction rows with
  | nil => rfl
  | cons j rows ih =>
      rw [List.map_cons, List.sum_cons, ih, List.countP_cons, Job.inState]
      simp [Nat.add_comm]

/-- Every job is in one of the states. -/
theorem length_eq_states (db : Database) : db.jobs.rows.length =
    statesOf db .queued + statesOf db .retryWait + statesOf db .leased + statesOf db .running +
      statesOf db .succeeded + (statesOf db .failed + statesOf db .deadLetter) +
      statesOf db .cancelled := by
  simp only [statesOf]
  induction db.jobs.rows with
  | nil => rfl
  | cons j rows ih =>
      simp only [List.length_cons, ih, List.countP_cons]
      cases j.status <;> simp <;> omega

/-- The events of a state are counted job by job. -/
theorem LogInv.countsOf_eq {db : Database} (h : LogInv db) (s : EventState) :
    countsOf db s = (db.jobs.rows.map fun j => (trail db j.id).count s).sum := by
  rw [countsOf, db.jobs.countP_groups Event.jobId _ h.event_job]
  refine congrArg List.sum (List.map_congr_left fun j _ => ?_)
  rw [trail, List.count, List.countP_map]
  exact List.countP_congr fun e _ => by simp

/-- The attempts are counted job by job. -/
theorem Inv.countP_attempts {db : Database} (h : Inv db) (p : Attempt → Bool) :
    db.attempts.rows.countP p =
      (db.jobs.rows.map fun j => (attemptsOf db.attempts j.id).countP p).sum :=
  db.jobs.countP_groups Attempt.jobId p h.attempt_job

/-- A final state occurs in the trail of the jobs that are in it. -/
theorem LogInv.count_final {db : Database} (h : LogInv db) {job : Job} (hjob : job ∈ db.jobs.rows)
    {s : Status} (hs : s.final) : (trail db job.id).count (.entered s) = job.inState s := by
  obtain ⟨states, htrail, hf⟩ := h.job job (Table.find?_of_mem hjob)
  rw [count_trail htrail, GreyQueue.count_final hf.chain hs hf.last, Job.inState]

/-- The counter of a final state is its gauge. -/
theorem LogInv.countsOf_final {db : Database} (h : LogInv db) {s : Status} (hs : s.final) :
    countsOf db (.entered s) = statesOf db s := by
  rw [h.countsOf_eq, statesOf, ← sum_inState]
  exact congrArg List.sum (List.map_congr_left fun j hj => h.count_final hj hs)

/-- Every job has been submitted once. -/
theorem LogInv.countsOf_submitted {db : Database} (h : LogInv db) :
    countsOf db .submitted = db.jobs.rows.length := by
  have hone : (db.jobs.rows.map fun j => (trail db j.id).count .submitted) =
      db.jobs.rows.map fun _ => 1 := by
    refine List.map_congr_left fun j hj => ?_
    obtain ⟨states, htrail, -⟩ := h.job j (Table.find?_of_mem hj)
    rw [htrail, List.count_cons_self, List.count_eq_zero_of_not_mem (by simp)]
  rw [h.countsOf_eq, hone]
  simp

/-- The retries are the lost attempts that did not end their job. -/
theorem LogInv.countsOf_retryWait {db : Database} (h : LogInv db) (hinv : Inv db) :
    countsOf db (.entered .retryWait) + (statesOf db .failed + statesOf db .deadLetter) =
      db.attempts.rows.countP Attempt.lost := by
  rw [h.countsOf_eq, hinv.countP_attempts, statesOf, statesOf, ← sum_inState, ← sum_inState,
    ← List.sum_map_add, ← List.sum_map_add]
  refine congrArg List.sum (List.map_congr_left fun j hj => ?_)
  have hrow : db.jobs.find? j.id = some j := Table.find?_of_mem hj
  obtain ⟨states, htrail, hf⟩ := h.job j hrow
  rw [count_trail htrail, hf.retryWait, (hinv.job j hrow).countP_lost]

/-- The attempts are the lost ones, and one for each job that succeeded or is held. -/
theorem Inv.length_attempts {db : Database} (hinv : Inv db) : db.attempts.rows.length =
    db.attempts.rows.countP Attempt.lost +
      (statesOf db .succeeded + (statesOf db .leased + statesOf db .running)) := by
  have hlen : db.attempts.rows.length =
      (db.jobs.rows.map fun j => (attemptsOf db.attempts j.id).length).sum := by
    simpa [List.countP_true] using hinv.countP_attempts fun _ => true
  rw [hlen, hinv.countP_attempts, statesOf, statesOf, statesOf, ← sum_inState, ← sum_inState,
    ← sum_inState, ← List.sum_map_add, ← List.sum_map_add, ← List.sum_map_add]
  refine congrArg List.sum (List.map_congr_left fun j hj => ?_)
  exact (hinv.job j (Table.find?_of_mem hj)).length_eq_lost

/-! ## Runs -/

variable [Sha256]

/-- **Metrics conservation.** In every reachable state, the counters that a snapshot derives
from the event log agree with the gauges that it derives from the rows, and with the
attempts. -/
theorem metrics_conservation (txns : List Txn) (m n : Moment) (queueLimit : ℕ) :
    let db := run txns
    let data := snapshot db m n queueLimit
    data.submitted = db.jobs.rows.length ∧
    data.completed = data.states .succeeded ∧
    data.failed = data.states .failed + data.states .deadLetter ∧
    data.submitted =
      data.admittedActive + data.completed + data.failed + data.states .cancelled ∧
    data.retries + data.failed = db.attempts.rows.countP
      (fun a => decide (a.outcome = some .failed ∨ a.outcome = some .leaseExpired)) ∧
    db.attempts.rows.length =
      data.retries + data.completed + data.failed +
        db.jobs.rows.countP fun j => decide (j.status = .leased ∨ j.status = .running) := by
  intro db data
  have hlog : LogInv db := run_logInv txns
  have hinv : Inv db := run_inv txns
  have hsubmitted : data.submitted = db.jobs.rows.length := hlog.countsOf_submitted
  have hcompleted : data.completed = data.states .succeeded := hlog.countsOf_final rfl
  have hfailed : data.failed = data.states .failed + data.states .deadLetter :=
    congrArg₂ (· + ·) (hlog.countsOf_final rfl) (hlog.countsOf_final rfl)
  have hretries : data.retries + data.failed = db.attempts.rows.countP Attempt.lost := by
    rw [hfailed]
    exact hlog.countsOf_retryWait hinv
  have hlost : db.attempts.rows.countP Attempt.lost = db.attempts.rows.countP
      (fun a => decide (a.outcome = some .failed ∨ a.outcome = some .leaseExpired)) :=
    List.countP_congr fun a _ => by simp [Attempt.lost]
  have hheld : statesOf db .leased + statesOf db .running =
      db.jobs.rows.countP fun j => decide (j.status = .leased ∨ j.status = .running) := by
    simp only [statesOf]
    induction db.jobs.rows with
    | nil => rfl
    | cons j rows ih =>
        simp only [List.countP_cons, ← ih]
        cases j.status <;> simp <;> omega
  refine ⟨hsubmitted, hcompleted, hfailed, ?_, hretries.trans hlost, ?_⟩
  · rw [hsubmitted, length_eq_states, hcompleted, hfailed]
    rfl
  · have hlength : db.attempts.rows.length = db.attempts.rows.countP Attempt.lost +
        (data.states .succeeded + (statesOf db .leased + statesOf db .running)) :=
      hinv.length_attempts
    omega

end GreyQueue
