import GreyQueue.Outcome

/-!
# Fencing

A token whose attempt is finished, superseded or expired changes nothing, whoever sends
it and whatever comes with it.  The only call that still returns is the repetition of the
finish that closed the attempt, and that one returns forever.
-/

namespace GreyQueue

open Lib
open Lib.Prog (Sat)

/-- The attempt is finished, has a fence below its job's count, or is expired at every
reading of the clock. -/
def Stale (db : Database) (feed : ℕ → Moment) (a : Attempt) : Prop :=
  a.finishedAt.isSome = true ∨
    (∃ job, db.jobs.find? a.jobId = some job ∧ a.fence < job.attemptCount) ∨
    ∀ n, a.expiresAt ≤ (feed n).time

/-- A stale attempt never passes the checks of `owned` for an open one. -/
theorem Stale.not_owned {db : Database} {feed : ℕ → Moment} {a : Attempt} (h : Stale db feed a)
    {job : Job} {b : Attempt} {m : Moment} (ha : a ∈ db.attempts.rows) (hold : Holds db job b)
    (hid : b.id = a.id) (hf : b.fence = job.attemptCount) (hm : ∃ n, m = feed n)
    (ht : m.time < b.expiresAt) : False := by
  obtain rfl : b = a := Table.eq_of_key (Table.mem_of_find? hold.attempt_row) ha hid
  rcases h with hfin | ⟨job', hjob', hlt⟩ | hexp
  · simp [hold.is_open] at hfin
  · rw [hold.attempt_job, hold.job_row, Option.some.injEq] at hjob'
    rw [hjob'] at hf
    omega
  · obtain ⟨n, rfl⟩ := hm
    exact absurd ht (not_lt.mpr (hexp n))

section Service

variable {db : Database} {feed : ℕ → Moment} {a : Attempt}

theorem Stale.start (h : Stale db feed a) (ha : a ∈ db.attempts.rows) (jobId : Uuid)
    (workerId : String) :
    ((start jobId workerId a.id).exec feed db).state = db ∧
      ((start jobId workerId a.id).exec feed db).result ≠ .ok () := by
  refine Sat.exec (A := fun m => ∃ n, m = feed n) (Q := fun r d => d = db ∧ r ≠ .ok ())
    (sat_start (l := 0) ?_ ?_ ?_ ?_) fun n => ⟨n, rfl⟩
  · exact fun _ => ⟨rfl, by simp⟩
  · exact fun _ _ => ⟨rfl, by simp⟩
  · intro job b m hm hold hf ht hid _ _
    exact (h.not_owned ha hold hid hf hm ht).elim
  · intro job b m t s hm hg _ ht hid _ _
    exact (h.not_owned ha hg.1 hid hg.2.1 hm ht).elim

theorem Stale.renew (h : Stale db feed a) (ha : a ∈ db.attempts.rows) (jobId : Uuid)
    (workerId : String) (leaseSeconds : ℚ) :
    ((renew jobId workerId a.id leaseSeconds).exec feed db).state = db ∧
      ∀ t, ((renew jobId workerId a.id leaseSeconds).exec feed db).result ≠ .ok t := by
  refine Sat.exec (A := fun m => ∃ n, m = feed n) (Q := fun r d => d = db ∧ ∀ t, r ≠ .ok t)
    (sat_renew ?_ ?_ ?_) fun n => ⟨n, rfl⟩
  · exact fun _ => ⟨rfl, by simp⟩
  · exact fun _ _ => ⟨rfl, by simp⟩
  · intro job b m t hm hg _ ht hid _ _
    exact (h.not_owned ha hg.1 hid hg.2.1 hm ht).elim

theorem Stale.finish (h : Stale db feed a) (ha : a ∈ db.attempts.rows) (hinv : Inv db)
    (jobId : Uuid) (workerId : String) (output : Option Json) (error : Option String)
    (retryable : Bool) :
    ((finish jobId workerId a.id output error retryable).exec feed db).state = db ∧
      (((finish jobId workerId a.id output error retryable).exec feed db).result = .ok () →
        a.finishedAt.isSome = true ∧ a.Completed) := by
  refine Sat.exec (A := fun m => ∃ n, m = feed n)
    (Q := fun r d => d = db ∧ (r = .ok () → a.finishedAt.isSome = true ∧ a.Completed))
    (sat_finish (l := 0) ?_ ?_ ?_ ?_ ?_ ?_ ?_) fun n => ⟨n, rfl⟩
  · exact fun _ => ⟨rfl, by simp⟩
  · exact fun _ _ => ⟨rfl, by simp⟩
  · exact hinv.no_result
  · intro job b _ hb _ _ hfin ho _ _
    obtain rfl : b = a :=
      Table.eq_of_key (Table.mem_of_find? hb) ha (Table.key_of_find? hb)
    exact ⟨rfl, fun _ => ⟨hfin, ho⟩⟩
  · intro _ job b m t s hm hg _ ht hid _ _
    exact (h.not_owned ha hg.1 hid hg.2.1 hm ht).elim
  · intro e _ _ job b m t t' s hm hg _ ht hid _ _
    exact (h.not_owned ha hg.1 hid (hinv.holds hg.1).2.2.1 hm ht).elim
  · intro e _ job b m t s hm hg _ ht hid _ _
    exact (h.not_owned ha hg.1 hid (hinv.holds hg.1).2.2.1 hm ht).elim

/-- The repetition of a recorded completion returns and changes nothing. -/
theorem Acknowledges.finish {body : Completion} {jobId : Uuid} (hinv : Inv db)
    (hrow : db.attempts.find? body.token = some a) (hack : Acknowledges a jobId body)
    (hoeq : outputEq a.output body.json = true) (retryable : Bool) :
    ((finish jobId body.workerId body.token body.json body.error retryable).exec feed db).result =
        .ok () ∧
      ((finish jobId body.workerId body.token body.json body.error retryable).exec feed db).state =
        db := by
  obtain ⟨haj, haw, hfin, hout, -, herr⟩ := hack
  obtain ⟨job, hjob⟩ := hinv.attempt_job a (Table.mem_of_find? hrow)
  rw [haj] at hjob
  refine Sat.exec (A := fun _ => True) (Q := fun r d => r = .ok () ∧ d = db) ?_ fun _ => trivial
  refine (Prog.sat_bind _ _ _).mpr (sat_owned_finished hjob hrow haj haw hfin ?_)
  simp only [hfin, if_true]
  rw [if_pos ⟨hout, hoeq, herr⟩]
  exact ⟨rfl, rfl⟩

end Service

variable [Sha256]

/-- **Fencing.** In every reachable state, a call of start, renew or finish that carries
the token of a stale attempt leaves the database exactly as it is, and returns only when
it is a finish of an attempt that a finish had completed.  The exact repetition of a
finish that once committed is acknowledged in every later state of the run, as long as
JSONB returns an output equal to the one it was given. -/
theorem fencing (txns : List Txn) :
    (∀ a ∈ (run txns).attempts.rows, ∀ feed, Stale (run txns) feed a →
      ∀ (jobId : Uuid) (workerId : String),
        (((start jobId workerId a.id).exec feed (run txns)).state = run txns ∧
          ((start jobId workerId a.id).exec feed (run txns)).result ≠ .ok ()) ∧
        (∀ leaseSeconds,
          ((renew jobId workerId a.id leaseSeconds).exec feed (run txns)).state = run txns ∧
          ∀ t, ((renew jobId workerId a.id leaseSeconds).exec feed (run txns)).result ≠ .ok t) ∧
        ∀ output error retryable,
          ((finish jobId workerId a.id output error retryable).exec feed (run txns)).state =
            run txns ∧
          (((finish jobId workerId a.id output error retryable).exec feed (run txns)).result =
            .ok () → ∃ verdict, Reports txns a.id verdict)) ∧
    ∀ (t : Txn) (more : List Txn) (jobId : Uuid) (body : Completion)
      (credential : Option String) (response : Response) (feed : ℕ → Moment),
      t.request = .finish jobId body credential → t.answer (run txns) = .ok response →
      outputEq body.json body.json = true →
      ((finish jobId body.workerId body.token body.json body.error body.retryable).exec feed
          (run (txns ++ t :: more))).result = .ok () ∧
        ((finish jobId body.workerId body.token body.json body.error body.retryable).exec feed
          (run (txns ++ t :: more))).state = run (txns ++ t :: more) := by
  have hinv := run_inv txns
  refine ⟨fun a ha feed hstale jobId workerId => ⟨hstale.start ha jobId workerId,
    hstale.renew ha jobId workerId, fun output error retryable => ?_⟩, ?_⟩
  · obtain ⟨hstate, hok⟩ := hstale.finish ha hinv jobId workerId output error retryable
    refine ⟨hstate, fun hres => ?_⟩
    obtain ⟨v, hv, -⟩ := (run_reported txns).completed a ha (hok hres).2
    exact ⟨v, hv⟩
  · intro t more jobId body credential response feed hreq hans hequal
    obtain ⟨-, hanswer⟩ := commit_answers hinv hans
    rw [hreq] at hanswer
    obtain ⟨a, ha, hack⟩ := hanswer
    -- the completed attempt is never touched again
    have hlater := run_later (txns ++ [t]) more
    rw [run_snoc, List.append_assoc] at hlater
    obtain ⟨b, hb, hab⟩ := hlater.attempts _ a ha
    obtain rfl := hab.2 hack.2.2.1
    have hoeq : outputEq b.output body.json = true := by
      rcases hack.2.2.2.2.1 with hout | hoeq
      · rw [hout, hequal]
      · exact hoeq
    exact hack.finish (run_inv _) hb hoeq body.retryable

end GreyQueue
