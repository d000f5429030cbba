import Mathlib.Data.List.Induction
import GreyQueue.Lib.Log
import GreyQueue.Refinement

/-!
# What never changes

A database only grows: rows are never deleted, the definition of a job and the identity
of an attempt are fixed when the row is written, finished attempts, terminal jobs and
results are never touched again, and the event log is only appended to.

## Main definitions

* `Later` — a database that can follow another one.

## Main results

* `Later.effect`, `Later.commit`, `Later.run` — changes, transactions and runs only grow.
-/

namespace GreyQueue

open Lib

/-- The state is one that no transition leaves. -/
def Status.final (s : Status) : Prop := transitions s = []

/-- A later version of a job: the definition is the same, and a job in a final state is
left alone. -/
def Job.Later (j k : Job) : Prop :=
  k = { j with status := k.status, attemptCount := k.attemptCount
               availableAt := k.availableAt, updatedAt := k.updatedAt } ∧
    j.attemptCount ≤ k.attemptCount ∧ (j.status.final → k = j)

/-- A later version of an attempt: who made it for which job is the same, and a finished
attempt is left alone. -/
def Attempt.Later (a b : Attempt) : Prop :=
  b = { a with expiresAt := b.expiresAt, outcome := b.outcome, output := b.output
               error := b.error, startedAt := b.startedAt, finishedAt := b.finishedAt } ∧
    (a.finishedAt.isSome = true → b = a)

/-- A later version of a worker row has the same id. -/
def Worker.Later (w v : Worker) : Prop := v.id = w.id

/-- A database that can follow another one. -/
structure Later (db db' : Database) : Prop where
  jobs : Table.Evolves Job.Later db.jobs db'.jobs
  attempts : Table.Evolves Attempt.Later db.attempts db'.attempts
  results : Table.Evolves Eq db.results db'.results
  workers : Table.Evolves Worker.Later db.workers db'.workers
  events : db.events <+: db'.events

theorem Job.Later.refl (j : Job) : j.Later j := ⟨rfl, le_rfl, fun _ => rfl⟩

theorem Job.Later.trans {i j k : Job} (h : i.Later j) (h' : j.Later k) : i.Later k := by
  obtain ⟨hd, hc, hf⟩ := h
  obtain ⟨hd', hc', hf'⟩ := h'
  refine ⟨?_, hc.trans hc', fun hi => ?_⟩
  · rw [hd'] ; rw [hd]
  · obtain rfl := hf hi
    exact hf' hi

theorem Attempt.Later.refl (a : Attempt) : a.Later a := ⟨rfl, fun _ => rfl⟩

theorem Attempt.Later.trans {a b c : Attempt} (h : a.Later b) (h' : b.Later c) : a.Later c := by
  obtain ⟨hd, hf⟩ := h
  obtain ⟨hd', hf'⟩ := h'
  refine ⟨?_, fun hi => ?_⟩
  · rw [hd']; rw [hd]
  · obtain rfl := hf hi
    exact hf' hi

/-- A job that is not in a final state may enter another state. -/
theorem Job.Later.enter {j k : Job} (hs : ¬ j.status.final)
    (hd : k = { j with status := k.status, attemptCount := k.attemptCount
                       availableAt := k.availableAt, updatedAt := k.updatedAt })
    (hc : j.attemptCount ≤ k.attemptCount) : j.Later k :=
  ⟨hd, hc, fun h => absurd h hs⟩

theorem Status.not_final_of_held {s : Status} (h : s.held = true) : ¬ s.final := by
  cases s <;> simp_all [Status.held, Status.final, transitions]

theorem Status.not_final_of_waiting {s : Status} (h : s.waiting = true) : ¬ s.final := by
  cases s <;> simp_all [Status.waiting, Status.final, transitions]

/-- What a change does to the jobs: it admits one, rewrites one that is not in a final
state, or leaves them alone. -/
theorem effect_jobs {db : Database} {c : Change} (hg : c.guard db) :
    (∃ job q n t t', c = .admitted job q n t t') ∨
      (∃ job job', db.jobs.find? job.id = some job ∧ ¬ job.status.final ∧ job.Later job' ∧
        (c.effect db).jobs = db.jobs.put job') ∨
      (c.effect db).jobs = db.jobs := by
  cases c with
  | admitted job q n t t' => exact Or.inl ⟨job, q, n, t, t', rfl⟩
  | lease w job a t s =>
      have hs := Status.not_final_of_waiting (claimable_iff.mp hg.ready).1
      exact Or.inr (Or.inl ⟨job, job.leased s, hg.job_row, hs,
        .enter hs rfl (Nat.le_succ _), rfl⟩)
  | start job a t s =>
      have hs : ¬ job.status.final := by simp [hg.2.2, Status.final, transitions]
      exact Or.inr (Or.inl ⟨job, job.enter .running s, hg.1.job_row, hs,
        .enter hs rfl le_rfl, rfl⟩)
  | succeed job a o t s =>
      have hs : ¬ job.status.final := by simp [hg.2.2.1, Status.final, transitions]
      exact Or.inr (Or.inl ⟨job, job.enter .succeeded s, hg.1.job_row, hs,
        .enter hs rfl le_rfl, rfl⟩)
  | retry job a o e t t' s =>
      have hs := Status.not_final_of_held hg.2.1
      exact Or.inr (Or.inl ⟨job, Job.enter { job with availableAt := t' } .retryWait s,
        hg.1.job_row, hs, .enter hs rfl le_rfl, rfl⟩)
  | fail job a o e r t s =>
      have hs := Status.not_final_of_held hg.2.1
      exact Or.inr (Or.inl ⟨job, job.enter (if r then .deadLetter else .failed) s,
        hg.1.job_row, hs, .enter hs rfl le_rfl, rfl⟩)
  | cancel job s =>
      have hs := Status.not_final_of_waiting hg.2
      exact Or.inr (Or.inl ⟨job, job.enter .cancelled s, hg.1, hs, .enter hs rfl le_rfl, rfl⟩)
  | renew | enroll | seen | drain | takeover | mark | log => exact Or.inr (Or.inr rfl)

/-- What a change does to the attempts: it leases one, rewrites one that is held, or leaves
them alone. -/
theorem effect_attempts {db : Database} {c : Change} (hg : c.guard db) :
    (∃ w job a t s, c = .lease w job a t s) ∨
      (∃ job a b, Holds db job a ∧ a.Later b ∧ (c.effect db).attempts = db.attempts.put b) ∨
      (c.effect db).attempts = db.attempts := by
  -- an open attempt may become anything that keeps its identity
  have hput : ∀ {job a} (b : Attempt), Holds db job a →
      b = { a with expiresAt := b.expiresAt, outcome := b.outcome, output := b.output
                   error := b.error, startedAt := b.startedAt, finishedAt := b.finishedAt } →
      (c.effect db).attempts = db.attempts.put b →
      ∃ job a b, Holds db job a ∧ a.Later b ∧ (c.effect db).attempts = db.attempts.put b :=
    fun b hold hb heq => ⟨_, _, b, hold, ⟨hb, by simp [hold.is_open]⟩, heq⟩
  cases c with
  | lease w job a t s => exact Or.inl ⟨w, job, a, t, s, rfl⟩
  | start | renew | succeed | retry | fail => exact Or.inr (Or.inl (hput _ hg.1 rfl rfl))
  | admitted | cancel | enroll | seen | drain | takeover | mark | log => exact Or.inr (Or.inr rfl)

namespace Later

variable {db db' db'' : Database}

theorem refl (db : Database) : Later db db :=
  ⟨.refl Job.Later.refl _, .refl Attempt.Later.refl _, .refl (fun _ => rfl) _,
    .refl (R := Worker.Later) (fun _ => rfl) _, List.prefix_refl _⟩

theorem trans (h : Later db db') (h' : Later db' db'') : Later db db'' :=
  ⟨h.jobs.trans Job.Later.trans h'.jobs, h.attempts.trans Attempt.Later.trans h'.attempts,
    h.results.trans Eq.trans h'.results, h.workers.trans (fun h h' => Eq.trans h' h) h'.workers,
    h.events.trans h'.events⟩

theorem jobs_effect {c : Change} (hg : c.guard db) :
    Table.Evolves Job.Later db.jobs (c.effect db).jobs := by
  rcases effect_jobs hg with ⟨job, q, n, t, t', rfl⟩ | ⟨job, job', hrow, -, hl, hjobs⟩ | hjobs
  · exact .add Job.Later.refl hg.fresh
  · rw [hjobs]
    exact .put Job.Later.refl hrow (by rw [hl.1]; rfl) hl
  · rw [hjobs]
    exact .refl Job.Later.refl _

theorem attempts_effect {c : Change} (hg : c.guard db) :
    Table.Evolves Attempt.Later db.attempts (c.effect db).attempts := by
  rcases effect_attempts hg with ⟨w, job, a, t, s, rfl⟩ | ⟨job, a, b, hold, hl, heq⟩ | heq
  · exact .add Attempt.Later.refl hg.fresh
  · rw [heq]
    exact .put Attempt.Later.refl hold.attempt_row (by rw [hl.1]; rfl) hl
  · rw [heq]
    exact .refl Attempt.Later.refl _

theorem effect {c : Change} (hg : c.guard db) : Later db (c.effect db) := by
  have hrefl := Later.refl db
  have hjobs := jobs_effect hg
  have hattempts := attempts_effect hg
  cases c with
  | admitted | lease | start | retry | cancel =>
      exact { hrefl with
        jobs := hjobs, attempts := hattempts, events := List.prefix_append _ _ }
  | renew => exact { hrefl with attempts := hattempts }
  | succeed job a o t s =>
      exact { hrefl with
        jobs := hjobs, attempts := hattempts, results := .add (fun _ => rfl) hg.2.2.2
        events := List.prefix_append _ _ }
  | fail job a o e r t s =>
      exact { hrefl with
        jobs := hjobs, attempts := hattempts, results := .add (fun _ => rfl) hg.2.2.2.2.2.2
        events := List.prefix_append _ _ }
  | enroll w => exact { hrefl with workers := .add (R := Worker.Later) (fun _ => rfl) hg.1 }
  | seen w t => exact { hrefl with workers := .put (R := Worker.Later) (fun _ => rfl) hg rfl rfl }
  | drain w => exact { hrefl with workers := .put (R := Worker.Later) (fun _ => rfl) hg.1 rfl rfl }
  | takeover w b hash t =>
      exact { hrefl with workers := .put (R := Worker.Later) (fun _ => rfl) hg.1 rfl rfl }
  | mark w s => exact { hrefl with workers := .put (R := Worker.Later) (fun _ => rfl) hg.1 rfl rfl }
  | log e => exact { hrefl with }

end Later

theorem Makes.later {P : Change → Prop} {db db' : Database} (h : Makes P db db') : Later db db' :=
  h.invariant (fun _ _ _ hg hl => hl.trans (.effect hg)) (.refl db)

/-! ## Runs -/

variable [Sha256]

theorem run_append (txns more : List Txn) : run (txns ++ more) = more.foldl commit (run txns) :=
  List.foldl_append

theorem run_snoc (txns : List Txn) (t : Txn) : run (txns ++ [t]) = commit (run txns) t :=
  run_append txns [t]

/-- What happens to a transaction of a longer run happened before, or happens at its end. -/
theorem occurs_snoc {P : Database → Txn → Prop} {txns : List Txn} {t : Txn} :
    (∃ pre u post, txns ++ [t] = pre ++ u :: post ∧ P (run pre) u) ↔
      (∃ pre u post, txns = pre ++ u :: post ∧ P (run pre) u) ∨ P (run txns) t := by
  constructor
  · rintro ⟨pre, u, post, heq, hu⟩
    rcases split_concat heq with ⟨rfl, rfl⟩ | ⟨post', htxns⟩
    · exact Or.inr hu
    · exact Or.inl ⟨pre, u, post', htxns, hu⟩
  · rintro (⟨pre, u, post, rfl, hu⟩ | hu)
    · exact ⟨pre, u, post ++ [t], by simp, hu⟩
    · exact ⟨txns, t, [], rfl, hu⟩

/-- Only a claim makes an attempt. -/
theorem claim_of_attempt {db : Database} (hinv : Inv db) {t : Txn} {a : Attempt}
    (ha : (commit db t).attempts.find? a.id = some a) (hnew : db.attempts.find? a.id = none) :
    ∃ body credential, t.request = .claim body credential := by
  by_contra hclaim
  have hnone := (commit_invariant (I := fun d => d.attempts.find? a.id = none) hinv (t := t)
    (fun c d hc _ hg hd => ?_) hnew).2
  · rw [hnone] at ha
    cases ha
  · rcases effect_attempts hg with ⟨w, job, b, τ, s, rfl⟩ | ⟨job, b, b', hb, hl, heq⟩ | heq
    · have hallowed := hc.1
      cases hreq : t.request with
      | claim body credential => exact absurd ⟨body, credential, hreq⟩ hclaim
      | _ => simp [hreq, Allowed] at hallowed
    · have hid : b'.id = b.id := by rw [hl.1]
      have hne : b'.id ≠ a.id := by
        intro h
        have hrow := hb.attempt_row
        rw [← hid, h, hd] at hrow
        cases hrow
      rw [heq]
      exact (Table.find?_put_ne _ hne).trans hd
    · rw [heq]
      exact hd

/-- Transactions only let a run grow. -/
theorem run_later (txns more : List Txn) : Later (run txns) (run (txns ++ more)) := by
  induction more using List.reverseRecOn with
  | nil => rw [List.append_nil]; exact .refl _
  | append_singleton more t ih =>
      rw [← List.append_assoc, run_snoc]
      exact ih.trans (commit_makes (run_inv _) t).later

end GreyQueue
