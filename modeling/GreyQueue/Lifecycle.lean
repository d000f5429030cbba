import GreyQueue.History

/-!
# The life of a job

What holds of every job in every state that transactions can reach: who owns it, how its
attempts are numbered, and how its single outcome relates to them.
-/

namespace GreyQueue

open Lib

variable [Sha256]

/-! ## Ownership -/

/-- The open attempts of a job. -/
def openAttempts (db : Database) (jobId : Uuid) : List Attempt :=
  (attemptsOf db.attempts jobId).filter Attempt.isOpen

omit [Sha256] in
theorem mem_openAttempts {db : Database} {jobId : Uuid} {a : Attempt} :
    a ∈ openAttempts db jobId ↔ a ∈ attemptsOf db.attempts jobId ∧ a.finishedAt = none := by
  simp [openAttempts, Attempt.isOpen]

omit [Sha256] in
/-- A held job has exactly one open attempt, and no other job has one. -/
theorem Inv.openAttempts_length {db : Database} (h : Inv db) {job : Job}
    (hjob : db.jobs.find? job.id = some job) :
    (job.status.held = true → (openAttempts db job.id).length = 1) ∧
      (job.status.held = false → openAttempts db job.id = []) := by
  have hinv := h.job job hjob
  constructor
  · intro hheld
    obtain ⟨-, a, ha, -, hpend, -⟩ := hinv.of_held hheld
    have hmem : a ∈ openAttempts db job.id := mem_openAttempts.mpr ⟨ha, hpend.1⟩
    -- every open attempt has the job's count as its fence
    have hall : ∀ b ∈ openAttempts db job.id, b = a := by
      intro b hb
      obtain ⟨hb, hbo⟩ := mem_openAttempts.mp hb
      exact hinv.eq_of_fence hb ha
        ((hinv.of_open hb hbo).1.trans (hinv.of_open ha hpend.1).1.symm)
    have hnodup : (openAttempts db job.id).Nodup :=
      (List.filter_sublist.trans List.filter_sublist).nodup (List.Nodup.of_map _ db.attempts.nodup)
    have hrep := List.eq_replicate_of_mem hall
    rw [hrep] at hnodup hmem ⊢
    rw [List.length_replicate]
    have hle := List.nodup_replicate.mp hnodup
    have hpos : (openAttempts db job.id).length ≠ 0 := by
      intro h0; simp [h0] at hmem
    omega
  · intro hheld
    refine List.eq_nil_iff_forall_not_mem.mpr fun b hb => ?_
    obtain ⟨hb, hbo⟩ := mem_openAttempts.mp hb
    simp [(hinv.of_open hb hbo).2.1] at hheld

/-- **Ownership.** In every reachable state a job is leased or running exactly when it has
one open attempt, and has none otherwise; the open attempt carries the job's count as its
fence and has started exactly when the job is running; the fences of the job's attempts
are `1, …, attempt_count`, each once; and the count respects the retry limit.  No claim
ever violates a unique index of the attempts. -/
theorem ownership (txns : List Txn) :
    (∀ job ∈ (run txns).jobs.rows,
      ((job.status = .leased ∨ job.status = .running) ↔
        (openAttempts (run txns) job.id).length = 1) ∧
      (¬ (job.status = .leased ∨ job.status = .running) → openAttempts (run txns) job.id = []) ∧
      (∀ a ∈ openAttempts (run txns) job.id, a.fence = job.attemptCount ∧
        (a.startedAt.isSome = true ↔ job.status = .running)) ∧
      (attemptsOf (run txns).attempts job.id).map Attempt.fence =
        List.range' 1 job.attemptCount ∧
      (job.status = .queued → job.attemptCount = 0) ∧
      (job.status = .retryWait → job.attemptCount ≤ job.maxRetries) ∧
      job.attemptCount ≤ job.maxRetries + 1) ∧
    ∀ (config : Settings) (body : Claim) (credential : Option String) (feed : ℕ → Moment)
      (name : String),
      name ∈ ["ix_attempt_active_slot", "ix_attempt_active_job", "attempts_claim_id_key"] →
      Txn.answer ⟨config, .claim body credential, feed⟩ (run txns) ≠ .error (.integrity name) := by
  have hinv := run_inv txns
  refine ⟨fun job hmem => ?_, ?_⟩
  · have hrow : (run txns).jobs.find? job.id = some job := Table.find?_of_mem hmem
    have hjob := hinv.job job hrow
    obtain ⟨hheld, hidle⟩ := hinv.openAttempts_length hrow
    have hiff : (job.status = .leased ∨ job.status = .running) ↔ job.status.held = true := by
      cases job.status <;> simp [Status.held]
    refine ⟨?_, ?_, ?_, hjob.fences, hjob.queued, ?_, hjob.bound⟩
    · rw [hiff]
      refine ⟨hheld, fun h1 => ?_⟩
      by_contra hn
      simp [hidle (by simpa using hn)] at h1
    · rw [hiff]
      exact fun hn => hidle (by simpa using hn)
    · intro a ha
      obtain ⟨ha, hopen⟩ := mem_openAttempts.mp ha
      obtain ⟨hf, -, -, hs⟩ := hjob.of_open ha hopen
      exact ⟨hf, hs⟩
    · intro hs
      exact hjob.idle_bound (Or.inl (by simp [hs, Status.waiting]))
  · intro config body credential feed name hname hans
    have hserved := Txn.served ⟨config, .claim body credential, feed⟩ hinv
    rw [hans] at hserved
    rcases hserved name rfl with rfl | rfl <;> simp at hname

end GreyQueue
