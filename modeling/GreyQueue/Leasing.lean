import GreyQueue.Replay

/-!
# What a claim leases

A claim with a fresh id for a free slot of a healthy worker leases the first row of its
query that no other transaction holds, and every other claim leaves the database as it is.

## Main definitions

* `Policy.head` — the row that the query of a claim locks.
* `Selects` — the claim of a transaction leases a job.

## Main results

* `exec_lease_some`, `exec_claim_free` — the whole run of a claim.
* `Selects.commit_eq`, `commit_or_selects` — a claim leases what it selects, and nothing else.
-/

namespace GreyQueue

open Lib

/-- `FOR UPDATE SKIP LOCKED LIMIT 1` on the claimable jobs in policy order. -/
def Policy.head (p : Policy) (worker : Worker) (timestamp : Time) (m : Moment) (db : Database) :
    Option Job :=
  (p.query worker timestamp db).find? fun j => !m.locked j.id

section Statements

variable {α : Type} {db : Database} {feed : ℕ → Moment}

theorem exec_flush {w : Write} {db' : Database} (h : w.apply db = .ok db') (k : Unit → Tx α)
    (feed : ℕ → Moment) :
    (flush w >>= k).exec feed db = (k ()).exec (fun n => feed (n + 1)) db' :=
  Prog.exec_stmt_ok (congrArg (Except.map _) h)

theorem exec_flush_error {w : Write} {e : Error} (h : w.apply db = .error e) (k : Unit → Tx α)
    (feed : ℕ → Moment) :
    (flush w >>= k).exec feed db = ⟨.error e, db, fun n => feed (n + 1)⟩ :=
  Prog.exec_stmt_error (congrArg (Except.map _) h)

theorem exec_transition {job : Job} {s : Status} (h : s ∈ transitions job.status)
    (feed : ℕ → Moment) (db : Database) :
    (transition job s).exec feed db =
      ⟨.ok (job.enter s ⟨(feed 1).time, (feed 3).start⟩), { db with
        jobs := db.jobs.put (job.enter s ⟨(feed 1).time, (feed 3).start⟩)
        events := db.events ++ [entered job s ⟨(feed 1).time, (feed 3).start⟩] },
        fun n => feed (n + 5)⟩ := by
  have hput := Table.put_put db.jobs
    (show Keyed.key { job with status := s } =
      Keyed.key (job.enter s ⟨(feed 1).time, (feed 3).start⟩) from rfl)
  rw [transition, if_pos h, ← hput]
  rfl

end Statements

/-! ## Leases -/

section Leases

variable {w : Worker} {slot : ℤ} {c : Uuid} {policy : Policy} {leaseSeconds : ℚ} {db : Database}
  {feed : ℕ → Moment} {job : Job}

/-- The attempt that `lease` inserts. -/
def newAttempt (w : Worker) (slot : ℤ) (c : Uuid) (leaseSeconds : ℚ) (feed : ℕ → Moment)
    (job : Job) : Attempt where
  id := (feed 3).uuid
  jobId := job.id
  workerId := w.id
  slot
  claimId := c
  fence := job.attemptCount + 1
  createdAt := (feed 4).start
  expiresAt := (feed 0).time + leaseSeconds

/-- The change of a lease. -/
def leaseOf (w : Worker) (slot : ℤ) (c : Uuid) (leaseSeconds : ℚ) (feed : ℕ → Moment)
    (job : Job) : Change :=
  .lease w job (newAttempt w slot c leaseSeconds feed job) (feed 0).time
    ⟨(feed 7).time, (feed 9).start⟩

theorem exec_lease_none (h : policy.head w (feed 0).time (feed 1) db = none) :
    (lease w slot (some c) policy leaseSeconds).exec feed db =
      ⟨.ok none, db, fun n => feed (n + 2)⟩ := by
  rw [lease, databaseTime, Prog.issue_bind,
    Prog.exec_stmt_ok (b := (feed 0).time) (t := db) rfl, Prog.issue_bind,
    Prog.exec_stmt_ok (b := none) (t := db) (by rw [← h]; rfl)]
  rfl

/-- A lease with a fresh claim id of a free slot. -/
theorem exec_lease_some (feed : ℕ → Moment)
    (h : policy.head w (feed 0).time (feed 1) db = some job)
    (hclaim : ∀ b ∈ db.attempts.rows, b.claimId ≠ c)
    (hslot : ∀ b ∈ db.attempts.rows, b.workerId = w.id → b.slot = slot → b.isOpen = false)
    (hidle : ∀ b ∈ db.attempts.rows, b.jobId = job.id → b.isOpen = false) :
    (db.attempts.find? (feed 3).uuid = none →
      (lease w slot (some c) policy leaseSeconds).exec feed db =
        ⟨.ok (some (job.leased ⟨(feed 7).time, (feed 9).start⟩,
          newAttempt w slot c leaseSeconds feed job)),
          (leaseOf w slot c leaseSeconds feed job).effect db, fun n => feed (n + 11)⟩) ∧
      (db.attempts.find? (feed 3).uuid ≠ none → ∃ d rest,
        (lease w slot (some c) policy leaseSeconds).exec feed db =
          ⟨.error (.integrity "attempts_pkey"), d, rest⟩) := by
  have hwait : job.status.waiting = true :=
    (claimable_iff.mp (mem_query.mp (List.mem_of_find?_eq_some h)).2).1
  have hleased : Status.leased ∈
      transitions ({ job with attemptCount := job.attemptCount + 1 } : Job).status :=
    Status.leased_mem hwait
  have hput := Table.put_put db.jobs
    (show Keyed.key { job with attemptCount := job.attemptCount + 1 } =
      Keyed.key (job.leased ⟨(feed 7).time, (feed 9).start⟩) from rfl)
  -- the statements up to the insert
  have hinsert : (lease w slot (some c) policy leaseSeconds).exec feed db =
      (flush (.addAttempt (newAttempt w slot c leaseSeconds feed job)) >>= fun _ =>
        transition { job with attemptCount := job.attemptCount + 1 } .leased >>= fun job' =>
          pure (some (job', newAttempt w slot c leaseSeconds feed job)) :
            Tx (Option (Job × Attempt))).exec (fun n => feed (n + 5))
        { db with jobs := db.jobs.put { job with attemptCount := job.attemptCount + 1 } } := by
    rw [lease, databaseTime, Prog.issue_bind,
      Prog.exec_stmt_ok (b := (feed 0).time) (t := db) rfl, Prog.issue_bind,
      Prog.exec_stmt_ok (b := some job) (t := db) (by rw [← h]; rfl)]
    rfl
  rw [hinsert]
  rcases apply_addAttempt
      { db with jobs := db.jobs.put { job with attemptCount := job.attemptCount + 1 } }
      (newAttempt w slot c leaseSeconds feed job) hclaim hslot hidle with
    ⟨hfresh, happly⟩ | ⟨htaken, herror⟩
  · refine ⟨fun _ => ?_, fun htaken => absurd hfresh htaken⟩
    rw [exec_flush happly, Prog.exec_bind, exec_transition hleased]
    simp only [Prog.monad_pure_eq, Prog.exec_pure, leaseOf, Change.effect, ← hput]
    rfl
  · exact ⟨fun hfresh => absurd hfresh htaken, fun _ => ⟨_, _, exec_flush_error herror _ _⟩⟩

/-- A claim with a fresh id for a free slot reads three rows, and leases if the worker is
healthy. -/
theorem exec_claim_free {k : String} (hw : db.workers.find? k = some w)
    (hrange : ¬ (slot < 0 ∨ w.capacity ≤ slot)) (hclaim : ∀ b ∈ db.attempts.rows, b.claimId ≠ c)
    (hslot : ∀ b ∈ db.attempts.rows, b.workerId = k → b.slot = slot → b.isOpen = false)
    (policy : Policy) (leaseSeconds : ℚ) (feed : ℕ → Moment) :
    (claim k slot (some c) policy leaseSeconds).exec feed db =
      if w.state ≠ .healthy then ⟨.ok none, db, fun n => feed (n + 3)⟩
      else (lease w slot (some c) policy leaseSeconds).exec (fun n => feed (n + 3)) db := by
  have hnone : (db.attempts.rows.find? fun a => decide (a.claimId = c)) = none :=
    List.find?_eq_none.mpr fun b hb => by simpa using hclaim b hb
  have hfree : (db.attempts.rows.find? fun a =>
      decide (a.workerId = k) && decide (a.slot = slot) && a.isOpen) = none := by
    refine List.find?_eq_none.mpr fun b hb hp => ?_
    simp only [Bool.and_eq_true, decide_eq_true_eq] at hp
    simp [hslot b hb hp.1.1 hp.1.2] at hp
  rw [claim, Prog.issue_bind, Prog.exec_stmt_ok (b := some w) (t := db) (by rw [← hw]; rfl)]
  simp only
  rw [if_neg hrange, Prog.issue_bind,
    Prog.exec_stmt_ok (b := none) (t := db) (by rw [← hnone]; rfl)]
  simp only
  rw [Prog.issue_bind, Prog.exec_stmt_ok (b := none) (t := db) (by rw [← hfree]; rfl)]
  simp only
  split <;> rfl

/-- The lease of the head of the query is a change that may happen. -/
theorem leaseOf_guard (hw : db.workers.find? w.id = some w) (hhealthy : w.state = .healthy)
    (hrange : ¬ (slot < 0 ∨ w.capacity ≤ slot))
    (h : policy.head w (feed 0).time (feed 1) db = some job)
    (hclaim : ∀ b ∈ db.attempts.rows, b.claimId ≠ c)
    (hslot : ∀ b ∈ db.attempts.rows, b.workerId = w.id → b.slot = slot → b.isOpen = false)
    (hfresh : db.attempts.find? (feed 3).uuid = none) :
    (leaseOf w slot c leaseSeconds feed job).guard db := by
  obtain ⟨hmem, hready⟩ := mem_query.mp (List.mem_of_find?_eq_some h)
  exact {
    worker_row := hw
    healthy := hhealthy
    slot_range := by simp only [newAttempt]; omega
    job_row := Table.find?_of_mem hmem
    ready := hready
    fresh := hfresh
    claim_fresh := hclaim
    slot_free := hslot
    attempt_job := rfl
    attempt_worker := rfl
    fence := rfl
    is_new := ⟨rfl, rfl, rfl, rfl, rfl⟩ }

end Leases

/-! ## Transactions -/

variable [Sha256] {db : Database} {u : Txn}

/-- The transaction is a claim that leases the job: its session is accepted, its slot is in
range and free, its id and the drawn key are fresh, the worker is healthy, and the job is the
head of its query. -/
def Selects (db : Database) (u : Txn) (job : Job) : Prop :=
  ∃ body credential w, u.request = .claim body credential ∧
    db.workers.find? body.workerId = some w ∧ sessionOk w.sessionHash credential = true ∧
    body.slot < w.capacity ∧ (∀ b ∈ db.attempts.rows, b.claimId ≠ body.claimId) ∧
    (∀ b ∈ db.attempts.rows, b.workerId = body.workerId → b.slot = body.slot →
      b.isOpen = false) ∧
    w.state = .healthy ∧
    u.config.scheduler.head w (u.feed 4).time (u.feed 5) db = some job ∧
    db.attempts.find? (u.feed 7).uuid = none

/-- A claim leases the job that it selects. -/
theorem Selects.commit_eq (hinv : Inv db) {job : Job} (h : Selects db u job) :
    ∃ (body : Claim) (w : Worker), (leaseOf w body.slot body.claimId u.config.leaseSeconds
        (fun n => u.feed (n + 4)) job).guard db ∧
      commit db u = (leaseOf w body.slot body.claimId u.config.leaseSeconds
        (fun n => u.feed (n + 4)) job).effect db := by
  obtain ⟨body, credential, w, hreq, hw, hok, hcap, hclaim, hslot, hhealthy, hhead, hfresh⟩ := h
  have hid : w.id = body.workerId := Table.key_of_find? hw
  obtain ⟨w', hw', hrange, hanswer⟩ := answer_admitted hreq ⟨w, hw, hok, hcap⟩
  rw [hw, Option.some.injEq] at hw'
  subst hw'
  obtain ⟨hmem, hready⟩ := mem_query.mp (List.mem_of_find?_eq_some hhead)
  have hidle := hinv.idle job (Table.find?_of_mem hmem) (claimable_iff.mp hready).1
  have hexec := exec_claim_free hw hrange hclaim hslot u.config.scheduler u.config.leaseSeconds
    fun n => u.feed (n + 1)
  rw [if_neg (by simp [hhealthy]),
    (exec_lease_some _ hhead hclaim (hid ▸ hslot) hidle).1 hfresh] at hexec
  obtain ⟨hans, hstate⟩ := hanswer hexec
  refine ⟨body, w, leaseOf_guard (hid ▸ hw) hhealthy hrange hhead hclaim (hid ▸ hslot) hfresh, ?_⟩
  rw [commit, hans]
  exact hstate

/-- A claim that selects nothing changes nothing. -/
theorem commit_or_selects (hinv : Inv db) {body : Claim} {credential : Option String}
    (hreq : u.request = .claim body credential) :
    commit db u = db ∨ ∃ job, Selects db u job := by
  by_cases hadmits : Admits db body credential
  swap
  · rcases answer_barred hreq hadmits with h | h <;> exact Or.inl (commit_error h)
  by_cases hknown : ∃ b ∈ db.attempts.rows, b.claimId = body.claimId
  · obtain ⟨b, hb, hbc⟩ := hknown
    obtain ⟨job, hjob⟩ := hinv.attempt_job b hb
    exact Or.inl (answer_known hinv hreq hb hjob hbc.symm).1
  have hclaim : ∀ b ∈ db.attempts.rows, b.claimId ≠ body.claimId :=
    fun b hb h => hknown ⟨b, hb, h⟩
  by_cases hoccupied : ∃ b ∈ db.attempts.rows, b.workerId = body.workerId ∧ b.slot = body.slot ∧
      b.finishedAt = none
  · obtain ⟨b, hb, hbw, hbs, hopen⟩ := hoccupied
    exact Or.inl (answer_occupied hinv hreq hb hopen hbw hbs (hclaim b hb).symm).1
  have hslot : ∀ b ∈ db.attempts.rows, b.workerId = body.workerId → b.slot = body.slot →
      b.isOpen = false := by
    intro b hb hbw hbs
    cases hfin : b.finishedAt with
    | none => exact absurd ⟨b, hb, hbw, hbs, hfin⟩ hoccupied
    | some t => simp [Attempt.isOpen, hfin]
  have hadmits' := hadmits
  obtain ⟨v, hv, hok, hcap⟩ := hadmits'
  obtain ⟨w, hw, hrange, hanswer⟩ := answer_admitted hreq hadmits
  rw [hw, Option.some.injEq] at hv
  subst hv
  have hid : w.id = body.workerId := Table.key_of_find? hw
  have hexec := exec_claim_free hw hrange hclaim hslot u.config.scheduler u.config.leaseSeconds
    fun n => u.feed (n + 1)
  by_cases hhealthy : w.state = .healthy
  swap
  · rw [if_pos hhealthy] at hexec
    exact Or.inl (commit_of_state (hanswer hexec).2)
  rw [if_neg (by simp [hhealthy])] at hexec
  cases hhead : u.config.scheduler.head w (u.feed 4).time (u.feed 5) db with
  | none =>
      rw [exec_lease_none hhead] at hexec
      exact Or.inl (commit_of_state (hanswer hexec).2)
  | some job =>
      by_cases hfresh : db.attempts.find? (u.feed 7).uuid = none
      · exact Or.inr ⟨job, body, credential, w, hreq, hw, hok, hcap, hclaim, hslot, hhealthy, hhead,
          hfresh⟩
      · obtain ⟨hmem, hready⟩ := mem_query.mp (List.mem_of_find?_eq_some hhead)
        have hidle := hinv.idle job (Table.find?_of_mem hmem) (claimable_iff.mp hready).1
        obtain ⟨d, rest, hfailed⟩ :=
          (exec_lease_some (fun n => u.feed (n + 4)) hhead hclaim (hid ▸ hslot) hidle).2 hfresh
        obtain ⟨hans, -⟩ := hanswer (hexec.trans hfailed)
        exact Or.inl (commit_error hans)

end GreyQueue
