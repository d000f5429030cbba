import GreyQueue.Workers

/-!
# Replayed claims

A claim id names at most one attempt, in every state of every run.  Once the attempt exists,
further deliveries of the claim change nothing and are decided by four tests: the session, the
capacity, the slot, and whether the attempt is finished.  The session and the capacity are
those of the worker row, which only a takeover replaces; the state of the worker is not read.

## Main definitions

* `Admits` — the worker accepts the session and has the slot.
* `Replays` — every delivery of a claim gets its attempt back, until that is finished.

## Main results

* `answer_known`, `answer_occupied` — a claim whose id, or whose slot, is taken.
* `claim_idempotent` — claims over every run.
-/

namespace GreyQueue

open Lib
open Lib.Prog (Sat sat_bind)

section Service

variable {db : Database}

/-- The attempt made by a claim id is the one that the query finds. -/
theorem Inv.find?_claim (hinv : Inv db) {x : Attempt} (hx : x ∈ db.attempts.rows) :
    (db.attempts.rows.find? fun a => decide (a.claimId = x.claimId)) = some x := by
  cases hf : db.attempts.rows.find? fun a => decide (a.claimId = x.claimId) with
  | none => simpa using List.find?_eq_none.mp hf x hx
  | some y =>
      have hy : y.claimId = x.claimId := by simpa using List.find?_some hf
      rw [hinv.claims y (List.mem_of_find?_eq_some hf) x hx hy]

/-- A list without repetition whose elements are all equal has one at most. -/
theorem length_le_one {α : Type} {l : List α} (hnodup : l.Nodup)
    (h : ∀ a ∈ l, ∀ b ∈ l, a = b) : l.length ≤ 1 := by
  rcases l with _ | ⟨a, _ | ⟨b, l⟩⟩
  · simp
  · simp
  · obtain rfl := h a (by simp) b (by simp)
    simp at hnodup

theorem exec_getJob {jobId : Uuid} {job : Job} (hjob : db.jobs.find? jobId = some job)
    {α : Type} (f : Job → Tx α) (feed : ℕ → Moment) :
    (getJob jobId >>= f).exec feed db = (f job).exec (fun n => feed (n + 1)) db := by
  rw [getJob, Prog.issue_bind, Prog.stmt_bind,
    Prog.exec_stmt_ok (b := some job) (t := db) (by rw [← hjob]; rfl)]
  rfl

/-- A claim with another id for a slot with an open attempt. -/
theorem exec_claim_occupied {k : String} {w : Worker} (hw : db.workers.find? k = some w)
    {c : Uuid} (hfresh : ∀ b ∈ db.attempts.rows, b.claimId ≠ c) {x : Attempt}
    (hx : x ∈ db.attempts.rows) {slot : ℤ} (hxw : x.workerId = k) (hxs : x.slot = slot)
    (hopen : x.finishedAt = none) (policy : Policy) (leaseSeconds : ℚ) (feed : ℕ → Moment) :
    (claim k slot (some c) policy leaseSeconds).exec feed db =
      if slot < 0 ∨ w.capacity ≤ slot then
        ⟨.error (.invalid "Slot is outside this worker's capacity" "slot"), db,
          fun n => feed (n + 1)⟩
      else ⟨.error (.conflict "Slot is occupied"), db, fun n => feed (n + 3)⟩ := by
  have hnone : (db.attempts.rows.find? fun a => decide (a.claimId = c)) = none :=
    List.find?_eq_none.mpr fun b hb => by simpa using hfresh b hb
  have hsome : (db.attempts.rows.find? fun a =>
      decide (a.workerId = k) && decide (a.slot = slot) && a.isOpen).isSome := by
    rw [List.find?_isSome]
    exact ⟨x, hx, by simp [hxw, hxs, Attempt.isOpen, hopen]⟩
  obtain ⟨y, hy⟩ := Option.isSome_iff_exists.mp hsome
  have hne : c ≠ y.claimId := (hfresh y (List.mem_of_find?_eq_some hy)).symm
  rw [claim, Prog.issue_bind, Prog.exec_stmt_ok (b := some w) (t := db) (by rw [← hw]; rfl)]
  simp only
  split
  · rfl
  · rw [Prog.issue_bind, Prog.exec_stmt_ok (b := none) (t := db) (by rw [← hnone]; rfl)]
    simp only
    rw [Prog.issue_bind, Prog.exec_stmt_ok (b := some y) (t := db) (by rw [← hy]; rfl)]
    simp only
    rw [if_pos ⟨rfl, by simpa using hne⟩]
    rfl

end Service

/-! ## Requests -/

variable [Sha256]

/-- The worker of a claim accepts its session and has its slot. -/
def Admits (db : Database) (body : Claim) (credential : Option String) : Prop :=
  ∃ w, db.workers.find? body.workerId = some w ∧ sessionOk w.sessionHash credential = true ∧
    body.slot < w.capacity

section Requests

variable {db : Database} {u : Txn} {body : Claim} {credential : Option String}

/-- A claim that is not admitted is refused before anything else is read. -/
theorem answer_barred (hreq : u.request = .claim body credential)
    (h : ¬ Admits db body credential) :
    u.answer db = .error (.unauthorized "Invalid worker session") ∨
      u.answer db = .error (.invalid "Slot is outside this worker's capacity" "slot") := by
  rw [Txn.answer, Txn.outcome, hreq, serve]
  cases hw : db.workers.find? body.workerId with
  | none => exact Or.inl (by rw [exec_identity_none hw])
  | some w =>
      rw [exec_identity hw]
      split
      · rename_i hok
        have hcap : body.slot < 0 ∨ w.capacity ≤ body.slot :=
          Or.inr (not_lt.mp fun hlt => h ⟨w, hw, hok, hlt⟩)
        refine Or.inr ?_
        rw [Prog.exec_bind, claim, Prog.issue_bind,
          Prog.exec_stmt_ok (b := some w) (t := db) (by rw [← hw]; rfl)]
        simp only
        rw [if_pos hcap]
        rfl
      · exact Or.inl rfl

/-- An admitted claim is answered by `claim`. -/
theorem answer_admitted (hreq : u.request = .claim body credential)
    (h : Admits db body credential) : ∃ w, db.workers.find? body.workerId = some w ∧
      ¬ (body.slot < 0 ∨ w.capacity ≤ body.slot) ∧
      ∀ {r d feed}, (claim body.workerId body.slot (some body.claimId) u.config.scheduler
          u.config.leaseSeconds).exec (fun n => u.feed (n + 1)) db = ⟨r, d, feed⟩ →
        u.answer db = r.map Response.assignment ∧ (u.outcome db).state = d := by
  obtain ⟨w, hw, hok, hcap⟩ := h
  have hrange := body.slot_range.1
  refine ⟨w, hw, by omega, fun {r d feed} hexec => ?_⟩
  rw [Txn.answer, Txn.outcome, hreq, serve, exec_identity hw, if_pos hok, Prog.exec_bind, hexec]
  cases r <;> exact ⟨rfl, rfl⟩

theorem commit_of_state {d : Database} (h : (u.outcome d).state = d) : commit d u = d := by
  rw [commit]
  cases u.answer d with
  | ok _ => exact h
  | error _ => rfl

/-- A delivery of a claim that has made an attempt. -/
theorem answer_known (hinv : Inv db) (hreq : u.request = .claim body credential) {a : Attempt}
    {job : Job} (ha : a ∈ db.attempts.rows) (hjob : db.jobs.find? a.jobId = some job)
    (hclaim : body.claimId = a.claimId) :
    commit db u = db ∧ (Admits db body credential → u.answer db =
      if a.workerId ≠ body.workerId ∨ a.slot ≠ body.slot then
        .error (.conflict "Claim ID belongs to another slot")
      else if a.finishedAt.isSome then .error (.conflict "Claim is already finished")
      else .ok (.assignment (some (job, a)))) := by
  by_cases hadmits : Admits db body credential
  · obtain ⟨w, hw, hrange, hanswer⟩ := answer_admitted hreq hadmits
    have hfind := hclaim ▸ hinv.find?_claim ha
    have hexec := exec_claim_known hw hfind body.slot u.config.scheduler u.config.leaseSeconds
      fun n => u.feed (n + 1)
    rw [if_neg hrange] at hexec
    by_cases hother : a.workerId ≠ body.workerId ∨ a.slot ≠ body.slot
    · rw [if_pos hother] at hexec
      obtain ⟨hans, hstate⟩ := hanswer hexec
      exact ⟨commit_of_state hstate, fun _ => by rw [hans, if_pos hother]; rfl⟩
    rw [if_neg hother] at hexec
    by_cases hfin : a.finishedAt.isSome
    · rw [if_pos hfin] at hexec
      obtain ⟨hans, hstate⟩ := hanswer hexec
      exact ⟨commit_of_state hstate, fun _ => by rw [hans, if_neg hother, if_pos hfin]; rfl⟩
    · rw [if_neg hfin, exec_getJob hjob] at hexec
      obtain ⟨hans, hstate⟩ := hanswer hexec
      exact ⟨commit_of_state hstate, fun _ => by rw [hans, if_neg hother, if_neg hfin]; rfl⟩
  · refine ⟨?_, fun h => absurd h hadmits⟩
    rcases answer_barred hreq hadmits with h | h <;> exact commit_error h

/-- A claim with another id for a slot with an open attempt. -/
theorem answer_occupied (hinv : Inv db) (hreq : u.request = .claim body credential) {a : Attempt}
    (ha : a ∈ db.attempts.rows) (hopen : a.finishedAt = none) (hworker : a.workerId = body.workerId)
    (hslot : a.slot = body.slot) (hclaim : body.claimId ≠ a.claimId) :
    commit db u = db ∧
      (Admits db body credential → ∃ detail, u.answer db = .error (.conflict detail)) := by
  by_cases hknown : ∃ b ∈ db.attempts.rows, b.claimId = body.claimId
  · -- the other id has made an attempt elsewhere, or one that is finished
    obtain ⟨b, hb, hbc⟩ := hknown
    obtain ⟨job, hjob⟩ := hinv.attempt_job b hb
    obtain ⟨hcommit, hanswer⟩ := answer_known hinv hreq hb hjob hbc.symm
    refine ⟨hcommit, fun hadmits => ?_⟩
    rw [hanswer hadmits]
    split
    · exact ⟨_, rfl⟩
    rename_i hsame
    obtain ⟨hbw, hbs⟩ : b.workerId = body.workerId ∧ b.slot = body.slot := by simpa using hsame
    split
    · exact ⟨_, rfl⟩
    · rename_i hbopen
      have hbnone : b.finishedAt = none := by simpa using hbopen
      have heq := hinv.slots b hb a ha hbnone hopen (hbw.trans hworker.symm) (hbs.trans hslot.symm)
      exact absurd (heq ▸ hbc).symm hclaim
  · have hfresh : ∀ b ∈ db.attempts.rows, b.claimId ≠ body.claimId :=
      fun b hb hbc => hknown ⟨b, hb, hbc⟩
    by_cases hadmits : Admits db body credential
    · obtain ⟨w, hw, hrange, hanswer⟩ := answer_admitted hreq hadmits
      have hexec := exec_claim_occupied hw hfresh ha hworker hslot hopen u.config.scheduler
        u.config.leaseSeconds fun n => u.feed (n + 1)
      rw [if_neg hrange] at hexec
      obtain ⟨hans, hstate⟩ := hanswer hexec
      exact ⟨commit_of_state hstate, fun _ => ⟨_, hans⟩⟩
    · refine ⟨?_, fun h => absurd h hadmits⟩
      rcases answer_barred hreq hadmits with h | h <;> exact commit_error h

/-- What the deliveries of a claim get from the attempt it made: nothing changes, the attempt is
returned while it is open, and a conflict is raised after it is finished. -/
structure Replays (db : Database) (body : Claim) (credential : Option String) (a : Attempt) :
    Prop where
  unchanged : ∀ u : Txn, u.request = .claim body credential → commit db u = db
  returned : a.finishedAt = none → ∃ job, db.jobs.find? a.jobId = some job ∧
    ∀ u : Txn, u.request = .claim body credential →
      u.answer db = .ok (.assignment (some (job, a)))
  finished : a.finishedAt.isSome = true → ∀ u : Txn, u.request = .claim body credential →
    u.answer db = .error (.conflict "Claim is already finished")

theorem Admits.replays (h : Admits db body credential) (hinv : Inv db) {a : Attempt}
    (ha : a ∈ db.attempts.rows) (hclaim : a.claimId = body.claimId)
    (hworker : a.workerId = body.workerId) (hslot : a.slot = body.slot) :
    Replays db body credential a := by
  obtain ⟨job, hjob⟩ := hinv.attempt_job a ha
  have hsame : ¬ (a.workerId ≠ body.workerId ∨ a.slot ≠ body.slot) := by simp [hworker, hslot]
  refine ⟨fun u hreq => (answer_known hinv hreq ha hjob hclaim.symm).1,
    fun hopen => ⟨job, hjob, fun u hreq => ?_⟩, fun hfin u hreq => ?_⟩
  · rw [(answer_known hinv hreq ha hjob hclaim.symm).2 h, if_neg hsame, if_neg (by simp [hopen])]
  · rw [(answer_known hinv hreq ha hjob hclaim.symm).2 h, if_neg hsame, if_pos hfin]

/-- Only a takeover ends a session. -/
theorem Admits.effect (h : Admits db body credential) {c : Change} (hg : c.guard db)
    (hc : Untaken body.workerId c) : Admits (c.effect db) body credential := by
  obtain ⟨w, hw, hok, hcap⟩ := h
  obtain ⟨v, hv, hsession, hcapacity, -⟩ := effect_keeps hg hw hc
  exact ⟨v, hv, by rw [hsession]; exact hok, by rw [hcapacity]; exact hcap⟩

end Requests

/-- **Claim requests are idempotent.** In every reachable state a claim id has made at most one
attempt.  A delivery of a claim id that has made one changes nothing, and is refused for another
slot or worker; a claim with another id for a slot with an open attempt changes nothing and is
refused too, with a conflict if the worker admits it.  Once a claim of a session has been
given its attempt, then in every later state, until another process takes the worker over, the
session is given that attempt by every delivery of the claim while it is open, whatever the
worker's state, and a conflict after it is finished. -/
theorem claim_idempotent (txns : List Txn) :
    (∀ c, ((run txns).attempts.rows.filter fun a => decide (a.claimId = c)).length ≤ 1) ∧
    (∀ a ∈ (run txns).attempts.rows, ∀ u body credential, u.request = .claim body credential →
      (body.claimId = a.claimId → commit (run txns) u = run txns ∧
        (body.workerId ≠ a.workerId ∨ body.slot ≠ a.slot → ∃ e, u.answer (run txns) = .error e)) ∧
      (a.finishedAt = none → body.claimId ≠ a.claimId → body.workerId = a.workerId →
        body.slot = a.slot → commit (run txns) u = run txns ∧
          (∃ e, u.answer (run txns) = .error e) ∧
          (Admits (run txns) body credential →
            ∃ detail, u.answer (run txns) = .error (.conflict detail)))) ∧
    ∀ t body credential job a, t.request = .claim body credential →
      t.answer (run txns) = .ok (.assignment (some (job, a))) → ∀ more : List Txn,
      (∀ pre u post, more = pre ++ u :: post →
        ¬ TakesOver body.workerId (run (txns ++ t :: pre)) u) →
      ∃ b ∈ (run (txns ++ t :: more)).attempts.rows, b.id = a.id ∧ b.claimId = body.claimId ∧
        Replays (run (txns ++ t :: more)) body credential b ∧
        (b.finishedAt = none → ∀ u other, u.request = .claim other credential →
          other.workerId = body.workerId → other.slot = body.slot →
          other.claimId ≠ body.claimId → commit (run (txns ++ t :: more)) u =
              run (txns ++ t :: more) ∧
            ∃ detail, u.answer (run (txns ++ t :: more)) = .error (.conflict detail)) := by
  have hinv := run_inv txns
  refine ⟨fun c => ?_, fun a ha u body credential hreq => ⟨fun hclaim => ?_, ?_⟩, ?_⟩
  · have hnodup : ((run txns).attempts.rows.filter fun a => decide (a.claimId = c)).Nodup :=
      List.filter_sublist.nodup (List.Nodup.of_map _ (run txns).attempts.nodup)
    refine length_le_one hnodup fun a ha b hb => ?_
    simp only [List.mem_filter, decide_eq_true_eq] at ha hb
    exact hinv.claims a ha.1 b hb.1 (ha.2.trans hb.2.symm)
  · obtain ⟨job, hjob⟩ := hinv.attempt_job a ha
    obtain ⟨hcommit, hanswer⟩ := answer_known hinv hreq ha hjob hclaim
    refine ⟨hcommit, fun hother => ?_⟩
    by_cases hadmits : Admits (run txns) body credential
    · rw [hanswer hadmits, if_pos (hother.imp Ne.symm Ne.symm)]
      exact ⟨_, rfl⟩
    · rcases answer_barred hreq hadmits with h | h <;> exact ⟨_, h⟩
  · intro hopen hclaim hworker hslot
    obtain ⟨hcommit, hanswer⟩ := answer_occupied hinv hreq ha hopen hworker.symm hslot.symm hclaim
    refine ⟨hcommit, ?_, hanswer⟩
    by_cases hadmits : Admits (run txns) body credential
    · obtain ⟨detail, h⟩ := hanswer hadmits
      exact ⟨_, h⟩
    · rcases answer_barred hreq hadmits with h | h <;> exact ⟨_, h⟩
  · intro t body credential job a hreq hans more hno
    obtain ⟨-, hanswer⟩ := commit_answers hinv hans
    rw [hreq] at hanswer
    obtain ⟨hrow, hac, haw, has, -, -⟩ := hanswer
    rw [← run_snoc] at hrow
    have hrun : txns ++ t :: more = (txns ++ [t]) ++ more := by simp
    obtain ⟨b, hb, hab⟩ := (run_later (txns ++ [t]) more).attempts a.id a hrow
    rw [← hrun] at hb
    -- the session that was admitted still is
    have hadmits : Admits (run (txns ++ t :: more)) body credential := by
      refine run_untaken (k := body.workerId) (I := fun d => Admits d body credential) ?_ ?_
        fun c d _ hg hc h => h.effect hg hc
      · by_contra hbarred
        rcases answer_barred hreq hbarred with h | h <;> rw [hans] at h <;> cases h
      · intro pre u post hmore
        cases pre with
        | nil =>
            obtain ⟨rfl, -⟩ : t = u ∧ more = post := by simpa using hmore
            rintro ⟨body', w, hreq', -⟩
            rw [hreq] at hreq'
            cases hreq'
        | cons v pre =>
            obtain ⟨rfl, hrest⟩ : t = v ∧ more = pre ++ u :: post := by simpa using hmore
            exact hno pre u post hrest
    have hbmem := Table.mem_of_find? hb
    have hbw : b.workerId = body.workerId := by rw [hab.1]; exact haw
    have hbs : b.slot = body.slot := by rw [hab.1]; exact has
    have hbc : b.claimId = body.claimId := by rw [hab.1]; exact hac
    refine ⟨b, hbmem, Table.key_of_find? hb, hbc, hadmits.replays (run_inv _) hbmem hbc hbw hbs,
      fun hopen u other hreq' hworker hslot hclaim => ?_⟩
    obtain ⟨hcommit, hanswer⟩ := answer_occupied (run_inv _) hreq' hbmem hopen
      (hbw.trans hworker.symm) (hbs.trans hslot.symm) (hbc ▸ hclaim)
    refine ⟨hcommit, hanswer ?_⟩
    obtain ⟨w, hw, hok, hcap⟩ := hadmits
    exact ⟨w, hworker ▸ hw, hok, hslot ▸ hcap⟩

end GreyQueue
