import GreyQueue.Cancellation
import GreyQueue.Provenance
import GreyQueue.Routes

/-!
# What a token is needed for

While nobody sends the token of clients, no job is admitted, no worker is told to drain, and only
the children of failed parents are cancelled.  While nobody sends the token of workers, no
attempt is made, started, extended or completed: leases run out, and that is all.  And a worker
whose session nobody else has is the only one that touches its attempts.

## Main definitions

* `Request.sessionOf` — the worker that a request speaks for, and the session it shows.
* `Attempt.Lapses` — an attempt is as it was, or its lease has run out.

## Main results

* `client_privilege`, `worker_privilege`, `session_privilege`.
-/

namespace GreyQueue

open Lib

/-- The worker whose session a request needs, and what it shows for it. -/
def Request.sessionOf : Request → Option (String × Option String)
  | .heartbeat workerId credential => some (workerId, credential)
  | .claim body credential => some (body.workerId, credential)
  | .start _ body credential => some (body.workerId, credential)
  | .renew _ body credential => some (body.workerId, credential)
  | .finish _ body credential => some (body.workerId, credential)
  | _ => none

/-- The attempt is as it was, or it was open and its lease has run out. -/
def Attempt.Lapses (a b : Attempt) : Prop :=
  b = a ∨ (a.finishedAt = none ∧ ∃ t, b = a.close .leaseExpired leaseExpiredError t)

theorem Attempt.Lapses.close {a b : Attempt} (h : a.Lapses b) (hopen : b.finishedAt = none)
    (t : Time) : a.Lapses (b.close .leaseExpired leaseExpiredError t) := by
  rcases h with rfl | ⟨-, t', rfl⟩
  · exact Or.inr ⟨hopen, t, rfl⟩
  · cases hopen

/-- The attempts of the workers in `P` are as they were, or their leases have run out. -/
def Confined (P : String → Prop) (db d : Database) : Prop :=
  ∀ k b, d.attempts.find? k = some b → P b.workerId →
    ∃ a, db.attempts.find? k = some a ∧ a.Lapses b

section Changes

variable {P : String → Prop} {db d : Database}

theorem Confined.refl (db : Database) : Confined P db db := fun _ b h _ => ⟨b, h, Or.inl rfl⟩

/-- One change of a request that speaks for none of the workers. -/
theorem Confined.effect [Sha256] (h : Confined P db d) {config : Settings} {request : Request}
    (hreq : ∀ v c, request.sessionOf = some (v, c) → ¬ P v) {c : Change} (hg : c.guard d)
    (hc : Allowed config request c) : Confined P db (c.effect d) := by
  -- a row of another worker is rewritten
  have hput : ∀ {a : Attempt} (r : Attempt), r.workerId = a.workerId → ¬ P a.workerId →
      (c.effect d).attempts = d.attempts.put r → Confined P db (c.effect d) := by
    intro a r hid hno heq k b hb hP
    rw [heq] at hb
    rcases Table.find?_put_eq_some hb with ⟨-, rfl⟩ | ⟨-, hb⟩
    · exact absurd (hid ▸ hP) hno
    · exact h k b hb hP
  -- a lease runs out
  have hlapse : ∀ {job a t}, Holds d job a →
      (c.effect d).attempts = d.attempts.put (a.close .leaseExpired leaseExpiredError t) →
      Confined P db (c.effect d) := by
    intro job a t hold heq k b hb hP
    rw [heq] at hb
    rcases Table.find?_put_eq_some hb with ⟨rfl, rfl⟩ | ⟨-, hb⟩
    · obtain ⟨x, hx, hlapses⟩ := h a.id a hold.attempt_row hP
      exact ⟨x, hx, hlapses.close hold.is_open t⟩
    · exact h k b hb hP
  cases c with
  | lease w job a t s =>
      have hno : ¬ P a.workerId := by
        cases hrequest : request with
        | claim body credential =>
            rw [hrequest] at hc hreq
            rw [hg.attempt_worker, show w.id = body.workerId from hc.1]
            exact hreq _ credential rfl
        | _ => simp [hrequest, Allowed] at hc
      intro k b hb hP
      rcases Table.find?_add_eq_some hg.fresh hb with ⟨-, rfl⟩ | hb
      · exact absurd hP hno
      · exact h k b hb hP
  | start job a t s =>
      cases hrequest : request with
      | start jobId body credential =>
          rw [hrequest] at hc hreq
          obtain ⟨-, -, hworker⟩ := hc
          exact hput (a := a) { a with startedAt := some t } rfl
            (hworker ▸ hreq _ credential rfl) rfl
      | _ => simp [hrequest, Allowed] at hc
  | renew job a t =>
      cases hrequest : request with
      | renew jobId body credential =>
          rw [hrequest] at hc hreq
          obtain ⟨-, -, hworker⟩ := hc
          exact hput (a := a) { a with expiresAt := t } rfl (hworker ▸ hreq _ credential rfl) rfl
      | _ => simp [hrequest, Allowed] at hc
  | succeed job a o t s =>
      cases hrequest : request with
      | finish jobId body credential =>
          rw [hrequest] at hc hreq
          obtain ⟨⟨-, -, hworker⟩, -⟩ := hc
          exact hput (a := a) (a.deliver o t) rfl (hworker ▸ hreq _ credential rfl) rfl
      | _ => simp [hrequest, Allowed] at hc
  | retry job a o e t t' s =>
      cases hrequest : request with
      | finish jobId body credential =>
          rw [hrequest] at hc hreq
          obtain ⟨⟨-, -, hworker⟩, -⟩ := hc
          exact hput (a := a) (a.close o e t) rfl (hworker ▸ hreq _ credential rfl) rfl
      | recoverJobs limit =>
          rw [hrequest] at hc
          obtain ⟨rfl, rfl⟩ := hc
          exact hlapse hg.1 rfl
      | _ => simp [hrequest, Allowed] at hc
  | fail job a o e r t s =>
      cases hrequest : request with
      | finish jobId body credential =>
          rw [hrequest] at hc hreq
          obtain ⟨⟨-, -, hworker⟩, -⟩ := hc
          exact hput (a := a) (a.close o e t) rfl (hworker ▸ hreq _ credential rfl) rfl
      | recoverJobs limit =>
          rw [hrequest] at hc
          obtain ⟨rfl, rfl, -⟩ := hc
          exact hlapse hg.1 rfl
      | _ => simp [hrequest, Allowed] at hc
  | admitted | cancel | enroll | seen | drain | takeover | mark | log => exact h

end Changes

/-! ## Transactions -/

section Transactions

variable [Sha256] {P : String → Prop} {db d : Database} {u : Txn}

/-- The session that an authorised request shows is accepted. -/
theorem Authorised.accepts {request : Request} (h : Authorised db request) {v : String}
    {c : Option String} (hreq : request.sessionOf = some (v, c)) : Accepts db v c := by
  cases request with
  | heartbeat workerId credential =>
      obtain ⟨rfl, rfl⟩ := Prod.mk.inj (Option.some.inj hreq)
      exact h
  | claim body credential | start jobId body credential | renew jobId body credential
  | finish jobId body credential =>
      obtain ⟨rfl, rfl⟩ := Prod.mk.inj (Option.some.inj hreq)
      exact h
  | _ => cases hreq

theorem Confined.commit (h : Confined P db d) (hinv : Inv d)
    (hreq : ∀ v c, u.request.sessionOf = some (v, c) → P v → ¬ Accepts d v c) :
    Confined P db (commit d u) := by
  cases hans : u.answer d with
  | error e =>
      rw [commit_error hans]
      exact h
  | ok response =>
      have hauth := (commit_answers hinv hans).1
      refine (commit_invariant (I := Confined P db) hinv (t := u) (fun c e hc _ hg he => ?_) h).2
      exact he.effect (fun v c hv hP => hreq v c hv hP (hauth.accepts hv)) hg hc.1

/-- A transaction that is not asked to cancel cancels only the children of failed parents. -/
theorem commit_cascade (hinv : Inv db) (hdep : DepInv db) (hreq : ∀ k, u.request ≠ .cancel k) :
    Cascade db (commit db u) := by
  intro k job hrow hs
  cases hx : db.jobs.find? k with
  | none =>
      rw [commit_admits hinv hrow hx] at hs
      cases hs
  | some x =>
      have hid : x.id = k := Table.key_of_find? hx
      subst hid
      by_cases hfinal : x.status.final
      · obtain ⟨x', hx', hl⟩ := (commit_makes hinv u).later.jobs _ x hx
        obtain rfl : x' = job := Option.some.inj (hx'.symm.trans hrow)
        obtain rfl := hl.2.2 hfinal
        exact Or.inl ⟨x', rfl, hs⟩
      · obtain ⟨-, hcancel | ⟨-, hparent⟩⟩ := commit_cancels hinv hdep hx hfinal hrow hs
        · exact absurd hcancel (hreq _)
        · exact Or.inr hparent

omit [Sha256] in
theorem Cascade.trans {d' : Database} (h : Cascade db d) (h' : Cascade d d') (hl : Later d d') :
    Cascade db d' := by
  intro k job hrow hs
  rcases h' k job hrow hs with ⟨mid, hmid, hmids⟩ | hparent
  · rcases h k mid hmid hmids with hold | hparent
    · exact Or.inl hold
    · -- the row in between is the one at the end
      obtain ⟨job', hrow', hlj⟩ := hl.jobs k mid hmid
      obtain rfl : job' = job := Option.some.inj (hrow'.symm.trans hrow)
      exact Or.inr (hparent.later hl hlj.dependsOn)
  · exact Or.inr hparent

end Transactions

/-! ## Without the token of clients -/

/-- What can happen without clients: no job is admitted, a job is only cancelled after its parent
has failed, and a worker drains only if it was told to before, in the same session. -/
structure Unprompted (db d : Database) : Prop where
  jobs : Table.Derives Job.Later db.jobs d.jobs
  cancelled : Cascade db d
  drained : ∀ k w, d.workers.find? k = some w → w.drainRequested = true →
    ∃ v, db.workers.find? k = some v ∧ v.drainRequested = true ∧ v.sessionHash = w.sessionHash

section Unprompted

variable [Sha256] {db d : Database} {u : Txn}

omit [Sha256] in
theorem Unprompted.refl (db : Database) : Unprompted db db where
  jobs := .refl Job.Later.refl _
  cancelled := .refl db
  drained := fun _ w hw hd => ⟨w, hw, hd, rfl⟩

/-- One change of a request that is not for clients. -/
theorem Unprompted.workers_effect {c : Change}
    (h : ∀ k w, d.workers.find? k = some w → w.drainRequested = true →
      ∃ v, db.workers.find? k = some v ∧ v.drainRequested = true ∧ v.sessionHash = w.sessionHash)
    {config : Settings} {request : Request} (hparty : request.party ≠ some .client)
    (hg : c.guard d) (hc : Allowed config request c) :
    ∀ k w, (c.effect d).workers.find? k = some w → w.drainRequested = true →
      ∃ v, db.workers.find? k = some v ∧ v.drainRequested = true ∧
        v.sessionHash = w.sessionHash := by
  -- a row that is rewritten without a drain
  have hput : ∀ {x : Worker} (r : Worker), d.workers.find? x.id = some x → r.id = x.id →
      (r.drainRequested = true → x.drainRequested = true ∧ x.sessionHash = r.sessionHash) →
      (c.effect d).workers = d.workers.put r → ∀ k w, (c.effect d).workers.find? k = some w →
      w.drainRequested = true → ∃ v, db.workers.find? k = some v ∧ v.drainRequested = true ∧
        v.sessionHash = w.sessionHash := by
    intro x r hx hid hsame heq k w hw hd
    rw [heq] at hw
    rcases Table.find?_put_eq_some hw with ⟨rfl, rfl⟩ | ⟨-, hw⟩
    · obtain ⟨hxd, hxs⟩ := hsame hd
      obtain ⟨v, hv, hvd, hvs⟩ := h x.id x hx hxd
      exact ⟨v, by rw [key_worker, hid]; exact hv, hvd, hvs.trans hxs⟩
    · exact h k w hw hd
  cases c with
  | enroll x =>
      intro k w hw hd
      rcases Table.find?_add_eq_some hg.1 hw with ⟨-, rfl⟩ | hw
      · rw [hg.2.2] at hd
        cases hd
      · exact h k w hw hd
  | seen x t =>
      exact hput { x with lastSeen := t, state := x.returning } hg rfl (fun hd => ⟨hd, rfl⟩) rfl
  | drain x =>
      cases request <;> first | exact hc.elim | exact absurd rfl hparty
  | takeover x body hash t =>
      exact hput { x with
        sessionHash := some hash, capacity := body.capacity
        capabilities := body.capabilities, state := .healthy, lastSeen := t
        drainRequested := false } hg.1 rfl Bool.noConfusion rfl
  | mark x state => exact hput { x with state } hg.1 rfl (fun hd => ⟨hd, rfl⟩) rfl
  | admitted | lease | start | renew | succeed | retry | fail | cancel | log => exact h

theorem Unprompted.commit (h : Unprompted db d) (hinv : Inv d) (hdep : DepInv d)
    (hparty : u.request.party ≠ some .client) : Unprompted db (commit d u) := by
  have hrun := (commit_invariant (I := fun e => Table.Derives Job.Later db.jobs e.jobs ∧
    ∀ k w, e.workers.find? k = some w → w.drainRequested = true → ∃ v,
      db.workers.find? k = some v ∧ v.drainRequested = true ∧ v.sessionHash = w.sessionHash)
    hinv (t := u) (fun c e hc _ hg he => ⟨?_, Unprompted.workers_effect he.2 hparty hg hc.1⟩)
    ⟨h.jobs, h.drained⟩).2
  · refine ⟨hrun.1, h.cancelled.trans (commit_cascade hinv hdep fun k hk => ?_)
      (commit_makes hinv u).later, hrun.2⟩
    rw [hk] at hparty
    exact hparty rfl
  · rcases effect_jobs hg with ⟨job, q, n, t, t', rfl⟩ | ⟨job, job', hrow, -, hl, heq⟩ | heq
    · have hallowed := hc.1
      cases hreq : u.request with
      | submit body => rw [hreq] at hparty; exact absurd rfl hparty
      | _ => simp [hreq, Allowed] at hallowed
    · rw [heq]
      exact he.1.put hrow (by rw [hl.1]; rfl) fun x hx => hx.trans hl
    · rw [heq]
      exact he.1

end Unprompted

/-! ## Without the token of workers -/

/-- The row of the same process: its state may differ, and whether it was told to drain. -/
def Worker.Kept (w v : Worker) : Prop :=
  v = { w with state := v.state, drainRequested := v.drainRequested }

/-- A state that only workers bring a job to. -/
def Status.Worked (s : Status) : Prop := s.held = true ∨ s = .succeeded ∨ s = .failed

/-- What can happen without workers: leases run out and jobs wait again, or are dead-lettered. -/
structure Unworked (db d : Database) : Prop where
  attempts : Confined (fun _ => True) db d
  workers : Table.Derives Worker.Kept db.workers d.workers
  jobs : ∀ k job, d.jobs.find? k = some job → job.status.Worked → db.jobs.find? k = some job
  results : ∀ k r, d.results.find? k = some r →
    db.results.find? k = some r ∨ (r.output = none ∧ r.error = some leaseExpiredError)

section Unworked

variable [Sha256] {db d : Database} {u : Txn}

omit [Sha256] in
theorem Unworked.refl (db : Database) : Unworked db db where
  attempts := .refl db
  workers := .refl (R := Worker.Kept) (fun _ => rfl) _
  jobs := fun _ _ h _ => h
  results := fun _ _ h => Or.inl h

/-- A change that no worker makes. -/
def Change.Idle : Change → Prop
  | .admitted .. | .cancel .. | .drain .. | .mark .. | .log .. => True
  | .retry _ _ outcome error _ _ _ => outcome = .leaseExpired ∧ error = leaseExpiredError
  | .fail _ _ outcome error retryable _ _ =>
      outcome = .leaseExpired ∧ error = leaseExpiredError ∧ retryable = true
  | _ => False

theorem allowed_idle {config : Settings} {request : Request} {c : Change}
    (hparty : request.party ≠ some .worker) (hc : Allowed config request c) : c.Idle := by
  cases request with
  | submit body | cancel jobId | drain workerId | detectWorkers =>
      cases c <;> first | exact hc.elim | trivial
  | recoverJobs limit =>
      cases c with
      | retry job a o e t t' s => exact hc
      | fail job a o e r t s => exact hc
      | _ => first | exact hc.elim | trivial
  | _ => exact absurd rfl hparty

omit [Sha256] in
theorem Unworked.workers_effect {c : Change} (h : Table.Derives Worker.Kept db.workers d.workers)
    (hg : c.guard d) (hc : c.Idle) :
    Table.Derives Worker.Kept db.workers (c.effect d).workers := by
  cases c with
  | drain w =>
      refine h.put (s := { w with state := .draining, drainRequested := true }) hg.1 rfl ?_
      intro x hx
      rw [Worker.Kept, hx]
  | mark w state =>
      refine h.put (s := { w with state }) hg.1 rfl ?_
      intro x hx
      rw [Worker.Kept, hx]
  | enroll | seen | takeover => exact hc.elim
  | admitted | lease | start | renew | succeed | retry | fail | cancel | log => exact h

omit [Sha256] in
theorem Unworked.jobs_effect {c : Change}
    (h : ∀ k job, d.jobs.find? k = some job → job.status.Worked → db.jobs.find? k = some job)
    (hg : c.guard d) (hc : c.Idle) : ∀ k job, (c.effect d).jobs.find? k = some job →
      job.status.Worked → db.jobs.find? k = some job := by
  -- a row that enters another state
  have hput : ∀ (r : Job), ¬ r.status.Worked → (c.effect d).jobs = d.jobs.put r → ∀ k job,
      (c.effect d).jobs.find? k = some job → job.status.Worked → db.jobs.find? k = some job := by
    intro r hr heq k job hjob hs
    rw [heq] at hjob
    rcases Table.find?_put_eq_some hjob with ⟨-, rfl⟩ | ⟨-, hjob⟩
    · exact absurd hs hr
    · exact h k job hjob hs
  cases c with
  | admitted j q n t t' =>
      intro k job hjob hs
      rcases Table.find?_add_eq_some hg.fresh hjob with ⟨-, rfl⟩ | hjob
      · simp [Status.Worked, hg.queued, Status.held] at hs
      · exact h k job hjob hs
  | cancel j s => exact hput (j.enter .cancelled s) (by simp [Status.Worked, Job.enter]; rfl) rfl
  | retry j a o e t t' s =>
      exact hput (Job.enter { j with availableAt := t' } .retryWait s)
        (by simp [Status.Worked, Job.enter]; rfl) rfl
  | fail j a o e r t s =>
      obtain ⟨-, -, rfl⟩ := hc
      exact hput (j.enter .deadLetter s) (by simp [Status.Worked, Job.enter]; rfl) rfl
  | lease | start | renew | succeed | enroll | seen | takeover => exact hc.elim
  | drain | mark | log => exact h

omit [Sha256] in
theorem Unworked.results_effect {c : Change}
    (h : ∀ k r, d.results.find? k = some r →
      db.results.find? k = some r ∨ (r.output = none ∧ r.error = some leaseExpiredError))
    (hg : c.guard d) (hc : c.Idle) : ∀ k r, (c.effect d).results.find? k = some r →
      db.results.find? k = some r ∨ (r.output = none ∧ r.error = some leaseExpiredError) := by
  cases c with
  | fail j a o e r t s =>
      obtain ⟨-, rfl, -⟩ := hc
      intro k r hr
      rcases Table.find?_add_eq_some hg.2.2.2.2.2.2 hr with ⟨-, rfl⟩ | hr
      · exact Or.inr ⟨rfl, rfl⟩
      · exact h k r hr
  | lease | start | renew | succeed | enroll | seen | takeover => exact hc.elim
  | admitted | retry | cancel | drain | mark | log => exact h

theorem Unworked.commit (h : Unworked db d) (hinv : Inv d)
    (hparty : u.request.party ≠ some .worker) : Unworked db (commit d u) := by
  obtain ⟨-, hworkers, hjobs, hresults⟩ := commit_invariant (I := fun e =>
    Table.Derives Worker.Kept db.workers e.workers ∧
    (∀ k job, e.jobs.find? k = some job → job.status.Worked → db.jobs.find? k = some job) ∧
    ∀ k r, e.results.find? k = some r →
      db.results.find? k = some r ∨ (r.output = none ∧ r.error = some leaseExpiredError))
    hinv (t := u) (fun c e hc _ hg he =>
      have hidle := allowed_idle hparty hc.1
      ⟨Unworked.workers_effect he.1 hg hidle, Unworked.jobs_effect he.2.1 hg hidle,
        Unworked.results_effect he.2.2 hg hidle⟩)
    ⟨h.workers, h.jobs, h.results⟩
  refine ⟨h.attempts.commit hinv fun v c hv => ?_, hworkers, hjobs, hresults⟩
  cases hreq : u.request <;> simp_all [Request.sessionOf, Request.party]

end Unworked

/-! ## Tokens -/

namespace Http

variable [Sha256]

omit [Sha256] in
/-- Without the token of a party, no transaction of the party is run. -/
theorem party_ne {party : Party} {s : Step} (h : ∀ x, s = .http x → x.presents party = false)
    {t : Txn} (htxn : s.txn = some t) : t.request.party ≠ some party := by
  cases s with
  | recover config feed =>
      obtain rfl := Option.some.inj htxn
      simp [Request.party]
  | detect config feed =>
      obtain rfl := Option.some.inj htxn
      simp [Request.party]
  | http x =>
      intro hparty
      cases hcall : x.call with
      | change request p hp =>
          cases hauth : x.authorised with
          | false => simp [Step.txn, Exchange.txn, hcall, hauth] at htxn
          | true =>
              simp only [Step.txn, Exchange.txn, hcall, hauth, if_true, Option.some.injEq] at htxn
              subst htxn
              obtain rfl : p = party := Option.some.inj (hp.symm.trans hparty)
              simp [Exchange.authorised, hcall, Call.party, h x rfl] at hauth
      | _ => simp [Step.txn, Exchange.txn, hcall] at htxn

theorem served_snoc (steps : List Step) (s : Step) :
    served (steps ++ [s]) = s.after (served steps) := by
  rw [served, List.foldl_append]
  rfl

/-- What every transaction that is run preserves, the steps preserve. -/
theorem served_invariant {I : Database → Prop} {steps more : List Step}
    (hstep : ∀ pre s post t, more = pre ++ s :: post → s.txn = some t →
      Inv (served (steps ++ pre)) → DepInv (served (steps ++ pre)) → I (served (steps ++ pre)) →
      I (commit (served (steps ++ pre)) t))
    (h : I (served steps)) : I (served (steps ++ more)) := by
  induction more using List.reverseRecOn with
  | nil =>
      rw [List.append_nil]
      exact h
  | append_singleton more s ih =>
      have hmore : I (served (steps ++ more)) := ih fun pre s' post t hsplit =>
        hstep pre s' (post ++ [s]) t (by rw [hsplit, List.append_assoc, List.cons_append])
      obtain ⟨txns, -, heq⟩ := served_eq_run (steps ++ more)
      rw [← List.append_assoc, served_snoc]
      rcases s.after_cases (served (steps ++ more)) with hafter | ⟨t, htxn, hafter⟩ <;> rw [hafter]
      · exact hmore
      · refine hstep more s [] t rfl htxn ?_ ?_ hmore <;> rw [heq]
        · exact run_inv txns
        · exact run_depInv txns

omit [Sha256] in
theorem presents_of_split {party : Party} {more pre post : List Step} {s : Step}
    (h : ∀ x, Step.http x ∈ more → x.presents party = false) (hsplit : more = pre ++ s :: post) :
    ∀ x, s = .http x → x.presents party = false := by
  rintro x rfl
  exact h x (by rw [hsplit]; simp)

/-- **Without the token of clients** no job is admitted, no job is cancelled unless its parent has
failed, and no worker is told to drain, whatever is sent, and however long. -/
theorem client_privilege (steps more : List Step)
    (h : ∀ x, Step.http x ∈ more → x.presents .client = false) :
    Unprompted (served steps) (served (steps ++ more)) :=
  served_invariant (fun _ _ _ _ hsplit htxn hinv hdep hd =>
    hd.commit hinv hdep (party_ne (presents_of_split h hsplit) htxn)) (.refl _)

/-- **Without the token of workers** leases run out, and nothing else happens to attempts: none is
made, started, extended or completed, no job succeeds, no process enters or takes an id over, and
no worker is seen. -/
theorem worker_privilege (steps more : List Step)
    (h : ∀ x, Step.http x ∈ more → x.presents .worker = false) :
    Unworked (served steps) (served (steps ++ more)) :=
  served_invariant (fun _ _ _ _ hsplit htxn hinv _ hd =>
    hd.commit hinv (party_ne (presents_of_split h hsplit) htxn)) (.refl _)

/-- **Without the session of a worker** its leases run out, and nothing else happens to its
attempts, although others may have the token of workers. -/
theorem session_privilege (steps more : List Step) {workerId : String}
    (h : ∀ pre x post, more = pre ++ .http x :: post → ∀ t credential, x.txn = some t →
      t.request.sessionOf = some (workerId, credential) →
      ¬ Accepts (served (steps ++ pre)) workerId credential) :
    Confined (· = workerId) (served steps) (served (steps ++ more)) := by
  refine served_invariant (fun pre s post t hsplit htxn hinv _ hd => ?_) (.refl _)
  refine hd.commit hinv ?_
  rintro v credential hsession rfl
  cases s with
  | recover config feed =>
      obtain rfl := Option.some.inj htxn
      cases hsession
  | detect config feed =>
      obtain rfl := Option.some.inj htxn
      cases hsession
  | http x => exact h pre x post hsplit t credential htxn hsession

omit [Sha256] in
/-- A worker that submits a job, and a sweep. -/
theorem client_privilege_worker :
    letI := Sha256.tabulated []
    Unprompted (served firstExchanges) (served (firstExchanges ++ [
      .http ⟨standardCoordinator, some "Bearer worker-token-0001",
        .change (.submit .flaky) .client rfl, .still 3⟩,
      .recover .standard (.still 4)])) := by
  let := Sha256.tabulated []
  apply client_privilege
  intro x hx
  simp only [List.mem_cons, Step.http.injEq, reduceCtorEq, List.not_mem_nil, or_false] at hx
  subst hx
  decide +kernel

omit [Sha256] in
/-- A client that claims the job that a worker has leased, and a sweep after the lease. -/
theorem worker_privilege_client :
    letI := Sha256.tabulated []
    Unworked (served (firstExchanges ++ [.http claimExchange]))
      (served ((firstExchanges ++ [.http claimExchange]) ++ [
        .http { claimExchange with authorization := some "Bearer client-token-0001" },
        .recover .standard (.still 100)])) := by
  let := Sha256.tabulated []
  apply worker_privilege
  intro x hx
  simp only [List.mem_cons, Step.http.injEq, reduceCtorEq, List.not_mem_nil, or_false] at hx
  subst hx
  decide +kernel

/-- The attempt that was claimed is started by a worker with another session. -/
def stolenStart : Exchange :=
  ⟨standardCoordinator, some "Bearer worker-token-0001",
    .change (.start 104 ⟨"w1", 300⟩ (some "another session")) .worker rfl, .still 4⟩

omit [Sha256] in
/-- The start is refused, and the attempt is as it was. -/
theorem session_privilege_stolen :
    letI := Sha256.tabulated []
    (stolenStart.reply (served (firstExchanges ++ [.http claimExchange]))).status = 401 ∧
      Confined (· = "w1") (served (firstExchanges ++ [.http claimExchange]))
        (served ((firstExchanges ++ [.http claimExchange]) ++ [.http stolenStart])) := by
  let := Sha256.tabulated []
  have hstatus : (stolenStart.reply (served (firstExchanges ++
      [.http claimExchange]))).status = 401 := by decide +kernel
  refine ⟨hstatus, session_privilege _ _ ?_⟩
  intro pre x post hsplit t credential htxn hsession
  rcases pre with _ | ⟨s, pre⟩
  swap
  · simp at hsplit
  obtain ⟨rfl, rfl⟩ : x = stolenStart ∧ post = [] := by simpa [eq_comm] using hsplit
  have hcredential : t.request.sessionOf = some ("w1", some "another session") := by
    have h : stolenStart.txn.bind (fun t => t.request.sessionOf) =
        some ("w1", some "another session") := by decide +kernel
    rwa [htxn] at h
  rw [hsession] at hcredential
  obtain rfl : credential = some "another session" := (Prod.mk.inj (Option.some.inj hcredential)).2
  rw [List.append_nil]
  rintro ⟨w, hw, hhash⟩
  have hsession : ((served (firstExchanges ++ [.http claimExchange])).workers.find? "w1").map
      (fun w => decide (w.sessionHash = some (Sha256.hexdigest "another session"))) =
      some false := by decide +kernel
  rw [hw] at hsession
  simp [hhash] at hsession

end Http

end GreyQueue
