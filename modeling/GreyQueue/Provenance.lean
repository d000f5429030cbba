import GreyQueue.Takeover
import GreyQueue.Timeline

/-!
# Who ends an attempt

Every attempt that has ended was ended by one transaction: a report that its own worker made
under its session while the lease was running, or a recovery that read the clock when the
lease was over.  The row records what that transaction brought, and stays so.

## Main definitions

* `ReportedIn`, `LapsedIn` — the two ways in which a transaction ends an attempt.

## Main results

* `commit_ends` — a transaction that ends an attempt does it in one of the two ways.
* `attempt_provenance` — the transaction behind the end of every attempt.
-/

namespace GreyQueue

open Lib

variable [Sha256]

/-- The transaction reports the end of the attempt `x`, as the row `b` records it: it carries
the token, the worker and the job of the attempt and an accepted session, and has read the
clock before the lease was over. -/
def ReportedIn (db : Database) (u : Txn) (x b : Attempt) : Prop :=
  ∃ jobId body credential, u.request = .finish jobId body credential ∧
    jobId = x.jobId ∧ body.token = x.id ∧ body.workerId = x.workerId ∧
    Accepts db x.workerId credential ∧ (∃ m, (u.feed m).time < x.expiresAt) ∧
    ∃ n, b = { x with
      finishedAt := some (u.feed n).time
      outcome := some (if body.error.isNone then .succeeded else .failed)
      output := body.json, error := body.error }

/-- The transaction expires the attempt `x`, as the row `b` records it: it has read the clock
when the lease was over. -/
def LapsedIn (u : Txn) (x b : Attempt) : Prop :=
  ∃ limit, u.request = .recoverJobs limit ∧ (∃ m, x.expiresAt ≤ (u.feed m).time) ∧
    ∃ n, b = x.close .leaseExpired leaseExpiredError (u.feed n).time

/-- The request can end an attempt. -/
def Request.ends : Request → Bool
  | .finish _ _ _ => true
  | .recoverJobs _ => true
  | _ => false

section Commit

variable {db : Database} {u : Txn} {x b : Attempt}

/-- The row of an open attempt while a transaction is under way: still open, and untouched if
the request can end it, or ended. -/
def Ending (db : Database) (u : Txn) (x : Attempt) (d : Database) : Prop :=
  ∃ y, d.attempts.find? x.id = some y ∧
    ((y.finishedAt = none ∧ (u.request.ends = true → y = x)) ∨ ReportedIn db u x y ∨ LapsedIn u x y)

/-- One change of the transaction. -/
theorem Ending.effect {d : Database} (hinv : Inv d)
    (hauth : ∀ jobId body credential, u.request = .finish jobId body credential →
      Accepts db body.workerId credential)
    {c : Change} (hg : c.guard d) (hc : Timely u.Moments u.config u.request c)
    (h : Ending db u x d) : Ending db u x (c.effect d) := by
  obtain ⟨y, hy, hrow⟩ := h
  have hyid : y.id = x.id := Table.key_of_find? hy
  -- a held attempt is rewritten, and it may be this one
  have hput : ∀ {job z r}, Holds d job z → r.id = z.id →
      (z = y → (r.finishedAt = none ∧ (u.request.ends = true → r = x)) ∨
        ReportedIn db u x r ∨ LapsedIn u x r) →
      (c.effect d).attempts = d.attempts.put r → Ending db u x (c.effect d) := by
    intro job z r hold hid hnew heq
    by_cases hk : z.id = x.id
    · have hzy : z = y := by
        have hz := hold.attempt_row
        rw [hk] at hz
        exact Option.some.inj (hz.symm.trans hy)
      exact ⟨r, by rw [heq]; exact hold.find?_put hid hk, hnew hzy⟩
    · refine ⟨y, ?_, hrow⟩
      rw [heq]
      exact (Table.find?_put_ne _ (show Keyed.key r ≠ x.id by simpa [hid] using hk)).trans hy
  -- a row that is closed was open, and untouched so far
  have hself : ∀ {job}, Holds d job y → u.request.ends = true → y = x := by
    intro job hold hends
    rcases hrow with ⟨-, hsame⟩ | h | h
    · exact hsame hends
    · obtain ⟨_, _, _, _, _, _, _, _, _, n, rfl⟩ := h
      exact absurd hold.is_open (by simp)
    · obtain ⟨_, _, _, n, rfl⟩ := h
      exact absurd hold.is_open (by simp [Attempt.close])
  -- a report closes the row with what it brings
  have hreport : ∀ {job jobId body credential outcome e n}, Holds d job y →
      u.request = .finish jobId body credential → job.id = jobId → y.id = body.token →
      y.workerId = body.workerId → y.InTime u.Moments → body.error = some e →
      outcome = .failed → ReportedIn db u x (y.close outcome e (u.feed n).time) := by
    rintro job jobId body credential outcome e n hold hreq rfl htoken hworker htime he rfl
    have hyx := hself hold (by rw [hreq]; rfl)
    subst hyx
    obtain ⟨-, -, -, -, hpend, -⟩ := hinv.holds hold
    obtain ⟨t, ⟨m, ⟨i, rfl⟩, rfl⟩, hlt⟩ := htime
    refine ⟨_, body, credential, hreq, hold.attempt_job.symm, htoken.symm, hworker.symm,
      hworker ▸ hauth _ body credential hreq, ⟨i, hlt⟩, n, ?_⟩
    have hout : y.output = body.json :=
      hpend.2.2.1.trans (Completion.json_none (by simp [he])).symm
    simp [Attempt.close, he, ← hout]
  have hlapse : ∀ {job limit outcome e n}, Holds d job y → u.request = .recoverJobs limit →
      y.Fails u.Moments outcome → outcome = .leaseExpired → e = leaseExpiredError →
      LapsedIn u x (y.close outcome e (u.feed n).time) := by
    rintro job limit outcome e n hold hreq hfails rfl rfl
    have hyx := hself hold (by rw [hreq]; rfl)
    subst hyx
    obtain ⟨t, ⟨m, ⟨i, rfl⟩, rfl⟩, hle⟩ := hfails.2 rfl
    exact ⟨limit, hreq, ⟨i, hle⟩, n, rfl⟩
  cases c with
  | lease w job a t s =>
      refine ⟨y, (Table.find?_add_ne _ ?_).trans hy, hrow⟩
      rintro hk
      have hfresh := hg.fresh
      rw [show a.id = x.id from hk, hy] at hfresh
      cases hfresh
  | start job a t s =>
      refine hput (r := { a with startedAt := some t }) hg.1 rfl
        (fun _ => Or.inl ⟨hg.1.is_open, ?_⟩) rfl
      intro hends
      have hallowed := hc.1
      cases hreq : u.request <;> simp [hreq, Allowed, Request.ends] at hallowed hends
  | renew job a t =>
      refine hput (r := { a with expiresAt := t }) hg.1 rfl
        (fun _ => Or.inl ⟨hg.1.is_open, ?_⟩) rfl
      intro hends
      have hallowed := hc.1
      cases hreq : u.request <;> simp [hreq, Allowed, Request.ends] at hallowed hends
  | succeed job a o t s =>
      refine hput (r := a.deliver o t) hg.1 rfl ?_ rfl
      rintro rfl
      obtain ⟨hallowed, htime, m, ⟨n, rfl⟩, rfl⟩ := hc
      cases hreq : u.request with
      | finish jobId body credential =>
          rw [hreq] at hallowed
          obtain ⟨⟨rfl, htoken, hworker⟩, he, rfl⟩ := hallowed
          have hyx := hself hg.1 (by rw [hreq]; rfl)
          subst hyx
          obtain ⟨-, -, -, -, hpend, -⟩ := hinv.holds hg.1
          obtain ⟨t, ⟨m, ⟨i, rfl⟩, rfl⟩, hlt⟩ := htime
          refine Or.inr (Or.inl ⟨_, body, credential, hreq, hg.1.attempt_job.symm, htoken.symm,
            hworker.symm, hworker ▸ hauth _ body credential hreq, ⟨i, hlt⟩, n, ?_⟩)
          have herr : a.error = none := hpend.2.2.2
          simp [Attempt.deliver, he, herr]
      | _ => simp [hreq, Allowed] at hallowed
  | retry job a o e t t' s =>
      refine hput (r := a.close o e t) hg.1 rfl ?_ rfl
      rintro rfl
      obtain ⟨hallowed, hfails, ⟨m, ⟨n, rfl⟩, rfl⟩, -⟩ := hc
      cases hreq : u.request with
      | finish jobId body credential =>
          rw [hreq] at hallowed
          obtain ⟨⟨hid, htoken, hworker⟩, he, -, ho⟩ := hallowed
          exact Or.inr (Or.inl (hreport hg.1 hreq hid htoken hworker (hfails.1 ho) he ho))
      | recoverJobs limit =>
          rw [hreq] at hallowed
          exact Or.inr (Or.inr (hlapse hg.1 hreq hfails hallowed.1 hallowed.2))
      | _ => simp [hreq, Allowed] at hallowed
  | fail job a o e r t s =>
      refine hput (r := a.close o e t) hg.1 rfl ?_ rfl
      rintro rfl
      obtain ⟨hallowed, hfails, m, ⟨n, rfl⟩, rfl⟩ := hc
      cases hreq : u.request with
      | finish jobId body credential =>
          rw [hreq] at hallowed
          obtain ⟨⟨hid, htoken, hworker⟩, he, -, ho⟩ := hallowed
          exact Or.inr (Or.inl (hreport hg.1 hreq hid htoken hworker (hfails.1 ho) he ho))
      | recoverJobs limit =>
          rw [hreq] at hallowed
          exact Or.inr (Or.inr (hlapse hg.1 hreq hfails hallowed.1 hallowed.2.1))
      | _ => simp [hreq, Allowed] at hallowed
  | admitted | cancel | enroll | seen | drain | takeover | mark | log => exact ⟨y, hy, hrow⟩

/-- A transaction ends an attempt by a report or by an expiry. -/
theorem commit_ends (hinv : Inv db) (hx : db.attempts.find? x.id = some x)
    (hopen : x.finishedAt = none) (hb : (commit db u).attempts.find? x.id = some b)
    (hfin : b.finishedAt.isSome = true) : ReportedIn db u x b ∨ LapsedIn u x b := by
  cases hans : u.answer db with
  | error e =>
      rw [commit_error hans, hx, Option.some.injEq] at hb
      rw [← hb, hopen] at hfin
      cases hfin
  | ok response =>
      obtain ⟨hauth, -⟩ := commit_answers hinv hans
      have hauth' : ∀ jobId body credential, u.request = .finish jobId body credential →
          Accepts db body.workerId credential := by
        intro jobId body credential hreq
        rw [hreq] at hauth
        exact hauth
      obtain ⟨-, y, hy, hrow⟩ := commit_invariant (I := Ending db u x) hinv (t := u)
        (fun c d hc hinvd hg h => Ending.effect hinvd hauth' hg hc h)
        ⟨x, hx, Or.inl ⟨hopen, fun _ => rfl⟩⟩
      obtain rfl : y = b := Option.some.inj (hy.symm.trans hb)
      rcases hrow with ⟨hnone, -⟩ | h
      · rw [hnone] at hfin
        cases hfin
      · exact h

end Commit

/-- **Provenance of outcomes.**  Behind every attempt that has ended, in every reachable state,
there is one transaction that found it open and left the row as it is: a report by its worker
under an accepted session that read the clock before the lease was over, or a recovery that read
the clock when it was over.  So nothing but silence beyond the lease expires an attempt, and
nobody else ends it. -/
theorem attempt_provenance (txns : List Txn) {a : Attempt}
    (ha : (run txns).attempts.find? a.id = some a) (hfin : a.finishedAt.isSome = true) :
    ∃ pre u post x, txns = pre ++ u :: post ∧ (run pre).attempts.find? a.id = some x ∧
      x.finishedAt = none ∧ (ReportedIn (run pre) u x a ∨ LapsedIn u x a) ∧
      ∀ mid rest, post = mid ++ rest → (run (pre ++ u :: mid)).attempts.find? a.id = some a := by
  induction txns using List.reverseRecOn generalizing a with
  | nil => simp [run] at ha
  | append_singleton txns t ih =>
      rw [run_snoc] at ha
      cases hx : (run txns).attempts.find? a.id with
      | none =>
          obtain ⟨-, -, -, hopen, -⟩ := commit_new (run_inv txns) ha hx
          rw [hopen] at hfin
          cases hfin
      | some x =>
          have hid : x.id = a.id := Table.key_of_find? hx
          have hxrow : (run txns).attempts.find? x.id = some x := by rw [hid]; exact hx
          obtain ⟨b, hb, hl⟩ := (commit_makes (run_inv txns) t).later.attempts _ x hx
          obtain rfl : b = a := Option.some.inj (hb.symm.trans ha)
          by_cases hold : x.finishedAt.isSome = true
          · obtain rfl := hl.2 hold
            obtain ⟨pre, u, post, y, rfl, hy, hyopen, hend, hall⟩ := ih hx hold
            refine ⟨pre, u, post ++ [t], y, by simp, hy, hyopen, hend, fun mid rest hsplit => ?_⟩
            rcases List.eq_nil_or_concat rest with rfl | ⟨rest, z, rfl⟩
            · rw [List.append_nil] at hsplit
              subst hsplit
              rw [← List.cons_append, ← List.append_assoc, run_snoc]
              exact hb
            · have hsplit : post ++ [t] = (mid ++ rest) ++ [z] := by simpa using hsplit
              exact hall mid rest (List.append_inj' hsplit rfl).1
          · have hopen : x.finishedAt = none := by simpa using hold
            refine ⟨txns, t, [], x, rfl, hx, hopen,
              commit_ends (run_inv txns) hxrow hopen (by rw [hid]; exact hb) hfin, ?_⟩
            intro mid rest hsplit
            obtain ⟨rfl, -⟩ : mid = [] ∧ rest = [] := by simpa using hsplit
            rw [run_snoc]
            exact hb

/-- An attempt that has ended has either an output, when it succeeded, or an error. -/
theorem ended_carries (txns : List Txn) {a : Attempt}
    (ha : (run txns).attempts.find? a.id = some a) (hfin : a.finishedAt.isSome = true) :
    if a.outcome = some .succeeded then a.error = none else a.output = none := by
  obtain ⟨pre, u, post, x, rfl, hx, hopen, hend, -⟩ := attempt_provenance txns ha hfin
  rcases hend with ⟨_, body, _, -, -, -, -, -, -, n, rfl⟩ | ⟨_, -, -, n, rfl⟩
  · cases he : body.error with
    | none => simp
    | some e => simpa [he] using Completion.json_none (c := body) (by simp [he])
  · -- the attempt was open, and nothing is recorded of an open attempt
    have hrow : (run pre).attempts.find? x.id = some x := hx
    obtain ⟨job, hjob⟩ := (run_inv pre).attempt_job x (Table.mem_of_find? hrow)
    have hid : job.id = x.jobId := Table.key_of_find? hjob
    have hold : Holds (run pre) job x := ⟨by rw [hid]; exact hjob, hrow, hid.symm, hopen⟩
    obtain ⟨-, -, -, -, hpend, -⟩ := (run_inv pre).holds hold
    simpa [Attempt.close] using hpend.2.2.1

omit [Sha256] in
/-- The failure that ends an attempt. -/
theorem attempt_provenance_failure :
    letI := Sha256.tabulated []
    ∃ a, (run waitingClaim).attempts.find? 407 = some a ∧ a.outcome = some .failed ∧
      ∃ pre u post x, waitingClaim = pre ++ u :: post ∧
        (run pre).attempts.find? 407 = some x ∧ x.finishedAt = none ∧
        (ReportedIn (run pre) u x a ∨ LapsedIn u x a) := by
  let := Sha256.tabulated []
  have hrow : ((run waitingClaim).attempts.find? 407).map (fun a =>
      (a.finishedAt.isSome, a.outcome)) = some (true, some .failed) := by decide +kernel
  obtain ⟨a, ha, hfields⟩ := Option.map_eq_some_iff.mp hrow
  obtain ⟨hfin, hout⟩ := Prod.mk.inj hfields
  have hid : a.id = 407 := Table.key_of_find? ha
  have ha' : (run waitingClaim).attempts.find? a.id = some a := by rw [hid]; exact ha
  obtain ⟨pre, u, post, x, hsplit, hx, hopen, hend, -⟩ := attempt_provenance waitingClaim ha' hfin
  rw [hid] at hx
  exact ⟨a, ha, hout, pre, u, post, x, hsplit, hx, hopen, hend⟩

end GreyQueue
