import Mathlib.Data.List.Induction
import GreyQueue.Sweep

/-!
# Who cancels a job

A job is cancelled by a request of a client for it, or by a sweep, and then one of its
parents has failed, was dead-lettered or was cancelled.  Nothing else cancels a job.

## Main results

* `sat_cascade` — a sweep cancels only the children of failed parents.
* `cancel_provenance` — the transaction behind every cancelled job.
-/

namespace GreyQueue

open Lib
open Lib.Prog (Sat sat_bind)

/-- A parent that has failed stays so. -/
theorem FailedParent.later {db db' : Database} {job job' : Job} (h : FailedParent db job)
    (hl : Later db db') (hdep : job'.dependsOn = job.dependsOn) : FailedParent db' job' := by
  obtain ⟨p, parent, hp, hrow, hs⟩ := h
  obtain ⟨parent', hrow', hlater⟩ := hl.jobs p parent hrow
  have hfinal : parent.status.final := by
    rcases hs with hs | hs | hs <;> simp [hs, Status.final, transitions]
  obtain rfl := hlater.2.2 hfinal
  exact ⟨p, parent', hdep.trans hp, hrow', hs⟩

theorem Job.Later.dependsOn {j k : Job} (h : j.Later k) : k.dependsOn = j.dependsOn := by
  rw [h.1]

/-- Every job that is cancelled here and was not in the beginning has a failed parent. -/
def Cascade (db d : Database) : Prop :=
  ∀ k job, d.jobs.find? k = some job → job.status = .cancelled →
    (∃ old, db.jobs.find? k = some old ∧ old.status = .cancelled) ∨ FailedParent d job

namespace Cascade

variable {db d : Database}

theorem refl (db : Database) : Cascade db db := fun _ job hrow hs => Or.inl ⟨job, hrow, hs⟩

/-- A job that enters another state, or has a failed parent. -/
theorem step (h : Cascade db d) {c : Change} (hg : c.guard d) {job : Job} (job' : Job)
    (hrow : d.jobs.find? job.id = some job) (hid : job'.id = job.id)
    (hjobs : (c.effect d).jobs = d.jobs.put job')
    (hnew : job'.status = .cancelled → FailedParent (c.effect d) job') :
    Cascade db (c.effect d) := by
  intro k x hx hs
  by_cases hk : k = job'.id
  · subst hk
    rw [hjobs] at hx
    have hput : (d.jobs.put job').find? job'.id = some job' :=
      Table.find?_put_self (r := job') (hid ▸ hrow)
    obtain rfl : job' = x := Option.some.inj (hput.symm.trans hx)
    exact Or.inr (hnew hs)
  · rw [hjobs, Table.find?_put_ne _ (fun h' => hk h'.symm)] at hx
    exact (h k x hx hs).imp_right fun hf => hf.later (.effect hg) rfl

end Cascade

variable {A : Moment → Prop} {db : Database}

/-- A sweep cancels only the children of failed parents. -/
theorem sat_cascade (hinv : Inv db) (limit : ℕ) :
    Sat A (recoverJobs limit) db fun _ d => Cascade db d := by
  refine sat_read (fun _ => rfl) fun m _ => ?_
  split
  swap
  · exact .refl db
  refine sat_databaseTime fun n _ => sat_read (fun _ => rfl) fun l _ => (sat_bind _ _ _).mpr ?_
  generalize hjobs : l.take limit (db.jobs.rows.filter (leaseExpired db n.time)) = jobs
  refine Sat.forEach (I := fun rest d => (Inv d ∧ Cascade db d) ∧
    Pending (fun j => j.status.held) d rest) ?_ ?_ jobs db ⟨⟨hinv, .refl db⟩, ?_, ?_⟩
  · rintro mid ⟨⟨-, hcascade⟩, -⟩
    refine sat_read (fun _ => rfl) fun l' _ => (sat_bind _ _ _).mpr ?_
    refine Sat.forEach (I := fun rest d => Cascade db d ∧ Blocked d rest) ?_ ?_ _ mid
      ⟨hcascade, nodup_rows, fun j hj => current_rows hj⟩
    · rintro d ⟨hcascade, -⟩
      exact hcascade
    · rintro job rest d ⟨hcascade, hblocked⟩
      obtain ⟨hrow, hfailed⟩ := hblocked.2 job List.mem_cons_self
      obtain ⟨hwait, hparent⟩ := parentFailed_iff.mp hfailed
      refine (sat_bind _ _ _).mpr (sat_transition (Status.cancelled_mem hwait) fun s => ?_)
      have hg : (Change.cancel job s).guard d := ⟨hrow, hwait⟩
      refine ⟨hcascade.step hg (job.enter .cancelled s) hrow rfl rfl fun _ => ?_, hblocked.tail s⟩
      exact hparent.later (.effect hg) rfl
  · rintro job rest d ⟨⟨hinvd, hcascade⟩, hpend⟩
    obtain ⟨hrow, hheld⟩ := hpend.2 job List.mem_cons_self
    refine sat_expire (l := 0) hinvd hrow hheld (fun _ => ⟨⟨hinvd, hcascade⟩, hpend.skip⟩) ?_ ?_
    · intro a _ t t' s e _ _ hg _
      exact ⟨⟨(hinvd.effect hg).effect (c := .log e) trivial,
          hcascade.step hg (Job.enter { job with availableAt := t' } .retryWait s) hrow rfl rfl
            Status.noConfusion⟩,
        hpend.tail (Job.enter { job with availableAt := t' } .retryWait s) rfl rfl⟩
    · intro a _ t s e _ _ hg _
      exact ⟨⟨(hinvd.effect hg).effect (c := .log e) trivial,
          hcascade.step hg (job.enter .deadLetter s) hrow rfl rfl Status.noConfusion⟩,
        hpend.tail (job.enter .deadLetter s) rfl rfl⟩
  · rw [← hjobs]
    exact nodup_rows
  · intro j hj
    rw [← hjobs] at hj
    obtain ⟨hrow, hp⟩ := current_rows hj
    simp only [leaseExpired, Bool.and_eq_true] at hp
    exact ⟨hrow, hp.1⟩

/-! ## The transaction behind a final state -/

variable [Sha256] {u : Txn} {k : Uuid}

/-- A job that a transaction admits is queued. -/
theorem commit_admits (hinv : Inv db) {job : Job} (hrow : (commit db u).jobs.find? k = some job)
    (hnew : db.jobs.find? k = none) : job.status = .queued := by
  have h := (commit_invariant (I := fun d => d.jobs.find? k = none ∨
    (∃ body, u.request = .submit body) ∧ ∃ job, d.jobs.find? k = some job ∧
      job.status = .queued) hinv (t := u) (fun c d hc _ hg hd => ?_) (Or.inl hnew)).2
  · rcases h with hnone | ⟨-, job', hrow', hs⟩
    · rw [hnone] at hrow
      cases hrow
    · rw [hrow] at hrow'
      rw [Option.some.inj hrow', hs]
  · by_cases hadmits : ∃ j q n t t', c = .admitted j q n t t'
    · obtain ⟨j, q, n, t, t', rfl⟩ := hadmits
      have hsubmit : ∃ body, u.request = .submit body := by
        have hallowed := hc.1
        cases hreq : u.request with
        | submit body => exact ⟨body, rfl⟩
        | _ => simp [hreq, Allowed] at hallowed
      have heffect : (Change.effect (.admitted j q n t t') d).jobs = d.jobs.add j := rfl
      rw [heffect]
      by_cases hk : j.id = k
      · exact Or.inr ⟨hsubmit, j, hk ▸ Table.find?_add_self hg.fresh, hg.queued⟩
      · rw [Table.find?_add_ne _ hk]
        exact hd
    · have hother : ¬ ∃ body, u.request = .submit body := by
        rintro ⟨body, hreq⟩
        have hallowed := hc.1
        rw [hreq] at hallowed
        cases c with
        | admitted j q n t t' => exact hadmits ⟨j, q, n, t, t', rfl⟩
        | _ => exact hallowed
      have hnone := hd.resolve_right fun h => hother h.1
      left
      rcases effect_jobs hg with h | ⟨j, j', hj, -, hl, hjobs⟩ | hjobs
      · exact absurd h hadmits
      · have hid : j'.id = j.id := by rw [hl.1]
        have hne : j'.id ≠ k := by
          intro h
          rw [← h, hid, hj] at hnone
          cases hnone
        rw [hjobs]
        exact (Table.find?_put_ne _ hne).trans hnone
      · rw [hjobs]
        exact hnone

/-- Behind every job in a final state there is one transaction, before which it was not in a
final state, and which left the row as it is. -/
theorem finalised (txns : List Txn) {job : Job} (hrow : (run txns).jobs.find? k = some job)
    (hs : job.status.final) :
    ∃ pre u post x, txns = pre ++ u :: post ∧ (run pre).jobs.find? k = some x ∧
      ¬ x.status.final ∧ (commit (run pre) u).jobs.find? k = some job := by
  induction txns using List.reverseRecOn with
  | nil => simp [run] at hrow
  | append_singleton txns t ih =>
      rw [run_snoc] at hrow
      cases hx : (run txns).jobs.find? k with
      | none =>
          have hq := commit_admits (run_inv txns) hrow hx
          rw [hq] at hs
          simp [Status.final, transitions] at hs
      | some x =>
          by_cases hfinal : x.status.final
          · obtain ⟨x', hx', hl⟩ := (commit_makes (run_inv txns) t).later.jobs k x hx
            obtain rfl : x' = job := Option.some.inj (hx'.symm.trans hrow)
            obtain rfl := hl.2.2 hfinal
            obtain ⟨pre, u, post, y, rfl, h⟩ := ih hx
            exact ⟨pre, u, post ++ [t], y, by simp, h⟩
          · exact ⟨txns, t, [], x, rfl, hx, hfinal, hrow⟩

/-! ## The transaction that cancels a job -/

/-- A job while a transaction other than a sweep is under way: it is not cancelled, or the
transaction is asked to cancel it. -/
def Spared (u : Txn) (x : Job) (d : Database) : Prop :=
  (∃ y, d.jobs.find? x.id = some y ∧ y.status ≠ .cancelled ∧
    ((∃ k, u.request = .cancel k) → y = x)) ∨
  (u.request = .cancel x.id ∧ x.status.waiting = true)

theorem Spared.effect {x : Job} {d : Database} (h : Spared u x d) {c : Change} (hg : c.guard d)
    (hc : Allowed u.config u.request c) (hsweep : ∀ limit, u.request ≠ .recoverJobs limit) :
    Spared u x (c.effect d) := by
  rcases h with ⟨y, hy, hs, hsame⟩ | h
  swap
  · exact Or.inr h
  -- a row is rewritten, and it may be this one
  have hput : ∀ {j : Job} (j' : Job), j'.id = j.id → j'.status ≠ .cancelled →
      (∀ k, u.request ≠ .cancel k) → (c.effect d).jobs = d.jobs.put j' →
      Spared u x (c.effect d) := by
    intro j j' hid hs' hother hjobs
    refine Or.inl ?_
    rw [hjobs]
    by_cases hk : j'.id = x.id
    · rw [← hk] at hy ⊢
      exact ⟨j', Table.find?_put_self hy, hs', fun ⟨k, hreq⟩ => absurd hreq (hother k)⟩
    · exact ⟨y, (Table.find?_put_ne _ hk).trans hy, hs, hsame⟩
  have hother : (∀ k, ¬ Allowed u.config (.cancel k) c) → ∀ k, u.request ≠ .cancel k := by
    intro hno k hreq
    rw [hreq] at hc
    exact hno k hc
  cases c with
  | admitted j q n t t' =>
      refine Or.inl ⟨y, (Table.find?_add_ne _ ?_).trans hy, hs, hsame⟩
      intro hk
      have hfresh := hg.fresh
      rw [show j.id = x.id from hk, hy] at hfresh
      cases hfresh
  | lease w j a t s =>
      exact hput (j.leased s) rfl Status.noConfusion (hother fun _ h => h) rfl
  | start j a t s =>
      exact hput (j.enter .running s) rfl Status.noConfusion (hother fun _ h => h) rfl
  | succeed j a o t s =>
      exact hput (j.enter .succeeded s) rfl Status.noConfusion (hother fun _ h => h) rfl
  | retry j a o e t t' s =>
      exact hput (Job.enter { j with availableAt := t' } .retryWait s) rfl Status.noConfusion
        (hother fun _ h => h) rfl
  | fail j a o e r t s =>
      refine hput (j.enter (if r then .deadLetter else .failed) s) rfl ?_ (hother fun _ h => h) rfl
      cases r <;> simp [Job.enter]
  | cancel j s =>
      have hreq : u.request = .cancel j.id := by
        cases hreq : u.request with
        | cancel k => rw [hreq] at hc; rw [show j.id = k from hc]
        | recoverJobs limit => exact absurd hreq (hsweep limit)
        | _ => simp [hreq, Allowed] at hc
      obtain rfl := hsame ⟨_, hreq⟩
      by_cases hk : j.id = y.id
      · obtain ⟨hrow, hwait⟩ := hg
        rw [hk, hy] at hrow
        obtain rfl := Option.some.inj hrow
        exact Or.inr ⟨hreq, hwait⟩
      · exact Or.inl ⟨y, (Table.find?_put_ne _ hk).trans hy, hs, fun _ => rfl⟩
  | renew | enroll | seen | drain | takeover | mark | log => exact Or.inl ⟨y, hy, hs, hsame⟩

/-- A transaction that cancels a job was asked to, or is a sweep that found a failed parent. -/
theorem commit_cancels (hinv : Inv db) (hdep : DepInv db) {x job : Job}
    (hx : db.jobs.find? x.id = some x) (hfinal : ¬ x.status.final)
    (hrow : (commit db u).jobs.find? x.id = some job) (hs : job.status = .cancelled) :
    x.status.waiting = true ∧ (u.request = .cancel x.id ∨
      (∃ limit, u.request = .recoverJobs limit) ∧ FailedParent (commit db u) job) := by
  by_cases hsweep : ∃ limit, u.request = .recoverJobs limit
  · have hcascade : Cascade db (commit db u) := by
      obtain ⟨limit, hreq⟩ := hsweep
      rw [commit, Txn.answer, Txn.outcome, hreq, serve]
      have hsat : Sat u.Moments (recoverJobs limit >>= fun _ => pure Response.maintained) db
          fun _ d => Cascade db d :=
        (sat_cascade hinv limit).bind (fun _ _ h => h) fun _ _ h => h
      have h := hsat.exec (f := u.feed) fun n => ⟨n, rfl⟩
      split
      · exact h
      · exact .refl db
    rcases hcascade _ job hrow hs with ⟨old, hold, hcancelled⟩ | hparent
    · rw [hx] at hold
      rw [Option.some.inj hold, hcancelled] at hfinal
      simp [Status.final, transitions] at hfinal
    · refine ⟨?_, Or.inr ⟨hsweep, hparent⟩⟩
      by_contra hheld
      -- a job that is held has a parent that has succeeded
      obtain ⟨p, parent, hp, hprow, hfail⟩ := hparent
      have hlater := (commit_makes hinv u).later
      obtain ⟨x', hx', hl⟩ := hlater.jobs _ x hx
      obtain rfl : x' = job := Option.some.inj (hx'.symm.trans hrow)
      have htried : x.Tried := by
        right
        cases hst : x.status <;> simp_all [Status.waiting, Status.final, transitions]
      have hdone := DepInv.parentDone_later hlater (hdep.tried _ x hx htried)
      obtain ⟨parent', hprow', hsucc⟩ := hdone p (hl.dependsOn ▸ hp)
      obtain rfl : parent' = parent := Option.some.inj (hprow'.symm.trans hprow)
      simp [hsucc] at hfail
  · have h := (commit_invariant (I := Spared u x) hinv (t := u) (fun c d hc _ hg hd =>
      hd.effect hg hc.1 fun limit hreq => hsweep ⟨limit, hreq⟩)
      (Or.inl ⟨x, hx, fun h => hfinal (by simp [h, Status.final, transitions]), fun _ => rfl⟩)).2
    rcases h with ⟨y, hy, hne, -⟩ | ⟨hreq, hwait⟩
    · rw [hrow] at hy
      exact absurd hs (Option.some.inj hy ▸ hne)
    · exact ⟨hwait, Or.inl hreq⟩

/-- A client has cancelled the job: the transaction found it waiting. -/
def CancelledBy (txns : List Txn) (job : Job) : Prop :=
  ∃ pre u post x, txns = pre ++ u :: post ∧ u.request = .cancel job.id ∧
    (run pre).jobs.find? job.id = some x ∧ x.status.waiting = true ∧
    (run (pre ++ [u])).jobs.find? job.id = some job

/-- The cancelled job `c` depends on the job `p`. -/
def CancelledChild (db : Database) (p c : Uuid) : Prop :=
  ∃ child, db.jobs.find? c = some child ∧ child.status = .cancelled ∧ child.dependsOn = some p

/-- A cancelled job was cancelled by a client, or by a sweep after its parent had failed. -/
theorem cancelled_cases (txns : List Txn) {job : Job}
    (hrow : (run txns).jobs.find? job.id = some job) (hs : job.status = .cancelled) :
    CancelledBy txns job ∨ FailedParent (run txns) job := by
  obtain ⟨pre, u, post, x, rfl, hx, hfinal, hjob⟩ :=
    finalised txns hrow (by simp [hs, Status.final, transitions])
  have hid : x.id = job.id := Table.key_of_find? hx
  rw [← hid] at hx hjob
  obtain ⟨hwait, hreq | ⟨-, hparent⟩⟩ :=
    commit_cancels (run_inv pre) (run_depInv pre) hx hfinal hjob hs
  · refine Or.inl ⟨pre, u, post, x, rfl, hid ▸ hreq, hid ▸ hx, hwait, ?_⟩
    rw [run_snoc, ← hid]
    exact hjob
  · right
    have hlater := run_later (pre ++ [u]) post
    rw [run_snoc, List.append_assoc, List.singleton_append] at hlater
    exact hparent.later hlater rfl

/-- **Cancellation has a cause.**  In every reachable state, the dependencies of a cancelled job
lead, over cancelled jobs, back to one that a client cancelled while it was waiting, or to one
that has failed or is dead-lettered. -/
theorem cancel_root_cause (txns : List Txn) {job : Job}
    (hrow : (run txns).jobs.find? job.id = some job) (hs : job.status = .cancelled) :
    ∃ root, (run txns).jobs.find? root.id = some root ∧
      Relation.ReflTransGen (CancelledChild (run txns)) root.id job.id ∧
      (root.status = .failed ∨ root.status = .deadLetter ∨
        (root.status = .cancelled ∧ CancelledBy txns root)) := by
  suffices h : ∀ k job, (run txns).jobs.find? k = some job → job.status = .cancelled →
      ∃ root, (run txns).jobs.find? root.id = some root ∧
        Relation.ReflTransGen (CancelledChild (run txns)) root.id k ∧
        (root.status = .failed ∨ root.status = .deadLetter ∨
          (root.status = .cancelled ∧ CancelledBy txns root)) from h job.id job hrow hs
  clear hrow hs job
  intro k
  -- induction on the dependencies, from the oldest ancestor on
  induction k using (run_depInv txns).wellFounded.induction with
  | _ k ih =>
      intro job hrow hs
      obtain rfl : job.id = k := Table.key_of_find? hrow
      rcases cancelled_cases txns hrow hs with hclient | ⟨p, parent, hp, hprow, hfail⟩
      · exact ⟨job, hrow, .refl, Or.inr (Or.inr ⟨hs, hclient⟩)⟩
      · have hchild : CancelledChild (run txns) p job.id := ⟨job, hrow, hs, hp⟩
        have hpid : parent.id = p := Table.key_of_find? hprow
        rcases hfail with hfail | hfail | hfail
        · exact ⟨parent, by rw [hpid]; exact hprow, .single (hpid ▸ hchild), Or.inl hfail⟩
        · exact ⟨parent, by rw [hpid]; exact hprow, .single (hpid ▸ hchild), Or.inr (Or.inl hfail)⟩
        · obtain ⟨root, hroot, hpath, hcause⟩ := ih p ⟨job, hrow, hp⟩ parent hprow hfail
          exact ⟨root, hroot, hpath.tail hchild, hcause⟩

/-- A child and its child wait, the job they depend on is cancelled, and a sweep follows. -/
def cancelledChain : List Txn := [
  { request := .submit .flaky, feed := .still 1 },
  { request := .submit { Submit.flaky with dependsOn := some 104 }, feed := .still 2 },
  { request := .submit { Submit.flaky with dependsOn := some 205 }, feed := .still 3 },
  { request := .cancel 104, feed := .still 4 },
  { request := .recoverJobs 2, feed := .still 5 },
  { request := .recoverJobs 2, feed := .still 6 }]

omit [Sha256] in
/-- The last job of the chain is cancelled, and that leads back to a job that ended. -/
theorem cancel_root_cause_chain :
    letI := Sha256.tabulated []
    ∃ job, (run cancelledChain).jobs.find? 305 = some job ∧ job.status = .cancelled ∧
      ∃ root, (run cancelledChain).jobs.find? root.id = some root ∧
        Relation.ReflTransGen (CancelledChild (run cancelledChain)) root.id 305 ∧
        (root.status = .failed ∨ root.status = .deadLetter ∨
          (root.status = .cancelled ∧ CancelledBy cancelledChain root)) := by
  let := Sha256.tabulated []
  have hrow : ((run cancelledChain).jobs.find? 305).map (·.status) = some .cancelled := by
    decide +kernel
  obtain ⟨job, hjob, hs⟩ := Option.map_eq_some_iff.mp hrow
  have hid : job.id = 305 := Table.key_of_find? hjob
  have hself : (run cancelledChain).jobs.find? job.id = some job := by rw [hid]; exact hjob
  have h := cancel_root_cause cancelledChain hself hs
  rw [hid] at h
  exact ⟨job, hjob, hs, h⟩

end GreyQueue
