import Mathlib.Data.List.Chain
import GreyQueue.Outcome

/-!
# The event log

The events of a job are the path it took through its states.  Each entry after the first
two is one transition, so the counts of leases, starts and retries in the log are the
counts of its attempts.

## Main definitions

* `trail` — the events of a job, in the order of their ids.
* `Follows` — a path of states agrees with a job row and its attempts.
* `LogInv` — the trail of every job follows it.

## Main results

* `LogInv.effect` — every change keeps the log faithful.
* `faithful_history` — the log of a run, and the requests that add nothing to it.
-/

namespace GreyQueue

open Lib

/-! ## Rewritten attempts -/

/-- Overwriting one attempt of a list moves a count by what it says of that attempt. -/
theorem countP_replaced {l : List Attempt} {a b : Attempt} (p : Attempt → Bool)
    (hnodup : (l.map Attempt.id).Nodup) (ha : a ∈ l) (hid : b.id = a.id) :
    (replaced l b).countP p + (if p a then 1 else 0) =
      l.countP p + if p b then 1 else 0 := by
  induction l with
  | nil => simp at ha
  | cons x l ih =>
      rw [List.map_cons, List.nodup_cons] at hnodup
      by_cases hx : x.id = a.id
      · -- the other attempts have other ids
        obtain rfl : x = a := by
          rcases List.mem_cons.mp ha with h | h
          · exact h.symm
          · exact absurd (hx ▸ List.mem_map_of_mem h) hnodup.1
        have hrest : replaced l b = l := by
          refine (List.map_congr_left fun y hy => if_neg ?_).trans (List.map_id l)
          rw [hid]
          exact fun h => hnodup.1 (h ▸ List.mem_map_of_mem hy)
        have hcons : replaced (x :: l) b = b :: replaced l b := by simp [replaced, hid]
        rw [hcons, hrest, List.countP_cons, List.countP_cons]
        omega
      · have hmem : a ∈ l := by
          rcases List.mem_cons.mp ha with rfl | h
          · exact absurd rfl hx
          · exact h
        have hcons : replaced (x :: l) b = x :: replaced l b := by simp [replaced, hid, hx]
        have := ih hnodup.2 hmem
        rw [hcons, List.countP_cons, List.countP_cons]
        omega

theorem nodup_attemptsOf (t : Table Attempt) (k : Uuid) :
    ((attemptsOf t k).map Attempt.id).Nodup :=
  (List.filter_sublist.map Attempt.id).nodup t.nodup

/-! ## One job -/

/-- The events of a job, in the order of their ids. -/
def trail (db : Database) (jobId : Uuid) : List EventState :=
  (db.events.filter fun e => decide (e.jobId = jobId)).map Event.state

/-- The attempt ended `FAILED` or `LEASE_EXPIRED`. -/
def Attempt.lost (a : Attempt) : Bool :=
  decide (a.outcome = some .failed) || decide (a.outcome = some .leaseExpired)

/-- The attempt is the one whose failure ended the job. -/
def Job.endedBy (job : Job) (a : Attempt) : Bool :=
  (decide (job.status = .failed) || decide (job.status = .deadLetter)) &&
    decide (a.fence = job.attemptCount)

/-- The attempt failed or expired without making the job terminal. -/
def Job.retried (job : Job) (a : Attempt) : Bool := a.lost && !job.endedBy a

/-- A path of states agrees with a job row and its attempts. -/
structure Follows (job : Job) (attempts : List Attempt) (states : List Status) : Prop where
  queued : states.head? = some .queued
  chain : states.IsChain fun s t => t ∈ transitions s
  last : states.getLast? = some job.status
  leased : states.count .leased = job.attemptCount
  running : states.count .running = attempts.countP fun a => a.startedAt.isSome
  retryWait : states.count .retryWait = attempts.countP job.retried

namespace Follows

variable {job job' : Job} {l l' : List Attempt} {states : List Status}

/-- A job that is admitted is queued. -/
theorem new (hq : job.status = .queued) (hc : job.attemptCount = 0) :
    Follows job [] [.queued] where
  queued := rfl
  chain := .singleton _
  last := by simp [hq]
  leased := by simp [hc]
  running := by simp
  retryWait := by simp

/-- A transition appends its state; the counts move with it. -/
theorem enter (h : Follows job l states) {s : Status} (hs : s ∈ transitions job.status)
    (hstatus : job'.status = s)
    (hcount : job'.attemptCount = job.attemptCount + if s = .leased then 1 else 0)
    (hstarted : (l'.countP fun a => a.startedAt.isSome) =
      (l.countP fun a => a.startedAt.isSome) + if s = .running then 1 else 0)
    (hretried : l'.countP job'.retried =
      l.countP job.retried + if s = .retryWait then 1 else 0) :
    Follows job' l' (states ++ [s]) := by
  have hsome := h.queued
  have hne : states ≠ [] := by rintro rfl; simp at hsome
  have hcnt : ∀ t : Status, (states ++ [s]).count t = states.count t + if s = t then 1 else 0 := by
    intro t
    simp [List.count_append, List.count_singleton]
  refine ⟨?_, ?_, by simp [hstatus], ?_, ?_, ?_⟩
  · rw [List.head?_append, hsome]; rfl
  · refine List.isChain_append.mpr ⟨h.chain, .singleton _, ?_⟩
    intro x hx y hy
    rw [h.last, Option.mem_some_iff] at hx
    simp only [List.head?_cons, Option.mem_some_iff] at hy
    rw [← hx, ← hy]
    exact hs
  · rw [hcnt, h.leased, hcount]
  · rw [hcnt, h.running, hstarted]
  · rw [hcnt, h.retryWait, hretried]

/-- An attempt that is rewritten without a transition. -/
theorem rewrite (h : Follows job l states)
    (hstarted : (l'.countP fun a => a.startedAt.isSome) = l.countP fun a => a.startedAt.isSome)
    (hretried : l'.countP job.retried = l.countP job.retried) : Follows job l' states :=
  ⟨h.queued, h.chain, h.last, h.leased, h.running.trans hstarted.symm,
    h.retryWait.trans hretried.symm⟩

end Follows

/-- While a failure has not ended the job, every lost attempt was retried. -/
theorem Job.retried_eq_lost {job : Job} (hf : job.status ≠ .failed) (hd : job.status ≠ .deadLetter)
    (a : Attempt) : job.retried a = a.lost := by
  simp [Job.retried, Job.endedBy, hf, hd]

theorem Attempt.Pending.not_lost {a : Attempt} (h : a.Pending) : a.lost = false := by
  simp [Attempt.lost, h.2.1]

/-- A transition of a held job changes the part of none of its attempts in the history. -/
theorem JobInv.retried_move {job job' : Job} {l : List Attempt} {r : Option Result}
    (hi : JobInv job l r) {a x : Attempt} (ha : a ∈ l) (hopen : a.finishedAt = none)
    (hcount : job'.attemptCount = job.attemptCount) (hx : x ∈ l) :
    job'.retried x = job.retried x := by
  obtain ⟨hfence, -, hpend, -⟩ := hi.of_open ha hopen
  by_cases hxa : x = a
  · rw [hxa]
    simp [Job.retried, hpend.not_lost]
  · have hne : x.fence ≠ job.attemptCount := by
      rw [← hfence]
      exact fun heq => hxa (hi.eq_of_fence hx ha heq)
    simp [Job.retried, Job.endedBy, hcount, hne]

/-- The open attempt of a job is rewritten with a transition of the job. -/
theorem Follows.move {job job' : Job} {l : List Attempt} {r : Option Result}
    {states : List Status} (h : Follows job l states) (hi : JobInv job l r)
    (hnodup : (l.map Attempt.id).Nodup) {a b : Attempt} (ha : a ∈ l) (hopen : a.finishedAt = none)
    (hid : b.id = a.id) {s : Status} (hs : s ∈ transitions job.status)
    (hstatus : job'.status = s) (hcount : job'.attemptCount = job.attemptCount)
    (hleased : s ≠ .leased)
    (hfirst : s = .running → a.startedAt.isSome = false)
    (hstarted : b.startedAt.isSome = (a.startedAt.isSome || decide (s = .running)))
    (hretried : job'.retried b = decide (s = .retryWait)) :
    Follows job' (replaced l b) (states ++ [s]) := by
  obtain ⟨-, -, hpend, -⟩ := hi.of_open ha hopen
  refine h.enter hs hstatus (by simp [hcount, hleased]) ?_ ?_
  · have hmoved := countP_replaced (fun x => x.startedAt.isSome) hnodup ha hid
    simp only [hstarted] at hmoved
    by_cases hr : s = .running
    · simp only [hr, hfirst hr, decide_true, Bool.or_true, Bool.false_eq_true, if_true,
        if_false] at hmoved ⊢
      omega
    · simp only [hr, decide_false, Bool.or_false, if_false] at hmoved ⊢
      omega
  · have hsame : l.countP job'.retried = l.countP job.retried :=
      List.countP_congr fun x hx => by rw [hi.retried_move ha hopen hcount hx]
    have hmoved := countP_replaced job'.retried hnodup ha hid
    have hnot : job'.retried a = false := by simp [Job.retried, hpend.not_lost]
    rw [hretried, hnot] at hmoved
    by_cases hr : s = .retryWait
    · simp [hr] at hmoved ⊢
      omega
    · simp [hr] at hmoved ⊢
      omega

/-! ## The database -/

/-- The trail of a job is its path. -/
def Recorded (db : Database) (job : Job) : Prop :=
  ∃ states : List Status, trail db job.id = .submitted :: states.map .entered ∧
    Follows job (attemptsOf db.attempts job.id) states

/-- The trail of every job follows it, and no event is of another job. -/
structure LogInv (db : Database) : Prop where
  job : ∀ job, db.jobs.find? job.id = some job → Recorded db job
  event_job : ∀ e ∈ db.events, ∃ job, db.jobs.find? e.jobId = some job

theorem trail_append {db db' : Database} {m : List Event} (h : db'.events = db.events ++ m)
    (k : Uuid) :
    trail db' k = trail db k ++ (m.filter fun e => decide (e.jobId = k)).map Event.state := by
  simp [trail, h]

/-- A state occurs in the trail as often as on the path. -/
theorem count_trail {db : Database} {k : Uuid} {states : List Status}
    (h : trail db k = .submitted :: states.map .entered) (s : Status) :
    (trail db k).count (.entered s) = states.count s := by
  have hinj : Function.Injective EventState.entered := fun _ _ h => EventState.entered.inj h
  rw [h, List.count_cons_of_ne (by simp), List.count_map_of_injective _ _ hinj]

namespace LogInv

variable {db db' : Database}

theorem empty : LogInv {} := ⟨fun _ h => by simp at h, fun _ h => by simp at h⟩

/-- A change that touches no job, no attempt and no event. -/
theorem congr (h : LogInv db) (hj : db'.jobs = db.jobs) (ha : db'.attempts = db.attempts)
    (he : db'.events = db.events) : LogInv db' where
  job := by
    intro job hrow
    rw [hj] at hrow
    obtain ⟨states, htrail, hfollows⟩ := h.job job hrow
    exact ⟨states, by rw [trail, he]; exact htrail, by rw [ha]; exact hfollows⟩
  event_job := by rw [he, hj]; exact h.event_job

/-- One job makes a transition; the others and their attempts are left alone. -/
theorem enter (h : LogInv db) {job : Job} (job' : Job) {s : Status} {e : Event}
    (hrow : db.jobs.find? job.id = some job) (hid : job'.id = job.id)
    (hjobs : db'.jobs = db.jobs.put job') (hevents : db'.events = db.events ++ [e])
    (hej : e.jobId = job.id) (hes : e.state = .entered s)
    (hothers : ∀ k, k ≠ job.id → attemptsOf db'.attempts k = attemptsOf db.attempts k)
    (hfollows : ∀ states, Follows job (attemptsOf db.attempts job.id) states →
      Follows job' (attemptsOf db'.attempts job.id) (states ++ [s])) : LogInv db' where
  job := by
    intro j hj
    rw [hjobs] at hj
    by_cases hjk : j.id = job.id
    · obtain rfl : j = job' := by
        have hput : (db.jobs.put job').find? job'.id = some job' :=
          Table.find?_put_self (r := job') (hid ▸ hrow)
        rw [hjk, ← hid] at hj
        exact Option.some.inj (hj.symm.trans hput)
      obtain ⟨states, htrail, hf⟩ := h.job job hrow
      refine ⟨states ++ [s], ?_, hid ▸ hfollows states hf⟩
      rw [trail_append hevents, hid, htrail]
      simp [hej, hes]
    · have hne : job'.id ≠ j.id := hid ▸ Ne.symm hjk
      obtain ⟨states, htrail, hf⟩ := h.job j ((Table.find?_put_ne _ hne).symm.trans hj)
      refine ⟨states, ?_, hothers _ hjk ▸ hf⟩
      rw [trail_append hevents, htrail]
      simp [hej, Ne.symm hjk]
  event_job := by
    intro x hx
    rw [hevents] at hx
    rw [hjobs]
    rcases List.mem_append.mp hx with hx | hx
    · exact Table.exists_find?_put job' (h.event_job x hx)
    · rw [List.mem_singleton.mp hx, hej]
      exact Table.exists_find?_put job' ⟨job, hrow⟩

/-- A job is admitted: its first two events are its whole trail. -/
theorem admitted (h : LogInv db) (hinv : Inv db) {job : Job} {now now' : Time}
    (hfresh : db.jobs.find? job.id = none) (hq : job.status = .queued)
    (hc : job.attemptCount = 0) (hjobs : db'.jobs = db.jobs.add job)
    (hattempts : db'.attempts = db.attempts)
    (hevents : db'.events =
      db.events ++ [⟨job.id, .submitted, now⟩, ⟨job.id, .entered .queued, now'⟩]) :
    LogInv db' where
  job := by
    intro j hj
    rw [hjobs] at hj
    by_cases hjk : job.id = j.id
    · obtain rfl : j = job := by
        rw [← hjk] at hj
        exact Option.some.inj (hj.symm.trans (Table.find?_add_self hfresh))
      have htrail : trail db j.id = [] := by
        rw [trail, List.map_eq_nil_iff, List.filter_eq_nil_iff]
        intro e he hej
        obtain ⟨k, hk⟩ := h.event_job e he
        rw [of_decide_eq_true hej, hfresh] at hk
        cases hk
      have hnone : attemptsOf db'.attempts j.id = [] := by
        rw [hattempts, attemptsOf, List.filter_eq_nil_iff]
        intro a ha haj
        obtain ⟨k, hk⟩ := hinv.attempt_job a ha
        rw [of_decide_eq_true haj, hfresh] at hk
        cases hk
      refine ⟨[.queued], ?_, ?_⟩
      · rw [trail_append hevents, htrail]
        simp
      · rw [hnone]
        exact .new hq hc
    · obtain ⟨states, htrail, hf⟩ := h.job j ((Table.find?_add_ne _ hjk).symm.trans hj)
      refine ⟨states, ?_, hattempts ▸ hf⟩
      rw [trail_append hevents, htrail]
      simp [hjk]
  event_job := by
    intro e he
    rw [hevents] at he
    rw [hjobs]
    rcases List.mem_append.mp he with he | he
    · obtain ⟨k, hk⟩ := h.event_job e he
      refine ⟨k, (Table.find?_add_ne _ ?_).trans hk⟩
      intro hid
      rw [← hid] at hk
      rw [key_job, hfresh] at hk
      cases hk
    · have hej : e.jobId = job.id := by
        simp only [List.mem_cons, List.not_mem_nil, or_false] at he
        rcases he with rfl | rfl <;> rfl
      rw [hej]
      exact ⟨job, Table.find?_add_self hfresh⟩

/-- A held attempt is rewritten with a transition of its job. -/
theorem move (h : LogInv db) (hinv : Inv db) {job : Job} (job' : Job) {a b : Attempt} {s : Status}
    {st : Stamp} (hold : Holds db job a) (hid : job'.id = job.id)
    (hjobs : db'.jobs = db.jobs.put job') (hattempts : db'.attempts = db.attempts.put b)
    (hevents : db'.events = db.events ++ [entered job s st])
    (hb : b.id = a.id ∧ b.jobId = a.jobId) (hs : s ∈ transitions job.status)
    (hstatus : job'.status = s) (hcount : job'.attemptCount = job.attemptCount)
    (hleased : s ≠ .leased)
    (hfirst : s = .running → a.startedAt.isSome = false)
    (hstarted : b.startedAt.isSome = (a.startedAt.isSome || decide (s = .running)))
    (hretried : job'.retried b = decide (s = .retryWait)) : LogInv db' := by
  obtain ⟨hi, hmem, -⟩ := hinv.holds hold
  refine h.enter job' hold.job_row hid hjobs hevents rfl rfl ?_ ?_
  · intro k hk
    rw [hattempts]
    exact attemptsOf_put_ne hold.attempt_row hb.1 hb.2 (hold.attempt_job ▸ Ne.symm hk)
  · intro states hf
    rw [hattempts, attemptsOf_put hold.attempt_row hb.1 hb.2]
    exact hf.move hi (nodup_attemptsOf _ _) hmem hold.is_open hb.1 hs hstatus hcount hleased
      hfirst hstarted hretried

/-- Every change keeps the log faithful. -/
theorem effect (h : LogInv db) (hinv : Inv db) {c : Change} (hg : c.guard db) :
    LogInv (c.effect db) := by
  cases c with
  | admitted job q n t t' => exact h.admitted hinv hg.fresh hg.queued hg.no_attempts rfl rfl rfl
  | lease w job a t s =>
      have hwait := (claimable_iff.mp hg.ready).1
      have hlive := Status.live_of_waiting hwait
      refine h.enter (job.leased s) hg.job_row rfl rfl rfl rfl rfl ?_ ?_
      · intro k hk
        have hne : a.jobId ≠ k := hg.attempt_job ▸ Ne.symm hk
        simp [Change.effect, attemptsOf_add hg.fresh, hne]
      · intro states hf
        have hattempts : attemptsOf (db.attempts.add a) job.id =
            attemptsOf db.attempts job.id ++ [a] := by
          rw [attemptsOf_add hg.fresh, if_pos hg.attempt_job]
        obtain ⟨-, hstarted, houtcome, -⟩ := hg.is_new
        have hlost : a.lost = false := by simp [Attempt.lost, houtcome]
        change Follows _ (attemptsOf (db.attempts.add a) job.id) _
        rw [hattempts]
        refine hf.enter ?_ rfl rfl ?_ ?_
        · exact Status.leased_mem hwait
        · simp [hstarted]
        · rw [List.countP_append, List.countP_singleton, Job.retried, hlost]
          simp only [Bool.false_and, Bool.false_eq_true, if_false, reduceCtorEq]
          refine List.countP_congr fun x _ => ?_
          rw [Job.retried_eq_lost hlive.1 hlive.2, Job.retried_eq_lost] <;>
            simp [Job.leased, Job.enter]
  | start job a t s =>
      have hnone : a.startedAt.isSome = false := by
        obtain ⟨-, -, -, -, -, hiff⟩ := hinv.holds hg.1
        rw [hg.2.2] at hiff
        simpa using hiff
      obtain ⟨-, -, -, -, hpend, -⟩ := hinv.holds hg.1
      refine h.move hinv (job.enter .running s) hg.1
        (b := { a with startedAt := some t }) rfl rfl rfl rfl ⟨rfl, rfl⟩
        (by simp [hg.2.2, transitions]) rfl rfl (by simp) (fun _ => hnone) (by simp) ?_
      simp [Job.retried, Attempt.lost, hpend.2.1]
  | renew job a e =>
      have hrow := hg.1.attempt_row
      refine ⟨fun j hj => ?_, h.event_job⟩
      obtain ⟨states, htrail, hf⟩ := h.job j hj
      refine ⟨states, htrail, ?_⟩
      change Follows j (attemptsOf (db.attempts.put { a with expiresAt := e }) j.id) states
      by_cases hjk : a.jobId = j.id
      · rw [attemptsOf_put (b := { a with expiresAt := e }) hrow rfl rfl]
        have hmem := mem_attemptsOf.mpr ⟨Table.mem_of_find? hrow, hjk⟩
        have hcounts := fun p => countP_replaced (b := { a with expiresAt := e }) p
          (nodup_attemptsOf db.attempts j.id) hmem rfl
        refine hf.rewrite ?_ ?_
        · have := hcounts fun x => x.startedAt.isSome
          simpa using this
        · have := hcounts j.retried
          simpa [Job.retried, Job.endedBy, Attempt.lost] using this
      · rw [attemptsOf_put_ne (b := { a with expiresAt := e }) hrow rfl rfl hjk]
        exact hf
  | succeed job a o t s =>
      refine h.move hinv (job.enter .succeeded s) hg.1 (b := a.deliver o t) rfl rfl rfl rfl
        ⟨rfl, rfl⟩ (by simp [hg.2.2.1, transitions]) rfl rfl (by simp) (by simp)
        (by simp [Attempt.deliver]) ?_
      simp [Job.retried, Attempt.lost, Attempt.deliver]
  | retry job a o e t t' s =>
      refine h.move hinv (Job.enter { job with availableAt := t' } .retryWait s) hg.1
        (b := a.close o e t) rfl rfl rfl rfl ⟨rfl, rfl⟩ ?_ rfl rfl (by simp) (by simp)
        (by simp [Attempt.close]) ?_
      · obtain ⟨-, hheld, -⟩ := hg
        cases hst : job.status <;> simp_all [Status.held, transitions]
      · obtain ⟨-, -, -, hout, -⟩ := hg
        cases o <;> simp_all [Job.retried, Job.endedBy, Attempt.lost, Attempt.close, Job.enter]
  | fail job a o e r t s =>
      obtain ⟨hold, hheld, hmax, hret, hout, hrun, hres⟩ := hg
      obtain ⟨-, -, hfence, -⟩ := hinv.holds hold
      refine h.move hinv (job.enter (if r then .deadLetter else .failed) s) hold
        (b := a.close o e t) rfl rfl rfl rfl ⟨rfl, rfl⟩ ?_ rfl rfl ?_ ?_ ?_ ?_
      · cases r with
        | true => cases hst : job.status <;> simp_all [Status.held, transitions]
        | false => simp [hrun (hret rfl), transitions]
      · cases r <;> simp
      · cases r <;> simp
      · cases r <;> simp [Attempt.close]
      · cases r <;> simp [Job.retried, Job.endedBy, Attempt.close, Job.enter, hfence]
  | cancel job s =>
      obtain ⟨hrow, hwait⟩ := hg
      have hlive := Status.live_of_waiting hwait
      refine h.enter (job.enter .cancelled s) hrow rfl rfl rfl rfl rfl (fun _ _ => rfl) ?_
      intro states hf
      refine hf.enter ?_ rfl rfl rfl ?_
      · exact Status.cancelled_mem hwait
      · simp only [reduceCtorEq, if_false]
        refine List.countP_congr fun x _ => ?_
        rw [Job.retried_eq_lost hlive.1 hlive.2, Job.retried_eq_lost] <;> simp [Job.enter]
  | enroll | seen | drain | takeover | mark | log => exact h.congr rfl rfl rfl

end LogInv

/-! ## Runs -/

variable [Sha256]

theorem run_logInv (txns : List Txn) : LogInv (run txns) :=
  (run_invariant .empty (fun _ _ hinv hg h => h.effect hinv hg) txns).2

/-- A request repeats one that took effect: its key or claim id is in use, its attempt has
started or is finished, or its job is cancelled. -/
def Repeats (db : Database) : Request → Prop
  | .submit body => ∃ key, body.idempotencyKey = some key ∧
      ∃ job ∈ db.jobs.rows, job.idempotencyKey = some key
  | .claim body _ => ∃ a ∈ db.attempts.rows, a.claimId = body.claimId
  | .start _ body _ => ∃ a, db.attempts.find? body.token = some a ∧ a.startedAt.isSome = true
  | .finish _ body _ => ∃ a, db.attempts.find? body.token = some a ∧ a.finishedAt.isSome = true
  | .cancel jobId => ∃ job, db.jobs.find? jobId = some job ∧ job.status = .cancelled
  | _ => False

/-- A transaction none of whose changes is enabled changes nothing. -/
theorem commit_disabled {db : Database} (hinv : Inv db) {t : Txn}
    (h : ∀ c, Allowed t.config t.request c → ¬ c.guard db) : commit db t = db := by
  obtain ⟨cs, hp, hall, heq, -⟩ := commit_changes hinv t
  cases cs with
  | nil => exact heq
  | cons c cs => exact absurd hp.1 (h c (hall c List.mem_cons_self))

/-- A repeated request changes nothing. -/
theorem commit_repeats {db : Database} (hinv : Inv db) {t : Txn} (h : Repeats db t.request) :
    commit db t = db := by
  refine commit_disabled hinv fun c hc hg => ?_
  cases hreq : t.request with
  | submit body =>
      rw [hreq] at h hc
      obtain ⟨key, hkey, job, hjob, hjk⟩ := h
      cases c with
      | admitted j q n now now' =>
          obtain ⟨-, -, id, args, d, τ, -, -, rfl⟩ := hc
          exact hg.key_fresh key hkey job hjob hjk
      | _ => exact hc
  | claim body credential =>
      rw [hreq] at h hc
      obtain ⟨a, ha, hac⟩ := h
      cases c with
      | lease w j b τ s => exact hg.claim_fresh a ha (hac.trans hc.2.2.symm)
      | _ => exact hc
  | start jobId body credential =>
      rw [hreq] at h hc
      obtain ⟨a, ha, hs⟩ := h
      cases c with
      | start j b τ s =>
          obtain ⟨-, -, -, -, -, hiff⟩ := hinv.holds hg.1
          have hb := hg.1.attempt_row
          rw [hc.2.1, ha, Option.some.injEq] at hb
          have hrun := hiff.mp (hb ▸ hs)
          rw [hg.2.2] at hrun
          cases hrun
      | _ => exact hc
  | finish jobId body credential =>
      rw [hreq] at h hc
      obtain ⟨a, ha, hfin⟩ := h
      -- whatever a finish does, it does to an open attempt
      have hopen : ∀ {j b}, Holds db j b → b.id = body.token → False := by
        intro j b hold hid
        have hb := hold.attempt_row
        rw [hid, ha, Option.some.injEq] at hb
        rw [hb, hold.is_open] at hfin
        cases hfin
      cases c with
      | succeed j b o τ s => exact hopen hg.1 hc.1.2.1
      | retry j b o e τ τ' s => exact hopen hg.1 hc.1.2.1
      | fail j b o e r τ s => exact hopen hg.1 hc.1.2.1
      | _ => exact hc
  | cancel jobId =>
      rw [hreq] at h hc
      obtain ⟨job, hjob, hs⟩ := h
      cases c with
      | cancel j s =>
          have hj := hg.1
          rw [show j.id = jobId from hc, hjob, Option.some.injEq] at hj
          have hwait := hg.2
          rw [← hj, hs] at hwait
          cases hwait
      | _ => exact hc
  | _ => rw [hreq] at h; exact h

/-- **The event log is a faithful history.** In every reachable state, the events of a job
are its submission, its queueing and one transition after the other, up to its present
state; its leases, starts and retries are counted in the log as they are in its attempts.
A repeated request adds nothing. -/
theorem faithful_history (txns : List Txn) :
    (∀ job ∈ (run txns).jobs.rows, ∃ states : List Status,
      trail (run txns) job.id = .submitted :: .entered .queued :: states.map .entered ∧
      (Status.queued :: states).IsChain (fun s t => t ∈ transitions s) ∧
      (trail (run txns) job.id).getLast? = some (.entered job.status) ∧
      (trail (run txns) job.id).count (.entered .leased) = job.attemptCount ∧
      (trail (run txns) job.id).count (.entered .running) =
        (attemptsOf (run txns).attempts job.id).countP (fun a => a.startedAt.isSome) ∧
      (trail (run txns) job.id).count (.entered .retryWait) =
        (attemptsOf (run txns).attempts job.id).countP fun a =>
          decide (a.outcome = some .failed ∨ a.outcome = some .leaseExpired) &&
            !decide ((job.status = .failed ∨ job.status = .deadLetter) ∧
              a.fence = job.attemptCount)) ∧
    ∀ t : Txn, Repeats (run txns) t.request →
      (commit (run txns) t).events = (run txns).events := by
  refine ⟨fun job hjob => ?_, fun t ht => by rw [commit_repeats (run_inv txns) ht]⟩
  obtain ⟨states, htrail, hf⟩ := (run_logInv txns).job job (Table.find?_of_mem hjob)
  have hqueued := hf.queued
  obtain ⟨rest, rfl⟩ : ∃ rest, states = .queued :: rest := by
    cases states with
    | nil => cases hqueued
    | cons s rest =>
        rw [List.head?_cons, Option.some.injEq] at hqueued
        exact ⟨rest, by rw [hqueued]⟩
  refine ⟨rest, htrail, hf.chain, ?_, ?_, ?_, ?_⟩
  · have hlast : ((Status.queued :: rest).map EventState.entered).getLast? =
        some (.entered job.status) := by
      rw [List.getLast?_map, hf.last]
      rfl
    rw [htrail, List.map_cons, List.getLast?_cons_cons]
    exact hlast
  · rw [count_trail htrail]
    exact hf.leased
  · rw [count_trail htrail]
    exact hf.running
  · rw [count_trail htrail, hf.retryWait]
    refine List.countP_congr fun a _ => ?_
    simp [Job.retried, Attempt.lost, Job.endedBy]

end GreyQueue
