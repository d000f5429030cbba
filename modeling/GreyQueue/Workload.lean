import GreyQueue.Lib.WorkQueue
import GreyQueue.History

/-!
# The queue that the database implements

Without clocks, owners and payloads a job is a piece of retried work, and the database is a
queue of such work.  Every change makes steps of that queue, and the events it logs are
exactly these steps.

## Main definitions

* `Database.queue` — the queue in a database.
* `Change.moves` — the steps that a change makes.
* `Request.Moves` — the steps that a request may make.

## Main results

* `effect_queue` — a change makes its steps, each enabled where it is made.
* `refines_work_queue` — so does a run, and its event log is the trace of the queue.
* `work_bounded`, `work_settles` — only admissions keep the queue going.
-/

namespace GreyQueue

open Lib

/-- A job as a piece of work: the attempts left after those that were made. -/
def Job.work (job : Job) : Work :=
  match job.status with
  | .queued | .retryWait => .waiting (job.maxRetries + 1 - job.attemptCount)
  | .leased => .taken (job.maxRetries + 1 - job.attemptCount)
  | .running => .begun (job.maxRetries + 1 - job.attemptCount)
  | .succeeded => .done .complete
  | .failed => .done .abort
  | .deadLetter => .done .exhaust
  | .cancelled => .done .drop

/-- The queue in a database. -/
def Database.queue (db : Database) (k : Uuid) : Option Work := (db.jobs.find? k).map Job.work

/-- The steps of the queue that a change makes. -/
def Change.moves : Change → List (Move Uuid)
  | .admitted job _ _ _ _ => [.add job.id (job.maxRetries + 1)]
  | .lease _ job _ _ _ => [.deed job.id .take]
  | .start job _ _ _ => [.deed job.id .start]
  | .succeed job _ _ _ _ => [.deed job.id .complete]
  | .retry job _ _ _ _ _ _ => [.deed job.id .giveBack]
  | .fail job _ _ _ retryable _ _ => [.deed job.id (if retryable then .exhaust else .abort)]
  | .cancel job _ => [.deed job.id .drop]
  | _ => []

/-- The state that a job enters by a deed. -/
def deedState : Deed → Status
  | .take => .leased
  | .start => .running
  | .giveBack => .retryWait
  | .exhaust => .deadLetter
  | .abort => .failed
  | .complete => .succeeded
  | .drop => .cancelled

/-- What the event log says of a step. -/
def moveEvents : Move Uuid → List (Uuid × EventState)
  | .add k _ => [(k, .submitted), (k, .entered .queued)]
  | .deed k d => [(k, .entered (deedState d))]

/-- What the events of a database say, in the order of their ids. -/
def Database.history (db : Database) : List (Uuid × EventState) :=
  db.events.map fun e => (e.jobId, e.state)

/-- The steps that a request may make. -/
def Request.Moves : Request → Move Uuid → Prop
  | .submit body, .add _ left => left = body.maxRetries + 1
  | .cancel jobId, .deed k d => k = jobId ∧ d = .drop
  | .claim _ _, .deed _ d => d = .take
  | .start jobId _ _, .deed k d => k = jobId ∧ d = .start
  | .finish jobId body _, .deed k d => k = jobId ∧
      if body.error.isNone then d = .complete
      else if body.retryable then d = .giveBack ∨ d = .exhaust else d = .abort
  | .recoverJobs _, .deed _ d => d = .giveBack ∨ d = .exhaust ∨ d = .drop
  | _, _ => False

/-! ## Changes -/

variable {db : Database}

/-- A rewritten job changes the queue under its own key. -/
theorem queue_put {db' : Database} {job : Job} (job' : Job) (hid : job'.id = job.id)
    (hrow : db.jobs.find? job.id = some job) (hjobs : db'.jobs = db.jobs.put job') :
    db'.queue = Function.update db.queue job.id (some job'.work) := by
  funext k
  rw [Database.queue, hjobs]
  by_cases hk : k = job.id
  · subst hk
    have hput : (db.jobs.put job').find? job'.id = some job' :=
      Table.find?_put_self (r := job') (hid ▸ hrow)
    rw [← hid, hput, hid, Function.update_self]
    rfl
  · have hne : job'.id ≠ k := fun h => hk (h.symm.trans hid)
    rw [Function.update_of_ne hk, Table.find?_put_ne _ hne]
    rfl

/-- A job that is rewritten makes one step. -/
theorem queue_deed {db' : Database} {job : Job} (job' : Job) {d : Deed} (hid : job'.id = job.id)
    (hrow : db.jobs.find? job.id = some job) (hjobs : db'.jobs = db.jobs.put job')
    (hnext : d.next job.work = some job'.work) :
    (workQueue Uuid).Path [.deed job.id d] db.queue ∧
      db'.queue = (workQueue Uuid).after [.deed job.id d] db.queue := by
  have hq : db.queue job.id = some job.work := by rw [Database.queue, hrow]; rfl
  refine ⟨⟨⟨job.work, job'.work, hq, hnext⟩, trivial⟩, ?_⟩
  rw [queue_put job' hid hrow hjobs]
  change _ = Function.update db.queue job.id ((db.queue job.id).bind d.next)
  rw [hq, Option.bind_some, hnext]

theorem work_of_waiting {job : Job} (h : job.status.waiting = true) :
    job.work = .waiting (job.maxRetries + 1 - job.attemptCount) := by
  cases hs : job.status <;> simp_all [Job.work, Status.waiting]

theorem work_of_held {job : Job} (h : job.status.held = true) :
    job.work = .taken (job.maxRetries + 1 - job.attemptCount) ∨
      job.work = .begun (job.maxRetries + 1 - job.attemptCount) := by
  cases hs : job.status <;> simp_all [Job.work, Status.held]

/-- A change makes its steps, each enabled where it is made. -/
theorem effect_queue (hinv : Inv db) {c : Change} (hg : c.guard db) :
    (workQueue Uuid).Path c.moves db.queue ∧
      (c.effect db).queue = (workQueue Uuid).after c.moves db.queue := by
  cases c with
  | admitted job q n t t' =>
      have hnone : db.queue job.id = none := by rw [Database.queue, hg.fresh]; rfl
      refine ⟨⟨⟨hnone, Nat.succ_pos _⟩, trivial⟩, funext fun k => ?_⟩
      change ((db.jobs.add job).find? k).map Job.work = Function.update db.queue job.id _ k
      have hwork : job.work = .waiting (job.maxRetries + 1) := by
        rw [Job.work, hg.queued, hg.no_attempts]
        rfl
      by_cases hk : k = job.id
      · subst hk
        have hself := Table.find?_add_self (t := db.jobs) (r := job) hg.fresh
        rw [key_job] at hself
        rw [Function.update_self, hself, Option.map_some, hwork]
      · rw [Function.update_of_ne hk, Table.find?_add_ne _ (Ne.symm hk)]
        rfl
  | lease w job a t s =>
      have hwait := (claimable_iff.mp hg.ready).1
      have hle := (hinv.job job hg.job_row).idle_bound (Or.inl hwait)
      refine queue_deed (job.leased s) rfl hg.job_row rfl ?_
      rw [work_of_waiting hwait,
        show job.maxRetries + 1 - job.attemptCount = job.maxRetries - job.attemptCount + 1 by omega]
      change some _ = some (Work.taken (job.maxRetries + 1 - (job.attemptCount + 1)))
      congr 2
      omega
  | start job a t s =>
      refine queue_deed (job.enter .running s) rfl hg.1.job_row rfl ?_
      have hwork : job.work = .taken (job.maxRetries + 1 - job.attemptCount) := by
        rw [Job.work, hg.2.2]
      rw [hwork]
      rfl
  | succeed job a o t s =>
      refine queue_deed (job.enter .succeeded s) rfl hg.1.job_row rfl ?_
      have hwork : job.work = .begun (job.maxRetries + 1 - job.attemptCount) := by
        rw [Job.work, hg.2.2.1]
      rw [hwork]
      rfl
  | retry job a o e t t' s =>
      refine queue_deed (Job.enter { job with availableAt := t' } .retryWait s) rfl
        hg.1.job_row rfl ?_
      have hle := hg.2.2.1
      change _ = some (Work.waiting (job.maxRetries + 1 - job.attemptCount))
      obtain ⟨n, hn⟩ : ∃ n, job.maxRetries + 1 - job.attemptCount = n + 1 :=
        ⟨job.maxRetries - job.attemptCount, by omega⟩
      rcases work_of_held hg.2.1 with h | h <;> rw [h, hn] <;> rfl
  | fail job a o e r t s =>
      refine queue_deed (job.enter (if r then .deadLetter else .failed) s) rfl
        hg.1.job_row rfl ?_
      cases r with
      | true =>
          have hlt := hg.2.2.1 rfl
          have hzero : job.maxRetries + 1 - job.attemptCount = 0 := by omega
          rcases work_of_held hg.2.1 with h | h <;> rw [h, hzero] <;> rfl
      | false =>
          have hrunning := hg.2.2.2.2.2.1 (hg.2.2.2.1 rfl)
          have hwork : job.work = .begun (job.maxRetries + 1 - job.attemptCount) := by
            rw [Job.work, hrunning]
          rw [hwork]
          rfl
  | cancel job s =>
      have hle := (hinv.job job hg.1).idle_bound (Or.inl hg.2)
      refine queue_deed (job.enter .cancelled s) rfl hg.1 rfl ?_
      rw [work_of_waiting hg.2,
        show job.maxRetries + 1 - job.attemptCount = job.maxRetries - job.attemptCount + 1 by omega]
      rfl
  | renew | enroll | seen | drain | takeover | mark | log => exact ⟨trivial, rfl⟩

/-- The events that a change logs are its steps. -/
theorem effect_history (c : Change) (db : Database) :
    (c.effect db).history = db.history ++ c.moves.flatMap moveEvents := by
  cases c with
  | fail job a o e r t s =>
      cases r <;> simp [Change.effect, Change.moves, Database.history, moveEvents, deedState,
        entered]
  | _ => simp [Change.effect, Change.moves, Database.history, moveEvents, deedState, entered]

/-- A request that may make a change may make its steps. -/
theorem Allowed.moves [Sha256] {config : Settings} {request : Request} {c : Change}
    (h : Allowed config request c) {m : Move Uuid} (hm : m ∈ c.moves) : request.Moves m := by
  cases request with
  | submit body =>
      cases c with
      | admitted job q n t t' =>
          obtain ⟨-, -, id, args, d, τ, -, -, rfl⟩ := h
          rw [List.mem_singleton.mp hm]
          rfl
      | _ => simp [Allowed] at h
  | cancel jobId =>
      cases c with
      | cancel job s =>
          rw [List.mem_singleton.mp hm]
          exact ⟨h, rfl⟩
      | _ => simp [Allowed] at h
  | claim body credential =>
      cases c with
      | lease => rw [List.mem_singleton.mp hm]; rfl
      | _ => simp [Allowed] at h
  | start jobId body credential =>
      cases c with
      | start =>
          rw [List.mem_singleton.mp hm]
          exact ⟨h.1, rfl⟩
      | _ => simp [Allowed] at h
  | renew jobId body credential =>
      cases c with
      | renew => simp [Change.moves] at hm
      | _ => simp [Allowed] at h
  | finish jobId body credential =>
      cases c with
      | succeed =>
          obtain ⟨⟨hid, -⟩, he, -⟩ := h
          rw [List.mem_singleton.mp hm]
          exact ⟨hid, by simp [he]⟩
      | retry =>
          obtain ⟨⟨hid, -⟩, he, hr, -⟩ := h
          rw [List.mem_singleton.mp hm]
          exact ⟨hid, by simp [he, hr]⟩
      | fail job a o e r t s =>
          obtain ⟨⟨hid, -⟩, he, rfl, -⟩ := h
          rw [List.mem_singleton.mp hm]
          refine ⟨hid, ?_⟩
          cases body.retryable <;> simp [he]
      | _ => simp [Allowed] at h
  | recoverJobs limit =>
      cases c with
      | retry => rw [List.mem_singleton.mp hm]; exact Or.inl rfl
      | fail job a o e r t s =>
          obtain ⟨-, -, rfl⟩ := h
          rw [List.mem_singleton.mp hm]
          exact Or.inr (Or.inl rfl)
      | cancel => rw [List.mem_singleton.mp hm]; exact Or.inr (Or.inr rfl)
      | log => simp [Change.moves] at hm
      | _ => simp [Allowed] at h
  | drain | register | heartbeat | detectWorkers =>
      cases c <;> simp_all [Allowed, Change.moves]

/-- The attempts that each job is allowed. -/
def Database.allotments (db : Database) : List ℕ := db.jobs.rows.map fun job => job.maxRetries + 1

/-- The attempts that a step allows. -/
def allotment : Move Uuid → Option ℕ
  | .add _ left => some left
  | .deed _ _ => none

/-- The attempts of a job are fixed when it is admitted. -/
theorem effect_allotments {c : Change} (hg : c.guard db) :
    (c.effect db).allotments = db.allotments ++ c.moves.filterMap allotment := by
  have hkept : (∀ job q n t t', c ≠ .admitted job q n t t') →
      (c.effect db).allotments = db.allotments := by
    intro hne
    rcases effect_jobs hg with ⟨job, q, n, t, t', rfl⟩ | ⟨job, job', hrow, -, hl, hjobs⟩ | hjobs
    · exact absurd rfl (hne job q n t t')
    · rw [Database.allotments, hjobs, Table.rows_put, List.map_map]
      refine List.map_congr_left fun x hx => ?_
      simp only [Function.comp]
      split
      · rename_i hkey
        have hid : job'.id = job.id := by rw [hl.1]
        rw [Table.eq_of_key hx (Table.mem_of_find? hrow) (hkey.trans hid), hl.1]
      · rfl
    · rw [Database.allotments, hjobs, Database.allotments]
  cases c with
  | admitted job q n t t' =>
      have hrows : (db.jobs.add job).rows = db.jobs.rows ++ [job] := Table.rows_add hg.fresh
      simp [Change.effect, Change.moves, Database.allotments, hrows, allotment]
  | _ => exact (hkept (by simp)).trans (List.append_nil _).symm

/-- The steps of a list of changes. -/
theorem path_moves {cs : List Change} (hinv : Inv db) (hp : changes.Path cs db) :
    (workQueue Uuid).Path (cs.flatMap Change.moves) db.queue ∧
      (changes.after cs db).queue = (workQueue Uuid).after (cs.flatMap Change.moves) db.queue ∧
      (changes.after cs db).history =
        db.history ++ (cs.flatMap Change.moves).flatMap moveEvents ∧
      (changes.after cs db).allotments =
        db.allotments ++ (cs.flatMap Change.moves).filterMap allotment := by
  induction cs generalizing db with
  | nil => exact ⟨trivial, rfl, by simp, by simp⟩
  | cons c cs ih =>
      obtain ⟨hg, hp⟩ := hp
      obtain ⟨hpath, hqueue⟩ := effect_queue hinv hg
      obtain ⟨hp', hq', hh', ha'⟩ := ih (hinv.effect hg) hp
      rw [hqueue] at hp' hq'
      rw [List.flatMap_cons, Machine.after_cons, changes_effect]
      refine ⟨((workQueue Uuid).path_append _ _ _).mpr ⟨hpath, hp'⟩, ?_, ?_, ?_⟩
      · rw [Machine.after_append]
        exact hq'
      · rw [hh', effect_history, List.flatMap_append, List.append_assoc]
      · rw [ha', effect_allotments hg, List.filterMap_append, List.append_assoc]

/-! ## Runs -/

variable [Sha256]

/-- The steps that a run makes from a state on, transaction by transaction. -/
theorem run_queue (txns more : List Txn) :
    ∃ traces : List (List (Move Uuid)),
      List.Forall₂ (fun t trace => ∀ m ∈ trace, t.request.Moves m) more traces ∧
      (workQueue Uuid).Path traces.flatten (run txns).queue ∧
      (run (txns ++ more)).queue = (workQueue Uuid).after traces.flatten (run txns).queue ∧
      (run (txns ++ more)).history =
        (run txns).history ++ traces.flatten.flatMap moveEvents ∧
      (run (txns ++ more)).allotments =
        (run txns).allotments ++ traces.flatten.filterMap allotment := by
  induction more generalizing txns with
  | nil => exact ⟨[], .nil, trivial, by simp, by simp, by simp⟩
  | cons t more ih =>
      obtain ⟨cs, hpath, hall, heq, -⟩ := commit_changes (run_inv txns) t
      obtain ⟨hmoves, hqueue, hhist, hallot⟩ := path_moves (run_inv txns) hpath
      obtain ⟨traces, hrest, hp, hq, hh, ha⟩ := ih (txns ++ [t])
      rw [run_snoc, heq] at hp hq hh ha
      rw [hqueue] at hp hq
      rw [List.append_assoc, List.singleton_append] at hq hh ha
      refine ⟨cs.flatMap Change.moves :: traces, .cons ?_ hrest, ?_, ?_, ?_, ?_⟩
      · intro m hm
        obtain ⟨c, hc, hm⟩ := List.mem_flatMap.mp hm
        exact (hall c hc).moves hm
      · exact ((workQueue Uuid).path_append _ _ _).mpr ⟨hmoves, hp⟩
      · rw [List.flatten_cons, Machine.after_append]
        exact hq
      · rw [hh, hhist, List.flatten_cons, List.flatMap_append, List.append_assoc]
      · rw [ha, hallot, List.flatten_cons, List.filterMap_append, List.append_assoc]

/-- The database refines the queue of retried work: a run makes steps of the queue, those of
each transaction being steps that its request may make, and its event log is their trace. -/
theorem refines_work_queue (txns more : List Txn) :
    ∃ traces : List (List (Move Uuid)),
      List.Forall₂ (fun t trace => ∀ m ∈ trace, t.request.Moves m) more traces ∧
      (workQueue Uuid).Path traces.flatten (run txns).queue ∧
      (run (txns ++ more)).queue = (workQueue Uuid).after traces.flatten (run txns).queue ∧
      (run (txns ++ more)).history =
        (run txns).history ++ traces.flatten.flatMap moveEvents := by
  obtain ⟨traces, hmoves, hp, hq, hh, -⟩ := run_queue txns more
  exact ⟨traces, hmoves, hp, hq, hh⟩

/-! ## Only admissions keep the queue going -/

/-- The weight of the queue. -/
def Database.weight (db : Database) : ℕ := (db.jobs.rows.map fun job => job.work.weight).sum

/-- The events that the jobs of a database can log, from their admission on. -/
def Database.allowance (db : Database) : ℕ := (db.allotments.map fun n => 3 * n + 2).sum

omit [Sha256] in
/-- A sum over the queue is a sum over the jobs. -/
theorem sum_queue (f : Work → ℕ) {s : Finset Uuid}
    (hs : ∀ job ∈ db.jobs.rows, job.id ∈ s) :
    ∑ k ∈ s, ((db.queue k).map f).getD 0 = (db.jobs.rows.map fun job => f job.work).sum := by
  have hnodup : (db.jobs.rows.map Job.id).Nodup := db.jobs.nodup
  have hsub : (db.jobs.rows.map Job.id).toFinset ⊆ s := by
    intro k hk
    obtain ⟨job, hjob, rfl⟩ := List.mem_map.mp (List.mem_toFinset.mp hk)
    exact hs job hjob
  rw [← Finset.sum_subset hsub, List.sum_toFinset _ hnodup, List.map_map]
  · refine congrArg List.sum (List.map_congr_left fun job hjob => ?_)
    have hrow : db.jobs.find? job.id = some job := Table.find?_of_mem hjob
    simp [Database.queue, hrow]
  · intro k _ hk
    have hnone : db.jobs.find? k = none := by
      rw [Table.find?_eq_none]
      intro job hjob hkey
      exact hk (List.mem_toFinset.mpr (hkey ▸ List.mem_map_of_mem hjob))
    simp [Database.queue, hnone]

omit [Sha256] in
/-- The events of a trace are its deeds and two for each piece of work it adds. -/
theorem length_trace (trace : List (Move Uuid)) :
    (trace.flatMap moveEvents).length + 3 * (trace.map Move.added).sum =
      trace.countP Move.isDeed + ((trace.filterMap allotment).map fun n => 3 * n + 2).sum := by
  induction trace with
  | nil => rfl
  | cons m trace ih =>
      cases m with
      | add k left =>
          simp only [List.flatMap_cons, List.length_append, List.map_cons, List.sum_cons,
            List.countP_cons, List.filterMap_cons, moveEvents, Move.added, Move.isDeed, allotment,
            List.length_cons, List.length_nil, Bool.false_eq_true, if_false]
          omega
      | deed k d =>
          simp only [List.flatMap_cons, List.length_append, List.map_cons, List.sum_cons,
            List.countP_cons, List.filterMap_cons, moveEvents, Move.added, Move.isDeed, allotment,
            List.length_cons, List.length_nil, if_true]
          omega

omit [Sha256] in
/-- The keys of a queue are the ids of its jobs. -/
theorem job_of_queue {db : Database} {k : Uuid} (h : (db.queue k).isSome = true) :
    k ∈ (db.jobs.rows.map Job.id).toFinset := by
  obtain ⟨w, hw⟩ := Option.isSome_iff_exists.mp h
  obtain ⟨job, hjob, -⟩ := Option.map_eq_some_iff.mp hw
  exact List.mem_toFinset.mpr (Table.key_of_find? hjob ▸
    List.mem_map_of_mem (Table.mem_of_find? hjob))

/-- Every event is paid for: with the weight it takes off the queue, or by an admission. -/
theorem work_paid (txns more : List Txn) :
    (run (txns ++ more)).events.length + (run (txns ++ more)).weight + (run txns).allowance ≤
      (run txns).events.length + (run txns).weight + (run (txns ++ more)).allowance := by
  obtain ⟨traces, -, hp, hq, hh, ha⟩ := run_queue txns more
  generalize traces.flatten = trace at hp hq hh ha
  let s := ((run (txns ++ more)).jobs.rows.map Job.id).toFinset
  have hlen := length_trace trace
  have hevents : (run (txns ++ more)).events.length =
      (run txns).events.length + (trace.flatMap moveEvents).length := by
    simpa [Database.history] using congrArg List.length hh
  have hallow : (run (txns ++ more)).allowance = (run txns).allowance +
      ((trace.filterMap allotment).map fun n => 3 * n + 2).sum := by
    simp [Database.allowance, ha]
  have hnow : ∑ k ∈ s, weightAt (run (txns ++ more)).queue k = (run (txns ++ more)).weight :=
    sum_queue Work.weight fun job hjob => List.mem_toFinset.mpr (List.mem_map_of_mem hjob)
  have hbefore : ∑ k ∈ s, weightAt (run txns).queue k = (run txns).weight := by
    refine sum_queue Work.weight fun job hjob => job_of_queue ?_
    have hrow : (run txns).queue job.id = some job.work := by
      have hfind : (run txns).jobs.find? job.id = some job := Table.find?_of_mem hjob
      rw [Database.queue, hfind]
      rfl
    rw [hq]
    exact workQueue_keeps hp (by rw [hrow]; rfl)
  have htotal := workQueue_total_le hp (s := s) fun k hk => job_of_queue (hq ▸ hk)
  rw [← hq, hnow, hbefore] at htotal
  omega

/-- The database after the first transactions of an infinite sequence. -/
def stateAt (ω : ℕ → Txn) (n : ℕ) : Database := run ((List.range n).map ω)

/-- The transactions of a sequence between two positions. -/
theorem stateAt_add (ω : ℕ → Txn) (n k : ℕ) :
    stateAt ω (n + k) = run ((List.range n).map ω ++ (List.range k).map fun i => ω (n + i)) := by
  rw [stateAt, List.range_add, List.map_append, List.map_map]
  rfl

theorem stateAt_events (ω : ℕ → Txn) (n k : ℕ) :
    (stateAt ω n).events <+: (stateAt ω (n + k)).events := by
  rw [stateAt_add]
  exact (run_later _ _).events

/-- Without new jobs an allowance stays what it is. -/
theorem stateAt_allowance {ω : ℕ → Txn} {n k : ℕ}
    (h : (stateAt ω (n + k)).jobs.rows.length = (stateAt ω n).jobs.rows.length) :
    (stateAt ω (n + k)).allowance = (stateAt ω n).allowance := by
  obtain ⟨traces, -, -, -, -, ha⟩ := run_queue ((List.range n).map ω)
    ((List.range k).map fun i => ω (n + i))
  rw [← stateAt_add] at ha
  change (stateAt ω (n + k)).allotments = (stateAt ω n).allotments ++ _ at ha
  have hlen := congrArg List.length ha
  rw [List.length_append, Database.allotments, Database.allotments, List.length_map,
    List.length_map, h] at hlen
  have hnil : traces.flatten.filterMap allotment = [] :=
    List.eq_nil_of_length_eq_zero (by omega)
  rw [Database.allowance, ha, hnil, List.append_nil, Database.allowance]

/-- A queue that logs no event makes no step. -/
theorem stateAt_queue {ω : ℕ → Txn} {n k : ℕ}
    (h : (stateAt ω (n + k)).events = (stateAt ω n).events) :
    (stateAt ω (n + k)).queue = (stateAt ω n).queue := by
  obtain ⟨traces, -, -, hq, hh, -⟩ := run_queue ((List.range n).map ω)
    ((List.range k).map fun i => ω (n + i))
  rw [← stateAt_add] at hq hh
  change (stateAt ω (n + k)).history = (stateAt ω n).history ++ _ at hh
  rw [Database.history, h, Database.history] at hh
  have hnil : traces.flatten.flatMap moveEvents = [] := List.append_right_eq_self.mp hh.symm
  have hnone : traces.flatten = [] := by
    refine List.eq_nil_iff_forall_not_mem.mpr fun m hm => ?_
    have hm := List.flatMap_eq_nil_iff.mp hnil m hm
    cases m <;> simp [moveEvents] at hm
  rw [hq, hnone]
  rfl

/-- Every sequence of transactions that stops admitting jobs comes to rest: it logs no more
events than the queue weighs, and from some point on every job stays as it is. -/
theorem work_settles (ω : ℕ → Txn) (N : ℕ)
    (hN : ∀ k, (stateAt ω (N + k)).jobs.rows.length = (stateAt ω N).jobs.rows.length) :
    (∀ k, (stateAt ω (N + k)).events.length ≤ (stateAt ω N).events.length + (stateAt ω N).weight) ∧
      ∃ M, ∀ k, (stateAt ω (M + k)).events = (stateAt ω M).events ∧
        (stateAt ω (M + k)).queue = (stateAt ω M).queue := by
  have hbound : ∀ k, (stateAt ω (N + k)).events.length ≤
      (stateAt ω N).events.length + (stateAt ω N).weight := by
    intro k
    have hpaid := work_paid ((List.range N).map ω) ((List.range k).map fun i => ω (N + i))
    rw [← stateAt_add] at hpaid
    change (stateAt ω (N + k)).events.length + (stateAt ω (N + k)).weight +
      (stateAt ω N).allowance ≤ (stateAt ω N).events.length + (stateAt ω N).weight +
      (stateAt ω (N + k)).allowance at hpaid
    rw [stateAt_allowance (hN k)] at hpaid
    omega
  refine ⟨hbound, ?_⟩
  -- the room that is left under the bound has a least value
  let room : ℕ → ℕ := fun k =>
    (stateAt ω N).events.length + (stateAt ω N).weight - (stateAt ω (N + k)).events.length
  obtain ⟨k₀, hleast⟩ : ∃ k₀, ∀ k, room k₀ ≤ room k :=
    ⟨Function.argmin room, fun k => Function.argmin_le room k⟩
  have hevents : ∀ k, (stateAt ω (N + k₀ + k)).events = (stateAt ω (N + k₀)).events := by
    intro k
    have hpre := stateAt_events ω (N + k₀) k
    refine (hpre.eq_of_length_le ?_).symm
    have hle := hleast (k₀ + k)
    have hb := hbound (k₀ + k)
    have hb' := hbound k₀
    simp only [room, ← Nat.add_assoc] at hle hb
    omega
  exact ⟨N + k₀, fun k => ⟨hevents k, stateAt_queue (hevents k)⟩⟩

/-- Only submissions admit jobs. -/
theorem stateAt_jobs {ω : ℕ → Txn} {N : ℕ} (h : ∀ n, N ≤ n → ∀ body, (ω n).request ≠ .submit body)
    (k : ℕ) : (stateAt ω (N + k)).jobs.rows.length = (stateAt ω N).jobs.rows.length := by
  obtain ⟨traces, hall, -, -, -, ha⟩ := run_queue ((List.range N).map ω)
    ((List.range k).map fun i => ω (N + i))
  rw [← stateAt_add] at ha
  change (stateAt ω (N + k)).allotments = (stateAt ω N).allotments ++ _ at ha
  have hnil : traces.flatten.filterMap allotment = [] := by
    refine List.filterMap_eq_nil_iff.mpr fun m hm => ?_
    obtain ⟨trace, htrace, hm⟩ := List.mem_flatten.mp hm
    obtain ⟨i, hi, rfl⟩ := List.getElem_of_mem htrace
    have hlen := hall.length_eq
    obtain ⟨hi', hmoves⟩ := List.forall₂_iff_get.mp hall
    have hmove := hmoves i (hlen ▸ hi) hi m hm
    cases m with
    | deed => rfl
    | add key left =>
        simp only [List.get_eq_getElem, List.getElem_map, List.getElem_range] at hmove
        cases hreq : (ω (N + i)).request with
        | submit body => exact absurd hreq (h _ (Nat.le_add_right N i) body)
        | _ => simp [hreq, Request.Moves] at hmove
  have hlen := congrArg List.length ha
  simpa [hnil, Database.allotments] using hlen

/-- A job is submitted and claimed by a worker that never comes back. -/
def abandonedForever : ℕ → Txn
  | 0 => { request := .submit .flaky, feed := .still 1 }
  | 1 => { request := .register .first, feed := .still 2 }
  | 2 => { request := .claim .first (some Registration.first.sessionToken), feed := .still 3 }
  | n + 3 => { request := .recoverJobs 100, feed := .still (20 * (n + 1)) }

omit [Sha256] in
theorem work_settles_abandoned :
    letI := Sha256.tabulated []
    (stateAt abandonedForever 1).weight = 12 ∧
      (∀ k, (stateAt abandonedForever (1 + k)).events.length ≤ 2 + 12) ∧
      ∃ M, ∀ k, (stateAt abandonedForever (M + k)).events = (stateAt abandonedForever M).events ∧
        (stateAt abandonedForever (M + k)).queue = (stateAt abandonedForever M).queue := by
  let := Sha256.tabulated []
  have hweight : (stateAt abandonedForever 1).weight = 12 := by decide +kernel
  have hevents : (stateAt abandonedForever 1).events.length = 2 := by decide +kernel
  have hsettles := work_settles abandonedForever 1 (stateAt_jobs fun n hn body => by
    obtain ⟨n, rfl⟩ := Nat.exists_eq_add_of_le' hn
    rcases n with - | - | n <;> simp [abandonedForever])
  rw [hweight, hevents] at hsettles
  exact ⟨hweight, hsettles⟩

end GreyQueue
