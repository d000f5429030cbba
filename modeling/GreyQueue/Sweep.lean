import GreyQueue.Dependencies

/-!
# One sweep of recovery

What `recover_jobs` does while nothing else runs: the first loop fails as many expired
leases as the limit admits, the second cancels as many waiting jobs with a failed parent.
A sweep is a path of a machine of its own, whose guards say why each change is made.

## Main definitions

* `Quiet` — the clock stands still and no row is locked.
* `sweeping` — the changes a sweep makes.
* `Sweep` — a request that sweeps.

## Main results

* `sat_sweep`, `commit_sweep` — a sweep fails and cancels as many jobs as it can.
-/

namespace GreyQueue

open Lib
open Lib.Prog (Sat sat_bind)

/-- The clock shows `τ`, and nothing else holds a lock. -/
structure Quiet (τ : Time) (m : Moment) : Prop where
  time : m.time = τ
  free : m.free = true
  unlocked : ∀ k, m.locked k = false

theorem Quiet.reads {τ t : Time} (h : Reads (Quiet τ) t) : t = τ := by
  obtain ⟨m, hm, rfl⟩ := h
  exact hm.time

/-- Why a sweep at `τ` makes a change: the lease has expired, or the parent has failed. -/
def Change.Recovers (τ : Time) (db : Database) : Change → Prop
  | .retry _ a outcome error finishedAt _ _ =>
      a.expiresAt ≤ τ ∧ outcome = .leaseExpired ∧ error = leaseExpiredError ∧ finishedAt = τ
  | .fail _ a outcome error retryable finishedAt _ =>
      a.expiresAt ≤ τ ∧ outcome = .leaseExpired ∧ error = leaseExpiredError ∧
        retryable = true ∧ finishedAt = τ
  | .cancel job _ => parentFailed db job = true
  | .log _ => True
  | _ => False

/-- The machine of a sweep. -/
def sweeping (τ : Time) : Machine Database Change :=
  ⟨fun c db => c.guard db ∧ c.Recovers τ db, Change.effect⟩

@[simp] theorem sweeping_effect (τ : Time) (c : Change) (db : Database) :
    (sweeping τ).effect c db = c.effect db := rfl

/-- The change fails an attempt. -/
def Change.fails : Change → Bool
  | .retry .. => true
  | .fail .. => true
  | _ => false

/-- The change cancels a job. -/
def Change.cancels : Change → Bool
  | .cancel .. => true
  | _ => false

/-- The jobs that hold an expired lease. -/
def expiredJobs (τ : Time) (db : Database) : List Job := db.jobs.rows.filter (leaseExpired db τ)

/-- The waiting jobs with a failed parent. -/
def blockedJobs (db : Database) : List Job := db.jobs.rows.filter (parentFailed db)

theorem Quiet.length_take {τ : Time} {m : Moment} (h : Quiet τ m) (limit : ℕ) (rows : List Job) :
    (m.take limit rows).length = min limit rows.length := by
  have hall : (rows.insertionSort fun a b => m.rank a.id ≤ m.rank b.id).filter
      (fun j => !m.locked j.id) = rows.insertionSort fun a b => m.rank a.id ≤ m.rank b.id := by
    refine List.filter_eq_self.mpr fun j _ => ?_
    simp [h.unlocked]
  rw [Moment.take, hall, List.length_take, List.length_insertionSort]

theorem leaseExpired_iff {db : Database} {τ : Time} {job : Job} : leaseExpired db τ job = true ↔
    job.status.held = true ∧
      ∃ a ∈ db.attempts.rows, a.jobId = job.id ∧ a.finishedAt = none ∧ a.expiresAt ≤ τ := by
  simp [leaseExpired, Attempt.isOpen, and_assoc]

/-- A change of another job's attempt leaves the lease of a job expired. -/
theorem leaseExpired_put {db db' : Database} {τ : Time} {job : Job} {a b : Attempt}
    (h : leaseExpired db τ job = true) (hattempts : db'.attempts = db.attempts.put b)
    (hrow : db.attempts.find? a.id = some a) (hid : b.id = a.id) (hne : a.jobId ≠ job.id) :
    leaseExpired db' τ job = true := by
  obtain ⟨hheld, x, hx, hxj, hopen, hexp⟩ := leaseExpired_iff.mp h
  refine leaseExpired_iff.mpr ⟨hheld, x, ?_, hxj, hopen, hexp⟩
  rw [hattempts]
  refine Table.mem_put.mpr (Or.inl ⟨hx, fun hkey => hne ?_⟩)
  rw [← Table.eq_of_key hx (Table.mem_of_find? hrow) (hkey.trans hid)]
  exact hxj

/-- The rows a loop has still to visit, each with an expired lease. -/
def Overdue (τ : Time) (db : Database) (jobs : List Job) : Prop :=
  (jobs.map Job.id).Nodup ∧
    ∀ j ∈ jobs, db.jobs.find? j.id = some j ∧ leaseExpired db τ j = true

/-- Failing the first row leaves the others overdue. -/
theorem Overdue.tail {τ : Time} {db db' : Database} {job : Job} (job' : Job) {jobs : List Job}
    {a b : Attempt} (h : Overdue τ db (job :: jobs)) (hold : Holds db job a)
    (hid : job'.id = job.id) (hjobs : db'.jobs = db.jobs.put job')
    (hattempts : db'.attempts = db.attempts.put b) (hb : b.id = a.id) : Overdue τ db' jobs := by
  obtain ⟨hnodup, hall⟩ := h
  rw [List.map_cons, List.nodup_cons] at hnodup
  refine ⟨hnodup.2, fun j hj => ?_⟩
  obtain ⟨hrow, hexp⟩ := hall j (List.mem_cons_of_mem _ hj)
  have hne : job.id ≠ j.id := fun h' => hnodup.1 (h' ▸ List.mem_map_of_mem hj)
  refine ⟨?_, leaseExpired_put hexp hattempts hold.attempt_row hb (hold.attempt_job ▸ hne)⟩
  have hne' : job'.id ≠ j.id := hid ▸ hne
  rw [hjobs, Table.find?_put_ne _ hne']
  exact hrow

/-- A path of a sweep, step by step. -/
def Sweeps (τ : Time) (cs : List Change) (db db' : Database) : Prop :=
  (sweeping τ).Path cs db ∧ db' = (sweeping τ).after cs db

namespace Sweeps

variable {τ : Time} {cs cs' : List Change} {db db' db'' : Database}

theorem nil (db : Database) : Sweeps τ [] db db := ⟨trivial, rfl⟩

theorem append (h : Sweeps τ cs db db') (h' : Sweeps τ cs' db' db'') :
    Sweeps τ (cs ++ cs') db db'' := by
  obtain ⟨hp, rfl⟩ := h
  obtain ⟨hp', rfl⟩ := h'
  exact ⟨((sweeping τ).path_append _ _ _).mpr ⟨hp, hp'⟩, by simp⟩

theorem single {c : Change} (hg : c.guard db) (hc : c.Recovers τ db) :
    Sweeps τ [c] db (c.effect db) := ⟨⟨⟨hg, hc⟩, trivial⟩, rfl⟩

theorem invariant (h : Sweeps τ cs db db') {I : Database → Prop}
    (hstep : ∀ (c : Change) d, c.guard d → c.Recovers τ d → I d → I (c.effect d)) (hi : I db) :
    I db' := by
  obtain ⟨hp, rfl⟩ := h
  exact hp.invariant (fun c _ d hg => hstep c d hg.1 hg.2) hi

theorem inv (h : Sweeps τ cs db db') (hi : Inv db) : Inv db' :=
  h.invariant (fun _ _ hg _ hi => hi.effect hg) hi

end Sweeps

/-- What a sweep has done: it failed expired leases and then cancelled blocked jobs, as many
as the limit admits. -/
def Swept (τ : Time) (limit : ℕ) (db : Database) : Except Error ℕ → Database → Prop
  | .ok n, db' => ∃ cs mid cs', Sweeps τ cs db mid ∧ Sweeps τ cs' mid db' ∧
      n = min limit (expiredJobs τ db).length ∧
      cs.countP Change.fails = n ∧ cs.countP Change.cancels = 0 ∧
      cs'.countP Change.fails = 0 ∧
      cs'.countP Change.cancels = min limit (blockedJobs mid).length ∧
      (n = 0 → cs = []) ∧ ((blockedJobs mid).length = 0 → cs' = [])
  | .error _, _ => False

/-- The parent of the job has failed, was dead-lettered or cancelled. -/
def FailedParent (db : Database) (job : Job) : Prop :=
  ∃ p parent, job.dependsOn = some p ∧ db.jobs.find? p = some parent ∧
    (parent.status = .failed ∨ parent.status = .deadLetter ∨ parent.status = .cancelled)

theorem parentFailed_iff {db : Database} {job : Job} : parentFailed db job = true ↔
    job.status.waiting = true ∧ FailedParent db job := by
  have hany : (db.jobs.rows.any fun parent => decide (job.dependsOn = some parent.id) &&
      decide (parent.status ∈ [Status.failed, .deadLetter, .cancelled])) = true ↔
      FailedParent db job := by
    simp only [FailedParent, List.any_eq_true, Bool.and_eq_true, decide_eq_true_eq, List.mem_cons,
      List.not_mem_nil, or_false, Table.find?_eq_some]
    constructor
    · rintro ⟨parent, hrow, hdep, hs⟩
      exact ⟨parent.id, parent, hdep, ⟨hrow, rfl⟩, hs⟩
    · rintro ⟨p, parent, hdep, ⟨hrow, rfl⟩, hs⟩
      exact ⟨parent, hrow, hdep, hs⟩
  rw [parentFailed, Bool.and_eq_true, Bool.and_eq_true, hany]
  constructor
  · rintro ⟨⟨-, hwait⟩, hparent⟩
    exact ⟨hwait, hparent⟩
  · rintro ⟨hwait, hparent⟩
    obtain ⟨p, -, hdep, -⟩ := id hparent
    exact ⟨⟨by simp [hdep], hwait⟩, hparent⟩

/-- Cancelling a job leaves the parents of the others failed. -/
theorem parentFailed_cancel {db : Database} {job j : Job} {s : Stamp}
    (hrow : db.jobs.find? job.id = some job) (h : parentFailed db j = true) :
    parentFailed ((Change.cancel job s).effect db) j = true := by
  obtain ⟨hwait, p, parent, hp, hparent, hs⟩ := parentFailed_iff.mp h
  refine parentFailed_iff.mpr ⟨hwait, p, ?_⟩
  by_cases hk : job.id = p
  · subst hk
    have hself : (db.jobs.put (job.enter .cancelled s)).find? job.id =
        some (job.enter .cancelled s) := Table.find?_put_self (r := job.enter .cancelled s) hrow
    exact ⟨_, hp, hself, Or.inr (Or.inr rfl)⟩
  · have hne : (job.enter .cancelled s).id ≠ p := hk
    exact ⟨parent, hp, (Table.find?_put_ne _ hne).trans hparent, hs⟩

/-- The rows the second loop has still to visit. -/
def Blocked (db : Database) (jobs : List Job) : Prop :=
  (jobs.map Job.id).Nodup ∧
    ∀ j ∈ jobs, db.jobs.find? j.id = some j ∧ parentFailed db j = true

theorem Blocked.tail {db : Database} {job : Job} {jobs : List Job} (s : Stamp)
    (h : Blocked db (job :: jobs)) : Blocked ((Change.cancel job s).effect db) jobs := by
  obtain ⟨hnodup, hall⟩ := h
  rw [List.map_cons, List.nodup_cons] at hnodup
  obtain ⟨hfirst, -⟩ := hall job List.mem_cons_self
  refine ⟨hnodup.2, fun j hj => ?_⟩
  obtain ⟨hrow, hfailed⟩ := hall j (List.mem_cons_of_mem _ hj)
  have hne : (job.enter .cancelled s).id ≠ j.id :=
    fun h' => hnodup.1 (h' ▸ List.mem_map_of_mem hj)
  exact ⟨(Table.find?_put_ne _ hne).trans hrow, parentFailed_cancel hfirst hfailed⟩

variable {τ : Time} {db : Database}

/-- The body of the first loop fails a job that is overdue. -/
theorem sat_overdue {job : Job} {jobs : List Job} {Q : Except Error Unit → Database → Prop}
    (hinv : Inv db) (hover : Overdue τ db (job :: jobs))
    (h : ∀ (c : Change) e db', db' = (Change.log e).effect (c.effect db) → c.guard db →
      c.Recovers τ db →
      c.fails = true → c.cancels = false → Overdue τ db' jobs → Q (.ok ()) db') :
    Sat (Quiet τ) (expire job) db Q := by
  obtain ⟨hrow, hexp⟩ := hover.2 job List.mem_cons_self
  obtain ⟨hheld, a, ha, haj, hopen, hlate⟩ := leaseExpired_iff.mp hexp
  refine sat_expire (l := 0) hinv hrow hheld ?_ ?_ ?_
  · intro hskip
    obtain ⟨m, hm, hlt⟩ := hskip a ⟨hrow, Table.find?_of_mem ha, haj, hopen⟩
    rw [hm.time] at hlt
    exact absurd hlt (not_lt.mpr hlate)
  · intro b m t t' s e hm hb hg htimed
    refine h _ e _ rfl hg ⟨hm.time ▸ hb, rfl, rfl, Quiet.reads htimed.2.1⟩ rfl rfl ?_
    exact hover.tail (Job.enter { job with availableAt := t' } .retryWait s) hg.1 rfl rfl rfl rfl
  · intro b m t s e hm hb hg htimed
    refine h _ e _ rfl hg ⟨hm.time ▸ hb, rfl, rfl, rfl, Quiet.reads htimed.2⟩ rfl rfl ?_
    exact hover.tail (job.enter .deadLetter s) hg.1 rfl rfl rfl rfl

/-- A sweep fails and cancels as many jobs as its limit admits. -/
theorem sat_sweep (hinv : Inv db) (limit : ℕ) :
    Sat (Quiet τ) (recoverJobs limit) db (Swept τ limit db) := by
  refine sat_read (fun _ => rfl) fun m hm => ?_
  rw [if_pos hm.free]
  refine sat_databaseTime fun n hn => sat_read (fun _ => rfl) fun l hl => (sat_bind _ _ _).mpr ?_
  rw [hn.time]
  generalize hjobs : l.take limit (db.jobs.rows.filter (leaseExpired db τ)) = jobs
  have hlength : jobs.length = min limit (expiredJobs τ db).length := by
    rw [← hjobs]
    exact hl.length_take limit _
  have hstart : Overdue τ db jobs := hjobs ▸ ⟨nodup_rows, fun j hj => current_rows hj⟩
  refine Sat.forEach (I := fun rest d => ∃ cs, Sweeps τ cs db d ∧ Overdue τ d rest ∧
    cs.countP Change.fails + rest.length = jobs.length ∧ cs.countP Change.cancels = 0 ∧
    (jobs.length = 0 → cs = [])) ?_ ?_ jobs db ⟨[], .nil db, hstart, by simp, rfl, fun _ => rfl⟩
  · rintro mid ⟨cs, hcs, -, hfails, hcancels, hnil⟩
    refine sat_read (fun _ => rfl) fun l' hl' => (sat_bind _ _ _).mpr ?_
    generalize hblocked : l'.take limit (mid.jobs.rows.filter (parentFailed mid)) = blocked
    have hlength' : blocked.length = min limit (blockedJobs mid).length := by
      rw [← hblocked]
      exact hl'.length_take limit _
    have hstart' : Blocked mid blocked := hblocked ▸ ⟨nodup_rows, fun j hj => current_rows hj⟩
    refine Sat.forEach (I := fun rest d => ∃ cs', Sweeps τ cs' mid d ∧ Blocked d rest ∧
      cs'.countP Change.cancels + rest.length = blocked.length ∧ cs'.countP Change.fails = 0 ∧
      (blocked.length = 0 → cs' = [])) ?_ ?_ blocked mid
      ⟨[], .nil mid, hstart', by simp, rfl, fun _ => rfl⟩
    · rintro d ⟨cs', hcs', -, hcancels', hfails', hnil'⟩
      refine ⟨cs, mid, cs', hcs, hcs', hlength, by simpa using hfails, hcancels, hfails',
        by simpa [hlength'] using hcancels', hnil, fun hnone => hnil' ?_⟩
      rw [hlength', hnone, Nat.min_zero]
    · rintro job rest d ⟨cs', hcs', hpend, hcancels', hfails', hnil'⟩
      obtain ⟨hrow, hfailed⟩ := hpend.2 job List.mem_cons_self
      have hwait := (parentFailed_iff.mp hfailed).1
      refine (sat_bind _ _ _).mpr (sat_transition ?_ fun s => ?_)
      · exact Status.cancelled_mem hwait
      · have hstep : Sweeps τ [.cancel job s] d ((Change.cancel job s).effect d) :=
          .single ⟨hrow, hwait⟩ hfailed
        refine ⟨cs' ++ [.cancel job s], hcs'.append hstep, hpend.tail s, ?_, ?_, ?_⟩
        · simp only [List.length_cons] at hcancels'
          simp [List.countP_append, Change.cancels]
          omega
        · simp [List.countP_append, hfails', Change.fails]
        · intro hnone
          simp only [List.length_cons] at hcancels'
          omega
  · rintro job rest d ⟨cs, hcs, hover, hfails, hcancels, hnil⟩
    refine sat_overdue (hcs.inv hinv) hover ?_
    rintro c e d' rfl hg hrec hf hc hrest
    have hevent : Sweeps τ [.log e] (c.effect d) ((Change.log e).effect (c.effect d)) :=
      .single trivial trivial
    have hstep := (Sweeps.single hg hrec).append hevent
    simp only [List.length_cons] at hfails
    have hlog : (Change.log e).fails = false ∧ (Change.log e).cancels = false := ⟨rfl, rfl⟩
    refine ⟨cs ++ ([c] ++ [.log e]), hcs.append hstep, hrest, ?_, ?_, ?_⟩
    · simp only [List.countP_append, List.countP_singleton, hf, hlog, if_true]
      simp only [Bool.false_eq_true, if_false]
      omega
    · simp [List.countP_append, hcancels, hc, hlog]
    · intro hnone
      omega

section Runs

variable [Sha256]

/-- The transaction is a sweep with the given limit, while nothing else runs. -/
structure Sweep (τ : Time) (limit : ℕ) (t : Txn) : Prop where
  request : t.request = .recoverJobs limit
  quiet : ∀ n, Quiet τ (t.feed n)

/-- A sweep commits. -/
theorem commit_sweep (hinv : Inv db) {limit : ℕ} {t : Txn} (h : Sweep τ limit t) :
    ∃ n, Swept τ limit db (.ok n) (commit db t) := by
  have hsat : Sat (Quiet τ) (serve t.config (.recoverJobs limit)) db fun r d =>
      ∃ response, r = .ok response ∧ ∃ n, Swept τ limit db (.ok n) d := by
    refine (sat_sweep hinv limit).bind (fun n d hn => ⟨_, rfl, n, hn⟩) fun _ _ h => h.elim
  have hexec := hsat.exec (f := t.feed) h.quiet
  rw [← h.request] at hexec
  obtain ⟨response, hans, n, hn⟩ := hexec
  have hanswer : t.answer db = .ok response := hans
  refine ⟨n, ?_⟩
  rw [commit, hanswer]
  exact hn

end Runs

end GreyQueue
