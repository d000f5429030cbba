import GreyQueue.Lib.Log
import GreyQueue.History

/-!
# Dependencies

Jobs are stored in the order of their admission and a parent is admitted before its
child, so the dependency forest is well-founded.  No job is ever leased before its
parent has succeeded, which the event log shows for every ancestor.

## Main definitions

* `Parent db` — the `depends_on` relation.
* `DepInv` — the invariant of jobs and events.

## Main results

* `dependency_order` — dependency order over every run.
-/

namespace GreyQueue

open Lib

/-- The job `c` depends on the job `p`. -/
def Parent (db : Database) (p c : Uuid) : Prop :=
  ∃ child, db.jobs.find? c = some child ∧ child.dependsOn = some p

/-- Ids and parents of the jobs, in the order of admission. -/
def lineage (jobs : Table Job) : List (Uuid × Option Uuid) :=
  jobs.rows.map fun j => (j.id, j.dependsOn)

/-- The event of the job `k` entering the state `s`. -/
def Enters (k : Uuid) (s : Status) (e : Event) : Prop := e.jobId = k ∧ e.state = .entered s

/-- The parent of the job has succeeded, if it has a parent. -/
def ParentDone (db : Database) (job : Job) : Prop :=
  ∀ p, job.dependsOn = some p → ∃ parent, db.jobs.find? p = some parent ∧
    parent.status = .succeeded

/-- The job has been leased at some time. -/
def Job.Tried (job : Job) : Prop :=
  0 < job.attemptCount ∨ (job.status ≠ .queued ∧ job.status ≠ .cancelled)

/-- Jobs, parents and events agree. -/
structure DepInv (db : Database) : Prop where
  grounded : Grounded (lineage db.jobs)
  tried : ∀ k job, db.jobs.find? k = some job → job.Tried → ParentDone db job
  event_job : ∀ e ∈ db.events, ∃ job, db.jobs.find? e.jobId = some job
  success : ∀ k job, db.jobs.find? k = some job →
    ((∃ e ∈ db.events, Enters k .succeeded e) ↔ job.status = .succeeded)
  leased : ∀ k job, db.jobs.find? k = some job → 0 < job.attemptCount →
    ∃ e ∈ db.events, Enters k .leased e
  parent_first : ∀ p c, Parent db p c →
    Precedes (Enters p .succeeded) (Enters c .leased) db.events
  lease_first : ∀ k, Precedes (Enters k .leased) (Enters k .succeeded) db.events
  once : ∀ k, Once (Enters k .succeeded) db.events

theorem lineage_put {t : Table Job} {j k : Job} (hrow : t.find? j.id = some j)
    (hid : k.id = j.id) (hdep : k.dependsOn = j.dependsOn) : lineage (t.put k) = lineage t := by
  rw [lineage, Table.rows_put, List.map_map, lineage]
  refine List.map_congr_left fun x hx => ?_
  simp only [Function.comp, key_job]
  split
  · rename_i hxk
    obtain rfl : x = j := Table.eq_of_key hx (Table.mem_of_find? hrow) (hxk.trans hid)
    rw [hid, hdep]
  · rfl

theorem lineage_add {t : Table Job} {j : Job} (h : t.find? j.id = none) :
    lineage (t.add j) = lineage t ++ [(j.id, j.dependsOn)] := by
  have hr : (t.add j).rows = t.rows ++ [j] := Table.rows_add h
  rw [lineage, hr, List.map_append, lineage, List.map_singleton]

namespace DepInv

variable {db db' : Database}

theorem empty : DepInv {} where
  grounded := grounded_nil
  tried := fun _ _ h => by simp at h
  event_job := fun _ h => by simp at h
  success := fun _ _ h => by simp at h
  leased := fun _ _ h => by simp at h
  parent_first := fun _ _ _ => precedes_nil _ _
  lease_first := fun _ => precedes_nil _ _
  once := fun _ => once_nil _

/-- The invariant reads jobs and events only. -/
theorem congr (h : DepInv db) (hj : db'.jobs = db.jobs) (he : db'.events = db.events) :
    DepInv db' := by
  have hpd : ∀ job, ParentDone db' job ↔ ParentDone db job := by simp [ParentDone, hj]
  have hpar : Parent db' = Parent db := by funext p c; simp [Parent, hj]
  exact ⟨hj ▸ h.grounded, fun k job hk ht => (hpd job).mpr (h.tried k job (hj ▸ hk) ht),
    by rw [he, hj]; exact h.event_job, by rw [he, hj]; exact h.success,
    by rw [he, hj]; exact h.leased, by rw [he, hpar]; exact h.parent_first,
    by rw [he]; exact h.lease_first, by rw [he]; exact h.once⟩

/-- A job in a final state keeps its row, so a parent that is done stays done. -/
theorem parentDone_later (hl : Later db db') {job : Job} (h : ParentDone db job) :
    ParentDone db' job := by
  intro p hp
  obtain ⟨parent, hrow, hs⟩ := h p hp
  obtain ⟨parent', hrow', hlj⟩ := hl.jobs p parent hrow
  obtain rfl := hlj.2.2 (by simp [hs, Status.final, transitions])
  exact ⟨parent', hrow', hs⟩

/-- A job enters a state and the event is logged. -/
theorem enter (h : DepInv db) (hl : Later db db') {job : Job} {now : Time}
    (hrow : db.jobs.find? job.id = some job) (job' : Job) (hid : job'.id = job.id)
    (hdep : job'.dependsOn = job.dependsOn) (hjobs : db'.jobs = db.jobs.put job')
    (hevents : db'.events = db.events ++ [⟨job.id, .entered job'.status, now⟩])
    (hfinal : ¬ job.status.final)
    (htried : job'.Tried → ParentDone db job)
    (hlease : job'.status = .leased → ParentDone db job)
    (hcount : 0 < job'.attemptCount → 0 < job.attemptCount ∨ job'.status = .leased)
    (hsucc : job'.status = .succeeded → 0 < job.attemptCount) : DepInv db' := by
  have hcases : ∀ k j, db'.jobs.find? k = some j →
      (k = job.id ∧ j = job') ∨ (k ≠ job.id ∧ db.jobs.find? k = some j) := by
    intro k j hj
    rw [hjobs] at hj
    rcases Table.find?_put_eq_some hj with ⟨hk, rfl⟩ | ⟨hk, hj⟩
    · exact Or.inl ⟨hk.symm.trans hid, rfl⟩
    · exact Or.inr ⟨fun h' => hk (hid.trans h'.symm), hj⟩
  have hmem : ∀ e, e ∈ db'.events ↔ e ∈ db.events ∨ e = ⟨job.id, .entered job'.status, now⟩ := by
    intro e; rw [hevents]; simp
  have hnot : ∀ k, k ≠ job.id → ∀ s, ¬ Enters k s ⟨job.id, .entered job'.status, now⟩ :=
    fun k hk s he => hk he.1.symm
  have hpar : ∀ p c, Parent db' p c → Parent db p c := by
    rintro p c ⟨child, hc, hp⟩
    rcases hcases c child hc with ⟨rfl, rfl⟩ | ⟨-, hc⟩
    · exact ⟨job, hrow, hdep ▸ hp⟩
    · exact ⟨child, hc, hp⟩
  have hno : ¬ ∃ e ∈ db.events, Enters job.id .succeeded e := by
    rw [h.success _ job hrow]
    intro hs
    exact hfinal (by simp [hs, Status.final, transitions])
  refine ⟨?_, ?_, ?_, ?_, ?_, ?_, ?_, ?_⟩
  · rw [hjobs, lineage_put hrow hid hdep]
    exact h.grounded
  · intro k j hj ht
    rcases hcases k j hj with ⟨-, rfl⟩ | ⟨-, hj⟩
    · intro p hp
      exact parentDone_later hl (htried ht) p (hdep ▸ hp)
    · exact parentDone_later hl (h.tried k j hj ht)
  · intro e he
    rcases (hmem e).mp he with he | rfl
    · obtain ⟨j, hj⟩ := h.event_job e he
      obtain ⟨j', hj', -⟩ := hl.jobs _ j hj
      exact ⟨j', hj'⟩
    · obtain ⟨j', hj', -⟩ := hl.jobs _ job hrow
      exact ⟨j', hj'⟩
  · intro k j hj
    rcases hcases k j hj with ⟨rfl, rfl⟩ | ⟨hk, hj⟩
    · constructor
      · rintro ⟨e, he, hen⟩
        rcases (hmem e).mp he with he | rfl
        · exact absurd ⟨e, he, hen⟩ hno
        · simpa [Enters] using hen.2
      · intro hs
        exact ⟨_, (hmem _).mpr (Or.inr rfl), rfl, by rw [hs]⟩
    · rw [← h.success k j hj]
      constructor
      · rintro ⟨e, he, hen⟩
        rcases (hmem e).mp he with he | rfl
        · exact ⟨e, he, hen⟩
        · exact absurd hen (hnot k hk _)
      · rintro ⟨e, he, hen⟩
        exact ⟨e, (hmem e).mpr (Or.inl he), hen⟩
  · intro k j hj hpos
    rcases hcases k j hj with ⟨rfl, rfl⟩ | ⟨-, hj⟩
    · rcases hcount hpos with hpos | hs
      · obtain ⟨e, he, hen⟩ := h.leased _ job hrow hpos
        exact ⟨e, (hmem e).mpr (Or.inl he), hen⟩
      · exact ⟨_, (hmem _).mpr (Or.inr rfl), rfl, by rw [hs]⟩
    · obtain ⟨e, he, hen⟩ := h.leased k j hj hpos
      exact ⟨e, (hmem e).mpr (Or.inl he), hen⟩
  · intro p c hpc
    rw [hevents]
    refine (h.parent_first p c (hpar p c hpc)).concat fun hen => ?_
    -- the event is the lease of the job itself, whose parent is done
    obtain ⟨rfl, hs⟩ := hen
    obtain ⟨child, hc, hp⟩ := hpar p _ hpc
    rw [hrow, Option.some.injEq] at hc
    subst hc
    obtain ⟨parent, hparent, hdone⟩ := hlease (by simpa using hs) p hp
    exact (h.success p parent hparent).mpr hdone
  · intro k
    rw [hevents]
    refine (h.lease_first k).concat fun hen => ?_
    obtain ⟨rfl, hs⟩ := hen
    exact h.leased _ job hrow (hsucc (by simpa using hs))
  · intro k
    rw [hevents]
    refine (h.once k).concat fun hen e he hen' => ?_
    obtain ⟨rfl, -⟩ := hen
    exact hno ⟨e, he, hen'⟩

/-- A job is admitted, with its two events. -/
theorem admitted (h : DepInv db) {job : Job} {queueLimit submissionsPerMinute : ℕ}
    {now now' : Time} (hadm : Admissible db job queueLimit submissionsPerMinute)
    (hjobs : db'.jobs = db.jobs.add job)
    (hevents : db'.events =
      db.events ++ [⟨job.id, .submitted, now⟩, ⟨job.id, .entered .queued, now'⟩]) :
    DepInv db' := by
  have hkeep : ∀ k j, db.jobs.find? k = some j → db'.jobs.find? k = some j := by
    intro k j hj
    rw [hjobs, Table.find?_add_ne, hj]
    rintro rfl
    rw [key_job, hadm.fresh] at hj
    simp at hj
  have hcases : ∀ k j, db'.jobs.find? k = some j →
      (k = job.id ∧ j = job) ∨ db.jobs.find? k = some j := by
    intro k j hj
    rw [hjobs] at hj
    rcases Table.find?_add_eq_some hadm.fresh hj with ⟨hk, rfl⟩ | hj
    · exact Or.inl ⟨hk.symm, rfl⟩
    · exact Or.inr hj
  have hmem : ∀ e, e ∈ db'.events ↔ e ∈ db.events ∨ e = ⟨job.id, .submitted, now⟩ ∨
      e = ⟨job.id, .entered .queued, now'⟩ := by
    intro e; rw [hevents]; simp
  -- the new job has no events but these two
  have hnone : ∀ s e, e ∈ db'.events → Enters job.id s e → s = .queued := by
    rintro s e he ⟨hk, hs⟩
    rcases (hmem e).mp he with he | rfl | rfl
    · obtain ⟨j, hj⟩ := h.event_job e he
      rw [hk, hadm.fresh] at hj
      simp at hj
    · simp at hs
    · simpa using hs.symm
  have hold : ∀ k s, s ≠ .queued →
      ((∃ e ∈ db'.events, Enters k s e) ↔ ∃ e ∈ db.events, Enters k s e) := by
    intro k s hs
    constructor
    · rintro ⟨e, he, hen⟩
      rcases (hmem e).mp he with he | rfl | rfl
      · exact ⟨e, he, hen⟩
      · simp [Enters] at hen
      · exact absurd (by simpa using hen.2.symm) hs
    · rintro ⟨e, he, hen⟩
      exact ⟨e, (hmem e).mpr (Or.inl he), hen⟩
  have hsplit : db'.events =
      (db.events ++ [⟨job.id, .submitted, now⟩]) ++ [⟨job.id, .entered .queued, now'⟩] := by
    rw [hevents]; simp
  have hlog : ∀ {P : Event → Prop} {k s}, s ≠ .queued → Precedes P (Enters k s) db.events →
      Precedes P (Enters k s) db'.events := by
    intro P k s hs hp
    rw [hsplit]
    refine (hp.concat fun hen => ?_).concat fun hen => ?_
    · simp [Enters] at hen
    · exact absurd (by simpa using hen.2.symm) hs
  refine ⟨?_, ?_, ?_, ?_, ?_, ?_, ?_, ?_⟩
  · rw [hjobs, lineage_add hadm.fresh]
    refine h.grounded.concat fun p hp => ?_
    obtain ⟨parent, hparent, -⟩ := hadm.parent p hp
    rw [lineage, List.map_map]
    exact List.mem_map.mpr ⟨parent, Table.mem_of_find? hparent, Table.key_of_find? hparent⟩
  · intro k j hj ht p hp
    rcases hcases k j hj with ⟨-, rfl⟩ | hj
    · simp [Job.Tried, hadm.queued, hadm.no_attempts] at ht
    · obtain ⟨parent, hparent, hs⟩ := h.tried k j hj ht p hp
      exact ⟨parent, hkeep p parent hparent, hs⟩
  · intro e he
    have hnew : db'.jobs.find? job.id = some job := by
      rw [hjobs]; exact Table.find?_add_self hadm.fresh
    rcases (hmem e).mp he with he | rfl | rfl
    · obtain ⟨j, hj⟩ := h.event_job e he
      exact ⟨j, hkeep _ j hj⟩
    · exact ⟨job, hnew⟩
    · exact ⟨job, hnew⟩
  · intro k j hj
    rcases hcases k j hj with ⟨rfl, rfl⟩ | hj
    · rw [hadm.queued]
      simp only [reduceCtorEq, iff_false]
      rintro ⟨e, he, hen⟩
      simpa using hnone _ e he hen
    · rw [hold k _ (by simp)]
      exact h.success k j hj
  · intro k j hj hpos
    rcases hcases k j hj with ⟨rfl, rfl⟩ | hj
    · rw [hadm.no_attempts] at hpos
      omega
    · rw [hold k _ (by simp)]
      exact h.leased k j hj hpos
  · rintro p c ⟨child, hc, hp⟩
    rcases hcases c child hc with ⟨rfl, rfl⟩ | hc
    · refine Precedes.of_forall_not fun e he hen => ?_
      simpa using hnone _ e he hen
    · exact hlog (by simp) (h.parent_first p c ⟨child, hc, hp⟩)
  · exact fun k => hlog (by simp) (h.lease_first k)
  · intro k
    rw [hsplit]
    exact ((h.once k).concat fun hen => by simp [Enters] at hen).concat
      fun hen => by simp [Enters] at hen

/-- Every change preserves the invariant. -/
theorem effect (h : DepInv db) (hinv : Inv db) {c : Change} (hg : c.guard db) :
    DepInv (c.effect db) := by
  have hl := Later.effect hg
  -- the open attempt of a job shows that it was tried
  have hheld : ∀ {job a}, Holds db job a → job.status.held = true ∧ 0 < job.attemptCount := by
    intro job a hold
    obtain ⟨hj, hmem, hf, hs, -⟩ := hinv.holds hold
    have := (hj.fence_mem hmem).1
    exact ⟨hs, by omega⟩
  cases c with
  | admitted job q n now now' => exact h.admitted hg rfl rfl
  | lease w job a t s =>
      obtain ⟨hwait, -, -, hready⟩ := claimable_iff.mp hg.ready
      have hdone : ParentDone db job := by
        intro p hp
        rcases hready with hnone | hready
        · simp [hnone] at hp
        · obtain ⟨parent, hmem, hpar, hs⟩ := readyParent_iff.mp hready
          rw [hp, Option.some.injEq] at hpar
          exact ⟨parent, hpar ▸ Table.find?_of_mem hmem, hs⟩
      exact h.enter hl hg.job_row (job.leased s) rfl rfl rfl rfl (Status.not_final_of_waiting hwait)
        (fun _ => hdone) (fun _ => hdone) (fun _ => Or.inr rfl) (by simp [Job.leased, Job.enter])
  | start job a t s =>
      obtain ⟨hs, hpos⟩ := hheld hg.1
      exact h.enter hl hg.1.job_row (job.enter .running s) rfl rfl
        rfl rfl (Status.not_final_of_held hs)
        (fun _ => h.tried _ job hg.1.job_row (Or.inl hpos)) (by simp [Job.enter])
        (fun _ => Or.inl hpos) (by simp [Job.enter])
  | succeed job a o t s =>
      obtain ⟨hs, hpos⟩ := hheld hg.1
      exact h.enter hl hg.1.job_row (job.enter .succeeded s) rfl rfl
        rfl rfl (Status.not_final_of_held hs)
        (fun _ => h.tried _ job hg.1.job_row (Or.inl hpos)) (by simp [Job.enter])
        (fun _ => Or.inl hpos) (fun _ => hpos)
  | retry job a o e t t' s =>
      obtain ⟨hs, hpos⟩ := hheld hg.1
      exact h.enter hl hg.1.job_row (Job.enter { job with availableAt := t' } .retryWait s) rfl rfl
        rfl rfl (Status.not_final_of_held hs)
        (fun _ => h.tried _ job hg.1.job_row (Or.inl hpos)) (by simp [Job.enter])
        (fun _ => Or.inl hpos) (by simp [Job.enter])
  | fail job a o e r t s =>
      obtain ⟨hs, hpos⟩ := hheld hg.1
      exact h.enter hl hg.1.job_row (job.enter (if r then .deadLetter else .failed) s) rfl rfl
        rfl rfl (Status.not_final_of_held hs)
        (fun _ => h.tried _ job hg.1.job_row (Or.inl hpos)) (by cases r <;> simp [Job.enter])
        (fun _ => Or.inl hpos) (by cases r <;> simp [Job.enter])
  | cancel job s =>
      obtain ⟨hrow, hwait⟩ := hg
      refine h.enter hl hrow (job.enter .cancelled s) rfl rfl rfl rfl
        (Status.not_final_of_waiting hwait)
        (fun ht => h.tried _ job hrow ?_) (by simp [Job.enter]) Or.inl (by simp [Job.enter])
      rcases ht with hpos | ⟨-, hs⟩
      · exact Or.inl hpos
      · exact absurd rfl hs
  | renew | enroll | seen | drain | takeover | mark | log => exact h.congr rfl rfl

end DepInv

/-! ## Ancestors -/

/-- The dependency relation is well-founded. -/
theorem DepInv.wellFounded {db : Database} (h : DepInv db) : WellFounded (Parent db) := by
  have hk : ((lineage db.jobs).map Prod.fst).Nodup := by
    rw [lineage, List.map_map]; exact db.jobs.nodup
  refine Subrelation.wf ?_ (h.grounded.wellFounded hk)
  rintro p c ⟨child, hc, hp⟩
  have hid : child.id = c := Table.key_of_find? hc
  exact List.mem_map.mpr ⟨child, Table.mem_of_find? hc, by rw [hid, hp]⟩

/-- The success of every ancestor precedes every lease of a job. -/
theorem DepInv.ancestor_first {db : Database} (h : DepInv db) {p c : Uuid}
    (hpc : Relation.TransGen (Parent db) p c) :
    Precedes (Enters p .succeeded) (Enters c .leased) db.events := by
  induction hpc with
  | single hpc => exact h.parent_first _ _ hpc
  | tail _ hbc ih => exact ih.trans ((h.lease_first _).trans (h.parent_first _ _ hbc))

/-- The descendants of a job that has not succeeded were never tried. -/
theorem DepInv.descendant_idle {db : Database} (h : DepInv db) {p c : Uuid}
    (hpc : Relation.TransGen (Parent db) p c) {parent : Job}
    (hparent : db.jobs.find? p = some parent) (hs : parent.status ≠ .succeeded) :
    ∃ job, db.jobs.find? c = some job ∧ ¬ job.Tried := by
  -- one generation: the parent's status decides
  have hstep : ∀ {b c : Uuid} {j : Job}, Parent db b c → db.jobs.find? b = some j →
      j.status ≠ .succeeded → ∃ job, db.jobs.find? c = some job ∧ ¬ job.Tried := by
    rintro b c j ⟨child, hc, hp⟩ hj hjs
    refine ⟨child, hc, fun ht => ?_⟩
    obtain ⟨j', hj', hdone⟩ := h.tried c child hc ht b hp
    rw [hj, Option.some.injEq] at hj'
    exact hjs (hj' ▸ hdone)
  induction hpc with
  | single hpc => exact hstep hpc hparent hs
  | tail _ hbc ih =>
      obtain ⟨job, hjob, hidle⟩ := ih
      refine hstep hbc hjob fun hdone => hidle (Or.inr ?_)
      simp [hdone]

variable [Sha256]

theorem run_depInv (txns : List Txn) : DepInv (run txns) :=
  (run_invariant DepInv.empty (fun _ _ hinv hg h => h.effect hinv hg) txns).2

/-- **Dependency order.** In every reachable state a parent is stored before its child and
the dependency relation is well-founded; a job that was ever leased has a parent that
succeeded, if it has a parent.  In the event log every lease of a job comes after the
success of each of its ancestors, which is logged once, and every descendant of a failed,
dead-lettered or cancelled job is queued or cancelled without attempts. -/
theorem dependency_order (txns : List Txn) :
    (∀ pre child post, (run txns).jobs.rows = pre ++ child :: post →
      ∀ p, child.dependsOn = some p → ∃ parent ∈ pre, parent.id = p) ∧
    WellFounded (Parent (run txns)) ∧
    (∀ job ∈ (run txns).jobs.rows,
      (0 < job.attemptCount ∨ (job.status ≠ .queued ∧ job.status ≠ .cancelled)) →
      ∀ p, job.dependsOn = some p → ∃ parent,
        (run txns).jobs.find? p = some parent ∧ parent.status = .succeeded) ∧
    (∀ p c, Relation.TransGen (Parent (run txns)) p c →
      ∀ pre e post, (run txns).events = pre ++ e :: post →
        e.jobId = c ∧ e.state = .entered .leased →
        ∃ e' ∈ pre, e'.jobId = p ∧ e'.state = .entered .succeeded) ∧
    (∀ p, Once (fun e => e.jobId = p ∧ e.state = .entered .succeeded) (run txns).events) ∧
    ∀ p c, Relation.TransGen (Parent (run txns)) p c → ∀ parent,
      (run txns).jobs.find? p = some parent →
      (parent.status = .failed ∨ parent.status = .deadLetter ∨ parent.status = .cancelled) →
      ∃ job, (run txns).jobs.find? c = some job ∧
        (job.status = .queued ∨ job.status = .cancelled) ∧ job.attemptCount = 0 ∧
        attemptsOf (run txns).attempts c = [] := by
  have h := run_depInv txns
  refine ⟨?_, h.wellFounded, ?_, ?_, h.once, ?_⟩
  · intro pre child post hrows p hp
    have hl : lineage (run txns).jobs = pre.map (fun j => (j.id, j.dependsOn)) ++
        (child.id, child.dependsOn) :: post.map fun j => (j.id, j.dependsOn) := by
      rw [lineage, hrows, List.map_append, List.map_cons]
    have hmem := h.grounded _ _ _ hl p hp
    rw [List.map_map] at hmem
    obtain ⟨parent, hparent, hid⟩ := List.mem_map.mp hmem
    exact ⟨parent, hparent, hid⟩
  · exact fun job hjob ht => h.tried job.id job (Table.find?_of_mem hjob) ht
  · exact fun p c hpc => h.ancestor_first hpc
  · intro p c hpc parent hparent hs
    obtain ⟨job, hjob, hidle⟩ := h.descendant_idle hpc hparent
      (by rcases hs with hs | hs | hs <;> simp [hs])
    have hid : job.id = c := Table.key_of_find? hjob
    simp only [Job.Tried, not_or, not_and_or, not_not, Nat.not_lt, Nat.le_zero] at hidle
    have hlen := ((run_inv txns).job job (hid ▸ hjob)).length_eq
    rw [hidle.1, hid] at hlen
    exact ⟨job, hjob, hidle.2, hidle.1, List.eq_nil_of_length_eq_zero hlen⟩

end GreyQueue
