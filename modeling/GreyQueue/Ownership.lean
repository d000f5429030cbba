import GreyQueue.Change

/-!
# Ownership of jobs

One invariant ties a job row to all of its attempts and to its result row.  The
attempts of a job carry the fences `1, 2, …` in table order; every one below the
job's `attempt_count` is lost, and the current one, whose fence is the count, fits
the job's state.

## Main definitions

* `attemptsOf` — the attempts of a job, in table order.
* `JobInv` — a job row agrees with its attempts and its result.
* `Inv` — the invariant of the database.

## Main results

* `Inv.effect` — every change preserves the invariant.
-/

namespace GreyQueue

open Lib

/-! ## The attempts of a job -/

/-- The attempts of a job, in table order. -/
def attemptsOf (t : Table Attempt) (jobId : Uuid) : List Attempt :=
  t.rows.filter fun a => decide (a.jobId = jobId)

theorem mem_attemptsOf {t : Table Attempt} {jobId : Uuid} {a : Attempt} :
    a ∈ attemptsOf t jobId ↔ a ∈ t.rows ∧ a.jobId = jobId := by
  simp [attemptsOf]

theorem attemptsOf_add {t : Table Attempt} {a : Attempt} (h : t.find? a.id = none)
    (jobId : Uuid) :
    attemptsOf (t.add a) jobId = attemptsOf t jobId ++ if a.jobId = jobId then [a] else [] := by
  have hr : (t.add a).rows = t.rows ++ [a] := Table.rows_add h
  rw [attemptsOf, hr, List.filter_append]
  split <;> simp_all [attemptsOf]

/-- An attempt in a list, overwritten by its new version. -/
def replaced (l : List Attempt) (a : Attempt) : List Attempt :=
  l.map fun x => if x.id = a.id then a else x

theorem mem_replaced {l : List Attempt} {a x : Attempt} (h : x ∈ replaced l a) :
    x = a ∨ (x ∈ l ∧ x.id ≠ a.id) := by
  obtain ⟨y, hy, rfl⟩ := List.mem_map.mp h
  split
  · exact Or.inl rfl
  · exact Or.inr ⟨hy, ‹_›⟩

theorem attemptsOf_put {t : Table Attempt} {a b : Attempt} (h : t.find? a.id = some a)
    (hid : b.id = a.id) (hjob : b.jobId = a.jobId) (jobId : Uuid) :
    attemptsOf (t.put b) jobId = replaced (attemptsOf t jobId) b := by
  rw [attemptsOf, Table.rows_put, List.filter_map, attemptsOf, replaced]
  congr 1
  refine List.filter_congr fun x hx => ?_
  simp only [Function.comp, key_attempt]
  split
  · rename_i hxb
    rw [Table.eq_of_key hx (Table.mem_of_find? h) (hxb.trans hid), hjob]
  · rfl

theorem attemptsOf_put_ne {t : Table Attempt} {a b : Attempt} (h : t.find? a.id = some a)
    (hid : b.id = a.id) (hjob : b.jobId = a.jobId) {jobId : Uuid} (hne : a.jobId ≠ jobId) :
    attemptsOf (t.put b) jobId = attemptsOf t jobId := by
  rw [attemptsOf_put h hid hjob, replaced]
  refine (List.map_congr_left fun x hx => ?_).trans (List.map_id _)
  obtain ⟨hx, hxj⟩ := mem_attemptsOf.mp hx
  refine if_neg fun hxb => hne ?_
  rw [← hxj, Table.eq_of_key hx (Table.mem_of_find? h) (hxb.trans hid)]

/-! ## One job -/

/-- The attempt ended without success. -/
def Attempt.Lost (a : Attempt) : Prop :=
  a.finishedAt.isSome = true ∧ (a.outcome = some .failed ∨ a.outcome = some .leaseExpired)

/-- The attempt is open: nothing about its end is recorded. -/
def Attempt.Pending (a : Attempt) : Prop :=
  a.finishedAt = none ∧ a.outcome = none ∧ a.output = none ∧ a.error = none

/-- The current attempt and the result of a job, by the job's state. -/
def Fits (job : Job) (a : Attempt) (r : Option Result) : Prop :=
  match job.status with
  | .leased => a.Pending ∧ a.startedAt = none ∧ r = none
  | .running => a.Pending ∧ a.startedAt.isSome = true ∧ r = none
  | .succeeded => a.finishedAt.isSome = true ∧ a.outcome = some .succeeded ∧
      r = some ⟨job.id, a.output, none⟩
  | .failed => a.finishedAt.isSome = true ∧ a.outcome = some .failed ∧
      r = some ⟨job.id, none, a.error⟩
  | .deadLetter => a.Lost ∧ job.attemptCount = job.maxRetries + 1 ∧
      r = some ⟨job.id, none, a.error⟩
  | .queued | .retryWait | .cancelled => a.Lost ∧ r = none

theorem Fits.of_waiting {job : Job} {a : Attempt} {r : Option Result} (h : Fits job a r)
    (hw : job.status.waiting = true) : a.Lost ∧ r = none := by
  unfold Fits at h
  cases hst : job.status with
  | queued | retryWait => simpa only [hst] using h
  | _ => simp [hst, Status.waiting] at hw

/-- A job row agrees with its attempts and its result. -/
structure JobInv (job : Job) (attempts : List Attempt) (r : Option Result) : Prop where
  fences : attempts.map Attempt.fence = List.range' 1 job.attemptCount
  bound : job.attemptCount ≤ job.maxRetries + 1
  idle_bound : job.status.waiting = true ∨ job.status = .cancelled →
    job.attemptCount ≤ job.maxRetries
  queued : job.status = .queued → job.attemptCount = 0
  tried : job.status ≠ .queued → job.status ≠ .cancelled → 0 < job.attemptCount
  past : ∀ a ∈ attempts, a.fence < job.attemptCount → a.Lost
  current : ∀ a ∈ attempts, a.fence = job.attemptCount → Fits job a r
  untried : attempts = [] → r = none

namespace JobInv

variable {job : Job} {attempts : List Attempt} {r : Option Result} {a b : Attempt}

theorem length_eq (h : JobInv job attempts r) : attempts.length = job.attemptCount := by
  simpa using congrArg List.length h.fences

theorem fence_mem (h : JobInv job attempts r) (ha : a ∈ attempts) :
    1 ≤ a.fence ∧ a.fence ≤ job.attemptCount := by
  have hm : a.fence ∈ List.range' 1 job.attemptCount :=
    h.fences ▸ List.mem_map_of_mem (f := Attempt.fence) ha
  rw [List.mem_range'_1] at hm
  omega

/-- Two attempts of a job with one fence are the same attempt. -/
theorem eq_of_fence (h : JobInv job attempts r) (ha : a ∈ attempts) (hb : b ∈ attempts)
    (hab : a.fence = b.fence) : a = b := by
  refine List.inj_on_of_nodup_map ?_ ha hb hab
  rw [h.fences]
  exact List.nodup_range'

/-- The attempt whose fence is the job's count. -/
theorem exists_current (h : JobInv job attempts r) (hpos : 0 < job.attemptCount) :
    ∃ a ∈ attempts, a.fence = job.attemptCount := by
  have hm : job.attemptCount ∈ attempts.map Attempt.fence := by
    rw [h.fences, List.mem_range'_1]; omega
  obtain ⟨a, ha, hf⟩ := List.mem_map.mp hm
  exact ⟨a, ha, hf⟩

/-- An open attempt is the current one, its job is held, and it has started if the job
is running. -/
theorem of_open (h : JobInv job attempts r) (ha : a ∈ attempts) (ho : a.finishedAt = none) :
    a.fence = job.attemptCount ∧ job.status.held = true ∧ a.Pending ∧
      (a.startedAt.isSome = true ↔ job.status = .running) := by
  have hle := (h.fence_mem ha).2
  rcases Nat.lt_or_ge a.fence job.attemptCount with hlt | hge
  · have hfin := (h.past a ha hlt).1
    simp [ho] at hfin
  · have hf : a.fence = job.attemptCount := by omega
    refine ⟨hf, ?_⟩
    have hfit := h.current a ha hf
    cases hs : job.status <;> simp_all [Fits, Attempt.Lost, Status.held]

/-- A held job has an open current attempt and no result. -/
theorem of_held (h : JobInv job attempts r) (hs : job.status.held = true) :
    r = none ∧ ∃ a ∈ attempts, a.fence = job.attemptCount ∧ a.Pending ∧
      (a.startedAt.isSome = true ↔ job.status = .running) := by
  have hpos : 0 < job.attemptCount := by
    refine h.tried ?_ ?_ <;> intro hq <;> simp [hq, Status.held] at hs
  obtain ⟨a, ha, hf⟩ := h.exists_current hpos
  have hfit := h.current a ha hf
  cases hst : job.status <;> simp_all [Fits, Status.held]
  · exact ⟨a, ha, hf, hfit.1, hfit.2.1⟩
  · exact ⟨a, ha, hf, hfit.1, hfit.2.1⟩

/-- The step of every change of a current attempt: it is replaced by a version that
fits the job's new state, which keeps the count and the retry limit. -/
theorem move (h : JobInv job attempts r) (ha : a ∈ attempts) (hf : a.fence = job.attemptCount)
    {job' : Job} {r' : Option Result} (hbid : b.id = a.id) (hbf : b.fence = a.fence)
    (hcount : job'.attemptCount = job.attemptCount) (hmax : job'.maxRetries = job.maxRetries)
    (hidle : job'.status.waiting = true ∨ job'.status = .cancelled →
      job.attemptCount ≤ job.maxRetries)
    (hstatus : job'.status ≠ .queued) (hfit : Fits job' b r')
    (hids : ∀ x ∈ attempts, x.id = a.id → x = a) :
    JobInv job' (replaced attempts b) r' where
  fences := by
    rw [hcount, ← h.fences, replaced, List.map_map]
    refine List.map_congr_left fun x hx => ?_
    simp only [Function.comp]
    split
    · rename_i hxb
      rw [hids x hx (hxb.trans hbid), hbf]
    · rfl
  bound := by rw [hcount, hmax]; exact h.bound
  idle_bound := fun hs => by rw [hcount, hmax]; exact hidle hs
  queued := fun hq => absurd hq hstatus
  tried := fun _ _ => by have := (h.fence_mem ha).1; omega
  past := by
    intro x hx hlt
    rcases mem_replaced hx with rfl | ⟨hx, _⟩
    · omega
    · exact h.past x hx (by omega)
  current := by
    intro x hx hxf
    rcases mem_replaced hx with rfl | ⟨hx, hne⟩
    · exact hfit
    · have := h.eq_of_fence hx ha (by omega)
      exact absurd (congrArg Attempt.id this) (hbid ▸ hne)
  untried := by
    intro hnil
    rw [replaced, List.map_eq_nil_iff] at hnil
    simp [hnil] at ha

/-- A new job. -/
theorem new (hq : job.status = .queued) (hc : job.attemptCount = 0) : JobInv job [] none where
  fences := by simp [hc]
  bound := by omega
  idle_bound := fun _ => by omega
  queued := fun _ => hc
  tried := fun h => absurd hq h
  past := by simp
  current := by simp
  untried := fun _ => rfl

/-- A lease appends an attempt with the next fence. -/
theorem lease (h : JobInv job attempts r) (hw : job.status.waiting = true) {job' : Job}
    (hf : a.fence = job.attemptCount + 1) (ho : a.Pending) (hs : a.startedAt = none)
    (hcount : job'.attemptCount = job.attemptCount + 1) (hmax : job'.maxRetries = job.maxRetries)
    (hstatus : job'.status = .leased) : JobInv job' (attempts ++ [a]) r where
  fences := by
    rw [List.map_append, h.fences, hcount, List.range'_concat]
    simp [hf, Nat.add_comm]
  bound := by have := h.idle_bound (Or.inl hw); omega
  idle_bound := by simp [hstatus, Status.waiting]
  queued := by simp [hstatus]
  tried := fun _ _ => by omega
  past := by
    intro x hx hlt
    rcases List.mem_append.mp hx with hx | hx
    · rcases Nat.lt_or_ge x.fence job.attemptCount with hlt | hge
      · exact h.past x hx hlt
      · exact ((h.current x hx (by omega)).of_waiting hw).1
    · rw [List.mem_singleton.mp hx] at hlt; omega
  current := by
    intro x hx hxf
    have hr : r = none := by
      rcases Nat.eq_zero_or_pos job.attemptCount with hz | hpos
      · exact h.untried (List.eq_nil_of_length_eq_zero (h.length_eq.trans hz))
      · obtain ⟨c, hc, hcf⟩ := h.exists_current hpos
        exact ((h.current c hc hcf).of_waiting hw).2
    rcases List.mem_append.mp hx with hx | hx
    · have := (h.fence_mem hx).2; omega
    · rw [List.mem_singleton.mp hx]
      simp [Fits, hstatus, ho, hs, hr]
  untried := by simp

/-- A waiting job is cancelled. -/
theorem cancel (h : JobInv job attempts r) (hw : job.status.waiting = true) {job' : Job}
    (hcount : job'.attemptCount = job.attemptCount) (hmax : job'.maxRetries = job.maxRetries)
    (hstatus : job'.status = .cancelled) : JobInv job' attempts r where
  fences := by rw [hcount]; exact h.fences
  bound := by rw [hcount, hmax]; exact h.bound
  idle_bound := fun _ => by rw [hcount, hmax]; exact h.idle_bound (Or.inl hw)
  queued := by simp [hstatus]
  tried := fun _ h' => absurd hstatus h'
  past := by rw [hcount]; exact h.past
  current := by
    intro x hx hxf
    have hfit := (h.current x hx (by omega)).of_waiting hw
    simpa only [Fits, hstatus] using hfit
  untried := h.untried

end JobInv

/-! ## The database -/

/-- The invariant of the database. -/
structure Inv (db : Database) : Prop where
  job : ∀ job, db.jobs.find? job.id = some job →
    JobInv job (attemptsOf db.attempts job.id) (db.results.find? job.id)
  attempt_job : ∀ a ∈ db.attempts.rows, ∃ job, db.jobs.find? a.jobId = some job
  result_job : ∀ k r, db.results.find? k = some r → ∃ job, db.jobs.find? k = some job
  claims : ∀ a ∈ db.attempts.rows, ∀ b ∈ db.attempts.rows, a.claimId = b.claimId → a = b
  slots : ∀ a ∈ db.attempts.rows, ∀ b ∈ db.attempts.rows, a.finishedAt = none →
    b.finishedAt = none → a.workerId = b.workerId → a.slot = b.slot → a = b

namespace Inv

variable {db db' : Database}

theorem empty : Inv {} where
  job := fun _ h => by simp at h
  attempt_job := fun _ h => by simp at h
  result_job := fun _ _ h => by simp at h
  claims := fun _ h => by simp at h
  slots := fun _ h => by simp at h

/-- The invariant reads jobs, attempts and results only. -/
theorem congr (h : Inv db) (hj : db'.jobs = db.jobs) (ha : db'.attempts = db.attempts)
    (hr : db'.results = db.results) : Inv db' where
  job := by rw [hj, ha, hr]; exact h.job
  attempt_job := by rw [hj, ha]; exact h.attempt_job
  result_job := by rw [hj, hr]; exact h.result_job
  claims := by rw [ha]; exact h.claims
  slots := by rw [ha]; exact h.slots

/-- An open attempt is the current one of its job. -/
theorem holds (h : Inv db) {job : Job} {a : Attempt} (hold : Holds db job a) :
    JobInv job (attemptsOf db.attempts job.id) (db.results.find? job.id) ∧
      a ∈ attemptsOf db.attempts job.id ∧ a.fence = job.attemptCount ∧
      job.status.held = true ∧ a.Pending ∧
      (a.startedAt.isSome = true ↔ job.status = .running) := by
  have hinv := h.job job hold.job_row
  have hmem := mem_attemptsOf.mpr ⟨Table.mem_of_find? hold.attempt_row, hold.attempt_job⟩
  exact ⟨hinv, hmem, hinv.of_open hmem hold.is_open⟩

/-- The current attempt and its job are rewritten together. -/
theorem move (h : Inv db) {job job' : Job} {a b : Attempt} (hold : Holds db job a)
    (hjobs : db'.jobs = db.jobs.put job') (hattempts : db'.attempts = db.attempts.put b)
    (hresults : ∀ k, k ≠ job.id → db'.results.find? k = db.results.find? k)
    (hid : job'.id = job.id) (hcount : job'.attemptCount = job.attemptCount)
    (hmax : job'.maxRetries = job.maxRetries)
    (hidle : job'.status.waiting = true ∨ job'.status = .cancelled →
      job.attemptCount ≤ job.maxRetries)
    (hstatus : job'.status ≠ .queued) (hfit : Fits job' b (db'.results.find? job.id))
    (hbid : b.id = a.id) (hbj : b.jobId = a.jobId) (hbf : b.fence = a.fence)
    (hbw : b.workerId = a.workerId) (hbs : b.slot = a.slot) (hbc : b.claimId = a.claimId) :
    Inv db' := by
  obtain ⟨hinv, hmem, hf, _⟩ := h.holds hold
  have hrow := Table.mem_of_find? hold.attempt_row
  have hfound : ∀ k j, db.jobs.find? k = some j → ∃ j, db'.jobs.find? k = some j :=
    fun k j hk => hjobs ▸ Table.exists_find?_put job' ⟨j, hk⟩
  -- an attempt of the new table is `b`, or an old one other than `a`
  have hcases : ∀ x ∈ db'.attempts.rows, x = b ∨ (x ∈ db.attempts.rows ∧ x ≠ a) := by
    intro x hx
    rw [hattempts] at hx
    rcases Table.mem_put.mp hx with ⟨hx, hne⟩ | ⟨rfl, _⟩
    · exact Or.inr ⟨hx, fun hxa => hne (by rw [hxa]; exact hbid.symm)⟩
    · exact Or.inl rfl
  refine ⟨?_, ?_, ?_, ?_, ?_⟩
  · intro j hj
    rw [hjobs] at hj
    rcases Table.find?_put_eq_some hj with ⟨_, rfl⟩ | ⟨hne, hj⟩
    · rw [hattempts, attemptsOf_put hold.attempt_row hbid hbj, hid]
      exact hinv.move hmem hf hbid hbf hcount hmax hidle hstatus hfit fun x hx hxa =>
        Table.eq_of_key (mem_attemptsOf.mp hx).1 hrow hxa
    · have hne : job.id ≠ j.id := fun h' => hne (hid.trans h')
      rw [hattempts, attemptsOf_put_ne hold.attempt_row hbid hbj (hold.attempt_job ▸ hne),
        hresults _ hne.symm]
      exact h.job j hj
  · intro x hx
    rcases hcases x hx with rfl | ⟨hx, _⟩
    · rw [hbj, hold.attempt_job]
      exact hfound _ _ hold.job_row
    · obtain ⟨j, hj⟩ := h.attempt_job x hx
      exact hfound _ _ hj
  · intro k r hr
    by_cases hk : k = job.id
    · exact hk ▸ hfound _ _ hold.job_row
    · obtain ⟨j, hj⟩ := h.result_job k r (hresults k hk ▸ hr)
      exact hfound _ _ hj
  · intro x hx y hy hxy
    rcases hcases x hx with rfl | ⟨hx, hxa⟩ <;> rcases hcases y hy with rfl | ⟨hy, hya⟩
    · rfl
    · exact absurd (h.claims y hy a hrow (hxy.symm.trans hbc)) hya
    · exact absurd (h.claims x hx a hrow (hxy.trans hbc)) hxa
    · exact h.claims x hx y hy hxy
  · intro x hx y hy hxo hyo hw hs
    rcases hcases x hx with rfl | ⟨hx, hxa⟩ <;> rcases hcases y hy with rfl | ⟨hy, hya⟩
    · rfl
    · exact absurd (h.slots y hy a hrow hyo hold.is_open (hw.symm.trans hbw)
        (hs.symm.trans hbs)) hya
    · exact absurd (h.slots x hx a hrow hxo hold.is_open (hw.trans hbw) (hs.trans hbs)) hxa
    · exact h.slots x hx y hy hxo hyo hw hs

/-- Only the row of one job is rewritten. -/
theorem setJob (h : Inv db) {job job' : Job} (hjobs : db'.jobs = db.jobs.put job')
    (hattempts : db'.attempts = db.attempts)
    (hresults : db'.results = db.results) (hid : job'.id = job.id)
    (hinv : JobInv job' (attemptsOf db.attempts job.id) (db.results.find? job.id)) : Inv db' := by
  have hfound : ∀ k j, db.jobs.find? k = some j → ∃ j, db'.jobs.find? k = some j :=
    fun k j hk => hjobs ▸ Table.exists_find?_put job' ⟨j, hk⟩
  refine ⟨?_, ?_, ?_, ?_, ?_⟩
  · intro j hj
    rw [hattempts, hresults]
    rw [hjobs] at hj
    rcases Table.find?_put_eq_some hj with ⟨_, rfl⟩ | ⟨_, hj⟩
    · rw [hid]; exact hinv
    · exact h.job j hj
  · intro x hx
    obtain ⟨j, hj⟩ := h.attempt_job x (hattempts ▸ hx)
    exact hfound _ _ hj
  · intro k r hr
    obtain ⟨j, hj⟩ := h.result_job k r (hresults ▸ hr)
    exact hfound _ _ hj
  · rw [hattempts]; exact h.claims
  · rw [hattempts]; exact h.slots

theorem admitted (h : Inv db) {job : Job} {queueLimit submissionsPerMinute : ℕ}
    (hadm : Admissible db job queueLimit submissionsPerMinute)
    (hjobs : db'.jobs = db.jobs.add job) (hattempts : db'.attempts = db.attempts)
    (hresults : db'.results = db.results) : Inv db' := by
  have hfound : ∀ k j, db.jobs.find? k = some j → ∃ j, db'.jobs.find? k = some j := by
    intro k j hk
    refine ⟨j, ?_⟩
    rw [hjobs, Table.find?_add_ne, hk]
    rintro rfl
    rw [key_job, hadm.fresh] at hk
    simp at hk
  refine ⟨?_, ?_, ?_, ?_, ?_⟩
  · intro j hj
    rw [hattempts, hresults]
    rw [hjobs] at hj
    rcases Table.find?_add_eq_some hadm.fresh hj with ⟨_, rfl⟩ | hj
    · have hnone : attemptsOf db.attempts j.id = [] := by
        refine List.eq_nil_iff_forall_not_mem.mpr fun a ha => ?_
        obtain ⟨ha, haj⟩ := mem_attemptsOf.mp ha
        obtain ⟨p, hp⟩ := h.attempt_job a ha
        simp [haj, hadm.fresh] at hp
      have hres : db.results.find? j.id = none := by
        refine Option.eq_none_iff_forall_ne_some.mpr fun r hr => ?_
        obtain ⟨p, hp⟩ := h.result_job _ r hr
        simp [hadm.fresh] at hp
      rw [hnone, hres]
      exact JobInv.new hadm.queued hadm.no_attempts
    · exact h.job j hj
  · intro x hx
    obtain ⟨j, hj⟩ := h.attempt_job x (hattempts ▸ hx)
    exact hfound _ _ hj
  · intro k r hr
    obtain ⟨j, hj⟩ := h.result_job k r (hresults ▸ hr)
    exact hfound _ _ hj
  · rw [hattempts]; exact h.claims
  · rw [hattempts]; exact h.slots

theorem lease (h : Inv db) {w : Worker} {job job' : Job} {a : Attempt} {timestamp : Time}
    (hl : Leasable db w job a timestamp) (hjobs : db'.jobs = db.jobs.put job')
    (hattempts : db'.attempts = db.attempts.add a) (hresults : db'.results = db.results)
    (hid : job'.id = job.id) (hcount : job'.attemptCount = job.attemptCount + 1)
    (hmax : job'.maxRetries = job.maxRetries) (hstatus : job'.status = .leased) : Inv db' := by
  have hw := (claimable_iff.mp hl.ready).1
  have hmem : ∀ x, x ∈ db'.attempts.rows ↔ x ∈ db.attempts.rows ∨ x = a := by
    intro x; rw [hattempts]; exact Table.mem_add hl.fresh
  have hfound : ∀ k j, db.jobs.find? k = some j → ∃ j, db'.jobs.find? k = some j :=
    fun k j hk => hjobs ▸ Table.exists_find?_put job' ⟨j, hk⟩
  refine ⟨?_, ?_, ?_, ?_, ?_⟩
  · intro j hj
    rw [hattempts, attemptsOf_add hl.fresh, hresults]
    rw [hjobs] at hj
    rcases Table.find?_put_eq_some hj with ⟨_, rfl⟩ | ⟨hne, hj⟩
    · rw [if_pos (hl.attempt_job.trans hid.symm), hid]
      exact (h.job job hl.job_row).lease hw hl.fence
        ⟨hl.is_new.1, hl.is_new.2.2⟩ hl.is_new.2.1 hcount hmax hstatus
    · rw [if_neg fun h' => hne (hid.trans (hl.attempt_job.symm.trans h')), List.append_nil]
      exact h.job j hj
  · intro x hx
    rcases (hmem x).mp hx with hx | rfl
    · obtain ⟨j, hj⟩ := h.attempt_job x hx
      exact hfound _ _ hj
    · rw [hl.attempt_job]; exact hfound _ _ hl.job_row
  · intro k r hr
    obtain ⟨j, hj⟩ := h.result_job k r (hresults ▸ hr)
    exact hfound _ _ hj
  · intro x hx y hy hxy
    rcases (hmem x).mp hx with hx | rfl <;> rcases (hmem y).mp hy with hy | rfl
    · exact h.claims x hx y hy hxy
    · exact absurd hxy (hl.claim_fresh x hx)
    · exact absurd hxy.symm (hl.claim_fresh y hy)
    · rfl
  · intro x hx y hy hxo hyo hxw hxs
    rcases (hmem x).mp hx with hx | rfl <;> rcases (hmem y).mp hy with hy | rfl
    · exact h.slots x hx y hy hxo hyo hxw hxs
    · have := hl.slot_free x hx (hxw.trans hl.attempt_worker) hxs
      simp [Attempt.isOpen, hxo] at this
    · have := hl.slot_free y hy (hxw.symm.trans hl.attempt_worker) hxs.symm
      simp [Attempt.isOpen, hyo] at this
    · rfl

/-- Every change preserves the invariant. -/
theorem effect (h : Inv db) {c : Change} (hg : c.guard db) : Inv (c.effect db) := by
  cases c with
  | admitted job q n now now' => exact h.admitted hg rfl rfl rfl
  | lease w job a t s => exact h.lease hg rfl rfl rfl rfl rfl rfl rfl
  | start job a t s =>
      obtain ⟨hold, _, hst⟩ := hg
      obtain ⟨hinv, _, _, hheld, hpend, _⟩ := h.holds hold
      have hres := (hinv.of_held hheld).1
      have hpend' : ({ a with startedAt := some t } : Attempt).Pending := hpend
      exact h.move hold rfl rfl (fun _ _ => rfl) rfl rfl rfl (by simp [Job.enter, Status.waiting])
        (by simp [Job.enter]) (by simp [Fits, Job.enter, Change.effect, hres, hpend'])
        rfl rfl rfl rfl rfl rfl
  | renew job a t =>
      obtain ⟨hold, hf, hs⟩ := hg
      obtain ⟨hinv, hmem, _, hheld, hpend, hrun⟩ := h.holds hold
      have hres := (hinv.of_held hheld).1
      have hst : job.status = .running := hrun.mp hs
      have hpend' : ({ a with expiresAt := t } : Attempt).Pending := hpend
      refine h.move hold (Table.put_self hold.job_row).symm rfl (fun _ _ => rfl) rfl rfl rfl
        ?_ ?_ ?_ rfl rfl rfl rfl rfl rfl
      · simp [hst, Status.waiting]
      · simp [hst]
      · simp [Fits, hst, Change.effect, hres, hpend', hs]
  | succeed job a o t s =>
      obtain ⟨hold, _, _, hr⟩ := hg
      refine h.move hold rfl rfl (fun k hk => Table.find?_add_ne _ (Ne.symm hk)) rfl rfl rfl
        (by simp [Job.enter, Status.waiting]) (by simp [Job.enter]) ?_ rfl rfl rfl rfl rfl rfl
      have hadd : (db.results.add ⟨job.id, o, none⟩).find? job.id = some ⟨job.id, o, none⟩ :=
        Table.find?_add_self (r := (⟨job.id, o, none⟩ : Result)) hr
      simp [Fits, Job.enter, Attempt.deliver, Change.effect, hadd]
  | retry job a o e t t' s =>
      obtain ⟨hold, hheld, hle, ho, _⟩ := hg
      have hfit := (h.holds hold).1.of_held hheld
      refine h.move hold rfl rfl (fun _ _ => rfl) rfl rfl rfl (fun _ => hle) (by simp [Job.enter])
        ?_ rfl rfl rfl rfl rfl rfl
      cases o <;> simp_all [Fits, Job.enter, Attempt.close, Attempt.Lost, Change.effect]
  | fail job a o e r t s =>
      obtain ⟨hold, hheld, hmax, hperm, ho, _, hr⟩ := hg
      have hb := (h.holds hold).1.bound
      refine h.move hold rfl rfl (fun k hk => Table.find?_add_ne _ (Ne.symm hk)) rfl rfl rfl
        ?_ ?_ ?_ rfl rfl rfl rfl rfl rfl
      · cases r <;> simp [Job.enter, Status.waiting]
      · cases r <;> simp [Job.enter]
      · have hadd : (db.results.add ⟨job.id, none, some e⟩).find? job.id =
            some ⟨job.id, none, some e⟩ :=
          Table.find?_add_self (r := (⟨job.id, none, some e⟩ : Result)) hr
        cases r with
        | false => simp [Fits, Job.enter, Attempt.close, Change.effect, hadd, hperm rfl]
        | true =>
            have := hmax rfl
            cases o <;> simp_all [Fits, Job.enter, Attempt.close, Attempt.Lost, Change.effect]
            all_goals omega
  | cancel job s =>
      exact h.setJob rfl rfl rfl rfl ((h.job job hg.1).cancel hg.2 rfl rfl rfl)
  | enroll w => exact h.congr rfl rfl rfl
  | seen w t => exact h.congr rfl rfl rfl
  | drain w => exact h.congr rfl rfl rfl
  | takeover w b hash t => exact h.congr rfl rfl rfl
  | mark w s => exact h.congr rfl rfl rfl
  | log e => exact h.congr rfl rfl rfl

end Inv
end GreyQueue
