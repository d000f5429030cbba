import GreyQueue.Leasing
import GreyQueue.Lib.Pool

/-!
# Draining the queue

With the clock standing still and no row locked, claims for free slots of healthy workers
take the eligible jobs one after the other, each in the order of its policy, and find
nothing once the last one is taken.  A lease makes its job ineligible and no other one: the
jobs are a pool from which the claims draw.

## Main definitions

* `Eligible` — what the policies have in common.
* `Call.Fits` — a claim with a fresh id for a free slot.
* `Fitting` — claims of which each fits what the ones before have left.

## Main results

* `Call.Fits.draws` — one claim draws one job.
* `claims_drain` — claims in a row.
-/

namespace GreyQueue

open Lib

/-- The job is waiting, its time has come, its task is among the capabilities, and its
parent has succeeded, if it has one. -/
def Eligible (capabilities : List String) (t : Time) (db : Database) (job : Job) : Prop :=
  (job.status = .queued ∨ job.status = .retryWait) ∧ job.availableAt ≤ t ∧
    job.task ∈ capabilities ∧
    (job.dependsOn = none ∨
      ∃ parent ∈ db.jobs.rows, job.dependsOn = some parent.id ∧ parent.status = .succeeded)

instance (capabilities : List String) (t : Time) (db : Database) :
    DecidablePred (Eligible capabilities t db) := fun job =>
  inferInstanceAs (Decidable ((job.status = .queued ∨ job.status = .retryWait) ∧
    job.availableAt ≤ t ∧ job.task ∈ capabilities ∧
    (job.dependsOn = none ∨
      ∃ parent ∈ db.jobs.rows, job.dependsOn = some parent.id ∧ parent.status = .succeeded)))

/-- The eligible jobs, in the order of the table. -/
def eligibleJobs (capabilities : List String) (t : Time) (db : Database) : List Job :=
  db.jobs.rows.filter fun job => decide (Eligible capabilities t db job)

theorem mem_eligibleJobs {capabilities : List String} {t : Time} {db : Database} {job : Job} :
    job ∈ eligibleJobs capabilities t db ↔
      job ∈ db.jobs.rows ∧ Eligible capabilities t db job := by
  rw [eligibleJobs, List.mem_filter, decide_eq_true_iff]

theorem eligibleJobs_nodup (capabilities : List String) (t : Time) (db : Database) :
    ((eligibleJobs capabilities t db).map Keyed.key).Nodup :=
  (List.filter_sublist.map Keyed.key).nodup db.jobs.nodup

theorem claimable_iff_eligible {db : Database} {worker : Worker} {t : Time} {job : Job} :
    claimable db worker t job = true ↔ Eligible worker.capabilities t db job := by
  simp [claimable, Eligible, readyParent, and_assoc]

/-- Without locks the head of the query is the first of the eligible jobs. -/
theorem head_eq_first {p : Policy} {worker : Worker} {t : Time} {m : Moment} {db : Database}
    (h : ∀ id, m.locked id = false) :
    p.head worker t m db = Pool.first Policy.before p (eligibleJobs worker.capabilities t db) := by
  have hfilter : db.jobs.rows.filter (claimable db worker t) =
      eligibleJobs worker.capabilities t db :=
    List.filter_congr fun job _ => by rw [Bool.eq_iff_iff, claimable_iff_eligible]; simp
  rw [Policy.head, Policy.query, hfilter, Pool.first]
  cases (eligibleJobs worker.capabilities t db).insertionSort p.before with
  | nil => rfl
  | cons job rest => simp [h]

/-- A lease takes its job from the eligible ones. -/
theorem eligibleJobs_put {db db' : Database} {job job' : Job} {capabilities : List String}
    {t : Time} (hjobs : db'.jobs = db.jobs.put job') (hid : job'.id = job.id)
    (hmem : job ∈ db.jobs.rows) (hwait : job.status ≠ .succeeded)
    (hleased : job'.status = .leased) :
    eligibleJobs capabilities t db' = Pool.without (eligibleJobs capabilities t db) job := by
  -- the same rows have succeeded
  have hdone : ∀ k : Job, (∃ p ∈ db'.jobs.rows, k.dependsOn = some p.id ∧ p.status = .succeeded) ↔
      ∃ p ∈ db.jobs.rows, k.dependsOn = some p.id ∧ p.status = .succeeded := by
    intro k
    constructor
    · rintro ⟨p, hp, hk, hs⟩
      rw [hjobs] at hp
      rcases Table.mem_put.mp hp with ⟨hp, -⟩ | ⟨rfl, -⟩
      · exact ⟨p, hp, hk, hs⟩
      · rw [hleased] at hs
        cases hs
    · rintro ⟨p, hp, hk, hs⟩
      refine ⟨p, ?_, hk, hs⟩
      rw [hjobs]
      refine Table.mem_put.mpr (Or.inl ⟨hp, fun hkey => hwait ?_⟩)
      rw [← hs, Table.eq_of_key hp hmem (hkey.trans hid)]
  have hsame : ∀ k : Job, Eligible capabilities t db' k ↔ Eligible capabilities t db k :=
    fun k => by rw [Eligible, Eligible, hdone]
  have hnew : ¬ Eligible capabilities t db' job' := fun h => by
    rcases h.1 with h | h <;> rw [hleased] at h <;> cases h
  rw [eligibleJobs, hjobs, Table.rows_put, List.filter_map, eligibleJobs, Pool.without,
    List.filter_filter]
  have hfilter : db.jobs.rows.filter ((fun k => decide (Eligible capabilities t db' k)) ∘
        fun k => if Keyed.key k = Keyed.key job' then job' else k) =
      db.jobs.rows.filter fun k => decide (Keyed.key k ≠ Keyed.key job) &&
        decide (Eligible capabilities t db k) := by
    refine List.filter_congr fun k _ => ?_
    by_cases hk : k.id = job.id
    · simp [hid, hk, hnew]
    · simp [hid, hk, hsame]
  rw [hfilter]
  -- the rows that stay are not the one that was rewritten
  refine (List.map_congr_left fun k hk => ?_).trans (List.map_id _)
  have hne : Keyed.key k ≠ Keyed.key job' := by
    have hk := List.of_mem_filter hk
    simp only [Bool.and_eq_true, decide_eq_true_eq] at hk
    exact fun h => hk.1 (h.trans hid)
  exact if_neg hne

/-! ## Claims -/

/-- A call of `claim`. -/
structure Call where
  workerId : String
  slot : ℤ
  claimId : Uuid
  policy : Policy
  leaseSeconds : ℚ
  feed : ℕ → Moment

/-- The run of the call on a database. -/
def Call.exec (c : Call) (db : Database) :
    Outcome Error Database Moment (Option (Job × Attempt)) :=
  (claim c.workerId c.slot (some c.claimId) c.policy c.leaseSeconds).exec c.feed db

/-- The database after the call. -/
def Call.next (c : Call) (db : Database) : Database := (c.exec db).state

/-- The job that the call returns. -/
def Call.answer (c : Call) (db : Database) : Except Error (Option Uuid) :=
  (c.exec db).result.map fun r => r.map fun r => r.1.id

/-- The call has a fresh claim id and is for a free slot of a healthy worker with the
capabilities.  The clock shows `t`, no row is locked, and `uuid4` draws a fresh key. -/
structure Call.Fits (capabilities : List String) (t : Time) (db : Database) (c : Call) :
    Prop where
  worker : ∃ w, db.workers.find? c.workerId = some w ∧ w.state = .healthy ∧
    w.capabilities = capabilities ∧ 0 ≤ c.slot ∧ c.slot < w.capacity
  slot_free : ∀ a ∈ db.attempts.rows, a.workerId = c.workerId → a.slot = c.slot →
    a.isOpen = false
  claim_fresh : ∀ a ∈ db.attempts.rows, a.claimId ≠ c.claimId
  clock : ∀ n, (c.feed n).time = t
  unlocked : ∀ n id, (c.feed n).locked id = false
  key_fresh : db.attempts.find? (c.feed 6).uuid = none

/-- Calls in a row, each of which fits the database that the ones before have left. -/
def Fitting (capabilities : List String) (t : Time) : Database → List Call → Prop
  | _, [] => True
  | db, c :: calls => c.Fits capabilities t db ∧ Fitting capabilities t (c.next db) calls

/-- What calls in a row return. -/
def answers : Database → List Call → List (Except Error (Option Uuid))
  | _, [] => []
  | db, c :: calls => c.answer db :: answers (c.next db) calls

section OneCall

variable {capabilities : List String} {t : Time} {db : Database} {c : Call}

/-- One call draws the first of the eligible jobs. -/
theorem Call.Fits.draws (hinv : Inv db) (h : c.Fits capabilities t db) :
    Inv (c.next db) ∧
      (Pool.first Policy.before c.policy (eligibleJobs capabilities t db) = none →
        c.answer db = .ok none ∧ c.next db = db) ∧
      ∀ job, Pool.first Policy.before c.policy (eligibleJobs capabilities t db) = some job →
        c.answer db = .ok (some job.id) ∧
          eligibleJobs capabilities t (c.next db) =
            Pool.without (eligibleJobs capabilities t db) job := by
  obtain ⟨w, hw, hhealthy, rfl, hpos, hcap⟩ := h.worker
  have hid : w.id = c.workerId := Table.key_of_find? hw
  have hrange : ¬ (c.slot < 0 ∨ w.capacity ≤ c.slot) := by omega
  have hexec := exec_claim_free hw hrange h.claim_fresh h.slot_free c.policy c.leaseSeconds c.feed
  rw [if_neg (by simp [hhealthy])] at hexec
  have hhead : c.policy.head w (c.feed 3).time (c.feed 4) db =
      Pool.first Policy.before c.policy (eligibleJobs w.capabilities t db) := by
    rw [head_eq_first (h.unlocked 4), h.clock]
  rw [← hhead]
  cases hfirst : c.policy.head w (c.feed 3).time (c.feed 4) db with
  | none =>
      rw [exec_lease_none hfirst] at hexec
      have hnext : c.next db = db := congrArg Outcome.state hexec
      have hanswer : c.answer db = .ok none := by
        rw [Call.answer, Call.exec, hexec]
        rfl
      exact ⟨hnext.symm ▸ hinv, fun _ => ⟨hanswer, hnext⟩, fun _ hsome => by cases hsome⟩
  | some job =>
      obtain ⟨hmem, hready⟩ := mem_query.mp (List.mem_of_find?_eq_some hfirst)
      have hwait := (claimable_iff.mp hready).1
      have hidle := hinv.idle job (Table.find?_of_mem hmem) hwait
      rw [(exec_lease_some (fun n => c.feed (n + 3)) hfirst h.claim_fresh (hid ▸ h.slot_free)
        hidle).1 h.key_fresh] at hexec
      have hguard : (leaseOf w c.slot c.claimId c.leaseSeconds (fun n => c.feed (n + 3))
          job).guard db :=
        leaseOf_guard (hid ▸ hw) hhealthy hrange hfirst h.claim_fresh (hid ▸ h.slot_free)
          h.key_fresh
      have hnext : c.next db = _ := congrArg Outcome.state hexec
      have hanswer : c.answer db = .ok (some job.id) := by
        rw [Call.answer, Call.exec, hexec]
        rfl
      have hunfinished : job.status ≠ .succeeded := fun hs => by
        rw [hs] at hwait
        cases hwait
      refine ⟨hnext.symm ▸ hinv.effect hguard, fun hnone => (by cases hnone), ?_⟩
      rintro _ ⟨⟩
      exact ⟨hanswer, hnext.symm ▸ eligibleJobs_put rfl rfl hmem hunfinished rfl⟩

end OneCall

/-- Calls in a row draw from the eligible jobs, each in the order of its policy. -/
theorem answers_eq_draw {capabilities : List String} {t : Time} {db : Database}
    (hinv : Inv db) {calls : List Call} (h : Fitting capabilities t db calls) :
    answers db calls = (Pool.draw Policy.before (calls.map Call.policy)
      (eligibleJobs capabilities t db)).map fun row => .ok (row.map Job.id) := by
  induction calls generalizing db with
  | nil => rfl
  | cons c calls ih =>
      obtain ⟨hc, hrest⟩ := h
      obtain ⟨hnext, hnone, hsome⟩ := hc.draws hinv
      rw [answers, ih hnext hrest, List.map_cons, Pool.draw]
      cases hfirst : Pool.first Policy.before c.policy (eligibleJobs capabilities t db) with
      | none =>
          obtain ⟨hanswer, hstate⟩ := hnone hfirst
          rw [hanswer, hstate]
          rfl
      | some job =>
          obtain ⟨hanswer, heligible⟩ := hsome job hfirst
          rw [hanswer, heligible]
          rfl

/-- With the clock standing still and no row locked, claims for free slots of healthy workers
return the eligible jobs, each once, and then nothing, whichever policies they mix.  Under one
policy the jobs come in its order. -/
theorem claims_in_order [Sha256] (txns : List Txn) {capabilities : List String} {t : Time}
    {calls : List Call} (h : Fitting capabilities t (run txns) calls) : ∃ taken : List Job,
    answers (run txns) calls = taken.map (fun job => .ok (some job.id)) ++
      List.replicate (calls.length - (eligibleJobs capabilities t (run txns)).length) (.ok none) ∧
    (taken.map Job.id).Nodup ∧ (∀ job ∈ taken, job ∈ eligibleJobs capabilities t (run txns)) ∧
    taken.length = min calls.length (eligibleJobs capabilities t (run txns)).length ∧
    ((eligibleJobs capabilities t (run txns)).length ≤ calls.length →
      taken.Perm (eligibleJobs capabilities t (run txns))) ∧
    ((∀ c ∈ calls, c.policy = .fifo) → taken =
      ((eligibleJobs capabilities t (run txns)).insertionSort fifoBefore).take calls.length) ∧
    ((∀ c ∈ calls, c.policy = .priority ∨ c.policy = .capacity) → taken =
      ((eligibleJobs capabilities t (run txns)).insertionSort priorityBefore).take
        calls.length) := by
  have hnodup := eligibleJobs_nodup capabilities t (run txns)
  obtain ⟨taken, rest, hdraw, hperm, hlength, -⟩ :=
    Pool.draw_spec Policy.before (calls.map Call.policy) hnodup
  have hanswers := answers_eq_draw (run_inv txns) h
  rw [hdraw, List.length_map] at hanswers
  rw [List.length_map] at hlength
  have hids : (taken.map Job.id).Nodup := by
    have hall := (hperm.map Job.id).nodup_iff.mp hnodup
    rw [List.map_append] at hall
    exact hall.of_append_left
  -- where the policies agree on an order
  have hsorted : ∀ p : Policy, (∀ c ∈ calls, c.policy.before = p.before) → taken =
      ((eligibleJobs capabilities t (run txns)).insertionSort p.before).take calls.length := by
    intro p hp
    have heq := hdraw.symm.trans (Pool.draw_sorted Policy.before hnodup
      (List.forall_mem_map.mpr fun c hc a b hab => hp c hc ▸ hab)
      fun a ha b hb hab hba => Table.eq_of_key (mem_eligibleJobs.mp ha).1
        (mem_eligibleJobs.mp hb).1 (p.before_antisymm hab hba))
    rw [List.append_cancel_right_eq, List.length_map] at heq
    exact List.map_injective_iff.mpr (Option.some_injective Job) heq
  refine ⟨taken, ?_, hids, fun job hjob => hperm.mem_iff.mpr (List.mem_append_left rest hjob),
    hlength, fun hle => ?_, fun hfifo => ?_, fun hpriority => ?_⟩
  · rw [hanswers, List.map_append, List.map_map, List.map_replicate]
    rfl
  · have hrest : rest = [] := by
      have htotal := hperm.length_eq
      rw [List.length_append] at htotal
      exact List.length_eq_zero_iff.mp (by omega)
    rw [hrest, List.append_nil] at hperm
    exact hperm.symm
  · exact hsorted .fifo fun c hc => by rw [hfifo c hc]
  · refine hsorted .priority fun c hc => ?_
    rcases hpriority c hc with h | h
    · rw [h]
    · rw [h]
      rfl

/-- A worker with four slots, an urgent job between two others, and one job whose parent has
not succeeded. -/
def urgentJob : List Txn := [
  { request := .register { Registration.first with capacity := 4, capacity_range := by decide }, feed := .still 0 },
  { request := .submit .flaky, feed := .still 1 },
  { request := .submit { Submit.flaky with priority := 5, priority_range := by decide }, feed := .still 2 },
  { request := .submit .flaky, feed := .still 3 },
  { request := .submit { Submit.flaky with dependsOn := some 104 }, feed := .still 4 }]

/-- A claim for each slot, the first by priority. -/
def fourCalls : List Call :=
  [⟨"w1", 0, 1, .priority, 30, .still 5⟩,
    ⟨"w1", 1, 2, .fifo, 30, fun n => { Moment.still 6 n with time := 5 }⟩,
    ⟨"w1", 2, 3, .capacity, 30, fun n => { Moment.still 7 n with time := 5 }⟩,
    ⟨"w1", 3, 4, .fifo, 30, fun n => { Moment.still 8 n with time := 5 }⟩]

theorem Call.Fits.of_still {capabilities : List String} {t : Time} {db : Database} {c : Call}
    (hworker : (db.workers.find? c.workerId).any (fun w => decide (w.state = .healthy ∧
      w.capabilities = capabilities ∧ 0 ≤ c.slot ∧ c.slot < w.capacity)) = true)
    (hrows : (db.attempts.rows.all fun a => decide (a.claimId ≠ c.claimId ∧
      (a.workerId = c.workerId → a.slot = c.slot → a.isOpen = false))) = true)
    (hkey : db.attempts.find? (c.feed 6).uuid = none) (hclock : ∀ n, (c.feed n).time = t)
    (hlocked : ∀ n id, (c.feed n).locked id = false) : c.Fits capabilities t db where
  worker := by
    obtain ⟨w, hw, hfits⟩ := (Option.any_eq_true _ _).mp hworker
    exact ⟨w, hw, of_decide_eq_true hfits⟩
  slot_free a ha := (of_decide_eq_true (List.all_eq_true.mp hrows a ha)).2
  claim_fresh a ha := (of_decide_eq_true (List.all_eq_true.mp hrows a ha)).1
  clock := hclock
  unlocked := hlocked
  key_fresh := hkey

theorem fourCalls_fitting :
    letI := Sha256.tabulated []
    Fitting (registry.map Prod.fst) 5 (run urgentJob) fourCalls := by
  let := Sha256.tabulated []
  have hclock : ∀ t n : ℕ, ({ Moment.still t n with time := 5 } : Moment).time = 5 :=
    fun _ _ => rfl
  have hlocked : ∀ (t n : ℕ) (id : Uuid), (Moment.still t n).locked id = false :=
    fun _ _ _ => rfl
  exact ⟨.of_still (by decide +kernel) (by decide +kernel) (by decide +kernel) (hclock 5)
      (hlocked 5),
    .of_still (by decide +kernel) (by decide +kernel) (by decide +kernel) (hclock 6) (hlocked 6),
    .of_still (by decide +kernel) (by decide +kernel) (by decide +kernel) (hclock 7) (hlocked 7),
    .of_still (by decide +kernel) (by decide +kernel) (by decide +kernel) (hclock 8) (hlocked 8),
    trivial⟩

theorem claims_in_order_mixed :
    letI := Sha256.tabulated []
    answers (run urgentJob) fourCalls =
        [.ok (some 204), .ok (some 104), .ok (some 304), .ok none] ∧
      ∃ taken : List Job, taken.Perm (eligibleJobs (registry.map Prod.fst) 5 (run urgentJob)) ∧
        answers (run urgentJob) fourCalls = taken.map (fun job => .ok (some job.id)) ++
          List.replicate (4 - (eligibleJobs (registry.map Prod.fst) 5 (run urgentJob)).length)
            (.ok none) := by
  let := Sha256.tabulated []
  obtain ⟨taken, hanswers, -, -, -, hperm, -⟩ := claims_in_order urgentJob fourCalls_fitting
  exact ⟨by decide +kernel, taken, hperm (by decide +kernel), hanswers⟩

end GreyQueue
