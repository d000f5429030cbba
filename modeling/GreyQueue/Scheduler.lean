import GreyQueue.Models

/-!
# Scheduling policies

The three policies of `scheduler.py` share one filter and differ in the order.
A query is evaluated on a database and on the version of the job row under test,
since a locking read tests the newest version of a row it had to wait for.
-/

namespace GreyQueue

open Lib

/-- The configured scheduler. -/
inductive Policy
  | fifo | priority | capacity
  deriving DecidableEq, Repr

/-- The `EXISTS` subquery: the parent of the job has succeeded. -/
def readyParent (db : Database) (job : Job) : Bool :=
  db.jobs.rows.any fun parent =>
    decide (job.dependsOn = some parent.id) && decide (parent.status = .succeeded)

/-- The `WHERE` clause of `FIFOScheduler.query`, shared by every policy. -/
def claimable (db : Database) (worker : Worker) (timestamp : Time) (job : Job) : Bool :=
  (decide (job.status = .queued) || decide (job.status = .retryWait)) &&
    decide (job.availableAt ≤ timestamp) &&
    decide (job.task ∈ worker.capabilities) &&
    (job.dependsOn.isNone || readyParent db job)

/-- `ORDER BY created_at, id`. -/
def fifoBefore (a b : Job) : Prop :=
  a.createdAt < b.createdAt ∨ (a.createdAt = b.createdAt ∧ a.id ≤ b.id)

/-- `ORDER BY priority DESC, created_at, id`. -/
def priorityBefore (a b : Job) : Prop :=
  b.priority < a.priority ∨ (a.priority = b.priority ∧ fifoBefore a b)

instance (a b : Job) : Decidable (fifoBefore a b) :=
  inferInstanceAs (Decidable (a.createdAt < b.createdAt ∨ (a.createdAt = b.createdAt ∧ a.id ≤ b.id)))
instance (a b : Job) : Decidable (priorityBefore a b) :=
  inferInstanceAs (Decidable (b.priority < a.priority ∨ (a.priority = b.priority ∧ fifoBefore a b)))

/-- The order of each policy; `CapacityAwareScheduler` inherits the priority order. -/
def Policy.before : Policy → Job → Job → Prop
  | .fifo => fifoBefore
  | .priority => priorityBefore
  | .capacity => priorityBefore

instance (p : Policy) : DecidableRel p.before := fun a b =>
  match p with
  | .fifo => inferInstanceAs (Decidable (fifoBefore a b))
  | .priority => inferInstanceAs (Decidable (priorityBefore a b))
  | .capacity => inferInstanceAs (Decidable (priorityBefore a b))

/-- `scheduler(policy).query(worker, timestamp)`: the claimable jobs in policy order. -/
def Policy.query (p : Policy) (worker : Worker) (timestamp : Time) (db : Database) : List Job :=
  (db.jobs.rows.filter (claimable db worker timestamp)).insertionSort p.before

theorem mem_query {p : Policy} {worker : Worker} {timestamp : Time} {db : Database} {job : Job} :
    job ∈ p.query worker timestamp db ↔
      job ∈ db.jobs.rows ∧ claimable db worker timestamp job = true := by
  rw [Policy.query, List.mem_insertionSort, List.mem_filter]

theorem readyParent_iff {db : Database} {job : Job} :
    readyParent db job = true ↔
      ∃ parent ∈ db.jobs.rows, job.dependsOn = some parent.id ∧ parent.status = .succeeded := by
  simp [readyParent]

theorem claimable_iff {db : Database} {worker : Worker} {timestamp : Time} {job : Job} :
    claimable db worker timestamp job = true ↔
      job.status.waiting = true ∧ job.availableAt ≤ timestamp ∧
        job.task ∈ worker.capabilities ∧ (job.dependsOn = none ∨ readyParent db job = true) := by
  have hw : job.status.waiting = true ↔ job.status = .queued ∨ job.status = .retryWait := by
    cases job.status <;> simp [Status.waiting]
  simp [claimable, hw, and_assoc]

/-! ## The orders are total -/

theorem fifoBefore_total (a b : Job) : fifoBefore a b ∨ fifoBefore b a := by
  rcases lt_trichotomy a.createdAt b.createdAt with h | h | h
  · exact Or.inl (Or.inl h)
  · exact (le_total a.id b.id).imp (fun hid => Or.inr ⟨h, hid⟩) fun hid => Or.inr ⟨h.symm, hid⟩
  · exact Or.inr (Or.inl h)

theorem fifoBefore_trans {a b c : Job} (h : fifoBefore a b) (h' : fifoBefore b c) :
    fifoBefore a c := by
  rcases h with h | ⟨h, hid⟩ <;> rcases h' with h' | ⟨h', hid'⟩
  · exact Or.inl (h.trans h')
  · exact Or.inl (h' ▸ h)
  · exact Or.inl (h ▸ h')
  · exact Or.inr ⟨h.trans h', hid.trans hid'⟩

theorem fifoBefore_antisymm {a b : Job} (h : fifoBefore a b) (h' : fifoBefore b a) :
    a.id = b.id := by
  rcases h with h | ⟨h, hid⟩ <;> rcases h' with h' | ⟨h', hid'⟩
  · exact absurd h' h.not_gt
  · exact absurd h'.symm h.ne
  · exact absurd h.symm h'.ne
  · exact le_antisymm hid hid'

theorem priorityBefore_total (a b : Job) : priorityBefore a b ∨ priorityBefore b a := by
  rcases lt_trichotomy a.priority b.priority with h | h | h
  · exact Or.inr (Or.inl h)
  · exact (fifoBefore_total a b).imp (fun hf => Or.inr ⟨h, hf⟩) fun hf => Or.inr ⟨h.symm, hf⟩
  · exact Or.inl (Or.inl h)

theorem priorityBefore_trans {a b c : Job} (h : priorityBefore a b) (h' : priorityBefore b c) :
    priorityBefore a c := by
  rcases h with h | ⟨h, hf⟩ <;> rcases h' with h' | ⟨h', hf'⟩
  · exact Or.inl (h'.trans h)
  · exact Or.inl (h' ▸ h)
  · exact Or.inl (h ▸ h')
  · exact Or.inr ⟨h.trans h', fifoBefore_trans hf hf'⟩

theorem priorityBefore_antisymm {a b : Job} (h : priorityBefore a b) (h' : priorityBefore b a) :
    a.id = b.id := by
  rcases h with h | ⟨h, hf⟩ <;> rcases h' with h' | ⟨h', hf'⟩
  · exact absurd h' h.not_gt
  · exact absurd h' h.ne
  · exact absurd h h'.ne
  · exact fifoBefore_antisymm hf hf'

instance Policy.before_total (p : Policy) : Std.Total p.before where
  total := by
    cases p with
    | fifo => exact fifoBefore_total
    | priority | capacity => exact priorityBefore_total

instance Policy.before_trans (p : Policy) : IsTrans Job p.before where
  trans _ _ _ := by
    cases p with
    | fifo => exact fifoBefore_trans
    | priority | capacity => exact priorityBefore_trans

/-- Every policy orders the jobs of a table: two that come before each other are one. -/
theorem Policy.before_antisymm (p : Policy) {a b : Job} (h : p.before a b) (h' : p.before b a) :
    a.id = b.id := by
  cases p with
  | fifo => exact fifoBefore_antisymm h h'
  | priority | capacity => exact priorityBefore_antisymm h h'

end GreyQueue
