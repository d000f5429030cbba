import GreyQueue.History

/-!
# Errors leave no half-change

An operation that raises has written nothing when it raises, so even a caller that catches
the error and commits keeps the database as it was.  The source mutates the attempt, and
adds a result, before it calls `transition`; that call never fails, because a job is held
exactly while its attempt is open.

## Main definitions

* `Atomic` — a call that raises has changed nothing and raises no illegal transition.

## Main results

* `error_atomicity` — all operations of the service are atomic.
-/

namespace GreyQueue

open Lib
open Lib.Prog (Sat)

/-- A call that raises has changed nothing, unless the database itself refused a row, and the
error is never that of an illegal transition. -/
def Atomic {α : Type} (p : Tx α) (db : Database) : Prop :=
  ∀ feed e, (p.exec feed db).result = .error e →
    (∀ detail, e = .conflict detail → ¬ Illegal detail) ∧
      ((∀ name, e ≠ .integrity name) → (p.exec feed db).state = db)

section Service

variable {db : Database} {α : Type}

/-- What an atomic call may end with. -/
def Unaltered (db : Database) (r : Except Error α) (d : Database) : Prop :=
  ∀ e, r = .error e → (e.Refusal ∧ d = db) ∨ ∃ name, e = .integrity name

theorem Unaltered.ok {a : α} {d : Database} : Unaltered db (.ok a) d := fun _ h => by simp at h

theorem Unaltered.refusal {e : Error} (h : e.Refusal) :
    Unaltered db (.error e : Except Error α) db := by
  rintro _ ⟨⟩
  exact Or.inl ⟨h, rfl⟩

theorem Unaltered.integrity {name : String} {d : Database} :
    Unaltered db (.error (.integrity name) : Except Error α) d := by
  rintro _ ⟨⟩
  exact Or.inr ⟨name, rfl⟩

theorem Atomic.of_sat {p : Tx α} (h : Sat (fun _ => True) p db (Unaltered db)) : Atomic p db := by
  intro feed e he
  rcases h.exec (f := feed) (fun _ => trivial) e he with ⟨hrefusal, hstate⟩ | ⟨name, rfl⟩
  · refine ⟨?_, fun _ => hstate⟩
    rintro detail rfl
    exact hrefusal
  · exact ⟨by simp, fun h => absurd rfl (h name)⟩

theorem atomic_admitJob [Sha256] (body : Submit) (queueLimit submissionsPerMinute : ℕ) :
    Atomic (admitJob body queueLimit submissionsPerMinute) db := by
  refine .of_sat (sat_admitJob ?_ ?_ ?_ ?_)
  · exact fun e he => .refusal (validate_error he)
  · intro args e _ he
    rw [definition_error he]
    exact .refusal trivial
  · intro args d k j _ _ _ _ _
    split
    · exact .ok
    · exact .refusal (by decide : ¬ Illegal _)
  · intro args d _ _ hkey
    exact sat_create hkey (fun _ => .refusal) (fun _ _ _ _ => .integrity) fun _ _ _ _ _ _ => .ok

theorem atomic_claim (hinv : Inv db) (workerId : String) (slot : ℤ) (claimId : Option Uuid)
    (policy : Policy) (leaseSeconds : ℚ) :
    Atomic (claim workerId slot claimId policy leaseSeconds) db :=
  .of_sat (sat_claim hinv.idle (fun _ => .refusal) (fun _ => .integrity) (fun _ _ => .integrity)
    (fun _ _ _ _ _ _ _ _ _ _ _ => .ok) .ok fun _ _ _ _ _ _ _ _ _ _ => .ok)

theorem atomic_start (jobId : Uuid) (workerId : String) (token : Uuid) :
    Atomic (start jobId workerId token) db :=
  .of_sat (sat_start (l := 0) (fun _ => .refusal trivial) (fun _ h => .refusal h.1)
    (fun _ _ _ _ _ _ _ _ _ _ => .ok) fun _ _ _ _ _ _ _ _ _ _ _ _ => .ok)

theorem atomic_renew (jobId : Uuid) (workerId : String) (token : Uuid) (leaseSeconds : ℚ) :
    Atomic (renew jobId workerId token leaseSeconds) db :=
  .of_sat (sat_renew (fun _ => .refusal trivial) (fun _ h => .refusal h.1)
    fun _ _ _ _ _ _ _ _ _ _ _ => .ok)

/-- The attempt is closed before the job moves; the job can move because it is held, and the
result can be added because a held job has none. -/
theorem atomic_finish (hinv : Inv db) (jobId : Uuid) (workerId : String) (token : Uuid)
    (output : Option Json) (error : Option String) (retryable : Bool) :
    Atomic (finish jobId workerId token output error retryable) db := by
  refine .of_sat (sat_finish (l := 0) ?_ ?_ hinv.no_result ?_ ?_ ?_ ?_)
  · exact fun _ => .refusal trivial
  · exact fun _ h => .refusal h.1
  · exact fun _ _ _ _ _ _ _ _ _ _ => .ok
  · exact fun _ _ _ _ _ _ _ _ _ _ _ _ _ => .ok
  · exact fun _ _ _ _ _ _ _ _ _ _ _ _ _ _ _ _ => .ok
  · exact fun _ _ _ _ _ _ _ _ _ _ _ _ _ _ => .ok

theorem atomic_cancel (jobId : Uuid) : Atomic (cancel jobId) db :=
  .of_sat (sat_cancel (fun _ => .refusal trivial) (fun _ h => .refusal h) .ok
    fun _ _ _ _ => .ok)

end Service

variable [Sha256]

/-- Recovery raises nothing. -/
theorem recoverJobs_returns {db : Database} (hinv : Inv db) (limit : ℕ) (feed : ℕ → Moment) :
    ∃ n, ((recoverJobs limit).exec feed db).result = .ok n := by
  have hsat : Sat (fun _ => True) (recoverJobs limit) db fun r _ => ∃ n, r = .ok n :=
    sat_recoverJobs {} hinv fun n _ _ => ⟨n, rfl⟩
  exact hsat.exec fun _ => trivial

/-- **Errors leave no half-change.** In every reachable state, with any arguments and whatever
the world outside contributes, a call of admit, claim, start, renew, finish or cancel that
raises anything but a violated constraint leaves the database as it was when it raises, before
any rollback; none of them raises an illegal transition, and recovery raises nothing. -/
theorem error_atomicity (txns : List Txn) :
    (∀ body queueLimit submissionsPerMinute,
      Atomic (admitJob body queueLimit submissionsPerMinute) (run txns)) ∧
    (∀ workerId slot claimId policy leaseSeconds,
      Atomic (claim workerId slot claimId policy leaseSeconds) (run txns)) ∧
    (∀ jobId workerId token, Atomic (start jobId workerId token) (run txns)) ∧
    (∀ jobId workerId token leaseSeconds,
      Atomic (renew jobId workerId token leaseSeconds) (run txns)) ∧
    (∀ jobId workerId token output error retryable,
      Atomic (finish jobId workerId token output error retryable) (run txns)) ∧
    (∀ jobId, Atomic (cancel jobId) (run txns)) ∧
    ∀ limit feed, ∃ n, ((recoverJobs limit).exec feed (run txns)).result = .ok n := by
  have hinv := run_inv txns
  exact ⟨atomic_admitJob, atomic_claim hinv, atomic_start, atomic_renew, atomic_finish hinv,
    atomic_cancel, recoverJobs_returns hinv⟩

end GreyQueue
