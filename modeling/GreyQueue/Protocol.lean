import Mathlib.Data.List.Infix
import GreyQueue.Tasks

/-!
# Requests and settings

The request bodies of `protocol.py` and the coordinator settings of `config.py`.
What validation guarantees is a field of the body, so an operation that receives
one needs no further check, and a body that the API would reject cannot be built.
-/

namespace GreyQueue

open Lib

/-- `METADATA_LIMIT`, in characters of JSON. -/
def metadataLimit : ℕ := 8000

/-- `OUTPUT_LIMIT`, in characters of JSON. -/
def outputLimit : ℕ := 64000

/-- `TEXT_LIMIT`. -/
def textLimit : ℕ := 131072

/-- `storable`: the JSON text within the limit, without an escaped NUL. -/
def storable (value : Json) (limit : ℕ) (label : String) : Except String (List Char) :=
  let encoded := value.render
  if limit < encoded.length then .error (label ++ " too large")
  else if ['\\', 'u', '0', '0', '0', '0'] <:+: encoded then
    .error (label ++ " must not contain NUL characters")
  else .ok encoded

/-- A string, or `null` when absent. -/
def textOrNull (t : Option (List Char)) : Json := (t.map fun l => Json.str (.ofChars l)).getD .null

/-- `Submit`. -/
structure Submit where
  task : String
  args : List (Text × Json)
  priority : ℤ := 0
  timeout : Num := .int 15
  maxRetries : ℕ := 3
  retryDelay : Num := .int 1
  retryJitter : Bool := true
  idempotencyKey : Option String := none
  metadata : List (Text × Json) := []
  scheduledAt : Option Datetime := none
  dependsOn : Option Uuid := none
  task_length : task.length ≤ 64 := by decide +kernel
  priority_range : -100 ≤ priority ∧ priority ≤ 100 := by decide +kernel
  timeout_range : 1 / 20 ≤ timeout.toRat ∧ timeout.toRat ≤ 300 := by decide +kernel
  maxRetries_le : maxRetries ≤ 10 := by decide +kernel
  retryDelay_range : 0 ≤ retryDelay.toRat ∧ retryDelay.toRat ≤ 300 := by decide +kernel
  key_length : ∀ k ∈ idempotencyKey, 1 ≤ k.length ∧ k.length ≤ 128 := by decide +kernel
  args_decoded : (Json.obj args).wellFormed = true := by decide +kernel
  metadata_decoded : (Json.obj metadata).wellFormed = true := by decide +kernel
  metadata_storable : (storable (.obj metadata) metadataLimit "Metadata").isOk := by decide +kernel
  args_storable : (storable (.obj args) textLimit "Arguments").isOk := by decide +kernel
  key_storable : (storable (textOrNull (idempotencyKey.map String.toList)) textLimit
    "Idempotency key").isOk := by decide +kernel

/-- `Registration`. -/
structure Registration where
  workerId : String
  capacity : ℤ := 1
  capabilities : List String := registry.map Prod.fst
  sessionToken : String
  workerId_length : 1 ≤ workerId.length ∧ workerId.length ≤ 100 := by decide +kernel
  capacity_range : 1 ≤ capacity ∧ capacity ≤ 32 := by decide +kernel
  capabilities_length : capabilities.length ≤ 32 := by decide +kernel
  known_capabilities : capabilities ≠ [] ∧ capabilities ⊆ registry.map Prod.fst := by
    decide +kernel
  token_length : 32 ≤ sessionToken.length ∧ sessionToken.length ≤ 128 := by decide +kernel

/-- `Claim`. -/
structure Claim where
  workerId : String
  slot : ℤ := 0
  claimId : Uuid
  slot_range : 0 ≤ slot ∧ slot ≤ 31 := by decide +kernel

/-- `Assignment`: the identity and the token of start and renew. -/
structure Assignment where
  workerId : String
  token : Uuid

/-- `Completion`: an assignment with exactly one of an output and an error. -/
structure Completion extends Assignment where
  output : Option (List (Text × Json)) := none
  error : Option String := none
  retryable : Bool := false
  shape : output.isNone ≠ error.isNone := by decide +kernel
  error_length : ∀ e ∈ error, 1 ≤ e.length ∧ e.length ≤ 4000 := by decide +kernel
  output_decoded : ∀ o ∈ output, (Json.obj o).wellFormed = true := by decide +kernel
  output_storable : (storable ((output.map Json.obj).getD .null) outputLimit "Output").isOk := by
    decide +kernel
  error_storable : (storable (textOrNull (error.map String.toList)) textLimit "Error").isOk := by
    decide +kernel

/-- The output as the value that is stored. -/
def Completion.json (c : Completion) : Option Json := c.output.map Json.obj

/-- An error excludes an output. -/
theorem Completion.json_none {c : Completion} (h : c.error.isSome = true) : c.json = none := by
  have := c.shape
  cases ho : c.output <;> cases he : c.error <;> simp_all [Completion.json]

/-- The settings of a coordinator that its transactions read. -/
structure Settings where
  scheduler : Policy := .priority
  heartbeatInterval : ℚ := 2
  suspectAfter : ℚ := 6
  deadAfter : ℚ := 12
  leaseSeconds : ℚ := 10
  queueLimit : ℕ := 10000
  submissionsPerMinute : ℕ := 20000
  heartbeat_range : 1 / 5 ≤ heartbeatInterval ∧ heartbeatInterval ≤ 60 := by norm_num
  suspect_range : 1 / 2 ≤ suspectAfter ∧ suspectAfter ≤ 600 := by norm_num
  dead_range : 1 ≤ deadAfter ∧ deadAfter ≤ 3600 := by norm_num
  lease_range : 1 ≤ leaseSeconds ∧ leaseSeconds ≤ 300 := by norm_num
  queueLimit_range : 1 ≤ queueLimit ∧ queueLimit ≤ 1000000 := by norm_num
  rate_range : 1 ≤ submissionsPerMinute ∧ submissionsPerMinute ≤ 1000000 := by norm_num
  timings : heartbeatInterval < suspectAfter ∧ suspectAfter < deadAfter := by norm_num

/-! ## Sample bodies -/

/-- The settings of a coordinator without an environment. -/
def Settings.standard : Settings := {}

/-- A coordinator with the longest lease that the settings admit. -/
def Settings.longLease : Settings := { Settings.standard with
  leaseSeconds := 300
  lease_range := by norm_num }

/-- The task `flaky`, submitted with every default. -/
def Submit.flaky : Submit where
  task := "flaky"
  args := [(.ofString "failures", .int 1)]

/-- A process with one slot. -/
def Registration.first : Registration where
  workerId := "w1"
  sessionToken := "first-process-session-token-00001"

/-- Another process under the same id. -/
def Registration.second : Registration where
  workerId := "w1"
  sessionToken := "second-process-session-token-0002"

/-- A claim for the first slot. -/
def Claim.first : Claim where
  workerId := "w1"
  claimId := 7

theorem no_error_length : ∀ e ∈ (none : Option String), 1 ≤ e.length ∧ e.length ≤ 4000 := by
  simp

theorem no_error_storable :
    (storable (textOrNull ((none : Option String).map String.toList)) textLimit "Error").isOk := by
  decide +kernel

theorem no_output_decoded :
    ∀ o ∈ (none : Option (List (Text × Json))), (Json.obj o).wellFormed = true := by
  simp

theorem no_output_storable :
    (storable (((none : Option (List (Text × Json))).map Json.obj).getD .null) outputLimit
      "Output").isOk := by
  decide +kernel

/-- A completion without any output fields. -/
def Completion.empty (token : Uuid) : Completion where
  workerId := "w1"
  token
  output := some []
  error_length := no_error_length
  error_storable := no_error_storable

/-- A failure that may be retried. -/
def Completion.failure (token : Uuid) : Completion where
  workerId := "w1"
  token
  error := some "failure"
  retryable := true
  output_decoded := no_output_decoded
  output_storable := no_output_storable

end GreyQueue
