import Mathlib.Logic.Function.Basic
import GreyQueue.Api

/-!
# Workers over a network

`worker.py`: the retry loop `post`, the loop `consume` of one slot, and the system they
form with the coordinators.  Any number of processes run; each registers, sends heartbeats
and runs one loop per slot.  What is sent stays in the network: a request can be served
any number of times, in any order, or never, and so can a reply be read.  A request is one
call of `post`, known by its position among all that were sent, and its retries are
further copies of it.

The executor returns what the tasks of `tasks.py` make it return: an output or an error.

## Main definitions

* `Stage.onReply` — the loop of a slot as a state machine.
* `Net`, `Net.act` — the whole system and its actions.
-/

namespace GreyQueue

open Lib

/-! ## Requests and replies -/

/-- The status of an error. -/
def Error.status : Error → ℕ
  | .conflict _ => 409
  | .missing _ => 404
  | .saturated _ => 429
  | .invalid _ _ => 422
  | .validation _ => 422
  | .unauthorized _ => 401
  | .integrity _ => 500
  | .overflow => 500
  | .attribute _ => 500

/-- An HTTP answer: a body, or the status of a failure. -/
abbrev Reply := Except ℕ Response

/-- `TRANSIENT`. -/
def transientCodes : List ℕ := [408, 429]

/-- `FENCED`. -/
def fencedCodes : List ℕ := [404, 409]

/-- `REJECTED`. -/
def rejectedCodes : List ℕ := [413, 422]

/-- Whether `post` returns or raises on the reply; otherwise it sends the request again. -/
def Reply.final : Reply → Bool
  | .ok _ => true
  | .error status => decide (status < 500) && decide (status ∉ transientCodes)

/-- What `executor.run` returns. -/
inductive Report
  | output (o : List (Text × Json))
  | error (message : String) (retryable : Bool)

/-- The body `{**ownership, **result}`, unless the coordinator refuses to parse it. -/
def Report.completion (workerId : String) (token : Uuid) : Report → Option Completion
  | .output o =>
      if h : (Json.obj o).wellFormed = true ∧
          (storable (.obj o) outputLimit "Output").isOk = true then
        some { workerId, token, output := some o
               shape := by simp
               error_length := by simp
               output_decoded := by simpa using h.1
               output_storable := h.2 }
      else none
  | .error message retryable =>
      if h : (1 ≤ message.length ∧ message.length ≤ 4000) ∧
          (storable (textOrNull (some message.toList)) textLimit "Error").isOk = true then
        some { workerId, token, error := some message, retryable
               shape := by simp
               error_length := by simpa using h.1
               output_decoded := by simp
               error_storable := h.2 }
      else none

/-! ## The loop of a slot -/

/-- An assignment, with the claim it answers. -/
structure Assigned where
  claimId : Uuid
  jobId : Uuid
  token : Uuid

/-- Where the loop of a slot is. -/
inductive Stage
  /-- Before the next claim. -/
  | idle
  /-- Waiting for the claim. -/
  | claiming (claimId : Uuid)
  /-- Waiting for the start. -/
  | starting (x : Assigned)
  /-- Inside `executor.run`. -/
  | executing (x : Assigned)
  /-- Waiting for the finish, the second one if the first was rejected. -/
  | finishing (x : Assigned) (report : Report) (second : Bool)

/-- What the loop does next: it goes on, or it raises and ends the process. -/
inductive Next
  | stage (s : Stage)
  | exit

/-- The result that replaces one the coordinator rejected. -/
def rejectedReport (status : ℕ) : Report :=
  .error ("Coordinator rejected the result (HTTP " ++ toString status ++ ")") false

/-- The loop on the reply that `post` ends with. -/
def Stage.onReply : Stage → Reply → Next
  | .claiming claimId, .ok (.assignment (some (job, attempt))) =>
      .stage (.starting ⟨claimId, job.id, attempt.id⟩)
  | .claiming _, .ok (.assignment none) => .stage .idle
  | .claiming _, .error status => if status = 409 then .stage .idle else .exit
  | .starting x, .ok _ => .stage (.executing x)
  | .finishing _ _ _, .ok _ => .stage .idle
  | .finishing x _ false, .error status =>
      if status ∈ rejectedCodes then .stage (.finishing x (rejectedReport status) true)
      else if status ∈ fencedCodes then .stage .idle
      else .exit
  | .finishing _ _ true, .error status =>
      if status ∈ fencedCodes then .stage .idle else .exit
  | .starting _, .error status => if status ∈ fencedCodes then .stage .idle else .exit
  | _, _ => .exit

/-- The loop when its renewal raises: the execution is cancelled.  A renewal that fails
during the finish is not looked at. -/
def Stage.onRenewal : Stage → ℕ → Next
  | .executing _, status => if status ∈ fencedCodes then .stage .idle else .exit
  | s, _ => .stage s

/-- The request that the loop posts in a stage. -/
def Stage.request (registration : Registration) (slot : Fin 32) : Stage → Option Request
  | .claiming claimId => some (.claim
      { workerId := registration.workerId, slot := slot, claimId, slot_range := by omega }
      (some registration.sessionToken))
  | .starting x => some (.start x.jobId ⟨registration.workerId, x.token⟩
      (some registration.sessionToken))
  | .finishing x report _ => (report.completion registration.workerId x.token).map fun body =>
      .finish x.jobId body (some registration.sessionToken)
  | _ => none

/-- The assignment that is renewed in the background. -/
def Stage.renewed : Stage → Option Assigned
  | .executing x => some x
  | .finishing x _ _ => some x
  | _ => none

/-! ## The system -/

/-- A slot: its stage, the request it waits for, and the renewal it waits for. -/
structure Slot where
  stage : Stage := .idle
  ticket : Option ℕ := none
  renewal : Option ℕ := none

/-- A process: it waits for its registration, runs, or has ended. -/
inductive Phase
  | registering (ticket : ℕ)
  | running (stop : Bool) (heartbeat : Option ℕ)
  | exited

/-- A worker process; the session token is its credential. -/
structure Process where
  registration : Registration
  phase : Phase

/-- One entry into `executor.run`. -/
structure Execution where
  process : ℕ
  slot : Fin 32
  claimId : Uuid
  jobId : Uuid
  token : Uuid

/-- What has happened: all requests ever sent, the replies to them, the transactions
committed so far, the claim ids drawn, the executions begun and what they returned. -/
structure History where
  sent : List Request := []
  replies : List (ℕ × Reply) := []
  txns : List Txn := []
  claims : List Uuid := []
  executions : List Execution := []
  returned : List (Uuid × Report) := []

/-- The database of the coordinators. -/
def History.db [Sha256] (h : History) : Database := run h.txns

/-- The system: its history, and the processes with their slots. -/
structure Net extends History where
  processes : List Process := []
  slots : ℕ → Fin 32 → Slot := fun _ _ => {}

namespace Net

/-- A process that has registered and has not ended. -/
def running? (n : Net) (p : ℕ) : Option Registration :=
  match n.processes[p]? with
  | some ⟨registration, .running _ _⟩ => some registration
  | _ => none

/-- Reply `i`, if it is the final reply to the given request. -/
def replyTo (n : Net) (ticket : Option ℕ) (i : ℕ) : Option Reply :=
  match n.replies[i]? with
  | some (t, reply) => if ticket = some t ∧ reply.final then some reply else none
  | none => none

/-- The process changes its phase. -/
def setPhase (n : Net) (p : ℕ) (phase : Phase) : Net :=
  { n with processes := n.processes.modify p fun process => { process with phase } }

/-- The process ends, and its slots with it. -/
def exit (n : Net) (p : ℕ) : Net :=
  { n.setPhase p .exited with slots := Function.update n.slots p fun _ => {} }

/-- The loop of a slot enters a stage: it posts what it then waits for, and an execution
begins when it calls the executor. -/
def enter (n : Net) (p : ℕ) (registration : Registration) (slot : Fin 32) (stage : Stage) : Net :=
  let request := stage.request registration slot
  let entry : Slot := { stage, ticket := request.map fun _ => n.sent.length }
  { n with
    sent := n.sent ++ request.toList
    slots := Function.update n.slots p (Function.update (n.slots p) slot entry)
    executions := match stage with
      | .executing x => n.executions ++ [⟨p, slot, x.claimId, x.jobId, x.token⟩]
      | _ => n.executions }

/-- The loop goes on or raises. -/
def proceed (n : Net) (p : ℕ) (registration : Registration) (slot : Fin 32) : Next → Net
  | .stage s => n.enter p registration slot s
  | .exit => n.exit p

end Net

/-- Whether the request is one of clients, operators and coordinators. -/
def Request.external : Request → Bool
  | .submit _ => true
  | .cancel _ => true
  | .drain _ => true
  | .recoverJobs _ => true
  | .detectWorkers => true
  | _ => false

/-- What can happen next, anywhere. -/
inductive Action
  /-- A client, an operator or a coordinator sends a request of its own. -/
  | post (request : Request)
  /-- A process starts, under any worker id. -/
  | launch (registration : Registration)
  /-- A coordinator serves a copy of a request. -/
  | serve (ticket : ℕ) (config : Settings) (feed : ℕ → Moment)
  /-- A copy of a request is answered with a failure and is not served. -/
  | refuse (ticket status : ℕ)
  /-- A process reads a reply to its registration. -/
  | registered (p i : ℕ)
  /-- A process sends a heartbeat. -/
  | heartbeat (p : ℕ)
  /-- A process reads a reply to its heartbeat. -/
  | told (p i : ℕ)
  /-- A slot claims under a claim id that was never drawn before. -/
  | claim (p : ℕ) (slot : Fin 32) (claimId : Uuid)
  /-- A slot reads a reply. -/
  | reply (p : ℕ) (slot : Fin 32) (i : ℕ)
  /-- A slot renews its lease. -/
  | renew (p : ℕ) (slot : Fin 32)
  /-- A slot reads a reply to its renewal. -/
  | renewal (p : ℕ) (slot : Fin 32) (i : ℕ)
  /-- The executor returns. -/
  | execute (p : ℕ) (slot : Fin 32) (report : Report)
  /-- A result that cannot be parsed is rejected. -/
  | reject (p : ℕ) (slot : Fin 32) (status : ℕ)
  /-- A process crashes or is stopped. -/
  | crash (p : ℕ)

namespace Net

variable [Sha256]

/-- The effect of an action; an action that is not possible does nothing. -/
def act (n : Net) : Action → Net
  | .post request => if request.external then { n with sent := n.sent ++ [request] } else n
  | .launch registration =>
      { n with
        sent := n.sent ++ [.register registration]
        processes := n.processes ++ [⟨registration, .registering n.sent.length⟩] }
  | .serve ticket config feed =>
      match n.sent[ticket]? with
      | none => n
      | some request =>
          let t : Txn := ⟨config, request, feed⟩
          { n with
            txns := n.txns ++ [t]
            replies := n.replies ++ [(ticket, (t.answer n.db).mapError Error.status)] }
  | .refuse ticket status => { n with replies := n.replies ++ [(ticket, .error status)] }
  | .registered p i =>
      match n.processes[p]? with
      | some ⟨_, .registering ticket⟩ =>
          match n.replyTo (some ticket) i with
          | some (.ok _) => n.setPhase p (.running false none)
          | some (.error _) => n.exit p
          | none => n
      | _ => n
  | .heartbeat p =>
      match n.processes[p]? with
      | some ⟨registration, .running stop _⟩ =>
          { n.setPhase p (.running stop (some n.sent.length)) with
            sent := n.sent ++
              [.heartbeat registration.workerId (some registration.sessionToken)] }
      | _ => n
  | .told p i =>
      match n.processes[p]? with
      | some ⟨_, .running stop ticket⟩ =>
          match n.replyTo ticket i with
          | some (.ok (.state .draining)) => n.setPhase p (.running true none)
          | some (.ok _) => n.setPhase p (.running stop none)
          | some (.error _) => n.exit p
          | none => n
      | _ => n
  | .claim p slot claimId =>
      match n.processes[p]? with
      | some ⟨registration, .running false _⟩ =>
          match (n.slots p slot).stage with
          | .idle =>
              if claimId ∉ n.claims ∧ (slot : ℤ) < registration.capacity then
                { n.enter p registration slot (.claiming claimId) with
                  claims := n.claims ++ [claimId] }
              else n
          | _ => n
      | _ => n
  | .reply p slot i =>
      match n.running? p, n.replyTo (n.slots p slot).ticket i with
      | some registration, some reply =>
          n.proceed p registration slot ((n.slots p slot).stage.onReply reply)
      | _, _ => n
  | .renew p slot =>
      match n.running? p, (n.slots p slot).stage.renewed with
      | some registration, some x =>
          { n with
            sent := n.sent ++ [.renew x.jobId ⟨registration.workerId, x.token⟩
              (some registration.sessionToken)]
            slots := Function.update n.slots p (Function.update (n.slots p) slot
              { n.slots p slot with renewal := some n.sent.length }) }
      | _, _ => n
  | .renewal p slot i =>
      match n.running? p, n.replyTo (n.slots p slot).renewal i with
      | some registration, some (.error status) =>
          match (n.slots p slot).stage.onRenewal status with
          | .stage .idle => n.enter p registration slot .idle
          | .stage _ => n
          | .exit => n.exit p
      | _, _ => n
  | .execute p slot report =>
      match n.running? p, (n.slots p slot).stage with
      | some registration, .executing x =>
          { n.enter p registration slot (.finishing x report false) with
            returned := n.returned ++ [(x.token, report)] }
      | _, _ => n
  | .reject p slot status =>
      match n.running? p, (n.slots p slot).stage with
      | some registration, .finishing x report second =>
          if status ∈ rejectedCodes ∧ (report.completion registration.workerId x.token).isNone then
            n.proceed p registration slot
              ((Stage.finishing x report second).onReply (.error status))
          else n
      | _, _ => n
  | .crash p => n.exit p

/-- The system after a list of actions. -/
def after (actions : List Action) : Net := actions.foldl act {}

end Net

end GreyQueue
