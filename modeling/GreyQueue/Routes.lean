import GreyQueue.Listing
import GreyQueue.Observability
import GreyQueue.Statuses

/-!
# The HTTP interface

The routes of `api.py` with what stands around them: the bearer tokens that a route depends
on, the handlers that turn exceptions into statuses, and the bodies of the replies.  A
coordinator serves exchanges, and runs the transactions of its maintenance in between.

The arguments of a call have been validated; a call whose arguments are not valid is
`malformed`.  The database is available.  PostgreSQL refuses some values with a `DataError`, and
the serialiser of responses refuses some bodies with an exception that nothing catches; both
come before the transaction commits.

## Main definitions

* `Http.Call`, `Http.Exchange.reply` — the routes and what they answer.
* `Http.Step`, `Http.served` — what coordinators do, and the database they leave.

## Main results

* `served_eq_run` — the database is that of transactions whose tokens were accepted.
-/

namespace GreyQueue

open Lib

/-- Who a route is for. -/
inductive Party
  | client | worker
  deriving DecidableEq, Repr

/-- The party whose token the route of a transaction depends on; maintenance has no route. -/
def Request.party : Request → Option Party
  | .submit _ | .cancel _ | .drain _ => some .client
  | .register _ | .heartbeat _ _ | .claim _ _ | .start _ _ _ | .renew _ _ _ | .finish _ _ _ =>
      some .worker
  | .recoverJobs _ | .detectWorkers => none

/-- The JSON values that a request stores. -/
def Request.values : Request → List Json
  | .submit body => [.obj body.args, .obj body.metadata]
  | .finish _ body _ => body.json.toList
  | _ => []

namespace Http

/-- The tokens in the settings of a coordinator. -/
structure Tokens where
  clientToken : String
  workerToken : String
  client_length : 16 ≤ clientToken.length := by decide +kernel
  worker_length : 16 ≤ workerToken.length := by decide +kernel
  differ : clientToken ≠ workerToken := by decide +kernel

/-- The token of a party. -/
def Tokens.of (tokens : Tokens) : Party → String
  | .client => tokens.clientToken
  | .worker => tokens.workerToken

/-- `authorize`: comparing the encoded texts compares the texts. -/
def authorize (expected : String) (value : Option String) : Bool :=
  decide (value = some ("Bearer " ++ expected))

/-- What is wrong with a request. -/
inductive Defect
  /-- The body cannot be read: it is no UTF-8, or nested too deeply for the decoder. -/
  | unreadable
  /-- The body is no JSON text. -/
  | unparsed
  /-- The validator objects, and the reply repeats what it objects to. -/
  | invalid (inputs : List Json)

/-- The routes, with their validated arguments. -/
inductive Call
  | health
  | jobs (q : JobsQuery)
  | job (jobId : Uuid)
  | attempts (jobId : Uuid)
  | workers (limit : ℕ) (h : 1 ≤ limit ∧ limit ≤ 200)
  | operations
  | metrics
  | dashboard
  | asset (name : String)
  /-- A route that opens a transaction with changes. -/
  | change (request : Request) (party : Party) (h : request.party = some party)
  /-- Arguments that are not valid, at a route of the party. -/
  | malformed (party : Party) (defect : Defect)

/-- The party whose token is looked at.  A body is parsed before. -/
def Call.party : Call → Option Party
  | .health | .dashboard | .asset _ => none
  | .jobs _ | .job _ | .attempts _ | .workers _ _ | .operations | .metrics => some .client
  | .change _ party _ => some party
  | .malformed party (.invalid _) => some party
  | .malformed _ _ => none

/-- An entry of a 422: the text and the kind are left to the validator where it made it. -/
structure Problem where
  kind : Option String
  loc : List Text
  msg : Option String
  input : Option Json := none

/-- `AssignmentOut`. -/
structure AssignmentOut where
  job : JobOut
  token : Uuid
  fence : ℕ
  expiresAt : Time

/-- The bodies of replies. -/
inductive Body
  | detail (text : String)
  | problems (l : List Problem)
  | status (text : String)
  | health (status version : String)
  | job (job : JobOut)
  | jobs (l : List JobOut)
  | attempts (l : List AttemptOut)
  | workers (l : List WorkerRow)
  | state (s : WorkerState)
  | registered (workerId : String) (leaseSeconds heartbeatInterval : ℚ)
  | assignment (item : Option AssignmentOut)
  | renewed (expiresAt : Time)
  | operations (data : Snapshot)
  | metrics (lines : List MetricLine)
  | file (name : String)

/-- The JSON values of a body. -/
def Body.values : Body → List Json
  | .problems l => l.filterMap Problem.input
  | .job e => e.values
  | .jobs l => l.flatMap JobOut.values
  | .attempts l => l.filterMap AttemptOut.output
  | .assignment (some item) => item.job.values
  | _ => []

/-- A coordinator: the settings that its transactions read, its tokens, the requests whose values
PostgreSQL stores, and the bodies that the serialiser of responses writes.  Both fail only on
JSON values, such as half of a surrogate pair, or a list that is nested too deeply. -/
structure Coordinator where
  settings : Settings
  tokens : Tokens
  stores : Request → Bool
  encodes : Body → Bool
  stores_plain : ∀ request, request.values = [] → stores request = true
  encodes_plain : ∀ body, body.values = [] → encodes body = true

/-- A reply. -/
structure Reply where
  status : ℕ
  body : Body
  retryAfter : Option String := none

/-- `unprocessable`. -/
def unprocessable : Error → List Problem
  | .validation loc => loc.map fun name =>
      { kind := none, loc := [.ofString "body", .ofString "args", name], msg := none }
  | .invalid detail field => [{
      kind := some "value_error"
      loc := [.ofString "body", .ofString field]
      msg := some detail }]
  | _ => []

/-- The reply to an exception that no handler takes. -/
def internalError : Reply := ⟨500, .detail "Internal Server Error", none⟩

/-- The exception handlers; what none of them takes is an internal error. -/
def handle : Error → Reply
  | .conflict detail => ⟨409, .detail detail, none⟩
  | .missing detail => ⟨404, .detail detail, none⟩
  | .saturated detail => ⟨429, .detail detail, some "2"⟩
  | .unauthorized detail => ⟨401, .detail detail, none⟩
  | .invalid detail field => ⟨422, .problems (unprocessable (.invalid detail field)), none⟩
  | .validation loc => ⟨422, .problems (unprocessable (.validation loc)), none⟩
  | .integrity _ | .overflow | .attribute _ => internalError

/-- `invalid_data`. -/
def invalidData : Reply where
  status := 422
  body := .problems [{
    kind := some "value_error", loc := [.ofString "request"], msg := some "Value cannot be stored" }]

/-- What a route returns after its transaction, which ends in the given state; maintenance has
no route. -/
def replyOf (db : Database) : Response → Reply
  | .submitted job created =>
      ⟨if created then 201 else 200, .job (serialize job (db.results.find? job.id)), none⟩
  | .cancelled => ⟨200, .status "CANCELLED", none⟩
  | .state s => ⟨200, .state s, none⟩
  | .registered workerId leaseSeconds heartbeatInterval =>
      ⟨200, .registered workerId leaseSeconds heartbeatInterval, none⟩
  | .assignment item => ⟨200, .assignment (item.map fun p =>
      ⟨serialize p.1 (db.results.find? p.1.id), p.2.id, p.2.fence, p.2.expiresAt⟩), none⟩
  | .running => ⟨200, .status "RUNNING", none⟩
  | .renewed expiresAt => ⟨200, .renewed expiresAt, none⟩
  | .recorded => ⟨200, .status "RECORDED", none⟩
  | .maintained => ⟨200, .status "", none⟩

/-- A request as a coordinator receives it, and the moments its statements run in. -/
structure Exchange where
  coordinator : Coordinator
  authorization : Option String
  call : Call
  feed : ℕ → Moment

namespace Exchange

variable (x : Exchange)

/-- The exchange carries the token of the party. -/
def presents (party : Party) : Bool :=
  authorize (x.coordinator.tokens.of party) x.authorization

/-- The dependencies of the route let the exchange pass. -/
def authorised : Bool := x.call.party.all x.presents

/-- The transaction of an exchange that may change the database. -/
def txn : Option Txn :=
  match x.call with
  | .change request _ _ =>
      if x.authorised then some ⟨x.coordinator.settings, request, x.feed⟩ else none
  | _ => none

variable [Sha256]

/-- What the route returns; statement `i` of a call that changes nothing sees the state `see i`, and
a call that changes something runs on the first one. -/
def returned (see : ℕ → Database) : Reply :=
  match x.call with
  | .health => ⟨200, .health "ok" "1.0.0", none⟩
  | .jobs q => ⟨200, .jobs (View.jobs (see 0) (see 1) q), none⟩
  | .job jobId => match View.job (see 0) (see 1) jobId with
    | .ok e => ⟨200, .job e, none⟩
    | .error e => handle e
  | .attempts jobId => match View.attempts (see 0) (see 1) jobId with
    | .ok l => ⟨200, .attempts l, none⟩
    | .error e => handle e
  | .workers limit _ => ⟨200, .workers (workerRowsOver see (x.feed 0) limit), none⟩
  | .operations => ⟨200, .operations
      (snapshotOver see (x.feed 0) (x.feed 1) x.coordinator.settings.queueLimit), none⟩
  | .metrics => ⟨200, .metrics (prometheus
      (snapshotOver see (x.feed 0) (x.feed 1) x.coordinator.settings.queueLimit)), none⟩
  | .dashboard => ⟨200, .file "index.html", none⟩
  | .asset name =>
      if name = "app.js" ∨ name = "style.css" then ⟨200, .file name, none⟩
      else ⟨404, .detail "Not Found", none⟩
  | .change request _ _ =>
      let t : Txn := ⟨x.coordinator.settings, request, x.feed⟩
      match t.answer (see 0) with
      | .ok response =>
          if x.coordinator.stores request then replyOf (t.outcome (see 0)).state response
          else invalidData
      | .error e => handle e
  | .malformed _ .unreadable => ⟨400, .detail "There was an error parsing the body", none⟩
  | .malformed _ .unparsed => ⟨422, .problems [], none⟩
  | .malformed _ (.invalid inputs) => ⟨422, .problems (inputs.map fun input =>
      { kind := none, loc := [], msg := none, input := some input }), none⟩

/-- The body can be written. -/
def encoded (see : ℕ → Database) : Bool := x.coordinator.encodes (x.returned see).body

/-- The reply whose statements see the given states. -/
def replyOver (see : ℕ → Database) : Reply :=
  if x.authorised then if x.encoded see then x.returned see else internalError
  else ⟨401, .detail "Invalid bearer token", none⟩

/-- The reply while nothing else commits. -/
def reply (db : Database) : Reply := x.replyOver fun _ => db

/-- The database after the exchange: a transaction is rolled back if PostgreSQL refuses a value,
or if the reply cannot be written. -/
def after (db : Database) : Database :=
  match x.txn with
  | some t =>
      if x.coordinator.stores t.request && x.encoded (fun _ => db) then commit db t else db
  | none => db

end Exchange

/-- What coordinators do: they serve exchanges, and each runs the two transactions of `tick`. -/
inductive Step
  | http (x : Exchange)
  | recover (config : Settings) (feed : ℕ → Moment)
  | detect (config : Settings) (feed : ℕ → Moment)

/-- The transaction of a step. -/
def Step.txn : Step → Option Txn
  | .http x => x.txn
  | .recover config feed => some ⟨config, .recoverJobs 100, feed⟩
  | .detect config feed => some ⟨config, .detectWorkers, feed⟩

variable [Sha256]

/-- The database after a step. -/
def Step.after (db : Database) : Step → Database
  | .http x => x.after db
  | .recover config feed => commit db ⟨config, .recoverJobs 100, feed⟩
  | .detect config feed => commit db ⟨config, .detectWorkers, feed⟩

/-- The database that the steps of any number of coordinators leave. -/
def served (steps : List Step) : Database := steps.foldl Step.after {}

/-! ## The transactions behind the steps -/

/-- A step runs its transaction, or it changes nothing. -/
theorem Step.after_cases (db : Database) (s : Step) :
    s.after db = db ∨ ∃ t, s.txn = some t ∧ s.after db = commit db t := by
  cases s with
  | http x =>
      simp only [Step.after, Exchange.after, Step.txn]
      cases hx : x.txn with
      | none => simp
      | some t =>
          simp only
          split
          · exact Or.inr ⟨t, rfl, rfl⟩
          · exact Or.inl rfl
  | recover config feed => exact Or.inr ⟨_, rfl, rfl⟩
  | detect config feed => exact Or.inr ⟨_, rfl, rfl⟩

/-- The database is that of transactions whose tokens were accepted, in the order of the steps;
those that are left out were rolled back. -/
theorem served_eq_run (steps : List Step) :
    ∃ txns, txns.Sublist (steps.filterMap Step.txn) ∧ served steps = run txns := by
  induction steps using List.reverseRecOn with
  | nil => exact ⟨[], List.Sublist.refl _, rfl⟩
  | append_singleton steps s ih =>
      obtain ⟨txns, hsub, heq⟩ := ih
      have hserved : served (steps ++ [s]) = s.after (run txns) := by
        rw [served, List.foldl_append, ← heq]
        rfl
      rw [hserved, List.filterMap_append]
      rcases s.after_cases (run txns) with hafter | ⟨t, ht, hafter⟩
      · exact ⟨txns, hsub.trans (List.sublist_append_left _ _), hafter⟩
      · refine ⟨txns ++ [t], hsub.append ?_, ?_⟩
        · simp [ht]
        · rw [hafter, run_snoc]

/-! ## Statuses -/

/-- The statuses of the replies of a route. -/
def Call.statuses : Call → List ℕ
  | .health | .dashboard => [200]
  | .asset _ => [200, 404]
  | .jobs _ | .workers _ _ | .operations | .metrics => [200, 401]
  | .job _ | .attempts _ => [200, 401, 404]
  | .change (.submit body) _ _ => 200 :: 201 :: 401 :: (Request.submit body).errors
  | .change (.finish jobId body credential) _ _ =>
      200 :: 401 :: 422 :: (Request.finish jobId body credential).errors
  | .change request _ _ => 200 :: 401 :: request.errors
  | .malformed _ .unreadable => [400]
  | .malformed _ .unparsed => [422]
  | .malformed _ (.invalid _) => [401, 422]

/-- The keys of `ERRORS`, which every route documents. -/
def errors : List ℕ := [401, 404, 409, 413, 429, 503]

omit [Sha256] in
@[simp] theorem handle_status (e : Error) : (handle e).status = e.status := by
  cases e <;> rfl

/-- A coordinator with the standard settings. -/
def standardCoordinator : Coordinator where
  settings := .standard
  tokens := { clientToken := "client-token-0001", workerToken := "worker-token-0001" }
  stores _ := true
  encodes body := body.values.all encodesJson
  stores_plain _ _ := rfl
  encodes_plain body h := by simp [h]

/-- A job is submitted, and a worker registers. -/
def firstExchanges : List Step := [
  .http ⟨standardCoordinator, some "Bearer client-token-0001",
    .change (.submit .flaky) .client rfl, .still 1⟩,
  .http ⟨standardCoordinator, some "Bearer worker-token-0001",
    .change (.register .first) .worker rfl, .still 2⟩]

/-- The worker claims the job. -/
def claimExchange : Exchange :=
  ⟨standardCoordinator, some "Bearer worker-token-0001",
    .change (.claim .first (some Registration.first.sessionToken)) .worker rfl,
    fun _ => { Moment.still 3 0 with uuid := 300 }⟩

end Http

end GreyQueue
