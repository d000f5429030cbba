import GreyQueue.Api

/-!
# What transactions leave alone

The operations on assignments, and the creation of one, touch neither the workers nor the
system log: they run alike whatever these hold.

## Main definitions

* `Database.swap` — the same database under other workers.
* `Plain` — a program that touches neither workers nor the system log.
-/

namespace GreyQueue

open Lib
open Lib.Prog (Over Ignores)

/-- The same database under other workers and another system log. -/
abbrev Database.swap (ws : Table Worker) (es : List SystemEvent) (db : Database) : Database :=
  { db with workers := ws, systemEvents := es }

/-- Jobs, attempts, results and events are the same. -/
def SameWork (db db' : Database) : Prop :=
  db.jobs = db'.jobs ∧ db.attempts = db'.attempts ∧ db.results = db'.results ∧
    db.events = db'.events

theorem SameWork.symm {db db' : Database} (h : SameWork db db') : SameWork db' db :=
  ⟨h.1.symm, h.2.1.symm, h.2.2.1.symm, h.2.2.2.symm⟩

theorem SameWork.eq_swap {db db' : Database} (h : SameWork db db') :
    db = db'.swap db.workers db.systemEvents := by
  obtain ⟨hj, ha, hr, he⟩ := h
  rw [Database.swap, ← hj, ← ha, ← hr, ← he]

/-- The change is of a job, an attempt, a result or an event. -/
def Write.Blind : Write → Prop
  | .setWorker _ => False
  | .addSystemEvent _ => False
  | _ => True

/-- The statement neither reads nor writes workers or the system log. -/
def Sql.Blind {β : Type} : Sql β → Prop
  | .worker _ => False
  | .silentWorkers _ => False
  | .insertWorker _ => False
  | .write w => w.Blind
  | _ => True

theorem Write.Blind.apply_swap {w : Write} (h : w.Blind) (ws : Table Worker)
    (es : List SystemEvent) (db : Database) :
    w.apply (db.swap ws es) = (w.apply db).map (Database.swap ws es) := by
  cases w with
  | addJob job =>
      simp only [Write.apply]
      split_ifs
      · rfl
      · cases insertOr db.jobs job "jobs_pkey" <;> rfl
  | addAttempt a =>
      simp only [Write.apply]
      split_ifs
      · rfl
      · rfl
      · rfl
      · cases insertOr db.attempts a "attempts_pkey" <;> rfl
  | addResult r =>
      simp only [Write.apply]
      cases insertOr db.results r "results_pkey" <;> rfl
  | setJob | setAttempt | addEvent => rfl
  | setWorker | addSystemEvent => exact h.elim

theorem Sql.Blind.ignores {β : Type} {s : Sql β} (h : s.Blind) (ws : Table Worker)
    (es : List SystemEvent) : Ignores (Database.swap ws es) s := by
  intro m db
  cases s with
  | write w =>
      change ((w.apply (db.swap ws es)).map _) = ((w.apply db).map _).map _
      rw [Write.Blind.apply_swap h]
      cases w.apply db <;> rfl
  | worker | silentWorkers | insertWorker => exact h.elim
  | _ => rfl

/-- The program touches neither workers nor the system log, and rejects no session. -/
def Plain {α : Type} (p : Tx α) : Prop :=
  Over (fun s => s.Blind) (fun e => ∀ detail, e ≠ .unauthorized detail) p

theorem Plain.bind {α β : Type} {p : Tx α} {f : α → Tx β} (hp : Plain p) (hf : ∀ a, Plain (f a)) :
    Plain (p >>= f) := Over.bind hp hf


theorem plain_throw {α : Type} {e : Error} (h : ∀ detail, e ≠ .unauthorized detail) :
    Plain (raise e : Tx α) := h

theorem plain_issue {β : Type} {s : Sql β} (h : s.Blind) : Plain (Prog.issue s : Tx β) :=
  ⟨h, fun _ => trivial⟩

theorem plain_transition (job : Job) (state : Status) : Plain (transition job state) := by
  unfold transition
  split
  · refine .bind (plain_issue trivial) fun _ => .bind (plain_issue trivial) fun t =>
      .bind (plain_issue trivial) fun _ => .bind ?_ fun _ => trivial
    exact .bind (plain_issue trivial) fun _ => plain_issue trivial
  · exact plain_throw (by simp)

theorem plain_getJob (jobId : Uuid) (lock : Bool) : Plain (getJob jobId lock) := by
  refine .bind (plain_issue trivial) fun row => ?_
  cases row with
  | none => exact plain_throw (by simp)
  | some job => trivial

theorem plain_owned (jobId : Uuid) (workerId : String) (token : Uuid) (allowFinished : Bool) :
    Plain (owned jobId workerId token allowFinished) := by
  refine .bind (plain_getJob _ _) fun job => .bind (plain_issue trivial) fun row => ?_
  cases row with
  | none => exact plain_throw (by simp)
  | some attempt =>
      dsimp only
      split
      · exact plain_throw (by simp)
      split
      · trivial
      split
      · exact plain_throw (by simp)
      refine .bind (plain_issue trivial) fun t => ?_
      split
      · exact plain_throw (by simp)
      · trivial

theorem plain_start (jobId : Uuid) (workerId : String) (token : Uuid) :
    Plain (start jobId workerId token) := by
  refine .bind (plain_owned _ _ _ _) fun ⟨job, attempt⟩ => ?_
  dsimp only
  split
  · trivial
  split
  · exact plain_throw (by simp)
  · exact .bind (plain_issue trivial) fun t => .bind (plain_issue trivial) fun _ =>
      .bind (plain_transition _ _) fun _ => trivial

theorem plain_renew (jobId : Uuid) (workerId : String) (token : Uuid) (leaseSeconds : ℚ) :
    Plain (renew jobId workerId token leaseSeconds) := by
  refine .bind (plain_owned _ _ _ _) fun ⟨job, attempt⟩ => ?_
  dsimp only
  cases attempt.startedAt with
  | none => exact plain_throw (by simp)
  | some startedAt =>
      refine .bind (plain_issue trivial) fun t => ?_
      split
      · exact plain_throw (by simp)
      · exact .bind (plain_issue trivial) fun _ => trivial

theorem plain_failAttempt (job : Job) (attempt : Attempt) (error : String) (retryable : Bool)
    (outcome : AttemptOutcome) : Plain (failAttempt job attempt error retryable outcome) := by
  refine .bind (plain_issue trivial) fun t => .bind (plain_issue trivial) fun _ => ?_
  split
  · split
    · exact .bind (plain_issue trivial) fun _ => .bind trivial fun _ =>
        .bind (plain_issue trivial) fun _ => .bind (plain_transition _ _) fun _ => trivial
    · exact .bind trivial fun _ => .bind (plain_issue trivial) fun _ =>
        .bind (plain_transition _ _) fun _ => trivial
  · exact .bind (plain_transition _ _) fun _ => plain_issue trivial

theorem plain_finish (jobId : Uuid) (workerId : String) (token : Uuid) (output : Option Json)
    (error : Option String) (retryable : Bool) :
    Plain (finish jobId workerId token output error retryable) := by
  refine .bind (plain_owned _ _ _ _) fun ⟨job, attempt⟩ => ?_
  dsimp only
  split
  · split
    · trivial
    · exact plain_throw (by simp)
  split
  · exact plain_throw (by simp)
  refine .bind (plain_issue trivial) fun t => ?_
  split
  · exact plain_throw (by simp)
  split
  · exact plain_throw (by simp)
  cases error with
  | some e => exact plain_failAttempt _ _ _ _ _
  | none =>
      exact .bind (plain_issue trivial) fun _ => .bind (plain_issue trivial) fun _ =>
        .bind (plain_issue trivial) fun _ => .bind (plain_issue trivial) fun _ =>
        .bind (plain_transition _ _) fun _ => trivial

theorem plain_lease (worker : Worker) (slot : ℤ) (claimId : Option Uuid) (policy : Policy)
    (leaseSeconds : ℚ) : Plain (lease worker slot claimId policy leaseSeconds) := by
  refine .bind (plain_issue trivial) fun t => .bind (plain_issue trivial) fun row => ?_
  cases row with
  | none => trivial
  | some job =>
      refine .bind (plain_issue trivial) fun _ => ?_
      -- the claim id is given or drawn
      cases claimId with
      | some c =>
          exact .bind trivial fun _ => .bind (plain_issue trivial) fun _ =>
            .bind (plain_issue trivial) fun _ => .bind (plain_issue trivial) fun _ =>
            .bind (plain_transition _ _) fun _ => trivial
      | none =>
          exact .bind (plain_issue trivial) fun _ => .bind (plain_issue trivial) fun _ =>
            .bind (plain_issue trivial) fun _ => .bind (plain_issue trivial) fun _ =>
            .bind (plain_transition _ _) fun _ => trivial

/-- A plain program runs alike under other workers. -/
theorem Plain.exec_swap {α : Type} {p : Tx α} (hp : Plain p) (ws : Table Worker)
    (es : List SystemEvent) (feed : ℕ → Moment) (db : Database) :
    p.exec feed (db.swap ws es) =
      { p.exec feed db with state := (p.exec feed db).state.swap ws es } :=
  (Over.mono (fun _ h => Sql.Blind.ignores h ws es) hp).exec_ignores feed db

/-- A change fails only by a constraint. -/
theorem Write.apply_error {w : Write} {db : Database} {e : Error} (h : w.apply db = .error e) :
    ∃ name, e = .integrity name := by
  have hins : ∀ {ρ κ : Type} [Keyed ρ κ] [DecidableEq κ] {t : Table ρ} {row : ρ} {name : String}
      {f : Table ρ → Database},
      (insertOr t row name >>= fun u => Except.ok (f u)) = .error e → e = .integrity name := by
    intro ρ κ _ _ t row name f h
    unfold insertOr at h
    cases hu : t.insert? row <;> simp only [hu] at h <;> cases h
    rfl
  cases w with
  | addJob job =>
      simp only [Write.apply] at h
      split_ifs at h
      · cases h
        exact ⟨_, rfl⟩
      · exact ⟨_, hins h⟩
  | addAttempt a =>
      simp only [Write.apply] at h
      split_ifs at h
      · cases h
        exact ⟨_, rfl⟩
      · cases h
        exact ⟨_, rfl⟩
      · cases h
        exact ⟨_, rfl⟩
      · exact ⟨_, hins h⟩
  | addResult r => exact ⟨_, hins h⟩
  | setJob | setAttempt | addEvent | setWorker | addSystemEvent => cases h

/-- A statement fails on a constraint only. -/
theorem eval_error {β : Type} {s : Sql β} {m : Moment} {db : Database} {e : Error}
    (h : Sql.eval s m db = .error e) : ∃ name, e = .integrity name := by
  cases s with
  | write w =>
      cases hw : w.apply db with
      | ok db' => simp [Sql.eval, hw, Except.map] at h
      | error e' =>
          simp only [Sql.eval, hw, Except.map, Except.error.injEq] at h
          exact h ▸ Write.apply_error hw
  | insertWorker w =>
      simp only [Sql.eval] at h
      split at h <;> cases h
  | _ => simp [Sql.eval] at h

/-- No statement rejects a session. -/
theorem eval_ne_unauthorized {β : Type} (s : Sql β) (m : Moment) (db : Database) (e : Error)
    (h : Sql.eval s m db = .error e) (detail : String) : e ≠ .unauthorized detail := by
  obtain ⟨name, rfl⟩ := eval_error h
  simp

/-- A claim whose id is known is decided by the capacity and by the attempt. -/
theorem exec_claim_known {db : Database} {k : String} {w : Worker}
    (hw : db.workers.find? k = some w) {c : Uuid} {x : Attempt}
    (hx : (db.attempts.rows.find? fun a => decide (a.claimId = c)) = some x) (slot : ℤ)
    (policy : Policy) (leaseSeconds : ℚ) (feed : ℕ → Moment) :
    (claim k slot (some c) policy leaseSeconds).exec feed db =
      if slot < 0 ∨ w.capacity ≤ slot then
        ⟨.error (.invalid "Slot is outside this worker's capacity" "slot"), db,
          fun n => feed (n + 1)⟩
      else Prog.exec (if x.workerId ≠ k ∨ x.slot ≠ slot then
            raise (.conflict "Claim ID belongs to another slot")
          else if x.finishedAt.isSome then raise (.conflict "Claim is already finished")
          else do
            let job ← getJob x.jobId
            pure (some (job, x)) : Tx (Option (Job × Attempt))) (fun n => feed (n + 2)) db := by
  rw [claim, Prog.issue_bind, Prog.exec_stmt_ok (b := some w) (t := db) (by rw [← hw]; rfl)]
  simp only
  split
  · rfl
  · rw [Prog.issue_bind, Prog.exec_stmt_ok (b := some x) (t := db) (by rw [← hx]; rfl)]

/-- So it reads of its worker only the capacity. -/
theorem claim_swap {ws : Table Worker} {db : Database} {k : String} {w v : Worker}
    (hw : db.workers.find? k = some w) (hv : ws.find? k = some v) (hcap : v.capacity = w.capacity)
    {c : Uuid} {x : Attempt}
    (hx : (db.attempts.rows.find? fun a => decide (a.claimId = c)) = some x) (slot : ℤ)
    (policy : Policy) (leaseSeconds : ℚ) (es : List SystemEvent) (feed : ℕ → Moment) :
    (claim k slot (some c) policy leaseSeconds).exec feed (db.swap ws es) =
      { (claim k slot (some c) policy leaseSeconds).exec feed db with
        state := ((claim k slot (some c) policy leaseSeconds).exec feed db).state.swap ws es } := by
  rw [exec_claim_known (show (db.swap ws es).workers.find? k = some v from hv) hx,
    exec_claim_known hw hx, hcap]
  split
  · rfl
  · refine Plain.exec_swap ?_ ws es _ db
    split
    · exact plain_throw (by simp)
    split
    · exact plain_throw (by simp)
    · exact .bind (plain_getJob _ _) fun _ => trivial

/-- The program rejects no session. -/
def Lenient {α : Type} (p : Tx α) : Prop :=
  Over (fun _ => True) (fun e => ∀ detail, e ≠ .unauthorized detail) p

theorem Plain.lenient {α : Type} {p : Tx α} (hp : Plain p) : Lenient p :=
  Over.mono (fun _ _ => trivial) hp

theorem Lenient.bind {α β : Type} {p : Tx α} {f : α → Tx β} (hp : Lenient p)
    (hf : ∀ a, Lenient (f a)) : Lenient (p >>= f) := Over.bind hp hf

theorem lenient_issue {β : Type} (s : Sql β) : Lenient (Prog.issue s : Tx β) :=
  ⟨trivial, fun _ => trivial⟩

theorem Lenient.result_ne {α : Type} {p : Tx α} (hp : Lenient p) (feed : ℕ → Moment)
    (db : Database) (detail : String) :
    (p.exec feed db).result ≠ .error (.unauthorized detail) :=
  fun h => Over.error hp eval_ne_unauthorized h detail rfl

/-- What `claim` does after the replay check. -/
theorem lenient_openAttempt (workerId : String) (slot : ℤ) (claimId : Option Uuid)
    (policy : Policy) (leaseSeconds : ℚ) (w : Worker) : Lenient (do
      match ← Prog.issue (.openAttempt workerId slot) with
      | some attempt =>
          if claimId.isSome ∧ claimId ≠ some attempt.claimId then
            raise (.conflict "Slot is occupied")
          else do
            let job ← getJob attempt.jobId
            pure (some (job, attempt))
      | none =>
          if w.state ≠ .healthy then pure none
          else lease w slot claimId policy leaseSeconds) := by
  refine .bind (lenient_issue _) fun row => ?_
  cases row with
  | some x =>
      dsimp only
      split
      · exact (plain_throw (by simp)).lenient
      · exact .bind (plain_getJob _ _).lenient fun _ => trivial
  | none =>
      dsimp only
      split
      · trivial
      · exact (plain_lease _ _ _ _ _).lenient

theorem lenient_claim (workerId : String) (slot : ℤ) (claimId : Option Uuid) (policy : Policy)
    (leaseSeconds : ℚ) : Lenient (claim workerId slot claimId policy leaseSeconds) := by
  have hopen := lenient_openAttempt workerId slot claimId policy leaseSeconds
  refine .bind (lenient_issue _) fun row => ?_
  cases row with
  | none => exact (plain_throw (by simp)).lenient
  | some w =>
      dsimp only
      split
      · exact (plain_throw (by simp)).lenient
      cases claimId with
      | none => exact hopen w
      | some c =>
          refine .bind (lenient_issue _) fun existing => ?_
          cases existing with
          | none => exact hopen w
          | some x =>
              dsimp only
              split
              · exact (plain_throw (by simp)).lenient
              split
              · exact (plain_throw (by simp)).lenient
              · exact .bind (plain_getJob _ _).lenient fun _ => trivial

/-! ## Sessions -/

section Sessions

variable [Sha256]

/-- The test of `identity` on the stored session. -/
def sessionOk (hash credential : Option String) : Bool :=
  decide (hash.getD "" ≠ "") && decide (hash = some (Sha256.hexdigest (credential.getD "")))

/-- A request of a worker is a session check in front of a program. -/
theorem identity_bind {α : Type} (workerId : String) (credential : Option String)
    (f : Worker → Tx α) :
    (identity workerId credential >>= f) = .stmt (.worker workerId) fun found =>
      match found with
      | none => raise (.unauthorized "Invalid worker session")
      | some w => if sessionOk w.sessionHash credential then f w
          else raise (.unauthorized "Invalid worker session") := by
  rw [identity, Prog.issue_bind, Prog.stmt_bind]
  congr 1
  funext found
  cases found with
  | none => rfl
  | some w =>
      by_cases hempty : w.sessionHash.getD "" = ""
      · simp [sessionOk, hempty, raise]
      · by_cases hhash : w.sessionHash = some (Sha256.hexdigest (credential.getD ""))
        · simp only [hhash, Option.getD_some] at hempty
          simp [sessionOk, hhash, hempty]
        · simp [sessionOk, hempty, hhash, raise]

/-- A request of a worker runs behind its session check. -/
theorem exec_identity {α : Type} {workerId : String} {db : Database} {w : Worker}
    (hw : db.workers.find? workerId = some w) {f : Worker → Tx α} {credential : Option String}
    {feed : ℕ → Moment} :
    (identity workerId credential >>= f).exec feed db =
      if sessionOk w.sessionHash credential then (f w).exec (fun n => feed (n + 1)) db
      else ⟨.error (.unauthorized "Invalid worker session"), db, fun n => feed (n + 1)⟩ := by
  rw [identity_bind, Prog.exec_stmt_ok (b := some w) (t := db) (by rw [← hw]; rfl)]
  cases hok : sessionOk w.sessionHash credential <;> simp [hok, raise]

theorem exec_identity_none {α : Type} {workerId : String} {db : Database}
    (hw : db.workers.find? workerId = none) {f : Worker → Tx α} {credential : Option String}
    {feed : ℕ → Moment} :
    (identity workerId credential >>= f).exec feed db =
      ⟨.error (.unauthorized "Invalid worker session"), db, fun n => feed (n + 1)⟩ := by
  rw [identity_bind, Prog.exec_stmt_ok (b := none) (t := db) (by rw [← hw]; rfl)]
  rfl

end Sessions

end GreyQueue
