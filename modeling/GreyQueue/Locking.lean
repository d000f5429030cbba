import GreyQueue.Lib.Locks
import GreyQueue.Api

/-!
# Locks of the transactions

The locks that the statements of a session take in PostgreSQL, and the order in which the
transactions take them: advisory locks, then worker rows, then job rows, then the unique
index of claim ids.  Recovery and `detect_workers` hold many rows of one kind, but they get
them with `SKIP LOCKED` and never wait for a second one.

An attempt row is only written under the lock of its job, a result only inserted under it,
and an idempotency key only inserted under the advisory lock of `admit`, so that nobody waits
for these.  An insert with a claim id does wait for a transaction that inserted or changed an
attempt with that id: two workers may send the same one.

## Main results

* `serve_audit` — the transaction of every request takes its locks in order.
* `deadlock_freedom` — in every reachable lock state the wait-for graph has no cycle, and from
  every transaction the waits lead to one that proceeds.
-/

namespace GreyQueue

open Lib

/-- What transactions lock. -/
inductive Lock
  | advisory (key : ℕ)
  | worker (id : String)
  | job (id : Uuid)
  | claim (id : Uuid)
  deriving DecidableEq

/-- The order in which locks are taken. -/
def Lock.rank : Lock → ℕ
  | .advisory _ => 0
  | .worker _ => 1
  | .job _ => 2
  | .claim _ => 3

/-- The locks that a change waits for: the row it changes, the rows that its foreign keys refer
to, and the claim id of a new attempt. -/
def Write.requests : Write → List (Lock × Mode)
  | .addJob job => (job.dependsOn.map fun parent => (Lock.job parent, .keyShare)).toList
  | .setJob job => [(.job job.id, .noKeyUpdate)]
  | .addAttempt a =>
      [(.claim a.claimId, .insert), (.worker a.workerId, .keyShare), (.job a.jobId, .keyShare)]
  | .addResult r => [(.job r.jobId, .keyShare)]
  | .addEvent e => [(.job e.jobId, .keyShare)]
  | .setWorker w => [(.worker w.id, .noKeyUpdate)]
  | .setAttempt _ | .addSystemEvent _ => []

/-- The locks that a change leaves. -/
def Write.takes : Write → List (Lock × Mode)
  | .addJob job => (.job job.id, .insert) :: (Write.addJob job).requests
  | .setAttempt a => [(.claim a.claimId, .noKeyUpdate)]
  | w => w.requests

/-- The locks that a statement waits for. -/
def Sql.requests {β : Type} : Sql β → List (Lock × Mode)
  | .advisoryLock key => [(.advisory key, .update)]
  | .worker id => [(.worker id, .update)]
  | .job id true => [(.job id, .update)]
  | .insertWorker w => [(.worker w.id, .insert)]
  | .write w => w.requests
  | _ => []

/-- The locks that a statement gets without waiting. -/
def Sql.skims : {β : Type} → Sql β → β → List (Lock × Mode)
  | _, .tryAdvisoryLock key, free => if free then [(.advisory key, .update)] else []
  | _, .nextJob _ _ _, found => found.toList.map fun j => (.job j.id, .update)
  | _, .expiredJobs _ _, jobs => jobs.map fun j => (.job j.id, .update)
  | _, .blockedJobs _, jobs => jobs.map fun j => (.job j.id, .update)
  | _, .silentWorkers _, workers => workers.map fun w => (.worker w.id, .update)
  | _, _, _ => []

/-- The locks that an answered statement leaves. -/
def Sql.takes : {β : Type} → Sql β → β → List (Lock × Mode)
  | _, .advisoryLock key, _ => [(.advisory key, .update)]
  | _, .worker _, found => found.toList.map fun w => (.worker w.id, .update)
  | _, .job _ true, found => found.toList.map fun j => (.job j.id, .update)
  | _, .insertWorker w, inserted => if inserted then [(.worker w.id, .insert)] else []
  | _, .write w, _ => w.takes
  | _, s, b => s.skims b

/-- A row that is selected by its key has that key. -/
def Sql.Answers : {β : Type} → Sql β → β → Prop
  | _, .worker id, found => ∀ w ∈ found, w.id = id
  | _, .job id _, found => ∀ j ∈ found, j.id = id
  | _, _, _ => True

/-- Every statement can be answered with nothing found. -/
theorem Sql.answerable {β : Type} (s : Sql β) : ∃ b, s.Answers b ∧ s.skims b = [] := by
  cases s with
  | worker id => exact ⟨none, by simp [Sql.Answers], rfl⟩
  | job id lock => exact ⟨none, by simp [Sql.Answers], rfl⟩
  | tryAdvisoryLock key => exact ⟨false, trivial, rfl⟩
  | nextJob policy w timestamp => exact ⟨none, trivial, rfl⟩
  | expiredJobs timestamp limit => exact ⟨[], trivial, rfl⟩
  | blockedJobs limit => exact ⟨[], trivial, rfl⟩
  | silentWorkers deadline => exact ⟨[], trivial, rfl⟩
  | insertWorker w => exact ⟨false, trivial, rfl⟩
  | clockTimestamp => exact ⟨0, trivial, rfl⟩
  | now => exact ⟨0, trivial, rfl⟩
  | uuid4 => exact ⟨0, trivial, rfl⟩
  | uniform => exact ⟨0, trivial, rfl⟩
  | countActive => exact ⟨0, trivial, rfl⟩
  | countSince t => exact ⟨0, trivial, rfl⟩
  | advisoryLock key => exact ⟨(), trivial, rfl⟩
  | write w => exact ⟨(), trivial, rfl⟩
  | attempt id => exact ⟨none, trivial, rfl⟩
  | attemptByClaim claimId => exact ⟨none, trivial, rfl⟩
  | openAttempt workerId slot => exact ⟨none, trivial, rfl⟩
  | openAttemptOf jobId => exact ⟨none, trivial, rfl⟩
  | jobByKey key => exact ⟨none, trivial, rfl⟩

instance : Locking Sql Lock where
  requests := Sql.requests
  takes := Sql.takes
  skims := Sql.skims
  Answers := Sql.Answers
  answerable := Sql.answerable

/-! ## Statements -/

section Statements

variable {α β : Type} {held : List (Lock × Mode)} {Q : α → List (Lock × Mode) → Prop}

/-- A statement that waits for nothing. -/
theorem audit_quiet {s : Sql β} {k : β → Tx α} (hs : s.requests = [])
    (h : ∀ b, s.Answers b → Audit Lock.rank (k b) (s.takes b ++ held) Q) :
    Audit Lock.rank (.stmt s k) held Q := by
  refine ⟨?_, h⟩
  intro r hr
  change r ∈ s.requests at hr
  simp [hs] at hr

/-- A statement that waits only for rows that the transaction has. -/
theorem audit_firm {s : Sql β} {k : β → Tx α} (hs : ∀ r ∈ s.requests, Firm held r.1)
    (h : ∀ b held', held ⊆ held' → Audit Lock.rank (k b) held' Q) :
    Audit Lock.rank (.stmt s k) held Q :=
  ⟨fun r hr => .inl (hs r hr), fun b _ => h b _ (List.subset_append_right _ _)⟩

/-- A statement that waits for nothing, with a continuation. -/
theorem audit_read {s : Sql β} {k : β → Tx α} (hs : s.requests = [])
    (h : ∀ b, s.Answers b → Audit Lock.rank (k b) (s.takes b ++ held) Q) :
    Audit Lock.rank (Prog.issue s >>= k) held Q :=
  audit_quiet hs h

/-- A statement that waits only for rows that the transaction has, with a continuation. -/
theorem audit_issue {s : Sql β} {k : β → Tx α} (hs : ∀ r ∈ s.requests, Firm held r.1)
    (h : ∀ b held', held ⊆ held' → Audit Lock.rank (k b) held' Q) :
    Audit Lock.rank (Prog.issue s >>= k) held Q :=
  audit_firm hs h

/-- Appending an event to a job that the transaction has. -/
theorem audit_addEvent {jobId : Uuid} {state : EventState} (h : Firm held (.job jobId)) :
    Audit Lock.rank (addEvent jobId state) held fun _ _ => True := by
  refine audit_quiet rfl fun now _ => audit_firm ?_ fun _ _ _ => trivial
  simpa [Sql.requests, Write.requests] using .inr h

/-- A system event refers to no row. -/
theorem audit_addSystemEvent {kind : SystemKind} {workerId : Option String}
    {detail : Option (Uuid × Uuid)} :
    Audit Lock.rank (addSystemEvent kind workerId detail) held fun _ _ => True :=
  audit_quiet rfl fun _ _ => audit_quiet rfl fun _ _ => trivial

end Statements

/-! ## Operations -/

section Operations

variable {held : List (Lock × Mode)}

theorem audit_transition {job : Job} {state : Status} (h : Firm held (.job job.id)) :
    Audit Lock.rank (transition job state) held fun job' _ => job'.id = job.id := by
  unfold transition
  split
  · refine audit_firm (by simpa [Sql.requests, Write.requests] using h) fun _ _ h₁ => ?_
    refine audit_firm (by simp [Sql.requests]) fun t _ h₂ => ?_
    refine audit_firm ?_ fun _ _ h₃ => ?_
    · simpa [Sql.requests, Write.requests] using (h.mono h₁).mono h₂
    · exact (audit_addEvent (((h.mono h₁).mono h₂).mono h₃)).bind fun _ _ _ _ => rfl
  · trivial

/-- Reading a job without its lock. -/
theorem audit_getJob {jobId : Uuid} :
    Audit Lock.rank (getJob jobId) held fun _ _ => True := by
  refine audit_quiet rfl fun found _ => ?_
  cases found <;> trivial

/-- Everything that is locked ranks below `n`. -/
def Below (n : ℕ) (held : List (Lock × Mode)) : Prop := ∀ x ∈ held, x.1.rank < n

@[simp] theorem below_nil (n : ℕ) : Below n [] := by simp [Below]
@[simp] theorem below_cons (n : ℕ) (x : Lock × Mode) (held : List (Lock × Mode)) :
    Below n (x :: held) ↔ x.1.rank < n ∧ Below n held := List.forall_mem_cons

/-- Locking a job row above everything that the transaction has. -/
theorem audit_getJob_lock {jobId : Uuid} (h : Below 2 held) :
    Audit Lock.rank (getJob jobId true) held fun job held' =>
      job.id = jobId ∧ Firm held' (.job jobId) := by
  refine ⟨?_, fun found hfound => ?_⟩
  · intro r hr
    cases List.mem_singleton.mp hr
    exact .inr h
  · cases found with
    | none => trivial
    | some job =>
        have hid : job.id = jobId := hfound job rfl
        refine ⟨hid, .inl ?_⟩
        subst hid
        exact List.mem_cons_self

/-- Locking a worker row that the transaction has, or before everything else. -/
theorem audit_worker {α : Type} {workerId : String} {k : Option Worker → Tx α}
    {Q : α → List (Lock × Mode) → Prop} (h : held = [] ∨ Firm held (.worker workerId))
    (hjobs : Below 2 held) (hnone : Audit Lock.rank (k none) held Q)
    (hsome : ∀ w held', w.id = workerId → Firm held' (.worker workerId) → Below 2 held' →
      Audit Lock.rank (k (some w)) held' Q) :
    Audit Lock.rank (.stmt (.worker workerId) k) held Q := by
  refine ⟨?_, fun found hfound => ?_⟩
  · intro r hr
    cases List.mem_singleton.mp hr
    rcases h with rfl | hfirm
    · exact .inr (by simp)
    · exact .inl hfirm
  · cases found with
    | none => exact hnone
    | some w =>
        have hid : w.id = workerId := hfound w rfl
        subst hid
        refine hsome w _ rfl (.inl List.mem_cons_self) ((below_cons ..).mpr ⟨?_, hjobs⟩)
        simp [Lock.rank]

/-- Changing a worker row that the transaction has. -/
theorem audit_setWorker {α : Type} {w : Worker} {k : Unit → Tx α}
    {Q : α → List (Lock × Mode) → Prop} (h : Firm held (.worker w.id))
    (hk : ∀ held', Audit Lock.rank (k ()) held' Q) :
    Audit Lock.rank (flush (.setWorker w) >>= k) held Q :=
  audit_issue (by simpa [Sql.requests, Write.requests] using h) fun _ held' _ => hk held'

variable [Sha256]

theorem audit_identity {workerId : String} {credential : Option String} :
    Audit Lock.rank (identity workerId credential) [] fun record held' =>
      record.id = workerId ∧ Firm held' (.worker workerId) ∧ Below 2 held' := by
  rw [identity, Prog.issue_bind]
  refine audit_worker (.inl rfl) (by simp) trivial fun w held' hid hfirm hjobs => ?_
  dsimp only
  split_ifs
  · trivial
  · exact ⟨hid, hfirm, hjobs⟩

omit [Sha256] in
theorem audit_owned {jobId token : Uuid} {workerId : String} {allowFinished : Bool}
    (h : Below 2 held) :
    Audit Lock.rank (owned jobId workerId token allowFinished) held fun p held' =>
      p.1.id = jobId ∧ Firm held' (.job jobId) := by
  refine (audit_getJob_lock h).bind fun job held₁ _ hjob => ?_
  rw [Prog.issue_bind]
  refine audit_quiet rfl fun found _ => ?_
  have hkeep : ∀ l, Firm (l ++ held₁) (.job jobId) := fun l => by simp [hjob.2]
  cases found with
  | none => trivial
  | some attempt =>
      dsimp only
      split_ifs
      · trivial
      · exact ⟨hjob.1, hkeep _⟩
      · trivial
      · rw [databaseTime, Prog.issue_bind]
        refine audit_quiet rfl fun t _ => ?_
        split_ifs
        · trivial
        · exact ⟨hjob.1, (hkeep _).mono (List.subset_append_right _ _)⟩

omit [Sha256]

/-- Closing an attempt takes no lock that its job does not cover. -/
theorem audit_failAttempt {job : Job} {attempt : Attempt} {error : String} {retryable : Bool}
    {outcome : AttemptOutcome} (h : Firm held (.job job.id)) :
    Audit Lock.rank (failAttempt job attempt error retryable outcome) held fun _ _ => True := by
  refine audit_issue (by simp [Sql.requests]) fun t held₁ h₁ => ?_
  refine audit_issue (by simp [Sql.requests, Write.requests]) fun _ held₂ h₂ => ?_
  have hjob := (h.mono h₁).mono h₂
  have hretry : ∀ {job' : Job} {held₃}, job'.id = job.id → held₂ ⊆ held₃ →
      Audit Lock.rank (do flush (.setJob job'); let _ ← transition job' .retryWait) held₃
        fun _ _ => True := by
    intro job' held₃ hid h₃
    refine audit_issue ?_ fun _ held₄ h₄ => ?_
    · simpa [Sql.requests, Write.requests, hid] using hjob.mono h₃
    · refine (audit_transition ?_).bind fun _ _ _ _ => trivial
      simpa [hid] using (hjob.mono h₃).mono h₄
  split_ifs
  · exact audit_issue (by simp [Sql.requests]) fun factor held₃ h₃ => hretry rfl h₃
  · exact hretry rfl (List.Subset.refl _)
  all_goals
    refine (audit_transition hjob).bind fun job' held₃ h₃ hid => audit_firm ?_ fun _ _ _ => trivial
    simpa [Sql.requests, Write.requests, hid] using hjob.mono h₃

theorem audit_start {jobId token : Uuid} {workerId : String} (h : Below 2 held) :
    Audit Lock.rank (start jobId workerId token) held fun _ _ => True := by
  refine (audit_owned h).bind ?_
  rintro ⟨job, attempt⟩ held₁ - ⟨rfl, hjob⟩
  dsimp only
  split_ifs
  · trivial
  · trivial
  · refine audit_issue (by simp [Sql.requests]) fun t held₂ h₂ => ?_
    refine audit_issue (by simp [Sql.requests, Write.requests]) fun _ held₃ h₃ => ?_
    exact (audit_transition ((hjob.mono h₂).mono h₃)).bind fun _ _ _ _ => trivial

theorem audit_renew {jobId token : Uuid} {workerId : String} {leaseSeconds : ℚ}
    (h : Below 2 held) :
    Audit Lock.rank (renew jobId workerId token leaseSeconds) held fun _ _ => True := by
  refine (audit_owned h).bind ?_
  rintro ⟨job, attempt⟩ held₁ - -
  dsimp only
  split
  · trivial
  · refine audit_issue (by simp [Sql.requests]) fun t held₂ _ => ?_
    split_ifs
    · trivial
    · exact audit_issue (by simp [Sql.requests, Write.requests]) fun _ _ _ => trivial

theorem audit_finish {jobId token : Uuid} {workerId : String} {output : Option Json}
    {error : Option String} {retryable : Bool} (h : Below 2 held) :
    Audit Lock.rank (finish jobId workerId token output error retryable) held fun _ _ => True := by
  refine (audit_owned h).bind ?_
  rintro ⟨job, attempt⟩ held₁ - ⟨rfl, hjob⟩
  dsimp only
  by_cases hopen : attempt.finishedAt.isSome = true
  · simp only [hopen, if_true]
    split_ifs <;> trivial
  · simp only [hopen, Bool.false_eq_true, if_false]
    split
    · trivial
    · refine audit_issue (by simp [Sql.requests]) fun t held₂ h₂ => ?_
      have hjob₂ := hjob.mono h₂
      split
      · trivial
      · split
        · trivial
        · cases error with
          | some error => exact audit_failAttempt hjob₂
          | none =>
              refine audit_issue (by simp [Sql.requests, Write.requests]) fun _ held₃ h₃ => ?_
              refine audit_issue (by simp [Sql.requests]) fun t held₄ h₄ => ?_
              refine audit_issue (by simp [Sql.requests, Write.requests]) fun _ held₅ h₅ => ?_
              have hjob₅ := ((hjob₂.mono h₃).mono h₄).mono h₅
              refine audit_issue ?_ fun _ held₆ h₆ => ?_
              · simpa [Sql.requests, Write.requests] using hjob₅
              · exact (audit_transition (hjob₅.mono h₆)).bind fun _ _ _ _ => trivial

theorem audit_cancel {jobId : Uuid} (h : Below 2 held) :
    Audit Lock.rank (cancel jobId) held fun _ _ => True := by
  refine (audit_getJob_lock h).bind ?_
  rintro job held₁ - ⟨rfl, hjob⟩
  split_ifs
  · trivial
  · trivial
  · exact (audit_transition hjob).bind fun _ _ _ _ => trivial

/-- The claimed job is locked with `SKIP LOCKED`; the claim id is the last lock. -/
theorem audit_lease {w : Worker} {slot : ℤ} {claimId : Option Uuid} {policy : Policy}
    {leaseSeconds : ℚ} (hworker : Firm held (.worker w.id)) (h : Below 2 held) :
    Audit Lock.rank (lease w slot claimId policy leaseSeconds) held fun _ _ => True := by
  have hbelow : ∀ x ∈ held, x.1.rank < 3 := fun x hx => Nat.lt_succ_of_lt (h x hx)
  refine audit_read rfl fun t _ => audit_read rfl fun found _ => ?_
  cases found with
  | none => trivial
  | some job =>
      have hadd : ∀ {c : Uuid} {attempt : Attempt}, attempt.claimId = c → attempt.workerId = w.id →
          attempt.jobId = job.id → Audit Lock.rank (do
            flush (.addAttempt attempt)
            let job ← transition { job with attemptCount := job.attemptCount + 1 } .leased
            pure (some (job, attempt)))
          ((.job job.id, .noKeyUpdate) :: (.job job.id, .update) :: held) fun _ _ => True := by
        rintro c attempt rfl hw hj
        have hfirm : ∀ {held₁}, (.job job.id, .update) :: held ⊆ held₁ →
            Firm held₁ (.worker w.id) ∧ Firm held₁ (.job job.id) := fun hsub =>
          ⟨hworker.mono fun x hx => hsub (List.mem_cons_of_mem _ hx),
            .inl (hsub List.mem_cons_self)⟩
        have hown := hfirm (List.subset_cons_self (Lock.job job.id, Mode.noKeyUpdate) _)
        refine ⟨?_, fun _ _ => ?_⟩
        · intro r hr
          change r ∈ [(Lock.claim attempt.claimId, Mode.insert),
            (.worker attempt.workerId, .keyShare), (.job attempt.jobId, .keyShare)] at hr
          simp only [List.mem_cons, List.not_mem_nil, or_false] at hr
          rcases hr with rfl | rfl | rfl
          · exact .inr (by simpa [Lock.rank] using hbelow)
          · exact .inl (hw ▸ hown.1)
          · exact .inl (hj ▸ hown.2)
        · refine (audit_transition ?_).bind fun _ _ _ _ => trivial
          exact hown.2.mono (List.subset_append_right _ _)
      refine ⟨?_, fun _ _ => ?_⟩
      · intro r hr
        cases List.mem_singleton.mp hr
        exact .inl (.inl List.mem_cons_self)
      · cases claimId with
        | some c => exact audit_read rfl fun id _ => audit_read rfl fun now _ => hadd rfl rfl rfl
        | none =>
            exact audit_read rfl fun c _ => audit_read rfl fun id _ =>
              audit_read rfl fun now _ => hadd rfl rfl rfl

theorem audit_claim {workerId : String} {slot : ℤ} {claimId : Option Uuid} {policy : Policy}
    {leaseSeconds : ℚ} (h : Firm held (.worker workerId)) (hjobs : Below 2 held) :
    Audit Lock.rank (claim workerId slot claimId policy leaseSeconds) held fun _ _ => True := by
  have hassigned : ∀ {attempt : Attempt} {held : List (Lock × Mode)}, Audit Lock.rank (do
      let job ← getJob attempt.jobId
      pure (some (job, attempt))) held fun _ _ => True :=
    audit_getJob.bind fun _ _ _ _ => trivial
  rw [claim, Prog.issue_bind]
  refine audit_worker (.inr h) hjobs trivial ?_
  rintro w held₁ rfl hfirm hjobs
  dsimp only
  split
  · trivial
  · rcases claimId with _ | c
    case' some =>
      refine audit_read rfl fun found _ => ?_
      rcases found with _ | existing
      case some =>
        dsimp only
        split_ifs
        · trivial
        · trivial
        · exact hassigned
    -- no attempt has the claim id: the slot is looked at
    all_goals
      change Audit _ (Prog.issue (Sql.openAttempt w.id slot) >>= _) _ _
      refine audit_read rfl fun found _ => ?_
      rcases found with _ | attempt
      · dsimp only
        split_ifs
        · trivial
        · exact audit_lease hfirm hjobs
      · dsimp only
        split_ifs <;> first | trivial | exact hassigned

/-- One expired lease, under the lock of its job. -/
theorem audit_expire {job : Job} (h : Firm held (.job job.id)) :
    Audit Lock.rank (expire job) held fun _ _ => True := by
  refine audit_issue (by simp [Sql.requests]) fun found held₁ h₁ => ?_
  cases found with
  | none => trivial
  | some attempt =>
      refine audit_issue (by simp [Sql.requests]) fun t held₂ h₂ => ?_
      split_ifs
      · exact (audit_failAttempt ((h.mono h₁).mono h₂)).bind fun _ _ _ _ => audit_addSystemEvent
      · trivial

theorem audit_recoverJobs {limit : ℕ} :
    Audit Lock.rank (recoverJobs limit) [] fun _ _ => True := by
  have hlocked : ∀ (jobs : List Job) (held : List (Lock × Mode)), ∀ j ∈ jobs,
      Firm (jobs.map (fun j => (Lock.job j.id, Mode.update)) ++ held) (.job j.id) :=
    fun jobs held j hj => .inl (List.mem_append_left _ (List.mem_map_of_mem hj))
  have hkeep : ∀ (j : Job) (held held' : List (Lock × Mode)), held ⊆ held' →
      Firm held (.job j.id) → Firm held' (.job j.id) := fun _ _ _ hsub hj => hj.mono hsub
  refine audit_read rfl fun free _ => ?_
  split_ifs
  · refine audit_read rfl fun t _ => audit_read rfl fun jobs _ => ?_
    refine (Audit.forEach hkeep (fun _ _ => audit_expire) jobs (hlocked jobs _)).bind
      fun _ held₁ _ _ => ?_
    refine audit_read rfl fun blocked _ => ?_
    refine (Audit.forEach hkeep ?_ blocked (hlocked blocked _)).bind fun _ _ _ _ => trivial
    exact fun _ _ hj => (audit_transition hj).bind fun _ _ _ _ => trivial
  · trivial

theorem audit_detect {timestamp : Time} {deadAfter : ℚ} {w : Worker}
    (h : Firm held (.worker w.id)) :
    Audit Lock.rank (detect timestamp deadAfter w) held fun _ _ => True := by
  have hset : ∀ {state : WorkerState} {kind : SystemKind}, Audit Lock.rank (do
      flush (.setWorker { w with state })
      addSystemEvent kind (some w.id)) held fun _ _ => True :=
    audit_setWorker (by exact h) fun _ => audit_addSystemEvent
  unfold detect
  dsimp only
  split_ifs <;> first | exact hset | trivial

theorem audit_detectWorkers {suspectAfter deadAfter : ℚ} :
    Audit Lock.rank (detectWorkers suspectAfter deadAfter) [] fun _ _ => True := by
  have hkeep : ∀ (w : Worker) (held held' : List (Lock × Mode)), held ⊆ held' →
      Firm held (.worker w.id) → Firm held' (.worker w.id) := fun _ _ _ hsub hw => hw.mono hsub
  refine audit_read rfl fun t _ => audit_read rfl fun workers _ => ?_
  exact Audit.forEach hkeep (fun _ _ => audit_detect) workers
    fun w hw => .inl (List.mem_append_left _ (List.mem_map_of_mem hw))

theorem audit_drain {workerId : String} :
    Audit Lock.rank (drain workerId) [] fun _ _ => True := by
  rw [drain, Prog.issue_bind]
  refine audit_worker (.inl rfl) (by simp) trivial ?_
  rintro w held₁ rfl hfirm -
  dsimp only
  split_ifs
  · trivial
  · exact audit_setWorker hfirm fun _ => audit_addSystemEvent.bind fun _ _ _ _ => trivial
  · exact audit_setWorker hfirm fun _ => trivial

section Sessions

variable [Sha256]

theorem audit_heartbeat {workerId : String} {credential : Option String} :
    Audit Lock.rank (heartbeat workerId credential) [] fun _ _ => True := by
  refine audit_identity.bind fun record held₁ _ h => ?_
  obtain ⟨rfl, hfirm, -⟩ := h
  refine audit_issue (by simp [Sql.requests]) fun t held₂ h₂ => ?_
  have hset : ∀ {held₃}, held₂ ⊆ held₃ → Audit Lock.rank (do
      flush (.setWorker { record with lastSeen := t, state := record.returning })
      pure record.returning) held₃ fun _ _ => True := fun h₃ =>
    audit_setWorker ((hfirm.mono h₂).mono h₃) fun _ => trivial
  split_ifs
  · exact audit_addSystemEvent.bind fun _ _ h₃ _ => hset h₃
  · exact hset (List.Subset.refl _)

/-- A registration inserts the worker row or locks the one that is there. -/
theorem audit_register {body : Registration} :
    Audit Lock.rank (register body) [] fun _ _ => True := by
  simp only [register, Prog.issue_bind]
  refine audit_quiet rfl fun now _ => ⟨?_, fun inserted _ => ?_⟩
  · exact fun r _ => .inr (by simp [Sql.takes, Sql.skims])
  change Audit Lock.rank _
    ((if inserted then [(Lock.worker body.workerId, Mode.insert)] else []) ++ []) fun _ _ => True
  have hheld : (if inserted then [(Lock.worker body.workerId, Mode.insert)] else []) ++ [] = [] ∨
      Firm ((if inserted then [(Lock.worker body.workerId, Mode.insert)] else []) ++ [])
        (.worker body.workerId) := by
    cases inserted <;> simp [Firm]
  refine audit_worker hheld ?_ trivial ?_
  · cases inserted <;> simp [Lock.rank]
  · rintro w held₁ hid hfirm -
    rw [← hid] at hfirm
    dsimp only
    split
    · exact audit_addSystemEvent
    · split
      · split
        · refine audit_issue (by simp [Sql.requests]) fun t held₂ h₂ => ?_
          exact audit_setWorker (hfirm.mono h₂) fun _ => audit_addSystemEvent
        · trivial
      · split
        · trivial
        · refine audit_issue (by simp [Sql.requests]) fun t held₂ h₂ => ?_
          exact audit_setWorker (hfirm.mono h₂) fun _ => audit_addSystemEvent

end Sessions

theorem audit_checkParent {dependsOn : Option Uuid} :
    Audit Lock.rank (checkParent dependsOn) held fun _ held' => held' = held := by
  unfold checkParent
  split
  · rfl
  · rw [Prog.issue_bind]
    refine audit_quiet rfl fun found _ => ?_
    cases found with
    | none => trivial
    | some parent =>
        dsimp only
        split
        · trivial
        · rfl

/-- A new job refers to its parent, which is the first row that the transaction locks. -/
theorem audit_create {body : Submit} {args : Json} {hash : String}
    {queueLimit submissionsPerMinute : ℕ} (h : ∀ x ∈ held, x.1.rank = 0) :
    Audit Lock.rank (create body args hash queueLimit submissionsPerMinute) held
      fun _ _ => True := by
  have hinsert : ∀ timestamp, Audit Lock.rank (do
      let id ← (Prog.issue Sql.uuid4 : Tx Uuid)
      let job := newJob id body args hash timestamp
      flush (.addJob job)
      addEvent job.id .submitted
      addEvent job.id (.entered .queued)
      pure (job, true)) held fun _ _ => True := by
    intro timestamp
    refine audit_read rfl fun id _ => ⟨?_, fun _ _ => ?_⟩
    · intro r hr
      refine .inr fun x hx => ?_
      rw [h x hx]
      change r ∈ (body.dependsOn.map fun parent => (Lock.job parent, Mode.keyShare)).toList at hr
      obtain ⟨parent, -, rfl⟩ : ∃ parent, body.dependsOn = some parent ∧
          (Lock.job parent, Mode.keyShare) = r := by simpa using hr
      simp [Lock.rank]
    · refine (audit_addEvent (.inr List.mem_cons_self)).bind fun _ held₁ h₁ _ => ?_
      refine (audit_addEvent (.inr (h₁ List.mem_cons_self))).bind fun _ _ _ _ => trivial
  refine audit_read rfl fun timestamp _ => audit_read rfl fun count _ =>
    audit_read rfl fun rate _ => ?_
  dsimp only
  split
  · trivial
  · refine audit_checkParent.bind ?_
    rintro _ held₁ - rfl
    exact hinsert timestamp

variable [Sha256]

theorem audit_admitJob {body : Submit} {queueLimit submissionsPerMinute : ℕ} :
    Audit Lock.rank (admitJob body queueLimit submissionsPerMinute) [] fun _ _ => True := by
  have hadvisory : ∀ x ∈ [(Lock.advisory 741901, Mode.update)], x.1.rank = 0 := by simp [Lock.rank]
  unfold admitJob
  split
  · trivial
  · split
    · trivial
    · refine ⟨fun r _ => .inr (by simp), fun _ _ => ?_⟩
      cases body.idempotencyKey with
      | none => exact audit_create hadvisory
      | some key =>
          refine audit_read rfl fun found _ => ?_
          cases found with
          | none => exact audit_create hadvisory
          | some existing =>
              dsimp only
              split <;> trivial

/-- The transaction of every request takes its locks in order. -/
theorem serve_audit (config : Settings) (request : Request) :
    Audit Lock.rank (serve config request) [] fun _ _ => True := by
  cases request with
  | submit body => exact audit_admitJob.bind fun _ _ _ _ => trivial
  | cancel jobId => exact (audit_cancel (by simp)).bind fun _ _ _ _ => trivial
  | drain workerId => exact audit_drain.bind fun _ _ _ _ => trivial
  | register body => exact audit_register.bind fun _ _ _ _ => trivial
  | heartbeat workerId credential => exact audit_heartbeat.bind fun _ _ _ _ => trivial
  | claim body credential =>
      refine audit_identity.bind fun _ _ _ h => ?_
      exact (audit_claim h.2.1 h.2.2).bind fun _ _ _ _ => trivial
  | start jobId body credential =>
      refine audit_identity.bind fun _ _ _ h => ?_
      exact (audit_start h.2.2).bind fun _ _ _ _ => trivial
  | renew jobId body credential =>
      refine audit_identity.bind fun _ _ _ h => ?_
      exact (audit_renew h.2.2).bind fun _ _ _ _ => trivial
  | finish jobId body credential =>
      refine audit_identity.bind fun _ _ _ h => ?_
      exact (audit_finish h.2.2).bind fun _ _ _ _ => trivial
  | recoverJobs limit => exact audit_recoverJobs.bind fun _ _ _ _ => trivial
  | detectWorkers => exact audit_detectWorkers.bind fun _ _ _ _ => trivial

end Operations

/-! ## Interleavings -/

section Interleavings

variable [Sha256]

/-- The transactions of a set of coordinators. -/
def Serving (body : Tx Response) : Prop := ∃ config request, body = serve config request

/-- In every lock state that interleavings of transactions lead to, the wait-for graph has no
cycle, and from every transaction under way the waits lead to one that proceeds. -/
theorem deadlock_freedom (st : LockState Sql Error Lock Response) (h : LockReachable Serving st) :
    (∀ n, ¬ Relation.TransGen (Edge st.Waits) n n) ∧
      ∀ n conn, st n = some conn →
        ∃ m st', Relation.ReflTransGen (Edge st.Waits) n m ∧ Proceeds st m st' := by
  have haudited : st.Audited Lock.rank := by
    refine h.audited ?_
    rintro body ⟨config, request, rfl⟩
    exact serve_audit config request
  refine ⟨haudited.acyclic, fun n conn hn => haudited.progress 4 ?_ hn⟩
  intro x
  cases x <;> simp [Lock.rank]

end Interleavings

/-- Two requests cancel the same job; the second one waits for the first. -/
theorem deadlock_freedom_cancel : letI := Sha256.tabulated []
    ∃ st : LockState Sql Error Lock Response, LockReachable Serving st ∧ Edge st.Waits 1 0 ∧
      ¬ Relation.TransGen (Edge st.Waits) 1 1 ∧
      ∃ m st', Relation.ReflTransGen (Edge st.Waits) 1 m ∧ Proceeds st m st' := by
  let _ := Sha256.tabulated []
  let job := newJob 5 .flaky (.obj []) "" 0
  let idle : LockState Sql Error Lock Response := fun _ => none
  let one : LockState Sql Error Lock Response :=
    Function.update idle 0 (some ⟨serve .standard (.cancel 5), []⟩)
  have hone : LockStep Serving idle one := .start rfl ⟨_, _, rfl⟩
  have hfree : one.Free 0 := by
    rintro m ⟨x, hne, -, mode, mode', -, hx, -⟩
    simp [LockState.held, one, idle, Function.update_of_ne (Ne.symm hne)] at hx
  have hlocked : ∃ st, Proceeds one 0 st ∧ st 1 = none ∧ (.job 5, .update) ∈ st.held 0 := by
    refine ⟨_, .answer (b := some job) rfl hfree ?_ ?_, rfl, List.mem_cons_self⟩
    · rintro _ ⟨⟩
      rfl
    · simp [Locking.skims, Sql.skims]
  obtain ⟨two, htwo, hnone, hheld⟩ := hlocked
  let st : LockState Sql Error Lock Response :=
    Function.update two 1 (some ⟨serve .standard (.cancel 5), []⟩)
  have hreach : LockReachable Serving st :=
    ((Relation.ReflTransGen.single hone).tail (.proceed htwo)).tail (.start hnone ⟨_, _, rfl⟩)
  have hwaits : Edge st.Waits 1 0 := by
    refine ⟨.job 5, by decide, ?_, .update, .update, ?_, ?_, rfl⟩
    · simp [Firm, LockState.held, st]
    · exact List.mem_cons_self
    · exact hheld
  obtain ⟨hacyclic, hprogress⟩ := deadlock_freedom st hreach
  exact ⟨st, hreach, hwaits, hacyclic 1, hprogress 1 _ rfl⟩

end GreyQueue
