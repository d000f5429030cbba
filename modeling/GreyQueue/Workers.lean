import GreyQueue.Frame
import GreyQueue.History

/-!
# Workers

Five code paths write a worker's row, and none of them goes through a transition
function.  Here each is a change, and one lemma says what changes do to workers: only a
takeover replaces the session or forgets a drain.

## Main definitions

* `Worker.Drains` — the drain flag and the state agree.
* `Worker.Keeps` — what only a takeover changes.
* `TakesOver` — a registration takes a dead id over.

## Main results

* `commit_untaken` — a transaction that takes nothing over makes no takeover change.
* `drain_intent` — a drained worker gets no new work and keeps what it has.
-/

namespace GreyQueue

open Lib
open Lib.Prog (Sat sat_bind)

/-- The drain flag and the state agree. -/
def Worker.Drains (w : Worker) : Prop :=
  (w.drainRequested = true → w.state = .draining ∨ w.state = .dead) ∧
    (w.state = .draining → w.drainRequested = true)

/-- A later version of a row that nobody took over. -/
def Worker.Keeps (w v : Worker) : Prop :=
  v.sessionHash = w.sessionHash ∧ v.capacity = w.capacity ∧
    (w.drainRequested = true → v.drainRequested = true)

theorem Worker.Keeps.trans {u v w : Worker} (h : u.Keeps v) (h' : v.Keeps w) : u.Keeps w :=
  ⟨h'.1.trans h.1, h'.2.1.trans h.2.1, fun hd => h'.2.2 (h.2.2 hd)⟩

/-- The change does not take the worker over. -/
def Untaken (workerId : String) (c : Change) : Prop :=
  ∀ w body hash t, c = .takeover w body hash t → w.id ≠ workerId

/-- What a change does to the workers: it enrolls one, rewrites one, or leaves them alone.
A rewritten row still agrees with its drain flag, and only a takeover loses anything. -/
theorem effect_workers {db : Database} {c : Change} (hg : c.guard db) :
    (∃ w, c = .enroll w) ∨
      (∃ w v, db.workers.find? w.id = some w ∧ v.id = w.id ∧
        (c.effect db).workers = db.workers.put v ∧ (w.Drains → v.Drains) ∧
        (Untaken w.id c → w.Keeps v)) ∨
      (c.effect db).workers = db.workers := by
  cases c with
  | enroll w => exact Or.inl ⟨w, rfl⟩
  | seen w t =>
      refine Or.inr (Or.inl ⟨w, { w with lastSeen := t, state := w.returning }, hg, rfl, rfl,
        fun _ => ?_, fun _ => ⟨rfl, rfl, id⟩⟩)
      cases hd : w.drainRequested <;> simp [Worker.Drains, Worker.returning, hd]
  | drain w =>
      exact Or.inr (Or.inl ⟨w, { w with state := .draining, drainRequested := true }, hg.1, rfl,
        rfl, fun _ => by simp [Worker.Drains], fun _ => ⟨rfl, rfl, fun _ => rfl⟩⟩)
  | takeover w body hash t =>
      refine Or.inr (Or.inl ⟨w, { w with
        sessionHash := some hash, capacity := body.capacity, capabilities := body.capabilities
        state := .healthy, lastSeen := t, drainRequested := false }, hg.1, rfl, rfl,
        fun _ => by simp [Worker.Drains], fun huntaken => ?_⟩)
      exact absurd rfl (huntaken w body hash t rfl)
  | mark w state =>
      refine Or.inr (Or.inl ⟨w, { w with state }, hg.1, rfl, rfl, ?_, fun _ => ⟨rfl, rfl, id⟩⟩)
      obtain ⟨-, halive, rfl | ⟨rfl, hdraining⟩⟩ := hg
      · simp [Worker.Drains]
      · intro hw
        have hflag : w.drainRequested ≠ true := fun hd => (hw.1 hd).elim hdraining halive
        simp [Worker.Drains, hflag]
  | admitted | lease | start | renew | succeed | retry | fail | cancel | log =>
      exact Or.inr (Or.inr rfl)

/-- The row of a worker that is taken over. -/
def Worker.takenOver (w : Worker) (body : Registration) (hash : String) (t : Time) : Worker :=
  { w with
    sessionHash := some hash, capacity := body.capacity, capabilities := body.capabilities
    state := .healthy, lastSeen := t, drainRequested := false }

theorem find?_takeover {db : Database} {w : Worker} {body : Registration} {hash : String}
    {t : Time} (hg : (Change.takeover w body hash t).guard db) :
    ((Change.takeover w body hash t).effect db).workers.find? w.id =
      some (w.takenOver body hash t) :=
  Table.find?_put_self (r := w.takenOver body hash t) hg.1

/-- Every worker's drain flag agrees with its state. -/
def DrainInv (db : Database) : Prop := ∀ w ∈ db.workers.rows, w.Drains

theorem DrainInv.effect {db : Database} (h : DrainInv db) {c : Change} (hg : c.guard db) :
    DrainInv (c.effect db) := by
  rcases effect_workers hg with ⟨w, rfl⟩ | ⟨w, v, hrow, -, heq, hdrains, -⟩ | heq
  · intro x hx
    rcases (Table.mem_add hg.1).mp hx with hx | rfl
    · exact h x hx
    · simp [Worker.Drains, hg.2.1, hg.2.2]
  · intro x hx
    rw [heq] at hx
    rcases Table.mem_put.mp hx with ⟨hx, -⟩ | ⟨rfl, -⟩
    · exact h x hx
    · exact hdrains (h w (Table.mem_of_find? hrow))
  · rw [DrainInv, heq]
    exact h

/-- A worker that is not taken over keeps its session and its drain. -/
theorem effect_keeps {db : Database} {c : Change} (hg : c.guard db) {k : String} {w : Worker}
    (hw : db.workers.find? k = some w) (hc : Untaken k c) :
    ∃ v, (c.effect db).workers.find? k = some v ∧ w.Keeps v := by
  have hsame : w.Keeps w := ⟨rfl, rfl, id⟩
  rcases effect_workers hg with ⟨u, rfl⟩ | ⟨u, v, hrow, hid, heq, -, hkeeps⟩ | heq
  · refine ⟨w, (Table.find?_add_ne _ ?_).trans hw, hsame⟩
    rintro rfl
    have := hg.1
    simp_all
  · by_cases huk : u.id = k
    · subst huk
      rw [hw, Option.some.injEq] at hrow
      subst hrow
      refine ⟨v, ?_, hkeeps hc⟩
      have hfind : db.workers.find? v.id = some w := hid ▸ hw
      rw [heq, ← hid]
      exact Table.find?_put_self hfind
    · have hne : v.id ≠ k := hid ▸ huk
      exact ⟨w, by rw [heq]; exact (Table.find?_put_ne _ hne).trans hw, hsame⟩
  · exact ⟨w, by rw [heq]; exact hw, hsame⟩

/-- A worker with a drain gets no new attempt. -/
theorem effect_drained {db : Database} (hdrains : DrainInv db) {c : Change} (hg : c.guard db)
    {k : String} {w : Worker} (hw : db.workers.find? k = some w) (hd : w.drainRequested = true)
    {x : Attempt} (hx : x ∈ (c.effect db).attempts.rows) (hxk : x.workerId = k) :
    ∃ y ∈ db.attempts.rows, y.id = x.id ∧ y.workerId = k := by
  rcases effect_attempts hg with ⟨v, job, a, t, s, rfl⟩ | ⟨job, a, b, hold, hl, heq⟩ | heq
  · rcases (Table.mem_add hg.fresh).mp hx with hx | rfl
    · exact ⟨x, hx, rfl, hxk⟩
    · -- the leasing worker is healthy
      have hv := hg.worker_row
      rw [← hg.attempt_worker, hxk, hw, Option.some.injEq] at hv
      subst hv
      have := (hdrains w (Table.mem_of_find? hw)).1 hd
      simp [hg.healthy] at this
  · rw [heq] at hx
    rcases Table.mem_put.mp hx with ⟨hx, -⟩ | ⟨rfl, -⟩
    · exact ⟨x, hx, rfl, hxk⟩
    · refine ⟨a, Table.mem_of_find? hold.attempt_row, by rw [hl.1], ?_⟩
      rw [← hxk, hl.1]
  · rw [heq] at hx
    exact ⟨x, hx, rfl, hxk⟩

/-! ## Transactions -/

variable [Sha256]

/-- The registration finds the worker dead and under another session. -/
def TakesOver (workerId : String) (db : Database) (t : Txn) : Prop :=
  ∃ body w, t.request = .register body ∧ body.workerId = workerId ∧
    db.workers.find? workerId = some w ∧ w.state = .dead ∧
    w.sessionHash.getD "" ≠ Sha256.hexdigest body.sessionToken

/-- A transaction that does not take the worker over makes no such change. -/
theorem commit_untaken {db : Database} (hinv : Inv db) {t : Txn} {k : String}
    (hno : ¬ TakesOver k db t) :
    Makes (fun c => Allowed t.config t.request c ∧ Untaken k c) db (commit db t) := by
  by_cases hreg : ∃ body, t.request = .register body
  · obtain ⟨body, hreq⟩ := hreg
    have hlog : ∀ e, Untaken k (.log e) := fun e w b h t hc => by cases hc
    have hsat : Sat (fun _ => True) (serve t.config (.register body)) db fun r d =>
        (∃ response, r = .ok response) →
          Makes (fun c => Allowed t.config (.register body) c ∧ Untaken k c) db d := by
      refine (sat_bind _ _ _).mpr (sat_register ?_ ?_ ?_ ?_ ?_)
      · rintro w - - ⟨response, hr⟩
        cases hr
      · rintro now e hg -
        exact (Makes.single hg ⟨⟨now, rfl⟩, fun _ _ _ _ hc => by cases hc⟩).snoc
          (c := .log e) trivial ⟨trivial, hlog e⟩
      · rintro w - - - -
        exact .refl db
      · rintro w τ e hid hg hsame hdead -
        exact (Makes.single hg ⟨⟨hid, hdead, hsame⟩, fun _ _ _ _ hc => by cases hc⟩).snoc
          (c := .log e) trivial ⟨trivial, hlog e⟩
      · rintro w τ e hid hg -
        refine (Makes.single hg ⟨⟨hid, rfl, rfl⟩, ?_⟩).snoc (c := .log e) trivial ⟨trivial, hlog e⟩
        rintro v b h τ' hc rfl
        cases hc
        exact hno ⟨body, w, hreq, hid.symm, hg.1, hg.2.1, hg.2.2⟩
    have hexec := hsat.exec (f := t.feed) fun _ => trivial
    rw [hreq, commit]
    cases hans : t.answer db with
    | error e => exact .refl db
    | ok response =>
        rw [← hreq] at hexec
        rw [← hreq]
        exact hexec ⟨response, hans⟩
  · obtain ⟨cs, hp, hall, heq⟩ := commit_makes hinv t
    refine ⟨cs, hp, fun c hc => ⟨hall c hc, ?_⟩, heq⟩
    rintro w b h τ rfl
    -- only a registration may take a worker over
    have hallowed := hall _ hc
    cases hreq : t.request with
    | register body => exact absurd ⟨body, hreq⟩ hreg
    | _ =>
        rw [hreq] at hallowed
        exact hallowed.elim

/-- What the changes of a transaction that does not take the worker over preserve. -/
theorem run_untaken {I : Database → Prop} {txns more : List Txn} {k : String}
    (h0 : I (run txns))
    (hno : ∀ pre u post, more = pre ++ u :: post → ¬ TakesOver k (run (txns ++ pre)) u)
    (hstep : ∀ c db, Inv db → c.guard db → Untaken k c → I db → I (c.effect db)) :
    I (run (txns ++ more)) := by
  induction more using List.reverseRecOn with
  | nil => simpa using h0
  | append_singleton more t ih =>
      have hI := ih fun pre u post hmore => hno pre u (post ++ [t]) (by simp [hmore])
      rw [← List.append_assoc, run_snoc]
      have hmake := commit_untaken (run_inv (txns ++ more)) (hno more t [] rfl)
      exact (hmake.invariant (I := fun d => Inv d ∧ I d)
        (fun c hc d hg hd => ⟨hd.1.effect hg, hstep c d hd.1 hg hc.2 hd.2⟩)
        ⟨run_inv _, hI⟩).2

/-! ## Drains -/

/-- The request starts, renews or finishes the attempt, or repeats its claim. -/
def Request.Regards (a : Attempt) : Request → Prop
  | .start _ body _ => body.workerId = a.workerId ∧ body.token = a.id
  | .renew _ body _ => body.workerId = a.workerId ∧ body.token = a.id
  | .finish _ body _ => body.workerId = a.workerId ∧ body.token = a.id
  | .claim body _ => body.workerId = a.workerId ∧ body.claimId = a.claimId
  | _ => False

/-- Requests about an attempt read of the workers only the session and the capacity of the
one it belongs to. -/
theorem serve_swap {db : Database} {ws : Table Worker} {a : Attempt} {w v : Worker}
    (hw : db.workers.find? a.workerId = some w) (hv : ws.find? a.workerId = some v)
    (hsession : v.sessionHash = w.sessionHash) (hcap : v.capacity = w.capacity)
    (ha : ∃ b ∈ db.attempts.rows, b.claimId = a.claimId) {request : Request}
    (hr : request.Regards a) (config : Settings) (es : List SystemEvent) (feed : ℕ → Moment) :
    (serve config request).exec feed (db.swap ws es) =
      { (serve config request).exec feed db with
        state := ((serve config request).exec feed db).state.swap ws es } := by
  -- the session check reads the same hash, whatever follows it
  have hidentity : ∀ {q : Tx Response} {c : Option String},
      (∀ feed, q.exec feed (db.swap ws es) =
        { q.exec feed db with state := (q.exec feed db).state.swap ws es }) →
      (identity a.workerId c >>= fun _ => q).exec feed (db.swap ws es) =
        { (identity a.workerId c >>= fun _ => q).exec feed db with
          state := ((identity a.workerId c >>= fun _ => q).exec feed db).state.swap ws es } := by
    intro q c hq
    rw [exec_identity hw, exec_identity (show (db.swap ws es).workers.find? _ = some v from hv),
      hsession]
    split
    · exact hq _
    · rfl
  cases request with
  | start jobId body c =>
      obtain ⟨hbody, -⟩ := hr
      simp only [serve, hbody]
      refine hidentity fun feed => Plain.exec_swap ?_ ws es feed db
      exact .bind (plain_start _ _ _) fun _ => trivial
  | renew jobId body c =>
      obtain ⟨hbody, -⟩ := hr
      simp only [serve, hbody]
      refine hidentity fun feed => Plain.exec_swap ?_ ws es feed db
      exact .bind (plain_renew _ _ _ _) fun _ => trivial
  | finish jobId body c =>
      obtain ⟨hbody, -⟩ := hr
      simp only [serve, hbody]
      refine hidentity fun feed => Plain.exec_swap ?_ ws es feed db
      exact .bind (plain_finish _ _ _ _ _ _) fun _ => trivial
  | claim body c =>
      obtain ⟨hbody, hclaim⟩ := hr
      simp only [serve, hbody]
      refine hidentity fun feed => ?_
      have hx : (db.attempts.rows.find? fun b => decide (b.claimId = body.claimId)).isSome := by
        simpa [List.find?_isSome, hclaim] using ha
      obtain ⟨x, hx⟩ := Option.isSome_iff_exists.mp hx
      rw [Prog.exec_bind, Prog.exec_bind, claim_swap hw hv hcap hx]
      cases ((claim a.workerId body.slot (some body.claimId) config.scheduler
        config.leaseSeconds).exec feed db).result <;> rfl
  | _ => exact hr.elim

/-- So they are answered and change the work alike. -/
theorem commit_swap {db : Database} {ws : Table Worker} {a : Attempt} {w v : Worker}
    (hw : db.workers.find? a.workerId = some w) (hv : ws.find? a.workerId = some v)
    (hsession : v.sessionHash = w.sessionHash) (hcap : v.capacity = w.capacity)
    (ha : ∃ b ∈ db.attempts.rows, b.claimId = a.claimId) {t : Txn} (hr : t.request.Regards a)
    (es : List SystemEvent) :
    t.answer (db.swap ws es) = t.answer db ∧
      SameWork (commit (db.swap ws es) t) (commit db t) := by
  have h := serve_swap hw hv hsession hcap ha hr t.config es t.feed
  have hans : t.answer (db.swap ws es) = t.answer db := by
    rw [Txn.answer, Txn.outcome, h]
    rfl
  refine ⟨hans, ?_⟩
  rw [commit, commit, hans]
  cases t.answer db with
  | error e => exact ⟨rfl, rfl, rfl, rfl⟩
  | ok response =>
      simp only [Txn.outcome, h]
      exact ⟨rfl, rfl, rfl, rfl⟩

/-- A successful drain sets the flag of a worker that is there, and touches no work. -/
theorem commit_drain {db : Database} {t : Txn} {k : String} (hreq : t.request = .drain k)
    {response : Response} (hans : t.answer db = .ok response) :
    ∃ w v, db.workers.find? k = some w ∧ (commit db t).workers.find? k = some v ∧ w.Keeps v ∧
      v.drainRequested = true ∧ SameWork (commit db t) db := by
  have hsat : Sat (fun _ => True) (serve t.config (.drain k)) db fun r d => ∀ response,
      r = .ok response → ∃ w v, db.workers.find? k = some w ∧ d.workers.find? k = some v ∧
        w.Keeps v ∧ v.drainRequested = true ∧ SameWork d db := by
    refine (sat_bind _ _ _).mpr (sat_drain ?_ ?_)
    · intro e _ r hr
      cases hr
    · rintro w rfl hg
      have hput : db.workers.find? ({ w with
          state := .draining, drainRequested := true } : Worker).id = some w := hg.1
      have hfind := Table.find?_put_self hput
      exact ⟨fun _ _ => ⟨w, _, hg.1, hfind, ⟨rfl, rfl, fun _ => rfl⟩, rfl, rfl, rfl, rfl, rfl⟩,
        fun _ _ _ => ⟨w, _, hg.1, hfind, ⟨rfl, rfl, fun _ => rfl⟩, rfl, rfl, rfl, rfl, rfl⟩⟩
  have hexec := hsat.exec (f := t.feed) fun _ => trivial
  rw [commit, hans]
  rw [← hreq] at hexec
  exact hexec response hans

theorem run_drainInv (txns : List Txn) : DrainInv (run txns) :=
  (run_invariant (fun _ hw => by simp at hw) (fun _ _ _ hg h => h.effect hg) txns).2

/-- **Drain intent is never lost.** In every reachable state a worker with a drain is
draining or dead, and a draining worker has one.  After a successful drain, and until
another session takes the dead worker over, every attempt of the worker is one it had
before: no claim makes a new one.  Yet a request that starts, renews or finishes one of
these attempts, or repeats its claim, is answered and changes jobs, attempts, results and
events exactly as if the workers were still as they were before the drain. -/
theorem drain_intent (txns : List Txn) :
    (∀ w ∈ (run txns).workers.rows,
      (w.drainRequested = true → w.state = .draining ∨ w.state = .dead) ∧
      (w.state = .draining → w.drainRequested = true)) ∧
    ∀ (t : Txn) (workerId : String) (response : Response), t.request = .drain workerId →
      t.answer (run txns) = .ok response → ∀ more : List Txn,
      (∀ pre u post, more = pre ++ u :: post →
        ¬ TakesOver workerId (run (txns ++ t :: pre)) u) →
      (∀ a ∈ (run (txns ++ t :: more)).attempts.rows, a.workerId = workerId →
        ∃ b ∈ (run txns).attempts.rows, b.id = a.id) ∧
      ∀ a ∈ (run txns).attempts.rows, a.workerId = workerId →
        ∀ u : Txn, u.request.Regards a →
          (u.answer (run (txns ++ [t])) = u.answer (run txns) ∧
            SameWork (commit (run (txns ++ [t])) u) (commit (run txns) u)) ∧
          (u.answer (run (txns ++ t :: more)) =
              u.answer { run (txns ++ t :: more) with workers := (run txns).workers } ∧
            SameWork (commit (run (txns ++ t :: more)) u)
              (commit { run (txns ++ t :: more) with workers := (run txns).workers } u)) := by
  refine ⟨run_drainInv txns, fun t k response hreq hans more hno => ?_⟩
  obtain ⟨w, v, hw, hv, hwv, hflag, hsame⟩ := commit_drain hreq hans
  have hrun : txns ++ t :: more = (txns ++ [t]) ++ more := by simp
  rw [← run_snoc] at hv hsame
  -- the worker keeps its session and its drain, and has only the attempts it had
  have hkept : DrainInv (run (txns ++ t :: more)) ∧
      (∃ u, (run (txns ++ t :: more)).workers.find? k = some u ∧ w.Keeps u ∧
        u.drainRequested = true) ∧
      ∀ a ∈ (run (txns ++ t :: more)).attempts.rows, a.workerId = k →
        ∃ b ∈ (run txns).attempts.rows, b.id = a.id := by
    rw [hrun]
    refine run_untaken (k := k) (I := fun d => DrainInv d ∧
      (∃ u, d.workers.find? k = some u ∧ w.Keeps u ∧ u.drainRequested = true) ∧
      ∀ a ∈ d.attempts.rows, a.workerId = k → ∃ b ∈ (run txns).attempts.rows, b.id = a.id)
      ⟨run_drainInv _, ⟨v, hv, hwv, hflag⟩, fun a ha _ => ⟨a, hsame.2.1 ▸ ha, rfl⟩⟩ ?_ ?_
    · intro pre u post hmore
      rw [List.append_assoc]
      exact hno pre u post hmore
    · rintro c d - hg hc ⟨hd, ⟨u, hu, hwu, hflag⟩, hold⟩
      obtain ⟨u', hu', huu'⟩ := effect_keeps hg hu hc
      refine ⟨hd.effect hg, ⟨u', hu', hwu.trans huu', huu'.2.2 hflag⟩, fun a ha hak => ?_⟩
      obtain ⟨y, hy, hya, hyk⟩ := effect_drained hd hg hu hflag ha hak
      obtain ⟨b, hb, hby⟩ := hold y hy hyk
      exact ⟨b, hb, hby.trans hya⟩
  obtain ⟨-, ⟨u, hu, hwu, -⟩, hold⟩ := hkept
  refine ⟨hold, fun a ha hak q hq => ⟨?_, ?_⟩⟩
  · subst hak
    rw [hsame.eq_swap]
    exact commit_swap hw hv hwv.1 hwv.2.1 ⟨a, ha, rfl⟩ hq _
  · subst hak
    obtain ⟨b, hb, hab⟩ := (run_later txns (t :: more)).attempts a.id a (Table.find?_of_mem ha)
    have hclaim : ∃ b ∈ (run (txns ++ t :: more)).attempts.rows, b.claimId = a.claimId :=
      ⟨b, Table.mem_of_find? hb, by rw [hab.1]⟩
    obtain ⟨hanswer, hwork⟩ := commit_swap hu hw hwu.1.symm hwu.2.1.symm hclaim hq
      (run (txns ++ t :: more)).systemEvents
    exact ⟨hanswer.symm, hwork.symm⟩

end GreyQueue
