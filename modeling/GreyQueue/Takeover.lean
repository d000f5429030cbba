import GreyQueue.Lib.Log
import GreyQueue.Workers

/-!
# Sessions and takeovers

A worker id belongs to the process that registered it last, where only the first
registration and the takeover of a dead id count.  Assignments are checked by worker id and
token alone, so that an attempt of the old process stays out of the new one's reach rests
on what each process can know.

## Main definitions

* `Installs`, `Holder` — the registrations that count, and the session they lead to.
* `Disciplined` — processes use only tokens they were given and claim ids of their own.

## Main results

* `run_session` — the stored session is the holder's.
* `session_exclusivity` — one credential is accepted, and a takeover cuts off the others.
-/

namespace GreyQueue

open Lib
open Lib.Prog (Sat sat_bind Over)

variable [Sha256]

/-! ## The session of a worker -/

/-- The registration inserts the worker or takes it over, under the session token. -/
def Installs (workerId token : String) (db : Database) (t : Txn) : Prop :=
  ∃ body, t.request = .register body ∧ body.workerId = workerId ∧ body.sessionToken = token ∧
    (db.workers.find? workerId = none ∨ TakesOver workerId db t)

/-- The token of the latest registration that inserted the worker or took it over. -/
def Holder (txns : List Txn) (workerId token : String) : Prop :=
  ∃ pre t post, txns = pre ++ t :: post ∧ Installs workerId token (run pre) t ∧
    ∀ pre' u post', post = pre' ++ u :: post' →
      ∀ token', ¬ Installs workerId token' (run (pre ++ t :: pre')) u

theorem Installs.unique {k token token' : String} {db : Database} {t : Txn}
    (h : Installs k token db t) (h' : Installs k token' db t) : token = token' := by
  obtain ⟨body, hreq, -, rfl, -⟩ := h
  obtain ⟨body', hreq', -, rfl, -⟩ := h'
  rw [hreq, Request.register.injEq] at hreq'
  rw [hreq']

theorem holder_snoc {txns : List Txn} {t : Txn} {k token : String} :
    Holder (txns ++ [t]) k token ↔ Installs k token (run txns) t ∨
      (Holder txns k token ∧ ∀ token', ¬ Installs k token' (run txns) t) := by
  constructor
  · rintro ⟨pre, u, post, heq, hu, hlast⟩
    rcases split_concat heq with ⟨rfl, rfl⟩ | ⟨post', htxns⟩
    · exact Or.inl hu
    · have hpost : post = post' ++ [t] := by
        rw [htxns, List.append_assoc, List.append_cancel_left_eq] at heq
        simpa using heq.symm
      refine Or.inr ⟨⟨pre, u, post', htxns, hu, fun pre' v post'' hv => ?_⟩, ?_⟩
      · exact hlast pre' v (post'' ++ [t]) (by simp [hpost, hv])
      · rw [htxns]
        exact hlast post' t [] hpost
  · rintro (hu | ⟨⟨pre, u, post, rfl, hu, hlast⟩, hno⟩)
    · exact ⟨txns, t, [], rfl, hu, fun pre' v post' h => by simp at h⟩
    · refine ⟨pre, u, post ++ [t], by simp, hu, fun pre' v post' hv => ?_⟩
      rcases split_concat hv with ⟨rfl, rfl⟩ | ⟨post'', hpost⟩
      · exact hno
      · exact hlast pre' v post'' hpost

theorem not_holder_nil {k token : String} : ¬ Holder [] k token := by
  rintro ⟨pre, t, post, h, -⟩
  simp at h

/-- A registration that installs a session leaves the worker with it. -/
theorem commit_installs {db : Database} {t : Txn} {k token : String}
    (h : Installs k token db t) :
    ∃ w, (commit db t).workers.find? k = some w ∧
      w.sessionHash = some (Sha256.hexdigest token) := by
  obtain ⟨body, hreq, rfl, rfl, hcase⟩ := h
  -- the row is missing, or dead and under another session
  have hrow : ∀ w, db.workers.find? body.workerId = some w → w.state = .dead ∧
      w.sessionHash.getD "" ≠ Sha256.hexdigest body.sessionToken := by
    intro w hw
    rcases hcase with hnone | ⟨body', w', hreq', -, hw', hdead, hother⟩
    · rw [hw] at hnone
      cases hnone
    · rw [hreq, Request.register.injEq] at hreq'
      rw [hw, Option.some.injEq] at hw'
      rw [hw', hreq']
      exact ⟨hdead, hother⟩
  have hsat : Sat (fun _ => True) (serve t.config (.register body)) db fun r d =>
      (∃ response, r = .ok response) ∧ ∃ w, d.workers.find? body.workerId = some w ∧
        w.sessionHash = some (Sha256.hexdigest body.sessionToken) := by
    refine (sat_bind _ _ _).mpr (sat_register ?_ ?_ ?_ ?_ ?_)
    · intro w hw halive
      exact absurd (hrow w hw).1 halive
    · intro now e hg
      exact ⟨⟨_, rfl⟩, _, Table.find?_add_self hg.1, rfl⟩
    · intro w hw _ halive
      exact absurd (hrow w hw).1 halive
    · intro w τ e hid hg hsame _
      exact absurd hsame (hrow w (hid ▸ hg)).2
    · intro w τ e hid hg
      exact ⟨⟨_, rfl⟩, _, hid ▸ find?_takeover hg, rfl⟩
  obtain ⟨⟨response, hans⟩, hw⟩ := hsat.exec (f := t.feed) fun _ => trivial
  rw [← hreq] at hans hw
  have hans : t.answer db = .ok response := hans
  rw [commit, hans]
  exact hw

/-- A worker id that nobody installs stays unknown. -/
theorem commit_unknown {db : Database} (hinv : Inv db) {t : Txn} {k : String}
    (hno : ∀ token, ¬ Installs k token db t) (hk : db.workers.find? k = none) :
    (commit db t).workers.find? k = none := by
  refine (commit_makes hinv t).invariant (I := fun d => d.workers.find? k = none) ?_ hk
  intro c hc d hg hd
  rcases effect_workers hg with ⟨w, rfl⟩ | ⟨w, v, hrow, hid, heq, -⟩ | heq
  · refine (Table.find?_add_ne _ ?_).trans hd
    rintro rfl
    cases hreq : t.request with
    | register body =>
        rw [hreq] at hc
        obtain ⟨now, rfl⟩ := hc
        exact hno body.sessionToken ⟨body, hreq, rfl, rfl, Or.inl hk⟩
    | _ => simp [hreq, Allowed] at hc
  · have hne : v.id ≠ k := by
      rintro rfl
      rw [hid, hrow] at hd
      cases hd
    rw [heq]
    exact (Table.find?_put_ne _ hne).trans hd
  · rw [heq]
    exact hd

/-- A known worker that nobody takes over keeps its session. -/
theorem commit_session {db : Database} (hinv : Inv db) {t : Txn} {k : String} {w : Worker}
    (hw : db.workers.find? k = some w) (hno : ¬ TakesOver k db t) :
    ∃ v, (commit db t).workers.find? k = some v ∧ v.sessionHash = w.sessionHash := by
  refine (commit_untaken hinv hno).invariant
    (I := fun d => ∃ v, d.workers.find? k = some v ∧ v.sessionHash = w.sessionHash) ?_
    ⟨w, hw, rfl⟩
  rintro c ⟨-, hc⟩ d hg ⟨v, hv, hsame⟩
  obtain ⟨v', hv', hkeeps⟩ := effect_keeps hg hv hc
  exact ⟨v', hv', hkeeps.1.trans hsame⟩

/-- The stored session is the holder's; an unknown worker has none. -/
theorem run_session (txns : List Txn) (k : String) :
    ((run txns).workers.find? k = none ∧ ∀ token, ¬ Holder txns k token) ∨
      ∃ w token, (run txns).workers.find? k = some w ∧ Holder txns k token ∧
        w.sessionHash = some (Sha256.hexdigest token) ∧
        ∀ token', Holder txns k token' → token' = token := by
  induction txns using List.reverseRecOn with
  | nil => exact Or.inl ⟨rfl, fun _ => not_holder_nil⟩
  | append_singleton txns t ih =>
      rw [run_snoc]
      by_cases hins : ∃ token, Installs k token (run txns) t
      · obtain ⟨token, hins⟩ := hins
        obtain ⟨w, hw, hhash⟩ := commit_installs hins
        refine Or.inr ⟨w, token, hw, holder_snoc.mpr (Or.inl hins), hhash, fun token' h => ?_⟩
        rcases holder_snoc.mp h with h | ⟨-, h⟩
        · exact h.unique hins
        · exact absurd hins (h token)
      · push Not at hins
        have hiff : ∀ token, Holder (txns ++ [t]) k token ↔ Holder txns k token := fun token =>
          holder_snoc.trans ⟨fun h => h.elim (fun h => absurd h (hins token)) And.left,
            fun h => Or.inr ⟨h, hins⟩⟩
        simp only [hiff]
        rcases ih with ⟨hnone, hno⟩ | ⟨w, token, hw, hholder, hhash, huniq⟩
        · exact Or.inl ⟨commit_unknown (run_inv txns) hins hnone, hno⟩
        · have hno : ¬ TakesOver k (run txns) t := by
            rintro ⟨body, w', hreq, hid, hrest⟩
            exact hins body.sessionToken
              ⟨body, hreq, hid, rfl, Or.inr ⟨body, w', hreq, hid, hrest⟩⟩
          obtain ⟨v, hv, hsame⟩ := commit_session (run_inv txns) hw hno
          exact Or.inr ⟨v, token, hv, hholder, hsame.trans hhash, huniq⟩

/-! ## Credentials -/

/-- The worker and the credential that a request is checked by. -/
def Request.session : Request → Option (String × Option String)
  | .heartbeat workerId credential => some (workerId, credential)
  | .claim body credential => some (body.workerId, credential)
  | .start _ body credential => some (body.workerId, credential)
  | .renew _ body credential => some (body.workerId, credential)
  | .finish _ body credential => some (body.workerId, credential)
  | _ => none

/-- A checked request runs behind `identity`, and what follows rejects no session. -/
theorem serve_session {request : Request} {k : String} {c : Option String}
    (h : request.session = some (k, c)) (config : Settings) :
    ∃ f : Worker → Tx Response, serve config request = (identity k c >>= f) ∧
      ∀ w, Lenient (f w) := by
  cases request with
  | heartbeat workerId credential =>
      cases h
      refine ⟨_, Prog.bind_assoc _ _ _, fun w => ?_⟩
      refine .bind (.bind (lenient_issue _) fun t => ?_) fun _ => trivial
      split
      · exact .bind (.bind (lenient_issue _) fun _ => lenient_issue _) fun _ =>
          .bind (lenient_issue _) fun _ => trivial
      · exact .bind (lenient_issue _) fun _ => trivial
  | claim body credential =>
      cases h
      exact ⟨_, rfl, fun _ => .bind (lenient_claim _ _ _ _ _) fun _ => trivial⟩
  | start jobId body credential =>
      cases h
      exact ⟨_, rfl, fun _ => .bind (plain_start _ _ _).lenient fun _ => trivial⟩
  | renew jobId body credential =>
      cases h
      exact ⟨_, rfl, fun _ => .bind (plain_renew _ _ _ _).lenient fun _ => trivial⟩
  | finish jobId body credential =>
      cases h
      exact ⟨_, rfl, fun _ => .bind (plain_finish _ _ _ _ _ _).lenient fun _ => trivial⟩
  | _ => cases h

/-- A checked request is rejected exactly when the stored session is not its credential's. -/
theorem unauthorized_iff {t : Txn} {k : String} {c : Option String}
    (h : t.request.session = some (k, c)) (db : Database) :
    t.answer db = .error (.unauthorized "Invalid worker session") ↔
      ∀ w, db.workers.find? k = some w → sessionOk w.sessionHash c = false := by
  obtain ⟨f, hserve, hf⟩ := serve_session h t.config
  rw [Txn.answer, Txn.outcome, hserve]
  cases hw : db.workers.find? k with
  | none => simp [exec_identity_none hw]
  | some w =>
      rw [exec_identity hw]
      cases hok : sessionOk w.sessionHash c with
      | true => simp [hok, (hf w).result_ne]
      | false => simp [hok]

/-- The accepted credential is the holder's. -/
theorem sessionOk_iff (hinj : Function.Injective (Sha256.hexdigest : String → String))
    (hhex : ∀ s : String, Sha256.hexdigest s ≠ "") (token : String) (c : Option String) :
    sessionOk (some (Sha256.hexdigest token)) c = true ↔ c.getD "" = token := by
  simp [sessionOk, hhex, hinj.eq_iff, eq_comm]

/-- A credential that is not the holder's is rejected. -/
theorem rejected (hinj : Function.Injective (Sha256.hexdigest : String → String))
    {txns : List Txn} {t : Txn} {k : String} {c : Option String}
    (h : t.request.session = some (k, c)) (hno : ¬ Holder txns k (c.getD "")) :
    t.answer (run txns) = .error (.unauthorized "Invalid worker session") := by
  refine (unauthorized_iff h _).mpr fun w hw => ?_
  rcases run_session txns k with ⟨hnone, -⟩ | ⟨w', token, hw', hholder, hhash, -⟩
  · rw [hw] at hnone
    cases hnone
  · rw [hw, Option.some.injEq] at hw'
    have hne : token ≠ c.getD "" := fun h => hno (h ▸ hholder)
    simp [sessionOk, hw', hhash, hinj.eq_iff, hne]

/-- An accepted credential is the holder's. -/
theorem holder_of_accepts (hinj : Function.Injective (Sha256.hexdigest : String → String))
    {txns : List Txn} {k : String} {c : Option String} (h : Accepts (run txns) k c) :
    Holder txns k (c.getD "") := by
  obtain ⟨w, hw, hhash⟩ := h
  rcases run_session txns k with ⟨hnone, -⟩ | ⟨w', token, hw', hholder, hhash', -⟩
  · rw [hw] at hnone
    cases hnone
  · rw [hw, Option.some.injEq] at hw'
    rw [← hw', hhash, Option.some.injEq, hinj.eq_iff] at hhash'
    rw [hhash']
    exact hholder

/-- A credential that is not installed again does not come back. -/
theorem not_holder_append {txns more : List Txn} {k token : String} (h : ¬ Holder txns k token)
    (hno : ∀ pre u post, more = pre ++ u :: post → ¬ Installs k token (run (txns ++ pre)) u) :
    ¬ Holder (txns ++ more) k token := by
  induction more using List.reverseRecOn with
  | nil => simpa using h
  | append_singleton more t ih =>
      have hmore := ih fun pre u post heq => hno pre u (post ++ [t]) (by simp [heq])
      rw [← List.append_assoc, holder_snoc]
      rintro (hins | ⟨hholder, -⟩)
      · exact hno more t [] rfl hins
      · exact hmore hholder

/-- A takeover installs the token of its registration. -/
theorem TakesOver.installs {k : String} {db : Database} {t : Txn} (h : TakesOver k db t)
    {body : Registration} (hreq : t.request = .register body) :
    Installs k body.sessionToken db t := by
  obtain ⟨body', w, hreq', hid, hrest⟩ := h
  have hbody : body = body' := Request.register.inj (hreq.symm.trans hreq')
  exact ⟨body, hreq, hbody ▸ hid, rfl, Or.inr ⟨body', w, hreq', hid, hrest⟩⟩

/-- After a takeover only the new credential, or one installed since, is the holder's. -/
theorem TakesOver.not_holder {txns : List Txn} {t : Txn} {k : String}
    (h : TakesOver k (run txns) t) {body : Registration} (hreq : t.request = .register body)
    {old : String} (hold : old ≠ body.sessionToken) {more : List Txn}
    (hno : ∀ pre u post, more = pre ++ u :: post →
      ¬ Installs k old (run (txns ++ t :: pre)) u) : ¬ Holder (txns ++ t :: more) k old := by
  have hfirst : ¬ Holder (txns ++ [t]) k old := by
    rw [holder_snoc]
    rintro (hins | ⟨-, hins⟩)
    · exact hold (hins.unique (h.installs hreq))
    · exact hins _ (h.installs hreq)
  have hmore : ¬ Holder (txns ++ [t] ++ more) k old :=
    not_holder_append hfirst fun pre u post heq => by simpa using hno pre u post heq
  simpa using hmore

/-! ## Assignments of an old session -/

/-- The worker, the token and the credential of a request on an assignment. -/
def Request.assignment : Request → Option (String × Uuid × Option String)
  | .start _ body credential => some (body.workerId, body.token, credential)
  | .renew _ body credential => some (body.workerId, body.token, credential)
  | .finish _ body credential => some (body.workerId, body.token, credential)
  | _ => none

/-- The transaction answers a claim of the worker, made under the credential, with the
attempt `token`. -/
def Txn.HandsOut (t : Txn) (db : Database) (workerId credential : String) (token : Uuid) : Prop :=
  ∃ body c job a, t.request = .claim body c ∧ body.workerId = workerId ∧ c.getD "" = credential ∧
    t.answer db = .ok (.assignment (some (job, a))) ∧ a.id = token

/-- Every process of the worker, known by its credential, presents only tokens that were
returned to it, and claims under ids that no other process has used. -/
def Disciplined (workerId : String) (txns : List Txn) : Prop :=
  ∀ pre u post, txns = pre ++ u :: post →
    (∀ token c, u.request.assignment = some (workerId, token, c) →
      ∃ pre' v post', pre = pre' ++ v :: post' ∧
        v.HandsOut (run pre') workerId (c.getD "") token) ∧
    ∀ body c, u.request = .claim body c → body.workerId = workerId →
      ∀ v ∈ pre, ∀ body' c', v.request = .claim body' c' → body'.workerId = workerId →
        body'.claimId = body.claimId → c'.getD "" = c.getD ""

/-- What a request does to an attempt: nothing, unless it presents the token, or recovery
expires it. -/
theorem allowed_attempt {config : Settings} {request : Request} {c : Change} {db : Database}
    (hc : Allowed config request c) (hg : c.guard db) {k : Uuid} {x : Attempt}
    (hx : db.attempts.find? k = some x) :
    (c.effect db).attempts.find? k = some x ∨
      (x.finishedAt = none ∧ ∃ credential,
        request.assignment = some (x.workerId, k, credential)) ∨
      (x.finishedAt = none ∧ ∃ limit τ, request = .recoverJobs limit ∧
        (c.effect db).attempts.find? k = some (x.close .leaseExpired leaseExpiredError τ)) := by
  have hid : x.id = k := Table.key_of_find? hx
  -- a change of another attempt leaves this one alone
  have hother : ∀ {job a} (b : Attempt) {P : Prop}, Holds db job a → b.id = a.id →
      (a = x → x.finishedAt = none → (db.attempts.put b).find? k = some b → P) →
      (db.attempts.put b).find? k = some x ∨ P := by
    intro job a b P hold hba hP
    by_cases hak : a.id = k
    · subst hak
      have hax : a = x := Option.some.inj (hold.attempt_row.symm.trans hx)
      exact Or.inr (hP hax (hax ▸ hold.is_open) (hold.find?_put hba rfl))
    · exact Or.inl ((Table.find?_put_ne _ (by rw [← hba] at hak; exact hak)).trans hx)
  cases c with
  | lease w job a t s =>
      refine Or.inl ((Table.find?_add_ne _ ?_).trans hx)
      rintro rfl
      have := hg.fresh
      simp_all
  | start job a t s =>
      refine hother { a with startedAt := some t } hg.1 rfl ?_
      rintro rfl hopen -
      cases request <;> simp only [Allowed] at hc
      exact Or.inl ⟨hopen, _, by rw [Request.assignment, ← hc.2.1, hc.2.2, hid]⟩
  | renew job a t =>
      refine hother { a with expiresAt := t } hg.1 rfl ?_
      rintro rfl hopen -
      cases request <;> simp only [Allowed] at hc
      exact Or.inl ⟨hopen, _, by rw [Request.assignment, ← hc.2.1, hc.2.2, hid]⟩
  | succeed job a o t s =>
      refine hother (a.deliver o t) hg.1 rfl ?_
      rintro rfl hopen -
      cases request <;> simp only [Allowed] at hc
      exact Or.inl ⟨hopen, _, by rw [Request.assignment, ← hc.1.2.1, hc.1.2.2, hid]⟩
  | retry job a o e t t' s =>
      refine hother (a.close o e t) hg.1 rfl ?_
      rintro rfl hopen hfind
      cases request <;> simp only [Allowed] at hc
      · exact Or.inl ⟨hopen, _, by rw [Request.assignment, ← hc.1.2.1, hc.1.2.2, hid]⟩
      · obtain ⟨rfl, rfl⟩ := hc
        exact Or.inr ⟨hopen, _, t, rfl, hfind⟩
  | fail job a o e r t s =>
      refine hother (a.close o e t) hg.1 rfl ?_
      rintro rfl hopen hfind
      cases request <;> simp only [Allowed] at hc
      · exact Or.inl ⟨hopen, _, by rw [Request.assignment, ← hc.1.2.1, hc.1.2.2, hid]⟩
      · obtain ⟨rfl, rfl, -⟩ := hc
        exact Or.inr ⟨hopen, _, t, rfl, hfind⟩
  | admitted | cancel | enroll | seen | drain | takeover | mark | log => exact Or.inl hx

/-- Every attempt was made by a claim of the session that held its worker. -/
theorem run_origin (hinj : Function.Injective (Sha256.hexdigest : String → String))
    (txns : List Txn) {a : Attempt} (ha : a ∈ (run txns).attempts.rows) :
    ∃ pre u post body c, txns = pre ++ u :: post ∧ u.request = .claim body c ∧
      body.workerId = a.workerId ∧ body.claimId = a.claimId ∧
      Holder pre a.workerId (c.getD "") := by
  induction txns using List.reverseRecOn generalizing a with
  | nil => simp [run] at ha
  | append_singleton txns t ih =>
      rw [run_snoc] at ha
      have hold : ∀ {y : Attempt}, y ∈ (run txns).attempts.rows → y.workerId = a.workerId →
          y.claimId = a.claimId → ∃ pre u post body c, txns ++ [t] = pre ++ u :: post ∧
            u.request = .claim body c ∧ body.workerId = a.workerId ∧ body.claimId = a.claimId ∧
            Holder pre a.workerId (c.getD "") := by
        intro y hy hyw hyc
        obtain ⟨pre, u, post, body, c, rfl, hreq, hw, hc, hholder⟩ := ih hy
        exact ⟨pre, u, post ++ [t], body, c, by simp, hreq, hw.trans hyw, hc.trans hyc,
          hyw ▸ hholder⟩
      cases hans : t.answer (run txns) with
      | error e =>
          rw [commit_error hans] at ha
          exact hold ha rfl rfl
      | ok response =>
          obtain ⟨hauth, -⟩ := commit_answers (run_inv txns) hans
          -- an attempt of the new database is an old one, or the claim's own
          have hnew := (commit_makes (run_inv txns) t).invariant (I := fun d =>
            ∀ x ∈ d.attempts.rows, (∃ y ∈ (run txns).attempts.rows, y.workerId = x.workerId ∧
              y.claimId = x.claimId) ∨ ∃ body c, t.request = .claim body c ∧
                body.workerId = x.workerId ∧ body.claimId = x.claimId) ?_
            (fun x hx => Or.inl ⟨x, hx, rfl, rfl⟩) a ha
          · rcases hnew with ⟨y, hy, hyw, hyc⟩ | ⟨body, c, hreq, hw, hc⟩
            · exact hold hy hyw hyc
            · rw [hreq] at hauth
              exact ⟨txns, t, [], body, c, rfl, hreq, hw, hc, hw ▸ holder_of_accepts hinj hauth⟩
          · intro c hc d hg hd x hx
            rcases effect_attempts hg with ⟨w, job, b, τ, s, rfl⟩ | ⟨job, b, b', hb, hl, heq⟩ | heq
            · rcases (Table.mem_add hg.fresh).mp hx with hx | rfl
              · exact hd x hx
              · cases hreq : t.request with
                | claim body credential =>
                    rw [hreq] at hc
                    exact Or.inr ⟨body, credential, rfl, hc.1.symm.trans hg.attempt_worker.symm,
                      hc.2.2.symm⟩
                | _ => simp [hreq, Allowed] at hc
            · rw [heq] at hx
              rcases Table.mem_put.mp hx with ⟨hx, -⟩ | ⟨rfl, -⟩
              · exact hd x hx
              · have := hd b (Table.mem_of_find? hb.attempt_row)
                rw [hl.1]
                exact this
            · rw [heq] at hx
              exact hd x hx

/-- What happens to an attempt whose session was cut off: nothing, until recovery expires
it. -/
theorem commit_cut {db : Database} (hinv : Inv db) {a : Attempt} {u : Txn}
    (hrefused : ∀ c, u.request.assignment = some (a.workerId, a.id, c) →
      ∃ e, u.answer db = .error e) {x : Attempt} (hx : db.attempts.find? a.id = some x)
    (hxw : x.workerId = a.workerId) :
    (commit db u).attempts.find? a.id = some x ∨
      (x.finishedAt = none ∧ ∃ limit τ, u.request = .recoverJobs limit ∧
        (commit db u).attempts.find? a.id = some (x.close .leaseExpired leaseExpiredError τ)) := by
  by_cases hpres : ∃ c, u.request.assignment = some (a.workerId, a.id, c)
  · obtain ⟨c, hc⟩ := hpres
    obtain ⟨e, he⟩ := hrefused c hc
    rw [commit_error he]
    exact Or.inl hx
  · refine (commit_makes hinv u).invariant (I := fun d => d.attempts.find? a.id = some x ∨
      (x.finishedAt = none ∧ ∃ limit τ, u.request = .recoverJobs limit ∧
        d.attempts.find? a.id = some (x.close .leaseExpired leaseExpiredError τ))) ?_ (Or.inl hx)
    rintro c hc d hg (hd | ⟨hopen, limit, τ, hreq, hd⟩)
    · rcases allowed_attempt hc hg hd with h | ⟨-, cred, h⟩ | ⟨hopen, limit, τ, hreq, h⟩
      · exact Or.inl h
      · exact absurd ⟨cred, hxw ▸ h⟩ hpres
      · exact Or.inr ⟨hopen, limit, τ, hreq, h⟩
    · rcases allowed_attempt hc hg hd with h | ⟨h, -⟩ | ⟨h, -⟩
      · exact Or.inr ⟨hopen, limit, τ, hreq, h⟩
      · simp [Attempt.close] at h
      · simp [Attempt.close] at h

section Cut

variable (hinj : Function.Injective (Sha256.hexdigest : String → String))
  {txns more : List Txn} {t : Txn} {k : String} {a : Attempt}
  (hdis : Disciplined k (txns ++ t :: more))
  (hcut : ∀ pre post token, txns = pre ++ post → Holder pre k token →
    ∀ pre' u post', more = pre' ++ u :: post' → ¬ Holder (txns ++ t :: pre') k token)
  (ha : a ∈ (run txns).attempts.rows) (hak : a.workerId = k)
  {pre post : List Txn} {u : Txn} (hmore : more = pre ++ u :: post)

include hinj hdis hcut ha hak hmore

/-- Once the sessions that made the attempts of a worker no longer hold it, an attempt of
theirs is handed out to nobody. -/
theorem not_handed_out (workerId credential : String) :
    ¬ u.HandsOut (run (txns ++ t :: pre)) workerId credential a.id := by
  rintro ⟨body, c, job, b, hreq, -, -, hans, hba⟩
  obtain ⟨hauth, hanswer⟩ := commit_answers (run_inv (txns ++ t :: pre)) hans
  rw [hreq] at hauth hanswer
  obtain ⟨hb, hbc, hbw, -⟩ := hanswer
  -- the answer is the attempt itself, so the claim repeats the one that made it
  have hlater := run_later txns (t :: pre ++ [u])
  rw [List.cons_append, ← List.cons_append, ← List.append_assoc, run_snoc] at hlater
  obtain ⟨a', ha', hl⟩ := hlater.attempts a.id a (Table.find?_of_mem ha)
  rw [← hba, hb, Option.some.injEq] at ha'
  have hclaim : body.claimId = a.claimId := by rw [← hbc, ha', hl.1]
  have hworker : body.workerId = k := by rw [← hbw, ha', hl.1]; exact hak
  obtain ⟨pre₀, v, post₀, body₀, c₀, htxns, hreq₀, hw₀, hc₀, hholder⟩ := run_origin hinj txns ha
  rw [hak] at hw₀ hholder
  have hsame : c₀.getD "" = c.getD "" := by
    refine (hdis (txns ++ t :: pre) u post (by simp [hmore])).2 body c hreq hworker v ?_ body₀ c₀
      hreq₀ hw₀ (hc₀.trans hclaim.symm)
    rw [htxns]
    simp
  refine hcut pre₀ (v :: post₀) _ htxns hholder pre u post hmore ?_
  rw [hsame]
  exact holder_of_accepts hinj (hworker ▸ hauth)

/-- ... and its token is accepted from nobody. -/
theorem not_presented {reg : Registration} (hreg : t.request = .register reg) {c : Option String}
    (hreq : u.request.assignment = some (k, a.id, c)) :
    u.answer (run (txns ++ t :: pre)) = .error (.unauthorized "Invalid worker session") := by
  have hsession : u.request.session = some (k, c) := by
    cases hu : u.request <;> simp_all [Request.assignment, Request.session]
  obtain ⟨pre', v, post', hpre, hhands⟩ :=
    (hdis (txns ++ t :: pre) u post (by simp [hmore])).1 a.id c hreq
  -- the process was given the token before the takeover
  have hbefore : ∃ post'', txns = pre' ++ v :: post'' := by
    have htaker : v ≠ t := by
      rintro rfl
      obtain ⟨body, c', -, -, hclaim, -⟩ := hhands
      simp [hreg] at hclaim
    rcases List.append_eq_append_iff.mp hpre with ⟨l, rfl, hl⟩ | ⟨l, rfl, hl⟩
    · -- handed out since the takeover: excluded
      rcases List.cons_eq_append_iff.mp hl with ⟨-, hl⟩ | ⟨l', rfl, hl'⟩
      · cases hl
        exact absurd rfl htaker
      · have hin : more = l' ++ v :: (post' ++ u :: post) := by simp [hmore, hl']
        exact absurd hhands (not_handed_out hinj hdis hcut ha hak hin k (c.getD ""))
    · rcases List.cons_eq_append_iff.mp hl with ⟨-, hl⟩ | ⟨l', rfl, -⟩
      · cases hl
        exact absurd rfl htaker
      · exact ⟨l', rfl⟩
  obtain ⟨post'', htxns⟩ := hbefore
  obtain ⟨body, c', job, b, hclaim, hworker, hcred, hans, -⟩ := hhands
  obtain ⟨hauth, -⟩ := commit_answers (run_inv pre') hans
  rw [hclaim] at hauth
  have hholder := holder_of_accepts hinj hauth
  rw [hworker, hcred] at hholder
  exact rejected hinj hsession (hcut pre' (v :: post'') _ htxns hholder pre u post hmore)

/-- So a transaction changes it only by expiring it in recovery. -/
theorem cut_step {reg : Registration} (hreg : t.request = .register reg) {x : Attempt}
    (hx : (run (txns ++ t :: pre)).attempts.find? a.id = some x) (hxw : x.workerId = a.workerId) :
    (run (txns ++ t :: pre ++ [u])).attempts.find? a.id = some x ∨
      (x.finishedAt = none ∧ ∃ limit τ, u.request = .recoverJobs limit ∧
        (run (txns ++ t :: pre ++ [u])).attempts.find? a.id =
          some (x.close .leaseExpired leaseExpiredError τ)) := by
  rw [run_snoc]
  refine commit_cut (run_inv _) (fun c hc => ?_) hx hxw
  rw [hak] at hc
  exact ⟨_, not_presented hinj hdis hcut ha hak hmore hreg hc⟩

omit hmore in
/-- At every later time it is as it was, or expired. -/
theorem cut_row {reg : Registration} (hreg : t.request = .register reg) :
    ∀ pre post, more = pre ++ post →
      (run (txns ++ t :: pre)).attempts.find? a.id = some a ∨
        ∃ τ, (run (txns ++ t :: pre)).attempts.find? a.id =
          some (a.close .leaseExpired leaseExpiredError τ) := by
  intro pre
  induction pre using List.reverseRecOn with
  | nil =>
      intro _ _
      rw [run_snoc]
      have := commit_cut (a := a) (u := t) (run_inv txns)
        (fun c hc => by simp [hreg, Request.assignment] at hc) (Table.find?_of_mem ha) rfl
      refine this.imp_right ?_
      rintro ⟨-, limit, τ, hrec, -⟩
      simp [hreg] at hrec
  | append_singleton pre u ih =>
      intro post hmore
      have hmore : more = pre ++ u :: post := by simpa using hmore
      rw [← List.cons_append, ← List.append_assoc]
      rcases ih (u :: post) hmore with h | ⟨τ, h⟩
      · have := cut_step hinj hdis hcut ha hak hmore hreg h rfl
        exact this.imp_right fun ⟨_, _, τ, _, h⟩ => ⟨τ, h⟩
      · rcases cut_step hinj hdis hcut ha hak hmore hreg h rfl with h | ⟨hfin, -⟩
        · exact Or.inr ⟨τ, h⟩
        · simp [Attempt.close] at hfin

end Cut

/-- The registration of a live worker changes nothing. -/
theorem commit_register_alive {db : Database} {u : Txn} {body : Registration}
    (hreq : u.request = .register body) {w : Worker}
    (hw : db.workers.find? body.workerId = some w) (halive : w.state ≠ .dead) :
    commit db u = db := by
  have hrow : ∀ v, db.workers.find? body.workerId = some v → v.state ≠ .dead := fun v hv => by
    rw [hw, Option.some.injEq] at hv
    exact hv ▸ halive
  have hsat : Sat (fun _ => True) (serve u.config (.register body)) db fun _ d => d = db := by
    refine (sat_bind _ _ _).mpr (sat_register ?_ ?_ ?_ ?_ ?_)
    · intros
      rfl
    · intro now e hg
      have : db.workers.find? body.workerId = none := hg.1
      rw [hw] at this
      cases this
    · intros
      rfl
    · intro v τ e hid hg _ hdead
      exact absurd hdead (hrow v (hid ▸ hg))
    · intro v τ e hid hg
      exact absurd hg.2.1 (hrow v (hid ▸ hg.1))
  have hexec := hsat.exec (f := u.feed) fun _ => trivial
  rw [← hreq] at hexec
  rw [commit]
  split
  · exact hexec
  · rfl

/-- The accepted credential of a known worker. -/
theorem accepted_iff (hinj : Function.Injective (Sha256.hexdigest : String → String))
    (hhex : ∀ s : String, Sha256.hexdigest s ≠ "") {txns : List Txn} {k token : String}
    (hholder : Holder txns k token) {t : Txn} {c : Option String}
    (h : t.request.session = some (k, c)) :
    t.answer (run txns) ≠ .error (.unauthorized "Invalid worker session") ↔
      c.getD "" = token := by
  rcases run_session txns k with ⟨-, hno⟩ | ⟨w, token', hw, -, hhash, huniq⟩
  · exact absurd hholder (hno token)
  · rw [huniq token hholder, Ne, unauthorized_iff h, ← sessionOk_iff hinj hhex]
    simp [hw, hhash]

/-- **Session exclusivity and takeover.** A worker that is not dead keeps its session.  Of
all credentials exactly one is accepted for a known worker: the token of the latest
registration that inserted it or took it over.  After a takeover, a request with another
credential changes nothing until that credential itself takes the dead worker over: it is
rejected, and so is its registration while the worker is alive.  If the processes of the
worker present only tokens that were returned to them and claim under ids of their own,
and no session from before the takeover is installed again, then an attempt that was open
at the takeover is handed out to nobody and changes only by expiring in recovery. -/
theorem session_exclusivity (hinj : Function.Injective (Sha256.hexdigest : String → String))
    (hhex : ∀ s : String, Sha256.hexdigest s ≠ "") (txns : List Txn) (workerId : String) :
    (∀ w, (run txns).workers.find? workerId = some w → w.state ≠ .dead → ∀ t : Txn,
      ∃ v, (commit (run txns) t).workers.find? workerId = some v ∧
        v.sessionHash = w.sessionHash) ∧
    ((run txns).workers.find? workerId ≠ none → ∃ token, Holder txns workerId token ∧
      (∀ token', Holder txns workerId token' → token' = token) ∧
      ∀ (t : Txn) (credential : Option String),
        t.request.session = some (workerId, credential) →
        (t.answer (run txns) ≠ .error (.unauthorized "Invalid worker session") ↔
          credential.getD "" = token)) ∧
    ∀ (t : Txn) (body : Registration), t.request = .register body →
      TakesOver workerId (run txns) t → ∀ more : List Txn,
      (∀ old, old ≠ body.sessionToken →
        (∀ pre u post, more = pre ++ u :: post →
          ¬ Installs workerId old (run (txns ++ t :: pre)) u) →
        ∀ u : Txn,
          (∀ credential, u.request.session = some (workerId, credential) →
            credential.getD "" = old →
            u.answer (run (txns ++ t :: more)) =
                .error (.unauthorized "Invalid worker session") ∧
              commit (run (txns ++ t :: more)) u = run (txns ++ t :: more)) ∧
          ∀ body', u.request = .register body' → body'.workerId = workerId →
            body'.sessionToken = old →
            (∀ w, (run (txns ++ t :: more)).workers.find? workerId = some w →
              w.state ≠ .dead) →
            commit (run (txns ++ t :: more)) u = run (txns ++ t :: more)) ∧
      (Disciplined workerId (txns ++ t :: more) →
        (∀ before after old, txns = before ++ after → Holder before workerId old →
          old ≠ body.sessionToken ∧ ∀ pre u post, more = pre ++ u :: post →
            ¬ Installs workerId old (run (txns ++ t :: pre)) u) →
        ∀ a ∈ (run txns).attempts.rows, a.workerId = workerId → a.finishedAt = none →
          ((run (txns ++ t :: more)).attempts.find? a.id = some a ∨
            ∃ τ, (run (txns ++ t :: more)).attempts.find? a.id =
              some (a.close .leaseExpired leaseExpiredError τ)) ∧
          ∀ pre u post, more = pre ++ u :: post →
            (∀ worker credential,
              ¬ u.HandsOut (run (txns ++ t :: pre)) worker credential a.id) ∧
            ((run (txns ++ t :: pre ++ [u])).attempts.find? a.id =
                (run (txns ++ t :: pre)).attempts.find? a.id ∨
              ∃ limit τ, u.request = .recoverJobs limit ∧
                (run (txns ++ t :: pre)).attempts.find? a.id = some a ∧
                (run (txns ++ t :: pre ++ [u])).attempts.find? a.id =
                  some (a.close .leaseExpired leaseExpiredError τ))) := by
  refine ⟨fun w hw halive t => ?_, fun hknown => ?_, fun t body hreq htake more => ⟨?_, ?_⟩⟩
  · refine commit_session (run_inv txns) hw ?_
    rintro ⟨-, w', -, -, hw', hdead, -⟩
    rw [hw, Option.some.injEq] at hw'
    exact halive (hw' ▸ hdead)
  · rcases run_session txns workerId with ⟨hnone, -⟩ | ⟨w, token, -, hholder, -, huniq⟩
    · exact absurd hnone hknown
    · exact ⟨token, hholder, huniq, fun t c h => accepted_iff hinj hhex hholder h⟩
  · intro old hold hno u
    have hnot := htake.not_holder hreq hold hno
    refine ⟨?_, ?_⟩
    · rintro c hc rfl
      have hans := rejected hinj hc hnot
      exact ⟨hans, commit_error hans⟩
    · rintro body' hreq' rfl - halive
      -- the worker is still there
      obtain ⟨w, hw, -⟩ := commit_installs (htake.installs hreq)
      rw [← run_snoc] at hw
      obtain ⟨v, hv, -⟩ := (run_later (txns ++ [t]) more).workers _ w hw
      have hv : (run (txns ++ t :: more)).workers.find? body'.workerId = some v := by
        simpa using hv
      exact commit_register_alive hreq' hv (halive v hv)
  · intro hdis hcut a ha hak hopen
    have hcut' : ∀ before after old, txns = before ++ after → Holder before workerId old →
        ∀ pre u post, more = pre ++ u :: post → ¬ Holder (txns ++ t :: pre) workerId old := by
      intro before after old htxns hholder pre u post hmore
      obtain ⟨hne, hno⟩ := hcut before after old htxns hholder
      refine htake.not_holder hreq hne fun pre' v post' hpre => ?_
      exact hno pre' v (post' ++ u :: post) (by simp [hmore, hpre])
    have hrow := cut_row hinj hdis hcut' ha hak hreq
    refine ⟨hrow more [] (by simp), fun pre u post hmore => ⟨?_, ?_⟩⟩
    · exact not_handed_out hinj hdis hcut' ha hak hmore
    · rcases hrow pre (u :: post) hmore with h | ⟨τ, h⟩
      · rcases cut_step hinj hdis hcut' ha hak hmore hreq h rfl with h' | ⟨-, limit, τ, hrec, h'⟩
        · exact Or.inl (h'.trans h.symm)
        · exact Or.inr ⟨limit, τ, hrec, h, h'⟩
      · rcases cut_step hinj hdis hcut' ha hak hmore hreq h rfl with h' | ⟨hfin, -⟩
        · exact Or.inl (h'.trans h.symm)
        · simp [Attempt.close] at hfin

/-- Two session tokens and their digests. -/
def sessionDigests : List (String × String) := [
  ("first-process-session-token-00001",
    "ca391801c76b2c14f5ee6d3a7bfaea9c898127ab89e90b7855fdda96116ca749"),
  ("second-process-session-token-0002",
    "4354f971a202ff41334cf61276c3aa706f7cba8198b7bcda9d7a4d73cf2e2cc4")]

/-- A worker registers, falls silent, and is marked dead. -/
def silentWorker : List Txn := [
  { request := .register .first, feed := .still 10 },
  { request := .detectWorkers, feed := .still 30 }]

/-- Another process takes it over. -/
def secondProcess : Txn where
  request := .register .second
  feed := .still 31

/-- The first process sends a heartbeat. -/
def lateHeartbeat : Txn where
  request := .heartbeat "w1" (some "first-process-session-token-00001")
  feed := .still 32

omit [Sha256] in
/-- The heartbeat of the first process is rejected after the takeover. -/
theorem session_exclusivity_heartbeat :
    letI := Sha256.tabulated sessionDigests
    lateHeartbeat.answer (run (silentWorker ++ [secondProcess])) =
      .error (.unauthorized "Invalid worker session") := by
  let := Sha256.tabulated sessionDigests
  have hdead : ((run silentWorker).workers.find? "w1").map (fun w => (w.state, w.sessionHash)) =
      some (.dead, some "ca391801c76b2c14f5ee6d3a7bfaea9c898127ab89e90b7855fdda96116ca749") := by
    decide +kernel
  obtain ⟨w, hw, hrow⟩ := Option.map_eq_some_iff.mp hdead
  rw [Prod.mk.injEq] at hrow
  have htake : TakesOver "w1" (run silentWorker) secondProcess :=
    ⟨_, w, rfl, rfl, hw, hrow.1, by rw [hrow.2]; decide +kernel⟩
  have hinj := Sha256.tabulated_injective sessionDigests (by decide) (by decide)
  have hhex := Sha256.tabulated_ne_empty sessionDigests (by decide)
  have h := ((session_exclusivity hinj hhex silentWorker "w1").2.2 secondProcess _ rfl htake []).1
    "first-process-session-token-00001" (by decide) (by simp)
  exact ((h lateHeartbeat).1 _ rfl rfl).1

end GreyQueue
