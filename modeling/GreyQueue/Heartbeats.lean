import GreyQueue.Detection
import GreyQueue.Takeover

/-!
# Heartbeats and suspicion

What the failure detector promises over whole runs.  It blames only silence: behind every
suspected or dead worker there is a tick that found its last contact too long ago, and no
contact since.  And it never blames a worker whose heartbeats arrive in time, so that its
session stays with it.

## Main definitions

* `Txn.beats` — an accepted heartbeat of a worker.
* `Silence` — a tick that has found a worker silent.
* `Punctual` — every tick of a run comes in time after the latest heartbeat.

## Main results

* `commit_blamed`, `commit_trusted` — what one transaction does to the row of a worker.
* `blame_has_cause` — suspicion is sound in every reachable state.
* `punctual_never_blamed` — a punctual worker keeps its session.
-/

namespace GreyQueue

open Lib

/-- The detector has given the worker up, or is about to. -/
def WorkerState.blamed : WorkerState → Bool
  | .suspect | .dead => true
  | .healthy | .draining => false

theorem returning_not_blamed (w : Worker) : w.returning.blamed = false := by
  rw [Worker.returning]
  split <;> rfl

variable [Sha256] {db : Database} {u : Txn} {k : String}

/-- The transaction is a heartbeat of the worker, and it is accepted. -/
def Txn.beats (u : Txn) (k : String) (db : Database) : Bool :=
  match u.request with
  | .heartbeat workerId _ => decide (workerId = k) && (u.answer db).isOk
  | _ => false

/-- The clock reading of a heartbeat. -/
def beatTime (feed : ℕ → Moment) : Time := (feed 1).time

/-- An accepted heartbeat writes the time that it reads. -/
theorem exec_heartbeat {c : Option String} {w : Worker} (hw : db.workers.find? k = some w)
    (hok : sessionOk w.sessionHash c = true) (feed : ℕ → Moment) :
    ((heartbeat k c).exec feed db).result = .ok w.returning ∧
      ((heartbeat k c).exec feed db).state.workers =
        db.workers.put { w with lastSeen := beatTime feed, state := w.returning } := by
  rw [heartbeat, exec_identity hw, if_pos hok]
  rw [databaseTime, Prog.issue_bind, Prog.exec_stmt_ok (b := (feed 1).time) (t := db) rfl]
  by_cases hs : w.state = .suspect ∨ w.state = .dead
  · rw [if_pos hs]
    exact ⟨rfl, rfl⟩
  · rw [if_neg hs]
    exact ⟨rfl, rfl⟩

/-- The row of a worker after a heartbeat. -/
theorem commit_beats (h : u.beats k db = true) : ∃ w, db.workers.find? k = some w ∧
    (commit db u).workers.find? k =
      some { w with lastSeen := beatTime u.feed, state := w.returning } := by
  unfold Txn.beats at h
  split at h
  swap
  · cases h
  rename_i id c hreq
  obtain ⟨hid, hans⟩ : id = k ∧ (u.answer db).isOk = true := by simpa using h
  subst hid
  have hserve : (u.outcome db) = (serve u.config (.heartbeat id c)).exec u.feed db := by
    rw [Txn.outcome, hreq]
  rw [serve, Prog.exec_bind] at hserve
  cases hw : db.workers.find? id with
  | none =>
      rw [heartbeat, exec_identity_none hw] at hserve
      rw [Txn.answer, hserve] at hans
      cases hans
  | some w =>
      cases hok : sessionOk w.sessionHash c with
      | false =>
          rw [heartbeat, exec_identity hw, hok] at hserve
          rw [Txn.answer, hserve] at hans
          cases hans
      | true =>
          obtain ⟨hres, hstate⟩ := exec_heartbeat hw hok u.feed
          rw [hres] at hserve
          have hanswer : u.answer db = .ok (.state w.returning) := by
            rw [Txn.answer, hserve]
            rfl
          have hid : w.id = id := Table.key_of_find? hw
          have hrow : db.workers.find? ({ w with
              lastSeen := beatTime u.feed, state := w.returning } : Worker).id = some w := by
            change db.workers.find? w.id = some w
            rw [hid]
            exact hw
          have hput := Table.find?_put_self hrow
          refine ⟨w, rfl, ?_⟩
          rw [commit, hanswer, hserve]
          change ((heartbeat id c).exec u.feed db).state.workers.find? id = _
          rw [hstate, ← hid]
          exact hput

/-- A heartbeat that is not accepted changes nothing. -/
theorem commit_unbeaten {c : Option String} (hreq : u.request = .heartbeat k c)
    (h : u.beats k db = false) : commit db u = db := by
  have hans : (u.answer db).isOk = false := by
    unfold Txn.beats at h
    simpa [hreq] using h
  cases hr : u.answer db with
  | ok response => rw [hr] at hans; cases hans
  | error e => exact commit_error hr

/-! ## Blame -/

/-- Only a tick blames a worker: what else leaves it blamed leaves its row alone. -/
theorem commit_blamed (hinv : Inv db) (hu : u.request.detects = false) {w : Worker}
    (hw : (commit db u).workers.find? k = some w) (hb : w.state.blamed = true) :
    db.workers.find? k = some w ∧ u.beats k db = false := by
  constructor
  · refine (commit_invariant hinv (I := fun d => ∀ w, d.workers.find? k = some w →
      w.state.blamed = true → db.workers.find? k = some w) ?_ fun w hw _ => hw).2 w hw hb
    rintro c d ⟨hallowed, -⟩ - hg hd w hw hb
    cases c with
    | enroll v =>
        rcases Table.find?_add_eq_some hg.1 hw with ⟨-, rfl⟩ | hw
        · rw [hg.2.1] at hb
          cases hb
        · exact hd w hw hb
    | seen v t =>
        rcases Table.find?_put_eq_some hw with ⟨-, rfl⟩ | ⟨-, hw⟩
        · rw [returning_not_blamed] at hb
          cases hb
        · exact hd w hw hb
    | drain v =>
        rcases Table.find?_put_eq_some hw with ⟨-, rfl⟩ | ⟨-, hw⟩
        · cases hb
        · exact hd w hw hb
    | takeover v body hash t =>
        rcases Table.find?_put_eq_some hw with ⟨-, rfl⟩ | ⟨-, hw⟩
        · cases hb
        · exact hd w hw hb
    | mark v state => cases hreq : u.request <;> simp_all [Allowed, Request.detects]
    | _ => exact hd w hw hb
  · cases hbeat : u.beats k db with
    | false => rfl
    | true =>
        obtain ⟨v, -, hv⟩ := commit_beats hbeat
        obtain rfl := Option.some.inj (hv.symm.trans hw)
        rw [returning_not_blamed] at hb
        cases hb

/-- A tick that has found the worker silent: longer than `dead_after` if it is dead, else
longer than `suspect_after`. -/
def Silence (w : Worker) (u : Txn) : Prop :=
  u.request = .detectWorkers ∧ Looks w.id u.feed ∧
    if w.state = .dead then u.config.deadAfter ≤ tickTime u.feed - w.lastSeen
    else u.config.suspectAfter < tickTime u.feed - w.lastSeen

omit [Sha256] in
/-- What a tick has blamed a worker for. -/
theorem detected_blamed {suspectAfter deadAfter : ℚ} {t : Time} {w : Worker}
    (hne : (w.detected suspectAfter deadAfter t).state ≠ w.state) :
    if (w.detected suspectAfter deadAfter t).state = .dead then deadAfter ≤ t - w.lastSeen
    else suspectAfter < t - w.lastSeen := by
  by_cases hsilent : silent (t - suspectAfter) w = true
  swap
  · rw [Worker.detected, if_neg hsilent] at hne
    exact absurd rfl hne
  rw [Worker.detected, if_pos hsilent] at hne ⊢
  simp only [silent, Bool.and_eq_true, decide_eq_true_eq] at hsilent
  by_cases hdead : deadAfter ≤ t - w.lastSeen
  · rw [Worker.judged, if_pos hdead, if_pos rfl]
    exact hdead
  rw [Worker.judged, if_neg hdead] at hne ⊢
  by_cases hdraining : w.state = .draining
  · rw [if_pos hdraining] at hne
    exact absurd rfl hne
  · rw [if_neg hdraining, if_neg (by simp)]
    linarith [hsilent.2]

/-- **Suspicion is sound.**  In every reachable state, behind every suspected or dead worker
there is a tick that found its last contact longer ago than the limit of the state, and from
then on the worker has the row that the tick left and no heartbeat of it was accepted. -/
theorem blame_has_cause (txns : List Txn) {w : Worker}
    (hw : (run txns).workers.find? w.id = some w) (hb : w.state.blamed = true) :
    ∃ pre u post, txns = pre ++ u :: post ∧ Silence w u ∧
      ∀ mid rest, post = mid ++ rest → ∃ v, (run (pre ++ u :: mid)).workers.find? w.id = some v ∧
        v.state = w.state ∧ v.lastSeen = w.lastSeen ∧ v.sessionHash = w.sessionHash ∧
        ∀ t rest', rest = t :: rest' → t.beats w.id (run (pre ++ u :: mid)) = false := by
  induction txns using List.reverseRecOn generalizing w with
  | nil => simp [run] at hw
  | append_singleton txns t ih =>
      rw [run_snoc] at hw
      -- the cause of an earlier state is the cause of the next one with the same row
      have hlater : (run txns).workers.find? w.id = some w → t.beats w.id (run txns) = false →
          ∃ pre u post, txns ++ [t] = pre ++ u :: post ∧ Silence w u ∧
            ∀ mid rest, post = mid ++ rest →
              ∃ v, (run (pre ++ u :: mid)).workers.find? w.id = some v ∧
                v.state = w.state ∧ v.lastSeen = w.lastSeen ∧ v.sessionHash = w.sessionHash ∧
                ∀ t rest', rest = t :: rest' → t.beats w.id (run (pre ++ u :: mid)) = false := by
        intro hrow hbeat
        obtain ⟨pre, u, post, rfl, hsilence, hall⟩ := ih hrow hb
        refine ⟨pre, u, post ++ [t], by simp, hsilence, fun mid rest hsplit => ?_⟩
        rcases List.eq_nil_or_concat rest with rfl | ⟨rest, x, rfl⟩
        · rw [List.append_nil] at hsplit
          subst hsplit
          refine ⟨w, ?_, rfl, rfl, rfl, by simp⟩
          rw [← List.cons_append, ← List.append_assoc, run_snoc]
          exact hw
        · have hsplit : post ++ [t] = (mid ++ rest) ++ [x] := by simpa using hsplit
          obtain ⟨hpost, hx⟩ := List.append_inj' hsplit rfl
          obtain rfl : t = x := by simpa using hx
          obtain ⟨v, hv, hstate, hseen, hhash, hnext⟩ := hall mid rest hpost
          refine ⟨v, hv, hstate, hseen, hhash, fun y rest' hy => ?_⟩
          cases rest with
          | nil =>
              obtain ⟨rfl, -⟩ : t = y ∧ [] = rest' := by simpa using hy
              rw [List.append_nil] at hpost
              rw [hpost] at hbeat
              exact hbeat
          | cons z rest =>
              obtain ⟨rfl, -⟩ : z = y ∧ rest ++ [t] = rest' := by simpa using hy
              exact hnext z rest rfl
      by_cases hdetects : t.request.detects = true
      swap
      · obtain ⟨hrow, hbeat⟩ := commit_blamed (run_inv txns) (by simpa using hdetects) hw hb
        exact hlater hrow hbeat
      have hreq : t.request = .detectWorkers := by
        cases hr : t.request <;> simp [hr, Request.detects] at hdetects
        rfl
      have hbeat : t.beats w.id (run txns) = false := by rw [Txn.beats, hreq]
      rw [commit_detectWorkers hdetects] at hw
      obtain ⟨-, hlooks, hskips⟩ := exec_detectWorkers t.config.suspectAfter t.config.deadAfter
        t.feed (run txns) w.id
      by_cases hfeed : Looks w.id t.feed
      swap
      · exact hlater ((hskips (Or.inl hfeed)).row.symm.trans hw) hbeat
      cases hrow : (run txns).workers.find? w.id with
      | none =>
          rw [(hskips (Or.inr hrow)).row, hrow] at hw
          cases hw
      | some v =>
          have hafter := (hlooks hfeed v hrow).1
          have heq := Option.some.inj (hafter.symm.trans hw)
          obtain ⟨state, -, hspec⟩ := detected_spec t.config.suspectAfter t.config.deadAfter
            (tickTime t.feed) v
          by_cases hsame : w.state = v.state
          · have hwv : w = v := by
              rw [← heq, hspec] at hsame ⊢
              cases hsame
              rfl
            exact hlater (hwv ▸ hrow) hbeat
          · refine ⟨txns, t, [], rfl, ⟨hreq, hfeed, ?_⟩, fun mid rest hsplit => ?_⟩
            · have hseen : v.lastSeen = w.lastSeen := by rw [← heq, hspec]
              have hmoved : (v.detected t.config.suspectAfter t.config.deadAfter
                  (tickTime t.feed)).state ≠ v.state := by rw [heq]; exact hsame
              have hcause := detected_blamed hmoved
              rw [heq, hseen] at hcause
              exact hcause
            · obtain ⟨rfl, rfl⟩ : mid = [] ∧ rest = [] := by simpa using hsplit
              refine ⟨w, ?_, rfl, rfl, rfl, by simp⟩
              rw [run_snoc, commit_detectWorkers hdetects]
              exact hw

omit [Sha256] in
/-- The tick behind the death of a silent worker. -/
theorem blame_has_cause_silent :
    letI := Sha256.tabulated sessionDigests
    ∃ w, (run silentWorker).workers.find? "w1" = some w ∧ w.state = .dead ∧
      ∃ pre u post, silentWorker = pre ++ u :: post ∧ Silence w u := by
  let := Sha256.tabulated sessionDigests
  have hstate : ((run silentWorker).workers.find? "w1").map Worker.state = some .dead := by
    decide +kernel
  obtain ⟨w, hw, hdead⟩ := Option.map_eq_some_iff.mp hstate
  have hid : w.id = "w1" := Table.key_of_find? hw
  have hrow : (run silentWorker).workers.find? w.id = some w := by
    rw [hid]
    exact hw
  obtain ⟨pre, u, post, hsplit, hsilence, -⟩ := blame_has_cause silentWorker hrow (by
    rw [hdead]
    rfl)
  exact ⟨w, hw, hdead, pre, u, post, hsplit, hsilence⟩

/-! ## Trust -/

/-- The row of a worker that no tick finds silent: only a heartbeat moves its last contact, and
its session stays. -/
theorem commit_trusted (hinv : Inv db) {w : Worker} (hw : db.workers.find? k = some w)
    (hb : w.state.blamed = false)
    (hrecent : u.request.detects = true → tickTime u.feed - w.lastSeen ≤ u.config.suspectAfter) :
    ∃ v, (commit db u).workers.find? k = some v ∧ v.state.blamed = false ∧
      v.sessionHash = w.sessionHash ∧ v.capacity = w.capacity ∧
      v.capabilities = w.capabilities ∧
      v.lastSeen = if u.beats k db then beatTime u.feed else w.lastSeen := by
  have halive : w.state ≠ .dead := fun hdead => by rw [hdead] at hb; cases hb
  have hsame : u.beats k db = false → (commit db u).workers.find? k = some w →
      ∃ v, (commit db u).workers.find? k = some v ∧ v.state.blamed = false ∧
        v.sessionHash = w.sessionHash ∧ v.capacity = w.capacity ∧
        v.capabilities = w.capabilities ∧
        v.lastSeen = if u.beats k db then beatTime u.feed else w.lastSeen :=
    fun hbeat hrow => ⟨w, hrow, hb, rfl, rfl, rfl, by rw [hbeat]; rfl⟩
  by_cases hdetects : u.request.detects = true
  · have hbeat : u.beats k db = false := by
      cases hr : u.request <;> simp [hr, Request.detects, Txn.beats] at hdetects ⊢
    refine hsame hbeat ?_
    rw [commit_detectWorkers hdetects]
    obtain ⟨-, hlooks, hskips⟩ := exec_detectWorkers u.config.suspectAfter u.config.deadAfter
      u.feed db k
    by_cases hfeed : Looks k u.feed
    · rw [(hlooks hfeed w hw).1, detected_of_recent (hrecent hdetects)]
    · exact (hskips (Or.inl hfeed)).row.trans hw
  by_cases hreaches : u.request.Reaches k
  swap
  · have hbeat : u.beats k db = false := by
      cases hr : u.request <;> simp [hr, Request.Reaches, Txn.beats] at hreaches ⊢
      exact fun h => absurd h hreaches
    exact hsame hbeat ((commit_apart hinv (by simpa using hdetects) hreaches).row.trans hw)
  cases hreq : u.request with
  | register body =>
      rw [hreq] at hreaches
      change body.workerId = k at hreaches
      have hkept := commit_register_alive hreq (hreaches ▸ hw) halive
      exact hsame (by rw [Txn.beats, hreq]) (hkept.symm ▸ hw)
  | heartbeat workerId c =>
      rw [hreq] at hreaches
      change workerId = k at hreaches
      subst hreaches
      cases hbeat : u.beats workerId db with
      | false =>
          have hkept := commit_unbeaten hreq hbeat
          rw [hbeat] at hsame
          exact hsame rfl (hkept.symm ▸ hw)
      | true =>
          obtain ⟨v, hv, hrow⟩ := commit_beats hbeat
          obtain rfl := Option.some.inj (hv.symm.trans hw)
          exact ⟨_, hrow, returning_not_blamed v, rfl, rfl, rfl, rfl⟩
  | drain workerId =>
      rw [hreq] at hreaches
      change workerId = k at hreaches
      subst hreaches
      have hbeat : u.beats workerId db = false := by rw [Txn.beats, hreq]
      -- a drain rewrites the state and the intent
      have hkept := (commit_invariant hinv (t := u) (I := fun d => ∃ v,
        d.workers.find? workerId = some v ∧ v.state.blamed = false ∧
          v.sessionHash = w.sessionHash ∧ v.capacity = w.capacity ∧
          v.capabilities = w.capabilities ∧ v.lastSeen = w.lastSeen) ?_
        ⟨w, hw, hb, rfl, rfl, rfl, rfl⟩).2
      · rw [hbeat]
        exact hkept
      rintro c d ⟨hallowed, -⟩ - hg ⟨v, hv, hrest⟩
      rw [hreq] at hallowed
      cases c with
      | drain x =>
          obtain rfl : x.id = workerId := hallowed
          obtain rfl : x = v := Option.some.inj (hg.1.symm.trans hv)
          have hx : d.workers.find? ({ x with
              state := .draining, drainRequested := true } : Worker).id = some x := hg.1
          exact ⟨_, Table.find?_put_self hx, rfl, hrest.2⟩
      | log => exact ⟨v, hv, hrest⟩
      | _ => simp [Allowed] at hallowed
  | _ => rw [hreq] at hreaches; simp [Request.Reaches] at hreaches

/-- Every tick comes in time after the latest heartbeat of the worker; the first argument of
the recursion is when it was last seen. -/
def Punctual (k : String) : Time → Database → List Txn → Prop
  | _, _, [] => True
  | seen, db, u :: us =>
      (u.request.detects = true → tickTime u.feed - seen ≤ u.config.suspectAfter) ∧
        Punctual k (if u.beats k db then beatTime u.feed else seen) (commit db u) us

/-- **Punctual workers are safe.**  As long as every tick of every coordinator comes in time
after the latest heartbeat of a worker, the worker is neither suspected nor dead, it keeps its
session and what it has registered, and no registration of another process changes anything. -/
theorem punctual_never_blamed (txns more : List Txn) {w : Worker}
    (hw : (run txns).workers.find? k = some w) (hb : w.state.blamed = false)
    (hp : Punctual k w.lastSeen (run txns) more) :
    ∃ v, (run (txns ++ more)).workers.find? k = some v ∧ v.state.blamed = false ∧
      v.sessionHash = w.sessionHash ∧ v.capacity = w.capacity ∧
      v.capabilities = w.capabilities ∧
      ∀ (u : Txn) (body : Registration), u.request = .register body → body.workerId = k →
        commit (run (txns ++ more)) u = run (txns ++ more) := by
  induction more generalizing txns w with
  | nil =>
      rw [List.append_nil]
      refine ⟨w, hw, hb, rfl, rfl, rfl, fun u body hreq hid => ?_⟩
      refine commit_register_alive hreq (hid ▸ hw) fun hdead => ?_
      rw [hdead] at hb
      cases hb
  | cons u more ih =>
      obtain ⟨hrecent, hrest⟩ := hp
      obtain ⟨v, hv, hvb, hhash, hcap, hcaps, hseen⟩ := commit_trusted (run_inv txns) hw hb hrecent
      rw [← hseen] at hrest
      rw [← run_snoc] at hv hrest
      obtain ⟨v', hv', hvb', hhash', hcap', hcaps', hregister⟩ := ih (txns ++ [u]) hv hvb hrest
      rw [List.append_assoc, List.singleton_append] at hv' hregister
      exact ⟨v', hv', hvb', hhash'.trans hhash, hcap'.trans hcap, hcaps'.trans hcaps, hregister⟩

/-- A worker registers. -/
def newWorker : List Txn := [{ request := .register .first, feed := .still 10 }]

/-- Its heartbeats, and ticks of coordinators with the standard limits. -/
def beatsAndTicks : List Txn := [
  { request := .detectWorkers, feed := .still 15 },
  { request := .heartbeat "w1" (some "first-process-session-token-00001"), feed := .still 16 },
  { request := .detectWorkers, feed := .still 22 }]

omit [Sha256] in
theorem punctual_never_blamed_beats :
    letI := Sha256.tabulated sessionDigests
    ∃ w v, (run newWorker).workers.find? "w1" = some w ∧
      (run (newWorker ++ beatsAndTicks)).workers.find? "w1" = some v ∧
      v.state.blamed = false ∧ v.sessionHash = w.sessionHash := by
  let := Sha256.tabulated sessionDigests
  have hrow : ((run newWorker).workers.find? "w1").map (fun w => (w.state, w.lastSeen)) =
      some (.healthy, 10) := by decide +kernel
  obtain ⟨w, hw, hfields⟩ := Option.map_eq_some_iff.mp hrow
  obtain ⟨hstate, hseen⟩ := Prod.mk.inj hfields
  have hbeat : Txn.beats
      { request := .heartbeat "w1" (some "first-process-session-token-00001"), feed := .still 16 }
      "w1" (commit (run newWorker) { request := .detectWorkers, feed := .still 15 }) = true := by
    decide +kernel
  have hp : Punctual "w1" w.lastSeen (run newWorker) beatsAndTicks := by
    rw [hseen]
    refine ⟨fun _ => ?_, ⟨by simp [Request.detects], ⟨fun _ => ?_, trivial⟩⟩⟩
    · norm_num [tickTime, Moment.still, Settings.standard]
    · rw [hbeat]
      norm_num [tickTime, beatTime, Moment.still, Settings.standard]
  obtain ⟨v, hv, hb, hhash, -⟩ := punctual_never_blamed newWorker beatsAndTicks hw (by
    rw [hstate]
    rfl) hp
  exact ⟨w, v, hw, hv, hb, hhash⟩

end GreyQueue
