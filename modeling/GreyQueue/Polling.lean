import GreyQueue.Dashboard

/-!
# What the operations page shows

Invariants of the page over every order of clicks, ticks and replies: at most one refresh of a
connection is in flight, what is shown was answered to the token of the connection, and no
refresh that was asked for is lost.

## Main definitions

* `Flight` — what the page knows of the refreshes in flight.
* `Shows`, `Signs` — what is shown, and what the page says of it.
* `Polls`, `KeepsUp`, `Ahead` — the refreshes that come.

## Main results

* `shows_own_connection` — nothing is shown of another connection, and the panels never go back.
* `keeps_up` — every refresh that was asked for is shown, comes, or is said to have failed.
-/

namespace GreyQueue.Dashboard

open Lib

/-! ## One refresh at a time -/

/-- A refresh of the connection that the page has: it carries its token, and either it began
when a refresh was last asked for, or another one will follow. -/
structure Own (w : World) (r : Refresh) : Prop where
  token_eq : r.token = w.page.token
  token_ne : r.token ≠ ""
  since_le : w.since ≤ r.since
  le_now : r.since ≤ w.now
  asked : w.asked ≤ r.since ∨ w.page.again = true

/-- At most one refresh of each connection is in flight, and the page knows whether there is one
of its own. -/
structure Flight (w : World) : Prop where
  gen_le : ∀ r ∈ w.refreshes, r.generation ≤ w.page.generation
  busy_le : ∀ g, w.page.busyGen = some g → g ≤ w.page.generation
  one : ∀ g, w.refreshes.countP (fun r => decide (r.generation = g)) ≤ 1
  busy : w.page.busyGen = some w.page.generation ↔
    ∃ r ∈ w.refreshes, r.generation = w.page.generation
  since_le : w.since ≤ w.now
  asked_le : w.asked ≤ w.now
  own : ∀ r ∈ w.refreshes, r.generation = w.page.generation → Own w r

theorem perm_eraseIdx {α : Type} {l : List α} {i : ℕ} {a : α} (h : l[i]? = some a) :
    List.Perm (a :: l.eraseIdx i) l := by
  obtain ⟨hi, rfl⟩ := List.getElem?_eq_some_iff.mp h
  exact List.getElem_cons_eraseIdx_perm hi

namespace Flight

variable {w : World}

/-- A new generation has no refresh yet. -/
theorem advance (h : Flight w) {w' : World} (hrefreshes : w'.refreshes = w.refreshes)
    (hbusy : w'.page.busyGen = w.page.busyGen) (hgen : w'.page.generation = w.page.generation + 1)
    (hsince : w'.since ≤ w'.now) (hasked : w'.asked ≤ w'.now) : Flight w' := by
  have hold : ∀ r ∈ w'.refreshes, r.generation ≤ w.page.generation := fun r hr =>
    h.gen_le r (hrefreshes ▸ hr)
  refine ⟨fun r hr => ?_, fun g hg => ?_, hrefreshes ▸ h.one, ⟨fun hg => ?_, ?_⟩, hsince, hasked,
    fun r hr hg => ?_⟩
  · have := hold r hr
    omega
  · have := h.busy_le g (hbusy ▸ hg)
    omega
  · rw [hbusy] at hg
    have := h.busy_le _ hg
    omega
  · rintro ⟨r, hr, hg⟩
    have := hold r hr
    omega
  · have := hold r hr
    omega

theorem refresh (h : Flight w) (connecting : Bool) : Flight (w.refresh connecting) := by
  rw [World.refresh]
  by_cases htoken : w.page.token = ""
  · rw [if_pos htoken]
    exact h
  rw [if_neg htoken]
  by_cases hbusy : w.page.busyGen = some w.page.generation
  · rw [if_pos hbusy]
    refine ⟨h.gen_le, h.busy_le, h.one, h.busy, h.since_le, le_rfl, fun r hr hg => ?_⟩
    have hown := h.own r hr hg
    exact ⟨hown.token_eq, hown.token_ne, hown.since_le, hown.le_now, Or.inr rfl⟩
  · rw [if_neg hbusy]
    have hnone : ∀ r ∈ w.refreshes, r.generation ≠ w.page.generation := fun r hr hg =>
      hbusy (h.busy.mpr ⟨r, hr, hg⟩)
    refine ⟨fun r hr => ?_, ?_, fun g => ?_, ⟨fun _ => ?_, fun _ => rfl⟩, h.since_le, le_rfl,
      fun r hr hg => ?_⟩
    · rcases List.mem_append.mp hr with hr | hr
      · exact h.gen_le r hr
      · rw [List.mem_singleton.mp hr]
    · rintro g ⟨⟩
      exact le_rfl
    · rw [List.countP_append]
      by_cases hg : w.page.generation = g
      · have hzero : w.refreshes.countP (fun r => decide (r.generation = g)) = 0 :=
          List.countP_eq_zero.mpr fun r hr => by simpa [← hg] using hnone r hr
        simp [hzero, hg]
      · simpa [hg] using h.one g
    · exact ⟨_, List.mem_append_right _ (List.mem_singleton_self _), rfl⟩
    · rcases List.mem_append.mp hr with hr | hr
      · exact absurd hg (hnone r hr)
      · rw [List.mem_singleton.mp hr]
        exact ⟨rfl, htoken, h.since_le, le_rfl, Or.inl le_rfl⟩

theorem disconnect (h : Flight w) (message : String) : Flight (w.disconnect message) :=
  h.advance rfl rfl rfl h.since_le h.asked_le

theorem connect (h : Flight w) {text : String} (htext : text ≠ "") : Flight (w.connect text) := by
  rw [World.connect, if_neg htext]
  refine refresh ?_ true
  exact h.advance rfl rfl rfl le_rfl h.asked_le

theorem again (h : Flight w) : Flight { w with page := { w.page with again := true } } := by
  refine ⟨h.gen_le, h.busy_le, h.one, h.busy, h.since_le, h.asked_le, fun r hr hg => ?_⟩
  have hown := h.own r hr hg
  exact ⟨hown.token_eq, hown.token_ne, hown.since_le, hown.le_now, Or.inr rfl⟩

/-- What is shown does not matter. -/
theorem congr (h : Flight w) {w' : World} (hrefreshes : w'.refreshes = w.refreshes)
    (hbusy : w'.page.busyGen = w.page.busyGen) (hgen : w'.page.generation = w.page.generation)
    (htoken : w'.page.token = w.page.token) (hagain : w'.page.again = w.page.again)
    (hsince : w'.since = w.since) (hasked : w'.asked = w.asked) (hnow : w.now ≤ w'.now) :
    Flight w' := by
  refine ⟨fun r hr => ?_, fun g hg => ?_, hrefreshes ▸ h.one, ?_, ?_, ?_, fun r hr hg => ?_⟩
  · rw [hgen]
    exact h.gen_le r (hrefreshes ▸ hr)
  · rw [hgen]
    exact h.busy_le g (hbusy ▸ hg)
  · rw [hbusy, hgen, hrefreshes]
    exact h.busy
  · rw [hsince]
    exact h.since_le.trans hnow
  · rw [hasked]
    exact h.asked_le.trans hnow
  · have hown := h.own r (hrefreshes ▸ hr) (hgen ▸ hg)
    exact ⟨htoken ▸ hown.token_eq, hown.token_ne, hsince ▸ hown.since_le, hown.le_now.trans hnow,
      by rw [hasked, hagain]; exact hown.asked⟩

theorem receive (h : Flight w) (r : Refresh) (o : Except Failure Shown) :
    Flight (w.receive r o) := by
  have hreceived := w.receive_received r o
  generalize w.receive r o = w' at hreceived ⊢
  cases hreceived with
  | late _ _ => exact h
  | changed _ _ => exact h.again
  | painted s _ _ => exact h.congr rfl rfl rfl rfl rfl rfl rfl le_rfl
  | rejected _ message _ => exact h.disconnect message
  | failed e _ => exact h.congr rfl rfl rfl rfl rfl rfl rfl le_rfl

/-- A refresh that is over was the only one of its connection. -/
theorem erase (h : Flight w) {i : ℕ} {r : Refresh} (hr : w.refreshes[i]? = some r) :
    ∀ x ∈ w.refreshes.eraseIdx i, x.generation ≠ r.generation := by
  intro x hx hg
  have hcount := (perm_eraseIdx hr).countP_eq (fun x => decide (x.generation = r.generation))
  have hone := h.one r.generation
  have hpos : 0 < (w.refreshes.eraseIdx i).countP fun x => decide (x.generation = r.generation) :=
    List.countP_pos_iff.mpr ⟨x, hx, by simpa using hg⟩
  rw [List.countP_cons_of_pos (by simp)] at hcount
  omega

/-- The other refreshes are still in flight. -/
theorem mem_finished {i : ℕ} {r x : Refresh} (hr : w.refreshes[i]? = some r) (hx : x ∈ w.refreshes)
    (hne : x.generation ≠ r.generation) : x ∈ (w.finished i r).refreshes := by
  rcases List.mem_cons.mp ((perm_eraseIdx hr).mem_iff.mpr hx) with rfl | hx
  · exact absurd rfl hne
  · exact hx

theorem finished (h : Flight w) {i : ℕ} {r : Refresh} (hr : w.refreshes[i]? = some r) (again : Bool)
    (hagain : again = w.page.again ∨ r.generation = w.page.generation) :
    Flight { w.finished i r with page := { (w.finished i r).page with again } } := by
  have hsub := List.eraseIdx_sublist w.refreshes i
  refine ⟨fun x hx => h.gen_le x (hsub.subset hx), fun g hg => ?_,
    fun g => hsub.countP_le.trans (h.one g), ?_, h.since_le, h.asked_le, fun x hx hg => ?_⟩
  · dsimp only [World.finished] at hg
    split at hg
    · cases hg
    · exact h.busy_le g hg
  · dsimp only [World.finished]
    by_cases hg : r.generation = w.page.generation
    · have hbusy := h.busy.mpr ⟨r, List.mem_of_getElem? hr, hg⟩
      rw [if_pos (by rw [hbusy, hg])]
      constructor
      · intro hnone
        cases hnone
      · rintro ⟨x, hx, hxg⟩
        exact absurd (hxg.trans hg.symm) (h.erase hr x hx)
    · constructor
      · intro hbusy
        split at hbusy
        · cases hbusy
        · obtain ⟨x, hx, hxg⟩ := h.busy.mp hbusy
          exact ⟨x, mem_finished hr hx fun heq => hg (heq.symm.trans hxg), hxg⟩
      · rintro ⟨x, hx, hxg⟩
        have hbusy := h.busy.mpr ⟨x, hsub.subset hx, hxg⟩
        rw [hbusy, if_neg fun heq => hg (Option.some.inj heq).symm]
  · have hown := h.own x (hsub.subset hx) hg
    rcases hagain with rfl | hgen
    · exact ⟨hown.token_eq, hown.token_ne, hown.since_le, hown.le_now, hown.asked⟩
    · exact absurd (hg.trans hgen.symm) (h.erase hr x hx)

theorem settle (h : Flight w) {i : ℕ} {r : Refresh} (o : Except Failure Shown)
    (hr : w.refreshes[i]? = some r) : Flight (w.settle i r o) := by
  have hd := h.receive r o
  have hrd : (w.receive r o).refreshes[i]? = some r := by rw [World.receive_refreshes, hr]
  refine w.settle_of i r o ?_
    (fun hg => (hd.finished hrd false (Or.inr hg)).refresh false) fun d hd => ?_
  · exact hd.finished hrd (w.receive r o).page.again (Or.inl rfl)
  · exact hd.congr rfl rfl rfl rfl rfl rfl rfl le_rfl

theorem move [Sha256] {c : Http.Coordinator} {w' : World} (h : Flight w) (hm : Move c w w') :
    Flight w' := by
  cases hm with
  | stay => exact h
  | connect text htext => exact h.connect htext
  | disconnect message => exact h.disconnect message
  | refresh filter notice pending _ =>
      have hfilter : Flight { w with page := { w.page with filter, notice }, pending } :=
        h.congr rfl rfl rfl rfl rfl rfl rfl le_rfl
      exact hfilter.refresh false
  | settle i r o hr _ => exact h.settle o hr
  | serve s => exact h.congr rfl rfl rfl rfl rfl rfl rfl (by simp [World.now])
  | _ => exact h.congr rfl rfl rfl rfl rfl rfl rfl le_rfl

end Flight

/-! ## What is shown -/

section Answers

variable [Sha256] (c : Http.Coordinator)

/-- The token is accepted by the routes of the page. -/
def Accepted (token : String) : Prop :=
  Http.authorize c.tokens.clientToken (some ("Bearer " ++ token)) = true

/-- What is painted is what coordinators answered, to requests that were sent since the connection
was made. -/
structure Shown.Answered (token : String) (since : ℕ) (steps : List Http.Step) (s : Shown) :
    Prop where
  accepted : Accepted c token
  operations_within : s.operationsAt.Within since steps.length
  jobs_within : s.jobsAt.Within since steps.length
  operations : ∃ m n, s.operations =
    snapshotOver (s.operationsAt.see steps) m n c.settings.queueLimit
  jobs : s.jobs = View.jobs (s.jobsAt.see steps 0) (s.jobsAt.see steps 1) (recent s.filter)

/-- What is inspected is what coordinators answered. -/
structure Inspected.Answered (token : String) (since : ℕ) (steps : List Http.Step) (x : Inspected) :
    Prop where
  accepted : Accepted c token
  job_within : x.jobAt.Within since steps.length
  attempts_within : x.attemptsAt.Within since steps.length
  job : View.job (x.jobAt.see steps 0) (x.jobAt.see steps 1) x.job.id = .ok x.job
  attempts : View.attempts (x.attemptsAt.see steps 0) (x.attemptsAt.see steps 1) x.job.id =
    .ok x.attempts

/-- A point of the chart: the queue depth after some steps since the connection was made. -/
def Charted (since : ℕ) (steps : List Http.Step) (depth : ℕ) : Prop :=
  ∃ n, since ≤ n ∧ n ≤ steps.length ∧
    depth = statesOf (seen steps n) .queued + statesOf (seen steps n) .retryWait

variable {c} {token : String} {since : ℕ} {steps : List Http.Step}

/-- A reply that is ok was sent to the token of clients, and has what the route returned. -/
theorem api_ask {call : Http.Call} (hcall : call.party = some .client) {feed : ℕ → Moment}
    {see : ℕ → Database} {body : Http.Body}
    (h : api ((ask c token call feed).replyOver see) = .ok body) :
    Accepted c token ∧ api ((ask c token call feed).returned see) = .ok body := by
  have hauth : (ask c token call feed).authorised =
      Http.authorize c.tokens.clientToken (some ("Bearer " ++ token)) := by
    rw [Http.Exchange.authorised, ask, hcall]
    rfl
  rw [Http.Exchange.replyOver, hauth] at h
  by_cases htoken : Http.authorize c.tokens.clientToken (some ("Bearer " ++ token)) = true
  · rw [if_pos htoken] at h
    refine ⟨htoken, ?_⟩
    by_cases hencoded : (ask c token call feed).encoded see = true
    · rwa [if_pos hencoded] at h
    · rw [if_neg hencoded] at h
      cases h
  · rw [if_neg htoken] at h
    cases h

theorem Shown.Answered.of_outcome {r : Refresh} {operationsAt jobsAt : Reading} {feed : ℕ → Moment}
    {s : Shown} (hoperations : operationsAt.Within since steps.length)
    (hjobs : jobsAt.Within since steps.length)
    (h : r.outcome c steps operationsAt jobsAt feed = .ok s) :
    s.Answered c r.token since steps ∧ s.filter = r.filter ∧ s.operationsAt = operationsAt ∧
      s.jobsAt = jobsAt := by
  unfold Refresh.outcome at h
  cases ho : api ((ask c r.token .operations feed).replyOver (operationsAt.see steps)) with
  | error e => simp [ho] at h
  | ok body =>
      cases hj : api ((ask c r.token (.jobs (recent r.filter)) feed).replyOver
          (jobsAt.see steps)) with
      | error e => cases body <;> simp [ho, hj] at h
      | ok listed =>
          obtain ⟨htoken, hreturned⟩ := api_ask rfl ho
          obtain ⟨-, hlisted⟩ := api_ask rfl hj
          obtain rfl := Except.ok.inj hreturned
          obtain rfl := Except.ok.inj hlisted
          simp only [ho, hj] at h
          obtain rfl := Except.ok.inj h
          exact ⟨⟨htoken, hoperations, hjobs, ⟨_, _, rfl⟩, rfl⟩, rfl, rfl, rfl⟩

theorem Inspected.Answered.of_inspected {p : Pending} {jobId : Uuid} {jobAt attemptsAt : Reading}
    {feed : ℕ → Moment} {x : Inspected} (hjob : jobAt.Within since steps.length)
    (hattempts : attemptsAt.Within since steps.length)
    (h : p.inspected c jobId steps jobAt attemptsAt feed = .ok x) :
    x.Answered c p.token since steps := by
  unfold Pending.inspected at h
  cases hj : api ((ask c p.token (.job jobId) feed).replyOver (jobAt.see steps)) with
  | error e => simp [hj] at h
  | ok body =>
      cases ha : api ((ask c p.token (.attempts jobId) feed).replyOver (attemptsAt.see steps)) with
      | error e => cases body <;> simp [hj, ha] at h
      | ok listed =>
          obtain ⟨htoken, hreturned⟩ := api_ask rfl hj
          obtain ⟨-, hlisted⟩ := api_ask rfl ha
          simp only [hj, ha] at h
          simp only [Http.Exchange.returned, ask] at hreturned hlisted
          cases hview : View.job (jobAt.see steps 0) (jobAt.see steps 1) jobId with
          | error e =>
              rw [hview] at hreturned
              cases e <;> cases hreturned
          | ok out =>
              cases hlist : View.attempts (attemptsAt.see steps 0) (attemptsAt.see steps 1) jobId with
              | error e =>
                  rw [hlist] at hlisted
                  cases e <;> cases hlisted
              | ok l =>
                  rw [hview] at hreturned
                  rw [hlist] at hlisted
                  obtain rfl := Except.ok.inj hreturned
                  obtain rfl := Except.ok.inj hlisted
                  obtain rfl := Except.ok.inj h
                  have hid : out.id = jobId := by
                    rw [View.job] at hview
                    cases hrow : (jobAt.see steps 0).jobs.find? jobId with
                    | none => simp [hrow] at hview
                    | some job =>
                        rw [hrow] at hview
                        obtain rfl := Except.ok.inj hview
                        exact Table.key_of_find? hrow
                  exact ⟨htoken, hjob, hattempts, by rw [hid]; exact hview, by rw [hid]; exact hlist⟩

variable (more : List Http.Step)

theorem seen_append {n : ℕ} (hn : n ≤ steps.length) : seen (steps ++ more) n = seen steps n := by
  rw [seen, List.take_append_of_le_length hn, seen]

/-- What has been seen stays as it was. -/
theorem Reading.see_append {a : Reading} (h : a.last ≤ steps.length) :
    a.see (steps ++ more) = a.see steps :=
  funext fun i => seen_append more ((a.le_last i).trans h)

theorem Shown.Answered.append {s : Shown} (h : s.Answered c token since steps) :
    s.Answered c token since (steps ++ more) := by
  have hle : steps.length ≤ (steps ++ more).length := by simp
  refine ⟨h.accepted, h.operations_within.mono le_rfl hle, h.jobs_within.mono le_rfl hle, ?_, ?_⟩
  · rw [Reading.see_append more h.operations_within.2]
    exact h.operations
  · rw [Reading.see_append more h.jobs_within.2]
    exact h.jobs

theorem Inspected.Answered.append {x : Inspected} (h : x.Answered c token since steps) :
    x.Answered c token since (steps ++ more) := by
  have hle : steps.length ≤ (steps ++ more).length := by simp
  refine ⟨h.accepted, h.job_within.mono le_rfl hle, h.attempts_within.mono le_rfl hle, ?_, ?_⟩
  · rw [Reading.see_append more h.job_within.2]
    exact h.job
  · rw [Reading.see_append more h.attempts_within.2]
    exact h.attempts

theorem Charted.append {depth : ℕ} (h : Charted since steps depth) :
    Charted since (steps ++ more) depth := by
  obtain ⟨n, hsince, hn, rfl⟩ := h
  have hle : steps.length ≤ (steps ++ more).length := by simp
  refine ⟨n, hsince, hn.trans hle, ?_⟩
  rw [seen_append more hn]

end Answers

/-- What the page shows belongs to its connection. -/
structure Shows [Sha256] (c : Http.Coordinator) (w : World) : Prop where
  offline : w.page.token = "" →
    w.page.shown = none ∧ w.page.inspect = none ∧ w.page.depths = []
  shown : ∀ s, w.page.shown = some s → s.Answered c w.page.token w.since w.steps
  inspect : ∀ x, w.page.inspect = some x → x.Answered c w.page.token w.since w.steps
  depths : ∀ d ∈ w.page.depths, Charted w.since w.steps d
  depths_le : w.page.depths.length ≤ 60
  last : w.page.depths.getLast? = w.page.shown.map fun s => s.operations.queueDepth
  pending_le : ∀ p ∈ w.pending, p.generation ≤ w.page.generation
  own : ∀ p ∈ w.pending, p.generation = w.page.generation →
    p.token = w.page.token ∧ w.page.token ≠ "" ∧ w.since ≤ p.since

namespace Shows

variable [Sha256] {c : Http.Coordinator} {w : World}

/-- A page that has been reset. -/
theorem reset (h : Shows c w) {w' : World} (hgen : w'.page.generation = w.page.generation + 1)
    (hpending : w'.pending = w.pending) (hshown : w'.page.shown = none)
    (hinspect : w'.page.inspect = none) (hdepths : w'.page.depths = []) : Shows c w' := by
  refine ⟨fun _ => ⟨hshown, hinspect, hdepths⟩, ?_, ?_, ?_, ?_, ?_, fun p hp => ?_,
    fun p hp hg => ?_⟩
  · simp [hshown]
  · simp [hinspect]
  · simp [hdepths]
  · simp [hdepths]
  · simp [hdepths, hshown]
  · have := h.pending_le p (hpending ▸ hp)
    omega
  · have := h.pending_le p (hpending ▸ hp)
    omega

theorem refresh (h : Shows c w) (connecting : Bool) : Shows c (w.refresh connecting) := by
  rw [World.refresh]
  split
  · exact h
  split
  all_goals
    exact ⟨h.offline, h.shown, h.inspect, h.depths, h.depths_le, h.last, h.pending_le, h.own⟩

theorem paint (h : Shows c w) (htoken : w.page.token ≠ "") {s : Shown}
    (hs : s.Answered c w.page.token w.since w.steps) : Shows c (w.paint s) := by
  obtain ⟨m, n, hoperations⟩ := hs.operations
  obtain ⟨hsince, hle⟩ := hs.operations_within
  have hcharted : ∀ d ∈ w.page.depths ++ [s.operations.queueDepth], Charted w.since w.steps d := by
    intro d hd
    rcases List.mem_append.mp hd with hd | hd
    · exact h.depths d hd
    · rw [List.mem_singleton.mp hd]
      refine ⟨s.operationsAt.first, hsince, s.operationsAt.first_le_last.trans hle, ?_⟩
      rw [hoperations]
      rfl
  refine ⟨fun hempty => absurd hempty htoken, ?_, h.inspect, ?_, ?_, ?_, h.pending_le, h.own⟩
  · rintro _ ⟨⟩
    exact hs
  · intro d hd
    dsimp only [World.paint] at hd
    split at hd
    · exact hcharted d (List.mem_of_mem_tail hd)
    · exact hcharted d hd
  · have hlength := h.depths_le
    dsimp only [World.paint]
    split <;> simp only [List.length_tail, List.length_append, List.length_singleton] at * <;> omega
  · dsimp only [World.paint]
    split
    next hlong =>
      rw [List.getLast?_tail, if_neg (by omega)]
      simp
    · simp

theorem receive (h : Shows c w) (hf : Flight w) {r : Refresh} (hr : r ∈ w.refreshes)
    {o : Except Failure Shown} (ho : r.Outcome c w o) : Shows c (w.receive r o) := by
  have hreceived := w.receive_received r o
  generalize w.receive r o = w' at hreceived ⊢
  cases hreceived with
  | late _ _ => exact h
  | changed _ _ =>
      exact ⟨h.offline, h.shown, h.inspect, h.depths, h.depths_le, h.last, h.pending_le, h.own⟩
  | painted s hg _ =>
      have hown := hf.own r hr hg
      rcases ho with ⟨operationsAt, jobsAt, feed, hoperations, hjobs, ho⟩ | ⟨e, -, ho⟩
      · obtain ⟨hs, -⟩ := Shown.Answered.of_outcome (hoperations.mono hown.since_le le_rfl)
          (hjobs.mono hown.since_le le_rfl) ho.symm
        rw [hown.token_eq] at hs
        exact h.paint (hown.token_eq ▸ hown.token_ne) hs
      · cases ho
  | rejected _ message _ => exact h.reset rfl rfl rfl rfl rfl
  | failed e _ =>
      exact ⟨h.offline, h.shown, h.inspect, h.depths, h.depths_le, h.last, h.pending_le, h.own⟩

theorem settle (h : Shows c w) (hf : Flight w) {i : ℕ} {r : Refresh} {o : Except Failure Shown}
    (hr : w.refreshes[i]? = some r) (ho : r.Outcome c w o) : Shows c (w.settle i r o) := by
  have hd := h.receive hf (List.mem_of_getElem? hr) ho
  have hfinished : ∀ again, Shows c { (w.receive r o).finished i r with
      page := { ((w.receive r o).finished i r).page with again } } := fun again =>
    ⟨hd.offline, hd.shown, hd.inspect, hd.depths, hd.depths_le, hd.last, hd.pending_le, hd.own⟩
  refine w.settle_of i r o (hfinished _) (fun _ => (hfinished false).refresh false) fun d hd => ?_
  exact ⟨hd.offline, hd.shown, hd.inspect, hd.depths, hd.depths_le, hd.last, hd.pending_le, hd.own⟩

theorem move {w' : World} (h : Shows c w) (hf : Flight w) (hm : Move c w w') : Shows c w' := by
  cases hm with
  | stay => exact h
  | connect text htext =>
      rw [World.connect, if_neg htext]
      refine refresh ?_ true
      exact h.reset rfl rfl rfl rfl rfl
  | disconnect message => exact h.reset rfl rfl rfl rfl rfl
  | refresh filter notice pending hsub =>
      refine refresh ?_ false
      exact ⟨h.offline, h.shown, h.inspect, h.depths, h.depths_le, h.last,
        fun p hp => h.pending_le p (hsub hp), fun p hp => h.own p (hsub hp)⟩
  | note notice pending hsub =>
      exact ⟨h.offline, h.shown, h.inspect, h.depths, h.depths_le, h.last,
        fun p hp => h.pending_le p (hsub hp), fun p hp => h.own p (hsub hp)⟩
  | press button hpress =>
      have htoken : w.page.token ≠ "" := by
        intro hempty
        rw [(h.offline hempty).1] at hpress
        simp [hempty] at hpress
      refine ⟨h.offline, h.shown, h.inspect, h.depths, h.depths_le, h.last, fun p hp => ?_,
        fun p hp hg => ?_⟩ <;> rcases List.mem_append.mp hp with hp | hp
      · exact h.pending_le p hp
      · rw [List.mem_singleton.mp hp]
      · exact h.own p hp hg
      · rw [List.mem_singleton.mp hp]
        exact ⟨rfl, htoken, hf.since_le⟩
  | serve s =>
      exact ⟨h.offline, fun x hx => (h.shown x hx).append [s],
        fun x hx => (h.inspect x hx).append [s], fun d hd => (h.depths d hd).append [s],
        h.depths_le, h.last, h.pending_le, h.own⟩
  | settle i r o hr ho => exact h.settle hf hr ho
  | inspect p jobId jobAt attemptsAt feed x pending hp hg hjob hattempts hx hsub =>
      obtain ⟨htoken, hne, hsince⟩ := h.own p hp hg
      refine ⟨fun hempty => absurd hempty hne, h.shown, ?_, h.depths, h.depths_le, h.last,
        fun p hp => h.pending_le p (hsub hp), fun p hp => h.own p (hsub hp)⟩
      rintro _ ⟨⟩
      have hanswered := Inspected.Answered.of_inspected (hjob.mono hsince le_rfl)
        (hattempts.mono hsince le_rfl) hx
      rw [htoken] at hanswered
      exact hanswered

end Shows

/-! ## What the page says of itself -/

/-- The status line and the stale flag tell how the connection is. -/
structure Signs (w : World) : Prop where
  ok_le : ∀ g, w.page.okGen = some g → g ≤ w.page.generation
  painted : w.page.okGen = some w.page.generation ↔ w.page.shown.isSome = true
  stale : w.page.stale = true ↔
    w.page.shown.isSome = true ∧ w.page.connection = "Connection unavailable"
  offline : w.page.token = "" ↔ w.page.connection = "Disconnected"

namespace Signs

variable {w : World}

/-- A page that has been reset. -/
theorem reset (h : Signs w) {w' : World} (hok : w'.page.okGen = w.page.okGen)
    (hgen : w'.page.generation = w.page.generation + 1) (hshown : w'.page.shown = none)
    (hstale : w'.page.stale = false)
    (hoffline : w'.page.token = "" ↔ w'.page.connection = "Disconnected") : Signs w' := by
  refine ⟨fun g hg => ?_, ?_, by simp [hstale, hshown], hoffline⟩
  · have := h.ok_le g (hok ▸ hg)
    omega
  · rw [hok, hgen, hshown]
    refine ⟨fun hg => ?_, fun hsome => by cases hsome⟩
    have := h.ok_le _ hg
    omega

theorem refresh (h : Signs w) (connecting : Bool) : Signs (w.refresh connecting) := by
  rw [World.refresh]
  split
  · exact h
  split
  all_goals exact ⟨h.ok_le, h.painted, h.stale, h.offline⟩

theorem connect (h : Signs w) {text : String} (htext : text ≠ "") : Signs (w.connect text) := by
  rw [World.connect, if_neg htext]
  refine refresh ?_ true
  have hne : "Connecting…" ≠ "Disconnected" := by decide
  exact h.reset rfl rfl rfl rfl ⟨fun hempty => absurd hempty htext, fun hs => absurd hs hne⟩

theorem receive (h : Signs w) (hf : Flight w) {r : Refresh} (hr : r ∈ w.refreshes)
    (o : Except Failure Shown) : Signs (w.receive r o) := by
  have hreceived := w.receive_received r o
  generalize w.receive r o = w' at hreceived ⊢
  have htoken : r.generation = w.page.generation → w.page.token ≠ "" := fun hg =>
    (hf.own r hr hg).token_eq ▸ (hf.own r hr hg).token_ne
  cases hreceived with
  | late _ _ => exact h
  | changed _ _ => exact ⟨h.ok_le, h.painted, h.stale, h.offline⟩
  | painted s hg _ =>
      have hne : "Connected" ≠ "Disconnected" := by decide
      have hne' : "Connected" ≠ "Connection unavailable" := by decide
      refine ⟨?_, ⟨fun _ => rfl, fun _ => rfl⟩, ?_, ?_⟩
      · rintro g ⟨⟩
        exact le_rfl
      · exact ⟨fun hs => (Bool.false_ne_true hs).elim, fun hs => absurd hs.2 hne'⟩
      · exact ⟨fun hempty => absurd hempty (htoken hg), fun hs => absurd hs hne⟩
  | rejected _ message _ => exact h.reset rfl rfl rfl rfl ⟨fun _ => rfl, fun _ => rfl⟩
  | failed e hg =>
      have hne : "Connection unavailable" ≠ "Disconnected" := by decide
      refine ⟨h.ok_le, h.painted, ?_, ?_⟩
      · have hpainted := h.painted
        have hstale := h.stale
        simp only [World.unavailable, Bool.or_eq_true, decide_eq_true_eq, and_true]
        rw [hpainted, hstale]
        exact ⟨fun hs => hs.elim And.left id, Or.inr⟩
      · exact ⟨fun hempty => absurd hempty (htoken hg), fun hs => absurd hs hne⟩

theorem settle (h : Signs w) (hf : Flight w) {i : ℕ} {r : Refresh} (o : Except Failure Shown)
    (hr : w.refreshes[i]? = some r) : Signs (w.settle i r o) := by
  have hd := h.receive hf (List.mem_of_getElem? hr) o
  have hfinished : ∀ again, Signs { (w.receive r o).finished i r with
      page := { ((w.receive r o).finished i r).page with again } } := fun again =>
    ⟨hd.ok_le, hd.painted, hd.stale, hd.offline⟩
  refine w.settle_of i r o (hfinished _) (fun _ => (hfinished false).refresh false) fun d hd => ?_
  exact ⟨hd.ok_le, hd.painted, hd.stale, hd.offline⟩

theorem move [Sha256] {c : Http.Coordinator} {w' : World} (h : Signs w) (hf : Flight w)
    (hm : Move c w w') : Signs w' := by
  cases hm with
  | stay => exact h
  | connect text htext => exact h.connect htext
  | disconnect message => exact h.reset rfl rfl rfl rfl ⟨fun _ => rfl, fun _ => rfl⟩
  | refresh filter notice pending _ =>
      refine refresh ?_ false
      exact ⟨h.ok_le, h.painted, h.stale, h.offline⟩
  | settle i r o hr _ => exact h.settle hf o hr
  | _ => exact ⟨h.ok_le, h.painted, h.stale, h.offline⟩

end Signs

/-! ## No refresh is lost -/

/-- The page goes on asking: its first refresh is in flight, or an interval of it is running. -/
def Polls (w : World) : Prop :=
  w.page.token ≠ "" →
    (∃ r ∈ w.refreshes, r.generation = w.page.generation ∧ r.connecting = true) ∨
      ∃ t ∈ w.timers, w.page.timer = some t

/-- A refresh is in flight, or its failure is shown, or everything that was asked for is. -/
def KeepsUp (w : World) : Prop :=
  w.page.token ≠ "" → w.page.connection = "Connection unavailable" ∨
    (∃ r ∈ w.refreshes, r.generation = w.page.generation) ∨
      ∃ s, w.page.shown = some s ∧ s.filter = w.page.filter ∧ w.asked ≤ s.operationsAt.first ∧
        w.asked ≤ s.jobsAt.first

/-- The refresh in flight began after the last one was painted. -/
def Ahead (w : World) : Prop :=
  ∀ s, w.page.shown = some s → ∀ r ∈ w.refreshes, r.generation = w.page.generation →
    s.operationsAt.last ≤ r.since ∧ s.jobsAt.last ≤ r.since

section KeepsUp

variable {w : World}

/-- A refresh that is asked for is in flight, or will follow the one that is. -/
theorem Flight.refresh_flies (h : Flight w) (connecting : Bool) (htoken : w.page.token ≠ "") :
    ∃ r ∈ (w.refresh connecting).refreshes,
      r.generation = (w.refresh connecting).page.generation := by
  rw [World.refresh, if_neg htoken]
  by_cases hbusy : w.page.busyGen = some w.page.generation
  · rw [if_pos hbusy]
    exact h.busy.mp hbusy
  · rw [if_neg hbusy]
    exact ⟨_, List.mem_append_right _ (List.mem_singleton_self _), rfl⟩

theorem World.refresh_token (w : World) (connecting : Bool) :
    (w.refresh connecting).page.token = w.page.token := by
  rw [refresh]
  split
  · rfl
  · split <;> rfl

theorem Flight.refresh_keepsUp (h : Flight w) (connecting : Bool) :
    KeepsUp (w.refresh connecting) := by
  intro htoken
  rw [w.refresh_token] at htoken
  exact Or.inr (Or.inl (h.refresh_flies connecting htoken))

/-- When a refresh has read what it shows. -/
theorem Refresh.Outcome.shown [Sha256] {c : Http.Coordinator} {r : Refresh} {s : Shown}
    (h : r.Outcome c w (.ok s)) :
    s.operationsAt.Within r.since w.now ∧ s.jobsAt.Within r.since w.now ∧ s.filter = r.filter := by
  rcases h with ⟨operationsAt, jobsAt, feed, hoperations, hjobs, ho⟩ | ⟨e, -, ho⟩
  · obtain ⟨-, hfilter, rfl, rfl⟩ := Shown.Answered.of_outcome hoperations hjobs ho.symm
    exact ⟨hoperations, hjobs, hfilter⟩
  · cases ho

/-- What there is to say of a page whose refresh is being received. -/
theorem KeepsUp.receive [Sha256] {c : Http.Coordinator} (h : KeepsUp w) (hf : Flight w)
    {r : Refresh} (hr : r ∈ w.refreshes) {o : Except Failure Shown} (ho : r.Outcome c w o) :
    let d := w.receive r o
    (r.generation ≠ d.page.generation → KeepsUp d) ∧
      (r.generation = d.page.generation → d.page.again = false →
        d.page.connection = "Connection unavailable" ∨
          ∃ s, d.page.shown = some s ∧ s.filter = d.page.filter ∧
            d.asked ≤ s.operationsAt.first ∧ d.asked ≤ s.jobsAt.first) := by
  intro d
  have hreceived : Received w r o d := w.receive_received r o
  generalize d = d at hreceived ⊢
  cases hreceived with
  | late _ hg => exact ⟨fun _ => h, fun heq => absurd heq hg⟩
  | changed _ hg => exact ⟨fun hne => absurd hg hne, fun _ hagain => by cases hagain⟩
  | painted s hg hfilter =>
      refine ⟨fun hne => absurd hg hne, fun _ hagain => Or.inr ⟨s, rfl, ?_⟩⟩
      obtain ⟨hoperations, hjobs, hsf⟩ := ho.shown
      have hasked := (hf.own r hr hg).asked.resolve_right fun ha => by
        rw [show w.page.again = false from hagain] at ha
        cases ha
      exact ⟨hsf.trans hfilter, hasked.trans hoperations.1, hasked.trans hjobs.1⟩
  | rejected _ message hg =>
      refine ⟨fun _ htoken => absurd rfl htoken, fun heq => ?_⟩
      rw [hg] at heq
      exact absurd heq (Nat.succ_ne_self _).symm
  | failed _ hg => exact ⟨fun hne => absurd hg hne, fun _ _ => Or.inl rfl⟩

theorem KeepsUp.settle [Sha256] {c : Http.Coordinator} (h : KeepsUp w) (hf : Flight w) {i : ℕ}
    {r : Refresh} (hr : w.refreshes[i]? = some r) {o : Except Failure Shown}
    (ho : r.Outcome c w o) : KeepsUp (w.settle i r o) := by
  obtain ⟨hother, hself⟩ := h.receive hf (List.mem_of_getElem? hr) ho
  have hfd := hf.receive r o
  have hrd : (w.receive r o).refreshes[i]? = some r := by rw [World.receive_refreshes, hr]
  have hrelease : KeepsUp ((w.receive r o).release i r) := by
    rcases (w.receive r o).release_cases i r with ⟨-, hg, heq⟩ | ⟨hnot, heq⟩ <;> rw [heq]
    · exact (hfd.finished hrd false (Or.inr hg)).refresh_keepsUp false
    intro htoken
    by_cases hg : r.generation = (w.receive r o).page.generation
    · rcases hself hg (by simpa [hg] using hnot) with hs | hs
      · exact Or.inl hs
      · exact Or.inr (Or.inr hs)
    · rcases hother hg htoken with hs | ⟨x, hx, hxg⟩ | hs
      · exact Or.inl hs
      · have hne : x.generation ≠ r.generation := fun heq => hg (heq.symm.trans hxg)
        exact Or.inr (Or.inl ⟨x, Flight.mem_finished hrd hx hne, hxg⟩)
      · exact Or.inr (Or.inr hs)
  unfold World.settle
  by_cases hc : r.connecting = true
  · rw [if_pos hc]
    exact hrelease
  · rw [if_neg hc]
    exact hrelease

theorem KeepsUp.move [Sha256] {c : Http.Coordinator} {w' : World} (h : KeepsUp w) (hf : Flight w)
    (hm : Move c w w') : KeepsUp w' := by
  cases hm with
  | connect text htext =>
      rw [World.connect, if_neg htext]
      refine Flight.refresh_keepsUp ?_ true
      exact hf.advance rfl rfl rfl le_rfl hf.asked_le
  | disconnect message => exact fun htoken => absurd rfl htoken
  | refresh filter notice pending _ =>
      refine Flight.refresh_keepsUp ?_ false
      exact hf.congr rfl rfl rfl rfl rfl rfl rfl le_rfl
  | settle i r o hr ho => exact h.settle hf hr ho
  | _ => exact h

theorem Ahead.refresh (h : Ahead w)
    (hle : ∀ s, w.page.shown = some s → s.operationsAt.last ≤ w.now ∧ s.jobsAt.last ≤ w.now)
    (connecting : Bool) : Ahead (w.refresh connecting) := by
  rw [World.refresh]
  split
  · exact h
  split
  · exact h
  · intro s hs r hr hg
    rcases List.mem_append.mp hr with hr | hr
    · exact h s hs r hr hg
    · rw [List.mem_singleton.mp hr]
      exact hle s hs

theorem Ahead.settle [Sha256] {c : Http.Coordinator} (h : Ahead w) (hf : Flight w)
    (hshows : Shows c w) {i : ℕ} {r : Refresh} (hr : w.refreshes[i]? = some r)
    {o : Except Failure Shown} (ho : r.Outcome c w o) : Ahead (w.settle i r o) := by
  have hfd := hf.receive r o
  have hrd : (w.receive r o).refreshes[i]? = some r := by rw [World.receive_refreshes, hr]
  have hshowsd := hshows.receive hf (List.mem_of_getElem? hr) ho
  have hle : ∀ s, (w.receive r o).page.shown = some s →
      s.operationsAt.last ≤ (w.receive r o).now ∧ s.jobsAt.last ≤ (w.receive r o).now :=
    fun s hs => ⟨(hshowsd.shown s hs).operations_within.2, (hshowsd.shown s hs).jobs_within.2⟩
  -- a refresh of another connection has painted nothing
  have hother : r.generation ≠ (w.receive r o).page.generation → Ahead (w.receive r o) := by
    have hreceived := w.receive_received r o
    generalize w.receive r o = d at hreceived ⊢
    intro hne
    cases hreceived with
    | late _ _ => exact h
    | rejected _ message _ => exact fun s hs => by cases hs
    | changed _ hg => exact absurd hg hne
    | painted _ hg _ => exact absurd hg hne
    | failed _ hg => exact absurd hg hne
  have hfinished : ∀ again, Ahead { (w.receive r o).finished i r with
      page := { ((w.receive r o).finished i r).page with again } } := by
    intro again s hs x hx hxg
    by_cases hg : r.generation = (w.receive r o).page.generation
    · exact absurd (hxg.trans hg.symm) (hfd.erase hrd x hx)
    · exact hother hg s hs x ((List.eraseIdx_sublist _ i).subset hx) hxg
  exact w.settle_of i r o (hfinished _) (fun _ => (hfinished false).refresh hle false)
    fun _ hd => hd

theorem Ahead.move [Sha256] {c : Http.Coordinator} {w' : World} (h : Ahead w) (hf : Flight w)
    (hshows : Shows c w) (hm : Move c w w') : Ahead w' := by
  have hle : ∀ s, w.page.shown = some s → s.operationsAt.last ≤ w.now ∧ s.jobsAt.last ≤ w.now :=
    fun s hs => ⟨(hshows.shown s hs).operations_within.2, (hshows.shown s hs).jobs_within.2⟩
  cases hm with
  | connect text htext =>
      rw [World.connect, if_neg htext]
      refine Ahead.refresh ?_ ?_ true
      · exact fun s hs => by cases hs
      · exact fun s hs => by cases hs
  | disconnect message => exact fun s hs => by cases hs
  | refresh filter notice pending _ =>
      refine Ahead.refresh ?_ ?_ false
      · exact h
      · exact hle
  | settle i r o hr ho => exact h.settle hf hshows hr ho
  | _ => exact h

end KeepsUp

section Polls

variable {w : World}

theorem Polls.refresh (h : Polls w) (connecting : Bool) : Polls (w.refresh connecting) := by
  rw [World.refresh]
  split
  · exact h
  split
  · exact h
  · intro htoken
    refine (h htoken).imp (fun ⟨r, hr, hg, hc⟩ => ?_) id
    exact ⟨r, List.mem_append_left _ hr, hg, hc⟩

theorem Polls.connect (hf : Flight w) {text : String} (htext : text ≠ "") :
    Polls (w.connect text) := by
  have hbusy : w.page.busyGen ≠ some (w.page.generation + 1) := fun hg => by
    have := hf.busy_le _ hg
    omega
  rw [World.connect, if_neg htext, World.refresh, if_neg htext]
  dsimp only
  rw [if_neg (by exact hbusy)]
  exact fun _ => Or.inl ⟨_, List.mem_append_right _ (List.mem_singleton_self _), rfl, rfl⟩

theorem Polls.receive (h : Polls w) (r : Refresh) (o : Except Failure Shown) :
    Polls (w.receive r o) := by
  have hreceived := w.receive_received r o
  generalize w.receive r o = d at hreceived ⊢
  cases hreceived with
  | rejected _ message _ => exact fun htoken => absurd rfl htoken
  | _ => exact h

theorem Polls.settle (h : Polls w) {i : ℕ} {r : Refresh} (hr : w.refreshes[i]? = some r)
    (o : Except Failure Shown) : Polls (w.settle i r o) := by
  have hrd : (w.receive r o).refreshes[i]? = some r := by rw [World.receive_refreshes, hr]
  unfold World.settle
  by_cases hc : r.connecting = true
  · rw [if_pos hc]
    exact fun _ => Or.inr ⟨_, List.mem_append_right _ (List.mem_singleton_self _), rfl⟩
  rw [if_neg hc]
  -- the refresh that is over is not the first one
  have hfinished : ∀ again, Polls { (w.receive r o).finished i r with
      page := { ((w.receive r o).finished i r).page with again } } := by
    intro again htoken
    refine (h.receive r o htoken).imp (fun ⟨x, hx, hg, hxc⟩ => ⟨x, ?_, hg, hxc⟩) id
    rcases List.mem_cons.mp ((perm_eraseIdx hrd).mem_iff.mpr hx) with rfl | hx
    · exact absurd hxc hc
    · exact hx
  rcases (w.receive r o).release_cases i r with ⟨-, -, heq⟩ | ⟨-, heq⟩ <;> rw [heq]
  · exact (hfinished false).refresh false
  · exact hfinished (w.receive r o).page.again

theorem Polls.move [Sha256] {c : Http.Coordinator} {w' : World} (h : Polls w) (hf : Flight w)
    (hm : Move c w w') : Polls w' := by
  cases hm with
  | connect text htext => exact .connect hf htext
  | disconnect message => exact fun htoken => absurd rfl htoken
  | refresh filter notice pending _ =>
      refine Polls.refresh ?_ false
      exact h
  | settle i r o hr _ => exact h.settle hr o
  | _ => exact h

end Polls

/-! ## Time on the page -/

section Later

variable {w : World}

/-- A refresh shows nothing before its replies are there. -/
theorem World.refresh_page (w : World) (connecting : Bool) :
    (w.refresh connecting).page.shown = w.page.shown ∧
      (w.refresh connecting).page.generation = w.page.generation := by
  rw [refresh]
  split
  · exact ⟨rfl, rfl⟩
  · split <;> exact ⟨rfl, rfl⟩

theorem World.settle_page (w : World) (i : ℕ) (r : Refresh) (o : Except Failure Shown) :
    (w.settle i r o).page.shown = (w.receive r o).page.shown ∧
      (w.settle i r o).page.generation = (w.receive r o).page.generation :=
  w.settle_of (P := fun d => d.page.shown = (w.receive r o).page.shown ∧
    d.page.generation = (w.receive r o).page.generation) i r o ⟨rfl, rfl⟩
    (fun _ => World.refresh_page _ false) fun _ h => h

/-- Every statement behind the one was run before every statement behind the other. -/
def Shown.Precedes (s s' : Shown) : Prop :=
  ∃ n, s.operationsAt.last ≤ n ∧ s.jobsAt.last ≤ n ∧ n ≤ s'.operationsAt.first ∧
    n ≤ s'.jobsAt.first

theorem Shown.Precedes.trans {s s' s'' : Shown} (h : s.Precedes s') (h' : s'.Precedes s'') :
    s.Precedes s'' := by
  obtain ⟨n, hn, hn', hle, -⟩ := h
  obtain ⟨m, hm, hm', hle'⟩ := h'
  have hnm : n ≤ m := hle.trans (s'.operationsAt.first_le_last.trans hm)
  exact ⟨m, hn.trans hnm, hn'.trans hnm, hle'⟩

/-- What a page shows is replaced by what was read later, until the connection ends. -/
def Page.Later (p p' : Page) : Prop :=
  p.generation ≤ p'.generation ∧ (p'.generation = p.generation → ∀ s, p.shown = some s →
    ∃ s', p'.shown = some s' ∧ (s' = s ∨ s.Precedes s'))

theorem Page.Later.of_eq {p p' : Page} (hgen : p'.generation = p.generation)
    (hshown : p'.shown = p.shown) : p.Later p' :=
  ⟨hgen.ge, fun _ s hs => ⟨s, hshown ▸ hs, Or.inl rfl⟩⟩

theorem Page.Later.of_succ {p p' : Page} (hgen : p'.generation = p.generation + 1) :
    p.Later p' := ⟨by omega, fun heq => by omega⟩

theorem Page.Later.trans {p p' p'' : Page} (h : p.Later p') (h' : p'.Later p'') :
    p.Later p'' := by
  refine ⟨h.1.trans h'.1, fun hgen s hs => ?_⟩
  have hle := h.1
  have hle' := h'.1
  obtain ⟨s', hs', hpast⟩ := h.2 (by omega) s hs
  obtain ⟨s'', hs'', hpast'⟩ := h'.2 (by omega) s' hs'
  refine ⟨s'', hs'', ?_⟩
  rcases hpast with rfl | hpast
  · exact hpast'
  · rcases hpast' with rfl | hpast'
    · exact Or.inr hpast
    · exact Or.inr (hpast.trans hpast')

theorem Ahead.receive [Sha256] {c : Http.Coordinator} (h : Ahead w) {r : Refresh}
    (hr : r ∈ w.refreshes) {o : Except Failure Shown} (ho : r.Outcome c w o) :
    w.page.Later (w.receive r o).page := by
  have hreceived := w.receive_received r o
  generalize w.receive r o = d at hreceived ⊢
  cases hreceived with
  | painted s hg _ =>
      obtain ⟨hoperations, hjobs, -⟩ := ho.shown
      refine ⟨le_rfl, fun _ x hx => ⟨s, rfl, Or.inr ?_⟩⟩
      obtain ⟨hx₁, hx₂⟩ := h x hx r hr hg
      exact ⟨r.since, hx₁, hx₂, hoperations.1, hjobs.1⟩
  | rejected _ message _ => exact .of_succ rfl
  | _ => exact .of_eq rfl rfl

theorem Ahead.later [Sha256] {c : Http.Coordinator} {w' : World} (h : Ahead w) (hm : Move c w w') :
    w.page.Later w'.page := by
  cases hm with
  | connect text htext =>
      rw [World.connect, if_neg htext]
      exact .of_succ (World.refresh_page _ true).2
  | disconnect message => exact .of_succ rfl
  | refresh filter notice pending _ =>
      exact .of_eq (World.refresh_page _ false).2 (World.refresh_page _ false).1
  | settle i r o hr ho =>
      exact (h.receive (List.mem_of_getElem? hr) ho).trans
        (.of_eq (w.settle_page i r o).2 (w.settle_page i r o).1)
  | _ => exact .of_eq rfl rfl

end Later

/-! ## Runs -/

section Runs

variable [Sha256] (c : Http.Coordinator)

/-- What holds of every world. -/
structure Kept (w : World) : Prop where
  flight : Flight w
  shows : Shows c w
  signs : Signs w
  polls : Polls w
  keepsUp : KeepsUp w
  ahead : Ahead w

theorem kept_after (inputs : List Input) : Kept c (World.after c inputs) := by
  refine after_invariant ?_ (fun w w' h hm => ?_) inputs
  · refine ⟨⟨?_, ?_, ?_, ?_, ?_, ?_, ?_⟩, ⟨?_, ?_, ?_, ?_, ?_, ?_, ?_, ?_⟩, ⟨?_, ?_, ?_, ?_⟩,
      ?_, ?_, ?_⟩ <;> simp [Polls, KeepsUp, Ahead]
  · exact ⟨h.flight.move hm, h.shows.move h.flight hm, h.signs.move h.flight hm,
      h.polls.move h.flight hm, h.keepsUp.move h.flight hm, h.ahead.move h.flight h.shows hm⟩

/-- **What is shown belongs to the connection.** Whatever is clicked and however late replies
come, the page shows nothing without a token.  With a token it shows what coordinators answered
to this token, each statement run since the connection was made; so nothing is shown of another
connection, or to a token that is not the client token.  The chart ends with the depth that is
shown.  The panels never go back in time: they are only replaced by what was read afterwards.
The inspector may go back, if two inspections are answered in the other order. -/
theorem shows_own_connection (inputs more : List Input) :
    let w := World.after c inputs
    let later := World.after c (inputs ++ more)
    (w.page.token = "" → w.page.shown = none ∧ w.page.inspect = none ∧ w.page.depths = []) ∧
    (∀ s, w.page.shown = some s → s.Answered c w.page.token w.since w.steps) ∧
    (∀ x, w.page.inspect = some x → x.Answered c w.page.token w.since w.steps) ∧
    (∀ d ∈ w.page.depths, Charted w.since w.steps d) ∧ w.page.depths.length ≤ 60 ∧
    w.page.depths.getLast? = w.page.shown.map (fun s => s.operations.queueDepth) ∧
    ∀ s, w.page.shown = some s → later.page.generation = w.page.generation →
      ∃ s', later.page.shown = some s' ∧ (s' = s ∨ s.Precedes s') := by
  intro w later
  have h : Shows c w := (kept_after c inputs).shows
  have hlater : w.page.Later later.page := by
    induction more using List.reverseRecOn with
    | nil =>
        have heq : later = w := by simp [later, w]
        rw [heq]
        exact .of_eq rfl rfl
    | append_singleton more input ih =>
        have heq : later = (World.after c (inputs ++ more)).act c input := by
          simp [later, World.after]
        rw [heq]
        exact ih.trans ((kept_after c _).ahead.later (World.act_move _ input))
  exact ⟨h.offline, h.shown, h.inspect, h.depths, h.depths_le, h.last,
    fun s hs hgen => hlater.2 hgen s hs⟩

/-- **The page keeps up.** At most one refresh of each connection is in flight.  A connected page
goes on polling, and every refresh that was asked for, by the clock, a filter or a button, is
shown, is in flight, will follow the one in flight, or has failed and the page says so.  It is
marked stale exactly while it shows something and the last refresh has failed. -/
theorem keeps_up (inputs : List Input) :
    let w := World.after c inputs
    (∀ g, w.refreshes.countP (fun r => decide (r.generation = g)) ≤ 1) ∧
    (w.page.stale = true ↔
      w.page.shown.isSome = true ∧ w.page.connection = "Connection unavailable") ∧
    (w.page.token ≠ "" →
      ((∃ r ∈ w.refreshes, r.generation = w.page.generation ∧ r.connecting = true) ∨
        ∃ t ∈ w.timers, w.page.timer = some t) ∧
      (w.page.connection = "Connection unavailable" ∨
        (∃ r ∈ w.refreshes, r.generation = w.page.generation ∧ r.token = w.page.token ∧
          (w.asked ≤ r.since ∨ w.page.again = true)) ∨
        ∃ s, w.page.shown = some s ∧ s.filter = w.page.filter ∧ w.asked ≤ s.operationsAt.first ∧
          w.asked ≤ s.jobsAt.first)) := by
  intro w
  obtain ⟨hf, -, hsigns, hpolls, hkeeps, -⟩ : Kept c w := kept_after c inputs
  refine ⟨hf.one, hsigns.stale, fun htoken => ⟨hpolls htoken, ?_⟩⟩
  rcases hkeeps htoken with hs | ⟨r, hr, hg⟩ | hs
  · exact Or.inl hs
  · have hown := hf.own r hr hg
    exact Or.inr (Or.inl ⟨r, hr, hg, hown.token_eq, hown.asked⟩)
  · exact Or.inr (Or.inr hs)

end Runs

end GreyQueue.Dashboard
