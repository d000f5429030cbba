import GreyQueue.Routes

/-!
# The operations page

The script behind `GET /dashboard`: a page that polls the coordinators with the token of whoever
connected, while replies come in any order, late or never.  A world is the page, the replies it
waits for, and what the coordinators have done.

The statements of a reply are run one after the other since the request was sent, each on the
state that the coordinators have made by then.  Replies to the buttons that change something are
arbitrary, and so are the failures; only a coordinator sends 401, or a reply that is ok, to a
refresh or an inspection.  The words of a failure, the focus and the drawing of the panels are
left out.

## Main definitions

* `Reading` — when the statements of a reply have been run.
* `Page`, `World` — the variables of the script, and what is in flight.
* `refresh`, `World.act` — the script, one event at a time.
* `Move`, `Received` — what can happen to a world.

## Main results

* `after_invariant` — what every change keeps holds of every world.
-/

namespace GreyQueue.Dashboard

open Lib

/-- Why `api` throws: a reply that is not ok, no reply, or no token.  It returns a body of another
shape as it is, or `null`, and the caller throws where it uses it. -/
inductive Failure
  | refused (reply : Http.Reply)
  | network (message : String)
  | unconnected
  | unreadable

/-- `error.status`. -/
def Failure.status : Failure → Option ℕ
  | .refused reply => some reply.status
  | _ => none

/-- A failure of a refresh that does not take a coordinator. -/
def Failure.external : Failure → Bool
  | .refused reply => decide (reply.status ≠ 401)
  | .network _ => true
  | .unconnected | .unreadable => false

/-- The line under the header: a text, a new job, or a failure, and whether what is shown is
the last successful refresh. -/
inductive Notice
  | text (s : String)
  | submitted (body : Http.Body)
  | failure (e : Failure) (painted : Bool)

/-- When the statements of a reply were run: the number of steps that the coordinators had made,
for each statement. -/
structure Reading where
  position : ℕ → ℕ
  last : ℕ
  mono : Monotone position
  le_last : ∀ i, position i ≤ last

namespace Reading

/-- When the first statement was run. -/
def first (a : Reading) : ℕ := a.position 0

theorem first_le_last (a : Reading) : a.first ≤ a.last := a.le_last 0

/-- The statements were run in an interval. -/
def Within (a : Reading) (since now : ℕ) : Prop := since ≤ a.first ∧ a.last ≤ now

instance (a : Reading) (since now : ℕ) : Decidable (a.Within since now) :=
  inferInstanceAs (Decidable (since ≤ a.first ∧ a.last ≤ now))

theorem Within.mono {a : Reading} {since since' now now' : ℕ} (h : a.Within since now)
    (hsince : since' ≤ since) (hnow : now ≤ now') : a.Within since' now' :=
  ⟨hsince.trans h.1, h.2.trans hnow⟩

end Reading

/-- What a refresh has painted, and when it was read. -/
structure Shown where
  operations : Snapshot
  jobs : List JobOut
  filter : Option Status
  operationsAt : Reading
  jobsAt : Reading

/-- What the attempt inspector shows, and when it was read. -/
structure Inspected where
  job : JobOut
  attempts : List AttemptOut
  jobAt : Reading
  attemptsAt : Reading

/-- The buttons in the tables. -/
inductive Button
  | drain (workerId : String)
  | inspect (jobId : Uuid)
  | cancel (jobId : Uuid)
  deriving DecidableEq

/-- The buttons of the painted rows. -/
def Shown.buttons (s : Shown) : List Button :=
  (s.operations.workers.filter fun w => decide (w.state = .healthy ∨ w.state = .suspect)).map
      (fun w => .drain w.id) ++
    s.jobs.map (fun job => .inspect job.id) ++
    (s.jobs.filter fun job => job.status.waiting).map fun job => .cancel job.id

/-- The variables of the script and what the page shows; `none` is the generation `-1`. -/
structure Page where
  token : String := ""
  timer : Option ℕ := none
  busyGen : Option ℕ := none
  again : Bool := false
  generation : ℕ := 0
  okGen : Option ℕ := none
  depths : List ℕ := []
  filter : Option Status := none
  connection : String := "Disconnected"
  notice : Notice := .text ""
  shown : Option Shown := none
  inspect : Option Inspected := none
  stale : Bool := false

/-- A refresh that waits for its replies; `connecting` is the one that the handler of the
connect form waits for. -/
structure Refresh where
  /-- `current`. -/
  generation : ℕ
  /-- `state`. -/
  filter : Option Status
  token : String
  since : ℕ
  connecting : Bool

/-- A button or the submit form that waits for a reply; `none` is the form. -/
structure Pending where
  generation : ℕ
  button : Option Button
  token : String
  since : ℕ

/-- The page, its running intervals, what it waits for, and the steps of the coordinators.
The last two count steps: when the connection was made, and when a refresh was last asked for. -/
structure World where
  page : Page := {}
  timers : List ℕ := []
  intervals : ℕ := 0
  refreshes : List Refresh := []
  pending : List Pending := []
  steps : List Http.Step := []
  since : ℕ := 0
  asked : ℕ := 0

/-- `resetPanels`. -/
def Page.reset (p : Page) : Page :=
  { p with depths := [], shown := none, inspect := none, stale := false }

/-- The body of a reply that is ok. -/
def api (reply : Http.Reply) : Except Failure Http.Body :=
  if 200 ≤ reply.status ∧ reply.status ≤ 299 then .ok reply.body else .error (.refused reply)

namespace World

variable (w : World)

/-- The steps so far. -/
def now : ℕ := w.steps.length

/-- `clearInterval(timer)`. -/
def clearInterval : World :=
  { w with timers := w.timers.filter fun t => decide (some t ≠ w.page.timer) }

/-- `timer = setInterval(refresh, 2000)`. -/
def setInterval : World :=
  { w with
    page := { w.page with timer := some w.intervals }
    timers := w.timers ++ [w.intervals]
    intervals := w.intervals + 1 }

/-- `disconnect`. -/
def disconnect (message : String) : World :=
  let w := w.clearInterval
  { w with page := { w.page.reset with
      token := "", generation := w.page.generation + 1
      connection := "Disconnected", notice := .text message } }

/-- `refresh`, up to its replies. -/
def refresh (connecting : Bool) : World :=
  if w.page.token = "" then w
  else if w.page.busyGen = some w.page.generation then
    { w with page := { w.page with again := true }, asked := w.now }
  else
    { w with
      page := { w.page with busyGen := some w.page.generation, again := false }
      refreshes := w.refreshes ++
        [⟨w.page.generation, w.page.filter, w.page.token, w.now, connecting⟩]
      asked := w.now }

/-- The handler of the connect form; the form requires a token. -/
def connect (text : String) : World :=
  if text = "" then w
  else
    let w := w.clearInterval
    { w with
      page := { w.page.reset with
        token := text, generation := w.page.generation + 1, notice := .text ""
        connection := "Connecting…" }
      since := w.now }.refresh true

/-- The page with what a refresh has read. -/
def paint (s : Shown) : World :=
  { w with page := { w.page with
      notice := if w.page.stale then .text "" else w.page.notice
      okGen := some w.page.generation, connection := "Connected", stale := false
      shown := some s
      depths :=
        let depths := w.page.depths ++ [s.operations.queueDepth]
        if 60 < depths.length then depths.tail else depths } }

/-- The page after a refresh of its connection has failed. -/
def unavailable (e : Failure) : World :=
  let painted := decide (w.page.okGen = some w.page.generation)
  { w with page := { w.page with
      connection := "Connection unavailable"
      stale := w.page.stale || painted, notice := .failure e painted } }

/-- The `try` and `catch` of `refresh`, once its replies are there. -/
def receive (r : Refresh) : Except Failure Shown → World
  | .ok s =>
      if r.generation ≠ w.page.generation then w
      else if r.filter ≠ w.page.filter then { w with page := { w.page with again := true } }
      else w.paint s
  | .error e =>
      if r.generation ≠ w.page.generation then w
      else if e.status = some 401 then
        w.disconnect "The token was rejected. Connect again with a valid CLIENT_TOKEN."
      else w.unavailable e

/-- Refresh `i` is over. -/
def finished (i : ℕ) (r : Refresh) : World :=
  let busyGen := if w.page.busyGen = some r.generation then none else w.page.busyGen
  { w with page := { w.page with busyGen }, refreshes := w.refreshes.eraseIdx i }

/-- The `finally` of refresh `i`, which is over then. -/
def release (i : ℕ) (r : Refresh) : World :=
  let w := w.finished i r
  if w.page.again = true ∧ r.generation = w.page.generation then
    { w with page := { w.page with again := false } }.refresh false
  else w

/-- The replies of refresh `i` are there. -/
def settle (i : ℕ) (r : Refresh) (outcome : Except Failure Shown) : World :=
  let w := (w.receive r outcome).release i r
  -- the handler of the connect form goes on
  if r.connecting then w.setInterval else w

/-- A button has its reply: `action`, with what is left of it. -/
def complete (i : ℕ) (p : Pending) (outcome : Except Failure Notice) : World :=
  let w := { w with pending := w.pending.eraseIdx i }
  if p.generation ≠ w.page.generation then w
  else match outcome with
    | .ok n => { w with page := { w.page with notice := n } }.refresh false
    | .error e => { w with page := { w.page with notice := .failure e false } }

end World

/-- A request of the page. -/
def ask (c : Http.Coordinator) (token : String) (call : Http.Call) (feed : ℕ → Moment) :
    Http.Exchange :=
  ⟨c, some ("Bearer " ++ token), call, feed⟩

/-- What a button says when it is done. -/
def Button.done : Button → Notice
  | .drain _ => .text "Worker will finish active jobs and stop claiming."
  | .inspect _ => .text ""
  | .cancel _ => .text "Job cancelled."

/-- What happens to a world. -/
inductive Input
  | connect (text : String)
  | disconnect
  | tick (timer : ℕ)
  | setFilter (filter : Option Status)
  | click (button : Button)
  | submit
  | serve (s : Http.Step)
  /-- The replies of a refresh. -/
  | refreshed (i : ℕ) (operationsAt jobsAt : Reading) (feed : ℕ → Moment)
  | refreshFailed (i : ℕ) (e : Failure)
  /-- The replies of an inspection. -/
  | inspected (i : ℕ) (jobAt attemptsAt : Reading) (feed : ℕ → Moment)
  /-- The reply of a button that changes something, or of the form. -/
  | answered (i : ℕ) (reply : Http.Reply)
  | failed (i : ℕ) (e : Failure)

section Act

variable [Sha256] (c : Http.Coordinator)

/-- The listing that the page asks for. -/
def recent (filter : Option Status) : JobsQuery where
  limit := 30
  state := filter

/-- The database after some of the steps. -/
def seen (steps : List Http.Step) (n : ℕ) : Database := Http.served (steps.take n)

/-- What the statements see. -/
def Reading.see (a : Reading) (steps : List Http.Step) (i : ℕ) : Database :=
  seen steps (a.position i)

/-- What a refresh has read. -/
def Refresh.outcome (r : Refresh) (steps : List Http.Step) (operationsAt jobsAt : Reading)
    (feed : ℕ → Moment) : Except Failure Shown :=
  let operations := (ask c r.token .operations feed).replyOver (operationsAt.see steps)
  let jobs := (ask c r.token (.jobs (recent r.filter)) feed).replyOver (jobsAt.see steps)
  match api operations, api jobs with
  | .ok (.operations data), .ok (.jobs l) => .ok ⟨data, l, r.filter, operationsAt, jobsAt⟩
  | .error e, _ => .error e
  | _, .error e => .error e
  | _, _ => .error .unreadable

/-- What an inspection has read. -/
def Pending.inspected (p : Pending) (jobId : Uuid) (steps : List Http.Step)
    (jobAt attemptsAt : Reading) (feed : ℕ → Moment) : Except Failure Inspected :=
  let job := (ask c p.token (.job jobId) feed).replyOver (jobAt.see steps)
  let attempts := (ask c p.token (.attempts jobId) feed).replyOver (attemptsAt.see steps)
  match api job, api attempts with
  | .ok (.job e), .ok (.attempts l) => .ok ⟨e, l, jobAt, attemptsAt⟩
  | .error e, _ => .error e
  | _, .error e => .error e
  | _, _ => .error .unreadable

/-- A world after something has happened; what cannot happen changes nothing. -/
def World.act (w : World) : Input → World
  | .connect text => w.connect text
  | .disconnect =>
      if w.page.token = "" then w
      else w.disconnect "Disconnected. Displayed results were cleared."
  | .tick timer => if w.timers.any fun t => decide (t = timer) then w.refresh false else w
  | .setFilter filter => { w with page := { w.page with filter } }.refresh false
  | .click button =>
      if w.page.shown.any fun s => s.buttons.any fun b => decide (b = button) then
        { w with pending := w.pending ++
            [⟨w.page.generation, some button, w.page.token, w.now⟩] }
      else w
  | .submit =>
      if w.page.token = "" then
        { w with page := { w.page with notice := .failure .unconnected false } }
      else { w with pending := w.pending ++ [⟨w.page.generation, none, w.page.token, w.now⟩] }
  | .serve s => { w with steps := w.steps ++ [s] }
  | .refreshed i operationsAt jobsAt feed =>
      match w.refreshes[i]? with
      | some r =>
          if operationsAt.Within r.since w.now ∧ jobsAt.Within r.since w.now then
            w.settle i r (r.outcome c w.steps operationsAt jobsAt feed)
          else w
      | none => w
  | .refreshFailed i e =>
      match w.refreshes[i]? with
      | some r => if e.external then w.settle i r (.error e) else w
      | none => w
  | .inspected i jobAt attemptsAt feed =>
      match w.pending[i]? with
      | some p => match p.button with
        | some (.inspect jobId) =>
            if jobAt.Within p.since w.now ∧ attemptsAt.Within p.since w.now then
              match p.inspected c jobId w.steps jobAt attemptsAt feed with
              | .ok x =>
                  let w := { w with pending := w.pending.eraseIdx i }
                  if p.generation = w.page.generation then
                    { w with page := { w.page with inspect := some x } }
                  else w
              | .error e => w.complete i p (.error e)
            else w
        | _ => w
      | none => w
  | .answered i reply =>
      match w.pending[i]? with
      | some p => match p.button with
        | some (.inspect _) => w
        | some b => w.complete i p ((api reply).map fun _ => b.done)
        | none => w.complete i p ((api reply).map .submitted)
      | none => w
  | .failed i e =>
      match w.pending[i]? with
      | some p => w.complete i p (.error e)
      | none => w

/-- The world after some inputs. -/
def World.after (inputs : List Input) : World := inputs.foldl (World.act c) {}

end Act

/-! ## What can happen -/

section Moves

variable [Sha256] {c : Http.Coordinator} {w w' : World}

/-- What a refresh comes back with: what it read, or a failure. -/
def Refresh.Outcome (c : Http.Coordinator) (w : World) (r : Refresh)
    (o : Except Failure Shown) : Prop :=
  (∃ operationsAt jobsAt feed, operationsAt.Within r.since w.now ∧ jobsAt.Within r.since w.now ∧
    o = r.outcome c w.steps operationsAt jobsAt feed) ∨
  ∃ e, e.external = true ∧ o = .error e

/-- The changes of a world. -/
inductive Move (c : Http.Coordinator) (w : World) : World → Prop
  | stay : Move c w w
  | connect (text : String) (h : text ≠ "") : Move c w (w.connect text)
  | disconnect (message : String) : Move c w (w.disconnect message)
  | refresh (filter : Option Status) (notice : Notice) (pending : List Pending)
      (h : pending ⊆ w.pending) :
      Move c w ({ w with page := { w.page with filter, notice }, pending }.refresh false)
  | note (notice : Notice) (pending : List Pending) (h : pending ⊆ w.pending) :
      Move c w { w with page := { w.page with notice }, pending }
  | press (button : Option Button) (h : w.page.token ≠ "" ∨ w.page.shown.isSome = true) :
      Move c w { w with pending := w.pending ++
        [⟨w.page.generation, button, w.page.token, w.now⟩] }
  | serve (s : Http.Step) : Move c w { w with steps := w.steps ++ [s] }
  | settle (i : ℕ) (r : Refresh) (o : Except Failure Shown) (hr : w.refreshes[i]? = some r)
      (h : r.Outcome c w o) : Move c w (w.settle i r o)
  | inspect (p : Pending) (jobId : Uuid) (jobAt attemptsAt : Reading) (feed : ℕ → Moment)
      (x : Inspected) (pending : List Pending) (hp : p ∈ w.pending)
      (hg : p.generation = w.page.generation)
      (hjob : jobAt.Within p.since w.now) (hattempts : attemptsAt.Within p.since w.now)
      (hx : p.inspected c jobId w.steps jobAt attemptsAt feed = .ok x) (h : pending ⊆ w.pending) :
      Move c w { w with page := { w.page with inspect := some x }, pending }

/-- A button is done, or it failed, or its connection is gone. -/
theorem World.complete_move (w : World) (i : ℕ) (p : Pending) (o : Except Failure Notice) :
    Move c w (w.complete i p o) := by
  have hsub : w.pending.eraseIdx i ⊆ w.pending := (List.eraseIdx_sublist _ i).subset
  unfold complete
  by_cases hg : p.generation ≠ w.page.generation
  · rw [if_pos hg]
    exact .note w.page.notice _ hsub
  · rw [if_neg hg]
    cases o with
    | ok n => exact .refresh w.page.filter n _ hsub
    | error e => exact .note (.failure e false) _ hsub

/-- Every input is one of the changes. -/
theorem World.act_move (w : World) (input : Input) : Move c w (w.act c input) := by
  cases input with
  | connect text =>
      rw [act]
      by_cases h : text = ""
      · rw [connect, if_pos h]
        exact .stay
      · exact .connect text h
  | disconnect =>
      rw [act]
      split
      · exact .stay
      · exact .disconnect _
  | tick timer =>
      rw [act]
      split
      · exact .refresh w.page.filter w.page.notice w.pending (List.Subset.refl _)
      · exact .stay
  | setFilter filter => exact .refresh filter w.page.notice w.pending (List.Subset.refl _)
  | click button =>
      rw [act]
      split
      next h => exact .press (some button) (Or.inr (by cases hs : w.page.shown <;> simp_all))
      · exact .stay
  | submit =>
      rw [act]
      split
      · exact .note _ w.pending (List.Subset.refl _)
      next h => exact .press none (Or.inl h)
  | serve s => exact .serve s
  | refreshed i operationsAt jobsAt feed =>
      rw [act]
      cases hr : w.refreshes[i]? with
      | none => exact .stay
      | some r =>
          dsimp only
          split
          next h => exact .settle i r _ hr (Or.inl ⟨_, _, feed, h.1, h.2, rfl⟩)
          · exact .stay
  | refreshFailed i e =>
      rw [act]
      cases hr : w.refreshes[i]? with
      | none => exact .stay
      | some r =>
          dsimp only
          split
          next h => exact .settle i r _ hr (Or.inr ⟨e, h, rfl⟩)
          · exact .stay
  | inspected i jobAt attemptsAt feed =>
      rw [act]
      cases hp : w.pending[i]? with
      | none => exact .stay
      | some p =>
          dsimp only
          split
          next jobId _ =>
            split
            next hn =>
              have hsub : w.pending.eraseIdx i ⊆ w.pending := (List.eraseIdx_sublist _ i).subset
              split
              next x hx =>
                split
                next hg =>
                  have hmem := List.mem_of_getElem? hp
                  exact .inspect p jobId _ _ feed x _ hmem hg hn.1 hn.2 hx hsub
                · exact .note w.page.notice _ hsub
              next e _ => exact w.complete_move i p _
            · exact .stay
          · exact .stay
  | answered i reply =>
      rw [act]
      cases hp : w.pending[i]? with
      | none => exact .stay
      | some p =>
          dsimp only
          split
          · exact .stay
          · exact w.complete_move i p _
          · exact w.complete_move i p _
  | failed i e =>
      rw [act]
      cases hp : w.pending[i]? with
      | none => exact .stay
      | some p => exact w.complete_move i p _

/-- What every change keeps holds of every world. -/
theorem after_invariant {I : World → Prop} (h : I {})
    (hstep : ∀ w w', I w → Move c w w' → I w') (inputs : List Input) :
    I (World.after c inputs) := by
  induction inputs using List.reverseRecOn with
  | nil => exact h
  | append_singleton inputs input ih =>
      rw [World.after, List.foldl_append]
      exact hstep _ _ ih (World.act_move _ input)

omit [Sha256] in
/-- What becomes of the replies of a refresh. -/
inductive Received (w : World) (r : Refresh) : Except Failure Shown → World → Prop
  | late (o) (h : r.generation ≠ w.page.generation) : Received w r o w
  | changed (s : Shown) (h : r.generation = w.page.generation) :
      Received w r (.ok s) { w with page := { w.page with again := true } }
  | painted (s : Shown) (h : r.generation = w.page.generation) (hf : r.filter = w.page.filter) :
      Received w r (.ok s) (w.paint s)
  | rejected (e : Failure) (message : String) (h : r.generation = w.page.generation) :
      Received w r (.error e) (w.disconnect message)
  | failed (e : Failure) (h : r.generation = w.page.generation) :
      Received w r (.error e) (w.unavailable e)

omit [Sha256] in
theorem World.receive_received (w : World) (r : Refresh) (o : Except Failure Shown) :
    Received w r o (w.receive r o) := by
  cases o with
  | ok s =>
      rw [receive]
      by_cases hg : r.generation ≠ w.page.generation
      · rw [if_pos hg]
        exact .late _ hg
      rw [if_neg hg]
      by_cases hf : r.filter ≠ w.page.filter
      · rw [if_pos hf]
        exact .changed s (not_not.mp hg)
      · rw [if_neg hf]
        exact .painted s (not_not.mp hg) (not_not.mp hf)
  | error e =>
      rw [receive]
      by_cases hg : r.generation ≠ w.page.generation
      · rw [if_pos hg]
        exact .late _ hg
      rw [if_neg hg]
      by_cases he : e.status = some 401
      · rw [if_pos he]
        exact .rejected e _ (not_not.mp hg)
      · rw [if_neg he]
        exact .failed e (not_not.mp hg)

omit [Sha256] in
theorem World.receive_refreshes (w : World) (r : Refresh) (o : Except Failure Shown) :
    (w.receive r o).refreshes = w.refreshes := by
  have hreceived := w.receive_received r o
  generalize w.receive r o = w' at hreceived ⊢
  cases hreceived <;> rfl

omit [Sha256] in
/-- What a refresh that is over leaves: another one if it was asked for. -/
theorem World.release_cases (w : World) (i : ℕ) (r : Refresh) :
    (w.page.again = true ∧ r.generation = w.page.generation ∧ w.release i r =
      { w.finished i r with
        page := { (w.finished i r).page with again := false } }.refresh false) ∨
    (¬ (w.page.again = true ∧ r.generation = w.page.generation) ∧
      w.release i r = w.finished i r) := by
  by_cases h : w.page.again = true ∧ r.generation = w.page.generation
  · exact Or.inl ⟨h.1, h.2, if_pos h⟩
  · exact Or.inr ⟨h, if_neg h⟩

omit [Sha256] in
/-- What holds when a refresh is over, and of another one that follows it, holds once its
replies have been received. -/
theorem World.settle_of {P : World → Prop} (w : World) (i : ℕ) (r : Refresh)
    (o : Except Failure Shown) (hsame : P ((w.receive r o).finished i r))
    (hnext : r.generation = (w.receive r o).page.generation →
      P ({ (w.receive r o).finished i r with
        page := { ((w.receive r o).finished i r).page with again := false } }.refresh false))
    (hinterval : ∀ d : World, P d → P d.setInterval) : P (w.settle i r o) := by
  have hrelease : P ((w.receive r o).release i r) := by
    rcases (w.receive r o).release_cases i r with ⟨-, hg, heq⟩ | ⟨-, heq⟩ <;> rw [heq]
    · exact hnext hg
    · exact hsame
  unfold settle
  by_cases hc : r.connecting = true
  · rw [if_pos hc]
    exact hinterval _ hrelease
  · rw [if_neg hc]
    exact hrelease

end Moves

end GreyQueue.Dashboard
