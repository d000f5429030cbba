import GreyQueue.Lib.Machine
import GreyQueue.Lib.Sequence

/-!
# Bounded requests

`middleware.py`: `BoundRequests.__call__` reads a whole request before it calls the app, and
replays what it has read.  The server, the middleware and the app run concurrently, so the call
is cut where it waits: the server completes a `receive` of whoever waits for one, the app calls
the receive that it was given or sends something, and the read deadline may pass.  The app may
call its receive at any time, also while earlier calls still wait.

A run is a path of the machine of these events.  What the server will deliver is a sequence
that may be finite or infinite.

## Main definitions

* `Exchange`, `exchange` — the state of a call, and the machine of its events.
* `Completes` — the request is complete before a disconnect and within the bound.
* `ExceedsAt`, `DisconnectsAt` — the message that ends the reading otherwise.

## Main results

* `request_buffering` — which requests reach the app, and what its receive returns.
* `called_or_answered` — a call never both calls the app and answers by itself.
-/

namespace GreyQueue.BoundRequests

open Lib

/-! ## Messages -/

/-- A message that `receive` returns, by the keys that are read; all but the first may be
missing. -/
structure Message where
  type : String
  body : Option (List UInt8) := none
  moreBody : Option Bool := none

/-- `message["type"] == "http.disconnect"`. -/
def Message.disconnects (m : Message) : Bool := m.type == "http.disconnect"

/-- `len(message.get("body", b""))`. -/
def Message.size (m : Message) : ℕ := (m.body.getD []).length

/-- `message.get("more_body", False)`. -/
def Message.more (m : Message) : Bool := m.moreBody.getD false

/-- What a server delivers over time. -/
abbrev Receives := Stream'.Seq Message

/-- The keys of `scope` that are read. -/
structure Scope where
  type : String
  scheme : String
  path : String

/-- A message that the app sends. -/
inductive SendMessage
  /-- `http.response.start`. -/
  | start (status : ℕ) (headers : List (String × String))
  | other (type : String) (body : List UInt8)

/-- What reaches the client: a message of the app, or a `JSONResponse` of the middleware. -/
inductive Sent
  | message (m : SendMessage)
  | json (status : ℕ) (detail : String)

/-- The content security policy of a path. -/
def policy (path : String) : String :=
  if path = "/docs" ∨ path = "/redoc" then
    "default-src 'self'; script-src 'self' 'unsafe-inline' https://cdn.jsdelivr.net; " ++
      "style-src 'self' 'unsafe-inline' https://cdn.jsdelivr.net; " ++
      "img-src 'self' data: https://fastapi.tiangolo.com; frame-ancestors 'none'"
  else "default-src 'self'; script-src 'self'; style-src 'self'; frame-ancestors 'none'"

/-- `traced`: the headers that are added to the start of a response; what is logged is left out. -/
def traced (scope : Scope) (requestId : String) : SendMessage → SendMessage
  | .start status headers => .start status (headers ++ [
      ("x-request-id", requestId), ("x-content-type-options", "nosniff"),
      ("cache-control", "no-store"), ("content-security-policy", policy scope.path)])
  | m => m

/-! ## One call -/

/-- A call of the middleware: its setting, the scope, the id that it draws, and what the server
will deliver. -/
structure Connection where
  requireTls : Bool
  scope : Scope
  requestId : String
  stream : Receives

/-- Where a call is. -/
inductive Phase
  /-- In the loop, with the messages so far and the bytes of their bodies. -/
  | reading (messages : List Message) (total : ℕ)
  /-- The app runs with `replay` and `traced`, and these messages are still buffered. -/
  | replaying (messages : List Message)
  /-- The app runs with the receive and the send of the server. -/
  | direct
  /-- The call has returned, and the app has not been called. -/
  | closed

/-- The state of a call. -/
structure Exchange where
  phase : Phase
  /-- The messages that the server has delivered. -/
  delivered : ℕ := 0
  /-- How often the app has been called. -/
  forwards : ℕ := 0
  /-- How often the app has called its receive. -/
  calls : ℕ := 0
  /-- The calls of the app that wait for the server. -/
  pending : ℕ := 0
  /-- What the calls of the app have returned. -/
  obtained : List Message := []
  /-- What has been sent to the client. -/
  sent : List Sent := []

/-- What can happen during a call. -/
inductive Event
  /-- The server completes a `receive` with its next message. -/
  | deliver
  /-- The read deadline passes. -/
  | timeout
  /-- The app calls its receive. -/
  | call
  /-- The app sends a message. -/
  | send (m : SendMessage)

/-- The bound on the bytes of a request. -/
def bodyLimit : ℕ := 131072

/-- The beginning of `__call__`, before it waits for the first time. -/
def Connection.begin (c : Connection) : Exchange :=
  if c.scope.type ≠ "http" then { phase := .direct, forwards := 1 }
  else if c.requireTls = true ∧ c.scope.scheme ≠ "https" ∧ c.scope.path ≠ "/health" then
    { phase := .closed, sent := [.json 426 "HTTPS required"] }
  else { phase := .reading [] 0 }

/-- A message arrives, in the loop or for a waiting call of the app. -/
def Exchange.onMessage (x : Exchange) (message : Message) : Exchange :=
  match x.phase with
  | .reading messages total =>
      if message.disconnects then { x with phase := .closed }
      else
        let total := total + message.size
        if bodyLimit < total then
          { x with phase := .closed, sent := x.sent ++ [.json 413 "Request too large"] }
        else
          let messages := messages ++ [message]
          if message.more then { x with phase := .reading messages total }
          else { x with phase := .replaying messages, forwards := x.forwards + 1 }
  | .replaying _ => { x with pending := x.pending - 1, obtained := x.obtained ++ [message] }
  | .direct => { x with pending := x.pending - 1, obtained := x.obtained ++ [message] }
  | .closed => x

/-- The app calls its receive: `replay` returns a buffered message at once, else it waits for
the server. -/
def Exchange.onCall (x : Exchange) : Exchange :=
  let x := { x with calls := x.calls + 1 }
  match x.phase with
  | .replaying (message :: messages) =>
      { x with phase := .replaying messages, obtained := x.obtained ++ [message] }
  | _ => { x with pending := x.pending + 1 }

/-- The app runs. -/
def Phase.runs : Phase → Bool
  | .replaying _ => true
  | .direct => true
  | _ => false

/-- The middleware reads. -/
def Phase.reads : Phase → Bool
  | .reading _ _ => true
  | _ => false

/-- When an event can happen. -/
def Event.guard (c : Connection) (x : Exchange) : Event → Prop
  | .deliver => (c.stream.get? x.delivered).isSome = true ∧
      (x.phase.reads = true ∨ (x.phase.runs = true ∧ 0 < x.pending))
  | .timeout => x.phase.reads = true
  | .call => x.phase.runs = true
  | .send _ => x.phase.runs = true

/-- What an event does. -/
def Event.effect (c : Connection) (x : Exchange) : Event → Exchange
  | .deliver =>
      match c.stream.get? x.delivered with
      | some message => { x.onMessage message with delivered := x.delivered + 1 }
      | none => x
  | .timeout =>
      { x with phase := .closed, sent := x.sent ++ [.json 408 "Request body timeout"] }
  | .call => x.onCall
  | .send m =>
      match x.phase with
      | .direct => { x with sent := x.sent ++ [.message m] }
      | _ => { x with sent := x.sent ++ [.message (traced c.scope c.requestId m)] }

/-- The machine of a call. -/
def exchange (c : Connection) : Machine Exchange Event :=
  ⟨fun e x => e.guard c x, fun e x => e.effect c x⟩

/-- A call in which the read deadline has not passed. -/
def Reached (c : Connection) (x : Exchange) : Prop :=
  ∃ events, (exchange c).Path events c.begin ∧ .timeout ∉ events ∧
    x = (exchange c).after events c.begin

/-! ## Which message decides -/

/-- The bytes of the bodies of the first `n` messages. -/
def Connection.total (c : Connection) (n : ℕ) : ℕ := ((c.stream.take n).map Message.size).sum

/-- The request is complete: the stream reaches a message without more body before any
disconnect, while the running total stays within the bound after every message. -/
def Completes (c : Connection) : Prop :=
  ∃ n, (∃ m, c.stream.get? n = some m ∧ m.more = false) ∧
    ∀ i ≤ n, ∀ m, c.stream.get? i = some m → m.disconnects = false ∧ c.total (i + 1) ≤ bodyLimit

/-- The first `n` messages leave the request open. -/
def Open (c : Connection) (n : ℕ) : Prop :=
  ∀ i < n, ∀ m, c.stream.get? i = some m →
    m.disconnects = false ∧ c.total (i + 1) ≤ bodyLimit ∧ m.more = true

/-- Message `n` completes the request. -/
def CompletesAt (c : Connection) (n : ℕ) : Prop :=
  Open c n ∧ ∃ m, c.stream.get? n = some m ∧ m.disconnects = false ∧
    c.total (n + 1) ≤ bodyLimit ∧ m.more = false

/-- The bound is exceeded first, by message `n`. -/
def ExceedsAt (c : Connection) (n : ℕ) : Prop :=
  Open c n ∧ ∃ m, c.stream.get? n = some m ∧ m.disconnects = false ∧ bodyLimit < c.total (n + 1)

/-- The disconnect comes first, as message `n`. -/
def DisconnectsAt (c : Connection) (n : ℕ) : Prop :=
  Open c n ∧ ∃ m, c.stream.get? n = some m ∧ m.disconnects = true

section Decisions

variable {c : Connection} {n k : ℕ} {m : Message}

theorem total_succ (h : c.stream.get? n = some m) : c.total (n + 1) = c.total n + m.size := by
  simp [Connection.total, take_succ h]

theorem Open.succ (h : Open c n) (hm : c.stream.get? n = some m) (hd : m.disconnects = false)
    (ht : c.total (n + 1) ≤ bodyLimit) (hmore : m.more = true) : Open c (n + 1) := by
  intro i hi m' hm'
  rcases Nat.lt_succ_iff_lt_or_eq.mp hi with hi | rfl
  · exact h i hi m' hm'
  · obtain rfl := Option.some.inj (hm.symm.trans hm')
    exact ⟨hd, ht, hmore⟩

theorem Open.mono (h : Open c n) (hk : k ≤ n) : Open c k := fun i hi => h i (by omega)

/-- The request is complete at a message that completes it, and only then. -/
theorem completes_iff : Completes c ↔ ∃ n, CompletesAt c n := by
  constructor
  · rintro ⟨n, hlast, hbefore⟩
    -- the first message without more body
    classical
    have hex : ∃ k, ∃ m, c.stream.get? k = some m ∧ m.more = false := ⟨n, hlast⟩
    have hle : Nat.find hex ≤ n := Nat.find_min' hex hlast
    obtain ⟨m, hm, hmore⟩ := Nat.find_spec hex
    obtain ⟨hd, ht⟩ := hbefore _ hle m hm
    refine ⟨Nat.find hex, fun i hi m' hm' => ?_, m, hm, hd, ht, hmore⟩
    obtain ⟨hd', ht'⟩ := hbefore i (by omega) m' hm'
    refine ⟨hd', ht', ?_⟩
    by_contra hmore'
    exact Nat.find_min hex hi ⟨m', hm', by simpa using hmore'⟩
  · rintro ⟨n, hopen, m, hm, hd, ht, hmore⟩
    refine ⟨n, ⟨m, hm, hmore⟩, fun i hi m' hm' => ?_⟩
    rcases Nat.lt_or_eq_of_le hi with hi | rfl
    · exact ⟨(hopen i hi m' hm').1, (hopen i hi m' hm').2.1⟩
    · obtain rfl := Option.some.inj (hm.symm.trans hm')
      exact ⟨hd, ht⟩

theorem CompletesAt.not_open (h : CompletesAt c n) : ¬ Open c (n + 1) := by
  obtain ⟨-, m, hm, -, -, hmore⟩ := h
  intro hopen
  have := (hopen n (Nat.lt_succ_self n) m hm).2.2
  simp [hmore] at this

theorem ExceedsAt.not_open (h : ExceedsAt c n) : ¬ Open c (n + 1) := by
  obtain ⟨-, m, hm, -, hlarge⟩ := h
  intro hopen
  have := (hopen n (Nat.lt_succ_self n) m hm).2.1
  omega

theorem DisconnectsAt.not_open (h : DisconnectsAt c n) : ¬ Open c (n + 1) := by
  obtain ⟨-, m, hm, hd⟩ := h
  intro hopen
  have := (hopen n (Nat.lt_succ_self n) m hm).1
  simp [hd] at this

/-- At most one message decides. -/
theorem decided_unique (h : Open c n) (hn : ¬ Open c (n + 1)) (h' : Open c k)
    (hk : ¬ Open c (k + 1)) : n = k := by
  rcases Nat.lt_trichotomy n k with hlt | heq | hlt
  · exact absurd (h'.mono hlt) hn
  · exact heq
  · exact absurd (h.mono hlt) hk

/-- A request that a message completes is not refused, -/
theorem CompletesAt.not_exceeds (h : CompletesAt c n) : ¬ ExceedsAt c k := by
  intro h'
  obtain rfl := decided_unique h.1 h.not_open h'.1 h'.not_open
  obtain ⟨-, m, -, -, hle, -⟩ := h
  obtain ⟨-, m', -, -, hlt⟩ := h'
  omega

/-- nor is it abandoned, -/
theorem CompletesAt.not_disconnects (h : CompletesAt c n) : ¬ DisconnectsAt c k := by
  intro h'
  obtain rfl := decided_unique h.1 h.not_open h'.1 h'.not_open
  obtain ⟨-, m, hm, hd, -⟩ := h
  obtain ⟨-, m', hm', hd'⟩ := h'
  obtain rfl := Option.some.inj (hm.symm.trans hm')
  exact Bool.false_ne_true (hd.symm.trans hd')

/-- and a refused one is not abandoned. -/
theorem ExceedsAt.not_disconnects (h : ExceedsAt c n) : ¬ DisconnectsAt c k := by
  intro h'
  obtain rfl := decided_unique h.1 h.not_open h'.1 h'.not_open
  obtain ⟨-, m, hm, hd, -⟩ := h
  obtain ⟨-, m', hm', hd'⟩ := h'
  obtain rfl := Option.some.inj (hm.symm.trans hm')
  exact Bool.false_ne_true (hd.symm.trans hd')

end Decisions

/-! ## App or answer -/

/-- The app has been called once and what was sent is its own, or it has not been called and the
middleware has answered at most once. -/
def Exclusive (x : Exchange) : Prop :=
  match x.phase with
  | .reading _ _ => x.forwards = 0 ∧ x.sent = []
  | .closed => x.forwards = 0 ∧ x.sent.length ≤ 1
  | _ => x.forwards = 1 ∧ ∀ s ∈ x.sent, ∃ m, s = .message m

theorem Exclusive.onMessage {x : Exchange} (h : Exclusive x) (m : Message) :
    Exclusive (x.onMessage m) := by
  cases hphase : x.phase with
  | reading messages total =>
      simp only [Exclusive, hphase] at h
      simp only [Exchange.onMessage, hphase]
      split_ifs <;> simp [Exclusive, h]
  | _ => simpa [Exclusive, Exchange.onMessage, hphase] using h

theorem Exclusive.onCall {x : Exchange} (h : Exclusive x) : Exclusive x.onCall := by
  cases hphase : x.phase with
  | replaying buffer =>
      cases buffer with
      | nil => simpa [Exclusive, Exchange.onCall, hphase] using h
      | cons m buffer => simpa [Exclusive, Exchange.onCall, hphase] using h
  | _ => simpa [Exclusive, Exchange.onCall, hphase] using h

theorem Exclusive.step {c : Connection} {x : Exchange} (h : Exclusive x) {e : Event}
    (hg : (exchange c).guard e x) : Exclusive ((exchange c).effect e x) := by
  cases e with
  | deliver =>
      obtain ⟨hnext, -⟩ := hg
      obtain ⟨m, hm⟩ := Option.isSome_iff_exists.mp hnext
      simp only [exchange, Event.effect, hm]
      exact h.onMessage m
  | timeout =>
      cases hphase : x.phase with
      | reading messages total =>
          simp only [Exclusive, hphase] at h
          simp [exchange, Event.effect, Exclusive, h]
      | _ => simp [exchange, Event.guard, Phase.reads, hphase] at hg
  | call => exact h.onCall
  | send m =>
      cases hphase : x.phase with
      | replaying buffer =>
          simp only [Exclusive, hphase] at h
          simpa [exchange, Event.effect, Exclusive, hphase, or_imp, forall_and] using h
      | direct =>
          simp only [Exclusive, hphase] at h
          simpa [exchange, Event.effect, Exclusive, hphase, or_imp, forall_and] using h
      | _ => simp [exchange, Event.guard, Phase.runs, hphase] at hg

/-- A call of any scope, with any deadline, calls the app or answers, and never does both. -/
theorem called_or_answered {c : Connection} {events : List Event}
    (hpath : (exchange c).Path events c.begin) :
    Exclusive ((exchange c).after events c.begin) := by
  refine hpath.invariant (I := Exclusive) (fun e _ x hg h => h.step hg) ?_
  unfold Connection.begin
  split_ifs <;> simp [Exclusive]

/-! ## Runs -/

/-- The states that a call with a satisfied TLS rule can reach before the read deadline. -/
inductive Sound (c : Connection) : Exchange → Prop
  /-- The loop waits for the next message. -/
  | reading (n : ℕ) (hopen : Open c n) :
      Sound c { phase := .reading (c.stream.take n) (c.total n), delivered := n }
  /-- The app has obtained and the buffer holds what the server has delivered, and calls wait
  for the server only when the buffer is empty. -/
  | replaying (n pending : ℕ) (buffer obtained : List Message) (sent : List Sent) {k : ℕ}
      (hk : CompletesAt c k) (hkn : k < n)
      (hsplit : obtained ++ buffer = c.stream.take n) (hlength : (c.stream.take n).length = n)
      (hpending : 0 < pending → buffer = []) (hbuffer : buffer ≠ [] → n = k + 1) :
      Sound c { phase := .replaying buffer, delivered := n, forwards := 1
                calls := obtained.length + pending, pending, obtained, sent }
  /-- The bound has been exceeded. -/
  | exceeded (n : ℕ) (h : ExceedsAt c n) :
      Sound c { phase := .closed, delivered := n + 1, sent := [.json 413 "Request too large"] }
  /-- The client has disconnected. -/
  | disconnected (n : ℕ) (h : DisconnectsAt c n) :
      Sound c { phase := .closed, delivered := n + 1 }

/-- A delivery in the loop. -/
theorem sound_read {c : Connection} {n : ℕ} {m : Message} (hopen : Open c n)
    (hm : c.stream.get? n = some m) :
    Sound c { Exchange.onMessage
        { phase := .reading (c.stream.take n) (c.total n), delivered := n } m with
      delivered := n + 1 } := by
  cases hd : m.disconnects with
  | true => simpa [Exchange.onMessage, hd] using Sound.disconnected n ⟨hopen, m, hm, hd⟩
  | false =>
      by_cases ht : bodyLimit < c.total n + m.size
      · rw [← total_succ hm] at ht
        have hsound := Sound.exceeded n ⟨hopen, m, hm, hd, ht⟩
        simpa [Exchange.onMessage, hd, ← total_succ hm, ht] using hsound
      · have hle : c.total (n + 1) ≤ bodyLimit := by
          rw [total_succ hm]
          omega
        cases hmore : m.more with
        | true =>
            have hsound := Sound.reading (n + 1) (hopen.succ hm hd hle hmore)
            rw [take_succ hm, total_succ hm] at hsound
            simpa [Exchange.onMessage, hd, ht, hmore] using hsound
        | false =>
            have hlength : (c.stream.take (n + 1)).length = n + 1 := by
              simp [take_succ hm, length_take hm]
            have hsound := Sound.replaying (n + 1) 0 (c.stream.take (n + 1)) [] []
              ⟨hopen, m, hm, hd, hle, hmore⟩ (Nat.lt_succ_self n) rfl hlength (by simp)
              (fun _ => rfl)
            rw [take_succ hm] at hsound
            simpa [Exchange.onMessage, hd, ht, hmore] using hsound

/-- Every event but the deadline leads to such a state again. -/
theorem Sound.step {c : Connection} {x : Exchange} (h : Sound c x) {e : Event}
    (he : e ≠ .timeout) (hg : (exchange c).guard e x) : Sound c ((exchange c).effect e x) := by
  cases e with
  | timeout => exact absurd rfl he
  | deliver =>
      obtain ⟨hnext, hwho⟩ := hg
      obtain ⟨m, hm⟩ := Option.isSome_iff_exists.mp hnext
      simp only [exchange, Event.effect, hm]
      cases h with
      | reading n hopen => exact sound_read hopen hm
      | replaying n pending buffer obtained sent hk hkn hsplit hlength hpending hbuffer =>
          -- a call waits, so the buffer is empty and the app obtains the next message
          have hwait : 0 < pending := by simpa [Phase.reads, Phase.runs] using hwho
          obtain rfl := hpending hwait
          have hsound := Sound.replaying (n + 1) (pending - 1) [] (obtained ++ [m]) sent hk
            (by omega) (by rw [take_succ hm, ← hsplit]; simp)
            (by simp [take_succ hm, hlength]) (fun _ => rfl) (fun hne => absurd rfl hne)
          have hcalls : (obtained ++ [m]).length + (pending - 1) = obtained.length + pending := by
            simp only [List.length_append, List.length_singleton]
            omega
          rwa [hcalls] at hsound
      | exceeded n h => simp [Phase.reads, Phase.runs] at hwho
      | disconnected n h => simp [Phase.reads, Phase.runs] at hwho
  | call =>
      cases h with
      | replaying n pending buffer obtained sent hk hkn hsplit hlength hpending hbuffer =>
          cases buffer with
          | nil =>
              exact .replaying n (pending + 1) [] obtained sent hk hkn hsplit hlength
                (fun _ => rfl) hbuffer
          | cons m buffer =>
              -- no call waits while the buffer holds a message
              have hnone : pending = 0 := by
                by_contra hpos
                exact absurd (hpending (Nat.pos_of_ne_zero hpos)) (List.cons_ne_nil m buffer)
              subst hnone
              have hsound := Sound.replaying n 0 buffer (obtained ++ [m]) sent hk hkn
                (by simpa using hsplit) hlength (by simp)
                (fun _ => hbuffer (List.cons_ne_nil m buffer))
              simpa [exchange, Event.effect, Exchange.onCall] using hsound
      | _ => cases hg
  | send m =>
      cases h with
      | replaying n pending buffer obtained sent hk hkn hsplit hlength hpending hbuffer =>
          exact .replaying n pending buffer obtained _ hk hkn hsplit hlength hpending hbuffer
      | _ => cases hg

section Transparency

variable {c : Connection} {x : Exchange} {n : ℕ}

theorem sound_begin (hhttp : c.scope.type = "http")
    (htls : c.requireTls = true → c.scope.scheme = "https" ∨ c.scope.path = "/health") :
    Sound c c.begin := by
  have hrule : ¬ (c.requireTls = true ∧ c.scope.scheme ≠ "https" ∧ c.scope.path ≠ "/health") := by
    rintro ⟨hrequire, hscheme, hpath⟩
    exact (htls hrequire).elim hscheme hpath
  have hbegin : c.begin = { phase := .reading (c.stream.take 0) (c.total 0), delivered := 0 } := by
    rw [Connection.begin, if_neg (not_not.mpr hhttp), if_neg hrule]
    rfl
  rw [hbegin]
  exact .reading 0 fun i hi => absurd hi (Nat.not_lt_zero i)

theorem Reached.sound (hx : Reached c x) (hbegin : Sound c c.begin) : Sound c x := by
  obtain ⟨events, hpath, hno, rfl⟩ := hx
  exact hpath.invariant (I := Sound c)
    (fun e he x hg hs => hs.step (fun heq => hno (heq ▸ he)) hg) hbegin

theorem Reached.deliver (hx : Reached c x) (hg : (exchange c).guard .deliver x) :
    Reached c ((exchange c).effect .deliver x) := by
  obtain ⟨events, hpath, hno, rfl⟩ := hx
  refine ⟨events ++ [.deliver], ?_, ?_, by simp⟩
  · rw [Machine.path_append]
    exact ⟨hpath, hg, trivial⟩
  · simpa using hno

/-- The loop waits for a message that the server has: nothing has been answered, the app has not
been called, and nothing but the delivery and the deadline can happen. -/
structure Awaits (c : Connection) (x : Exchange) : Prop where
  forwards : x.forwards = 0
  sent : x.sent = []
  deliver : (exchange c).guard .deliver x
  waits : ∀ e, (exchange c).guard e x → e = .deliver ∨ e = .timeout

/-- What the app of a complete request obtains. -/
structure Transparent (c : Connection) (x : Exchange) : Prop where
  /-- The messages of the stream, in order. -/
  obtained : x.obtained = c.stream.take x.obtained.length
  /-- The server delivers only to the loop and, once the buffer is empty, to the app. -/
  handover : ∀ n, CompletesAt c n → x.delivered = max (n + 1) x.obtained.length
  /-- It can always call its receive. -/
  callable : (exchange c).guard .call x
  /-- Deliveries give its calls as many messages of the stream as there are calls. -/
  answered : ∃ k, (exchange c).Path (List.replicate k .deliver) x ∧
    ((exchange c).after (List.replicate k .deliver) x).obtained = c.stream.take x.calls

/-- Until the deciding message arrives, the loop waits for the next one. -/
theorem Sound.awaits (h : Sound c x) (hopen : Open c n) (hlast : ¬ Open c (n + 1))
    {m : Message} (hm : c.stream.get? n = some m) (hx : ¬ n < x.delivered) : Awaits c x := by
  cases h with
  | reading k hk =>
      obtain ⟨m', hm'⟩ := Stream'.Seq.ge_stable c.stream (not_lt.mp hx) hm
      refine ⟨rfl, rfl, ⟨by simp [hm'], .inl rfl⟩, fun e he => ?_⟩
      cases e with
      | deliver => exact .inl rfl
      | timeout => exact .inr rfl
      | _ => cases he
  | replaying l pending buffer obtained sent hk hkl hsplit hlength hpending hbuffer =>
      obtain rfl := decided_unique hopen hlast hk.1 hk.not_open
      exact absurd hkl hx
  | exceeded k hk =>
      obtain rfl := decided_unique hopen hlast hk.1 hk.not_open
      exact absurd (Nat.lt_succ_self n) hx
  | disconnected k hk =>
      obtain rfl := decided_unique hopen hlast hk.1 hk.not_open
      exact absurd (Nat.lt_succ_self n) hx

/-- The deciding message does arrive. -/
theorem reached_decision (hbegin : Sound c c.begin) (hopen : Open c n)
    (hlast : ¬ Open c (n + 1)) {m : Message} (hm : c.stream.get? n = some m) :
    ∃ x, Reached c x ∧ n < x.delivered := by
  suffices hall : ∀ k ≤ n + 1, ∃ x, Reached c x ∧ k ≤ x.delivered from hall (n + 1) le_rfl
  intro k
  induction k with
  | zero => exact fun _ => ⟨c.begin, ⟨[], trivial, by simp, rfl⟩, Nat.zero_le _⟩
  | succ k ih =>
      intro hk
      obtain ⟨x, hx, hkx⟩ := ih (by omega)
      by_cases hdone : n < x.delivered
      · exact ⟨x, hx, by omega⟩
      · have hg := ((hx.sound hbegin).awaits hopen hlast hm hdone).deliver
        refine ⟨_, hx.deliver hg, ?_⟩
        obtain ⟨m', hm'⟩ := Option.isSome_iff_exists.mp hg.1
        have heffect : ((exchange c).effect .deliver x).delivered = x.delivered + 1 := by
          simp [exchange, Event.effect, hm']
        omega

theorem onMessage_of_runs (hrun : x.phase.runs = true) (m : Message) :
    x.onMessage m = { x with pending := x.pending - 1, obtained := x.obtained ++ [m] } := by
  cases hphase : x.phase with
  | replaying buffer => simp [Exchange.onMessage, hphase]
  | direct => simp [Exchange.onMessage, hphase]
  | _ => simp [hphase, Phase.runs] at hrun

/-- Every call of the app is answered while the stream goes on, by induction on the calls that
wait. -/
theorem Sound.answered (h : Sound c x) (hrun : x.phase.runs = true) :
    ∃ k, (exchange c).Path (List.replicate k .deliver) x ∧
      ((exchange c).after (List.replicate k .deliver) x).obtained = c.stream.take x.calls := by
  induction hwait : x.pending generalizing x with
  | zero =>
      cases h with
      | replaying n pending buffer obtained sent hk hkn hsplit hlength hpending hbuffer =>
          obtain rfl : pending = 0 := hwait
          exact ⟨0, trivial, eq_take_of_append hsplit⟩
      | _ => cases hrun
  | succ waiting ih =>
      cases hnext : c.stream.get? x.delivered with
      | none =>
          cases h with
          | replaying n pending buffer obtained sent hk hkn hsplit hlength hpending hbuffer =>
              obtain rfl : pending = waiting + 1 := hwait
              obtain rfl := hpending (Nat.succ_pos waiting)
              rw [List.append_nil] at hsplit
              refine ⟨0, trivial, ?_⟩
              have hn : n ≤ obtained.length + (waiting + 1) := by
                rw [hsplit, hlength]
                exact Nat.le_add_right n _
              exact hsplit.trans (take_of_end hnext hn).symm
          | _ => cases hrun
      | some m =>
          have hg : (exchange c).guard .deliver x := ⟨by simp [hnext], .inr ⟨hrun, by omega⟩⟩
          have heffect : (exchange c).effect .deliver x =
              { x with delivered := x.delivered + 1, pending := x.pending - 1
                       obtained := x.obtained ++ [m] } := by
            simp [exchange, Event.effect, hnext, onMessage_of_runs hrun]
          have hsound := h.step (by simp) hg
          rw [heffect] at hsound
          obtain ⟨k, hpath, hobtained⟩ := ih hsound hrun (Nat.pred_eq_of_eq_succ hwait)
          rw [← heffect] at hpath
          refine ⟨k + 1, ⟨hg, hpath⟩, Eq.trans ?_ hobtained⟩
          rw [List.replicate_succ, Machine.after_cons, heffect]

/-- The app is called at most once, and what it obtains is the stream. -/
theorem Sound.transparent (h : Sound c x) :
    x.forwards = 0 ∨ x.forwards = 1 ∧ Transparent c x := by
  have hs := h
  cases h with
  | replaying n pending buffer obtained sent hk hkn hsplit hlength hpending hbuffer =>
      refine .inr ⟨rfl, eq_take_of_append hsplit, fun i hi => ?_, rfl, hs.answered rfl⟩
      obtain rfl := decided_unique hi.1 hi.not_open hk.1 hk.not_open
      have hle : obtained.length + buffer.length = n := by
        rw [← List.length_append, hsplit, hlength]
      cases buffer with
      | nil =>
          change n = max (i + 1) obtained.length
          rw [List.length_nil] at hle
          rw [Nat.max_eq_right (by omega)]
          exact hle.symm
      | cons m buffer =>
          obtain rfl : n = i + 1 := hbuffer (List.cons_ne_nil m buffer)
          change i + 1 = max (i + 1) obtained.length
          exact (Nat.max_eq_left (by omega)).symm
  | _ => exact .inl rfl

/-- Before the deciding message nothing has been answered, and the app has not been called. -/
theorem Sound.unanswered (h : Sound c x) (hx : Open c x.delivered) :
    x.forwards = 0 ∧ x.sent = [] := by
  cases h with
  | reading n hopen => exact ⟨rfl, rfl⟩
  | replaying n pending buffer obtained sent hk hkn hsplit hlength hpending hbuffer =>
      exact absurd (hx.mono hkn) hk.not_open
  | exceeded n h => exact absurd hx h.not_open
  | disconnected n h => exact absurd hx h.not_open

theorem Sound.completed (h : Sound c x) (hn : CompletesAt c n) (hx : n < x.delivered) :
    x.forwards = 1 := by
  cases h with
  | reading k hopen => exact absurd (hopen.mono hx) hn.not_open
  | replaying k pending buffer obtained sent hk hkn hsplit hlength hpending hbuffer => rfl
  | exceeded k hk => exact absurd hk hn.not_exceeds
  | disconnected k hk => exact absurd hk hn.not_disconnects

theorem Sound.refused (h : Sound c x) (hn : ExceedsAt c n) (hx : n < x.delivered) :
    x.forwards = 0 ∧ x.sent = [.json 413 "Request too large"] := by
  cases h with
  | reading k hopen => exact absurd (hopen.mono hx) hn.not_open
  | replaying k pending buffer obtained sent hk hkn hsplit hlength hpending hbuffer =>
      exact absurd hn hk.not_exceeds
  | exceeded k hk => exact ⟨rfl, rfl⟩
  | disconnected k hk => exact absurd hk hn.not_disconnects

theorem Sound.abandoned (h : Sound c x) (hn : DisconnectsAt c n) (hx : n < x.delivered) :
    x.forwards = 0 ∧ x.sent = [] := by
  cases h with
  | reading k hopen => exact absurd (hopen.mono hx) hn.not_open
  | replaying k pending buffer obtained sent hk hkn hsplit hlength hpending hbuffer =>
      exact absurd hn hk.not_disconnects
  | exceeded k hk => exact absurd hn hk.not_disconnects
  | disconnected k hk => exact ⟨rfl, rfl⟩

/-- A called app belongs to a complete request. -/
theorem Sound.completes (h : Sound c x) (hx : x.forwards = 1) : ∃ n, CompletesAt c n := by
  cases h with
  | replaying n pending buffer obtained sent hk hkn hsplit hlength hpending hbuffer =>
      exact ⟨_, hk⟩
  | _ => cases hx

end Transparency

/-! ## The buffering -/

/-- Over every finite or infinite stream of messages of an http request whose TLS rule is
satisfied, and in every state before the read deadline: the app is called for exactly the
complete requests; what its receive returns is the stream, in order, and deliveries alone give
any number of its calls that many messages; and once the deciding message has arrived, a request
that exceeds the bound first has been answered by one 413, and one with the disconnect first by
nothing.  Before that, the loop waits for the next message and nothing has been answered. -/
theorem request_buffering (c : Connection) (hhttp : c.scope.type = "http")
    (htls : c.requireTls = true → c.scope.scheme = "https" ∨ c.scope.path = "/health") :
    ((∃ x, Reached c x ∧ x.forwards = 1) ↔ Completes c) ∧
    ∀ x, Reached c x →
      (x.forwards = 0 ∨ x.forwards = 1 ∧ Transparent c x) ∧
      (∀ n, CompletesAt c n → if n < x.delivered then x.forwards = 1 else Awaits c x) ∧
      (∀ n, ExceedsAt c n → if n < x.delivered
        then x.forwards = 0 ∧ x.sent = [.json 413 "Request too large"] else Awaits c x) ∧
      (∀ n, DisconnectsAt c n → if n < x.delivered
        then x.forwards = 0 ∧ x.sent = [] else Awaits c x) ∧
      (Open c x.delivered → x.forwards = 0 ∧ x.sent = []) := by
  have hbegin := sound_begin hhttp htls
  refine ⟨?_, fun x hx => ?_⟩
  · rw [completes_iff]
    constructor
    · rintro ⟨x, hx, hone⟩
      exact (hx.sound hbegin).completes hone
    · rintro ⟨n, hn⟩
      obtain ⟨-, m, hm, -⟩ := id hn
      obtain ⟨x, hx, hlt⟩ := reached_decision hbegin hn.1 hn.not_open hm
      exact ⟨x, hx, (hx.sound hbegin).completed hn hlt⟩
  · have h := hx.sound hbegin
    refine ⟨h.transparent, fun n hn => ?_, fun n hn => ?_, fun n hn => ?_, h.unanswered⟩
    · split
      case isTrue hlt => exact h.completed hn hlt
      case isFalse hlt =>
        obtain ⟨-, m, hm, -⟩ := id hn
        exact h.awaits hn.1 hn.not_open hm hlt
    · split
      case isTrue hlt => exact h.refused hn hlt
      case isFalse hlt =>
        obtain ⟨-, m, hm, -⟩ := id hn
        exact h.awaits hn.1 hn.not_open hm hlt
    · split
      case isTrue hlt => exact h.abandoned hn hlt
      case isFalse hlt =>
        obtain ⟨-, m, hm, -⟩ := id hn
        exact h.awaits hn.1 hn.not_open hm hlt

/-- A request in two chunks; the second has neither a body nor a flag. -/
def chunked : Connection where
  requireTls := true
  scope := ⟨"http", "https", "/tasks"⟩
  requestId := "5f0c"
  stream := .ofList [⟨"http.request", some [123, 125], some true⟩, ⟨"http.request", none, none⟩]

theorem request_buffering_chunked : ∃ x, Reached chunked x ∧ x.forwards = 1 := by
  refine (request_buffering chunked rfl fun _ => .inl rfl).1.mpr ⟨1, ⟨_, rfl, rfl⟩, ?_⟩
  intro i hi m hm
  rcases Nat.le_one_iff_eq_zero_or_eq_one.mp hi with rfl | rfl
  · obtain rfl := Option.some.inj hm
    decide
  · obtain rfl := Option.some.inj hm
    decide

end GreyQueue.BoundRequests
