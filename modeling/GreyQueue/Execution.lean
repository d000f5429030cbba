import GreyQueue.Outcome
import GreyQueue.WorkerLoop

/-!
# Bounded execution

Every claim id is drawn once, a claim is answered only by the attempt that was made under
its id, and a loop enters the executor at most once after a claim.  So an attempt is
executed at most once, whatever the network does.

## Main definitions

* `Ledger` — the invariant of the history.
* `SlotInv` — what the history says about a slot.
* `NetInv` — both, and no two slots hold one claim.

## Main results

* `NetInv.act` — every action keeps the invariant.
* `bounded_execution` — executions are bounded by attempts, and a success is the result of
  its own execution.
-/

namespace GreyQueue

open Lib

/-- The claim of a stage before the execution. -/
def Stage.pending : Stage → Option Uuid
  | .claiming c => some c
  | .starting x => some x.claimId
  | _ => none

/-- The assignment of a stage. -/
def Stage.assigned : Stage → Option Assigned
  | .starting x => some x
  | .executing x => some x
  | .finishing x _ _ => some x
  | _ => none

/-- The assignment of an execution. -/
def Execution.assigned (e : Execution) : Assigned := ⟨e.claimId, e.jobId, e.token⟩

variable [Sha256]

/-- The attempt of the assignment was made under its claim. -/
def Row (db : Database) (x : Assigned) : Prop :=
  ∃ b, db.attempts.find? x.token = some b ∧ b.claimId = x.claimId ∧ b.jobId = x.jobId

omit [Sha256] in
theorem Row.claim_eq {db : Database} {x y : Assigned} (hx : Row db x) (hy : Row db y)
    (h : x.token = y.token) : x.claimId = y.claimId := by
  obtain ⟨b, hb, hbx, -⟩ := hx
  obtain ⟨b', hb', hby, -⟩ := hy
  rw [h, hb', Option.some.injEq] at hb
  rw [← hbx, ← hby, hb]

omit [Sha256] in
/-- Attempts keep their claim. -/
theorem Row.later {db db' : Database} {x : Assigned} (h : Row db x) (hl : Later db db') :
    Row db' x := by
  obtain ⟨b, hb, hc, hj⟩ := h
  obtain ⟨b', hb', hl⟩ := hl.attempts _ b hb
  exact ⟨b', hb', by rw [hl.1]; exact hc, by rw [hl.1]; exact hj⟩

/-! ## The history -/

/-- The invariant of the history. -/
structure Ledger (h : History) : Prop where
  /-- What was served was sent. -/
  served : ∀ t ∈ h.txns, t.request ∈ h.sent
  /-- Only requests that were sent succeed. -/
  replied : ∀ i r, (i, .ok r) ∈ h.replies → i < h.sent.length
  /-- A claim is answered by the attempt made under its id. -/
  answered : ∀ i job a, (i, .ok (.assignment (some (job, a)))) ∈ h.replies →
    ∀ body c, h.sent[i]? = some (.claim body c) → Row h.db ⟨body.claimId, job.id, a.id⟩
  executed : ∀ e ∈ h.executions, Row h.db e.assigned ∧ e.claimId ∈ h.claims
  /-- No claim is executed twice. -/
  once : (h.executions.map Execution.claimId).Nodup
  /-- Executions return at most once. -/
  single : (h.returned.map Prod.fst).Nodup
  returns : ∀ k r, (k, r) ∈ h.returned → ∃ e ∈ h.executions, e.token = k
  /-- An output that is sent is the one that was returned. -/
  finishes : ∀ j body c, .finish j body c ∈ h.sent → ∀ o, body.output = some o →
    (body.token, .output o) ∈ h.returned

/-- What the history says about a slot. -/
structure SlotInv (h : History) (p : ℕ) (s : Fin 32) (slot : Slot) : Prop where
  /-- A slot waits for its own claim. -/
  awaited : ∀ c i, slot.stage = .claiming c → slot.ticket = some i →
    ∃ body cr, h.sent[i]? = some (.claim body cr) ∧ body.claimId = c
  assigned : ∀ x, slot.stage.assigned = some x → Row h.db x
  /-- A pending claim was drawn and not executed. -/
  drawn : ∀ c, slot.stage.pending = some c → c ∈ h.claims ∧ ∀ e ∈ h.executions, e.claimId ≠ c
  /-- An execution in progress is the slot's own. -/
  begun : ∀ x, slot.stage.renewed = some x → ⟨p, s, x.claimId, x.jobId, x.token⟩ ∈ h.executions
  /-- An execution in progress has not returned. -/
  silent : ∀ x, slot.stage = .executing x → ∀ r, (x.token, r) ∉ h.returned
  /-- An output that is being reported is the one that was returned. -/
  reported : ∀ x o second, slot.stage = .finishing x (.output o) second →
    (x.token, .output o) ∈ h.returned

/-- The invariant of the system. -/
structure NetInv (n : Net) : Prop where
  ledger : Ledger n.toHistory
  slot : ∀ p s, SlotInv n.toHistory p s (n.slots p s)
  /-- No two slots hold one claim. -/
  separate : ∀ p s p' s' c, (n.slots p s).stage.pending = some c →
    (n.slots p' s').stage.pending = some c → p = p' ∧ s = s'

variable {h : History} {p : ℕ} {s : Fin 32} {slot : Slot}

/-- A history that goes on: nothing is begun and nothing returns. -/
structure Extends (h h' : History) : Prop where
  sent : h.sent <+: h'.sent
  claims : h.claims ⊆ h'.claims
  db : Later h.db h'.db
  executions : h'.executions = h.executions
  returned : h'.returned = h.returned

theorem SlotInv.extends {h' : History} (hi : SlotInv h p s slot) (hext : Extends h h') :
    SlotInv h' p s slot where
  awaited := by
    intro c i hc ht
    obtain ⟨body, cr, hsent, hbody⟩ := hi.awaited c i hc ht
    obtain ⟨more, hmore⟩ := hext.sent
    refine ⟨body, cr, ?_, hbody⟩
    rw [← hmore, List.getElem?_append_left, hsent]
    exact (List.getElem?_eq_some_iff.mp hsent).1
  assigned := fun x hx => (hi.assigned x hx).later hext.db
  drawn := by
    intro c hc
    rw [hext.executions]
    exact ⟨hext.claims (hi.drawn c hc).1, (hi.drawn c hc).2⟩
  begun := by
    rw [hext.executions]
    exact hi.begun
  silent := by
    rw [hext.returned]
    exact hi.silent
  reported := by
    rw [hext.returned]
    exact hi.reported

/-- A request other than a finish with a fabricated output may be sent at any time. -/
theorem Ledger.send (hl : Ledger h) (r : Option Request)
    (hr : ∀ j body c, r = some (.finish j body c) → ∀ o, body.output = some o →
      (body.token, .output o) ∈ h.returned) :
    Ledger { h with sent := h.sent ++ r.toList } where
  served := fun t ht => List.mem_append_left _ (hl.served t ht)
  replied := by
    intro i a ha
    have := hl.replied i a ha
    simp only [List.length_append]
    omega
  answered := by
    intro i job a ha body c hsent
    rw [List.getElem?_append_left (hl.replied i _ ha)] at hsent
    exact hl.answered i job a ha body c hsent
  executed := hl.executed
  once := hl.once
  single := hl.single
  returns := hl.returns
  finishes := by
    intro j body c hmem o ho
    rcases List.mem_append.mp hmem with hmem | hmem
    · exact hl.finishes j body c hmem o ho
    · exact hr j body c (by simpa using hmem) o ho

theorem extends_send (h : History) (r : Option Request) :
    Extends h { h with sent := h.sent ++ r.toList } :=
  ⟨List.prefix_append _ _, List.Subset.refl _, .refl _, rfl, rfl⟩

/-- Failures may be answered at any time. -/
theorem Ledger.refuse (hl : Ledger h) (i status : ℕ) :
    Ledger { h with replies := h.replies ++ [(i, .error status)] } where
  served := hl.served
  replied := fun j r hr => hl.replied j r (by simpa using hr)
  answered := fun j job a ha => hl.answered j job a (by simpa using ha)
  executed := hl.executed
  once := hl.once
  single := hl.single
  returns := hl.returns
  finishes := hl.finishes

theorem later_serve (h : History) (t : Txn) :
    Later h.db { h with txns := h.txns ++ [t] }.db := run_later h.txns [t]

/-- A coordinator serves a request. -/
theorem Ledger.serve (hl : Ledger h) {i : ℕ} {t : Txn} (hi : h.sent[i]? = some t.request) :
    Ledger { h with
      txns := h.txns ++ [t]
      replies := h.replies ++ [(i, (t.answer h.db).mapError Error.status)] } where
  served := by
    intro u hu
    rcases List.mem_append.mp hu with hu | hu
    · exact hl.served u hu
    · rw [List.mem_singleton.mp hu]
      exact List.mem_of_getElem? hi
  replied := by
    intro j r hr
    rcases List.mem_append.mp hr with hr | hr
    · exact hl.replied j r hr
    · have hj : j = i := by simpa using congrArg Prod.fst (List.mem_singleton.mp hr)
      rw [hj]
      exact (List.getElem?_eq_some_iff.mp hi).1
  answered := by
    intro j job a ha body c hsent
    rcases List.mem_append.mp ha with ha | ha
    · exact (hl.answered j job a ha body c hsent).later (later_serve h t)
    · -- the reply just made
      have heq := List.mem_singleton.mp ha
      rw [Prod.mk.injEq] at heq
      obtain ⟨rfl, heq⟩ := heq
      rw [hi, Option.some.injEq] at hsent
      cases hans : t.answer h.db with
      | error e => simp [hans, Except.mapError] at heq
      | ok response =>
          simp only [hans, Except.mapError, Except.ok.injEq] at heq
          subst heq
          obtain ⟨-, hanswer⟩ := commit_answers (run_inv h.txns) hans
          rw [hsent] at hanswer
          obtain ⟨hb, hbc, -, -, -, hbj⟩ := hanswer
          refine ⟨a, ?_, hbc, hbj⟩
          rw [History.db, run_snoc]
          exact hb
  executed := fun e he => ⟨(hl.executed e he).1.later (later_serve h t), (hl.executed e he).2⟩
  once := hl.once
  single := hl.single
  returns := hl.returns
  finishes := hl.finishes

/-- A claim id is drawn. -/
theorem Ledger.draw (hl : Ledger h) (c : Uuid) : Ledger { h with claims := h.claims ++ [c] } :=
  { hl with
    executed := fun e he => ⟨(hl.executed e he).1, List.mem_append_left _ (hl.executed e he).2⟩ }

theorem extends_draw (h : History) (c : Uuid) : Extends h { h with claims := h.claims ++ [c] } :=
  ⟨List.prefix_refl _, fun _ hc => List.mem_append_left _ hc, .refl _, rfl, rfl⟩

/-- An execution begins under a claim that was not executed. -/
theorem Ledger.execute (hl : Ledger h) {e : Execution} (hrow : Row h.db e.assigned)
    (hdrawn : e.claimId ∈ h.claims) (hnew : ∀ e' ∈ h.executions, e'.claimId ≠ e.claimId) :
    Ledger { h with executions := h.executions ++ [e] } :=
  { hl with
    executed := by
      intro e' he'
      rcases List.mem_append.mp he' with he' | he'
      · exact hl.executed e' he'
      · rw [List.mem_singleton.mp he']
        exact ⟨hrow, hdrawn⟩
    once := by
      rw [List.map_append, List.map_singleton]
      refine hl.once.append (List.nodup_singleton _) ?_
      simpa [List.disjoint_singleton] using hnew
    returns := by
      intro k r hr
      obtain ⟨e', he', hk⟩ := hl.returns k r hr
      exact ⟨e', List.mem_append_left _ he', hk⟩ }

theorem SlotInv.execute (hi : SlotInv h p s slot) (e : Execution)
    (hne : slot.stage.pending ≠ some e.claimId) :
    SlotInv { h with executions := h.executions ++ [e] } p s slot :=
  { hi with
    drawn := by
      intro c hc
      refine ⟨(hi.drawn c hc).1, fun e' he' => ?_⟩
      rcases List.mem_append.mp he' with he' | he'
      · exact (hi.drawn c hc).2 e' he'
      · rw [List.mem_singleton.mp he']
        rintro rfl
        exact hne hc
    begun := fun x hx => List.mem_append_left _ (hi.begun x hx) }

/-- An execution returns, once. -/
theorem Ledger.return (hl : Ledger h) {k : Uuid} (r : Report)
    (hbegun : ∃ e ∈ h.executions, e.token = k) (hsilent : ∀ r, (k, r) ∉ h.returned) :
    Ledger { h with returned := h.returned ++ [(k, r)] } :=
  { hl with
    single := by
      rw [List.map_append, List.map_singleton]
      refine hl.single.append (List.nodup_singleton _) ?_
      simpa [List.disjoint_singleton] using hsilent
    returns := by
      intro k' r' hr
      rcases List.mem_append.mp hr with hr | hr
      · exact hl.returns k' r' hr
      · obtain ⟨rfl, rfl⟩ := Prod.mk.inj (List.mem_singleton.mp hr)
        exact hbegun
    finishes := fun j body c hmem o ho => List.mem_append_left _ (hl.finishes j body c hmem o ho) }

theorem SlotInv.return (hi : SlotInv h p s slot) {k : Uuid} (r : Report)
    (hne : ∀ x, slot.stage = .executing x → x.token ≠ k) :
    SlotInv { h with returned := h.returned ++ [(k, r)] } p s slot :=
  { hi with
    silent := by
      intro x hx r' hr
      rcases List.mem_append.mp hr with hr | hr
      · exact hi.silent x hx r' hr
      · exact hne x hx (congrArg Prod.fst (List.mem_singleton.mp hr))
    reported := fun x o second hx => List.mem_append_left _ (hi.reported x o second hx) }

/-! ## The system -/

/-- Only the stage and the request it waits for matter. -/
theorem SlotInv.congr {slot' : Slot} (hi : SlotInv h p s slot) (hstage : slot'.stage = slot.stage)
    (hticket : slot'.ticket = slot.ticket) : SlotInv h p s slot' where
  awaited := by rw [hstage, hticket]; exact hi.awaited
  assigned := by rw [hstage]; exact hi.assigned
  drawn := by rw [hstage]; exact hi.drawn
  begun := by rw [hstage]; exact hi.begun
  silent := by rw [hstage]; exact hi.silent
  reported := by rw [hstage]; exact hi.reported

/-- An idle slot holds nothing. -/
theorem SlotInv.idle (h : History) (p : ℕ) (s : Fin 32) : SlotInv h p s {} := by
  constructor <;> simp [Stage.pending, Stage.assigned, Stage.renewed]

namespace NetInv

variable {n n' : Net}

theorem empty : NetInv {} where
  ledger := by constructor <;> simp
  slot := fun p s => .idle _ p s
  separate := by simp [Stage.pending]

/-- The history goes on, and slots stay as they are or end. -/
theorem keep (hi : NetInv n) (hl : Ledger n'.toHistory)
    (hext : Extends n.toHistory n'.toHistory)
    (hslots : ∀ q s, n'.slots q s = {} ∨ ((n'.slots q s).stage = (n.slots q s).stage ∧
      (n'.slots q s).ticket = (n.slots q s).ticket)) : NetInv n' where
  ledger := hl
  slot := by
    intro q s
    rcases hslots q s with hs | ⟨hstage, hticket⟩
    · rw [hs]
      exact .idle _ q s
    · exact ((hi.slot q s).extends hext).congr hstage hticket
  separate := by
    intro q s q' s' c hc hc'
    have hold : ∀ q s, (n'.slots q s).stage.pending = some c →
        (n.slots q s).stage.pending = some c := by
      intro q s hc
      rcases hslots q s with hs | ⟨hstage, -⟩
      · simp [hs, Stage.pending] at hc
      · rw [← hstage]
        exact hc
    exact hi.separate q s q' s' c (hold q s hc) (hold q' s' hc')

theorem exit (hi : NetInv n) (p : ℕ) : NetInv (n.exit p) := by
  refine hi.keep hi.ledger ⟨List.prefix_refl _, List.Subset.refl _, .refl _, rfl, rfl⟩ ?_
  intro q s
  by_cases hq : q = p
  · exact Or.inl (by simp [Net.exit, hq])
  · exact Or.inr (by simp [Net.exit, Net.setPhase, hq])

omit [Sha256] in
/-- The slots after a loop has entered a stage. -/
theorem slots_enter (n : Net) (p q : ℕ) (reg : Registration) (slot s : Fin 32) (stage : Stage) :
    (n.enter p reg slot stage).slots q s = if q = p ∧ s = slot then
      { stage, ticket := (stage.request reg slot).map fun _ => n.sent.length }
      else n.slots q s := by
  by_cases hq : q = p
  · subst hq
    by_cases hs : s = slot
    · simp [Net.enter, hs]
    · simp [Net.enter, hs]
  · simp [Net.enter, hq]

omit [Sha256] in
/-- What a slot sends to finish is what its execution returned. -/
theorem request_finish {reg : Registration} {slot : Fin 32} {stage : Stage} {j : Uuid}
    {body : Completion} {c : Option String}
    (h : stage.request reg slot = some (.finish j body c)) {o : List (Text × Json)}
    (ho : body.output = some o) :
    ∃ x second, stage = .finishing x (.output o) second ∧ body.token = x.token := by
  cases stage with
  | finishing x report second =>
      simp only [Stage.request, Option.map_eq_some_iff, Request.finish.injEq] at h
      obtain ⟨body', hbody, -, rfl, -⟩ := h
      cases report with
      | output o' =>
          simp only [Report.completion] at hbody
          split at hbody
          · cases hbody
            simp only [Option.some.injEq] at ho
            subst ho
            exact ⟨x, second, rfl, rfl⟩
          · cases hbody
      | error e r =>
          simp only [Report.completion] at hbody
          split at hbody
          · cases hbody
            simp at ho
          · cases hbody
  | idle | claiming | starting | executing => simp [Stage.request] at h

/-- The loop enters a stage other than the execution. -/
theorem enter_of {p : ℕ} {reg : Registration} {slot : Fin 32} {stage : Stage}
    (hledger : Ledger n.toHistory)
    (hslots : ∀ q s, ¬ (q = p ∧ s = slot) → SlotInv n.toHistory q s (n.slots q s))
    (hseparate : ∀ q s q' s' c, (n.slots q s).stage.pending = some c →
      (n.slots q' s').stage.pending = some c → q = q' ∧ s = s')
    (hquiet : ∀ x, stage ≠ .executing x) (hnew : SlotInv n.toHistory p slot { stage })
    (hfree : ∀ c, stage.pending = some c → ∀ q s, (n.slots q s).stage.pending = some c →
      q = p ∧ s = slot) : NetInv (n.enter p reg slot stage) := by
  have hhistory : (n.enter p reg slot stage).toHistory =
      { n.toHistory with sent := n.sent ++ (stage.request reg slot).toList } := by
    cases stage with
    | executing x => exact absurd rfl (hquiet x)
    | idle | claiming | starting | finishing => rfl
  refine ⟨?_, fun q s => ?_, fun q s q' s' c hc hc' => ?_⟩
  · rw [hhistory]
    refine hledger.send _ fun j body c hreq o ho => ?_
    obtain ⟨x, second, hstage, htoken⟩ := request_finish hreq ho
    rw [htoken]
    exact hnew.reported x o second hstage
  · have hext := extends_send n.toHistory (stage.request reg slot)
    rw [hhistory, slots_enter]
    split
    · rename_i hqs
      obtain ⟨rfl, rfl⟩ := hqs
      have hgrown := hnew.extends hext
      refine { hgrown with awaited := ?_ }
      -- the claim it waits for is the one it has just sent
      intro c i hc ht
      obtain rfl : stage = .claiming c := hc
      obtain rfl : n.sent.length = i := by simpa [Stage.request] using ht
      exact ⟨{ workerId := reg.workerId, slot := s, claimId := c, slot_range := by omega },
        some reg.sessionToken, by simp [Stage.request], rfl⟩
    · rename_i hne
      exact (hslots q s hne).extends hext
  · -- another slot with the claim would have held it before
    rw [slots_enter] at hc hc'
    split at hc <;> split at hc'
    · rename_i hqs hqs'
      exact ⟨hqs.1.trans hqs'.1.symm, hqs.2.trans hqs'.2.symm⟩
    · rename_i hqs _
      obtain ⟨rfl, rfl⟩ := hqs
      obtain ⟨rfl, rfl⟩ := hfree c hc q' s' hc'
      exact ⟨rfl, rfl⟩
    · rename_i _ hqs
      obtain ⟨rfl, rfl⟩ := hqs
      exact hfree c hc' q s hc
    · exact hseparate q s q' s' c hc hc'

theorem enter (hi : NetInv n) {p : ℕ} {reg : Registration} {slot : Fin 32} {stage : Stage}
    (hquiet : ∀ x, stage ≠ .executing x) (hnew : SlotInv n.toHistory p slot { stage })
    (hfree : ∀ c, stage.pending = some c → ∀ q s, (n.slots q s).stage.pending = some c →
      q = p ∧ s = slot) : NetInv (n.enter p reg slot stage) :=
  enter_of hi.ledger (fun q s _ => hi.slot q s) hi.separate hquiet hnew hfree

/-- The loop calls the executor: its claim is spent. -/
theorem enter_executing (hi : NetInv n) {p : ℕ} {reg : Registration} {slot : Fin 32} {x : Assigned}
    (hstage : (n.slots p slot).stage = .starting x) :
    NetInv (n.enter p reg slot (.executing x)) := by
  have hold := hi.slot p slot
  have hpending : (n.slots p slot).stage.pending = some x.claimId := by rw [hstage]; rfl
  have hrow : Row n.db x := hold.assigned x (by rw [hstage]; rfl)
  obtain ⟨hdrawn, hunspent⟩ := hold.drawn _ hpending
  have hhistory : (n.enter p reg slot (.executing x)).toHistory = { n.toHistory with
      executions := n.executions ++ [⟨p, slot, x.claimId, x.jobId, x.token⟩] } := by
    simp [Net.enter, Stage.request]
  -- no other slot holds the claim
  have hother : ∀ q s, ¬ (q = p ∧ s = slot) →
      (n.slots q s).stage.pending ≠ some x.claimId := by
    intro q s hne hq
    exact hne (hi.separate q s p slot _ hq hpending)
  refine ⟨?_, fun q s => ?_, fun q s q' s' c hc hc' => ?_⟩
  · rw [hhistory]
    exact hi.ledger.execute hrow hdrawn hunspent
  · rw [hhistory, slots_enter]
    split
    · rename_i hqs
      obtain ⟨rfl, rfl⟩ := hqs
      refine ⟨?_, ?_, ?_, ?_, ?_, ?_⟩
      · simp
      · rintro y hy
        cases hy
        exact hrow
      · simp [Stage.pending]
      · rintro y hy
        cases hy
        simp
      · rintro y hy r hr
        cases hy
        -- what has returned was executed, under another claim
        obtain ⟨e, he, htoken⟩ := hi.ledger.returns _ r hr
        exact hunspent e he ((hi.ledger.executed e he).1.claim_eq hrow htoken)
      · simp
    · rename_i hne
      exact (hi.slot q s).execute _ (hother q s hne)
  · rw [slots_enter] at hc hc'
    split at hc
    · simp [Stage.pending] at hc
    · split at hc'
      · simp [Stage.pending] at hc'
      · exact hi.separate q s q' s' c hc hc'

theorem enter_idle (hi : NetInv n) (p : ℕ) (reg : Registration) (slot : Fin 32) :
    NetInv (n.enter p reg slot .idle) :=
  hi.enter (by simp) (.idle _ p slot) (by simp [Stage.pending])

/-- A claim is answered: its attempt is the one made under it. -/
theorem enter_starting (hi : NetInv n) {p : ℕ} {reg : Registration} {slot : Fin 32} {c : Uuid}
    (hstage : (n.slots p slot).stage = .claiming c) {i : ℕ}
    (hticket : (n.slots p slot).ticket = some i) {job : Job} {a : Attempt}
    (hreply : (i, .ok (.assignment (some (job, a)))) ∈ n.replies) :
    NetInv (n.enter p reg slot (.starting ⟨c, job.id, a.id⟩)) := by
  have hold := hi.slot p slot
  have hpending : (n.slots p slot).stage.pending = some c := by rw [hstage]; rfl
  obtain ⟨body, cr, hsent, rfl⟩ := hold.awaited c i hstage hticket
  have hrow := hi.ledger.answered i job a hreply body cr hsent
  refine hi.enter (by simp) ⟨by simp, ?_, ?_, by simp [Stage.renewed], by simp, by simp⟩ ?_
  · intro x hx
    cases hx
    exact hrow
  · intro c hc
    cases hc
    exact hold.drawn _ hpending
  · intro c hc q s hq
    cases hc
    exact hi.separate q s p slot _ hq hpending

/-- A result is reported, the executor's or the one that replaces it. -/
theorem enter_finishing (hi : NetInv n) {p : ℕ} {reg : Registration} {slot : Fin 32} {x : Assigned}
    (hstage : (n.slots p slot).stage.renewed = some x) {report : Report}
    (hreport : ∀ o, report = .output o → (x.token, .output o) ∈ n.returned) (second : Bool) :
    NetInv (n.enter p reg slot (.finishing x report second)) := by
  have hold := hi.slot p slot
  have hassigned : (n.slots p slot).stage.assigned = some x := by
    cases hs : (n.slots p slot).stage <;> simp_all [Stage.renewed, Stage.assigned]
  refine hi.enter (by simp) ⟨by simp, ?_, by simp [Stage.pending], ?_, by simp, ?_⟩
    (by simp [Stage.pending])
  · intro y hy
    cases hy
    exact hold.assigned x hassigned
  · intro y hy
    cases hy
    exact hold.begun x hstage
  · intro y o second' hy
    cases hy
    exact hreport o rfl

/-- The loop on the reply to its finish, or on its rejection. -/
theorem proceed_finishing (hi : NetInv n) {p : ℕ} (reg : Registration) {slot : Fin 32}
    {x : Assigned} {report : Report} {second : Bool}
    (hstage : (n.slots p slot).stage = .finishing x report second) (reply : Reply) :
    NetInv (n.proceed p reg slot ((Stage.finishing x report second).onReply reply)) := by
  have hrenewed : (n.slots p slot).stage.renewed = some x := by rw [hstage]; rfl
  cases reply with
  | ok response => exact hi.enter_idle p reg slot
  | error status =>
      cases second with
      | false =>
          simp only [Stage.onReply]
          split_ifs
          · exact hi.enter_finishing hrenewed (by simp [rejectedReport]) true
          · exact hi.enter_idle p reg slot
          · exact hi.exit p
      | true =>
          simp only [Stage.onReply]
          split_ifs
          · exact hi.enter_idle p reg slot
          · exact hi.exit p

/-- The loop on a final reply. -/
theorem proceed (hi : NetInv n) {p : ℕ} (reg : Registration) {slot : Fin 32} {reply : Reply} {i : ℕ}
    (hticket : (n.slots p slot).ticket = some i) (hreply : (i, reply) ∈ n.replies) :
    NetInv (n.proceed p reg slot ((n.slots p slot).stage.onReply reply)) := by
  cases hs : (n.slots p slot).stage with
  | idle => exact hi.exit p
  | executing x => exact hi.exit p
  | finishing x report second => exact hi.proceed_finishing reg hs reply
  | starting x =>
      cases reply with
      | ok response => exact hi.enter_executing hs
      | error status =>
          simp only [Stage.onReply]
          split_ifs
          · exact hi.enter_idle p reg slot
          · exact hi.exit p
  | claiming c =>
      cases reply with
      | error status =>
          simp only [Stage.onReply]
          split_ifs
          · exact hi.enter_idle p reg slot
          · exact hi.exit p
      | ok response =>
          cases response with
          | assignment item =>
              cases item with
              | none => exact hi.enter_idle p reg slot
              | some ja =>
                  obtain ⟨job, a⟩ := ja
                  exact hi.enter_starting hs hticket hreply
          | submitted | cancelled | state | registered | running | renewed | recorded
          | maintained =>
              exact hi.exit p

omit [Sha256] in
theorem mem_replies {ticket : Option ℕ} {i : ℕ} {reply : Reply}
    (h : n.replyTo ticket i = some reply) : ∃ t, ticket = some t ∧ (t, reply) ∈ n.replies := by
  unfold Net.replyTo at h
  split at h
  · rename_i t r hr
    split at h
    · rename_i hcond
      cases h
      exact ⟨t, hcond.1, List.mem_of_getElem? hr⟩
    · cases h
  · cases h

/-- The executor returns, and its report is sent. -/
theorem execute (hi : NetInv n) {p : ℕ} {reg : Registration} {slot : Fin 32} {x : Assigned}
    (hstage : (n.slots p slot).stage = .executing x) (report : Report) :
    NetInv { n.enter p reg slot (.finishing x report false) with
      returned := n.returned ++ [(x.token, report)] } := by
  have hold := hi.slot p slot
  have hbegun := hold.begun x (by rw [hstage]; rfl)
  -- nobody else executes the token
  have hother : ∀ q s, ¬ (q = p ∧ s = slot) → ∀ y, (n.slots q s).stage = .executing y →
      y.token ≠ x.token := by
    intro q s hne y hy htoken
    have hbegun' := (hi.slot q s).begun y (by rw [hy]; rfl)
    have hclaim := (hi.ledger.executed _ hbegun').1.claim_eq (hi.ledger.executed _ hbegun).1 htoken
    have := List.inj_on_of_nodup_map hi.ledger.once hbegun' hbegun hclaim
    exact hne ⟨congrArg Execution.process this, congrArg Execution.slot this⟩
  have hledger := hi.ledger.return report ⟨_, hbegun, rfl⟩ (hold.silent x hstage)
  refine enter_of (n := { n with returned := n.returned ++ [(x.token, report)] }) hledger
    (fun q s hne => (hi.slot q s).return report (hother q s hne)) hi.separate (by simp) ?_
    (by simp [Stage.pending])
  refine ⟨by simp, ?_, by simp [Stage.pending], ?_, by simp, ?_⟩
  · intro y hy
    cases hy
    exact hold.assigned x (by rw [hstage]; rfl)
  · intro y hy
    cases hy
    exact hbegun
  · intro y o second hy
    cases hy
    simp

/-- A slot claims under a fresh id. -/
theorem claim (hi : NetInv n) {p : ℕ} {reg : Registration} {slot : Fin 32} {c : Uuid}
    (hfresh : c ∉ n.claims) :
    NetInv { n.enter p reg slot (.claiming c) with claims := n.claims ++ [c] } := by
  have hdraw : NetInv { n with claims := n.claims ++ [c] } :=
    hi.keep (hi.ledger.draw c) (extends_draw _ c) fun _ _ => Or.inr ⟨rfl, rfl⟩
  have hnew : ∀ x, Stage.claiming c ≠ .executing x := by simp
  refine hdraw.enter hnew
    ⟨by simp, by simp [Stage.assigned], ?_, by simp [Stage.renewed], by simp, by simp⟩ ?_
  · intro c' hc'
    cases hc'
    refine ⟨by simp, fun e he hec => hfresh ?_⟩
    rw [← hec]
    exact (hi.ledger.executed e he).2
  · intro c' hc' q s hq
    cases hc'
    exact absurd ((hi.slot q s).drawn c hq).1 hfresh

/-- Phases do not matter. -/
theorem setPhase (hi : NetInv n) (p : ℕ) (phase : Phase) : NetInv (n.setPhase p phase) :=
  hi.keep hi.ledger ⟨List.prefix_refl _, List.Subset.refl _, .refl _, rfl, rfl⟩
    fun _ _ => Or.inr ⟨rfl, rfl⟩

/-- Every action keeps the invariant. -/
theorem act (hi : NetInv n) (a : Action) : NetInv (n.act a) := by
  -- a request that reports nothing is sent, and the slots stay as they are
  have hsend : ∀ (r : Request) (n' : Net), (∀ j body c, r ≠ .finish j body c) →
      n'.toHistory = { n.toHistory with sent := n.sent ++ [r] } →
      (∀ q s, (n'.slots q s).stage = (n.slots q s).stage ∧
        (n'.slots q s).ticket = (n.slots q s).ticket) → NetInv n' := by
    intro r n' hr hhistory hslots
    refine hi.keep ?_ ?_ fun q s => Or.inr (hslots q s)
    · rw [hhistory]
      exact hi.ledger.send (some r) fun j body c h => absurd (Option.some.inj h) (hr j body c)
    · rw [hhistory]
      exact extends_send n.toHistory (some r)
  cases a with
  | post r =>
      simp only [Net.act]
      split_ifs with hr
      · exact hsend r _ (by rintro j body c rfl; cases hr) rfl fun _ _ => ⟨rfl, rfl⟩
      · exact hi
  | launch reg => exact hsend (.register reg) _ (by simp) rfl fun _ _ => ⟨rfl, rfl⟩
  | serve i config feed =>
      simp only [Net.act]
      split
      · exact hi
      · rename_i r hr
        refine hi.keep (hi.ledger.serve (t := ⟨config, r, feed⟩) hr) ?_ fun _ _ => Or.inr ⟨rfl, rfl⟩
        exact ⟨List.prefix_refl _, List.Subset.refl _, run_later _ _, rfl, rfl⟩
  | refuse i status =>
      refine hi.keep (hi.ledger.refuse i status) ?_ fun _ _ => Or.inr ⟨rfl, rfl⟩
      exact ⟨List.prefix_refl _, List.Subset.refl _, .refl _, rfl, rfl⟩
  | registered p i =>
      simp only [Net.act]
      split
      · split
        · exact hi.setPhase p _
        · exact hi.exit p
        · exact hi
      · exact hi
  | heartbeat p =>
      simp only [Net.act]
      split
      · exact hsend _ _ (by simp) rfl fun _ _ => ⟨rfl, rfl⟩
      · exact hi
  | told p i =>
      simp only [Net.act]
      split
      · split
        · exact hi.setPhase p _
        · exact hi.setPhase p _
        · exact hi.exit p
        · exact hi
      · exact hi
  | claim p slot c =>
      simp only [Net.act]
      split
      · split
        · split_ifs with hcond
          · exact hi.claim hcond.1
          · exact hi
        · exact hi
      · exact hi
  | reply p slot i =>
      simp only [Net.act]
      split
      · rename_i hreply
        obtain ⟨t, ht, hmem⟩ := mem_replies hreply
        exact hi.proceed _ ht hmem
      · exact hi
  | renew p slot =>
      simp only [Net.act]
      split
      · refine hsend _ _ (by simp) rfl fun q s => ?_
        by_cases hq : q = p
        · subst hq
          by_cases hs : s = slot
          · simp [hs]
          · simp [hs]
        · simp [hq]
      · exact hi
  | renewal p slot i =>
      simp only [Net.act]
      split
      · split
        · exact hi.enter_idle p _ slot
        · exact hi
        · exact hi.exit p
      · exact hi
  | execute p slot report =>
      simp only [Net.act]
      split
      · rename_i hs
        exact hi.execute hs report
      · exact hi
  | reject p slot status =>
      simp only [Net.act]
      split
      · rename_i hs
        split_ifs
        · exact hi.proceed_finishing _ hs (.error status)
        · exact hi
      · exact hi
  | crash p => exact hi.exit p

theorem after (actions : List Action) : NetInv (Net.after actions) := by
  induction actions using List.reverseRecOn with
  | nil => exact .empty
  | append_singleton actions a ih =>
      rw [Net.after, List.foldl_append]
      exact ih.act a

end NetInv

/-! ## Executions -/

/-- No token is executed twice. -/
theorem Ledger.tokens_nodup (hl : Ledger h) : (h.executions.map Execution.token).Nodup := by
  refine List.Nodup.map_on (fun e he e' he' htoken => ?_) (List.Nodup.of_map _ hl.once)
  have hclaim := (hl.executed e he).1.claim_eq (hl.executed e' he').1 htoken
  exact List.inj_on_of_nodup_map hl.once he he' hclaim

/-- The executions of a job are executions of its attempts. -/
theorem Ledger.executions_le (hl : Ledger h) {job : Job} (hjob : job ∈ h.db.jobs.rows) :
    h.executions.countP (fun e => decide (e.jobId = job.id)) ≤ job.attemptCount := by
  have hj := (run_inv h.txns).job job (Table.find?_of_mem hjob)
  rw [List.countP_eq_length_filter, ← hj.length_eq, ← List.length_map Execution.token,
    ← List.length_map Attempt.id]
  refine (List.subperm_of_subset (hl.tokens_nodup.sublist (List.filter_sublist.map _)) ?_).length_le
  intro k hk
  obtain ⟨e, he, rfl⟩ := List.mem_map.mp hk
  obtain ⟨he, hej⟩ := List.mem_filter.mp he
  obtain ⟨b, hb, -, hbj⟩ := (hl.executed e he).1
  refine List.mem_map.mpr ⟨b, mem_attemptsOf.mpr ⟨Table.mem_of_find? hb, ?_⟩, Table.key_of_find? hb⟩
  exact hbj.trans (of_decide_eq_true hej)

/-- A success was returned by the execution of its own attempt. -/
theorem Ledger.success (hl : Ledger h) {a : Attempt} (ha : a ∈ h.db.attempts.rows)
    (ho : a.outcome = some .succeeded) :
    ∃ o, a.output = some (.obj o) ∧ (a.id, .output o) ∈ h.returned := by
  obtain ⟨v, ⟨pre, t, post, htxns, hcloses⟩, hv⟩ :=
    (run_reported h.txns).completed a ha (Or.inl ho)
  obtain ⟨jobId, body, c, hreq, htoken, hverdict, -⟩ := hcloses
  have hsent := hl.served t (by rw [htxns]; simp)
  rw [hreq] at hsent
  -- the completion carries an output, since the attempt shows a success
  cases v with
  | failure e r => simp [Attempt.Shows, ho] at hv
  | success output =>
      have hjson : body.error = none ∧ body.json = output := by
        unfold Completion.verdict at hverdict
        split at hverdict
        · rename_i he
          exact ⟨he, by simpa using hverdict⟩
        · cases hverdict
      cases hout : body.output with
      | none =>
          have := body.shape
          simp [hout, hjson.1] at this
      | some o =>
          refine ⟨o, ?_, htoken ▸ hl.finishes jobId body c hsent o hout⟩
          rw [hv.2, ← hjson.2, Completion.json, hout]
          rfl

/-- **Bounded execution.** Whatever the network, the processes and the coordinators do: the
executor is entered at most once for an attempt; so a job is executed at most as often as
it has attempts, which is at most once more than it may be retried; and the result of a
job that succeeded is what the executor returned, the one time that it did, in the
execution under the attempt with the highest fence. -/
theorem bounded_execution (actions : List Action) :
    ((Net.after actions).executions.map Execution.token).Nodup ∧
    (∀ job ∈ (Net.after actions).db.jobs.rows,
      (Net.after actions).executions.countP (fun e => decide (e.jobId = job.id)) ≤
        job.attemptCount ∧ job.attemptCount ≤ job.maxRetries + 1) ∧
    ∀ job ∈ (Net.after actions).db.jobs.rows, job.status = .succeeded →
      ∃ a o, Highest (Net.after actions).db job a ∧
        (∃ e ∈ (Net.after actions).executions, e.token = a.id ∧ e.jobId = job.id) ∧
        (∀ report, (a.id, report) ∈ (Net.after actions).returned ↔ report = .output o) ∧
        (Net.after actions).db.results.find? job.id = some ⟨job.id, some (.obj o), none⟩ := by
  have hl := (NetInv.after actions).ledger
  refine ⟨hl.tokens_nodup, fun job hjob => ⟨hl.executions_le hjob, ?_⟩, fun job hjob hs => ?_⟩
  · exact ((run_inv (Net.after actions).txns).job job (Table.find?_of_mem hjob)).bound
  · have hjob : (run (Net.after actions).txns).jobs.find? job.id = some job :=
      Table.find?_of_mem hjob
    obtain ⟨a, ha, ho⟩ := (succeeded_iff hjob).mp hs
    have hfit := run_fits hjob ha
    simp only [Fits, hs] at hfit
    obtain ⟨hrow, haj⟩ := mem_attemptsOf.mp ha.1
    obtain ⟨o, hout, hret⟩ := hl.success hrow ho
    obtain ⟨e, he, htoken⟩ := hl.returns _ _ hret
    obtain ⟨b, hb, -, hbj⟩ := (hl.executed e he).1
    have hba : b = a := Table.eq_of_key (Table.mem_of_find? hb) hrow
      ((Table.key_of_find? hb).trans htoken)
    refine ⟨a, o, ha, ⟨e, he, htoken, hbj.symm.trans (hba ▸ haj)⟩, fun report => ⟨fun hr => ?_, ?_⟩,
      ?_⟩
    · have := List.inj_on_of_nodup_map hl.single hr hret rfl
      exact congrArg Prod.snd this
    · rintro rfl
      exact hret
    · rw [← hout]
      exact hfit.2.2

-- one job, one process; the claim is delivered twice, and still one execution succeeds
omit [Sha256] in
example : letI := Sha256.tabulated []
    let n := Net.after [
      .post (.submit { task := "flaky", args := [(.ofString "failures", .int 0)] }),
      .serve 0 {} (.still 1),
      .launch { workerId := "w1", sessionToken := "first-process-session-token-00001" },
      .serve 1 {} (.still 2), .registered 0 1, .claim 0 0 7,
      .serve 2 {} (.still 3), .serve 2 {} (.still 4), .reply 0 0 2,
      .serve 3 {} (.still 5), .reply 0 0 4,
      .execute 0 0 (.output [(.ofString "attempt", .int 1)]),
      .serve 4 {} (.still 6), .reply 0 0 5]
    n.executions.length = 1 ∧ n.db.jobs.rows.map Job.status = [.succeeded] := by
  decide +kernel

end GreyQueue
