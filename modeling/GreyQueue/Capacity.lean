import GreyQueue.Observability
import GreyQueue.Takeover

/-!
# Slots and capacity

The open attempts of a worker occupy distinct slots.  A claim checks its slot against the
capacity of the worker row, but a takeover sets a new capacity without a look at the open
attempts: they stay within it exactly when no takeover is smaller than a slot in use.

## Main definitions

* `Roomy` — every open attempt has a slot within the capacity of its worker.
* `KeepsRoom` — a takeover leaves room for the open attempts of the worker.

## Main results

* `slot_capacity` — the bound holds along a run exactly when every takeover keeps room.
-/

namespace GreyQueue

open Lib
open Lib.Prog (Sat sat_bind)

/-- The open attempts of a worker. -/
def openOf (db : Database) (workerId : String) : List Attempt :=
  db.attempts.rows.filter fun a => a.isOpen && decide (a.workerId = workerId)

theorem mem_openOf {db : Database} {k : String} {a : Attempt} :
    a ∈ openOf db k ↔ a ∈ db.attempts.rows ∧ a.finishedAt = none ∧ a.workerId = k := by
  simp [openOf, Attempt.isOpen]

/-- The open attempts of a worker occupy distinct slots. -/
theorem Inv.nodup_slots {db : Database} (h : Inv db) (k : String) :
    ((openOf db k).map Attempt.slot).Nodup := by
  have hrows : db.attempts.rows.Nodup := List.Nodup.of_map _ db.attempts.nodup
  refine List.Nodup.map_on ?_ (hrows.filter _)
  intro a ha b hb hslot
  obtain ⟨ha, hao, haw⟩ := mem_openOf.mp ha
  obtain ⟨hb, hbo, hbw⟩ := mem_openOf.mp hb
  exact h.slots a ha b hb hao hbo (haw.trans hbw.symm) hslot

/-- Distinct slots below a capacity are at most that many. -/
theorem length_le_capacity {l : List Attempt} {capacity : ℤ}
    (hnodup : (l.map Attempt.slot).Nodup) (hrange : ∀ a ∈ l, 0 ≤ a.slot ∧ a.slot < capacity) :
    l.length ≤ capacity.toNat := by
  have hsub : (l.map Attempt.slot) ⊆ (List.range capacity.toNat).map Int.ofNat := by
    intro slot hslot
    obtain ⟨a, ha, rfl⟩ := List.mem_map.mp hslot
    obtain ⟨h0, hlt⟩ := hrange a ha
    refine List.mem_map.mpr ⟨a.slot.toNat, List.mem_range.mpr ?_, Int.toNat_of_nonneg h0⟩
    omega
  have hlen := (List.subperm_of_subset hnodup hsub).length_le
  simpa using hlen

/-! ## Room for open attempts -/

/-- Every open attempt has a slot within the capacity of its worker. -/
def Roomy (db : Database) : Prop :=
  ∀ a ∈ db.attempts.rows, a.finishedAt = none →
    ∃ w, db.workers.find? a.workerId = some w ∧ 0 ≤ a.slot ∧ a.slot < w.capacity

namespace Roomy

variable {db db' : Database}

/-- Closing or rewriting attempts keeps room. -/
theorem of_attempts (h : Roomy db) (hw : db'.workers = db.workers)
    (hrows : ∀ b ∈ db'.attempts.rows, b.finishedAt = none → ∃ a ∈ db.attempts.rows,
      a.finishedAt = none ∧ b.workerId = a.workerId ∧ b.slot = a.slot) : Roomy db' := by
  intro b hb hopen
  obtain ⟨a, ha, hao, hworker, hslot⟩ := hrows b hb hopen
  rw [hw, hworker, hslot]
  exact h a ha hao

/-- A worker row with another capacity keeps room if the open slots are below it. -/
theorem of_workers (h : Roomy db) (ha : db'.attempts = db.attempts)
    (hrows : ∀ k w, db.workers.find? k = some w → ∃ v, db'.workers.find? k = some v ∧
      (v.capacity = w.capacity ∨ ∀ a ∈ openOf db k, a.slot < v.capacity)) : Roomy db' := by
  intro a hmem hopen
  rw [ha] at hmem
  obtain ⟨w, hw, h0, hlt⟩ := h a hmem hopen
  obtain ⟨v, hv, hcap | hroom⟩ := hrows _ w hw
  · exact ⟨v, hv, h0, hcap ▸ hlt⟩
  · exact ⟨v, hv, h0, hroom a (mem_openOf.mpr ⟨hmem, hopen, rfl⟩)⟩

/-- Only a takeover can leave an open attempt without room. -/
theorem effect (h : Roomy db) {c : Change} (hg : c.guard db)
    (htake : ∀ w body hash t, c = .takeover w body hash t →
      ∀ a ∈ openOf db w.id, a.slot < body.capacity) : Roomy (c.effect db) := by
  by_cases hlease : ∃ w job a t s, c = .lease w job a t s
  · obtain ⟨w, job, a, t, s, rfl⟩ := hlease
    intro b hb hopen
    rcases (Table.mem_add hg.fresh).mp hb with hb | rfl
    · exact h b hb hopen
    · exact ⟨w, hg.attempt_worker ▸ hg.worker_row, hg.slot_range⟩
  by_cases htaken : ∃ w body hash t, c = .takeover w body hash t
  · obtain ⟨w, body, hash, t, rfl⟩ := htaken
    refine h.of_workers rfl fun k v hv => ?_
    by_cases hk : w.id = k
    · subst hk
      exact ⟨_, find?_takeover hg, Or.inr (htake w body hash t rfl)⟩
    · exact ⟨v, (Table.find?_put_ne _ hk).trans hv, Or.inl rfl⟩
  · have huntaken : ∀ k, Untaken k c := fun k w body hash t hc => by
      exact absurd ⟨w, body, hash, t, hc⟩ htaken
    have hworkers : Roomy { db with workers := (c.effect db).workers } := by
      refine h.of_workers rfl fun k w hw => ?_
      obtain ⟨v, hv, hkeeps⟩ := effect_keeps hg hw (huntaken k)
      exact ⟨v, hv, Or.inl hkeeps.2.1⟩
    refine hworkers.of_attempts rfl fun b hb hopen => ?_
    rcases effect_attempts hg with hc | ⟨job, a, b', hold, hl, heq⟩ | heq
    · exact absurd hc hlease
    · rw [heq] at hb
      rcases Table.mem_put.mp hb with ⟨hb, -⟩ | ⟨rfl, -⟩
      · exact ⟨b, hb, hopen, rfl, rfl⟩
      · exact ⟨a, Table.mem_of_find? hold.attempt_row, hold.is_open, by rw [hl.1], by rw [hl.1]⟩
    · rw [heq] at hb
      exact ⟨b, hb, hopen, rfl, rfl⟩

end Roomy

/-! ## Runs -/

variable [Sha256]

/-- Workers have room for at least one attempt. -/
theorem run_capacity (txns : List Txn) : ∀ w ∈ (run txns).workers.rows, 0 < w.capacity := by
  refine (run_invariant_of (I := fun db => ∀ w ∈ db.workers.rows, 0 < w.capacity) (by simp) ?_).2
  intro t _ c db hc hinv hg h w hw
  by_cases htaken : ∃ u body hash τ, c = .takeover u body hash τ
  · obtain ⟨u, body, hash, τ, rfl⟩ := htaken
    rcases Table.mem_put.mp hw with ⟨hw, -⟩ | ⟨rfl, -⟩
    · exact h w hw
    · exact lt_of_lt_of_le Int.zero_lt_one body.capacity_range.1
  rcases effect_workers hg with ⟨v, rfl⟩ | ⟨v, v', hrow, -, heq, -, hkeeps⟩ | heq
  · rcases (Table.mem_add hg.1).mp hw with hw | rfl
    · exact h w hw
    · have hallowed := hc.1
      cases hreq : t.request with
      | register body =>
          rw [hreq] at hallowed
          obtain ⟨now, rfl⟩ := hallowed
          exact lt_of_lt_of_le Int.zero_lt_one body.capacity_range.1
      | _ => simp [hreq, Allowed] at hallowed
  · rw [heq] at hw
    rcases Table.mem_put.mp hw with ⟨hw, -⟩ | ⟨rfl, -⟩
    · exact h w hw
    · have hkept := hkeeps fun u body hash τ hu => absurd ⟨u, body, hash, τ, hu⟩ htaken
      rw [hkept.2.1]
      exact h v (Table.mem_of_find? hrow)
  · rw [heq] at hw
    exact h w hw

/-- A takeover leaves room for the open attempts of the worker. -/
def KeepsRoom (db : Database) (t : Txn) : Prop :=
  ∀ body, t.request = .register body → TakesOver body.workerId db t →
    ∀ a ∈ openOf db body.workerId, a.slot < body.capacity

/-- A registration that takes a worker over rewrites its row. -/
theorem commit_takesOver {db : Database} {t : Txn} {body : Registration}
    (hreq : t.request = .register body) (h : TakesOver body.workerId db t) :
    ∃ w τ e, w.id = body.workerId ∧
      (Change.takeover w body (Sha256.hexdigest body.sessionToken) τ).guard db ∧
      commit db t = (Change.log e).effect
        ((Change.takeover w body (Sha256.hexdigest body.sessionToken) τ).effect db) := by
  obtain ⟨body', w, hreq', -, hw, hdead, hother⟩ := h
  obtain rfl : body = body' := Request.register.inj (hreq.symm.trans hreq')
  have hsat : Sat (fun _ => True) (serve t.config (.register body)) db fun r d =>
      (∃ response, r = .ok response) ∧ ∃ w τ e, w.id = body.workerId ∧
        (Change.takeover w body (Sha256.hexdigest body.sessionToken) τ).guard db ∧
        d = (Change.log e).effect
          ((Change.takeover w body (Sha256.hexdigest body.sessionToken) τ).effect db) := by
    have hrow : ∀ v, db.workers.find? body.workerId = some v → v = w := fun v hv =>
      Option.some.inj (hv.symm.trans hw)
    refine (sat_bind _ _ _).mpr (sat_register ?_ ?_ ?_ ?_ ?_)
    · intro v hv halive
      exact absurd (hrow v hv ▸ hdead) halive
    · intro now e hg
      have : db.workers.find? body.workerId = none := hg.1
      rw [hw] at this
      cases this
    · intro v hv _ halive
      exact absurd (hrow v hv ▸ hdead) halive
    · intro v τ e hid hg hsame _
      exact absurd (hrow v (hid ▸ hg) ▸ hsame) hother
    · intro v τ e hid hg
      exact ⟨⟨_, rfl⟩, v, τ, e, hid, hg, rfl⟩
  obtain ⟨⟨response, hans⟩, hd⟩ := hsat.exec (f := t.feed) fun _ => trivial
  rw [← hreq] at hans hd
  have hans : t.answer db = .ok response := hans
  rw [commit, hans]
  exact hd

/-- A transaction keeps room if it meets the condition. -/
theorem Roomy.commit {db : Database} (h : Roomy db) (hinv : Inv db) {t : Txn}
    (hroom : KeepsRoom db t) : Roomy (commit db t) := by
  by_cases htakes : ∃ body, t.request = .register body ∧ TakesOver body.workerId db t
  · obtain ⟨body, hreq, htakes⟩ := htakes
    obtain ⟨w, τ, e, hid, hg, heq⟩ := commit_takesOver hreq htakes
    have htaken := h.effect hg fun v body' hash t' hc => by
      cases hc
      rw [hid]
      exact hroom body hreq htakes
    rw [heq]
    exact htaken.of_attempts rfl fun b hb hopen => ⟨b, hb, hopen, rfl, rfl⟩
  · -- no worker at all is taken over
    have hno : ∀ k, ¬ TakesOver k db t := by
      rintro k ⟨body, w, hreq, hk, hrest⟩
      exact htakes ⟨body, hreq, body, w, hreq, rfl, hk ▸ hrest⟩
    have hmakes : Makes (fun c => ∀ w body hash τ, c ≠ .takeover w body hash τ) db
        (GreyQueue.commit db t) := by
      cases hreq : t.request with
      | register body =>
          obtain ⟨cs, hp, hall, heq⟩ := commit_untaken hinv (hno body.workerId)
          refine ⟨cs, hp, fun c hc w body' hash τ htake => ?_, heq⟩
          obtain ⟨hallowed, huntaken⟩ := hall c hc
          rw [hreq, htake] at hallowed
          exact huntaken w body' hash τ htake hallowed.1
      | _ =>
          obtain ⟨cs, hp, hall, heq⟩ := commit_makes hinv t
          refine ⟨cs, hp, fun c hc w body' hash τ htake => ?_, heq⟩
          have hallowed := hall c hc
          simp [hreq, htake, Allowed] at hallowed
    refine hmakes.invariant (fun c hc d hg hd => hd.effect hg ?_) h
    intro w body hash τ htake
    exact absurd htake (hc w body hash τ)

omit [Sha256] in
/-- The utilization samples are those of live workers. -/
theorem mem_utilization {data : Snapshot} {labels : List (String × String)} {value : ℚ}
    (h : .sample "greyqueue_worker_utilization" labels value ∈ prometheus data) :
    ∃ w ∈ data.workers, value = w.utilization := by
  simp only [prometheus, List.mem_append, List.mem_map] at h
  rcases h with ((h | ⟨w, hw, heq⟩) | h) | ⟨w, -, heq⟩
  · simp at h
  · rw [MetricLine.sample.injEq] at heq
    exact ⟨w, (List.mem_filter.mp hw).1, heq.2.2.symm⟩
  · simp at h
  · simp at heq

omit [Sha256] in
/-- A row shows the capacity and the open attempts of a worker. -/
theorem mem_workerRows {db : Database} {m : Moment} {limit : ℕ} {row : WorkerRow}
    (h : row ∈ workerRows db m limit) : ∃ w ∈ db.workers.rows,
      row.capacity = w.capacity ∧ row.running = (openOf db w.id).length := by
  obtain ⟨w, hw, rfl⟩ := List.mem_map.mp h
  have hw := (List.mem_insertionSort _).mp ((List.mem_insertionSort _).mp (List.mem_of_mem_take hw))
  exact ⟨w, hw, rfl, List.countP_eq_length_filter⟩

/-- The open attempts of every worker occupy distinct slots within its capacity, so it
holds no more than that many leases and its utilization is at most one. -/
def WithinCapacity (db : Database) : Prop :=
  (∀ w ∈ db.workers.rows, ((openOf db w.id).map Attempt.slot).Nodup ∧
    (∀ a ∈ openOf db w.id, 0 ≤ a.slot ∧ a.slot < w.capacity) ∧
    ((openOf db w.id).length : ℤ) ≤ w.capacity) ∧
  ∀ queueLimit m n labels value, .sample "greyqueue_worker_utilization" labels value ∈
    prometheus (snapshot db m n queueLimit) → value ≤ 1

omit [Sha256] in
theorem Roomy.withinCapacity {db : Database} (h : Roomy db) (hinv : Inv db)
    (hpos : ∀ w ∈ db.workers.rows, 0 < w.capacity) : WithinCapacity db := by
  have hrange : ∀ w ∈ db.workers.rows, ∀ a ∈ openOf db w.id, 0 ≤ a.slot ∧ a.slot < w.capacity := by
    intro w hw a ha
    obtain ⟨ha, hopen, haw⟩ := mem_openOf.mp ha
    obtain ⟨v, hv, hroom⟩ := h a ha hopen
    have hrow : db.workers.find? w.id = some w := Table.find?_of_mem hw
    rw [haw, hrow, Option.some.injEq] at hv
    exact hv ▸ hroom
  have hlen : ∀ w ∈ db.workers.rows, ((openOf db w.id).length : ℤ) ≤ w.capacity := by
    intro w hw
    have hle := length_le_capacity (hinv.nodup_slots w.id) (hrange w hw)
    have := hpos w hw
    omega
  refine ⟨fun w hw => ⟨hinv.nodup_slots w.id, hrange w hw, hlen w hw⟩, ?_⟩
  intro queueLimit m n labels value hsample
  obtain ⟨row, hrow, rfl⟩ := mem_utilization hsample
  obtain ⟨w, hw, hcap, hrun⟩ := mem_workerRows hrow
  have hpos : (0 : ℚ) < w.capacity := by exact_mod_cast hpos w hw
  rw [WorkerRow.utilization, hcap, hrun, div_le_one hpos]
  exact_mod_cast hlen w hw

/-- **Slot capacity.** Along a run, the open attempts of every worker occupy distinct slots
within its capacity, it holds at most that many leases and its utilization never exceeds
one, exactly when every takeover leaves room for the attempts that are still open. -/
theorem slot_capacity (txns : List Txn) :
    (∀ pre post, txns = pre ++ post → WithinCapacity (run pre)) ↔
    ∀ pre t post, txns = pre ++ t :: post → KeepsRoom (run pre) t := by
  constructor
  · intro h pre t post htxns body hreq htakes a ha
    obtain ⟨w, τ, e, hid, hg, heq⟩ := commit_takesOver hreq htakes
    have hwithin := (h (pre ++ [t]) post (by simp [htxns])).1
    rw [run_snoc, heq] at hwithin
    have hrow := Table.mem_of_find? (find?_takeover hg)
    exact ((hwithin _ hrow).2.1 a (hid ▸ ha)).2
  · intro h pre post htxns
    refine Roomy.withinCapacity ?_ (run_inv pre) (run_capacity pre)
    induction pre using List.reverseRecOn generalizing post with
    | nil => intro a ha; simp [run] at ha
    | append_singleton pre t ih =>
        rw [run_snoc]
        exact (ih (t :: post) (by simp [htxns])).commit (run_inv pre)
          (h pre t post (by simp [htxns]))

/-- A worker with two slots leases a job in the second one and falls silent; a process
with one slot takes its id over before the lease has expired. -/
def shrinkingTakeover : List Txn := [
  { request := .submit .flaky, feed := .still 1 },
  { request := .register { Registration.first with
      capacity := 2
      capacity_range := by decide }
    feed := .still 2 },
  { config := .longLease
    request := .claim { Claim.first with slot := 1, slot_range := by decide }
      (some Registration.first.sessionToken)
    feed := .still 3 },
  { request := .detectWorkers, feed := .still 20 },
  { request := .register .second, feed := .still 21 }]

omit [Sha256] in
/-- The open attempt is left outside the capacity. -/
theorem slot_capacity_shrunk :
    letI := Sha256.tabulated []
    ¬ WithinCapacity (run shrinkingTakeover) := by
  let := Sha256.tabulated []
  have hworker : ("w1", 1) ∈ (run shrinkingTakeover).workers.rows.map
      (fun w => (w.id, w.capacity)) := by decide +kernel
  have hattempt : (1 : ℤ) ∈ (openOf (run shrinkingTakeover) "w1").map Attempt.slot := by
    decide +kernel
  generalize run shrinkingTakeover = db at hworker hattempt
  intro h
  obtain ⟨w, hw, hrow⟩ := List.mem_map.mp hworker
  obtain ⟨a, ha, hslot⟩ := List.mem_map.mp hattempt
  rw [Prod.mk.injEq] at hrow
  have hlt := ((h.1 w hw).2.1 a (by rw [hrow.1]; exact ha)).2
  rw [hrow.2, hslot] at hlt
  exact absurd hlt (by decide)

end GreyQueue
