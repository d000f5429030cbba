import GreyQueue.Lib.Joins
import GreyQueue.Workers

/-!
# Failure detection

Every coordinator runs `detect_workers` on its own.  A tick reads the clock, selects the
workers that are silent and not locked, and marks each of them.  On one row this is a step
that joins: two ticks are one tick at the later time, so a stretch of time without contact
leaves the row that the latest tick alone would leave.

## Main definitions

* `Worker.detected` — what a tick makes of a row.
* `Database.detect` — the database after a tick.
* `Unheard` — a stretch of time without contact from a worker.

## Main results

* `detected_joins` — ticks join on a row.
* `Unheard.row`, `Unheard.marks` — what a stretch without contact does.
* `detection_confluent` — detection is confluent across coordinators.
-/

namespace GreyQueue

open Lib
open Lib.Prog (Sat sat_bind Over)

/-! ## One row -/

/-- What the loop of `detect_workers` makes of a worker that it has selected. -/
def Worker.judged (deadAfter : ℚ) (timestamp : Time) (w : Worker) : Worker :=
  if deadAfter ≤ timestamp - w.lastSeen then { w with state := .dead }
  else if w.state = .draining then w
  else { w with state := .suspect }

/-- What a tick makes of a worker that nobody has locked. -/
def Worker.detected (suspectAfter deadAfter : ℚ) (timestamp : Time) (w : Worker) : Worker :=
  if silent (timestamp - suspectAfter) w then w.judged deadAfter timestamp else w

/-- Where detection moves a worker: down, and a draining one only to its death. -/
def WorkerState.Declines (before after : WorkerState) : Prop :=
  after = before ∨ (before = .healthy ∧ after = .suspect) ∨ after = .dead

theorem WorkerState.Declines.trans {a b c : WorkerState} (h : a.Declines b) (h' : b.Declines c) :
    a.Declines c := by
  unfold Declines at *
  cases a <;> cases b <;> cases c <;> simp_all

/-- What is recorded when a worker changes its state. -/
def announced (before after : WorkerState) : List SystemKind :=
  if after = before then [] else if after = .dead then [.workerDead] else [.workerSuspect]

/-- What may have been recorded of a worker in a state since it was last seen. -/
def WorkerState.records : WorkerState → List SystemKind
  | .healthy => []
  | .draining => []
  | .suspect => [.workerSuspect]
  | .dead => [.workerSuspect, .workerDead]

theorem records_sublist (state : WorkerState) :
    state.records.Sublist [.workerSuspect, .workerDead] := by
  cases state <;> decide

/-- A step down adds its record. -/
theorem WorkerState.Declines.records {a b : WorkerState} (h : a.Declines b)
    {kinds : List SystemKind} (hkinds : kinds.Sublist a.records) :
    (kinds ++ announced a b).Sublist b.records := by
  rcases h with rfl | ⟨rfl, rfl⟩ | rfl
  · simpa [announced] using hkinds
  · exact hkinds.append_right _
  · cases a with
    | healthy => exact (hkinds.append_right _).trans (by decide)
    | draining => exact (hkinds.append_right _).trans (by decide)
    | suspect => exact hkinds.append_right _
    | dead => simpa [announced] using hkinds

section Row

variable {suspectAfter deadAfter : ℚ} {timestamp : Time} {w : Worker}

@[simp] theorem judged_id : (w.judged deadAfter timestamp).id = w.id := by
  unfold Worker.judged
  split_ifs <;> rfl

/-- A tick changes the state only, and moves it down. -/
theorem detected_spec (suspectAfter deadAfter : ℚ) (timestamp : Time) (w : Worker) :
    ∃ state, w.state.Declines state ∧
      w.detected suspectAfter deadAfter timestamp = { w with state } := by
  have hsame : w.state.Declines w.state := Or.inl rfl
  unfold Worker.detected Worker.judged
  split_ifs with hsilent hdead hdraining
  · exact ⟨.dead, Or.inr (Or.inr rfl), rfl⟩
  · exact ⟨w.state, hsame, rfl⟩
  · refine ⟨.suspect, ?_, rfl⟩
    have halive : w.state ≠ .dead := by
      simp only [silent, Bool.and_eq_true, decide_eq_true_eq] at hsilent
      exact hsilent.1
    cases hstate : w.state with
    | healthy => exact Or.inr (Or.inl ⟨rfl, rfl⟩)
    | suspect => exact Or.inl rfl
    | dead => exact absurd hstate halive
    | draining => exact absurd hstate hdraining
  · exact ⟨w.state, hsame, rfl⟩

/-- A worker that was seen recently is not touched. -/
theorem detected_of_recent (h : timestamp - w.lastSeen ≤ suspectAfter) :
    w.detected suspectAfter deadAfter timestamp = w := by
  refine if_neg fun hsilent => ?_
  simp only [silent, Bool.and_eq_true, decide_eq_true_eq] at hsilent
  linarith [hsilent.2]

/-- Ticks join: whatever one of them leaves, the later of the two decides. -/
theorem detected_joins : Joins (Worker.detected suspectAfter deadAfter) := by
  intro t u w
  obtain ⟨id, state, capacity, capabilities, sessionHash, drainRequested, registeredAt, seen⟩ := w
  rcases le_total t u with htu | hut
  · -- the tick that comes second is the earlier one and finds nothing left to do
    rw [max_eq_right htu]
    cases state <;> simp only [Worker.detected, Worker.judged, silent] <;> split_ifs <;>
      simp_all <;> linarith
  · -- the tick that comes second is the later one and repeats the judgement
    rw [max_eq_left hut]
    cases state <;> simp only [Worker.detected, Worker.judged, silent] <;> split_ifs <;>
      simp_all <;> linarith

end Row

/-! ## One tick -/

/-- What an event records of the health of a worker. -/
def SystemEvent.mark (k : String) (e : SystemEvent) : Option SystemKind :=
  if e.workerId = some k ∧ (e.kind = .workerSuspect ∨ e.kind = .workerDead) then some e.kind
  else none

/-- The records of the health of a worker. -/
def Database.marks (db : Database) (k : String) : List SystemKind :=
  db.systemEvents.filterMap (SystemEvent.mark k)

/-- The database after one pass of the loop of `detect_workers`. -/
def Database.judge (deadAfter : ℚ) (timestamp : Time) (w : Worker) (now : Time) (db : Database) :
    Database :=
  let v := w.judged deadAfter timestamp
  if v.state = w.state then db
  else { db with
    workers := db.workers.put v
    systemEvents := db.systemEvents ++
      [⟨if v.state = .dead then .workerDead else .workerSuspect, some w.id, none, now⟩] }

/-- The database after `detect_workers` has run on a coordinator. -/
def Database.detect (suspectAfter deadAfter : ℚ) (feed : ℕ → Moment) (db : Database) : Database :=
  ((detectWorkers suspectAfter deadAfter).exec feed db).state

/-- The row of a worker is the same, and so is the record of its health. -/
structure Apart (k : String) (db db' : Database) : Prop where
  row : db'.workers.find? k = db.workers.find? k
  marks : db'.marks k = db.marks k

theorem Apart.refl (k : String) (db : Database) : Apart k db db := ⟨rfl, rfl⟩

theorem Apart.trans {k : String} {db db' db'' : Database} (h : Apart k db db')
    (h' : Apart k db' db'') : Apart k db db'' :=
  ⟨h'.row.trans h.row, h'.marks.trans h.marks⟩

section Tick

variable {A : Moment → Prop} {db : Database} {suspectAfter deadAfter : ℚ} {timestamp : Time}

/-- One pass of the loop. -/
theorem sat_judge {w : Worker} {Q : Except Error Unit → Database → Prop}
    (h : ∀ now, Q (.ok ()) (db.judge deadAfter timestamp w now)) :
    Sat A (detect timestamp deadAfter w) db Q := by
  unfold Database.judge Worker.judged at h
  by_cases hdead : deadAfter ≤ timestamp - w.lastSeen
  · simp only [detect, hdead, decide_true, if_true, reduceCtorEq, and_false, if_false] at h ⊢
    by_cases hstate : w.state = .dead
    · simp only [hstate, if_true] at h
      simpa [hstate] using h 0
    · simp only [Ne.symm hstate, if_false] at h
      simp only [hstate, ne_eq, not_false_eq_true, if_true]
      exact sat_flush rfl (sat_logged h)
  · simp only [detect, hdead, decide_false, Bool.false_eq_true, if_false, and_true] at h ⊢
    by_cases hdraining : w.state = .draining
    · simp only [hdraining, if_true] at h ⊢
      exact h 0
    by_cases hstate : w.state = .suspect
    · simp only [hstate, reduceCtorEq, if_false, if_true] at h
      simpa [hstate] using h 0
    · simp only [hdraining, Ne.symm hstate, reduceCtorEq, if_false] at h
      simp only [hdraining, hstate, ne_eq, not_false_eq_true, if_true, if_false]
      exact sat_flush rfl (sat_logged h)

/-- The pass moves its own worker and records the move. -/
theorem judge_self (deadAfter : ℚ) (timestamp : Time) {w : Worker} (now : Time)
    (hw : db.workers.find? w.id = some w) :
    (db.judge deadAfter timestamp w now).workers.find? w.id = some (w.judged deadAfter timestamp) ∧
      (db.judge deadAfter timestamp w now).marks w.id =
        db.marks w.id ++ announced w.state (w.judged deadAfter timestamp).state := by
  have hput : db.workers.find? (w.judged deadAfter timestamp).id = some w := by
    rw [judged_id]
    exact hw
  have hself := Table.find?_put_self hput
  rw [key_worker, judged_id] at hself
  by_cases hstate : (w.judged deadAfter timestamp).state = w.state
  · have hsame : w.judged deadAfter timestamp = w := by
      unfold Worker.judged at hstate ⊢
      split_ifs at hstate ⊢ <;> simp_all
    simp [Database.judge, hsame, hw, announced]
  · refine ⟨by simpa [Database.judge, hstate] using hself, ?_⟩
    by_cases hdead : (w.judged deadAfter timestamp).state = .dead <;>
      simp_all [Database.judge, Database.marks, announced, SystemEvent.mark]

/-- It leaves the others alone. -/
theorem judge_apart {w : Worker} (now : Time) {k : String} (hk : w.id ≠ k) :
    Apart k db (db.judge deadAfter timestamp w now) := by
  unfold Database.judge
  dsimp only
  split_ifs
  · exact .refl k db
  · have hne : (w.judged deadAfter timestamp).id ≠ k := by rwa [judged_id]
    exact ⟨Table.find?_put_ne _ hne, by simp [Database.marks, SystemEvent.mark, hk]⟩
  · have hne : (w.judged deadAfter timestamp).id ≠ k := by rwa [judged_id]
    exact ⟨Table.find?_put_ne _ hne, by simp [Database.marks, SystemEvent.mark, hk]⟩

/-- The whole loop: every selected worker is judged once, and nothing happens to the others. -/
theorem sat_judges (A : Moment → Prop) (deadAfter : ℚ) (timestamp : Time) (k : String) :
    ∀ (ws : List Worker) (db : Database), (ws.map Worker.id).Nodup →
    (∀ w ∈ ws, db.workers.find? w.id = some w) →
    Sat A (Prog.forEach ws (detect timestamp deadAfter)) db fun r db' => r = .ok () ∧
      ((∀ w ∈ ws, w.id ≠ k) → Apart k db db') ∧
      ∀ w ∈ ws, w.id = k → db'.workers.find? k = some (w.judged deadAfter timestamp) ∧
        db'.marks k = db.marks k ++ announced w.state (w.judged deadAfter timestamp).state
  | [], db, _, _ => ⟨rfl, fun _ => .refl k db, by simp⟩
  | w :: ws, db, hnodup, hrows => by
      rw [List.map_cons, List.nodup_cons] at hnodup
      rw [List.forall_mem_cons] at hrows
      refine (sat_bind _ _ _).mpr (sat_judge fun now => ?_)
      have hothers : ∀ v ∈ ws, w.id ≠ v.id := fun v hv h =>
        hnodup.1 (h ▸ List.mem_map_of_mem hv)
      refine (sat_judges A deadAfter timestamp k ws _ hnodup.2 fun v hv => ?_).mono ?_
      · exact (judge_apart now (hothers v hv)).row.trans (hrows.2 v hv)
      rintro r db' ⟨hr, hapart, hjudged⟩
      refine ⟨hr, fun hk => ?_, ?_⟩
      · rw [List.forall_mem_cons] at hk
        exact (judge_apart now hk.1).trans (hapart hk.2)
      · rw [List.forall_mem_cons]
        constructor
        · rintro rfl
          obtain ⟨hrow, hmarks⟩ := judge_self deadAfter timestamp now hrows.1
          have hlater := hapart fun v hv => (hothers v hv).symm
          exact ⟨hlater.row.trans hrow, hlater.marks.trans hmarks⟩
        · rintro v hv rfl
          obtain ⟨hrow, hmarks⟩ := hjudged v hv rfl
          exact ⟨hrow, by rw [hmarks, (judge_apart now (hothers v hv)).marks]⟩

end Tick

/-- The clock reading of a tick. -/
def tickTime (feed : ℕ → Moment) : Time := (feed 0).time

/-- The tick finds the row of the worker unlocked. -/
def Looks (k : String) (feed : ℕ → Moment) : Prop := (feed 1).workerLocked k = false

instance Looks.decidable (k : String) (feed : ℕ → Moment) : Decidable (Looks k feed) :=
  inferInstanceAs (Decidable (_ = false))

/-- `detect_workers` runs to its end. -/
theorem exec_detectWorkers (suspectAfter deadAfter : ℚ) (feed : ℕ → Moment) (db : Database)
    (k : String) :
    ((detectWorkers suspectAfter deadAfter).exec feed db).result = .ok () ∧
      (Looks k feed → ∀ w, db.workers.find? k = some w →
        (db.detect suspectAfter deadAfter feed).workers.find? k =
            some (w.detected suspectAfter deadAfter (tickTime feed)) ∧
          (db.detect suspectAfter deadAfter feed).marks k = db.marks k ++
            announced w.state (w.detected suspectAfter deadAfter (tickTime feed)).state) ∧
      (¬ Looks k feed ∨ db.workers.find? k = none →
        Apart k db (db.detect suspectAfter deadAfter feed)) := by
  -- the two statements before the loop
  have hloop : (detectWorkers suspectAfter deadAfter).exec feed db =
      (Prog.forEach (((db.workers.rows.filter (silent (tickTime feed - suspectAfter))).insertionSort
        fun a b => (feed 1).workerRank a.id ≤ (feed 1).workerRank b.id).filter
          fun w => !(feed 1).workerLocked w.id) (detect (tickTime feed) deadAfter)).exec
        (fun n => feed (n + 2)) db := rfl
  obtain ⟨hok, hapart, hjudged⟩ := (sat_judges (fun _ => True) deadAfter (tickTime feed) k _ db
    nodup_selected fun w hw => (mem_selected.mp hw).1).exec
      (f := fun n => feed (n + 2)) fun _ => trivial
  rw [← hloop] at hok hapart hjudged
  refine ⟨hok, fun hlooks w hw => ?_, fun hskip => hapart fun w hw hk => ?_⟩
  · have hid : w.id = k := Table.key_of_find? hw
    subst hid
    by_cases hsilent : silent (tickTime feed - suspectAfter) w = true
    · rw [Worker.detected, if_pos hsilent]
      exact hjudged w (mem_selected.mpr ⟨hw, hsilent, hlooks⟩) rfl
    · rw [Worker.detected, if_neg hsilent]
      have h := hapart fun v hv hid => ?_
      · exact ⟨h.row.trans hw, by rw [announced, if_pos rfl, List.append_nil]; exact h.marks⟩
      · obtain ⟨hrow, hsilent', -⟩ := mem_selected.mp hv
        rw [hid, hw, Option.some.injEq] at hrow
        exact hsilent (hrow ▸ hsilent')
  · obtain ⟨hrow, -, hfree⟩ := mem_selected.mp hw
    subst hk
    rcases hskip with hlocked | hnone
    · exact hlocked hfree
    · simp [hnone] at hrow

/-! ## Stretches without contact -/

/-- A stretch of time without contact from the worker: coordinators tick with the given
feeds, and whatever else happens leaves its row and its record alone. -/
inductive Unheard (suspectAfter deadAfter : ℚ) (k : String) :
    List (ℕ → Moment) → Database → Database → Prop
  | refl (db : Database) : Unheard suspectAfter deadAfter k [] db db
  | tick {ticks : List (ℕ → Moment)} {db db' : Database}
      (h : Unheard suspectAfter deadAfter k ticks db db') (feed : ℕ → Moment) :
      Unheard suspectAfter deadAfter k (ticks ++ [feed]) db
        (db'.detect suspectAfter deadAfter feed)
  | other {ticks : List (ℕ → Moment)} {db db' db'' : Database}
      (h : Unheard suspectAfter deadAfter k ticks db db') (hapart : Apart k db' db'') :
      Unheard suspectAfter deadAfter k ticks db db''

namespace Unheard

variable {suspectAfter deadAfter : ℚ} {k : String} {ticks : List (ℕ → Moment)}
  {db db' : Database} {w : Worker}

/-- The row is what the ticks that have looked at it have made of it, one after the other. -/
theorem row (h : Unheard suspectAfter deadAfter k ticks db db')
    (hw : db.workers.find? k = some w) :
    db'.workers.find? k = some (((ticks.filter fun feed => decide (Looks k feed)).map
      tickTime).foldl (fun w t => w.detected suspectAfter deadAfter t) w) := by
  induction h with
  | refl db => simpa using hw
  | @tick ticks db db' h feed ih =>
      obtain ⟨-, hlooks, hskips⟩ := exec_detectWorkers suspectAfter deadAfter feed db' k
      by_cases hfeed : Looks k feed
      · rw [(hlooks hfeed _ (ih hw)).1]
        simp [List.filter_append, hfeed]
      · rw [(hskips (Or.inl hfeed)).row, ih hw]
        simp [List.filter_append, hfeed]
  | other h hapart ih => exact hapart.row.trans (ih hw)

/-- The state has only moved down, and the record names the states on the way, each once. -/
theorem declines (h : Unheard suspectAfter deadAfter k ticks db db')
    (hw : db.workers.find? k = some w) :
    ∃ state kinds, db'.workers.find? k = some { w with state } ∧ w.state.Declines state ∧
      db'.marks k = db.marks k ++ kinds ∧ kinds.Sublist state.records := by
  induction h with
  | refl db => exact ⟨w.state, [], hw, Or.inl rfl, by simp, List.nil_sublist _⟩
  | @tick ticks db db' h feed ih =>
      obtain ⟨state, kinds, hrow, hdown, hmarks, hkinds⟩ := ih hw
      obtain ⟨-, hlooks, hskips⟩ := exec_detectWorkers suspectAfter deadAfter feed db' k
      by_cases hfeed : Looks k feed
      · obtain ⟨hrow', hmarks'⟩ := hlooks hfeed _ hrow
        obtain ⟨state', hdown', heq⟩ := detected_spec suspectAfter deadAfter (tickTime feed)
          { w with state }
        rw [heq] at hrow' hmarks'
        exact ⟨state', kinds ++ announced state state', hrow', hdown.trans hdown',
          by rw [hmarks', hmarks, List.append_assoc], hdown'.records hkinds⟩
      · have hapart := hskips (Or.inl hfeed)
        exact ⟨state, kinds, hapart.row.trans hrow, hdown, hapart.marks.trans hmarks, hkinds⟩
  | other h hapart ih =>
      obtain ⟨state, kinds, hrow, hdown, hmarks, hkinds⟩ := ih hw
      exact ⟨state, kinds, hapart.row.trans hrow, hdown, hapart.marks.trans hmarks, hkinds⟩

/-- A worker that was seen recently at every tick is not touched. -/
theorem recent (h : Unheard suspectAfter deadAfter k ticks db db')
    (hw : db.workers.find? k = some w)
    (hage : ∀ feed ∈ ticks, tickTime feed - w.lastSeen ≤ suspectAfter) : Apart k db db' := by
  induction h with
  | refl db => exact .refl k db
  | @tick ticks db db' h feed ih =>
      have hbefore := ih hw fun f hf => hage f (by simp [hf])
      obtain ⟨-, hlooks, hskips⟩ := exec_detectWorkers suspectAfter deadAfter feed db' k
      refine hbefore.trans ?_
      by_cases hfeed : Looks k feed
      · obtain ⟨hrow, hmarks⟩ := hlooks hfeed w (hbefore.row.trans hw)
        rw [detected_of_recent (hage feed (by simp))] at hrow hmarks
        exact ⟨hrow.trans (hbefore.row.trans hw).symm, by simpa [announced] using hmarks⟩
      · exact hskips (Or.inl hfeed)
  | other h hapart ih => exact (ih hw hage).trans hapart

end Unheard

/-! ## Runs -/

/-- The change is no record of a worker's health. -/
def Write.Unmarked : Write → Prop
  | .addSystemEvent e => e.kind ≠ .workerSuspect ∧ e.kind ≠ .workerDead
  | _ => True

/-- The statement records nothing of the health of a worker. -/
def Sql.Unmarked {β : Type} : Sql β → Prop
  | .write w => w.Unmarked
  | _ => True

/-- The program records nothing of the health of a worker. -/
def Unmarking {α : Type} (p : Tx α) : Prop := Over (fun s => s.Unmarked) (fun _ => True) p

theorem Unmarking.bind {α β : Type} {p : Tx α} {f : α → Tx β} (hp : Unmarking p)
    (hf : ∀ a, Unmarking (f a)) : Unmarking (p >>= f) := Over.bind hp hf

theorem Plain.unmarking {α : Type} {p : Tx α} (hp : Plain p) : Unmarking p := by
  refine Over.any (Over.mono (fun s hs => ?_) hp)
  cases s with
  | write w => cases w <;> trivial
  | _ => trivial

theorem unmarking_issue {β : Type} {s : Sql β} (h : s.Unmarked) :
    Unmarking (Prog.issue s : Tx β) := ⟨h, fun _ => trivial⟩

theorem unmarking_log {kind : SystemKind} {w : Option String} {detail : Option (Uuid × Uuid)}
    (h : kind ≠ .workerSuspect ∧ kind ≠ .workerDead) :
    Unmarking (addSystemEvent kind w detail) := ⟨trivial, fun _ => ⟨h, fun _ => trivial⟩⟩

/-- Only a system event changes the system log. -/
theorem Write.apply_log {w : Write} {db db' : Database} (h : w.apply db = .ok db') :
    db'.systemEvents = db.systemEvents ∨
      ∃ e, w = .addSystemEvent e ∧ db'.systemEvents = db.systemEvents ++ [e] := by
  have hins : ∀ {ρ κ : Type} [Keyed ρ κ] [DecidableEq κ] {t : Table ρ} {row : ρ} {name : String}
      {f : Table ρ → Database}, (insertOr t row name >>= fun u => Except.ok (f u)) = .ok db' →
      (∀ u, (f u).systemEvents = db.systemEvents) → db'.systemEvents = db.systemEvents := by
    intro ρ κ _ _ t row name f h hf
    cases hu : insertOr t row name with
    | error e => simp [hu, bind, Except.bind] at h
    | ok u =>
        simp only [hu, bind, Except.bind, Except.ok.injEq] at h
        rw [← h, hf]
  cases w with
  | addJob job =>
      simp only [Write.apply] at h
      split_ifs at h
      exact Or.inl (hins h fun _ => rfl)
  | addAttempt a =>
      simp only [Write.apply] at h
      split_ifs at h
      exact Or.inl (hins h fun _ => rfl)
  | addResult r => exact Or.inl (hins h fun _ => rfl)
  | addSystemEvent e =>
      cases h
      exact Or.inr ⟨e, rfl, rfl⟩
  | setJob | setAttempt | addEvent | setWorker =>
      cases h
      exact Or.inl rfl

/-- A program that records nothing leaves the records alone. -/
theorem Unmarking.exec {α : Type} {p : Tx α} (hp : Unmarking p) (feed : ℕ → Moment)
    (db : Database) (k : String) : (p.exec feed db).state.marks k = db.marks k := by
  refine Over.invariant (I := fun d => d.marks k = db.marks k) hp ?_ rfl
  intro β s m d b d' hs he hd
  rw [← hd]
  cases s with
  | write w =>
      change (w.apply d).map _ = _ at he
      cases hw : w.apply d with
      | error e => simp [hw, Except.map] at he
      | ok d'' =>
          simp only [hw, Except.map, Except.ok.injEq, Prod.mk.injEq] at he
          rw [← he.2, Database.marks, Database.marks]
          rcases Write.apply_log hw with heq | ⟨e, rfl, heq⟩
          · rw [heq]
          · -- an event of another kind
            have hmark : e.mark k = none := by
              refine if_neg fun h => ?_
              exact h.2.elim hs.1 hs.2
            rw [heq, List.filterMap_append]
            simp [hmark]
  | insertWorker w =>
      change Sql.eval (.insertWorker w) m d = _ at he
      simp only [Sql.eval] at he
      split at he <;> cases he <;> rfl
  | _ =>
      cases he
      rfl

section Transactions

variable [Sha256]

omit [Sha256] in
theorem unmarking_recoverJobs (limit : ℕ) : Unmarking (recoverJobs limit) := by
  refine .bind (unmarking_issue trivial) fun free => ?_
  split
  · refine .bind (unmarking_issue trivial) fun t => .bind (unmarking_issue trivial) fun jobs =>
      .bind (Over.forEach (fun job => ?_) jobs) fun _ =>
        .bind (unmarking_issue trivial) fun blocked =>
          .bind (Over.forEach (fun job => ?_) blocked) fun _ => trivial
    · refine Unmarking.bind (unmarking_issue trivial) fun row => ?_
      cases row with
      | none => trivial
      | some attempt =>
          refine .bind (unmarking_issue trivial) fun t => ?_
          split
          · exact .bind (plain_failAttempt _ _ _ _ _).unmarking fun _ => unmarking_log (by decide)
          · trivial
    · exact Unmarking.bind (plain_transition _ _).unmarking fun _ => trivial
  · trivial

omit [Sha256] in
theorem unmarking_drain (workerId : String) : Unmarking (drain workerId) := by
  refine .bind (unmarking_issue trivial) fun row => ?_
  cases row with
  | none => trivial
  | some w =>
      dsimp only
      split
      · trivial
      split
      · exact .bind (unmarking_issue trivial) fun _ => .bind (unmarking_log (by decide)) fun _ =>
          trivial
      · exact .bind (unmarking_issue trivial) fun _ => trivial

theorem unmarking_identity (workerId : String) (credential : Option String) :
    Unmarking (identity workerId credential) := by
  refine .bind (unmarking_issue trivial) fun row => ?_
  cases row with
  | none => trivial
  | some w =>
      dsimp only
      split <;> trivial

theorem unmarking_heartbeat (workerId : String) (credential : Option String) :
    Unmarking (heartbeat workerId credential) := by
  refine .bind (unmarking_identity _ _) fun w => .bind (unmarking_issue trivial) fun t => ?_
  split
  · exact .bind (unmarking_log (by decide)) fun _ =>
      .bind (unmarking_issue trivial) fun _ => trivial
  · exact .bind (unmarking_issue trivial) fun _ => trivial

theorem unmarking_register (body : Registration) : Unmarking (register body) := by
  refine .bind (unmarking_issue trivial) fun now => .bind (unmarking_issue trivial) fun inserted =>
    .bind (unmarking_issue trivial) fun row => ?_
  cases row with
  | none => trivial
  | some w =>
      dsimp only
      split
      · exact unmarking_log (by decide)
      split
      · split
        · exact .bind (unmarking_issue trivial) fun _ => .bind (unmarking_issue trivial) fun _ =>
            unmarking_log (by decide)
        · trivial
      split
      · trivial
      · exact .bind (unmarking_issue trivial) fun _ => .bind (unmarking_issue trivial) fun _ =>
          unmarking_log (by decide)

/-- The request contacts the worker on its own behalf, or drains it. -/
def Request.Reaches (k : String) : Request → Prop
  | .register body => body.workerId = k
  | .heartbeat workerId _ => workerId = k
  | .drain workerId => workerId = k
  | _ => False

/-- The request is a tick. -/
def Request.detects : Request → Bool
  | .detectWorkers => true
  | _ => false

/-- A transaction that runs `detect_workers` is a tick. -/
theorem commit_detectWorkers {t : Txn} (ht : t.request.detects = true) (db : Database) :
    commit db t = db.detect t.config.suspectAfter t.config.deadAfter t.feed := by
  have hreq : t.request = .detectWorkers := by
    cases hr : t.request <;> simp [hr, Request.detects] at ht
    rfl
  have hok := (exec_detectWorkers t.config.suspectAfter t.config.deadAfter t.feed db "").1
  rw [commit, Txn.answer, Txn.outcome, hreq, serve, Prog.exec_bind, hok]
  rfl

/-- A transaction that records nothing leaves the records alone. -/
theorem commit_unmarking {t : Txn} (h : Unmarking (serve t.config t.request)) (db : Database)
    (k : String) : (commit db t).marks k = db.marks k := by
  rw [commit]
  cases t.answer db with
  | error e => rfl
  | ok response => exact h.exec t.feed db k

/-- Any other transaction leaves a worker alone that it does not reach. -/
theorem commit_apart {db : Database} (hinv : Inv db) {t : Txn} {k : String}
    (ht : t.request.detects = false) (hk : ¬ t.request.Reaches k) : Apart k db (commit db t) := by
  constructor
  · refine (commit_invariant hinv (I := fun d => d.workers.find? k = db.workers.find? k) ?_ rfl).2
    rintro c d ⟨hallowed, -⟩ - hg hd
    rw [← hd]
    cases c with
    | enroll w =>
        refine Table.find?_add_ne _ fun h => hk ?_
        cases hreq : t.request <;> simp only [hreq, Allowed] at hallowed
        obtain ⟨now, rfl⟩ := hallowed
        exact h
    | seen w τ =>
        refine Table.find?_put_ne _ fun h => hk ?_
        cases hreq : t.request <;> simp only [hreq, Allowed] at hallowed
        · exact hallowed.1.symm.trans h
        · exact hallowed.symm.trans h
    | drain w =>
        refine Table.find?_put_ne _ fun h => hk ?_
        cases hreq : t.request <;> simp only [hreq, Allowed] at hallowed
        exact hallowed.symm.trans h
    | takeover w body hash τ =>
        refine Table.find?_put_ne _ fun h => hk ?_
        cases hreq : t.request <;> simp only [hreq, Allowed] at hallowed
        exact hallowed.1.symm.trans h
    | mark w state =>
        cases hreq : t.request <;> simp [hreq, Allowed, Request.detects] at hallowed ht
    | _ => rfl
  · cases hreq : t.request with
    | drain workerId =>
        refine commit_unmarking ?_ db k
        rw [hreq]
        exact .bind (unmarking_drain workerId) fun _ => trivial
    | register body =>
        refine commit_unmarking ?_ db k
        rw [hreq]
        exact .bind (unmarking_register body) fun _ => trivial
    | heartbeat workerId credential =>
        refine commit_unmarking ?_ db k
        rw [hreq]
        exact .bind (unmarking_heartbeat workerId credential) fun _ => trivial
    | recoverJobs limit =>
        refine commit_unmarking ?_ db k
        rw [hreq]
        exact .bind (unmarking_recoverJobs limit) fun _ => trivial
    | detectWorkers => simp [hreq, Request.detects] at ht
    | _ =>
        -- the others log nothing
        refine (commit_invariant hinv (I := fun d => d.marks k = db.marks k) ?_ rfl).2
        rintro c d ⟨hallowed, -⟩ - - hd
        rw [hreq] at hallowed
        rw [← hd]
        cases c <;> simp only [Allowed] at hallowed <;> rfl

/-- After a run, ticks and transactions that do not reach the worker are a stretch without
contact from it. -/
theorem run_unheard {suspectAfter deadAfter : ℚ} {k : String} (txns : List Txn) {more : List Txn}
    (hmore : ∀ t ∈ more,
      if t.request.detects then
        t.config.suspectAfter = suspectAfter ∧ t.config.deadAfter = deadAfter
      else ¬ t.request.Reaches k) :
    Unheard suspectAfter deadAfter k ((more.filter fun t => t.request.detects).map Txn.feed)
      (run txns) (run (txns ++ more)) := by
  induction more using List.reverseRecOn with
  | nil => simpa using Unheard.refl (run txns)
  | append_singleton more t ih =>
      have hbefore := ih fun u hu => hmore u (by simp [hu])
      have ht := hmore t (by simp)
      rw [← List.append_assoc, run_snoc, List.filter_append, List.map_append]
      by_cases hdetects : t.request.detects = true
      · rw [if_pos hdetects] at ht
        rw [commit_detectWorkers hdetects, ht.1, ht.2]
        simpa [hdetects] using hbefore.tick t.feed
      · rw [if_neg hdetects] at ht
        simpa [hdetects] using
          hbefore.other (commit_apart (run_inv _) (by simpa using hdetects) ht)

end Transactions

/-- **Failure detection is confluent across coordinators.**  Take any stretch of time without
contact from a worker, with any number of ticks of any coordinators.  The row at its end is the
one that the latest tick, run alone at the start, would have left: in a nondecreasing sequence
that is the last one, and the ticks before it do not matter.  A tick that finds the row locked
by another transaction skips it.  The state moves only from healthy to suspect to dead, or from
draining to dead, and nothing else of the row changes; the two moves are recorded in this
order and each at most once.  A worker whose age at every tick is at most `suspect_after` is
not touched. -/
theorem detection_confluent {suspectAfter deadAfter : ℚ} {k : String}
    {ticks : List (ℕ → Moment)} {db db' : Database}
    (h : Unheard suspectAfter deadAfter k ticks db db') {w : Worker}
    (hw : db.workers.find? k = some w) :
    (∀ last ∈ ticks, Looks k last →
      (∀ feed ∈ ticks, Looks k feed → tickTime feed ≤ tickTime last) →
      db'.workers.find? k = (db.detect suspectAfter deadAfter last).workers.find? k) ∧
    (∃ state, db'.workers.find? k = some { w with state } ∧ w.state.Declines state) ∧
    (∃ kinds, db'.marks k = db.marks k ++ kinds ∧
      kinds.Sublist [.workerSuspect, .workerDead]) ∧
    ((∀ feed ∈ ticks, tickTime feed - w.lastSeen ≤ suspectAfter) →
      db'.workers.find? k = some w ∧ db'.marks k = db.marks k) := by
  obtain ⟨state, kinds, hrow, hdown, hmarks, hkinds⟩ := h.declines hw
  refine ⟨fun last hlast hlooks hlatest => ?_, ⟨state, hrow, hdown⟩,
    ⟨kinds, hmarks, hkinds.trans (records_sublist state)⟩, fun hage => ?_⟩
  · rw [((exec_detectWorkers suspectAfter deadAfter last db k).2.1 hlooks w hw).1, h.row hw,
      detected_joins.foldl_eq (t := tickTime last)]
    · exact List.mem_map_of_mem (by simpa using ⟨hlast, hlooks⟩)
    · simp only [List.mem_map, List.mem_filter, decide_eq_true_eq]
      rintro t ⟨feed, ⟨hfeed, hsees⟩, rfl⟩
      exact hlatest feed hfeed hsees
  · have hapart := h.recent hw hage
    exact ⟨hapart.row.trans hw, hapart.marks⟩

/-- A draining worker that was last seen at time zero. -/
def Worker.leaving : Worker where
  id := "w1"
  state := .draining
  capacity := 1
  capabilities := []
  sessionHash := none
  drainRequested := true
  registeredAt := 0
  lastSeen := 0

/-- A tick at seven does not demote it, and the one at thirteen finds it dead. -/
theorem detection_confluent_leaving :
    (Database.detect 6 12 (Moment.still 13) (Database.detect 6 12 (Moment.still 7)
        { workers := Table.empty.add Worker.leaving })).workers.find? "w1" =
      (Database.detect 6 12 (Moment.still 13)
        { workers := Table.empty.add Worker.leaving }).workers.find? "w1" := by
  have hfound : (Table.empty.add Worker.leaving).find? "w1" = some Worker.leaving :=
    Table.find?_add_self (by rfl)
  refine (detection_confluent (((Unheard.refl _).tick (Moment.still 7)).tick (Moment.still 13))
    hfound).1 (Moment.still 13) (by simp) rfl fun feed hfeed _ => ?_
  have hfeed : feed = Moment.still 7 ∨ feed = Moment.still 13 := by simpa using hfeed
  rcases hfeed with rfl | rfl <;> norm_num [tickTime, Moment.still]

end GreyQueue
