import GreyQueue.Lib.Quantile
import GreyQueue.Metrics

/-!
# What a scrape says

The statistics of `snapshot` and the text that `prometheus` makes of it, as whoever reads them
relies on them.  The latencies are quantiles of the durations, and agree with those that the
benchmarks report.  The text is a list of families, none of which occurs twice, with series that
do not occur twice either.  The counters count: between two scrapes each of them grows by the
jobs that came or ended in between.

## Main definitions

* `percentile` — the percentile of the benchmarks.
* `MetricFamily` — a type line with its samples.

## Main results

* `latency_quantiles` — the latencies of a snapshot.
* `scrapes_count` — the exposition of a reachable state, and the counters of a later one.
-/

namespace GreyQueue

open Lib Lib.Quantile

/-! ## Latencies -/

/-- `percentile` of the benchmarks. -/
def percentile (values : List ℚ) (fraction : ℚ) : ℚ :=
  let values := values.insertionSort (· ≤ ·)
  if values = [] then 0
  else
    let index := (values.length - 1 : ℕ) * fraction
    let lo := ⌊index⌋.toNat
    let hi := Nat.min (lo + 1) (values.length - 1)
    values.getD lo 0 + (values.getD hi 0 - values.getD lo 0) * (index - lo)

section Latency

variable {q : ℚ} (l : List ℚ)

/-- A position of the sorted list. -/
theorem getD_eq_nth {i : ℕ} (hi : i ≤ l.length - 1) :
    (l.insertionSort (· ≤ ·)).getD i 0 = nth l i := by
  by_cases hnil : l = []
  · rw [hnil]
    simp [nth]
  · have hpos := List.length_pos_iff.mpr hnil
    rw [nth, if_pos (by omega)]

variable (hq : 0 ≤ q) (hq' : q ≤ 1)

include hq hq'

/-- `percentile_cont` is the interpolated quantile. -/
theorem percentileCont_eq : percentileCont q l = quantile q l := by
  obtain ⟨x, hx⟩ : ∃ x, x = q * (l.length - 1 : ℕ) := ⟨_, rfl⟩
  have hx0 : 0 ≤ x := hx ▸ position_nonneg hq
  have hxle : x ≤ (l.length - 1 : ℕ) := hx ▸ position_le hq'
  rw [percentileCont, quantile, interpolate, ← hx, Int.floor_toNat, Int.ceil_toNat,
    ← natCast_floor_eq_intCast_floor hx0, getD_eq_nth l (Nat.floor_le_of_le hxle),
    getD_eq_nth l (Nat.ceil_le.mpr hxle)]

/-- The benchmarks interpolate towards the next value instead. -/
theorem percentile_eq : percentile l q = quantile q l := by
  obtain ⟨x, hx⟩ : ∃ x, x = q * (l.length - 1 : ℕ) := ⟨_, rfl⟩
  have hx0 : 0 ≤ x := hx ▸ position_nonneg hq
  have hxle : x ≤ (l.length - 1 : ℕ) := hx ▸ position_le hq'
  have hfloor := Nat.floor_le_of_le hxle
  rw [percentile, quantile, ← hx, interpolate_eq _ hx0]
  dsimp only
  rw [length_sorted l, mul_comm ((l.length - 1 : ℕ) : ℚ) q, ← hx, Int.floor_toNat]
  by_cases hnil : l = []
  · subst hnil
    simp [nth]
  have hsorted : l.insertionSort (· ≤ ·) ≠ [] := by
    intro h
    have := length_sorted l
    rw [h] at this
    exact hnil (List.length_eq_zero_iff.mp this.symm)
  rw [if_neg hsorted, getD_eq_nth l hfloor]
  by_cases hlast : ⌊x⌋₊ + 1 ≤ l.length - 1
  · have hmin : Nat.min (⌊x⌋₊ + 1) (l.length - 1) = ⌊x⌋₊ + 1 := Nat.min_eq_left hlast
    rw [hmin, getD_eq_nth l hlast, mul_comm]
  · -- the last value has no next one
    have heq : ⌊x⌋₊ = l.length - 1 := by omega
    have hzero : x - ⌊x⌋₊ = 0 := by
      have := Nat.floor_le hx0
      rw [heq] at this ⊢
      linarith
    rw [hzero, mul_zero, zero_mul]

end Latency

/-- An average lies between the bounds of its values. -/
theorem average_mem_bounds {l : List ℚ} (hnil : l ≠ []) {lo hi : ℚ}
    (h : ∀ x ∈ l, lo ≤ x ∧ x ≤ hi) : lo ≤ average l ∧ average l ≤ hi := by
  have hpos : (0 : ℚ) < l.length := by
    exact_mod_cast List.length_pos_iff.mpr hnil
  have hlo := List.card_nsmul_le_sum l lo fun x hx => (h x hx).1
  have hhi := List.sum_le_card_nsmul l hi fun x hx => (h x hx).2
  rw [nsmul_eq_mul] at hlo hhi
  rw [average, if_neg hnil, le_div_iff₀ hpos, div_le_iff₀ hpos]
  exact ⟨by linarith, by linarith⟩

/-- **Latencies are quantiles.** In every database and at every time, the percentiles of a
snapshot are ordered, lie between the durations of the window like their average, and are those
that the benchmarks would report; at most the proper share of the attempts was slower, and at most
the proper share was faster.  Without attempts all of them are zero. -/
theorem latency_quantiles (db : Database) (m n : Moment) (queueLimit : ℕ) :
    let l := durations db (n.time - 3600)
    let d := (snapshot db m n queueLimit).duration
    (l = [] → d.average = 0 ∧ d.p50 = 0 ∧ d.p95 = 0 ∧ d.p99 = 0) ∧
    d.p50 ≤ d.p95 ∧ d.p95 ≤ d.p99 ∧
    (∀ lo hi, l ≠ [] → (∀ x ∈ l, lo ≤ x ∧ x ≤ hi) →
      lo ≤ d.average ∧ d.average ≤ hi ∧ lo ≤ d.p50 ∧ d.p99 ≤ hi) ∧
    ∀ q p, (q, p) ∈ [(1 / 2, d.p50), (95 / 100, d.p95), (99 / 100, d.p99)] →
      p = percentile l q ∧ (l ≠ [] →
        ⌊q * (l.length - 1 : ℕ)⌋₊ + 1 ≤ l.countP (fun x => decide (x ≤ p)) ∧
        l.length - ⌈q * (l.length - 1 : ℕ)⌉₊ ≤ l.countP fun x => decide (p ≤ x)) := by
  intro l d
  have h50 : d.p50 = quantile (1 / 2) l := percentileCont_eq l (by norm_num) (by norm_num)
  have h95 : d.p95 = quantile (95 / 100) l := percentileCont_eq l (by norm_num) (by norm_num)
  have h99 : d.p99 = quantile (99 / 100) l := percentileCont_eq l (by norm_num) (by norm_num)
  have hspread : ∀ q p, 0 ≤ q → q ≤ 1 → p = quantile q l → p = percentile l q ∧ (l ≠ [] →
      ⌊q * (l.length - 1 : ℕ)⌋₊ + 1 ≤ l.countP (fun x => decide (x ≤ p)) ∧
      l.length - ⌈q * (l.length - 1 : ℕ)⌉₊ ≤ l.countP fun x => decide (p ≤ x)) := by
    rintro q p hq hq' rfl
    exact ⟨(percentile_eq l hq hq').symm, fun hnil =>
      ⟨countP_le_quantile hq hq' hnil, countP_quantile_le q l⟩⟩
  refine ⟨fun hnil => ?_, ?_, ?_, fun lo hi hnil hbounds => ?_, fun q p hmem => ?_⟩
  · rw [h50, h95, h99, hnil]
    have haverage : d.average = average l := rfl
    rw [haverage, hnil]
    simp [average, quantile, interpolate, nth]
  · rw [h50, h95]
    exact quantile_mono (by norm_num) (by norm_num)
  · rw [h95, h99]
    exact quantile_mono (by norm_num) (by norm_num)
  · obtain ⟨hlo, hhi⟩ := average_mem_bounds hnil hbounds
    rw [h50, h99]
    exact ⟨hlo, hhi, (quantile_mem_bounds (by norm_num) hnil hbounds).1,
      (quantile_mem_bounds (by norm_num) hnil hbounds).2⟩
  · simp only [List.mem_cons, Prod.mk.injEq, List.not_mem_nil, or_false] at hmem
    rcases hmem with ⟨rfl, rfl⟩ | ⟨rfl, rfl⟩ | ⟨rfl, rfl⟩
    · exact hspread _ _ (by norm_num) (by norm_num) h50
    · exact hspread _ _ (by norm_num) (by norm_num) h95
    · exact hspread _ _ (by norm_num) (by norm_num) h99

/-! ## Families -/

/-- A type line, and its samples with their labels. -/
structure MetricFamily where
  name : String
  kind : String
  samples : List (List (String × String) × ℚ)

/-- The lines of a family. -/
def MetricFamily.lines (f : MetricFamily) : List MetricLine :=
  .type f.name f.kind :: f.samples.map fun s => .sample f.name s.1 s.2

/-- A family without labels. -/
def MetricFamily.single (name kind : String) (value : ℚ) : MetricFamily :=
  ⟨name, kind, [([], value)]⟩

/-- The families of a scrape. -/
def Snapshot.families (data : Snapshot) : List MetricFamily := [
  .single "greyqueue_jobs_submitted_total" "counter" data.submitted,
  .single "greyqueue_jobs_completed_total" "counter" data.completed,
  .single "greyqueue_jobs_failed_total" "counter" data.failed,
  .single "greyqueue_jobs_retried_total" "counter" data.retries,
  .single "greyqueue_queue_depth" "gauge" data.queueDepth,
  .single "greyqueue_queue_saturation_ratio" "gauge" data.saturation,
  .single "greyqueue_throughput_per_second" "gauge" data.throughput60s,
  .single "greyqueue_queue_wait_seconds" "gauge" data.averageQueueWait,
  ⟨"greyqueue_job_duration_seconds", "gauge", [
    ([("statistic", "average")], data.duration.average),
    ([("statistic", "p50")], data.duration.p50),
    ([("statistic", "p95")], data.duration.p95),
    ([("statistic", "p99")], data.duration.p99)]⟩,
  ⟨"greyqueue_workers", "gauge", [
    ([("state", "HEALTHY")], data.workerStates .healthy),
    ([("state", "SUSPECT")], data.workerStates .suspect),
    ([("state", "DEAD")], data.workerStates .dead),
    ([("state", "DRAINING")], data.workerStates .draining)]⟩,
  ⟨"greyqueue_worker_utilization", "gauge",
    data.live.map fun w => ([("worker", w.id)], w.utilization)⟩,
  ⟨"greyqueue_worker_heartbeat_age_seconds", "gauge",
    data.live.map fun w => ([("worker", w.id)], w.heartbeatAgeSeconds)⟩]

/-- The lines come family by family; what counts is what its name says. -/
theorem prometheus_eq_families (data : Snapshot) :
    prometheus data = data.families.flatMap MetricFamily.lines := by
  have hcounter : ∀ key ∈ ["jobs_submitted_total", "jobs_completed_total", "jobs_failed_total",
      "jobs_retried_total"], key.endsWith "_total" = true := by decide +kernel
  have hgauge : ∀ key ∈ ["queue_depth", "queue_saturation_ratio", "throughput_per_second",
      "queue_wait_seconds"], key.endsWith "_total" = false := by decide +kernel
  simp only [List.mem_cons, List.not_mem_nil, or_false, forall_eq_or_imp, forall_eq]
    at hcounter hgauge
  simp [prometheus, Snapshot.families, MetricFamily.lines, MetricFamily.single, hcounter, hgauge]
  rfl

/-- Every worker is listed once. -/
theorem nodup_workerRows (db : Database) (m : Moment) (limit : ℕ) :
    ((workerRows db m limit).map WorkerRow.id).Nodup := by
  have hperm : ∀ (r r' : Worker → Worker → Prop) [DecidableRel r] [DecidableRel r'],
      ((db.workers.rows.insertionSort r).insertionSort r').Perm db.workers.rows :=
    fun r r' _ _ => (List.perm_insertionSort r' _).trans (List.perm_insertionSort r _)
  rw [workerRows, workerRowsOver, List.map_map]
  refine List.Nodup.sublist ((List.take_sublist limit _).map _) ?_
  exact (((hperm _ _).map Worker.id).nodup_iff).mpr db.workers.nodup

/-- A text that can be read: no family and no series occurs twice, and the names of the counters
tell that they are. -/
structure Readable (families : List MetricFamily) : Prop where
  names : (families.map MetricFamily.name).Nodup
  series : ∀ f ∈ families, (f.samples.map Prod.fst).Nodup
  kinds : ∀ f ∈ families, f.kind = if f.name.endsWith "_total" then "counter" else "gauge"

/-- The type lines of a scrape. -/
def familyHeads : List (String × String) := [
  ("greyqueue_jobs_submitted_total", "counter"), ("greyqueue_jobs_completed_total", "counter"),
  ("greyqueue_jobs_failed_total", "counter"), ("greyqueue_jobs_retried_total", "counter"),
  ("greyqueue_queue_depth", "gauge"), ("greyqueue_queue_saturation_ratio", "gauge"),
  ("greyqueue_throughput_per_second", "gauge"), ("greyqueue_queue_wait_seconds", "gauge"),
  ("greyqueue_job_duration_seconds", "gauge"), ("greyqueue_workers", "gauge"),
  ("greyqueue_worker_utilization", "gauge"), ("greyqueue_worker_heartbeat_age_seconds", "gauge")]

theorem readable_families (db : Database) (m n : Moment) (queueLimit : ℕ) :
    Readable (snapshot db m n queueLimit).families := by
  obtain ⟨data, hdata⟩ : ∃ data, data = snapshot db m n queueLimit := ⟨_, rfl⟩
  have hlive : (data.live.map fun w => [("worker", w.id)]).Nodup := by
    have hids : (data.live.map WorkerRow.id).Nodup := by
      rw [hdata]
      exact (nodup_workerRows db m 200).sublist (List.filter_sublist.map _)
    have hinj : Function.Injective fun id : String => [("worker", id)] := fun x y h => by
      simpa using h
    have heq : (data.live.map fun w => [("worker", w.id)]) =
        (data.live.map WorkerRow.id).map fun id => [("worker", id)] := by
      rw [List.map_map]
      rfl
    rw [heq]
    exact hids.map hinj
  rw [← hdata]
  refine ⟨?_, ?_, ?_⟩
  · have hnames : data.families.map MetricFamily.name = familyHeads.map Prod.fst := rfl
    rw [hnames]
    decide
  · intro f hf
    simp only [Snapshot.families, List.mem_cons, List.not_mem_nil, or_false] at hf
    rcases hf with rfl | rfl | rfl | rfl | rfl | rfl | rfl | rfl | rfl | rfl | rfl | rfl
    all_goals first
      | simp [MetricFamily.single]; done
      | simpa [List.map_map, Function.comp_def] using hlive
  · intro f hf
    have hheads : data.families.map (fun f => (f.name, f.kind)) = familyHeads := rfl
    have hkinds : ∀ h ∈ familyHeads,
        h.2 = if h.1.endsWith "_total" then "counter" else "gauge" := by decide +kernel
    exact hkinds (f.name, f.kind) (hheads ▸ List.mem_map_of_mem hf)

/-! ## Counters -/

/-- How many jobs are as `p` says that were not. -/
def newly (p : Job → Bool) (db db' : Database) : ℕ :=
  db'.jobs.rows.countP fun job => p job && !((db.jobs.find? job.id).any p)

theorem Later.countP_jobs {db db' : Database} (h : Later db db') {p : Job → Bool}
    (hp : ∀ j k : Job, j.Later k → p j = true → p k = true) :
    db'.jobs.rows.countP p = db.jobs.rows.countP p + newly p db db' :=
  h.jobs.countP_eq hp

/-- A state that no transition leaves is kept. -/
theorem Job.Later.status_final {j k : Job} (h : j.Later k) {s : Status} (hs : s.final)
    (hj : j.status = s) : k.status = s := by
  rw [h.2.2 (hj ▸ hs), hj]

/-- The job has failed for good. -/
def Job.dropped (job : Job) : Bool :=
  decide (job.status = .failed) || decide (job.status = .deadLetter)

theorem statesOf_dropped (db : Database) :
    statesOf db .failed + statesOf db .deadLetter = db.jobs.rows.countP Job.dropped := by
  rw [statesOf, statesOf]
  induction db.jobs.rows with
  | nil => rfl
  | cons job rows ih =>
      simp only [List.countP_cons, ← ih, Job.dropped]
      by_cases hfailed : job.status = .failed
      · simp [hfailed]
        omega
      · by_cases hdead : job.status = .deadLetter
        · simp [hdead]
          omega
        · simp [hfailed, hdead]

/-- **Counters count.** In every reachable state a scrape lists its families and series once, and
calls counters what is counted.  From one scrape to any later one, the counters grow by the jobs
that were admitted, that succeeded and that failed for good in between, and no retry is
forgotten. -/
theorem scrapes_count [Sha256] (txns more : List Txn) (m n m' n' : Moment) (limit limit' : ℕ) :
    let db := run txns
    let later := run (txns ++ more)
    let a := snapshot db m n limit
    let b := snapshot later m' n' limit'
    prometheus b = b.families.flatMap MetricFamily.lines ∧ Readable b.families ∧
    b.submitted = a.submitted + newly (fun _ => true) db later ∧
    b.completed = a.completed + newly (fun job => decide (job.status = .succeeded)) db later ∧
    b.failed = a.failed + newly Job.dropped db later ∧
    a.retries ≤ b.retries := by
  intro db later a b
  have hlater : Later db later := run_later txns more
  have hlog : LogInv db := run_logInv txns
  have hlog' : LogInv later := run_logInv (txns ++ more)
  refine ⟨prometheus_eq_families b, readable_families later m' n' limit', ?_, ?_, ?_, ?_⟩
  · have hcount := hlater.countP_jobs (p := fun _ => true) fun _ _ _ _ => rfl
    rw [List.countP_true] at hcount
    have ha : a.submitted = db.jobs.rows.length := hlog.countsOf_submitted
    have hb : b.submitted = later.jobs.rows.length := hlog'.countsOf_submitted
    rw [ha, hb, hcount]
  · have ha : a.completed = statesOf db .succeeded := hlog.countsOf_final rfl
    have hb : b.completed = statesOf later .succeeded := hlog'.countsOf_final rfl
    rw [ha, hb]
    exact hlater.countP_jobs fun j k hjk hj =>
      decide_eq_true (hjk.status_final rfl (of_decide_eq_true hj))
  · have ha : a.failed = statesOf db .failed + statesOf db .deadLetter :=
      congrArg₂ (· + ·) (hlog.countsOf_final rfl) (hlog.countsOf_final rfl)
    have hb : b.failed = statesOf later .failed + statesOf later .deadLetter :=
      congrArg₂ (· + ·) (hlog'.countsOf_final rfl) (hlog'.countsOf_final rfl)
    rw [ha, hb, statesOf_dropped, statesOf_dropped]
    refine hlater.countP_jobs fun j k hjk hj => ?_
    simp only [Job.dropped, Bool.or_eq_true, decide_eq_true_eq] at hj ⊢
    exact hj.imp (hjk.status_final rfl) (hjk.status_final rfl)
  · exact hlater.events.sublist.countP_le

end GreyQueue
